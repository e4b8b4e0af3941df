import Orchestrion.Pattern.Node
import Orchestrion.Pattern.Error

/-!
# Assembling search patterns

A pattern is assembled on a stack of parts, openings of groups and bars. Characters in a row become
one literal, alternatives for one character become one class, and alternatives that begin with the
same characters or the same class share their beginning. Whatever is put on the stack stays within
the limits on depth and size. Sizes are computed only from where the repetitions allow for so many
copies that a limit could be exceeded, and depths only from where there are enough nodes.
-/

namespace Orchestrion.Pattern

/-- What lies on the stack. -/
inductive Item where
  | part (p : Node)
  | bar (number : Nat)
  | opening (number : Nat) (captures : Bool) (outside : Flags)
deriving Repr

def Item.node : Item → Node
  | part p => p
  | bar n | opening n _ _ => .empty n

/-- What is counted while a pattern is assembled. -/
structure Tally where
  /-- How many nodes were made. -/
  made : Nat := 0
  /-- The numbers that are free to be taken again, the last one first. -/
  spare : List Nat := []
  /-- How many code points were put on the stack. -/
  weight : Nat := 0
  /-- How many copies the repetitions can make. -/
  copies : Nat := 1
  /-- The sizes, from where they are computed. -/
  sizes : Option Node.Memory := none
  /-- The depths, from where they are computed. -/
  heights : Option Node.Memory := none
deriving Repr

def maxHeight : Nat := 1000

def maxSize : Nat := 3355443

def maxWeight : Nat := 33554432

def maxCopies : Nat := 1000

namespace Tally

def make (t : Tally) : Nat × Tally :=
  match t.spare with
  | [] => (t.made + 1, { t with made := t.made + 1 })
  | n :: spare => (n, { t with spare })

def free (t : Tally) (number : Nat) : Tally :=
  { t with spare := number :: t.spare, heights := t.heights.map (·.erase number) }

def multiply (t : Tally) (count : Nat) : Tally :=
  { t with copies := if maxSize / t.copies < count then maxSize else t.copies * count }

def isCritical (t : Tally) : Bool := maxSize / t.copies ≤ t.made

end Tally

/-- A pattern as far as it is assembled. -/
structure Draft where
  flags : Flags := {}
  stack : List Item := []
  tally : Tally := {}
deriving Repr

def Draft.nodes (d : Draft) : List Node := d.stack.reverse.map Item.node

abbrev Assembly := StateT Draft (Except Fault)

namespace Assembly

def make : Assembly Nat :=
  modifyGet fun d =>
    let (n, tally) := d.tally.make
    (n, { d with tally })

def free (number : Nat) : Assembly Unit := modify fun d => { d with tally := d.tally.free number }

def freeAll : List Node → Assembly Unit
  | [] => return
  | p :: ps => do
    free p.number
    freeAll ps

def put (i : Item) : Assembly Unit := modify fun d => { d with stack := i :: d.stack }

def measureSizes (ps : List Node) (sizes : Node.Memory) : Assembly Unit := do
  match Node.measureWithin? Node.programSize maxSize ps sizes with
  | some sizes => modify fun d => { d with tally.sizes := some sizes }
  | none => throw .tooLarge

def checkSize (p : Node) : Assembly Unit := do
  let d ← get
  match d.tally.sizes with
  | some sizes => measureSizes [p] sizes
  | none =>
    let tally := d.tally.multiply p.copies
    set { d with tally }
    if tally.isCritical then measureSizes (d.nodes ++ [p]) {}

def measureHeights (ps : List Node) (heights : Node.Memory) : Assembly Unit := do
  match Node.measureWithin? Node.depth maxHeight ps heights with
  | some heights => modify fun d => { d with tally.heights := some heights }
  | none => throw .tooDeep

def checkHeight (p : Node) : Assembly Unit := do
  let d ← get
  match d.tally.heights with
  | some heights => measureHeights [p] heights
  | none => if maxHeight ≤ d.tally.made then measureHeights (d.nodes ++ [p]) {}

def check (p : Node) : Assembly Unit := do
  if maxWeight < (← get).tally.weight then throw .tooLarge
  checkSize p
  checkHeight p

def joinLiterals : Assembly (Option Nat) := do
  let d ← get
  match d.stack with
  | .part (.literal m upper f) :: .part (.literal n lower g) :: rest =>
    if f.fold = g.fold then
      set { d with stack := .part (.literal n (upper ++ lower) g) :: rest }
      return some m
    return none
  | _ => return none

def settle : Assembly Unit := do
  if let some n ← joinLiterals then free n

def pushLetter (number point : Nat) (flags : Flags) : Assembly Unit := do
  match ← joinLiterals with
  | some n => put (.part (.literal n [point] flags))
  | none =>
    let p := Node.literal number [point] flags
    put (.part p)
    check p

def push (p : Node) : Assembly Unit := do
  modify fun d => { d with tally.weight := d.tally.weight + p.weight }
  match p.letter? with
  | some (n, fold) => pushLetter p.number n { (← get).flags with fold }
  | none =>
    settle
    put (.part p)
    check p

def mark (item : Nat → Item) : Assembly Unit := do
  let i := item (← make)
  settle
  put i
  check i.node

def add (node : Nat → Node) : Assembly Unit := do
  push (node (← make))

def character (n : Nat) : Assembly Unit := do
  let flags := (← get).flags
  add fun number => .literal number [if flags.fold then leastCase n else n] flags

def flatten (parts? : Node → Option (List Node)) : List Node → Assembly (List Node)
  | [] => return []
  | p :: ps => do
    match parts? p with
    | some qs =>
      free p.number
      return qs ++ (← flatten parts? ps)
    | none => return p :: (← flatten parts? ps)

def sequenceParts? : Node → Option (List Node)
  | .seq _ ps => some ps
  | _ => none

def alternationParts? : Node → Option (List Node)
  | .alt _ ps => some ps
  | _ => none

def sequence : List Node → Assembly Node
  | [p] => return p
  | ps => do
    let n ← make
    return .seq n (← flatten sequenceParts? ps)

def firstCharacters : Node → List Nat × Bool
  | .seq _ (.literal _ ns flags :: _) => (ns.reverse, flags.fold)
  | .literal _ ns flags => (ns.reverse, flags.fold)
  | _ => ([], false)

def commonStart : List Nat → List Nat → List Nat
  | n :: ns, m :: ms => if n = m then n :: commonStart ns ms else []
  | _, _ => []

/-- Alternatives that begin with the same characters. -/
structure CharacterRun where
  points : List Nat
  fold : Bool
  /-- The nodes, the last one first. -/
  members : List Node

def characterRuns (run : CharacterRun) : List Node → List CharacterRun
  | [] => [run]
  | p :: ps =>
    let (points, fold) := firstCharacters p
    let common := commonStart run.points points
    if fold = run.fold && !common.isEmpty then
      characterRuns { run with points := common, members := p :: run.members } ps
    else run :: characterRuns ⟨points, fold, [p]⟩ ps

def dropCharacters (n : Nat) : Node → Assembly Node
  | .seq m (.literal first ns flags :: ps) => do
    match ns.take (ns.length - n), ps with
    | [], [p] => do
      free first
      free m
      return p
    | [], ps => do
      free first
      return .seq m ps
    | ns, ps => return .seq m (.literal first ns flags :: ps)
  | .literal m ns flags => return match ns.take (ns.length - n) with
    | [] => .empty m
    | ns => .literal m ns flags
  | p => return p

def checkedMap (step : Node → Assembly Node) : List Node → Assembly (List Node)
  | [] => return []
  | p :: ps => do
    let p ← step p
    check p
    return p :: (← checkedMap step ps)

def shareCharacters (alternation : List Node → Assembly Node) :
    List CharacterRun → Assembly (List Node)
  | [] => return []
  | run :: runs => do
    match run.members with
    | [] => shareCharacters alternation runs
    | [p] => return p :: (← shareCharacters alternation runs)
    | members =>
      let first := Node.literal (← make) run.points.reverse { fold := run.fold }
      let rests ← checkedMap (dropCharacters run.points.length) members.reverse
      let rest ← alternation rests
      let n ← make
      return .seq n [first, rest] :: (← shareCharacters alternation runs)

def firstPart? : Node → Option Node
  | .empty _ => none
  | .seq _ (.empty _ :: _) => none
  | .seq _ (p :: _) => some p
  | p => some p

/-- Alternatives that begin with the same part. -/
structure PartRun where
  first : Option Node
  /-- The nodes, the last one first. -/
  members : List Node

def partRuns (run : PartRun) : List Node → List PartRun
  | [] => [run]
  | p :: ps =>
    let first := firstPart? p
    let same := match run.first, first with
      | some q, some r => q.canShare r
      | _, _ => false
    if same then partRuns { run with members := p :: run.members } ps
    else run :: partRuns ⟨first, [p]⟩ ps

def dropPart (isFirst : Bool) : Node → Assembly Node
  | .seq n (p :: ps) => do
    unless isFirst do free p.number
    match ps with
    | [] => return .empty n
    | [p] =>
      free n
      return p
    | ps => return .seq n ps
  | p => do
    unless isFirst do free p.number
    return .empty (← make)

def shareParts (alternation : List Node → Assembly Node) : List PartRun → Assembly (List Node)
  | [] => return []
  | run :: runs => do
    match run.members.reverse, run.first with
    | p :: q :: ps, some first =>
      let head ← checkedMap (dropPart true) [p]
      let tail ← checkedMap (dropPart false) (q :: ps)
      let rest ← alternation (head ++ tail)
      let n ← make
      return .seq n [first, rest] :: (← shareParts alternation runs)
    | ps, _ => return ps ++ (← shareParts alternation runs)

def joinRun (p : Node) (ps : List Node) : Assembly Node := do
  let (most, others) := match Node.mostPlace p 0 1 ps with
    | 0 => (p, ps)
    | n + 1 => (ps.getD n p, ps.set n p)
  freeAll others
  return (others.foldl Node.absorb most).tidy

def joinClasses : List Node → Assembly (List Node)
  | [] => return []
  | p :: ps => do
    let run := if p.isOneChar then ps.takeWhile Node.isOneChar else []
    let p ← if run.isEmpty then pure p else joinRun p run
    return p :: (← joinClasses (ps.drop run.length))
termination_by ps => ps.length
decreasing_by simp +arith

def dropEmpty : List Node → List Node
  | .empty _ :: .empty n :: ps => dropEmpty (.empty n :: ps)
  | p :: ps => p :: dropEmpty ps
  | [] => []
termination_by ps => ps.length

def alternation : Nat → List Node → Assembly Node
  | _, [p] => return p
  | 0, ps => return .alt (← make) ps
  | bound + 1, ps => do
    let n ← make
    let ps ← flatten alternationParts? ps
    let ps ← shareCharacters (alternation bound) (characterRuns ⟨[], false, []⟩ ps)
    let ps ← shareParts (alternation bound) (partRuns ⟨none, []⟩ ps)
    match dropEmpty (← joinClasses ps) with
    | [p] =>
      free n
      return p
    | ps => return .alt n ps

def topParts (above : List Node) : List Item → List Node × List Item
  | .part p :: rest => topParts (p :: above) rest
  | below => (above, below)

def closeSequence : Assembly Unit := do
  settle
  let (ps, below) := topParts [] (← get).stack
  modify fun d => { d with stack := below }
  match ps with
  | [] => add .empty
  | ps => push (← sequence ps)

def closeAlternation (bound : Nat) : Assembly Unit := do
  let stack := match (← get).stack with
    | .part p :: rest => .part p.tidy :: rest
    | stack => stack
  let (ps, below) := topParts [] stack
  modify fun d => { d with stack := below }
  push (← alternation bound ps)

def raiseBar : Assembly Bool := do
  match (← get).stack with
  | .part p :: .bar n :: .part q :: rest =>
    if p.isOneChar && q.isOneChar then
      let (most, other) := if q.scope < p.scope then (p, q) else (q, p)
      modify fun d => { d with stack := .bar n :: .part (most.absorb other) :: rest }
      free other.number
    else modify fun d => { d with stack := .bar n :: .part p :: .part q.tidy :: rest }
    return true
  | i :: .bar n :: rest =>
    modify fun d => { d with stack := .bar n :: i :: rest }
    return true
  | _ => return false

def bar : Assembly Unit := do
  closeSequence
  unless ← raiseBar do mark .bar

def closeGroup (bound : Nat) : Assembly Unit := do
  closeSequence
  if ← raiseBar then modify fun d => { d with stack := d.stack.drop 1 }
  closeAlternation bound

end Assembly

end Orchestrion.Pattern
