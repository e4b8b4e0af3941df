import Orchestrion.Pattern.Basic
import Orchestrion.Pattern.LetterCase
import Std.Data.TreeMap.Basic

/-!
# Nodes of search patterns

A pattern that is being assembled consists of nodes with numbers. Numbers are given back and taken
again, and measures are remembered by number: as long as the memory of a number is kept, a node that
takes it counts as large as the earlier one, until it is measured itself.
-/

namespace Orchestrion.Pattern

/-- How a part of a pattern is read. -/
structure Flags where
  /-- Upper and lower case count as the same. -/
  fold : Bool := false
  lines : Bool := false
  /-- A point stands for a line end, too. -/
  pointAll : Bool := false
  /-- Repetitions are rather short than long. -/
  lazy : Bool := false
deriving DecidableEq, Repr, Inhabited

/-- A part of a pattern that is being assembled. -/
inductive Node where
  | empty (number : Nat)
  /-- Characters in a row, by their code points, the last one first, and the flags they were read
  with. -/
  | literal (number : Nat) (points : List Nat) (flags : Flags)
  | char (number : Nat) (k : CharClass)
  /-- Any character, or any but a line end. -/
  | point (number : Nat) (all : Bool)
  | anchor (number : Nat) (a : Anchor)
  | seq (number : Nat) (parts : List Node)
  | alt (number : Nat) (parts : List Node)
  | group (number : Nat) (part : Node)
  | rep (number : Nat) (part : Node) (least : Nat) (most : Option Nat) (lazy : Bool)
deriving Repr, Inhabited

def pointClass (all : Bool) : CharClass :=
  if all then anyPoint else CharClass.complement [(10, 10)]

namespace Node

def number : Node → Nat
  | empty n | literal n _ _ | char n _ | point n _ | anchor n _ | seq n _ | alt n _ | group n _
  | rep n _ _ _ _ => n

mutual

def pattern : Node → Pattern
  | empty _ => .empty
  | literal _ points flags => .literal points.reverse flags.fold
  | char _ k => .char k
  | point _ all => .char (pointClass all)
  | anchor _ a => .anchor a
  | seq _ parts => .seq (patterns parts)
  | alt _ parts => .alt (patterns parts)
  | group _ part => .group part.pattern
  | rep _ part least most lazy => .rep part.pattern least most lazy

def patterns : List Node → List Pattern
  | [] => []
  | p :: ps => p.pattern :: patterns ps

end

def isOneChar : Node → Bool
  | literal _ [_] _ | char .. | point .. => true
  | _ => false

def scope : Node → Nat
  | char .. => 1
  | point _ false => 2
  | point _ true => 3
  | _ => 0

def weight : Node → Nat
  | literal _ points _ => points.length
  | char _ k => 2 * k.length
  | _ => 0

def expressesLess (p q : Node) : Bool :=
  p.scope < q.scope || (p.scope = q.scope && p.weight < q.weight)

def mostPlace (best : Node) (place next : Nat) : List Node → Nat
  | [] => place
  | p :: ps =>
    if best.expressesLess p then mostPlace p next (next + 1) ps
    else mostPlace best place (next + 1) ps

def letter? : Node → Option (Nat × Bool)
  | char _ k => k.letter?
  | _ => none

def sameChar : Node → Node → Bool
  | literal _ [n] _, literal _ [m] _ => n = m
  | char _ k, char _ l => k = l
  | point _ all, point _ all' => all = all'
  | _, _ => false

def canShare : Node → Node → Bool
  | rep _ p a (some b) f, rep _ q c (some d) g =>
    p.sameChar q && a = b && a = c && b = d && f = g
  | p, q => p.sameChar q

def charClass : Node → CharClass
  | literal _ [n] flags => .ofPoint n flags.fold
  | char _ k => k
  | point _ all => pointClass all
  | _ => []

def tidy : Node → Node
  | char n k =>
    if k = pointClass true then point n true
    else if k = pointClass false then point n false
    else char n k
  | p => p

def absorb : Node → Node → Node
  | point n all, p => point n (all || p.charClass.contains 10)
  | literal n [x] f, literal _ [y] g =>
    if x = y && f = g then literal n [x] f
    else char n ((CharClass.ofPoint x f.fold).union (.ofPoint y g.fold))
  | char n k, p => char n (k.union p.charClass)
  | p, _ => p

def copies : Node → Nat
  | rep _ _ least most _ => max 1 (most.getD least)
  | _ => 1

mutual

def staysWithin : Nat → Node → Bool
  | n, rep _ p least most _ =>
    match most.getD least with
    | 0 => most = some 0 || staysWithin n p
    | count + 1 => count + 1 ≤ n && staysWithin (n / (count + 1)) p
  | n, seq _ ps => allStayWithin n ps
  | n, alt _ ps => allStayWithin n ps
  | n, group _ p => staysWithin n p
  | _, _ => true

def allStayWithin : Nat → List Node → Bool
  | _, [] => true
  | n, p :: ps => staysWithin n p && allStayWithin n ps

end

abbrev Memory := Std.TreeMap Nat Nat

def repeatedSize (size least : Nat) : Option Nat → Nat
  | some most => most * size + (most - least)
  | none => if least = 0 then 2 + size else 1 + least * size

def programSize (sizes : List Nat) : Node → Nat
  | literal _ points _ => points.length
  | group .. => 2 + sizes.foldl Nat.add 0
  | rep _ _ least most _ => repeatedSize (sizes.foldl Nat.add 0) least most
  | seq .. => sizes.foldl Nat.add 0
  | alt .. => sizes.foldl Nat.add 0 + (sizes.length - 1)
  | _ => 1

def depth (depths : List Nat) (_ : Node) : Nat := 1 + depths.foldl max 0

def lookUp (number : Nat) (memory : Memory) (measuring : Memory → Nat × Memory) : Nat × Memory :=
  match memory[number]? with
  | some n => (n, memory)
  | none => measuring memory

def remember (number n : Nat) (memory : Memory) : Nat × Memory :=
  (max 1 n, memory.insert number (max 1 n))

mutual

def measure (rule : List Nat → Node → Nat) : Node → Memory → Nat × Memory
  | seq n ps, memory =>
    let (ns, memory) := measureParts rule ps memory
    remember n (rule ns (seq n ps)) memory
  | alt n ps, memory =>
    let (ns, memory) := measureParts rule ps memory
    remember n (rule ns (alt n ps)) memory
  | group n p, memory =>
    let (m, memory) := lookUp p.number memory fun memory => measure rule p memory
    remember n (rule [m] (group n p)) memory
  | rep n p least most lazy, memory =>
    let (m, memory) := lookUp p.number memory fun memory => measure rule p memory
    remember n (rule [m] (rep n p least most lazy)) memory
  | p, memory => remember p.number (rule [] p) memory

def measureParts (rule : List Nat → Node → Nat) : List Node → Memory → List Nat × Memory
  | [], memory => ([], memory)
  | p :: ps, memory =>
    let (m, memory) := lookUp p.number memory fun memory => measure rule p memory
    let (ms, memory) := measureParts rule ps memory
    (m :: ms, memory)

end

def measureWithin? (rule : List Nat → Node → Nat) (limit : Nat) :
    List Node → Memory → Option Memory
  | [], memory => some memory
  | p :: ps, memory =>
    let (m, memory) := p.measure rule memory
    if limit < m then none else measureWithin? rule limit ps memory

end Node

end Orchestrion.Pattern
