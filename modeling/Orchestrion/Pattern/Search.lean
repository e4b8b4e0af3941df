import Orchestrion.Pattern.Basic
import Orchestrion.Pattern.LetterCase
import Orchestrion.Text

/-!
# Searching

Whether a pattern is found in a text. In a given text, a character, a literal or a condition leads
from certain places to others a fixed distance ahead. A whole pattern leads from a set of places to
the set of those where its matches end, which is computed for all of them at once. A pattern that
is bound to the end of the text only is searched for from there.
-/

namespace Orchestrion.Pattern

abbrev Places := Nat

namespace Places

def ofTest (test : Option Char → List Char → Bool) (before : Option Char) : List Char → Places
  | [] => (test before []).toNat
  | c :: cs => 2 * ofTest test (some c) cs + (test before (c :: cs)).toNat

def without (s t : Places) : Places := (s ||| t) ^^^ t

def closure (step : Places → Places) : Nat → Places → Places → Places
  | 0, reached, _ => reached
  | rounds + 1, reached, fresh =>
    let next := without (step fresh) reached
    if next = 0 then reached else closure step rounds (reached ||| next) next

def iterate (step : Places → Places) : Nat → Places → Places
  | 0, places => places
  | count + 1, places => if places = 0 then 0 else iterate step count (step places)

end Places

/-- How a pattern moves sets of places. -/
inductive Moves where
  | step (places : Places) (distance : Nat)
  | seq (ms : List Moves)
  | alt (ms : List Moves)
  | rep (m : Moves) (least : Nat) (most : Option Nat)
deriving Repr

namespace Moves

mutual

def ends (total : Nat) : Moves → Places → Places
  | step places distance, starts => (starts &&& places) <<< distance
  | seq ms, starts => endsOfAll total ms starts
  | alt ms, starts => endsOfAny total ms starts
  | rep m least most, starts =>
    let rounds := match most with
      | some n => n - least
      | none => total
    let first := Places.iterate (fun s => ends total m s) least starts
    Places.closure (fun s => ends total m s) rounds first first

def endsOfAll (total : Nat) : List Moves → Places → Places
  | [], starts => starts
  | m :: ms, starts => endsOfAll total ms (ends total m starts)

def endsOfAny (total : Nat) : List Moves → Places → Places
  | [], _ => 0
  | m :: ms, starts => ends total m starts ||| endsOfAny total ms starts

end

end Moves

def isLetter (n : Nat) (fold : Bool) (c : Char) : Bool :=
  c.toNat = n || (fold && leastCase c.toNat = n)

def beginsWith (fold : Bool) : List Nat → List Char → Bool
  | [], _ => true
  | n :: ns, c :: cs => isLetter n fold c && beginsWith fold ns cs
  | _ :: _, [] => false

mutual

def moves (text : List Char) : Pattern → Moves
  | empty => .seq []
  | literal ns fold => .step (.ofTest (fun _ rest => beginsWith fold ns rest) none text) ns.length
  | char k => .step (.ofTest (fun _ rest => rest.head?.any fun c => k.contains c.toNat) none text) 1
  | anchor a => .step (.ofTest (fun before rest => a.holds before rest) none text) 0
  | seq ps => .seq (movesOfAll text ps)
  | alt ps => .alt (movesOfAll text ps)
  | group p => moves text p
  | rep p least most _ => .rep (moves text p) least most

def movesOfAll (text : List Char) : List Pattern → List Moves
  | [] => []
  | p :: ps => moves text p :: movesOfAll text ps

end

mutual

def isBoundToStart : Pattern → Bool
  | anchor a => a = .textStart
  | seq ps => firstIsBoundToStart ps
  | group p => isBoundToStart p
  | _ => false

def firstIsBoundToStart : List Pattern → Bool
  | [] => false
  | p :: _ => isBoundToStart p

end

mutual

def isBoundToEnd : Pattern → Bool
  | anchor a => a = .textEnd
  | seq ps => lastIsBoundToEnd ps
  | group p => isBoundToEnd p
  | _ => false

def lastIsBoundToEnd : List Pattern → Bool
  | [] => false
  | [p] => isBoundToEnd p
  | _ :: p :: ps => lastIsBoundToEnd (p :: ps)

end

def mostBackward (p : Pattern) (least : Nat) (most : Option Nat) : Option Nat :=
  match p, most with
  | group _, none => some (max 1 least)
  | _, most => most

mutual

def backward : Pattern → Pattern
  | seq ps => seq (backwardAll ps)
  | alt ps => alt (backwardAll ps)
  | group p => group p.backward
  | rep p least most lazy => rep p.backward least (mostBackward p least most) lazy
  | p => p

def backwardAll : List Pattern → List Pattern
  | [] => []
  | p :: ps => p.backward :: backwardAll ps

end

def searched (p : Pattern) : Pattern :=
  if p.isBoundToEnd && !p.isBoundToStart then p.backward else p

def isFoundIn (p : Pattern) (text : Text) : Bool :=
  let chars := text.chars
  let total := chars.length + 1
  (p.searched.moves chars).ends total (Nat.pow 2 total - 1) != 0

end Orchestrion.Pattern
