/-!
# Character classes

Sets of code points as ranges in increasing order that neither touch nor overlap.
-/

namespace Orchestrion.Pattern

abbrev CharClass := List (Nat × Nat)

def lastPoint : Nat := 0x10FFFF

namespace CharClass

def contains : CharClass → Nat → Bool
  | [], _ => false
  | (low, high) :: rs, n => low ≤ n && (n ≤ high || contains rs n)

def merge : List (Nat × Nat) → List (Nat × Nat) → List (Nat × Nat)
  | [], rs => rs
  | r :: rs, ss =>
    ss.takeWhile (fun s => s.1 < r.1) ++ r :: merge rs (ss.dropWhile fun s => s.1 < r.1)

def join (low high : Nat) : List (Nat × Nat) → CharClass
  | [] => [(low, high)]
  | (l, h) :: rs =>
    if l ≤ high + 1 then join low (max high h) rs else (low, high) :: join l h rs

def union (k l : CharClass) : CharClass :=
  match merge k l with
  | [] => []
  | (low, high) :: rs => join low high rs

def pairUnions : List CharClass → List CharClass
  | k :: l :: ks => k.union l :: pairUnions ks
  | ks => ks

def unionInRounds : Nat → List CharClass → CharClass
  | 0, ks => ks.foldl union []
  | _, [] => []
  | _, [k] => k
  | n + 1, ks => unionInRounds n (pairUnions ks)

def unionOf (ks : List CharClass) : CharClass := unionInRounds ks.length ks

def ofRanges (rs : List (Nat × Nat)) : CharClass := unionOf (rs.map fun r => [r])

def gaps (low : Nat) : CharClass → CharClass
  | [] => if low ≤ lastPoint then [(low, lastPoint)] else []
  | (l, h) :: rs => if low < l then (low, l - 1) :: gaps (h + 1) rs else gaps (h + 1) rs

def complement (k : CharClass) : CharClass := k.gaps 0

def ofCounts (start : Nat) : List Nat → CharClass
  | out :: inside :: rest =>
    (start + out, start + out + inside - 1) :: ofCounts (start + out + inside) rest
  | _ => []

end CharClass

def letterNumber (c : Char) : Nat := if c.isLower then c.toNat - 96 else c.toNat - 38

def listedNumbers (n : Option Nat) : List Char → List Nat
  | [] => n.toList
  | '*' :: c :: cs => List.replicate (n.getD 1) (letterNumber c) ++ listedNumbers none cs
  | c :: cs =>
    if c.isDigit then listedNumbers (some (10 * n.getD 0 + (c.toNat - 48))) cs
    else if c = ' ' then n.toList ++ listedNumbers none cs
    else n.toList ++ letterNumber c :: listedNumbers none cs

def CharClass.ofText (text : String) : CharClass := .ofCounts 0 (listedNumbers none text.toList)

def anyPoint : CharClass := [(0, lastPoint)]

def asciiPoints : CharClass := [(0, 127)]

def digitPoints : CharClass := [(48, 57)]

def wordPoints : CharClass := [(48, 57), (65, 90), (95, 95), (97, 122)]

end Orchestrion.Pattern
