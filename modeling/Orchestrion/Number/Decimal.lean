import Orchestrion.Text

/-!
# Decimal numerals

Reading the numerals of orchestras and scores: digits with an optional point and an optional
exponent, and in scores an optional sign. A numeral is first read as an exact decimal; its value
is the double closest to that.
-/

namespace Orchestrion.Number

/-- A decimal number. -/
structure Decimal where
  /-- Whether a minus sign stands in front. -/
  negative : Bool
  /-- All digits read as one whole number. -/
  digits : Nat
  /-- The power of ten that scales it. -/
  exponent : Int
deriving DecidableEq, Repr

def digitsValue (t : Text) : Nat :=
  t.foldl (fun n b => 10 * n + (b.toNat - 48)) 0

def natural? (t : Text) : Option Nat :=
  if t ≠ [] ∧ t.all Text.isDigit then some (digitsValue t) else none

namespace Decimal

def exponent? : Text → Option Int
  | [] => none
  | sign :: rest =>
    if Text.isSymbol '-' sign then (natural? rest).map fun n => -(n : Int)
    else if Text.isSymbol '+' sign then (natural? rest).map Int.ofNat
    else (natural? (sign :: rest)).map Int.ofNat

def unsigned? (t : Text) : Option Decimal :=
  let whole := t.takeWhile Text.isDigit
  let rest := t.dropWhile Text.isDigit
  let (fraction, rest) := match rest with
    | b :: after =>
      if Text.isSymbol '.' b then (after.takeWhile Text.isDigit, after.dropWhile Text.isDigit)
      else ([], rest)
    | [] => ([], [])
  let digits := whole ++ fraction
  if digits = [] then none
  else match rest with
    | [] => some ⟨false, digitsValue digits, -(fraction.length : Int)⟩
    | mark :: after =>
      if Text.isSymbol 'e' mark || Text.isSymbol 'E' mark then
        (exponent? after).map fun e => ⟨false, digitsValue digits, e - fraction.length⟩
      else none

def read? : Text → Option Decimal
  | [] => none
  | sign :: rest =>
    if Text.isSymbol '-' sign then (unsigned? rest).map fun d => { d with negative := true }
    else if Text.isSymbol '+' sign then unsigned? rest
    else unsigned? (sign :: rest)

def magnitude? (d : Decimal) : Option Float :=
  let places := d.exponent + (Nat.toDigits 10 d.digits).length
  if d.digits = 0 || places < -400 then some 0
  else if 400 < places then none
  else
    let x := Float.ofScientific d.digits (decide (d.exponent < 0)) d.exponent.natAbs
    if x.isInf then none else some x

def value? (d : Decimal) : Option Float :=
  d.magnitude?.map fun x => if d.negative then -x else x

end Decimal

end Orchestrion.Number
