import Orchestrion.Text
import Orchestrion.Number.Binary

/-!
# Shortest decimal text

A listing writes each constant with the fewest digits that read back as the same single-precision
number, and of those the digits closest to it. Very small and large numbers take an exponent.
-/

namespace Orchestrion.Number

/-- A decimal without a sign. -/
structure ShortDecimal where
  digits : Nat
  /-- The power of ten that scales them. -/
  exponent : Int
deriving DecidableEq, Repr

/-- The numbers that are read as a given one. -/
structure ReadBack where
  low : Nat
  center : Nat
  high : Nat
  closed : Bool
  /-- The power of two by which the three bounds are scaled. -/
  exponent : Int

namespace ReadBack

def ofSingle (b : Binary) : ReadBack :=
  let lowest := b.mantissa = Nat.pow 2 23 ∧ b.exponent ≠ -149
  { low := if lowest then 4 * b.mantissa - 1 else 4 * b.mantissa - 2
    center := 4 * b.mantissa
    high := 4 * b.mantissa + 2
    closed := b.mantissa % 2 = 0
    exponent := b.exponent - 2 }

def scaled (i : ReadBack) (bound : Nat) (places : Int) : Nat × Nat :=
  let (num, den) := if 0 ≤ i.exponent then (bound * Nat.pow 2 i.exponent.toNat, 1)
    else (bound, Nat.pow 2 (-i.exponent).toNat)
  if 0 ≤ places then (num * Nat.pow 10 places.toNat, den)
  else (num, den * Nat.pow 10 (-places).toNat)

def holds (i : ReadBack) (places : Int) (n : Nat) : Bool :=
  let (low, den) := i.scaled i.low places
  let (high, _) := i.scaled i.high places
  if i.closed then low ≤ n * den && n * den ≤ high else low < n * den && n * den < high

def onGrid? (i : ReadBack) (places : Int) : Option Nat :=
  let (num, den) := i.scaled i.center places
  let below := num / den
  let above := 2 * (num - below * den)
  match i.holds places below, i.holds places (below + 1) with
  | true, true =>
    some (if above < den || (above = den && below % 2 = 0) then below else below + 1)
  | true, false => some below
  | false, true => some (below + 1)
  | false, false => none

def firstPlace (i : ReadBack) : Int :=
  let rec settle (fuel : Nat) (places : Int) : Int :=
    match fuel with
    | 0 => places
    | fuel + 1 =>
      let (num, den) := i.scaled i.center places
      if num < den then settle fuel (places + 1)
      else if 10 * den ≤ num then settle fuel (places - 1)
      else places
  settle 100 0

def search (i : ReadBack) (digits : Nat) (places : Int) : ShortDecimal :=
  match digits with
  | 0 => ⟨i.center, 0⟩
  | digits + 1 =>
    match i.onGrid? places with
    | some n => ⟨n, -places⟩
    | none => i.search digits (places + 1)

end ReadBack

def shortest (b : Binary) : ShortDecimal :=
  let i := ReadBack.ofSingle b
  i.search 20 i.firstPlace

def trimZeros (digits : List Char) : List Char :=
  (digits.reverse.dropWhile (· = '0')).reverse

def ShortDecimal.text (d : ShortDecimal) : Text :=
  let all := Nat.toDigits 10 d.digits
  let digits := trimZeros all
  let point := d.exponent + all.length
  let write (cs : List Char) : Text := cs.flatMap Text.ofChar
  let zeros (n : Nat) : Text := List.replicate n 48
  if point - 1 < -4 || 6 < point then
    let exponent := point - 1
    let mantissa := match digits with
      | [] => []
      | [first] => write [first]
      | first :: rest => write [first] ++ "." ++ write rest
    let sign : Text := if exponent < 0 then "-" else "+"
    mantissa ++ "e" ++ sign ++ Text.padZeros 2 (Text.ofNat exponent.natAbs)
  else if point ≤ 0 then
    "0." ++ zeros (-point).toNat ++ write digits
  else
    let whole := digits.take point.toNat
    let rest := digits.drop point.toNat
    let fraction : Text := if rest = [] then "" else "." ++ write rest
    write whole ++ zeros (point.toNat - whole.length) ++ fraction

def singleText (x : Float32) : Text :=
  match Binary.ofSingle? x with
  | none => if x.isNaN then "NaN" else if x < 0 then "-Inf" else "+Inf"
  | some b =>
    let sign : Text := if b.negative then "-" else ""
    let magnitude : Text := if b.mantissa = 0 then "0" else (shortest b).text
    sign ++ magnitude

end Orchestrion.Number
