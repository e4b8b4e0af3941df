/-!
# Binary numbers

Floating-point numbers taken apart. A finite number is an integer times a power of two, and all
conversions between formats and to integers are computed on these two exactly, so that what they
give is a fact of arithmetic.

* `Binary.ofDouble?`, `Binary.ofSingle?`: the parts of a finite number.
* `Binary.truncate`, `Binary.nearest`: the integer next to it toward zero, and the closest one with
  halves away from zero.
* `narrow`, `widen`: from double to single precision, rounding once with ties to even, and back.
* `toWord`: the integer as a signed 64-bit word; what does not fit becomes the least word.
-/

namespace Orchestrion.Number

/-- A finite binary number. -/
structure Binary where
  /-- Whether the number carries a minus sign; a zero may carry one too. -/
  negative : Bool
  /-- The whole number that is scaled. -/
  mantissa : Nat
  /-- The power of two that scales it. -/
  exponent : Int
deriving DecidableEq, Repr

namespace Binary

def ofDouble? (x : Float) : Option Binary :=
  let bits := x.toBits
  let fraction := (bits &&& 0xfffffffffffff).toNat
  let biased := ((bits >>> 52) &&& 0x7ff).toNat
  let negative := bits >>> 63 != 0
  if biased = 0x7ff then none
  else if biased = 0 then some ⟨negative, fraction, -1074⟩
  else some ⟨negative, fraction + Nat.pow 2 52, (biased : Int) - 1075⟩

def ofSingle? (x : Float32) : Option Binary :=
  let bits := x.toBits
  let fraction := (bits &&& 0x7fffff).toNat
  let biased := ((bits >>> 23) &&& 0xff).toNat
  let negative := bits >>> 31 != 0
  if biased = 0xff then none
  else if biased = 0 then some ⟨negative, fraction, -149⟩
  else some ⟨negative, fraction + Nat.pow 2 23, (biased : Int) - 150⟩

def signed (b : Binary) (magnitude : Nat) : Int :=
  if b.negative then -magnitude else magnitude

def truncate (b : Binary) : Int :=
  b.signed (if 0 ≤ b.exponent then b.mantissa * Nat.pow 2 b.exponent.toNat
    else b.mantissa / Nat.pow 2 (-b.exponent).toNat)

def nearest (b : Binary) : Int :=
  b.signed (if 0 ≤ b.exponent then b.mantissa * Nat.pow 2 b.exponent.toNat
    else (2 * b.mantissa + Nat.pow 2 (-b.exponent).toNat) / Nat.pow 2 ((-b.exponent).toNat + 1))

end Binary

def halveToEven (m s : Nat) : Nat :=
  let unit := Nat.pow 2 s
  let quotient := m / unit
  let remainder := m % unit
  if unit < 2 * remainder || (unit = 2 * remainder && quotient % 2 = 1) then quotient + 1
  else quotient

def singleOfParts (negative : Bool) (magnitude : Nat) : Float32 :=
  Float32.ofBits (magnitude.toUInt32 ||| if negative then 0x80000000 else 0)

def narrow (x : Float) : Float32 :=
  match Binary.ofDouble? x with
  | none => if x.isNaN then Float32.ofBits 0x7fc00000 else singleOfParts (x < 0) 0x7f800000
  | some b =>
    -- Counted in units of the least single in its binade, the bits of a single are consecutive.
    if b.mantissa < Nat.pow 2 52 then singleOfParts b.negative 0
    else if 23 - 149 ≤ b.exponent + 52 then
      let exponent := (b.exponent + 52 + 126).toNat
      let magnitude := exponent * Nat.pow 2 23 + halveToEven b.mantissa 29
      singleOfParts b.negative (min magnitude 0x7f800000)
    else if b.exponent + 52 < -151 then singleOfParts b.negative 0
    else singleOfParts b.negative (halveToEven b.mantissa (-149 - b.exponent).toNat)

def doubleOfParts (negative : Bool) (biased fraction : UInt64) : Float :=
  let sign : UInt64 := if negative then 0x8000000000000000 else 0
  Float.ofBits (sign ||| (biased <<< 52) ||| fraction)

def widen (x : Float32) : Float :=
  let bits := x.toBits
  let negative := bits >>> 31 != 0
  let fraction := (bits &&& 0x7fffff).toUInt64
  let biased := ((bits >>> 23) &&& 0xff).toUInt64
  if biased = 0xff then doubleOfParts negative 0x7ff (fraction <<< 29)
  else if biased != 0 then doubleOfParts negative (biased + 896) (fraction <<< 29)
  else if fraction = 0 then doubleOfParts negative 0 0
  else
    let top := fraction.toNat.log2
    let shift := (52 - top).toUInt64
    doubleOfParts negative (top + 874).toUInt64 ((fraction <<< shift) &&& 0xfffffffffffff)

def wordOfInt (n : Int) : Int64 :=
  if Int64.minValue.toInt ≤ n ∧ n ≤ Int64.maxValue.toInt then Int64.ofInt n else Int64.minValue

def toWord (x : Float) : Int64 :=
  match Binary.ofDouble? x with
  | some b => wordOfInt b.truncate
  | none => Int64.minValue

def singleToWord (x : Float32) : Int64 :=
  match Binary.ofSingle? x with
  | some b => wordOfInt b.truncate
  | none => Int64.minValue

def nearestWord (x : Float) : Int64 :=
  match Binary.ofDouble? x with
  | some b => wordOfInt b.nearest
  | none => Int64.minValue

def truncate (x : Float32) : Float32 :=
  let bits := x.toBits
  let biased := (bits >>> 23) &&& 0xff
  if biased < 127 then Float32.ofBits (bits &&& 0x80000000)
  else if biased < 150 then Float32.ofBits ((bits >>> (150 - biased)) <<< (150 - biased))
  else x

def fraction (x : Float32) : Float32 :=
  let rest := x - truncate x
  if rest.isNaN then rest
  else if x.toBits >>> 31 != 0 then -rest.abs else rest.abs

def floor (x : Float32) : Float32 :=
  let whole := truncate x
  if x < whole then whole - 1 else whole

def ceiling (x : Float32) : Float32 :=
  let whole := truncate x
  if whole < x then whole + 1 else whole

def doubleOfWord (n : Int64) : Float :=
  Float.ofInt n.toInt

def singleOfWord (n : Int64) : Float32 :=
  Float32.ofInt n.toInt

end Orchestrion.Number
