/-!
# Powers

Powers of double-precision numbers. The whole part of an exponent is worked off by repeated squaring
of the mantissa, with the power of two kept apart; every product is rounded, so for large exponents
the result is that of this order of multiplications and not the closest number.
-/

namespace Orchestrion.Number

/-- A double with a power of two apart from it. -/
structure Scaled where
  mantissa : Float
  exponent : Int

namespace Scaled

def ofDouble (x : Float) : Scaled :=
  let (mantissa, exponent) := x.frExp
  ⟨mantissa, exponent⟩

def toDouble (s : Scaled) : Float := s.mantissa.scaleB s.exponent

def mul (a b : Scaled) : Scaled := ⟨a.mantissa * b.mantissa, a.exponent + b.exponent⟩

def square (s : Scaled) : Scaled :=
  let m := s.mantissa * s.mantissa
  if m < 0.5 then ⟨m + m, 2 * s.exponent - 1⟩ else ⟨m, 2 * s.exponent⟩

def inverse (s : Scaled) : Scaled := ⟨1 / s.mantissa, -s.exponent⟩

def mulPower (a x : Scaled) (count : Nat) : Scaled :=
  if count = 0 then a
  else if 4096 < x.exponent.natAbs then { a with exponent := a.exponent + x.exponent }
  else mulPower (if count % 2 = 1 then a.mul x else a) x.square (count / 2)
termination_by count

end Scaled

def powerOfParts (x : Float) (whole : Nat) (part : Float) : Scaled :=
  if part == 0 then Scaled.mulPower ⟨1, 0⟩ (.ofDouble x) whole
  else if 0.5 < part then
    Scaled.mulPower ⟨Float.exp ((part - 1) * Float.log x), 0⟩ (.ofDouble x) (whole + 1)
  else Scaled.mulPower ⟨Float.exp (part * Float.log x), 0⟩ (.ofDouble x) whole

def power (x y : Float) : Float :=
  if x == 0 || y == 0 || !x.isFinite || !y.isFinite || 9223372036854775808 <= y.abs then
    Float.pow x y
  else if y == 0.5 then x.sqrt
  else if y == -0.5 then 1 / x.sqrt
  else
    let whole := y.abs.floor
    let s := powerOfParts x whole.toUInt64.toNat (y.abs - whole)
    if y < 0 then s.inverse.toDouble else s.toDouble

end Orchestrion.Number
