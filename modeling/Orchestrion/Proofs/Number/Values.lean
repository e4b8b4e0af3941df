import Orchestrion.Proofs.Number.Arithmetic

/-!
# Doubles, singles and words on the line

The parts into which numbers are taken apart are worth what the numbers are, so that the conversions
to words and the arithmetic of doubles and singles are those of rational numbers, rounded.
-/

namespace Orchestrion.Number

open Option

variable {x y : Float} {p q : ℚ}

open Float.Model Float.Model.UnpackedFloat

/-- The rational number with the given parts. -/
def Binary.value (b : Binary) : ℚ :=
  if b.negative then -(b.mantissa * 2 ^ b.exponent) else b.mantissa * 2 ^ b.exponent

/-! ### Parts of numbers -/

section Parts

variable {spec : Format}

theorem toNat_unpackMantissa (b : BitVec spec.numBits) :
    (unpackMantissa b).toNat = b.toNat % 2 ^ spec.mantissaBitsWithoutImplicit := by
  have hm := spec.hm
  simp only [unpackMantissa, BitVec.toNat_cast, BitVec.extractLsb_toNat, Nat.shiftRight_zero]
  congr 2
  omega

theorem toNat_unpackExponent (b : BitVec spec.numBits) :
    (unpackExponent b).toNat =
      b.toNat / 2 ^ spec.mantissaBitsWithoutImplicit % 2 ^ spec.exponentBits := by
  have he := spec.he
  simp only [unpackExponent, BitVec.toNat_cast, BitVec.extractLsb_toNat, Nat.shiftRight_eq_div_pow]
  congr 2
  omega

theorem signOf_eq (b : BitVec spec.numBits) :
    signOf b = if b.toNat / 2 ^ (spec.mantissaBitsWithoutImplicit + spec.exponentBits) % 2 = 0
      then .positive else .negative := by
  have hbit : (unpackSign b).toNat =
      b.toNat / 2 ^ (spec.mantissaBitsWithoutImplicit + spec.exponentBits) % 2 := by
    simp [unpackSign, Nat.shiftRight_eq_div_pow]
  rw [signOf, Sign.ofBitVec, ← hbit]
  refine if_congr ⟨fun h => by rw [h]; rfl, fun h => BitVec.eq_of_toNat_eq h⟩ rfl rfl

/-- The parts of a packed number, by its three fields. -/
def parts? (spec : Format) (negative : Bool) (biased fraction : ℕ) : Option Binary :=
  if biased = 2 * spec.exponentBias + 1 then none
  else if biased = 0 then some ⟨negative, fraction, spec.minExponent⟩
  else some ⟨negative, fraction + 2 ^ spec.mantissaBitsWithoutImplicit,
    biased - (spec.exponentBias + spec.mantissaBitsWithoutImplicit : ℕ)⟩

theorem value?_unpack (b : BitVec spec.numBits) : value? (UnpackedFloat.unpack spec b) =
    (parts? spec (b.toNat / 2 ^ (spec.mantissaBitsWithoutImplicit + spec.exponentBits) % 2 != 0)
      (b.toNat / 2 ^ spec.mantissaBitsWithoutImplicit % 2 ^ spec.exponentBits)
      (b.toNat % 2 ^ spec.mantissaBitsWithoutImplicit)).map Binary.value := by
  rw [← toNat_unpackExponent, ← toNat_unpackMantissa]
  have hsign : ∀ q, signed (signOf b) q =
      if b.toNat / 2 ^ (spec.mantissaBitsWithoutImplicit + spec.exponentBits) % 2 != 0 then -q
      else q := by
    intro q
    rw [signOf_eq]
    split <;> simp_all [signed]
  have hlargest : (unpackExponent b).toNat = 2 * spec.exponentBias + 1 ↔
      unpackExponent b = -1#_ := by
    rw [← BitVec.toNat_inj, BitVec.neg_one_eq_allOnes, BitVec.toNat_allOnes, two_pow_exponentBits]
    rfl
  have hzero : (unpackExponent b).toNat = 0 ↔ unpackExponent b = 0#_ := by
    rw [← BitVec.toNat_inj, BitVec.toNat_ofNat, Nat.zero_mod]
  simp only [parts?, hlargest, hzero]
  by_cases hinf : unpackExponent b = -1#_
  · rw [if_pos hinf, UnpackedFloat.unpack, if_pos hinf]
    split <;> rfl
  rw [if_neg hinf]
  have hu := unpacks b
  generalize UnpackedFloat.unpack spec b = x at hu
  cases hu with
  | infinity h => exact absurd h hinf
  | notANumber h => exact absurd h hinf
  | zero he hm =>
    rw [if_pos he, hm, value?]
    simp [Binary.value]
  | subnormal h he =>
    rw [if_pos he, value?, hsign, minExponent_eq, ← sub_sub]
    rfl
  | normal h he =>
    rw [if_neg he, value?, hsign, Nat.add_comm (2 ^ spec.mantissaBitsWithoutImplicit),
      ← Nat.cast_add spec.exponentBias]
    rfl

end Parts

namespace Binary

theorem map_value_ofDouble? (x : Float) : (ofDouble? x).map value = value? x.toModel.unpack := by
  have hlt := x.toBits.toNat_lt
  have hsign : (x.toBits >>> 63 != 0) = (x.toBits.toNat / 2 ^ 63 % 2 != 0) := by
    rw [Bool.eq_iff_iff, bne_iff_ne, bne_iff_ne, ne_eq, ← UInt64.toNat_inj,
      UInt64.toNat_shiftRight, Nat.shiftRight_eq_div_pow]
    change ¬ x.toBits.toNat / 2 ^ 63 = 0 ↔ _
    omega
  have hexp : ((x.toBits >>> 52) &&& 0x7ff).toNat = x.toBits.toNat / 2 ^ 52 % 2 ^ 11 := by
    rw [UInt64.toNat_and, UInt64.toNat_shiftRight, Nat.shiftRight_eq_div_pow]
    exact Nat.and_two_pow_sub_one_eq_mod _ 11
  have hmant : (x.toBits &&& 0xfffffffffffff).toNat = x.toBits.toNat % 2 ^ 52 :=
    Nat.and_two_pow_sub_one_eq_mod _ 52
  rw [Float.Model.unpack, value?_unpack]
  simp only [ofDouble?, hmant, hexp, hsign]
  rfl

theorem map_value_ofSingle? (x : Float32) : (ofSingle? x).map value = value? x.toModel.unpack := by
  have hlt := x.toBits.toNat_lt
  have hsign : (x.toBits >>> 31 != 0) = (x.toBits.toNat / 2 ^ 31 % 2 != 0) := by
    rw [Bool.eq_iff_iff, bne_iff_ne, bne_iff_ne, ne_eq, ← UInt32.toNat_inj,
      UInt32.toNat_shiftRight, Nat.shiftRight_eq_div_pow]
    change ¬ x.toBits.toNat / 2 ^ 31 = 0 ↔ _
    omega
  have hexp : ((x.toBits >>> 23) &&& 0xff).toNat = x.toBits.toNat / 2 ^ 23 % 2 ^ 8 := by
    rw [UInt32.toNat_and, UInt32.toNat_shiftRight, Nat.shiftRight_eq_div_pow]
    exact Nat.and_two_pow_sub_one_eq_mod _ 8
  have hmant : (x.toBits &&& 0x7fffff).toNat = x.toBits.toNat % 2 ^ 23 :=
    Nat.and_two_pow_sub_one_eq_mod _ 23
  rw [Float32.Model.unpack, value?_unpack]
  simp only [ofSingle?, hmant, hexp, hsign]
  rfl

theorem floor_mul_zpow (m : ℕ) (e : ℤ) : ⌊(m * 2 ^ e : ℚ)⌋ =
    (if 0 ≤ e then m * Nat.pow 2 e.toNat else m / Nat.pow 2 (-e).toNat : ℕ) := by
  split
  next h =>
    lift e to ℕ using h
    exact_mod_cast Int.floor_natCast (m * 2 ^ e)
  next h =>
    obtain ⟨k, rfl⟩ : ∃ k : ℕ, e = -k := ⟨(-e).toNat, by omega⟩
    rw [zpow_neg, zpow_natCast, ← div_eq_mul_inv, neg_neg, Int.toNat_natCast, Nat.pow_eq]
    exact_mod_cast Rat.floor_natCast_div_natCast m (2 ^ k)

theorem floor_mul_zpow_add_half (m : ℕ) (e : ℤ) : ⌊(m * 2 ^ e + 1 / 2 : ℚ)⌋ =
    (if 0 ≤ e then m * Nat.pow 2 e.toNat
      else (2 * m + Nat.pow 2 (-e).toNat) / Nat.pow 2 ((-e).toNat + 1) : ℕ) := by
  split
  next h =>
    lift e to ℕ using h
    have hwhole : (m * 2 ^ (e : ℤ) : ℚ) = (m * 2 ^ e : ℕ) := by
      push_cast
      rw [zpow_natCast]
    rw [hwhole, Int.floor_natCast_add, Int.toNat_natCast, Nat.pow_eq]
    norm_num
  next h =>
    obtain ⟨k, rfl⟩ : ∃ k : ℕ, e = -k := ⟨(-e).toNat, by omega⟩
    have hquotient : (m * 2 ^ (-k : ℤ) + 1 / 2 : ℚ) = (2 * m + 2 ^ k : ℕ) / (2 ^ (k + 1) : ℕ) := by
      push_cast
      rw [zpow_neg, zpow_natCast]
      field_simp
      ring
    rw [hquotient, neg_neg, Int.toNat_natCast, Nat.pow_eq, Nat.pow_eq]
    exact_mod_cast Rat.floor_natCast_div_natCast (2 * m + 2 ^ k) (2 ^ (k + 1))

theorem truncate_eq (b : Binary) : b.truncate = towardZero b.value := by
  have hmagnitude : towardZero (b.mantissa * 2 ^ b.exponent) =
      ⌊(b.mantissa * 2 ^ b.exponent : ℚ)⌋ :=
    if_pos (by positivity)
  rw [truncate, Binary.signed, ← floor_mul_zpow, ← hmagnitude, value]
  split
  · rw [towardZero_neg]
  · rfl

theorem nearest_eq (b : Binary) : b.nearest = halfAway b.value := by
  have hmagnitude : halfAway (b.mantissa * 2 ^ b.exponent) =
      ⌊(b.mantissa * 2 ^ b.exponent + 1 / 2 : ℚ)⌋ :=
    if_pos (by positivity)
  rw [nearest, Binary.signed, ← floor_mul_zpow_add_half, ← hmagnitude, value]
  split
  · rw [halfAway_neg]
  · rfl

end Binary

/-! ### Words -/

theorem toInt_wordOfInt (n : ℤ) : (wordOfInt n).toInt =
    if -2 ^ 63 ≤ n ∧ n < 2 ^ 63 then n else -2 ^ 63 := by
  have hmin : Int64.minValue.toInt = -2 ^ 63 := by decide
  have hmax : Int64.maxValue.toInt = 2 ^ 63 - 1 := by decide
  rw [wordOfInt, hmin, hmax]
  by_cases h : -2 ^ 63 ≤ n ∧ n ≤ 2 ^ 63 - 1
  · rw [if_pos h, if_pos (by omega), Int64.toInt_ofInt_of_le h.1 (by omega)]
  · rw [if_neg h, if_neg (by omega), hmin]

/-- The place of a double on the line. -/
def doublePosition? (x : Float) : Option ℚ := position? .binary64 x.toModel.unpack

/-- The place of a single on the line. -/
def singlePosition? (x : Float32) : Option ℚ := position? .binary32 x.toModel.unpack

theorem signed_limit (spec : Format) (s : Sign) (h : 63 < spec.exponentBias) :
    ∃ n : ℤ, signed s (limit spec) = n ∧ wordOfInt n = Int64.minValue := by
  have hmin : Int64.minValue.toInt = -2 ^ 63 := by decide
  have hmax : Int64.maxValue.toInt = 2 ^ 63 - 1 := by decide
  have hpow : (2 : ℤ) ^ 65 ≤ 2 ^ (spec.exponentBias + 1) :=
    pow_le_pow_right₀ (by decide) (by omega)
  cases s with
  | negative =>
    refine ⟨-2 ^ (spec.exponentBias + 1), by simp [signed, limit], if_neg ?_⟩
    omega
  | positive =>
    refine ⟨2 ^ (spec.exponentBias + 1), by simp [signed, limit], if_neg ?_⟩
    omega

theorem nearestWord_eq (h : doublePosition? x = some p) :
    nearestWord x = wordOfInt (halfAway p) := by
  have hparts := Binary.map_value_ofDouble? x
  rw [nearestWord]
  rcases position?_cases h with hvalue | ⟨s, hinf, rfl⟩
  · rw [hvalue] at hparts
    obtain ⟨b, hb, rfl⟩ := map_eq_some_iff.1 hparts
    rw [hb, ← Binary.nearest_eq]
  · rw [hinf, value?, map_eq_none_iff] at hparts
    obtain ⟨n, hn, hword⟩ := signed_limit .binary64 s (by decide)
    rw [hparts, hn, halfAway_intCast, hword]

theorem singleToWord_eq {x : Float32} (h : singlePosition? x = some p) :
    singleToWord x = wordOfInt (towardZero p) := by
  have hparts := Binary.map_value_ofSingle? x
  rw [singleToWord]
  rcases position?_cases h with hvalue | ⟨s, hinf, rfl⟩
  · rw [hvalue] at hparts
    obtain ⟨b, hb, rfl⟩ := map_eq_some_iff.1 hparts
    rw [hb, ← Binary.truncate_eq]
  · rw [hinf, value?, map_eq_none_iff] at hparts
    obtain ⟨n, hn, hword⟩ := signed_limit .binary32 s (by decide)
    rw [hparts, hn, towardZero_intCast, hword]

theorem nearestWord_of_none (h : doublePosition? x = none) : nearestWord x = Int64.minValue := by
  have hparts := Binary.map_value_ofDouble? x
  have hvalue : value? x.toModel.unpack = none := by
    rw [doublePosition?] at h
    cases hx : x.toModel.unpack <;> simp_all [position?, value?]
  rw [hvalue, map_eq_none_iff] at hparts
  rw [nearestWord, hparts]

/-! ### Arithmetic -/

/-- The rational number that a double is, unless it is infinite. -/
def doubleValue? (x : Float) : Option ℚ := value? x.toModel.unpack

/-- The rational number that a single is, unless it is infinite. -/
def singleValue? (x : Float32) : Option ℚ := value? x.toModel.unpack

theorem held_double (x : Float) : Held .binary64 x.toModel.unpack := held_unpack (by decide) _

theorem held_single (x : Float32) : Held .binary32 x.toModel.unpack := held_unpack (by decide) _

theorem double_le_iff : x ≤ y ↔
    ∃ p q, doublePosition? x = some p ∧ doublePosition? y = some q ∧ p ≤ q :=
  decide_eq_true_iff.trans (le_iff (held_double x) (held_double y))

theorem double_lt_iff : x < y ↔
    ∃ p q, doublePosition? x = some p ∧ doublePosition? y = some q ∧ p < q :=
  decide_eq_true_iff.trans (lt_iff (held_double x) (held_double y))

theorem single_le_iff {x y : Float32} : x ≤ y ↔
    ∃ p q, singlePosition? x = some p ∧ singlePosition? y = some q ∧ p ≤ q :=
  decide_eq_true_iff.trans (le_iff (held_single x) (held_single y))

theorem single_lt_iff {x y : Float32} : x < y ↔
    ∃ p q, singlePosition? x = some p ∧ singlePosition? y = some q ∧ p < q :=
  decide_eq_true_iff.trans (lt_iff (held_single x) (held_single y))

theorem doublePosition?_mul (hp : doubleValue? x = some p) (hq : doubleValue? y = some q) :
    doublePosition? (x * y) = some (bounded .binary64 (rounded .binary64 (p * q))) :=
  (rounds_mul (held_double x).canonical (held_double y).canonical hp hq).position?_unpack
    (by decide)

theorem doublePosition?_add (hp : doubleValue? x = some p) (hq : doubleValue? y = some q) :
    doublePosition? (x + y) = some (bounded .binary64 (rounded .binary64 (p + q))) :=
  (rounds_add (held_double x).canonical (held_double y).canonical hp hq).position?_unpack
    (by decide)

theorem doublePosition?_sub (hp : doubleValue? x = some p) (hq : doubleValue? y = some q) :
    doublePosition? (x - y) = some (bounded .binary64 (rounded .binary64 (p - q))) := by
  have hsub := rounds_add (held_double x).canonical (held_double y).canonical.neg hp (value?_neg hq)
  rw [← sub_eq, ← sub_eq_add_neg] at hsub
  exact hsub.position?_unpack (by decide)

theorem singlePosition?_mul {x y : Float32} (hp : singleValue? x = some p)
    (hq : singleValue? y = some q) :
    singlePosition? (x * y) = some (bounded .binary32 (rounded .binary32 (p * q))) :=
  (rounds_mul (held_single x).canonical (held_single y).canonical hp hq).position?_unpack
    (by decide)

theorem rounded_of_doubleValue? (h : doubleValue? x = some q) : rounded .binary64 q = q :=
  Option.some.inj (((held_double x).canonical.rounds h).value.symm.trans h)

theorem bounded_rounded (h : doublePosition? x = some p) :
    bounded .binary64 (rounded .binary64 p) = p := by
  rcases position?_cases h with hvalue | ⟨s, -, rfl⟩
  · rw [rounded_of_doubleValue? hvalue, bounded_of_abs_le ((held_double x).abs_lt hvalue).le]
  · rw [rounded_signed, rounded_limit, bounded_signed, bounded_of_le le_rfl]

theorem doubleValue?_of_ofDouble? {b : Binary} (h : Binary.ofDouble? x = some b) :
    doubleValue? x = some b.value := by
  rw [doubleValue?, ← Binary.map_value_ofDouble?, h, map_some]

theorem doubleValue?_zero : doubleValue? 0 = some 0 := by
  have hparts : Binary.ofDouble? 0 = some ⟨false, 0, -1074⟩ := by decide +kernel
  rw [doubleValue?_of_ofDouble? hparts]
  norm_num [Binary.value]

theorem doublePosition?_mul_of_one_le (hp : doublePosition? x = some p)
    (hq : doubleValue? y = some q)
    (h : 1 ≤ q) : doublePosition? (x * y) =
    some (bounded .binary64 (rounded .binary64 (p * q))) := by
  rcases position?_cases hp with hvalue | ⟨s, hinf, rfl⟩
  · exact doublePosition?_mul hvalue hq
  · have hlimit : rounded .binary64 (limit .binary64) ≤ rounded .binary64 (limit .binary64 * q) :=
      rounded_mono (le_mul_of_one_le_right limit_pos.le h)
    rw [rounded_limit] at hlimit
    change position? .binary64 (UnpackedFloat.unpack .binary64 (UnpackedFloat.pack .binary64
      (UnpackedFloat.mul .binary64 x.toModel.unpack y.toModel.unpack))) = _
    rw [hinf, infinity_mul s hq (by linarith), UnpackedFloat.pack, unpack_packedInfinity,
      position?, signed_mul, rounded_signed, bounded_signed, bounded_of_le hlimit]

theorem double_sub_pos (h : x < y) : 0 < y - x := by
  obtain ⟨p, q, hp, hq, hlt⟩ := double_lt_iff.1 h
  suffices ∃ d, doublePosition? (y - x) = some d ∧ 0 < d from
    double_lt_iff.2 ⟨0, this.imp fun d hd => ⟨position?_of_value? doubleValue?_zero, hd⟩⟩
  by_cases hvalues : ∃ p' q', doubleValue? x = some p' ∧ doubleValue? y = some q'
  · obtain ⟨p', q', hp', hq'⟩ := hvalues
    cases hp.symm.trans (position?_of_value? hp')
    cases hq.symm.trans (position?_of_value? hq')
    obtain ⟨m, rfl⟩ := (held_double x).canonical.exists_int hp'
    obtain ⟨n, rfl⟩ := (held_double y).canonical.exists_int hq'
    refine ⟨_, doublePosition?_sub hq' hp', lt_max_of_lt_right (lt_min limit_pos ?_)⟩
    have hunit : (0 : ℚ) < 2 ^ Format.binary64.minExponent := by positivity
    have hone : (1 : ℚ) ≤ n - m := by
      have hmn : m < n := by exact_mod_cast lt_of_mul_lt_mul_right hlt hunit.le
      exact_mod_cast Int.le_sub_left_of_add_le hmn
    calc
      (0 : ℚ) < 2 ^ Format.binary64.minExponent := hunit
      _ = rounded .binary64 (2 ^ Format.binary64.minExponent) := (rounded_two_zpow le_rfl).symm
      _ ≤ rounded .binary64 (n * 2 ^ Format.binary64.minExponent - m * 2 ^
        Format.binary64.minExponent) :=
        rounded_mono (by rw [← sub_mul]; exact le_mul_of_one_le_left hunit.le hone)
  · have hnone : doubleValue? x = none ∨ doubleValue? y = none := by
      cases hx : doubleValue? x with
      | none => exact .inl rfl
      | some p' =>
        cases hy : doubleValue? y with
        | none => exact .inr rfl
        | some q' => exact absurd ⟨p', q', hx, hy⟩ hvalues
    refine ⟨limit .binary64, ?_, limit_pos⟩
    change position? .binary64 (UnpackedFloat.unpack .binary64 (UnpackedFloat.pack .binary64
      (UnpackedFloat.sub .binary64 y.toModel.unpack x.toModel.unpack))) = _
    rw [sub_eq_infinity (held_double x) (held_double y) hp hq hlt hnone, UnpackedFloat.pack,
      unpack_packedInfinity, position?, signed]

theorem double_le_add (hp : doubleValue? x = some p) (hy : 0 ≤ y) : x ≤ x + y := by
  obtain ⟨o, q, ho, hq, hle⟩ := double_le_iff.1 hy
  cases ho.symm.trans (position?_of_value? doubleValue?_zero)
  have hlimit := (held_double x).abs_lt hp
  refine double_le_iff.2 ⟨p, ?_⟩
  rcases position?_cases hq with hvalue | ⟨s, hinf, rfl⟩
  · refine ⟨_, position?_of_value? hp, doublePosition?_add hp hvalue, ?_⟩
    calc
      p = bounded .binary64 (rounded .binary64 p) := (bounded_rounded (position?_of_value? hp)).symm
      _ ≤ bounded .binary64 (rounded .binary64 (p + q)) :=
        bounded_mono (rounded_mono (le_add_of_nonneg_right hle))
  · refine ⟨signed s (limit .binary64), position?_of_value? hp, ?_, ?_⟩
    · change position? .binary64 (UnpackedFloat.unpack .binary64 (UnpackedFloat.pack .binary64
        (UnpackedFloat.add .binary64 x.toModel.unpack y.toModel.unpack))) = _
      rw [hinf, add_infinity hp, UnpackedFloat.pack, unpack_packedInfinity, position?]
    · have hpos : 0 < limit .binary64 := limit_pos
      cases s with
      | negative =>
        rw [signed] at hle
        linarith
      | positive => exact (abs_lt.1 hlimit).2.le

theorem singleValue?_of_ofSingle? {x : Float32} {b : Binary} (h : Binary.ofSingle? x = some b) :
    singleValue? x = some b.value := by
  rw [singleValue?, ← Binary.map_value_ofSingle?, h, map_some]

/-! ### Whole numbers -/

theorem doublePosition?_ofNat (n : ℕ) :
    doublePosition? (Float.ofNat n) = some (bounded .binary64 (rounded .binary64 n)) := by
  change doublePosition? (Float.ofScientific n false 0) = _
  rw [Float.ofScientific]
  split
  next hsmall =>
    -- A small number is converted as a word and multiplied by one.
    have hsame : n.toUInt64.toNat = n := by
      rw [Nat.toUInt64, UInt64.toNat_ofNat']
      omega
    have hword : doublePosition? n.toUInt64.toFloat =
        some (bounded .binary64 (rounded .binary64 n)) := by
      have h : doublePosition? n.toUInt64.toFloat =
          some (bounded .binary64 (rounded .binary64 n.toUInt64.toNat)) :=
        (rounds_ofNat _).position?_unpack (by decide)
      rwa [hsame] at h
    have hone : doubleValue? Float.exactlyRepresentablePowersOfTen[0]! = some 1 := by
      have hparts : Binary.ofDouble? Float.exactlyRepresentablePowersOfTen[0]! =
          some ⟨false, 4503599627370496, -52⟩ := by decide +kernel
      rw [doubleValue?_of_ofDouble? hparts]
      norm_num [Binary.value]
    have hmul := doublePosition?_mul_of_one_le hword hone le_rfl
    rwa [mul_one, bounded_rounded hword] at hmul
  next hlarge => exact (rounds_ofScientific (by omega)).position?_unpack (by decide)

theorem doubleValue?_ofNat {n : ℕ} (hn : n < 2 ^ 63) :
    doubleValue? (Float.ofNat n) = some (rounded .binary64 n) := by
  have hlimit : |rounded .binary64 (n : ℚ)| < limit .binary64 := by
    rw [abs_of_nonneg (rounded_nonneg (by positivity))]
    calc
      rounded .binary64 (n : ℚ) ≤ rounded .binary64 (2 ^ (63 : ℤ)) :=
        rounded_mono (by exact_mod_cast hn.le)
      _ = 2 ^ (63 : ℤ) := rounded_two_zpow (by decide)
      _ < limit .binary64 := by
        rw [limit, ← zpow_natCast]
        exact zpow_lt_zpow_right₀ one_lt_two (by decide)
  refine value?_of_position? ((doublePosition?_ofNat n).trans ?_) hlimit
  rw [bounded_of_abs_le hlimit.le]

end Orchestrion.Number
