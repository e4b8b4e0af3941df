import Orchestrion.Proofs.Number.Values
import Orchestrion.Sound.Wave

/-!
# Samples as whole numbers

A sample is kept between minus one and one, scaled and cut off to a whole number, and the lowest
bytes of that number are stored. The scale of a depth of 32 bits is not a single: it is rounded up
to the next power of two, and full scale is then one step beyond what the bytes can hold.
-/

namespace Orchestrion

open Number Float.Model

/-! ### Clamping -/

theorem ofSingle?_measures :
    Binary.ofSingle? 0 = some ⟨false, 0, -149⟩ ∧ Binary.ofSingle? 1 = some ⟨false, 8388608, -23⟩ ∧
      Binary.ofSingle? (-1) = some ⟨true, 8388608, -23⟩ ∧
      Binary.ofSingle? BitDepth.sixteen.scale = some ⟨false, 16776704, -9⟩ ∧
      Binary.ofSingle? BitDepth.twentyFour.scale = some ⟨false, 16777214, -1⟩ ∧
      Binary.ofSingle? BitDepth.thirtyTwo.scale = some ⟨false, 8388608, 8⟩ := by
  decide +kernel

theorem singleValue?_zero : singleValue? 0 = some 0 := by
  rw [singleValue?_of_ofSingle? ofSingle?_measures.1]
  norm_num [Binary.value]

theorem singleValue?_one : singleValue? 1 = some 1 := by
  rw [singleValue?_of_ofSingle? ofSingle?_measures.2.1]
  norm_num [Binary.value]

theorem singleValue?_neg_one : singleValue? (-1) = some (-1) := by
  rw [singleValue?_of_ofSingle? ofSingle?_measures.2.2.1]
  norm_num [Binary.value]

theorem single_le_iff_of_value {x y : Float32} {p q : ℚ} (hp : singlePosition? x = some p)
    (hq : singlePosition? y = some q) : x ≤ y ↔ p ≤ q := by
  rw [single_le_iff]
  simp [hp, hq]

theorem single_lt_iff_of_value {x y : Float32} {p q : ℚ} (hp : singlePosition? x = some p)
    (hq : singlePosition? y = some q) : x < y ↔ p < q := by
  rw [single_lt_iff]
  simp [hp, hq]

theorem isNaN_iff (v : Float32) : v.isNaN = true ↔ singlePosition? v = none := by
  change v.toModel.unpack.isNaN = true ↔ _
  rw [singlePosition?]
  cases v.toModel.unpack <;> simp [UnpackedFloat.isNaN, position?]

theorem singleValue?_clamp {v : Float32} {p : ℚ} (h : singlePosition? v = some p) :
    singleValue? (clamp v) = some (max (-1) (min 1 p)) := by
  have hone : singlePosition? 1 = some 1 := position?_of_value? singleValue?_one
  have hneg : singlePosition? (-1) = some (-1) := position?_of_value? singleValue?_neg_one
  have hnan : ¬ v.isNaN = true := by
    rw [isNaN_iff, h]
    exact Option.some_ne_none p
  rw [clamp, if_neg hnan]
  simp only [single_lt_iff_of_value hone h, single_lt_iff_of_value h hneg]
  split_ifs with hgt hlt
  · rw [singleValue?_one, min_eq_left hgt.le, max_eq_right (by norm_num)]
  · rw [singleValue?_neg_one, min_eq_right (by linarith), max_eq_left hlt.le]
  · rw [min_eq_right (not_lt.1 hgt), max_eq_right (not_lt.1 hlt)]
    refine value?_of_position? h (lt_of_le_of_lt (abs_le.2 ⟨not_lt.1 hlt, not_lt.1 hgt⟩) ?_)
    exact one_lt_pow₀ one_lt_two (by decide)

namespace BitDepth

/-- The number that one stands for. -/
def unit : BitDepth → ℤ
  | sixteen => 2 ^ 15 - 1
  | twentyFour => 2 ^ 23 - 1
  | thirtyTwo => 2 ^ 31

theorem singleValue?_scale (d : BitDepth) : singleValue? d.scale = some (d.unit : ℚ) := by
  obtain ⟨-, -, -, hsixteen, htwentyFour, hthirtyTwo⟩ := ofSingle?_measures
  cases d with
  | sixteen =>
    rw [singleValue?_of_ofSingle? hsixteen]
    norm_num [Binary.value, unit]
  | twentyFour =>
    rw [singleValue?_of_ofSingle? htwentyFour]
    norm_num [Binary.value, unit]
  | thirtyTwo =>
    rw [singleValue?_of_ofSingle? hthirtyTwo]
    norm_num [Binary.value, unit]

theorem unit_pos (d : BitDepth) : (0 : ℚ) < d.unit := by
  cases d <;> norm_num [unit]

theorem unit_le (d : BitDepth) : (d.unit : ℚ) ≤ 2 ^ 31 := by
  cases d <;> norm_num [unit]

theorem rounded_unit (d : BitDepth) : rounded .binary32 (d.unit : ℚ) = d.unit :=
  Option.some.inj
    (((held_single _).canonical.rounds d.singleValue?_scale).value.symm.trans d.singleValue?_scale)

theorem abs_rounded_le (d : BitDepth) {c : ℚ} (hc : |c| ≤ 1) :
    |rounded .binary32 (c * d.unit)| ≤ d.unit := by
  have hpos := d.unit_pos
  obtain ⟨hlow, hhigh⟩ := abs_le.1 hc
  have hle : rounded .binary32 (c * d.unit) ≤ rounded .binary32 d.unit :=
    rounded_mono (by nlinarith)
  have hge : rounded .binary32 (-d.unit) ≤ rounded .binary32 (c * d.unit) :=
    rounded_mono (by nlinarith)
  rw [rounded_neg] at hge
  rw [d.rounded_unit] at hle hge
  exact abs_le.2 ⟨hge, hle⟩

theorem sample_eq (d : BitDepth) {v : Float32} {c : ℚ} (h : singleValue? (clamp v) = some c)
    (hc : |c| ≤ 1) : d.sample v = towardZero (rounded .binary32 (c * d.unit)) := by
  have hle := (d.abs_rounded_le hc).trans d.unit_le
  have hposition := singlePosition?_mul h d.singleValue?_scale
  rw [bounded_of_abs_le (hle.trans (by norm_num [limit, Format.exponentBias]))] at hposition
  have hword : |towardZero (rounded .binary32 (c * d.unit))| ≤ 2 ^ 31 := by
    exact_mod_cast (abs_towardZero_le _).trans hle
  obtain ⟨hlow, hhigh⟩ := abs_le.1 hword
  rw [sample, singleToWord_eq hposition, toInt_wordOfInt, if_pos (by omega)]

theorem sample_of_position (d : BitDepth) {v : Float32} {p : ℚ} (h : singlePosition? v = some p) :
    d.sample v = towardZero (rounded .binary32 (max (-1) (min 1 p) * d.unit)) := by
  refine d.sample_eq (singleValue?_clamp h) (abs_le.2 ⟨le_max_left .., ?_⟩)
  exact max_le (by norm_num) (min_le_left ..)

theorem sample_intCast (d : BitDepth) {v : Float32} {n : ℤ} (h : singlePosition? v = some (n : ℚ))
    (hn : n = -1 ∨ n = 0 ∨ n = 1) : d.sample v = n * d.unit := by
  have hclamp : max (-1) (min 1 (n : ℚ)) = n := by rcases hn with rfl | rfl | rfl <;> norm_num
  have hround : rounded .binary32 (n * d.unit) = ((n * d.unit : ℤ) : ℚ) := by
    rcases hn with rfl | rfl | rfl <;> simp [rounded_neg, rounded_zero, d.rounded_unit]
  rw [d.sample_of_position h, hclamp, hround, towardZero_intCast]

theorem sample_nan (d : BitDepth) {v : Float32} (h : v.isNaN = true) : d.sample v = 0 := by
  have hclamp : singleValue? (clamp v) = some 0 := by
    rw [clamp, if_pos h, singleValue?_zero]
  rw [d.sample_eq hclamp (by norm_num), zero_mul, rounded_zero]
  exact_mod_cast towardZero_intCast 0

theorem sample_mono (d : BitDepth) {v w : Float32} (h : v ≤ w) : d.sample v ≤ d.sample w := by
  obtain ⟨p, q, hp, hq, hle⟩ := single_le_iff.1 h
  rw [d.sample_of_position hp, d.sample_of_position hq]
  have hpos := d.unit_pos
  exact towardZero_mono (rounded_mono (by gcongr))

theorem abs_sample_le (d : BitDepth) (v : Float32) : |d.sample v| ≤ d.unit := by
  cases hv : singlePosition? v with
  | none =>
    rw [d.sample_nan ((isNaN_iff v).2 hv)]
    exact_mod_cast d.unit_pos.le
  | some p =>
    have hc : |max (-1) (min 1 p)| ≤ 1 :=
      abs_le.2 ⟨le_max_left .., max_le (by norm_num) (min_le_left ..)⟩
    rw [d.sample_of_position hv]
    exact_mod_cast (abs_towardZero_le _).trans (d.abs_rounded_le hc)

theorem abs_sample_lt {v : Float32} (hlow : -1 < v) (hhigh : v < 1) :
    |thirtyTwo.sample v| < 2 ^ 31 := by
  obtain ⟨n, p, hn, hp, hlt⟩ := single_lt_iff.1 hlow
  obtain ⟨p', q, hp', hq, hlt'⟩ := single_lt_iff.1 hhigh
  cases hp.symm.trans hp'
  cases hn.symm.trans (position?_of_value? singleValue?_neg_one)
  cases hq.symm.trans (position?_of_value? singleValue?_one)
  have hclamp : max (-1) (min 1 p) = p := by rw [min_eq_right hlt'.le, max_eq_right hlt.le]
  have habs : |p| < 1 := abs_lt.2 ⟨hlt, hlt'⟩
  have hvalue : singleValue? v = some p :=
    value?_of_position? hp (habs.trans (one_lt_pow₀ one_lt_two (by decide)))
  have hexact := (held_single v).canonical.rounded_mul_two_pow hvalue 31
  rw [thirtyTwo.sample_of_position hp, hclamp, unit, Int.cast_pow, Int.cast_ofNat, hexact]
  have hle := abs_towardZero_le (p * 2 ^ 31)
  rw [abs_mul, abs_of_pos (by positivity : (0 : ℚ) < 2 ^ 31)] at hle
  have hlt : (|towardZero (p * 2 ^ 31)| : ℚ) < 2 ^ 31 := by linarith
  exact_mod_cast hlt

end BitDepth

/-! ### Stored bytes -/

/-- The whole number whose bytes are given, the least significant first. -/
def ofLittleEndian : List UInt8 → ℤ
  | [] => 0
  | b :: bytes => b.toNat + 256 * ofLittleEndian bytes

/-- The whole number that bytes stand for if the highest bit is its sign. -/
def readBack (bytes : List UInt8) : ℤ := (ofLittleEndian bytes).bmod (256 ^ bytes.length)

theorem ofLittleEndian_littleEndian (count : ℕ) (n : ℤ) :
    ofLittleEndian (littleEndian count n) = n % 256 ^ count := by
  induction count generalizing n with
  | zero => simp [littleEndian, ofLittleEndian]
  | succ count ih =>
    have hbyte : ((UInt8.ofNat (n % 256).toNat).toNat : ℤ) = n % 256 := by
      rw [UInt8.toNat_ofNat']
      omega
    rw [littleEndian, ofLittleEndian, hbyte, ih, pow_succ', Int.emod_def, Int.emod_def,
      Int.emod_def, ← Int.ediv_ediv_of_nonneg (by decide)]
    ring

theorem length_littleEndian (count : ℕ) (n : ℤ) : (littleEndian count n).length = count := by
  induction count generalizing n with
  | zero => rfl
  | succ count ih => rw [littleEndian, List.length_cons, ih]

theorem readBack_littleEndian (count : ℕ) (n : ℤ) :
    readBack (littleEndian count n) = n.bmod (256 ^ count) := by
  rw [readBack, ofLittleEndian_littleEndian, length_littleEndian]
  exact_mod_cast Int.emod_bmod n (256 ^ count)

theorem readBack_littleEndian_eq_iff (d : BitDepth) (n : ℤ) :
    readBack (littleEndian d.bytes n) = n ↔ -2 ^ (d.bits - 1) ≤ n ∧ n < 2 ^ (d.bits - 1) := by
  rw [readBack_littleEndian, Int.bmod_eq_iff (by positivity)]
  cases d <;> simp [BitDepth.bytes, BitDepth.bits]

namespace BitDepth

theorem sample_cases (d : BitDepth) (v : Float32) :
    if d = thirtyTwo ∧ 1 ≤ v then d.sample v = 2 ^ (d.bits - 1)
    else if d = thirtyTwo ∧ v ≤ -1 then d.sample v = -2 ^ (d.bits - 1)
    else |d.sample v| ≤ 2 ^ (d.bits - 1) - 1 := by
  have hle := d.abs_sample_le v
  cases d with
  | sixteen | twentyFour =>
    rw [if_neg (by simp), if_neg (by simp)]
    exact hle
  | thirtyTwo =>
    obtain ⟨hlow, hhigh⟩ := abs_le.1 hle
    have hpos : singlePosition? 1 = some 1 := position?_of_value? singleValue?_one
    have hpos' : singlePosition? (-1) = some (-1) := position?_of_value? singleValue?_neg_one
    split_ifs with hone hneg
    · have hone := thirtyTwo.sample_mono hone.2
      rw [thirtyTwo.sample_intCast (n := 1) hpos (by simp), one_mul] at hone
      exact le_antisymm hhigh hone
    · have hneg := thirtyTwo.sample_mono hneg.2
      rw [thirtyTwo.sample_intCast (n := -1) hpos' (by simp), neg_one_mul] at hneg
      exact le_antisymm hneg hlow
    · cases hv : singlePosition? v with
      | none =>
        rw [thirtyTwo.sample_nan ((isNaN_iff v).2 hv)]
        decide
      | some p =>
        rw [single_le_iff_of_value hpos hv] at hone
        rw [single_le_iff_of_value hv hpos'] at hneg
        have hlt := abs_sample_lt
          ((single_lt_iff_of_value hpos' hv).2 (not_le.1 fun h => hneg ⟨rfl, h⟩))
          ((single_lt_iff_of_value hv hpos).2 (not_le.1 fun h => hone ⟨rfl, h⟩))
        exact Int.le_sub_one_of_lt hlt

/-- Samples fit their depth but for full scale at 32 bits: there the number lies one step beyond the
range, and on the upper side the bytes wrap around. -/
theorem sample_range (d : BitDepth) (v : Float32) :
    (v.isNaN = true → d.sample v = 0) ∧
      (0 ≤ v → 0 ≤ d.sample v) ∧ (v ≤ 0 → d.sample v ≤ 0) ∧
      (∀ w, v ≤ w → d.sample v ≤ d.sample w) ∧
      (if d = thirtyTwo ∧ 1 ≤ v then d.sample v = 2 ^ (d.bits - 1)
        else if d = thirtyTwo ∧ v ≤ -1 then d.sample v = -2 ^ (d.bits - 1)
        else |d.sample v| ≤ 2 ^ (d.bits - 1) - 1) ∧
      (readBack (littleEndian d.bytes (d.sample v)) = d.sample v ↔ ¬ (d = thirtyTwo ∧ 1 ≤ v)) := by
  have hzero : d.sample 0 = 0 := by
    rw [d.sample_intCast (n := 0) (position?_of_value? singleValue?_zero) (by simp), zero_mul]
  have hcases := d.sample_cases v
  refine ⟨d.sample_nan, fun h => hzero ▸ d.sample_mono h, fun h => hzero ▸ d.sample_mono h,
    fun w => d.sample_mono, hcases, ?_⟩
  have hpow : (0 : ℤ) < 2 ^ (d.bits - 1) := by positivity
  rw [readBack_littleEndian_eq_iff]
  generalize (2 : ℤ) ^ (d.bits - 1) = limit at hcases hpow ⊢
  split_ifs at hcases with hone hneg
  · exact iff_of_false (by omega) (not_not.2 hone)
  · exact iff_of_true (by omega) hone
  · obtain ⟨hlow, hhigh⟩ := abs_le.1 hcases
    exact iff_of_true (by omega) hone

/-- The loudest sample below full scale. -/
theorem sample_range_loud :
    let v := Float32.ofBits 0x3f7fffff
    0 ≤ v ∧ 0 ≤ thirtyTwo.sample v ∧ thirtyTwo.sample v ≤ thirtyTwo.sample 1 ∧
      readBack (littleEndian thirtyTwo.bytes (thirtyTwo.sample v)) = thirtyTwo.sample v := by
  obtain ⟨-, hsign, -, hmono, -, hread⟩ := thirtyTwo.sample_range (Float32.ofBits 0x3f7fffff)
  have hpos : 0 ≤ Float32.ofBits 0x3f7fffff := by decide +kernel
  have hlt : ¬ (thirtyTwo = thirtyTwo ∧ 1 ≤ Float32.ofBits 0x3f7fffff) := by decide +kernel
  exact ⟨hpos, hsign hpos, hmono 1 (by decide +kernel), hread.2 hlt⟩

/-- Full scale at 32 bits is beyond the range, and is stored as the lowest number. -/
theorem sample_full_scale :
    ¬ |thirtyTwo.sample 1| ≤ 2 ^ (thirtyTwo.bits - 1) - 1 ∧
      readBack (littleEndian thirtyTwo.bytes (thirtyTwo.sample 1)) = -2 ^ (thirtyTwo.bits - 1) := by
  decide +kernel

end BitDepth

end Orchestrion
