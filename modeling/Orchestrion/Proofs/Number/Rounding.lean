import Mathlib

/-!
# Rounding rational numbers

What a floating-point format does to a rational number, said without bits: the number is counted in
units of a power of two that depends on its size, and the count is rounded to a whole number, halves
going to the even neighbour. Rounding respects the order, also across a change of the unit, and
keeps what the format can hold.
-/

namespace Orchestrion.Number

open Float.Model

/-! ### Whole numbers -/

/-- The whole number closest to `q`; of two equally close ones the even one. -/
def toEven (q : ℚ) : ℤ :=
  if 2 * Int.fract q < 1 ∨ 2 * Int.fract q = 1 ∧ Even ⌊q⌋ then ⌊q⌋ else ⌊q⌋ + 1

theorem floor_le_toEven (q : ℚ) : ⌊q⌋ ≤ toEven q := by
  unfold toEven
  split <;> omega

theorem toEven_le_floor_add_one (q : ℚ) : toEven q ≤ ⌊q⌋ + 1 := by
  unfold toEven
  split <;> omega

@[simp]
theorem toEven_intCast (n : ℤ) : toEven n = n := by
  simp [toEven]

theorem toEven_mono : Monotone toEven := by
  intro q r h
  rcases (Int.floor_le_floor h).lt_or_eq with hlt | heq
  · have := toEven_le_floor_add_one q
    have := floor_le_toEven r
    omega
  · -- Between the same two whole numbers the fractional parts decide.
    have hfract : Int.fract q ≤ Int.fract r := by
      rw [Int.fract, Int.fract, heq]
      linarith
    unfold toEven
    rw [heq]
    split_ifs with hq hr hr
    · exact le_rfl
    · omega
    · exfalso
      apply hq
      rcases hr with hr | ⟨hr, heven⟩
      · exact .inl (by linarith)
      · rcases hfract.lt_or_eq with hf | hf
        · exact .inl (by linarith)
        · exact .inr ⟨by linarith, heven⟩
    · exact le_rfl

theorem toEven_le {q : ℚ} {n : ℤ} (h : q ≤ n) : toEven q ≤ n := by
  simpa using toEven_mono h

theorem le_toEven {q : ℚ} {n : ℤ} (h : n ≤ q) : n ≤ toEven q := by
  simpa using toEven_mono h

theorem toEven_neg (q : ℚ) : toEven (-q) = -toEven q := by
  by_cases hq : Int.fract q = 0
  · obtain ⟨n, rfl⟩ := Int.fract_eq_zero_iff.1 hq
    rw [← Int.cast_neg, toEven_intCast, toEven_intCast]
  · have hfloor : ⌊-q⌋ = -⌊q⌋ - 1 := by
      rw [Int.floor_neg, Int.ceil_eq_floor_add_one_iff_notMem q |>.2 fun h =>
        hq (Int.fract_eq_zero_iff.2 h)]
      omega
    have hfract : Int.fract (-q) = 1 - Int.fract q := Int.fract_neg hq
    have heven : Even (-⌊q⌋ - 1) ↔ ¬ Even ⌊q⌋ := by
      rw [Int.even_sub_one, even_neg]
    simp only [toEven, hfloor, hfract, heven]
    split_ifs with h h' h'
    · -- Both go down: then both fractional parts are below a half, or the floor is even and odd.
      exfalso
      rcases h with h | ⟨h, hodd⟩ <;> rcases h' with h' | ⟨h', heven'⟩
      · linarith
      · linarith
      · linarith
      · exact hodd heven'
    · omega
    · omega
    · exfalso
      push Not at h h'
      have hhalf : 2 * Int.fract q = 1 := by linarith [h.1, h'.1]
      exact h'.2 hhalf (h.2 (by linarith))

/-- The whole number next to `q` on the way to zero. -/
def towardZero (q : ℚ) : ℤ := if 0 ≤ q then ⌊q⌋ else ⌈q⌉

/-- The whole number closest to `q`; of two equally close ones the one farther from zero. -/
def halfAway (q : ℚ) : ℤ := if 0 ≤ q then ⌊q + 1 / 2⌋ else ⌈q - 1 / 2⌉

theorem towardZero_mono : Monotone towardZero := by
  intro q r h
  unfold towardZero
  split_ifs with hq hr hr
  · exact Int.floor_le_floor h
  · linarith
  · calc
      ⌈q⌉ ≤ 0 := Int.ceil_le.2 (by push_cast; linarith)
      _ ≤ ⌊r⌋ := Int.floor_nonneg.2 hr
  · exact Int.ceil_le_ceil h

theorem halfAway_mono : Monotone halfAway := by
  intro q r h
  unfold halfAway
  split_ifs with hq hr hr
  · exact Int.floor_le_floor (by linarith)
  · linarith
  · calc
      ⌈q - 1 / 2⌉ ≤ 0 := Int.ceil_le.2 (by push_cast; linarith)
      _ ≤ ⌊r + 1 / 2⌋ := Int.floor_nonneg.2 (by linarith)
  · exact Int.ceil_le_ceil (by linarith)

theorem towardZero_neg (q : ℚ) : towardZero (-q) = -towardZero q := by
  unfold towardZero
  rcases lt_trichotomy q 0 with hq | rfl | hq
  · rw [if_pos (by linarith), if_neg (by linarith), Int.floor_neg]
  · simp
  · rw [if_neg (by linarith), if_pos hq.le, Int.ceil_neg]

theorem halfAway_neg (q : ℚ) : halfAway (-q) = -halfAway q := by
  unfold halfAway
  rcases lt_trichotomy q 0 with hq | rfl | hq
  · rw [if_pos (by linarith), if_neg (by linarith), ← Int.floor_neg]
    ring_nf
  · norm_num
  · rw [if_neg (by linarith), if_pos hq.le, ← Int.ceil_neg]
    ring_nf

theorem towardZero_intCast (n : ℤ) : towardZero n = n := by
  unfold towardZero
  split
  · exact Int.floor_intCast n
  · exact Int.ceil_intCast n

theorem abs_towardZero_le (q : ℚ) : (|towardZero q| : ℚ) ≤ |q| := by
  unfold towardZero
  split
  next h =>
    rw [abs_of_nonneg h, abs_of_nonneg (by exact_mod_cast Int.floor_nonneg.2 h)]
    exact Int.floor_le q
  next h =>
    have hle : ⌈q⌉ ≤ 0 := Int.ceil_le.2 (by push_cast; linarith)
    rw [abs_of_neg (not_le.1 h), abs_of_nonpos (by exact_mod_cast hle)]
    exact neg_le_neg (Int.le_ceil q)

theorem halfAway_intCast (n : ℤ) : halfAway n = n := by
  unfold halfAway
  split
  · rw [Int.floor_intCast_add]
    norm_num
  · rw [sub_eq_add_neg, Int.ceil_intCast_add]
    norm_num

/-! ### Formats -/

section Formats

variable {q : ℚ} {n e : ℤ}

variable (spec : Format)

/-- The exponent of the unit in which the format counts numbers as large as `q`. -/
def quantum (q : ℚ) : ℤ := spec.targetExponent (Int.log 2 |q| + 1)

/-- The number of the format closest to `q`, with ties to even, if exponents had no limit. -/
def rounded (q : ℚ) : ℚ := toEven (q / 2 ^ quantum spec q) * 2 ^ quantum spec q

variable {spec}

@[simp]
theorem quantum_neg (q : ℚ) : quantum spec (-q) = quantum spec q := by
  rw [quantum, abs_neg, quantum]

@[simp]
theorem rounded_zero : rounded spec 0 = 0 := by
  have : toEven 0 = 0 := by exact_mod_cast toEven_intCast 0
  simp [rounded, this]

@[simp]
theorem rounded_neg (q : ℚ) : rounded spec (-q) = -rounded spec q := by
  simp only [rounded, quantum_neg, neg_div, toEven_neg, Int.cast_neg, neg_mul]

theorem div_quantum_lt (hq : 0 ≤ q) : q / 2 ^ quantum spec q < 2 ^ spec.mantissaBits := by
  rw [div_lt_iff₀ (by positivity), ← zpow_natCast, ← zpow_add₀ two_ne_zero]
  have hlt : q < 2 ^ (Int.log 2 |q| + 1) := by
    simpa [abs_of_nonneg hq] using Int.lt_zpow_succ_log_self one_lt_two q
  refine hlt.trans_le (zpow_le_zpow_right₀ one_le_two ?_)
  rw [quantum, Format.targetExponent]
  omega

theorem le_div_quantum (hq : 0 < q) (h : spec.minExponent < quantum spec q) :
    2 ^ spec.mantissaBitsWithoutImplicit ≤ q / 2 ^ quantum spec q := by
  rw [le_div_iff₀ (by positivity), ← zpow_natCast, ← zpow_add₀ two_ne_zero]
  have hle : (2 : ℚ) ^ Int.log 2 |q| ≤ q := by
    simpa [abs_of_pos hq] using Int.zpow_log_le_self one_lt_two hq
  refine (zpow_le_zpow_right₀ one_le_two ?_).trans hle
  rw [quantum, Format.targetExponent, Format.mantissaBits] at h ⊢
  omega

theorem rounded_le (h : q ≤ n * 2 ^ quantum spec q) : rounded spec q ≤ n * 2 ^ quantum spec q := by
  unfold rounded
  gcongr
  exact toEven_le ((div_le_iff₀ (by positivity)).2 h)

theorem le_rounded (h : n * 2 ^ quantum spec q ≤ q) : n * 2 ^ quantum spec q ≤ rounded spec q := by
  unfold rounded
  gcongr
  exact le_toEven ((le_div_iff₀ (by positivity)).2 h)

theorem rounded_eq_self (h : quantum spec (n * 2 ^ e) ≤ e) :
    rounded spec (n * 2 ^ e) = n * 2 ^ e := by
  obtain ⟨k, hk⟩ := Int.eq_ofNat_of_zero_le (sub_nonneg.2 h)
  have hcount : (n * 2 ^ e : ℚ) = (n * 2 ^ k : ℤ) * 2 ^ quantum spec (n * 2 ^ e) := by
    push_cast
    rw [mul_assoc, ← zpow_natCast, ← zpow_add₀ two_ne_zero]
    congr 2
    omega
  exact le_antisymm ((rounded_le hcount.le).trans hcount.ge)
    (hcount.le.trans (le_rounded hcount.ge))

theorem quantum_le_of_fits (hne : n ≠ 0) (hn : |n| < 2 ^ spec.mantissaBits)
    (he : spec.minExponent ≤ e) : quantum spec (n * 2 ^ e) ≤ e := by
  have hlt : |(n * 2 ^ e : ℚ)| < (2 : ℕ) ^ (spec.mantissaBits + e : ℤ) := by
    rw [abs_mul, abs_of_pos (by positivity : (0 : ℚ) < 2 ^ e), Nat.cast_ofNat,
      zpow_add₀ two_ne_zero, zpow_natCast]
    gcongr
    exact_mod_cast hn
  have hlog := (Int.lt_zpow_iff_log_lt one_lt_two (abs_pos.2 (by positivity))).1 hlt
  rw [quantum, Format.targetExponent]
  omega

theorem rounded_of_fits (hn : |n| < 2 ^ spec.mantissaBits) (he : spec.minExponent ≤ e) :
    rounded spec (n * 2 ^ e) = n * 2 ^ e := by
  rcases eq_or_ne n 0 with rfl | hne
  · simp
  · exact rounded_eq_self (quantum_le_of_fits hne hn he)

theorem rounded_two_zpow (he : spec.minExponent ≤ e) : rounded spec (2 ^ e) = 2 ^ e := by
  have hone : |(1 : ℤ)| < 2 ^ spec.mantissaBits := by
    have hm := spec.hm
    exact one_lt_pow₀ one_lt_two (by rw [Format.mantissaBits]; omega)
  simpa using rounded_of_fits hone he

theorem quantum_mono {r : ℚ} (hq : 0 < q) (h : q ≤ r) : quantum spec q ≤ quantum spec r := by
  have hlog : Int.log 2 |q| ≤ Int.log 2 |r| := by
    rw [abs_of_pos hq, abs_of_pos (hq.trans_le h)]
    exact Int.log_mono_right hq h
  rw [quantum, quantum, Format.targetExponent, Format.targetExponent]
  omega

theorem rounded_le_rounded_of_pos {r : ℚ} (hq : 0 < q) (h : q ≤ r) :
    rounded spec q ≤ rounded spec r := by
  have hquantum : quantum spec q ≤ quantum spec r := quantum_mono hq h
  rcases hquantum.lt_or_eq with hlt | heq
  · -- The largest count in the smaller unit is at most the smallest full count in the larger one.
    have hq' : q ≤ (2 ^ spec.mantissaBits : ℤ) * 2 ^ quantum spec q := by
      rw [← div_le_iff₀ (by positivity)]
      exact_mod_cast (div_quantum_lt hq.le).le
    have hr' : (2 ^ spec.mantissaBitsWithoutImplicit : ℤ) * 2 ^ quantum spec r ≤ r := by
      rw [← le_div_iff₀ (by positivity)]
      have hmin : spec.minExponent ≤ quantum spec q := le_max_right ..
      exact_mod_cast le_div_quantum (hq.trans_le h) (hmin.trans_lt hlt)
    calc
      rounded spec q ≤ (2 ^ spec.mantissaBits : ℤ) * 2 ^ quantum spec q := rounded_le hq'
      _ ≤ (2 ^ spec.mantissaBitsWithoutImplicit : ℤ) * 2 ^ quantum spec r := by
        push_cast
        rw [← zpow_natCast, ← zpow_natCast, ← zpow_add₀ two_ne_zero, ← zpow_add₀ two_ne_zero]
        refine zpow_le_zpow_right₀ one_le_two ?_
        rw [Format.mantissaBits]
        omega
      _ ≤ rounded spec r := le_rounded hr'
  · unfold rounded
    rw [heq]
    gcongr
    exact toEven_mono (by gcongr)

theorem rounded_nonneg (hq : 0 ≤ q) : 0 ≤ rounded spec q := by
  have hle : ((0 : ℤ) : ℚ) * 2 ^ quantum spec q ≤ q := by simpa using hq
  simpa using le_rounded hle

theorem rounded_mono : Monotone (rounded spec) := by
  intro q r h
  rcases lt_or_ge 0 q with hq | hq
  · exact rounded_le_rounded_of_pos hq h
  rcases lt_or_ge r 0 with hr | hr
  · have hneg : rounded spec (-r) ≤ rounded spec (-q) :=
      rounded_le_rounded_of_pos (neg_pos.2 hr) (neg_le_neg h)
    simpa using hneg
  · have hq' : 0 ≤ rounded spec (-q) := rounded_nonneg (neg_nonneg.2 hq)
    rw [rounded_neg, neg_nonneg] at hq'
    exact hq'.trans (rounded_nonneg hr)

end Formats

end Orchestrion.Number
