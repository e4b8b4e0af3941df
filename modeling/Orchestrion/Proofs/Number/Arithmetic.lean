import Orchestrion.Proofs.Number.Position

/-!
# Exact meaning of floating-point arithmetic

Products, sums and conversions of floating-point numbers are the exact results, rounded to the
format and bounded by its infinities.
-/

namespace Orchestrion.Number

open Float.Model Float.Model.UnpackedFloat UnpackedFloat

/-! ### Shifting mantissas -/

theorem shiftRight_succ (m n : ℕ) :
    ExtendedMantissa.ofMantissaAndAccuracy m .exact >>> (n + 1) =
      ⟨m / 2 ^ (n + 1), m / 2 ^ n % 2 != 0, m % 2 ^ n != 0⟩ := by
  change (n + 1).repeat ExtendedMantissa.shiftRightOne _ = _
  induction n with
  | zero =>
    simp [Nat.repeat, ExtendedMantissa.shiftRightOne, ExtendedMantissa.ofMantissaAndAccuracy,
      Nat.mod_one]
  | succ n ih =>
    rw [Nat.repeat, ih, ExtendedMantissa.shiftRightOne]
    have hsticky : (m / 2 ^ n % 2 != 0 || m % 2 ^ n != 0) = (m % 2 ^ (n + 1) != 0) := by
      rw [Nat.mod_pow_succ]
      have : 0 < 2 ^ n := by positivity
      rw [Bool.eq_iff_iff]
      simp
      tauto
    rw [Nat.div_div_eq_div_mul, ← Nat.pow_succ, hsticky]

theorem mantissa_shiftRight (m n : ℕ) :
    (ExtendedMantissa.ofMantissaAndAccuracy m .exact >>> n).mantissa = m / 2 ^ n := by
  cases n with
  | zero =>
    change m = m / 2 ^ 0
    simp
  | succ n => rw [shiftRight_succ]

theorem halveToEven_eq (m s : ℕ) : halveToEven m s =
    if 2 ^ s < 2 * (m % 2 ^ s) ∨ 2 ^ s = 2 * (m % 2 ^ s) ∧ m / 2 ^ s % 2 = 1 then m / 2 ^ s + 1
    else m / 2 ^ s := by
  simp [halveToEven]

theorem roundedMantissa_eq (k : ℕ) (round sticky : Bool) :
    ExtendedMantissa.roundedMantissa ⟨k, round, sticky⟩ =
      if round ∧ (sticky ∨ k % 2 = 1) then k + 1 else k := by
  cases round <;> cases sticky <;>
    simp [ExtendedMantissa.roundedMantissa, ExtendedMantissa.accuracy, Accuracy.roundToNearestEven]
  split <;> omega

theorem roundedMantissa_shiftRight (m n : ℕ) :
    (ExtendedMantissa.ofMantissaAndAccuracy m .exact >>> n).roundedMantissa = halveToEven m n := by
  rw [halveToEven_eq]
  cases n with
  | zero =>
    change m = _
    simp [Nat.mod_one]
  | succ n =>
    have hlt : m % 2 ^ n < 2 ^ n := Nat.mod_lt _ (by positivity)
    rw [shiftRight_succ, roundedMantissa_eq, Nat.mod_pow_succ]
    -- The round bit says which half the rest lies in.
    refine if_congr ?_ rfl rfl
    simp only [bne_iff_ne]
    rcases Nat.mod_two_eq_zero_or_one (m / 2 ^ n) with hbit | hbit <;> rw [hbit] <;> omega

theorem halveToEven_eq_toEven (m s : ℕ) : (halveToEven m s : ℤ) = toEven (m / 2 ^ s : ℚ) := by
  have hfloor : ⌊(m / 2 ^ s : ℚ)⌋ = (m / 2 ^ s : ℕ) := by
    exact_mod_cast Rat.floor_natCast_div_natCast m (2 ^ s)
  have hfract : Int.fract (m / 2 ^ s : ℚ) = (m % 2 ^ s : ℕ) / 2 ^ s := by
    exact_mod_cast Int.fract_div_natCast_eq_div_natCast_mod (k := ℚ) (m := m) (n := 2 ^ s)
  have hpos : (0 : ℚ) < 2 ^ s := by positivity
  have hhalf : 2 * Int.fract (m / 2 ^ s : ℚ) < 1 ↔ 2 * (m % 2 ^ s) < 2 ^ s := by
    rw [hfract, ← mul_div_assoc, div_lt_one hpos]
    exact_mod_cast Iff.rfl
  have htie : 2 * Int.fract (m / 2 ^ s : ℚ) = 1 ↔ 2 * (m % 2 ^ s) = 2 ^ s := by
    rw [hfract, ← mul_div_assoc, div_eq_one_iff_eq hpos.ne']
    exact_mod_cast Iff.rfl
  have heven : Even ((m / 2 ^ s : ℕ) : ℤ) ↔ m / 2 ^ s % 2 = 0 := by
    rw [Int.even_coe_nat, Nat.even_iff]
  rw [halveToEven_eq, toEven]
  simp only [hhalf, htie, hfloor, heven]
  split_ifs <;> omega

/-! ### Rounding -/

section Rounding

variable {m : ℕ} {e t : ℤ} {x y : UnpackedFloat} {q : ℚ}

variable {spec : Format}

theorem quantum_eq_targetExponent (hm : 0 < m) :
    quantum spec (m * 2 ^ e) = spec.targetExponent (totalExponent m e) := by
  have hpos : (0 : ℚ) < m * 2 ^ e := by positivity
  have hlog : Int.log 2 (m * 2 ^ e : ℚ) = m.log2 + e := by
    apply le_antisymm
    · rw [← Int.lt_add_one_iff, ← Int.lt_zpow_iff_log_lt one_lt_two hpos, Nat.cast_ofNat,
        add_right_comm, zpow_add₀ two_ne_zero]
      gcongr
      exact_mod_cast Nat.lt_log2_self
    · rw [← Int.zpow_le_iff_le_log one_lt_two hpos, Nat.cast_ofNat, zpow_add₀ two_ne_zero]
      gcongr
      exact_mod_cast Nat.log2_self_le hm.ne'
  rw [quantum, abs_of_pos hpos, hlog, totalExponent]
  ring_nf

theorem shiftToTargetExponent_carry {r : ℕ} (hr : r ≤ 2 ^ spec.mantissaBits)
    (ht : spec.minExponent ≤ t)
    (hfull : 2 ^ spec.mantissaBitsWithoutImplicit ≤ r ∨ t = spec.minExponent) :
    ∃ m e, (shiftToTargetExponent spec r t .exact).1.mantissa = m ∧
      (shiftToTargetExponent spec r t .exact).2 = e ∧ (m * 2 ^ e : ℚ) = r * 2 ^ t ∧
      m < 2 ^ spec.mantissaBits ∧ spec.minExponent ≤ e ∧
      (2 ^ spec.mantissaBitsWithoutImplicit ≤ m ∨ e = spec.minExponent) := by
  refine ⟨_, _, rfl, rfl, ?_⟩
  simp only [shiftToTargetExponent, shiftToExponent, mantissa_shiftRight, Format.targetExponent,
    totalExponent]
  rcases hr.lt_or_eq with hlt | rfl
  · have hshift : (max (r.log2 + 1 + t - spec.mantissaBits) spec.minExponent - t).toNat = 0 := by
      rcases Nat.eq_zero_or_pos r with rfl | hpos
      · rw [Format.mantissaBits, Nat.log2_zero]
        omega
      · have := (Nat.log2_lt hpos.ne').2 hlt
        omega
    simp [hshift, hlt, ht, hfull]
  · have hshift : (max ((2 ^ spec.mantissaBits).log2 + 1 + t - spec.mantissaBits)
        spec.minExponent - t).toNat = 1 := by
      rw [Nat.log2_two_pow]
      omega
    have hhalf : 2 ^ spec.mantissaBits / 2 ^ 1 = 2 ^ spec.mantissaBitsWithoutImplicit := by
      rw [Format.mantissaBits, Nat.pow_add, Nat.mul_div_cancel_left _ (by decide)]
    rw [hshift, hhalf]
    refine ⟨?_, ?_, by omega, .inl le_rfl⟩
    · push_cast
      rw [Format.mantissaBits, pow_add, zpow_add₀ two_ne_zero, zpow_one]
      ring
    · rw [Format.mantissaBits]
      exact Nat.pow_lt_pow_right one_lt_two (by omega)

/-- The number is `q`, rounded to the format. -/
structure Rounds (spec : Format) (x : UnpackedFloat) (q : ℚ) : Prop where
  canonical : Canonical spec x
  value : value? x = some (rounded spec q)

theorem rounded_signed (s : Sign) (q : ℚ) :
    rounded spec (signed s q) = signed s (rounded spec q) := by
  cases s
  · exact rounded_neg q
  · rfl

theorem rounds_roundWithAccuracy (s : Sign) (hm : 0 < m) (he : e ≤ quantum spec (m * 2 ^ e)) :
    Rounds spec (roundWithAccuracy spec s m e .exact) (signed s (m * 2 ^ e)) := by
  obtain ⟨n, hn⟩ := Int.eq_ofNat_of_zero_le (sub_nonneg.2 he)
  have hpos : (0 : ℚ) < m * 2 ^ e := by positivity
  have hmin : spec.minExponent ≤ quantum spec (m * 2 ^ e) := le_max_right ..
  have hfirst : shiftToTargetExponent spec m e .exact =
      (ExtendedMantissa.ofMantissaAndAccuracy m .exact >>> n, quantum spec (m * 2 ^ e)) := by
    simp only [shiftToTargetExponent, shiftToExponent, ← quantum_eq_targetExponent hm, hn]
    congr 1
    omega
  -- What is shifted out is the part of the number below a quantum.
  have hcount : (m / 2 ^ n : ℚ) = m * 2 ^ e / 2 ^ quantum spec (m * 2 ^ e) := by
    rw [eq_div_iff (by positivity), div_mul_eq_mul_div, div_eq_iff (by positivity), mul_assoc,
      ← zpow_natCast, ← zpow_add₀ two_ne_zero]
    congr 2
    omega
  have hround := halveToEven_eq_toEven m n
  rw [hcount] at hround
  have hvalue : (halveToEven m n * 2 ^ quantum spec (m * 2 ^ e) : ℚ) =
      rounded spec (m * 2 ^ e) := by
    rw [rounded, ← hround, Int.cast_natCast]
  have hle : halveToEven m n ≤ 2 ^ spec.mantissaBits := by
    have hlt : (m * 2 ^ e / 2 ^ quantum spec (m * 2 ^ e) : ℚ) ≤ (2 ^ spec.mantissaBits : ℤ) := by
      exact_mod_cast (div_quantum_lt hpos.le).le
    have := toEven_le hlt
    rw [← hround] at this
    exact_mod_cast this
  have hfull : 2 ^ spec.mantissaBitsWithoutImplicit ≤ halveToEven m n ∨
      quantum spec (m * 2 ^ e) = spec.minExponent := by
    refine hmin.lt_or_eq.imp (fun hlt => ?_) Eq.symm
    have hge : ((2 ^ spec.mantissaBitsWithoutImplicit : ℤ) : ℚ) ≤
        m * 2 ^ e / 2 ^ quantum spec (m * 2 ^ e) := by
      exact_mod_cast le_div_quantum hpos hlt
    have := le_toEven hge
    rw [← hround] at this
    exact_mod_cast this
  -- Rounding may carry into the next binade, and then a second shift makes room.
  obtain ⟨m', e', hm', he', heq, hlt, hmin', hfull'⟩ := shiftToTargetExponent_carry hle hmin hfull
  simp only [roundWithAccuracy, hfirst, roundedMantissa_shiftRight, hm', he']
  split
  next h =>
    have hzero : rounded spec (m * 2 ^ e) = 0 := by
      rw [← hvalue, ← heq, h, Nat.cast_zero, zero_mul]
    refine ⟨.zero s, ?_⟩
    rw [rounded_signed, hzero]
    cases s <;> simp [value?, signed]
  next h =>
    refine ⟨.finite s m' e' _ hlt hmin' hfull', ?_⟩
    rw [value?, rounded_signed, ← hvalue, heq]

theorem le_quantum_of_full (h : 2 ^ spec.mantissaBitsWithoutImplicit ≤ m) :
    e ≤ quantum spec (m * 2 ^ e) := by
  have hm : 0 < m := lt_of_lt_of_le (by positivity) h
  have hlog := (Nat.le_log2 hm.ne').2 h
  rw [quantum_eq_targetExponent hm, Format.targetExponent, totalExponent, Format.mantissaBits]
  omega

theorem shiftLeft_mul_zpow {n : ℕ} (h : n + t = e) : ((m <<< n : ℕ) * 2 ^ t : ℚ) = m * 2 ^ e := by
  rw [Nat.shiftLeft_eq]
  push_cast
  rw [mul_assoc, ← zpow_natCast, ← zpow_add₀ two_ne_zero, h]

theorem rounds_round (s : Sign) (e : ℤ) (hm : 0 < m) :
    Rounds spec (round spec s m e) (signed s (m * 2 ^ e)) := by
  rw [UnpackedFloat.round, ← quantum_eq_targetExponent hm, decreaseExponent]
  generalize hn : (e - quantum spec (m * 2 ^ e)).toNat = n
  have hvalue : ((m <<< n : ℕ) * 2 ^ (e - n) : ℚ) = m * 2 ^ e := shiftLeft_mul_zpow (by omega)
  have hpos : 0 < m <<< n := by
    rw [Nat.shiftLeft_eq]
    positivity
  rw [← hvalue]
  apply rounds_roundWithAccuracy s hpos
  rw [hvalue]
  omega

theorem rounds_normalize (n e : ℤ) (s : Sign) :
    Rounds spec (normalize spec n e s) (n * 2 ^ e) := by
  rw [UnpackedFloat.normalize]
  split
  next h =>
    rw [compare_lt_iff_lt] at h
    have hvalue : (n * 2 ^ e : ℚ) = signed .negative ((-n).toNat * 2 ^ e) := by
      rw [signed, ← neg_mul, ← Int.cast_natCast, Int.toNat_of_nonneg (by omega), Int.cast_neg,
        neg_neg]
    rw [hvalue]
    exact rounds_round .negative e (by omega)
  next h =>
    rw [compare_eq_iff_eq] at h
    refine ⟨.zero s, ?_⟩
    simp [value?, h]
  next h =>
    rw [compare_gt_iff_gt] at h
    have hvalue : (n * 2 ^ e : ℚ) = signed .positive (n.toNat * 2 ^ e) := by
      rw [signed, ← Int.cast_natCast, Int.toNat_of_nonneg (by omega)]
    rw [hvalue]
    exact rounds_round .positive e (by omega)

theorem Canonical.rounded_mul_two_pow (hx : Canonical spec x) (hq : value? x = some q) (k : ℕ) :
    rounded spec (q * 2 ^ k) = q * 2 ^ k := by
  cases hx with
  | notANumber => cases hq
  | infinity s => cases hq
  | zero s =>
    cases hq
    rw [zero_mul, rounded_zero]
  | finite s m e h hm he hfull =>
    cases hq
    have hbits : |(m : ℤ)| < 2 ^ spec.mantissaBits := by
      exact_mod_cast hm
    have hscaled : (m * 2 ^ e * 2 ^ k : ℚ) = (m : ℤ) * 2 ^ (e + k) := by
      rw [zpow_add₀ two_ne_zero, zpow_natCast, Int.cast_natCast, ← mul_assoc]
    rw [signed_mul, hscaled, rounded_signed, rounded_of_fits hbits (by omega)]

theorem Canonical.rounds (hx : Canonical spec x) (hq : value? x = some q) : Rounds spec x q := by
  have hself := hx.rounded_mul_two_pow hq 0
  rw [pow_zero, mul_one] at hself
  exact ⟨hx, hq.trans (congrArg some hself.symm)⟩

theorem signed_mul_signed (s t : Sign) (p q : ℚ) :
    signed s p * signed t q = signed (s * t) (p * q) := by
  cases s <;> cases t
  · exact neg_mul_neg p q
  · exact neg_mul p q
  · exact mul_neg p q
  · rfl

theorem rounds_mul (hx : Canonical spec x) (hy : Canonical spec y) {p : ℚ} (hp : value? x = some p)
    (hq : value? y = some q) : Rounds spec (mul spec x y) (p * q) := by
  have hmin : spec.minExponent ≤ 0 := by
    have hm := spec.hm
    rw [minExponent_eq]
    omega
  cases hx with
  | notANumber => cases hp
  | infinity s => cases hp
  | zero s =>
    cases hp
    cases hy with
    | notANumber => cases hq
    | infinity t => cases hq
    | zero t | finite t m e h => exact ⟨.zero _, by rw [zero_mul, rounded_zero]; rfl⟩
  | finite s m e h hm he hfull =>
    cases hp
    cases hy with
    | notANumber => cases hq
    | infinity t => cases hq
    | zero t =>
      cases hq
      exact ⟨.zero _, by rw [mul_zero, rounded_zero]; rfl⟩
    | finite t m' e' h' hm' he' hfull' =>
      cases hq
      have hvalue : (m * 2 ^ e * (m' * 2 ^ e') : ℚ) = (m * m' : ℕ) * 2 ^ (e + e') := by
        rw [zpow_add₀ two_ne_zero]
        push_cast
        ring
      rw [signed_mul_signed, hvalue]
      apply rounds_roundWithAccuracy _ (Nat.mul_pos h h')
      rcases hfull with hfull | rfl
      · exact le_quantum_of_full (hfull.trans (Nat.le_mul_of_pos_right m h'))
      rcases hfull' with hfull' | rfl
      · exact le_quantum_of_full (hfull'.trans (Nat.le_mul_of_pos_left m' h))
      · exact le_trans (by omega) (le_max_right ..)

theorem infinity_mul (s : Sign) (hq : value? y = some q) (h : 0 < q) :
    mul spec (.infinity s) y = .infinity s := by
  cases y with
  | notANumber => cases hq
  | infinity t => cases hq
  | zero t =>
    cases hq
    exact absurd h (lt_irrefl 0)
  | finite t m e hm =>
    cases hq
    have hpos : (0 : ℚ) < m * 2 ^ e := by positivity
    cases t with
    | negative =>
      rw [signed] at h
      linarith
    | positive => cases s <;> rfl

theorem add_infinity (hq : value? x = some q) (s : Sign) :
    add spec x (.infinity s) = .infinity s := by
  cases x with
  | notANumber => cases hq
  | infinity t => cases hq
  | zero t => rfl
  | finite t m e hm => rfl

theorem apply_shiftLeft (s : Sign) (m : ℕ) (h : t ≤ e) :
    ((s.apply (m <<< (e - t).toNat : ℕ) : ℤ) * 2 ^ t : ℚ) = signed s (m * 2 ^ e) := by
  have hvalue : ((m <<< (e - t).toNat : ℕ) * 2 ^ t : ℚ) = m * 2 ^ e :=
    shiftLeft_mul_zpow (by omega)
  cases s
  · rw [Sign.apply, Int.cast_neg, neg_mul, Int.cast_natCast, hvalue, signed]
  · rw [Sign.apply, Int.cast_natCast, hvalue, signed]

theorem rounds_add (hx : Canonical spec x) (hy : Canonical spec y) {p : ℚ} (hp : value? x = some p)
    (hq : value? y = some q) : Rounds spec (add spec x y) (p + q) := by
  cases x with
  | notANumber => cases hp
  | infinity s => cases hp
  | zero s =>
    cases hp
    cases y with
    | notANumber => cases hq
    | infinity t => cases hq
    | zero t =>
      cases hq
      cases s <;> cases t <;> exact ⟨.zero _, by rw [zero_add, rounded_zero]; rfl⟩
    | finite t m e h =>
      rw [zero_add]
      exact hy.rounds hq
  | finite s m e h =>
    cases y with
    | notANumber => cases hq
    | infinity t => cases hq
    | zero t =>
      cases hq
      rw [add_zero]
      exact hx.rounds hp
    | finite t m' e' h' =>
      cases hp
      cases hq
      rw [← apply_shiftLeft s m (min_le_left e e'), ← apply_shiftLeft t m' (min_le_right e e'),
        ← add_mul, ← Int.cast_add]
      exact rounds_normalize _ _ _

theorem sub_eq (x y : UnpackedFloat) :
    UnpackedFloat.sub spec x y = UnpackedFloat.add spec x y.neg := by
  cases x <;> cases y <;> try rfl
  next s m e h t m' e' h' =>
    have happly (n : ℕ) : (-t).apply n = -t.apply n := by
      cases t
      · exact (neg_neg _).symm
      · rfl
    simp only [UnpackedFloat.sub, UnpackedFloat.neg, UnpackedFloat.add, happly, sub_eq_add_neg]

theorem value?_neg (hq : value? x = some q) : value? x.neg = some (-q) := by
  cases x with
  | notANumber => cases hq
  | infinity s => cases hq
  | zero s => cases hq; rfl
  | finite s m e h =>
    cases hq
    cases s
    · exact congrArg some (neg_neg _).symm
    · rfl

theorem Canonical.neg (hx : Canonical spec x) : Canonical spec x.neg := by
  cases hx with
  | notANumber => exact .notANumber
  | infinity s => exact .infinity _
  | zero s => exact .zero _
  | finite s m e h hm he hfull => exact .finite _ m e h hm he hfull

theorem Canonical.exists_int (hx : Canonical spec x) (hq : value? x = some q) :
    ∃ n : ℤ, q = n * 2 ^ spec.minExponent := by
  cases hx with
  | notANumber => cases hq
  | infinity s => cases hq
  | zero s => exact ⟨0, by cases hq; simp⟩
  | finite s m e h hm he hfull => exact ⟨_, by cases hq; exact (apply_shiftLeft s m he).symm⟩

theorem sub_eq_infinity {u v : UnpackedFloat} {p : ℚ} (hu : Held spec u) (hv : Held spec v)
    (hp : position? spec u = some p) (hq : position? spec v = some q) (hlt : p < q)
    (hnone : value? u = none ∨ value? v = none) :
    sub spec v u = .infinity .positive := by
  have hlimit : 0 < limit spec := limit_pos
  rcases position?_cases hp with hvalue | ⟨s, rfl, rfl⟩
  · have hbounds := abs_lt.1 (hu.abs_lt hvalue)
    rcases position?_cases hq with hvalue' | ⟨t, rfl, rfl⟩
    · rw [hvalue, hvalue'] at hnone
      simp at hnone
    · cases t with
      | negative => exact absurd hlt (not_lt.2 hbounds.1.le)
      | positive => cases u <;> first | rfl | cases hvalue
  · rcases position?_cases hq with hvalue | ⟨t, rfl, rfl⟩
    · have hbounds := abs_lt.1 (hv.abs_lt hvalue)
      cases s with
      | positive => exact absurd hlt (not_lt.2 hbounds.2.le)
      | negative => cases v <;> first | rfl | cases hvalue
    · cases s <;> cases t <;> simp only [signed] at hlt <;> first | rfl | linarith

theorem rounds_ofNat (n : ℕ) : Rounds spec (ofNat spec n) n := by
  have h : Rounds spec (normalize spec n 0 .positive) ((n : ℤ) * 2 ^ (0 : ℤ)) :=
    rounds_normalize n 0 .positive
  rwa [zpow_zero, mul_one, Int.cast_natCast] at h

theorem rounds_ofScientific {n : ℕ} (hn : 0 < n) :
    Rounds spec (UnpackedFloat.ofScientific spec n 0) n := by
  have hpow : (0 : ℤ) < 2 ^ spec.exponentBits := by positivity
  have hfull : 2 ^ spec.mantissaBitsWithoutImplicit ≤
      n <<< spec.mantissaBits * 10 ^ (0 : ℤ).toNat := by
    rw [Int.toNat_zero, Nat.pow_zero, Nat.mul_one, Nat.shiftLeft_eq, Format.mantissaBits]
    calc
      2 ^ spec.mantissaBitsWithoutImplicit ≤ 2 ^ (1 + spec.mantissaBitsWithoutImplicit) :=
        Nat.pow_le_pow_right two_pos (by omega)
      _ ≤ n * 2 ^ (1 + spec.mantissaBitsWithoutImplicit) := Nat.le_mul_of_pos_left _ hn
  have hvalue : (((n <<< spec.mantissaBits * 10 ^ (0 : ℤ).toNat : ℕ) : ℚ) *
      2 ^ (-spec.mantissaBits + 0 : ℤ)) = n := by
    simpa using shiftLeft_mul_zpow (m := n) (add_neg_cancel (spec.mantissaBits : ℤ))
  rw [UnpackedFloat.ofScientific, dif_neg hn.ne', if_neg (by omega), if_neg (by omega),
    if_pos le_rfl]
  have h := rounds_roundWithAccuracy (Sign.positive * Sign.positive)
    (lt_of_lt_of_le (by positivity) hfull) (le_quantum_of_full hfull (e := -spec.mantissaBits + 0))
  rw [hvalue] at h
  exact h

theorem Rounds.position?_unpack (h : Rounds spec x q) (hspec : 1 < spec.exponentBits) :
    position? spec (unpack spec (pack spec x)) =
      some (bounded spec (rounded spec q)) := by
  rw [position?_pack h.canonical hspec, position?_of_value? h.value, Option.map_some]

end Rounding

end Orchestrion.Number
