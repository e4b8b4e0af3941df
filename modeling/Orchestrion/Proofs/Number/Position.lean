import Orchestrion.Proofs.Number.Rounding
import Orchestrion.Proofs.Number.Sign

/-!
# Floating-point numbers on the line

A floating-point number stands for a rational one, and comparing two of them compares what they
stand for. An infinity is put at the limit of its format, the power of two that the format just
cannot hold: there it is beyond all the numbers, and overflow is a bound on the position.
-/

namespace Orchestrion.Number

open Float.Model Float.Model.UnpackedFloat

section Positions

variable {x y : UnpackedFloat} {q p : ℚ} {m : ℕ} {e : ℤ}

variable (spec : Format)

/-- The least power of two that is too large for the format. -/
def limit : ℚ := 2 ^ (spec.exponentBias + 1)

def signed : Sign → ℚ → ℚ
  | .negative, q => -q
  | .positive, q => q

theorem abs_signed (s : Sign) (q : ℚ) : |signed s q| = |q| := by
  cases s
  · exact abs_neg q
  · rfl

theorem signed_mul (s : Sign) (p q : ℚ) : signed s p * q = signed s (p * q) := by
  cases s
  · exact neg_mul p q
  · rfl

/-- The place of a number on the line, with the infinities at the limit of the format. -/
def position? : UnpackedFloat → Option ℚ
  | .notANumber => none
  | .infinity s => some (signed s (limit spec))
  | .zero _ => some 0
  | .finite s m e _ => some (signed s (m * 2 ^ e))

/-- The rational number that a number is, unless it is infinite. -/
def value? : UnpackedFloat → Option ℚ
  | .notANumber | .infinity _ => none
  | .zero _ => some 0
  | .finite s m e _ => some (signed s (m * 2 ^ e))

/-- The position next to `q` from the one infinity to the other. -/
def bounded (q : ℚ) : ℚ := max (-limit spec) (min (limit spec) q)

/-- The number has an exponent that the format gives to its position. -/
inductive Canonical : UnpackedFloat → Prop
  | notANumber : Canonical .notANumber
  | infinity (s : Sign) : Canonical (.infinity s)
  | zero (s : Sign) : Canonical (.zero s)
  | finite (s : Sign) (m : Nat) (e : Int) (h : 0 < m) (hm : m < 2 ^ spec.mantissaBits)
      (he : spec.minExponent ≤ e)
      (hfull : 2 ^ spec.mantissaBitsWithoutImplicit ≤ m ∨ e = spec.minExponent) :
      Canonical (.finite s m e h)

/-- The format can hold the number. -/
inductive Held : UnpackedFloat → Prop
  | notANumber : Held .notANumber
  | infinity (s : Sign) : Held (.infinity s)
  | zero (s : Sign) : Held (.zero s)
  | finite (s : Sign) (m : Nat) (e : Int) (h : 0 < m) (hm : m < 2 ^ spec.mantissaBits)
      (he : spec.minExponent ≤ e)
      (hfull : 2 ^ spec.mantissaBitsWithoutImplicit ≤ m ∨ e = spec.minExponent)
      (hlimit : (m * 2 ^ e : ℚ) < limit spec) :
      Held (.finite s m e h)

variable {spec}

theorem limit_pos : 0 < limit spec := by
  unfold limit
  positivity

theorem position?_of_value? (h : value? x = some q) : position? spec x = some q := by
  cases x with
  | notANumber => cases h
  | infinity s => cases h
  | _ => exact h

theorem position?_cases (h : position? spec x = some p) :
    value? x = some p ∨ ∃ s, x = .infinity s ∧ p = signed s (limit spec) := by
  cases x with
  | notANumber => cases h
  | infinity s =>
    cases h
    exact .inr ⟨s, rfl, rfl⟩
  | _ => exact .inl h

theorem value?_of_position? (h : position? spec x = some p) (hp : |p| < limit spec) :
    value? x = some p := by
  rcases position?_cases h with hvalue | ⟨s, -, rfl⟩
  · exact hvalue
  · rw [abs_signed, abs_of_pos limit_pos] at hp
    exact absurd hp (lt_irrefl _)

theorem Held.canonical (h : Held spec x) : Canonical spec x := by
  cases h with
  | notANumber => exact .notANumber
  | infinity s => exact .infinity s
  | zero s => exact .zero s
  | finite s m e h hm he hfull => exact .finite s m e h hm he hfull

theorem minExponent_eq :
    spec.minExponent = 1 - spec.exponentBias - spec.mantissaBitsWithoutImplicit := by
  have hpow : 1 ≤ 2 ^ (spec.exponentBits - 1) := Nat.one_le_two_pow
  have hbias : ((2 ^ (spec.exponentBits - 1) - 1 : ℕ) : ℤ) = 2 ^ (spec.exponentBits - 1) - 1 := by
    push_cast [hpow]
    ring
  rw [Format.minExponent, Format.exponentBias, Format.mantissaBits, hbias]
  omega

theorem two_pow_exponentBits : 2 ^ spec.exponentBits = 2 * spec.exponentBias + 2 := by
  obtain ⟨k, hk⟩ := Nat.exists_eq_add_of_lt spec.he
  have hpow : 1 ≤ 2 ^ k := Nat.one_le_two_pow
  rw [Format.exponentBias, hk]
  simp only [zero_add, Nat.add_sub_cancel, pow_succ]
  omega

theorem exponentBias_pos (hspec : 1 < spec.exponentBits) : 0 < spec.exponentBias := by
  have hpow : 2 ^ spec.exponentBits = 2 * spec.exponentBias + 2 := two_pow_exponentBits
  have hle : 2 ^ 2 ≤ 2 ^ spec.exponentBits := Nat.pow_le_pow_right two_pos hspec
  omega

theorem rounded_limit : rounded spec (limit spec) = limit spec := by
  rw [limit, ← zpow_natCast]
  exact rounded_two_zpow (by rw [minExponent_eq]; omega)

theorem bounded_mono : Monotone (bounded spec) := fun _ _ h =>
  max_le_max le_rfl (min_le_min le_rfl h)

theorem bounded_of_le (h : limit spec ≤ q) : bounded spec q = limit spec := by
  have hlimit : 0 < limit spec := limit_pos
  rw [bounded, min_eq_left h, max_eq_right (by linarith)]

theorem bounded_of_abs_le (h : |q| ≤ limit spec) : bounded spec q = q := by
  rw [bounded, min_eq_right (abs_le.1 h).2, max_eq_right (abs_le.1 h).1]

theorem bounded_neg (q : ℚ) : bounded spec (-q) = -bounded spec q := by
  have hlimit : 0 < limit spec := limit_pos
  rw [bounded, bounded, ← min_neg_neg, neg_neg, ← max_neg_neg, max_min_distrib_left,
    max_eq_right (by linarith : -limit spec ≤ limit spec)]

@[simp]
theorem bounded_zero : bounded spec 0 = 0 := bounded_of_abs_le (by simpa using limit_pos.le)

theorem bounded_signed (s : Sign) (q : ℚ) :
    bounded spec (signed s q) = signed s (bounded spec q) := by
  cases s
  · exact bounded_neg q
  · rfl

/-! ### Order -/

theorem lt_of_exponent_lt {m' : ℕ} {e' : ℤ} (hm : m < 2 ^ spec.mantissaBits)
    (hm' : 2 ^ spec.mantissaBitsWithoutImplicit ≤ m') (h : e < e') :
    (m * 2 ^ e : ℚ) < m' * 2 ^ e' := by
  calc
    (m * 2 ^ e : ℚ) < 2 ^ spec.mantissaBits * 2 ^ e := by
      gcongr
      exact_mod_cast hm
    _ = 2 ^ spec.mantissaBitsWithoutImplicit * 2 ^ (e + 1) := by
      rw [Format.mantissaBits, pow_add, zpow_add₀ two_ne_zero]
      ring
    _ ≤ m' * 2 ^ e' := by
      gcongr
      · exact_mod_cast hm'
      · exact one_le_two
      · omega

theorem cmp_magnitudes {m' : ℕ} {e' : ℤ} (hm : m < 2 ^ spec.mantissaBits)
    (hm' : m' < 2 ^ spec.mantissaBits) (he : spec.minExponent ≤ e) (he' : spec.minExponent ≤ e')
    (hfull : 2 ^ spec.mantissaBitsWithoutImplicit ≤ m ∨ e = spec.minExponent)
    (hfull' : 2 ^ spec.mantissaBitsWithoutImplicit ≤ m' ∨ e' = spec.minExponent) :
    (compare e e').then (compare m m') = cmp (m * 2 ^ e : ℚ) (m' * 2 ^ e') := by
  rcases lt_trichotomy e e' with h | rfl | h
  · have hlt := lt_of_exponent_lt hm (hfull'.resolve_right (by omega)) h
    rw [compare_lt_iff_lt.2 h, (cmp_eq_lt_iff _ _).2 hlt]
    rfl
  · rw [compare_eq_iff_eq.2 rfl, cmp_mul_pos_right (by positivity), Nat.strictMono_cast.cmp_map_eq,
      cmp_eq_compare]
    rfl
  · have hlt := lt_of_exponent_lt hm' (hfull.resolve_right (by omega)) h
    rw [compare_gt_iff_gt.2 h, (cmp_eq_gt_iff _ _).2 hlt]
    rfl

theorem Held.position_bounds {s : Sign} {h : 0 < m} (hx : Held spec (.finite s m e h)) :
    (0 : ℚ) < m * 2 ^ e ∧ (m * 2 ^ e : ℚ) < limit spec := by
  cases hx with
  | finite _ _ _ _ _ _ _ hlimit => exact ⟨by positivity, hlimit⟩

theorem Held.abs_lt (hx : Held spec x) (hq : value? x = some q) : |q| < limit spec := by
  cases x with
  | notANumber => cases hq
  | infinity s => cases hq
  | zero s =>
    cases hq
    simpa using limit_pos
  | finite s m e h =>
    cases hq
    obtain ⟨hpos, hlt⟩ := hx.position_bounds
    rwa [abs_signed, abs_of_pos hpos]

theorem compare_eq (hx : Held spec x) (hy : Held spec y) (hp : position? spec x = some p)
    (hq : position? spec y = some q) : x.compare y = some (cmp p q) := by
  have hlimit : 0 < limit spec := limit_pos
  have hlt : ∀ a b : ℚ, Ordering.lt = cmp a b ↔ a < b := fun a b => by
    rw [eq_comm, cmp_eq_lt_iff]
  have hgt : ∀ a b : ℚ, Ordering.gt = cmp a b ↔ b < a := fun a b => by
    rw [eq_comm, cmp_eq_gt_iff]
  cases x with
  | notANumber => cases hp
  | infinity s =>
    cases hp
    cases y with
    | notANumber => cases hq
    | infinity t =>
      cases hq
      cases s <;> cases t <;> simp [UnpackedFloat.compare, signed, hlt, hgt, compare] <;> linarith
    | zero t =>
      cases hq
      cases s <;> simp [UnpackedFloat.compare, signed, hlt, hgt] <;> linarith
    | finite t m e h =>
      cases hq
      obtain ⟨hpos, hlt⟩ := hy.position_bounds
      cases s <;> cases t <;> simp [UnpackedFloat.compare, signed, *] <;> linarith
  | zero s =>
    cases hp
    cases y with
    | notANumber => cases hq
    | infinity t =>
      cases hq
      cases t <;> simp [UnpackedFloat.compare, signed, hlt, hgt] <;> linarith
    | zero t =>
      cases hq
      simp [UnpackedFloat.compare]
    | finite t m e h =>
      cases hq
      obtain ⟨hpos, -⟩ := hy.position_bounds
      cases t <;> simp [UnpackedFloat.compare, signed, *]
  | finite s m e h =>
    cases hp
    obtain ⟨hpos, hbound⟩ := hx.position_bounds
    cases y with
    | notANumber => cases hq
    | infinity t =>
      cases hq
      cases s <;> cases t <;> simp [UnpackedFloat.compare, signed, *] <;> linarith
    | zero t =>
      cases hq
      cases s <;> simp [UnpackedFloat.compare, signed, *]
    | finite t m' e' h' =>
      cases hq
      obtain ⟨hpos', -⟩ := hy.position_bounds
      have hmagnitudes : (compare e e').then (compare m m') =
          cmp (m * 2 ^ e : ℚ) (m' * 2 ^ e') := by
        obtain _ | _ | _ | ⟨_, _, _, _, hm, he, hfull⟩ := hx
        obtain _ | _ | _ | ⟨_, _, _, _, hm', he', hfull'⟩ := hy
        exact cmp_magnitudes hm hm' he he' hfull hfull'
      cases s <;> cases t <;> simp [UnpackedFloat.compare, signed, hlt, hgt]
      · -- Of two negative numbers the one with the greater magnitude is the lesser.
        rw [hmagnitudes, cmp_swap]
        have hanti : StrictAnti (Neg.neg : ℚ → ℚ) := fun _ _ => neg_lt_neg
        exact (hanti.cmp_map_eq _ _).symm
      · linarith
      · linarith
      · exact hmagnitudes

theorem compare_eq_none (h : position? spec x = none ∨ position? spec y = none) :
    x.compare y = none := by
  rcases h with h | h
  · cases x with
    | notANumber => rfl
    | _ => cases h
  · cases y with
    | notANumber => cases x <;> rfl
    | _ => cases h

theorem compare_any_iff (hx : Held spec x) (hy : Held spec y) (f : Ordering → Bool) :
    (x.compare y).any f = true ↔
      ∃ p q, position? spec x = some p ∧ position? spec y = some q ∧ f (cmp p q) = true := by
  constructor
  · intro h
    cases hp : position? spec x with
    | none => rw [compare_eq_none (.inl hp)] at h; cases h
    | some p =>
      cases hq : position? spec y with
      | none => rw [compare_eq_none (.inr hq)] at h; cases h
      | some q =>
        rw [compare_eq hx hy hp hq] at h
        exact ⟨p, q, rfl, rfl, h⟩
  · rintro ⟨p, q, hp, hq, h⟩
    rw [compare_eq hx hy hp hq]
    exact h

theorem le_iff (hx : Held spec x) (hy : Held spec y) :
    x.le y = true ↔ ∃ p q, position? spec x = some p ∧ position? spec y = some q ∧ p ≤ q := by
  have hle : ∀ p q : ℚ, (cmp p q).isLE = true ↔ p ≤ q := by
    intro p q
    rw [Ordering.isLE_iff_ne_gt, cmp_eq_gt_iff, not_lt]
  rw [UnpackedFloat.le, compare_any_iff hx hy]
  simp only [hle]

theorem lt_iff (hx : Held spec x) (hy : Held spec y) :
    x.lt y = true ↔ ∃ p q, position? spec x = some p ∧ position? spec y = some q ∧ p < q := by
  have hlt : ∀ p q : ℚ, (cmp p q == .lt) = true ↔ p < q := by
    intro p q
    rw [beq_iff_eq, cmp_eq_lt_iff]
  have hany : x.lt y = (x.compare y).any (· == .lt) := by
    rw [UnpackedFloat.lt]
    cases x.compare y with
    | none => rfl
    | some o => cases o <;> rfl
  rw [hany, compare_any_iff hx hy]
  simp only [hlt]

/-! ### Packing -/

theorem lt_limit (hm : m < 2 ^ spec.mantissaBits)
    (he : e + spec.mantissaBitsWithoutImplicit ≤ spec.exponentBias) :
    (m * 2 ^ e : ℚ) < limit spec := by
  calc
    (m * 2 ^ e : ℚ) < 2 ^ spec.mantissaBits * 2 ^ e := by
      gcongr
      exact_mod_cast hm
    _ ≤ limit spec := by
      rw [limit, ← zpow_natCast, ← zpow_natCast, ← zpow_add₀ two_ne_zero]
      refine zpow_le_zpow_right₀ one_le_two ?_
      rw [Format.mantissaBits]
      omega

theorem limit_le (hm : 2 ^ spec.mantissaBitsWithoutImplicit ≤ m)
    (he : spec.exponentBias < e + spec.mantissaBitsWithoutImplicit) : limit spec ≤ m * 2 ^ e := by
  calc
    limit spec ≤ 2 ^ spec.mantissaBitsWithoutImplicit * 2 ^ e := by
      rw [limit, ← zpow_natCast, ← zpow_natCast, ← zpow_add₀ two_ne_zero]
      refine zpow_le_zpow_right₀ one_le_two ?_
      omega
    _ ≤ m * 2 ^ e := by
      gcongr
      exact_mod_cast hm

theorem toNat_lt_of_ne_neg_one {v : BitVec spec.exponentBits} (h : v ≠ -1#_) :
    v.toNat ≤ 2 * spec.exponentBias := by
  have hlt := v.isLt
  have hne : v.toNat ≠ 2 ^ spec.exponentBits - 1 := by
    intro heq
    apply h
    apply BitVec.eq_of_toNat_eq
    rw [heq, BitVec.neg_one_eq_allOnes, BitVec.toNat_allOnes]
  rw [two_pow_exponentBits] at hlt hne
  omega

theorem held_unpack (hspec : 1 < spec.exponentBits) (b : BitVec spec.numBits) :
    Held spec (UnpackedFloat.unpack spec b) := by
  have hbias := exponentBias_pos hspec
  have h := unpacks b
  have hm := (unpackMantissa b).isLt
  by_cases hinf : unpackExponent b = -1#_
  · rw [UnpackedFloat.unpack, if_pos hinf]
    split
    · exact .infinity _
    · exact .notANumber
  · have he := toNat_lt_of_ne_neg_one hinf
    generalize UnpackedFloat.unpack spec b = x at h
    have hbits : 2 ^ spec.mantissaBits = 2 * 2 ^ spec.mantissaBitsWithoutImplicit := by
      rw [Format.mantissaBits, pow_add, pow_one]
    cases h with
    | notANumber => exact .notANumber
    | infinity => exact .infinity _
    | zero => exact .zero _
    | subnormal h hzero =>
      exact .finite _ _ _ h (by omega) (by rw [minExponent_eq]; omega)
        (.inr (by rw [minExponent_eq]; omega)) (lt_limit (by omega) (by omega))
    | normal h hne =>
      have hpos : (unpackExponent b).toNat ≠ 0 := fun h0 => hne (BitVec.eq_of_toNat_eq h0)
      exact .finite _ _ _ h (by omega) (by rw [minExponent_eq]; omega) (.inl (by omega))
        (lt_limit (by omega) (by omega))

theorem unpack_packComponents_normal (s : Sign) {k : ℕ} (h : 0 < m) (hk : 0 < k)
    (hk' : k ≤ 2 * spec.exponentBias) (hm : m < 2 ^ spec.mantissaBits)
    (hfull : 2 ^ spec.mantissaBitsWithoutImplicit ≤ m) :
    UnpackedFloat.unpack spec (packComponents spec s (BitVec.ofNat _ k) (BitVec.ofNat _ m)) =
      .finite s m (k - (spec.exponentBias + spec.mantissaBitsWithoutImplicit)) h := by
  have hexp : (BitVec.ofNat spec.exponentBits k).toNat = k := by
    rw [BitVec.toNat_ofNat, two_pow_exponentBits, Nat.mod_eq_of_lt (by omega)]
  have hmant : 2 ^ spec.mantissaBitsWithoutImplicit +
      (BitVec.ofNat spec.mantissaBitsWithoutImplicit m).toNat = m := by
    rw [Format.mantissaBits, Nat.add_comm, Nat.pow_succ] at hm
    rw [BitVec.toNat_ofNat, Nat.mod_eq_sub_mod hfull, Nat.mod_eq_of_lt (by omega)]
    omega
  have hne : BitVec.ofNat spec.exponentBits k ≠ -1#_ := by
    intro heq
    have := congrArg BitVec.toNat heq
    rw [hexp, BitVec.neg_one_eq_allOnes, BitVec.toNat_allOnes, two_pow_exponentBits] at this
    omega
  have hne' : BitVec.ofNat spec.exponentBits k ≠ 0#_ := by
    intro heq
    have := congrArg BitVec.toNat heq
    rw [hexp, BitVec.toNat_ofNat, Nat.zero_mod] at this
    omega
  generalize hb : packComponents spec s (BitVec.ofNat _ k) (BitVec.ofNat _ m) = b
  have hexp' : unpackExponent b = BitVec.ofNat _ k := by rw [← hb, unpackExponent_packComponents]
  have hmant' : unpackMantissa b = BitVec.ofNat _ m := by rw [← hb, unpackMantissa_packComponents]
  have hsign : signOf b = s := by rw [← hb, signOf_packComponents]
  have hu := unpacks b
  generalize UnpackedFloat.unpack spec b = x at hu ⊢
  cases hu with
  | infinity he => exact absurd (hexp'.symm.trans he) hne
  | notANumber he => exact absurd (hexp'.symm.trans he) hne
  | zero he => exact absurd (hexp'.symm.trans he) hne'
  | subnormal _ he => exact absurd (hexp'.symm.trans he) hne'
  | normal => simp only [hsign, hexp', hexp, hmant', hmant]

theorem unpack_packComponents_subnormal (s : Sign) (h : 0 < m)
    (hm : m < 2 ^ spec.mantissaBitsWithoutImplicit) :
    UnpackedFloat.unpack spec (packComponents spec s 0#_ (BitVec.ofNat _ m)) =
      .finite s m spec.minExponent h := by
  have hmant : (BitVec.ofNat spec.mantissaBitsWithoutImplicit m).toNat = m := by
    rw [BitVec.toNat_ofNat, Nat.mod_eq_of_lt hm]
  have hne : BitVec.ofNat spec.mantissaBitsWithoutImplicit m ≠ 0#_ := by
    intro heq
    have := congrArg BitVec.toNat heq
    rw [hmant, BitVec.toNat_ofNat, Nat.zero_mod] at this
    omega
  have hne' : BitVec.ofNat spec.exponentBits 0 ≠ -1#_ := by
    have := spec.he
    simp
    omega
  generalize hb : packComponents spec s 0#_ (BitVec.ofNat _ m) = b
  have hexp' : unpackExponent b = 0#_ := by rw [← hb, unpackExponent_packComponents]
  have hmant' : unpackMantissa b = BitVec.ofNat _ m := by rw [← hb, unpackMantissa_packComponents]
  have hsign : signOf b = s := by rw [← hb, signOf_packComponents]
  have hu := unpacks b
  generalize UnpackedFloat.unpack spec b = x at hu ⊢
  cases hu with
  | infinity he => exact absurd (hexp'.symm.trans he) hne'
  | notANumber he => exact absurd (hexp'.symm.trans he) hne'
  | zero _ hm => exact absurd (hmant'.symm.trans hm) hne
  | subnormal =>
    simp only [hsign, hmant', hmant, minExponent_eq]
    congr 1
    omega
  | normal _ he => exact absurd hexp' he

theorem unpack_packedInfinity (s : Sign) :
    UnpackedFloat.unpack spec (packedInfinity spec s) = .infinity s := by
  have hsign : Sign.ofBitVec s.toBitVec = s := by cases s <;> rfl
  simp [UnpackedFloat.unpack, packedInfinity, hsign]

theorem unpack_packedZero (s : Sign) : UnpackedFloat.unpack spec (packedZero spec s) = .zero s := by
  have hsign : Sign.ofBitVec s.toBitVec = s := by cases s <;> rfl
  have he := spec.he
  simp [UnpackedFloat.unpack, packedZero, hsign]
  omega

theorem unpack_packedNaN : UnpackedFloat.unpack spec (packedNaN spec) = .notANumber := by
  have hm := spec.hm
  have hne : BitVec.ofNat spec.mantissaBitsWithoutImplicit 1 <<<
      (spec.mantissaBitsWithoutImplicit - 1) ≠ 0#_ := by
    intro heq
    have := congrArg (fun v => v.getLsbD (spec.mantissaBitsWithoutImplicit - 1)) heq
    simp at this
    omega
  simp [UnpackedFloat.unpack, packedNaN, hne]

theorem position?_pack (hx : Canonical spec x) (hspec : 1 < spec.exponentBits) :
    position? spec (UnpackedFloat.unpack spec (UnpackedFloat.pack spec x)) =
      (position? spec x).map (bounded spec) := by
  cases hx with
  | notANumber => rw [UnpackedFloat.pack, unpack_packedNaN, position?, Option.map_none]
  | infinity s =>
    rw [UnpackedFloat.pack, unpack_packedInfinity, position?, Option.map_some, bounded_signed,
      bounded_of_le le_rfl]
  | zero s => rw [UnpackedFloat.pack, unpack_packedZero, position?, Option.map_some, bounded_zero]
  | finite s m e h hm he hfull =>
    have hbias := exponentBias_pos hspec
    have hmin : spec.minExponent = _ := minExponent_eq
    have hpow : 2 ^ spec.exponentBits = _ := two_pow_exponentBits
    rw [UnpackedFloat.pack, position?, Option.map_some, bounded_signed]
    split
    next hover =>
      have hle : limit spec ≤ m * 2 ^ e := limit_le (hfull.resolve_right (by omega)) (by omega)
      rw [unpack_packedInfinity, position?, bounded_of_le hle]
    next hover =>
      have hlt : (m * 2 ^ e : ℚ) < limit spec := lt_limit hm (by omega)
      rw [bounded_of_abs_le (by rw [abs_of_nonneg (by positivity)]; exact hlt.le)]
      split
      next hlog =>
        have hle : 2 ^ spec.mantissaBitsWithoutImplicit ≤ m := by
          rw [← Nat.le_log2 h.ne']
          rw [Format.mantissaBits] at hlog
          omega
        rw [unpack_packComponents_normal s h (by omega) (by omega) hm hle, position?]
        congr 4
        omega
      next hlog =>
        have hlog' : m.log2 < spec.mantissaBits := (Nat.log2_lt h.ne').2 hm
        have hlt : m < 2 ^ spec.mantissaBitsWithoutImplicit := by
          rw [← Nat.log2_lt h.ne']
          rw [Format.mantissaBits] at hlog hlog'
          omega
        rw [unpack_packComponents_subnormal s h hlt, position?, hfull.resolve_left (by omega)]

end Positions

end Orchestrion.Number
