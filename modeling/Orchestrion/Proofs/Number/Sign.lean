import Mathlib
import Orchestrion.Number.Binary
import Orchestrion.Tree.Expr

/-!
# Signs and equality of floating-point numbers

Two singles that compare as equal are the same number, apart from the two zeros. A numeral carries
no minus sign, so what it is rounded to is never the negative zero; and a double that equals a
negative integer is not positive.
-/

namespace Orchestrion.Number

open Float.Model Float.Model.UnpackedFloat UnpackedFloat

/-! ### Packed numbers -/

section Packed

variable {spec : Format}

theorem unpackSign_packComponents (s : Sign) (e : BitVec spec.exponentBits)
    (m : BitVec spec.mantissaBitsWithoutImplicit) :
    unpackSign (packComponents spec s e m) = s.toBitVec := by
  ext i hi
  obtain rfl : i = 0 := by omega
  simp [unpackSign, packComponents, BitVec.getLsbD_append, BitVec.getElem_append]

theorem eq_of_components {b c : BitVec spec.numBits} (hs : unpackSign b = unpackSign c)
    (he : unpackExponent b = unpackExponent c) (hm : unpackMantissa b = unpackMantissa c) :
    b = c := by
  have hspec := spec.hm
  have hspec' := spec.he
  apply BitVec.eq_of_getLsbD_eq
  intro i hi
  rcases Nat.lt_or_ge i spec.mantissaBitsWithoutImplicit with h | h
  · have := congrArg (fun v => v.getLsbD i) hm
    simpa [unpackMantissa, show i ≤ spec.mantissaBitsWithoutImplicit - 1 by omega] using this
  · rcases Nat.lt_or_ge i (spec.mantissaBitsWithoutImplicit + spec.exponentBits) with h' | h'
    · have := congrArg (fun v => v.getLsbD (i - spec.mantissaBitsWithoutImplicit)) he
      have hi' : spec.mantissaBitsWithoutImplicit + (i - spec.mantissaBitsWithoutImplicit) = i := by
        omega
      have hlt : i - spec.mantissaBitsWithoutImplicit ≤
          spec.mantissaBitsWithoutImplicit + spec.exponentBits - 1 -
            spec.mantissaBitsWithoutImplicit := by omega
      simpa [unpackExponent, hi', hlt] using this
    · obtain rfl : i = spec.mantissaBitsWithoutImplicit + spec.exponentBits := by
        rw [Format.numBits] at hi
        omega
      have := congrArg (fun v => v.getLsbD 0) hs
      simpa [unpackSign] using this

def signOf (b : BitVec spec.numBits) : Sign := Sign.ofBitVec (unpackSign b)

theorem unpackSign_eq_of_signOf {b c : BitVec spec.numBits} (h : signOf b = signOf c) :
    unpackSign b = unpackSign c := by
  have hbit : ∀ v : BitVec 1, (Sign.ofBitVec v).toBitVec = v := by decide
  rw [← hbit (unpackSign b), ← hbit (unpackSign c)]
  exact congrArg Sign.toBitVec h

/-- What a packed number stands for, by its exponent and its mantissa. -/
inductive Unpacks (b : BitVec spec.numBits) : UnpackedFloat → Prop
  | infinity : unpackExponent b = -1#_ → unpackMantissa b = 0#_ → Unpacks b (.infinity (signOf b))
  | notANumber : unpackExponent b = -1#_ → unpackMantissa b ≠ 0#_ → Unpacks b .notANumber
  | zero : unpackExponent b = 0#_ → unpackMantissa b = 0#_ → Unpacks b (.zero (signOf b))
  | subnormal (h) : unpackExponent b = 0#_ → Unpacks b (.finite (signOf b)
      (unpackMantissa b).toNat (1 - (spec.exponentBias + spec.mantissaBitsWithoutImplicit)) h)
  | normal (h) : unpackExponent b ≠ 0#_ → Unpacks b (.finite (signOf b)
      (2 ^ spec.mantissaBitsWithoutImplicit + (unpackMantissa b).toNat)
      ((unpackExponent b).toNat - (spec.exponentBias + spec.mantissaBitsWithoutImplicit)) h)

theorem unpacks (b : BitVec spec.numBits) : Unpacks b (UnpackedFloat.unpack spec b) := by
  have happend : (1#1 ++ unpackMantissa b).toNat
      = 2 ^ spec.mantissaBitsWithoutImplicit + (unpackMantissa b).toNat := by
    rw [BitVec.toNat_append, ← Nat.shiftLeft_add_eq_or_of_lt (unpackMantissa b).isLt]
    simp [Nat.shiftLeft_eq]
  simp only [UnpackedFloat.unpack]
  split
  · split
    · exact .infinity ‹_› ‹_›
    · exact .notANumber ‹_› ‹_›
  · split
    next he =>
      split
      · exact .zero ‹_› ‹_›
      · have := Unpacks.subnormal (b := b) (by simpa [BitVec.toNat_pos, BitVec.pos_iff_ne_zero]) he
        simpa [he, signOf, Int.add_comm, Int.sub_eq_add_neg] using this
    next he =>
      have := Unpacks.normal (b := b) (by rw [← happend]; simp) he
      simpa only [happend, signOf] using this

theorem unpack_injective {b c : BitVec spec.numBits}
    (h : unpack spec b = unpack spec c)
    (hb : unpack spec b ≠ .notANumber) : b = c := by
  have ub := unpacks b
  have uc := unpacks c
  rw [← h] at uc
  have hm := (unpackMantissa b).isLt
  have hm' := (unpackMantissa c).isLt
  generalize hx : unpack spec b = x at ub hb
  generalize hy : unpack spec b = y at uc
  have hxy : x = y := hx.symm.trans hy
  suffices unpackSign b = unpackSign c ∧ unpackExponent b = unpackExponent c ∧
      unpackMantissa b = unpackMantissa c from eq_of_components this.1 this.2.1 this.2.2
  cases ub with
  | notANumber => exact absurd rfl hb
  | infinity he hm =>
    cases uc with
    | infinity he' hm' =>
      injection hxy with hs
      exact ⟨unpackSign_eq_of_signOf hs, he.trans he'.symm, hm.trans hm'.symm⟩
    | _ => cases hxy
  | zero he hm =>
    cases uc with
    | zero he' hm' =>
      injection hxy with hs
      exact ⟨unpackSign_eq_of_signOf hs, he.trans he'.symm, hm.trans hm'.symm⟩
    | _ => cases hxy
  | subnormal _ he =>
    cases uc with
    | subnormal _ he' =>
      injection hxy with hs hm
      exact ⟨unpackSign_eq_of_signOf hs, he.trans he'.symm, BitVec.eq_of_toNat_eq hm⟩
    | normal _ he' =>
      -- The mantissa of a normal number is beyond all subnormal ones.
      injection hxy with hs hm
      omega
    | _ => cases hxy
  | normal _ he =>
    cases uc with
    | subnormal _ he' =>
      injection hxy with hs hm
      omega
    | normal _ he' =>
      injection hxy with hs hm he
      refine ⟨unpackSign_eq_of_signOf hs, BitVec.eq_of_toNat_eq ?_, BitVec.eq_of_toNat_eq ?_⟩
      · omega
      · omega
    | _ => cases hxy

end Packed

theorem compare_eq_some_eq {x y : UnpackedFloat} (h : x.compare y = some .eq) :
    (x = y ∧ x ≠ .notANumber) ∨ ∃ s t, x = .zero s ∧ y = .zero t := by
  cases x with
  | notANumber => simp [UnpackedFloat.compare] at h
  | infinity s =>
    cases y with
    | infinity t => cases s <;> cases t <;> simp_all [UnpackedFloat.compare, compare]
    | notANumber => simp [UnpackedFloat.compare] at h
    | _ => cases s <;> simp [UnpackedFloat.compare] at h
  | zero s =>
    cases y with
    | zero t => exact .inr ⟨s, t, rfl, rfl⟩
    | notANumber => simp [UnpackedFloat.compare] at h
    | infinity t | finite t => cases t <;> simp [UnpackedFloat.compare] at h
  | finite s m e hm =>
    cases y with
    | zero t => cases s <;> simp [UnpackedFloat.compare] at h
    | notANumber => simp [UnpackedFloat.compare] at h
    | infinity t => cases t <;> simp [UnpackedFloat.compare] at h
    | finite t m' e' hm' =>
      have heq : s = t ∧ compare e e' = .eq ∧ compare m m' = .eq := by
        cases s <;> cases t <;>
          simp_all [UnpackedFloat.compare, Ordering.swap_eq_eq, Ordering.then_eq_eq]
      obtain ⟨rfl, he, hm⟩ := heq
      rw [Std.LawfulEqOrd.compare_eq_iff_eq] at he hm
      subst he hm
      simp

/-! ### Equality -/

theorem beq_iff_compare {x y : Float32} :
    (x == y) = true ↔ x.toModel.unpack.compare y.toModel.unpack = some .eq := by
  change (x.toModel.unpack.compare y.toModel.unpack == some .eq) = true ↔ _
  simp

theorem unpack_zero : (0 : Float32).toModel.unpack = .zero .positive := rfl

theorem beq_zero_iff {x : Float32} : (x == 0) = true ↔ ∃ s, x.toModel.unpack = .zero s := by
  rw [beq_iff_compare, unpack_zero]
  constructor
  · intro h
    rcases compare_eq_some_eq h with ⟨hx, -⟩ | ⟨s, t, hx, -⟩
    · exact ⟨.positive, hx⟩
    · exact ⟨s, hx⟩
  · rintro ⟨s, hs⟩
    rw [hs]
    rfl

theorem eq_or_zeros_of_beq {x y : Float32} (h : (x == y) = true) :
    x = y ∨ (x == 0) = true ∧ (y == 0) = true := by
  rcases compare_eq_some_eq (beq_iff_compare.1 h) with ⟨hxy, hnan⟩ | ⟨s, t, hx, hy⟩
  · left
    have hbits : x.toModel.toBits = y.toModel.toBits :=
      UInt32.toBitVec_inj.1 (unpack_injective hxy hnan)
    obtain ⟨⟨x, hx⟩⟩ := x
    obtain ⟨⟨y, hy⟩⟩ := y
    simp_all
  · exact .inr ⟨beq_zero_iff.2 ⟨s, hx⟩, beq_zero_iff.2 ⟨t, hy⟩⟩

theorem beq_eq_beq_zero {v z : Float32} (hz : (z == 0) = true) : (v == z) = (v == 0) := by
  obtain ⟨s, hs⟩ := beq_zero_iff.1 hz
  change (v.toModel.unpack.compare z.toModel.unpack == some .eq) =
    (v.toModel.unpack.compare (.zero .positive) == some .eq)
  rw [hs]
  cases v.toModel.unpack with
  | infinity t => cases t <;> rfl
  | finite t => cases t <;> rfl
  | _ => rfl

theorem beq_self_of_beq {x y : Float32} (h : (y == x) = true) : (x == x) = true := by
  rcases eq_or_zeros_of_beq h with rfl | ⟨-, hx⟩
  · exact h
  · rw [beq_eq_beq_zero hx, hx]

/-! ### Signs -/

def sign? : UnpackedFloat → Option Sign
  | .notANumber => none
  | .infinity s | .zero s | .finite s _ _ _ => some s

section Signs

variable {spec : Format}

theorem sign?_unpack (b : BitVec spec.numBits) :
    sign? (unpack spec b) = none ∨
      sign? (unpack spec b) = some (signOf b) := by
  have h := unpacks b
  generalize unpack spec b = x at h
  cases h <;> simp [sign?]

theorem signOf_packComponents (s : Sign) (e : BitVec spec.exponentBits)
    (m : BitVec spec.mantissaBitsWithoutImplicit) : signOf (packComponents spec s e m) = s := by
  rw [signOf, unpackSign_packComponents]
  cases s <;> rfl

theorem signOf_pack (x : UnpackedFloat) :
    signOf (UnpackedFloat.pack spec x) = (sign? x).getD .positive := by
  cases x with
  | notANumber | infinity s | zero s => exact signOf_packComponents ..
  | finite s m e hm =>
    simp only [UnpackedFloat.pack]
    split
    · exact signOf_packComponents ..
    · split <;> exact signOf_packComponents ..

/-- A number without a minus sign, or what is not a number. -/
inductive Unsigned : UnpackedFloat → Prop
  | notANumber : Unsigned .notANumber
  | infinity : Unsigned (.infinity .positive)
  | zero : Unsigned (.zero .positive)
  | finite (m : Nat) (e : Int) (h : 0 < m) : Unsigned (.finite .positive m e h)

attribute [simp] Unsigned.notANumber Unsigned.infinity Unsigned.zero Unsigned.finite

theorem Unsigned.of_sign? {x : UnpackedFloat} (h : sign? x = none ∨ sign? x = some .positive) :
    Unsigned x := by
  cases x with
  | notANumber => exact .notANumber
  | infinity s => cases s <;> simp [sign?] at h; exact .infinity
  | zero s => cases s <;> simp [sign?] at h; exact .zero
  | finite s m e hm => cases s <;> simp [sign?] at h; exact .finite m e hm

theorem Unsigned.signOf_pack {x : UnpackedFloat} (h : Unsigned x) :
    signOf (pack spec x) = .positive := by
  rw [Number.signOf_pack]
  cases h <;> rfl

theorem Unsigned.of_signOf {b : BitVec spec.numBits} (h : signOf b = .positive) :
    Unsigned (unpack spec b) := by
  apply Unsigned.of_sign?
  simpa [h] using sign?_unpack b

theorem Unsigned.round (m : Nat) (e : Int) (a : Accuracy) :
    Unsigned (roundWithAccuracy spec .positive m e a) := by
  simp only [roundWithAccuracy]
  split
  · exact .zero
  · exact .finite ..

theorem Unsigned.mul {x y : UnpackedFloat} (hx : Unsigned x) (hy : Unsigned y) :
    Unsigned (UnpackedFloat.mul spec x y) := by
  have hsign : Sign.positive * Sign.positive = .positive := rfl
  cases hx <;> cases hy <;> simp [UnpackedFloat.mul, hsign, Unsigned.round]

theorem Unsigned.div {x y : UnpackedFloat} (hx : Unsigned x) (hy : Unsigned y) :
    Unsigned (UnpackedFloat.div spec x y) := by
  have hsign : Sign.positive / Sign.positive = .positive := rfl
  cases hx <;> cases hy <;> simp [UnpackedFloat.div, hsign, Unsigned.round]

theorem Unsigned.ofScientific (m : Nat) (e : Int) :
    Unsigned (ofScientific spec m e) := by
  unfold UnpackedFloat.ofScientific
  split
  · exact .zero
  split
  · exact .infinity
  split
  · exact .zero
  split
  · exact .mul (.finite ..) (.finite ..)
  · exact .div (.finite ..) (.finite ..)

theorem Unsigned.ofNat (n : Nat) : Unsigned (UnpackedFloat.ofNat spec n) := by
  simp only [UnpackedFloat.ofNat, UnpackedFloat.ofInt, UnpackedFloat.normalize]
  split
  next h =>
    rw [Std.compare_eq_lt] at h
    omega
  next => exact .zero
  next => exact .round ..

end Signs

/-- The double carries no minus sign. -/
def IsUnsigned (x : Float) : Prop := x.toBits >>> 63 = 0

instance (x : Float) : Decidable (IsUnsigned x) := inferInstanceAs (Decidable (_ = _))

theorem isUnsigned_iff {x : Float} :
    IsUnsigned x ↔ @signOf .binary64 x.toModel.toBits.toBitVec = .positive := by
  have hsign : ∀ v : BitVec 1, Sign.ofBitVec v = .positive ↔ v.toNat = 0 := by
    intro v
    rw [Sign.ofBitVec]
    split
    next h => simp [h]
    next h =>
      simp only [reduceCtorEq, false_iff]
      exact fun h' => h (BitVec.eq_of_toNat_eq h')
  rw [signOf, hsign, IsUnsigned, ← UInt64.toNat_inj]
  have := x.toModel.toBits.toNat_lt
  simp [unpackSign, Float.toBits, UInt64.toNat_shiftRight, Nat.shiftRight_eq_div_pow]
  omega

theorem isUnsigned_mul {x y : Float} (hx : IsUnsigned x) (hy : IsUnsigned y) : IsUnsigned (x * y) :=
  isUnsigned_iff.2 <| Unsigned.signOf_pack <|
    .mul (.of_signOf (isUnsigned_iff.1 hx)) (.of_signOf (isUnsigned_iff.1 hy))

theorem isUnsigned_div {x y : Float} (hx : IsUnsigned x) (hy : IsUnsigned y) : IsUnsigned (x / y) :=
  isUnsigned_iff.2 <| Unsigned.signOf_pack <|
    .div (.of_signOf (isUnsigned_iff.1 hx)) (.of_signOf (isUnsigned_iff.1 hy))

theorem isUnsigned_ofScientific (m : Nat) (s : Bool) (e : Nat) :
    IsUnsigned (Float.ofScientific m s e) := by
  rw [Float.ofScientific]
  split
  next h =>
    have hpow : ∀ x ∈ Float.exactlyRepresentablePowersOfTen.toList, x.toBits >>> 63 = 0 := by
      decide +kernel
    have hm : IsUnsigned m.toUInt64.toFloat := isUnsigned_iff.2 <| Unsigned.signOf_pack (.ofNat _)
    have hlt : e < Float.exactlyRepresentablePowersOfTen.size := by
      simp [Float.exactlyRepresentablePowersOfTen]
      omega
    have hp := hpow _ (Array.getElem_mem_toList hlt)
    cases s
    · exact isUnsigned_mul hm hp
    · exact isUnsigned_div hm hp
  next => exact isUnsigned_iff.2 <| Unsigned.signOf_pack (.ofScientific ..)

theorem isUnsigned_zero : IsUnsigned 0 := isUnsigned_ofScientific 0 false 0

theorem not_negative_of_unsigned? {t : Text} {d : Decimal} (h : Decimal.unsigned? t = some d) :
    d.negative = false := by
  unfold Decimal.unsigned? at h
  grind [Option.map_eq_some_iff]

theorem isUnsigned_magnitude? {d : Decimal} {x : Float} (h : d.magnitude? = some x) :
    IsUnsigned x := by
  simp only [Decimal.magnitude?] at h
  split at h
  · cases h
    exact isUnsigned_zero
  · split at h
    · simp at h
    · split at h
      · simp at h
      · cases h
        exact isUnsigned_ofScientific ..

theorem isUnsigned_literal (l : Literal) : IsUnsigned l.value := by
  rw [Literal.value]
  cases hv : l.value? with
  | none =>
    rw [Option.getD_none]
    exact isUnsigned_zero
  | some x =>
    obtain ⟨d, hd, hx⟩ := Option.bind_eq_some_iff.1 hv
    obtain ⟨y, hy, rfl⟩ := Option.map_eq_some_iff.1 hx
    rw [Option.getD_some, not_negative_of_unsigned? hd]
    exact isUnsigned_magnitude? hy

/-! ### Rounding to singles -/

theorem eq_zero_of_unsigned {x : Float32}
    (hsign : @signOf .binary32 x.toModel.toBits.toBitVec = .positive)
    (h : (x == 0) = true) : x = 0 := by
  obtain ⟨s, hs⟩ := beq_zero_iff.1 h
  have hu : Unsigned (.zero s) := by
    rw [← hs]
    exact .of_signOf hsign
  cases hu
  have hbits : x.toModel.toBits = (0 : Float32).toModel.toBits :=
    UInt32.toBitVec_inj.1 <|
      @unpack_injective .binary32 _ _ (hs.trans unpack_zero.symm) (by
        rw [Float32.Model.unpack] at hs
        rw [hs]
        simp)
  obtain ⟨⟨x, hx⟩⟩ := x
  simp_all

theorem signOf_of_lt {a : UInt32} (h : a.toNat < 2147483648) :
    @signOf .binary32 a.toBitVec = .positive := by
  have hsign : @unpackSign .binary32 a.toBitVec = 0#1 := by
    apply BitVec.eq_of_toNat_eq
    simp [unpackSign, Nat.shiftRight_eq_div_pow]
    omega
  rw [signOf, hsign]
  rfl

theorem singleOfParts_eq_zero {magnitude : Nat} (hm : magnitude < 2147483648)
    (h : (singleOfParts false magnitude == 0) = true) : singleOfParts false magnitude = 0 := by
  apply eq_zero_of_unsigned _ h
  apply Unsigned.signOf_pack
  apply Unsigned.of_signOf
  apply signOf_of_lt
  simp
  omega

theorem Binary.mantissa_lt {x : Float} {b : Binary} (h : ofDouble? x = some b) :
    b.mantissa < 2 ^ 53 := by
  have hfraction : (x.toBits &&& 0xfffffffffffff).toNat < 2 ^ 52 := Nat.and_lt_two_pow _ (by decide)
  unfold ofDouble? at h
  dsimp only at h
  split at h
  · cases h
  · split at h <;> cases h
    · exact Nat.lt_trans hfraction (by decide)
    · dsimp only [Nat.pow_eq]
      omega

theorem negative_of_ofDouble? {x : Float} {b : Binary} (h : Binary.ofDouble? x = some b) :
    b.negative = (x.toBits >>> 63 != 0) := by
  simp only [Binary.ofDouble?] at h
  split at h
  · simp at h
  · split at h <;> cases h <;> rfl

theorem halveToEven_le (m s : Nat) : halveToEven m s ≤ m / Nat.pow 2 s + 1 := by
  simp only [halveToEven]
  split <;> omega

theorem narrow_units : narrow 0 = 0 ∧ ((0 : Float32) == 0) = true ∧ narrow 1 = 1 ∧
    ((1 : Float32) == 0) = false := by
  decide +kernel

theorem narrow_zero : narrow 0 = 0 := narrow_units.1

theorem narrow_eq_zero {x : Float} (hx : IsUnsigned x) (h : (narrow x == 0) = true) :
    narrow x = 0 := by
  rw [narrow] at h ⊢
  cases hb : Binary.ofDouble? x with
  | none =>
    exfalso
    simp only [hb] at h
    have hnan : (Float32.ofBits 0x7fc00000 == 0) = false := by decide +kernel
    have hinf : ∀ s, (singleOfParts s 0x7f800000 == 0) = false := by decide +kernel
    split at h
    · rw [hnan] at h
      cases h
    · rw [hinf] at h
      cases h
  | some b =>
    have hneg : b.negative = false := by
      rw [negative_of_ofDouble? hb, hx]
      rfl
    have hlt := Binary.mantissa_lt hb
    simp only [hb, hneg] at h ⊢
    split
    next => decide +kernel
    next h1 =>
    rw [if_neg h1] at h
    split
    next h2 =>
      rw [if_pos h2] at h
      exact singleOfParts_eq_zero (by omega) h
    next h2 =>
    rw [if_neg h2] at h
    split
    next => decide +kernel
    next h3 =>
      rw [if_neg h3] at h
      refine singleOfParts_eq_zero ?_ h
      have hhalf := halveToEven_le b.mantissa (-149 - b.exponent).toNat
      have hshift : b.mantissa / Nat.pow 2 (-149 - b.exponent).toNat ≤ b.mantissa / 1073741824 :=
        Nat.div_le_div_left (Nat.pow_le_pow_right (by decide : 0 < 2) (by omega : 30 ≤ _))
          (by decide)
      omega

/-! ### Doubles that are words -/

theorem le_zero_of_negative {x : UnpackedFloat} (h : sign? x = some .negative) :
    x.le (.zero .positive) = true := by
  cases x with
  | notANumber => simp [sign?] at h
  | _ =>
    cases h
    rfl

theorem eq_notANumber_of_sign? {x : UnpackedFloat} (h : sign? x = none) : x = .notANumber := by
  cases x <;> simp_all [sign?]

theorem sign?_unpack_neg {x : UnpackedFloat} (hx : Unsigned x) :
    unpack .binary64 (pack .binary64 x.neg) = .notANumber ∨
      sign? (unpack .binary64 (pack .binary64 x.neg)) =
        some .negative := by
  cases hx with
  | notANumber => exact .inl rfl
  | _ =>
    refine (sign?_unpack _).imp eq_notANumber_of_sign? fun h => ?_
    rw [h, signOf_pack]
    rfl

theorem le_zero_of_beq_neg {v w : Float} (hw : IsUnsigned w) (h : (v == -w) = true) : v ≤ 0 := by
  suffices v.toModel.unpack.le (.zero .positive) = true from decide_eq_true this
  have hcompare : v.toModel.unpack.compare (-w).toModel.unpack = some .eq := by
    change (v.toModel.unpack.compare (-w).toModel.unpack == some .eq) = true at h
    simpa using h
  rcases compare_eq_some_eq hcompare with ⟨hvw, hnan⟩ | ⟨s, t, hv, -⟩
  · rcases sign?_unpack_neg (.of_signOf (isUnsigned_iff.1 hw)) with hn | hn
    · exact absurd (hvw.trans hn) hnan
    · rw [hvw]
      exact le_zero_of_negative hn
  · rw [hv]
    cases s <;> rfl

theorem toInt_nonneg_of_beq {v : Float} {n : Int64} (heq : (v == doubleOfWord n) = true)
    (hpos : ¬ v ≤ 0) : 0 ≤ n.toInt := by
  rcases hn : n.toInt with k | k
  · exact Int.natCast_nonneg k
  · rw [doubleOfWord, hn] at heq
    exact absurd (le_zero_of_beq_neg (isUnsigned_ofScientific ..) heq) hpos

end Orchestrion.Number
