import Mathlib.Data.List.TakeWhile
import Orchestrion.Number.Decimal
import Orchestrion.Proofs.Token.Scan

/-!
# Tokens that are spelled out

What a text begins with if a token was written there: punctuation, a word or a numeral is scanned as
itself, whatever follows, as long as that does not make it longer.
-/

namespace Orchestrion

open List

namespace Text

theorem forall_byte {p : UInt8 → Prop} (h : ∀ i : Fin 256, p (UInt8.ofFin i))
    (b : UInt8) : p b := by
  simpa using h b.toFin

/-- Whether the byte stands in front of a text that cannot make a word or a numeral longer. -/
def isBreak (b : UInt8) : Bool := b ≠ 0 && !isNamePart b && !isSymbol '.' b

/-- The text cannot make a word or a numeral in front of it longer, nor is it at its end. -/
def Breaks (t : Text) : Prop := ∃ b rest, t = b :: rest ∧ isBreak b = true

/-- The text does not begin with a byte of the given sort. -/
def Unled (p : UInt8 → Bool) (t : Text) : Prop := ∀ b rest, t = b :: rest → p b = false

/-- The text cannot make punctuation in front of it longer. -/
def Clear (t : Text) : Prop :=
  Unled (fun b => isSymbol '=' b || isSymbol '/' b || isSymbol '*' b) t

theorem Breaks.unled {p : UInt8 → Bool} {t : Text} (h : Breaks t)
    (hp : ∀ b, isBreak b = true → p b = false) : Unled p t := by
  obtain ⟨b, rest, rfl, hb⟩ := h
  rintro _ _ ⟨⟩
  exact hp b hb

theorem takeWhile_append_of_unled {p : UInt8 → Bool} {x rest : Text} (hx : ∀ b ∈ x, p b = true)
    (hrest : Unled p rest) : (x ++ rest).takeWhile p = x := by
  have hnil : rest.takeWhile p = [] := by
    cases rest with
    | nil => rfl
    | cons b rest => rw [takeWhile_cons, hrest b rest rfl]; rfl
  rw [takeWhile_append_of_pos hx, hnil, append_nil]

/-- The text spells a word: a letter or an underscore, and more of them and digits. -/
structure SpellsWord (x : Text) : Prop where
  start : ∃ b rest, x = b :: rest ∧ isNameStart b = true
  parts : ∀ b ∈ x, isNamePart b = true

/-- The text spells a word that is not reserved. -/
structure SpellsName (x : Text) : Prop extends SpellsWord x where
  free : Keyword.ofText? x = none

end Text

theorem Keyword.spellsWord_spelling (k : Keyword) : Text.SpellsWord k.spelling := by
  cases k <;> exact ⟨⟨_, _, rfl, rfl⟩, by decide +kernel⟩

theorem Keyword.ofText?_spelling (k : Keyword) : Keyword.ofText? k.spelling = some k := by
  cases k <;> decide

def Punctuation.isOpen : Punctuation → Bool
  | assign | not | less | greater | slash => true
  | _ => false

namespace Token

variable {t rest x : Text} {b : UInt8} {p : UInt8 → Bool}

open Text

/-! ### Beginnings of tokens -/

/-- Whether the byte can begin an operator of two bytes. -/
def startsDouble (b : UInt8) : Bool := ['=', '!', '<', '>', '&', '|'].contains (symbol b)

theorem double?_eq_none {a : UInt8} (h : startsDouble a = false) (b : UInt8) :
    double? a b = none := by
  unfold double?
  split <;> simp_all [startsDouble]

theorem head?_bind_double? {a : UInt8} (h : startsDouble a = false) :
    t.head?.bind (double? a) = none := by
  cases t with
  | nil => rfl
  | cons b t => exact double?_eq_none h b

/-- What the classes of bytes that the scanner tells apart say about one byte. -/
structure Classified (b : UInt8) : Prop where
  unequal : isSymbol '=' b = false →
    double? 61 b = none ∧ double? 33 b = none ∧ double? 60 b = none ∧ double? 62 b = none
  namePart : (isNamePart b || isSymbol '.' b) = true →
    isBlank b = false ∧ b ≠ 0 ∧ b ≠ 47 ∧ startsDouble b = false ∧ single? b = none
  nameStart : isNameStart b = true → isDigit b = false ∧ isSymbol '.' b = false
  breaks : isBreak b = true → b ≠ 0 ∧ isNamePart b = false ∧ isDigit b = false ∧
    isSymbol '.' b = false ∧ (isSymbol 'e' b || isSymbol 'E' b) = false
  numeral : (isDigit b || isSymbol '.' b) = true →
    isNameStart b = false ∧ (isSymbol '+' b || isSymbol '-' b) = false
  exponentMark : (isSymbol 'e' b || isSymbol 'E' b) = true →
    isDigit b = false ∧ isSymbol '.' b = false
  point : isSymbol '.' b = true → isDigit b = false

-- One theorem, since each pass over all bytes waits for the kernel.
theorem classified (b : UInt8) : Classified b := by
  constructor <;> revert b <;> exact forall_byte (by decide +kernel)

theorem blankLength?_of_ne (hb : isBlank b = false) (hslash : b ≠ 47) (rest : Text) :
    blankLength? (b :: rest) = some 0 := by
  have hprefix (c : UInt8) (s : Text) : Text.startsWith (b :: rest) (47 :: c :: s) = false := by
    simp [Text.startsWith, List.isPrefixOf, hslash.symm]
  have hline : ("//" : Text) = [47, 47] := by decide
  have hblock : ("/*" : Text) = [47, 42] := by decide
  simp only [blankLength?, hb, hline, hblock, hprefix]
  rfl

theorem next_of_blankLength? (h : blankLength? (b :: rest) = some 0) (hb : b ≠ 0) (p : Position) :
    next ⟨b :: rest, p⟩ = .token ⟨(classify ⟨b :: rest, p⟩ b rest).kind,
      (classify ⟨b :: rest, p⟩ b rest).value, p⟩
        (Unread.drop ⟨b :: rest, p⟩ (classify ⟨b :: rest, p⟩ b rest).size) := by
  have hskip : skipBlank ⟨b :: rest, p⟩ = .closed ⟨b :: rest, p⟩ := by
    rw [skipBlank]
    split <;> simp_all
  simp only [next, hskip, hb, ↓reduceIte]

/-! ### Words -/

theorem classify_word (hx : SpellsWord (b :: x)) (hrest : Breaks rest) (p : Position) :
    classify ⟨b :: x ++ rest, p⟩ b (x ++ rest) = ⟨.ofWord (b :: x), b :: x, (b :: x).length⟩ := by
  obtain ⟨_, _, ⟨⟩, hstart⟩ := hx.start
  have hpart : isNamePart b = true := hx.parts b mem_cons_self
  obtain ⟨-, -, -, hdouble, hsingle⟩ := (classified b).namePart (by rw [hpart]; rfl)
  obtain ⟨hdigit, hpoint⟩ := (classified b).nameStart hstart
  have hnumeral : startsNumeral (b :: x ++ rest) = false := by
    simp [startsNumeral, hdigit, hpoint]
  have htake : (b :: x ++ rest).takeWhile isNamePart = b :: x :=
    takeWhile_append_of_unled hx.parts (hrest.unled fun c hc => ((classified c).breaks hc).2.1)
  obtain ⟨c, tail, rfl, hc⟩ := hrest
  have hlexeme : Unread.lexeme ⟨b :: x ++ c :: tail, p⟩ (b :: x).length = b :: x := by
    simp [Unread.lexeme, Unread.drop, Unread.atEnd, ((classified c).breaks hc).1]
  simp only [classify, head?_bind_double? hdouble, hsingle, hnumeral, htake, hlexeme, hstart]
  rfl

/-! ### Numerals -/

def fractionLength : Text → Nat
  | b :: after => if isSymbol '.' b then 1 + (after.takeWhile isDigit).length else 0
  | [] => 0

theorem numeralLength_eq (t : Text) :
    numeralLength t =
      let whole := (t.takeWhile isDigit).length
      let fraction := fractionLength (t.drop whole)
      let exponent := exponentLength ((t.drop whole).drop fraction)
      (whole + fraction + exponent, fraction = 0 && exponent = 0) := by
  rfl

theorem fractionLength_of_unled (h : Unled (isSymbol '.') t) : fractionLength t = 0 := by
  cases t with
  | nil => rfl
  | cons b rest => simp [fractionLength, h b rest rfl]

theorem exponentLength_of_unled (h : Unled (fun b => isSymbol 'e' b || isSymbol 'E' b) t) :
    exponentLength t = 0 := by
  cases t with
  | nil => rfl
  | cons b rest => simp only [exponentLength, h b rest rfl, Bool.false_eq_true, ↓reduceIte]

/-- A text that is scanned as a numeral in front of everything that does not make it longer. -/
def IsNumeral (x : Text) (whole : Bool) : Prop :=
  ∀ rest, Breaks rest → startsNumeral (x ++ rest) = true ∧
    numeralLength (x ++ rest) = (x.length, whole)

/-- An exponent: its mark, a sign that may be missing, and digits. -/
structure IsExponent (x : Text) : Prop where
  parts : ∃ mark sign digits, x = mark :: (sign ++ digits) ∧
    (isSymbol 'e' mark || isSymbol 'E' mark) = true ∧
    (sign = [] ∨ ∃ s, sign = [s] ∧ (isSymbol '+' s || isSymbol '-' s) = true) ∧
    digits ≠ [] ∧ ∀ b ∈ digits, isDigit b = true

theorem IsExponent.exponentLength_append (h : IsExponent x) (hrest : Unled isDigit rest) :
    exponentLength (x ++ rest) = x.length := by
  obtain ⟨mark, sign, digits, rfl, hmark, hsign, hne, hdigits⟩ := h
  have htake : (digits ++ rest).takeWhile isDigit = digits :=
    takeWhile_append_of_unled hdigits hrest
  obtain ⟨d, ds, rfl⟩ := exists_cons_of_ne_nil hne
  rcases hsign with rfl | ⟨s, rfl, hs⟩
  · have hd : (isSymbol '+' d || isSymbol '-' d) = false :=
      ((classified d).numeral (by rw [hdigits d mem_cons_self]; rfl)).2
    simp only [nil_append, cons_append] at htake ⊢
    simp only [exponentLength, hmark, ↓reduceIte, hd, Bool.false_eq_true, drop_zero, htake]
    simp [Nat.add_comm]
  · simp only [nil_append, cons_append] at htake ⊢
    simp only [exponentLength, hmark, ↓reduceIte, hs, drop_one, tail_cons, htake]
    simp only [length_cons]
    omega

theorem isExponent_take (h : exponentLength t ≠ 0) :
    IsExponent (t.take (exponentLength t)) ∧ exponentLength t ≤ t.length := by
  cases t with
  | nil => exact absurd rfl h
  | cons mark rest =>
    by_cases hmark : (isSymbol 'e' mark || isSymbol 'E' mark) = true
    · obtain ⟨sign, after, rfl, hsign, hlength⟩ : ∃ sign after, rest = sign ++ after ∧
          (sign = [] ∨ ∃ s, sign = [s] ∧ (isSymbol '+' s || isSymbol '-' s) = true) ∧
          exponentLength (mark :: rest) = if after.takeWhile isDigit = [] then 0
            else 1 + sign.length + (after.takeWhile isDigit).length := by
        cases rest with
        | nil => exact ⟨[], [], rfl, .inl rfl, by simp [exponentLength, hmark]⟩
        | cons s after =>
          by_cases hs : (isSymbol '+' s || isSymbol '-' s) = true
          · refine ⟨[s], after, rfl, .inr ⟨s, rfl, hs⟩, ?_⟩
            simp only [exponentLength, hmark, hs, ↓reduceIte, drop_succ_cons, drop_zero]
            cases after.takeWhile isDigit <;> rfl
          · refine ⟨[], s :: after, rfl, .inl rfl, ?_⟩
            simp only [exponentLength, hmark, hs, ↓reduceIte, Bool.false_eq_true, drop_zero]
            cases (s :: after).takeWhile isDigit <;> rfl
      rw [hlength] at h ⊢
      have hprefix := List.takeWhile_prefix (l := after) isDigit
      have hdigits : ∀ b ∈ after.takeWhile isDigit, isDigit b = true :=
        fun _ => mem_takeWhile_imp
      generalize after.takeWhile isDigit = digits at h hprefix hdigits ⊢
      cases digits with
      | nil => exact absurd rfl h
      | cons d ds =>
        rw [if_neg (cons_ne_nil d ds)]
        have htake : (mark :: (sign ++ after)).take (1 + sign.length + (d :: ds).length) =
            mark :: (sign ++ (d :: ds)) := by
          rw [Nat.add_assoc, Nat.add_comm 1, take_succ_cons, take_length_add_append,
            ← prefix_iff_eq_take.1 hprefix]
        refine ⟨⟨mark, sign, d :: ds, htake, hmark, hsign, cons_ne_nil d ds, hdigits⟩, ?_⟩
        have hle := hprefix.length_le
        simp only [length_cons, length_append] at hle ⊢
        omega
    · exact absurd (by simp [exponentLength, hmark]) h

theorem fractionLength_le (t : Text) : fractionLength t ≤ t.length := by
  cases t with
  | nil => exact Nat.le_refl 0
  | cons b after =>
    have hle := (List.takeWhile_prefix (l := after) isDigit).length_le
    simp only [fractionLength, length_cons]
    split <;> omega

theorem exponentLength_le (t : Text) : exponentLength t ≤ t.length := by
  by_cases h : exponentLength t = 0
  · omega
  · exact (isExponent_take h).2

theorem numeralLength_le (t : Text) : (numeralLength t).1 ≤ t.length := by
  have hwhole := (List.takeWhile_prefix (l := t) isDigit).length_le
  have hfraction := fractionLength_le (t.drop (t.takeWhile isDigit).length)
  have hexponent := exponentLength_le
    ((t.drop (t.takeWhile isDigit).length).drop
    (fractionLength (t.drop (t.takeWhile isDigit).length)))
  simp only [numeralLength_eq, length_drop] at hfraction hexponent ⊢
  omega

/-- A fraction: a point and digits. -/
structure IsFraction (x : Text) : Prop where
  parts : ∃ point digits, x = point :: digits ∧ isSymbol '.' point = true ∧
    ∀ b ∈ digits, isDigit b = true

/-- The text spells a numeral: digits, a fraction and an exponent. Fraction and exponent may be
missing, and without them the numeral is an integer. In front of a fraction the digits may be
missing, too. -/
structure SpellsNumeral (x : Text) (whole : Bool) : Prop where
  parts : ∃ digits fraction exponent, x = digits ++ (fraction ++ exponent) ∧
    (∀ b ∈ digits, isDigit b = true) ∧ (fraction = [] ∨ IsFraction fraction) ∧
    (exponent = [] ∨ IsExponent exponent) ∧ (digits = [] → 1 < fraction.length) ∧
    (whole = true ↔ fraction = [] ∧ exponent = [])

theorem isFraction_take (h : fractionLength t ≠ 0) : IsFraction (t.take (fractionLength t)) := by
  cases t with
  | nil => exact absurd rfl h
  | cons b after =>
    by_cases hb : isSymbol '.' b = true
    · have htake : (b :: after).take (fractionLength (b :: after)) =
          b :: after.takeWhile isDigit := by
        simp only [fractionLength, hb, ↓reduceIte, Nat.add_comm 1, take_succ_cons]
        rw [← prefix_iff_eq_take.1 (List.takeWhile_prefix _)]
      exact ⟨b, _, htake, hb, fun _ => mem_takeWhile_imp⟩
    · exact absurd (by simp [fractionLength, hb]) h

theorem spellsNumeral_take (h : startsNumeral t = true) :
    SpellsNumeral (t.take (numeralLength t).1) (numeralLength t).2 := by
  have hwhole : t.take (t.takeWhile isDigit).length = t.takeWhile isDigit :=
    (prefix_iff_eq_take.1 (List.takeWhile_prefix _)).symm
  obtain ⟨t₁, ht₁⟩ : ∃ t₁, t₁ = t.drop (t.takeWhile isDigit).length := ⟨_, rfl⟩
  obtain ⟨t₂, ht₂⟩ : ∃ t₂, t₂ = t₁.drop (fractionLength t₁) := ⟨_, rfl⟩
  have hfraction : t₁.take (fractionLength t₁) = [] ↔ fractionLength t₁ = 0 := by
    rw [← length_eq_zero_iff, length_take_of_le (fractionLength_le t₁)]
  have hexponent : t₂.take (exponentLength t₂) = [] ↔ exponentLength t₂ = 0 := by
    rw [← length_eq_zero_iff, length_take_of_le (exponentLength_le t₂)]
  refine ⟨t.takeWhile isDigit, t₁.take (fractionLength t₁), t₂.take (exponentLength t₂), ?_,
    fun _ => mem_takeWhile_imp, ?_, ?_, ?_, ?_⟩
  · simp only [numeralLength_eq, take_add, hwhole, ← ht₁, ← drop_drop, ← ht₂,
      append_assoc]
  · exact (Classical.em _).imp hfraction.2 isFraction_take
  · exact (Classical.em _).imp hexponent.2 fun h => (isExponent_take h).1
  · intro hnone
    rw [length_take_of_le (fractionLength_le t₁), ht₁, hnone]
    cases t with
    | nil => cases h
    | cons b after =>
      have hb : isDigit b = false := by
        by_contra hb
        simp [hb] at hnone
      simp only [startsNumeral, hb, Bool.false_or, Bool.and_eq_true] at h
      obtain ⟨hpoint, hafter⟩ := h
      cases after with
      | nil => cases hafter
      | cons d ds =>
        simp only [length_nil, drop_zero, fractionLength, hpoint, ↓reduceIte,
          takeWhile_cons, hafter, length_cons]
        omega
  · simp only [numeralLength_eq, ← ht₁, ← ht₂, hfraction, hexponent, Bool.and_eq_true,
      decide_eq_true_eq]

theorem IsExponent.unled (h : IsExponent x) {p : UInt8 → Bool}
    (hp : ∀ b, (isSymbol 'e' b || isSymbol 'E' b) = true → p b = false) (rest : Text) :
    Unled p (x ++ rest) := by
  obtain ⟨mark, sign, digits, rfl, hmark, -⟩ := h
  rintro _ _ ⟨⟩
  exact hp mark hmark

theorem SpellsNumeral.startsNumeral {x t : Text} {whole : Bool} (h : SpellsNumeral x whole)
    (hx : x <+: t) : startsNumeral t = true := by
  obtain ⟨rest, rfl⟩ := hx
  obtain ⟨digits, fraction, exponent, rfl, hdigits, hfraction, -, hnone, -⟩ := h
  cases digits with
  | cons d ds => simp [Token.startsNumeral, hdigits d mem_cons_self]
  | nil =>
    have hlength := hnone rfl
    rcases hfraction with rfl | ⟨point, more, rfl, hpoint, hmore⟩
    · cases hlength
    · cases more with
      | nil => simp at hlength
      | cons d ds => simp [Token.startsNumeral, hpoint, hmore d mem_cons_self]

theorem SpellsNumeral.isNumeral {x : Text} {whole : Bool} (h : SpellsNumeral x whole) :
    IsNumeral x whole := by
  intro rest hrest
  refine ⟨h.startsNumeral (prefix_append x rest), ?_⟩
  obtain ⟨digits, fraction, exponent, rfl, hdigits, hfraction, hexponent, -, hwhole⟩ := h
  have hdigit : Unled isDigit rest := hrest.unled fun c hc => ((classified c).breaks hc).2.2.1
  have hpoint : Unled (isSymbol '.') rest :=
    hrest.unled fun c hc => ((classified c).breaks hc).2.2.2.1
  -- Neither a digit nor a point stands behind the fraction.
  obtain ⟨hlength, hdigit', hpoint'⟩ : exponentLength (exponent ++ rest) = exponent.length ∧
      Unled isDigit (exponent ++ rest) ∧ Unled (isSymbol '.') (exponent ++ rest) := by
    rcases hexponent with rfl | h
    · exact ⟨exponentLength_of_unled (hrest.unled fun c hc => ((classified c).breaks hc).2.2.2.2),
        hdigit, hpoint⟩
    · exact ⟨h.exponentLength_append hdigit,
        h.unled (fun b hb => ((classified b).exponentMark hb).1) rest,
        h.unled (fun b hb => ((classified b).exponentMark hb).2) rest⟩
  obtain ⟨hlength', hdigit''⟩ : fractionLength (fraction ++ (exponent ++ rest)) = fraction.length ∧
      Unled isDigit (fraction ++ (exponent ++ rest)) := by
    rcases hfraction with rfl | ⟨point, more, rfl, hmark, hmore⟩
    · exact ⟨fractionLength_of_unled hpoint', hdigit'⟩
    · refine ⟨by simp [fractionLength, hmark, takeWhile_append_of_unled hmore hdigit',
        Nat.add_comm], ?_⟩
      rintro _ _ ⟨⟩
      exact (classified point).point hmark
  have htake := takeWhile_append_of_unled hdigits hdigit''
  have hsort : (fraction = [] && exponent = [] : Bool) = whole := by
    rw [Bool.eq_iff_iff, hwhole]
    simp
  simp [numeralLength_eq, htake, hlength', hlength, hsort, Nat.add_assoc]

theorem IsNumeral.exists_cons {whole : Bool} (h : IsNumeral x whole) :
    ∃ b xs, x = b :: xs ∧ (isDigit b || isSymbol '.' b) = true := by
  have hstarts := (h [32] ⟨32, [], rfl, by decide⟩).1
  cases x with
  | nil => exact absurd hstarts (by decide)
  | cons b xs =>
    refine ⟨b, xs, rfl, ?_⟩
    simp only [cons_append, startsNumeral, Bool.or_eq_true, Bool.and_eq_true] at hstarts ⊢
    exact hstarts.imp id And.left

theorem classify_numeral {whole : Bool} (hx : IsNumeral (b :: x) whole) (hrest : Breaks rest)
    (p : Position) :
    classify ⟨b :: x ++ rest, p⟩ b (x ++ rest) =
      ⟨if whole then .integer else .number, b :: x, (b :: x).length⟩ := by
  obtain ⟨_, _, ⟨⟩, hb⟩ := hx.exists_cons
  obtain ⟨-, -, -, hdouble, hsingle⟩ := (classified b).namePart (by
    simp only [isNamePart, Bool.or_eq_true] at hb ⊢
    exact hb.imp Or.inr id)
  obtain ⟨hstarts, hlength⟩ := hx rest hrest
  obtain ⟨c, tail, rfl, hc⟩ := hrest
  have hlexeme : Unread.lexeme ⟨b :: x ++ c :: tail, p⟩ (b :: x).length = b :: x := by
    simp [Unread.lexeme, Unread.drop, Unread.atEnd, ((classified c).breaks hc).1]
  simp only [classify, head?_bind_double? hdouble, hsingle, hstarts, hlength, hlexeme, ↓reduceIte]

/-! ### Punctuation -/

theorem head?_bind_double?_of_clear (h : Clear rest) (hb : b = 61 ∨ b = 33 ∨ b = 60 ∨ b = 62) :
    rest.head?.bind (double? b) = none := by
  cases rest with
  | nil => rfl
  | cons c rest =>
    have hc : isSymbol '=' c = false := by
      have hclear := h c rest rfl
      simp only [Bool.or_eq_false_iff] at hclear
      exact hclear.1.1
    obtain ⟨h₁, h₂, h₃, h₄⟩ := (classified c).unequal hc
    rcases hb with rfl | rfl | rfl | rfl <;> assumption

theorem blankLength?_slash (h : Clear rest) : blankLength? (47 :: rest) = some 0 := by
  cases rest with
  | nil => decide
  | cons c rest =>
    have hclear := h c rest rfl
    simp only [Bool.or_eq_false_iff] at hclear
    have hslash : c ≠ 47 := by rintro rfl; cases hclear.1.2
    have hstar : c ≠ 42 := by rintro rfl; cases hclear.2
    have hline : ("//" : Text) = [47, 47] := by decide
    have hblock : ("/*" : Text) = [47, 42] := by decide
    simp [blankLength?, isBlank, Text.startsWith, hline, hblock, List.isPrefixOf, hslash.symm,
      hstar.symm]

theorem classify_single {m : Punctuation} (hsingle : single? b = some m)
    (hdouble : rest.head?.bind (double? b) = none) (p : Position) :
    classify ⟨b :: rest, p⟩ b rest = ⟨.punctuation m, m.spelling, 1⟩ := by
  simp only [classify, hdouble, hsingle]

theorem classify_double {c : UInt8} {m : Punctuation} (h : double? b c = some m) (p : Position) :
    classify ⟨b :: c :: rest, p⟩ b (c :: rest) = ⟨.punctuation m, m.spelling, 2⟩ := by
  simp only [classify, head?_cons, Option.bind_some, h]

theorem classify_mark (m : Punctuation) (hclear : m.isOpen = true → Clear rest) :
    ∃ b bs, (m.spelling : Text) = b :: bs ∧ b ≠ 0 ∧ blankLength? (b :: bs ++ rest) = some 0 ∧
      ∀ p, classify ⟨b :: bs ++ rest, p⟩ b (bs ++ rest) =
        ⟨.punctuation m, m.spelling, (b :: bs).length⟩ := by
  cases m with
  | slash => exact ⟨47, [], by decide, by decide, blankLength?_slash (hclear rfl),
      classify_single (by decide) (head?_bind_double? (by decide))⟩
  | assign | not | less | greater => exact ⟨_, [], rfl, by decide,
      blankLength?_of_ne (by decide) (by decide) _,
      classify_single (by decide) (head?_bind_double?_of_clear (hclear rfl) (by decide))⟩
  | equal | notEqual | lessEqual | greaterEqual | and | or => exact ⟨_, [_], rfl, by decide,
      blankLength?_of_ne (by decide) (by decide) _, classify_double (by decide)⟩
  | _ => exact ⟨_, [], rfl, by decide, blankLength?_of_ne (by decide) (by decide) _,
      classify_single (by decide) (head?_bind_double? (by decide))⟩

/-! ### Tokens that were scanned -/

/-- The token, if it is a name or a numeral, is scanned as itself wherever it is written. -/
def IsSpelled (t : Token) : Prop :=
  match t.kind with
  | .name => SpellsName t.value
  | .integer => IsNumeral t.value true
  | .number => IsNumeral t.value false
  | _ => True

theorem isSpelled_classify {u : Unread} (hu : u.rest = b :: rest)
    (hend : (u.drop (classify u b rest).size).atEnd = false) (p : Position) :
    IsSpelled ⟨(classify u b rest).kind, (classify u b rest).value, p⟩ := by
  rcases classify_cases u b rest with ⟨m, n, h⟩ | ⟨hstarts, h⟩ | ⟨hstart, h⟩ | ⟨complaint, h⟩
  · rw [h]
    trivial
  · rw [h] at hend ⊢
    have hspelled := (spellsNumeral_take hstarts).isNumeral
    rw [Unread.lexeme, hend]
    generalize numeralLength u.rest = n at hspelled ⊢
    obtain ⟨n, _ | _⟩ := n
    · exact hspelled
    · exact hspelled
  · rw [h] at hend ⊢
    rw [Unread.lexeme, hend]
    have hword : SpellsWord (u.rest.take (u.rest.takeWhile isNamePart).length) := by
      rw [← prefix_iff_eq_take.1 (List.takeWhile_prefix _)]
      refine ⟨⟨b, rest.takeWhile isNamePart, ?_, hstart⟩, fun _ => mem_takeWhile_imp⟩
      simp [hu, isNamePart, hstart]
    simp only [Bool.false_eq_true, ↓reduceIte, TokenKind.ofWord]
    split
    next => trivial
    next hfree => exact ⟨hword, hfree⟩
  · rw [h]
    trivial

theorem tokens_scanFrom_of_atEnd {u : Unread} (h : u.atEnd = true) : (scanFrom u).tokens = [] := by
  have hblank : blankLength? u.rest = some 0 := by
    obtain ⟨_ | ⟨b, rest⟩, p⟩ := u
    · rfl
    · have hb : b = 0 := of_decide_eq_true h
      exact blankLength?_of_ne (by rw [hb]; rfl) (by rw [hb]; decide) rest
  have hskip : skipBlank u = .closed u := by
    rw [skipBlank]
    split <;> simp_all
  have hnext : next u = .done u.endPlace := by
    obtain ⟨_ | ⟨b, rest⟩, p⟩ := u
    · simp only [next, hskip]
    · obtain rfl : b = 0 := of_decide_eq_true h
      simp only [next, hskip, ↓reduceIte]
  rw [scanFrom]
  split <;> simp_all

theorem isSpelled_of_mem_dropLast (u : Unread) :
    ∀ t ∈ (scanFrom u).tokens.dropLast, t.IsSpelled := by
  fun_induction scanFrom u with
  | case1 =>
    intro t ht
    cases ht
  | case2 u t left hnext ih =>
    intro t' ht'
    by_cases hlast : (scanFrom left).tokens = []
    · simp [Scanned.cons, hlast] at ht'
    change t' ∈ (t :: (scanFrom left).tokens).dropLast at ht'
    rw [dropLast_cons_of_ne_nil hlast] at ht'
    rcases mem_cons.1 ht' with rfl | ht'
    · have hend : left.atEnd = false := by
        rw [← Bool.not_eq_true]
        exact fun h => hlast (tokens_scanFrom_of_atEnd h)
      rcases next_eq_token hnext with ⟨start, -, rfl, -⟩ | ⟨v, b, rest, -, hv, -, rfl, rfl⟩
      · trivial
      · exact isSpelled_classify hv hend v.place
    · exact ih t' ht'

end Token

end Orchestrion
