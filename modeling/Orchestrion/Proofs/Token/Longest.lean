import Orchestrion.Proofs.Token.Spelling

/-!
# The longest token

Which bytes write which sort of token, said without scanning (`Token.Spells`), and that scanning
takes the longest ones: no other token that could begin at the same place has more bytes.
-/

namespace Orchestrion

open List

namespace Token

variable {t x rest : Text} {b : UInt8}

open Text

/-! ### Numerals -/

theorem IsExponent.length_le (h : IsExponent x) (hx : x <+: t) : x.length ≤ exponentLength t := by
  obtain ⟨rest, rfl⟩ := hx
  obtain ⟨mark, sign, digits, rfl, hmark, hsign, hne, hdigits⟩ := h
  have hlonger : IsExponent (mark :: (sign ++ (digits ++ rest.takeWhile isDigit))) := by
    refine ⟨mark, sign, digits ++ rest.takeWhile isDigit, rfl, hmark, hsign, by simp [hne], ?_⟩
    intro b hb
    exact (mem_append.1 hb).elim (hdigits b) mem_takeWhile_imp
  have hrest : Unled isDigit (rest.dropWhile isDigit) := by
    intro b after hb
    have hhead := head?_dropWhile_not isDigit rest
    rw [hb] at hhead
    simpa using hhead
  have hlength := hlonger.exponentLength_append hrest
  rw [cons_append, append_assoc, append_assoc,
    takeWhile_append_dropWhile] at hlength
  rw [cons_append, append_assoc, hlength]
  simp only [length_cons, length_append]
  omega

theorem length_lt_or_takeWhile_eq {p : UInt8 → Bool} (hx : ∀ b ∈ x, p b = true) (rest : Text) :
    (x ++ rest).takeWhile p = x ∨
      x.length < ((x ++ rest).takeWhile p).length ∧ ¬Unled p rest := by
  by_cases h : Unled p rest
  · exact .inl (takeWhile_append_of_unled hx h)
  · refine .inr ⟨?_, h⟩
    rw [takeWhile_append_of_pos hx, length_append]
    cases rest with
    | nil => exact absurd (fun b rest h => by cases h) h
    | cons b rest =>
      have hb : p b = true := by
        by_contra hb
        exact h fun _ _ heq => by cases heq; simpa using hb
      simp [hb]

theorem SpellsNumeral.length_le {x t : Text} {whole : Bool} (h : SpellsNumeral x whole)
    (hx : x <+: t) : x.length ≤ (numeralLength t).1 := by
  obtain ⟨rest, rfl⟩ := hx
  obtain ⟨digits, fraction, exponent, rfl, hdigits, hfraction, hexponent, -, -⟩ := h
  rw [numeralLength_eq, append_assoc]
  dsimp only
  rcases length_lt_or_takeWhile_eq hdigits (fraction ++ exponent ++ rest) with htake | ⟨hlt, hled⟩
  · -- The digits are all there are, and the fraction is read from where it stands.
    rw [htake, drop_left]
    rcases hfraction with rfl | ⟨point, more, rfl, hpoint, hmore⟩
    · rcases hexponent with rfl | hexponent
      · simp only [append_nil]
        omega
      · have hnone : fractionLength (exponent ++ rest) = 0 :=
          fractionLength_of_unled
            (hexponent.unled (fun b hb => ((classified b).exponentMark hb).2) rest)
        have hle := hexponent.length_le (prefix_append exponent rest)
        simp only [nil_append, hnone, drop_zero, length_append]
        omega
    · simp only [cons_append, append_assoc, fractionLength, hpoint, ↓reduceIte]
      rcases length_lt_or_takeWhile_eq hmore (exponent ++ rest) with hmoreTake | ⟨hlt, hled⟩
      · rw [hmoreTake]
        have hdrop : (point :: (more ++ (exponent ++ rest))).drop (1 + more.length) =
            exponent ++ rest := by
          rw [Nat.add_comm, drop_succ_cons, drop_left]
        rw [hdrop]
        rcases hexponent with rfl | hexponent
        · simp only [append_nil, length_append, length_cons]
          omega
        · have hle := hexponent.length_le (prefix_append exponent rest)
          simp only [length_append, length_cons]
          omega
      · -- A digit follows, so there is no exponent.
        rcases hexponent with rfl | hexponent
        · simp only [append_nil, length_append, length_cons]
          omega
        · exact absurd (hexponent.unled (fun b hb => ((classified b).exponentMark hb).1) rest) hled
  · -- A digit follows, so there is neither fraction nor exponent.
    rcases hfraction with rfl | ⟨point, more, rfl, hpoint, -⟩
    · rcases hexponent with rfl | hexponent
      · simp only [append_nil] at hlt ⊢
        omega
      · exact absurd (hexponent.unled (fun b hb => ((classified b).exponentMark hb).1) rest) hled
    · refine absurd ?_ hled
      rintro _ _ ⟨⟩
      exact (classified point).point hpoint

theorem facts_of_startsNumeral (h : startsNumeral (b :: rest) = true) :
    isNameStart b = false ∧ startsDouble b = false ∧ single? b = none := by
  have hb : (isDigit b || isSymbol '.' b) = true := by
    simp only [startsNumeral, Bool.or_eq_true, Bool.and_eq_true] at h ⊢
    exact h.imp id And.left
  obtain ⟨-, -, -, hdouble, hsingle⟩ := (classified b).namePart (by
    simp only [isNamePart, Bool.or_eq_true] at hb ⊢
    exact hb.imp Or.inr id)
  exact ⟨((classified b).numeral hb).1, hdouble, hsingle⟩

theorem SpellsNumeral.zero_notMem {whole : Bool} (h : SpellsNumeral x whole) : 0 ∉ x := by
  obtain ⟨digits, fraction, exponent, rfl, hdigits, hfraction, hexponent, -⟩ := h
  have hdigit (ds : Text) (hds : ∀ b ∈ ds, isDigit b = true) : 0 ∉ ds :=
    fun hzero => absurd (hds 0 hzero) (by decide)
  refine not_mem_append (hdigit _ hdigits) (not_mem_append ?_ ?_)
  · rcases hfraction with rfl | ⟨point, more, rfl, hpoint, hmore⟩
    · exact not_mem_nil
    · refine not_mem_cons_of_ne_of_not_mem ?_ (hdigit _ hmore)
      rintro rfl
      cases hpoint
  · rcases hexponent with rfl | ⟨mark, sign, ds, rfl, hmark, hsign, -, hds⟩
    · exact not_mem_nil
    · refine not_mem_cons_of_ne_of_not_mem ?_ (not_mem_append ?_ (hdigit _ hds))
      · rintro rfl
        cases hmark
      · rcases hsign with rfl | ⟨s, rfl, hs⟩
        · exact not_mem_nil
        · intro hzero
          cases mem_singleton.1 hzero
          cases hs

/-! ### Punctuation -/

theorem spelling_cases (m : Punctuation) :
    (∃ a, (m.spelling : Text) = [a] ∧ single? a = some m) ∨
      ∃ a b, (m.spelling : Text) = [a, b] ∧ startsDouble a = true ∧ double? a b = some m := by
  cases m with
  | equal | notEqual | lessEqual | greaterEqual | and | or => exact .inr ⟨_, _, rfl, rfl, rfl⟩
  | _ => exact .inl ⟨_, rfl, rfl⟩

theorem spelling_of_single? : ∀ (a : UInt8) (m : Punctuation), single? a = some m →
    (m.spelling : Text) = [a] := by
  have h : ∀ a : UInt8, (single? a).all (fun m => (m.spelling : Text) = [a]) = true :=
    forall_byte (by decide +kernel)
  intro a m hm
  have ha := h a
  rw [hm] at ha
  exact of_decide_eq_true ha

theorem ofNat_symbol : ∀ a : UInt8, UInt8.ofNat (symbol a).toNat = a :=
  forall_byte (by decide +kernel)

theorem spelling_of_double? {a : UInt8} {m : Punctuation} (h : double? a b = some m) :
    (m.spelling : Text) = [a, b] := by
  unfold double? at h
  split at h
  all_goals cases h
  all_goals
    rename_i ha hb
    rw [← ofNat_symbol a, ← ofNat_symbol b, ha, hb]
    rfl

/-! ### Tokens -/

/-- Bytes that write a token of the given sort: punctuation, a word, or a numeral. -/
inductive Spells : TokenKind → Text → Prop
  | mark (m : Punctuation) : Spells (.punctuation m) m.spelling
  | word {x : Text} (h : SpellsWord x) : Spells (.ofWord x) x
  | numeral {x : Text} {whole : Bool} (h : SpellsNumeral x whole) :
    Spells (if whole then .integer else .number) x

/-- The bytes write a token of the given sort, and no token that the bytes and the rest begin with
is longer. -/
structure Longest (kind : TokenKind) (bytes rest : Text) : Prop where
  spells : Spells kind bytes
  longest : ∀ other x, Spells other x → x <+: bytes ++ rest → x.length ≤ bytes.length

def Bare (t : Text) : Prop := ∀ kind x, Spells kind x → ¬x <+: t

theorem Spells.zero_notMem {kind : TokenKind} {x : Text} (h : Spells kind x) : 0 ∉ x := by
  cases h with
  | mark m => cases m <;> decide
  | word h => exact fun hzero => absurd (h.parts 0 hzero) (by decide)
  | numeral h => exact h.zero_notMem

theorem Spells.cases_cons {kind : TokenKind} (h : Spells kind x) (hx : x <+: b :: rest) :
    (∃ m : Punctuation, x = m.spelling ∧
    (single? b = some m ∨ rest.head?.bind (double? b) = some m)) ∨
    (SpellsWord x ∧ isNameStart b = true) ∨
    ∃ whole, SpellsNumeral x whole ∧ startsNumeral (b :: rest) = true := by
  cases h with
  | mark m =>
    refine .inl ⟨m, rfl, ?_⟩
    rcases spelling_cases m with ⟨a, hspelling, hsingle⟩ | ⟨a, c, hspelling, -, hdouble⟩
    · rw [hspelling] at hx
      obtain ⟨rfl, -⟩ := cons_prefix_cons.1 hx
      exact .inl hsingle
    · rw [hspelling] at hx
      obtain ⟨rfl, hc⟩ := cons_prefix_cons.1 hx
      obtain ⟨after, rfl⟩ := hc
      exact .inr hdouble
  | word h =>
    obtain ⟨c, xs, rfl, hc⟩ := h.start
    obtain ⟨rfl, -⟩ := cons_prefix_cons.1 hx
    exact .inr (.inl ⟨h, hc⟩)
  | numeral h => exact .inr (.inr ⟨_, h, h.startsNumeral hx⟩)

theorem facts_of_isNameStart_cons (h : isNameStart b = true) (rest : Text) :
    startsNumeral (b :: rest) = false ∧ rest.head?.bind (double? b) = none ∧ single? b = none := by
  obtain ⟨hdigit, hpoint⟩ := (classified b).nameStart h
  obtain ⟨-, -, -, hdouble, hsingle⟩ := (classified b).namePart (by simp [isNamePart, h])
  exact ⟨by simp [startsNumeral, hdigit, hpoint], head?_bind_double? hdouble, hsingle⟩

theorem longest_mark {m : Punctuation} {after : Text} (hsplit : b :: rest = m.spelling ++ after)
    (h : rest.head?.bind (double? b) = some m ∨ rest.head?.bind (double? b) = none ∧
    single? b = some m) : Longest (.punctuation m) m.spelling after := by
  refine ⟨.mark m, fun other x hx hbegin => ?_⟩
  rw [← hsplit] at hbegin
  have hfound : rest.head?.bind (double? b) ≠ none ∨ single? b ≠ none := by
    rcases h with h | ⟨-, h⟩
    · exact .inl (by rw [h]; exact Option.some_ne_none m)
    · exact .inr (by rw [h]; exact Option.some_ne_none m)
  rcases hx.cases_cons hbegin with ⟨n, rfl, hn⟩ | ⟨-, hname⟩ | ⟨whole, -, hnumeral⟩
  · rcases h with h | ⟨hdouble, hsingle⟩
    · -- Punctuation of two bytes was found, and there is none of three.
      obtain ⟨c, -, hm⟩ := Option.bind_eq_some_iff.1 h
      rw [spelling_of_double? hm]
      rcases spelling_cases n with ⟨_, hspelling, -⟩ | ⟨_, _, hspelling, -⟩
      · rw [hspelling]
        exact Nat.le_succ 1
      · rw [hspelling]
        exact Nat.le_refl 2
    · rw [hsingle, hdouble] at hn
      rcases hn with hn | hn
      · rw [Option.some.inj hn]
      · cases hn
  · obtain ⟨-, hdouble, hsingle⟩ := facts_of_isNameStart_cons hname rest
    exact absurd hfound (by simp [hdouble, hsingle])
  · obtain ⟨-, hdouble, hsingle⟩ := facts_of_startsNumeral hnumeral
    exact absurd hfound (by simp [head?_bind_double? hdouble, hsingle])

theorem spellsWord_takeWhile (hb : isNameStart b = true) :
    SpellsWord ((b :: rest).takeWhile isNamePart) := by
  refine ⟨⟨b, rest.takeWhile isNamePart, ?_, hb⟩, fun _ => mem_takeWhile_imp⟩
  simp [isNamePart, hb]

theorem longest_word (hb : isNameStart b = true) :
    Longest (.ofWord ((b :: rest).takeWhile isNamePart)) ((b :: rest).takeWhile isNamePart)
      ((b :: rest).dropWhile isNamePart) := by
  refine ⟨.word (spellsWord_takeWhile hb), fun other x hx hbegin => ?_⟩
  rw [takeWhile_append_dropWhile] at hbegin
  obtain ⟨hnumeral, hdouble, hsingle⟩ := facts_of_isNameStart_cons hb rest
  rcases hx.cases_cons hbegin with ⟨m, -, h | h⟩ | ⟨hx, -⟩ | ⟨whole, -, h⟩
  · cases hsingle.symm.trans h
  · cases hdouble.symm.trans h
  · obtain ⟨after, hafter⟩ := hbegin
    rw [← hafter, takeWhile_append_of_pos hx.parts, length_append]
    exact Nat.le_add_right _ _
  · cases hnumeral.symm.trans h

theorem longest_numeral (h : startsNumeral (b :: rest) = true) :
    Longest (if (numeralLength (b :: rest)).2 then .integer else .number)
      ((b :: rest).take (numeralLength (b :: rest)).1)
      ((b :: rest).drop (numeralLength (b :: rest)).1) := by
  refine ⟨.numeral (spellsNumeral_take h), fun other x hx hbegin => ?_⟩
  rw [take_append_drop] at hbegin
  obtain ⟨hname, hdouble, hsingle⟩ := facts_of_startsNumeral h
  rcases hx.cases_cons hbegin with ⟨m, -, h | h⟩ | ⟨-, h⟩ | ⟨whole, hx, -⟩
  · cases hsingle.symm.trans h
  · cases (head?_bind_double? hdouble).symm.trans h
  · cases hname.symm.trans h
  · rw [length_take_of_le (numeralLength_le _)]
    exact hx.length_le hbegin

/-- A word or a numeral that takes along all bytes behind it. Such a word is always a name. -/
inductive Overruns (tail : Text) : TokenKind → Text → Text → Prop
  | word {x : Text} (h : SpellsWord x) : Overruns tail .name (x ++ tail) x
  | numeral {x : Text} {whole : Bool} (h : SpellsNumeral x whole) :
    Overruns tail (if whole then .integer else .number) (x ++ tail) x

theorem ofWord_of_zero_mem (h : 0 ∈ x) : TokenKind.ofWord x = .name := by
  unfold TokenKind.ofWord
  split
  next k hk =>
    have hx : x = k.spelling := by
      simpa using find?_some hk
    rw [hx] at h
    exact absurd (k.spellsWord_spelling.parts 0 h) (by decide)
  next => rfl

theorem lexeme_cases {u : Unread} {bytes after : Text} (h : u.rest = bytes ++ after) :
    u.lexeme bytes.length = bytes ∨
      (∃ more, after = 0 :: more) ∧ u.lexeme bytes.length = bytes ++ after := by
  have hdrop : (u.drop bytes.length).rest = after := by
    simp [Unread.drop, h]
  unfold Unread.lexeme
  split
  next hend =>
    rw [Unread.atEnd, hdrop] at hend
    cases after with
    | nil => exact .inl (by rw [h, append_nil])
    | cons c more =>
      obtain rfl : c = 0 := of_decide_eq_true hend
      exact .inr ⟨⟨more, rfl⟩, h⟩
  next => exact .inl (by rw [h, take_left])

theorem classify_spec {u : Unread} (hu : u.rest = b :: rest) :
    ((classify u b rest).kind = .illegal ∧ (classify u b rest).size = 1 ∧ Bare (b :: rest)) ∨
    ∃ kind bytes after, u.rest = bytes ++ after ∧ (classify u b rest).size = bytes.length ∧
      Longest kind bytes after ∧
      ((classify u b rest).kind = kind ∧ (classify u b rest).value = bytes ∨
        (∃ more, after = 0 :: more) ∧
          Overruns after (classify u b rest).kind (classify u b rest).value bytes) := by
  unfold classify
  -- Marks are tried first, the longer ones before the shorter, then numerals, then words.
  split
  next _ _ m hdouble =>
    obtain ⟨c, hc, hm⟩ := Option.bind_eq_some_iff.1 hdouble
    obtain ⟨after, rfl⟩ := head?_eq_some_iff.1 hc
    have hsplit : b :: c :: after = m.spelling ++ after := by rw [spelling_of_double? hm]; rfl
    refine .inr ⟨_, m.spelling, after, hu.trans hsplit, ?_, longest_mark hsplit (.inl hdouble),
      .inl ⟨rfl, rfl⟩⟩
    rw [spelling_of_double? hm]
    rfl
  next m hdouble hsingle =>
    have hsplit : b :: rest = m.spelling ++ rest := by rw [spelling_of_single? b m hsingle]; rfl
    refine .inr ⟨_, m.spelling, rest, hu.trans hsplit, ?_,
      longest_mark hsplit (.inr ⟨hdouble, hsingle⟩), .inl ⟨rfl, rfl⟩⟩
    rw [spelling_of_single? b m hsingle]
    rfl
  next hdouble hsingle =>
    by_cases hnumeral : startsNumeral u.rest = true
    · rw [if_pos hnumeral]
      have hsplit := (take_append_drop (numeralLength u.rest).1 u.rest).symm
      have hlength := length_take_of_le (numeralLength_le u.rest)
      have hlongest := longest_numeral (hu ▸ hnumeral)
      rw [← hu] at hlongest
      refine .inr ⟨_, _, _, hsplit, hlength.symm, hlongest, ?_⟩
      have hcases := lexeme_cases hsplit
      rw [hlength] at hcases
      rcases hcases with hvalue | ⟨hmore, hvalue⟩
      · exact .inl ⟨rfl, hvalue⟩
      · refine .inr ⟨hmore, ?_⟩
        dsimp only
        rw [hvalue]
        exact .numeral (spellsNumeral_take hnumeral)
    · rw [if_neg hnumeral]
      by_cases hname : isNameStart b = true
      · rw [if_pos hname]
        have hsplit := (takeWhile_append_dropWhile (p := isNamePart) (l := u.rest)).symm
        have hlongest := @longest_word rest b hname
        rw [← hu] at hlongest
        refine .inr ⟨_, _, _, hsplit, rfl, hlongest, ?_⟩
        rcases lexeme_cases hsplit with hvalue | ⟨⟨more, hmore⟩, hvalue⟩
        · dsimp only
          rw [hvalue]
          exact .inl ⟨rfl, rfl⟩
        · refine .inr ⟨⟨more, hmore⟩, ?_⟩
          dsimp only
          rw [hvalue, ofWord_of_zero_mem (by simp [hmore]), hu]
          exact .word (spellsWord_takeWhile hname)
      · -- What any kind of token begins with has been tried.
        have hbare : Bare (b :: rest) := by
          intro kind x hx hbegin
          rcases hx.cases_cons hbegin with ⟨m, -, h | h⟩ | ⟨-, h⟩ | ⟨whole, -, h⟩
          · cases hsingle.symm.trans h
          · cases hdouble.symm.trans h
          · exact hname h
          · exact hnumeral (hu ▸ h)
        rw [if_neg hname]
        split
        · exact .inl ⟨rfl, rfl, hbare⟩
        · exact .inl ⟨rfl, rfl, hbare⟩

end Token

end Orchestrion
