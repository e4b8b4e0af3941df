import Mathlib.Data.List.Forall2
import Orchestrion.Proofs.Outcome
import Orchestrion.Proofs.Token.Longest
import Orchestrion.Score.Command

/-!
# The grammar of score lines

Which texts are pieces of a score line, how the ordered rules cut a line into them, and which pieces
are the words of a command, all said without scanning. A line that is not blank holds a command if
and only if its words are those of one.
-/

namespace Orchestrion

open Text Token List

/-! ### Pieces -/

/-- A sign, or nothing. -/
def IsSign (x : Text) : Prop := x = [] ∨ ∃ s, x = [s] ∧ (isSymbol '-' s || isSymbol '+' s) = true

namespace PieceKind

/-- The texts that a rule applies to. -/
inductive Spells : PieceKind → Text → Prop
  /-- A comment stays in its line. -/
  | comment {x : Text} (hmark : ("#" : Text) <+: x ∨ ("//" : Text) <+: x)
    (hline : ∀ b ∈ x, b ≠ 10) : Spells comment x
  | number {sign x : Text} {whole : Bool} (hsign : IsSign sign) (hx : SpellsNumeral x whole) :
    Spells number (sign ++ x)
  | name {x : Text} (hx : SpellsWord x) : Spells name x
  | blank {x : Text} (hne : x ≠ []) (hx : ∀ b ∈ x, isLineBlank b = true) : Spells blank x

/-- The rules that are tried before. -/
def before : PieceKind → List PieceKind
  | comment => []
  | number => [comment]
  | name => [comment, number]
  | blank => [comment, number, name]

/-- The piece is cut off: no rule that is tried before applies, and this one takes all it can. -/
structure Takes (kind : PieceKind) (piece rest : Text) : Prop where
  spells : kind.Spells piece
  longest : ∀ x, kind.Spells x → x <+: piece ++ rest → x.length ≤ piece.length
  first : ∀ other ∈ kind.before, ∀ x, other.Spells x → ¬x <+: piece ++ rest

variable {kind : PieceKind} {t x piece rest : Text}

theorem length_le_takeWhile {p : UInt8 → Bool} (hx : ∀ b ∈ x, p b = true) (h : x <+: t) :
    x.length ≤ (t.takeWhile p).length := by
  obtain ⟨rest, rfl⟩ := h
  rw [takeWhile_append_of_pos hx, length_append]
  exact Nat.le_add_right ..

theorem take_takeWhile (p : UInt8 → Bool) (t : Text) :
    t.take (t.takeWhile p).length = t.takeWhile p :=
  (prefix_iff_eq_take.1 (List.takeWhile_prefix p)).symm

theorem not_sign_of_startsNumeral {b : UInt8} (h : startsNumeral (b :: rest) = true) :
    (isSymbol '-' b || isSymbol '+' b) = false := by
  have hb : (isDigit b || isSymbol '.' b) = true := by
    simp only [startsNumeral, Bool.or_eq_true, Bool.and_eq_true] at h ⊢
    exact h.imp id And.left
  rw [Bool.or_comm]
  exact ((classified b).numeral hb).2

theorem signedLength_of_sign {s : UInt8} (hs : (isSymbol '-' s || isSymbol '+' s) = true)
    (t : Text) :
    signedLength (s :: t) = if startsNumeral t then 1 + (numeralLength t).1 else 0 := by
  simp only [signedLength, hs, ↓reduceIte, drop_succ_cons, drop_zero]

theorem signedLength_of_not_sign {s : UInt8} (hs : (isSymbol '-' s || isSymbol '+' s) = false)
    (t : Text) : signedLength (s :: t) =
      if startsNumeral (s :: t) then (numeralLength (s :: t)).1 else 0 := by
  simp only [signedLength, hs, Bool.false_eq_true, ↓reduceIte, drop_zero, Nat.zero_add]

theorem Spells.length_le (h : kind.Spells x) (hx : x <+: t) :
    0 < x.length ∧ x.length ≤ kind.lengthIn t := by
  cases h with
  | comment hmark hline =>
    have hstart : (t.startsWith "#" || t.startsWith "//") = true := by
      rw [Bool.or_eq_true, startsWith, startsWith, List.isPrefixOf_iff_prefix,
        List.isPrefixOf_iff_prefix]
      exact hmark.imp (·.trans hx) (·.trans hx)
    refine ⟨hmark.elim (fun h => Nat.lt_of_lt_of_le (by decide) h.length_le)
      fun h => Nat.lt_of_lt_of_le (by decide) h.length_le, ?_⟩
    rw [lengthIn, commentLength, if_pos hstart]
    exact length_le_takeWhile (fun b hb => decide_eq_true (hline b hb)) hx
  | @number sign x _ hsign hnumeral =>
    obtain ⟨rest, rfl⟩ := hx
    have hprefix : x <+: x ++ rest := prefix_append x rest
    have hstarts := hnumeral.startsNumeral hprefix
    have hle := hnumeral.length_le hprefix
    obtain ⟨b, xs, rfl, -⟩ := hnumeral.isNumeral.exists_cons
    rcases hsign with rfl | ⟨s, rfl, hs⟩
    · refine ⟨Nat.succ_pos _, ?_⟩
      rw [nil_append, lengthIn, cons_append,
        signedLength_of_not_sign (not_sign_of_startsNumeral hstarts), ← cons_append,
        if_pos hstarts]
      exact hle
    · refine ⟨Nat.succ_pos _, ?_⟩
      change _ ≤ signedLength (s :: (b :: xs ++ rest))
      rw [signedLength_of_sign hs, if_pos hstarts, length_append]
      exact Nat.add_le_add_left hle 1
  | name hword =>
    obtain ⟨b, xs, rfl, hb⟩ := hword.start
    refine ⟨Nat.succ_pos _, ?_⟩
    have hle := length_le_takeWhile hword.parts hx
    obtain ⟨rest, rfl⟩ := hx
    rwa [lengthIn, cons_append, nameLength, if_pos hb]
  | blank hne hblank => exact ⟨length_pos_iff.2 hne, length_le_takeWhile hblank hx⟩

theorem spells_take (h : kind.lengthIn t ≠ 0) :
    kind.Spells (t.take (kind.lengthIn t)) ∧ kind.lengthIn t ≤ t.length := by
  have hle (p : UInt8 → Bool) : (t.takeWhile p).length ≤ t.length :=
    (List.takeWhile_prefix p).length_le
  cases kind with
  | comment =>
    rw [lengthIn, commentLength] at h ⊢
    split at h
    next hstart =>
      rw [if_pos hstart, take_takeWhile]
      refine ⟨.comment ?_ fun b hb => by simpa using mem_takeWhile_imp hb, hle _⟩
      rw [Bool.or_eq_true, startsWith, startsWith, List.isPrefixOf_iff_prefix,
        List.isPrefixOf_iff_prefix] at hstart
      rcases hstart with ⟨rest, rfl⟩ | ⟨rest, rfl⟩
      · exact .inl ⟨rest.takeWhile (· ≠ 10), rfl⟩
      · exact .inr ⟨rest.takeWhile (· ≠ 10), rfl⟩
    next => exact absurd rfl h
  | number =>
    cases t with
    | nil => exact absurd rfl h
    | cons s t =>
      rw [lengthIn] at h ⊢
      by_cases hs : (isSymbol '-' s || isSymbol '+' s) = true
      · rw [signedLength_of_sign hs, Nat.add_comm] at h ⊢
        split at h
        next hstarts =>
          rw [if_pos hstarts, take_succ_cons]
          exact ⟨.number (.inr ⟨s, rfl, hs⟩) (spellsNumeral_take hstarts),
            Nat.succ_le_succ (numeralLength_le t)⟩
        next => exact absurd rfl h
      · rw [signedLength_of_not_sign (Bool.not_eq_true _ ▸ hs)] at h ⊢
        split at h
        next hstarts =>
          rw [if_pos hstarts]
          exact ⟨.number (.inl rfl) (spellsNumeral_take hstarts), numeralLength_le _⟩
        next => exact absurd rfl h
  | name =>
    cases t with
    | nil => exact absurd rfl h
    | cons b t =>
      rw [lengthIn, nameLength] at h ⊢
      split at h
      next hb =>
        rw [if_pos hb, take_takeWhile]
        exact ⟨.name (spellsWord_takeWhile hb), hle _⟩
      next => exact absurd rfl h
  | blank =>
    rw [lengthIn] at h ⊢
    rw [take_takeWhile]
    exact ⟨.blank (fun hnil => h (by rw [hnil]; rfl)) fun b hb => mem_takeWhile_imp hb, hle _⟩

theorem lengthIn_eq_zero_iff : kind.lengthIn t = 0 ↔ ∀ x, kind.Spells x → ¬x <+: t := by
  refine ⟨fun h x hx hprefix => ?_, fun h => ?_⟩
  · have hle := hx.length_le hprefix
    omega
  · by_contra hne
    exact h _ (spells_take hne).1 (List.take_prefix _ t)

theorem first?_eq_some_iff :
    first? t = some kind ↔ kind.lengthIn t ≠ 0 ∧ ∀ other ∈ kind.before, other.lengthIn t = 0 := by
  cases kind <;> simp only [first?, before, find?_cons] <;> grind

theorem exists_takes (h : first? t = some kind) :
    ∃ piece rest, t = piece ++ rest ∧ kind.Takes piece rest := by
  obtain ⟨hne, hbefore⟩ := first?_eq_some_iff.1 h
  obtain ⟨hspells, hle⟩ := spells_take hne
  refine ⟨_, t.drop (kind.lengthIn t), (take_append_drop ..).symm, hspells, ?_, ?_⟩
  · intro x hx hprefix
    rw [take_append_drop] at hprefix
    rw [length_take_of_le hle]
    exact (hx.length_le hprefix).2
  · intro other hother x hx
    rw [take_append_drop]
    exact lengthIn_eq_zero_iff.1 (hbefore other hother) x hx

theorem Takes.first? (h : kind.Takes piece rest) :
    first? (piece ++ rest) = some kind ∧ kind.lengthIn (piece ++ rest) = piece.length := by
  obtain ⟨hpos, hle⟩ := h.spells.length_le (prefix_append piece rest)
  have hne : kind.lengthIn (piece ++ rest) ≠ 0 := by omega
  refine ⟨first?_eq_some_iff.2 ⟨hne, fun other hother => ?_⟩, Nat.le_antisymm ?_ hle⟩
  · exact lengthIn_eq_zero_iff.2 (h.first other hother)
  · obtain ⟨hspells, hlength⟩ := spells_take hne
    rw [← length_take_of_le hlength]
    exact h.longest _ hspells (List.take_prefix _ _)

end PieceKind

/-! ### Lines -/

namespace ScoreWord

/-- The words that a line is cut into, its first piece being at the place. Comments and blanks are
dropped. -/
inductive Cuts : ScorePlace → Text → List ScoreWord → Prop
  | nil {place : ScorePlace} : Cuts place [] []
  | cons {place : ScorePlace} {kind : PieceKind} {piece rest : Text} {words : List ScoreWord}
    (h : kind.Takes piece rest) (hrest : Cuts (place.after piece) rest words) :
    Cuts place (piece ++ rest)
      (if kind.isDropped then words else ⟨kind = .number, piece, place⟩ :: words)

theorem scanFrom_of_takes {kind : PieceKind} {piece rest : Text} (place : ScorePlace)
    (h : kind.Takes piece rest) : scanFrom place (piece ++ rest) =
      (scanFrom (place.after piece) rest).map fun scanned => { scanned with words :=
        if kind.isDropped then scanned.words
        else ⟨kind = .number, piece, place⟩ :: scanned.words } := by
  obtain ⟨hfirst, hlength⟩ := h.first?
  obtain ⟨b, xs, rfl⟩ := exists_cons_of_length_pos (h.spells.length_le (prefix_refl _)).1
  rw [cons_append] at hfirst hlength ⊢
  rw [scanFrom, hfirst]
  simp only [hlength, length_cons, Nat.add_sub_cancel, take_left, drop_left]
  cases scanFrom (place.after (b :: xs)) rest with
  | error e => rfl
  | ok scanned => cases kind <;> rfl

theorem Cuts.scanFrom {place : ScorePlace} {line : Text} {words : List ScoreWord}
    (h : Cuts place line words) : ∃ finish, scanFrom place line = .ok ⟨words, finish⟩ := by
  induction h with
  | @nil place => exact ⟨place, by rw [ScoreWord.scanFrom]⟩
  | @cons place _ _ _ _ h _ ih =>
    obtain ⟨finish, hscanned⟩ := ih
    exact ⟨finish, by rw [scanFrom_of_takes place h, hscanned]; rfl⟩

theorem cuts_of_scanFrom {place : ScorePlace} {line : Text} {scanned : ScoreWords}
    (h : scanFrom place line = .ok scanned) : Cuts place line scanned.words := by
  induction hn : line.length using Nat.strong_induction_on generalizing place line scanned with
  | _ n ih =>
    subst hn
    cases hfirst : PieceKind.first? line with
    | none =>
      cases line with
      | nil =>
        rw [scanFrom] at h
        cases h
        exact .nil
      | cons b rest =>
        rw [scanFrom, hfirst] at h
        cases h
    | some kind =>
      obtain ⟨x, rest, rfl, htakes⟩ := PieceKind.exists_takes hfirst
      rw [scanFrom_of_takes place htakes] at h
      cases hrest : scanFrom (place.after x) rest with
      | error e =>
        rw [hrest] at h
        cases h
      | ok scanned =>
        rw [hrest] at h
        cases h
        have hpos := (htakes.spells.length_le (prefix_refl _)).1
        exact .cons htakes (ih rest.length (by rw [length_append]; omega) hrest rfl)

end ScoreWord

/-! ### Commands -/

open Number.Decimal

/-- The text is a numeral, and the value is the double that the numeral is converted to. -/
def NumeralReads (x : Text) (v : Float) : Prop := ∃ d, read? x = some d ∧ d.value? = some v

/-- The words are those of the command. -/
inductive Command.Written : List ScoreWord → Command → Prop
  | finish {w v : ScoreWord} {time : Float} (hw : w.isNumber = true)
    (htime : NumeralReads w.text time)
    (hv : v.isNumber = false) (hend : v.text = ("end" : Text)) :
    Written [w, v] ⟨w.place, time, .finish⟩
  | play {w v d : ScoreWord} {rest : List ScoreWord} {time duration : Float} {params : List Float}
    (hw : w.isNumber = true) (htime : NumeralReads w.text time) (hv : v.isNumber = false)
    (hname : v.text ≠ ("end" : Text)) (hd : d.isNumber = true)
    (hduration : NumeralReads d.text duration)
    (hrest : ∀ p ∈ rest, p.isNumber = true)
    (hparams : List.Forall₂ NumeralReads (rest.map ScoreWord.text) params) :
    Written (w :: v :: d :: rest) ⟨w.place, time, .play v.text duration params⟩

namespace Number.Decimal

theorem exists_natural? {t : Text} (hne : t ≠ []) (ht : ∀ b ∈ t, isDigit b = true) :
    ∃ n, natural? t = some n :=
  ⟨_, if_pos ⟨hne, all_eq_true.2 ht⟩⟩

theorem exists_exponent? {sign digits : Text} (hsign : sign = [] ∨ ∃ s, sign = [s] ∧
      (isSymbol '+' s || isSymbol '-' s) = true) (hne : digits ≠ [])
    (hdigits : ∀ b ∈ digits, isDigit b = true) : ∃ e, exponent? (sign ++ digits) = some e := by
  obtain ⟨n, hn⟩ := exists_natural? hne hdigits
  rcases hsign with rfl | ⟨s, rfl, hs⟩
  · obtain ⟨d, ds, rfl⟩ := exists_cons_of_ne_nil hne
    have hd := ((classified d).numeral (by rw [hdigits d mem_cons_self]; rfl)).2
    rw [Bool.or_eq_false_iff] at hd
    exact ⟨n, by simp [exponent?, hd, hn]⟩
  · simp only [singleton_append, exponent?, hn, Option.map_some]
    split
    · exact ⟨_, rfl⟩
    · exact ⟨_, if_pos (by simp_all)⟩

theorem dropWhile_append_of_unled {p : UInt8 → Bool} {x rest : Text} (hx : ∀ b ∈ x, p b = true)
    (hrest : Unled p rest) : (x ++ rest).dropWhile p = rest := by
  have hsplit := takeWhile_append_dropWhile (p := p) (l := x ++ rest)
  rw [takeWhile_append_of_unled hx hrest] at hsplit
  exact append_cancel_left hsplit

theorem isSome_unsigned? {x : Text} {whole : Bool} (h : SpellsNumeral x whole) :
    (unsigned? x).isSome = true := by
  obtain ⟨digits, fraction, exponent, rfl, hdigits, hfraction, hexponent, hnone, -⟩ := h
  have hexponent' : Unled isDigit exponent := by
    rcases hexponent with rfl | h
    · rintro _ _ ⟨⟩
    · simpa using h.unled (fun b hb => ((classified b).exponentMark hb).1) []
  have hfraction' : Unled isDigit (fraction ++ exponent) := by
    rcases hfraction with rfl | ⟨point, more, rfl, hpoint, -⟩
    · exact hexponent'
    · rintro _ _ ⟨⟩
      exact (classified point).point hpoint
  simp only [unsigned?, takeWhile_append_of_unled hdigits hfraction',
    dropWhile_append_of_unled hdigits hfraction']
  rcases hfraction with rfl | ⟨point, more, rfl, hpoint, hmore⟩
  · have hne : digits ≠ [] := fun h => absurd (hnone h) (by simp)
    rcases hexponent with rfl | ⟨mark, sign, ds, rfl, hmark, hsign, hds, hall⟩
    · simp [hne]
    · obtain ⟨e, he⟩ := exists_exponent? hsign hds hall
      simp [hne, hmark, ((classified mark).exponentMark hmark).2, he]
  · have hne : digits ++ more ≠ [] := by
      intro h
      obtain ⟨rfl, rfl⟩ := append_eq_nil_iff.1 h
      exact absurd (hnone rfl) (by simp)
    simp only [cons_append, hpoint, ↓reduceIte, takeWhile_append_of_unled hmore hexponent',
      dropWhile_append_of_unled hmore hexponent', hne]
    rcases hexponent with rfl | ⟨mark, sign, ds, rfl, hmark, hsign, hds, hall⟩
    · rfl
    · obtain ⟨e, he⟩ := exists_exponent? hsign hds hall
      simp [hmark, he]

end Number.Decimal

theorem PieceKind.Spells.isSome_read? {x : Text} (h : Spells .number x) :
    (read? x).isSome = true := by
  cases h with
  | @number sign x _ hsign hx =>
    have hsome := Number.Decimal.isSome_unsigned? hx
    rcases hsign with rfl | ⟨s, rfl, hs⟩
    · obtain ⟨b, xs, rfl, -⟩ := hx.isNumeral.exists_cons
      have hb := not_sign_of_startsNumeral (hx.startsNumeral (prefix_refl _))
      rw [Bool.or_eq_false_iff] at hb
      simpa [read?, hb] using hsome
    · rw [singleton_append, read?]
      split
      · rwa [Option.isSome_map]
      · rwa [if_pos (by simp_all)]

namespace Command

theorem value_eq_ok_iff {n : CommandNumber} {x : Text} {v : Float} :
    value n x = .ok v ↔ NumeralReads x v := by
  rw [value, NumeralReads, ← Option.bind_eq_some_iff]
  cases (read? x).bind Number.Decimal.value? <;> simp

theorem expectNothing_eq_ok_iff {scanned : ScoreWords} {words : List ScoreWord} :
    expectNothing scanned words = .ok () ↔ words = [] := by
  cases words <;> simp [expectNothing]

theorem mapM_value_eq_ok_iff {n : CommandNumber} {words : List ScoreWord} {vs : List Float} :
    words.mapM (fun w => value n w.text) = .ok vs ↔
      List.Forall₂ NumeralReads (words.map ScoreWord.text) vs := by
  rw [mapM_eq_ok_iff, forall₂_map_left_iff]
  simp only [value_eq_ok_iff]

theorem Written.ofWords {scanned : ScoreWords} {c : Command} (h : Written scanned.words c) :
    ofWords scanned = .ok c := by
  obtain ⟨words, stop⟩ := scanned
  cases h with
  | finish hw htime hv hend =>
    simp only [Command.ofWords, kindOf.eq_def, hw, hv, hend, Bool.false_eq_true, ↓reduceIte]
    exact (bind_of_eq_ok (value_eq_ok_iff.2 htime) _).trans rfl
  | play hw htime hv hname hd hduration hrest hparams =>
    simp only [Command.ofWords, kindOf.eq_def, hw, hv, hname, hd, Bool.false_eq_true, ↓reduceIte,
      takeWhile_eq_self_iff.2 hrest, dropWhile_eq_nil_iff.2 hrest]
    rw [bind_of_eq_ok (value_eq_ok_iff.2 htime), bind_of_eq_ok (value_eq_ok_iff.2 hduration),
      bind_of_eq_ok (mapM_value_eq_ok_iff.2 hparams)]
    rfl

theorem written_of_ofWords {scanned : ScoreWords} {c : Command} (h : ofWords scanned = .ok c) :
    Written scanned.words c := by
  obtain ⟨_ | ⟨w, _ | ⟨v, rest⟩⟩, stop⟩ := scanned
  · cases h
  · dsimp only [ofWords] at h
    split at h <;> cases h
  dsimp only [ofWords] at h
  split at h
  next hw =>
    rw [kindOf.eq_def] at h
    dsimp only at h
    split at h
    · cases h
    next hv =>
      have hv : v.isNumber = false := by simpa using hv
      split at h
      next hend =>
        obtain ⟨seconds, hseconds, h⟩ := exists_of_bind_eq_ok h
        obtain ⟨⟨⟩, hnothing, h⟩ := exists_of_bind_eq_ok h
        cases h
        rw [expectNothing_eq_ok_iff.1 hnothing]
        exact .finish hw (value_eq_ok_iff.1 hseconds) hv hend
      next hname =>
        cases rest with
        | nil => cases h
        | cons d rest =>
          dsimp only at h
          split at h
          next hd =>
            obtain ⟨seconds, hseconds, h⟩ := exists_of_bind_eq_ok h
            obtain ⟨duration, hduration, h⟩ := exists_of_bind_eq_ok h
            obtain ⟨params, hparams, h⟩ := exists_of_bind_eq_ok h
            obtain ⟨⟨⟩, hnothing, h⟩ := exists_of_bind_eq_ok h
            cases h
            -- Nothing is left behind the numbers, and so all words are numbers.
            have hrest := dropWhile_eq_nil_iff.1 (expectNothing_eq_ok_iff.1 hnothing)
            rw [takeWhile_eq_self_iff.2 hrest] at hparams
            exact .play hw (value_eq_ok_iff.1 hseconds) hv hname hd (value_eq_ok_iff.1 hduration)
              hrest (mapM_value_eq_ok_iff.1 hparams)
          next => cases h
  next => cases h

/-- The first text of the line that is not white space, if there is any, is a mark of comments. -/
def Blank (line : Text) : Prop :=
  ∃ white rest, line.glyphs = white ++ rest ∧ (∀ g ∈ white, g.isWhiteSpace = true) ∧
    (∀ g ∈ rest.head?, g.isWhiteSpace = false) ∧ (rest = [] ∨
      ("#" : Text) <+: rest.flatMap Glyph.bytes ∨ ("//" : Text) <+: rest.flatMap Glyph.bytes)

theorem isBlankLine_iff {line : Text} : isBlankLine line = true ↔ Blank line := by
  have hempty (gs : List Glyph) : gs.flatMap Glyph.bytes = [] ↔ gs = [] := by
    rw [flatMap_eq_nil_iff, eq_nil_iff_forall_not_mem]
    refine forall₂_congr fun g _ => iff_of_false ?_ id
    cases g with
    | char c => simp [Glyph.bytes, ofChar]
    | stray b => simp [Glyph.bytes]
  have hmarked (rest : List Glyph) : (rest = [] ∨ ("#" : Text) <+: rest.flatMap Glyph.bytes ∨
      ("//" : Text) <+: rest.flatMap Glyph.bytes) ↔
      ((rest.flatMap Glyph.bytes).isEmpty || startsWith (rest.flatMap Glyph.bytes) "#" ||
        startsWith (rest.flatMap Glyph.bytes) "//") = true := by
    rw [Bool.or_eq_true, Bool.or_eq_true, List.isEmpty_iff, hempty, startsWith, startsWith,
      List.isPrefixOf_iff_prefix, List.isPrefixOf_iff_prefix, or_assoc]
  rw [isBlankLine, trimStart]
  constructor
  · intro h
    refine ⟨line.glyphs.takeWhile Glyph.isWhiteSpace, _, takeWhile_append_dropWhile.symm,
      fun _ => mem_takeWhile_imp, fun g hg => ?_, (hmarked _).2 h⟩
    have hhead := head?_dropWhile_not Glyph.isWhiteSpace line.glyphs
    rw [hg] at hhead
    simpa using hhead
  · rintro ⟨white, rest, hline, hwhite, hrest, hmark⟩
    have hdrop : line.glyphs.dropWhile Glyph.isWhiteSpace = rest := by
      rw [hline, dropWhile_append_of_pos hwhite]
      cases rest with
      | nil => rfl
      | cons g rest => rw [dropWhile_cons_of_neg (by simp [hrest g rfl])]
    rw [hdrop]
    exact (hmarked rest).1 hmark

/-- What a line of a score with the given number means. -/
structure Grammatical (file : Text) (number : Int) (line : Text) : Prop where
  /-- A blank line means nothing, and no other line does. -/
  blank : parse file number line = .ok none ↔ Blank line
  /-- Any other line holds a command if it is cut into the words of one. -/
  command : ∀ c, parse file number line = .ok (some c) ↔
    ¬Blank line ∧ ∃ words, ScoreWord.Cuts {} line words ∧ Written words c
  /-- All that is wrong with numbers is their range. -/
  numeral : ∀ x, PieceKind.Spells .number x → (read? x).isSome = true
  fault : ∀ e, parse file number line = .error e → e.file = file ∧ e.line = number

/-- The lines of scores are read by their grammar. -/
theorem parse_in_grammar (file : Text) (number : Int) (line : Text) :
    Grammatical file number line := by
  by_cases hblank : isBlankLine line = true
  · have hparse : parse file number line = .ok none := if_pos hblank
    have h := isBlankLine_iff.1 hblank
    refine ⟨iff_of_true hparse h, fun c => ?_, fun x hx => hx.isSome_read?, fun e he => ?_⟩
    · simp [hparse, h]
    · cases hparse.symm.trans he
  · have h : ¬Blank line := fun h => hblank (isBlankLine_iff.2 h)
    have hcommand (c : Command) : parse file number line = .ok (some c) ↔
        ∃ words, ScoreWord.Cuts {} line words ∧ Written words c := by
      rw [parse, if_neg hblank]
      constructor
      · cases hscan : ScoreWord.scan line with
        | error g => simp
        | ok scanned =>
          cases hof : ofWords scanned with
          | error fault => simp [hof]
          | ok c' =>
            intro hc
            obtain rfl : c' = c := by simpa [hof] using hc
            exact ⟨_, ScoreWord.cuts_of_scanFrom hscan, written_of_ofWords hof⟩
      · rintro ⟨words, hcuts, hwritten⟩
        obtain ⟨finish, hscan⟩ := hcuts.scanFrom
        have hof : ofWords ⟨words, finish⟩ = .ok c := hwritten.ofWords
        simp only [ScoreWord.scan, hscan, hof]
    have hcases : (∃ c, parse file number line = .ok (some c)) ∨
        ∃ fault, parse file number line = .error ⟨file, number, fault⟩ := by
      rw [parse, if_neg hblank]
      dsimp only
      split
      · exact .inl ⟨_, rfl⟩
      · exact .inr ⟨_, rfl⟩
    refine ⟨iff_of_false (fun hnone => ?_) h, fun c => ?_, fun x hx => hx.isSome_read?,
      fun e he => ?_⟩
    · rcases hcases with ⟨c, hc⟩ | ⟨fault, hfault⟩
      · cases hc.symm.trans hnone
      · cases hfault.symm.trans hnone
    · rw [hcommand, and_iff_right h]
    · rcases hcases with ⟨c, hc⟩ | ⟨fault, hfault⟩
      · cases hc.symm.trans he
      · cases hfault.symm.trans he
        exact ⟨rfl, rfl⟩

end Command

end Orchestrion
