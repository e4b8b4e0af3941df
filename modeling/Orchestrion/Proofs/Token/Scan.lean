import Mathlib.Tactic.Common
import Orchestrion.Token.Scan

/-!
# What scanning gives

Where the tokens of a text stand and what sorts of tokens there are. Everything about the tokens of
a text follows from what one step of scanning can do, `Token.next_eq_token` and
`Token.next_eq_done`.
-/

namespace Orchestrion

/-! ### Places -/

theorem Position.isValid_after {p : Position} (b : UInt8) (h : p.isValid = true) :
    (p.after b).isValid = true := by
  unfold Position.after
  split
  · simp [Position.isValid]
  · exact h

theorem Unread.isValid_drop {u : Unread} (n : Nat) (h : u.place.isValid = true) :
    (u.drop n).place.isValid = true := by
  change ((u.rest.take n).foldl Position.after u.place).isValid = true
  generalize u.rest.take n = bytes
  generalize u.place = p at h
  induction bytes generalizing p with
  | nil => exact h
  | cons b bytes ih => exact ih _ (Position.isValid_after b h)

theorem Unread.isValid_endPlace {u : Unread} (h : u.place.isValid = true) :
    u.endPlace.isValid = true := by
  unfold Unread.endPlace
  dsimp only
  split
  · exact h
  · rename_i b _ _
    exact Position.isValid_after b h

namespace Token

variable {u : Unread} {t : Token}

theorem isValid_of_skipBlank_eq_closed {v : Unread} (h : skipBlank u = .closed v)
    (hu : u.place.isValid = true) : v.place.isValid = true := by
  fun_induction skipBlank u with
  | case1 => cases h
  | case2 =>
    cases h
    exact hu
  | case3 u n _ ih => exact ih h (Unread.isValid_drop _ hu)

theorem isValid_of_skipBlank_eq_unclosed {p : Position} (h : skipBlank u = .unclosed p)
    (hu : u.place.isValid = true) : p.isValid = true := by
  fun_induction skipBlank u with
  | case1 =>
    cases h
    exact hu
  | case2 => cases h
  | case3 u n _ ih => exact ih h (Unread.isValid_drop _ hu)

/-! ### Steps -/

theorem next_eq_token {left : Unread} (h : next u = .token t left) :
    (∃ start, skipBlank u = .unclosed start ∧ t = ⟨.illegal, "unterminated comment", start⟩ ∧
      left = u.drop (u.rest.takeWhile (· ≠ 0)).length) ∨
    ∃ v b rest, skipBlank u = .closed v ∧ v.rest = b :: rest ∧ b ≠ 0 ∧
      t = ⟨(classify v b rest).kind, (classify v b rest).value, v.place⟩ ∧
      left = v.drop (classify v b rest).size := by
  unfold next at h
  split at h
  next start hskip =>
    cases h
    exact .inl ⟨start, hskip, rfl, rfl⟩
  next v hskip =>
    split at h
    next => cases h
    next b rest hv =>
      split at h
      next => cases h
      next hb =>
        cases h
        exact .inr ⟨v, b, rest, hskip, hv, hb, rfl, rfl⟩

theorem next_eq_done {p : Position} (h : next u = .done p) :
    ∃ v, skipBlank u = .closed v ∧ p = v.endPlace := by
  unfold next at h
  split at h
  next => cases h
  next v hskip =>
    refine ⟨v, hskip, ?_⟩
    split at h
    next =>
      cases h
      rfl
    next =>
      split at h
      next =>
        cases h
        rfl
      next => cases h

theorem classify_cases (u : Unread) (b : UInt8) (rest : Text) :
    (∃ m n, classify u b rest = ⟨.punctuation m, m.spelling, n⟩) ∨
    (startsNumeral u.rest = true ∧ classify u b rest =
      ⟨if (numeralLength u.rest).2 then .integer else .number,
        u.lexeme (numeralLength u.rest).1, (numeralLength u.rest).1⟩) ∨
    (Text.isNameStart b = true ∧ classify u b rest =
      ⟨.ofWord (u.lexeme (u.rest.takeWhile Text.isNamePart).length),
        u.lexeme (u.rest.takeWhile Text.isNamePart).length,
        (u.rest.takeWhile Text.isNamePart).length⟩) ∨
    ∃ complaint, classify u b rest = ⟨.illegal, complaint, 1⟩ := by
  unfold classify
  split
  next => exact .inl ⟨_, 2, rfl⟩
  next => exact .inl ⟨_, 1, rfl⟩
  next =>
    by_cases hnumeral : startsNumeral u.rest = true
    · rw [if_pos hnumeral]
      exact .inr (.inl ⟨hnumeral, rfl⟩)
    by_cases hname : Text.isNameStart b = true
    · rw [if_neg hnumeral, if_pos hname]
      exact .inr (.inr (.inl ⟨hname, rfl⟩))
    · rw [if_neg hnumeral, if_neg hname]
      split
      · exact .inr (.inr (.inr ⟨_, rfl⟩))
      · exact .inr (.inr (.inr ⟨_, rfl⟩))

theorem kind_classify_ne_endOfText (u : Unread) (b : UInt8) (rest : Text) :
    (classify u b rest).kind ≠ .endOfText := by
  rcases classify_cases u b rest with ⟨m, n, h⟩ | ⟨-, h⟩ | ⟨-, h⟩ | ⟨complaint, h⟩
  · rw [h]
    nofun
  · rw [h]
    split <;> nofun
  · rw [h]
    dsimp only [TokenKind.ofWord]
    split <;> nofun
  · rw [h]
    nofun

theorem isValid_of_next_eq_token {left : Unread} (h : next u = .token t left)
    (hu : u.place.isValid = true) :
    t.start.isValid = true ∧ t.kind ≠ .endOfText ∧ left.place.isValid = true := by
  rcases next_eq_token h with ⟨start, hskip, rfl, rfl⟩ | ⟨v, b, rest, hskip, -, -, rfl, rfl⟩
  · exact ⟨isValid_of_skipBlank_eq_unclosed hskip hu, nofun, Unread.isValid_drop _ hu⟩
  · have hv := isValid_of_skipBlank_eq_closed hskip hu
    exact ⟨hv, kind_classify_ne_endOfText v b rest, Unread.isValid_drop _ hv⟩

/-! ### Whole texts -/

theorem isValid_scanFrom (hu : u.place.isValid = true) :
    (∀ t ∈ (scanFrom u).tokens, t.start.isValid = true ∧ t.kind ≠ .endOfText) ∧
      (scanFrom u).finish.isValid = true := by
  fun_induction scanFrom u with
  | case1 u place hnext =>
    obtain ⟨v, hskip, rfl⟩ := next_eq_done hnext
    exact ⟨nofun, Unread.isValid_endPlace (isValid_of_skipBlank_eq_closed hskip hu)⟩
  | case2 u t left hnext ih =>
    obtain ⟨hstart, hkind, hleft⟩ := isValid_of_next_eq_token hnext hu
    obtain ⟨htokens, hfinish⟩ := ih hleft
    refine ⟨fun t' ht' => ?_, hfinish⟩
    rcases List.mem_cons.1 ht' with rfl | ht'
    · exact ⟨hstart, hkind⟩
    · exact htokens t' ht'

theorem isValid_of_mem_scan {source : Text} (h : t ∈ (scan source).tokens) :
    t.start.isValid = true :=
  ((isValid_scanFrom rfl).1 t h).1

theorem kind_ne_endOfText_of_mem_scan {source : Text} (h : t ∈ (scan source).tokens) :
    t.kind ≠ .endOfText :=
  ((isValid_scanFrom rfl).1 t h).2

theorem isValid_finish_scan (source : Text) : (scan source).finish.isValid = true :=
  (isValid_scanFrom rfl).2

end Token

end Orchestrion
