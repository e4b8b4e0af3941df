import Orchestrion.Proofs.Token.Cut
import Orchestrion.Proofs.Token.Rescan

/-!
# Scanning loses nothing

A text without zero bytes is made up of its tokens and the gaps between them. Scanning again and
again gives these tokens and then the end for ever, and every token knows its place and its bytes.

Main result:

* `Token.scan_lossless`: what is scanned of a whole text.
-/

namespace Orchestrion

namespace Token

open Text

/-- What the scan number `n` gives, counted from zero. At the end nothing is taken any more. -/
def scanNumber : Nat → Unread → Token
  | 0, u =>
    match next u with
    | .token t _ => t
    | .done place => .endOfText place
  | n + 1, u =>
    match next u with
    | .token _ left => scanNumber n left
    | .done _ => scanNumber n u

theorem scanNumber_eq (n : Nat) (u : Unread) :
    scanNumber n u = ((scanFrom u).tokens[n]?).getD (.endOfText (scanFrom u).finish) := by
  induction n generalizing u with
  | zero =>
    rw [scanNumber]
    split
    next t left hnext => rw [scanFrom_of_next_eq_token hnext]; rfl
    next place hnext => rw [scanFrom_of_next_eq_done hnext]; rfl
  | succ n ih =>
    rw [scanNumber]
    split
    next t left hnext =>
      rw [ih, scanFrom_of_next_eq_token hnext]
      rfl
    next place hnext =>
      rw [ih, scanFrom_of_next_eq_done hnext]
      rfl

theorem length_tokens_scanFrom_le (u : Unread) : (scanFrom u).tokens.length ≤ u.rest.length := by
  fun_induction scanFrom u with
  | case1 => exact Nat.zero_le _
  | case2 u t left hnext ih =>
    have hlt := length_next_lt hnext
    exact Nat.lt_of_le_of_lt ih hlt

theorem Stands.value_eq {t : Token} {bytes rest : Text} (h : Stands t bytes rest)
    (hkind : t.kind ≠ .illegal) : t.value = bytes := by
  cases h with
  | token _ _ hvalue => exact hvalue
  | byte h => exact absurd h hkind
  | comment h => exact absurd h hkind

/-- A text without zero bytes is cut by its tokens, from its first place to the place behind it.
Scanning again and again gives at most as many tokens as there are bytes, and then the end for ever.
Every token stands at the place behind what is in front of it, and its value is found there unless
it is illegal. -/
theorem scan_lossless (source : Text) (h : 0 ∉ source) :
    (scan source).tokens.length ≤ source.length ∧
    (∀ t ∈ (scan source).tokens, t.kind ≠ .endOfText) ∧
    (∀ n, scanNumber n (.all source) =
      ((scan source).tokens[n]?).getD (.endOfText (.behind source))) ∧
    Cut Stands [] source (scan source).tokens ∧
    ∀ t ∈ (scan source).tokens, t.start = .behind (source.take t.start.offset) ∧
      (t.kind ≠ .illegal → (source.drop t.start.offset).take t.value.length = t.value) := by
  have hrest : (Unread.all source).rest = source ++ [] := (List.append_nil source).symm
  have hplace : (Unread.all source).place = .behind [] := rfl
  obtain ⟨hcut, hfinish⟩ := cut_scanFrom hrest h ends_nil hplace
  have hstands : Cut Stands [] source (scan source).tokens := by
    refine hcut.imp fun tok _ bytes rest hstands => ?_
    cases hstands with
    | stands h => exact h
    | overrun h => exact absurd rfl h
  refine ⟨length_tokens_scanFrom_le (.all source), fun t => kind_ne_endOfText_of_mem_scan, ?_,
    hstands, ?_⟩
  · intro n
    rw [scanNumber_eq, hfinish]
    rfl
  · intro t ht
    obtain ⟨front, bytes, rest, hsplit, hstart, hbytes⟩ := hstands.exists_of_mem ht
    have hoffset : t.start.offset = front.length := by rw [hstart]; rfl
    rw [List.nil_append] at hsplit
    rw [hoffset, hsplit, List.take_left, List.drop_left]
    refine ⟨hstart, fun hkind => ?_⟩
    rw [hbytes.value_eq hkind, List.take_left]

/-- A text with comments, an exponent without digits, bytes that are no token and a comment that is
never closed. -/
def scribble : Text := "a1 /* b */ <= .5e+2e // c\n\t& 1e@ /*x"

theorem scan_lossless_scribble :
    0 ∉ scribble ∧
    (scan scribble).tokens.map Token.value =
      ["a1", "<=", ".5e+2", "e", "unexpected '&'", "1", "e", "@",
        "unterminated comment"].map ofString ∧
    Cut Stands [] scribble (scan scribble).tokens ∧
    (∀ t ∈ (scan scribble).tokens, t.start = .behind (scribble.take t.start.offset)) ∧
    scanNumber 9 (.all scribble) = .endOfText ⟨2, 11, 36⟩ := by
  have hzero : 0 ∉ scribble := by decide
  obtain ⟨-, -, hnumber, hcut, hplaces⟩ := scan_lossless scribble hzero
  have htokens : (scan scribble).tokens.length = 9 := by decide +kernel
  refine ⟨hzero, by decide +kernel, hcut, fun t ht => (hplaces t ht).1, ?_⟩
  rw [hnumber, List.getElem?_eq_none (Nat.le_of_eq htokens)]
  decide

end Token

end Orchestrion
