import Orchestrion.Proofs.Grammar.Rules
import Orchestrion.Proofs.Token.Spelling

/-!
# Scanning what was written

`Token.Scans text rest post`: the text is scanned up to the rest of it, and the tokens in front of
the rest are legal and have a property. What is written token by token is scanned token by token,
whatever place the text begins at.
-/

namespace Orchestrion

namespace Token

open Text

def Scanned.prepend (ts : List Token) (s : Scanned) : Scanned := { s with tokens := ts ++ s.tokens }

def Scans (text rest : Text) (post : List Token → Prop) : Prop :=
  ∀ p, ∃ ts q, scanFrom ⟨text, p⟩ = (scanFrom ⟨rest, q⟩).prepend ts ∧
    (∀ t ∈ ts, t.kind ≠ .illegal) ∧ post ts

variable {text mid rest : Text} {post : List Token → Prop}

namespace Scans

theorem done (h : post []) : Scans rest rest post := fun p => ⟨[], p, rfl, nofun, h⟩

theorem bind {first : List Token → Prop} (h : Scans text mid first)
    (hmid : ∀ ts, first ts → Scans mid rest fun us => post (ts ++ us)) : Scans text rest post := by
  intro p
  obtain ⟨ts, q, hscan, hlegal, hts⟩ := h p
  obtain ⟨us, q', hscan', hlegal', hus⟩ := hmid ts hts q
  refine ⟨ts ++ us, q', ?_, ?_, hus⟩
  · rw [hscan, hscan']
    simp [Scanned.prepend]
  · intro t ht
    exact (List.mem_append.1 ht).elim (hlegal t) (hlegal' t)

theorem mono {wider : List Token → Prop} (h : Scans text rest post)
    (hwider : ∀ ts, post ts → wider ts) : Scans text rest wider := by
  intro p
  obtain ⟨ts, q, hscan, hlegal, hts⟩ := h p
  exact ⟨ts, q, hscan, hlegal, hwider ts hts⟩

end Scans

/-! ### Blanks -/

theorem next_blank {b : UInt8} (hb : isBlank b = true) (text : Text) (p : Position) :
    next ⟨b :: text, p⟩ = next ⟨text, p.after b⟩ := by
  have hlength : blankLength? (b :: text) = some 1 := by
    simp [blankLength?, hb]
  have hskip : skipBlank ⟨b :: text, p⟩ = skipBlank ⟨text, p.after b⟩ := by
    rw [skipBlank]
    split
    next h => cases hlength.symm.trans h
    next h => cases hlength.symm.trans h
    next n h =>
      cases hlength.symm.trans h
      rfl
  have hzero : b ≠ 0 := by
    rintro rfl
    cases hb
  simp only [next, hskip]
  split
  next => simp [Unread.drop, hzero]
  next => rfl

theorem scanFrom_of_next_eq_token {u left : Unread} {t : Token} (h : next u = .token t left) :
    scanFrom u = (scanFrom left).cons t := by
  rw [scanFrom]
  split <;> simp_all

theorem scanFrom_of_next_eq_done {u : Unread} {p : Position} (h : next u = .done p) :
    scanFrom u = ⟨[], p⟩ := by
  rw [scanFrom]
  split <;> simp_all

theorem scanFrom_eq_of_next_eq {u v : Unread} (h : next u = next v) : scanFrom u = scanFrom v := by
  cases hv : next v with
  | token t left =>
    rw [scanFrom_of_next_eq_token hv, scanFrom_of_next_eq_token (h.trans hv)]
  | done p => rw [scanFrom_of_next_eq_done hv, scanFrom_of_next_eq_done (h.trans hv)]

namespace Scans

theorem blank {b : UInt8} (hb : isBlank b = true) (h : Scans text rest post) :
    Scans (b :: text) rest post := by
  intro p
  obtain ⟨ts, q, hscan, hts⟩ := h (p.after b)
  refine ⟨ts, q, ?_, hts⟩
  rw [scanFrom_eq_of_next_eq (next_blank hb text p), hscan]

theorem space (h : Scans text rest post) : Scans (" " ++ text) rest post := h.blank rfl

theorem newline (h : Scans text rest post) : Scans ("\n" ++ text) rest post := h.blank rfl

theorem spaces (n : Nat) (h : Scans text rest post) :
    Scans (List.replicate n 32 ++ text) rest post := by
  induction n with
  | zero => exact h
  | succ n ih => exact ih.blank rfl

/-! ### Tokens -/

theorem token {b : UInt8} {x : Text} {kind : TokenKind} {value : Text} (hb : b ≠ 0)
    (hblank : blankLength? (b :: x ++ mid) = some 0) (hkind : kind ≠ .illegal)
    (hclassify : ∀ p, classify ⟨b :: x ++ mid, p⟩ b (x ++ mid) = ⟨kind, value, (b :: x).length⟩)
    (h : ∀ t : Token, t.kind = kind → t.value = value → Scans mid rest fun ts => post (t :: ts)) :
    Scans (b :: x ++ mid) rest post := by
  intro p
  have hnext : next ⟨b :: x ++ mid, p⟩ = .token ⟨(classify ⟨b :: x ++ mid, p⟩ b (x ++ mid)).kind,
      (classify ⟨b :: x ++ mid, p⟩ b (x ++ mid)).value, p⟩
        (Unread.drop ⟨b :: x ++ mid, p⟩ (classify ⟨b :: x ++ mid, p⟩ b (x ++ mid)).size) :=
    next_of_blankLength? hblank hb p
  have hleft : Unread.drop ⟨b :: x ++ mid, p⟩ (b :: x).length =
      ⟨mid, (Unread.drop ⟨b :: x ++ mid, p⟩ (b :: x).length).place⟩ := by
    simp [Unread.drop]
  rw [hclassify p] at hnext
  rw [hleft] at hnext
  obtain ⟨ts, q, hscan, hlegal, hts⟩ :=
    h ⟨kind, value, p⟩ rfl rfl (Unread.drop ⟨b :: x ++ mid, p⟩ (b :: x).length).place
  refine ⟨⟨kind, value, p⟩ :: ts, q, ?_, ?_, hts⟩
  · rw [scanFrom_of_next_eq_token hnext, hscan]
    rfl
  · intro t ht
    rcases List.mem_cons.1 ht with rfl | ht
    · exact hkind
    · exact hlegal t ht

theorem mark (m : Punctuation) (hclear : m.isOpen = true → Clear mid)
    (h : ∀ t : Token, t.IsMark m → Scans mid rest fun ts => post (t :: ts)) :
    Scans (m.spelling ++ mid) rest post := by
  obtain ⟨b, bs, hspelling, hb, hblank, hclassify⟩ := classify_mark m hclear
  rw [hspelling]
  refine token hb hblank ?_ hclassify fun t ht _ => h t ht
  nofun

theorem sealed (m : Punctuation) (hm : m.isOpen = false)
    (h : ∀ t : Token, t.IsMark m → Scans mid rest fun ts => post (t :: ts)) :
    Scans (m.spelling ++ mid) rest post :=
  mark m (fun hopen => absurd (hm.symm.trans hopen) Bool.false_ne_true) h

theorem word {x : Text} (hx : SpellsWord x) (hmid : Breaks mid)
    (h : ∀ t : Token, t.kind = .ofWord x → t.value = x → Scans mid rest fun ts => post (t :: ts)) :
    Scans (x ++ mid) rest post := by
  obtain ⟨b, xs, rfl, -⟩ := hx.start
  obtain ⟨hblank, hb, hslash, -⟩ :=
    (classified b).namePart (by rw [hx.parts b List.mem_cons_self]; rfl)
  have hkind : TokenKind.ofWord (b :: xs) ≠ .illegal := by
    unfold TokenKind.ofWord
    split <;> simp
  exact token hb (blankLength?_of_ne hblank hslash _) hkind (classify_word hx hmid) h

theorem keyword (k : Keyword) (hmid : Breaks mid)
    (h : ∀ t : Token, t.IsWord k → Scans mid rest fun ts => post (t :: ts)) :
    Scans (k.spelling ++ mid) rest post := by
  refine word k.spellsWord_spelling hmid fun t ht _ => h t ?_
  rw [IsWord, ht, TokenKind.ofWord, k.ofText?_spelling]

theorem name {x : Text} (hx : SpellsName x) (hmid : Breaks mid)
    (h : ∀ t : Token, t.kind = .name → t.value = x → Scans mid rest fun ts => post (t :: ts)) :
    Scans (x ++ mid) rest post := by
  refine word hx.toSpellsWord hmid fun t ht hvalue => h t ?_ hvalue
  rw [ht, TokenKind.ofWord, hx.free]

theorem numeral {x : Text} {whole : Bool} (hx : IsNumeral x whole) (hmid : Breaks mid)
    (h : ∀ t : Token, t.kind = (if whole then .integer else .number) → t.value = x →
      Scans mid rest fun ts => post (t :: ts)) :
    Scans (x ++ mid) rest post := by
  obtain ⟨b, xs, rfl, hstart⟩ := hx.exists_cons
  obtain ⟨hblank, hb, hslash, -⟩ := (classified b).namePart (by
    simp only [isNamePart, Bool.or_eq_true] at hstart ⊢
    exact hstart.imp Or.inr id)
  have hkind : (if whole then .integer else .number : TokenKind) ≠ .illegal := by
    split <;> decide
  exact token hb (blankLength?_of_ne hblank hslash _) hkind (classify_numeral hx hmid) h

end Scans

end Token

end Orchestrion
