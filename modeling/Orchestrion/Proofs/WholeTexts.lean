import Orchestrion.Proofs.Grammar.Names
import Orchestrion.Proofs.Outcome
import Orchestrion.Proofs.RoundTrip
import Orchestrion.Proofs.Token.Cut

/-!
# Nothing is ignored in front of a zero byte

If a text is read as an orchestra or as an expression, then everything in front of its first zero
byte belongs to a token that was read, to a blank or to a complete comment. Bytes that begin no
token are reported. A zero byte is not: it ends the text, and what stands behind it is ignored,
unless a name at the end of an expression takes it along.
-/

namespace Orchestrion

open Text Token List

/-! ### Expressions as whole texts -/

namespace Reader

theorem gives_wholeExpression (n : Nat) {c : Cursor}
    (hkinds : ∀ t ∈ c.rest, t.kind ≠ .endOfText) :
    (wholeExpression n).Gives c fun ts e => ts = c.rest ∧ Grammar.Expression ts e := by
  refine .bind (gives_expression n) fun ts e c₁ hts he => .kind ?_
  split
  next hend =>
    have hrest : c₁.rest = [] := by
      by_contra hne
      obtain ⟨t, rest, hcons⟩ := exists_cons_of_ne_nil hne
      have hcurrent : c₁.current = t := by rw [Cursor.current, hcons]; rfl
      refine hkinds t ?_ (hcurrent ▸ hend)
      rw [hts.rest, hcons]
      exact mem_append_right ts mem_cons_self
    exact .pure (by rw [hts.rest, hrest]; exact ⟨rfl, by rwa [append_nil]⟩)
  next => exact gives_unexpected

end Reader

theorem Expr.expression_of_parse {source : Text} {e : Expr} (h : Expr.parse source = .ok e) :
    Grammar.Expression (Token.scan source).tokens e := by
  have hgives : (Reader.refuseIllegal >>= fun _ =>
      Reader.wholeExpression (16 * ((Token.scan source).tokens.length + 1))).Gives
        (OrchestraTree.opening source) fun ts e =>
          ts = (Token.scan source).tokens ∧ Grammar.Expression ts e := by
    refine .bind Reader.gives_refuseIllegal ?_
    rintro _ _ c₁ hreaches rfl
    have hrest : c₁.rest = (Token.scan source).tokens := hreaches.rest.symm
    have hwhole := Reader.gives_wholeExpression (16 * ((Token.scan source).tokens.length + 1))
      fun t ht => Token.kind_ne_endOfText_of_mem_scan (hrest ▸ ht)
    rw [hrest] at hwhole
    exact hwhole
  have hgives := hgives (OrchestraTree.valid_opening source)
  split at hgives
  next e' c' hrun =>
    obtain ⟨ts, -, rfl, he⟩ := hgives
    cases (congrArg (Except.map Prod.fst) hrun).symm.trans h
    exact he
  next err hrun => cases (congrArg (Except.map Prod.fst) hrun).symm.trans h

/-! ### Zero bytes -/

namespace Text

def beforeZero (t : Text) : Text := t.takeWhile (· ≠ 0)

def fromZero (t : Text) : Text := t.dropWhile (· ≠ 0)

theorem zero_notMem_beforeZero (t : Text) : 0 ∉ t.beforeZero := by
  intro hzero
  simpa using mem_takeWhile_imp hzero

theorem ends_fromZero (t : Text) : Ends t.fromZero := by
  intro b rest hb
  have hhead := head?_dropWhile_not (fun b : UInt8 => b ≠ 0) t
  rw [fromZero] at hb
  rw [hb] at hhead
  simpa using hhead

end Text

namespace Token

theorem cut_scan (source : Text) :
    Cut (StandsBefore source.fromZero) [] source.beforeZero (scan source).tokens := by
  have hrest : (Unread.all source).rest = source.beforeZero ++ source.fromZero :=
    takeWhile_append_dropWhile.symm
  have hplace : (Unread.all source).place = .behind [] := rfl
  exact (cut_scanFrom hrest (zero_notMem_beforeZero source) (ends_fromZero source) hplace).1

/-- The token stands for its bytes, or it is a name at the end that takes along all bytes from a
zero byte on. -/
def StandsOrSwallows (z : Text) (t : Token) (bytes rest : Text) : Prop :=
  Stands t bytes rest ∨
    z ≠ [] ∧ rest = [] ∧ t.kind = .name ∧ SpellsWord bytes ∧ t.value = bytes ++ z

theorem Spells.word_of_name {x : Text} (h : Spells .name x) : SpellsWord x := by
  generalize hkind : TokenKind.name = kind at h
  cases h with
  | mark m => cases hkind
  | word h => exact h
  | numeral => split at hkind <;> cases hkind

theorem Stands.word_of_name {t : Token} {bytes rest : Text} (h : Stands t bytes rest)
    (ht : t.kind = .name) : SpellsWord t.value := by
  cases h with
  | token hlongest _ hvalue =>
    have hspells := hlongest.spells
    rw [ht] at hspells
    rw [hvalue]
    exact hspells.word_of_name
  | byte hkind => cases ht.symm.trans hkind
  | comment hkind => cases ht.symm.trans hkind

theorem StandsBefore.standsOrSwallows {z : Text} {t : Token} {bytes rest : Text}
    (h : StandsBefore z t bytes rest) (hz : Ends z) (ht : t.Proper) :
    StandsOrSwallows z t bytes rest := by
  cases h with
  | stands h => exact .inl h
  | overrun hne h =>
    generalize hkind : t.kind = kind at h
    generalize hvalue : t.value = value at h
    cases h with
    | word h => exact .inr ⟨hne, rfl, hkind, h, hvalue⟩
    | numeral =>
      refine absurd ?_ (ht.numeral ?_)
      · obtain ⟨more, rfl⟩ := hz.eq_nil_or_cons.resolve_left hne
        rw [hvalue]
        exact mem_append_right _ mem_cons_self
      · rw [hkind]
        split <;> simp

end Token

namespace Reader

theorem stands_of_parse {source : Text} {tree : OrchestraTree}
    (h : OrchestraTree.parse source = .ok tree) :
    Cut Stands [] source.beforeZero (scan source).tokens := by
  have haccounts := (OrchestraTree.orchestra_of_parse h).accounts (fun _ => true) []
  have hspelled := OrchestraTree.spelled_of_parse h
  refine (cut_scan source).imp fun t ht bytes rest hstands => ?_
  rcases hstands.standsOrSwallows (ends_fromZero source) (haccounts.proper t ht) with
    hstands | ⟨hne, -, hkind, -, hvalue⟩
  · exact hstands
  · -- The names of an orchestra are spelled out to their ends.
    have hname := (hspelled t ht).spellsName hkind
    obtain ⟨more, hmore⟩ := (ends_fromZero source).eq_nil_or_cons.resolve_left hne
    have hzero : 0 ∈ t.value := by
      rw [hvalue, hmore]
      exact mem_append_right _ mem_cons_self
    exact absurd (hname.parts 0 hzero) (by decide)

/-- The tokens of every text cut what stands in front of its first zero byte. If one of them is
illegal, the text is read neither as an orchestra nor as an expression, but there is an error. If it
is read as an orchestra, then all tokens are legal and have their bytes as values, and all names in
the tree are words. If it is read as an expression, the same is true, except that a name at the end
takes along what stands behind a zero byte. -/
theorem reads_all_before_zero (source : Text) :
    Cut (StandsBefore source.fromZero) [] source.beforeZero (scan source).tokens ∧
    ((∃ t ∈ (scan source).tokens, t.kind = .illegal) →
      (∃ err, OrchestraTree.parse source = .error err) ∧ ∃ err, Expr.parse source = .error err) ∧
    (∀ tree, OrchestraTree.parse source = .ok tree →
      Cut Stands [] source.beforeZero (scan source).tokens ∧ Legal (scan source).tokens ∧
      ∀ n ∈ tree.walk (fun _ => true) [], ∀ x ∈ n.2.idents, SpellsWord x) ∧
    ∀ e, Expr.parse source = .ok e →
      Cut (StandsOrSwallows source.fromZero) [] source.beforeZero (scan source).tokens ∧
      Legal (scan source).tokens ∧
      ∀ n ∈ e.walk (fun _ => true) [], ∀ x ∈ n.2.idents,
        SpellsWord x ∨ source.fromZero ≠ [] ∧ ∃ w, SpellsWord w ∧ x = w ++ source.fromZero := by
  have horchestra (tree) (h : OrchestraTree.parse source = .ok tree) :=
    (OrchestraTree.orchestra_of_parse h).accounts (fun _ => true) []
  have hexpression (e) (h : Expr.parse source = .ok e) :=
    (Expr.expression_of_parse h).accounts (fun _ => true) []
  refine ⟨cut_scan source, ?_, fun tree h => ?_, fun e h => ?_⟩
  · rintro ⟨t, ht, hillegal⟩
    constructor
    · cases h : OrchestraTree.parse source with
      | error err => exact ⟨err, rfl⟩
      | ok tree => exact absurd hillegal ((horchestra tree h).proper t ht).legal
    · cases h : Expr.parse source with
      | error err => exact ⟨err, rfl⟩
      | ok e => exact absurd hillegal ((hexpression e h).proper t ht).legal
  · have hcut := stands_of_parse h
    refine ⟨hcut, fun t ht => ((horchestra tree h).proper t ht).legal, fun n hn x hx => ?_⟩
    obtain ⟨t, ht, hkind, rfl⟩ := (horchestra tree h).names n hn x hx
    obtain ⟨front, bytes, rest, -, -, hstands⟩ := hcut.exists_of_mem ht
    exact hstands.word_of_name hkind
  · have hcut : Cut (StandsOrSwallows source.fromZero) [] source.beforeZero (scan source).tokens :=
      (cut_scan source).imp fun t ht bytes rest hstands =>
        hstands.standsOrSwallows (ends_fromZero source) ((hexpression e h).proper t ht)
    refine ⟨hcut, fun t ht => ((hexpression e h).proper t ht).legal, fun n hn x hx => ?_⟩
    obtain ⟨t, ht, hkind, rfl⟩ := (hexpression e h).names n hn x hx
    obtain ⟨front, bytes, rest, -, -, hstands | ⟨hne, -, -, hword, hvalue⟩⟩ := hcut.exists_of_mem ht
    · exact .inl (hstands.word_of_name hkind)
    · exact .inr ⟨hne, bytes, hword, hvalue⟩

/-- An orchestra with something that is no token behind a zero byte. -/
def truncated : Text := "instr a()\x7b\x7d\x00garbage ?"

/-- An expression with a zero byte behind a name. -/
def swallowed : Text := "a + b\x00&c"

/-- What stands behind a zero byte may be anything: the text is read, nothing is reported, and a
name at the end takes it along. -/
theorem zero_byte_ends_text :
    (OrchestraTree.parse truncated).toOption.isSome = true ∧ truncated.fromZero = "\x00garbage ?" ∧
    ∃ e, Expr.parse swallowed = .ok e ∧ ∃ n ∈ e.walk (fun _ => true) [], ∃ x ∈ n.2.idents,
      ¬SpellsWord x := by
  refine ⟨by decide +kernel, by decide +kernel, ?_⟩
  have hidents : (Expr.parse swallowed).toOption.map (fun e =>
      (e.walk (fun _ => true) []).flatMap fun n => n.2.idents) =
        some (["a", "b\x00&c"].map ofString) := by
    decide +kernel
  obtain ⟨e, he, hnames⟩ := Option.map_eq_some_iff.1 hidents
  have hmem : ("b\x00&c" : Text) ∈ (e.walk (fun _ => true) []).flatMap fun n => n.2.idents := by
    rw [hnames]
    exact mem_cons_of_mem _ mem_cons_self
  obtain ⟨n, hn, hx⟩ := mem_flatMap.1 hmem
  refine ⟨e, toOption_eq_some_iff.1 he, n, hn, _, hx, fun hword => ?_⟩
  exact absurd (hword.parts 0 (by decide)) (by decide)

/-- The same texts up to their zero bytes. -/
theorem reads_all_before_zero_truncated :
    truncated.beforeZero = "instr a()\x7b\x7d" ∧
    Cut Stands [] truncated.beforeZero (scan truncated).tokens ∧
    Cut (StandsOrSwallows swallowed.fromZero) [] swallowed.beforeZero (scan swallowed).tokens := by
  obtain ⟨-, -, htree, -⟩ := reads_all_before_zero truncated
  obtain ⟨-, -, -, hexpr⟩ := reads_all_before_zero swallowed
  refine ⟨by decide +kernel, ?_, ?_⟩
  · have hread : (OrchestraTree.parse truncated).toOption.isSome = true := by decide +kernel
    obtain ⟨tree, hparse⟩ := Option.isSome_iff_exists.1 hread
    exact (htree tree (toOption_eq_some_iff.1 hparse)).1
  · have hread : (Expr.parse swallowed).toOption.isSome = true := by decide +kernel
    obtain ⟨e, hparse⟩ := Option.isSome_iff_exists.1 hread
    exact (hexpr e (toOption_eq_some_iff.1 hparse)).1

end Reader

end Orchestrion
