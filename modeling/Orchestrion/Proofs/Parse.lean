import Orchestrion.Proofs.Grammar.Completeness
import Orchestrion.Proofs.Token.Scan

/-!
# Reading whole texts

Reading succeeds exactly on the texts whose tokens write an orchestra by the rules of the grammar,
and the tree that it gives is the only one that the tokens write. On all other texts it gives one
error, at a place of the text.
-/

namespace Orchestrion

namespace Reader

theorem gives_refuseIllegal {c : Cursor} : refuseIllegal.Gives c fun ts _ => ts = [] := by
  refine .peek ?_
  split
  next => exact gives_failAt_current
  next => exact .pure rfl

theorem reads_refuseIllegal {c : Cursor} : refuseIllegal.Reads [] () c := by
  intro hlegal
  have hkind : c.current.kind ≠ .illegal := Legal.current_ne_illegal hlegal
  change (if c.current.kind = .illegal then _ else _ : Reader Unit).run c = _
  rw [if_neg hkind]
  rfl

end Reader

namespace OrchestraTree

open Reader

def opening (source : Text) : Cursor := ⟨(Token.scan source).tokens, (Token.scan source).finish⟩

theorem valid_opening (source : Text) : (opening source).Valid :=
  ⟨Token.isValid_finish_scan source, fun _ => Token.isValid_of_mem_scan⟩

theorem parse_cases (source : Text) :
    (∃ tree, parse source = .ok tree ∧
      Grammar.Orchestra (Token.scan source).finish (Token.scan source).tokens tree) ∨
    ∃ e, parse source = .error e ∧ e.place.isValid = true := by
  have hgives : (refuseIllegal >>= fun _ =>
      orchestra (16 * ((Token.scan source).tokens.length + 1))).Gives
      (opening source) fun ts tree =>
        ts = (Token.scan source).tokens ∧ Grammar.Orchestra (Token.scan source).finish ts tree := by
    refine .bind gives_refuseIllegal ?_
    rintro _ _ c₁ hreaches rfl
    have hrest : c₁.rest = (Token.scan source).tokens := hreaches.rest.symm
    have hfinish : c₁.finish = (Token.scan source).finish := hreaches.finish
    have horchestra := gives_orchestra (16 * ((Token.scan source).tokens.length + 1)) fun t ht =>
      Token.kind_ne_endOfText_of_mem_scan (hrest ▸ ht)
    rw [hrest, hfinish] at horchestra
    exact horchestra
  have hgives := hgives (valid_opening source)
  change (∃ tree, Except.map Prod.fst _ = .ok tree ∧ _) ∨ ∃ e, Except.map Prod.fst _ = .error e ∧ _
  split at hgives
  next tree c' hrun =>
    obtain ⟨ts, -, rfl, h⟩ := hgives
    exact .inl ⟨tree, congrArg (Except.map Prod.fst) hrun, h⟩
  next e hrun => exact .inr ⟨e, congrArg (Except.map Prod.fst) hrun, hgives⟩

theorem orchestra_of_parse {source : Text} {tree : OrchestraTree} (h : parse source = .ok tree) :
    Grammar.Orchestra (Token.scan source).finish (Token.scan source).tokens tree := by
  rcases parse_cases source with ⟨tree', htree', horchestra⟩ | ⟨e, he, -⟩
  · cases h.symm.trans htree'
    exact horchestra
  · cases h.symm.trans he

theorem parse_of_orchestra {source : Text} {tree : OrchestraTree}
    (hlegal : Legal (Token.scan source).tokens)
    (h : Grammar.Orchestra (Token.scan source).finish (Token.scan source).tokens tree) :
    parse source = .ok tree := by
  have horchestra := reads_orchestra (16 * ((Token.scan source).tokens.length + 1)) h (by omega)
  have hreads : (refuseIllegal >>= fun _ =>
      orchestra (16 * ((Token.scan source).tokens.length + 1))).Reads (Token.scan source).tokens
        tree ⟨[], (Token.scan source).finish⟩ := .bind reads_refuseIllegal horchestra
  have hbefore : Cursor.before ⟨[], (Token.scan source).finish⟩ (Token.scan source).tokens =
      opening source := by
    simp [Cursor.before, opening]
  rw [Reads, hbefore] at hreads
  exact congrArg (Except.map Prod.fst) (hreads hlegal)

/-- A text in which everything is a token is read exactly if its tokens write an orchestra. The tree
is the only one that they write. Otherwise there is one error, at a place of the text. -/
theorem parse_iff_orchestra (source : Text) (hlegal : Legal (Token.scan source).tokens) :
    (∀ tree, parse source = .ok tree ↔
      Grammar.Orchestra (Token.scan source).finish (Token.scan source).tokens tree) ∧
    (∀ tree tree', Grammar.Orchestra (Token.scan source).finish (Token.scan source).tokens tree →
      Grammar.Orchestra (Token.scan source).finish (Token.scan source).tokens tree' →
      tree = tree') ∧
    ((∀ tree, ¬Grammar.Orchestra (Token.scan source).finish (Token.scan source).tokens tree) →
      ∃ e, parse source = .error e ∧ e.place.isValid = true) := by
  refine ⟨fun tree => ⟨orchestra_of_parse, parse_of_orchestra hlegal⟩, ?_, ?_⟩
  · intro tree tree' h h'
    exact Except.ok.inj ((parse_of_orchestra hlegal h).symm.trans (parse_of_orchestra hlegal h'))
  · intro hnone
    rcases parse_cases source with ⟨tree, -, h⟩ | herror
    · exact absurd h (hnone tree)
    · exact herror

/-- An orchestra with operators of several levels and an else branch without statements. -/
def ladder : Text :=
  "global \x7b srate 8; \x7d
  instr a(x) \x7b
    imports ksig y[2];
    (y[0]) = x ? 1 : -x * 2 + .5 == x;
    if (x || y[1] < 3) \x7b output(x, 1); \x7d else \x7b \x7d
  \x7d"

/-- Its tree, without the places. -/
def ladderTree : OrchestraTree :=
  let x : Expr := .name {} "x"
  let integer (spelling : Text) : Expr := .constant {} ⟨spelling, true⟩
  let half : Expr := .constant {} ⟨".5", false⟩
  ⟨{}, [
    .global ⟨{}, [.setting ⟨{}, .srate, 8⟩]⟩,
    .instrument
      { span := {}, ident := "a", params := [⟨{}, "x"⟩]
        decls := [.vars ⟨{}, some ⟨{}, true, false⟩, ⟨{}, .ksig⟩, ⟨{}, [⟨{}, "y", .array 2⟩]⟩⟩]
        body := [
          .assign {} ⟨{}, "y", some (integer "0")⟩
            (.conditional {} x (integer "1")
              (.binary {} .equal
                (.binary {} .add (.binary {} .mul (.unary {} .neg x) (integer "2")) half) x)),
          .ifElse {}
            (.binary {} .or x (.binary {} .less (.element {} "y" (integer "1")) (integer "3")))
            [.output {} [x, integer "1"]] []] }]⟩

/-- An orchestra with a comma behind the last argument. -/
def danglingComma : Text := "instr a() \x7b output(1,); \x7d"

set_option maxRecDepth 2000 in
theorem parse_iff_orchestra_ladder :
    (∃ tree, parse ladder = .ok tree ∧ tree.erase = ladderTree ∧
      Grammar.Orchestra (Token.scan ladder).finish (Token.scan ladder).tokens tree) ∧
    (∀ tree, ¬Grammar.Orchestra (Token.scan danglingComma).finish
      (Token.scan danglingComma).tokens tree) ∧
    ∃ e, parse danglingComma = .error e ∧ e.place.isValid = true := by
  have hladder := parse_iff_orchestra ladder (by unfold Legal; decide +kernel)
  have hdangling := parse_iff_orchestra danglingComma (by unfold Legal; decide +kernel)
  have hnone : ∀ tree, ¬Grammar.Orchestra (Token.scan danglingComma).finish
      (Token.scan danglingComma).tokens tree := by
    intro tree h
    have hfails : (parse danglingComma).toOption.isNone = true := by decide +kernel
    rw [(hdangling.1 tree).2 h] at hfails
    cases hfails
  refine ⟨?_, hnone, hdangling.2.2 hnone⟩
  have hreads : (parse ladder).map erase = .ok ladderTree := by with_unfolding_all rfl
  match h : parse ladder, hreads with
  | .ok tree, hreads => exact ⟨tree, rfl, Except.ok.inj hreads, (hladder.1 tree).1 h⟩

end OrchestraTree

end Orchestrion
