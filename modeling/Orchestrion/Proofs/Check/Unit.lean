import Orchestrion.Proofs.Check.Calls
import Orchestrion.Proofs.Check.Declarations
import Orchestrion.Proofs.Settings

/-!
# What a check has found out

Declarations put variables of some size into the table of the unit. In a unit without complaints the
variables are those of the tree, every table has a generator and arguments, and all calls fit. No
check sets an attribute twice.
-/

namespace Orchestrion

namespace Check

theorem declLaws_checks (c : Context) :
    DeclLaws c fun _ parts x _ => ∀ p, Checks (Admits c) p parts (x p) where
  done _ _ := .done
  mono h hparts _ p := (h p).mono hparts
  step hx hparts hf p := .step (hx p) hparts fun a ⟨s, s', ha⟩ => hf a ⟨p, s, s', ha⟩ p
  child i h p := (h (i :: p)).child
  complain node cause _ := checks_complain c node cause
  abandon node cause _ := checks_abandon c node cause
  declare he _ := checks_declare he
  setSignal node w r _ := checks_setSignal node w r
  setPayload node x _ := checks_setPayload node x
  expr e p := (laws_checks _ c).expr e p
  stmts ss p := ((laws_checks _ c).stmts 0 ss p).mono (Set.subset_univ _)

theorem declLaws_adds (c : Context) : DeclLaws c fun _ _ x found => ∀ p, Adds (x p) (found p) where
  done h p := .done (h p)
  mono h _ hless p := (h p).mono (hless p)
  step hx _ hf p := .step (hx p) fun a ⟨s, s', ha⟩ => hf a ⟨p, s, s', ha⟩ p
  child i h p := h (i :: p)
  complain node cause _ := (finds_complain (c := c) node cause).adds.mono fun _ _ _ h => h.2
  abandon node cause _ := (finds_abandon (c := c) node cause).adds.mono fun _ _ _ h => h.2
  declare _ _ := adds_declare _
  setSignal node w r _ := (finds_setSignal (c := c) node w r).adds
  setPayload node x _ := (finds_setPayload (c := c) node x).adds
  expr e p := Finds.adds <| (finds_expr c p e).mono fun σ _ _ h => ⟨σ, h⟩
  stmts ss p := Finds.adds <| (finds_stmts c p 0 ss).mono fun _ _ _ _ => trivial

/-- What is known of a declaration once it was checked without complaints. -/
def Declared (es : List Entry) : Decl → Prop
  | .vars _ => True
  | .table d => IsTable d ∧ ∃ e ∈ es, e.ident = d.ident

theorem exists_stmtsRated {c : Context} {ss : List Stmt} {s t : State}
    (hrun : (do let _ ← stmts c [2] 0 ss : Checking Unit) s = .ok () t) (ht : t.errors = []) :
    ∃ rates, StmtsRated ⟨t.locals, c.globals⟩ t.attributes c.kind [2] 0 ss rates := by
  obtain ⟨rates, _, hstmts, hrun⟩ := exists_of_run_bind_eq_ok hrun
  cases hrun
  obtain ⟨-, hlocals, hfound⟩ := (finds_stmts c [2] 0 ss).of_ok s rates t hstmts
  rw [hlocals]
  exact ⟨rates, hfound ht _ (.refl _)⟩

end Check

namespace CheckedUnit

open Check

theorem label_of_ofCheck {label : UnitLabel} {check : Checking Unit} {u : CheckedUnit}
    (h : ofCheck label check = .ok u) : u.label = label := by
  unfold ofCheck at h
  split at h
  · cases h
    rfl
  · cases h
    rfl
  · cases h

theorem ofCheck_spec {label : UnitLabel} {kind : Entry → Prop} {check : Checking Unit}
    (h : Checks kind [] .univ check) :
    ∃ u, ofCheck label check = .ok u ∧ u.locals.Built ∧
      (∀ e ∈ u.locals.entries, kind e) ∧
      (u.errors = [] → ∃ s, check {} = .ok () s ∧ s.errors = [] ∧ u.locals = s.locals ∧
        u.attributes = s.attributes) := by
  have hmeets := h.meets {} fun q payload _ => by simp [State.IsSet, Attributes.get]
  rw [ofCheck, show check.run {} = check {} from rfl]
  generalize check {} = result at hmeets ⊢
  cases result with
  | ok _ s =>
    exact ⟨_, rfl, hmeets.1.built VariableTable.built_empty,
      hmeets.1.kinds (List.forall_mem_nil _), fun hs => ⟨s, rfl, hs, rfl, rfl⟩⟩
  | error stop s =>
    cases stop with
    | abandoned =>
      obtain ⟨hadvances, hs⟩ := hmeets
      exact ⟨_, rfl, hadvances.built VariableTable.built_empty,
        hadvances.kinds (List.forall_mem_nil _), fun hs' => absurd hs' hs⟩
    | setTwice => exact hmeets.elim

/-- What is found out about an instrument without complaints. -/
structure Follows (c : Check.Context) (i : Instrument) (u : CheckedUnit) : Prop where
  entries : u.locals.entries = i.entries
  params : ∀ x ∈ i.params.zipIdx, Labelled u.attributes [x.2, 0] x.1.entry
  decls : ∀ x ∈ i.decls.zipIdx, DeclChecked c u.attributes [x.2, 1] x.1
  body : ∃ rates, StmtsRated ⟨u.locals, c.globals⟩ u.attributes c.kind [2] 0 i.body rates

theorem ofInstrument_spec (s : Surroundings) (keyword : Keyword) (i : Instrument) :
    ∃ u, ofInstrument s keyword i = .ok u ∧ u.locals.Built ∧
      (∀ e ∈ u.locals.entries, Admits (s.context .instrument (.named keyword i.ident)) e) ∧
      (u.errors = [] → Follows (s.context .instrument (.named keyword i.ident)) i u) := by
  obtain ⟨u, hu, hbuilt, hadmits, hclean⟩ := ofCheck_spec ((declLaws_checks _).instrument i [])
  refine ⟨u, hu, hbuilt, hadmits, fun hs => ?_⟩
  obtain ⟨t, hrun, ht, hlocals, hattributes⟩ := hclean hs
  obtain ⟨es, hes, hfound⟩ := (((declLaws_adds _).instrument i []).of_ok {} () t hrun).2 ht
  obtain ⟨rfl, hparams, hdecls⟩ := hfound _ (.refl _)
  obtain ⟨_, _, -, hrun⟩ := exists_of_run_bind_eq_ok hrun
  obtain ⟨_, _, -, hrun⟩ := exists_of_run_bind_eq_ok hrun
  have hbody := exists_stmtsRated hrun ht
  rw [← hlocals] at hes hbody
  rw [← hattributes] at hparams hdecls hbody
  exact ⟨hes, hparams, hdecls, hbody⟩

theorem built_of_ofInstrument {s : Surroundings} {keyword : Keyword} {i : Instrument}
    {u : CheckedUnit} (h : ofInstrument s keyword i = .ok u) : u.locals.Built := by
  obtain ⟨u', hu', hbuilt, -⟩ := ofInstrument_spec s keyword i
  obtain rfl : u' = u := Except.ok.inj (hu'.symm.trans h)
  exact hbuilt

theorem follows_of_ofInstrument {s : Surroundings} {keyword : Keyword} {i : Instrument}
    {u : CheckedUnit} (h : ofInstrument s keyword i = .ok u) (hclean : u.errors = []) :
    Follows (s.context .instrument (.named keyword i.ident)) i u := by
  obtain ⟨u', hu', -, -, hspec⟩ := ofInstrument_spec s keyword i
  obtain rfl : u' = u := Except.ok.inj (hu'.symm.trans h)
  exact hspec hclean

/-- What is known of an instrument once it was checked without complaints, and of its table of
variables. -/
structure Sound (i : Instrument) (locals : VariableTable) : Prop where
  params : ∀ p ∈ i.params, ∃ e ∈ locals.entries, e.ident = p.ident
  decls : ∀ d ∈ i.decls, Declared locals.entries d
  calls : Stmt.AllCallsFit i.body
  widths : ∀ e ∈ locals.entries, e.width.IsSize
  aligned : locals.Aligned

theorem sound_of_ofInstrument {s : Surroundings} {keyword : Keyword} {i : Instrument}
    {u : CheckedUnit} (h : ofInstrument s keyword i = .ok u) (hclean : u.errors = []) :
    Sound i u.locals := by
  obtain ⟨u', hu', hbuilt, hadmits, hspec⟩ := ofInstrument_spec s keyword i
  obtain rfl : u' = u := Except.ok.inj (hu'.symm.trans h)
  obtain ⟨hentries, -, hdecls, rates, hbody⟩ := hspec hclean
  refine ⟨fun q hq => ?_, fun d hd => ?_, hbody.callsFit, fun e he => (hadmits e he).width,
    hbuilt.aligned⟩
  · refine ⟨q.entry, ?_, rfl⟩
    rw [hentries]
    exact List.mem_append_left _ (List.mem_map_of_mem hq)
  · cases d with
    | vars d => trivial
    | table d =>
      obtain ⟨n, hn⟩ := List.mem_iff_getElem?.1 hd
      refine ⟨((hdecls (_, n) (List.mem_zipIdx_iff_getElem?.2 hn)).table d rfl).1, d.entry, ?_, rfl⟩
      rw [hentries]
      exact List.mem_append_right _ (List.mem_flatMap.2 ⟨_, hd, List.mem_singleton_self _⟩)

theorem exists_ofOpcode (s : Surroundings) (o : Opcode) : ∃ u, ofOpcode s o = .ok u := by
  obtain ⟨u, hu, -⟩ := ofCheck_spec ((declLaws_checks _).opcode o [])
  exact ⟨u, hu⟩

theorem checks_globalBlock (c : Check.Context) (block : GlobalBlock) :
    Checks (Admits c) [] .univ (Check.globalItems c [] 0 block.items) :=
  ((declLaws_checks c).globalItems 0 block.items []).mono (Set.subset_univ _)

theorem exists_ofGlobal (block : GlobalBlock) : ∃ u, ofGlobal block = .ok u ∧ u.locals.Built := by
  obtain ⟨u, hu, hbuilt, -⟩ := ofCheck_spec (checks_globalBlock _ block)
  exact ⟨u, hu, hbuilt⟩

end CheckedUnit

theorem Width.resolve_nonneg {settings : Settings} {w : Width} (hw : w.IsSize)
    (hsettings : settings.Valid) : 0 ≤ w.resolve settings := by
  cases w with
  | fixed n => exact hw
  | inChannels => exact hsettings.inChannels
  | outChannels => exact Int.le_of_lt hsettings.outChannels

theorem CheckedOrchestra.exists_ofTree (o : OrchestraTree) :
    ∃ checked, CheckedOrchestra.ofTree o = .ok checked := by
  have hinstrument (s : Surroundings) (keyword : Keyword) (i : Instrument) :
      ∃ u, CheckedUnit.ofInstrument s keyword i = .ok u :=
    (CheckedUnit.ofInstrument_spec s keyword i).imp fun _ h => h.1
  exact exists_bind_eq_ok ((CheckedUnit.exists_ofGlobal _).imp fun _ h => h.1) fun _ =>
    exists_bind_eq_ok (exists_mapM_eq_ok (hinstrument _ _) _) fun _ =>
    exists_bind_eq_ok (exists_mapM_eq_ok (hinstrument _ _) _) fun _ =>
    exists_bind_eq_ok (exists_mapM_eq_ok (CheckedUnit.exists_ofOpcode _) _) fun _ => ⟨_, rfl⟩

def CheckedOrchestra.surroundings (o : CheckedOrchestra) : Surroundings :=
  .ofSections o.sections o.global.locals o.settings.toOption

/-- The checks of an orchestra, one for each of its parts. -/
structure CheckedOrchestra.Checks (tree : OrchestraTree) (o : CheckedOrchestra) : Prop where
  sections : o.sections = tree.sections
  settings : o.settings = Settings.resolve tree.sections.global
  global : CheckedUnit.ofGlobal tree.sections.global = .ok o.global
  instruments : List.Forall₂ (fun i u => CheckedUnit.ofInstrument o.surroundings .instr i = .ok u)
    o.sections.instruments o.instruments
  templates : List.Forall₂ (fun i u => CheckedUnit.ofInstrument o.surroundings .template i = .ok u)
    o.sections.templates o.templates
  opcodes : List.Forall₂ (fun c u => CheckedUnit.ofOpcode o.surroundings c = .ok u)
    o.sections.opcodes o.opcodes

theorem CheckedOrchestra.checks_of_ofTree {tree : OrchestraTree} {o : CheckedOrchestra}
    (h : CheckedOrchestra.ofTree tree = .ok o) : o.Checks tree := by
  obtain ⟨global, hglobal, h⟩ := exists_of_bind_eq_ok h
  obtain ⟨instruments, hinstruments, h⟩ := exists_of_bind_eq_ok h
  obtain ⟨templates, htemplates, h⟩ := exists_of_bind_eq_ok h
  obtain ⟨opcodes, hopcodes, h⟩ := exists_of_bind_eq_ok h
  cases h
  exact ⟨rfl, rfl, hglobal, forall₂_of_mapM_eq_ok hinstruments, forall₂_of_mapM_eq_ok htemplates,
    forall₂_of_mapM_eq_ok hopcodes⟩

end Orchestrion
