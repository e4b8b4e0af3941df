import Mathlib.Data.List.Forall2
import Orchestrion.Compile
import Orchestrion.Proofs.Check.Unit
import Orchestrion.Proofs.Code.Unit

/-!
# Orchestras that compile

What is known of a text that compiles: it can be read, every instrument and template of it passed
its check without complaints, and the unit that was generated for it is found under its name. There
are no other units.
-/

namespace Orchestrion

open List

/-! ### Checks -/

def CheckedOrchestra.parts (o : CheckedOrchestra) : List (CheckedUnit × Instrument) :=
  o.instruments.zip o.sections.instruments ++ o.templates.zip o.sections.templates

def CheckedOrchestra.ofText? (source : Text) : Option CheckedOrchestra :=
  match OrchestraTree.parse source with
  | .ok tree => (CheckedOrchestra.ofTree tree).toOption
  | .error _ => none

theorem CheckedOrchestra.ofText?_eq_some_iff {source : Text} {checked : CheckedOrchestra} :
    ofText? source = some checked ↔
      ∃ tree, OrchestraTree.parse source = .ok tree ∧ ofTree tree = .ok checked := by
  rw [ofText?]
  constructor
  · intro h
    split at h
    next tree hparse => exact ⟨tree, hparse, toOption_eq_some_iff.1 h⟩
    next => cases h
  · rintro ⟨tree, hparse, hchecked⟩
    simp only [hparse, hchecked, Except.toOption]

theorem exists_mem_of_forall₂ {α β : Type} {r : α → β → Prop} {xs : List α} {ys : List β}
    (h : List.Forall₂ r xs ys) {x : α} (hx : x ∈ xs) : ∃ y ∈ ys, r x y := by
  induction h with
  | nil => cases hx
  | cons hxy _ ih =>
    rcases mem_cons.1 hx with rfl | hx
    · exact ⟨_, mem_cons_self, hxy⟩
    · obtain ⟨y, hy, hr⟩ := ih hx
      exact ⟨y, mem_cons_of_mem _ hy, hr⟩

theorem zip_of_forall₂ {α β : Type} {r : α → β → Prop} {xs : List α} {ys : List β}
    (h : List.Forall₂ r xs ys) :
    (ys.zip xs).map Prod.snd = xs ∧ ∀ y x, (y, x) ∈ ys.zip xs → r x y := by
  induction h with
  | nil => exact ⟨rfl, nofun⟩
  | cons hxy _ ih =>
    refine ⟨by rw [zip_cons_cons, map_cons, ih.1], fun y x hmem => ?_⟩
    rw [zip_cons_cons, mem_cons] at hmem
    rcases hmem with heq | hmem
    · cases heq
      exact hxy
    · exact ih.2 y x hmem

theorem CheckedOrchestra.ofTree_parts {tree : OrchestraTree} {o : CheckedOrchestra}
    (h : CheckedOrchestra.ofTree tree = .ok o) :
    o.settings = Settings.resolve o.sections.global ∧
      o.global.locals.Aligned ∧
      o.parts.map Prod.snd = o.sections.instruments ++ o.sections.templates ∧
      ∀ u i, (u, i) ∈ o.parts → ∃ s keyword, s.globals = o.global.locals ∧
        CheckedUnit.ofInstrument s keyword i = .ok u := by
  obtain ⟨global, hglobal, h⟩ := exists_of_bind_eq_ok h
  obtain ⟨instruments, hinstruments, h⟩ := exists_of_bind_eq_ok h
  obtain ⟨templates, htemplates, h⟩ := exists_of_bind_eq_ok h
  obtain ⟨opcodes, -, h⟩ := exists_of_bind_eq_ok h
  cases h
  obtain ⟨global', hglobal', hbuilt⟩ :=
    CheckedUnit.exists_ofGlobal (Sections.ofClaims tree.claims).global
  obtain rfl : global' = global := Except.ok.inj (hglobal'.symm.trans hglobal)
  obtain ⟨hmap, hmem⟩ := zip_of_forall₂ (forall₂_of_mapM_eq_ok hinstruments)
  obtain ⟨hmap', hmem'⟩ := zip_of_forall₂ (forall₂_of_mapM_eq_ok htemplates)
  refine ⟨rfl, hbuilt.aligned, by rw [parts, map_append, hmap, hmap'], fun u i hui => ?_⟩
  rcases mem_append.1 hui with hui | hui
  · exact ⟨_, _, rfl, hmem u i hui⟩
  · exact ⟨_, _, rfl, hmem' u i hui⟩

theorem CheckedOrchestra.ofTree_ok {tree : OrchestraTree} {o : CheckedOrchestra}
    (h : CheckedOrchestra.ofTree tree = .ok o) :
    o.settings = Settings.resolve o.sections.global ∧
      o.parts.map Prod.snd = o.sections.instruments ++ o.sections.templates ∧
      ∀ u i, (u, i) ∈ o.parts → u.errors = [] → CheckedUnit.Sound i u.locals := by
  obtain ⟨hsettings, -, hparts, hchecks⟩ := CheckedOrchestra.ofTree_parts h
  refine ⟨hsettings, hparts, fun u i hui hclean => ?_⟩
  obtain ⟨s, keyword, -, hu⟩ := hchecks u i hui
  exact CheckedUnit.sound_of_ofInstrument hu hclean

/-! ### Repertoires -/

theorem Compilation.register_ok {builds : List Build} {codes : List CompiledUnit}
    (hbuilds : List.Forall₂ (fun b code => b.code = some (.ok code)) builds codes)
    {r r' : Repertoire} (h : Compilation.register r builds = (r', [])) :
    r'.units = r.units ++ codes ∧ ∀ code ∈ codes, r'.unit? code.ident = some code := by
  induction hbuilds generalizing r with
  | nil =>
    cases h
    exact ⟨(append_nil _).symm, nofun⟩
  | @cons b code builds codes hb _ ih =>
    obtain ⟨checked, _⟩ := b
    cases hb
    rw [Compilation.register] at h
    cases hfree : r.unit? code.ident with
    | some u =>
      simp only [Repertoire.register?, hfree] at h
      cases h
    | none =>
      simp only [Repertoire.register?, hfree] at h
      obtain ⟨hunits, hfound⟩ := ih h
      refine ⟨by rw [hunits, append_assoc]; rfl, ?_⟩
      rw [forall_mem_cons]
      refine ⟨?_, hfound⟩
      rw [Repertoire.unit?] at hfree ⊢
      rw [hunits, append_assoc, find?_append, hfree]
      simp

/-! ### Compilation -/

theorem Build.of_ok {l : Linkage} {u : CheckedUnit} {i : Instrument} {b : Build}
    (h : Build.of l false u i = .ok b) (hclean : b.errors = []) :
    u.errors = [] ∧ ∃ code, i.generate l u = .ok code ∧ b.code = some (.ok code) := by
  rw [Build.errors, append_eq_nil_iff, map_eq_nil_iff] at hclean
  rw [Build.of, Bool.or_false] at h
  split at h
  next hempty =>
    refine ⟨isEmpty_iff.1 hempty, ?_⟩
    split at h
    next code hcode =>
      cases h
      exact ⟨code, hcode, rfl⟩
    next =>
      cases h
      exact absurd hclean.2 (by simp)
    next => cases h
    next => cases h
  next hnonempty =>
    cases h
    exact absurd (isEmpty_iff.2 hclean.1) hnonempty

theorem Build.exists_codes {l : Linkage} {ps : List (CheckedUnit × Instrument)}
    {builds : List Build} (h : List.Forall₂ (fun p b => Build.of l false p.1 p.2 = .ok b) ps builds)
    (hclean : ∀ b ∈ builds, b.errors = []) :
    ∃ codes, List.Forall₂ (fun b code => b.code = some (.ok code)) builds codes ∧
      List.Forall₂ (fun p code => p.1.errors = [] ∧ p.2.generate l p.1 = .ok code) ps codes := by
  induction h with
  | nil => exact ⟨[], .nil, .nil⟩
  | @cons p b ps builds hb _ ih =>
    rw [forall_mem_cons] at hclean
    obtain ⟨codes, hcodes, hparts⟩ := ih hclean.2
    obtain ⟨herrors, code, hcode, hbcode⟩ := Build.of_ok hb hclean.1
    exact ⟨code :: codes, .cons hbcode hcodes, .cons ⟨herrors, hcode⟩ hparts⟩

theorem Compilation.build_ok {checked : CheckedOrchestra} {settings : Settings} {c : Compilation}
    (h : Compilation.build checked false settings = .ok c) (hclean : c.errors = []) :
    c.settings = settings ∧ c.linkage = .of settings checked.global.locals ∧
      (∀ u i, (u, i) ∈ checked.parts → u.errors = [] ∧
        ∃ code, i.generate c.linkage u = .ok code ∧ c.repertoire.unit? code.ident = some code) ∧
      ∀ code ∈ c.repertoire.units, ∃ u i, (u, i) ∈ checked.parts ∧
        i.generate c.linkage u = .ok code := by
  obtain ⟨builds, hbuilds, h⟩ := exists_of_bind_eq_ok h
  cases h
  rw [Compilation.errors, append_eq_nil_iff, append_eq_nil_iff, map_eq_nil_iff,
    flatMap_eq_nil_iff] at hclean
  obtain ⟨⟨hbuildsClean, htaken⟩, -⟩ := hclean
  obtain ⟨codes, hcodes, hparts⟩ :=
    Build.exists_codes (forall₂_of_mapM_eq_ok hbuilds) hbuildsClean
  obtain ⟨hunits, hfound⟩ := Compilation.register_ok hcodes (Prod.ext rfl htaken)
  refine ⟨rfl, rfl, fun u i hui => ?_, fun code hcode => ?_⟩
  · obtain ⟨code, hcode, herrors, hgenerate⟩ := exists_mem_of_forall₂ hparts hui
    exact ⟨herrors, code, hgenerate, hfound code hcode⟩
  · rw [hunits] at hcode
    obtain ⟨⟨u, i⟩, hui, -, hgenerate⟩ := exists_mem_of_forall₂ hparts.flip hcode
    exact ⟨u, i, hui, hgenerate⟩

/-- An orchestra that can be played, and the checks of its text: every instrument and template is
sound and free of complaints, its unit is found under its name, and there are no other units. -/
structure Orchestra.Compiled (o : Orchestra) (checked : CheckedOrchestra) : Prop where
  members : checked.parts.map Prod.snd =
    checked.sections.instruments ++ checked.sections.templates
  settings : checked.settings = .ok o.settings
  valid : o.settings.Valid
  store : o.store = .ofTable checked.global.locals
  globals : checked.global.locals.Aligned
  clean : ∀ u i, (u, i) ∈ checked.parts → u.errors = []
  unit : ∀ u i, (u, i) ∈ checked.parts → CheckedUnit.Sound i u.locals ∧
    ∃ code, i.generate (.of o.settings checked.global.locals) u = .ok code ∧
      o.repertoire.unit? i.ident = some code
  units : ∀ code ∈ o.repertoire.units, ∃ u i, (u, i) ∈ checked.parts ∧
    i.generate (.of o.settings checked.global.locals) u = .ok code

theorem Compilation.ofTree_ok {tree : OrchestraTree} {c : Compilation}
    (h : Compilation.ofTree tree false = .ok (.ok c)) :
    ∃ checked settings, CheckedOrchestra.ofTree tree = .ok checked ∧
      checked.settings = .ok settings ∧ Compilation.build checked false settings = .ok c ∧
      (Compilation.groundErrors checked).all List.isEmpty = true := by
  rw [Compilation.ofTree] at h
  split at h
  next checked htree =>
    simp only [pure_bind] at h
    split at h
    next _ _ settings hsettings hground =>
      obtain ⟨c', hc', h⟩ := exists_of_bind_eq_ok h
      cases h
      exact ⟨checked, settings, htree, hsettings, hc', hground⟩
    next => cases h
  next => cases h

theorem Orchestra.compile_ok {source : Text} {o : Orchestra}
    (h : Orchestra.compile source = .ok o) :
    ∃ checked, CheckedOrchestra.ofText? source = some checked ∧ o.Compiled checked := by
  rw [Orchestra.compile] at h
  split at h
  next tree hparse =>
    simp only [pure_bind] at h
    split at h
    · cases h
    · cases h
    next c hc =>
      split at h
      next hclean =>
        cases h
        obtain ⟨checked, settings, hchecked, hsettings, hbuild, -⟩ := Compilation.ofTree_ok hc
        obtain ⟨hresolve, hmembers, hsound⟩ := CheckedOrchestra.ofTree_ok hchecked
        obtain ⟨hset, hlinkage, hunit, hunits⟩ :=
          Compilation.build_ok hbuild (isEmpty_iff.1 hclean)
        refine ⟨checked, ?_, hmembers, ?_, ?_, ?_, (CheckedOrchestra.ofTree_parts hchecked).2.1,
          fun u i hui => (hunit u i hui).1, fun u i hui => ?_, ?_⟩
        · exact CheckedOrchestra.ofText?_eq_some_iff.2 ⟨tree, hparse, hchecked⟩
        · rw [hsettings, hset]
        · rw [hset]
          exact Settings.resolve_ok (hresolve ▸ hsettings)
        · rw [hlinkage, Linkage.of]
        · obtain ⟨herrors, code, hgenerate, hfound⟩ := hunit u i hui
          have hfits := hsound u i hui herrors
          rw [hlinkage, ← hset] at hgenerate
          refine ⟨hfits, code, hgenerate, ?_⟩
          rw [← (Instrument.generate_ok hfits.calls hgenerate).ident, hfound]
        · rw [hlinkage, ← hset] at hunits
          exact hunits
      next => cases h
  next => cases h

end Orchestrion
