import Mathlib.Data.List.Perm.Subperm
import Orchestrion.Proofs.Breakdown

/-!
# Units that compile separately

What a unit of an orchestra is checked against are the global variables, the run-time parameters and
the kinds of the opcodes. The global blocks and the opcodes of an orchestra make its ground. Of
orchestras with the same ground, the units that both have are checked with the same result and get
the same code, whatever other instruments and templates there are and in whatever order they stand.
-/

namespace Orchestrion

open List

variable {items : List Item} {i : Instrument} {u : CheckedUnit} {item : Item} {l : Linkage}
  {ε α β : Type} {f : α → Except ε β} {xs : List α} {ys : List β}

/-! ### Items of different names -/

def Item.name? (item : Item) : Option Text := item.declared?.map Prod.snd

def Item.isPlayable : Item → Bool
  | instrument _ | template _ => true
  | global _ | opcode _ => false

namespace OrchestraTree

def Distinct (o : OrchestraTree) : Prop := (o.items.filterMap Item.name?).Nodup

instance (o : OrchestraTree) : Decidable o.Distinct := inferInstanceAs (Decidable (List.Nodup _))

/-- An orchestra with the same global blocks and opcodes as another, and with some of its
instruments and templates in any order. -/
structure Rearranges (o' o : OrchestraTree) : Prop where
  ground : o'.items.filter (fun item => !item.isPlayable) =
    o.items.filter fun item => !item.isPlayable
  playable : (o'.items.filter Item.isPlayable).Subperm (o.items.filter Item.isPlayable)

theorem Rearranges.subperm {o' o : OrchestraTree} (h : o'.Rearranges o) :
    o'.items.Subperm o.items := by
  have hsplit := h.playable.append (List.Perm.of_eq h.ground).subperm
  have hperm' := filter_append_perm Item.isPlayable o'.items
  have hperm := filter_append_perm Item.isPlayable o.items
  exact hperm'.symm.subperm.trans (hsplit.trans hperm.subperm)

theorem Distinct.of_rearranges {o' o : OrchestraTree} (h : o.Distinct)
    (hrearranges : o'.Rearranges o) : o'.Distinct := by
  obtain ⟨items, hperm, hsub⟩ := hrearranges.subperm
  have hnames : (items.filterMap Item.name?).Nodup := (hsub.filterMap Item.name?).nodup h
  exact (hperm.filterMap Item.name?).nodup_iff.1 hnames

theorem Distinct.eq_of_name? {o : OrchestraTree} (h : o.Distinct) {a b : Item} {name : Text}
    (ha : a ∈ o.items) (hb : b ∈ o.items) (haname : a.name? = some name)
    (hbname : b.name? = some name) : a = b := by
  by_contra hne
  have hsymm : Std.Symm fun a b : Item => ∀ x, a.name? = some x → ∀ y, b.name? = some y → x ≠ y :=
    ⟨fun _ _ hxy x hx y hy => (hxy y hy x hx).symm⟩
  exact (pairwise_filterMap.1 h).forall ha hb hne name haname name hbname rfl

end OrchestraTree

theorem claimsFrom_distinct {seen : List (Text × Keyword)}
    (hnodup : (items.filterMap Item.name?).Nodup)
    (hfree : ∀ name ∈ items.filterMap Item.name?, seen.lookup name = none) :
    claimsFrom seen items = items.map fun item => ⟨item, none⟩ := by
  induction items generalizing seen with
  | nil => rfl
  | cons item items ih =>
    rw [claimsFrom, map_cons]
    cases hdeclared : item.declared? with
    | none =>
      rw [filterMap_cons_none (by rw [Item.name?, hdeclared]; rfl)] at hnodup hfree
      rw [ih hnodup hfree]
    | some declared =>
      obtain ⟨keyword, name⟩ := declared
      rw [filterMap_cons_some (by rw [Item.name?, hdeclared]; rfl)] at hnodup hfree
      rw [nodup_cons] at hnodup
      rw [forall_mem_cons] at hfree
      simp only [hfree.1]
      rw [ih hnodup.2]
      intro later hlater
      have hne : (later == name) = false := by
        rw [beq_eq_false_iff_ne]
        rintro rfl
        exact hnodup.1 hlater
      rw [lookup_cons, hne]
      exact hfree.2 later hlater

def Item.instrument? : Item → Option Instrument
  | instrument i => some i
  | _ => none

def Item.template? : Item → Option Instrument
  | template t => some t
  | _ => none

def Item.opcode? : Item → Option Opcode
  | opcode o => some o
  | _ => none

theorem Item.instrument?_eq_some : item.instrument? = some i ↔ item = .instrument i := by
  cases item <;> simp [instrument?]

theorem Item.template?_eq_some : item.template? = some i ↔ item = .template i := by
  cases item <;> simp [template?]

theorem OrchestraTree.Distinct.sections_eq {o : OrchestraTree} (h : o.Distinct) :
    o.sections = ⟨Sections.mergeGlobal o.items, o.items.filterMap Item.instrument?,
      o.items.filterMap Item.opcode?, o.items.filterMap Item.template?, []⟩ := by
  have hclaims : o.claims = o.items.map fun item => ⟨item, none⟩ :=
    claimsFrom_distinct h fun _ _ => rfl
  have hkept : (o.claims.filter Claim.isKept).map Claim.item = o.items := by
    rw [hclaims, filter_map, map_map]
    simp [Function.comp_def, Claim.isKept]
  have herrors : o.claims.filterMap Claim.diagnostic? = [] := by
    rw [hclaims, filterMap_map]
    simp [Function.comp_def, Claim.diagnostic?]
  rw [OrchestraTree.sections, Sections.ofClaims, hkept, herrors]
  congr

/-! ### What becomes of a unit -/

/-- What becomes of a unit. -/
structure Outcome where
  checked : CheckedUnit
  /-- What the generation of code gives; there is none for an opcode. -/
  code : Option (Except EmitFault CompiledUnit)

/-- What is wrong with a unit: the complaints of its check or, if there are none, that its code
cannot be generated. -/
def Outcome.errors (x : Outcome) : List CompileError :=
  match x.checked.errors, x.code with
  | [], some (.error (.unsupported reason)) => [.unsupported reason]
  | es, _ => es.map .diagnostic

def Surroundings.outcome? (s : Surroundings) (l : Linkage) : Item → Option Outcome
  | .global _ => none
  | .instrument i => (CheckedUnit.ofInstrument s .instr i).toOption.map fun u =>
    ⟨u, some (i.generate l u)⟩
  | .template t => (CheckedUnit.ofInstrument s .template t).toOption.map fun u =>
    ⟨u, some (t.generate l u)⟩
  | .opcode o => (CheckedUnit.ofOpcode s o).toOption.map fun u => ⟨u, none⟩

namespace CheckedOrchestra

/-- What becomes of the units of an orchestra: of the instruments, then of the templates, then of
the opcodes. -/
def outcomes (o : CheckedOrchestra) (settings : Settings) : List Outcome :=
  o.parts.map (fun p => ⟨p.1, some (p.2.generate (.of settings o.global.locals) p.1)⟩) ++
    o.opcodes.map fun u => ⟨u, none⟩

def outcome? (o : CheckedOrchestra) (settings : Settings) (label : UnitLabel) : Option Outcome :=
  (o.outcomes settings).find? fun x => x.checked.label = label

end CheckedOrchestra

theorem Surroundings.exists_outcome? (s : Surroundings) (l : Linkage) {keyword : Keyword}
    {name : Text} (h : item.declared? = some (keyword, name)) :
    ∃ x, s.outcome? l item = some x ∧ x.checked.label = .named keyword name := by
  cases item with
  | global b => cases h
  | instrument i =>
    cases h
    obtain ⟨u, hu, -⟩ := CheckedUnit.ofInstrument_spec s .instr i
    exact ⟨⟨u, some (i.generate l u)⟩, by rw [outcome?, hu]; rfl, CheckedUnit.label_of_ofCheck hu⟩
  | opcode o =>
    cases h
    obtain ⟨u, hu⟩ := CheckedUnit.exists_ofOpcode s o
    exact ⟨⟨u, none⟩, by rw [outcome?, hu]; rfl, CheckedUnit.label_of_ofCheck hu⟩
  | template t =>
    cases h
    obtain ⟨u, hu, -⟩ := CheckedUnit.ofInstrument_spec s .template t
    exact ⟨⟨u, some (t.generate l u)⟩, by rw [outcome?, hu]; rfl, CheckedUnit.label_of_ofCheck hu⟩

theorem Surroundings.declared_of_outcome? {s : Surroundings} {x : Outcome}
    (h : s.outcome? l item = some x) :
    ∃ keyword name, item.declared? = some (keyword, name) ∧
      x.checked.label = .named keyword name := by
  cases hdeclared : item.declared? with
  | none =>
    cases item with
    | global b => cases h
    | instrument | opcode | template => cases hdeclared
  | some declared =>
    obtain ⟨keyword, name⟩ := declared
    obtain ⟨y, hy, hlabel⟩ := s.exists_outcome? l hdeclared
    rw [h] at hy
    cases hy
    exact ⟨keyword, name, rfl, hlabel⟩

theorem map_zip_of_forall₂ {γ : Type} (g : β → α → γ)
    (h : List.Forall₂ (fun x y => f x = .ok y) xs ys) :
    (ys.zip xs).map (fun p => g p.1 p.2) = xs.filterMap fun x => (f x).toOption.map (g · x) := by
  induction h with
  | nil => rfl
  | @cons x y xs ys hxy _ ih =>
    rw [zip_cons_cons, map_cons, ih, filterMap_cons_some]
    rw [hxy]
    rfl

theorem map_of_forall₂ {γ : Type} (g : β → γ) (h : List.Forall₂ (fun x y => f x = .ok y) xs ys) :
    ys.map g = xs.filterMap fun x => (f x).toOption.map g := by
  have hfst : (ys.zip xs).map Prod.fst = ys := map_fst_zip h.length_eq.ge
  calc ys.map g
    _ = ((ys.zip xs).map Prod.fst).map g := by rw [hfst]
    _ = (ys.zip xs).map fun p => g p.1 := map_map
    _ = _ := map_zip_of_forall₂ (fun y _ => g y) h

theorem mem_zip_iff_of_forall₂ (h : List.Forall₂ (fun x y => f x = .ok y) xs ys) {x : α} {y : β} :
    (y, x) ∈ ys.zip xs ↔ x ∈ xs ∧ f x = .ok y := by
  induction h with
  | nil => simp
  | @cons x' y' xs ys hxy _ ih =>
    rw [zip_cons_cons, mem_cons, mem_cons, ih, Prod.mk.injEq]
    constructor
    · rintro (⟨rfl, rfl⟩ | ⟨hx, hy⟩)
      · exact ⟨.inl rfl, hxy⟩
      · exact ⟨.inr hx, hy⟩
    · rintro ⟨rfl | hx, hy⟩
      · exact .inl ⟨Except.ok.inj (hy.symm.trans hxy), rfl⟩
      · exact .inr ⟨hx, hy⟩

/-- The items of an orchestra in the order instruments, templates, opcodes. -/
def OrchestraTree.units (o : OrchestraTree) : List Item :=
  (o.items.filterMap Item.instrument?).map .instrument ++
    (o.items.filterMap Item.template?).map .template ++ (o.items.filterMap Item.opcode?).map .opcode

theorem OrchestraTree.units_perm (o : OrchestraTree) :
    o.units.Perm (o.items.filter fun item => item.declared?.isSome) := by
  obtain ⟨span, items⟩ := o
  induction items with
  | nil => exact .nil
  | cons item items ih =>
    cases item with
    | global b => exact ih
    | instrument i => exact .cons _ ih
    | opcode c => exact perm_middle.trans (.cons _ ih)
    | template t => exact (perm_middle.append_right _).trans (.cons _ ih)

theorem OrchestraTree.mem_units_iff {o : OrchestraTree} :
    item ∈ o.units ↔ item ∈ o.items ∧ item.declared?.isSome = true :=
  o.units_perm.mem_iff.trans mem_filter

section Checks

variable {tree : OrchestraTree} {checked : CheckedOrchestra}

variable (h : checked.Checks tree)

include h

theorem CheckedOrchestra.Checks.mem_parts_iff (hdistinct : tree.Distinct)
    {u : CheckedUnit} {i : Instrument} : (u, i) ∈ checked.parts ↔
      .instrument i ∈ tree.items ∧ CheckedUnit.ofInstrument checked.surroundings .instr i = .ok u ∨
      .template i ∈ tree.items ∧
        CheckedUnit.ofInstrument checked.surroundings .template i = .ok u := by
  rw [parts, mem_append, mem_zip_iff_of_forall₂ h.instruments,
    mem_zip_iff_of_forall₂ h.templates, h.sections, hdistinct.sections_eq]
  simp only [mem_filterMap, Item.instrument?_eq_some, Item.template?_eq_some, exists_eq_right]

theorem CheckedOrchestra.Checks.outcomes_eq (hdistinct : tree.Distinct)
    (settings : Settings) : checked.outcomes settings =
      tree.units.filterMap
        (checked.surroundings.outcome? (.of settings checked.global.locals)) := by
  have hinstruments := map_zip_of_forall₂
    (fun u i => Outcome.mk u (some (i.generate (.of settings checked.global.locals) u)))
    h.instruments
  have htemplates := map_zip_of_forall₂
    (fun u i => Outcome.mk u (some (i.generate (.of settings checked.global.locals) u)))
    h.templates
  have hopcodes := map_of_forall₂ (fun u => Outcome.mk u none) h.opcodes
  rw [outcomes, parts, map_append, hinstruments, htemplates, hopcodes, h.sections,
    hdistinct.sections_eq]
  simp only [OrchestraTree.units, filterMap_append, filterMap_map]
  rfl

theorem CheckedOrchestra.Checks.mem_outcomes_iff
    (hdistinct : tree.Distinct)
    (settings : Settings) {x : Outcome} : x ∈ checked.outcomes settings ↔ ∃ item ∈ tree.items,
      checked.surroundings.outcome? (.of settings checked.global.locals) item = some x := by
  rw [h.outcomes_eq hdistinct, mem_filterMap]
  constructor
  · rintro ⟨item, hitem, hx⟩
    exact ⟨item, (OrchestraTree.mem_units_iff.1 hitem).1, hx⟩
  · rintro ⟨item, hitem, hx⟩
    obtain ⟨keyword, name, hdeclared, -⟩ := Surroundings.declared_of_outcome? hx
    exact ⟨item, OrchestraTree.mem_units_iff.2 ⟨hitem, by rw [hdeclared]; rfl⟩, hx⟩

theorem CheckedOrchestra.Checks.outcome?_eq (hdistinct : tree.Distinct)
    (settings : Settings) {x : Outcome} (hx : x ∈ checked.outcomes settings) :
    checked.outcome? settings x.checked.label = some x := by
  unfold CheckedOrchestra.outcome?
  cases hfind : (checked.outcomes settings).find? fun y => y.checked.label = x.checked.label with
  | none => simpa using find?_eq_none.1 hfind x hx
  | some y =>
    have hlabel : y.checked.label = x.checked.label := by simpa using find?_some hfind
    -- Both are outcomes of items that declare the same name, and there is only one such item.
    obtain ⟨a, ha, hax⟩ := (h.mem_outcomes_iff hdistinct settings).1 hx
    obtain ⟨b, hb, hby⟩ :=
      (h.mem_outcomes_iff hdistinct settings).1 (mem_of_find?_eq_some hfind)
    obtain ⟨keyword, name, hadeclared, halabel⟩ := Surroundings.declared_of_outcome? hax
    obtain ⟨keyword', name', hbdeclared, hblabel⟩ := Surroundings.declared_of_outcome? hby
    rw [halabel, hblabel] at hlabel
    cases hlabel
    have haname : a.name? = some name := by rw [Item.name?, hadeclared]; rfl
    have hbname : b.name? = some name := by rw [Item.name?, hbdeclared]; rfl
    obtain rfl := hdistinct.eq_of_name? hb ha hbname haname
    exact hby.symm.trans hax

end Checks

/-! ### Orchestras on the same ground -/

namespace OrchestraTree

variable {checked' checked : CheckedOrchestra}

variable {tree' tree : OrchestraTree}

variable (h : tree'.Rearranges tree)

include h

theorem Rearranges.filterMap_eq {α : Type} {f : Item → Option α}
    (hf : ∀ i, f (.instrument i) = none ∧ f (.template i) = none) :
    tree'.items.filterMap f = tree.items.filterMap f := by
  have hground (items : List Item) :
      items.filterMap f = (items.filter fun item => !item.isPlayable).filterMap f := by
    rw [filterMap_filter]
    refine filterMap_congr fun item _ => ?_
    cases item with
    | instrument i => exact (hf i).1
    | template t => exact (hf t).2
    | global | opcode => rfl
  rw [hground, hground tree.items, h.ground]

theorem Rearranges.sections_eq (hdistinct : tree.Distinct) :
    tree'.sections.global = tree.sections.global ∧
      tree'.sections.opcodes = tree.sections.opcodes := by
  rw [hdistinct.sections_eq, (hdistinct.of_rearranges h).sections_eq]
  have hblocks : Sections.globalBlocks tree'.items = Sections.globalBlocks tree.items :=
    h.filterMap_eq fun _ => ⟨rfl, rfl⟩
  refine ⟨?_, h.filterMap_eq fun _ => ⟨rfl, rfl⟩⟩
  dsimp only [Sections.mergeGlobal]
  rw [hblocks]

theorem Rearranges.checks_eq (hdistinct : tree.Distinct)
    (hchecks' : checked'.Checks tree') (hchecks : checked.Checks tree) :
    checked'.settings = checked.settings ∧ checked'.global = checked.global ∧
      checked'.surroundings = checked.surroundings := by
  obtain ⟨hglobal, hopcodes⟩ := h.sections_eq hdistinct
  have hsettings : checked'.settings = checked.settings := by
    rw [hchecks'.settings, hchecks.settings, hglobal]
  have hunit : checked'.global = checked.global := by
    have hok := hchecks'.global
    rw [hglobal, hchecks.global] at hok
    exact (Except.ok.inj hok).symm
  refine ⟨hsettings, hunit, ?_⟩
  simp only [CheckedOrchestra.surroundings, Surroundings.ofSections, hsettings, hunit,
    hchecks'.sections, hchecks.sections, hopcodes]

theorem Rearranges.mem_parts (hdistinct : tree.Distinct)
    (hchecks' : checked'.Checks tree') (hchecks : checked.Checks tree) {u : CheckedUnit}
    {i : Instrument} (hui : (u, i) ∈ checked'.parts) : (u, i) ∈ checked.parts := by
  obtain ⟨-, -, hsurroundings⟩ := h.checks_eq hdistinct hchecks' hchecks
  rw [hchecks'.mem_parts_iff (hdistinct.of_rearranges h), hsurroundings] at hui
  rw [hchecks.mem_parts_iff hdistinct]
  rcases hui with ⟨hi, hu⟩ | ⟨hi, hu⟩
  · exact .inl ⟨h.subperm.subset hi, hu⟩
  · exact .inr ⟨h.subperm.subset hi, hu⟩

theorem Rearranges.outcome?_eq (hdistinct : tree.Distinct)
    (hchecks' : checked'.Checks tree') (hchecks : checked.Checks tree) (settings : Settings)
    {item : Item} (hitem : item ∈ tree'.items) {keyword : Keyword} {name : Text}
    (hdeclared : item.declared? = some (keyword, name)) :
    ∃ x, checked.outcome? settings (.named keyword name) = some x ∧
      checked'.outcome? settings (.named keyword name) = some x := by
  have hdistinct' := hdistinct.of_rearranges h
  obtain ⟨-, hglobal, hsurroundings⟩ := h.checks_eq hdistinct hchecks' hchecks
  obtain ⟨x, hx, hlabel⟩ := checked.surroundings.exists_outcome?
    (.of settings checked.global.locals) hdeclared
  have hmem : x ∈ checked.outcomes settings :=
    (hchecks.mem_outcomes_iff hdistinct settings).2 ⟨item, h.subperm.subset hitem, hx⟩
  have hmem' : x ∈ checked'.outcomes settings := by
    refine (hchecks'.mem_outcomes_iff hdistinct' settings).2 ⟨item, hitem, ?_⟩
    rw [hsurroundings, hglobal, hx]
  rw [← hlabel]
  exact ⟨x, hchecks.outcome?_eq hdistinct settings hmem,
    hchecks'.outcome?_eq hdistinct' settings hmem'⟩

end OrchestraTree

/-! ### Texts that are refused -/

/-- The name under which a unit is registered. -/
def Build.ident? (b : Build) : Option Text :=
  match b.code with
  | some (.ok u) => some u.ident
  | _ => none

theorem Compilation.register_distinct {builds : List Build} {r : Repertoire}
    (hnodup : (builds.filterMap Build.ident?).Nodup)
    (hfree : ∀ name ∈ builds.filterMap Build.ident?, r.unit? name = none) :
    (Compilation.register r builds).2 = [] := by
  induction builds generalizing r with
  | nil => rfl
  | cons b builds ih =>
    obtain ⟨checked, _ | _ | u⟩ := b
    · exact ih hnodup hfree
    · exact ih hnodup hfree
    · have hident : Build.ident? ⟨checked, some (.ok u)⟩ = some u.ident := rfl
      rw [filterMap_cons_some hident] at hnodup hfree
      rw [nodup_cons] at hnodup
      rw [forall_mem_cons] at hfree
      simp only [Compilation.register, Repertoire.register?, hfree.1]
      refine ih hnodup.2 fun name hname => ?_
      have hne : u.ident ≠ name := by
        rintro rfl
        exact hnodup.1 hname
      have hold := hfree.2 name hname
      simp only [Repertoire.unit?, find?_append] at hold ⊢
      simp [hold, hne]

theorem Instrument.ident_of_generate {code : CompiledUnit} (h : i.generate l u = .ok code) :
    code.ident = i.ident := by
  rw [Instrument.generate] at h
  dsimp only at h
  split at h
  · cases h
  · obtain ⟨emitted, -, h⟩ := exists_of_bind_eq_ok h
    cases h
    rfl

theorem Build.of_outcome {b : Build} (h : Build.of l false u i = .ok b) :
    b.errors = Outcome.errors ⟨u, some (i.generate l u)⟩ ∧
      ∀ name, b.ident? = some name → name = i.ident := by
  rw [Build.of, Bool.or_false] at h
  split at h
  next hempty =>
    rw [List.isEmpty_iff] at hempty
    split at h
    next code hcode =>
      cases h
      refine ⟨by simp only [Build.errors, Outcome.errors, hempty, hcode]; rfl, ?_⟩
      rintro name ⟨⟩
      exact Instrument.ident_of_generate hcode
    next reason hcode =>
      cases h
      refine ⟨?_, by simp [Build.ident?]⟩
      simp only [Build.errors, Outcome.errors, hempty, hcode]
      rfl
    next => cases h
    next => cases h
  next hnonempty =>
    cases h
    refine ⟨?_, by simp [Build.ident?]⟩
    cases herrors : u.errors with
    | nil => exact absurd (by rw [herrors]; rfl) hnonempty
    | cons e es => simp only [Build.errors, Outcome.errors, herrors, append_nil]

theorem Build.all_of_outcomes {ps : List (CheckedUnit × Instrument)} {builds : List Build}
    (h : List.Forall₂ (fun p b => Build.of l false p.1 p.2 = .ok b) ps builds) :
    builds.flatMap Build.errors =
    ps.flatMap (fun p => Outcome.errors ⟨p.1, some (p.2.generate l p.1)⟩) ∧
      (builds.filterMap Build.ident?).Sublist (ps.map fun p => p.2.ident) := by
  induction h with
  | nil => exact ⟨rfl, .slnil⟩
  | @cons p b ps builds hb _ ih =>
    obtain ⟨herrors, hidents⟩ := ih
    obtain ⟨hown, hname⟩ := Build.of_outcome hb
    refine ⟨by rw [flatMap_cons, flatMap_cons, hown, herrors], ?_⟩
    cases hident : b.ident? with
    | none =>
      rw [filterMap_cons_none hident]
      exact hidents.cons _
    | some name =>
      rw [filterMap_cons_some hident, hname name hident]
      exact hidents.cons_cons _

section Distinct

variable {tree : OrchestraTree} {checked : CheckedOrchestra}

theorem OrchestraTree.Distinct.nodup_names (h : tree.Distinct) :
    ((tree.items.filterMap Item.instrument? ++ tree.items.filterMap Item.template?).map
      Instrument.ident ++
      (tree.items.filterMap Item.opcode?).map Opcode.ident).Nodup := by
  have hall : (tree.items.filter fun item => item.declared?.isSome).filterMap Item.name? =
      tree.items.filterMap Item.name? := by
    rw [filterMap_filter]
    refine filterMap_congr fun item _ => ?_
    cases hdeclared : item.declared? <;> simp [Item.name?, hdeclared]
  have hunits : (tree.units.filterMap Item.name?).Nodup := by
    rw [(tree.units_perm.filterMap Item.name?).nodup_iff, hall]
    exact h
  have hsome {α : Type} (f : α → Text) (xs : List α) : xs.filterMap (some ∘ f) = xs.map f :=
    congrFun filterMap_eq_map xs
  rw [map_append, ← hsome, ← hsome, ← hsome]
  simp only [OrchestraTree.units, filterMap_append, filterMap_map] at hunits
  exact hunits

theorem OrchestraTree.Distinct.idents_eq (h : tree.Distinct)
    (hcheck : CheckedOrchestra.ofTree tree = .ok checked) : (checked.parts.map fun p => p.2.ident) =
      (tree.items.filterMap Item.instrument? ++ tree.items.filterMap Item.template?).map
        Instrument.ident := by
  obtain ⟨-, hparts, -⟩ := CheckedOrchestra.ofTree_ok hcheck
  rw [(CheckedOrchestra.checks_of_ofTree hcheck).sections, h.sections_eq] at hparts
  rw [← hparts, map_map]
  rfl

theorem OrchestraTree.Distinct.nodup_idents (h : tree.Distinct)
    (hcheck : CheckedOrchestra.ofTree tree = .ok checked) :
    (checked.parts.map fun p => p.2.ident).Nodup := by
  rw [h.idents_eq hcheck]
  exact h.nodup_names.of_append_left

end Distinct

/-- An orchestra whose units have different names, whose global section is valid and whose units
fit: the widths of their arrays and tables are words, and no unit is so large that a number in its
code is none. -/
structure OrchestraTree.Fits (tree : OrchestraTree) (checked : CheckedOrchestra)
    (settings : Settings) : Prop where
  distinct : tree.Distinct
  check : CheckedOrchestra.ofTree tree = .ok checked
  resolved : checked.settings = .ok settings
  global : checked.global.errors = []
  widths : ∀ u i, (u, i) ∈ checked.parts →
    ∀ e ∈ u.locals.entries, e.array = true → e.width.resolve settings ≤ Emit.greatest
  small : ∀ u i, (u, i) ∈ checked.parts →
    i.weight u.locals (.ofTable checked.global.locals) ≤ Emit.greatest

namespace OrchestraTree.Fits

variable {tree : OrchestraTree} {checked : CheckedOrchestra} {settings : Settings}

theorem clean (h : tree.Fits checked settings) :
    (Compilation.groundErrors checked).all List.isEmpty = true := by
  have hsections : checked.sections.errors = [] := by
    rw [(CheckedOrchestra.checks_of_ofTree h.check).sections, h.distinct.sections_eq]
  simp only [Compilation.groundErrors, h.resolved, hsections, h.global]
  rfl

theorem exists_builds (h : tree.Fits checked settings) : ∃ builds,
    checked.parts.mapM (fun p => Build.of (.of settings checked.global.locals) false p.1 p.2) =
      .ok builds := by
  obtain ⟨hresolve, -, hsound⟩ := CheckedOrchestra.ofTree_ok h.check
  have hvalid : settings.Valid := Settings.resolve_ok (hresolve ▸ h.resolved)
  cases hbuilds : checked.parts.mapM
      fun p => Build.of (.of settings checked.global.locals) false p.1 p.2 with
  | ok builds => exact ⟨builds, rfl⟩
  | error b =>
    obtain ⟨⟨u, i⟩, hui, hbroken⟩ := exists_of_mapM_eq_error hbuilds
    have hbuild : Build.of (.of settings checked.global.locals) false u i = .error b := hbroken
    obtain ⟨-, -, ⟨-, e, he, harray, hwide⟩ | hlarge⟩ :=
      Build.of_error hvalid (StoreLayout.below_ofTable _) (hsound u i hui) hbuild
    · exact absurd (h.widths u i hui e he harray) (Int.not_le.2 hwide)
    · exact absurd (h.small u i hui) (Nat.not_le.2 hlarge)

theorem exists_ofTree (h : tree.Fits checked settings) : ∃ c,
    Compilation.ofTree tree false = .ok (.ok c) ∧
      c.errors = (checked.outcomes settings).flatMap Outcome.errors := by
  obtain ⟨builds, hbuilds⟩ := h.exists_builds
  obtain ⟨herrors, hidents⟩ := Build.all_of_outcomes (forall₂_of_mapM_eq_ok hbuilds)
  have htaken : (Compilation.register {} builds).2 = [] :=
    Compilation.register_distinct (hidents.nodup (h.distinct.nodup_idents h.check)) fun _ _ => rfl
  let c : Compilation :=
    { checked, settings, linkage := .of settings checked.global.locals, builds,
      repertoire := (Compilation.register {} builds).1,
      taken := (Compilation.register {} builds).2 }
  have hbuild : Compilation.build checked false settings = .ok c := by
    change (checked.parts.mapM _ >>= _) = _
    rw [hbuilds]
    rfl
  refine ⟨c, ?_, ?_⟩
  · simp only [Compilation.ofTree, h.check, pure_bind, h.resolved, h.clean, hbuild]
    rfl
  · calc c.errors
      _ = builds.flatMap Build.errors ++
          checked.opcodes.flatMap fun u => u.errors.map .diagnostic := by
        simp only [Compilation.errors, c, htaken, map_nil, append_nil]
      _ = (checked.outcomes settings).flatMap Outcome.errors := by
        rw [herrors, CheckedOrchestra.outcomes, flatMap_append, flatMap_map,
          flatMap_map]
        refine congrArg _ (flatMap_congr fun u _ => ?_)
        cases hu : u.errors <;> simp [Outcome.errors, hu]

theorem of_rearranges {tree' : OrchestraTree} {checked' : CheckedOrchestra}
    (h : tree.Fits checked settings) (hrearranges : tree'.Rearranges tree)
    (hchecked' : CheckedOrchestra.ofTree tree' = .ok checked') : tree'.Fits checked' settings := by
  have hchecks := CheckedOrchestra.checks_of_ofTree h.check
  have hchecks' := CheckedOrchestra.checks_of_ofTree hchecked'
  obtain ⟨hsettings, hglobal, -⟩ := hrearranges.checks_eq h.distinct hchecks' hchecks
  refine ⟨h.distinct.of_rearranges hrearranges, hchecked', hsettings.trans h.resolved,
    by rw [hglobal, h.global], fun u i hui => ?_, fun u i hui => ?_⟩
  · exact h.widths u i (hrearranges.mem_parts h.distinct hchecks' hchecks hui)
  · rw [hglobal]
    exact h.small u i (hrearranges.mem_parts h.distinct hchecks' hchecks hui)

theorem compile_eq (h : tree.Fits checked settings) {source : Text}
    (hparse : OrchestraTree.parse source = .ok tree) :
    ((∃ o, Orchestra.compile source = .ok o) ↔ ∀ x ∈ checked.outcomes settings, x.errors = []) ∧
      ((∃ x ∈ checked.outcomes settings, x.errors ≠ []) → Orchestra.compile source =
        .error (.errors ((checked.outcomes settings).flatMap Outcome.errors))) := by
  obtain ⟨c, hc, herrors⟩ := h.exists_ofTree
  rw [Orchestra.compile]
  simp only [hparse, pure_bind, hc]
  rw [← flatMap_eq_nil_iff, ← herrors]
  by_cases hclean : c.errors.isEmpty = true
  · rw [if_pos hclean]
    rw [List.isEmpty_iff] at hclean
    refine ⟨⟨fun _ => hclean, fun _ => ⟨_, rfl⟩⟩, ?_⟩
    rintro ⟨x, hx, hne⟩
    rw [herrors, flatMap_eq_nil_iff] at hclean
    exact absurd (hclean x hx) hne
  · rw [if_neg hclean]
    rw [List.isEmpty_iff] at hclean
    refine ⟨⟨?_, fun hnil => absurd hnil hclean⟩, fun _ => rfl⟩
    rintro ⟨o, hok⟩
    cases hok

end OrchestraTree.Fits

def Item.label? (item : Item) : Option UnitLabel :=
  item.declared?.map fun declared => .named declared.1 declared.2

theorem CheckedOrchestra.Checks.labels_eq {tree : OrchestraTree} {checked : CheckedOrchestra}
    (h : checked.Checks tree) (hdistinct : tree.Distinct) (settings : Settings) :
    (checked.outcomes settings).map (fun x => x.checked.label) =
    tree.units.filterMap Item.label? := by
  rw [h.outcomes_eq hdistinct, map_filterMap]
  refine filterMap_congr fun item hitem => ?_
  obtain ⟨⟨keyword, name⟩, hdeclared⟩ := Option.isSome_iff_exists.1
    (OrchestraTree.mem_units_iff.1 hitem).2
  obtain ⟨x, hx, hlabel⟩ := checked.surroundings.exists_outcome?
    (.of settings checked.global.locals) hdeclared
  rw [hx, Item.label?, hdeclared, Option.map_some, hlabel]
  rfl

/-- Units compile separately. However instruments and templates of an orchestra are deleted or
reordered, what becomes of each unit that stays is the same: its check, with all complaints, and the
unit or the reason that the generation of its code gives. And a text compiles if and only if nothing
is wrong with any of its units; otherwise it is refused with what is wrong with the instruments,
then the templates, then the opcodes. -/
theorem OrchestraTree.units_compile_separately {tree : OrchestraTree} {checked : CheckedOrchestra}
    {settings : Settings} (h : tree.Fits checked settings) :
    (∀ tree' : OrchestraTree, tree'.Rearranges tree → ∃ checked', tree'.Fits checked' settings ∧
      ∀ item ∈ tree'.items, ∀ label, item.label? = some label →
        ∃ x, checked.outcome? settings label = some x ∧
          checked'.outcome? settings label = some x) ∧
      (checked.outcomes settings).map (fun x => x.checked.label) =
        tree.units.filterMap Item.label? ∧
      ∀ source, OrchestraTree.parse source = .ok tree →
        ((∃ o, Orchestra.compile source = .ok o) ↔ ∀ x ∈ checked.outcomes settings, x.errors = []) ∧
        ((∃ x ∈ checked.outcomes settings, x.errors ≠ []) → Orchestra.compile source =
          .error (.errors ((checked.outcomes settings).flatMap Outcome.errors))) := by
  have hchecks := CheckedOrchestra.checks_of_ofTree h.check
  refine ⟨fun tree' hrearranges => ?_, hchecks.labels_eq h.distinct settings,
    fun source hparse => h.compile_eq hparse⟩
  obtain ⟨checked', hchecked'⟩ := CheckedOrchestra.exists_ofTree tree'
  refine ⟨checked', h.of_rearranges hrearranges hchecked', fun item hitem label hlabel => ?_⟩
  obtain ⟨⟨keyword, name⟩, hdeclared, rfl⟩ := Option.map_eq_some_iff.1 hlabel
  exact hrearranges.outcome?_eq h.distinct (CheckedOrchestra.checks_of_ofTree hchecked') hchecks
    settings hitem hdeclared

/-- The global blocks and opcodes of an orchestra, followed by its instruments and templates without
the last of them, in the opposite order. -/
def OrchestraTree.turned (o : OrchestraTree) : OrchestraTree :=
  ⟨o.span, o.items.filter (fun item => !item.isPlayable) ++
    (o.items.filter Item.isPlayable).reverse.tail⟩

theorem OrchestraTree.turned_rearranges (o : OrchestraTree) : o.turned.Rearranges o := by
  have htail : ∀ item ∈ (o.items.filter Item.isPlayable).reverse.tail, item.isPlayable = true := by
    intro item hitem
    have hmem := mem_reverse.1 (mem_of_mem_tail hitem)
    exact (mem_filter.1 hmem).2
  have hnone : (o.items.filter Item.isPlayable).reverse.tail.filter (fun item => !item.isPlayable) =
      [] := filter_eq_nil_iff.2 fun item hitem => by simp [htail item hitem]
  constructor
  · rw [turned, filter_append, filter_filter, hnone, append_nil]
    simp only [Bool.and_self]
  · rw [turned, filter_append, filter_filter, filter_eq_self.2 htail]
    simp only [Bool.and_not_self, filter_false, nil_append]
    exact (tail_sublist _).subperm.trans (reverse_perm _).subperm

/-- An orchestra with an instrument and a template that are right, and an instrument and an opcode
that are not. -/
def OrchestraTree.medley : Text :=
  "global \x7b ksig depth; table g(data, 2, 1, 2); \x7d " ++
  "instr a(n) \x7b ivar v[3]; ksig k; imports ksig depth; " ++
  "v[1] = n; k = depth * v[1]; output(k); \x7d " ++
  "instr b() \x7b ivar x; x = y; x = z; \x7d kopcode c(ksig p) \x7b return(q); \x7d " ++
  "template t(m) \x7b asig s; s = m + 1; output(s); \x7d"

theorem OrchestraTree.units_compile_separately_medley :
    ∃ (tree : OrchestraTree) (checked checked' : CheckedOrchestra) (settings : Settings),
      OrchestraTree.parse medley = .ok tree ∧ tree.Fits checked settings ∧
      tree.items.filterMap Item.name? = ["a", "b", "c", "t"] ∧
      tree.turned.items.filterMap Item.label? =
        [.named .kopcode "c", .named .instr "b", .named .instr "a"] ∧
      CheckedOrchestra.ofTree tree.turned = .ok checked' ∧
      (∃ x, checked.outcome? settings (.named .instr "a") = some x ∧
        checked'.outcome? settings (.named .instr "a") = some x) ∧
      Orchestra.compile medley =
        .error (.errors ((checked.outcomes settings).flatMap Outcome.errors)) := by
  have hfacts : (do
      let tree ← (OrchestraTree.parse medley).toOption
      let checked ← (CheckedOrchestra.ofTree tree).toOption
      let settings ← checked.settings.toOption
      let small := checked.parts.all fun p =>
        p.1.locals.entries.all (fun e => !e.array || e.width.resolve settings ≤ Emit.greatest) &&
          p.2.weight p.1.locals (.ofTable checked.global.locals) ≤ Emit.greatest
      let wrong := (checked.outcomes settings).any fun x => !x.errors.isEmpty
      some (decide tree.Distinct && checked.global.errors.isEmpty && small && wrong,
        tree.items.filterMap Item.name?, tree.turned.items.filterMap Item.label?)) =
      some (true, (["a", "b", "c", "t"] : List Text),
        [.named .kopcode "c", .named .instr "b", .named .instr "a"]) := by decide +kernel
  simp only [Option.bind_eq_bind, Option.bind_eq_some_iff, toOption_eq_some_iff, Option.some.injEq,
    Prod.mk.injEq, decide_eq_true_eq, List.all_eq_true, List.any_eq_true, Bool.and_eq_true,
    Bool.or_eq_true, Bool.not_eq_true', List.isEmpty_iff] at hfacts
  obtain ⟨tree, htree, checked, hchecked, settings, hsettings,
    ⟨⟨⟨hdistinct, hglobal⟩, hsmall⟩, x, hx, hwrong⟩, hnames, hlabels⟩ := hfacts
  have hfits : tree.Fits checked settings := by
    refine ⟨hdistinct, hchecked, hsettings, hglobal, fun u i hui e he harray => ?_,
      fun u i hui => (hsmall (u, i) hui).2⟩
    rcases (hsmall (u, i) hui).1 e he with hfalse | hwidth
    · rw [harray] at hfalse
      cases hfalse
    · exact hwidth
  obtain ⟨hseparate, -, hcompile⟩ := OrchestraTree.units_compile_separately hfits
  obtain ⟨checked', hfits', hsame⟩ := hseparate tree.turned tree.turned_rearranges
  obtain ⟨item, hitem, hlabel⟩ :
      ∃ item ∈ tree.turned.items, item.label? = some (.named .instr "a") := by
    rw [← List.mem_filterMap, hlabels]
    simp
  exact ⟨tree, checked, checked', settings, htree, hfits, hnames, hlabels, hfits'.check,
    hsame item hitem _ hlabel,
    (hcompile medley htree).2 ⟨x, hx, fun hnil => by simp [hnil] at hwrong⟩⟩

end Orchestrion
