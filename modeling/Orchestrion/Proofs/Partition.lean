import Mathlib.Data.List.Infix
import Orchestrion.Proofs.SeparateUnits

/-!
# Partition and registration

The items of an orchestra are sorted into sections, and the names of instruments, opcodes and
templates are kept apart. Nothing is lost and nothing is invented: all global blocks are joined,
every name keeps its first declaration, and there is one complaint for each later one. So names are
different by the time units are registered, and every unit can be.
-/

namespace Orchestrion

open List

/-- The keyword of the first declaration of a name. -/
def firstKeyword? (items : List Item) (name : Text) : Option Keyword :=
  ((items.filterMap Item.declared?).find? fun declared => declared.2 = name).map Prod.fst

/-- What an item adds to the global section. -/
def Item.globalItems : Item → List GlobalItem
  | global b => b.items
  | instrument _ | opcode _ | template _ => []

namespace OrchestraTree

variable {o : OrchestraTree}

/-- The items of an orchestra, each with those before it. -/
def inOrder (o : OrchestraTree) : List (Item × List Item) := o.items.zip o.items.inits

/-- The keyword of an earlier declaration of the name that an item declares. -/
def earlier? (p : Item × List Item) : Option Keyword := p.1.name?.bind (firstKeyword? p.2)

/-- The items that declare no name again. -/
def firsts (o : OrchestraTree) : List Item :=
  (o.inOrder.filter fun p => (earlier? p).isNone).map Prod.fst

/-- The complaint about an item that declares a name again. -/
def complaint? (p : Item × List Item) : Option Diagnostic := do
  let (keyword, name) ← p.1.declared?
  let first ← firstKeyword? p.2 name
  return .about p.1.node (.named keyword name) (.duplicateUnit first name)

/-! ### Claims -/

theorem claimsFrom_eq {seen : List (Text × Keyword)} {before : List Item}
    (hseen : ∀ name, seen.lookup name = firstKeyword? before name) (items : List Item) :
    claimsFrom seen items =
      (items.zip items.inits).map fun p => ⟨p.1, earlier? (p.1, before ++ p.2)⟩ := by
  induction items generalizing seen before with
  | nil => rfl
  | cons item items ih =>
    rw [inits_cons, zip_cons_cons, zip_map_right, map_cons, map_map,
      append_nil, claimsFrom]
    have hnext {seen' : List (Text × Keyword)}
        (hseen' : ∀ name, seen'.lookup name = firstKeyword? (before ++ [item]) name) :
        claimsFrom seen' items = (items.zip items.inits).map ((fun p : Item × List Item =>
          (⟨p.1, earlier? (p.1, before ++ p.2)⟩ : Claim)) ∘ Prod.map id (List.cons item)) := by
      rw [ih hseen']
      simp [Function.comp_def]
    have hfirst (name : Text) : firstKeyword? (before ++ [item]) name =
        (firstKeyword? before name).or (firstKeyword? [item] name) := by
      simp only [firstKeyword?, filterMap_append, find?_append, Option.map_or]
    cases hdeclared : item.declared? with
    | none =>
      have hnone : earlier? (item, before) = none := by rw [earlier?, Item.name?, hdeclared]; rfl
      rw [hnone]
      refine congrArg (List.cons _) (hnext fun name => ?_)
      simp [hseen, firstKeyword?, hdeclared]
    | some declared =>
      obtain ⟨keyword, name⟩ := declared
      have hearlier : earlier? (item, before) = seen.lookup name := by
        rw [earlier?, Item.name?, hdeclared, hseen]
        rfl
      have hone (other : Text) : firstKeyword? [item] other =
          if name = other then some keyword else none := by
        simp only [firstKeyword?, filterMap_cons, hdeclared, filterMap_nil,
          find?_cons]
        by_cases hname : name = other <;> simp [hname]
      rw [hearlier]
      cases hlookup : seen.lookup name with
      | some first =>
        -- The name is taken, and its first claim remains the first.
        simp only [hlookup]
        refine congrArg (List.cons _) (hnext fun other => ?_)
        rw [hfirst, hone]
        split
        next heq => rw [← heq, ← hseen, hlookup]; rfl
        next => rw [Option.or_none, hseen]
      | none =>
        simp only [hlookup]
        refine congrArg (List.cons _) (hnext fun other => ?_)
        rw [hfirst, hone, lookup_cons, hseen]
        by_cases heq : name = other
        · rw [← heq, ← hseen, hlookup]
          simp
        · rw [if_neg heq, beq_eq_false_iff_ne.2 (Ne.symm heq), Option.or_none]

theorem claims_eq (o : OrchestraTree) : o.claims = o.inOrder.map fun p => ⟨p.1, earlier? p⟩ :=
  have hnone (name : Text) : ([] : List (Text × Keyword)).lookup name = firstKeyword? [] name := rfl
  claimsFrom_eq hnone o.items

theorem kept_eq (o : OrchestraTree) : (o.claims.filter Claim.isKept).map Claim.item = o.firsts := by
  rw [claims_eq, filter_map, map_map]
  rfl

theorem map_fst_inOrder (o : OrchestraTree) : o.inOrder.map Prod.fst = o.items :=
  map_fst_zip (by simp)

/-! ### Names -/

theorem firstKeyword?_eq_none {items : List Item} {name : Text} :
    firstKeyword? items name = none ↔ ∀ item ∈ items, item.name? ≠ some name := by
  simp only [firstKeyword?, Option.map_eq_none_iff, find?_eq_none,
    mem_filterMap, Item.name?,
    ne_eq, Option.map_eq_some_iff, not_exists, not_and, decide_eq_true_eq]
  constructor
  · intro h item hitem declared hdeclared
    exact h declared ⟨item, hitem, hdeclared⟩
  · rintro h declared ⟨item, hitem, hdeclared⟩
    exact h item hitem declared hdeclared

theorem pairwise_inOrder (o : OrchestraTree) : o.inOrder.Pairwise fun p q => p.1 ∈ q.2 := by
  rw [inOrder]
  induction o.items with
  | nil => exact .nil
  | cons head items ih =>
    rw [inits_cons, zip_cons_cons, zip_map_right, pairwise_cons,
      pairwise_map]
    refine ⟨fun q hq => ?_, ih.imp fun h => mem_cons_of_mem _ h⟩
    obtain ⟨q, -, rfl⟩ := mem_map.1 hq
    exact mem_cons_self

theorem mem_inOrder {item : Item} {before after : List Item}
    (h : o.items = before ++ item :: after) : (item, before) ∈ o.inOrder := by
  rw [inOrder, h]
  clear h
  induction before with
  | nil => rw [nil_append, inits_cons, zip_cons_cons]; exact mem_cons_self
  | cons head before ih =>
    rw [cons_append, inits_cons, zip_cons_cons, zip_map_right]
    exact mem_cons_of_mem _ (mem_map.2 ⟨_, ih, rfl⟩)

theorem nodup_firsts (o : OrchestraTree) : (o.firsts.filterMap Item.name?).Nodup := by
  rw [firsts, List.Nodup, pairwise_filterMap, pairwise_map]
  refine (o.pairwise_inOrder.filter _).imp_of_mem fun {p q} _ hq hbefore name hp name' hq' heq => ?_
  have hnew := (mem_filter.1 hq).2
  rw [earlier?, hq', Option.bind_some, Option.isNone_iff_eq_none, firstKeyword?_eq_none] at hnew
  exact hnew p.1 hbefore (hp.trans (congrArg some heq))

theorem mem_firsts {item : Item} {name : Text} (hitem : item ∈ o.items)
    (hname : item.name? = some name) : name ∈ o.firsts.filterMap Item.name? := by
  cases hfind : o.items.find? fun item => item.name? = some name with
  | none => exact absurd hname (by simpa using find?_eq_none.1 hfind item hitem)
  | some first =>
    obtain ⟨hfirst, before, after, hsplit, hbefore⟩ := find?_eq_some_iff_append.1 hfind
    have hfirst : first.name? = some name := by simpa using hfirst
    refine mem_filterMap.2 ⟨first, mem_map.2 ⟨(first, before), ?_, rfl⟩, hfirst⟩
    refine mem_filter.2 ⟨mem_inOrder hsplit, ?_⟩
    rw [earlier?, hfirst, Option.bind_some, Option.isNone_iff_eq_none, firstKeyword?_eq_none]
    exact fun item hitem => by simpa using hbefore item hitem

/-! ### Sections -/

theorem diagnostic?_eq (p : Item × List Item) : Claim.diagnostic? ⟨p.1, earlier? p⟩ = complaint? p ∧
    (complaint? p).isSome = (earlier? p).isSome := by
  rw [Claim.diagnostic?, complaint?, earlier?, Item.name?]
  cases p.1.declared? with
  | none => exact ⟨rfl, rfl⟩
  | some declared => cases h : firstKeyword? p.2 declared.2 <;> simp [h]

theorem errors_eq (o : OrchestraTree) : o.sections.errors = o.inOrder.filterMap complaint? := by
  change o.claims.filterMap Claim.diagnostic? = _
  rw [claims_eq, filterMap_map]
  exact filterMap_congr fun p _ => (diagnostic?_eq p).1

theorem length_errors (o : OrchestraTree) :
    o.sections.errors.length + o.firsts.length = o.items.length := by
  rw [errors_eq, firsts, ← map_fst_inOrder, length_map, length_map]
  induction o.inOrder with
  | nil => rfl
  | cons p ps ih =>
    have hsome := (diagnostic?_eq p).2
    cases hcomplaint : complaint? p with
    | none =>
      rw [hcomplaint] at hsome
      rw [filterMap_cons_none hcomplaint, filter_cons_of_pos (by simpa using hsome.symm)]
      exact congrArg (· + 1) ih
    | some d =>
      rw [hcomplaint] at hsome
      rw [filterMap_cons_some hcomplaint,
        filter_cons_of_neg (by simp [← Option.not_isSome, ← hsome]),
        length_cons, length_cons, ← ih]
      exact Nat.succ_add ..

theorem items_mergeGlobal (items : List Item) :
    (Sections.mergeGlobal items).items = items.flatMap Item.globalItems := by
  induction items with
  | nil => rfl
  | cons item items ih =>
    rw [flatMap_cons, ← ih]
    cases item with
    | global b => exact flatMap_cons
    | instrument | opcode | template => rfl

theorem items_global (o : OrchestraTree) :
    o.sections.global.items = o.items.flatMap Item.globalItems := by
  change (Sections.mergeGlobal ((o.claims.filter Claim.isKept).map Claim.item)).items = _
  rw [kept_eq, items_mergeGlobal, firsts, ← map_fst_inOrder]
  induction o.inOrder with
  | nil => rfl
  | cons p ps ih =>
    obtain ⟨item, before⟩ := p
    -- An item without a name is never dropped, and one with a name adds nothing.
    rw [map_cons, flatMap_cons, ← ih, filter_cons]
    cases item with
    | global b => rfl
    | instrument | opcode | template => split <;> rfl

theorem firsts_eq (h : o.sections.errors = []) : o.firsts = o.items := by
  have hlength := o.length_errors
  rw [h, length_nil, Nat.zero_add] at hlength
  refine List.Sublist.eq_of_length ?_ hlength
  rw [firsts, ← map_fst_inOrder]
  exact filter_sublist.map _

theorem distinct_of_errors (h : o.sections.errors = []) : o.Distinct := by
  have hnodup := o.nodup_firsts
  rwa [firsts_eq h] at hnodup

/-- The sections of an orchestra, and what is registered. -/
structure Partitions (o : OrchestraTree) : Prop where
  /-- All items of the global blocks are in the global section. -/
  global : o.sections.global.items = o.items.flatMap Item.globalItems
  /-- Units that declare their names first are kept, in order. -/
  instruments : o.sections.instruments = o.firsts.filterMap Item.instrument?
  opcodes : o.sections.opcodes = o.firsts.filterMap Item.opcode?
  templates : o.sections.templates = o.firsts.filterMap Item.template?
  /-- Every name is kept, and only once. -/
  kept : ∀ item ∈ o.items, ∀ name, item.name? = some name → name ∈ o.firsts.filterMap Item.name?
  once : (o.firsts.filterMap Item.name?).Nodup
  /-- There is one complaint for each item that is dropped. -/
  errors : o.sections.errors = o.inOrder.filterMap complaint?
  dropped : o.sections.errors.length + o.firsts.length = o.items.length
  /-- Whatever else is wrong with its units, none of them has a name that is taken. -/
  registered : ∀ c, Compilation.ofTree o false = .ok (.ok c) → c.taken = []
  /-- The names of an orchestra that can be played: the instruments and then the templates. -/
  names : ∀ source played, OrchestraTree.parse source = .ok o → Orchestra.compile source =
    .ok played → played.repertoire.names = (o.items.filterMap Item.instrument? ++
      o.items.filterMap Item.template?).map Instrument.ident ∧
    played.repertoire.names.Nodup ∧
    ∀ opcode ∈ o.items.filterMap Item.opcode?, opcode.ident ∉ played.repertoire.names

theorem distinct_of_ofTree {c : Compilation} (h : Compilation.ofTree o false = .ok (.ok c)) :
    ∃ checked settings, o.Distinct ∧ CheckedOrchestra.ofTree o = .ok checked ∧
      Compilation.build checked false settings = .ok c := by
  obtain ⟨checked, settings, hchecked, -, hbuild, hground⟩ := Compilation.ofTree_ok h
  refine ⟨checked, settings, distinct_of_errors ?_, hchecked, hbuild⟩
  rw [← (CheckedOrchestra.checks_of_ofTree hchecked).sections, ← List.isEmpty_iff]
  exact List.all_eq_true.1 hground _ List.mem_cons_self

theorem names_of_compile {source : Text} {played : Orchestra}
    (hparse : OrchestraTree.parse source = .ok o)
    (h : Orchestra.compile source = .ok played) : o.Distinct ∧ played.repertoire.names =
      (o.items.filterMap Item.instrument? ++ o.items.filterMap Item.template?).map
        Instrument.ident := by
  simp only [Orchestra.compile, hparse, pure_bind] at h
  split at h
  · cases h
  · cases h
  next c hc =>
    split at h
    next hclean =>
      cases h
      obtain ⟨checked, settings, hdistinct, hchecked, hbuild⟩ := distinct_of_ofTree hc
      obtain ⟨builds, hbuilds, hbuild⟩ := exists_of_bind_eq_ok hbuild
      cases hbuild
      rw [List.isEmpty_iff, Compilation.errors, List.append_eq_nil_iff, List.append_eq_nil_iff,
        map_eq_nil_iff, flatMap_eq_nil_iff] at hclean
      obtain ⟨codes, hcodes, hparts⟩ :=
        Build.exists_codes (forall₂_of_mapM_eq_ok hbuilds) hclean.1.1
      obtain ⟨hunits, -⟩ := Compilation.register_ok hcodes (Prod.ext rfl hclean.1.2)
      refine ⟨hdistinct, ?_⟩
      rw [← hdistinct.idents_eq hchecked, Repertoire.names, hunits]
      rw [← forall₂_eq_eq_eq, forall₂_map_left_iff, forall₂_map_right_iff]
      exact hparts.flip.imp fun code p h => Instrument.ident_of_generate h.2
    next => cases h

/-- Partition and registration lose nothing and invent nothing. -/
theorem partition_lossless (o : OrchestraTree) : o.Partitions := by
  refine ⟨o.items_global, ?_, ?_, ?_, fun _ hitem _ => mem_firsts hitem, o.nodup_firsts,
    o.errors_eq, o.length_errors, fun c hc => ?_, fun source played hparse hcompile => ?_⟩
  · exact congrArg (List.filterMap Item.instrument?) o.kept_eq
  · exact congrArg (List.filterMap Item.opcode?) o.kept_eq
  · exact congrArg (List.filterMap Item.template?) o.kept_eq
  · obtain ⟨checked, settings, hdistinct, hchecked, hbuild⟩ := distinct_of_ofTree hc
    obtain ⟨builds, hbuilds, hbuild⟩ := exists_of_bind_eq_ok hbuild
    cases hbuild
    obtain ⟨-, hidents⟩ := Build.all_of_outcomes (forall₂_of_mapM_eq_ok hbuilds)
    exact Compilation.register_distinct (hidents.nodup (hdistinct.nodup_idents hchecked))
      fun _ _ => rfl
  · obtain ⟨hdistinct, hnames⟩ := names_of_compile hparse hcompile
    have hnodup := hdistinct.nodup_names
    rw [← hnames] at hnodup
    refine ⟨hnames, hnodup.of_append_left, fun opcode hopcode hmem => ?_⟩
    exact (nodup_append.1 hnodup).2.2 _ hmem _ (mem_map_of_mem hopcode) rfl

end OrchestraTree

end Orchestrion
