import Mathlib.Data.List.Nodup
import Orchestrion.Variables

/-!
# Lists and maps side by side

A table keeps its variables in a list and the places of their names in a map, and so does every
layout. A loop fills both, one variable at a time. The map then gives each name its place in the
list, so that every name has one number, and no two names share one.
-/

namespace Orchestrion

open List

/-! ### Maps -/

namespace NameMap

/-- The map gives each of the names its place among them, and gives nothing to other names. -/
def Indexes (m : NameMap) (names : List Text) : Prop :=
  ∀ x n, m.get? x = some n ↔ names[n]? = some x

variable {m : NameMap} {names : List Text} {x : Text}

/-- What is set last counts. -/
theorem get?_set (m : NameMap) (x : Text) (n : Nat) (y : Text) :
    (m.set x n).get? y = if x = y then some n else m.get? y := by
  rw [get?, set, lookup_cons]
  by_cases h : x = y
  · simp [h]
  · rw [beq_eq_false_iff_ne.2 (Ne.symm h), if_neg h]
    rfl

/-- Without names, there are no numbers. -/
theorem indexes_empty : ({} : NameMap).Indexes [] := fun _ _ => by simp [get?]

/-- A new name gets the place behind the others. -/
theorem Indexes.set (h : m.Indexes names) (hx : x ∉ names) :
    (m.set x names.length).Indexes (names ++ [x]) := by
  intro y n
  rw [get?_set]
  by_cases hy : x = y
  · have hnot : names[n]? ≠ some y := fun hn => hx (hy ▸ mem_of_getElem? hn)
    rw [if_pos hy, Option.some.injEq, getElem?_append]
    split
    next hlt => exact ⟨fun heq => absurd heq (Nat.ne_of_gt hlt), fun hn => absurd hn hnot⟩
    next hge =>
      rw [getElem?_singleton]
      constructor
      · intro heq
        rw [← heq, Nat.sub_self, if_pos rfl, hy]
      · intro hn
        by_contra hne
        rw [if_neg (by omega)] at hn
        cases hn
  · rw [if_neg hy, h, getElem?_append]
    split
    next => exact Iff.rfl
    next hge =>
      rw [getElem?_eq_none (Nat.le_of_not_lt hge), getElem?_singleton]
      split <;> simp [hy]

/-- Names that have numbers are different. -/
theorem Indexes.nodup (h : m.Indexes names) : names.Nodup := by
  rw [nodup_iff_pairwise_ne, pairwise_iff_getElem]
  intro i j hi hj hlt heq
  have hi' := (h _ _).2 (getElem?_eq_getElem hi)
  have hj' := (h _ _).2 (getElem?_eq_getElem hj)
  rw [heq, hj'] at hi'
  cases hi'
  exact absurd hlt (Nat.lt_irrefl _)

/-- The names are those that have a number. -/
theorem Indexes.isSome_iff (h : m.Indexes names) : (m.get? x).isSome = true ↔ x ∈ names := by
  rw [Option.isSome_iff_exists, mem_iff_getElem?]
  exact exists_congr fun n => h x n

/-- Among different names, one name is at one place only. -/
theorem findIdx?_eq_some_iff_of_nodup {n : Nat} (h : names.Nodup) :
    names.findIdx? (· = x) = some n ↔ names[n]? = some x := by
  induction names generalizing n with
  | nil => simp
  | cons y names ih =>
    rw [nodup_cons] at h
    rw [findIdx?_cons]
    by_cases hy : y = x
    · cases n with
      | zero => simp [hy]
      | succ n =>
        have hnot : names[n]? ≠ some x := fun hn => h.1 (hy ▸ mem_of_getElem? hn)
        simpa [hy] using hnot
    · cases n with
      | zero => simp [hy]
      | succ n => simpa [hy] using ih h.2

/-- The number of a name is found by looking for it among the names. -/
theorem Indexes.get?_eq (h : m.Indexes names) (x : Text) : m.get? x = names.findIdx? (· = x) :=
  Option.ext fun n => (h x n).trans (findIdx?_eq_some_iff_of_nodup h.nodup).symm

/-- The numbers of names are below a bound. -/
def Below (m : NameMap) (n : Nat) : Prop := ∀ x k, m.get? x = some k → k < n

theorem below_empty : ({} : NameMap).Below 0 := fun _ _ h => by simp [get?] at h

/-- A name can get the number of those before it. -/
theorem Below.set {n : Nat} (h : m.Below n) (x : Text) : (m.set x n).Below (n + 1) := by
  intro y k hk
  rw [get?_set] at hk
  split at hk
  · cases hk
    exact Nat.lt_succ_self n
  · exact Nat.lt_succ_of_lt (h y k hk)

end NameMap

/-! ### Tables -/

namespace VariableTable

/-- The names of the variables in order. -/
abbrev names (t : VariableTable) : List Text := t.entries.map Entry.ident

/-- The map of a table gives its names their places. -/
abbrev Aligned (t : VariableTable) : Prop := t.places.Indexes t.names

/-- The table after an entry is added, or rejected because its name is taken. -/
def add (t : VariableTable) (e : Entry) : VariableTable := (t.add? e).getD t

/-- The table after entries are added one after the other. -/
def addAll (t : VariableTable) (es : List Entry) : VariableTable := es.foldl add t

/-- The table is what its entries make, added one after the other. -/
def Built (t : VariableTable) : Prop := t = addAll {} t.entries

variable {t t' : VariableTable} {e : Entry} {x : Text}

/-- An entry is rejected if its name is among the others, and otherwise comes last. -/
theorem Aligned.add?_eq (h : t.Aligned) (e : Entry) : t.add? e = if e.ident ∈ t.names then none
    else some ⟨t.entries ++ [e], t.places.set e.ident t.entries.length⟩ := by
  have hmem := h.isSome_iff (x := e.ident)
  rw [add?]
  cases hplace : t.places.get? e.ident with
  | some n =>
    rw [hplace] at hmem
    rw [if_pos (hmem.1 rfl)]
  | none =>
    rw [hplace] at hmem
    rw [if_neg (mt hmem.2 Bool.false_ne_true)]

/-- A table stays aligned when an entry is added or rejected. -/
theorem Aligned.add (h : t.Aligned) (e : Entry) : (t.add e).Aligned := by
  rw [VariableTable.add, h.add?_eq]
  split
  next => exact h
  next hnew =>
    have hset := h.set hnew
    rwa [length_map, ← map_singleton, ← map_append] at hset

/-- A table stays aligned whatever is added to it. -/
theorem Aligned.addAll (h : t.Aligned) (es : List Entry) : (t.addAll es).Aligned := by
  induction es generalizing t with
  | nil => exact h
  | cons e es ih => exact ih (h.add e)

theorem built_empty : Built {} := rfl

/-- What is added comes last. -/
theorem entries_of_add? (hadd : t.add? e = some t') : t'.entries = t.entries ++ [e] := by
  rw [add?] at hadd
  split at hadd <;> cases hadd
  rfl

/-- A name that has a place had it before, or is that of the new entry. -/
theorem isSome_of_add? (hadd : t.add? e = some t') (hx : (t'.index? x).isSome = true) :
    (t.index? x).isSome = true ∨ e.ident = x := by
  rw [add?] at hadd
  split at hadd <;> cases hadd
  rw [index?, NameMap.get?_set] at hx
  split at hx
  · exact .inr ‹_›
  · exact .inl hx

/-- A table that is built stays so. -/
theorem Built.add? (h : t.Built) (hadd : t.add? e = some t') : t'.Built := by
  have hbuilt : t.entries.foldl VariableTable.add {} = t := h.symm
  rw [Built, entries_of_add? hadd, VariableTable.addAll, foldl_append, hbuilt]
  exact (congrArg (Option.getD · t) hadd).symm

theorem Built.aligned (h : t.Built) : t.Aligned := by
  rw [h]
  exact Aligned.addAll NameMap.indexes_empty _

theorem Aligned.index?_eq (h : t.Aligned) (x : Text) :
    t.index? x = t.entries.findIdx? fun e => e.ident = x := by
  rw [index?, h.get?_eq, findIdx?_map]
  rfl

/-- A name is looked up among the entries. -/
theorem Aligned.lookup?_eq (h : t.Aligned) (x : Text) :
    t.lookup? x = t.entries.find? fun e => e.ident = x := by
  rw [find?_eq_bind_findIdx?_getElem?, ← h.index?_eq]
  rfl

/-- What is found is among the entries. -/
theorem mem_of_lookup? (he : t.lookup? x = some e) : e ∈ t.entries := by
  obtain ⟨n, -, hn⟩ := Option.bind_eq_some_iff.1 he
  exact mem_of_getElem? hn

/-- What is found has the name. -/
theorem Aligned.ident_of_lookup? (h : t.Aligned) (he : t.lookup? x = some e) : e.ident = x := by
  rw [h.lookup?_eq] at he
  simpa using find?_some he

/-- An entry is found under its name. -/
theorem Aligned.lookup?_of_mem (h : t.Aligned) (he : e ∈ t.entries) :
    t.lookup? e.ident = some e := by
  obtain ⟨n, hn⟩ := mem_iff_getElem?.1 he
  have hplace : t.places.get? e.ident = some n := (h _ n).2 (by rw [getElem?_map, hn]; rfl)
  rw [lookup?, hplace, Option.bind_some, hn]

theorem Aligned.lookup?_eq_none (h : t.Aligned) : t.lookup? x = none ↔ x ∉ t.names := by
  rw [h.lookup?_eq]
  simp

end VariableTable

/-! ### The store -/

namespace StoreLayout

variable {l : StoreLayout}

theorem add_eq (l : StoreLayout) (e : Entry) : l.add e = if e.isScalarSignal then
    ⟨l.names ++ [e.ident], l.rates ++ [e.rate], l.places.set e.ident l.names.length⟩ else l := by
  rw [add, Entry.isScalarSignal]
  cases e.array <;> cases e.rate.isSignal <;> rfl

/-- The names and rates are those of the scalar signals, in order. -/
theorem names_foldl_add (l : StoreLayout) (es : List Entry) :
    (es.foldl add l).names = l.names ++ (es.filter Entry.isScalarSignal).map Entry.ident ∧
      (es.foldl add l).rates = l.rates ++ (es.filter Entry.isScalarSignal).map Entry.rate := by
  induction es generalizing l with
  | nil => simp
  | cons e es ih =>
    obtain ⟨hnames, hrates⟩ := ih (l.add e)
    rw [foldl_cons, hnames, hrates, add_eq, filter_cons]
    split <;> simp

/-- The slots of the names stay aligned with them, as long as the names are different. -/
theorem indexes_foldl_add {es : List Entry} (h : l.places.Indexes l.names)
    (hnodup : (l.names ++ es.map Entry.ident).Nodup) :
    (es.foldl add l).places.Indexes (es.foldl add l).names := by
  induction es generalizing l with
  | nil => exact h
  | cons e es ih =>
    refine ih ?_ ?_
    · rw [add_eq]
      split
      next => exact h.set fun hmem =>
        (nodup_append.1 hnodup).2.2 _ hmem _ mem_cons_self rfl
      next => exact h
    · rw [add_eq]
      split
      next => rwa [append_assoc]
      next => exact hnodup.sublist ((sublist_cons_self ..).append_left _)

/-- A slot is among those that are laid out, whatever the names are. -/
theorem below_foldl_add (h : l.places.Below l.size) (es : List Entry) :
    (es.foldl add l).places.Below (es.foldl add l).size := by
  induction es generalizing l with
  | nil => exact h
  | cons e es ih =>
    refine ih ?_
    rw [add_eq]
    split
    next =>
      rw [size, length_append]
      exact h.set e.ident
    next => exact h

variable {t : VariableTable}

theorem below_ofTable (t : VariableTable) : (ofTable t).places.Below (ofTable t).size :=
  below_foldl_add NameMap.below_empty t.entries

theorem names_ofTable (t : VariableTable) :
    (ofTable t).names = (t.entries.filter Entry.isScalarSignal).map Entry.ident :=
  (names_foldl_add {} t.entries).1

theorem rates_ofTable (t : VariableTable) :
    (ofTable t).rates = (t.entries.filter Entry.isScalarSignal).map Entry.rate :=
  (names_foldl_add {} t.entries).2

theorem indexes_ofTable (h : t.Aligned) : (ofTable t).places.Indexes (ofTable t).names :=
  indexes_foldl_add NameMap.indexes_empty h.nodup

theorem index?_ofTable (h : t.Aligned) (x : Text) :
    (ofTable t).index? x = (ofTable t).names.findIdx? (· = x) :=
  (indexes_ofTable h).get?_eq x

/-- A name has a slot if and only if it is that of a scalar signal. -/
theorem isSome_index?_ofTable (h : t.Aligned) {x : Text} : ((ofTable t).index? x).isSome = true ↔
    ∃ e ∈ t.entries, e.isScalarSignal = true ∧ e.ident = x := by
  rw [index?, (indexes_ofTable h).isSome_iff, names_ofTable]
  simp [and_assoc]

end StoreLayout

end Orchestrion
