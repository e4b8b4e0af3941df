import Orchestrion.Proofs.Check.Unit

/-!
# Units in one table

The units of an orchestra can be checked with one table of attributes for all of them: each unit
stands at a node of its own, and its check hands the table on to the next unit. Such a check does
the same as one with a table of its own. What it finds out stands below the node of the unit, and
what other units have left in the table stays as it is.
-/

namespace Orchestrion

/-! ### One table for all units -/

def Item.label (item : Item) : UnitLabel :=
  match item.declared? with
  | some (keyword, name) => .named keyword name
  | none => .global

def Item.check (s : Surroundings) (p : Path) (item : Item) : Check.Checking Unit :=
  match item with
  | .global b => Check.globalItems { kind := .global, label := .global } p 0 b.items
  | .instrument i | .template i => do
    let c := s.context .instrument item.label
    Check.params c (0 :: p) 0 i.params
    Check.decls c (1 :: p) 0 i.decls
    let _ ← Check.stmts c (2 :: p) 0 i.body
  | .opcode o => do
    let c := s.context .opcode item.label
    Check.opcodeParams c (0 :: p) 0 o.params
    Check.decls c (1 :: p) 0 o.decls
    let _ ← Check.stmts c (2 :: p) 0 o.body

/-- The outcome of a check that begins with what others have left in the table. The attributes of
the unit are then the whole table as its check leaves it. -/
def CheckedUnit.ofCheckIn (as : Attributes) (label : UnitLabel) (check : Check.Checking Unit) :
    Except SetTwice CheckedUnit :=
  match check.run { attributes := as } with
  | .ok _ s => .ok ⟨label, s.locals, s.attributes, s.errors⟩
  | .error .abandoned s => .ok ⟨label, s.locals, s.attributes, s.errors⟩
  | .error (.setTwice fault) _ => .error fault

namespace Sections

/-- What is kept besides the global section: instruments, templates and opcodes. -/
def units (s : Sections) : List Item :=
  s.instruments.map .instrument ++ s.templates.map .template ++ s.opcodes.map .opcode

/-- All that is kept, the global section first. -/
def items (s : Sections) : List Item := .global s.global :: s.units

/-- Checks items one after the other in one table. The first of them stands at the node `[k]`. -/
def checkInTurn (s : Surroundings) (k : Nat) (as : Attributes) :
    List Item → Except SetTwice (List CheckedUnit × Attributes)
  | [] => .ok ([], as)
  | item :: items => do
    let u ← CheckedUnit.ofCheckIn as item.label (item.check s [k])
    let (us, as) ← checkInTurn s (k + 1) u.attributes items
    return (u :: us, as)

end Sections

/-- Checks all units of an orchestra in one table: the global section stands at the node `[0]`, and
the instruments, templates and opcodes that are kept at the nodes after it. -/
def OrchestraTree.checkTogether (o : OrchestraTree) :
    Except SetTwice (List CheckedUnit × Attributes) := do
  let sections := o.sections
  let global ← CheckedUnit.ofCheckIn {} .global
    (Check.globalItems { kind := .global, label := .global } [0] 0 sections.global.items)
  let s := Surroundings.ofSections sections global.locals
    (Settings.resolve sections.global).toOption
  let (us, as) ← Sections.checkInTurn s 1 global.attributes sections.units
  return (global :: us, as)

/-! ### A part of a check in a shared table -/

namespace Check

/-- The same is known about a unit in a table of its own and in a shared one, where the unit stands
at the node `p`; other units have left `as` in the shared table. -/
structure State.Shares (p : Path) (as : Attributes) (s t : State) : Prop where
  locals : t.locals = s.locals
  errors : t.errors = s.errors
  below : ∀ q, t.attributes.get (q ++ p) = s.attributes.get q
  beside : ∀ q, ¬p <:+ q → t.attributes.get q = as.get q

theorem State.shares_empty {p : Path} {as : Attributes} (hfree : ∀ q, as.get (q ++ p) = {}) :
    State.Shares p as {} { attributes := as } where
  locals := rfl
  errors := rfl
  below q := by
    rw [hfree, Attributes.get, Attributes.find?_empty]
    rfl
  beside _ _ := rfl

theorem State.Shares.replace {p : Path} {as : Attributes} {s t : State} (h : s.Shares p as t)
    (q : Path) (a : Attribute) :
    State.Shares p as { s with attributes := s.attributes.replace q a }
      { t with attributes := t.attributes.replace (q ++ p) a } where
  locals := h.locals
  errors := h.errors
  below q' := by
    rw [Attributes.get_replace, Attributes.get_replace, h.below]
    simp only [List.append_cancel_right_eq]
  beside q' hq' := by
    -- The node whose attributes are replaced is below that of the unit.
    have hne : q' ≠ q ++ p := by
      rintro rfl
      exact hq' (List.suffix_append q p)
    rw [Attributes.get_replace, if_neg hne]
    exact h.beside q' hq'

variable {α : Type} {p : Path} {as : Attributes}

/-- A part of a check does the same in a table of its own as another one in a shared table. -/
abbrev Shares (p : Path) (as : Attributes) (x y : Checking α) : Prop :=
  Alike (State.Shares p as) id id x y

variable {c : Context}

/-! ### Complaints, variables and attributes -/

theorem shares_complain (node : Node) (cause : Cause) :
    Shares p as (complain c node cause) (complain c node cause) := by
  refine ⟨fun s t h => .ok () ⟨h.locals, ?_, h.below, h.beside⟩⟩
  show t.errors ++ _ = s.errors ++ _
  rw [h.errors]

theorem shares_abandon (node : Node) (cause : Cause) :
    Shares p as (abandon c node cause : Checking α) (abandon c node cause) :=
  .step (shares_complain ..) fun _ => ⟨fun _ _ h => .error .abandoned h⟩

theorem shares_setSignal (q : Path) (node : Node) (w : Width) (rate : Rate) :
    Shares p as (setSignal q node w rate) (setSignal (q ++ p) node w rate) := by
  refine ⟨fun s t h => ?_⟩
  rw [setSignal_apply, setSignal_apply, Attributes.setSignal?, Attributes.setSignal?, h.below]
  cases (s.attributes.get q).signal with
  | some old => exact .error (.setTwice _) h
  | none => exact .ok () (h.replace q _)

theorem shares_setPayload (q : Path) (node : Node) (x : Payload) :
    Shares p as (setPayload q node x) (setPayload (q ++ p) node x) := by
  refine ⟨fun s t h => ?_⟩
  rw [setPayload_apply, setPayload_apply, Attributes.setPayload?, Attributes.setPayload?, h.below]
  cases (s.attributes.get q).payload with
  | some old => exact .error (.setTwice _) h
  | none => exact .ok () (h.replace q _)

theorem shares_declare (e : Entry) : Shares p as (declare e) (declare e) := by
  refine ⟨fun s t h => ?_⟩
  rw [declare_apply, declare_apply, h.locals]
  cases s.locals.add? e with
  | some table => exact .ok true ⟨rfl, h.errors, h.below, h.beside⟩
  | none => exact .ok false h

theorem shares_resolve? (name : Text) : Shares p as (resolve? c name) (resolve? c name) := by
  refine ⟨fun s t h => ?_⟩
  show EndsAlike (State.Shares p as) id id (.ok (Scope.resolve? ⟨s.locals, c.globals⟩ name) s)
    (.ok (Scope.resolve? ⟨t.locals, c.globals⟩ name) t)
  rw [h.locals]
  exact .ok _ h

/-! ### Expressions, statements and declarations -/

theorem laws_shares : Laws c fun _ _ x _ => ∀ q, Shares p as (x q) (x (q ++ p)) where
  done _ _ := .done _
  mono h _ _ := h
  step hx _ hf q := .step (hx q) fun a => hf a q
  child i h q := h (i :: q)
  complain node cause _ := shares_complain node cause
  resolve name _ := shares_resolve? name
  setSignal node w r q := shares_setSignal q node w r
  setPayload node x q := shares_setPayload q node x

theorem declLaws_shares : DeclLaws c fun _ _ x _ => ∀ q, Shares p as (x q) (x (q ++ p)) where
  done _ _ := .done _
  mono h _ _ := h
  step hx _ hf q := .next (hx q) fun a ⟨s, s', ha⟩ => hf a ⟨q, s, s', ha⟩ q
  child i h q := h (i :: q)
  complain node cause _ := shares_complain node cause
  abandon node cause _ := shares_abandon node cause
  declare _ _ := shares_declare _
  setSignal node w r q := shares_setSignal q node w r
  setPayload node x q := shares_setPayload q node x
  expr e q := laws_shares.expr e q
  stmts ss q := laws_shares.stmts 0 ss q

end Check

/-! ### Units -/

theorem Item.shares_check (s : Surroundings) (p : Path) (as : Attributes) (item : Item) :
    Check.Shares p as (item.check s []) (item.check s p) := by
  cases item with
  | global b => exact Check.declLaws_shares.globalItems 0 b.items []
  | instrument i | template i => exact Check.declLaws_shares.instrument i []
  | opcode o => exact Check.declLaws_shares.opcode o []

/-- Two checks of a unit found the same variables and complaints. -/
structure CheckedUnit.Agrees (u v : CheckedUnit) : Prop where
  label : v.label = u.label
  locals : v.locals = u.locals
  errors : v.errors = u.errors

theorem CheckedUnit.ofCheckIn_ok {p : Path} {as : Attributes} {label : UnitLabel}
    {x y : Check.Checking Unit} (h : Check.Shares p as x y) (hfree : ∀ q, as.get (q ++ p) = {})
    {u : CheckedUnit} (hu : ofCheck label x = .ok u) :
    ∃ v, ofCheckIn as label y = .ok v ∧ u.Agrees v ∧
      (∀ q, v.attributes.get (q ++ p) = u.attributes.get q) ∧
      ∀ q, ¬p <:+ q → v.attributes.get q = as.get q := by
  have hends := h.of_run {} _ (Check.State.shares_empty hfree)
  rw [ofCheck, EStateM.run] at hu
  rw [ofCheckIn, EStateM.run]
  generalize x {} = xs at hends hu
  generalize y { attributes := as } = ys at hends ⊢
  cases hends with
  | ok a h =>
    cases hu
    exact ⟨_, rfl, ⟨rfl, h.locals, h.errors⟩, h.below, h.beside⟩
  | error e h =>
    cases e with
    | abandoned =>
      cases hu
      exact ⟨_, rfl, ⟨rfl, h.locals, h.errors⟩, h.below, h.beside⟩
    | setTwice fault => cases hu

theorem not_suffix_of_ne {j k : Nat} (h : j ≠ k) (q : Path) : ¬[k] <:+ q ++ [j] := by
  rintro ⟨r, hr⟩
  have hlast := congrArg List.getLast? hr
  rw [List.getLast?_concat, List.getLast?_concat] at hlast
  exact h (Option.some.inj hlast).symm

theorem Sections.checkInTurn_ok {s : Surroundings} {items : List Item} {us : List CheckedUnit}
    (hus : List.Forall₂ (fun item u => CheckedUnit.ofCheck item.label (item.check s []) = .ok u)
      items us)
    {k : Nat} {as : Attributes} (hfree : ∀ j, k ≤ j → ∀ q, as.get (q ++ [j]) = {}) :
    ∃ vs shared, checkInTurn s k as items = .ok (vs, shared) ∧
      List.Forall₂ CheckedUnit.Agrees us vs ∧
      (∀ n u, us[n]? = some u → ∀ q, shared.get (q ++ [k + n]) = u.attributes.get q) ∧
      ∀ j, j < k → ∀ q, shared.get (q ++ [j]) = as.get (q ++ [j]) := by
  induction hus generalizing k as with
  | nil => exact ⟨[], as, rfl, .nil, by simp, fun _ _ _ => rfl⟩
  | @cons item u items us hu _ ih =>
    obtain ⟨v, hv, hagrees, hbelow, hbeside⟩ :=
      CheckedUnit.ofCheckIn_ok (item.shares_check s [k] as) (hfree k (Nat.le_refl k)) hu
    -- The check of this unit leaves the nodes of all others as they were.
    have hothers (j : Nat) (hj : j ≠ k) (q : Path) :
        v.attributes.get (q ++ [j]) = as.get (q ++ [j]) := hbeside _ (not_suffix_of_ne hj q)
    have hfree' (j : Nat) (hj : k + 1 ≤ j) (q : Path) : v.attributes.get (q ++ [j]) = {} := by
      rw [hothers j (by omega)]
      exact hfree j (by omega) q
    obtain ⟨vs, shared, hvs, hall, hlater, hearlier⟩ := ih hfree'
    refine ⟨v :: vs, shared, ?_, .cons hagrees hall, ?_, ?_⟩
    · exact (bind_of_eq_ok hv _).trans (bind_of_eq_ok hvs _)
    · intro n u' hu' q
      cases n with
      | zero =>
        cases hu'
        rw [Nat.add_zero, hearlier k (Nat.lt_succ_self k) q]
        exact hbelow q
      | succ n =>
        rw [← hlater n u' hu' q]
        congr 3
        omega
    · intro j hj q
      rw [hearlier j (by omega) q]
      exact hothers j (by omega) q

theorem CheckedOrchestra.Checks.units {tree : OrchestraTree} {o : CheckedOrchestra}
    (h : o.Checks tree) :
    List.Forall₂
      (fun item u => CheckedUnit.ofCheck item.label (item.check o.surroundings []) = .ok u)
      tree.sections.items o.units := by
  refine .cons h.global ?_
  rw [← h.sections]
  refine List.rel_append (List.rel_append ?_ ?_) ?_
  · exact List.forall₂_map_left_iff.2 h.instruments
  · exact List.forall₂_map_left_iff.2 h.templates
  · exact List.forall₂_map_left_iff.2 h.opcodes

theorem CheckedOrchestra.Checks.exists_checkTogether {tree : OrchestraTree} {o : CheckedOrchestra}
    (h : o.Checks tree) :
    ∃ vs shared, tree.checkTogether = .ok (vs, shared) ∧
    List.Forall₂ CheckedUnit.Agrees o.units vs ∧
      ∀ k u, o.units[k]? = some u → ∀ q, shared.get (q ++ [k]) = u.attributes.get q := by
  have hempty (q : Path) : (({} : Attributes).get q) = {} := by
    rw [Attributes.get, Attributes.find?_empty]
    rfl
  obtain ⟨hglobal, hothers⟩ := List.forall₂_cons.1 h.units
  obtain ⟨v, hv, hagrees, hbelow, hbeside⟩ := CheckedUnit.ofCheckIn_ok
    (Item.shares_check o.surroundings [0] {} (.global tree.sections.global))
    (fun _ => hempty _) hglobal
  have hfree (j : Nat) (hj : 1 ≤ j) (q : Path) : v.attributes.get (q ++ [j]) = {} := by
    rw [hbeside _ (not_suffix_of_ne (by omega) q)]
    exact hempty _
  obtain ⟨vs, shared, hvs, hall, hlater, hearlier⟩ := Sections.checkInTurn_ok hothers hfree
  refine ⟨v :: vs, shared, ?_, .cons hagrees hall, ?_⟩
  · have hsurroundings : o.surroundings = .ofSections tree.sections v.locals
        (Settings.resolve tree.sections.global).toOption := by
      rw [CheckedOrchestra.surroundings, h.sections, h.settings, hagrees.locals]
    rw [hsurroundings] at hvs
    exact (bind_of_eq_ok hv _).trans (bind_of_eq_ok hvs _)
  · intro k u hu q
    cases k with
    | zero =>
      cases hu
      rw [hearlier 0 Nat.one_pos q]
      exact hbelow q
    | succ k =>
      rw [← hlater k u hu q, Nat.add_comm]

end Orchestrion
