import Mathlib.Order.BooleanAlgebra.Set
import Mathlib.Tactic.Common
import Orchestrion.Check.Unit
import Orchestrion.Proofs.Variables

/-!
# What a part of a check does

A part of a check adds variables and sets attributes, each of them once: those that it sets belong
to the node that it looks at, and different parts of a check look at different nodes.
-/

namespace Orchestrion

/-- Whether the width is a number of elements, or becomes one with the run-time parameters. -/
def Width.IsSize : Width → Prop
  | .fixed n => 0 ≤ n
  | _ => True

theorem Attributes.get_replace (as : Attributes) (p q : Path) (a : Attribute) :
    (as.replace p a).get q = if q = p then a else as.get q := by
  rw [Attributes.get, Attributes.find?_replace, Attributes.get]
  split <;> rfl

namespace Check

/-- What has attributes in the tree below a node: a child with all below it, or the node itself. -/
inductive Part where
  | child (i : Nat)
  | payload
  | signal
deriving DecidableEq

/-- Whether the payload, or else the width and rate, of a node are set. -/
def State.IsSet (s : State) (p : Path) (payload : Bool) : Prop :=
  if payload then (s.attributes.get p).payload.isSome else (s.attributes.get p).signal.isSome

/-- The attribute belongs to one of the given parts of the node at a path. -/
def Within (p : Path) (parts : Set Part) (q : Path) (payload : Bool) : Prop :=
  (∃ i, .child i ∈ parts ∧ (i :: p) <:+ q) ∨
    q = p ∧ (if payload then Part.payload else Part.signal) ∈ parts

section Within

variable {p q : Path} {parts others : Set Part} {payload : Bool}

theorem Within.mono (h : Within p parts q payload) (hsubset : parts ⊆ others) :
    Within p others q payload := by
  rcases h with ⟨i, hi, hq⟩ | ⟨hq, hpart⟩
  · exact .inl ⟨i, hsubset hi, hq⟩
  · exact .inr ⟨hq, hsubset hpart⟩

theorem Within.not_within (h : Within p parts q payload)
    (hdisjoint : ∀ part ∈ parts, part ∉ others) : ¬Within p others q payload := by
  have hlonger (i : Nat) : ¬(i :: p) <:+ p := by
    intro h
    have hlength := h.length_le
    rw [List.length_cons] at hlength
    omega
  rcases h with ⟨i, hi, hq⟩ | ⟨rfl, hpart⟩
  · rintro (⟨j, hj, hq'⟩ | ⟨rfl, -⟩)
    · have heq : i :: p = j :: p :=
        (List.suffix_of_suffix_length_le hq hq' (Nat.le_refl _)).eq_of_length rfl
      cases heq
      exact hdisjoint _ hi hj
    · exact hlonger i hq
  · rintro (⟨j, -, hq'⟩ | ⟨-, hpart'⟩)
    · exact hlonger j hq'
    · exact hdisjoint _ hpart hpart'

theorem within_univ_iff : Within p .univ q payload ↔ p <:+ q := by
  constructor
  · rintro (⟨i, -, hq⟩ | ⟨rfl, -⟩)
    · exact (List.suffix_cons i p).trans hq
    · exact List.suffix_rfl
  · rintro ⟨r, rfl⟩
    rcases r.eq_nil_or_concat with rfl | ⟨r, i, rfl⟩
    · exact .inr ⟨rfl, trivial⟩
    · exact .inl ⟨i, trivial, r, by simp⟩

theorem within_child_iff {i : Nat} : Within p {.child i} q payload ↔ (i :: p) <:+ q := by
  constructor
  · rintro (⟨j, hj, hq⟩ | ⟨-, hpart⟩)
    · cases hj
      exact hq
    · cases payload <;> cases hpart
  · exact fun hq => .inl ⟨i, rfl, hq⟩

end Within

/-- What a part of a check does to the table of variables: every variable is of some kind, and they
are added one after the other. -/
structure Advances (kind : Entry → Prop) (s s' : State) : Prop where
  kinds : (∀ e ∈ s.locals.entries, kind e) → ∀ e ∈ s'.locals.entries, kind e
  built : s.locals.Built → s'.locals.Built

namespace Advances

variable {kind : Entry → Prop} {s s₁ s' : State}

theorem of_locals (h : s'.locals = s.locals) : Advances kind s s' := ⟨h ▸ id, h ▸ id⟩

theorem trans (h : Advances kind s s₁) (h' : Advances kind s₁ s') : Advances kind s s' :=
  ⟨fun hs => h'.kinds (h.kinds hs), fun hs => h'.built (h.built hs)⟩

end Advances

/-- The outcome of a part of a check that may set attributes of the given parts of a node. It either
goes on, or it abandons the unit with a complaint. The variables that it declares are of the given
kind either way. -/
def Meets {α : Type} (kind : Entry → Prop) (p : Path) (parts : Set Part) (s : State) :
    EStateM.Result Stop State α → Prop
  | .ok _ s' => Advances kind s s' ∧
    ∀ q payload, s'.IsSet q payload → s.IsSet q payload ∨ Within p parts q payload
  | .error .abandoned s' => Advances kind s s' ∧ s'.errors ≠ []
  | .error (.setTwice _) _ => False

/-- A part of a check that sets attributes of the given parts of a node, if none of them is set yet,
and declares variables of the given kind. -/
structure Checks {α : Type} (kind : Entry → Prop) (p : Path) (parts : Set Part) (x : Checking α) :
    Prop where
  meets : ∀ s : State, (∀ q payload, Within p parts q payload → ¬s.IsSet q payload) →
    Meets kind p parts s (x s)

namespace Checks

variable {α β : Type} {kind : Entry → Prop} {p : Path} {parts others : Set Part} {x : Checking α}

theorem mono (h : Checks kind p parts x) (hparts : parts ⊆ others) : Checks kind p others x := by
  refine ⟨fun s hs => ?_⟩
  have hx := h.meets s fun q payload hq => hs q payload (hq.mono hparts)
  match x s, hx with
  | .ok a s', ⟨hadvances, hset⟩ =>
    exact ⟨hadvances, fun q payload hq => (hset q payload hq).imp_right (·.mono hparts)⟩
  | .error .abandoned s', hx => exact hx

theorem done {a : α} : Checks kind p parts (pure a : Checking α) :=
  ⟨fun _ _ => ⟨.of_locals rfl, fun _ _ h => .inl h⟩⟩

theorem step {all : Set Part} {f : α → Checking β} (hx : Checks kind p parts x)
    (hparts : parts ⊆ all)
    (hf : ∀ a, (∃ s s', x s = .ok a s') → Checks kind p (all \ parts) (f a)) :
    Checks kind p all (x >>= f) := by
  refine ⟨fun s hs => ?_⟩
  have hx := hx.meets s fun q payload hq => hs q payload (hq.mono hparts)
  change Meets _ _ _ _ (EStateM.bind x f s)
  rw [EStateM.bind]
  match hs₁ : x s, hx with
  | .error .abandoned s', hx => exact hx
  | .ok a s₁, ⟨hadvances, hset⟩ =>
    have hf := (hf a ⟨s, s₁, hs₁⟩).meets s₁ fun q payload hq hq' => by
      rcases hset q payload hq' with hq' | hq'
      · exact hs q payload (hq.mono Set.sdiff_subset) hq'
      · exact hq'.not_within (fun part hpart hpart' => hpart'.2 hpart) hq
    dsimp only
    match f a s₁, hf with
    | .error .abandoned s', hf => exact ⟨hadvances.trans hf.1, hf.2⟩
    | .ok b s', ⟨hadvances', hset'⟩ =>
      refine ⟨hadvances.trans hadvances', fun q payload hq => ?_⟩
      rcases hset' q payload hq with hq | hq
      · exact (hset q payload hq).imp_right (·.mono hparts)
      · exact .inr (hq.mono Set.sdiff_subset)

theorem child {i : Nat} (h : Checks kind (i :: p) .univ x) : Checks kind p {.child i} x := by
  refine ⟨fun s hs => ?_⟩
  have hx := h.meets s fun q payload hq => hs q payload (within_child_iff.2 (within_univ_iff.1 hq))
  match x s, hx with
  | .ok a s', ⟨hadvances, hset⟩ =>
    refine ⟨hadvances, fun q payload hq => ?_⟩
    exact (hset q payload hq).imp_right fun hq => within_child_iff.2 (within_univ_iff.1 hq)
  | .error .abandoned s', hx => exact hx

end Checks

/-! ### Steps -/

section Steps

variable {kind : Entry → Prop} {p : Path} (c : Context)

theorem checks_complain (node : Node) (cause : Cause) : Checks kind p ∅ (complain c node cause) :=
  ⟨fun _ _ => ⟨.of_locals rfl, fun _ _ h => .inl h⟩⟩

theorem checks_abandon (node : Node) (cause : Cause) :
    Checks kind p ∅ (abandon c node cause : Checking PUnit) :=
  ⟨fun _ _ => ⟨.of_locals rfl, List.append_ne_nil_of_right_ne_nil _ (by simp)⟩⟩

theorem checks_resolve? (name : Text) : Checks kind p ∅ (resolve? c name) :=
  ⟨fun _ _ => ⟨.of_locals rfl, fun _ _ h => .inl h⟩⟩

theorem setSignal_apply (node : Node) (w : Width) (r : Rate) (s : State) :
    setSignal p node w r s = (match s.attributes.setSignal? p w r with
      | some as => set { s with attributes := as }
      | none => throw (.setTwice ⟨false, node.kind, node.span.start⟩) : Checking Unit) s := rfl

theorem setPayload_apply (node : Node) (x : Payload) (s : State) :
    setPayload p node x s = (match s.attributes.setPayload? p x with
      | some as => set { s with attributes := as }
      | none => throw (.setTwice ⟨true, node.kind, node.span.start⟩) : Checking Unit) s := rfl

theorem declare_apply (e : Entry) (s : State) :
    declare e s = (match s.locals.add? e with
      | some table => do
        set { s with locals := table }
        return true
      | none => return false : Checking Bool) s := rfl

theorem checks_setSignal (node : Node) (w : Width) (r : Rate) :
    Checks kind p {.signal} (setSignal p node w r) := by
  refine ⟨fun s hs => ?_⟩
  have hnone : (s.attributes.get p).signal = none := by
    simpa [State.IsSet] using hs p false (.inr ⟨rfl, rfl⟩)
  rw [setSignal_apply, Attributes.setSignal?, hnone]
  refine ⟨.of_locals rfl, fun q payload hq => ?_⟩
  simp only [State.IsSet, Attributes.get_replace] at hq ⊢
  by_cases hqp : q = p
  · subst hqp
    cases payload with
    | false => exact .inr (.inr ⟨rfl, rfl⟩)
    | true => exact .inl (by simpa using hq)
  · exact .inl (by simpa [hqp] using hq)

theorem checks_setPayload (node : Node) (x : Payload) :
    Checks kind p {.payload} (setPayload p node x) := by
  refine ⟨fun s hs => ?_⟩
  have hnone : (s.attributes.get p).payload = none := by
    simpa [State.IsSet] using hs p true (.inr ⟨rfl, rfl⟩)
  rw [setPayload_apply, Attributes.setPayload?, hnone]
  refine ⟨.of_locals rfl, fun q payload hq => ?_⟩
  simp only [State.IsSet, Attributes.get_replace] at hq ⊢
  by_cases hqp : q = p
  · subst hqp
    cases payload with
    | true => exact .inr (.inr ⟨rfl, rfl⟩)
    | false => exact .inl (by simpa using hq)
  · exact .inl (by simpa [hqp] using hq)

theorem checks_declare {e : Entry} (hkind : kind e) : Checks kind p ∅ (declare e) := by
  refine ⟨fun s hs => ?_⟩
  rw [declare_apply]
  cases hadd : s.locals.add? e with
  | none => exact ⟨.of_locals rfl, fun _ _ h => .inl h⟩
  | some t =>
    refine ⟨⟨fun h => ?_, fun h => h.add? hadd⟩, fun _ _ h => .inl h⟩
    change ∀ e ∈ t.entries, kind e
    rw [VariableTable.entries_of_add? hadd]
    exact List.forall_mem_append.2 ⟨h, List.forall_mem_singleton.2 hkind⟩

end Steps

/-! ### Two checks side by side -/

section Alike

variable {α β α' β' : Type} {R : State → State → Prop} {stop : Stop → Stop} {r : α → α'}
  {r' : β → β'}

/-- Two checks end in the same way, in states that are related; `r` changes the result and `stop`
the reason for which a check ends early. -/
inductive EndsAlike (R : State → State → Prop) (stop : Stop → Stop) (r : α → α') :
    EStateM.Result Stop State α → EStateM.Result Stop State α' → Prop where
  | ok (a : α) {s t : State} (h : R s t) : EndsAlike R stop r (.ok a s) (.ok (r a) t)
  | error (e : Stop) {s t : State} (h : R s t) :
    EndsAlike R stop r (.error e s) (.error (stop e) t)

/-- Two checks that start in related states end in the same way. -/
structure Alike (R : State → State → Prop) (stop : Stop → Stop) (r : α → α') (x : Checking α)
    (y : Checking α') : Prop where
  of_run : ∀ s t, R s t → EndsAlike R stop r (x s) (y t)

namespace Alike

theorem done (a : α) : Alike R stop r (pure a) (pure (r a)) := ⟨fun _ _ h => .ok a h⟩

theorem next {x : Checking α} {y : Checking α'} {f : α → Checking β} {g : α' → Checking β'}
    (hx : Alike R stop r x y)
    (hf : ∀ a, (∃ s s', x s = .ok a s') → Alike R stop r' (f a) (g (r a))) :
    Alike R stop r' (x >>= f) (y >>= g) := by
  refine ⟨fun s t hst => ?_⟩
  have hends := hx.of_run s t hst
  change EndsAlike R stop r' (EStateM.bind x f s) (EStateM.bind y g t)
  rw [EStateM.bind, EStateM.bind]
  generalize hxs : x s = xs at hends ⊢
  generalize y t = yt at hends ⊢
  cases hends with
  | ok a h => exact (hf a ⟨s, _, hxs⟩).of_run _ _ h
  -- A check that has stopped does not reach its second part.
  | error e h => exact .error e h

theorem step {x : Checking α} {y : Checking α'} {f : α → Checking β} {g : α' → Checking β'}
    (hx : Alike R stop r x y) (hf : ∀ a, Alike R stop r' (f a) (g (r a))) :
    Alike R stop r' (x >>= f) (y >>= g) := hx.next fun a _ => hf a

theorem ite {p : Prop} [Decidable p] {x x' : Checking α} {y y' : Checking α'}
    (hx : Alike R stop r x y) (hx' : Alike R stop r x' y') :
    Alike R stop r (if p then x else x') (if p then y else y') := by
  split
  · exact hx
  · exact hx'

end Alike

end Alike

end Check

end Orchestrion
