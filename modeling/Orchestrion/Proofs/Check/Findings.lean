import Orchestrion.Proofs.Check.Spec
import Orchestrion.Proofs.Outcome

/-!
# What a check without complaints finds out

A part of a check takes nothing back: complaints, variables and attributes stay. So what it has
found out, if there are no complaints in the end, is true of every later table of attributes.
-/

namespace Orchestrion

namespace Attributes

/-- Whatever is set in the first table is set to the same in the second. -/
structure Le (as bs : Attributes) : Prop where
  signal : ∀ q x, (as.get q).signal = some x → (bs.get q).signal = some x
  payload : ∀ q x, (as.get q).payload = some x → (bs.get q).payload = some x

theorem Le.refl (as : Attributes) : as.Le as := ⟨fun _ _ h => h, fun _ _ h => h⟩

theorem Le.trans {as bs cs : Attributes} (h : as.Le bs) (h' : bs.Le cs) : as.Le cs :=
  ⟨fun q x hq => h'.signal q x (h.signal q x hq), fun q x hq => h'.payload q x (h.payload q x hq)⟩

theorem le_replace {as : Attributes} {p : Path} {a : Attribute}
    (hsignal : ∀ x, (as.get p).signal = some x → a.signal = some x)
    (hpayload : ∀ x, (as.get p).payload = some x → a.payload = some x) :
    as.Le (as.replace p a) := by
  constructor
  · intro q x hq
    rw [get_replace]
    by_cases hqp : q = p
    · subst hqp
      rw [if_pos rfl]
      exact hsignal x hq
    · rw [if_neg hqp]
      exact hq
  · intro q x hq
    rw [get_replace]
    by_cases hqp : q = p
    · subst hqp
      rw [if_pos rfl]
      exact hpayload x hq
    · rw [if_neg hqp]
      exact hq

end Attributes

namespace Check

/-- A part of a check takes nothing back. -/
structure Grows (s s' : State) : Prop where
  errors : s.errors <+: s'.errors
  attributes : s.attributes.Le s'.attributes

namespace Grows

variable {s s₁ s' : State}

theorem refl (s : State) : Grows s s := ⟨List.prefix_rfl, .refl _⟩

theorem trans (h : Grows s s₁) (h' : Grows s₁ s') : Grows s s' :=
  ⟨h.errors.trans h'.errors, h.attributes.trans h'.attributes⟩

theorem clean (h : Grows s s') (hs' : s'.errors = []) : s.errors = [] := by
  have hbefore := h.errors
  rwa [hs', List.prefix_nil] at hbefore

end Grows

/-! ### Parts of a check that declare nothing -/

/-- A part of a check that declares nothing. Without complaints, what it has found out is true of
the scope of the unit and of every table that keeps what is set. -/
structure Finds {α : Type} (c : Context) (x : Checking α) (found : Scope → Attributes → α → Prop) :
    Prop where
  of_ok : ∀ s a s', x s = .ok a s' → Grows s s' ∧ s'.locals = s.locals ∧
    (s'.errors = [] → ∀ as, s'.attributes.Le as → found ⟨s.locals, c.globals⟩ as a)

namespace Finds

variable {α β : Type} {c : Context} {x : Checking α} {found : Scope → Attributes → α → Prop}

theorem done {a : α} (h : ∀ σ as, found σ as a) : Finds c (pure a : Checking α) found := by
  refine ⟨fun s b s' hb => ?_⟩
  cases hb
  exact ⟨.refl s, rfl, fun _ as _ => h _ as⟩

theorem mono {less : Scope → Attributes → α → Prop} (h : Finds c x found)
    (hfound : ∀ σ as a, found σ as a → less σ as a) : Finds c x less := by
  refine ⟨fun s a s' ha => ?_⟩
  obtain ⟨hgrows, hlocals, hclean⟩ := h.of_ok s a s' ha
  exact ⟨hgrows, hlocals, fun hs' as has => hfound _ as a (hclean hs' as has)⟩

theorem step {f : α → Checking β} {more : Scope → Attributes → β → Prop} (hx : Finds c x found)
    (hf : ∀ a, Finds c (f a) fun σ as b => found σ as a → more σ as b) :
    Finds c (x >>= f) more := by
  refine ⟨fun s b s' hb => ?_⟩
  obtain ⟨a, s₁, ha, hb⟩ := exists_of_run_bind_eq_ok hb
  obtain ⟨hgrows, hlocals, hclean⟩ := hx.of_ok s a s₁ ha
  obtain ⟨hgrows', hlocals', hclean'⟩ := (hf a).of_ok s₁ b s' hb
  refine ⟨hgrows.trans hgrows', hlocals'.trans hlocals, fun hs' as has => ?_⟩
  -- What the first part has set is still there, so its findings hold of the later table.
  have hfound := hclean (hgrows'.clean hs') as (hgrows'.attributes.trans has)
  rw [hlocals] at hclean'
  exact hclean' hs' as has hfound

end Finds

section Steps

variable {α : Type} {p : Path} {c : Context}

theorem finds_complain (node : Node) (cause : Cause) :
    Finds c (complain c node cause) fun _ _ _ => False := by
  refine ⟨fun s a s' h => ?_⟩
  cases h
  refine ⟨⟨List.prefix_append _ _, .refl _⟩, rfl, fun hs' => ?_⟩
  simp at hs'

theorem finds_abandon (node : Node) (cause : Cause) {found : Scope → Attributes → α → Prop} :
    Finds c (abandon c node cause : Checking α) found := by
  refine ⟨fun s a s' h => ?_⟩
  cases h

theorem finds_resolve? (x : Text) :
    Finds c (resolve? c x) fun σ _ found => found = σ.resolve? x := by
  refine ⟨fun s a s' h => ?_⟩
  cases h
  exact ⟨.refl s, rfl, fun _ _ _ => rfl⟩

theorem setSignal_ok {node : Node} {w : Width} {r : Rate} {s s' : State}
    (h : setSignal p node w r s = .ok () s') :
    Grows s s' ∧ s'.locals = s.locals ∧ (s'.attributes.get p).signal = some (w, r) := by
  rw [setSignal_apply, Attributes.setSignal?] at h
  cases hset : (s.attributes.get p).signal with
  | some old =>
    rw [hset] at h
    cases h
  | none =>
    rw [hset] at h
    cases h
    refine ⟨⟨List.prefix_rfl, Attributes.le_replace ?_ fun _ h => h⟩, rfl, ?_⟩
    · rw [hset]
      intro x hx
      cases hx
    · rw [Attributes.get_replace, if_pos rfl]

theorem finds_setSignal (node : Node) (w : Width) (r : Rate) :
    Finds c (setSignal p node w r) fun _ as _ => (as.get p).signal = some (w, r) := by
  refine ⟨fun s a s' h => ?_⟩
  obtain ⟨hgrows, hlocals, hsignal⟩ := setSignal_ok h
  exact ⟨hgrows, hlocals, fun _ as has => has.signal p _ hsignal⟩

theorem finds_setPayload (node : Node) (x : Payload) :
    Finds c (setPayload p node x) fun _ as _ => (as.get p).payload = some x := by
  refine ⟨fun s a s' h => ?_⟩
  rw [setPayload_apply, Attributes.setPayload?] at h
  cases hset : (s.attributes.get p).payload with
  | some old =>
    rw [hset] at h
    cases h
  | none =>
    rw [hset] at h
    cases h
    refine ⟨⟨List.prefix_rfl, Attributes.le_replace (fun _ h => h) ?_⟩, rfl, fun _ as has => ?_⟩
    · rw [hset]
      intro x hx
      cases hx
    · refine has.payload p _ ?_
      rw [Attributes.get_replace, if_pos rfl]

end Steps

/-! ### Parts of a check that declare variables -/

/-- A part of a check that may declare variables. Without complaints, what it has found out is true
of the variables that it adds to the table and of every table of attributes that keeps what is set.
-/
structure Adds {α : Type} (x : Checking α) (found : List Entry → Attributes → α → Prop) : Prop where
  of_ok : ∀ s a s', x s = .ok a s' → Grows s s' ∧ (s'.errors = [] →
    ∃ es, s'.locals.entries = s.locals.entries ++ es ∧ ∀ as, s'.attributes.Le as → found es as a)

theorem Finds.adds {α : Type} {c : Context} {x : Checking α} {found : Attributes → α → Prop}
    (h : Finds c x fun _ => found) : Adds x fun es as a => es = [] ∧ found as a := by
  refine ⟨fun s a s' ha => ?_⟩
  obtain ⟨hgrows, hlocals, hfound⟩ := h.of_ok s a s' ha
  refine ⟨hgrows, fun hclean => ⟨[], ?_, fun as has => ⟨rfl, hfound hclean as has⟩⟩⟩
  rw [hlocals, List.append_nil]

namespace Adds

variable {α β : Type} {x : Checking α} {f : α → Checking β}
  {found : List Entry → Attributes → α → Prop} {more : List Entry → Attributes → β → Prop}

theorem done {a : α} (h : ∀ as, found [] as a) : Adds (pure a : Checking α) found := by
  refine ⟨fun s b s' hb => ?_⟩
  cases hb
  exact ⟨.refl s, fun _ => ⟨[], (List.append_nil _).symm, fun as _ => h as⟩⟩

theorem mono {less : List Entry → Attributes → α → Prop} (h : Adds x found)
    (hfound : ∀ es as a, found es as a → less es as a) : Adds x less := by
  refine ⟨fun s a s' ha => (h.of_ok s a s' ha).imp_right fun hadds hclean => ?_⟩
  obtain ⟨es, hes, ha⟩ := hadds hclean
  exact ⟨es, hes, fun as has => hfound es as a (ha as has)⟩

theorem step (hx : Adds x found)
    (hf : ∀ a, (∃ s s', x s = .ok a s') →
      Adds (f a) fun es' as b => ∀ es, found es as a → more (es ++ es') as b) :
    Adds (x >>= f) more := by
  refine ⟨fun s b s' hb => ?_⟩
  obtain ⟨a, s₁, ha, hb⟩ := exists_of_run_bind_eq_ok hb
  obtain ⟨hgrows, hfound⟩ := hx.of_ok s a s₁ ha
  obtain ⟨hgrows', hmore⟩ := (hf a ⟨s, s₁, ha⟩).of_ok s₁ b s' hb
  refine ⟨hgrows.trans hgrows', fun hclean => ?_⟩
  obtain ⟨es', hes', hmore⟩ := hmore hclean
  obtain ⟨es, hes, hfound⟩ := hfound (hgrows'.clean hclean)
  refine ⟨es ++ es', by rw [hes', hes, List.append_assoc], fun as has => hmore as has es ?_⟩
  exact hfound as (hgrows'.attributes.trans has)

end Adds

theorem adds_declare (e : Entry) :
    Adds (declare e) fun es _ free => es = if free then [e] else [] := by
  refine ⟨fun s a s' h => ?_⟩
  rw [declare_apply] at h
  cases hadd : s.locals.add? e with
  | none =>
    rw [hadd] at h
    cases h
    exact ⟨.refl s, fun _ => ⟨[], (List.append_nil _).symm, fun _ _ => rfl⟩⟩
  | some t =>
    rw [hadd] at h
    cases h
    exact ⟨⟨List.prefix_rfl, .refl _⟩, fun _ =>
      ⟨[e], VariableTable.entries_of_add? hadd, fun _ _ => rfl⟩⟩

end Check

end Orchestrion
