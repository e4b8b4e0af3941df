import Mathlib.Tactic.Common

/-!
# Computations that succeed

What a computation that may fail went through if it succeeded: computations one after the other
succeed one after the other, and a computation for each element of a list succeeds for each of them.
-/

namespace Orchestrion

variable {ε α β : Type}

theorem exists_of_bind_eq_ok {x : Except ε α} {f : α → Except ε β} {b : β}
    (h : (x >>= f) = .ok b) : ∃ a, x = .ok a ∧ f a = .ok b := by
  cases x with
  | error e => cases h
  | ok a => exact ⟨a, rfl, h⟩

theorem bind_of_eq_ok {x : Except ε α} {a : α} (h : x = .ok a) (f : α → Except ε β) :
    (x >>= f) = f a := by
  rw [h]
  rfl

theorem toOption_eq_some_iff {x : Except ε α} {a : α} : x.toOption = some a ↔ x = .ok a := by
  cases x <;> simp [Except.toOption]

theorem exists_of_run_bind_eq_ok {σ : Type} {x : EStateM ε σ α} {f : α → EStateM ε σ β} {s s' : σ}
    {b : β} (h : (x >>= f) s = .ok b s') : ∃ a s₁, x s = .ok a s₁ ∧ f a s₁ = .ok b s' := by
  change EStateM.bind x f s = .ok b s' at h
  rw [EStateM.bind] at h
  split at h
  next a s₁ ha => exact ⟨a, s₁, ha, h⟩
  next => cases h

theorem run_bind_of_eq_ok {σ : Type} {x : EStateM ε σ α} {s s₁ : σ} {a : α} (h : x s = .ok a s₁)
    (f : α → EStateM ε σ β) : (x >>= f) s = f a s₁ := by
  change EStateM.bind x f s = f a s₁
  rw [EStateM.bind, h]

theorem forall₂_of_mapM_eq_ok {f : α → Except ε β} {xs : List α} {ys : List β}
    (h : xs.mapM f = .ok ys) : List.Forall₂ (fun x y => f x = .ok y) xs ys := by
  induction xs generalizing ys with
  | nil =>
    cases h
    exact .nil
  | cons x xs ih =>
    rw [List.mapM_cons] at h
    obtain ⟨y, hy, h⟩ := exists_of_bind_eq_ok h
    obtain ⟨ys', hys, h⟩ := exists_of_bind_eq_ok h
    cases h
    exact .cons hy (ih hys)

theorem mapM_eq_ok_iff {f : α → Except ε β} {xs : List α} {ys : List β} :
    xs.mapM f = .ok ys ↔ List.Forall₂ (fun x y => f x = .ok y) xs ys := by
  refine ⟨forall₂_of_mapM_eq_ok, fun h => ?_⟩
  induction h with
  | nil => rfl
  | cons h _ ih => rw [List.mapM_cons, bind_of_eq_ok h, bind_of_eq_ok ih]; rfl

theorem exists_of_mapM_eq_error {f : α → Except ε β} {xs : List α} {e : ε}
    (h : xs.mapM f = .error e) : ∃ x ∈ xs, f x = .error e := by
  induction xs with
  | nil => cases h
  | cons x xs ih =>
    rw [List.mapM_cons] at h
    cases hx : f x with
    | error e' =>
      rw [hx] at h
      cases h
      exact ⟨x, List.mem_cons_self, hx⟩
    | ok y =>
      cases hxs : xs.mapM f with
      | error e' =>
        rw [hx, hxs] at h
        cases h
        obtain ⟨x', hx', hfail⟩ := ih hxs
        exact ⟨x', List.mem_cons_of_mem _ hx', hfail⟩
      | ok ys =>
        rw [hx, hxs] at h
        cases h

theorem exists_bind_eq_ok {x : Except ε α} {f : α → Except ε β} (hx : ∃ a, x = .ok a)
    (hf : ∀ a, ∃ b, f a = .ok b) : ∃ b, (x >>= f) = .ok b := by
  obtain ⟨a, rfl⟩ := hx
  exact hf a

theorem exists_mapM_eq_ok {f : α → Except ε β} (h : ∀ x, ∃ y, f x = .ok y) (xs : List α) :
    ∃ ys, xs.mapM f = .ok ys := by
  induction xs with
  | nil => exact ⟨[], rfl⟩
  | cons x xs ih =>
    obtain ⟨y, hy⟩ := h x
    obtain ⟨ys, hys⟩ := ih
    exact ⟨y :: ys, by rw [List.mapM_cons, hy, hys]; rfl⟩

/-! ### Two computations side by side -/

variable {ε' α' β' : Type}

/-- Two computations both fail, the second with what is made of the fault of the first, or both
succeed with related results. -/
inductive Together (fault : ε → ε') (related : α → α' → Prop) :
    Except ε α → Except ε' α' → Prop where
  | ok {a : α} {a' : α'} (h : related a a') : Together fault related (.ok a) (.ok a')
  | error (e : ε) : Together fault related (.error e) (.error (fault e))

namespace Together

variable {fault : ε → ε'} {related : α → α' → Prop} {also : β → β' → Prop}

theorem bind {x : Except ε α} {x' : Except ε' α'} {f : α → Except ε β} {f' : α' → Except ε' β'}
    (hx : Together fault related x x')
    (hf : ∀ a a', related a a' → Together fault also (f a) (f' a')) :
    Together fault also (x >>= f) (x' >>= f') := by
  cases hx with
  | ok h => exact hf _ _ h
  | error e => exact .error e

theorem mapM {f : α → Except ε β} {f' : α' → Except ε' β'} {xs : List α} {xs' : List α'}
    (hxs : List.Forall₂ related xs xs')
    (hf : ∀ x x', related x x' → Together fault also (f x) (f' x')) :
    Together fault (List.Forall₂ also) (xs.mapM f) (xs'.mapM f') := by
  induction hxs with
  | nil => exact .ok .nil
  | cons h _ ih =>
    rw [List.mapM_cons, List.mapM_cons]
    exact .bind (hf _ _ h) fun _ _ hhead => .bind ih fun _ _ htail => .ok (.cons hhead htail)

theorem common {x y : Except ε α} {z : Except ε' α'} (hx : Together fault related x z)
    (hy : Together fault related y z) :
    (∃ e f, x = .error e ∧ y = .error f ∧ fault e = fault f) ∨
      ∃ a b c, x = .ok a ∧ y = .ok b ∧ related a c ∧ related b c := by
  cases hx with
  | ok ha =>
    cases hy with
    | ok hb => exact .inr ⟨_, _, _, rfl, rfl, ha, hb⟩
  | error e =>
    generalize hfault : fault e = e' at hy
    cases hy with
    | error f => exact .inl ⟨e, f, rfl, rfl, hfault⟩

end Together

end Orchestrion
