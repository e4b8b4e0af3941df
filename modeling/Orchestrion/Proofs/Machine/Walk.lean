import Orchestrion.Proofs.Code.Jumps
import Orchestrion.Proofs.Machine.Steps

/-!
# Runs over instructions

A run of closed code carries out nothing but the instructions that the code consists of, and none of
them changes or reads a part of the state that it does not name. So what no instruction of the code
touches can be exchanged before a run as well as after it, and code without jumps comes to its end.
-/

namespace Orchestrion.Machine

open Instruction

def Progress.map (f : State → State) : Progress → Progress
  | .onward s => .onward (f s)
  | .finished s => .finished (f s)
  | .failed s fault => .failed (f s) fault
  | .crashed => .crashed

def Halt.map (f : State → State) : Halt → Halt
  | .finished s => .finished (f s)
  | .failed s fault => .failed (f s) fault
  | .crashed => .crashed
  | .exhausted => .exhausted

/-- A change to the place, the fields and the store of a state. -/
structure Recast where
  place : Int → Int := id
  fields : Array Float32 → Array Float32 := id
  store : Store → Store := id

namespace Recast

def apply (r : Recast) (s : State) : State :=
  { s with place := r.place s.place, fields := r.fields s.fields, store := r.store s.store }

/-- The instruction does not touch what is changed. -/
def Spares (r : Recast) : Instruction → Prop
  | .jump _ | .jumpIf _ _ => r.place = id
  | .loadField _ | .storeField _ => r.fields = id
  | .loadGlobal _ | .storeGlobal _ => r.store = id
  | .importGlobal _ _ | .exportField _ _ => r.fields = id ∧ r.store = id
  | _ => True

section State

variable (r : Recast) (c : Context) (s : State)

theorem map_ofState? (o : Option State) :
    (Progress.ofState? o).map r.apply = .ofState? (o.map r.apply) := by
  cases o <;> rfl

@[simp]
theorem push?_apply (v : Option Float32) : (r.apply s).push? c v = (s.push? c v).map r.apply := by
  cases v with
  | none => rfl
  | some v =>
    cases hstack : s.stack with
    | none => simp [State.push?, apply, hstack]
    | some vs =>
      simp only [State.push?, apply, hstack, bind, Option.bind]
      split <;> rfl

@[simp]
theorem pop?_apply : (r.apply s).pop? = s.pop?.map (Prod.map id r.apply) := by
  match hstack : s.stack with
  | none | some [] | some (_ :: _) => simp [State.pop?, apply, hstack]

@[simp]
theorem popMany?_apply (count : Int) :
    (r.apply s).popMany? count = (s.popMany? count).map (Prod.map id r.apply) := by
  cases hstack : s.stack with
  | none => simp [State.popMany?, apply, hstack]
  | some vs =>
    simp only [State.popMany?, apply, hstack, bind, Option.bind]
    split <;> rfl

theorem bind_popped {α : Type} {taken : Option (α × State)} {next : α × State → Option State}
    (h : ∀ a s, next (a, r.apply s) = (next (a, s)).map r.apply) :
    (taken.map (Prod.map id r.apply) >>= next) = (taken >>= next).map r.apply := by
  cases taken with
  | none => rfl
  | some popped => exact h popped.1 popped.2

@[simp]
theorem mapTop?_apply (f : Float32 → Float32) :
    (r.apply s).mapTop? f = (s.mapTop? f).map r.apply := by
  match hstack : s.stack with
  | none | some [] | some (_ :: _) => simp [State.mapTop?, apply, hstack]

@[simp]
theorem combine?_apply (f : Float32 → Float32 → Float32) :
    (r.apply s).combine? f = (s.combine? f).map r.apply := by
  match hstack : s.stack with
  | none | some [] | some [_] | some (_ :: _ :: _) => simp [State.combine?, apply, hstack]

@[simp]
theorem setArray?_apply (field : Int) (a : Array Float32) :
    (r.apply s).setArray? field a = (s.setArray? field a).map r.apply := by
  cases harrays : replace? s.arrays field a <;> simp [State.setArray?, apply, harrays]

theorem setField?_apply (h : r.fields = id) (field : Int) (v : Option Float32) :
    (r.apply s).setField? field v = (s.setField? field v).map r.apply := by
  cases v with
  | none => rfl
  | some v =>
    cases hfields : replace? s.fields field v <;> simp [State.setField?, apply, h, hfields]

theorem setGlobal?_apply (h : r.store = id) (slot : Int) (v : Option Float32) :
    (r.apply s).setGlobal? slot v = (s.setGlobal? slot v).map r.apply := by
  cases v with
  | none => rfl
  | some v =>
    cases hstore : replace? s.store slot v <;> simp [State.setGlobal?, apply, h, hstore]

theorem readElement_apply (field : Int) :
    readElement c (r.apply s) field = (readElement c s field).map r.apply := by
  simp only [readElement, apply]
  split
  · split <;> rfl
  · rfl

theorem writeElement_apply (field : Int) (keep : Bool) :
    writeElement c (r.apply s) field keep = (writeElement c s field keep).map r.apply := by
  simp only [writeElement, apply]
  split
  · split <;> rfl
  · rfl

theorem fillArray?_apply (field generator count : Int) :
    fillArray? (r.apply s) field generator count =
      (fillArray? s field generator count).map r.apply := by
  simp only [fillArray?, popMany?_apply]
  cases hpop : s.popMany? count with
  | none => rfl
  | some popped =>
    obtain ⟨args, s'⟩ := popped
    change (element? s'.arrays field).bind _ = ((element? s'.arrays field).bind _).map _
    cases element? s'.arrays field with
    | none => rfl
    | some a =>
      cases Generator.ofCode? generator with
      | none => rfl
      | some g => cases hfill : g.fill? a args <;> simp [hfill]

end State

end Recast

variable {c : Context} {s s' : State} {code : List Instruction}

theorem exec_recast {r : Recast} {i : Instruction} (h : r.Spares i) (s : State) :
    exec c (r.apply s) i = (exec c s i).map r.apply := by
  -- Each step of an instruction commutes with a change to what the instruction does not use.
  cases i with
  | nop | pop | ret => rfl
  | loadElem f | tableRead f => exact r.readElement_apply c s f
  | storeElem f => exact r.writeElement_apply c s f false
  | tableWrite f => exact r.writeElement_apply c s f true
  | jump offset =>
    rw [Recast.Spares] at h
    simp [exec, Progress.map, Recast.apply, h]
  | add | sub | mul | div | and | or | compare =>
    rw [exec, exec, Recast.map_ofState?, Recast.combine?_apply]
  | neg | trunc => rw [exec, exec, Recast.map_ofState?, Recast.mapTop?_apply]
  | tableGen f generator count => rw [exec, exec, Recast.map_ofState?, r.fillArray?_apply]
  | num k => rw [exec, exec, Recast.map_ofState?, ← Recast.push?_apply]
  | tableLen f =>
    rw [exec, exec, Recast.map_ofState?, ← Recast.push?_apply]
    rfl
  | loadField f =>
    rw [Recast.Spares] at h
    rw [exec, exec, Recast.map_ofState?, ← Recast.push?_apply]
    simp [Recast.apply, h]
  | newArray f size =>
    rw [exec, exec, Recast.map_ofState?]
    split
    · rw [Recast.setArray?_apply]
    · rfl
  | storeField f =>
    rw [Recast.Spares] at h
    rw [exec, exec, Recast.map_ofState?, Recast.pop?_apply]
    exact congrArg _ (r.bind_popped fun v s => r.setField?_apply s h f v)
  | jumpIf comparison offset =>
    rw [Recast.Spares] at h
    rw [exec, exec, Recast.map_ofState?, Recast.pop?_apply]
    refine congrArg _ (r.bind_popped fun v s => ?_)
    by_cases hholds : comparison.holds v <;> simp [hholds, Recast.apply, h]
  | call builtin count =>
    rw [exec, exec, Recast.map_ofState?, Recast.popMany?_apply]
    exact congrArg _ (r.bind_popped fun vs s => r.push?_apply c s _)
  | output =>
    rw [exec, exec, Recast.map_ofState?, Recast.pop?_apply]
    exact congrArg _ (r.bind_popped fun v s => rfl)
  | outputFrame count =>
    rw [exec, exec, Recast.map_ofState?, Recast.popMany?_apply]
    refine congrArg _ (r.bind_popped fun vs s => ?_)
    by_cases hcount : count ≤ c.unit.maxOutput <;> simp [hcount, Recast.apply, State.addSound]
  | loadStd name =>
    rw [exec, exec, Recast.map_ofState?]
    cases c.host with
    | none => rfl
    | some host => exact congrArg _ (r.push?_apply c s (some (standardValue host s.lifetime name)))
  | extend =>
    rw [exec, exec, Recast.map_ofState?]
    cases c.host with
    | none => rfl
    | some host =>
      rw [Recast.pop?_apply]
      exact congrArg _ (r.bind_popped fun v s => rfl)
  | turnoff =>
    rw [exec, exec, Recast.map_ofState?]
    cases c.host <;> rfl
  | loadGlobal g =>
    rw [Recast.Spares] at h
    rw [exec, exec, Recast.map_ofState?]
    cases c.host with
    | none => rfl
    | some host =>
      refine congrArg _ (Eq.trans ?_ (r.push?_apply c s _))
      simp [Recast.apply, h]
  | storeGlobal g =>
    rw [Recast.Spares] at h
    rw [exec, exec, Recast.map_ofState?]
    cases c.host with
    | none => rfl
    | some host =>
      rw [Recast.pop?_apply]
      exact congrArg _ (r.bind_popped fun v s => r.setGlobal?_apply s h g v)
  | importGlobal f g =>
    rw [Recast.Spares] at h
    rw [exec, exec, Recast.map_ofState?]
    cases c.host with
    | none => rfl
    | some host =>
      refine congrArg _ (Eq.trans ?_ (r.setField?_apply s h.1 f _))
      simp [Recast.apply, h]
  | exportField f g =>
    rw [Recast.Spares] at h
    rw [exec, exec, Recast.map_ofState?]
    cases c.host with
    | none => rfl
    | some host =>
      refine congrArg _ (Eq.trans ?_ (r.setGlobal?_apply s h.2 g _))
      simp [Recast.apply, h]

theorem apply_of_exec {r : Recast} {i : Instruction} (h : r.Spares i) (hs : r.apply s = s)
    (hexec : exec c s i = .onward s') : r.apply s' = s' := by
  have hrecast := exec_recast (c := c) h s
  rw [hs, hexec] at hrecast
  exact (Progress.onward.inj hrecast).symm

theorem place_of_exec {i : Instruction} (h : exec c s i = .onward s') :
    s'.place = s.place ∨ ∃ offset, i.offset? = some offset ∧ s'.place = s.place + offset := by
  cases hoffset : i.offset? with
  | none =>
    -- What no jump touches stays even if the place is set to what it is.
    have hspares : Recast.Spares { place := fun _ => s.place } i := by
      cases i with
      | jump => cases hoffset
      | jumpIf => cases hoffset
      | importGlobal | exportField => exact ⟨rfl, rfl⟩
      | loadField | storeField | loadGlobal | storeGlobal => rfl
      | _ => trivial
    exact .inl (congrArg State.place (apply_of_exec hspares rfl h)).symm
  | some offset =>
    cases i with
    | jump =>
      cases hoffset
      cases h
      exact .inr ⟨_, rfl, rfl⟩
    | jumpIf comparison =>
      cases hoffset
      match hstack : s.stack with
      | none | some [] => simp [exec, State.pop?, hstack, Progress.ofState?] at h
      | some (v :: vs) =>
        simp only [exec, State.pop?, hstack, Progress.ofState?, bind, Option.bind, pure] at h
        by_cases hholds : comparison.holds v
        · cases (Progress.onward.inj h).symm.trans (if_pos hholds)
          exact .inr ⟨offset, rfl, rfl⟩
        · cases (Progress.onward.inj h).symm.trans (if_neg hholds)
          exact .inl rfl
    | _ => cases hoffset

/-! ### Runs of closed code -/

theorem step_at {before behind : List Instruction} (hcode : c.code = wordsOf (before ++ behind))
    (hplace : s.place = wordCount before) :
    step c s = match behind with
      | [] => .finished s
      | i :: _ => exec c { s with place := s.place + i.size } i := by
  have hnonneg : 0 ≤ s.place := by omega
  have hrest : c.code.drop s.place.toNat = wordsOf behind := by
    rw [hcode, hplace, wordsOf_append, Int.toNat_natCast, ← length_wordsOf, List.drop_left]
  cases behind with
  | nil =>
    rw [step, if_neg (Int.not_lt.2 hnonneg), hrest]
    rfl
  | cons i behind =>
    refine step_of_fetch hnonneg ?_
    rw [hrest, wordsOf_cons, fetch_words_append]

theorem bound_of_step {rest : List Instruction} (hcode : c.code = wordsOf (code ++ rest))
    (hrest : rest = [] ∨ rest = [.ret]) (hclosed : Closed code) (h : Bound code s.place)
    (hstep : step c s = .onward s') : Bound code s'.place := by
  obtain ⟨before, behind, rfl, hplace⟩ := h
  rw [List.append_assoc] at hcode
  rw [step_at hcode hplace] at hstep
  cases behind with
  | nil => rcases hrest with rfl | rfl <;> cases hstep
  | cons i behind =>
    rcases place_of_exec hstep with hnext | ⟨offset, hoffset, hnext⟩
    · refine ⟨before ++ [i], behind, by simp, ?_⟩
      simpa [hplace] using hnext
    · have hland := (land_append.1 hclosed).2.1 offset hoffset
      rw [hnext]
      simpa [hplace] using hland

theorem step_recast {r : Recast} (hcode : c.code = wordsOf code) (hr : r.place = id)
    (hspares : ∀ i ∈ code, r.Spares i) (h : Bound code s.place) :
    step c (r.apply s) = (step c s).map r.apply := by
  obtain ⟨before, behind, rfl, hplace⟩ := h
  have hplace' : (r.apply s).place = wordCount before := by simpa [Recast.apply, hr] using hplace
  rw [step_at hcode hplace, step_at hcode hplace']
  cases behind with
  | nil => rfl
  | cons i behind =>
    have hexec := exec_recast (c := c) (hspares i (by simp)) { s with place := s.place + i.size }
    rw [← hexec]
    simp [Recast.apply, hr]

theorem run_recast {r : Recast} (hcode : c.code = wordsOf code) (hclosed : Closed code)
    (hr : r.place = id) (hspares : ∀ i ∈ code, r.Spares i) (n : Nat) (h : Bound code s.place) :
    run c n (r.apply s) = (run c n s).map r.apply := by
  induction n generalizing s with
  | zero => rfl
  | succ n ih =>
    rw [run, run, step_recast hcode hr hspares h]
    cases hstep : step c s with
    | onward s₁ =>
      have hcode' : c.code = wordsOf (code ++ []) := by rwa [List.append_nil]
      exact ih (bound_of_step hcode' (.inl rfl) hclosed h hstep)
    | finished => rfl
    | failed => rfl
    | crashed => rfl

theorem run_straight {before behind : List Instruction}
    (hcode : c.code = wordsOf (before ++ behind))
    (hstraight : ∀ i ∈ behind, i.offset? = none) (hplace : s.place = wordCount before) {n : Nat}
    (hn : behind.length < n) : run c n s ≠ .exhausted := by
  induction behind generalizing before n s with
  | nil =>
    obtain ⟨n, rfl⟩ := Nat.exists_eq_succ_of_ne_zero (Nat.ne_of_gt hn)
    rw [run, step_at hcode hplace]
    simp
  | cons i behind ih =>
    obtain ⟨n, rfl⟩ := Nat.exists_eq_succ_of_ne_zero (Nat.ne_zero_of_lt hn)
    rw [List.forall_mem_cons] at hstraight
    rw [run, step_at hcode hplace]
    split
    next s₁ hexec =>
      have hcode' : c.code = wordsOf (before ++ [i] ++ behind) := by simpa using hcode
      refine ih hcode' hstraight.2 ?_ (Nat.lt_of_succ_lt_succ hn)
      rcases place_of_exec hexec with hnext | ⟨offset, hoffset, -⟩
      · simpa [hplace] using hnext
      · cases hstraight.1.symm.trans hoffset
    all_goals simp

end Orchestrion.Machine
