import Orchestrion.Proofs.LineTable
import Orchestrion.Proofs.Machine.Instructions

/-!
# Whole runs

A run starts at the first word of the code with an empty stack and ends with a return. If the code
before the return computes an evaluation, the run does exactly what the evaluation says: it
finishes, fails or goes on for ever if and only if the evaluation does, and leaves the same memory.
On its way it comes through safe states only.
-/

namespace Orchestrion.Machine

open Instruction Option

variable {c : Context} {s s' : State} {n g : Nat}

/-! ### Runs and steps -/

theorem run_add_of_ne {k : Nat} (h : run c k s ≠ .exhausted) (j : Nat) :
    run c (k + j) s = run c k s := by
  induction k generalizing s with
  | zero => exact absurd rfl h
  | succ k ih =>
    rw [Nat.add_right_comm, run, run]
    rw [run] at h
    split
    next s₁ hstep =>
      rw [hstep] at h
      exact ih h
    all_goals rfl

theorem run_unique {k j : Nat} {halt halt' : Halt} (hk : run c k s = halt) (hj : run c j s = halt')
    (hne : halt ≠ .exhausted) (hne' : halt' ≠ .exhausted) : halt = halt' := by
  subst hk hj
  rw [← run_add_of_ne hne j, ← run_add_of_ne hne' k, Nat.add_comm]

theorem Steps.run_of_le {k j : Nat} (h : Steps c k s s') (hle : j ≤ k) :
    run c j s = .exhausted := by
  induction h generalizing j with
  | refl =>
    obtain rfl := Nat.le_zero.1 hle
    rfl
  | cons _ hstep _ ih =>
    cases j with
    | zero => rfl
    | succ j =>
      rw [run, hstep]
      exact ih (Nat.le_of_succ_le_succ hle)

/-- A state that a run comes to after some steps. -/
inductive Reaches (c : Context) : Nat → State → State → Prop
  | refl (s : State) : Reaches c 0 s s
  | cons {k : Nat} {s s₁ s' : State} (hstep : step c s = .onward s₁) (h : Reaches c k s₁ s') :
    Reaches c (k + 1) s s'

theorem Steps.safe_or_reaches {k j : Nat} {s₁ : State} (h : Steps c k s s₁)
    (hreach : Reaches c j s s') : Safe c s' ∨ k ≤ j ∧ Reaches c (j - k) s₁ s' := by
  induction h generalizing j with
  | refl => exact .inr ⟨Nat.zero_le _, hreach⟩
  | cons hsafe hstep _ ih =>
    cases hreach with
    | refl => exact .inl hsafe
    | cons hstep' hreach =>
      rw [hstep] at hstep'
      cases hstep'
      rcases ih hreach with h | ⟨hle, h⟩
      · exact .inl h
      · exact .inr ⟨Nat.succ_le_succ hle, by rwa [Nat.add_sub_add_right]⟩

/-- A safe state from which no step leads on. -/
def Last (c : Context) (s : State) : Prop := Safe c s ∧ ∀ s', step c s ≠ .onward s'

theorem Steps.safe_of_last {k j : Nat} {s₁ : State} (h : Steps c k s s₁) (hlast : Last c s₁)
    (hreach : Reaches c j s s') : Safe c s' := by
  rcases h.safe_or_reaches hreach with hsafe | ⟨-, hreach⟩
  · exact hsafe
  · generalize j - k = i at hreach
    cases hreach with
    | refl => exact hlast.1
    | cons hstep _ => exact absurd hstep (hlast.2 _)

/-! ### Steps from safe states -/

section Safe

variable {vs : List Float32}

theorem exists_onward {o : Option State} (h : o.isSome = true) :
    ∃ s', Progress.ofState? o = .onward s' := by
  obtain ⟨s', rfl⟩ := isSome_iff_exists.1 h
  exact ⟨s', rfl⟩

theorem isSome_push? {v : Option Float32} (hstack : s.stack = some vs) (hv : v.isSome = true)
    (hroom : ((vs.length + 1 : Nat) : Int) ≤ c.unit.maxStack) : (s.push? c v).isSome = true := by
  obtain ⟨v, rfl⟩ := isSome_iff_exists.1 hv
  have hlt : vs.length < max 1 c.unit.maxStack.toNat := by omega
  simp only [State.push?, hstack, bind, Option.bind, if_pos hlt, isSome_some]

theorem isSome_replace? {α : Type} {xs : Array α} {i : Int} (h : (element? xs i).isSome = true)
    (x : α) : (replace? xs i x).isSome = true := by
  rw [element?] at h
  rw [replace?]
  split at h
  next hi => simpa [hi] using h
  next => cases h

theorem isSome_setField? {f : Int} (h : (element? s.fields f).isSome = true) (v : Float32) :
    (s.setField? f (some v)).isSome = true := by
  obtain ⟨fields, hfields⟩ := isSome_iff_exists.1 (isSome_replace? h v)
  simp [State.setField?, hfields]

theorem isSome_setGlobal? {k : Int} (h : (element? s.store k).isSome = true) (v : Float32) :
    (s.setGlobal? k (some v)).isSome = true := by
  obtain ⟨store, hstore⟩ := isSome_iff_exists.1 (isSome_replace? h v)
  simp [State.setGlobal?, hstore]

theorem isSome_setArray? {f : Int} (h : (element? s.arrays f).isSome = true) (a : Array Float32) :
    (s.setArray? f a).isSome = true := by
  obtain ⟨arrays, harrays⟩ := isSome_iff_exists.1 (isSome_replace? h a)
  simp [State.setArray?, harrays]

theorem popMany?_eq {count : Int} (hstack : s.stack = some vs) (hcount : 0 ≤ count)
    (hle : count.toNat ≤ vs.length) :
    s.popMany? count = some ((vs.take count.toNat).reverse,
      { s with stack := some (vs.drop count.toNat) }) := by
  have hguard : 0 ≤ count ∧ count.toNat ≤ vs.length := ⟨hcount, hle⟩
  simp only [State.popMany?, hstack, bind, Option.bind, if_pos hguard]

theorem readElement_cases {f : Int} {index : Float32} (hstack : s.stack = some (index :: vs))
    (h : (element? s.arrays f).isSome = true) :
    (∃ s', readElement c s f = .onward s') ∨
      ∃ s' k x size, readElement c s f = .failed s' (.index k x size) := by
  obtain ⟨a, ha⟩ := isSome_iff_exists.1 h
  simp only [readElement, ha, hstack]
  cases element? a (Number.singleToWord index).toInt with
  | some v => exact .inl ⟨_, rfl⟩
  | none => exact .inr ⟨_, _, _, _, rfl⟩

theorem writeElement_cases {f : Int} {v index : Float32} {keep : Bool}
    (hstack : s.stack = some (v :: index :: vs)) (h : (element? s.arrays f).isSome = true) :
    (∃ s', writeElement c s f keep = .onward s') ∨
      ∃ s' k x size, writeElement c s f keep = .failed s' (.index k x size) := by
  obtain ⟨a, ha⟩ := isSome_iff_exists.1 h
  simp only [writeElement, ha, hstack]
  split
  · exact .inl ⟨_, rfl⟩
  · exact .inr ⟨_, _, _, _, rfl⟩

theorem exec_cases {i : Instruction} (hstack : s.stack = some vs) (hrange : InRange c s i)
    (hhost : HasHost c i) (hpops : i.pops ≤ vs.length)
    (hroom : ((vs.length + if i.operation.pushes then 1 else 0 : Nat) : Int) ≤ c.unit.maxStack) :
    (∃ s', exec c s i = .onward s') ∨ (∃ s', exec c s i = .finished s') ∨
      i.accesses = true ∧ ∃ s' k x size, exec c s i = .failed s' (.index k x size) := by
  -- Matched along with `hpops`, the stack has all operands of the instruction on it.
  match i, vs, hpops with
  | .nop, _, _ | .jump _, _, _ | .pop, _, _ => exact .inl ⟨_, rfl⟩
  | .ret, _, _ => exact .inr (.inl ⟨_, rfl⟩)
  | .num _, _, _ | .loadField _, _, _ =>
    exact .inl (exists_onward (isSome_push? hstack hrange hroom))
  | .tableLen _, _, _ =>
    refine .inl (exists_onward (isSome_push? hstack ?_ hroom))
    rw [isSome_map]
    exact hrange
  | .loadGlobal _, _, _ =>
    obtain ⟨host, hhost⟩ := isSome_iff_exists.1 hhost
    refine .inl (exists_onward ?_)
    simp only [hhost, bind, Option.bind]
    exact isSome_push? hstack hrange hroom
  | .loadStd _, _, _ =>
    obtain ⟨host, hhost⟩ := isSome_iff_exists.1 hhost
    refine .inl (exists_onward ?_)
    simp only [hhost, bind, Option.bind]
    exact isSome_push? hstack isSome_some hroom
  | .storeField _, v :: _, _ =>
    refine .inl (exists_onward ?_)
    simp only [State.pop?, hstack, bind, Option.bind]
    exact isSome_setField? (by exact hrange) v
  | .storeGlobal _, v :: _, _ =>
    obtain ⟨host, hhost⟩ := isSome_iff_exists.1 hhost
    refine .inl (exists_onward ?_)
    simp only [State.pop?, hstack, hhost, bind, Option.bind]
    exact isSome_setGlobal? (by exact hrange) v
  | .importGlobal _ _, _, _ =>
    obtain ⟨host, hhost⟩ := isSome_iff_exists.1 hhost
    obtain ⟨v, hv⟩ := isSome_iff_exists.1 hrange.2
    refine .inl (exists_onward ?_)
    simp only [hhost, hv, bind, Option.bind]
    exact isSome_setField? hrange.1 v
  | .exportField _ _, _, _ =>
    obtain ⟨host, hhost⟩ := isSome_iff_exists.1 hhost
    obtain ⟨v, hv⟩ := isSome_iff_exists.1 hrange.1
    refine .inl (exists_onward ?_)
    simp only [hhost, hv, bind, Option.bind]
    exact isSome_setGlobal? hrange.2 v
  | .newArray _ _, _, _ =>
    refine .inl (exists_onward ?_)
    rw [if_pos hrange.2]
    exact isSome_setArray? hrange.1 _
  | .tableGen _ _ count, vs, hpops =>
    obtain ⟨hfield, hgenerator, hcount⟩ := hrange
    obtain ⟨a, ha⟩ := isSome_iff_exists.1 hfield
    obtain ⟨g, hg⟩ := isSome_iff_exists.1 hgenerator
    obtain ⟨filled, hfilled⟩ := g.exists_fill? a (vs.take count.toNat).reverse
    refine .inl (exists_onward ?_)
    simp only [fillArray?, popMany?_eq hstack hcount hpops, bind, Option.bind, ha, hg, hfilled]
    exact isSome_setArray? (by exact hfield) _
  | .loadElem _, _ :: _, _ | .tableRead _, _ :: _, _ =>
    exact (readElement_cases hstack hrange).imp_right fun h => .inr ⟨rfl, h⟩
  | .storeElem _, _ :: _ :: _, _ | .tableWrite _, _ :: _ :: _, _ =>
    exact (writeElement_cases hstack hrange).imp_right fun h => .inr ⟨rfl, h⟩
  | .add, _ :: _ :: _, _ | .sub, _ :: _ :: _, _ | .mul, _ :: _ :: _, _ | .div, _ :: _ :: _, _
  | .and, _ :: _ :: _, _ | .or, _ :: _ :: _, _ | .compare, _ :: _ :: _, _ =>
    refine .inl (exists_onward ?_)
    simp [State.combine?, hstack]
  | .neg, _ :: _, _ | .trunc, _ :: _, _ =>
    refine .inl (exists_onward ?_)
    simp [State.mapTop?, hstack]
  | .jumpIf _ _, _ :: _, _ | .output, _ :: _, _ =>
    refine .inl (exists_onward ?_)
    simp [State.pop?, hstack]
  | .extend, _ :: _, _ =>
    obtain ⟨host, hhost⟩ := isSome_iff_exists.1 hhost
    refine .inl (exists_onward ?_)
    simp [State.pop?, hstack, hhost]
  | .turnoff, _, _ =>
    obtain ⟨host, hhost⟩ := isSome_iff_exists.1 hhost
    refine .inl (exists_onward ?_)
    simp [hhost]
  | .outputFrame _, _, hpops =>
    refine .inl (exists_onward ?_)
    simp [popMany?_eq hstack hrange.1 hpops, hrange.2]
  | .call _ count, vs, hpops =>
    obtain ⟨hcount, b, hb, htakes⟩ := hrange
    refine .inl (exists_onward ?_)
    simp only [popMany?_eq hstack hcount hpops, bind, Option.bind, builtinValue?, hb]
    have hle : count.toNat ≤ vs.length := hpops
    have hpos := CoreOpcode.pos_of_takes htakes
    have hlength : (vs.take count.toNat).reverse.length = count.toNat := by
      rw [List.length_reverse, List.length_take, Nat.min_eq_left hle]
    refine isSome_push? rfl (Builtin.isSome_value? (by rwa [hlength])) ?_
    rw [List.length_drop]
    omega

theorem Ready.step_cases {i : Instruction} (h : Ready c s i vs) :
    (∃ s', step c s = .onward s') ∨ (∃ s', step c s = .finished s') ∨
      i.accesses = true ∧ ∃ s' k x size, step c s = .failed s' (.index k x size) := by
  rw [step_of_fetch h.place h.fetch]
  have hrange : InRange c { s with place := s.place + i.size } i := by
    have hrange := h.inRange
    cases i <;> exact hrange
  exact exec_cases (by exact h.stack) hrange h.hasHost h.pops h.room

end Safe

/-- A run that cannot go wrong: all states that it comes to are safe, and if it ends, it ends with a
return or at an access to an array with an index outside of it. -/
structure RunsSafely (c : Context) (s : State) : Prop where
  safe : ∀ k s', Reaches c k s s' → Safe c s'
  ends : ∀ k, run c k s = .exhausted ∨ (∃ s', run c k s = .finished s') ∨
    ∃ j s₁ s' i x size, Reaches c j s s₁ ∧ Accesses c s₁ ∧
      step c s₁ = .failed s' (.index i x size) ∧
      run c k s = .failed s' (.index i x size)

theorem runsSafely_of_safe (h : ∀ k s', Reaches c k s s' → Safe c s') : RunsSafely c s := by
  refine ⟨h, fun k => ?_⟩
  induction k generalizing s with
  | zero => exact .inl rfl
  | succ k ih =>
    obtain ⟨i, vs, hready⟩ := h 0 s (.refl s)
    rw [run]
    rcases hready.step_cases with ⟨s₁, hstep⟩ | ⟨s', hstep⟩ | ⟨haccess, s', j, x, size, hstep⟩
    -- The rest of the run comes to states that the whole run comes to.
    · rw [hstep]
      rcases ih fun k s' hreach => h (k + 1) s' (.cons hstep hreach) with
        hrun | hrun | ⟨j, s₂, s', i, x, size, hreach, hlast⟩
      · exact .inl hrun
      · exact .inr (.inl hrun)
      · exact .inr (.inr ⟨j + 1, s₂, s', i, x, size, .cons hstep hreach, hlast⟩)
    · rw [hstep]
      exact .inr (.inl ⟨s', rfl⟩)
    · exact .inr (.inr ⟨0, s, s', j, x, size, .refl s, ⟨i, vs, hready, haccess⟩,
        hstep, by rw [hstep]⟩)

/-! ### Refinement -/

theorem eq_of_state_eq {m m' : Memory n g} {p p' : Int} {vs vs' : List Float32}
    (h : m.state p vs = m'.state p' vs') : m = m' := by
  obtain ⟨fields, arrays, lifetime, store, sounds⟩ := m
  obtain ⟨fields', arrays', lifetime', store', sounds'⟩ := m'
  simp_all [Memory.state]

/-- A run from the start of the code does what an evaluation says, loops going round as often as
they have to: it finishes, fails and goes on for ever whenever the evaluation does, with the same
memory, and the evaluation has a meaning. -/
structure Refines (c : Context) (x : Nat → EStateM Interruption (Memory n g) Unit) : Prop where
  finished : ∀ m m', (∃ rounds, x rounds m = .ok () m') ↔
    ∃ k q, run c k (m.state 0 []) = .finished (m'.state q [])
  failed : ∀ m m' fault, (∃ rounds, x rounds m = .error (.fault fault) m') ↔
    ∃ k q vs, run c k (m.state 0 []) = .failed (m'.state q vs) fault
  diverges : ∀ m, (∀ rounds, ∃ m', x rounds m = .error .unfinished m') ↔
    ∀ k, run c k (m.state 0 []) = .exhausted
  defined : ∀ rounds m m', x rounds m ≠ .error .undefined m'

/-- The code before a return does what an evaluation says. -/
structure Performs (c : Context) (p : Nat) (x : Nat → EStateM Interruption (Memory n g) Unit) :
    Prop where
  leads : ∀ rounds m, Leads c rounds (m.state 0 []) (fun _ m' => m'.state p []) (x rounds m)
  code : CodeAt c p [.ret]
  room : 0 ≤ c.unit.maxStack

theorem performs_of_computes {js : List Instruction}
    {x : Nat → EStateM Interruption (Memory n g) Unit} (hcode : c.code = wordsOf (js ++ [.ret]))
    (hroom : (pushCount js : Int) ≤ c.unit.maxStack)
    (hx : ∀ rounds, Computes c rounds [] js (x rounds) fun _ => []) :
    Performs c (wordCount js) x := by
  have hat : CodeAt c 0 (js ++ [.ret]) := ⟨[], by rw [hcode, List.drop_zero, List.append_nil]⟩
  refine ⟨fun rounds m => ?_, ?_, by omega⟩
  · exact (hx rounds).leads_at _ [] m hat.left (Nat.zero_add _).symm (by simpa using hroom)
  · simpa using hat.right

namespace Performs

variable {p : Nat} {x : Nat → EStateM Interruption (Memory n g) Unit} {m m' : Memory n g}

variable (h : Performs c p x)

include h

theorem step_last (m : Memory n g) :
    step c (m.state p []) = .finished (m.state (p + 1 : Nat) []) := by
  rw [h.code.step]
  rfl

theorem last (m : Memory n g) : Last c (m.state p []) := by
  refine ⟨⟨.ret, [], h.code.ready trivial trivial (Nat.zero_le _) ?_⟩, fun s' hs' => ?_⟩
  · simpa [operation, Operation.pushes] using h.room
  · rw [h.step_last] at hs'
    cases hs'

theorem run_of_ok {rounds : Nat} (hm : x rounds m = .ok () m') :
    ∃ k, run c k (m.state 0 []) = .finished (m'.state (p + 1 : Nat) []) := by
  have hleads := h.leads rounds m
  rw [hm] at hleads
  obtain ⟨k, hsteps⟩ := hleads
  exact ⟨k + 1, by rw [hsteps.run_add, run, h.step_last]⟩

theorem run_of_fault {rounds : Nat} {fault : RuntimeFault}
    (hm : x rounds m = .error (.fault fault) m') :
    ∃ k q vs, run c k (m.state 0 []) = .failed (m'.state q vs) fault := by
  have hleads := h.leads rounds m
  rw [hm] at hleads
  obtain ⟨k, _, q, vs, hsteps, -, hstep⟩ := hleads
  exact ⟨k + 1, q, vs, by rw [hsteps.run_add, run, hstep]⟩

theorem run_of_unfinished {rounds : Nat}
    (hm : x rounds m = .error .unfinished m') : run c rounds (m.state 0 []) = .exhausted := by
  have hleads := h.leads rounds m
  rw [hm] at hleads
  obtain ⟨k, s', hle, hsteps⟩ := hleads
  exact hsteps.run_of_le hle

theorem ne_undefined (rounds : Nat) (m m' : Memory n g) : x rounds m ≠ .error .undefined m' := by
  intro hm
  have hleads := h.leads rounds m
  rw [hm] at hleads
  exact hleads

theorem run_cases (k : Nat) (m : Memory n g) :
    run c k (m.state 0 []) = .exhausted ∨
      (∃ m' q, x k m = .ok () m' ∧ run c k (m.state 0 []) = .finished (m'.state q [])) ∨
      ∃ m' q vs fault, x k m = .error (.fault fault) m' ∧
        run c k (m.state 0 []) = .failed (m'.state q vs) fault := by
  by_cases hk : run c k (m.state 0 []) = .exhausted
  · exact .inl hk
  -- As many rounds as the run took steps are enough: the evaluation cannot be unfinished.
  · match hm : x k m with
    | .ok () m' =>
      obtain ⟨j, hj⟩ := h.run_of_ok hm
      exact .inr (.inl ⟨m', _, rfl, run_unique rfl hj hk nofun⟩)
    | .error (.fault fault) m' =>
      obtain ⟨j, q, vs, hj⟩ := h.run_of_fault hm
      exact .inr (.inr ⟨m', q, vs, fault, rfl, run_unique rfl hj hk nofun⟩)
    | .error .unfinished m' => exact absurd (h.run_of_unfinished hm) hk
    | .error .undefined m' => exact absurd hm (h.ne_undefined k m m')

theorem refines : Refines c x where
  finished m m' := by
    refine ⟨fun ⟨rounds, hm⟩ => ?_, fun ⟨k, q, hk⟩ => ?_⟩
    · obtain ⟨k, hk⟩ := h.run_of_ok hm
      exact ⟨k, _, hk⟩
    · rcases h.run_cases k m with hrun | ⟨m₁, q', hm, hrun⟩ | ⟨m₁, q', vs, fault, -, hrun⟩ <;>
        rw [hk] at hrun
      · cases hrun
      · injection hrun with hstate
        exact ⟨k, by rw [hm, eq_of_state_eq hstate]⟩
      · cases hrun
  failed m m' fault := by
    refine ⟨fun ⟨rounds, hm⟩ => h.run_of_fault hm, fun ⟨k, q, vs, hk⟩ => ?_⟩
    rcases h.run_cases k m with hrun | ⟨m₁, q', -, hrun⟩ | ⟨m₁, q', vs', fault', hm, hrun⟩ <;>
      rw [hk] at hrun
    · cases hrun
    · cases hrun
    · injection hrun with hstate hfault
      exact ⟨k, by rw [hm, eq_of_state_eq hstate, hfault]⟩
  diverges m := by
    refine ⟨fun hm k => ?_, fun hk rounds => ?_⟩
    · obtain ⟨m', hm'⟩ := hm k
      exact h.run_of_unfinished hm'
    · match hm : x rounds m with
      | .ok () m₁ =>
        obtain ⟨j, hj⟩ := h.run_of_ok hm
        rw [hk j] at hj
        cases hj
      | .error (.fault fault) m₁ =>
        obtain ⟨j, q, vs, hj⟩ := h.run_of_fault hm
        rw [hk j] at hj
        cases hj
      | .error .unfinished m₁ => exact ⟨m₁, rfl⟩
      | .error .undefined m₁ => exact absurd hm (h.ne_undefined rounds m m₁)
  defined := h.ne_undefined

theorem safe_of_reaches {j : Nat} (hreach : Reaches c j (m.state 0 []) s) : Safe c s := by
  have hleads := h.leads (j + 1) m
  match hm : x (j + 1) m with
  | .ok () m₁ =>
    rw [hm] at hleads
    obtain ⟨k, hsteps⟩ := hleads
    exact hsteps.safe_of_last (h.last m₁) hreach
  | .error (.fault fault) m₁ =>
    rw [hm] at hleads
    obtain ⟨k, q, q', vs, hsteps, ⟨i, ws, hready, -⟩, hstep⟩ := hleads
    refine hsteps.safe_of_last ⟨⟨i, ws, hready⟩, fun s' hs' => ?_⟩ hreach
    rw [hstep] at hs'
    cases hs'
  | .error .unfinished m₁ =>
    rw [hm] at hleads
    obtain ⟨k, s', hle, hsteps⟩ := hleads
    rcases hsteps.safe_or_reaches hreach with hsafe | ⟨hle', -⟩
    · exact hsafe
    · omega
  | .error .undefined m₁ => exact absurd hm (h.ne_undefined _ m m₁)

end Performs

end Orchestrion.Machine
