import Orchestrion.Proofs.Code.Translation
import Orchestrion.Proofs.Machine.Blocks

/-!
# What single instructions compute

One rule for each instruction that is generated, as a block of its own: what it takes from the
stack, what it puts there, and what it does to the memory.
-/

namespace Orchestrion

section Arrays

variable {α : Type} {n : Nat}

@[simp]
theorem element?_toArray (v : Vector α n) (f : Fin n) :
    element? v.toArray (f : Nat) = some v[f] := by
  simp [element?]

@[simp]
theorem replace?_toArray (v : Vector α n) (f : Fin n) (a : α) :
    replace? v.toArray (f : Nat) a = some (v.set f a).toArray := by
  simp [replace?, Array.setIfInBounds]

theorem modify_toArray (v : Vector α n) (f : Fin n) (change : α → α) :
    v.toArray.modify f change = (v.set f (change v[f])).toArray := by
  ext k hk hk'
  · simp
  · simp only [Array.getElem_modify, Vector.toArray_set, Array.getElem_set]
    split
    next hf => simp [← hf]
    next => rfl

end Arrays

@[simp]
theorem StandardName.ofCode?_code (s : StandardName) : ofCode? s.code = some s := by
  cases s <;> rfl

@[simp]
theorem Builtin.ofCode?_code (b : Builtin) : ofCode? b.code = some b := by
  cases b <;> rfl

theorem Builtin.isSome_value? {b : Builtin} {vs : List Float32}
    (h : (CoreOpcode.builtin b).takes vs.length = true) : (b.value? vs).isSome := by
  match vs, h with
  | [], h => cases b <;> cases h
  | [x], h => cases b <;> first | rfl | cases h
  | x :: y :: vs, _ => cases b <;> rfl

namespace Machine

open Instruction

variable {n g : Nat} {α : Type} {c : Context} {rounds : Nat} {before : List Float32}
  {x : EStateM Interruption (Memory n g) α} {after : α → List Float32} {i : Instruction}

theorem Computes.access (haccess : i.accesses = true) (hpops : i.pops ≤ before.length)
    (hrange : ∀ (m : Memory n g) p vs, InRange c (m.state p vs) i)
    (h : ∀ m (q : Int) vs, match x m with
      | .ok a m' => (after a).length ≤ before.length ∧
        exec c (m.state q (before ++ vs)) i = .onward (m'.state q (after a ++ vs))
      | .error e m' => m' = m ∧ ∃ fault, e = .fault fault ∧
        exec c (m.state q (before ++ vs)) i = .failed (m.state q (before ++ vs)) fault) :
    Computes c rounds before [i] x after where
  leads p vs m hcode hroom := by
    have hpushes : i.operation.pushes = false := by
      cases i <;> first | rfl | cases haccess
    have hhost : HasHost c i := by
      cases i <;> trivial
    have hready : Ready c (m.state p (before ++ vs)) i (before ++ vs) := by
      refine hcode.ready (hrange m p _) hhost ?_ ?_
      · rw [List.length_append]
        omega
      · rw [List.length_append]
        simpa [hpushes] using hroom
    have hm := h m (p + i.size : Nat) vs
    split at hm
    next a m' hok =>
      rw [hok]
      refine ⟨1, .one ⟨i, _, hready⟩ ?_⟩
      rw [hcode.step, hm.2, wordCount_cons, wordCount_nil, Nat.add_zero]
    next e m' herror =>
      obtain ⟨rfl, fault, rfl, hexec⟩ := hm
      rw [herror]
      exact ⟨0, p, _, _, .refl _, ⟨i, _, hready, haccess⟩, (hcode.step ..).trans hexec⟩
  height a m m' hm := by
    have hle := h m 0 []
    rw [hm] at hle
    exact Nat.le_trans hle.1 (Nat.le_add_right ..)

/-! ### The stack -/

theorem computes_push {v : Float} (h : Emit.PushCode c.unit v i) (a : α) :
    Computes c rounds [] [i] (pure a : EStateM Interruption (Memory n g) α)
      fun _ => [c.unit.pooled v] := by
  obtain ⟨k, rfl, hk, -⟩ := h
  have hnum : c.unit.num? k = some (c.unit.pooled v) := by
    simpa [CompiledUnit.num?, CompiledUnit.numbered?] using hk
  refine .single trivial (Nat.zero_le _) fun m => ⟨a, m, rfl, ?_, fun p q vs hroom => ⟨?_, ?_⟩⟩
  · simp [operation, Operation.pushes]
  · simp [InRange, hnum]
  · rw [exec, hnum, List.nil_append,
      push?_state (by simpa [operation, Operation.pushes] using hroom)]
    rfl

theorem computes_pop (v : Float32) (a : α) :
    Computes c rounds [v] [.pop] (pure a : EStateM Interruption (Memory n g) α) fun _ => [] :=
  .single trivial (Nat.le_refl _) fun m => ⟨a, m, rfl, Nat.zero_le _, fun _ _ _ _ => ⟨trivial, rfl⟩⟩

theorem computes_trunc (v : Float32) (a : α) :
    Computes c rounds [v] [.trunc] (pure a : EStateM Interruption (Memory n g) α)
      fun _ => [Number.truncate v] :=
  .single trivial (Nat.le_refl _) fun m => ⟨a, m, rfl, Nat.le_add_right .., fun _ _ _ _ =>
    ⟨trivial, rfl⟩⟩

theorem computes_neg (v : Float32) :
    Computes c rounds [v] [.neg] (pure (-v) : EStateM Interruption (Memory n g) Float32)
      fun v => [v] :=
  .single trivial (Nat.le_refl _) fun m => ⟨-v, m, rfl, Nat.le_add_right .., fun _ _ _ _ =>
    ⟨trivial, rfl⟩⟩

theorem computes_compare (l r : Float32) (a : α) :
    Computes c rounds [r, l] [.compare] (pure a : EStateM Interruption (Memory n g) α)
      fun _ => [order l r] :=
  .single trivial (Nat.le_refl _) fun m => ⟨a, m, rfl, Nat.le_succ 1, fun _ _ _ _ => ⟨trivial, rfl⟩⟩

theorem computes_direct {op : BinaryOp} (h : Emit.combination op = .direct i) (σ : Scene)
    (l r : Float32) :
    Computes c rounds [r, l] [i]
      (pure (σ.operate op l r) : EStateM Interruption (Memory n g) Float32) fun v => [v] := by
  cases op <;> cases h <;>
    exact .single trivial (Nat.le_refl _) fun m => ⟨_, m, rfl, Nat.le_succ 1, fun _ _ _ _ =>
      ⟨trivial, rfl⟩⟩

theorem computes_call {b : Builtin} {vs : List Float32} {v : Float32}
    (htakes : (CoreOpcode.builtin b).takes vs.length = true) (hv : b.value? vs = some v) :
    Computes c rounds vs.reverse [.call b.code vs.length]
      (pure v : EStateM Interruption (Memory n g) Float32) fun v => [v] := by
  have hpos := CoreOpcode.pos_of_takes htakes
  refine .single trivial (by simp [pops]) fun m => ⟨v, m, rfl, ?_, fun p q ws hroom => ⟨?_, ?_⟩⟩
  · rw [List.length_reverse]
    exact Nat.le_trans hpos (Nat.le_add_right ..)
  · exact ⟨Int.natCast_nonneg _, b, b.ofCode?_code, htakes⟩
  · rw [List.length_reverse] at hroom
    rw [exec, popMany?_state]
    simp only [bind, Option.bind, builtinValue?, Builtin.ofCode?_code, hv]
    rw [push?_state (by omega)]
    rfl

/-! ### Sounds -/

theorem computes_output (σ : Scene) (v : Float32) :
    Computes c rounds [v] [.output] (σ.send [v]) fun _ => [] :=
  .single trivial (Nat.le_refl _) fun _ => ⟨(), _, rfl, Nat.zero_le _, fun _ _ _ _ =>
    ⟨trivial, rfl⟩⟩

theorem computes_outputFrame (σ : Scene) {vs : List Float32} (hcount : vs.length ≠ 1)
    (hroom : (vs.length : Int) ≤ c.unit.maxOutput) :
    Computes c rounds vs.reverse [.outputFrame vs.length] (σ.send vs) fun _ => [] := by
  have hsend : σ.send vs = modify fun m => { m with sounds := m.sounds.push (.frame vs) } := by
    rw [Scene.send]
    rintro v rfl
    exact hcount rfl
  rw [hsend]
  refine .single trivial (by simp [pops]) fun m => ⟨(), _, rfl, Nat.zero_le _,
    fun p q ws _ => ⟨⟨Int.natCast_nonneg _, hroom⟩, ?_⟩⟩
  rw [exec, popMany?_state]
  simp only [bind, Option.bind, if_pos hroom]
  rfl

/-! ### Variables -/

/-- The unit of the context is played in the scene: it has one field for each variable, and there is
a performance around it. -/
structure Context.Plays (c : Context) (σ : Scene) : Prop where
  host : c.host = some σ.host
  fields : c.unit.fields.map Field.ident = σ.locals.entries.map Entry.ident
  zero : c.unit.pooled 0 = σ.zero

section Plays

variable {σ : Scene}

theorem Context.Plays.ident {x : Text} {f : Fin σ.locals.entries.length} (hplays : c.Plays σ)
    (hf : σ.local? x = some f) : (c.unit.fieldAt? (f : Nat)).map Field.ident = some x := by
  obtain ⟨hfound, -⟩ := List.findFinIdx?_eq_some_iff.1 hf
  have hx : σ.locals.entries[f.val].ident = x := of_decide_eq_true hfound
  have hfields := congrArg (fun idents : List Text => idents[f.val]?) hplays.fields
  simpa [CompiledUnit.fieldAt?, CompiledUnit.numbered?, hx] using hfields

theorem computes_loadField (f : Fin σ.locals.entries.length) :
    Computes c rounds [] [.loadField (f : Nat)]
      (do return (← get).fields.get f : σ.Evaluation Float32) fun v => [v] := by
  refine .single trivial (Nat.zero_le _) fun m => ⟨m.fields[f], m, rfl, Nat.le_refl _,
    fun p q vs hroom => ⟨?_, ?_⟩⟩
  · simp [InRange, Memory.state]
  · have hroom' : ((vs.length + 1 : Nat) : Int) ≤ c.unit.maxStack := by
      simpa [operation, Operation.pushes] using hroom
    rw [exec, List.nil_append, show (m.state q vs).fields = m.fields.toArray from rfl,
      element?_toArray, push?_state hroom']
    rfl

theorem computes_storeField (f : Fin σ.locals.entries.length) (v : Float32) :
    Computes c rounds [v] [.storeField (f : Nat)] (σ.assign v (.field f)) fun _ => [] := by
  refine .single trivial (Nat.le_refl _) fun m => ⟨(), _, rfl, Nat.zero_le _,
    fun p q vs _ => ⟨?_, ?_⟩⟩
  · simp [InRange, Memory.state]
  · simp [exec, State.setField?, Memory.state, State.pop?, Progress.ofState?]

theorem computes_loadGlobal (hplays : c.Plays σ) (k : Fin σ.layout.names.length) :
    Computes c rounds [] [.loadGlobal (k : Nat)]
      (do return (← get).store.get k : σ.Evaluation Float32) fun v => [v] := by
  refine .single ?_ (Nat.zero_le _) fun m => ⟨m.store[k], m, rfl, Nat.le_refl _,
    fun p q vs hroom => ⟨?_, ?_⟩⟩
  · simp [HasHost, hplays.host]
  · simp [InRange, Memory.state]
  · have hroom' : ((vs.length + 1 : Nat) : Int) ≤ c.unit.maxStack := by
      simpa [operation, Operation.pushes] using hroom
    rw [exec, hplays.host, List.nil_append, show (m.state q vs).store = m.store.toArray from rfl,
      element?_toArray]
    simp only [bind, Option.bind, push?_state hroom']
    rfl

theorem computes_storeGlobal (hplays : c.Plays σ) (k : Fin σ.layout.names.length) (v : Float32) :
    Computes c rounds [v] [.storeGlobal (k : Nat)] (σ.assign v (.global k)) fun _ => [] := by
  refine .single ?_ (Nat.le_refl _) fun m => ⟨(), _, rfl, Nat.zero_le _, fun p q vs _ => ⟨?_, ?_⟩⟩
  · simp [HasHost, hplays.host]
  · simp [InRange, Memory.state]
  · simp [exec, hplays.host, State.setGlobal?, Memory.state, State.pop?, Progress.ofState?]

theorem computes_loadStd (hplays : c.Plays σ) (s : StandardName) :
    Computes c rounds [] [.loadStd s.code]
      (do return σ.host.standard (← get).lifetime s : σ.Evaluation Float32) fun v => [v] := by
  refine .single ?_ (Nat.zero_le _) fun m => ⟨σ.host.standard m.lifetime s, m, rfl, Nat.le_refl _,
    fun p q vs hroom => ⟨?_, ?_⟩⟩
  · simp [HasHost, hplays.host]
  · simp [InRange]
  · have hroom' : ((vs.length + 1 : Nat) : Int) ≤ c.unit.maxStack := by
      simpa [operation, Operation.pushes] using hroom
    rw [exec, hplays.host, List.nil_append]
    simp only [bind, Option.bind, standardValue, StandardName.ofCode?_code, push?_state hroom']
    rfl

theorem computes_importGlobal (hplays : c.Plays σ) {e : Entry} {f : Fin σ.locals.entries.length}
    {k : Fin σ.layout.names.length} (hf : σ.local? e.ident = some f)
    (hk : σ.global? e.ident = some k) :
    Computes c rounds [] [.importGlobal (f : Nat) (k : Nat)] (σ.importEntry e) fun _ => [] := by
  rw [Scene.importEntry, hf, hk]
  refine .single ?_ (Nat.zero_le _) fun m => ⟨(), _, rfl, Nat.zero_le _, fun p q vs _ => ⟨?_, ?_⟩⟩
  · simp [HasHost, hplays.host]
  · simp [InRange, Memory.state]
  · simp [exec, hplays.host, State.setField?, Memory.state, Progress.ofState?]

theorem computes_exportField (hplays : c.Plays σ) {e : Entry} {f : Fin σ.locals.entries.length}
    {k : Fin σ.layout.names.length} (hf : σ.local? e.ident = some f)
    (hk : σ.global? e.ident = some k) :
    Computes c rounds [] [.exportField (f : Nat) (k : Nat)] (σ.exportEntry e) fun _ => [] := by
  rw [Scene.exportEntry, hf, hk]
  refine .single ?_ (Nat.zero_le _) fun m => ⟨(), _, rfl, Nat.zero_le _, fun p q vs _ => ⟨?_, ?_⟩⟩
  · simp [HasHost, hplays.host]
  · simp [InRange, Memory.state]
  · simp [exec, hplays.host, State.setGlobal?, Memory.state, Progress.ofState?]

/-! ### The lifetime -/

theorem computes_extend (hplays : c.Plays σ) (v : Float32) :
    Computes c rounds [v] [.extend]
      (modify fun m => { m with
        lifetime := m.lifetime.extend (σ.host.settings.ticks (Number.widen v)) } :
        σ.Evaluation Unit) fun _ => [] := by
  refine .single ?_ (Nat.le_refl _) fun m => ⟨(), _, rfl, Nat.zero_le _,
    fun p q vs _ => ⟨trivial, ?_⟩⟩
  · simp [HasHost, hplays.host]
  · simp [exec, hplays.host, Memory.state, State.pop?, Progress.ofState?]

theorem computes_turnoff (hplays : c.Plays σ) :
    Computes c rounds [] [.turnoff]
      (modify fun m => { m with lifetime := m.lifetime.turnOff σ.host.now } : σ.Evaluation Unit)
      fun _ => [] := by
  refine .single ?_ (Nat.le_refl _) fun m => ⟨(), _, rfl, Nat.zero_le _,
    fun p q vs _ => ⟨trivial, ?_⟩⟩
  · simp [HasHost, hplays.host]
  · simp [exec, hplays.host, Memory.state, Progress.ofState?]

/-! ### Arrays -/

theorem computes_tableLen (x : Text) (f : Fin σ.locals.entries.length) :
    Computes c rounds [] [.tableLen (f : Nat)] (σ.tableValue x f .tableLength []) fun v => [v] := by
  refine .single trivial (Nat.zero_le _) fun m => ⟨_, m, rfl, Nat.le_refl _,
    fun p q vs hroom => ⟨?_, ?_⟩⟩
  · simp [InRange, Memory.state]
  · have hroom' : ((vs.length + 1 : Nat) : Int) ≤ c.unit.maxStack := by
      simpa [operation, Operation.pushes] using hroom
    rw [exec, List.nil_append, show (m.state q vs).arrays = m.arrays.toArray from rfl,
      element?_toArray, Option.map_some, push?_state hroom']
    rfl

theorem Context.Plays.indexFault_eq {x : Text} {f : Fin σ.locals.entries.length}
    (hplays : c.Plays σ) (hf : σ.local? x = some f) (a : Array Float32) (k : Int64) :
    indexFault c (f : Nat) a k = .index k x a.size := by
  rw [indexFault, hplays.ident hf, Option.getD_some]

theorem computes_read (hplays : c.Plays σ) {x : Text} {f : Fin σ.locals.entries.length}
    (hf : σ.local? x = some f) (hi : i = .loadElem (f : Nat) ∨ i = .tableRead (f : Nat))
    (index : Float32) :
    Computes c rounds [index] [i] (σ.elementValue x f index) fun v => [v] := by
  have hexec (s : State) : exec c s i = readElement c s (f : Nat) := by
    rcases hi with rfl | rfl <;> rfl
  refine .access ?_ ?_ (fun m p vs => ?_) fun m q vs => ?_
  · rcases hi with rfl | rfl <;> rfl
  · rcases hi with rfl | rfl <;> exact Nat.le_refl _
  · rcases hi with rfl | rfl <;> simp [InRange, Memory.state]
  · rw [hexec, readElement, show (m.state q ([index] ++ vs)).arrays = m.arrays.toArray from rfl,
      element?_toArray, Scene.elementValue_apply]
    cases hv : element? m.arrays[f] (Number.singleToWord index).toInt with
    | some v => exact ⟨Nat.le_refl _, by simp only [Memory.state, List.cons_append, hv]⟩
    | none =>
      refine ⟨rfl, _, rfl, ?_⟩
      simp only [Memory.state, List.cons_append, hv, hplays.indexFault_eq hf]

theorem computes_write (hplays : c.Plays σ) {x : Text} {f : Fin σ.locals.entries.length}
    (hf : σ.local? x = some f) (keep : Bool)
    (hi : i = if keep then .tableWrite (f : Nat) else .storeElem (f : Nat)) (index v : Float32) :
    Computes c rounds [v, index] [i] (σ.setElement x f index v)
      fun _ => if keep then [v] else [] := by
  have hexec (s : State) : exec c s i = writeElement c s (f : Nat) keep := by
    subst hi
    cases keep <;> rfl
  refine .access ?_ ?_ (fun m p vs => ?_) fun m q vs => ?_
  · subst hi
    cases keep <;> rfl
  · subst hi
    cases keep <;> exact Nat.le_refl _
  · subst hi
    cases keep <;> simp [InRange, Memory.state]
  · rw [hexec, writeElement, show (m.state q ([v, index] ++ vs)).arrays = m.arrays.toArray from rfl,
      element?_toArray, Scene.setElement_apply, replace?]
    by_cases hbound : 0 ≤ (Number.singleToWord index).toInt ∧
        (Number.singleToWord index).toInt.toNat < m.arrays[f].size
    · rw [if_pos hbound]
      refine ⟨by cases keep <;> simp, ?_⟩
      simp only [Memory.state, List.cons_append, if_pos hbound, Int.toNat_natCast, modify_toArray]
      cases keep <;> rfl
    · rw [if_neg hbound]
      refine ⟨rfl, _, rfl, ?_⟩
      simp only [Memory.state, List.cons_append, if_neg hbound, hplays.indexFault_eq hf]

end Plays

end Machine

end Orchestrion
