import Orchestrion.Proofs.Code.Stream
import Orchestrion.Proofs.Evaluation

/-!
# Steps of the machine

The machine goes from state to state, and a state is safe if its next instruction has all that it
needs: operands that name something, enough values on the stack, and room for its result. From a
safe state the machine never crashes and never meets a word that is no operation.
-/

namespace Orchestrion

namespace Instruction

/-- The number of values that the instruction takes from the stack. -/
def pops : Instruction → Nat
  | pop | storeField _ | storeGlobal _ | loadElem _ | tableRead _ | neg | trunc | jumpIf _ _
  | output | extend => 1
  | storeElem _ | tableWrite _ | add | sub | mul | div | and | or | compare => 2
  | tableGen _ _ count | call _ count | outputFrame count => count.toNat
  | _ => 0

/-- Whether the instruction accesses an element of an array. -/
def accesses : Instruction → Bool
  | loadElem _ | storeElem _ | tableRead _ | tableWrite _ => true
  | _ => false

end Instruction

namespace Memory

variable {n g : Nat}

def state (m : Memory n g) (place : Int) (stack : List Float32) : Machine.State where
  place := place
  stack := some stack
  fields := m.fields.toArray
  arrays := m.arrays.toArray
  lifetime := m.lifetime
  store := m.store.toArray
  sounds := m.sounds

end Memory

namespace Machine

/-- The operands of an instruction name something in the unit and in the state. -/
def InRange (c : Context) (s : State) : Instruction → Prop
  | .num i => (c.unit.num? i).isSome
  | .loadField f | .storeField f => (element? s.fields f).isSome
  | .loadElem f | .storeElem f | .tableRead f | .tableWrite f | .tableLen f =>
    (element? s.arrays f).isSome
  | .loadGlobal g | .storeGlobal g => (element? s.store g).isSome
  | .importGlobal f g | .exportField f g =>
    (element? s.fields f).isSome ∧ (element? s.store g).isSome
  | .loadStd name => (StandardName.ofCode? name).isSome
  | .newArray f size => (element? s.arrays f).isSome ∧ 0 ≤ size
  | .tableGen f generator count =>
    (element? s.arrays f).isSome ∧ (Generator.ofCode? generator).isSome ∧ 0 ≤ count
  | .call builtin count =>
    0 ≤ count ∧ ∃ b, Builtin.ofCode? builtin = some b ∧ (CoreOpcode.builtin b).takes count.toNat
  | .outputFrame count => 0 ≤ count ∧ count ≤ c.unit.maxOutput
  | _ => True

/-- The instruction needs no performance around the run, or there is one. -/
def HasHost (c : Context) : Instruction → Prop
  | .loadGlobal _ | .storeGlobal _ | .importGlobal _ _ | .exportField _ _ | .loadStd _ | .extend
  | .turnoff => c.host.isSome
  | _ => True

/-- The next instruction has all that it needs. -/
structure Ready (c : Context) (s : State) (i : Instruction) (vs : List Float32) : Prop where
  place : 0 ≤ s.place
  fetch : Instruction.fetch (c.code.drop s.place.toNat) = .instruction i
  stack : s.stack = some vs
  inRange : InRange c s i
  hasHost : HasHost c i
  pops : i.pops ≤ vs.length
  room : ((vs.length + if i.operation.pushes then 1 else 0 : Nat) : Int) ≤ c.unit.maxStack

/-- A run moves over as many words as the emitter writes and the listing shows. -/
theorem add_one_add_advance (place : Int) (i : Instruction) :
    place + 1 + advance i = place + i.size := by
  have hsize : 1 + advance i = i.size := by cases i <;> rfl
  rw [Int.add_assoc, hsize]

theorem step_of_fetch {c : Context} {s : State} {i : Instruction} (hplace : 0 ≤ s.place)
    (hfetch : Instruction.fetch (c.code.drop s.place.toNat) = .instruction i) :
    step c s = exec c { s with place := s.place + i.size } i := by
  rw [step, if_neg (Int.not_lt.2 hplace), hfetch]
  dsimp only
  rw [add_one_add_advance]

/-- There is a next instruction, and it has all that it needs. -/
def Safe (c : Context) (s : State) : Prop := ∃ i vs, Ready c s i vs

/-- Some steps through safe states. -/
inductive Steps (c : Context) : Nat → State → State → Prop
  | refl (s : State) : Steps c 0 s s
  | cons {n : Nat} {s s₁ s' : State} (hsafe : Safe c s) (hstep : step c s = .onward s₁)
    (hsteps : Steps c n s₁ s') : Steps c (n + 1) s s'

namespace Steps

variable {c : Context} {s s₁ s' : State}

theorem one (hsafe : Safe c s) (hstep : step c s = .onward s') : Steps c 1 s s' :=
  .cons hsafe hstep (.refl s')

theorem trans {n k : Nat} (h : Steps c n s s₁) (h' : Steps c k s₁ s') : Steps c (k + n) s s' := by
  induction h with
  | refl => exact h'
  | cons hsafe hstep _ ih => exact .cons hsafe hstep (ih h')

theorem run_add {n : Nat} (h : Steps c n s s') (k : Nat) : run c (n + k) s = run c k s' := by
  induction h with
  | refl => rw [Nat.zero_add]
  | @cons n s s₁ s' _ hstep _ ih =>
    rw [Nat.add_right_comm, run, hstep]
    exact ih

end Steps

/-- The next instruction is an access to an element of an array. -/
def Accesses (c : Context) (s : State) : Prop := ∃ i vs, Ready c s i vs ∧ i.accesses = true

/-- The machine does what the outcome of an evaluation says. With a result it gets to the state that
belongs to it, and with a fault to an access that fails with it; an unfinished evaluation makes it
take many steps. -/
def Leads {n g : Nat} {α : Type} (c : Context) (rounds : Nat) (s : State)
    (next : α → Memory n g → State) : EStateM.Result Interruption (Memory n g) α → Prop
  | .ok a m => ∃ k, Steps c k s (next a m)
  | .error (.fault fault) m => ∃ k p q vs, Steps c k s (m.state p vs) ∧
    Accesses c (m.state p vs) ∧ step c (m.state p vs) = .failed (m.state q vs) fault
  | .error .unfinished _ => ∃ k s', rounds ≤ k ∧ Steps c k s s'
  | .error .undefined _ => False

namespace Leads

variable {n g : Nat} {α β : Type} {c : Context} {rounds : Nat} {s s₁ : State}
  {next : α → Memory n g → State} {outcome : EStateM.Result Interruption (Memory n g) α}

theorem mono {fewer : Nat} (hle : fewer ≤ rounds) (h : Leads c rounds s next outcome) :
    Leads c fewer s next outcome := by
  match outcome, h with
  | .ok a m, h => exact h
  | .error (.fault fault) m, h => exact h
  | .error .unfinished m, ⟨k, s', hk, h⟩ => exact ⟨k, s', Nat.le_trans hle hk, h⟩

theorem after {k : Nat} (hsteps : Steps c k s s₁) (h : Leads c rounds s₁ next outcome) :
    Leads c (rounds + k) s next outcome := by
  match outcome, h with
  | .ok a m, ⟨k', h⟩ => exact ⟨_, hsteps.trans h⟩
  | .error (.fault fault) m, ⟨k', p, q, vs, h, haccess, hfail⟩ =>
    exact ⟨_, p, q, vs, hsteps.trans h, haccess, hfail⟩
  | .error .unfinished m, ⟨k', s', hk, h⟩ =>
    exact ⟨_, s', Nat.add_le_add_right hk k, hsteps.trans h⟩

theorem onward {last : α → Memory n g → State} (h : Leads c rounds s next outcome)
    (hlast : ∀ a m, outcome = .ok a m → ∃ k, Steps c k (next a m) (last a m)) :
    Leads c rounds s last outcome := by
  match outcome, h with
  | .ok a m, ⟨k, h⟩ =>
    obtain ⟨k', h'⟩ := hlast a m rfl
    exact ⟨_, h.trans h'⟩
  | .error (.fault fault) m, h => exact h
  | .error .unfinished m, h => exact h

theorem bind {x : EStateM Interruption (Memory n g) α}
    {f : α → EStateM Interruption (Memory n g) β} {last : β → Memory n g → State}
    {m : Memory n g} (hx : Leads c rounds s next (x m))
    (hf : ∀ a m', x m = .ok a m' → Leads c rounds (next a m') last (f a m')) :
    Leads c rounds s last ((x >>= f) m) := by
  change Leads c rounds s last (EStateM.bind x f m)
  rw [EStateM.bind]
  cases hm : x m with
  | ok a m' =>
    rw [hm] at hx
    obtain ⟨k, hsteps⟩ := hx
    exact ((hf a m' hm).after hsteps).mono (Nat.le_add_right ..)
  | error e m' =>
    rw [hm] at hx
    match e, hx with
    | .fault fault, hx => exact hx
    | .unfinished, hx => exact hx

end Leads

/-! ### Code at a place -/

def CodeAt (c : Context) (p : Nat) (is : List Instruction) : Prop :=
  ∃ rest, c.code.drop p = Instruction.wordsOf is ++ rest

namespace CodeAt

variable {c : Context} {p : Nat} {is js : List Instruction} {i : Instruction}

theorem left (h : CodeAt c p (is ++ js)) : CodeAt c p is := by
  obtain ⟨rest, h⟩ := h
  exact ⟨Instruction.wordsOf js ++ rest, by simpa using h⟩

theorem right (h : CodeAt c p (is ++ js)) : CodeAt c (p + Instruction.wordCount is) js := by
  obtain ⟨rest, h⟩ := h
  refine ⟨rest, ?_⟩
  rw [← List.drop_drop, h, Instruction.wordsOf_append, List.append_assoc,
    ← Instruction.length_wordsOf, List.drop_left]

theorem fetch (h : CodeAt c p (i :: is)) : Instruction.fetch (c.code.drop p) = .instruction i := by
  obtain ⟨rest, h⟩ := h
  rw [h, Instruction.wordsOf_cons, List.append_assoc, Instruction.fetch_words_append]

theorem step {n g : Nat} (h : CodeAt c p (i :: is)) (m : Memory n g) (vs : List Float32) :
    step c (m.state p vs) = exec c (m.state (p + i.size : Nat) vs) i := by
  have hfetch : Instruction.fetch (c.code.drop (m.state p vs).place.toNat) = .instruction i :=
    h.fetch
  rw [step_of_fetch (Int.natCast_nonneg p) hfetch]
  rfl

theorem ready {n g : Nat} (h : CodeAt c p (i :: is)) {m : Memory n g} {vs : List Float32}
    (hrange : InRange c (m.state p vs) i) (hhost : HasHost c i) (hpops : i.pops ≤ vs.length)
    (hroom : ((vs.length + if i.operation.pushes then 1 else 0 : Nat) : Int) ≤ c.unit.maxStack) :
    Ready c (m.state p vs) i vs :=
  ⟨Int.natCast_nonneg p, h.fetch, rfl, hrange, hhost, hpops, hroom⟩

end CodeAt

end Machine

end Orchestrion
