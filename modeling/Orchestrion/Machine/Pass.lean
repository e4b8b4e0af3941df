import Orchestrion.Machine.Step
import Orchestrion.Repertoire

/-!
# Passes

A pass runs one slot of an instance: the construct slot when the instance is made, and the others at
their rates during a performance.
-/

namespace Orchestrion

/-- A fault of a pass, with the instrument and the slot. -/
structure RuntimeError where
  /-- The name of the instrument. -/
  ident : Text
  slot : Slot
  fault : RuntimeFault
deriving DecidableEq, Repr

def RuntimeError.message (e : RuntimeError) : Text :=
  "instr " ++ e.ident ++ ": " ++ e.slot.name ++ " pass: " ++ e.fault.message

/-- How a pass ends. -/
inductive PassEnd where
  | finished
  | failed (e : RuntimeError)
  /-- The pass crashed or did not end; there is no way on from here. -/
  | stuck
deriving DecidableEq, Repr

/-- What a pass leaves behind. -/
structure Passed (ι : Type) (γ : Type := Store) where
  after : ι
  store : γ
  /-- What was added to the frame, in order. -/
  sounds : List Sound
  ending : PassEnd
deriving Repr

namespace Instance

def patience : Nat := Nat.pow 2 62

def withState (i : Instance) (s : Machine.State) : Instance :=
  { i with fields := s.fields, arrays := s.arrays, lifetime := s.lifetime }

def start (i : Instance) (store : Store) : Machine.State :=
  { fields := i.fields, arrays := i.arrays, lifetime := i.lifetime, store }

def pass (i : Instance) (slot : Slot) (host : Option Host) (store : Store) : Passed Instance :=
  let c : Machine.Context := ⟨i.unit, slot, host⟩
  match Machine.run c patience (i.start store) with
  | .finished s => ⟨i.withState s, s.store, s.sounds.toList, .finished⟩
  | .failed s fault =>
    ⟨i.withState s, s.store, s.sounds.toList, .failed ⟨i.unit.ident, slot, fault⟩⟩
  | .crashed | .exhausted => ⟨i, store, [], .stuck⟩

end Instance

/-- Why there is no instance. -/
inductive InstanceError where
  | unknown (name : Text)
  | failed (e : RuntimeError)
deriving DecidableEq, Repr

def InstanceError.message : InstanceError → Text
  | unknown name => name ++ ": unknown instrument"
  | failed e => e.message

/-- What comes of making an instance. -/
inductive Made where
  | made (i : Instance)
  | refused (e : InstanceError)
  /-- There is no room for the instance, or its construct pass crashed or did not end. -/
  | stuck
deriving Repr

def CompiledUnit.instantiate (u : CompiledUnit) : Made :=
  if u.hasRoom then
    let passed := (Instance.blank u).pass .construct none #[]
    match passed.ending with
    | .finished => .made passed.after
    | .failed e => .refused (.failed e)
    | .stuck => .stuck
  else .stuck

def Repertoire.instantiate (r : Repertoire) (name : Text) : Made :=
  match r.unit? name with
  | some u => u.instantiate
  | none => .refused (.unknown name)

end Orchestrion
