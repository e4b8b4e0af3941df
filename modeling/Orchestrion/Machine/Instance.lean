import Orchestrion.Code.CompiledUnit
import Orchestrion.Machine.Builtin
import Orchestrion.Sound

/-!
# Instances

A unit that runs: the storage of its fields and its lifetime.
-/

namespace Orchestrion

abbrev Store := Array Float32

def Store.ofSize? (size : Int) : Option Store :=
  if Number.hasSingleRoom size then some (Array.replicate size.toNat 0) else none

def element? {α : Type} (xs : Array α) (i : Int) : Option α :=
  if 0 ≤ i then xs[i.toNat]? else none

def replace? {α : Type} (xs : Array α) (i : Int) (x : α) : Option (Array α) :=
  if 0 ≤ i ∧ i.toNat < xs.size then some (xs.setIfInBounds i.toNat x) else none

/-- A unit with its storage. -/
structure Instance where
  unit : CompiledUnit
  fields : Array Float32
  /-- The elements of the fields that are arrays, by the numbers of the fields. -/
  arrays : Array (Array Float32)
  lifetime : Lifetime := {}
deriving Repr

namespace Instance

def blank (u : CompiledUnit) : Instance :=
  { unit := u
    fields := Array.replicate u.fields.length 0
    arrays := Array.replicate u.fields.length #[] }

def assign? (fields : Array Float32) : List Int → List Float32 → Option (Array Float32)
  | i :: is, v :: vs => do assign? (← replace? fields i v) is vs
  | _, _ => some fields

def withParams? (i : Instance) (values : List Float32) : Option Instance := do
  let fields ← assign? i.fields i.unit.params values
  return { i with fields }

def value? (i : Instance) (name : Text) : Option Float32 := do
  let n ← i.unit.field? name
  let f ← i.unit.fields[n]?
  if f.array then none else i.fields[n]?

def elements? (i : Instance) (name : Text) : Option (Array Float32) := do
  let n ← i.unit.field? name
  let f ← i.unit.fields[n]?
  if f.array then i.arrays[n]? else none

end Instance

end Orchestrion
