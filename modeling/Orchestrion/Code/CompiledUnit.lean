import Orchestrion.Code.Instruction
import Orchestrion.Number.Room
import Orchestrion.Rate

/-!
# Compiled units

An instrument in code: the storage its instances need, its constants, and the code of its four
slots.
-/

namespace Orchestrion

/-- When a piece of code runs. -/
inductive Slot where
  /-- Once, when an instance is made. -/
  | construct
  /-- Once, when an instance becomes active. -/
  | init
  | control
  | audio
deriving DecidableEq, Repr

namespace Slot

def all : List Slot := [construct, init, control, audio]

def name : Slot → String
  | construct => "construct"
  | init => "init"
  | control => "control"
  | audio => "audio"

def ofRate? : Rate → Option Slot
  | .i => some init
  | .k => some control
  | .a => some audio
  | _ => none

end Slot

/-- One thing for each slot. -/
structure Slots (α : Type) where
  construct : α
  init : α
  control : α
  audio : α
deriving DecidableEq, Repr, Inhabited

namespace Slots

def const {α : Type} (a : α) : Slots α := ⟨a, a, a, a⟩

def get {α : Type} (s : Slots α) : Slot → α
  | .construct => s.construct
  | .init => s.init
  | .control => s.control
  | .audio => s.audio

def modify {α : Type} (s : Slots α) (slot : Slot) (f : α → α) : Slots α :=
  match slot with
  | .construct => { s with construct := f s.construct }
  | .init => { s with init := f s.init }
  | .control => { s with control := f s.control }
  | .audio => { s with audio := f s.audio }

def map {α β : Type} (f : α → β) (s : Slots α) : Slots β :=
  ⟨f s.construct, f s.init, f s.control, f s.audio⟩

end Slots

/-- The storage of a variable in an instance. -/
structure Field where
  ident : Text
  /-- The number of elements. -/
  width : Int
  rate : Rate
  array : Bool
deriving DecidableEq, Repr

/-- The code of an instrument with the tables that it refers to. -/
structure CompiledUnit where
  /-- The name of the instrument. -/
  ident : Text
  fields : List Field
  params : List Int
  /-- The constants. -/
  nums : List Float32
  code : Slots (List Int)
  /-- No slot makes the stack higher than this. -/
  maxStack : Int
  /-- No output has more values than this. -/
  maxOutput : Int
deriving Repr

namespace CompiledUnit

def field? (u : CompiledUnit) (name : Text) : Option Nat :=
  u.fields.findIdx? fun f => f.ident = name

def numbered? {α : Type} (xs : List α) (i : Int) : Option α :=
  if 0 ≤ i then xs[i.toNat]? else none

def fieldAt? (u : CompiledUnit) (i : Int) : Option Field := numbered? u.fields i

def num? (u : CompiledUnit) (i : Int) : Option Float32 := numbered? u.nums i

def hasRoom (u : CompiledUnit) : Bool :=
  Number.hasSingleRoom (max 1 u.maxStack) && Number.hasSingleRoom u.maxOutput

def summary (u : CompiledUnit) : Text :=
  "unit " ++ u.ident ++ " (" ++ Text.ofNat u.fields.length ++ " fields, stack "
    ++ Text.ofInt u.maxStack ++ ")"

end CompiledUnit

end Orchestrion
