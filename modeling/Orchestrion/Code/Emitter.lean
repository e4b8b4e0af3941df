import Orchestrion.Code.CompiledUnit
import Orchestrion.Code.Stream
import Orchestrion.Check.Unit

/-!
# Emitting code

What is known while the code of a unit grows, and the steps it grows by. A construct that is valid
but has no code is refused, and so is an operand that does not fit into a word.
-/

namespace Orchestrion

/-- Why a valid construct has no code. -/
inductive NoCode where
  | storage (rate : Rate) (name : Text)
  | sharedTable (name : Text)
  | noSlot (name : Text)
  | generator (name : Text)
  | statementRate (rate : Rate)
  | assignment (name : Text)
  | notScalar (name : Text)
  | reference (name : Text)
  | indexedGlobal (name : Text)
  | tableArgument
  | globalTable (name : Text)
  | declaredOpcode (name : Text)
  | construct
deriving DecidableEq, Repr

def NoCode.detail : NoCode → Text
  | storage rate name => rate.text ++ " variable " ++ name
  | sharedTable name => "shared global table " ++ name
  | noSlot name => "global " ++ name ++ " has no store slot"
  | generator name => "table generator " ++ name
  | statementRate rate => rate.text ++ "-rate statement"
  | assignment name => "assignment to " ++ name
  | notScalar name => "global " ++ name ++ " is not a scalar signal"
  | reference name => "reference to " ++ name
  | indexedGlobal name => "indexed global " ++ name
  | tableArgument => "table argument"
  | globalTable name => "global table " ++ name
  | declaredOpcode name => "call to user opcode " ++ name
  | construct => ""

/-- The complaint about a construct without code. -/
structure Unsupported where
  place : Position
  unit : Text
  node : String
  reason : NoCode
deriving DecidableEq, Repr

namespace Unsupported

def description (u : Unsupported) : Text :=
  let kind : Text := "unsupported " ++ u.node
  if u.reason.detail.isEmpty then kind else kind ++ ": " ++ u.reason.detail

def message (u : Unsupported) : Text :=
  let located := u.unit ++ ": " ++ u.description
  if u.place.isValid then u.place.text ++ ": " ++ located else located

end Unsupported

/-- Why no code is emitted. -/
inductive EmitFault where
  | unsupported (u : Unsupported)
  /-- An operand that does not fit into a word. -/
  | overflow (value : Int)
  /-- A call or a table without its first argument. -/
  | missingArgument
deriving DecidableEq, Repr

def overflowMessage (value : Int) : Text :=
  "compiler: value " ++ Text.ofInt value ++ " overflows int32"

/-- The fields of a unit, as far as they are laid out. -/
structure FieldLayout where
  /-- The fields in order. -/
  fields : List Field := []
  /-- The places of their names among them. -/
  places : NameMap := {}
deriving Repr

/-- What is known of a unit while its code grows. -/
structure EmitContext extends FieldLayout where
  /-- The name of the unit. -/
  ident : Text
  /-- The variables that it sees. -/
  scope : Scope
  /-- Where the global variables are kept. -/
  store : StoreLayout
deriving Repr

/-- The number of the field that keeps a variable. -/
def EmitContext.field? (c : EmitContext) (name : Text) : Option Nat := c.places.get? name

/-- The constants and the code of a unit as they grow. -/
structure Emitter where
  nums : List Float32 := []
  streams : Slots Stream := Slots.const {}
  /-- The greatest number of values of an output. -/
  maxOutput : Nat := 0
deriving Repr

abbrev Emit := StateT Emitter (Except EmitFault)

namespace Emit

def refuse {α : Type} (c : EmitContext) (node : Node) (reason : NoCode) : Emit α :=
  throw (.unsupported ⟨node.span.start, c.ident, node.kind, reason⟩)

def fits (n : Int) : Bool := Int32.minValue.toInt ≤ n && n ≤ Int32.maxValue.toInt

def append (slot : Slot) (i : Instruction) : Emit Unit := do
  match ((← get).streams.get slot).pendingOffsets.find? fun a => !fits a with
  | some a => throw (.overflow a)
  | none => modify fun e => { e with streams := e.streams.modify slot (·.add i) }

def instruction (slot : Slot) (i : Instruction) : Emit Unit :=
  match i.operands.find? fun a => !fits a with
  | some a => throw (.overflow a)
  | none => append slot i

def branch (slot : Slot) (jump : Int → Instruction) : Emit Nat := do
  append slot (jump 0)
  return ((← get).streams.get slot).mark

def setPending (slot : Slot) (mark : Nat) : Emit Unit :=
  modify fun e => { e with streams := e.streams.modify slot (·.setPending mark) }

def label (slot : Slot) : Emit Nat := return ((← get).streams.get slot).label

def jumpBack (slot : Slot) (label : Nat) : Emit Unit := do
  instruction slot (.jump (((← get).streams.get slot).backOffset label))

def constant (v : Float) : Emit Nat :=
  modifyGet fun e =>
    let x := Number.narrow v
    match e.nums.findIdx? fun y => y == x with
    | some i => (i, e)
    | none => (e.nums.length, { e with nums := e.nums ++ [x] })

def push (slot : Slot) (v : Float) : Emit Unit := do
  instruction slot (.num (← constant v))

end Emit

end Orchestrion
