import Orchestrion.Check.Attributes
import Orchestrion.Settings
import Orchestrion.Sections

/-!
# Checking a unit

A check walks over a unit, declares its variables, sets the attributes of its nodes and collects
complaints. It goes on after most complaints and is abandoned after a few.
-/

namespace Orchestrion.Check

/-- The kinds of units, which may declare different types. -/
inductive UnitKind where
  | global | instrument | opcode
deriving DecidableEq, Repr

namespace UnitKind

def declares : UnitKind → Rate → Bool
  | global, rate => rate = .i || rate = .k
  | instrument, rate => rate = .i || rate = .k || rate = .a || rate = .oparray
  | opcode, rate => rate = .i || rate = .k || rate = .a || rate = .x || rate = .oparray

end UnitKind

/-- What is known around a unit that is checked. -/
structure Context where
  kind : UnitKind
  label : UnitLabel
  /-- The global variables, if the unit sees them. -/
  globals : Option VariableTable := none
  /-- The run-time parameters, if they are known. -/
  settings : Option Settings := none
  opcodes : List (Text × OpcodeKind) := []
deriving Repr

/-- What has been found out about a unit so far. -/
structure State where
  locals : VariableTable := {}
  attributes : Attributes := {}
  errors : List Diagnostic := []
deriving Repr, Inhabited

/-- Why a check ends early. -/
inductive Stop where
  /-- The last complaint leaves no sense in going on. -/
  | abandoned
  /-- An attribute was to be set a second time. -/
  | setTwice (fault : SetTwice)
deriving DecidableEq, Repr

abbrev Checking := EStateM Stop State

def complain (c : Context) (node : Node) (cause : Cause) : Checking Unit :=
  modify fun s => { s with errors := s.errors ++ [Diagnostic.about node c.label cause] }

def complainIf (c : Context) (node : Node) : Option Cause → Checking Unit
  | some cause => complain c node cause
  | none => return

def abandon {α : Type} (c : Context) (node : Node) (cause : Cause) : Checking α := do
  complain c node cause
  throw .abandoned

def setSignal (path : Path) (node : Node) (width : Width) (rate : Rate) : Checking Unit := do
  let s ← get
  match s.attributes.setSignal? path width rate with
  | some as => set { s with attributes := as }
  | none => throw (.setTwice ⟨false, node.kind, node.span.start⟩)

def setPayload (path : Path) (node : Node) (payload : Payload) : Checking Unit := do
  let s ← get
  match s.attributes.setPayload? path payload with
  | some as => set { s with attributes := as }
  | none => throw (.setTwice ⟨true, node.kind, node.span.start⟩)

def declare (e : Entry) : Checking Bool := do
  let s ← get
  match s.locals.add? e with
  | some table =>
    set { s with locals := table }
    return true
  | none => return false

def declareOnce (c : Context) (node : Node) (e : Entry) : Checking Unit := do
  unless ← declare e do
    complain c node (.duplicateVariable e.ident)

def resolve? (c : Context) (name : Text) : Checking (Option (Entry × Bool)) := do
  return Scope.resolve? ⟨(← get).locals, c.globals⟩ name

end Orchestrion.Check
