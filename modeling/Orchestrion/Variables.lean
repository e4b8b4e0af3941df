import Orchestrion.Rate
import Orchestrion.Text.Quoted

/-!
# Tables of variables

The variables that a unit declares, in the order of their declaration and each name once, with a map
from their names to their places. Names are looked up among the unit's own variables first and then
among the global ones. The store of global variables has a layout of its own, which leaves out what
it does not keep.
-/

namespace Orchestrion

/-- A map from names to numbers. -/
structure NameMap where
  /-- Names with their numbers. The first pair with a name counts. -/
  pairs : List (Text × Nat) := []
deriving DecidableEq, Repr, Inhabited

namespace NameMap

/-- The number of a name, if it has one. -/
def get? (m : NameMap) (name : Text) : Option Nat := m.pairs.lookup name

/-- The map with a number for a name, in place of the one it had. -/
def set (m : NameMap) (name : Text) (n : Nat) : NameMap := ⟨(name, n) :: m.pairs⟩

end NameMap

/-- A variable that is declared. -/
structure Entry where
  /-- Its name. -/
  ident : Text
  /-- The number of its elements. -/
  width : Width
  /-- How often it changes. -/
  rate : Rate
  /-- Whether it is declared as an array. -/
  array : Bool := false
  /-- Whether it is read from the global variable of its name. -/
  imports : Bool := false
  /-- Whether it is written to the global variable of its name. -/
  exports : Bool := false
  /-- Where it is declared. -/
  place : Position := {}
deriving DecidableEq, Repr

/-- The letters for the tags of a variable. -/
def tagLetters (imports exports : Bool) : Text :=
  let i : Text := if imports then "I" else ""
  let e : Text := if exports then "E" else ""
  i ++ e

namespace Entry

/-- The variable as text, for messages. -/
def text (e : Entry) : Text :=
  e.ident ++ "\x7bwidth=" ++ Text.ofInt e.width.code ++ " rate=" ++ e.rate.text ++ " tags="
    ++ (tagLetters e.imports e.exports).quoted ++ "\x7d"

/-- Whether the variable is shared with the global one of its name. -/
def isTagged (e : Entry) : Bool := e.imports || e.exports

/-- Whether the variable is a single value of a signal rate. -/
def isScalarSignal (e : Entry) : Bool := !e.array && e.rate.isSignal

end Entry

/-- The variables of a unit. -/
structure VariableTable where
  /-- The variables in the order of their declaration. -/
  entries : List Entry := []
  /-- The places of their names among them. -/
  places : NameMap := {}
deriving DecidableEq, Repr, Inhabited

namespace VariableTable

/-- The place of a name. -/
def index? (t : VariableTable) (name : Text) : Option Nat := t.places.get? name

/-- The variable of a name. -/
def lookup? (t : VariableTable) (name : Text) : Option Entry :=
  (t.places.get? name).bind (t.entries[·]?)

/-- The table with one more variable at its end, unless its name is taken. -/
def add? (t : VariableTable) (e : Entry) : Option VariableTable :=
  match t.places.get? e.ident with
  | some _ => none
  | none => some ⟨t.entries ++ [e], t.places.set e.ident t.entries.length⟩

end VariableTable

/-- The complaint about a name that is taken. -/
def duplicateVariable (name : Text) : Text := "variable " ++ name ++ " already declared"

/-- The variables that a unit sees. -/
structure Scope where
  /-- Its own. -/
  locals : VariableTable
  /-- The global ones, if there are any. -/
  globals : Option VariableTable
deriving Repr

namespace Scope

/-- The global variable of a name. -/
def lookupGlobal? (s : Scope) (name : Text) : Option Entry :=
  s.globals.bind (·.lookup? name)

/-- The variable that a name stands for, and whether it is a global one. -/
def resolve? (s : Scope) (name : Text) : Option (Entry × Bool) :=
  match s.locals.lookup? name with
  | some e => some (e, false)
  | none => (s.lookupGlobal? name).map fun e => (e, true)

end Scope

/-- The layout of the store of global variables. -/
structure StoreLayout where
  /-- The names of the variables that have a slot, in order. -/
  names : List Text := []
  /-- Their rates. -/
  rates : List Rate := []
  /-- The slots of their names. -/
  places : NameMap := {}
deriving DecidableEq, Repr

namespace StoreLayout

/-- The layout with a slot for one more variable. Only a single value of a signal rate gets one. -/
def add (l : StoreLayout) (e : Entry) : StoreLayout :=
  if e.array || !e.rate.isSignal then l
  else ⟨l.names ++ [e.ident], l.rates ++ [e.rate], l.places.set e.ident l.names.length⟩

/-- The layout for the variables of a table. -/
def ofTable (t : VariableTable) : StoreLayout := t.entries.foldl add {}

/-- The slot of a name. -/
def index? (l : StoreLayout) (name : Text) : Option Nat := l.places.get? name

/-- The number of slots. -/
def size (l : StoreLayout) : Nat := l.names.length

/-- What the slots keep, as variables of one element. -/
def slots (l : StoreLayout) : List Entry :=
  l.names.zipWith (fun ident rate => { ident, width := .fixed 1, rate }) l.rates

end StoreLayout

end Orchestrion
