import Orchestrion.Tree.Node
import Orchestrion.Variables
import Std.Data.TreeMap.Lemmas

/-!
# Attributes of nodes

What the check of a unit finds out about its nodes: at most one width and rate, and at most one
payload each. Nodes are named by their path from the root of the unit.
-/

namespace Orchestrion

/-- What a node stands for. -/
inductive Payload where
  /-- The variable that a name stands for. -/
  | entry (e : Entry)
  /-- The variables that a list of names or a declaration makes. -/
  | entries (es : List Entry)
  | tag (letters : Text)
  | constant (value : Float)
deriving Repr

/-- What is known about a node. -/
structure Attribute where
  /-- The width and the rate, once they are set. -/
  signal : Option (Width × Rate) := none
  /-- The payload, once it is set. -/
  payload : Option Payload := none
deriving Repr, Inhabited

namespace Attribute

def width (a : Attribute) : Width := (a.signal.map Prod.fst).getD (.fixed 0)

def rate (a : Attribute) : Rate := (a.signal.map Prod.snd).getD .unknown

def entry? (a : Attribute) : Option Entry :=
  match a.payload with
  | some (.entry e) => some e
  | _ => none

end Attribute

def Path.order : Nat × Path → Nat × Path → Ordering :=
  compareLex (compareOn Prod.fst) (compareOn Prod.snd)

instance : Std.TransCmp Path.order := by
  unfold Path.order
  infer_instance

instance : Std.LawfulEqCmp Path.order where
  eq_of_compare {p q} h := by
    simp only [Path.order, compareLex, compareOn, Ordering.then_eq_eq,
      Std.LawfulEqOrd.compare_eq_iff_eq] at h
    exact Prod.ext h.1 h.2

/-- What is known about the nodes, by their depths and paths. -/
structure Attributes where
  records : Std.TreeMap (Nat × Path) Attribute Path.order := {}
deriving Repr, Inhabited

namespace Attributes

def find? (as : Attributes) (p : Path) : Option Attribute := as.records[(p.length, p)]?

def get (as : Attributes) (p : Path) : Attribute := (as.find? p).getD {}

def rate (as : Attributes) (p : Path) : Rate := (as.get p).rate

def size (as : Attributes) : Nat := as.records.size

def replace (as : Attributes) (p : Path) (a : Attribute) : Attributes :=
  ⟨as.records.insert (p.length, p) a⟩

@[simp]
theorem find?_empty (p : Path) : find? {} p = none := by
  simp [find?]

theorem find?_replace (as : Attributes) (p q : Path) (a : Attribute) :
    (as.replace p a).find? q = if q = p then some a else as.find? q := by
  simp only [find?, replace, Std.TreeMap.getElem?_insert, Std.LawfulEqCmp.compare_eq_iff_eq,
    Prod.mk.injEq]
  by_cases h : q = p
  · simp [h]
  · simp [h, Ne.symm h]

def setSignal? (as : Attributes) (p : Path) (w : Width) (r : Rate) : Option Attributes :=
  match (as.get p).signal with
  | some _ => none
  | none => some (as.replace p { as.get p with signal := some (w, r) })

def setPayload? (as : Attributes) (p : Path) (x : Payload) : Option Attributes :=
  match (as.get p).payload with
  | some _ => none
  | none => some (as.replace p { as.get p with payload := some x })

end Attributes

/-- The complaint about an attribute that is set a second time. -/
structure SetTwice where
  /-- Whether it was the payload, and not the width and rate. -/
  payload : Bool
  kind : String
  /-- Where the node stands. -/
  place : Position
deriving DecidableEq, Repr

def SetTwice.message (f : SetTwice) : Text :=
  let what : Text := if f.payload then "payload" else "width/rate"
  "semantic: " ++ what ++ " of " ++ (f.kind : Text) ++ " at " ++ f.place.text ++ " set twice"

end Orchestrion
