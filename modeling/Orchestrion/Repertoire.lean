import Orchestrion.Code.Listing
import Orchestrion.Pattern.Read
import Orchestrion.Pattern.Search
import Orchestrion.Text.Quoted

/-!
# Repertoires

The compiled instruments of an orchestra by their names. A name is registered once, and names are
given in the order of registration.
-/

namespace Orchestrion

/-- The instruments of an orchestra. -/
structure Repertoire where
  /-- The units in the order of registration. -/
  units : List CompiledUnit := []
deriving Repr

/-- A pattern that cannot be read. -/
structure PatternError where
  pattern : Text
  error : Pattern.Error
deriving DecidableEq, Repr

def PatternError.message (e : PatternError) : Text :=
  "instrument pattern " ++ Text.quoted e.pattern ++ ": " ++ e.error.message

namespace Repertoire

def names (r : Repertoire) : List Text := r.units.map CompiledUnit.ident

def unit? (r : Repertoire) (name : Text) : Option CompiledUnit :=
  r.units.find? fun u => u.ident = name

def register? (r : Repertoire) (u : CompiledUnit) : Option Repertoire :=
  match r.unit? u.ident with
  | some _ => none
  | none => some ⟨r.units ++ [u]⟩

def takenMessage (name : Text) : Text := "instrument " ++ name ++ " already registered"

def search (r : Repertoire) (pattern : Text) : Except PatternError (List Text) :=
  match Pattern.parse pattern with
  | .ok p => .ok (r.names.filter p.isFoundIn)
  | .error e => .error ⟨pattern, e⟩

def listing? (r : Repertoire) (names : List Text) : Option Text := do
  let names := if names.isEmpty then r.names else names
  let listings ← (names.filterMap r.unit?).mapM CompiledUnit.listing?
  return listings.flatten

end Repertoire

end Orchestrion
