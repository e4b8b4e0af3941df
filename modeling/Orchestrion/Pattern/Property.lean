import Orchestrion.Pattern.Property.Category
import Orchestrion.Pattern.Property.Script

/-!
# Character properties

The properties of characters by their names. Upper and lower case, blanks, hyphens and underscores
make no difference in a name.
-/

namespace Orchestrion.Pattern

def plainName (name : List Char) : String :=
  String.ofList ((name.filter fun c => c ≠ '_' && c ≠ '-' && c ≠ ' ').map Char.toLower)

/-- The classes that have names. -/
structure PropertyTable where
  ascii : CharClass
  /-- The general categories by their short names. -/
  categories : List (String × CharClass)
  scripts : List (String × CharClass)

namespace PropertyTable

def plain : PropertyTable := ⟨asciiPoints, Pattern.categories, Pattern.scripts⟩

def folded : PropertyTable :=
  ⟨CharClass.folded asciiPoints, foldedCategories ++ Pattern.categories,
    foldedScripts ++ Pattern.scripts⟩

def find? (t : PropertyTable) (name : List Char) : Option CharClass :=
  match plainName name with
  | "any" => some anyPoint
  | "assigned" => some unassigned.complement
  | "ascii" => some t.ascii
  | plain =>
    let short := (categoryAliases.lookup plain).getD plain
    t.categories.lookup short <|> t.scripts.lookup plain

end PropertyTable

def property? (fold : Bool) (name : List Char) : Option CharClass :=
  if fold then PropertyTable.folded.find? name else PropertyTable.plain.find? name

end Orchestrion.Pattern
