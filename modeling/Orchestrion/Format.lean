import Orchestrion.Grammar.Orchestra
import Orchestrion.Tree.Print

/-!
# Formatting

The text of an orchestra in canonical form.
-/

namespace Orchestrion

/-- A complaint about a text, with its line and column. -/
structure ParseError where
  line : Int
  column : Nat
  detail : Text
deriving DecidableEq, Repr

namespace ParseError

def ofSyntax (e : SyntaxError) : ParseError := ⟨e.place.line, e.place.column, e.fault.message⟩

def message (e : ParseError) : Text :=
  if e.column = 0 then "parse error at line " ++ Text.ofInt e.line ++ ": " ++ e.detail
  else
    "parse error at " ++ Text.ofInt e.line ++ ":" ++ Text.ofNat e.column ++ ": " ++ e.detail

end ParseError

def formatText (source : Text) : Except ParseError Text :=
  match OrchestraTree.parse source with
  | .ok tree => .ok tree.print
  | .error e => .error (.ofSyntax e)

end Orchestrion
