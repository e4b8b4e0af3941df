import Orchestrion.Pattern.CharClass

/-!
# Search patterns

Regular expressions, and the conditions on places that can stand in them.
-/

namespace Orchestrion

namespace Pattern

/-- Conditions on a place. -/
inductive Anchor where
  | textStart | textEnd
  | lineStart | lineEnd
  | wordBoundary | noWordBoundary
deriving DecidableEq, Repr

def isWordChar (c : Char) : Bool := c.isAlphanum || c = '_'

def Anchor.holds (before : Option Char) (rest : List Char) : Anchor → Bool
  | textStart => before.isNone
  | textEnd => rest.isEmpty
  | lineStart => before.all (· = '\n')
  | lineEnd => rest.head?.all (· = '\n')
  | wordBoundary => before.any isWordChar != rest.head?.any isWordChar
  | noWordBoundary => before.any isWordChar == rest.head?.any isWordChar

end Pattern

/-- A regular expression. -/
inductive Pattern where
  /-- Nothing at all. -/
  | empty
  /-- Characters in a row, by their code points; with the flag, case makes no difference. -/
  | literal (points : List Nat) (fold : Bool)
  | char (k : Pattern.CharClass)
  /-- A condition on the place. -/
  | anchor (a : Pattern.Anchor)
  | seq (ps : List Pattern)
  | alt (ps : List Pattern)
  /-- A pattern whose match is captured. -/
  | group (p : Pattern)
  /-- A pattern several times; with the flag, rather fewer times than more. -/
  | rep (p : Pattern) (least : Nat) (most : Option Nat) (lazy : Bool)
deriving Repr, Inhabited

end Orchestrion
