import Orchestrion.Text

/-!
# Faults of search patterns

What can be wrong with the text of a pattern, and the part of the text where it was found.
-/

namespace Orchestrion.Pattern

/-- What can be wrong with a pattern. -/
inductive Fault where
  | missingBracket
  | missingParen
  | unexpectedParen
  | missingArgument
  | nestedRepetition
  | badRepeatCount
  | badRange
  | trailingBackslash
  | badEscape
  | badName
  | badFlags
  | tooLarge
  | tooDeep
deriving DecidableEq, Repr

def Fault.message : Fault → String
  | missingBracket => "missing closing ]"
  | missingParen => "missing closing )"
  | unexpectedParen => "unexpected )"
  | missingArgument => "missing argument to repetition operator"
  | nestedRepetition => "invalid nested repetition operator"
  | badRepeatCount => "invalid repeat count"
  | badRange => "invalid character class range"
  | trailingBackslash => "trailing backslash at end of expression"
  | badEscape => "invalid escape sequence"
  | badName => "invalid named capture"
  | badFlags => "invalid or unsupported Perl syntax"
  | tooLarge => "expression too large"
  | tooDeep => "expression nests too deeply"

/-- A fault and the part of the text that it is found in. -/
structure Error where
  fault : Fault
  part : List Char
deriving DecidableEq, Repr

def Error.message (e : Error) : Text :=
  "error parsing regexp: " ++ (e.fault.message : Text) ++ ": `" ++ (String.ofList e.part : Text)
    ++ "`"

end Orchestrion.Pattern
