import Orchestrion.Tree.Node
import Orchestrion.Vocabulary

/-!
# Diagnostics

What can be wrong with an orchestra that is well formed: the cause, the unit and the node where it
was found.
-/

namespace Orchestrion

/-- The unit that a complaint is about. -/
inductive UnitLabel where
  | global
  /-- A unit declared with a keyword and a name. -/
  | named (keyword : Keyword) (ident : Text)
deriving DecidableEq, Repr

def UnitLabel.text : UnitLabel → Text
  | global => "global"
  | named keyword ident => keyword.spelling ++ " " ++ ident

/-- What is wrong with the arguments of a table. -/
inductive TableFault where
  | notConstant
  | tooFewArgs (generator : Generator)
  | badSize
  | tooManyValues
  | oddPoints
deriving DecidableEq, Repr

def TableFault.message : TableFault → Text
  | notConstant => "arguments must be constants"
  | tooFewArgs g =>
    g.spelling ++ (" needs at least " : Text) ++ Text.ofNat g.leastArgs ++ " arguments"
  | badSize => "size must be a positive integer"
  | tooManyValues => "more values than table size"
  | oddPoints => "lineseg needs x, y pairs"

/-- The rule that the value of a run-time parameter breaks. -/
inductive SettingRule where
  | positive
  | notNegative
  | atLeastOne
  | zeroOrOne
deriving DecidableEq, Repr

/-- What the value has to be. -/
def SettingRule.message : SettingRule → Text
  | positive => "must be positive"
  | notNegative => "must not be negative"
  | atLeastOne => "must be at least 1"
  | zeroOrOne => "must be 0 or 1"

def tagWord (imports : Bool) : Text := if imports then "imports" else "exports"

/-- What a complaint is about. -/
inductive Cause where
  /-- A type that the unit cannot declare. -/
  | illegalType (rate : Rate) (names : List Text)
  | duplicateVariable (name : Text)
  | duplicateUnit (first : Keyword) (name : Text)
  | undeclared (name : Text)
  /-- A value assigned to a slower variable. -/
  | assignRate (value target : Rate) (name : Text)
  | notArray (name : Text)
  | arrayWithoutIndex (name : Text)
  | notValue (rate : Rate) (name : Text)
  | notTable (argument : Nat) (callee : Text)
  | unknownOpcode (name : Text)
  | argumentCount (callee : CoreOpcode) (count : Nat)
  | unknownGenerator (name : Text)
  | tableArguments (table : Text) (fault : TableFault)
  /-- A tagged variable without a global one of its name. -/
  | noGlobal (imports : Bool) (name : Text)
  /-- A tagged variable whose global one has another rate. -/
  | globalRate (imports : Bool) (name : Text) (global : Rate) (here : Rate)
  | taggedArray (name : Text)
  | tagsInGlobal
  | returnOutside
  | instrumentOnly (what : Keyword)
  | assignStandard (name : Text)
  | assignNonSignal (rate : Rate) (name : Text)
  | badArraySize (name : Text)
  | duplicateSetting (parameter : Parameter)
  | badSetting (parameter : Parameter) (value : Int) (rule : SettingRule)
  | controlAboveSampling (krate srate : Int)
  | notMultiple (srate krate : Int)
  | outputWidth (count : Nat) (channels : Int)
  | emptyOutput
deriving DecidableEq, Repr

def Cause.message : Cause → Text
  | illegalType rate names =>
    "illegal variable type used: " ++ rate.text ++ " (declaration of " ++ Text.join ", " names
      ++ ")"
  | duplicateVariable name => "variable " ++ name ++ " already declared"
  | duplicateUnit first name => first.spelling ++ " " ++ name ++ " already declared"
  | undeclared name => "undeclared variable " ++ name
  | assignRate value target name =>
    "cannot assign " ++ value.text ++ "-rate value to " ++ target.text ++ "-rate variable " ++ name
  | notArray name => name ++ " is not an array"
  | arrayWithoutIndex name => "array " ++ name ++ " used without index"
  | notValue rate name => rate.text ++ " " ++ name ++ " cannot be used as a value"
  | notTable argument callee =>
    "argument " ++ Text.ofNat argument ++ " of " ++ callee ++ " must be a table"
  | unknownOpcode name => "unknown opcode " ++ name
  | argumentCount callee count =>
    callee.spelling ++ (" expects " : Text) ++ callee.arity ++ " arguments, got "
      ++ Text.ofNat count
  | unknownGenerator name => "unknown table generator " ++ name
  | tableArguments table fault => "table " ++ table ++ ": " ++ fault.message
  | noGlobal imports name => tagWord imports ++ " " ++ name ++ " has no matching global declaration"
  | globalRate imports name global here =>
    tagWord imports ++ " " ++ name ++ ": global " ++ name ++ " is " ++ global.text
      ++ "-rate, local is " ++ here.text ++ "-rate"
  | taggedArray name => "only scalar variables can be imported or exported: " ++ name
  | tagsInGlobal => "imports/exports tags are not allowed in the global block"
  | returnOutside => "return outside opcode"
  | instrumentOnly what => what.spelling ++ (" is only allowed in instruments" : Text)
  | assignStandard name => "cannot assign to standard name " ++ name
  | assignNonSignal rate name => "cannot assign to " ++ rate.text ++ " " ++ name
  | badArraySize name => "array " ++ name ++ " must have a positive size"
  | duplicateSetting parameter => parameter.spelling ++ (" set more than once" : Text)
  | badSetting parameter value rule =>
    parameter.spelling ++ (" " : Text) ++ Text.ofInt value ++ ": " ++ rule.message
  | controlAboveSampling krate srate =>
    "krate " ++ Text.ofInt krate ++ " exceeds srate " ++ Text.ofInt srate
  | notMultiple srate krate =>
    "srate " ++ Text.ofInt srate ++ " is not a multiple of krate " ++ Text.ofInt krate
  | outputWidth count channels =>
    "output has " ++ Text.ofNat count ++ " channels, orchestra has " ++ Text.ofInt channels
  | emptyOutput => "output needs at least one value"

/-- A complaint about a node of a unit. -/
structure Diagnostic where
  place : Position
  unit : UnitLabel
  node : String
  cause : Cause
deriving DecidableEq, Repr

namespace Diagnostic

def about (node : Node) (unit : UnitLabel) (cause : Cause) : Diagnostic :=
  ⟨node.span.start, unit, node.kind, cause⟩

def message (d : Diagnostic) : Text :=
  let located := d.unit.text ++ ": " ++ d.cause.message
  if d.place.isValid then d.place.text ++ ": " ++ located else located

def report (ds : List Diagnostic) : Text :=
  match ds with
  | [] => "no errors"
  | ds => Text.join "\n" (ds.map message)

end Diagnostic

end Orchestrion
