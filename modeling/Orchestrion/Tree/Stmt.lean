import Orchestrion.Tree.Expr

/-!
# Statements

The tree of a statement. An `if` without an else branch and one with an empty branch are
different statements.
-/

namespace Orchestrion

/-- What a value is assigned to. -/
structure Target where
  span : Span
  /-- The variable that is assigned to. -/
  ident : Text
  /-- The index of the element, if one is assigned to. -/
  index : Option Expr
deriving Repr, Inhabited

def Target.erase (t : Target) : Target :=
  { span := {}, ident := t.ident, index := t.index.map Expr.erase }

/-- The tree of a statement. -/
inductive Stmt where
  | assign (span : Span) (target : Target) (value : Expr)
  /-- An expression evaluated for what it does. -/
  | eval (span : Span) (value : Expr)
  | ifThen (span : Span) (guard : Expr) (body : List Stmt)
  | ifElse (span : Span) (guard : Expr) (yes no : List Stmt)
  | loop (span : Span) (guard : Expr) (body : List Stmt)
  /-- Values sent to the output channels. -/
  | output (span : Span) (args : List Expr)
  /-- The life of the instance made longer by a time in seconds. -/
  | extend (span : Span) (seconds : Expr)
  /-- The end of the instance at the current control tick. -/
  | turnoff (span : Span)
  /-- Values returned from an opcode. -/
  | ret (span : Span) (values : List Expr)
deriving Repr, Inhabited

namespace Stmt

def span : Stmt → Span
  | assign s _ _ | eval s _ | ifThen s _ _ | ifElse s _ _ _ | loop s _ _ | output s _ | extend s _
  | turnoff s | ret s _ => s

def kind : Stmt → String
  | assign .. => "assignment"
  | eval .. => "expression statement"
  | ifThen .. => "if statement"
  | ifElse .. => "if-else statement"
  | loop .. => "while statement"
  | output .. => "output statement"
  | extend .. => "extend statement"
  | turnoff .. => "turnoff statement"
  | ret .. => "return statement"

mutual

def erase : Stmt → Stmt
  | assign _ t v => assign {} t.erase v.erase
  | eval _ e => eval {} e.erase
  | ifThen _ c b => ifThen {} c.erase (eraseAll b)
  | ifElse _ c y n => ifElse {} c.erase (eraseAll y) (eraseAll n)
  | loop _ c b => loop {} c.erase (eraseAll b)
  | output _ args => output {} (Expr.eraseAll args)
  | extend _ e => extend {} e.erase
  | turnoff _ => turnoff {}
  | ret _ vs => ret {} (Expr.eraseAll vs)

def eraseAll : List Stmt → List Stmt
  | [] => []
  | s :: ss => s.erase :: eraseAll ss

end

end Stmt

end Orchestrion
