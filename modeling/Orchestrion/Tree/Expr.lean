import Orchestrion.Token
import Orchestrion.Number.Decimal

/-!
# Expressions

The tree of an expression. Every node keeps the span of text it was read from; `Expr.erase` forgets
the spans, so two trees are equal up to their places if they are equal after erasing.
-/

namespace Orchestrion

/-- The part of a text that a node was read from. -/
structure Span where
  /-- The place of the first byte. -/
  start : Position := {}
  /-- The place right after the last byte. -/
  stop : Position := {}
deriving DecidableEq, Repr, Inhabited

/-- Operators between two operands. -/
inductive BinaryOp where
  | or | and
  | equal | notEqual
  | less | lessEqual | greater | greaterEqual
  | add | sub | mul | div
deriving DecidableEq, Repr

def BinaryOp.punctuation : BinaryOp → Punctuation
  | or => .or
  | and => .and
  | equal => .equal
  | notEqual => .notEqual
  | less => .less
  | lessEqual => .lessEqual
  | greater => .greater
  | greaterEqual => .greaterEqual
  | add => .plus
  | sub => .minus
  | mul => .star
  | div => .slash

/-- Operators in front of an operand. -/
inductive UnaryOp where
  | neg | not
deriving DecidableEq, Repr

def UnaryOp.punctuation : UnaryOp → Punctuation
  | neg => .minus
  | not => .not

/-- A numeral as it is spelled. -/
structure Literal where
  spelling : Text
  /-- Whether it has neither point nor exponent. -/
  integer : Bool
deriving DecidableEq, Repr

namespace Literal

def value? (l : Literal) : Option Float :=
  (Number.Decimal.unsigned? l.spelling).bind Number.Decimal.value?

def value (l : Literal) : Float := l.value?.getD 0

end Literal

/-- The tree of an expression. -/
inductive Expr where
  /-- A numeral. -/
  | constant (span : Span) (literal : Literal)
  /-- A variable or a standard name. -/
  | name (span : Span) (ident : Text)
  | element (span : Span) (array : Text) (index : Expr)
  /-- A call of a core opcode or a declared one. -/
  | call (span : Span) (callee : Text) (args : List Expr)
  | binary (span : Span) (op : BinaryOp) (left right : Expr)
  | unary (span : Span) (op : UnaryOp) (operand : Expr)
  /-- One of two expressions, as the guard is nonzero or not. -/
  | conditional (span : Span) (guard yes no : Expr)
deriving Repr, Inhabited

namespace Expr

def span : Expr → Span
  | constant s _ | name s _ | element s _ _ | call s _ _ | binary s _ _ _ | unary s _ _
  | conditional s _ _ _ => s

def kind : Expr → String
  | constant .. => "constant"
  | name .. => "identifier"
  | element .. => "indexed reference"
  | call .. => "function call"
  | binary .. => "binary expression"
  | unary .. => "unary expression"
  | conditional .. => "conditional expression"

mutual

def erase : Expr → Expr
  | constant _ l => constant {} l
  | name _ x => name {} x
  | element _ x i => element {} x i.erase
  | call _ f args => call {} f (eraseAll args)
  | binary _ op l r => binary {} op l.erase r.erase
  | unary _ op x => unary {} op x.erase
  | conditional _ c y n => conditional {} c.erase y.erase n.erase

def eraseAll : List Expr → List Expr
  | [] => []
  | e :: es => e.erase :: eraseAll es

end

def constant? : Expr → Option Float
  | constant _ l => some l.value
  | unary _ .neg x => x.constant?.map fun v => -v
  | _ => none

def constantOrZero : Expr → Float
  | constant _ l => l.value
  | unary _ .neg x => -x.constantOrZero
  | _ => 0

end Expr

end Orchestrion
