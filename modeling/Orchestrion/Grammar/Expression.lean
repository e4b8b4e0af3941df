import Orchestrion.Grammar.Cursor
import Orchestrion.Tree.Expr

/-!
# Reading expressions

From the loosest to the tightest: `? :`, which groups to the right, then the levels of binary
operators, which group to the left, then the operators in front of an operand, and at last numerals,
names, array elements, calls and expressions in parentheses.

The first argument of the readers bounds how deep they call each other.
-/

namespace Orchestrion

def BinaryOp.levels : List (List BinaryOp) :=
  [[or], [and], [equal, notEqual], [less, lessEqual, greater, greaterEqual], [add, sub], [mul, div]]

def BinaryOp.ofToken? (ops : List BinaryOp) (kind : TokenKind) : Option BinaryOp :=
  ops.find? fun op => kind = .punctuation op.punctuation

def UnaryOp.ofToken? (kind : TokenKind) : Option UnaryOp :=
  [neg, not].find? fun op => kind = .punctuation op.punctuation

namespace Reader

def literal (integer : Bool) : Reader Expr := do
  let t ← peek
  let l : Literal := ⟨t.value, integer⟩
  match l.value? with
  | none => failAt t.start (.invalidNumber t.value)
  | some _ =>
    let t ← take
    return .constant ⟨t.start, t.stop⟩ l

mutual

def expression : Nat → Reader Expr
  | 0 => unexpected "expression"
  | n + 1 => do
    let guard ← operation n BinaryOp.levels
    if ← sees .question then
      let _ ← take
      let yes ← expression n
      let _ ← mark .colon
      let no ← expression n
      return .conditional ⟨guard.span.start, no.span.stop⟩ guard yes no
    else
      return guard

def operation : Nat → List (List BinaryOp) → Reader Expr
  | 0, _ => unexpected "expression"
  | n + 1, [] => operand n
  | n + 1, ops :: tighter => do
    let left ← operation n tighter
    operands n ops tighter left

def operands : Nat → List BinaryOp → List (List BinaryOp) → Expr → Reader Expr
  | 0, _, _, _ => unexpected "expression"
  | n + 1, ops, tighter, left => do
    match BinaryOp.ofToken? ops (← kind) with
    | none => return left
    | some op =>
      let _ ← take
      let right ← operation n tighter
      operands n ops tighter (.binary ⟨left.span.start, right.span.stop⟩ op left right)

def operand : Nat → Reader Expr
  | 0 => unexpected "expression"
  | n + 1 => do
    match UnaryOp.ofToken? (← kind) with
    | some op =>
      let t ← take
      let x ← operand n
      return .unary ⟨t.start, x.span.stop⟩ op x
    | none => term n

def term : Nat → Reader Expr
  | 0 => unexpected "expression"
  | n + 1 => do
    match ← kind with
    | .integer => literal true
    | .number => literal false
    | .name =>
      let t ← take
      match ← kind with
      | .punctuation .leftBracket =>
        let _ ← take
        let index ← expression n
        let close ← mark .rightBracket
        return .element ⟨t.start, close.stop⟩ t.value index
      | .punctuation .leftParen =>
        let (args, close) ← arguments n
        return .call ⟨t.start, close.stop⟩ t.value args
      | _ => return .name ⟨t.start, t.stop⟩ t.value
    | .punctuation .leftParen =>
      let _ ← take
      let e ← expression n
      let _ ← mark .rightParen
      return e
    | _ => unexpected "expression"

def arguments : Nat → Reader (List Expr × Token)
  | 0 => unexpected "expression"
  | n + 1 => do
    let _ ← mark .leftParen
    if ← sees .rightParen then
      return ([], ← take)
    else
      let first ← expression n
      let (others, close) ← moreArguments n
      return (first :: others, close)

def moreArguments : Nat → Reader (List Expr × Token)
  | 0 => unexpected "expression"
  | n + 1 => do
    if ← sees .rightParen then
      return ([], ← take)
    else
      let _ ← mark .comma
      let next ← expression n
      let (others, close) ← moreArguments n
      return (next :: others, close)

end

def wholeExpression (bound : Nat) : Reader Expr := do
  let e ← expression bound
  if (← kind) = .endOfText then return e else unexpected "end of expression"

end Reader

def Expr.parse (source : Text) : Except SyntaxError Expr :=
  Reader.readAll Reader.wholeExpression source

end Orchestrion
