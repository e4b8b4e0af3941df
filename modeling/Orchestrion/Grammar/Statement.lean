import Orchestrion.Grammar.Expression
import Orchestrion.Tree.Stmt

/-!
# Reading statements

The branches of `if` and the body of `while` are always in braces. What stands left of an assignment
is read as an expression and has to be a name or an array element.
-/

namespace Orchestrion

def Expr.target? : Expr → Option Target
  | name span x => some ⟨span, x, none⟩
  | element span x index => some ⟨span, x, some index⟩
  | _ => none

def TokenKind.opensDecl : TokenKind → Bool
  | keyword .table | keyword .imports | keyword .exports => true
  | kind => kind.isStorageType

namespace Reader

def guard (n : Nat) : Reader Expr := do
  let _ ← mark .leftParen
  let e ← expression n
  let _ ← mark .rightParen
  return e

def simpleStatement (n : Nat) : Reader Stmt := do
  let start := (← peek).start
  let x ← expression n
  if ← sees .assign then
    match x.target? with
    | none => failAt x.span.start (.notAssignable x.kind)
    | some target =>
      let _ ← take
      let value ← expression n
      let close ← mark .semicolon
      return .assign ⟨start, close.stop⟩ target value
  else
    let close ← mark .semicolon
    return .eval ⟨start, close.stop⟩ x

mutual

def statement : Nat → Reader Stmt
  | 0 => unexpected "expression"
  | n + 1 => do
    let start := (← peek).start
    match ← kind with
    | .keyword .ifWord =>
      let _ ← take
      let cond ← guard n
      let (yes, close) ← block n
      if ← seesWord .elseWord then
        let _ ← take
        let (no, close) ← block n
        return .ifElse ⟨start, close.stop⟩ cond yes no
      else
        return .ifThen ⟨start, close.stop⟩ cond yes
    | .keyword .whileWord =>
      let _ ← take
      let cond ← guard n
      let (body, close) ← block n
      return .loop ⟨start, close.stop⟩ cond body
    | .keyword .output =>
      let _ ← take
      let (args, _) ← arguments n
      let close ← mark .semicolon
      return .output ⟨start, close.stop⟩ args
    | .keyword .extend =>
      let _ ← take
      let seconds ← guard n
      let close ← mark .semicolon
      return .extend ⟨start, close.stop⟩ seconds
    | .keyword .turnoff =>
      let _ ← take
      let close ← mark .semicolon
      return .turnoff ⟨start, close.stop⟩
    | .keyword .returnWord =>
      let _ ← take
      let (values, _) ← arguments n
      let close ← mark .semicolon
      return .ret ⟨start, close.stop⟩ values
    | kind => if kind.opensDecl then failAt start .lateDeclaration else simpleStatement n

def block : Nat → Reader (List Stmt × Token)
  | 0 => unexpected "expression"
  | n + 1 => do
    let _ ← mark .leftBrace
    let body ← statements n
    let close ← mark .rightBrace
    return (body, close)

def statements : Nat → Reader (List Stmt)
  | 0 => unexpected "expression"
  | n + 1 => do
    match ← kind with
    | .punctuation .rightBrace | .endOfText => return []
    | _ =>
      let first ← statement n
      let others ← statements n
      return first :: others

end

end Reader

end Orchestrion
