import Orchestrion.Token.Scan
import Orchestrion.Number.Decimal

/-!
# Reading tokens

A cursor over the tokens of a text, and readers that move it or stop at the first fault. A text
that is no token is a fault as soon as it comes next.
-/

namespace Orchestrion

/-- Why tokens are not an orchestra. -/
inductive SyntaxFault where
  /-- Text that is no token, with the complaint about it. -/
  | illegal (complaint : Text)
  /-- Something else was expected than what was found. -/
  | expected (what : String) (found : Text)
  /-- An integer beyond the range of integers. -/
  | invalidInteger (spelling : Text)
  /-- A numeral beyond the range of numbers. -/
  | invalidNumber (spelling : Text)
  | duplicateTag (tag : Keyword)
  /-- A declaration behind a statement. -/
  | lateDeclaration
  /-- An expression of the given kind cannot be assigned to. -/
  | notAssignable (kind : String)
deriving DecidableEq, Repr

def SyntaxFault.message : SyntaxFault → Text
  | illegal complaint => complaint
  | expected what found => "expected " ++ (what : Text) ++ ", got " ++ found
  | invalidInteger spelling => "invalid integer " ++ spelling
  | invalidNumber spelling => "invalid number " ++ spelling
  | duplicateTag tag => "duplicate " ++ (tag.spelling : Text) ++ " tag"
  | lateDeclaration => "declaration after statements"
  | notAssignable kind => "cannot assign to " ++ (kind : Text)

/-- A fault and its place. -/
structure SyntaxError where
  place : Position
  fault : SyntaxFault
deriving DecidableEq, Repr

def SyntaxError.message (e : SyntaxError) : Text :=
  if e.place.isValid then e.place.text ++ ": " ++ e.fault.message else e.fault.message

def TokenKind.expectation : TokenKind → String
  | endOfText => "end of file"
  | kind => kind.describe

def Token.description (t : Token) : Text :=
  match t.kind with
  | .name | .integer | .number | .illegal => t.value
  | kind => kind.expectation

/-- The tokens that are left and the place behind the last. -/
structure Cursor where
  rest : List Token
  finish : Position
deriving Repr

namespace Cursor

def current (c : Cursor) : Token := c.rest.head?.getD (.endOfText c.finish)

def tail (c : Cursor) : Cursor := { c with rest := c.rest.tail }

end Cursor

abbrev Reader := StateT Cursor (Except SyntaxError)

namespace Reader

def peek : Reader Token := return (← get).current

def kind : Reader TokenKind := return (← peek).kind

def failAt {α : Type} (place : Position) (fault : SyntaxFault) : Reader α :=
  throw ⟨place, fault⟩

def unexpected {α : Type} (what : String) : Reader α := do
  let t ← peek
  failAt t.start (.expected what t.description)

def refuseIllegal : Reader Unit := do
  let t ← peek
  if t.kind = .illegal then failAt t.start (.illegal t.value)

def take : Reader Token := do
  let t ← peek
  modify Cursor.tail
  refuseIllegal
  return t

def expect (kind : TokenKind) : Reader Token := do
  let t ← peek
  if t.kind = kind then take else unexpected kind.expectation

def mark (p : Punctuation) : Reader Token := expect (.punctuation p)

def sees (p : Punctuation) : Reader Bool := return (← kind) = .punctuation p

def seesWord (k : Keyword) : Reader Bool := return (← kind) = .keyword k

def integer : Reader Nat := do
  let t ← expect .integer
  match Number.natural? t.value with
  | some n => if n < Nat.pow 2 63 then return n else failAt t.start (.invalidInteger t.value)
  | none => failAt t.start (.invalidInteger t.value)

def readAll {α : Type} (reader : Nat → Reader α) (source : Text) : Except SyntaxError α :=
  let scanned := Token.scan source
  let bounded : Reader α := do
    refuseIllegal
    reader (16 * (scanned.tokens.length + 1))
  (bounded.run ⟨scanned.tokens, scanned.finish⟩).map Prod.fst

end Reader

end Orchestrion
