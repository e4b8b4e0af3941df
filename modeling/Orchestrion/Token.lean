import Orchestrion.Text

/-!
# Tokens

The words of an orchestra: punctuation, keywords, names and numerals, each with the place where it
stands in the text.
-/

namespace Orchestrion

/-- A place in a text. -/
structure Position where
  line : Nat := 0
  /-- The column in bytes, counted from one. -/
  column : Nat := 0
  /-- The number of bytes before the place. -/
  offset : Nat := 0
deriving DecidableEq, Repr, Inhabited

namespace Position

def first : Position := ⟨1, 1, 0⟩

def isValid (p : Position) : Bool := 0 < p.line

def text (p : Position) : Text := Text.ofNat p.line ++ ":" ++ Text.ofNat p.column

def right (p : Position) (n : Nat) : Position :=
  { p with column := p.column + n, offset := p.offset + n }

def after (p : Position) (b : UInt8) : Position :=
  if b = 10 then ⟨p.line + 1, 1, p.offset + 1⟩ else p.right 1

end Position

/-- The marks of the language. -/
inductive Punctuation where
  | plus | minus | star | slash | assign
  | equal | notEqual | less | lessEqual | greater | greaterEqual
  | and | or | not
  | leftParen | rightParen | leftBrace | rightBrace | leftBracket | rightBracket
  | comma | semicolon | colon | question
deriving DecidableEq, Repr

def Punctuation.spelling : Punctuation → String
  | plus => "+"
  | minus => "-"
  | star => "*"
  | slash => "/"
  | assign => "="
  | equal => "=="
  | notEqual => "!="
  | less => "<"
  | lessEqual => "<="
  | greater => ">"
  | greaterEqual => ">="
  | and => "&&"
  | or => "||"
  | not => "!"
  | leftParen => "("
  | rightParen => ")"
  | leftBrace => "\x7b"
  | rightBrace => "\x7d"
  | leftBracket => "["
  | rightBracket => "]"
  | comma => ","
  | semicolon => ";"
  | colon => ":"
  | question => "?"

def Punctuation.isRelational : Punctuation → Bool
  | equal | notEqual | less | lessEqual | greater | greaterEqual => true
  | _ => false

/-- The words that are no names. -/
inductive Keyword where
  | global | instr | opcode | aopcode | kopcode | iopcode | template
  | srate | krate | inchannels | outchannels | interp
  | ivar | ksig | asig | xsig | oparray | table
  | imports | exports
  | ifWord | elseWord | whileWord | output | extend | turnoff | returnWord
deriving DecidableEq, Repr

namespace Keyword

def spelling : Keyword → String
  | global => "global"
  | instr => "instr"
  | opcode => "opcode"
  | aopcode => "aopcode"
  | kopcode => "kopcode"
  | iopcode => "iopcode"
  | template => "template"
  | srate => "srate"
  | krate => "krate"
  | inchannels => "inchannels"
  | outchannels => "outchannels"
  | interp => "interp"
  | ivar => "ivar"
  | ksig => "ksig"
  | asig => "asig"
  | xsig => "xsig"
  | oparray => "oparray"
  | table => "table"
  | imports => "imports"
  | exports => "exports"
  | ifWord => "if"
  | elseWord => "else"
  | whileWord => "while"
  | output => "output"
  | extend => "extend"
  | turnoff => "turnoff"
  | returnWord => "return"

def all : List Keyword :=
  [global, instr, opcode, aopcode, kopcode, iopcode, template, srate, krate, inchannels,
    outchannels, interp, ivar, ksig, asig, xsig, oparray, table, imports, exports, ifWord, elseWord,
    whileWord, output, extend, turnoff, returnWord]

def ofText? (word : Text) : Option Keyword :=
  all.find? fun k => word = (k.spelling : Text)

def isStorageType : Keyword → Bool
  | ivar | ksig | asig | xsig | oparray => true
  | _ => false

def isOpcodeType : Keyword → Bool
  | opcode | aopcode | kopcode | iopcode => true
  | _ => false

end Keyword

/-- The kinds of tokens. -/
inductive TokenKind where
  /-- Text that is no token; its value is the complaint. -/
  | illegal
  | endOfText
  | punctuation (p : Punctuation)
  | keyword (k : Keyword)
  | name
  | integer
  | number
deriving DecidableEq, Repr

namespace TokenKind

def describe : TokenKind → String
  | illegal => "<illegal>"
  | endOfText => "EOF"
  | punctuation p => p.spelling
  | keyword k => k.spelling
  | name => "name"
  | integer => "integer"
  | number => "number"

def ofWord (word : Text) : TokenKind :=
  match Keyword.ofText? word with
  | some k => keyword k
  | none => name

def isPunctuation : TokenKind → Bool
  | punctuation _ => true
  | _ => false

def isKeyword : TokenKind → Bool
  | keyword _ => true
  | _ => false

def isLiteral : TokenKind → Bool
  | name | integer | number => true
  | _ => false

def isStorageType : TokenKind → Bool
  | keyword k => k.isStorageType
  | _ => false

def isOpcodeType : TokenKind → Bool
  | keyword k => k.isOpcodeType
  | _ => false

def isRelational : TokenKind → Bool
  | punctuation p => p.isRelational
  | _ => false

end TokenKind

/-- A token of a text. -/
structure Token where
  kind : TokenKind
  /-- Its text, or for an illegal token the complaint. -/
  value : Text
  /-- Where it begins. -/
  start : Position
deriving DecidableEq, Repr

namespace Token

def stop (t : Token) : Position := t.start.right t.value.length

def endOfText (p : Position) : Token := ⟨.endOfText, [], p⟩

end Token

end Orchestrion
