import Orchestrion.Tree.Stmt

/-!
# Declarations and orchestras

An orchestra is a list of global blocks, instruments, templates and opcodes in the order of the
text. Instruments and templates are written alike.
-/

namespace Orchestrion

/-- The types of variables. -/
inductive StorageType where
  | ivar | ksig | asig | xsig | oparray
deriving DecidableEq, Repr, Inhabited

def StorageType.keyword : StorageType → Keyword
  | ivar => .ivar
  | ksig => .ksig
  | asig => .asig
  | xsig => .xsig
  | oparray => .oparray

/-- How many values a declared name stands for. -/
inductive Shape where
  /-- A single value. -/
  | scalar
  | array (size : Nat)
  /-- An array with one element for each input channel. -/
  | inChannels
  /-- An array with one element for each output channel. -/
  | outChannels
deriving DecidableEq, Repr, Inhabited

namespace Shape

def kind : Shape → String
  | scalar => "simple name"
  | array _ => "indexed name"
  | inChannels => "in-channels name"
  | outChannels => "out-channels name"

def size : Shape → Nat
  | array n => n
  | _ => 0

end Shape

/-- The words in front of a declaration that tie it to global variables. -/
structure Tags where
  span : Span
  /-- Whether the variable is read from the global one before each pass. -/
  imports : Bool
  /-- Whether the variable is written to the global one after each pass. -/
  exports : Bool
deriving DecidableEq, Repr, Inhabited

/-- A type where it is written. -/
structure TypeName where
  span : Span
  type : StorageType
deriving DecidableEq, Repr, Inhabited

/-- A name in a declaration. -/
structure DeclaredName where
  span : Span
  ident : Text
  shape : Shape
deriving DecidableEq, Repr, Inhabited

/-- The names of a declaration. -/
structure NameList where
  span : Span
  names : List DeclaredName
deriving DecidableEq, Repr, Inhabited

/-- A declaration of variables. -/
structure VariableDecl where
  span : Span
  tags : Option Tags
  type : TypeName
  names : NameList
deriving DecidableEq, Repr, Inhabited

/-- A declaration of a table. -/
structure TableDecl where
  span : Span
  tags : Option Tags
  ident : Text
  /-- The generator that fills the table. -/
  generator : Text
  /-- The size of the table and the arguments of the generator. -/
  args : List Expr
deriving Repr, Inhabited

/-- A declaration. -/
inductive Decl where
  | vars (d : VariableDecl)
  | table (d : TableDecl)
deriving Repr, Inhabited

/-- The run-time parameters. -/
inductive Parameter where
  | srate | krate | inchannels | outchannels | interp
deriving DecidableEq, Repr, Inhabited

def Parameter.keyword : Parameter → Keyword
  | srate => .srate
  | krate => .krate
  | inchannels => .inchannels
  | outchannels => .outchannels
  | interp => .interp

def Parameter.spelling (p : Parameter) : String := p.keyword.spelling

/-- A run-time parameter that is set. -/
structure Setting where
  span : Span
  parameter : Parameter
  value : Int
deriving DecidableEq, Repr, Inhabited

def Setting.kind (s : Setting) : String := s.parameter.spelling ++ " parameter"

/-- What a global block holds. -/
inductive GlobalItem where
  | setting (s : Setting)
  | decl (d : Decl)
deriving Repr, Inhabited

/-- A global block. -/
structure GlobalBlock where
  span : Span
  items : List GlobalItem
deriving Repr, Inhabited

/-- A parameter of an instrument. -/
structure InstrumentParam where
  span : Span
  ident : Text
deriving DecidableEq, Repr, Inhabited

/-- An instrument or a template. -/
structure Instrument where
  span : Span
  ident : Text
  params : List InstrumentParam
  decls : List Decl
  body : List Stmt
deriving Repr, Inhabited

/-- The rates at which opcodes run. -/
inductive OpcodeKind where
  /-- At the fastest rate of its arguments. -/
  | opcode
  | aopcode
  | kopcode
  | iopcode
deriving DecidableEq, Repr, Inhabited

def OpcodeKind.keyword : OpcodeKind → Keyword
  | opcode => .opcode
  | aopcode => .aopcode
  | kopcode => .kopcode
  | iopcode => .iopcode

def OpcodeKind.spelling (k : OpcodeKind) : String := k.keyword.spelling

/-- A declared opcode. -/
structure Opcode where
  span : Span
  kind : OpcodeKind
  ident : Text
  params : List VariableDecl
  decls : List Decl
  body : List Stmt
deriving Repr, Inhabited

/-- A part of an orchestra. -/
inductive Item where
  | global (b : GlobalBlock)
  | instrument (i : Instrument)
  | opcode (o : Opcode)
  | template (t : Instrument)
deriving Repr, Inhabited

/-- The tree of an orchestra. -/
structure OrchestraTree where
  span : Span
  items : List Item
deriving Repr, Inhabited

/-! ### Trees without places -/

def Tags.erase (t : Tags) : Tags := { t with span := {} }

def TypeName.erase (t : TypeName) : TypeName := { t with span := {} }

def DeclaredName.erase (n : DeclaredName) : DeclaredName := { n with span := {} }

def NameList.erase (l : NameList) : NameList := ⟨{}, l.names.map DeclaredName.erase⟩

def VariableDecl.erase (d : VariableDecl) : VariableDecl :=
  ⟨{}, d.tags.map Tags.erase, d.type.erase, d.names.erase⟩

def TableDecl.erase (d : TableDecl) : TableDecl :=
  { d with span := {}, tags := d.tags.map Tags.erase, args := Expr.eraseAll d.args }

def Decl.erase : Decl → Decl
  | vars d => vars d.erase
  | table d => table d.erase

def GlobalItem.erase : GlobalItem → GlobalItem
  | setting s => setting { s with span := {} }
  | decl d => decl d.erase

def GlobalBlock.erase (b : GlobalBlock) : GlobalBlock := ⟨{}, b.items.map GlobalItem.erase⟩

def InstrumentParam.erase (p : InstrumentParam) : InstrumentParam := { p with span := {} }

def Instrument.erase (i : Instrument) : Instrument :=
  { span := {}, ident := i.ident, params := i.params.map InstrumentParam.erase
    decls := i.decls.map Decl.erase, body := Stmt.eraseAll i.body }

def Opcode.erase (o : Opcode) : Opcode :=
  { span := {}, kind := o.kind, ident := o.ident, params := o.params.map VariableDecl.erase
    decls := o.decls.map Decl.erase, body := Stmt.eraseAll o.body }

def Item.erase : Item → Item
  | global b => global b.erase
  | instrument i => instrument i.erase
  | opcode o => opcode o.erase
  | template t => template t.erase

def OrchestraTree.erase (o : OrchestraTree) : OrchestraTree := ⟨{}, o.items.map Item.erase⟩

end Orchestrion
