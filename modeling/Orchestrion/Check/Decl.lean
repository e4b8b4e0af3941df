import Orchestrion.Check.Expr
import Orchestrion.Number.Binary

/-!
# Checking declarations

Each declared name makes an entry in the table of the unit. A variable with tags needs a global
scalar of its name and rate, and a table with tags a global table.
-/

namespace Orchestrion.Check

def param (c : Context) (path : Path) (p : InstrumentParam) : Checking Unit := do
  let e : Entry := { ident := p.ident, width := .fixed 1, rate := .i, place := p.span.start }
  declareOnce c p.node e
  setSignal path p.node (.fixed 1) .i
  setPayload path p.node (.entry e)

def params (c : Context) (path : Path) (i : Nat) : List InstrumentParam → Checking Unit
  | [] => return
  | p :: ps => do
    param c (i :: path) p
    params c path (i + 1) ps

def tags (path : Path) : Option Tags → Checking Unit
  | some t => setPayload path (.tags t) (.tag (tagLetters t.imports t.exports))
  | none => return

def effectiveTags (c : Context) : Option Tags → Checking (Bool × Bool)
  | none => return (false, false)
  | some t => do
    if c.kind = .global then
      complain c (.tags t) .tagsInGlobal
      return (false, false)
    else
      return (t.imports, t.exports)

def declaredWidth : Shape → Width
  | .scalar => .fixed 1
  | .array size => if size = 0 then .fixed 1 else .fixed size
  | .inChannels => .inChannels
  | .outChannels => .outChannels

def declaredName (c : Context) (path : Path) (n : DeclaredName) : Checking Entry := do
  let e : Entry :=
    { ident := n.ident, width := declaredWidth n.shape, rate := .unknown
      array := n.shape ≠ .scalar, place := n.span.start }
  if n.shape = .array 0 then
    complain c (.declared n) (.badArraySize n.ident)
  setSignal path (.declared n) e.width .unknown
  setPayload path (.declared n) (.entry e)
  return e

def declaredNames (c : Context) (path : Path) (i : Nat) :
    List DeclaredName → Checking (List Entry)
  | [] => return []
  | n :: ns => do
    let e ← declaredName c (i :: path) n
    let es ← declaredNames c path (i + 1) ns
    return e :: es

def nameList (c : Context) (path : Path) (l : NameList) : Checking (List Entry) := do
  let names ← declaredNames c path 0 l.names
  setPayload path (.names l) (.entries names)
  return names

def tagFault? (c : Context) (e : Entry) : Option Cause :=
  match c.globals.bind (·.lookup? e.ident) with
  | none => some (.noGlobal e.imports e.ident)
  | some g =>
    if e.array || g.array then some (.taggedArray e.ident)
    else if g.rate ≠ e.rate then some (.globalRate e.imports e.ident g.rate e.rate)
    else none

def declareAll (c : Context) (d : VariableDecl) : List Entry → Checking (List Entry)
  | [] => return []
  | e :: es => do
    complainIf c (.vars d) (if e.isTagged then tagFault? c e else none)
    if ← declare e then
      let others ← declareAll c d es
      return e :: others
    else
      complain c (.vars d) (.duplicateVariable e.ident)
      declareAll c d es

def variableDecl (c : Context) (path : Path) (d : VariableDecl) : Checking Unit := do
  tags (0 :: path) d.tags
  let rate := d.type.type.rate
  setSignal (1 :: path) (.type d.type) (.fixed 1) rate
  let names ← nameList c (2 :: path) d.names
  unless c.kind.declares rate do
    abandon c (.vars d) (.illegalType rate (names.map Entry.ident))
  let (imports, exports) ← effectiveTags c d.tags
  let declared ← declareAll c d <| names.map fun e => { e with rate, imports, exports }
  setPayload path (.vars d) (.entries declared)

def tableArguments (c : Context) (table : Text) (path : Path) (i : Nat) :
    List Expr → Checking (List Float)
  | [] => return []
  | arg :: args => do
    let _ ← expr c (i :: path) arg
    match arg.constant? with
    | some v =>
      let values ← tableArguments c table path (i + 1) args
      return v :: values
    | none =>
      complain c (.expr arg) (.tableArguments table .notConstant)
      tableArguments c table path (i + 1) args

def tableSize? (v : Float) : Option Int :=
  let n := Number.toWord v
  if v != Number.doubleOfWord n || v <= 0 then none else some n.toInt

def valuesFault? (g : Generator) (values : List Float) (size : Int) : Option TableFault :=
  match g with
  | .data => if size < (values.length : Int) - 1 then some .tooManyValues else none
  | .lineseg => if (values.length - 1) % 2 ≠ 0 then some .oddPoints else none
  | _ => none

def tableShape (d : TableDecl) (values : List Float) : Int × Option Cause :=
  match Generator.ofText? d.generator with
  | none => (1, some (.unknownGenerator d.generator))
  | some g =>
    if d.args.length < g.leastArgs then (1, some (.tableArguments d.ident (.tooFewArgs g)))
    else if values.length = d.args.length then
      match values.head?.bind tableSize? with
      | none => (1, some (.tableArguments d.ident .badSize))
      | some size => (size, (valuesFault? g values size).map (.tableArguments d.ident))
    else (1, none)

def tableTagFault? (c : Context) (e : Entry) : Option Cause :=
  match c.globals.bind (·.lookup? e.ident) with
  | none => some (.noGlobal e.imports e.ident)
  | some g =>
    if g.rate ≠ .table then some (.globalRate e.imports e.ident g.rate e.rate) else none

def table (c : Context) (path : Path) (d : TableDecl) : Checking Unit := do
  tags (0 :: path) d.tags
  let (imports, exports) ← effectiveTags c d.tags
  let values ← tableArguments c d.ident (1 :: path) 0 d.args
  let (size, fault) := tableShape d values
  complainIf c (.table d) fault
  let e : Entry :=
    { ident := d.ident, width := .fixed size, rate := .table, array := true, imports, exports
      place := d.span.start }
  complainIf c (.table d) (if e.isTagged then tableTagFault? c e else none)
  declareOnce c (.table d) e
  setSignal path (.table d) (.fixed size) .table
  setPayload path (.table d) (.entry e)

def decl (c : Context) (path : Path) : Decl → Checking Unit
  | .vars d => variableDecl c path d
  | .table d => table c path d

def decls (c : Context) (path : Path) (i : Nat) : List Decl → Checking Unit
  | [] => return
  | d :: ds => do
    decl c (i :: path) d
    decls c path (i + 1) ds

def opcodeParams (c : Context) (path : Path) (i : Nat) : List VariableDecl → Checking Unit
  | [] => return
  | d :: ds => do
    variableDecl c (i :: path) d
    opcodeParams c path (i + 1) ds

def globalItems (c : Context) (path : Path) (i : Nat) : List GlobalItem → Checking Unit
  | [] => return
  | .setting _ :: items => globalItems c path (i + 1) items
  | .decl d :: items => do
    decl c (i :: path) d
    globalItems c path (i + 1) items

end Orchestrion.Check
