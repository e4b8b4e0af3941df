import Orchestrion.Grammar.Statement
import Orchestrion.Tree.Decl

/-!
# Reading orchestras

An orchestra is a list of global blocks, instruments, opcodes and templates. In a body all
declarations stand before the statements.

* `OrchestraTree.parse`: the tree of a text, or the first syntax error in it.
-/

namespace Orchestrion

def StorageType.ofToken? (kind : TokenKind) : Option StorageType :=
  [ivar, ksig, asig, xsig, oparray].find? fun t => kind = .keyword t.keyword

def Parameter.ofToken? (kind : TokenKind) : Option Parameter :=
  [srate, krate, inchannels, outchannels, interp].find? fun p => kind = .keyword p.keyword

def OpcodeKind.ofToken? (kind : TokenKind) : Option OpcodeKind :=
  [opcode, aopcode, kopcode, iopcode].find? fun k => kind = .keyword k.keyword

namespace Reader

def name : Reader Token := expect .name

def moreTags : Nat → Tags → Reader Tags
  | 0, _ => unexpected "expression"
  | n + 1, tags => do
    match ← kind with
    | .keyword .imports =>
      if tags.imports then failAt (← peek).start (.duplicateTag .imports)
      let t ← take
      moreTags n { tags with imports := true, span.stop := t.stop }
    | .keyword .exports =>
      if tags.exports then failAt (← peek).start (.duplicateTag .exports)
      let t ← take
      moreTags n { tags with exports := true, span.stop := t.stop }
    | _ => return tags

def tags (n : Nat) : Reader (Option Tags) := do
  match ← kind with
  | .keyword .imports | .keyword .exports =>
    let start := (← peek).start
    return some (← moreTags n ⟨⟨start, start⟩, false, false⟩)
  | _ => return none

def typeName : Reader TypeName := do
  match StorageType.ofToken? (← kind) with
  | some type =>
    let t ← take
    return ⟨⟨t.start, t.stop⟩, type⟩
  | none => unexpected "variable type"

def declaredName : Reader DeclaredName := do
  let t ← name
  if ← sees .leftBracket then
    let _ ← take
    let shape ← match ← kind with
      | .keyword .inchannels => do
        let _ ← take
        pure Shape.inChannels
      | .keyword .outchannels => do
        let _ ← take
        pure Shape.outChannels
      | _ => Shape.array <$> integer
    let close ← mark .rightBracket
    return ⟨⟨t.start, close.stop⟩, t.value, shape⟩
  else
    return ⟨⟨t.start, t.stop⟩, t.value, .scalar⟩

def moreNames : Nat → Reader (List DeclaredName)
  | 0 => unexpected "expression"
  | n + 1 => do
    if ← sees .comma then
      let _ ← take
      let next ← declaredName
      let others ← moreNames n
      return next :: others
    else
      return []

def generatorArguments : Nat → Reader (List Expr)
  | 0 => unexpected "expression"
  | n + 1 => do
    if ← sees .comma then
      let _ ← take
      let next ← expression n
      let others ← generatorArguments n
      return next :: others
    else
      return []

def declaration (n : Nat) : Reader Decl := do
  let start := (← peek).start
  let tags ← tags n
  if ← seesWord .table then
    let _ ← take
    let ident ← name
    let _ ← mark .leftParen
    let generator ← name
    let args ← generatorArguments n
    let _ ← mark .rightParen
    let close ← mark .semicolon
    return .table ⟨⟨start, close.stop⟩, tags, ident.value, generator.value, args⟩
  else
    let type ← typeName
    let first ← declaredName
    let others ← moreNames n
    let names : NameList :=
      ⟨⟨first.span.start, ((others.getLast?).getD first).span.stop⟩, first :: others⟩
    let close ← mark .semicolon
    return .vars ⟨⟨start, close.stop⟩, tags, type, names⟩

def declarations : Nat → Reader (List Decl)
  | 0 => unexpected "expression"
  | n + 1 => do
    if (← kind).opensDecl then
      let first ← declaration n
      let others ← declarations n
      return first :: others
    else
      return []

def body (n : Nat) : Reader (List Decl × List Stmt × Token) := do
  let _ ← mark .leftBrace
  let decls ← declarations n
  let stmts ← statements n
  let close ← mark .rightBrace
  return (decls, stmts, close)

def listed {α : Type} (element : Reader α) : Nat → Bool → Reader (List α)
  | 0, _ => unexpected "expression"
  | n + 1, isFirst => do
    if ← sees .rightParen then
      let _ ← take
      return []
    else
      unless isFirst do
        let _ ← mark .comma
      let next ← element
      let others ← listed element n false
      return next :: others

def instrumentParam : Reader InstrumentParam := do
  let t ← name
  return ⟨⟨t.start, t.stop⟩, t.value⟩

def opcodeParam : Reader VariableDecl := do
  let type ← typeName
  let declared ← declaredName
  return ⟨⟨type.span.start, declared.span.stop⟩, none, type, ⟨declared.span, [declared]⟩⟩

def instrument (n : Nat) : Reader Instrument := do
  let word ← take
  let ident ← name
  let _ ← mark .leftParen
  let params ← listed instrumentParam n true
  let (decls, stmts, close) ← body n
  return ⟨⟨word.start, close.stop⟩, ident.value, params, decls, stmts⟩

def opcode (n : Nat) (kind : OpcodeKind) : Reader Opcode := do
  let word ← take
  let ident ← name
  let _ ← mark .leftParen
  let params ← listed opcodeParam n true
  let (decls, stmts, close) ← body n
  return ⟨⟨word.start, close.stop⟩, kind, ident.value, params, decls, stmts⟩

def globalItem (n : Nat) : Reader GlobalItem := do
  match Parameter.ofToken? (← kind) with
  | some parameter =>
    let word ← take
    let value ← integer
    let close ← mark .semicolon
    return .setting ⟨⟨word.start, close.stop⟩, parameter, value⟩
  | none => .decl <$> declaration n

def globalItems : Nat → Reader (List GlobalItem)
  | 0 => unexpected "expression"
  | n + 1 => do
    match ← kind with
    | .punctuation .rightBrace | .endOfText => return []
    | _ =>
      let first ← globalItem n
      let others ← globalItems n
      return first :: others

def globalBlock (n : Nat) : Reader GlobalBlock := do
  let word ← take
  let _ ← mark .leftBrace
  let items ← globalItems n
  let close ← mark .rightBrace
  return ⟨⟨word.start, close.stop⟩, items⟩

def item (n : Nat) : Reader Item := do
  let next ← kind
  match next with
  | .keyword .global => .global <$> globalBlock n
  | .keyword .instr => .instrument <$> instrument n
  | .keyword .template => .template <$> instrument n
  | _ =>
    match OpcodeKind.ofToken? next with
    | some kind => .opcode <$> opcode n kind
    | none => unexpected "global, instr, opcode or template"

def items : Nat → Reader (List Item)
  | 0 => unexpected "expression"
  | n + 1 => do
    if (← kind) = .endOfText then
      return []
    else
      let first ← item n
      let others ← items n
      return first :: others

def orchestra (bound : Nat) : Reader OrchestraTree := do
  let start := (← peek).start
  let items ← items bound
  return ⟨⟨start, (← peek).start⟩, items⟩

end Reader

def OrchestraTree.parse (source : Text) : Except SyntaxError OrchestraTree :=
  Reader.readAll Reader.orchestra source

end Orchestrion
