import Orchestrion.Check.Unit
import Orchestrion.Machine.Step

/-!
# Direct evaluation

What the source of a unit means, without any code: expressions and statements are evaluated on the
memory of an instance. Operands are evaluated from left to right, the index of a target before the
value that is assigned, and both sides of `&&` and `||` always. What is nonzero counts as true, and
what is not a number counts as less than any number.
-/

namespace Orchestrion

open Number

/-- Why an evaluation ends early. -/
inductive Interruption where
  /-- The source can be blamed for it at run time. -/
  | fault (fault : RuntimeFault)
  /-- A loop went round too often. -/
  | unfinished
  /-- The construct has no meaning in a unit that can be played. -/
  | undefined
deriving DecidableEq, Repr

/-- What an evaluation changes: the values and arrays of the variables, the lifetime of the
instance, the global store and the sounds sent out so far. -/
structure Memory (locals globals : Nat) where
  fields : Vector Float32 locals
  arrays : Vector (Array Float32) locals
  lifetime : Lifetime
  store : Vector Float32 globals
  sounds : Array Sound

/-- What an evaluation does not change. -/
structure Scene where
  /-- The variables of the unit. -/
  locals : VariableTable
  /-- The global variables. -/
  globals : VariableTable
  host : Host
  /-- The zero that numerals and truth values stand for. -/
  zero : Float32

def Decl.tableNumbers : Decl → List Float32
  | .vars _ => []
  | .table d => d.args.tail.map fun e => narrow e.constantOrZero

/-- The zero that numerals and truth values of an instrument stand for: the first one that it gives
to the generator of a table, which may be the negative one. -/
def Instrument.zero (i : Instrument) : Float32 :=
  ((i.decls.flatMap Decl.tableNumbers).find? fun v => v == 0).getD 0

def Instrument.scene (i : Instrument) (checked : CheckedUnit) (globals : VariableTable)
    (host : Host) : Scene :=
  ⟨checked.locals, globals, host, i.zero⟩

namespace Scene

variable (σ : Scene)

/-- Where the global scalars are kept. -/
def layout : StoreLayout := .ofTable σ.globals

/-- The memory of an instance of the unit. -/
abbrev Memory : Type := Orchestrion.Memory σ.locals.entries.length σ.layout.names.length

/-- An evaluation on the memory of an instance. -/
abbrev Evaluation (α : Type) : Type := EStateM Interruption σ.Memory α

/-- The number of a variable of the unit. -/
def local? (x : Text) : Option (Fin σ.locals.entries.length) :=
  σ.locals.entries.findFinIdx? fun e => e.ident = x

/-- The place of a global scalar in the store. -/
def global? (x : Text) : Option (Fin σ.layout.names.length) :=
  σ.layout.names.findFinIdx? (· = x)

/-! ### Values -/

/-- What a number in the source stands for. -/
def number (v : Float) : Float32 :=
  if narrow v == 0 then σ.zero else narrow v

def truth (b : Bool) : Float32 := if b then 1 else σ.zero

def less (l r : Float32) : Bool := !(l == r) && !(r < l : Bool)

def operate (op : BinaryOp) (l r : Float32) : Float32 :=
  match op with
  | .add => l + r
  | .sub => l - r
  | .mul => l * r
  | .div => l / r
  | .and => if l != 0 && r != 0 then 1 else 0
  | .or => if l != 0 || r != 0 then 1 else 0
  | .equal => σ.truth (l == r)
  | .notEqual => σ.truth !(l == r)
  | .less => σ.truth (less l r)
  | .lessEqual => σ.truth (l == r || less l r)
  | .greater => σ.truth !(l == r || less l r)
  | .greaterEqual => σ.truth !(less l r)

/-- The value of a name: a variable of the unit, or else a global scalar, or else a standard name.
-/
def nameValue (x : Text) : σ.Evaluation Float32 := do
  let m ← get
  match σ.local? x, σ.global? x, StandardName.ofText? x with
  | some f, _, _ => return m.fields[f]
  | none, some g, _ => return m.store[g]
  | none, none, some s => return σ.host.standard m.lifetime s
  | none, none, none => throw .undefined

def elementValue (x : Text) (f : Fin σ.locals.entries.length) (index : Float32) :
    σ.Evaluation Float32 := do
  let m ← get
  let i := singleToWord index
  match element? m.arrays[f] i.toInt with
  | some v => return v
  | none => throw (.fault (.index i x m.arrays[f].size))

def setElement (x : Text) (f : Fin σ.locals.entries.length) (index v : Float32) :
    σ.Evaluation Unit := do
  let m ← get
  let i := singleToWord index
  match replace? m.arrays[f] i.toInt v with
  | some a => set { m with arrays := m.arrays.set f a }
  | none => throw (.fault (.index i x m.arrays[f].size))

theorem elementValue_apply (x : Text) (f : Fin σ.locals.entries.length) (index : Float32)
    (m : σ.Memory) : σ.elementValue x f index m =
      (match element? m.arrays[f] (singleToWord index).toInt with
      | some v => return v
      | none => throw (.fault (.index (singleToWord index) x m.arrays[f].size)) :
        σ.Evaluation Float32) m := rfl

theorem setElement_apply (x : Text) (f : Fin σ.locals.entries.length) (index v : Float32)
    (m : σ.Memory) : σ.setElement x f index v m =
      (match replace? m.arrays[f] (singleToWord index).toInt v with
      | some a => set { m with arrays := m.arrays.set f a }
      | none => throw (.fault (.index (singleToWord index) x m.arrays[f].size)) :
        σ.Evaluation Unit) m := rfl

def tableValue (x : Text) (f : Fin σ.locals.entries.length) :
    CoreOpcode → List Float32 → σ.Evaluation Float32
  | .tableLength, [] => return Float32.ofNat (← get).arrays[f].size
  | .tableRead, [index] => σ.elementValue x f index
  | .tableWrite, [index, v] => do
    σ.setElement x f index v
    return v
  | _, _ => throw .undefined

mutual

/-- Evaluates an expression. -/
def value : Expr → σ.Evaluation Float32
  | .constant _ l => return σ.number l.value
  | .name _ x => σ.nameValue x
  | .element _ x index => do
    let i ← value index
    match σ.local? x with
    | some f => σ.elementValue x f (truncate i)
    | none => throw .undefined
  | .binary _ op left right => do
    let l ← value left
    let r ← value right
    return σ.operate op l r
  | .unary _ .neg operand => do
    let v ← value operand
    return -v
  | .unary _ .not operand => do
    let v ← value operand
    return σ.truth (v == 0)
  | .conditional _ guard yes no => do
    let v ← value guard
    if v == 0 then value no else value yes
  | .call _ callee args =>
    match CoreOpcode.ofText? callee with
    | some (.builtin b) => do
      let vs ← values args
      match b.value? vs with
      | some v => return v
      | none => throw .undefined
    | some op => tableCall op args
    | none => throw .undefined

def tableCall (op : CoreOpcode) : List Expr → σ.Evaluation Float32
  | .name _ x :: args => do
    let vs ← values args
    match σ.local? x with
    | some f => σ.tableValue x f op vs
    | none => throw .undefined
  | _ => throw .undefined

/-- Evaluates expressions from left to right. -/
def values : List Expr → σ.Evaluation (List Float32)
  | [] => return []
  | e :: es => do
    let v ← value e
    let vs ← values es
    return v :: vs

end

/-! ### Statements -/

/-- Where a value is assigned to. -/
inductive Place where
  | field (f : Fin σ.locals.entries.length)
  | element (x : Text) (f : Fin σ.locals.entries.length) (index : Float32)
  | global (g : Fin σ.layout.names.length)

def target (t : Target) : σ.Evaluation σ.Place := do
  match σ.local? t.ident, t.index, σ.global? t.ident with
  | some f, none, _ => return .field f
  | some f, some index, _ => do
    let i ← σ.value index
    return .element t.ident f (truncate i)
  | none, none, some g => return .global g
  | none, _, _ => throw .undefined

def assign (v : Float32) : σ.Place → σ.Evaluation Unit
  | .field f => modify fun m => { m with fields := m.fields.set f v }
  | .element x f index => σ.setElement x f index v
  | .global g => modify fun m => { m with store := m.store.set g v }

/-- Goes round a loop, at most the given number of times. -/
def repeatWhile (guard : σ.Evaluation Float32) (body : σ.Evaluation Unit) :
    Nat → σ.Evaluation Unit
  | 0 => throw .unfinished
  | rounds + 1 => do
    let v ← guard
    if v == 0 then return
    else
      body
      repeatWhile guard body rounds

/-- Sends values out: a single one to all channels, several to one channel each. -/
def send : List Float32 → σ.Evaluation Unit
  | [v] => modify fun m => { m with sounds := m.sounds.push (.all v) }
  | vs => modify fun m => { m with sounds := m.sounds.push (.frame vs) }

mutual

/-- Evaluates a statement, its loops going round at most the given number of times. -/
def perform (rounds : Nat) : Stmt → σ.Evaluation Unit
  | .assign _ t e => do
    let place ← σ.target t
    let v ← σ.value e
    σ.assign v place
  | .eval _ e => do
    let _ ← σ.value e
  | .ifThen _ guard body => do
    let v ← σ.value guard
    if v == 0 then return else performAll rounds body
  | .ifElse _ guard yes no => do
    let v ← σ.value guard
    if v == 0 then performAll rounds no else performAll rounds yes
  | .loop _ guard body => σ.repeatWhile (σ.value guard) (performAll rounds body) rounds
  | .output _ args => do
    let vs ← σ.values args
    σ.send vs
  | .extend _ e => do
    let v ← σ.value e
    let ticks := σ.host.settings.ticks (widen v)
    modify fun m => { m with lifetime := m.lifetime.extend ticks }
  | .turnoff _ => modify fun m => { m with lifetime := m.lifetime.turnOff σ.host.now }
  | .ret _ _ => throw .undefined

/-- Evaluates statements one after the other. -/
def performAll (rounds : Nat) : List Stmt → σ.Evaluation Unit
  | [] => return
  | s :: ss => do
    perform rounds s
    performAll rounds ss

end

/-! ### Passes -/

/-- Copies a variable from the global store. -/
def importEntry (e : Entry) : σ.Evaluation Unit :=
  match σ.local? e.ident, σ.global? e.ident with
  | some f, some g => modify fun m => { m with fields := m.fields.set f m.store[g] }
  | _, _ => throw .undefined

/-- Copies a variable to the global store. -/
def exportEntry (e : Entry) : σ.Evaluation Unit :=
  match σ.local? e.ident, σ.global? e.ident with
  | some f, some g => modify fun m => { m with store := m.store.set g m.fields[f] }
  | _, _ => throw .undefined

/-- Does something for the chosen variables among some whose rate is that of a slot. -/
def share (slot : Slot) (chosen : Entry → Bool) (copy : Entry → σ.Evaluation Unit) :
    List Entry → σ.Evaluation Unit
  | [] => return
  | e :: es => do
    if chosen e = true ∧ Slot.ofRate? e.rate = some slot then
      copy e
    share slot chosen copy es

/-- Evaluates those statements at the top of a unit, the first of them being number `n`, whose rate
is that of a slot. -/
def statements (checked : CheckedUnit) (slot : Slot) (rounds n : Nat) :
    List Stmt → σ.Evaluation Unit
  | [] => return
  | s :: ss => do
    if Slot.ofRate? (checked.stmtRate n) = some slot then
      σ.perform rounds s
    statements checked slot rounds (n + 1) ss

/-- Evaluates what a unit does in a slot: the imports, the statements and the exports of its rate.
-/
def pass (checked : CheckedUnit) (i : Instrument) (slot : Slot) (rounds : Nat) :
    σ.Evaluation Unit := do
  σ.share slot Entry.imports σ.importEntry σ.locals.entries
  σ.statements checked slot rounds 0 i.body
  σ.share slot Entry.exports σ.exportEntry σ.locals.entries

end Scene

end Orchestrion
