import Orchestrion.Code.Emit

/-!
# Generating units

A checked instrument becomes a unit. Arrays are made and tables filled in the construct slot. Each
slot begins by importing the tagged variables of its rate and ends by exporting them; between them
stand the statements whose rate belongs to the slot, in the order of the text.
-/

namespace Orchestrion

/-- What a unit is linked with. -/
structure Linkage where
  settings : Settings
  globals : VariableTable
  /-- Where the global scalars are kept. -/
  store : StoreLayout
deriving Repr

def Linkage.of (settings : Settings) (globals : VariableTable) : Linkage :=
  ⟨settings, globals, .ofTable globals⟩

def Decl.declares (name : Text) : Decl → Bool
  | vars d => d.names.names.any fun n => n.ident = name
  | table d => d.ident = name

def Decl.node : Decl → Node
  | vars d => .vars d
  | table d => .table d

def Instrument.declaringNode (i : Instrument) (name : Text) : Node :=
  match i.decls.find? (Decl.declares name) with
  | some d => d.node
  | none =>
    match i.params.find? fun p => p.ident = name with
    | some p => p.node
    | none => .orchestra ⟨{}, []⟩

/-- The field that keeps a variable. -/
def Entry.field (settings : Settings) (e : Entry) : Field :=
  ⟨e.ident, e.width.resolve settings, e.rate, e.array⟩

/-- The layout with a field for one more variable. -/
def FieldLayout.add (settings : Settings) (l : FieldLayout) (e : Entry) : FieldLayout :=
  ⟨l.fields ++ [e.field settings], l.places.set e.ident l.fields.length⟩

namespace Emit

/-- Whether an instance can keep variables of the rate. -/
def keeps (rate : Rate) : Bool := rate.isSignal || rate = .table

/-- Lays out a field for each of the variables, behind those that are there, up to the first one
that instances cannot keep. -/
def layFields (settings : Settings) (l : FieldLayout) : List Entry → Except Entry FieldLayout
  | [] => .ok l
  | e :: es =>
    if keeps e.rate then layFields settings (l.add settings e) es
    else .error e

def makeArrays (i : Nat) : List Field → Emit Unit
  | [] => return
  | f :: fs => do
    if f.array then
      instruction .construct (.newArray i f.width)
    makeArrays (i + 1) fs

def pushConstants : List Expr → Emit Unit
  | [] => return
  | e :: es => do
    push .construct e.constantOrZero
    pushConstants es

def fillTable (c : EmitContext) (d : TableDecl) : Emit Unit := do
  match Generator.ofText? d.generator with
  | none => refuse c (.table d) (.generator d.generator)
  | some g =>
    match d.args with
    | [] => throw .missingArgument
    | _ :: args =>
      pushConstants args
      instruction .construct (.tableGen ((c.field? d.ident).getD 0) g.code args.length)

def fillTables (c : EmitContext) : List Decl → Emit Unit
  | [] => return
  | .vars _ :: ds => fillTables c ds
  | .table d :: ds => do
    fillTable c d
    fillTables c ds

/-- A field that is copied from or to the global store. -/
structure Shared where
  slot : Slot
  field : Nat
  global : Nat
deriving DecidableEq, Repr

def shared (c : EmitContext) (i : Instrument) (e : Entry) : Emit Shared := do
  if e.rate = .table then
    refuse c (i.declaringNode e.ident) (.sharedTable e.ident)
  match c.store.index? e.ident with
  | none => refuse c (i.declaringNode e.ident) (.noSlot e.ident)
  | some g => return ⟨(Slot.ofRate? e.rate).getD .construct, (c.field? e.ident).getD 0, g⟩

def importShared (c : EmitContext) (i : Instrument) : List Entry → Emit (List Shared)
  | [] => return []
  | e :: es => do
    if e.isTagged then
      let s ← shared c i e
      if e.imports then
        instruction s.slot (.importGlobal s.field s.global)
      let others ← importShared c i es
      return if e.exports then s :: others else others
    else
      importShared c i es

def exportShared (slot : Slot) : List Shared → Emit Unit
  | [] => return
  | s :: ss => do
    if s.slot = slot then
      instruction slot (.exportField s.field s.global)
    exportShared slot ss

def finish (exported : List Shared) (slot : Slot) : Emit Unit := do
  exportShared slot exported
  append slot .ret

def body (c : EmitContext) (u : CheckedUnit) (n : Nat) : List Stmt → Emit Unit
  | [] => return
  | s :: ss => do
    match Slot.ofRate? (u.stmtRate n) with
    | none => refuse c (.stmt s) (.statementRate (u.stmtRate n))
    | some slot => stmt c slot s
    body c u (n + 1) ss

def unit (c : EmitContext) (u : CheckedUnit) (i : Instrument) : Emit Unit := do
  makeArrays 0 c.fields
  fillTables c i.decls
  let exported ← importShared c i u.locals.entries
  body c u 0 i.body
  Slot.all.forM (finish exported)

end Emit

def Instrument.generate (l : Linkage) (u : CheckedUnit) (i : Instrument) :
    Except EmitFault CompiledUnit := do
  let scope : Scope := ⟨u.locals, some l.globals⟩
  match Emit.layFields l.settings {} u.locals.entries with
  | .error e =>
    let node := i.declaringNode e.ident
    throw (.unsupported ⟨node.span.start, i.ident, node.kind, .storage e.rate e.ident⟩)
  | .ok layout =>
    let c : EmitContext := { layout with ident := i.ident, scope, store := l.store }
    let (_, emitted) ← (Emit.unit c u i).run {}
    let pushes := emitted.streams.map Stream.pushes
    return {
      ident := i.ident
      fields := layout.fields
      params := i.params.map fun p => (((c.field? p.ident).getD 0 : Nat) : Int)
      nums := emitted.nums
      code := emitted.streams.map (·.code.toList)
      maxStack := max (max pushes.construct pushes.init) (max pushes.control pushes.audio)
      maxOutput := emitted.maxOutput }

end Orchestrion
