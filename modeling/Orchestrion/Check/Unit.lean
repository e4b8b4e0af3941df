import Orchestrion.Check.Decl
import Orchestrion.Check.Stmt

/-!
# Checked units

The outcome of checking the global section, an instrument, a template or an opcode. Units are
checked one by one; all that one of them knows of the others is the table of global variables and
the kinds of the declared opcodes.
-/

namespace Orchestrion

/-- A unit after its check. -/
structure CheckedUnit where
  label : UnitLabel
  locals : VariableTable
  /-- What is known about the nodes of the unit. -/
  attributes : Attributes
  /-- All complaints about the unit, in the order they were found. -/
  errors : List Diagnostic
deriving Repr

/-- What all units of an orchestra can refer to. -/
structure Surroundings where
  globals : VariableTable
  /-- The run-time parameters, if they are known. -/
  settings : Option Settings
  opcodes : List (Text × OpcodeKind)
deriving Repr

namespace Surroundings

def ofSections (s : Sections) (globals : VariableTable) (settings : Option Settings) :
    Surroundings :=
  ⟨globals, settings, s.opcodes.map fun o => (o.ident, o.kind)⟩

def context (s : Surroundings) (kind : Check.UnitKind) (label : UnitLabel) : Check.Context :=
  { kind, label, globals := some s.globals, settings := s.settings, opcodes := s.opcodes }

end Surroundings

namespace CheckedUnit

def ofCheck (label : UnitLabel) (check : Check.Checking Unit) : Except SetTwice CheckedUnit :=
  match check.run {} with
  | .ok _ s => .ok ⟨label, s.locals, s.attributes, s.errors⟩
  | .error .abandoned s => .ok ⟨label, s.locals, s.attributes, s.errors⟩
  | .error (.setTwice fault) _ => .error fault

def ofGlobal (block : GlobalBlock) : Except SetTwice CheckedUnit :=
  ofCheck .global (Check.globalItems { kind := .global, label := .global } [] 0 block.items)

def ofInstrument (s : Surroundings) (keyword : Keyword) (i : Instrument) :
    Except SetTwice CheckedUnit :=
  let label : UnitLabel := .named keyword i.ident
  let c := s.context .instrument label
  ofCheck label do
    Check.params c [0] 0 i.params
    Check.decls c [1] 0 i.decls
    let _ ← Check.stmts c [2] 0 i.body

def ofOpcode (s : Surroundings) (o : Opcode) : Except SetTwice CheckedUnit :=
  let label : UnitLabel := .named o.kind.keyword o.ident
  let c := s.context .opcode label
  ofCheck label do
    Check.opcodeParams c [0] 0 o.params
    Check.decls c [1] 0 o.decls
    let _ ← Check.stmts c [2] 0 o.body

def stmtRate (u : CheckedUnit) (i : Nat) : Rate := u.attributes.rate [i, 2]

end CheckedUnit

/-- An orchestra with all its units checked. -/
structure CheckedOrchestra where
  /-- The items of the orchestra, those that were dropped marked as such. -/
  claims : List Claim
  sections : Sections
  /-- The run-time parameters, or what is wrong with them. -/
  settings : Except (List Diagnostic) Settings
  global : CheckedUnit
  instruments : List CheckedUnit
  templates : List CheckedUnit
  opcodes : List CheckedUnit

namespace CheckedOrchestra

def ofTree (o : OrchestraTree) : Except SetTwice CheckedOrchestra := do
  let claims := o.claims
  let sections := Sections.ofClaims claims
  let settings := Settings.resolve sections.global
  let global ← CheckedUnit.ofGlobal sections.global
  let s := Surroundings.ofSections sections global.locals settings.toOption
  let instruments ← sections.instruments.mapM (CheckedUnit.ofInstrument s .instr)
  let templates ← sections.templates.mapM (CheckedUnit.ofInstrument s .template)
  let opcodes ← sections.opcodes.mapM (CheckedUnit.ofOpcode s)
  return { claims, sections, settings, global, instruments, templates, opcodes }

def units (o : CheckedOrchestra) : List CheckedUnit :=
  o.global :: (o.instruments ++ o.templates ++ o.opcodes)

def attributesOf (o : CheckedOrchestra) (label : UnitLabel) : Attributes :=
  ((o.units.find? fun u => u.label = label).map CheckedUnit.attributes).getD {}

def attributed (as : Attributes) (nodes : List (Path × Node)) : List (Node × Attribute) :=
  nodes.filterMap fun (p, n) => (as.find? p).map fun a => (n, a)

def annotate (o : CheckedOrchestra) (i : Nat) : List Claim → List (Node × Attribute)
  | [] => []
  | ⟨.global b, _⟩ :: claims =>
    attributed o.global.attributes (b.walk (fun _ => true) [] i)
      ++ annotate o (i + b.items.length) claims
  | ⟨_, some _⟩ :: claims => annotate o i claims
  | ⟨item, none⟩ :: claims =>
    match item.declared? with
    | some (keyword, name) =>
      attributed (o.attributesOf (.named keyword name)) (item.walk (fun _ => true) [])
        ++ annotate o i claims
    | none => annotate o i claims

def annotations (o : CheckedOrchestra) : List (Node × Attribute) := o.annotate 0 o.claims

def attributedCount (o : CheckedOrchestra) : Nat :=
  o.units.foldl (fun n u => n + u.attributes.size) 0

end CheckedOrchestra

end Orchestrion
