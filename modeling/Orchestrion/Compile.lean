import Orchestrion.Code.Generate
import Orchestrion.Format
import Orchestrion.Repertoire

/-!
# Compiling orchestras

All instruments of an orchestra are checked and turned into code one by one, so that the complaints
about all of them are told together. Every instrument depends on the global section: if something is
wrong there, nothing else is looked at.
-/

namespace Orchestrion

/-- Why compiling breaks off. -/
inductive Breakdown where
  /-- A node got the same attribute twice. -/
  | setTwice (fault : SetTwice)
  /-- An operand does not fit into a word of code. -/
  | overflow (value : Int)
  /-- Code was asked for although a call or a table lacks its first argument. -/
  | missingArgument
deriving DecidableEq, Repr

def Breakdown.message? : Breakdown → Option Text
  | setTwice fault => some fault.message
  | overflow value => some (overflowMessage value)
  | missingArgument => none

/-- A complaint about an orchestra. -/
inductive CompileError where
  | diagnostic (d : Diagnostic)
  | unsupported (u : Unsupported)
  | taken (name : Text)
deriving DecidableEq, Repr

namespace CompileError

def place : CompileError → Position
  | diagnostic d => d.place
  | unsupported u => u.place
  | taken _ => {}

def unit : CompileError → Text
  | diagnostic d => d.unit.text
  | unsupported u => u.unit
  | taken _ => []

def detail : CompileError → Text
  | diagnostic d => d.cause.message
  | unsupported u => u.description
  | taken name => Repertoire.takenMessage name

def heading : CompileError → Text
  | diagnostic _ | taken _ => "compile error"
  | unsupported _ => "unsupported"

def message (e : CompileError) : Text :=
  e.heading ++ " at " ++ e.place.text ++ ": " ++ e.unit ++ ": " ++ e.detail

def report (es : List CompileError) : Text :=
  match es with
  | [] => "no errors"
  | es => Text.join "\n" (es.map message)

end CompileError

/-- A checked unit and its code, if code was asked for. -/
structure Build where
  checked : CheckedUnit
  code : Option (Except Unsupported CompiledUnit)
deriving Repr

namespace Build

def of (l : Linkage) (force : Bool) (u : CheckedUnit) (i : Instrument) : Except Breakdown Build :=
  if u.errors.isEmpty || force then
    match i.generate l u with
    | .ok code => .ok ⟨u, some (.ok code)⟩
    | .error (.unsupported reason) => .ok ⟨u, some (.error reason)⟩
    | .error (.overflow value) => .error (.overflow value)
    | .error .missingArgument => .error .missingArgument
  else .ok ⟨u, none⟩

def errors (b : Build) : List CompileError :=
  b.checked.errors.map .diagnostic ++ match b.code with
    | some (.error reason) => [.unsupported reason]
    | _ => []

end Build

/-- All that compiling an orchestra gives. -/
structure Compilation where
  checked : CheckedOrchestra
  settings : Settings
  linkage : Linkage
  /-- What became of the instruments and then of the templates. -/
  builds : List Build
  repertoire : Repertoire
  /-- The names of instruments that were taken. -/
  taken : List Text

namespace Compilation

def register (r : Repertoire) : List Build → Repertoire × List Text
  | [] => (r, [])
  | ⟨_, some (.ok u)⟩ :: builds =>
    match r.register? u with
    | some r => register r builds
    | none =>
      let (r, taken) := register r builds
      (r, u.ident :: taken)
  | _ :: builds => register r builds

def groundErrors (o : CheckedOrchestra) : List (List Diagnostic) :=
  let settings := match o.settings with
    | .ok _ => []
    | .error ds => ds
  [o.sections.errors, settings, o.global.errors]

def build (o : CheckedOrchestra) (force : Bool) (settings : Settings) :
    Except Breakdown Compilation := do
  let linkage := Linkage.of settings o.global.locals
  let units := o.instruments.zip o.sections.instruments ++ o.templates.zip o.sections.templates
  let builds ← units.mapM fun (u, i) => Build.of linkage force u i
  let (repertoire, taken) := register {} builds
  return { checked := o, settings, linkage, builds, repertoire, taken }

def ofTree (o : OrchestraTree) (force : Bool) :
    Except Breakdown (Except (List (List Diagnostic)) Compilation) := do
  let checked ← match CheckedOrchestra.ofTree o with
    | .ok checked => pure checked
    | .error fault => throw (.setTwice fault)
  match checked.settings, (groundErrors checked).all List.isEmpty with
  | .ok settings, true => return .ok (← build checked force settings)
  | _, _ => return .error (groundErrors checked)

def errors (c : Compilation) : List CompileError :=
  c.builds.flatMap Build.errors ++ c.taken.map .taken
    ++ c.checked.opcodes.flatMap fun u => u.errors.map .diagnostic

end Compilation

/-- A compiled orchestra. -/
structure Orchestra where
  repertoire : Repertoire
  settings : Settings
  /-- The variables of the global store. -/
  store : StoreLayout
  source : Text
deriving Repr

/-- Why there is no orchestra. -/
inductive Refusal where
  | syntaxFault (e : ParseError)
  | errors (es : List CompileError)
  | brokenOff (b : Breakdown)

namespace Orchestra

def compile (source : Text) : Except Refusal Orchestra := do
  let tree ← match OrchestraTree.parse source with
    | .ok tree => pure tree
    | .error e => throw (.syntaxFault (.ofSyntax e))
  match Compilation.ofTree tree false with
  | .error b => throw (.brokenOff b)
  | .ok (.error complaints) => throw (.errors (complaints.flatten.map .diagnostic))
  | .ok (.ok c) =>
    if c.errors.isEmpty then
      return ⟨c.repertoire, c.settings, c.linkage.store, source⟩
    else throw (.errors c.errors)

end Orchestra

end Orchestrion
