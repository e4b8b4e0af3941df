import Orchestrion.Diagnostic

/-!
# Run-time parameters

The parameters that a global section sets, with defaults for the others. Each can be set once, and
the sampling rate is a multiple of the control rate.
-/

namespace Orchestrion

/-- The run-time parameters of an orchestra. -/
structure Settings where
  /-- Audio samples in a second. -/
  srate : Int := 44100
  /-- Control ticks in a second. -/
  krate : Int := 100
  /-- The number of channels that come in. -/
  inChannels : Int := 0
  /-- The number of channels that go out. -/
  outChannels : Int := 1
  /-- The grade of interpolation. -/
  interp : Int := 0
deriving DecidableEq, Repr, Inhabited

namespace Settings

/-- The number of samples in a control tick, if it can be computed. -/
def samplesPerControl? (s : Settings) : Option Int :=
  if s.krate = 0 then none else some (s.srate.tdiv s.krate)

/-- The parameters with one of them changed. -/
def set (s : Settings) (p : Parameter) (value : Int) : Settings :=
  match p with
  | .srate => { s with srate := value }
  | .krate => { s with krate := value }
  | .inchannels => { s with inChannels := value }
  | .outchannels => { s with outChannels := value }
  | .interp => { s with interp := value }

end Settings

/-- The rule that a value of the parameter breaks, if it breaks one. -/
def Parameter.broken? (p : Parameter) (value : Int) : Option SettingRule :=
  match p with
  | .srate | .krate => if value ≤ 0 then some .positive else none
  | .inchannels => if value < 0 then some .notNegative else none
  | .outchannels => if value < 1 then some .atLeastOne else none
  | .interp => if value ≠ 0 ∧ value ≠ 1 then some .zeroOrOne else none

namespace Settings

/-- What is known while settings are read. -/
structure Reading where
  /-- The parameters so far. -/
  settings : Settings := {}
  /-- The first setting of each parameter so far. -/
  seen : List Setting := []
  /-- The complaints so far. -/
  errors : List Diagnostic := []
deriving Repr

namespace Reading

/-- The first setting of a parameter so far. -/
def first? (r : Reading) (p : Parameter) : Option Setting :=
  r.seen.find? fun s => s.parameter = p

/-- Adds a complaint about a setting. -/
def complain (r : Reading) (s : Setting) (cause : Cause) : Reading :=
  { r with errors := r.errors ++ [Diagnostic.about (.setting s) .global cause] }

/-- Reads one setting. Only the first one of a parameter counts, and only if its value is right. -/
def read (r : Reading) (s : Setting) : Reading :=
  match r.first? s.parameter with
  | some _ => r.complain s (.duplicateSetting s.parameter)
  | none =>
    let r := { r with seen := r.seen ++ [s] }
    match s.parameter.broken? s.value with
    | some rule => r.complain s (.badSetting s.parameter s.value rule)
    | none => { r with settings := r.settings.set s.parameter s.value }

/-- Where to complain about rates that do not go together. -/
def rateNode (r : Reading) (block : GlobalBlock) : Node :=
  match r.first? .krate, r.first? .srate with
  | some s, _ => .setting s
  | none, some s => .setting s
  | none, none => .global block

/-- What is wrong with the rates as a pair, if anything is. -/
def rateFault? (s : Settings) : Option Cause :=
  if s.srate < s.krate then some (.controlAboveSampling s.krate s.srate)
  else if s.srate.tmod s.krate ≠ 0 then some (.notMultiple s.srate s.krate)
  else none

end Reading

/-- The settings among the items of a global section. -/
def settingsOf (items : List GlobalItem) : List Setting :=
  items.filterMap fun
    | .setting s => some s
    | .decl _ => none

/-- The parameters that a global section gives, or all complaints about its settings. -/
def resolve (block : GlobalBlock) : Except (List Diagnostic) Settings :=
  let reading : Reading := (settingsOf block.items).foldl Reading.read {}
  match reading.errors with
  | [] =>
    match Reading.rateFault? reading.settings with
    | some cause => .error [Diagnostic.about (reading.rateNode block) .global cause]
    | none => .ok reading.settings
  | errors => .error errors

end Settings

/-- The number of elements of a width, once the channels are known. -/
def Width.resolve (s : Settings) : Width → Int
  | fixed n => n
  | inChannels => s.inChannels
  | outChannels => s.outChannels

end Orchestrion
