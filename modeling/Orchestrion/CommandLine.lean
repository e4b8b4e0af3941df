import Orchestrion.Files
import Orchestrion.Performance.Play
import Orchestrion.Sound.Wave

/-!
# The command line

What the program does with its arguments. Files are seen through an `Environment`, so that all of it
is a function of the arguments and of what the files hold.

* `CommandLine.Options.parse`: the options and the names of files among the arguments.
* `CommandLine.run`: what is printed and written, and the exit status.
-/

namespace Orchestrion.CommandLine

def shortUsage : Text :=
  "usage: usaol [-o out.wav] [-bits N] [-srate N] [-krate N] [-realtime] orchestra [score]"

def longUsage : Text := Text.join "\n" ([
  "Arguments:",
  "  orchestra         orchestra source file",
  "  score             score file (default: standard input, or \"-\")",
  "",
  "Output:",
  "  -o file           render into a WAV file instead of the audio device",
  "  -bits N           WAV sample size: 16, 24 or 32 (default 16)",
  "  -buffer N         device buffer size in frames (default 512)",
  "",
  "Playback:",
  "  -srate N          override the orchestra sampling rate",
  "  -krate N          override the orchestra control rate",
  "  -realtime         feed the score while playing (default for the device)",
  "",
  "Debugging arguments:",
  "  -d                print the parsed orchestra to stderr and exit",
  "  -da [pattern]     print unit assembly to stderr and exit; pattern",
  "                    selects instruments by regular expression",
  "",
  "Other:",
  "  -h, --help        show this help message",
  "  -version          show usaol version and exit",
  ""].map Text.ofString)

def version : Text := "usaol dev (commit: none, built: unknown)\n"

def noDevice : Text := "device output not available: build with -tags portaudio"

/-- The options with a number. -/
inductive NumberOption where
  | bits
  | buffer
  | srate
  | krate
deriving DecidableEq, Repr

namespace NumberOption

def spelling : NumberOption → Text
  | bits => "-bits"
  | buffer => "-buffer"
  | srate => "-srate"
  | krate => "-krate"

def ofText? (arg : Text) : Option NumberOption :=
  [bits, buffer, srate, krate].find? fun o => arg = o.spelling

end NumberOption

def positive? (arg : Text) : Option Int := do
  let digits := match arg with
    | b :: rest => if Text.isSymbol '+' b then rest else arg
    | [] => []
  let n ← Number.natural? digits
  if 0 < n && n < Nat.pow 2 63 then some n else none

/-- What the options set. -/
structure Options where
  /-- The wave file to write; none if empty. -/
  output : Text := []
  bits : Int := 16
  /-- Audio samples in a second; that of the orchestra if zero. -/
  srate : Int := 0
  /-- Control ticks in a second; that of the orchestra if zero. -/
  krate : Int := 0
  /-- Whether the orchestra is printed. -/
  showTree : Bool := false
  /-- Whether the code of instruments is printed. -/
  showCode : Bool := false
  /-- Which instruments are printed; all if empty. -/
  pattern : Text := []
deriving DecidableEq, Repr

/-- What the arguments ask for. -/
inductive Request where
  | work (o : Options) (files : List Text)
  | help
  | version
  /-- The arguments make no sense. -/
  | refused (reason : Text)
deriving DecidableEq, Repr

namespace Options

def set (o : Options) (option : NumberOption) (n : Int) : Options :=
  match option with
  | .bits => { o with bits := n }
  | .buffer => o
  | .srate => { o with srate := n }
  | .krate => { o with krate := n }

def isOption (arg : Text) : Bool := arg.startsWith "-" && arg ≠ ("-" : Text)

def step (o : Options) (arg : Text) (rest : List Text) : Except Request (Options × Nat) :=
  if arg = ("--" : Text) then .error (.work o rest)
  else if !isOption arg then .error (.work o (arg :: rest))
  else if arg = ("-o" : Text) then
    match rest with
    | [] => .error (.refused "flag needs an argument: -o")
    | path :: _ => .ok ({ o with output := path }, 1)
  else if arg = ("-realtime" : Text) then .ok (o, 0)
  else if arg = ("-d" : Text) then .ok ({ o with showTree := true }, 0)
  else if arg = ("-da" : Text) then
    match rest with
    | pattern :: _ :: _ =>
      if pattern.startsWith "-" then .ok ({ o with showCode := true }, 0)
      else .ok ({ o with showCode := true, pattern }, 1)
    | _ => .ok ({ o with showCode := true }, 0)
  else if arg = ("-h" : Text) || arg = ("--help" : Text) then .error .help
  else if arg = ("-version" : Text) || arg = ("--version" : Text) then .error .version
  else
    match NumberOption.ofText? arg, rest with
    | some _, [] => .error (.refused ("flag needs an argument: " ++ arg))
    | some option, value :: _ =>
      match positive? value with
      | some n => .ok (o.set option n, 1)
      | none => .error (.refused ("invalid value for " ++ arg ++ ": " ++ value))
    | none, _ =>
      if arg.startsWith "-o" then .ok ({ o with output := arg.drop 2 }, 0)
      else .error (.refused ("flag provided but not defined: " ++ arg))

def parse (o : Options) : List Text → Request
  | [] => .work o []
  | arg :: rest =>
    match o.step arg rest with
    | .error request => request
    | .ok (o, taken) => parse o (rest.drop taken)
termination_by args => args.length
decreasing_by simp only [List.length_drop, List.length_cons]; omega

end Options

namespace Request

def files : Request → List Text
  | work _ files => files.take 2
  | _ => []

def output : Request → Text
  | work o _ => o.output
  | _ => []

def readsInput : Request → Bool
  | work o files =>
    !o.showTree && !o.showCode && !o.output.isEmpty && match files with
      | [_] => true
      | [_, score] => score = ("-" : Text)
      | _ => false
  | _ => false

end Request

/-- The files around a run. -/
structure Environment where
  /-- What a file holds, or why it cannot be opened; inside, why it cannot be read. -/
  read : Text → Except FileError (Except FileError Text)
  /-- Why a file cannot be created, if it cannot. -/
  refusal? : Text → Option FileError
  /-- Whether the file that is read is the one that is created. -/
  isSame : Text → Text → Bool
  /-- What comes from standard input. -/
  input : Text

def Environment.ofTree (t : FileTree) (input : Text) : Environment :=
  { read := t.read
    refusal? := fun path => match t.create path with
      | .ok _ => none
      | .error e => some e
    isSame := t.isSame
    input }

def openComplaint (path : Text) (e : FileError) : Text := "open " ++ path ++ ": " ++ e.message

def readComplaint (path : Text) (e : FileError) : Text := "read " ++ path ++ ": " ++ e.message

/-- What a run leaves behind. -/
structure Outcome where
  status : Nat := 0
  stdout : Text := []
  stderr : Text := []
  file : Option (Text × Array UInt8) := none
deriving Repr

namespace Outcome

def line (message : Text) : Text := "usaol: " ++ message ++ "\n"

def failure (message : Text) : Outcome := { status := 1, stderr := line message }

end Outcome

def refusalOutcome (path : Text) : Refusal → Outcome
  | .syntaxFault e => .failure e.message
  | .errors es =>
    { status := 1, stderr := es.flatMap fun e => Outcome.line (path ++ ": " ++ e.message) }
  | .brokenOff b => { status := 2, stderr := b.message?.getD [] }

def treeOutcome (source : Text) : Outcome :=
  match formatText source with
  | .ok text => { stderr := text }
  | .error e => .failure e.message

def codeOutcome (o : Orchestra) (pattern : Text) : Outcome :=
  let names := if pattern.isEmpty then .ok o.repertoire.names else o.repertoire.search pattern
  match names with
  | .error e => .failure e.message
  | .ok names =>
    match o.repertoire.listing? names with
    | some listing => { stderr := listing }
    | none => { status := 2 }

def playedText (p : Played Wave) : Text :=
  (p.scoreErrors.map ScoreComplaint.message ++ p.failures.map runtimeMessage
    ++ p.ending.message?.toList).flatMap Outcome.line

def playOutcome (options : Options) (o : Orchestra) (scoreName : Text) (score : Feeder.Source)
    (depth : BitDepth) : Outcome :=
  let rate := if 0 < options.srate then options.srate else o.settings.srate
  let config : PlayConfig := { srate := options.srate, krate := options.krate, scoreName }
  match Wave.ofChannels? rate o.settings.outChannels depth with
  | none => { status := 2, file := some (options.output, #[]) }
  | some wave =>
    let p := o.play config score wave
    { status := if p.ending.isStuck then 2 else if p.ending.message?.isSome then 1 else 0
      stderr := playedText p
      file := some (options.output, p.sink.file) }

def renderOutcome (env : Environment) (options : Options) (o : Orchestra) (scoreName : Text)
    (score : Feeder.Source) : Outcome :=
  if options.output.isEmpty then .failure noDevice
  else
    match env.refusal? options.output with
    | some e => .failure ("creating output: " ++ openComplaint options.output e)
    | none =>
      match BitDepth.ofBits? options.bits with
      | none =>
        { Outcome.failure (badBitDepth options.bits) with file := some (options.output, #[]) }
      | some depth => playOutcome options o scoreName score depth

def scoreSource (env : Environment) (options : Options) (path : Text) :
    Except FileError Text → Feeder.Source
  | .error e => ⟨[], some (readComplaint path e)⟩
  | .ok text => ⟨if env.isSame path options.output then [] else text, none⟩

def workOutcome (env : Environment) (options : Options) (orchestra : Text) (score : Option Text) :
    Outcome :=
  let unread (complaint : Text) : Outcome :=
    .failure ("cannot read orchestra file " ++ orchestra ++ ": " ++ complaint)
  match env.read orchestra with
  | .error e => unread (openComplaint orchestra e)
  | .ok (.error e) => unread (readComplaint orchestra e)
  | .ok (.ok source) =>
    if options.showTree then treeOutcome source
    else
      match Orchestra.compile source with
      | .error r => refusalOutcome orchestra r
      | .ok o =>
        if options.showCode then codeOutcome o options.pattern
        else
          match score.filter (· ≠ ("-" : Text)) with
          | none => renderOutcome env options o "<stdin>" ⟨env.input, none⟩
          | some path =>
            match env.read path with
            | .error e =>
              .failure ("cannot open score file " ++ path ++ ": " ++ openComplaint path e)
            | .ok content =>
              renderOutcome env options o path (scoreSource env options path content)

def run (env : Environment) (args : List Text) : Outcome :=
  match Options.parse {} args with
  | .help => { stdout := shortUsage ++ "\n\n" ++ longUsage }
  | .version => { stdout := version }
  | .refused reason => .failure reason
  | .work options [orchestra] => workOutcome env options orchestra none
  | .work options [orchestra, score] => workOutcome env options orchestra (some score)
  | .work _ _ => .failure shortUsage

end Orchestrion.CommandLine
