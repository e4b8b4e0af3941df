import Orchestrion.Performance.Scheduler
import Orchestrion.Score.Command

/-!
# Feeding scores

A feeder reads the lines of a score and schedules what they ask for. Lines that cannot be carried
out are reported and dropped. If no line ends the performance, it ends one tick after the last
instrument that has an end.
-/

namespace Orchestrion

/-- An instrument that a line of a score cannot have. -/
structure MisuseError where
  line : Nat
  /-- The name of the instrument. -/
  ident : Text
  error : InstanceError
deriving DecidableEq, Repr

def MisuseError.message (e : MisuseError) : Text :=
  "score line " ++ Text.ofNat e.line ++ ": " ++ e.ident ++ ": " ++ e.error.message

/-- Why a line of a score is dropped. -/
inductive FeedError where
  | score (e : ScoreError)
  | misuse (e : MisuseError)
deriving DecidableEq, Repr

/-- What is known of a score as it is read. -/
structure Feeder where
  /-- The name of the score. -/
  file : Text := []
  /-- The last tick of the instruments that have an end, if there are any. -/
  latest : Option Tick := none
  sawEnd : Bool := false
  /-- The lines that were dropped. -/
  errors : List FeedError := []
deriving Repr

namespace Feeder

def maxLine : Nat := 65536

def lines (text : Text) : List Text :=
  let parts := text.splitOn 10
  if parts.getLast? = some [] then parts.dropLast else parts

def trimLine (line : Text) : Text := if line.getLast? = some 13 then line.dropLast else line

/-- The text of a score and what prevents reading on behind it. -/
structure Source where
  text : Text
  fault : Option Text := none
deriving DecidableEq, Repr

/-- Why a score is not read to its end. -/
inductive Stop where
  | cancelled
  | lineTooLong
  /-- The score cannot be read any further. -/
  | unreadable (reason : Text)
  /-- Making an instance crashed or did not end. -/
  | stuck
deriving DecidableEq, Repr

def Stop.message? : Stop → Option Text
  | cancelled => some "context canceled"
  | lineTooLong => some "reading score: bufio.Scanner: token too long"
  | unreadable reason => some ("reading score: " ++ reason)
  | stuck => none

def later (latest : Option Tick) (t : Tick) : Tick :=
  match latest with
  | none => t
  | some l => if l < t then t else l

variable {σ : Type}

abbrev Feeding (σ : Type) := Feeder × Scheduler Instance σ

def scheduleAt (f : Feeding σ) (i : Instance) (time duration : Float) : Feeding σ :=
  let (feeder, s) := f
  let start := s.settings.ticks time
  if duration < 0 then (feeder, s.schedule i ⟨start, Tick.unbounded⟩)
  else
    let stop := s.settings.ticks (time + duration)
    ({ feeder with latest := some (later feeder.latest stop) }, s.schedule i ⟨start, stop⟩)

def apply (r : Repertoire) (line : Nat) (f : Feeding σ) (c : Command) : Option (Feeding σ) :=
  let (feeder, s) := f
  match c.kind with
  | .finish => some ({ feeder with sawEnd := true }, { s with finish := s.settings.ticks c.time })
  | .play name duration params =>
    match r.instantiate name with
    | .refused e =>
      some ({ feeder with errors := feeder.errors ++ [.misuse ⟨line, name, e⟩] }, s)
    | .stuck => none
    | .made i => do
      let i ← i.withParams? (params.map Number.narrow)
      return scheduleAt f i c.time duration

def readLine (r : Repertoire) (number : Nat) (f : Feeding σ) (line : Text) :
    Option (Feeding σ) :=
  let (feeder, s) := f
  match Command.parse feeder.file number (trimLine line) with
  | .error e => some ({ feeder with errors := feeder.errors ++ [.score e] }, s)
  | .ok none => some f
  | .ok (some c) => apply r number f c

def readLines [Sink σ] (r : Repertoire) (n : Nat) (f : Feeding σ) :
    List Text → Feeding σ × Option Stop
  | [] => (f, none)
  | line :: rest =>
    if maxLine ≤ line.length then (f, some .lineTooLong)
    else if Sink.isCancelled f.2.sink then (f, some .cancelled)
    else
      match readLine r n f line with
      | none => (f, some .stuck)
      | some f => readLines r (n + 1) f rest

def settleEnd (f : Feeding σ) : Feeding σ :=
  let (feeder, s) := f
  match feeder.sawEnd, feeder.latest with
  | false, some latest => (feeder, { s with finish := latest + 1 })
  | _, _ => f

def feed [Sink σ] (r : Repertoire) (f : Feeding σ) (score : Source) : Feeding σ × Option Stop :=
  match readLines r 1 f (lines score.text), score.fault with
  | (f, none), none => (settleEnd f, none)
  | (f, none), some reason => (f, some (.unreadable reason))
  | stopped, _ => stopped

end Feeder

end Orchestrion
