import Orchestrion.Compile
import Orchestrion.Performance.Feeder

/-!
# Playing scores

A score is read as a whole and then performed by the instruments of an orchestra. Whatever happens,
the sink is closed once.
-/

namespace Orchestrion

/-- What can be set for a performance. -/
structure PlayConfig where
  /-- Audio samples in a second; that of the orchestra if not positive. -/
  srate : Int := 0
  /-- Control ticks in a second; that of the orchestra if not positive. -/
  krate : Int := 0
  /-- The name of the score in messages; `score` if empty. -/
  scoreName : Text := []
deriving DecidableEq, Repr

def PlayConfig.withDefaults (c : PlayConfig) (s : Settings) : PlayConfig :=
  { srate := if c.srate ≤ 0 then s.srate else c.srate
    krate := if c.krate ≤ 0 then s.krate else c.krate
    scoreName := if c.scoreName.isEmpty then "score" else c.scoreName }

/-- Why nothing can be played with a configuration. -/
inductive ConfigError where
  | controlAboveSampling (krate srate : Int)
  | notMultiple (srate krate : Int)
  | width (sink : Nat) (orchestra : Int)
deriving DecidableEq, Repr

def ConfigError.message : ConfigError → Text
  | controlAboveSampling krate srate => Cause.message (.controlAboveSampling krate srate)
  | notMultiple srate krate => Cause.message (.notMultiple srate krate)
  | width sink orchestra => Cause.message (.outputWidth sink orchestra)

def PlayConfig.fault? (c : PlayConfig) (s : Settings) (width : Nat) : Option ConfigError :=
  if c.srate < c.krate then some (.controlAboveSampling c.krate c.srate)
  else if c.srate.tmod c.krate ≠ 0 then some (.notMultiple c.srate c.krate)
  else if (width : Int) ≠ s.outChannels then some (.width width s.outChannels)
  else none

/-- A dropped line as it is reported. -/
inductive ScoreComplaint where
  | parse (e : ParseError)
  | misuse (e : MisuseError)

namespace ScoreComplaint

def ofFeedError : FeedError → ScoreComplaint
  | .score e => .parse ⟨e.line, 0, e.fault.message e.file⟩
  | .misuse e => .misuse e

def message : ScoreComplaint → Text
  | parse e => e.message
  | misuse e => e.message

end ScoreComplaint

def runtimeMessage (e : PassError) : Text := "runtime error: " ++ e.message

/-- How playing a score ends. -/
inductive PlayEnd where
  | run (e : Scheduler.RunEnd)
  | badConfig (e : ConfigError)
  | feedStopped (reason : Feeder.Stop)
  /-- Neither the score nor any of its instruments has an end. -/
  | noEnd
deriving DecidableEq, Repr

namespace PlayEnd

def isStuck : PlayEnd → Bool
  | run .stuck | feedStopped .stuck => true
  | _ => false

def message? : PlayEnd → Option Text
  | run e => e.message?
  | badConfig e => some e.message
  | feedStopped reason => reason.message?
  | noEnd => some "score has no end"

end PlayEnd

/-- What playing a score leaves behind. -/
structure Played (σ : Type) where
  ending : PlayEnd
  /-- The configuration with all defaults. -/
  config : PlayConfig
  sink : σ
  /-- The lines that were dropped. -/
  scoreErrors : List ScoreComplaint := []
  /-- The passes that failed. -/
  failures : List PassError := []

namespace Orchestra

variable {σ : Type} [Sink σ]

def scheduler (o : Orchestra) (c : PlayConfig) (sink : σ) : Scheduler Instance σ :=
  { settings := { o.settings with srate := c.srate, krate := c.krate }
    sink
    store := Array.replicate o.store.size 0 }

def perform (o : Orchestra) (c : PlayConfig) (score : Feeder.Source) (sink : σ) : Played σ :=
  let feeder : Feeder := { file := c.scoreName }
  let ((feeder, s), stopped) := Feeder.feed o.repertoire (feeder, o.scheduler c sink) score
  let scoreErrors := feeder.errors.map .ofFeedError
  let give (ending : PlayEnd) (s : Scheduler Instance σ) : Played σ :=
    ⟨ending, c, s.sink, scoreErrors, s.failures⟩
  let abandon (ending : PlayEnd) : Played σ := give ending { s with sink := (Sink.close s.sink).1 }
  match stopped with
  | some reason => abandon (.feedStopped reason)
  | none =>
    if s.finish = Tick.unbounded then abandon .noEnd
    else
      let (s, e) := s.run
      give (.run e) s

def play (o : Orchestra) (c : PlayConfig) (score : Feeder.Source) (sink : σ) : Played σ :=
  let c := c.withDefaults o.settings
  match c.fault? o.settings (Sink.width sink) with
  | some e => { ending := .badConfig e, config := c, sink := (Sink.close sink).1 }
  | none => o.perform c score sink

end Orchestra

end Orchestrion
