import Orchestrion.Performance.Voice

/-!
# The scheduler

Voices wait until the control clock reaches their start, play while it has not passed their end, and
are then retired. A control tick runs the init pass of the voices that have become active, the
control pass of all active voices, and then one audio pass of each for every audio sample, after
which the frame is emitted. A voice whose pass fails plays no further pass.

* `Scheduler.tick`: one control tick.
* `Scheduler.run`: the ticks up to the end.
-/

namespace Orchestrion

def Settings.samplesPerTick (s : Settings) : Int :=
  if s.krate ≤ 0 then 1 else s.srate.tdiv s.krate

/-- A performance at a tick. -/
structure Scheduler (ι σ : Type) (γ : Type := Store) where
  settings : Settings
  sink : σ
  /-- What all that is played shares: the values of the global variables, if nothing else is
  said. -/
  store : γ
  now : Tick := 0
  /-- The tick before which the performance ends. -/
  finish : Tick := Tick.unbounded
  /-- What is not due yet, in the order of arrival. -/
  pending : List ι := []
  /-- The voices that play, in the order they became active. -/
  active : List (Voice ι) := []
  failures : List PassError := []

namespace Scheduler

variable {ι σ γ : Type} [Playable ι γ] [Sink σ]

def host (s : Scheduler ι σ γ) : Host := ⟨s.settings, s.now⟩

def schedule (s : Scheduler ι σ γ) (player : ι) (life : Lifetime) : Scheduler ι σ γ :=
  { s with pending := s.pending ++ [Playable.withLifetime player life] }

def isDue (s : Scheduler ι σ γ) (player : ι) : Bool := (Playable.lifetime player).start ≤ s.now

def isAlive (s : Scheduler ι σ γ) (v : Voice ι) : Bool :=
  !v.failed && s.now ≤ (Playable.lifetime v.player).stop

def receive (s : Scheduler ι σ γ) (pass : Pass) (passed : Passed ι γ) :
    Option (Voice ι × Scheduler ι σ γ) :=
  let s := { s with store := passed.store, sink := passed.sounds.foldl Sink.add s.sink }
  match passed.ending with
  | .finished => some (⟨passed.after, false⟩, s)
  | .failed e =>
    some (⟨passed.after, true⟩, { s with failures := s.failures ++ [⟨pass, s.now, e⟩] })
  | .stuck => none

def playVoice (s : Scheduler ι σ γ) (pass : Pass) (v : Voice ι) :
    Option (Voice ι × Scheduler ι σ γ) :=
  if v.failed then some (v, s)
  else s.receive pass (Playable.pass v.player pass s.host s.store)

def playVoices (pass : Pass) : List (Voice ι) → Scheduler ι σ γ →
    Option (List (Voice ι) × Scheduler ι σ γ)
  | [], s => some ([], s)
  | v :: vs, s => do
    let (v, s) ← s.playVoice pass v
    let (vs, s) ← playVoices pass vs s
    return (v :: vs, s)

def due (s : Scheduler ι σ γ) : List (Voice ι) :=
  (s.pending.filter s.isDue).map fun player => ⟨player, false⟩

def withoutDue (s : Scheduler ι σ γ) : Scheduler ι σ γ :=
  { s with pending := s.pending.filter fun player => !s.isDue player }

def promote (s : Scheduler ι σ γ) : Option (Scheduler ι σ γ) := do
  let (promoted, s) ← playVoices .init s.due s.withoutDue
  return { s with active := s.active ++ promoted }

def retire (s : Scheduler ι σ γ) : Scheduler ι σ γ := { s with active := s.active.filter s.isAlive }

def playActive (pass : Pass) (s : Scheduler ι σ γ) : Option (Scheduler ι σ γ) := do
  let (active, s) ← playVoices pass s.active s
  return { s with active }

/-- How a tick ends. -/
inductive TickEnd where
  | done
  /-- The frame could not be emitted. -/
  | emitFailed (reason : Text)
  /-- A pass did not end. -/
  | stuck
deriving DecidableEq, Repr

def playFrame (s : Scheduler ι σ γ) : Scheduler ι σ γ × TickEnd :=
  match playActive .audio { s with sink := Sink.clear s.sink } with
  | none => (s, .stuck)
  | some s =>
    match Sink.emit s.sink with
    | (sink, some reason) => ({ s with sink }, .emitFailed reason)
    | (sink, none) => ({ s with sink }, .done)

def playFrames : Nat → Scheduler ι σ γ → Scheduler ι σ γ × TickEnd
  | 0, s => (s, .done)
  | n + 1, s =>
    match s.playFrame with
    | (s, .done) => playFrames n s
    | ended => ended

def tick (s : Scheduler ι σ γ) : Scheduler ι σ γ × TickEnd :=
  match s.promote.bind fun s => playActive .control s.retire with
  | none => (s, .stuck)
  | some s =>
    match playFrames s.settings.samplesPerTick.toNat s with
    | (s, .done) => ({ s with now := s.now + 1 }, .done)
    | ended => ended

/-- How a performance ends. -/
inductive RunEnd where
  | done
  | cancelled
  /-- A frame could not be emitted at the given tick. -/
  | emitFailed (tick : Tick) (reason : Text)
  /-- The sink could not be closed. -/
  | closeFailed (reason : Text)
  /-- A pass did not end. -/
  | stuck
deriving DecidableEq, Repr

def RunEnd.message? : RunEnd → Option Text
  | done => none
  | cancelled => some "context canceled"
  | emitFailed tick reason =>
    some ("emitting frame at tick " ++ Text.ofInt tick.toInt ++ ": " ++ reason)
  | closeFailed reason => some ("closing output: " ++ reason)
  | stuck => none

def play : Nat → Scheduler ι σ γ → Scheduler ι σ γ × RunEnd
  | 0, s => (s, .done)
  | n + 1, s =>
    if Sink.isCancelled s.sink then (s, .cancelled)
    else
      match s.tick with
      | (s, .done) => play n s
      | (s, .emitFailed reason) => (s, .emitFailed s.now reason)
      | (s, .stuck) => (s, .stuck)

def ticksLeft (s : Scheduler ι σ γ) : Nat := (s.finish.toInt - s.now.toInt).toNat

def close (ended : Scheduler ι σ γ × RunEnd) : Scheduler ι σ γ × RunEnd :=
  let (s, e) := ended
  let (sink, refused) := Sink.close s.sink
  let s := { s with sink }
  match e, refused with
  | .done, some reason => (s, .closeFailed reason)
  | e, _ => (s, e)

def run (s : Scheduler ι σ γ) : Scheduler ι σ γ × RunEnd := close (play s.ticksLeft s)

end Scheduler

end Orchestrion
