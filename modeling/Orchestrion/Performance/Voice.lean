import Orchestrion.Machine.Pass
import Orchestrion.Sound.Mixer

/-!
# Voices

What a scheduler needs to know of the instruments that it plays, and the voices that it plays them
in.
-/

namespace Orchestrion

/-- The passes of an instance in a performance. -/
inductive Pass where
  | init
  | control
  | audio
deriving DecidableEq, Repr

namespace Pass

def slot : Pass → Slot
  | init => .init
  | control => .control
  | audio => .audio

def name (p : Pass) : String := p.slot.name

end Pass

/-- What can be played: it has a lifetime, and its passes may change it, the global store or
whatever else it shares with others, and the frame. -/
class Playable (ι : Type) (γ : outParam Type) where
  lifetime : ι → Lifetime
  withLifetime : ι → Lifetime → ι
  pass : ι → Pass → Host → γ → Passed ι γ

instance : Playable Instance Store where
  lifetime i := i.lifetime
  withLifetime i l := { i with lifetime := l }
  pass i p h store := i.pass p.slot (some h) store

/-- A player and whether one of its passes has failed. -/
structure Voice (ι : Type) where
  player : ι
  failed : Bool := false
deriving Repr

/-- A pass that failed. -/
structure PassError where
  pass : Pass
  tick : Tick
  error : RuntimeError
deriving DecidableEq, Repr

def PassError.message (e : PassError) : Text :=
  e.pass.name ++ (" pass at tick " : Text) ++ Text.ofInt e.tick.toInt ++ ": " ++ e.error.message

end Orchestrion
