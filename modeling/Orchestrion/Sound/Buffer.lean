import Orchestrion.Sound.Mixer

/-!
# Buffers

A sink that keeps all frames.
-/

namespace Orchestrion

/-- All samples that were emitted, and the frame that is mixed. -/
structure Buffer where
  mixer : Mixer
  samples : Array Float32 := #[]
  closed : Bool := false
deriving Repr

namespace Buffer

def ofChannels (channels : Int) : Buffer := { mixer := .ofChannels channels }

def ofChannels? (channels : Int) : Option Buffer :=
  if Mixer.hasRoom channels then some (ofChannels channels) else none

def width (b : Buffer) : Nat := b.mixer.width

def frames (b : Buffer) : Nat := b.samples.size / b.width

def clear (b : Buffer) : Buffer := { b with mixer := b.mixer.clear }

def add (b : Buffer) (sound : Sound) : Buffer := { b with mixer := b.mixer.add sound }

def emit (b : Buffer) : Buffer := { b with samples := b.samples ++ b.mixer.frame }

def close (b : Buffer) : Buffer := { b with closed := true }

instance : Sink Buffer where
  width := width
  clear := clear
  add := add
  emit b := (b.emit, none)
  close b := (b.close, none)
  isCancelled _ := false

end Buffer

end Orchestrion
