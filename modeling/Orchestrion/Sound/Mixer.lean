import Orchestrion.Number.Room
import Orchestrion.Sound
import Orchestrion.Text

/-!
# Mixing

A frame of audio holds one sample for each channel. Sounds are added to it one after the other, and
the finished frame is emitted into a sink.
-/

namespace Orchestrion

/-- The frame that is being mixed. -/
structure Mixer where
  /-- The samples of the frame, one for each channel. -/
  frame : List Float32
deriving Repr

namespace Mixer

def ofChannels (channels : Int) : Mixer := ⟨List.replicate (max 1 channels).toNat 0⟩

def hasRoom (channels : Int) : Bool := Number.hasSingleRoom (max 1 channels)

def width (m : Mixer) : Nat := m.frame.length

def clear (m : Mixer) : Mixer := ⟨m.frame.map fun _ => 0⟩

def addEach : List Float32 → List Float32 → List Float32
  | x :: xs, v :: vs => (x + v) :: addEach xs vs
  | xs, _ => xs

def add (m : Mixer) : Sound → Mixer
  | .all v => ⟨m.frame.map fun x => x + v⟩
  | .frame vs => ⟨addEach m.frame vs⟩

end Mixer

/-- What takes the frames of a performance. -/
class Sink (σ : Type) where
  /-- The number of channels. -/
  width : σ → Nat
  /-- Makes the frame silent. -/
  clear : σ → σ
  add : σ → Sound → σ
  /-- Takes the frame, or tells why it cannot. -/
  emit : σ → σ × Option Text
  /-- Ends everything, or tells why it cannot. -/
  close : σ → σ × Option Text
  /-- Whether the listener wants the performance to stop. -/
  isCancelled : σ → Bool

end Orchestrion
