/-!
# Sounds

What an instrument adds to the frame of audio that is being mixed.
-/

namespace Orchestrion

/-- What is added to a frame. -/
inductive Sound where
  /-- The same value for every channel. -/
  | all (v : Float32)
  /-- One value for each channel. -/
  | frame (vs : List Float32)
deriving DecidableEq, Repr

end Orchestrion
