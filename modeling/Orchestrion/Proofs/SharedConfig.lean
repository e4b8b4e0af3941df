import Orchestrion.Performance.Play
import Orchestrion.Proofs.Compile
import Orchestrion.Sound.Buffer

/-!
# Plays that share a configuration

Playing a score completes the configuration: what is not set is filled in from the orchestra, in the
configuration itself. Whoever plays several scores with one configuration therefore plays all of
them at the rates that the first play has left there, even by orchestras with other rates.
-/

namespace Orchestrion

/-! ### Completed configurations -/

namespace PlayConfig

end PlayConfig

/-! ### Plays in turn -/

/-- What is to be played: a score, by an orchestra, into a sink. -/
structure Recital (σ : Type) where
  orchestra : Orchestra
  score : Feeder.Source
  sink : σ

variable {σ : Type} [Sink σ]

def Recital.play (c : PlayConfig) (r : Recital σ) : Played σ := r.orchestra.play c r.score r.sink

end Orchestrion
