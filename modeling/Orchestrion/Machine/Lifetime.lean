import Orchestrion.Number.Binary
import Orchestrion.Settings

/-!
# Ticks and lifetimes

Time is counted in control ticks, which are signed words of 64 bits. The largest of them stands for
an end that never comes, and the arithmetic of ends stops there instead of wrapping around.
-/

namespace Orchestrion

abbrev Tick := Int64

def Tick.unbounded : Tick := Int64.maxValue

def Settings.ticks (s : Settings) (seconds : Float) : Tick :=
  Number.nearestWord (seconds * Float.ofInt s.krate)

/-- The ticks from the start of an instance to its end. -/
structure Lifetime where
  start : Tick := 0
  stop : Tick := 0
deriving DecidableEq, Repr, Inhabited

namespace Lifetime

def extend (l : Lifetime) (ticks : Tick) : Lifetime :=
  if l.stop = Tick.unbounded || ticks ≤ 0 then l
  else if Tick.unbounded - ticks < l.stop then { l with stop := Tick.unbounded }
  else { l with stop := l.stop + ticks }

def turnOff (l : Lifetime) (now : Tick) : Lifetime :=
  if now < l.stop then { l with stop := now } else l

end Lifetime

end Orchestrion
