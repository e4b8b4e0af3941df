import Orchestrion.Machine.Lifetime
import Orchestrion.Number.Power

/-!
# Values of core opcodes and standard names

Core opcodes compute in double precision and round once, at the end, to single precision. Those that
only choose or cut, such as `min` or `floor`, need no more than single precision.
-/

namespace Orchestrion

open Number

namespace Number

def logTwo (x : Float) : Float :=
  let bits := x.toBits
  let biased := (bits >>> 52) &&& 0x7ff
  if biased = 0 || biased = 0x7ff then Float.log x * 1.442695040888963407359924681001892137
  else
    let fraction : UInt64 := bits &&& 0x800fffffffffffff
    let scaled := Float.ofBits (fraction ||| ((1022 : UInt64) <<< 52))
    let exponent := (biased.toNat : Int) - 1022
    if scaled == 0.5 then Float.ofInt (exponent - 1)
    else Float.log scaled * 1.442695040888963407359924681001892137 + Float.ofInt exponent

def logTen (x : Float) : Float := logTwo x * 0.301029995663981195213738894724493027

end Number

namespace Builtin

def least (first : Float32) (others : List Float32) : Float32 :=
  others.foldl (fun m v => if v < m then v else m) first

def greatest (first : Float32) (others : List Float32) : Float32 :=
  others.foldl (fun m v => if m < v then v else m) first

def sign (x : Float32) : Float32 := if 0 < x then 1 else if x < 0 then -1 else 0

def rounded (f : Float → Float) (x : Float32) : Float32 := narrow (f (widen x))

def value? (b : Builtin) : List Float32 → Option Float32
  | [] => none
  | x :: xs =>
    match b with
    | abs => some x.abs
    | sgn => some (sign x)
    | int => some (truncate x)
    | frac => some (fraction x)
    | floor => some (Number.floor x)
    | ceil => some (ceiling x)
    | exp => some (rounded Float.exp x)
    | log => some (rounded Float.log x)
    | log10 => some (rounded logTen x)
    | sqrt => some (rounded Float.sqrt x)
    | sin => some (rounded Float.sin x)
    | cos => some (rounded Float.cos x)
    | atan => some (rounded Float.atan x)
    | dbamp => some (rounded (fun x => power 10 ((x - 90) / 20)) x)
    | ampdb => some (rounded (fun x => 90 + 20 * logTen x) x)
    | pow => xs.head?.map fun y => rounded (fun x => power x (widen y)) x
    | min => some (least x xs)
    | max => some (greatest x xs)

end Builtin

/-- The performance as an instance sees it. -/
structure Host where
  settings : Settings
  /-- The present control tick. -/
  now : Tick
deriving DecidableEq, Repr

namespace Host

def seconds (h : Host) (ticks : Tick) : Float32 :=
  singleOfWord ticks / Float32.ofInt h.settings.krate

def standard (h : Host) (l : Lifetime) : StandardName → Float32
  | .sampleRate => Float32.ofInt h.settings.srate
  | .controlRate => Float32.ofInt h.settings.krate
  | .time => h.seconds h.now
  | .duration => if l.stop = Tick.unbounded then -1 else h.seconds (l.stop - l.start)
  | .elapsed => h.seconds (h.now - l.start)
  | .inChannels => Float32.ofInt h.settings.inChannels
  | .outChannels => Float32.ofInt h.settings.outChannels

end Host

end Orchestrion
