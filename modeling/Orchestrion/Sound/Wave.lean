import Orchestrion.Number.Binary
import Orchestrion.Sound.Mixer

/-!
# Wave files

A sink that turns its frames into whole numbers for an encoder. Samples are queued and handed over
in blocks of 4096 frames. The encoder may be any; the one that is used writes a wave file, whose
header has two lengths that are only known at the end, when they are written again.

* `BitDepth.sample`: a sample as a whole number.
* `SampleEncoder`: what takes blocks of samples.
* `WaveSink`: the sink, which queues samples for an encoder.
* `WaveEncoder`: the file and what is known about it.
* `Wave`: the sink with such a file.
-/

namespace Orchestrion

/-- The numbers of bits that a sample may have. -/
inductive BitDepth where
  | sixteen
  | twentyFour
  | thirtyTwo
deriving DecidableEq, Repr

namespace BitDepth

/-- The number of bytes that hold a sample. -/
def bytes : BitDepth → Nat
  | sixteen => 2
  | twentyFour => 3
  | thirtyTwo => 4

/-- The number of bits that hold a sample. -/
def bits (d : BitDepth) : Nat := 8 * d.bytes

/-- The depth of this many bits, if there is one. -/
def ofBits? : Int → Option BitDepth
  | 16 => some sixteen
  | 24 => some twentyFour
  | 32 => some thirtyTwo
  | _ => none

/-- The factor that takes one to the greatest sample, as a single. -/
def scale (d : BitDepth) : Float32 := Float32.ofNat (Nat.pow 2 (d.bits - 1) - 1)

end BitDepth

/-- The value kept between minus one and one, and zero for what is not a number. -/
def clamp (v : Float32) : Float32 :=
  if v.isNaN then 0 else if 1 < v then 1 else if v < -1 then -1 else v

/-- The whole number that stands for a value: the value is clamped, scaled and cut off. -/
def BitDepth.sample (d : BitDepth) (v : Float32) : Int :=
  (Number.singleToWord (clamp v * d.scale)).toInt

/-- What takes samples block by block. -/
class SampleEncoder (ε : Type) where
  /-- Takes a block of samples, or tells why it cannot. -/
  write : ε → List Int → ε × Option Text
  /-- Completes what was written, or tells why it cannot. -/
  close : ε → ε × Option Text

/-- A sink that queues the samples of its frames for an encoder. -/
structure WaveSink (ε : Type) where
  /-- The frame that is being mixed. -/
  mixer : Mixer
  /-- What the samples are converted to. -/
  depth : BitDepth
  /-- What takes the samples. -/
  encoder : ε
  /-- The samples that are not handed over yet. -/
  queue : Array Int := #[]
deriving Repr

/-- The complaint about a number of bits that samples cannot have. -/
def badBitDepth (bits : Int) : Text := "unsupported bit depth " ++ Text.ofInt bits

namespace WaveSink

variable {ε : Type}

/-- The number of frames that are handed over together. -/
def blockFrames : Nat := 4096

/-- The sink for an encoder, with at least one channel and nothing queued. -/
def ofEncoder (channels : Int) (depth : BitDepth) (encoder : ε) : WaveSink ε :=
  { mixer := .ofChannels channels, depth, encoder }

/-- The number of channels. -/
def width (w : WaveSink ε) : Nat := w.mixer.width

/-- Makes the frame silent. -/
def clear (w : WaveSink ε) : WaveSink ε := { w with mixer := w.mixer.clear }

/-- Adds a sound to the frame. -/
def add (w : WaveSink ε) (sound : Sound) : WaveSink ε := { w with mixer := w.mixer.add sound }

variable [SampleEncoder ε]

/-- Hands over all samples of the queue, if there are any. They leave the queue in any case. -/
def flush (w : WaveSink ε) : WaveSink ε × Option Text :=
  if w.queue.isEmpty then (w, none)
  else
    let (encoder, refused) := SampleEncoder.write w.encoder w.queue.toList
    ({ w with encoder, queue := #[] }, refused.map ("writing wav: " ++ ·))

/-- Queues the samples of the frame, and hands over the queue when it has become long enough. -/
def emit (w : WaveSink ε) : WaveSink ε × Option Text :=
  let queue := w.queue ++ w.mixer.frame.map w.depth.sample
  let w := { w with queue }
  if blockFrames * w.width ≤ queue.size then w.flush else (w, none)

/-- Hands over the rest and completes what was written. The first complaint counts. -/
def close (w : WaveSink ε) : WaveSink ε × Option Text :=
  let (w, refused) := w.flush
  let (encoder, incomplete) := SampleEncoder.close w.encoder
  ({ w with encoder }, refused.or (incomplete.map ("closing wav: " ++ ·)))

instance : Sink (WaveSink ε) where
  width := width
  clear := clear
  add := add
  emit := emit
  close := close
  isCancelled _ := false

end WaveSink

/-- The lowest bytes of a number, the lowest one first. -/
def littleEndian : Nat → Int → List UInt8
  | 0, _ => []
  | count + 1, n => UInt8.ofNat (n % 256).toNat :: littleEndian count (n / 256)

/-- A wave file that is being written, kept in memory. -/
structure WaveEncoder where
  /-- How samples are stored. -/
  depth : BitDepth
  /-- The number of samples in a frame. -/
  channels : Nat
  /-- Samples in a second. -/
  rate : Int
  /-- The bytes of the file. -/
  file : Array UInt8 := #[]
  /-- The number of bytes written so far, those that were written again counted twice. -/
  written : Nat := 0
  /-- The number of frames written so far. -/
  frames : Nat := 0
  /-- Where the length of the samples was written, as counted by `written`. -/
  lengthPlace : Option Nat := none
deriving Repr

namespace WaveEncoder

/-- Writes bytes at the end. -/
def append (e : WaveEncoder) (bytes : List UInt8) : WaveEncoder :=
  { e with file := e.file ++ bytes, written := e.written + bytes.length }

/-- The file with bytes written over those at a place, filled up with zeros if it is too short. -/
def overwrite (file : Array UInt8) (place : Nat) (bytes : List UInt8) : Array UInt8 :=
  let file := file ++ Array.replicate (place - file.size) 0
  file.extract 0 place ++ bytes ++ file.extract (place + bytes.length) file.size

/-- Writes bytes again at a place. -/
def patch (e : WaveEncoder) (place : Nat) (bytes : List UInt8) : WaveEncoder :=
  { e with file := overwrite e.file place bytes, written := e.written + bytes.length }

/-- What stands in for a length that is not known yet. -/
def unknownLength : List UInt8 := littleEndian 4 42

/-- The first bytes of a file, up to the samples and their length. -/
def header (e : WaveEncoder) : List UInt8 :=
  let frame : Nat := e.channels * e.depth.bytes
  Text.ofString "RIFF" ++ unknownLength ++ Text.ofString "WAVE" ++ Text.ofString "fmt "
    ++ littleEndian 4 16 ++ littleEndian 2 1 ++ littleEndian 2 e.channels ++ littleEndian 4 e.rate
    ++ littleEndian 4 (e.rate * frame) ++ littleEndian 2 frame ++ littleEndian 2 e.depth.bits

/-- Writes what stands before the samples, unless it is there already. -/
def begin (e : WaveEncoder) : WaveEncoder :=
  match e.lengthPlace with
  | some _ => e
  | none =>
    let e := if e.written = 0 then e.append e.header else e
    let e := e.append (Text.ofString "data")
    { e.append unknownLength with lengthPlace := some e.written }

/-- Writes samples behind those that are there. -/
def write (e : WaveEncoder) (samples : List Int) : WaveEncoder :=
  let e := e.begin.append (samples.flatMap (littleEndian e.depth.bytes))
  { e with frames := e.frames + samples.length / e.channels }

/-- Writes the two lengths, now that they are known. -/
def close (e : WaveEncoder) : WaveEncoder :=
  let e := e.patch 4 (littleEndian 4 ((e.written : Int) - 8))
  match e.lengthPlace with
  | none => e
  | some place => e.patch place (littleEndian 4 (e.depth.bytes * e.channels * e.frames : Nat))

instance : SampleEncoder WaveEncoder where
  write e samples := (e.write samples, none)
  close e := (e.close, none)

end WaveEncoder

/-- The sink that writes a wave file. -/
abbrev Wave := WaveSink WaveEncoder

namespace Wave

/-- The sink for a file of so many samples in a second. -/
def ofChannels (rate channels : Int) (depth : BitDepth) : Wave :=
  .ofEncoder channels depth { depth, channels := (Mixer.ofChannels channels).width, rate }

/-- The sink, if there is room for its frame and its queue. -/
def ofChannels? (rate channels : Int) (depth : BitDepth) : Option Wave :=
  if Mixer.hasRoom channels && Number.hasRoom (WaveSink.blockFrames * max 1 channels) 8 then
    some (ofChannels rate channels depth)
  else none

/-- The bytes of the file. -/
def file (w : Wave) : Array UInt8 := w.encoder.file

end Wave

end Orchestrion
