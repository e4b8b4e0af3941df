import Orchestrion.Proofs.Performance.Mixing
import Orchestrion.Proofs.Performance.Tape
import Orchestrion.Sound.Wave

/-!
# What a wave sink hands over

A wave sink queues frame after frame, hands the queue to its encoder whenever it has become long
enough, and hands over the rest when it is closed. Whatever the encoder is and whatever is done with
the sink, the blocks that the encoder is given are the samples of all frames one behind the other,
cut between frames, and behind them it is only asked to complete what it wrote.
-/

namespace Orchestrion

open List

/-! ### Records of encoders -/

/-- What an encoder is asked for. -/
inductive EncoderCall where
  /-- To take a block of samples. -/
  | write (block : List Int)
  /-- To complete what was written. -/
  | close
deriving DecidableEq, Repr

/-- An encoder with a record of what it is asked for. -/
structure Recorded (ε : Type) where
  /-- The encoder itself. -/
  encoder : ε
  /-- What it was asked for, in order. -/
  calls : List EncoderCall := []

variable {ε : Type} [SampleEncoder ε]

instance : SampleEncoder (Recorded ε) where
  write r block :=
    let (encoder, refused) := SampleEncoder.write r.encoder block
    (⟨encoder, r.calls ++ [.write block]⟩, refused)
  close r :=
    let (encoder, incomplete) := SampleEncoder.close r.encoder
    (⟨encoder, r.calls ++ [.close]⟩, incomplete)

/-- The sink after a call. -/
def SinkCall.run {σ : Type} [Sink σ] (s : σ) : SinkCall → σ
  | clear => Sink.clear s
  | add sound => Sink.add s sound
  | emit => (Sink.emit s).1
  | close => (Sink.close s).1

namespace WaveSink

section Steps

variable (w : WaveSink ε)

/-- The sink with the samples of its frame in the queue. -/
def queued : WaveSink ε := { w with queue := w.queue ++ w.mixer.frame.map w.depth.sample }

theorem emit_eq : w.emit =
    if blockFrames * w.width ≤ w.queued.queue.size then w.queued.flush else (w.queued, none) := rfl

theorem close_fst : w.close.1 =
    { w.flush.1 with encoder := (SampleEncoder.close w.flush.1.encoder).1 } := rfl

end Steps

/-- The sink without the record. -/
def unrecorded (w : WaveSink (Recorded ε)) : WaveSink ε :=
  ⟨w.mixer, w.depth, w.encoder.encoder, w.queue⟩

/-- Handing over the queue does not depend on the record. -/
theorem unrecorded_flush (w : WaveSink (Recorded ε)) :
    w.flush.1.unrecorded = w.unrecorded.flush.1 := by
  have hqueue : w.unrecorded.queue = w.queue := rfl
  rw [flush, flush, hqueue]
  cases w.queue.isEmpty <;> rfl

/-- No call depends on the record. -/
theorem unrecorded_run (w : WaveSink (Recorded ε)) (call : SinkCall) :
    (call.run w).unrecorded = call.run w.unrecorded := by
  cases call with
  | clear | add _ => rfl
  | emit =>
    change w.emit.1.unrecorded = w.unrecorded.emit.1
    have hqueued : w.unrecorded.queued = w.queued.unrecorded := rfl
    rw [emit_eq, emit_eq, hqueued, apply_ite Prod.fst, apply_ite Prod.fst, apply_ite unrecorded,
      unrecorded_flush]
    rfl
  | close =>
    change w.close.1.unrecorded = w.unrecorded.close.1
    rw [close_fst, close_fst, ← unrecorded_flush]
    rfl

/-! ### Blocks -/

/-- The samples of frames, each made of sounds. -/
def samples (w : WaveSink ε) (frames : List (List Sound)) : List Int :=
  frames.flatMap fun sounds => (Sound.mix w.width sounds).map w.depth.sample

/-- The block has frames, all of them whole, and not too many. -/
structure IsBlock (width : Nat) (block : List Int) : Prop where
  nonempty : block ≠ []
  whole : width ∣ block.length
  short : block.length ≤ blockFrames * width

/-- The calls hand over the samples in blocks, and do nothing else. -/
def InBlocks (width : Nat) (samples : List Int) (calls : List EncoderCall) : Prop :=
  ∃ blocks : List (List Int), calls = blocks.map .write ∧ blocks.flatten = samples ∧
    ∀ block ∈ blocks, IsBlock width block

/-- One more block can be handed over behind the others. -/
theorem InBlocks.write {width : Nat} {samples block : List Int} {calls : List EncoderCall}
    (h : InBlocks width samples calls) (hblock : IsBlock width block) :
    InBlocks width (samples ++ block) (calls ++ [.write block]) := by
  obtain ⟨blocks, rfl, rfl, hblocks⟩ := h
  refine ⟨blocks ++ [block], by simp, by simp, ?_⟩
  exact forall_mem_append.2 ⟨hblocks, forall_mem_singleton.2 hblock⟩

/-! ### Calls -/

/-- From a start one gets to a state: sounds were added to the frame, and samples came in. Those
that are not queued went to the encoder in blocks. -/
structure Reached (start : WaveSink (Recorded ε)) (sounds : List Sound) (samples : List Int)
    (w : WaveSink (Recorded ε)) : Prop where
  mixer : w.mixer = sounds.foldl Mixer.add start.mixer.clear
  depth : w.depth = start.depth
  handed : ∃ given, InBlocks start.width given w.encoder.calls ∧ given ++ w.queue.toList = samples
  whole : start.width ∣ w.queue.size
  short : w.queue.size ≤ blockFrames * start.width

namespace Reached

variable {start w : WaveSink (Recorded ε)} {sounds : List Sound} {samples : List Int}

omit [SampleEncoder ε] in
/-- The number of channels stays the same. -/
theorem width_eq (h : Reached start sounds samples w) : w.width = start.width := by
  rw [width, h.mixer, Mixer.width_foldl_add]
  exact length_map ..

/-- The queue goes to the encoder as one block, or not at all if it is empty. -/
theorem flush (h : Reached start sounds samples w) :
    Reached start sounds samples w.flush.1 ∧ w.flush.1.queue = #[] := by
  rw [WaveSink.flush]
  split
  next hempty => exact ⟨h, by simpa using hempty⟩
  next hsome =>
    obtain ⟨given, hgiven, hsamples⟩ := h.handed
    have hblock : IsBlock start.width w.queue.toList := ⟨by simpa using hsome, h.whole, h.short⟩
    refine ⟨⟨h.mixer, h.depth, ?_, Nat.dvd_zero _, Nat.zero_le _⟩, rfl⟩
    exact ⟨_, hgiven.write hblock, by simpa using hsamples⟩

/-- The samples of the frame come in. They may make the queue as long as a block, and then it is
handed over. -/
theorem emit (h : Reached start sounds samples w)
    (hshort : w.queue.size < blockFrames * start.width) :
    Reached start sounds (samples ++ start.samples [sounds]) w.emit.1 ∧
      w.emit.1.queue.size < blockFrames * start.width := by
  have hqueue : w.queued.queue.toList = w.queue.toList ++ start.samples [sounds] := by
    rw [queued, Array.toList_appendList, h.mixer, Mixer.foldl_add_clear, h.depth]
    exact congrArg _ (flatMap_singleton ..).symm
  have hsize : w.queued.queue.size = w.queue.size + start.width := by
    rw [← h.width_eq, queued, ← Array.length_toList, Array.toList_appendList, length_append,
      length_map]
    rfl
  have hqueued : Reached start sounds (samples ++ start.samples [sounds]) w.queued := by
    obtain ⟨given, hgiven, hsamples⟩ := h.handed
    obtain ⟨k, hk⟩ := h.whole
    refine ⟨h.mixer, h.depth, ⟨given, hgiven, ?_⟩, ?_, ?_⟩
    · rw [hqueue, ← hsamples, append_assoc]
    · rw [hsize]
      exact Nat.dvd_add_self_right.2 h.whole
    · -- Both lengths are numbers of frames, so that one frame more is not too much.
      rw [hsize, hk, ← Nat.mul_succ, Nat.mul_comm blockFrames]
      rw [hk, Nat.mul_comm] at hshort
      exact Nat.mul_le_mul_left _ (Nat.lt_of_mul_lt_mul_right hshort)
  rw [emit_eq]
  split
  · obtain ⟨hflush, hempty⟩ := hqueued.flush
    rw [hempty]
    exact ⟨hflush, Nat.zero_lt_of_lt hshort⟩
  next hnot => exact ⟨hqueued, by rw [← h.width_eq]; exact Nat.not_le.1 hnot⟩

/-- Calls that do not close the sink bring in the samples of the frames that they emit. -/
theorem calls (h : Reached start sounds samples w)
    (hshort : w.queue.size < blockFrames * start.width) {calls : List SinkCall}
    (hopen : .close ∉ calls) :
    (∃ sounds', Reached start sounds' (samples ++ start.samples (SinkCall.framesFrom sounds calls))
      (calls.foldl SinkCall.run w)) ∧
      (calls.foldl SinkCall.run w).queue.size < blockFrames * start.width := by
  induction calls generalizing sounds samples w with
  | nil => exact ⟨⟨sounds, by simpa [WaveSink.samples, SinkCall.framesFrom] using h⟩, hshort⟩
  | cons call calls ih =>
    rw [mem_cons, not_or] at hopen
    rw [foldl_cons]
    cases call with
    | clear =>
      refine ih { h with mixer := ?_ } hshort hopen.2
      change w.mixer.clear = start.mixer.clear
      rw [Mixer.clear, Mixer.clear, map_const', map_const']
      exact congrArg (fun n => Mixer.mk (List.replicate n 0)) h.width_eq
    | add sound =>
      refine ih { h with mixer := ?_ } hshort hopen.2
      rw [foldl_append, ← h.mixer]
      rfl
    | emit =>
      obtain ⟨hemit, hshort'⟩ := h.emit hshort
      obtain ⟨⟨sounds', hcalls⟩, hlast⟩ := ih hemit hshort' hopen.2
      refine ⟨⟨sounds', ?_⟩, hlast⟩
      rwa [append_assoc, WaveSink.samples, WaveSink.samples, ← flatMap_append] at hcalls
    | close => exact absurd rfl hopen.1

end Reached

/-- What the encoder of a sink is given by calls and by the end of them. -/
structure Delivers (start : WaveSink (Recorded ε)) (calls : List SinkCall)
    (last : WaveSink (Recorded ε)) : Prop where
  /-- Between calls, fewer samples are queued than a block has. -/
  short : last.queue.size < blockFrames * start.width
  /-- In the end, the encoder was given the samples of all frames in blocks, and then it was asked
  to complete what it wrote. -/
  closed : ∃ given, last.close.1.encoder.calls = given ++ [.close] ∧
    InBlocks start.width (start.samples (SinkCall.frames calls)) given
  /-- An encoder whose writes succeed takes every frame. -/
  accepted : (∀ (e : ε) block, (SampleEncoder.write e block).2 = none) → last.emit.2 = none

omit [SampleEncoder ε] in
/-- A sink has at least one channel. -/
theorem width_ofEncoder_pos (channels : Int) (depth : BitDepth) (e : ε) :
    0 < (ofEncoder channels depth e).width := by
  change 0 < (List.replicate (max 1 channels).toNat (0 : Float32)).length
  rw [length_replicate]
  omega

/-- If writes succeed, handing over the queue does. -/
theorem flush_accepted (hwrites : ∀ (e : ε) block, (SampleEncoder.write e block).2 = none)
    (w : WaveSink (Recorded ε)) : w.flush.2 = none := by
  rw [flush]
  split
  · rfl
  · exact congrArg (Option.map _) (hwrites ..)

/-- Whatever is done with a sink of any number of channels before it is closed, its encoder gets the
samples of all frames that are emitted, in blocks of whole frames, and nothing else. The encoder may
be any, and the record of what it gets does not change what the sink does. -/
theorem blocks_lossless (e : ε) (channels : Int) (depth : BitDepth) {calls : List SinkCall}
    (hopen : .close ∉ calls) :
    let start : WaveSink (Recorded ε) := ofEncoder channels depth ⟨e, []⟩
    let last := calls.foldl SinkCall.run start
    Delivers start calls last ∧
      (calls ++ [SinkCall.close]).foldl SinkCall.run (ofEncoder channels depth e) =
        last.close.1.unrecorded := by
  intro start last
  have hpos : 0 < blockFrames * start.width :=
    Nat.mul_pos (by decide) (width_ofEncoder_pos channels depth _)
  have hstart : Reached start [] [] start := by
    refine ⟨?_, rfl, ⟨[], ⟨[], rfl, rfl, forall_mem_nil _⟩, rfl⟩, Nat.dvd_zero _,
      Nat.zero_le _⟩
    exact congrArg Mixer.mk (map_replicate (f := fun _ => (0 : Float32))).symm
  obtain ⟨⟨sounds, hlast⟩, hshort⟩ := hstart.calls hpos hopen
  refine ⟨⟨hshort, ?_, fun hwrites => ?_⟩, ?_⟩
  · -- What is still queued goes to the encoder when the sink is closed.
    obtain ⟨hflush, hempty⟩ := hlast.flush
    obtain ⟨given, hgiven, hsamples⟩ := hflush.handed
    rw [hempty, append_nil, nil_append] at hsamples
    rw [hsamples] at hgiven
    exact ⟨_, rfl, hgiven⟩
  · rw [emit_eq]
    split
    · exact flush_accepted hwrites _
    · rfl
  · have hsame : calls.foldl SinkCall.run start.unrecorded = last.unrecorded :=
      foldl_hom unrecorded fun w call => (unrecorded_run w call).symm
    change (calls ++ [SinkCall.close]).foldl SinkCall.run start.unrecorded = _
    rw [foldl_append, hsame]
    exact (unrecorded_run last .close).symm

/-- Two frames in a file of two channels: no block is full, so that one block has both of them. -/
theorem blocks_lossless_two :
    let file : WaveEncoder := { depth := .sixteen, channels := 2, rate := 44100 }
    let start : WaveSink (Recorded WaveEncoder) := ofEncoder 2 .sixteen ⟨file, []⟩
    let calls : List SinkCall :=
      [.clear, .add (.frame [1, -1]), .emit, .clear, .add (.all 1), .emit]
    (calls.foldl SinkCall.run start).close.1.encoder.calls =
        [.write [32767, -32767, 32767, 32767], .close] ∧
      Delivers start calls (calls.foldl SinkCall.run start) :=
  ⟨by decide +kernel, (blocks_lossless _ 2 .sixteen (by decide)).1⟩

end WaveSink

end Orchestrion
