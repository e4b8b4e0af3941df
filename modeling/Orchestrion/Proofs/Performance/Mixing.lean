import Orchestrion.Proofs.Performance.Deeds
import Orchestrion.Sound.Buffer

/-!
# Mixing

A frame is silent before the voices are played, and then the sounds of the voices are added to it
one after the other. So what is emitted is, in each channel, the sum of all values for the channel,
taken from the left and starting from zero.
-/

namespace Orchestrion

open List

def Sound.at? (channel : Nat) : Sound → Option Float32
  | .all v => some v
  | .frame vs => vs[channel]?

def Sound.sum (channel : Nat) (sounds : List Sound) (start : Float32) : Float32 :=
  (sounds.filterMap (·.at? channel)).foldl (· + ·) start

/-- The frame that sounds make together: the sum for each channel, starting from zero. -/
def Sound.mix (width : Nat) (sounds : List Sound) : List Float32 :=
  (List.range width).map fun channel => Sound.sum channel sounds 0

namespace Mixer

theorem getElem?_addEach (xs vs : List Float32) (n : Nat) :
    (addEach xs vs)[n]? = xs[n]?.map fun x => (vs[n]?).elim x (x + ·) := by
  induction xs generalizing vs n with
  | nil => cases vs <;> simp [addEach]
  | cons x xs ih =>
    cases vs with
    | nil => simp [addEach]
    | cons v vs =>
      cases n with
      | zero => rfl
      | succ n => exact ih vs n

theorem getElem?_add (m : Mixer) (sound : Sound) (n : Nat) :
    (m.add sound).frame[n]? = m.frame[n]?.map (Sound.sum n [sound]) := by
  cases sound with
  | all v => exact getElem?_map ..
  | frame vs =>
    change (addEach m.frame vs)[n]? = _
    rw [getElem?_addEach]
    congr 1
    funext x
    cases hv : vs[n]? <;> simp [Sound.sum, Sound.at?, hv]

theorem getElem?_foldl_add (sounds : List Sound) (m : Mixer) (n : Nat) :
    (sounds.foldl add m).frame[n]? = m.frame[n]?.map (Sound.sum n sounds) := by
  induction sounds generalizing m with
  | nil => exact (Option.map_id' ..).symm
  | cons sound sounds ih =>
    rw [foldl_cons, ih, getElem?_add, Option.map_map]
    congr 1
    funext x
    cases hv : sound.at? n <;> simp [Sound.sum, hv]

theorem foldl_add_clear (sounds : List Sound) (m : Mixer) :
    (sounds.foldl add m.clear).frame = Sound.mix m.width sounds := by
  ext1 n
  rw [getElem?_foldl_add, Sound.mix, clear]
  by_cases hn : n < m.frame.length
  · simp [hn, width]
  · simp [hn, width]

theorem length_addEach (xs vs : List Float32) : (addEach xs vs).length = xs.length := by
  fun_induction addEach xs vs with
  | case1 x xs v vs ih => exact congrArg (· + 1) ih
  | case2 => rfl

theorem width_foldl_add (sounds : List Sound) (m : Mixer) :
    (sounds.foldl add m).width = m.width := by
  induction sounds generalizing m with
  | nil => rfl
  | cons sound sounds ih =>
    rw [foldl_cons, ih]
    cases sound with
    | all v => exact length_map ..
    | frame vs => exact length_addEach m.frame vs

end Mixer

namespace Buffer

theorem foldl_add (sounds : List Sound) (b : Buffer) :
    sounds.foldl Sink.add b = { b with mixer := sounds.foldl Mixer.add b.mixer } := by
  induction sounds generalizing b with
  | nil => rfl
  | cons sound sounds ih =>
    rw [foldl_cons, ih]
    rfl

theorem samples_foldl_add (sounds : List Sound) (b : Buffer) :
    (sounds.foldl Sink.add b).samples = b.samples := by
  rw [foldl_add]

theorem width_foldl_add (sounds : List Sound) (b : Buffer) :
    (sounds.foldl Sink.add b).width = b.width := by
  rw [foldl_add]
  exact Mixer.width_foldl_add sounds b.mixer

theorem samples_afterFrame (b : Buffer) (ds : List Deed) :
    (Scheduler.afterFrame b ds).samples.toList =
      b.samples.toList ++ Sound.mix b.width (Deed.soundsOf ds) := by
  have hframe : Scheduler.afterFrame b ds =
      ((Deed.soundsOf ds).foldl Sink.add b.clear).emit := rfl
  rw [hframe, foldl_add, emit]
  dsimp only
  rw [clear, Mixer.foldl_add_clear]
  simp [width]

theorem width_afterFrame (b : Buffer) (ds : List Deed) :
    (Scheduler.afterFrame b ds).width = b.width := by
  have hframe : (Scheduler.afterFrame b ds).width =
      ((Deed.soundsOf ds).foldl Sink.add b.clear).width := rfl
  rw [hframe, width_foldl_add]
  exact length_map ..

theorem samples_afterFrames (b : Buffer) (frames : List (List Deed)) :
    (frames.foldl Scheduler.afterFrame b).samples.toList =
        b.samples.toList ++ frames.flatMap (fun ds => Sound.mix b.width (Deed.soundsOf ds)) ∧
      (frames.foldl Scheduler.afterFrame b).width = b.width := by
  induction frames generalizing b with
  | nil => exact ⟨(append_nil _).symm, rfl⟩
  | cons ds frames ih =>
    obtain ⟨hsamples, hwidth⟩ := ih (Scheduler.afterFrame b ds)
    rw [width_afterFrame] at hsamples hwidth
    refine ⟨?_, hwidth⟩
    rw [foldl_cons, hsamples, samples_afterFrame, flatMap_cons, append_assoc]

theorem samples_afterTicks (b : Buffer) (ds : List TurnDeeds) :
    (ds.foldl Scheduler.afterTick b).samples.toList = b.samples.toList ++
      (ds.flatMap TurnDeeds.frames).flatMap fun frame =>
      Sound.mix b.width (Deed.soundsOf frame) := by
  induction ds generalizing b with
  | nil => exact (append_nil _).symm
  | cons d ds ih =>
    obtain ⟨hsamples, hwidth⟩ :=
      samples_afterFrames ((Deed.soundsOf (d.inits ++ d.controls)).foldl Sink.add b) d.frames
    rw [samples_foldl_add, width_foldl_add] at hsamples
    rw [width_foldl_add] at hwidth
    rw [foldl_cons, ih, Scheduler.afterTick, hsamples, hwidth, flatMap_cons,
      flatMap_append, append_assoc]

end Buffer

end Orchestrion
