import Orchestrion.Proofs.Lifecycle
import Orchestrion.Proofs.Outcome
import Orchestrion.Proofs.Performance.Tape
import Orchestrion.Proofs.ScoreOrder

/-!
# The length of a performance

A performance of players whose passes end, into a sink that takes every frame and a listener who
does not want to stop, is as long as its end says: it has the frames of all ticks from zero to the
end, and none if the end is not after zero. An end that comes later adds frames and changes none of
those before. The sink is closed once, and so it is if a score is played, whatever happens.
-/

namespace Orchestrion

namespace Scheduler

variable {ι σ γ : Type} [Playable ι γ] [Sink σ]

def endingAt (t : Tick) (s : Scheduler ι σ γ) : Scheduler ι σ γ := s.retarget id fun _ => t

/-- The scheduler with an empty tape beside its sink. -/
def taped (s : Scheduler ι σ γ) : Scheduler ι (Taped σ) γ := s.retarget (fun sink => ⟨sink, []⟩) id

/-- The scheduler without the tape beside its sink. -/
def untaped (s : Scheduler ι (Taped σ) γ) : Scheduler ι σ γ := s.retarget Taped.sink id

theorem run_taped (s : Scheduler ι σ γ) : s.run = s.taped.run.map untaped id :=
  run_retarget Taped.alike s.taped

/-! ### Frames, clock and end -/

theorem run_length {s : Scheduler ι (Taped σ) γ} {s' : Scheduler ι (Taped σ) γ}
    (hkrate : 1 ≤ s.settings.krate) (hsrate : 0 ≤ s.settings.srate) (hnow : s.now = 0)
    (hplay : play s.ticksLeft s = (s', .done)) :
    (s.run.1.sink.frames.length : Int) = s.sink.frames.length +
        max 0 s.finish.toInt * (s.settings.srate / s.settings.krate) ∧
      s.run.1.now.toInt = max 0 s.finish.toInt := by
  have hzero : s.now.toInt = 0 := by rw [hnow, Int64.toInt_zero]
  have hleft : (s.ticksLeft : Int) = max 0 s.finish.toInt := by
    rw [ticksLeft, hzero]
    omega
  constructor
  · obtain ⟨n, hemits, hcount⟩ := play_emits s.ticksLeft s
    rw [hplay] at hemits hcount
    have hquotient : 0 ≤ s.settings.srate / s.settings.krate :=
      Int.ediv_nonneg hsrate (by omega)
    rw [run_frames, hplay, hemits.length_frames, hcount rfl, Settings.samplesPerTick_toNat hkrate]
    push_cast
    rw [hleft, Int.toNat_of_nonneg hquotient]
  · have hclock := now_play s.ticksLeft_room hplay
    rw [s.run_tape.2, hplay]
    change s'.now.toInt = _
    omega

theorem run_ending {s s' : Scheduler ι σ γ} (hplay : play s.ticksLeft s = (s', .done)) :
    s.run.2 = .done ∨ ∃ reason, s.run.2 = .closeFailed reason := by
  rw [run, hplay, close]
  rcases Sink.close s'.sink with ⟨sink, _ | reason⟩
  · exact .inl rfl
  · exact .inr ⟨reason, rfl⟩

theorem run_tape_grows (s : Scheduler ι (Taped σ) γ) {n m : Tick} (hle : n ≤ m) :
    ∃ tape, (s.endingAt n).run.1.sink.tape = tape ++ [.close] ∧
      tape <+: (s.endingAt m).run.1.sink.tape := by
  have hplay (t : Tick) (k : Nat) :
      (play k (s.endingAt t)).1.sink.tape = (play k s).1.sink.tape := by
    rw [endingAt, play_retarget Sink.Alike.id]
    rfl
  have hleft : (s.endingAt n).ticksLeft ≤ (s.endingAt m).ticksLeft := by
    rw [Int64.le_iff_toInt_le] at hle
    change (n.toInt - s.now.toInt).toNat ≤ (m.toInt - s.now.toInt).toNat
    omega
  refine ⟨(play (s.endingAt n).ticksLeft s).1.sink.tape, ?_, ?_⟩
  · rw [(s.endingAt n).run_tape.1, hplay]
  · rw [(s.endingAt m).run_tape.1, hplay]
    exact (play_tape_grows hleft s).trans (List.prefix_append ..)

theorem run_frames_grow (s : Scheduler ι (Taped σ) γ) {n m : Tick} (hle : n ≤ m) :
    (s.endingAt n).run.1.sink.frames <+: (s.endingAt m).run.1.sink.frames := by
  obtain ⟨tape, htape, more, hmore⟩ := s.run_tape_grows hle
  have hframes : (s.endingAt n).run.1.sink.frames = SinkCall.frames tape := by
    rw [Taped.frames, htape]
    exact SinkCall.framesFrom_close ..
  rw [hframes, Taped.frames, ← hmore]
  exact SinkCall.framesFrom_append ..

/-- How long a performance is. Let the passes of all players of a scheduler end (they may fail), let
its sink take every frame, and let the listener not want to stop. Whatever the end `n` is that is
set at tick zero:

* a tape beside the sink changes nothing;
* the performance emits the frames of all ticks before `n`, stops at `n`, or at zero if `n` is less,
  and closes the sink once, after everything else;
* apart from that, all that is done to the sink is what is done first if the end comes later, and so
  the frames are the first frames then.

And playing a score closes the sink once, whatever the orchestra, the configuration, the score and
the sink are, and however it ends. -/
theorem performance_measured {good : ι → Prop} {fit : γ → Prop}
    (hends : Playable.PassesEnd good fit) (hemit : ∀ sink : σ, (Sink.emit sink).2 = none)
    (hlistens : ∀ sink : σ, Sink.isCancelled sink = false) (s : Scheduler ι σ γ)
    (hkrate : 1 ≤ s.settings.krate) (hsrate : s.settings.krate ≤ s.settings.srate)
    (hnow : s.now = 0) (hpending : ∀ i ∈ s.pending, good i)
    (hactive : ∀ v ∈ s.active, good v.player) (hstore : fit s.store) :
    (∀ n : Tick,
      (s.endingAt n).run = (s.taped.endingAt n).run.map untaped id ∧
      ((s.endingAt n).run.2 = .done ∨ ∃ reason, (s.endingAt n).run.2 = .closeFailed reason) ∧
      ((s.taped.endingAt n).run.1.sink.frames.length : Int) =
        max 0 n.toInt * (s.settings.srate / s.settings.krate) ∧
      (s.endingAt n).run.1.now.toInt = max 0 n.toInt ∧
      (s.taped.endingAt n).run.1.sink.closes = 1) ∧
    (∀ n m : Tick, n ≤ m →
      (∃ tape, (s.taped.endingAt n).run.1.sink.tape = tape ++ [.close] ∧
        tape <+: (s.taped.endingAt m).run.1.sink.tape) ∧
      (s.taped.endingAt n).run.1.sink.frames <+: (s.taped.endingAt m).run.1.sink.frames) ∧
    ∀ (τ : Type) [Sink τ] (o : Orchestra) (c : PlayConfig) (score : Feeder.Source) (sink : τ),
      o.play c score sink = (o.play c score (⟨sink, []⟩ : Taped τ)).map Taped.sink ∧
      (o.play c score (⟨sink, []⟩ : Taped τ)).sink.closes = 1 := by
  refine ⟨fun n => ?_, fun n m hle => ⟨s.taped.run_tape_grows hle, s.taped.run_frames_grow hle⟩, ?_⟩
  · have htaped : (s.endingAt n).run = (s.taped.endingAt n).run.map untaped id :=
      (s.endingAt n).run_taped
    -- The ticks are done whether there is a tape or not.
    obtain ⟨s', hplay⟩ := play_done (s := s.endingAt n) hends hemit hlistens
      (s.endingAt n).ticksLeft ⟨hpending, hactive, hstore⟩
    obtain ⟨s'', hplay'⟩ := play_done (s := s.taped.endingAt n) hends (fun t => hemit t.sink)
      (fun t => hlistens t.sink) (s.taped.endingAt n).ticksLeft ⟨hpending, hactive, hstore⟩
    obtain ⟨hframes, hclock⟩ := run_length (s := s.taped.endingAt n) hkrate
      (Int.le_trans (by omega) hsrate) hnow hplay'
    refine ⟨htaped, run_ending hplay, ?_, ?_, (s.taped.endingAt n).run_closes⟩
    · rw [hframes]
      change (0 : Int) + _ = _
      rw [Int.zero_add]
      rfl
    · rw [htaped]
      exact hclock
  · intro τ _ o c score sink
    exact ⟨Orchestra.play_map Taped.alike o c score ⟨sink, []⟩, o.play_closes c score ⟨sink, []⟩⟩

/-- Two chimes: the first fails at tick 2, and the second is not due before tick 4. -/
def carillon : Scheduler Chime Buffer Unit :=
  { settings := { srate := 6, krate := 2 }, sink := .ofChannels 1, store := (),
    pending := [⟨⟨0, 5⟩⟩, ⟨⟨4, 9⟩⟩] }

theorem performance_measured_carillon :
    (carillon.taped.endingAt 3).run.1.sink.frames.length = 9 ∧
    (carillon.endingAt 3).run.1.now = 3 ∧ (carillon.taped.endingAt 3).run.1.sink.closes = 1 ∧
    (carillon.taped.endingAt (-2)).run.1.sink.frames.length = 0 ∧
    (carillon.taped.endingAt 3).run.1.sink.frames <+:
      (carillon.taped.endingAt 6).run.1.sink.frames ∧
    ∃ o, Orchestra.compile Orchestra.bell = .ok o ∧
      (o.play {} ⟨"0 a -1 3", none⟩ (⟨Buffer.ofChannels 1, []⟩ : Taped Buffer)).ending = .noEnd ∧
      (o.play {} ⟨"0 a -1 3", none⟩
        (⟨Buffer.ofChannels 1, []⟩ : Taped Buffer)).sink.closes = 1 := by
  obtain ⟨hlength, hgrows, hcloses⟩ := performance_measured Chime.passesEnd (fun _ : Buffer => rfl)
    (fun _ => rfl) carillon (by decide) (by decide) rfl (fun _ _ => trivial) (fun _ _ => trivial)
    trivial
  obtain ⟨-, -, hframes, hnow, hclosed⟩ := hlength 3
  obtain ⟨-, -, hframes', -, -⟩ := hlength (-2)
  have hplays : ((Orchestra.compile Orchestra.bell).toOption.map fun o =>
      (o.play {} ⟨"0 a -1 3", none⟩ (⟨Buffer.ofChannels 1, []⟩ : Taped Buffer)).ending) =
        some .noEnd := by
    decide +kernel
  obtain ⟨o, ho, hending⟩ := Option.map_eq_some_iff.1 hplays
  refine ⟨?_, ?_, hclosed, ?_, (hgrows 3 6 (by decide)).2, o, toOption_eq_some_iff.1 ho, hending,
    (hcloses Buffer o {} ⟨"0 a -1 3", none⟩ (.ofChannels 1)).2⟩
  · exact Int.ofNat.inj hframes
  · exact Int64.toInt_inj.1 hnow
  · exact Int.ofNat.inj hframes'

end Scheduler

end Orchestrion
