import Orchestrion.Performance.Play
import Orchestrion.Proofs.Performance.Calls
import Orchestrion.Proofs.Performance.Queue

/-!
# Tapes

To say what a performance does to its sink, the sink is put together with a tape that keeps all that
is done to it. A tape changes nothing about the performance. From the tape one can read the frames
that were emitted, each as the sounds that were added to it, and how often the sink was closed.
-/

namespace Orchestrion

open List

/-! ### What is done to a sink -/

/-- What is done to a sink. -/
inductive SinkCall where
  | clear
  | add (sound : Sound)
  | emit
  | close
deriving DecidableEq, Repr

namespace SinkCall

/-- The frames that are emitted, if the sounds were added before: each is the sounds that were added
since the sink was last cleared. -/
def framesFrom (sounds : List Sound) : List SinkCall → List (List Sound)
  | [] => []
  | clear :: cs => framesFrom [] cs
  | add sound :: cs => framesFrom (sounds ++ [sound]) cs
  | emit :: cs => sounds :: framesFrom sounds cs
  | close :: cs => framesFrom sounds cs

def frames (cs : List SinkCall) : List (List Sound) := framesFrom [] cs

theorem length_framesFrom (sounds : List Sound) (cs : List SinkCall) :
    (framesFrom sounds cs).length = cs.count emit := by
  induction cs generalizing sounds with
  | nil => rfl
  | cons c cs ih =>
    cases c <;> simp [framesFrom, ih]

theorem framesFrom_append (sounds : List Sound) (cs ds : List SinkCall) :
    framesFrom sounds cs <+: framesFrom sounds (cs ++ ds) := by
  induction cs generalizing sounds with
  | nil => exact List.nil_prefix
  | cons c cs ih =>
    cases c with
    | clear => exact ih []
    | add sound => exact ih _
    | emit => exact (prefix_cons_inj sounds).2 (ih sounds)
    | close => exact ih sounds

theorem framesFrom_close (sounds : List Sound) (cs : List SinkCall) :
    framesFrom sounds (cs ++ [close]) = framesFrom sounds cs := by
  induction cs generalizing sounds with
  | nil => rfl
  | cons c cs ih =>
    cases c <;> simp [framesFrom, ih]

end SinkCall

/-- A sink with a tape of all that is done to it. -/
structure Taped (σ : Type) where
  sink : σ
  tape : List SinkCall := []

namespace Taped

variable {σ : Type} [Sink σ]

instance : Sink (Taped σ) where
  width t := Sink.width t.sink
  clear t := ⟨Sink.clear t.sink, t.tape ++ [.clear]⟩
  add t sound := ⟨Sink.add t.sink sound, t.tape ++ [.add sound]⟩
  emit t := (⟨(Sink.emit t.sink).1, t.tape ++ [.emit]⟩, (Sink.emit t.sink).2)
  close t := (⟨(Sink.close t.sink).1, t.tape ++ [.close]⟩, (Sink.close t.sink).2)
  isCancelled t := Sink.isCancelled t.sink

def frames (t : Taped σ) : List (List Sound) := SinkCall.frames t.tape

/-- How often the sink was closed. -/
def closes (t : Taped σ) : Nat := t.tape.count .close

theorem tape_foldl_add (sounds : List Sound) (t : Taped σ) :
    (sounds.foldl Sink.add t).tape = t.tape ++ sounds.map .add := by
  induction sounds generalizing t with
  | nil => exact (append_nil _).symm
  | cons sound sounds ih =>
    rw [foldl_cons, ih]
    exact append_assoc ..

end Taped

theorem Taped.alike {σ : Type} [Sink σ] : Sink.Alike (Taped.sink : Taped σ → σ) :=
  ⟨fun _ => rfl, fun _ => rfl, fun _ _ => rfl, fun _ => rfl, fun _ => rfl, fun _ => rfl⟩

namespace Scheduler

variable {ι σ τ γ : Type} [Playable ι γ] [Sink σ] [Sink τ]

/-! ### Sinks that do the same -/

/-- A scheduler with its sink and its end seen through functions. -/
def retarget (f : σ → τ) (g : Tick → Tick) (s : Scheduler ι σ γ) : Scheduler ι τ γ :=
  ⟨s.settings, f s.sink, s.store, s.now, g s.finish, s.pending, s.active, s.failures⟩

section Retarget

variable {f : σ → τ} {g : Tick → Tick}

omit [Playable ι γ] [Sink σ] [Sink τ] in
theorem retarget_eq_restage (f : σ → τ) (g : Tick → Tick) :
    (retarget f g : Scheduler ι σ γ → Scheduler ι τ γ) = restage ⟨id, id, f, g, List.map id⟩ := by
  funext s
  simp [retarget, restage, Voice.map_id]

theorem play_retarget (hf : Sink.Alike f) (n : Nat) (s : Scheduler ι σ γ) :
    play n (s.retarget f g) = (play n s).map (.retarget f g) id := by
  rw [retarget_eq_restage]
  exact play_restage ⟨.id, hf⟩ rfl n s

omit [Playable ι γ] in
theorem close_retarget (hf : Sink.Alike f) (ended : Scheduler ι σ γ × RunEnd) :
    close (ended.map (.retarget f g) id) = (close ended).map (.retarget f g) id := by
  obtain ⟨s, ending⟩ := ended
  have hclose : Sink.close (s.retarget f g).sink = (Sink.close s.sink).map f id := hf.close _
  simp only [close, Prod.map, id, hclose]
  rcases Sink.close s.sink with ⟨sink, _ | reason⟩ <;> cases ending <;> rfl

theorem run_retarget (hf : Sink.Alike f) (s : Scheduler ι σ γ) :
    (s.retarget f id).run = s.run.map (.retarget f id) id := by
  have hticks : (s.retarget f id).ticksLeft = s.ticksLeft := rfl
  rw [run, run, hticks, play_retarget hf, close_retarget hf]

end Retarget

/-! ### What a performance does to its sink -/

theorem promote_eq_some {s s' : Scheduler ι σ γ} (h : s.promote = some s') :
    ∃ (sounds : List Sound) (store : γ) (pending : List ι) (active : List (Voice ι))
        (failures : List PassError),
      s' = { s with sink := sounds.foldl Sink.add s.sink, store, pending, active, failures } := by
  obtain ⟨⟨vs, s₁⟩, hvs, h⟩ := Option.bind_eq_some_iff.1 h
  obtain ⟨sounds, store, failures, rfl⟩ := playVoices_eq_some hvs
  cases h
  exact ⟨sounds, store, _, _, failures, rfl⟩

/-- A number of frames was emitted, and the sink was not closed. -/
structure Emits (s s' : Scheduler ι (Taped σ) γ) (n : Nat) : Prop where
  settings : s'.settings = s.settings
  tape : ∃ cs, s'.sink.tape = s.sink.tape ++ cs ∧ cs.count .emit = n ∧ cs.count .close = 0

namespace Emits

omit [Playable ι γ] [Sink σ]

variable {s s' s'' : Scheduler ι (Taped σ) γ} {m n : Nat}

theorem refl (s : Scheduler ι (Taped σ) γ) : s.Emits s 0 :=
  ⟨rfl, [], (append_nil _).symm, rfl, rfl⟩

theorem trans (h : s.Emits s' m) (h' : s'.Emits s'' n) : s.Emits s'' (m + n) := by
  obtain ⟨hsettings, cs, htape, hemits, hcloses⟩ := h
  obtain ⟨hsettings', ds, htape', hemits', hcloses'⟩ := h'
  refine ⟨hsettings'.trans hsettings, cs ++ ds, ?_, ?_, ?_⟩
  · rw [htape', htape, append_assoc]
  · rw [count_append, hemits, hemits']
  · rw [count_append, hcloses, hcloses']

theorem closes_eq (h : s.Emits s' n) : s'.sink.closes = s.sink.closes := by
  obtain ⟨-, cs, htape, -, hcloses⟩ := h
  rw [Taped.closes, htape, count_append, hcloses]
  rfl

theorem length_frames (h : s.Emits s' n) : s'.sink.frames.length = s.sink.frames.length + n := by
  obtain ⟨-, cs, htape, hemits, -⟩ := h
  rw [Taped.frames, Taped.frames, SinkCall.frames, SinkCall.frames, SinkCall.length_framesFrom,
    SinkCall.length_framesFrom, htape, count_append, hemits]

end Emits

omit [Playable ι γ] in
theorem emits_zero {s s' : Scheduler ι (Taped σ) γ} (hsettings : s'.settings = s.settings)
    {sounds : List Sound} (hsink : s'.sink = sounds.foldl Sink.add s.sink) : s.Emits s' 0 := by
  refine ⟨hsettings, sounds.map .add, ?_, ?_, ?_⟩
  · rw [hsink, Taped.tape_foldl_add]
  · simp [count_eq_zero]
  · simp [count_eq_zero]

theorem playFrame_emits (s : Scheduler ι (Taped σ) γ) :
    ∃ n, s.Emits s.playFrame.1 n ∧ (s.playFrame.2 = .done → n = 1) := by
  rw [playFrame]
  cases hplay : playActive .audio { s with sink := Sink.clear s.sink } with
  | none => exact ⟨0, .refl s, by simp⟩
  | some s' =>
    obtain ⟨sounds, store, active, failures, rfl⟩ := playActive_eq_some hplay
    have hemits (sink : Taped σ)
        (hsink : sink = (Sink.emit (sounds.foldl Sink.add (Sink.clear s.sink))).1) :
        s.Emits { s with sink, store, active, failures } 1 := by
      refine ⟨rfl, .clear :: sounds.map .add ++ [.emit], ?_, ?_, ?_⟩
      · have htape : sink.tape = (sounds.foldl Sink.add (Sink.clear s.sink)).tape ++ [.emit] := by
          rw [hsink]
          rfl
        rw [htape, Taped.tape_foldl_add]
        change s.sink.tape ++ [.clear] ++ _ ++ _ = _
        simp only [append_assoc, cons_append, nil_append]
      · simp [count_eq_zero]
      · simp [count_eq_zero]
    dsimp only
    rcases hemit : Sink.emit (sounds.foldl Sink.add (Sink.clear s.sink)) with ⟨sink, _ | reason⟩
    · exact ⟨1, hemits sink (by rw [hemit]), fun _ => rfl⟩
    · exact ⟨1, hemits sink (by rw [hemit]), fun _ => rfl⟩

theorem playFrames_emits (k : Nat) (s : Scheduler ι (Taped σ) γ) :
    ∃ n, s.Emits (playFrames k s).1 n ∧ ((playFrames k s).2 = .done → n = k) := by
  induction k generalizing s with
  | zero => exact ⟨0, .refl s, fun _ => rfl⟩
  | succ k ih =>
    obtain ⟨n, hemits, hdone⟩ := s.playFrame_emits
    rw [playFrames]
    rcases hframe : s.playFrame with ⟨s', _ | reason | _⟩ <;> rw [hframe] at hemits hdone
    · obtain ⟨m, hemits', hdone'⟩ := ih s'
      obtain rfl := hdone rfl
      refine ⟨1 + m, hemits.trans hemits', fun h => ?_⟩
      rw [hdone' h, Nat.add_comm]
    · exact ⟨n, hemits, by simp⟩
    · exact ⟨n, hemits, by simp⟩

theorem tick_emits (s : Scheduler ι (Taped σ) γ) :
    ∃ n, s.Emits s.tick.1 n ∧ (s.tick.2 = .done → n = s.settings.samplesPerTick.toNat) := by
  rw [tick]
  cases hturn : s.promote.bind fun s => playActive .control s.retire with
  | none => exact ⟨0, .refl s, by simp⟩
  | some s₂ =>
    obtain ⟨s₁, hpromote, hcontrol⟩ := Option.bind_eq_some_iff.1 hturn
    -- Sounds of init and control passes are added, but nothing is emitted before the first frame.
    have hbefore : s.Emits s₂ 0 := by
      obtain ⟨sounds, store, pending, active, failures, rfl⟩ := promote_eq_some hpromote
      obtain ⟨sounds', store', active', failures', rfl⟩ := playActive_eq_some hcontrol
      exact emits_zero rfl (foldl_append ..).symm
    obtain ⟨n, hemits, hdone⟩ := playFrames_emits s₂.settings.samplesPerTick.toNat s₂
    have hall := hbefore.trans hemits
    rw [Nat.zero_add] at hall
    dsimp only
    rcases hframes : playFrames s₂.settings.samplesPerTick.toNat s₂ with ⟨s₃, _ | reason | _⟩ <;>
      rw [hframes] at hall hdone
    · refine ⟨n, ⟨hall.settings, hall.tape⟩, fun _ => ?_⟩
      rw [hdone rfl, hbefore.settings]
    · exact ⟨n, hall, by simp⟩
    · exact ⟨n, hall, by simp⟩

theorem play_emits (k : Nat) (s : Scheduler ι (Taped σ) γ) :
    ∃ n, s.Emits (play k s).1 n ∧
      ((play k s).2 = .done → n = k * s.settings.samplesPerTick.toNat) := by
  induction k generalizing s with
  | zero => exact ⟨0, .refl s, fun _ => (Nat.zero_mul _).symm⟩
  | succ k ih =>
    rw [play]
    split
    · exact ⟨0, .refl s, by simp⟩
    · obtain ⟨n, hemits, hdone⟩ := s.tick_emits
      rcases htick : s.tick with ⟨s', _ | reason | _⟩ <;> rw [htick] at hemits hdone
      · obtain ⟨m, hemits', hdone'⟩ := ih s'
        refine ⟨n + m, hemits.trans hemits', fun h => ?_⟩
        rw [hdone rfl, hdone' h, show s'.settings = s.settings from hemits.settings, Nat.succ_mul,
          Nat.add_comm]
      · exact ⟨n, hemits, by simp⟩
      · exact ⟨n, hemits, by simp⟩

/-! ### The clock of a performance -/

theorem now_tick {s s' : Scheduler ι σ γ} (h : s.tick = (s', .done)) : s'.now = s.now + 1 := by
  have hself : s.withPending s.pending = s := rfl
  have htick := tick_withPending s s.pending
  rw [hself, h] at htick
  cases hturn : s.turn (s.pending.filter s.isDue) with
  | none =>
    rw [hturn] at htick
    cases htick
  | some ended =>
    have hnow := now_turn hturn
    obtain ⟨s₁, _ | reason | _⟩ := ended <;> rw [hturn] at htick <;> cases htick
    exact congrArg (· + 1) hnow

theorem now_play {k : Nat} {s s' : Scheduler ι σ γ} (hroom : s.now.toInt + k ≤ Tick.unbounded.toInt)
    (h : play k s = (s', .done)) : s'.now.toInt = s.now.toInt + k := by
  induction k generalizing s with
  | zero =>
    cases h
    exact (Int.add_zero _).symm
  | succ k ih =>
    rw [play] at h
    split at h
    · cases h
    · rcases htick : s.tick with ⟨s₁, _ | reason | _⟩ <;> rw [htick] at h
      · have hnext : s₁.now.toInt = s.now.toInt + 1 := by
          rw [now_tick htick, Tick.toInt_succ (by omega)]
        rw [ih (by omega) h]
        omega
      · cases h
      · cases h

omit [Playable ι γ] [Sink σ] in
theorem ticksLeft_room (s : Scheduler ι σ γ) :
    s.now.toInt + s.ticksLeft ≤ Tick.unbounded.toInt := by
  have hfinish : s.finish.toInt ≤ Tick.unbounded.toInt := Int64.toInt_le _
  have hnow : s.now.toInt ≤ Tick.unbounded.toInt := Int64.toInt_le _
  rw [ticksLeft]
  omega

/-! ### Whole performances -/

theorem play_add (a b : Nat) (s : Scheduler ι σ γ) :
    play (a + b) s = match play a s with
      | (s', .done) => play b s'
      | ended => ended := by
  induction a generalizing s with
  | zero => rw [Nat.zero_add, play]
  | succ a ih =>
    rw [Nat.succ_add, play, play]
    split
    · rfl
    · rcases s.tick with ⟨s', _ | reason | _⟩
      · exact ih s'
      · rfl
      · rfl

theorem play_tape_grows {a b : Nat} (hle : a ≤ b) (s : Scheduler ι (Taped σ) γ) :
    (play a s).1.sink.tape <+: (play b s).1.sink.tape := by
  obtain ⟨k, rfl⟩ := Nat.exists_eq_add_of_le hle
  rw [play_add]
  rcases play a s with ⟨s', ending⟩
  cases ending with
  | done =>
    obtain ⟨n, hemits, -⟩ := play_emits k s'
    obtain ⟨cs, htape, -⟩ := hemits.tape
    exact ⟨cs, htape.symm⟩
  | cancelled => exact prefix_rfl
  | emitFailed tick reason => exact prefix_rfl
  | closeFailed reason => exact prefix_rfl
  | stuck => exact prefix_rfl

theorem run_tape (s : Scheduler ι (Taped σ) γ) :
    s.run.1.sink.tape = (play s.ticksLeft s).1.sink.tape ++ [.close] ∧
      s.run.1.now = (play s.ticksLeft s).1.now := by
  rw [run, close]
  rcases play s.ticksLeft s with ⟨s', ending⟩
  have hclose : (Sink.close s'.sink).1.tape = s'.sink.tape ++ [.close] := rfl
  rcases hclosed : Sink.close s'.sink with ⟨sink, _ | reason⟩ <;> rw [hclosed] at hclose <;>
    cases ending <;> exact ⟨hclose, rfl⟩

theorem run_frames (s : Scheduler ι (Taped σ) γ) :
    s.run.1.sink.frames = (play s.ticksLeft s).1.sink.frames := by
  rw [Taped.frames, s.run_tape.1]
  exact SinkCall.framesFrom_close ..

theorem run_closes (s : Scheduler ι (Taped σ) γ) : s.run.1.sink.closes = s.sink.closes + 1 := by
  obtain ⟨n, hemits, -⟩ := play_emits s.ticksLeft s
  rw [← hemits.closes_eq, Taped.closes, s.run_tape.1, count_append]
  rfl

end Scheduler

/-! ### Scores -/

namespace Feeder

variable {σ τ : Type}

/-- A feeder and its performance, with the sink seen through a function. -/
def Feeding.retarget (f : σ → τ) (x : Feeding σ) : Feeding τ := (x.1, x.2.retarget f id)

variable {f : σ → τ}

theorem scheduleAt_retarget (x : Feeding σ) (i : Instance) (time duration : Float) :
    scheduleAt (x.retarget f) i time duration = (scheduleAt x i time duration).retarget f := by
  obtain ⟨feeder, s⟩ := x
  simp only [scheduleAt, Feeding.retarget]
  split <;> rfl

theorem apply_retarget (r : Repertoire) (line : Nat) (x : Feeding σ) (c : Command) :
    apply r line (x.retarget f) c = (apply r line x c).map (.retarget f) := by
  obtain ⟨feeder, s⟩ := x
  simp only [apply, Feeding.retarget]
  cases c.kind with
  | finish => rfl
  | play name duration params =>
    dsimp only
    cases r.instantiate name with
    | refused e => rfl
    | stuck => rfl
    | made i =>
      dsimp only
      cases i.withParams? (params.map Number.narrow) with
      | none => rfl
      | some i' => exact congrArg some (scheduleAt_retarget (feeder, s) i' c.time duration)

theorem readLine_retarget (r : Repertoire) (n : Nat) (x : Feeding σ) (line : Text) :
    readLine r n (x.retarget f) line = (readLine r n x line).map (.retarget f) := by
  obtain ⟨feeder, s⟩ := x
  simp only [readLine]
  have hfile : (Feeding.retarget f (feeder, s)).1.file = feeder.file := rfl
  simp only [hfile]
  rcases Command.parse feeder.file n (trimLine line) with e | _ | c
  · rfl
  · rfl
  · exact apply_retarget r n (feeder, s) c

variable [Sink σ] [Sink τ]

theorem readLines_retarget (hf : Sink.Alike f) (r : Repertoire) (n : Nat) (x : Feeding σ)
    (ls : List Text) :
    readLines r n (x.retarget f) ls = (readLines r n x ls).map (.retarget f) id := by
  induction ls generalizing n x with
  | nil => rfl
  | cons line rest ih =>
    have hcancelled : Sink.isCancelled (x.retarget f).2.sink = Sink.isCancelled x.2.sink :=
      hf.isCancelled _
    rw [readLines, readLines, hcancelled, readLine_retarget]
    split
    · rfl
    · split
      · rfl
      · cases readLine r n x line with
        | none => rfl
        | some x' => exact ih (n + 1) x'

theorem feed_retarget (hf : Sink.Alike f) (r : Repertoire) (x : Feeding σ) (score : Source) :
    feed r (x.retarget f) score = (feed r x score).map (.retarget f) id := by
  rw [feed, feed, readLines_retarget hf]
  rcases readLines r 1 x (lines score.text) with ⟨⟨feeder, s⟩, _ | reason⟩
  · cases score.fault with
    | none =>
      simp only [Prod.map, id, Feeding.retarget, settleEnd]
      rcases feeder.sawEnd with _ | _ <;> rcases feeder.latest with _ | latest <;> rfl
    | some reason => rfl
  · rfl

end Feeder

namespace Played

variable {σ τ : Type}

/-- What playing a score leaves, with the sink seen through a function. -/
def map (f : σ → τ) (p : Played σ) : Played τ :=
  ⟨p.ending, p.config, f p.sink, p.scoreErrors, p.failures⟩

def ofFed (c : PlayConfig) (feeder : Feeder) (ending : PlayEnd)
    (s : Scheduler Instance σ) : Played σ :=
  ⟨ending, c, s.sink, feeder.errors.map .ofFeedError, s.failures⟩

/-- What a performance leaves that was fed but does not take place. -/
def abandoned [Sink σ] (c : PlayConfig) (feeder : Feeder) (ending : PlayEnd)
    (s : Scheduler Instance σ) : Played σ :=
  ofFed c feeder ending { s with sink := (Sink.close s.sink).1 }

theorem abandoned_retarget [Sink σ] [Sink τ] {f : σ → τ} (hf : Sink.Alike f) (c : PlayConfig)
    (feeder : Feeder) (ending : PlayEnd) (s : Scheduler Instance σ) :
    abandoned c feeder ending (s.retarget f id) = (abandoned c feeder ending s).map f := by
  simp only [abandoned, ofFed, map, Scheduler.retarget, hf.close]
  rfl

end Played

namespace Orchestra

variable {σ τ : Type} [Sink σ] [Sink τ] {f : σ → τ}

theorem perform_eq (o : Orchestra) (c : PlayConfig) (score : Feeder.Source) (sink : σ) :
    o.perform c score sink =
      match Feeder.feed o.repertoire ({ file := c.scoreName }, o.scheduler c sink) score with
      | ((feeder, s), some reason) => .abandoned c feeder (.feedStopped reason) s
      | ((feeder, s), none) =>
        if s.finish = Tick.unbounded then .abandoned c feeder .noEnd s
        else .ofFed c feeder (.run s.run.2) s.run.1 := by
  rw [perform]
  rcases Feeder.feed o.repertoire ({ file := c.scoreName }, o.scheduler c sink) score with
    ⟨⟨feeder, s⟩, _ | reason⟩ <;> rfl

theorem perform_map (hf : Sink.Alike f) (o : Orchestra) (c : PlayConfig) (score : Feeder.Source)
    (sink : σ) : o.perform c score (f sink) = (o.perform c score sink).map f := by
  have hfeed : Feeder.feed o.repertoire ({ file := c.scoreName }, o.scheduler c (f sink)) score =
      (Feeder.feed o.repertoire ({ file := c.scoreName }, o.scheduler c sink) score).map
        (.retarget f) id :=
    Feeder.feed_retarget hf o.repertoire ({ file := c.scoreName }, o.scheduler c sink) score
  rw [perform_eq, perform_eq, hfeed]
  rcases Feeder.feed o.repertoire ({ file := c.scoreName }, o.scheduler c sink) score with
    ⟨⟨feeder, s⟩, _ | reason⟩
  · change (if s.finish = Tick.unbounded then _ else Played.ofFed c feeder
      (.run (s.retarget f id).run.2) (s.retarget f id).run.1) = _
    rw [Scheduler.run_retarget hf]
    dsimp only
    split
    · exact Played.abandoned_retarget hf c feeder .noEnd s
    · rfl
  · exact Played.abandoned_retarget hf c feeder (.feedStopped reason) s

theorem play_map (hf : Sink.Alike f) (o : Orchestra) (c : PlayConfig) (score : Feeder.Source)
    (sink : σ) : o.play c score (f sink) = (o.play c score sink).map f := by
  simp only [play, hf.width]
  split
  next =>
    simp only [Played.map, hf.close]
    rfl
  next => exact perform_map hf o _ score sink

end Orchestra

namespace Feeder

variable {σ : Type}

theorem sink_scheduleAt (x : Feeding σ) (i : Instance) (time duration : Float) :
    (scheduleAt x i time duration).2.sink = x.2.sink := by
  simp only [scheduleAt]
  split <;> rfl

theorem sink_readLine {r : Repertoire} {n : Nat} {x x' : Feeding σ} {line : Text}
    (h : readLine r n x line = some x') : x'.2.sink = x.2.sink := by
  simp only [readLine] at h
  split at h
  · cases h
    rfl
  · cases h
    rfl
  next c _ =>
    simp only [apply] at h
    split at h
    · cases h
      rfl
    · split at h
      · cases h
        rfl
      · cases h
      · obtain ⟨i, -, h⟩ := Option.bind_eq_some_iff.1 h
        cases h
        exact sink_scheduleAt ..

variable [Sink σ]

theorem sink_readLines (r : Repertoire) (n : Nat) (x : Feeding σ) (ls : List Text) :
    (readLines r n x ls).1.2.sink = x.2.sink := by
  induction ls generalizing n x with
  | nil => rfl
  | cons line rest ih =>
    rw [readLines]
    split
    · rfl
    · split
      · rfl
      · cases hline : readLine r n x line with
        | none => rfl
        | some x' => exact (ih (n + 1) x').trans (sink_readLine hline)

theorem sink_feed (r : Repertoire) (x : Feeding σ) (score : Source) :
    (feed r x score).1.2.sink = x.2.sink := by
  have hlines := sink_readLines r 1 x (lines score.text)
  rw [feed]
  rcases hread : readLines r 1 x (lines score.text) with ⟨⟨feeder, s⟩, _ | reason⟩ <;>
    rw [hread] at hlines
  · cases score.fault with
    | none =>
      dsimp only [settleEnd]
      rcases feeder.sawEnd with _ | _ <;> rcases feeder.latest with _ | latest <;> exact hlines
    | some reason => exact hlines
  · exact hlines

end Feeder

theorem Orchestra.play_closes {σ : Type} [Sink σ] (o : Orchestra) (c : PlayConfig)
    (score : Feeder.Source) (sink : Taped σ) :
    (o.play c score sink).sink.closes = sink.closes + 1 := by
  have hclose (t : Taped σ) : (Sink.close t).1.closes = t.closes + 1 := count_append
  simp only [play]
  split
  · exact hclose sink
  · rw [perform_eq]
    have hfeed := Feeder.sink_feed o.repertoire
      ({ file := (c.withDefaults o.settings).scoreName },
        o.scheduler (c.withDefaults o.settings) sink) score
    rcases hfed : Feeder.feed o.repertoire ({ file := (c.withDefaults o.settings).scoreName },
        o.scheduler (c.withDefaults o.settings) sink) score with ⟨⟨feeder, s⟩, _ | reason⟩ <;>
      rw [hfed] at hfeed
    · have hsink : s.sink = sink := hfeed
      dsimp only
      split
      · exact (hclose s.sink).trans (by rw [hsink])
      · exact s.run_closes.trans (by rw [hsink])
    · have hsink : s.sink = sink := hfeed
      exact (hclose s.sink).trans (by rw [hsink])

end Orchestrion
