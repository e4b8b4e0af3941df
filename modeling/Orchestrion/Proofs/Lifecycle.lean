import Orchestrion.Proofs.Performance.Course
import Orchestrion.Proofs.Performance.Deeds
import Orchestrion.Proofs.Performance.Ready
import Orchestrion.Sound.Buffer

/-!
# Lifecycles

Whatever is asked of a scheduler, in whatever order, each instrument that is scheduled waits, plays
and is retired as its lifetime says: its init pass is called when it becomes due, its control pass
in each tick up to its end, and its audio pass in each frame of those ticks, until a pass fails.
Passes may change the lifetime of their own player.
-/

namespace Orchestrion

open List

/-! ### The order of calls in a tick -/

/-- The voices whose init pass was called, in the order of these calls. -/
def Turn.entered (turns : List Turn) : List Nat :=
  ((Turn.callsIn turns).filter (·.pass = .init)).map Call.voice

/-- A tick calls init passes, then control passes, and then audio passes frame by frame. The init
passes follow the order in which the voices were scheduled, and all other passes the order in which
the voices became active. -/
structure Turn.Ordered (n : Nat) (entered : List Nat) (turn : Turn) : Prop where
  phases : ∃ inits controls frames, turn.calls = inits ++ controls ++ List.flatten frames ∧
    (∀ c ∈ inits, c.pass = .init ∧ c.now = turn.time) ∧
    (∀ c ∈ controls, c.pass = .control ∧ c.now = turn.time) ∧
    (∀ frame ∈ frames, ∀ c ∈ frame, c.pass = .audio ∧ c.now = turn.time) ∧
    frames.length = n ∧
    (inits.map Call.voice).Pairwise (· < ·) ∧
    (controls.map Call.voice).Sublist (entered ++ inits.map Call.voice) ∧
    ∀ frame ∈ frames, (frame.map Call.voice).Sublist (controls.map Call.voice)

namespace Ensemble.Turns

variable {n : Nat} {t : Tick} {e e' : Ensemble} {inits controls : List Call}
  {frames : List (List Call)} {entered : List Nat}

variable (h : e.Turns n t inits controls frames e')

include h

theorem map_voice_inits : inits.map Call.voice = (e.due t).numbers := by
  obtain ⟨promoted, controlled, hinit, -⟩ := h.playing
  refine hinit.map_voice fun v hv => ?_
  obtain ⟨w, -, rfl⟩ := mem_map.1 hv
  rfl

theorem map_voice_controls : controls.map Call.voice = e'.playing.numbers := by
  obtain ⟨promoted, controlled, -, hcontrol, haudio⟩ := h.playing
  rw [haudio.numbers_eq, hcontrol.numbers_eq]
  refine hcontrol.map_voice fun v hv => ?_
  have halive := (mem_filter.1 hv).2
  simp_all [Status.isAlive]

theorem passes :
    (∀ c ∈ inits, c.pass = .init ∧ c.now = t) ∧ (∀ c ∈ controls, c.pass = .control ∧ c.now = t) ∧
      ∀ frame ∈ frames, ∀ c ∈ frame, c.pass = .audio ∧ c.now = t := by
  obtain ⟨promoted, controlled, hinit, hcontrol, haudio⟩ := h.playing
  exact ⟨hinit.forall_mem, hcontrol.forall_mem, fun frame hframe =>
    (haudio.forall_mem frame hframe).1⟩

theorem frames_sublist : ∀ frame ∈ frames, (frame.map Call.voice).Sublist e'.playing.numbers := by
  obtain ⟨promoted, controlled, -, -, haudio⟩ := h.playing
  rw [haudio.numbers_eq]
  exact fun frame hframe => (haudio.forall_mem frame hframe).2

theorem ordered (hsorted : e.awaited.Pairwise (· < ·))
    (hentered : e.playing.numbers.Sublist entered) :
    Turn.Ordered n entered ⟨t, inits ++ controls ++ frames.flatten⟩ := by
  obtain ⟨hinits, hcontrols, hframes⟩ := h.passes
  refine ⟨inits, controls, frames, rfl, hinits, hcontrols, hframes, ?_, ?_, ?_, ?_⟩
  · obtain ⟨_, _, -, -, haudio⟩ := h.playing
    exact haudio.length_eq
  · rw [h.map_voice_inits]
    exact hsorted.sublist (e.numbers_due_sublist t)
  · rw [h.map_voice_controls, h.map_voice_inits]
    exact h.playing_sublist.trans (hentered.append_right _)
  · rw [h.map_voice_controls]
    exact h.frames_sublist

theorem entered_append (turns : List Turn) :
    Turn.entered (turns ++ [⟨t, inits ++ controls ++ frames.flatten⟩]) =
      Turn.entered turns ++ inits.map Call.voice := by
  obtain ⟨hinits, hcontrols, hframes⟩ := h.passes
  have hinits' : inits.filter (·.pass = .init) = inits :=
    filter_eq_self.2 fun c hc => decide_eq_true (hinits c hc).1
  have hcontrols' : controls.filter (·.pass = .init) = [] :=
    filter_eq_nil_iff.2 fun c hc => by simp [(hcontrols c hc).1]
  have hframes' : frames.flatten.filter (·.pass = .init) = [] := by
    refine filter_eq_nil_iff.2 fun c hc => ?_
    obtain ⟨frame, hframe, hc⟩ := mem_flatten.1 hc
    simp [(hframes frame hframe c hc).1]
  simp [Turn.entered, Turn.callsIn, hinits', hcontrols', hframes']

theorem voice_mem : ∀ c ∈ inits ++ controls ++ frames.flatten, c.voice ∈ e.numbers := by
  have hmem : ∀ k ∈ e'.playing.numbers, k ∈ e.numbers :=
    fun k hk => h.subperm.subset (mem_append_right _ hk)
  intro c hc
  rcases mem_append.1 hc with hc | hc
  · rcases mem_append.1 hc with hc | hc
    · have hdue : c.voice ∈ (e.due t).numbers := h.map_voice_inits ▸ mem_map_of_mem hc
      exact mem_append_left _ ((e.numbers_due_sublist t).subset hdue)
    · exact hmem _ (h.map_voice_controls ▸ mem_map_of_mem hc)
  · obtain ⟨frame, hframe, hc⟩ := mem_flatten.1 hc
    exact hmem _ ((h.frames_sublist frame hframe).subset (mem_map_of_mem hc))

end Ensemble.Turns

/-! ### Sessions -/

theorem Playable.PassesEnd.heard {ι γ : Type} [Playable ι γ] {good : ι → Prop} {fit : γ → Prop}
    (h : Playable.PassesEnd good fit) :
    Playable.PassesEnd (fun i : Heard ι => good i.player) fun g : γ × List Deed => fit g.1 where
  lifetime i := h.lifetime i.player
  withLifetime i := h.withLifetime i.player
  ending i p host g := h.ending i.player p host g.1
  after i p host g := h.after i.player p host g.1
  store i p host g := h.store i.player p host g.1

theorem Scheduler.ensemble_schedule {ι σ γ : Type} [Playable ι γ] {good : ι → Prop} {fit : γ → Prop}
    (hends : Playable.PassesEnd good fit) {player : ι} (hplayer : good player)
    (s : HeardScheduler ι σ γ) (k : Nat) (life : Lifetime) :
    (s.schedule ⟨k, player⟩ life).ensemble =
      ⟨s.ensemble.waiting ++ [(k, life)], s.ensemble.playing⟩ := by
  have hlife : Playable.lifetime (Playable.withLifetime (⟨k, player⟩ : Heard ι) life) = life :=
    hends.lifetime player life hplayer
  rw [ensemble, schedule, map_append, map_singleton, hlife]
  rfl

/-- An instrument that was scheduled. -/
structure Arrival where
  /-- The lifetime that it was given. -/
  life : Lifetime
  /-- The number of ticks before it was scheduled. -/
  turns : Nat
deriving DecidableEq, Repr

/-- A performance, what was scheduled in it and what its ticks have called. Voices have the number
of their arrival. -/
structure Session (ι σ γ : Type) where
  scheduler : HeardScheduler ι σ γ
  arrivals : List Arrival := []
  turns : List Turn := []

namespace Session

variable {ι σ γ : Type} [Playable ι γ] [Sink σ]

/-- A session in which nothing has happened. -/
def fresh (settings : Settings) (sink : σ) (store : γ) : Session ι σ γ :=
  { scheduler := { settings, sink, store := (store, []) } }

/-- The session after an action. -/
def apply (s : Session ι σ γ) : Scheduler.Action ι → Session ι σ γ
  | .schedule player life =>
    { s with
      scheduler := s.scheduler.schedule ⟨s.arrivals.length, player⟩ life
      arrivals := s.arrivals ++ [⟨life, s.turns.length⟩] }
  | .finishAt t => { s with scheduler := { s.scheduler with finish := t } }
  | .tick =>
    let scheduler := s.scheduler.tick.1
    { s with
      scheduler
      turns := s.turns ++ [⟨s.scheduler.now,
        (scheduler.deeds.drop s.scheduler.deeds.length).map Deed.call⟩] }

def performance (s : Session ι σ γ) : Scheduler ι σ γ := s.scheduler.map Heard.player Prod.fst

theorem performance_apply (s : Session ι σ γ) (action : Scheduler.Action ι) :
    (s.apply action).performance = s.performance.apply action := by
  cases action with
  | schedule player life => exact (Scheduler.schedule_map Heard.alike s.scheduler _ life).symm
  | finishAt => rfl
  | tick => exact (congrArg Prod.fst (Scheduler.tick_map Heard.alike s.scheduler)).symm

/-- What was called of a voice in the ticks since it was scheduled. -/
def since (s : Session ι σ γ) (k : Nat) (a : Arrival) : List Turn :=
  (s.turns.drop a.turns).map (.of k)

/-- How a voice has lived: it was not called before it was scheduled, and has since come to a stage
that is that of its place in the performance. -/
structure Lives (s : Session ι σ γ) (n k : Nat) (a : Arrival) : Prop where
  arrival : a.turns ≤ s.turns.length
  early : ∀ turn ∈ s.turns.take a.turns, callsOf k turn.calls = []
  course : ∃ stage, s.scheduler.ensemble.Places k stage ∧
    Course k n (.waiting a.life) (s.since k a) stage

/-- What holds in all sessions of good players. -/
structure Sound (n : Nat) (good : ι → Prop) (fit : γ → Prop) (s : Session ι σ γ) : Prop where
  frames : s.scheduler.settings.samplesPerTick.toNat = n
  holds : s.scheduler.Ready (fun i => good i.player) fun g => fit g.1
  /-- No voice has two places. -/
  nodup : s.scheduler.ensemble.numbers.Nodup
  known : ∀ k ∈ s.scheduler.ensemble.numbers, k < s.arrivals.length
  called : ∀ turn ∈ s.turns, ∀ c ∈ turn.calls, c.voice < s.arrivals.length
  /-- Voices wait in the order of their arrival. -/
  sorted : s.scheduler.ensemble.awaited.Pairwise (· < ·)
  /-- Voices play in the order in which they became active. -/
  entered : s.scheduler.ensemble.playing.numbers.Sublist (Turn.entered s.turns)
  lives : ∀ k a, s.arrivals[k]? = some a → s.Lives n k a
  ordered : ∀ before turn after, s.turns = before ++ turn :: after →
    turn.Ordered n (Turn.entered before)

namespace Sound

variable {n : Nat} {good : ι → Prop} {fit : γ → Prop} {s : Session ι σ γ}

omit [Sink σ] in
theorem fresh (n : Nat) {settings : Settings} (hframes : settings.samplesPerTick.toNat = n)
    (sink : σ) {store : γ} (hstore : fit store) :
    (Session.fresh settings sink store : Session ι σ γ).Sound n good fit where
  frames := hframes
  holds := ⟨forall_mem_nil _, forall_mem_nil _, hstore⟩
  nodup := nodup_nil
  known := forall_mem_nil _
  called := forall_mem_nil _
  sorted := .nil
  entered := .slnil
  lives _ _ h := nomatch h
  ordered before turn after h := by simp [Session.fresh] at h

theorem schedule (h : s.Sound n good fit) (hends : Playable.PassesEnd good fit) {player : ι}
    (hplayer : good player) (life : Lifetime) :
    (s.apply (.schedule player life)).Sound n good fit := by
  set e := s.scheduler.ensemble with he
  -- The new voice waits last, and its number is above all others.
  have hensemble : (s.apply (.schedule player life)).scheduler.ensemble =
      ⟨e.waiting ++ [(s.arrivals.length, life)], e.playing⟩ :=
    Scheduler.ensemble_schedule hends hplayer s.scheduler _ life
  have hawaited : (⟨e.waiting ++ [(s.arrivals.length, life)], e.playing⟩ : Ensemble).awaited =
      e.awaited ++ [s.arrivals.length] := map_append
  have hnumbers : ((⟨e.waiting ++ [(s.arrivals.length, life)], e.playing⟩ : Ensemble).numbers).Perm
      (s.arrivals.length :: e.numbers) := by
    rw [Ensemble.numbers, hawaited, append_assoc]
    exact perm_middle
  have hlength : (s.apply (.schedule player life)).arrivals.length = s.arrivals.length + 1 :=
    length_append
  have hnew : s.arrivals.length ∉ e.numbers := fun hmem => Nat.lt_irrefl _ (h.known _ hmem)
  refine ⟨h.frames, ⟨?_, h.holds.active, h.holds.store⟩, ?_, ?_, ?_, ?_, ?_, ?_, h.ordered⟩
  · refine forall_mem_append.2 ⟨h.holds.pending, forall_mem_singleton.2 ?_⟩
    exact hends.withLifetime player life hplayer
  · rw [hensemble]
    exact hnumbers.nodup_iff.2 (nodup_cons.2 ⟨hnew, h.nodup⟩)
  · rw [hensemble, hlength]
    intro k hk
    rcases mem_cons.1 (hnumbers.subset hk) with rfl | hk
    · exact Nat.lt_succ_self _
    · exact Nat.lt_succ_of_lt (h.known k hk)
  · rw [hlength]
    exact fun turn hturn c hc => Nat.lt_succ_of_lt (h.called turn hturn c hc)
  · rw [hensemble, hawaited]
    refine pairwise_append.2 ⟨h.sorted, pairwise_singleton .., fun k hk j hj => ?_⟩
    rw [mem_singleton.1 hj]
    exact h.known k (mem_append_left _ hk)
  · rw [hensemble]
    exact h.entered
  · intro k a ha
    rw [show (s.apply (.schedule player life)).arrivals = s.arrivals ++ [_] from rfl] at ha
    rcases Nat.lt_or_ge k s.arrivals.length with hk | hk
    · -- An earlier voice stands where it stood.
      rw [getElem?_append_left hk] at ha
      obtain ⟨harrival, hearly, stage, hplace, hcourse⟩ := h.lives k a ha
      refine ⟨harrival, hearly, stage, ?_, hcourse⟩
      have hmem (hk' : k ∈ e.awaited ++ [s.arrivals.length]) : k ∈ e.awaited :=
        (mem_append.1 hk').resolve_right fun heq => Nat.ne_of_lt hk (mem_singleton.1 heq)
      rw [hensemble]
      cases stage with
      | waiting => exact ⟨mem_append_left _ hplace.1, hplace.2⟩
      | playing | retired => exact ⟨fun hk' => hplace.1 (hmem (hawaited ▸ hk')), hplace.2⟩
    · obtain ⟨rfl, rfl⟩ : k = s.arrivals.length ∧ a = ⟨life, s.turns.length⟩ := by
        rw [getElem?_append_right hk, getElem?_singleton] at ha
        split at ha
        · exact ⟨by omega, (Option.some.inj ha).symm⟩
        · cases ha
      refine ⟨Nat.le_refl _, fun turn hturn => ?_, .waiting life, ?_, ?_⟩
      · refine filter_eq_nil_iff.2 fun c hc hvoice => ?_
        have hlt := h.called turn (mem_of_mem_take hturn) c hc
        exact Nat.ne_of_lt hlt (of_decide_eq_true hvoice)
      · rw [hensemble]
        exact ⟨mem_concat_self, fun hk' => hnew (mem_append_right _ hk')⟩
      · have hsince : (s.apply (.schedule player life)).since s.arrivals.length
            ⟨life, s.turns.length⟩ = [] :=
          congrArg (List.map _) drop_length
        rw [hsince]
        exact .nil _

theorem tick (h : s.Sound n good fit) (hends : Playable.PassesEnd good fit)
    (hemit : ∀ sink : σ, (Sink.emit sink).2 = none) : (s.apply .tick).Sound n good fit := by
  obtain ⟨s', htick, hholds⟩ := Scheduler.tick_done hends.heard hemit h.holds
  obtain ⟨d, hsettings, -, hdeeds, -, hturns⟩ := Scheduler.tick_does htick
  rw [h.frames] at hturns
  have happly : s.apply .tick = ⟨s', s.arrivals, s.turns ++ [⟨s.scheduler.now,
      d.inits.map Deed.call ++ d.controls.map Deed.call ++
        (d.frames.map (List.map Deed.call)).flatten⟩]⟩ := by
    simp only [apply, htick, hdeeds, drop_left, TurnDeeds.all, map_append,
      map_flatten]
  rw [happly]
  refine ⟨?_, hholds, ?_, ?_, ?_, ?_, ?_, ?_, ?_⟩
  · rw [hsettings, h.frames]
  · obtain ⟨l, hperm, hsublist⟩ := hturns.subperm
    exact hperm.nodup_iff.1 (h.nodup.sublist hsublist)
  · exact fun k hk => h.known k (hturns.subperm.subset hk)
  · refine forall_mem_append.2 ⟨h.called, forall_mem_singleton.2 fun c hc => ?_⟩
    exact h.known _ (hturns.voice_mem c hc)
  · exact h.sorted.sublist hturns.awaited_sublist
  · rw [hturns.entered_append, hturns.map_voice_inits]
    exact hturns.playing_sublist.trans (h.entered.append_right _)
  · intro k a ha
    obtain ⟨harrival, hearly, stage, hplace, hcourse⟩ := h.lives k a ha
    obtain ⟨stage', hadvances, hplace'⟩ := hturns.advances h.nodup hplace
    refine ⟨?_, ?_, stage', hplace', ?_⟩
    · exact Nat.le_trans harrival (by simp)
    · rw [take_append_of_le_length harrival]
      exact hearly
    · rw [since, drop_append_of_le_length harrival, map_append]
      exact hcourse.append (.cons hadvances (.nil stage'))
  · intro before turn after hsplit
    -- The turn is the new one, or it had its order before.
    rcases eq_nil_or_concat after with rfl | ⟨after, last, rfl⟩
    · obtain ⟨rfl, hturn⟩ := append_inj' hsplit rfl
      cases hturn
      exact hturns.ordered h.sorted h.entered
    · rw [concat_eq_append, ← cons_append, ← append_assoc] at hsplit
      exact h.ordered before turn after (append_inj_left' hsplit rfl)

theorem apply (h : s.Sound n good fit) (hends : Playable.PassesEnd good fit)
    (hemit : ∀ sink : σ, (Sink.emit sink).2 = none) {action : Scheduler.Action ι}
    (haction : ∀ player life, action = .schedule player life → good player) :
    (s.apply action).Sound n good fit := by
  cases action with
  | schedule player life => exact h.schedule hends (haction player life rfl) life
  | finishAt =>
    exact ⟨h.frames, ⟨h.holds.pending, h.holds.active, h.holds.store⟩, h.nodup, h.known, h.called,
      h.sorted, h.entered, fun k a ha => ⟨(h.lives k a ha).arrival, (h.lives k a ha).early,
        (h.lives k a ha).course⟩, h.ordered⟩
  | tick => exact h.tick hends hemit

theorem foldl (h : s.Sound n good fit) (hends : Playable.PassesEnd good fit)
    (hemit : ∀ sink : σ, (Sink.emit sink).2 = none) {actions : List (Scheduler.Action ι)}
    (hactions : ∀ player life, .schedule player life ∈ actions → good player) :
    (actions.foldl Session.apply s).Sound n good fit := by
  induction actions generalizing s with
  | nil => exact h
  | cons action actions ih =>
    refine ih (h.apply hends hemit fun player life heq => ?_) fun player life hmem => ?_
    · exact hactions player life (heq ▸ mem_cons_self)
    · exact hactions player life (mem_cons_of_mem _ hmem)

end Sound

theorem performance_foldl (s : Session ι σ γ) (actions : List (Scheduler.Action ι)) :
    (actions.foldl apply s).performance = actions.foldl Scheduler.apply s.performance := by
  induction actions generalizing s with
  | nil => rfl
  | cons action actions ih => rw [foldl_cons, ih, performance_apply, foldl_cons]

/-- How the voices of a session live. Whatever was asked of a scheduler, in whatever order, if its
sink takes every frame and the passes of its players end:

* each voice that was scheduled waits, plays or is retired, and it does one of these only and has
one place only;
* it was not called before it was scheduled, and since then as its lifetime says (`Lifecycle`); its
  stage is what these calls make it (`Stage.Follows`);
* the calls of each tick are in order (`Turn.Ordered`). -/
theorem voices_live {good : ι → Prop} {fit : γ → Prop} (hends : Playable.PassesEnd good fit)
    (hemit : ∀ sink : σ, (Sink.emit sink).2 = none) (settings : Settings)
    (hkrate : 1 ≤ settings.krate) (sink : σ) (store : γ) (hstore : fit store)
    (actions : List (Scheduler.Action ι))
    (hactions : ∀ player life, .schedule player life ∈ actions → good player) :
    let s := actions.foldl apply (fresh settings sink store)
    let n := (settings.srate / settings.krate).toNat
    s.performance = actions.foldl Scheduler.apply { settings, sink, store } ∧
    s.scheduler.ensemble.numbers.Nodup ∧
    (∀ k ∈ s.scheduler.ensemble.numbers, k < s.arrivals.length) ∧
    (∀ k a, s.arrivals[k]? = some a →
      (∃! stage, s.scheduler.ensemble.Places k stage) ∧
      (∀ turn ∈ s.turns.take a.turns, callsOf k turn.calls = []) ∧
      Lifecycle n a.life (s.since k a) ∧
      ∀ stage, s.scheduler.ensemble.Places k stage → stage.Follows a.life (s.since k a)) ∧
    ∀ before turn after, s.turns = before ++ turn :: after →
      turn.Ordered n (Turn.entered before) := by
  intro s n
  have hsound : s.Sound n good fit :=
    (Sound.fresh n (Settings.samplesPerTick_toNat hkrate) sink hstore).foldl hends hemit hactions
  refine ⟨performance_foldl .., hsound.nodup, hsound.known, fun k a ha => ?_, hsound.ordered⟩
  obtain ⟨-, hearly, stage, hplace, hcourse⟩ := hsound.lives k a ha
  have hunique : ∀ stage', s.scheduler.ensemble.Places k stage' → stage' = stage :=
    fun _ hplace' => hplace'.unique hsound.nodup hplace
  refine ⟨⟨stage, hplace, hunique⟩, hearly, hcourse.lifecycle, fun stage' hplace' => ?_⟩
  rw [hunique stage' hplace']
  exact hcourse.follows

end Session

/-- A player that sounds for a tick longer than it is told, and whose audio pass fails at tick 2. -/
structure Chime where
  life : Lifetime

instance : Playable Chime Unit where
  lifetime := Chime.life
  withLifetime _ l := ⟨l⟩
  pass i pass h _ :=
    match pass with
    | .init => ⟨⟨i.life.extend 1⟩, (), [], .finished⟩
    | .control => ⟨i, (), [], .finished⟩
    | .audio =>
      if h.now = 2 then ⟨i, (), [], .failed ⟨"chime", .audio, .index 2 "bell" 1⟩⟩
      else ⟨i, (), [.all 1], .finished⟩

theorem Chime.passesEnd : Playable.PassesEnd (fun _ : Chime => True) fun _ : Unit => True where
  lifetime _ _ _ := rfl
  withLifetime _ _ _ := trivial
  ending i pass h _ _ _ := by
    cases pass with
    | init => nofun
    | control => nofun
    | audio =>
      simp only [Playable.pass]
      split <;> nofun
  after _ _ _ _ _ _ := trivial
  store _ _ _ _ _ _ := trivial

/-- Two chimes enter in one tick. The end of the second passes first, and then the first fails. -/
theorem Session.voices_live_chimes :
    let actions : List (Scheduler.Action Chime) :=
      [.schedule ⟨{}⟩ ⟨1, 1⟩, .tick, .schedule ⟨{}⟩ ⟨0, 0⟩, .tick, .tick, .finishAt 3, .tick]
    let s : Session Chime Buffer Unit :=
      actions.foldl apply (fresh { srate := 2, krate := 1 } (.ofChannels 1) ())
    s.arrivals = [⟨⟨1, 1⟩, 0⟩, ⟨⟨0, 0⟩, 1⟩] ∧
    s.turns.map (fun turn => turn.calls.map fun c => (c.voice, c.pass)) =
      [[], [(0, .init), (1, .init), (0, .control), (1, .control),
          (0, .audio), (1, .audio), (0, .audio), (1, .audio)],
        [(0, .control), (0, .audio)], []] ∧
    Lifecycle 2 ⟨1, 1⟩ (s.since 0 ⟨⟨1, 1⟩, 0⟩) ∧ Lifecycle 2 ⟨0, 0⟩ (s.since 1 ⟨⟨0, 0⟩, 1⟩) := by
  intro actions s
  have harrivals : s.arrivals = [⟨⟨1, 1⟩, 0⟩, ⟨⟨0, 0⟩, 1⟩] := by decide +kernel
  obtain ⟨-, -, -, hlives, -⟩ := voices_live Chime.passesEnd (fun _ => rfl)
    { srate := 2, krate := 1 } (by decide) (Buffer.ofChannels 1) () trivial actions
    fun _ _ _ => trivial
  refine ⟨harrivals, by decide +kernel, (hlives 0 ⟨⟨1, 1⟩, 0⟩ ?_).2.2.1,
    (hlives 1 ⟨⟨0, 0⟩, 1⟩ ?_).2.2.1⟩
  · exact congrArg (·[0]?) harrivals
  · exact congrArg (·[1]?) harrivals

end Orchestrion
