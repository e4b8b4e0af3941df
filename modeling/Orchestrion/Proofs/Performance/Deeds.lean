import Orchestrion.Proofs.Performance.Calls

/-!
# Deeds of voices

What a voice does is the sequence of its passes, each with the tick that it was told, the sounds
that it added to the frame, the lifetime that it left and how it ended. To say what voices do, the
players are numbered and a record of their deeds is made part of what they share. Listening to the
voices in this way changes nothing about the performance.
-/

namespace Orchestrion

open List

/-- A pass of a voice. -/
structure Deed where
  /-- The number of the voice. -/
  voice : Nat
  pass : Pass
  /-- The tick that the pass was told. -/
  now : Tick
  /-- What was added to the frame, in order. -/
  sounds : List Sound
  /-- The lifetime of the voice afterwards. -/
  life : Lifetime
  ending : PassEnd
deriving DecidableEq, Repr

def Deed.call (d : Deed) : Call := ⟨d.voice, d.pass, d.now, ⟨d.life, d.ending ≠ .finished⟩⟩

/-- What some deeds add to the frame. -/
def Deed.soundsOf (ds : List Deed) : List Sound := ds.flatMap Deed.sounds

def deedsOf (k : Nat) (ds : List Deed) : List Deed := ds.filter (·.voice = k)

@[simp]
theorem deedsOf_nil (k : Nat) : deedsOf k [] = [] := rfl

@[simp]
theorem deedsOf_append (k : Nat) (ds es : List Deed) :
    deedsOf k (ds ++ es) = deedsOf k ds ++ deedsOf k es := filter_append ..

/-- What the voices do in a tick. -/
structure TurnDeeds where
  /-- The init passes of the voices that become active. -/
  inits : List Deed
  /-- The control passes. -/
  controls : List Deed
  /-- The audio passes of each frame. -/
  frames : List (List Deed)

/-- All deeds of a tick, one after the other. -/
def TurnDeeds.all (d : TurnDeeds) : List Deed := d.inits ++ d.controls ++ d.frames.flatten

/-- The deeds of ticks one after the other: each tick is a turn of the ensemble. -/
inductive Ensemble.Performs (frames : Nat) : Ensemble → Tick → List TurnDeeds → Ensemble → Prop
  | nil (e : Ensemble) (t : Tick) : Performs frames e t [] e
  | cons {t : Tick} {e e' e'' : Ensemble} {d : TurnDeeds} {ds : List TurnDeeds}
      (head : e.Turns frames t (d.inits.map Deed.call) (d.controls.map Deed.call)
        (d.frames.map (List.map Deed.call)) e')
      (tail : Performs frames e' (t + 1) ds e'') : Performs frames e t (d :: ds) e''

/-- A player with a number whose deeds are recorded. -/
structure Heard (ι : Type) where
  number : Nat
  player : ι

/-- A scheduler that records the deeds of its players. -/
abbrev HeardScheduler (ι σ γ : Type) : Type := Scheduler (Heard ι) σ (γ × List Deed)

section Heard

variable {ι σ γ : Type} [Playable ι γ]

def Heard.deed (i : Heard ι) (pass : Pass) (h : Host) (passed : Passed ι γ) : Deed :=
  ⟨i.number, pass, h.now, passed.sounds, Playable.lifetime passed.after, passed.ending⟩

instance : Playable (Heard ι) (γ × List Deed) where
  lifetime i := Playable.lifetime i.player
  withLifetime i l := { i with player := Playable.withLifetime i.player l }
  pass i pass h g :=
    let passed := Playable.pass i.player pass h g.1
    ⟨{ i with player := passed.after }, (passed.store, g.2 ++ [i.deed pass h passed]),
      passed.sounds, passed.ending⟩

theorem Heard.alike : Playable.Alike (Heard.player : Heard ι → ι)
    (Prod.fst : γ × List Deed → γ) := ⟨fun _ => rfl, fun _ _ => rfl, fun _ _ _ _ => rfl⟩

def Voice.standing (v : Voice (Heard ι)) : Nat × Status :=
  (v.player.number, ⟨Playable.lifetime v.player, v.failed⟩)

def Voice.afterPass (v : Voice (Heard ι)) (passed : Passed ι γ) : Voice (Heard ι) :=
  ⟨⟨v.player.number, passed.after⟩, passed.ending ≠ .finished⟩

namespace Scheduler

def ensemble (s : HeardScheduler ι σ γ) : Ensemble :=
  ⟨s.pending.map fun i => (i.number, Playable.lifetime i), s.active.map Voice.standing⟩

omit [Playable ι γ] in
/-- What the voices of a scheduler have done so far. -/
def deeds (s : HeardScheduler ι σ γ) : List Deed := s.store.2

variable [Sink σ]

/-- Voices have done something, and nothing else has happened but that the voices changed and their
sounds were added to the sink. -/
structure Does (s s' : HeardScheduler ι σ γ) (ds : List Deed) : Prop where
  settings : s'.settings = s.settings
  now : s'.now = s.now
  pending : s'.pending = s.pending
  deeds : s'.deeds = s.deeds ++ ds
  sink : s'.sink = (Deed.soundsOf ds).foldl Sink.add s.sink

section Does

variable {s s' s'' : HeardScheduler ι σ γ} {ds es : List Deed}

omit [Playable ι γ]

theorem Does.refl (s : HeardScheduler ι σ γ) : s.Does s [] :=
  ⟨rfl, rfl, rfl, (append_nil _).symm, rfl⟩

theorem Does.trans (h : s.Does s' ds) (h' : s'.Does s'' es) : s.Does s'' (ds ++ es) := by
  refine ⟨h'.settings.trans h.settings, h'.now.trans h.now, h'.pending.trans h.pending, ?_, ?_⟩
  · rw [h'.deeds, h.deeds, append_assoc]
  · rw [h'.sink, h.sink, Deed.soundsOf, Deed.soundsOf, Deed.soundsOf, flatMap_append,
      foldl_append]

theorem Does.host (h : s.Does s' ds) : s'.host = s.host := by
  rw [Scheduler.host, Scheduler.host, h.settings, h.now]

theorem Does.grows (h : s.Does s' ds) : s.deeds <+: s'.deeds := ⟨ds, h.deeds.symm⟩

end Does

variable {pass : Pass} {v v' : Voice (Heard ι)} {vs vs' : List (Voice (Heard ι))}
  {s s' : HeardScheduler ι σ γ}

/-! ### One pass -/

theorem playVoice_of_passed (s : HeardScheduler ι σ γ) (hv : v.failed = false)
    {passed : Passed ι γ} (hpassed : Playable.pass v.player.player pass s.host s.store.1 = passed)
    (hending : passed.ending ≠ .stuck) :
    ∃ s', s.playVoice pass v = some (v.afterPass passed, s') ∧
      s.Does s' [v.player.deed pass s.host passed] ∧ s'.active = s.active := by
  have hplay : s.playVoice pass v =
      s.receive pass ⟨⟨v.player.number, passed.after⟩,
        (passed.store, s.deeds ++ [v.player.deed pass s.host passed]), passed.sounds,
        passed.ending⟩ := by
    subst hpassed
    unfold playVoice
    rw [hv]
    rfl
  rw [hplay]
  obtain ⟨after, store, sounds, ending⟩ := passed
  have hsink (sink : σ) : sounds.foldl Sink.add sink =
      (Deed.soundsOf [v.player.deed pass s.host ⟨after, store, sounds, ending⟩]).foldl Sink.add
        sink := by
    simp [Deed.soundsOf, Heard.deed]
  cases ending with
  | finished | failed => exact ⟨_, rfl, ⟨rfl, rfl, rfl, rfl, hsink _⟩, rfl⟩
  | stuck => exact absurd rfl hending

theorem playVoice_cases (hplay : s.playVoice pass v = some (v', s')) :
    (v.failed = true ∧ v' = v ∧ s' = s) ∨
      ∃ passed, v.failed = false ∧
        Playable.pass v.player.player pass s.host s.store.1 = passed ∧ passed.ending ≠ .stuck ∧
        v' = v.afterPass passed ∧ s.Does s' [v.player.deed pass s.host passed] ∧
        s'.active = s.active := by
  cases hv : v.failed with
  | true =>
    rw [playVoice, hv] at hplay
    cases hplay
    exact .inl ⟨rfl, rfl, rfl⟩
  | false =>
    right
    generalize hpassed : Playable.pass v.player.player pass s.host s.store.1 = passed
    -- There is no way on from a pass that is stuck, but the voice was played.
    have hending : passed.ending ≠ .stuck := by
      intro hstuck
      have hnone : s.playVoice pass v = none := by
        have hending' : (Playable.pass v.player pass s.host s.store).ending = .stuck := by
          rw [← hstuck, ← hpassed]
          rfl
        rw [playVoice, hv, if_neg Bool.false_ne_true, receive, hending']
      rw [hnone] at hplay
      cases hplay
    obtain ⟨s₁, hplay₁, hdoes, hactive⟩ := s.playVoice_of_passed hv hpassed hending
    rw [hplay] at hplay₁
    cases hplay₁
    exact ⟨passed, rfl, rfl, hending, rfl, hdoes, hactive⟩

theorem playVoice_does (hplay : s.playVoice pass v = some (v', s')) :
    ∃ ds, s.Does s' ds ∧ s'.active = s.active ∧ v'.player.number = v.player.number ∧
      v.standing.2.Passes v.player.number pass s.now (ds.map Deed.call) v'.standing.2 := by
  rcases playVoice_cases hplay with ⟨hv, rfl, rfl⟩ | ⟨passed, hv, -, -, rfl, hdoes, hactive⟩
  · exact ⟨[], .refl _, rfl, rfl, .silent hv⟩
  · exact ⟨_, hdoes, hactive, rfl, .call _ hv⟩

/-! ### A pass of all voices -/

theorem playVoices_does (hplays : playVoices pass vs s = some (vs', s')) :
    ∃ ds, s.Does s' ds ∧ s'.active = s.active ∧
      Roster.Passes pass s.now (vs.map Voice.standing) (ds.map Deed.call)
        (vs'.map Voice.standing) := by
  induction vs generalizing s vs' with
  | nil =>
    cases hplays
    exact ⟨[], .refl _, rfl, .nil⟩
  | cons v vs ih =>
    obtain ⟨⟨v₁, s₁⟩, hplay, hplays⟩ := Option.bind_eq_some_iff.1 hplays
    obtain ⟨⟨vs₁, s₂⟩, hplays, hsome⟩ := Option.bind_eq_some_iff.1 hplays
    cases hsome
    obtain ⟨ds, hdoes, hactive, hnumber, hpasses⟩ := playVoice_does hplay
    obtain ⟨es, hdoes', hactive', hpasses'⟩ := ih hplays
    refine ⟨ds ++ es, hdoes.trans hdoes', hactive'.trans hactive, ?_⟩
    have hstanding : v₁.standing = (v.player.number, v₁.standing.2) := Prod.ext hnumber rfl
    rw [hdoes.now] at hpasses'
    rw [map_append, map_cons, map_cons, hstanding]
    exact .cons hpasses hpasses'

theorem playActive_does (hplay : playActive pass s = some s') :
    ∃ ds, s.Does s' ds ∧
      Roster.Passes pass s.now s.ensemble.playing (ds.map Deed.call) s'.ensemble.playing := by
  obtain ⟨⟨vs, s₁⟩, hplays, hsome⟩ := Option.bind_eq_some_iff.1 hplay
  cases hsome
  obtain ⟨ds, hdoes, -, hpasses⟩ := playVoices_does hplays
  exact ⟨ds, ⟨hdoes.settings, hdoes.now, hdoes.pending, hdoes.deeds, hdoes.sink⟩, hpasses⟩

omit [Sink σ] in
theorem due_standing (s : HeardScheduler ι σ γ) :
    s.due.map Voice.standing = s.ensemble.due s.now := by
  rw [due, Ensemble.due, ensemble, filter_map, map_map, map_map]
  rfl

theorem promote_does (hpromote : s.promote = some s') :
    ∃ ds promoted, s.withoutDue.Does s' ds ∧
      Roster.Passes .init s.now (s.ensemble.due s.now) (ds.map Deed.call) promoted ∧
      s'.ensemble.playing = s.ensemble.playing ++ promoted := by
  obtain ⟨⟨vs, s₁⟩, hplays, hsome⟩ := Option.bind_eq_some_iff.1 hpromote
  cases hsome
  obtain ⟨ds, hdoes, hactive, hpasses⟩ := playVoices_does hplays
  refine ⟨ds, vs.map Voice.standing,
    ⟨hdoes.settings, hdoes.now, hdoes.pending, hdoes.deeds, hdoes.sink⟩, ?_, ?_⟩
  · rw [← due_standing]
    exact hpasses
  · change (s₁.active ++ vs).map Voice.standing = _
    rw [hactive, map_append]
    rfl

omit [Sink σ] in
theorem ensemble_retire (s : HeardScheduler ι σ γ) :
    s.retire.ensemble.playing = s.ensemble.playing.filter fun v => v.2.isAlive s.now := by
  rw [ensemble, ensemble, filter_map]
  rfl

/-! ### Frames -/

omit [Playable ι γ] in
/-- The sink after a frame: it is cleared, takes the sounds of the frame and emits them. -/
def afterFrame (sink : σ) (ds : List Deed) : σ :=
  (Sink.emit ((Deed.soundsOf ds).foldl Sink.add (Sink.clear sink))).1

theorem playFrame_cases (s : HeardScheduler ι σ γ) :
    s.playFrame = (s, .stuck) ∨ ∃ s' ending,
      playActive .audio { s with sink := Sink.clear s.sink } = some s' ∧ ending ≠ .stuck ∧
      s.playFrame = ({ s' with sink := (Sink.emit s'.sink).1 }, ending) ∧
      (ending = .done ↔ (Sink.emit s'.sink).2 = none) := by
  unfold playFrame
  cases playActive .audio { s with sink := Sink.clear s.sink } with
  | none => exact .inl rfl
  | some s' =>
    right
    rcases hemit : Sink.emit s'.sink with ⟨sink, _ | reason⟩
    · exact ⟨s', .done, rfl, nofun, by simp [hemit], by simp [hemit]⟩
    · exact ⟨s', .emitFailed reason, rfl, nofun, by simp [hemit], by simp [hemit]⟩

theorem playFrame_does (hframe : s.playFrame = (s', .done)) :
    ∃ ds, s'.settings = s.settings ∧ s'.now = s.now ∧ s'.pending = s.pending ∧
      s'.deeds = s.deeds ++ ds ∧ s'.sink = afterFrame s.sink ds ∧
      Roster.Passes .audio s.now s.ensemble.playing (ds.map Deed.call) s'.ensemble.playing := by
  rcases s.playFrame_cases with hstuck | ⟨s₁, ending, hplay, -, heq, -⟩
  · rw [hstuck] at hframe
    cases hframe
  · rw [heq] at hframe
    cases hframe
    obtain ⟨ds, hdoes, hpasses⟩ := playActive_does hplay
    refine ⟨ds, hdoes.settings, hdoes.now, hdoes.pending, hdoes.deeds, ?_, hpasses⟩
    rw [afterFrame, ← hdoes.sink]

theorem playFrames_does {n : Nat} (hframes : playFrames n s = (s', .done)) :
    ∃ frames : List (List Deed), s'.settings = s.settings ∧ s'.now = s.now ∧
      s'.pending = s.pending ∧ s'.deeds = s.deeds ++ frames.flatten ∧
      s'.sink = frames.foldl afterFrame s.sink ∧
      Roster.Renders s.now n s.ensemble.playing (frames.map (List.map Deed.call))
        s'.ensemble.playing := by
  induction n generalizing s with
  | zero =>
    cases hframes
    exact ⟨[], rfl, rfl, rfl, (append_nil _).symm, rfl, .nil _⟩
  | succ n ih =>
    rw [playFrames] at hframes
    rcases hframe : s.playFrame with ⟨s₁, _ | reason | _⟩ <;> rw [hframe] at hframes
    · obtain ⟨ds, hsettings, hnow, hpending, hdeeds, hsink, hpasses⟩ := playFrame_does hframe
      obtain ⟨frames, hsettings', hnow', hpending', hdeeds', hsink', hrenders⟩ := ih hframes
      refine ⟨ds :: frames, hsettings'.trans hsettings, hnow'.trans hnow,
        hpending'.trans hpending, ?_, ?_, ?_⟩
      · rw [hdeeds', hdeeds, flatten_cons, append_assoc]
      · rw [hsink', hsink, foldl_cons]
      · rw [hnow] at hrenders
        exact .cons hpasses hrenders
    · cases hframes
    · cases hframes

/-! ### Ticks -/

omit [Playable ι γ] in
def afterTick (sink : σ) (d : TurnDeeds) : σ :=
  d.frames.foldl afterFrame ((Deed.soundsOf (d.inits ++ d.controls)).foldl Sink.add sink)

theorem tick_does (htick : s.tick = (s', .done)) :
    ∃ d : TurnDeeds, s'.settings = s.settings ∧ s'.now = s.now + 1 ∧
      s'.deeds = s.deeds ++ d.all ∧ s'.sink = afterTick s.sink d ∧
      s.ensemble.Turns s.settings.samplesPerTick.toNat s.now (d.inits.map Deed.call)
        (d.controls.map Deed.call) (d.frames.map (List.map Deed.call)) s'.ensemble := by
  unfold tick at htick
  cases hturn : s.promote.bind fun s => playActive .control s.retire with
  | none =>
    rw [hturn] at htick
    cases htick
  | some s₂ =>
    rw [hturn] at htick
    obtain ⟨s₁, hpromote, hcontrol⟩ := Option.bind_eq_some_iff.1 hturn
    obtain ⟨inits, promoted, hinits, hpromoted, hplaying⟩ := promote_does hpromote
    obtain ⟨controls, hcontrols, hcontrolled⟩ := playActive_does hcontrol
    have hnow₁ : s₁.now = s.now := hinits.now
    have hnow₂ : s₂.now = s.now := hcontrols.now.trans hnow₁
    have hsettings₂ : s₂.settings = s.settings := hcontrols.settings.trans hinits.settings
    -- Retiring voices touches neither the record nor the sink, so both passes chain.
    have hbefore : s.withoutDue.Does s₂ (inits ++ controls) :=
      hinits.trans ⟨hcontrols.settings, hcontrols.now, hcontrols.pending, hcontrols.deeds,
        hcontrols.sink⟩
    dsimp only at htick
    rcases hframes : playFrames s₂.settings.samplesPerTick.toNat s₂ with ⟨s₃, _ | reason | _⟩ <;>
      rw [hframes] at htick <;> cases htick
    obtain ⟨frames, hsettings, hnow, hpending, hdeeds, hsink, hrenders⟩ := playFrames_does hframes
    refine ⟨⟨inits, controls, frames⟩, hsettings.trans hsettings₂,
      congrArg (· + 1) (hnow.trans hnow₂), ?_, ?_, ⟨?_, promoted, s₂.ensemble.playing, hpromoted,
        ?_, ?_⟩⟩
    · change s₃.deeds = s.deeds ++ (inits ++ controls ++ frames.flatten)
      rw [hdeeds, hbefore.deeds, append_assoc]
      rfl
    · change s₃.sink = _
      rw [hsink, hbefore.sink]
      rfl
    · change s₃.pending.map _ = _
      rw [hpending, hbefore.pending, ensemble, filter_map]
      rfl
    · rw [← hplaying, ← hnow₁, ← ensemble_retire]
      exact hcontrolled
    · rw [← hnow₂, ← hsettings₂]
      exact hrenders

theorem play_performs {n : Nat} (hplay : play n s = (s', .done)) :
    ∃ ds, ds.length = n ∧ s'.deeds = s.deeds ++ ds.flatMap TurnDeeds.all ∧
      s'.sink = ds.foldl afterTick s.sink ∧
      Ensemble.Performs s.settings.samplesPerTick.toNat s.ensemble s.now ds s'.ensemble := by
  induction n generalizing s with
  | zero =>
    cases hplay
    exact ⟨[], rfl, (append_nil _).symm, rfl, .nil _ _⟩
  | succ n ih =>
    unfold play at hplay
    split at hplay
    · cases hplay
    · rcases htick : s.tick with ⟨s₁, _ | reason | _⟩ <;> rw [htick] at hplay
      · obtain ⟨d, hsettings, hnow, hdeeds, hsink, hturns⟩ := tick_does htick
        obtain ⟨ds, hlength, hdeeds', hsink', hperforms⟩ := ih hplay
        rw [hsettings, hnow] at hperforms
        refine ⟨d :: ds, congrArg (· + 1) hlength, ?_, ?_, .cons hturns hperforms⟩
        · rw [hdeeds', hdeeds, flatMap_cons, append_assoc]
        · rw [hsink', hsink]
          rfl
      · cases hplay
      · cases hplay

/-! ### One thing after the other -/

omit [Playable ι γ] [Sink σ] in
def next {α ε : Type} [DecidableEq ε] (done : ε) (f : α → α × ε) (p : α × ε) : α × ε :=
  if p.2 = done then f p.1 else p

theorem playFrames_succ (n : Nat) (s : HeardScheduler ι σ γ) :
    playFrames (n + 1) s = next .done (playFrames n) s.playFrame := by
  unfold playFrames next
  rcases s.playFrame with ⟨s₁, _ | reason | _⟩ <;> rfl

theorem tick_of_turn {s₂ : HeardScheduler ι σ γ}
    (hturn : (s.promote.bind fun s => playActive .control s.retire) = some s₂) :
    s.tick = next .done (fun s => ({ s with now := s.now + 1 }, .done))
      (playFrames s₂.settings.samplesPerTick.toNat s₂) := by
  unfold tick next
  rw [hturn]
  dsimp only
  rcases playFrames s₂.settings.samplesPerTick.toNat s₂ with ⟨s₃, _ | reason | _⟩ <;> rfl

theorem tick_of_stuck (hturn : (s.promote.bind fun s => playActive .control s.retire) = none) :
    s.tick = (s, .stuck) := by
  unfold tick
  rw [hturn]

def TickEnd.told (now : Tick) : TickEnd → RunEnd
  | done => .done
  | emitFailed reason => .emitFailed now reason
  | stuck => .stuck

theorem TickEnd.told_eq_done {now : Tick} {e : TickEnd} : e.told now = .done ↔ e = .done := by
  cases e <;> simp [told]

theorem TickEnd.told_eq_stuck {now : Tick} {e : TickEnd} : e.told now = .stuck ↔ e = .stuck := by
  cases e <;> simp [told]

/-- One tick of a performance, unless the listener wants to stop. -/
def attend (s : HeardScheduler ι σ γ) :
    HeardScheduler ι σ γ × RunEnd :=
  if Sink.isCancelled s.sink then (s, .cancelled) else (s.tick.1, s.tick.2.told s.tick.1.now)

theorem play_succ (n : Nat) (s : HeardScheduler ι σ γ) :
    play (n + 1) s = next .done (play n) s.attend := by
  unfold play next attend
  split
  · rfl
  · rcases s.tick with ⟨s₁, _ | reason | _⟩ <;> rfl

/-! ### The record only grows -/

omit [Playable ι γ] [Sink σ] in
theorem next_grows {ε : Type} [DecidableEq ε] {done : ε}
    {f : HeardScheduler ι σ γ → HeardScheduler ι σ γ × ε}
    {p : HeardScheduler ι σ γ × ε} (hf : ∀ s, s.deeds <+: (f s).1.deeds)
    (hp : s.deeds <+: p.1.deeds) : s.deeds <+: (next done f p).1.deeds := by
  unfold next
  split
  · exact hp.trans (hf p.1)
  · exact hp

theorem playFrame_grows (s : HeardScheduler ι σ γ) : s.deeds <+: s.playFrame.1.deeds := by
  rcases s.playFrame_cases with hstuck | ⟨s', ending, hplay, -, heq, -⟩
  · simp [hstuck]
  · obtain ⟨ds, hdoes, -⟩ := playActive_does hplay
    rw [heq]
    exact hdoes.grows

theorem playFrames_grows (n : Nat) (s : HeardScheduler ι σ γ) :
    s.deeds <+: (playFrames n s).1.deeds := by
  induction n generalizing s with
  | zero => exact prefix_rfl
  | succ n ih =>
    rw [playFrames_succ]
    exact next_grows ih s.playFrame_grows

theorem tick_grows (s : HeardScheduler ι σ γ) : s.deeds <+: s.tick.1.deeds := by
  cases hturn : s.promote.bind fun s => playActive .control s.retire with
  | none => simp [tick_of_stuck hturn]
  | some s₂ =>
    obtain ⟨s₁, hpromote, hcontrol⟩ := Option.bind_eq_some_iff.1 hturn
    obtain ⟨inits, -, hinits, -⟩ := promote_does hpromote
    obtain ⟨controls, hcontrols, -⟩ := playActive_does hcontrol
    rw [tick_of_turn hturn]
    apply next_grows fun _ => prefix_rfl
    exact (hinits.grows.trans hcontrols.grows).trans (playFrames_grows _ s₂)

theorem attend_grows (s : HeardScheduler ι σ γ) : s.deeds <+: s.attend.1.deeds := by
  unfold attend
  split
  · exact prefix_rfl
  · exact s.tick_grows

theorem play_grows (n : Nat) (s : HeardScheduler ι σ γ) : s.deeds <+: (play n s).1.deeds := by
  induction n generalizing s with
  | zero => exact prefix_rfl
  | succ n ih =>
    rw [play_succ]
    exact next_grows ih s.attend_grows

end Scheduler

end Heard

end Orchestrion
