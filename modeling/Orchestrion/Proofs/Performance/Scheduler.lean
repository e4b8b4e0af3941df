import Orchestrion.Performance.Scheduler

/-!
# Schedulers and what they play

A scheduler sees of its players their lifetimes and their passes only, and of its sink what is done
to it. If functions map players to players with the same lifetimes and the same passes, and a sink
to one that does the same, they map a performance of the ones to a performance of the others.
-/

namespace Orchestrion

open Option

theorem Settings.samplesPerTick_toNat {s : Settings} (h : 1 ≤ s.krate) :
    s.samplesPerTick.toNat = (s.srate / s.krate).toNat := by
  rw [Settings.samplesPerTick, if_neg (by omega)]
  rcases Int.le_total 0 s.srate with hsrate | hsrate
  · rw [Int.tdiv_eq_ediv_of_nonneg hsrate]
  · -- Neither quotient of a negative rate is positive.
    have htdiv : s.srate.tdiv s.krate ≤ 0 := by
      have := Int.tdiv_nonneg (Int.neg_nonneg_of_nonpos hsrate) (by omega : 0 ≤ s.krate)
      rw [Int.neg_tdiv] at this
      omega
    rw [Int.toNat_of_nonpos htdiv,
      Int.toNat_of_nonpos (Int.ediv_nonpos_of_nonpos_of_neg hsrate (by omega))]

/-- What a pass leaves, with the player and what is shared seen through functions. -/
def Passed.map {ι κ γ δ : Type} (f : ι → κ) (g : γ → δ) (p : Passed ι γ) : Passed κ δ :=
  ⟨f p.after, g p.store, p.sounds, p.ending⟩

/-- A voice with its player seen through a function. -/
def Voice.map {ι κ : Type} (f : ι → κ) (v : Voice ι) : Voice κ := ⟨f v.player, v.failed⟩

theorem Voice.map_id {ι : Type} : Voice.map (id : ι → ι) = id := rfl

/-- Players and their images have the same lifetimes and the same passes. -/
structure Playable.Alike {ι κ γ δ : Type} [Playable ι γ] [Playable κ δ] (f : ι → κ) (g : γ → δ) :
    Prop where
  lifetime : ∀ i, Playable.lifetime (f i) = Playable.lifetime i
  withLifetime : ∀ i l, Playable.withLifetime (f i) l = f (Playable.withLifetime i l)
  pass : ∀ i p h c, Playable.pass (f i) p h (g c) = (Playable.pass i p h c).map f g

theorem Playable.Alike.id {ι γ : Type} [Playable ι γ] : Playable.Alike (id : ι → ι) (id : γ → γ) :=
  ⟨fun _ => rfl, fun _ _ => rfl, fun _ _ _ _ => rfl⟩

/-- What is done to sinks and to their images is the same. -/
structure Sink.Alike {σ τ : Type} [Sink σ] [Sink τ] (f : σ → τ) : Prop where
  width : ∀ s, Sink.width (f s) = Sink.width s
  clear : ∀ s, Sink.clear (f s) = f (Sink.clear s)
  add : ∀ s sound, Sink.add (f s) sound = f (Sink.add s sound)
  emit : ∀ s, Sink.emit (f s) = (Sink.emit s).map f id
  close : ∀ s, Sink.close (f s) = (Sink.close s).map f id
  isCancelled : ∀ s, Sink.isCancelled (f s) = Sink.isCancelled s

theorem Sink.Alike.id {σ : Type} [Sink σ] : Sink.Alike (id : σ → σ) :=
  ⟨fun _ => rfl, fun _ => rfl, fun _ _ => rfl, fun _ => rfl, fun _ => rfl, fun _ => rfl⟩

theorem Sink.Alike.foldl_add {σ τ : Type} [Sink σ] [Sink τ] {f : σ → τ} (h : Sink.Alike f)
    (sounds : List Sound) (s : σ) : sounds.foldl Sink.add (f s) = f (sounds.foldl Sink.add s) := by
  induction sounds generalizing s with
  | nil => rfl
  | cons sound sounds ih => rw [List.foldl_cons, List.foldl_cons, h.add, ih]

/-- Functions that a scheduler can be seen through. -/
structure Restaging (ι κ σ τ γ δ : Type) where
  player : ι → κ
  store : γ → δ
  sink : σ → τ
  finish : Tick → Tick
  queue : List ι → List κ

/-- Players and sinks do the same as their images. -/
structure Restaging.Alike {ι κ σ τ γ δ : Type} [Playable ι γ] [Playable κ δ] [Sink σ] [Sink τ]
    (r : Restaging ι κ σ τ γ δ) : Prop where
  players : Playable.Alike r.player r.store
  sinks : Sink.Alike r.sink

namespace Scheduler

variable {ι κ σ τ γ δ : Type} [Playable ι γ] [Playable κ δ] [Sink σ] [Sink τ]

/-- What can be asked of a scheduler. -/
inductive Action (ι : Type) where
  /-- To add an instrument that plays in the given time. -/
  | schedule (player : ι) (life : Lifetime)
  /-- To end the performance before the given tick. -/
  | finishAt (t : Tick)
  /-- To render one control tick. -/
  | tick

def apply (s : Scheduler ι σ γ) : Action ι → Scheduler ι σ γ
  | .schedule player life => s.schedule player life
  | .finishAt t => { s with finish := t }
  | .tick => s.tick.1

/-- A scheduler with its players and what they share seen through functions. -/
def map (f : ι → κ) (g : γ → δ) (s : Scheduler ι σ γ) : Scheduler κ σ δ :=
  ⟨s.settings, s.sink, g s.store, s.now, s.finish, s.pending.map f, s.active.map (.map f),
    s.failures⟩

/-- A scheduler with all that it has seen through functions. -/
def restage (r : Restaging ι κ σ τ γ δ) (s : Scheduler ι σ γ) : Scheduler κ τ δ :=
  ⟨s.settings, r.sink s.sink, r.store s.store, s.now, r.finish s.finish, r.queue s.pending,
    s.active.map (.map r.player), s.failures⟩

section Restaging

variable {r : Restaging ι κ σ τ γ δ}

omit [Playable ι γ] [Playable κ δ] in
theorem receive_restage (h : Sink.Alike r.sink) (s : Scheduler ι σ γ) (pass : Pass)
    (p : Passed ι γ) : (s.restage r).receive pass (p.map r.player r.store) =
      (s.receive pass p).map (Prod.map (.map r.player) (.restage r)) := by
  obtain ⟨after, store, sounds, ending⟩ := p
  have hsounds := h.foldl_add sounds s.sink
  cases ending <;> simp [receive, restage, Passed.map, Voice.map, hsounds]

theorem playVoice_restage (h : r.Alike) (s : Scheduler ι σ γ) (pass : Pass) (v : Voice ι) :
    (s.restage r).playVoice pass (v.map r.player) =
      (s.playVoice pass v).map (Prod.map (.map r.player) (.restage r)) := by
  obtain ⟨player, failed⟩ := v
  cases failed with
  | true => rfl
  | false =>
    calc (s.restage r).receive pass (Playable.pass (r.player player) pass s.host (r.store s.store))
      _ = (s.restage r).receive pass
          ((Playable.pass player pass s.host s.store).map r.player r.store) := by
        rw [h.players.pass]
      _ = _ := receive_restage h.sinks ..

theorem playVoices_restage (h : r.Alike) (pass : Pass) (vs : List (Voice ι)) (s : Scheduler ι σ γ) :
    playVoices pass (vs.map (.map r.player)) (s.restage r) =
      (playVoices pass vs s).map (Prod.map (List.map (.map r.player)) (.restage r)) := by
  induction vs generalizing s with
  | nil => rfl
  | cons v vs ih =>
    rw [List.map_cons, playVoices, playVoices, playVoice_restage h]
    cases s.playVoice pass v with
    | none => rfl
    | some played =>
      obtain ⟨v', s'⟩ := played
      simp only [map_some, Prod.map, bind_eq_bind, bind_some, ih]
      cases playVoices pass vs s' <;> rfl

theorem playActive_restage (h : r.Alike) (pass : Pass) (s : Scheduler ι σ γ) :
    playActive pass (s.restage r) = (playActive pass s).map (.restage r) := by
  have hvoices := playVoices_restage h pass s.active s
  rw [playActive, playActive]
  change (playVoices pass (s.active.map (.map r.player)) (s.restage r)).bind _ = _
  rw [hvoices]
  cases playVoices pass s.active s <;> rfl

omit [Sink σ] [Sink τ] in
theorem retire_restage (h : Playable.Alike r.player r.store) (s : Scheduler ι σ γ) :
    (s.restage r).retire = s.retire.restage r := by
  have halive : (s.restage r).isAlive ∘ .map r.player = s.isAlive := by
    funext v
    exact congrArg (fun l : Lifetime => !v.failed && decide (s.now ≤ l.stop)) (h.lifetime v.player)
  have hactive : (s.active.map (.map r.player)).filter (s.restage r).isAlive =
      (s.active.filter s.isAlive).map (.map r.player) := by
    rw [List.filter_map, halive]
  exact congrArg (fun active => { s.restage r with active }) hactive

theorem playFrame_restage (h : r.Alike) (s : Scheduler ι σ γ) :
    (s.restage r).playFrame = s.playFrame.map (.restage r) id := by
  have hclear : ({ s.restage r with sink := Sink.clear (s.restage r).sink } : Scheduler κ τ δ) =
      restage r { s with sink := Sink.clear s.sink } := by
    simp only [restage, h.sinks.clear]
  rw [playFrame, playFrame, hclear, playActive_restage h]
  cases playActive .audio { s with sink := Sink.clear s.sink } with
  | none => rfl
  | some s' =>
    have hemit : Sink.emit (s'.restage r).sink = (Sink.emit s'.sink).map r.sink id := h.sinks.emit _
    simp only [map_some, hemit]
    rcases Sink.emit s'.sink with ⟨sink, _ | reason⟩ <;> rfl

theorem playFrames_restage (h : r.Alike) (n : Nat) (s : Scheduler ι σ γ) :
    playFrames n (s.restage r) = (playFrames n s).map (.restage r) id := by
  induction n generalizing s with
  | zero => rfl
  | succ n ih =>
    rw [playFrames, playFrames, playFrame_restage h]
    rcases s.playFrame with ⟨s', _ | _ | _⟩
    · exact ih s'
    · rfl
    · rfl

omit [Sink σ] [Sink τ] in
theorem isDue_comp (h : Playable.Alike r.player r.store) (s : Scheduler ι σ γ) :
    (s.restage r).isDue ∘ r.player = s.isDue := by
  funext i
  exact congrArg (fun l : Lifetime => decide (l.start ≤ s.now)) (h.lifetime i)

theorem promote_restage (h : r.Alike) (hqueue : r.queue = List.map r.player) (s : Scheduler ι σ γ) :
    (s.restage r).promote = s.promote.map (.restage r) := by
  have hpending : (s.restage r).pending = s.pending.map r.player := congrFun hqueue _
  have hdue : (s.restage r).due = s.due.map (.map r.player) := by
    rw [due, due, hpending, List.filter_map, isDue_comp h.players, List.map_map, List.map_map]
    rfl
  have hrest : (s.restage r).withoutDue = s.withoutDue.restage r := by
    have hlater : (s.restage r).pending.filter (fun i => !(s.restage r).isDue i) =
        r.queue (s.pending.filter fun i => !s.isDue i) := by
      rw [hpending, hqueue, List.filter_map, ← isDue_comp h.players]
      rfl
    exact congrArg (fun pending => { s.restage r with pending }) hlater
  rw [promote, promote, hdue, hrest, playVoices_restage h]
  cases playVoices .init s.due s.withoutDue with
  | none => rfl
  | some played => simp [restage]

theorem tick_restage (h : r.Alike) (hqueue : r.queue = List.map r.player) (s : Scheduler ι σ γ) :
    (s.restage r).tick = s.tick.map (.restage r) id := by
  rw [tick, tick, promote_restage h hqueue]
  cases s.promote with
  | none => rfl
  | some s' =>
    simp only [map_some, bind_some, retire_restage h.players, playActive_restage h]
    cases playActive .control s'.retire with
    | none => rfl
    | some s' =>
      have hsettings : (restage r s').settings = s'.settings := rfl
      simp only [map_some, hsettings, playFrames_restage h]
      rcases playFrames s'.settings.samplesPerTick.toNat s' with ⟨s'', _ | _ | _⟩ <;> rfl

theorem play_restage (h : r.Alike) (hqueue : r.queue = List.map r.player) (n : Nat)
    (s : Scheduler ι σ γ) : play n (s.restage r) = (play n s).map (.restage r) id := by
  induction n generalizing s with
  | zero => rfl
  | succ n ih =>
    have hcancelled : Sink.isCancelled (s.restage r).sink = Sink.isCancelled s.sink :=
      h.sinks.isCancelled _
    rw [play, play, hcancelled, tick_restage h hqueue]
    split
    · rfl
    · rcases s.tick with ⟨s', _ | reason | _⟩
      · exact ih s'
      · rfl
      · rfl

end Restaging

section Alike

variable {f : ι → κ} {g : γ → δ}

theorem tick_map (h : Playable.Alike f g) (s : Scheduler ι σ γ) :
    (s.map f g).tick = s.tick.map (.map f g) id :=
  tick_restage (r := ⟨f, g, id, id, List.map f⟩) ⟨h, .id⟩ rfl s

theorem play_map (h : Playable.Alike f g) (n : Nat) (s : Scheduler ι σ γ) :
    play n (s.map f g) = (play n s).map (.map f g) id :=
  play_restage (r := ⟨f, g, id, id, List.map f⟩) ⟨h, .id⟩ rfl n s

omit [Sink σ] in
theorem schedule_map (h : Playable.Alike f g) (s : Scheduler ι σ γ) (player : ι) (life : Lifetime) :
    (s.map f g).schedule (f player) life = (s.schedule player life).map f g := by
  simp [schedule, map, h.withLifetime]

end Alike

end Scheduler

end Orchestrion
