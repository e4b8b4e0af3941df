import Mathlib.Data.List.Basic
import Orchestrion.Proofs.Performance.Deeds

/-!
# Voices that keep apart

A player is aloof if its passes do not depend on what players share, and leave that as it is. If all
other voices are left out of a performance, whatever they do, an aloof voice still does the same.
-/

namespace Orchestrion

open List

variable {ι σ τ γ : Type}

namespace Scheduler

variable {aloof : ι → Prop} {k : Nat} {pass : Pass}
  {s s' : HeardScheduler ι σ γ} {t : HeardScheduler ι τ γ}

/-! ### Performances with all voices and with one -/

/-- What is left of a performance if all voices but one are left out, and that voice is aloof. -/
structure Apart (aloof : ι → Prop) (k : Nat) (s : HeardScheduler ι σ γ)
    (t : HeardScheduler ι τ γ) : Prop where
  settings : t.settings = s.settings
  now : t.now = s.now
  pending : t.pending = s.pending.filter (·.number = k)
  active : t.active = s.active.filter (·.player.number = k)
  deeds : t.deeds = deedsOf k s.deeds
  waits : ∀ i ∈ s.pending, i.number = k → aloof i.player
  plays : ∀ v ∈ s.active, v.player.number = k → aloof v.player.player

namespace Apart

variable (h : Apart aloof k s t)

include h

theorem host : t.host = s.host := by
  rw [Scheduler.host, Scheduler.host, h.settings, h.now]

theorem withSinks (sink : σ) (sink' : τ) : Apart aloof k { s with sink } { t with sink := sink' } :=
  ⟨h.settings, h.now, h.pending, h.active, h.deeds, h.waits, h.plays⟩

theorem does [Sink σ] [Sink τ] {s' : HeardScheduler ι σ γ} {t' : HeardScheduler ι τ γ}
    {ds : List Deed} {vs : List (Voice (Heard ι))} (hdoes : s.Does s' ds)
    (hdoes' : t.Does t' (deedsOf k ds))
    (hvs : ∀ v ∈ vs, v.player.number = k → aloof v.player.player) : Apart aloof k
      { s' with active := vs } { t' with active := vs.filter (·.player.number = k) } where
  settings := hdoes'.settings.trans (h.settings.trans hdoes.settings.symm)
  now := hdoes'.now.trans (h.now.trans hdoes.now.symm)
  pending := by
    change t'.pending = s'.pending.filter _
    rw [hdoes'.pending, h.pending, hdoes.pending]
  active := rfl
  deeds := by
    change t'.deeds = deedsOf k s'.deeds
    rw [hdoes'.deeds, h.deeds, hdoes.deeds, deedsOf_append]
  waits := by
    change ∀ i ∈ s'.pending, _
    rw [hdoes.pending]
    exact h.waits
  plays := hvs

end Apart

/-! ### How the performances end -/

/-- How two performances end that are followed side by side, where one end means that all is done
and one that there is no way on. The one that goes on longer goes on from what the other one did. -/
structure Agree {ε : Type} (aloof : ι → Prop) (k : Nat) (done stuck : ε)
    (p : HeardScheduler ι σ γ × ε)
    (q : HeardScheduler ι τ γ × ε) : Prop where
  apart : p.2 = done → q.2 = done → Apart aloof k p.1 q.1
  /-- If all voices can go on, the single voice can. -/
  going : p.2 = done → q.2 ≠ stuck
  comparable : deedsOf k p.1.deeds <+: q.1.deeds ∨ q.1.deeds <+: deedsOf k p.1.deeds
  early : q.2 = done → deedsOf k p.1.deeds <+: q.1.deeds
  late : p.2 = done → q.1.deeds <+: deedsOf k p.1.deeds

namespace Agree

variable {ε : Type} {done stuck : ε} {p : HeardScheduler ι σ γ × ε}
  {q : HeardScheduler ι τ γ × ε}

theorem of_early (hp : p.2 ≠ done) (h : deedsOf k p.1.deeds <+: q.1.deeds) :
    Agree aloof k done stuck p q :=
  ⟨fun hdone => absurd hdone hp, fun hdone => absurd hdone hp, .inl h, fun _ => h,
    fun hdone => absurd hdone hp⟩

theorem of_late (hq : q.2 ≠ done) (hgoing : q.2 ≠ stuck)
    (h : q.1.deeds <+: deedsOf k p.1.deeds) : Agree aloof k done stuck p q :=
  ⟨fun _ hdone => absurd hdone hq, fun _ => hgoing, .inr h, fun hdone => absurd hdone hq,
    fun _ => h⟩

theorem of_apart (hgoing : q.2 ≠ stuck) (h : Apart aloof k p.1 q.1) :
    Agree aloof k done stuck p q := by
  have hdeeds : deedsOf k p.1.deeds = q.1.deeds := h.deeds.symm
  exact ⟨fun _ _ => h, fun _ => hgoing, .inl (hdeeds ▸ prefix_rfl),
    fun _ => hdeeds ▸ prefix_rfl, fun _ => hdeeds ▸ prefix_rfl⟩

theorem of_over {s : HeardScheduler ι σ γ}
    {t : HeardScheduler ι τ γ} {e : ε} (he : e ≠ done) (h : Apart aloof k s t)
    (hgrows : t.deeds <+: q.1.deeds) : Agree aloof k done stuck (s, e) q := by
  rw [h.deeds] at hgrows
  exact of_early he hgrows

theorem next_next [DecidableEq ε] (h : Agree aloof k done stuck p q)
    {f : HeardScheduler ι σ γ → HeardScheduler ι σ γ × ε}
    {g : HeardScheduler ι τ γ → HeardScheduler ι τ γ × ε}
    (hf : ∀ s, s.deeds <+: (f s).1.deeds) (hg : ∀ t, t.deeds <+: (g t).1.deeds)
    (hfg : ∀ s t, Apart aloof k s t → Agree aloof k done stuck (f s) (g t)) :
    Agree aloof k done stuck (next done f p) (next done g q) := by
  unfold next
  by_cases hp : p.2 = done
  · rw [if_pos hp]
    by_cases hq : q.2 = done
    · rw [if_pos hq]
      exact hfg _ _ (h.apart hp hq)
    · rw [if_neg hq]
      exact of_late hq (h.going hp) ((h.late hp).trans ((hf p.1).filter _))
  · rw [if_neg hp]
    by_cases hq : q.2 = done
    · rw [if_pos hq]
      exact of_early hp ((h.early hq).trans (hg q.1))
    · rw [if_neg hq]
      exact h

end Agree

/-! ### The voices of a performance -/

/-- The scheduler with a record of what its voices do. Those that wait have numbers from the given
one on, and then those that play. -/
def heard (first : Nat) (s : Scheduler ι σ γ) : HeardScheduler ι σ γ :=
  ⟨s.settings, s.sink, (s.store, []), s.now, s.finish,
    s.pending.mapIdx fun n i => ⟨first + n, i⟩,
    s.active.mapIdx fun n v => ⟨⟨first + s.pending.length + n, v.player⟩, v.failed⟩, s.failures⟩

/-- The scheduler without the record. -/
def unheard (s : HeardScheduler ι σ γ) : Scheduler ι σ γ :=
  s.map Heard.player Prod.fst

/-- The scheduler with a single voice, which is not due yet. -/
def alone (i : ι) (s : Scheduler ι σ γ) : Scheduler ι σ γ := { s with pending := [i], active := [] }

theorem unheard_heard (first : Nat) (s : Scheduler ι σ γ) : (s.heard first).unheard = s := by
  obtain ⟨settings, sink, store, now, finish, pending, active, failures⟩ := s
  have hpending : (pending.mapIdx fun n i => (⟨first + n, i⟩ : Heard ι)).map Heard.player =
      pending := by
    ext1 n
    simp [Function.comp_def]
  have hactive : (active.mapIdx fun n v =>
      (⟨⟨first + pending.length + n, v.player⟩, v.failed⟩ : Voice (Heard ι))).map
        (.map Heard.player) = active := by
    ext1 n
    simp [Function.comp_def, Voice.map]
  simp only [unheard, heard, map, hpending, hactive]

theorem filter_numbered {is : List ι} {i : ι} (hk : is[k]? = some i) (first : Nat) :
    (is.mapIdx fun n i => (⟨first + n, i⟩ : Heard ι)).filter (·.number = first + k) =
      [⟨first + k, i⟩] := by
  induction is generalizing k first with
  | nil => cases hk
  | cons j is ih =>
    have hshift : (fun n i => (⟨first + (n + 1), i⟩ : Heard ι)) = fun n i =>
        ⟨first + 1 + n, i⟩ := by
      funext n i
      rw [Nat.add_comm n 1, Nat.add_assoc]
    rw [mapIdx_cons, hshift]
    cases k with
    | zero =>
      obtain rfl : j = i := Option.some.inj hk
      -- All others have greater numbers.
      have hrest : (is.mapIdx fun n i => (⟨first + 1 + n, i⟩ : Heard ι)).filter
          (·.number = first + 0) = [] := by
        refine filter_eq_nil_iff.2 fun x hx => ?_
        obtain ⟨n, hn, rfl⟩ := mem_mapIdx.1 hx
        simp
        omega
      rw [filter_cons_of_pos (by simp), hrest]
    | succ k =>
      rw [filter_cons_of_neg (by simp), show first + (k + 1) = first + 1 + k by omega]
      exact ih hk (first + 1)

theorem apart_alone {s : Scheduler ι σ γ} {i : ι} (hk : s.pending[k]? = some i) (hi : aloof i) :
    Apart aloof k (s.heard 0) ((s.alone i).heard k) := by
  have hpending : (s.heard 0).pending.filter (·.number = k) = [⟨k, i⟩] := by
    have hfilter := filter_numbered hk 0
    rwa [Nat.zero_add] at hfilter
  -- The voices that play already have numbers behind those that wait.
  have hactive : ∀ v ∈ (s.heard 0).active, v.player.number ≠ k := by
    intro v hv
    obtain ⟨n, hn, rfl⟩ := List.mem_mapIdx.1 hv
    obtain ⟨hlt, -⟩ := List.getElem?_eq_some_iff.1 hk
    simp only
    omega
  refine ⟨rfl, rfl, hpending.symm, ?_, rfl, fun j hj hnumber => ?_,
    fun v hv hnumber => absurd hnumber (hactive v hv)⟩
  · refine (List.filter_eq_nil_iff.2 fun v hv => ?_).symm
    simpa using hactive v hv
  · have hmem : j ∈ (s.heard 0).pending.filter (·.number = k) :=
      List.mem_filter.2 ⟨hj, by simpa using hnumber⟩
    rw [hpending, List.mem_singleton] at hmem
    rw [hmem]
    exact hi

end Scheduler

variable [Playable ι γ]

/-- The passes of some players do not depend on what is shared, leave it as it is, and leave such
players. -/
structure Playable.Aloof (aloof : ι → Prop) : Prop where
  pass : ∀ i p h (g g' : γ), aloof i →
    Playable.pass i p h g' = { Playable.pass i p h g with store := g' }
  after : ∀ i p h (g : γ), aloof i → aloof (Playable.pass i p h g).after

namespace Scheduler

variable {aloof : ι → Prop} {k : Nat} {pass : Pass}
  {s s' : HeardScheduler ι σ γ} {t : HeardScheduler ι τ γ}

theorem deedsOf_deed_self (i : Heard ι) (pass : Pass) (h : Host) (passed : Passed ι γ) :
    deedsOf i.number [i.deed pass h passed] = [i.deed pass h passed] := by
  simp [deedsOf, Heard.deed]

theorem deedsOf_deed_of_ne {i : Heard ι} (hne : i.number ≠ k) (pass : Pass) (h : Host)
    (passed : Passed ι γ) : deedsOf k [i.deed pass h passed] = [] := by
  simp [deedsOf, Heard.deed, hne]

namespace Apart

variable (h : Apart aloof k s t)

include h

theorem isDue : t.isDue = s.isDue := by
  funext i
  rw [Scheduler.isDue, Scheduler.isDue, h.now]

theorem due : t.due = s.due.filter (·.player.number = k) := by
  rw [Scheduler.due, Scheduler.due, h.isDue, h.pending, filter_map, filter_comm]
  rfl

theorem withoutDue : Apart aloof k s.withoutDue t.withoutDue := by
  refine ⟨h.settings, h.now, ?_, h.active, h.deeds,
    fun i hi => h.waits i (mem_filter.1 hi).1, h.plays⟩
  change t.pending.filter (fun i => !t.isDue i) = (s.pending.filter fun i => !s.isDue i).filter _
  rw [h.isDue, h.pending, filter_comm]

theorem retire : Apart aloof k s.retire t.retire := by
  have halive : t.isAlive = s.isAlive := by
    funext v
    rw [isAlive, isAlive, h.now]
  refine ⟨h.settings, h.now, h.pending, ?_, h.deeds, h.waits,
    fun v hv => h.plays v (mem_filter.1 hv).1⟩
  change t.active.filter t.isAlive = (s.active.filter s.isAlive).filter _
  rw [halive, h.active, filter_comm]

end Apart

variable [Sink σ]

theorem play_heard (first n : Nat) (s : Scheduler ι σ γ) :
    play n s = (play n (s.heard first)).map unheard id := by
  have hmap := play_map Heard.alike n (s.heard first)
  rwa [show (s.heard first).map Heard.player Prod.fst = s from s.unheard_heard first] at hmap

/-! ### Sinks that take everything -/

section Willing

variable (hemit : ∀ sink : σ, (Sink.emit sink).2 = none)

include hemit

theorem playFrames_ends (n : Nat) (s : HeardScheduler ι σ γ) :
    (playFrames n s).2 = .done ∨ (playFrames n s).2 = .stuck := by
  induction n generalizing s with
  | zero => exact .inl rfl
  | succ n ih =>
    rw [playFrames_succ, next]
    split
    · exact ih _
    next hframe =>
      rcases s.playFrame_cases with hstuck | ⟨s₁, ending, -, -, heq, hdone⟩
      · rw [hstuck]
        exact .inr rfl
      · rw [heq] at hframe
        exact absurd (hdone.2 (hemit s₁.sink)) hframe

theorem tick_ends (s : HeardScheduler ι σ γ) : s.tick.2 = .done ∨ s.tick.2 = .stuck := by
  cases hturn : s.promote.bind fun s => playActive .control s.retire with
  | none =>
    rw [tick_of_stuck hturn]
    exact .inr rfl
  | some s₂ =>
    rw [tick_of_turn hturn, next]
    split
    · exact .inl rfl
    · exact playFrames_ends hemit _ s₂

theorem play_ends (hlistens : ∀ sink : σ, Sink.isCancelled sink = false) (n : Nat)
    (s : HeardScheduler ι σ γ) :
    (play n s).2 = .done ∨ (play n s).2 = .stuck := by
  induction n generalizing s with
  | zero => exact .inl rfl
  | succ n ih =>
    rw [play_succ, next]
    split
    · exact ih _
    · unfold attend
      rw [hlistens]
      exact (tick_ends hemit s).imp TickEnd.told_eq_done.2 TickEnd.told_eq_stuck.2

end Willing

/-! ### Passes -/

variable [Sink τ]

theorem playVoice_aloof (haloof : Playable.Aloof aloof) (hhost : t.host = s.host)
    {v v' : Voice (Heard ι)} (hv : aloof v.player.player)
    (hplay : s.playVoice pass v = some (v', s')) :
    ∃ ds t', s.Does s' ds ∧ s'.active = s.active ∧ t.playVoice pass v = some (v', t') ∧
      t.Does t' ds ∧ t'.active = t.active ∧ deedsOf v.player.number ds = ds ∧
      v'.player.number = v.player.number ∧ aloof v'.player.player := by
  rcases playVoice_cases hplay with
    ⟨hfailed, rfl, rfl⟩ | ⟨passed, hfailed, hpassed, hending, rfl, hdoes, hactive⟩
  · refine ⟨[], t, .refl _, rfl, ?_, .refl _, rfl, rfl, rfl, hv⟩
    rw [playVoice, if_pos hfailed]
  · -- What is shared may differ, and with it what the pass leaves of it; nothing else does.
    have hpassed' : Playable.pass v.player.player pass t.host t.store.1 =
        { passed with store := t.store.1 } := by
      rw [hhost, ← hpassed]
      exact haloof.pass _ _ _ _ _ hv
    obtain ⟨t', hplay', hdoes', hactive'⟩ := t.playVoice_of_passed hfailed hpassed' hending
    refine ⟨_, t', hdoes, hactive, hplay', ?_, hactive', deedsOf_deed_self .., rfl, ?_⟩
    · rw [hhost] at hdoes'
      exact hdoes'
    · rw [← hpassed]
      exact haloof.after _ _ _ _ hv

theorem playVoices_apart (haloof : Playable.Aloof aloof) (hhost : t.host = s.host)
    {vs vs' : List (Voice (Heard ι))}
    (hvs : ∀ v ∈ vs, v.player.number = k → aloof v.player.player)
    (hplays : playVoices pass vs s = some (vs', s')) :
    ∃ ds t', s.Does s' ds ∧ s'.active = s.active ∧
      playVoices pass (vs.filter (·.player.number = k)) t =
        some (vs'.filter (·.player.number = k), t') ∧
      t.Does t' (deedsOf k ds) ∧ t'.active = t.active ∧
      ∀ v ∈ vs', v.player.number = k → aloof v.player.player := by
  induction vs generalizing s t vs' with
  | nil =>
    cases hplays
    exact ⟨[], t, .refl _, rfl, rfl, .refl _, rfl, forall_mem_nil _⟩
  | cons v vs ih =>
    obtain ⟨hv, hvs⟩ := forall_mem_cons.1 hvs
    obtain ⟨⟨v₁, s₁⟩, hplay, hplays⟩ := Option.bind_eq_some_iff.1 hplays
    obtain ⟨⟨vs₁, s₂⟩, hplays, hsome⟩ := Option.bind_eq_some_iff.1 hplays
    cases hsome
    by_cases hk : v.player.number = k
    · obtain ⟨ds, t₁, hdoes, hactive, hplay', hdoes', hactive', hself, hnumber, hv₁⟩ :=
        playVoice_aloof (t := t) haloof hhost (hv hk) hplay
      obtain ⟨es, t₂, hdoes₂, hactive₂, hplays', hdoes₂', hactive₂', hvs₁⟩ :=
        ih (t := t₁) (by rw [hdoes'.host, hdoes.host, hhost]) hvs hplays
      refine ⟨ds ++ es, t₂, hdoes.trans hdoes₂, hactive₂.trans hactive, ?_, ?_,
        hactive₂'.trans hactive', forall_mem_cons.2 ⟨fun _ => hv₁, hvs₁⟩⟩
      · rw [filter_cons_of_pos (by simpa using hk),
          filter_cons_of_pos (by simpa [hnumber] using hk), playVoices, hplay']
        change (playVoices pass _ t₁).bind _ = _
        rw [hplays']
        rfl
      · rw [deedsOf_append, ← hk, hself, hk]
        exact hdoes'.trans hdoes₂'
    · -- Another voice: the single voice does not notice.
      obtain ⟨ds, hdoes, hactive, hnumber, hothers⟩ : ∃ ds, s.Does s₁ ds ∧
          s₁.active = s.active ∧ v₁.player.number = v.player.number ∧ deedsOf k ds = [] := by
        rcases playVoice_cases hplay with ⟨-, rfl, rfl⟩ | ⟨passed, -, -, -, rfl, hdoes, hactive⟩
        · exact ⟨[], .refl _, rfl, rfl, rfl⟩
        · exact ⟨_, hdoes, hactive, rfl, deedsOf_deed_of_ne hk ..⟩
      obtain ⟨es, t₂, hdoes₂, hactive₂, hplays', hdoes₂', hactive₂', hvs₁⟩ :=
        ih (t := t) (by rw [hdoes.host, hhost]) hvs hplays
      refine ⟨ds ++ es, t₂, hdoes.trans hdoes₂, hactive₂.trans hactive, ?_, ?_, hactive₂',
        forall_mem_cons.2 ⟨fun h => absurd (hnumber.symm.trans h) hk, hvs₁⟩⟩
      · rw [filter_cons_of_neg (by simpa using hk),
          filter_cons_of_neg (by simpa [hnumber] using hk)]
        exact hplays'
      · rw [deedsOf_append, hothers]
        exact hdoes₂'

namespace Apart

/-! ### Frames, ticks and performances -/

variable (haloof : Playable.Aloof aloof) (h : Apart aloof k s t)

include haloof h

theorem playActive (hplay : Scheduler.playActive pass s = some s') :
    ∃ t', Scheduler.playActive pass t = some t' ∧ Apart aloof k s' t' := by
  obtain ⟨⟨vs, s₁⟩, hplays, hsome⟩ := Option.bind_eq_some_iff.1 hplay
  cases hsome
  obtain ⟨ds, t₁, hdoes, -, hplays', hdoes', -, hvs⟩ :=
    playVoices_apart (t := t) haloof h.host h.plays hplays
  refine ⟨_, ?_, h.does hdoes hdoes' hvs⟩
  rw [Scheduler.playActive, h.active, hplays']
  rfl

theorem promote (hpromote : s.promote = some s') :
    ∃ t', t.promote = some t' ∧ Apart aloof k s' t' := by
  obtain ⟨⟨vs, s₁⟩, hplays, hsome⟩ := Option.bind_eq_some_iff.1 hpromote
  cases hsome
  have hdue : ∀ v ∈ s.due, v.player.number = k → aloof v.player.player := by
    intro v hv
    obtain ⟨i, hi, rfl⟩ := mem_map.1 hv
    exact h.waits i (mem_filter.1 hi).1
  have hrest := h.withoutDue
  obtain ⟨ds, t₁, hdoes, hactive, hplays', hdoes', hactive', hvs⟩ :=
    playVoices_apart (t := t.withoutDue) haloof hrest.host hdue hplays
  have hplaying : ∀ v ∈ s₁.active ++ vs, v.player.number = k → aloof v.player.player := by
    rw [hactive]
    exact forall_mem_append.2 ⟨hrest.plays, hvs⟩
  refine ⟨_, ?_, hrest.does hdoes hdoes' hplaying⟩
  rw [Scheduler.promote, h.due, hplays', filter_append, hactive, ← hrest.active, ← hactive']
  rfl

theorem playFrame : Agree aloof k .done .stuck s.playFrame t.playFrame := by
  rcases s.playFrame_cases with hstuck | ⟨s₁, ending, hplay, -, hframe, -⟩
  · rw [hstuck]
    exact .of_over nofun h t.playFrame_grows
  · obtain ⟨t₁, hplay', h₁⟩ := (h.withSinks (Sink.clear s.sink) (Sink.clear t.sink)).playActive
      haloof hplay
    rcases t.playFrame_cases with hstuck' | ⟨t₂, ending', hplay₂, hending', hframe', -⟩
    · -- The single voice is not stuck, since its pass could be played.
      rw [Scheduler.playFrame, hplay'] at hstuck'
      rcases hemit : Sink.emit t₁.sink with ⟨sink, _ | reason⟩ <;> simp [hemit] at hstuck'
    · obtain rfl : t₁ = t₂ := Option.some.inj (hplay'.symm.trans hplay₂)
      rw [hframe, hframe']
      exact .of_apart hending' (h₁.withSinks _ _)

theorem playFrames (n : Nat) :
    Agree aloof k .done .stuck (Scheduler.playFrames n s) (Scheduler.playFrames n t) := by
  induction n generalizing s t with
  | zero => exact .of_apart nofun h
  | succ n ih =>
    rw [playFrames_succ, playFrames_succ]
    exact (h.playFrame haloof).next_next (playFrames_grows n) (playFrames_grows n)
      fun _ _ h₁ => ih h₁

theorem tick : Agree aloof k .done .stuck s.tick t.tick := by
  cases hturn : s.promote.bind fun s => Scheduler.playActive .control s.retire with
  | none =>
    rw [tick_of_stuck hturn]
    exact .of_over nofun h t.tick_grows
  | some s₂ =>
    obtain ⟨s₁, hpromote, hcontrol⟩ := Option.bind_eq_some_iff.1 hturn
    obtain ⟨t₁, hpromote', h₁⟩ := h.promote haloof hpromote
    obtain ⟨t₂, hcontrol', h₂⟩ := h₁.retire.playActive haloof hcontrol
    have hturn' : (t.promote.bind fun t => Scheduler.playActive .control t.retire) = some t₂ := by
      rw [hpromote', Option.bind_some, hcontrol']
    rw [tick_of_turn hturn, tick_of_turn hturn', h₂.settings]
    refine (h₂.playFrames haloof _).next_next (fun _ => prefix_rfl)
      (fun _ => prefix_rfl) fun s₃ t₃ h₃ => .of_apart nofun ?_
    exact ⟨h₃.settings, congrArg (· + 1) h₃.now, h₃.pending, h₃.active, h₃.deeds, h₃.waits,
      h₃.plays⟩

theorem attend : Agree aloof k .done .stuck s.attend t.attend := by
  by_cases hs : Sink.isCancelled s.sink = true
  · have hcancelled : s.attend = (s, .cancelled) := if_pos hs
    rw [hcancelled]
    exact .of_over nofun h t.attend_grows
  · by_cases ht : Sink.isCancelled t.sink = true
    · have hcancelled : t.attend = (t, .cancelled) := if_pos ht
      rw [hcancelled]
      refine .of_late nofun nofun ?_
      rw [h.deeds]
      exact s.attend_grows.filter _
    · have hagree := h.tick haloof
      unfold Scheduler.attend
      rw [if_neg hs, if_neg ht]
      -- What is told of the end of a tick is the end of the performance, in other words.
      exact ⟨fun hp hq => hagree.apart (TickEnd.told_eq_done.1 hp) (TickEnd.told_eq_done.1 hq),
        fun hp hq => hagree.going (TickEnd.told_eq_done.1 hp) (TickEnd.told_eq_stuck.1 hq),
        hagree.comparable, fun hq => hagree.early (TickEnd.told_eq_done.1 hq),
        fun hp => hagree.late (TickEnd.told_eq_done.1 hp)⟩

theorem play (n : Nat) : Agree aloof k .done .stuck (Scheduler.play n s) (Scheduler.play n t) := by
  induction n generalizing s t with
  | zero => exact .of_apart nofun h
  | succ n ih =>
    rw [play_succ, play_succ]
    exact (h.attend haloof).next_next (play_grows n) (play_grows n) fun _ _ h₁ => ih h₁

end Apart

end Scheduler

end Orchestrion
