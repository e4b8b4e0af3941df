import Orchestrion.Proofs.Performance.Queue

/-!
# Performances that come to their end

If the passes of all players end and the sink takes every frame, every tick is played to its end,
and so is a performance to which the listener does not put an end.
-/

namespace Orchestrion

/-- The passes of some players end, and leave such players and a fit store; and the players have the
lifetimes that they are given. -/
structure Playable.PassesEnd {ι γ : Type} [Playable ι γ] (good : ι → Prop) (fit : γ → Prop) :
    Prop where
  lifetime : ∀ i l, good i → Playable.lifetime (Playable.withLifetime i l) = l
  withLifetime : ∀ i l, good i → good (Playable.withLifetime i l)
  ending : ∀ i p h g, good i → fit g → (Playable.pass i p h g).ending ≠ .stuck
  after : ∀ i p h g, good i → fit g → good (Playable.pass i p h g).after
  store : ∀ i p h g, good i → fit g → fit (Playable.pass i p h g).store

section Ready

variable {ι σ γ : Type} [Playable ι γ] [Sink σ] {good : ι → Prop} {fit : γ → Prop}
  (hends : Playable.PassesEnd good fit) {s : Scheduler ι σ γ}

namespace Scheduler

/-- All players of a scheduler are good, and what they share is fit for them. -/
structure Ready (good : ι → Prop) (fit : γ → Prop) (s : Scheduler ι σ γ) : Prop where
  pending : ∀ i ∈ s.pending, good i
  active : ∀ v ∈ s.active, good v.player
  store : fit s.store

include hends

theorem playVoice_done (pass : Pass) {v : Voice ι} (hv : good v.player) (hfit : fit s.store) :
    ∃ v' s', s.playVoice pass v = some (v', s') ∧ good v'.player ∧ fit s'.store := by
  obtain ⟨player, failed⟩ := v
  cases failed with
  | true => exact ⟨_, s, rfl, hv, hfit⟩
  | false =>
    have hending := hends.ending player pass s.host s.store hv hfit
    have hafter := hends.after player pass s.host s.store hv hfit
    have hstore := hends.store player pass s.host s.store hv hfit
    have hplay : s.playVoice pass ⟨player, false⟩ =
      s.receive pass (Playable.pass player pass s.host s.store) := rfl
    rw [hplay]
    generalize Playable.pass player pass s.host s.store = passed at *
    obtain ⟨after, store, sounds, ending⟩ := passed
    cases ending with
    | finished | failed => exact ⟨_, _, rfl, hafter, hstore⟩
    | stuck => exact absurd rfl hending

theorem playVoices_done (pass : Pass) {vs : List (Voice ι)} (hvs : ∀ v ∈ vs, good v.player)
    (hfit : fit s.store) : ∃ vs' s', playVoices pass vs s = some (vs', s') ∧
      (∀ v ∈ vs', good v.player) ∧ fit s'.store := by
  induction vs generalizing s with
  | nil => exact ⟨[], s, rfl, List.forall_mem_nil _, hfit⟩
  | cons v vs ih =>
    obtain ⟨hv, hvs⟩ := List.forall_mem_cons.1 hvs
    obtain ⟨v', s', hplay, hv', hfit'⟩ := playVoice_done (s := s) hends pass hv hfit
    obtain ⟨vs', s'', hplays, hvs', hfit''⟩ := ih (s := s') hvs hfit'
    refine ⟨v' :: vs', s'', ?_, List.forall_mem_cons.2 ⟨hv', hvs'⟩, hfit''⟩
    rw [playVoices, hplay]
    change (playVoices pass vs s').bind _ = _
    rw [hplays]
    rfl

theorem playActive_done (pass : Pass) (hs : s.Ready good fit) :
    ∃ s', playActive pass s = some s' ∧ s'.Ready good fit := by
  obtain ⟨vs, s', hplays, hvs, hfit⟩ := playVoices_done hends pass hs.active hs.store
  have hplay : playActive pass s = some { s' with active := vs } := by
    rw [playActive, hplays]
    rfl
  obtain ⟨_, _, _, rfl⟩ := playVoices_eq_some hplays
  exact ⟨_, hplay, hs.pending, hvs, hfit⟩

theorem promote_done (hs : s.Ready good fit) : ∃ s', s.promote = some s' ∧ s'.Ready good fit := by
  have hdue : ∀ v ∈ s.due, good v.player := by
    intro v hv
    obtain ⟨i, hi, rfl⟩ := List.mem_map.1 hv
    exact hs.pending i (List.mem_filter.1 hi).1
  obtain ⟨vs, s', hplays, hvs, hfit⟩ :=
    playVoices_done (s := s.withoutDue) hends .init hdue hs.store
  have hpromote : s.promote = some { s' with active := s'.active ++ vs } := by
    rw [promote, hplays]
    rfl
  obtain ⟨_, _, _, rfl⟩ := playVoices_eq_some hplays
  refine ⟨_, hpromote, fun i hi => ?_, List.forall_mem_append.2 ⟨hs.active, hvs⟩, hfit⟩
  exact hs.pending i (List.mem_filter.1 hi).1

theorem playFrames_done (hemit : ∀ sink : σ, (Sink.emit sink).2 = none) (n : Nat)
    (hs : s.Ready good fit) : ∃ s', playFrames n s = (s', .done) ∧ s'.Ready good fit := by
  induction n generalizing s with
  | zero => exact ⟨s, rfl, hs⟩
  | succ n ih =>
    obtain ⟨s', hplays, hs'⟩ := playActive_done (s := { s with sink := Sink.clear s.sink })
      hends .audio ⟨hs.pending, hs.active, hs.store⟩
    have hframe : s.playFrame = ({ s' with sink := (Sink.emit s'.sink).1 }, .done) := by
      have hemitted : Sink.emit s'.sink = ((Sink.emit s'.sink).1, none) := Prod.ext rfl (hemit _)
      rw [playFrame, hplays]
      simp only
      rw [hemitted]
    rw [playFrames, hframe]
    exact ih ⟨hs'.pending, hs'.active, hs'.store⟩

theorem tick_done (hemit : ∀ sink : σ, (Sink.emit sink).2 = none) (hs : s.Ready good fit) :
    ∃ s', s.tick = (s', .done) ∧ s'.Ready good fit := by
  obtain ⟨s₁, hpromote, hs₁⟩ := promote_done hends hs
  have hretired : s₁.retire.Ready good fit :=
    ⟨hs₁.pending, fun v hv => hs₁.active v (List.mem_filter.1 hv).1, hs₁.store⟩
  obtain ⟨s₂, hcontrol, hs₂⟩ := playActive_done hends .control hretired
  obtain ⟨s₃, hframes, hs₃⟩ := playFrames_done hends hemit s₂.settings.samplesPerTick.toNat hs₂
  refine ⟨{ s₃ with now := s₃.now + 1 }, ?_, hs₃.pending, hs₃.active, hs₃.store⟩
  rw [tick, hpromote, Option.bind_some, hcontrol]
  simp only
  rw [hframes]

theorem play_done (hemit : ∀ sink : σ, (Sink.emit sink).2 = none)
    (hlistens : ∀ sink : σ, Sink.isCancelled sink = false) (n : Nat) (hs : s.Ready good fit) :
    ∃ s', play n s = (s', .done) := by
  induction n generalizing s with
  | zero => exact ⟨s, rfl⟩
  | succ n ih =>
    obtain ⟨s', htick, hs'⟩ := tick_done hends hemit hs
    obtain ⟨s'', hplay⟩ := ih hs'
    refine ⟨s'', ?_⟩
    rw [play, hlistens, htick]
    exact hplay

end Scheduler

end Ready

end Orchestrion
