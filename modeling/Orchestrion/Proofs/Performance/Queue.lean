import Mathlib.Data.List.FinRange
import Mathlib.Data.List.Sort
import Orchestrion.Proofs.Performance.Scheduler

/-!
# The order of what waits

A tick looks at what waits only to find what is due. What waits for other ticks has no influence, so
two performances whose queues agree on every tick render the same, whatever order the ticks have in
the queues.
-/

namespace Orchestrion

open List

/-! ### Lists that agree on every key -/

/-- Two lists have the same elements of every key in the same order. -/
def AgreeBy {α κ : Type} [DecidableEq κ] (key : α → κ) (xs ys : List α) : Prop :=
  ∀ k, xs.filter (key · = k) = ys.filter (key · = k)

namespace AgreeBy

variable {α β κ : Type} [DecidableEq κ] {key : α → κ} {xs ys : List α}

theorem perm [DecidableEq α] (h : AgreeBy key xs ys) : xs.Perm ys := by
  rw [perm_iff_count]
  intro a
  have hcount (zs : List α) : (zs.filter (key · = key a)).count a = zs.count a :=
    count_filter (by simp)
  rw [← hcount xs, ← hcount ys, h]

theorem filter (h : AgreeBy key xs ys) (p : α → Bool) :
    AgreeBy key (xs.filter p) (ys.filter p) := by
  intro k
  rw [filter_filter, filter_filter]
  simp only [Bool.and_comm]
  rw [← filter_filter, ← filter_filter, h]

theorem filterMap (h : AgreeBy key xs ys) {f : α → Option β} {key' : β → κ}
    (hkey : ∀ a ∈ xs ++ ys, ∀ b, f a = some b → key' b = key a) :
    AgreeBy key' (xs.filterMap f) (ys.filterMap f) := by
  have hfilter (k : κ) {zs : List α} (hzs : ∀ a ∈ zs, ∀ b, f a = some b → key' b = key a) :
      (zs.filterMap f).filter (key' · = k) = (zs.filter (key · = k)).filterMap f := by
    rw [filter_filterMap, filterMap_filter]
    refine filterMap_congr fun a ha => ?_
    cases hb : f a with
    | none => simp
    | some b => simp [Option.filter, hzs a ha b hb]
  intro k
  rw [hfilter k fun a ha => hkey a (mem_append_left _ ha),
    hfilter k fun a ha => hkey a (mem_append_right _ ha), h]

theorem of_equiv (π : Fin ys.length ≃ Fin xs.length) (hget : ∀ i, ys.get i = xs.get (π i))
    (horder : ∀ i j, i < j → key (ys.get i) = key (ys.get j) → π i < π j) : AgreeBy key xs ys := by
  intro k
  have hfilter (zs : List α) : zs.filter (key · = k) =
      ((List.finRange zs.length).filter fun i => key (zs.get i) = k).map zs.get := by
    conv_lhs => rw [← map_get_finRange zs, filter_map]
    rfl
  -- Both sides list the places of the key in `xs` in ascending order.
  have hplaces : (List.finRange xs.length).filter (fun i => key (xs.get i) = k) =
      ((List.finRange ys.length).filter fun i => key (ys.get i) = k).map π := by
    have hsorted (zs : List α) :
        ((List.finRange zs.length).filter fun i => key (zs.get i) = k).Pairwise
        (· < ·) := (pairwise_lt_finRange _).filter _
    have hsorted' : (((List.finRange ys.length).filter fun i => key (ys.get i) = k).map π).Pairwise
        (· < ·) := by
      rw [pairwise_map]
      refine (hsorted ys).imp_of_mem fun {i j} hi hj hlt => horder i j hlt ?_
      rw [of_decide_eq_true (mem_filter.1 hi).2, of_decide_eq_true (mem_filter.1 hj).2]
    refine List.Perm.eq_of_pairwise (fun i j _ _ hij hji => absurd hij (lt_asymm hji)) (hsorted xs)
      hsorted' ?_
    rw [perm_ext_iff_of_nodup ((nodup_finRange _).filter _)
      (((nodup_finRange _).filter _).map π.injective)]
    intro j
    simp only [mem_filter, mem_finRange, true_and, mem_map, decide_eq_true_eq]
    constructor
    · intro hj
      exact ⟨π.symm j, by rw [hget, π.apply_symm_apply, hj], π.apply_symm_apply j⟩
    · rintro ⟨i, hi, rfl⟩
      rw [← hget, hi]
  rw [hfilter, hfilter, hplaces, map_map]
  refine map_congr_left fun i _ => ?_
  exact (hget i).symm

theorem mergeSort (le : κ → κ → Bool) (hrefl : ∀ k, le k k = true)
    (htrans : ∀ a b c, le a b = true → le b c = true → le a c = true)
    (htotal : ∀ a b, (le a b || le b a) = true) (xs : List α) :
    AgreeBy key xs (xs.mergeSort fun a b => le (key a) (key b)) := by
  intro k
  have hsublist : (xs.filter (key · = k)).Sublist (xs.mergeSort fun a b => le (key a) (key b)) := by
    refine sublist_mergeSort (fun a b c => htrans (key a) (key b) (key c))
      (fun a b => htotal (key a) (key b)) ?_ filter_sublist
    refine pairwise_of_forall_mem_list fun a ha b hb => ?_
    rw [of_decide_eq_true (mem_filter.1 ha).2, of_decide_eq_true (mem_filter.1 hb).2]
    exact hrefl k
  have hself := hsublist.filter (key · = k)
  rw [filter_filter] at hself
  simp only [Bool.and_self] at hself
  refine hself.eq_of_length ?_
  exact ((mergeSort_perm xs _).filter _).length_eq.symm

end AgreeBy

/-! ### Ticks -/

theorem Tick.toInt_succ {t : Tick} (h : t.toInt < Tick.unbounded.toInt) :
    (t + 1).toInt = t.toInt + 1 := by
  have hone : Int64.toInt 1 = 1 := by decide
  have hmax : Tick.unbounded.toInt = 2 ^ 63 - 1 := by decide
  have hmin : -2 ^ 63 ≤ t.toInt := Int64.le_toInt t
  rw [Int64.toInt_add, hone]
  rw [hmax] at h
  exact Int.bmod_eq_of_le (by omega) (by omega)

/-- The tick at which what has the lifetime becomes active in a performance that starts at zero. -/
def Lifetime.promotion (l : Lifetime) : Tick := max 0 l.start

theorem Lifetime.toInt_promotion (l : Lifetime) : l.promotion.toInt = max 0 l.start.toInt := by
  change (if 0 ≤ l.start then l.start else 0).toInt = _
  split
  next h =>
    rw [Int64.le_iff_toInt_le, Int64.toInt_zero] at h
    omega
  next h =>
    rw [Int64.le_iff_toInt_le, Int64.toInt_zero] at h
    rw [Int64.toInt_zero]
    omega

theorem Lifetime.promotion_nonneg (l : Lifetime) : 0 ≤ l.promotion := by
  rw [Int64.le_iff_toInt_le, toInt_promotion, Int64.toInt_zero]
  omega

namespace Scheduler

variable {ι σ γ : Type} [Playable ι γ] [Sink σ]

def withPending (s : Scheduler ι σ γ) (queue : List ι) : Scheduler ι σ γ :=
  { s with pending := queue }

omit [Playable ι γ] [Sink σ] in
theorem withPending_eq_restage (queue : List ι) : (fun s : Scheduler ι σ γ => s.withPending queue) =
    restage ⟨id, id, id, id, fun _ => queue⟩ := by
  funext s
  simp [withPending, restage, Voice.map_id]

theorem playVoices_withPending (pass : Pass) (vs : List (Voice ι)) (s : Scheduler ι σ γ)
    (queue : List ι) :
    playVoices pass vs (s.withPending queue) =
      (playVoices pass vs s).map (Prod.map id (·.withPending queue)) := by
  rw [withPending_eq_restage, congrFun (withPending_eq_restage queue) s]
  simpa [Voice.map_id] using
    playVoices_restage (r := ⟨id, id, id, id, fun _ => queue⟩) ⟨.id, .id⟩ pass vs s

theorem playActive_withPending (pass : Pass) (s : Scheduler ι σ γ) (queue : List ι) :
    playActive pass (s.withPending queue) = (playActive pass s).map (·.withPending queue) := by
  rw [withPending_eq_restage, congrFun (withPending_eq_restage queue) s]
  exact playActive_restage ⟨.id, .id⟩ pass s

theorem playFrames_withPending (n : Nat) (s : Scheduler ι σ γ) (queue : List ι) :
    playFrames n (s.withPending queue) = (playFrames n s).map (·.withPending queue) id := by
  rw [withPending_eq_restage, congrFun (withPending_eq_restage queue) s]
  exact playFrames_restage ⟨.id, .id⟩ n s

/-- What a tick does with the instruments that are due, up to the clock; `none` if there is no way
on before the first frame. -/
def turn (s : Scheduler ι σ γ) (due : List ι) : Option (Scheduler ι σ γ × TickEnd) :=
  (playVoices .init (due.map fun player => ⟨player, false⟩) s).bind fun (promoted, s) =>
    (playActive .control (retire { s with active := s.active ++ promoted })).map fun s =>
      playFrames s.settings.samplesPerTick.toNat s

def advance : Scheduler ι σ γ × TickEnd → Scheduler ι σ γ × TickEnd
  | (s, .done) => ({ s with now := s.now + 1 }, .done)
  | ended => ended

theorem tick_withPending (s : Scheduler ι σ γ) (queue : List ι) :
    (s.withPending queue).tick =
      match s.turn (queue.filter s.isDue) with
      | none => (s.withPending queue, .stuck)
      | some ended =>
        (advance ended).map (·.withPending (queue.filter fun player => !s.isDue player)) id := by
  have hdue : (s.withPending queue).due =
      (queue.filter s.isDue).map fun player => ⟨player, false⟩ := rfl
  have hrest : (s.withPending queue).withoutDue =
      s.withPending (queue.filter fun player => !s.isDue player) := rfl
  rw [tick, promote, turn, hdue, hrest, playVoices_withPending]
  cases playVoices .init ((queue.filter s.isDue).map fun player => ⟨player, false⟩) s with
  | none => rfl
  | some promoted =>
    obtain ⟨promoted, s₁⟩ := promoted
    have hretire (rest : List ι) : retire { s₁.withPending rest with
        active := (s₁.withPending rest).active ++ promoted } =
      withPending (retire { s₁ with active := s₁.active ++ promoted }) rest := rfl
    simp only [Option.map_some, Prod.map, id, Option.bind_eq_bind, Option.bind_some,
      Option.pure_def, hretire, playActive_withPending]
    cases playActive .control (retire { s₁ with active := s₁.active ++ promoted }) with
    | none => rfl
    | some s₂ =>
      have hsettings (rest : List ι) : (s₂.withPending rest).settings = s₂.settings := rfl
      simp only [Option.map_some, hsettings, playFrames_withPending]
      rcases playFrames s₂.settings.samplesPerTick.toNat s₂ with ⟨s₃, _ | reason | _⟩ <;> rfl

/-! ### The clock -/

theorem playVoices_eq_some {pass : Pass} {vs vs' : List (Voice ι)} {s s' : Scheduler ι σ γ}
    (h : playVoices pass vs s = some (vs', s')) : ∃ (sounds : List Sound) (store : γ)
    (failures : List PassError),
      s' = { s with sink := sounds.foldl Sink.add s.sink, store, failures } := by
  induction vs generalizing s vs' with
  | nil =>
    cases h
    exact ⟨[], _, _, rfl⟩
  | cons v vs ih =>
    obtain ⟨⟨v₁, s₁⟩, hv, h⟩ := Option.bind_eq_some_iff.1 h
    obtain ⟨⟨vs₁, s₂⟩, hvs, h⟩ := Option.bind_eq_some_iff.1 h
    cases h
    obtain ⟨sounds, store, failures, rfl⟩ := ih hvs
    rw [playVoice] at hv
    split at hv
    · cases hv
      exact ⟨sounds, store, failures, rfl⟩
    · generalize Playable.pass v.player pass s.host s.store = passed at hv
      obtain ⟨after, store', heard, ending⟩ := passed
      cases ending with
      | finished | failed =>
        cases hv
        exact ⟨heard ++ sounds, store, failures, by rw [foldl_append]⟩
      | stuck => cases hv

theorem playActive_eq_some {pass : Pass} {s s' : Scheduler ι σ γ}
    (h : playActive pass s = some s') :
    ∃ (sounds : List Sound) (store : γ) (active : List (Voice ι)) (failures : List PassError),
      s' = { s with sink := sounds.foldl Sink.add s.sink, store, active, failures } := by
  obtain ⟨⟨vs, s₁⟩, hvs, h⟩ := Option.bind_eq_some_iff.1 h
  obtain ⟨sounds, store, failures, rfl⟩ := playVoices_eq_some hvs
  cases h
  exact ⟨sounds, store, vs, failures, rfl⟩

theorem now_playFrames (n : Nat) (s : Scheduler ι σ γ) : (playFrames n s).1.now = s.now := by
  have hframe (s : Scheduler ι σ γ) : s.playFrame.1.now = s.now := by
    rw [playFrame]
    split
    next => rfl
    next s' hs' =>
      obtain ⟨sounds, store, active, failures, rfl⟩ := playActive_eq_some hs'
      rcases Sink.emit (sounds.foldl Sink.add (Sink.clear s.sink)) with ⟨sink, _ | reason⟩ <;> rfl
  induction n generalizing s with
  | zero => rfl
  | succ n ih =>
    rw [playFrames]
    have hs := hframe s
    rcases hplayed : s.playFrame with ⟨s', _ | reason | _⟩ <;> rw [hplayed] at hs
    · exact (ih s').trans hs
    · exact hs
    · exact hs

theorem now_turn {s : Scheduler ι σ γ} {due : List ι} {ended : Scheduler ι σ γ × TickEnd}
    (h : s.turn due = some ended) : ended.1.now = s.now := by
  obtain ⟨⟨promoted, s₁⟩, hinit, h⟩ := Option.bind_eq_some_iff.1 h
  obtain ⟨s₂, hcontrol, rfl⟩ := Option.map_eq_some_iff.1 h
  obtain ⟨_, _, _, rfl⟩ := playVoices_eq_some hinit
  obtain ⟨_, _, _, _, rfl⟩ := playActive_eq_some hcontrol
  exact now_playFrames ..

/-! ### Performances -/

omit [Sink σ] in
theorem filter_isDue {s : Scheduler ι σ γ} (hnow : 0 ≤ s.now) {queue : List ι}
    (hlater : ∀ player ∈ queue, s.now ≤ (Playable.lifetime player).promotion) :
    queue.filter s.isDue =
      queue.filter fun player => (Playable.lifetime player).promotion = s.now := by
  refine filter_congr fun player hplayer => ?_
  have hlater := hlater player hplayer
  rw [isDue, decide_eq_decide, ← Int64.toInt_inj, Lifetime.toInt_promotion]
  rw [Int64.le_iff_toInt_le, Lifetime.toInt_promotion] at hlater
  rw [Int64.le_iff_toInt_le] at hnow ⊢
  rw [Int64.toInt_zero] at hnow
  omega

/-- Two performances have come to the same end, and differ in what waits only. -/
def DifferInQueue (ended ended' : Scheduler ι σ γ × RunEnd) : Prop :=
  ∃ s queue queue' ending, ended = (withPending s queue, ending) ∧
    ended' = (withPending s queue', ending)

omit [Playable ι γ] in
theorem DifferInQueue.close {ended ended' : Scheduler ι σ γ × RunEnd}
    (h : DifferInQueue ended ended') :
    DifferInQueue (Scheduler.close ended) (Scheduler.close ended') := by
  obtain ⟨s, queue, queue', ending, rfl, rfl⟩ := h
  have hclose (queue : List ι) : Scheduler.close (s.withPending queue, ending) =
      ((Scheduler.close (s, ending)).1.withPending queue, (Scheduler.close (s, ending)).2) := by
    simp only [Scheduler.close, withPending]
    rcases Sink.close s.sink with ⟨sink, _ | reason⟩ <;> cases ending <;> rfl
  exact ⟨_, queue, queue', _, hclose queue, hclose queue'⟩

/-- Two queues agree on every tick from now on, and nothing in them should have left before. -/
structure Waits (s : Scheduler ι σ γ) (queue queue' : List ι) : Prop where
  agree : AgreeBy (fun player => (Playable.lifetime player).promotion) queue queue'
  now : 0 ≤ s.now
  later : ∀ player ∈ queue, s.now ≤ (Playable.lifetime player).promotion
  later' : ∀ player ∈ queue', s.now ≤ (Playable.lifetime player).promotion

namespace Waits

variable {s : Scheduler ι σ γ} {queue queue' : List ι}

omit [Sink σ] in
theorem due (h : s.Waits queue queue') : queue.filter s.isDue = queue'.filter s.isDue := by
  rw [filter_isDue h.now h.later, filter_isDue h.now h.later', h.agree]

omit [Sink σ] in
theorem step (h : s.Waits queue queue') (hroom : s.now.toInt < Tick.unbounded.toInt)
    {s' : Scheduler ι σ γ} (hnow : s'.now = s.now + 1) :
    s'.Waits (queue.filter fun player => !s.isDue player)
      (queue'.filter fun player => !s.isDue player) := by
  have hs := h.now
  rw [Int64.le_iff_toInt_le, Int64.toInt_zero] at hs
  have hnext : s'.now.toInt = s.now.toInt + 1 := by
    rw [hnow, Tick.toInt_succ hroom]
  have hlater (player : ι) (hdue : s.isDue player = false) :
      s'.now ≤ (Playable.lifetime player).promotion := by
    rw [isDue, decide_eq_false_iff_not, Int64.le_iff_toInt_le] at hdue
    rw [Int64.le_iff_toInt_le, hnext, Lifetime.toInt_promotion]
    omega
  refine ⟨h.agree.filter _, ?_, fun player hplayer => ?_, fun player hplayer => ?_⟩
  · rw [Int64.le_iff_toInt_le, hnext, Int64.toInt_zero]
    omega
  · exact hlater player (by simpa using (mem_filter.1 hplayer).2)
  · exact hlater player (by simpa using (mem_filter.1 hplayer).2)

theorem play (h : s.Waits queue queue') (n : Nat) (hroom : s.now.toInt + n ≤ Tick.unbounded.toInt) :
    DifferInQueue (Scheduler.play n (s.withPending queue))
      (Scheduler.play n (s.withPending queue')) := by
  induction n generalizing s queue queue' with
  | zero => exact ⟨s, queue, queue', .done, rfl, rfl⟩
  | succ n ih =>
    change DifferInQueue (if Sink.isCancelled s.sink then _ else _)
      (if Sink.isCancelled s.sink then _ else _)
    split
    · exact ⟨s, queue, queue', .cancelled, rfl, rfl⟩
    · rw [tick_withPending, tick_withPending, ← h.due]
      cases hturn : s.turn (queue.filter s.isDue) with
      | none => exact ⟨s, queue, queue', .stuck, rfl, rfl⟩
      | some ended =>
        have hnow := now_turn hturn
        obtain ⟨s₁, _ | reason | _⟩ := ended
        · refine ih (s := { s₁ with now := s₁.now + 1 }) (h.step (by omega) (by rw [← hnow])) ?_
          rw [hnow, Tick.toInt_succ (by omega)]
          omega
        · exact ⟨s₁, _, _, .emitFailed s₁.now reason, rfl, rfl⟩
        · exact ⟨s₁, _, _, .stuck, rfl, rfl⟩

theorem run (h : s.Waits queue queue') :
    DifferInQueue (s.withPending queue).run (s.withPending queue').run := by
  have hnow := h.now
  have hfinish : s.finish.toInt ≤ Tick.unbounded.toInt := Int64.toInt_le _
  have hnowMax : s.now.toInt ≤ Tick.unbounded.toInt := Int64.toInt_le _
  exact (h.play s.ticksLeft (by rw [ticksLeft]; omega)).close

end Waits

end Scheduler

end Orchestrion
