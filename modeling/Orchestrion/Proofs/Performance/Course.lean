import Mathlib.Data.List.Induction
import Mathlib.Data.List.Nodup
import Mathlib.Data.List.Perm.Subperm
import Orchestrion.Proofs.Performance.Calls

/-!
# The course of a voice

A voice waits, plays and is retired. What a tick calls of it depends on the stage that it is in, and
on nothing that happens to other voices: a tick of all voices is a tick of each of them.
-/

namespace Orchestrion

open List

/-- The stages of a voice. -/
inductive Stage where
  /-- The voice is not due yet. -/
  | waiting (life : Lifetime)
  /-- The voice is active; it may have failed. -/
  | playing (st : Status)
  /-- The voice is never played again. -/
  | retired
deriving DecidableEq, Repr

/-- What a tick calls of an active voice after the init passes: nothing if the voice has failed or
its end has passed, and otherwise the control pass and the audio passes. -/
inductive Status.Plays (k n : Nat) (t : Tick) : Status → List Call → Stage → Prop
  | retire {st : Status} (ended : st.isAlive t = false) : Plays k n t st [] .retired
  | play {st st' st'' : Status} {cs : List Call} (alive : st.isAlive t = true)
      (audio : st'.Renders k t n cs st'') :
      Plays k n t st (⟨k, .control, t, st'⟩ :: cs) (.playing st'')

/-- What a tick calls of a voice. -/
inductive Stage.Advances (k n : Nat) (t : Tick) : Stage → List Call → Stage → Prop
  | wait {life : Lifetime} (early : t < life.start) :
      Advances k n t (.waiting life) [] (.waiting life)
  | enter {life : Lifetime} {st : Status} {cs : List Call} {stage : Stage} (due : life.start ≤ t)
      (plays : st.Plays k n t cs stage) :
      Advances k n t (.waiting life) (⟨k, .init, t, st⟩ :: cs) stage
  | play {st : Status} {cs : List Call} {stage : Stage} (plays : st.Plays k n t cs stage) :
      Advances k n t (.playing st) cs stage
  | rest : Advances k n t .retired [] .retired

/-! ### A tick advances each voice -/

namespace Roster

variable {k n : Nat} {t : Tick} {r r' r'' : Roster} {cs : List Call} {frames : List (List Call)}

def Places (r : Roster) (k : Nat) : Stage → Prop
  | .waiting _ => False
  | .playing st => (k, st) ∈ r
  | .retired => k ∉ r.numbers

theorem numbers_filter_sublist (r : Roster) (p : Nat × Status → Bool) :
    (numbers (r.filter p)).Sublist r.numbers := filter_sublist.map _

theorem plays (hnodup : r.numbers.Nodup)
    (hcontrol : Passes .control t (r.filter fun v => v.2.isAlive t) cs r')
    (haudio : Renders t n r' frames r'') {st : Status} (hmem : (k, st) ∈ r) :
    ∃ stage, st.Plays k n t (callsOf k (cs ++ frames.flatten)) stage ∧ r''.Places k stage := by
  have hnodup' := hnodup.sublist (r.numbers_filter_sublist fun v => v.2.isAlive t)
  rw [callsOf_append]
  cases halive : st.isAlive t with
  | true =>
    obtain ⟨st', hmem', hpasses⟩ := hcontrol.of_mem hnodup' (mem_filter.2 ⟨hmem, halive⟩)
    obtain ⟨st'', hmem'', hrenders⟩ := haudio.of_mem (hcontrol.numbers_eq ▸ hnodup') hmem'
    generalize callsOf k cs = ds at hpasses
    cases hpasses with
    | silent failed => simp [Status.isAlive, failed] at halive
    | call => exact ⟨.playing st'', .play halive hrenders, hmem''⟩
  | false =>
    -- The only entry of the voice is filtered out.
    have hdropped : k ∉ numbers (r.filter fun v => v.2.isAlive t) := by
      intro hk
      obtain ⟨⟨j, st'⟩, hmem', rfl⟩ := mem_map.1 hk
      obtain ⟨hmem', halive'⟩ := mem_filter.1 hmem'
      have heq := inj_on_of_nodup_map hnodup hmem hmem' rfl
      cases heq
      simp [halive] at halive'
    rw [hcontrol.callsOf_of_not_mem hdropped,
      haudio.callsOf_of_not_mem (hcontrol.numbers_eq ▸ hdropped)]
    refine ⟨.retired, .retire halive, ?_⟩
    rw [Places, haudio.numbers_eq, hcontrol.numbers_eq]
    exact hdropped

theorem silent_of_not_mem
    (hcontrol : Passes .control t (r.filter fun v => v.2.isAlive t) cs r')
    (haudio : Renders t n r' frames r'') (hk : k ∉ r.numbers) :
    callsOf k (cs ++ frames.flatten) = [] ∧ k ∉ r''.numbers := by
  have hdropped : k ∉ numbers (r.filter fun v => v.2.isAlive t) :=
    fun hmem => hk ((r.numbers_filter_sublist _).subset hmem)
  rw [callsOf_append, hcontrol.callsOf_of_not_mem hdropped,
    haudio.callsOf_of_not_mem (hcontrol.numbers_eq ▸ hdropped)]
  exact ⟨rfl, haudio.numbers_eq ▸ hcontrol.numbers_eq ▸ hdropped⟩

end Roster

namespace Ensemble

/-- The numbers of the voices that wait. -/
def awaited (e : Ensemble) : List Nat := e.waiting.map Prod.fst

def numbers (e : Ensemble) : List Nat := e.awaited ++ e.playing.numbers

def Places (e : Ensemble) (k : Nat) : Stage → Prop
  | .waiting life => (k, life) ∈ e.waiting ∧ k ∉ e.playing.numbers
  | .playing st => k ∉ e.awaited ∧ (k, st) ∈ e.playing
  | .retired => k ∉ e.awaited ∧ k ∉ e.playing.numbers

variable {n k : Nat} {t : Tick} {e e' : Ensemble} {inits controls : List Call}
  {frames : List (List Call)}

theorem places_of_roster {stage : Stage} (hk : k ∉ e.awaited) (h : e.playing.Places k stage) :
    e.Places k stage := by
  cases stage with
  | waiting => cases h
  | playing => exact ⟨hk, h⟩
  | retired => exact ⟨hk, h⟩

theorem Places.unique {stage stage' : Stage} (h : e.Places k stage) (hnodup : e.numbers.Nodup)
    (h' : e.Places k stage') : stage = stage' := by
  obtain ⟨hwaiting, hplaying, -⟩ := nodup_append.1 hnodup
  cases stage with
  | waiting life =>
    have hk : k ∈ e.awaited := mem_map_of_mem h.1
    cases stage' with
    | waiting life' =>
      cases inj_on_of_nodup_map hwaiting h.1 h'.1 rfl
      rfl
    | playing => exact absurd hk h'.1
    | retired => exact absurd hk h'.1
  | playing st =>
    have hk : k ∈ e.playing.numbers := mem_map_of_mem h.2
    cases stage' with
    | waiting => exact absurd hk h'.2
    | playing st' =>
      cases inj_on_of_nodup_map hplaying h.2 h'.2 rfl
      rfl
    | retired => exact absurd hk h'.2
  | retired =>
    cases stage' with
    | waiting => exact absurd (mem_map_of_mem h'.1) h.1
    | playing => exact absurd (mem_map_of_mem h'.2) h.2
    | retired => rfl

theorem numbers_due (e : Ensemble) (t : Tick) :
    (e.due t).numbers = (e.waiting.filter fun v => v.2.start ≤ t).map Prod.fst := map_map ..

theorem numbers_due_sublist (e : Ensemble) (t : Tick) : (e.due t).numbers.Sublist e.awaited := by
  rw [numbers_due]
  exact filter_sublist.map _

theorem numbers_perm (e : Ensemble) (t : Tick) :
    ((e.waiting.filter fun v => !decide (v.2.start ≤ t)).map Prod.fst ++
      (e.playing.numbers ++ (e.due t).numbers)).Perm e.numbers := by
  have hwaiting : ((e.waiting.filter fun v => v.2.start ≤ t).map Prod.fst ++
      (e.waiting.filter fun v => !decide (v.2.start ≤ t)).map Prod.fst).Perm e.awaited := by
    rw [← map_append]
    exact (filter_append_perm _ _).map _
  rw [numbers_due]
  calc _
    _ = (_ ++ e.playing.numbers) ++ _ := (append_assoc ..).symm
    _ |>.Perm (_ ++ (_ ++ e.playing.numbers)) := perm_append_comm
    _ = ((_ ++ _) ++ e.playing.numbers) := (append_assoc ..).symm
    _ |>.Perm (e.awaited ++ e.playing.numbers) := hwaiting.append_right _

namespace Turns

variable (h : e.Turns n t inits controls frames e')

include h

theorem playing_sublist : e'.playing.numbers.Sublist (e.playing.numbers ++ (e.due t).numbers) := by
  obtain ⟨promoted, controlled, hinit, hcontrol, haudio⟩ := h.playing
  rw [haudio.numbers_eq, hcontrol.numbers_eq, ← hinit.numbers_eq]
  have hsublist := Roster.numbers_filter_sublist (e.playing ++ promoted) fun v => v.2.isAlive t
  rwa [Roster.numbers.eq_def (e.playing ++ promoted), map_append] at hsublist

theorem subperm : e'.numbers.Subperm e.numbers := by
  refine List.Subperm.trans ?_ (e.numbers_perm t).subperm
  rw [numbers, awaited, h.waiting]
  exact (h.playing_sublist.append_left _).subperm

theorem awaited_sublist : e'.awaited.Sublist e.awaited := by
  rw [awaited, h.waiting]
  exact filter_sublist.map _

theorem advances (hnodup : e.numbers.Nodup)
    {stage : Stage} (hstage : e.Places k stage) :
    ∃ stage', stage.Advances k n t (callsOf k (inits ++ controls ++ frames.flatten)) stage' ∧
      e'.Places k stage' := by
  obtain ⟨promoted, controlled, hinit, hcontrol, haudio⟩ := h.playing
  have hnumbers : (e.playing ++ promoted).numbers = e.playing.numbers ++ (e.due t).numbers := by
    rw [← hinit.numbers_eq]
    exact map_append
  obtain ⟨-, hnodup', hdisjoint⟩ := nodup_append.1 ((e.numbers_perm t).nodup_iff.2 hnodup)
  rw [← hnumbers] at hnodup' hdisjoint
  rw [append_assoc, callsOf_append]
  cases stage with
  | waiting life =>
    obtain ⟨hmem, hk⟩ := hstage
    by_cases hdue : life.start ≤ t
    · have hmem' : (k, ⟨life, false⟩) ∈ e.due t :=
        mem_map.2 ⟨(k, life), mem_filter.2 ⟨hmem, decide_eq_true hdue⟩, rfl⟩
      obtain ⟨st, hst, hpasses⟩ := hinit.of_mem
        ((nodup_append.1 (hnumbers ▸ hnodup')).2.1) hmem'
      have hst' : (k, st) ∈ e.playing ++ promoted := mem_append_right _ hst
      obtain ⟨stage', hplays, hplace⟩ := Roster.plays hnodup' hcontrol haudio hst'
      refine ⟨stage', ?_, places_of_roster ?_ hplace⟩
      · generalize callsOf k inits = cs at hpasses
        cases hpasses with
        | silent failed => cases failed
        | call => exact .enter hdue hplays
      · rw [awaited, h.waiting]
        exact fun hk' => hdisjoint k hk' k (mem_map_of_mem hst') rfl
    · have hkdue : k ∉ (e.due t).numbers := by
        rw [numbers_due]
        intro hk'
        obtain ⟨⟨_, life'⟩, hmem', rfl⟩ := mem_map.1 hk'
        obtain ⟨hmem', hdue'⟩ := mem_filter.1 hmem'
        -- The voice waits with one lifetime only.
        cases inj_on_of_nodup_map (nodup_append.1 hnodup).1 hmem hmem' rfl
        exact hdue (of_decide_eq_true hdue')
      obtain ⟨hsilent, hk'⟩ := Roster.silent_of_not_mem hcontrol haudio
        (hnumbers ▸ not_mem_append hk hkdue)
      rw [hinit.callsOf_of_not_mem hkdue, hsilent]
      refine ⟨.waiting life, .wait (Int64.not_le.1 hdue), ?_, hk'⟩
      rw [h.waiting]
      exact mem_filter.2 ⟨hmem, by simpa using hdue⟩
  | playing st =>
    obtain ⟨hk, hmem⟩ := hstage
    obtain ⟨stage', hplays, hplace⟩ :=
      Roster.plays hnodup' hcontrol haudio (mem_append_left promoted hmem)
    have hkdue : k ∉ (e.due t).numbers := fun hk' => hk ((e.numbers_due_sublist t).subset hk')
    rw [hinit.callsOf_of_not_mem hkdue]
    exact ⟨stage', .play hplays,
      places_of_roster (fun hk' => hk (h.awaited_sublist.subset hk')) hplace⟩
  | retired =>
    obtain ⟨hk, hk'⟩ := hstage
    have hkdue : k ∉ (e.due t).numbers := fun hk' => hk ((e.numbers_due_sublist t).subset hk')
    obtain ⟨hsilent, hk''⟩ := Roster.silent_of_not_mem hcontrol haudio
      (hnumbers ▸ not_mem_append hk' hkdue)
    rw [hinit.callsOf_of_not_mem hkdue, hsilent]
    exact ⟨.retired, .rest, fun hk' => hk (h.awaited_sublist.subset hk'), hk''⟩

end Turns

end Ensemble

/-! ### The calls of a voice -/

/-- What a tick has called. -/
structure Turn where
  time : Tick
  calls : List Call
deriving DecidableEq, Repr

namespace Turn

/-- What a tick has called of one voice. -/
def of (k : Nat) (turn : Turn) : Turn := { turn with calls := callsOf k turn.calls }

/-- How often a tick has called a pass. -/
def count (turn : Turn) (pass : Pass) : Nat := turn.calls.countP (·.pass = pass)

def callsIn (turns : List Turn) : List Call := turns.flatMap Turn.calls

@[simp]
theorem callsIn_cons (t : Tick) (cs : List Call) (turns : List Turn) :
    callsIn (⟨t, cs⟩ :: turns) = cs ++ callsIn turns := rfl

end Turn

/-- The course of a voice from one stage to another. -/
inductive Course (k n : Nat) : Stage → List Turn → Stage → Prop
  | nil (stage : Stage) : Course k n stage [] stage
  | cons {stage stage' stage'' : Stage} {t : Tick} {cs : List Call} {turns : List Turn}
      (head : stage.Advances k n t cs stage') (tail : Course k n stage' turns stage'') :
      Course k n stage (⟨t, cs⟩ :: turns) stage''

/-- How a voice stands after the init passes of a tick, by what was called of it: its latest pass
has left it so. -/
def standing? (before : List Turn) (turn : Turn) : Option Status :=
  (Turn.callsIn before ++ turn.calls.filter (·.pass = .init)).getLast?.map Call.after

/-- Whether a voice is active after the init passes of a tick, by what was called of it: it has just
become active, or was played by the tick before. -/
def IsActive (before : List Turn) (turn : Turn) : Prop :=
  turn.count .init = 1 ∨ ∃ u, before.getLast? = some u ∧ u.count .control = 1

/-- What is called of the audio pass in a tick. -/
structure AudioRule (n : Nat) (cs : List Call) : Prop where
  le : cs.countP (·.pass = .audio) ≤ n
  /-- The audio pass is called only if there is a control pass that has not failed. -/
  control : 0 < cs.countP (·.pass = .audio) →
    ∃ c ∈ cs, c.pass = .control ∧ c.after.failed = false
  /-- It is then called in all frames unless it fails. -/
  full : (∃ c ∈ cs, c.pass = .control ∧ c.after.failed = false) →
    cs.countP (·.pass = .audio) = n ∨ ∃ c ∈ cs, c.pass = .audio ∧ c.after.failed = true

namespace AudioRule

theorem nil (n : Nat) : AudioRule n [] :=
  ⟨Nat.zero_le n, fun hpos => absurd hpos (Nat.lt_irrefl 0), by simp⟩

theorem cons_init {n : Nat} {c : Call} {cs : List Call} (h : AudioRule n cs) (hc : c.pass = .init) :
    AudioRule n (c :: cs) := by
  have hcount : (c :: cs).countP (·.pass = .audio) = cs.countP (·.pass = .audio) :=
    countP_cons_of_neg (by simp [hc])
  refine ⟨hcount ▸ h.le, fun hpos => ?_, fun ⟨d, hd, hpass, hfailed⟩ => ?_⟩
  · obtain ⟨d, hd, hcontrol⟩ := h.control (hcount ▸ hpos)
    exact ⟨d, mem_cons_of_mem _ hd, hcontrol⟩
  · have hd : d ∈ cs := (mem_cons.1 hd).resolve_left (by rintro rfl; cases hc ▸ hpass)
    rw [hcount]
    refine (h.full ⟨d, hd, hpass, hfailed⟩).imp_right fun ⟨a, ha, haudio⟩ => ?_
    exact ⟨a, mem_cons_of_mem _ ha, haudio⟩

end AudioRule

/-- What is called of a voice with the given lifetime in the ticks since it was scheduled. -/
structure Lifecycle (n : Nat) (life : Lifetime) (turns : List Turn) : Prop where
  /-- The init pass is called in the first tick at which the voice is due, and in no other. -/
  init_count : ∀ before turn after, turns = before ++ turn :: after →
    turn.count .init =
      if life.start ≤ turn.time ∧ ∀ u ∈ before, u.time < life.start then 1 else 0
  /-- No call comes before that of the init pass. -/
  init_first : (Turn.callsIn turns).Pairwise fun _ c => c.pass ≠ .init
  /-- The control pass is called, once, if the voice is active, has not failed and is not past its
  end. -/
  control_count : ∀ before turn after, turns = before ++ turn :: after →
    turn.count .control ≤ 1 ∧ (turn.count .control = 1 ↔
      IsActive before turn ∧ ∃ st, standing? before turn = some st ∧ st.failed = false ∧
        turn.time ≤ st.life.stop)
  /-- There is no gap between the ticks with a control pass, which start where the voice becomes
  active. -/
  contiguous : ∀ before u mid turn after, turns = before ++ u :: mid ++ turn :: after →
    u.count .init = 1 → turn.count .control = 1 → ∀ w ∈ u :: mid, w.count .control = 1
  /-- A voice that is skipped is never called again. -/
  skipped : ∀ before turn after, turns = before ++ turn :: after →
    (∃ u ∈ before ++ [turn], life.start ≤ u.time) → turn.count .control = 0 →
    ∀ u ∈ after, u.calls = []
  /-- A voice that has failed is never called again. -/
  failed : (Turn.callsIn turns).Pairwise fun c _ => c.after.failed = false
  /-- The audio pass is called in all frames of a tick with a control pass, up to a failure. -/
  audio : ∀ turn ∈ turns, AudioRule n turn.calls

namespace Status

/-- Calls that follow one another: none comes after a failure. -/
inductive Chain : Status → List Call → Status → Prop
  | nil (st : Status) : Chain st [] st
  | cons {st st' : Status} {c : Call} {cs : List Call} (failed : st.failed = false)
      (tail : Chain c.after cs st') : Chain st (c :: cs) st'

variable {k n : Nat} {t : Tick} {pass : Pass} {st st' st'' : Status} {cs ds : List Call}
  {stage : Stage}

namespace Chain

theorem append (h : Chain st cs st') (h' : Chain st' ds st'') : Chain st (cs ++ ds) st'' := by
  induction h with
  | nil => exact h'
  | cons failed _ ih => exact .cons failed (ih h')

theorem eq_nil (h : Chain st cs st') (hfailed : st.failed = true) : cs = [] := by
  cases h with
  | nil => rfl
  | cons failed => exact absurd failed (by simp [hfailed])

theorem pairwise (h : Chain st cs st') : cs.Pairwise fun c _ => c.after.failed = false := by
  induction h with
  | nil => exact .nil
  | @cons _ _ c _ _ tail ih =>
    refine pairwise_cons.2 ⟨fun d hd => ?_, ih⟩
    cases hc : c.after.failed with
    | false => rfl
    | true => exact absurd (tail.eq_nil hc ▸ hd) not_mem_nil

theorem getLast? (h : Chain st cs st') (hcs : cs ≠ []) : cs.getLast?.map Call.after = some st' := by
  induction h with
  | nil => exact absurd rfl hcs
  | @cons _ _ c ds _ tail ih =>
    cases ds with
    | nil => cases tail; rfl
    | cons d ds =>
      exact ih (cons_ne_nil _ _)

end Chain

theorem Passes.chain (h : st.Passes k pass t cs st') : st.Chain cs st' := by
  cases h with
  | silent => exact .nil _
  | call _ failed => exact .cons failed (.nil _)

namespace Renders

variable (h : st.Renders k t n cs st')

include h

theorem chain : st.Chain cs st' := by
  induction h with
  | nil => exact .nil _
  | cons head _ ih => exact head.chain.append ih

theorem forall_mem : ∀ c ∈ cs, c.pass = .audio := by
  induction h with
  | nil => exact forall_mem_nil _
  | cons head _ ih =>
    cases head with
    | silent => exact ih
    | call => exact forall_mem_cons.2 ⟨rfl, ih⟩

theorem length_le : cs.length ≤ n := by
  induction h with
  | nil => exact Nat.le_refl 0
  | cons head _ ih =>
    cases head with
    | silent => exact Nat.le_succ_of_le ih
    | call => exact Nat.succ_le_succ ih

theorem length_eq (hst : st'.failed = false) : cs.length = n := by
  induction h with
  | nil => rfl
  | cons head tail ih =>
    cases head with
    | silent failed =>
      -- The failure would last to the end.
      have hchain := tail.chain
      rw [hchain.eq_nil failed] at hchain
      cases hchain
      exact absurd failed (by simp [hst])
    | call => exact congrArg (· + 1) (ih hst)

theorem countP (pass : Pass) :
    cs.countP (·.pass = pass) = if pass = .audio then cs.length else 0 := by
  split
  · subst pass
    exact countP_eq_length.2 fun c hc => decide_eq_true (h.forall_mem c hc)
  · rename_i hne
    exact countP_eq_zero.2 fun c hc hpass =>
      hne ((of_decide_eq_true hpass).symm.trans (h.forall_mem c hc))

end Renders

namespace Plays

variable (h : st.Plays k n t cs stage)

include h

theorem cases_stage :
    (stage = .retired ∧ cs = []) ∨ ∃ st', stage = .playing st' ∧ st.Chain cs st' := by
  cases h with
  | retire => exact .inl ⟨rfl, rfl⟩
  | play alive audio => exact .inr ⟨_, rfl, .cons (by simp_all [isAlive]) audio.chain⟩

theorem count_init : cs.countP (·.pass = .init) = 0 := by
  cases h with
  | retire => rfl
  | play _ audio => simp [audio.countP]

theorem forall_ne_init : ∀ c ∈ cs, c.pass ≠ .init :=
  fun c hc hpass => countP_eq_zero.1 h.count_init c hc (decide_eq_true hpass)

theorem count_control : cs.countP (·.pass = .control) = if st.isAlive t then 1 else 0 := by
  cases h with
  | retire ended => simp [ended]
  | play alive audio => simp [audio.countP, alive]

theorem audioRule : AudioRule n cs := by
  cases h with
  | retire => exact .nil n
  | @play st' st'' ds alive audio =>
    have hcount : List.countP (·.pass = .audio) (⟨k, .control, t, st'⟩ :: ds) = ds.length := by
      simp [audio.countP]
    refine ⟨hcount ▸ audio.length_le, fun hpos => ?_, fun ⟨c, hc, hpass, hfailed⟩ => ?_⟩
    · rw [hcount] at hpos
      refine ⟨_, mem_cons_self, rfl, Bool.eq_false_iff.2 fun hfailed => ?_⟩
      rw [audio.chain.eq_nil hfailed] at hpos
      exact absurd hpos (Nat.lt_irrefl 0)
    · cases hst : st''.failed with
      | false => exact .inl (hcount.trans (audio.length_eq hst))
      | true =>
        -- The control pass has not failed, so it was the last of the audio passes.
        have hst' : st'.failed = false := by
          rcases mem_cons.1 hc with rfl | hc
          · exact hfailed
          · exact absurd (hpass.symm.trans (audio.forall_mem c hc)) (by decide)
        have hds : ds ≠ [] := by
          rintro rfl
          cases audio.chain
          exact absurd hst (by simp [hst'])
        obtain ⟨d, hd, rfl⟩ := Option.map_eq_some_iff.1 (audio.chain.getLast? hds)
        have hd := mem_of_getLast? hd
        exact .inr ⟨d, mem_cons_of_mem _ hd, audio.forall_mem d hd, hst⟩

end Plays

end Status

/-- What was called of a voice with the given lifetime until it came to a stage. -/
def Stage.Follows (life : Lifetime) (turns : List Turn) : Stage → Prop
  | .waiting l => l = life ∧ ∀ u ∈ turns, u.time < life.start ∧ u.calls = []
  | .playing st => (∃ u ∈ turns, life.start ≤ u.time) ∧
      (∃ u, turns.getLast? = some u ∧ u.count .control = 1) ∧
      Status.Chain ⟨life, false⟩ (Turn.callsIn turns) st
  | .retired => (∃ u ∈ turns, life.start ≤ u.time) ∧
      ∃ u, turns.getLast? = some u ∧ u.count .control = 0

namespace Course

variable {k n : Nat} {life : Lifetime} {stage stage' stage'' : Stage} {turns turns' : List Turn}

theorem append (h : Course k n stage turns stage') (h' : Course k n stage' turns' stage'') :
    Course k n stage (turns ++ turns') stage'' := by
  induction h with
  | nil => exact h'
  | cons head _ ih => exact .cons head (ih h')

theorem exists_of_append (h : Course k n stage (turns ++ turns') stage'') :
    ∃ stage', Course k n stage turns stage' ∧ Course k n stage' turns' stage'' := by
  induction turns generalizing stage with
  | nil => exact ⟨stage, .nil stage, h⟩
  | cons turn turns ih =>
    cases h with
    | cons head tail =>
      obtain ⟨stage', htail, hrest⟩ := ih tail
      exact ⟨stage', .cons head htail, hrest⟩

theorem calls_of_retired (h : Course k n .retired turns stage) : ∀ u ∈ turns, u.calls = [] := by
  induction turns with
  | nil => exact forall_mem_nil _
  | cons turn turns ih =>
    cases h with
    | cons head tail =>
      cases head with
      | rest => exact forall_mem_cons.2 ⟨rfl, ih tail⟩

theorem callsIn_of_retired (h : Course k n .retired turns stage) : Turn.callsIn turns = [] :=
  flatMap_eq_nil_iff.2 h.calls_of_retired

theorem follows_of_plays {st : Status} {turn : Turn} (inits : List Call) {cs : List Call}
    (hdue : ∃ u ∈ turns ++ [turn], life.start ≤ u.time) (hcalls : turn.calls = inits ++ cs)
    (hinits : ∀ c ∈ inits, c.pass = .init)
    (hchain : Status.Chain ⟨life, false⟩ (Turn.callsIn turns ++ inits) st)
    (hplays : st.Plays k n turn.time cs stage) : stage.Follows life (turns ++ [turn]) := by
  have hcontrol : inits.countP (·.pass = .control) = 0 :=
    countP_eq_zero.2 fun c hc => by simp [hinits c hc]
  have hcount : turn.count .control = cs.countP (·.pass = .control) := by
    rw [Turn.count, hcalls, countP_append, hcontrol, Nat.zero_add]
  cases hplays with
  | retire => exact ⟨hdue, turn, getLast?_concat, hcount⟩
  | @play st' _ ds alive audio =>
    refine ⟨hdue, ⟨turn, getLast?_concat, ?_⟩, ?_⟩
    · rw [hcount, (Status.Plays.play alive audio).count_control, if_pos alive]
    · have hcallsIn : Turn.callsIn (turns ++ [turn]) = Turn.callsIn turns ++ inits ++
          ⟨k, .control, turn.time, st'⟩ :: ds := by
        simp [Turn.callsIn, hcalls]
      rw [hcallsIn]
      exact hchain.append (.cons (by simp_all [Status.isAlive]) audio.chain)

theorem follows (h : Course k n (.waiting life) turns stage) : stage.Follows life turns := by
  -- By the last turn, since what a stage tells of its past is about the end of it.
  induction turns using List.reverseRecOn generalizing stage with
  | nil =>
    cases h
    exact ⟨rfl, forall_mem_nil _⟩
  | append_singleton turns turn ih =>
    obtain ⟨stage', hbefore, hturn⟩ := h.exists_of_append
    have hfollows := ih hbefore
    cases hturn with
    | @cons _ _ _ t _ _ head tail =>
      cases tail
      cases head with
      | wait early =>
        obtain ⟨rfl, hturns⟩ := hfollows
        refine ⟨rfl, fun u hu => ?_⟩
        rcases mem_append.1 hu with hu | hu
        · exact hturns u hu
        · cases mem_singleton.1 hu
          exact ⟨early, rfl⟩
      | @enter _ st cs _ due plays =>
        obtain ⟨rfl, hturns⟩ := hfollows
        have hsilent : Turn.callsIn turns = [] :=
          flatMap_eq_nil_iff.2 fun u hu => (hturns u hu).2
        refine follows_of_plays [⟨k, .init, t, st⟩] ⟨_, mem_concat_self, due⟩ rfl
          (by simp) ?_ plays
        rw [hsilent]
        exact .cons rfl (.nil st)
      | @play st _ _ plays =>
        obtain ⟨⟨u, hu, hdue⟩, -, hchain⟩ := hfollows
        refine follows_of_plays [] ⟨u, mem_append_left _ hu, hdue⟩ rfl
          (forall_mem_nil _) ?_ plays
        rw [append_nil]
        exact hchain
      | rest =>
        obtain ⟨⟨u, hu, hdue⟩, -⟩ := hfollows
        exact ⟨⟨u, mem_append_left _ hu, hdue⟩, _, getLast?_concat, rfl⟩

theorem forall_ne_init {st : Status} (h : Course k n (.playing st) turns stage) :
    ∀ c ∈ Turn.callsIn turns, c.pass ≠ .init := by
  induction turns generalizing st with
  | nil => exact forall_mem_nil _
  | cons turn turns ih =>
    cases h with
    | cons head tail =>
      cases head with
      | play plays =>
        rw [Turn.callsIn_cons]
        refine forall_mem_append.2 ⟨plays.forall_ne_init, ?_⟩
        rcases plays.cases_stage with ⟨rfl, -⟩ | ⟨st', rfl, -⟩
        · rw [tail.callsIn_of_retired]
          exact forall_mem_nil _
        · exact ih tail

theorem init_first (h : Course k n (.waiting life) turns stage) :
    (Turn.callsIn turns).Pairwise fun _ c => c.pass ≠ .init := by
  induction turns with
  | nil => exact .nil
  | cons turn turns ih =>
    cases h with
    | cons head tail =>
      cases head with
      | wait => exact ih tail
      | enter _ plays =>
        -- What comes after the init pass could as well be the course of a voice that was active.
        have hrest := forall_ne_init (.cons (.play plays) tail)
        exact pairwise_cons.2 ⟨hrest, pairwise_iff_forall_sublist.2 fun hsublist =>
          hrest _ (hsublist.subset (by simp))⟩

theorem chain_of_playing {st : Status} (h : Course k n (.playing st) turns stage) :
    ∃ st', st.Chain (Turn.callsIn turns) st' := by
  induction turns generalizing st with
  | nil => exact ⟨st, .nil st⟩
  | cons turn turns ih =>
    cases h with
    | cons head tail =>
      cases head with
      | play plays =>
        rw [Turn.callsIn_cons]
        rcases plays.cases_stage with ⟨rfl, rfl⟩ | ⟨st', rfl, hchain⟩
        · rw [tail.callsIn_of_retired]
          exact ⟨st, .nil st⟩
        · obtain ⟨st'', htail⟩ := ih tail
          exact ⟨st'', hchain.append htail⟩

theorem failed (h : Course k n (.waiting life) turns stage) :
    (Turn.callsIn turns).Pairwise fun c _ => c.after.failed = false := by
  induction turns with
  | nil => exact .nil
  | cons turn turns ih =>
    cases h with
    | @cons _ _ _ t _ _ head tail =>
      cases head with
      | wait => exact ih tail
      | @enter _ st _ _ _ plays =>
        obtain ⟨st', hchain⟩ := chain_of_playing (.cons (.play plays) tail)
        have hchain' : Status.Chain ⟨life, false⟩ (⟨k, .init, t, st⟩ :: _) st' := .cons rfl hchain
        exact hchain'.pairwise

theorem audio (h : Course k n stage turns stage') : ∀ turn ∈ turns, AudioRule n turn.calls := by
  induction h with
  | nil => exact forall_mem_nil _
  | cons head tail ih =>
    refine forall_mem_cons.2 ⟨?_, ih⟩
    cases head with
    | wait => exact .nil n
    | enter _ plays => exact plays.audioRule.cons_init rfl
    | play plays => exact plays.audioRule
    | rest => exact .nil n

section Turn

variable {before after : List Turn} {t : Tick} {cs : List Call}

theorem exists_of_turn (h : Course k n stage (before ++ ⟨t, cs⟩ :: after) stage'') :
    ∃ stage₁ stage₂, Course k n stage before stage₁ ∧ stage₁.Advances k n t cs stage₂ ∧
      Course k n stage₂ after stage'' := by
  obtain ⟨stage₁, hbefore, hrest⟩ := h.exists_of_append
  cases hrest with
  | cons head tail => exact ⟨stage₁, _, hbefore, head, tail⟩

theorem init_count (h : Course k n (.waiting life) (before ++ ⟨t, cs⟩ :: after) stage) :
    cs.countP (·.pass = .init) =
      if life.start ≤ t ∧ ∀ u ∈ before, u.time < life.start then 1 else 0 := by
  obtain ⟨stage₁, stage₂, hbefore, hturn, -⟩ := h.exists_of_turn
  have hfollows := hbefore.follows
  cases hturn with
  | wait early =>
    obtain ⟨rfl, -⟩ := hfollows
    rw [if_neg fun hdue => Int64.not_le.2 early hdue.1]
    rfl
  | enter due plays =>
    obtain ⟨rfl, hturns⟩ := hfollows
    rw [if_pos ⟨due, fun u hu => (hturns u hu).1⟩, countP_cons_of_pos rfl, plays.count_init]
  | play plays =>
    obtain ⟨⟨u, hu, hdue⟩, -⟩ := hfollows
    rw [if_neg fun hturns => Int64.not_le.2 (hturns.2 u hu) hdue, plays.count_init]
  | rest =>
    obtain ⟨⟨u, hu, hdue⟩, -⟩ := hfollows
    rw [if_neg fun hturns => Int64.not_le.2 (hturns.2 u hu) hdue]
    rfl

theorem control_count_of_plays {st : Status} (inits : List Call) {ds : List Call}
    (hplays : st.Plays k n t ds stage) (hinits : ∀ c ∈ inits, c.pass = .init)
    (hactive : IsActive before ⟨t, inits ++ ds⟩)
    (hstanding : (Turn.callsIn before ++ inits).getLast?.map Call.after = some st) :
    Turn.count ⟨t, inits ++ ds⟩ .control ≤ 1 ∧ (Turn.count ⟨t, inits ++ ds⟩ .control = 1 ↔
      IsActive before ⟨t, inits ++ ds⟩ ∧ ∃ st, standing? before ⟨t, inits ++ ds⟩ = some st ∧
        st.failed = false ∧ t ≤ st.life.stop) := by
  have hfilter : (inits ++ ds).filter (·.pass = .init) = inits := by
    rw [filter_append, filter_eq_self.2 fun c hc => decide_eq_true (hinits c hc),
      filter_eq_nil_iff.2 fun c hc => by simpa using hplays.forall_ne_init c hc,
      append_nil]
  have hstanding' : standing? before ⟨t, inits ++ ds⟩ = some st := by
    rw [standing?, hfilter, hstanding]
  have hcount : Turn.count ⟨t, inits ++ ds⟩ .control = if st.isAlive t then 1 else 0 := by
    have hcontrol : inits.countP (·.pass = .control) = 0 :=
      countP_eq_zero.2 fun c hc => by simp [hinits c hc]
    rw [Turn.count, countP_append, hcontrol, Nat.zero_add, hplays.count_control]
  rw [hcount, hstanding']
  cases halive : st.isAlive t <;> simp_all [Status.isAlive]

theorem control_count (h : Course k n (.waiting life) (before ++ ⟨t, cs⟩ :: after) stage) :
    Turn.count ⟨t, cs⟩ .control ≤ 1 ∧ (Turn.count ⟨t, cs⟩ .control = 1 ↔
      IsActive before ⟨t, cs⟩ ∧ ∃ st, standing? before ⟨t, cs⟩ = some st ∧ st.failed = false ∧
        t ≤ st.life.stop) := by
  obtain ⟨stage₁, stage₂, hbefore, hturn, -⟩ := h.exists_of_turn
  have hfollows := hbefore.follows
  -- A turn without calls is active only after one with a control pass.
  have hsilent (hlast : ∀ u, before.getLast? = some u → u.count .control ≠ 1) :
      ¬IsActive before ⟨t, []⟩ := by
    rintro (hinit | ⟨u, hu, hcontrol⟩)
    · cases hinit
    · exact hlast u hu hcontrol
  cases hturn with
  | wait =>
    obtain ⟨rfl, hturns⟩ := hfollows
    refine ⟨Nat.zero_le 1, nofun, fun hactive => absurd hactive.1 (hsilent fun u hu => ?_)⟩
    rw [Turn.count, (hturns u (mem_of_getLast? hu)).2]
    exact Nat.zero_ne_one
  | @enter _ st ds _ due plays =>
    obtain ⟨rfl, hturns⟩ := hfollows
    have hbefore' : Turn.callsIn before = [] :=
      flatMap_eq_nil_iff.2 fun u hu => (hturns u hu).2
    refine control_count_of_plays [⟨k, .init, t, st⟩] plays (by simp) (.inl ?_) ?_
    · exact h.init_count.trans (if_pos ⟨due, fun u hu => (hturns u hu).1⟩)
    · rw [hbefore']
      rfl
  | play plays =>
    obtain ⟨-, ⟨u, hu, hcontrol⟩, hchain⟩ := hfollows
    refine control_count_of_plays [] plays (forall_mem_nil _) (.inr ⟨u, hu, hcontrol⟩) ?_
    rw [append_nil]
    refine hchain.getLast? fun hnil => ?_
    rw [Turn.count, flatMap_eq_nil_iff.1 hnil u (mem_of_getLast? hu)] at hcontrol
    cases hcontrol
  | rest =>
    obtain ⟨-, u, hu, hcontrol⟩ := hfollows
    refine ⟨Nat.zero_le 1, nofun, fun hactive => absurd hactive.1 (hsilent fun u' hu' => ?_)⟩
    cases hu.symm.trans hu'
    rw [hcontrol]
    exact Nat.zero_ne_one

theorem skipped (h : Course k n (.waiting life) (before ++ ⟨t, cs⟩ :: after) stage)
    (hdue : ∃ u ∈ before ++ [⟨t, cs⟩], life.start ≤ u.time)
    (hcount : Turn.count ⟨t, cs⟩ .control = 0) : ∀ u ∈ after, u.calls = [] := by
  obtain ⟨stage₁, stage₂, hbefore, hturn, hafter⟩ := h.exists_of_turn
  have hfollows : stage₂.Follows life (before ++ [⟨t, cs⟩]) :=
    (hbefore.append (.cons hturn (.nil stage₂))).follows
  cases stage₂ with
  | waiting =>
    obtain ⟨u, hu, hdue⟩ := hdue
    exact absurd hdue (Int64.not_le.2 (hfollows.2 u hu).1)
  | playing =>
    obtain ⟨-, ⟨u, hu, hcontrol⟩, -⟩ := hfollows
    cases getLast?_concat.symm.trans hu
    exact absurd hcontrol (by simp [hcount])
  | retired => exact hafter.calls_of_retired

end Turn

theorem contiguous {before mid after : List Turn} {u turn : Turn}
    (h : Course k n (.waiting life) (before ++ u :: mid ++ turn :: after) stage)
    (hinit : u.count .init = 1) (hcontrol : turn.count .control = 1) :
    ∀ w ∈ u :: mid, w.count .control = 1 := by
  intro w hw
  obtain ⟨us, vs, hsplit⟩ := append_of_mem hw
  have hcourse : Course k n (.waiting life) ((before ++ us) ++ w :: (vs ++ turn :: after))
      stage := by
    rw [hsplit] at h
    simpa only [append_assoc, cons_append] using h
  have hdue : life.start ≤ u.time := by
    have hcourse' : Course k n (.waiting life) (before ++ u :: (mid ++ turn :: after)) stage := by
      simpa only [append_assoc, cons_append] using h
    have hcount := hcourse'.init_count
    rw [Turn.count] at hinit
    by_contra hearly
    rw [if_neg fun hdue => hearly hdue.1, hinit] at hcount
    cases hcount
  have hu : u ∈ before ++ us ++ [w] := by
    cases us with
    | nil =>
      cases hsplit
      exact mem_concat_self
    | cons u' us =>
      cases hsplit
      simp
  have hle : w.count .control ≤ 1 := hcourse.control_count.1
  by_contra hne
  -- If the voice were skipped, it would not be called any more.
  have hskipped : w.count .control = 0 := by omega
  have hsilent := hcourse.skipped ⟨u, hu, hdue⟩ hskipped turn (by simp)
  rw [Turn.count, hsilent] at hcontrol
  cases hcontrol

theorem lifecycle (h : Course k n (.waiting life) turns stage) : Lifecycle n life turns where
  init_count _ _ _ hturns := (hturns ▸ h).init_count
  init_first := h.init_first
  control_count _ _ _ hturns := (hturns ▸ h).control_count
  contiguous _ _ _ _ _ hturns := (hturns ▸ h).contiguous
  skipped _ _ _ hturns := (hturns ▸ h).skipped
  failed := h.failed
  audio := h.audio

end Course

end Orchestrion
