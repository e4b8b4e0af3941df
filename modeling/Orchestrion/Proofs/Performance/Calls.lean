import Orchestrion.Proofs.Performance.Scheduler

/-!
# Calls of passes

What a scheduler does at a tick is told in terms of the passes that it calls and of how the voices
stand: which passes are called depends on nothing else.
-/

namespace Orchestrion

open List

/-- How a voice stands: its lifetime, and whether a pass of it has failed. -/
structure Status where
  life : Lifetime
  failed : Bool := false
deriving DecidableEq, Repr

namespace Status

/-- Whether a voice is still to be played at a tick. -/
def isAlive (st : Status) (t : Tick) : Bool := !st.failed && t ≤ st.life.stop

end Status

/-- A call of a pass of a voice. -/
structure Call where
  /-- The number of the voice. -/
  voice : Nat
  pass : Pass
  /-- The tick that the pass was told. -/
  now : Tick
  /-- How the voice stood afterwards. -/
  after : Status
deriving DecidableEq, Repr

def callsOf (k : Nat) (cs : List Call) : List Call := cs.filter (·.voice = k)

@[simp]
theorem callsOf_nil (k : Nat) : callsOf k [] = [] := rfl

@[simp]
theorem callsOf_append (k : Nat) (cs ds : List Call) :
    callsOf k (cs ++ ds) = callsOf k cs ++ callsOf k ds := filter_append ..

/-! ### One voice -/

namespace Status

/-- The calls that a pass of a voice makes: none if the voice has failed. -/
inductive Passes (k : Nat) (pass : Pass) (t : Tick) : Status → List Call → Status → Prop
  | silent {st : Status} (failed : st.failed = true) : Passes k pass t st [] st
  | call {st : Status} (st' : Status) (failed : st.failed = false) :
      Passes k pass t st [⟨k, pass, t, st'⟩] st'

/-- The calls that a voice makes in the frames of a tick. -/
inductive Renders (k : Nat) (t : Tick) : Nat → Status → List Call → Status → Prop
  | nil (st : Status) : Renders k t 0 st [] st
  | cons {n : Nat} {st st' st'' : Status} {cs ds : List Call} (head : st.Passes k .audio t cs st')
      (tail : Renders k t n st' ds st'') : Renders k t (n + 1) st (cs ++ ds) st''

theorem Passes.callsOf_self {k : Nat} {pass : Pass} {t : Tick} {st st' : Status} {cs : List Call}
    (h : st.Passes k pass t cs st') : callsOf k cs = cs := by
  cases h with
  | silent => rfl
  | call => simp [callsOf]

theorem Passes.callsOf_of_ne {j k : Nat} {pass : Pass} {t : Tick} {st st' : Status} {cs : List Call}
    (h : st.Passes j pass t cs st') (hne : j ≠ k) : callsOf k cs = [] := by
  cases h with
  | silent => rfl
  | call => simp [callsOf, hne]

end Status

/-! ### All voices -/

/-- Voices in the order in which they are played. -/
abbrev Roster := List (Nat × Status)

namespace Roster

def numbers (r : Roster) : List Nat := r.map Prod.fst

/-- The calls that a pass of all voices makes, one after the other. -/
inductive Passes (pass : Pass) (t : Tick) : Roster → List Call → Roster → Prop
  | nil : Passes pass t [] [] []
  | cons {k : Nat} {st st' : Status} {r r' : Roster} {cs ds : List Call}
      (head : st.Passes k pass t cs st') (tail : Passes pass t r ds r') :
      Passes pass t ((k, st) :: r) (cs ++ ds) ((k, st') :: r')

/-- The calls that all voices make in the frames of a tick, frame after frame. -/
inductive Renders (t : Tick) : Nat → Roster → List (List Call) → Roster → Prop
  | nil (r : Roster) : Renders t 0 r [] r
  | cons {n : Nat} {r r' r'' : Roster} {cs : List Call} {frames : List (List Call)}
      (head : Passes .audio t r cs r') (tail : Renders t n r' frames r'') :
      Renders t (n + 1) r (cs :: frames) r''

variable {pass : Pass} {t : Tick} {n k : Nat} {r r' : Roster} {cs : List Call}
  {frames : List (List Call)}

namespace Passes

variable (h : Passes pass t r cs r')

include h

theorem numbers_eq : r'.numbers = r.numbers := by
  induction h with
  | nil => rfl
  | cons _ _ ih => exact congrArg (List.cons _) ih

theorem forall_mem : ∀ c ∈ cs, c.pass = pass ∧ c.now = t := by
  induction h with
  | nil => exact forall_mem_nil _
  | cons head _ ih =>
    cases head with
    | silent => exact ih
    | call => exact forall_mem_cons.2 ⟨⟨rfl, rfl⟩, ih⟩

theorem sublist : (cs.map Call.voice).Sublist r.numbers := by
  induction h with
  | nil => exact .slnil
  | cons head _ ih =>
    cases head with
    | silent => exact ih.cons _
    | call => exact ih.cons_cons _

theorem map_voice (hr : ∀ v ∈ r, v.2.failed = false) : cs.map Call.voice = r.numbers := by
  induction h with
  | nil => rfl
  | cons head _ ih =>
    obtain ⟨hv, hr⟩ := forall_mem_cons.1 hr
    cases head with
    | silent failed => exact absurd hv (by simp [failed])
    | call => exact congrArg (List.cons _) (ih hr)

theorem callsOf_of_not_mem (hk : k ∉ r.numbers) : callsOf k cs = [] := by
  refine filter_eq_nil_iff.2 fun c hc hvoice => hk ?_
  have hmem := h.sublist.subset (mem_map_of_mem hc)
  rwa [of_decide_eq_true hvoice] at hmem

theorem of_mem (hnodup : r.numbers.Nodup) {st : Status}
    (hmem : (k, st) ∈ r) : ∃ st', (k, st') ∈ r' ∧ st.Passes k pass t (callsOf k cs) st' := by
  induction h with
  | nil => cases hmem
  | @cons j _ _ r _ _ _ head tail ih =>
    obtain ⟨hj, hnodup⟩ := nodup_cons.1 hnodup
    rw [callsOf_append]
    rcases mem_cons.1 hmem with heq | hmem
    · cases heq
      refine ⟨_, mem_cons_self, ?_⟩
      rw [head.callsOf_self, tail.callsOf_of_not_mem hj, append_nil]
      exact head
    · have hk : k ∈ r.numbers := mem_map_of_mem hmem
      have hne : j ≠ k := fun heq => hj (heq ▸ hk)
      obtain ⟨st', hmem', hst⟩ := ih hnodup hmem
      refine ⟨st', mem_cons_of_mem _ hmem', ?_⟩
      rw [head.callsOf_of_ne hne, nil_append]
      exact hst

end Passes

namespace Renders

variable (h : Renders t n r frames r')

include h

theorem numbers_eq : r'.numbers = r.numbers := by
  induction h with
  | nil => rfl
  | cons head _ ih => exact ih.trans head.numbers_eq

theorem length_eq : frames.length = n := by
  induction h with
  | nil => rfl
  | cons _ _ ih => exact congrArg (· + 1) ih

theorem forall_mem : ∀ frame ∈ frames,
    (∀ c ∈ frame, c.pass = .audio ∧ c.now = t) ∧ (frame.map Call.voice).Sublist r.numbers := by
  induction h with
  | nil => exact forall_mem_nil _
  | cons head _ ih =>
    rw [head.numbers_eq] at ih
    exact forall_mem_cons.2 ⟨⟨head.forall_mem, head.sublist⟩, ih⟩

theorem callsOf_of_not_mem (hk : k ∉ r.numbers) : callsOf k frames.flatten = [] := by
  refine filter_eq_nil_iff.2 fun c hc hvoice => hk ?_
  obtain ⟨frame, hframe, hc⟩ := mem_flatten.1 hc
  have hmem := (h.forall_mem frame hframe).2.subset (mem_map_of_mem hc)
  rwa [of_decide_eq_true hvoice] at hmem

theorem of_mem (hnodup : r.numbers.Nodup) {st : Status}
    (hmem : (k, st) ∈ r) :
    ∃ st', (k, st') ∈ r' ∧ st.Renders k t n (callsOf k frames.flatten) st' := by
  induction h generalizing st with
  | nil => exact ⟨st, hmem, .nil st⟩
  | cons head _ ih =>
    obtain ⟨st', hmem', hpasses⟩ := head.of_mem hnodup hmem
    obtain ⟨st'', hmem'', hrenders⟩ := ih (head.numbers_eq ▸ hnodup) hmem'
    rw [flatten_cons, callsOf_append]
    exact ⟨st'', hmem'', .cons hpasses hrenders⟩

end Renders

end Roster

/-- All voices of a performance that are not retired. -/
structure Ensemble where
  /-- The voices that are not due yet and their lifetimes. -/
  waiting : List (Nat × Lifetime)
  /-- The voices that play. -/
  playing : Roster
deriving DecidableEq, Repr

namespace Ensemble

def due (e : Ensemble) (t : Tick) : Roster :=
  (e.waiting.filter fun v => v.2.start ≤ t).map fun v => (v.1, ⟨v.2, false⟩)

/-- The calls of a tick with the given number of frames: the init pass of the voices that are due,
the control pass of those of the voices that are playing by then and still alive, and the audio
passes of those. -/
structure Turns (n : Nat) (t : Tick) (e : Ensemble) (inits controls : List Call)
    (frames : List (List Call)) (e' : Ensemble) : Prop where
  waiting : e'.waiting = e.waiting.filter fun v => !decide (v.2.start ≤ t)
  playing : ∃ promoted controlled, Roster.Passes .init t (e.due t) inits promoted ∧
    Roster.Passes .control t ((e.playing ++ promoted).filter fun v => v.2.isAlive t) controls
      controlled ∧
    Roster.Renders t n controlled frames e'.playing

end Ensemble

end Orchestrion
