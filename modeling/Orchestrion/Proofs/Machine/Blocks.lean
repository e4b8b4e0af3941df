import Orchestrion.Proofs.Machine.Steps
import Orchestrion.Proofs.Number.Sign
import Orchestrion.Proofs.Outcome

/-!
# Blocks of code

A block of code computes an evaluation if the machine, whatever is below on the stack and wherever
the block stands, does what the evaluation says and leaves its result on the stack. Blocks are put
together as evaluations are: one after the other, as alternatives, and in loops.
-/

namespace Orchestrion.Machine

open Instruction List

variable {n g : Nat} {α β : Type} {c : Context} {rounds : Nat}

/-- From a stack with the values `before` on it, the block does what the evaluation says and puts
`after` in their place. -/
structure Computes (c : Context) (rounds : Nat) (before : List Float32) (is : List Instruction)
    (x : EStateM Interruption (Memory n g) α) (after : α → List Float32) : Prop where
  leads : ∀ (p : Nat) (vs : List Float32) (m : Memory n g), CodeAt c p is →
    ((before.length + vs.length + pushCount is : Nat) : Int) ≤ c.unit.maxStack →
    Leads c rounds (m.state p (before ++ vs))
      (fun a m' => m'.state (p + wordCount is : Nat) (after a ++ vs)) (x m)
  /-- Only what is pushed makes the stack higher. -/
  height : ∀ a m m', x m = .ok a m' → (after a).length ≤ before.length + pushCount is

namespace Computes

variable {before : List Float32} {is js : List Instruction}
  {x : EStateM Interruption (Memory n g) α} {after : α → List Float32}

theorem leads_at (h : Computes c rounds before is x after) {p : Nat} (q : Nat)
    (vs : List Float32) (m : Memory n g) (hcode : CodeAt c p is) (hq : q = p + wordCount is)
    (hroom : ((before.length + vs.length + pushCount is : Nat) : Int) ≤ c.unit.maxStack) :
    Leads c rounds (m.state p (before ++ vs)) (fun a m' => m'.state q (after a ++ vs)) (x m) := by
  subst hq
  exact h.leads p vs m hcode hroom

theorem nil {a : α} (hafter : after a = before) :
    Computes c rounds before [] (pure a : EStateM Interruption (Memory n g) α) after := by
  subst hafter
  refine ⟨fun _ _ _ _ _ => ⟨0, .refl _⟩, fun b m m' hm => ?_⟩
  cases hm
  exact Nat.le_refl _

theorem seq {f : α → EStateM Interruption (Memory n g) β} {last : β → List Float32}
    (hx : Computes c rounds before is x after)
    (hf : ∀ a, (∃ m m', x m = .ok a m') → Computes c rounds (after a) js (f a) last) :
    Computes c rounds before (is ++ js) (x >>= f) last where
  leads p vs m hcode hroom := by
    rw [pushCount_append] at hroom
    refine (hx.leads p vs m hcode.left (by omega)).bind fun a m' hm => ?_
    have hheight := hx.height a m m' hm
    have hleads := (hf a ⟨m, m', hm⟩).leads _ vs m' hcode.right (by omega)
    rwa [Nat.add_assoc, ← wordCount_append] at hleads
  height b m m' hm := by
    obtain ⟨a, m₁, ha, hm⟩ := exists_of_run_bind_eq_ok hm
    have hheight := hx.height a m m₁ ha
    have hlast := (hf a ⟨m, m₁, ha⟩).height b m₁ m' hm
    rw [pushCount_append]
    omega

theorem frame (h : Computes c rounds before is x after) (kept : List Float32) :
    Computes c rounds (before ++ kept) is x fun a => after a ++ kept where
  leads p vs m hcode hroom := by
    rw [length_append] at hroom
    have hleads := h.leads p (kept ++ vs) m hcode (by rw [length_append]; omega)
    simpa only [append_assoc] using hleads
  height a m m' hm := by
    have hheight := h.height a m m' hm
    rw [length_append, length_append]
    omega

theorem map (f : α → β) {last : β → List Float32} (h : Computes c rounds before is x after)
    (hlast : ∀ a, last (f a) = after a) :
    Computes c rounds before is (x >>= fun a => pure (f a)) last := by
  have hseq := h.seq fun a _ => Computes.nil (hlast a)
  rwa [append_nil] at hseq

theorem single {i : Instruction} (hhost : HasHost c i) (hpops : i.pops ≤ before.length)
    (h : ∀ m, ∃ a m', x m = .ok a m' ∧ (after a).length ≤ before.length + pushCount [i] ∧
      ∀ (p q : Nat) (vs : List Float32),
        ((before.length + vs.length + pushCount [i] : Nat) : Int) ≤ c.unit.maxStack →
        InRange c (m.state p (before ++ vs)) i ∧
        exec c (m.state q (before ++ vs)) i = .onward (m'.state q (after a ++ vs))) :
    Computes c rounds before [i] x after where
  leads p vs m hcode hroom := by
    obtain ⟨a, m', hm, -, hexec⟩ := h m
    obtain ⟨hrange, honward⟩ := hexec p (p + i.size) vs hroom
    rw [hm]
    have hready : Ready c (m.state p (before ++ vs)) i (before ++ vs) := by
      refine hcode.ready hrange hhost ?_ ?_
      · rw [length_append]
        omega
      · rw [length_append]
        simpa using hroom
    refine ⟨1, .one ⟨i, _, hready⟩ ?_⟩
    rw [hcode.step, honward, wordCount_cons, wordCount_nil, Nat.add_zero]
  height a m m' hm := by
    obtain ⟨a', m'', hm', hheight, -⟩ := h m
    rw [hm'] at hm
    cases hm
    exact hheight

end Computes

/-! ### Stacks -/

section Stacks

variable {m : Memory n g} {q : Int} {v w : Float32} {vs : List Float32}

@[simp]
theorem pop?_state : (m.state q (v :: vs)).pop? = some (v, m.state q vs) := rfl

@[simp]
theorem mapTop?_state (f : Float32 → Float32) :
    (m.state q (v :: vs)).mapTop? f = some (m.state q (f v :: vs)) := rfl

@[simp]
theorem combine?_state (f : Float32 → Float32 → Float32) :
    (m.state q (w :: v :: vs)).combine? f = some (m.state q (f v w :: vs)) := rfl

theorem push?_state (hroom : ((vs.length + 1 : Nat) : Int) ≤ c.unit.maxStack) :
    (m.state q vs).push? c (some v) = some (m.state q (v :: vs)) := by
  have hlt : vs.length < max 1 c.unit.maxStack.toNat := by omega
  simp only [State.push?, Memory.state, bind, Option.bind, if_pos hlt]

theorem popMany?_state (ws : List Float32) :
    (m.state q (ws.reverse ++ vs)).popMany? ws.length = some (ws, m.state q vs) := by
  have htake : (ws.reverse ++ vs).take ws.length = ws.reverse := by
    rw [← length_reverse, take_left]
  have hdrop : (ws.reverse ++ vs).drop ws.length = vs := by
    rw [← length_reverse, drop_left]
  simp [State.popMany?, Memory.state, htake, hdrop]

theorem exec_jumpIf (comparison : Comparison) (offset : Int) :
    exec c (m.state q (w :: vs)) (.jumpIf comparison offset) =
      .onward (m.state (if comparison.holds w then q + offset else q) vs) := by
  rw [exec, pop?_state]
  cases hholds : comparison.holds w <;> simp [Progress.ofState?, Memory.state, hholds]

end Stacks

/-! ### Jumps -/

section Jumps

variable {before : List Float32} {is js : List Instruction} {p : Nat} {vs : List Float32}
  {m : Memory n g}

theorem steps_jump {offset : Int} (target : Nat) (hcode : CodeAt c p (.jump offset :: is))
    (htarget : (target : Int) = (p + 2 : Nat) + offset)
    (hroom : (vs.length : Int) ≤ c.unit.maxStack) :
    Steps c 1 (m.state p vs) (m.state target vs) := by
  have hready : Ready c (m.state p vs) (.jump offset) vs :=
    hcode.ready trivial trivial (Nat.zero_le _) (by simpa [operation, Operation.pushes] using hroom)
  refine .one ⟨_, _, hready⟩ ?_
  rw [hcode.step, exec, htarget]
  rfl

theorem steps_jumpIf {comparison : Comparison} {offset : Int} {w : Float32} (target : Nat)
    (hcode : CodeAt c p (.jumpIf comparison offset :: is))
    (htarget : (target : Int) = (p + 2 : Nat) + if comparison.holds w then offset else 0)
    (hroom : ((w :: vs).length : Int) ≤ c.unit.maxStack) :
    Steps c 1 (m.state p (w :: vs)) (m.state target vs) := by
  have hready : Ready c (m.state p (w :: vs)) (.jumpIf comparison offset) (w :: vs) := by
    refine hcode.ready trivial trivial (by simp [pops]) ?_
    rw [(isBranch_jumpIf comparison).not_pushes]
    simpa using hroom
  refine .one ⟨_, _, hready⟩ ?_
  rw [hcode.step, exec_jumpIf, htarget, (isBranch_jumpIf comparison).size]
  split
  · rfl
  · rw [Int.add_zero]

theorem computes_choice (comparison : Comparison) (w : Float32)
    {x y : EStateM Interruption (Memory n g) α} {after : α → List Float32}
    (hx : Computes c rounds before is x after) (hy : Computes c rounds before js y after) :
    Computes c rounds (w :: before)
      (.jumpIf comparison (wordCount is + 2 : Nat) :: is ++ .jump (wordCount js) :: js)
      (if comparison.holds w then y else x) after where
  leads p vs m hcode hroom := by
    simp only [length_cons, wordCount_append, wordCount_cons, pushCount_append, pushCount_cons,
      (isBranch_jumpIf _).size, isBranch_jump.size, (isBranch_jumpIf _).not_pushes,
      isBranch_jump.not_pushes] at hroom ⊢
    have hlength : (before ++ vs).length = before.length + vs.length := length_append
    have hjump := hcode.right
    rw [wordCount_cons, (isBranch_jumpIf _).size] at hjump
    split
    next hholds =>
      -- The jump leads past the first branch and the jump at its end.
      have hlast := (show CodeAt c _ ([.jump (wordCount js)] ++ js) from hjump).right
      rw [wordCount_cons, wordCount_nil, isBranch_jump.size] at hlast
      have hstep : Steps c 1 (m.state p (w :: (before ++ vs)))
          (m.state (p + (2 + wordCount is) + (2 + 0) : Nat) (before ++ vs)) :=
        steps_jumpIf _ hcode.left (by rw [if_pos hholds]; omega)
          (by rw [length_cons, hlength]; omega)
      have hleads := hy.leads_at (p + (2 + wordCount is + (2 + wordCount js))) vs m hlast (by omega)
        (by omega)
      exact (hleads.after hstep).mono (Nat.le_add_right ..)
    next hholds =>
      -- The first branch is run, and the jump at its end leads past the second.
      have hfirst := (show CodeAt c p ([.jumpIf comparison (wordCount is + 2 : Nat)] ++ is) from
        hcode.left).right
      rw [wordCount_cons, wordCount_nil, (isBranch_jumpIf _).size] at hfirst
      have hstep : Steps c 1 (m.state p (w :: (before ++ vs)))
          (m.state (p + (2 + 0) : Nat) (before ++ vs)) :=
        steps_jumpIf _ hcode.left (by rw [if_neg hholds]; omega)
          (by rw [length_cons, hlength]; omega)
      have hleads := hx.leads_at (p + (2 + wordCount is)) vs m hfirst (by omega) (by omega)
      refine ((hleads.after hstep).mono (Nat.le_add_right ..)).onward fun a m' hm => ?_
      have hheight := hx.height a m m' hm
      have hlength' : (after a ++ vs).length = (after a).length + vs.length := length_append
      exact ⟨1, steps_jump _ hjump (by omega) (by omega)⟩
  height a m m' hm := by
    simp only [length_cons, pushCount_append, pushCount_cons]
    split at hm
    next =>
      have hheight := hy.height a m m' hm
      omega
    next =>
      have hheight := hx.height a m m' hm
      omega

theorem computes_skip (comparison : Comparison) (w : Float32)
    {x : EStateM Interruption (Memory n g) Unit}
    (hx : Computes c rounds before is x fun _ => before) :
    Computes c rounds (w :: before) (.jumpIf comparison (wordCount is) :: is)
      (if comparison.holds w then pure () else x) fun _ => before where
  leads p vs m hcode hroom := by
    simp only [length_cons, wordCount_cons, pushCount_cons, (isBranch_jumpIf _).size,
      (isBranch_jumpIf _).not_pushes] at hroom ⊢
    have hlength : (before ++ vs).length = before.length + vs.length := length_append
    split
    next hholds =>
      have hstep : Steps c 1 (m.state p (w :: (before ++ vs)))
          (m.state (p + (2 + wordCount is) : Nat) (before ++ vs)) :=
        steps_jumpIf _ hcode (by rw [if_pos hholds]; omega)
          (by rw [length_cons, hlength]; omega)
      exact ⟨1, hstep⟩
    next hholds =>
      have hbody := (show CodeAt c p ([.jumpIf comparison (wordCount is)] ++ is) from hcode).right
      rw [wordCount_cons, wordCount_nil, (isBranch_jumpIf _).size] at hbody
      have hstep : Steps c 1 (m.state p (w :: (before ++ vs)))
          (m.state (p + (2 + 0) : Nat) (before ++ vs)) :=
        steps_jumpIf _ hcode (by rw [if_neg hholds]; omega)
          (by rw [length_cons, hlength]; omega)
      have hleads := hx.leads_at (p + (2 + wordCount is)) vs m hbody (by omega) (by omega)
      exact (hleads.after hstep).mono (Nat.le_add_right ..)
  height a m m' hm := by
    simp only [length_cons]
    omega

theorem computes_loop {σ : Scene} {comparison : Comparison} {test : Float32 → Float32}
    {guard : σ.Evaluation Float32} {body : σ.Evaluation Unit}
    (htest : ∀ v, comparison.holds (test v) = (v == 0))
    (hguard : Computes c rounds [] is guard fun v => [test v])
    (hbody : Computes c rounds [] js body fun _ => []) :
    Computes c rounds []
      (is ++ .jumpIf comparison (wordCount js + 2 : Nat) ::
        (js ++ [.jump (-(wordCount is + wordCount js + 4 : Nat))]))
      (σ.repeatWhile guard body rounds) fun _ => [] where
  leads p vs m hcode hroom := by
    simp only [length_nil, wordCount_append, wordCount_cons, wordCount_nil, pushCount_append,
      pushCount_cons, pushCount_nil, (isBranch_jumpIf _).size, isBranch_jump.size,
      (isBranch_jumpIf _).not_pushes, isBranch_jump.not_pushes] at hroom ⊢
    have hbranch := hcode.right
    have hrest := (show CodeAt c _ ([.jumpIf comparison (wordCount js + 2 : Nat)] ++ _) from
      hbranch).right
    have hback := hrest.right
    rw [wordCount_cons, wordCount_nil, (isBranch_jumpIf _).size] at hrest hback
    -- By induction on the rounds that are left, for every memory, since the body may change it.
    suffices h : ∀ k ≤ rounds, ∀ m : σ.Memory, Leads c k (m.state p vs)
        (fun _ m' => m'.state (p + (wordCount is + (2 + (wordCount js + (2 + 0)))) : Nat) vs)
        (σ.repeatWhile guard body k m) from h rounds (Nat.le_refl _) m
    intro k hk
    induction k with
    | zero => exact fun m => ⟨0, _, Nat.le_refl _, .refl _⟩
    | succ k ih =>
      intro m
      have hleads := hguard.leads p vs m hcode.left (by rw [length_nil]; omega)
      refine (hleads.mono hk).bind fun v m₁ hv => ?_
      have hheight := hguard.height v m m₁ hv
      simp only [length_singleton, length_nil] at hheight
      split
      next hzero =>
        have hstep : Steps c 1 (m₁.state (p + wordCount is : Nat) (test v :: vs)) (m₁.state
            (p + (wordCount is + (2 + (wordCount js + (2 + 0)))) : Nat) vs) :=
          steps_jumpIf _ hbranch (by rw [if_pos ((htest v).trans hzero)]; omega)
            (by rw [length_cons]; omega)
        exact ⟨1, hstep⟩
      next hnonzero =>
        have hstep : Steps c 1 (m₁.state (p + wordCount is : Nat) (test v :: vs)) (m₁.state
            (p + wordCount is + (2 + 0) : Nat) vs) :=
          steps_jumpIf _ hbranch (by rw [if_neg (by rwa [htest v])]; omega)
            (by rw [length_cons]; omega)
        have hleads' := hbody.leads _ vs m₁ hrest.left (by rw [length_nil]; omega)
        refine ((hleads'.after hstep).mono (Nat.le_trans hk (Nat.le_add_right ..))).bind
          fun _ m₂ _ => ?_
        -- The jump back leads to the guard, with a round fewer left.
        have hjump : Steps c 1 (m₂.state (p + wordCount is + (2 + 0) + wordCount js : Nat) vs)
            (m₂.state p vs) :=
          steps_jump _ hback (by omega) (by omega)
        exact (ih (Nat.le_of_succ_le hk) m₂).after hjump
  height _ _ _ _ := Nat.zero_le _

end Jumps

end Orchestrion.Machine
