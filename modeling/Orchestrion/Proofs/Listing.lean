import Orchestrion.Proofs.Instances

/-!
# Listings show what runs

The listing, the machine and the emitter each have to know how long an instruction is and from where
the offset of a jump counts. They agree: the lines of a slot are those of the instructions that its
code consists of, runs go from one of these instructions to another, and a jump is shown with the
place to which it leads.
-/

namespace Orchestrion

open Instruction Machine

/-! ### Places of instructions -/

namespace Instruction

/-- Instructions with the places of their first words, the first of them at the given place. -/
def placed : Nat → List Instruction → List (Nat × Instruction)
  | _, [] => []
  | start, i :: is => (start, i) :: placed (start + i.size) is

variable {start place : Nat} {i : Instruction} {is : List Instruction}

theorem placed_append (js : List Instruction) :
    placed start (is ++ js) = placed start is ++ placed (start + wordCount is) js := by
  induction is generalizing start with
  | nil => rfl
  | cons i is ih => simp [placed, ih, Nat.add_assoc]

theorem mem_placed : (place, i) ∈ placed start is ↔
    ∃ before behind, is = before ++ i :: behind ∧ place = start + wordCount before := by
  constructor
  · intro h
    induction is generalizing start with
    | nil => cases h
    | cons j is ih =>
      rcases List.mem_cons.1 h with h | h
      · cases h
        exact ⟨[], is, rfl, rfl⟩
      · obtain ⟨before, behind, rfl, rfl⟩ := ih h
        exact ⟨j :: before, behind, rfl, by simp [Nat.add_assoc]⟩
  · rintro ⟨before, behind, rfl, rfl⟩
    rw [placed_append]
    exact List.mem_append_right _ (List.mem_cons_self ..)

theorem Bound.exists_placed {place : Int} (h : Bound is place) (last : Instruction) :
    ∃ target j, (target, j) ∈ placed 0 (is ++ [last]) ∧ place = (target : Nat) := by
  obtain ⟨before, behind, rfl, rfl⟩ := h
  cases behind with
  | nil => exact ⟨_, last, mem_placed.2 ⟨before, [], by simp, rfl⟩, by simp⟩
  | cons j behind => exact ⟨_, j, mem_placed.2 ⟨before, behind ++ [last], by simp, rfl⟩, by simp⟩

theorem Closed.exists_target {last : Instruction} {offset : Int} (h : Closed is)
    (hplaced : (place, i) ∈ placed 0 (is ++ [last])) (hlast : last.offset? = none)
    (hoffset : i.offset? = some offset) :
    ∃ target j, (target, j) ∈ placed 0 (is ++ [last]) ∧
      (place + i.size : Nat) + offset = (target : Nat) := by
  rw [placed_append, List.mem_append] at hplaced
  rcases hplaced with hplaced | hplaced
  · obtain ⟨before, behind, rfl, rfl⟩ := mem_placed.1 hplaced
    have hbound := (land_append.1 h).2.1 offset hoffset
    obtain ⟨target, j, hj, htarget⟩ := hbound.exists_placed last
    exact ⟨target, j, hj, by rw [← htarget]; simp⟩
  · cases List.mem_singleton.1 hplaced
    cases hlast.symm.trans hoffset

def taken? (s : State) : Instruction → Option State
  | jump _ => some s
  | jumpIf comparison _ => do
    let (v, s) ← s.pop?
    if comparison.holds v then some s else none
  | _ => none

end Instruction

/-! ### Runs -/

section Runs

variable {c : Context} {s s' : State} {is : List Instruction} {k : Nat}

theorem Machine.Reaches.bound (hcode : c.code = wordsOf (is ++ [.ret])) (hclosed : Closed is)
    (h : Reaches c k s s') (hs : Bound is s.place) : Bound is s'.place := by
  induction h with
  | refl => exact hs
  | cons hstep _ ih => exact ih (bound_of_step hcode (.inr rfl) hclosed hs hstep)

theorem Machine.step_placed {place : Nat} {i : Instruction} (hcode : c.code = wordsOf is)
    (h : (place, i) ∈ placed 0 is) (hplace : s.place = place) :
    step c s = exec c { s with place := (place + i.size : Nat) } i := by
  obtain ⟨before, behind, rfl, rfl⟩ := mem_placed.1 h
  rw [Nat.zero_add] at hplace
  rw [step_at hcode hplace, hplace]
  simp

theorem Machine.exec_taken {i : Instruction} {offset : Int} (next : Int)
    (hoffset : i.offset? = some offset) (h : i.taken? s = some s') :
    exec c { s with place := next } i = .onward { s' with place := next + offset } := by
  cases i with
  | jump =>
    cases hoffset
    cases h
    rfl
  | jumpIf comparison =>
    cases hoffset
    match hstack : s.stack with
    | none | some [] => simp [taken?, State.pop?, hstack] at h
    | some (v :: vs) =>
      simp only [taken?, State.pop?, hstack, bind, Option.bind] at h
      split at h
      next hholds =>
        cases h
        simp [exec, State.pop?, Progress.ofState?, hholds]
      next => cases h
  | _ => cases hoffset

end Runs

/-! ### Lines -/

namespace CompiledUnit

variable {u : CompiledUnit}

/-- The line of an instruction at a place. There is none for a constant with a negative number. -/
def line? (u : CompiledUnit) (place : Nat) (i : Instruction) : Option Text := do
  let operands ← u.operandText? (place + i.size) i
  return "  " ++ Text.ofIntPadded 4 place ++ ": " ++ i.operation.name ++ operands ++ "\n"

theorem isSome_operandText? {i : Instruction} (h : ∀ k, i = .num k → 0 ≤ k) (next : Nat) :
    (u.operandText? next i).isSome = true := by
  cases i with
  | num k =>
    rw [operandText?, numOperand?, if_neg (Int.not_lt.2 (h k rfl))]
    cases u.num? k <;> rfl
  | _ => rfl

theorem codeLines?_wordsOf {is : List Instruction} {n : Nat} (hn : is.length ≤ n)
    (h : ∀ i ∈ is, ∀ k, i = .num k → 0 ≤ k) (start : Nat) :
    ∃ lines, List.Forall₂ (fun x line => u.line? x.1 x.2 = some line) (placed start is) lines ∧
      u.codeLines? n start (wordsOf is) = some lines.flatten := by
  induction is generalizing n start with
  | nil =>
    refine ⟨[], .nil, ?_⟩
    cases n <;> rfl
  | cons i is ih =>
    obtain ⟨n, rfl⟩ := Nat.exists_eq_succ_of_ne_zero (Nat.ne_zero_of_lt hn)
    rw [List.forall_mem_cons] at h
    obtain ⟨lines, hlines, hrest⟩ := ih (Nat.le_of_succ_le_succ hn) h.2 (start + i.size)
    obtain ⟨operands, hoperands⟩ :=
      Option.isSome_iff_exists.1 (u.isSome_operandText? h.1 (start + i.size))
    have hline : u.line? start i = some ("  " ++ Text.ofIntPadded 4 start ++ ": " ++
        i.operation.name ++ operands ++ "\n") := by
      rw [line?, hoperands]
      rfl
    refine ⟨_ :: lines, .cons hline hlines, ?_⟩
    rw [codeLines?, wordsOf_cons, fetch_words_append]
    dsimp only
    rw [← length_words i, List.drop_left, length_words, hoperands, hrest]
    simp

/-- The lines of a slot show the instructions of its code, and nothing else is carried out. -/
structure Shows (u : CompiledUnit) (slot : Slot) (is : List Instruction) : Prop where
  /-- The code consists of the instructions. -/
  code : u.code.get slot = wordsOf is
  /-- Each instruction has its line, with its place, and there are no other lines. -/
  lines : ∃ lines, List.Forall₂ (fun x line => u.line? x.1 x.2 = some line) (placed 0 is) lines ∧
    u.slotLines? slot = some (slot.name ++ (":\n" : Text) ++ lines.flatten)
  /-- The last instruction is the only return. -/
  ret : ∃ js, is = js ++ [.ret] ∧ .ret ∉ js
  /-- Wherever a run comes, there is one of the instructions, and it is carried out. -/
  runs : ∀ host k s s', s.place = 0 → Reaches ⟨u, slot, host⟩ k s s' →
    ∃ (place : Nat) (i : Instruction), (place, i) ∈ placed 0 is ∧ s'.place = place ∧
      step ⟨u, slot, host⟩ s' = exec ⟨u, slot, host⟩ { s' with place := (place + i.size : Nat) } i
  /-- The place that is shown for a jump is that of one of the instructions, and the run goes on
  there if the jump is taken. -/
  jumps : ∀ (place : Nat) i offset, (place, i) ∈ placed 0 is → i.offset? = some offset →
    ∃ (target : Nat) (j : Instruction), (target, j) ∈ placed 0 is ∧
      u.operandText? (place + i.size) i = some (" -> " ++ Text.ofIntPadded 4 target) ∧
      ∀ host (s s' : State), s.place = place → i.taken? s = some s' →
        step ⟨u, slot, host⟩ s = .onward { s' with place := target }

theorem operandText?_jump {i : Instruction} {offset : Int} (h : i.offset? = some offset)
    (next : Nat) : u.operandText? next i = some (" -> " ++ Text.ofIntPadded 4 (next + offset)) := by
  cases i with
  | jump | jumpIf =>
    cases h
    rfl
  | _ => cases h

theorem shows_of_pushing {slot : Slot} {vs : List Float} {js : List Instruction}
    (hcode : u.code.get slot = wordsOf (js ++ [.ret])) (h : Emit.Pushing u vs js) :
    u.Shows slot (js ++ [.ret]) where
  code := hcode
  lines := by
    have hnums : ∀ i ∈ js ++ [.ret], ∀ k, i = .num k → 0 ≤ k := by
      rintro i hi k rfl
      have hmem : .num k ∈ js.filter isNum := by simpa [isNum] using hi
      obtain ⟨v, -, n, hn, -⟩ := exists_mem_of_forall₂ h.nums.flip hmem
      cases hn
      exact Int.natCast_nonneg n
    have hlength := length_le_wordCount (js ++ [.ret])
    rw [← length_wordsOf, ← hcode] at hlength
    obtain ⟨lines, hlines, htext⟩ := u.codeLines?_wordsOf hlength hnums 0
    refine ⟨lines, hlines, ?_⟩
    rw [← hcode] at htext
    rw [slotLines?, htext]
    rfl
  ret := ⟨js, rfl, h.ret⟩
  runs host k s s' hs hreach := by
    have hbound : Bound js s'.place := by
      refine Reaches.bound (c := ⟨u, slot, host⟩) hcode h.closed hreach ?_
      rw [hs]
      exact bound_zero js
    obtain ⟨place, i, hplaced, hplace⟩ := hbound.exists_placed .ret
    exact ⟨place, i, hplaced, hplace, step_placed hcode hplaced hplace⟩
  jumps place i offset hplaced hoffset := by
    obtain ⟨target, j, hj, htarget⟩ := h.closed.exists_target hplaced rfl hoffset
    refine ⟨target, j, hj, ?_, fun host s s' hs htaken => ?_⟩
    · rw [operandText?_jump hoffset, htarget]
    · have hstep := step_placed (c := ⟨u, slot, host⟩) hcode hplaced hs
      rw [hstep, exec_taken _ hoffset htaken, htarget]

end CompiledUnit

/-- The listing of every unit that is generated shows what runs. -/
theorem Instrument.listing_shows_code {l : Linkage} {checked : CheckedUnit} {i : Instrument}
    {u : CompiledUnit} (h : i.generate l checked = .ok u) :
    (∀ slot, ∃ is, u.Shows slot is) ∧ u.listing?.isSome = true := by
  have hshows (slot : Slot) : ∃ is, u.Shows slot is := by
    obtain ⟨js, hcode, hpushing⟩ := Instrument.generate_pushing h slot
    exact ⟨_, CompiledUnit.shows_of_pushing hcode hpushing⟩
  have hlines (slot : Slot) : ∃ text, u.slotLines? slot = some text := by
    obtain ⟨is, his⟩ := hshows slot
    obtain ⟨lines, -, hlines⟩ := his.lines
    exact ⟨_, hlines⟩
  refine ⟨hshows, ?_⟩
  obtain ⟨construct, hconstruct⟩ := hlines .construct
  obtain ⟨init, hinit⟩ := hlines .init
  obtain ⟨control, hcontrol⟩ := hlines .control
  obtain ⟨audio, haudio⟩ := hlines .audio
  rw [CompiledUnit.listing?, hconstruct, hinit, hcontrol, haudio]
  rfl

def Orchestra.tally : Text := "instr a(n) \x7b ivar i; while (n - i) \x7b i = i + 1; \x7d \x7d"

def Orchestra.tallyLines : Text :=
  "init:\n  0000: LoadField n[0]\n  0002: LoadField i[1]\n  0004: Sub\n  0005: Num [0] = 0\n" ++
  "  0007: Compare\n  0008: JumpEq -> 0019\n  0010: LoadField i[1]\n  0012: Num [1] = 1\n" ++
  "  0014: Add\n  0015: StoreField i[1]\n  0017: Jump -> 0000\n  0019: Return\n"

/-- The listing of an orchestra that counts. -/
theorem Instrument.listing_shows_code_tally :
    ∃ checked unit i u, CheckedOrchestra.ofText? Orchestra.tally = some checked ∧
      (unit, i) ∈ checked.parts ∧ i.generate (.of {} checked.global.locals) unit = .ok u ∧
      u.slotLines? .init = some Orchestra.tallyLines ∧
      (∀ slot, ∃ is, u.Shows slot is) ∧ u.listing?.isSome = true := by
  have hlines : (do
      let checked ← CheckedOrchestra.ofText? Orchestra.tally
      let part ← checked.parts.head?
      let u ← (part.2.generate (.of {} checked.global.locals) part.1).toOption
      u.slotLines? .init) = some Orchestra.tallyLines := by
    decide +kernel
  simp only [Option.bind_eq_bind, Option.bind_eq_some_iff, toOption_eq_some_iff] at hlines
  obtain ⟨checked, hchecked, ⟨unit, i⟩, hpart, u, hgenerate, hlines⟩ := hlines
  exact ⟨checked, unit, i, u, hchecked, List.mem_of_mem_head? hpart, hgenerate, hlines,
    Instrument.listing_shows_code hgenerate⟩

end Orchestrion
