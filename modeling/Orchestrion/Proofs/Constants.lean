import Orchestrion.Proofs.Code.Zero
import Orchestrion.Proofs.Compile
import Orchestrion.Proofs.Machine.Simulation

/-!
# Constants of the source in code

The code of a slot pushes the constants of the source one after the other. Each of them is found in
the pool rounded to single precision, bit for bit, but for the zeros: all zeros of a unit share one
place, and what stands there is the zero that came first.
-/

namespace Orchestrion

open Number

theorem CompiledUnit.pooled_of_zero {u : CompiledUnit} {v : Float} {n : Nat}
    (h : u.nums[n]? = some (u.pooled v)) (hv : (narrow v == 0) = true) :
    u.pooled v = u.pooled 0 := by
  rw [pooled] at h
  rw [pooled, pooled, narrow_zero]
  simp only [beq_eq_beq_zero hv] at h ⊢
  cases hfind : u.nums.find? fun y => y == 0 with
  | some y => rfl
  | none =>
    -- The zero itself is in the pool, so that one is found.
    rw [hfind, Option.getD_none] at h
    exact absurd hv (List.find?_eq_none.1 hfind _ (List.mem_of_getElem? h))

/-- The constants of the source are pushed one after the other, each from a place of the pool that
holds it in single precision. All zeros of a unit are pushed from one place, which holds the first
one that the generators of tables are given. -/
theorem Instrument.constants_pooled {l : Linkage} {checked : CheckedUnit} {i : Instrument}
    {u : CompiledUnit} (h : i.generate l checked = .ok u) :
    ∃ place : Nat, ∀ slot, ∃ is, u.code.get slot = Instruction.wordsOf is ∧
      List.Forall₂ (fun v instruction => ∃ n : Nat, instruction = .num n ∧
        u.nums[n]? = some (if narrow v == 0 then i.zero else narrow v) ∧
        (narrow v == 0 → n = place))
        (i.pushed checked slot) (is.filter Instruction.isNum) := by
  refine ⟨(u.nums.findIdx? fun y => y == 0).getD 0, fun slot => ?_⟩
  obtain ⟨is, hcode, hpushing⟩ := Instrument.generate_pushing h slot
  refine ⟨_, hcode, ?_⟩
  rw [List.filter_append, show [Instruction.ret].filter Instruction.isNum = [] from rfl,
    List.append_nil]
  refine hpushing.nums.imp ?_
  rintro v _ ⟨n, rfl, hn, hplace⟩
  refine ⟨n, rfl, ?_, fun hzero => by rw [hplace hzero, Option.getD_some]⟩
  split
  next hzero => rw [hn, CompiledUnit.pooled_of_zero hn hzero, Instrument.pooled_zero h]
  next hne => rw [hn, Machine.pooled_of_ne u (by simpa using hne)]

/-- An orchestra whose table holds a negative zero, and that compares with zero. -/
def Orchestra.signs : Text := "instr a() \x7b table t(data, 2, -0, -1); output(0 < 2); \x7d"

theorem Instrument.constants_pooled_signs :
    ∃ checked unit i u, CheckedOrchestra.ofText? Orchestra.signs = some checked ∧
      (unit, i) ∈ checked.parts ∧ unit.errors = [] ∧
      i.generate (.of {} checked.global.locals) unit = .ok u ∧
      i.pushed unit .construct = [-0, -1] ∧
      ∃ place : Nat, ∀ slot, ∃ is, u.code.get slot = Instruction.wordsOf is ∧
        List.Forall₂ (fun v instruction => ∃ n : Nat, instruction = .num n ∧
          u.nums[n]? = some (if narrow v == 0 then i.zero else narrow v) ∧
          (narrow v == 0 → n = place))
          (i.pushed unit slot) (is.filter Instruction.isNum) := by
  have hfacts : (do
      let checked ← CheckedOrchestra.ofText? Orchestra.signs
      let part ← checked.parts.head?
      let u ← (part.2.generate (.of {} checked.global.locals) part.1).toOption
      some (part.1.errors, part.2.pushed part.1 .construct)) = some ([], [-0, -1]) := by
    decide +kernel
  simp only [Option.bind_eq_bind, Option.bind_eq_some_iff, toOption_eq_some_iff, Option.some.injEq,
    Prod.mk.injEq] at hfacts
  obtain ⟨checked, hchecked, ⟨unit, i⟩, hpart, u, hgenerate, hclean, hpushed⟩ := hfacts
  exact ⟨checked, unit, i, u, hchecked, List.mem_of_mem_head? hpart, hclean, hgenerate, hpushed,
    Instrument.constants_pooled hgenerate⟩

/-- The code compares with what is pushed for the numeral zero, and that is the negative zero. -/
theorem Instrument.constants_share_zero :
    ∃ checked unit i u, CheckedOrchestra.ofText? Orchestra.signs = some checked ∧
      (unit, i) ∈ checked.parts ∧ unit.errors = [] ∧
      i.generate (.of {} checked.global.locals) unit = .ok u ∧
      (i.pushed unit .audio).head? = some 0 ∧
      u.code.audio.take 2 = (Instruction.num 0).words ∧
      u.nums.head?.map Float32.toBits = some 0x80000000 ∧ (narrow 0).toBits = 0 := by
  have hfacts : (do
      let checked ← CheckedOrchestra.ofText? Orchestra.signs
      let part ← checked.parts.head?
      let u ← (part.2.generate (.of {} checked.global.locals) part.1).toOption
      some (part.1.errors, (part.2.pushed part.1 .audio).head?, u.code.audio.take 2,
        u.nums.head?.map Float32.toBits, (narrow 0).toBits)) =
      some ([], some 0, (Instruction.num 0).words, some 0x80000000, 0) := by decide +kernel
  simp only [Option.bind_eq_bind, Option.bind_eq_some_iff, toOption_eq_some_iff, Option.some.injEq,
    Prod.mk.injEq] at hfacts
  obtain ⟨checked, hchecked, ⟨unit, i⟩, hpart, u, hu, hclean, hfacts⟩ := hfacts
  exact ⟨checked, unit, i, u, hchecked, List.mem_of_mem_head? hpart, hclean, hu, hfacts⟩

end Orchestrion
