import Orchestrion.Proofs.Code.Stream

/-!
# Where jumps lead

Every jump in the code of a unit leads to the first word of an instruction or behind the last one,
so that operands are never taken for operations. Such code is closed, and code that is put together
from closed code by branches and loops is closed again.
-/

namespace Orchestrion

namespace Instruction

def offset? : Instruction → Option Int
  | jump offset | jumpIf _ offset => some offset
  | _ => none

/-- The place is that of the first word of an instruction, or the one behind the last word. -/
def Bound (is : List Instruction) (place : Int) : Prop :=
  ∃ before behind, is = before ++ behind ∧ place = wordCount before

def Land (code : List Instruction) : Int → List Instruction → Prop
  | _, [] => True
  | place, i :: is =>
    (∀ offset, i.offset? = some offset → Bound code (place + i.size + offset)) ∧
      Land code (place + i.size) is

def Closed (code : List Instruction) : Prop := Land code 0 code

variable {code is js : List Instruction} {place : Int}

theorem bound_zero (code : List Instruction) : Bound code 0 := ⟨[], code, rfl, rfl⟩

theorem bound_wordCount (code : List Instruction) : Bound code (wordCount code) :=
  ⟨code, [], (List.append_nil _).symm, rfl⟩

theorem Bound.within (h : Bound is place) (before behind : List Instruction) :
    Bound (before ++ is ++ behind) (wordCount before + place) := by
  obtain ⟨first, rest, rfl, rfl⟩ := h
  exact ⟨before ++ first, rest ++ behind, by simp, by simp⟩

theorem land_append :
    Land code place (is ++ js) ↔ Land code place is ∧ Land code (place + wordCount is) js := by
  induction is generalizing place with
  | nil => simp [Land]
  | cons i is ih =>
    rw [List.cons_append, Land, Land, ih, wordCount_cons, Int.natCast_add, Int.add_assoc, and_assoc]

theorem land_of_offset? (h : ∀ i ∈ is, i.offset? = none) : Land code place is := by
  induction is generalizing place with
  | nil => trivial
  | cons i is ih =>
    rw [List.forall_mem_cons] at h
    refine ⟨fun offset hoffset => ?_, ih h.2⟩
    cases h.1.symm.trans hoffset

theorem Land.within (h : Land is place js) (before behind : List Instruction) :
    Land (before ++ is ++ behind) (wordCount before + place) js := by
  induction js generalizing place with
  | nil => trivial
  | cons j js ih =>
    obtain ⟨hj, hjs⟩ := h
    refine ⟨fun offset hoffset => ?_, ?_⟩
    · have hbound := (hj offset hoffset).within before behind
      rwa [← Int.add_assoc, ← Int.add_assoc] at hbound
    · rw [Int.add_assoc]
      exact ih hjs

namespace Closed

theorem land (h : Closed is) (before behind : List Instruction)
    (hcode : code = before ++ is ++ behind) (hplace : place = wordCount before) :
    Land code place is := by
  have hland := Land.within h before behind
  rwa [← hcode, Int.add_zero, ← hplace] at hland

theorem of_offset? (h : ∀ i ∈ is, i.offset? = none) : Closed is := land_of_offset? h

theorem nil : Closed [] := trivial

theorem append (his : Closed is) (hjs : Closed js) : Closed (is ++ js) := by
  rw [Closed, land_append]
  constructor
  · exact his.land [] js rfl rfl
  · exact hjs.land is [] (List.append_nil _).symm (Int.zero_add _)

theorem skip (comparison : Comparison) (his : Closed is) :
    Closed (.jumpIf comparison (wordCount is) :: is) := by
  refine ⟨fun offset h => ?_, ?_⟩
  · cases h
    convert bound_wordCount _
    simp
  · exact his.land [.jumpIf comparison (wordCount is)] [] (List.append_nil _).symm (by simp)

theorem choice (comparison : Comparison) (his : Closed is) (hjs : Closed js) :
    Closed (.jumpIf comparison (wordCount is + 2 : Nat) :: is ++ .jump (wordCount js) :: js) := by
  have hsize (offset : Int) : (jumpIf comparison offset).size = 2 := (isBranch_jumpIf _).size _
  have hsize' (offset : Int) : (jump offset).size = 2 := isBranch_jump.size _
  rw [Closed, land_append]
  refine ⟨⟨fun offset h => ?_, ?_⟩, fun offset h => ?_, ?_⟩
  · cases h
    refine ⟨.jumpIf comparison (wordCount is + 2 : Nat) :: is ++ [.jump (wordCount js)], js,
      by rw [List.append_assoc]; rfl, ?_⟩
    simp only [wordCount_append, wordCount_cons, wordCount_nil, hsize, hsize']
    omega
  · exact his.land [.jumpIf comparison (wordCount is + 2 : Nat)] (.jump (wordCount js) :: js) rfl
      (by simp)
  · cases h
    convert bound_wordCount _
    simp only [wordCount_append, wordCount_cons, hsize, hsize']
    omega
  · refine hjs.land (.jumpIf comparison (wordCount is + 2 : Nat) :: is ++ [.jump (wordCount js)]) []
      (by rw [List.append_nil, List.append_assoc]; rfl) ?_
    simp only [wordCount_append, wordCount_cons, wordCount_nil, hsize, hsize']
    omega

theorem loop (comparison : Comparison) (his : Closed is) (hjs : Closed js) :
    Closed (is ++ .jumpIf comparison (wordCount js + 2 : Nat) ::
      (js ++ [.jump (-(wordCount is + wordCount js + 4 : Nat))])) := by
  have hsize (offset : Int) : (jumpIf comparison offset).size = 2 := (isBranch_jumpIf _).size _
  have hsize' (offset : Int) : (jump offset).size = 2 := isBranch_jump.size _
  rw [Closed, land_append]
  refine ⟨his.land [] _ rfl rfl, fun offset h => ?_, ?_⟩
  · cases h
    convert bound_wordCount _
    simp only [wordCount_append, wordCount_cons, wordCount_nil, hsize, hsize']
    omega
  · rw [land_append]
    refine ⟨?_, fun offset h => ?_, trivial⟩
    · refine hjs.land (is ++ [.jumpIf comparison (wordCount js + 2 : Nat)])
        [.jump (-(wordCount is + wordCount js + 4 : Nat))]
        (by rw [List.append_assoc, List.append_assoc]; rfl) ?_
      simp only [wordCount_append, wordCount_cons, wordCount_nil, hsize]
      omega
    · cases h
      convert bound_zero _
      simp only [hsize, hsize']
      omega

end Closed

end Instruction

end Orchestrion
