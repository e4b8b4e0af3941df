import Mathlib.Algebra.GroupWithZero.Nat
import Mathlib.Tactic.Common
import Orchestrion.Code.Stream

/-!
# Words of code

Code as a list of instructions beside code as a list of words. An instruction is read back from its
words whatever follows them, and a growing stream is best looked at in its settled form, in which
the pending branches already lead to the next instruction: appending an instruction then only
appends its words.
-/

namespace Orchestrion

namespace Operation

@[simp]
theorem ofCode?_code (op : Operation) : ofCode? (op.code : Int) = some op := by
  cases op <;> rfl

end Operation

namespace Instruction

@[simp]
theorem length_operands (i : Instruction) : i.operands.length = i.operation.arity := by
  cases i with
  | jumpIf c => cases c <;> rfl
  | _ => rfl

@[simp]
theorem of?_operands (i : Instruction) : of? i.operation i.operands = some i := by
  cases i with
  | jumpIf c => cases c <;> rfl
  | _ => rfl

@[simp]
theorem length_words (i : Instruction) : i.words.length = i.size := rfl

@[simp]
theorem fetch_words_append (i : Instruction) (rest : List Int) :
    fetch (i.words ++ rest) = .instruction i := by
  have htake : (i.operands ++ rest).take i.operation.arity = i.operands := by
    rw [← length_operands, List.take_left]
  simp only [words, List.cons_append, fetch, Operation.ofCode?_code, htake, of?_operands]

/-! ### Several instructions -/

def wordsOf (is : List Instruction) : List Int := is.flatMap words

def wordCount (is : List Instruction) : Nat := (is.map size).sum

/-- The number of those instructions that make the stack higher. -/
def pushCount (is : List Instruction) : Nat := is.countP fun i => i.operation.pushes

section Lists

variable (i : Instruction) (is js : List Instruction)

@[simp]
theorem wordsOf_nil : wordsOf [] = [] := rfl

@[simp]
theorem wordsOf_cons : wordsOf (i :: is) = i.words ++ wordsOf is := rfl

@[simp]
theorem wordsOf_append : wordsOf (is ++ js) = wordsOf is ++ wordsOf js := by
  simp [wordsOf]

@[simp]
theorem wordCount_nil : wordCount [] = 0 := rfl

@[simp]
theorem wordCount_cons : wordCount (i :: is) = i.size + wordCount is := by
  simp [wordCount]

@[simp]
theorem wordCount_append : wordCount (is ++ js) = wordCount is + wordCount js := by
  simp [wordCount]

@[simp]
theorem pushCount_nil : pushCount [] = 0 := rfl

@[simp]
theorem pushCount_cons :
    pushCount (i :: is) = (if i.operation.pushes then 1 else 0) + pushCount is := by
  rw [pushCount, List.countP_cons, Nat.add_comm]
  rfl

@[simp]
theorem pushCount_append : pushCount (is ++ js) = pushCount is + pushCount js := by
  simp [pushCount]

@[simp]
theorem length_wordsOf : (wordsOf is).length = wordCount is := by
  simp [wordsOf, wordCount, List.length_flatMap]

end Lists

/-! ### Branches -/

/-- Instructions that differ in nothing but an offset: the jumps of one kind. -/
def IsBranch (jump : Int → Instruction) : Prop :=
  ∃ op : Operation, op.pushes = false ∧
    ∀ offset, (jump offset).operation = op ∧ (jump offset).operands = [offset]

theorem isBranch_jump : IsBranch jump := ⟨.jump, rfl, fun _ => ⟨rfl, rfl⟩⟩

theorem isBranch_jumpIf (c : Comparison) : IsBranch (jumpIf c) :=
  ⟨c.operation, by cases c <;> rfl, fun _ => ⟨rfl, rfl⟩⟩

theorem IsBranch.size {jump : Int → Instruction} (h : IsBranch jump) (offset : Int) :
    (jump offset).size = 2 := by
  obtain ⟨op, -, hjump⟩ := h
  rw [Instruction.size, (hjump offset).2]
  rfl

theorem IsBranch.not_pushes {jump : Int → Instruction} (h : IsBranch jump) (offset : Int) :
    (jump offset).operation.pushes = false := by
  obtain ⟨op, hop, hjump⟩ := h
  rw [(hjump offset).1, hop]

end Instruction

namespace Stream

/-- The code as it stands if the next instruction is the target of the pending branches. -/
def settled (s : Stream) : List Int := (s.pending.foldl (patch s.code.size) s.code).toList

theorem settled_of_pending {s : Stream} (h : s.pending = []) : s.settled = s.code.toList := by
  rw [settled, h, List.foldl_nil]

theorem size_foldl_patch (target : Nat) (marks : List Nat) (code : Array Int) :
    (marks.foldl (patch target) code).size = code.size := by
  induction marks generalizing code with
  | nil => rfl
  | cons mark marks ih =>
    rw [List.foldl_cons, ih, patch, Array.size_setIfInBounds]

@[simp]
theorem length_settled (s : Stream) : s.settled.length = s.code.size := by
  rw [settled, Array.length_toList, size_foldl_patch]

@[simp]
theorem settled_add (s : Stream) (i : Instruction) : (s.add i).settled = s.settled ++ i.words := by
  simp [settled, add]

@[simp]
theorem size_add (s : Stream) (i : Instruction) : (s.add i).code.size = s.code.size + i.size := by
  rw [← length_settled, settled_add, List.length_append, length_settled, Instruction.length_words]

@[simp]
theorem settled_setPending (s : Stream) (mark : Nat) :
    (s.setPending mark).settled = s.settled.set mark (offsetTo s.code.size mark) := by
  simp [settled, setPending, patch]

theorem set_offset_of_branch {jump : Int → Instruction} (hjump : Instruction.IsBranch jump)
    (before : List Int) (is : List Instruction) :
    (before ++ Instruction.wordsOf (jump 0 :: is)).set (before.length + 1)
        (offsetTo (before.length + 2 + Instruction.wordCount is) (before.length + 1)) =
      before ++ Instruction.wordsOf (jump (Instruction.wordCount is) :: is) := by
  obtain ⟨op, -, h⟩ := hjump
  have hoffset : offsetTo (before.length + 2 + Instruction.wordCount is) (before.length + 1) =
      (Instruction.wordCount is : Int) := by
    rw [offsetTo]
    omega
  rw [hoffset, List.set_append_right _ _ (Nat.le_add_right ..)]
  simp [Instruction.words, h]

end Stream

end Orchestrion
