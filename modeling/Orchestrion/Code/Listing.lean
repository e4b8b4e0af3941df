import Orchestrion.Code.CompiledUnit
import Orchestrion.Number.Shortest

/-!
# Listings

A unit in readable form: its fields, its constants and its code, one instruction a line. Constants
and fields are shown where they are used, and jumps with the place they lead to.
-/

namespace Orchestrion.CompiledUnit

def fieldOperand (u : CompiledUnit) (index : Int) : Text :=
  let number : Text := "[" ++ Text.ofInt index ++ "]"
  match u.fieldAt? index with
  | some f => f.ident ++ number
  | none => number

def numOperand? (u : CompiledUnit) (index : Int) : Option Text :=
  let number : Text := " [" ++ Text.ofInt index ++ "]"
  if index < 0 then none
  else
    match u.num? index with
    | some v => some (number ++ " = " ++ Number.singleText v)
    | none => some number

def operandText? (u : CompiledUnit) (next : Nat) (i : Instruction) : Option Text :=
  match i with
  | .num index => u.numOperand? index
  | .jump offset | .jumpIf _ offset => some (" -> " ++ Text.ofIntPadded 4 ((next : Int) + offset))
  | .loadField f | .storeField f | .loadElem f | .storeElem f | .tableRead f | .tableWrite f
  | .tableLen f => some (" " ++ u.fieldOperand f)
  | .importGlobal f slot | .exportField f slot =>
    some (" " ++ u.fieldOperand f ++ " global[" ++ Text.ofInt slot ++ "]")
  | .newArray f size => some (" " ++ u.fieldOperand f ++ " size=" ++ Text.ofInt size)
  | .tableGen f generator count =>
    some (" " ++ u.fieldOperand f ++ " gen=" ++ Text.ofInt generator ++ " args="
      ++ Text.ofInt count)
  | .call builtin count =>
    some (" builtin=" ++ Text.ofInt builtin ++ " args=" ++ Text.ofInt count)
  | i => some (i.operands.flatMap fun a => (" " : Text) ++ Text.ofInt a)

def codeLines? (u : CompiledUnit) : Nat → Nat → List Int → Option Text
  | 0, _, _ => some []
  | n + 1, place, words =>
    let start : Text := "  " ++ Text.ofIntPadded 4 place ++ ": "
    match Instruction.fetch words with
    | .nothing => some []
    | .truncated op => some (start ++ op.name ++ " <truncated>\n")
    | .invalid word => do
      let rest ← codeLines? u n (place + 1) (words.drop 1)
      return start ++ Operation.nameOfCode word ++ "\n" ++ rest
    | .instruction i => do
      let next := place + i.size
      let operands ← u.operandText? next i
      let rest ← codeLines? u n next (words.drop i.size)
      return start ++ i.operation.name ++ operands ++ "\n" ++ rest

def slotLines? (u : CompiledUnit) (slot : Slot) : Option Text := do
  let code := u.code.get slot
  return slot.name ++ (":\n" : Text) ++ (← u.codeLines? code.length 0 code)

def fieldLines (u : CompiledUnit) : Text :=
  let line : Field × Nat → Text := fun (f, i) =>
    let shape : Text := if f.array then "array[" ++ Text.ofInt f.width ++ "]" else "scalar"
    "  [" ++ Text.ofNat i ++ "] " ++ f.rate.text ++ " " ++ f.ident ++ " " ++ shape ++ "\n"
  if u.fields.isEmpty then "" else "Fields:\n" ++ u.fields.zipIdx.flatMap line

def numLines (u : CompiledUnit) : Text :=
  let line : Float32 × Nat → Text := fun (v, i) =>
    "  [" ++ Text.ofNat i ++ "] " ++ Number.singleText v ++ "\n"
  if u.nums.isEmpty then "" else "Numbers:\n" ++ u.nums.zipIdx.flatMap line

def listing? (u : CompiledUnit) : Option Text := do
  let construct ← u.slotLines? .construct
  let init ← u.slotLines? .init
  let control ← u.slotLines? .control
  let audio ← u.slotLines? .audio
  return "=== instr " ++ u.ident ++ " ===\n" ++ u.fieldLines ++ u.numLines ++ construct ++ init
    ++ control ++ audio

end Orchestrion.CompiledUnit
