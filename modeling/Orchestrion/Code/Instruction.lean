import Orchestrion.Text

/-!
# Instructions

The code of a unit is a list of words. An instruction is the number of its operation followed by its
operands. The offset of a jump counts from the word behind the jump.

* `Instruction.words`: how an instruction is written.
* `Instruction.fetch`: what stands at a place of the code.
-/

namespace Orchestrion

/-- What a word of code can stand for. -/
inductive Operation where
  /-- Nothing. -/
  | nop
  /-- Pushes a constant. -/
  | num
  /-- Drops the top of the stack. -/
  | pop
  | loadField | storeField
  /-- An array's element for the index on the stack. -/
  | loadElem
  /-- The value on the stack into an array, at the index below it. -/
  | storeElem
  | loadGlobal | storeGlobal
  /-- A global value into a field. -/
  | importGlobal
  /-- A field into a global value. -/
  | exportField
  /-- Pushes the value of a standard name. -/
  | loadStd
  | newArray
  /-- Fills a table from the values on the stack. -/
  | tableGen
  | tableRead
  /-- Like `storeElem`, but leaves the value on the stack. -/
  | tableWrite
  | tableLen
  | add | sub | mul | div | neg
  /-- Cuts off the fraction. -/
  | trunc
  | and | or
  /-- Pushes the sign of the difference of two values. -/
  | compare
  | jump | jumpEq | jumpNe | jumpLt | jumpLe | jumpGt | jumpGe
  /-- Calls a core opcode. -/
  | call
  /-- Sends a value to all channels. -/
  | output
  /-- Sends one value to each channel. -/
  | outputFrame
  | extend | turnoff
  /-- The end of the slot. -/
  | ret
deriving DecidableEq, Repr

namespace Operation

def all : Array Operation :=
  #[nop, num, pop, loadField, storeField, loadElem, storeElem, loadGlobal, storeGlobal,
    importGlobal, exportField, loadStd, newArray, tableGen, tableRead, tableWrite, tableLen, add,
    sub, mul, div, neg, trunc, and, or, compare, jump, jumpEq, jumpNe, jumpLt, jumpLe, jumpGt,
    jumpGe, call, output, outputFrame, extend, turnoff, ret]

def code (op : Operation) : Nat := op.ctorIdx

def ofCode? : Int → Option Operation
  | .ofNat n => all[n]?
  | .negSucc _ => none

def name : Operation → String
  | nop => "Nop"
  | num => "Num"
  | pop => "Pop"
  | loadField => "LoadField"
  | storeField => "StoreField"
  | loadElem => "LoadElem"
  | storeElem => "StoreElem"
  | loadGlobal => "LoadGlobal"
  | storeGlobal => "StoreGlobal"
  | importGlobal => "Import"
  | exportField => "Export"
  | loadStd => "LoadStd"
  | newArray => "NewArray"
  | tableGen => "TableGen"
  | tableRead => "TableRead"
  | tableWrite => "TableWrite"
  | tableLen => "TableLen"
  | add => "Add"
  | sub => "Sub"
  | mul => "Mul"
  | div => "Div"
  | neg => "Neg"
  | trunc => "Trunc"
  | and => "And"
  | or => "Or"
  | compare => "Compare"
  | jump => "Jump"
  | jumpEq => "JumpEq"
  | jumpNe => "JumpNe"
  | jumpLt => "JumpLt"
  | jumpLe => "JumpLe"
  | jumpGt => "JumpGt"
  | jumpGe => "JumpGe"
  | call => "Call"
  | output => "Output"
  | outputFrame => "OutputFrame"
  | extend => "Extend"
  | turnoff => "Turnoff"
  | ret => "Return"

def arity : Operation → Nat
  | num | loadField | storeField | loadElem | storeElem | loadGlobal | storeGlobal | loadStd
  | tableRead | tableWrite | tableLen | outputFrame
  | jump | jumpEq | jumpNe | jumpLt | jumpLe | jumpGt | jumpGe => 1
  | importGlobal | exportField | newArray | call => 2
  | tableGen => 3
  | _ => 0

def pushes : Operation → Bool
  | num | loadField | loadGlobal | loadStd | tableLen => true
  | _ => false

def isJump : Operation → Bool
  | jump | jumpEq | jumpNe | jumpLt | jumpLe | jumpGt | jumpGe => true
  | _ => false

def nameOfCode (word : Int) : Text :=
  match ofCode? word with
  | some op => op.name
  | none => "Opcode(" ++ Text.ofInt word ++ ")"

end Operation

/-- How a number compares with zero. -/
inductive Comparison where
  | eq | ne | lt | le | gt | ge
deriving DecidableEq, Repr

namespace Comparison

def operation : Comparison → Operation
  | eq => .jumpEq
  | ne => .jumpNe
  | lt => .jumpLt
  | le => .jumpLe
  | gt => .jumpGt
  | ge => .jumpGe

def holds (c : Comparison) (v : Float32) : Bool :=
  match c with
  | eq => v == 0
  | ne => v != 0
  | lt => v < 0
  | le => v <= 0
  | gt => v > 0
  | ge => v >= 0

end Comparison

/-- An operation with its operands. -/
inductive Instruction where
  | nop
  | num (index : Int)
  | pop
  | loadField (field : Int)
  | storeField (field : Int)
  | loadElem (field : Int)
  | storeElem (field : Int)
  | loadGlobal (slot : Int)
  | storeGlobal (slot : Int)
  | importGlobal (field slot : Int)
  | exportField (field slot : Int)
  | loadStd (name : Int)
  | newArray (field size : Int)
  | tableGen (field generator count : Int)
  | tableRead (field : Int)
  | tableWrite (field : Int)
  | tableLen (field : Int)
  | add | sub | mul | div | neg
  | trunc
  | and | or
  | compare
  | jump (offset : Int)
  | jumpIf (c : Comparison) (offset : Int)
  | call (builtin count : Int)
  | output
  | outputFrame (count : Int)
  | extend
  | turnoff
  | ret
deriving DecidableEq, Repr

namespace Instruction

def operation : Instruction → Operation
  | nop => .nop
  | num _ => .num
  | pop => .pop
  | loadField _ => .loadField
  | storeField _ => .storeField
  | loadElem _ => .loadElem
  | storeElem _ => .storeElem
  | loadGlobal _ => .loadGlobal
  | storeGlobal _ => .storeGlobal
  | importGlobal _ _ => .importGlobal
  | exportField _ _ => .exportField
  | loadStd _ => .loadStd
  | newArray _ _ => .newArray
  | tableGen _ _ _ => .tableGen
  | tableRead _ => .tableRead
  | tableWrite _ => .tableWrite
  | tableLen _ => .tableLen
  | add => .add
  | sub => .sub
  | mul => .mul
  | div => .div
  | neg => .neg
  | trunc => .trunc
  | and => .and
  | or => .or
  | compare => .compare
  | jump _ => .jump
  | jumpIf c _ => c.operation
  | call _ _ => .call
  | output => .output
  | outputFrame _ => .outputFrame
  | extend => .extend
  | turnoff => .turnoff
  | ret => .ret

def operands : Instruction → List Int
  | num a | loadField a | storeField a | loadElem a | storeElem a | loadGlobal a | storeGlobal a
  | loadStd a | tableRead a | tableWrite a | tableLen a | jump a | jumpIf _ a | outputFrame a => [a]
  | importGlobal a b | exportField a b | newArray a b | call a b => [a, b]
  | tableGen a b c => [a, b, c]
  | _ => []

def words (i : Instruction) : List Int := (i.operation.code : Int) :: i.operands

def of? : Operation → List Int → Option Instruction
  | .nop, [] => some nop
  | .num, [a] => some (num a)
  | .pop, [] => some pop
  | .loadField, [a] => some (loadField a)
  | .storeField, [a] => some (storeField a)
  | .loadElem, [a] => some (loadElem a)
  | .storeElem, [a] => some (storeElem a)
  | .loadGlobal, [a] => some (loadGlobal a)
  | .storeGlobal, [a] => some (storeGlobal a)
  | .importGlobal, [a, b] => some (importGlobal a b)
  | .exportField, [a, b] => some (exportField a b)
  | .loadStd, [a] => some (loadStd a)
  | .newArray, [a, b] => some (newArray a b)
  | .tableGen, [a, b, c] => some (tableGen a b c)
  | .tableRead, [a] => some (tableRead a)
  | .tableWrite, [a] => some (tableWrite a)
  | .tableLen, [a] => some (tableLen a)
  | .add, [] => some add
  | .sub, [] => some sub
  | .mul, [] => some mul
  | .div, [] => some div
  | .neg, [] => some neg
  | .trunc, [] => some trunc
  | .and, [] => some and
  | .or, [] => some or
  | .compare, [] => some compare
  | .jump, [a] => some (jump a)
  | .jumpEq, [a] => some (jumpIf .eq a)
  | .jumpNe, [a] => some (jumpIf .ne a)
  | .jumpLt, [a] => some (jumpIf .lt a)
  | .jumpLe, [a] => some (jumpIf .le a)
  | .jumpGt, [a] => some (jumpIf .gt a)
  | .jumpGe, [a] => some (jumpIf .ge a)
  | .call, [a, b] => some (call a b)
  | .output, [] => some output
  | .outputFrame, [a] => some (outputFrame a)
  | .extend, [] => some extend
  | .turnoff, [] => some turnoff
  | .ret, [] => some ret
  | _, _ => none

/-- What stands at the beginning of some words. -/
inductive Fetched where
  | nothing
  | invalid (word : Int)
  /-- An operation whose operands are missing. -/
  | truncated (op : Operation)
  | instruction (i : Instruction)
deriving DecidableEq, Repr

def fetch : List Int → Fetched
  | [] => .nothing
  | word :: rest =>
    match Operation.ofCode? word with
    | none => .invalid word
    | some op =>
      match of? op (rest.take op.arity) with
      | some i => .instruction i
      | none => .truncated op

def size (i : Instruction) : Nat := i.operands.length + 1

end Instruction

end Orchestrion
