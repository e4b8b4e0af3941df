import Orchestrion.Machine.Instance
import Orchestrion.Machine.Table

/-!
# The machine

Code runs on a stack of single precision numbers, one instruction after the other. A step either
leads on, or it ends the run: because the code is finished, with a failure that the code can be
blamed for at run time, or in a crash, which generated code never causes.
-/

namespace Orchestrion

/-- What code can be blamed for at run time. -/
inductive RuntimeFault where
  | invalidOperation (word : Int)
  /-- An index outside an array. -/
  | index (index : Int64) (field : Text) (length : Nat)
deriving DecidableEq, Repr

def RuntimeFault.message : RuntimeFault → Text
  | invalidOperation word => "invalid opcode " ++ Operation.nameOfCode word
  | index i field length =>
    "index " ++ Text.ofInt i.toInt ++ " out of range for " ++ field ++ "[" ++ Text.ofNat length
      ++ "]"

namespace Machine

/-- What does not change during a run. -/
structure Context where
  unit : CompiledUnit
  slot : Slot
  /-- The performance around the run; there is none yet while an instance is made. -/
  host : Option Host

def Context.code (c : Context) : List Int := c.unit.code.get c.slot

/-- What a run changes. -/
structure State where
  /-- The place of the next word of code. -/
  place : Int := 0
  /-- The values on the stack, the top first. There are none if more were taken than there are,
  which is harmless until the stack is used again. -/
  stack : Option (List Float32) := some []
  fields : Array Float32
  arrays : Array (Array Float32)
  lifetime : Lifetime
  store : Store
  /-- What was added to the frame, in order. -/
  sounds : Array Sound := #[]
deriving Repr

/-- What a step leads to. -/
inductive Progress where
  | onward (s : State)
  | finished (s : State)
  | failed (s : State) (fault : RuntimeFault)
  | crashed
deriving Repr

def Progress.ofState? : Option State → Progress
  | some s => .onward s
  | none => .crashed

namespace State

def push? (c : Context) (s : State) (v : Option Float32) : Option State := do
  let v ← v
  let vs ← s.stack
  if vs.length < max 1 c.unit.maxStack.toNat then some { s with stack := some (v :: vs) }
  else none

def pop? (s : State) : Option (Float32 × State) := do
  match ← s.stack with
  | v :: vs => some (v, { s with stack := some vs })
  | [] => none

def popMany? (s : State) (count : Int) : Option (List Float32 × State) := do
  let vs ← s.stack
  if 0 ≤ count ∧ count.toNat ≤ vs.length then
    some ((vs.take count.toNat).reverse, { s with stack := some (vs.drop count.toNat) })
  else none

def mapTop? (s : State) (f : Float32 → Float32) : Option State := do
  match ← s.stack with
  | v :: vs => some { s with stack := some (f v :: vs) }
  | [] => none

def combine? (s : State) (f : Float32 → Float32 → Float32) : Option State := do
  match ← s.stack with
  | r :: l :: vs => some { s with stack := some (f l r :: vs) }
  | _ => none

def setField? (s : State) (field : Int) (v : Option Float32) : Option State := do
  let fields ← replace? s.fields field (← v)
  return { s with fields }

def setGlobal? (s : State) (slot : Int) (v : Option Float32) : Option State := do
  let store ← replace? s.store slot (← v)
  return { s with store }

def setArray? (s : State) (field : Int) (a : Array Float32) : Option State := do
  let arrays ← replace? s.arrays field a
  return { s with arrays }

def addSound (s : State) (sound : Sound) : State := { s with sounds := s.sounds.push sound }

end State

def indexFault (c : Context) (field : Int) (a : Array Float32) (i : Int64) : RuntimeFault :=
  .index i (((c.unit.fieldAt? field).map Field.ident).getD []) a.size

def readElement (c : Context) (s : State) (field : Int) : Progress :=
  match element? s.arrays field, s.stack with
  | some a, some (index :: vs) =>
    let i := Number.singleToWord index
    match element? a i.toInt with
    | some v => .onward { s with stack := some (v :: vs) }
    | none => .failed s (indexFault c field a i)
  | _, _ => .crashed

def writeElement (c : Context) (s : State) (field : Int) (keep : Bool) : Progress :=
  match element? s.arrays field, s.stack with
  | some a, some (value :: index :: vs) =>
    let i := Number.singleToWord index
    if 0 ≤ i.toInt ∧ i.toInt.toNat < a.size then
      .onward { s with
        stack := some (if keep then value :: vs else vs)
        arrays := s.arrays.modify field.toNat (·.setIfInBounds i.toInt.toNat value) }
    else .failed s (indexFault c field a i)
  | _, _ => .crashed

def truth (b : Bool) : Float32 := if b then 1 else 0

def order (a b : Float32) : Float32 := if a == b then 0 else if b < a then 1 else -1

def standardValue (h : Host) (l : Lifetime) (name : Int) : Float32 :=
  match StandardName.ofCode? name with
  | some name => h.standard l name
  | none => 0

def builtinValue? (builtin : Int) (args : List Float32) : Option Float32 :=
  match Builtin.ofCode? builtin with
  | some b => b.value? args
  | none => if args.isEmpty then none else some 0

def fillArray? (s : State) (field generator count : Int) : Option State := do
  let (args, s) ← s.popMany? count
  let a ← element? s.arrays field
  match Generator.ofCode? generator with
  | some g => s.setArray? field (← g.fill? a args)
  | none => some s

def exec (c : Context) (s : State) : Instruction → Progress
  | .nop => .onward s
  | .num i => .ofState? (s.push? c (c.unit.num? i))
  | .pop => .onward { s with stack := s.stack.bind List.tail? }
  | .loadField f => .ofState? (s.push? c (element? s.fields f))
  | .storeField f => .ofState? do
    let (v, s) ← s.pop?
    s.setField? f (some v)
  | .loadElem f => readElement c s f
  | .storeElem f => writeElement c s f false
  | .loadGlobal g => .ofState? do
    let _ ← c.host
    s.push? c (element? s.store g)
  | .storeGlobal g => .ofState? do
    let _ ← c.host
    let (v, s) ← s.pop?
    s.setGlobal? g (some v)
  | .importGlobal f g => .ofState? do
    let _ ← c.host
    s.setField? f (element? s.store g)
  | .exportField f g => .ofState? do
    let _ ← c.host
    s.setGlobal? g (element? s.fields f)
  | .loadStd name => .ofState? do
    let h ← c.host
    s.push? c (some (standardValue h s.lifetime name))
  | .newArray f size =>
    .ofState? (if 0 ≤ size then s.setArray? f (Array.replicate size.toNat 0) else none)
  | .tableGen f generator count => .ofState? (fillArray? s f generator count)
  | .tableRead f => readElement c s f
  | .tableWrite f => writeElement c s f true
  | .tableLen f => .ofState? (s.push? c ((element? s.arrays f).map fun a => Float32.ofNat a.size))
  | .add => .ofState? (s.combine? (· + ·))
  | .sub => .ofState? (s.combine? (· - ·))
  | .mul => .ofState? (s.combine? (· * ·))
  | .div => .ofState? (s.combine? (· / ·))
  | .neg => .ofState? (s.mapTop? fun v => -v)
  | .trunc => .ofState? (s.mapTop? Number.truncate)
  | .and => .ofState? (s.combine? fun l r => truth (l != 0 && r != 0))
  | .or => .ofState? (s.combine? fun l r => truth (l != 0 || r != 0))
  | .compare => .ofState? (s.combine? order)
  | .jump offset => .onward { s with place := s.place + offset }
  | .jumpIf comparison offset => .ofState? do
    let (v, s) ← s.pop?
    return if comparison.holds v then { s with place := s.place + offset } else s
  | .call builtin count => .ofState? do
    let (args, s) ← s.popMany? count
    s.push? c (builtinValue? builtin args)
  | .output => .ofState? do
    let (v, s) ← s.pop?
    return s.addSound (.all v)
  | .outputFrame count => .ofState? do
    let (vs, s) ← s.popMany? count
    if count ≤ c.unit.maxOutput then some (s.addSound (.frame vs)) else none
  | .extend => .ofState? do
    let h ← c.host
    let (v, s) ← s.pop?
    return { s with lifetime := s.lifetime.extend (h.settings.ticks (Number.widen v)) }
  | .turnoff => .ofState? do
    let h ← c.host
    return { s with lifetime := s.lifetime.turnOff h.now }
  | .ret => .finished s

/-- How far a run moves on behind the word of an operation, over the operands that it reads. -/
def advance : Instruction → Int
  | .num _ | .loadField _ | .storeField _ | .loadElem _ | .storeElem _ | .loadGlobal _
  | .storeGlobal _ | .loadStd _ | .tableRead _ | .tableWrite _ | .tableLen _ | .jump _
  | .jumpIf _ _ | .outputFrame _ => 1
  | .importGlobal _ _ | .exportField _ _ | .newArray _ _ | .call _ _ => 2
  | .tableGen _ _ _ => 3
  | _ => 0

def step (c : Context) (s : State) : Progress :=
  if s.place < 0 then .crashed
  else
    match Instruction.fetch (c.code.drop s.place.toNat) with
    | .nothing => .finished s
    | .invalid word => .failed s (.invalidOperation word)
    | .truncated _ => .crashed
    | .instruction i => exec c { s with place := s.place + 1 + advance i } i

/-- How a run ends. -/
inductive Halt where
  | finished (s : State)
  | failed (s : State) (fault : RuntimeFault)
  | crashed
  /-- The run took more steps than it was allowed to. -/
  | exhausted
deriving Repr

def run (c : Context) : Nat → State → Halt
  | 0, _ => .exhausted
  | n + 1, s =>
    match step c s with
    | .onward s => run c n s
    | .finished s => .finished s
    | .failed s fault => .failed s fault
    | .crashed => .crashed

end Machine

end Orchestrion
