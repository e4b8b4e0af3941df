import Orchestrion.Code.Emitter

/-!
# The code of expressions and statements

An expression leaves its value on the stack. Both sides of `&&` and `||` are always computed. A
comparison leaves one or zero, and what is nonzero counts as true.
-/

namespace Orchestrion.Emit

def globalScalar? (c : EmitContext) (node : Node) (name : Text) : Emit (Option Nat) := do
  match c.scope.resolve? name with
  | some (_, true) =>
    match c.store.index? name with
    | some slot => return some slot
    | none => refuse c node (.notScalar name)
  | _ => return none

def name (c : EmitContext) (slot : Slot) (node : Node) (x : Text) : Emit Unit := do
  match c.field? x with
  | some f => instruction slot (.loadField f)
  | none =>
    match ← globalScalar? c node x with
    | some g => instruction slot (.loadGlobal g)
    | none =>
      match StandardName.ofText? x with
      | some s => instruction slot (.loadStd s.code)
      | none => refuse c node (.reference x)

/-- How an operator is carried out: by an instruction or by a comparison. -/
inductive Combination where
  | direct (i : Instruction)
  | comparing (c : Comparison)
deriving DecidableEq, Repr

def combination : BinaryOp → Combination
  | .add => .direct .add
  | .sub => .direct .sub
  | .mul => .direct .mul
  | .div => .direct .div
  | .and => .direct .and
  | .or => .direct .or
  | .equal => .comparing .eq
  | .notEqual => .comparing .ne
  | .less => .comparing .lt
  | .lessEqual => .comparing .le
  | .greater => .comparing .gt
  | .greaterEqual => .comparing .ge

def combine (slot : Slot) (op : BinaryOp) : Emit Unit := do
  match combination op with
  | .direct i => instruction slot i
  | .comparing comparison =>
    instruction slot .compare
    let toOne ← branch slot (.jumpIf comparison)
    push slot 0
    let join ← branch slot .jump
    setPending slot toOne
    push slot 1
    setPending slot join

def compareWithZero (slot : Slot) : Emit Unit := do
  push slot 0
  instruction slot .compare

def tableInstruction : CoreOpcode → Nat → Instruction
  | .tableRead, f => .tableRead f
  | .tableWrite, f => .tableWrite f
  | _, f => .tableLen f

def tableField (c : EmitContext) (call arg : Expr) : Emit Nat := do
  match arg with
  | .name _ x =>
    match c.field? x with
    | some f => return f
    | none => refuse c (.expr call) (.globalTable x)
  | _ => refuse c (.expr call) .tableArgument

mutual

def expr (c : EmitContext) (slot : Slot) : Expr → Emit Unit
  | .constant _ l => push slot l.value
  | e@(.name _ x) => name c slot (.expr e) x
  | e@(.element _ x index) => do
    match c.field? x with
    | none => refuse c (.expr e) (.indexedGlobal x)
    | some f =>
      expr c slot index
      instruction slot .trunc
      instruction slot (.loadElem f)
  | .binary _ op left right => do
    expr c slot left
    expr c slot right
    combine slot op
  | .unary _ .neg operand => do
    expr c slot operand
    instruction slot .neg
  | .unary _ .not operand => do
    expr c slot operand
    compareWithZero slot
    let toZero ← branch slot (.jumpIf .ne)
    push slot 1
    let join ← branch slot .jump
    setPending slot toZero
    push slot 0
    setPending slot join
  | .conditional _ guard yes no => do
    expr c slot guard
    compareWithZero slot
    let toElse ← branch slot (.jumpIf .eq)
    expr c slot yes
    let join ← branch slot .jump
    setPending slot toElse
    expr c slot no
    setPending slot join
  | e@(.call _ callee args) => do
    match CoreOpcode.ofText? callee with
    | none => refuse c (.expr e) (.declaredOpcode callee)
    | some (.builtin b) =>
      exprs c slot args
      instruction slot (.call b.code args.length)
    | some op => tableCall c slot e op args

def tableCall (c : EmitContext) (slot : Slot) (call : Expr) (op : CoreOpcode) :
    List Expr → Emit Unit
  | [] => throw .missingArgument
  | table :: values => do
    let f ← tableField c call table
    exprs c slot values
    instruction slot (tableInstruction op f)

def exprs (c : EmitContext) (slot : Slot) : List Expr → Emit Unit
  | [] => return
  | e :: es => do
    expr c slot e
    exprs c slot es

end

def condition (c : EmitContext) (slot : Slot) (guard : Expr) : Emit Unit := do
  expr c slot guard
  compareWithZero slot

def target (c : EmitContext) (slot : Slot) (t : Target) : Emit Instruction := do
  match c.field? t.ident with
  | some f =>
    match t.index with
    | none => return .storeField f
    | some index =>
      expr c slot index
      instruction slot .trunc
      return .storeElem f
  | none =>
    match ← globalScalar? c (.target t) t.ident with
    | some g =>
      match t.index with
      | none => return .storeGlobal g
      | some _ => refuse c (.target t) (.assignment t.ident)
    | none => refuse c (.target t) (.assignment t.ident)

def output (c : EmitContext) (slot : Slot) (args : List Expr) : Emit Unit := do
  match args with
  | [arg] =>
    expr c slot arg
    instruction slot .output
  | args =>
    exprs c slot args
    instruction slot (.outputFrame args.length)
    modify fun e => { e with maxOutput := max e.maxOutput args.length }

mutual

def stmt (c : EmitContext) (slot : Slot) : Stmt → Emit Unit
  | .assign _ t value => do
    let store ← target c slot t
    expr c slot value
    instruction slot store
  | .eval _ value => do
    expr c slot value
    instruction slot .pop
  | .ifThen _ guard body => do
    condition c slot guard
    let skip ← branch slot (.jumpIf .eq)
    stmts c slot body
    setPending slot skip
  | .ifElse _ guard yes no => do
    condition c slot guard
    let skip ← branch slot (.jumpIf .eq)
    stmts c slot yes
    let join ← branch slot .jump
    setPending slot skip
    stmts c slot no
    setPending slot join
  | .loop _ guard body => do
    let top ← label slot
    condition c slot guard
    let exit ← branch slot (.jumpIf .eq)
    stmts c slot body
    jumpBack slot top
    setPending slot exit
  | .output _ args => output c slot args
  | .extend _ seconds => do
    expr c slot seconds
    instruction slot .extend
  | .turnoff _ => instruction slot .turnoff
  | s@(.ret _ _) => refuse c (.stmt s) .construct

def stmts (c : EmitContext) (slot : Slot) : List Stmt → Emit Unit
  | [] => return
  | s :: ss => do
    stmt c slot s
    stmts c slot ss

end

end Orchestrion.Emit
