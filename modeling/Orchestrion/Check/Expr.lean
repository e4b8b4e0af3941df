import Orchestrion.Check.Context

/-!
# Checking expressions

An expression is as fast as the fastest value in it. The rate of a declared opcode's call is that
of the opcode, unless it takes the rate of its arguments.
-/

namespace Orchestrion.Check

def identifier (c : Context) (path : Path) (node : Node) (name : Text) : Checking Rate := do
  match ← resolve? c name with
  | some (v, _) =>
    setPayload path node (.entry v)
    if v.rate = .table || v.rate = .oparray then
      complain c node (.notValue v.rate name)
      return .i
    else if v.array then
      complain c node (.arrayWithoutIndex name)
      return .i
    else
      return Rate.fastest [v.rate]
  | none =>
    match StandardName.ofText? name with
    | some s => return s.rate
    | none =>
      complain c node (.undeclared name)
      return .i

def arrayName (c : Context) (path : Path) (node : Node) (name : Text) (index : Rate) :
    Checking Rate := do
  match ← resolve? c name with
  | some (v, _) =>
    setPayload path node (.entry v)
    if !v.array || !v.rate.isSignal then
      complain c node (.notArray name)
    return Rate.fastest [v.rate, index]
  | none =>
    complain c node (.undeclared name)
    return index

def tableNamed? (c : Context) (arg : Expr) : Checking (Option Entry) := do
  match arg with
  | .name _ x =>
    match ← resolve? c x with
    | some (v, _) => return if v.rate = .table then some v else none
    | none => return none
  | _ => return none

def argumentCount (c : Context) (node : Node) (op : CoreOpcode) (count : Nat) : Checking Unit := do
  unless op.takes count do
    complain c node (.argumentCount op count)

def callRate (c : Context) (node : Node) (callee : Text) (args : List Rate) : Checking Rate := do
  match c.opcodes.lookup callee with
  | none =>
    complain c node (.unknownOpcode callee)
    return Rate.fastest args
  | some .aopcode => return .a
  | some .kopcode => return .k
  | some .iopcode => return .i
  | some .opcode => return Rate.fastest args

mutual

def expr (c : Context) (path : Path) : Expr → Checking Rate
  | e@(.constant _ l) => do
    setPayload path (.expr e) (.constant l.value)
    setSignal path (.expr e) (.fixed 1) .i
    return .i
  | e@(.name _ x) => do
    let rate ← identifier c path (.expr e) x
    setSignal path (.expr e) (.fixed 1) rate
    return rate
  | e@(.element _ x index) => do
    let indexRate ← expr c (0 :: path) index
    let rate ← arrayName c path (.expr e) x indexRate
    setSignal path (.expr e) (.fixed 1) rate
    return rate
  | e@(.call _ callee args) => do
    let rate ← match CoreOpcode.ofText? callee with
      | some op => do
        argumentCount c (.expr e) op args.length
        let rates ← arguments c callee op.tableArg? path 0 args
        pure (Rate.fastest rates)
      | none => do
        let rates ← arguments c callee none path 0 args
        callRate c (.expr e) callee rates
    setSignal path (.expr e) (.fixed 1) rate
    return rate
  | e@(.binary _ _ left right) => do
    let leftRate ← expr c (0 :: path) left
    let rightRate ← expr c (1 :: path) right
    let rate := Rate.fastest [leftRate, rightRate]
    setSignal path (.expr e) (.fixed 1) rate
    return rate
  | e@(.unary _ _ operand) => do
    let operandRate ← expr c (0 :: path) operand
    let rate := Rate.fastest [operandRate]
    setSignal path (.expr e) (.fixed 1) rate
    return rate
  | e@(.conditional _ guard yes no) => do
    let guardRate ← expr c (0 :: path) guard
    let yesRate ← expr c (1 :: path) yes
    let noRate ← expr c (2 :: path) no
    let rate := Rate.fastest [guardRate, yesRate, noRate]
    setSignal path (.expr e) (.fixed 1) rate
    return rate

def arguments (c : Context) (callee : Text) (table : Option Nat) (path : Path) (i : Nat) :
    List Expr → Checking (List Rate)
  | [] => return []
  | arg :: args => do
    if table = some i then
      match ← tableNamed? c arg with
      | some v =>
        setSignal (i :: path) (.expr arg) v.width .table
        setPayload (i :: path) (.expr arg) (.entry v)
      | none =>
        complain c (.expr arg) (.notTable (i + 1) callee)
        let _ ← expr c (i :: path) arg
      arguments c callee table path (i + 1) args
    else
      let rate ← expr c (i :: path) arg
      let rates ← arguments c callee table path (i + 1) args
      return rate :: rates

end

def exprs (c : Context) (path : Path) (i : Nat) : List Expr → Checking (List Rate)
  | [] => return []
  | e :: es => do
    let rate ← expr c (i :: path) e
    let rates ← exprs c path (i + 1) es
    return rate :: rates

end Orchestrion.Check
