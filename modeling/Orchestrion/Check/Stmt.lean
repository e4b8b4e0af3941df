import Orchestrion.Check.Expr

/-!
# Checking statements

An assignment has the rate of its target, which cannot be slower than the value. An output is at the
rate of audio samples, and a statement with others inside is as fast as the fastest of them.
-/

namespace Orchestrion.Check

def assignFault? (stmt : Stmt) (target : Target) (v : Entry) (value index : Rate) :
    Option (Node × Cause) :=
  if !v.rate.isSignal && v.rate ≠ .x then
    some (.target target, .assignNonSignal v.rate target.ident)
  else
    match target.index with
    | some i =>
      if !v.array then some (.target target, .notArray target.ident)
      else if value.faster v.rate then
        some (.stmt stmt, .assignRate value v.rate target.ident)
      else if index.faster v.rate then
        some (.expr i, .assignRate index v.rate (target.ident ++ "[...]"))
      else none
    | none =>
      if v.array then some (.target target, .arrayWithoutIndex target.ident)
      else if value.faster v.rate then
        some (.stmt stmt, .assignRate value v.rate target.ident)
      else none

def targetIndex (c : Context) (path : Path) (t : Target) : Checking Rate :=
  match t.index with
  | some i => expr c (0 :: path) i
  | none => return .i

def target (c : Context) (path : Path) (stmt : Stmt) (t : Target) (value : Rate) :
    Checking Rate := do
  let index ← targetIndex c path t
  match ← resolve? c t.ident with
  | none =>
    match StandardName.ofText? t.ident with
    | some _ => complain c (.target t) (.assignStandard t.ident)
    | none => complain c (.target t) (.undeclared t.ident)
    setSignal path (.target t) (.fixed 1) value
    return value
  | some (v, _) =>
    setPayload path (.target t) (.entry v)
    match assignFault? stmt t v value index with
    | some (node, cause) => complain c node cause
    | none => pure ()
    let rate := if v.rate.isSignal || v.rate = .x then v.rate else value
    setSignal path (.target t) (.fixed 1) rate
    return rate

def requireInstrument (c : Context) (stmt : Stmt) (what : Keyword) : Checking Unit := do
  unless c.kind = .instrument do
    complain c (.stmt stmt) (.instrumentOnly what)

def outputWidth (c : Context) (stmt : Stmt) (count : Nat) : Checking Unit := do
  match c.settings with
  | some s =>
    unless count = 1 || (count : Int) = s.outChannels do
      complain c (.stmt stmt) (.outputWidth count s.outChannels)
  | none => pure ()
  if count = 0 then
    complain c (.stmt stmt) .emptyOutput

mutual

def stmt (c : Context) (path : Path) : Stmt → Checking Rate
  | s@(.assign _ t value) => do
    let valueRate ← expr c (1 :: path) value
    let rate ← target c (0 :: path) s t valueRate
    setSignal path (.stmt s) (.fixed 1) rate
    return rate
  | s@(.eval _ value) => do
    let rate ← expr c (0 :: path) value
    setSignal path (.stmt s) (.fixed 1) rate
    return rate
  | s@(.ifThen _ guard body) => do
    let guardRate ← expr c (0 :: path) guard
    let bodyRates ← stmts c (1 :: path) 0 body
    let rate := Rate.fastest [guardRate, Rate.fastest bodyRates]
    setSignal path (.stmt s) (.fixed 1) rate
    return rate
  | s@(.ifElse _ guard yes no) => do
    let guardRate ← expr c (0 :: path) guard
    let yesRates ← stmts c (1 :: path) 0 yes
    let noRates ← stmts c (2 :: path) 0 no
    let rate := Rate.fastest [guardRate, Rate.fastest yesRates, Rate.fastest noRates]
    setSignal path (.stmt s) (.fixed 1) rate
    return rate
  | s@(.loop _ guard body) => do
    let guardRate ← expr c (0 :: path) guard
    let bodyRates ← stmts c (1 :: path) 0 body
    let rate := Rate.fastest [guardRate, Rate.fastest bodyRates]
    setSignal path (.stmt s) (.fixed 1) rate
    return rate
  | s@(.output _ args) => do
    requireInstrument c s .output
    let _ ← exprs c path 0 args
    outputWidth c s args.length
    setSignal path (.stmt s) (.fixed 1) .a
    return .a
  | s@(.extend _ seconds) => do
    requireInstrument c s .extend
    let secondsRate ← expr c (0 :: path) seconds
    let rate := Rate.fastest [secondsRate]
    setSignal path (.stmt s) (.fixed 1) rate
    return rate
  | s@(.turnoff _) => do
    requireInstrument c s .turnoff
    setSignal path (.stmt s) (.fixed 1) .k
    return .k
  | s@(.ret _ values) => do
    unless c.kind = .opcode do
      complain c (.stmt s) .returnOutside
    let rates ← exprs c path 0 values
    let rate := Rate.fastest rates
    setSignal path (.stmt s) (.fixed 1) rate
    return rate

def stmts (c : Context) (path : Path) (i : Nat) : List Stmt → Checking (List Rate)
  | [] => return []
  | s :: ss => do
    let rate ← stmt c (i :: path) s
    let rates ← stmts c path (i + 1) ss
    return rate :: rates

end

end Orchestrion.Check
