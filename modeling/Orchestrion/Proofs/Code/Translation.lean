import Orchestrion.Code.Generate
import Orchestrion.Proofs.Code.Growth
import Orchestrion.Proofs.Check.Calls

/-!
# The code of expressions and statements as relations

Which instructions carry out which expression or statement, without the state that code is emitted
in: constants are named by their numbers in the pool of the finished unit, and every jump has its
offset. What is emitted for a construct is related to it.
-/

namespace Orchestrion

open Instruction Emit

section Relations

variable (c : EmitContext) (u : CompiledUnit)

/-- Instructions that replace the two values on the stack by the result of an operator. -/
inductive CombineCode : BinaryOp → List Instruction → Prop
  | direct {op : BinaryOp} {i : Instruction} (h : Emit.combination op = .direct i) :
    CombineCode op [i]
  | comparing {op : BinaryOp} {comparison : Comparison} {zero one : Instruction}
    (h : Emit.combination op = .comparing comparison) (hzero : PushCode u 0 zero)
    (hone : PushCode u 1 one) :
    CombineCode op [.compare, .jumpIf comparison 4, zero, .jump 2, one]

mutual

/-- Instructions that push the value of an expression. -/
inductive ExprCode : Expr → List Instruction → Prop
  | constant {span : Span} {l : Literal} {i : Instruction} (h : PushCode u l.value i) :
    ExprCode (.constant span l) [i]
  | field {span : Span} {x : Text} {f : Nat} (h : c.field? x = some f) :
    ExprCode (.name span x) [.loadField f]
  | global {span : Span} {x : Text} {e : Entry} {g : Nat} (h : c.field? x = none)
    (hresolve : c.scope.resolve? x = some (e, true)) (hglobal : c.store.index? x = some g) :
    ExprCode (.name span x) [.loadGlobal g]
  | standard {span : Span} {x : Text} {s : StandardName} (h : c.field? x = none)
    (hresolve : ∀ e, c.scope.resolve? x ≠ some (e, true))
    (hstandard : StandardName.ofText? x = some s) :
    ExprCode (.name span x) [.loadStd s.code]
  | element {span : Span} {x : Text} {index : Expr} {f : Nat} {is : List Instruction}
    (h : c.field? x = some f) (hindex : ExprCode index is) :
    ExprCode (.element span x index) (is ++ [.trunc, .loadElem f])
  | binary {span : Span} {op : BinaryOp} {left right : Expr} {ls rs is : List Instruction}
    (hleft : ExprCode left ls) (hright : ExprCode right rs) (h : CombineCode u op is) :
    ExprCode (.binary span op left right) (ls ++ rs ++ is)
  | neg {span : Span} {operand : Expr} {is : List Instruction} (h : ExprCode operand is) :
    ExprCode (.unary span .neg operand) (is ++ [.neg])
  | not {span : Span} {operand : Expr} {is : List Instruction} {test zero one : Instruction}
    (h : ExprCode operand is) (htest : PushCode u 0 test) (hzero : PushCode u 0 zero)
    (hone : PushCode u 1 one) :
    ExprCode (.unary span .not operand)
      (is ++ [test, .compare, .jumpIf .ne 4, one, .jump 2, zero])
  | conditional {span : Span} {guard yes no : Expr} {gs ys ns : List Instruction}
    {test : Instruction} (hguard : ExprCode guard gs) (htest : PushCode u 0 test)
    (hyes : ExprCode yes ys) (hno : ExprCode no ns) :
    ExprCode (.conditional span guard yes no)
      (gs ++ [test, .compare] ++ .jumpIf .eq (wordCount ys + 2 : Nat) :: ys ++
        .jump (wordCount ns) :: ns)
  | builtin {span : Span} {callee : Text} {args : List Expr} {b : Builtin}
    {is : List Instruction} (h : CoreOpcode.ofText? callee = some (.builtin b))
    (hcount : CoreOpcode.takes (.builtin b) args.length) (hargs : ExprsCode args is) :
    ExprCode (.call span callee args) (is ++ [.call b.code args.length])
  | table {span tableSpan : Span} {callee x : Text} {values : List Expr} {op : CoreOpcode}
    {f : Nat} {is : List Instruction} (h : CoreOpcode.ofText? callee = some op)
    (hop : ∀ b, op ≠ .builtin b) (hcount : op.takes (values.length + 1))
    (hfield : c.field? x = some f) (hvalues : ExprsCode values is) :
    ExprCode (.call span callee (.name tableSpan x :: values))
      (is ++ [Emit.tableInstruction op f])

/-- Instructions that push the values of expressions in order. -/
inductive ExprsCode : List Expr → List Instruction → Prop
  | nil : ExprsCode [] []
  | cons {e : Expr} {es : List Expr} {is js : List Instruction} (he : ExprCode e is)
    (hes : ExprsCode es js) : ExprsCode (e :: es) (is ++ js)

end

/-- Instructions that push the index of a target, if it has one, and the instruction that stores a
value there. -/
inductive TargetCode : Target → List Instruction → Instruction → Prop
  | field {span : Span} {x : Text} {f : Nat} (h : c.field? x = some f) :
    TargetCode ⟨span, x, none⟩ [] (.storeField f)
  | element {span : Span} {x : Text} {index : Expr} {f : Nat} {is : List Instruction}
    (h : c.field? x = some f) (hindex : ExprCode c u index is) :
    TargetCode ⟨span, x, some index⟩ (is ++ [.trunc]) (.storeElem f)
  | global {span : Span} {x : Text} {e : Entry} {g : Nat} (h : c.field? x = none)
    (hresolve : c.scope.resolve? x = some (e, true)) (hglobal : c.store.index? x = some g) :
    TargetCode ⟨span, x, none⟩ [] (.storeGlobal g)

mutual

/-- Instructions that carry out a statement. -/
inductive StmtCode : Stmt → List Instruction → Prop
  | assign {span : Span} {t : Target} {value : Expr} {ts is : List Instruction}
    {store : Instruction} (ht : TargetCode c u t ts store) (hvalue : ExprCode c u value is) :
    StmtCode (.assign span t value) (ts ++ is ++ [store])
  | eval {span : Span} {value : Expr} {is : List Instruction} (h : ExprCode c u value is) :
    StmtCode (.eval span value) (is ++ [.pop])
  | ifThen {span : Span} {guard : Expr} {body : List Stmt} {gs bs : List Instruction}
    {test : Instruction} (hguard : ExprCode c u guard gs) (htest : PushCode u 0 test)
    (hbody : StmtsCode body bs) :
    StmtCode (.ifThen span guard body)
      (gs ++ [test, .compare] ++ .jumpIf .eq (wordCount bs) :: bs)
  | ifElse {span : Span} {guard : Expr} {yes no : List Stmt} {gs ys ns : List Instruction}
    {test : Instruction} (hguard : ExprCode c u guard gs) (htest : PushCode u 0 test)
    (hyes : StmtsCode yes ys) (hno : StmtsCode no ns) :
    StmtCode (.ifElse span guard yes no)
      (gs ++ [test, .compare] ++ .jumpIf .eq (wordCount ys + 2 : Nat) :: ys ++
        .jump (wordCount ns) :: ns)
  | loop {span : Span} {guard : Expr} {body : List Stmt} {gs bs : List Instruction}
    {test : Instruction} (hguard : ExprCode c u guard gs) (htest : PushCode u 0 test)
    (hbody : StmtsCode body bs) :
    StmtCode (.loop span guard body)
      (gs ++ [test, .compare] ++ .jumpIf .eq (wordCount bs + 2 : Nat) ::
        (bs ++ [.jump (-(wordCount (gs ++ [test, .compare]) + wordCount bs + 4 : Nat))]))
  | output {span : Span} {arg : Expr} {is : List Instruction} (h : ExprCode c u arg is) :
    StmtCode (.output span [arg]) (is ++ [.output])
  | outputFrame {span : Span} {args : List Expr} {is : List Instruction}
    (hcount : args.length ≠ 1) (hroom : (args.length : Int) ≤ u.maxOutput)
    (h : ExprsCode c u args is) :
    StmtCode (.output span args) (is ++ [.outputFrame args.length])
  | extend {span : Span} {seconds : Expr} {is : List Instruction} (h : ExprCode c u seconds is) :
    StmtCode (.extend span seconds) (is ++ [.extend])
  | turnoff {span : Span} : StmtCode (.turnoff span) [.turnoff]

/-- Instructions that carry out statements in order. -/
inductive StmtsCode : List Stmt → List Instruction → Prop
  | nil : StmtsCode [] []
  | cons {s : Stmt} {ss : List Stmt} {is js : List Instruction} (hs : StmtCode s is)
    (hss : StmtsCode ss js) : StmtsCode (s :: ss) (is ++ js)

end

end Relations

namespace Emit

variable (c : EmitContext) (slot : Slot)

theorem emits_globalScalar? (node : Node) (x : Text) :
    Emits slot (globalScalar? c node x) fun found _ is => is = [] ∧ match found with
      | some g => ∃ e, c.scope.resolve? x = some (e, true) ∧ c.store.index? x = some g
      | none => ∀ e, c.scope.resolve? x ≠ some (e, true) := by
  rw [globalScalar?]
  split
  next e hresolve =>
    split
    next g hglobal => exact .pure fun _ => ⟨rfl, e, hresolve, hglobal⟩
    next => exact .throw _
  next hresolve => exact .pure fun _ => ⟨rfl, hresolve⟩

theorem emits_name (span : Span) (node : Node) (x : Text) :
    Emits slot (name c slot node x) fun _ u is => ExprCode c u (.name span x) is := by
  rw [name]
  split
  next f hfield => exact (emits_instruction slot _).mono fun _ _ _ h => h ▸ .field hfield
  next hfield =>
    refine ((emits_globalScalar? c slot node x).bind fun found =>
      (?_ : Emits slot _ fun _ _ is => match found with
        | some g => is = [.loadGlobal g]
        | none => ∃ s, StandardName.ofText? x = some s ∧ is = [.loadStd s.code])).mono ?_
    · split
      next g => exact emits_instruction slot _
      next =>
        split
        next s hstandard =>
          exact (emits_instruction slot _).mono fun _ _ _ h => ⟨s, hstandard, h⟩
        next => exact .throw _
    · rintro _ u _ ⟨found, _, _, ⟨rfl, hfound⟩, hcode, rfl⟩
      cases found with
      | some g =>
        obtain ⟨e, hresolve, hglobal⟩ := hfound
        cases hcode
        exact .global hfield hresolve hglobal
      | none =>
        obtain ⟨s, hstandard, rfl⟩ := hcode
        exact .standard hfield hfound hstandard

theorem emits_combine (op : BinaryOp) :
    Emits slot (combine slot op) fun _ u is => CombineCode u op is := by
  rw [combine]
  split
  next i hdirect => exact (emits_instruction slot _).mono fun _ _ _ h => h ▸ .direct hdirect
  next comparison hcomparing =>
    refine ((emits_instruction slot _).bind fun _ =>
      emits_choice (emits_push slot 0) (emits_push slot 1)).mono ?_
    rintro _ u _ ⟨_, _, _, rfl, ⟨_, _, ⟨zero, hzero, rfl⟩, ⟨one, hone, rfl⟩, rfl⟩, rfl⟩
    obtain ⟨n, rfl, -⟩ := id hzero
    obtain ⟨m, rfl, -⟩ := id hone
    exact .comparing hcomparing hzero hone

theorem emits_compareWithZero :
    Emits slot (compareWithZero slot) fun _ u is =>
      ∃ test, PushCode u 0 test ∧ is = [test, .compare] := by
  refine (emits_push slot 0).snoc ?_
  rintro u _ ⟨test, htest, rfl⟩
  exact ⟨test, htest, rfl⟩

theorem emits_tableField (call arg : Expr) :
    Emits slot (tableField c call arg) fun f _ is =>
      is = [] ∧ ∃ span x, arg = .name span x ∧ c.field? x = some f := by
  cases arg with
  | name span x =>
    rw [tableField]
    split
    next f hfield => exact .pure fun _ => ⟨rfl, span, x, rfl, hfield⟩
    next => exact .throw _
  | _ => exact .throw _

mutual

theorem emits_expr : (e : Expr) → e.CallsFit →
    Emits slot (expr c slot e) fun _ u is => ExprCode c u e is
  | .constant span l, _ => by
    refine (emits_push slot l.value).mono ?_
    rintro _ u _ ⟨i, hi, rfl⟩
    exact .constant hi
  | .name span x, _ => emits_name c slot span _ x
  | .element span x index, hfit => by
    rw [expr]
    split
    next => exact .throw _
    next f hfield =>
      refine ((emits_expr index hfit).bind fun _ => (emits_instruction slot _).bind fun _ =>
        emits_instruction slot _).mono ?_
      rintro _ u _ ⟨_, is, _, his, ⟨_, _, _, rfl, rfl, rfl⟩, rfl⟩
      exact .element hfield his
  | .binary span op left right, hfit => by
    refine ((emits_expr left hfit.1).bind fun _ => (emits_expr right hfit.2).bind fun _ =>
      emits_combine slot op).mono ?_
    rintro _ u _ ⟨_, ls, _, hls, ⟨_, rs, is, hrs, his, rfl⟩, rfl⟩
    rw [← List.append_assoc]
    exact .binary hls hrs his
  | .unary span .neg operand, hfit => (emits_expr operand hfit).snoc fun _ _ => .neg
  | .unary span .not operand, hfit => by
    refine ((emits_expr operand hfit).bind fun _ => (emits_compareWithZero slot).bind fun _ =>
      emits_choice (emits_push slot 1) (emits_push slot 0)).mono ?_
    rintro _ u _ ⟨_, is, _, his, ⟨_, _, _, ⟨test, htest, rfl⟩,
      ⟨_, _, ⟨one, hone, rfl⟩, ⟨zero, hzero, rfl⟩, rfl⟩, rfl⟩, rfl⟩
    -- Either constant is one instruction, and so the jumps have the lengths that the rule gives.
    obtain ⟨n, rfl, -⟩ := id hzero
    obtain ⟨m, rfl, -⟩ := id hone
    exact .not his htest hzero hone
  | .conditional span guard yes no, hfit => by
    refine ((emits_expr guard hfit.1).bind fun _ => (emits_compareWithZero slot).bind fun _ =>
      emits_choice (emits_expr yes hfit.2.1) (emits_expr no hfit.2.2)).mono ?_
    rintro _ u _ ⟨_, gs, _, hgs, ⟨_, _, _, ⟨test, htest, rfl⟩, ⟨ys, ns, hys, hns, rfl⟩, rfl⟩, rfl⟩
    have hcode : ExprCode c u (.conditional span guard yes no) _ :=
      .conditional hgs htest hys hns
    simpa using hcode
  | .call span callee args, hfit => by
    rw [expr]
    split
    next => exact .throw _
    next b hcallee =>
      exact (emits_exprs args hfit.2).snoc fun _ _ => .builtin hcallee (hfit.1 _ hcallee)
    next op hop hcallee =>
      exact emits_tableCall span callee op args hcallee hop hfit

theorem emits_tableCall (span : Span) (callee : Text) (op : CoreOpcode) : (args : List Expr) →
    CoreOpcode.ofText? callee = some op → (∀ b, op ≠ .builtin b) →
    (Expr.call span callee args).CallsFit →
    Emits slot (tableCall c slot (.call span callee args) op args) fun _ u is =>
      ExprCode c u (.call span callee args) is
  | [], _, _, _ => .throw _
  | table :: values, hcallee, hop, hfit => by
    refine ((emits_tableField c slot _ table).bind fun f => (emits_exprs values hfit.2.2).bind
      fun _ => emits_instruction slot _).mono ?_
    rintro _ u _ ⟨f, _, _, ⟨rfl, _, x, rfl, hfield⟩, ⟨_, is, _, his, rfl, rfl⟩, rfl⟩
    exact .table hcallee hop (hfit.1 _ hcallee) hfield his

theorem emits_exprs : (es : List Expr) → Expr.AllCallsFit es →
    Emits slot (exprs c slot es) fun _ u is => ExprsCode c u es is
  | [], _ => .pure fun _ => .nil
  | e :: es, hfit => by
    refine ((emits_expr e hfit.1).bind fun _ => emits_exprs es hfit.2).mono ?_
    rintro _ u _ ⟨_, is, js, his, hjs, rfl⟩
    exact .cons his hjs

end

theorem emits_condition (guard : Expr) (hfit : guard.CallsFit) :
    Emits slot (condition c slot guard) fun _ u is =>
      ∃ gs test, ExprCode c u guard gs ∧ PushCode u 0 test ∧ is = gs ++ [test, .compare] := by
  refine ((emits_expr c slot guard hfit).bind fun _ => emits_compareWithZero slot).mono ?_
  rintro _ u _ ⟨_, gs, _, hgs, ⟨test, htest, rfl⟩, rfl⟩
  exact ⟨gs, test, hgs, htest, rfl⟩

theorem emits_target (t : Target) (hfit : ∀ index, t.index = some index → index.CallsFit) :
    Emits slot (target c slot t) fun store u is => TargetCode c u t is store := by
  obtain ⟨span, x, index⟩ := t
  rw [target]
  split
  next f hfield =>
    cases index with
    | none => exact .pure fun _ => .field hfield
    | some index =>
      refine ((emits_expr c slot index (hfit _ rfl)).bind fun _ =>
        (emits_instruction slot _).bind fun _ => (.pure fun _ => ⟨rfl, rfl⟩ :
          Emits slot _ fun store _ is => store = .storeElem f ∧ is = [])).mono ?_
      rintro _ u _ ⟨_, is, _, his, ⟨_, _, _, rfl, ⟨rfl, rfl⟩, rfl⟩, rfl⟩
      exact .element hfield his
  next hfield =>
    refine ((emits_globalScalar? c slot _ x).bind fun found =>
      (?_ : Emits slot _ fun store _ is =>
        ∃ g : Nat, found = some g ∧ index = none ∧ store = .storeGlobal g ∧ is = [])).mono ?_
    · cases found with
      | some g =>
        cases index with
        | none => exact .pure fun _ => ⟨g, rfl, rfl, rfl, rfl⟩
        | some _ => exact .throw _
      | none => exact .throw _
    · rintro _ u _ ⟨_, _, _, ⟨rfl, hfound⟩, ⟨g, rfl, rfl, rfl, rfl⟩, rfl⟩
      obtain ⟨e, hresolve, hglobal⟩ := hfound
      exact .global hfield hresolve hglobal

theorem emits_outputFrame (args : List Expr) (hfit : Expr.AllCallsFit args) :
    Emits slot (do
        exprs c slot args
        instruction slot (.outputFrame args.length)
        modify fun e => { e with maxOutput := max e.maxOutput args.length }) fun _ u is =>
      ∃ as, ExprsCode c u args as ∧ (args.length : Int) ≤ u.maxOutput ∧
        is = as ++ [.outputFrame args.length] := by
  intro E E' _ h
  obtain ⟨_, E₁, hexprs, h⟩ := bind_ok h
  obtain ⟨_, E₂, houtput, h⟩ := bind_ok h
  obtain rfl : { E₂ with maxOutput := max E₂.maxOutput args.length } = E' := by
    cases h
    rfl
  obtain ⟨is, his, hcode⟩ := emits_exprs c slot args hfit E E₁ _ hexprs
  have hframe := instruction_ok houtput
  have hgrows := his.trans_only hframe
  refine ⟨_, ⟨hgrows.settled, hgrows.pushes, hgrows.nums, ?_, hgrows.untouched⟩,
    fun u hu => ⟨is, hcode u (hframe.within ⟨hu.nums, ?_⟩), ?_, rfl⟩⟩
  · exact Nat.le_trans hgrows.maxOutput (Nat.le_max_left ..)
  · exact Int.le_trans (Int.ofNat_le.2 (Nat.le_max_left ..)) hu.maxOutput
  · exact Int.le_trans (Int.ofNat_le.2 (Nat.le_max_right ..)) hu.maxOutput

theorem emits_output (span : Span) (args : List Expr) (hfit : Expr.AllCallsFit args) :
    Emits slot (output c slot args) fun _ u is => StmtCode c u (.output span args) is := by
  rw [output.eq_def]
  split
  next arg => exact (emits_expr c slot arg hfit.1).snoc fun _ _ => .output
  next hcount =>
    refine (emits_outputFrame c slot args hfit).mono ?_
    rintro _ u _ ⟨is, his, hroom, rfl⟩
    refine .outputFrame (fun hlength => ?_) hroom his
    obtain ⟨arg, rfl⟩ := List.length_eq_one_iff.1 hlength
    exact hcount arg rfl

mutual

theorem emits_stmt : (s : Stmt) → s.CallsFit →
    Emits slot (stmt c slot s) fun _ u is => StmtCode c u s is
  | .assign span t value, hfit => by
    refine ((emits_target c slot t hfit.1).bind fun store =>
      (emits_expr c slot value hfit.2).bind fun _ => emits_instruction slot _).mono ?_
    rintro _ u _ ⟨store, ts, _, hts, ⟨_, is, _, his, rfl, rfl⟩, rfl⟩
    rw [← List.append_assoc]
    exact .assign hts his
  | .eval span value, hfit => (emits_expr c slot value hfit).snoc fun _ _ => .eval
  | .ifThen span guard body, hfit => by
    refine ((emits_condition c slot guard hfit.1).bind fun _ =>
      emits_skip (isBranch_jumpIf .eq) (emits_stmts body hfit.2)).mono ?_
    rintro _ u _ ⟨_, _, _, ⟨gs, test, hgs, htest, rfl⟩, ⟨bs, hbs, rfl⟩, rfl⟩
    exact .ifThen hgs htest hbs
  | .ifElse span guard yes no, hfit => by
    refine ((emits_condition c slot guard hfit.1).bind fun _ =>
      emits_choice (emits_stmts yes hfit.2.1) (emits_stmts no hfit.2.2)).mono ?_
    rintro _ u _ ⟨_, _, _, ⟨gs, test, hgs, htest, rfl⟩, ⟨ys, ns, hys, hns, rfl⟩, rfl⟩
    have hcode : StmtCode c u (.ifElse span guard yes no) _ := .ifElse hgs htest hys hns
    simpa using hcode
  | .loop span guard body, hfit => by
    refine (emits_loop (emits_condition c slot guard hfit.1) (emits_stmts body hfit.2)).mono ?_
    rintro _ u _ ⟨_, bs, ⟨gs, test, hgs, htest, rfl⟩, hbs, rfl⟩
    exact .loop hgs htest hbs
  | .output span args, hfit => emits_output c slot span args hfit
  | .extend span seconds, hfit => (emits_expr c slot seconds hfit).snoc fun _ _ => .extend
  | .turnoff span, _ => by
    rw [stmt]
    exact (emits_instruction slot _).mono fun _ _ _ h => h ▸ .turnoff
  | .ret span values, _ => .throw _

theorem emits_stmts : (ss : List Stmt) → Stmt.AllCallsFit ss →
    Emits slot (stmts c slot ss) fun _ u is => StmtsCode c u ss is
  | [], _ => .pure fun _ => .nil
  | s :: ss, hfit => by
    refine ((emits_stmt s hfit.1).bind fun _ => emits_stmts ss hfit.2).mono ?_
    rintro _ u _ ⟨_, is, js, his, hjs, rfl⟩
    exact .cons his hjs

end

end Emit

end Orchestrion
