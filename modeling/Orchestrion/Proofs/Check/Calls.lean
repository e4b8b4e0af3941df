import Orchestrion.Proofs.Check.Rules

/-!
# Calls that fit

Core opcodes take certain numbers of arguments, and the check complains about every call with
another number: in a unit without complaints all calls fit. The attributes of expressions and
statements are set once.
-/

namespace Orchestrion

theorem CoreOpcode.pos_of_takes {op : CoreOpcode} {n : Nat} (h : op.takes n = true) : 0 < n := by
  cases n with
  | zero =>
    match op with
    | .builtin b => cases b <;> cases h
    | .tableLength | .tableRead | .tableWrite => cases h
  | succ n => exact Nat.succ_pos n

mutual

def Expr.CallsFit : Expr → Prop
  | .constant _ _ | .name _ _ => True
  | .element _ _ index => index.CallsFit
  | .call _ callee args =>
    (∀ op, CoreOpcode.ofText? callee = some op → op.takes args.length) ∧ Expr.AllCallsFit args
  | .binary _ _ left right => left.CallsFit ∧ right.CallsFit
  | .unary _ _ operand => operand.CallsFit
  | .conditional _ guard yes no => guard.CallsFit ∧ yes.CallsFit ∧ no.CallsFit

def Expr.AllCallsFit : List Expr → Prop
  | [] => True
  | e :: es => e.CallsFit ∧ Expr.AllCallsFit es

end

mutual

/-- Every core opcode in the statement is called with a number of arguments that it takes. -/
def Stmt.CallsFit : Stmt → Prop
  | .assign _ t value => (∀ index, t.index = some index → index.CallsFit) ∧ value.CallsFit
  | .eval _ value => value.CallsFit
  | .ifThen _ guard body => guard.CallsFit ∧ Stmt.AllCallsFit body
  | .ifElse _ guard yes no => guard.CallsFit ∧ Stmt.AllCallsFit yes ∧ Stmt.AllCallsFit no
  | .loop _ guard body => guard.CallsFit ∧ Stmt.AllCallsFit body
  | .output _ args => Expr.AllCallsFit args
  | .extend _ seconds => seconds.CallsFit
  | .turnoff _ => True
  | .ret _ values => Expr.AllCallsFit values

/-- Every core opcode in the statements is called with a number of arguments that it takes. -/
def Stmt.AllCallsFit : List Stmt → Prop
  | [] => True
  | s :: ss => s.CallsFit ∧ Stmt.AllCallsFit ss

end

namespace Check

section Rules

variable {σ : Scope} {as : Attributes} {kind : UnitKind}

mutual

theorem ExprRated.callsFit : ∀ {p : Path} {e : Expr} {r : Rate}, ExprRated σ as p e r → e.CallsFit
  | _, .constant .., _, _ | _, .name .., _, _ => trivial
  | _, .element .., _, ⟨_, _, _, _, _, _, _, hindex, _⟩ => hindex.callsFit
  | _, .call .., _, ⟨_, _, hargs, _, hcount⟩ => ⟨hcount, hargs.callsFit⟩
  | _, .binary .., _, ⟨_, _, _, hleft, hright, _⟩ => ⟨hleft.callsFit, hright.callsFit⟩
  | _, .unary .., _, ⟨_, _, hoperand, _⟩ => hoperand.callsFit
  | _, .conditional .., _, ⟨_, _, _, _, hguard, hyes, hno, _⟩ =>
    ⟨hguard.callsFit, hyes.callsFit, hno.callsFit⟩

theorem ArgsRated.callsFit {table : Option Nat} : ∀ {p : Path} {i : Nat} {args : List Expr}
    {rates : List Rate}, ArgsRated σ as table p i args rates → Expr.AllCallsFit args
  | _, _, [], _, _ => trivial
  | p, i, arg :: args, _, h => by
    rw [ArgsRated] at h
    split at h
    · obtain ⟨⟨_, _, _, _, rfl, _⟩, hargs⟩ := h
      exact ⟨trivial, hargs.callsFit⟩
    · obtain ⟨_, _, harg, hargs, -⟩ := h
      exact ⟨harg.callsFit, hargs.callsFit⟩

end

mutual

theorem StmtRated.callsFit :
    ∀ {p : Path} {s : Stmt} {r : Rate}, StmtRated σ as kind p s r → s.CallsFit
  | _, .assign .., _, ⟨_, _, hvalue, _, _, _, _, _, hindex, _⟩ =>
    ⟨fun index h => (hindex index h).callsFit, hvalue.callsFit⟩
  | _, .eval .., _, ⟨_, hvalue⟩ => hvalue.callsFit
  | _, .ifThen .., _, ⟨_, _, _, hguard, hbody, _⟩ | _, .loop .., _, ⟨_, _, _, hguard, hbody, _⟩ =>
    ⟨hguard.callsFit, hbody.callsFit⟩
  | _, .ifElse .., _, ⟨_, _, _, _, hguard, hyes, hno, _⟩ =>
    ⟨hguard.callsFit, hyes.callsFit, hno.callsFit⟩
  | _, .output .., _, ⟨_, ⟨_, hargs⟩, _⟩ => hargs.callsFit
  | _, .extend .., _, ⟨_, _, hseconds, _⟩ => hseconds.callsFit
  | _, .turnoff _, _, _ => trivial
  | _, .ret .., _, ⟨_, _, _, hvalues, _⟩ => hvalues.callsFit

theorem StmtsRated.callsFit : ∀ {p : Path} {i : Nat} {ss : List Stmt} {rates : List Rate},
    StmtsRated σ as kind p i ss rates → Stmt.AllCallsFit ss
  | _, _, [], _, _ => trivial
  | _, _, _ :: _, _, ⟨_, _, hs, hss, _⟩ => ⟨hs.callsFit, hss.callsFit⟩

end

end Rules

theorem laws_checks (kind : Entry → Prop) (c : Context) :
    Laws c fun _ parts x _ => ∀ p, Checks kind p parts (x p) where
  done _ _ := .done
  mono h hparts _ p := (h p).mono hparts
  step hx hparts hf p := .step (hx p) hparts fun a _ => hf a p
  child i h p := (h (i :: p)).child
  complain node cause _ := checks_complain c node cause
  resolve x _ := checks_resolve? c x
  setSignal node w r _ := checks_setSignal node w r
  setPayload node x _ := checks_setPayload node x

end Check

end Orchestrion
