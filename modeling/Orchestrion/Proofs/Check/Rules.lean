import Orchestrion.Proofs.Check.Findings

/-!
# The rules of the check

The rules by which expressions and statements have rates, as relations: each of them says what names
stand for, what is demanded of the parts, and what is noted down for the nodes. A part of a check
that has no complaints follows the rules, so that whatever holds of all that follows them holds of
what is checked. The check is gone through once, for every statement about its parts that holds of
complaints, attributes and parts one after the other.
-/

namespace Orchestrion.Check

/-- The rate of a single value is noted down for a node. -/
def Noted (as : Attributes) (p : Path) (r : Rate) : Prop := (as.get p).signal = some (.fixed 1, r)

section Rules

variable (σ : Scope) (as : Attributes)

/-- A variable that is seen and whose entry is noted down for a node. -/
structure Seen (p : Path) (x : Text) (v : Entry) (isGlobal : Bool) : Prop where
  resolve : σ.resolve? x = some (v, isGlobal)
  payload : (as.get p).payload = some (.entry v)

mutual

/-- The expression has the rate. -/
def ExprRated : Path → Expr → Rate → Prop
  | p, .constant _ _, r => Noted as p r ∧ r = .i
  | p, .name _ x, r => Noted as p r ∧
    ((∃ v isGlobal, Seen σ as p x v isGlobal ∧ v.rate ≠ .table ∧ v.rate ≠ .oparray ∧
      v.array = false ∧ r = Rate.fastest [v.rate]) ∨
      σ.resolve? x = none ∧ ∃ s, StandardName.ofText? x = some s ∧ r = s.rate)
  | p, .element _ x index, r => Noted as p r ∧ ∃ v isGlobal r₁, Seen σ as p x v isGlobal ∧
    v.array = true ∧ v.rate.isSignal = true ∧ ExprRated (0 :: p) index r₁ ∧
    r = Rate.fastest [v.rate, r₁]
  | p, .call _ callee args, r => Noted as p r ∧ ∃ rates,
    ArgsRated ((CoreOpcode.ofText? callee).bind CoreOpcode.tableArg?) p 0 args rates ∧
    (r = Rate.fastest rates ∨ CoreOpcode.ofText? callee = none ∧ r ∈ [.a, .k, .i]) ∧
    ∀ op, CoreOpcode.ofText? callee = some op → op.takes args.length = true
  | p, .binary _ _ left right, r => Noted as p r ∧ ∃ r₁ r₂,
    ExprRated (0 :: p) left r₁ ∧ ExprRated (1 :: p) right r₂ ∧ r = Rate.fastest [r₁, r₂]
  | p, .unary _ _ operand, r => Noted as p r ∧ ∃ r₁, ExprRated (0 :: p) operand r₁ ∧
    r = Rate.fastest [r₁]
  | p, .conditional _ guard yes no, r => Noted as p r ∧ ∃ r₁ r₂ r₃, ExprRated (0 :: p) guard r₁ ∧
    ExprRated (1 :: p) yes r₂ ∧ ExprRated (2 :: p) no r₃ ∧ r = Rate.fastest [r₁, r₂, r₃]

/-- Arguments, the first of them being number `i`, have the rates. The argument of the number
`table` is a table, and has no rate among them. -/
def ArgsRated (table : Option Nat) : Path → Nat → List Expr → List Rate → Prop
  | _, _, [], rates => rates = []
  | p, i, arg :: args, rates =>
    if table = some i then
      (∃ span x v isGlobal, arg = .name span x ∧ Seen σ as (i :: p) x v isGlobal ∧
        v.rate = .table ∧ (as.get (i :: p)).signal = some (v.width, .table)) ∧
      ArgsRated table p (i + 1) args rates
    else
      ∃ r others, ExprRated (i :: p) arg r ∧ ArgsRated table p (i + 1) args others ∧
        rates = r :: others

end

def TargetRated (p : Path) (stmt : Stmt) (t : Target) (value r : Rate) : Prop :=
  Noted as p r ∧ ∃ v isGlobal index, Seen σ as p t.ident v isGlobal ∧
    (∀ e, t.index = some e → ExprRated σ as (0 :: p) e index) ∧
    assignFault? stmt t v value index = none ∧
    r = if v.rate.isSignal || v.rate = .x then v.rate else value

mutual

/-- The statement of a unit of some kind has the rate. -/
def StmtRated (kind : UnitKind) : Path → Stmt → Rate → Prop
  | p, .assign span t value, r => Noted as p r ∧ ∃ v, ExprRated σ as (1 :: p) value v ∧
    TargetRated σ as (0 :: p) (.assign span t value) t v r
  | p, .eval _ value, r => Noted as p r ∧ ExprRated σ as (0 :: p) value r
  | p, .ifThen _ guard body, r | p, .loop _ guard body, r => Noted as p r ∧ ∃ r₁ rs,
    ExprRated σ as (0 :: p) guard r₁ ∧ StmtsRated kind (1 :: p) 0 body rs ∧
    r = Rate.fastest [r₁, Rate.fastest rs]
  | p, .ifElse _ guard yes no, r => Noted as p r ∧ ∃ r₁ rs ss,
    ExprRated σ as (0 :: p) guard r₁ ∧ StmtsRated kind (1 :: p) 0 yes rs ∧
    StmtsRated kind (2 :: p) 0 no ss ∧ r = Rate.fastest [r₁, Rate.fastest rs, Rate.fastest ss]
  | p, .output _ args, r => Noted as p r ∧ (∃ rates, ArgsRated σ as none p 0 args rates) ∧ r = .a
  | p, .extend _ seconds, r => Noted as p r ∧ ∃ r₁, ExprRated σ as (0 :: p) seconds r₁ ∧
    r = Rate.fastest [r₁]
  | p, .turnoff _, r => Noted as p r ∧ r = .k
  | p, .ret _ values, r => Noted as p r ∧ kind = .opcode ∧ ∃ rates,
    ArgsRated σ as none p 0 values rates ∧ r = Rate.fastest rates

def StmtsRated (kind : UnitKind) : Path → Nat → List Stmt → List Rate → Prop
  | _, _, [], rates => rates = []
  | p, i, s :: ss, rates => ∃ r others, StmtRated kind (i :: p) s r ∧
    StmtsRated kind p (i + 1) ss others ∧ rates = r :: others

end

end Rules

section Consequences

variable {σ : Scope} {as : Attributes} {kind : UnitKind} {p : Path} {i : Nat}

theorem StmtRated.noted {s : Stmt} {r : Rate} (h : StmtRated σ as kind p s r) : Noted as p r := by
  cases s <;> exact h.1

theorem StmtsRated.get {ss : List Stmt} {rates : List Rate} (h : StmtsRated σ as kind p i ss rates)
    {n : Nat} {s : Stmt} (hs : ss[n]? = some s) :
    ∃ r, rates[n]? = some r ∧ StmtRated σ as kind ((i + n) :: p) s r := by
  induction ss generalizing i rates n with
  | nil => cases hs
  | cons s' ss ih =>
    obtain ⟨r, others, hr, hothers, rfl⟩ := h
    cases n with
    | zero =>
      cases hs
      exact ⟨r, rfl, hr⟩
    | succ n =>
      rw [← Nat.add_assoc, Nat.add_right_comm]
      exact ih hothers hs

end Consequences

/-! ### The parts of a check -/

def childrenFrom (i : Nat) : Set Part := { part | ∃ j, i ≤ j ∧ part = .child j }

@[simp]
theorem child_mem_childrenFrom {i j : Nat} : .child j ∈ childrenFrom i ↔ i ≤ j := by
  simp [childrenFrom]

@[simp]
theorem payload_notMem_childrenFrom {i : Nat} : .payload ∉ childrenFrom i := by
  simp [childrenFrom]

@[simp]
theorem signal_notMem_childrenFrom {i : Nat} : .signal ∉ childrenFrom i := by
  simp [childrenFrom]

theorem childrenFrom_succ_subset (i : Nat) :
    childrenFrom (i + 1) ⊆ childrenFrom i \ {.child i} := by
  rintro _ ⟨j, hj, rfl⟩
  refine ⟨⟨j, Nat.le_of_succ_le hj, rfl⟩, fun h => ?_⟩
  cases h
  omega

/-- A statement about a part of a check at whatever node: which attributes it sets there, and what
it finds out. -/
abbrev Judgement :=
  ∀ α : Type, Set Part → (Path → Checking α) → (Path → Scope → Attributes → α → Prop) → Prop

/-- A statement that holds of every check that is put together from complaints, attributes and the
variables of names. -/
structure Laws (c : Context) (P : Judgement) : Prop where
  done : ∀ {α parts found} {a : α}, (∀ p σ as, found p σ as a) → P α parts (fun _ => pure a) found
  mono : ∀ {α parts others x found less}, P α parts x found → parts ⊆ others →
    (∀ p σ as a, found p σ as a → less p σ as a) → P α others x less
  step : ∀ {α β parts all x found more}
    {f : Path → α → Checking β}, P α parts x found → parts ⊆ all →
    (∀ a, P β (all \ parts) (fun p => f p a) fun p σ as b => found p σ as a → more p σ as b) →
    P β all (fun p => x p >>= f p) more
  child : ∀ {α x found} (i : Nat), P α .univ x found →
    P α {.child i} (fun p => x (i :: p)) fun p => found (i :: p)
  complain : ∀ node cause, P Unit ∅ (fun _ => complain c node cause) fun _ _ _ _ => False
  resolve : ∀ x, P _ ∅ (fun _ => resolve? c x) fun _ σ _ found => found = σ.resolve? x
  setSignal : ∀ node w r, P Unit {.signal} (fun p => setSignal p node w r) fun p _ as _ =>
    (as.get p).signal = some (w, r)
  setPayload : ∀ node x, P Unit {.payload} (fun p => setPayload p node x) fun p _ as _ =>
    (as.get p).payload = some x

namespace Laws

variable {c : Context} {P : Judgement} (h : Laws c P) {α β : Type} {parts : Set Part}
  {x : Path → Checking α}
include h

theorem quiet {found : Path → Scope → Attributes → α → Prop}
    {more : Path → Scope → Attributes → β → Prop} {f : Path → α → Checking β} (hx : P α ∅ x found)
    (hf : ∀ a, P β parts (fun p => f p a) fun p σ as b => found p σ as a → more p σ as b) :
    P β parts (fun p => x p >>= f p) more :=
  h.step hx (Set.empty_subset _) fun a => by
    rw [Set.sdiff_empty]
    exact hf a

variable {found : Path → Scope → Attributes → α → Prop}

theorem complaint (node : Node) (cause : Cause) (hx : P α parts x fun _ _ _ _ => True) :
    P α parts (fun p => do Check.complain c node cause; x p) found :=
  h.quiet (h.complain node cause) fun _ => h.mono hx Set.Subset.rfl fun _ _ _ _ _ => False.elim

omit h in
theorem ite {cond : Prop} [Decidable cond] {y : Path → Checking α} (hx : cond → P α parts x found)
    (hy : ¬cond → P α parts y found) : P α parts (fun p => if cond then x p else y p) found := by
  by_cases hcond : cond
  · simpa only [if_pos hcond] using hx hcond
  · simpa only [if_neg hcond] using hy hcond

theorem signal {found : Path → Scope → Attributes → Rate → Prop} (node : Node) {r : Rate}
    (hparts : {.signal} ⊆ parts) (hr : ∀ p σ as, Noted as p r → found p σ as r) :
    P Rate parts (fun p => do Check.setSignal p node (.fixed 1) r; return r) found :=
  h.step (h.setSignal node (.fixed 1) r) hparts fun _ => h.done hr

/-! ### Expressions -/

theorem identifier (node : Node) (span : Span) (x : Text) :
    P Rate {.payload} (fun p => identifier c p node x) fun p σ as r =>
      Noted as p r → ExprRated σ as p (.name span x) r := by
  refine h.quiet (h.resolve x) fun found => ?_
  rcases found with _ | ⟨v, isGlobal⟩
  · cases hs : StandardName.ofText? x with
    | some s => exact h.done fun _ _ _ hx hset => ⟨hset, .inr ⟨hx.symm, s, hs, rfl⟩⟩
    | none => exact h.complaint _ _ (h.done fun _ _ _ => trivial)
  · refine h.step (h.setPayload node (.entry v)) Set.Subset.rfl fun _ => ite (fun _ => ?_)
      fun hvalue => ite (fun _ => ?_) fun harray => ?_
    · exact h.complaint _ _ (h.done fun _ _ _ => trivial)
    · exact h.complaint _ _ (h.done fun _ _ _ => trivial)
    · simp only [Bool.or_eq_true, decide_eq_true_eq, not_or] at hvalue
      exact h.done fun _ _ _ hpayload hx hset => ⟨hset, .inl ⟨v, isGlobal, ⟨hx.symm, hpayload⟩,
        hvalue.1, hvalue.2, Bool.eq_false_iff.2 harray, rfl⟩⟩

theorem arrayName (node : Node) (span : Span) (x : Text) (index : Expr) (r : Rate) :
    P Rate {.payload} (fun p => arrayName c p node x r) fun p σ as r' =>
      ExprRated σ as (0 :: p) index r → Noted as p r' →
      ExprRated σ as p (.element span x index) r' := by
  refine h.quiet (h.resolve x) fun found => ?_
  rcases found with _ | ⟨v, isGlobal⟩
  · exact h.complaint _ _ (h.done fun _ _ _ => trivial)
  · refine h.step (h.setPayload node (.entry v)) Set.Subset.rfl fun _ => ite (fun _ => ?_)
      fun harray => ?_
    · exact h.complaint _ _ (h.done fun _ _ _ => trivial)
    · simp only [Bool.or_eq_true, Bool.not_eq_true', not_or, Bool.not_eq_false] at harray
      exact h.done fun _ _ _ hpayload hx hindex hset =>
        ⟨hset, v, isGlobal, r, ⟨hx.symm, hpayload⟩, harray.1, harray.2, hindex, rfl⟩

theorem tableNamed? (arg : Expr) :
    P _ ∅ (fun _ => tableNamed? c arg) fun _ σ _ found => ∀ v, found = some v → v.rate = .table ∧
      ∃ span x isGlobal, arg = .name span x ∧ σ.resolve? x = some (v, isGlobal) := by
  cases arg with
  | name span x =>
    refine h.quiet (h.resolve x) fun found => ?_
    rcases found with _ | ⟨v, isGlobal⟩
    · exact h.done fun _ _ _ _ v hv => by cases hv
    · refine h.done fun _ _ _ hx v' hv' => ?_
      split at hv'
      next htable =>
        cases hv'
        exact ⟨htable, span, x, isGlobal, rfl, hx.symm⟩
      next => cases hv'
  | _ => exact h.done fun _ _ _ v hv => by cases hv

theorem argumentCount (node : Node) (op : CoreOpcode) (count : Nat) :
    P Unit ∅ (fun _ => argumentCount c node op count) fun _ _ _ _ => op.takes count = true :=
  ite (fun htakes => h.done fun _ _ _ => htakes) fun _ =>
    h.mono (h.complain node _) Set.Subset.rfl fun _ _ _ _ => False.elim

theorem callRate (node : Node) (callee : Text) (args : List Rate) :
    P Rate ∅ (fun _ => callRate c node callee args) fun _ _ _ r =>
      r = Rate.fastest args ∨ r ∈ [.a, .k, .i] := by
  simp only [Check.callRate]
  cases c.opcodes.lookup callee with
  | none => exact h.complaint node _ (h.done fun _ _ _ => trivial)
  | some kind => cases kind <;> exact h.done fun _ _ _ => by simp

mutual

theorem expr : ∀ e : Expr,
    P Rate .univ (fun p => expr c p e) fun p σ as r => ExprRated σ as p e r
  | .constant _ l => by
    simp only [Check.expr]
    exact h.step (h.setPayload _ (.constant l.value)) (by simp) fun _ =>
      h.signal _ (by simp) fun _ _ _ hset _ => ⟨hset, rfl⟩
  | .name span x => by
    simp only [Check.expr]
    exact h.step (h.identifier _ span x) (by simp) fun _ =>
      h.signal _ (by simp) fun _ _ _ hset hx => hx hset
  | .element span x index => by
    simp only [Check.expr]
    exact h.step (h.child 0 (expr index)) (by simp) fun r =>
      h.step (h.arrayName _ span x index r) (by simp) fun _ =>
      h.signal _ (by simp) fun _ _ _ hset hx hindex => hx hindex hset
  | .call _ callee args => by
    simp only [Check.expr]
    cases hop : CoreOpcode.ofText? callee with
    | some op =>
      refine h.quiet (h.argumentCount _ op args.length) fun _ =>
        h.step (arguments callee op.tableArg? 0 args) (by simp) fun rates => ?_
      simp only [pure_bind]
      refine h.signal _ (by simp) fun _ _ _ hset hargs hcount => ?_
      exact ⟨hset, rates, hop ▸ hargs, .inl rfl, fun op' hop' => by
        cases hop.symm.trans hop'
        exact hcount⟩
    | none =>
      refine h.step (arguments callee none 0 args) (by simp) fun rates =>
        h.quiet (h.callRate _ callee rates) fun _ => h.signal _ (by simp)
          fun _ _ _ hset hr hargs => ?_
      exact ⟨hset, rates, hop ▸ hargs, hr.imp_right (⟨hop, ·⟩), fun op' hop' => by
        cases hop.symm.trans hop'⟩
  | .binary _ _ left right => by
    simp only [Check.expr]
    exact h.step (h.child 0 (expr left)) (by simp) fun _ =>
      h.step (h.child 1 (expr right)) (by simp) fun _ =>
      h.signal _ (by simp) fun _ _ _ hset hright hleft => ⟨hset, _, _, hleft, hright, rfl⟩
  | .unary _ _ operand => by
    simp only [Check.expr]
    exact h.step (h.child 0 (expr operand)) (by simp) fun _ =>
      h.signal _ (by simp) fun _ _ _ hset hoperand => ⟨hset, _, hoperand, rfl⟩
  | .conditional _ guard yes no => by
    simp only [Check.expr]
    exact h.step (h.child 0 (expr guard)) (by simp) fun _ =>
      h.step (h.child 1 (expr yes)) (by simp) fun _ =>
      h.step (h.child 2 (expr no)) (by simp) fun _ =>
      h.signal _ (by simp) fun _ _ _ hset hno hyes hguard => ⟨hset, _, _, _, hguard, hyes, hno, rfl⟩

theorem arguments (callee : Text) (table : Option Nat) (i : Nat) : ∀ args : List Expr,
    P _ (childrenFrom i) (fun p => arguments c callee table p i args) fun p σ as rates =>
      ArgsRated σ as table p i args rates
  | [] => h.done fun _ _ _ => rfl
  | arg :: args => by
    have hrest := h.mono (arguments callee table (i + 1) args) (childrenFrom_succ_subset i)
      fun _ _ _ _ hargs => hargs
    have harg := h.child i (expr arg)
    simp only [Check.arguments]
    refine ite (fun hi => h.quiet (h.tableNamed? arg) fun found => ?_) fun hi => ?_
    · cases found with
      | some v =>
        -- Both attributes of the argument are set before the others are looked at.
        have hboth := h.child i (h.step (h.setSignal (.expr arg) v.width .table) (Set.subset_univ _)
          fun _ => h.mono (h.setPayload (.expr arg) (.entry v)) (by simp) fun p _ as _ hpayload
            (hset : (as.get p).signal = some (v.width, .table)) => And.intro hset hpayload)
        simp only [← bind_assoc]
        refine h.step hboth (by simp) fun _ => h.mono hrest Set.Subset.rfl
          fun p σ as rates hargs hset harg => ?_
        obtain ⟨htable, span, x, isGlobal, rfl, hx⟩ := harg v rfl
        rw [ArgsRated, if_pos hi]
        exact ⟨⟨span, x, v, isGlobal, rfl, ⟨hx, hset.2⟩, htable, hset.1⟩, hargs⟩
      | none =>
        exact h.complaint _ _ (h.step harg (by simp) fun _ =>
          h.mono hrest Set.Subset.rfl fun _ _ _ _ _ _ => trivial)
    · refine h.step harg (by simp) fun _ => h.step hrest Set.Subset.rfl fun _ =>
        h.done fun _ _ _ hargs harg => ?_
      rw [ArgsRated, if_neg hi]
      exact ⟨_, _, harg, hargs, rfl⟩

end

theorem exprs (i : Nat) (es : List Expr) :
    P _ (childrenFrom i) (fun p => exprs c p i es) fun p σ as rates =>
      ArgsRated σ as none p i es rates := by
  induction es generalizing i with
  | nil => exact h.done fun _ _ _ => rfl
  | cons e es ih =>
    refine h.step (h.child i (h.expr e)) (by simp) fun _ =>
      h.step (ih (i + 1)) (childrenFrom_succ_subset i) fun _ => h.done fun _ _ _ hes he => ?_
    rw [ArgsRated, if_neg (by simp)]
    exact ⟨_, _, he, hes, rfl⟩

/-! ### Statements -/

theorem targetIndex (t : Target) : P Rate {.child 0} (fun p => targetIndex c p t) fun p σ as r =>
    ∀ e, t.index = some e → ExprRated σ as (0 :: p) e r := by
  simp only [Check.targetIndex]
  cases t.index with
  | some index =>
    refine h.mono (h.child 0 (h.expr index)) Set.Subset.rfl fun p σ as r hr e he => ?_
    cases he
    exact hr
  | none => exact h.done fun _ _ _ e he => by cases he

theorem target (stmt : Stmt) (t : Target) (value : Rate) :
    P Rate .univ (fun p => target c p stmt t value) fun p σ as r =>
    TargetRated σ as p stmt t value r := by
  refine h.step (h.targetIndex t) (by simp) fun index => h.quiet (h.resolve t.ident) fun found => ?_
  rcases found with _ | ⟨v, isGlobal⟩
  · dsimp only
    cases StandardName.ofText? t.ident <;>
      exact h.complaint _ _ (h.signal _ (by simp) fun _ _ _ _ => trivial)
  · refine h.step (h.setPayload (.target t) (.entry v)) (by simp) fun _ => ?_
    cases hfault : assignFault? stmt t v value index with
    | some fault => exact h.complaint _ _ (h.signal _ (by simp) fun _ _ _ _ => trivial)
    | none =>
      exact h.signal _ (by simp) fun _ _ _ hset hpayload hx hindex =>
        ⟨hset, v, isGlobal, index, ⟨hx.symm, hpayload⟩, hindex, hfault, rfl⟩

theorem requireInstrument (stmt : Stmt) (what : Keyword) :
    P Unit ∅ (fun _ => requireInstrument c stmt what) fun _ _ _ _ => True :=
  ite (fun _ => h.done fun _ _ _ => trivial) fun _ =>
    h.mono (h.complain ..) Set.Subset.rfl fun _ _ _ _ _ => trivial

theorem outputWidth (stmt : Stmt) (count : Nat) :
    P Unit ∅ (fun _ => outputWidth c stmt count) fun _ _ _ _ => True := by
  have hempty : P Unit ∅
      (fun _ => if count = 0 then Check.complain c (.stmt stmt) .emptyOutput else pure ())
      fun _ _ _ _ => True :=
    ite (fun _ => h.mono (h.complain ..) Set.Subset.rfl fun _ _ _ _ _ => trivial) fun _ =>
      h.done fun _ _ _ => trivial
  simp only [Check.outputWidth]
  cases c.settings with
  | none => exact hempty
  | some s => exact ite (fun _ => hempty) fun _ => h.complaint _ _ hempty

mutual

theorem stmt : ∀ s : Stmt,
    P Rate .univ (fun p => stmt c p s) fun p σ as r => StmtRated σ as c.kind p s r
  | .assign _ t value => by
    simp only [Check.stmt]
    exact h.step (h.child 1 (h.expr value)) (by simp) fun _ =>
      h.step (h.child 0 (h.target _ t _)) (by simp) fun _ =>
      h.signal _ (by simp) fun _ _ _ hset ht hvalue => ⟨hset, _, hvalue, ht⟩
  | .eval _ value => by
    simp only [Check.stmt]
    exact h.step (h.child 0 (h.expr value)) (by simp) fun _ =>
      h.signal _ (by simp) fun _ _ _ hset hvalue => ⟨hset, hvalue⟩
  | .ifThen _ guard body | .loop _ guard body => by
    simp only [Check.stmt]
    exact h.step (h.child 0 (h.expr guard)) (by simp) fun _ =>
      h.step (block 1 body) (by simp) fun _ =>
      h.signal _ (by simp) fun _ _ _ hset hbody hguard => ⟨hset, _, _, hguard, hbody, rfl⟩
  | .ifElse _ guard yes no => by
    simp only [Check.stmt]
    exact h.step (h.child 0 (h.expr guard)) (by simp) fun _ =>
      h.step (block 1 yes) (by simp) fun _ =>
      h.step (block 2 no) (by simp) fun _ =>
      h.signal _ (by simp) fun _ _ _ hset hno hyes hguard => ⟨hset, _, _, _, hguard, hyes, hno, rfl⟩
  | .output _ args => by
    simp only [Check.stmt]
    exact h.quiet (h.requireInstrument ..) fun _ => h.step (h.exprs 0 args) (by simp) fun _ =>
      h.quiet (h.outputWidth ..) fun _ => h.signal _ (by simp) fun _ _ _ hset _ hargs _ =>
        ⟨hset, ⟨_, hargs⟩, rfl⟩
  | .extend _ seconds => by
    simp only [Check.stmt]
    exact h.quiet (h.requireInstrument ..) fun _ =>
      h.step (h.child 0 (h.expr seconds)) (by simp) fun _ =>
      h.signal _ (by simp) fun _ _ _ hset hseconds _ => ⟨hset, _, hseconds, rfl⟩
  | .turnoff _ => by
    simp only [Check.stmt]
    exact h.quiet (h.requireInstrument ..) fun _ =>
      h.signal _ (by simp) fun _ _ _ hset _ => ⟨hset, rfl⟩
  | .ret span values => by
    simp only [Check.stmt]
    have hvalues : P Rate .univ (fun p => do
        let rates ← Check.exprs c p 0 values
        Check.setSignal p (.stmt (.ret span values)) (.fixed 1) (Rate.fastest rates)
        return Rate.fastest rates) fun p σ as r =>
          c.kind = .opcode → StmtRated σ as c.kind p (.ret span values) r :=
      h.step (h.exprs 0 values) (by simp) fun _ => h.signal _ (by simp)
      fun _ _ _ hset hvalues hkind =>
        ⟨hset, hkind, _, hvalues, rfl⟩
    refine ite (fun hkind => ?_) fun _ => ?_
    · exact h.mono hvalues Set.Subset.rfl fun _ _ _ _ hr => hr hkind
    · exact h.complaint _ _ (h.mono hvalues Set.Subset.rfl fun _ _ _ _ _ => trivial)

theorem block (i : Nat) : ∀ ss : List Stmt,
    P _ {.child i} (fun p => stmts c (i :: p) 0 ss) fun p σ as rates =>
      StmtsRated σ as c.kind (i :: p) 0 ss rates
  | ss => h.child i (h.mono (stmts 0 ss) (Set.subset_univ _) fun _ _ _ _ hss => hss)

theorem stmts (i : Nat) : ∀ ss : List Stmt,
    P _ (childrenFrom i) (fun p => stmts c p i ss) fun p σ as rates =>
      StmtsRated σ as c.kind p i ss rates
  | [] => h.done fun _ _ _ => rfl
  | s :: ss => by
    simp only [Check.stmts]
    exact h.step (h.child i (stmt s)) (by simp) fun _ =>
      h.step (stmts (i + 1) ss) (childrenFrom_succ_subset i) fun _ =>
      h.done fun _ _ _ hss hs => ⟨_, _, hs, hss, rfl⟩

end

end Laws

/-! ### Checks without complaints -/

theorem laws_finds (c : Context) : Laws c fun _ _ x found => ∀ p, Finds c (x p) (found p) where
  done h p := .done (h p)
  mono h _ hless p := (h p).mono (hless p)
  step hx _ hf p := .step (hx p) fun a => hf a p
  child i h p := h (i :: p)
  complain node cause _ := finds_complain node cause
  resolve x _ := finds_resolve? x
  setSignal node w r _ := finds_setSignal node w r
  setPayload node x _ := finds_setPayload node x

theorem finds_expr (c : Context) (p : Path) (e : Expr) :
    Finds c (expr c p e) fun σ as r => ExprRated σ as p e r :=
  (laws_finds c).expr e p

theorem finds_stmts (c : Context) (p : Path) (i : Nat) (ss : List Stmt) :
    Finds c (stmts c p i ss) fun σ as rates => StmtsRated σ as c.kind p i ss rates :=
  (laws_finds c).stmts i ss p

end Orchestrion.Check
