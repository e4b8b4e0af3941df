import Orchestrion.Code.Emit
import Orchestrion.Proofs.Check.Scoping

/-!
# What the source tells about code

Much of what is to be known of the code of a construct is told by the source: which constants it
pushes, how many words it takes, and which nodes are refused because there is no code for them. That
code has a property which depends on nothing else follows from rules for the ways in which code is
put together: it consists of plain instructions, of constants, and of jumps over code and back to
it.
-/

namespace Orchestrion

open List

/-! ### Constants -/

/-- The constants that are pushed for an operator: the truth values, if it compares. -/
def BinaryOp.pushed : BinaryOp → List Float
  | .equal | .notEqual | .less | .lessEqual | .greater | .greaterEqual => [0, 1]
  | .add | .sub | .mul | .div | .and | .or => []

mutual

/-- The constants that are pushed for an expression. -/
def Expr.pushed : Expr → List Float
  | .constant _ l => [l.value]
  | .name _ _ => []
  | .element _ _ index => index.pushed
  | .call _ _ args => Expr.pushedAll args
  | .binary _ op left right => left.pushed ++ (right.pushed ++ op.pushed)
  | .unary _ .neg operand => operand.pushed
  | .unary _ .not operand => operand.pushed ++ [0, 1, 0]
  | .conditional _ guard yes no => guard.pushed ++ 0 :: (yes.pushed ++ no.pushed)

def Expr.pushedAll : List Expr → List Float
  | [] => []
  | e :: es => e.pushed ++ Expr.pushedAll es

end

/-- The constants that are pushed for the index of a target. -/
def Target.pushed (t : Target) : List Float :=
  match t.index with
  | some index => index.pushed
  | none => []

mutual

/-- The constants that are pushed for a statement. -/
def Stmt.pushed : Stmt → List Float
  | .assign _ t value => t.pushed ++ value.pushed
  | .eval _ value => value.pushed
  | .ifThen _ guard body => guard.pushed ++ 0 :: Stmt.pushedAll body
  | .ifElse _ guard yes no => guard.pushed ++ 0 :: (Stmt.pushedAll yes ++ Stmt.pushedAll no)
  | .loop _ guard body => guard.pushed ++ 0 :: Stmt.pushedAll body
  | .output _ args => Expr.pushedAll args
  | .extend _ seconds => seconds.pushed
  | .turnoff _ | .ret _ _ => []

/-- The constants that are pushed for statements. -/
def Stmt.pushedAll : List Stmt → List Float
  | [] => []
  | s :: ss => s.pushed ++ Stmt.pushedAll ss

end

/-! ### Words -/

/-- The number of words that an operator on two values takes. -/
def BinaryOp.codeSize (op : BinaryOp) : Nat :=
  match Emit.combination op with
  | .direct _ => 1
  | .comparing _ => 9

mutual

/-- The number of words that the code of the expression takes. The call of a declared opcode, for
which there is no code, counts like that of a core opcode. -/
def Expr.codeSize : Expr → Nat
  | .constant _ _ | .name _ _ => 2
  | .element _ _ index => index.codeSize + 3
  | .call _ callee args =>
    match CoreOpcode.ofText? callee with
    | none | some (.builtin _) => Expr.codeSizes args + 3
    -- The first argument names the table, which is an operand and not a value.
    | some _ => Expr.valuesSize args + 2
  | .binary _ op left right => left.codeSize + right.codeSize + op.codeSize
  | .unary _ .neg operand => operand.codeSize + 1
  | .unary _ .not operand => operand.codeSize + 11
  | .conditional _ guard yes no => guard.codeSize + yes.codeSize + no.codeSize + 7

def Expr.valuesSize : List Expr → Nat
  | [] => 0
  | _ :: es => Expr.codeSizes es

def Expr.codeSizes : List Expr → Nat
  | [] => 0
  | e :: es => e.codeSize + Expr.codeSizes es

end

/-- The number of words that the index of a target takes. -/
def Target.codeSize (t : Target) : Nat :=
  match t.index with
  | some index => index.codeSize + 1
  | none => 0

def Expr.outputSize : List Expr → Nat
  | [arg] => arg.codeSize + 1
  | args => Expr.codeSizes args + 2

mutual

/-- The number of words that the code of the statement takes. -/
def Stmt.codeSize : Stmt → Nat
  | .assign _ t value => t.codeSize + value.codeSize + 2
  | .eval _ value => value.codeSize + 1
  | .ifThen _ guard body => guard.codeSize + Stmt.codeSizes body + 5
  | .ifElse _ guard yes no => guard.codeSize + Stmt.codeSizes yes + Stmt.codeSizes no + 7
  | .loop _ guard body => guard.codeSize + Stmt.codeSizes body + 7
  | .output _ args => Expr.outputSize args
  | .extend _ seconds => seconds.codeSize + 1
  | .turnoff _ => 1
  | .ret _ _ => 0

/-- The number of words that the code of the statements takes. -/
def Stmt.codeSizes : List Stmt → Nat
  | [] => 0
  | s :: ss => s.codeSize + Stmt.codeSizes ss

end

theorem Expr.length_le_codeSizes (es : List Expr) : es.length ≤ Expr.codeSizes es := by
  induction es with
  | nil => exact Nat.le_refl _
  | cons e es ih =>
    have hpos : 1 ≤ e.codeSize := by
      cases e with
      | unary _ op operand => cases op <;> rw [Expr.codeSize] <;> omega
      | call _ callee args => rw [Expr.codeSize]; split <;> omega
      | binary _ op left right =>
        rw [Expr.codeSize, BinaryOp.codeSize]
        split <;> omega
      | _ => rw [Expr.codeSize]; omega
    rw [length_cons, Expr.codeSizes]
    omega

/-! ### Nodes without code -/

/-- The reason that there is no code, if the name stands for a global variable of some kind that no
local variable hides. -/
def Scope.globalLack? (σ : Scope) (kind : Entry → Bool) (reason : NoCode) (x : Text) :
    Option NoCode :=
  match σ.resolve? x with
  | some (e, true) => if kind e then some reason else none
  | _ => none

/-- Why there is no code for a call of a core opcode on a table with the given arguments. -/
def Expr.tableLack? (σ : Scope) : List Expr → Option NoCode
  | .name _ x :: _ => σ.globalLack? (fun e => e.rate = .table) (.globalTable x) x
  | _ => none

/-- Why there is no code for a node of a statement: a global array is indexed or assigned to, a
declared opcode is called, or a core opcode is called on a global table. -/
def Node.lack? (σ : Scope) : Node → Option NoCode
  | .expr (.element _ x _) => σ.globalLack? Entry.array (.indexedGlobal x) x
  | .expr (.call _ callee args) =>
    match CoreOpcode.ofText? callee with
    | none => some (.declaredOpcode callee)
    | some (.builtin _) => none
    | some _ => Expr.tableLack? σ args
  | .target t => σ.globalLack? Entry.array (.notScalar t.ident) t.ident
  | _ => none

def lacksAmong (σ : Scope) (nodes : List (Path × Node)) : List (Node × NoCode) :=
  nodes.filterMap fun n => (n.2.lack? σ).map (n.2, ·)

def Unsupported.of (unit : Text) (node : Node) (reason : NoCode) : Unsupported :=
  ⟨node.span.start, unit, node.kind, reason⟩

section Among

variable {σ : Scope} {p : Path} {n : Node} {children nodes others : List (Path × Node)}

theorem lacksAmong_append :
    lacksAmong σ (nodes ++ others) = lacksAmong σ nodes ++ lacksAmong σ others :=
  filterMap_append

theorem lacksAmong_before : lacksAmong σ (Node.before (fun _ => true) p n children) =
    (n.lack? σ).toList.map (n, ·) ++ lacksAmong σ children := by
  rw [lacksAmong, Node.before, filterMap_cons]
  cases n.lack? σ with
  | none => rfl
  | some reason => rfl

theorem lacksAmong_before_of_none (h : n.lack? σ = none) :
    lacksAmong σ (Node.before (fun _ => true) p n children) = lacksAmong σ children := by
  rw [lacksAmong_before, h]
  rfl

end Among

/-- The instruction pushes no constant, and what is behind it is carried out next. -/
def Instruction.isPlain : Instruction → Bool
  | num _ | jump _ | jumpIf _ _ | ret => false
  | _ => true

namespace Emit

/-! ### What names stand for -/

/-- The fields are those of the local variables, and a global variable has a place in the store if
and only if it is a single value. -/
structure Sees (c : EmitContext) : Prop where
  field : ∀ x, (c.field? x).isSome = true ↔ ∃ e, c.scope.resolve? x = some (e, false)
  slot : ∀ x e, c.scope.resolve? x = some (e, true) →
    ((c.store.index? x).isSome = true ↔ e.isScalarSignal = true)

section Names

variable {c : EmitContext} {x : Text} {e : Entry} {f g n : Nat} {i : Instruction}

theorem Sees.eq_global {isGlobal : Bool} (h : Sees c) (hf : c.field? x = none)
    (hx : c.scope.resolve? x = some (e, isGlobal)) : isGlobal = true := by
  cases isGlobal with
  | true => rfl
  | false =>
    have hsome := (h.field x).2 ⟨e, hx⟩
    rw [hf] at hsome
    cases hsome

theorem Sees.globalLack?_eq_none (h : Sees c) (hf : c.field? x = some f) (kind : Entry → Bool)
    (reason : NoCode) : c.scope.globalLack? kind reason x = none := by
  obtain ⟨e, he⟩ := (h.field x).1 (by rw [hf]; rfl)
  rw [Scope.globalLack?, he]

theorem globalLack?_of_global {kind : Entry → Bool} {reason : NoCode}
    (hx : c.scope.resolve? x = some (e, true)) :
    c.scope.globalLack? kind reason x = if kind e then some reason else none := by
  rw [Scope.globalLack?, hx]

theorem globalScalar?_cases (c : EmitContext) (node : Node) (x : Text) :
    (∃ e g, c.scope.resolve? x = some (e, true) ∧ c.store.index? x = some g ∧
      globalScalar? c node x = pure (some g)) ∨
    (∃ e, c.scope.resolve? x = some (e, true) ∧ c.store.index? x = none ∧
      globalScalar? c node x = refuse c node (.notScalar x)) ∨
    (∀ e, c.scope.resolve? x ≠ some (e, true)) ∧ globalScalar? c node x = pure none := by
  rw [globalScalar?]
  split
  next e hresolve =>
    split
    next g hg => exact .inl ⟨e, g, hresolve, hg, rfl⟩
    next hg => exact .inr (.inl ⟨e, hresolve, hg, rfl⟩)
  next hresolve => exact .inr (.inr ⟨hresolve, rfl⟩)

/-- The operand fits into a word, or it is the number of a field or of a global scalar, or no
greater than the number of words before it. -/
def Modest (c : EmitContext) (n : Nat) (a : Int) : Prop :=
  fits a = true ∨ ∃ k : Nat, a = k ∧
    ((∃ x, c.field? x = some k) ∨ (∃ x, c.store.index? x = some k) ∨ k ≤ n)

theorem modest_of_field (hf : c.field? x = some f) (hi : i.operands = [(f : Int)]) :
    ∀ a ∈ i.operands, Modest c n a := by
  rw [hi, forall_mem_singleton]
  exact .inr ⟨f, rfl, .inl ⟨x, hf⟩⟩

theorem modest_of_global (hg : c.store.index? x = some g) (hi : i.operands = [(g : Int)]) :
    ∀ a ∈ i.operands, Modest c n a := by
  rw [hi, forall_mem_singleton]
  exact .inr ⟨g, rfl, .inr (.inl ⟨x, hg⟩)⟩

end Names

/-! ### Rules -/

/-- A property of steps that depends on the constants that they push, on the number of words that
they take and on the nodes that are refused. It is kept by the ways in which the code of expressions
and statements is put together. Where calls need not `fit`, the first argument of a call on a table
may be missing; where names need not be `known`, any node may be refused. -/
structure Rules (c : EmitContext) (slot : Slot) (fit known : Prop)
    (P : (α : Type) → List Float → Nat → List (Node × NoCode) → Emit α → Prop) : Prop where
  sees : known → Sees c
  pure : ∀ {α} (a : α), P α [] 0 [] (pure a)
  bind : ∀ {α β vs ws k l lacks others} {x : Emit α} {f : α → Emit β}, P α vs k lacks x →
    (∀ a, P β ws l others (f a)) → P β (vs ++ ws) (k + l) (lacks ++ others) (x >>= f)
  refuse : ∀ {α vs k lacks} (node : Node) (reason : NoCode),
    (known → ∃ rest, lacks = (node, reason) :: rest) → P α vs k lacks (refuse c node reason)
  relabel : ∀ {α vs k lacks others} {x : Emit α}, (known → lacks = others) →
    P α vs k others x → P α vs k lacks x
  missing : ∀ {α vs k lacks}, ¬fit → P α vs k lacks (throw .missingArgument)
  snoc : ∀ {vs k lacks} {x : Emit Unit} {i : Instruction}, P Unit vs k lacks x → i.isPlain = true →
    (∀ a ∈ i.operands, Modest c k a) →
    P Unit vs (k + i.size) lacks (x >>= fun _ => instruction slot i)
  push : ∀ {v : Float}, Number.IsUnsigned v → P Unit [v] 2 [] (push slot v)
  room : ∀ n : Nat, P Unit [] 0 [] (modify fun e => { e with maxOutput := max e.maxOutput n })
  skip : ∀ {vs k lacks} {body : Emit Unit}, P Unit vs k lacks body →
    P Unit vs (k + 2) lacks
      (do let skip ← branch slot (.jumpIf .eq); body; setPending slot skip)
  choice : ∀ {vs ws k l lacks others} {yes no : Emit Unit} (comparison : Comparison),
    P Unit vs k lacks yes → P Unit ws l others no →
    P Unit (vs ++ ws) (k + l + 4) (lacks ++ others) (do
      let toElse ← branch slot (.jumpIf comparison)
      yes
      let join ← branch slot .jump
      setPending slot toElse
      no
      setPending slot join)
  loop : ∀ {vs ws k l lacks others} {guard body : Emit Unit}, P Unit vs k lacks guard →
    P Unit ws l others body → P Unit (vs ++ ws) (k + l + 4) (lacks ++ others) (do
      let top ← label slot
      guard
      let exit ← branch slot (.jumpIf .eq)
      body
      jumpBack slot top
      setPending slot exit)

namespace Rules

variable {c : EmitContext} {slot : Slot} {fit known : Prop}
  {P : (α : Type) → List Float → Nat → List (Node × NoCode) → Emit α → Prop} {α β : Type}
  {vs ws : List Float} {k l : Nat} {lacks : List (Node × NoCode)} {x : Emit α} {f : α → Emit β}

theorem resize (hx : P α vs k lacks x) (hk : k = l) : P α vs l lacks x := hk ▸ hx

variable (h : Rules c slot fit known P)

include h

theorem bind_served (hx : P α vs k lacks x)
    (hf : ∀ a, P β ws l [] (f a)) : P β (vs ++ ws) (k + l) lacks (x >>= f) := by
  have hbind := h.bind hx hf
  rwa [append_nil] at hbind

theorem before (hx : P α vs k lacks x)
    (hf : ∀ a, P β [] l [] (f a)) : P β vs (k + l) lacks (x >>= f) := by
  have hbind := h.bind_served hx hf
  rwa [append_nil] at hbind

theorem after (hx : P α [] k [] x)
    (hf : ∀ a, P β vs l lacks (f a)) : P β vs (k + l) lacks (x >>= f) :=
  h.bind hx hf

theorem refuse_bind (node : Node) (reason : NoCode)
    (hrest : known → ∃ rest, lacks = (node, reason) :: rest) :
    P β vs k lacks (Emit.refuse c node reason >>= f) :=
  h.refuse node reason hrest

theorem plain {i : Instruction} (hi : i.isPlain = true)
    (hmodest : ∀ a ∈ i.operands, Modest c 0 a) : P Unit [] i.size [] (instruction slot i) := by
  have hsnoc := h.snoc (h.pure ()) hi hmodest
  rwa [pure_bind, Nat.zero_add] at hsnoc

theorem bare {i : Instruction} (hi : i.isPlain = true)
    (hoperands : i.operands = []) : P Unit [] 1 [] (instruction slot i) := by
  have hplain := h.plain hi (by rw [hoperands]; exact forall_mem_nil _)
  rwa [Instruction.size, hoperands] at hplain

theorem push_zero : P Unit [0] 2 [] (Emit.push slot 0) :=
  h.push (by decide +kernel)

theorem push_one : P Unit [1] 2 [] (Emit.push slot 1) :=
  h.push (by decide +kernel)

theorem name (node : Node) {x : Text}
    (hx : known → c.scope.IsValue x) : P _ [] 2 [] (name c slot node x) := by
  rw [Emit.name]
  cases hf : c.field? x with
  | some f => exact h.plain (i := .loadField f) rfl (modest_of_field hf rfl)
  | none =>
    dsimp only
    rcases globalScalar?_cases c node x with ⟨e, g, -, hg, hscalar⟩ | ⟨e, hresolve, hg, hrefuse⟩ |
      ⟨hresolve, hnone⟩
    · rw [hscalar, pure_bind]
      exact h.plain (i := .loadGlobal g) rfl (modest_of_global hg rfl)
    · rw [hrefuse]
      refine h.refuse_bind _ _ fun hs => ?_
      -- A global value is a single one, and is found in the store.
      rcases hx hs with ⟨e', isGlobal, hresolve', hscalar⟩ | ⟨hresolve', -⟩
      · cases hresolve.symm.trans hresolve'
        have hsome := ((h.sees hs).slot x e hresolve).2 hscalar
        rw [hg] at hsome
        cases hsome
      · cases hresolve.symm.trans hresolve'
    · rw [hnone, pure_bind]
      cases hstandard : StandardName.ofText? x with
      | some s =>
        refine h.plain (i := .loadStd s.code) rfl ?_
        rw [Instruction.operands, forall_mem_singleton]
        exact .inl (by cases s <;> decide)
      | none =>
        refine h.refuse _ _ fun hs => ?_
        rcases hx hs with ⟨e, isGlobal, hresolve', -⟩ | ⟨-, hsome⟩
        · exact absurd ((h.sees hs).eq_global hf hresolve' ▸ hresolve') (hresolve e)
        · rw [hstandard] at hsome
          cases hsome

theorem combine (op : BinaryOp) : P _ op.pushed op.codeSize [] (combine slot op) := by
  have hcompare (comparison : Comparison) := h.after (h.bare (i := .compare) rfl rfl) fun _ =>
    h.choice comparison h.push_zero h.push_one
  cases op with
  | add => exact h.bare (i := .add) rfl rfl
  | sub => exact h.bare (i := .sub) rfl rfl
  | mul => exact h.bare (i := .mul) rfl rfl
  | div => exact h.bare (i := .div) rfl rfl
  | and => exact h.bare (i := .and) rfl rfl
  | or => exact h.bare (i := .or) rfl rfl
  | equal | notEqual | less | lessEqual | greater | greaterEqual => exact hcompare _

theorem compareWithZero : P _ [0] 3 [] (compareWithZero slot) :=
  h.before h.push_zero fun _ => h.bare rfl rfl

mutual

theorem expr (p : Path) : ∀ e : Expr, (fit → e.CallsFit) →
    (known → e.Scoped c.scope) →
    P _ e.pushed e.codeSize (lacksAmong c.scope (e.walk (fun _ => true) p)) (expr c slot e)
  | .constant _ l, _, _ => h.push (Number.isUnsigned_literal l)
  | .name _ x, _, hx => h.name _ hx
  | .element _ x index, hfit, hx => by
    rw [Emit.expr, Expr.pushed, Expr.codeSize, Expr.walk, lacksAmong_before, Node.lack?]
    cases hf : c.field? x with
    | none =>
      -- A name of an array without a field is that of a global one.
      refine h.refuse _ _ fun hs => ?_
      obtain ⟨e, isGlobal, hresolve, harray, -⟩ := (hx hs).1
      obtain rfl := (h.sees hs).eq_global hf hresolve
      rw [globalLack?_of_global hresolve, if_pos harray]
      exact ⟨_, rfl⟩
    | some f =>
      refine h.relabel (fun hs => by rw [(h.sees hs).globalLack?_eq_none hf]) ?_
      exact h.before (expr (0 :: p) index hfit fun hs => (hx hs).2) fun _ =>
        h.after (h.bare rfl rfl) fun _ => h.plain (i := .loadElem f) rfl (modest_of_field hf rfl)
  | .binary _ op left right, hfit, hx => by
    rw [Emit.expr, Expr.pushed, Expr.codeSize, Expr.walk, lacksAmong_before_of_none rfl,
      lacksAmong_append, Nat.add_assoc]
    exact h.bind (expr (0 :: p) left (fun hs => (hfit hs).1) fun hs => (hx hs).1) fun _ =>
      h.bind_served (expr (1 :: p) right (fun hs => (hfit hs).2) fun hs => (hx hs).2) fun _ =>
      h.combine op
  | .unary _ .neg operand, hfit, hx =>
    h.before (expr (0 :: p) operand hfit hx) fun _ => h.bare rfl rfl
  | .unary _ .not operand, hfit, hx =>
    h.bind_served (expr (0 :: p) operand hfit hx) fun _ =>
      h.bind h.compareWithZero fun _ => h.choice .ne h.push_one h.push_zero
  | .conditional _ guard yes no, hfit, hx => by
    rw [Emit.expr, Expr.pushed, Expr.codeSize, Expr.walk, lacksAmong_before_of_none rfl,
      lacksAmong_append, lacksAmong_append, append_assoc]
    refine resize (h.bind (expr (0 :: p) guard (fun hs => (hfit hs).1) fun hs => (hx hs).1)
      fun _ => h.bind h.compareWithZero fun _ => h.choice .eq
        (expr (1 :: p) yes (fun hs => (hfit hs).2.1) fun hs => (hx hs).2.1)
        (expr (2 :: p) no (fun hs => (hfit hs).2.2) fun hs => (hx hs).2.2)) ?_
    omega
  | .call span callee args, hfit, hx => by
    rw [Emit.expr, Expr.pushed, Expr.codeSize, Expr.walk, lacksAmong_before, Node.lack?]
    cases hop : CoreOpcode.ofText? callee with
    | none => exact h.refuse _ _ fun _ => ⟨_, rfl⟩
    | some op =>
      have hscoped : known → Expr.ArgsScoped c.scope op.tableArg? 0 args := fun hs => by
        have hargs := hx hs
        rwa [Expr.Scoped, hop] at hargs
      cases op with
      | builtin b =>
        have hlength := Expr.length_le_codeSizes args
        refine h.snoc (i := .call b.code args.length) (exprs p 0 args 0 none (by simp)
          (fun hs => (hfit hs).2) hscoped) rfl ?_
        rw [Instruction.operands, forall_mem_cons, forall_mem_singleton]
        exact ⟨.inl (by cases b <;> decide), .inr ⟨_, rfl, .inr (.inr hlength)⟩⟩
      | _ =>
        refine tableCall p _ _ args (fun hs => ⟨?_, (hfit hs).2⟩) hscoped
        rintro rfl
        exact absurd (CoreOpcode.pos_of_takes ((hfit hs).1 _ hop)) (Nat.lt_irrefl 0)

theorem tableCall (p : Path) (call : Expr) (op : CoreOpcode) :
    ∀ args : List Expr, (fit → args ≠ [] ∧ Expr.AllCallsFit args) →
    (known → Expr.ArgsScoped c.scope (some 0) 0 args) →
    P _ (Expr.pushedAll args) (Expr.valuesSize args + 2)
      ((Expr.tableLack? c.scope args).toList.map (Node.expr call, ·) ++
        lacksAmong c.scope (Expr.walkAll (fun _ => true) p 0 args)) (tableCall c slot call op args)
  | [], hfit, _ => h.missing fun hs => (hfit hs).1 rfl
  | table :: values, hfit, hx => by
    have htable (hs : known) : table.NamesTable c.scope := by
      have hargs := (hx hs).1
      rwa [if_pos rfl] at hargs
    rw [Emit.tableCall]
    cases table with
    | name span x =>
      rw [tableField, Expr.tableLack?]
      cases hf : c.field? x with
      | some f =>
        have hvalues := exprs p 1 values 1 (some 0) (by simp; omega) (fun hs => (hfit hs).2.2)
          fun hs => (hx hs).2
        refine h.relabel (fun hs => by rw [(h.sees hs).globalLack?_eq_none hf]) ?_
        have hoperands : (tableInstruction op f).operands = [(f : Int)] := by cases op <;> rfl
        have hsize : (tableInstruction op f).size = 2 := by rw [Instruction.size, hoperands]; rfl
        have hcall := h.snoc hvalues (i := tableInstruction op f) (by cases op <;> rfl)
          (modest_of_field hf hoperands)
        rw [hsize] at hcall
        exact hcall
      | none =>
        refine h.refuse_bind _ _ fun hs => ?_
        obtain ⟨_, _, heq, e, isGlobal, hresolve, hrate⟩ := htable hs
        cases heq
        obtain rfl := (h.sees hs).eq_global hf hresolve
        rw [globalLack?_of_global hresolve, if_pos (by simpa using hrate)]
        exact ⟨_, rfl⟩
    | _ =>
      refine h.refuse_bind _ _ fun hs => ?_
      obtain ⟨_, _, heq, -⟩ := htable hs
      cases heq

theorem exprs (p : Path) (i : Nat) : ∀ (es : List Expr) (k : Nat)
    (table : Option Nat), (∀ j, k ≤ j → table ≠ some j) → (fit → Expr.AllCallsFit es) →
    (known → Expr.ArgsScoped c.scope table k es) →
    P _ (Expr.pushedAll es) (Expr.codeSizes es)
      (lacksAmong c.scope (Expr.walkAll (fun _ => true) p i es)) (exprs c slot es)
  | [], _, _, _, _, _ => h.pure ()
  | e :: es, k, table, htable, hfit, hx => by
    have hscoped (hs : known) : e.Scoped c.scope := by
      have hargs := (hx hs).1
      rwa [if_neg (htable k (Nat.le_refl k))] at hargs
    rw [Expr.pushedAll, Expr.codeSizes, Expr.walkAll, lacksAmong_append]
    exact h.bind (expr (i :: p) e (fun hs => (hfit hs).1) hscoped) fun _ =>
      exprs p (i + 1) es (k + 1) table (fun j hj => htable j (Nat.le_of_succ_le hj))
        (fun hs => (hfit hs).2) fun hs => (hx hs).2

end

theorem condition (p : Path) {guard : Expr}
    (hfit : fit → guard.CallsFit) (hx : known → guard.Scoped c.scope) :
    P _ (guard.pushed ++ [0]) (guard.codeSize + 3)
      (lacksAmong c.scope (guard.walk (fun _ => true) p)) (condition c slot guard) :=
  h.bind_served (h.expr p guard hfit hx) fun _ => h.compareWithZero

theorem assign (p : Path) {t : Target} {value : Expr}
    (hfit : fit → (∀ index, t.index = some index → index.CallsFit) ∧ value.CallsFit)
    (hx : known → t.Scoped c.scope ∧ value.Scoped c.scope) :
    P _ (t.pushed ++ value.pushed) (t.codeSize + value.codeSize + 2)
      (lacksAmong c.scope (t.walk (fun _ => true) (0 :: p)) ++
        lacksAmong c.scope (value.walk (fun _ => true) (1 :: p)))
      (do let store ← target c slot t; Emit.expr c slot value; instruction slot store) := by
  have hvalue := h.expr (1 :: p) value (fun hs => (hfit hs).2) fun hs => (hx hs).2
  rw [target, Target.pushed, Target.codeSize, Target.walk, lacksAmong_before, Node.lack?]
  cases hf : c.field? t.ident with
  | some f =>
    refine h.relabel (fun hs => by rw [(h.sees hs).globalLack?_eq_none hf]) ?_
    cases hindex : t.index with
    | none =>
      refine resize (h.snoc (i := .storeField f) hvalue rfl (modest_of_field hf rfl)) ?_
      rw [Nat.zero_add]
      rfl
    | some index =>
      have hindex := h.expr (0 :: 0 :: p) index (fun hs => (hfit hs).1 index hindex) fun hs =>
        (hx hs).1.index index hindex
      simp only [bind_assoc, pure_bind]
      refine resize (h.bind hindex fun _ => h.after (h.bare rfl rfl) fun _ =>
        h.snoc (i := .storeElem f) hvalue rfl (modest_of_field hf rfl)) ?_
      change _ + (1 + (_ + 2)) = _
      omega
  | none =>
    -- There is an index if and only if this is an array, and arrays are not in the store.
    have hshape (hs : known) {e : Entry} (hresolve : c.scope.resolve? t.ident = some (e, true)) :
        e.array = t.index.isSome ∧ (c.store.index? t.ident).isSome = !t.index.isSome := by
      obtain ⟨e', isGlobal, hresolve', hsignal, harray⟩ := (hx hs).1.ident
      cases hresolve.symm.trans hresolve'
      refine ⟨harray, ?_⟩
      rw [Bool.eq_iff_iff, (h.sees hs).slot _ _ hresolve, Entry.isScalarSignal, hsignal, harray,
        Bool.and_true]
    rw [bind_assoc]
    rcases globalScalar?_cases c (.target t) t.ident with ⟨e, g, hresolve, hg, hscalar⟩ |
      ⟨e, hresolve, hg, hrefuse⟩ | ⟨hresolve, hnone⟩
    · rw [hscalar, pure_bind]
      cases hindex : t.index with
      | none =>
        have harray (hs : known) : e.array = false := by rw [(hshape hs hresolve).1, hindex]; rfl
        refine h.relabel (fun hs => by rw [globalLack?_of_global hresolve, harray hs]) ?_
        refine resize (h.snoc (i := .storeGlobal g) hvalue rfl (modest_of_global hg rfl)) ?_
        rw [Nat.zero_add]
        rfl
      | some index =>
        refine h.refuse_bind _ _ fun hs => ?_
        have hnone := (hshape hs hresolve).2
        rw [hg, hindex] at hnone
        cases hnone
    · rw [hrefuse]
      refine h.refuse_bind _ _ fun hs => ?_
      have hsome := (hshape hs hresolve).2
      rw [hg, eq_comm, Bool.not_eq_eq_eq_not] at hsome
      rw [globalLack?_of_global hresolve, (hshape hs hresolve).1, hsome]
      exact ⟨_, rfl⟩
    · rw [hnone, pure_bind]
      refine h.refuse_bind _ _ fun hs => ?_
      obtain ⟨e, isGlobal, hresolve', -⟩ := (hx hs).1.ident
      exact absurd ((h.sees hs).eq_global hf hresolve' ▸ hresolve') (hresolve e)

theorem output (p : Path) {args : List Expr}
    (hfit : fit → Expr.AllCallsFit args) (hx : known → Expr.ArgsScoped c.scope none 0 args) :
    P _ (Expr.pushedAll args) (Expr.outputSize args)
      (lacksAmong c.scope (Expr.walkAll (fun _ => true) p 0 args)) (output c slot args) := by
  unfold Emit.output
  split
  next arg =>
    rw [Expr.pushedAll, Expr.pushedAll, append_nil, Expr.outputSize, Expr.walkAll,
      Expr.walkAll, append_nil]
    have hscoped (hs : known) : arg.Scoped c.scope := by
      have hargs := (hx hs).1
      rwa [if_neg (by simp)] at hargs
    exact h.before (h.expr (0 :: p) arg (fun hs => (hfit hs).1) hscoped) fun _ => h.bare rfl rfl
  next hmany =>
    have hlength := Expr.length_le_codeSizes args
    have hframe := h.snoc (i := .outputFrame args.length)
      (h.exprs p 0 args 0 none (by simp) hfit hx) rfl
      (by rw [Instruction.operands, forall_mem_singleton]
          exact .inr ⟨_, rfl, .inr (.inr hlength)⟩)
    rw [Expr.outputSize.eq_2 _ hmany, ← bind_assoc]
    exact resize (h.before hframe fun _ => h.room _) rfl

mutual

theorem stmt (p : Path) : ∀ s : Stmt, (fit → s.CallsFit) →
    (known → s.Scoped c.scope) →
    P _ s.pushed s.codeSize (lacksAmong c.scope (s.walk (fun _ => true) p)) (stmt c slot s)
  | .assign _ t value, hfit, hx => by
    rw [Stmt.pushed, Stmt.codeSize, Stmt.walk, lacksAmong_before_of_none rfl,
      lacksAmong_append]
    exact h.assign p hfit hx
  | .eval _ value, hfit, hx => h.before (h.expr (0 :: p) value hfit hx) fun _ => h.bare rfl rfl
  | .ifThen _ guard body, hfit, hx => by
    rw [Stmt.pushed, Stmt.codeSize, Stmt.walk, lacksAmong_before_of_none rfl,
      lacksAmong_append, ← singleton_append, ← append_assoc]
    refine resize (h.bind (h.condition (0 :: p) (fun hs => (hfit hs).1) fun hs => (hx hs).1)
      fun _ => h.skip (stmts (1 :: p) 0 body (fun hs => (hfit hs).2) fun hs => (hx hs).2)) ?_
    omega
  | .ifElse _ guard yes no, hfit, hx => by
    rw [Stmt.pushed, Stmt.codeSize, Stmt.walk, lacksAmong_before_of_none rfl,
      lacksAmong_append, lacksAmong_append, append_assoc, ← singleton_append,
      ← append_assoc]
    refine resize (h.bind (h.condition (0 :: p) (fun hs => (hfit hs).1) fun hs => (hx hs).1)
      fun _ => h.choice .eq
        (stmts (1 :: p) 0 yes (fun hs => (hfit hs).2.1) fun hs => (hx hs).2.1)
        (stmts (2 :: p) 0 no (fun hs => (hfit hs).2.2) fun hs => (hx hs).2.2)) ?_
    omega
  | .loop _ guard body, hfit, hx => by
    rw [Stmt.pushed, Stmt.codeSize, Stmt.walk, lacksAmong_before_of_none rfl,
      lacksAmong_append, ← singleton_append, ← append_assoc]
    refine resize (h.loop (h.condition (0 :: p) (fun hs => (hfit hs).1) fun hs => (hx hs).1)
      (stmts (1 :: p) 0 body (fun hs => (hfit hs).2) fun hs => (hx hs).2)) ?_
    omega
  | .output _ args, hfit, hx => h.output p hfit hx
  | .extend _ seconds, hfit, hx =>
    h.before (h.expr (0 :: p) seconds hfit hx) fun _ => h.bare rfl rfl
  | .turnoff _, _, _ => h.bare (i := .turnoff) rfl rfl
  | .ret _ _, _, hx => h.refuse _ _ fun hs => (hx hs).elim

theorem stmts (p : Path) (i : Nat) : ∀ ss : List Stmt,
    (fit → Stmt.AllCallsFit ss) → (known → Stmt.AllScoped c.scope ss) →
    P _ (Stmt.pushedAll ss) (Stmt.codeSizes ss)
      (lacksAmong c.scope (Stmt.walkAll (fun _ => true) p i ss)) (stmts c slot ss)
  | [], _, _ => h.pure ()
  | s :: ss, hfit, hx => by
    rw [Stmt.pushedAll, Stmt.codeSizes, Stmt.walkAll, lacksAmong_append]
    exact h.bind (stmt (i :: p) s (fun hs => (hfit hs).1) fun hs => (hx hs).1) fun _ =>
      stmts p (i + 1) ss (fun hs => (hfit hs).2) fun hs => (hx hs).2

end

end Rules

end Emit

end Orchestrion
