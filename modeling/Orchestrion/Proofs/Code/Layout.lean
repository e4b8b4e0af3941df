import Orchestrion.Code.Generate
import Orchestrion.Proofs.Check.Layout

/-!
# Code without places and names

Code has no places, and variables are numbers in it. Generating it reads places and names only to
say which construct has no code and to find the numbers. So a tree gets the same code without its
places and with other names for its variables, or is refused for the same reason.
-/

namespace Orchestrion

open Emit

/-! ### What is left without places -/

/-- The construct without its place. -/
def Unsupported.erase (u : Unsupported) : Unsupported := { u with place := {} }

/-- The fault without the place of a construct. -/
def EmitFault.erase : EmitFault → EmitFault
  | unsupported u => unsupported u.erase
  | overflow value => overflow value
  | missingArgument => missingArgument

/-- What code refers to, without the places of declarations. -/
def Linkage.erase (l : Linkage) : Linkage := { l with globals := l.globals.erase }

theorem Linkage.of_erase (settings : Settings) (globals : VariableTable) :
    Linkage.of settings globals.erase = (Linkage.of settings globals).erase := by
  rw [Linkage.of, erase, StoreLayout.ofTable, VariableTable.erase, List.foldl_map]
  rfl

/-- What is left of faults on both sides of a change of names, so that those of a tree and of the
changed tree can be compared. -/
structure Casting.Blur (k : Casting) where
  left : EmitFault → EmitFault
  right : EmitFault → EmitFault
  overflow : ∀ v, left (.overflow v) = right (.overflow v)
  missing : left .missingArgument = right .missingArgument
  unsupported : ∀ u u', (k.Exact → u' = u.erase) → left (.unsupported u) = right (.unsupported u')

/-- Without a change of names, faults differ in places only. -/
def Casting.Blur.same : Casting.same.Blur where
  left := EmitFault.erase
  right := id
  overflow _ := rfl
  missing := rfl
  unsupported _ _ h := congrArg EmitFault.unsupported (h Casting.exact_same).symm

variable {k : Casting} (b : k.Blur)

def Field.recast (k : Casting) (f : Field) : Field := { f with ident := k.name f.ident }

/-- The unit with the new names of its fields. -/
def CompiledUnit.recast (k : Casting) (u : CompiledUnit) : CompiledUnit :=
  { u with fields := u.fields.map (Field.recast k) }

/-- The fields with their new names. -/
def FieldLayout.recast (k : Casting) (l : FieldLayout) : FieldLayout :=
  ⟨l.fields.map (Field.recast k), l.places.rename k.name⟩

namespace EmitContext

/-- What the code of a unit refers to, under new names and without the places of declarations. -/
def recast (k : Casting) (c : EmitContext) : EmitContext :=
  { c with toFieldLayout := c.toFieldLayout.recast k, scope := c.scope.recast k }

/-- The names of fields can be changed: fields are kept apart, and what is no field keeps its
meaning. -/
structure Serves (k : Casting) (c : EmitContext) : Prop where
  fields : ∀ y, (c.field? y).isSome = true → ∀ x, k.name y = k.name x ↔ y = x
  locals : k.fits c.scope.locals
  keeps : ∀ x, c.field? x = none → k.Keeps c.scope.globals x

variable {c : EmitContext}

theorem Serves.field? (hc : c.Serves k) (x : Text) : (c.recast k).field? (k.name x) = c.field? x :=
  NameMap.get?_rename fun y hy => hc.fields y hy x

end EmitContext

theorem Expr.constantOrZero_recast (g : Text → Text) :
    ∀ e : Expr, (e.rename g).erase.constantOrZero = e.constantOrZero
  | .constant .. | .name .. | .element .. | .call .. | .binary .. | .conditional ..
  | .unary _ .not _ => rfl
  | .unary _ .neg x => by rw [rename, erase, constantOrZero, constantOrZero,
    constantOrZero_recast g x]

theorem Decl.declares_erase (name : Text) (d : Decl) : d.erase.declares name = d.declares name := by
  cases d with
  | vars d => exact List.any_map
  | table d => rfl

theorem Instrument.declaringNode_erase (i : Instrument) (name : Text) :
    i.erase.declaringNode name = (i.declaringNode name).erase := by
  have hdecl : i.erase.decls.find? (Decl.declares name) =
      (i.decls.find? (Decl.declares name)).map Decl.erase := by
    rw [erase, List.find?_map]
    congr 2
    funext d
    exact d.declares_erase name
  have hparam : (i.erase.params.find? fun p => p.ident = name) =
      (i.params.find? fun p => p.ident = name).map InstrumentParam.erase := List.find?_map
  rw [declaringNode, declaringNode, hdecl, hparam]
  cases i.decls.find? (Decl.declares name) with
  | some d => cases d <;> rfl
  | none => cases i.params.find? fun p => p.ident = name <;> rfl

theorem Instrument.declaringNode_recast (i : Instrument) (name : Text) (hexact : k.Exact) :
    (i.rename k.name).erase.declaringNode (k.name name) = (i.declaringNode name).erase := by
  rw [hexact, show k.name = id from funext hexact, rename_id, declaringNode_erase]

namespace Emit

/-! ### Steps with blurred faults -/

variable {α β : Type}

/-- The step with something left out of its faults. -/
def blurred (φ : EmitFault → EmitFault) (x : Emit α) : Emit α := fun E => (x.run E).mapError φ

section Steps

variable (φ : EmitFault → EmitFault)

@[simp]
theorem blurred_pure (a : α) : blurred φ (pure a : Emit α) = pure a := rfl

@[simp]
theorem blurred_bind (x : Emit α) (f : α → Emit β) :
    blurred φ (x >>= f) = blurred φ x >>= fun a => blurred φ (f a) := by
  funext E
  change ((x.run E) >>= fun p => (f p.1).run p.2).mapError φ =
    (x.run E).mapError φ >>= fun p => ((f p.1).run p.2).mapError φ
  cases x.run E <;> rfl

@[simp]
theorem blurred_get : blurred φ (get : Emit Emitter) = get := rfl

@[simp]
theorem blurred_modify (f : Emitter → Emitter) : blurred φ (modify f : Emit Unit) = modify f := rfl

theorem blurred_forM (xs : List α) (f : α → Emit Unit) :
    blurred φ (xs.forM f) = xs.forM fun x => blurred φ (f x) := by
  induction xs with
  | nil => rfl
  | cons x xs ih =>
    change blurred φ (f x >>= fun _ => xs.forM f) =
      blurred φ (f x) >>= fun _ => xs.forM fun x => blurred φ (f x)
    rw [blurred_bind, ih]

@[simp]
theorem blurred_setPending (slot : Slot) (mark : Nat) :
    blurred φ (setPending slot mark) = setPending slot mark := rfl

@[simp]
theorem blurred_label (slot : Slot) : blurred φ (label slot) = label slot := rfl

end Steps

theorem blurred_throw {fault fault' : EmitFault} (h : b.left fault = b.right fault') :
    blurred b.left (throw fault : Emit α) = blurred b.right (throw fault') :=
  congrArg (fun fault => (throw fault : Emit α)) h

variable {c : EmitContext}

theorem blurred_refuse (node : Node) {reason reason' : NoCode} (h : k.Exact → reason' = reason) :
    blurred b.left (refuse c node reason : Emit α) =
      blurred b.right (refuse (c.recast k) (node.recast k.name) reason') := by
  refine blurred_throw b (b.unsupported _ _ fun hexact => ?_)
  rw [Node.span_recast, Node.kind_recast, h hexact]
  rfl

theorem blurred_refuseOf (node : Node) (reason : Text → NoCode) (x : Text) :
    blurred b.left (refuse c node (reason x) : Emit α) =
      blurred b.right (refuse (c.recast k) (node.recast k.name) (reason (k.name x))) :=
  blurred_refuse b node fun hexact => by rw [hexact]

@[simp]
theorem blurred_append (slot : Slot) (i : Instruction) :
    blurred b.left (append slot i) = blurred b.right (append slot i) := by
  rw [append, blurred_bind, blurred_bind, blurred_get, blurred_get]
  congr 1
  funext E
  cases (E.streams.get slot).pendingOffsets.find? fun a => !fits a with
  | some a => exact blurred_throw b (b.overflow a)
  | none => rfl

@[simp]
theorem blurred_instruction (slot : Slot) (i : Instruction) :
    blurred b.left (instruction slot i) = blurred b.right (instruction slot i) := by
  rw [instruction]
  cases i.operands.find? fun a => !fits a with
  | some a => exact blurred_throw b (b.overflow a)
  | none => exact blurred_append b slot i

@[simp]
theorem blurred_branch (slot : Slot) (jump : Int → Instruction) :
    blurred b.left (branch slot jump) = blurred b.right (branch slot jump) := by
  simp only [branch, blurred_bind, blurred_append, blurred_get, blurred_pure]

@[simp]
theorem blurred_jumpBack (slot : Slot) (label : Nat) :
    blurred b.left (jumpBack slot label) = blurred b.right (jumpBack slot label) := by
  simp [jumpBack]

@[simp]
theorem blurred_push (slot : Slot) (v : Float) :
    blurred b.left (push slot v) = blurred b.right (push slot v) := by
  have hconstant (φ : EmitFault → EmitFault) : blurred φ (constant v) = constant v := rfl
  simp [push, hconstant]

@[simp]
theorem blurred_combine (slot : Slot) (op : BinaryOp) :
    blurred b.left (combine slot op) = blurred b.right (combine slot op) := by
  rw [combine]
  cases combination op <;> simp

@[simp]
theorem blurred_compareWithZero (slot : Slot) :
    blurred b.left (compareWithZero slot) = blurred b.right (compareWithZero slot) := by
  simp [compareWithZero]

/-! ### Expressions -/

section Statements

variable (hc : c.Serves k)
include hc

theorem blurred_globalScalar? (node : Node) {x : Text} (hx : c.field? x = none) :
    blurred b.left (globalScalar? c node x) =
      blurred b.right (globalScalar? (c.recast k) (node.recast k.name) (k.name x)) := by
  have hkeeps := hc.keeps x hx
  have hresolve := Scope.resolve?_recast hc.locals fun _ => hkeeps
  rw [globalScalar?, globalScalar?, show (c.recast k).scope = c.scope.recast k from rfl,
    show (c.recast k).store = c.store from rfl]
  generalize hfound : c.scope.resolve? x = found at hresolve ⊢
  generalize (c.scope.recast k).resolve? (k.name x) = found' at hresolve ⊢
  cases hresolve with
  | none => rfl
  | @some v v' hlike =>
    obtain ⟨v, global⟩ := v
    obtain ⟨v', global'⟩ := v'
    obtain rfl : global' = global := hlike.2
    cases global' with
    | false => rfl
    | true =>
      -- A name that stands for a global variable stays as it is.
      have hname : k.name x = x := by
        refine hkeeps.resolve_right fun hnone => ?_
        rw [Scope.resolve?, Scope.lookupGlobal?, (hnone x (by simp)).1] at hfound
        split at hfound <;> cases hfound
      rw [hname]
      cases c.store.index? x with
      | some slot => rfl
      | none => exact blurred_refuse b node fun _ => rfl

theorem blurred_name (slot : Slot) (node : Node) (x : Text) :
    blurred b.left (name c slot node x) =
      blurred b.right (name (c.recast k) slot (node.recast k.name) (k.name x)) := by
  rw [name, name, hc.field?]
  cases hx : c.field? x with
  | some f => exact blurred_instruction ..
  | none =>
    dsimp only
    rw [blurred_bind, blurred_bind, blurred_globalScalar? b hc node hx, (hc.keeps x hx).standard]
    congr 1
    funext found
    cases found with
    | some g => exact blurred_instruction ..
    | none =>
      cases StandardName.ofText? x with
      | some s => exact blurred_instruction ..
      | none => exact blurred_refuseOf b node .reference x

theorem blurred_tableField (call arg : Expr) :
    blurred b.left (tableField c call arg) = blurred b.right
      (tableField (c.recast k) (call.rename k.name).erase (arg.rename k.name).erase) := by
  cases arg with
  | name _ x =>
    rw [Expr.rename, Expr.erase, tableField, tableField, hc.field?]
    cases c.field? x with
    | some f => rfl
    | none => exact blurred_refuseOf b (.expr call) .globalTable x
  | constant | element | call | binary | unary | conditional =>
    exact blurred_refuse b (.expr call) fun _ => rfl

omit hc in
mutual

theorem blurred_expr (hc : c.Serves k) (slot : Slot) : ∀ e : Expr, blurred b.left (expr c slot e) =
    blurred b.right (expr (c.recast k) slot (e.rename k.name).erase)
  | .constant _ l => by
    rw [Expr.rename, Expr.erase, expr, expr, blurred_push]
  | .name span x => blurred_name b hc slot (.expr (.name span x)) x
  | .element span x index => by
    rw [Expr.rename, Expr.erase, expr, expr, hc.field?]
    cases c.field? x with
    | none => exact blurred_refuseOf b (.expr (.element span x index)) .indexedGlobal x
    | some f => simp only [blurred_bind, blurred_expr hc slot index, blurred_instruction]
  | .binary _ op left right => by
    rw [Expr.rename, Expr.erase, expr, expr]
    simp only [blurred_bind, blurred_expr hc slot left, blurred_expr hc slot right, blurred_combine]
  | .unary _ .neg operand => by
    rw [Expr.rename, Expr.erase, expr, expr]
    simp only [blurred_bind, blurred_expr hc slot operand, blurred_instruction]
  | .unary _ .not operand => by
    rw [Expr.rename, Expr.erase, expr, expr]
    simp only [blurred_bind, blurred_expr hc slot operand, blurred_compareWithZero, blurred_branch,
      blurred_push, blurred_setPending]
  | .conditional _ guard yes no => by
    rw [Expr.rename, Expr.erase, expr, expr]
    simp only [blurred_bind, blurred_expr hc slot guard, blurred_expr hc slot yes,
      blurred_expr hc slot no, blurred_compareWithZero, blurred_branch, blurred_setPending]
  | .call span callee args => by
    rw [Expr.rename, Expr.erase, expr, expr]
    cases CoreOpcode.ofText? callee with
    | none => exact blurred_refuse b (.expr (.call span callee args)) fun _ => rfl
    | some op =>
      -- The three opcodes on tables share one way, so it is taken before they are told apart.
      have htable := blurred_tableCall hc slot (.call span callee args) op args
      cases op with
      | builtin b =>
        simp only [blurred_bind, blurred_exprs hc slot args, blurred_instruction,
          Expr.length_eraseAll, Expr.length_renameAll]
      | tableRead | tableWrite | tableLength => exact htable

theorem blurred_tableCall (hc : c.Serves k) (slot : Slot) (call : Expr) (op : CoreOpcode) :
    ∀ args : List Expr,
      blurred b.left (tableCall c slot call op args) =
        blurred b.right (tableCall (c.recast k) slot (call.rename k.name).erase op
          (Expr.eraseAll (Expr.renameAll k.name args)))
  | [] => blurred_throw b b.missing
  | table :: values => by
    rw [Expr.renameAll, Expr.eraseAll, tableCall, tableCall]
    simp only [blurred_bind, blurred_tableField b hc, blurred_exprs hc slot values,
      blurred_instruction]

theorem blurred_exprs (hc : c.Serves k) (slot : Slot) :
    ∀ es : List Expr, blurred b.left (exprs c slot es) =
      blurred b.right (exprs (c.recast k) slot (Expr.eraseAll (Expr.renameAll k.name es)))
  | [] => by
    rfl
  | e :: es => by
    rw [Expr.renameAll, Expr.eraseAll, exprs, exprs]
    simp only [blurred_bind, blurred_expr hc slot e, blurred_exprs hc slot es]

end

/-! ### Statements -/

theorem blurred_condition (slot : Slot) (guard : Expr) :
    blurred b.left (condition c slot guard) =
      blurred b.right (condition (c.recast k) slot (guard.rename k.name).erase) := by
  simp only [condition, blurred_bind, blurred_expr b hc, blurred_compareWithZero]

theorem blurred_target (slot : Slot) (t : Target) :
    blurred b.left (target c slot t) =
      blurred b.right (target (c.recast k) slot (t.rename k.name).erase) := by
  obtain ⟨span, ident, index?⟩ := t
  rw [target, target, Target.rename, Target.erase, hc.field?]
  cases hident : c.field? ident with
  | some f =>
    cases index? with
    | none => rfl
    | some index =>
      dsimp only [Option.map_some]
      simp only [blurred_bind, blurred_expr b hc, blurred_instruction, blurred_pure]
  | none =>
    have hglobal := blurred_globalScalar? b hc (.target ⟨span, ident, index?⟩) hident
    dsimp only
    rw [blurred_bind, blurred_bind, hglobal]
    congr 1
    funext found
    cases found with
    | some g =>
      cases index? with
      | none => rfl
      | some index => exact blurred_refuseOf b (.target _) .assignment ident
    | none => exact blurred_refuseOf b (.target _) .assignment ident

theorem blurred_output (slot : Slot) (args : List Expr) :
    blurred b.left (output c slot args) = blurred b.right
      (output (c.recast k) slot (Expr.eraseAll (Expr.renameAll k.name args))) := by
  -- A single value is sent to all channels; any other number of values makes a frame.
  have hframe (args : List Expr) : blurred b.left (do
        exprs c slot args
        instruction slot (.outputFrame args.length)
        modify fun e => { e with maxOutput := max e.maxOutput args.length }) =
      blurred b.right (do
        let args' := Expr.eraseAll (Expr.renameAll k.name args)
        exprs (c.recast k) slot args'
        instruction slot (.outputFrame args'.length)
        modify fun e => { e with maxOutput := max e.maxOutput args'.length }) := by
    simp only [blurred_bind, blurred_exprs b hc, blurred_instruction, blurred_modify,
      Expr.length_eraseAll, Expr.length_renameAll]
  cases args with
  | nil => exact hframe []
  | cons arg args =>
    cases args with
    | nil =>
      change blurred b.left (expr c slot arg >>= fun _ => instruction slot .output) =
        blurred b.right (expr (c.recast k) slot (arg.rename k.name).erase >>= fun _ =>
          instruction slot .output)
      simp only [blurred_bind, blurred_expr b hc, blurred_instruction]
    | cons arg' args => exact hframe (arg :: arg' :: args)

end Statements

mutual

theorem blurred_stmt (hc : c.Serves k) (slot : Slot) : ∀ s : Stmt, blurred b.left (stmt c slot s) =
    blurred b.right (stmt (c.recast k) slot (s.rename k.name).erase)
  | .assign _ t value => by
    rw [Stmt.rename, Stmt.erase, stmt, stmt]
    simp only [blurred_bind, blurred_target b hc, blurred_expr b hc, blurred_instruction]
  | .eval _ value | .extend _ value => by
    rw [Stmt.rename, Stmt.erase, stmt, stmt]
    simp only [blurred_bind, blurred_expr b hc, blurred_instruction]
  | .ifThen _ guard body => by
    rw [Stmt.rename, Stmt.erase, stmt, stmt]
    simp only [blurred_bind, blurred_condition b hc, blurred_branch, blurred_stmts hc slot body,
      blurred_setPending]
  | .ifElse _ guard yes no => by
    rw [Stmt.rename, Stmt.erase, stmt, stmt]
    simp only [blurred_bind, blurred_condition b hc, blurred_branch, blurred_stmts hc slot yes,
      blurred_stmts hc slot no, blurred_setPending]
  | .loop _ guard body => by
    rw [Stmt.rename, Stmt.erase, stmt, stmt]
    simp only [blurred_bind, blurred_label, blurred_condition b hc, blurred_branch,
      blurred_stmts hc slot body, blurred_jumpBack, blurred_setPending]
  | .output _ args => by
    rw [Stmt.rename, Stmt.erase, stmt, stmt, blurred_output b hc]
  | .turnoff _ => by
    rw [Stmt.rename, Stmt.erase, stmt, stmt, blurred_instruction]
  | .ret span values => blurred_refuse b (.stmt (.ret span values)) fun _ => rfl

theorem blurred_stmts (hc : c.Serves k) (slot : Slot) :
    ∀ ss : List Stmt, blurred b.left (stmts c slot ss) =
      blurred b.right (stmts (c.recast k) slot (Stmt.eraseAll (Stmt.renameAll k.name ss)))
  | [] => by
    rfl
  | s :: ss => by
    rw [Stmt.renameAll, Stmt.eraseAll, stmts, stmts]
    simp only [blurred_bind, blurred_stmt hc slot s, blurred_stmts hc slot ss]

end

/-! ### Units -/

theorem layFields_recast (settings : Settings) (layout : FieldLayout) (es : List Entry) :
    layFields settings (layout.recast k) (es.map (Entry.recast k)) =
      ((layFields settings layout es).map (FieldLayout.recast k)).mapError (Entry.recast k) := by
  induction es generalizing layout with
  | nil => rfl
  | cons e es ih =>
    have hadd : (layout.recast k).add settings (e.recast k) = (layout.add settings e).recast k := by
      simp [FieldLayout.add, FieldLayout.recast, NameMap.rename, NameMap.set, Entry.field,
        Entry.recast, Entry.erase, Field.recast]
    rw [List.map_cons, layFields, layFields, hadd, ih, show (e.recast k).rate = e.rate from rfl]
    split <;> rfl

theorem blurred_makeArrays (i : Nat) (fs : List Field) : blurred b.left (makeArrays i fs) =
    blurred b.right (makeArrays i (fs.map (Field.recast k))) := by
  induction fs generalizing i with
  | nil => rfl
  | cons f fs ih =>
    rw [List.map_cons, makeArrays, makeArrays, show (f.recast k).array = f.array from rfl]
    split
    · simp only [blurred_bind, blurred_instruction, ih]
      rfl
    · exact ih (i + 1)

theorem blurred_pushConstants (es : List Expr) : blurred b.left (pushConstants es) =
    blurred b.right (pushConstants (Expr.eraseAll (Expr.renameAll k.name es))) := by
  induction es with
  | nil => rfl
  | cons e es ih =>
    rw [Expr.renameAll, Expr.eraseAll, pushConstants, pushConstants, Expr.constantOrZero_recast]
    simp only [blurred_bind, blurred_push, ih]

theorem blurred_finish (exported : List Shared) (slot : Slot) :
    blurred b.left (finish exported slot) = blurred b.right (finish exported slot) := by
  have hexport : blurred b.left (exportShared slot exported) =
      blurred b.right (exportShared slot exported) := by
    induction exported with
    | nil => rfl
    | cons s ss ih =>
      rw [exportShared]
      split <;> simp [ih]
  simp [finish, hexport]

section Units

variable (hc : c.Serves k)
include hc

theorem blurred_fillTable (d : TableDecl) : blurred b.left (fillTable c d) =
    blurred b.right (fillTable (c.recast k) (d.rename k.name).erase) := by
  obtain ⟨span, tags, ident, generator, args⟩ := d
  rw [fillTable, fillTable]
  dsimp only [TableDecl.rename, TableDecl.erase]
  cases Generator.ofText? generator with
  | none => exact blurred_refuse b (.table _) fun _ => rfl
  | some g =>
    cases args with
    | nil => exact blurred_throw b b.missing
    | cons size args =>
      simp only [Expr.renameAll, Expr.eraseAll, blurred_bind, blurred_pushConstants,
        blurred_instruction, Expr.length_eraseAll, Expr.length_renameAll, hc.field?]

theorem blurred_fillTables (ds : List Decl) : blurred b.left (fillTables c ds) =
    blurred b.right (fillTables (c.recast k) ((ds.map (Decl.rename k.name)).map Decl.erase)) := by
  induction ds with
  | nil => rfl
  | cons d ds ih =>
    cases d with
    | vars d => exact ih
    | table d =>
      simp only [List.map_cons, Decl.rename, Decl.erase, fillTables, blurred_bind,
        blurred_fillTable b hc, ih]

theorem blurred_shared (i : Instrument) {e : Entry} (he : k.name e.ident = e.ident) :
    blurred b.left (shared c i e) =
      blurred b.right (shared (c.recast k) (i.rename k.name).erase (e.recast k)) := by
  have hrefuse (reason : NoCode) {α : Type} :
      blurred b.left (refuse c (i.declaringNode e.ident) reason : Emit α) =
        blurred b.right (refuse (c.recast k)
          ((i.rename k.name).erase.declaringNode (e.recast k).ident) reason) := by
    refine blurred_throw b (b.unsupported _ _ fun hexact => ?_)
    rw [show (e.recast k).ident = k.name e.ident from rfl, i.declaringNode_recast _ hexact,
      Node.span_erase, Node.kind_erase]
    rfl
  have hfield : (c.recast k).field? (e.recast k).ident = c.field? e.ident := hc.field? e.ident
  have hident : (e.recast k).ident = e.ident := he
  rw [hident] at hrefuse hfield
  rw [shared, shared, show (e.recast k).rate = e.rate from rfl, hident, hfield,
    show (c.recast k).store = c.store from rfl]
  cases c.store.index? e.ident with
  | none | some g => split <;> simp only [blurred_bind, blurred_pure, hrefuse]

theorem blurred_importShared (i : Instrument) {es : List Entry}
    (hes : ∀ e ∈ es, e.isTagged = true → k.name e.ident = e.ident) :
    blurred b.left (importShared c i es) = blurred b.right
      (importShared (c.recast k) (i.rename k.name).erase (es.map (Entry.recast k))) := by
  induction es with
  | nil => rfl
  | cons e es ih =>
    rw [List.forall_mem_cons] at hes
    rw [List.map_cons, importShared, importShared,
      show (e.recast k).isTagged = e.isTagged from rfl,
      show (e.recast k).imports = e.imports from rfl,
      show (e.recast k).exports = e.exports from rfl]
    split
    next htagged =>
      simp only [blurred_bind, blurred_shared b hc i (hes.1 htagged)]
      congr 1
      funext s
      split <;> simp only [blurred_bind, blurred_instruction, blurred_pure, ih hes.2]
    next => exact ih hes.2

theorem blurred_body {u v : CheckedUnit} (h : u.Recasts k v) (n : Nat) (ss : List Stmt) :
    blurred b.left (body c u n ss) = blurred b.right
      (body (c.recast k) v n (Stmt.eraseAll (Stmt.renameAll k.name ss))) := by
  induction ss generalizing n with
  | nil => rfl
  | cons s ss ih =>
    rw [Stmt.renameAll, Stmt.eraseAll, body, body, h.stmtRate_eq]
    cases Slot.ofRate? (u.stmtRate n) with
    | none =>
      have hrefuse :
          blurred b.left (refuse c (.stmt s) (.statementRate (u.stmtRate n)) : Emit Unit) =
          blurred b.right (refuse (c.recast k) (.stmt (s.rename k.name).erase)
            (.statementRate (u.stmtRate n))) := blurred_refuse b (.stmt s) fun _ => rfl
      simp only [blurred_bind, hrefuse, ih]
    | some slot => simp only [blurred_bind, blurred_stmt b hc, ih]

theorem blurred_unit {u v : CheckedUnit} (h : u.Recasts k v) (i : Instrument)
    (htagged : ∀ e ∈ u.locals.entries, e.isTagged = true → k.name e.ident = e.ident) :
    blurred b.left (unit c u i) =
      blurred b.right (unit (c.recast k) v (i.rename k.name).erase) := by
  rw [unit, unit, h.locals]
  simp only [blurred_bind, blurred_makeArrays, blurred_fillTables b hc,
    blurred_importShared b hc i htagged, blurred_body b hc h, blurred_forM, blurred_finish]
  rfl

end Units

end Emit

theorem Instrument.generate_recast (l : Linkage) {u v : CheckedUnit} (h : u.Recasts k v)
    (i : Instrument)
    (htagged : ∀ e ∈ u.locals.entries, e.isTagged = true → k.name e.ident = e.ident)
    (hserves : ∀ layout, layFields l.settings {} u.locals.entries = .ok layout →
      EmitContext.Serves k ⟨layout, i.ident, ⟨u.locals, some l.globals⟩, l.store⟩) :
    ((i.rename k.name).erase.generate l.erase v).mapError b.right =
      ((i.generate l u).mapError b.left).map (CompiledUnit.recast k) := by
  have hlayout : layFields l.erase.settings {} v.locals.entries =
      ((layFields l.settings {} u.locals.entries).map (FieldLayout.recast k)).mapError
        (Entry.recast k) := by
    rw [h.locals]
    exact layFields_recast l.settings {} u.locals.entries
  rw [generate, generate, hlayout, h.locals]
  cases hok : layFields l.settings {} u.locals.entries with
  | error e =>
    refine congrArg Except.error (b.unsupported _ _ fun hexact => ?_).symm
    rw [show (e.recast k).ident = k.name e.ident from rfl, i.declaringNode_recast _ hexact,
      Node.span_erase, Node.kind_erase, hexact]
    rfl
  | ok layout =>
    -- Both runs start with nothing emitted, and what is emitted has neither places nor names.
    let c : EmitContext := ⟨layout, i.ident, ⟨u.locals, some l.globals⟩, l.store⟩
    have hc : c.Serves k := hserves layout hok
    have hunit : ((unit (c.recast k) v (i.rename k.name).erase).run {}).mapError b.right =
        ((unit c u i).run {}).mapError b.left :=
      (congrFun (blurred_unit b hc h i htagged) {}).symm
    change ((unit (c.recast k) v (i.rename k.name).erase).run {} >>= fun x => _).mapError
        b.right =
      (((unit c u i).run {} >>= fun x => _).mapError b.left).map (CompiledUnit.recast k)
    generalize (unit (c.recast k) v (i.rename k.name).erase).run {} = run' at hunit ⊢
    generalize (unit c u i).run {} = run at hunit ⊢
    cases run with
    | error fault =>
      cases run' with
      | error fault' => exact congrArg Except.error (Except.error.inj hunit)
      | ok emitted => cases hunit
    | ok emitted =>
      cases run' with
      | error fault => cases hunit
      | ok emitted' =>
        cases hunit
        refine congrArg Except.ok ?_
        congr 1
        change ((i.params.map _).map _).map _ = _
        rw [List.map_map, List.map_map]
        refine List.map_congr_left fun p _ => ?_
        exact congrArg (fun field : Option Nat => ((field.getD 0 : Nat) : Int)) (hc.field? p.ident)

theorem Instrument.generate_erase (l : Linkage) {u v : CheckedUnit} (h : u.Erases v)
    (i : Instrument) :
    i.erase.generate l.erase v = (i.generate l u).mapError EmitFault.erase := by
  have hcode := i.generate_recast .same l h.recasts (fun _ _ _ => rfl) fun layout _ =>
    ⟨fun _ _ _ => .rfl, trivial, fun _ _ => .inl rfl⟩
  have hunit (x : Except EmitFault CompiledUnit) : x.map (CompiledUnit.recast .same) = x := by
    cases x with
    | error fault => rfl
    | ok unit =>
      refine congrArg Except.ok ?_
      rw [CompiledUnit.recast, show Field.recast .same = id from rfl, List.map_id]
  have hright (x : Except EmitFault CompiledUnit) : x.mapError Casting.Blur.same.right = x := by
    cases x <;> rfl
  rwa [hunit, hright, show Casting.same.name = id from rfl, rename_id] at hcode

end Orchestrion
