import Orchestrion.Proofs.Check.Casting
import Orchestrion.Proofs.Check.Declarations

/-!
# Checks without places and with other names

A check reads the places of the nodes only to say where a complaint is about, where a variable is
declared and where an attribute was set twice. It reads the names of variables only to tell them
apart. So the check of a tree without its places, and with other names for its variables, is the
check of the tree, with places left out of all that is found and names changed.
-/

namespace Orchestrion

open List

variable {k : Casting}

theorem Expr.constant?_recast (g : Text → Text) :
    ∀ e : Expr, (e.rename g).erase.constant? = e.constant?
  | .constant .. | .name .. | .element .. | .call .. | .binary .. | .conditional ..
  | .unary _ .not _ => rfl
  | .unary _ .neg x => by rw [rename, erase, constant?, constant?, constant?_recast g x]

/-- The complaint without its place. -/
def Diagnostic.erase (d : Diagnostic) : Diagnostic := { d with place := {} }

theorem Diagnostic.about_erase (node : Node) (unit : UnitLabel) (cause : Cause) :
    about node.erase unit cause = (about node unit cause).erase := by
  rw [about, about, erase, Node.span_erase, Node.kind_erase]

theorem Diagnostic.about_recast (g : Text → Text) (node : Node) (unit : UnitLabel) (cause : Cause) :
    about (node.recast g) unit cause = (about node unit cause).erase := by
  rw [about, about, erase, Node.span_recast, Node.kind_recast]

/-- The fault without its place. -/
def SetTwice.erase (f : SetTwice) : SetTwice := { f with place := {} }

/-- The nodes of a unit have the widths and rates of those of another, and a payload where those
have one. -/
structure Attributes.Erases (as bs : Attributes) : Prop where
  signal : ∀ p, (bs.get p).signal = (as.get p).signal
  payload : ∀ p, (bs.get p).payload.isSome = (as.get p).payload.isSome

theorem Attributes.Erases.replace {as bs : Attributes} (h : as.Erases bs) (p : Path)
    {a b : Attribute} (hsignal : b.signal = a.signal)
    (hpayload : b.payload.isSome = a.payload.isSome) :
    (as.replace p a).Erases (bs.replace p b) := by
  constructor <;> intro q <;> rw [get_replace, get_replace] <;> split
  · exact hsignal
  · exact h.signal q
  · exact hpayload
  · exact h.payload q

namespace Check

/-- What a unit is checked against, without the places of declarations. -/
def Context.erase (c : Context) : Context := { c with globals := c.globals.map VariableTable.erase }

theorem Context.opcodes_erase (c : Context) : c.erase.opcodes = c.opcodes := rfl

theorem Context.settings_erase (c : Context) : c.erase.settings = c.settings := rfl

/-- The reason without its place. -/
def Stop.erase : Stop → Stop
  | abandoned => abandoned
  | setTwice fault => setTwice fault.erase

/-- What is known about a unit is what is known about another, without places and with other names.
What is complained about is compared if all names are the same, and otherwise whether there is
anything. -/
structure State.Erases (k : Casting) (s t : State) : Prop where
  fits : k.fits s.locals
  locals : t.locals = s.locals.recast k
  -- Compared node by node, since maps with the same entries may be built in different ways.
  attributes : s.attributes.Erases t.attributes
  clean : s.errors = [] → t.errors = []
  errors : k.Exact → t.errors = s.errors.map Diagnostic.erase

theorem State.erases_empty (h : k.fits {}) : State.Erases k {} {} where
  fits := h
  locals := rfl
  attributes := ⟨fun _ => rfl, fun _ => rfl⟩
  clean _ := rfl
  errors _ := rfl

variable {α α' : Type}

/-- A check does the same as another without places and with other names; `r` changes the result. -/
abbrev Erases (k : Casting) (r : α → α') (x : Checking α) (y : Checking α') : Prop :=
  Alike (State.Erases k) Stop.erase r x y

variable {c : Context}

/-! ### The parts of a check -/

theorem erases_complain (node : Node) {cause cause' : Cause} (hcause : k.Exact → cause' = cause) :
    Erases k id (complain c node cause) (complain c.erase (node.recast k.name) cause') := by
  refine ⟨fun s t h => .ok () ⟨h.fits, h.locals, h.attributes, fun hs => ?_, fun hexact => ?_⟩⟩
  · simp at hs
  · rw [hcause hexact, map_append, ← h.errors hexact, map_singleton,
      ← Diagnostic.about_recast k.name]
    rfl

theorem erases_complainOf (node : Node) (cause : Text → Cause) (x : Text) :
    Erases k id (complain c node (cause x))
      (complain c.erase (node.recast k.name) (cause (k.name x))) :=
  erases_complain node fun hexact => by rw [hexact]

theorem erases_complainIf (node : Node) {cause cause' : Option Cause}
    (h : Option.Rel (fun f f' => k.Exact → f' = f) cause cause') :
    Erases k id (complainIf c node cause) (complainIf c.erase (node.recast k.name) cause') := by
  cases h with
  | none => exact .done _
  | some h => exact erases_complain node h

theorem erases_abandon {r : α → α'} (node : Node) {cause cause' : Cause}
    (h : k.Exact → cause' = cause) :
    Erases k r (abandon c node cause) (abandon c.erase (node.recast k.name) cause') :=
  .step (erases_complain node h) fun _ => ⟨fun _ _ h => .error .abandoned h⟩

theorem erases_setSignal (p : Path) (node : Node) (w : Width) (rate : Rate) :
    Erases k id (setSignal p node w rate) (setSignal p (node.recast k.name) w rate) := by
  refine ⟨fun s t h => ?_⟩
  rw [setSignal_apply, setSignal_apply, Attributes.setSignal?, Attributes.setSignal?,
    h.attributes.signal, Node.kind_recast, Node.span_recast]
  cases (s.attributes.get p).signal with
  | some old => exact .error (.setTwice _) h
  | none =>
    exact .ok () { h with attributes := h.attributes.replace p rfl (h.attributes.payload p) }

/-- Whether a payload can be set does not depend on the payload. -/
theorem erases_setPayload (p : Path) (node : Node) (x y : Payload) :
    Erases k id (setPayload p node x) (setPayload p (node.recast k.name) y) := by
  refine ⟨fun s t h => ?_⟩
  rw [setPayload_apply, setPayload_apply, Attributes.setPayload?, Attributes.setPayload?,
    Node.kind_recast, Node.span_recast]
  have hsome := h.attributes.payload p
  generalize (s.attributes.get p).payload = payload at hsome ⊢
  generalize (t.attributes.get p).payload = payload' at hsome ⊢
  cases payload <;> cases payload' <;> try cases hsome
  · exact .ok () { h with attributes := h.attributes.replace p (h.attributes.signal p) rfl }
  · exact .error (.setTwice _) h

theorem erases_declare {tagged : Bool} {e : Entry} (he : k.Takes tagged e.ident) :
    Erases k id (declare e) (declare (e.recast k)) := by
  refine ⟨fun s t h => ?_⟩
  rw [declare_apply, declare_apply, h.locals, VariableTable.add?_recast h.fits]
  cases hadd : s.locals.add? e with
  | some table =>
    exact .ok true { h with fits := he.fits _ _ _ h.fits rfl hadd, locals := rfl }
  | none => exact .ok false h

theorem erases_declareOnce (node : Node) {tagged : Bool} {e : Entry} (he : k.Takes tagged e.ident) :
    Erases k id (declareOnce c node e) (declareOnce c.erase (node.recast k.name) (e.recast k)) :=
  .step (erases_declare he) fun _ =>
  .ite (.done _) (erases_complainOf node .duplicateVariable e.ident)

theorem Alike.resolved {r : α → α'} (hk : k.Reads c.globals) (name : Text)
    {f : Option (Entry × Bool) → Checking α} {g : Option (Entry × Bool) → Checking α'}
    (hsome : ∀ v v' global, v.Like v' → Erases k r (f (some (v, global))) (g (some (v', global))))
    (hnone : StandardName.ofText? (k.name name) = StandardName.ofText? name →
      Erases k r (f none) (g none)) :
    Erases k r (resolve? c name >>= f) (resolve? c.erase (k.name name) >>= g) := by
  refine ⟨fun s t h => ?_⟩
  have hresolve := Scope.resolve?_recast (s := ⟨s.locals, c.globals⟩) h.fits (hk _ h.fits name)
  change EndsAlike (State.Erases k) Stop.erase r (f (Scope.resolve? ⟨s.locals, c.globals⟩ name) s)
    (g (Scope.resolve? ⟨t.locals, c.globals.map VariableTable.erase⟩ (k.name name)) t)
  rw [Scope.recast, ← h.locals] at hresolve
  generalize hfound : Scope.resolve? ⟨s.locals, c.globals⟩ name = found at hresolve ⊢
  generalize Scope.resolve? ⟨t.locals, c.globals.map VariableTable.erase⟩ _ = found' at hresolve ⊢
  cases hresolve with
  | @some v v' hlike =>
    obtain ⟨v, global⟩ := v
    obtain ⟨v', global'⟩ := v'
    obtain ⟨hlike, rfl⟩ : v.Like v' ∧ global' = global := hlike
    exact (hsome v v' _ hlike).of_run s t h
  | none =>
    refine (hnone (hk _ h.fits name ?_).standard).of_run s t h
    rw [Scope.resolve?] at hfound
    split at hfound
    · cases hfound
    · assumption

/-! ### Expressions -/

section Statements

variable (hk : k.Reads c.globals)
include hk

theorem erases_identifier (p : Path) (node : Node) (name : Text) :
    Erases k id (identifier c p node name)
      (identifier c.erase p (node.recast k.name) (k.name name)) := by
  refine .resolved hk name (fun v v' _ hlike => ?_) fun hstandard => ?_
  · refine .step (erases_setPayload p node (.entry v) (.entry v')) fun _ => ?_
    rw [hlike.rate, hlike.array]
    refine .ite ?_ (.ite ?_ (.done _))
    · exact .step (erases_complainOf node (.notValue v.rate) name) fun _ => .done _
    · exact .step (erases_complainOf node .arrayWithoutIndex name) fun _ => .done _
  · dsimp only
    rw [hstandard]
    cases StandardName.ofText? name with
    | some s => exact .done _
    | none => exact .step (erases_complainOf node .undeclared name) fun _ => .done _

theorem erases_arrayName (p : Path) (node : Node) (name : Text) (index : Rate) :
    Erases k id (arrayName c p node name index)
      (arrayName c.erase p (node.recast k.name) (k.name name) index) := by
  refine .resolved hk name (fun v v' _ hlike => ?_) fun _ => ?_
  · refine .step (erases_setPayload p node (.entry v) (.entry v')) fun _ => ?_
    rw [hlike.rate, hlike.array]
    refine .ite ?_ (.done _)
    exact .step (erases_complainOf node .notArray name) fun _ => .done _
  · exact .step (erases_complainOf node .undeclared name) fun _ => .done _

theorem Alike.tableNamed {r : α → α'} (arg : Expr) {f : Option Entry → Checking α}
    {g : Option Entry → Checking α'}
    (hsome : ∀ v v' : Entry, v.Like v' → Erases k r (f (some v)) (g (some v')))
    (hnone : Erases k r (f none) (g none)) :
    Erases k r (tableNamed? c arg >>= f) (tableNamed? c.erase (arg.rename k.name).erase >>= g) := by
  cases arg with
  | name _ x =>
    rw [Expr.rename, Expr.erase, tableNamed?, tableNamed?, bind_assoc, bind_assoc]
    refine .resolved hk x (fun v v' _ hlike => ?_) fun _ => hnone
    rw [pure_bind, pure_bind, hlike.rate]
    split
    · exact hsome v v' hlike
    · exact hnone
  | constant | element | call | binary | unary | conditional => exact hnone

omit hk in
theorem erases_argumentCount (node : Node) (op : CoreOpcode) (count : Nat) :
    Erases k id (argumentCount c node op count)
      (argumentCount c.erase (node.recast k.name) op count) :=
  .ite (.done _) (erases_complain node fun _ => rfl)

omit hk in
theorem erases_callRate (node : Node) (callee : Text) (args : List Rate) :
    Erases k id (callRate c node callee args)
      (callRate c.erase (node.recast k.name) callee args) := by
  rw [callRate, callRate, Context.opcodes_erase]
  cases c.opcodes.lookup callee with
  | none => exact .step (erases_complain node fun _ => rfl) fun _ => .done _
  | some kind => cases kind <;> exact .done _

omit hk in
theorem Alike.signal (p : Path) (node : Node) (rate : Rate) :
    Erases k id (do setSignal p node (.fixed 1) rate; return rate)
      (do setSignal p (node.recast k.name) (.fixed 1) rate; return rate) :=
  .step (erases_setSignal ..) fun _ => .done _

mutual

theorem erases_expr (p : Path) : ∀ e : Expr,
    Erases k id (expr c p e) (expr c.erase p (e.rename k.name).erase)
  | .constant _ l => .step (erases_setPayload p ..) fun _ => .signal p _ .i
  | .name _ x => .step (erases_identifier hk p _ x) fun rate => .signal p _ rate
  | .element _ x index => by
    refine .step (erases_expr _ index) fun indexRate => ?_
    exact .step (erases_arrayName hk p _ x indexRate) fun rate => .signal p _ rate
  | .call _ callee args => by
    rw [Expr.rename, Expr.erase, expr, expr]
    -- Only the number of the arguments is read before they are checked.
    cases CoreOpcode.ofText? callee with
    | some op =>
      rw [Expr.length_eraseAll, Expr.length_renameAll]
      refine .step (erases_argumentCount _ op args.length) fun _ => ?_
      refine .step (erases_arguments callee _ p 0 args) fun rates => ?_
      exact .step (.done (r := id) (Rate.fastest rates)) fun rate => .signal p _ rate
    | none =>
      refine .step (erases_arguments callee _ p 0 args) fun rates => ?_
      exact .step (erases_callRate _ callee rates) fun rate => .signal p _ rate
  | .binary _ _ left right => by
    refine .step (erases_expr _ left) fun _ => .step (erases_expr _ right) fun _ => ?_
    exact .signal p _ _
  | .unary _ _ operand => .step (erases_expr _ operand) fun _ => .signal p _ _
  | .conditional _ guard yes no => by
    refine .step (erases_expr _ guard) fun _ => .step (erases_expr _ yes) fun _ => ?_
    exact .step (erases_expr _ no) fun _ => .signal p _ _

theorem erases_arguments (callee : Text) (table : Option Nat) (p : Path) (i : Nat) :
    ∀ args : List Expr, Erases k id (arguments c callee table p i args)
      (arguments c.erase callee table p i (Expr.eraseAll (Expr.renameAll k.name args)))
  | [] => .done _
  | arg :: args => by
    have hrest := erases_arguments callee table p (i + 1) args
    refine .ite (.tableNamed hk arg (fun v v' hlike => ?_) ?_) ?_
    · dsimp only
      rw [hlike.width]
      refine .step (erases_setSignal (i :: p) (.expr arg) v.width .table) fun _ => ?_
      exact .step (erases_setPayload (i :: p) (.expr arg) ..) fun _ => hrest
    · refine .step (erases_complain (.expr arg) fun _ => rfl) fun _ => ?_
      exact .step (erases_expr _ arg) fun _ => hrest
    · exact .step (erases_expr _ arg) fun _ => .step hrest fun _ => .done _

end

theorem erases_exprs (p : Path) (i : Nat) (es : List Expr) :
    Erases k id (exprs c p i es)
      (exprs c.erase p i (Expr.eraseAll (Expr.renameAll k.name es))) := by
  induction es generalizing i with
  | nil => exact .done _
  | cons e es ih => exact .step (erases_expr hk _ e) fun _ => .step (ih (i + 1)) fun _ => .done _

/-! ### Statements -/

omit hk in
theorem rel_ite {R : α → α' → Prop} {p : Prop} [Decidable p] {x y : Option α} {x' y' : Option α'}
    (hx : Option.Rel R x x') (hy : Option.Rel R y y') :
    Option.Rel R (if p then x else y) (if p then x' else y') := by
  split
  · exact hx
  · exact hy

omit hk in
theorem assignFault?_recast (stmt : Stmt) (t : Target) {v v' : Entry} (hlike : v.Like v')
    (value index : Rate) :
    Option.Rel (fun f f' => f'.1 = f.1.recast k.name ∧ (k.Exact → f'.2 = f.2))
      (assignFault? stmt t v value index)
      (assignFault? (stmt.rename k.name).erase (t.rename k.name).erase v' value index) := by
  obtain ⟨span, ident, index?⟩ := t
  simp only [assignFault?, Target.rename, Target.erase, hlike.rate, hlike.array]
  -- The complaint is the same up to the name of the target.
  have hsome (node : Node) {cause cause' : Cause} (hcause : k.Exact → cause' = cause) :
      Option.Rel (fun f f' => f'.1 = f.1.recast k.name ∧ (k.Exact → f'.2 = f.2))
        (some (node, cause)) (some (node.recast k.name, cause')) :=
    .some ⟨rfl, hcause⟩
  refine rel_ite (hsome (.target _) fun hexact => by rw [hexact]) ?_
  cases index? with
  | none =>
    refine rel_ite (hsome (.target _) fun hexact => by rw [hexact]) (rel_ite ?_ .none)
    exact hsome (.stmt stmt) fun hexact => by rw [hexact]
  | some i =>
    refine rel_ite (hsome (.target _) fun hexact => by rw [hexact]) (rel_ite ?_ (rel_ite ?_ .none))
    · exact hsome (.stmt stmt) fun hexact => by rw [hexact]
    · exact hsome (.expr i) fun hexact => by rw [hexact]

theorem erases_targetIndex (p : Path) (t : Target) :
    Erases k id (targetIndex c p t) (targetIndex c.erase p (t.rename k.name).erase) := by
  obtain ⟨span, ident, index?⟩ := t
  cases index? with
  | none => exact .done _
  | some i => exact erases_expr hk _ i

theorem erases_target (p : Path) (stmt : Stmt) (t : Target) (value : Rate) :
    Erases k id (target c p stmt t value)
      (target c.erase p (stmt.rename k.name).erase (t.rename k.name).erase value) := by
  refine .step (erases_targetIndex hk p t) fun index =>
    .resolved hk t.ident (fun v v' _ hlike => ?_) fun hstandard => ?_
  · refine .step (erases_setPayload p (.target t) (.entry v) (.entry v')) fun _ => ?_
    have hfault := assignFault?_recast (k := k) stmt t hlike value index
    dsimp only [id]
    rw [hlike.rate]
    generalize assignFault? stmt t v value index = fault at hfault ⊢
    generalize assignFault? (stmt.rename k.name).erase (t.rename k.name).erase v' value index =
      fault' at hfault ⊢
    cases hfault with
    | @some f f' h =>
      obtain ⟨node, cause⟩ := f
      obtain ⟨node', cause'⟩ := f'
      obtain ⟨rfl, hcause⟩ := h
      exact .step (erases_complain node hcause) fun _ => .signal p (.target t) _
    | none => exact .signal p (.target t) _
  · dsimp only [Target.rename, Target.erase]
    rw [hstandard]
    cases StandardName.ofText? t.ident with
    | some _ =>
      exact .step (erases_complainOf (.target t) .assignStandard t.ident) fun _ =>
        .signal p (.target t) value
    | none =>
      exact .step (erases_complainOf (.target t) .undeclared t.ident) fun _ =>
        .signal p (.target t) value

omit hk in
theorem erases_requireInstrument (stmt : Stmt) (what : Keyword) :
    Erases k id (requireInstrument c stmt what)
      (requireInstrument c.erase (stmt.rename k.name).erase what) :=
  .ite (.done _) (erases_complain (.stmt stmt) fun _ => rfl)

omit hk in
theorem erases_outputWidth (stmt : Stmt) (count : Nat) :
    Erases k id (outputWidth c stmt count)
      (outputWidth c.erase (stmt.rename k.name).erase count) := by
  have hempty : Erases k id (if count = 0 then complain c (.stmt stmt) .emptyOutput else pure ())
      (if count = 0 then complain c.erase (.stmt (stmt.rename k.name).erase) .emptyOutput
        else pure ()) :=
    .ite (erases_complain (.stmt stmt) fun _ => rfl) (.done _)
  rw [outputWidth, outputWidth, Context.settings_erase]
  cases c.settings with
  | none => exact hempty
  | some s => exact .ite hempty (.step (erases_complain (.stmt stmt) fun _ => rfl) fun _ => hempty)

end Statements

mutual

theorem erases_stmt (hk : k.Reads c.globals) (p : Path) : ∀ s : Stmt,
    Erases k id (stmt c p s) (stmt c.erase p (s.rename k.name).erase)
  | .assign _ t value => by
    refine .step (erases_expr hk _ value) fun valueRate => ?_
    exact .step (erases_target hk _ _ t valueRate) fun rate => .signal p _ rate
  | .eval _ value => .step (erases_expr hk _ value) fun rate => .signal p _ rate
  | .ifThen _ guard body | .loop _ guard body => by
    refine .step (erases_expr hk _ guard) fun _ => .step (erases_stmts hk _ 0 body) fun _ => ?_
    exact .signal p _ _
  | .ifElse _ guard yes no => by
    refine .step (erases_expr hk _ guard) fun _ => .step (erases_stmts hk _ 0 yes) fun _ => ?_
    exact .step (erases_stmts hk _ 0 no) fun _ => .signal p _ _
  | .output _ args => by
    rw [Stmt.rename, Stmt.erase, stmt, stmt, Expr.length_eraseAll, Expr.length_renameAll]
    refine .step (erases_requireInstrument _ .output) fun _ =>
      .step (erases_exprs hk p 0 args) fun _ => ?_
    exact .step (erases_outputWidth _ args.length) fun _ => .signal p _ .a
  | .extend _ seconds => by
    refine .step (erases_requireInstrument _ .extend) fun _ =>
      .step (erases_expr hk _ seconds) fun _ => ?_
    exact .signal p _ _
  | .turnoff _ => .step (erases_requireInstrument _ .turnoff) fun _ => .signal p _ .k
  | .ret _ values => by
    refine .ite ?_ (.step (erases_complain _ fun _ => rfl) fun _ => ?_)
    · exact .step (erases_exprs hk p 0 values) fun _ => .signal p _ _
    · exact .step (erases_exprs hk p 0 values) fun _ => .signal p _ _

theorem erases_stmts (hk : k.Reads c.globals) (p : Path) (i : Nat) :
    ∀ ss : List Stmt, Erases k id (stmts c p i ss)
      (stmts c.erase p i (Stmt.eraseAll (Stmt.renameAll k.name ss)))
  | [] => .done _
  | s :: ss =>
    .step (erases_stmt hk _ s) fun _ => .step (erases_stmts hk p (i + 1) ss) fun _ => .done _

end

/-! ### Declarations -/

theorem erases_param (p : Path) {x : InstrumentParam} (hx : k.Takes false x.ident) :
    Erases k id (param c p x) (param c.erase p (x.rename k.name).erase) := by
  refine .step (erases_declareOnce x.node (e := x.entry) hx) fun _ => ?_
  exact .step (erases_setSignal p x.node _ _) fun _ => erases_setPayload p x.node ..

theorem erases_params (p : Path) (i : Nat) {xs : List InstrumentParam}
    (hxs : ∀ x ∈ xs, k.Takes false x.ident) :
    Erases k id (params c p i xs)
      (params c.erase p i
        ((xs.map (InstrumentParam.rename k.name)).map InstrumentParam.erase)) := by
  induction xs generalizing i with
  | nil => exact .done _
  | cons x xs ih =>
    rw [forall_mem_cons] at hxs
    exact .step (erases_param _ hxs.1) fun _ => ih (i + 1) hxs.2

theorem erases_tags (p : Path) (t : Option Tags) :
    Erases k id (tags p t) (tags p (t.map Tags.erase)) := by
  cases t with
  | none => exact .done _
  | some t => exact erases_setPayload p (.tags t) ..

theorem erases_effectiveTags (t : Option Tags) :
    Erases k id (effectiveTags c t) (effectiveTags c.erase (t.map Tags.erase)) := by
  cases t with
  | none => exact .done _
  | some t =>
    exact .ite (.step (erases_complain (.tags t) fun _ => rfl) fun _ => .done _) (.done _)

theorem any_of_effectiveTags {t : Option Tags} {flags : Bool × Bool} {s s' : State}
    (h : effectiveTags c t s = .ok flags s') (hflags : (flags.1 || flags.2) = true) :
    (t.any Tags.imports || t.any Tags.exports) = true := by
  cases t with
  | none =>
    cases h
    cases hflags
  | some t =>
    rw [effectiveTags] at h
    split at h
    · obtain ⟨_, _, -, h⟩ := exists_of_run_bind_eq_ok h
      cases h
      cases hflags
    · cases h
      exact hflags

theorem erases_declaredName (p : Path) (n : DeclaredName) :
    Erases k (Entry.recast k) (declaredName c p n)
      (declaredName c.erase p (n.rename k.name).erase) := by
  have hname : Erases k (Entry.recast k) (do
        setSignal p (.declared n) n.entry.width .unknown
        setPayload p (.declared n) (.entry n.entry)
        return n.entry)
      (do
        setSignal p ((Node.declared n).recast k.name) n.entry.width .unknown
        setPayload p ((Node.declared n).recast k.name) (.entry (n.entry.recast k))
        return n.entry.recast k) :=
    .step (erases_setSignal p (.declared n) _ _) fun _ =>
      .step (erases_setPayload p (.declared n) ..) fun _ => .done n.entry
  exact .ite (.step (erases_complainOf (.declared n) .badArraySize n.ident) fun _ => hname) hname

theorem erases_declaredNames (p : Path) (i : Nat) (ns : List DeclaredName) :
    Erases k (List.map (Entry.recast k)) (declaredNames c p i ns)
      (declaredNames c.erase p i
        ((ns.map (DeclaredName.rename k.name)).map DeclaredName.erase)) := by
  induction ns generalizing i with
  | nil => exact .done []
  | cons n ns ih =>
    exact .step (erases_declaredName _ n) fun e => .step (ih (i + 1)) fun es => .done (e :: es)

theorem erases_nameList (p : Path) (l : NameList) :
    Erases k (List.map (Entry.recast k)) (nameList c p l)
      (nameList c.erase p (l.rename k.name).erase) := by
  refine .step (erases_declaredNames p 0 l.names) fun names => ?_
  exact .step (erases_setPayload p (.names l) ..) fun _ => .done names

theorem tagFault?_erase (c : Context) (e : Entry) : tagFault? c.erase e.erase = tagFault? c e := by
  rw [tagFault?, tagFault?, Entry.ident_erase, Context.erase, lookup?_globals_erase]
  cases c.globals.bind (·.lookup? e.ident) <;> rfl

theorem tableTagFault?_erase (c : Context) (e : Entry) :
    tableTagFault? c.erase e.erase = tableTagFault? c e := by
  rw [tableTagFault?, tableTagFault?, Entry.ident_erase, Context.erase, lookup?_globals_erase]
  cases c.globals.bind (·.lookup? e.ident) <;> rfl

theorem erases_tagFault (node : Node) {fault : Context → Entry → Option Cause}
    (hfault : ∀ e, fault c.erase e.erase = fault c e) {e : Entry}
    (he : k.Takes e.isTagged e.ident) :
    Erases k id (complainIf c node (if e.isTagged then fault c e else none))
      (complainIf c.erase (node.recast k.name)
        (if (e.recast k).isTagged then fault c.erase (e.recast k) else none)) := by
  refine erases_complainIf node ?_
  change Option.Rel _ _ (if e.isTagged = true then fault c.erase (e.recast k) else none)
  split
  next htagged =>
    rw [Entry.recast_of_fixed (he.fixed htagged), hfault]
    cases fault c e with
    | none => exact .none
    | some cause => exact .some fun _ => rfl
  next => exact .none

theorem erases_declareAll (d : VariableDecl) {es : List Entry}
    (hes : ∀ e ∈ es, k.Takes e.isTagged e.ident) :
    Erases k (List.map (Entry.recast k)) (declareAll c d es)
      (declareAll c.erase (d.rename k.name).erase (es.map (Entry.recast k))) := by
  induction es with
  | nil => exact .done []
  | cons e es ih =>
    rw [forall_mem_cons] at hes
    refine .step (erases_tagFault (.vars d) (tagFault?_erase c) hes.1) fun _ =>
      .step (erases_declare hes.1) fun free => .ite ?_ ?_
    · exact .step (ih hes.2) fun others => .done (e :: others)
    · exact .step (erases_complainOf (.vars d) .duplicateVariable e.ident) fun _ => ih hes.2

theorem erases_variableDecl (p : Path) {d : VariableDecl}
    (hd : ∀ e ∈ d.entries, k.Takes e.isTagged e.ident) :
    Erases k id (variableDecl c p d) (variableDecl c.erase p (d.rename k.name).erase) := by
  have hidents (names : List Entry) (hexact : k.Exact) :
      (names.map (Entry.recast k)).map Entry.ident = names.map Entry.ident := by
    rw [map_map]
    exact map_congr_left fun e _ => hexact e.ident
  have hdeclared (names : List Entry) (rate : Rate) (imports exports : Bool) :
      (names.map (Entry.recast k)).map (fun e => { e with rate, imports, exports }) =
        (names.map fun e => { e with rate, imports, exports }).map (Entry.recast k) := by
    rw [map_map, map_map]
    rfl
  refine .step (erases_tags _ d.tags) fun _ =>
    .step (erases_setSignal _ (.type d.type) _ _) fun _ => ?_
  refine .next (erases_nameList _ d.names) fun names ⟨_, _, hnames⟩ => ?_
  -- What follows the test of the type is the same whether the test has complained or not.
  have hdeclare (flags : Bool × Bool) {s s' : State}
      (hflags : effectiveTags c d.tags s = .ok flags s') :
      Erases k id
        (do
          let declared ← declareAll c d <| names.map fun e =>
            { e with rate := d.type.type.rate, imports := flags.1, exports := flags.2 }
          setPayload p (.vars d) (.entries declared))
        (do
          let declared ← declareAll c.erase (d.rename k.name).erase <|
            (names.map (Entry.recast k)).map fun e =>
              { e with rate := d.type.type.rate, imports := flags.1, exports := flags.2 }
          setPayload p ((Node.vars d).recast k.name) (.entries declared)) := by
    rw [hdeclared]
    refine .step (erases_declareAll d fun e he => ?_) fun declared =>
      erases_setPayload p (.vars d) ..
    rw [entries_of_nameList_eq_ok hnames, map_map] at he
    obtain ⟨n, hn, rfl⟩ := mem_map.1 he
    have htakes := hd _ (mem_map_of_mem hn)
    exact ⟨htakes.fits, fun htagged => htakes.fixed (any_of_effectiveTags hflags htagged)⟩
  refine .ite ?_ (.step (erases_abandon (r := id) (.vars d) fun hexact => ?_) fun _ => ?_)
  · exact .next (erases_effectiveTags d.tags) fun flags ⟨_, _, hflags⟩ => hdeclare flags hflags
  · rw [hidents names hexact]
    rfl
  · exact .next (erases_effectiveTags d.tags) fun flags ⟨_, _, hflags⟩ => hdeclare flags hflags

theorem erases_constant (p : Path) (e : Expr) (he : e.constant?.isSome = true) :
    Erases k id (expr c p e) (expr c.erase p (e.rename k.name).erase) := by
  revert p
  refine constant_induction ?_ ?_ e he
  · exact fun s l p => .step (erases_setPayload p ..) fun _ => .signal p _ .i
  · exact fun s x ih p => .step (ih _) fun _ => .signal p _ _

/-- The arguments of a table can be read, or they are constants. -/
def ReadsArguments (k : Casting) (c : Context) (args : List Expr) : Prop :=
  k.Reads c.globals ∨ ∀ arg ∈ args, arg.constant?.isSome = true

theorem erases_tableArguments (table : Text) (p : Path) (i : Nat) {args : List Expr}
    (hargs : ReadsArguments k c args) :
    Erases k id (tableArguments c table p i args)
      (tableArguments c.erase (k.name table) p i (Expr.eraseAll (Expr.renameAll k.name args))) := by
  induction args generalizing i with
  | nil => exact .done _
  | cons arg args ih =>
    rw [Expr.renameAll, Expr.eraseAll, tableArguments, tableArguments, Expr.constant?_recast]
    have harg : Erases k id (expr c (i :: p) arg)
        (expr c.erase (i :: p) (arg.rename k.name).erase) :=
      hargs.elim (fun hk => erases_expr hk _ arg) fun h =>
      erases_constant _ arg (h arg mem_cons_self)
    have hrest := ih (i + 1) (hargs.imp_right fun h e he => h e (mem_cons_of_mem arg he))
    refine .step harg fun _ => ?_
    cases arg.constant? with
    | some v => exact .step hrest fun _ => .done _
    | none =>
      exact .step (erases_complainOf (.expr arg) (.tableArguments · .notConstant) table)
        fun _ => hrest

theorem tableShape_recast (d : TableDecl) (values : List Float) :
    (tableShape (d.rename k.name).erase values).1 = (tableShape d values).1 ∧
      Option.Rel (fun f f' => k.Exact → f' = f) (tableShape d values).2
        (tableShape (d.rename k.name).erase values).2 := by
  simp only [tableShape, TableDecl.rename, TableDecl.erase, Expr.length_eraseAll,
    Expr.length_renameAll]
  cases Generator.ofText? d.generator with
  | none => exact ⟨rfl, .some fun _ => rfl⟩
  | some g =>
    dsimp only
    split
    next => exact ⟨rfl, .some fun hexact => by rw [hexact]⟩
    next =>
      split
      next =>
        cases values.head?.bind tableSize? with
        | none => exact ⟨rfl, .some fun hexact => by rw [hexact]⟩
        | some size =>
          refine ⟨rfl, ?_⟩
          dsimp only
          cases valuesFault? g values size with
          | none => exact .none
          | some fault => exact .some fun hexact => by rw [hexact]
      next => exact ⟨rfl, .none⟩

theorem erases_table (p : Path) {d : TableDecl} (hd : k.Takes d.entry.isTagged d.ident)
    (hargs : ReadsArguments k c d.args) :
    Erases k id (table c p d) (table c.erase p (d.rename k.name).erase) := by
  refine .step (erases_tags _ d.tags) fun _ =>
    .next (erases_effectiveTags d.tags) fun flags ⟨_, _, hflags⟩ => ?_
  refine .step (erases_tableArguments d.ident _ 0 hargs) fun values => ?_
  obtain ⟨hsize, hfault⟩ := tableShape_recast (k := k) d values
  -- The table as it is declared; the other tree declares `e.recast k`.
  let e : Entry :=
    { ident := d.ident, width := .fixed (tableShape d values).1, rate := .table, array := true
      imports := flags.1, exports := flags.2, place := d.span.start }
  have he : k.Takes e.isTagged e.ident :=
    ⟨hd.fits, fun htagged => hd.fixed (any_of_effectiveTags hflags htagged)⟩
  dsimp only [id]
  rw [hsize]
  exact .step (erases_complainIf (.table d) hfault) fun _ =>
    .step (erases_tagFault (.table d) (tableTagFault?_erase c) he) fun _ =>
      .step (erases_declareOnce (.table d) he) fun _ =>
        .step (erases_setSignal p (.table d) _ _) fun _ => erases_setPayload p (.table d) ..

/-- All that a declaration mentions can be declared or read. -/
structure Takes (k : Casting) (c : Context) (d : Decl) : Prop where
  entries : ∀ e ∈ d.entries, k.Takes e.isTagged e.ident
  args : ∀ t, d = .table t → ReadsArguments k c t.args

theorem takes_same (d : Decl) : Takes .same c d :=
  ⟨fun _ _ => Casting.takes_same .., fun _ _ => .inl (Casting.reads_same _)⟩

theorem erases_decl (p : Path) {d : Decl} (hd : Takes k c d) :
    Erases k id (decl c p d) (decl c.erase p (d.rename k.name).erase) := by
  cases d with
  | vars d => exact erases_variableDecl p hd.entries
  | table d => exact erases_table p (hd.entries d.entry mem_cons_self) (hd.args d rfl)

theorem erases_decls (p : Path) (i : Nat) {ds : List Decl} (hds : ∀ d ∈ ds, Takes k c d) :
    Erases k id (decls c p i ds)
      (decls c.erase p i ((ds.map (Decl.rename k.name)).map Decl.erase)) := by
  induction ds generalizing i with
  | nil => exact .done _
  | cons d ds ih =>
    rw [forall_mem_cons] at hds
    exact .step (erases_decl _ hds.1) fun _ => ih (i + 1) hds.2

theorem erases_opcodeParams (p : Path) (i : Nat) (ds : List VariableDecl) :
    Erases .same id (opcodeParams c p i ds)
      (opcodeParams c.erase p i (ds.map VariableDecl.erase)) := by
  induction ds generalizing i with
  | nil => exact .done _
  | cons d ds ih =>
    have hd := erases_variableDecl (k := .same) (c := c) (i :: p) (d := d) fun _ _ =>
      Casting.takes_same ..
    rw [show Casting.same.name = id from rfl, VariableDecl.rename_id] at hd
    exact .step hd fun _ => ih (i + 1)

theorem erases_globalItems (p : Path) (i : Nat) (items : List GlobalItem) :
    Erases .same id (globalItems c p i items)
      (globalItems c.erase p i (items.map GlobalItem.erase)) := by
  induction items generalizing i with
  | nil => exact .done _
  | cons item items ih =>
    cases item with
    | setting s => exact ih (i + 1)
    | decl d =>
      have hd := erases_decl (k := .same) (c := c) (i :: p) (takes_same d)
      rw [show Casting.same.name = id from rfl, Decl.rename_id] at hd
      exact .step hd fun _ => ih (i + 1)

end Check

/-! ### Units -/

/-- What the units are checked against, without the places of declarations. -/
def Surroundings.erase (s : Surroundings) : Surroundings := { s with globals := s.globals.erase }

/-- A checked unit is another one without places and with other names. -/
structure CheckedUnit.Recasts (k : Casting) (u v : CheckedUnit) : Prop where
  label : v.label = u.label
  locals : v.locals = u.locals.recast k
  attributes : u.attributes.Erases v.attributes

namespace CheckedUnit

/-- A checked unit is another one without places. -/
structure Erases (u v : CheckedUnit) : Prop where
  recasts : u.Recasts .same v
  errors : v.errors = u.errors.map Diagnostic.erase

theorem Erases.locals {u v : CheckedUnit} (h : u.Erases v) : v.locals = u.locals.erase := by
  rw [h.recasts.locals, VariableTable.recast_same]

theorem Recasts.stmtRate_eq {u v : CheckedUnit} (h : u.Recasts k v) (n : Nat) :
    v.stmtRate n = u.stmtRate n := by
  rw [stmtRate, stmtRate, Attributes.rate, Attributes.rate, Attribute.rate, Attribute.rate,
    h.attributes.signal]

theorem erases_ofCheck (label : UnitLabel) {x y : Check.Checking Unit}
    (h : Check.Erases .same id x y) :
    Together SetTwice.erase Erases (ofCheck label x) (ofCheck label y) := by
  have hends := h.of_run {} {} (Check.State.erases_empty trivial)
  rw [ofCheck, ofCheck, EStateM.run, EStateM.run]
  generalize x {} = xs at hends ⊢
  generalize y {} = ys at hends ⊢
  cases hends with
  | ok a h => exact .ok ⟨⟨rfl, h.locals, h.attributes⟩, h.errors Casting.exact_same⟩
  | error e h =>
    -- What an abandoned check has found out is kept, so it is compared like that of a whole one.
    cases e with
    | abandoned => exact .ok ⟨⟨rfl, h.locals, h.attributes⟩, h.errors Casting.exact_same⟩
    | setTwice fault => exact .error fault

theorem erases_ofGlobal (b : GlobalBlock) :
    Together SetTwice.erase Erases (ofGlobal b) (ofGlobal b.erase) :=
  erases_ofCheck .global (Check.erases_globalItems [] 0 b.items)

theorem erases_body (c : Check.Context) (ds : List Decl) (ss : List Stmt) :
    Check.Erases .same id
      (do Check.decls c [1] 0 ds; let _ ← Check.stmts c [2] 0 ss)
      (do Check.decls c.erase [1] 0 (ds.map Decl.erase)
          let _ ← Check.stmts c.erase [2] 0 (Stmt.eraseAll ss)) := by
  have hdecls := Check.erases_decls (k := .same) (c := c) [1] 0 fun d (_ : d ∈ ds) =>
      Check.takes_same d
  have hstmts := Check.erases_stmts (Casting.reads_same c.globals) [2] 0 ss
  rw [show Casting.same.name = id from rfl, funext Decl.rename_id, map_id'] at hdecls
  rw [show Casting.same.name = id from rfl, Stmt.renameAll_id] at hstmts
  exact .step hdecls fun _ => .step hstmts fun _ => .done _

theorem erases_ofInstrument (s : Surroundings) (keyword : Keyword) (i : Instrument) :
    Together SetTwice.erase Erases (ofInstrument s keyword i)
      (ofInstrument s.erase keyword i.erase) := by
  have hparams := Check.erases_params (k := .same)
    (c := s.context .instrument (.named keyword i.ident)) [0] 0
    fun x (_ : x ∈ i.params) => Casting.takes_same false x.ident
  rw [show InstrumentParam.rename Casting.same.name = id from rfl, map_id] at hparams
  exact erases_ofCheck _ <| .step hparams fun _ => erases_body _ i.decls i.body

theorem erases_ofOpcode (s : Surroundings) (o : Opcode) :
    Together SetTwice.erase Erases (ofOpcode s o) (ofOpcode s.erase o.erase) :=
  erases_ofCheck _ <| .step (Check.erases_opcodeParams _ 0 o.params) fun _ =>
    erases_body _ o.decls o.body

end CheckedUnit

end Orchestrion
