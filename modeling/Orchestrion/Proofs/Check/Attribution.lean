import Orchestrion.Proofs.Check.Shared
import Orchestrion.Proofs.Check.Table

/-!
# Nodes with attributes

In a unit without complaints every expression, statement and target has a width and a rate, and
every name that stands for a variable carries the entry of that variable.
-/

namespace Orchestrion

open List

/-! ### What a node has to carry -/

/-- Whether the node is an expression, a statement or a target. -/
def Node.isRated : Node → Bool
  | .expr _ | .stmt _ | .target _ => true
  | _ => false

def Node.reference? : Node → Option Text
  | .expr (.name _ x) | .expr (.element _ x _) => some x
  | .target t => some t.ident
  | _ => none

/-- The payload is the entry of the variable that a name stands for, if it stands for one. -/
def Attribute.Carries (σ : Scope) (x : Text) (a : Attribute) : Prop :=
  ∀ v isGlobal, σ.resolve? x = some (v, isGlobal) → a.payload = some (.entry v)

theorem Attribute.Carries.of_payload {σ : Scope} {x : Text} {a : Attribute} {v : Entry}
    {isGlobal : Bool} (h : a.payload = some (.entry v)) (hx : σ.resolve? x = some (v, isGlobal)) :
    a.Carries σ x := by
  intro v' isGlobal' hv'
  rw [hx] at hv'
  cases hv'
  exact h

namespace Node

/-- What is known about a node is complete: it has a rate if it is one of the nodes that have rates,
and the entry of the variable that it refers to. -/
structure Annotated (σ : Scope) (a : Attribute) (n : Node) : Prop where
  rated : n.isRated = true → a.signal.isSome = true
  resolved : ∀ x v isGlobal, n.reference? = some x → σ.resolve? x = some (v, isGlobal) →
    a.entry? = some v

variable {σ : Scope} {a : Attribute} {n : Node}

theorem Annotated.of_signal {signal : Width × Rate} (ha : a.signal = some signal)
    (hn : n.reference? = none) : n.Annotated σ a where
  rated _ := by rw [ha]; rfl
  resolved x v isGlobal hx := by
    rw [hn] at hx
    cases hx

theorem Annotated.of_carries {signal : Width × Rate} {x : Text} (ha : a.signal = some signal)
    (hn : n.reference? = some x) (hx : a.Carries σ x) : n.Annotated σ a where
  rated _ := by rw [ha]; rfl
  resolved x' v isGlobal hx' hv := by
    rw [hn] at hx'
    cases hx'
    rw [Attribute.entry?, hx v isGlobal hv]

theorem Annotated.of_unrated (hn : n.isRated = false) : n.Annotated σ a where
  rated h := absurd h (by simp [hn])
  resolved x v isGlobal hx := by
    cases n with
    | expr | stmt | target => cases hn
    | _ => cases hx

end Node

namespace Attributes

/-- What the table says of each of the nodes is complete. -/
def Annotates (as : Attributes) (σ : Scope) (nodes : List (Path × Node)) : Prop :=
  ∀ n ∈ nodes, n.2.Annotated σ (as.get n.1)

section Annotates

variable {as : Attributes} {σ : Scope} {nodes others : List (Path × Node)}

theorem Annotates.nil : as.Annotates σ [] := forall_mem_nil _

theorem Annotates.append (h : as.Annotates σ nodes) (h' : as.Annotates σ others) :
    as.Annotates σ (nodes ++ others) :=
  forall_mem_append.2 ⟨h, h'⟩

theorem Annotates.before {p : Path} {n : Node} (hn : n.Annotated σ (as.get p))
    (h : as.Annotates σ nodes) : as.Annotates σ (Node.before (fun _ => true) p n nodes) :=
  forall_mem_cons.2 ⟨hn, h⟩

theorem Annotates.of_no_reference (h : as.Annotates σ nodes)
    (hnone : ∀ n ∈ nodes, n.2.reference? = none) (σ' : Scope) : as.Annotates σ' nodes := by
  intro n hn
  refine ⟨(h n hn).rated, fun x v isGlobal hx => ?_⟩
  rw [hnone n hn] at hx
  cases hx

theorem annotates_tags (as : Attributes) (σ : Scope) (tags : Option Tags) (p : Path) :
    as.Annotates σ (Tags.walk (fun _ => true) p tags) := by
  cases tags with
  | none => exact .nil
  | some t => exact .before (.of_unrated rfl) .nil

theorem annotates_variableDecl (as : Attributes) (σ : Scope) (d : VariableDecl) (p : Path) :
    as.Annotates σ (d.walk (fun _ => true) p) := by
  have hnames : as.Annotates σ (walkList (2 :: p)
      (fun p n => Node.before (fun _ => true) p (.declared n) []) d.names.names) := by
    intro n hn
    obtain ⟨x, -, hx⟩ := mem_flatMap.1 hn
    exact Annotates.before (.of_unrated rfl) .nil n hx
  have htype : as.Annotates σ (Node.before (fun _ => true) (1 :: p) (.type d.type) []) :=
    .before (.of_unrated rfl) .nil
  refine .before (.of_unrated rfl) (.append (.append (annotates_tags as σ d.tags _) htype) ?_)
  exact .before (.of_unrated rfl) hnames

end Annotates

end Attributes

theorem Expr.reference?_of_constant? {e : Expr} (h : e.constant?.isSome = true) (p : Path) :
    ∀ n ∈ e.walk (fun _ => true) p, n.2.reference? = none := by
  revert p
  refine Check.constant_induction ?_ ?_ e h
  · exact fun _ _ _ => forall_mem_singleton.2 rfl
  · exact fun _ _ ih p => forall_mem_cons.2 ⟨rfl, ih (0 :: p)⟩

theorem Scope.resolve?_of_mem {σ : Scope} {e : Entry} (he : e ∈ σ.locals.entries)
    (hlocals : σ.locals.Aligned) : σ.resolve? e.ident = some (e, false) := by
  rw [resolve?, hlocals.lookup?_of_mem he]

namespace Check

section Rules

variable {σ : Scope} {as : Attributes} {kind : UnitKind} {p : Path}

theorem Seen.carries {x : Text} {v : Entry} {isGlobal : Bool} (h : Seen σ as p x v isGlobal) :
    (as.get p).Carries σ x := .of_payload h.payload h.resolve

/-! ### Expressions -/

mutual

theorem ExprRated.annotates : ∀ {e : Expr} {p : Path} {r : Rate}, ExprRated σ as p e r →
    as.Annotates σ (e.walk (fun _ => true) p)
  | .constant _ _, _, _, h => .before (.of_signal h.1 rfl) .nil
  | .name _ x, p, _, h => by
    refine .before (.of_carries h.1 rfl ?_) .nil
    obtain ⟨-, ⟨v, isGlobal, hx, -⟩ | ⟨hx, -⟩⟩ := h
    · exact hx.carries
    · -- A standard name stands for no variable, so there is nothing to carry.
      intro v isGlobal hv
      rw [hx] at hv
      cases hv
  | .element _ x index, _, _, h => by
    obtain ⟨hset, v, isGlobal, r₁, hx, -, -, hindex, -⟩ := h
    exact .before (.of_carries hset rfl hx.carries) hindex.annotates
  | .call _ callee args, _, _, h => by
    obtain ⟨hset, rates, hargs, -⟩ := h
    exact .before (.of_signal hset rfl) hargs.annotates
  | .binary _ _ left right, _, _, h => by
    obtain ⟨hset, r₁, r₂, hleft, hright, -⟩ := h
    exact .before (.of_signal hset rfl) (hleft.annotates.append hright.annotates)
  | .unary _ _ operand, _, _, h => by
    obtain ⟨hset, r₁, hoperand, -⟩ := h
    exact .before (.of_signal hset rfl) hoperand.annotates
  | .conditional _ guard yes no, _, _, h => by
    obtain ⟨hset, r₁, r₂, r₃, hguard, hyes, hno, -⟩ := h
    exact .before (.of_signal hset rfl)
      ((hguard.annotates.append hyes.annotates).append hno.annotates)

theorem ArgsRated.annotates : ∀ {args : List Expr} {table : Option Nat} {p : Path} {i : Nat}
    {rates : List Rate}, ArgsRated σ as table p i args rates →
    as.Annotates σ (Expr.walkAll (fun _ => true) p i args)
  | [], _, _, _, _, _ => .nil
  | arg :: args, _, _, _, _, h => by
    rw [ArgsRated] at h
    split at h
    · -- The argument is a name, so that it has no nodes but itself.
      obtain ⟨⟨span, x, v, isGlobal, rfl, hx, -, hset⟩, hargs⟩ := h
      exact .append (.before (.of_carries hset rfl hx.carries) .nil) hargs.annotates
    · obtain ⟨r, others, harg, hargs, -⟩ := h
      exact .append harg.annotates hargs.annotates

end

/-! ### Statements -/

theorem TargetRated.annotates {stmt : Stmt} {t : Target} {value r : Rate}
    (h : TargetRated σ as p stmt t value r) : as.Annotates σ (t.walk (fun _ => true) p) := by
  obtain ⟨hset, v, isGlobal, index, hx, hindex, -⟩ := h
  refine .before (.of_carries hset rfl hx.carries) ?_
  split
  next e he => exact (hindex e he).annotates
  next => exact .nil

mutual

theorem StmtRated.annotates : ∀ {s : Stmt} {p : Path} {r : Rate}, StmtRated σ as kind p s r →
    as.Annotates σ (s.walk (fun _ => true) p)
  | .assign _ t value, _, _, h => by
    obtain ⟨hset, v, hvalue, ht⟩ := h
    exact .before (.of_signal hset rfl) (ht.annotates.append hvalue.annotates)
  | .eval _ value, _, _, h => .before (.of_signal h.1 rfl) h.2.annotates
  | .ifThen _ guard body, _, _, h | .loop _ guard body, _, _, h => by
    obtain ⟨hset, r₁, rs, hguard, hbody, -⟩ := h
    exact .before (.of_signal hset rfl) (hguard.annotates.append hbody.annotates)
  | .ifElse _ guard yes no, _, _, h => by
    obtain ⟨hset, r₁, rs, ss, hguard, hyes, hno, -⟩ := h
    exact .before (.of_signal hset rfl)
      ((hguard.annotates.append hyes.annotates).append hno.annotates)
  | .output _ args, _, _, h => by
    obtain ⟨hset, ⟨rates, hargs⟩, -⟩ := h
    exact .before (.of_signal hset rfl) hargs.annotates
  | .extend _ seconds, _, _, h => by
    obtain ⟨hset, r₁, hseconds, -⟩ := h
    exact .before (.of_signal hset rfl) hseconds.annotates
  | .turnoff _, _, _, h => .before (.of_signal h.1 rfl) .nil
  | .ret _ values, _, _, h => by
    obtain ⟨hset, -, rates, hvalues, -⟩ := h
    exact .before (.of_signal hset rfl) hvalues.annotates

theorem StmtsRated.annotates : ∀ {ss : List Stmt} {p : Path} {i : Nat} {rates : List Rate},
    StmtsRated σ as kind p i ss rates → as.Annotates σ (Stmt.walkAll (fun _ => true) p i ss)
  | [], _, _, _, _ => .nil
  | s :: ss, _, _, _, h => by
    obtain ⟨r, others, hs, hss, -⟩ := h
    exact hs.annotates.append hss.annotates

end

end Rules

/-! ### Declarations -/

theorem AreConstants.annotates {as : Attributes} {p : Path} {i : Nat} {args : List Expr}
    (h : AreConstants as p i args) (σ : Scope) :
    as.Annotates σ (Expr.walkAll (fun _ => true) p i args) := by
  induction args generalizing i with
  | nil => exact .nil
  | cons arg args ih =>
    obtain ⟨⟨hconstant, σ', r, harg⟩, hargs⟩ := forall_mem_cons.1 h
    have hnone := Expr.reference?_of_constant? (Option.isSome_iff_ne_none.2 hconstant)
    exact .append (harg.annotates.of_no_reference (hnone _) σ) (ih hargs)

theorem DeclChecked.annotates {c : Context} {as : Attributes} {p : Path} {d : Decl}
    (h : DeclChecked c as p d) (σ : Scope) : as.Annotates σ (d.walk (fun _ => true) p) := by
  cases d with
  | vars d => exact as.annotates_variableDecl σ d p
  | table d =>
    exact .before (.of_unrated rfl)
      (.append (as.annotates_tags σ d.tags _) ((h.table d rfl).2.annotates σ))

theorem annotates_decls {c : Context} {as : Attributes} {p : Path} {ds : List Decl}
    (h : ∀ x ∈ ds.zipIdx, DeclChecked c as (x.2 :: p) x.1) (σ : Scope) :
    as.Annotates σ (walkList p (Decl.walk fun _ => true) ds) := by
  intro n hn
  obtain ⟨x, hx, hn⟩ := mem_flatMap.1 hn
  exact (h x hx).annotates σ n hn

theorem annotates_params {as : Attributes} {p : Path} {ps : List InstrumentParam}
    (h : ∀ x ∈ ps.zipIdx, Labelled as (x.2 :: p) x.1.entry) {σ : Scope}
    (hps : ps.map InstrumentParam.entry ⊆ σ.locals.entries) (hlocals : σ.locals.Aligned) :
    as.Annotates σ (walkList p (fun p q => Node.before (fun _ => true) p q.node []) ps) := by
  intro n hn
  obtain ⟨x, hx, hn⟩ := mem_flatMap.1 hn
  have hmem : x.1.entry ∈ σ.locals.entries :=
    hps (mem_map_of_mem (fst_mem_of_mem_zipIdx hx))
  refine Attributes.Annotates.before (.of_carries (h x hx).signal rfl ?_) .nil n hn
  exact .of_payload (h x hx).payload (Scope.resolve?_of_mem hmem hlocals)

end Check

/-! ### Units -/

namespace Item

open Check

theorem checks_check (s : Surroundings) (item : Item) :
    ∃ kind, Checks kind [] .univ (item.check s []) := by
  cases item with
  | global b => exact ⟨_, CheckedUnit.checks_globalBlock _ b⟩
  | instrument i | template i => exact ⟨_, (declLaws_checks _).instrument i []⟩
  | opcode o => exact ⟨_, (declLaws_checks _).opcode o []⟩

/-- The variables that an item sees, its own among them. -/
def scope (s : Surroundings) (locals : VariableTable) : Item → Scope
  | global _ => ⟨locals, none⟩
  | _ => ⟨locals, some s.globals⟩

theorem annotates_of_ofCheck {s : Surroundings} {item : Item} {u : CheckedUnit}
    (h : CheckedUnit.ofCheck item.label (item.check s []) = .ok u) (hclean : u.errors = []) :
    u.attributes.Annotates (item.scope s u.locals) (item.walk (fun _ => true) []) := by
  obtain ⟨kind, hchecks⟩ := item.checks_check s
  obtain ⟨u', hu', hbuilt, -, hspec⟩ := CheckedUnit.ofCheck_spec hchecks
  obtain rfl : u' = u := Except.ok.inj (hu'.symm.trans h)
  obtain ⟨t, hrun, ht, hlocals, hattributes⟩ := hspec hclean
  rw [hlocals] at hbuilt ⊢
  rw [hattributes]
  cases item with
  | global b =>
    obtain ⟨_, -, hfound⟩ := (((declLaws_adds _).globalItems 0 b.items []).of_ok {} () t hrun).2 ht
    refine .before (.of_unrated rfl) fun n hn => ?_
    obtain ⟨⟨item, k⟩, hitem, hn⟩ := mem_flatMap.1 hn
    cases item with
    | setting s => exact Attributes.Annotates.before (.of_unrated rfl) .nil n hn
    | decl d => exact (hfound _ (.refl _) _ hitem d rfl).annotates _ n hn
  | instrument i | template i =>
    obtain ⟨es, hes, hfound⟩ := (((declLaws_adds _).instrument i []).of_ok {} () t hrun).2 ht
    obtain ⟨rfl, hparams, hdecls⟩ := hfound _ (.refl _)
    -- The body is checked after the parameters and the declarations.
    obtain ⟨_, _, -, hrun⟩ := exists_of_run_bind_eq_ok hrun
    obtain ⟨_, _, -, hrun⟩ := exists_of_run_bind_eq_ok hrun
    obtain ⟨rates, hbody⟩ := exists_stmtsRated hrun ht
    refine .before (.of_unrated rfl)
      (.append (.append ?_ (annotates_decls hdecls _)) hbody.annotates)
    refine annotates_params hparams (hes ▸ ?_) hbuilt.aligned
    exact subset_append_left ..
  | opcode o =>
    obtain ⟨_, -, hfound⟩ := (((declLaws_adds _).opcode o []).of_ok {} () t hrun).2 ht
    obtain ⟨_, _, -, hrun⟩ := exists_of_run_bind_eq_ok hrun
    obtain ⟨_, _, -, hrun⟩ := exists_of_run_bind_eq_ok hrun
    obtain ⟨rates, hbody⟩ := exists_stmtsRated hrun ht
    refine .before (.of_unrated rfl)
      (.append (.append (fun n hn => ?_) (annotates_decls (hfound _ (.refl _)) _)) hbody.annotates)
    obtain ⟨d, -, hd⟩ := mem_flatMap.1 hn
    exact t.attributes.annotates_variableDecl _ d.1 _ n hd

end Item

end Orchestrion
