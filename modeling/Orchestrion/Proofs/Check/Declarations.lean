import Orchestrion.Proofs.Check.Rules
import Orchestrion.Proofs.Number.Sign

/-!
# The rules of declarations

What declarations put into the table of a unit can be told from the tree: parameters and then the
variables of declarations, in the order of the text, unless there are complaints. A table has a
generator and arguments, which are constants. As with expressions and statements, the check is gone
through once, for every statement about its parts that fulfils some laws.
-/

namespace Orchestrion

open List

/-! ### The variables of declarations -/

def InstrumentParam.entry (p : InstrumentParam) : Entry :=
  { ident := p.ident, width := .fixed 1, rate := .i, place := p.span.start }

/-- The variable that a name declares, before it gets the rate and the tags of its declaration. -/
def DeclaredName.entry (n : DeclaredName) : Entry :=
  { ident := n.ident, width := Check.declaredWidth n.shape, rate := .unknown
    array := n.shape ≠ .scalar, place := n.span.start }

/-- The variables that a declaration declares. -/
def VariableDecl.entries (d : VariableDecl) : List Entry :=
  d.names.names.map fun n =>
    { n.entry with
      rate := d.type.type.rate
      imports := d.tags.any Tags.imports
      exports := d.tags.any Tags.exports }

def TableDecl.entry (d : TableDecl) : Entry :=
  { ident := d.ident
    width := .fixed (Check.tableShape d (d.args.filterMap Expr.constant?)).1
    rate := .table, array := true
    imports := d.tags.any Tags.imports, exports := d.tags.any Tags.exports
    place := d.span.start }

/-- The variables that a declaration declares. -/
def Decl.entries : Decl → List Entry
  | .vars d => d.entries
  | .table d => [d.entry]

/-- The variables of an instrument. -/
def Instrument.entries (i : Instrument) : List Entry :=
  i.params.map InstrumentParam.entry ++ i.decls.flatMap Decl.entries

namespace Check

variable {c : Context} {p : Path}

/-! ### Variables that can be declared -/

/-- A variable that a unit puts into its table: it has a size, and a rate that the unit can declare
unless it is a table. -/
structure Admits (c : Context) (e : Entry) : Prop where
  width : e.width.IsSize
  rate : c.kind.declares e.rate = true ∨ e.rate = .table

theorem isSize_declaredWidth (shape : Shape) : (declaredWidth shape).IsSize := by
  cases shape with
  | array size =>
    rw [declaredWidth]
    split <;> simp [Width.IsSize]
  | _ => simp [declaredWidth, Width.IsSize]

theorem entry_of_declaredName_eq_ok {n : DeclaredName} {s s' : State} {e : Entry}
    (h : declaredName c p n s = .ok e s') : e = n.entry := by
  have hset {e' : Entry} {s : State} (h : (do
      setSignal p (.declared n) e'.width .unknown
      setPayload p (.declared n) (.entry e')
      return e' : Checking Entry) s = .ok e s') : e = e' := by
    obtain ⟨_, _, -, h⟩ := exists_of_run_bind_eq_ok h
    obtain ⟨_, _, -, h⟩ := exists_of_run_bind_eq_ok h
    cases h
    rfl
  rw [declaredName] at h
  split at h
  · obtain ⟨_, _, -, h⟩ := exists_of_run_bind_eq_ok h
    exact hset h
  · exact hset h

theorem entries_of_declaredNames_eq_ok {i : Nat} {ns : List DeclaredName} {s s' : State}
    {es : List Entry} (h : declaredNames c p i ns s = .ok es s') :
    es = ns.map DeclaredName.entry := by
  induction ns generalizing i s es with
  | nil =>
    cases h
    rfl
  | cons n ns ih =>
    obtain ⟨e, _, he, h⟩ := exists_of_run_bind_eq_ok h
    obtain ⟨es', _, hes, h⟩ := exists_of_run_bind_eq_ok h
    cases h
    rw [map_cons, entry_of_declaredName_eq_ok he, ih hes]

theorem entries_of_nameList_eq_ok {l : NameList} {s s' : State} {es : List Entry}
    (h : nameList c p l s = .ok es s') : es = l.names.map DeclaredName.entry := by
  obtain ⟨_, _, hes, h⟩ := exists_of_run_bind_eq_ok h
  obtain ⟨_, _, -, h⟩ := exists_of_run_bind_eq_ok h
  cases h
  exact entries_of_declaredNames_eq_ok hes

/-- A variable with tags that is no table has a global variable beside it. -/
def Tied (c : Context) (e : Entry) : Prop :=
  e.isTagged = true → e.rate ≠ .table → tagFault? c e = none

/-! ### Tables -/

theorem nonneg_of_tableSize? {v : Float} {n : Int} (h : tableSize? v = some n) : 0 ≤ n := by
  rw [tableSize?] at h
  split at h
  next => cases h
  next hsize =>
    cases h
    rw [Bool.or_eq_true, not_or] at hsize
    refine Number.toInt_nonneg_of_beq (v := v) ?_ ?_
    · simpa [bne] using hsize.1
    · simpa using hsize.2

theorem isSize_tableShape (d : TableDecl) (values : List Float) :
    (Width.fixed (tableShape d values).1).IsSize := by
  rw [tableShape]
  split
  · exact Int.one_nonneg
  · split
    · exact Int.one_nonneg
    · split
      · split
        next => exact Int.one_nonneg
        next size hsize =>
          obtain ⟨v, -, hv⟩ := Option.bind_eq_some_iff.1 hsize
          exact nonneg_of_tableSize? hv
      · exact Int.one_nonneg

/-- A table that can be filled: its generator is known, and there is an argument for its size. -/
structure IsTable (d : TableDecl) : Prop where
  generator : (Generator.ofText? d.generator).isSome = true
  args : d.args ≠ []

theorem isTable_of_tableShape {d : TableDecl} {values : List Float}
    (h : (tableShape d values).2 = none) : IsTable d := by
  rw [tableShape] at h
  split at h
  next => cases h
  next g hg =>
    split at h
    next => cases h
    next hleast =>
      refine ⟨by rw [hg]; rfl, fun hnil => hleast ?_⟩
      rw [hnil]
      cases g <;> decide

/-! ### What is found out -/

/-- A variable is noted down for a node, with its width and rate. -/
structure Labelled (as : Attributes) (p : Path) (e : Entry) : Prop where
  signal : (as.get p).signal = some (e.width, e.rate)
  payload : (as.get p).payload = some (.entry e)

/-- What holds of numerals and of the negation of whatever it holds of holds of constants. -/
@[elab_as_elim]
theorem constant_induction {P : Expr → Prop} (hnumeral : ∀ s l, P (.constant s l))
    (hneg : ∀ s x, P x → P (.unary s .neg x)) (e : Expr) (h : e.constant?.isSome = true) :
    P e := by
  fun_induction Expr.constant? e with
  | case1 s l => exact hnumeral s l
  | case2 s x ih => exact hneg s x (ih (by simpa using h))
  | case3 => cases h

/-- Arguments of a table, the first of them being number `i`, are constants with rates. -/
def AreConstants (as : Attributes) (p : Path) (i : Nat) (args : List Expr) : Prop :=
  ∀ x ∈ args.zipIdx i, x.1.constant? ≠ none ∧ ∃ σ r, ExprRated σ as (x.2 :: p) x.1 r

/-- What is found out about a declaration: its variables are tied to global ones, and a table can be
filled. -/
structure DeclChecked (c : Context) (as : Attributes) (p : Path) (d : Decl) : Prop where
  tied : ∀ e ∈ d.entries, Tied c e
  table : ∀ t, d = .table t → IsTable t ∧ AreConstants as (1 :: p) 0 t.args

/-! ### The parts of a check -/

/-- A statement about a part of a check at whatever node: which attributes it sets there, and what
it finds out about the variables that it adds to the table. -/
abbrev DeclJudgement :=
  ∀ α : Type, Set Part → (Path → Checking α) → (Path → List Entry → Attributes → α → Prop) → Prop

/-- A statement that holds of every check that is put together from complaints, attributes,
variables and the checks of expressions and statements. -/
structure DeclLaws (c : Context) (P : DeclJudgement) : Prop where
  done : ∀ {α parts found} {a : α}, (∀ p as, found p [] as a) → P α parts (fun _ => pure a) found
  mono : ∀ {α parts others x found less}, P α parts x found → parts ⊆ others →
    (∀ p es as a, found p es as a → less p es as a) → P α others x less
  step : ∀ {α β parts all x found more}
    {f : Path → α → Checking β}, P α parts x found → parts ⊆ all →
    (∀ a, (∃ p s s', x p s = .ok a s') → P β (all \ parts) (fun p => f p a)
      fun p es' as b => ∀ es, found p es as a → more p (es ++ es') as b) →
    P β all (fun p => x p >>= f p) more
  child : ∀ {α x found} (i : Nat), P α .univ x found →
    P α {.child i} (fun p => x (i :: p)) fun p => found (i :: p)
  complain : ∀ node cause, P Unit ∅ (fun _ => complain c node cause) fun _ _ _ _ => False
  abandon : ∀ node cause, P PUnit ∅ (fun _ => abandon c node cause) fun _ _ _ _ => False
  declare : ∀ {e}, Admits c e → P Bool ∅ (fun _ => declare e) fun _ es _ free =>
    es = if free then [e] else []
  setSignal : ∀ node w r, P Unit {.signal} (fun p => setSignal p node w r) fun p es as _ =>
    es = [] ∧ (as.get p).signal = some (w, r)
  setPayload : ∀ node x, P Unit {.payload} (fun p => setPayload p node x) fun p es as _ =>
    es = [] ∧ (as.get p).payload = some x
  expr : ∀ e, P Rate .univ (fun p => expr c p e) fun p es as r => es = [] ∧
    ∃ σ, ExprRated σ as p e r
  stmts : ∀ ss, P _ .univ (fun p => stmts c p 0 ss) fun _ es _ _ => es = [] ∧ True

namespace DeclLaws

variable {P : DeclJudgement} (h : DeclLaws c P) {α β : Type} {parts all : Set Part}
  {x : Path → Checking α} {found : Path → List Entry → Attributes → α → Prop}
include h

theorem quiet {known : Path → Attributes → α → Prop} {f : Path → α → Checking β}
    {more : Path → List Entry → Attributes → β → Prop}
    (hx : P α parts x fun p es as a => es = [] ∧ known p as a) (hparts : parts ⊆ all)
    (hf : ∀ a, P β (all \ parts) (fun p => f p a) fun p es as b => known p as a → more p es as b) :
    P β all (fun p => x p >>= f p) more := by
  refine h.step hx hparts fun a _ => h.mono (hf a) Set.Subset.rfl fun p es' as b hmore es hes => ?_
  rw [hes.1]
  exact hmore hes.2

theorem complaint (node : Node) (cause : Cause) (hx : P α parts x fun _ _ _ _ => True) :
    P α parts (fun p => do Check.complain c node cause; x p) found :=
  h.step (h.complain node cause) (Set.empty_subset _) fun _ _ =>
    h.mono hx (by simp) fun _ _ _ _ _ _ => False.elim

omit h in
theorem ite {cond : Prop} [Decidable cond] {y : Path → Checking α} (hx : cond → P α parts x found)
    (hy : ¬cond → P α parts y found) : P α parts (fun p => if cond then x p else y p) found := by
  by_cases hcond : cond
  · simpa only [if_pos hcond] using hx hcond
  · simpa only [if_neg hcond] using hy hcond

theorem complainIf (node : Node) (cause : Option Cause) :
    P Unit ∅ (fun _ => complainIf c node cause) fun _ es _ _ => es = [] ∧ cause = none := by
  cases cause with
  | none => exact h.done fun _ _ => ⟨rfl, rfl⟩
  | some cause => exact h.mono (h.complain node cause) Set.Subset.rfl fun _ _ _ _ => False.elim

theorem declareOnce (node : Node) {e : Entry} (he : Admits c e) :
    P Unit ∅ (fun _ => declareOnce c node e) fun _ es _ _ => es = [e] := by
  refine h.step (h.declare he) Set.Subset.rfl fun free _ => ?_
  cases free with
  | true => exact h.done fun _ _ es hes => by rw [hes]; rfl
  | false => exact h.mono (h.complain ..) (Set.empty_subset _) fun _ _ _ _ => False.elim

theorem label (node : Node) (e : Entry) (hparts : {.signal, .payload} ⊆ parts) :
    P Unit parts (fun p => do
      Check.setSignal p node e.width e.rate
      Check.setPayload p node (.entry e)) fun p es as _ => es = [] ∧ Labelled as p e := by
  rw [Set.insert_subset_iff] at hparts
  refine h.quiet (h.setSignal ..) (Set.singleton_subset_iff.2 hparts.1) fun _ =>
    h.mono (h.setPayload ..) ?_ fun p es as _ hes hset => ⟨hes.1, hset, hes.2⟩
  exact Set.singleton_subset_iff.2 ⟨hparts.2 rfl, by simp⟩

/-! ### Variables -/

theorem param (q : InstrumentParam) : P Unit .univ (fun p => param c p q) fun p es as _ =>
    es = [q.entry] ∧ Labelled as p q.entry := by
  have hrate : c.kind.declares .i = true := by cases c.kind <;> rfl
  refine h.step (h.declareOnce q.node ⟨Int.one_nonneg, .inl hrate⟩) (Set.empty_subset _)
    fun _ _ => ?_
  refine h.mono (h.label q.node q.entry (Set.subset_univ _)) (by simp)
    fun p es' as _ hes' es hes => ?_
  rw [hes, hes'.1]
  exact ⟨rfl, hes'.2⟩

theorem params (i : Nat) (ps : List InstrumentParam) :
    P Unit (childrenFrom i) (fun p => params c p i ps) fun p es as _ =>
      es = ps.map InstrumentParam.entry ∧ ∀ x ∈ ps.zipIdx i, Labelled as (x.2 :: p) x.1.entry := by
  induction ps generalizing i with
  | nil => exact h.done fun _ _ => ⟨rfl, forall_mem_nil _⟩
  | cons q ps ih =>
    refine h.step (h.child i (h.param q)) (by simp) fun _ _ =>
      h.mono (ih (i + 1)) (childrenFrom_succ_subset i) fun p es' as _ hes' es hes => ?_
    rw [hes.1, hes'.1, zipIdx_cons]
    exact ⟨rfl, forall_mem_cons.2 ⟨hes.2, hes'.2⟩⟩

theorem tags (tags : Option Tags) :
    P Unit .univ (fun p => Check.tags p tags) fun _ es _ _ => es = [] ∧ True := by
  cases tags with
  | none => exact h.done fun _ _ => ⟨rfl, trivial⟩
  | some t => exact h.mono (h.setPayload ..) (Set.subset_univ _) fun _ _ _ _ hes => ⟨hes.1, trivial⟩

theorem effectiveTags (tags : Option Tags) :
    P _ ∅ (fun _ => effectiveTags c tags) fun _ es _ flags =>
      es = [] ∧ flags = (tags.any Tags.imports, tags.any Tags.exports) := by
  cases tags with
  | none => exact h.done fun _ _ => ⟨rfl, rfl⟩
  | some t =>
    exact ite (fun _ => h.complaint _ _ (h.done fun _ _ => trivial)) fun _ =>
      h.done fun _ _ => ⟨rfl, rfl⟩

theorem declaredName (n : DeclaredName) :
    P Entry .univ (fun p => declaredName c p n) fun _ es _ e => es = [] ∧ e = n.entry := by
  have hset : P Entry .univ (fun p => do
      Check.setSignal p (.declared n) n.entry.width .unknown
      Check.setPayload p (.declared n) (.entry n.entry)
      return n.entry) fun _ es _ e => es = [] ∧ e = n.entry :=
    h.quiet (h.setSignal ..) (by simp) fun _ => h.quiet (h.setPayload ..) (by simp) fun _ =>
      h.done fun _ _ _ _ => ⟨rfl, rfl⟩
  exact ite (fun _ => h.complaint _ _ (h.mono hset Set.Subset.rfl fun _ _ _ _ _ => trivial))
    fun _ => hset

theorem declaredNames (i : Nat) (ns : List DeclaredName) :
    P _ (childrenFrom i) (fun p => declaredNames c p i ns) fun _ es _ names =>
      es = [] ∧ names = ns.map DeclaredName.entry := by
  induction ns generalizing i with
  | nil => exact h.done fun _ _ => ⟨rfl, rfl⟩
  | cons n ns ih =>
    refine h.quiet (h.child i (h.declaredName n)) (by simp) fun _ =>
      h.quiet (ih (i + 1)) (childrenFrom_succ_subset i) fun _ => h.done fun _ _ hns hn => ⟨rfl, ?_⟩
    rw [hn, hns, map_cons]

theorem nameList (l : NameList) : P _ .univ (fun p => nameList c p l) fun _ es _ names =>
    es = [] ∧ names = l.names.map DeclaredName.entry :=
  h.quiet (h.declaredNames 0 l.names) (by simp) fun _ =>
  h.quiet (h.setPayload ..) (by simp) fun _ =>
    h.done fun _ _ _ hnames => ⟨rfl, hnames⟩

theorem declareAll (d : VariableDecl) {es : List Entry} (hes : ∀ e ∈ es, Admits c e) :
    P _ ∅ (fun _ => declareAll c d es) fun _ added _ _ => added = es ∧ ∀ e ∈ es, Tied c e := by
  induction es with
  | nil => exact h.done fun _ _ => ⟨rfl, forall_mem_nil _⟩
  | cons e es ih =>
    rw [forall_mem_cons] at hes
    refine h.quiet (h.complainIf ..) Set.Subset.rfl fun _ =>
      h.step (h.declare hes.1) (Set.empty_subset _) fun free _ => ?_
    cases free with
    | true =>
      refine h.step (ih hes.2) (Set.empty_subset _) fun _ _ =>
        h.done fun _ _ added hadded first hfirst hfault => ⟨?_, ?_⟩
      · rw [hfirst, hadded.1, append_nil]
        rfl
      · refine forall_mem_cons.2 ⟨fun htagged _ => ?_, hadded.2⟩
        rwa [if_pos htagged] at hfault
    | false =>
      -- A name that is taken is left out, with a complaint.
      exact h.complaint _ _ (h.mono (ih hes.2) (Set.empty_subset _) fun _ _ _ _ _ => trivial)

theorem variableDecl (d : VariableDecl) : P Unit .univ (fun p => variableDecl c p d)
    fun _ es _ _ => es = d.entries ∧ ∀ e ∈ d.entries, Tied c e := by
  refine h.quiet (h.child 0 (h.tags d.tags)) (by simp) fun _ => ?_
  refine h.quiet (h.child 1 (h.mono (h.setSignal (.type d.type) (.fixed 1) d.type.type.rate)
    (Set.subset_univ _) fun _ _ _ _ hes => hes)) (by simp) fun _ => ?_
  refine h.step (h.child 2 (h.nameList d.names)) (by simp) fun names hnames => ite (fun hrate => ?_)
    fun _ => h.step (h.abandon ..) (Set.empty_subset _) fun _ habandon => ?_
  · obtain ⟨_, _, _, hnames⟩ := hnames
    refine h.quiet (h.effectiveTags d.tags) (Set.empty_subset _) fun flags =>
      h.step (h.declareAll d fun e he => ?_) (Set.empty_subset _) fun _ _ =>
      h.mono (h.setPayload ..) (by simp) fun _ es' _ _ hes' es hes hflags es₁ hes₁ _ _ => ?_
    · rw [entries_of_nameList_eq_ok hnames, map_map] at he
      obtain ⟨n, -, rfl⟩ := mem_map.1 he
      exact ⟨isSize_declaredWidth n.shape, .inl hrate⟩
    · have hentries : (names.map fun e => { e with
          rate := d.type.type.rate, imports := flags.1, exports := flags.2 }) = d.entries := by
        rw [hflags, hes₁.2, map_map]
        rfl
      rw [hes₁.1, hes'.1, append_nil, nil_append, ← hentries]
      exact hes
  · obtain ⟨_, _, _, habandon⟩ := habandon
    cases habandon

/-! ### Tables -/

theorem tableArguments (table : Text) (i : Nat) (args : List Expr) :
    P _ (childrenFrom i) (fun p => tableArguments c table p i args) fun p es as values =>
      es = [] ∧ values = args.filterMap Expr.constant? ∧ AreConstants as p i args := by
  induction args generalizing i with
  | nil => exact h.done fun _ _ => ⟨rfl, rfl, forall_mem_nil _⟩
  | cons arg args ih =>
    simp only [Check.tableArguments]
    have hrest := h.mono (ih (i + 1)) (childrenFrom_succ_subset i) fun _ _ _ _ hargs => hargs
    refine h.quiet (h.child i (h.expr arg)) (by simp) fun r => ?_
    cases hv : arg.constant? with
    | some v =>
      refine h.quiet hrest Set.Subset.rfl fun values => h.done fun _ _ hargs harg => ⟨rfl, ?_, ?_⟩
      · rw [hargs.1, filterMap_cons_some hv]
      · refine forall_mem_cons.2 ⟨⟨by simp [hv], ?_⟩, hargs.2⟩
        exact harg.imp fun _ hr => ⟨r, hr⟩
    | none =>
      -- There are fewer values than arguments, with a complaint.
      exact h.complaint _ _ (h.mono hrest Set.Subset.rfl fun _ _ _ _ _ => trivial)

theorem table (d : TableDecl) : P Unit .univ (fun p => table c p d) fun p es as _ =>
    es = [d.entry] ∧ IsTable d ∧ AreConstants as (1 :: p) 0 d.args := by
  refine h.quiet (h.child 0 (h.tags d.tags)) (by simp) fun _ =>
    h.quiet (h.effectiveTags d.tags) (Set.empty_subset _) fun flags =>
    h.quiet (h.child 1 (h.mono (h.tableArguments d.ident 0 d.args) (Set.subset_univ _)
      fun _ _ _ _ hargs => hargs)) (by simp) fun values =>
    h.quiet (h.complainIf ..) (Set.empty_subset _) fun _ =>
    h.quiet (h.complainIf ..) (Set.empty_subset _) fun _ => ?_
  refine h.step (h.declareOnce _ ⟨isSize_tableShape d values, .inr rfl⟩) (Set.empty_subset _)
    fun _ _ => ?_
  refine h.quiet (h.setSignal ..) (by simp) fun _ =>
    h.mono (h.setPayload ..) (by simp) fun _ es' _ _ hes' _ es hes _ hshape hargs hflags _ => ?_
  refine ⟨?_, isTable_of_tableShape hshape, hargs.2⟩
  rw [hes'.1, append_nil, hes, hflags, hargs.1]
  rfl

/-! ### Units -/

theorem decl (d : Decl) : P Unit .univ (fun p => decl c p d) fun p es as _ =>
    es = d.entries ∧ DeclChecked c as p d := by
  cases d with
  | vars d =>
    exact h.mono (h.variableDecl d) Set.Subset.rfl fun _ _ _ _ hd => ⟨hd.1, hd.2, nofun⟩
  | table d =>
    refine h.mono (h.table d) Set.Subset.rfl fun p es as _ hd => ⟨hd.1, ?_, fun t ht => ?_⟩
    · exact forall_mem_singleton.2 fun _ htable => absurd rfl htable
    · cases ht
      exact hd.2

theorem decls (i : Nat) (ds : List Decl) :
    P Unit (childrenFrom i) (fun p => decls c p i ds) fun p es as _ =>
      es = ds.flatMap Decl.entries ∧ ∀ x ∈ ds.zipIdx i, DeclChecked c as (x.2 :: p) x.1 := by
  induction ds generalizing i with
  | nil => exact h.done fun _ _ => ⟨rfl, forall_mem_nil _⟩
  | cons d ds ih =>
    refine h.step (h.child i (h.decl d)) (by simp) fun _ _ =>
      h.mono (ih (i + 1)) (childrenFrom_succ_subset i) fun p es' as _ hes' es hes => ?_
    rw [hes.1, hes'.1, zipIdx_cons]
    exact ⟨rfl, forall_mem_cons.2 ⟨hes.2, hes'.2⟩⟩

theorem opcodeParams (i : Nat) (ds : List VariableDecl) :
    P Unit (childrenFrom i) (fun p => opcodeParams c p i ds) fun _ _ _ _ => True := by
  induction ds generalizing i with
  | nil => exact h.done fun _ _ => trivial
  | cons d ds ih =>
    exact h.step (h.child i (h.variableDecl d)) (by simp) fun _ _ =>
      h.mono (ih (i + 1)) (childrenFrom_succ_subset i) fun _ _ _ _ _ _ _ => trivial

theorem globalItems (i : Nat) (items : List GlobalItem) :
    P Unit (childrenFrom i) (fun p => globalItems c p i items) fun p _ as _ =>
      ∀ x ∈ items.zipIdx i, ∀ d, x.1 = .decl d → DeclChecked c as (x.2 :: p) d := by
  induction items generalizing i with
  | nil => exact h.done fun _ _ => forall_mem_nil _
  | cons item items ih =>
    simp only [zipIdx_cons, forall_mem_cons]
    cases item with
    | setting s =>
      exact h.mono (ih (i + 1)) ((childrenFrom_succ_subset i).trans Set.sdiff_subset)
        fun _ _ _ _ hitems => ⟨nofun, hitems⟩
    | decl d =>
      refine h.step (h.child i (h.decl d)) (by simp) fun _ _ => h.mono (ih (i + 1))
        (childrenFrom_succ_subset i) fun _ _ _ _ hitems _ hd => ⟨fun d' hd' => ?_, hitems⟩
      cases hd'
      exact hd.2

theorem instrument (i : Instrument) : P Unit .univ (fun p => do
      Check.params c (0 :: p) 0 i.params
      Check.decls c (1 :: p) 0 i.decls
      let _ ← Check.stmts c (2 :: p) 0 i.body) fun p es as _ => es = i.entries ∧
        (∀ x ∈ i.params.zipIdx, Labelled as (x.2 :: 0 :: p) x.1.entry) ∧
        ∀ x ∈ i.decls.zipIdx, DeclChecked c as (x.2 :: 1 :: p) x.1 := by
  refine h.step (h.child 0 (h.mono (h.params 0 i.params) (Set.subset_univ _) fun _ _ _ _ h => h))
    (by simp) fun _ _ =>
    h.step (h.child 1 (h.mono (h.decls 0 i.decls) (Set.subset_univ _) fun _ _ _ _ h => h))
      (by simp) fun _ _ => h.quiet (h.child 2 (h.stmts i.body)) (by simp) fun _ =>
    h.done fun _ _ _ ds hds ps hps => ⟨?_, hps.2, hds.2⟩
  rw [hps.1, hds.1, append_nil, Instrument.entries]

theorem opcode (o : Opcode) : P Unit .univ (fun p => do
      Check.opcodeParams c (0 :: p) 0 o.params
      Check.decls c (1 :: p) 0 o.decls
      let _ ← Check.stmts c (2 :: p) 0 o.body) fun p _ as _ =>
        ∀ x ∈ o.decls.zipIdx, DeclChecked c as (x.2 :: 1 :: p) x.1 :=
  h.step (h.child 0 (h.mono (h.opcodeParams 0 o.params) (Set.subset_univ _) fun _ _ _ _ h => h))
    (by simp) fun _ _ =>
    h.step (h.child 1 (h.mono (h.decls 0 o.decls) (Set.subset_univ _) fun _ _ _ _ h => h))
      (by simp) fun _ _ => h.quiet (h.child 2 (h.stmts o.body)) (by simp) fun _ =>
    h.done fun _ _ _ _ hds _ _ => hds.2

end DeclLaws

end Check

end Orchestrion
