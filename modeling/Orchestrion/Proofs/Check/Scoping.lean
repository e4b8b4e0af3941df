import Orchestrion.Proofs.Check.Table

/-!
# Names that stand for something

In a unit without complaints every name stands for something of the right kind: a name that is read
for a single value, an indexed name for an array, an argument in the place of a table for a table,
and what is assigned to is a variable with an index if and only if it is an array. Every expression
and every statement has a signal rate.
-/

namespace Orchestrion

/-! ### Names of the right kind -/

namespace Scope

/-- The variables that are seen are signals, tables or arrays of opcodes. -/
def Ordinary (σ : Scope) : Prop :=
  ∀ x e isGlobal, σ.resolve? x = some (e, isGlobal) →
    e.rate.isSignal = true ∨ e.rate = .table ∨ e.rate = .oparray

/-- The name stands for a single value: a scalar, or else what every unit knows by this name. -/
def IsValue (σ : Scope) (x : Text) : Prop :=
  (∃ e isGlobal, σ.resolve? x = some (e, isGlobal) ∧ e.isScalarSignal = true) ∨
    σ.resolve? x = none ∧ (StandardName.ofText? x).isSome = true

/-- The name stands for an array of values. -/
def IsArray (σ : Scope) (x : Text) : Prop :=
  ∃ e isGlobal, σ.resolve? x = some (e, isGlobal) ∧ e.array = true ∧ e.rate.isSignal = true

/-- The name stands for a table. -/
def IsTable (σ : Scope) (x : Text) : Prop :=
  ∃ e isGlobal, σ.resolve? x = some (e, isGlobal) ∧ e.rate = .table

end Scope

/-- The expression is the name of a table. -/
def Expr.NamesTable (σ : Scope) (e : Expr) : Prop := ∃ span x, e = .name span x ∧ σ.IsTable x

mutual

/-- All names in the expression stand for something of the right kind. -/
def Expr.Scoped (σ : Scope) : Expr → Prop
  | .constant _ _ => True
  | .name _ x => σ.IsValue x
  | .element _ x index => σ.IsArray x ∧ index.Scoped σ
  | .call _ callee args =>
    Expr.ArgsScoped σ ((CoreOpcode.ofText? callee).bind CoreOpcode.tableArg?) 0 args
  | .binary _ _ left right => left.Scoped σ ∧ right.Scoped σ
  | .unary _ _ operand => operand.Scoped σ
  | .conditional _ guard yes no => guard.Scoped σ ∧ yes.Scoped σ ∧ no.Scoped σ

/-- All names in arguments, the first of them being number `i`, stand for something of the right
kind. The argument of the number `table` is a table. -/
def Expr.ArgsScoped (σ : Scope) (table : Option Nat) (i : Nat) : List Expr → Prop
  | [] => True
  | arg :: args =>
    (if table = some i then arg.NamesTable σ else arg.Scoped σ) ∧
      Expr.ArgsScoped σ table (i + 1) args

end

/-- What is assigned to is a variable, with an index if and only if it is an array, and all names in
the index stand for something of the right kind. -/
structure Target.Scoped (σ : Scope) (t : Target) : Prop where
  ident : ∃ e isGlobal, σ.resolve? t.ident = some (e, isGlobal) ∧ e.rate.isSignal = true ∧
    e.array = t.index.isSome
  index : ∀ index, t.index = some index → index.Scoped σ

mutual

/-- All names in the statement stand for something of the right kind, and nothing is returned. -/
def Stmt.Scoped (σ : Scope) : Stmt → Prop
  | .assign _ t value => t.Scoped σ ∧ value.Scoped σ
  | .eval _ value => value.Scoped σ
  | .ifThen _ guard body => guard.Scoped σ ∧ Stmt.AllScoped σ body
  | .ifElse _ guard yes no => guard.Scoped σ ∧ Stmt.AllScoped σ yes ∧ Stmt.AllScoped σ no
  | .loop _ guard body => guard.Scoped σ ∧ Stmt.AllScoped σ body
  | .output _ args => Expr.ArgsScoped σ none 0 args
  | .extend _ seconds => seconds.Scoped σ
  | .turnoff _ => True
  | .ret _ _ => False

/-- All names in the statements stand for something of the right kind, and nothing is returned. -/
def Stmt.AllScoped (σ : Scope) : List Stmt → Prop
  | [] => True
  | s :: ss => s.Scoped σ ∧ Stmt.AllScoped σ ss

end

theorem Rate.isSignal_fastest {rs : List Rate} (h : ∀ r ∈ rs, r.isSignal = true) :
    (Rate.fastest rs).isSignal = true := by
  have hfastest : Rate.AreFastest rs rs := by
    induction rs with
    | nil => exact .nil
    | cons r rs ih =>
      rw [List.forall_mem_cons] at h
      exact .cons (.singleton h.1) (ih h.2)
  exact hfastest.fastest.signal

namespace Check

variable {σ : Scope} {as : Attributes}

/-! ### Expressions -/

mutual

theorem ExprRated.scoped (hordinary : σ.Ordinary) : ∀ {e : Expr} {p : Path} {r : Rate},
    ExprRated σ as p e r → e.Scoped σ ∧ r.isSignal = true
  | .constant _ _, _, _, h => ⟨trivial, by rw [h.2]; rfl⟩
  | .name _ x, _, _, h => by
    obtain ⟨-, ⟨v, isGlobal, hx, htable, hoparray, harray, rfl⟩ | ⟨hx, s, hs, rfl⟩⟩ := h
    · -- What is neither a table nor an array of opcodes is a signal.
      have hsignal : v.rate.isSignal = true := (hordinary x v isGlobal hx.resolve).resolve_right
        fun h => h.elim htable hoparray
      refine ⟨.inl ⟨v, isGlobal, hx.resolve, ?_⟩, Rate.isSignal_fastest (by simp [hsignal])⟩
      rw [Entry.isScalarSignal, hsignal, harray]
      rfl
    · exact ⟨.inr ⟨hx, by rw [hs]; rfl⟩, by cases s <;> rfl⟩
  | .element _ x index, _, _, h => by
    obtain ⟨-, v, isGlobal, r₁, hx, harray, hsignal, hindex, rfl⟩ := h
    obtain ⟨hscoped, hrate⟩ := hindex.scoped hordinary
    exact ⟨⟨⟨v, isGlobal, hx.resolve, harray, hsignal⟩, hscoped⟩,
      Rate.isSignal_fastest (by simp [hsignal, hrate])⟩
  | .call _ callee args, _, _, h => by
    obtain ⟨-, rates, hargs, hr⟩ := h
    obtain ⟨hscoped, hrates⟩ := hargs.scoped hordinary
    refine ⟨hscoped, ?_⟩
    rcases hr with rfl | ⟨-, hr⟩
    · exact Rate.isSignal_fastest hrates
    · simp only [List.mem_cons, List.not_mem_nil, or_false] at hr
      rcases hr with rfl | rfl | rfl <;> rfl
  | .binary _ _ left right, _, _, h => by
    obtain ⟨-, r₁, r₂, hleft, hright, rfl⟩ := h
    obtain ⟨hl, hlrate⟩ := hleft.scoped hordinary
    obtain ⟨hr, hrrate⟩ := hright.scoped hordinary
    exact ⟨⟨hl, hr⟩, Rate.isSignal_fastest (by simp [hlrate, hrrate])⟩
  | .unary _ _ operand, _, _, h => by
    obtain ⟨-, r₁, hoperand, rfl⟩ := h
    obtain ⟨ho, horate⟩ := hoperand.scoped hordinary
    exact ⟨ho, Rate.isSignal_fastest (by simp [horate])⟩
  | .conditional _ guard yes no, _, _, h => by
    obtain ⟨-, r₁, r₂, r₃, hguard, hyes, hno, rfl⟩ := h
    obtain ⟨hg, hgrate⟩ := hguard.scoped hordinary
    obtain ⟨hy, hyrate⟩ := hyes.scoped hordinary
    obtain ⟨hn, hnrate⟩ := hno.scoped hordinary
    exact ⟨⟨hg, hy, hn⟩, Rate.isSignal_fastest (by simp [hgrate, hyrate, hnrate])⟩

theorem ArgsRated.scoped (hordinary : σ.Ordinary) : ∀ {args : List Expr} {table : Option Nat}
    {p : Path} {i : Nat} {rates : List Rate}, ArgsRated σ as table p i args rates →
    Expr.ArgsScoped σ table i args ∧ ∀ r ∈ rates, r.isSignal = true
  | [], _, _, _, _, h => ⟨trivial, by rw [show _ = [] from h]; exact List.forall_mem_nil _⟩
  | arg :: args, table, _, i, _, h => by
    rw [ArgsRated] at h
    rw [Expr.ArgsScoped]
    by_cases htable : table = some i
    · rw [if_pos htable] at h ⊢
      obtain ⟨⟨span, x, v, isGlobal, rfl, hx, hrate, -⟩, hargs⟩ := h
      obtain ⟨hscoped, hsignals⟩ := hargs.scoped hordinary
      exact ⟨⟨⟨span, x, rfl, v, isGlobal, hx.resolve, hrate⟩, hscoped⟩, hsignals⟩
    · rw [if_neg htable] at h ⊢
      obtain ⟨r, others, harg, hargs, rfl⟩ := h
      obtain ⟨hscoped, hsignals⟩ := hargs.scoped hordinary
      obtain ⟨ha, harate⟩ := harg.scoped hordinary
      exact ⟨⟨ha, hscoped⟩, List.forall_mem_cons.2 ⟨harate, hsignals⟩⟩

end

/-! ### Statements -/

theorem array_of_assignFault? {stmt : Stmt} {t : Target} {v : Entry} {value index : Rate}
    (h : assignFault? stmt t v value index = none) : v.array = t.index.isSome := by
  rw [assignFault?] at h
  split at h
  · cases h
  · split at h
    next i hi =>
      split at h
      · cases h
      next harray => rw [hi]; simpa using harray
    next hi =>
      split at h
      · cases h
      next harray => rw [hi]; simpa using harray

theorem TargetRated.scoped {p : Path} {stmt : Stmt} {t : Target} {value r : Rate}
    (h : TargetRated σ as p stmt t value r) (hordinary : σ.Ordinary) :
    t.Scoped σ ∧ r.isSignal = true := by
  obtain ⟨-, v, isGlobal, index, hx, hindex, hfault, rfl⟩ := h
  have hne : v.rate ≠ .x := by
    intro hrate
    have hordinary := hordinary t.ident v isGlobal hx.resolve
    simp [hrate, Rate.isSignal, Rate.speed?] at hordinary
  obtain ⟨hsignal, -⟩ := not_faster_of_assignFault? hfault hne
  -- So the rate of the target is that of the variable.
  rw [if_pos (by simp [hsignal])]
  exact ⟨⟨⟨v, isGlobal, hx.resolve, hsignal, array_of_assignFault? hfault⟩,
    fun e he => ((hindex e he).scoped hordinary).1⟩, hsignal⟩

mutual

theorem StmtRated.scoped (hordinary : σ.Ordinary) : ∀ {s : Stmt} {p : Path} {r : Rate},
    StmtRated σ as .instrument p s r → s.Scoped σ ∧ r.isSignal = true
  | .assign _ t value, _, _, h => by
    obtain ⟨-, v, hvalue, ht⟩ := h
    exact ⟨⟨(ht.scoped hordinary).1, (hvalue.scoped hordinary).1⟩, (ht.scoped hordinary).2⟩
  | .eval _ value, _, _, h => h.2.scoped hordinary
  | .ifThen _ guard body, _, _, h | .loop _ guard body, _, _, h => by
    obtain ⟨-, r₁, rs, hguard, hbody, rfl⟩ := h
    obtain ⟨hg, hgrate⟩ := hguard.scoped hordinary
    obtain ⟨hb, hbrates⟩ := hbody.scoped hordinary
    exact ⟨⟨hg, hb⟩, Rate.isSignal_fastest (by simp [hgrate, Rate.isSignal_fastest hbrates])⟩
  | .ifElse _ guard yes no, _, _, h => by
    obtain ⟨-, r₁, rs, ss, hguard, hyes, hno, rfl⟩ := h
    obtain ⟨hg, hgrate⟩ := hguard.scoped hordinary
    obtain ⟨hy, hyrates⟩ := hyes.scoped hordinary
    obtain ⟨hn, hnrates⟩ := hno.scoped hordinary
    refine ⟨⟨hg, hy, hn⟩, Rate.isSignal_fastest ?_⟩
    simp [hgrate, Rate.isSignal_fastest hyrates, Rate.isSignal_fastest hnrates]
  | .output _ args, _, _, h => by
    obtain ⟨-, ⟨rates, hargs⟩, rfl⟩ := h
    exact ⟨(hargs.scoped hordinary).1, rfl⟩
  | .extend _ seconds, _, _, h => by
    obtain ⟨-, r₁, hseconds, rfl⟩ := h
    obtain ⟨hs, hsrate⟩ := hseconds.scoped hordinary
    exact ⟨hs, Rate.isSignal_fastest (by simp [hsrate])⟩
  | .turnoff _, _, _, h => ⟨trivial, by rw [h.2]; rfl⟩
  | .ret _ values, _, _, h => absurd h.2.1 (by decide)

theorem StmtsRated.scoped (hordinary : σ.Ordinary) : ∀ {ss : List Stmt} {p : Path} {i : Nat}
    {rates : List Rate}, StmtsRated σ as .instrument p i ss rates →
    Stmt.AllScoped σ ss ∧ ∀ r ∈ rates, r.isSignal = true
  | [], _, _, _, h => ⟨trivial, by rw [show _ = [] from h]; exact List.forall_mem_nil _⟩
  | s :: ss, _, _, _, h => by
    obtain ⟨r, others, hs, hss, rfl⟩ := h
    obtain ⟨hs, hrate⟩ := hs.scoped hordinary
    obtain ⟨hss, hrates⟩ := hss.scoped hordinary
    exact ⟨⟨hs, hss⟩, List.forall_mem_cons.2 ⟨hrate, hrates⟩⟩

end

end Check

/-! ### Instruments -/

namespace CheckedUnit

variable {s : Surroundings} {keyword : Keyword} {i : Instrument} {u : CheckedUnit}

theorem ordinary_of_ofInstrument (h : ofInstrument s keyword i = .ok u)
    (hglobals : ∀ e ∈ s.globals.entries, e.rate.IsGlobal) :
    Scope.Ordinary ⟨u.locals, some s.globals⟩ := by
  intro x e isGlobal hresolve
  rw [Scope.resolve?] at hresolve
  split at hresolve
  next e' hlookup =>
    cases hresolve
    have hrate := ((variables_of_ofInstrument h).2.1 e (VariableTable.mem_of_lookup? hlookup)).rate
    simp only [Surroundings.context, Check.UnitKind.declares, Bool.or_eq_true,
      decide_eq_true_eq] at hrate
    rcases hrate with (((hrate | hrate) | hrate) | hrate) | hrate <;> rw [hrate] <;> decide
  next =>
    obtain ⟨e', hlookup, heq⟩ := Option.map_eq_some_iff.1 hresolve
    cases heq
    rcases hglobals e (VariableTable.mem_of_lookup? hlookup) with hrate | hrate | hrate <;>
      rw [hrate] <;> decide

theorem scoped_of_ofInstrument (h : ofInstrument s keyword i = .ok u) (hclean : u.errors = [])
    (hglobals : ∀ e ∈ s.globals.entries, e.rate.IsGlobal) :
    Stmt.AllScoped ⟨u.locals, some s.globals⟩ i.body ∧
      ∀ n < i.body.length, (u.stmtRate n).isSignal = true := by
  have hordinary := ordinary_of_ofInstrument h hglobals
  obtain ⟨rates, hrates⟩ := stmtsRated_of_ofInstrument h hclean
  refine ⟨(hrates.scoped hordinary).1, fun n hn => ?_⟩
  exact ((stmtRated_of_ofInstrument h hclean (List.getElem?_eq_getElem hn)).scoped hordinary).2

end CheckedUnit

end Orchestrion
