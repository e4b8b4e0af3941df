import Mathlib.Tactic.Common
import Orchestrion.Variables
import Orchestrion.Vocabulary

/-!
# The fastest of what occurs

What occurs in a statement at whatever depth, the rates of that, and what it is for a rate to be the
fastest of some rates.
-/

namespace Orchestrion

/-! ### What occurs in a statement -/

mutual

/-- The names that are read or indexed in an expression. -/
def Expr.names : Expr → List Text
  | .constant _ _ => []
  | .name _ x => [x]
  | .element _ x index => x :: index.names
  | .call _ _ args => Expr.namesAll args
  | .binary _ _ left right => left.names ++ right.names
  | .unary _ _ operand => operand.names
  | .conditional _ guard yes no => guard.names ++ yes.names ++ no.names

/-- The names that are read or indexed in expressions. -/
def Expr.namesAll : List Expr → List Text
  | [] => []
  | e :: es => e.names ++ Expr.namesAll es

end

/-- The names in a target: the variable that is assigned to, and those in its index. -/
def Target.names (t : Target) : List Text :=
  t.ident ::
    match t.index with
    | some index => index.names
    | none => []

/-- What gives a statement its rate. -/
inductive Occurrence where
  /-- A variable or a standard name that is read, indexed or assigned to. -/
  | name (x : Text)
  | output
  | turnoff
deriving DecidableEq, Repr

mutual

def Stmt.occurrences : Stmt → List Occurrence
  | .assign _ t value => (t.names ++ value.names).map .name
  | .eval _ value => value.names.map .name
  | .ifThen _ guard body => guard.names.map .name ++ Stmt.occurrencesAll body
  | .ifElse _ guard yes no =>
    guard.names.map .name ++ Stmt.occurrencesAll yes ++ Stmt.occurrencesAll no
  | .loop _ guard body => guard.names.map .name ++ Stmt.occurrencesAll body
  | .output _ args => .output :: (Expr.namesAll args).map .name
  | .extend _ seconds => seconds.names.map .name
  | .turnoff _ => [.turnoff]
  | .ret _ values => (Expr.namesAll values).map .name

def Stmt.occurrencesAll : List Stmt → List Occurrence
  | [] => []
  | s :: ss => s.occurrences ++ Stmt.occurrencesAll ss

end

/-- The rate of a name: that of the variable, or else that of the standard name. -/
def Scope.rateOf (σ : Scope) (x : Text) : Rate :=
  match σ.resolve? x with
  | some (e, _) => e.rate
  | none => ((StandardName.ofText? x).map StandardName.rate).getD .unknown

def Occurrence.rate (σ : Scope) : Occurrence → Rate
  | name x => σ.rateOf x
  | output => .a
  | turnoff => .k

/-- The rates of all that occurs in a statement. -/
def Stmt.rates (σ : Scope) (s : Stmt) : List Rate := s.occurrences.map (Occurrence.rate σ)

theorem Occurrence.map_rate_name (σ : Scope) (xs : List Text) :
    (xs.map Occurrence.name).map (Occurrence.rate σ) = xs.map σ.rateOf := List.map_map ..

/-! ### The fastest rate -/

namespace Rate

/-- The rate is the fastest of some rates, and `i` if none of them is faster than that. -/
structure IsFastest (r : Rate) (rs : List Rate) : Prop where
  mem : r ∈ i :: rs
  signal : r.isSignal = true
  not_faster : ∀ r' ∈ rs, r'.faster r = false

theorem faster_iff {r s : Rate} :
    r.faster s = true ↔ ∃ m n, r.speed? = some m ∧ s.speed? = some n ∧ n < m := by
  rw [faster]
  cases r.speed? <;> cases s.speed? <;> simp

theorem not_faster_trans {r s t : Rate} (hrs : r.faster s = false) (hs : s.isSignal = true)
    (hst : s.faster t = false) : r.faster t = false := by
  rw [Bool.eq_false_iff, ne_eq, faster_iff] at *
  rintro ⟨m, n, hm, hn, hlt⟩
  obtain ⟨k, hk⟩ := Option.isSome_iff_exists.1 hs
  rcases Nat.lt_or_ge k m with hkm | hkm
  · exact hrs ⟨m, k, hm, hk, hkm⟩
  · exact hst ⟨k, n, hk, hn, Nat.lt_of_lt_of_le hlt hkm⟩

theorem faster_asymm {r s : Rate} (h : r.faster s = true) : s.faster r = false := by
  rw [Bool.eq_false_iff, ne_eq, faster_iff]
  rw [faster_iff] at h
  obtain ⟨m, n, hm, hn, hlt⟩ := h
  rintro ⟨n', m', hn', hm', hlt'⟩
  rw [hm] at hm'
  rw [hn] at hn'
  cases hm'
  cases hn'
  omega

theorem faster_self (r : Rate) : r.faster r = false := by
  rw [faster]
  cases r.speed? <;> simp

theorem not_faster_a (r : Rate) : r.faster a = false := by
  cases r <;> rfl

namespace IsFastest

variable {r s : Rate} {rs ss : List Rate}

theorem nil : IsFastest i [] := ⟨List.mem_cons_self, rfl, nofun⟩

theorem singleton (hr : r.isSignal = true) : IsFastest r [r] :=
  ⟨by simp, hr, by simpa using faster_self r⟩

theorem append (h : IsFastest r rs) (hss : ∀ s ∈ ss, s.faster r = false) : IsFastest r (rs ++ ss) :=
  ⟨by simpa [or_assoc] using (List.mem_cons.1 h.mem).imp_right .inl, h.signal,
    List.forall_mem_append.2 ⟨h.not_faster, hss⟩⟩

theorem perm (h : IsFastest r rs) (hperm : rs.Perm ss) : IsFastest r ss :=
  ⟨(hperm.cons i).subset h.mem, h.signal, fun r' hr' => h.not_faster r' (hperm.mem_iff.2 hr')⟩

theorem sup (h : IsFastest r rs) (h' : IsFastest s ss) : IsFastest (r.sup s) (rs ++ ss) := by
  rw [Rate.sup]
  split
  next hfaster =>
    refine (h'.append fun r' hr' => ?_).perm List.perm_append_comm
    exact not_faster_trans (h.not_faster r' hr') h.signal (faster_asymm hfaster)
  next hfaster =>
    refine h.append fun s' hs' => ?_
    exact not_faster_trans (h'.not_faster s' hs') h'.signal (Bool.eq_false_iff.2 hfaster)

end IsFastest

/-- Each of the first rates is the fastest one of a part of the second ones. Tables have no part in
this. -/
inductive AreFastest : List Rate → List Rate → Prop
  | nil : AreFastest [] []
  | cons {r : Rate} {many rs ss : List Rate} (head : IsFastest r rs) (tail : AreFastest many ss) :
      AreFastest (r :: many) (rs ++ ss)
  | table {many ss : List Rate} (tail : AreFastest many ss) : AreFastest many (.table :: ss)

namespace AreFastest

variable {r : Rate} {many rs ss : List Rate}

theorem singleton (h : IsFastest r rs) : AreFastest [r] rs := by
  simpa using cons h nil

theorem isSignal (h : AreFastest many ss) : ∀ r ∈ many, r.isSignal = true := by
  induction h with
  | nil => exact List.forall_mem_nil _
  | cons head _ ih => exact List.forall_mem_cons.2 ⟨head.signal, ih⟩
  | table _ ih => exact ih

theorem foldl_sup (h : AreFastest many ss) (hr : IsFastest r rs) :
    IsFastest (many.foldl Rate.sup r) (rs ++ ss) := by
  induction h generalizing r rs with
  | nil => simpa using hr
  | cons head _ ih => simpa using ih (hr.sup head)
  | table _ ih =>
    have htable : ∀ s ∈ [Rate.table], s.faster r = false := List.forall_mem_singleton.2 rfl
    simpa using ih (hr.append htable)

theorem fastest (h : AreFastest many ss) : IsFastest (Rate.fastest many) ss := by
  have hx : x ∉ many := fun hx => absurd (h.isSignal x hx) (by decide)
  rw [Rate.fastest, if_neg hx]
  exact h.foldl_sup .nil

end AreFastest

end Rate


/-! ### Statements that can have code -/

/-- The name stands for what code can refer to: a signal or a table. -/
def Scope.Refers (σ : Scope) (x : Text) : Prop :=
  (σ.rateOf x).isSignal = true ∨ σ.rateOf x = .table

mutual

/-- All calls in the expression are of core opcodes, and code can refer to its names. -/
def Expr.IsPlain (σ : Scope) : Expr → Prop
  | .constant _ _ => True
  | .name _ x => σ.Refers x
  | .element _ _ index => index.IsPlain σ
  | .call _ callee args => (CoreOpcode.ofText? callee).isSome = true ∧ Expr.AllPlain σ args
  | .binary _ _ left right => left.IsPlain σ ∧ right.IsPlain σ
  | .unary _ _ operand => operand.IsPlain σ
  | .conditional _ guard yes no => guard.IsPlain σ ∧ yes.IsPlain σ ∧ no.IsPlain σ

def Expr.AllPlain (σ : Scope) : List Expr → Prop
  | [] => True
  | e :: es => e.IsPlain σ ∧ Expr.AllPlain σ es

end

/-- All calls in the index of a target are of core opcodes, and code can refer to its names. -/
def Target.IsPlain (σ : Scope) (t : Target) : Prop :=
  σ.Refers t.ident ∧ ∀ index, t.index = some index → index.IsPlain σ

mutual

/-- All calls in the statement are of core opcodes, and code can refer to its names. -/
def Stmt.IsPlain (σ : Scope) : Stmt → Prop
  | .assign _ t value => t.IsPlain σ ∧ value.IsPlain σ
  | .eval _ value => value.IsPlain σ
  | .ifThen _ guard body => guard.IsPlain σ ∧ Stmt.AllPlain σ body
  | .ifElse _ guard yes no => guard.IsPlain σ ∧ Stmt.AllPlain σ yes ∧ Stmt.AllPlain σ no
  | .loop _ guard body => guard.IsPlain σ ∧ Stmt.AllPlain σ body
  | .output _ args => Expr.AllPlain σ args
  | .extend _ seconds => seconds.IsPlain σ
  | .turnoff _ => True
  | .ret _ values => Expr.AllPlain σ values

/-- All calls in the statements are of core opcodes, and code can refer to their names. -/
def Stmt.AllPlain (σ : Scope) : List Stmt → Prop
  | [] => True
  | s :: ss => s.IsPlain σ ∧ Stmt.AllPlain σ ss

end

end Orchestrion
