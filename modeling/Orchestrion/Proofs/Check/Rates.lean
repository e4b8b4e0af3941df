import Orchestrion.Proofs.Check.Unit
import Orchestrion.Proofs.Rate

/-!
# The rate of a statement

The check gives every node a rate by a rule for its kind: an assignment has the rate of its target,
a call that of its arguments, a statement with others inside the fastest rate among them. If there
are no complaints, these rules come to one law: a statement is as fast as the fastest of what occurs
in it, at whatever depth.
-/

namespace Orchestrion

open List

namespace Check

variable {σ : Scope} {as : Attributes} {kind : UnitKind} {p : Path} {x : Text} {v : Entry}
  {isGlobal : Bool} {i : Nat}

theorem Seen.rateOf (h : Seen σ as p x v isGlobal) : σ.rateOf x = v.rate := by
  rw [Scope.rateOf, h.resolve]

/-! ### Expressions -/

theorem ExprRated.isFastest_name {span : Span} {r : Rate} (h : ExprRated σ as p (.name span x) r)
    (hrefers : σ.Refers x) : r.IsFastest [σ.rateOf x] := by
  obtain ⟨-, ⟨v, isGlobal, hx, htable, -, -, rfl⟩ | ⟨hx, s, hs, rfl⟩⟩ := h
  · rw [Scope.Refers, hx.rateOf] at hrefers
    rw [hx.rateOf]
    exact Rate.AreFastest.fastest (.singleton (.singleton (hrefers.resolve_right htable)))
  · have hrate : σ.rateOf x = s.rate := by
      rw [Scope.rateOf, hx, hs]
      rfl
    rw [hrate]
    exact .singleton (by cases s <;> rfl)

mutual

theorem ExprRated.isFastest : ∀ {e : Expr} {p : Path} {r : Rate}, ExprRated σ as p e r →
    e.IsPlain σ → r.IsFastest (e.names.map σ.rateOf)
  | .constant _ _, _, _, h, _ => by
    rw [h.2]
    exact .nil
  | .name _ _, _, _, h, hplain => h.isFastest_name hplain
  | .element _ x index, _, _, h, hplain => by
    obtain ⟨-, v, isGlobal, r₁, hx, -, hsignal, hindex, rfl⟩ := h
    rw [Expr.names, map_cons, hx.rateOf]
    exact Rate.AreFastest.fastest
      (.cons (.singleton hsignal) (.singleton (hindex.isFastest hplain)))
  | .call _ callee args, _, _, h, hplain => by
    obtain ⟨-, rates, hargs, rfl | ⟨hnone, -⟩⟩ := h
    · exact (hargs.areFastest hplain.2).fastest
    · exact absurd hplain.1 (by simp [hnone])
  | .binary _ _ left right, _, _, h, hplain => by
    obtain ⟨-, r₁, r₂, hleft, hright, rfl⟩ := h
    rw [Expr.names, map_append]
    exact Rate.AreFastest.fastest
      (.cons (hleft.isFastest hplain.1) (.singleton (hright.isFastest hplain.2)))
  | .unary _ _ operand, _, _, h, hplain => by
    obtain ⟨-, r₁, hoperand, rfl⟩ := h
    exact Rate.AreFastest.fastest (.singleton (hoperand.isFastest hplain))
  | .conditional _ guard yes no, _, _, h, hplain => by
    obtain ⟨-, r₁, r₂, r₃, hguard, hyes, hno, rfl⟩ := h
    rw [Expr.names, append_assoc, map_append, map_append]
    exact Rate.AreFastest.fastest (.cons (hguard.isFastest hplain.1)
      (.cons (hyes.isFastest hplain.2.1) (.singleton (hno.isFastest hplain.2.2))))

theorem ArgsRated.areFastest : ∀ {args : List Expr} {table : Option Nat} {p : Path} {i : Nat}
    {rates : List Rate}, ArgsRated σ as table p i args rates → Expr.AllPlain σ args →
    Rate.AreFastest rates ((Expr.namesAll args).map σ.rateOf)
  | [], _, _, _, _, h, _ => by
    cases h
    exact .nil
  | arg :: args, _, _, _, _, h, hplain => by
    rw [ArgsRated] at h
    rw [Expr.namesAll, map_append]
    split at h
    · obtain ⟨⟨span, x, v, isGlobal, rfl, hx, htable, -⟩, hargs⟩ := h
      rw [Expr.names, map_singleton, hx.rateOf, htable]
      exact .table (hargs.areFastest hplain.2)
    · obtain ⟨r, others, harg, hargs, rfl⟩ := h
      exact .cons (harg.isFastest hplain.1) (hargs.areFastest hplain.2)

end

/-! ### Statements -/

theorem not_faster_of_assignFault? {stmt : Stmt} {t : Target} {v : Entry} {value index : Rate}
    (h : assignFault? stmt t v value index = none) (hx : v.rate ≠ .x) :
    v.rate.isSignal = true ∧ value.faster v.rate = false ∧
      (t.index.isSome = true → index.faster v.rate = false) := by
  rw [assignFault?] at h
  split at h
  · cases h
  next hsignal =>
    have hsignal : v.rate.isSignal = true := by
      simp only [Bool.and_eq_true, Bool.not_eq_true', decide_eq_true_eq, not_and] at hsignal
      by_contra hnot
      exact hsignal (Bool.eq_false_iff.2 hnot) hx
    refine ⟨hsignal, ?_⟩
    split at h
    next i hi =>
      split at h
      · cases h
      · split at h
        · cases h
        next hvalue =>
          split at h
          · cases h
          next hindex => exact ⟨Bool.eq_false_iff.2 hvalue, fun _ => Bool.eq_false_iff.2 hindex⟩
    next hi =>
      split at h
      · cases h
      · split at h
        · cases h
        next hvalue => exact ⟨Bool.eq_false_iff.2 hvalue, by simp [hi]⟩

theorem TargetRated.isFastest {stmt : Stmt} {t : Target} {value r : Rate} {rs : List Rate}
    (h : TargetRated σ as p stmt t value r) (hplain : t.IsPlain σ) (hvalue : value.IsFastest rs) :
    r.IsFastest (t.names.map σ.rateOf ++ rs) := by
  obtain ⟨-, v, isGlobal, index, hx, hindex, hfault, rfl⟩ := h
  have hrefers := hplain.1
  rw [Scope.Refers, hx.rateOf] at hrefers
  have hne : v.rate ≠ .x := by
    intro hx
    simp [hx, Rate.isSignal, Rate.speed?] at hrefers
  obtain ⟨hsignal, hslower, hindexSlower⟩ := not_faster_of_assignFault? hfault hne
  rw [if_pos (by simp [hsignal]), Target.names, map_cons, hx.rateOf]
  refine ((Rate.IsFastest.singleton hsignal).append ?_).append fun r hr =>
    Rate.not_faster_trans (hvalue.not_faster r hr) hvalue.signal hslower
  split
  next e he =>
    have hfastest := (hindex e he).isFastest (hplain.2 e he)
    exact fun r hr => Rate.not_faster_trans (hfastest.not_faster r hr) hfastest.signal
      (hindexSlower (by rw [he]; rfl))
  next => exact forall_mem_nil _

mutual

theorem StmtRated.isFastest : ∀ {s : Stmt} {p : Path} {r : Rate}, StmtRated σ as kind p s r →
    s.IsPlain σ → r.IsFastest (s.rates σ)
  | .assign _ t value, _, _, h, hplain => by
    obtain ⟨-, v, hvalue, ht⟩ := h
    rw [Stmt.rates, Stmt.occurrences, Occurrence.map_rate_name, map_append]
    exact ht.isFastest hplain.1 (hvalue.isFastest hplain.2)
  | .eval _ value, _, _, h, hplain => by
    rw [Stmt.rates, Stmt.occurrences, Occurrence.map_rate_name]
    exact h.2.isFastest hplain
  | .ifThen _ guard body, _, _, h, hplain | .loop _ guard body, _, _, h, hplain => by
    obtain ⟨-, r₁, rs, hguard, hbody, rfl⟩ := h
    rw [Stmt.rates, Stmt.occurrences, map_append, Occurrence.map_rate_name]
    exact Rate.AreFastest.fastest (.cons (hguard.isFastest hplain.1)
      (.singleton (hbody.areFastest hplain.2).fastest))
  | .ifElse _ guard yes no, _, _, h, hplain => by
    obtain ⟨-, r₁, rs, ss, hguard, hyes, hno, rfl⟩ := h
    rw [Stmt.rates, Stmt.occurrences, append_assoc, map_append, map_append,
      Occurrence.map_rate_name]
    exact Rate.AreFastest.fastest (.cons (hguard.isFastest hplain.1)
      (.cons (hyes.areFastest hplain.2.1).fastest (.singleton (hno.areFastest hplain.2.2).fastest)))
  | .output _ args, _, _, h, _ => by
    rw [h.2.2]
    exact (Rate.IsFastest.singleton rfl).append fun r _ => r.not_faster_a
  | .extend _ seconds, _, _, h, hplain => by
    obtain ⟨-, r₁, hseconds, rfl⟩ := h
    rw [Stmt.rates, Stmt.occurrences, Occurrence.map_rate_name]
    exact Rate.AreFastest.fastest (.singleton (hseconds.isFastest hplain))
  | .turnoff _, _, _, h, _ => by
    rw [h.2]
    exact .singleton rfl
  | .ret _ values, _, _, h, hplain => by
    obtain ⟨-, -, rates, hvalues, rfl⟩ := h
    rw [Stmt.rates, Stmt.occurrences, Occurrence.map_rate_name]
    exact (hvalues.areFastest hplain).fastest

theorem StmtsRated.areFastest : ∀ {ss : List Stmt} {p : Path} {i : Nat} {rates : List Rate},
    StmtsRated σ as kind p i ss rates → Stmt.AllPlain σ ss →
    Rate.AreFastest rates ((Stmt.occurrencesAll ss).map (Occurrence.rate σ))
  | [], _, _, _, h, _ => by
    cases h
    exact .nil
  | s :: ss, _, _, _, h, hplain => by
    obtain ⟨r, others, hs, hss, rfl⟩ := h
    rw [Stmt.occurrencesAll, map_append]
    exact .cons (hs.isFastest hplain.1) (hss.areFastest hplain.2)

end

end Check

namespace CheckedUnit

variable {s : Surroundings} {keyword : Keyword} {i : Instrument} {u : CheckedUnit}

theorem stmtsRated_of_ofInstrument (h : CheckedUnit.ofInstrument s keyword i = .ok u)
    (hclean : u.errors = []) : ∃ rates, Check.StmtsRated ⟨u.locals, some s.globals⟩ u.attributes
      .instrument [2] 0 i.body rates :=
  (follows_of_ofInstrument h hclean).body

theorem stmtRated_of_ofInstrument (h : CheckedUnit.ofInstrument s keyword i = .ok u)
    (hclean : u.errors = []) {n : Nat} {st : Stmt} (hst : i.body[n]? = some st) :
    Check.StmtRated ⟨u.locals, some s.globals⟩ u.attributes .instrument [n, 2] st
      (u.stmtRate n) := by
  obtain ⟨rates, hrates⟩ := stmtsRated_of_ofInstrument h hclean
  obtain ⟨r, -, hr⟩ := hrates.get hst
  rw [Nat.zero_add] at hr
  have hnoted : (u.attributes.get [n, 2]).signal = some (.fixed 1, r) := hr.noted
  rwa [CheckedUnit.stmtRate, Attributes.rate, Attribute.rate, hnoted]

theorem isFastest_stmtRate (h : CheckedUnit.ofInstrument s keyword i = .ok u)
    (hclean : u.errors = []) {n : Nat} {st : Stmt} (hst : i.body[n]? = some st)
    (hplain : st.IsPlain ⟨u.locals, some s.globals⟩) :
    (u.stmtRate n).IsFastest (st.rates ⟨u.locals, some s.globals⟩) :=
  (stmtRated_of_ofInstrument h hclean hst).isFastest hplain

end CheckedUnit

end Orchestrion
