import Orchestrion.Proofs.Refinement
import Orchestrion.Performance.Play
import Orchestrion.Sound.Buffer

/-!
# Values that do not change

An expression of numerals and of standard names of the rate `i`, put together by operators and by
core opcodes on values, has the rate `i` itself. What it is worth does not depend on the variables,
arrays and global variables that a pass finds, and the expression changes none of them. So its value
is the same in all passes of an instance with the same lifetime, but for one standard name: `time`
is the time of the present tick, and an expression that reads it changes from tick to tick.
-/

namespace Orchestrion

open Machine List

/-! ### Settled expressions -/

mutual

/-- The expression is put together from numerals and standard names of the rate `i` by operators and
by core opcodes on values. -/
def Expr.IsSettled (σ : Scope) : Expr → Prop
  | .constant _ _ => True
  | .name _ x =>
    σ.resolve? x = none ∧ ∃ name, StandardName.ofText? x = some name ∧ name.rate = .i
  | .element _ _ _ => False
  | .call _ callee args =>
    (∃ b, CoreOpcode.ofText? callee = some (.builtin b) ∧
      (CoreOpcode.builtin b).takes args.length = true) ∧ Expr.AllSettled σ args
  | .binary _ _ left right => left.IsSettled σ ∧ right.IsSettled σ
  | .unary _ _ operand => operand.IsSettled σ
  | .conditional _ guard yes no => guard.IsSettled σ ∧ yes.IsSettled σ ∧ no.IsSettled σ

/-- All of the expressions are put together from numerals and standard names of the rate `i`. -/
def Expr.AllSettled (σ : Scope) : List Expr → Prop
  | [] => True
  | e :: es => e.IsSettled σ ∧ Expr.AllSettled σ es

end

theorem Scope.rateOf_standard {σ : Scope} {x : Text} {name : StandardName}
    (hx : σ.resolve? x = none) (hname : StandardName.ofText? x = some name) :
    σ.rateOf x = name.rate := by
  rw [Scope.rateOf, hx, hname]
  rfl

mutual

theorem Expr.IsSettled.plain {σ : Scope} : ∀ {e : Expr}, e.IsSettled σ →
    e.IsPlain σ ∧ ∀ x ∈ e.names, σ.rateOf x = .i
  | .constant _ _, _ => ⟨trivial, by simp [Expr.names]⟩
  | .name _ x, h => by
    obtain ⟨hx, name, hname, hrate⟩ := h
    have hx : σ.rateOf x = .i := (Scope.rateOf_standard hx hname).trans hrate
    refine ⟨.inl (by rw [hx]; rfl), ?_⟩
    simpa [Expr.names] using hx
  | .call _ callee args, h => by
    obtain ⟨⟨b, hb, -⟩, hargs⟩ := h
    have hargs := Expr.AllSettled.plain hargs
    exact ⟨⟨by rw [hb]; rfl, hargs.1⟩, hargs.2⟩
  | .binary _ _ left right, h => by
    have hleft := Expr.IsSettled.plain h.1
    have hright := Expr.IsSettled.plain h.2
    exact ⟨⟨hleft.1, hright.1⟩, forall_mem_append.2 ⟨hleft.2, hright.2⟩⟩
  | .unary _ _ operand, h => Expr.IsSettled.plain (e := operand) h
  | .conditional _ guard yes no, h => by
    have hguard := Expr.IsSettled.plain h.1
    have hyes := Expr.IsSettled.plain h.2.1
    have hno := Expr.IsSettled.plain h.2.2
    refine ⟨⟨hguard.1, hyes.1, hno.1⟩, ?_⟩
    exact forall_mem_append.2 ⟨forall_mem_append.2 ⟨hguard.2, hyes.2⟩, hno.2⟩

theorem Expr.AllSettled.plain {σ : Scope} : ∀ {es : List Expr}, Expr.AllSettled σ es →
    Expr.AllPlain σ es ∧ ∀ x ∈ Expr.namesAll es, σ.rateOf x = .i
  | [], _ => ⟨trivial, by simp [Expr.namesAll]⟩
  | e :: es, h => by
    have he := Expr.IsSettled.plain h.1
    have hes := Expr.AllSettled.plain h.2
    exact ⟨⟨he.1, hes.1⟩, forall_mem_append.2 ⟨he.2, hes.2⟩⟩

end

/-! ### Their rate -/

namespace Check

/-- A part of a check that gives the rate that it has set for a node. -/
def Signals (p : Path) (x : Checking Rate) : Prop :=
  ∀ s r s', x s = .ok r s' → (s'.attributes.get p).signal = some (.fixed 1, r)

theorem Signals.set {p : Path} (node : Node) (r : Rate) :
    Signals p (do setSignal p node (.fixed 1) r; return r) := by
  intro s r' s' h
  obtain ⟨_, s₁, hset, h⟩ := exists_of_run_bind_eq_ok h
  cases h
  exact (setSignal_ok hset).2.2

theorem Signals.after {α : Type} {p : Path} {x : Checking α} {f : α → Checking Rate}
    (hf : ∀ a, Signals p (f a)) : Signals p (x >>= f) := by
  intro s r s' h
  obtain ⟨a, s₁, -, h⟩ := exists_of_run_bind_eq_ok h
  exact hf a s₁ r s' h

theorem signals_expr {c : Context} {p : Path} (e : Expr) : Signals p (expr c p e) := by
  cases e with
  | constant | name | unary =>
    exact .after fun _ => .set _ _
  | element | binary =>
    exact .after fun _ => .after fun _ => .set _ _
  | conditional =>
    exact .after fun _ => .after fun _ => .after fun _ => .set _ _
  | call =>
    rw [expr]
    split
    · exact .after fun _ => .after fun _ => .after fun _ => .set _ _
    · exact .after fun _ => .after fun _ => .set _ _

theorem rate_settled {c : Context} {p : Path} {e : Expr} {s s' : State} {r : Rate}
    (he : e.IsSettled ⟨s.locals, c.globals⟩) (h : expr c p e s = .ok r s') (hs' : s'.errors = []) :
    r = .i := by
  obtain ⟨hplain, hnames⟩ := he.plain
  have hfastest := (((finds_expr c p e).of_ok s r s' h).2.2 hs' _ (.refl _)).isFastest hplain
  rcases mem_cons.1 hfastest.mem with hr | hr
  · exact hr
  · obtain ⟨x, hx, rfl⟩ := mem_map.1 hr
    exact hnames x hx

end Check

/-! ### Their value -/

/-- Two moments of performances that are the same for an expression that reads the given names. -/
structure Host.AlikeFor (names : List Text) (h h' : Host) : Prop where
  settings : h'.settings = h.settings
  now : ∀ x ∈ names, StandardName.ofText? x = some .time → h'.now = h.now

namespace Host.AlikeFor

variable {h h' : Host} {xs ys : List Text}

theorem mono (halike : h.AlikeFor ys h') (hxs : xs ⊆ ys) : h.AlikeFor xs h' :=
  ⟨halike.settings, fun x hx => halike.now x (hxs hx)⟩

theorem standard_eq {x : Text} {name : StandardName} (halike : h.AlikeFor [x] h')
    (hx : StandardName.ofText? x = some name) (hname : name.rate = .i) (l : Lifetime) :
    h'.standard l name = h.standard l name := by
  have hsettings := halike.settings
  cases name with
  | time =>
    have hnow := halike.now x mem_cons_self hx
    rw [Host.standard, Host.standard, Host.seconds, Host.seconds, hsettings, hnow]
  | elapsed => cases hname
  | sampleRate | controlRate | duration | inChannels | outChannels =>
    simp only [Host.standard, Host.seconds, hsettings]

end Host.AlikeFor

namespace Scene

def during (σ : Scene) (host : Host) : Scene := { σ with host := host }

theorem unbound_of_resolve? {σ : Scene} (h : σ.Aligned) {x : Text}
    (hx : Scope.resolve? ⟨σ.locals, some σ.globals⟩ x = none) :
    σ.local? x = none ∧ σ.global? x = none := by
  rw [Scope.resolve?] at hx
  split at hx
  · cases hx
  next hlocal =>
    rw [Option.map_eq_none_iff] at hx
    exact ⟨h.local?_eq_none.2 hlocal, h.global?_eq_none hx⟩

theorem value_standard {σ : Scene} (h : σ.Aligned) {x : Text} {name : StandardName} (span : Span)
    (hx : Scope.resolve? ⟨σ.locals, some σ.globals⟩ x = none)
    (hname : StandardName.ofText? x = some name) (m : σ.Memory) :
    σ.value (.name span x) m = .ok (σ.host.standard m.lifetime name) m := by
  obtain ⟨hlocal, hglobal⟩ := unbound_of_resolve? h hx
  rw [value, nameValue, hlocal, hglobal, hname]
  rfl

theorem value_builtin {σ : Scene} {callee : Text} {b : Builtin} {args : List Expr}
    {vs : List Float32} {v : Float32} {m m' : σ.Memory} (span : Span)
    (hb : CoreOpcode.ofText? callee = some (.builtin b)) (hvs : σ.values args m = .ok vs m')
    (hv : b.value? vs = some v) : σ.value (.call span callee args) m = .ok v m' := by
  rw [value, hb]
  refine (run_bind_of_eq_ok hvs _).trans ?_
  rw [hv]
  rfl

mutual

theorem exists_value (σ : Scene) (hσ : σ.Aligned) (l : Lifetime) :
    ∀ {e : Expr}, e.IsSettled ⟨σ.locals, some σ.globals⟩ →
      ∃ v, ∀ host, σ.host.AlikeFor e.names host → ∀ m : (σ.during host).Memory, m.lifetime = l →
        (σ.during host).value e m = .ok v m
  | .constant _ c, _ => ⟨σ.number c.value, fun _ _ _ _ => rfl⟩
  | .name span x, h => by
    obtain ⟨hx, name, hname, hrate⟩ := h
    refine ⟨σ.host.standard l name, fun host halike m hm => ?_⟩
    rw [value_standard (σ := σ.during host) ⟨hσ.locals, hσ.globals⟩ span hx hname m, hm,
      ← halike.standard_eq hname hrate]
    rfl
  | .call span callee args, h => by
    obtain ⟨⟨b, hb, hcount⟩, hargs⟩ := h
    obtain ⟨vs, hlength, hvs⟩ := exists_values σ hσ l hargs
    rw [← hlength] at hcount
    obtain ⟨v, hv⟩ := Option.isSome_iff_exists.1 (Builtin.isSome_value? hcount)
    exact ⟨v, fun host halike m hm => value_builtin span hb (hvs host halike m hm) hv⟩
  | .binary _ op left right, h => by
    obtain ⟨v, hv⟩ := exists_value σ hσ l h.1
    obtain ⟨w, hw⟩ := exists_value σ hσ l h.2
    refine ⟨σ.operate op v w, fun host halike m hm => ?_⟩
    have hleft := hv host (halike.mono (subset_append_left ..)) m hm
    have hright := hw host (halike.mono (subset_append_right ..)) m hm
    rw [value, run_bind_of_eq_ok hleft, run_bind_of_eq_ok hright]
    rfl
  | .unary _ .neg operand, h => by
    obtain ⟨v, hv⟩ := exists_value σ hσ l (e := operand) h
    refine ⟨-v, fun host halike m hm => ?_⟩
    rw [value, run_bind_of_eq_ok (hv host halike m hm)]
    rfl
  | .unary _ .not operand, h => by
    obtain ⟨v, hv⟩ := exists_value σ hσ l (e := operand) h
    refine ⟨σ.truth (v == 0), fun host halike m hm => ?_⟩
    rw [value, run_bind_of_eq_ok (hv host halike m hm)]
    rfl
  | .conditional _ guard yes no, h => by
    obtain ⟨v, hv⟩ := exists_value σ hσ l h.1
    obtain ⟨a, ha⟩ := exists_value σ hσ l h.2.1
    obtain ⟨b, hb⟩ := exists_value σ hσ l h.2.2
    -- The guard has one value, and so every host takes the same branch.
    refine ⟨if v == 0 then b else a, fun host halike m hm => ?_⟩
    have halikes : σ.host.AlikeFor (guard.names ++ (yes.names ++ no.names)) host :=
      append_assoc .. ▸ halike
    have hrest := halikes.mono (subset_append_right ..)
    rw [value, run_bind_of_eq_ok (hv host (halikes.mono (subset_append_left ..)) m hm)]
    split
    · exact hb host (hrest.mono (subset_append_right ..)) m hm
    · exact ha host (hrest.mono (subset_append_left ..)) m hm

theorem exists_values (σ : Scene) (hσ : σ.Aligned) (l : Lifetime) :
    ∀ {es : List Expr}, Expr.AllSettled ⟨σ.locals, some σ.globals⟩ es →
      ∃ vs, vs.length = es.length ∧ ∀ host, σ.host.AlikeFor (Expr.namesAll es) host →
        ∀ m : (σ.during host).Memory, m.lifetime = l → (σ.during host).values es m = .ok vs m
  | [], _ => ⟨[], rfl, fun _ _ _ _ => rfl⟩
  | e :: es, h => by
    obtain ⟨v, hv⟩ := exists_value σ hσ l h.1
    obtain ⟨vs, hlength, hvs⟩ := exists_values σ hσ l h.2
    refine ⟨v :: vs, by rw [length_cons, length_cons, hlength],
      fun host halike m hm => ?_⟩
    have hhead := hv host (halike.mono (subset_append_left ..)) m hm
    have htail := hvs host (halike.mono (subset_append_right ..)) m hm
    rw [values, run_bind_of_eq_ok hhead, run_bind_of_eq_ok htail]
    rfl

end

end Scene

/-! ### All units of an orchestra -/

section Units

variable (settings : Settings) (globals : VariableTable) (unit : CheckedUnit) (i : Instrument)
  (code : CompiledUnit)

/-- An expression has a value in the passes at a moment, whoever evaluates it: the source says so,
and so does the code, wherever code of the expression stands. -/
structure Instrument.Evaluates (host : Host) (m : (i.scene unit globals host).Memory) (e : Expr)
    (v : Float32) : Prop where
  direct : (i.scene unit globals host).value e m = .ok v m
  coded : ∀ slot ≠ .construct, ∀ is p vs,
    ExprCode ((Linkage.of settings globals).context unit i) code e is →
    CodeAt ⟨code, slot, some host⟩ p is →
    ((vs.length + Instruction.pushCount is : Nat) : Int) ≤ code.maxStack →
    ∃ k, Steps ⟨code, slot, some host⟩ k (m.state p vs)
      (m.state (p + Instruction.wordCount is : Nat) (v :: vs))

variable {settings globals unit i code}

theorem Instrument.evaluates_of_value (hglobals : globals.Aligned)
    (hsound : CheckedUnit.Sound i unit.locals)
    (hgenerate : i.generate (.of settings globals) unit = .ok code) {host : Host}
    {m : (i.scene unit globals host).Memory} {e : Expr} {v : Float32}
    (hvalue : (i.scene unit globals host).value e m = .ok v m) :
    i.Evaluates settings globals unit code host m e v := by
  refine ⟨hvalue, fun slot _ is p vs hcode hstands hroom => ?_⟩
  have hplays := (Instrument.generate_ok hsound.calls hgenerate).plays
    (Instrument.pooled_zero hgenerate) slot host
  have hcomputes : Computes ⟨code, slot, some host⟩ 0 [] is _ _ :=
    computes_expr (i.refers_scene host hsound.aligned hglobals) hplays hcode
  have hleads := hcomputes.leads p vs m hstands (by simpa using hroom)
  rw [hvalue] at hleads
  exact hleads

end Units

/-- Values of the rate `i` keep. In every unit of a text that compiles, an expression that is put
together from numerals and standard names of the rate `i` has the rate `i`, and it has a value in
every pass that changes nothing and is the same in any two passes of an instance with the same
lifetime: at all ticks if the expression does not read the time, and at the same tick otherwise. The
time is that of the present tick. -/
theorem Orchestra.settled_values_keep {source : Text} {o : Orchestra}
    (h : Orchestra.compile source = .ok o) :
    ∃ checked, CheckedOrchestra.ofText? source = some checked ∧
      ∀ i ∈ checked.sections.instruments ++ checked.sections.templates,
        ∃ unit code, (unit, i) ∈ checked.parts ∧ o.repertoire.unit? i.ident = some code ∧
          ∀ e : Expr, e.IsSettled ⟨unit.locals, some checked.global.locals⟩ →
            (∀ (c : Check.Context) p s r s', s.locals = unit.locals →
              c.globals = some checked.global.locals → Check.expr c p e s = .ok r s' →
              s'.errors = [] → (s'.attributes.get p).signal = some (.fixed 1, .i)) ∧
            (∀ (host : Host) (l : Lifetime), ∃ v, ∀ host' m, host.AlikeFor e.names host' →
              m.lifetime = l →
              i.Evaluates o.settings checked.global.locals unit code host' m e v) ∧
            (∀ span x, e = .name span x → StandardName.ofText? x = some .time → ∀ host m,
              i.Evaluates o.settings checked.global.locals unit code host m e
                (host.seconds host.now)) := by
  obtain ⟨checked, htext, hcompiled⟩ := Orchestra.compile_ok h
  refine ⟨checked, htext, fun i hi => ?_⟩
  rw [← hcompiled.members] at hi
  obtain ⟨⟨unit, i⟩, hpart, rfl⟩ := mem_map.1 hi
  obtain ⟨hsound, code, hgenerate, hfound⟩ := hcompiled.unit unit i hpart
  have haligned {host : Host} : (i.scene unit checked.global.locals host).Aligned :=
    ⟨hsound.aligned, hcompiled.globals⟩
  refine ⟨unit, code, hpart, hfound, fun e he => ⟨?_, fun host l => ?_, ?_⟩⟩
  · intro c p s r s' hlocals hglobals hexpr hclean
    have hrate := Check.rate_settled (hlocals ▸ hglobals ▸ he) hexpr hclean
    rw [Check.signals_expr e s r s' hexpr, hrate]
  · obtain ⟨v, hv⟩ := (i.scene unit checked.global.locals host).exists_value haligned l he
    refine ⟨v, fun host' m halike hlifetime => ?_⟩
    exact Instrument.evaluates_of_value hcompiled.globals hsound hgenerate
      (hv host' halike m hlifetime)
  · rintro span x rfl htime host m
    refine Instrument.evaluates_of_value hcompiled.globals hsound hgenerate ?_
    exact Scene.value_standard haligned span he.1 htime m

/-- An orchestra that sends out the time, one sample in a tick. -/
def Orchestra.watch : Text :=
  "global \x7b srate 1; krate 1; \x7d instr a() \x7b output(time); \x7d"

/-- How many ticks an instance has: its duration in ticks, and one. -/
def Expr.tickCount : Expr :=
  .binary {} .add (.binary {} .mul (.name {} "dur") (.name {} "k_rate")) (.constant {} ⟨"1", true⟩)

theorem Orchestra.settled_values_keep_watch :
    ∃ (o : Orchestra) (checked : CheckedOrchestra) (unit : CheckedUnit) (i : Instrument)
      (code : CompiledUnit), Orchestra.compile watch = .ok o ∧ (unit, i) ∈ checked.parts ∧
      o.repertoire.unit? i.ident = some code ∧
      Expr.tickCount.IsSettled ⟨unit.locals, some checked.global.locals⟩ ∧
      ∀ l, ∃ v, ∀ now m, m.lifetime = l → i.Evaluates o.settings checked.global.locals unit code
        ⟨o.settings, now⟩ m .tickCount v := by
  have hfacts : (do
      let o ← (Orchestra.compile watch).toOption
      let checked ← CheckedOrchestra.ofText? watch
      let i ← checked.sections.instruments.head?
      some (checked.parts.all fun part =>
        let scope : Scope := ⟨part.1.locals, some checked.global.locals⟩
        scope.resolve? "dur" = none ∧ scope.resolve? "k_rate" = none)) = some true := by
    decide +kernel
  simp only [Option.bind_eq_bind, Option.bind_eq_some_iff, toOption_eq_some_iff, Option.some.injEq,
    all_eq_true, decide_eq_true_eq] at hfacts
  obtain ⟨o, ho, checked, hchecked, i, hi, hscope⟩ := hfacts
  obtain ⟨_, hsame, hunits⟩ := settled_values_keep ho
  cases hchecked.symm.trans hsame
  obtain ⟨unit, code, hpart, hcode, hsettled⟩ :=
    hunits i (mem_append_left _ (mem_of_head? hi))
  obtain ⟨hdur, hkrate⟩ := hscope (unit, i) hpart
  have htickCount : Expr.tickCount.IsSettled ⟨unit.locals, some checked.global.locals⟩ :=
    ⟨⟨⟨hdur, .duration, by decide, rfl⟩, ⟨hkrate, .controlRate, by decide, rfl⟩⟩, trivial⟩
  refine ⟨o, checked, unit, i, code, ho, hpart, hcode, htickCount, fun l => ?_⟩
  obtain ⟨v, hv⟩ := (hsettled .tickCount htickCount).2.1 ⟨o.settings, 0⟩ l
  have htimeless : ∀ x ∈ Expr.tickCount.names, StandardName.ofText? x ≠ some .time := by decide
  refine ⟨v, fun now m hm => hv ⟨o.settings, now⟩ m ⟨rfl, fun x hx htime => ?_⟩ hm⟩
  exact absurd htime (htimeless x hx)

/-- The value of an expression of the rate `i` may change: an instance that starts at the first tick
and lasts for one more sends out the time, which is none at first and one second then. -/
theorem Orchestra.time_passes :
    ((Orchestra.compile watch).toOption.map fun o =>
      (o.play {} ⟨"0 a 1\n", none⟩ (Buffer.ofChannels 1)).sink.samples) = some #[0, 1] := by
  decide +kernel

end Orchestrion
