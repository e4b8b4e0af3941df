import Orchestrion.Proofs.Code.Unit
import Orchestrion.Proofs.Machine.Instructions

/-!
# The code does what the source says

Whatever code is related to a construct computes the direct evaluation of the construct: by
induction on the code of expressions and of statements, with one rule for each way to put blocks
together.
-/

/-! ### Scenes -/

namespace Orchestrion.Scene

open List

variable {σ : Scene} {x : Text}

/-- The maps of the scene give its names their places. -/
structure Aligned (σ : Scene) : Prop where
  locals : σ.locals.Aligned
  globals : σ.globals.Aligned

theorem Aligned.local?_eq_none (h : σ.Aligned) : σ.local? x = none ↔ σ.locals.lookup? x = none := by
  rw [local?, findFinIdx?_eq_none_iff, h.locals.lookup?_eq, find?_eq_none]

theorem Aligned.global?_eq_none (h : σ.Aligned) (hx : σ.globals.lookup? x = none) :
    σ.global? x = none := by
  rw [h.globals.lookup?_eq_none] at hx
  rw [global?, findFinIdx?_eq_none_iff]
  intro name hmem heq
  obtain rfl : name = x := of_decide_eq_true heq
  rw [layout, StoreLayout.names_ofTable] at hmem
  exact hx ((filter_sublist.map Entry.ident).mem hmem)

end Orchestrion.Scene

namespace Orchestrion.Machine

open Instruction Emit

/-! ### Comparisons -/

theorem holds_eq_contains (comparison : Comparison) :
    comparison.holds 0 = [.eq, .le, .ge].contains comparison ∧
      comparison.holds 1 = [.ne, .gt, .ge].contains comparison ∧
      comparison.holds (-1) = [.ne, .lt, .le].contains comparison := by
  cases comparison <;> decide +kernel

theorem holds_order {op : BinaryOp} {comparison : Comparison}
    (h : combination op = .comparing comparison) (σ : Scene) (l r : Float32) :
    σ.operate op l r = σ.truth (comparison.holds (order l r)) := by
  obtain ⟨hzero, hone, hminus⟩ := holds_eq_contains comparison
  rw [order]
  split
  next heq => cases op <;> cases h <;> simp [Scene.operate, Scene.less, hzero, heq]
  next hne =>
    split
    next hgt => cases op <;> cases h <;> simp [Scene.operate, Scene.less, hone, hne, hgt]
    next hle => cases op <;> cases h <;> simp [Scene.operate, Scene.less, hminus, hne, hle]

theorem holds_eq_order {z : Float32} (hz : (z == 0) = true) (v : Float32) :
    Comparison.eq.holds (order v z) = (v == 0) := by
  obtain ⟨hzero, hone, hminus⟩ := holds_eq_contains .eq
  rw [← Number.beq_eq_beq_zero hz, order]
  split
  next heq => simp [hzero, heq]
  next hne => split <;> simp [hone, hminus, hne]

/-! ### Constants -/

theorem pooled_zero_beq (u : CompiledUnit) : (u.pooled 0 == 0) = true := by
  rw [CompiledUnit.pooled, Number.narrow_zero]
  cases hfind : u.nums.find? fun y => y == 0 with
  | some y =>
    have hy := List.find?_some hfind
    exact hy
  | none => exact Number.narrow_units.2.1

theorem pooled_of_ne (u : CompiledUnit) {v : Float} (h : (Number.narrow v == 0) = false) :
    u.pooled v = Number.narrow v := by
  rw [CompiledUnit.pooled]
  cases hfind : u.nums.find? fun y => y == Number.narrow v with
  | none => rfl
  | some y =>
    have hy := List.find?_some hfind
    rcases Number.eq_or_zeros_of_beq hy with rfl | ⟨-, hzero⟩
    · rfl
    · rw [h] at hzero
      cases hzero

theorem pooled_one (u : CompiledUnit) : u.pooled 1 = 1 := by
  obtain ⟨-, -, hone, hne⟩ := Number.narrow_units
  rw [pooled_of_ne u (by rw [hone, hne]), hone]

variable {c : Context} {σ : Scene} {rounds : Nat}

theorem Context.Plays.zero_beq (hplays : c.Plays σ) : (σ.zero == 0) = true := by
  rw [← hplays.zero]
  exact pooled_zero_beq c.unit

theorem Context.Plays.pooled_literal (hplays : c.Plays σ) (l : Literal) :
    c.unit.pooled l.value = σ.number l.value := by
  rw [Scene.number]
  split
  next hzero =>
    rw [← hplays.zero, CompiledUnit.pooled, CompiledUnit.pooled, Number.narrow_zero,
      Number.narrow_eq_zero (Number.isUnsigned_literal l) hzero]
  next hne => exact pooled_of_ne _ (by simpa using hne)

/-! ### Names -/

/-- Code for the context refers to the variables of the scene. -/
structure Refers (e : EmitContext) (σ : Scene) : Prop where
  field : ∀ x, e.field? x = σ.locals.index? x
  scope : e.scope = ⟨σ.locals, some σ.globals⟩
  store : e.store = σ.layout
  aligned : σ.Aligned

namespace Refers

variable {e : EmitContext} {x : Text}

theorem field? (h : Refers e σ) (x : Text) : e.field? x = (σ.local? x).map Fin.val := by
  rw [h.field, h.aligned.locals.index?_eq, Scene.local?, List.findIdx?_eq_map_findFinIdx?_val]

theorem exists_local (h : Refers e σ) {f : Nat} (hf : e.field? x = some f) :
    ∃ k, σ.local? x = some k ∧ k.val = f := by
  rwa [h.field?, Option.map_eq_some_iff] at hf

theorem local?_eq_none (h : Refers e σ) (hx : e.field? x = none) : σ.local? x = none := by
  rwa [h.field?, Option.map_eq_none_iff] at hx

theorem exists_global (h : Refers e σ) {g : Nat} (hg : e.store.index? x = some g) :
    ∃ k, σ.global? x = some k ∧ k.val = g := by
  rwa [h.store, Scene.layout, StoreLayout.index?_ofTable h.aligned.globals,
    List.findIdx?_eq_map_findFinIdx?_val, Option.map_eq_some_iff] at hg

theorem global?_eq_none (h : Refers e σ) (hlocal : e.field? x = none)
    (hresolve : ∀ entry, e.scope.resolve? x ≠ some (entry, true)) : σ.global? x = none := by
  have hentry := h.aligned.local?_eq_none.1 (h.local?_eq_none hlocal)
  have hlookup : σ.globals.lookup? x = none := by
    cases hfound : σ.globals.lookup? x with
    | none => rfl
    | some entry =>
      refine absurd ?_ (hresolve entry)
      rw [h.scope, Scope.resolve?, hentry, Scope.lookupGlobal?, Option.bind_some, hfound,
        Option.map_some]
  exact h.aligned.global?_eq_none hlookup

end Refers

/-! ### Expressions -/

theorem length_values {es : List Expr} {vs : List Float32} {m m' : σ.Memory}
    (h : σ.values es m = .ok vs m') : vs.length = es.length := by
  induction es generalizing vs m with
  | nil =>
    cases h
    rfl
  | cons e es ih =>
    obtain ⟨v, m₁, -, h⟩ := exists_of_run_bind_eq_ok h
    obtain ⟨ws, m₂, hws, h⟩ := exists_of_run_bind_eq_ok h
    cases h
    rw [List.length_cons, List.length_cons, ih hws]

theorem computes_test {test : Instruction} (htest : PushCode c.unit 0 test) (hplays : c.Plays σ)
    (v : Float32) :
    Computes c rounds [v] [test, .compare] (pure v : σ.Evaluation Float32)
      fun v => [order v σ.zero] := by
  have hcompare : Computes c rounds [v] ([test] ++ [.compare]) (pure () : σ.Evaluation Unit)
      fun _ => [order v (c.unit.pooled 0)] :=
    ((computes_push htest ()).frame [v]).seq fun _ _ => computes_compare v _ ()
  rw [hplays.zero] at hcompare
  exact hcompare.map (fun _ => v) fun _ => rfl

theorem computes_condition {guard : σ.Evaluation Float32} {gs : List Instruction}
    {test : Instruction} (htest : PushCode c.unit 0 test) (hplays : c.Plays σ)
    (hguard : Computes c rounds [] gs guard fun v => [v]) :
    Computes c rounds [] (gs ++ [test, .compare]) guard fun v => [order v σ.zero] := by
  have hseq := hguard.seq fun v _ => computes_test htest hplays v
  rwa [bind_pure] at hseq

theorem computes_constants {first second : Instruction} {a b : Float}
    (hfirst : PushCode c.unit a first) (hsecond : PushCode c.unit b second)
    (comparison : Comparison) (w : Float32) :
    Computes c rounds [w] [.jumpIf comparison 4, first, .jump 2, second]
      (pure (if comparison.holds w then c.unit.pooled b else c.unit.pooled a) :
        σ.Evaluation Float32) fun v => [v] := by
  have hpush {v : Float} {i : Instruction} (h : PushCode c.unit v i) :
      Computes c rounds [] [i] (pure (c.unit.pooled v) : σ.Evaluation Float32) fun v => [v] :=
    (computes_push h ()).map (fun _ => c.unit.pooled v) fun _ => rfl
  have hchoice := computes_choice comparison w (hpush hfirst) (hpush hsecond)
  obtain ⟨k, rfl, -⟩ := hfirst
  obtain ⟨k', rfl, -⟩ := hsecond
  rw [apply_ite pure]
  exact hchoice

theorem computes_combine {op : BinaryOp} {is : List Instruction} (hplays : c.Plays σ)
    (h : CombineCode c.unit op is) (l r : Float32) :
    Computes c rounds [r, l] is (pure (σ.operate op l r) : σ.Evaluation Float32)
      fun v => [v] := by
  cases h with
  | direct h => exact computes_direct h σ l r
  | comparing h hzero hone =>
    rw [holds_order h, Scene.truth, ← hplays.zero, ← pooled_one c.unit]
    exact (computes_compare l r ()).seq fun _ _ => computes_constants hzero hone _ (order l r)

theorem computes_tableValue {op : CoreOpcode} {x : Text} {f : Fin σ.locals.entries.length}
    {vs : List Float32} (hplays : c.Plays σ) (hop : ∀ b, op ≠ .builtin b)
    (hcount : op.takes (vs.length + 1) = true) (hf : σ.local? x = some f) :
    Computes c rounds vs.reverse [tableInstruction op f] (σ.tableValue x f op vs)
      fun v => [v] := by
  match op, vs, hcount with
  | .builtin b, _, _ => exact absurd rfl (hop b)
  | .tableLength, [], _ => exact computes_tableLen x f
  | .tableRead, [index], _ => exact computes_read hplays hf (.inr rfl) index
  | .tableWrite, [index, v], _ =>
    exact (computes_write hplays hf true rfl index v).map (fun _ => v) fun _ => rfl

section Expressions

variable {e : EmitContext}

mutual

theorem computes_expr (hrefers : Refers e σ) (hplays : c.Plays σ) {expr : Expr}
    {is : List Instruction} (h : ExprCode e c.unit expr is) :
    Computes c rounds [] is (σ.value expr) fun v => [v] := by
  cases h with
  | constant h =>
    rw [Scene.value, ← hplays.pooled_literal]
    exact (computes_push h ()).map (fun _ => _) fun _ => rfl
  | field h =>
    obtain ⟨f, hf, rfl⟩ := hrefers.exists_local h
    rw [Scene.value, Scene.nameValue, hf]
    exact computes_loadField f
  | global h _ hglobal =>
    obtain ⟨k, hk, rfl⟩ := hrefers.exists_global hglobal
    rw [Scene.value, Scene.nameValue, hrefers.local?_eq_none h, hk]
    exact computes_loadGlobal hplays k
  | standard h hresolve hstandard =>
    rw [Scene.value, Scene.nameValue, hrefers.local?_eq_none h, hrefers.global?_eq_none h hresolve,
      hstandard]
    exact computes_loadStd hplays _
  | element h hindex =>
    obtain ⟨f, hf, rfl⟩ := hrefers.exists_local h
    rw [Scene.value, hf]
    exact (computes_expr hrefers hplays hindex).seq fun index _ =>
      (computes_trunc index ()).seq fun _ _ => computes_read hplays hf (.inl rfl) _
  | binary hleft hright h =>
    rw [Scene.value, List.append_assoc]
    exact (computes_expr hrefers hplays hleft).seq fun l _ =>
      ((computes_expr hrefers hplays hright).frame [l]).seq fun r _ => computes_combine hplays h l r
  | neg h =>
    exact (computes_expr hrefers hplays h).seq fun v _ => computes_neg v
  | not h htest hzero hone =>
    refine (computes_expr hrefers hplays h).seq fun v _ => ?_
    -- The jump asks whether the operand is other than zero, which is the opposite.
    have hnot : σ.truth (v == 0) = if Comparison.ne.holds (order v σ.zero) then c.unit.pooled 0
        else c.unit.pooled 1 := by
      have hne (w : Float32) : Comparison.ne.holds w = !Comparison.eq.holds w := rfl
      rw [hne, holds_eq_order hplays.zero_beq, pooled_one, hplays.zero]
      cases v == 0 <;> rfl
    rw [hnot]
    exact (computes_test htest hplays v).seq fun v' _ =>
      computes_constants hone hzero .ne (order v' _)
  | conditional hguard htest hyes hno =>
    rw [Scene.value, List.append_assoc]
    refine (computes_condition htest hplays (computes_expr hrefers hplays hguard)).seq fun v _ => ?_
    rw [← holds_eq_order hplays.zero_beq]
    exact computes_choice .eq _ (computes_expr hrefers hplays hyes)
      (computes_expr hrefers hplays hno)
  | builtin h hcount hargs =>
    rw [Scene.value, h]
    refine (computes_exprs hrefers hplays hargs).seq fun vs hvs => ?_
    obtain ⟨m, m', hvs⟩ := hvs
    rw [← length_values hvs] at hcount ⊢
    obtain ⟨v, hv⟩ := Option.isSome_iff_exists.1 (Builtin.isSome_value? hcount)
    rw [hv]
    exact computes_call hcount hv
  | @table span tableSpan callee x values op _ _ h hop hcount hfield hvalues =>
    obtain ⟨f, hf, rfl⟩ := hrefers.exists_local hfield
    have htable : σ.value (.call span callee (.name tableSpan x :: values)) =
        σ.tableCall op (.name tableSpan x :: values) := by
      rw [Scene.value, h]
      cases op with
      | builtin b => exact absurd rfl (hop b)
      | _ => rfl
    rw [htable, Scene.tableCall, hf]
    refine (computes_exprs hrefers hplays hvalues).seq fun vs hvs => ?_
    obtain ⟨m, m', hvs⟩ := hvs
    rw [← length_values hvs] at hcount
    exact computes_tableValue hplays hop hcount hf

theorem computes_exprs (hrefers : Refers e σ) (hplays : c.Plays σ) {es : List Expr}
    {is : List Instruction} (h : ExprsCode e c.unit es is) :
    Computes c rounds [] is (σ.values es) List.reverse := by
  cases h with
  | nil =>
    exact .nil rfl
  | cons he hes =>
    exact (computes_expr hrefers hplays he).seq fun v _ =>
      ((computes_exprs hrefers hplays hes).frame [v]).map (v :: ·) fun _ => List.reverse_cons

end

end Expressions

/-! ### Statements -/

section Statements

variable {e : EmitContext}

/-- What a target keeps on the stack until the value is there. -/
def targetStack : σ.Place → List Float32
  | .element _ _ index => [index]
  | _ => []

theorem computes_target (hrefers : Refers e σ) (hplays : c.Plays σ) {t : Target}
    {ts : List Instruction} {store : Instruction} (h : TargetCode e c.unit t ts store) :
    Computes c rounds [] ts (σ.target t) targetStack := by
  cases h with
  | field h =>
    obtain ⟨f, hf, rfl⟩ := hrefers.exists_local h
    rw [Scene.target, hf]
    exact .nil rfl
  | element h hindex =>
    obtain ⟨f, hf, rfl⟩ := hrefers.exists_local h
    rw [Scene.target, hf]
    exact (computes_expr hrefers hplays hindex).seq fun index _ =>
      (computes_trunc index ()).map (fun _ => _) fun _ => rfl
  | global h _ hglobal =>
    obtain ⟨k, hk, rfl⟩ := hrefers.exists_global hglobal
    rw [Scene.target, hrefers.local?_eq_none h, hk]
    exact .nil rfl

theorem computes_store (hrefers : Refers e σ) (hplays : c.Plays σ) {t : Target}
    {ts : List Instruction} {store : Instruction} (h : TargetCode e c.unit t ts store)
    {place : σ.Place} {m m' : σ.Memory} (hplace : σ.target t m = .ok place m') (v : Float32) :
    Computes c rounds (v :: targetStack place) [store] (σ.assign v place) fun _ => [] := by
  cases h with
  | field h =>
    obtain ⟨f, hf, rfl⟩ := hrefers.exists_local h
    rw [Scene.target, hf] at hplace
    cases hplace
    exact computes_storeField f v
  | element h hindex =>
    obtain ⟨f, hf, rfl⟩ := hrefers.exists_local h
    rw [Scene.target, hf] at hplace
    obtain ⟨index, m₁, -, hplace⟩ := exists_of_run_bind_eq_ok hplace
    cases hplace
    exact computes_write hplays hf false rfl _ v
  | global h _ hglobal =>
    obtain ⟨k, hk, rfl⟩ := hrefers.exists_global hglobal
    rw [Scene.target, hrefers.local?_eq_none h, hk] at hplace
    cases hplace
    exact computes_storeGlobal hplays k v

mutual

theorem computes_stmt (hrefers : Refers e σ) (hplays : c.Plays σ) {s : Stmt}
    {is : List Instruction} (h : StmtCode e c.unit s is) :
    Computes c rounds [] is (σ.perform rounds s) fun _ => [] := by
  cases h with
  | assign ht hvalue =>
    rw [List.append_assoc]
    refine (computes_target hrefers hplays ht).seq fun place hplace => ?_
    obtain ⟨m, m', hplace⟩ := hplace
    exact ((computes_expr hrefers hplays hvalue).frame _).seq fun v _ =>
      computes_store hrefers hplays ht hplace v
  | eval h =>
    exact (computes_expr hrefers hplays h).seq fun v _ => computes_pop v ()
  | ifThen hguard htest hbody =>
    refine (computes_condition htest hplays (computes_expr hrefers hplays hguard)).seq fun v _ => ?_
    rw [← holds_eq_order hplays.zero_beq]
    exact computes_skip .eq _ (computes_stmts hrefers hplays hbody)
  | ifElse hguard htest hyes hno =>
    rw [List.append_assoc]
    refine (computes_condition htest hplays (computes_expr hrefers hplays hguard)).seq fun v _ => ?_
    rw [← holds_eq_order hplays.zero_beq]
    exact computes_choice .eq _ (computes_stmts hrefers hplays hyes)
      (computes_stmts hrefers hplays hno)
  | loop hguard htest hbody =>
    exact computes_loop (holds_eq_order hplays.zero_beq)
      (computes_condition htest hplays (computes_expr hrefers hplays hguard))
      (computes_stmts hrefers hplays hbody)
  | output h =>
    simp only [Scene.perform, Scene.values, bind_assoc, pure_bind]
    exact (computes_expr hrefers hplays h).seq fun v _ => computes_output σ v
  | outputFrame hcount hroom h =>
    refine (computes_exprs hrefers hplays h).seq fun vs hvs => ?_
    obtain ⟨m, m', hvs⟩ := hvs
    rw [← length_values hvs] at hcount hroom ⊢
    exact computes_outputFrame σ hcount hroom
  | extend h =>
    exact (computes_expr hrefers hplays h).seq fun v _ => computes_extend hplays v
  | turnoff =>
    exact computes_turnoff hplays

theorem computes_stmts (hrefers : Refers e σ) (hplays : c.Plays σ) {ss : List Stmt}
    {is : List Instruction} (h : StmtsCode e c.unit ss is) :
    Computes c rounds [] is (σ.performAll rounds ss) fun _ => [] := by
  cases h with
  | nil =>
    exact .nil rfl
  | cons hs hss =>
    exact (computes_stmt hrefers hplays hs).seq fun _ _ => computes_stmts hrefers hplays hss

end

end Statements

/-! ### Slots -/

section Slots

variable {e : EmitContext} {slot : Slot}

theorem computes_share {chosen : Entry → Bool} {move : Int → Int → Instruction}
    {copy : Entry → σ.Evaluation Unit} (hrefers : Refers e σ)
    (hmove : ∀ {entry : Entry} {f : Fin σ.locals.entries.length} {k : Fin σ.layout.names.length},
      σ.local? entry.ident = some f → σ.global? entry.ident = some k →
      Computes c rounds [] [move (f : Nat) (k : Nat)] (copy entry) fun _ => [])
    {es : List Entry} {is : List Instruction} (h : SharedCode e slot chosen move es is) :
    Computes c rounds [] is (σ.share slot chosen copy es) fun _ => [] := by
  induction h with
  | nil => exact .nil rfl
  | skip h _ ih =>
    rw [Scene.share, if_neg h]
    exact ih
  | move h hslot hfield hglobal _ ih =>
    obtain ⟨f, hf, rfl⟩ := hrefers.exists_local hfield
    obtain ⟨k, hk, rfl⟩ := hrefers.exists_global hglobal
    rw [Scene.share, if_pos ⟨h, hslot⟩]
    exact (hmove hf hk).seq fun _ _ => ih

theorem computes_body (hrefers : Refers e σ) (hplays : c.Plays σ) {checked : CheckedUnit} {n : Nat}
    {ss : List Stmt} {is : List Instruction} (h : BodyCode e c.unit checked slot n ss is) :
    Computes c rounds [] is (σ.statements checked slot rounds n ss) fun _ => [] := by
  induction h with
  | nil => exact .nil rfl
  | skip hown hslot _ ih =>
    rw [Scene.statements, if_neg (by simpa [hown] using hslot)]
    exact ih
  | stmt h hs _ ih =>
    rw [Scene.statements, if_pos h]
    exact (computes_stmt hrefers hplays hs).seq fun _ _ => ih

theorem computes_slot (hrefers : Refers e σ) (hplays : c.Plays σ) {checked : CheckedUnit}
    {i : Instrument} {is : List Instruction} (hlocals : checked.locals = σ.locals)
    (hslot : slot ≠ .construct) (h : SlotCode e c.unit checked i slot is) :
    ∃ js, is = js ++ [.ret] ∧
      ∀ rounds, Computes c rounds [] js (σ.pass checked i slot rounds) fun _ => [] := by
  obtain ⟨storage, imports, body, exports, hstorage, himports, hbody, hexports, rfl⟩ := h
  obtain ⟨ts, -, rfl⟩ := hstorage
  rw [hlocals] at himports hexports
  refine ⟨imports ++ (body ++ exports), ?_, fun rounds => ?_⟩
  · rw [only, if_neg hslot]
    simp
  · exact (computes_share hrefers (computes_importGlobal hplays) himports).seq fun _ _ =>
      (computes_body hrefers hplays hbody).seq fun _ _ =>
        computes_share hrefers (computes_exportField hplays) hexports

end Slots

end Orchestrion.Machine
