import Orchestrion.Proofs.Check.Rates
import Orchestrion.Proofs.Compile
import Orchestrion.Proofs.Machine.Instructions

/-!
# Code runs at the rate of what it touches

Each statement at the top of an instrument is carried out in the slot of the fastest rate that
occurs in it. What its code loads and stores occurs in the statement, so no slot touches a variable
or a standard name that is faster than the slot itself.
-/

namespace Orchestrion

open List Option

variable {slot : Slot} {c : EmitContext} {u : CompiledUnit} {checked : CheckedUnit} {n : Nat}
  {ss : List Stmt}

open Instruction Emit

/-! ### What instructions touch -/

/-- The rate of the variable or the standard name that the instruction loads or stores. -/
def Instruction.rate? (u : CompiledUnit) (store : StoreLayout) : Instruction → Option Rate
  | .loadField f | .storeField f | .loadElem f | .storeElem f => (u.fieldAt? f).map Field.rate
  | .loadGlobal g | .storeGlobal g => CompiledUnit.numbered? store.rates g
  | .loadStd n => (StandardName.ofCode? n).map StandardName.rate
  | _ => none

def Instruction.ratesOf (u : CompiledUnit) (store : StoreLayout) (is : List Instruction) :
    List Rate :=
  is.filterMap (rate? u store)

theorem Instruction.wordsOf_injective {is js : List Instruction} (h : wordsOf is = wordsOf js) :
    is = js := by
  induction is generalizing js with
  | nil =>
    cases js with
    | nil => rfl
    | cons j js => cases h
  | cons i is ih =>
    cases js with
    | nil => cases h
    | cons j js =>
      rw [wordsOf_cons, wordsOf_cons] at h
      have hfetch : Fetched.instruction i = .instruction j := by
        rw [← fetch_words_append i (wordsOf is), h, fetch_words_append]
      cases hfetch
      rw [ih (append_cancel_left h)]

/-- What code refers to has the rates of the names in its scope. -/
structure EmitContext.IsRated (c : EmitContext) (u : CompiledUnit) : Prop where
  field : ∀ x (f : Nat), c.field? x = some f →
    (u.fieldAt? f).map Field.rate = some (c.scope.rateOf x) ∧ c.scope.Refers x
  global : ∀ x e (g : Nat), c.scope.resolve? x = some (e, true) → c.store.index? x = some g →
    CompiledUnit.numbered? c.store.rates g = some (c.scope.rateOf x) ∧ c.scope.Refers x
  standard : ∀ x s, c.field? x = none → (∀ e, c.scope.resolve? x ≠ some (e, true)) →
    StandardName.ofText? x = some s → c.scope.rateOf x = s.rate

section Code

variable {is : List Instruction}

variable {c : EmitContext} {u : CompiledUnit}

theorem StandardName.isSignal_rate (s : StandardName) : s.rate.isSignal = true := by
  cases s <;> rfl

mutual

theorem ExprCode.isPlain (hc : c.IsRated u) {e : Expr} {is : List Instruction}
    (h : ExprCode c u e is) : e.IsPlain c.scope := by
  cases h with
  | constant => trivial
  | @field _ x f hfield => exact (hc.field x f hfield).2
  | @global _ x e g _ hresolve hglobal => exact (hc.global x e g hresolve hglobal).2
  | @standard _ x s hfield hresolve hstandard =>
    refine .inl ?_
    rw [hc.standard x s hfield hresolve hstandard]
    exact s.isSignal_rate
  | element _ hindex => exact hindex.isPlain hc
  | binary hleft hright => exact ⟨hleft.isPlain hc, hright.isPlain hc⟩
  | neg h => exact h.isPlain hc
  | not h => exact h.isPlain hc
  | conditional hguard _ hyes hno => exact ⟨hguard.isPlain hc, hyes.isPlain hc, hno.isPlain hc⟩
  | builtin h _ hargs => exact ⟨by rw [h]; rfl, hargs.allPlain hc⟩
  | @table _ _ _ x _ _ f _ h _ _ hfield hvalues =>
    exact ⟨by rw [h]; rfl, (hc.field x f hfield).2, hvalues.allPlain hc⟩

theorem ExprsCode.allPlain (hc : c.IsRated u) {es : List Expr} {is : List Instruction}
    (h : ExprsCode c u es is) : Expr.AllPlain c.scope es := by
  cases h with
  | nil => trivial
  | cons he hes => exact ⟨he.isPlain hc, hes.allPlain hc⟩

end

theorem TargetCode.isPlain (hc : c.IsRated u) {t : Target} {store : Instruction}
    (h : TargetCode c u t is store) : t.IsPlain c.scope := by
  cases h with
  | @field _ x f hfield => exact ⟨(hc.field x f hfield).2, nofun⟩
  | @element _ x _ f _ hfield hindex =>
    refine ⟨(hc.field x f hfield).2, fun index heq => ?_⟩
    cases heq
    exact hindex.isPlain hc
  | @global _ x e g _ hresolve hglobal => exact ⟨(hc.global x e g hresolve hglobal).2, nofun⟩

mutual

theorem StmtCode.isPlain (hc : c.IsRated u) {s : Stmt} {is : List Instruction}
    (h : StmtCode c u s is) : s.IsPlain c.scope := by
  cases h with
  | assign ht hvalue => exact ⟨ht.isPlain hc, hvalue.isPlain hc⟩
  | eval h => exact h.isPlain hc
  | ifElse hguard _ hyes hno => exact ⟨hguard.isPlain hc, hyes.allPlain hc, hno.allPlain hc⟩
  | ifThen hguard _ hbody | loop hguard _ hbody => exact ⟨hguard.isPlain hc, hbody.allPlain hc⟩
  | output h => exact ⟨h.isPlain hc, trivial⟩
  | outputFrame _ _ h => exact h.allPlain hc
  | extend h => exact h.isPlain hc
  | turnoff => trivial

theorem StmtsCode.allPlain (hc : c.IsRated u) {ss : List Stmt} {is : List Instruction}
    (h : StmtsCode c u ss is) : Stmt.AllPlain c.scope ss := by
  cases h with
  | nil => trivial
  | cons hs hss => exact ⟨hs.isPlain hc, hss.allPlain hc⟩

end

/-! ### What the code of a statement touches -/

@[simp]
theorem Instruction.ratesOf_nil (store : StoreLayout) : ratesOf u store [] = [] := rfl

@[simp]
theorem Instruction.ratesOf_cons (store : StoreLayout) (i : Instruction) (is : List Instruction) :
    ratesOf u store (i :: is) = (i.rate? u store).toList ++ ratesOf u store is := by
  cases h : i.rate? u store with
  | none => exact filterMap_cons_none h
  | some r => exact filterMap_cons_some h

@[simp]
theorem Instruction.ratesOf_append (store : StoreLayout) (is js : List Instruction) :
    ratesOf u store (is ++ js) = ratesOf u store is ++ ratesOf u store js :=
  filterMap_append

theorem CombineCode.ratesOf_eq_nil {op : BinaryOp} (h : CombineCode u op is) (store : StoreLayout) :
    ratesOf u store is = [] := by
  cases h with
  | direct h => cases op <;> cases h <;> rfl
  | comparing _ hzero hone =>
    obtain ⟨_, rfl, -⟩ := hzero
    obtain ⟨_, rfl, -⟩ := hone
    rfl

mutual

theorem ExprCode.ratesOf_subset (hc : c.IsRated u) {e : Expr} {is : List Instruction}
    (h : ExprCode c u e is) : ratesOf u c.store is ⊆ e.names.map c.scope.rateOf := by
  cases h with
  | constant h =>
    obtain ⟨_, rfl, -⟩ := h
    exact nil_subset _
  | @field _ x f hfield => simp [rate?, hc.field x f hfield, Expr.names]
  | @global _ x e g _ hresolve hglobal =>
    simp [rate?, hc.global x e g hresolve hglobal, Expr.names]
  | @standard _ x s hfield hresolve hstandard =>
    simp [rate?, s.ofCode?_code, hc.standard x s hfield hresolve hstandard, Expr.names]
  | @element _ x index f is hfield hindex =>
    have hindex := hindex.ratesOf_subset hc
    simp only [ratesOf_append, ratesOf_cons, rate?, (hc.field x f hfield).1, Expr.names]
    grind [Option.toList, ratesOf_nil]
  | binary hleft hright h =>
    have hleft := hleft.ratesOf_subset hc
    have hright := hright.ratesOf_subset hc
    rw [ratesOf_append, ratesOf_append, h.ratesOf_eq_nil, Expr.names, map_append]
    grind
  | neg h => simpa [rate?, Expr.names] using h.ratesOf_subset hc
  | not h htest hzero hone =>
    obtain ⟨_, rfl, -⟩ := htest
    obtain ⟨_, rfl, -⟩ := hzero
    obtain ⟨_, rfl, -⟩ := hone
    simpa [rate?, Expr.names] using h.ratesOf_subset hc
  | conditional hguard htest hyes hno =>
    have hguard := hguard.ratesOf_subset hc
    have hyes := hyes.ratesOf_subset hc
    have hno := hno.ratesOf_subset hc
    obtain ⟨_, rfl, -⟩ := htest
    simp only [ratesOf_append, ratesOf_cons, rate?, ratesOf_nil,
      Option.toList, Expr.names, map_append, nil_append]
    grind
  | builtin h _ hargs => simpa [rate?, Expr.names] using hargs.ratesOf_subset hc
  | @table _ _ _ x _ op f _ h _ _ _ hvalues =>
    have hvalues := hvalues.ratesOf_subset hc
    have hrate : (tableInstruction op f).rate? u c.store = none := by
      cases op <;> rfl
    simp only [ratesOf_append, ratesOf_cons, hrate, Expr.names, Expr.namesAll, map_append]
    grind [Option.toList, ratesOf_nil]

theorem ExprsCode.ratesOf_subset (hc : c.IsRated u) {es : List Expr} {is : List Instruction}
    (h : ExprsCode c u es is) : ratesOf u c.store is ⊆ (Expr.namesAll es).map c.scope.rateOf := by
  cases h with
  | nil => exact List.Subset.refl _
  | cons he hes =>
    have he := he.ratesOf_subset hc
    have hes := hes.ratesOf_subset hc
    rw [ratesOf_append, Expr.namesAll, map_append]
    grind

end

theorem TargetCode.ratesOf_subset (hc : c.IsRated u) {t : Target} {store : Instruction}
    (h : TargetCode c u t is store) :
    ratesOf u c.store (is ++ [store]) ⊆ t.names.map c.scope.rateOf := by
  cases h with
  | @field _ x f hfield => simp [rate?, hc.field x f hfield, Target.names]
  | @element _ x index f is hfield hindex =>
    have hindex := hindex.ratesOf_subset hc
    simp only [ratesOf_append, ratesOf_cons, rate?, (hc.field x f hfield).1, Target.names]
    grind [Option.toList, ratesOf_nil]
  | @global _ x e g _ hresolve hglobal =>
    simp [rate?, hc.global x e g hresolve hglobal, Target.names]

mutual

theorem StmtCode.ratesOf_subset (hc : c.IsRated u) {s : Stmt} {is : List Instruction}
    (h : StmtCode c u s is) : ratesOf u c.store is ⊆ s.rates c.scope := by
  rw [Stmt.rates]
  cases h with
  | assign ht hvalue =>
    have ht := ht.ratesOf_subset hc
    have hvalue := hvalue.ratesOf_subset hc
    rw [ratesOf_append] at ht
    rw [Stmt.occurrences, Occurrence.map_rate_name, map_append, ratesOf_append,
      ratesOf_append]
    grind
  | eval h =>
    rw [Stmt.occurrences, Occurrence.map_rate_name]
    simpa [rate?] using h.ratesOf_subset hc
  | ifThen hguard htest hbody | loop hguard htest hbody =>
    have hguard := hguard.ratesOf_subset hc
    have hbody := hbody.ratesOf_subset hc
    obtain ⟨_, rfl, -⟩ := htest
    simp only [Stmt.occurrences, map_append, Occurrence.map_rate_name, ratesOf_append,
      ratesOf_cons, rate?, ratesOf_nil, Option.toList]
    grind
  | ifElse hguard htest hyes hno =>
    have hguard := hguard.ratesOf_subset hc
    have hyes := hyes.ratesOf_subset hc
    have hno := hno.ratesOf_subset hc
    obtain ⟨_, rfl, -⟩ := htest
    simp only [Stmt.occurrences, map_append, Occurrence.map_rate_name, ratesOf_append,
      ratesOf_cons, rate?, ratesOf_nil, Option.toList, nil_append]
    grind
  | output h =>
    rw [Stmt.occurrences, map_cons, Occurrence.map_rate_name]
    refine subset_cons_of_subset _ ?_
    simpa [rate?, Expr.namesAll] using h.ratesOf_subset hc
  | outputFrame _ _ h =>
    rw [Stmt.occurrences, map_cons, Occurrence.map_rate_name]
    refine subset_cons_of_subset _ ?_
    simpa [rate?] using h.ratesOf_subset hc
  | extend h =>
    rw [Stmt.occurrences, Occurrence.map_rate_name]
    simpa [rate?] using h.ratesOf_subset hc
  | turnoff => exact nil_subset _

theorem StmtsCode.ratesOf_subset (hc : c.IsRated u) {ss : List Stmt} {is : List Instruction}
    (h : StmtsCode c u ss is) :
    ratesOf u c.store is ⊆ (Stmt.occurrencesAll ss).map (Occurrence.rate c.scope) := by
  cases h with
  | nil => exact nil_subset _
  | cons hs hss =>
    have hs := hs.ratesOf_subset hc
    have hss := hss.ratesOf_subset hc
    rw [Stmt.rates] at hs
    rw [ratesOf_append, Stmt.occurrencesAll, map_append]
    grind

end

/-! ### What else stands in a slot -/

theorem StorageCode.ratesOf_eq_nil (store : StoreLayout) {i : Instrument} {slot : Slot}
    (h : StorageCode c u i slot is) : ratesOf u store is = [] := by
  refine filterMap_eq_nil_iff.2 fun x hx => ?_
  have hbuilds := h.builds x hx
  cases x with
  | num | newArray | tableGen | ret => rfl
  | _ => cases hbuilds

theorem SharedCode.ratesOf_eq_nil (store : StoreLayout) {slot : Slot} {chosen : Entry → Bool}
    {move : Int → Int → Instruction} (hmove : ∀ f g, (move f g).rate? u store = none)
    {es : List Entry} (h : SharedCode c slot chosen move es is) : ratesOf u store is = [] :=
  filterMap_eq_nil_iff.2 (h.forall_mem hmove)

end Code

/-! ### The blocks of a unit -/

/-- The code of a statement at the top of a unit, and the slot that it stands in. -/
structure Block where
  slot : Slot
  code : List Instruction

def Block.codeIn (slot : Slot) (bs : List Block) : List Instruction :=
  (bs.filter fun b => b.slot = slot).flatMap Block.code

theorem Block.codeIn_cons (slot : Slot) (b : Block) (bs : List Block) :
    codeIn slot (b :: bs) = only b.slot b.code slot ++ codeIn slot bs := by
  by_cases hslot : b.slot = slot
  · simp [codeIn, only, hslot]
  · simp [codeIn, only, hslot, Ne.symm hslot]

def Slot.rate : Slot → Rate
  | .construct | .init => .i
  | .control => .k
  | .audio => .a

theorem Slot.rate_of_ofRate? {r : Rate} (h : Slot.ofRate? r = some slot) :
    slot ≠ .construct ∧ slot.rate = r := by
  cases r <;> cases h <;> exact ⟨nofun, rfl⟩

/-- A block is the code of a statement, in the slot of the fastest rate that occurs in it. -/
structure Block.Carries (c : EmitContext) (u : CompiledUnit) (s : Stmt) (b : Block) : Prop where
  code : StmtCode c u s b.code
  slot : b.slot ≠ .construct
  fastest : b.slot.rate.IsFastest (s.rates c.scope)

theorem BodyCode.cons_cases {s : Stmt} {is : List Instruction}
    (h : BodyCode c u checked slot n (s :: ss) is) :
    (∃ own, Slot.ofRate? (checked.stmtRate n) = some own ∧ own ≠ slot ∧
      BodyCode c u checked slot (n + 1) ss is) ∨
    ∃ js ks, Slot.ofRate? (checked.stmtRate n) = some slot ∧ StmtCode c u s js ∧
      BodyCode c u checked slot (n + 1) ss ks ∧ is = js ++ ks := by
  cases h with
  | skip hown hslot hss => exact .inl ⟨_, hown, hslot, hss⟩
  | stmt hown hs hss => exact .inr ⟨_, _, hown, hs, hss, rfl⟩

theorem exists_block {s : Stmt} {bodies : Slot → List Instruction}
    (h : ∀ slot, BodyCode c u checked slot n (s :: ss) (bodies slot)) :
    ∃ (b : Block) (rest : Slot → List Instruction),
      Slot.ofRate? (checked.stmtRate n) = some b.slot ∧ StmtCode c u s b.code ∧
      ∀ slot, BodyCode c u checked slot (n + 1) ss (rest slot) ∧
        bodies slot = only b.slot b.code slot ++ rest slot := by
  obtain ⟨own, hown⟩ : ∃ own, Slot.ofRate? (checked.stmtRate n) = some own := by
    rcases (h .construct).cons_cases with ⟨own, hown, -⟩ | ⟨-, -, hown, -⟩
    · exact ⟨own, hown⟩
    · exact ⟨_, hown⟩
  have hunique {slot : Slot} (hslot : Slot.ofRate? (checked.stmtRate n) = some slot) : slot = own :=
    Option.some.inj (hslot.symm.trans hown)
  rcases (h own).cons_cases with ⟨own', hown', hne, -⟩ | ⟨is, js, -, hs, hjs, hbody⟩
  · exact absurd (hunique hown') hne
  · refine ⟨⟨own, is⟩, fun slot => if slot = own then js else bodies slot, hown, hs, fun slot => ?_⟩
    by_cases hslot : slot = own
    · subst hslot
      simpa using ⟨hjs, hbody⟩
    · simp only [only, if_neg hslot, nil_append, and_true]
      rcases (h slot).cons_cases with ⟨-, -, -, hss⟩ | ⟨-, -, hslot', -⟩
      · exact hss
      · exact absurd (hunique hslot') hslot

theorem exists_blocks {bodies : Slot → List Instruction}
    (hrates : ∀ k s is, ss[k]? = some s → StmtCode c u s is →
    (checked.stmtRate (n + k)).IsFastest (s.rates c.scope))
    (h : ∀ slot, BodyCode c u checked slot n ss (bodies slot)) :
    ∃ bs, List.Forall₂ (Block.Carries c u) ss bs ∧ ∀ slot, bodies slot = Block.codeIn slot bs := by
  induction ss generalizing n bodies with
  | nil =>
    refine ⟨[], .nil, fun slot => ?_⟩
    generalize bodies slot = body, h slot = hbody
    cases hbody
    rfl
  | cons s ss ih =>
    obtain ⟨b, rest, hown, hs, hrest⟩ := exists_block h
    have hrates' : ∀ k s is, ss[k]? = some s → StmtCode c u s is →
        (checked.stmtRate (n + 1 + k)).IsFastest (s.rates c.scope) := by
      intro k s' is hk hcode
      rw [Nat.add_assoc, Nat.add_comm 1 k]
      exact hrates (k + 1) s' is hk hcode
    obtain ⟨bs, hbs, hcode⟩ := ih hrates' fun slot => (hrest slot).1
    obtain ⟨hslot, hrate⟩ := Slot.rate_of_ofRate? hown
    have hfastest := hrates 0 s b.code rfl hs
    rw [Nat.add_zero, ← hrate] at hfastest
    refine ⟨b :: bs, .cons ⟨hs, hslot, hfastest⟩ hbs, fun slot => ?_⟩
    rw [Block.codeIn_cons, (hrest slot).2, hcode]

theorem Block.not_faster_of_mem_codeIn (hc : c.IsRated u) {bs : List Block}
    (h : List.Forall₂ (Block.Carries c u) ss bs) {r : Rate}
    (hr : r ∈ ratesOf u c.store (codeIn slot bs)) : r.faster slot.rate = false := by
  induction h with
  | nil => cases hr
  | @cons s b ss bs hb _ ih =>
    rw [codeIn_cons, ratesOf_append, mem_append] at hr
    rcases hr with hr | hr
    · rw [only] at hr
      split at hr
      next hslot =>
        subst hslot
        exact hb.fastest.not_faster r (hb.code.ratesOf_subset hc hr)
      next => cases hr
    · exact ih hr

/-! ### Units -/

theorem Linkage.isRated_context {settings : Settings} {globals : VariableTable}
    (hlocals : checked.locals.Aligned) (hglobals : globals.Aligned) {i : Instrument}
    (h : Generated (.of settings globals) checked i u) :
    ((Linkage.of settings globals).context checked i).IsRated u := by
  refine ⟨fun x f hx => ?_, fun x e g hresolve hx => ?_, fun x s hx hresolve hs => ?_⟩
  · rw [field?_context hlocals, VariableTable.index?] at hx
    obtain ⟨e, he, -⟩ := map_eq_some_iff.1
      (getElem?_map.symm.trans ((hlocals x f).1 hx))
    have hlookup : checked.locals.lookup? x = some e := by
      rw [VariableTable.lookup?, hx, bind_some, he]
    have hrate : ((Linkage.of settings globals).context checked i).scope.rateOf x = e.rate := by
      rw [Scope.rateOf, Scope.resolve?, Linkage.context, hlookup]
    constructor
    · rw [hrate, CompiledUnit.fieldAt?, CompiledUnit.numbered?, h.fields]
      simp [Entry.field, he]
    · have hkeeps := h.keeps e (mem_of_getElem? he)
      rw [Scope.Refers, hrate]
      simpa [keeps] using hkeeps
  · have hlookup : globals.lookup? x = some e := by
      rw [Scope.resolve?] at hresolve
      split at hresolve
      next => cases hresolve
      next => simpa [Linkage.context, Linkage.of, Scope.lookupGlobal?] using hresolve
    have hrate : ((Linkage.of settings globals).context checked i).scope.rateOf x = e.rate := by
      rw [Scope.rateOf, hresolve]
    have hname := (StoreLayout.indexes_ofTable hglobals x g).1 hx
    rw [StoreLayout.names_ofTable] at hname
    obtain ⟨kept, hkept, hident⟩ := map_eq_some_iff.1 (getElem?_map.symm.trans hname)
    have hslot := mem_filter.1 (mem_of_getElem? hkept)
    -- The names of global variables differ, so that the one in the store is the one of the scope.
    obtain rfl : kept = e := by
      have hfound := hglobals.lookup?_of_mem hslot.1
      rw [hident, hlookup] at hfound
      exact (Option.some.inj hfound).symm
    constructor
    · change CompiledUnit.numbered? (StoreLayout.ofTable globals).rates g = _
      rw [hrate, CompiledUnit.numbered?, if_pos (Int.natCast_nonneg g), Int.toNat_natCast,
        StoreLayout.rates_ofTable, getElem?_map, hkept]
      rfl
    · have hscalar := hslot.2
      rw [Entry.isScalarSignal, Bool.and_eq_true] at hscalar
      rw [Scope.Refers, hrate]
      exact .inl hscalar.2
  · have hlocal : checked.locals.lookup? x = none := by
      rw [field?_context hlocals, VariableTable.index?] at hx
      rw [VariableTable.lookup?, hx, bind_none]
    have hunknown : ((Linkage.of settings globals).context checked i).scope.resolve? x = none := by
      simp only [Scope.resolve?, Linkage.context, Linkage.of, hlocal, Scope.lookupGlobal?,
        bind_some] at hresolve ⊢
      cases hglobal : globals.lookup? x with
      | none => rfl
      | some e => exact absurd (by rw [hglobal]; rfl) (hresolve e)
    rw [Scope.rateOf, hunknown]
    simp [hs]

/-- The code of a unit follows the rates of what it refers to: the slots hold one block for each
statement at the top, in the slot of the fastest rate of all that occurs in it, and no slot loads or
stores what is faster than the slot. -/
structure FollowsRates (c : EmitContext) (checked : CheckedUnit) (i : Instrument)
    (u : CompiledUnit) : Prop where
  blocks : ∃ blocks, List.Forall₂ (Block.Carries c u) i.body blocks ∧
    ∀ slot, ∃ storage imports exports,
      StorageCode c u i slot storage ∧
      SharedCode c slot Entry.imports .importGlobal checked.locals.entries imports ∧
      SharedCode c slot Entry.exports .exportField checked.locals.entries exports ∧
      u.code.get slot =
        wordsOf (storage ++ imports ++ Block.codeIn slot blocks ++ exports ++ [.ret])
  not_faster : ∀ slot is, u.code.get slot = wordsOf is → ∀ instruction ∈ is, ∀ rate,
    instruction.rate? u c.store = some rate → rate.faster slot.rate = false

/-- The code of an instrument or a template without complaints follows the rates of what it refers
to. -/
theorem CheckedOrchestra.code_follows_rates {tree : OrchestraTree} {o : CheckedOrchestra}
    (h : CheckedOrchestra.ofTree tree = .ok o) {unit : CheckedUnit} {i : Instrument}
    (hpart : (unit, i) ∈ o.parts) (hclean : unit.errors = []) {settings : Settings}
    {code : CompiledUnit}
    (hcode : i.generate (.of settings o.global.locals) unit = .ok code) :
    FollowsRates ((Linkage.of settings o.global.locals).context unit i) unit i code := by
  obtain ⟨-, haligned, -, hchecks⟩ := CheckedOrchestra.ofTree_parts h
  obtain ⟨s, keyword, hglobals, hunit⟩ := hchecks unit i hpart
  have hlocals := (CheckedUnit.built_of_ofInstrument hunit).aligned
  have hsound := (CheckedOrchestra.ofTree_ok h).2.2 unit i hpart hclean
  have hgenerated := Instrument.generate_ok hsound.calls hcode
  have hrated := Linkage.isRated_context hlocals haligned hgenerated
  choose words hwords _ hslots using hgenerated.code
  choose storage imports bodies exports hstorage himports hbodies hexports hall using hslots
  have hrates : ∀ k st is, i.body[k]? = some st →
      StmtCode ((Linkage.of settings o.global.locals).context unit i) code st is →
      (unit.stmtRate (0 + k)).IsFastest (st.rates ⟨unit.locals, some o.global.locals⟩) := by
    intro k st is hk hcode
    rw [Nat.zero_add, ← hglobals]
    refine CheckedUnit.isFastest_stmtRate hunit hclean hk ?_
    rw [hglobals]
    exact hcode.isPlain hrated
  obtain ⟨blocks, hblocks, hbody⟩ := exists_blocks hrates hbodies
  refine ⟨⟨blocks, hblocks, fun slot => ?_⟩, fun slot is his instruction hmem rate hrate => ?_⟩
  · refine ⟨_, _, _, hstorage slot, himports slot, hexports slot, ?_⟩
    rw [hwords, hall, hbody]
  · obtain rfl : is = words slot := wordsOf_injective (his.symm.trans (hwords slot))
    refine Block.not_faster_of_mem_codeIn hrated hblocks ?_
    have htouched := mem_filterMap.2 ⟨instruction, hmem, hrate⟩
    -- Whatever is touched in the slot is touched by the code of a statement.
    change rate ∈ ratesOf _ _ (words slot) at htouched
    rw [hall, ratesOf_append, ratesOf_append, ratesOf_append, ratesOf_append,
      (hstorage slot).ratesOf_eq_nil, (himports slot).ratesOf_eq_nil _ fun _ _ => rfl,
      (hexports slot).ratesOf_eq_nil _ fun _ _ => rfl, hbody] at htouched
    simpa [rate?] using htouched

/-- An orchestra with control signals deep inside of statements that begin with slower names. -/
def CheckedOrchestra.tremolo : Text :=
  "global \x7b ksig depth; \x7d instr a(n) \x7b ivar i; ksig k; imports ksig depth; " ++
  "while (i < n) \x7b i = i + 1; if (i > 2) \x7b k = depth * i; \x7d \x7d " ++
  "if (itime > n) \x7b turnoff; \x7d output(k * i); \x7d"

theorem CheckedOrchestra.code_follows_rates_tremolo :
    ∃ tree o unit i code, OrchestraTree.parse tremolo = .ok tree ∧
      CheckedOrchestra.ofTree tree = .ok o ∧ (unit, i) ∈ o.parts ∧ unit.errors = [] ∧
      i.generate (.of {} o.global.locals) unit = .ok code ∧
      FollowsRates ((Linkage.of {} o.global.locals).context unit i) unit i code := by
  have hcompiles : (do
      let tree ← (OrchestraTree.parse tremolo).toOption
      let o ← (CheckedOrchestra.ofTree tree).toOption
      let part ← o.parts.head?
      let code ← (part.2.generate (.of {} o.global.locals) part.1).toOption
      some part.1.errors) = some [] := by decide +kernel
  simp only [bind_eq_bind, bind_eq_some_iff, toOption_eq_some_iff, Option.some.injEq]
    at hcompiles
  obtain ⟨tree, htree, o, ho, ⟨unit, i⟩, hpart, code, hcode, hclean⟩ := hcompiles
  have hmem := mem_of_head? hpart
  exact ⟨tree, o, unit, i, code, htree, ho, hmem, hclean, hcode,
    CheckedOrchestra.code_follows_rates ho hmem hclean hcode⟩

end Orchestrion
