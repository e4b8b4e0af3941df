import Mathlib.Data.List.Nodup
import Orchestrion.Proofs.Check.Table
import Orchestrion.Proofs.Compile

/-!
# Tables and layouts are aligned

Variables are kept in several places: in the table of their unit, in the fields of its instances
and, if they are global, in the store. Code refers to them by bare numbers. These are the places of
their names in the order of declaration, so that every name has one number, and no two names share
one.
-/

namespace Orchestrion

open Instruction Emit List

/-! ### Tables -/

namespace VariableTable

/-- What a table tells of the entries that were added to it, taken or rejected. -/
structure Records (t : VariableTable) (es : List Entry) : Prop where
  nodup : t.names.Nodup
  index : ∀ x n, t.index? x = some n ↔ t.names[n]? = some x
  /-- A name stands for the first entry that was added under it. -/
  lookup : ∀ x, t.lookup? x = es.find? fun e => e.ident = x
  rejects : ∀ e, t.add? e = none ↔ e.ident ∈ t.names
  /-- An entry that is rejected changes nothing, and one that is taken comes last. -/
  added : ∀ e, t.add e = if e.ident ∈ t.names then t
    else ⟨t.entries ++ [e], t.places.set e.ident t.entries.length⟩

variable {t : VariableTable}

theorem Aligned.add_eq (h : t.Aligned) (e : Entry) : t.add e = if e.ident ∈ t.names then t
    else ⟨t.entries ++ [e], t.places.set e.ident t.entries.length⟩ := by
  rw [VariableTable.add, h.add?_eq]
  split <;> rfl

theorem Aligned.lookup?_add (h : t.Aligned) (e : Entry) (x : Text) :
    (t.add e).lookup? x = (t.lookup? x).or (if e.ident = x then some e else none) := by
  have hadd := h.add e
  rw [h.add_eq] at hadd ⊢
  split
  next htaken =>
    by_cases hx : e.ident = x
    · obtain ⟨e', he', hident⟩ := mem_map.1 htaken
      rw [← hx, ← hident, h.lookup?_of_mem he', Option.some_or]
    · rw [if_neg hx, Option.or_none]
  next hnew =>
    rw [if_neg hnew] at hadd
    simp [hadd.lookup?_eq, h.lookup?_eq, find?_append, find?_singleton]

theorem Aligned.lookup?_addAll (h : t.Aligned) (es : List Entry) (x : Text) :
    (t.addAll es).lookup? x = (t.lookup? x).or (es.find? fun e => e.ident = x) := by
  induction es generalizing t with
  | nil => exact (Option.or_none).symm
  | cons e es ih =>
    rw [VariableTable.addAll, foldl_cons, ← VariableTable.addAll, ih (h.add e), h.lookup?_add,
      Option.or_assoc, find?_cons]
    by_cases hx : e.ident = x
    · simp [hx]
    · simp [hx]

theorem records_addAll (es : List Entry) : (addAll {} es).Records es := by
  have haligned : (addAll {} es).Aligned := Aligned.addAll NameMap.indexes_empty es
  refine ⟨haligned.nodup, haligned, fun x => ?_, fun e => ?_, haligned.add_eq⟩
  · exact Aligned.lookup?_addAll NameMap.indexes_empty es x
  · rw [haligned.add?_eq]
    split <;> simp [*]

end VariableTable

/-! ### The store -/

namespace StoreLayout

/-- What the layout of the store tells of the table of global variables. -/
structure Numbers (l : StoreLayout) (t : VariableTable) : Prop where
  /-- The names and the rates are those of the scalar signals, in the order of declaration. -/
  names : l.names = (t.entries.filter Entry.isScalarSignal).map Entry.ident
  rates : l.rates = (t.entries.filter Entry.isScalarSignal).map Entry.rate
  index : ∀ x n, l.index? x = some n ↔ l.names[n]? = some x
  rate : ∀ x n, l.index? x = some n → l.rates[n]? = (t.lookup? x).map Entry.rate
  /-- All slots are in use. -/
  all : ∀ n, n < l.size ↔ ∃ x, l.index? x = some n
  /-- The slot of a scalar signal is the number of those before it. -/
  order : ∀ before e after, t.entries = before ++ e :: after → l.index? e.ident =
    if e.isScalarSignal then some (before.countP Entry.isScalarSignal) else none

variable {t : VariableTable}

theorem numbers_ofTable (h : t.Aligned) : (ofTable t).Numbers t := by
  have hindex := indexes_ofTable h
  refine ⟨names_ofTable t, rates_ofTable t, hindex, fun x n hx => ?_, fun n => ?_,
    fun before e after hentries => ?_⟩
  · have hname := (hindex x n).1 hx
    rw [names_ofTable, getElem?_map, Option.map_eq_some_iff] at hname
    obtain ⟨e, he, rfl⟩ := hname
    have hmem := (mem_filter.1 (mem_of_getElem? he)).1
    rw [h.lookup?_of_mem hmem, rates_ofTable, getElem?_map, he]
  · refine .trans ?_ (exists_congr fun x => (hindex x n).symm)
    simp only [size, getElem?_eq_some_iff]
    refine ⟨fun hn => ⟨_, hn, rfl⟩, ?_⟩
    rintro ⟨_, hn, _⟩
    exact hn
  · split
    next hscalar =>
      refine (hindex _ _).2 ?_
      rw [names_ofTable, hentries, filter_append, filter_cons_of_pos hscalar,
        map_append, countP_eq_length_filter]
      simp
    next hother =>
      rw [← Option.not_isSome_iff_eq_none, isSome_index?_ofTable h]
      rintro ⟨e', he', hscalar, hident⟩
      have he : e ∈ t.entries := by rw [hentries]; simp
      rw [inj_on_of_nodup_map h.nodup he' he hident] at hscalar
      exact hother hscalar

end StoreLayout

/-! ### Fields -/

/-- The number of the field that an instruction touches. -/
def Instruction.field? : Instruction → Option Int
  | .loadField f | .storeField f | .loadElem f | .storeElem f | .importGlobal f _
  | .exportField f _ | .newArray f _ | .tableGen f _ _ | .tableRead f | .tableWrite f
  | .tableLen f => some f
  | _ => none

/-- The numbers of the fields that instructions touch, in order. -/
def Instruction.operands? (is : List Instruction) : List (Option Int) :=
  (is.filterMap field?).map some

mutual

/-- The own variables of a unit that the code of an expression reads, in the order of the code. An
array is read after its index, and a table after the other arguments. -/
def Expr.reads (t : VariableTable) : Expr → List Text
  | .constant _ _ => []
  | .name _ x => if (t.index? x).isSome then [x] else []
  | .element _ x index => index.reads t ++ [x]
  | .call _ _ [] => []
  | .call _ callee (arg :: args) =>
    if ((CoreOpcode.ofText? callee).bind CoreOpcode.tableArg?).isSome then
      Expr.readsAll t args ++ arg.reads t
    else arg.reads t ++ Expr.readsAll t args
  | .binary _ _ left right => left.reads t ++ right.reads t
  | .unary _ _ operand => operand.reads t
  | .conditional _ guard yes no => guard.reads t ++ yes.reads t ++ no.reads t

def Expr.readsAll (t : VariableTable) : List Expr → List Text
  | [] => []
  | e :: es => e.reads t ++ Expr.readsAll t es

end

mutual

/-- The own variables of a unit that the code of a statement touches, in the order of the code. A
variable is assigned to after its index and its value are computed. -/
def Stmt.touches (t : VariableTable) : Stmt → List Text
  | .assign _ target value =>
    (target.index.map (Expr.reads t)).getD [] ++ value.reads t ++
      if (t.index? target.ident).isSome then [target.ident] else []
  | .eval _ value => value.reads t
  | .ifThen _ guard body => guard.reads t ++ Stmt.touchesAll t body
  | .ifElse _ guard yes no => guard.reads t ++ Stmt.touchesAll t yes ++ Stmt.touchesAll t no
  | .loop _ guard body => guard.reads t ++ Stmt.touchesAll t body
  | .output _ args => Expr.readsAll t args
  | .extend _ seconds => seconds.reads t
  | .turnoff _ => []
  | .ret _ values => Expr.readsAll t values

def Stmt.touchesAll (t : VariableTable) : List Stmt → List Text
  | [] => []
  | s :: ss => s.touches t ++ Stmt.touchesAll t ss

end

namespace Instruction

variable (is js : List Instruction)

@[simp]
theorem operands?_nil : operands? [] = [] := rfl

@[simp]
theorem operands?_cons (i : Instruction) :
    operands? (i :: is) = (i.field?.map some).toList ++ operands? is := by
  cases h : i.field? <;> simp [operands?, h]

@[simp]
theorem operands?_append : operands? (is ++ js) = operands? is ++ operands? js := by
  simp [operands?]

end Instruction

/-- The number of a variable in code. -/
def VariableTable.operand? (t : VariableTable) (x : Text) : Option Int := (t.index? x).map Int.ofNat

section Code

variable {c : EmitContext} {u : CompiledUnit} {t : VariableTable} {is : List Instruction}

theorem CombineCode.operands_eq {op : BinaryOp} (h : CombineCode u op is) : operands? is = [] := by
  cases h with
  | direct h => cases op <;> cases h <;> rfl
  | comparing _ hzero hone =>
    obtain ⟨_, rfl, -⟩ := hzero
    obtain ⟨_, rfl, -⟩ := hone
    rfl

mutual

theorem ExprCode.operands_eq (hc : ∀ x, c.field? x = t.index? x) {e : Expr} {is : List Instruction}
    (h : ExprCode c u e is) : operands? is = (e.reads t).map t.operand? := by
  cases h with
  | constant h =>
    obtain ⟨_, rfl, -⟩ := h
    simp [field?, Expr.reads]
  | field h =>
    rw [hc] at h
    simp [field?, Expr.reads, VariableTable.operand?, h]
  | global h | standard h =>
    rw [hc] at h
    simp [field?, Expr.reads, h]
  | element h hindex =>
    rw [hc] at h
    simp [field?, Expr.reads, VariableTable.operand?, h, hindex.operands_eq hc]
  | binary hleft hright h =>
    simp [Expr.reads, hleft.operands_eq hc, hright.operands_eq hc, h.operands_eq]
  | neg h => simp [field?, Expr.reads, h.operands_eq hc]
  | not h htest hzero hone =>
    obtain ⟨_, rfl, -⟩ := htest
    obtain ⟨_, rfl, -⟩ := hzero
    obtain ⟨_, rfl, -⟩ := hone
    simp [field?, Expr.reads, h.operands_eq hc]
  | conditional hguard htest hyes hno =>
    obtain ⟨_, rfl, -⟩ := htest
    simp [field?, Expr.reads, hguard.operands_eq hc, hyes.operands_eq hc, hno.operands_eq hc]
  | @builtin _ _ args _ _ h _ hargs =>
    have hargs := hargs.operands_eq hc
    cases args with
    | nil => simpa [field?, Expr.reads, Expr.readsAll] using hargs
    | cons arg args => simpa [field?, Expr.reads, Expr.readsAll, h,
        CoreOpcode.tableArg?] using hargs
  | @table _ _ _ x _ op f _ h hop _ hfield hvalues =>
    rw [hc] at hfield
    have hargs := hvalues.operands_eq hc
    have htable : (op.tableArg?).isSome = true ∧
        (tableInstruction op f).field? = some (f : Int) := by
      cases op with
      | builtin b => exact absurd rfl (hop b)
      | tableLength | tableRead | tableWrite => exact ⟨rfl, rfl⟩
    simp [Expr.reads, VariableTable.operand?, h, htable.1, htable.2, hfield, hargs]

theorem ExprsCode.operands_eq (hc : ∀ x, c.field? x = t.index? x) {es : List Expr}
    {is : List Instruction} (h : ExprsCode c u es is) :
    operands? is = (Expr.readsAll t es).map t.operand? := by
  cases h with
  | nil => rfl
  | cons he hes => simp [Expr.readsAll, he.operands_eq hc, hes.operands_eq hc]

end

theorem TargetCode.operands_eq (hc : ∀ x, c.field? x = t.index? x) {target : Target}
    {store : Instruction} (h : TargetCode c u target is store) :
    operands? is = ((target.index.map (Expr.reads t)).getD []).map t.operand? ∧
      operands? [store] =
        (if (t.index? target.ident).isSome then [target.ident] else []).map t.operand? := by
  cases h with
  | field h =>
    rw [hc] at h
    simp [field?, VariableTable.operand?, h]
  | element h hindex =>
    rw [hc] at h
    simp [field?, VariableTable.operand?, h, hindex.operands_eq hc]
  | global h =>
    rw [hc] at h
    simp [field?, h]

mutual

theorem StmtCode.operands_eq (hc : ∀ x, c.field? x = t.index? x) {s : Stmt} {is : List Instruction}
    (h : StmtCode c u s is) : operands? is = (s.touches t).map t.operand? := by
  cases h with
  | assign ht hvalue =>
    obtain ⟨hindex, hstore⟩ := ht.operands_eq hc
    rw [operands?_append, operands?_append, hindex, hvalue.operands_eq hc, hstore, Stmt.touches,
      map_append, map_append]
  | eval h | extend h | outputFrame _ _ h => simp [field?, Stmt.touches, h.operands_eq hc]
  | ifThen hguard htest hbody | loop hguard htest hbody =>
    obtain ⟨_, rfl, -⟩ := htest
    simp [field?, Stmt.touches, hguard.operands_eq hc, hbody.operands_eq hc]
  | ifElse hguard htest hyes hno =>
    obtain ⟨_, rfl, -⟩ := htest
    simp [field?, Stmt.touches, hguard.operands_eq hc, hyes.operands_eq hc, hno.operands_eq hc]
  | output h => simp [field?, Stmt.touches, Expr.readsAll, h.operands_eq hc]
  | turnoff => rfl

theorem StmtsCode.operands_eq (hc : ∀ x, c.field? x = t.index? x) {ss : List Stmt}
    {is : List Instruction} (h : StmtsCode c u ss is) :
    operands? is = (Stmt.touchesAll t ss).map t.operand? := by
  cases h with
  | nil => rfl
  | cons hs hss => simp [Stmt.touchesAll, hs.operands_eq hc, hss.operands_eq hc]

end

/-! ### Units -/

/-- The names of the tables that are declared. -/
def Decl.tables : Decl → List Text
  | .vars _ => []
  | .table d => [d.ident]

/-- The chosen variables that are shared at the rate of a slot. -/
def Slot.shared (slot : Slot) (chosen : Entry → Bool) (es : List Entry) : List Text :=
  (es.filter fun e => chosen e && Slot.ofRate? e.rate = some slot).map Entry.ident

/-- The own variables that are touched in a slot by statements at the top of a unit, the first of
them being number `n`. -/
def CheckedUnit.touches (unit : CheckedUnit) (slot : Slot) (n : Nat) : List Stmt → List Text
  | [] => []
  | s :: ss =>
    (if Slot.ofRate? (unit.stmtRate n) = some slot then s.touches unit.locals else []) ++
      unit.touches slot (n + 1) ss

/-- The own variables of a unit that the code of a slot touches, in the order of the code. Arrays
and then tables are made in the construct slot. -/
def Instrument.touches (i : Instrument) (unit : CheckedUnit) (slot : Slot) : List Text :=
  (if slot = .construct then
      (unit.locals.entries.filter Entry.array).map Entry.ident ++ i.decls.flatMap Decl.tables
    else []) ++
  slot.shared Entry.imports unit.locals.entries ++ unit.touches slot 0 i.body ++
  slot.shared Entry.exports unit.locals.entries

theorem ConstantsCode.operands_eq {es : List Expr} (h : ConstantsCode u es is) :
    operands? is = [] := by
  induction h with
  | nil => rfl
  | cons h _ ih =>
    obtain ⟨_, rfl, -⟩ := h
    simpa [field?] using ih

theorem TablesCode.operands_eq (ht : t.Aligned) (hc : ∀ x, c.field? x = t.index? x)
    {ds : List Decl} (hds : ∀ x ∈ ds.flatMap Decl.tables, x ∈ t.names) (h : TablesCode c u ds is) :
    operands? is = (ds.flatMap Decl.tables).map t.operand? := by
  induction h with
  | nil => rfl
  | vars _ ih => exact ih hds
  | @table d _ _ _ _ _ _ _ _ has _ ih =>
    rw [flatMap_cons, forall_mem_append] at hds
    obtain ⟨n, hn⟩ : ∃ n, t.index? d.ident = some n :=
      Option.isSome_iff_exists.1 (ht.isSome_iff.2 (hds.1 d.ident (mem_singleton_self _)))
    simp [field?, has.operands_eq, ih hds.2, hc, hn, Decl.tables, VariableTable.operand?]

theorem operands_arraysCode (ht : t.Aligned) {settings : Settings} {before es : List Entry}
    (hes : t.entries = before ++ es) :
    operands? (arraysCode before.length (es.map (Entry.field settings))) =
      ((es.filter Entry.array).map Entry.ident).map t.operand? := by
  induction es generalizing before with
  | nil => rfl
  | cons e es ih =>
    have hindex : t.index? e.ident = some before.length :=
      (ht _ _).2 (by simp [VariableTable.names, hes])
    specialize @ih (before ++ [e]) (by simp [hes])
    rw [length_append, length_singleton] at ih
    rw [map_cons, arraysCode, operands?_append, ih, Entry.field]
    cases harray : e.array <;> simp [field?, harray, hindex, VariableTable.operand?]

theorem SharedCode.operands_eq (hc : ∀ x, c.field? x = t.index? x) {slot : Slot}
    {chosen : Entry → Bool} {move : Int → Int → Instruction}
    (hmove : ∀ f g, (move f g).field? = some f) {es : List Entry}
    (h : SharedCode c slot chosen move es is) :
    operands? is = (slot.shared chosen es).map t.operand? := by
  induction h with
  | nil => rfl
  | skip h _ ih => rw [ih, Slot.shared, Slot.shared, filter_cons_of_neg (by simpa using h)]
  | move h hslot hfield _ _ ih =>
    rw [hc] at hfield
    rw [operands?_cons, ih, Slot.shared, Slot.shared,
      filter_cons_of_pos (by simpa using ⟨h, hslot⟩)]
    simp [hmove, VariableTable.operand?, hfield]

theorem BodyCode.operands_eq {unit : CheckedUnit} (hc : ∀ x, c.field? x = unit.locals.index? x)
    {slot : Slot} {n : Nat} {ss : List Stmt} (h : BodyCode c u unit slot n ss is) :
    operands? is = (unit.touches slot n ss).map unit.locals.operand? := by
  induction h with
  | nil => rfl
  | skip hown hslot _ ih =>
    rw [ih, CheckedUnit.touches, hown, if_neg (by simpa using hslot), nil_append]
  | stmt hown hs _ ih =>
    rw [operands?_append, ih, hs.operands_eq hc, CheckedUnit.touches, if_pos hown, map_append]

end Code

/-- The fields of a unit are numbered like its variables, by their names and in its code, and its
parameters are the first of them. -/
structure CompiledUnit.Aligned (code : CompiledUnit) (unit : CheckedUnit)
    (i : Instrument) : Prop where
  table : unit.locals = .addAll {} i.entries
  fields : code.fields.map Field.ident = unit.locals.names
  field : ∀ x, code.field? x = unit.locals.index? x
  params : code.params = (List.range i.params.length).map Int.ofNat
  first : i.params.map InstrumentParam.ident <+: unit.locals.names
  operands : ∀ slot, ∃ is, code.code.get slot = wordsOf is ∧
    operands? is = (i.touches unit slot).map unit.locals.operand?

/-- Tables and layouts stay aligned. Whatever entries are added to a table, it records them, and the
store numbers the scalar signals among them; so it does for the global variables of an orchestra.
The unit of an instrument or a template without complaints is aligned with its table. -/
theorem CheckedOrchestra.layouts_aligned :
    (∀ es : List Entry, (VariableTable.addAll {} es).Records es ∧
      (StoreLayout.ofTable (.addAll {} es)).Numbers (.addAll {} es)) ∧
    ∀ tree o, CheckedOrchestra.ofTree tree = .ok o →
      (StoreLayout.ofTable o.global.locals).Numbers o.global.locals ∧
      ∀ unit i, (unit, i) ∈ o.parts → unit.errors = [] →
        ∀ settings code, i.generate (.of settings o.global.locals) unit = .ok code →
          code.Aligned unit i := by
  refine ⟨fun es => ⟨VariableTable.records_addAll es,
    StoreLayout.numbers_ofTable (VariableTable.records_addAll es).index⟩, fun tree o h => ?_⟩
  obtain ⟨-, hglobals, -, hchecks⟩ := CheckedOrchestra.ofTree_parts h
  refine ⟨StoreLayout.numbers_ofTable hglobals, fun unit i hpart hclean settings code hcode => ?_⟩
  obtain ⟨s, keyword, -, hunit⟩ := hchecks unit i hpart
  obtain ⟨hbuilt, -, hvariables⟩ := CheckedUnit.variables_of_ofInstrument hunit
  have haligned := hbuilt.aligned
  have hentries := (hvariables hclean).1
  have hsound := CheckedUnit.sound_of_ofInstrument hunit hclean
  have hgenerated := Instrument.generate_ok hsound.calls hcode
  have hfirst : i.params.map InstrumentParam.ident <+: unit.locals.names := by
    rw [VariableTable.names, hentries, Instrument.entries, map_append, map_map]
    exact prefix_append _ _
  refine ⟨?_, ?_, fun x => ?_, ?_, hfirst, fun slot => ?_⟩
  · rw [← hentries]
    exact hbuilt
  · rw [hgenerated.fields, map_map]
    rfl
  · rw [CompiledUnit.field?, hgenerated.fields, findIdx?_map, haligned.index?_eq]
    rfl
  · rw [hgenerated.params]
    refine ext_getElem (by simp) fun n hn _ => ?_
    rw [length_map] at hn
    have hindex : unit.locals.index? i.params[n].ident = some n := by
      refine (haligned _ _).2 ?_
      rw [← getElem_map InstrumentParam.ident]
      exact prefix_iff_getElem?.1 hfirst n (by simpa using hn)
    simp [Linkage.field?_context haligned, hindex]
  · obtain ⟨_, hwords, -, _, _, _, _, ⟨ts, hts, rfl⟩, himports, hbody, hexports, rfl⟩ :=
      hgenerated.code slot
    have htables : ∀ x ∈ i.decls.flatMap Decl.tables, x ∈ unit.locals.names := by
      intro x hx
      obtain ⟨d, hd, hx⟩ := mem_flatMap.1 hx
      cases d with
      | vars d => cases hx
      | table d =>
        obtain ⟨-, e, he, hident⟩ := hsound.decls _ hd
        rw [mem_singleton.1 hx, ← hident]
        exact mem_map_of_mem he
    have hc (x : Text) : ((Linkage.of settings o.global.locals).context unit i).field? x =
        unit.locals.index? x := Linkage.field?_context haligned x
    have harrays : operands? (arraysCode 0 (unit.locals.entries.map (Entry.field settings))) = _ :=
      operands_arraysCode haligned (nil_append _).symm
    refine ⟨_, hwords, ?_⟩
    rw [operands?_append, operands?_append, operands?_append, operands?_append,
      himports.operands_eq hc fun _ _ => rfl, hbody.operands_eq hc,
      hexports.operands_eq hc fun _ _ => rfl, Instrument.touches, map_append, map_append,
      map_append, only]
    split
    next =>
      rw [operands?_append, hts.operands_eq haligned hc htables, map_append, ← harrays]
      simp [field?, Linkage.of]
    next => simp [field?]

/-- An orchestra with parameters, an array, a table, and a global variable behind one that takes no
place in the store. -/
def CheckedOrchestra.carillon : Text :=
  "global \x7b table w(data, 1, 0); ksig bell; \x7d instr a(n, m) \x7b ksig k[2], j; " ++
  "table t(data, 2, 1); imports exports ksig bell; k[n] = tableread(t, m) + bell; " ++
  "j = k[m]; bell = j; output(k[j]); \x7d"

theorem CheckedOrchestra.layouts_aligned_carillon :
    ∃ tree o unit i code, OrchestraTree.parse carillon = .ok tree ∧
      CheckedOrchestra.ofTree tree = .ok o ∧ (unit, i) ∈ o.parts ∧ unit.errors = [] ∧
      i.generate (.of {} o.global.locals) unit = .ok code ∧
      (StoreLayout.ofTable o.global.locals).index? "bell" = some 0 ∧
      i.touches unit .control =
        ["bell", "n", "m", "t", "bell", "k", "m", "k", "j", "j", "bell", "bell"] ∧
      code.Aligned unit i := by
  have hcompiles : (do
      let tree ← (OrchestraTree.parse carillon).toOption
      let o ← (CheckedOrchestra.ofTree tree).toOption
      let part ← o.parts.head?
      let code ← (part.2.generate (.of {} o.global.locals) part.1).toOption
      some (part.1.errors, (StoreLayout.ofTable o.global.locals).index? "bell",
        part.2.touches part.1 .control)) = some ([], some 0, (["bell", "n", "m", "t", "bell", "k",
        "m", "k", "j", "j", "bell", "bell"] : List Text)) := by
    decide +kernel
  simp only [Option.bind_eq_bind, Option.bind_eq_some_iff, toOption_eq_some_iff, Option.some.injEq,
    Prod.mk.injEq] at hcompiles
  obtain ⟨tree, htree, o, ho, ⟨unit, i⟩, hpart, code, hcode, hclean, hbell, htouches⟩ := hcompiles
  have hmem := mem_of_head? hpart
  exact ⟨tree, o, unit, i, code, htree, ho, hmem, hclean, hcode, hbell, htouches,
    (CheckedOrchestra.layouts_aligned.2 tree o ho).2 unit i hmem hclean {} code hcode⟩

end Orchestrion
