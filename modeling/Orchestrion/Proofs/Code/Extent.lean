import Orchestrion.Proofs.Code.Rules
import Orchestrion.Proofs.Code.Unit

/-!
# Operands that fit

The words of code are signed and have 32 bits. The operands of an instruction are numbers of fields,
constants and values and distances in the code, none of them greater than what has been emitted and
declared so far, and the widths of arrays, which the source gives. So an operand that does not fit
is the width of an array, or the unit is of an enormous size.
-/

namespace Orchestrion

open List

/-! ### Sizes of code -/

/-- The number of words that the declaration takes, apart from arrays and tags. -/
def Decl.codeSize : Decl → Nat
  | .vars _ => 0
  | .table d => 2 * d.args.tail.length + 4

/-- The number of words in all slots of an instrument whose variables are given. -/
def Instrument.codeSize (i : Instrument) (locals : VariableTable) : Nat :=
  3 * locals.entries.countP Entry.array + (i.decls.map Decl.codeSize).sum +
    3 * locals.entries.countP Entry.imports + Stmt.codeSizes i.body +
    3 * locals.entries.countP Entry.exports + 4

/-- The words of code of an instrument whose variables are given, its fields and the global
scalars. -/
def Instrument.weight (i : Instrument) (locals : VariableTable) (store : StoreLayout) : Nat :=
  i.codeSize locals + locals.entries.length + store.size

namespace Emit

/-- The greatest number that fits into a word. -/
def greatest : Nat := 2147483647

theorem fits_iff {a : Int} : fits a = true ↔ -(greatest + 1 : Int) ≤ a ∧ a ≤ greatest := by
  have hmin : Int32.minValue.toInt = -(greatest + 1 : Int) := by decide
  have hmax : Int32.maxValue.toInt = greatest := by decide
  rw [fits, hmin, hmax, Bool.and_eq_true, decide_eq_true_iff, decide_eq_true_iff]

theorem greatest_lt_of_not_fits {a : Int} {n : Nat} (h : fits a = false) (ha : a.natAbs ≤ n) :
    greatest < n := by
  rw [← Bool.not_eq_true, fits_iff] at h
  omega

theorem fits_natCast {k : Nat} (h : k ≤ greatest) : fits (k : Int) = true :=
  fits_iff.2 ⟨by omega, by omega⟩

end Emit

/-! ### Costs of steps -/

namespace Emitter

/-- The number of words in all slots. -/
def codeSize (E : Emitter) : Nat := (Slot.all.map fun slot => (E.streams.get slot).code.size).sum

theorem size_le_codeSize (E : Emitter) (slot : Slot) :
    (E.streams.get slot).code.size ≤ E.codeSize := by
  cases slot <;> simp only [codeSize, Slot.all, map_cons, sum_cons] <;> omega

theorem codeSize_add (E : Emitter) (slot : Slot) (i : Instruction) :
    { E with streams := E.streams.modify slot (·.add i) : Emitter }.codeSize =
      E.codeSize + i.size := by
  cases slot <;>
    simp only [codeSize, Slot.all, map_cons, map_nil, sum_cons, sum_nil,
      Slots.modify, Slots.get, Stream.size_add] <;>
    omega

theorem codeSize_setPending (E : Emitter) (slot : Slot) (mark : Nat) :
    { E with streams := E.streams.modify slot (·.setPending mark) : Emitter }.codeSize =
      E.codeSize := by
  cases slot <;> rfl

end Emitter

namespace Emit

/-- The numbers of fields and of global scalars fit into a word. -/
structure Small (c : EmitContext) : Prop where
  fields : c.fields.length ≤ greatest
  field : ∀ x f, c.field? x = some f → f ≤ greatest
  slot : ∀ x g, c.store.index? x = some g → g ≤ greatest

/-- There are `n` words, at most as many constants, and no pending branch is further on. -/
structure Sized (E : Emitter) (n : Nat) : Prop where
  code : E.codeSize = n
  nums : E.nums.length ≤ n
  pending : ∀ slot, ∀ mark ∈ (E.streams.get slot).pending, mark ≤ n

/-- If there are `n` words before the step, there are `cost` more after it, and the result is as
told. An operand does not fit only if these, the fields or the global scalars are more than a word
can count; the first argument of a call or a table is never missing. Where names are `known`, the
first of the nodes that there is no code for is refused, and nothing else. -/
structure Costs {α : Type} (c : EmitContext) (known : Prop) (n cost : Nat)
    (lacks : List (Node × NoCode)) (x : Emit α) (result : α → Prop) : Prop where
  outcome : ∀ E, Sized E n → match x.run E with
    | .ok (a, E') => Sized E' (n + cost) ∧ result a ∧ (known → lacks = [])
    | .error (.overflow _) => Small c → greatest < n + cost
    | .error .missingArgument => False
    | .error (.unsupported u) => known → ∃ node reason rest,
      lacks = (node, reason) :: rest ∧ u = .of c.ident node reason

theorem sized_empty : Sized {} 0 where
  code := rfl
  nums := Nat.le_refl _
  pending slot := by cases slot <;> exact forall_mem_nil _

theorem Sized.size_le {E : Emitter} {n : Nat} (h : Sized E n) (slot : Slot) :
    (E.streams.get slot).code.size ≤ n :=
  h.code ▸ E.size_le_codeSize slot

namespace Costs

variable {α β : Type} {c : EmitContext} {known : Prop} {n k l : Nat}
  {lacks others : List (Node × NoCode)} {x : Emit α} {result : α → Prop} {f : α → Emit β}
  {last : β → Prop}

theorem cast (h : Costs c known n k lacks x result) (heq : k = l) :
    Costs c known n l lacks x result := heq ▸ h

theorem pure {a : α} (h : result a) : Costs c known n 0 [] (Pure.pure a) result :=
  ⟨fun _ hE => ⟨hE, h, fun _ => rfl⟩⟩

theorem refuse {node : Node} {reason : NoCode}
    (h : known → ∃ rest, lacks = (node, reason) :: rest) :
    Costs c known n k lacks (refuse c node reason) result := by
  refine ⟨fun _ _ hknown => ?_⟩
  obtain ⟨rest, hlacks⟩ := h hknown
  exact ⟨node, reason, rest, hlacks, rfl⟩

theorem relabel (h : Costs c known n k others x result) (heq : known → lacks = others) :
    Costs c known n k lacks x result := by
  refine ⟨fun E hE => ?_⟩
  have h := h.outcome E hE
  match hrun : x.run E, h with
  | .ok (a, E'), h => exact ⟨h.1, h.2.1, fun hknown => (heq hknown).trans (h.2.2 hknown)⟩
  | .error (.overflow v), h => exact h
  | .error (.unsupported u), h =>
    intro hknown
    rw [heq hknown]
    exact h hknown

theorem bind (hx : Costs c known n k lacks x result)
    (hf : ∀ a, result a → Costs c known (n + k) l others (f a) last) :
    Costs c known n (k + l) (lacks ++ others) (x >>= f) last := by
  refine ⟨fun E hE => ?_⟩
  have hx := hx.outcome E hE
  rw [StateT.run_bind]
  match hrun : x.run E, hx with
  | .ok (a, E₁), ⟨hE₁, ha, hnone⟩ =>
    -- Nothing is refused by the first step, so the first node is one of the others.
    have hlacks : known → lacks ++ others = others := fun hknown => by rw [hnone hknown]; rfl
    have hf := ((hf a ha).relabel hlacks).outcome E₁ hE₁
    rw [Nat.add_assoc] at hf
    exact hf
  | .error (.overflow v), hx =>
    intro hc
    have hoverflow := hx hc
    omega
  | .error (.unsupported u), hx =>
    intro hknown
    obtain ⟨node, reason, rest, rfl, hu⟩ := hx hknown
    exact ⟨node, reason, rest ++ others, rfl, hu⟩

theorem before (hx : Costs c known n k lacks x result)
    (hf : ∀ a, result a → Costs c known (n + k) l [] (f a) last) :
    Costs c known n (k + l) lacks (x >>= f) last := by
  have hbind := hx.bind hf
  rwa [append_nil] at hbind

end Costs

section Steps

variable {c : EmitContext} {known : Prop} {n : Nat} (slot : Slot)

theorem append_run (i : Instruction) (E : Emitter) :
    (append slot i).run E =
      ((match (E.streams.get slot).pendingOffsets.find? fun a => !fits a with
      | some a => throw (.overflow a)
      | none => modify fun e => { e with streams := e.streams.modify slot (·.add i) } :
        Emit Unit)).run E := rfl

theorem costs_append (i : Instruction) :
    Costs c known n i.size [] (append slot i) fun _ => True := by
  refine ⟨fun E hE => ?_⟩
  rw [append_run]
  cases hfind : (E.streams.get slot).pendingOffsets.find? fun a => !fits a with
  | some a =>
    -- An offset is no longer than the code and its place.
    have hfits := find?_some hfind
    rw [Bool.not_eq_true'] at hfits
    obtain ⟨mark, hmark, rfl⟩ := mem_map.1 (mem_of_find?_eq_some hfind)
    have hcode := hE.size_le slot
    have hpending := hE.pending slot mark hmark
    refine fun _ => greatest_lt_of_not_fits hfits ?_
    rw [Stream.offsetTo, Instruction.size]
    omega
  | none =>
    refine ⟨⟨?_, Nat.le_trans hE.nums (Nat.le_add_right ..), fun other mark hmark => ?_⟩, trivial,
      fun _ => rfl⟩
    · rw [Emitter.codeSize_add, hE.code]
    · by_cases hother : other = slot
      · simp [hother, Stream.add] at hmark
      · simp only [Slots.get_modify, hother, if_false] at hmark
        exact Nat.le_trans (hE.pending other mark hmark) (Nat.le_add_right ..)

theorem costs_instruction {i : Instruction}
    (h : Small c → ∀ a ∈ i.operands, fits a = true ∨ a.natAbs ≤ n + i.size) :
    Costs c known n i.size [] (instruction slot i) fun _ => True := by
  refine ⟨fun E hE => ?_⟩
  rw [instruction]
  cases hfind : i.operands.find? fun a => !fits a with
  | some a =>
    have hfits := find?_some hfind
    rw [Bool.not_eq_true'] at hfits
    intro hc
    rcases h hc a (mem_of_find?_eq_some hfind) with h | h
    · rw [h] at hfits
      cases hfits
    · exact greatest_lt_of_not_fits hfits h
  | none => exact (costs_append slot i).outcome E hE

theorem costs_branch {jump : Int → Instruction} (hjump : Instruction.IsBranch jump) :
    Costs c known n 2 [] (branch slot jump) fun mark => mark ≤ n + 2 := by
  refine ⟨fun E hE => ?_⟩
  have happend := (costs_append slot (jump 0) : Costs c known n _ _ _ _).outcome E hE
  rw [hjump.size] at happend
  rw [branch, StateT.run_bind]
  match hrun : (append slot (jump 0)).run E, happend with
  | .ok ((), E₁), ⟨hE₁, _, hnone⟩ =>
    exact ⟨hE₁, Nat.le_trans (Nat.sub_le ..) (hE₁.size_le slot), hnone⟩
  | .error (.overflow v), happend => exact happend
  | .error (.unsupported u), happend => exact happend

theorem costs_setPending {mark : Nat} (hmark : mark ≤ n) :
    Costs c known n 0 [] (setPending slot mark) fun _ => True := by
  refine ⟨fun E hE => ⟨⟨?_, hE.nums, fun other mark' hmark' => ?_⟩, trivial, fun _ => rfl⟩⟩
  · rw [Emitter.codeSize_setPending, hE.code, Nat.add_zero]
  · by_cases hother : other = slot
    · simp only [Slots.get_modify, hother, if_true, Stream.setPending, mem_append,
        mem_singleton] at hmark'
      rcases hmark' with hmark' | rfl
      · exact hE.pending slot mark' hmark'
      · exact hmark
    · simp only [Slots.get_modify, hother, if_false] at hmark'
      exact hE.pending other mark' hmark'

theorem costs_label : Costs c known n 0 [] (label slot) (· ≤ n) :=
  ⟨fun _ hE => ⟨hE, hE.size_le slot, fun _ => rfl⟩⟩

theorem costs_jumpBack {top : Nat} (htop : top ≤ n) :
    Costs c known n 2 [] (jumpBack slot top) fun _ => True := by
  refine ⟨fun E hE => ?_⟩
  have hcode := hE.size_le slot
  refine (costs_instruction slot fun _ a ha => .inr ?_).outcome E hE
  rw [Instruction.operands, mem_singleton] at ha
  subst ha
  rw [Stream.backOffset, show (Instruction.jump _).size = 2 from rfl]
  omega

theorem constant_run (v : Float) (E : Emitter) : ∃ k nums,
    (constant v).run E = .ok (k, { E with nums }) ∧ k ≤ E.nums.length ∧
      nums.length ≤ E.nums.length + 1 := by
  simp only [constant, modifyGet, MonadStateOf.modifyGet, StateT.modifyGet, StateT.run]
  cases hfind : E.nums.findIdx? fun y => y == Number.narrow v with
  | some k =>
    obtain ⟨hlt, -⟩ := findIdx?_eq_some_iff_getElem.1 hfind
    exact ⟨k, E.nums, rfl, Nat.le_of_lt hlt, Nat.le_succ _⟩
  | none => exact ⟨_, _, rfl, Nat.le_refl _, by simp⟩

theorem instruction_run_nums (i : Instruction) (E : Emitter) (nums : List Float32) :
    (instruction slot i).run { E with nums } =
      ((instruction slot i).run E).map fun r => (r.1, { r.2 with nums }) := by
  rw [instruction]
  cases i.operands.find? fun a => !fits a with
  | some a => rfl
  | none =>
    rw [append_run, append_run]
    cases (E.streams.get slot).pendingOffsets.find? fun a => !fits a with
    | some a => rfl
    | none => rfl

theorem costs_push (v : Float) : Costs c known n 2 [] (push slot v) fun _ => True := by
  refine ⟨fun E hE => ?_⟩
  obtain ⟨k, nums, hrun, hk, hnums⟩ := constant_run v E
  have hlength := hE.nums
  -- The words of the instruction make up for the constant that may be new.
  have hcosts : Costs c known n 2 [] (instruction slot (.num k)) fun _ => True := by
    refine (costs_instruction slot fun _ a ha => .inr ?_ :
      Costs c known n (Instruction.num _).size _ _ _)
    rw [Instruction.operands, mem_singleton] at ha
    rw [ha, Int.natAbs_natCast]
    omega
  have houtcome := hcosts.outcome E hE
  have hpush : (push slot v).run E =
      ((instruction slot (.num k)).run E).map fun r => (r.1, { r.2 with nums }) := by
    rw [push, StateT.run_bind, hrun]
    exact instruction_run_nums slot _ E nums
  rw [hpush]
  cases hinstruction : (instruction slot (.num k)).run E with
  | ok r =>
    rw [hinstruction] at houtcome
    exact ⟨⟨houtcome.1.code, by dsimp only; omega, houtcome.1.pending⟩, houtcome.2⟩
  | error fault =>
    rw [hinstruction] at houtcome
    exact houtcome

end Steps

theorem rules_costs {c : EmitContext} {known : Prop} (h : known → Sees c) (slot : Slot) :
    Rules c slot True known fun _ _ k lacks x => ∀ n, Costs c known n k lacks x fun _ => True where
  sees := h
  pure _ _ := .pure trivial
  bind hx hf _ := (hx _).bind fun a _ => hf a _
  refuse _ _ hrest _ := .refuse hrest
  relabel hlacks hx _ := (hx _).relabel hlacks
  missing h := absurd trivial h
  snoc hx _ hmodest _ := (hx _).before fun _ _ => costs_instruction slot fun hc a ha => by
    rcases hmodest a ha with hfits | ⟨k, rfl, ⟨x, hk⟩ | ⟨x, hk⟩ | hk⟩
    · exact .inl hfits
    · exact .inl (fits_natCast (hc.field x k hk))
    · exact .inl (fits_natCast (hc.slot x k hk))
    · rw [Int.natAbs_natCast]
      exact .inr (by omega)
  push _ _ := costs_push slot _
  room _ _ := ⟨fun _ hE => ⟨⟨hE.code, hE.nums, hE.pending⟩, trivial, fun _ => rfl⟩⟩
  skip hbody n := ((costs_branch slot (Instruction.isBranch_jumpIf _)).bind fun skip hskip =>
    (hbody _).before fun _ _ => costs_setPending slot (by omega)).cast (by omega)
  choice comparison hyes hno n :=
    ((costs_branch slot (Instruction.isBranch_jumpIf comparison)).bind fun toElse helse =>
      (hyes _).bind fun _ _ => (costs_branch slot Instruction.isBranch_jump).bind fun join hjoin =>
      (costs_setPending slot (by omega)).bind fun _ _ => (hno _).before fun _ _ =>
      costs_setPending slot (by omega)).cast (by omega)
  loop hguard hbody n := ((costs_label slot).bind fun top htop => (hguard _).bind fun _ _ =>
    (costs_branch slot (Instruction.isBranch_jumpIf _)).bind fun exit hexit =>
    (hbody _).before fun _ _ => (costs_jumpBack slot (by omega)).bind fun _ _ =>
    costs_setPending slot (by omega)).cast (by omega)

/-! ### Costs of units -/

/-- Why a variable cannot be shared: it is a table. -/
def sharingLacks (i : Instrument) (e : Entry) : List (Node × NoCode) :=
  if e.isTagged ∧ e.rate = .table then [(i.declaringNode e.ident, .sharedTable e.ident)] else []

/-- The names of an instrument stand for something of the right kind, its statements have signal
rates, the generators of its tables are known, and what it shares is a table or has a place in the
store. -/
structure Served (c : EmitContext) (u : CheckedUnit) (i : Instrument) : Prop where
  sees : Sees c
  generators : ∀ d, .table d ∈ i.decls → (Generator.ofText? d.generator).isSome = true
  shared : ∀ e ∈ u.locals.entries, e.isTagged = true → e.rate ≠ .table →
    (c.store.index? e.ident).isSome = true
  names : Stmt.AllScoped c.scope i.body
  rates : ∀ k < i.body.length, (u.stmtRate k).isSignal = true

section Units

variable {c : EmitContext} {known : Prop} {n : Nat}

theorem small_context {l : Linkage} {u : CheckedUnit} {i : Instrument}
    (hstore : l.store.places.Below l.store.size) (hfields : u.locals.entries.length ≤ greatest)
    (hslots : l.store.size ≤ greatest) : Small (l.context u i) := by
  have hlength : (l.context u i).fields.length ≤ greatest := by
    rwa [Linkage.fields_context, length_map]
  refine ⟨hlength, fun x f hf => ?_, fun x g hg => ?_⟩
  · exact Nat.le_trans (Nat.le_of_lt (Linkage.below_context x f hf)) hlength
  · exact Nat.le_trans (Nat.le_of_lt (hstore x g hg)) hslots

/-- A field that is missing counts as the first one. -/
theorem Small.field_getD (hc : Small c) (x : Text) : (c.field? x).getD 0 ≤ greatest := by
  cases hfield : c.field? x with
  | none => exact Nat.zero_le _
  | some f => exact hc.field x f hfield

theorem costs_makeArrays {k : Nat} {fs : List Field} (hk : k + fs.length ≤ c.fields.length)
    (hwidth : ∀ f ∈ fs, f.array = true → fits f.width = true) :
    Costs c known n (3 * fs.countP Field.array) [] (makeArrays k fs) fun _ => True := by
  induction fs generalizing k n with
  | nil => exact .pure trivial
  | cons f fs ih =>
    rw [length_cons] at hk
    rw [forall_mem_cons] at hwidth
    have hrest {n : Nat} := ih (k := k + 1) (n := n) (by omega) hwidth.2
    rw [makeArrays]
    split
    next harray =>
      have hnew : Costs c known n 3 [] (instruction .construct (.newArray k f.width))
          fun _ => True := by
        refine (costs_instruction _ fun hc a ha => .inl ?_ :
          Costs c known n (Instruction.newArray _ _).size _ _ _)
        rw [Instruction.operands, mem_cons, mem_singleton] at ha
        rcases ha with rfl | rfl
        · have hfields := hc.fields
          exact fits_natCast (by omega)
        · exact hwidth.1 harray
      rw [countP_cons_of_pos harray]
      exact (hnew.bind fun _ _ => hrest).cast (by omega)
    next harray =>
      rw [countP_cons_of_neg harray]
      exact hrest

theorem costs_pushConstants (es : List Expr) :
    Costs c known n (2 * es.length) [] (pushConstants es) fun _ => True := by
  induction es generalizing n with
  | nil => exact .pure trivial
  | cons e es ih =>
    rw [length_cons, Nat.mul_succ, Nat.add_comm]
    exact (costs_push _ _).bind fun _ _ => ih

theorem fits_generator (g : Generator) : fits g.code = true := by
  cases g <;> decide

theorem costs_fillTable {d : TableDecl} (hargs : d.args ≠ [])
    (hgenerator : known → (Generator.ofText? d.generator).isSome = true) :
    Costs c known n (Decl.table d).codeSize [] (fillTable c d) fun _ => True := by
  rw [fillTable]
  split
  next hnone =>
    refine .refuse fun hknown => ?_
    have hsome := hgenerator hknown
    rw [hnone] at hsome
    cases hsome
  next g _ =>
    split
    next hnil => exact absurd hnil hargs
    next e args hcons =>
      have hgen : Costs c known (n + 2 * args.length) 4 [] (instruction .construct
          (.tableGen ((c.field? d.ident).getD 0 : Nat) g.code args.length)) fun _ => True := by
        refine (costs_instruction _ fun hc a ha => ?_ :
          Costs c known _ (Instruction.tableGen _ _ _).size _ _ _)
        rw [Instruction.operands, mem_cons, mem_cons, mem_singleton] at ha
        rcases ha with rfl | rfl | rfl
        · exact .inl (fits_natCast (hc.field_getD d.ident))
        · exact .inl (fits_generator g)
        · exact .inr (by rw [Int.natAbs_natCast]; omega)
      rw [Decl.codeSize, hcons, tail_cons]
      exact (costs_pushConstants args).bind fun _ _ => hgen

theorem costs_fillTables {ds : List Decl} (hds : ∀ d, .table d ∈ ds → d.args ≠ [] ∧
      (known → (Generator.ofText? d.generator).isSome = true)) :
    Costs c known n (ds.map Decl.codeSize).sum [] (fillTables c ds) fun _ => True := by
  induction ds generalizing n with
  | nil => exact .pure trivial
  | cons d ds ih =>
    have hrest {n : Nat} := ih (n := n) fun d hd => hds d (mem_cons_of_mem _ hd)
    cases d with
    | vars d => exact hrest.cast (Nat.zero_add _).symm
    | table d =>
      obtain ⟨hargs, hgenerator⟩ := hds d mem_cons_self
      exact (costs_fillTable hargs hgenerator).bind fun _ _ => hrest

/-- The numbers of a tagged variable are those of a field and a global scalar. -/
structure Placed (c : EmitContext) (s : Shared) : Prop where
  field : ∃ x, s.field = (c.field? x).getD 0
  global : ∃ x, c.store.index? x = some s.global

theorem costs_shared (i : Instrument) {e : Entry} (htagged : e.isTagged = true)
    (hslot : known → e.rate ≠ .table → (c.store.index? e.ident).isSome = true) :
    Costs c known n 0 (sharingLacks i e) (shared c i e) (Placed c) := by
  rw [shared, sharingLacks]
  by_cases htable : e.rate = .table
  · rw [if_pos htable, if_pos ⟨htagged, htable⟩]
    exact ⟨fun _ _ _ => ⟨_, _, [], rfl, rfl⟩⟩
  rw [if_neg htable, if_neg fun h => htable h.2]
  split
  next hnone =>
    refine .refuse fun hknown => ?_
    have hsome := hslot hknown htable
    rw [hnone] at hsome
    cases hsome
  next g hg =>
    exact .pure ⟨⟨e.ident, rfl⟩, e.ident, hg⟩

theorem costs_move (slot : Slot) {s : Shared} (hs : Placed c s) {i : Instruction}
    (h : i.operands = [(s.field : Int), (s.global : Int)]) :
    Costs c known n 3 [] (instruction slot i) fun _ => True := by
  obtain ⟨⟨x, hfield⟩, y, hglobal⟩ := hs
  have hsize : i.size = 3 := by rw [Instruction.size, h]; rfl
  have hcosts : Costs c known n i.size [] (instruction slot i) fun _ => True := by
    refine costs_instruction slot fun hc a ha => .inl ?_
    rw [h, mem_cons, mem_singleton] at ha
    rcases ha with rfl | rfl
    · exact fits_natCast (hfield ▸ hc.field_getD x)
    · exact fits_natCast (hc.slot y s.global hglobal)
  rwa [hsize] at hcosts

theorem costs_importShared (i : Instrument) {es : List Entry}
    (hslot : known → ∀ e ∈ es, e.isTagged = true → e.rate ≠ .table →
      (c.store.index? e.ident).isSome = true) :
    Costs c known n (3 * es.countP Entry.imports) (es.flatMap (sharingLacks i))
      (importShared c i es) fun ss =>
        ss.length = es.countP Entry.exports ∧ ∀ s ∈ ss, Placed c s := by
  induction es generalizing n with
  | nil => exact .pure ⟨rfl, forall_mem_nil _⟩
  | cons e es ih =>
    have hrest {n : Nat} := ih (n := n) fun hknown e he =>
      hslot hknown e (mem_cons_of_mem _ he)
    have hreturn {k : Nat} {s : Shared} {ss : List Shared} (hs : Placed c s)
        (hss : ss.length = es.countP Entry.exports ∧ ∀ s ∈ ss, Placed c s) :
        Costs c known k 0 [] (pure (if e.exports then s :: ss else ss) : Emit (List Shared))
          fun ss => ss.length = (e :: es).countP Entry.exports ∧ ∀ s ∈ ss, Placed c s := by
      split
      next h =>
        rw [countP_cons_of_pos h]
        exact .pure ⟨congrArg (· + 1) hss.1, forall_mem_cons.2 ⟨hs, hss.2⟩⟩
      next h =>
        rw [countP_cons_of_neg h]
        exact .pure hss
    rw [importShared, flatMap_cons]
    split
    next htagged =>
      refine ((costs_shared i htagged fun hknown => hslot hknown e mem_cons_self htagged).bind
        fun s hs => ?_).cast (Nat.zero_add _)
      by_cases h : e.imports = true
      · rw [countP_cons_of_pos h]
        simp only [h, if_true]
        exact ((costs_move s.slot hs rfl).bind fun _ _ => hrest.before fun ss hss =>
          hreturn hs hss).cast (by omega)
      · rw [countP_cons_of_neg h]
        simp only [h]
        exact hrest.before fun ss hss => hreturn hs hss
    next h =>
      rw [sharingLacks, if_neg fun htagged => h htagged.1]
      rw [Entry.isTagged, Bool.or_eq_true, not_or] at h
      rw [countP_cons_of_neg h.1, countP_cons_of_neg h.2]
      exact hrest

theorem costs_exportShared (slot : Slot) {ss : List Shared} (hss : ∀ s ∈ ss, Placed c s) :
    Costs c known n (3 * ss.countP fun s => s.slot = slot) [] (exportShared slot ss)
      fun _ => True := by
  induction ss generalizing n with
  | nil => exact .pure trivial
  | cons s ss ih =>
    rw [forall_mem_cons] at hss
    rw [exportShared]
    split
    next h =>
      rw [countP_cons_of_pos (by simpa using h)]
      exact ((costs_move slot hss.1 rfl).bind fun _ _ => ih hss.2).cast (by omega)
    next h =>
      rw [countP_cons_of_neg (by simpa using h)]
      exact ih hss.2

theorem costs_body {u : CheckedUnit} {p : Path} {i k : Nat} {ss : List Stmt}
    (h : Stmt.AllCallsFit ss) (hsees : known → Sees c) (hscoped : known → Stmt.AllScoped c.scope ss)
    (hrates : known → ∀ j < ss.length, (u.stmtRate (k + j)).isSignal = true) :
    Costs c known n (Stmt.codeSizes ss) (lacksAmong c.scope (Stmt.walkAll (fun _ => true) p i ss))
      (body c u k ss) fun _ => True := by
  induction ss generalizing n i k with
  | nil => exact .pure trivial
  | cons s ss ih =>
    have hrest {n : Nat} :=
      ih (n := n) (i := i + 1) (k := k + 1) h.2 (fun hknown => (hscoped hknown).2)
      fun hknown j hj => by
        rw [Nat.add_assoc, Nat.add_comm 1 j]
        exact hrates hknown (j + 1) (Nat.succ_lt_succ hj)
    rw [body, Stmt.codeSizes, Stmt.walkAll, lacksAmong_append]
    split
    next hnone =>
      -- Each of the signal rates has a slot.
      have hrefuse : Costs c known n s.codeSize
          (lacksAmong c.scope (s.walk (fun _ => true) (i :: p)))
          (refuse c (.stmt s) (.statementRate (u.stmtRate k)) : Emit PUnit) fun _ => True := by
        refine .refuse fun hknown => ?_
        have hsignal := hrates hknown 0 (Nat.succ_pos _)
        revert hsignal hnone
        cases u.stmtRate k <;> simp [Rate.isSignal, Rate.speed?, Slot.ofRate?]
      exact hrefuse.bind fun _ _ => hrest
    next slot _ =>
      have hstmt := (rules_costs hsees slot).stmt (i :: p) s (fun _ => h.1)
        (fun hknown => (hscoped hknown).1) n
      exact hstmt.bind fun _ _ => hrest

theorem costs_finish {ss : List Shared} (hss : ∀ s ∈ ss, Placed c s) (slots : List Slot) :
    Costs c known n (slots.map fun slot => (3 * ss.countP fun s => s.slot = slot) + 1).sum []
      (slots.forM (finish ss)) fun _ => True := by
  induction slots generalizing n with
  | nil => exact .pure trivial
  | cons slot slots ih =>
    exact ((costs_exportShared slot hss).bind fun _ _ => costs_append slot .ret).bind fun _ _ => ih

theorem sum_exports (ss : List Shared) :
    (Slot.all.map fun slot => (3 * ss.countP fun s => s.slot = slot) + 1).sum =
      3 * ss.length + 4 := by
  induction ss with
  | nil => rfl
  | cons s ss ih =>
    simp only [Slot.all, map_cons, map_nil, sum_cons, sum_nil] at ih ⊢
    simp only [countP_cons, length_cons]
    cases s.slot <;> simp <;> omega

theorem costs_unit {u : CheckedUnit} {i : Instrument} {settings : Settings}
    (hfields : c.fields = u.locals.entries.map (Entry.field settings))
    (hwidth : ∀ f ∈ c.fields, f.array = true → fits f.width = true)
    (htables : ∀ d, .table d ∈ i.decls → d.args ≠ []) (hcalls : Stmt.AllCallsFit i.body)
    (hserved : known → Served c u i) :
    Costs c known 0 (i.codeSize u.locals) (u.locals.entries.flatMap (sharingLacks i) ++
      lacksAmong c.scope (Stmt.walkAll (fun _ => true) [2] 0 i.body))
      (unit c u i) fun _ => True := by
  have harrays : c.fields.countP Field.array = u.locals.entries.countP Entry.array := by
    rw [hfields, countP_map]
    rfl
  have htables' (d : TableDecl) (hd : .table d ∈ i.decls) : d.args ≠ [] ∧
      (known → (Generator.ofText? d.generator).isSome = true) :=
    ⟨htables d hd, fun hknown => (hserved hknown).generators d hd⟩
  have hbody {n : Nat} := costs_body (n := n) (u := u) (p := [2]) (i := 0) (k := 0) hcalls
    (fun hknown => (hserved hknown).sees) (fun hknown => (hserved hknown).names)
    fun hknown j hj => by
      rw [Nat.zero_add]
      exact (hserved hknown).rates j hj
  refine ((costs_makeArrays (Nat.zero_add _).le hwidth).bind fun _ _ =>
    (costs_fillTables htables').bind fun _ _ =>
    (costs_importShared i fun hknown => (hserved hknown).shared).bind fun ss hss =>
    hbody.before fun _ _ => (costs_finish hss.2 Slot.all).cast
      (l := 3 * u.locals.entries.countP Entry.exports + 4) ?_).cast ?_
  · rw [sum_exports, hss.1]
  · rw [harrays, Instrument.codeSize]
    omega

end Units

end Emit

end Orchestrion
