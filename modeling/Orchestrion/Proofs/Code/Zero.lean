import Orchestrion.Proofs.Code.Pushes
import Orchestrion.Proofs.Evaluation

/-!
# The zero in the pool

Constants that are equal share a place in the pool of a unit, and the two zeros are equal: the first
zero that gets into the pool stands for all of them. Numerals are never negative, so that only the
numbers for the generators of tables, which come first, can make it the negative one.
-/

namespace Orchestrion

open Emit Number

/-- The zero in a pool, the positive one if there is none yet. -/
def Emitter.zero (E : Emitter) : Float32 := (E.nums.find? fun y => y == 0).getD 0

namespace Emit

variable {E E' : Emitter} {v : Float}

variable {α β : Type}

/-- If the step succeeds, the zero in the pool is still the same. -/
def KeepsZero (x : Emit α) : Prop := ∀ E E' a, x.run E = .ok (a, E') → E'.zero = E.zero

namespace KeepsZero

theorem pure (a : α) : KeepsZero (Pure.pure a : Emit α) := by
  intro E E' b h
  obtain ⟨-, rfl⟩ := pure_ok h
  rfl

theorem throw (fault : EmitFault) : KeepsZero (throw fault : Emit α) :=
  fun _ _ _ h => absurd h throw_ne_ok

theorem bind {x : Emit α} {f : α → Emit β} (hx : KeepsZero x) (hf : ∀ a, KeepsZero (f a)) :
    KeepsZero (x >>= f) := by
  intro E E' b h
  obtain ⟨a, E₁, ha, hb⟩ := bind_ok h
  rw [hf a E₁ E' b hb, hx E E₁ a ha]

theorem of_nums {x : Emit α} (h : ∀ E E' a, x.run E = .ok (a, E') → E'.nums = E.nums) :
    KeepsZero x := by
  intro E E' a hx
  rw [Emitter.zero, Emitter.zero, h E E' a hx]

end KeepsZero

theorem keepsZero_append (slot : Slot) (i : Instruction) : KeepsZero (append slot i) :=
  .of_nums fun E E' _ h => by rw [eq_of_append_ok h]

theorem nums_of_instruction_ok {slot : Slot} {i : Instruction}
    (h : (instruction slot i).run E = .ok ((), E')) : E'.nums = E.nums := by
  rw [instruction] at h
  split at h
  · exact absurd h throw_ne_ok
  · rw [eq_of_append_ok h]

theorem keepsZero_instruction (slot : Slot) (i : Instruction) : KeepsZero (instruction slot i) :=
  .of_nums fun _ _ _ h => nums_of_instruction_ok h

theorem find?_constant {n : Nat} (h : (constant v).run E = .ok (n, E')) :
    E'.nums.find? (fun y => y == 0) =
      (E.nums.find? fun y => y == 0).or ([narrow v].find? fun y => y == 0) := by
  simp only [constant, modifyGet, MonadStateOf.modifyGet, StateT.modifyGet, StateT.run] at h
  cases hfind : E.nums.findIdx? fun y => y == narrow v with
  | some i =>
    rw [hfind] at h
    cases h
    cases hzero : narrow v == 0 with
    | false => simp [hzero]
    | true =>
      -- A zero is found at the place of any zero, so that there is one in the pool already.
      have hsome : (E.nums.find? fun y => y == 0).isSome := by
        simp only [beq_eq_beq_zero hzero] at hfind
        obtain ⟨hlt, hi, -⟩ := List.findIdx?_eq_some_iff_getElem.1 hfind
        exact List.find?_isSome.2 ⟨_, List.getElem_mem hlt, hi⟩
      rw [Option.or_of_isSome hsome]
  | none =>
    rw [hfind] at h
    cases h
    rw [List.find?_append]

theorem find?_push {slot : Slot} (h : (push slot v).run E = .ok ((), E')) :
    E'.nums.find? (fun y => y == 0) =
      (E.nums.find? fun y => y == 0).or ([narrow v].find? fun y => y == 0) := by
  obtain ⟨n, E₁, hconstant, hinstruction⟩ := bind_ok h
  rw [nums_of_instruction_ok hinstruction, find?_constant hconstant]

theorem keepsZero_push (slot : Slot) (hv : Number.IsUnsigned v) : KeepsZero (push slot v) := by
  intro E E' _ h
  rw [Emitter.zero, Emitter.zero, find?_push h]
  cases hfind : E.nums.find? fun y => y == 0 with
  | some y => rfl
  | none =>
    cases hzero : narrow v == 0 with
    | false => simp [hzero]
    | true =>
      simp only [Option.none_or, List.find?_cons, hzero, Option.getD_some, Option.getD_none]
      exact narrow_eq_zero hv hzero

theorem keepsZero_branch (slot : Slot) (jump : Int → Instruction) : KeepsZero (branch slot jump) :=
  (keepsZero_append slot _).bind fun _ => .of_nums fun E E' _ h => by cases h; rfl

theorem keepsZero_setPending (slot : Slot) (mark : Nat) : KeepsZero (setPending slot mark) :=
  .of_nums fun E E' _ h => by rw [setPending_ok h]

theorem rules_keepsZero (c : EmitContext) (slot : Slot) :
    Rules c slot False False fun _ _ _ _ x => KeepsZero x where
  sees := False.elim
  pure := .pure
  bind := .bind
  refuse _ _ _ := .throw _
  relabel _ hx := hx
  missing _ := .throw _
  snoc hx _ _ := hx.bind fun _ => keepsZero_instruction slot _
  push hv := keepsZero_push slot hv
  room _ := .of_nums fun _ _ _ h => by cases h; rfl
  skip hbody := (keepsZero_branch slot _).bind fun _ => hbody.bind fun _ =>
    keepsZero_setPending slot _
  choice _ hyes hno := (keepsZero_branch slot _).bind fun _ => hyes.bind fun _ =>
    (keepsZero_branch slot _).bind fun _ => (keepsZero_setPending slot _).bind fun _ =>
    hno.bind fun _ => keepsZero_setPending slot _
  loop hguard hbody := by
    have hlabel : KeepsZero (label slot) := .of_nums fun _ _ _ h => by rw [(label_ok h).2]
    have hback (top : Nat) : KeepsZero (jumpBack slot top) :=
      .bind (.of_nums fun _ _ _ h => by cases h; rfl) fun _ => keepsZero_instruction slot _
    exact hlabel.bind fun top => hguard.bind fun _ => (keepsZero_branch slot _).bind fun _ =>
      hbody.bind fun _ => (hback top).bind fun _ => keepsZero_setPending slot _

/-! ### Units -/

theorem nums_of_makeArrays_ok {n : Nat} {fs : List Field}
    (h : (makeArrays n fs).run E = .ok ((), E')) : E'.nums = E.nums := by
  induction fs generalizing n E with
  | nil =>
    obtain ⟨-, rfl⟩ := pure_ok h
    rfl
  | cons f fs ih =>
    rw [makeArrays] at h
    split at h
    · obtain ⟨_, E₁, hinstruction, h⟩ := bind_ok h
      rw [ih h, nums_of_instruction_ok hinstruction]
    · exact ih h

theorem find?_pushConstants {es : List Expr} (h : (pushConstants es).run E = .ok ((), E')) :
    E'.nums.find? (fun y => y == 0) = (E.nums.find? fun y => y == 0).or
      ((es.map fun e => narrow e.constantOrZero).find? fun y => y == 0) := by
  induction es generalizing E with
  | nil =>
    obtain ⟨-, rfl⟩ := pure_ok h
    simp
  | cons e es ih =>
    obtain ⟨_, E₁, hpush, hrest⟩ := bind_ok h
    rw [ih hrest, find?_push hpush, Option.or_assoc, ← List.find?_append]
    rfl

theorem find?_fillTables {c : EmitContext} {ds : List Decl}
    (h : (fillTables c ds).run E = .ok ((), E')) :
    E'.nums.find? (fun y => y == 0) = (E.nums.find? fun y => y == 0).or
      ((ds.flatMap Decl.tableNumbers).find? fun y => y == 0) := by
  induction ds generalizing E with
  | nil =>
    obtain ⟨-, rfl⟩ := pure_ok h
    simp
  | cons d ds ih =>
    cases d with
    | vars d => exact ih h
    | table d =>
      obtain ⟨_, E₁, htable, hrest⟩ := bind_ok h
      rw [ih hrest, List.flatMap_cons, List.find?_append, ← Option.or_assoc]
      congr 1
      rw [fillTable] at htable
      split at htable
      next => exact absurd htable throw_ne_ok
      next =>
        split at htable
        next => exact absurd htable throw_ne_ok
        next hargs =>
          obtain ⟨_, E₂, hpush, hinstruction⟩ := bind_ok htable
          rw [nums_of_instruction_ok hinstruction, find?_pushConstants hpush, Decl.tableNumbers,
            hargs, List.tail_cons]

theorem keepsZero_placed (c : EmitContext) (i : Instrument) (e : Entry) :
    KeepsZero (match c.store.index? e.ident with
      | none => refuse c (i.declaringNode e.ident) (.noSlot e.ident)
      | some g => return ⟨(Slot.ofRate? e.rate).getD .construct, (c.field? e.ident).getD 0, g⟩ :
      Emit Shared) := by
  split
  · exact .throw _
  · exact .pure _

theorem keepsZero_shared (c : EmitContext) (i : Instrument) (e : Entry) :
    KeepsZero (shared c i e) := by
  rw [shared]
  split
  · exact .bind (.throw _) fun _ => keepsZero_placed c i e
  · exact keepsZero_placed c i e

theorem keepsZero_importShared (c : EmitContext) (i : Instrument) (es : List Entry) :
    KeepsZero (importShared c i es) := by
  induction es with
  | nil => exact .pure _
  | cons e es ih =>
    rw [importShared]
    split
    · refine (keepsZero_shared c i e).bind fun s => ?_
      cases e.imports with
      | true => exact (keepsZero_instruction _ _).bind fun _ => ih.bind fun _ => .pure _
      | false => exact ih.bind fun _ => .pure _
    · exact ih

theorem keepsZero_exportShared (slot : Slot) (ss : List Shared) :
    KeepsZero (exportShared slot ss) := by
  induction ss with
  | nil => exact .pure _
  | cons s ss ih =>
    rw [exportShared]
    split
    · exact (keepsZero_instruction slot _).bind fun _ => ih
    · exact ih

theorem keepsZero_body (c : EmitContext) (checked : CheckedUnit) (n : Nat) (ss : List Stmt) :
    KeepsZero (body c checked n ss) := by
  induction ss generalizing n with
  | nil => exact .pure _
  | cons s ss ih =>
    rw [body]
    split
    · exact .throw _
    · exact ((rules_keepsZero c _).stmt [] s False.elim False.elim).bind fun _ => ih (n + 1)

theorem keepsZero_finish (exported : List Shared) (slots : List Slot) :
    KeepsZero (slots.forM (finish exported)) := by
  induction slots with
  | nil => exact .pure _
  | cons slot slots ih =>
    exact ((keepsZero_exportShared slot exported).bind fun _ => keepsZero_append slot _).bind
      fun _ => ih

end Emit

theorem Instrument.pooled_zero {l : Linkage} {checked : CheckedUnit} {i : Instrument}
    {u : CompiledUnit} (h : i.generate l checked = .ok u) : u.pooled 0 = i.zero := by
  rw [Instrument.generate] at h
  dsimp only at h
  split at h
  next => cases h
  next fields _ =>
    obtain ⟨⟨_, E⟩, hunit, h⟩ := exists_of_bind_eq_ok h
    cases h
    obtain ⟨_, E₁, harrays, hunit⟩ := bind_ok hunit
    obtain ⟨_, E₂, htables, hunit⟩ := bind_ok hunit
    have hzero : E.zero = E₂.zero :=
      ((keepsZero_importShared _ i _).bind fun exported => (keepsZero_body _ checked 0 i.body).bind
        fun _ => keepsZero_finish exported Slot.all) E₂ E _ hunit
    change E.zero = i.zero
    rw [hzero, Emitter.zero, find?_fillTables htables, nums_of_makeArrays_ok harrays]
    rfl

end Orchestrion
