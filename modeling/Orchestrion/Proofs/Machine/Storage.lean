import Orchestrion.Proofs.Code.Unit
import Orchestrion.Proofs.LineTable
import Orchestrion.Proofs.Machine.Instructions

/-!
# Making storage

The construct slot of a unit makes the arrays of an instance and fills its tables. It needs no
performance around it, has no jumps, and none of its instructions can fail.
-/

namespace Orchestrion

@[simp]
theorem Generator.ofCode?_code (g : Generator) : ofCode? g.code = some g := by
  cases g <;> rfl

theorem Slot.ofRate?_ne_construct (rate : Rate) : Slot.ofRate? rate ≠ some .construct := by
  cases rate <;> nofun

theorem SharedCode.eq_nil {e : EmitContext} {chosen : Entry → Bool}
    {move : Int → Int → Instruction} {es : List Entry} {is : List Instruction}
    (h : SharedCode e .construct chosen move es is) : is = [] := by
  induction h with
  | nil => rfl
  | skip _ _ ih => exact ih
  | move _ hslot => exact absurd hslot (Slot.ofRate?_ne_construct _)

theorem BodyCode.eq_nil {e : EmitContext} {u : CompiledUnit} {checked : CheckedUnit} {k : Nat}
    {ss : List Stmt} {is : List Instruction} (h : BodyCode e u checked .construct k ss is) :
    is = [] := by
  induction h with
  | nil => rfl
  | skip _ _ _ ih => exact ih
  | stmt hslot => exact absurd hslot (Slot.ofRate?_ne_construct _)

namespace Machine

open Instruction

variable {n g : Nat} {c : Context} {rounds : Nat}

theorem computes_newArray (f : Fin n) {size : Int} (hsize : 0 ≤ size) :
    Computes c rounds [] [.newArray (f : Nat) size]
      (modify fun m => { m with arrays := m.arrays.set f (Array.replicate size.toNat 0) } :
        EStateM Interruption (Memory n g) Unit) fun _ => [] := by
  refine .single trivial (Nat.zero_le _) fun m => ⟨(), _, rfl, Nat.zero_le _,
    fun p q vs _ => ⟨?_, ?_⟩⟩
  · simp [InRange, Memory.state, hsize]
  · simp [exec, hsize, State.setArray?, Memory.state, Progress.ofState?]

/-- The table as the generator fills it, which it always can. -/
def filled (generator : Generator) (table : Array Float32) (args : List Float32) : Array Float32 :=
  (generator.fill? table args).getD table

theorem computes_tableGen (f : Fin n) (generator : Generator) (args : List Float32) :
    Computes c rounds args.reverse [.tableGen (f : Nat) generator.code args.length]
      (modify fun m =>
          { m with arrays := m.arrays.set f (filled generator (m.arrays.get f) args) f.isLt } :
        EStateM Interruption (Memory n g) Unit) fun _ => [] := by
  refine .single trivial (by simp [pops]) fun m => ⟨(), _, rfl, Nat.zero_le _,
    fun p q vs _ => ⟨?_, ?_⟩⟩
  · simp [InRange, Memory.state]
  · obtain ⟨table, htable⟩ := generator.exists_fill? (m.arrays.get f) args
    rw [Vector.get_eq_getElem] at htable
    rw [exec, fillArray?, popMany?_state]
    simp [State.setArray?, Memory.state, Progress.ofState?, Vector.get_eq_getElem, filled, htable]

theorem computes_pushConstants {es : List Expr} {is : List Instruction}
    (h : ConstantsCode c.unit es is) :
    ∃ vs : List Float32, vs.length = es.length ∧ ∀ rounds,
      Computes c rounds [] is (pure () : EStateM Interruption (Memory n g) Unit)
        fun _ => vs.reverse := by
  induction h with
  | nil => exact ⟨[], rfl, fun _ => .nil rfl⟩
  | @cons e es i is h _ ih =>
    obtain ⟨vs, hlength, hvs⟩ := ih
    refine ⟨c.unit.pooled e.constantOrZero :: vs, by simp [hlength], fun rounds => ?_⟩
    have hrest := (hvs rounds).frame [c.unit.pooled e.constantOrZero]
    rw [List.reverse_cons]
    exact (computes_push h ()).seq fun _ _ => hrest

/-! ### Straight code -/

/-- The block changes the memory and can do nothing else: it neither fails nor goes on for ever. -/
def Changes (c : Context) (n g : Nat) (is : List Instruction) : Prop :=
  ∃ change : Memory n g → Memory n g, ∀ rounds, Computes c rounds [] is
    (modify change : EStateM Interruption (Memory n g) Unit) fun _ => []

theorem Changes.nil : Changes c n g [] := ⟨id, fun _ => .nil rfl⟩

theorem Changes.append {is js : List Instruction} (h : Changes c n g is) (h' : Changes c n g js) :
    Changes c n g (is ++ js) := by
  obtain ⟨change, hchange⟩ := h
  obtain ⟨change', hchange'⟩ := h'
  exact ⟨change' ∘ change, fun rounds => (hchange rounds).seq fun _ _ => hchange' rounds⟩

theorem changes_arrays {k : Nat} {fs : List Field} (hk : k + fs.length ≤ n)
    (hwidth : ∀ f ∈ fs, 0 ≤ f.width) : Changes c n g (arraysCode k fs) := by
  induction fs generalizing k with
  | nil => exact .nil
  | cons f fs ih =>
    rw [List.length_cons] at hk
    rw [List.forall_mem_cons] at hwidth
    refine .append ?_ (ih (by omega) hwidth.2)
    split
    · have hlt : k < n := by omega
      exact ⟨_, fun _ => computes_newArray ⟨k, hlt⟩ hwidth.1⟩
    · exact .nil

theorem changes_tables {e : EmitContext} {ds : List Decl} {is : List Instruction}
    (h : TablesCode e c.unit ds is)
    (hfield : ∀ d, .table d ∈ ds → ∃ f : Fin n, e.field? d.ident = some (f : Nat)) :
    Changes c n g is := by
  induction h with
  | nil => exact .nil
  | vars _ ih => exact ih fun d hd => hfield d (List.mem_cons_of_mem _ hd)
  | @table d ds generator size args as is _ hargs has _ ih =>
    refine .append ?_ (ih fun d hd => hfield d (List.mem_cons_of_mem _ hd))
    obtain ⟨f, hf⟩ := hfield d List.mem_cons_self
    obtain ⟨vs, hlength, hvs⟩ := computes_pushConstants (n := n) (g := g) has
    rw [hf, Option.getD_some, ← hlength]
    refine ⟨fun m => { m with arrays := m.arrays.set f (filled generator m.arrays[f] vs) },
      fun rounds => ?_⟩
    have hfill := (hvs rounds).seq fun _ _ => computes_tableGen f generator vs
    exact hfill

/-! ### The construct slot -/

theorem changes_construct {e : EmitContext} {checked : CheckedUnit} {i : Instrument}
    {is : List Instruction} (h : SlotCode e c.unit checked i .construct is)
    (hfields : e.fields.length = n) (hwidth : ∀ f ∈ e.fields, 0 ≤ f.width)
    (hfield : ∀ d, .table d ∈ i.decls → ∃ f : Fin n, e.field? d.ident = some (f : Nat)) :
    ∃ js, is = js ++ [.ret] ∧ Changes c n g js := by
  obtain ⟨storage, imports, body, exports, hstorage, himports, hbody, hexports, rfl⟩ := h
  obtain ⟨ts, htables, rfl⟩ := hstorage
  refine ⟨arraysCode 0 e.fields ++ ts, ?_, ?_⟩
  · rw [himports.eq_nil, hbody.eq_nil, hexports.eq_nil, only_self]
    simp only [List.append_nil]
  · exact (changes_arrays (by omega) hwidth).append (changes_tables htables hfield)

end Machine

end Orchestrion
