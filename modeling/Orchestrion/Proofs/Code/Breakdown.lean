import Orchestrion.Proofs.Code.Extent

/-!
# Units without code

Why no code can be generated for an instrument that was checked without complaints. What instances
cannot do is refused with a reason. Apart from that, an array may be too wide for a word of code;
then the generation breaks off, and so it does if the instrument is so large that a number in its
code does not fit into a word.
-/

namespace Orchestrion

open Emit

namespace Emit

theorem instruction_cases (slot : Slot) (i : Instruction) (E : Emitter) :
    (∃ v, (instruction slot i).run E = .error (.overflow v)) ∨
      (∀ a ∈ i.operands, fits a = true) ∧ ∃ E', (instruction slot i).run E = .ok ((), E') := by
  rw [instruction]
  cases hfind : i.operands.find? fun a => !fits a with
  | some a => exact .inl ⟨a, rfl⟩
  | none =>
    rw [append_run]
    cases (E.streams.get slot).pendingOffsets.find? fun a => !fits a with
    | some a => exact .inl ⟨a, rfl⟩
    | none =>
      refine .inr ⟨fun a ha => ?_, _, rfl⟩
      simpa using List.find?_eq_none.1 hfind a ha

theorem exists_overflow_of_makeArrays {k : Nat} {fs : List Field}
    (h : ∃ f ∈ fs, f.array = true ∧ fits f.width = false) (E : Emitter) :
    ∃ v, (makeArrays k fs).run E = .error (.overflow v) := by
  induction fs generalizing k E with
  | nil =>
    obtain ⟨f, hf, -⟩ := h
    cases hf
  | cons f fs ih =>
    have hrest (E : Emitter) (hf : f.array = true → fits f.width = true) :
        ∃ v, (makeArrays (k + 1) fs).run E = .error (.overflow v) := by
      obtain ⟨f', hf', harray, hwidth⟩ := h
      rcases List.mem_cons.1 hf' with rfl | hf'
      · rw [hf harray] at hwidth
        cases hwidth
      · exact ih ⟨f', hf', harray, hwidth⟩ E
    rw [makeArrays]
    split
    next harray =>
      rw [StateT.run_bind]
      rcases instruction_cases .construct (.newArray k f.width) E with ⟨v, hv⟩ | ⟨hfits, E', hE'⟩
      · exact ⟨v, by rw [hv]; rfl⟩
      · rw [hE']
        exact hrest E' fun _ => hfits _ (List.mem_cons_of_mem _ List.mem_cons_self)
    next harray => exact hrest E fun h => absurd h harray

theorem layFields_of_keeps {settings : Settings} {es : List Entry}
    (h : ∀ e ∈ es, keeps e.rate = true) (layout : FieldLayout) :
    layFields settings layout es = .ok (es.foldl (.add settings) layout) := by
  induction es generalizing layout with
  | nil => rfl
  | cons e es ih =>
    rw [List.forall_mem_cons] at h
    rw [layFields, if_pos h.1, ih h.2, List.foldl_cons]

end Emit

/-- Instances can keep all variables, and one of them is an array whose width does not fit into a
word. -/
def VariableTable.TooWide (t : VariableTable) (s : Settings) : Prop :=
  (∀ e ∈ t.entries, keeps e.rate = true) ∧
    ∃ e ∈ t.entries, e.array = true ∧ (greatest : Int) < e.width.resolve s

instance (t : VariableTable) (s : Settings) : Decidable (t.TooWide s) :=
  inferInstanceAs (Decidable (_ ∧ _))

namespace Instrument

variable {l : Linkage} {checked : CheckedUnit} {i : Instrument}

theorem generate_eq_error_iff (h : ∀ e ∈ checked.locals.entries, keeps e.rate = true)
    {fault : EmitFault} : i.generate l checked = .error fault ↔
      (unit (l.context checked i) checked i).run {} = .error fault := by
  rw [generate, layFields_of_keeps h]
  change ((unit (l.context checked i) checked i).run {} >>= _) = _ ↔ _
  cases (unit (l.context checked i) checked i).run {} with
  | ok emitted => constructor <;> (intro hfault; cases hfault)
  | error fault' => constructor <;> (intro hfault; cases hfault; rfl)

theorem generate_of_tooWide (h : checked.locals.TooWide l.settings) :
    ∃ v, i.generate l checked = .error (.overflow v) := by
  obtain ⟨hkeeps, e, he, harray, hwidth⟩ := h
  have hfits : fits (e.width.resolve l.settings) = false := by
    rw [← Bool.not_eq_true, fits_iff]
    omega
  have hwide : ∃ f ∈ (l.context checked i).fields, f.array = true ∧ fits f.width = false :=
    ⟨e.field l.settings, Linkage.fields_context ▸ List.mem_map_of_mem he, harray, hfits⟩
  obtain ⟨v, hv⟩ := exists_overflow_of_makeArrays (k := 0) hwide {}
  refine ⟨v, (generate_eq_error_iff hkeeps).2 ?_⟩
  rw [unit, StateT.run_bind, hv]
  rfl

theorem generate_error (hsettings : l.settings.Valid) (hstore : l.store.places.Below l.store.size)
    (hsound : CheckedUnit.Sound i checked.locals)
    {fault : EmitFault} (h : i.generate l checked = .error fault) :
    (∃ u, fault = .unsupported u) ∨ ∃ v, fault = .overflow v ∧
      (checked.locals.TooWide l.settings ∨ greatest < i.weight checked.locals l.store) := by
  by_cases hwide : checked.locals.TooWide l.settings
  · obtain ⟨v, hv⟩ := generate_of_tooWide (i := i) hwide
    rw [hv] at h
    cases h
    exact .inr ⟨v, rfl, .inl hwide⟩
  by_cases hkeeps : ∀ e ∈ checked.locals.entries, keeps e.rate = true
  · -- All widths fit, so that the instrument costs the words of its code.
    have hwidth : ∀ f ∈ (l.context checked i).fields,
        f.array = true → fits f.width = true := by
      intro f hf harray
      rw [Linkage.fields_context] at hf
      obtain ⟨e, he, rfl⟩ := List.mem_map.1 hf
      have hnonneg := Width.resolve_nonneg (hsound.widths e he) hsettings
      rw [fits_iff]
      change _ ≤ e.width.resolve l.settings ∧ e.width.resolve l.settings ≤ _
      refine ⟨by omega, Int.not_lt.1 fun hlt => hwide ⟨hkeeps, e, he, harray, hlt⟩⟩
    have hcosts := costs_unit Linkage.fields_context hwidth
      (fun d hd => (hsound.decls _ hd).1.args) hsound.calls False.elim
    have houtcome := hcosts.outcome {} sized_empty
    rw [(generate_eq_error_iff hkeeps).1 h] at houtcome
    cases fault with
    | overflow v =>
      refine .inr ⟨v, rfl, .inr (Nat.not_le.1 fun hle => ?_)⟩
      rw [weight] at hle
      have hsmall : Emit.Small (l.context checked i) :=
        small_context hstore (by omega) (by omega)
      have hoverflow := houtcome hsmall
      omega
    | unsupported u => exact .inl ⟨u, rfl⟩
    | missingArgument => exact houtcome.elim
  · -- A variable of a rate that no slot keeps is refused before any code is made.
    rw [generate] at h
    dsimp only at h
    split at h
    next =>
      cases h
      exact .inl ⟨_, rfl⟩
    next hlayout => exact absurd (layFields_ok hlayout).1 hkeeps

end Instrument

end Orchestrion
