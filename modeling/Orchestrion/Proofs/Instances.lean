import Orchestrion.Proofs.Machine.Walk
import Orchestrion.Proofs.Safety

/-!
# New instances

An instance of a compiled unit can always be made if memory can hold it: the code that makes it has
no jumps, so it comes to its end, and it touches no field that is not an array, so all of them are
zero. The parameters of a unit have fields of their own. Giving them values sets these fields in
order, and no others.
-/

namespace Orchestrion

open Machine Instruction

/-! ### The code that makes an instance -/

theorem Instruction.offset?_of_builds {i : Instruction} (h : i.builds = true) :
    i.offset? = none := by
  cases i with
  | num | newArray | tableGen | ret => rfl
  | _ => cases h

theorem Instruction.spares_of_builds {i : Instruction} (h : i.builds = true)
    (f : Array Float32 → Array Float32) : Recast.Spares { fields := f } i := by
  cases i with
  | num | newArray | tableGen | ret => trivial
  | _ => cases h

theorem SlotCode.builds {c : EmitContext} {u : CompiledUnit} {checked : CheckedUnit}
    {i : Instrument} {is : List Instruction} (h : SlotCode c u checked i .construct is) :
    ∀ x ∈ is, x.builds = true := by
  -- The slot holds neither statements nor anything about global variables.
  obtain ⟨storage, imports, body, exports, hstorage, himports, hbody, hexports, rfl⟩ := h
  rw [himports.eq_nil, hbody.eq_nil, hexports.eq_nil]
  simp only [List.append_nil, List.forall_mem_append, List.forall_mem_singleton]
  exact ⟨hstorage.builds, rfl⟩

/-- Memory can hold the stack and the frame of an instance, and the code that makes one. -/
def CompiledUnit.InMemory (u : CompiledUnit) : Prop :=
  u.hasRoom = true ∧ Number.hasSingleRoom u.code.construct.length = true

instance (u : CompiledUnit) : Decidable u.InMemory := inferInstanceAs (Decidable (_ ∧ _))

theorem CompiledUnit.InMemory.length_lt {u : CompiledUnit} (h : u.InMemory) :
    u.code.construct.length + 1 < Instance.patience := by
  have hfits : (u.code.construct.length : Int) * (4 : Nat) ≤ Number.addressSpace := by
    have hroom := h.2
    rw [Number.hasSingleRoom, Number.hasRoom, Bool.and_eq_true_iff] at hroom
    exact of_decide_eq_true hroom.2
  have hpatience : Instance.patience = 4611686018427387904 := by
    unfold Instance.patience
    norm_num
  unfold Number.addressSpace at hfits
  omega

theorem Instruction.length_le_wordCount (is : List Instruction) : is.length ≤ wordCount is := by
  induction is with
  | nil => exact Nat.le_refl _
  | cons i is ih =>
    rw [List.length_cons, wordCount_cons, Instruction.size]
    omega

/-- A unit of which instances can be made: its construct slot does nothing but make arrays and fill
them, and its parameters have fields of their own. -/
structure CompiledUnit.Builds (u : CompiledUnit) (size : Nat) : Prop where
  executable : u.Executable size
  code : ∃ is, u.code.construct = wordsOf is ∧ ∀ x ∈ is, x.builds = true
  params : u.params.Nodup

namespace CompiledUnit.Builds

variable {u : CompiledUnit} {size : Nat}

theorem run_construct (h : u.Builds size) (hroom : u.InMemory) :
    ∃ s, run ⟨u, .construct, none⟩ Instance.patience ((Instance.blank u).start #[]) = .finished s ∧
      s.fields = Array.replicate u.fields.length 0 := by
  obtain ⟨is, hcode, hbuilds⟩ := h.code
  obtain ⟨-, k, s, hfinished⟩ := h.executable.construct_finishes
  have hcode : (⟨u, .construct, none⟩ : Context).code = wordsOf ([] ++ is) := hcode
  have hstraight : ∀ x ∈ is, x.offset? = none := fun x hx => offset?_of_builds (hbuilds x hx)
  have hlength : is.length < Instance.patience := by
    have hle := length_le_wordCount is
    have hlt := hroom.length_lt
    rw [show u.code.construct = wordsOf is from hcode, length_wordsOf] at hlt
    omega
  have hends : run ⟨u, .construct, none⟩ Instance.patience ((Instance.blank u).start #[]) ≠
      .exhausted := run_straight hcode hstraight rfl hlength
  refine ⟨s, run_unique rfl hfinished hends nofun, ?_⟩
  -- The run stays the same if all fields are set to zero before it and after it.
  let zeroed : Recast := { fields := fun _ => Array.replicate u.fields.length 0 }
  have hrecast := run_recast (r := zeroed) (s := (Instance.blank u).start #[]) hcode
    (.of_offset? hstraight) rfl (fun x hx => spares_of_builds (hbuilds x hx) _) k (bound_zero is)
  rw [show zeroed.apply ((Instance.blank u).start #[]) = (Instance.blank u).start #[] from rfl,
    hfinished] at hrecast
  exact congrArg State.fields (Halt.finished.inj hrecast)

theorem instantiate (h : u.Builds size) (hroom : u.InMemory) :
    ∃ i, u.instantiate = .made i ∧ i.unit = u ∧ i.fields = Array.replicate u.fields.length 0 := by
  obtain ⟨s, hrun, hfields⟩ := h.run_construct hroom
  refine ⟨(Instance.blank u).withState s, ?_, rfl, hfields⟩
  have hpass : (Instance.blank u).pass .construct none #[] =
      ⟨(Instance.blank u).withState s, s.store, s.sounds.toList, .finished⟩ := by
    unfold Instance.pass
    dsimp only
    rw [show (Instance.blank u).unit = u from rfl, hrun]
  rw [CompiledUnit.instantiate, if_pos hroom.1, hpass]

end CompiledUnit.Builds

/-! ### Values for parameters -/

theorem element?_of_replace? {α : Type} {xs xs' : Array α} {i : Int} {x : α}
    (h : replace? xs i x = some xs') (j : Int) :
    element? xs' j = if j = i then some x else element? xs j := by
  rw [replace?] at h
  split at h
  next hi =>
    cases h
    by_cases hj : 0 ≤ j
    · rw [element?, element?, if_pos hj, if_pos hj, Array.getElem?_setIfInBounds]
      by_cases heq : j = i
      · rw [if_pos heq, heq, if_pos rfl, if_pos hi.2]
      · rw [if_neg heq, if_neg (by omega)]
    · have hne : j ≠ i := fun heq => hj (heq ▸ hi.1)
      rw [element?, element?, if_neg hj, if_neg hj, if_neg hne]
  next => cases h

namespace Instance

theorem assign?_spec {fields fields' : Array Float32} {fs : List Int} {values : List Float32}
    (hfs : fs.Nodup) (h : assign? fields fs values = some fields') :
    (∀ f, f ∉ fs → element? fields' f = element? fields f) ∧
      ∀ (j : Nat) f, fs[j]? = some f → element? fields' f =
      (values[j]?).or (element? fields f) := by
  induction fs generalizing fields values with
  | nil =>
    cases h
    exact ⟨fun _ _ => rfl, fun _ _ hf => nomatch hf⟩
  | cons f₀ fs ih =>
    rw [List.nodup_cons] at hfs
    cases values with
    | nil =>
      cases h
      exact ⟨fun _ _ => rfl, fun _ _ _ => rfl⟩
    | cons v values =>
      obtain ⟨fields₁, hreplace, h⟩ := Option.bind_eq_some_iff.1 h
      obtain ⟨hother, hparam⟩ := ih hfs.2 h
      refine ⟨fun f hf => ?_, fun j f hf => ?_⟩
      · rw [List.mem_cons, not_or] at hf
        rw [hother f hf.2, element?_of_replace? hreplace, if_neg hf.1]
      · cases j with
        | zero =>
          -- The first field is none of the others, which are written after it.
          obtain rfl : f₀ = f := Option.some.inj hf
          rw [hother f₀ hfs.1, element?_of_replace? hreplace, if_pos rfl]
          rfl
        | succ j =>
          have hne : f ≠ f₀ := by
            rintro rfl
            exact hfs.1 (List.mem_of_getElem? hf)
          rw [hparam j f hf, element?_of_replace? hreplace, if_neg hne]
          rfl

/-- A new instance of a unit whose parameters have the given values: those without a value are zero,
and so are all other fields. -/
structure Given (u : CompiledUnit) (values : List Float32) (i : Instance) : Prop where
  unit : i.unit = u
  size : i.fields.size = u.fields.length
  param : ∀ (j : Nat) f, u.params[j]? = some f → element? i.fields f = some (values.getD j 0)
  other : ∀ f x, f ∉ u.params → element? i.fields f = some x → x = 0
  arrays : ∃ new, u.instantiate = .made new ∧ i.arrays = new.arrays

end Instance

theorem CompiledUnit.Builds.exists_given {u : CompiledUnit} {size : Nat} (h : u.Builds size)
    (hroom : u.InMemory) (values : List Float32) :
    ∃ new i, u.instantiate = .made new ∧ new.withParams? values = some i ∧ i.Given u values := by
  obtain ⟨new, hmade, hunit, hfields⟩ := h.instantiate hroom
  have hsome := h.executable.isSome_withParams? (.made hmade) values
  obtain ⟨i, hi⟩ := Option.isSome_iff_exists.1 hsome
  refine ⟨new, i, hmade, hi, ?_⟩
  obtain ⟨fields, hassign, hi⟩ := Option.bind_eq_some_iff.1 hi
  cases hi
  rw [hunit] at hassign
  obtain ⟨hother, hparam⟩ := Instance.assign?_spec h.params hassign
  have hzero (f : Int) : element? new.fields f = if 0 ≤ f ∧ f.toNat < u.fields.length then some 0
      else none := by
    rw [hfields, element?, Array.getElem?_replicate, ite_and]
  refine ⟨hunit, ?_, fun j f hf => ?_, fun f x hf hx => ?_, new, hmade, rfl⟩
  · rw [Instance.size_of_assign?_eq_some hassign, hfields, Array.size_replicate]
  · have hrange := h.executable.params f (List.mem_of_getElem? hf)
    rw [hparam j f hf, hzero, if_pos hrange, List.getD_eq_getElem?_getD]
    cases values[j]? <;> rfl
  · rw [hother f hf, hzero] at hx
    split at hx
    · exact (Option.some.inj hx).symm
    · cases hx

/-! ### Units of an orchestra -/

theorem Instrument.nodup_params_of_generate {l : Linkage} {checked : CheckedUnit} {i : Instrument}
    {u : CompiledUnit} (hsound : CheckedUnit.Sound i checked.locals)
    (hnames : (i.params.map InstrumentParam.ident).Nodup) (h : i.generate l checked = .ok u) :
    u.params.Nodup := by
  have hident {x : Text} {f : Nat} (hf : (l.context checked i).field? x = some f) :
      checked.locals.names[f]? = some x := by
    rw [Linkage.field?_context hsound.aligned] at hf
    exact (hsound.aligned x f).1 hf
  rw [(Instrument.generate_ok hsound.calls h).params]
  rw [List.Nodup, List.pairwise_map] at hnames ⊢
  -- A field belongs to one name only.
  refine hnames.imp_of_mem fun {p q} hp hq hne heq => hne ?_
  obtain ⟨f, hf⟩ := exists_field? (l := l) (i := i) (hsound.params p hp)
  obtain ⟨f', hf'⟩ := exists_field? (l := l) (i := i) (hsound.params q hq)
  rw [hf, hf', Option.getD_some, Option.getD_some, Nat.cast_inj] at heq
  exact Option.some.inj ((hident hf).symm.trans (heq ▸ hident hf'))

theorem Orchestra.builds {source : Text} {o : Orchestra} {u : CompiledUnit}
    (h : Orchestra.compile source = .ok o) (hu : u ∈ o.repertoire.units) :
    u.Builds o.store.size := by
  obtain ⟨checked, hchecked, hcompiled⟩ := Orchestra.compile_ok h
  obtain ⟨unit, instrument, hpart, hgenerate⟩ := hcompiled.units u hu
  have hsound := (hcompiled.unit unit instrument hpart).1
  have hexecutable :=
    Instrument.executable_of_generate hcompiled.valid hcompiled.globals hsound hgenerate
  rw [← hcompiled.store] at hexecutable
  refine ⟨hexecutable, ?_, ?_⟩
  · obtain ⟨is, hcode, -, hslot⟩ := (Instrument.generate_ok hsound.calls hgenerate).code .construct
    exact ⟨is, hcode, hslot.builds⟩
  · obtain ⟨tree, -, htree⟩ := CheckedOrchestra.ofText?_eq_some_iff.1 hchecked
    obtain ⟨-, -, -, hchecks⟩ := CheckedOrchestra.ofTree_parts htree
    obtain ⟨s, keyword, -, hcheck⟩ := hchecks unit instrument hpart
    have hclean := hcompiled.clean unit instrument hpart
    exact Instrument.nodup_params_of_generate hsound (CheckedUnit.nodup_params hcheck hclean)
      hgenerate

end Orchestrion
