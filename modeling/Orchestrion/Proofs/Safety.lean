import Orchestrion.Machine.Pass
import Orchestrion.Proofs.Machine.Storage
import Orchestrion.Proofs.Refinement

/-!
# Compiled code is safe

Instances of a compiled unit can be made, given parameters and played in any order, in any
performance whose global store has the size that the orchestra asks for, and nothing goes wrong but
accesses to arrays with an index outside of them: every instruction that is carried out has the
values that it takes, room for its result and operands that name something.
-/

namespace Orchestrion

open Machine

/-! ### Executable units -/

/-- The slots of a unit perform evaluations, in performances whose global store has the given size,
and its parameters have fields. -/
structure CompiledUnit.Executable (u : CompiledUnit) (size : Nat) : Prop where
  params : ∀ f ∈ u.params, 0 ≤ f ∧ f.toNat < u.fields.length
  construct : ∃ p change, Performs ⟨u, .construct, none⟩ p fun _ =>
    (modify change : EStateM Interruption (Memory u.fields.length 0) Unit)
  slots : ∀ slot ≠ .construct, ∀ host,
    ∃ (p : Nat) (x : Nat → EStateM Interruption (Memory u.fields.length size) Unit),
      Performs ⟨u, slot, some host⟩ p x

section Generated

variable {settings : Settings} {globals : VariableTable} {checked : CheckedUnit} {i : Instrument}
  {u : CompiledUnit}

theorem exists_field? {x : Text} {l : Linkage} (h : ∃ e ∈ checked.locals.entries, e.ident = x) :
    ∃ f : Fin checked.locals.entries.length,
      (l.context checked i).field? x = some (f : Nat) := by
  obtain ⟨e, he, rfl⟩ := h
  obtain ⟨f, hf⟩ := Option.isSome_iff_exists.1 (Linkage.isSome_field? he)
  have hlt := Linkage.below_context _ f hf
  rw [Linkage.fields_context, List.length_map] at hlt
  exact ⟨⟨f, hlt⟩, hf⟩

theorem Instrument.executable_of_generate (hsettings : settings.Valid) (hglobals : globals.Aligned)
    (hsound : CheckedUnit.Sound i checked.locals)
    (h : i.generate (.of settings globals) checked = .ok u) :
    u.Executable (StoreLayout.ofTable globals).size := by
  have hgenerated := Instrument.generate_ok hsound.calls h
  have hlength : u.fields.length = checked.locals.entries.length := by
    rw [hgenerated.fields, List.length_map]
  refine ⟨fun f hf => ?_, ?_, fun slot hslot host => ?_⟩
  · rw [hgenerated.params] at hf
    obtain ⟨param, hparam, rfl⟩ := List.mem_map.1 hf
    obtain ⟨f, hfield⟩ := exists_field? (l := .of settings globals) (i := i)
      (hsound.params param hparam)
    rw [hfield, hlength]
    exact ⟨Int.natCast_nonneg _, f.isLt⟩
  · rw [hlength]
    obtain ⟨is, hcode, hroom, hslotCode⟩ := hgenerated.code .construct
    have hwidth : ∀ f ∈ ((Linkage.of settings globals).context checked i).fields, 0 ≤ f.width := by
      intro f hf
      rw [Linkage.fields_context] at hf
      obtain ⟨e, he, rfl⟩ := List.mem_map.1 hf
      exact Width.resolve_nonneg (hsound.widths e he) hsettings
    obtain ⟨js, rfl, change, hchange⟩ := changes_construct (c := ⟨u, .construct, none⟩) (g := 0)
      hslotCode (by rw [Linkage.fields_context, List.length_map]) hwidth fun d hd =>
        exists_field? (hsound.decls _ hd).2
    rw [Instruction.pushCount_append] at hroom
    have hroom' : (Instruction.pushCount js : Int) ≤ u.maxStack := by omega
    exact ⟨_, change, performs_of_computes hcode hroom' hchange⟩
  · rw [hlength]
    obtain ⟨p, hperforms⟩ := Instrument.performs_pass hglobals hsound h hslot host
    exact ⟨p, _, hperforms⟩

end Generated

/-! ### Instances -/

/-- An instance of the unit, with a value and an array for each field. -/
structure Instance.Fits (u : CompiledUnit) (i : Instance) : Prop where
  unit : i.unit = u
  fields : i.fields.size = u.fields.length
  arrays : i.arrays.size = u.fields.length

theorem CompiledUnit.instantiate_cases (u : CompiledUnit) :
    u.instantiate = .stuck ∨
      (((Instance.blank u).pass .construct none #[]).ending = .finished ∧
        u.instantiate = .made ((Instance.blank u).pass .construct none #[]).after) ∨
      ∃ e, ((Instance.blank u).pass .construct none #[]).ending = .failed e ∧
        u.instantiate = .refused (.failed e) := by
  rw [CompiledUnit.instantiate]
  split
  · cases hending : ((Instance.blank u).pass .construct none #[]).ending with
    | finished => exact .inr (.inl ⟨rfl, by simp only [hending]⟩)
    | failed e => exact .inr (.inr ⟨e, rfl, by simp only [hending]⟩)
    | stuck => exact .inl (by simp only [hending])
  · exact .inl rfl

def Made.instance? : Made → Option Instance
  | made i => some i
  | refused _ => none
  | stuck => none

theorem Made.eq_of_instance? {m : Made} {i : Instance} (h : m.instance? = some i) :
    m = .made i := by
  cases m with
  | made j => exact congrArg Made.made (Option.some.inj h)
  | refused => cases h
  | stuck => cases h

/-- Instances of a unit as they come about when they are made, given parameters and a lifetime, and
played one pass after the other in performances whose global stores have the given size. -/
inductive Instance.Reached (u : CompiledUnit) (size : Nat) : Instance → Prop
  | made {i : Instance} (h : u.instantiate = .made i) : Reached u size i
  | params {i i' : Instance} {values : List Float32} (hi : Reached u size i)
    (h : i.withParams? values = some i') : Reached u size i'
  | lifetime {i : Instance} (hi : Reached u size i) (l : Lifetime) :
    Reached u size { i with lifetime := l }
  | pass {i : Instance} (hi : Reached u size i) {slot : Slot} (hslot : slot ≠ .construct)
    (host : Host) {store : Store} (hstore : store.size = size) :
    Reached u size (i.pass slot (some host) store).after

namespace Instance

variable {u : CompiledUnit} {i : Instance} {slot : Slot} {host : Option Host} {store : Store}
  {size : Nat}

def memory (hi : i.Fits u) (hstore : store.size = size) : Memory u.fields.length size where
  fields := ⟨i.fields, hi.fields⟩
  arrays := ⟨i.arrays, hi.arrays⟩
  lifetime := i.lifetime
  store := ⟨store, hstore⟩
  sounds := #[]

theorem fits_blank (u : CompiledUnit) : (blank u).Fits u :=
  ⟨rfl, Array.size_replicate, Array.size_replicate⟩

theorem Fits.pass (hi : i.Fits u) (hstore : store.size = size) {p : Nat}
    {x : Nat → EStateM Interruption (Memory u.fields.length size) Unit}
    (h : Performs ⟨u, slot, host⟩ p x) : (i.pass slot host store).after.Fits u := by
  have hstart : i.start store = (memory hi hstore).state 0 [] := rfl
  rw [Instance.pass, hi.unit, hstart]
  rcases h.run_cases patience (memory hi hstore) with
    hrun | ⟨m', q, -, hrun⟩ | ⟨m', q, vs, fault, -, hrun⟩ <;> rw [hrun]
  · exact hi
  · exact ⟨hi.unit, m'.fields.size_toArray, m'.arrays.size_toArray⟩
  · exact ⟨hi.unit, m'.fields.size_toArray, m'.arrays.size_toArray⟩

theorem size_of_assign?_eq_some {fields fields' : Array Float32} {fs : List Int}
    {values : List Float32} (h : assign? fields fs values = some fields') :
    fields'.size = fields.size := by
  induction fs generalizing fields values with
  | nil =>
    cases h
    rfl
  | cons f fs ih =>
    cases values with
    | nil =>
      cases h
      rfl
    | cons v values =>
      obtain ⟨fields₁, hreplace, h⟩ := Option.bind_eq_some_iff.1 h
      rw [ih h]
      rw [replace?] at hreplace
      split at hreplace
      next =>
        cases hreplace
        exact Array.size_setIfInBounds
      next => cases hreplace

theorem isSome_assign? {fields : Array Float32} {fs : List Int}
    (h : ∀ f ∈ fs, 0 ≤ f ∧ f.toNat < fields.size) (values : List Float32) :
    (assign? fields fs values).isSome = true := by
  induction fs generalizing fields values with
  | nil => rfl
  | cons f fs ih =>
    cases values with
    | nil => rfl
    | cons v values =>
      rw [List.forall_mem_cons] at h
      rw [assign?, replace?, if_pos h.1]
      refine ih (fun f' hf' => ?_) values
      rw [Array.size_setIfInBounds]
      exact h.2 f' hf'

theorem Reached.fits (hu : u.Executable size) (hi : i.Reached u size) : i.Fits u := by
  induction hi with
  | made h =>
    obtain ⟨p, change, hperforms⟩ := hu.construct
    have hfits : ((blank u).pass .construct none #[]).after.Fits u :=
      (fits_blank u).pass rfl hperforms
    rcases u.instantiate_cases with hmade | ⟨-, hmade⟩ | ⟨e, -, hmade⟩ <;> rw [h] at hmade <;>
      cases hmade
    exact hfits
  | params _ h ih =>
    obtain ⟨fields, hfields, h⟩ := Option.bind_eq_some_iff.1 h
    cases h
    exact ⟨ih.unit, (size_of_assign?_eq_some hfields).trans ih.fields, ih.arrays⟩
  | lifetime _ l ih => exact ⟨ih.unit, ih.fields, ih.arrays⟩
  | pass _ hslot host hstore ih =>
    obtain ⟨p, x, hperforms⟩ := hu.slots _ hslot host
    exact ih.pass hstore hperforms

end Instance

/-! ### Passes -/

/-- A pass cannot go wrong: neither can its run, and it finishes, fails with an index outside an
array, or takes more steps than it may. -/
structure Instance.PassesSafely (i : Instance) (slot : Slot) (host : Option Host) (store : Store) :
    Prop where
  run : RunsSafely ⟨i.unit, slot, host⟩ (i.start store)
  ending : (i.pass slot host store).ending = .finished ∨
    (∃ k x length, (i.pass slot host store).ending =
      .failed ⟨i.unit.ident, slot, .index k x length⟩) ∨
    ((i.pass slot host store).ending = .stuck ∧
      Machine.run ⟨i.unit, slot, host⟩ patience (i.start store) = .exhausted)

theorem Instance.passesSafely_of_runsSafely {i : Instance} {slot : Slot} {host : Option Host}
    {store : Store} (h : RunsSafely ⟨i.unit, slot, host⟩ (i.start store)) :
    i.PassesSafely slot host store := by
  refine ⟨h, ?_⟩
  rw [Instance.pass]
  rcases h.ends patience with hrun | ⟨s', hrun⟩ | ⟨_, _, s', k, x, length, -, -, -, hrun⟩ <;>
    rw [hrun]
  · exact .inr (.inr ⟨rfl, rfl⟩)
  · exact .inl rfl
  · exact .inr (.inl ⟨k, x, length, rfl⟩)

namespace CompiledUnit.Executable

variable {u : CompiledUnit} {size : Nat}

theorem construct_finishes (hu : u.Executable size) :
    (Instance.blank u).PassesSafely .construct none #[] ∧
      ∃ k s, run ⟨u, .construct, none⟩ k ((Instance.blank u).start #[]) = .finished s := by
  obtain ⟨p, change, hperforms⟩ := hu.construct
  have hstart : (Instance.blank u).start #[] =
      (Instance.memory (Instance.fits_blank u) rfl).state 0 [] := rfl
  constructor
  · refine Instance.passesSafely_of_runsSafely (runsSafely_of_safe fun _ _ hreach => ?_)
    exact hperforms.safe_of_reaches (hstart ▸ hreach)
  · rw [hstart]
    obtain ⟨k, hk⟩ := hperforms.refines.finished _ _ |>.1 ⟨0, rfl⟩
    exact ⟨k, _, hk.choose_spec⟩

theorem instantiate_ne_refused (hu : u.Executable size) (e : InstanceError) :
    u.instantiate ≠ .refused e := by
  intro he
  obtain ⟨hsafe, k, s, hfinished⟩ := hu.construct_finishes
  rcases u.instantiate_cases with hmade | ⟨-, hmade⟩ | ⟨fault, hending, -⟩
  · cases he ▸ hmade
  · cases he ▸ hmade
  · rw [Instance.pass] at hending
    -- The run that finished after some steps cannot have failed after others.
    split at hending
    next => cases hending
    next s' fault' hrun => cases run_unique hfinished hrun nofun nofun
    all_goals cases hending

theorem passesSafely (hu : u.Executable size) {i : Instance} (hi : i.Reached u size) {slot : Slot}
    (hslot : slot ≠ .construct) (host : Host) {store : Store} (hstore : store.size = size) :
    i.PassesSafely slot (some host) store := by
  have hfits := hi.fits hu
  have hstart : i.start store = (Instance.memory hfits hstore).state 0 [] := rfl
  obtain ⟨p, x, hperforms⟩ := hu.slots slot hslot host
  refine Instance.passesSafely_of_runsSafely ?_
  rw [hfits.unit, hstart]
  exact runsSafely_of_safe fun _ _ hreach => hperforms.safe_of_reaches hreach

theorem isSome_withParams? (hu : u.Executable size) {i : Instance} (hi : i.Reached u size)
    (values : List Float32) : (i.withParams? values).isSome = true := by
  have hfits := hi.fits hu
  have hparams : ∀ f ∈ u.params, 0 ≤ f ∧ f.toNat < i.fields.size := by
    rw [hfits.fields]
    exact hu.params
  obtain ⟨fields, hfields⟩ :=
    Option.isSome_iff_exists.1 (Instance.isSome_assign? hparams values)
  rw [Instance.withParams?, hfits.unit, hfields]
  rfl

end CompiledUnit.Executable

/-- Passes of compiled units cannot go wrong. For every text that compiles and every unit of it, the
construct slot runs to its end, and every instance that was made, given parameters and played in any
order can be given parameters and played on: all states of a run are safe, and a pass that ends
returns or fails at an access to an array with an index outside of it. -/
theorem Orchestra.passes_run_safely {source : Text} {o : Orchestra} {u : CompiledUnit}
    (h : Orchestra.compile source = .ok o) (hu : u ∈ o.repertoire.units) :
    ((Instance.blank u).PassesSafely .construct none #[] ∧
      (∃ k s, run ⟨u, .construct, none⟩ k ((Instance.blank u).start #[]) = .finished s) ∧
      ∀ e, u.instantiate ≠ .refused e) ∧
    ∀ i, Instance.Reached u o.store.size i →
      (∀ values, (i.withParams? values).isSome = true) ∧
      ∀ slot ≠ .construct, ∀ host (store : Store), store.size = o.store.size →
        i.PassesSafely slot (some host) store := by
  obtain ⟨checked, -, hcompiled⟩ := Orchestra.compile_ok h
  obtain ⟨unit, instrument, hpart, hgenerate⟩ := hcompiled.units u hu
  have hexecutable := Instrument.executable_of_generate hcompiled.valid hcompiled.globals
    (hcompiled.unit unit instrument hpart).1 hgenerate
  rw [← hcompiled.store] at hexecutable
  obtain ⟨hsafe, hfinishes⟩ := hexecutable.construct_finishes
  refine ⟨⟨hsafe, hfinishes, hexecutable.instantiate_ne_refused⟩, fun i hi => ⟨?_, ?_⟩⟩
  · exact hexecutable.isSome_withParams? hi
  · intro slot hslot host store hstore
    exact hexecutable.passesSafely hi hslot host hstore

/-- The unit of the sampler, of which an instance can be made. -/
theorem Orchestra.passes_run_safely_sampler :
    ∃ o u i, Orchestra.compile sampler = .ok o ∧ u ∈ o.repertoire.units ∧
      u.instantiate = .made i ∧ (Instance.blank u).PassesSafely .construct none #[] ∧
      (∀ values, (i.withParams? values).isSome = true) ∧
      ∀ slot ≠ .construct, ∀ host (store : Store), store.size = o.store.size →
        i.PassesSafely slot (some host) store := by
  have hmade : (Orchestra.compile sampler).toOption.any (fun o => o.repertoire.units.any fun u =>
      match u.instantiate with
      | .made _ => true
      | _ => false) = true := by decide +kernel
  match h : Orchestra.compile sampler, hmade with
  | .ok o, hmade =>
    obtain ⟨u, hu, hmade⟩ := List.any_eq_true.1 hmade
    split at hmade
    next i hi =>
      obtain ⟨⟨hconstruct, -⟩, hplays⟩ := Orchestra.passes_run_safely h hu
      exact ⟨o, u, i, rfl, hu, hi, hconstruct, hplays i (.made hi)⟩
    next => cases hmade

end Orchestrion
