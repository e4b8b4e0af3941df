import Orchestrion.Proofs.Code.Zero
import Orchestrion.Proofs.Compile
import Orchestrion.Proofs.Machine.Runs
import Orchestrion.Proofs.Machine.Simulation

/-!
# Compiled code does what the source says

The code of every instrument and template of a text that compiles, in every slot that is played,
does what the direct evaluation of the source says, from every memory and in every performance.
There is one surprise: numbers that are equal share their place among the constants of a unit, so
that all zeros of an instrument, those of truth values included, have the sign of the first zero
that the instrument gives to the generator of a table.
-/

namespace Orchestrion

open Machine

variable {settings : Settings} {globals : VariableTable} {checked : CheckedUnit} {i : Instrument}
  {u : CompiledUnit}

theorem Instrument.refers_scene (i : Instrument) (host : Host) (hlocals : checked.locals.Aligned)
    (hglobals : globals.Aligned) :
    Refers ((Linkage.of settings globals).context checked i) (i.scene checked globals host) where
  field := Linkage.field?_context hlocals
  scope := rfl
  store := rfl
  aligned := ⟨hlocals, hglobals⟩

theorem Generated.plays (h : Generated (.of settings globals) checked i u)
    (hzero : u.pooled 0 = i.zero) (slot : Slot) (host : Host) :
    Context.Plays ⟨u, slot, some host⟩ (i.scene checked globals host) where
  host := rfl
  fields := by
    rw [h.fields, List.map_map]
    rfl
  zero := hzero

theorem Instrument.performs_pass (hglobals : globals.Aligned)
    (hsound : CheckedUnit.Sound i checked.locals)
    (h : i.generate (.of settings globals) checked = .ok u) {slot : Slot}
    (hslot : slot ≠ .construct) (host : Host) :
    ∃ p, Performs ⟨u, slot, some host⟩ p ((i.scene checked globals host).pass checked i slot) := by
  have hgenerated := Instrument.generate_ok hsound.calls h
  have hplays := hgenerated.plays (Instrument.pooled_zero h) slot host
  obtain ⟨is, hcode, hroom, hslotCode⟩ := hgenerated.code slot
  obtain ⟨js, rfl, hcomputes⟩ :=
    computes_slot (i.refers_scene host hsound.aligned hglobals) hplays rfl hslot hslotCode
  rw [Instruction.pushCount_append] at hroom
  have hroom' : (Instruction.pushCount js : Int) ≤ u.maxStack := by omega
  exact ⟨_, performs_of_computes hcode hroom' hcomputes⟩

/-- Runs of compiled code refine the evaluation of the source: for every text that compiles, every
instrument and template of it has its unit, and in every slot that is played the unit does what the
instrument says. -/
theorem Orchestra.runs_refine_passes {source : Text} {o : Orchestra}
    (h : Orchestra.compile source = .ok o) :
    ∃ checked, CheckedOrchestra.ofText? source = some checked ∧
      ∀ i ∈ checked.sections.instruments ++ checked.sections.templates,
        ∃ unit code, (unit, i) ∈ checked.parts ∧ o.repertoire.unit? i.ident = some code ∧
          ∀ slot ≠ .construct, ∀ host, Refines ⟨code, slot, some host⟩
            ((i.scene unit checked.global.locals host).pass unit i slot) := by
  obtain ⟨checked, htext, hcompiled⟩ := Orchestra.compile_ok h
  refine ⟨checked, htext, fun i hi => ?_⟩
  rw [← hcompiled.members] at hi
  obtain ⟨⟨unit, i⟩, hpart, rfl⟩ := List.mem_map.1 hi
  obtain ⟨hsound, code, hgenerate, hfound⟩ := hcompiled.unit unit i hpart
  refine ⟨unit, code, hpart, hfound, fun slot hslot host => ?_⟩
  obtain ⟨p, hperforms⟩ :=
    Instrument.performs_pass hcompiled.globals hsound hgenerate hslot host
  exact hperforms.refines

/-- An orchestra with arrays, tables, a loop and two rates. -/
def Orchestra.sampler : Text :=
  "instr a(n) \x7b ivar i, x[4]; asig s; table t(data, 2, 1, 2); " ++
  "while (i < n) \x7b x[i] = tableread(t, i); i = i + 1; \x7d s = -x[1] * !s; output(s && 1); \x7d"

/-- The runs of an orchestra with arrays, tables, a loop and two rates. -/
theorem Orchestra.runs_refine_passes_sampler :
    ∃ o checked, Orchestra.compile sampler = .ok o ∧
      CheckedOrchestra.ofText? sampler = some checked ∧
      ∃ i ∈ checked.sections.instruments, ∃ unit code, (unit, i) ∈ checked.parts ∧
        o.repertoire.unit? i.ident = some code ∧
        ∀ slot ≠ .construct, ∀ host, Refines ⟨code, slot, some host⟩
          ((i.scene unit checked.global.locals host).pass unit i slot) := by
  have hcompiles : (Orchestra.compile sampler).toOption.isSome = true := by decide +kernel
  have hplays : (CheckedOrchestra.ofText? sampler).any (fun checked =>
      !checked.sections.instruments.isEmpty) = true := by decide +kernel
  match h : Orchestra.compile sampler, hcompiles with
  | .ok o, _ =>
    obtain ⟨checked, hchecked, hrefines⟩ := Orchestra.runs_refine_passes h
    rw [hchecked, Option.any_some, Bool.not_eq_true', List.isEmpty_eq_false_iff_exists_mem]
      at hplays
    obtain ⟨i, hi⟩ := hplays
    exact ⟨o, checked, rfl, hchecked, i, hi, hrefines i (List.mem_append_left _ hi)⟩

/-! ### The sign of zero -/

theorem Machine.Refines.sounds_eq {n g : Nat} {c : Context}
    {x : Nat → EStateM Interruption (Memory n g) Unit} (h : Refines c x) {m m' : Memory n g}
    {s : State} {rounds k : Nat} (hx : x rounds m = .ok () m')
    (hrun : run c k (m.state 0 []) = .finished s) : s.sounds = m'.sounds := by
  obtain ⟨j, q, hj⟩ := (h.finished m m').1 ⟨rounds, hx⟩
  have hhalt := run_unique hrun hj nofun nofun
  injection hhalt with hstate
  rw [hstate]
  rfl

/-- An orchestra whose table holds a negative zero, and that divides by zero. -/
def Orchestra.negativeZero : Text :=
  "instr a() \x7b table t(data, 1, -0); output(1/0); \x7d"

/-- The code of an orchestra does not do what its source says if all numerals for zero stand for the
positive one. -/
theorem Orchestra.zero_takes_sign_of_table :
    ∃ o checked unit i code host, Orchestra.compile negativeZero = .ok o ∧
      CheckedOrchestra.ofText? negativeZero = some checked ∧ (unit, i) ∈ checked.parts ∧
      o.repertoire.unit? i.ident = some code ∧
      ¬Refines ⟨code, .audio, some host⟩
        (Scene.pass ⟨unit.locals, checked.global.locals, host, 0⟩ unit i .audio) := by
  have hsounds : (do
      let o ← (Orchestra.compile negativeZero).toOption
      let checked ← CheckedOrchestra.ofText? negativeZero
      let part ← checked.parts.head?
      let code ← o.repertoire.unit? part.2.ident
      let σ : Scene := ⟨part.1.locals, checked.global.locals, ⟨{}, 0⟩, 0⟩
      let m : σ.Memory := ⟨.replicate _ 0, .replicate _ #[], {}, .replicate _ 0, #[]⟩
      match run ⟨code, .audio, some σ.host⟩ 10 (m.state 0 []), σ.pass part.1 part.2 .audio 0 m with
      | .finished s, .ok () m' => some (s.sounds, m'.sounds)
      | _, _ => none) = some (#[.all (1 / -0)], #[.all (1 / 0)]) := by decide +kernel
  simp only [Option.bind_eq_bind, Option.bind_eq_some_iff] at hsounds
  obtain ⟨o, ho, checked, hchecked, ⟨unit, i⟩, hpart, code, hcode, hsounds⟩ := hsounds
  split at hsounds
  next s _ m' hrun hpass =>
    refine ⟨o, checked, unit, i, code, ⟨{}, 0⟩, ?_, hchecked, List.mem_of_head? hpart, hcode,
      fun hrefines => ?_⟩
    · match h : Orchestra.compile negativeZero, ho with
      | .ok o, rfl => rfl
    · have hsame := hrefines.sounds_eq hpass hrun
      have hpair := Prod.mk.inj (Option.some.inj hsounds)
      rw [hpair.1, hpair.2] at hsame
      exact absurd hsame (by decide +kernel)
  next => cases hsounds

end Orchestrion
