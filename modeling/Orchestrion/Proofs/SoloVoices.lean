import Orchestrion.Performance.Play
import Orchestrion.Proofs.Instances
import Orchestrion.Proofs.Performance.Apart
import Orchestrion.Proofs.Performance.Mixing
import Orchestrion.Proofs.RateDiscipline

/-!
# Solo voices

Voices share nothing but the values of the global variables and the frame, and they cannot read the
frame. So a voice whose code has nothing to do with global variables is not disturbed by other
voices: it does in a performance what it does if it plays alone. And what is heard of a performance
is the sum of what its voices do.
-/

namespace Orchestrion

open Machine Instruction

/-! ### Code that has nothing to do with global variables -/

/-- Whether the instruction reads or writes a global variable. -/
def Instruction.isShared : Instruction → Bool
  | loadGlobal _ | storeGlobal _ | importGlobal _ _ | exportField _ _ => true
  | _ => false

/-- The instructions that words stand for, up to the first word that is none; the first argument
bounds their number. -/
def Instruction.decode : Nat → List Int → List Instruction
  | 0, _ => []
  | n + 1, words =>
    match fetch words with
    | .instruction i => i :: decode n (words.drop i.size)
    | _ => []

theorem Instruction.decode_wordsOf {is : List Instruction} {n : Nat} (hn : is.length ≤ n) :
    decode n (wordsOf is) = is := by
  induction is generalizing n with
  | nil => cases n <;> rfl
  | cons i is ih =>
    obtain ⟨n, rfl⟩ := Nat.exists_eq_succ_of_ne_zero (Nat.ne_zero_of_lt hn)
    rw [decode, wordsOf_cons, fetch_words_append]
    dsimp only
    rw [← length_words i, List.drop_left, ih (Nat.le_of_succ_le_succ hn)]

namespace CompiledUnit

def instructions (u : CompiledUnit) (slot : Slot) : List Instruction :=
  decode (u.code.get slot).length (u.code.get slot)

/-- No instruction of the unit reads or writes a global variable. -/
def IsLocal (u : CompiledUnit) : Prop :=
  ∀ slot ∈ Slot.all, ∀ i ∈ u.instructions slot, i.isShared = false

instance (u : CompiledUnit) : Decidable u.IsLocal := inferInstanceAs (Decidable (∀ _ ∈ _, _))

/-- The code of the unit is closed and has nothing to do with global variables. -/
def Secluded (u : CompiledUnit) : Prop :=
  ∀ slot, ∃ is, u.code.get slot = wordsOf is ∧ Closed is ∧ ∀ i ∈ is, i.isShared = false

end CompiledUnit

theorem Instruction.spares_of_not_isShared {i : Instruction} (h : i.isShared = false)
    (f : Store → Store) : Recast.Spares { store := f } i := by
  cases i with
  | loadGlobal | storeGlobal | importGlobal | exportField => cases h
  | jump | jumpIf | loadField | storeField => rfl
  | _ => trivial

theorem Instance.pass_secluded {i : Instance} (h : i.unit.Secluded) (slot : Slot)
    (host : Option Host) (store store' : Store) :
    i.pass slot host store' = { i.pass slot host store with store := store' } := by
  obtain ⟨is, hcode, hclosed, hlocal⟩ := h slot
  -- The store is exchanged before the run and, by `run_recast`, as well after it.
  let exchange : Recast := { store := fun _ => store' }
  have hrecast := run_recast (r := exchange) (c := ⟨i.unit, slot, host⟩) (s := i.start store) hcode
    hclosed rfl (fun x hx => spares_of_not_isShared (hlocal x hx) _) Instance.patience
    (bound_zero is)
  have hstart : exchange.apply (i.start store) = i.start store' := rfl
  rw [hstart] at hrecast
  unfold Instance.pass
  dsimp only
  rw [hrecast]
  cases run ⟨i.unit, slot, host⟩ Instance.patience (i.start store) <;> rfl

theorem Instance.unit_pass (i : Instance) (slot : Slot) (host : Option Host) (store : Store) :
    (i.pass slot host store).after.unit = i.unit := by
  unfold Instance.pass
  dsimp only
  cases run ⟨i.unit, slot, host⟩ Instance.patience (i.start store) <;> rfl

theorem CompiledUnit.unit_of_instantiate {u : CompiledUnit} {i : Instance}
    (h : u.instantiate = .made i) : i.unit = u := by
  unfold CompiledUnit.instantiate at h
  split at h
  · dsimp only at h
    split at h <;> cases h
    exact Instance.unit_pass ..
  · cases h

theorem Instance.aloof : Playable.Aloof fun i : Instance => i.unit.Secluded where
  pass _ p h _ _ hi := Instance.pass_secluded hi p.slot (some h) _ _
  after i p h g hi := by
    change (i.pass p.slot (some h) g).after.unit.Secluded
    rw [Instance.unit_pass]
    exact hi

theorem Orchestra.secluded {source : Text} {o : Orchestra} {u : CompiledUnit}
    (h : Orchestra.compile source = .ok o) (hu : u ∈ o.repertoire.units) (hlocal : u.IsLocal) :
    u.Secluded := by
  obtain ⟨checked, -, hcompiled⟩ := Orchestra.compile_ok h
  obtain ⟨unit, instrument, hpart, hgenerate⟩ := hcompiled.units u hu
  intro slot
  obtain ⟨is, hcode, hpushing⟩ := Instrument.generate_pushing hgenerate slot
  refine ⟨_, hcode, hpushing.closed_ret, fun i hi => hlocal slot (by cases slot <;> decide) i ?_⟩
  have hlength : (is ++ [Instruction.ret]).length ≤ (u.code.get slot).length := by
    rw [hcode, length_wordsOf]
    exact length_le_wordCount _
  rw [CompiledUnit.instructions, hcode, decode_wordsOf (hcode ▸ hlength)]
  exact hi

/-! ### Performances -/

/-- How voices play together. In every performance of a compiled orchestra (whatever its sink, and
whatever else waits or plays), listen to a voice that waits and whose unit neither reads nor writes
a global variable, and to the performance with the same end in which it is the only voice:

* listening changes nothing about either performance;
* if both performances are done, the voice has done the same in both, pass by pass: the sounds it
has added, its lifetime after each pass and how each pass ended;
* if one of them is over before the other, the voice has done the same until then;
* if the sink takes every frame and the listener does not want to stop, the voice alone is done
  whenever all voices together are.

And in every performance into a buffer that is done, the voices make the calls that their lifetimes
demand, and each frame that is kept is mixed from the sounds of the voices that were then playing,
in the order in which they became active. -/
theorem Orchestra.solo_in_ensemble {source : Text} {o : Orchestra}
    (h : Orchestra.compile source = .ok o) :
    (∀ {σ : Type} [Sink σ] (s : Scheduler Instance σ) (k : Nat) (i : Instance),
      s.pending[k]? = some i → i.unit ∈ o.repertoire.units → i.unit.IsLocal → ∀ n : Nat,
      let together := Scheduler.play n (s.heard 0)
      let alone := Scheduler.play n ((s.alone i).heard k)
      Scheduler.play n s = together.map .unheard id ∧
      Scheduler.play n (s.alone i) = alone.map .unheard id ∧
      (s.alone i).ticksLeft = s.ticksLeft ∧
      (together.2 = .done → alone.2 = .done → alone.1.deeds = deedsOf k together.1.deeds) ∧
      (deedsOf k together.1.deeds <+: alone.1.deeds ∨
        alone.1.deeds <+: deedsOf k together.1.deeds) ∧
      ((∀ sink : σ, (Sink.emit sink).2 = none) → (∀ sink : σ, Sink.isCancelled sink = false) →
        together.2 = .done → alone.2 = .done)) ∧
    ∀ (s : Scheduler Instance Buffer) (n : Nat) (s' : Scheduler (Heard Instance) Buffer _),
      Scheduler.play n (s.heard 0) = (s', .done) → ∃ ds : List TurnDeeds, ds.length = n ∧
        s'.deeds = ds.flatMap TurnDeeds.all ∧
        Ensemble.Performs s.settings.samplesPerTick.toNat (s.heard 0).ensemble s.now ds
          s'.ensemble ∧
        s'.sink.samples.toList = s.sink.samples.toList ++ (ds.flatMap TurnDeeds.frames).flatMap
          fun frame => Sound.mix s.sink.width (Deed.soundsOf frame) := by
  refine ⟨fun {σ} _ s k i hk hunit hlocal n => ?_, fun s n s' hplay => ?_⟩
  · have hapart : Scheduler.Apart (fun i : Instance => i.unit.Secluded) k (s.heard 0)
        ((s.alone i).heard k) := Scheduler.apart_alone hk (Orchestra.secluded h hunit hlocal)
    have hagree := hapart.play Instance.aloof n
    refine ⟨Scheduler.play_heard 0 n s, Scheduler.play_heard k n (s.alone i), rfl,
      fun hdone hdone' => (hagree.apart hdone hdone').deeds, hagree.comparable,
      fun hemit hlistens hdone => ?_⟩
    exact (Scheduler.play_ends hemit hlistens n _).resolve_right (hagree.going hdone)
  · obtain ⟨ds, hlength, hdeeds, hsink, hperforms⟩ := Scheduler.play_performs hplay
    refine ⟨ds, hlength, hdeeds, hperforms, ?_⟩
    rw [hsink]
    exact Buffer.samples_afterTicks s.sink ds

/-- An instrument that writes a global variable and fails in the second tick, and one that has
nothing to do with global variables and turns itself off in the third tick. -/
def Orchestra.duet : Text :=
  "global \x7b srate 4; krate 2; ksig level; \x7d " ++
  "instr clash() \x7b imports exports ksig level; ksig k; asig b[2]; k = k + 1; " ++
  "level = level + 2; output(level); b[k] = 1; \x7d " ++
  "instr tune() \x7b ksig n; n = n + 1; if (n > 2) \x7b turnoff; \x7d output(n); \x7d"

/-- A performance in which two instances start at once. -/
def Orchestra.duetOf (o : Orchestra) (clash tune : Instance) : Scheduler Instance Buffer :=
  ((o.scheduler ⟨4, 2, []⟩ (.ofChannels 1)).schedule clash ⟨0, 9⟩).schedule tune ⟨0, 9⟩

theorem Orchestra.solo_in_ensemble_duet :
    ∃ o clash tune, Orchestra.compile duet = .ok o ∧ o.repertoire.units.length = 2 ∧
      ¬ clash.unit.IsLocal ∧ tune.unit ∈ o.repertoire.units ∧ tune.unit.IsLocal ∧
      let s := o.duetOf clash tune
      let together := Scheduler.play 5 (s.heard 0)
      let alone := Scheduler.play 5 ((s.alone (Playable.withLifetime tune ⟨0, 9⟩)).heard 1)
      together.2 = .done ∧ together.1.failures ≠ [] ∧ alone.2 = .done ∧
      alone.1.deeds = deedsOf 1 together.1.deeds ∧
      Deed.soundsOf alone.1.deeds = [.all 1, .all 1, .all 2, .all 2, .all 3, .all 3] ∧
      together.1.sink.samples.toList = [3, 3, 6, 2, 3, 3, 0, 0, 0, 0] ∧
      ∃ ds : List TurnDeeds, ds.length = 5 ∧ together.1.deeds = ds.flatMap TurnDeeds.all ∧
        together.1.sink.samples.toList = (ds.flatMap TurnDeeds.frames).flatMap fun frame =>
          Sound.mix 1 (Deed.soundsOf frame) := by
  have hfacts : (Orchestra.compile duet).toOption.any (fun o =>
      (o.repertoire.units[0]?).any fun u => (o.repertoire.units[1]?).any fun v =>
        u.instantiate.instance?.any fun clash => v.instantiate.instance?.any fun tune =>
          let together := Scheduler.play 5 ((o.duetOf clash tune).heard 0)
          decide (o.repertoire.units.length = 2 ∧ ¬ clash.unit.IsLocal ∧ v.IsLocal ∧
            together.2 = .done ∧ together.1.failures ≠ [] ∧
            Deed.soundsOf (deedsOf 1 together.1.deeds) =
              [.all 1, .all 1, .all 2, .all 2, .all 3, .all 3] ∧
            together.1.sink.samples.toList = [3, 3, 6, 2, 3, 3, 0, 0, 0, 0])) = true := by
    decide +kernel
  obtain ⟨o, ho, hfacts⟩ := (Option.any_eq_true _ _).1 hfacts
  obtain ⟨u, -, hfacts⟩ := (Option.any_eq_true _ _).1 hfacts
  obtain ⟨v, hv, hfacts⟩ := (Option.any_eq_true _ _).1 hfacts
  obtain ⟨clash, -, hfacts⟩ := (Option.any_eq_true _ _).1 hfacts
  obtain ⟨tune, htune, hfacts⟩ := (Option.any_eq_true _ _).1 hfacts
  obtain ⟨hlength, hclash, hlocal, hdone, hfailures, hsounds, hsamples⟩ := of_decide_eq_true hfacts
  have hcompiles := toOption_eq_some_iff.1 ho
  obtain rfl : tune.unit = v := CompiledUnit.unit_of_instantiate (Made.eq_of_instance? htune)
  have hmem : tune.unit ∈ o.repertoire.units := List.mem_of_getElem? hv
  obtain ⟨hsolo, hmixed⟩ := Orchestra.solo_in_ensemble hcompiles
  obtain ⟨-, -, -, hsame, -, hends⟩ := hsolo (o.duetOf clash tune) 1
    (Playable.withLifetime tune ⟨0, 9⟩) rfl hmem hlocal 5
  have hdone' := hends (fun _ => rfl) (fun _ => rfl) hdone
  obtain ⟨ds, hticks, hdeeds, -, hmix⟩ := hmixed (o.duetOf clash tune) 5 _ (Prod.ext rfl hdone)
  refine ⟨o, clash, tune, hcompiles, hlength, hclash, hmem, hlocal, hdone, hfailures, hdone',
    hsame hdone hdone', ?_, hsamples, ds, hticks, hdeeds, hmix⟩
  rw [hsame hdone hdone']
  exact hsounds

end Orchestrion
