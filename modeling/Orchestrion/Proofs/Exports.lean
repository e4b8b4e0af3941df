import Orchestrion.Proofs.Assignments
import Orchestrion.Proofs.Safety
import Orchestrion.Proofs.SeparateUnits

/-!
# What becomes of assignments to exported variables

A variable with the tag for exports is copied to the global variable of its name at the end of the
passes of its own rate, and one with the tag for imports is copied from there at their start. A
statement, however, is carried out in the passes of its own rate, which may be faster. So an
assignment reaches the global variable if it is made in a pass of the rate of the variable; if it is
made in another pass, it waits in the variable for the next pass of that rate, which comes for the
rate `k` only and where an import overwrites it.
-/

namespace Orchestrion

open Machine Emit

/-! ### One pass -/

/-- A pass that an instance is to play: its slot, the moment, and the global store as it finds it.
-/
structure Cue where
  slot : Slot
  host : Host
  store : Store

/-- The instance plays a pass. -/
def Instance.follow (i : Instance) (cue : Cue) : Passed Instance :=
  i.pass cue.slot (some cue.host) cue.store

/-- The memory with which a pass of an instance starts, if the instance is one of the unit. -/
def Scene.memory? (σ : Scene) (i : Instance) (store : Store) : Option σ.Memory :=
  if h : i.fields.size = σ.locals.entries.length ∧ i.arrays.size = σ.locals.entries.length ∧
      store.size = σ.layout.names.length then
    some ⟨⟨i.fields, h.1⟩, ⟨i.arrays, h.2.1⟩, i.lifetime, ⟨store, h.2.2⟩, #[]⟩
  else none

/-- The values that the source assigns to the variable of a name in a pass of an instance. -/
def Instrument.assignedBy (i : Instrument) (unit : CheckedUnit) (globals : VariableTable) (x : Text)
    (player : Instance) (cue : Cue) : List Float32 :=
  let σ := i.scene unit globals cue.host
  match σ.memory? player cue.store with
  | some m => σ.passAssigned x unit i cue.slot Instance.patience m
  | none => []

theorem Scene.exists_beside {σ : Scene} (h : σ.Aligned) {x : Text} {f g : Nat}
    (hf : σ.locals.index? x = some f) (hg : σ.layout.index? x = some g) :
    ∃ (f' : Fin σ.locals.entries.length) (g' : Fin σ.layout.names.length),
      f'.val = f ∧ g'.val = g ∧ σ.Beside x f' g' := by
  rw [h.locals.index?_eq, List.findIdx?_eq_map_findFinIdx?_val, Option.map_eq_some_iff] at hf
  rw [layout, StoreLayout.index?_ofTable h.globals, List.findIdx?_eq_map_findFinIdx?_val,
    Option.map_eq_some_iff] at hg
  obtain ⟨f', hf', rfl⟩ := hf
  obtain ⟨g', hg', rfl⟩ := hg
  exact ⟨f', g', rfl, rfl, hf', hg'⟩

section Unit

variable {settings : Settings} {globals : VariableTable} {unit : CheckedUnit} {i : Instrument}
  {code : CompiledUnit} {player : Instance} {cue : Cue} {v : Entry} {f g : Nat}

theorem Instance.Fits.follow_cases (hplayer : player.Fits code) (hglobals : globals.Aligned)
    (hsound : CheckedUnit.Sound i unit.locals)
    (hgenerate : i.generate (.of settings globals) unit = .ok code) (hslot : cue.slot ≠ .construct)
    (hsize : cue.store.size = (StoreLayout.ofTable globals).size)
    (hfinished : (player.follow cue).ending = .finished) :
    ∃ m m', (i.scene unit globals cue.host).memory? player cue.store = some m ∧
      m.fields.toArray = player.fields ∧ m.store.toArray = cue.store ∧
      (i.scene unit globals cue.host).pass unit i cue.slot Instance.patience m = .ok () m' ∧
      m'.fields.toArray = (player.follow cue).after.fields ∧
      m'.store.toArray = (player.follow cue).store := by
  have hlength : code.fields.length = unit.locals.entries.length := by
    rw [(Instrument.generate_ok hsound.calls hgenerate).fields, List.length_map]
  have hsizes : player.fields.size = unit.locals.entries.length ∧
      player.arrays.size = unit.locals.entries.length ∧
      cue.store.size = (StoreLayout.ofTable globals).names.length :=
    ⟨hplayer.fields.trans hlength, hplayer.arrays.trans hlength, hsize⟩
  obtain ⟨m, hm, hstart⟩ : ∃ m, (i.scene unit globals cue.host).memory? player cue.store = some m ∧
      player.start cue.store = m.state 0 [] := ⟨_, dif_pos hsizes, rfl⟩
  obtain ⟨p, hperforms⟩ := Instrument.performs_pass hglobals hsound hgenerate hslot cue.host
  rw [Instance.follow, Instance.pass, hplayer.unit, hstart] at hfinished ⊢
  rcases hperforms.run_cases Instance.patience m with
    hrun | ⟨m', q, hpass, hrun⟩ | ⟨m', q, vs, fault, -, hrun⟩ <;> rw [hrun] at hfinished ⊢
  · cases hfinished
  · refine ⟨m, m', hm, ?_, ?_, hpass, rfl, rfl⟩
    · exact congrArg State.fields hstart.symm
    · exact congrArg State.store hstart.symm
  · cases hfinished

/-- A variable of a unit that is exported: where it is kept, and what is known of the unit. -/
structure Instrument.Exports (settings : Settings) (globals : VariableTable) (unit : CheckedUnit)
    (i : Instrument) (code : CompiledUnit) (v : Entry) (f g : Nat) : Prop where
  sound : CheckedUnit.Sound i unit.locals
  generate : i.generate (.of settings globals) unit = .ok code
  executable : code.Executable (StoreLayout.ofTable globals).size
  aligned : globals.Aligned
  mem : v ∈ unit.locals.entries
  exports : v.exports = true
  rate : v.rate = .i ∨ v.rate = .k
  field : unit.locals.index? v.ident = some f
  slot : (StoreLayout.ofTable globals).index? v.ident = some g

theorem Instance.follow_ok (h : i.Exports settings globals unit code v f g)
    (hplayer : player.Reached code (StoreLayout.ofTable globals).size)
    (hslot : cue.slot ≠ .construct) (hsize : cue.store.size = (StoreLayout.ofTable globals).size)
    (hfinished : (player.follow cue).ending = .finished) :
    ∃ old, (if v.imports = true ∧ Slot.ofRate? v.rate = some cue.slot then cue.store[g]?
        else player.fields[f]?) = some old ∧
      (player.follow cue).after.fields[f]? =
        some ((i.assignedBy unit globals v.ident player cue).getLastD old) ∧
      (player.follow cue).store[g]? =
        if Slot.ofRate? v.rate = some cue.slot then (player.follow cue).after.fields[f]?
        else cue.store[g]? := by
  obtain ⟨m, m', hm, hfields, hstore, hpass, hfields', hstore'⟩ :=
    (hplayer.fits h.executable).follow_cases h.aligned h.sound h.generate hslot hsize hfinished
  obtain ⟨f', g', rfl, rfl, hbeside⟩ :=
    Scene.exists_beside (σ := i.scene unit globals cue.host) ⟨h.sound.aligned, h.aligned⟩ h.field
      h.slot
  obtain ⟨hfield, hslot⟩ := Scene.pass_ok hbeside h.sound.aligned.nodup h.mem hpass
  have hassigned : i.assignedBy unit globals v.ident player cue =
      (i.scene unit globals cue.host).passAssigned v.ident unit i cue.slot
        Instance.patience m := by
    simp only [Instrument.assignedBy, hm]
  have hget {n : Nat} (xs : Vector Float32 n) (k : Fin n) :
      xs.toArray[k.val]? = some (xs.get k) := by
    simp [Vector.get]
  rw [← hfields, ← hstore, ← hfields', ← hstore', hassigned, hget, hget, hget, hget]
  refine ⟨_, (apply_ite some _ _ _).symm, congrArg some hfield, ?_⟩
  simp only [h.exports, true_and] at hslot
  rw [hslot]
  exact apply_ite some _ _ _

end Unit

/-! ### Passes one after the other -/

/-- An instance plays passes to their ends. Nobody else changes a place of the global store in
between: each pass finds there what was there after the pass before. -/
inductive Instance.Follows (size g : Nat) :
    Instance → Option Float32 → List Cue → Instance → Option Float32 → Prop
  | nil (i : Instance) (held : Option Float32) : Follows size g i held [] i held
  | cons {i last : Instance} {held lastHeld : Option Float32} {cue : Cue} {cues : List Cue}
    (hslot : cue.slot ≠ .construct) (hsize : cue.store.size = size) (hfound : cue.store[g]? = held)
    (hfinished : (i.follow cue).ending = .finished)
    (hrest : Follows size g (i.follow cue).after (i.follow cue).store[g]? cues last lastHeld) :
    Follows size g i held (cue :: cues) last lastHeld

/-- The passes behind a pass up to the end of the first control pass: none behind a control pass,
and else audio passes and then a control pass. -/
def Cue.UpToControl (cue : Cue) (cues : List Cue) : Prop :=
  (cue.slot = .control ∧ cues = []) ∨
  (cue.slot ≠ .control ∧ ∃ audio control, cues = audio ++ [control] ∧
    (∀ c ∈ audio, c.slot = .audio) ∧ control.slot = .control)

/-- The values that the source assigns to the variable of a name in passes of an instance. -/
def Instrument.assignedByAll (i : Instrument) (unit : CheckedUnit) (globals : VariableTable)
    (x : Text) : Instance → List Cue → List Float32
  | _, [] => []
  | player, cue :: cues => i.assignedBy unit globals x player cue ++
    assignedByAll i unit globals x (player.follow cue).after cues

section Unit

variable {settings : Settings} {globals : VariableTable} {unit : CheckedUnit} {i : Instrument}
  {code : CompiledUnit} {player last : Instance} {held lastHeld : Option Float32} {v : Entry}
  {f g : Nat}

theorem Instance.Follows.held_of_control (h : i.Exports settings globals unit code v f g)
    (hplayer : player.Reached code (StoreLayout.ofTable globals).size) {audio : List Cue}
    {control : Cue} (haudio : ∀ c ∈ audio, c.slot = .audio) (hcontrol : control.slot = .control)
    (hfollows : player.Follows (StoreLayout.ofTable globals).size g held (audio ++ [control]) last
      lastHeld)
    (hnone : i.assignedByAll unit globals v.ident player (audio ++ [control]) = []) :
    lastHeld = if v.rate = .k ∧ v.imports = false then player.fields[f]? else held := by
  induction audio generalizing player held with
  | nil =>
    cases hfollows with
    | cons hslot hsize hfound hfinished hrest =>
      cases hrest
      obtain ⟨old, hold, hfield, hheld⟩ := Instance.follow_ok h hplayer hslot hsize hfinished
      rw [(List.append_eq_nil_iff.1 hnone).1] at hfield
      rw [hcontrol, hfound] at hold hheld
      rcases h.rate with hrate | hrate
      · rw [hheld, hrate]
        rfl
      -- An import comes before the export of the pass.
      · rw [hheld, hfield, hrate]
        cases himports : v.imports with
        | true | false => simpa [himports, hrate, Slot.ofRate?] using hold.symm
  | cons cue audio ih =>
    rw [List.forall_mem_cons] at haudio
    rw [List.cons_append] at hfollows hnone
    cases hfollows with
    | cons hslot hsize hfound hfinished hrest =>
      obtain ⟨hquiet, hnone⟩ := List.append_eq_nil_iff.1 hnone
      obtain ⟨old, hold, hfield, hheld⟩ := Instance.follow_ok h hplayer hslot hsize hfinished
      have hother : Slot.ofRate? v.rate ≠ some cue.slot := by
        rw [haudio.1]
        rcases h.rate with hrate | hrate <;> rw [hrate] <;> decide
      rw [if_neg fun hown => hother hown.2] at hold
      rw [hquiet, List.getLastD_nil, ← hold] at hfield
      rw [if_neg hother, hfound] at hheld
      rw [hheld] at hrest
      have hreached : (player.follow cue).after.Reached code _ := hplayer.pass hslot cue.host hsize
      rw [ih hreached haudio.2 hrest hnone, hfield]

theorem Instance.Follows.held_of_assigned (h : i.Exports settings globals unit code v f g)
    (hplayer : player.Reached code (StoreLayout.ofTable globals).size) {cue : Cue} {cues : List Cue}
    (hcues : cue.UpToControl cues)
    (hfollows : player.Follows (StoreLayout.ofTable globals).size g held (cue :: cues)
      last lastHeld)
    {w : Float32} (hw : (i.assignedBy unit globals v.ident player cue).getLast? = some w)
    (hnone : i.assignedByAll unit globals v.ident (player.follow cue).after cues = []) :
    lastHeld =
      if Slot.ofRate? v.rate = some cue.slot ∨ (v.rate = .k ∧ v.imports = false) then some w
      else held := by
  cases hfollows with
  | cons hslot hsize hfound hfinished hrest =>
    obtain ⟨old, -, hfield, hheld⟩ := Instance.follow_ok h hplayer hslot hsize hfinished
    rw [List.getLastD_eq_getLast?, hw, Option.getD_some] at hfield
    rw [hfield, hfound] at hheld
    rcases hcues with ⟨hcontrol, rfl⟩ | ⟨hnot, audio, control, rfl, haudio, hcontrol⟩
    · cases hrest
      rw [hheld, hcontrol]
      rcases h.rate with hrate | hrate <;> simp [hrate, Slot.ofRate?]
    · have hreached : (player.follow cue).after.Reached code _ := hplayer.pass hslot cue.host hsize
      rw [Instance.Follows.held_of_control h hreached haudio hcontrol hrest hnone, hfield, hheld]
      by_cases hwaits : v.rate = .k ∧ v.imports = false
      · rw [if_pos hwaits, if_pos (.inr hwaits)]
      · rw [if_neg hwaits]
        simp only [hwaits, or_false]

end Unit

/-! ### All units of an orchestra -/

theorem Emit.shared_ok {c : EmitContext} {i : Instrument} {e : Entry} {E E' : Emitter}
    {s : Emit.Shared} (h : (shared c i e).run E = .ok (s, E')) :
    e.rate ≠ .table ∧ ∃ g, c.store.index? e.ident = some g := by
  rw [shared] at h
  split at h
  · obtain ⟨_, _, hrefuse, -⟩ := bind_ok h
    exact absurd hrefuse throw_ne_ok
  next hrate =>
    refine ⟨hrate, ?_⟩
    split at h
    · exact absurd h throw_ne_ok
    next g hg => exact ⟨g, hg⟩

theorem Emit.tagged_of_importShared_ok {c : EmitContext} {i : Instrument} {es : List Entry}
    {E E' : Emitter} {exported : List Emit.Shared}
    (h : (importShared c i es).run E = .ok (exported, E')) :
    ∀ e ∈ es, e.isTagged = true → e.rate ≠ .table ∧ ∃ g, c.store.index? e.ident = some g := by
  induction es generalizing E E' exported with
  | nil => exact List.forall_mem_nil _
  | cons e es ih =>
    rw [importShared] at h
    rw [List.forall_mem_cons]
    split at h
    next htagged =>
      obtain ⟨s, E₁, hshared, h⟩ := bind_ok h
      refine ⟨fun _ => shared_ok hshared, ?_⟩
      cases himports : e.imports with
      | true =>
        simp only [himports, if_true] at h
        obtain ⟨_, E₂, -, h⟩ := bind_ok h
        obtain ⟨others, E₃, hothers, -⟩ := bind_ok h
        exact ih hothers
      | false =>
        simp only [himports] at h
        obtain ⟨others, E₃, hothers, -⟩ := bind_ok h
        exact ih hothers
    next hnot => exact ⟨fun htagged => absurd htagged hnot, ih h⟩

theorem Instrument.tagged_of_generate {l : Linkage} {unit : CheckedUnit} {i : Instrument}
    {code : CompiledUnit} (h : i.generate l unit = .ok code) :
    ∀ e ∈ unit.locals.entries, e.isTagged = true →
      e.rate ≠ .table ∧ ∃ g, l.store.index? e.ident = some g := by
  rw [Instrument.generate] at h
  dsimp only at h
  split at h
  · cases h
  next fields hfields =>
    obtain ⟨⟨_, E⟩, hunit, -⟩ := exists_of_bind_eq_ok h
    obtain ⟨_, E₁, -, hunit⟩ := bind_ok hunit
    obtain ⟨_, E₂, -, hunit⟩ := bind_ok hunit
    obtain ⟨exported, E₃, hshared, -⟩ := bind_ok hunit
    exact tagged_of_importShared_ok hshared

theorem Orchestra.exists_exports {source : Text} {o : Orchestra} {checked : CheckedOrchestra}
    (hchecked : CheckedOrchestra.ofText? source = some checked)
    (hcompiled : o.Compiled checked) {unit : CheckedUnit} {i : Instrument} {code : CompiledUnit}
    (hpart : (unit, i) ∈ checked.parts)
    (hgenerate : i.generate (.of o.settings checked.global.locals) unit = .ok code) {v : Entry}
    (hv : v ∈ unit.locals.entries) (hexports : v.exports = true) :
    ∃ f g, i.Exports o.settings checked.global.locals unit code v f g := by
  have hsound := (hcompiled.unit unit i hpart).1
  have hclean := hcompiled.clean unit i hpart
  have htagged : v.isTagged = true := by rw [Entry.isTagged, hexports, Bool.or_true]
  obtain ⟨htable, g, hg⟩ := Instrument.tagged_of_generate hgenerate v hv htagged
  obtain ⟨f, hf⟩ : ∃ f, unit.locals.index? v.ident = some f :=
    Option.isSome_iff_exists.1 (hsound.aligned.isSome_iff.2 (List.mem_map_of_mem hv))
  obtain ⟨tree, -, htree⟩ := CheckedOrchestra.ofText?_eq_some_iff.1 hchecked
  obtain ⟨-, -, -, hchecks⟩ := CheckedOrchestra.ofTree_parts htree
  obtain ⟨s, keyword, hs, hcheck⟩ := hchecks unit i hpart
  refine ⟨f, g, hsound, hgenerate,
    Instrument.executable_of_generate hcompiled.valid hcompiled.globals hsound hgenerate,
    hcompiled.globals, hv, hexports, ?_, hf, hg⟩
  -- It has the rate of the global of its name, since a table is not exported.
  obtain ⟨e, he, hrate⟩ :=
    (CheckedUnit.rate_of_tagged hcheck hclean hv htagged).resolve_left htable
  have hglobalRate : e.rate = .i ∨ e.rate = .k ∨ e.rate = .table :=
    CheckedUnit.isGlobalRate_of_ofGlobal (CheckedOrchestra.checks_of_ofTree htree).global e
      (hs ▸ he)
  rw [hrate] at hglobalRate
  exact hglobalRate.imp_right fun h => h.resolve_right htable

/-- Assignments to exported variables reach the global store by the next control pass, or not at
all. In every unit of a text that compiles, let a pass of an instance make assignments to an
exported variable, the last of them of the value `w`. Then at the end of that pass, if it is a
control pass, or else of the first control pass behind it, if all these passes come to their ends,
nobody else writes the global variable and nothing more is assigned, the global variable holds `w`
if the pass was of the rate of the variable, or if the variable has the rate `k` and is not
imported; else it holds what it held before the pass. -/
theorem Orchestra.assignments_reach_store {source : Text} {o : Orchestra}
    (h : Orchestra.compile source = .ok o) :
    ∃ checked, CheckedOrchestra.ofText? source = some checked ∧
      ∀ i ∈ checked.sections.instruments ++ checked.sections.templates,
        ∃ unit code, (unit, i) ∈ checked.parts ∧ o.repertoire.unit? i.ident = some code ∧
          ∀ v ∈ unit.locals.entries, v.exports = true →
            ∃ g, o.store.index? v.ident = some g ∧
              ∀ (player last : Instance) cue cues held lastHeld w,
                player.Reached code o.store.size →
                player.Follows o.store.size g held (cue :: cues) last lastHeld →
                cue.UpToControl cues →
                (i.assignedBy unit checked.global.locals v.ident player cue).getLast? = some w →
                i.assignedByAll unit checked.global.locals v.ident (player.follow cue).after
                  cues = [] →
                lastHeld = if Slot.ofRate? v.rate = some cue.slot ∨
                  (v.rate = .k ∧ v.imports = false) then some w else held := by
  obtain ⟨checked, htext, hcompiled⟩ := Orchestra.compile_ok h
  refine ⟨checked, htext, fun i hi => ?_⟩
  rw [← hcompiled.members] at hi
  obtain ⟨⟨unit, i⟩, hpart, rfl⟩ := List.mem_map.1 hi
  obtain ⟨-, code, hgenerate, hfound⟩ := hcompiled.unit unit i hpart
  refine ⟨unit, code, hpart, hfound, fun v hv hexports => ?_⟩
  obtain ⟨f, g, hexported⟩ :=
    Orchestra.exists_exports htext hcompiled hpart hgenerate hv hexports
  rw [hcompiled.store]
  refine ⟨g, hexported.slot, ?_⟩
  intro player last cue cues held lastHeld w hplayer hfollows hcues hw hnone
  exact hfollows.held_of_assigned hexported hplayer hcues hw hnone

/-- An orchestra whose variable of the rate `k` is assigned to in audio passes. -/
def Orchestra.relay : Text :=
  "global \x7b ksig g; \x7d " ++
  "instr a() \x7b exports ksig g; asig s; if (s == 0) \x7b g = 1; \x7d \x7d"

theorem Orchestra.assignments_reach_store_relay :
    ∃ (o : Orchestra) (code : CompiledUnit) (player : Instance),
      Orchestra.compile relay = .ok o ∧ o.repertoire.unit? "a" = some code ∧
      code.instantiate = .made player ∧
      let audio := player.follow ⟨.audio, ⟨o.settings, 0⟩, #[0]⟩
      let control := audio.after.follow ⟨.control, ⟨o.settings, 1⟩, audio.store⟩
      audio.ending = .finished ∧ audio.store = #[0] ∧ control.ending = .finished ∧
      control.store[0]? = some 1 := by
  have hfacts : (do
      let o ← (Orchestra.compile relay).toOption
      let checked ← CheckedOrchestra.ofText? relay
      let part ← checked.parts.head?
      let code ← o.repertoire.unit? part.2.ident
      let v ← part.1.locals.entries.head?
      let player ← code.instantiate.instance?
      let first : Cue := ⟨.audio, ⟨o.settings, 0⟩, #[0]⟩
      let audio := player.follow first
      let second : Cue := ⟨.control, ⟨o.settings, 1⟩, audio.store⟩
      let control := audio.after.follow second
      let assigned := part.2.assignedBy part.1 checked.global.locals v.ident
      some (decide (part.2.ident = "a" ∧ checked.parts.length = 1 ∧ v.exports = true ∧
        v.rate = .k ∧ v.imports = false ∧ o.store.size = 1 ∧ o.store.index? v.ident = some 0 ∧
        audio.ending = .finished ∧ audio.store = #[0] ∧ control.ending = .finished ∧
        assigned player first = [1] ∧ assigned audio.after second = []))) = some true := by
    decide +kernel
  simp only [Option.bind_eq_bind, Option.bind_eq_some_iff, toOption_eq_some_iff, Option.some.injEq,
    decide_eq_true_eq] at hfacts
  obtain ⟨o, ho, checked, hchecked, ⟨unit, i⟩, hpart, code, hcode, v, hv, player, hmade, hident,
    hone, hexports, hrate, himports, hsize, hslot, haudio, hstore, hcontrol, hassigned,
    hnone⟩ := hfacts
  have hmade := Made.eq_of_instance? hmade
  obtain ⟨_, hsame, hreach⟩ := assignments_reach_store ho
  cases hchecked.symm.trans hsame
  have hmember : i ∈ checked.sections.instruments ++ checked.sections.templates := by
    obtain ⟨_, hsame', hcompiled⟩ := Orchestra.compile_ok ho
    cases hchecked.symm.trans hsame'
    rw [← hcompiled.members]
    exact List.mem_map_of_mem (List.mem_of_head? hpart)
  obtain ⟨unit', code', hpart', hcode', hreach⟩ := hreach i hmember
  obtain rfl : unit' = unit := by
    obtain ⟨part, hparts⟩ := List.length_eq_one_iff.1 hone
    rw [hparts] at hpart hpart'
    cases hpart
    exact congrArg Prod.fst (List.mem_singleton.1 hpart')
  cases hcode.symm.trans hcode'
  obtain ⟨g, hg, hreach⟩ := hreach v (List.mem_of_head? hv) hexports
  cases hslot.symm.trans hg
  refine ⟨o, code, player, ho, hident ▸ hcode, hmade, haudio, hstore, hcontrol, ?_⟩
  have hfollows : player.Follows o.store.size 0 (some 0)
      [⟨.audio, ⟨o.settings, 0⟩, #[0]⟩, ⟨.control, ⟨o.settings, 1⟩,
        (player.follow ⟨.audio, ⟨o.settings, 0⟩, #[0]⟩).store⟩] _ _ :=
    .cons Slot.noConfusion hsize.symm rfl haudio
      (.cons Slot.noConfusion (by rw [hstore, hsize]; rfl) rfl hcontrol (.nil _ _))
  have hlast := hreach player _ _ _ _ _ 1 (.made hmade) hfollows
    (.inr ⟨Slot.noConfusion, [], _, rfl, List.forall_mem_nil _, rfl⟩) (by rw [hassigned]; rfl)
    (by rw [Instrument.assignedByAll, hnone]; rfl)
  rw [hlast, if_pos (.inr ⟨hrate, himports⟩)]

/-- An orchestra whose variable of the rate `i` is assigned to in control passes. -/
def Orchestra.latecomer : Text :=
  "global \x7b ivar g; \x7d " ++
  "instr a() \x7b exports ivar g; ksig k; if (k == 0) \x7b g = 1; \x7d \x7d"

/-- An assignment to an exported variable may never reach the global store: all passes come to their
ends, the control pass assigns one, and the global variable still holds zero. -/
theorem Orchestra.assignment_is_lost :
    (do
      let o ← (Orchestra.compile latecomer).toOption
      let checked ← CheckedOrchestra.ofText? latecomer
      let part ← checked.parts.head?
      let code ← o.repertoire.unit? part.2.ident
      let player ← code.instantiate.instance?
      let init := player.follow ⟨.init, ⟨o.settings, 0⟩, #[0]⟩
      let cue : Cue := ⟨.control, ⟨o.settings, 0⟩, init.store⟩
      let control := init.after.follow cue
      some (init.ending, control.ending,
        part.2.assignedBy part.1 checked.global.locals "g" init.after cue, control.store)) =
      some (.finished, .finished, [1], #[0]) := by
  decide +kernel

end Orchestrion
