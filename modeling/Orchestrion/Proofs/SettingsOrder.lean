import Mathlib.Data.List.Perm.Basic
import Orchestrion.Proofs.Partition

/-!
# Run-time parameters in any order

Whether settings are accepted, and with what values, is told by the settings as a whole. So their
order plays no part, nor how they are distributed over global blocks.
-/

namespace Orchestrion.Settings

open List

variable {ss ss' : List Setting}

theorem valueIn_perm (h : ss ~ ss') (hnodup : (ss.map Setting.parameter).Nodup)
    (p : Parameter) : valueIn ss p = valueIn ss' p := by
  have hnodup' : (ss'.map Setting.parameter).Nodup := (h.map _).nodup_iff.1 hnodup
  by_cases hset : ∃ s ∈ ss, s.parameter = p
  · obtain ⟨s, hs, rfl⟩ := hset
    rw [valueIn_of_mem hnodup hs, valueIn_of_mem hnodup' (h.mem_iff.1 hs)]
  · have hunset : ∀ s ∈ ss, s.parameter ≠ p := fun s hs heq => hset ⟨s, hs, heq⟩
    rw [valueIn_of_forall_ne hunset, valueIn_of_forall_ne fun s hs => hunset s (h.mem_iff.2 hs)]

theorem Sound.perm (h : Sound ss) (hperm : ss ~ ss') : Sound ss' where
  once := (hperm.map _).nodup_iff.1 h.once
  admitted s hs := h.admitted s (hperm.mem_iff.2 hs)
  krate_le := by
    rw [← valueIn_perm hperm h.once, ← valueIn_perm hperm h.once]
    exact h.krate_le
  krate_dvd := by
    rw [← valueIn_perm hperm h.once, ← valueIn_perm hperm h.once]
    exact h.krate_dvd

theorem resolve_perm {b b' : GlobalBlock} (h : b.items ~ b'.items) :
    (resolve b).toOption = (resolve b').toOption := by
  have hss : settingsOf b.items ~ settingsOf b'.items := h.filterMap _
  have hok (s : Settings) : resolve b = .ok s ↔ resolve b' = .ok s := by
    rw [resolve_eq_ok_iff, resolve_eq_ok_iff]
    refine ⟨fun ⟨hsound, hs⟩ => ⟨hsound.perm hss, fun p => ?_⟩,
      fun ⟨hsound, hs⟩ => ⟨hsound.perm hss.symm, fun p => ?_⟩⟩
    · rw [hs, valueIn_perm hss hsound.once]
    · rw [hs, valueIn_perm hss.symm hsound.once]
  cases hb : resolve b with
  | ok s => rw [(hok s).1 hb]
  | error ds =>
    cases hb' : resolve b' with
    | ok s => cases hb.symm.trans ((hok s).2 hb')
    | error ds' => rfl

theorem Valid.samplesPerControl {s : Settings} (h : s.Valid) :
    ∃ n, s.samplesPerControl? = some n ∧ n * s.krate = s.srate ∧ 1 ≤ n := by
  have hmul := Int.tdiv_mul_cancel h.krate_dvd
  refine ⟨_, if_neg h.krate.ne', hmul, ?_⟩
  by_contra hlt
  have hle : s.srate.tdiv s.krate * s.krate ≤ 0 :=
    Int.mul_nonpos_of_nonpos_of_nonneg (by omega) h.krate.le
  have hsrate := h.srate
  omega

/-! ### What is told of all items -/

/-- The value that the items of a global section give to a parameter: the one it is set to, or its
default if it is not set. -/
inductive Gives (items : List GlobalItem) : Parameter → Int → Prop
  | set {x : Setting} (h : .setting x ∈ items) : Gives items x.parameter x.value
  | default {p : Parameter} (h : ∀ x, .setting x ∈ items → x.parameter ≠ p) :
    Gives items p (({} : Settings).get p)

/-- The items of a global section whose settings can be accepted. -/
structure Acceptable (items : List GlobalItem) : Prop where
  /-- No parameter is set twice. -/
  once : items.Pairwise fun a b =>
    ∀ x y, a = .setting x → b = .setting y → x.parameter ≠ y.parameter
  /-- Every value is in the range of its parameter. -/
  admitted : ∀ p v, Gives items p v → p.Admits v
  /-- The rates go together. -/
  rates : ∀ k s, Gives items .krate k → Gives items .srate s → k ≤ s ∧ k ∣ s

variable {items : List GlobalItem} {p : Parameter} {v : Int}

theorem mem_settingsOf {x : Setting} : x ∈ settingsOf items ↔ .setting x ∈ items := by
  rw [settingsOf, List.mem_filterMap]
  constructor
  · rintro ⟨_ | _, hitem, heq⟩
    · cases heq
      exact hitem
    · cases heq
  · exact fun h => ⟨_, h, rfl⟩

theorem nodup_settingsOf_iff : ((settingsOf items).map Setting.parameter).Nodup ↔
    items.Pairwise fun a b =>
      ∀ x y, a = .setting x → b = .setting y → x.parameter ≠ y.parameter := by
  rw [List.Nodup, List.pairwise_map, settingsOf, List.pairwise_filterMap]
  refine Pairwise.iff fun a b => ?_
  cases a <;> cases b <;> simp

theorem gives_iff (hnodup : ((settingsOf items).map Setting.parameter).Nodup) :
    Gives items p v ↔ v = valueIn (settingsOf items) p := by
  constructor
  · rintro (h | h)
    · rw [valueIn_of_mem hnodup (mem_settingsOf.2 h)]
    · rw [valueIn_of_forall_ne fun x hx => h x (mem_settingsOf.1 hx)]
  · rintro rfl
    by_cases hset : ∃ x, .setting x ∈ items ∧ x.parameter = p
    · obtain ⟨x, hx, rfl⟩ := hset
      rw [valueIn_of_mem hnodup (mem_settingsOf.2 hx)]
      exact .set hx
    · have hunset : ∀ x, .setting x ∈ items → x.parameter ≠ p := fun x hx heq => hset ⟨x, hx, heq⟩
      rw [valueIn_of_forall_ne fun x hx => hunset x (mem_settingsOf.1 hx)]
      exact .default hunset

theorem sound_iff_acceptable : Sound (settingsOf items) ↔ Acceptable items := by
  constructor
  · intro h
    refine ⟨nodup_settingsOf_iff.1 h.once, fun p v hv => ?_, fun k s hk hs => ?_⟩
    · rw [(gives_iff h.once).1 hv]
      exact h.admits p
    · rw [(gives_iff h.once).1 hk, (gives_iff h.once).1 hs]
      exact ⟨h.krate_le, h.krate_dvd⟩
  · intro h
    have honce := nodup_settingsOf_iff.2 h.once
    obtain ⟨hle, hdvd⟩ := h.rates _ _ ((gives_iff honce).2 rfl) ((gives_iff honce).2 rfl)
    exact ⟨honce, fun x hx => h.admitted _ _ (.set (mem_settingsOf.1 hx)), hle, hdvd⟩

/-- What the settings of a global section resolve to. -/
structure Resolves (block : GlobalBlock) : Prop where
  /-- Settings are accepted if and only if nothing is wrong with them as a whole. -/
  accepted : (∃ s, resolve block = .ok s) ↔ Acceptable block.items
  /-- Parameters that are set have the values they are set to, and all others their defaults. -/
  values : ∀ s, resolve block = .ok s → ∀ p v, s.get p = v ↔ Gives block.items p v
  /-- A control tick has at least one sample, and the same number of samples always. -/
  samples : ∀ s, resolve block = .ok s →
    ∃ n, s.samplesPerControl? = some n ∧ n * s.krate = s.srate ∧ 1 ≤ n
  /-- The order of the items changes neither the result nor whether there is one. -/
  reordered : ∀ other : GlobalBlock, other.items ~ block.items →
    (resolve other).toOption = (resolve block).toOption
  /-- Nor does it matter how the items are distributed over the global blocks of an orchestra. -/
  distributed : ∀ o : OrchestraTree, o.items.flatMap Item.globalItems ~ block.items →
    (resolve o.sections.global).toOption = (resolve block).toOption

/-- The settings of a global section are judged and carried out as a whole, in whatever order and in
however many blocks they are written. -/
theorem resolves_in_any_order (block : GlobalBlock) : Resolves block := by
  refine ⟨⟨fun ⟨s, hs⟩ => sound_iff_acceptable.1 (resolve_eq_ok_iff.1 hs).1, fun h => ?_⟩,
    fun s hs p v => ?_, fun s hs => (resolve_ok hs).samplesPerControl, fun _ => resolve_perm,
    fun o ho => resolve_perm ?_⟩
  · let value := valueIn (settingsOf block.items)
    refine ⟨⟨value .srate, value .krate, value .inchannels, value .outchannels, value .interp⟩, ?_⟩
    exact resolve_eq_ok_iff.2 ⟨sound_iff_acceptable.2 h, fun p => by cases p <;> rfl⟩
  · obtain ⟨hsound, hvalues⟩ := resolve_eq_ok_iff.1 hs
    rw [gives_iff hsound.once, ← hvalues]
    exact eq_comm
  · rwa [o.items_global]

end Orchestrion.Settings
