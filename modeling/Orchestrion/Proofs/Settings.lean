import Mathlib.Data.List.Nodup
import Mathlib.Tactic.Common
import Orchestrion.Settings

/-!
# Run-time parameters that are accepted

Settings are read one after the other, with complaints about those that come twice and about values
that are out of range, and the rates are compared in the end if there was no complaint. All this
amounts to a condition on the settings as a whole. What is accepted gives at least one control tick
and one output channel, and a sampling rate that is a multiple of the control rate.
-/

namespace Orchestrion

open List

/-- The values that a parameter can have. -/
def Parameter.Admits (p : Parameter) (value : Int) : Prop :=
  match p with
  | .srate | .krate => 0 < value
  | .inchannels => 0 ≤ value
  | .outchannels => 1 ≤ value
  | .interp => value = 0 ∨ value = 1

theorem Parameter.broken?_eq_none {p : Parameter} {value : Int} :
    p.broken? value = none ↔ p.Admits value := by
  cases p <;> rw [broken?, Admits] <;> split <;> simp <;> omega

namespace Settings

/-! ### Values of parameters -/

def get (s : Settings) : Parameter → Int
  | .srate => s.srate
  | .krate => s.krate
  | .inchannels => s.inChannels
  | .outchannels => s.outChannels
  | .interp => s.interp

@[simp]
theorem get_set (s : Settings) (p q : Parameter) (value : Int) :
    (s.set p value).get q = if q = p then value else s.get q := by
  cases p <;> cases q <;> rfl

theorem ext_get {s t : Settings} (h : ∀ p, s.get p = t.get p) : s = t := by
  have hsrate := h .srate
  have hkrate := h .krate
  have hin := h .inchannels
  have hout := h .outchannels
  have hinterp := h .interp
  cases s
  cases t
  simp_all [get]

def valueIn (ss : List Setting) (p : Parameter) : Int :=
  match ss.find? fun s => s.parameter = p with
  | some s => s.value
  | none => ({} : Settings).get p

variable {ss : List Setting}

theorem valueIn_of_mem (hnodup : (ss.map Setting.parameter).Nodup) {s : Setting} (hs : s ∈ ss) :
    valueIn ss s.parameter = s.value := by
  rw [valueIn]
  split
  next t ht =>
    have hparameter : t.parameter = s.parameter := by simpa using find?_some ht
    rw [inj_on_of_nodup_map hnodup (mem_of_find?_eq_some ht) hs hparameter]
  next hnone => simpa using find?_eq_none.1 hnone s hs

theorem valueIn_of_forall_ne {p : Parameter} (h : ∀ s ∈ ss, s.parameter ≠ p) :
    valueIn ss p = ({} : Settings).get p := by
  have hnone : (ss.find? fun s => s.parameter = p) = none :=
    find?_eq_none.2 fun s hs => by simpa using h s hs
  rw [valueIn, hnone]

/-! ### Reading -/

namespace Reading

variable {r : Reading} {s : Setting}

theorem errors_read : (r.read s).errors = [] ↔
    r.errors = [] ∧ (∀ t ∈ r.seen, t.parameter ≠ s.parameter) ∧ s.parameter.Admits s.value := by
  rw [read, first?, ← Parameter.broken?_eq_none]
  cases hfirst : r.seen.find? fun t => t.parameter = s.parameter with
  | some t =>
    have hparameter : t.parameter = s.parameter := by simpa using find?_some hfirst
    have hseen : ¬∀ t ∈ r.seen, t.parameter ≠ s.parameter :=
      fun h => h t (mem_of_find?_eq_some hfirst) hparameter
    simp [complain, hseen]
  | none =>
    have hseen : ∀ t ∈ r.seen,
        t.parameter ≠ s.parameter := by simpa using find?_eq_none.1 hfirst
    cases hbroken : s.parameter.broken? s.value with
    | some rule => simp [complain]
    | none => simpa using fun _ => hseen

theorem read_of_errors (h : (r.read s).errors = []) :
    r.read s = ⟨r.settings.set s.parameter s.value, r.seen ++ [s], []⟩ := by
  obtain ⟨herrors, hseen, hadmits⟩ := errors_read.1 h
  have hfirst : r.first? s.parameter = none :=
    find?_eq_none.2 fun t ht => by simpa using hseen t ht
  rw [read, hfirst, Parameter.broken?_eq_none.2 hadmits, herrors]

theorem errors_foldl_read (ss : List Setting) (r : Reading) : (ss.foldl read r).errors = [] ↔
    r.errors = [] ∧ (∀ s ∈ ss, ∀ t ∈ r.seen, t.parameter ≠ s.parameter) ∧
      (ss.map Setting.parameter).Nodup ∧ ∀ s ∈ ss, s.parameter.Admits s.value := by
  induction ss generalizing r with
  | nil => simp
  | cons s ss ih =>
    rw [foldl_cons, ih]
    by_cases hread : (r.read s).errors = []
    · -- From now on, the parameter of the setting is among those that were set before.
      have hnext : (∀ s' ∈ ss, ∀ t ∈ (r.read s).seen, t.parameter ≠ s'.parameter) ↔
          (∀ s' ∈ ss, ∀ t ∈ r.seen, t.parameter ≠ s'.parameter) ∧
            s.parameter ∉ ss.map Setting.parameter := by
        rw [read_of_errors hread]
        simp only [mem_append, mem_singleton, mem_map, not_exists, not_and]
        refine ⟨fun h => ⟨fun s' hs' t ht => h s' hs' t (.inl ht), fun s' hs' heq =>
          h s' hs' s (.inr rfl) heq.symm⟩, fun ⟨hseen, hnew⟩ s' hs' t ht => ?_⟩
        rcases ht with ht | rfl
        · exact hseen s' hs' t ht
        · exact fun heq => hnew s' hs' heq.symm
      obtain ⟨herrors, hseen, hadmits⟩ := errors_read.1 hread
      rw [map_cons, nodup_cons, forall_mem_cons, forall_mem_cons]
      tauto
    · rw [errors_read] at hread
      rw [forall_mem_cons, forall_mem_cons, errors_read]
      tauto

theorem settings_foldl_read (ss : List Setting) (r : Reading) (h : (ss.foldl read r).errors = []) :
    (ss.foldl read r).settings = ss.foldl (fun x s => x.set s.parameter s.value) r.settings := by
  induction ss generalizing r with
  | nil => rfl
  | cons s ss ih =>
    have hread := ((errors_foldl_read ss (r.read s)).1 h).1
    rw [foldl_cons, ih _ h, foldl_cons, read_of_errors hread]

end Reading

theorem get_foldl_set (hnodup : (ss.map Setting.parameter).Nodup) (x : Settings) (p : Parameter) :
    (ss.foldl (fun x s => x.set s.parameter s.value) x).get p =
      match ss.find? fun s => s.parameter = p with
      | some s => s.value
      | none => x.get p := by
  induction ss generalizing x with
  | nil => rfl
  | cons s ss ih =>
    rw [map_cons, nodup_cons] at hnodup
    rw [foldl_cons, ih hnodup.2]
    by_cases hp : s.parameter = p
    · have hnone : (ss.find? fun t => t.parameter = p) = none := by
        refine find?_eq_none.2 fun t ht => ?_
        have hne : t.parameter ≠ p :=
          fun heq => hnodup.1 (mem_map.2 ⟨t, ht, heq.trans hp.symm⟩)
        simpa using hne
      rw [hnone, find?_cons_of_pos (by simpa using hp)]
      simp [hp]
    · rw [find?_cons_of_neg (by simpa using hp), get_set, if_neg (Ne.symm hp)]

/-! ### Resolving -/

/-- Settings that can be accepted: no parameter is set twice, the values are in range, and the rates
go together, those that are not set being at their defaults. -/
structure Sound (ss : List Setting) : Prop where
  once : (ss.map Setting.parameter).Nodup
  admitted : ∀ s ∈ ss, s.parameter.Admits s.value
  krate_le : valueIn ss .krate ≤ valueIn ss .srate
  krate_dvd : valueIn ss .krate ∣ valueIn ss .srate

theorem Sound.admits (h : Sound ss) (p : Parameter) : p.Admits (valueIn ss p) := by
  rw [valueIn]
  split
  next s hs =>
    have hparameter : s.parameter = p := by simpa using find?_some hs
    rw [← hparameter]
    exact h.admitted s (mem_of_find?_eq_some hs)
  next => cases p <;> simp [Parameter.Admits, get]

theorem Reading.rateFault?_eq_none {s : Settings} :
    rateFault? s = none ↔ s.krate ≤ s.srate ∧ s.krate ∣ s.srate := by
  rw [Int.dvd_iff_tmod_eq_zero, ← Int.not_lt, rateFault?]
  by_cases hlt : s.srate < s.krate <;> by_cases hmod : s.srate.tmod s.krate = 0 <;> simp [hlt, hmod]

theorem resolve_eq_ok_iff {block : GlobalBlock} {s : Settings} : resolve block = .ok s ↔
    Sound (settingsOf block.items) ∧ ∀ p, s.get p = valueIn (settingsOf block.items) p := by
  have herrors := Reading.errors_foldl_read (settingsOf block.items) {}
  have hsettings := Reading.settings_foldl_read (settingsOf block.items) {}
  rw [resolve]
  generalize settingsOf block.items = ss at *
  generalize ss.foldl Reading.read {} = r at *
  cases hr : r.errors with
  | cons d ds =>
    rw [hr] at herrors
    refine ⟨fun h => (by cases h), fun ⟨hsound, _⟩ => ?_⟩
    have hclean : (∀ s ∈ ss, ∀ t ∈ ([] : List Setting), t.parameter ≠ s.parameter) :=
      fun _ _ => forall_mem_nil _
    cases herrors.2 ⟨rfl, hclean, hsound.once, hsound.admitted⟩
  | nil =>
    -- Each parameter is set at most once, so that the last setting is the only one.
    obtain ⟨-, -, honce, hadmitted⟩ := herrors.1 hr
    have hvalues (p : Parameter) : r.settings.get p = valueIn ss p := by
      rw [hsettings hr, get_foldl_set honce]
      rfl
    have hsound : Reading.rateFault? r.settings = none ↔ Sound ss := by
      rw [Reading.rateFault?_eq_none]
      change r.settings.get .krate ≤ r.settings.get .srate ∧
        r.settings.get .krate ∣ r.settings.get .srate ↔ _
      rw [hvalues, hvalues]
      exact ⟨fun h => ⟨honce, hadmitted, h.1, h.2⟩, fun h => ⟨h.krate_le, h.krate_dvd⟩⟩
    dsimp only
    cases hfault : Reading.rateFault? r.settings with
    | some cause =>
      refine ⟨fun h => (by cases h), fun ⟨h, _⟩ => ?_⟩
      cases hfault.symm.trans (hsound.2 h)
    | none =>
      refine ⟨fun h => ⟨hsound.1 hfault, fun p => ?_⟩,
        fun ⟨_, h⟩ => congrArg _ (ext_get fun p => ?_)⟩
      · cases h
        exact hvalues p
      · rw [hvalues, h]

/-- Each run-time parameter is in its range. -/
structure InRange (s : Settings) : Prop where
  srate : 0 < s.srate
  krate : 0 < s.krate
  inChannels : 0 ≤ s.inChannels
  outChannels : 0 < s.outChannels

/-- The run-time parameters are in their ranges, and the rates go together. -/
structure Valid (s : Settings) : Prop extends InRange s where
  krate_le : s.krate ≤ s.srate
  krate_dvd : s.krate ∣ s.srate

theorem resolve_ok {block : GlobalBlock} {s : Settings} (h : resolve block = .ok s) : s.Valid := by
  obtain ⟨hsound, hvalues⟩ := resolve_eq_ok_iff.1 h
  have hadmits (p : Parameter) : p.Admits (s.get p) := by
    rw [hvalues]
    exact hsound.admits p
  have hle := hsound.krate_le
  have hdvd := hsound.krate_dvd
  rw [← hvalues, ← hvalues] at hle hdvd
  exact ⟨⟨hadmits .srate, hadmits .krate, hadmits .inchannels, hadmits .outchannels⟩, hle, hdvd⟩

end Settings

end Orchestrion
