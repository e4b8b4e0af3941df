import Orchestrion.Proofs.Code.Breakdown
import Orchestrion.Proofs.Compile

/-!
# Compilations that break off

A text compiles to an orchestra, or it is refused with what is wrong with it, with one exception:
the width of an array that is right for the check need not fit into a word of code. Then the
compilation breaks off without any complaint about the text. Nothing else makes it break off, unless
the text is so large that the numbers in its code do not fit into words.
-/

namespace Orchestrion

/-- Nothing is wrong with what all units of a text depend on. -/
structure Orchestra.Grounded (source : Text) (checked : CheckedOrchestra) (settings : Settings) :
    Prop where
  text : CheckedOrchestra.ofText? source = some checked
  settings : checked.settings = .ok settings
  clean : (Compilation.groundErrors checked).all List.isEmpty = true

theorem Compilation.ofTree_eq_error_iff {tree : OrchestraTree} {checked : CheckedOrchestra}
    (h : CheckedOrchestra.ofTree tree = .ok checked) {b : Breakdown} :
    Compilation.ofTree tree false = .error b ↔ ∃ settings, checked.settings = .ok settings ∧
      (Compilation.groundErrors checked).all List.isEmpty = true ∧
      Compilation.build checked false settings = .error b := by
  simp only [Compilation.ofTree, h, pure_bind]
  constructor
  · intro hbroken
    split at hbroken
    next settings hsettings hclean =>
      cases hbuild : Compilation.build checked false settings with
      | error b' =>
        rw [hbuild] at hbroken
        cases hbroken
        exact ⟨settings, hsettings, hclean, hbuild⟩
      | ok c =>
        rw [hbuild] at hbroken
        cases hbroken
    next => cases hbroken
  · rintro ⟨settings, hsettings, hclean, hbuild⟩
    simp only [hsettings, hclean, hbuild]
    rfl

theorem Orchestra.compile_brokenOff_iff {source : Text} {b : Breakdown} :
    Orchestra.compile source = .error (.brokenOff b) ↔ ∃ checked settings,
      Grounded source checked settings ∧ Compilation.build checked false settings = .error b := by
  rw [Orchestra.compile]
  cases hparse : OrchestraTree.parse source with
  | error e =>
    constructor
    · intro h
      cases h
    rintro ⟨checked, settings, hground, -⟩
    obtain ⟨tree, hparse', -⟩ := CheckedOrchestra.ofText?_eq_some_iff.1 hground.text
    cases hparse.symm.trans hparse'
  | ok tree =>
    -- No attribute is set twice, so that there is a checked orchestra.
    obtain ⟨checked, hchecked⟩ := CheckedOrchestra.exists_ofTree tree
    have htext : CheckedOrchestra.ofText? source = some checked :=
      CheckedOrchestra.ofText?_eq_some_iff.2 ⟨tree, hparse, hchecked⟩
    simp only [pure_bind]
    constructor
    · intro h
      split at h
      next b' hbroken =>
        cases h
        obtain ⟨settings, hsettings, hclean, hbuild⟩ :=
          (Compilation.ofTree_eq_error_iff hchecked).1 hbroken
        exact ⟨checked, settings, ⟨htext, hsettings, hclean⟩, hbuild⟩
      next => cases h
      next =>
        split at h
        · cases h
        · cases h
    · rintro ⟨checked', settings, ⟨htext', hsettings, hclean⟩, hbuild⟩
      rw [htext] at htext'
      cases htext'
      rw [(Compilation.ofTree_eq_error_iff hchecked).2 ⟨settings, hsettings, hclean, hbuild⟩]
      rfl

theorem Build.of_error {l : Linkage} {u : CheckedUnit} {i : Instrument} {b : Breakdown}
    (hsettings : l.settings.Valid) (hstore : l.store.places.Below l.store.size)
    (hsound : u.errors = [] → CheckedUnit.Sound i u.locals)
    (h : Build.of l false u i = .error b) :
    u.errors = [] ∧ (∃ v, b = .overflow v) ∧
      (u.locals.TooWide l.settings ∨ Emit.greatest < i.weight u.locals l.store) := by
  rw [Build.of, Bool.or_false] at h
  split at h
  next hempty =>
    rw [List.isEmpty_iff] at hempty
    refine ⟨hempty, ?_⟩
    cases hgenerate : i.generate l u with
    | ok code =>
      rw [hgenerate] at h
      cases h
    | error fault =>
      rw [hgenerate] at h
      rcases Instrument.generate_error hsettings hstore (hsound hempty) hgenerate with
        ⟨reason, rfl⟩ | ⟨v, rfl, hwhy⟩
      · cases h
      · cases h
        exact ⟨⟨v, rfl⟩, hwhy⟩
  next => cases h

theorem Build.of_tooWide {l : Linkage} {u : CheckedUnit} (i : Instrument) (hclean : u.errors = [])
    (h : u.locals.TooWide l.settings) : ∃ v, Build.of l false u i = .error (.overflow v) := by
  obtain ⟨v, hv⟩ := Instrument.generate_of_tooWide (i := i) h
  exact ⟨v, by simp only [Build.of, hclean, List.isEmpty_nil, Bool.true_or, if_true, hv]⟩

theorem Compilation.build_eq_error_iff {checked : CheckedOrchestra} {settings : Settings}
    {b : Breakdown} : Compilation.build checked false settings = .error b ↔
      checked.parts.mapM (fun p => Build.of (.of settings checked.global.locals) false p.1 p.2) =
        .error b := by
  change (checked.parts.mapM _ >>= _) = _ ↔ _
  cases checked.parts.mapM fun p => Build.of (.of settings checked.global.locals) false p.1 p.2 with
  | ok builds => exact ⟨nofun, nofun⟩
  | error b' => constructor <;> (intro h; cases h; rfl)

section Grounded

variable {source : Text} {checked : CheckedOrchestra} {settings : Settings}

theorem Orchestra.Grounded.sound (h : Grounded source checked settings) :
    settings.Valid ∧
      ∀ u i, (u, i) ∈ checked.parts → u.errors = [] → CheckedUnit.Sound i u.locals := by
  obtain ⟨tree, -, hchecked⟩ := CheckedOrchestra.ofText?_eq_some_iff.1 h.text
  obtain ⟨hresolve, -, hsound⟩ := CheckedOrchestra.ofTree_ok hchecked
  exact ⟨Settings.resolve_ok (hresolve ▸ h.settings), hsound⟩

theorem Orchestra.Grounded.of_build_error (h : Grounded source checked settings) {b : Breakdown}
    (hbuild : Compilation.build checked false settings = .error b) :
    (∃ v, b = .overflow v) ∧ ∃ u i, (u, i) ∈ checked.parts ∧ u.errors = [] ∧
      (u.locals.TooWide settings ∨
        Emit.greatest < i.weight u.locals (.ofTable checked.global.locals)) := by
  obtain ⟨hvalid, hsound⟩ := h.sound
  obtain ⟨⟨u, i⟩, hui, herror⟩ :=
    exists_of_mapM_eq_error (Compilation.build_eq_error_iff.1 hbuild)
  have hbuildOf : Build.of (.of settings checked.global.locals) false u i = .error b := herror
  obtain ⟨hclean, hoverflow, hwhy⟩ :=
    Build.of_error hvalid (StoreLayout.below_ofTable _) (hsound u i hui) hbuildOf
  exact ⟨hoverflow, u, i, hui, hclean, hwhy⟩

end Grounded

/-- When a compilation breaks off: only because an operand overflows, in a unit without complaints
that has an array too wide for a word of code, or is enormous; and an array that is too wide always
makes it break off. -/
theorem Orchestra.breaks_off_on_overflow (source : Text) :
    (∀ b, Orchestra.compile source = .error (.brokenOff b) → (∃ v, b = .overflow v) ∧
      ∃ checked settings, Grounded source checked settings ∧
        ∃ u i, (u, i) ∈ checked.parts ∧ u.errors = [] ∧
          (u.locals.TooWide settings ∨
            Emit.greatest < i.weight u.locals (.ofTable checked.global.locals))) ∧
    ∀ checked settings, Grounded source checked settings →
      ∀ u i, (u, i) ∈ checked.parts → u.errors = [] → u.locals.TooWide settings →
        ∃ v, Orchestra.compile source = .error (.brokenOff (.overflow v)) := by
  constructor
  · intro b h
    obtain ⟨checked, settings, hground, hbuild⟩ := Orchestra.compile_brokenOff_iff.1 h
    obtain ⟨hoverflow, hwhy⟩ := hground.of_build_error hbuild
    exact ⟨hoverflow, checked, settings, hground, hwhy⟩
  · intro checked settings hground u i hui hclean hwide
    obtain ⟨v, hv⟩ := Build.of_tooWide (l := .of settings checked.global.locals) i hclean hwide
    cases hbuild : Compilation.build checked false settings with
    | ok c =>
      obtain ⟨builds, hbuilds, -⟩ := exists_of_bind_eq_ok hbuild
      obtain ⟨built, -, hok⟩ := exists_mem_of_forall₂ (forall₂_of_mapM_eq_ok hbuilds) hui
      dsimp only at hok
      rw [hv] at hok
      cases hok
    | error b =>
      obtain ⟨⟨v, rfl⟩, -⟩ := hground.of_build_error hbuild
      exact ⟨v, Orchestra.compile_brokenOff_iff.2 ⟨checked, settings, hground, hbuild⟩⟩

def Orchestra.breakdown? : Except Refusal Orchestra → Option Breakdown
  | .error (.brokenOff b) => some b
  | _ => none

theorem Orchestra.eq_brokenOff_of_breakdown? {result : Except Refusal Orchestra} {b : Breakdown}
    (h : Orchestra.breakdown? result = some b) : result = .error (.brokenOff b) := by
  unfold Orchestra.breakdown? at h
  split at h
  next => rw [Option.some.inj h]
  next => cases h

/-- The compilation of a text with three thousand million elements in an array breaks off. -/
theorem Orchestra.breaks_off_on_wide_array :
    Orchestra.compile "instr a() \x7b ivar x[3000000000]; \x7d" =
      .error (.brokenOff (.overflow 3000000000)) := by
  have hbroken :
      Orchestra.breakdown? (Orchestra.compile "instr a() \x7b ivar x[3000000000]; \x7d") =
        some (.overflow 3000000000) := by
    decide +kernel
  exact Orchestra.eq_brokenOff_of_breakdown? hbroken

end Orchestrion
