import Orchestrion.Proofs.Feeding
import Orchestrion.Proofs.Lifetime
import Orchestrion.Proofs.Number.Values

/-!
# The order of ticks

Times are put on ticks by a product that is rounded to a double and then to a whole number. Both
respect the order, but a product beyond the largest word becomes the least one, so that a time that
is too late to be counted comes before all others.
-/

namespace Orchestrion

open Float.Model Number

namespace Number

/-! ### Doubles in order -/

theorem double_not_lt {x y : Float} (h : x ≤ y) : ¬ y < x := by
  intro hlt
  obtain ⟨p, q, hp, hq, hle⟩ := double_le_iff.1 h
  obtain ⟨q', p', hq', hp', hlt⟩ := double_lt_iff.1 hlt
  cases hp.symm.trans hp'
  cases hq.symm.trans hq'
  exact absurd hle (not_le.2 hlt)

def wordLimit : Float := 9223372036854775808

theorem doublePosition?_wordLimit : doublePosition? wordLimit = some (2 ^ 63) := by
  have hparts : Binary.ofDouble? wordLimit = some ⟨false, 4503599627370496, 11⟩ := by
    decide +kernel
  have hvalue := doubleValue?_of_ofDouble? hparts
  norm_num [Binary.value] at hvalue
  exact position?_of_value? (hvalue.trans (by norm_num))

theorem exists_int_of_doubleValue? {x : Float} {p : ℚ} (h : doubleValue? x = some p)
    (hp : 2 ^ 52 ≤ p) : ∃ n : ℤ, p = n := by
  have hquantum : 0 ≤ quantum .binary64 p := by
    have hmono : quantum .binary64 (2 ^ 52) ≤ quantum .binary64 p :=
      quantum_mono (by positivity) hp
    have hlog : Int.log 2 (2 ^ 52 : ℚ) = 52 := by
      exact_mod_cast Int.log_zpow (R := ℚ) one_lt_two 52
    rw [quantum, abs_of_pos (by positivity), hlog] at hmono
    exact le_trans (by decide) hmono
  obtain ⟨k, hk⟩ := Int.eq_ofNat_of_zero_le hquantum
  have hself := rounded_of_doubleValue? h
  rw [rounded, hk, zpow_natCast] at hself
  exact ⟨toEven (p / 2 ^ k) * 2 ^ k, by push_cast; exact hself.symm⟩

theorem halfAway_lt {x : Float} {p : ℚ} (h : doublePosition? x = some p) (hp : p < 2 ^ 63) :
    halfAway p < 2 ^ 63 := by
  rcases lt_or_ge p (2 ^ 52) with hlt | hge
  · have hle := halfAway_mono hlt.le
    rw [show (2 ^ 52 : ℚ) = (2 ^ 52 : ℤ) by norm_num, halfAway_intCast] at hle
    exact lt_of_le_of_lt hle (by norm_num)
  · have hlimit : |p| < limit .binary64 := by
      rw [abs_of_nonneg (le_trans (by norm_num) hge)]
      exact hp.trans (pow_lt_pow_right₀ one_lt_two (by decide))
    obtain ⟨n, rfl⟩ := exists_int_of_doubleValue? (value?_of_position? h hlimit) hge
    rw [halfAway_intCast]
    exact_mod_cast hp

theorem toInt_wordOfInt_mono {m n : ℤ} (h : m ≤ n) (hn : n < 2 ^ 63) :
    (wordOfInt m).toInt ≤ (wordOfInt n).toInt := by
  rw [toInt_wordOfInt, toInt_wordOfInt]
  split_ifs <;> omega

theorem nearestWord_mono {x y : Float} (h : x ≤ y) (hy : y < wordLimit) :
    nearestWord x ≤ nearestWord y := by
  obtain ⟨p, q, hp, hq, hle⟩ := double_le_iff.1 h
  obtain ⟨q', limit, hq', hlimit, hlt⟩ := double_lt_iff.1 hy
  cases hq.symm.trans hq'
  cases hlimit.symm.trans doublePosition?_wordLimit
  rw [Int64.le_iff_toInt_le, nearestWord_eq hp, nearestWord_eq hq]
  exact toInt_wordOfInt_mono (halfAway_mono hle) (halfAway_lt hq hlt)

theorem nearestWord_of_not_lt {x : Float} (h : ¬ x < wordLimit) :
    nearestWord x = Int64.minValue := by
  cases hx : doublePosition? x with
  | none => exact nearestWord_of_none hx
  | some p =>
    have hle : (2 ^ 63 : ℤ) ≤ p := by
      push_cast
      exact not_lt.1 fun hlt => h (double_lt_iff.2 ⟨p, _, hx, doublePosition?_wordLimit, hlt⟩)
    have hle := halfAway_mono hle
    rw [halfAway_intCast] at hle
    rw [nearestWord_eq hx, ← Int64.toInt_inj, toInt_wordOfInt, if_neg (by omega)]
    rfl

end Number

namespace Settings

variable {s : Settings}

/-- The time is early enough to have a tick. -/
def Counts (s : Settings) (seconds : Float) : Prop :=
  seconds * Float.ofInt s.krate < wordLimit

instance (s : Settings) (seconds : Float) : Decidable (s.Counts seconds) :=
  inferInstanceAs (Decidable (_ < wordLimit))

/-- The control rate is positive and fits into a word. -/
structure HasRate (s : Settings) : Prop where
  pos : 0 < s.krate
  lt : s.krate < 2 ^ 63

open Number

theorem HasRate.exists_value (h : s.HasRate) :
    ∃ k, doubleValue? (Float.ofInt s.krate) = some k ∧ 1 ≤ k ∧ s.krate < 2 * k := by
  obtain ⟨n, hn⟩ := Int.eq_ofNat_of_zero_le h.pos.le
  have hpos : 0 < n := by have := h.pos; omega
  have hlt : n < 2 ^ 63 := by have := h.lt; omega
  -- The power of two below the rate is not changed by rounding, nor does rounding pass it.
  have hpower : rounded .binary64 (2 ^ (Nat.log 2 n : ℤ)) = 2 ^ (Nat.log 2 n : ℤ) :=
    rounded_two_zpow (le_trans (by decide) (Int.natCast_nonneg _))
  have hle : rounded .binary64 (2 ^ (Nat.log 2 n : ℤ)) ≤ rounded .binary64 n := by
    apply rounded_mono
    exact_mod_cast Nat.pow_log_le_self 2 hpos.ne'
  rw [hpower, zpow_natCast] at hle
  rw [hn]
  refine ⟨_, doubleValue?_ofNat hlt, (one_le_pow₀ one_le_two).trans hle, ?_⟩
  have hlog : (n : ℚ) < 2 ^ (Nat.log 2 n + 1) := by
    exact_mod_cast Nat.lt_pow_succ_log_self one_lt_two n
  rw [pow_succ] at hlog
  push_cast
  linarith

theorem HasRate.mul_le (h : s.HasRate) {a b : Float} (hle : a ≤ b) :
    a * Float.ofInt s.krate ≤ b * Float.ofInt s.krate := by
  obtain ⟨k, hk, hone, -⟩ := h.exists_value
  obtain ⟨p, q, hp, hq, hpq⟩ := double_le_iff.1 hle
  refine double_le_iff.2 ⟨_, _, doublePosition?_mul_of_one_le hp hk hone,
    doublePosition?_mul_of_one_le hq hk hone, bounded_mono (rounded_mono ?_)⟩
  gcongr

theorem HasRate.ticks_mono (h : s.HasRate) {a b : Float} (hle : a ≤ b) (hb : s.Counts b) :
    s.ticks a ≤ s.ticks b :=
  nearestWord_mono (h.mul_le hle) hb

theorem ticks_of_not_counts {seconds : Float} (h : ¬ s.Counts seconds) :
    s.ticks seconds = Int64.minValue :=
  nearestWord_of_not_lt h

theorem HasRate.ticks_pos (h : s.HasRate) {seconds : Float} {q : ℚ}
    (hq : doubleValue? seconds = some q) (hperiod : 1 ≤ q * s.krate) (hcounts : s.Counts seconds) :
    0 < s.ticks seconds := by
  obtain ⟨k, hk, hone, hhalf⟩ := h.exists_value
  have hrate : (0 : ℚ) < s.krate := by exact_mod_cast h.pos
  have hpos : 0 < q := by nlinarith
  have hproduct : (1 / 2 : ℚ) ≤ q * k := by nlinarith
  have hposition := doublePosition?_mul hq hk
  obtain ⟨p, limit, hp, hlimit, hlt⟩ := double_lt_iff.1 hcounts
  cases hlimit.symm.trans doublePosition?_wordLimit
  have hmin : (1 / 2 : ℚ) ≤ p := by
    have hself : rounded .binary64 (2 ^ (-1 : ℤ)) = 2 ^ (-1 : ℤ) := rounded_two_zpow (by decide)
    have hbounded : bounded .binary64 (1 / 2) = 1 / 2 := bounded_of_abs_le <| by
      rw [abs_of_pos (by norm_num)]
      exact le_trans (by norm_num) (one_le_pow₀ one_le_two)
    rw [zpow_neg_one, ← one_div] at hself
    rw [← Option.some.inj (hposition.symm.trans hp), ← hbounded, ← hself]
    exact bounded_mono (rounded_mono hproduct)
  have hnearest := halfAway_mono hmin
  have hfits := halfAway_lt hp hlt
  rw [show halfAway (1 / 2) = 1 by norm_num [halfAway]] at hnearest
  rw [Int64.lt_iff_toInt_lt, ticks, nearestWord_eq hp, toInt_wordOfInt, if_pos (by omega)]
  exact hnearest

end Settings

theorem Feeder.Follows.stop_lt_finish {σ : Type} {r : Repertoire} {ls : List Text}
    {s s' : Scheduler Instance σ} (h : Follows r ls s s') (hends : ends ls = []) {p : Play}
    (hp : p ∈ plays r ls) (hduration : ¬ p.duration < 0) :
    (p.life s.settings).stop < s'.finish := by
  have hmem : s.settings.ticks (p.time + p.duration) ∈ stops r s.settings ls :=
    List.mem_filterMap.2 ⟨p, hp, if_neg hduration⟩
  have hmem' := List.mem_map_of_mem (f := Int64.toInt) hmem
  obtain ⟨last, hlast⟩ := Option.ne_none_iff_exists'.1
    (mt List.max?_eq_none_iff.1 (List.ne_nil_of_mem hmem'))
  have hle : (s.settings.ticks (p.time + p.duration)).toInt ≤ last :=
    (List.max?_le_iff hlast).1 le_rfl _ hmem'
  have hstop : (p.life s.settings).stop = s.settings.ticks (p.time + p.duration) :=
    if_neg hduration
  rw [Int64.lt_iff_toInt_lt, h.settled hends last hlast, hstop]
  omega

/-- Ticks respect the order of times up to the largest word, and a time beyond it comes before all
others. So an instrument that is played from a time on ends no earlier than it starts, the automatic
end of a score comes after its start, and an instance that is extended by a control period or more
ends later, all as long as the end counts. -/
theorem Settings.ticks_ordered {s : Settings} (h : s.HasRate) :
    (∀ a b : Float, a ≤ b →
      if s.Counts b then s.ticks a ≤ s.ticks b else s.ticks b = Int64.minValue) ∧
    (∀ p : Feeder.Play, (Number.Binary.ofDouble? p.time).isSome → 0 ≤ p.duration →
      if s.Counts (p.time + p.duration) then (p.life s).start ≤ (p.life s).stop
      else (p.life s).stop = Int64.minValue) ∧
    (∀ (source : Text) (o : Orchestra), Orchestra.compile source = .ok o →
      (∀ u ∈ o.repertoire.units, u.InMemory) → ∀ (σ : Type) [Sink σ] (score : Feeder.Source),
      score.Fits → Feeder.ends (Feeder.lines score.text) = [] →
      ∀ (feeder : Feeder) (performance : Scheduler Instance σ), feeder.IsNew →
      performance.settings = s → Sink.isCancelled performance.sink = false →
      ∃ f', Feeder.feed o.repertoire (feeder, performance) score = (f', none) ∧
        ∀ p ∈ Feeder.plays o.repertoire (Feeder.lines score.text),
          (Number.Binary.ofDouble? p.time).isSome → 0 ≤ p.duration →
          s.Counts (p.time + p.duration) → (p.life s).start < f'.2.finish) ∧
    (∀ (c : Machine.Context) (host : Host) (state : Machine.State) (v : Float32)
      (stack : List Float32), c.host = some host → host.settings = s →
      state.stack = some (v :: stack) →
      ∃ life, Machine.exec c state .extend =
          .onward { state with stack := some stack, lifetime := life } ∧
        ∀ b, Number.Binary.ofDouble? (widen v) = some b → 1 ≤ b.value * s.krate →
          if state.lifetime.stop ≠ Tick.unbounded ∧ s.Counts (widen v) then
            state.lifetime.stop < life.stop
          else life = state.lifetime) := by
  have horder : ∀ a b : Float, a ≤ b →
      if s.Counts b then s.ticks a ≤ s.ticks b else s.ticks b = Int64.minValue := by
    intro a b hle
    split
    next hcounts => exact h.ticks_mono hle hcounts
    next hcounts => exact Settings.ticks_of_not_counts hcounts
  have hlife : ∀ p : Feeder.Play, (Number.Binary.ofDouble? p.time).isSome → 0 ≤ p.duration →
      if s.Counts (p.time + p.duration) then (p.life s).start ≤ (p.life s).stop
      else (p.life s).stop = Int64.minValue := by
    intro p htime hduration
    obtain ⟨b, hb⟩ := Option.isSome_iff_exists.1 htime
    have hstop : (p.life s).stop = s.ticks (p.time + p.duration) :=
      if_neg (double_not_lt hduration)
    rw [hstop]
    exact horder _ _ (double_le_add (doubleValue?_of_ofDouble? hb) hduration)
  refine ⟨horder, hlife, ?_, ?_⟩
  · intro source o hcompiles hroom σ _ score hscore hends feeder performance hnew hs hlive
    have hr := Orchestra.ready hcompiles hroom
    obtain ⟨f', hfeed, hreads⟩ :=
      Feeder.exists_feed (f := (feeder, performance)) hr hscore hlive
    refine ⟨_, hfeed, fun p hp htime hduration hcounts => ?_⟩
    have hstart := hlife p htime hduration
    rw [if_pos hcounts] at hstart
    have hfinish := (hreads.follows hr hnew).stop_lt_finish hends hp
      (double_not_lt hduration)
    rw [show (feeder, performance).2.settings = s from hs] at hfinish
    exact Int64.lt_of_le_of_lt hstart hfinish
  · intro c host state v stack hhost hs hstack
    refine ⟨state.lifetime.extend (s.ticks (widen v)), ?_, fun b hb hperiod => ?_⟩
    · simp [Machine.exec, hhost, hs, hstack, Machine.State.pop?, Machine.Progress.ofState?]
    · split
      next hcase =>
        exact Lifetime.stop_lt_extend hcase.1
          (h.ticks_pos (doubleValue?_of_ofDouble? hb) hperiod hcase.2)
      next hcase =>
        by_cases hstop : state.lifetime.stop = Tick.unbounded
        · simp [Lifetime.extend, hstop]
        · have hcounts : ¬ s.Counts (widen v) := fun hcounts => hcase ⟨hstop, hcounts⟩
          rw [Settings.ticks_of_not_counts hcounts]
          exact Lifetime.extend_of_le (by decide)

theorem Settings.ticks_ordered_peal :
    ∃ o f' p life, Orchestra.compile Orchestra.bell = .ok o ∧
      let performance := o.scheduler ⟨4, 2, []⟩ (Buffer.ofChannels 1)
      let s := performance.settings
      let state : Machine.State :=
        { stack := some [1], fields := #[], arrays := #[], lifetime := ⟨0, 4⟩, store := #[] }
      Feeder.feed o.repertoire ({}, performance) Orchestra.peal = (f', none) ∧
        p ∈ Feeder.plays o.repertoire (Feeder.lines Orchestra.peal.text) ∧
        s.ticks p.time ≤ s.ticks 2 ∧
        (p.life s).start ≤ (p.life s).stop ∧ (p.life s).start < f'.2.finish ∧
        Machine.exec ⟨p.unit, .audio, some ⟨s, 0⟩⟩ state .extend =
          .onward { state with stack := some [], lifetime := life } ∧
        state.lifetime.stop < life.stop := by
  have hfacts : (Orchestra.compile Orchestra.bell).toOption.any (fun o =>
      let s := (o.scheduler ⟨4, 2, []⟩ (Buffer.ofChannels 1)).settings
      decide (∀ u ∈ o.repertoire.units, u.InMemory) && decide (0 < s.krate ∧ s.krate < 2 ^ 63) &&
      decide (s.krate = 2 ∧ s.Counts (widen 1) ∧ s.Counts 2) &&
      (Feeder.plays o.repertoire (Feeder.lines Orchestra.peal.text)).any fun p =>
        decide ((Number.Binary.ofDouble? p.time).isSome ∧ 0 ≤ p.duration ∧
          s.Counts (p.time + p.duration) ∧ p.time ≤ 2)) = true := by decide +kernel
  obtain ⟨o, ho, hfacts⟩ := (Option.any_eq_true _ _).1 hfacts
  simp only [Bool.and_eq_true, decide_eq_true_eq, List.any_eq_true] at hfacts
  obtain ⟨⟨⟨hroom, hrate⟩, hkrate, hone, htwo⟩, p, hp, htime, hduration, hcounts, hle⟩ := hfacts
  have hcompiles := toOption_eq_some_iff.1 ho
  obtain ⟨horder, hlife, hfeed, hextend⟩ :=
    @Settings.ticks_ordered (o.scheduler ⟨4, 2, []⟩ (Buffer.ofChannels 1)).settings
      ⟨hrate.1, hrate.2⟩
  obtain ⟨f', hfed, hfinish⟩ := hfeed _ o hcompiles hroom Buffer Orchestra.peal
    ⟨rfl, by decide +kernel⟩ (by decide +kernel) {} (o.scheduler ⟨4, 2, []⟩ (Buffer.ofChannels 1))
    ⟨rfl, rfl⟩ rfl rfl
  obtain ⟨life, hexec, hlonger⟩ := hextend
    ⟨p.unit, .audio, some ⟨(o.scheduler ⟨4, 2, []⟩ (Buffer.ofChannels 1)).settings, 0⟩⟩ _
    { stack := some [1], fields := #[], arrays := #[], lifetime := ⟨0, 4⟩, store := #[] } 1 []
    rfl rfl rfl
  have hparts : Number.Binary.ofDouble? (widen 1) = some ⟨false, 4503599627370496, -52⟩ := by
    decide +kernel
  have hlonger := hlonger _ hparts (by rw [hkrate]; norm_num [Number.Binary.value])
  have horder := horder p.time 2 hle
  have hlife := hlife p htime hduration
  rw [if_pos htwo] at horder
  rw [if_pos hcounts] at hlife
  rw [if_pos ⟨by decide, hone⟩] at hlonger
  exact ⟨o, f', p, life, hcompiles, hfed, hp, horder, hlife, hfinish p hp htime hduration hcounts,
    hexec, hlonger⟩

/-- A time that is too late to be counted comes before the start of the performance. -/
theorem Settings.ticks_of_late_time :
    (0 : Float) ≤ 1e300 ∧ ¬ ticks { krate := 1 } 0 ≤ ticks { krate := 1 } 1e300 := by
  decide +kernel

end Orchestrion
