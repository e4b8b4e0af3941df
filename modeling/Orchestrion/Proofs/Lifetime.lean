import Orchestrion.Machine.Lifetime

/-!
# Lifetimes saturate

An instance moves the end of its lifetime, again and again and by any number of ticks. Ends are
words, the largest of which never comes. Whether there is room to extend a lifetime is found out by
a difference of words, and this difference fits, so that no sum is ever computed that does not.
-/

namespace Orchestrion

/-- The tick of the given number, if it is not beyond the words. -/
def Tick.ofInt? (n : Int) : Option Tick :=
  if Int64.minValue.toInt ≤ n ∧ n ≤ Int64.maxValue.toInt then some (.ofInt n) else none

namespace Lifetime

/-- What an instance can do to its lifetime. -/
inductive Change where
  | extend (ticks : Tick)
  | turnOff (now : Tick)
deriving DecidableEq, Repr

/-- The end after a change in exact arithmetic, which only `Tick.unbounded` stops. -/
def Change.exactStop (stop : Int) : Change → Int
  | extend ticks =>
    if stop = Tick.unbounded.toInt ∨ ticks.toInt ≤ 0 then stop
    else min Tick.unbounded.toInt (stop + ticks.toInt)
  | turnOff now => min stop now.toInt

def change (l : Lifetime) : Change → Lifetime
  | .extend ticks => l.extend ticks
  | .turnOff now => l.turnOff now

/-- The steps of `extend` in arithmetic that gives up where words would wrap around. -/
def extend? (l : Lifetime) (ticks : Tick) : Option Lifetime :=
  if l.stop = Tick.unbounded || ticks ≤ 0 then some l
  else do
    let latest ← Tick.ofInt? (Tick.unbounded.toInt - ticks.toInt)
    if latest < l.stop then some { l with stop := Tick.unbounded }
    else do
      let stop ← Tick.ofInt? (l.stop.toInt + ticks.toInt)
      some { l with stop }

/-- A change in arithmetic that gives up where words would wrap around. -/
def change? (l : Lifetime) : Change → Option Lifetime
  | .extend ticks => l.extend? ticks
  | .turnOff now => some (l.turnOff now)

variable (l : Lifetime) {ticks : Tick}

theorem toInt_unbounded : Tick.unbounded.toInt = 9223372036854775807 := by decide

theorem toInt_unbounded_sub (ht : 0 < ticks) :
    (Tick.unbounded - ticks).toInt = Tick.unbounded.toInt - ticks.toInt :=
  Int64.toInt_sub_of_le _ _ (Int64.le_of_lt ht) ticks.le_maxValue

theorem toInt_stop_add (ht : 0 < ticks) (hroom : ¬ Tick.unbounded - ticks < l.stop) :
    (l.stop + ticks).toInt = l.stop.toInt + ticks.toInt := by
  rw [Int64.lt_iff_toInt_lt, toInt_unbounded_sub ht, toInt_unbounded] at hroom
  have hpos : 0 < ticks.toInt := Int64.lt_iff_toInt_lt.1 ht
  have hge := l.stop.le_toInt
  rw [Int64.toInt_add]
  exact Int.bmod_eq_of_le (by omega) (by omega)

theorem kept_iff : l.stop = Tick.unbounded ∨ ticks ≤ 0 ↔
    l.stop.toInt = Tick.unbounded.toInt ∨ ticks.toInt ≤ 0 :=
  or_congr Int64.toInt_inj.symm Int64.le_iff_toInt_le

theorem ofInt?_toInt (t : Tick) : Tick.ofInt? t.toInt = some t := by
  rw [Tick.ofInt?, if_pos ⟨Int64.le_iff_toInt_le.1 t.minValue_le,
    Int64.le_iff_toInt_le.1 t.le_maxValue⟩, Int64.ofInt_toInt]

theorem extend?_eq_some (ticks : Tick) : l.extend? ticks = some (l.extend ticks) := by
  rw [extend?, extend]
  split
  next => rfl
  next hmoves =>
    have ht : 0 < ticks := by
      simp only [Bool.or_eq_true, decide_eq_true_eq, not_or] at hmoves
      exact Int64.not_le.1 hmoves.2
    rw [← toInt_unbounded_sub ht, ofInt?_toInt, Option.bind_eq_bind, Option.bind_some]
    split
    next => rfl
    next hroom =>
      rw [← toInt_stop_add l ht hroom, ofInt?_toInt]
      rfl

theorem change?_eq_some (c : Change) : l.change? c = some (l.change c) := by
  cases c with
  | extend ticks => exact l.extend?_eq_some ticks
  | turnOff now => rfl

theorem toInt_stop_change (c : Change) : (l.change c).stop.toInt = c.exactStop l.stop.toInt := by
  cases c with
  | extend ticks =>
    have hle : l.stop.toInt ≤ Tick.unbounded.toInt := Int64.le_iff_toInt_le.1 l.stop.le_maxValue
    by_cases hkept : l.stop = Tick.unbounded ∨ ticks ≤ 0
    · rw [change, extend, if_pos (by simpa using hkept), Change.exactStop,
        if_pos (l.kept_iff.1 hkept)]
    · rw [change, extend, if_neg (by simpa using hkept), Change.exactStop,
        if_neg (mt l.kept_iff.2 hkept)]
      have ht : 0 < ticks := Int64.not_le.1 (not_or.1 hkept).2
      split
      next hroom =>
        rw [Int64.lt_iff_toInt_lt, toInt_unbounded_sub ht] at hroom
        change Tick.unbounded.toInt = _
        omega
      next hroom =>
        rw [toInt_stop_add l ht hroom]
        rw [Int64.lt_iff_toInt_lt, toInt_unbounded_sub ht] at hroom
        omega
  | turnOff now =>
    rw [change, turnOff, Change.exactStop]
    split
    next hlt =>
      rw [Int64.lt_iff_toInt_lt] at hlt
      change now.toInt = _
      omega
    next hge =>
      rw [Int64.lt_iff_toInt_lt] at hge
      omega

theorem start_change (c : Change) : (l.change c).start = l.start := by
  cases c with
  | extend ticks =>
    rw [change, extend]
    split
    · rfl
    · split <;> rfl
  | turnOff now =>
    rw [change, turnOff]
    split <;> rfl

theorem stop_lt_extend {l : Lifetime} (hstop : l.stop ≠ Tick.unbounded) (ht : 0 < ticks) :
    l.stop < (l.extend ticks).stop := by
  have hexact := l.toInt_stop_change (.extend ticks)
  have hpos : 0 < ticks.toInt := Int64.lt_iff_toInt_lt.1 ht
  have hlt : l.stop.toInt < Tick.unbounded.toInt :=
    Int64.lt_iff_toInt_lt.1 (Int64.lt_of_le_of_ne l.stop.le_maxValue hstop)
  rw [change, Change.exactStop, if_neg (by omega)] at hexact
  rw [Int64.lt_iff_toInt_lt]
  omega

theorem extend_of_le {l : Lifetime} (ht : ticks ≤ 0) : l.extend ticks = l := by
  simp [extend, ht]

/-- The lifetime after changes, in order. -/
def changes (cs : List Change) : Lifetime := cs.foldl change l

/-- Whatever changes are made to a lifetime, its end is the one that exact arithmetic gives, nothing
wraps around on the way, and the start stays. To extend it once more does not lower the end, and to
turn it off does not raise it. -/
theorem changes_saturate (cs : List Change) :
    (l.changes cs).stop.toInt = cs.foldl Change.exactStop l.stop.toInt ∧
      cs.foldlM change? l = some (l.changes cs) ∧ (l.changes cs).start = l.start ∧
      (∀ ticks, (l.changes cs).stop ≤ ((l.changes cs).extend ticks).stop) ∧
      ∀ now, ((l.changes cs).turnOff now).stop ≤ (l.changes cs).stop := by
  refine ⟨?_, ?_, ?_, fun ticks => ?_, fun now => ?_⟩
  · induction cs generalizing l with
    | nil => rfl
    | cons c cs ih => rw [List.foldl_cons, ← toInt_stop_change]; exact ih _
  · induction cs generalizing l with
    | nil => rfl
    | cons c cs ih => rw [List.foldlM_cons, change?_eq_some]; exact ih _
  · induction cs generalizing l with
    | nil => rfl
    | cons c cs ih => exact (ih _).trans (l.start_change c)
  · by_cases hkept : (l.changes cs).stop = Tick.unbounded ∨ ticks ≤ 0
    · rw [extend, if_pos (by simpa using hkept)]
      exact Int64.le_refl _
    · rw [not_or, Int64.not_le] at hkept
      exact Int64.le_of_lt (stop_lt_extend hkept.1 hkept.2)
  · have hexact := (l.changes cs).toInt_stop_change (.turnOff now)
    rw [change, Change.exactStop] at hexact
    rw [Int64.le_iff_toInt_le]
    omega

end Lifetime

end Orchestrion
