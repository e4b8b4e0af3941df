import Orchestrion.Machine.Table
import Orchestrion.Proofs.Number.Values

/-!
# Lines between points

A table of straight lines is filled in one pass over its places, with a cursor on the points. The
cursor stays among the points, so that nothing is looked up that is not there, and it never goes
back. Since the places only grow, it is on the last point that lies behind the place, and the place
lies on the line from there to the next point.
-/

namespace Orchestrion

namespace Number

variable {x y z : Float}

theorem double_lt_of_lt_of_le (hxy : x < y) (hyz : y ≤ z) : x < z := by
  obtain ⟨p, q, hp, hq, hlt⟩ := double_lt_iff.1 hxy
  obtain ⟨q', r, hq', hr, hle⟩ := double_le_iff.1 hyz
  cases hq.symm.trans hq'
  exact double_lt_iff.2 ⟨p, r, hp, hr, hlt.trans_le hle⟩

theorem double_lt_of_le_of_lt (hxy : x ≤ y) (hyz : y < z) : x < z := by
  obtain ⟨p, q, hp, hq, hle⟩ := double_le_iff.1 hxy
  obtain ⟨q', r, hq', hr, hlt⟩ := double_lt_iff.1 hyz
  cases hq.symm.trans hq'
  exact double_lt_iff.2 ⟨p, r, hp, hr, hle.trans_lt hlt⟩

theorem double_lt_irrefl (x : Float) : ¬ x < x := by
  intro h
  obtain ⟨p, q, hp, hq, hlt⟩ := double_lt_iff.1 h
  cases hp.symm.trans hq
  exact lt_irrefl p hlt

theorem double_le_or_lt (hx : x ≤ x) (hy : y ≤ y) : x ≤ y ∨ y < x := by
  obtain ⟨p, -, hp, -, -⟩ := double_le_iff.1 hx
  obtain ⟨q, -, hq, -, -⟩ := double_le_iff.1 hy
  exact (le_or_gt p q).imp (fun h => double_le_iff.2 ⟨p, q, hp, hq, h⟩)
    fun h => double_lt_iff.2 ⟨q, p, hq, hp, h⟩

theorem double_beq_eq_false (h : x < y) : (y == x) = false := by
  obtain ⟨p, q, hp, hq, hlt⟩ := double_lt_iff.1 h
  change (y.toModel.unpack.compare x.toModel.unpack == some .eq) = false
  rw [compare_eq (held_double y) (held_double x) hq hp, (cmp_eq_gt_iff q p).2 hlt]
  rfl

theorem double_ofNat_mono {m n : ℕ} (h : m ≤ n) : Float.ofNat m ≤ Float.ofNat n :=
  double_le_iff.2 ⟨_, _, doublePosition?_ofNat m, doublePosition?_ofNat n,
    bounded_mono (rounded_mono (by exact_mod_cast h))⟩

end Number

open Number

namespace Breakpoint

variable {args : List Float32} {place : Float} {s : Nat}

/-! ### Points -/

/-- The place of a point: the argument whose number is twice that of the point. -/
def x (args : List Float32) (s : Nat) : Float := widen (args.getD (2 * s) 0)

/-- The height of a point: the argument behind its place. -/
def y (args : List Float32) (s : Nat) : Float := widen (args.getD (2 * s + 1) 0)

/-- The arguments of a point are there, and they are its place and its height. -/
theorem lookup?_of_lt (h : s < count args) :
    x? args s = some (x args s) ∧ y? args s = some (y args s) := by
  rw [count] at h
  have hx : 2 * s < args.length := by omega
  have hy : 2 * s + 1 < args.length := by omega
  simp [x?, y?, x, y, hx, hy]

/-- The places of points do not decrease, and all of them are numbers. -/
def Ascending (args : List Float32) : Prop :=
  ∀ i j, i ≤ j → j < count args → x args i ≤ x args j

/-! ### The cursor -/

/-- The point of the given number lies behind the place, if it is not the first one. -/
structure Kept (args : List Float32) (s : Nat) (place : Float) : Prop where
  lt : s < count args
  behind : s = 0 ∨ x args s < place

/-- The point of the given number is the last one that lies behind the place. -/
structure Reached (args : List Float32) (s : Nat) (place : Float) : Prop
    extends Kept args s place where
  ahead : s + 1 < count args → ¬ x args (s + 1) < place

/-- What lies behind a place lies behind those that follow. -/
theorem Kept.mono {place' : Float} (h : Kept args s place) (hle : place ≤ place') :
    Kept args s place' :=
  ⟨h.lt, h.behind.imp_right fun hlt => double_lt_of_lt_of_le hlt hle⟩

/-- The cursor moves to the last point that lies behind the place. -/
theorem Kept.exists_advance? {left : Nat} (h : Kept args s place)
    (hleft : s + left + 1 = count args) :
    ∃ s', advance? args place left s = some s' ∧ Reached args s' place := by
  induction left generalizing s with
  | zero => exact ⟨s, rfl, h, fun hlt => absurd hlt (by omega)⟩
  | succ left ih =>
    have hnext : s + 1 < count args := by omega
    by_cases hbehind : x args (s + 1) < place
    · obtain ⟨s', hs', hreached⟩ := ih ⟨hnext, .inr hbehind⟩ (by omega)
      refine ⟨s', ?_, hreached⟩
      simp [advance?, (lookup?_of_lt hnext).1, hbehind, hs']
    · refine ⟨s, ?_, h, fun _ => hbehind⟩
      simp [advance?, (lookup?_of_lt hnext).1, hbehind]

/-- With the cursor on a point, there is a height. -/
theorem exists_height? (place : Float) (h : s < count args) :
    ∃ height, height? args place s = some height := by
  obtain ⟨hx₀, hy₀⟩ := lookup?_of_lt (Nat.zero_lt_of_lt h)
  obtain ⟨hx, hy⟩ := lookup?_of_lt h
  by_cases hlast : s = count args - 1
  · rw [height?, hx₀, hy₀, hy]
    by_cases hbefore : place ≤ x args 0 <;> simp [hbefore, hlast]
  · have hnext : s + 1 < count args := by omega
    obtain ⟨hx₁, hy₁⟩ := lookup?_of_lt hnext
    simp only [height?, hx₀, hy₀, hx, hy, hx₁, hy₁, hlast]
    by_cases hbefore : place ≤ x args 0 <;> cases hsame : x args (s + 1) == x args s <;>
      simp [hbefore, hsame]

/-- From number `i` on, every place of the table is filled, each with the cursor on the last point
behind it. The places before them are left alone. -/
theorem Kept.exists_fill? {i left : Nat} {table : Array Float32}
    (h : Kept args s (Float.ofNat i)) (hsize : i + left = table.size) :
    ∃ filled, fill? args s i left table = some filled ∧ filled.size = table.size ∧
      (∀ k < i, filled[k]? = table[k]?) ∧
      ∀ k, i ≤ k → k < table.size → ∃ s' height, Reached args s' (Float.ofNat k) ∧
        height? args (Float.ofNat k) s' = some height ∧
        filled[k]? = some (narrow height) := by
  induction left generalizing i s table with
  | zero => exact ⟨table, rfl, rfl, fun _ _ => rfl, fun k hk hlt => absurd hlt (by omega)⟩
  | succ left ih =>
    have hlt := h.lt
    have hcursor : s + (count args - 1 - s) + 1 = count args := by omega
    obtain ⟨s', hs', hreached⟩ := h.exists_advance? hcursor
    obtain ⟨height, hheight⟩ := exists_height? (Float.ofNat i) hreached.lt
    have hnext : i + 1 + left = (table.setIfInBounds i (narrow height)).size := by
      rw [Array.size_setIfInBounds]
      omega
    obtain ⟨filled, hfilled, hkept, hbefore, hafter⟩ :=
      ih (hreached.mono (double_ofNat_mono (Nat.le_succ i))) hnext
    rw [Array.size_setIfInBounds] at hkept hafter
    refine ⟨filled, by simp [fill?, hs', hheight, hfilled], hkept, fun k hk => ?_,
      fun k hk hlt => ?_⟩
    · rw [hbefore k (by omega), Array.getElem?_setIfInBounds_ne (by omega)]
    · rcases Nat.lt_or_eq_of_le hk with hgt | rfl
      · exact hafter k hgt hlt
      · refine ⟨s', height, hreached, hheight, ?_⟩
        rw [hbefore i (Nat.lt_succ_self i), Array.getElem?_setIfInBounds_self_of_lt hlt]

/-! ### Heights -/

/-- The height at a place on the line from one point to the next. -/
def between (args : List Float32) (s : Nat) (place : Float) : Float :=
  y args s + (place - x args s) / (x args (s + 1) - x args s) * (y args (s + 1) - y args s)

/-- The place lies on the line from the point of the given number to the next one. -/
structure Within (args : List Float32) (place : Float) (s : Nat) : Prop where
  next : s + 1 < count args
  behind : x args s < place
  ahead : place ≤ x args (s + 1)

/-- The height is that of the first point up to it, that of the last point behind it, and else that
on the only line that has the place on it. The ends of this line do not have the same place, so that
there is no division by zero. -/
structure OnLines (args : List Float32) (place height : Float) : Prop where
  before : place ≤ x args 0 → height = y args 0
  behind : x args (count args - 1) < place → height = y args (count args - 1)
  within : ¬ place ≤ x args 0 → ¬ x args (count args - 1) < place →
    ∃ s, Within args place s ∧ 0 < x args (s + 1) - x args s ∧ height = between args s place ∧
      ∀ s', Within args place s' → s' = s

/-- A place lies on one line only. A line before this one ends before the place, and one behind it
begins behind the place. -/
theorem Within.unique {s' : Nat} (hx : Ascending args) (h : Within args place s)
    (h' : Within args place s') : s' = s := by
  rcases Nat.lt_trichotomy s' s with hless | heq | hgreater
  · have hle := hx (s' + 1) s hless (Nat.lt_of_succ_lt h.next)
    exact absurd (double_lt_of_lt_of_le (double_lt_of_le_of_lt hle h.behind) h'.ahead)
      (double_lt_irrefl _)
  · exact heq
  · have hle := hx (s + 1) s' hgreater (Nat.lt_of_succ_lt h'.next)
    exact absurd (double_lt_of_lt_of_le (double_lt_of_le_of_lt hle h'.behind) h.ahead)
      (double_lt_irrefl _)

/-- With the cursor on the last point behind a place, the height is that on the lines. -/
theorem Reached.onLines {height : Float} (h : Reached args s place) (hx : Ascending args)
    (hplace : place ≤ place) (hheight : height? args place s = some height) :
    OnLines args place height := by
  have hpos : 0 < count args := Nat.zero_lt_of_lt h.lt
  have hlast : count args - 1 < count args := Nat.sub_one_lt_of_lt h.lt
  obtain ⟨hx₀, hy₀⟩ := lookup?_of_lt hpos
  obtain ⟨hxs, hys⟩ := lookup?_of_lt h.lt
  by_cases hbefore : place ≤ x args 0
  · have hfirst : height = y args 0 := by simpa [height?, hx₀, hy₀, hbefore] using hheight.symm
    refine ⟨fun _ => hfirst, fun hlt => ?_, fun hnot => absurd hbefore hnot⟩
    have hle := hx 0 _ (Nat.zero_le _) hlast
    exact absurd (double_lt_of_lt_of_le (double_lt_of_le_of_lt hle hlt) hbefore)
      (double_lt_irrefl _)
  · have hbehind : x args s < place := by
      rcases h.behind with rfl | hlt
      · exact (double_le_or_lt hplace (hx 0 0 (Nat.le_refl 0) hpos)).resolve_left hbefore
      · exact hlt
    by_cases hend : s = count args - 1
    · -- The place lies behind the last point.
      have hheight : height = y args s := by
        simpa [height?, hx₀, hys, hbefore, ← hend] using hheight.symm
      rw [hend] at hheight hbehind
      exact ⟨fun hle => absurd hle hbefore, fun _ => hheight, fun _ hnot => absurd hbehind hnot⟩
    · have hnext : s + 1 < count args := by have := h.lt; omega
      have hnumber := hx (s + 1) (s + 1) (Nat.le_refl _) hnext
      have hwithin : Within args place s :=
        ⟨hnext, hbehind, (double_le_or_lt hplace hnumber).resolve_right (h.ahead hnext)⟩
      have hlt := double_lt_of_lt_of_le hbehind hwithin.ahead
      obtain ⟨hx₁, hy₁⟩ := lookup?_of_lt hnext
      have hheight : height = between args s place := by
        simpa [height?, hx₀, hxs, hys, hx₁, hy₁, hbefore, hend, double_beq_eq_false hlt, between]
          using hheight.symm
      refine ⟨fun hle => absurd hle hbefore, fun hbeyond => ?_, fun _ _ =>
        ⟨s, hwithin, double_sub_pos hlt, hheight, fun _ h' => hwithin.unique hx h'⟩⟩
      have hle := hx (s + 1) _ (by omega) hlast
      exact absurd (double_lt_of_le_of_lt hle hbeyond) (h.ahead hnext)

end Breakpoint

/-- A table can be filled by any generator with any arguments. -/
theorem Generator.exists_fill? (g : Generator) (table : Array Float32) (args : List Float32) :
    ∃ filled, g.fill? table args = some filled := by
  cases g with
  | empty | data | harm => exact ⟨_, rfl⟩
  | lineseg =>
    rw [fill?]
    split
    next => exact ⟨_, rfl⟩
    next hsome =>
      have hkept : Breakpoint.Kept args 0 (Float.ofNat 0) := ⟨Nat.pos_of_ne_zero hsome, .inl rfl⟩
      obtain ⟨filled, hfilled, -⟩ := hkept.exists_fill? (Nat.zero_add table.size)
      exact ⟨filled, hfilled⟩

/-- Let a table be filled with lines between points, at least one of them, whose places do not
decrease: no point is looked up that is not there, every element of the table is written, and it is
the height of its number on these lines. -/
theorem Generator.lineseg_follows_points (table : Array Float32) (args : List Float32)
    (hne : 1 ≤ Breakpoint.count args) (hx : Breakpoint.Ascending args) :
    ∃ filled, Generator.lineseg.fill? table args = some filled ∧ filled.size = table.size ∧
      ∀ i < table.size, ∃ height, filled[i]? = some (Number.narrow height) ∧
        Breakpoint.OnLines args (Float.ofNat i) height := by
  have hkept : Breakpoint.Kept args 0 (Float.ofNat 0) := ⟨hne, .inl rfl⟩
  obtain ⟨filled, hfilled, hsize, -, helements⟩ :=
    hkept.exists_fill? (Nat.zero_add table.size)
  refine ⟨filled, ?_, hsize, fun i hi => ?_⟩
  · rw [fill?, if_neg (Nat.ne_of_gt hne)]
    exact hfilled
  · obtain ⟨s, height, hs, hheight, helement⟩ := helements i (Nat.zero_le i) hi
    exact ⟨height, helement, hs.onLines hx (double_ofNat_mono (Nat.le_refl i)) hheight⟩

/-- Points of the same place make a step: a line from `(1, 5)` to `(3, 7)`, and nine behind it. -/
theorem Generator.lineseg_follows_points_step :
    Generator.lineseg.fill? #[0, 0, 0, 0, 0] [1, 5, 3, 7, 3, 9] = some #[5, 5, 6, 7, 9] ∧
      ∀ i < 5, ∃ height, (#[5, 5, 6, 7, 9] : Array Float32)[i]? = some (Number.narrow height) ∧
        Breakpoint.OnLines [1, 5, 3, 7, 3, 9] (Float.ofNat i) height := by
  have hx : Breakpoint.Ascending [1, 5, 3, 7, 3, 9] := by
    have hplaces : ∀ j < 3, ∀ i ≤ j, Breakpoint.x [1, 5, 3, 7, 3, 9] i ≤
        Breakpoint.x [1, 5, 3, 7, 3, 9] j := by decide +kernel
    exact fun i j hij hj => hplaces j hj i hij
  have hfilled : Generator.lineseg.fill? #[0, 0, 0, 0, 0] [1, 5, 3, 7, 3, 9] =
      some #[5, 5, 6, 7, 9] := by decide +kernel
  obtain ⟨filled, hfill, -, helements⟩ :=
    Generator.lineseg_follows_points #[0, 0, 0, 0, 0] [1, 5, 3, 7, 3, 9] (by decide) hx
  cases hfilled.symm.trans hfill
  exact ⟨hfilled, helements⟩

end Orchestrion
