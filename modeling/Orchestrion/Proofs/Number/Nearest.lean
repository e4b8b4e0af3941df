import Orchestrion.Machine.Lifetime
import Orchestrion.Proofs.Number.Sign

/-!
# The ticks of times

A double has 53 significant bits, so that of its values below the limit of a word the greatest is
well below it. No time lies at the tick that stands for an end that never comes, nor just before it.

Main results:

* `Settings.toInt_ticks_le`: the greatest tick of a time.
-/

namespace Orchestrion

namespace Number

theorem mul_pow_le {m e : Nat} (hm : m < 2 ^ 53) (h : m * 2 ^ e < 2 ^ 63) :
    m * 2 ^ e ≤ 2 ^ 63 - 2 ^ 10 := by
  by_cases he : e < 10
  · calc
      m * 2 ^ e ≤ (2 ^ 53 - 1) * 2 ^ 10 :=
        Nat.mul_le_mul (Nat.le_pred_of_lt hm) (Nat.pow_le_pow_right (by decide) (by omega))
      _ = 2 ^ 63 - 2 ^ 10 := by decide
  · -- From here on the number is a multiple of 1024.
    obtain ⟨k, rfl⟩ := Nat.exists_eq_add_of_le (Nat.le_of_not_lt he)
    rw [Nat.pow_add, Nat.mul_left_comm] at h ⊢
    omega

theorem Binary.nearest_le {b : Binary} (hb : b.mantissa < 2 ^ 53) (h : b.nearest < 2 ^ 63) :
    b.nearest ≤ 2 ^ 63 - 2 ^ 10 := by
  unfold nearest signed at h ⊢
  simp only [Nat.pow_eq] at h ⊢
  by_cases hnegative : b.negative = true
  · rw [if_pos hnegative]
    omega
  · rw [if_neg hnegative] at h ⊢
    by_cases hexponent : 0 ≤ b.exponent
    · rw [if_pos hexponent] at h ⊢
      have hle := mul_pow_le hb (by exact_mod_cast h)
      omega
    · rw [if_neg hexponent]
      -- A number with a fractional part is not greater than its scaled part.
      have hpos : 0 < 2 ^ (-b.exponent).toNat := Nat.two_pow_pos _
      have hle : (2 * b.mantissa + 2 ^ (-b.exponent).toNat) / 2 ^ ((-b.exponent).toNat + 1) ≤
          b.mantissa + 1 := by
        apply Nat.div_le_of_le_mul
        rw [Nat.pow_succ]
        nlinarith
      omega

theorem toInt_nearestWord_le (x : Float) : (nearestWord x).toInt ≤ 2 ^ 63 - 2 ^ 10 := by
  unfold nearestWord wordOfInt
  have hmin : Int64.minValue.toInt ≤ 2 ^ 63 - 2 ^ 10 := by decide
  split
  next b hb =>
    split
    next hfits =>
      have hmax : Int64.maxValue.toInt = 2 ^ 63 - 1 := by decide
      rw [Int64.toInt_ofInt_of_le hfits.1 (by omega)]
      exact Binary.nearest_le (Binary.mantissa_lt hb) (by omega)
    next => exact hmin
  next => exact hmin

end Number

theorem Settings.toInt_ticks_le (s : Settings) (seconds : Float) :
    (s.ticks seconds).toInt ≤ 2 ^ 63 - 2 ^ 10 :=
  Number.toInt_nearestWord_le _

end Orchestrion
