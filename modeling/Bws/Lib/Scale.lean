import Mathlib.Order.Nat
import Mathlib.Algebra.Order.Group.Nat

/-!
# Numbers cut to their leading digits

A format that keeps the size of a number and its leading digits has a unit for each size, and a number
is cut to a multiple of the unit of its size.  A larger size has a larger unit, but its least number
is a multiple of it, so that nothing is cut below a smaller size: cutting is monotone.
-/

/-- The sizes of the numbers, the least number of each, and the unit that it is cut to. -/
structure Scale where
  size : ℕ → ℕ
  low : ℕ → ℕ
  unit : ℕ → ℕ
  low_pos : ∀ s, 0 < low s
  unit_dvd_low : ∀ s, unit s ∣ low s
  low_size_le : ∀ {n}, 0 < n → low (size n) ≤ n
  lt_low : ∀ {n s}, size n < s → n < low s
  size_mono : Monotone size

namespace Scale

variable (S : Scale) {n m : ℕ}

/-- A number cut to its leading digits. -/
def cut (n : ℕ) : ℕ := n / S.unit (S.size n) * S.unit (S.size n)

theorem cut_le (n : ℕ) : S.cut n ≤ n := Nat.div_mul_le_self n _

/-- What is left is a number of the same size. -/
theorem low_le_cut (hn : 0 < n) : S.low (S.size n) ≤ S.cut n := by
  obtain ⟨k, hk⟩ := S.unit_dvd_low (S.size n)
  have hpos : 0 < S.unit (S.size n) := Nat.pos_of_dvd_of_pos ⟨k, hk⟩ (S.low_pos _)
  have hle : S.unit (S.size n) * k ≤ n := hk ▸ S.low_size_le hn
  rw [hk, mul_comm, cut]
  exact Nat.mul_le_mul_right _ ((Nat.le_div_iff_mul_le hpos).2 (mul_comm _ k ▸ hle))

theorem cut_pos (hn : 0 < n) : 0 < S.cut n := (S.low_pos _).trans_le (S.low_le_cut hn)

theorem cut_mono : Monotone S.cut := by
  intro n m hnm
  rcases (S.size_mono hnm).eq_or_lt with heq | hlt
  · rw [cut, cut, heq]
    exact Nat.mul_le_mul_right _ (Nat.div_le_div_right hnm)
  · have hless : n < S.low (S.size m) := S.lt_low hlt
    have hpos : 0 < m := by
      rcases Nat.eq_zero_or_pos m with rfl | hm
      · rw [Nat.le_zero.1 hnm] at hlt
        exact absurd hlt (lt_irrefl _)
      · exact hm
    exact (S.cut_le n).trans (hless.le.trans (S.low_le_cut hpos))

end Scale
