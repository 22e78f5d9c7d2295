import Mathlib

/-!
# Numbers of several words

A number is kept as its digits in a large base, the least significant first, and every operation is
a loop over the digits.  What such loops do to the number: adding with a carry, the complement,
comparing from the top, and the bits.
-/

namespace Limbs

open Nat (ofDigits)

/-! ## Adding -/

section

variable {B : ℕ} {xs ys : List ℕ}

/-- Adding digit by digit; what is carried out of the last one is lost. -/
def addCarry (B : ℕ) : ℕ → List ℕ → List ℕ → List ℕ
  | c, x :: xs, y :: ys => (c + x + y) % B :: addCarry B ((c + x + y) / B) xs ys
  | _, _, _ => []

theorem ofDigits_addCarry (hB : 0 < B) (hlen : xs.length = ys.length) (c : ℕ) :
    ofDigits B (addCarry B c xs ys) = (c + ofDigits B xs + ofDigits B ys) % B ^ xs.length := by
  induction xs generalizing ys c with
  | nil =>
    rw [List.length_nil, pow_zero, Nat.mod_one]
    rfl
  | cons x xs ih =>
    rcases ys with - | ⟨y, ys⟩
    · cases hlen
    have hsum : c + (x + B * ofDigits B xs) + (y + B * ofDigits B ys) =
        c + x + y + B * (ofDigits B xs + ofDigits B ys) := by ring
    rw [addCarry, Nat.ofDigits_cons, Nat.ofDigits_cons, Nat.ofDigits_cons,
      ih (Nat.succ.inj hlen), hsum, List.length_cons, pow_succ', Nat.mod_mul,
      Nat.add_mul_mod_self_left, Nat.add_mul_div_left _ _ hB, ← add_assoc]

/-! ## The complement -/

theorem ofDigits_complement (hxs : ∀ x ∈ xs, x < B) :
    ofDigits B (xs.map fun x ↦ B - 1 - x) + ofDigits B xs + 1 = B ^ xs.length := by
  induction xs with
  | nil => rfl
  | cons x xs ih =>
    have hx := hxs x List.mem_cons_self
    have htail := ih fun y hy ↦ hxs y (List.mem_cons_of_mem _ hy)
    have hdigit : B - 1 - x + x + 1 = B := by omega
    rw [List.map_cons, Nat.ofDigits_cons, Nat.ofDigits_cons, List.length_cons, pow_succ', ← htail]
    calc B - 1 - x + B * ofDigits B (xs.map fun x ↦ B - 1 - x) + (x + B * ofDigits B xs) + 1
        = B - 1 - x + x + 1 +
            B * (ofDigits B (xs.map fun x ↦ B - 1 - x) + ofDigits B xs) := by ring
      _ = B * (ofDigits B (xs.map fun x ↦ B - 1 - x) + ofDigits B xs + 1) := by
        rw [hdigit]
        ring

/-! ## Comparing -/

/-- The most significant digit that differs decides. -/
theorem ofDigits_concat_lt (hB : 1 < B) (hxs : ∀ x ∈ xs, x < B) (hlen : xs.length = ys.length)
    {x y : ℕ} (hxy : x < y) : ofDigits B (xs ++ [x]) < ofDigits B (ys ++ [y]) := by
  rw [Nat.ofDigits_append, Nat.ofDigits_append, Nat.ofDigits_singleton, Nat.ofDigits_singleton]
  calc ofDigits B xs + B ^ xs.length * x
      < B ^ xs.length + B ^ xs.length * x :=
        Nat.add_lt_add_right (Nat.ofDigits_lt_base_pow_length hB hxs) _
    _ = B ^ xs.length * (x + 1) := by ring
    _ ≤ B ^ ys.length * y := by
      rw [hlen]
      exact Nat.mul_le_mul_left _ hxy
    _ ≤ ofDigits B ys + B ^ ys.length * y := Nat.le_add_left _ _

theorem ofDigits_concat_lt_iff (hlen : xs.length = ys.length) (x : ℕ) :
    ofDigits B (xs ++ [x]) < ofDigits B (ys ++ [x]) ↔ ofDigits B xs < ofDigits B ys := by
  rw [Nat.ofDigits_append, Nat.ofDigits_append, hlen]
  exact Nat.add_lt_add_iff_right

end

/-! ## The bits -/

section

variable {w : ℕ} {xs : List ℕ}

/-- A bit of the number is a bit of one digit. -/
theorem testBit_ofDigits (hw : 0 < w) (hxs : ∀ x ∈ xs, x < 2 ^ w) (j : ℕ) :
    (ofDigits (2 ^ w) xs).testBit j = (xs.getD (j / w) 0).testBit (j % w) := by
  induction xs generalizing j with
  | nil => rw [Nat.ofDigits_nil, Nat.zero_testBit, List.getD_nil, Nat.zero_testBit]
  | cons x xs ih =>
    rw [Nat.ofDigits_cons, add_comm, Nat.testBit_two_pow_mul_add _ (hxs x List.mem_cons_self)]
    split_ifs with hj
    · rw [Nat.div_eq_of_lt hj, Nat.mod_eq_of_lt hj, List.getD_cons_zero]
    · have hle := not_lt.1 hj
      rw [ih fun y hy ↦ hxs y (List.mem_cons_of_mem _ hy), Nat.div_eq_sub_div hw hle,
        List.getD_cons_succ, ← Nat.mod_eq_sub_mod hle]

end

end Limbs
