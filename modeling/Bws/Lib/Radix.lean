import Mathlib

/-!
# From one base to another

The digits of a number in one base are turned into those in another, highest first.  Zeros in front
are no part of the number and are kept one for one; so nothing is lost, and the way back gives the
digits again (`convert_convert`).
-/

namespace Radix

/-- How many zeros are in front. -/
def leadingZeros : List ℕ → ℕ
  | [] => 0
  | d :: l => if d = 0 then leadingZeros l + 1 else 0

/-- The number that digits stand for, the highest first. -/
def value (a : ℕ) (l : List ℕ) : ℕ := Nat.ofDigits a l.reverse

/-- The digits of a number, the highest first. -/
def digits (b n : ℕ) : List ℕ := (Nat.digits b n).reverse

/-- The digits in the base `b` for digits in the base `a`. -/
def convert (a b : ℕ) (l : List ℕ) : List ℕ :=
  List.replicate (leadingZeros l) 0 ++ digits b (value a l)

variable {a b : ℕ}

theorem value_replicate_append (k : ℕ) (l : List ℕ) :
    value a (List.replicate k 0 ++ l) = value a l := by
  rw [value, List.reverse_append, List.reverse_replicate, Nat.ofDigits_append_replicate_zero, value]

theorem value_digits (n : ℕ) : value b (digits b n) = n := by
  rw [value, digits, List.reverse_reverse, Nat.ofDigits_digits]

theorem value_append_singleton (l : List ℕ) (d : ℕ) : value a (l ++ [d]) = value a l * a + d := by
  rw [value, List.reverse_append, List.reverse_singleton, List.singleton_append, Nat.ofDigits_cons,
    value]
  ring

/-- Digits are zeros, and digits without zeros in front. -/
theorem eq_replicate_append (l : List ℕ) : ∃ m, l = List.replicate (leadingZeros l) 0 ++ m ∧
    leadingZeros m = 0 := by
  induction l with
  | nil => exact ⟨[], rfl, rfl⟩
  | cons d l ih =>
    by_cases hd : d = 0
    · obtain ⟨m, hm, hzero⟩ := ih
      refine ⟨m, ?_, hzero⟩
      rw [leadingZeros, if_pos hd, List.replicate_succ, List.cons_append, ← hm, hd]
    · exact ⟨d :: l, by rw [leadingZeros, if_neg hd]; rfl, if_neg hd⟩

theorem leadingZeros_replicate_append (k : ℕ) (l : List ℕ) :
    leadingZeros (List.replicate k 0 ++ l) = k + leadingZeros l := by
  induction k with
  | zero => rw [List.replicate_zero, List.nil_append, Nat.zero_add]
  | succ k ih =>
    rw [List.replicate_succ, List.cons_append, leadingZeros, if_pos rfl, ih]
    omega

theorem leadingZeros_digits (b n : ℕ) : leadingZeros (digits b n) = 0 := by
  rcases hd : digits b n with - | ⟨d, l⟩
  · rfl
  have hn : n ≠ 0 := by
    rintro rfl
    rw [digits, Nat.digits_zero] at hd
    cases hd
  have hrev : Nat.digits b n = l.reverse ++ [d] := by
    rw [← List.reverse_cons, ← hd, digits, List.reverse_reverse]
  have hlast := Nat.getLast_digit_ne_zero b hn
  simp only [hrev, List.getLast_append_singleton] at hlast
  exact if_neg hlast

/-- Digits without a zero in front are those of their number. -/
theorem digits_value (ha : 1 < a) {l : List ℕ} (hl : ∀ d ∈ l, d < a) (hzero : leadingZeros l = 0) :
    digits a (value a l) = l := by
  rw [digits, value, Nat.digits_ofDigits a ha, List.reverse_reverse]
  · exact fun d hd ↦ hl d (List.mem_reverse.1 hd)
  · intro hne
    rcases l with - | ⟨d, l⟩
    · exact absurd rfl hne
    · rw [List.getLast_reverse]
      rintro h
      rw [leadingZeros] at hzero
      change d = 0 at h
      rw [if_pos h] at hzero
      exact Nat.succ_ne_zero _ hzero

theorem digit_lt (hb : 1 < b) {n : ℕ} : ∀ d ∈ digits b n, d < b :=
  fun _ hd ↦ Nat.digits_lt_base hb (List.mem_reverse.1 hd)

theorem convert_lt (hb : 1 < b) {l : List ℕ} : ∀ d ∈ convert a b l, d < b := by
  intro d hd
  rcases List.mem_append.1 hd with hd | hd
  · rw [List.eq_of_mem_replicate hd]
    omega
  · exact digit_lt hb d hd

/-- **Nothing is lost on the way.** -/
theorem convert_convert (ha : 1 < a) {l : List ℕ} (hl : ∀ d ∈ l, d < a) :
    convert b a (convert a b l) = l := by
  obtain ⟨m, hm, hzero⟩ := eq_replicate_append l
  have hmem : ∀ d ∈ m, d < a := fun d hd ↦ hl d (hm ▸ List.mem_append_right _ hd)
  have hvalue : value a l = value a m := by rw [hm, value_replicate_append]
  rw [convert, convert, leadingZeros_replicate_append, leadingZeros_digits, value_replicate_append,
    value_digits, hvalue, digits_value ha hmem hzero, Nat.add_zero]
  exact hm.symm

end Radix
