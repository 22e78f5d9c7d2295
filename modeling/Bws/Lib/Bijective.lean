import Mathlib

/-!
# Bijective notation

Digits in a base, where one is added to every digit but the lowest.  Then a leading zero counts, and
two lists of digits never stand for the same number (`value_inj`).
-/

namespace Bijective

/-- The number that digits stand for, the lowest first. -/
def value (B : ℕ) : List ℕ → ℕ
  | [] => 0
  | [d] => d
  | d :: e :: l => d + B * (value B (e :: l) + 1)

variable {B : ℕ} {l m : List ℕ}

theorem value_cons (d : ℕ) (hl : l ≠ []) : value B (d :: l) = d + B * (value B l + 1) := by
  obtain ⟨e, l, rfl⟩ := List.exists_cons_of_ne_nil hl
  rfl

/-- A digit above the others. -/
theorem value_concat (hl : l ≠ []) (d : ℕ) :
    value B (l ++ [d]) = value B l + B ^ l.length * (d + 1) := by
  induction l with
  | nil => exact absurd rfl hl
  | cons e l ih =>
    by_cases hnil : l = []
    · subst hnil
      show e + B * (d + 1) = e + B ^ 1 * (d + 1)
      rw [pow_one]
    · rw [List.cons_append, value_cons e (by simp), ih hnil, value_cons e hnil, List.length_cons]
      ring

/-- Every digit adds at least its weight. -/
theorem pow_le_value_succ (hl : l ≠ []) : B ^ (l.length - 1) ≤ value B l + 1 := by
  induction l with
  | nil => exact absurd rfl hl
  | cons d l ih =>
    by_cases hnil : l = []
    · subst hnil
      exact Nat.le_add_left _ _
    · have hpos : 0 < l.length := List.length_pos_iff.2 hnil
      rw [value_cons d hnil, List.length_cons, Nat.add_sub_cancel]
      calc B ^ l.length = B * B ^ (l.length - 1) := by rw [← pow_succ', Nat.sub_add_cancel hpos]
        _ ≤ B * (value B l + 1) := Nat.mul_le_mul_left _ (ih hnil)
        _ ≤ d + B * (value B l + 1) + 1 := by omega

/-- A number below a power has no more digits than the exponent. -/
theorem length_le (hB : 1 < B) {k : ℕ} (hk : 0 < k) (h : value B l < B ^ k) : l.length ≤ k := by
  rcases l with - | ⟨d, l⟩
  · exact Nat.zero_le _
  by_cases hnil : l = []
  · rw [hnil]
    exact hk
  have hpos : 0 < l.length := List.length_pos_iff.2 hnil
  have hpow : B ^ l.length ≤ value B (d :: l) := by
    rw [value_cons d hnil]
    calc B ^ l.length = B * B ^ (l.length - 1) := by rw [← pow_succ', Nat.sub_add_cancel hpos]
      _ ≤ B * (value B l + 1) := Nat.mul_le_mul_left _ (pow_le_value_succ hnil)
      _ ≤ d + B * (value B l + 1) := Nat.le_add_left _ _
  exact (Nat.pow_lt_pow_iff_right hB).1 (hpow.trans_lt h)

/-- **Two lists of digits stand for two numbers.** -/
theorem value_inj (hl : l ≠ []) (hm : m ≠ []) (hlB : ∀ d ∈ l, d < B) (hmB : ∀ d ∈ m, d < B)
    (h : value B l = value B m) : l = m := by
  induction l generalizing m with
  | nil => exact absurd rfl hl
  | cons d l ih =>
    obtain ⟨e, m, rfl⟩ := List.exists_cons_of_ne_nil hm
    obtain ⟨hd, hlB'⟩ := List.forall_mem_cons.1 hlB
    obtain ⟨he, hmB'⟩ := List.forall_mem_cons.1 hmB
    by_cases hl' : l = []
    · subst hl'
      by_cases hm' : m = []
      · subst hm'
        exact congrArg (fun x ↦ [x]) h
      · rw [value_cons e hm'] at h
        have hle : B * 1 ≤ B * (value B m + 1) := Nat.mul_le_mul_left _ (Nat.le_add_left _ _)
        change d = _ at h
        omega
    · rw [value_cons d hl'] at h
      by_cases hm' : m = []
      · subst hm'
        have hle : B * 1 ≤ B * (value B l + 1) := Nat.mul_le_mul_left _ (Nat.le_add_left _ _)
        change _ = e at h
        omega
      · rw [value_cons e hm'] at h
        have hdigit : d = e := by
          have hmod := congrArg (· % B) h
          simpa only [Nat.add_mul_mod_self_left, Nat.mod_eq_of_lt hd, Nat.mod_eq_of_lt he]
            using hmod
        subst hdigit
        have hrest : value B l = value B m := by
          have hmul := Nat.add_left_cancel h
          have hpos : 0 < B := Nat.zero_lt_of_lt hd
          exact Nat.succ_inj.1 (Nat.eq_of_mul_eq_mul_left hpos hmul)
        rw [ih hl' hm' hlB' hmB' hrest]

end Bijective
