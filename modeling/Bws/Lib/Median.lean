import Mathlib.Data.List.Sort

/-!
# The median of a list

An element of a list is a median when more than half of the elements are at most it and more than
half are at least it.  The middle element of a sorted list of odd length is one, and the median is
the least element of the order exactly when that element makes up more than half of the list.
-/

universe u

namespace Median

variable {α : Type u} (r : α → α → Prop) [DecidableRel r]

structure IsMedian (x : α) (l : List α) : Prop where
  mem : x ∈ l
  below : l.length < 2 * l.countP (r · x)
  above : l.length < 2 * l.countP (r x ·)

variable {r} {l l' : List α} {x b : α}

theorem IsMedian.perm (h : IsMedian r x l) (hperm : l.Perm l') : IsMedian r x l' where
  mem := hperm.mem_iff.1 h.mem
  below := by
    rw [← hperm.length_eq, ← hperm.countP_eq]
    exact h.below
  above := by
    rw [← hperm.length_eq, ← hperm.countP_eq]
    exact h.above

/-- In a sorted list the elements below a bound come first. -/
theorem rel_getElem_iff [IsTrans α r] (hl : l.Pairwise r) :
    ∀ {i : ℕ} (hi : i < l.length) (c : α), r l[i] c ↔ i < l.countP (r · c) := by
  induction hl with
  | nil =>
    intro i hi
    cases hi
  | @cons a l ha _ ih =>
    intro i hi c
    by_cases hac : r a c
    · have hcount : (a :: l).countP (r · c) = l.countP (r · c) + 1 :=
        List.countP_cons_of_pos (decide_eq_true hac)
      rw [hcount]
      cases i with
      | zero => exact iff_of_true hac (Nat.succ_pos _)
      | succ i =>
        rw [List.getElem_cons_succ, ih (Nat.lt_of_succ_lt_succ hi) c]
        exact Nat.succ_lt_succ_iff.symm
    · have hnone : (a :: l).countP (r · c) = 0 := by
        rw [List.countP_eq_zero]
        intro d hd
        rcases List.mem_cons.1 hd with rfl | hd
        · simpa using hac
        · simpa using fun hdc ↦ hac (IsTrans.trans a d c (ha d hd) hdc)
      rw [hnone]
      refine iff_of_false (fun hic ↦ hac ?_) (Nat.not_lt_zero i)
      cases i with
      | zero => exact hic
      | succ i => exact IsTrans.trans a _ c (ha _ (List.getElem_mem _)) hic

/-- The middle element is a median. -/
theorem isMedian_getElem [IsTrans α r] [Std.Refl r] (hl : l.Pairwise r) {m : ℕ}
    (hlt : m < l.length) (hm : l.length = 2 * m + 1) : IsMedian r l[m] l := by
  have hrev : m < l.reverse.length := by
    rw [List.length_reverse]
    exact hlt
  have hmid : l.reverse[m] = l[m] := by
    rw [List.getElem_reverse]
    congr 1
    omega
  have hbelow := (rel_getElem_iff hl hlt l[m]).1 (Std.Refl.refl _)
  have : IsTrans α (Function.swap r) := ⟨fun a b c hab hbc ↦ IsTrans.trans c b a hbc hab⟩
  have habove := (rel_getElem_iff (List.pairwise_reverse.2 hl) hrev l[m]).1 (by
    rw [hmid]
    exact Std.Refl.refl _)
  rw [List.countP_reverse] at habove
  exact ⟨List.getElem_mem hlt, by omega, by omega⟩

/-- Two halves have an element in common. -/
theorem exists_of_length_lt {p q : α → Bool} (h : l.length < l.countP p + l.countP q) :
    ∃ a ∈ l, p a = true ∧ q a = true := by
  by_contra hnone
  push Not at hnone
  have hle : l.countP q ≤ l.countP fun a ↦ !p a := by
    refine List.countP_mono_left fun a ha hq ↦ ?_
    by_contra hp
    rw [Bool.not_eq_true, Bool.not_eq_false'] at hp
    exact hnone a ha hp hq
  have hall := List.length_eq_countP_add_countP p (l := l)
  have hnot : (l.countP fun a ↦ decide ¬ p a = true) = l.countP fun a ↦ !p a :=
    List.countP_congr fun a _ ↦ by simp
  omega

/-- A least element is the median when it makes up more than half of the list. -/
theorem IsMedian.eq_least_iff [DecidableEq α] [Std.Antisymm r] (h : IsMedian r x l)
    (hb : ∀ a, r b a) : x = b ↔ l.length < 2 * l.count b := by
  constructor
  · rintro rfl
    have hcount : l.countP (r · x) = l.count x := by
      refine List.countP_congr fun a _ ↦ ?_
      rw [decide_eq_true_eq, beq_iff_eq]
      exact ⟨fun hax ↦ Std.Antisymm.antisymm a x hax (hb a), fun hax ↦ hax ▸ hb a⟩
    rw [← hcount]
    exact h.below
  · intro hcount
    have hab := h.above
    obtain ⟨a, -, hxa, hab⟩ := exists_of_length_lt (l := l) (p := (r x ·)) (q := (· == b)) (by
      rw [List.count] at hcount
      omega)
    rw [beq_iff_eq] at hab
    subst hab
    exact Std.Antisymm.antisymm x a (of_decide_eq_true hxa) (hb x)

end Median
