import Mathlib.Algebra.Order.Ring.Int
import Mathlib.Data.List.Perm.Basic
import Mathlib.Logic.Function.Basic

/-!
# Reference counts

Objects that count the references to them.  When every object that exists has as its count the number
of references to it, and every reference is to an object that exists (`Counted`), then an object with
the count zero can be deleted: no reference is left to it (`Counted.not_mem`).  Creating an object,
taking a reference and giving one back keep the counts.
-/

universe u

namespace RefCount

variable {ι : Type u} [DecidableEq ι] {count : ι → Option ℤ} {refs refs' : List ι} {i : ι} {n : ℤ}

/-- The counts of the objects that exist are the numbers of references to them, and there are no
other references. -/
structure Counted (count : ι → Option ℤ) (refs : List ι) : Prop where
  exists_count : ∀ i ∈ refs, ∃ n, count i = some n
  eq_count : ∀ i n, count i = some n → n = refs.count i

theorem Counted.nonneg (h : Counted count refs) (hi : count i = some n) : 0 ≤ n := by
  rw [h.eq_count i n hi]
  exact Int.natCast_nonneg _

/-- Nothing refers to an object with the count zero. -/
theorem Counted.not_mem (h : Counted count refs) (hi : count i = some n) (hn : n ≤ 0) :
    i ∉ refs := by
  have heq := h.eq_count i n hi
  rw [← List.count_eq_zero]
  omega

theorem Counted.perm (h : Counted count refs) (hperm : refs.Perm refs') : Counted count refs' where
  exists_count i hi := h.exists_count i (hperm.mem_iff.2 hi)
  eq_count i n hi := by rw [h.eq_count i n hi, hperm.count_eq]

/-- The first reference comes with the object. -/
theorem Counted.create (h : Counted count refs) (hi : count i = none) :
    Counted (Function.update count i (some 1)) (i :: refs) := by
  have hnot : i ∉ refs := by
    intro hmem
    obtain ⟨n, hn⟩ := h.exists_count i hmem
    cases hi.symm.trans hn
  refine ⟨fun j hj ↦ ?_, fun j n hj ↦ ?_⟩
  · by_cases hji : j = i
    · exact ⟨1, by rw [hji, Function.update_self]⟩
    · rw [Function.update_of_ne hji]
      exact h.exists_count j ((List.mem_cons.1 hj).resolve_left hji)
  · by_cases hji : j = i
    · rw [hji, Function.update_self] at hj
      rw [hji, List.count_cons_self, List.count_eq_zero.2 hnot]
      exact (Option.some.inj hj).symm
    · rw [Function.update_of_ne hji] at hj
      rw [List.count_cons_of_ne (Ne.symm hji)]
      exact h.eq_count j n hj

/-- A reference is taken. -/
theorem Counted.addRef (h : Counted count refs) (hi : count i = some n) :
    Counted (Function.update count i (some (n + 1))) (i :: refs) := by
  refine ⟨fun j hj ↦ ?_, fun j m hj ↦ ?_⟩
  · by_cases hji : j = i
    · exact ⟨n + 1, by rw [hji, Function.update_self]⟩
    · rw [Function.update_of_ne hji]
      exact h.exists_count j ((List.mem_cons.1 hj).resolve_left hji)
  · by_cases hji : j = i
    · rw [hji, Function.update_self] at hj
      rw [hji, List.count_cons_self, ← Option.some.inj hj, h.eq_count i n hi]
      exact (Nat.cast_succ _).symm
    · rw [Function.update_of_ne hji] at hj
      rw [List.count_cons_of_ne (Ne.symm hji)]
      exact h.eq_count j m hj

/-- A reference is given back. -/
theorem Counted.release (h : Counted count (i :: refs)) (hi : count i = some n) :
    Counted (Function.update count i (some (n - 1))) refs := by
  refine ⟨fun j hj ↦ ?_, fun j m hj ↦ ?_⟩
  · by_cases hji : j = i
    · exact ⟨n - 1, by rw [hji, Function.update_self]⟩
    · rw [Function.update_of_ne hji]
      exact h.exists_count j (List.mem_cons_of_mem _ hj)
  · by_cases hji : j = i
    · rw [hji, Function.update_self] at hj
      rw [hji, ← Option.some.inj hj, h.eq_count i n hi, List.count_cons_self]
      omega
    · rw [Function.update_of_ne hji] at hj
      rw [← List.count_cons_of_ne (Ne.symm hji)]
      exact h.eq_count j m hj

/-- References are taken to all of a list. -/
theorem Counted.addRefs (h : Counted count refs) {l : List ι} (hl : ∀ i ∈ l, ∃ n, count i = some n) :
    Counted (fun i ↦ (count i).map (· + l.count i)) (l ++ refs) := by
  refine ⟨fun i hi ↦ ?_, fun i m hi ↦ ?_⟩
  · obtain ⟨n, hn⟩ : ∃ n, count i = some n := by
      rcases List.mem_append.1 hi with hi | hi
      · exact hl i hi
      · exact h.exists_count i hi
    exact ⟨n + l.count i, by rw [hn, Option.map_some]⟩
  · obtain ⟨n, hn, rfl⟩ := Option.map_eq_some_iff.1 hi
    rw [List.count_append, h.eq_count i n hn, Nat.cast_add, add_comm]

/-- The references to all of a list are given back. -/
theorem Counted.releaseAll {l : List ι} (h : Counted count (l ++ refs)) :
    Counted (fun i ↦ (count i).map (· - l.count i)) refs := by
  refine ⟨fun i hi ↦ ?_, fun i m hi ↦ ?_⟩
  · obtain ⟨n, hn⟩ := h.exists_count i (List.mem_append_right _ hi)
    exact ⟨n - l.count i, by rw [hn, Option.map_some]⟩
  · obtain ⟨n, hn, rfl⟩ := Option.map_eq_some_iff.1 hi
    rw [h.eq_count i n hn, List.count_append, Nat.cast_add, add_sub_cancel_left]

/-- An object that nothing refers to is deleted. -/
theorem Counted.delete (h : Counted count refs) (hnot : i ∉ refs) :
    Counted (Function.update count i none) refs := by
  refine ⟨fun j hj ↦ ?_, fun j m hj ↦ ?_⟩
  · have hji : j ≠ i := fun hji ↦ hnot (hji ▸ hj)
    rw [Function.update_of_ne hji]
    exact h.exists_count j hj
  · by_cases hji : j = i
    · rw [hji, Function.update_self] at hj
      cases hj
    · rw [Function.update_of_ne hji] at hj
      exact h.eq_count j m hj

end RefCount
