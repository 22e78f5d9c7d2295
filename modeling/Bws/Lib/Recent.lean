import Mathlib.Data.List.Nodup
import Mathlib.Tactic.SplitIfs

/-!
# The most recent elements

A bounded memory takes up elements one after another and forgets the oldest one when it is full.
What it holds is a window at the end of the history of what it has taken up (`window_concat`).  When
nothing is taken up that it holds, an element comes back only after a whole window of others
(`Spaced`), so that the window holds no element twice (`Spaced.nodup_window`).
-/

universe u

namespace Recent

variable {α : Type u} {n : ℕ} {l : List α} {x : α}

/-- The last `n` elements of a history, or all of it when `n` is zero. -/
def window (n : ℕ) (l : List α) : List α := if n = 0 then l else l.drop (l.length - n)

/-- Between two occurrences of an element there are `n` others, and with `n = 0` there are no two. -/
def Spaced (n : ℕ) (l : List α) : Prop :=
  ∀ i j x, i < j → l[i]? = some x → l[j]? = some x → n ≠ 0 ∧ i + n < j

theorem window_nil (n : ℕ) : window n ([] : List α) = [] := by
  rw [window, List.drop_nil, ite_self]

theorem window_suffix (n : ℕ) (l : List α) : window n l <:+ l := by
  rw [window]
  split_ifs
  · exact List.suffix_rfl
  · exact List.drop_suffix _ _

/-- A full window loses its first element when it takes up another. -/
theorem window_concat (n : ℕ) (l : List α) (x : α) : window n (l ++ [x]) =
    (if n ≠ 0 ∧ (window n l).length = n then (window n l).tail else window n l) ++ [x] := by
  have hlen : (l ++ [x]).length = l.length + 1 := List.length_append
  by_cases hn : n = 0
  · rw [window, if_pos hn, if_neg (fun h ↦ h.1 hn), window, if_pos hn]
  rw [window, if_neg hn, window, if_neg hn, hlen, List.length_drop]
  split_ifs with hfull
  · rw [List.tail_drop, List.drop_append_of_le_length (by omega)]
    congr 2
    omega
  · have hshort : l.length < n := by
      by_contra hge
      exact hfull ⟨hn, by omega⟩
    rw [Nat.sub_eq_zero_of_le hshort, Nat.sub_eq_zero_of_le (Nat.le_of_lt hshort), List.drop_zero,
      List.drop_zero]

theorem spaced_nil (n : ℕ) : Spaced n ([] : List α) := by
  intro i j x _ hi
  rw [List.getElem?_nil] at hi
  cases hi

/-- What the window does not hold can be taken up. -/
theorem Spaced.concat (h : Spaced n l) (hx : x ∉ window n l) : Spaced n (l ++ [x]) := by
  intro i j y hij hi hj
  have hjlt : j < (l ++ [x]).length := (List.getElem?_eq_some_iff.1 hj).1
  rw [List.length_append, List.length_singleton] at hjlt
  rw [List.getElem?_append_left (by omega)] at hi
  rcases Nat.lt_succ_iff_lt_or_eq.1 hjlt with hlt | rfl
  · rw [List.getElem?_append_left hlt] at hj
    exact h i j y hij hi hj
  · obtain rfl : x = y := by simpa using hj
    rw [window] at hx
    split_ifs at hx with hn
    · exact absurd (List.mem_of_getElem? hi) hx
    · refine ⟨hn, ?_⟩
      by_contra hle
      refine hx (List.mem_of_getElem? (i := i - (l.length - n)) ?_)
      rw [List.getElem?_drop, ← hi]
      congr 1
      omega

theorem Spaced.nodup_window (h : Spaced n l) : (window n l).Nodup := by
  refine List.nodup_iff_getElem?_ne_getElem?.2 fun i j hij hj heq ↦ ?_
  obtain ⟨y, hy⟩ : ∃ y, (window n l)[j]? = some y := ⟨_, List.getElem?_eq_getElem hj⟩
  rw [hy] at heq
  rw [window] at hj heq hy
  split_ifs at hj heq hy with hn
  · exact (h i j y hij heq hy).1 hn
  · rw [List.getElem?_drop] at heq hy
    rw [List.length_drop] at hj
    have hfar := (h _ _ y (by omega) heq hy).2
    omega

end Recent
