import Mathlib

/-!
# Looking for a pattern through windows

A pattern is looked for in a long list, of which a window of fixed width is looked at in one go.  A
look finds the pattern, or it says where the next look has to start.  Windows overlap by one element
less than the pattern has, so that no occurrence is missed between two of them (`look_missed`,
`look_found`).
-/

namespace Window

universe u

variable {α : Type u}

/-- What a look at a position comes to: too little is left to look at, or the pattern is found, or the
next look starts further on. -/
inductive Look where
  | ended
  | missed (pos : ℕ)
  | found (pos : ℕ)
deriving DecidableEq

/-- The pattern `first :: rest` occurs at a position. -/
def Occurs (first : α) (rest l : List α) (pos : ℕ) : Prop := first :: rest <+: l.drop pos

/-- The list has an occurrence of the pattern at the first of the positions from `pos` on, which is
`pos'`. -/
structure FirstFrom (first : α) (rest l : List α) (pos pos' : ℕ) : Prop where
  le : pos ≤ pos'
  occurs : Occurs first rest l pos'
  first : ∀ q, pos ≤ q → q < pos' → ¬ Occurs first rest l q

/-- A look at the window of a width at a position, in which more than `least` elements have to be. -/
def look [DecidableEq α] (first : α) (rest : List α) (width least : ℕ) (l : List α) (pos : ℕ) :
    Look :=
  let window := (l.drop pos).take width
  if window.length ≤ least then .ended
  else
    match (window.take (window.length - rest.length)).findIdx? (· = first) with
    | none => .missed (pos + (width - rest.length))
    | some i =>
      if (window.drop i).take (rest.length + 1) = first :: rest then .found (pos + i)
      else .missed (pos + i + 1)

variable {first : α} {rest l : List α} {width least pos : ℕ}

theorem length_window : ((l.drop pos).take width).length = min width (l.length - pos) := by
  rw [List.length_take, List.length_drop]

theorem Occurs.length_le {q : ℕ} (h : Occurs first rest l q) : q + rest.length < l.length := by
  have hle := List.IsPrefix.length_le h
  rw [List.length_drop, List.length_cons] at hle
  omega

theorem Occurs.getElem? {q : ℕ} (h : Occurs first rest l q) : l[q]? = some first := by
  obtain ⟨t, ht⟩ := h
  rw [← List.head?_drop, ← ht]
  rfl

/-- A pattern whose first element is not among the others does not overlap itself. -/
theorem Occurs.apart (hfirst : first ∉ rest) {p q : ℕ} (hp : Occurs first rest l p)
    (hq : Occurs first rest l q) (hlt : p < q) : p + (rest.length + 1) ≤ q := by
  by_contra hnear
  obtain ⟨k, rfl⟩ : ∃ k, q = p + (k + 1) := ⟨q - p - 1, by omega⟩
  obtain ⟨t, ht⟩ := hp
  have hk : k < rest.length := by omega
  have hinside : l[p + (k + 1)]? = rest[k]? := by
    rw [← List.getElem?_drop, ← ht, List.cons_append, List.getElem?_cons_succ,
      List.getElem?_append_left hk]
  rw [hq.getElem?] at hinside
  exact hfirst (List.mem_of_getElem? hinside.symm)

/-- An occurrence that lies in the window is seen there. -/
theorem Occurs.getElem?_window {q : ℕ} (h : Occurs first rest l q) (width : ℕ) (hle : pos ≤ q)
    (hwindow : q + rest.length < pos + width) :
    (((l.drop pos).take width).take (((l.drop pos).take width).length - rest.length))[q - pos]? =
      some first := by
  have hlen := h.length_le
  rw [length_window, List.getElem?_take_of_lt (by omega), List.getElem?_take_of_lt (by omega),
    List.getElem?_drop, Nat.add_sub_cancel' hle]
  exact h.getElem?

/-- The comparison in the window. -/
theorem take_drop_window {i : ℕ} (hi : i + rest.length < min width (l.length - pos)) :
    (((l.drop pos).take width).drop i).take (rest.length + 1) = first :: rest ↔
      Occurs first rest l (pos + i) := by
  rw [List.drop_take, List.take_take, List.drop_drop, min_eq_left (by omega), Occurs,
    List.prefix_iff_eq_take, List.length_cons, eq_comm]

section

variable [DecidableEq α]

theorem look_ended (h : look first rest width least l pos = .ended) :
    min width (l.length - pos) ≤ least := by
  unfold look at h
  dsimp only at h
  split at h
  · rename_i hle
    rwa [length_window] at hle
  · split at h
    · cases h
    · split at h <;> cases h

/-- What the search in the window says of the positions before the one that it has found. -/
theorem not_occurs_of_findIdx? {i : ℕ}
    (h : (((l.drop pos).take width).take
      (((l.drop pos).take width).length - rest.length)).findIdx? (· = first) = some i) :
    ∀ q, pos ≤ q → q < pos + i → ¬ Occurs first rest l q := by
  intro q hle hlt hoccurs
  obtain ⟨hi, -, hbefore⟩ := List.findIdx?_eq_some_iff_getElem.mp h
  rw [List.length_take, length_window] at hi
  have hseen := hoccurs.getElem?_window width hle (by omega)
  obtain ⟨hq, heq⟩ := List.getElem?_eq_some_iff.mp hseen
  refine hbefore (q - pos) (by omega) ?_
  rw [heq]
  exact decide_eq_true rfl

/-- A look that has missed passes over no occurrence. -/
theorem look_missed (hwidth : rest.length < width) {pos' : ℕ}
    (h : look first rest width least l pos = .missed pos') :
    pos + least < l.length ∧ pos < pos' ∧ pos' ≤ pos + width ∧
      ∀ q, pos ≤ q → q < pos' → ¬ Occurs first rest l q := by
  unfold look at h
  dsimp only at h
  split at h
  · cases h
  · rename_i hleast
    rw [length_window] at hleast
    split at h
    · rename_i hnone
      cases h
      refine ⟨by omega, by omega, by omega, fun q hle hlt hoccurs ↦ ?_⟩
      have hseen := hoccurs.getElem?_window width hle (by omega)
      exact absurd (decide_eq_true rfl)
        (List.findIdx?_eq_none_iff.mp hnone first (List.mem_of_getElem? hseen) ▸ Bool.false_ne_true)
    · rename_i i hsome
      obtain ⟨hi, -, -⟩ := List.findIdx?_eq_some_iff_getElem.mp hsome
      rw [List.length_take, length_window] at hi
      split at h
      · cases h
      · rename_i hdiffer
        cases h
        refine ⟨by omega, by omega, by omega, fun q hle hlt hoccurs ↦ ?_⟩
        obtain rfl | hbefore : q = pos + i ∨ q < pos + i := by omega
        · exact hdiffer ((take_drop_window (by omega)).mpr hoccurs)
        · exact not_occurs_of_findIdx? hsome q hle hbefore hoccurs

/-- A look that has found the pattern has found its first occurrence. -/
theorem look_found {pos' : ℕ} (h : look first rest width least l pos = .found pos') :
    pos + least < l.length ∧ FirstFrom first rest l pos pos' := by
  unfold look at h
  dsimp only at h
  split at h
  · cases h
  · rename_i hleast
    rw [length_window] at hleast
    split at h
    · cases h
    · rename_i i hsome
      split at h
      · rename_i hsame
        cases h
        obtain ⟨hi, -, -⟩ := List.findIdx?_eq_some_iff_getElem.mp hsome
        rw [List.length_take, length_window] at hi
        exact ⟨by omega, Nat.le_add_right pos i, (take_drop_window (by omega)).mp hsame,
          not_occurs_of_findIdx? hsome⟩
      · cases h

end

end Window
