import Mathlib

/-!
# Choices from a list

A choice is a list of flags beside a list of things: `pick` has the things whose flag is set.
-/

universe u v

namespace Choice

variable {α : Type u} {β : Type v}

/-- What is chosen. -/
def pick : List α → List Bool → List α
  | a :: l, true :: fs => a :: pick l fs
  | _ :: l, false :: fs => pick l fs
  | _, _ => []

@[simp] theorem pick_nil (fs : List Bool) : pick ([] : List α) fs = [] := by
  cases fs <;> rfl

theorem pick_sublist (l : List α) : ∀ fs, (pick l fs).Sublist l := by
  induction l with
  | nil => simp
  | cons a l ih =>
    intro fs
    rcases fs with _ | ⟨_ | _, fs⟩
    · exact List.nil_sublist _
    · exact (ih fs).cons a
    · exact (ih fs).cons_cons a

theorem pick_map (f : α → β) (l : List α) : ∀ fs, pick (l.map f) fs = (pick l fs).map f := by
  induction l with
  | nil => simp
  | cons a l ih =>
    intro fs
    rcases fs with _ | ⟨_ | _, fs⟩
    · rfl
    · exact ih fs
    · exact congrArg (f a :: ·) (ih fs)

/-- Everything is chosen. -/
theorem pick_replicate_true (l : List α) : pick l (List.replicate l.length true) = l := by
  induction l with
  | nil => rfl
  | cons a l ih => exact congrArg (a :: ·) ih

/-- Nothing is chosen. -/
theorem pick_replicate_false (l : List α) : ∀ n, pick l (List.replicate n false) = [] := by
  induction l with
  | nil => simp
  | cons a l ih =>
    intro n
    cases n with
    | zero => rfl
    | succ n => exact ih n

section

variable [AddCommMonoid α]

/-- One thing more is chosen. -/
theorem sum_pick_set {l : List α} : ∀ {fs : List Bool} {i : ℕ} {a : α}, l[i]? = some a →
    fs[i]? = some false → (pick l (fs.set i true)).sum = (pick l fs).sum + a := by
  induction l with
  | nil =>
    intro fs i a h _
    cases h
  | cons b l ih =>
    intro fs i a ha hf
    cases fs with
    | nil => cases hf
    | cons f fs =>
      cases i with
      | zero =>
        cases ha
        cases hf
        simp [pick, add_comm]
      | succ i =>
        rw [List.getElem?_cons_succ] at ha hf
        cases f with
        | true => simp [pick, ih ha hf, add_assoc]
        | false => simp [pick, ih ha hf]

end

/-- A choice of things that are not negative is worth at most all of them. -/
theorem sum_pick_le {l : List ℤ} (h : ∀ n ∈ l, 0 ≤ n) (fs : List Bool) :
    0 ≤ (pick l fs).sum ∧ (pick l fs).sum ≤ l.sum := by
  have hsub := pick_sublist l fs
  refine ⟨List.sum_nonneg fun n hn ↦ h n (hsub.subset hn), ?_⟩
  exact hsub.sum_le_sum h

end Choice
