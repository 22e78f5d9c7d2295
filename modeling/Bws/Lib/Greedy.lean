import Mathlib.Data.List.Pairwise
import Mathlib.Data.List.Nodup

/-!
# Greedy selections

A list is gone through once, and what clashes with something that was kept before is dropped.  No two
that are kept clash; everything is kept exactly when no two of the list clash, and then the order of the
list makes no difference.
-/

universe u

namespace Greedy

variable {α : Type u} (clash : α → α → Prop) [DecidableRel clash]

/-- What is kept of a list, after what has been kept before. -/
def keep (kept : List α) : List α → List α
  | [] => kept
  | a :: l => if ∃ b ∈ kept, clash b a then keep kept l else keep (kept ++ [a]) l

variable {clash}

theorem pairwise_keep {l : List α} : ∀ {kept : List α}, kept.Pairwise (¬ clash · ·) →
    (keep clash kept l).Pairwise (¬ clash · ·) := by
  induction l with
  | nil => exact id
  | cons a l ih =>
    intro kept h
    rw [keep]
    split_ifs with hclash
    · exact ih h
    · refine ih (List.pairwise_append.2 ⟨h, List.pairwise_singleton .., fun b hb c hc hbc ↦ ?_⟩)
      rw [List.mem_singleton.1 hc] at hbc
      exact hclash ⟨b, hb, hbc⟩

/-- What is kept is part of the list, in its order. -/
theorem keep_eq_append (l : List α) : ∀ kept : List α,
    ∃ l' : List α, l'.Sublist l ∧ keep clash kept l = kept ++ l' := by
  induction l with
  | nil => exact fun kept ↦ ⟨[], .slnil, (List.append_nil kept).symm⟩
  | cons a l ih =>
    intro kept
    rw [keep]
    split_ifs
    · obtain ⟨l', hsub, heq⟩ := ih kept
      exact ⟨l', hsub.cons a, heq⟩
    · obtain ⟨l', hsub, heq⟩ := ih (kept ++ [a])
      exact ⟨a :: l', hsub.cons_cons a, by rw [heq, List.append_assoc]; rfl⟩

/-- Where no two clash, nothing is dropped. -/
theorem keep_of_pairwise {l : List α} : ∀ {kept : List α},
    (kept ++ l).Pairwise (¬ clash · ·) → keep clash kept l = kept ++ l := by
  induction l with
  | nil => exact fun _ ↦ (List.append_nil _).symm
  | cons a l ih =>
    intro kept h
    have hnone : ¬ ∃ b ∈ kept, clash b a := by
      rintro ⟨b, hb, hclash⟩
      exact (List.pairwise_append.1 h).2.2 b hb a List.mem_cons_self hclash
    rw [keep, if_neg hnone, ih (by rwa [List.append_assoc]), List.append_assoc]
    rfl

theorem keep_eq_self {l : List α} (h : l.Pairwise (¬ clash · ·)) : keep clash [] l = l :=
  keep_of_pairwise h

/-- **Everything is kept if and only if no two clash.** -/
theorem forall_mem_keep_iff {l : List α} (hnodup : l.Nodup) :
    (∀ a ∈ l, a ∈ keep clash [] l) ↔ l.Pairwise (¬ clash · ·) := by
  constructor
  · intro hall
    obtain ⟨l', hsub, heq⟩ : ∃ l' : List α, l'.Sublist l ∧ keep clash [] l = l' :=
      keep_eq_append l []
    have hperm : l'.Perm l := by
      refine (List.perm_ext_iff_of_nodup (hsub.nodup hnodup) hnodup).2 fun a ↦
        ⟨fun ha ↦ hsub.subset ha, fun ha ↦ heq ▸ hall a ha⟩
    have hl : l' = l := hsub.eq_of_length hperm.length_eq
    rw [← hl, ← heq]
    exact pairwise_keep List.Pairwise.nil
  · intro h a ha
    rw [keep_eq_self h]
    exact ha

/-- Then the order makes no difference. -/
theorem mem_keep_of_perm (hsymm : ∀ {a b}, clash a b → clash b a) {l l' : List α}
    (h : l.Pairwise (¬ clash · ·)) (hperm : l'.Perm l) {a : α} :
    a ∈ keep clash [] l' ↔ a ∈ keep clash [] l := by
  have h' : l'.Pairwise (¬ clash · ·) :=
    (hperm.pairwise_iff fun hab hba ↦ hab (hsymm hba)).2 h
  rw [keep_eq_self h, keep_eq_self h']
  exact hperm.mem_iff

end Greedy
