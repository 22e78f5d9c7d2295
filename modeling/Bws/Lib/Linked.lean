import Mathlib.Data.Set.Lattice
import Mathlib.Logic.Relation

/-!
# Linked by overlapping sets

Two elements are linked when a chain of sets of a family, each overlapping the next, leads from one to
the other.  The components of a family are the classes of that relation, as sets.  They are kept up to
date when a set joins the family by merging it with the components that it meets (`Components.insert`).
-/

universe u

namespace Overlap

variable {α : Type u}

/-- Some set of the family has both. -/
def Share (G : Set (Set α)) (a b : α) : Prop := ∃ g ∈ G, a ∈ g ∧ b ∈ g

/-- A chain of sets of the family leads from one to the other. -/
abbrev Linked (G : Set (Set α)) : α → α → Prop := Relation.ReflTransGen (Share G)

variable {G : Set (Set α)} {B : Set (Set α)} {a b c : α}

theorem Share.symm (h : Share G a b) : Share G b a := by
  obtain ⟨g, hg, ha, hb⟩ := h
  exact ⟨g, hg, hb, ha⟩

theorem Linked.symm (h : Linked G a b) : Linked G b a := by
  induction h with
  | refl => exact .refl
  | tail _ hshare ih => exact .head hshare.symm ih

theorem Linked.mono {G' : Set (Set α)} (hsub : G ⊆ G') (h : Linked G a b) : Linked G' a b := by
  induction h with
  | refl => exact .refl
  | tail _ hshare ih =>
    obtain ⟨g, hg, hab⟩ := hshare
    exact ih.tail ⟨g, hsub hg, hab⟩

/-- The sets of `B` are the components of the family `G`. -/
structure Components (G B : Set (Set α)) : Prop where
  disjoint : ∀ s ∈ B, ∀ t ∈ B, ∀ a, a ∈ s → a ∈ t → s = t
  cover : ∀ a, (∃ s ∈ B, a ∈ s) ↔ ∃ g ∈ G, a ∈ g
  linked : ∀ s ∈ B, ∀ a ∈ s, ∀ b ∈ s, Linked G a b
  closed : ∀ g ∈ G, ∀ s ∈ B, ∀ a ∈ g, a ∈ s → g ⊆ s

/-- A component has everything that is linked to one of its elements. -/
theorem Components.mem_iff (h : Components G B) {s : Set α} (hs : s ∈ B) (ha : a ∈ s) :
    b ∈ s ↔ Linked G a b := by
  refine ⟨h.linked s hs a ha b, fun hlinked ↦ ?_⟩
  induction hlinked with
  | refl => exact ha
  | tail _ hshare hmem =>
    obtain ⟨g, hg, hc, hb⟩ := hshare
    exact h.closed g hg s hs _ hc hmem hb

theorem Components.empty : Components (∅ : Set (Set α)) ∅ where
  disjoint _ hs := absurd hs (Set.notMem_empty _)
  cover a := by
    simp only [Set.mem_empty_iff_false, false_and, exists_false]
  linked _ hs := absurd hs (Set.notMem_empty _)
  closed _ hg := absurd hg (Set.notMem_empty _)

/-- The components that a set meets. -/
def hits (B : Set (Set α)) (g : Set α) : Set (Set α) := {s ∈ B | ∃ a ∈ g, a ∈ s}

/-- A set with the components that it meets. -/
def merged (B : Set (Set α)) (g : Set α) : Set α := {a | a ∈ g ∨ ∃ s ∈ hits B g, a ∈ s}

/-- What meets a new set is linked to it. -/
theorem Components.linked_merged (h : Components G B) {g : Set α} (ha : a ∈ merged B g) :
    ∃ c ∈ g, Linked (Insert.insert g G) a c := by
  rcases ha with ha | ⟨s, ⟨hs, c, hcg, hcs⟩, has⟩
  · exact ⟨a, ha, .refl⟩
  · exact ⟨c, hcg, (h.linked s hs a has c hcs).mono (Set.subset_insert g G)⟩

theorem Components.insert (h : Components G B) (g : Set α) :
    Components (Insert.insert g G) (Insert.insert (merged B g) (B \ hits B g)) := by
  have hmeets : ∀ s ∈ B \ hits B g, ∀ a ∈ s, a ∉ merged B g := by
    rintro s ⟨hs, hnot⟩ a has (hag | ⟨t, ht, hat⟩)
    · exact hnot ⟨hs, a, hag, has⟩
    · rw [h.disjoint s hs t ht.1 a has hat] at hnot
      exact hnot ht
  refine ⟨?_, ?_, ?_, ?_⟩
  · rintro s (rfl | hs) t (rfl | ht) a has hat
    · rfl
    · exact absurd has (hmeets t ht a hat)
    · exact absurd hat (hmeets s hs a has)
    · exact h.disjoint s hs.1 t ht.1 a has hat
  · intro a
    constructor
    · rintro ⟨s, rfl | hs, has⟩
      · rcases has with hag | ⟨t, ht, hat⟩
        · exact ⟨g, Set.mem_insert g G, hag⟩
        · obtain ⟨g', hg', hag'⟩ := (h.cover a).mp ⟨t, ht.1, hat⟩
          exact ⟨g', Set.mem_insert_of_mem g hg', hag'⟩
      · obtain ⟨g', hg', hag'⟩ := (h.cover a).mp ⟨s, hs.1, has⟩
        exact ⟨g', Set.mem_insert_of_mem g hg', hag'⟩
    · rintro ⟨g', rfl | hg', hag'⟩
      · exact ⟨_, Set.mem_insert _ _, .inl hag'⟩
      · obtain ⟨s, hs, has⟩ := (h.cover a).mpr ⟨g', hg', hag'⟩
        by_cases hhit : s ∈ hits B g
        · exact ⟨_, Set.mem_insert _ _, .inr ⟨s, hhit, has⟩⟩
        · exact ⟨s, Set.mem_insert_of_mem _ ⟨hs, hhit⟩, has⟩
  · rintro s (rfl | hs) a has b hbs
    · obtain ⟨c, hc, hac⟩ := h.linked_merged has
      obtain ⟨d, hd, hbd⟩ := h.linked_merged hbs
      exact (hac.tail ⟨g, Set.mem_insert g G, hc, hd⟩).trans hbd.symm
    · exact (h.linked s hs.1 a has b hbs).mono (Set.subset_insert g G)
  · rintro g' (rfl | hg') s (rfl | hs) a hag' has
    · exact fun b hb ↦ .inl hb
    · exact absurd (.inl hag') (hmeets s hs a has)
    · -- the component that the old set is in has been merged
      obtain ⟨t, ht, hat⟩ := (h.cover a).mpr ⟨g', hg', hag'⟩
      have hsub := h.closed g' hg' t ht a hag' hat
      have hhit : t ∈ hits B g := by
        rcases has with hag | ⟨t', ht', hat'⟩
        · exact ⟨ht, a, hag, hat⟩
        · rwa [h.disjoint t ht t' ht'.1 a hat hat']
      exact fun b hb ↦ .inr ⟨t, hhit, hsub hb⟩
    · exact h.closed g' hg' s hs.1 a hag' has

end Overlap
