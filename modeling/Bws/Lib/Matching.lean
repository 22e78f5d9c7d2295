import Mathlib

/-!
# Greedy matching

Each source in its turn is given to the first target that is free and that it fits.  When no source
fits two targets nothing is lost by this: in the end, a target has a source if and only if some
source fits it (`isSome_assignAll`).  What the targets have, in their order, is a list of sources
for a sublist of the targets (`exists_targets`).
-/

namespace Bws.Matching

section

variable {α τ : Type} [DecidableEq τ] (fits : α → τ → Bool) (targets : List τ)

/-- The source is given to the first target that is free and that it fits. -/
def assign (m : τ → Option α) (a : α) : τ → Option α :=
  match targets.find? fun t ↦ (m t).isNone && fits a t with
  | none => m
  | some t => Function.update m t (some a)

/-- All the sources, one after the other. -/
def assignAll (sources : List α) : τ → Option α :=
  sources.foldl (assign fits targets) fun _ ↦ none

variable {fits targets}

/-- What a target has is one of the sources, and fits it. -/
def Sound (fits : α → τ → Bool) (targets : List τ) (done : List α) (m : τ → Option α) : Prop :=
  ∀ t a, m t = some a → a ∈ done ∧ t ∈ targets ∧ fits a t = true

/-- The targets that some source fits are taken. -/
def Complete (fits : α → τ → Bool) (targets : List τ) (done : List α) (m : τ → Option α) : Prop :=
  ∀ a ∈ done, ∀ t ∈ targets, fits a t = true → (m t).isSome

theorem Sound.assign {done : List α} {m : τ → Option α} (h : Sound fits targets done m) (a : α) :
    Sound fits targets (done ++ [a]) (assign fits targets m a) := by
  rw [Matching.assign]
  rcases hfind : targets.find? (fun t ↦ (m t).isNone && fits a t) with - | t
  · rintro t b hb
    exact ⟨List.mem_append_left _ (h t b hb).1, (h t b hb).2⟩
  · have hfree := List.find?_some hfind
    rw [Bool.and_eq_true] at hfree
    rintro t' b hb
    dsimp only at hb
    rcases eq_or_ne t' t with rfl | hne
    · rw [Function.update_self] at hb
      cases hb
      exact ⟨List.mem_append_right _ (List.mem_singleton_self _),
        List.mem_of_find?_eq_some hfind, hfree.2⟩
    · rw [Function.update_of_ne hne] at hb
      exact ⟨List.mem_append_left _ (h t' b hb).1, (h t' b hb).2⟩

/-- No source fits two targets. -/
def Single (fits : α → τ → Bool) (targets : List τ) (sources : List α) : Prop :=
  ∀ a ∈ sources, ∀ t ∈ targets, ∀ t' ∈ targets, fits a t = true → fits a t' = true → t = t'

theorem Complete.assign {done : List α} {m : τ → Option α} (h : Complete fits targets done m)
    {a : α} (hsingle : Single fits targets [a]) :
    Complete fits targets (done ++ [a]) (assign fits targets m a) := by
  rw [Matching.assign]
  rcases hfind : targets.find? (fun t ↦ (m t).isNone && fits a t) with - | t
  · -- whatever the source fits is taken
    rintro b hb t' ht' hfits
    rcases List.mem_append.1 hb with hb | hb
    · exact h b hb t' ht' hfits
    · obtain rfl := List.mem_singleton.1 hb
      have hnone := List.find?_eq_none.1 hfind t' ht'
      rw [hfits, Bool.and_true, Bool.not_eq_true, Option.isNone_eq_false_iff] at hnone
      exact hnone
  · have ht : t ∈ targets := List.mem_of_find?_eq_some hfind
    have hfree := List.find?_some hfind
    rw [Bool.and_eq_true] at hfree
    rintro b hb t' ht' hfits
    dsimp only
    rcases eq_or_ne t' t with rfl | hne
    · rw [Function.update_self]
      rfl
    · rw [Function.update_of_ne hne]
      rcases List.mem_append.1 hb with hb | hb
      · exact h b hb t' ht' hfits
      · obtain rfl := List.mem_singleton.1 hb
        exact absurd (hsingle b List.mem_cons_self t' ht' t ht hfits hfree.2) hne

theorem sound_foldl {sources done : List α} {m : τ → Option α} (h : Sound fits targets done m) :
    Sound fits targets (done ++ sources) (sources.foldl (assign fits targets) m) := by
  induction sources generalizing done m with
  | nil => rwa [List.append_nil]
  | cons a sources ih =>
    have hall := ih (h.assign a)
    rwa [List.append_assoc, List.singleton_append] at hall

theorem complete_foldl {sources done : List α} {m : τ → Option α}
    (h : Complete fits targets done m) (hsingle : Single fits targets sources) :
    Complete fits targets (done ++ sources) (sources.foldl (assign fits targets) m) := by
  induction sources generalizing done m with
  | nil => rwa [List.append_nil]
  | cons a sources ih =>
    have hone : Single fits targets [a] := fun b hb ↦
      hsingle b (List.mem_singleton.1 hb ▸ List.mem_cons_self)
    have hall := ih (h.assign hone) fun b hb ↦ hsingle b (List.mem_cons_of_mem _ hb)
    rwa [List.append_assoc, List.singleton_append] at hall

variable {sources : List α}

theorem sound_assignAll : Sound fits targets sources (assignAll fits targets sources) := by
  have h : Sound fits targets [] fun _ ↦ (none : Option α) := fun _ _ h ↦ nomatch h
  exact sound_foldl h

/-- Greed loses nothing where no source fits two targets. -/
theorem isSome_assignAll (hsingle : Single fits targets sources) {t : τ} (ht : t ∈ targets) :
    (assignAll fits targets sources t).isSome ↔ ∃ a ∈ sources, fits a t = true := by
  have hsound : Sound fits targets sources (assignAll fits targets sources) := sound_assignAll
  have hcomplete : Complete fits targets sources (assignAll fits targets sources) :=
    complete_foldl (fun _ h ↦ absurd h List.not_mem_nil) hsingle
  constructor
  · rintro h
    obtain ⟨a, ha⟩ := Option.isSome_iff_exists.1 h
    exact ⟨a, (hsound t a ha).1, (hsound t a ha).2.2⟩
  · rintro ⟨a, ha, hfits⟩
    exact hcomplete a ha t ht hfits

end

/-! ## What the targets have, in their order -/

section

variable {α τ : Type} (m : τ → Option α)

theorem exists_targets (targets : List τ) (n : ℕ) : ∃ ts, ts.Sublist targets ∧
    List.Forall₂ (fun t a ↦ m t = some a) ts ((targets.filterMap m).take n) := by
  have hall : ∃ ts, ts.Sublist targets ∧
      List.Forall₂ (fun t a ↦ m t = some a) ts (targets.filterMap m) := by
    induction targets with
    | nil => exact ⟨[], .slnil, .nil⟩
    | cons t targets ih =>
      obtain ⟨ts, hsub, hts⟩ := ih
      rcases ht : m t with - | a
      · rw [List.filterMap_cons_none ht]
        exact ⟨ts, hsub.cons t, hts⟩
      · rw [List.filterMap_cons_some ht]
        exact ⟨t :: ts, hsub.cons_cons t, .cons ht hts⟩
  obtain ⟨ts, hsub, hts⟩ := hall
  exact ⟨ts.take n, (List.take_sublist n ts).trans hsub, List.forall₂_take n hts⟩

/-- Targets that have sources are not more than the sources. -/
theorem length_le_filterMap {ts targets : List τ} (hsub : ts.Sublist targets)
    (hsome : ∀ t ∈ ts, (m t).isSome) : ts.length ≤ (targets.filterMap m).length := by
  have hlen : ts.length = (ts.filterMap m).length := by
    clear hsub
    induction ts with
    | nil => rfl
    | cons t ts ih =>
      obtain ⟨a, ha⟩ := Option.isSome_iff_exists.1 (hsome t List.mem_cons_self)
      rw [List.filterMap_cons_some ha, List.length_cons, List.length_cons,
        ih fun t' ht' ↦ hsome t' (List.mem_cons_of_mem t ht')]
  rw [hlen]
  exact (hsub.filterMap m).length_le

end

end Bws.Matching
