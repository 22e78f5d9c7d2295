import Mathlib.Data.Fintype.Card
import Mathlib.Data.Fintype.Prod
import Mathlib.Data.List.Count
import Mathlib.Logic.Function.Basic

/-!
# Tables of names, and names with a place in a list

A table names something in each of its slots.  How often it names something (`count`) changes by at most
one when a slot changes.

`Indexes l place` says that every name of a list knows its only place in it.  Two names can trade places,
a new name can go to the end, and the name at the end can go.
-/

universe u v w

namespace Slots

variable {ι : Type u} {α : Type v} [Fintype ι] [DecidableEq α]

/-- In how many slots of the table a name is. -/
def count (t : ι → α) (a : α) : ℕ := (Finset.univ.filter fun i ↦ t i = a).card

theorem count_eq_zero_iff {t : ι → α} {a : α} : count t a = 0 ↔ ∀ i, t i ≠ a := by
  rw [count, Finset.card_eq_zero, Finset.filter_eq_empty_iff]
  exact ⟨fun h i ↦ h (Finset.mem_univ i), fun h i _ ↦ h i⟩

theorem count_pos_iff {t : ι → α} {a : α} : 0 < count t a ↔ ∃ i, t i = a := by
  rw [Nat.pos_iff_ne_zero, Ne, count_eq_zero_iff]
  push Not
  rfl

/-- The slots in some order. -/
theorem count_eq_countP (t : ι → α) (a : α) {l : List ι} (hnodup : l.Nodup) (hall : ∀ i, i ∈ l) :
    count t a = l.countP fun i ↦ t i = a := by
  classical
  have hfilter : (Finset.univ.filter fun i ↦ t i = a) = (l.filter fun i ↦ t i = a).toFinset := by
    ext i
    simp only [Finset.mem_filter, Finset.mem_univ, true_and, List.mem_toFinset, List.mem_filter,
      hall i, decide_eq_true_eq]
  rw [count, hfilter, List.toFinset_card_of_nodup (hnodup.filter _), List.countP_eq_length_filter]

theorem count_mono {t t' : ι → α} {a b : α} (h : ∀ i, t i = a → t' i = b) : count t a ≤ count t' b :=
  Finset.card_le_card fun i hi ↦ Finset.mem_filter.mpr
    ⟨Finset.mem_univ i, h i (Finset.mem_filter.mp hi).2⟩

variable [DecidableEq ι] {t : ι → α}

/-- One slot is left out. -/
theorem count_eq_add (t : ι → α) (i : ι) (a : α) : count t a =
    (Finset.univ.filter fun j ↦ j ≠ i ∧ t j = a).card + if t i = a then 1 else 0 := by
  by_cases h : t i = a
  · have hinsert : (Finset.univ.filter fun j ↦ t j = a) =
        insert i (Finset.univ.filter fun j ↦ j ≠ i ∧ t j = a) := by
      ext j
      simp only [Finset.mem_filter, Finset.mem_univ, true_and, Finset.mem_insert]
      by_cases hj : j = i
      · simp [hj, h]
      · simp [hj]
    rw [count, hinsert, Finset.card_insert_of_notMem (by simp), if_pos h]
  · have hsame : (Finset.univ.filter fun j ↦ t j = a) =
        Finset.univ.filter fun j ↦ j ≠ i ∧ t j = a := by
      ext j
      simp only [Finset.mem_filter, Finset.mem_univ, true_and]
      exact ⟨fun hj ↦ ⟨fun heq ↦ h (heq ▸ hj), hj⟩, And.right⟩
    rw [count, hsame, if_neg h, Nat.add_zero]

/-- **A slot is changed.** -/
theorem count_update (t : ι → α) (i : ι) (b a : α) :
    count (Function.update t i b) a + (if t i = a then 1 else 0) =
      count t a + if b = a then 1 else 0 := by
  have hrest : (Finset.univ.filter fun j ↦ j ≠ i ∧ Function.update t i b j = a) =
      Finset.univ.filter fun j ↦ j ≠ i ∧ t j = a := by
    refine Finset.filter_congr fun j _ ↦ and_congr_right fun hj ↦ ?_
    rw [Function.update_of_ne hj]
  rw [count_eq_add _ i a, count_eq_add t i a, hrest, Function.update_self]
  omega

theorem count_update_of_ne {i : ι} {a b : α} (h : t i ≠ a) (hb : b ≠ a) :
    count (Function.update t i b) a = count t a := by
  have hc := count_update t i b a
  rwa [if_neg h, if_neg hb] at hc

theorem count_update_new {i : ι} {a : α} (h : t i ≠ a) :
    count (Function.update t i a) a = count t a + 1 := by
  have hc := count_update t i a a
  rwa [if_neg h, if_pos rfl] at hc

theorem count_update_old {i : ι} {a b : α} (h : t i = a) (hb : b ≠ a) :
    count (Function.update t i b) a + 1 = count t a := by
  have hc := count_update t i b a
  rwa [if_pos h, if_neg hb] at hc

/-! ## Granting slots -/

/-- A name asks for a slot.  It gets it if nothing is there and it has fewer than `cap`. -/
def grant (cap : ℕ) (free : α) (t : ι → α) (x : ι × α) : ι → α :=
  if t x.1 = free ∧ count t x.2 < cap then Function.update t x.1 x.2 else t

/-- No name gets more. -/
theorem count_grant_le {cap : ℕ} {free a : α} (ha : a ≠ free) {x : ι × α} (h : count t a ≤ cap) :
    count (grant cap free t x) a ≤ cap := by
  rw [grant]
  split
  next hx =>
    have hcount := count_update t x.1 x.2 a
    rw [hx.1, if_neg (Ne.symm ha)] at hcount
    by_cases hxa : x.2 = a
    · rw [if_pos hxa] at hcount
      have hlt := hx.2
      rw [hxa] at hlt
      omega
    · rw [if_neg hxa] at hcount
      omega
  next => exact h

theorem count_foldl_grant_le {cap : ℕ} {free a : α} (ha : a ≠ free) (l : List (ι × α))
    (h : count t a ≤ cap) : count (l.foldl (grant cap free) t) a ≤ cap := by
  induction l generalizing t with
  | nil => exact h
  | cons x l ih => exact ih (count_grant_le ha h)

/-! ## Places -/

/-- Every name of the list knows its place, and no other name has one. -/
def Indexes (l : List α) (place : α → Option ℕ) : Prop := ∀ a i, place a = some i ↔ l[i]? = some a

omit [DecidableEq α] in
theorem Indexes.mem_iff {l : List α} {place : α → Option ℕ} (h : Indexes l place) {a : α} :
    a ∈ l ↔ (place a).isSome := by
  rw [List.mem_iff_getElem?, Option.isSome_iff_exists]
  exact exists_congr fun i ↦ (h a i).symm

omit [DecidableEq α] in
theorem Indexes.nodup {l : List α} {place : α → Option ℕ} (h : Indexes l place) : l.Nodup := by
  refine List.nodup_iff_injective_get.mpr fun i j heq ↦ Fin.ext ?_
  have hi : l[i.val]? = some (l.get i) := List.getElem?_eq_getElem i.isLt
  have hj : l[j.val]? = some (l.get i) := heq ▸ List.getElem?_eq_getElem j.isLt
  exact Option.some.inj (((h _ _).mpr hi).symm.trans ((h _ _).mpr hj))

theorem Indexes.append {l : List α} {place : α → Option ℕ} (h : Indexes l place) {a : α}
    (ha : place a = none) : Indexes (l ++ [a]) (Function.update place a (some l.length)) := by
  intro b i
  rcases Nat.lt_trichotomy i l.length with hlt | heq | hgt
  · rw [List.getElem?_append_left hlt, ← h b i]
    by_cases hb : b = a
    · rw [hb, Function.update_self, ha]
      exact ⟨fun heq ↦ absurd (Option.some.inj heq) hlt.ne', nofun⟩
    · rw [Function.update_of_ne hb]
  · rw [heq, List.getElem?_concat_length]
    by_cases hb : b = a
    · rw [hb, Function.update_self]
      exact iff_of_true rfl rfl
    · rw [Function.update_of_ne hb, h b l.length, List.getElem?_eq_none le_rfl]
      exact ⟨nofun, fun heq ↦ absurd (Option.some.inj heq).symm hb⟩
  · rw [List.getElem?_eq_none (by rw [List.length_append, List.length_singleton]; omega)]
    refine ⟨fun hplace ↦ ?_, nofun⟩
    by_cases hb : b = a
    · rw [hb, Function.update_self] at hplace
      exact absurd (Option.some.inj hplace) hgt.ne
    · rw [Function.update_of_ne hb, h b i, List.getElem?_eq_none hgt.le] at hplace
      cases hplace

/-- Two names trade places. -/
def swap (l : List α) (i j : ℕ) (a b : α) : List α := (l.set i b).set j a

omit [DecidableEq α] in
theorem getElem?_swap {l : List α} {i j k : ℕ} {a b : α} (hi : l[i]? = some a)
    (hj : l[j]? = some b) :
    (swap l i j a b)[k]? = if k = j then some a else if k = i then some b else l[k]? := by
  obtain ⟨hilt, -⟩ := List.getElem?_eq_some_iff.mp hi
  obtain ⟨hjlt, -⟩ := List.getElem?_eq_some_iff.mp hj
  rw [swap]
  by_cases hkj : k = j
  · rw [hkj, if_pos rfl, List.getElem?_set_self (by rwa [List.length_set])]
  · rw [if_neg hkj, List.getElem?_set_ne (Ne.symm hkj)]
    by_cases hki : k = i
    · rw [hki, if_pos rfl, List.getElem?_set_self hilt]
    · rw [if_neg hki, List.getElem?_set_ne (Ne.symm hki)]

theorem Indexes.swap {l : List α} {place : α → Option ℕ} (h : Indexes l place) {i j : ℕ} {a b : α}
    (hne : i ≠ j) (hi : l[i]? = some a) (hj : l[j]? = some b) :
    Indexes (Slots.swap l i j a b)
      (Function.update (Function.update place a (some j)) b (some i)) := by
  have hab : a ≠ b := fun heq ↦ hne (Option.some.inj
    (((h a i).mpr hi).symm.trans ((h a j).mpr (heq ▸ hj))))
  intro c k
  rw [getElem?_swap hi hj]
  by_cases hcb : c = b
  · rw [hcb, Function.update_self]
    constructor
    · rintro ⟨⟩
      rw [if_neg hne, if_pos rfl]
    · intro hk
      split_ifs at hk with hkj hki
      · exact absurd (Option.some.inj hk) hab
      · rw [hki]
      · exact absurd (Option.some.inj (((h b k).mpr hk).symm.trans ((h b j).mpr hj))) hkj
  · rw [Function.update_of_ne hcb]
    by_cases hca : c = a
    · rw [hca, Function.update_self]
      constructor
      · rintro ⟨⟩
        rw [if_pos rfl]
      · intro hk
        split_ifs at hk with hkj hki
        · rw [hkj]
        · exact absurd (Option.some.inj hk).symm hab
        · exact absurd (Option.some.inj (((h a k).mpr hk).symm.trans ((h a i).mpr hi))) hki
    · rw [Function.update_of_ne hca, h c k]
      constructor
      · intro hk
        rw [if_neg, if_neg, hk]
        · rintro rfl
          exact hca (Option.some.inj (hk.symm.trans hi))
        · rintro rfl
          exact hcb (Option.some.inj (hk.symm.trans hj))
      · intro hk
        split_ifs at hk
        · exact absurd (Option.some.inj hk).symm hca
        · exact absurd (Option.some.inj hk).symm hcb
        · exact hk

theorem Indexes.dropLast {l : List α} {place : α → Option ℕ} (h : Indexes l place) {a : α}
    (ha : l.getLast? = some a) : Indexes l.dropLast (Function.update place a none) := by
  have hlast : l[l.length - 1]? = some a := by rw [← List.getLast?_eq_getElem?, ha]
  have hpos : 0 < l.length := List.length_pos_iff.mpr fun hnil ↦ by
    rw [hnil] at ha
    cases ha
  intro b i
  by_cases hb : b = a
  · rw [hb, Function.update_self]
    refine ⟨nofun, fun hi ↦ ?_⟩
    rw [List.getElem?_dropLast] at hi
    split_ifs at hi with hlt
    have hsame := ((h a i).mpr hi).symm.trans ((h a _).mpr hlast)
    have heq := Option.some.inj hsame
    omega
  · rw [Function.update_of_ne hb, h b i, List.getElem?_dropLast]
    split_ifs with hlt
    · rfl
    · refine ⟨fun hi ↦ ?_, nofun⟩
      obtain ⟨hilt, -⟩ := List.getElem?_eq_some_iff.mp hi
      have heq : i = l.length - 1 := by omega
      rw [heq, hlast] at hi
      exact absurd (Option.some.inj hi).symm hb

/-- Slots are in buckets.  When each of some slots is in one of the `n` buckets that its group may
have, they are no more than the slots of so many buckets for each group. -/
theorem card_le_of_buckets {γ : Type u} {β : Type v} {κ : Type w} [Fintype κ] [DecidableEq β] (n : ℕ)
    (bucket : γ → ℕ → β) (groups : Finset γ) (slots : Finset (β × κ))
    (h : ∀ p ∈ slots, ∃ g ∈ groups, ∃ r < n, p.1 = bucket g r) :
    slots.card ≤ groups.card * (n * Fintype.card κ) := by
  classical
  set buckets := (groups ×ˢ Finset.range n).image fun x ↦ bucket x.1 x.2 with hbuckets
  have hsub : slots ⊆ buckets ×ˢ Finset.univ := by
    intro p hp
    obtain ⟨g, hg, r, hr, hbucket⟩ := h p hp
    refine Finset.mem_product.2 ⟨Finset.mem_image.2 ⟨(g, r), ?_, hbucket.symm⟩, Finset.mem_univ _⟩
    exact Finset.mem_product.2 ⟨hg, Finset.mem_range.2 hr⟩
  calc slots.card ≤ (buckets ×ˢ (Finset.univ : Finset κ)).card := Finset.card_le_card hsub
    _ = buckets.card * Fintype.card κ := by rw [Finset.card_product, Finset.card_univ]
    _ ≤ (groups ×ˢ Finset.range n).card * Fintype.card κ :=
      Nat.mul_le_mul_right _ Finset.card_image_le
    _ = groups.card * (n * Fintype.card κ) := by
      rw [Finset.card_product, Finset.card_range, Nat.mul_assoc]

end Slots
