import Mathlib.Data.Finset.Card
import Mathlib.Data.List.Basic
import Std.Data.TreeMap

/-!
# A loop over a sorted map that grows

A loop goes through the entries of a sorted map in order, and a round may put new entries into the
map.  A new entry behind the one of the round is reached later, one in front of it is not.

The loop ends where all the keys that are ever there are among finitely many (`sweeps_sweep`), and
what every round keeps holds at the end, where nothing is left behind the cursor
(`Sweeps.invariant`, and `Sweeps.simulation` for two maps).
-/

namespace Sweep

open Std

universe u v

variable {α : Type u} {β : Type v} [Ord α]

/-- The key stands behind the one that the loop was at; in the beginning every key does. -/
def behind (cursor : Option α) (k : α) : Bool := cursor.all fun c ↦ compare c k = .lt

/-- The entry of the next round. -/
def next (cursor : Option α) (m : TreeMap α β) : Option (α × β) :=
  m.toList.find? fun e ↦ behind cursor e.1

/-- The loop, for as many rounds as there is fuel. -/
def sweep (round : TreeMap α β → α × β → TreeMap α β) :
    ℕ → Option α → TreeMap α β → TreeMap α β
  | 0, _, m => m
  | fuel + 1, cursor, m =>
    match next cursor m with
    | none => m
    | some e => sweep round fuel (some e.1) (round m e)

/-- The loop to its end. -/
inductive Sweeps (round : TreeMap α β → α × β → TreeMap α β) :
    Option α → TreeMap α β → TreeMap α β → Prop
  | done {cursor m} (hnext : next cursor m = none) : Sweeps round cursor m m
  | round {cursor m e m'} (hnext : next cursor m = some e)
      (hrest : Sweeps round (some e.1) (round m e) m') : Sweeps round cursor m m'

section

variable {cursor : Option α} {k k' : α}

@[simp] theorem behind_none : behind none k = true := rfl

@[simp] theorem behind_some {c : α} : behind (some c) k = true ↔ compare c k = .lt :=
  decide_eq_true_iff

theorem compare_asymm [OrientedOrd α] (h : compare k k' = .lt) : compare k' k ≠ .lt := by
  have hswap : compare k' k = (compare k k').swap := OrientedCmp.eq_swap
  rw [hswap, h]
  exact nofun

theorem behind_trans [TransOrd α] (h : behind cursor k = true) (hk : compare k k' = .lt) :
    behind cursor k' = true := by
  cases cursor with
  | none => rfl
  | some c => exact behind_some.2 (TransCmp.lt_trans (behind_some.1 h) hk)

theorem not_behind_self [ReflOrd α] : ¬ behind (some k) k = true := by
  have hself : compare k k = .eq := ReflCmp.compare_self
  rw [behind_some, hself]
  exact nofun

end

section

variable [TransOrd α] [LawfulEqOrd α] {cursor : Option α} {m m' : TreeMap α β} {e : α × β}

theorem exists_mem_toList {k : α} (hk : k ∈ m) : ∃ v, (k, v) ∈ m.toList := by
  obtain ⟨v, hv⟩ := Option.isSome_iff_exists.1 (TreeMap.isSome_getElem?_iff_mem.2 hk)
  exact ⟨v, TreeMap.mem_toList_iff_getElem?_eq_some.2 hv⟩

/-- The next entry is in the map behind the cursor, and none there is in front of it. -/
theorem next_eq_some (h : next cursor m = some e) : m[e.1]? = some e.2 ∧
    behind cursor e.1 = true ∧
      ∀ k ∈ m, behind cursor k = true → k = e.1 ∨ compare e.1 k = .lt := by
  obtain ⟨hbehind, as, bs, hlist, hfront⟩ := List.find?_eq_some_iff_append.1 h
  have hmem : (e.1, e.2) ∈ m.toList := hlist ▸ List.mem_append_right as List.mem_cons_self
  refine ⟨TreeMap.mem_toList_iff_getElem?_eq_some.1 hmem, hbehind, fun k hk hkc ↦ ?_⟩
  obtain ⟨v, hv⟩ := exists_mem_toList hk
  have hsorted := TreeMap.ordered_keys_toList (t := m)
  rw [hlist] at hv hsorted
  rcases List.mem_append.1 hv with hv | hv
  · exact absurd hkc (by simpa using hfront _ hv)
  · rcases List.mem_cons.1 hv with rfl | hv
    · exact .inl rfl
    · exact .inr (List.rel_of_pairwise_cons (List.pairwise_append.1 hsorted).2.1 hv)

theorem not_behind_of_next_eq_none (h : next cursor m = none) {k : α} (hk : k ∈ m) :
    ¬ behind cursor k = true := by
  obtain ⟨v, hv⟩ := exists_mem_toList hk
  exact List.find?_eq_none.1 h _ hv

/-- **What every round keeps holds at the end**, where no key is left. -/
theorem Sweeps.invariant {round : TreeMap α β → α × β → TreeMap α β}
    {I : Option α → TreeMap α β → Prop}
    (hround : ∀ cursor m e, I cursor m → next cursor m = some e → I (some e.1) (round m e))
    (h : Sweeps round cursor m m') (hI : I cursor m) :
    ∃ cursor', I cursor' m' ∧ ∀ k ∈ m', ¬ behind cursor' k = true := by
  induction h with
  | done hnext => exact ⟨_, hI, fun _ hk ↦ not_behind_of_next_eq_none hnext hk⟩
  | round hnext _ ih => exact ih (hround _ _ _ hI hnext)

theorem mem_of_next_eq_some (h : next cursor m = some e) : e.1 ∈ m :=
  TreeMap.isSome_getElem?_iff_mem.1 (by rw [(next_eq_some h).1]; rfl)

/-- The loops over two maps with the same keys go through the same keys. -/
theorem fst_eq_of_next {m₁ m₂ : TreeMap α β} {e₁ e₂ : α × β} (hkeys : ∀ k, k ∈ m₁ ↔ k ∈ m₂)
    (h₁ : next cursor m₁ = some e₁) (h₂ : next cursor m₂ = some e₂) : e₁.1 = e₂.1 := by
  obtain ⟨-, hbehind₁, hfirst₁⟩ := next_eq_some h₁
  obtain ⟨-, hbehind₂, hfirst₂⟩ := next_eq_some h₂
  rcases hfirst₁ _ ((hkeys _).2 (mem_of_next_eq_some h₂)) hbehind₂ with heq | hlt
  · exact heq.symm
  · rcases hfirst₂ _ ((hkeys _).1 (mem_of_next_eq_some h₁)) hbehind₁ with heq | hlt'
    · exact heq
    · exact absurd hlt' (compare_asymm hlt)

theorem next_eq_none_of_keys {m₁ m₂ : TreeMap α β} (hkeys : ∀ k, k ∈ m₁ ↔ k ∈ m₂)
    (h₁ : next cursor m₁ = none) : next cursor m₂ = none := by
  cases h₂ : next cursor m₂ with
  | none => rfl
  | some e =>
    exact absurd (next_eq_some h₂).2.1
      (not_behind_of_next_eq_none h₁ ((hkeys _).2 (mem_of_next_eq_some h₂)))

/-- What the rounds keep of two maps with the same keys holds at the ends of the two loops. -/
theorem Sweeps.simulation {round : TreeMap α β → α × β → TreeMap α β}
    {R : Option α → TreeMap α β → TreeMap α β → Prop} {m₁ m₂ m₁' m₂' : TreeMap α β}
    (hkeys : ∀ cursor m₁ m₂, R cursor m₁ m₂ → ∀ k, k ∈ m₁ ↔ k ∈ m₂)
    (hround : ∀ cursor m₁ m₂ k v₁ v₂, R cursor m₁ m₂ → next cursor m₁ = some (k, v₁) →
      next cursor m₂ = some (k, v₂) → R (some k) (round m₁ (k, v₁)) (round m₂ (k, v₂)))
    (h₁ : Sweeps round cursor m₁ m₁') (h₂ : Sweeps round cursor m₂ m₂') (hR : R cursor m₁ m₂) :
    ∃ cursor', R cursor' m₁' m₂' := by
  induction h₁ generalizing m₂ with
  | done hnext =>
    have hnone := next_eq_none_of_keys (hkeys _ _ _ hR) hnext
    cases h₂ with
    | done => exact ⟨_, hR⟩
    | round hnext₂ => exact absurd (hnone.symm.trans hnext₂) (Option.some_ne_none _).symm
  | @round cursor m₁ e₁ m₁' hnext hrest ih =>
    cases h₂ with
    | done hnext₂ =>
      have hnone := next_eq_none_of_keys (fun k ↦ (hkeys _ _ _ hR k).symm) hnext₂
      exact absurd (hnone.symm.trans hnext) (Option.some_ne_none _).symm
    | @round _ _ e₂ _ hnext₂ hrest₂ =>
      obtain ⟨k, v₁⟩ := e₁
      obtain ⟨k₂, v₂⟩ := e₂
      obtain rfl : k = k₂ := fst_eq_of_next (hkeys _ _ _ hR) hnext hnext₂
      exact ih hrest₂ (hround _ _ _ _ _ _ hR hnext hnext₂)

/-- **The loop ends** where the keys are always among those of a finite set. -/
theorem sweeps_sweep {round : TreeMap α β → α × β → TreeMap α β} {S : Finset α}
    (hround : ∀ m e, (∀ k ∈ m, k ∈ S) → e.1 ∈ m → ∀ k ∈ round m e, k ∈ S) {fuel : ℕ}
    (hm : ∀ k ∈ m, k ∈ S) (hfuel : (S.filter fun k ↦ behind cursor k = true).card < fuel) :
    Sweeps round cursor m (sweep round fuel cursor m) := by
  induction fuel generalizing cursor m with
  | zero => exact absurd hfuel (Nat.not_lt_zero _)
  | succ fuel ih =>
    rw [sweep]
    split
    · rename_i hnext
      exact .done hnext
    · rename_i e hnext
      obtain ⟨-, hbehind, -⟩ := next_eq_some hnext
      have hmem := mem_of_next_eq_some hnext
      -- the entry of the round is not behind itself, and what is behind it was behind the cursor
      have hlt : (S.filter fun k ↦ behind (some e.1) k = true).card <
          (S.filter fun k ↦ behind cursor k = true).card := by
        apply Finset.card_lt_card
        rw [Finset.ssubset_iff_of_subset]
        · refine ⟨e.1, Finset.mem_filter.2 ⟨hm _ hmem, hbehind⟩, fun h ↦ ?_⟩
          exact not_behind_self (Finset.mem_filter.1 h).2
        · intro k hk
          obtain ⟨hkS, hk⟩ := Finset.mem_filter.1 hk
          exact Finset.mem_filter.2 ⟨hkS, behind_trans hbehind (behind_some.1 hk)⟩
      exact .round hnext (ih (hround m e hm hmem) (by omega))

end

end Sweep
