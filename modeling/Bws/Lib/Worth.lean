import Mathlib.Algebra.BigOperators.Finprod
import Mathlib.Tactic.Abel
import Bws.Lib.Ledger

/-!
# What the unspent outputs of a ledger are worth

The unspent outputs of an index (`unspent`) and the sum of their values (`worth`), where the values
may lie in any commutative group and may depend on the index.  Connecting a transaction that takes no
name of an unspent output removes the outputs it spends and adds its own (`unspent_connect`), so that
the sum changes by the difference (`worth_connect`).
-/

universe u v

namespace Ledger

variable {I : Type u} {S : Type v} [Slots S]

/-- The outputs that have not been spent. -/
def unspent (idx : Index I S) : Set (I × ℕ) :=
  {o | ∃ s, slot? idx o = some s ∧ isNull s = true}

/-- What the unspent outputs are worth together. -/
noncomputable def worth {M : Type} [AddCommGroup M] (value : I × ℕ → M) (idx : Index I S) : M :=
  ∑ᶠ o ∈ unspent idx, value o

/-- The outputs of a transaction. -/
def Tx.outputs (t : Tx I) : Set (I × ℕ) := {o | o.1 = t.id ∧ o.2 < t.nOut}

theorem unspent_nil : unspent (fun _ ↦ none : Index I S) = ∅ := by
  ext o
  constructor
  · rintro ⟨s, hs, -⟩
    cases hs
  · exact False.elim

theorem Tx.outputs_eq_coe (t : Tx I) :
    t.outputs = ((Finset.range t.nOut).map ⟨Prod.mk t.id, Prod.mk_right_injective t.id⟩ :
      Finset (I × ℕ)) := by
  ext ⟨i, n⟩
  rw [Finset.coe_map, Finset.coe_range]
  constructor
  · rintro ⟨rfl, hn⟩
    exact ⟨n, hn, rfl⟩
  · rintro ⟨m, hm, heq⟩
    cases heq
    exact ⟨rfl, hm⟩

theorem Tx.finite_outputs (t : Tx I) : t.outputs.Finite := by
  rw [t.outputs_eq_coe]
  exact Finset.finite_toSet _

variable [DecidableEq I] {idx idx' : Index I S} {t : Tx I} {p : S}

/-- The inputs of a connected transaction were unspent. -/
theorem ins_subset_unspent (h : connect idx t p = some idx') : {o | o ∈ t.ins} ⊆ unspent idx :=
  fun _ ho ↦ null_of_connect h ho

/-- A transaction whose name no unspent output has. -/
theorem unspent_connect (hp : isNull p = false) (h : connect idx t p = some idx')
    (hname : ∀ o ∈ unspent idx, o.1 ≠ t.id) :
    unspent idx' = unspent idx \ {o | o ∈ t.ins} ∪ t.outputs := by
  ext o
  change (∃ s, slot? idx' o = some s ∧ isNull s = true) ↔ _
  rw [slot?_connect h]
  by_cases hi : o.1 = t.id
  · rw [if_pos hi]
    constructor
    · rintro ⟨s, hs, -⟩
      split at hs
      · rename_i hlt
        exact .inr ⟨hi, hlt⟩
      · cases hs
    · rintro (⟨ho, -⟩ | ⟨-, hlt⟩)
      · exact absurd hi (hname o ho)
      · exact ⟨null, if_pos hlt, isNull_null⟩
  · rw [if_neg hi]
    by_cases hin : o ∈ t.ins
    · rw [if_pos hin]
      constructor
      · rintro ⟨s, ⟨⟩, hs⟩
        rw [hp] at hs
        cases hs
      · rintro (⟨-, hno⟩ | ⟨ho, -⟩)
        · exact absurd hin hno
        · exact absurd ho hi
    · rw [if_neg hin]
      constructor
      · exact fun ho ↦ .inl ⟨ho, hin⟩
      · rintro (⟨ho, -⟩ | ⟨ho, -⟩)
        · exact ho
        · exact absurd ho hi

theorem finite_unspent_connect (hp : isNull p = false) (h : connect idx t p = some idx')
    (hname : ∀ o ∈ unspent idx, o.1 ≠ t.id) (hfin : (unspent idx).Finite) :
    (unspent idx').Finite := by
  rw [unspent_connect hp h hname]
  exact (hfin.subset Set.sdiff_subset).union t.finite_outputs

/-- **Connecting a transaction** trades the outputs it spends for its own. -/
theorem worth_connect {M : Type} [AddCommGroup M] {value value' : I × ℕ → M}
    (hp : isNull p = false) (h : connect idx t p = some idx')
    (hname : ∀ o ∈ unspent idx, o.1 ≠ t.id) (hfin : (unspent idx).Finite)
    (hvalue : ∀ o ∈ unspent idx, o ∉ t.ins → value' o = value o) :
    worth value' idx' + (t.ins.map value).sum =
      worth value idx + ∑ n ∈ Finset.range t.nOut, value' (t.id, n) := by
  have hnodup := nodup_of_connect hp h
  have hins : ∑ᶠ o ∈ {o | o ∈ t.ins}, value o = (t.ins.map value).sum := by
    have hset : {o | o ∈ t.ins} = (t.ins.toFinset : Set (I × ℕ)) := by
      ext o
      exact List.mem_toFinset.symm
    rw [hset, finsum_mem_coe_finset, List.sum_toFinset value hnodup]
  have houts : ∑ᶠ o ∈ t.outputs, value' o = ∑ n ∈ Finset.range t.nOut, value' (t.id, n) := by
    rw [t.outputs_eq_coe, finsum_mem_coe_finset, Finset.sum_map]
    rfl
  have hkept : ∑ᶠ o ∈ unspent idx \ {o | o ∈ t.ins}, value' o =
      ∑ᶠ o ∈ unspent idx \ {o | o ∈ t.ins}, value o :=
    finsum_mem_congr rfl fun o ho ↦ hvalue o ho.1 ho.2
  have hdisjoint : Disjoint (unspent idx \ {o | o ∈ t.ins}) t.outputs :=
    Set.disjoint_left.mpr fun o ho hout ↦ hname o ho.1 hout.1
  have hbefore : worth value idx = (t.ins.map value).sum +
      ∑ᶠ o ∈ unspent idx \ {o | o ∈ t.ins}, value o := by
    rw [← hins]
    exact (finsum_mem_add_sdiff (ins_subset_unspent h) hfin).symm
  have hafter : worth value' idx' = ∑ᶠ o ∈ unspent idx \ {o | o ∈ t.ins}, value o +
      ∑ n ∈ Finset.range t.nOut, value' (t.id, n) := by
    rw [worth, unspent_connect hp h hname,
      finsum_mem_union hdisjoint (hfin.subset Set.sdiff_subset) t.finite_outputs, hkept, houts]
  rw [hbefore, hafter]
  abel

end Ledger
