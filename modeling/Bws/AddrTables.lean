import Bws.AddrIndex
import Mathlib.Data.Set.Insert

/-!
# The tables of the address manager

What holds of the two tables of slots is said of one entry at a time (`PlacedAt`): an operation changes
the slots of one entry after the other, and each change concerns that entry only (`Placed.update`).

While an operation is under way some entries are *loose*: they may be in neither table.
-/

namespace Bws

section

variable {A : AddrParams} {nKey : BitVec 256}

theorem CAddrInfo.newSlot_congr {e e' : CAddrInfo} (h : e.toCService = e'.toCService) :
    e.newSlot A nKey = e'.newSlot A nKey := by
  funext nUBucket
  rw [newSlot, newSlot, getBucketPosition, getBucketPosition, h]

theorem CAddrInfo.triedSlot_congr {e e' : CAddrInfo} (h : e.toCService = e'.toCService) :
    e.triedSlot A nKey = e'.triedSlot A nKey := by
  simp only [triedSlot, getBucketPosition, getTriedBucket, h]

/-! ## One entry -/

/-- The slots of an id, and what its entry says about them. -/
structure PlacedAt (A : AddrParams) (nKey : BitVec 256) (isLoose : Prop) (N : NewSlot → ℤ)
    (T : TriedSlot → ℤ) (nId : ℤ) (x : Option CAddrInfo) : Prop where
  /-- a slot of the new table that names it is one that it may have -/
  new : ∀ p, N p = nId → ∃ e ∈ x, e.fInTried = false ∧ e.newSlot A nKey p.1 = p
  tried : ∀ p, T p = nId → ∃ e ∈ x, e.fInTried = true ∧ e.triedSlot A nKey = p
  refs : ∀ e ∈ x, e.nRefCount = Slots.count N nId ∧ e.nRefCount ≤ ADDRMAN_NEW_BUCKETS_PER_ADDRESS
  held : ∀ e ∈ x, e.fInTried = false → ¬ isLoose → 0 < e.nRefCount
  home : ∀ e ∈ x, e.fInTried = true → T (e.triedSlot A nKey) = nId ∧ e.nLastSuccess ≠ 0
  times : ∀ e ∈ x, 0 ≤ e.nLastTry ∧ 0 ≤ e.nLastSuccess

namespace PlacedAt

variable {L L' : Prop} {N N' : NewSlot → ℤ} {T T' : TriedSlot → ℤ} {nId : ℤ} {x : Option CAddrInfo}
  {e : CAddrInfo}

/-- The slots of other entries do not matter. -/
theorem congr (h : PlacedAt A nKey L N T nId x) (hN : ∀ p, N' p = nId ↔ N p = nId)
    (hT : ∀ p, T' p = nId ↔ T p = nId) (hL : L → L') : PlacedAt A nKey L' N' T' nId x where
  new p hp := h.new p ((hN p).mp hp)
  tried p hp := h.tried p ((hT p).mp hp)
  refs e he := by
    have hcount : Slots.count N' nId = Slots.count N nId := by
      rw [Slots.count, Slots.count]
      exact congrArg Finset.card (Finset.filter_congr fun p _ ↦ hN p)
    rw [hcount]
    exact h.refs e he
  held e he htried hloose := h.held e he htried fun hl ↦ hloose (hL hl)
  home e he htried := ⟨(hT _).mpr (h.home e he htried).1, (h.home e he htried).2⟩
  times := h.times

/-- A new entry without references is in no slot. -/
theorem notMem_new (h : PlacedAt A nKey L N T nId (some e)) (hrefs : e.nRefCount = 0) (p : NewSlot) :
    N p ≠ nId := by
  refine Slots.count_eq_zero_iff.mp ?_ p
  have := (h.refs e rfl).1
  omega

theorem notMem_tried (h : PlacedAt A nKey L N T nId (some e)) (htried : e.fInTried = false)
    (p : TriedSlot) : T p ≠ nId := by
  intro hp
  obtain ⟨e', he', htried', -⟩ := h.tried p hp
  cases he'
  rw [htried] at htried'
  cases htried'

/-- An entry that has been tried has no references. -/
theorem refs_of_tried (h : PlacedAt A nKey L N T nId (some e)) (htried : e.fInTried = true) :
    e.nRefCount = 0 := by
  rw [(h.refs e rfl).1, Int.natCast_eq_zero, Slots.count_eq_zero_iff]
  intro p hp
  obtain ⟨e', he', htried', -⟩ := h.new p hp
  cases he'
  rw [htried] at htried'
  cases htried'

theorem refs_pos (h : PlacedAt A nKey L N T nId (some e)) {p : NewSlot} (hp : N p = nId) :
    0 < e.nRefCount := by
  rw [(h.refs e rfl).1, Int.natCast_pos]
  exact Slots.count_pos_iff.mpr ⟨p, hp⟩

theorem refs_nonneg (h : PlacedAt A nKey L N T nId (some e)) : 0 ≤ e.nRefCount := by
  rw [(h.refs e rfl).1]
  exact Int.natCast_nonneg _

/-- An entry that is in a slot is not loose. -/
theorem settle (h : PlacedAt A nKey L N T nId x) (hrefs : ∀ e ∈ x, e.fInTried = false →
    0 < e.nRefCount) : PlacedAt A nKey L' N T nId x :=
  { h with held := fun e he htried _ ↦ hrefs e he htried }

/-- The statistics of an entry change. -/
theorem change (h : PlacedAt A nKey L N T nId (some e)) {e' : CAddrInfo}
    (hservice : e'.toCService = e.toCService) (htried : e'.fInTried = e.fInTried)
    (hrefs : e'.nRefCount = e.nRefCount) (hsuccess : e.nLastSuccess ≠ 0 → e'.nLastSuccess ≠ 0)
    (htimes : 0 ≤ e'.nLastTry ∧ 0 ≤ e'.nLastSuccess) : PlacedAt A nKey L N T nId (some e') where
  new p hp := by
    obtain ⟨_, ⟨⟩, htried', hslot⟩ := h.new p hp
    exact ⟨e', rfl, htried.trans htried', by rw [CAddrInfo.newSlot_congr hservice, hslot]⟩
  tried p hp := by
    obtain ⟨_, ⟨⟩, htried', hslot⟩ := h.tried p hp
    exact ⟨e', rfl, htried.trans htried', by rw [CAddrInfo.triedSlot_congr hservice, hslot]⟩
  refs := by
    rintro _ ⟨⟩
    rw [hrefs]
    exact h.refs e rfl
  held := by
    rintro _ ⟨⟩ hnew hloose
    rw [hrefs]
    exact h.held e rfl (htried.symm.trans hnew) hloose
  home := by
    rintro _ ⟨⟩ htried'
    obtain ⟨hslot, hsuccess'⟩ := h.home e rfl (htried.symm.trans htried')
    exact ⟨by rw [CAddrInfo.triedSlot_congr hservice, hslot], hsuccess hsuccess'⟩
  times := by
    rintro _ ⟨⟩
    exact htimes

/-- It loses a slot of the new table. -/
theorem unref (h : PlacedAt A nKey L N T nId (some e)) (hid : nId ≠ -1) {p : NewSlot}
    (hp : N p = nId) : PlacedAt A nKey True (Function.update N p (-1)) T nId
      (some { e with nRefCount := e.nRefCount - 1 }) where
  new q hq := by
    have hne : q ≠ p := by
      rintro rfl
      rw [Function.update_self] at hq
      exact hid hq.symm
    rw [Function.update_of_ne hne] at hq
    obtain ⟨_, ⟨⟩, htried, hslot⟩ := h.new q hq
    exact ⟨_, rfl, htried, hslot⟩
  tried q hq := by
    obtain ⟨_, ⟨⟩, htried, hslot⟩ := h.tried q hq
    exact ⟨_, rfl, htried, hslot⟩
  refs := by
    rintro _ ⟨⟩
    obtain ⟨hrefs, hmax⟩ := h.refs e rfl
    have hcount := Slots.count_update_old (b := -1) hp (Ne.symm hid)
    refine ⟨?_, (Int.sub_le_self _ Int.one_nonneg).trans hmax⟩
    show e.nRefCount - 1 = _
    omega
  held _ _ _ hloose := absurd trivial hloose
  home := by
    rintro _ ⟨⟩ htried
    exact h.home e rfl htried
  times := by
    rintro _ ⟨⟩
    exact h.times e rfl

/-- It gets a slot of the new table. -/
theorem ref (h : PlacedAt A nKey L N T nId (some e)) {p : NewSlot} (hp : N p ≠ nId)
    (hslot : e.newSlot A nKey p.1 = p) (htried : e.fInTried = false)
    (hmax : e.nRefCount < ADDRMAN_NEW_BUCKETS_PER_ADDRESS) :
    PlacedAt A nKey L' (Function.update N p nId) T nId
      (some { e with nRefCount := e.nRefCount + 1 }) where
  new q hq := by
    by_cases hqp : q = p
    · exact ⟨_, rfl, htried, hqp ▸ hslot⟩
    · rw [Function.update_of_ne hqp] at hq
      obtain ⟨_, ⟨⟩, htried', hslot'⟩ := h.new q hq
      exact ⟨_, rfl, htried', hslot'⟩
  tried q hq := absurd hq (h.notMem_tried htried q)
  refs := by
    rintro _ ⟨⟩
    refine ⟨?_, hmax⟩
    show e.nRefCount + 1 = _
    rw [(h.refs e rfl).1, Slots.count_update_new hp]
    rfl
  held := by
    rintro _ ⟨⟩ - -
    exact Int.lt_add_one_of_le h.refs_nonneg
  home := by
    rintro _ ⟨⟩ htried'
    exact absurd htried' (by rw [htried]; exact Bool.false_ne_true)
  times := by
    rintro _ ⟨⟩
    exact h.times e rfl

/-- It is deleted. -/
theorem remove (h : PlacedAt A nKey L N T nId (some e)) (hrefs : e.nRefCount = 0)
    (htried : e.fInTried = false) : PlacedAt A nKey L' N T nId none where
  new p hp := absurd hp (h.notMem_new hrefs p)
  tried p hp := absurd hp (h.notMem_tried htried p)
  refs := nofun
  held := nofun
  home := nofun
  times := nofun

/-- It is made. -/
theorem fresh (h : PlacedAt A nKey L N T nId none) (hrefs : e.nRefCount = 0)
    (htried : e.fInTried = false) (htimes : 0 ≤ e.nLastTry ∧ 0 ≤ e.nLastSuccess) :
    PlacedAt A nKey True N T nId (some e) where
  new p hp := by
    obtain ⟨_, ⟨⟩, -⟩ := h.new p hp
  tried p hp := by
    obtain ⟨_, ⟨⟩, -⟩ := h.tried p hp
  refs := by
    rintro _ ⟨⟩
    have hcount : Slots.count N nId = 0 := Slots.count_eq_zero_iff.mpr fun p hp ↦ by
      obtain ⟨_, ⟨⟩, -⟩ := h.new p hp
    rw [hcount, hrefs]
    exact ⟨rfl, by decide⟩
  held _ _ _ hloose := absurd trivial hloose
  home := by
    rintro _ ⟨⟩ htried'
    exact absurd htried' (by rw [htried]; exact Bool.false_ne_true)
  times := by
    rintro _ ⟨⟩
    exact htimes

/-- It loses its slot of the tried table. -/
theorem evict (h : PlacedAt A nKey L N T nId (some e)) (hid : nId ≠ -1) {p : TriedSlot}
    (hp : T p = nId) : PlacedAt A nKey True N (Function.update T p (-1)) nId
      (some { e with fInTried := false }) where
  new q hq := by
    obtain ⟨_, ⟨⟩, -, hslot⟩ := h.new q hq
    exact ⟨_, rfl, rfl, hslot⟩
  tried q hq := by
    obtain ⟨_, ⟨⟩, -, hslot⟩ := h.tried p hp
    by_cases hqp : q = p
    · rw [hqp, Function.update_self] at hq
      exact absurd hq.symm hid
    · rw [Function.update_of_ne hqp] at hq
      obtain ⟨_, ⟨⟩, -, hslot'⟩ := h.tried q hq
      exact absurd (hslot'.symm.trans hslot) hqp
  refs := by
    rintro _ ⟨⟩
    exact h.refs e rfl
  held _ _ _ hloose := absurd trivial hloose
  home := by
    rintro _ ⟨⟩ htried
    cases htried
  times := by
    rintro _ ⟨⟩
    exact h.times e rfl

/-- It gets one. -/
theorem promote (h : PlacedAt A nKey L N T nId (some e)) (hrefs : e.nRefCount = 0)
    (htried : e.fInTried = false) (hsuccess : e.nLastSuccess ≠ 0) :
    PlacedAt A nKey L' N (Function.update T (e.triedSlot A nKey) nId) nId
      (some { e with fInTried := true }) where
  new q hq := absurd hq (h.notMem_new hrefs q)
  tried q hq := by
    by_cases hqp : q = e.triedSlot A nKey
    · exact ⟨_, rfl, rfl, hqp.symm⟩
    · rw [Function.update_of_ne hqp] at hq
      exact absurd hq (h.notMem_tried htried q)
  refs := by
    rintro _ ⟨⟩
    exact h.refs e rfl
  held := by
    rintro _ ⟨⟩ htried'
    cases htried'
  home := by
    rintro _ ⟨⟩ -
    exact ⟨Function.update_self .., hsuccess⟩
  times := by
    rintro _ ⟨⟩
    exact h.times e rfl

end PlacedAt

/-! ## All entries -/

/-- **The tables are right**, but for loose entries. -/
structure Placed (A : AddrParams) (nKey : BitVec 256) (loose : Set ℤ) (E : ℤ → Option CAddrInfo)
    (N : NewSlot → ℤ) (T : TriedSlot → ℤ) : Prop where
  /-- where there is no entry, there is none -/
  none : E (-1) = none
  place : ∀ nId, nId ≠ -1 → PlacedAt A nKey (nId ∈ loose) N T nId (E nId)

/-- The other ids in a table, when a slot changes between an id and nothing. -/
theorem update_eq_iff {ι : Type} [DecidableEq ι] {t : ι → ℤ} {p : ι} {nId a b : ℤ} (hp : t p = a)
    (ha : a = -1 ∨ a = nId) (hb : b = -1 ∨ b = nId) {j : ℤ} (hj : j ≠ -1) (hne : j ≠ nId) (q : ι) :
    Function.update t p b q = j ↔ t q = j := by
  by_cases hq : q = p
  · rw [hq, Function.update_self, hp]
    refine iff_of_false ?_ ?_
    · rintro rfl
      exact hb.elim hj hne
    · rintro rfl
      exact ha.elim hj hne
  · rw [Function.update_of_ne hq]

namespace Placed

variable {loose loose' : Set ℤ} {E : ℤ → Option CAddrInfo} {N N' : NewSlot → ℤ} {T T' : TriedSlot → ℤ}
  {nId : ℤ} {x : Option CAddrInfo}

/-- **A change of one entry and of its slots** -/
theorem update (h : Placed A nKey loose E N T) (hid : nId ≠ -1)
    (hN : ∀ j, j ≠ -1 → j ≠ nId → ∀ p, N' p = j ↔ N p = j)
    (hT : ∀ j, j ≠ -1 → j ≠ nId → ∀ p, T' p = j ↔ T p = j)
    (hloose : ∀ j, j ≠ nId → j ∈ loose → j ∈ loose')
    (hat : PlacedAt A nKey (nId ∈ loose') N' T' nId x) :
    Placed A nKey loose' (Function.update E nId x) N' T' where
  none := by rw [Function.update_of_ne (Ne.symm hid), h.none]
  place j hj := by
    by_cases hjid : j = nId
    · rw [hjid, Function.update_self]
      exact hat
    · rw [Function.update_of_ne hjid]
      exact (h.place j hj).congr (hN j hj hjid) (hT j hj hjid) (hloose j hjid)

theorem ne_of_some (h : Placed A nKey loose E N T) {e : CAddrInfo} (he : E nId = some e) :
    nId ≠ -1 := by
  rintro rfl
  rw [h.none] at he
  cases he

theorem at_some (h : Placed A nKey loose E N T) {e : CAddrInfo} (he : E nId = some e) :
    PlacedAt A nKey (nId ∈ loose) N T nId (some e) := he ▸ h.place nId (h.ne_of_some he)

/-- What is in a slot of the new table has an entry. -/
theorem new (h : Placed A nKey loose E N T) {p : NewSlot} (hp : N p ≠ -1) :
    ∃ e, E (N p) = some e ∧ e.fInTried = false ∧ e.newSlot A nKey p.1 = p :=
  (h.place (N p) hp).new p rfl

theorem tried (h : Placed A nKey loose E N T) {p : TriedSlot} (hp : T p ≠ -1) :
    ∃ e, E (T p) = some e ∧ e.fInTried = true ∧ e.triedSlot A nKey = p :=
  (h.place (T p) hp).tried p rfl

end Placed

end

end Bws
