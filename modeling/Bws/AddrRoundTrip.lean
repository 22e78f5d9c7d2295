import Bws.AddrSerialize

/-!
# What is written of the address manager is read back

The entries are numbered again.  What has been read so far is a list of records (`Loaded`), where a number
is a place in the list; the new ones come first.
-/

namespace Bws

namespace CAddrMan

variable {A : AddrParams} {s : CAddrMan}

/-- What there is to keep of an entry: its record, and whether it is tried -/
def record (s : CAddrMan) (nId : ℤ) : Option (Persisted × Bool) :=
  s.mapInfo[nId]?.map fun info ↦ (info.persisted, info.fInTried)

theorem record_eq_some_iff {nId : ℤ} {x : Persisted × Bool} : s.record nId = some x ↔
    ∃ info : CAddrInfo, s.mapInfo[nId]? = some info ∧ (info.persisted, info.fInTried) = x :=
  Option.map_eq_some_iff

/-! ## What is written -/

/-- The new entries, in the order of their ids -/
def newEntries (s : CAddrMan) : List (ℤ × CAddrInfo) := s.mapInfo.toList.filter fun x ↦ !x.2.fInTried

def triedEntries (s : CAddrMan) : List (ℤ × CAddrInfo) := s.mapInfo.toList.filter fun x ↦ x.2.fInTried

/-- The records of entries on disk -/
def putAll (l : List (ℤ × CAddrInfo)) : List UInt8 := l.flatMap fun x ↦ Persisted.codec.put x.2.persisted

/-- **The first loop of `Serialize`** writes the new entries and numbers them. -/
theorem writeNew_eq {nNew : ℤ} (l : List (ℤ × CAddrInfo)) (hl : (l.map Prod.fst).Nodup)
    (hrefs : ∀ x ∈ l, x.2.nRefCount ≠ 0 ↔ x.2.fInTried = false) (nIds : ℤ) (mapUnkIds : ℤ → ℤ)
    (hcount : nIds + (l.countP fun x ↦ !x.2.fInTried : ℕ) ≤ nNew) :
    ∃ ids : ℤ → ℤ, writeNew nNew l nIds mapUnkIds = .ok (putAll (l.filter fun x ↦ !x.2.fInTried), ids) ∧
      (∀ n, n ∉ l.map Prod.fst → ids n = mapUnkIds n) ∧
      ∀ (j : ℕ) x, (l.filter fun x ↦ !x.2.fInTried)[j]? = some x → ids x.1 = nIds + j := by
  induction l generalizing nIds mapUnkIds with
  | nil => exact ⟨mapUnkIds, rfl, fun _ _ ↦ rfl, fun j x hx ↦ by cases hx⟩
  | cons x l ih =>
    obtain ⟨n, info⟩ := x
    obtain ⟨hn, hl'⟩ := List.nodup_cons.mp hl
    obtain ⟨hx, hrefs'⟩ := List.forall_mem_cons.mp hrefs
    rw [List.countP_cons] at hcount
    have hother : ∀ {ids : ℤ → ℤ} {nIds : ℤ}, (∀ m, m ∉ l.map Prod.fst →
        ids m = Function.update mapUnkIds n nIds m) →
        ∀ m, m ∉ ((n, info) :: l).map Prod.fst → ids m = mapUnkIds m := by
      intro ids nIds hids m hm
      rw [List.map_cons, List.mem_cons, not_or] at hm
      rw [hids m hm.2, Function.update_of_ne hm.1]
    cases htried : info.fInTried with
    | false =>
      have hne : info.nRefCount ≠ 0 := hx.mpr htried
      rw [if_pos (by rw [htried]; rfl)] at hcount
      push_cast at hcount
      obtain ⟨ids, hids, hrest, hplace⟩ := ih hl' hrefs' (nIds + 1) (Function.update mapUnkIds n nIds)
        (by omega)
      refine ⟨ids, ?_, hother hrest, fun j y hy ↦ ?_⟩
      · rw [writeNew, if_pos hne, List.filter_cons_of_pos (by rw [htried]; rfl)]
        exact bind_eq_ok.mpr ⟨(), assert_eq_ok.mpr (by omega), bind_eq_ok.mpr ⟨_, hids, rfl⟩⟩
      · rw [List.filter_cons_of_pos (by rw [htried]; rfl)] at hy
        cases j with
        | zero =>
          cases hy
          rw [hrest n hn, Function.update_self]
          exact (Int.add_zero nIds).symm
        | succ j =>
          rw [hplace j y hy]
          push_cast
          omega
    | true =>
      have hzero : ¬ info.nRefCount ≠ 0 := by
        rw [hx, htried]
        exact Bool.noConfusion
      rw [if_neg (by rw [htried]; exact Bool.noConfusion), Nat.add_zero] at hcount
      obtain ⟨ids, hids, hrest, hplace⟩ := ih hl' hrefs' nIds (Function.update mapUnkIds n nIds) hcount
      refine ⟨ids, ?_, hother hrest, fun j y hy ↦ hplace j y ?_⟩
      · rw [writeNew, if_neg hzero, List.filter_cons_of_neg (by rw [htried]; exact Bool.noConfusion), hids]
      · rwa [List.filter_cons_of_neg (by rw [htried]; exact Bool.noConfusion)] at hy

/-- The second loop writes the tried entries. -/
theorem writeTried_eq {nTried : ℤ} (l : List (ℤ × CAddrInfo)) (nIds : ℤ)
    (hcount : nIds + (l.countP fun x ↦ x.2.fInTried : ℕ) ≤ nTried) :
    writeTried nTried l nIds = .ok (putAll (l.filter fun x ↦ x.2.fInTried)) := by
  induction l generalizing nIds with
  | nil => rfl
  | cons x l ih =>
    obtain ⟨n, info⟩ := x
    rw [List.countP_cons] at hcount
    cases htried : info.fInTried with
    | true =>
      rw [if_pos (by rw [htried])] at hcount
      push_cast at hcount
      rw [writeTried, if_pos htried, List.filter_cons_of_pos (by rw [htried])]
      exact bind_eq_ok.mpr ⟨(), assert_eq_ok.mpr (by omega), bind_eq_ok.mpr
        ⟨_, ih (nIds + 1) (by omega), rfl⟩⟩
    | false =>
      rw [if_neg (by rw [htried]; exact Bool.noConfusion), Nat.add_zero] at hcount
      rw [writeTried, if_neg (by rw [htried]; exact Bool.noConfusion),
        List.filter_cons_of_neg (by rw [htried]; exact Bool.noConfusion)]
      exact ih nIds hcount

/-! ## What is read -/

/-- The entry of a record -/
def info (r : Persisted) : CAddrInfo := CAddrInfo.blank.load r

/-- **The entries of a list of records have been read**, and their number is the place in the list. -/
structure Loaded (A : AddrParams) (R : List (Persisted × Bool)) (s : CAddrMan) : Prop where
  indexed : Indexed { s with nIdCount := R.length }
  placed : Placed A s.nKey Set.univ s.entry s.vvNew s.vvTried
  record : ∀ j : ℕ, s.record j = R[j]?
  length : s.vRandom.length = R.length
  slots : Slots.count s.vvTried (-1) + R.countP (fun x ↦ x.2) = 256 * 64

/-- Different records are of different addresses, and no two that are tried have the same slot. -/
structure Apart (A : AddrParams) (nKey : BitVec 256) (R : List (Persisted × Bool)) : Prop where
  addr : (R.map fun x ↦ x.1.service.ip).Nodup
  slot : ((R.filter fun x ↦ x.2).map fun x ↦ (info x.1).triedSlot A nKey).Nodup

namespace Loaded

variable {R : List (Persisted × Bool)}

theorem id (h : Loaded A R s) {nId : ℤ} {e : CAddrInfo} (he : s.mapInfo[nId]? = some e) :
    ∃ j : ℕ, nId = j ∧ R[j]? = some (e.persisted, e.fInTried) := by
  obtain ⟨hpos, -⟩ := h.indexed.id nId e he
  obtain ⟨j, rfl⟩ := Int.eq_ofNat_of_zero_le hpos
  refine ⟨j, rfl, ?_⟩
  rw [← h.record j]
  exact record_eq_some_iff.mpr ⟨e, he, rfl⟩

theorem getElem? (h : Loaded A R s) {j : ℕ} {x : Persisted × Bool} (hx : R[j]? = some x) :
    ∃ e : CAddrInfo, s.mapInfo[(j : ℤ)]? = some e ∧ (e.persisted, e.fInTried) = x := by
  rw [← h.record j] at hx
  exact record_eq_some_iff.mp hx

/-- An address that is in no record has not been entered. -/
theorem mapAddr (h : Loaded A R s) {ip : CNetAddr} (hip : ip ∉ R.map fun x ↦ x.1.service.ip) :
    s.mapAddr ip = none := by
  refine Option.eq_none_iff_forall_ne_some.mpr fun nId hid ↦ hip ?_
  obtain ⟨e, he, rfl⟩ := (h.indexed.addr ip nId).mp hid
  obtain ⟨j, -, hj⟩ := h.id he
  exact List.mem_map.mpr ⟨_, List.mem_of_getElem? hj, rfl⟩

theorem entry_none (h : Loaded A R s) : s.entry R.length = none :=
  h.indexed.entry_nIdCount

theorem record_enter (h : Loaded A R s) (e : CAddrInfo) (j : ℕ) :
    (s.enter R.length e).record j = (R ++ [(e.persisted, e.fInTried)])[j]? := by
  have hget := getElem?_insert_mapInfo s R.length { e with nRandomPos := s.vRandom.length } j
  rw [CAddrMan.record, show (s.enter R.length e).mapInfo[(j : ℤ)]? = _ from hget]
  by_cases hj : j = R.length
  · rw [hj, if_pos rfl, List.getElem?_concat_length]
    rfl
  · rw [if_neg (by omega)]
    refine (h.record j).trans ?_
    by_cases hlt : j < R.length
    · rw [List.getElem?_append_left hlt]
    · rw [List.getElem?_eq_none (by omega), List.getElem?_eq_none (by
        rw [List.length_append, List.length_singleton]
        omega)]

/-- **A new entry is read.** -/
theorem enter (h : Loaded A R s) {r : Persisted} (hr : 0 ≤ r.nLastSuccess)
    (hip : r.service.ip ∉ R.map fun x ↦ x.1.service.ip) :
    Loaded A (R ++ [(r, false)]) (s.enter R.length (info r)) where
  indexed := by
    have hlen : ((R ++ [(r, false)]).length : ℤ) = R.length + 1 := by
      rw [List.length_append, List.length_singleton]
      push_cast
      rfl
    rw [hlen]
    exact (h.indexed.enter (info r) (h.mapAddr hip)).same rfl rfl rfl rfl
  placed := by
    show Placed A s.nKey Set.univ (s.enter R.length (info r)).entry s.vvNew s.vvTried
    have hid : (R.length : ℤ) ≠ -1 := by omega
    rw [entry_enter]
    refine h.placed.update hid (fun _ _ _ _ ↦ Iff.rfl) (fun _ _ _ _ ↦ Iff.rfl) (fun _ _ hl ↦ hl) ?_
    have hat := h.placed.place R.length hid
    rw [h.entry_none] at hat
    exact (hat.fresh rfl rfl ⟨Int64.le_refl 0, hr⟩).congr (fun _ ↦ Iff.rfl) (fun _ ↦ Iff.rfl)
      fun _ ↦ Set.mem_univ _
  record := h.record_enter (info r)
  length := by
    show (s.vRandom ++ [_]).length = _
    rw [List.length_append, h.length, List.length_append]
    rfl
  slots := by
    have hslots := h.slots
    rw [List.countP_append]
    exact hslots

/-- **A tried entry is read.** -/
theorem enterTried (h : Loaded A R s) {r : Persisted} (hr : 0 ≤ r.nLastSuccess)
    (hsuccess : r.nLastSuccess ≠ 0) (hip : r.service.ip ∉ R.map fun x ↦ x.1.service.ip)
    (hslot : s.vvTried ((info r).triedSlot A s.nKey) = -1) :
    Loaded A (R ++ [(r, true)]) ((s.enter R.length { info r with fInTried := true }).setTried
      ((info r).triedSlot A s.nKey) R.length) where
  indexed := by
    have hlen : ((R ++ [(r, true)]).length : ℤ) = R.length + 1 := by
      rw [List.length_append, List.length_singleton]
      push_cast
      rfl
    rw [hlen]
    exact (h.indexed.enter { info r with fInTried := true } (h.mapAddr hip)).same rfl rfl rfl rfl
  placed := by
    show Placed A s.nKey Set.univ (s.enter R.length { info r with fInTried := true }).entry s.vvNew
      (Function.update s.vvTried ((info r).triedSlot A s.nKey) R.length)
    have hid : (R.length : ℤ) ≠ -1 := by omega
    rw [entry_enter]
    refine h.placed.update hid (fun _ _ _ _ ↦ Iff.rfl)
      (fun j hj hne ↦ update_eq_iff hslot (Or.inl rfl) (Or.inr rfl) hj hne) (fun _ _ hl ↦ hl) ?_
    have hat := h.placed.place R.length hid
    rw [h.entry_none] at hat
    exact (hat.fresh (e := { info r with nRandomPos := 0 }) rfl rfl ⟨Int64.le_refl 0, hr⟩).promote rfl rfl
      hsuccess
  record := h.record_enter { info r with fInTried := true }
  length := by
    show (s.vRandom ++ [_]).length = _
    rw [List.length_append, h.length, List.length_append]
    rfl
  slots := by
    have hid : (R.length : ℤ) ≠ -1 := by omega
    have hcount := Slots.count_update_old (b := (R.length : ℤ)) hslot hid
    have hslots := h.slots
    rw [List.countP_append]
    show Slots.count (Function.update s.vvTried _ (R.length : ℤ)) (-1) + (_ + 1) = _
    omega

end Loaded

/-- **The new entries are read back.** -/
theorem readNew_putAll {R : List (Persisted × Bool)} (h : Loaded A R s) (l : List (ℤ × CAddrInfo))
    (hl : ∀ x ∈ l, 0 ≤ x.2.nLastSuccess)
    (hapart : ((R ++ l.map fun x ↦ (x.2.persisted, false)).map fun x ↦ x.1.service.ip).Nodup)
    (rest : List UInt8) :
    ∃ s', readNew A true l.length R.length s (putAll l ++ rest) = .ok (s', rest) ∧
      Loaded A (R ++ l.map fun x ↦ (x.2.persisted, false)) s' ∧
      s'.nKey = s.nKey ∧ s'.nNew = s.nNew ∧ s'.nTried = s.nTried ∧ s'.vvNew = s.vvNew ∧
      s'.vvTried = s.vvTried := by
  induction l generalizing R s with
  | nil =>
    rw [List.map_nil, List.append_nil]
    exact ⟨s, rfl, h, rfl, rfl, rfl, rfl, rfl⟩
  | cons x l ih =>
    obtain ⟨hx, hl'⟩ := List.forall_mem_cons.mp hl
    have happend : R ++ (x :: l).map (fun x ↦ (x.2.persisted, false)) =
        (R ++ [(x.2.persisted, false)]) ++ l.map fun x ↦ (x.2.persisted, false) := by
      rw [List.map_cons, List.append_assoc, List.singleton_append]
    have hip : x.2.persisted.service.ip ∉ R.map fun x ↦ x.1.service.ip := by
      rw [List.map_append, List.map_map, List.map_cons] at hapart
      intro hmem
      exact (List.nodup_append.mp hapart).2.2 _ hmem _ List.mem_cons_self rfl
    have hblank : (s.mapInfo[(R.length : ℤ)]?.getD CAddrInfo.blank).load x.2.persisted =
        info x.2.persisted := by
      rw [entry_eq_none_iff.mp h.entry_none]
      rfl
    obtain ⟨s', hs', hloaded, hkey, hnNew, hnTried, hvvNew, hvvTried⟩ :=
      ih (h.enter (r := x.2.persisted) hx hip) hl' (by rwa [happend] at hapart)
    refine ⟨s', ?_, happend ▸ hloaded, hkey, hnNew, hnTried, hvvNew, hvvTried⟩
    rw [List.length_append, List.length_singleton] at hs'
    rw [List.length_cons, readNew, putAll, List.flatMap_cons, List.append_assoc]
    refine bind_eq_ok.mpr ⟨_, read_put x.2.persisted.valid_codec _, ?_⟩
    dsimp only
    rw [hblank]
    exact_mod_cast hs'

/-- A slot of the tried table that no record has is free. -/
theorem Loaded.vvTried_eq {R : List (Persisted × Bool)} (h : Loaded A R s) {p : TriedSlot}
    (hp : p ∉ (R.filter fun x ↦ x.2).map fun x ↦ (info x.1).triedSlot A s.nKey) :
    s.vvTried p = -1 := by
  by_contra hne
  obtain ⟨e, he, htried, hslot⟩ := h.placed.tried hne
  obtain ⟨e', he', rfl⟩ := exists_getElem? he
  obtain ⟨j, -, hj⟩ := h.id he'
  refine hp (List.mem_map.mpr ⟨_, List.mem_filter.mpr ⟨List.mem_of_getElem? hj, htried⟩, ?_⟩)
  rw [← hslot]
  exact CAddrInfo.triedSlot_congr rfl

/-- **The tried entries are read back**, and none is lost. -/
theorem readTried_putAll {R : List (Persisted × Bool)} (h : Loaded A R s)
    (hcount : s.nIdCount = R.length) (l : List (ℤ × CAddrInfo))
    (hl : ∀ x ∈ l, 0 ≤ x.2.nLastSuccess ∧ x.2.nLastSuccess ≠ 0)
    (hapart : Apart A s.nKey (R ++ l.map fun x ↦ (x.2.persisted, true))) (rest : List UInt8) :
    ∃ s', readTried A l.length s (putAll l ++ rest) 0 = .ok (s', rest, 0) ∧
      Loaded A (R ++ l.map fun x ↦ (x.2.persisted, true)) s' ∧
      s'.nIdCount = (R ++ l.map fun x ↦ (x.2.persisted, true)).length ∧
      s'.nKey = s.nKey ∧ s'.nNew = s.nNew ∧ s'.nTried = s.nTried ∧ s'.vvNew = s.vvNew := by
  induction l generalizing R s with
  | nil =>
    rw [List.map_nil, List.append_nil]
    exact ⟨s, rfl, h, hcount, rfl, rfl, rfl, rfl⟩
  | cons x l ih =>
    obtain ⟨⟨hx, hsuccess⟩, hl'⟩ := List.forall_mem_cons.mp hl
    have happend : R ++ (x :: l).map (fun x ↦ (x.2.persisted, true)) =
        (R ++ [(x.2.persisted, true)]) ++ l.map fun x ↦ (x.2.persisted, true) := by
      rw [List.map_cons, List.append_assoc, List.singleton_append]
    have hip : x.2.persisted.service.ip ∉ R.map fun x ↦ x.1.service.ip := by
      have haddr := hapart.addr
      rw [List.map_append, List.map_map, List.map_cons] at haddr
      intro hmem
      exact (List.nodup_append.mp haddr).2.2 _ hmem _ List.mem_cons_self rfl
    have hfree : s.vvTried ((info x.2.persisted).triedSlot A s.nKey) = -1 := by
      have hslot := hapart.slot
      rw [List.filter_append, List.map_append, List.map_cons, List.filter_cons_of_pos rfl,
        List.map_cons] at hslot
      exact h.vvTried_eq fun hmem ↦ (List.nodup_append.mp hslot).2.2 _ hmem _ List.mem_cons_self rfl
    have hnext : s.nIdCount + 1 = (R ++ [(x.2.persisted, true)]).length := by
      rw [hcount, List.length_append, List.length_singleton]
      push_cast
      rfl
    have hloaded := h.enterTried (r := x.2.persisted) hx hsuccess hip hfree
    set s₁ := (s.enter R.length { info x.2.persisted with fInTried := true }).setTried
      ((info x.2.persisted).triedSlot A s.nKey) R.length with hs₁
    set s₂ : CAddrMan := { s₁ with nIdCount := s.nIdCount + 1 } with hs₂
    have hloaded₂ : Loaded A (R ++ [(x.2.persisted, true)]) s₂ :=
      ⟨hloaded.indexed, hloaded.placed, hloaded.record, hloaded.length, hloaded.slots⟩
    obtain ⟨s', hs', hloaded', hcount', hkey, hnNew, hnTried, hvvNew⟩ :=
      ih hloaded₂ hnext hl' (by rwa [happend] at hapart)
    refine ⟨s', ?_, happend ▸ hloaded', happend ▸ hcount', hkey, hnNew, hnTried, hvvNew⟩
    rw [List.length_cons, readTried, putAll, List.flatMap_cons, List.append_assoc]
    refine bind_eq_ok.mpr ⟨_, read_put x.2.persisted.valid_codec _, ?_⟩
    dsimp only
    have hfree' : s.vvTried (CAddrInfo.triedSlot A s.nKey
        { CAddrInfo.blank.load x.2.persisted with fInTried := true }) = -1 := hfree
    rw [if_pos hfree']
    have hstate : (({ s.enter s.nIdCount { CAddrInfo.blank.load x.2.persisted with fInTried := true } with
        nIdCount := s.nIdCount + 1 } : CAddrMan).setTried (CAddrInfo.triedSlot A s.nKey
        { CAddrInfo.blank.load x.2.persisted with fInTried := true }) (s.nIdCount + 1 - 1)) = s₂ := by
      rw [Int.add_sub_cancel, hs₂, hs₁, ← hcount]
      rfl
    rw [hstate]
    exact hs'

/-! ## The slots of the new table -/

/-- The table `N` of new entries can be built again from the records: it names only entries that may be
where they are, and none too often. -/
structure Rebuildable (A : AddrParams) (nKey : BitVec 256) (nNew : ℤ) (R : List (Persisted × Bool))
    (N : NewSlot → ℤ) : Prop where
  slot : ∀ p, N p ≠ -1 → N p < nNew ∧ ∃ (j : ℕ) (r : Persisted), N p = j ∧ R[j]? = some (r, false) ∧
    (info r).newSlot A nKey p.1 = p
  count : ∀ nId, nId ≠ -1 → (Slots.count N nId : ℤ) ≤ ADDRMAN_NEW_BUCKETS_PER_ADDRESS

/-- The slots of a list have been read. -/
def partOf (N : NewSlot → ℤ) (l : List NewSlot) (p : NewSlot) : ℤ := if p ∈ l then N p else -1

theorem partOf_cons (N : NewSlot → ℤ) (l : List NewSlot) (p : NewSlot) :
    partOf N (p :: l) = Function.update (partOf N l) p (N p) := by
  funext q
  by_cases hq : q = p
  · rw [hq, Function.update_self, partOf, if_pos List.mem_cons_self]
  · rw [Function.update_of_ne hq, partOf, partOf]
    simp only [List.mem_cons, hq, false_or]

/-- **A number in a bucket is read**: the entry gets the slot back that it had. -/
theorem Loaded.readIndex {R : List (Persisted × Bool)} (h : Loaded A R s) {N : NewSlot → ℤ}
    (hN : Rebuildable A s.nKey s.nNew R N) {l : List NewSlot} (hpart : s.vvNew = partOf N l)
    {p : NewSlot} (hp : N p ≠ -1) (hl : p ∉ l) :
    ∃ s', readIndex A s p.1 (N p) = s' ∧ Loaded A R s' ∧ s'.vvNew = partOf N (p :: l) ∧
      s'.nIdCount = s.nIdCount ∧ s'.nKey = s.nKey ∧ s'.nNew = s.nNew ∧ s'.nTried = s.nTried := by
  obtain ⟨hlt, j, r, hj, hr, hslot⟩ := hN.slot p hp
  obtain ⟨e, he, heq⟩ := h.getElem? hr
  have hrec : e.persisted = r := congrArg Prod.fst heq
  have htried : e.fInTried = false := congrArg Prod.snd heq
  rw [← hj] at he
  have hservice : e.toCService = (info r).toCService := congrArg Persisted.service hrec
  have hslot' : e.newSlot A s.nKey p.1 = p := by rw [CAddrInfo.newSlot_congr hservice, hslot]
  have hfree : s.vvNew p = -1 := by rw [hpart, partOf, if_neg hl]
  have hat := h.placed.at_some (entry_of_getElem? he)
  have hmax : e.nRefCount < ADDRMAN_NEW_BUCKETS_PER_ADDRESS := by
    have hrefs : e.nRefCount = Slots.count s.vvNew (N p) := (hat.refs _ rfl).1
    have hnew := Slots.count_update_new (t := s.vvNew) (i := p) (a := N p) (by rw [hfree]; exact Ne.symm hp)
    have hmono : Slots.count (Function.update s.vvNew p (N p)) (N p) ≤ Slots.count N (N p) := by
      refine Slots.count_mono fun q hq ↦ ?_
      by_cases hqp : q = p
      · rw [hqp]
      · rw [Function.update_of_ne hqp, hpart, partOf] at hq
        split at hq
        · exact hq
        · exact absurd hq.symm hp
    have hall := hN.count (N p) hp
    omega
  set f : CAddrInfo → CAddrInfo := fun info ↦ { info with nRefCount := info.nRefCount + 1 }
  refine ⟨(s.setNew p (N p)).modifyInfo (N p) f, ?_,
    ⟨(h.indexed.modifyInfo (f := f) (N p) (fun _ ↦ rfl) fun _ ↦ rfl).same rfl rfl rfl rfl, ?_, ?_,
      h.length, h.slots⟩, ?_, rfl, rfl, rfl, rfl⟩
  · rw [CAddrMan.readIndex, if_pos ⟨by omega, hlt⟩, he]
    dsimp only
    rw [if_pos hmax, hslot', refer, if_pos hfree]
  · show Placed A s.nKey Set.univ ((s.setNew p (N p)).modifyInfo (N p) f).entry
      (Function.update s.vvNew p (N p)) s.vvTried
    rw [entry_modifyInfo (fun _ ↦ rfl), show (s.setNew p (N p)).entry = s.entry from rfl,
      entry_of_getElem? he, Option.map_some]
    exact h.placed.update hp (fun i hi hne ↦ update_eq_iff hfree (Or.inl rfl) (Or.inr rfl) hi hne)
      (fun _ _ _ _ ↦ Iff.rfl) (fun _ _ hl ↦ hl)
      (hat.ref (by rw [hfree]; exact Ne.symm hp) hslot' htried hmax)
  · intro i
    rw [CAddrMan.record, getElem?_modifyInfo, ← h.record i]
    by_cases hi : (i : ℤ) = N p
    · rw [if_pos hi, Option.map_map, ← hi]
      rfl
    · rw [if_neg hi]
      rfl
  · rw [partOf_cons, ← hpart]
    rfl

theorem toInt_ofInt {x : ℤ} (h₁ : 0 ≤ x) (h₂ : x < 2 ^ 31) : (Int32.ofInt x).toInt = x :=
  Int32.toInt_ofInt_of_le (by omega) (by omega)

/-- The numbers of a bucket, for some of its positions -/
def putIndexes (N : NewSlot → ℤ) (bucket : Fin 1024) (positions : List (Fin 64)) : List UInt8 :=
  positions.flatMap fun i ↦ Codec.int32.put (Int32.ofInt (N (bucket, i)))

/-- A bucket of the new table -/
def putBucket (N : NewSlot → ℤ) (bucket : Fin 1024) : List UInt8 :=
  Codec.int32.put (Int32.ofInt ((List.finRange 64).filter fun i ↦ N (bucket, i) ≠ -1).length) ++
    putIndexes N bucket ((List.finRange 64).filter fun i ↦ N (bucket, i) ≠ -1)

/-- While the positions are read, the entries and the rest stay. -/
structure Rebuilt (A : AddrParams) (R : List (Persisted × Bool)) (N : NewSlot → ℤ) (s s' : CAddrMan)
    (l : List NewSlot) : Prop where
  loaded : Loaded A R s'
  vvNew : s'.vvNew = partOf N l
  nIdCount : s'.nIdCount = s.nIdCount
  nKey : s'.nKey = s.nKey
  nNew : s'.nNew = s.nNew
  nTried : s'.nTried = s.nTried

theorem readIndexes_putIndexes {R : List (Persisted × Bool)} {N : NewSlot → ℤ} {s₀ : CAddrMan}
    (hN : Rebuildable A s₀.nKey s₀.nNew R N) (hnNew : s₀.nNew < 2 ^ 31) (bucket : Fin 1024)
    (positions : List (Fin 64)) (hnodup : positions.Nodup) (hne : ∀ i ∈ positions, N (bucket, i) ≠ -1)
    {l : List NewSlot} (hl : ∀ i ∈ positions, (bucket, i) ∉ l) (h : Rebuilt A R N s₀ s l)
    (rest : List UInt8) :
    ∃ s', readIndexes A (some bucket) positions.length s (putIndexes N bucket positions ++ rest) =
        .ok (s', rest) ∧ Rebuilt A R N s₀ s' ((positions.map fun i ↦ (bucket, i)).reverse ++ l) := by
  induction positions generalizing s l with
  | nil => exact ⟨s, rfl, h⟩
  | cons i positions ih =>
    obtain ⟨hi, hnodup'⟩ := List.nodup_cons.mp hnodup
    obtain ⟨hnei, hne'⟩ := List.forall_mem_cons.mp hne
    obtain ⟨hli, hl'⟩ := List.forall_mem_cons.mp hl
    have hN' : Rebuildable A s.nKey s.nNew R N := by
      rw [h.nKey, h.nNew]
      exact hN
    obtain ⟨s₁, hs₁, hloaded, hvvNew, hnIdCount, hnKey, hnNew', hnTried⟩ :=
      h.loaded.readIndex hN' h.vvNew hnei hli
    obtain ⟨hlt, j, -, hj, -⟩ := hN.slot (bucket, i) hnei
    have h₁ : Rebuilt A R N s₀ s₁ ((bucket, i) :: l) := ⟨hloaded, hvvNew, hnIdCount.trans h.nIdCount,
      hnKey.trans h.nKey, hnNew'.trans h.nNew, hnTried.trans h.nTried⟩
    obtain ⟨s', hs', h'⟩ := ih hnodup' hne' (l := (bucket, i) :: l) (fun k hk hmem ↦ by
      rcases List.mem_cons.mp hmem with heq | hmem
      · exact hi ((Prod.mk.inj heq).2 ▸ hk)
      · exact hl' k hk hmem) h₁
    refine ⟨s', ?_, ?_⟩
    · rw [List.length_cons, readIndexes, putIndexes, List.flatMap_cons, List.append_assoc]
      refine bind_eq_ok.mpr ⟨_, read_put (Codec.valid_int32 _) _, ?_⟩
      dsimp only [Option.elim_some]
      rw [toInt_ofInt (by omega) (by omega), hs₁]
      exact hs'
    · rw [List.map_cons, List.reverse_cons, List.append_assoc]
      exact h'

theorem readBuckets_putBucket {R : List (Persisted × Bool)} {N : NewSlot → ℤ} {s₀ : CAddrMan}
    (hN : Rebuildable A s₀.nKey s₀.nNew R N) (hnNew : s₀.nNew < 2 ^ 31) (buckets : List (Fin 1024))
    (hnodup : buckets.Nodup) {l : List NewSlot} (hl : ∀ p ∈ l, p.1 ∉ buckets)
    (h : Rebuilt A R N s₀ s l) (rest : List UInt8) :
    ∃ s' l', readBuckets A (buckets.map some) s (buckets.flatMap (putBucket N) ++ rest) =
        .ok (s', rest) ∧ Rebuilt A R N s₀ s' l' ∧
      ∀ p, N p ≠ -1 → (p ∈ l' ↔ p ∈ l ∨ p.1 ∈ buckets) := by
  induction buckets generalizing s l with
  | nil => exact ⟨s, l, rfl, h, fun p _ ↦ (or_iff_left List.not_mem_nil).symm⟩
  | cons bucket buckets ih =>
    obtain ⟨hb, hnodup'⟩ := List.nodup_cons.mp hnodup
    have hlen := List.length_filter_le (fun i ↦ N (bucket, i) ≠ -1) (List.finRange 64)
    rw [List.length_finRange] at hlen
    set positions := (List.finRange 64).filter fun i ↦ N (bucket, i) ≠ -1 with hpositions
    have hmem : ∀ i, i ∈ positions ↔ N (bucket, i) ≠ -1 := fun i ↦ by simp [hpositions]
    obtain ⟨s₁, hs₁, h₁⟩ := readIndexes_putIndexes hN hnNew bucket positions
      ((List.nodup_finRange 64).filter _) (fun i hi ↦ (hmem i).mp hi)
      (fun i _ hil ↦ hl _ hil List.mem_cons_self) h (buckets.flatMap (putBucket N) ++ rest)
    obtain ⟨s', l', hs', h', hl'⟩ := ih hnodup'
      (l := (positions.map fun i ↦ (bucket, i)).reverse ++ l) (fun p hp hpb ↦ by
        rcases List.mem_append.mp hp with hp | hp
        · obtain ⟨i, -, rfl⟩ := List.mem_map.mp (List.mem_reverse.mp hp)
          exact hb hpb
        · exact hl p hp (List.mem_cons_of_mem _ hpb)) h₁
    refine ⟨s', l', ?_, h', fun p hp ↦ ?_⟩
    · rw [List.map_cons, readBuckets, List.flatMap_cons, putBucket, ← hpositions, List.append_assoc,
        List.append_assoc]
      refine bind_eq_ok.mpr ⟨_, read_put (Codec.valid_int32 _) _, ?_⟩
      dsimp only
      rw [toInt_ofInt (by omega) (by omega), Int.toNat_natCast]
      exact bind_eq_ok.mpr ⟨_, hs₁, hs'⟩
    · rw [hl' p hp, List.mem_append, List.mem_reverse, List.mem_map, List.mem_cons]
      constructor
      · rintro ((⟨i, -, rfl⟩ | hp) | hp)
        · exact Or.inr (Or.inl rfl)
        · exact Or.inl hp
        · exact Or.inr (Or.inr hp)
      · rintro (hp | rfl | hp)
        · exact Or.inl (Or.inr hp)
        · exact Or.inl (Or.inl ⟨p.2, (hmem p.2).mpr hp, rfl⟩)
        · exact Or.inr hp

/-- No entry is pruned that has a slot. -/
theorem prune_eq (l : List (ℤ × CAddrInfo))
    (hl : ∀ x ∈ l, x.2.fInTried = false → x.2.nRefCount ≠ 0) : prune l s = .ok s := by
  induction l with
  | nil => rfl
  | cons x l ih =>
    obtain ⟨hx, hl'⟩ := List.forall_mem_cons.mp hl
    obtain ⟨n, info⟩ := x
    rw [prune, if_neg fun h ↦ hx h.1 h.2]
    exact ih hl'

/-! ## The round trip -/

/-- The records in the order in which they are written -/
def records (s : CAddrMan) : List (Persisted × Bool) :=
  (s.newEntries.map fun x ↦ (x.2.persisted, false)) ++ s.triedEntries.map fun x ↦ (x.2.persisted, true)

/-- The new table, with the numbers that the entries get. -/
def renumbered (s : CAddrMan) (ids : ℤ → ℤ) (p : NewSlot) : ℤ :=
  if s.vvNew p = -1 then -1 else ids (s.vvNew p)

theorem mem_newEntries {x : ℤ × CAddrInfo} :
    x ∈ s.newEntries ↔ s.mapInfo[x.1]? = some x.2 ∧ x.2.fInTried = false := by
  rw [newEntries, List.mem_filter, ← Std.TreeMap.mem_toList_iff_getElem?_eq_some, Bool.not_eq_true']

theorem mem_triedEntries {x : ℤ × CAddrInfo} :
    x ∈ s.triedEntries ↔ s.mapInfo[x.1]? = some x.2 ∧ x.2.fInTried = true := by
  rw [triedEntries, List.mem_filter, ← Std.TreeMap.mem_toList_iff_getElem?_eq_some]

/-- An entry is written once, with what there is to keep of it. -/
theorem mem_records {x : Persisted × Bool} : x ∈ s.records ↔ ∃ nId, s.record nId = some x := by
  rw [records, List.mem_append, List.mem_map, List.mem_map]
  constructor
  · rintro (⟨y, hy, rfl⟩ | ⟨y, hy, rfl⟩)
    · obtain ⟨hget, htried⟩ := mem_newEntries.mp hy
      exact ⟨y.1, record_eq_some_iff.mpr ⟨y.2, hget, by rw [htried]⟩⟩
    · obtain ⟨hget, htried⟩ := mem_triedEntries.mp hy
      exact ⟨y.1, record_eq_some_iff.mpr ⟨y.2, hget, by rw [htried]⟩⟩
  · rintro ⟨nId, hid⟩
    obtain ⟨e, he, rfl⟩ := record_eq_some_iff.mp hid
    cases htried : e.fInTried with
    | false => exact Or.inl ⟨(nId, e), mem_newEntries.mpr ⟨he, htried⟩, rfl⟩
    | true => exact Or.inr ⟨(nId, e), mem_triedEntries.mpr ⟨he, htried⟩, rfl⟩

namespace Checked

theorem at_getElem? (h : Checked A s) {nId : ℤ} {e : CAddrInfo} (he : s.mapInfo[nId]? = some e) :
    PlacedAt A s.nKey False s.vvNew s.vvTried nId (some { e with nRandomPos := 0 }) :=
  (h.placed.at_some (entry_of_getElem? he)).congr (fun _ ↦ Iff.rfl) (fun _ ↦ Iff.rfl)
    fun hl ↦ Set.notMem_empty nId hl

/-- A new entry is in a slot. -/
theorem exists_slot (h : Checked A s) {x : ℤ × CAddrInfo} (hx : x ∈ s.newEntries) :
    ∃ p, s.vvNew p = x.1 := by
  obtain ⟨hget, htried⟩ := mem_newEntries.mp hx
  have hat := h.at_getElem? hget
  have hpos := hat.held { x.2 with nRandomPos := 0 } rfl htried not_false
  rw [(hat.refs _ rfl).1, Int.natCast_pos] at hpos
  exact Slots.count_pos_iff.mp hpos

theorem length_newEntries (h : Checked A s) : s.newEntries.length ≤ 1024 * 64 := by
  have hnodup : (s.newEntries.map Prod.fst).Nodup := s.nodup_keys.sublist (List.filter_sublist.map _)
  have hsub : s.newEntries.map Prod.fst ⊆
      ((List.finRange 1024).product (List.finRange 64)).map s.vvNew := by
    intro n hn
    obtain ⟨x, hx, rfl⟩ := List.mem_map.mp hn
    obtain ⟨p, hp⟩ := h.exists_slot hx
    exact List.mem_map.mpr ⟨p, mem_slots p, hp⟩
  have hle := (hnodup.subperm hsub).length_le
  rw [List.length_map, List.length_map] at hle
  refine hle.trans_eq ((List.length_product _ _).trans ?_)
  rw [List.length_finRange, List.length_finRange]

theorem length_triedEntries (h : Checked A s) : s.triedEntries.length ≤ 256 * 64 := by
  have hcount := countP_tried h.placed
  rw [triedEntries, ← List.countP_eq_length_filter]
  omega

theorem nNew_eq (h : Checked A s) : s.nNew = s.newEntries.length := by
  rw [h.nNew, newEntries, List.countP_eq_length_filter]

theorem nTried_eq (h : Checked A s) : s.nTried = s.triedEntries.length := by
  rw [h.nTried, triedEntries, List.countP_eq_length_filter]

theorem apart (h : Checked A s) : Apart A s.nKey s.records where
  addr := by
    have hperm : (s.newEntries ++ s.triedEntries).Perm s.mapInfo.toList :=
      List.perm_append_comm.trans (List.filter_append_perm _ _)
    have hnodup : (s.newEntries ++ s.triedEntries).Nodup := hperm.nodup_iff.mpr s.nodup_keys.of_map
    have hmap : (s.records.map fun x ↦ x.1.service.ip) =
        (s.newEntries ++ s.triedEntries).map fun x ↦ x.2.ip := by
      rw [records, List.map_append, List.map_append, List.map_map, List.map_map]
      rfl
    rw [hmap]
    refine hnodup.map_on fun x hx y hy heq ↦ ?_
    have hgetx := Std.TreeMap.mem_toList_iff_getElem?_eq_some.mp (hperm.mem_iff.mp hx)
    have hgety := Std.TreeMap.mem_toList_iff_getElem?_eq_some.mp (hperm.mem_iff.mp hy)
    have hid : x.1 = y.1 := by rw [← h.addr _ _ hgetx, ← h.addr _ _ hgety, heq]
    rw [hid, hgety] at hgetx
    exact Prod.ext hid (Option.some.inj hgetx).symm
  slot := by
    have hfilter : (s.records.filter fun x ↦ x.2) =
        s.triedEntries.map fun x ↦ (x.2.persisted, true) := by
      rw [records, List.filter_append, List.filter_eq_nil_iff.mpr, List.nil_append,
        List.filter_eq_self.mpr]
      · intro x hx
        obtain ⟨y, -, rfl⟩ := List.mem_map.mp hx
        rfl
      · intro x hx
        obtain ⟨y, -, rfl⟩ := List.mem_map.mp hx
        exact Bool.noConfusion
    rw [hfilter, List.map_map]
    have hnodup : s.triedEntries.Nodup := s.nodup_keys.of_map.filter _
    refine hnodup.map_on fun x hx y hy heq ↦ ?_
    obtain ⟨hgetx, htriedx⟩ := mem_triedEntries.mp hx
    obtain ⟨hgety, htriedy⟩ := mem_triedEntries.mp hy
    have hslotx := ((h.at_getElem? hgetx).home { x.2 with nRandomPos := 0 } rfl htriedx).1
    have hsloty := ((h.at_getElem? hgety).home { y.2 with nRandomPos := 0 } rfl htriedy).1
    have hsame : CAddrInfo.triedSlot A s.nKey { x.2 with nRandomPos := 0 } =
        CAddrInfo.triedSlot A s.nKey { y.2 with nRandomPos := 0 } := by
      refine (CAddrInfo.triedSlot_congr rfl).trans (Eq.trans heq ?_)
      exact CAddrInfo.triedSlot_congr rfl
    have hid : x.1 = y.1 := by rw [← hslotx, ← hsloty, hsame]
    rw [hid, hgety] at hgetx
    exact Prod.ext hid (Option.some.inj hgetx).symm

/-- What the first loop says about the number of an entry -/
def Numbers (s : CAddrMan) (ids : ℤ → ℤ) : Prop :=
  ∀ (j : ℕ) (x : ℤ × CAddrInfo), s.newEntries[j]? = some x → ids x.1 = j

/-- A slot that is taken names a new entry, and its number is put there. -/
theorem renumbered_eq (h : Checked A s) {ids : ℤ → ℤ} (hids : Numbers s ids) {p : NewSlot}
    (hp : s.vvNew p ≠ -1) : ∃ (j : ℕ) (e : CAddrInfo), s.mapInfo[s.vvNew p]? = some e ∧
      e.fInTried = false ∧ e.newSlot A s.nKey p.1 = p ∧ s.newEntries[j]? = some (s.vvNew p, e) ∧
      s.renumbered ids p = j := by
  obtain ⟨e, he, htried, hslot⟩ := h.placed.new hp
  obtain ⟨e, hget, rfl⟩ := exists_getElem? he
  have hmem : (s.vvNew p, e) ∈ s.newEntries := mem_newEntries.mpr ⟨hget, htried⟩
  obtain ⟨j, hj⟩ := List.mem_iff_getElem?.mp hmem
  exact ⟨j, e, hget, htried, hslot, hj, by rw [renumbered, if_neg hp, hids j _ hj]⟩

theorem renumbered_ne (h : Checked A s) {ids : ℤ → ℤ} (hids : Numbers s ids) {p : NewSlot} :
    s.renumbered ids p ≠ -1 ↔ s.vvNew p ≠ -1 := by
  constructor
  · intro hne hp
    exact hne (by rw [renumbered, if_pos hp])
  · intro hp
    obtain ⟨j, e, -, -, -, -, hj⟩ := h.renumbered_eq hids hp
    omega

theorem records_getElem? {j : ℕ} {x : ℤ × CAddrInfo} (hx : s.newEntries[j]? = some x) :
    s.records[j]? = some (x.2.persisted, false) := by
  obtain ⟨hlt, -⟩ := List.getElem?_eq_some_iff.mp hx
  rw [records, List.getElem?_append_left (by rwa [List.length_map]), List.getElem?_map, hx,
    Option.map_some]

theorem rebuildable (h : Checked A s) {ids : ℤ → ℤ} (hids : Numbers s ids) :
    Rebuildable A s.nKey s.nNew s.records (s.renumbered ids) where
  slot p hp := by
    obtain ⟨j, e, hget, htried, hslot, hj, hnum⟩ := h.renumbered_eq hids ((h.renumbered_ne hids).mp hp)
    obtain ⟨hlt, -⟩ := List.getElem?_eq_some_iff.mp hj
    refine ⟨by rw [hnum, h.nNew_eq]; omega, j, e.persisted, hnum, records_getElem? hj, ?_⟩
    rw [← hslot]
    exact congrFun (CAddrInfo.newSlot_congr rfl) p.1
  count nId hid := by
    by_cases hnone : Slots.count (s.renumbered ids) nId = 0
    · rw [hnone]
      decide
    · -- all slots with that number name one entry
      obtain ⟨p, hp⟩ := Slots.count_pos_iff.mp (Nat.pos_of_ne_zero hnone)
      have hpne : s.vvNew p ≠ -1 := (h.renumbered_ne hids).mp (hp ▸ hid)
      obtain ⟨j, e, hget, -, -, hj, hnum⟩ := h.renumbered_eq hids hpne
      have hle : Slots.count (s.renumbered ids) nId ≤ Slots.count s.vvNew (s.vvNew p) := by
        refine Slots.count_mono fun q hq ↦ ?_
        have hqne : s.vvNew q ≠ -1 := (h.renumbered_ne hids).mp (hq ▸ hid)
        obtain ⟨i, e', -, -, -, hi, hnum'⟩ := h.renumbered_eq hids hqne
        have hij : i = j := Int.ofNat_inj.mp (hnum'.symm.trans (hq.trans (hp.symm.trans hnum)))
        rw [hij, hj] at hi
        exact (Prod.mk.inj (Option.some.inj hi)).1.symm
      obtain ⟨hrefs, hmax⟩ := (h.at_getElem? hget).refs _ rfl
      rw [hrefs] at hmax
      exact (Int.ofNat_le.mpr hle).trans hmax

end Checked

/-- The bytes of a manager whose entries have those numbers -/
def encoded (s : CAddrMan) (ids : ℤ → ℤ) : List UInt8 :=
  (Codec.uint 1).put 1 ++ ((Codec.uint 1).put 32 ++ (Codec.uint256.put s.nKey ++
    (Codec.int32.put (Int32.ofInt s.nNew) ++ (Codec.int32.put (Int32.ofInt s.nTried) ++
      (Codec.int32.put ((1024 : Int32) ^^^ (1 : Int32) <<< 30) ++ (putAll s.newEntries ++
        (putAll s.triedEntries ++ ((List.finRange 1024).flatMap (putBucket (s.renumbered ids)) ++ []))))))))

/-- **`Serialize` writes a manager that passes its check.** -/
theorem Checked.serialize_eq (h : Checked A s) :
    ∃ ids, s.serialize = .ok (s.encoded ids) ∧ Checked.Numbers s ids := by
  have hrefs : ∀ x ∈ s.mapInfo.toList, x.2.nRefCount ≠ 0 ↔ x.2.fInTried = false := by
    intro x hx
    have hat := h.at_getElem? (Std.TreeMap.mem_toList_iff_getElem?_eq_some.mp hx)
    constructor
    · intro hne
      by_contra htried
      exact hne (hat.refs_of_tried (eq_true_of_ne_false htried))
    · exact fun htried ↦ (hat.held { x.2 with nRandomPos := 0 } rfl htried not_false).ne'
  obtain ⟨ids, hnew, -, hids⟩ := writeNew_eq s.mapInfo.toList s.nodup_keys hrefs 0 (fun _ ↦ 0)
    (show _ ≤ s.nNew by rw [zero_add, h.nNew])
  have htried := writeTried_eq s.mapInfo.toList 0 (show _ ≤ s.nTried by rw [zero_add, h.nTried])
  have hnum : Checked.Numbers s ids := fun j x hx ↦ (hids j x hx).trans (zero_add _)
  refine ⟨ids, ?_, hnum⟩
  have hbucket : s.writeBucket ids = putBucket (s.renumbered ids) := by
    funext bucket
    have htaken : s.taken bucket =
        (List.finRange 64).filter fun i ↦ s.renumbered ids (bucket, i) ≠ -1 :=
      List.filter_congr fun i _ ↦ decide_eq_decide.mpr (h.renumbered_ne hnum).symm
    rw [writeBucket, putBucket, ← htaken, putIndexes]
    congr 1
    refine List.flatMap_congr fun i hi ↦ ?_
    have hne : s.vvNew (bucket, i) ≠ -1 := by simpa [taken] using hi
    rw [renumbered, if_neg hne]
  rw [serialize]
  refine bind_eq_ok.mpr ⟨_, hnew, bind_eq_ok.mpr ⟨_, htried, ?_⟩⟩
  rw [hbucket, encoded]
  simp only [List.append_assoc, List.append_nil]
  rfl

/-- A new entry that has been read has a slot again. -/
theorem Checked.held_of_renumbered (h : Checked A s) {ids : ℤ → ℤ} (hids : Checked.Numbers s ids)
    {s' : CAddrMan} (h' : Loaded A s.records s') (hvvNew : s'.vvNew = s.renumbered ids) {nId : ℤ}
    {e : CAddrInfo} (he : s'.mapInfo[nId]? = some e) (htried : e.fInTried = false) :
    0 < e.nRefCount := by
  obtain ⟨j, hj, hrec⟩ := h'.id he
  rw [htried] at hrec
  obtain ⟨y, hy, -⟩ : ∃ y, s.newEntries[j]? = some y ∧ (y.2.persisted, false) = (e.persisted, false) := by
    rw [records] at hrec
    by_cases hlt : j < s.newEntries.length
    · rw [List.getElem?_append_left (by rwa [List.length_map]), List.getElem?_map] at hrec
      exact Option.map_eq_some_iff.mp hrec
    · rw [List.getElem?_append_right (by rw [List.length_map]; omega), List.getElem?_map] at hrec
      obtain ⟨y, -, hyx⟩ := Option.map_eq_some_iff.mp hrec
      cases (Prod.mk.inj hyx).2
  obtain ⟨p, hp⟩ := h.exists_slot (List.mem_of_getElem? hy)
  have hne : s.vvNew p ≠ -1 := by
    rw [hp]
    exact h.placed.ne_of_some (entry_of_getElem? (mem_newEntries.mp (List.mem_of_getElem? hy)).1)
  have hname : s'.vvNew p = nId := by rw [hvvNew, renumbered, if_neg hne, hp, hids j y hy, hj]
  have hpos := (h'.placed.at_some (entry_of_getElem? he)).refs_pos hname
  exact hpos

/-- **`Unserialize` reads it back.** -/
theorem Checked.unserialize_eq (h : Checked A s) {ids : ℤ → ℤ} (hids : Checked.Numbers s ids)
    (nKey : BitVec 256) : ∃ s', unserialize A (init nKey) (s.encoded ids) = .ok (s', []) ∧
      Loaded A s.records s' ∧ s'.vvNew = s.renumbered ids ∧ s'.nIdCount = s.records.length ∧
      s'.nKey = s.nKey ∧ s'.nNew = s.nNew ∧ s'.nTried = s.nTried := by
  have hnew := h.length_newEntries
  have htried := h.length_triedEntries
  have hnNew : (Int32.ofInt s.nNew).toInt = s.nNew := by
    rw [h.nNew_eq]
    exact toInt_ofInt (by omega) (by omega)
  have hnTried : (Int32.ofInt s.nTried).toInt = s.nTried := by
    rw [h.nTried_eq]
    exact toInt_ofInt (by omega) (by omega)
  have hsuccess : ∀ {nId : ℤ} {e : CAddrInfo}, s.mapInfo[nId]? = some e → 0 ≤ e.nLastSuccess :=
    fun {nId e} he ↦ ((h.at_getElem? he).times { e with nRandomPos := 0 } rfl).2
  -- the manager when the header has been read
  set s₀ : CAddrMan := { (init nKey).clear with nKey := s.nKey, nNew := s.nNew, nTried := s.nTried }
  have h₀ : Loaded A [] s₀ := by
    have hinit := Sound.init (A := A) s.nKey
    refine ⟨hinit.indexed.same rfl rfl rfl rfl, ?_, fun j ↦ rfl, rfl, ?_⟩
    · exact (hinit.mono (Set.empty_subset Set.univ)).placed
    · exact (Nat.add_zero _).trans count_free
  have hapart := h.apart
  have haddr : ((([] : List (Persisted × Bool)) ++ s.newEntries.map fun x ↦ (x.2.persisted, false)).map
      fun x ↦ x.1.service.ip).Nodup := by
    have hall := hapart.addr
    rw [records, List.map_append] at hall
    exact (List.nodup_append.mp hall).1
  obtain ⟨s₁, hs₁, h₁, hkey₁, hnNew₁, hnTried₁, hvvNew₁, -⟩ := readNew_putAll h₀ s.newEntries
    (fun x hx ↦ hsuccess (mem_newEntries.mp hx).1) haddr
    (putAll s.triedEntries ++ ((List.finRange 1024).flatMap (putBucket (s.renumbered ids)) ++ []))
  rw [List.nil_append] at h₁
  set s₂ : CAddrMan := { s₁ with nIdCount := s.nNew }
  have h₂ : Loaded A (s.newEntries.map fun x ↦ (x.2.persisted, false)) s₂ :=
    ⟨h₁.indexed, h₁.placed, h₁.record, h₁.length, h₁.slots⟩
  have hcount₂ : s₂.nIdCount = (s.newEntries.map fun x ↦ (x.2.persisted, false)).length := by
    rw [List.length_map]
    exact h.nNew_eq
  obtain ⟨s₃, hs₃, h₃, hcount₃, hkey₃, hnNew₃, hnTried₃, hvvNew₃⟩ := readTried_putAll h₂ hcount₂
    s.triedEntries (fun x hx ↦ by
      obtain ⟨hget, ht⟩ := mem_triedEntries.mp hx
      exact ⟨hsuccess hget, ((h.at_getElem? hget).home { x.2 with nRandomPos := 0 } rfl ht).2⟩)
    (by rw [show s₂.nKey = s.nKey from hkey₁]; exact hapart)
    ((List.finRange 1024).flatMap (putBucket (s.renumbered ids)) ++ [])
  set s₄ : CAddrMan := { s₃ with nTried := s₃.nTried - 0 }
  have h₄ : Loaded A s.records s₄ :=
    ⟨h₃.indexed.same rfl rfl rfl rfl, h₃.placed, h₃.record, h₃.length, h₃.slots⟩
  have hkey₄ : s₄.nKey = s.nKey := hkey₃.trans hkey₁
  have hnNew₄ : s₄.nNew = s.nNew := hnNew₃.trans hnNew₁
  have hempty : Rebuilt A s.records (s.renumbered ids) s₄ s₄ [] := by
    refine ⟨h₄, ?_, rfl, rfl, rfl, rfl⟩
    exact hvvNew₃.trans hvvNew₁
  obtain ⟨s₅, l, hs₅, h₅, hl⟩ := readBuckets_putBucket
    (by rw [hkey₄, hnNew₄]; exact h.rebuildable hids) (by rw [hnNew₄, h.nNew_eq]; omega)
    (List.finRange 1024) (List.nodup_finRange 1024) (fun p hp ↦ absurd hp List.not_mem_nil) hempty []
  have hvvNew₅ : s₅.vvNew = s.renumbered ids := by
    rw [h₅.vvNew]
    funext p
    by_cases hp : s.renumbered ids p = -1
    · rw [partOf, hp, ite_self]
    · rw [partOf, if_pos ((hl p hp).mpr (Or.inr (List.mem_finRange p.1)))]
  have hprune : prune s₅.mapInfo.toList s₅ = .ok s₅ := prune_eq _ fun x hx ht ↦
    (h.held_of_renumbered hids h₅.loaded hvvNew₅
      (Std.TreeMap.mem_toList_iff_getElem?_eq_some.mp hx) ht).ne'
  refine ⟨s₅, ?_, h₅.loaded, hvvNew₅, h₅.nIdCount.trans hcount₃, h₅.nKey.trans hkey₄,
    h₅.nNew.trans hnNew₄, ?_⟩
  · rw [unserialize, encoded]
    refine bind_eq_ok.mpr ⟨_, read_put (show 1 < 256 ^ 1 by decide) _, bind_eq_ok.mpr
      ⟨_, read_put (show 32 < 256 ^ 1 by decide) _, bind_eq_ok.mpr ⟨(), assert_eq_ok.mpr rfl,
      bind_eq_ok.mpr ⟨_, read_put (Codec.valid_uint256 _) _, bind_eq_ok.mpr
      ⟨_, read_put (Codec.valid_int32 _) _, bind_eq_ok.mpr ⟨_, read_put (Codec.valid_int32 _) _,
      bind_eq_ok.mpr ⟨_, read_put (Codec.valid_int32 _) _, ?_⟩⟩⟩⟩⟩⟩⟩
    have hlenNew : s.nNew.toNat = s.newEntries.length := by rw [h.nNew_eq, Int.toNat_natCast]
    have hlenTried : s.nTried.toNat = s.triedEntries.length := by rw [h.nTried_eq, Int.toNat_natCast]
    have hbuckets : ((1024 : Int32) ^^^ (1 : Int32) <<< 30) ^^^ (1 : Int32) <<< 30 = 1024 := by decide
    simp only [hnNew, hnTried, hlenNew, hlenTried, hbuckets, ne_eq, one_ne_zero, not_false_eq_true,
      if_true, and_self, decide_true]
    exact bind_eq_ok.mpr ⟨_, hs₁, bind_eq_ok.mpr ⟨_, hs₃, bind_eq_ok.mpr ⟨_, hs₅,
      bind_eq_ok.mpr ⟨_, hprune, rfl⟩⟩⟩⟩
  · rw [h₅.nTried]
    show s₃.nTried - 0 = s.nTried
    rw [hnTried₃, Int.sub_zero]
    exact hnTried₁

/-- **The same book**: the same key, the same records of the same kind, and the same in every slot -/
structure SameBook (s s' : CAddrMan) : Prop where
  key : s'.nKey = s.nKey
  record : ∀ x, (∃ nId, s'.record nId = some x) ↔ ∃ nId, s.record nId = some x
  new : ∀ p, s'.record (s'.vvNew p) = s.record (s.vvNew p)
  tried : ∀ p, s'.record (s'.vvTried p) = s.record (s.vvTried p)

theorem Loaded.mem_record {R : List (Persisted × Bool)} (h : Loaded A R s) (x : Persisted × Bool) :
    (∃ nId, s.record nId = some x) ↔ x ∈ R := by
  constructor
  · rintro ⟨nId, hid⟩
    obtain ⟨e, he, rfl⟩ := record_eq_some_iff.mp hid
    obtain ⟨j, -, hj⟩ := h.id he
    exact List.mem_of_getElem? hj
  · intro hx
    obtain ⟨j, hj⟩ := List.mem_iff_getElem?.mp hx
    exact ⟨j, by rw [h.record j, hj]⟩

/-- The manager that has been read is in order. -/
theorem Loaded.isSound {s' : CAddrMan} (hs : Checked A s) (h : Loaded A s.records s')
    (hheld : ∀ (nId : ℤ) (e : CAddrInfo), s'.mapInfo[nId]? = some e → e.fInTried = false →
      0 < e.nRefCount)
    (hcount : s'.nIdCount = s.records.length) (hkey : s'.nKey = s.nKey) (hnNew : s'.nNew = s.nNew)
    (hnTried : s'.nTried = s.nTried) : Sound A s.nKey ∅ 0 s' := by
  have hlen : s.records.length = s.newEntries.length + s.triedEntries.length := by
    rw [records, List.length_append, List.length_map, List.length_map]
  have htried : s.records.countP (fun x ↦ x.2) = s.triedEntries.length := by
    have hnone := List.countP_eq_zero (p := (fun x : Persisted × Bool ↦ x.2) ∘ fun x : ℤ × CAddrInfo ↦
      (x.2.persisted, false)) (l := s.newEntries) |>.mpr fun _ _ ↦ Bool.false_ne_true
    have hall := List.countP_eq_length (p := (fun x : Persisted × Bool ↦ x.2) ∘ fun x : ℤ × CAddrInfo ↦
      (x.2.persisted, true)) (l := s.triedEntries) |>.mpr fun _ _ ↦ rfl
    rw [records, List.countP_append, List.countP_map, List.countP_map, hnone, hall, zero_add]
  refine ⟨hkey, h.indexed.same hcount rfl rfl rfl, ⟨h.placed.none, fun nId hid ↦ ?_⟩, ?_, ?_⟩
  · refine (h.placed.place nId hid).settle fun e he ht ↦ ?_
    obtain ⟨e', he', rfl⟩ := exists_getElem? he
    exact hheld nId e' he' ht
  · have hslots := h.slots
    rw [htried] at hslots
    rw [hnTried, hs.nTried_eq]
    omega
  · rw [h.length, hlen, hnTried, hnNew, hs.nTried_eq, hs.nNew_eq]
    push_cast
    ring

/-- **A manager that passes its check is written, and read back the same.** -/
theorem unserialize_serialize (h : check_ A s = 0) (nKey : BitVec 256) : ∃ bytes s',
    s.serialize = .ok bytes ∧ unserialize A (init nKey) bytes = .ok (s', []) ∧ check_ A s' = 0 ∧
      SameBook s s' := by
  obtain ⟨hs, hnKey⟩ := check_eq_zero_iff.mp h
  obtain ⟨ids, hserialize, hids⟩ := hs.serialize_eq
  obtain ⟨s', hs', hloaded, hvvNew, hcount, hkey, hnNew, hnTried⟩ := hs.unserialize_eq hids nKey
  have hsound := hloaded.isSound hs
    (fun nId e he ht ↦ hs.held_of_renumbered hids hloaded hvvNew he ht) hcount hkey hnNew hnTried
  have hnone : ∀ {t : CAddrMan}, t.entry (-1) = none → t.record (-1) = none := fun ht ↦ by
    rw [record, entry_eq_none_iff.mp ht]
    rfl
  refine ⟨_, s', hserialize, hs', ?_, hkey, fun x ↦ ?_, fun p ↦ ?_, fun p ↦ ?_⟩
  · exact check_eq_zero_iff.mpr ⟨hsound.checked, hkey ▸ hnKey⟩
  · rw [hloaded.mem_record x, mem_records]
  · by_cases hp : s.vvNew p = -1
    · rw [hvvNew, renumbered, if_pos hp, hp, hnone hs.placed.none, hnone hloaded.placed.none]
    · obtain ⟨j, e, hget, htried, -, hj, hnum⟩ := hs.renumbered_eq hids hp
      rw [hvvNew, hnum, hloaded.record j, Checked.records_getElem? hj]
      exact (record_eq_some_iff.mpr ⟨e, hget, by rw [htried]⟩).symm
  · -- the slot of a tried entry follows from what is kept of it
    have hslot : ∀ {t t' : CAddrMan} {q : TriedSlot}, t'.nKey = t.nKey →
        (∀ x, (∃ nId, t.record nId = some x) → ∃ nId, t'.record nId = some x) →
        Placed A t.nKey Set.univ t.entry t.vvNew t.vvTried →
        Placed A t'.nKey Set.univ t'.entry t'.vvNew t'.vvTried → t.vvTried q ≠ -1 →
        t'.record (t'.vvTried q) = t.record (t.vvTried q) := by
      intro t t' q hkey hsub hplaced hplaced' hq
      obtain ⟨e, he, htried, hslot⟩ := hplaced.tried hq
      obtain ⟨e, hget, rfl⟩ := exists_getElem? he
      have hrec : t.record (t.vvTried q) = some (e.persisted, true) :=
        record_eq_some_iff.mpr ⟨e, hget, by rw [show e.fInTried = true from htried]⟩
      obtain ⟨nId, hid⟩ := hsub _ ⟨_, hrec⟩
      obtain ⟨e', hget', heq⟩ := record_eq_some_iff.mp hid
      obtain ⟨hsame, htried'⟩ := Prod.mk.inj heq
      have hservice : e'.toCService = e.toCService := congrArg Persisted.service hsame
      have hhome := ((hplaced'.at_some (entry_of_getElem? hget')).home _ rfl htried').1
      have hq' : CAddrInfo.triedSlot A t'.nKey { e' with nRandomPos := 0 } = q := by
        rw [hkey, ← hslot]
        exact CAddrInfo.triedSlot_congr hservice
      rw [hq'] at hhome
      rw [hhome, hid, hrec]
    have hplaced : Placed A s.nKey Set.univ s.entry s.vvNew s.vvTried := ⟨hs.placed.none, fun nId hid ↦
      (hs.placed.place nId hid).congr (fun _ ↦ Iff.rfl) (fun _ ↦ Iff.rfl) fun _ ↦ Set.mem_univ _⟩
    have hsame : ∀ x, (∃ nId, s'.record nId = some x) ↔ ∃ nId, s.record nId = some x := fun x ↦ by
      rw [hloaded.mem_record x, mem_records]
    by_cases hp : s.vvTried p = -1
    · by_cases hp' : s'.vvTried p = -1
      · rw [hp, hp', hnone hs.placed.none, hnone hloaded.placed.none]
      · exact (hslot hkey.symm (fun x hx ↦ (hsame x).mp hx) hloaded.placed hplaced hp').symm
    · exact hslot hkey (fun x hx ↦ (hsame x).mpr hx) hplaced hloaded.placed hp

theorem Sample.check_busy : check_ Sample.params Sample.busy = 0 :=
  check_eq_zero_iff.mpr ⟨Sample.run_busy.isSound.checked, by decide +kernel⟩

/-- One node is tried, and another is new. -/
theorem unserialize_serialize_sample : ∃ bytes s', Sample.busy.serialize = .ok bytes ∧
    unserialize Sample.params (init 7) bytes = .ok (s', []) ∧ check_ Sample.params s' = 0 ∧
      SameBook Sample.busy s' :=
  unserialize_serialize Sample.check_busy 7

end CAddrMan

end Bws
