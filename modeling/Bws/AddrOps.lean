import Bws.AddrTables

/-!
# The operations of the address manager

`Sound` is the invariant: the containers find every entry, the tables are right, and so are the counts.
An operation is described by what it makes of a sound manager, which shows at once that no assertion
fails.  Inside an operation some entries are loose, and some that are not tried are not counted as new.
-/

namespace Bws

namespace CAddrMan

variable {A : AddrParams} {nKey : BitVec 256} {s : CAddrMan} {loose : Set ℤ} {d : ℤ}

/-- **The invariant.**  `loose` are entries that may be in no table, and `d` is how many are neither
counted as tried nor as new. -/
structure Sound (A : AddrParams) (nKey : BitVec 256) (loose : Set ℤ) (d : ℤ) (s : CAddrMan) : Prop where
  key : s.nKey = nKey
  indexed : Indexed s
  placed : Placed A s.nKey loose s.entry s.vvNew s.vvTried
  /-- the tried entries are as many as the slots that are taken -/
  tried : s.nTried + Slots.count s.vvTried (-1) = 256 * 64
  total : (s.vRandom.length : ℤ) = s.nTried + s.nNew + d

/-- All slots of a new manager are free. -/
theorem count_free : Slots.count (fun _ : TriedSlot ↦ (-1 : ℤ)) (-1) = 256 * 64 := by
  rw [Slots.count, Finset.filter_true_of_mem fun _ _ ↦ rfl, Finset.card_univ, Fintype.card_prod,
    Fintype.card_fin, Fintype.card_fin]

theorem Sound.init (nKey : BitVec 256) : Sound A nKey ∅ 0 (init nKey) where
  key := rfl
  indexed := Indexed.init nKey
  placed := by
    refine ⟨rfl, fun nId hid ↦ ⟨fun p hp ↦ absurd hp.symm hid, fun p hp ↦ absurd hp.symm hid, ?_, ?_,
      ?_, ?_⟩⟩
    all_goals nofun
  tried := by
    show (0 : ℤ) + (Slots.count (fun _ : TriedSlot ↦ (-1 : ℤ)) (-1) : ℕ) = 256 * 64
    rw [count_free]
    rfl
  total := rfl

/-- An id with an entry is in `mapInfo`. -/
theorem exists_getElem? {nId : ℤ} {e : CAddrInfo} (h : s.entry nId = some e) :
    ∃ info, s.mapInfo[nId]? = some info ∧ { info with nRandomPos := 0 } = e :=
  entry_eq_some_iff.mp h

/-- No entry is loose when each loose one has a slot. -/
theorem Sound.settle {nId : ℤ} (h : Sound A nKey {nId} d s)
    (hrefs : ∀ e, s.entry nId = some e → 0 < e.nRefCount) : Sound A nKey ∅ d s where
  key := h.key
  indexed := h.indexed
  placed := by
    refine ⟨h.placed.none, fun id hid ↦ ?_⟩
    by_cases heq : id = nId
    · exact (h.placed.place id hid).settle fun e he _ ↦ hrefs e (heq ▸ he)
    · exact (h.placed.place id hid).congr (fun _ ↦ Iff.rfl) (fun _ ↦ Iff.rfl) heq
  tried := h.tried
  total := h.total

/-- Entries may be called loose. -/
theorem Sound.mono {loose' : Set ℤ} (h : Sound A nKey loose d s) (hsub : loose ⊆ loose') :
    Sound A nKey loose' d s where
  key := h.key
  indexed := h.indexed
  placed := ⟨h.placed.none, fun id hid ↦
    (h.placed.place id hid).congr (fun _ ↦ Iff.rfl) (fun _ ↦ Iff.rfl) fun hid ↦ hsub hid⟩
  tried := h.tried
  total := h.total

/-! ## `ClearNew` and `Delete` -/

/-- The manager after a slot of the new table has been cleared -/
structure Cleared (s : CAddrMan) (p : NewSlot) (s' : CAddrMan) : Prop where
  nKey : s'.nKey = s.nKey
  vvTried : s'.vvTried = s.vvTried
  vvNew : s'.vvNew = Function.update s.vvNew p (-1)
  /-- what else is in the slot loses it, and may be gone -/
  entry : ∀ nId, nId ≠ s.vvNew p → s'.entry nId = s.entry nId

/-- A loose entry is deleted, which has not been tried and has no references. -/
theorem Sound.delete {nId : ℤ} {e : CAddrInfo} (h : Sound A nKey loose d s) (he : s.entry nId = some e)
    (htried : e.fInTried = false) (hrefs : e.nRefCount = 0) :
    ∃ s', s.delete nId = .ok s' ∧ Sound A nKey (loose \ {nId}) d s' ∧ Deleted s nId s' := by
  obtain ⟨info, hinfo, rfl⟩ := exists_getElem? he
  obtain ⟨s', hs', hindexed, hdel⟩ := h.indexed.delete hinfo htried hrefs
  refine ⟨s', hs', ⟨hdel.nKey.trans h.key, hindexed, ?_, ?_, ?_⟩, hdel⟩
  · rw [hdel.nKey, hdel.entry, hdel.vvNew, hdel.vvTried]
    exact h.placed.update (h.placed.ne_of_some he) (fun _ _ _ _ ↦ Iff.rfl) (fun _ _ _ _ ↦ Iff.rfl)
      (fun j hj hl ↦ ⟨hl, hj⟩) ((h.placed.at_some he).remove hrefs htried)
  · rw [hdel.nTried, hdel.vvTried]
    exact h.tried
  · have htotal := h.total
    have hlen := hdel.length
    rw [hdel.nTried, hdel.nNew]
    omega

/-- A slot of the new table loses the entry that is in it. -/
theorem Sound.unref {p : NewSlot} {e : CAddrInfo} (h : Sound A nKey loose d s) (hp : s.vvNew p ≠ -1)
    (he : s.entry (s.vvNew p) = some e) :
    Sound A nKey (insert (s.vvNew p) loose) d ((s.modifyInfo (s.vvNew p) fun info ↦
      { info with nRefCount := info.nRefCount - 1 }).setNew p (-1)) where
  key := h.key
  indexed := (h.indexed.modifyInfo (f := fun info ↦ { info with nRefCount := info.nRefCount - 1 })
    (s.vvNew p) (fun _ ↦ rfl) fun _ ↦ rfl).same rfl rfl rfl rfl
  placed := by
    have hentry := entry_modifyInfo (f := fun info ↦ { info with nRefCount := info.nRefCount - 1 })
      (fun _ ↦ rfl) s (s.vvNew p)
    show Placed A s.nKey _ (s.modifyInfo _ _).entry (Function.update s.vvNew p (-1)) s.vvTried
    rw [hentry, he]
    exact h.placed.update hp
      (fun j hj hne ↦ update_eq_iff rfl (Or.inr rfl) (Or.inl rfl) hj hne) (fun _ _ _ _ ↦ Iff.rfl)
      (fun j _ hl ↦ Set.mem_insert_of_mem _ hl)
      (((h.placed.at_some he).unref hp rfl).congr (fun _ ↦ Iff.rfl) (fun _ ↦ Iff.rfl)
        fun _ ↦ Set.mem_insert _ _)
  tried := h.tried
  total := h.total

/-- **`ClearNew`**: no assertion fails in it, nor in the `Delete` that it may end with. -/
theorem Sound.clearNew (h : Sound A nKey loose d s) (p : NewSlot) :
    ∃ s', s.clearNew p = .ok s' ∧ Sound A nKey loose d s' ∧ Cleared s p s' := by
  by_cases hp : s.vvNew p = -1
  · refine ⟨s, by rw [CAddrMan.clearNew, if_pos hp], h, rfl, rfl, ?_, fun _ _ ↦ rfl⟩
    rw [← hp, Function.update_eq_self]
  · obtain ⟨e, he, htried, hslot⟩ := h.placed.new hp
    have hat := h.placed.at_some he
    have hpos : 0 < e.nRefCount := hat.refs_pos rfl
    have hsound := h.unref hp he
    obtain ⟨info, hinfo, heq⟩ := exists_getElem? he
    have hrefs : info.nRefCount = e.nRefCount := by rw [← heq]
    set s₁ := (s.modifyInfo (s.vvNew p) fun info ↦
      { info with nRefCount := info.nRefCount - 1 }).setNew p (-1) with hs₁
    have hentry : s₁.entry = Function.update s.entry (s.vvNew p)
        (some { e with nRefCount := e.nRefCount - 1 }) := by
      refine (entry_modifyInfo (fun _ ↦ rfl) s (s.vvNew p)).trans ?_
      rw [he, Option.map_some]
    have hclear : s.clearNew p = if info.nRefCount - 1 = 0 then s₁.delete (s.vvNew p) else .ok s₁ := by
      rw [CAddrMan.clearNew, if_neg hp]
      dsimp only
      rw [hinfo]
      simp only [assert, if_pos (hrefs ▸ hpos : 0 < info.nRefCount)]
      rfl
    by_cases hzero : e.nRefCount - 1 = 0
    · have he₁ : s₁.entry (s.vvNew p) = some { e with nRefCount := e.nRefCount - 1 } := by
        rw [hentry, Function.update_self]
      obtain ⟨s', hs', hsound', hdel⟩ := hsound.delete he₁ htried hzero
      refine ⟨s', by rw [hclear, if_pos (by rw [hrefs, hzero]), hs'], hsound'.mono ?_,
        ⟨hdel.nKey, hdel.vvTried, hdel.vvNew, fun nId hid ↦ ?_⟩⟩
      · rintro j ⟨hj, hne⟩
        exact Set.mem_of_mem_insert_of_ne hj hne
      · rw [hdel.entry, Function.update_of_ne hid, hentry, Function.update_of_ne hid]
    · refine ⟨s₁, by rw [hclear, if_neg (by rwa [hrefs])], ⟨hsound.key, hsound.indexed,
        ⟨hsound.placed.none, ?_⟩, hsound.tried, hsound.total⟩, ⟨rfl, rfl, rfl, fun nId hid ↦ ?_⟩⟩
      · intro j hj
        by_cases hjid : j = s.vvNew p
        · refine (hsound.placed.place j hj).settle ?_
          rw [hjid, hentry, Function.update_self]
          rintro _ ⟨⟩ -
          show 0 < e.nRefCount - 1
          omega
        · exact (hsound.placed.place j hj).congr (fun _ ↦ Iff.rfl) (fun _ ↦ Iff.rfl)
            fun hl ↦ Set.mem_of_mem_insert_of_ne hl hjid
      · rw [hentry, Function.update_of_ne hid]

/-! ## `MakeTried` -/

/-- **The loop of `MakeTried` takes an entry out of every slot of the new table** that it comes to. -/
theorem Sound.removeRefs {nId : ℤ} {info : CAddrInfo} (buckets : List (Fin 1024)) {e : CAddrInfo}
    (h : Sound A nKey loose d s) (hloose : nId ∈ loose) (he : s.entry nId = some e)
    (hservice : e.toCService = info.toCService) :
    Sound A nKey loose d (removeRefs A info nId buckets s) ∧
      (removeRefs A info nId buckets s).nKey = s.nKey ∧
      (∃ n, (removeRefs A info nId buckets s).entry nId = some { e with nRefCount := n }) ∧
      ∀ p, (removeRefs A info nId buckets s).vvNew p = nId → s.vvNew p = nId ∧ p.1 ∉ buckets := by
  induction buckets generalizing s e with
  | nil => exact ⟨h, rfl, ⟨e.nRefCount, he⟩, fun p hp ↦ ⟨hp, List.not_mem_nil⟩⟩
  | cons bucket buckets ih =>
    have hid := h.placed.ne_of_some he
    -- a slot in this bucket that names the entry is the one that the loop looks at
    have honly : ∀ p : NewSlot, s.vvNew p = nId → p.1 = bucket → p = info.newSlot A s.nKey bucket := by
      intro p hp hbucket
      obtain ⟨e', he', -, hslot⟩ := h.placed.new (p := p) (by rwa [hp])
      rw [hp, he] at he'
      cases he'
      rw [← hbucket, ← CAddrInfo.newSlot_congr hservice, hslot]
    rw [CAddrMan.removeRefs]
    by_cases hp : s.vvNew (info.newSlot A s.nKey bucket) = nId
    · rw [if_pos hp]
      set p := info.newSlot A s.nKey bucket
      set f : CAddrInfo → CAddrInfo := fun info ↦ { info with nRefCount := info.nRefCount - 1 }
      have h₁ : Sound A nKey loose d ((s.setNew p (-1)).modifyInfo nId f) := by
        have := h.unref (p := p) (by rwa [hp]) (by rw [hp, he])
        rw [hp, Set.insert_eq_of_mem hloose] at this
        exact this
      have he₁ : ((s.setNew p (-1)).modifyInfo nId f).entry nId = some (f e) := by
        rw [entry_modifyInfo (fun _ ↦ rfl), Function.update_self, show (s.setNew p (-1)).entry = s.entry
          from rfl, he, Option.map_some]
      obtain ⟨hsound, hkey, ⟨n, hn⟩, hslots⟩ := ih h₁ he₁ hservice
      refine ⟨hsound, hkey, ⟨n, hn⟩, fun p' hp' ↦ ?_⟩
      obtain ⟨hname, hbuckets⟩ := hslots p' hp'
      have hname' : Function.update s.vvNew p (-1) p' = nId := hname
      have hne : p' ≠ p := by
        rintro rfl
        rw [Function.update_self] at hname'
        exact hid hname'.symm
      rw [Function.update_of_ne hne] at hname'
      refine ⟨hname', fun hmem ↦ ?_⟩
      rcases List.mem_cons.mp hmem with hb | hb
      · exact hne (honly p' hname' hb)
      · exact hbuckets hb
    · rw [if_neg hp]
      obtain ⟨hsound, hkey, hn, hslots⟩ := ih h he hservice
      refine ⟨hsound, hkey, hn, fun p' hp' ↦ ?_⟩
      obtain ⟨hname, hbuckets⟩ := hslots p' hp'
      refine ⟨hname, fun hmem ↦ ?_⟩
      rcases List.mem_cons.mp hmem with hb | hb
      · exact hp (honly p' hname hb ▸ hname)
      · exact hbuckets hb

/-- The tried table loses an entry. -/
theorem Sound.untry {p : TriedSlot} {e : CAddrInfo} (h : Sound A nKey loose d s) (hp : s.vvTried p ≠ -1)
    (he : s.entry (s.vvTried p) = some e) :
    Sound A nKey (insert (s.vvTried p) loose) (d + 1)
      { (s.modifyInfo (s.vvTried p) fun info ↦ { info with fInTried := false }).setTried p (-1) with
        nTried := s.nTried - 1 } where
  key := h.key
  indexed := (h.indexed.modifyInfo (f := fun info ↦ { info with fInTried := false }) (s.vvTried p)
    (fun _ ↦ rfl) fun _ ↦ rfl).same rfl rfl rfl rfl
  placed := by
    have hentry := entry_modifyInfo (f := fun info ↦ { info with fInTried := false }) (fun _ ↦ rfl) s
      (s.vvTried p)
    show Placed A s.nKey _ (s.modifyInfo _ _).entry s.vvNew (Function.update s.vvTried p (-1))
    rw [hentry, he]
    exact h.placed.update hp (fun _ _ _ _ ↦ Iff.rfl)
      (fun j hj hne ↦ update_eq_iff rfl (Or.inr rfl) (Or.inl rfl) hj hne)
      (fun j _ hl ↦ Set.mem_insert_of_mem _ hl)
      (((h.placed.at_some he).evict hp rfl).congr (fun _ ↦ Iff.rfl) (fun _ ↦ Iff.rfl)
        fun _ ↦ Set.mem_insert _ _)
  tried := by
    have hcount := Slots.count_update_new hp
    have htried := h.tried
    show s.nTried - 1 + (Slots.count (Function.update s.vvTried p (-1)) (-1) : ℕ) = 256 * 64
    rw [hcount]
    push_cast
    omega
  total := by
    have htotal := h.total
    show (s.vRandom.length : ℤ) = s.nTried - 1 + s.nNew + (d + 1)
    omega

/-- A loose entry gets a slot of the new table. -/
theorem Sound.ref {nId : ℤ} {p : NewSlot} {e : CAddrInfo} (h : Sound A nKey loose d s)
    (he : s.entry nId = some e) (hp : s.vvNew p = -1) (hslot : e.newSlot A s.nKey p.1 = p)
    (htried : e.fInTried = false) (hmax : e.nRefCount < ADDRMAN_NEW_BUCKETS_PER_ADDRESS)
    {f : CAddrInfo → CAddrInfo} (hf : ∀ info, f info = { info with nRefCount := (f info).nRefCount })
    (hrefs : (f e).nRefCount = e.nRefCount + 1)
    (hstrip : ∀ info, { f info with nRandomPos := 0 } = f { info with nRandomPos := 0 }) :
    Sound A nKey (loose \ {nId}) d ((s.modifyInfo nId f).setNew p nId) where
  key := h.key
  indexed := (h.indexed.modifyInfo nId (fun info ↦ by rw [hf]) fun info ↦ by rw [hf]).same rfl rfl rfl rfl
  placed := by
    have hid := h.placed.ne_of_some he
    have hfe : f e = { e with nRefCount := e.nRefCount + 1 } := by rw [hf, hrefs]
    show Placed A s.nKey _ (s.modifyInfo nId f).entry (Function.update s.vvNew p nId) s.vvTried
    rw [entry_modifyInfo hstrip, he, Option.map_some, hfe]
    exact h.placed.update hid
      (fun j hj hne ↦ update_eq_iff rfl (Or.inl hp) (Or.inr rfl) hj hne) (fun _ _ _ _ ↦ Iff.rfl)
      (fun j hj hl ↦ ⟨hl, hj⟩)
      ((h.placed.at_some he).ref (by rw [hp]; exact Ne.symm hid) hslot htried hmax)
  tried := h.tried
  total := h.total

/-- **Space is made in the tried table**: what was there goes back to the new table, where it may push
out another entry. -/
theorem Sound.evict (h : Sound A nKey loose d s) (p : TriedSlot) :
    ∃ s', evict A s p = .ok s' ∧ Sound A nKey loose d s' ∧ s'.nKey = s.nKey ∧ s'.vvTried p = -1 ∧
      ∀ nId, nId ≠ s.vvTried p → (∀ q, s.vvNew q ≠ nId) → s'.entry nId = s.entry nId := by
  by_cases hp : s.vvTried p = -1
  · exact ⟨s, by rw [CAddrMan.evict, if_pos hp], h, rfl, hp, fun _ _ _ ↦ rfl⟩
  · obtain ⟨e, he, htried, hslot⟩ := h.placed.tried hp
    have hrefs : e.nRefCount = 0 := (h.placed.at_some he).refs_of_tried htried
    have hsound := h.untry hp he
    obtain ⟨info, hinfo, heq⟩ := exists_getElem? he
    generalize hv : s.vvTried p = v at *
    set s₁ : CAddrMan := { (s.modifyInfo v fun info ↦ { info with fInTried := false }).setTried p (-1) with
      nTried := s.nTried - 1 }
    have hentry₁ : s₁.entry = Function.update s.entry v (some { e with fInTried := false }) := by
      refine (entry_modifyInfo (fun _ ↦ rfl) s v).trans ?_
      rw [he, Option.map_some]
    have he₁ : s₁.entry v = some { e with fInTried := false } := by rw [hentry₁, Function.update_self]
    set q : NewSlot := info.newSlot A s.nKey (info.getNewBucket A s.nKey info.source)
    have hq : s₁.vvNew q ≠ v := (hsound.placed.at_some he₁).notMem_new hrefs q
    obtain ⟨s₂, hs₂, hsound₂, hclear⟩ := hsound.clearNew q
    have he₂ : s₂.entry v = some { e with fInTried := false } := by
      rw [hclear.entry v (Ne.symm hq), he₁]
    have hq₂ : s₂.vvNew q = -1 := by rw [hclear.vvNew, Function.update_self]
    have hslot₂ : CAddrInfo.newSlot A s₂.nKey { e with fInTried := false } q.1 = q := by
      have hservice : e.toCService = info.toCService := by rw [← heq]
      rw [hclear.nKey]
      exact congrFun (CAddrInfo.newSlot_congr hservice) q.1
    have hsound₃ := hsound₂.ref (f := fun info ↦ { info with nRefCount := 1 }) he₂ hq₂ hslot₂ rfl
      (by rw [hrefs]; decide) (fun _ ↦ rfl) (by rw [hrefs]; rfl) fun _ ↦ rfl
    set s₃ := (s₂.modifyInfo v fun info ↦ { info with nRefCount := 1 }).setNew q v
    refine ⟨{ s₃ with nNew := s₂.nNew + 1 }, ?_, ?_, hclear.nKey, ?_, fun nId hid hnew ↦ ?_⟩
    · rw [CAddrMan.evict, if_neg (by rwa [hv]), hv]
      dsimp only
      rw [hinfo]
      exact bind_eq_ok.mpr ⟨s₂, hs₂, bind_eq_ok.mpr ⟨(), assert_eq_ok.mpr hq₂, rfl⟩⟩
    · have hmono : Sound A nKey loose (d + 1) s₃ :=
        hsound₃.mono fun j hj ↦ Set.mem_of_mem_insert_of_ne hj.1 hj.2
      refine ⟨hmono.key, hmono.indexed.same rfl rfl rfl rfl, hmono.placed, hmono.tried, ?_⟩
      have htotal := hmono.total
      show (s₃.vRandom.length : ℤ) = s₃.nTried + (s₃.nNew + 1) + d
      omega
    · show s₂.vvTried p = -1
      rw [hclear.vvTried]
      exact Function.update_self ..
    · show s₃.entry nId = s.entry nId
      have hentry₃ : s₃.entry = _ := entry_modifyInfo (fun _ ↦ rfl) s₂ v
      rw [hentry₃, Function.update_of_ne hid, hclear.entry nId (Ne.symm (hnew q)), hentry₁,
        Function.update_of_ne hid]

/-- **`MakeTried`** on a new entry that a connection has been made to -/
theorem Sound.makeTried {nId : ℤ} {e info : CAddrInfo} (h : Sound A nKey ∅ 0 s)
    (he : s.entry nId = some e) (hservice : e.toCService = info.toCService)
    (htried : e.fInTried = false) (hsuccess : e.nLastSuccess ≠ 0) :
    ∃ s', makeTried A s info nId = .ok s' ∧ Sound A nKey ∅ 0 s' := by
  have hloose : Sound A nKey {nId} 0 s := h.mono (Set.empty_subset _)
  obtain ⟨hsound₁, hkey₁, ⟨n, hn⟩, hslots⟩ :=
    hloose.removeRefs (List.finRange 1024) (Set.mem_singleton nId) he hservice
  generalize hs₁ : CAddrMan.removeRefs A info nId (List.finRange 1024) s = s₁ at *
  have hnone : ∀ p, s₁.vvNew p ≠ nId := fun p hp ↦ (hslots p hp).2 (List.mem_finRange p.1)
  have hzero : n = 0 := by
    have hrefs := ((hsound₁.placed.at_some hn).refs _ rfl).1
    rw [Slots.count_eq_zero_iff.mpr hnone] at hrefs
    exact hrefs
  set s₂ : CAddrMan := { s₁ with nNew := s₁.nNew - 1 } with hs₂
  have hsound₂ : Sound A nKey {nId} 1 s₂ := by
    refine ⟨hsound₁.key, hsound₁.indexed.same rfl rfl rfl rfl, hsound₁.placed, hsound₁.tried, ?_⟩
    have htotal := hsound₁.total
    show (s₁.vRandom.length : ℤ) = s₁.nTried + (s₁.nNew - 1) + 1
    omega
  set p := info.triedSlot A s₂.nKey
  have hat : s₂.vvTried p ≠ nId := (hsound₂.placed.at_some (e := { e with nRefCount := n }) hn).notMem_tried
    htried p
  obtain ⟨s₃, hs₃, hsound₃, hkey₃, hp₃, hframe⟩ := hsound₂.evict p
  have he₃ : s₃.entry nId = some { e with nRefCount := n } :=
    (hframe nId (Ne.symm hat) hnone).trans hn
  have hid := hsound₃.placed.ne_of_some he₃
  have hslot : CAddrInfo.triedSlot A s₃.nKey { e with nRefCount := n } = p := by
    rw [hkey₃]
    exact CAddrInfo.triedSlot_congr hservice
  set f : CAddrInfo → CAddrInfo := fun info ↦ { info with fInTried := true }
  refine ⟨{ (s₃.setTried p nId).modifyInfo nId f with nTried := s₃.nTried + 1 }, ?_,
    ⟨hsound₃.key, (hsound₃.indexed.modifyInfo (f := f) nId (fun _ ↦ rfl) fun _ ↦ rfl).same rfl rfl rfl rfl,
      ?_, ?_, ?_⟩⟩
  · obtain ⟨info₂, hinfo₂, heq⟩ := exists_getElem? (s := s₂) hn
    rw [CAddrMan.makeTried, hs₁]
    refine bind_eq_ok.mpr ⟨(), assert_eq_ok.mpr ?_, bind_eq_ok.mpr ⟨s₃, hs₃,
      bind_eq_ok.mpr ⟨(), assert_eq_ok.mpr hp₃, rfl⟩⟩⟩
    show s₂.mapInfo[nId]?.map CAddrInfo.nRefCount = some 0
    rw [hinfo₂, Option.map_some, ← hzero, Option.some_inj]
    exact congrArg (fun i : CAddrInfo ↦ i.nRefCount) heq
  · show Placed A s₃.nKey ∅ ((s₃.setTried p nId).modifyInfo nId f).entry s₃.vvNew
      (Function.update s₃.vvTried p nId)
    rw [entry_modifyInfo (fun _ ↦ rfl), show (s₃.setTried p nId).entry = s₃.entry from rfl, he₃,
      Option.map_some, ← hslot]
    refine hsound₃.placed.update hid (fun _ _ _ _ ↦ Iff.rfl)
      (fun j hj hne ↦ update_eq_iff rfl (Or.inl (hslot ▸ hp₃)) (Or.inr rfl) hj hne)
      (fun j hj hl ↦ hj hl) ?_
    exact (hsound₃.placed.at_some he₃).promote hzero htried hsuccess
  · have hcount := Slots.count_update_old (b := nId) hp₃ hid
    have htried' := hsound₃.tried
    show s₃.nTried + 1 + (Slots.count (Function.update s₃.vvTried p nId) (-1) : ℕ) = 256 * 64
    omega
  · have htotal := hsound₃.total
    show (s₃.vRandom.length : ℤ) = s₃.nTried + 1 + s₃.nNew + 0
    omega

/-! ## `Add_` -/

/-- A change of what is remembered about a node -/
structure Harmless (f : CAddrInfo → CAddrInfo) : Prop where
  strip : ∀ info, { f info with nRandomPos := 0 } = f { info with nRandomPos := 0 }
  pos : ∀ info, (f info).nRandomPos = info.nRandomPos
  service : ∀ info, (f info).toCService = info.toCService
  tried : ∀ info, (f info).fInTried = info.fInTried
  refs : ∀ info, (f info).nRefCount = info.nRefCount
  success : ∀ info, info.nLastSuccess ≠ 0 → (f info).nLastSuccess ≠ 0
  times : ∀ info, 0 ≤ info.nLastTry ∧ 0 ≤ info.nLastSuccess →
    0 ≤ (f info).nLastTry ∧ 0 ≤ (f info).nLastSuccess

theorem pos_of_lt {nTime : Int64} (h : 0 < nTime) : 0 ≤ nTime ∧ nTime ≠ 0 := by
  refine ⟨Int64.le_of_lt h, ?_⟩
  rintro rfl
  exact absurd h (by decide)

theorem Harmless.good {nTime : Int64} (h : 0 < nTime) : Harmless (CAddrInfo.good nTime) :=
  ⟨fun _ ↦ rfl, fun _ ↦ rfl, fun _ ↦ rfl, fun _ ↦ rfl, fun _ ↦ rfl, fun _ _ ↦ (pos_of_lt h).2,
    fun _ _ ↦ ⟨(pos_of_lt h).1, (pos_of_lt h).1⟩⟩

theorem Harmless.refresh (addr : CAddress) (nTimePenalty nNow : ℤ) :
    Harmless (CAddrInfo.refresh addr nTimePenalty nNow) :=
  ⟨fun _ ↦ rfl, fun _ ↦ rfl, fun _ ↦ rfl, fun _ ↦ rfl, fun _ ↦ rfl, fun _ ↦ id, fun _ ↦ id⟩

theorem Harmless.attempt {nTime : Int64} (h : 0 < nTime) : Harmless (CAddrInfo.attempt nTime) :=
  ⟨fun _ ↦ rfl, fun _ ↦ rfl, fun _ ↦ rfl, fun _ ↦ rfl, fun _ ↦ rfl, fun _ ↦ id,
    fun _ htimes ↦ ⟨(pos_of_lt h).1, htimes.2⟩⟩

theorem Harmless.connected (nTime : Int64) : Harmless (CAddrInfo.connected nTime) :=
  ⟨fun _ ↦ rfl, fun _ ↦ rfl, fun _ ↦ rfl, fun _ ↦ rfl, fun _ ↦ rfl, fun _ ↦ id, fun _ ↦ id⟩

/-- What is remembered about a node may change. -/
theorem Sound.modifyInfo (h : Sound A nKey loose d s) {f : CAddrInfo → CAddrInfo} (hf : Harmless f)
    (nId : ℤ) : Sound A nKey loose d (s.modifyInfo nId f) where
  key := h.key
  indexed := h.indexed.modifyInfo nId hf.pos fun info ↦ congrArg CService.ip (hf.service info)
  placed := by
    show Placed A s.nKey loose (s.modifyInfo nId f).entry s.vvNew s.vvTried
    rw [entry_modifyInfo hf.strip]
    cases he : s.entry nId with
    | none =>
      rw [Option.map_none, ← he, Function.update_eq_self]
      exact h.placed
    | some e =>
      have hat := h.placed.at_some he
      exact h.placed.update (h.placed.ne_of_some he) (fun _ _ _ _ ↦ Iff.rfl) (fun _ _ _ _ ↦ Iff.rfl)
        (fun _ _ hl ↦ hl) (hat.change (hf.service e) (hf.tried e) (hf.refs e) (hf.success e)
          (hf.times e (hat.times e rfl)))
  tried := h.tried
  total := h.total

/-- **The end of `Add_`**: the entry gets a slot, or it has one already, or it is deleted. -/
theorem Sound.place {nId : ℤ} {e : CAddrInfo} (info : CAddrInfo) (h : Sound A nKey {nId} 0 s)
    (he : s.entry nId = some e) (hservice : e.toCService = info.toCService)
    (hrefs : info.nRefCount = e.nRefCount) (htried : e.fInTried = false)
    (hmax : e.nRefCount < ADDRMAN_NEW_BUCKETS_PER_ADDRESS) (source : CNetAddr) (nNow : ℤ) :
    ∃ s', place A s nId info source nNow = .ok s' ∧ Sound A nKey ∅ 0 s' := by
  have hat := h.placed.at_some he
  rw [CAddrMan.place]
  dsimp only
  set p := info.newSlot A s.nKey (info.getNewBucket A s.nKey source)
  have hslot : e.newSlot A s.nKey p.1 = p := congrFun (CAddrInfo.newSlot_congr hservice) p.1
  by_cases hp : s.vvNew p = nId
  · rw [if_pos hp]
    refine ⟨s, rfl, h.settle fun e' he' ↦ ?_⟩
    rw [he] at he'
    cases he'
    exact hat.refs_pos hp
  · rw [if_neg hp]
    split
    · obtain ⟨s₁, hs₁, hsound₁, hclear⟩ := h.clearNew p
      have he₁ : s₁.entry nId = some e := by rw [hclear.entry nId (Ne.symm hp), he]
      have hp₁ : s₁.vvNew p = -1 := by rw [hclear.vvNew, Function.update_self]
      refine ⟨_, bind_eq_ok.mpr ⟨s₁, hs₁, rfl⟩, ?_⟩
      have hsound := hsound₁.ref (f := fun info ↦ { info with nRefCount := info.nRefCount + 1 }) he₁ hp₁
        (by rw [hclear.nKey, hslot]) htried hmax (fun _ ↦ rfl) rfl fun _ ↦ rfl
      rwa [Set.sdiff_self] at hsound
    · by_cases hzero : info.nRefCount = 0
      · rw [if_pos hzero]
        obtain ⟨s₁, hs₁, hsound₁, -⟩ := h.delete he htried (hrefs ▸ hzero)
        rw [Set.sdiff_self] at hsound₁
        exact ⟨s₁, hs₁, hsound₁⟩
      · rw [if_neg hzero]
        refine ⟨s, rfl, h.settle fun e' he' ↦ ?_⟩
        rw [he] at he'
        cases he'
        have hnonneg := hat.refs_nonneg
        omega

/-- A new entry is loose. -/
theorem Sound.create (h : Sound A nKey ∅ 0 s) {addr : CAddress} (source : CNetAddr)
    (hnone : s.mapAddr addr.ip = none) :
    Sound A nKey {s.nIdCount} 0 { s.create addr source with nNew := s.nNew + 1 } where
  key := h.key
  indexed := (h.indexed.enter (CAddrInfo.mk' addr source) hnone).same rfl rfl rfl rfl
  placed := by
    have hid : s.nIdCount ≠ -1 := by
      have := h.indexed.nonneg
      omega
    have hfresh := h.indexed.entry_nIdCount
    show Placed A s.nKey _ (s.enter s.nIdCount (CAddrInfo.mk' addr source)).entry s.vvNew s.vvTried
    rw [entry_enter]
    refine h.placed.update hid (fun _ _ _ _ ↦ Iff.rfl) (fun _ _ _ _ ↦ Iff.rfl)
      (fun j _ hl ↦ absurd hl (Set.notMem_empty j)) ?_
    have hat := h.placed.place s.nIdCount hid
    rw [hfresh] at hat
    exact (hat.fresh rfl rfl ⟨Int64.le_refl 0, Int64.le_refl 0⟩).congr (fun _ ↦ Iff.rfl) (fun _ ↦ Iff.rfl)
      fun _ ↦ Set.mem_singleton _
  tried := h.tried
  total := by
    have htotal := h.total
    show ((s.vRandom ++ [s.nIdCount]).length : ℤ) = s.nTried + (s.nNew + 1) + 0
    rw [List.length_append, List.length_singleton]
    push_cast
    omega

/-- **`Add_`** -/
theorem Sound.add_ (h : Sound A nKey ∅ 0 s) (addr : CAddress) (source : CNetAddr)
    (nTimePenalty nNow nNowLater : ℤ) (nRand : ℕ) : ∃ s' fNew,
    add_ A s addr source nTimePenalty nNow nNowLater nRand = .ok (s', fNew) ∧ Sound A nKey ∅ 0 s' := by
  rw [CAddrMan.add_]
  split
  · exact ⟨s, false, rfl, h⟩
  · split
    · rename_i nId pinfo hfind
      obtain ⟨hinfo, -⟩ := h.indexed.find_eq_some hfind
      have hf := Harmless.refresh addr nTimePenalty nNow
      have h₁ := h.modifyInfo hf nId
      set info := pinfo.refresh addr nTimePenalty nNow with hinfo'
      set s₁ := s.modifyInfo nId (CAddrInfo.refresh addr nTimePenalty nNow)
      have he₁ : s₁.entry nId = some { info with nRandomPos := 0 } := by
        rw [entry_modifyInfo hf.strip, Function.update_self, entry_of_getElem? hinfo, Option.map_some,
          ← hf.strip]
      dsimp only
      split_ifs with hold htried hfull htest
      · exact ⟨s₁, false, rfl, h₁⟩
      · exact ⟨s₁, false, rfl, h₁⟩
      · exact ⟨s₁, false, rfl, h₁⟩
      · exact ⟨s₁, false, rfl, h₁⟩
      · have hmax : info.nRefCount < ADDRMAN_NEW_BUCKETS_PER_ADDRESS :=
          lt_of_le_of_ne ((h₁.placed.at_some he₁).refs _ rfl).2 hfull
        obtain ⟨s₂, hs₂, h₂⟩ := (h₁.mono (Set.empty_subset {nId})).place info he₁ rfl rfl
          (eq_false_of_ne_true htried) hmax source nNowLater
        exact ⟨s₂, false, bind_eq_ok.mpr ⟨s₂, hs₂, rfl⟩, h₂⟩
    · rename_i hfind
      have h₁ := h.create source (h.indexed.find_eq_none hfind)
      dsimp only
      generalize UInt32.ofInt (max 0 (seconds addr.nTime - nTimePenalty)) = nTime
      have hf : Harmless fun info ↦ { info with nTime } :=
        ⟨fun _ ↦ rfl, fun _ ↦ rfl, fun _ ↦ rfl, fun _ ↦ rfl, fun _ ↦ rfl, fun _ ↦ id, fun _ ↦ id⟩
      have h₂ := h₁.modifyInfo hf s.nIdCount
      obtain ⟨s₂, hs₂, h₃⟩ := h₂.place { CAddrInfo.mk' addr source with nTime }
        (e := { CAddrInfo.mk' addr source with nTime, nRandomPos := 0 }) (by
          rw [entry_modifyInfo hf.strip, Function.update_self]
          show ((s.enter s.nIdCount (CAddrInfo.mk' addr source)).entry s.nIdCount).map _ = _
          rw [entry_enter, Function.update_self]
          rfl) rfl rfl rfl (show (0 : ℤ) < 8 by decide) source nNowLater
      exact ⟨s₂, true, bind_eq_ok.mpr ⟨s₂, hs₂, rfl⟩, h₃⟩

/-! ## The other operations -/

/-- **`Good_`** -/
theorem Sound.good_ (h : Sound A nKey ∅ 0 s) (addr : CService) {nTime : Int64} (htime : 0 < nTime) :
    ∃ s', good_ A s addr nTime = .ok s' ∧ Sound A nKey ∅ 0 s' := by
  rw [CAddrMan.good_]
  split
  · exact ⟨s, rfl, h⟩
  · rename_i nId info hfind
    obtain ⟨hinfo, -⟩ := h.indexed.find_eq_some hfind
    have hf := Harmless.good htime
    have h₁ := h.modifyInfo hf nId
    dsimp only
    split_ifs with haddr htried hslot
    · exact ⟨_, rfl, h⟩
    · exact ⟨_, rfl, h₁⟩
    · exact ⟨_, rfl, h₁⟩
    · refine h₁.makeTried (e := { info.good nTime with nRandomPos := 0 }) ?_ rfl
        (eq_false_of_ne_true htried) (pos_of_lt htime).2
      rw [entry_modifyInfo hf.strip, Function.update_self, entry_of_getElem? hinfo, Option.map_some,
        ← hf.strip]

/-- `Attempt_` and `Connected_` -/
theorem Sound.touch (h : Sound A nKey ∅ 0 s) (addr : CService) {f : CAddrInfo → CAddrInfo}
    (hf : Harmless f) : Sound A nKey ∅ 0 (s.touch addr f) := by
  rw [CAddrMan.touch]
  split
  · exact h
  · split_ifs
    · exact h
    · exact h.modifyInfo hf _

/-- The loop of `Select_` over a table where every slot that is taken names an entry -/
theorem selectFrom_eq_ok {P : Type} {table : P → ℤ}
    (h : ∀ p, table p ≠ -1 → ∃ e, s.entry (table p) = some e) (draws : List (P × Bool)) :
    ∃ r, s.selectFrom table draws = .ok r := by
  induction draws with
  | nil => exact ⟨none, rfl⟩
  | cons draw draws ih =>
    obtain ⟨p, fTake⟩ := draw
    rw [selectFrom]
    by_cases hp : table p = -1
    · rw [if_pos hp]
      exact ih
    · obtain ⟨e, he⟩ := h p hp
      obtain ⟨info, hinfo, -⟩ := exists_getElem? he
      rw [if_neg hp, hinfo]
      cases fTake with
      | true => exact ⟨_, rfl⟩
      | false => exact ih

/-- **`Select_`** -/
theorem Sound.select_ (h : Sound A nKey ∅ 0 s) (fCoin : Bool) (drawsTried : List (TriedSlot × Bool))
    (drawsNew : List (NewSlot × Bool)) : ∃ r, s.select_ fCoin drawsTried drawsNew = .ok r := by
  rw [CAddrMan.select_]
  split_ifs
  · exact ⟨none, rfl⟩
  · refine selectFrom_eq_ok (fun p hp ↦ ?_) drawsTried
    obtain ⟨e, he, -⟩ := h.placed.tried hp
    exact ⟨e, he⟩
  · refine selectFrom_eq_ok (fun p hp ↦ ?_) drawsNew
    obtain ⟨e, he, -⟩ := h.placed.new hp
    exact ⟨e, he⟩

/-- The loop of `GetAddr_` only trades places. -/
theorem Indexed.getAddrFrom {nNodes : ℕ} {nNow : ℕ → ℤ} {nRand : ℕ → ℕ} (k : ℕ)
    (vAddr : List CAddress) (h : Indexed s) (hk : k ≤ s.vRandom.length) :
    ∃ s' vAddr', getAddrFrom nNodes nNow nRand k s vAddr = .ok (s', vAddr') ∧ Indexed s' ∧
      Shuffled s s' := by
  induction k generalizing s vAddr with
  | zero => exact ⟨s, vAddr, rfl, h, Shuffled.refl s⟩
  | succ k ih =>
    rw [CAddrMan.getAddrFrom]
    split_ifs
    · exact ⟨s, vAddr, rfl, h, Shuffled.refl s⟩
    · dsimp only
      set n := s.vRandom.length - (k + 1)
      have hn : n < s.vRandom.length := by omega
      have hpos : nRand n % (s.vRandom.length - n) + n < s.vRandom.length := by
        have := Nat.mod_lt (nRand n) (Nat.sub_pos_of_lt hn)
        omega
      obtain ⟨s₁, hs₁, h₁, hshuffled, -⟩ := h.swapRandom hn hpos
      have hn₁ : n < s₁.vRandom.length := by rwa [hshuffled.length]
      obtain ⟨ai, hai⟩ := h₁.mem_vRandom.mp (List.getElem_mem hn₁)
      have hget : (s₁.vRandom[n]?.bind fun nId ↦ s₁.mapInfo[nId]?) = some ai := by
        rw [List.getElem?_eq_getElem hn₁, Option.bind_some, hai]
      obtain ⟨s', vAddr', hs', h', hshuffled'⟩ :=
        ih (if ai.isTerrible (nNow n) then vAddr else vAddr ++ [ai.toCAddress]) h₁
          (by rw [hshuffled.length]; omega)
      refine ⟨s', vAddr', bind_eq_ok.mpr ⟨s₁, hs₁, ?_⟩, h', hshuffled.trans hshuffled'⟩
      rw [hget]
      exact hs'

/-- **`GetAddr_`** -/
theorem Sound.getAddr_ (h : Sound A nKey ∅ 0 s) (nNow : ℕ → ℤ) (nRand : ℕ → ℕ) :
    ∃ s' vAddr, s.getAddr_ nNow nRand = .ok (s', vAddr) ∧ Sound A nKey ∅ 0 s' := by
  obtain ⟨s', vAddr, hs', hindexed, hshuffled⟩ := h.indexed.getAddrFrom s.vRandom.length [] le_rfl
  refine ⟨s', vAddr, hs', hshuffled.nKey.trans h.key, hindexed, ?_, ?_, ?_⟩
  · rw [hshuffled.nKey, hshuffled.entry, hshuffled.vvNew, hshuffled.vvTried]
    exact h.placed
  · rw [hshuffled.nTried, hshuffled.vvTried]
    exact h.tried
  · rw [hshuffled.length, hshuffled.nTried, hshuffled.nNew]
    exact h.total

/-- **An operation with positive times**: no assertion fails, and the invariant is kept. -/
theorem Sound.step (h : Sound A nKey ∅ 0 s) {op : Op} (htimely : op.Timely) :
    ∃ s', step A s op = .ok s' ∧ Sound A nKey ∅ 0 s' := by
  cases op with
  | add addr source nTimePenalty nNow nNowLater nRand =>
    obtain ⟨s', fNew, hs', h'⟩ := h.add_ addr source nTimePenalty nNow nNowLater nRand
    exact ⟨s', by rw [CAddrMan.step, hs']; rfl, h'⟩
  | good addr nTime => exact h.good_ addr htimely
  | attempt addr nTime => exact ⟨_, rfl, h.touch addr (Harmless.attempt htimely)⟩
  | connected addr nTime => exact ⟨_, rfl, h.touch addr (Harmless.connected nTime)⟩
  | getAddr nNow nRand =>
    obtain ⟨s', vAddr, hs', h'⟩ := h.getAddr_ nNow nRand
    exact ⟨s', by rw [CAddrMan.step, hs']; rfl, h'⟩
  | select fCoin drawsTried drawsNew =>
    obtain ⟨r, hr⟩ := h.select_ fCoin drawsTried drawsNew
    exact ⟨s, by rw [CAddrMan.step, hr]; rfl, h⟩

theorem Reachable.isSound (h : Reachable A nKey s) : Sound A nKey ∅ 0 s := by
  induction h with
  | init => exact Sound.init nKey
  | step _ htimely hstep ih =>
    obtain ⟨s', hs', h'⟩ := ih.step htimely
    cases hs'.symm.trans hstep
    exact h'

end CAddrMan

end Bws
