import Bws.AddrMan
import Std.Data.TreeMap.Lemmas

/-!
# The containers that find an entry of the address manager

An entry is found by its id, by its address, and by its place among the random ones (`Indexed`).  An entry
without that place is all that the two tables of slots are about (`CAddrMan.entry`), and two places that
trade change nothing there (`Shuffled`).
-/

namespace Bws

namespace CAddrMan

variable {A : AddrParams} {s : CAddrMan}

/-! ## Entries -/

/-- An entry without its place among the random ones -/
def entry (s : CAddrMan) (nId : ℤ) : Option CAddrInfo :=
  s.mapInfo[nId]?.map fun info ↦ { info with nRandomPos := 0 }

/-- Its place among the random ones -/
def position (s : CAddrMan) (nId : ℤ) : Option ℕ :=
  s.mapInfo[nId]?.map fun info ↦ info.nRandomPos.toNat

theorem entry_eq_none_iff {nId : ℤ} : s.entry nId = none ↔ s.mapInfo[nId]? = none :=
  Option.map_eq_none_iff

theorem entry_eq_some_iff {nId : ℤ} {info : CAddrInfo} : s.entry nId = some info ↔
    ∃ e, s.mapInfo[nId]? = some e ∧ { e with nRandomPos := 0 } = info := Option.map_eq_some_iff

theorem entry_of_getElem? {nId : ℤ} {info : CAddrInfo} (h : s.mapInfo[nId]? = some info) :
    s.entry nId = some { info with nRandomPos := 0 } := entry_eq_some_iff.mpr ⟨info, h, rfl⟩

theorem getElem?_modifyInfo (s : CAddrMan) (nId : ℤ) (f : CAddrInfo → CAddrInfo) (id : ℤ) :
    (s.modifyInfo nId f).mapInfo[id]? = if id = nId then s.mapInfo[nId]?.map f else s.mapInfo[id]? := by
  rw [modifyInfo, Std.TreeMap.getElem?_modify]
  simp only [compare_eq_iff_eq, eq_comm (a := nId)]

theorem entry_modifyInfo {f : CAddrInfo → CAddrInfo}
    (hf : ∀ info, { f info with nRandomPos := 0 } = f { info with nRandomPos := 0 }) (s : CAddrMan)
    (nId : ℤ) : (s.modifyInfo nId f).entry = Function.update s.entry nId ((s.entry nId).map f) := by
  funext id
  rw [entry, getElem?_modifyInfo]
  by_cases hid : id = nId
  · rw [hid, if_pos rfl, Function.update_self, entry, Option.map_map, Option.map_map]
    congr 1
    funext info
    exact hf info
  · rw [if_neg hid, Function.update_of_ne hid]
    rfl

/-- The place of an entry is set. -/
theorem entry_setPos (s : CAddrMan) (nId pos : ℤ) :
    (s.modifyInfo nId fun info ↦ { info with nRandomPos := pos }).entry = s.entry := by
  funext id
  rw [entry, getElem?_modifyInfo]
  by_cases hid : id = nId
  · rw [hid, if_pos rfl, Option.map_map]
    rfl
  · rw [if_neg hid]
    rfl

theorem position_setPos {nId : ℤ} {info : CAddrInfo} (h : s.mapInfo[nId]? = some info) (pos : ℕ) :
    (s.modifyInfo nId fun info ↦ { info with nRandomPos := pos }).position =
      Function.update s.position nId (some pos) := by
  funext id
  rw [position, getElem?_modifyInfo]
  by_cases hid : id = nId
  · rw [hid, if_pos rfl, Function.update_self, h]
    rfl
  · rw [if_neg hid, Function.update_of_ne hid]
    rfl

/-! ## The containers that find an entry -/

/-- `mapInfo`, `mapAddr` and `vRandom` are in bijection. -/
structure Indexed (s : CAddrMan) : Prop where
  nonneg : 0 ≤ s.nIdCount
  id : ∀ (nId : ℤ) (info : CAddrInfo), s.mapInfo[nId]? = some info → 0 ≤ nId ∧ nId < s.nIdCount
  pos : ∀ (nId : ℤ) (info : CAddrInfo), s.mapInfo[nId]? = some info → 0 ≤ info.nRandomPos
  random : Slots.Indexes s.vRandom s.position
  addr : ∀ ip nId, s.mapAddr ip = some nId ↔
    ∃ info : CAddrInfo, s.mapInfo[nId]? = some info ∧ info.ip = ip

namespace Indexed

theorem init (nKey : BitVec 256) : Indexed (init nKey) where
  nonneg := le_rfl
  id nId info h := by cases h
  pos nId info h := by cases h
  random nId i := ⟨nofun, nofun⟩
  addr ip nId := ⟨nofun, nofun⟩

/-- The tables and the counts do not matter. -/
theorem same (h : Indexed s) {s' : CAddrMan} (hcount : s'.nIdCount = s.nIdCount)
    (hinfo : s'.mapInfo = s.mapInfo) (haddr : s'.mapAddr = s.mapAddr) (hrandom : s'.vRandom = s.vRandom) :
    Indexed s' where
  nonneg := hcount ▸ h.nonneg
  id := hcount ▸ hinfo ▸ h.id
  pos := hinfo ▸ h.pos
  random := by
    rw [show s'.position = s.position by funext nId; rw [position, hinfo]; rfl, hrandom]
    exact h.random
  addr := haddr ▸ hinfo ▸ h.addr

/-- An entry keeps its address and its place. -/
theorem modifyInfo (h : Indexed s) (nId : ℤ) {f : CAddrInfo → CAddrInfo}
    (hpos : ∀ info, (f info).nRandomPos = info.nRandomPos) (hip : ∀ info, (f info).ip = info.ip) :
    Indexed (s.modifyInfo nId f) := by
  have hget : ∀ (id : ℤ) (info : CAddrInfo), (s.modifyInfo nId f).mapInfo[id]? = some info →
      ∃ e, s.mapInfo[id]? = some e ∧ e.nRandomPos = info.nRandomPos := by
    intro id info hid
    rw [getElem?_modifyInfo] at hid
    split at hid
    · rename_i heq
      obtain ⟨e, he, rfl⟩ := Option.map_eq_some_iff.mp hid
      exact ⟨e, heq ▸ he, (hpos e).symm⟩
    · exact ⟨info, hid, rfl⟩
  have hposition : (s.modifyInfo nId f).position = s.position := by
    funext id
    rw [position, getElem?_modifyInfo]
    split
    · rename_i heq
      rw [heq, position, Option.map_map]
      congr 1
      funext info
      exact congrArg Int.toNat (hpos info)
    · rfl
  refine ⟨h.nonneg, fun id info hid ↦ ?_, fun id info hid ↦ ?_, ?_, fun ip id ↦ ?_⟩
  · obtain ⟨e, he, -⟩ := hget id info hid
    exact h.id id e he
  · obtain ⟨e, he, heq⟩ := hget id info hid
    exact heq ▸ h.pos id e he
  · rw [hposition]
    exact h.random
  · refine (h.addr ip id).trans ?_
    rw [getElem?_modifyInfo]
    split
    · rename_i heq
      rw [heq]
      constructor
      · rintro ⟨e, he, hip'⟩
        exact ⟨f e, by rw [he, Option.map_some], (hip e).trans hip'⟩
      · rintro ⟨info, hinfo, hip'⟩
        obtain ⟨e, he, rfl⟩ := Option.map_eq_some_iff.mp hinfo
        exact ⟨e, he, (hip e).symm.trans hip'⟩
    · rfl

/-- What `find` finds is an entry of the address. -/
theorem find_eq_some (h : Indexed s) {ip : CNetAddr} {nId : ℤ} {info : CAddrInfo}
    (hfind : s.find ip = some (nId, info)) : s.mapInfo[nId]? = some info ∧ info.ip = ip := by
  rw [find] at hfind
  split at hfind
  · cases hfind
  · rename_i id hid
    obtain ⟨e, he, heq⟩ := Option.map_eq_some_iff.mp hfind
    cases heq
    obtain ⟨e', he', hip⟩ := (h.addr ip nId).mp hid
    exact ⟨he, Option.some.inj (he'.symm.trans he) ▸ hip⟩

/-- When `find` finds nothing, the address has no entry. -/
theorem find_eq_none (h : Indexed s) {ip : CNetAddr} (hfind : s.find ip = none) :
    s.mapAddr ip = none := by
  rw [find] at hfind
  split at hfind
  · assumption
  · rename_i id hid
    obtain ⟨e, he, -⟩ := (h.addr ip id).mp hid
    rw [he] at hfind
    cases hfind

theorem mem_vRandom (h : Indexed s) {nId : ℤ} : nId ∈ s.vRandom ↔
    ∃ info : CAddrInfo, s.mapInfo[nId]? = some info := by
  rw [h.random.mem_iff, position, Option.isSome_map, Option.isSome_iff_exists]

end Indexed

/-! ## Places trade -/

/-- Only places among the random ones are different. -/
structure Shuffled (s s' : CAddrMan) : Prop where
  nKey : s'.nKey = s.nKey
  nIdCount : s'.nIdCount = s.nIdCount
  entry : s'.entry = s.entry
  mapAddr : s'.mapAddr = s.mapAddr
  length : s'.vRandom.length = s.vRandom.length
  nTried : s'.nTried = s.nTried
  vvTried : s'.vvTried = s.vvTried
  nNew : s'.nNew = s.nNew
  vvNew : s'.vvNew = s.vvNew

namespace Shuffled

theorem refl (s : CAddrMan) : Shuffled s s := ⟨rfl, rfl, rfl, rfl, rfl, rfl, rfl, rfl, rfl⟩

theorem trans {s₁ s₂ s₃ : CAddrMan} (h : Shuffled s₁ s₂) (h' : Shuffled s₂ s₃) : Shuffled s₁ s₃ where
  nKey := h'.nKey.trans h.nKey
  nIdCount := h'.nIdCount.trans h.nIdCount
  entry := h'.entry.trans h.entry
  mapAddr := h'.mapAddr.trans h.mapAddr
  length := h'.length.trans h.length
  nTried := h'.nTried.trans h.nTried
  vvTried := h'.vvTried.trans h.vvTried
  nNew := h'.nNew.trans h.nNew
  vvNew := h'.vvNew.trans h.vvNew

end Shuffled

theorem swapRandom_eq_ok {i j : ℕ} {s' : CAddrMan} (h : s.swapRandom i j = .ok s') :
    Shuffled s s' ∧ s'.mapInfo.size = s.mapInfo.size := by
  rw [CAddrMan.swapRandom] at h
  split at h
  next =>
    cases h
    exact ⟨Shuffled.refl s, rfl⟩
  next =>
    split at h
    next a b _ _ =>
      simp only [bind_check_eq_ok, assert_eq_ok] at h
      obtain ⟨-, -, h⟩ := h
      cases h
      refine ⟨⟨rfl, rfl, (entry_setPos _ b i).trans (entry_setPos s a j), rfl, ?_, rfl, rfl, rfl, rfl⟩,
        ?_⟩
      · change (Slots.swap s.vRandom i j a b).length = s.vRandom.length
        rw [Slots.swap, List.length_set, List.length_set]
      · exact Std.TreeMap.size_modify.trans Std.TreeMap.size_modify
    next => cases h

/-- `vRandom` and `mapInfo` are in bijection. -/
structure Ordered (s : CAddrMan) : Prop where
  pos : ∀ (nId : ℤ) (info : CAddrInfo), s.mapInfo[nId]? = some info → 0 ≤ info.nRandomPos
  random : Slots.Indexes s.vRandom s.position

theorem Ordered.mem_vRandom (h : Ordered s) {nId : ℤ} : nId ∈ s.vRandom ↔
    ∃ info : CAddrInfo, s.mapInfo[nId]? = some info := by
  rw [h.random.mem_iff, position, Option.isSome_map, Option.isSome_iff_exists]

theorem Indexed.ordered (h : Indexed s) : Ordered s := ⟨h.pos, h.random⟩

/-- An address is found by the entry without its place. -/
theorem exists_getElem?_ip {nId : ℤ} {ip : CNetAddr} :
    (∃ info, s.mapInfo[nId]? = some info ∧ info.ip = ip) ↔
      ∃ info, s.entry nId = some info ∧ info.ip = ip := by
  constructor
  · rintro ⟨info, hinfo, hip⟩
    exact ⟨_, entry_of_getElem? hinfo, hip⟩
  · rintro ⟨info, hinfo, hip⟩
    obtain ⟨e, he, rfl⟩ := entry_eq_some_iff.mp hinfo
    exact ⟨e, he, hip⟩

theorem Indexed.of_shuffled (h : Indexed s) {s' : CAddrMan} (hshuffled : Shuffled s s')
    (hordered : Ordered s') : Indexed s' where
  nonneg := hshuffled.nIdCount ▸ h.nonneg
  id := fun id info hid ↦ by
    have hentry := entry_of_getElem? hid
    rw [hshuffled.entry] at hentry
    obtain ⟨e, he, -⟩ := entry_eq_some_iff.mp hentry
    rw [hshuffled.nIdCount]
    exact h.id id e he
  pos := hordered.pos
  random := hordered.random
  addr := fun ip id ↦ by
    rw [hshuffled.mapAddr, h.addr ip id, exists_getElem?_ip, exists_getElem?_ip, hshuffled.entry]

/-- **Two places below the end can trade**; what was at the first is then at the second. -/
theorem Ordered.swapRandom (h : Ordered s) {i j : ℕ} (hi : i < s.vRandom.length)
    (hj : j < s.vRandom.length) :
    ∃ s', s.swapRandom i j = .ok s' ∧ Ordered s' ∧ s'.vRandom[j]? = s.vRandom[i]? := by
  by_cases hij : i = j
  · exact ⟨s, by rw [CAddrMan.swapRandom, if_pos hij], h, by rw [hij]⟩
  · have hia : s.vRandom[i]? = some s.vRandom[i] := List.getElem?_eq_getElem hi
    have hjb : s.vRandom[j]? = some s.vRandom[j] := List.getElem?_eq_getElem hj
    obtain ⟨e₁, he₁⟩ := h.mem_vRandom.mp (List.getElem_mem hi)
    obtain ⟨e₂, he₂⟩ := h.mem_vRandom.mp (List.getElem_mem hj)
    generalize s.vRandom[i] = a at *
    generalize s.vRandom[j] = b at *
    have hab : b ≠ a := by
      rintro rfl
      exact hij (Option.some.inj (((h.random b i).mpr hia).symm.trans ((h.random b j).mpr hjb)))
    set s₁ := s.modifyInfo a fun info ↦ { info with nRandomPos := j }
    set s₂ := s₁.modifyInfo b fun info ↦ { info with nRandomPos := i }
    have hb₁ : s₁.mapInfo[b]? = some e₂ := by rw [getElem?_modifyInfo, if_neg hab, he₂]
    have hposition : s₂.position = Function.update (Function.update s.position a (some j)) b (some i) := by
      rw [position_setPos hb₁, position_setPos he₁]
    refine ⟨{ s₂ with vRandom := Slots.swap s.vRandom i j a b }, ?_, ⟨fun id info hid ↦ ?_, ?_⟩, ?_⟩
    · rw [CAddrMan.swapRandom, if_neg hij, hia, hjb]
      have hca : s.mapInfo.contains a = true := by
        rw [← Std.TreeMap.isSome_getElem?_eq_contains, he₁]
        rfl
      have hcb : s.mapInfo.contains b = true := by
        rw [← Std.TreeMap.isSome_getElem?_eq_contains, he₂]
        rfl
      simp only [assert, if_pos hca, if_pos hcb]
      rfl
    · change s₂.mapInfo[id]? = some info at hid
      rw [getElem?_modifyInfo, hb₁, getElem?_modifyInfo, he₁] at hid
      split_ifs at hid with hidb hida
      · cases hid
        exact Int.natCast_nonneg i
      · cases hid
        exact Int.natCast_nonneg j
      · exact h.pos id info hid
    · change Slots.Indexes _ s₂.position
      rw [hposition]
      exact h.random.swap hij hia hjb
    · change (Slots.swap s.vRandom i j a b)[j]? = s.vRandom[i]?
      rw [Slots.getElem?_swap hia hjb, if_pos rfl, hia]

theorem Indexed.swapRandom (h : Indexed s) {i j : ℕ} (hi : i < s.vRandom.length)
    (hj : j < s.vRandom.length) : ∃ s', s.swapRandom i j = .ok s' ∧ Indexed s' ∧ Shuffled s s' ∧
      s'.vRandom[j]? = s.vRandom[i]? := by
  obtain ⟨s', hs', hordered, hat⟩ := h.ordered.swapRandom hi hj
  obtain ⟨hshuffled, -⟩ := swapRandom_eq_ok hs'
  exact ⟨s', hs', h.of_shuffled hshuffled hordered, hshuffled, hat⟩

/-! ## Entries come and go -/

/-- An entry is gone, and not counted any more. -/
structure Deleted (s : CAddrMan) (nId : ℤ) (s' : CAddrMan) : Prop where
  nKey : s'.nKey = s.nKey
  entry : s'.entry = Function.update s.entry nId none
  length : s'.vRandom.length + 1 = s.vRandom.length
  nTried : s'.nTried = s.nTried
  vvTried : s'.vvTried = s.vvTried
  nNew : s'.nNew = s.nNew - 1
  vvNew : s'.vvNew = s.vvNew

theorem getElem?_erase_mapInfo (s : CAddrMan) (nId id : ℤ) :
    (s.mapInfo.erase nId)[id]? = if id = nId then none else s.mapInfo[id]? := by
  rw [Std.TreeMap.getElem?_erase]
  simp only [compare_eq_iff_eq, eq_comm (a := nId)]

theorem getElem?_insert_mapInfo (s : CAddrMan) (nId : ℤ) (info : CAddrInfo) (id : ℤ) :
    (s.mapInfo.insert nId info)[id]? = if id = nId then some info else s.mapInfo[id]? := by
  rw [Std.TreeMap.getElem?_insert]
  simp only [compare_eq_iff_eq, eq_comm (a := nId)]

/-- Only a new entry without references is deleted. -/
theorem delete_eq_ok {nId : ℤ} {s' : CAddrMan} (h : s.delete nId = .ok s') :
    ∃ info, s.entry nId = some info ∧ (info.fInTried = false ∧ info.nRefCount = 0) ∧ Deleted s nId s' ∧
      s'.mapAddr = Function.update s.mapAddr info.ip none ∧ s'.nIdCount = s.nIdCount ∧
      s'.mapInfo.size + 1 = s.mapInfo.size := by
  rw [CAddrMan.delete] at h
  cases hinfo : s.mapInfo[nId]? with
  | none =>
    rw [hinfo] at h
    cases h
  | some info =>
    rw [hinfo] at h
    simp only [bind_eq_ok, assert_eq_ok] at h
    obtain ⟨⟨⟩, htried, ⟨⟩, hrefs, ⟨⟩, ⟨-, hne⟩, s₁, hs₁, h⟩ := h
    cases h
    obtain ⟨hshuffled, hsize⟩ := swapRandom_eq_ok hs₁
    refine ⟨_, entry_of_getElem? hinfo, ⟨htried, hrefs⟩, ⟨hshuffled.nKey, ?_, ?_, hshuffled.nTried,
      hshuffled.vvTried, congrArg (· - 1) hshuffled.nNew, hshuffled.vvNew⟩,
      congrArg (Function.update · info.ip none) hshuffled.mapAddr, hshuffled.nIdCount, ?_⟩
    · rw [← hshuffled.entry]
      funext id
      change (s₁.mapInfo.erase nId)[id]?.map _ = _
      rw [getElem?_erase_mapInfo]
      by_cases hid : id = nId
      · rw [if_pos hid, hid, Function.update_self, Option.map_none]
      · rw [if_neg hid, Function.update_of_ne hid]
        rfl
    · have hpos := List.length_pos_iff.mpr hne
      change s₁.vRandom.dropLast.length + 1 = _
      rw [List.length_dropLast, hshuffled.length]
      omega
    · have hmem : nId ∈ s₁.mapInfo := by
        rw [Std.TreeMap.mem_iff_isSome_getElem?]
        have hentry := congrFun hshuffled.entry nId
        rw [entry_of_getElem? hinfo] at hentry
        obtain ⟨e, he, -⟩ := entry_eq_some_iff.mp hentry
        rw [he]
        rfl
      have hpos : s₁.mapInfo.size ≠ 0 := fun hzero ↦ by
        have hempty : s₁.mapInfo.isEmpty = true := by
          rw [Std.TreeMap.isEmpty_eq_size_eq_zero, hzero]
          rfl
        exact Std.TreeMap.not_mem_of_isEmpty hempty hmem
      change (s₁.mapInfo.erase nId).size + 1 = _
      rw [Std.TreeMap.size_erase, if_pos (Std.TreeMap.mem_iff_contains.mp hmem)]
      omega

/-- **A new entry without references can be deleted.** -/
theorem Ordered.delete (h : Ordered s) {nId : ℤ} {info : CAddrInfo}
    (hinfo : s.mapInfo[nId]? = some info) (htried : info.fInTried = false)
    (hrefs : info.nRefCount = 0) : ∃ s', s.delete nId = .ok s' ∧ Ordered s' := by
  have hat : s.vRandom[info.nRandomPos.toNat]? = some nId :=
    (h.random nId _).mp (by rw [position, hinfo, Option.map_some])
  obtain ⟨hlt, -⟩ := List.getElem?_eq_some_iff.mp hat
  have hpred : s.vRandom.length - 1 < s.vRandom.length := by omega
  obtain ⟨s₁, hs₁, hordered, hlast⟩ := h.swapRandom hlt hpred
  obtain ⟨hshuffled, -⟩ := swapRandom_eq_ok hs₁
  have hlast₁ : s₁.vRandom.getLast? = some nId := by
    rw [List.getLast?_eq_getElem?, hshuffled.length, hlast, hat]
  set s' : CAddrMan := { s₁ with
    vRandom := s₁.vRandom.dropLast
    mapAddr := Function.update s₁.mapAddr info.ip none
    mapInfo := s₁.mapInfo.erase nId
    nNew := s₁.nNew - 1 } with hs'
  have hget : ∀ id, s'.mapInfo[id]? = if id = nId then none else s₁.mapInfo[id]? :=
    getElem?_erase_mapInfo s₁ nId
  have hposition : s'.position = Function.update s₁.position nId none := by
    funext id
    rw [position, hget]
    by_cases hid : id = nId
    · rw [if_pos hid, hid, Function.update_self, Option.map_none]
    · rw [if_neg hid, Function.update_of_ne hid]
      rfl
  refine ⟨s', ?_, fun id e hid ↦ ?_, ?_⟩
  · rw [CAddrMan.delete, hinfo]
    have hne : s.vRandom ≠ [] := List.ne_nil_of_length_pos (Nat.zero_lt_of_lt hlt)
    simp only [assert, if_pos htried, if_pos hrefs,
      if_pos (show 0 ≤ info.nRandomPos ∧ s.vRandom ≠ [] from ⟨h.pos nId info hinfo, hne⟩)]
    exact bind_eq_ok.mpr ⟨_, rfl, bind_eq_ok.mpr ⟨_, rfl, bind_eq_ok.mpr ⟨_, rfl,
      bind_eq_ok.mpr ⟨s₁, hs₁, rfl⟩⟩⟩⟩
  · rw [hget] at hid
    split at hid
    · cases hid
    · exact hordered.pos id e hid
  · rw [hposition]
    exact hordered.random.dropLast hlast₁

theorem Indexed.delete (h : Indexed s) {nId : ℤ} {info : CAddrInfo}
    (hinfo : s.mapInfo[nId]? = some info) (htried : info.fInTried = false)
    (hrefs : info.nRefCount = 0) : ∃ s', s.delete nId = .ok s' ∧ Indexed s' ∧ Deleted s nId s' := by
  obtain ⟨s', hs', hordered⟩ := h.ordered.delete hinfo htried hrefs
  obtain ⟨info₁, hinfo₁, -, hdeleted, haddr, hcount, -⟩ := delete_eq_ok hs'
  have hentry := entry_of_getElem? hinfo
  rw [hinfo₁] at hentry
  have hip : info₁.ip = info.ip := congrArg (fun e ↦ e.ip) (Option.some.inj hentry)
  refine ⟨s', hs', ⟨hcount ▸ h.nonneg, fun id e hid ↦ ?_, hordered.pos, hordered.random,
    fun ip id ↦ ?_⟩, hdeleted⟩
  · have he := entry_of_getElem? hid
    rw [hdeleted.entry] at he
    by_cases hidn : id = nId
    · rw [hidn, Function.update_self] at he
      cases he
    · rw [Function.update_of_ne hidn] at he
      obtain ⟨e', he', -⟩ := entry_eq_some_iff.mp he
      rw [hcount]
      exact h.id id e' he'
  · rw [haddr, exists_getElem?_ip, hdeleted.entry, hip]
    by_cases hipeq : ip = info.ip
    · rw [hipeq, Function.update_self]
      refine ⟨nofun, ?_⟩
      rintro ⟨e, he, hipe⟩
      by_cases hidn : id = nId
      · rw [hidn, Function.update_self] at he
        cases he
      · rw [Function.update_of_ne hidn] at he
        have h₁ := (h.addr info.ip id).mpr (exists_getElem?_ip.mpr ⟨e, he, hipe⟩)
        have h₂ := (h.addr info.ip nId).mpr ⟨info, hinfo, rfl⟩
        exact absurd (Option.some.inj (h₁.symm.trans h₂)) hidn
    · rw [Function.update_of_ne hipeq, h.addr ip id, exists_getElem?_ip]
      by_cases hidn : id = nId
      · rw [hidn, Function.update_self]
        refine ⟨?_, nofun⟩
        rintro ⟨e, he, hipe⟩
        rw [hinfo₁] at he
        cases he
        exact absurd (hipe.symm.trans hip) hipeq
      · rw [Function.update_of_ne hidn]

theorem entry_enter (s : CAddrMan) (nId : ℤ) (info : CAddrInfo) :
    (s.enter nId info).entry = Function.update s.entry nId (some { info with nRandomPos := 0 }) := by
  funext id
  have hget := getElem?_insert_mapInfo s nId { info with nRandomPos := s.vRandom.length } id
  rw [entry, show (s.enter nId info).mapInfo[id]? = _ from hget]
  by_cases hid : id = nId
  · rw [if_pos hid, hid, Function.update_self]
    rfl
  · rw [if_neg hid, Function.update_of_ne hid]
    rfl

theorem Indexed.entry_nIdCount (h : Indexed s) : s.entry s.nIdCount = none := by
  rw [entry_eq_none_iff]
  cases hid : s.mapInfo[s.nIdCount]? with
  | none => rfl
  | some e => exact absurd (h.id _ e hid).2 (lt_irrefl _)

/-- **An address without an entry can be given one.** -/
theorem Indexed.enter (h : Indexed s) (info : CAddrInfo) (hnone : s.mapAddr info.ip = none) :
    Indexed { s.enter s.nIdCount info with nIdCount := s.nIdCount + 1 } := by
  set s' : CAddrMan := { s.enter s.nIdCount info with nIdCount := s.nIdCount + 1 }
  have hget : ∀ id, s'.mapInfo[id]? = if id = s.nIdCount then
      some { info with nRandomPos := s.vRandom.length } else s.mapInfo[id]? :=
    getElem?_insert_mapInfo s s.nIdCount _
  have hfresh : s.mapInfo[s.nIdCount]? = none := entry_eq_none_iff.mp h.entry_nIdCount
  have hposition : s'.position = Function.update s.position s.nIdCount (some s.vRandom.length) := by
    funext id
    rw [position, hget]
    by_cases hid : id = s.nIdCount
    · rw [if_pos hid, hid, Function.update_self]
      rfl
    · rw [if_neg hid, Function.update_of_ne hid]
      rfl
  refine ⟨Int.add_nonneg h.nonneg Int.one_nonneg, fun id e hid ↦ ?_, fun id e hid ↦ ?_, ?_,
    fun ip id ↦ ?_⟩
  · show 0 ≤ id ∧ id < s.nIdCount + 1
    rw [hget] at hid
    split at hid
    · rename_i heq
      rw [heq]
      exact ⟨h.nonneg, Int.lt_succ _⟩
    · obtain ⟨h₁, h₂⟩ := h.id id e hid
      exact ⟨h₁, h₂.trans (Int.lt_succ _)⟩
  · rw [hget] at hid
    split at hid
    · cases hid
      exact Int.natCast_nonneg _
    · exact h.pos id e hid
  · rw [hposition]
    exact h.random.append (by rw [position, hfresh, Option.map_none])
  · show Function.update s.mapAddr info.ip (some s.nIdCount) ip = some id ↔ _
    rw [hget]
    by_cases hip : ip = info.ip
    · rw [hip, Function.update_self, Option.some_inj]
      constructor
      · rintro rfl
        exact ⟨_, if_pos rfl, rfl⟩
      · rintro ⟨e, he, hipe⟩
        split at he
        · rename_i heq
          exact heq.symm
        · have := (h.addr info.ip id).mpr ⟨e, he, hipe⟩
          rw [hnone] at this
          cases this
    · rw [Function.update_of_ne hip, h.addr ip id]
      by_cases hid : id = s.nIdCount
      · rw [if_pos hid, hid, hfresh]
        refine ⟨fun ⟨e, he, _⟩ ↦ (by cases he), ?_⟩
        rintro ⟨e, ⟨⟩, hipe⟩
        exact absurd hipe.symm hip
      · rw [if_neg hid]

end CAddrMan

end Bws
