import Bws.KeyPool

/-!
# Keys that are reserved

What a run of the key pool keeps: every index of the set has the record that was written for it, an
index that is reserved gets no new key, and a key that was kept is not handed out again
(`KeyPool.Run.sound`).  `TopUpKeyPool` counts on from the last index of the *set*, which reserved
indices have left, so all of this needs that it does not run into a reserved index
(`KeyPool.Collides`).
-/

namespace Bws

/-! ## Histories -/

/-- The key last written for an index, over what was loaded. -/
def lastWritten (loaded : ℤ → Option CPubKey) : List KeyEvent → ℤ → Option CPubKey
  | [] => loaded
  | .wrote nIndex key :: past => Function.update (lastWritten loaded past) nIndex (some key)
  | _ :: past => lastWritten loaded past

/-- The index was reserved and neither kept nor returned since. -/
def Outstanding : List KeyEvent → ℤ → Prop
  | [], _ => False
  | .reserved nIndex :: past, i => i = nIndex ∨ Outstanding past i
  | .released nIndex :: past, i => i ≠ nIndex ∧ Outstanding past i
  | _ :: past, i => Outstanding past i

/-- No index was written anew while it was reserved. -/
def NoReuse : List KeyEvent → Prop
  | [] => True
  | .wrote nIndex _ :: past => ¬ Outstanding past nIndex ∧ NoReuse past
  | _ :: past => NoReuse past

/-- No key was handed out after it was kept. -/
def NoneAgain : List KeyEvent → Prop
  | [] => True
  | .handedOut key :: past => .kept key ∉ past ∧ NoneAgain past
  | _ :: past => NoneAgain past

namespace KeyPool

/-- The index is in the set, or a `CReserveKey` has it. -/
def Live (s : KeyPool) (i : ℤ) : Prop :=
  i ∈ s.setKeyPool ∨ ∃ r, (s.reserveKeys r).nIndex = i ∧ i ≠ -1

/-- Filling the set up to a size can write an index that is reserved. -/
def Collides (s : KeyPool) (size : ℕ) : Prop :=
  ∃ r, s.nEnd ≤ (s.reserveKeys r).nIndex ∧
    (s.reserveKeys r).nIndex < s.nEnd + (size - s.setKeyPool.card : ℕ)

/-- The records of the indices that live, over the records that were loaded. -/
structure Filed (loaded : ℤ → Option CPubKey) (s : KeyPool) : Prop where
  pos : ∀ i, s.Live i → 1 ≤ i
  record : ∀ i, s.Live i → ∃ key ∈ s.keys, s.pool i = some key ∧
    lastWritten loaded s.events i = some key ∧ key ≠ [] ∧ .kept key ∉ s.events
  distinct : ∀ i j, s.Live i → s.Live j → s.pool i = s.pool j → i = j
  default : s.vchDefaultKey = [] ∨ s.vchDefaultKey ∈ s.keys
  default_ne : ∀ i, s.Live i → s.pool i ≠ some s.vchDefaultKey
  kept : ∀ key, .kept key ∈ s.events → key = [] ∨ key ∈ s.keys

/-- The object has no key but the one of its index, or the default key. -/
def Holds (s : KeyPool) (k : CReserveKey) : Prop :=
  k.vchPubKey = [] ∨ k.vchPubKey = s.vchDefaultKey ∨
    k.nIndex ≠ -1 ∧ s.pool k.nIndex = some k.vchPubKey

/-- The indices that are reserved. -/
structure Held (s : KeyPool) : Prop where
  notMem : ∀ r, (s.reserveKeys r).nIndex ∉ s.setKeyPool
  inj : ∀ r r', (s.reserveKeys r).nIndex = (s.reserveKeys r').nIndex →
    (s.reserveKeys r).nIndex ≠ -1 → r = r'
  holds : ∀ r, s.Holds (s.reserveKeys r)
  outstanding : ∀ i, Outstanding s.events i ↔ ∃ r, (s.reserveKeys r).nIndex = i ∧ i ≠ -1

/-- What every operation keeps. -/
structure Sound (loaded : ℤ → Option CPubKey) (s : KeyPool) : Prop where
  filed : s.Filed loaded
  held : s.Held
  noReuse : NoReuse s.events
  noneAgain : NoneAgain s.events

/-! ## The next index -/

theorem lt_nEnd {s : KeyPool} {i : ℤ} (h : i ∈ s.setKeyPool) : i < s.nEnd := by
  obtain ⟨m, hm⟩ := Finset.max_of_mem h
  have hle : i ≤ m := Finset.le_max_of_eq h hm
  have hnEnd : s.nEnd = m + 1 := by
    unfold nEnd
    rw [hm]
  omega

theorem nEnd_notMem (s : KeyPool) : s.nEnd ∉ s.setKeyPool := fun h ↦ lt_irrefl _ (lt_nEnd h)

theorem nEnd_insertKey (s : KeyPool) (key : CPubKey) :
    (s.insertKey s.nEnd key).nEnd = s.nEnd + 1 := by
  have hmax : (insert s.nEnd s.setKeyPool).max = (s.nEnd : WithBot ℤ) := by
    refine le_antisymm (Finset.max_le ?_) (Finset.le_max (Finset.mem_insert_self _ _))
    intro i hi
    rcases Finset.mem_insert.mp hi with rfl | hi
    · exact le_rfl
    · exact WithBot.coe_le_coe.mpr (lt_nEnd hi).le
  rw [nEnd, insertKey]
  dsimp only
  rw [hmax]

theorem one_le_nEnd {s : KeyPool} (h : ∀ i ∈ s.setKeyPool, 1 ≤ i) : 1 ≤ s.nEnd := by
  unfold nEnd
  split
  · exact le_rfl
  · rename_i m hm
    have := h m (Finset.mem_of_max hm)
    omega

/-! ## Single changes -/

section

variable {loaded : ℤ → Option CPubKey} {s s' : KeyPool}

/-- Only these fields matter. -/
def poolPart (s : KeyPool) :=
  (s.vchDefaultKey, s.keys, s.setKeyPool, s.pool, s.reserveKeys, s.events)

theorem Sound.of_same (h : Sound loaded s) (hs : s'.poolPart = s.poolPart) : Sound loaded s' := by
  obtain ⟨_, _, _, _, _, _, _, _, _⟩ := s
  obtain ⟨_, _, _, _, _, _, _, _, _⟩ := s'
  simp only [poolPart, Prod.mk.injEq] at hs
  obtain ⟨rfl, rfl, rfl, rfl, rfl, rfl⟩ := hs
  obtain ⟨⟨_, _, _, _, _, _⟩, ⟨_, _, _, _⟩, _, _⟩ := h
  exact ⟨⟨‹_›, ‹_›, ‹_›, ‹_›, ‹_›, ‹_›⟩, ⟨‹_›, ‹_›, ‹_›, ‹_›⟩, ‹_›, ‹_›⟩

/-- Indices may stop to live, and keys may be kept that no index has any more. -/
theorem Filed.mono (h : s.Filed loaded) (hlive : ∀ i, s'.Live i → s.Live i)
    (hpool : ∀ i, s'.Live i → s'.pool i = s.pool i) (hkeys : s'.keys = s.keys)
    (hdefault : s'.vchDefaultKey = s.vchDefaultKey)
    (hlast : lastWritten loaded s'.events = lastWritten loaded s.events)
    (hkept : ∀ key, .kept key ∈ s'.events → .kept key ∈ s.events ∨
      (key = [] ∨ key ∈ s.keys) ∧ ∀ i, s'.Live i → s.pool i = some key → key = []) :
    s'.Filed loaded where
  pos i hi := h.pos i (hlive i hi)
  record i hi := by
    obtain ⟨key, hkey, hk, hw, hne, hnot⟩ := h.record i (hlive i hi)
    refine ⟨key, hkeys ▸ hkey, (hpool i hi).trans hk, hlast ▸ hw, hne, fun hmem ↦ ?_⟩
    exact (hkept key hmem).elim hnot fun hout ↦ hne (hout.2 i hi hk)
  distinct i j hi hj hij := by
    rw [hpool i hi, hpool j hj] at hij
    exact h.distinct i j (hlive i hi) (hlive j hj) hij
  default := by
    rw [hdefault, hkeys]
    exact h.default
  default_ne i hi := by
    rw [hpool i hi, hdefault]
    exact h.default_ne i (hlive i hi)
  kept key hk := by
    rw [hkeys]
    exact (hkept key hk).elim (h.kept key) And.left

/-! ## A new key -/

theorem Sound.addKey (h : Sound loaded s) (key : CPubKey) :
    Sound loaded (s.withKey key) where
  filed := {
    pos := h.filed.pos
    record := fun i hi ↦ by
      obtain ⟨k, hk, hrest⟩ := h.filed.record i hi
      exact ⟨k, List.mem_cons_of_mem key hk, hrest⟩
    distinct := h.filed.distinct
    default := h.filed.default.imp_right (List.mem_cons_of_mem key)
    default_ne := h.filed.default_ne
    kept := fun k hk ↦ (h.filed.kept k hk).imp_right (List.mem_cons_of_mem key) }
  held := ⟨h.held.notMem, h.held.inj, h.held.holds, h.held.outstanding⟩
  noReuse := h.noReuse
  noneAgain := h.noneAgain

theorem live_insertKey (s : KeyPool) (n : ℤ) (key : CPubKey) {i : ℤ} :
    (s.insertKey n key).Live i ↔ i = n ∨ s.Live i := by
  unfold Live insertKey
  dsimp only
  rw [Finset.mem_insert, or_assoc]

theorem pool_insertKey_self (s : KeyPool) (n : ℤ) (key : CPubKey) :
    (s.insertKey n key).pool n = some key := Function.update_self ..

theorem pool_insertKey_of_ne (s : KeyPool) {n i : ℤ} (key : CPubKey) (h : i ≠ n) :
    (s.insertKey n key).pool i = s.pool i := Function.update_of_ne h ..

/-- A new key is written under an index that does not live. -/
theorem Filed.insertKey (h : s.Filed loaded) {key : CPubKey} (hkey : key ∉ s.keys) (hne : key ≠ [])
    {n : ℤ} (hn : 1 ≤ n) (hlive : ¬ s.Live n) :
    ((s.withKey key).insertKey n key).Filed loaded := by
  have hother : ∀ i, s.Live i → i ≠ n := fun i hi hin ↦ hlive (hin ▸ hi)
  have hnew : ∀ i, s.Live i → s.pool i ≠ some key := by
    intro i hi hik
    obtain ⟨k, hk, hpool, -⟩ := h.record i hi
    rw [hpool] at hik
    cases hik
    exact hkey hk
  have hkept : ∀ k, .kept k ∈ KeyEvent.wrote n key :: s.events → .kept k ∈ s.events :=
    fun k hk ↦ (List.mem_cons.mp hk).resolve_left nofun
  generalize hs' : (s.withKey key).insertKey n key = s'
  have hdefault : s'.vchDefaultKey = s.vchDefaultKey := hs' ▸ rfl
  have hkeys : s'.keys = key :: s.keys := hs' ▸ rfl
  have hevents : s'.events = .wrote n key :: s.events := hs' ▸ rfl
  have hself : s'.pool n = some key := hs' ▸ pool_insertKey_self _ n key
  have hpool : ∀ i, s.Live i → s'.pool i = s.pool i := fun i hi ↦
    hs' ▸ pool_insertKey_of_ne _ key (hother i hi)
  have hlive' : ∀ i, s'.Live i → i = n ∨ s.Live i := fun i hi ↦
    (live_insertKey (s.withKey key) n key).mp (hs' ▸ hi)
  constructor
  case pos =>
    intro i hi
    rcases hlive' i hi with rfl | hi
    · exact hn
    · exact h.pos i hi
  case record =>
    rw [hkeys, hevents]
    intro i hi
    rcases hlive' i hi with rfl | hi
    · refine ⟨key, List.mem_cons_self, hself, Function.update_self .., hne, fun hk ↦ ?_⟩
      exact (h.kept key (hkept key hk)).elim hne hkey
    · obtain ⟨k, hk, hpk, hlast, hknil, hkkept⟩ := h.record i hi
      refine ⟨k, List.mem_cons_of_mem _ hk, (hpool i hi).trans hpk, ?_, hknil,
        fun hk ↦ hkkept (hkept k hk)⟩
      exact (Function.update_of_ne (hother i hi) ..).trans hlast
  case distinct =>
    intro i j hi hj hij
    rcases hlive' i hi with rfl | hi <;> rcases hlive' j hj with rfl | hj
    · rfl
    · rw [hself, hpool j hj] at hij
      exact absurd hij.symm (hnew j hj)
    · rw [hself, hpool i hi] at hij
      exact absurd hij (hnew i hi)
    · rw [hpool i hi, hpool j hj] at hij
      exact h.distinct i j hi hj hij
  case default =>
    rw [hdefault, hkeys]
    exact h.default.imp_right (List.mem_cons_of_mem key)
  case default_ne =>
    rw [hdefault]
    intro i hi
    rcases hlive' i hi with rfl | hi
    · rw [hself]
      rintro ⟨⟩
      exact h.default.elim hne hkey
    · rw [hpool i hi]
      exact h.default_ne i hi
  case kept =>
    rw [hevents, hkeys]
    exact fun k hk ↦ (h.kept k (hkept k hk)).imp_right (List.mem_cons_of_mem key)

theorem Sound.insertKey (h : Sound loaded s) {key : CPubKey} (hkey : key ∉ s.keys)
    (hne : key ≠ []) {n : ℤ} (hn : 1 ≤ n) (hlive : ¬ s.Live n) :
    Sound loaded ((s.withKey key).insertKey n key) where
  filed := h.filed.insertKey hkey hne hn hlive
  held := {
    notMem := fun r hr ↦ (Finset.mem_insert.mp hr).elim
      (fun hr ↦ hlive (.inr ⟨r, hr, by omega⟩)) (h.held.notMem r)
    inj := h.held.inj
    holds := fun r ↦ by
      refine (h.held.holds r).imp_right (Or.imp_right fun hr ↦ ⟨hr.1, ?_⟩)
      have hother : (s.reserveKeys r).nIndex ≠ n := fun heq ↦ hlive (.inr ⟨r, heq, heq ▸ hr.1⟩)
      exact (pool_insertKey_of_ne _ key hother).trans hr.2
    outstanding := h.held.outstanding }
  noReuse := ⟨fun hout ↦ hlive (.inr ((h.held.outstanding n).mp hout)), h.noReuse⟩
  noneAgain := h.noneAgain

/-! ## Taking an index and giving it back -/

theorem Held.setIdle (h : s.Held) {r : ℕ} (hr : (s.reserveKeys r).nIndex = -1) {k : CPubKey}
    (hk : k = [] ∨ k = s.vchDefaultKey) : (s.setReserveKey r ⟨-1, k⟩).Held := by
  have hindex : ∀ r', (Function.update s.reserveKeys r ⟨-1, k⟩ r').nIndex =
      (s.reserveKeys r').nIndex := by
    intro r'
    by_cases hr' : r' = r
    · rw [hr', Function.update_self, hr]
    · rw [Function.update_of_ne hr']
  constructor
  case notMem =>
    intro r'
    exact (hindex r').symm ▸ h.notMem r'
  case inj =>
    intro r₁ r₂ heq hne
    exact h.inj r₁ r₂ ((hindex r₁).symm.trans (heq.trans (hindex r₂))) (hindex r₁ ▸ hne)
  case holds =>
    intro r'
    change s.Holds (Function.update s.reserveKeys r ⟨-1, k⟩ r')
    by_cases hr' : r' = r
    · rw [hr', Function.update_self]
      exact hk.imp_right .inl
    · rw [Function.update_of_ne hr']
      exact h.holds r'
  case outstanding =>
    intro i
    exact (h.outstanding i).trans (exists_congr fun r' ↦ by rw [setReserveKey, hindex r'])

theorem Held.take (h : s.Held) {r : ℕ} (hr : (s.reserveKeys r).nIndex = -1) {n : ℤ}
    (hn : n ∈ s.setKeyPool) (hneg : n ≠ -1) {k : CPubKey} (hk : s.Holds ⟨n, k⟩) :
    (((s.takeIndex n).setReserveKey r ⟨n, k⟩).happened (.reserved n)).Held := by
  have hself : Function.update s.reserveKeys r ⟨n, k⟩ r = ⟨n, k⟩ := Function.update_self ..
  have hother : ∀ {r'}, r' ≠ r → Function.update s.reserveKeys r ⟨n, k⟩ r' = s.reserveKeys r' :=
    fun hr' ↦ Function.update_of_ne hr' ..
  have hapart : ∀ r', (s.reserveKeys r').nIndex ≠ n := fun r' hr' ↦ h.notMem r' (hr' ▸ hn)
  constructor
  case notMem =>
    intro r'
    change (Function.update s.reserveKeys r ⟨n, k⟩ r').nIndex ∉ s.setKeyPool.erase n
    by_cases hr' : r' = r
    · rw [hr', hself]
      exact Finset.notMem_erase n _
    · rw [hother hr']
      exact fun hmem ↦ h.notMem r' (Finset.mem_of_mem_erase hmem)
  case inj =>
    intro r₁ r₂
    change (Function.update s.reserveKeys r ⟨n, k⟩ r₁).nIndex =
      (Function.update s.reserveKeys r ⟨n, k⟩ r₂).nIndex →
        (Function.update s.reserveKeys r ⟨n, k⟩ r₁).nIndex ≠ -1 → r₁ = r₂
    by_cases h₁ : r₁ = r <;> by_cases h₂ : r₂ = r
    · exact fun _ _ ↦ h₁.trans h₂.symm
    · rw [h₁, hself, hother h₂]
      exact fun heq _ ↦ absurd heq.symm (hapart r₂)
    · rw [h₂, hself, hother h₁]
      exact fun heq _ ↦ absurd heq (hapart r₁)
    · rw [hother h₁, hother h₂]
      exact h.inj r₁ r₂
  case holds =>
    intro r'
    change s.Holds (Function.update s.reserveKeys r ⟨n, k⟩ r')
    by_cases hr' : r' = r
    · rw [hr', hself]
      exact hk
    · rw [hother hr']
      exact h.holds r'
  case outstanding =>
    intro i
    change i = n ∨ Outstanding s.events i ↔
      ∃ r', (Function.update s.reserveKeys r ⟨n, k⟩ r').nIndex = i ∧ i ≠ -1
    rw [h.outstanding i]
    constructor
    · rintro (rfl | ⟨r', hr', hi⟩)
      · exact ⟨r, congrArg CReserveKey.nIndex hself, hneg⟩
      · have hne : r' ≠ r := by
          rintro rfl
          exact hi (hr'.symm.trans hr)
        exact ⟨r', (congrArg CReserveKey.nIndex (hother hne)).trans hr', hi⟩
    · rintro ⟨r', hr', hi⟩
      by_cases hrr : r' = r
      · rw [hrr, hself] at hr'
        exact .inl hr'.symm
      · rw [hother hrr] at hr'
        exact .inr ⟨r', hr', hi⟩

/-- The object `r` gives its index away. -/
theorem Held.release (h : s.Held) {r : ℕ} (hr : (s.reserveKeys r).nIndex ≠ -1)
    (hreserve : s'.reserveKeys = Function.update s.reserveKeys r .empty)
    (hset : ∀ i ∈ s'.setKeyPool, i ∈ s.setKeyPool ∨ i = (s.reserveKeys r).nIndex)
    (hpos : ∀ i ∈ s'.setKeyPool, i ≠ -1)
    (hpool : ∀ i, i ≠ (s.reserveKeys r).nIndex → s'.pool i = s.pool i)
    (hdefault : s'.vchDefaultKey = s.vchDefaultKey)
    (hout : ∀ i, Outstanding s'.events i ↔
      i ≠ (s.reserveKeys r).nIndex ∧ Outstanding s.events i) : s'.Held := by
  have hself : s'.reserveKeys r = .empty := by rw [hreserve, Function.update_self]
  have hother : ∀ {r'}, r' ≠ r → s'.reserveKeys r' = s.reserveKeys r' := fun hr' ↦ by
    rw [hreserve, Function.update_of_ne hr']
  have hapart : ∀ {r'}, r' ≠ r → (s.reserveKeys r').nIndex ≠ (s.reserveKeys r).nIndex :=
    fun hr' heq ↦ hr' (h.inj r _ heq.symm hr).symm
  constructor
  case notMem =>
    intro r' hmem
    by_cases hr' : r' = r
    · rw [hr', hself] at hmem
      exact hpos _ hmem rfl
    · rw [hother hr'] at hmem
      exact (hset _ hmem).elim (h.notMem r') (hapart hr')
  case inj =>
    intro r₁ r₂ heq hne
    by_cases h₁ : r₁ = r
    · rw [h₁, hself] at hne
      exact absurd rfl hne
    · by_cases h₂ : r₂ = r
      · rw [heq, h₂, hself] at hne
        exact absurd rfl hne
      · rw [hother h₁, hother h₂] at heq
        rw [hother h₁] at hne
        exact h.inj r₁ r₂ heq hne
  case holds =>
    intro r'
    by_cases hr' : r' = r
    · rw [hr', hself]
      exact .inl rfl
    · rw [hother hr', Holds, hdefault]
      exact (h.holds r').imp_right (Or.imp_right fun hk ↦
        ⟨hk.1, (hpool _ (hapart hr')).trans hk.2⟩)
  case outstanding =>
    intro i
    rw [hout, h.outstanding]
    constructor
    · rintro ⟨hi, r', rfl, hne⟩
      have hr' : r' ≠ r := fun heq ↦ hi (heq ▸ rfl)
      exact ⟨r', by rw [hother hr'], hne⟩
    · rintro ⟨r', rfl, hne⟩
      have hr' : r' ≠ r := by
        rintro rfl
        rw [hself] at hne
        exact hne rfl
      rw [hother hr'] at hne ⊢
      exact ⟨hapart hr', r', rfl, hne⟩

/-! ## Operations -/

theorem keepIndex_eq (d : WalletDB) (n : ℤ) (s : KeyPool) : ∃ pool,
    s.keepIndex d n = { s with pool := pool } ∧ ∀ i, i ≠ n → pool i = s.pool i := by
  unfold keepIndex
  split
  · exact ⟨_, rfl, fun i hi ↦ Function.update_of_ne hi ..⟩
  · exact ⟨s.pool, rfl, fun _ _ ↦ rfl⟩

theorem Sound.setIdle (h : Sound loaded s) {r : ℕ} (hr : (s.reserveKeys r).nIndex = -1)
    {k : CPubKey} (hk : k = [] ∨ k = s.vchDefaultKey) :
    Sound loaded (s.setReserveKey r ⟨-1, k⟩) where
  held := h.held.setIdle hr hk
  filed := by
    refine h.filed.mono (fun i hi ↦ hi.imp_right ?_) (fun _ _ ↦ rfl) rfl rfl rfl fun _ ↦ .inl
    exact fun hout ↦ (h.held.outstanding i).mp (((h.held.setIdle hr hk).outstanding i).mpr hout)
  noReuse := h.noReuse
  noneAgain := h.noneAgain

theorem Sound.keepKey (h : Sound loaded s) (d : WalletDB) (r : ℕ) :
    Sound loaded (s.keepKey d r) := by
  unfold KeyPool.keepKey
  by_cases hr : (s.reserveKeys r).nIndex = -1
  · rw [if_pos hr]
    exact h.setIdle hr (.inl rfl)
  · obtain ⟨pool, hkeep, hpool⟩ := keepIndex_eq d (s.reserveKeys r).nIndex s
    rw [if_neg hr, hkeep]
    generalize hs' : setReserveKey r .empty _ = s'
    have hset : s'.setKeyPool = s.setKeyPool := hs' ▸ rfl
    have hpool' : ∀ i, i ≠ (s.reserveKeys r).nIndex → s'.pool i = s.pool i := hs' ▸ hpool
    have hevents : s'.events = .kept (s.reserveKeys r).vchPubKey ::
      .released (s.reserveKeys r).nIndex :: s.events := hs' ▸ rfl
    have hheld : s'.Held := by
      refine h.held.release hr (hs' ▸ rfl) (fun i hi ↦ .inl (hset ▸ hi)) ?_ hpool' (hs' ▸ rfl) ?_
      · intro i hi
        have := h.filed.pos i (.inl (hset ▸ hi))
        omega
      · rw [hevents]
        exact fun _ ↦ Iff.rfl
    have hlive : ∀ i, s'.Live i → s.Live i ∧ i ≠ (s.reserveKeys r).nIndex := by
      rintro i (hi | hi)
      · rw [hset] at hi
        exact ⟨.inl hi, fun heq ↦ h.held.notMem r (heq ▸ hi)⟩
      · have hout := (hheld.outstanding i).mpr hi
        rw [hevents] at hout
        exact ⟨.inr ((h.held.outstanding i).mp hout.2), hout.1⟩
    refine ⟨?_, hheld, hevents ▸ h.noReuse, hevents ▸ h.noneAgain⟩
    refine h.filed.mono (fun i hi ↦ (hlive i hi).1) (fun i hi ↦ hpool' i (hlive i hi).2)
      (hs' ▸ rfl) (hs' ▸ rfl) (hevents ▸ rfl) ?_
    rw [hevents]
    intro key hkey
    rcases List.mem_cons.mp hkey with heq | hmem
    · cases heq
      -- the key of the object is none that another index has
      rcases h.held.holds r with hnil | hdef | ⟨-, hrec⟩
      · exact .inr ⟨.inl hnil, fun _ _ _ ↦ hnil⟩
      · refine .inr ⟨hdef ▸ h.filed.default, fun i hi hk ↦ ?_⟩
        exact absurd (hdef ▸ hk) (h.filed.default_ne i (hlive i hi).1)
      · have hr' : s.Live (s.reserveKeys r).nIndex := .inr ⟨r, rfl, hr⟩
        obtain ⟨key, hmem, hk, -⟩ := h.filed.record _ hr'
        cases hrec.symm.trans hk
        refine .inr ⟨.inr hmem, fun i hi hik ↦ ?_⟩
        exact absurd (h.filed.distinct i _ (hlive i hi).1 hr' (hik.trans hk.symm)) (hlive i hi).2
    · exact .inl ((List.mem_cons.mp hmem).resolve_left nofun)

theorem Sound.returnKey (h : Sound loaded s) (r : ℕ) : Sound loaded (s.returnKey r) := by
  unfold KeyPool.returnKey
  by_cases hr : (s.reserveKeys r).nIndex = -1
  · rw [if_pos hr]
    exact h.setIdle hr (.inl rfl)
  · rw [if_neg hr]
    have hr' : s.Live (s.reserveKeys r).nIndex := .inr ⟨r, rfl, hr⟩
    generalize hs' : setReserveKey r .empty _ = s'
    have hset : s'.setKeyPool = insert (s.reserveKeys r).nIndex s.setKeyPool := hs' ▸ rfl
    have hevents : s'.events = .released (s.reserveKeys r).nIndex :: s.events := hs' ▸ rfl
    have hmem : ∀ i ∈ s'.setKeyPool, i ∈ s.setKeyPool ∨ i = (s.reserveKeys r).nIndex := by
      rw [hset]
      exact fun i hi ↦ (Finset.mem_insert.mp hi).symm
    have hheld : s'.Held := by
      refine h.held.release hr (hs' ▸ rfl) hmem ?_ (hs' ▸ fun _ _ ↦ rfl) (hs' ▸ rfl) ?_
      · intro i hi
        have : 1 ≤ i := (hmem i hi).elim (fun hi ↦ h.filed.pos i (.inl hi))
          fun heq ↦ heq ▸ h.filed.pos _ hr'
        omega
      · rw [hevents]
        exact fun _ ↦ Iff.rfl
    have hlive : ∀ i, s'.Live i → s.Live i := by
      rintro i (hi | hi)
      · exact (hmem i hi).elim .inl fun heq ↦ heq ▸ hr'
      · have hout := (hheld.outstanding i).mpr hi
        rw [hevents] at hout
        exact .inr ((h.held.outstanding i).mp hout.2)
    refine ⟨?_, hheld, hevents ▸ h.noReuse, hevents ▸ h.noneAgain⟩
    refine h.filed.mono hlive (hs' ▸ fun _ _ ↦ rfl) (hs' ▸ rfl) (hs' ▸ rfl) (hevents ▸ rfl) ?_
    rw [hevents]
    exact fun key hkey ↦ .inl ((List.mem_cons.mp hkey).resolve_left nofun)

theorem generateNewKey_cases (K : KeySource) (d : WalletDB) (s : KeyPool) :
    (∃ e s', (s' = s ∨ s' = s.withKey (K.newKey s.keys)) ∧ generateNewKey K d s = .error e s') ∨
    generateNewKey K d s = .ok (K.newKey s.keys) (s.withKey (K.newKey s.keys)) := by
  unfold generateNewKey
  by_cases hcrypt : (s.fUseCrypto && (s.isLocked || !d.encryptSecret (K.newKey s.keys))) = true
  · rw [addKeyPubKey, if_pos hcrypt]
    exact .inl ⟨_, s, .inl rfl, rfl⟩
  · rw [addKeyPubKey, if_neg hcrypt]
    cases !s.fFileBacked || d.writeKey (K.newKey s.keys) with
    | false => exact .inl ⟨_, _, .inr rfl, rfl⟩
    | true => exact .inr rfl

/-- A round of the loop: nothing, a key without a record, or a key and its record. -/
theorem newKey_cases (K : KeySource) (d : WalletDB) (s : KeyPool) :
    (∃ e s', (s' = s ∨ s' = s.withKey (K.newKey s.keys)) ∧
      (generateNewKey K d >>= writePool d) s = .error e s') ∨
    (generateNewKey K d >>= writePool d) s =
      .ok () ((s.withKey (K.newKey s.keys)).insertKey s.nEnd (K.newKey s.keys)) := by
  rcases generateNewKey_cases K d s with ⟨e, s', hs', hgen⟩ | hgen
  · exact .inl ⟨e, s', hs', Exec.bind_of_error hgen _⟩
  · rw [Exec.bind_of_ok hgen, writePool]
    split
    · exact .inr rfl
    · exact .inl ⟨_, _, .inr rfl, rfl⟩

/-- The loop counts on from an index that no object has. -/
theorem Sound.topUpLoop (K : KeySource) (d : WalletDB) (nSize n : ℕ) :
    ∀ {s : KeyPool}, Sound loaded s →
      (∀ r, ¬ (s.nEnd ≤ (s.reserveKeys r).nIndex ∧ (s.reserveKeys r).nIndex < s.nEnd + n)) →
        Sound loaded (Exec.final (topUpLoop K d nSize n s)) := by
  induction n with
  | zero => exact fun h _ ↦ h
  | succ n ih =>
    intro s h hfree
    unfold KeyPool.topUpLoop
    split
    · rcases newKey_cases K d s with ⟨e, s', rfl | rfl, hnew⟩ | hnew
      · rw [Exec.bind_of_error hnew]
        exact h
      · rw [Exec.bind_of_error hnew]
        exact h.addKey _
      · rw [Exec.bind_of_ok hnew]
        have hnEnd : 1 ≤ s.nEnd := one_le_nEnd fun i hi ↦ h.filed.pos i (.inl hi)
        have hlive : ¬ s.Live s.nEnd := by
          rintro (hmem | ⟨r, hr, -⟩)
          · exact s.nEnd_notMem hmem
          · exact hfree r ⟨hr.ge, by omega⟩
        refine ih (h.insertKey (K.newKey_notMem _) (K.newKey_ne_nil _) hnEnd hlive) fun r hr ↦ ?_
        have hnext : ((s.withKey (K.newKey s.keys)).insertKey s.nEnd (K.newKey s.keys)).nEnd =
          s.nEnd + 1 := nEnd_insertKey (s.withKey (K.newKey s.keys)) _
        rw [hnext] at hr
        have hr' : s.nEnd + 1 ≤ (s.reserveKeys r).nIndex ∧
          (s.reserveKeys r).nIndex < s.nEnd + 1 + n := hr
        exact hfree r ⟨by omega, by omega⟩
    · exact h

theorem Sound.topUpKeyPool (h : Sound loaded s) (K : KeySource) {keypool : ℤ} (d : WalletDB)
    {nSize : ℕ} (hfree : s.isLocked = false → ¬ s.Collides (topUpSize keypool nSize)) :
    Sound loaded (Exec.final (KeyPool.topUpKeyPool K keypool d nSize s)) := by
  unfold KeyPool.topUpKeyPool
  split
  · exact h
  · rename_i hlocked
    have hloop := h.topUpLoop K d (topUpSize keypool nSize)
      (topUpSize keypool nSize - s.setKeyPool.card)
      fun r hr ↦ hfree (eq_false_of_ne_true hlocked) ⟨r, hr⟩
    cases hx : KeyPool.topUpLoop K d (topUpSize keypool nSize)
        (topUpSize keypool nSize - s.setKeyPool.card) s with
    | ok u s' =>
      rw [hx] at hloop
      rw [Exec.bind_of_ok hx]
      exact hloop
    | error e s' =>
      rw [hx] at hloop
      rw [Exec.bind_of_error hx]
      exact hloop

/-! ### Keys that are taken -/

/-- New keys leave the objects alone. -/
instance : Exec.IsFrame fun s s' : KeyPool ↦ s'.reserveKeys = s.reserveKeys where
  refl _ := rfl
  trans h h' := h'.trans h

theorem keeps_topUpLoop (K : KeySource) (d : WalletDB) (nSize n : ℕ) :
    Exec.Keeps (fun s s' : KeyPool ↦ s'.reserveKeys = s.reserveKeys) (topUpLoop K d nSize n) := by
  induction n with
  | zero => exact Exec.Keeps.pure ()
  | succ n ih =>
    have hround : Exec.Keeps (fun s s' : KeyPool ↦ s'.reserveKeys = s.reserveKeys)
        (KeyPool.generateNewKey K d >>= writePool d) := by
      intro s
      rcases newKey_cases K d s with ⟨e, s', rfl | rfl, hnew⟩ | hnew <;> rw [hnew] <;> rfl
    intro s
    unfold topUpLoop
    split
    · exact hround.bind (fun _ ↦ ih) s
    · rfl

theorem reserveKeys_topUpKeyPool (K : KeySource) (keypool : ℤ) (d : WalletDB) (nSize : ℕ)
    (s : KeyPool) :
    (Exec.final (KeyPool.topUpKeyPool K keypool d nSize s)).reserveKeys = s.reserveKeys := by
  unfold KeyPool.topUpKeyPool
  split
  · rfl
  · exact (keeps_topUpLoop K d _ _).bind (fun _ ↦ Exec.Keeps.pure true) s

/-- What `ReserveKeyFromKeyPool` does after the set is filled: nothing, or it takes an index. -/
theorem reserve_cases (K : KeySource) (keypool : ℤ) (d : WalletDB) (s : KeyPool) :
    (∃ result, (result = .ok [] ∨ ∃ e, result = .error e) ∧
      s.reserveKeyFromKeyPool K keypool d =
        (Exec.final (KeyPool.topUpKeyPool K keypool d 0 s), -1, result)) ∨
    ∃ s₁ n, s₁ = Exec.final (KeyPool.topUpKeyPool K keypool d 0 s) ∧ n ∈ s₁.setKeyPool ∧
      s.reserveKeyFromKeyPool K keypool d = (s₁.takeIndex n, n, readPool d n (s₁.takeIndex n)) := by
  unfold reserveKeyFromKeyPool
  cases KeyPool.topUpKeyPool K keypool d 0 s with
  | error e s₁ => exact .inl ⟨_, .inr ⟨e, rfl⟩, rfl⟩
  | ok u s₁ =>
    dsimp only
    split
    · exact .inl ⟨_, .inl rfl, rfl⟩
    · rename_i n hn
      exact .inr ⟨s₁, n, rfl, Finset.mem_of_min hn, rfl⟩

theorem readPool_eq_ok {d : WalletDB} {n : ℤ} {key : CPubKey} (h : readPool d n s = .ok key) :
    s.pool n = some key := by
  unfold readPool at h
  split at h
  · cases h
  · rename_i key' hread
    split at h
    · cases h
    · split at h
      · cases h
      · cases h
        split at hread
        · exact hread
        · cases hread

theorem Sound.take (h : Sound loaded s) {r : ℕ} (hr : (s.reserveKeys r).nIndex = -1) {n : ℤ}
    (hn : n ∈ s.setKeyPool) {k : CPubKey} (hk : s.Holds ⟨n, k⟩) :
    Sound loaded (((s.takeIndex n).setReserveKey r ⟨n, k⟩).happened (.reserved n)) := by
  have hpos := h.filed.pos n (.inl hn)
  have hheld := h.held.take hr hn (by omega) hk
  refine ⟨?_, hheld, h.noReuse, h.noneAgain⟩
  refine h.filed.mono ?_ (fun _ _ ↦ rfl) rfl rfl rfl fun key hkey ↦
    .inl ((List.mem_cons.mp hkey).resolve_left nofun)
  rintro i (hi | hi)
  · exact .inl (Finset.mem_of_mem_erase hi)
  · rcases (hheld.outstanding i).mpr hi with rfl | hout
    · exact .inl hn
    · exact .inr ((h.held.outstanding i).mp hout)

/-- A key that lives is handed out. -/
theorem Sound.handOut (h : Sound loaded s) {key : CPubKey} (hkey : .kept key ∉ s.events) :
    Sound loaded (s.happened (.handedOut key)) where
  filed := h.filed.mono (fun _ ↦ id) (fun _ _ ↦ rfl) rfl rfl rfl fun _ hk ↦
    .inl ((List.mem_cons.mp hk).resolve_left nofun)
  held := ⟨h.held.notMem, h.held.inj, h.held.holds, h.held.outstanding⟩
  noReuse := h.noReuse
  noneAgain := ⟨hkey, h.noneAgain⟩

theorem Sound.getReservedKey (h : Sound loaded s) (K : KeySource) {keypool : ℤ} (d : WalletDB)
    {r : ℕ} (hfree : (s.reserveKeys r).nIndex = -1 → s.isLocked = false →
      ¬ s.Collides (topUpSize keypool 0)) :
    Sound loaded (Exec.final (KeyPool.getReservedKey K keypool d r s)) := by
  unfold KeyPool.getReservedKey
  by_cases hr : (s.reserveKeys r).nIndex = -1
  · rw [if_pos hr]
    have h₁ := h.topUpKeyPool K d (hfree hr)
    have hr₁ := congrFun (reserveKeys_topUpKeyPool K keypool d 0 s) r
    rcases reserve_cases K keypool d s with ⟨_, rfl | ⟨e, rfl⟩, hres⟩ | ⟨s₁, n, rfl, hn, hres⟩
    · rw [hres]
      dsimp only
      rw [if_pos rfl]
      split
      · exact h₁
      · exact h₁.setIdle (hr₁ ▸ hr) (.inr rfl)
    · rw [hres]
      dsimp only
      rw [if_pos rfl]
      exact h₁
    · generalize Exec.final (KeyPool.topUpKeyPool K keypool d 0 s) = s₁ at *
      rw [hres]
      have hn₁ : n ≠ -1 := by
        have := h₁.filed.pos n (.inl hn)
        omega
      cases hread : readPool d n (s₁.takeIndex n) with
      | error e =>
        dsimp only
        rw [if_neg hn₁]
        refine h₁.take (hr₁ ▸ hr) hn ?_
        rcases h₁.held.holds r with hk | hk | hk
        · exact .inl hk
        · exact .inr (.inl hk)
        · exact absurd (hr₁ ▸ hr) hk.1
      | ok key =>
        dsimp only
        rw [if_neg hn₁]
        have hpool : s₁.pool n = some key := readPool_eq_ok hread
        refine (h₁.take (hr₁ ▸ hr) hn (.inr (.inr ⟨hn₁, hpool⟩))).handOut fun hk ↦ ?_
        obtain ⟨key', -, hpool', -, -, hnot⟩ := h₁.filed.record n (.inl hn)
        cases hpool.symm.trans hpool'
        exact hnot ((List.mem_cons.mp hk).resolve_left nofun)
  · rw [if_neg hr]
    split <;> exact h

/-- An index leaves the set for good. -/
theorem Sound.drop (h : Sound loaded s) {n : ℤ} (hn : n ∈ s.setKeyPool) :
    Sound loaded (s.takeIndex n) ∧ ¬ (s.takeIndex n).Live n := by
  have hlive : ∀ i, (s.takeIndex n).Live i → s.Live i := fun i hi ↦
    hi.imp_left Finset.mem_of_mem_erase
  refine ⟨⟨h.filed.mono hlive (fun _ _ ↦ rfl) rfl rfl rfl fun _ ↦ .inl, ?_, h.noReuse,
    h.noneAgain⟩, ?_⟩
  · refine ⟨fun r hr ↦ h.held.notMem r (Finset.mem_of_mem_erase hr), h.held.inj, h.held.holds,
      h.held.outstanding⟩
  · rintro (hi | ⟨r, hr, -⟩)
    · exact Finset.notMem_erase n _ hi
    · exact h.held.notMem r (hr ▸ hn)

/-- The key of an index that does not live any more is kept. -/
theorem Sound.keep (h : Sound loaded s) (d : WalletDB) {n : ℤ} (hn : ¬ s.Live n) {key : CPubKey}
    (hkey : key ∈ s.keys) (hnew : ∀ i, s.Live i → s.pool i ≠ some key) :
    Sound loaded ((s.keepIndex d n).happened (.kept key)) := by
  obtain ⟨pool, hkeep, hpool⟩ := keepIndex_eq d n s
  rw [hkeep]
  have hother : ∀ i, s.Live i → pool i = s.pool i := fun i hi ↦
    hpool i fun heq ↦ hn (heq ▸ hi)
  refine ⟨h.filed.mono (fun _ ↦ id) hother rfl rfl rfl fun k hk ↦ ?_, ?_, h.noReuse, h.noneAgain⟩
  · rcases List.mem_cons.mp hk with heq | hk
    · cases heq
      exact .inr ⟨.inr hkey, fun i hi hik ↦ absurd hik (hnew i hi)⟩
    · exact .inl hk
  · refine ⟨h.held.notMem, h.held.inj, fun r ↦ ?_, h.held.outstanding⟩
    exact (h.held.holds r).imp_right (Or.imp_right fun hr ↦
      ⟨hr.1, (hother _ (.inr ⟨r, rfl, hr.1⟩)).trans hr.2⟩)

theorem Sound.getKeyFromPool (h : Sound loaded s) (K : KeySource) {keypool : ℤ} (d : WalletDB)
    (hfree : s.isLocked = false → ¬ s.Collides (topUpSize keypool 0)) :
    Sound loaded (Exec.final (KeyPool.getKeyFromPool K keypool d s)) := by
  unfold KeyPool.getKeyFromPool
  have h₁ := h.topUpKeyPool K d hfree
  rcases reserve_cases K keypool d s with ⟨_, rfl | ⟨e, rfl⟩, hres⟩ | ⟨s₁, n, rfl, hn, hres⟩
  · generalize Exec.final (KeyPool.topUpKeyPool K keypool d 0 s) = s₁ at *
    rw [hres]
    dsimp only
    rw [if_pos rfl]
    split
    · exact h₁
    · rcases generateNewKey_cases K d s₁ with ⟨e, s', rfl | rfl, hgen⟩ | hgen
      · rw [Exec.bind_of_error hgen]
        exact h₁
      · rw [Exec.bind_of_error hgen]
        exact h₁.addKey _
      · rw [Exec.bind_of_ok hgen]
        refine (h₁.addKey _).handOut fun hk ↦ ?_
        exact (h₁.filed.kept _ hk).elim (K.newKey_ne_nil _) (K.newKey_notMem _)
  · rw [hres]
    exact h₁
  · generalize Exec.final (KeyPool.topUpKeyPool K keypool d 0 s) = s₁ at *
    rw [hres]
    have hn₁ : n ≠ -1 := by
      have := h₁.filed.pos n (.inl hn)
      omega
    obtain ⟨hdrop, hdead⟩ := h₁.drop hn
    cases hread : readPool d n (s₁.takeIndex n) with
    | error e => exact hdrop
    | ok key =>
      dsimp only
      rw [if_neg hn₁]
      have hpool : s₁.pool n = some key := readPool_eq_ok hread
      obtain ⟨key', hmem, hpool', -, -, hnot⟩ := h₁.filed.record n (.inl hn)
      cases hpool.symm.trans hpool'
      refine (hdrop.handOut hnot).keep d hdead hmem fun i hi hik ↦ hdead ?_
      have hi' : s₁.Live i := hi.imp_left Finset.mem_of_mem_erase
      exact h₁.filed.distinct i n hi' (.inl hn) (hik.trans hpool.symm) ▸ hi

end

/-! ## Runs -/

/-- The size up to which an operation fills the set. -/
def fills (keypool : ℤ) (s : KeyPool) : KeyOp → Option ℕ
  | .topUpKeyPool nSize => if s.isLocked then none else some (topUpSize keypool nSize)
  | .getReservedKey r =>
    if s.isLocked ∨ (s.reserveKeys r).nIndex ≠ -1 then none else some (topUpSize keypool 0)
  | .getKeyFromPool => if s.isLocked then none else some (topUpSize keypool 0)
  | .keepKey _ | .returnKey _ | .lock | .unlock _ => none

/-- The operation does not count on into an index that is reserved. -/
def Spares (keypool : ℤ) (s : KeyPool) (op : KeyOp) : Prop :=
  ∀ size ∈ s.fills keypool op, ¬ s.Collides size

/-- A wallet as it is loaded, before any key is reserved. -/
structure Loaded (s : KeyPool) : Prop where
  events : s.events = []
  idle : ∀ r, s.reserveKeys r = .empty
  record : ∀ i ∈ s.setKeyPool, 1 ≤ i ∧ ∃ key ∈ s.keys, s.pool i = some key ∧ key ≠ []
  distinct : ∀ i ∈ s.setKeyPool, ∀ j ∈ s.setKeyPool, s.pool i = s.pool j → i = j
  default : s.vchDefaultKey = [] ∨ s.vchDefaultKey ∈ s.keys
  default_ne : ∀ i ∈ s.setKeyPool, s.pool i ≠ some s.vchDefaultKey

/-- The runs from a wallet in which every operation spares the reserved indices. -/
inductive Run (K : KeySource) (keypool : ℤ) (start : KeyPool) : KeyPool → Prop
  | start : Run K keypool start start
  | step {s : KeyPool} (h : Run K keypool start s) (d : WalletDB) (op : KeyOp)
      (hop : s.Spares keypool op) : Run K keypool start (s.step K keypool d op)

theorem Loaded.startsSound {s : KeyPool} (h : Loaded s) : Sound s.pool s := by
  have hlive : ∀ i, s.Live i → i ∈ s.setKeyPool := by
    rintro i (hi | ⟨r, hr, hne⟩)
    · exact hi
    · rw [h.idle] at hr
      exact absurd hr.symm hne
  have hnone : ∀ e, e ∉ s.events := fun e he ↦ List.not_mem_nil (h.events ▸ he)
  refine ⟨⟨?_, ?_, ?_, h.default, ?_, ?_⟩, ⟨?_, ?_, ?_, ?_⟩, ?_, ?_⟩
  · exact fun i hi ↦ (h.record i (hlive i hi)).1
  · intro i hi
    obtain ⟨-, key, hkey, hpool, hne⟩ := h.record i (hlive i hi)
    exact ⟨key, hkey, hpool, by rw [h.events]; exact hpool, hne, hnone _⟩
  · exact fun i j hi hj ↦ h.distinct i (hlive i hi) j (hlive j hj)
  · exact fun i hi ↦ h.default_ne i (hlive i hi)
  · exact fun key hk ↦ absurd hk (hnone _)
  · intro r hr
    rw [h.idle] at hr
    have := (h.record _ hr).1
    exact absurd this (by decide)
  · intro r r' _ hne
    rw [h.idle] at hne
    exact absurd rfl hne
  · intro r
    rw [h.idle]
    exact .inl rfl
  · intro i
    rw [h.events]
    constructor
    · nofun
    · rintro ⟨r, hr, hne⟩
      rw [h.idle] at hr
      exact absurd hr.symm hne
  · rw [h.events]
    trivial
  · rw [h.events]
    trivial

theorem poolPart_lock (s : KeyPool) : s.lock.poolPart = s.poolPart := by
  unfold lock
  split <;> rfl

theorem poolPart_unlock (found : Option CKeyingMaterial) (s : KeyPool) :
    (s.unlock found).poolPart = s.poolPart := by
  unfold unlock
  split
  · rfl
  · split <;> rfl

theorem Sound.step {loaded : ℤ → Option CPubKey} {s : KeyPool} (h : Sound loaded s) (K : KeySource)
    {keypool : ℤ} (d : WalletDB) {op : KeyOp} (hop : s.Spares keypool op) :
    Sound loaded (s.step K keypool d op) := by
  cases op with
  | topUpKeyPool nSize => exact h.topUpKeyPool K d fun hl ↦ hop _ (by simp [fills, hl])
  | getReservedKey r => exact h.getReservedKey K d fun hr hl ↦ hop _ (by simp [fills, hl, hr])
  | keepKey r => exact h.keepKey d r
  | returnKey r => exact h.returnKey r
  | getKeyFromPool => exact h.getKeyFromPool K d fun hl ↦ hop _ (by simp [fills, hl])
  | lock => exact h.of_same s.poolPart_lock
  | unlock found => exact h.of_same (s.poolPart_unlock found)

theorem Run.inv {K : KeySource} {keypool : ℤ} {start s : KeyPool} (h : Run K keypool start s)
    (hstart : Loaded start) : Sound start.pool s := by
  induction h with
  | start => exact hstart.startsSound
  | step _ d op hop ih => exact ih.step K d hop

/-- **Keys of the pool.**  In every run whose operations spare the reserved indices, every index of
the set has the record that was written for it, no index was written anew while it was reserved, and
no key was handed out after it was kept. -/
theorem Run.sound {K : KeySource} {keypool : ℤ} {start s : KeyPool} (h : Run K keypool start s)
    (hstart : Loaded start) :
    (∀ i ∈ s.setKeyPool, ∃ key, s.pool i = some key ∧
      lastWritten start.pool s.events i = some key) ∧
    NoReuse s.events ∧ NoneAgain s.events := by
  have hs := h.inv hstart
  refine ⟨fun i hi ↦ ?_, hs.noReuse, hs.noneAgain⟩
  obtain ⟨key, -, hpool, hlast, -⟩ := hs.filed.record i (.inl hi)
  exact ⟨key, hpool, hlast⟩

end KeyPool

/-! ## A wallet that is drained -/

namespace Sample

/-- Every new key is longer than the ones before. -/
def keySource : KeySource where
  newKey keys := List.replicate ((keys.map List.length).sum + 1) 2
  newKey_notMem keys h := by
    have hle := List.single_le_sum (fun _ _ ↦ Nat.zero_le _) _
      (List.mem_map_of_mem (f := List.length) h)
    rw [List.length_replicate] at hle
    omega
  newKey_ne_nil keys := nofun

/-- Every call of the database succeeds. -/
def walletDB : WalletDB where
  encryptSecret _ := true
  writeKey _ := true
  writePool _ := true
  readPool _ := true
  erasePool _ := true

/-- An encrypted wallet without keys, unlocked. -/
def wallet : KeyPool where
  fFileBacked := true
  fUseCrypto := true
  vMasterKey := [1]
  vchDefaultKey := []
  keys := []
  setKeyPool := ∅
  pool _ := none
  reserveKeys _ := .empty
  events := []

theorem loaded_wallet : wallet.Loaded where
  events := rfl
  idle _ := rfl
  record _ h := absurd h (Finset.notMem_empty _)
  distinct _ h := absurd h (Finset.notMem_empty _)
  default := .inl rfl
  default_ne _ h := absurd h (Finset.notMem_empty _)

/-- The wallet after some operations, with `-keypool=1`. -/
def operated (ops : List KeyOp) : KeyPool := ops.foldl (KeyPool.step keySource 1 walletDB) wallet

end Sample

namespace KeyPool

theorem Run.sound_sample : ∃ s, Run Sample.keySource 1 Sample.wallet s ∧ s.setKeyPool = {2} ∧
    ((∀ i ∈ s.setKeyPool, ∃ key, s.pool i = some key ∧
      lastWritten Sample.wallet.pool s.events i = some key) ∧
    NoReuse s.events ∧ NoneAgain s.events) := by
  have hfilled : Run Sample.keySource 1 Sample.wallet (Sample.operated [.topUpKeyPool 0]) := by
    refine .step .start Sample.walletDB (.topUpKeyPool 0) ?_
    rintro size - ⟨r, hle, -⟩
    have hneg : Sample.wallet.nEnd ≤ -1 := hle
    exact absurd hneg (by decide)
  have hlocked : Run Sample.keySource 1 Sample.wallet
      (Sample.operated [.topUpKeyPool 0, .lock]) :=
    .step hfilled Sample.walletDB .lock nofun
  have hrun : Run Sample.keySource 1 Sample.wallet
      (Sample.operated [.topUpKeyPool 0, .lock, .getReservedKey 0]) := by
    refine .step hlocked Sample.walletDB (.getReservedKey 0) ?_
    have hfills : fills 1 (Sample.operated [.topUpKeyPool 0, .lock]) (.getReservedKey 0) = none := by
      decide +kernel
    rw [Spares, hfills]
    nofun
  exact ⟨_, hrun, by decide +kernel, Run.sound hrun Sample.loaded_wallet⟩

/-- With `-keypool=1` both keys of a wallet are reserved while it is locked; then it is unlocked and
filled again. -/
def refilled : List KeyOp :=
  [.topUpKeyPool 0, .lock, .getReservedKey 0, .getReservedKey 1, .unlock (some [1]),
    .topUpKeyPool 0]

/-- Index 1 is written anew while it is reserved; and when the first object keeps its key, the index
stays in the set without a record. -/
theorem not_sound_of_refilled : Sample.wallet.Loaded ∧
    ¬ NoReuse (Sample.operated refilled).events ∧
    1 ∈ (Sample.operated (refilled ++ [.keepKey 0])).setKeyPool ∧
    (Sample.operated (refilled ++ [.keepKey 0])).pool 1 = none := by
  refine ⟨Sample.loaded_wallet, ?_, by decide +kernel, by decide +kernel⟩
  have hevents : (Sample.operated refilled).events = [.wrote 2 (List.replicate 8 2),
      .wrote 1 (List.replicate 4 2), .handedOut [2, 2], .reserved 2, .handedOut [2], .reserved 1,
      .wrote 2 [2, 2], .wrote 1 [2]] := by
    decide +kernel
  rw [hevents]
  exact fun h ↦ h.1 (.inl rfl)

end KeyPool

end Bws
