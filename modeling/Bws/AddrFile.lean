import Bws.AddrSerialize

/-!
# What a stream says of an address manager

`Unserialize` reads and places by turns.  Nothing that it reads depends on what it has placed, so
that a stream can be read first (`AddrFile.read`) and be placed afterwards (`CAddrMan.staged`).
-/

namespace Bws

/-- What `Unserialize` reads. -/
structure AddrFile where
  nKey : BitVec 256
  nNew : ℤ
  nTried : ℤ
  /-- the positions in the new table can be used -/
  fPlaced : Bool
  new : List Persisted
  tried : List Persisted
  /-- the numbers of entries, each with its bucket if there is one -/
  indexes : List (Option (Fin 1024) × ℤ)

/-! ## Reading -/

def readMany {α : Type} (F : Codec α) : ℕ → List UInt8 → Except Fault (List α × List UInt8)
  | 0, bytes => .ok ([], bytes)
  | k + 1, bytes => do
    let (a, bytes) ← read F bytes
    let (l, bytes) ← readMany F k bytes
    .ok (a :: l, bytes)

theorem readMany_succ_eq_ok {α : Type} {F : Codec α} {k : ℕ} {bytes rest : List UInt8}
    {l : List α} : readMany F (k + 1) bytes = .ok (l, rest) ↔ ∃ a bytes₁ l₁,
      read F bytes = .ok (a, bytes₁) ∧ readMany F k bytes₁ = .ok (l₁, rest) ∧ l = a :: l₁ := by
  rw [readMany]
  simp only [bind_eq_ok, Prod.exists, Except.ok.injEq, Prod.mk.injEq]
  constructor
  · rintro ⟨a, bytes₁, ha, l₁, _, hl₁, rfl, rfl⟩
    exact ⟨a, bytes₁, l₁, ha, hl₁, rfl⟩
  · rintro ⟨a, bytes₁, l₁, ha, hl₁, rfl⟩
    exact ⟨a, bytes₁, ha, l₁, rest, hl₁, rfl, rfl⟩

theorem length_readMany {α : Type} {F : Codec α} {k : ℕ} {bytes rest : List UInt8} {l : List α}
    (h : readMany F k bytes = .ok (l, rest)) : l.length = k := by
  induction k generalizing bytes l with
  | zero =>
    cases h
    rfl
  | succ k ih =>
    obtain ⟨a, bytes₁, l₁, -, hl₁, rfl⟩ := readMany_succ_eq_ok.mp h
    rw [List.length_cons, ih hl₁]

/-- The numbers of the entries in each of the buckets -/
def readLists : List (Option (Fin 1024)) → List UInt8 →
    Except Fault (List (Option (Fin 1024) × ℤ) × List UInt8)
  | [], bytes => .ok ([], bytes)
  | bucket :: buckets, bytes => do
    let (nSize, bytes) ← read Codec.int32 bytes
    let (l, bytes) ← readMany Codec.int32 nSize.toInt.toNat bytes
    let (indexes, bytes) ← readLists buckets bytes
    .ok (l.map (fun nIndex ↦ (bucket, nIndex.toInt)) ++ indexes, bytes)

theorem readLists_cons_eq_ok {bucket : Option (Fin 1024)} {buckets : List (Option (Fin 1024))}
    {bytes rest : List UInt8} {indexes : List (Option (Fin 1024) × ℤ)} :
    readLists (bucket :: buckets) bytes = .ok (indexes, rest) ↔ ∃ nSize bytes₁ l bytes₂ indexes₁,
      read Codec.int32 bytes = .ok (nSize, bytes₁) ∧
      readMany Codec.int32 nSize.toInt.toNat bytes₁ = .ok (l, bytes₂) ∧
      readLists buckets bytes₂ = .ok (indexes₁, rest) ∧
      indexes = l.map (fun nIndex ↦ (bucket, nIndex.toInt)) ++ indexes₁ := by
  rw [readLists]
  simp only [bind_eq_ok, Prod.exists, Except.ok.injEq, Prod.mk.injEq]
  constructor
  · rintro ⟨nSize, bytes₁, hsize, l, bytes₂, hl, indexes₁, _, hindexes₁, rfl, rfl⟩
    exact ⟨nSize, bytes₁, l, bytes₂, indexes₁, hsize, hl, hindexes₁, rfl⟩
  · rintro ⟨nSize, bytes₁, l, bytes₂, indexes₁, hsize, hl, hindexes₁, rfl⟩
    exact ⟨nSize, bytes₁, hsize, l, bytes₂, hl, indexes₁, rest, hindexes₁, rfl, rfl⟩

theorem mem_readLists {buckets : List (Option (Fin 1024))} {bytes rest : List UInt8}
    {indexes : List (Option (Fin 1024) × ℤ)} (h : readLists buckets bytes = .ok (indexes, rest)) :
    ∀ x ∈ indexes, x.1 ∈ buckets := by
  induction buckets generalizing bytes indexes with
  | nil =>
    cases h
    nofun
  | cons bucket buckets ih =>
    obtain ⟨nSize, bytes₁, l, bytes₂, indexes₁, -, -, hindexes₁, rfl⟩ := readLists_cons_eq_ok.mp h
    intro x hx
    rcases List.mem_append.mp hx with hx | hx
    · obtain ⟨nIndex, -, rfl⟩ := List.mem_map.mp hx
      exact List.mem_cons_self
    · exact List.mem_cons_of_mem _ (ih hindexes₁ x hx)

/-- Numbers are listed for buckets when the positions can be used, and only then. -/
theorem isSome_of_readLists {fPlaced : Bool} {k : ℕ} {bytes rest : List UInt8}
    {indexes : List (Option (Fin 1024) × ℤ)}
    (h : readLists (if fPlaced then (List.finRange 1024).map some else List.replicate k none)
      bytes = .ok (indexes, rest)) : ∀ x ∈ indexes, x.1.isSome = fPlaced := by
  intro x hx
  have hmem := mem_readLists h x hx
  cases fPlaced with
  | true =>
    obtain ⟨bucket, -, hx⟩ := List.mem_map.mp hmem
    rw [← hx]
    rfl
  | false =>
    rw [(List.mem_replicate.mp hmem).2]
    rfl

namespace AddrFile

def read (bytes : List UInt8) : Except Fault (AddrFile × List UInt8) := do
  let (nVersion, bytes) ← Bws.read (Codec.uint 1) bytes
  let (nKeySize, bytes) ← Bws.read (Codec.uint 1) bytes
  CAddrMan.assert (nKeySize = 32) "Incorrect keysize in addrman deserialization"
  let (nKey, bytes) ← Bws.read Codec.uint256 bytes
  let (nNew, bytes) ← Bws.read Codec.int32 bytes
  let (nTried, bytes) ← Bws.read Codec.int32 bytes
  let (nUBuckets, bytes) ← Bws.read Codec.int32 bytes
  let nUBuckets := if nVersion ≠ 0 then nUBuckets ^^^ (1 : Int32) <<< 30 else nUBuckets
  let fPlaced : Bool := nVersion = 1 ∧ nUBuckets = 1024
  let (new, bytes) ← readMany Persisted.codec nNew.toInt.toNat bytes
  let (tried, bytes) ← readMany Persisted.codec nTried.toInt.toNat bytes
  let (indexes, bytes) ← readLists (if fPlaced then (List.finRange 1024).map some else
    List.replicate nUBuckets.toInt.toNat none) bytes
  .ok (⟨nKey, nNew.toInt, nTried.toInt, fPlaced, new, tried, indexes⟩, bytes)

/-- As many entries as it says, and numbers are listed for buckets just when they can be used. -/
structure Wf (f : AddrFile) : Prop where
  new : f.new.length = f.nNew.toNat
  tried : f.tried.length = f.nTried.toNat
  indexes : ∀ x ∈ f.indexes, x.1.isSome = f.fPlaced

end AddrFile

namespace CAddrMan

variable (A : AddrParams)

/-! ## Placing -/

/-- The entry `n` of the new table has been read. -/
def loadOne (fPlaced : Bool) (n : ℤ) (s : CAddrMan) (r : Persisted) : CAddrMan :=
  let info := (s.mapInfo[n]?.getD CAddrInfo.blank).load r
  let s := s.enter n info
  if fPlaced then s
  else s.refer n (info.newSlot A s.nKey (info.getNewBucket A s.nKey info.source))

def loadNew (fPlaced : Bool) : ℤ → CAddrMan → List Persisted → CAddrMan
  | _, s, [] => s
  | n, s, r :: new => loadNew fPlaced (n + 1) (loadOne A fPlaced n s r) new

/-- The entry of a record of the tried table. -/
def triedInfo (r : Persisted) : CAddrInfo := { CAddrInfo.blank.load r with fInTried := true }

def loadTried : CAddrMan → List Persisted → ℤ → CAddrMan × ℤ
  | s, [], nLost => (s, nLost)
  | s, r :: tried, nLost =>
    let p := (triedInfo r).triedSlot A s.nKey
    if s.vvTried p = -1 then
      let s := { s.enter s.nIdCount (triedInfo r) with nIdCount := s.nIdCount + 1 }
      loadTried (s.setTried p (s.nIdCount - 1)) tried nLost
    else loadTried s tried (nLost + 1)

/-- A number of an entry has been read. -/
def loadIndex (s : CAddrMan) (x : Option (Fin 1024) × ℤ) : CAddrMan :=
  x.1.elim s fun bucket ↦ readIndex A s bucket x.2

/-- The header has been read. -/
def begun (s : CAddrMan) (f : AddrFile) : CAddrMan :=
  { s.clear with nKey := f.nKey, nNew := f.nNew, nTried := f.nTried }

/-- The new entries have been read. -/
def loadedNew (s : CAddrMan) (f : AddrFile) : CAddrMan :=
  { loadNew A f.fPlaced 0 (s.begun f) f.new with nIdCount := f.nNew }

/-- All entries have been read. -/
def loadedAll (s : CAddrMan) (f : AddrFile) : CAddrMan :=
  let r := loadTried A (loadedNew A s f) f.tried 0
  { r.1 with nTried := r.1.nTried - r.2 }

/-- The manager before the entries without references are pruned. -/
def staged (s : CAddrMan) (f : AddrFile) : CAddrMan :=
  f.indexes.foldl (loadIndex A) (loadedAll A s f)

variable {A}

theorem readNew_eq_ok {fPlaced : Bool} {k : ℕ} {n : ℤ} {s s' : CAddrMan} {bytes rest : List UInt8} :
    readNew A fPlaced k n s bytes = .ok (s', rest) ↔ ∃ new,
      readMany Persisted.codec k bytes = .ok (new, rest) ∧ s' = loadNew A fPlaced n s new := by
  induction k generalizing n s bytes with
  | zero =>
    rw [readNew, readMany]
    constructor
    · rintro ⟨⟩
      exact ⟨[], rfl, rfl⟩
    · rintro ⟨new, ⟨⟩, rfl⟩
      rfl
  | succ k ih =>
    simp only [readMany_succ_eq_ok]
    rw [readNew]
    simp only [bind_eq_ok, Prod.exists, ih]
    constructor
    · rintro ⟨r, bytes₁, hr, new, hnew, rfl⟩
      exact ⟨r :: new, ⟨r, bytes₁, new, hr, hnew, rfl⟩, rfl⟩
    · rintro ⟨_, ⟨r, bytes₁, new, hr, hnew, rfl⟩, rfl⟩
      exact ⟨r, bytes₁, hr, new, hnew, rfl⟩

theorem readTried_eq_ok {k : ℕ} {s : CAddrMan} {nLost : ℤ} {bytes : List UInt8}
    {r : CAddrMan × List UInt8 × ℤ} :
    readTried A k s bytes nLost = .ok r ↔ ∃ tried,
      readMany Persisted.codec k bytes = .ok (tried, r.2.1) ∧
        (r.1, r.2.2) = loadTried A s tried nLost := by
  induction k generalizing s bytes nLost with
  | zero =>
    rw [readTried, readMany]
    constructor
    · rintro ⟨⟩
      exact ⟨[], rfl, rfl⟩
    · rintro ⟨tried, ⟨⟩, h⟩
      obtain ⟨h₁, h₂⟩ := Prod.mk.inj h
      rw [← h₁, ← h₂]
  | succ k ih =>
    simp only [readMany_succ_eq_ok]
    rw [readTried]
    simp only [bind_eq_ok, Prod.exists]
    have hstep : ∀ (a : Persisted) (bytes₁ : List UInt8),
        (if s.vvTried (CAddrInfo.triedSlot A s.nKey (triedInfo a)) = -1 then
          readTried A k (({ s.enter s.nIdCount (triedInfo a) with
            nIdCount := s.nIdCount + 1 } : CAddrMan).setTried
              (CAddrInfo.triedSlot A s.nKey (triedInfo a)) (s.nIdCount + 1 - 1)) bytes₁ nLost
        else readTried A k s bytes₁ (nLost + 1)) = .ok r ↔
        ∃ tried, readMany Persisted.codec k bytes₁ = .ok (tried, r.2.1) ∧
          (r.1, r.2.2) = loadTried A s (a :: tried) nLost := by
      intro a bytes₁
      by_cases hp : s.vvTried (CAddrInfo.triedSlot A s.nKey (triedInfo a)) = -1
      · simp only [loadTried, if_pos hp]
        exact ih
      · simp only [loadTried, if_neg hp]
        exact ih
    constructor
    · rintro ⟨a, bytes₁, ha, h⟩
      obtain ⟨tried, htried, heq⟩ := (hstep a bytes₁).mp h
      exact ⟨a :: tried, ⟨a, bytes₁, tried, ha, htried, rfl⟩, heq⟩
    · rintro ⟨_, ⟨a, bytes₁, tried, ha, htried, rfl⟩, heq⟩
      exact ⟨a, bytes₁, ha, (hstep a bytes₁).mpr ⟨tried, htried, heq⟩⟩

theorem readIndexes_eq_ok {bucket : Option (Fin 1024)} {k : ℕ} {s s' : CAddrMan}
    {bytes rest : List UInt8} :
    readIndexes A bucket k s bytes = .ok (s', rest) ↔ ∃ l,
      readMany Codec.int32 k bytes = .ok (l, rest) ∧
      s' = (l.map fun nIndex ↦ (bucket, nIndex.toInt)).foldl (loadIndex A) s := by
  induction k generalizing s bytes with
  | zero =>
    rw [readIndexes, readMany]
    constructor
    · rintro ⟨⟩
      exact ⟨[], rfl, rfl⟩
    · rintro ⟨l, ⟨⟩, rfl⟩
      rfl
  | succ k ih =>
    simp only [readMany_succ_eq_ok]
    rw [readIndexes]
    simp only [bind_eq_ok, Prod.exists, ih]
    constructor
    · rintro ⟨nIndex, bytes₁, hindex, l, hl, rfl⟩
      exact ⟨nIndex :: l, ⟨nIndex, bytes₁, l, hindex, hl, rfl⟩, rfl⟩
    · rintro ⟨_, ⟨nIndex, bytes₁, l, hindex, hl, rfl⟩, rfl⟩
      exact ⟨nIndex, bytes₁, hindex, l, hl, rfl⟩

theorem readBuckets_eq_ok {buckets : List (Option (Fin 1024))} {s s' : CAddrMan}
    {bytes rest : List UInt8} :
    readBuckets A buckets s bytes = .ok (s', rest) ↔ ∃ indexes,
      readLists buckets bytes = .ok (indexes, rest) ∧ s' = indexes.foldl (loadIndex A) s := by
  induction buckets generalizing s bytes with
  | nil =>
    rw [readBuckets, readLists]
    constructor
    · rintro ⟨⟩
      exact ⟨[], rfl, rfl⟩
    · rintro ⟨indexes, ⟨⟩, rfl⟩
      rfl
  | cons bucket buckets ih =>
    simp only [readLists_cons_eq_ok]
    rw [readBuckets]
    simp only [bind_eq_ok, Prod.exists, readIndexes_eq_ok, ih]
    constructor
    · rintro ⟨nSize, bytes₁, hsize, _, bytes₂, ⟨l, hl, rfl⟩, indexes, hindexes, rfl⟩
      exact ⟨_, ⟨nSize, bytes₁, l, bytes₂, indexes, hsize, hl, hindexes, rfl⟩,
        List.foldl_append.symm⟩
    · rintro ⟨_, ⟨nSize, bytes₁, l, bytes₂, indexes, hsize, hl, hindexes, rfl⟩, rfl⟩
      exact ⟨nSize, bytes₁, hsize, _, bytes₂, ⟨l, hl, rfl⟩, indexes, hindexes, List.foldl_append⟩

/-- **Reading and placing come apart.** -/
theorem unserialize_eq_ok {s s' : CAddrMan} {bytes rest : List UInt8} :
    unserialize A s bytes = .ok (s', rest) ↔ ∃ f : AddrFile, AddrFile.read bytes = .ok (f, rest) ∧
      f.Wf ∧ prune (staged A s f).mapInfo.toList (staged A s f) = .ok s' := by
  rw [unserialize]
  simp only [AddrFile.read, bind_eq_ok, Prod.exists, assert_eq_ok]
  constructor
  · rintro ⟨nVersion, b₁, h₁, nKeySize, b₂, h₂, _, hsize, nKey, b₃, h₃, nNew, b₄, h₄, nTried, b₅,
      h₅, nUBuckets, b₆, h₆, s₁, b₇, hs₁, s₂, b₈, nLost, hs₂, s₃, b₉, hs₃, s₄, hprune, hs'⟩
    cases hs'
    obtain ⟨new, hnew, rfl⟩ := readNew_eq_ok.mp hs₁
    obtain ⟨tried, htried, heq⟩ := readTried_eq_ok.mp hs₂
    obtain ⟨indexes, hindexes, rfl⟩ := readBuckets_eq_ok.mp hs₃
    refine ⟨_, ⟨nVersion, b₁, h₁, nKeySize, b₂, h₂, (), hsize, nKey, b₃, h₃, nNew, b₄, h₄, nTried,
      b₅, h₅, nUBuckets, b₆, h₆, new, b₇, hnew, tried, b₈, htried, indexes, _, hindexes, rfl⟩,
      ⟨length_readMany hnew, length_readMany htried, isSome_of_readLists hindexes⟩, ?_⟩
    obtain ⟨heq₁, heq₂⟩ := Prod.mk.inj heq
    rw [staged, loadedAll, loadedNew, begun]
    dsimp only at heq₁ heq₂ ⊢
    rw [← heq₁, ← heq₂]
    exact hprune
  · rintro ⟨_, ⟨nVersion, b₁, h₁, nKeySize, b₂, h₂, _, hsize, nKey, b₃, h₃, nNew, b₄, h₄, nTried,
      b₅, h₅, nUBuckets, b₆, h₆, new, b₇, hnew, tried, b₈, htried, indexes, b₉, hindexes, hf⟩, -,
      hprune⟩
    cases hf
    exact ⟨nVersion, b₁, h₁, nKeySize, b₂, h₂, (), hsize, nKey, b₃, h₃, nNew, b₄, h₄, nTried, b₅,
      h₅, nUBuckets, b₆, h₆, _, b₇, readNew_eq_ok.mpr ⟨new, hnew, rfl⟩, _, b₈, _,
      readTried_eq_ok.mpr ⟨tried, htried, rfl⟩, _, _,
      readBuckets_eq_ok.mpr ⟨indexes, hindexes, rfl⟩, _, hprune, rfl⟩

end CAddrMan

end Bws
