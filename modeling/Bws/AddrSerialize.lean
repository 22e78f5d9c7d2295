import Bws.AddrCheck

/-!
# The address manager on disk

`Serialize` writes the entries without their ids, and for each bucket of the new table the numbers of the
entries in it; of the tried table it writes nothing.  `Unserialize` numbers the entries again, places the
tried ones by their hashes, and gives a new one the slots that it had, as far as they are free.
-/

namespace Bws

/-! ## Records -/

/-- `s >> x` -/
def read {α : Type} (F : Codec α) (bytes : List UInt8) : Except Fault (α × List UInt8) :=
  match F.get bytes with
  | none => .error (.thrown "CDataStream::read() : end of data")
  | some r => .ok r

theorem read_put {α : Type} {F : Codec α} {a : α} (h : F.Valid a) (rest : List UInt8) :
    read F (F.put a ++ rest) = .ok (a, rest) := by
  rw [read, F.get_put h]

def CLIENT_VERSION : Int32 := 1000000

/-- What is written of an entry -/
structure Persisted where
  service : CService
  nServices : UInt64
  nTime : UInt32
  source : CNetAddr
  nLastSuccess : Int64
  nAttempts : Int32
deriving DecidableEq

/-- The version that a record begins with is read and not used. -/
def Persisted.codec : Codec Persisted :=
  (Codec.int32.prod (Codec.uint32.prod (Codec.uint64.prod ((Codec.array 16).prod (Codec.uint16BE.prod
    ((Codec.array 16).prod (Codec.int64.prod Codec.int32))))))).imap
    (fun (_, nTime, nServices, ip, port, source, nLastSuccess, nAttempts) ↦
      ⟨⟨ip, port⟩, nServices, nTime, source, nLastSuccess, nAttempts⟩)
    fun r ↦ (CLIENT_VERSION, r.nTime, r.nServices, r.service.ip, r.service.port, r.source,
      r.nLastSuccess, r.nAttempts)

theorem Persisted.valid_codec (r : Persisted) : Persisted.codec.Valid r :=
  ⟨⟨Codec.valid_int32 _, Codec.valid_uint32 _, Codec.valid_uint64 _, Codec.valid_array _,
    Codec.valid_uint16BE _, Codec.valid_array _, Codec.valid_int64 _, Codec.valid_int32 _⟩, rfl⟩

/-- `CAddrInfo()` -/
def CAddrInfo.blank : CAddrInfo where
  ip := Vector.replicate 16 0
  port := 0
  nServices := 1
  nTime := 100000000
  nLastTry := 0
  source := Vector.replicate 16 0
  nLastSuccess := 0
  nAttempts := 0
  nRefCount := 0
  fInTried := false
  nRandomPos := -1

def CAddrInfo.persisted (info : CAddrInfo) : Persisted where
  service := info.toCService
  nServices := info.nServices
  nTime := info.nTime
  source := info.source
  nLastSuccess := info.nLastSuccess
  nAttempts := info.nAttempts

/-- `s >> info`, which begins with `CAddress::Init` -/
def CAddrInfo.load (info : CAddrInfo) (r : Persisted) : CAddrInfo where
  toCService := r.service
  nServices := r.nServices
  nTime := r.nTime
  nLastTry := 0
  source := r.source
  nLastSuccess := r.nLastSuccess
  nAttempts := r.nAttempts
  nRefCount := info.nRefCount
  fInTried := info.fInTried
  nRandomPos := info.nRandomPos

namespace CAddrMan

/-! ## Writing -/

/-- The first loop of `Serialize`.  Reading `mapUnkIds` where nothing has been put gives 0. -/
def writeNew (nNew : ℤ) :
    List (ℤ × CAddrInfo) → ℤ → (ℤ → ℤ) → Except Fault (List UInt8 × (ℤ → ℤ))
  | [], _, mapUnkIds => .ok ([], mapUnkIds)
  | (n, info) :: entries, nIds, mapUnkIds =>
    if info.nRefCount ≠ 0 then do
      -- this means nNew was wrong, oh ow
      assert (nIds ≠ nNew) "assert(nIds != nNew)"
      let (bytes, mapUnkIds) ← writeNew nNew entries (nIds + 1) (Function.update mapUnkIds n nIds)
      .ok (Persisted.codec.put info.persisted ++ bytes, mapUnkIds)
    else writeNew nNew entries nIds (Function.update mapUnkIds n nIds)

/-- The second one -/
def writeTried (nTried : ℤ) : List (ℤ × CAddrInfo) → ℤ → Except Fault (List UInt8)
  | [], _ => .ok []
  | (_, info) :: entries, nIds =>
    if info.fInTried then do
      -- this means nTried was wrong, oh ow
      assert (nIds ≠ nTried) "assert(nIds != nTried)"
      let bytes ← writeTried nTried entries (nIds + 1)
      .ok (Persisted.codec.put info.persisted ++ bytes)
    else writeTried nTried entries nIds

/-- The positions of a bucket of the new table that are taken -/
def taken (s : CAddrMan) (bucket : Fin 1024) : List (Fin 64) :=
  (List.finRange 64).filter fun i ↦ s.vvNew (bucket, i) ≠ -1

def writeBucket (s : CAddrMan) (mapUnkIds : ℤ → ℤ) (bucket : Fin 1024) : List UInt8 :=
  Codec.int32.put (Int32.ofInt (s.taken bucket).length) ++
    (s.taken bucket).flatMap fun i ↦ Codec.int32.put (Int32.ofInt (mapUnkIds (s.vvNew (bucket, i))))

def serialize (s : CAddrMan) : Except Fault (List UInt8) := do
  let nUBuckets : Int32 := (1024 : Int32) ^^^ (1 : Int32) <<< 30
  let header := (Codec.uint 1).put 1 ++ (Codec.uint 1).put 32 ++ Codec.uint256.put s.nKey ++
    Codec.int32.put (Int32.ofInt s.nNew) ++ Codec.int32.put (Int32.ofInt s.nTried) ++
    Codec.int32.put nUBuckets
  let (new, mapUnkIds) ← writeNew s.nNew s.mapInfo.toList 0 fun _ ↦ 0
  let tried ← writeTried s.nTried s.mapInfo.toList 0
  .ok (header ++ new ++ tried ++ (List.finRange 1024).flatMap (s.writeBucket mapUnkIds))

/-! ## Reading -/

/-- `Clear`, which leaves the maps as they are; the key that it draws is read over. -/
def clear (s : CAddrMan) : CAddrMan :=
  { s with
    vRandom := []
    vvNew := fun _ ↦ -1
    vvTried := fun _ ↦ -1
    nIdCount := 0
    nTried := 0
    nNew := 0 }

/-- A new entry gets a slot if it is free. -/
def refer (s : CAddrMan) (nId : ℤ) (p : NewSlot) : CAddrMan :=
  if s.vvNew p = -1 then
    (s.setNew p nId).modifyInfo nId fun info ↦ { info with nRefCount := info.nRefCount + 1 }
  else s

/-- `k` entries of the new table, from number `n` on.  When its positions cannot be used, an entry is given
a reference based on its primary source address. -/
def readNew (A : AddrParams) (fPlaced : Bool) :
    ℕ → ℤ → CAddrMan → List UInt8 → Except Fault (CAddrMan × List UInt8)
  | 0, _, s, bytes => .ok (s, bytes)
  | k + 1, n, s, bytes => do
    let (r, bytes) ← read Persisted.codec bytes
    let info := (s.mapInfo[n]?.getD CAddrInfo.blank).load r
    let s := s.enter n info
    let p := info.newSlot A s.nKey (info.getNewBucket A s.nKey info.source)
    readNew A fPlaced k (n + 1) (if fPlaced then s else s.refer n p) bytes

/-- `k` entries of the tried table.  One whose slot is taken is lost. -/
def readTried (A : AddrParams) :
    ℕ → CAddrMan → List UInt8 → ℤ → Except Fault (CAddrMan × List UInt8 × ℤ)
  | 0, s, bytes, nLost => .ok (s, bytes, nLost)
  | k + 1, s, bytes, nLost => do
    let (r, bytes) ← read Persisted.codec bytes
    let info := { CAddrInfo.blank.load r with fInTried := true }
    let p := info.triedSlot A s.nKey
    if s.vvTried p = -1 then
      let s := { s.enter s.nIdCount info with nIdCount := s.nIdCount + 1 }
      readTried A k (s.setTried p (s.nIdCount - 1)) bytes nLost
    else readTried A k s bytes (nLost + 1)

/-- What is done with the number of an entry in a bucket: it gets its slot there, if that is free and the
entry has not too many.  A number below `nNew` has an entry. -/
def readIndex (A : AddrParams) (s : CAddrMan) (bucket : Fin 1024) (nIndex : ℤ) : CAddrMan :=
  if 0 ≤ nIndex ∧ nIndex < s.nNew then
    match s.mapInfo[nIndex]? with
    | none => s
    | some info =>
      if info.nRefCount < ADDRMAN_NEW_BUCKETS_PER_ADDRESS then
        s.refer nIndex (info.newSlot A s.nKey bucket)
      else s
  else s

/-- `k` numbers of a bucket, which are passed over when there is no such bucket -/
def readIndexes (A : AddrParams) (bucket : Option (Fin 1024)) :
    ℕ → CAddrMan → List UInt8 → Except Fault (CAddrMan × List UInt8)
  | 0, s, bytes => .ok (s, bytes)
  | k + 1, s, bytes => do
    let (nIndex, bytes) ← read Codec.int32 bytes
    readIndexes A bucket k (bucket.elim s fun bucket ↦ readIndex A s bucket nIndex.toInt) bytes

def readBuckets (A : AddrParams) :
    List (Option (Fin 1024)) → CAddrMan → List UInt8 → Except Fault (CAddrMan × List UInt8)
  | [], s, bytes => .ok (s, bytes)
  | bucket :: buckets, s, bytes => do
    let (nSize, bytes) ← read Codec.int32 bytes
    let (s, bytes) ← readIndexes A bucket nSize.toInt.toNat s bytes
    readBuckets A buckets s bytes

/-- Prune new entries with refcount 0 (as a result of collisions). -/
def prune : List (ℤ × CAddrInfo) → CAddrMan → Except Fault CAddrMan
  | [], s => .ok s
  | (n, info) :: entries, s =>
    if info.fInTried = false ∧ info.nRefCount = 0 then do
      let s ← s.delete n
      prune entries s
    else prune entries s

/-- `Unserialize`, and what follows in the stream -/
def unserialize (A : AddrParams) (s : CAddrMan) (bytes : List UInt8) :
    Except Fault (CAddrMan × List UInt8) := do
  let (nVersion, bytes) ← read (Codec.uint 1) bytes
  let (nKeySize, bytes) ← read (Codec.uint 1) bytes
  assert (nKeySize = 32) "Incorrect keysize in addrman deserialization"
  let (nKey, bytes) ← read Codec.uint256 bytes
  let (nNew, bytes) ← read Codec.int32 bytes
  let (nTried, bytes) ← read Codec.int32 bytes
  let (nUBuckets, bytes) ← read Codec.int32 bytes
  let nUBuckets := if nVersion ≠ 0 then nUBuckets ^^^ (1 : Int32) <<< 30 else nUBuckets
  let fPlaced : Bool := nVersion = 1 ∧ nUBuckets = 1024
  let s := { s.clear with nKey, nNew := nNew.toInt, nTried := nTried.toInt }
  -- deserialize entries from the new table
  let (s, bytes) ← readNew A fPlaced nNew.toInt.toNat 0 s bytes
  -- deserialize entries from the tried table
  let (s, bytes, nLost) ← readTried A nTried.toInt.toNat { s with nIdCount := nNew.toInt } bytes 0
  let s := { s with nTried := s.nTried - nLost }
  -- deserialize positions in the new table (if possible)
  let (s, bytes) ← readBuckets A (if fPlaced then (List.finRange 1024).map some else
    List.replicate nUBuckets.toInt.toNat none) s bytes
  let s ← prune s.mapInfo.toList s
  .ok (s, bytes)

end CAddrMan

end Bws
