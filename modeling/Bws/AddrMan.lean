import Bws.Core
import Bws.Lib.Codec
import Bws.Lib.Slots
import Std.Data.TreeMap
import Std.Data.TreeSet

/-!
# The address manager

`CAddrMan` keeps the addresses of other nodes: those that a connection has been made to in the tried
table, the others in the new table, in up to eight slots each.  Which slots an address may have follows
from hashes of a secret key.  Five containers point at one another, and what one operation deletes may
be what another has just moved.

A random number is given from outside; so is whether `Select_` takes what it has come to, which it finds
with floating point numbers.  Entry ids are not bounded.
-/

namespace Bws

/-! ## Addresses -/

/-- The sixteen bytes of an address. -/
abbrev CNetAddr := Vector UInt8 16

structure CService where
  ip : CNetAddr
  port : UInt16
deriving DecidableEq

structure CAddress extends CService where
  nServices : UInt64
  nTime : UInt32
  nLastTry : Int64
deriving DecidableEq

/-- The seconds that an `unsigned int` stands for. -/
def seconds (nTime : UInt32) : ℤ := nTime.toNat

structure CAddrInfo extends CAddress where
  source : CNetAddr
  nLastSuccess : Int64
  nAttempts : Int32
  /-- how often it is in the new table -/
  nRefCount : ℤ
  fInTried : Bool
  nRandomPos : ℤ
deriving DecidableEq

/-- `CAddrInfo(addrIn, addrSource)` -/
def CAddrInfo.mk' (addrIn : CAddress) (addrSource : CNetAddr) : CAddrInfo where
  toCService := addrIn.toCService
  nServices := addrIn.nServices
  nTime := addrIn.nTime
  nLastTry := 0
  source := addrSource
  nLastSuccess := 0
  nAttempts := 0
  nRefCount := 0
  fInTried := false
  nRandomPos := -1

def CService.getKey (addr : CService) : List UInt8 :=
  addr.ip.toList ++ [(addr.port / 0x100).toUInt8, (addr.port &&& 0x0FF).toUInt8]

/-- What the manager is told about addresses, and the hash. -/
structure AddrParams where
  isRoutable : CNetAddr → Bool
  getGroup : CNetAddr → List UInt8
  /-- `GetCheapHash` of the hash of what has been written to a `CHashWriter` -/
  getCheapHash : List UInt8 → ℕ

abbrev TriedSlot := Fin 256 × Fin 64
abbrev NewSlot := Fin 1024 × Fin 64

def ADDRMAN_TRIED_BUCKETS_PER_GROUP : ℕ := 8
def ADDRMAN_NEW_BUCKETS_PER_SOURCE_GROUP : ℕ := 64
def ADDRMAN_NEW_BUCKETS_PER_ADDRESS : ℤ := 8
def ADDRMAN_HORIZON_DAYS : ℤ := 30
def ADDRMAN_RETRIES : Int32 := 3
def ADDRMAN_MAX_FAILURES : Int32 := 10
def ADDRMAN_MIN_FAIL_DAYS : ℤ := 7
def ADDRMAN_GETADDR_MAX_PCT : ℕ := 23
def ADDRMAN_GETADDR_MAX : ℕ := 2500

/-- A number below a bound, by division. -/
def modulo (n bound : ℕ) (h : 0 < bound) : Fin bound := ⟨n % bound, Nat.mod_lt n h⟩

section

variable (A : AddrParams) (nKey : BitVec 256)

def CAddrInfo.getTriedBucket (info : CAddrInfo) : Fin 256 :=
  let hash1 := A.getCheapHash (Codec.toLE 32 nKey.toNat ++ Codec.byteVector.put info.getKey)
  let hash2 := A.getCheapHash (Codec.toLE 32 nKey.toNat ++ Codec.byteVector.put (A.getGroup info.ip) ++
    Codec.toLE 8 (hash1 % ADDRMAN_TRIED_BUCKETS_PER_GROUP))
  modulo hash2 256 (by decide)

def CAddrInfo.getNewBucket (info : CAddrInfo) (src : CNetAddr) : Fin 1024 :=
  let vchSourceGroupKey := A.getGroup src
  let hash1 := A.getCheapHash (Codec.toLE 32 nKey.toNat ++ Codec.byteVector.put (A.getGroup info.ip) ++
    Codec.byteVector.put vchSourceGroupKey)
  let hash2 := A.getCheapHash (Codec.toLE 32 nKey.toNat ++ Codec.byteVector.put vchSourceGroupKey ++
    Codec.toLE 8 (hash1 % ADDRMAN_NEW_BUCKETS_PER_SOURCE_GROUP))
  modulo hash2 1024 (by decide)

def CAddrInfo.getBucketPosition (info : CAddrInfo) (fNew : Bool) (nBucket : ℕ) : Fin 64 :=
  modulo (A.getCheapHash (Codec.toLE 32 nKey.toNat ++ [if fNew then 0x4e else 0x4b] ++
    Codec.toLE 4 nBucket ++ Codec.byteVector.put info.getKey)) 64 (by decide)

/-- The slot of an entry in a bucket of the new table. -/
def CAddrInfo.newSlot (info : CAddrInfo) (nUBucket : Fin 1024) : NewSlot :=
  (nUBucket, info.getBucketPosition A nKey true nUBucket)

/-- The slot of an entry in the tried table. -/
def CAddrInfo.triedSlot (info : CAddrInfo) : TriedSlot :=
  (info.getTriedBucket A nKey, info.getBucketPosition A nKey false (info.getTriedBucket A nKey))

end

def CAddrInfo.isTerrible (info : CAddrInfo) (nNow : ℤ) : Bool :=
  -- never remove things tried the last minute
  if info.nLastTry ≠ 0 ∧ nNow - 60 ≤ info.nLastTry.toInt then false
  else
    -- came in a flying DeLorean
    nNow + 10 * 60 < seconds info.nTime ||
    -- not seen in recent history
    info.nTime = 0 || ADDRMAN_HORIZON_DAYS * 24 * 60 * 60 < nNow - seconds info.nTime ||
    -- tried N times and never a success
    info.nLastSuccess = 0 && ADDRMAN_RETRIES ≤ info.nAttempts ||
    -- N successive failures in the last week
    ADDRMAN_MIN_FAIL_DAYS * 24 * 60 * 60 < nNow - info.nLastSuccess.toInt &&
      ADDRMAN_MAX_FAILURES ≤ info.nAttempts

/-- What `Good_` writes into an entry. -/
def CAddrInfo.good (nTime : Int64) (info : CAddrInfo) : CAddrInfo :=
  { info with
    nLastSuccess := nTime
    nLastTry := nTime
    nTime := UInt32.ofInt nTime.toInt
    nAttempts := 0 }

/-- What `Add_` writes into an entry that is there. -/
def CAddrInfo.refresh (addr : CAddress) (nTimePenalty nNow : ℤ) (info : CAddrInfo) : CAddrInfo :=
  let fCurrentlyOnline := nNow - seconds addr.nTime < 24 * 60 * 60
  let nUpdateInterval := if fCurrentlyOnline then 60 * 60 else 24 * 60 * 60
  { info with
    nTime := if addr.nTime ≠ 0 ∧ (info.nTime = 0 ∨
        seconds info.nTime < seconds addr.nTime - nUpdateInterval - nTimePenalty) then
      UInt32.ofInt (max 0 (seconds addr.nTime - nTimePenalty)) else info.nTime
    nServices := info.nServices ||| addr.nServices }

/-- What `Attempt_` writes into an entry. -/
def CAddrInfo.attempt (nTime : Int64) (info : CAddrInfo) : CAddrInfo :=
  { info with nLastTry := nTime, nAttempts := info.nAttempts + 1 }

/-- What `Connected_` writes into an entry. -/
def CAddrInfo.connected (nTime : Int64) (info : CAddrInfo) : CAddrInfo :=
  let nUpdateInterval := 20 * 60
  { info with
    nTime := if nUpdateInterval < nTime.toInt - seconds info.nTime then UInt32.ofInt nTime.toInt
      else info.nTime }

/-! ## The manager -/

structure CAddrMan where
  nKey : BitVec 256
  nIdCount : ℤ
  mapInfo : Std.TreeMap ℤ CAddrInfo
  mapAddr : CNetAddr → Option ℤ
  vRandom : List ℤ
  nTried : ℤ
  /-- `-1` where there is no entry -/
  vvTried : TriedSlot → ℤ
  nNew : ℤ
  vvNew : NewSlot → ℤ

namespace CAddrMan

/-- `CAddrMan()`, with the key that `Clear` draws -/
def init (nKey : BitVec 256) : CAddrMan where
  nKey := nKey
  nIdCount := 0
  mapInfo := ∅
  mapAddr _ := none
  vRandom := []
  nTried := 0
  vvTried _ := -1
  nNew := 0
  vvNew _ := -1

/-- `assert(condition)` -/
def assert (condition : Prop) [Decidable condition] (text : String) : Except Fault Unit :=
  if condition then .ok () else .error (.thrown text)

@[simp] theorem assert_eq_ok {condition : Prop} [Decidable condition] {text : String} {u : Unit} :
    assert condition text = .ok u ↔ condition := by
  unfold assert
  split <;> simp_all

/-- The entry with an id is changed, through a reference to it. -/
def modifyInfo (s : CAddrMan) (nId : ℤ) (f : CAddrInfo → CAddrInfo) : CAddrMan :=
  { s with mapInfo := s.mapInfo.modify nId f }

/-- A slot of the new table is set. -/
def setNew (s : CAddrMan) (p : NewSlot) (nId : ℤ) : CAddrMan :=
  { s with vvNew := Function.update s.vvNew p nId }

/-- A slot of the tried table is set. -/
def setTried (s : CAddrMan) (p : TriedSlot) (nId : ℤ) : CAddrMan :=
  { s with vvTried := Function.update s.vvTried p nId }

def find (s : CAddrMan) (addr : CNetAddr) : Option (ℤ × CAddrInfo) :=
  match s.mapAddr addr with
  | none => none
  | some nId => s.mapInfo[nId]?.map fun info ↦ (nId, info)

/-- An entry is made known: by its id, by its address, and by its place among the random ones. -/
def enter (s : CAddrMan) (nId : ℤ) (info : CAddrInfo) : CAddrMan :=
  { s with
    mapInfo := s.mapInfo.insert nId { info with nRandomPos := s.vRandom.length }
    mapAddr := Function.update s.mapAddr info.ip (some nId)
    vRandom := s.vRandom ++ [nId] }

/-- `Create`; the id of the entry is `nIdCount`. -/
def create (s : CAddrMan) (addr : CAddress) (addrSource : CNetAddr) : CAddrMan :=
  { s.enter s.nIdCount (CAddrInfo.mk' addr addrSource) with nIdCount := s.nIdCount + 1 }

def swapRandom (s : CAddrMan) (nRndPos1 nRndPos2 : ℕ) : Except Fault CAddrMan :=
  if nRndPos1 = nRndPos2 then .ok s
  else
    match s.vRandom[nRndPos1]?, s.vRandom[nRndPos2]? with
    | some nId1, some nId2 => do
      assert (s.mapInfo.contains nId1) "assert(mapInfo.count(nId1) == 1)"
      assert (s.mapInfo.contains nId2) "assert(mapInfo.count(nId2) == 1)"
      let s := s.modifyInfo nId1 fun info ↦ { info with nRandomPos := nRndPos2 }
      let s := s.modifyInfo nId2 fun info ↦ { info with nRandomPos := nRndPos1 }
      .ok { s with vRandom := Slots.swap s.vRandom nRndPos1 nRndPos2 nId1 nId2 }
    | _, _ => .error (.thrown "assert(nRndPos1 < vRandom.size() && nRndPos2 < vRandom.size())")

def delete (s : CAddrMan) (nId : ℤ) : Except Fault CAddrMan :=
  match s.mapInfo[nId]? with
  | none => .error (.thrown "assert(mapInfo.count(nId) != 0)")
  | some info => do
    assert (info.fInTried = false) "assert(!info.fInTried)"
    assert (info.nRefCount = 0) "assert(info.nRefCount == 0)"
    -- as an `unsigned int` a negative position is past the end, and so is the last one of none
    assert (0 ≤ info.nRandomPos ∧ s.vRandom ≠ [])
      "assert(nRndPos1 < vRandom.size() && nRndPos2 < vRandom.size())"
    let s ← s.swapRandom info.nRandomPos.toNat (s.vRandom.length - 1)
    .ok { s with
      vRandom := s.vRandom.dropLast
      mapAddr := Function.update s.mapAddr info.ip none
      mapInfo := s.mapInfo.erase nId
      nNew := s.nNew - 1 }

/-- `ClearNew`.  An id without an entry would be given one that has no references. -/
def clearNew (s : CAddrMan) (p : NewSlot) : Except Fault CAddrMan :=
  -- if there is an entry in the specified bucket, delete it
  if s.vvNew p = -1 then .ok s
  else
    let nIdDelete := s.vvNew p
    match s.mapInfo[nIdDelete]? with
    | none => .error (.thrown "assert(infoDelete.nRefCount > 0)")
    | some infoDelete => do
      assert (0 < infoDelete.nRefCount) "assert(infoDelete.nRefCount > 0)"
      let s := s.modifyInfo nIdDelete fun info ↦ { info with nRefCount := info.nRefCount - 1 }
      let s := s.setNew p (-1)
      if infoDelete.nRefCount - 1 = 0 then s.delete nIdDelete else .ok s

/-- The loop over the buckets of the new table that `MakeTried` begins with. -/
def removeRefs (A : AddrParams) (info : CAddrInfo) (nId : ℤ) : List (Fin 1024) → CAddrMan → CAddrMan
  | [], s => s
  | bucket :: buckets, s =>
    let p := info.newSlot A s.nKey bucket
    if s.vvNew p = nId then
      removeRefs A info nId buckets ((s.setNew p (-1)).modifyInfo nId fun info ↦
        { info with nRefCount := info.nRefCount - 1 })
    else removeRefs A info nId buckets s

/-- The part of `MakeTried` that makes space: the tried entry which is there is moved to new, deleting
whatever is there. -/
def evict (A : AddrParams) (s : CAddrMan) (p : TriedSlot) : Except Fault CAddrMan :=
  if s.vvTried p = -1 then .ok s
  else
    -- find an item to evict
    let nIdEvict := s.vvTried p
    match s.mapInfo[nIdEvict]? with
    | none => .error (.thrown "assert(mapInfo.count(nIdEvict) == 1)")
    | some infoOld => do
      -- remove the to-be-evicted item from the tried set
      let s := s.modifyInfo nIdEvict fun info ↦ { info with fInTried := false }
      let s : CAddrMan := { s.setTried p (-1) with nTried := s.nTried - 1 }
      -- find which new bucket it belongs to
      let q := infoOld.newSlot A s.nKey (infoOld.getNewBucket A s.nKey infoOld.source)
      let s ← clearNew s q
      assert (s.vvNew q = -1) "assert(vvNew[nUBucket][nUBucketPos] == -1)"
      -- enter it into the new set again
      let s := s.modifyInfo nIdEvict fun info ↦ { info with nRefCount := 1 }
      .ok { s.setNew q nIdEvict with nNew := s.nNew + 1 }

/-- `MakeTried` for an entry that is there -/
def makeTried (A : AddrParams) (s : CAddrMan) (info : CAddrInfo) (nId : ℤ) :
    Except Fault CAddrMan := do
  let s := removeRefs A info nId (List.finRange 1024) s
  let s := { s with nNew := s.nNew - 1 }
  assert (s.mapInfo[nId]?.map CAddrInfo.nRefCount = some 0) "assert(info.nRefCount == 0)"
  -- what tried bucket to move the entry to
  let p := info.triedSlot A s.nKey
  let s ← evict A s p
  assert (s.vvTried p = -1) "assert(vvTried[nKBucket][nKBucketPos] == -1)"
  let s := (s.setTried p nId).modifyInfo nId fun info ↦ { info with fInTried := true }
  .ok { s with nTried := s.nTried + 1 }

/-! ## Operations -/

/-- `Good_`.  With which bucket its search begins makes no difference. -/
def good_ (A : AddrParams) (s : CAddrMan) (addr : CService) (nTime : Int64) : Except Fault CAddrMan :=
  match s.find addr.ip with
  | none => .ok s
  | some (nId, info) =>
    -- check whether we are talking about the exact same CService (including same port)
    if info.toCService ≠ addr then .ok s
    else
      let s := s.modifyInfo nId (CAddrInfo.good nTime)
      -- if it is already in the tried set, don't do anything else
      if info.fInTried then .ok s
      -- if no bucket is found, something bad happened
      else if ∀ nB, s.vvNew (info.newSlot A s.nKey nB) ≠ nId then .ok s
      else makeTried A s info nId

/-- The end of `Add_`: a slot of the new table for an entry. -/
def place (A : AddrParams) (s : CAddrMan) (nId : ℤ) (info : CAddrInfo) (source : CNetAddr)
    (nNow : ℤ) : Except Fault CAddrMan :=
  let p := info.newSlot A s.nKey (info.getNewBucket A s.nKey source)
  if s.vvNew p = nId then .ok s
  else
    let fInsert := s.vvNew p = -1 ∨
      -- overwrite the existing new table entry
      ∃ infoExisting ∈ s.mapInfo[s.vvNew p]?, infoExisting.isTerrible nNow ∨
        1 < infoExisting.nRefCount ∧ info.nRefCount = 0
    if fInsert then do
      let s ← s.clearNew p
      let s := s.modifyInfo nId fun info ↦ { info with nRefCount := info.nRefCount + 1 }
      .ok (s.setNew p nId)
    else if info.nRefCount = 0 then s.delete nId
    else .ok s

/-- `Add_`, and whether the entry is new.  The clock is read twice, and `nRand` is what the stochastic
test draws from. -/
def add_ (A : AddrParams) (s : CAddrMan) (addr : CAddress) (source : CNetAddr)
    (nTimePenalty nNow nNowLater : ℤ) (nRand : ℕ) : Except Fault (CAddrMan × Bool) :=
  if !A.isRoutable addr.ip then .ok (s, false)
  else
    match s.find addr.ip with
    | some (nId, pinfo) =>
      let info := pinfo.refresh addr nTimePenalty nNow
      let s := s.modifyInfo nId (CAddrInfo.refresh addr nTimePenalty nNow)
      -- do not update if no new information is present
      if addr.nTime = 0 ∨ info.nTime ≠ 0 ∧ addr.nTime ≤ info.nTime then .ok (s, false)
      -- do not update if the entry was already in the "tried" table
      else if info.fInTried then .ok (s, false)
      -- do not update if the max reference count is reached
      else if info.nRefCount = ADDRMAN_NEW_BUCKETS_PER_ADDRESS then .ok (s, false)
      -- stochastic test: previous nRefCount == N: 2^N times harder to increase it
      else if 1 < 2 ^ info.nRefCount.toNat ∧ nRand % 2 ^ info.nRefCount.toNat ≠ 0 then .ok (s, false)
      else do
        let s ← place A s nId info source nNowLater
        .ok (s, false)
    | none => do
      let nTime := UInt32.ofInt (max 0 (seconds addr.nTime - nTimePenalty))
      let nId := s.nIdCount
      let s := (s.create addr source).modifyInfo nId fun info ↦ { info with nTime }
      let s := { s with nNew := s.nNew + 1 }
      let s ← place A s nId { CAddrInfo.mk' addr source with nTime } source nNowLater
      .ok (s, true)

/-- What `Attempt_` and `Connected_` have in common: the entry of a service is changed. -/
def touch (s : CAddrMan) (addr : CService) (f : CAddrInfo → CAddrInfo) : CAddrMan :=
  match s.find addr.ip with
  | none => s
  -- check whether we are talking about the exact same CService (including same port)
  | some (nId, info) => if info.toCService ≠ addr then s else s.modifyInfo nId f

def attempt_ (s : CAddrMan) (addr : CService) (nTime : Int64) : CAddrMan :=
  s.touch addr (CAddrInfo.attempt nTime)

def connected_ (s : CAddrMan) (addr : CService) (nTime : Int64) : CAddrMan :=
  s.touch addr (CAddrInfo.connected nTime)

/-- The loop of `Select_` over a table, for the slots that it comes to and whether it takes what is
there. -/
def selectFrom {P : Type} (s : CAddrMan) (table : P → ℤ) :
    List (P × Bool) → Except Fault (Option CAddress)
  | [] => .ok none
  | (p, fTake) :: draws =>
    if table p = -1 then s.selectFrom table draws
    else
      match s.mapInfo[table p]? with
      | none => .error (.thrown "assert(mapInfo.count(nId) == 1)")
      | some info => if fTake then .ok (some info.toCAddress) else s.selectFrom table draws

/-- `Select_`, where `fCoin` is `GetRandInt(2) == 0`.  There is no result when there are no entries, and
none before the loop has taken one. -/
def select_ (s : CAddrMan) (fCoin : Bool) (drawsTried : List (TriedSlot × Bool))
    (drawsNew : List (NewSlot × Bool)) : Except Fault (Option CAddress) :=
  if s.vRandom.length = 0 then .ok none
  -- use a 50% chance for choosing between tried and new table entries
  else if 0 < s.nTried ∧ (s.nNew = 0 ∨ fCoin) then s.selectFrom s.vvTried drawsTried
  else s.selectFrom s.vvNew drawsNew

/-- The loop of `GetAddr_`, with `k` rounds left. -/
def getAddrFrom (nNodes : ℕ) (nNow : ℕ → ℤ) (nRand : ℕ → ℕ) : ℕ → CAddrMan → List CAddress →
    Except Fault (CAddrMan × List CAddress)
  | 0, s, vAddr => .ok (s, vAddr)
  | k + 1, s, vAddr =>
    if nNodes ≤ vAddr.length then .ok (s, vAddr)
    else do
      let n := s.vRandom.length - (k + 1)
      let nRndPos := nRand n % (s.vRandom.length - n) + n
      let s ← s.swapRandom n nRndPos
      match s.vRandom[n]?.bind fun nId ↦ s.mapInfo[nId]? with
      | none => .error (.thrown "assert(mapInfo.count(vRandom[n]) == 1)")
      | some ai =>
        getAddrFrom nNodes nNow nRand k s
          (if ai.isTerrible (nNow n) then vAddr else vAddr ++ [ai.toCAddress])

/-- `GetAddr_`, where a round has its time and its random number. -/
def getAddr_ (s : CAddrMan) (nNow : ℕ → ℤ) (nRand : ℕ → ℕ) :
    Except Fault (CAddrMan × List CAddress) :=
  let nNodes := min (ADDRMAN_GETADDR_MAX_PCT * s.vRandom.length / 100) ADDRMAN_GETADDR_MAX
  -- gather a list of random nodes, skipping those of low quality
  getAddrFrom nNodes nNow nRand s.vRandom.length s []

/-! ## The check -/

/-- `if (bad) return code;` -/
def failIf (bad : Prop) [Decidable bad] (code : ℤ) : Except ℤ Unit :=
  if bad then .error code else .ok ()

@[simp] theorem failIf_eq_ok {bad : Prop} [Decidable bad] {code : ℤ} {u : Unit} :
    failIf bad code = .ok u ↔ ¬ bad := by
  unfold failIf
  split <;> simp_all

/-- The tried ids, and the references of the other ones. -/
structure Tally where
  setTried : Std.TreeSet ℤ
  mapNew : Std.TreeMap ℤ ℤ

def tallyEntry (n : ℤ) (info : CAddrInfo) (t : Tally) : Except ℤ Tally :=
  if info.fInTried then do
    failIf (info.nLastSuccess = 0) (-1)
    failIf (info.nRefCount ≠ 0) (-2)
    .ok { t with setTried := t.setTried.insert n }
  else do
    failIf (info.nRefCount < 0 ∨ ADDRMAN_NEW_BUCKETS_PER_ADDRESS < info.nRefCount) (-3)
    failIf (info.nRefCount = 0) (-4)
    .ok { t with mapNew := t.mapNew.insert n info.nRefCount }

/-- One round of the loop of `Check_` over `mapInfo`.  Where `mapAddr` has nothing, reading it gives 0. -/
def checkEntry (s : CAddrMan) (t : Tally) : ℤ × CAddrInfo → Except ℤ Tally
  | (n, info) => do
    let t ← tallyEntry n info t
    failIf ((s.mapAddr info.ip).getD 0 ≠ n) (-5)
    failIf (info.nRandomPos < 0 ∨ s.vRandom[info.nRandomPos.toNat]? ≠ some n) (-14)
    failIf (info.nLastTry < 0) (-6)
    failIf (info.nLastSuccess < 0) (-8)
    .ok t

/-- One round of its loop over the tried table.  An id that is in `setTried` has an entry. -/
def checkTriedSlot (A : AddrParams) (s : CAddrMan) (setTried : Std.TreeSet ℤ) (p : TriedSlot) :
    Except ℤ (Std.TreeSet ℤ) :=
  if s.vvTried p = -1 then .ok setTried
  else
    match s.mapInfo[s.vvTried p]? with
    | none => .error (-11)
    | some info => do
      failIf (s.vvTried p ∉ setTried) (-11)
      failIf (info.getTriedBucket A s.nKey ≠ p.1) (-17)
      failIf (info.getBucketPosition A s.nKey false p.1 ≠ p.2) (-18)
      .ok (setTried.erase (s.vvTried p))

/-- One round of its loop over the new table.  An id that is in `mapNew` has an entry. -/
def checkNewSlot (A : AddrParams) (s : CAddrMan) (mapNew : Std.TreeMap ℤ ℤ) (p : NewSlot) :
    Except ℤ (Std.TreeMap ℤ ℤ) :=
  if s.vvNew p = -1 then .ok mapNew
  else
    match s.mapInfo[s.vvNew p]?, mapNew[s.vvNew p]? with
    | some info, some n => do
      failIf (info.getBucketPosition A s.nKey true p.1 ≠ p.2) (-19)
      .ok (if n - 1 = 0 then mapNew.erase (s.vvNew p) else mapNew.insert (s.vvNew p) (n - 1))
    | _, _ => .error (-12)

/-- `Check_`, but for the key. -/
def checkTables (A : AddrParams) (s : CAddrMan) : Except ℤ Unit := do
  failIf ((s.vRandom.length : ℤ) ≠ s.nTried + s.nNew) (-7)
  let t ← s.mapInfo.toList.foldlM s.checkEntry ⟨∅, ∅⟩
  failIf ((t.setTried.size : ℤ) ≠ s.nTried) (-9)
  failIf ((t.mapNew.size : ℤ) ≠ s.nNew) (-10)
  let setTried ← ((List.finRange 256).product (List.finRange 64)).foldlM (checkTriedSlot A s) t.setTried
  let mapNew ← ((List.finRange 1024).product (List.finRange 64)).foldlM (checkNewSlot A s) t.mapNew
  failIf (setTried.size ≠ 0) (-13)
  failIf (mapNew.size ≠ 0) (-15)

/-- `Check_`, with its return codes. -/
def check_ (A : AddrParams) (s : CAddrMan) : ℤ :=
  match checkTables A s with
  | .error code => code
  | .ok () => if s.nKey = 0 then -16 else 0

/-! ## Runs -/

/-- A call of one of the operations, with all that it is given from outside. -/
inductive Op where
  | add (addr : CAddress) (source : CNetAddr) (nTimePenalty nNow nNowLater : ℤ) (nRand : ℕ)
  | good (addr : CService) (nTime : Int64)
  | attempt (addr : CService) (nTime : Int64)
  | connected (addr : CService) (nTime : Int64)
  | getAddr (nNow : ℕ → ℤ) (nRand : ℕ → ℕ)
  | select (fCoin : Bool) (drawsTried : List (TriedSlot × Bool)) (drawsNew : List (NewSlot × Bool))

/-- The times that are written into an entry are positive. -/
def Op.Timely : Op → Prop
  | .good _ nTime | .attempt _ nTime | .connected _ nTime => 0 < nTime
  | _ => True

/-- The manager after an operation. -/
def step (A : AddrParams) (s : CAddrMan) : Op → Except Fault CAddrMan
  | .add addr source nTimePenalty nNow nNowLater nRand =>
    (add_ A s addr source nTimePenalty nNow nNowLater nRand).map Prod.fst
  | .good addr nTime => good_ A s addr nTime
  | .attempt addr nTime => .ok (s.attempt_ addr nTime)
  | .connected addr nTime => .ok (s.connected_ addr nTime)
  | .getAddr nNow nRand => (s.getAddr_ nNow nRand).map Prod.fst
  | .select fCoin drawsTried drawsNew => (s.select_ fCoin drawsTried drawsNew).map fun _ ↦ s

/-- What operations with positive times make of a new manager. -/
inductive Reachable (A : AddrParams) (nKey : BitVec 256) : CAddrMan → Prop
  | init : Reachable A nKey (init nKey)
  | step {s s' : CAddrMan} {op : Op} : Reachable A nKey s → op.Timely → s.step A op = .ok s' →
      Reachable A nKey s'

end CAddrMan

end Bws
