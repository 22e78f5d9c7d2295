import Bws.BlockIndex
import Bws.Lib.Ledger
import Bws.Lib.Overlay

/-!
# The transaction database

`CTxDB`: a key/value store, and the batch of writes that `TxnBegin` opens.  The keys are the
ones the source serializes, with the type of the value each of them carries; that a value
reads back as it was written is taken from LevelDB and the serializer.

Everything that reads through a `CTxDB` sees `CTxDB.view`: the store with the batch applied
(`read_eq_view`), and it is the view that `TxnCommit` makes the store.
-/

namespace Bws

open Overlay (Store Op)

/-! ## Records -/

structure CDiskTxPos where
  nFile : ℕ
  nBlockPos : ℕ
  nTxPos : ℕ
deriving DecidableEq, Repr

namespace CDiskTxPos

def null : CDiskTxPos := ⟨uintMax, 0, 0⟩

def isNull (pos : CDiskTxPos) : Bool := pos.nFile = uintMax

instance : Ledger.Slots CDiskTxPos where
  null := null
  isNull := isNull
  isNull_null := rfl

/-- `CDiskTxPos(1,1,1)`: the mark of a transaction that is only in the memory pool. -/
def inMemory : CDiskTxPos := ⟨1, 1, 1⟩

end CDiskTxPos

/-- `CTxIndex`: where a transaction is, and for each output where its spender is. -/
abbrev CTxIndex := Ledger.Entry CDiskTxPos

/-- `CTxIndex(pos, nOutputs)` -/
def CTxIndex.mk' (pos : CDiskTxPos) (nOutputs : ℕ) : CTxIndex :=
  ⟨pos, List.replicate nOutputs .null⟩

/-- `CDiskBlockIndex`: an entry of the block index with hashes for pointers. -/
structure CDiskBlockIndex where
  entry : CBlockEntry
  nHeight : ℕ
  nMint : ℤ
  nMoneySupply : ℕ
  hashPrev : UInt256
  hashNext : UInt256
deriving DecidableEq, Repr

inductive DbKey where
  | version
  | tx (hash : UInt256)
  | blockindex (hash : UInt256)
  | hashBestChain
  | bnBestInvalidTrust
deriving DecidableEq, Repr

@[reducible] def DbKey.Value : DbKey → Type
  | .version => ℤ
  | .tx _ => CTxIndex
  | .blockindex _ => CDiskBlockIndex
  | .hashBestChain => UInt256
  | .bnBestInvalidTrust => UInt256

/-! ## The database -/

structure CTxDB where
  pdb : Store DbKey.Value
  /-- the batch, when `TxnBegin` has opened one -/
  activeBatch : Option (List (Op DbKey.Value))

namespace CTxDB

/-- `CTxDB txdb("r")`: another object on the same store. -/
def fresh (txdb : CTxDB) : CTxDB := { txdb with activeBatch := none }

def read (txdb : CTxDB) (key : DbKey) : Option key.Value :=
  match txdb.activeBatch with
  | none => txdb.pdb key
  | some batch =>
    match Overlay.scan batch key with
    | some found => found
    | none => txdb.pdb key

/-- `Exists`: unlike `Read`, it asks the store about a key that the batch deletes. -/
def contains (txdb : CTxDB) (key : DbKey) : Bool :=
  match txdb.activeBatch with
  | none => (txdb.pdb key).isSome
  | some batch =>
    match Overlay.scan batch key with
    | some (some _) => true
    | _ => (txdb.pdb key).isSome

/-- Record an operation in the batch; without a batch LevelDB executes it, or fails. -/
def record (txdb : CTxDB) (ok : Bool) (o : Op DbKey.Value) : Option CTxDB :=
  match txdb.activeBatch with
  | some batch => some { txdb with activeBatch := some (batch ++ [o]) }
  | none => if ok then some { txdb with pdb := o.apply txdb.pdb } else none

def write (txdb : CTxDB) (ok : Bool) (key : DbKey) (value : key.Value) : Option CTxDB :=
  txdb.record ok (.put key value)

def erase (txdb : CTxDB) (ok : Bool) (key : DbKey) : Option CTxDB := txdb.record ok (.delete key)

/-- `TxnBegin`; the source asserts that no batch is open. -/
def txnBegin (txdb : CTxDB) : Except Fault CTxDB :=
  match txdb.activeBatch with
  | some _ => .error (.thrown "assert(!activeBatch)")
  | none => .ok { txdb with activeBatch := some [] }

/-- `TxnCommit`: the batch is gone afterwards, also when LevelDB refuses it. -/
def txnCommit (txdb : CTxDB) (ok : Bool) : Except Fault (Bool × CTxDB) :=
  match txdb.activeBatch with
  | none => .error (.thrown "assert(activeBatch)")
  | some batch =>
    if ok then .ok (true, ⟨Overlay.applyAll txdb.pdb batch, none⟩)
    else .ok (false, ⟨txdb.pdb, none⟩)

def txnAbort (txdb : CTxDB) : CTxDB := { txdb with activeBatch := none }

abbrev readTxIndex (txdb : CTxDB) (hash : UInt256) : Option CTxIndex := txdb.read (.tx hash)

/-! ## What a reader sees -/

/-- The store as it would be with the batch committed. -/
def view (txdb : CTxDB) : Store DbKey.Value :=
  match txdb.activeBatch with
  | none => txdb.pdb
  | some batch => Overlay.applyAll txdb.pdb batch

theorem read_eq_view (txdb : CTxDB) (key : DbKey) : txdb.read key = txdb.view key := by
  obtain ⟨pdb, activeBatch⟩ := txdb
  cases activeBatch with
  | none => rfl
  | some batch =>
    simp only [read, view, Overlay.applyAll_eq_scan]
    cases Overlay.scan batch key <;> rfl

theorem record_of_batch {txdb : CTxDB} {batch : List (Op DbKey.Value)}
    (h : txdb.activeBatch = some batch) (ok : Bool) (o : Op DbKey.Value) :
    txdb.record ok o = some { txdb with activeBatch := some (batch ++ [o]) } := by
  unfold record
  rw [h]

theorem view_of_none {txdb : CTxDB} (h : txdb.activeBatch = none) : txdb.view = txdb.pdb := by
  unfold view
  rw [h]

/-- The transaction index that a reader sees. -/
def txIndex (txdb : CTxDB) : Ledger.Index UInt256 CDiskTxPos := fun hash ↦ txdb.view (.tx hash)

theorem readTxIndex_eq (txdb : CTxDB) (hash : UInt256) :
    txdb.readTxIndex hash = txdb.txIndex hash := txdb.read_eq_view _

end CTxDB

end Bws
