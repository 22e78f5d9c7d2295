import Bws.ConnectBlock
import Bws.Lib.Exec

/-!
# The node

The globals of `main.cpp` that the best chain is kept in, and the functions that write to them:
`ConnectBlock`, `DisconnectBlock`, `InvalidChainFound` and the database calls.

A function of the source is a `NodeM`: `return false` and an exception are errors, and what was
changed before either stays changed.  The events record what other parts of the program are
told, and which steps of a switch were taken; nothing reads them.
-/

namespace Bws

open Overlay (Op)

/-- What a run leaves a trace of. -/
inductive Event where
  /-- `SyncWithWallets(tx, pblock, fConnect)` -/
  | syncWithWallets (tx : CTransaction) (pblock : Option CBlock) (fConnect : Bool)
  | connectBlock (pindex : CBlockIndex)
  | disconnectBlock (pindex : CBlockIndex)
  | txnBegin
  | txnCommit
  | txnAbort
deriving DecidableEq

structure NodeState where
  files : BlockFiles
  /-- the database, with the batch of the `CTxDB` object of the call that is running -/
  txdb : CTxDB
  mapBlockIndex : UInt256 → Option CBlockIndex
  setStakeSeen : List (COutPoint × ℕ)
  pindexGenesisBlock : Option CBlockIndex
  pindexBest : Option CBlockIndex
  hashBestChain : UInt256
  nBestHeight : ℤ
  nBestChainTrust : UInt256
  nBestInvalidTrust : UInt256
  pnext : CBlockIndex → Option CBlockIndex
  /-- where the last `FindBlockByHeight` ended, until there is a new best block -/
  pblockindexFBBHLast : Option CBlockIndex
  nMint : CBlockIndex → ℤ
  nMoneySupply : CBlockIndex → ℕ
  mempool : CTxMemPool
  /-- history, the oldest event first -/
  events : List Event

namespace NodeState

/-- The globals as they are initialized, over an empty database. -/
def init : NodeState where
  files := .empty
  txdb := ⟨fun _ ↦ none, none⟩
  mapBlockIndex _ := none
  setStakeSeen := []
  pindexGenesisBlock := none
  pindexBest := none
  hashBestChain := 0
  nBestHeight := -1
  nBestChainTrust := 0
  nBestInvalidTrust := 0
  pnext _ := none
  pblockindexFBBHLast := none
  nMint _ := 0
  nMoneySupply _ := 0
  mempool := .empty
  events := []

/-- What fetching and connecting inputs read, through the database object `txdb`. -/
def txView (w : World) (s : NodeState) (txdb : CTxDB) : TxView where
  txIndex := txdb.readTxIndex
  readTx := readTxAt w s.files
  readHeader := readHeaderAt w s.files
  lookup := s.mempool.lookup
  nBestHeight := s.nBestHeight

/-- `CDiskBlockIndex(pindex)` -/
def diskBlockIndex (s : NodeState) (pindex : CBlockIndex) : CDiskBlockIndex where
  entry := pindex.val
  nHeight := pindex.nHeight
  nMint := s.nMint pindex
  nMoneySupply := s.nMoneySupply pindex
  hashPrev := (pindex.pprev.map CBlockIndex.getBlockHash).getD 0
  hashNext := ((s.pnext pindex).map CBlockIndex.getBlockHash).getD 0

end NodeState

/-! ## Running -/

abbrev NodeM := EStateM Fault NodeState

namespace NodeM

/-- `return DoS(nDoS, error(msg));` -/
def fail {α : Type} (nDoS : ℕ) (msg : String) : NodeM α :=
  EStateM.throw (.rejected nDoS msg)

/-- A function that reads the node and changes nothing. -/
def reads {α : Type} (f : NodeState → Except Fault α) : NodeM α := fun s ↦
  match f s with
  | .ok a => .ok a s
  | .error e => .error e s

theorem reads_of_ok {α : Type} {f : NodeState → Except Fault α} {s : NodeState} {a : α}
    (h : f s = .ok a) : reads f s = .ok a s := by
  rw [reads, h]

theorem reads_of_error {α : Type} {f : NodeState → Except Fault α} {s : NodeState} {e : Fault}
    (h : f s = .error e) : reads f s = .error e s := by
  rw [reads, h]

theorem reads_eq_ok {α : Type} {f : NodeState → Except Fault α} {s s' : NodeState} {a : α} :
    reads f s = .ok a s' ↔ f s = .ok a ∧ s' = s := by
  unfold reads
  cases f s with
  | ok b =>
    constructor
    · rintro ⟨⟩
      exact ⟨rfl, rfl⟩
    · rintro ⟨⟨⟩, rfl⟩
      rfl
  | error e => simp

/-- An assignment. -/
def assign (f : NodeState → NodeState) : NodeM Unit := fun s ↦ .ok () (f s)

/-- `x` returned true; an exception goes on. -/
def succeeds (x : NodeM Unit) : NodeM Bool :=
  Exec.caught (fun e ↦ match e with | .rejected _ _ => true | .thrown _ => false) x

theorem succeeds_of_ok {x : NodeM Unit} {s s₁ : NodeState} (h : x s = .ok () s₁) :
    succeeds x s = .ok true s₁ := Exec.caught_of_ok h

theorem succeeds_of_rejected {x : NodeM Unit} {s s₁ : NodeState} {nDoS : ℕ} {msg : String}
    (h : x s = .error (.rejected nDoS msg) s₁) : succeeds x s = .ok false s₁ :=
  Exec.caught_of_error h

theorem succeeds_of_thrown {x : NodeM Unit} {s s₁ : NodeState} {msg : String}
    (h : x s = .error (.thrown msg) s₁) : succeeds x s = .error (.thrown msg) s₁ :=
  Exec.caught_of_error h

def emit (e : Event) : NodeM Unit := assign fun s ↦ { s with events := s.events ++ [e] }

/-- `BOOST_FOREACH(a, l) f(a);` -/
def forEach {α : Type} (f : α → NodeM Unit) : List α → NodeM Unit
  | [] => pure ()
  | a :: l => do
    f a
    forEach f l

end NodeM

open NodeM

/-! ## Database calls -/

section

variable (w : World)

/-- `txdb.Write(key, value)`, with what the caller does when it fails. -/
def writeDb (key : DbKey) (value : key.Value) (msg : String) : NodeM Unit := fun s ↦
  match s.txdb.write w.putOk key value with
  | some txdb => .ok () { s with txdb }
  | none => .error (.rejected 0 msg) s

/-- `txdb.Erase(key)`, whose result the caller does not look at. -/
def eraseDb (key : DbKey) : NodeM Unit :=
  assign fun s ↦ { s with txdb := (s.txdb.erase w.putOk key).getD s.txdb }

def txnBegin : NodeM Unit := do
  let txdb ← reads fun s ↦ s.txdb.txnBegin
  assign fun s ↦ { s with txdb }
  emit .txnBegin

/-- `txdb.TxnCommit()`, with what the caller does when it fails. -/
def txnCommit (ok : Bool) (msg : String) : NodeM Unit := do
  let (done, txdb) ← reads fun s ↦ s.txdb.txnCommit ok
  assign fun s ↦ { s with txdb }
  if done then emit .txnCommit else fail 0 msg

def txnAbort : NodeM Unit := do
  assign fun s ↦ { s with txdb := s.txdb.txnAbort }
  emit .txnAbort

variable (P : Params)

/-- `txdb.WriteBlockIndex(CDiskBlockIndex(pindex))`, with one of its fields changed by `f`. -/
def writeBlockIndex (pindex : CBlockIndex) (f : CDiskBlockIndex → CDiskBlockIndex)
    (msg : String) : NodeM Unit := do
  let blockindex ← reads fun s ↦ .ok (f (s.diskBlockIndex pindex))
  writeDb w (.blockindex (P.diskHash blockindex)) blockindex msg

def writeHashBestChain (hash : UInt256) (msg : String) : NodeM Unit :=
  writeDb w .hashBestChain hash msg

/-! ## DisconnectBlock -/

/-- One round of the loop of `DisconnectInputs`. -/
def disconnectInput (txin : CTxIn) : NodeM Unit := do
  let txindex ← reads fun s ↦
    match s.txdb.readTxIndex txin.prevout.hash with
    | none => reject 0 "DisconnectInputs() : ReadTxIndex failed"
    | some txindex =>
      if txindex.vSpent.length ≤ txin.prevout.n then
        reject 0 "DisconnectInputs() : prevout.n out of range"
      else .ok txindex
  writeDb w (.tx txin.prevout.hash)
    { txindex with vSpent := txindex.vSpent.set txin.prevout.n .null }
    "DisconnectInputs() : UpdateTxIndex failed"

/-- The loop of `DisconnectInputs`: relinquish the spent pointers of previous transactions. -/
def releaseInputs (tx : CTransaction) : NodeM Unit :=
  if tx.isCoinBase then pure () else forEach (disconnectInput w) tx.vin

/-- `CTransaction::DisconnectInputs` -/
def disconnectInputs (tx : CTransaction) : NodeM Unit := do
  releaseInputs w tx
  eraseDb w (.tx (P.getHash tx))

/-- Update the entry of the previous block on disk without changing it in memory. -/
def writeHashNext (pindex : CBlockIndex) (hashNext : UInt256) (msg : String) : NodeM Unit :=
  match pindex.pprev with
  | none => pure ()
  | some pprev => writeBlockIndex w P pprev (fun d ↦ { d with hashNext }) msg

/-- `CBlock::DisconnectBlock` -/
def disconnectBlock (block : CBlock) (pindex : CBlockIndex) : NodeM Unit := do
  forEach (disconnectInputs w P) block.vtx.reverse
  writeHashNext w P pindex 0 "DisconnectBlock() : WriteBlockIndex failed"
  emit (.disconnectBlock pindex)
  forEach (fun tx ↦ emit (.syncWithWallets tx (some block) false)) block.vtx

/-! ## ConnectBlock -/

/-- `pindex->nMint` and `pindex->nMoneySupply` -/
def trackMoney (pindex : CBlockIndex) (t : BlockTotals) : NodeM Unit :=
  assign fun s ↦ { s with
    nMint := Function.update s.nMint pindex (int64 (int64 (t.nValueOut - t.nValueIn) + t.nFees))
    nMoneySupply := Function.update s.nMoneySupply pindex
      (uint64 ((pindex.pprev.map s.nMoneySupply).getD 0 + t.nValueOut - t.nValueIn -
        t.nBurnCoins)) }

/-- The writes of `ConnectBlock`. -/
def writeConnected (block : CBlock) (pindex : CBlockIndex) (t : BlockTotals) : NodeM Unit := do
  forEach (fun mi : UInt256 × CTxIndex ↦
    writeDb w (.tx mi.1) mi.2 "ConnectBlock() : UpdateTxIndex failed") t.mapQueuedChanges.toList
  writeHashNext w P pindex pindex.getBlockHash "ConnectBlock() : WriteBlockIndex failed"
  emit (.connectBlock pindex)
  forEach (fun tx ↦ emit (.syncWithWallets tx (some block) true)) block.vtx

/-- `CBlock::ConnectBlock` -/
def connectBlock (block : CBlock) (pindex : CBlockIndex) (fJustCheck : Bool) : NodeM Unit := do
  let t ← reads fun s ↦
    connectBlockCheck P w (s.txView w s.txdb) s.pindexBest block pindex fJustCheck
  trackMoney pindex t
  writeBlockIndex w P pindex id "Connect() : WriteBlockIndex for pindex failed"
  if fJustCheck then pure () else writeConnected w P block pindex t

/-! ## InvalidChainFound -/

/-- `InvalidChainFound`: the database object it writes through has no batch. -/
def invalidChainFound (pindexNew : CBlockIndex) : NodeM Unit :=
  assign fun s ↦
    if s.nBestInvalidTrust < pindexNew.nChainTrust then
      { s with
        nBestInvalidTrust := pindexNew.nChainTrust
        txdb := { s.txdb with
          pdb := ((s.txdb.fresh.write w.putOk .bnBestInvalidTrust pindexNew.nChainTrust).map
            CTxDB.pdb).getD s.txdb.pdb } }
    else s

end

end Bws
