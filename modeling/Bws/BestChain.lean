import Bws.AcceptTx

/-!
# The best chain

`Reorganize`, `SetBestChainInner` and `SetBestChain`: how a block becomes the tip.

A switch writes to the database in one batch per call of `TxnBegin`, and the pointers in memory
follow after `TxnCommit`.  What `SetBestChain` does last, on every path that returns true, is
to name the block it was called with as the best one.
-/

namespace Bws

open Chain (Node)
open NodeM

section

variable (P : Params) (w : World)

/-- `block.ReadFromDisk(pindex)`, with what the caller does when it fails. -/
def readBlock (pindex : CBlockIndex) (msg : String) : NodeM CBlock := reads fun s ↦
  match P.readFromDisk w s.files pindex with
  | none => reject 0 msg
  | some block => .ok block

variable {P w} in
theorem readBlock_eq_ok {pindex : CBlockIndex} {msg : String} {s s₁ : NodeState} {block : CBlock} :
    readBlock P w pindex msg s = .ok block s₁ ↔
      P.readFromDisk w s.files pindex = some block ∧ s₁ = s := by
  rw [readBlock, reads_eq_ok]
  cases P.readFromDisk w s.files pindex <;> simp [reject]

variable {P w} in
theorem readBlock_of_none {pindex : CBlockIndex} {msg : String} {s : NodeState}
    (h : P.readFromDisk w s.files pindex = none) :
    readBlock P w pindex msg s = .error (.rejected 0 msg) s := by
  refine reads_of_error ?_
  rw [h]
  rfl

/-! ## Reorganize -/

/-- The loop of `Reorganize` over the blocks to disconnect, the newest first.  `vResurrect` are
the transactions to resurrect so far. -/
def disconnectBranch : List CBlockIndex → List CTransaction → NodeM (List CTransaction)
  | [], vResurrect => pure vResurrect
  | pindex :: vDisconnect, vResurrect => do
    let block ← readBlock P w pindex "Reorganize() : ReadFromDisk for disconnect failed"
    disconnectBlock w P block pindex
    let loose := block.vtx.filter fun tx ↦
      ¬ (tx.isCoinBase ∨ tx.isCoinStake) ∧ pindex.nHeight > P.getTotalBlocksEstimate
    disconnectBranch vDisconnect (loose ++ vResurrect)

/-- The loop of `Reorganize` over the blocks to connect, the oldest first.  `vDelete` are their
transactions so far. -/
def connectBranch : List CBlockIndex → List CTransaction → NodeM (List CTransaction)
  | [], vDelete => pure vDelete
  | pindex :: vConnect, vDelete => do
    let block ← readBlock P w pindex "Reorganize() : ReadFromDisk for connect failed"
    connectBlock w P block pindex false
    connectBranch vConnect (vDelete ++ block.vtx)

/-- `if (pindex->pprev) pindex->pprev->pnext = next;` -/
def setPnext (pindex : CBlockIndex) (next : Option CBlockIndex) : NodeM Unit :=
  assign fun s ↦
    match pindex.pprev with
    | none => s
    | some pprev => { s with pnext := Function.update s.pnext pprev next }

/-- `AcceptToMemoryPool(mempool, tx, false, NULL)`, whether it is accepted or not. -/
def resurrect (tx : CTransaction) : NodeM Unit := fun s ↦
  match acceptToMemoryPool P w s tx false with
  | .ok s' => .ok () s'
  | .error (.rejected _ _) => .ok () s
  | .error (.thrown msg) => .error (.thrown msg) s

/-- The end of `Reorganize`: memory follows the committed switch. -/
def followSwitch (vDisconnect vConnect : List CBlockIndex)
    (vResurrect vDelete : List CTransaction) : NodeM Unit := do
  forEach (fun pindex ↦ setPnext pindex none) vDisconnect
  forEach (fun pindex ↦ setPnext pindex (some pindex)) vConnect
  forEach (resurrect P w) vResurrect
  forEach (fun tx ↦ assign fun s ↦
    { s with mempool := (s.mempool.remove P tx false).removeConflicts P tx }) vDelete

/-- The fork that `Reorganize` finds from the best block to `pindexNew`. -/
def NodeState.findFork (s : NodeState) (pindexNew : CBlockIndex) :
    Except Fault (CBlockIndex × CBlockIndex) :=
  match s.pindexBest with
  | none => .error (.thrown "pindexBest->nHeight")
  | some pindexBest =>
    match Node.findFork pindexBest pindexNew with
    | none => reject 0 "Reorganize() : pfork->pprev is null"
    | some pfork => .ok (pindexBest, pfork)

/-- `Reorganize` -/
def reorganize (pindexNew : CBlockIndex) : NodeM Unit := do
  let (pindexBest, pfork) ← reads fun s ↦ s.findFork pindexNew
  let vDisconnect := Node.above pfork pindexBest
  let vConnect := (Node.above pfork pindexNew).reverse
  let vResurrect ← disconnectBranch P w vDisconnect []
  let vDelete ← connectBranch P w vConnect []
  writeHashBestChain w pindexNew.getBlockHash "Reorganize() : WriteHashBestChain failed"
  txnCommit (w.commitOk pindexNew.getBlockHash) "Reorganize() : TxnCommit failed"
  followSwitch P w vDisconnect vConnect vResurrect vDelete

/-! ## SetBestChainInner -/

/-- `CBlock::SetBestChainInner` -/
def setBestChainInner (block : CBlock) (pindexNew : CBlockIndex) : NodeM Unit := do
  let hash := P.blockHash block.toCBlockHeader
  -- adding to current best branch
  let connected ← succeeds do
    connectBlock w P block pindexNew false
    writeHashBestChain w hash ""
  if connected then do
    txnCommit (w.commitOk hash) "SetBestChain() : TxnCommit failed"
    setPnext pindexNew (some pindexNew)
    -- delete redundant memory transactions
    forEach (fun tx ↦ assign fun s ↦ { s with mempool := s.mempool.remove P tx false }) block.vtx
  else do
    txnAbort
    invalidChainFound w pindexNew
    fail 0 ""

/-! ## SetBestChain -/

/-- The first block that makes the new chain the best one, and the blocks after it that are
connected later, the newest first. -/
def postpone (nTrustBest : UInt256) : CBlockIndex → CBlockIndex × List CBlockIndex
  | .root e => (.root e, [])
  | .child e p =>
    if nTrustBest < CBlockIndex.nChainTrust p then
      let (pindexIntermediate, vpindexSecondary) := postpone nTrustBest p
      (pindexIntermediate, .child e p :: vpindexSecondary)
    else (.child e p, [])

/-- One round of the loop over the postponed blocks. -/
def connectPostponed (pindex : CBlockIndex) : NodeM Unit := do
  let block ← readBlock P w pindex "SetBestChain() : ReadFromDisk failed"
  txnBegin
  setBestChainInner P w block pindex

/-- The loop over the postponed blocks, the oldest first; the first failure ends it. -/
def connectSecondary : List CBlockIndex → NodeM Unit
  | [] => pure ()
  | pindex :: vpindexSecondary => do
    let connected ← succeeds (connectPostponed P w pindex)
    if connected then connectSecondary vpindexSecondary else pure ()

/-- New best block. -/
def setTip (pindexNew : CBlockIndex) (hash : UInt256) : NodeM Unit :=
  assign fun s ↦ { s with
    hashBestChain := hash
    pindexBest := some pindexNew
    pblockindexFBBHLast := none
    nBestHeight := pindexNew.nHeight
    nBestChainTrust := pindexNew.nChainTrust
    mempool := s.mempool.addTransactionsUpdated 1 }

/-- The first branch of `SetBestChain`: the genesis block is not connected. -/
def setGenesis (pindexNew : CBlockIndex) (hash : UInt256) : NodeM Unit := do
  writeHashBestChain w hash ""
  txnCommit (w.commitOk hash) "SetBestChain() : TxnCommit failed"
  assign fun s ↦ { s with pindexGenesisBlock := some pindexNew }

/-- The last branch of `SetBestChain`: switch to another branch. -/
def switchBranch (pindexNew : CBlockIndex) : NodeM Unit := do
  let (pindexIntermediate, vpindexSecondary) ← reads fun s ↦
    match s.pindexBest with
    | none => .error (.thrown "pindexBest->nChainTrust")
    | some pindexBest => .ok (postpone pindexBest.nChainTrust pindexNew)
  let reorganized ← succeeds (reorganize P w pindexIntermediate)
  if reorganized then connectSecondary P w vpindexSecondary.reverse
  else do
    txnAbort
    invalidChainFound w pindexNew
    fail 0 "SetBestChain() : Reorganize failed"

/-- The extension branch of `SetBestChain`. -/
def extendTip (block : CBlock) (pindexNew : CBlockIndex) : NodeM Unit := do
  let extended ← succeeds (setBestChainInner P w block pindexNew)
  if extended then pure () else fail 0 "SetBestChain() : SetBestChainInner failed"

/-- The three branches of `SetBestChain`. -/
def connectBest (block : CBlock) (pindexNew : CBlockIndex) : NodeM Unit := fun s ↦
  if s.pindexGenesisBlock = none ∧ P.blockHash block.toCBlockHeader = P.hashGenesisBlock then
    setGenesis w pindexNew (P.blockHash block.toCBlockHeader) s
  else if block.hashPrevBlock = s.hashBestChain then extendTip P w block pindexNew s
  else switchBranch P w pindexNew s

/-- `CBlock::SetBestChain` -/
def setBestChain (block : CBlock) (pindexNew : CBlockIndex) : NodeM Unit := do
  txnBegin
  connectBest P w block pindexNew
  setTip pindexNew (P.blockHash block.toCBlockHeader)

end

end Bws
