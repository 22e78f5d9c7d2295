import Bws.BestChain

/-!
# Accepting a block

`AddToBlockIndex` and `AcceptBlock`, and the runs of a node that they make up: the genesis
block is added to an empty node, and after that any blocks and loose transactions come in, in
any order, whatever becomes of each.
-/

namespace Bws

open NodeM

section

variable (P : Params) (w : World)

/-! ## AddToBlockIndex -/

/-- The fields of the new entry for a block at a position. -/
def newBlockEntry (block : CBlock) (nFile nBlockPos : ℕ) (hashProof : UInt256)
    (pprev : Option CBlockIndex) (fGeneratedStakeModifier : Bool) : CBlockEntry where
  hash := P.blockHash block.toCBlockHeader
  nFile := nFile
  nBlockPos := nBlockPos
  nFlags :=
    (if block.isProofOfStake then BLOCK_PROOF_OF_STAKE else 0) |||
      (if P.blockHash block.toCBlockHeader % 2 = 1 then BLOCK_STAKE_ENTROPY else 0) |||
      (if fGeneratedStakeModifier then BLOCK_STAKE_MODIFIER else 0)
  nStakeModifier :=
    match pprev with
    | none => 0
    | some pprev =>
      P.hashModifier
        (if block.isProofOfStake then block.getProofOfStake.1.hash
          else P.blockHash block.toCBlockHeader)
        pprev.val.nStakeModifier
  prevoutStake := block.getProofOfStake.1
  nStakeTime := block.getProofOfStake.2
  hashProof := hashProof
  nVersion := block.nVersion
  hashMerkleRoot := block.hashMerkleRoot
  nTime := block.nTime
  nBits := block.nBits
  nNonce := block.nNonce

/-- The new entry, on top of the entry of the previous block when there is one. -/
def newBlockIndex (s : NodeState) (block : CBlock) (nFile nBlockPos : ℕ) (hashProof : UInt256) :
    Except Fault CBlockIndex := do
  let hash := P.blockHash block.toCBlockHeader
  rejectIf (s.mapBlockIndex hash).isSome 0 "AddToBlockIndex() : %s already exists"
  let pprev := s.mapBlockIndex block.hashPrevBlock
  match P.computeNextStakeModifier pprev with
  | none => reject 0 "AddToBlockIndex() : ComputeNextStakeModifier() failed"
  | some (_, fGeneratedStakeModifier) =>
    let entry := newBlockEntry P block nFile nBlockPos hashProof pprev fGeneratedStakeModifier
    match pprev with
    | none => .ok (.root entry)
    | some pprev => .ok (.child entry pprev)

/-- The entry is in the index from here on; its `pnext`, `nMint` and `nMoneySupply` are as
`CBlockIndex` is constructed. -/
def NodeState.addIndex (s : NodeState) (pindexNew : CBlockIndex) : NodeState :=
  { s with
    mapBlockIndex := Function.update s.mapBlockIndex pindexNew.getBlockHash (some pindexNew)
    setStakeSeen :=
      if pindexNew.isProofOfStake then
        (pindexNew.val.prevoutStake, pindexNew.val.nStakeTime) :: s.setStakeSeen
      else s.setStakeSeen
    pnext := Function.update s.pnext pindexNew none
    nMint := Function.update s.nMint pindexNew 0
    nMoneySupply := Function.update s.nMoneySupply pindexNew 0 }

/-- A `CTxDB` object of its own: the batch is gone when `x` is left, however it is left. -/
def withTxDB (x : NodeM Unit) : NodeM Unit := fun s ↦
  Exec.mapState (fun s ↦ { s with txdb := s.txdb.fresh }) (x { s with txdb := s.txdb.fresh })

/-- New best: the node switches to a chain with more trust. -/
def setIfBest (block : CBlock) (pindexNew : CBlockIndex) : NodeM Unit := fun s ↦
  if s.nBestChainTrust < pindexNew.nChainTrust then setBestChain P w block pindexNew s
  else .ok () s

/-- The part of `AddToBlockIndex` that uses the database. -/
def enterBlock (block : CBlock) (pindexNew : CBlockIndex) : NodeM Unit := do
  txnBegin
  writeBlockIndex w P pindexNew id ""
  txnCommit w.commitIndexOk ""
  setIfBest P w block pindexNew

/-- `CBlock::AddToBlockIndex` -/
def addToBlockIndex (block : CBlock) (nFile nBlockPos : ℕ) (hashProof : UInt256) : NodeM Unit := do
  let pindexNew ← reads fun s ↦ newBlockIndex P s block nFile nBlockPos hashProof
  assign fun s ↦ s.addIndex pindexNew
  withTxDB (enterBlock P w block pindexNew)

/-! ## AcceptBlock -/

/-- The proof hash of a block; a proof of stake is verified here, a proof of work has been in
`CheckBlock`. -/
def proofHash (s : NodeState) (pindexPrev : CBlockIndex) (block : CBlock) :
    Except Fault UInt256 :=
  if block.isProofOfStake then
    withText "AcceptBlock() : check proof-of-stake failed for block %s"
      (match block.vtx[1]? with
      | none => .error (.thrown "vtx[1]")
      | some tx => dropScore
        (checkProofOfStake P w s.files s.txdb.fresh.readTxIndex pindexPrev tx block.nBits))
  else .ok (P.scryptBlockhash block.toCBlockHeader)

/-- The checks of `AcceptBlock`, with the proof hash. -/
def checkAccept (s : NodeState) (block : CBlock) : Except Fault UInt256 := do
  let hash := P.blockHash block.toCBlockHeader
  rejectIf (block.nVersion > CBlock.CURRENT_VERSION) 100
    "AcceptBlock() : reject unknown block version %d"
  rejectIf (s.mapBlockIndex hash).isSome 0 "AcceptBlock() : block already in mapBlockIndex"
  match s.mapBlockIndex block.hashPrevBlock, s.pindexBest, block.vtx[0]? with
  | none, _, _ => reject 10 "AcceptBlock() : prev block not found"
  | some _, none, _ => .error (.thrown "pindexBest->nHeight")
  | some _, some _, none => .error (.thrown "vtx[0]")
  | some pindexPrev, some pindexBest, some coinbase => do
    let nHeight := pindexPrev.nHeight + 1
    rejectIf (block.nVersion < 7) 100 "AcceptBlock() : reject too old nVersion = %d"
    rejectIf (block.isProofOfWork ∧ P.lastPOWBlock < nHeight) 100
      "AcceptBlock() : reject proof-of-work at height %d"
    rejectIf ((block.nTime : ℤ) > futureDrift coinbase.nTime) 50
      "AcceptBlock() : coinbase timestamp is too early"
    rejectIf (block.isProofOfStake ∧
        ¬ ∃ tx ∈ block.vtx[1]?, checkCoinStakeTimestamp block.nTime tx.nTime) 50
      "AcceptBlock() : coinstake timestamp violation nTimeBlock=%d nTimeTx=%u"
    rejectIf (block.nBits ≠ getNextTargetRequired
        (if block.isProofOfStake then bnProofOfStakeLimit else P.proofOfWorkLimit) pindexPrev
        (decide block.isProofOfStake)) 100
      "AcceptBlock() : incorrect %s"
    rejectIf ((block.nTime : ℤ) ≤ pindexPrev.getPastTimeLimit ∨
        futureDrift block.nTime < pindexPrev.getBlockTime) 0
      "AcceptBlock() : block's timestamp is too early"
    rejectIf (∃ tx ∈ block.vtx,
        ¬ isFinalTx s.nBestHeight w.nAdjustedTime tx nHeight block.nTime) 10
      "AcceptBlock() : contains a non-final transaction"
    rejectIf (¬ P.checkHardened nHeight hash) 100
      "AcceptBlock() : rejected by hardened checkpoint lock-in at %d"
    let hashProof ← proofHash P w s pindexPrev block
    rejectIf (¬ checkSync pindexBest nHeight) 0
      "AcceptBlock() : rejected by synchronized checkpoint"
    -- the coinbase starts with the serialized block height
    rejectIf (¬ ∃ txin ∈ coinbase.vin[0]?, scriptHeight nHeight <+: txin.scriptSig) 100
      "AcceptBlock() : block height mismatch in coinbase"
    .ok hashProof

/-- `CBlock::WriteToDisk`, with the position of the block. -/
def writeToDisk (block : CBlock) : NodeM ℕ := fun s ↦
  if w.appendOk then
    let (files, nBlockPos) := s.files.writeToDisk w.nFile block
    .ok nBlockPos { s with files }
  else .error (.rejected 0 "AcceptBlock() : WriteToDisk failed") s

/-- `CBlock::AcceptBlock` -/
def acceptBlock (block : CBlock) : NodeM Unit := do
  let hashProof ← reads fun s ↦ checkAccept P w s block
  let nBlockPos ← writeToDisk w block
  addToBlockIndex P w block w.nFile nBlockPos hashProof

/-- The genesis block is written and added as `LoadBlockIndex` does on an empty database. -/
def addGenesis (genesis : CBlock) : NodeM Unit := do
  let nBlockPos ← writeToDisk w genesis
  addToBlockIndex P w genesis w.nFile nBlockPos P.hashGenesisBlock

end

/-! ## Runs -/

/-- What comes in from outside. -/
inductive Input where
  | block (block : CBlock)
  | tx (tx : CTransaction) (fLimitFree : Bool)

/-- The node after an input, whatever became of it. -/
def NodeState.step (P : Params) (s : NodeState) (w : World) : Input → NodeState
  | .block block => Exec.final (acceptBlock P w block s)
  | .tx tx fLimitFree => (acceptToMemoryPool P w s tx fLimitFree).toOption.getD s

/-- A run of a node from the genesis block on, once that is the best block: the states it has
been in, the newest first, and the state it is in.  `Good` is asked of each step:
of the earlier states, the state, and what comes in. -/
inductive Run (P : Params) (genesis : CBlock)
    (Good : List NodeState → NodeState → World → Input → Prop) :
    List NodeState → NodeState → Prop where
  | start {w : World} {s : NodeState}
      (hash : P.blockHash genesis.toCBlockHeader = P.hashGenesisBlock)
      (vtx : genesis.vtx ≠ [])
      (h : addGenesis P w genesis .init = .ok () s)
      (best : s.pindexBest.isSome) : Run P genesis Good [] s
  | step {past : List NodeState} {s : NodeState} (h : Run P genesis Good past s) (w : World)
      (i : Input) (good : Good past s w i) : Run P genesis Good (s :: past) (s.step P w i)

/-- The states of a node that started with the genesis block. -/
def Reachable (P : Params) (genesis : CBlock) (s : NodeState) : Prop :=
  ∃ past, Run P genesis (fun _ _ _ _ ↦ True) past s

/-! ## A chain to run the model on

Parameters with hashes that can be told apart at a glance, the largest target, and blocks that
contain a coinbase and what is put in besides. -/

namespace Sample

def params : Params where
  testNet := true
  hashGenesisBlock := 1
  proofOfWorkLimit := (2 ^ 256 - 1) / 2 ^ 16
  lastPOWBlock := 0x7fffffff
  getHash tx := 1000 * tx.nTime + tx.nLockTime + 1
  hashHeader header := 1000 * header.nTime + header.nNonce + 1
  scryptBlockhash _ := 0
  hashPair a b := a + b
  hashKernel _ _ _ _ := 0
  hashModifier _ _ := 0
  computeNextStakeModifier _ := some (0, false)
  getSigOpCount _ := 0
  getSigOpCountP2SH _ _ := 0
  verifySignature _ _ _ _ := true
  isPushOnly _ := true
  hasCanonicalPushes _ := true
  isStandard _ := some false
  areInputsStandard _ _ := true
  extractAddress _ := ""
  checkBlockSignature _ := true
  bytePastEnd _ := 0

/-- A machine on which every call succeeds. -/
def world : World where
  nAdjustedTime := 1000000
  readable _ _ := true
  commitOk _ := true
  commitIndexOk := true
  putOk := true
  appendOk := true
  nFile := ⟨1, by decide⟩

/-- The coinbase of a block at height `nHeight`; `tag` tells it from others of that height. -/
def coinbase (nHeight : ℕ) (nValue : ℤ) (tag : ℕ) : CTransaction where
  nVersion := 1
  nTime := 120 * nHeight
  vin := [⟨.null, scriptHeight nHeight ++ [0, 0], uintMax⟩]
  vout := [⟨nValue, [0, 0]⟩]
  nLockTime := tag

/-- The block at height `nHeight` on top of the block `hashPrevBlock`. -/
def block (nHeight : ℕ) (hashPrevBlock : UInt256) (nValue : ℤ) (tag : ℕ)
    (vtx : List CTransaction) : CBlock where
  nVersion := 7
  hashPrevBlock := hashPrevBlock
  hashMerkleRoot :=
    CBlock.buildMerkleTree params ⟨⟨0, 0, 0, 0, 0, 0⟩, coinbase nHeight nValue tag :: vtx, []⟩
  nTime := 120 * nHeight
  nBits := getCompact params.proofOfWorkLimit
  nNonce := tag
  vtx := coinbase nHeight nValue tag :: vtx
  vchBlockSig := []

def genesis : CBlock := block 0 0 0 0 []

/-- The node that has just started. -/
def start : NodeState := Exec.final (addGenesis params world genesis .init)

example : (start.hashBestChain, start.nBestHeight) = (1, 0) := by decide +kernel

/-- The entry that `AddToBlockIndex` makes for a block. -/
def indexOf (s : NodeState) (block : CBlock) : CBlockIndex :=
  match newBlockIndex params s block 1 (s.files.fileEnd 1 + 8) 0 with
  | .ok pindexNew => pindexNew
  | .error _ => .root (newBlockEntry params block 1 0 0 none false)

example : Exec.error? (acceptBlock params world (block 1 1 0 0 []) start) = none := by
  decide +kernel

end Sample

end Bws
