import Bws.BlockFiles

/-!
# What the code is run with

`Params` collects the chain parameters and the parts of the program that are not embedded:
the hash functions, the script interpreter and the choice of stake modifiers.  Nothing is
assumed of them here; a result that needs an assumption (that hashes do not collide, say)
makes it itself.

`World` is what the machine answers while one call runs: the clock, and which reads and writes
of the disk succeed.
-/

namespace Bws

/-- Chain parameters, and the functions that are not embedded. -/
structure Params where
  /-- `TestNet()` -/
  testNet : Bool
  hashGenesisBlock : UInt256
  proofOfWorkLimit : ℤ
  lastPOWBlock : ℕ
  /-- `CTransaction::GetHash` -/
  getHash : CTransaction → UInt256
  /-- `Hash(BEGIN(nVersion), END(nNonce))` -/
  hashHeader : CBlockHeader → UInt256
  /-- `scrypt_blockhash` -/
  scryptBlockhash : CBlockHeader → UInt256
  /-- `Hash` of two nodes of the Merkle tree -/
  hashPair : UInt256 → UInt256 → UInt256
  /-- the kernel hash of `CheckStakeKernelHashV2`: stake modifier, time of the previous
  transaction, staked outpoint, time of the coinstake -/
  hashKernel : UInt256 → ℕ → COutPoint → ℕ → UInt256
  /-- the hash of `ComputeStakeModifierV2`: kernel, previous modifier -/
  hashModifier : UInt256 → UInt256 → UInt256
  /-- `ComputeNextStakeModifier`: the modifier, and whether it was generated -/
  computeNextStakeModifier : Option CBlockIndex → Option (UInt256 × Bool)
  /-- `GetSigOpCount(false)` -/
  getSigOpCount : CScript → ℕ
  /-- `scriptPubKey.GetSigOpCount(scriptSig)` for a pay-to-script-hash `scriptPubKey` -/
  getSigOpCountP2SH : CScript → CScript → ℕ
  /-- `VerifySignature(txFrom, txTo, nIn, flags, 0)` -/
  verifySignature : CTransaction → CTransaction → ℕ → ℕ → Bool
  isPushOnly : CScript → Bool
  hasCanonicalPushes : CScript → Bool
  /-- `IsStandard`; `some true` for `TX_NULL_DATA` -/
  isStandard : CScript → Option Bool
  /-- `AreInputsStandard`, given the outputs that are spent -/
  areInputsStandard : CTransaction → List CTxOut → Bool
  /-- the address of a script as text, `CBitcoinAddress(ExtractDestination(..)).ToString()` -/
  extractAddress : CScript → String
  /-- `CheckBlockSignature` -/
  checkBlockSignature : CBlock → Bool
  /-- the byte found one past the last of a script of fewer than two bytes -/
  bytePastEnd : CScript → UInt8

/-- What the machine answers during one call. -/
structure World where
  /-- `GetAdjustedTime()` -/
  nAdjustedTime : ℤ
  /-- whether reading at a position of a file succeeds -/
  readable : ℕ → ℕ → Bool
  /-- whether LevelDB commits the batch that makes this block the best one -/
  commitOk : UInt256 → Bool
  /-- whether LevelDB commits the batch of `AddToBlockIndex` -/
  commitIndexOk : Bool
  /-- whether LevelDB executes a write outside a batch -/
  putOk : Bool
  /-- whether there is space on the disk and `WriteToDisk` succeeds -/
  appendOk : Bool
  /-- the file that `AppendBlockFile` opens -/
  nFile : Fin uintMax

namespace Params

variable (P : Params)

def nStakeMinAge : ℕ := if P.testNet then 600 else 6 * 60 * 60

/-- `CBlock::GetHash` -/
def blockHash (header : CBlockHeader) : UInt256 :=
  if header.nVersion > 6 then P.hashHeader header else P.scryptBlockhash header

/-- The hash that `CDiskBlockIndex::GetBlockHash` computes for its key. -/
def diskHash (diskindex : CDiskBlockIndex) : UInt256 :=
  P.blockHash
    { nVersion := diskindex.entry.nVersion
      hashPrevBlock := diskindex.hashPrev
      hashMerkleRoot := diskindex.entry.hashMerkleRoot
      nTime := diskindex.entry.nTime
      nBits := diskindex.entry.nBits
      nNonce := diskindex.entry.nNonce }

/-! ## Hardened checkpoints -/

/-- `mapCheckpoints` and `mapCheckpointsTestnet` -/
def mapCheckpoints : List (ℕ × UInt256) :=
  if P.testNet then []
  else [(0, 0x00000198707c071cdb39cc8332eccfe889013ad88b65a63673672b0bda8177e7)]

/-- `Checkpoints::CheckHardened` -/
def checkHardened (nHeight : ℕ) (hash : UInt256) : Prop :=
  ∀ i ∈ P.mapCheckpoints, i.1 = nHeight → i.2 = hash

instance (nHeight : ℕ) (hash : UInt256) : Decidable (P.checkHardened nHeight hash) :=
  inferInstanceAs (Decidable (∀ _ ∈ _, _))

/-- `Checkpoints::GetTotalBlocksEstimate` -/
def getTotalBlocksEstimate : ℕ := (P.mapCheckpoints.getLast?.map Prod.fst).getD 0

/-- Both networks estimate no blocks. -/
@[simp] theorem getTotalBlocksEstimate_eq : P.getTotalBlocksEstimate = 0 := by
  unfold getTotalBlocksEstimate mapCheckpoints
  split <;> rfl

/-! ## Proof of work -/

/-- `CheckProofOfWork` -/
def checkProofOfWork (hash : UInt256) (nBits : ℕ) : Prop :=
  let bnTarget := setCompact nBits
  0 < bnTarget ∧ bnTarget ≤ P.proofOfWorkLimit ∧ hash ≤ bnTarget.natAbs % 2 ^ 256

instance (hash : UInt256) (nBits : ℕ) : Decidable (P.checkProofOfWork hash nBits) :=
  inferInstanceAs (Decidable (_ ∧ _))

/-! ## Reading blocks and transactions back -/

/-- `CBlock::ReadFromDisk(nFile, nBlockPos, true)` -/
def readBlockAt (w : World) (files : BlockFiles) (nFile nBlockPos : ℕ) : Option CBlock :=
  if w.readable nFile nBlockPos then
    match files.blockAt nFile nBlockPos with
    | none => none
    | some block =>
      if block.isProofOfWork ∧ ¬ P.checkProofOfWork (P.scryptBlockhash block.toCBlockHeader)
        block.nBits
      then none else some block
  else none

/-- `CBlock::ReadFromDisk(pindex)` -/
def readFromDisk (w : World) (files : BlockFiles) (pindex : CBlockIndex) : Option CBlock :=
  match P.readBlockAt w files pindex.val.nFile pindex.val.nBlockPos with
  | none => none
  | some block =>
    if P.blockHash block.toCBlockHeader ≠ pindex.getBlockHash then none else some block

theorem readFromDisk_eq_some {w : World} {files : BlockFiles} {pindex : CBlockIndex}
    {block : CBlock} (h : P.readFromDisk w files pindex = some block) :
    files.blockAt pindex.val.nFile pindex.val.nBlockPos = some block ∧
      P.blockHash block.toCBlockHeader = pindex.getBlockHash := by
  unfold readFromDisk readBlockAt at h
  split at h
  · cases h
  · rename_i block' hb
    split at h
    · cases h
    · rename_i hhash
      cases h
      refine ⟨?_, not_not.mp hhash⟩
      split at hb
      · split at hb
        · cases hb
        · rename_i hat
          split at hb
          · cases hb
          · cases hb
            exact hat
      · cases hb

end Params

/-- `CBlock::ReadFromDisk(nFile, nBlockPos, false)` -/
def readHeaderAt (w : World) (files : BlockFiles) (nFile nBlockPos : ℕ) : Option CBlockHeader :=
  if w.readable nFile nBlockPos then (files.blockAt nFile nBlockPos).map CBlock.toCBlockHeader
  else none

/-- `CTransaction::ReadFromDisk(pos)` -/
def readTxAt (w : World) (files : BlockFiles) (pos : CDiskTxPos) : Option CTransaction :=
  if w.readable pos.nFile pos.nTxPos then files.txAt pos.nFile pos.nTxPos else none

end Bws
