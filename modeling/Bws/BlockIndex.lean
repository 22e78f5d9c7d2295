import Bws.Core
import Bws.Lib.Chain

/-!
# The block index

`CBlockIndex` and what the source computes on it.  An entry of the index is never changed in
the fields below once `AddToBlockIndex` has made it, and its `pprev` never either; so an entry
is the chain of entries back to the first one, and a pointer to it is that chain.  What the
source does change later (`pnext`, `nMint`, `nMoneySupply`) is kept by the node, not here.

`nHeight` is the length of the chain below and `nChainTrust` a sum over it, as
`AddToBlockIndex` and `LoadBlockIndex` compute them.
-/

namespace Bws

open Chain (Node)
open Chain.Node

/-! ## Compact targets -/

/-- The integer that `CBigNum::SetCompact` reads from `nCompact`. -/
def setCompact (nCompact : ℕ) : ℤ :=
  let nSize := nCompact >>> 24
  let nWord := nCompact &&& 0x007fffff
  let n : ℕ := if nSize ≤ 3 then nWord >>> (8 * (3 - nSize)) else nWord <<< (8 * (nSize - 3))
  if nSize ≠ 0 ∧ nCompact &&& 0x00800000 ≠ 0 then -n else n

/-- The number of bytes that `BN_bn2mpi` writes for `n`: the first bit is left for the sign. -/
def mpiSize (n : ℕ) : ℕ := if n = 0 then 0 else (Nat.log2 n + 1) / 8 + 1

/-- `CBigNum::GetCompact` -/
def getCompact (x : ℤ) : ℕ :=
  let n := x.natAbs
  let nSize := mpiSize n
  let nWord := if nSize ≤ 3 then n <<< (8 * (3 - nSize)) else n >>> (8 * (nSize - 3))
  (nSize <<< 24) ||| (if x < 0 then nWord ||| 0x00800000 else nWord)

/-! ## Entries -/

/-- The fields of `CBlockIndex` that stay as they are. -/
structure CBlockEntry where
  /-- `*phashBlock` -/
  hash : UInt256
  nFile : ℕ
  nBlockPos : ℕ
  nFlags : ℕ
  nStakeModifier : UInt256
  prevoutStake : COutPoint
  nStakeTime : ℕ
  hashProof : UInt256
  nVersion : ℤ
  hashMerkleRoot : UInt256
  nTime : ℕ
  nBits : ℕ
  nNonce : ℕ
deriving DecidableEq, Repr

def BLOCK_PROOF_OF_STAKE : ℕ := 1
def BLOCK_STAKE_ENTROPY : ℕ := 2
def BLOCK_STAKE_MODIFIER : ℕ := 4

abbrev CBlockIndex := Node CBlockEntry

namespace CBlockIndex

abbrev pprev (pindex : CBlockIndex) : Option CBlockIndex := pindex.parent?
abbrev nHeight (pindex : CBlockIndex) : ℕ := pindex.height
def getBlockHash (pindex : CBlockIndex) : UInt256 := pindex.val.hash
def getBlockTime (pindex : CBlockIndex) : ℤ := pindex.val.nTime
def nBits (pindex : CBlockIndex) : ℕ := pindex.val.nBits

def isProofOfStake (pindex : CBlockIndex) : Prop :=
  pindex.val.nFlags &&& BLOCK_PROOF_OF_STAKE ≠ 0

instance (pindex : CBlockIndex) : Decidable pindex.isProofOfStake :=
  inferInstanceAs (Decidable (_ ≠ _))

def getPastTimeLimit (pindex : CBlockIndex) : ℤ := pindex.getBlockTime

/-- `CBlockIndex::GetBlockTrust` -/
def getBlockTrust (pindex : CBlockIndex) : UInt256 :=
  let bnTarget := setCompact pindex.nBits
  if bnTarget ≤ 0 then 0 else (2 ^ 256 / (bnTarget + 1)).toNat % 2 ^ 256

/-- `nChainTrust`: the sum of the block trusts down to the first block, in 256 bits. -/
def nChainTrust : CBlockIndex → UInt256
  | .root e => getBlockTrust (.root e)
  | .child e p => (nChainTrust p + getBlockTrust (.child e p)) % 2 ^ 256

/-- The header that an entry stands for, `GetBlockHeader`. -/
def getBlockHeader (pindex : CBlockIndex) : CBlockHeader where
  nVersion := pindex.val.nVersion
  hashPrevBlock := (pindex.pprev.map getBlockHash).getD 0
  hashMerkleRoot := pindex.val.hashMerkleRoot
  nTime := pindex.val.nTime
  nBits := pindex.val.nBits
  nNonce := pindex.val.nNonce

end CBlockIndex

open CBlockIndex

/-- The loop of `IsConfirmedInNPrevBlocks` from an entry on; `nHeightFrom` is the height of
the entry it started at. -/
def isConfirmedFrom (nFile nBlockPos nHeightFrom nMaxDepth : ℕ) : CBlockIndex → Option ℕ
  | .root e =>
    if nHeightFrom < nMaxDepth ∧ e.nBlockPos = nBlockPos ∧ e.nFile = nFile then
      some nHeightFrom
    else none
  | .child e p =>
    if nHeightFrom - (child e p).height < nMaxDepth then
      if e.nBlockPos = nBlockPos ∧ e.nFile = nFile then some (nHeightFrom - (child e p).height)
      else isConfirmedFrom nFile nBlockPos nHeightFrom nMaxDepth p
    else none

/-- `IsConfirmedInNPrevBlocks` for a transaction whose block is at `(nFile, nBlockPos)`: the
depth of that block below `pindexFrom`, when it is less than `nMaxDepth`. -/
def isConfirmedInNPrevBlocks (nFile nBlockPos : ℕ) (pindexFrom : CBlockIndex) (nMaxDepth : ℕ) :
    Option ℕ :=
  isConfirmedFrom nFile nBlockPos pindexFrom.nHeight nMaxDepth pindexFrom

/-! ## The next target -/

/-- `~uint256(0) >> 20` -/
def bnProofOfStakeLimit : ℤ := (2 ^ 256 - 1) / 2 ^ 20

def nTargetTimespan : ℤ := 16 * 60

/-- `GetLastBlockIndex` -/
def getLastBlockIndex (fProofOfStake : Bool) : CBlockIndex → CBlockIndex
  | .root e => .root e
  | .child e p =>
    if decide (isProofOfStake (child e p)) ≠ fProofOfStake then getLastBlockIndex fProofOfStake p
    else .child e p

/-- The target after a block `pindexPrev` whose previous block of the same type is
`pindexPrevPrev`. -/
def nextTarget (bnTargetLimit : ℤ) (pindexPrev pindexPrevPrev : CBlockIndex) : ℕ :=
  let nTargetSpacing := getTargetSpacing
  let nActualSpacing := pindexPrev.getBlockTime - pindexPrevPrev.getBlockTime
  let nActualSpacing :=
    if nActualSpacing > nTargetSpacing * 10 then nTargetSpacing * 10 else nActualSpacing
  let nInterval := nTargetTimespan / nTargetSpacing
  let bnNew := setCompact pindexPrev.nBits *
    ((nInterval - 1) * nTargetSpacing + nActualSpacing + nActualSpacing)
  let bnNew := bnNew.tdiv ((nInterval + 1) * nTargetSpacing)
  getCompact (if bnNew ≤ 0 ∨ bnNew > bnTargetLimit then bnTargetLimit else bnNew)

/-- `GetNextTargetRequired`, the limit of the block type given. -/
def getNextTargetRequired (bnTargetLimit : ℤ) (pindexLast : CBlockIndex) (fProofOfStake : Bool) :
    ℕ :=
  let pindexPrev := getLastBlockIndex fProofOfStake pindexLast
  match pindexPrev.pprev with
  | none => getCompact bnTargetLimit -- first block
  | some p =>
    let pindexPrevPrev := getLastBlockIndex fProofOfStake p
    match pindexPrevPrev.pprev with
    | none => getCompact bnTargetLimit -- second block
    | some _ => nextTarget bnTargetLimit pindexPrev pindexPrevPrev

/-! ## Checkpoints -/

def nCheckpointSpan : ℕ := 500

/-- The loop of `AutoSelectSyncCheckpoint`; `nHeightBest` is the height of the best block. -/
def syncCheckpointFrom (nHeightBest : ℕ) : CBlockIndex → CBlockIndex
  | .root e => .root e
  | .child e p =>
    if nHeightBest < (child e p).height + nCheckpointSpan then syncCheckpointFrom nHeightBest p
    else .child e p

/-- `Checkpoints::AutoSelectSyncCheckpoint` -/
def autoSelectSyncCheckpoint (pindexBest : CBlockIndex) : CBlockIndex :=
  syncCheckpointFrom pindexBest.nHeight pindexBest

/-- `Checkpoints::CheckSync` -/
def checkSync (pindexBest : CBlockIndex) (nHeight : ℕ) : Prop :=
  (autoSelectSyncCheckpoint pindexBest).nHeight < nHeight

instance (pindexBest : CBlockIndex) (nHeight : ℕ) : Decidable (checkSync pindexBest nHeight) :=
  inferInstanceAs (Decidable (_ < _))

end Bws
