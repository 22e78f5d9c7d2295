import Bws.Inputs

/-!
# Checking a block against the chain

The part of `ConnectBlock` before its first write: every transaction is connected, the changed
index entries are queued, and the reward is checked.  None of it changes anything outside the
function, so it is a function of what it reads; the writes follow in `Bws.Node`.
-/

namespace Bws

/-- The locals of `ConnectBlock` that its loop over the transactions changes. -/
structure BlockTotals where
  mapQueuedChanges : TxIndexMap
  nTxPos : ℕ
  nFees : ℤ
  nValueIn : ℤ
  nValueOut : ℤ
  nBurnCoins : ℕ
  nStakeReward : ℤ
  nSigOps : ℕ

/-- The locals before the loop. -/
def BlockTotals.init (nTxPos : ℕ) : BlockTotals where
  mapQueuedChanges := ∅
  nTxPos := nTxPos
  nFees := 0
  nValueIn := 0
  nValueOut := 0
  nBurnCoins := 0
  nStakeReward := 0
  nSigOps := 0

/-- `nTxPos` before the loop: with `fJustCheck` the position of a transaction in memory. -/
def firstTxPos (block : CBlock) (pindex : CBlockIndex) (fJustCheck : Bool) : ℕ :=
  if fJustCheck then 1 else block.firstTxPos pindex.val.nBlockPos

/-- `if (!tx.f()) return false;`: the score that `f` gives the transaction is not the block's. -/
def dropScore {α : Type} : Except Fault α → Except Fault α
  | .error (.rejected _ msg) => reject 0 msg
  | .error (.thrown msg) => .error (.thrown msg)
  | .ok a => .ok a

@[simp] theorem dropScore_eq_ok {α : Type} {x : Except Fault α} {a : α} :
    dropScore x = .ok a ↔ x = .ok a := by
  unfold dropScore reject
  split <;> simp

section

variable (P : Params) (V : TxView) (pindex : CBlockIndex) (fJustCheck : Bool)

/-- The position of the next transaction. -/
def BlockTotals.posThisTx (t : BlockTotals) : CDiskTxPos :=
  ⟨pindex.val.nFile, pindex.val.nBlockPos, t.nTxPos⟩

/-- The test for an older transaction with the same hash, and the count of signature operations
that needs no inputs: the head of the loop of `ConnectBlock`. -/
def checkOverwrite (nSigOps : ℕ) (tx : CTransaction) : Except Fault ℕ := do
  rejectIf (∃ txindexOld ∈ V.txIndex (P.getHash tx), ∃ pos ∈ txindexOld.vSpent, pos.isNull) 100
    "ConnectBlock() : tried to overwrite transaction"
  let nSigOps := nSigOps + getLegacySigOpCount P tx
  rejectIf (nSigOps > MAX_BLOCK_SIGOPS) 100 "ConnectBlock() : too many sigops"
  .ok nSigOps

/-- The sums that a transaction with inputs worth `nTxValueIn` is added to. -/
def BlockTotals.addValues (t : BlockTotals) (tx : CTransaction) (nTxValueIn nTxValueOut : ℤ) :
    BlockTotals :=
  { t with
    nValueIn := int64 (t.nValueIn + nTxValueIn)
    nValueOut := int64 (t.nValueOut + nTxValueOut)
    nFees := if tx.isCoinStake then t.nFees
      else int64 (t.nFees + int64 (nTxValueIn - nTxValueOut))
    nStakeReward := if tx.isCoinStake then int64 (nTxValueOut - nTxValueIn)
      else t.nStakeReward }

/-- The branch of the loop for a transaction with inputs. -/
def connectSpending (t : BlockTotals) (tx : CTransaction) : Except Fault BlockTotals := do
  let mapInputs ← dropScore (fetchInputs V t.mapQueuedChanges true false tx)
  let nP2SH ← getP2SHSigOpCount P mapInputs tx
  let nSigOps := t.nSigOps + nP2SH
  rejectIf (nSigOps > MAX_BLOCK_SIGOPS) 100 "ConnectBlock() : too many sigops"
  let nTxValueIn ← getValueIn mapInputs tx
  let nTxValueOut ← tx.getValueOut
  let t := t.addValues tx nTxValueIn nTxValueOut
  let (mapQueuedChanges, nBurnCoins) ← dropScore
    (connectInputs P V ⟨t.posThisTx pindex, true, false, connectBlockFlags⟩ (some pindex) tx mapInputs
      t.mapQueuedChanges t.nBurnCoins)
  .ok { t with mapQueuedChanges, nBurnCoins, nSigOps }

/-- The branch of the loop for a coinbase. -/
def connectCoinBase (t : BlockTotals) (tx : CTransaction) : Except Fault BlockTotals := do
  let nTxValueOut ← tx.getValueOut
  .ok { t with nValueOut := int64 (t.nValueOut + nTxValueOut) }

/-- The two branches of the loop. -/
def connectEither (t : BlockTotals) (tx : CTransaction) : Except Fault BlockTotals :=
  if tx.isCoinBase then connectCoinBase t tx else connectSpending P V pindex t tx

/-- One round of the loop of `ConnectBlock`. -/
def connectTx (t : BlockTotals) (tx : CTransaction) : Except Fault BlockTotals := do
  let nSigOps ← checkOverwrite P V t.nSigOps tx
  let t' ← connectEither P V pindex { t with nSigOps } tx
  .ok { t' with
    mapQueuedChanges := t'.mapQueuedChanges.insert (P.getHash tx)
      (CTxIndex.mk' (t.posThisTx pindex) tx.vout.length)
    nTxPos := if fJustCheck then t.nTxPos else t.nTxPos + tx.serializeSize }

/-- The loop of `ConnectBlock` over the transactions. -/
def connectTxs : BlockTotals → List CTransaction → Except Fault BlockTotals
  | t, [] => .ok t
  | t, tx :: vtx => do
    let t ← connectTx P V pindex fJustCheck t tx
    connectTxs t vtx

end

/-- The test of the coinbase of a proof-of-work block. -/
def checkWorkReward (pindexBest : Option CBlockIndex) (block : CBlock) (nFees : ℤ) :
    Except Fault Unit :=
  if block.isProofOfStake then .ok ()
  else
    match pindexBest, block.vtx[0]? with
    | none, _ => .error (.thrown "pindexBest->nHeight")
    | _, none => .error (.thrown "vtx[0]")
    | some pindexBest, some tx => do
      let nValueOut ← tx.getValueOut
      rejectIf (getProofOfWorkReward pindexBest.nHeight nFees < nValueOut) 50
        "ConnectBlock() : coinbase reward exceeded (actual=%d vs calculated=%d)"

def fundAddress : String := "B83JheiAjBSHMdkbqrNbwWP7FwtgiFmRqa"

/-- The coinstake has an output of one fifth of the reward to the fund. -/
def paysFund (P : Params) (nCalculatedStakeReward : ℕ) (vout : List CTxOut) : Prop :=
  ∃ output ∈ vout, P.extractAddress output.scriptPubKey = fundAddress ∧
    uint64 output.nValue = nCalculatedStakeReward / 5

instance (P : Params) (nCalculatedStakeReward : ℕ) (vout : List CTxOut) :
    Decidable (paysFund P nCalculatedStakeReward vout) :=
  inferInstanceAs (Decidable (∃ _ ∈ _, _))

/-- The tests of the coinstake of a proof-of-stake block.  The reward of the coinstake has a
sign and the calculated one has none, so the comparison is in 64 bits without a sign. -/
def checkStakeReward (P : Params) (V : TxView) (pindex : CBlockIndex) (block : CBlock)
    (nFees nStakeReward : ℤ) : Except Fault Unit :=
  if block.isProofOfStake then
    match block.vtx[1]? with
    | none => .error (.thrown "vtx[1]")
    | some tx =>
      match getCoinAge P V pindex.pprev tx with
      | none => reject 0 "ConnectBlock() : %s unable to get coin age for coinstake"
      | some nCoinAge => do
        let nCalculatedStakeReward := getProofOfStakeReward nCoinAge nFees
        rejectIf (uint64 nStakeReward > nCalculatedStakeReward) 100
          "ConnectBlock() : coinstake pays too much(actual=%d vs calculated=%d)"
        rejectIf (pindex.nHeight > 25 ∧ ¬ paysFund P nCalculatedStakeReward tx.vout) 100
          "ConnectBlock() : fund reward missing"
  else .ok ()

/-- `ConnectBlock` up to its first write. -/
def connectBlockCheck (P : Params) (w : World) (V : TxView) (pindexBest : Option CBlockIndex)
    (block : CBlock) (pindex : CBlockIndex) (fJustCheck : Bool) : Except Fault BlockTotals := do
  checkBlock P w block (!fJustCheck) (!fJustCheck) false
  let t ← connectTxs P V pindex fJustCheck (.init (firstTxPos block pindex fJustCheck)) block.vtx
  checkWorkReward pindexBest block t.nFees
  checkStakeReward P V pindex block t.nFees t.nStakeReward
  .ok t

end Bws
