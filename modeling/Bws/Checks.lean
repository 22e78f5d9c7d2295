import Bws.Params

/-!
# Checks on blocks and transactions

`CheckBlock`, the height that a coinbase must start with, finality and the relay rules, and the
checks of a coinstake's kernel.
-/

namespace Bws

/-! ## The Merkle tree -/

/-- One level of the Merkle tree above the given one; an odd last node is paired with
itself. -/
def merkleLevel (hashPair : UInt256 → UInt256 → UInt256) : List UInt256 → List UInt256
  | [] => []
  | [a] => [hashPair a a]
  | a :: b :: level => hashPair a b :: merkleLevel hashPair level

/-- Build levels until one has a single node. -/
def merkleRoot (hashPair : UInt256 → UInt256 → UInt256) : ℕ → List UInt256 → UInt256
  | _, [] => 0
  | _, [a] => a
  | 0, a :: _ => a
  | fuel + 1, level => merkleRoot hashPair fuel (merkleLevel hashPair level)

/-- `CBlock::BuildMerkleTree`: each level at least halves, so that as many levels as
transactions are enough. -/
def CBlock.buildMerkleTree (P : Params) (block : CBlock) : UInt256 :=
  merkleRoot P.hashPair block.vtx.length (block.vtx.map P.getHash)

/-! ## CheckBlock -/

/-- `GetLegacySigOpCount` -/
def getLegacySigOpCount (P : Params) (tx : CTransaction) : ℕ :=
  (tx.vin.map fun txin ↦ P.getSigOpCount txin.scriptSig).sum +
    (tx.vout.map fun txout ↦ P.getSigOpCount txout.scriptPubKey).sum

/-- The loop of `CheckBlock` over the transactions. -/
def checkTransactions (block : CBlock) : List CTransaction → Except Fault Unit
  | [] => .ok ()
  | tx :: vtx =>
    match checkTransaction tx with
    | .error (.rejected nDoS _) => reject nDoS "CheckBlock() : CheckTransaction failed"
    | .error (.thrown msg) => .error (.thrown msg)
    | .ok () => do
      rejectIf (block.nTime < tx.nTime) 50
        "CheckBlock() : block timestamp earlier than transaction timestamp"
      checkTransactions block vtx

/-- The checks of `CheckBlock` on a proof-of-stake block. -/
def checkStakeShape (block : CBlock) : Except Fault Unit :=
  if block.isProofOfStake then do
    rejectIf (¬ ∃ tx ∈ block.vtx[0]?, tx.vout.length = 1 ∧ ∃ txout ∈ tx.vout[0]?, txout.isEmpty)
      100 "CheckBlock() : coinbase output not empty for proof-of-stake block"
    rejectIf (¬ ∃ tx ∈ block.vtx[1]?, tx.isCoinStake) 100
      "CheckBlock() : second tx is not coinstake"
    rejectIf (∃ tx ∈ block.vtx.drop 2, tx.isCoinStake) 100
      "CheckBlock() : more than one coinstake"
  else .ok ()

/-- `CBlock::CheckBlock` -/
def checkBlock (P : Params) (w : World) (block : CBlock)
    (fCheckPOW fCheckMerkleRoot fCheckSig : Bool) : Except Fault Unit := do
  rejectIf (block.vtx = [] ∨ block.vtx.length > MAX_BLOCK_SIZE ∨
      block.serializeSize > MAX_BLOCK_SIZE) 100
    "CheckBlock() : size limits failed"
  rejectIf (fCheckPOW ∧ block.isProofOfWork ∧
      ¬ P.checkProofOfWork (P.scryptBlockhash block.toCBlockHeader) block.nBits) 50
    "CheckBlock() : proof of work failed"
  rejectIf ((block.nTime : ℤ) > futureDrift w.nAdjustedTime) 0
    "CheckBlock() : block timestamp too far in the future"
  rejectIf (¬ ∃ tx ∈ block.vtx[0]?, tx.isCoinBase) 100
    "CheckBlock() : first tx is not coinbase"
  rejectIf (∃ tx ∈ block.vtx.drop 1, tx.isCoinBase) 100
    "CheckBlock() : more than one coinbase"
  checkStakeShape block
  rejectIf (fCheckSig ∧ ¬ P.checkBlockSignature block) 100
    "CheckBlock() : bad proof-of-stake block signature"
  checkTransactions block block.vtx
  rejectIf (¬ (block.vtx.map P.getHash).Nodup) 100
    "CheckBlock() : duplicate transaction"
  rejectIf ((block.vtx.map (getLegacySigOpCount P)).sum > MAX_BLOCK_SIGOPS) 100
    "CheckBlock() : out-of-bounds SigOpCount"
  rejectIf (fCheckMerkleRoot ∧ block.hashMerkleRoot ≠ block.buildMerkleTree P) 100
    "CheckBlock() : hashMerkleRoot mismatch"

/-- What a block that passes `CheckBlock` is like. -/
structure CheckedBlock (P : Params) (block : CBlock) : Prop where
  size : block.serializeSize ≤ MAX_BLOCK_SIZE
  coinbase : ∃ tx ∈ block.vtx[0]?, tx.isCoinBase
  coinbase_only : ∀ tx ∈ block.vtx.drop 1, ¬ tx.isCoinBase
  coinstake_only : block.isProofOfStake → ∀ tx ∈ block.vtx.drop 2, ¬ tx.isCoinStake
  transactions : ∀ tx ∈ block.vtx, checkTransaction tx = .ok ()
  time : ∀ tx ∈ block.vtx, tx.nTime ≤ block.nTime
  nodup : (block.vtx.map P.getHash).Nodup

theorem checkTransactions_eq_ok {block : CBlock} {vtx : List CTransaction}
    (h : checkTransactions block vtx = .ok ()) :
    ∀ tx ∈ vtx, checkTransaction tx = .ok () ∧ tx.nTime ≤ block.nTime := by
  induction vtx with
  | nil => exact fun _ h ↦ absurd h List.not_mem_nil
  | cons tx vtx ih =>
    rw [checkTransactions] at h
    split at h
    · cases h
    · cases h
    · rename_i htx
      simp only [bind_check_eq_ok, rejectIf_eq_ok] at h
      obtain ⟨htime, hrest⟩ := h
      intro tx' hmem
      rcases List.mem_cons.mp hmem with rfl | hmem
      · exact ⟨htx, not_lt.mp htime⟩
      · exact ih hrest tx' hmem

theorem checkedBlock_of_checkBlock {P : Params} {w : World} {block : CBlock}
    {fCheckPOW fCheckMerkleRoot fCheckSig : Bool}
    (h : checkBlock P w block fCheckPOW fCheckMerkleRoot fCheckSig = .ok ()) :
    CheckedBlock P block := by
  simp only [checkBlock, bind_check_eq_ok, rejectIf_eq_ok] at h
  obtain ⟨hsize, -, -, hcb, honly, hstake, -, htxs, hnodup, -, -⟩ := h
  have htxs := checkTransactions_eq_ok htxs
  refine ⟨?_, not_not.mp hcb, ?_, ?_, fun tx h ↦ (htxs tx h).1, fun tx h ↦ (htxs tx h).2,
    not_not.mp hnodup⟩
  · simp only [not_or, not_lt] at hsize
    exact hsize.2.2
  · exact fun tx htx hcb ↦ honly ⟨tx, htx, hcb⟩
  · intro hpos
    rw [checkStakeShape, if_pos hpos] at hstake
    simp only [bind_check_eq_ok, rejectIf_eq_ok] at hstake
    exact fun tx htx hcs ↦ hstake.2.2 ⟨tx, htx, hcs⟩

/-! ## Relay rules and finality -/

def LOCKTIME_THRESHOLD : ℕ := 500000000
def MAX_STANDARD_TX_SIZE : ℕ := MAX_BLOCK_SIZE_GEN / 5

def CTxIn.isFinal (txin : CTxIn) : Prop := txin.nSequence = uintMax

instance (txin : CTxIn) : Decidable txin.isFinal := inferInstanceAs (Decidable (_ = _))

/-- `IsFinalTx`; a height or time of `0` stands for the best height and the clock. -/
def isFinalTx (nBestHeight nAdjustedTime : ℤ) (tx : CTransaction) (nBlockHeight nBlockTime : ℤ) :
    Prop :=
  let nBlockHeight := if nBlockHeight = 0 then nBestHeight else nBlockHeight
  let nBlockTime := if nBlockTime = 0 then nAdjustedTime else nBlockTime
  tx.nLockTime = 0 ∨
    (tx.nLockTime : ℤ) < (if tx.nLockTime < LOCKTIME_THRESHOLD then nBlockHeight else nBlockTime) ∨
    ∀ txin ∈ tx.vin, txin.isFinal

instance (nBestHeight nAdjustedTime : ℤ) (tx : CTransaction) (nBlockHeight nBlockTime : ℤ) :
    Decidable (isFinalTx nBestHeight nAdjustedTime tx nBlockHeight nBlockTime) :=
  inferInstanceAs (Decidable (_ ∨ _))

/-- The loop of `IsStandardTx` over the inputs. -/
def standardInputs (P : Params) (vin : List CTxIn) : Prop :=
  ∀ txin ∈ vin, txin.scriptSig.length ≤ 1650 ∧ P.isPushOnly txin.scriptSig ∧
    P.hasCanonicalPushes txin.scriptSig

instance (P : Params) (vin : List CTxIn) : Decidable (standardInputs P vin) :=
  inferInstanceAs (Decidable (∀ _ ∈ _, _))

/-- The loop of `IsStandardTx` over the outputs: an output is of a standard type, and unless it
only carries data it carries a value. -/
def standardOutputs (P : Params) (vout : List CTxOut) : Prop :=
  ∀ txout ∈ vout, (∃ fNullData ∈ P.isStandard txout.scriptPubKey,
    fNullData = true ∨ txout.nValue ≠ 0) ∧ P.hasCanonicalPushes txout.scriptPubKey

instance (P : Params) (vout : List CTxOut) : Decidable (standardOutputs P vout) :=
  inferInstanceAs (Decidable (∀ _ ∈ _, _))

/-- `IsStandardTx` -/
def isStandardTx (P : Params) (w : World) (nBestHeight : ℤ) (tx : CTransaction) : Prop :=
  let nDataOut := tx.vout.countP fun txout ↦ P.isStandard txout.scriptPubKey = some true
  (1 ≤ tx.nVersion ∧ tx.nVersion ≤ 1) ∧
    isFinalTx nBestHeight w.nAdjustedTime tx (nBestHeight + 1) 0 ∧
    (tx.nTime : ℤ) ≤ futureDrift w.nAdjustedTime ∧
    tx.serializeSize < MAX_STANDARD_TX_SIZE ∧
    standardInputs P tx.vin ∧ standardOutputs P tx.vout ∧
    ¬ (1 < nDataOut ∧ tx.vout.length / 2 < nDataOut)

instance (P : Params) (w : World) (nBestHeight : ℤ) (tx : CTransaction) :
    Decidable (isStandardTx P w nBestHeight tx) := inferInstanceAs (Decidable (_ ∧ _))

/-! ## The height in the coinbase -/

/-- The bytes of `n`, the lowest first; `n` bytes are always enough. -/
def leBytes : ℕ → ℕ → List UInt8
  | 0, _ => []
  | fuel + 1, n => if n = 0 then [] else UInt8.ofNat (n % 256) :: leBytes fuel (n / 256)

/-- `CBigNum(n).getvch()` for a natural number: a zero byte follows a last byte whose first
bit is set, since that bit is the sign. -/
def getvch (n : ℕ) : List UInt8 :=
  let vch := leBytes n n
  match vch.getLast? with
  | some b => if 0x80 ≤ b then vch ++ [0] else vch
  | none => []

/-- `CScript() << nHeight`; a height has too few bytes for a push opcode. -/
def scriptHeight (nHeight : ℕ) : CScript :=
  if 1 ≤ nHeight ∧ nHeight ≤ 16 then [UInt8.ofNat (nHeight + 0x50)]
  else UInt8.ofNat (getvch nHeight).length :: getvch nHeight

/-! ## Coinstakes -/

def STAKE_TIMESTAMP_MASK : ℕ := 15

/-- `CheckCoinStakeTimestamp` -/
def checkCoinStakeTimestamp (nTimeBlock nTimeTx : ℕ) : Prop :=
  nTimeBlock = nTimeTx ∧ nTimeTx &&& STAKE_TIMESTAMP_MASK = 0

instance (nTimeBlock nTimeTx : ℕ) : Decidable (checkCoinStakeTimestamp nTimeBlock nTimeTx) :=
  inferInstanceAs (Decidable (_ ∧ _))

/-- `CTransaction::ReadFromDisk(txdb, prevout, txindexRet)`: a transaction found by its index
entry, when it has the output that is asked for. -/
def readPrevTx (w : World) (files : BlockFiles) (txIndex : UInt256 → Option CTxIndex)
    (prevout : COutPoint) : Option (CTxIndex × CTransaction) :=
  match txIndex prevout.hash with
  | none => none
  | some txindex =>
    match readTxAt w files txindex.pos with
    | none => none
    | some txPrev => if txPrev.vout.length ≤ prevout.n then none else some (txindex, txPrev)

/-- `CheckStakeKernelHashV2`, with the hash that it leaves in `hashProofOfStake`.  The test of
the minimum age is in 32 bits without a sign. -/
def checkStakeKernelHash (P : Params) (pindexPrev : CBlockIndex) (nBits nTimeBlockFrom : ℕ)
    (txPrev : CTransaction) (prevout : COutPoint) (nTimeTx : ℕ) : Option UInt256 :=
  match txPrev.vout[prevout.n]? with
  | none => none
  | some txout =>
    let hashProofOfStake := P.hashKernel pindexPrev.val.nStakeModifier txPrev.nTime prevout nTimeTx
    if nTimeTx < txPrev.nTime ∨ nTimeTx < (nTimeBlockFrom + P.nStakeMinAge) % 2 ^ 32 ∨
      setCompact nBits * txout.nValue < hashProofOfStake
    then none else some hashProofOfStake

/-- `CheckProofOfStake`, with the hash of the kernel. -/
def checkProofOfStake (P : Params) (w : World) (files : BlockFiles)
    (txIndex : UInt256 → Option CTxIndex) (pindexPrev : CBlockIndex) (tx : CTransaction)
    (nBits : ℕ) : Except Fault UInt256 := do
  rejectIf (¬ tx.isCoinStake) 0 "CheckProofOfStake() : called on non-coinstake %s"
  match tx.vin[0]? with
  | none => reject 0 "CheckProofOfStake() : called on non-coinstake %s"
  | some txin =>
    match readPrevTx w files txIndex txin.prevout with
    | none => reject 1 "CheckProofOfStake() : INFO: read txPrev failed"
    | some (txindex, txPrev) => do
      rejectIf (¬ P.verifySignature txPrev tx 0 0) 100
        "CheckProofOfStake() : VerifySignature failed on coinstake %s"
      match readHeaderAt w files txindex.pos.nFile txindex.pos.nBlockPos with
      | none => reject 0 "CheckProofOfStake() : read block failed"
      | some header => do
        rejectIf (isConfirmedInNPrevBlocks txindex.pos.nFile txindex.pos.nBlockPos pindexPrev
            (nStakeMinConfirmations - 1)).isSome 100
          "CheckProofOfStake() : tried to stake at depth %d"
        match checkStakeKernelHash P pindexPrev nBits header.nTime txPrev txin.prevout tx.nTime with
        | none =>
          reject 1 "CheckProofOfStake() : INFO: check kernel failed on coinstake %s, hashProof=%s"
        | some hashProofOfStake => .ok hashProofOfStake

end Bws
