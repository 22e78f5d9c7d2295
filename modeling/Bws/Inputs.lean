import Bws.Checks
import Bws.TxMemPool

/-!
# The inputs of a transaction

`FetchInputs` and `ConnectInputs`, the value and the coin age of what a transaction spends, and
the rewards.

Fetching reads the transaction index, the block files and the memory pool, and nothing else of
the node: these are gathered in a `TxView`.  A call that connects a block passes on the index
entries it has changed but not written yet, `mapTestPool`.
-/

namespace Bws

/-- What fetching and connecting inputs read. -/
structure TxView where
  /-- `txdb.ReadTxIndex` -/
  txIndex : UInt256 → Option CTxIndex
  /-- `CTransaction::ReadFromDisk` -/
  readTx : CDiskTxPos → Option CTransaction
  /-- the header of the block at a file and a position -/
  readHeader : ℕ → ℕ → Option CBlockHeader
  /-- `mempool.lookup` -/
  lookup : UInt256 → Option CTransaction
  nBestHeight : ℤ

/-- `map<uint256, CTxIndex>` -/
abbrev TxIndexMap := Std.TreeMap UInt256 CTxIndex

/-- `MapPrevTx`: the previous transactions of a transaction, with their index entries. -/
abbrev MapPrevTx := UInt256 → Option (CTxIndex × CTransaction)

/-! ## FetchInputs -/

/-- The index entry of a previous transaction: from the proposed changes when they have one,
otherwise from the database. -/
def findTxIndex (V : TxView) (mapTestPool : TxIndexMap) (fBlock fMiner : Bool) (hash : UInt256) :
    Option CTxIndex :=
  if (fBlock ∨ fMiner) ∧ mapTestPool.contains hash then mapTestPool[hash]? else V.txIndex hash

/-- One round of the first loop of `FetchInputs`. -/
def fetchInput (V : TxView) (mapTestPool : TxIndexMap) (fBlock fMiner : Bool)
    (inputs : MapPrevTx) (prevout : COutPoint) : Except Fault MapPrevTx :=
  match inputs prevout.hash with
  | some _ => .ok inputs -- got it already
  | none =>
    match findTxIndex V mapTestPool fBlock fMiner prevout.hash with
    | none =>
      if fMiner then reject 0 ""
      else if fBlock then reject 0 "FetchInputs() : %s prev tx %s index entry not found"
      else
        match V.lookup prevout.hash with
        | none => reject 0 "FetchInputs() : %s mempool Tx prev not found %s"
        | some txPrev =>
          .ok (Function.update inputs prevout.hash
            (some (CTxIndex.mk' .null txPrev.vout.length, txPrev)))
    | some txindex =>
      if txindex.pos = .inMemory then
        match V.lookup prevout.hash with
        | none => reject 0 "FetchInputs() : %s mempool Tx prev not found %s"
        | some txPrev => .ok (Function.update inputs prevout.hash (some (txindex, txPrev)))
      else
        match V.readTx txindex.pos with
        | none => reject 0 "FetchInputs() : %s ReadFromDisk prev tx %s failed"
        | some txPrev => .ok (Function.update inputs prevout.hash (some (txindex, txPrev)))

/-- The first loop of `FetchInputs`. -/
def fetchAll (V : TxView) (mapTestPool : TxIndexMap) (fBlock fMiner : Bool) :
    MapPrevTx → List CTxIn → Except Fault MapPrevTx
  | inputs, [] => .ok inputs
  | inputs, txin :: vin => do
    let inputs ← fetchInput V mapTestPool fBlock fMiner inputs txin.prevout
    fetchAll V mapTestPool fBlock fMiner inputs vin

/-- The second loop of `FetchInputs`: the outputs that are spent must exist. -/
def checkPrevouts (inputs : MapPrevTx) : List CTxIn → Except Fault Unit
  | [] => .ok ()
  | txin :: vin =>
    match inputs txin.prevout.hash with
    | none => .error (.thrown "assert(inputsRet.count(prevout.hash) != 0)")
    | some (txindex, txPrev) => do
      rejectIf (txPrev.vout.length ≤ txin.prevout.n ∨ txindex.vSpent.length ≤ txin.prevout.n) 100
        "FetchInputs() : %s prevout.n out of range %d %u %u prev tx %s"
      checkPrevouts inputs vin

/-- `CTransaction::FetchInputs`.  It sets `fInvalid` exactly when it rejects with a score. -/
def fetchInputs (V : TxView) (mapTestPool : TxIndexMap) (fBlock fMiner : Bool)
    (tx : CTransaction) : Except Fault MapPrevTx :=
  if tx.isCoinBase then .ok fun _ ↦ none -- coinbase transactions have no inputs to fetch
  else do
    let inputs ← fetchAll V mapTestPool fBlock fMiner (fun _ ↦ none) tx.vin
    checkPrevouts inputs tx.vin
    .ok inputs

/-! ## Values -/

/-- `GetOutputFor` -/
def getOutputFor (inputs : MapPrevTx) (txin : CTxIn) : Except Fault CTxOut :=
  match inputs txin.prevout.hash with
  | none => .error (.thrown "CTransaction::GetOutputFor() : prevout.hash not found")
  | some (_, txPrev) =>
    match txPrev.vout[txin.prevout.n]? with
    | none => .error (.thrown "CTransaction::GetOutputFor() : prevout.n out of range")
    | some txout => .ok txout

/-- The loop of `GetValueIn`, with the sum so far. -/
def getValueInFrom (inputs : MapPrevTx) : ℤ → List CTxIn → Except Fault ℤ
  | nResult, [] => .ok nResult
  | nResult, txin :: vin => do
    let txout ← getOutputFor inputs txin
    getValueInFrom inputs (int64 (nResult + txout.nValue)) vin

/-- `CTransaction::GetValueIn` -/
def getValueIn (inputs : MapPrevTx) (tx : CTransaction) : Except Fault ℤ :=
  if tx.isCoinBase then .ok 0 else getValueInFrom inputs 0 tx.vin

def OP_EQUAL : UInt8 := 0x87
def OP_HASH160 : UInt8 := 0xa9
def OP_BURN : UInt8 := 0xd0

/-- `CScript::IsPayToScriptHash` -/
def isPayToScriptHash (script : CScript) : Prop :=
  script.length = 23 ∧ script[0]? = some OP_HASH160 ∧ script[1]? = some 0x14 ∧
    script[22]? = some OP_EQUAL

instance (script : CScript) : Decidable (isPayToScriptHash script) :=
  inferInstanceAs (Decidable (_ ∧ _))

/-- The loop of `GetP2SHSigOpCount`, with the count so far. -/
def getP2SHSigOpCountFrom (P : Params) (inputs : MapPrevTx) : ℕ → List CTxIn → Except Fault ℕ
  | nSigOps, [] => .ok nSigOps
  | nSigOps, txin :: vin => do
    let prevout ← getOutputFor inputs txin
    getP2SHSigOpCountFrom P inputs
      (if isPayToScriptHash prevout.scriptPubKey then
        nSigOps + P.getSigOpCountP2SH prevout.scriptPubKey txin.scriptSig
      else nSigOps) vin

/-- `GetP2SHSigOpCount` -/
def getP2SHSigOpCount (P : Params) (inputs : MapPrevTx) (tx : CTransaction) : Except Fault ℕ :=
  if tx.isCoinBase then .ok 0 else getP2SHSigOpCountFrom P inputs 0 tx.vin

/-! ## ConnectInputs -/

def SCRIPT_VERIFY_NOCACHE : ℕ := 1
def SCRIPT_VERIFY_NULLDUMMY : ℕ := 2
def SCRIPT_VERIFY_DISCOURAGE_UPGRADABLE_NOPS : ℕ := 4
def SCRIPT_VERIFY_STRICTENC : ℕ := 8
def SCRIPT_VERIFY_ALLOW_EMPTY_SIG : ℕ := 16
def SCRIPT_VERIFY_FIX_HASHTYPE : ℕ := 32
def SCRIPT_VERIFY_CHECKLOCKTIMEVERIFY : ℕ := 64

def MANDATORY_SCRIPT_VERIFY_FLAGS : ℕ :=
  SCRIPT_VERIFY_NULLDUMMY + SCRIPT_VERIFY_STRICTENC + SCRIPT_VERIFY_ALLOW_EMPTY_SIG +
    SCRIPT_VERIFY_FIX_HASHTYPE + SCRIPT_VERIFY_CHECKLOCKTIMEVERIFY

def STANDARD_SCRIPT_VERIFY_FLAGS : ℕ :=
  MANDATORY_SCRIPT_VERIFY_FLAGS + SCRIPT_VERIFY_DISCOURAGE_UPGRADABLE_NOPS

/-- `STANDARD_SCRIPT_VERIFY_FLAGS & ~MANDATORY_SCRIPT_VERIFY_FLAGS` -/
def STANDARD_NOT_MANDATORY_VERIFY_FLAGS : ℕ := SCRIPT_VERIFY_DISCOURAGE_UPGRADABLE_NOPS

/-- The flags that `ConnectBlock` verifies scripts with. -/
def connectBlockFlags : ℕ := SCRIPT_VERIFY_NOCACHE + MANDATORY_SCRIPT_VERIFY_FLAGS

/-- `IsConfirmedInNPrevBlocks` from a block that may not be there. -/
def confirmedBelow (pos : CDiskTxPos) (pindexFrom : Option CBlockIndex) (nMaxDepth : ℕ) : Bool :=
  match pindexFrom with
  | none => false
  | some pindexFrom =>
    (isConfirmedInNPrevBlocks pos.nFile pos.nBlockPos pindexFrom nMaxDepth).isSome

/-- One round of the first loop of `ConnectInputs`: the inexpensive checks.  `nValueIn` is the
value of the inputs so far. -/
def checkInput (pindexBlock : Option CBlockIndex) (tx : CTransaction) (inputs : MapPrevTx)
    (nValueIn : ℤ) (prevout : COutPoint) : Except Fault ℤ :=
  match inputs prevout.hash with
  | none => .error (.thrown "assert(inputs.count(prevout.hash) > 0)")
  | some (txindex, txPrev) =>
    match txPrev.vout[prevout.n]? with
    | none => reject 100 "ConnectInputs() : %s prevout.n out of range %d %u %u prev tx %s"
    | some txout => do
      rejectIf (txindex.vSpent.length ≤ prevout.n) 100
        "ConnectInputs() : %s prevout.n out of range %d %u %u prev tx %s"
      -- if prev is coinbase or coinstake, check that it's matured
      rejectIf ((txPrev.isCoinBase ∨ txPrev.isCoinStake) ∧
          confirmedBelow txindex.pos pindexBlock nCoinbaseMaturity) 0
        "ConnectInputs() : tried to spend %s at depth %d"
      rejectIf (tx.nTime < txPrev.nTime) 100
        "ConnectInputs() : transaction timestamp earlier than input transaction"
      rejectIf txout.isEmpty 1 "ConnectInputs() : special marker is not spendable"
      let nValueIn := int64 (nValueIn + txout.nValue)
      rejectIf (¬ moneyRange txout.nValue ∨ ¬ moneyRange nValueIn) 100
        "ConnectInputs() : txin values out of range"
      .ok nValueIn

/-- The first loop of `ConnectInputs`. -/
def checkInputs (pindexBlock : Option CBlockIndex) (tx : CTransaction) (inputs : MapPrevTx) :
    ℤ → List CTxIn → Except Fault ℤ
  | nValueIn, [] => .ok nValueIn
  | nValueIn, txin :: vin => do
    let nValueIn ← checkInput pindexBlock tx inputs nValueIn txin.prevout
    checkInputs pindexBlock tx inputs nValueIn vin

/-- The signature of the `i`-th input.  A failure that only a flag outside the mandatory ones
causes is not punished. -/
def checkSignature (P : Params) (V : TxView) (fBlock : Bool) (flags : ℕ)
    (txPrev tx : CTransaction) (i : ℕ) : Except Fault Unit :=
  if fBlock ∧ V.nBestHeight < P.getTotalBlocksEstimate then .ok ()
  else if P.verifySignature txPrev tx i flags then .ok ()
  else if flags &&& STANDARD_NOT_MANDATORY_VERIFY_FLAGS ≠ 0 ∧
    P.verifySignature txPrev tx i (flags - (flags &&& STANDARD_NOT_MANDATORY_VERIFY_FLAGS))
  then reject 0 "ConnectInputs() : %s non-mandatory VerifySignature failed"
  else reject 100 "ConnectInputs() : %s VerifySignature failed"

/-- How `ConnectInputs` is called: the place of the transaction, and by whom. -/
structure ConnectMode where
  posThisTx : CDiskTxPos
  fBlock : Bool
  fMiner : Bool
  flags : ℕ

/-- One round of the second loop of `ConnectInputs`, for the `i`-th input: the output must not
be spent; it is marked spent in `inputs`, and for a block in `mapTestPool`. -/
def spendInput (P : Params) (V : TxView) (m : ConnectMode) (tx : CTransaction) (i : ℕ)
    (inputs : MapPrevTx) (mapTestPool : TxIndexMap) (prevout : COutPoint) :
    Except Fault (MapPrevTx × TxIndexMap) :=
  match inputs prevout.hash with
  | none => .error (.thrown "assert(inputs.count(prevout.hash) > 0)")
  | some (txindex, txPrev) =>
    match txindex.vSpent[prevout.n]? with
    | none => .error (.thrown "txindex.vSpent[prevout.n]")
    | some pos => do
      -- check for conflicts (double-spend)
      rejectIf (¬ pos.isNull) 0 "ConnectInputs() : %s prev tx already used at %s"
      checkSignature P V m.fBlock m.flags txPrev tx i
      let txindex := { txindex with vSpent := txindex.vSpent.set prevout.n m.posThisTx }
      .ok (Function.update inputs prevout.hash (some (txindex, txPrev)),
        if m.fBlock ∨ m.fMiner then mapTestPool.insert prevout.hash txindex else mapTestPool)

/-- The second loop of `ConnectInputs`, from the `i`-th input on. -/
def spendInputs (P : Params) (V : TxView) (m : ConnectMode) (tx : CTransaction) :
    ℕ → MapPrevTx → TxIndexMap → List CTxIn → Except Fault TxIndexMap
  | _, _, mapTestPool, [] => .ok mapTestPool
  | i, inputs, mapTestPool, txin :: vin => do
    let (inputs, mapTestPool) ← spendInput P V m tx i inputs mapTestPool txin.prevout
    spendInputs P V m tx (i + 1) inputs mapTestPool vin

/-- `scriptPubKey[1]`, which the source reads whatever the size of the script. -/
def Params.scriptByte1 (P : Params) (script : CScript) : UInt8 :=
  script[1]?.getD (P.bytePastEnd script)

/-- The burning loop of `ConnectInputs`. -/
def burnCoins (P : Params) : ℕ → List CTxOut → ℕ
  | nBurnCoins, [] => nBurnCoins
  | nBurnCoins, txout :: vout =>
    burnCoins P
      (if P.scriptByte1 txout.scriptPubKey = OP_BURN then uint64 (nBurnCoins + txout.nValue)
      else nBurnCoins) vout

/-- The end of `ConnectInputs`: the fee of a transaction whose inputs are worth `nValueIn`, and
the coins it burns on top of `nBurnCoins`. -/
def checkFee (P : Params) (fBlock : Bool) (tx : CTransaction) (nValueIn : ℤ) (nBurnCoins : ℕ) :
    Except Fault ℕ :=
  if tx.isCoinStake then .ok nBurnCoins
  else do
    let nValueOut ← tx.getValueOut
    rejectIf (nValueIn < nValueOut) 100 "ConnectInputs() : %s value in < value out"
    let nTxFee := int64 (nValueIn - nValueOut)
    rejectIf (nTxFee < 0) 100 "ConnectInputs() : %s nTxFee < 0"
    rejectIf (nTxFee < getMinFee tx 1 .GMF_BLOCK 0) (if fBlock then 100 else 0)
      "ConnectInputs() : %s not paying required fee=%s, paid=%s"
    rejectIf (¬ moneyRange nTxFee) 100 "ConnectInputs() : nFees out of range"
    .ok (burnCoins P nBurnCoins tx.vout)

/-- `CTransaction::ConnectInputs`, with what it leaves in `mapTestPool` and `nBurnCoins`. -/
def connectInputs (P : Params) (V : TxView) (m : ConnectMode) (pindexBlock : Option CBlockIndex)
    (tx : CTransaction) (inputs : MapPrevTx) (mapTestPool : TxIndexMap) (nBurnCoins : ℕ) :
    Except Fault (TxIndexMap × ℕ) :=
  if tx.isCoinBase then .ok (mapTestPool, nBurnCoins)
  else do
    let nValueIn ← checkInputs pindexBlock tx inputs 0 tx.vin
    let mapTestPool ← spendInputs P V m tx 0 inputs mapTestPool tx.vin
    let nBurnCoins ← checkFee P m.fBlock tx nValueIn nBurnCoins
    .ok (mapTestPool, nBurnCoins)

/-! ## Coin age and rewards -/

/-- The loop of `GetCoinAge`, with the cent-seconds so far. -/
def coinAgeFrom (P : Params) (V : TxView) (pindexPrev : Option CBlockIndex) (tx : CTransaction) :
    ℤ → List CTxIn → Option ℤ
  | bnCentSecond, [] => some bnCentSecond
  | bnCentSecond, txin :: vin =>
    match V.txIndex txin.prevout.hash with
    | none => coinAgeFrom P V pindexPrev tx bnCentSecond vin
    | some txindex =>
      match (V.readTx txindex.pos).bind fun txPrev ↦
          txPrev.vout[txin.prevout.n]?.map fun txout ↦ (txPrev, txout) with
      | none => coinAgeFrom P V pindexPrev tx bnCentSecond vin -- not in main chain
      | some (txPrev, txout) =>
        if tx.nTime < txPrev.nTime then none -- timestamp violation
        else
          match V.readHeader txindex.pos.nFile txindex.pos.nBlockPos with
          | none => none
          | some block =>
            if block.nTime + P.nStakeMinAge > tx.nTime then
              coinAgeFrom P V pindexPrev tx bnCentSecond vin
            else if confirmedBelow txindex.pos pindexPrev (nStakeMinConfirmations - 1) then
              coinAgeFrom P V pindexPrev tx bnCentSecond vin
            else
              coinAgeFrom P V pindexPrev tx
                (bnCentSecond + (txout.nValue * (tx.nTime - txPrev.nTime : ℕ)).tdiv CENT) vin

/-- `CTransaction::GetCoinAge`, in coin-days. -/
def getCoinAge (P : Params) (V : TxView) (pindexPrev : Option CBlockIndex) (tx : CTransaction) :
    Option ℕ :=
  if tx.isCoinBase then some 0
  else
    (coinAgeFrom P V pindexPrev tx 0 tx.vin).map fun bnCentSecond ↦
      (((bnCentSecond * CENT).tdiv COIN).tdiv (24 * 60 * 60)).natAbs % 2 ^ 64

/-- The subsidy of a proof-of-work block on top of a chain of height `nHeightBest`. -/
def workSubsidy (nHeightBest : ℕ) : ℤ :=
  if nHeightBest + 1 = 1 then 57000000 * COIN
  else if 1 < nHeightBest + 1 ∧ nHeightBest + 1 ≤ 10 then 10 * COIN
  else if 10 < nHeightBest + 1 ∧ nHeightBest + 1 ≤ 50 then 20 * COIN
  else if 50 < nHeightBest + 1 ∧ nHeightBest + 1 ≤ 100 then 25 * COIN
  else 1 * COIN

/-- `GetProofOfWorkReward`: the height is that of `pindexBest`. -/
def getProofOfWorkReward (nHeightBest : ℕ) (nFees : ℤ) : ℤ :=
  int64 (workSubsidy nHeightBest + nFees)

/-- `GetProofOfStakeReward`, in 64 bits without a sign. -/
def getProofOfStakeReward (nCoinAge : ℕ) (nFees : ℤ) : ℕ :=
  let nSubsidy := uint64 (uint64 (nCoinAge * getCoinYearReward) * 33) / (365 * 33 + 8)
  uint64 (nSubsidy + nFees)

end Bws
