import Mathlib

/-!
# Transactions and blocks

The data of `core.h` and `main.h` and the checks on them that need no context: the amounts
of a transaction, its sizes on the wire, `CheckTransaction` and `GetMinFee`.

Hashes are natural numbers and `0` is the null hash.  Amounts are integers; an addition of the
source that may leave 64 bits goes through `int64` or `uint64`, which wrap as the compiled code
does.  A script is its bytes.
-/

namespace Bws

abbrev UInt256 := ℕ

abbrev CScript := List UInt8

/-! ## How a function of the source ends -/

/-- A function of the source that does not return `true`.  The text is the format string of
the source. -/
inductive Fault where
  /-- `return DoS(nDoS, error(msg))`; `nDoS` is `0` for a plain `return error(msg)` -/
  | rejected (nDoS : ℕ) (msg : String)
  /-- an exception, or a failed `assert` -/
  | thrown (msg : String)
deriving DecidableEq, Repr

/-- `return DoS(nDoS, error(msg))` -/
def reject {α : Type} (nDoS : ℕ) (msg : String) : Except Fault α := .error (.rejected nDoS msg)

/-- `if (bad) return DoS(nDoS, error(msg));` -/
def rejectIf (bad : Prop) [Decidable bad] (nDoS : ℕ) (msg : String) : Except Fault Unit :=
  if bad then reject nDoS msg else .ok ()

@[simp] theorem rejectIf_eq_ok {bad : Prop} [Decidable bad] {nDoS : ℕ} {msg : String} {u : Unit} :
    rejectIf bad nDoS msg = .ok u ↔ ¬ bad := by
  unfold rejectIf reject
  split <;> simp_all

/-- A sequence of two steps ends well when both do. -/
theorem bind_eq_ok {ε α β : Type} {x : Except ε α} {f : α → Except ε β} {b : β} :
    x >>= f = .ok b ↔ ∃ a, x = .ok a ∧ f a = .ok b := by
  cases x <;> simp [bind, Except.bind]

/-- It fails when the first step does, or the second one after it. -/
theorem bind_eq_error {ε α β : Type} {x : Except ε α} {f : α → Except ε β} {e : ε} :
    x >>= f = .error e ↔ x = .error e ∨ ∃ a, x = .ok a ∧ f a = .error e := by
  cases x <;> simp [bind, Except.bind]

/-- `bind_eq_ok` for a step that only checks. -/
theorem bind_check_eq_ok {ε β : Type} {x : Except ε Unit} {f : Unit → Except ε β} {b : β} :
    x >>= f = .ok b ↔ x = .ok () ∧ f () = .ok b := by
  cases x <;> simp [bind, Except.bind]

theorem eq_ok_of_isOk {α : Type} {x : Except Fault α} (h : x.isOk = true) : ∃ a, x = .ok a := by
  cases x with
  | error e => cases h
  | ok a => exact ⟨a, rfl⟩

/-! ## Machine integers -/

/-- The `int64_t` that an integer becomes. -/
def int64 (x : ℤ) : ℤ := Int.bmod x (2 ^ 64)

/-- The `uint64_t` that an integer becomes. -/
def uint64 (x : ℤ) : ℕ := (x % 2 ^ 64).toNat

/-- The integers an `int64_t` can hold. -/
def InInt64 (x : ℤ) : Prop := -2 ^ 63 ≤ x ∧ x < 2 ^ 63

instance (x : ℤ) : Decidable (InInt64 x) := inferInstanceAs (Decidable (_ ∧ _))

theorem int64_eq {x : ℤ} (h : InInt64 x) : int64 x = x := by
  obtain ⟨h₁, h₂⟩ := h
  exact Int.bmod_eq_of_le (by omega) (by omega)

/-! ## Constants of `main.h` and `util.h` -/

def COIN : ℤ := 100000000
def CENT : ℤ := 1000000
def MAX_BLOCK_SIZE : ℕ := 1000000
def MAX_BLOCK_SIZE_GEN : ℕ := MAX_BLOCK_SIZE / 2
def MAX_BLOCK_SIGOPS : ℕ := MAX_BLOCK_SIZE / 50
def MAX_TX_SIGOPS : ℕ := MAX_BLOCK_SIGOPS / 5
def MIN_TX_FEE : ℤ := 10000
def MIN_RELAY_TX_FEE : ℤ := MIN_TX_FEE
def MAX_MONEY : ℤ := 90000000 * COIN
def getCoinYearReward : ℤ := 6 * CENT
def nCoinbaseMaturity : ℕ := 10
def nStakeMinConfirmations : ℕ := 10

def moneyRange (nValue : ℤ) : Prop := 0 ≤ nValue ∧ nValue ≤ MAX_MONEY

instance (nValue : ℤ) : Decidable (moneyRange nValue) := inferInstanceAs (Decidable (_ ∧ _))

def futureDrift (nTime : ℤ) : ℤ := nTime + 10 * 60

def getTargetSpacing : ℤ := 120

/-- What the source writes as `(unsigned int) -1`. -/
def uintMax : ℕ := 2 ^ 32 - 1

/-! ## Transactions -/

structure COutPoint where
  hash : UInt256
  n : ℕ
deriving DecidableEq, Repr

def COutPoint.null : COutPoint := ⟨0, uintMax⟩

def COutPoint.isNull (o : COutPoint) : Prop := o.hash = 0 ∧ o.n = uintMax

instance (o : COutPoint) : Decidable o.isNull := inferInstanceAs (Decidable (_ ∧ _))

structure CTxIn where
  prevout : COutPoint
  scriptSig : CScript
  nSequence : ℕ
deriving DecidableEq, Repr

structure CTxOut where
  nValue : ℤ
  scriptPubKey : CScript
deriving DecidableEq, Repr

def CTxOut.isEmpty (o : CTxOut) : Prop := o.nValue = 0 ∧ o.scriptPubKey = []

instance (o : CTxOut) : Decidable o.isEmpty := inferInstanceAs (Decidable (_ ∧ _))

structure CTransaction where
  nVersion : ℤ
  nTime : ℕ
  vin : List CTxIn
  vout : List CTxOut
  nLockTime : ℕ
deriving DecidableEq, Repr

namespace CTransaction

/-- `vin.size() == 1 && vin[0].prevout.IsNull() && vout.size() >= 1` -/
def isCoinBase (tx : CTransaction) : Prop :=
  tx.vin.length = 1 ∧ (∃ txin ∈ tx.vin[0]?, txin.prevout.isNull) ∧ 1 ≤ tx.vout.length

instance (tx : CTransaction) : Decidable tx.isCoinBase := inferInstanceAs (Decidable (_ ∧ _))

/-- The coin stake transaction is marked with the first output empty. -/
def isCoinStake (tx : CTransaction) : Prop :=
  0 < tx.vin.length ∧ (∃ txin ∈ tx.vin[0]?, ¬ txin.prevout.isNull) ∧ 2 ≤ tx.vout.length ∧
    ∃ txout ∈ tx.vout[0]?, txout.isEmpty

instance (tx : CTransaction) : Decidable tx.isCoinStake := inferInstanceAs (Decidable (_ ∧ _))

theorem not_isCoinStake_of_isCoinBase {tx : CTransaction} (h : tx.isCoinBase) :
    ¬ tx.isCoinStake := by
  rintro ⟨-, ⟨txin, hmem, hnull⟩, -⟩
  obtain ⟨txin', hmem', hnull'⟩ := h.2.1
  rw [hmem] at hmem'
  cases hmem'
  exact hnull hnull'

/-- The loop of `GetValueOut`, with the sum so far. -/
def getValueOutFrom (nValueOut : ℤ) : List CTxOut → Except Fault ℤ
  | [] => .ok nValueOut
  | txout :: vout =>
    let nValueOut := int64 (nValueOut + txout.nValue)
    if ¬ moneyRange txout.nValue ∨ ¬ moneyRange nValueOut then
      .error (.thrown "CTransaction::GetValueOut() : value out of range")
    else getValueOutFrom nValueOut vout

def getValueOut (tx : CTransaction) : Except Fault ℤ := getValueOutFrom 0 tx.vout

end CTransaction

/-! ## Sizes on the wire -/

def getSizeOfCompactSize (nSize : ℕ) : ℕ :=
  if nSize < 253 then 1
  else if nSize ≤ 0xffff then 3
  else if nSize ≤ 0xffffffff then 5
  else 9

theorem one_le_getSizeOfCompactSize (n : ℕ) : 1 ≤ getSizeOfCompactSize n := by
  unfold getSizeOfCompactSize
  split
  · omega
  · split
    · omega
    · split <;> omega

def CTxIn.serializeSize (txin : CTxIn) : ℕ :=
  36 + (getSizeOfCompactSize txin.scriptSig.length + txin.scriptSig.length) + 4

def CTxOut.serializeSize (txout : CTxOut) : ℕ :=
  8 + (getSizeOfCompactSize txout.scriptPubKey.length + txout.scriptPubKey.length)

def CTransaction.serializeSize (tx : CTransaction) : ℕ :=
  4 + 4 + (getSizeOfCompactSize tx.vin.length + (tx.vin.map CTxIn.serializeSize).sum) +
    (getSizeOfCompactSize tx.vout.length + (tx.vout.map CTxOut.serializeSize).sum) + 4

/-- A transaction is not empty on the wire. -/
theorem CTransaction.serializeSize_pos (tx : CTransaction) : 0 < tx.serializeSize := by
  unfold serializeSize
  omega

/-! ## Blocks -/

structure CBlockHeader where
  nVersion : ℤ
  hashPrevBlock : UInt256
  hashMerkleRoot : UInt256
  nTime : ℕ
  nBits : ℕ
  nNonce : ℕ
deriving DecidableEq, Repr

structure CBlock extends CBlockHeader where
  vtx : List CTransaction
  vchBlockSig : List UInt8
deriving DecidableEq, Repr

namespace CBlock

def CURRENT_VERSION : ℤ := 7

/-- The size of a serialized header, `GetSerializeSize(CBlock()) - 2 * GetSizeOfCompactSize(0)`. -/
def headerSize : ℕ := 80

def serializeSize (block : CBlock) : ℕ :=
  headerSize + (getSizeOfCompactSize block.vtx.length +
    (block.vtx.map CTransaction.serializeSize).sum) +
    (getSizeOfCompactSize block.vchBlockSig.length + block.vchBlockSig.length)

/-- `vtx.size() > 1 && vtx[1].IsCoinStake()` -/
def isProofOfStake (block : CBlock) : Prop :=
  1 < block.vtx.length ∧ ∃ tx ∈ block.vtx[1]?, tx.isCoinStake

instance (block : CBlock) : Decidable block.isProofOfStake := inferInstanceAs (Decidable (_ ∧ _))

def isProofOfWork (block : CBlock) : Prop := ¬ block.isProofOfStake

instance (block : CBlock) : Decidable block.isProofOfWork := inferInstanceAs (Decidable (¬ _))

/-- `GetProofOfStake`: the staked outpoint and the time of the coinstake. -/
def getProofOfStake (block : CBlock) : COutPoint × ℕ :=
  if block.isProofOfStake then
    match block.vtx[1]? with
    | some tx => ((tx.vin[0]?.map CTxIn.prevout).getD .null, tx.nTime)
    | none => (.null, 0)
  else (.null, 0)

end CBlock

/-! ## CheckTransaction -/

/-- The loop of `CheckTransaction` over the outputs, with the sum so far. -/
def checkOutputs (tx : CTransaction) (nValueOut : ℤ) : List CTxOut → Except Fault Unit
  | [] => .ok ()
  | txout :: vout => do
    rejectIf (txout.isEmpty ∧ ¬ tx.isCoinBase ∧ ¬ tx.isCoinStake) 100
      "CTransaction::CheckTransaction() : txout empty for user transaction"
    rejectIf (txout.nValue < 0) 100 "CTransaction::CheckTransaction() : txout.nValue negative"
    rejectIf (txout.nValue > MAX_MONEY) 100
      "CTransaction::CheckTransaction() : txout.nValue too high"
    let nValueOut := int64 (nValueOut + txout.nValue)
    rejectIf (¬ moneyRange nValueOut) 100
      "CTransaction::CheckTransaction() : txout total out of range"
    checkOutputs tx nValueOut vout

/-- `CTransaction::CheckTransaction` -/
def checkTransaction (tx : CTransaction) : Except Fault Unit := do
  rejectIf (tx.vin = []) 10 "CTransaction::CheckTransaction() : vin empty"
  rejectIf (tx.vout = []) 10 "CTransaction::CheckTransaction() : vout empty"
  rejectIf (tx.serializeSize > MAX_BLOCK_SIZE) 100
    "CTransaction::CheckTransaction() : size limits failed"
  checkOutputs tx 0 tx.vout
  -- duplicate inputs: the source returns false without a text
  rejectIf (¬ (tx.vin.map CTxIn.prevout).Nodup) 0 ""
  if tx.isCoinBase then
    rejectIf (∃ txin ∈ tx.vin[0]?, txin.scriptSig.length < 2 ∨ 100 < txin.scriptSig.length) 100
      "CTransaction::CheckTransaction() : coinbase script size is invalid"
  else
    rejectIf (∃ txin ∈ tx.vin, txin.prevout.isNull) 10
      "CTransaction::CheckTransaction() : prevout is null"

/-! ## Fees -/

inductive GetMinFee_mode where
  | GMF_BLOCK
  | GMF_RELAY
  | GMF_SEND
deriving DecidableEq, Repr

/-- `GetMinFee`; the transaction is an argument of the source's function that it does not read. -/
def getMinFee (_tx : CTransaction) (nBlockSize : ℕ) (mode : GetMinFee_mode) (nBytes : ℕ) : ℤ :=
  let nBaseFee := if mode = .GMF_RELAY then MIN_RELAY_TX_FEE else MIN_TX_FEE
  let nNewBlockSize := nBlockSize + nBytes
  let nMinFee := int64 ((1 + (nBytes : ℤ) / 1000) * nBaseFee)
  if nBlockSize ≠ 1 ∧ MAX_BLOCK_SIZE_GEN / 2 ≤ nNewBlockSize ∧ MAX_BLOCK_SIZE_GEN ≤ nNewBlockSize
  then MAX_MONEY
  else
    let nMinFee :=
      if nBlockSize ≠ 1 ∧ MAX_BLOCK_SIZE_GEN / 2 ≤ nNewBlockSize then
        int64 (nMinFee * (MAX_BLOCK_SIZE_GEN / (MAX_BLOCK_SIZE_GEN - nNewBlockSize) : ℕ))
      else nMinFee
    if moneyRange nMinFee then nMinFee else MAX_MONEY

end Bws
