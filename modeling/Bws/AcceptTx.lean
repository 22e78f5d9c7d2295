import Bws.Node

/-!
# Accepting a loose transaction

`AcceptToMemoryPool`.  It reads the committed database through an object of its own, and on
success adds the transaction to the pool and tells the wallets; otherwise it changes nothing.
-/

namespace Bws

/-- `if (!tx.f()) return error(msg);`: the score that `f` gives the transaction stays. -/
def withText {α : Type} (msg : String) : Except Fault α → Except Fault α
  | .error (.rejected nDoS _) => reject nDoS msg
  | .error (.thrown m) => .error (.thrown m)
  | .ok a => .ok a

@[simp] theorem withText_eq_ok {α : Type} {msg : String} {x : Except Fault α} {a : α} :
    withText msg x = .ok a ↔ x = .ok a := by
  unfold withText reject
  split <;> simp

section

variable (P : Params) (w : World) (s : NodeState)

/-- The checks of `AcceptToMemoryPool` before it fetches the inputs. -/
def checkLoose (tx : CTransaction) : Except Fault Unit := do
  withText "AcceptToMemoryPool : CheckTransaction failed" (checkTransaction tx)
  rejectIf tx.isCoinBase 100 "AcceptToMemoryPool : coinbase as individual tx"
  rejectIf tx.isCoinStake 100 "AcceptToMemoryPool : coinstake as individual tx"
  rejectIf (¬ P.testNet ∧ ¬ isStandardTx P w s.nBestHeight tx) 0
    "AcceptToMemoryPool : nonstandard transaction: %s"
  rejectIf (s.mempool.exists_ (P.getHash tx)) 0 ""
  rejectIf (∃ txin ∈ tx.vin, (s.mempool.mapNextTx txin.prevout).isSome) 0 ""
  rejectIf (s.txdb.fresh.contains (.tx (P.getHash tx))) 0 ""

/-- The outputs that a transaction spends. -/
def outputsFor (inputs : MapPrevTx) : List CTxIn → Except Fault (List CTxOut)
  | [] => .ok []
  | txin :: vin => do
    let txout ← getOutputFor inputs txin
    let txouts ← outputsFor inputs vin
    .ok (txout :: txouts)

/-- How `AcceptToMemoryPool` connects inputs. -/
def looseMode (flags : ℕ) : ConnectMode := ⟨.inMemory, false, false, flags⟩

/-- The checks of `AcceptToMemoryPool` on the transaction with its inputs.  The rate limiter
for free transactions is left out: it asks for a fee below `MIN_RELAY_TX_FEE`, and with
`fLimitFree` any such fee has been refused before (`minRelayTxFee_le_getMinFee`). -/
def checkLooseInputs (tx : CTransaction) (fLimitFree : Bool) (mapInputs : MapPrevTx) :
    Except Fault Unit := do
  let V := s.txView w s.txdb.fresh
  let prevouts ← outputsFor mapInputs tx.vin
  rejectIf (¬ P.testNet ∧ ¬ P.areInputsStandard tx prevouts) 0
    "AcceptToMemoryPool : nonstandard transaction input"
  let nP2SH ← getP2SHSigOpCount P mapInputs tx
  rejectIf (getLegacySigOpCount P tx + nP2SH > MAX_TX_SIGOPS) 0
    "AcceptToMemoryPool : too many sigops %s, %d > %d"
  let nValueIn ← getValueIn mapInputs tx
  let nValueOut ← tx.getValueOut
  let nFees := int64 (nValueIn - nValueOut)
  let txMinFee := getMinFee tx 1000 .GMF_RELAY tx.serializeSize
  rejectIf ((fLimitFree ∧ nFees < txMinFee) ∨ (¬ fLimitFree ∧ nFees < MIN_TX_FEE)) 0
    "AcceptToMemoryPool : not enough fees %s, %d < %d"
  let (_, nBurnCoins) ← withText "AcceptToMemoryPool : ConnectInputs failed %s"
    (connectInputs P V (looseMode STANDARD_SCRIPT_VERIFY_FLAGS) s.pindexBest tx mapInputs ∅ 0)
  -- again with just the mandatory flags
  let _ ← withText ("AcceptToMemoryPool: : BUG! PLEASE REPORT THIS! " ++
      "ConnectInputs failed against MANDATORY but not STANDARD flags %s")
    (connectInputs P V (looseMode MANDATORY_SCRIPT_VERIFY_FLAGS) s.pindexBest tx mapInputs ∅
      nBurnCoins)
  .ok ()

/-- What `AcceptToMemoryPool` leaves in `*pfMissingInputs`. -/
def missingInputs (tx : CTransaction) : Bool :=
  match checkLoose P w s tx with
  | .error _ => false
  | .ok () =>
    match fetchInputs (s.txView w s.txdb.fresh) ∅ false false tx with
    | .error (.rejected 0 _) => true
    | _ => false

/-- The node after a transaction has been accepted. -/
def NodeState.addLoose (tx : CTransaction) : NodeState :=
  { s with
    mempool := s.mempool.addUnchecked (P.getHash tx) tx
    events := s.events ++ [.syncWithWallets tx none true] }

/-- `AcceptToMemoryPool` -/
def acceptToMemoryPool (tx : CTransaction) (fLimitFree : Bool) : Except Fault NodeState := do
  checkLoose P w s tx
  let mapInputs ← withText "AcceptToMemoryPool : FetchInputs found invalid tx %s"
    (fetchInputs (s.txView w s.txdb.fresh) ∅ false false tx)
  checkLooseInputs P w s tx fLimitFree mapInputs
  .ok (s.addLoose P tx)

end

end Bws
