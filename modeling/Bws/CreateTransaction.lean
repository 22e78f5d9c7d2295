import Bws.SelectCoins
import Bws.Sign

/-!
# The transactions that the wallet makes

`CreateTransaction` selects coins for the payments and a fee, signs, and starts again with a higher
fee when the signed transaction is too large for the fee.  A fee depends on the started kilobytes only,
so that no number of kilobytes raises it twice, and a transaction of 100 kilobytes is refused
(`WalletView.Raises.nodup`).

What is created pays what was asked for, and the rest of its inputs is the fee.  Coins that are newer
than the transaction are left out by `SelectCoinsMinConf`; the coins that the user has chosen are taken
as they are, and nobody asks how old they are (`WalletView.createTransaction_pays_iff`).
-/

namespace Bws

/-- `SetDestination` -/
def setDestination : CTxDestination → CScript
  | .noDestination => []
  | .keyID id =>
    [OP_DUP, OP_HASH160] ++ pushData (Codec.toLE 20 id) ++ [OP_EQUALVERIFY, OP_CHECKSIG]
  | .scriptID id => [OP_HASH160] ++ pushData (Codec.toLE 20 id) ++ [OP_EQUAL]

structure CCoinControl where
  destChange : CTxDestination
  setSelected : Finset COutPoint

/-- The selected coins, where there is a coin control that has selected some. -/
def selectedBy (coinControl : Option CCoinControl) : Option (Finset COutPoint) :=
  (coinControl.map CCoinControl.setSelected).filter (· ≠ ∅)

/-- What `CreateTransaction` meets.  A round of its loop is given by its number. -/
structure SendEnv where
  nTransactionFee : ℤ
  fSplitBlock : Bool
  nMinimumInputValue : ℤ
  isInitialBlockDownload : Bool
  /-- the number that is drawn when the lock time is moved back -/
  randLockTime : Option ℕ
  sign : CKey → UInt256 → Option valtype
  /-- the random choices of the selections in a round -/
  draws : ℕ → ℕ → Draws
  /-- `setCoins` in the order of its pointers -/
  order : Finset COutPoint → List COutPoint
  order_nodup : ∀ setCoins, (order setCoins).Nodup
  mem_order : ∀ setCoins coin, coin ∈ order setCoins ↔ coin ∈ setCoins
  /-- the random position of the change -/
  position : ℕ → ℕ → ℕ
  reservedKey : ℕ → Option CKeyID

namespace SendEnv

variable (env : SendEnv)

/-- The larger one of `nPayFee` and `nMinFee`. -/
def requiredFee (tx : CTransaction) (nBytes : ℕ) : ℤ :=
  max (int64 (env.nTransactionFee * (1 + (nBytes : ℤ) / 1000))) (getMinFee tx 1 .GMF_SEND nBytes)

/-- The outputs to a payee, in as many parts as there are; the last one has the remainder. -/
def outputsFor (nSplitBlock : ℤ) (s : CScript × ℤ) : List CTxOut :=
  if !env.fSplitBlock then [⟨s.2, s.1⟩]
  else
    let nSplitBlock := max 1 nSplitBlock
    (List.range nSplitBlock.toNat).map fun nCount ↦
      if nCount = nSplitBlock.toNat - 1 then
        ⟨int64 (s.2.tdiv nSplitBlock + s.2.tmod nSplitBlock), s.1⟩
      else ⟨s.2.tdiv nSplitBlock, s.1⟩

/-- The outputs to the payees. -/
def payeeOutputs (nSplitBlock : ℤ) (vecSend : List (CScript × ℤ)) : List CTxOut :=
  vecSend.flatMap (env.outputsFor nSplitBlock)

/-- `nFeeRet` before the first round -/
def initialFee : ℤ := if env.fSplitBlock then COIN / 1000 else env.nTransactionFee

end SendEnv

/-- The sum of the payments, which must not be negative on the way. -/
def sumPayments : ℤ → List (CScript × ℤ) → Option ℤ
  | nValue, [] => if nValue < 0 then none else some nValue
  | nValue, s :: vecSend => if nValue < 0 then none else sumPayments (int64 (nValue + s.2)) vecSend

/-- How a round of the loop of `CreateTransaction` ends. -/
inductive SendRound where
  | failed
  | done (tx : CTransaction)
  | again (nBytes : ℕ) (nFeeRet : ℤ)

/-- How `CreateTransaction` ends; `failed` has `nFeeRet` once it has been set. -/
inductive Sent where
  | outOfFuel
  | failed (nFeeRet : Option ℤ)
  | created (tx : CTransaction) (nFeeRet : ℤ)

namespace WalletView

variable (v : WalletView) (env : SendEnv)

/-! ## SelectCoins -/

/-- The outputs of an entry that `AvailableCoins` lists, from the output `i` on. -/
def availableOutputs (selected : Option (Finset COutPoint)) (e : UInt256 × CWalletTx) :
    ℕ → List CTxOut → Except Fault (List COutput)
  | _, [] => .ok []
  | i, txout :: vout => do
    let fSpent ← e.2.isSpent i
    let vCoins ← availableOutputs selected e (i + 1) vout
    if !fSpent && v.isMine txout && decide (env.nMinimumInputValue ≤ txout.nValue) &&
        selected.all fun setSelected ↦ decide (⟨e.1, i⟩ ∈ setSelected) then
      .ok (⟨e.1, e.2, i, v.depth e.2.toCMerkleTx⟩ :: vCoins)
    else .ok vCoins

/-- The loop of `AvailableCoins(vCoins, true, coinControl)`. -/
def availableFrom (selected : Option (Finset COutPoint)) :
    List (UInt256 × CWalletTx) → Except Fault (List COutput)
  | [] => .ok []
  | e :: entries => do
    if ¬ v.isFinal e.2.toCTransaction then availableFrom selected entries
    else
      let fTrusted ← v.isTrusted e
      if !fTrusted ||
          decide ((e.2.isCoinBase ∨ e.2.isCoinStake) ∧ 0 < v.blocksToMaturity e.2.toCMerkleTx) ||
          decide (v.depth e.2.toCMerkleTx < 0) then
        availableFrom selected entries
      else
        let vCoins ← v.availableOutputs env selected e 0 e.2.vout
        let rest ← availableFrom selected entries
        .ok (vCoins ++ rest)

def availableCoins (coinControl : Option CCoinControl) : Except Fault (List COutput) :=
  v.availableFrom env (selectedBy coinControl) v.entries

def selectCoins (draws : ℕ → Draws) (nTargetValue : ℤ) (nSpendTime : ℕ)
    (coinControl : Option CCoinControl) : Except Fault (Bool × Selection) := do
  let vCoins ← v.availableCoins env coinControl
  if (selectedBy coinControl).isSome then
    -- we want all selected to go into the transaction for sure
    let selection := Selection.empty.addAll (vCoins.map COutput.coin)
    .ok (nTargetValue ≤ selection.nValueRet, selection)
  else
    let first ← v.selectCoinsMinConf nTargetValue nSpendTime 1 10 (draws 0) vCoins
    if first.1 then .ok first
    else
      let second ← v.selectCoinsMinConf nTargetValue nSpendTime 1 1 (draws 1) vCoins
      if second.1 then .ok second
      else v.selectCoinsMinConf nTargetValue nSpendTime 0 1 (draws 2) vCoins

/-! ## CreateTransaction -/

/-- The output that a coin is. -/
def coinOutput (coin : COutPoint) : Option CTxOut :=
  (v.wallet.mapWallet coin.hash).bind fun wtx ↦ wtx.vout[coin.n]?

/-- The loop that signs. -/
def signInputs : List COutPoint → ℕ → CTransaction → Except Fault (Option CTransaction)
  | [], _, tx => .ok (some tx)
  | coin :: setCoins, nIn, tx =>
    match v.coinOutput coin with
    | none => .error (.thrown "txin.prevout.n < txFrom.vout.size()")
    | some txout =>
      let signed :=
        signSignature v.solverParams env.sign v.keystore txout.scriptPubKey tx nIn SIGHASH_ALL
      if signed.2 then signInputs setCoins (nIn + 1) signed.1 else .ok none

/-- The output with the change, to the address of the coin control or to a new key. -/
def changeOutput (round : ℕ) (coinControl : Option CCoinControl) (nChange : ℤ) :
    Except Fault CTxOut :=
  match (coinControl.map CCoinControl.destChange).filter (· ≠ .noDestination) with
  | some destChange => .ok ⟨nChange, setDestination destChange⟩
  | none =>
    match env.reservedKey round with
    | none => .error (.thrown "ret")
    | some id => .ok ⟨nChange, setDestination (.keyID id)⟩

/-- The outputs with the change among them, where there is any. -/
def withChange (round : ℕ) (coinControl : Option CCoinControl) (nChange : ℤ) (vout : List CTxOut) :
    Except Fault (List CTxOut) :=
  if 0 < nChange then do
    let txout ← changeOutput env round coinControl nChange
    let position := env.position round (vout.length + 1)
    .ok (vout.take position ++ txout :: vout.drop position)
  else .ok vout

/-- A round of the loop, with the fee `nFeeRet`. -/
def sendRound (vecSend : List (CScript × ℤ)) (nValue nSplitBlock : ℤ)
    (coinControl : Option CCoinControl) (wtxNew : CTransaction) (round : ℕ) (nFeeRet : ℤ) :
    Except Fault SendRound := do
  let selected ←
    v.selectCoins env (env.draws round) (int64 (nValue + nFeeRet)) wtxNew.nTime coinControl
  if !selected.1 then .ok .failed
  else
    let nChange := int64 (int64 (selected.2.nValueRet - nValue) - nFeeRet)
    let vout ← withChange env round coinControl nChange (env.payeeOutputs nSplitBlock vecSend)
    let setCoins := env.order selected.2.setCoinsRet
    let vin : List CTxIn := setCoins.map fun coin ↦ ⟨coin, [], uintMax - 1⟩
    match ← v.signInputs env setCoins 0 { wtxNew with vin := vin, vout := vout } with
    | none => .ok .failed
    | some tx =>
      let nBytes := tx.serializeSize
      if MAX_STANDARD_TX_SIZE ≤ nBytes then .ok .failed
      -- check that enough fee is included
      else if nFeeRet < env.requiredFee tx nBytes then .ok (.again nBytes (env.requiredFee tx nBytes))
      else .ok (.done tx)

/-- The loop, from a round on. -/
def sendLoop (vecSend : List (CScript × ℤ)) (nValue nSplitBlock : ℤ)
    (coinControl : Option CCoinControl) (wtxNew : CTransaction) : ℕ → ℕ → ℤ → Except Fault Sent
  | 0, _, _ => .ok .outOfFuel
  | fuel + 1, round, nFeeRet => do
    match ← v.sendRound env vecSend nValue nSplitBlock coinControl wtxNew round nFeeRet with
    | .failed => .ok (.failed (some nFeeRet))
    | .done tx => .ok (.created tx nFeeRet)
    | .again _ nFeeRet =>
      sendLoop vecSend nValue nSplitBlock coinControl wtxNew fuel (round + 1) nFeeRet

/-- The lock time that discourages fee sniping. -/
def lockTime (nLockTime : ℕ) : Except Fault ℕ :=
  let nBestHeight := v.node.nBestHeight
  let nLockTime : ℤ := if env.isInitialBlockDownload then nLockTime else max 0 (nBestHeight - 10)
  let nLockTime :=
    match env.randLockTime with
    | none => nLockTime
    | some n => max 0 (Int.bmod nLockTime (2 ^ 32) - n)
  if nBestHeight % 2 ^ 32 < nLockTime ∨ LOCKTIME_THRESHOLD ≤ nLockTime then
    .error (.thrown "wtxNew.nLockTime")
  else .ok nLockTime.toNat

def createTransaction (vecSend : List (CScript × ℤ)) (wtxNew : CTransaction) (nSplitBlock : ℤ)
    (coinControl : Option CCoinControl) (fuel : ℕ) : Except Fault Sent :=
  match sumPayments 0 vecSend with
  | none => .ok (.failed none)
  | some nValue =>
    if vecSend = [] then .ok (.failed none)
    else do
      let nLockTime ← v.lockTime env wtxNew.nLockTime
      v.sendLoop env vecSend nValue nSplitBlock coinControl { wtxNew with nLockTime := nLockTime }
        fuel 0 env.initialFee

end WalletView

/-! ## The coins that are available -/

theorem prevouts_setScriptSig (tx : CTransaction) (nIn : ℕ) (scriptSig : CScript) :
    (tx.setScriptSig nIn scriptSig).vin.map CTxIn.prevout = tx.vin.map CTxIn.prevout := by
  refine List.ext_getElem? fun i ↦ ?_
  rw [List.getElem?_map, List.getElem?_map, CTransaction.setScriptSig, List.getElem?_modify]
  by_cases hi : nIn = i
  · cases tx.vin[i]? with
    | none => rfl
    | some txin => simp [hi]
  · cases tx.vin[i]? with
    | none => rfl
    | some txin => simp [hi]

/-- Signing sets the script of an input. -/
theorem signSignature_eq (S : SolverParams) (sign : CKey → UInt256 → Option valtype)
    (keystore : CKeyStore) (fromPubKey : CScript) (txTo : CTransaction) (nIn nHashType : ℕ) :
    ∃ scriptSig, (signSignature S sign keystore fromPubKey txTo nIn nHashType).1 =
      txTo.setScriptSig nIn scriptSig := by
  unfold signSignature
  dsimp only
  split
  · exact ⟨_, rfl⟩
  · split_ifs
    · exact ⟨_, CTransaction.setScriptSig_setScriptSig ..⟩
    · exact ⟨_, rfl⟩

namespace WalletView

variable {v : WalletView} {env : SendEnv}

/-- The coins are outputs of the wallet, each of them once. -/
structure Lists (v : WalletView) (vCoins : List COutput) : Prop where
  entry : ∀ output ∈ vCoins, v.wallet.mapWallet output.hash = some output.tx
  output : ∀ output ∈ vCoins, output.i < output.tx.vout.length
  nodup : (vCoins.map COutput.outpoint).Nodup

theorem availableOutputs_spec {selected : Option (Finset COutPoint)} {e : UInt256 × CWalletTx}
    {vout : List CTxOut} : ∀ {i : ℕ} {vCoins : List COutput},
      v.availableOutputs env selected e i vout = .ok vCoins →
        (∀ output ∈ vCoins, output.hash = e.1 ∧ output.tx = e.2 ∧ i ≤ output.i ∧
          output.i < i + vout.length) ∧ (vCoins.map COutput.outpoint).Nodup := by
  induction vout with
  | nil =>
    intro i vCoins h
    cases h
    exact ⟨nofun, List.nodup_nil⟩
  | cons txout vout ih =>
    intro i vCoins h
    rw [availableOutputs] at h
    obtain ⟨fSpent, -, h⟩ := bind_eq_ok.mp h
    obtain ⟨rest, hrest, h⟩ := bind_eq_ok.mp h
    obtain ⟨hmem, hnodup⟩ := ih hrest
    have hlater : ∀ output ∈ rest, output.hash = e.1 ∧ output.tx = e.2 ∧ i ≤ output.i ∧
        output.i < i + (txout :: vout).length := by
      intro output hout
      obtain ⟨hhash, htx, hlo, hhi⟩ := hmem output hout
      rw [List.length_cons]
      exact ⟨hhash, htx, by omega, by omega⟩
    split_ifs at h
    · cases h
      refine ⟨List.forall_mem_cons.mpr ⟨⟨rfl, rfl, le_rfl, ?_⟩, hlater⟩, ?_⟩
      · exact Nat.lt_add_of_pos_right (Nat.succ_pos _)
      · refine List.nodup_cons.mpr ⟨fun hin ↦ ?_, hnodup⟩
        obtain ⟨output, hout, heq⟩ := List.mem_map.mp hin
        have hi : output.i = i := congrArg COutPoint.n heq
        have hlo := (hmem output hout).2.2.1
        omega
    · cases h
      exact ⟨hlater, hnodup⟩

theorem availableFrom_spec {selected : Option (Finset COutPoint)}
    {entries : List (UInt256 × CWalletTx)} (hnodup : (entries.map Prod.fst).Nodup) :
    ∀ {vCoins : List COutput}, v.availableFrom env selected entries = .ok vCoins →
      (∀ output ∈ vCoins, ∃ e ∈ entries, output.hash = e.1 ∧ output.tx = e.2 ∧
        output.i < e.2.vout.length) ∧ (vCoins.map COutput.outpoint).Nodup := by
  induction entries with
  | nil =>
    intro vCoins h
    cases h
    exact ⟨nofun, List.nodup_nil⟩
  | cons e entries ih =>
    intro vCoins h
    obtain ⟨hfresh, hnodup⟩ := List.nodup_cons.mp hnodup
    -- the coins of the later entries
    have hskip : v.availableFrom env selected entries = .ok vCoins →
        (∀ output ∈ vCoins, ∃ e' ∈ e :: entries, output.hash = e'.1 ∧ output.tx = e'.2 ∧
          output.i < e'.2.vout.length) ∧ (vCoins.map COutput.outpoint).Nodup := by
      intro hrest
      obtain ⟨hmem, hnodup'⟩ := ih hnodup hrest
      refine ⟨fun output hout ↦ ?_, hnodup'⟩
      obtain ⟨e', he', hfrom⟩ := hmem output hout
      exact ⟨e', List.mem_cons_of_mem e he', hfrom⟩
    rw [availableFrom] at h
    by_cases hfinal : v.isFinal e.2.toCTransaction
    · rw [if_neg (not_not.mpr hfinal)] at h
      obtain ⟨fTrusted, -, h⟩ := bind_eq_ok.mp h
      split_ifs at h
      · exact hskip h
      · obtain ⟨first, hfirst, h⟩ := bind_eq_ok.mp h
        obtain ⟨rest, hrest, h⟩ := bind_eq_ok.mp h
        cases h
        obtain ⟨hmem, hnodup'⟩ := ih hnodup hrest
        obtain ⟨hown, hnodup''⟩ := availableOutputs_spec hfirst
        refine ⟨fun output hout ↦ ?_, ?_⟩
        · rcases List.mem_append.mp hout with hout | hout
          · obtain ⟨hhash, htx, -, hi⟩ := hown output hout
            rw [zero_add] at hi
            exact ⟨e, List.mem_cons_self, hhash, htx, hi⟩
          · obtain ⟨e', he', hfrom⟩ := hmem output hout
            exact ⟨e', List.mem_cons_of_mem e he', hfrom⟩
        · rw [List.map_append, List.nodup_append]
          refine ⟨hnodup'', hnodup', ?_⟩
          rintro o ho _ ho' rfl
          obtain ⟨output, hout, rfl⟩ := List.mem_map.mp ho
          obtain ⟨output', hout', heq⟩ := List.mem_map.mp ho'
          obtain ⟨e', he', hhash, -⟩ := hmem output' hout'
          refine hfresh (List.mem_map.mpr ⟨e', he', ?_⟩)
          rw [← hhash, ← (hown output hout).1]
          exact congrArg COutPoint.hash heq
    · rw [if_pos hfinal] at h
      exact hskip h

theorem lists_of_availableCoins {coinControl : Option CCoinControl} {vCoins : List COutput}
    (h : v.availableCoins env coinControl = .ok vCoins) : Lists v vCoins := by
  have hnodup : (v.entries.map Prod.fst).Nodup :=
    List.pairwise_map.mpr (v.pairwise_entries.imp fun hlt ↦ ne_of_lt hlt)
  obtain ⟨hmem, hnodup'⟩ := availableFrom_spec hnodup h
  refine ⟨fun output hout ↦ ?_, fun output hout ↦ ?_, hnodup'⟩
  · obtain ⟨e, he, hhash, htx, -⟩ := hmem output hout
    rw [hhash, htx]
    exact mem_entries.mp he
  · obtain ⟨e, -, -, htx, hi⟩ := hmem output hout
    rw [htx]
    exact hi

/-! ## What is selected for a payment -/

/-- The amounts are small: no output of the wallet is negative, and the sums of the coins and of the
payments are far from what an `int64_t` can hold. -/
structure SmallAmounts (v : WalletView) (env : SendEnv) (coinControl : Option CCoinControl)
    (vecSend : List (CScript × ℤ)) : Prop where
  nonneg : ∀ e ∈ v.entries, ∀ txout ∈ e.2.vout, 0 ≤ txout.nValue
  coins : ∀ vCoins, v.availableCoins env coinControl = .ok vCoins →
    (vCoins.map COutput.nValue).sum < 2 ^ 63 - 1
  fee : moneyRange env.nTransactionFee
  positive : ∀ s ∈ vecSend, 0 < s.2
  payments : (vecSend.map Prod.snd).sum ≤ MAX_MONEY

/-- The coins that are selected are available, and each is selected once; those that are not chosen by
the user follow the timestamp rule. -/
structure Selected (v : WalletView) (env : SendEnv) (coinControl : Option CCoinControl)
    (nSpendTime : ℕ) (sel : Selection) (coins : List COutput) : Prop where
  available : ∃ vCoins, v.availableCoins env coinControl = .ok vCoins ∧ coins ⊆ vCoins ∧
    ((selectedBy coinControl).isSome → coins = vCoins)
  once : (coins.map COutput.outpoint).Nodup
  setCoinsRet : sel.setCoinsRet = (coins.map COutput.outpoint).toFinset
  nValueRet : sel.nValueRet = (coins.map COutput.nValue).sum
  nTime : selectedBy coinControl = none → ∀ output ∈ coins, output.tx.nTime ≤ nSpendTime

theorem Lists.nonneg {vCoins : List COutput} (h : Lists v vCoins)
    (hnonneg : ∀ e ∈ v.entries, ∀ txout ∈ e.2.vout, 0 ≤ txout.nValue) :
    ∀ output ∈ vCoins, 0 ≤ output.nValue := by
  intro output hout
  have hlen := h.output output hout
  rw [COutput.nValue, List.getElem?_eq_getElem hlen]
  exact hnonneg (output.hash, output.tx) (mem_entries.mpr (h.entry output hout)) _
    (List.getElem_mem hlen)

theorem eligibleValue_le {nSpendTime : ℕ} {nConfMine nConfTheirs : ℤ} {vCoins : List COutput}
    (h : ∀ output ∈ vCoins, 0 ≤ output.nValue) :
    v.eligibleValue nSpendTime nConfMine nConfTheirs vCoins ≤ (vCoins.map COutput.nValue).sum := by
  refine (List.filter_sublist.map COutput.nValue).sum_le_sum fun n hn ↦ ?_
  obtain ⟨output, hmem, rfl⟩ := List.mem_map.mp hn
  exact h output hmem

theorem nTime_le_of_eligible {nSpendTime : ℕ} {nConfMine nConfTheirs : ℤ} {output : COutput}
    (h : v.eligible nSpendTime nConfMine nConfTheirs output = true) :
    output.tx.nTime ≤ nSpendTime := by
  unfold eligible at h
  split at h
  · cases h
  · exact (of_decide_eq_true h).2

/-- A selection of `SelectCoinsMinConf`, as outputs of the list. -/
theorem Selects.outputs {nSpendTime : ℕ} {nConfMine nConfTheirs : ℤ} {vCoins : List COutput}
    {sel : Selection} {coins : List Coin}
    (h : Selects v nSpendTime nConfMine nConfTheirs vCoins sel coins) :
    ∃ outputs : List COutput, outputs.map COutput.coin = coins ∧ ∀ output ∈ outputs, output ∈ vCoins ∧
      output.tx.nTime ≤ nSpendTime := by
  have heligible := h.eligible
  clear h
  induction coins with
  | nil => exact ⟨[], rfl, nofun⟩
  | cons coin coins ih =>
    obtain ⟨⟨output, hmem, helig, rfl⟩, hrest⟩ := List.forall_mem_cons.mp heligible
    obtain ⟨outputs, hmap, houtputs⟩ := ih hrest
    refine ⟨output :: outputs, by rw [List.map_cons, hmap], List.forall_mem_cons.mpr
      ⟨⟨hmem, ?_⟩, houtputs⟩⟩
    exact nTime_le_of_eligible helig

theorem Selected.of_selects {coinControl : Option CCoinControl} {nSpendTime : ℕ}
    {nConfMine nConfTheirs : ℤ} {vCoins : List COutput} {sel : Selection} {coins : List Coin}
    (havailable : v.availableCoins env coinControl = .ok vCoins)
    (hnone : selectedBy coinControl = none)
    (h : Selects v nSpendTime nConfMine nConfTheirs vCoins sel coins) :
    ∃ outputs, Selected v env coinControl nSpendTime sel outputs := by
  obtain ⟨outputs, rfl, hmem⟩ := h.outputs
  have hpoints : (outputs.map COutput.coin).map Prod.snd = outputs.map COutput.outpoint :=
    List.map_map ..
  have hvalues : (outputs.map COutput.coin).map Prod.fst = outputs.map COutput.nValue :=
    List.map_map ..
  refine ⟨outputs, ⟨vCoins, havailable, fun output hout ↦ (hmem output hout).1, fun hsome ↦ ?_⟩,
    hpoints ▸ h.once, hpoints ▸ h.setCoinsRet, hvalues ▸ h.nValueRet,
    fun _ output hout ↦ (hmem output hout).2⟩
  rw [hnone] at hsome
  cases hsome

theorem selectCoins_spec {coinControl : Option CCoinControl} {vecSend : List (CScript × ℤ)}
    (hsmall : SmallAmounts v env coinControl vecSend) {draws : ℕ → Draws} {nTargetValue : ℤ}
    (htarget : 0 ≤ nTargetValue ∧ nTargetValue + CENT < 2 ^ 63) {nSpendTime : ℕ} {sel : Selection}
    (h : v.selectCoins env draws nTargetValue nSpendTime coinControl = .ok (true, sel)) :
    nTargetValue ≤ sel.nValueRet ∧
      ∃ coins, Selected v env coinControl nSpendTime sel coins := by
  unfold selectCoins at h
  obtain ⟨vCoins, havailable, h⟩ := bind_eq_ok.mp h
  have hlists := lists_of_availableCoins havailable
  have hnonneg := hlists.nonneg hsmall.nonneg
  have htotal := hsmall.coins vCoins havailable
  dsimp only at h
  split_ifs at h with hselected
  · obtain ⟨hreach, hsel⟩ := Prod.mk.inj (Except.ok.inj h)
    have hreach' := of_decide_eq_true hreach
    rw [hsel] at hreach'
    refine ⟨hreach', vCoins, ⟨vCoins, havailable, fun _ ↦ id, fun _ ↦ rfl⟩, hlists.nodup, ?_, ?_, ?_⟩
    · rw [← hsel, Selection.setCoinsRet_addAll, List.map_map]
      exact Finset.empty_union _
    · have hzero : Selection.empty.nValueRet = 0 := rfl
      have hvalues : (vCoins.map COutput.coin).map Prod.fst = vCoins.map COutput.nValue :=
        List.map_map ..
      rw [← hsel, Selection.nValueRet_addAll _ (by rw [hzero]), hzero, zero_add, hvalues]
      · intro coin hmem
        obtain ⟨output, hout, rfl⟩ := List.mem_map.mp hmem
        exact hnonneg output hout
      · rw [hzero, zero_add, hvalues]
        omega
    · intro hnone
      rw [hnone] at hselected
      cases hselected
  · have hnone : selectedBy coinControl = none := by
      rwa [Option.not_isSome_iff_eq_none] at hselected
    -- what each of the three selections makes of the coins
    have hexact : ∀ {C nConfMine nConfTheirs},
        v.selectCoinsMinConf nTargetValue nSpendTime nConfMine nConfTheirs C vCoins =
          .ok (true, sel) →
        nTargetValue ≤ sel.nValueRet ∧ ∃ coins, Selected v env coinControl nSpendTime sel coins := by
      intro C nConfMine nConfTheirs hok
      have hordinary : Ordinary v nTargetValue nSpendTime nConfMine nConfTheirs vCoins :=
        ⟨hlists.nodup, hnonneg, (eligibleValue_le hnonneg).trans_lt htotal,
          by omega, htarget.2⟩
      obtain ⟨hreach, coins, hselects⟩ := (selectsExactly_of_ordinary C hordinary true sel hok).2 rfl
      exact ⟨hreach, Selected.of_selects havailable hnone hselects⟩
    obtain ⟨first, hfirst, h⟩ := bind_eq_ok.mp h
    split_ifs at h with hfound
    · rw [Except.ok.inj h] at hfirst
      exact hexact hfirst
    · obtain ⟨second, hsecond, h⟩ := bind_eq_ok.mp h
      split_ifs at h with hfound'
      · rw [Except.ok.inj h] at hsecond
        exact hexact hsecond
      · exact hexact h

/-! ## What signing and the change leave -/

theorem signInputs_spec {setCoins : List COutPoint} : ∀ {nIn : ℕ} {tx tx' : CTransaction},
    v.signInputs env setCoins nIn tx = .ok (some tx') →
      tx'.vout = tx.vout ∧ tx'.nTime = tx.nTime ∧
        tx'.vin.map CTxIn.prevout = tx.vin.map CTxIn.prevout := by
  induction setCoins with
  | nil =>
    intro nIn tx tx' h
    cases h
    exact ⟨rfl, rfl, rfl⟩
  | cons coin setCoins ih =>
    intro nIn tx tx' h
    rw [signInputs] at h
    cases hout : v.coinOutput coin with
    | none =>
      rw [hout] at h
      cases h
    | some txout =>
      rw [hout] at h
      dsimp only at h
      split_ifs at h
      · obtain ⟨scriptSig, hsigned⟩ := signSignature_eq v.solverParams env.sign v.keystore
          txout.scriptPubKey tx nIn SIGHASH_ALL
        obtain ⟨hvout, htime, hvin⟩ := ih h
        rw [hsigned] at hvout htime hvin
        exact ⟨hvout, htime, hvin.trans (prevouts_setScriptSig tx nIn scriptSig)⟩
      · cases h

theorem withChange_spec {round : ℕ} {coinControl : Option CCoinControl} {nChange : ℤ}
    {vout vout' : List CTxOut} (h : withChange env round coinControl nChange vout = .ok vout') :
    ∃ change : Option CTxOut, vout'.Perm (vout ++ change.toList) ∧
      (change.map CTxOut.nValue).getD 0 = max 0 nChange := by
  unfold withChange at h
  split_ifs at h with hpos
  · obtain ⟨txout, hchange, h⟩ := bind_eq_ok.mp h
    cases h
    refine ⟨some txout, ?_, ?_⟩
    · refine (List.perm_middle).trans ?_
      rw [List.take_append_drop]
      exact (List.perm_append_singleton txout vout).symm
    · have hvalue : txout.nValue = nChange := by
        unfold changeOutput at hchange
        split at hchange
        · cases hchange
          rfl
        · split at hchange
          · cases hchange
          · cases hchange
            rfl
      rw [max_eq_right hpos.le]
      exact hvalue
  · cases h
    exact ⟨none, by simp, by simpa using not_lt.mp hpos⟩

end WalletView

/-! ## The payments -/

theorem sumPayments_eq {vecSend : List (CScript × ℤ)} (hpos : ∀ s ∈ vecSend, 0 < s.2) :
    ∀ {nValue : ℤ}, 0 ≤ nValue → nValue + (vecSend.map Prod.snd).sum < 2 ^ 63 →
      sumPayments nValue vecSend = some (nValue + (vecSend.map Prod.snd).sum) := by
  induction vecSend with
  | nil =>
    intro nValue hlo _
    rw [sumPayments, if_neg (not_lt.mpr hlo), List.map_nil, List.sum_nil, add_zero]
  | cons s vecSend ih =>
    intro nValue hlo hfit
    obtain ⟨hs, hpos⟩ := List.forall_mem_cons.mp hpos
    rw [List.map_cons, List.sum_cons] at hfit ⊢
    have hrest : 0 ≤ (vecSend.map Prod.snd).sum := List.sum_nonneg fun n hn ↦ by
      obtain ⟨s', hmem, rfl⟩ := List.mem_map.mp hn
      exact (hpos s' hmem).le
    have hstep : int64 (nValue + s.2) = nValue + s.2 := int64_eq ⟨by omega, by omega⟩
    rw [sumPayments, if_neg (not_lt.mpr hlo), hstep, ih hpos (by omega) (by omega), add_assoc]

/-- A payee gets the whole amount, in one part or in several. -/
theorem SendEnv.outputsFor_spec (env : SendEnv) (nSplitBlock : ℤ) {s : CScript × ℤ}
    (hpos : 0 < s.2) (hmax : s.2 ≤ MAX_MONEY) :
    totalValue (env.outputsFor nSplitBlock s) = s.2 ∧
      ∀ txout ∈ env.outputsFor nSplitBlock s, txout.scriptPubKey = s.1 := by
  have hmoney : MAX_MONEY < 2 ^ 62 := by decide
  unfold outputsFor
  split_ifs
  · refine ⟨by simp [totalValue_cons], fun txout hmem ↦ ?_⟩
    rw [List.mem_singleton.mp hmem]
  · dsimp only
    obtain ⟨m, hm⟩ : ∃ m : ℕ, max 1 nSplitBlock = m + 1 := by
      obtain ⟨m, hm⟩ := Int.eq_ofNat_of_zero_le (a := max 1 nSplitBlock - 1) (by omega)
      exact ⟨m, by omega⟩
    have hnat : ((m : ℤ) + 1).toNat = m + 1 := by omega
    rw [hm, hnat, Nat.add_sub_cancel]
    refine ⟨?_, fun txout hmem ↦ ?_⟩
    · have hm' : (0 : ℤ) ≤ m := Int.natCast_nonneg m
      have hsum := Int.mul_tdiv_add_tmod s.2 (m + 1)
      have hdiv := Int.tdiv_nonneg hpos.le (Int.le_add_one hm')
      have hmod := Int.tmod_nonneg ((m : ℤ) + 1) hpos.le
      generalize s.2.tdiv (m + 1) = q at *
      generalize s.2.tmod (m + 1) = r at *
      have hle : q ≤ (m + 1) * q := le_mul_of_one_le_left hdiv (by omega)
      have hlast : int64 (q + r) = q + r := int64_eq ⟨by omega, by omega⟩
      have hparts : ((List.range m).map fun nCount ↦
          if nCount = m then (⟨int64 (q + r), s.1⟩ : CTxOut) else ⟨q, s.1⟩) =
          List.replicate m ⟨q, s.1⟩ := by
        refine List.eq_replicate_iff.mpr ⟨by simp, fun txout hmem ↦ ?_⟩
        obtain ⟨nCount, hlt, rfl⟩ := List.mem_map.mp hmem
        rw [if_neg (List.mem_range.mp hlt).ne]
      rw [List.range_succ, List.map_append, hparts, List.map_singleton, if_pos rfl, hlast, totalValue,
        List.map_append, List.sum_append, List.map_replicate, List.sum_replicate, List.map_singleton,
        List.sum_singleton, nsmul_eq_mul]
      linarith
    · obtain ⟨nCount, -, rfl⟩ := List.mem_map.mp hmem
      split_ifs <;> rfl

namespace WalletView

variable {v : WalletView} {env : SendEnv} {coinControl : Option CCoinControl}
  {vecSend : List (CScript × ℤ)} {nSplitBlock : ℤ} {wtxNew : CTransaction}

/-- What an output of the wallet is worth. -/
def outputValue (v : WalletView) (coin : COutPoint) : ℤ :=
  ((v.coinOutput coin).map CTxOut.nValue).getD 0

/-- The payees get what was asked for, in total for each entry; the rest of the inputs is change and
the fee, which is enough for the signed size. -/
structure Pays (v : WalletView) (env : SendEnv) (vecSend : List (CScript × ℤ)) (tx : CTransaction)
    (nFeeRet : ℤ) : Prop where
  payees : ∃ (outputsOf : CScript × ℤ → List CTxOut) (change : Option CTxOut),
    (∀ s ∈ vecSend, totalValue (outputsOf s) = s.2 ∧
      ∀ txout ∈ outputsOf s, txout.scriptPubKey = s.1) ∧
    tx.vout.Perm (vecSend.flatMap outputsOf ++ change.toList)
  conserved : (tx.vin.map fun txin ↦ v.outputValue txin.prevout).sum = totalValue tx.vout + nFeeRet
  payFee : env.nTransactionFee * (1 + (tx.serializeSize : ℤ) / 1000) ≤ nFeeRet
  minFee : getMinFee tx 1 .GMF_SEND tx.serializeSize ≤ nFeeRet

/-- No input is newer than the transaction. -/
def FollowsTimes (v : WalletView) (tx : CTransaction) : Prop :=
  ∀ txin ∈ tx.vin, ∀ prev, v.wallet.mapWallet txin.prevout.hash = some prev → prev.nTime ≤ tx.nTime

/-- No coin that the user has chosen, and that is available, is newer than the time. -/
def NoneNewer (v : WalletView) (env : SendEnv) (coinControl : Option CCoinControl) (nTime : ℕ) :
    Prop :=
  (selectedBy coinControl).isSome → ∀ vCoins, v.availableCoins env coinControl = .ok vCoins →
    ∀ output ∈ vCoins, output.tx.nTime ≤ nTime

theorem totalValue_append (vout vout' : List CTxOut) :
    totalValue (vout ++ vout') = totalValue vout + totalValue vout' := by
  rw [totalValue, List.map_append, List.sum_append]
  rfl

theorem totalValue_perm {vout vout' : List CTxOut} (h : vout.Perm vout') :
    totalValue vout = totalValue vout' := (h.map CTxOut.nValue).sum_eq

theorem SmallAmounts.le_max (h : SmallAmounts v env coinControl vecSend) {s : CScript × ℤ}
    (hmem : s ∈ vecSend) : 0 < s.2 ∧ s.2 ≤ MAX_MONEY := by
  refine ⟨h.positive s hmem, le_trans ?_ h.payments⟩
  refine List.single_le_sum (fun n hn ↦ ?_) _ (List.mem_map_of_mem hmem)
  obtain ⟨s', hmem', rfl⟩ := List.mem_map.mp hn
  exact (h.positive s' hmem').le

theorem SmallAmounts.payments_nonneg (h : SmallAmounts v env coinControl vecSend) :
    0 ≤ (vecSend.map Prod.snd).sum := by
  refine List.sum_nonneg fun n hn ↦ ?_
  obtain ⟨s, hmem, rfl⟩ := List.mem_map.mp hn
  exact (h.positive s hmem).le

/-- The outputs to the payees are worth the payments. -/
theorem SmallAmounts.totalValue_payeeOutputs (h : SmallAmounts v env coinControl vecSend) :
    totalValue (env.payeeOutputs nSplitBlock vecSend) = (vecSend.map Prod.snd).sum := by
  have hparts : ∀ s ∈ vecSend, totalValue (env.outputsFor nSplitBlock s) = s.2 := fun s hmem ↦
    (env.outputsFor_spec nSplitBlock (h.le_max hmem).1 (h.le_max hmem).2).1
  rw [SendEnv.payeeOutputs]
  clear h
  induction vecSend with
  | nil => rfl
  | cons s vecSend ih =>
    obtain ⟨hs, hparts⟩ := List.forall_mem_cons.mp hparts
    rw [List.flatMap_cons, totalValue_append, hs, ih hparts, List.map_cons, List.sum_cons]

/-- The inputs are the selected coins. -/
theorem Selected.order_perm {nSpendTime : ℕ} {sel : Selection} {coins : List COutput}
    (h : Selected v env coinControl nSpendTime sel coins) :
    (env.order sel.setCoinsRet).Perm (coins.map COutput.outpoint) := by
  refine (List.perm_ext_iff_of_nodup (env.order_nodup _) h.once).mpr fun coin ↦ ?_
  rw [env.mem_order, h.setCoinsRet, List.mem_toFinset]

theorem Selected.outputValue {nSpendTime : ℕ} {sel : Selection} {coins : List COutput}
    (h : Selected v env coinControl nSpendTime sel coins) {output : COutput}
    (hmem : output ∈ coins) : v.wallet.mapWallet output.hash = some output.tx ∧
      v.outputValue output.outpoint = output.nValue := by
  obtain ⟨vCoins, havailable, hsub, -⟩ := h.available
  have hentry := (lists_of_availableCoins havailable).entry output (hsub hmem)
  refine ⟨hentry, ?_⟩
  have hcoin : v.coinOutput output.outpoint = output.tx.vout[output.i]? := by
    change (v.wallet.mapWallet output.hash).bind _ = _
    rw [hentry]
    rfl
  rw [WalletView.outputValue, hcoin]
  rfl

/-- What a transaction spends and what its times are, when its inputs are the selected coins. -/
theorem Selected.inputs {nSpendTime : ℕ} {sel : Selection} {coins : List COutput}
    (h : Selected v env coinControl nSpendTime sel coins) {tx : CTransaction}
    (hvin : tx.vin.map CTxIn.prevout = env.order sel.setCoinsRet) :
    (tx.vin.map fun txin ↦ v.outputValue txin.prevout).sum = sel.nValueRet ∧
      (v.FollowsTimes tx ↔ ∀ output ∈ coins, output.tx.nTime ≤ tx.nTime) := by
  have hperm := h.order_perm
  rw [← hvin] at hperm
  constructor
  · have hvalues : (tx.vin.map fun txin ↦ v.outputValue txin.prevout) =
        (tx.vin.map CTxIn.prevout).map v.outputValue := by
      rw [List.map_map]
      rfl
    rw [hvalues, (hperm.map _).sum_eq, List.map_map, h.nValueRet]
    exact congrArg List.sum (List.map_congr_left fun output hmem ↦ (h.outputValue hmem).2)
  · constructor
    · intro htimes output hmem
      have hin : output.outpoint ∈ tx.vin.map CTxIn.prevout :=
        hperm.mem_iff.mpr (List.mem_map_of_mem hmem)
      obtain ⟨txin, htxin, hprevout⟩ := List.mem_map.mp hin
      refine htimes txin htxin output.tx ?_
      rw [hprevout]
      exact (h.outputValue hmem).1
    · intro htimes txin htxin prev hprev
      have hin := hperm.mem_iff.mp (List.mem_map_of_mem htxin)
      obtain ⟨output, hmem, heq⟩ := List.mem_map.mp hin
      rw [← heq] at hprev
      cases hprev.symm.trans (h.outputValue hmem).1
      exact htimes output hmem

/-- The times follow the rule exactly when the coins that the user has chosen do. -/
theorem Selected.noneNewer_iff {nSpendTime : ℕ} {sel : Selection} {coins : List COutput}
    (h : Selected v env coinControl nSpendTime sel coins) :
    (∀ output ∈ coins, output.tx.nTime ≤ nSpendTime) ↔ v.NoneNewer env coinControl nSpendTime := by
  obtain ⟨vCoins, havailable, -, hall⟩ := h.available
  constructor
  · intro htimes hsome vCoins' havailable'
    cases havailable.symm.trans havailable'
    rw [← hall hsome]
    exact htimes
  · intro hnewer
    cases hselected : selectedBy coinControl with
    | none => exact h.nTime hselected
    | some setSelected =>
      have hsome : (selectedBy coinControl).isSome = true := by rw [hselected]; rfl
      rw [hall hsome]
      exact hnewer hsome vCoins havailable

theorem Selected.nValueRet_lt (hsmall : SmallAmounts v env coinControl vecSend) {nSpendTime : ℕ}
    {sel : Selection} {coins : List COutput}
    (h : Selected v env coinControl nSpendTime sel coins) : sel.nValueRet < 2 ^ 63 := by
  obtain ⟨vCoins, havailable, hsub, -⟩ := h.available
  have hnonneg := (lists_of_availableCoins havailable).nonneg hsmall.nonneg
  obtain ⟨coins', hperm, hsublist⟩ := List.subperm_of_subset (List.Nodup.of_map _ h.once) hsub
  have hle := (hsublist.map COutput.nValue).sum_le_sum fun n hn ↦ by
    obtain ⟨output, hmem, rfl⟩ := List.mem_map.mp hn
    exact hnonneg output hmem
  have htotal := hsmall.coins vCoins havailable
  rw [h.nValueRet, ← (hperm.map COutput.nValue).sum_eq]
  omega

/-! ## The rounds -/

/-- Whether a round succeeds, and what the next fee is, depends on the started kilobytes. -/
theorem requiredFee_eq {tx tx' : CTransaction} {nBytes nBytes' : ℕ}
    (h : nBytes / 1000 = nBytes' / 1000) :
    env.requiredFee tx nBytes = env.requiredFee tx' nBytes' := by
  have hcast : (nBytes : ℤ) / 1000 = (nBytes' : ℤ) / 1000 := by omega
  simp only [SendEnv.requiredFee, getMinFee, hcast, ne_eq, not_true_eq_false, false_and, if_false]

theorem requiredFee_spec (hfee : moneyRange env.nTransactionFee) (tx : CTransaction) {nBytes : ℕ}
    (h : nBytes < MAX_STANDARD_TX_SIZE) :
    env.requiredFee tx nBytes < 2 ^ 62 ∧
      env.nTransactionFee * (1 + (nBytes : ℤ) / 1000) ≤ env.requiredFee tx nBytes ∧
      0 ≤ env.requiredFee tx nBytes ∧
      getMinFee tx 1 .GMF_SEND nBytes ≤ env.requiredFee tx nBytes := by
  have hsize : MAX_STANDARD_TX_SIZE = 100000 := rfl
  have hmoney : MAX_MONEY = 9000000000000000 := rfl
  obtain ⟨hlo, hhi⟩ := hfee
  have hstarted : 0 ≤ 1 + (nBytes : ℤ) / 1000 ∧ 1 + (nBytes : ℤ) / 1000 ≤ 100 := by omega
  have hpay₀ : 0 ≤ env.nTransactionFee * (1 + (nBytes : ℤ) / 1000) := mul_nonneg hlo hstarted.1
  have hpay₁ : env.nTransactionFee * (1 + (nBytes : ℤ) / 1000) ≤ MAX_MONEY * 100 :=
    mul_le_mul hhi hstarted.2 hstarted.1 (by omega)
  have hpay : int64 (env.nTransactionFee * (1 + (nBytes : ℤ) / 1000)) =
      env.nTransactionFee * (1 + (nBytes : ℤ) / 1000) := int64_eq ⟨by omega, by omega⟩
  have hcap : ∀ x : ℤ, (if moneyRange x then x else MAX_MONEY) ≤ MAX_MONEY := by
    intro x
    split
    · rename_i hrange
      exact hrange.2
    · exact le_rfl
  have hmin : getMinFee tx 1 .GMF_SEND nBytes ≤ MAX_MONEY := by
    simp only [getMinFee, ne_eq, not_true_eq_false, false_and, if_false]
    exact hcap _
  rw [SendEnv.requiredFee, hpay]
  exact ⟨max_lt (by omega) (by omega), le_max_left .., hpay₀.trans (le_max_left ..), le_max_right ..⟩

/-- What a round does: it selects, adds the change, signs, and looks at the size and at the fee. -/
theorem sendRound_cases {nValue : ℤ} {round : ℕ} {nFeeRet : ℤ} {r : SendRound}
    (h : v.sendRound env vecSend nValue nSplitBlock coinControl wtxNew round nFeeRet = .ok r) :
    r = .failed ∨ ∃ sel vout tx,
      v.selectCoins env (env.draws round) (int64 (nValue + nFeeRet)) wtxNew.nTime coinControl =
        .ok (true, sel) ∧
      withChange env round coinControl (int64 (int64 (sel.nValueRet - nValue) - nFeeRet))
        (env.payeeOutputs nSplitBlock vecSend) = .ok vout ∧
      v.signInputs env (env.order sel.setCoinsRet) 0
        { wtxNew with
          vin := (env.order sel.setCoinsRet).map fun coin ↦ ⟨coin, [], uintMax - 1⟩, vout := vout } =
        .ok (some tx) ∧
      tx.serializeSize < MAX_STANDARD_TX_SIZE ∧
      (nFeeRet < env.requiredFee tx tx.serializeSize ∧
          r = .again tx.serializeSize (env.requiredFee tx tx.serializeSize) ∨
        env.requiredFee tx tx.serializeSize ≤ nFeeRet ∧ r = .done tx) := by
  unfold sendRound at h
  obtain ⟨⟨fSelected, sel⟩, hselect, h⟩ := bind_eq_ok.mp h
  cases fSelected with
  | false => exact Or.inl (Except.ok.inj h).symm
  | true =>
    obtain ⟨vout, hvout, h⟩ := bind_eq_ok.mp h
    obtain ⟨signed, hsigned, h⟩ := bind_eq_ok.mp h
    cases signed with
    | none => exact Or.inl (Except.ok.inj h).symm
    | some tx =>
      dsimp only at h
      by_cases hsize : MAX_STANDARD_TX_SIZE ≤ tx.serializeSize
      · rw [if_pos hsize] at h
        exact Or.inl (Except.ok.inj h).symm
      · rw [if_neg hsize] at h
        refine Or.inr ⟨sel, vout, tx, hselect, hvout, hsigned, not_le.mp hsize, ?_⟩
        by_cases hmore : nFeeRet < env.requiredFee tx tx.serializeSize
        · rw [if_pos hmore] at h
          exact Or.inl ⟨hmore, (Except.ok.inj h).symm⟩
        · rw [if_neg hmore] at h
          exact Or.inr ⟨not_lt.mp hmore, (Except.ok.inj h).symm⟩

/-- A round that is done has made a transaction that pays. -/
theorem sendRound_done (hsmall : SmallAmounts v env coinControl vecSend) {round : ℕ} {nFeeRet : ℤ}
    (hfee : 0 ≤ nFeeRet ∧ nFeeRet < 2 ^ 62) {tx : CTransaction}
    (h : v.sendRound env vecSend (vecSend.map Prod.snd).sum nSplitBlock coinControl wtxNew round
      nFeeRet = .ok (.done tx)) :
    v.Pays env vecSend tx nFeeRet ∧
      (v.FollowsTimes tx ↔ v.NoneNewer env coinControl wtxNew.nTime) := by
  have hmoney : MAX_MONEY = 9000000000000000 := rfl
  have hcent : CENT = 1000000 := rfl
  have hvalue := hsmall.payments_nonneg
  have hpayments := hsmall.payments
  obtain hfailed | ⟨sel, vout, tx', hselect, hwith, hsign, hsize, ⟨-, hagain⟩ | ⟨henough, hdone⟩⟩ :=
    sendRound_cases h
  · cases hfailed
  · cases hagain
  · cases hdone
    have htotal : int64 ((vecSend.map Prod.snd).sum + nFeeRet) =
        (vecSend.map Prod.snd).sum + nFeeRet := int64_eq ⟨by omega, by omega⟩
    rw [htotal] at hselect
    obtain ⟨hreach, coins, hcoins⟩ := selectCoins_spec hsmall ⟨by omega, by omega⟩ hselect
    have hlt := hcoins.nValueRet_lt hsmall
    have hrest : int64 (sel.nValueRet - (vecSend.map Prod.snd).sum) =
        sel.nValueRet - (vecSend.map Prod.snd).sum := int64_eq ⟨by omega, by omega⟩
    have hchange : int64 (sel.nValueRet - (vecSend.map Prod.snd).sum - nFeeRet) =
        sel.nValueRet - (vecSend.map Prod.snd).sum - nFeeRet := int64_eq ⟨by omega, by omega⟩
    rw [hrest, hchange] at hwith
    obtain ⟨change, hperm, hnChange⟩ := withChange_spec hwith
    obtain ⟨hvout, htime, hvin⟩ := signInputs_spec hsign
    rw [List.map_map] at hvin
    obtain ⟨hinputs, htimes⟩ := hcoins.inputs (hvin.trans (List.map_id _))
    obtain ⟨-, hpay, -, hmin⟩ := requiredFee_spec hsmall.fee tx hsize
    refine ⟨⟨⟨env.outputsFor nSplitBlock, change, fun s hmem ↦ ?_, hvout ▸ hperm⟩, ?_,
      hpay.trans henough, hmin.trans henough⟩, ?_⟩
    · exact env.outputsFor_spec nSplitBlock (hsmall.le_max hmem).1 (hsmall.le_max hmem).2
    · have hchangeValue : totalValue change.toList = (change.map CTxOut.nValue).getD 0 := by
        cases change with
        | none => rfl
        | some txout => exact add_zero txout.nValue
      have hvalues : totalValue tx.vout = (vecSend.map Prod.snd).sum + max 0
          (sel.nValueRet - (vecSend.map Prod.snd).sum - nFeeRet) := by
        rw [hvout, totalValue_perm hperm, totalValue_append, hsmall.totalValue_payeeOutputs,
          hchangeValue, hnChange]
      rw [hinputs, hvalues]
      omega
    · rw [htimes, htime]
      exact hcoins.noneNewer_iff

/-! ## The fee is raised once for each kilobyte step -/

/-- The rounds from a round and its fee to another one, with the started kilobytes, less one, of each
transaction whose fee was too low. -/
inductive Raises (v : WalletView) (env : SendEnv) (vecSend : List (CScript × ℤ))
    (nValue nSplitBlock : ℤ) (coinControl : Option CCoinControl) (wtxNew : CTransaction) :
    ℕ → ℤ → List ℕ → ℕ → ℤ → Prop where
  | refl (round : ℕ) (nFeeRet : ℤ) : Raises v env vecSend nValue nSplitBlock coinControl wtxNew round
      nFeeRet [] round nFeeRet
  | again {round round' nBytes : ℕ} {nFeeRet nFeeRet' nFeeRet'' : ℤ} {steps : List ℕ} :
      v.sendRound env vecSend nValue nSplitBlock coinControl wtxNew round nFeeRet =
        .ok (.again nBytes nFeeRet') →
      Raises v env vecSend nValue nSplitBlock coinControl wtxNew (round + 1) nFeeRet' steps round'
        nFeeRet'' →
      Raises v env vecSend nValue nSplitBlock coinControl wtxNew round nFeeRet
        (nBytes / 1000 :: steps) round' nFeeRet''

variable {nValue : ℤ}

theorem sendRound_again {round : ℕ} {nFeeRet nFeeRet' : ℤ} {nBytes : ℕ}
    (h : v.sendRound env vecSend nValue nSplitBlock coinControl wtxNew round nFeeRet =
      .ok (.again nBytes nFeeRet')) :
    nBytes < MAX_STANDARD_TX_SIZE ∧ nFeeRet < nFeeRet' ∧
      ∃ tx, env.requiredFee tx nBytes = nFeeRet' := by
  obtain hfailed | ⟨sel, vout, tx, -, -, -, hsize, ⟨hmore, hagain⟩ | ⟨-, hdone⟩⟩ := sendRound_cases h
  · cases hfailed
  · cases hagain
    exact ⟨hsize, hmore, tx, rfl⟩
  · cases hdone

/-- A kilobyte step that raises a fee requires more than it. -/
theorem Raises.lt_requiredFee {round round' : ℕ} {nFeeRet nFeeRet' : ℤ} {steps : List ℕ}
    (h : Raises v env vecSend nValue nSplitBlock coinControl wtxNew round nFeeRet steps round'
      nFeeRet') :
    ∀ step ∈ steps, step < 100 ∧ ∃ tx nBytes, nBytes / 1000 = step ∧
      nFeeRet < env.requiredFee tx nBytes := by
  induction h with
  | refl => exact nofun
  | again hround _ ih =>
    obtain ⟨hsize, hmore, tx, rfl⟩ := sendRound_again hround
    refine List.forall_mem_cons.mpr ⟨⟨?_, tx, _, rfl, hmore⟩, fun step hmem ↦ ?_⟩
    · exact Nat.div_lt_of_lt_mul hsize
    · obtain ⟨hlt, tx', nBytes', hstep, hmore'⟩ := ih step hmem
      exact ⟨hlt, tx', nBytes', hstep, hmore.trans hmore'⟩

/-- No kilobyte step raises the fee twice. -/
theorem Raises.nodup {round round' : ℕ} {nFeeRet nFeeRet' : ℤ} {steps : List ℕ}
    (h : Raises v env vecSend nValue nSplitBlock coinControl wtxNew round nFeeRet steps round'
      nFeeRet') :
    steps.Nodup := by
  induction h with
  | refl => exact List.nodup_nil
  | again hround hrest ih =>
    obtain ⟨-, -, tx, rfl⟩ := sendRound_again hround
    refine List.nodup_cons.mpr ⟨fun hmem ↦ ?_, ih⟩
    -- the later step would require more than the same step has required
    obtain ⟨-, tx', nBytes', hstep, hmore⟩ := hrest.lt_requiredFee _ hmem
    exact hmore.ne (requiredFee_eq hstep.symm)

theorem Raises.length_le {round round' : ℕ} {nFeeRet nFeeRet' : ℤ} {steps : List ℕ}
    (h : Raises v env vecSend nValue nSplitBlock coinControl wtxNew round nFeeRet steps round'
      nFeeRet') :
    steps.length ≤ 100 := by
  have hsub : steps ⊆ List.range 100 := fun step hmem ↦
    List.mem_range.mpr (h.lt_requiredFee step hmem).1
  exact (List.subperm_of_subset h.nodup hsub).length_le.trans_eq List.length_range

/-- The fee of each round is an amount that is far from what an `int64_t` can hold. -/
theorem Raises.fee (hfee : moneyRange env.nTransactionFee) {round round' : ℕ} {nFeeRet nFeeRet' : ℤ}
    {steps : List ℕ}
    (h : Raises v env vecSend nValue nSplitBlock coinControl wtxNew round nFeeRet steps round'
      nFeeRet')
    (hstart : 0 ≤ nFeeRet ∧ nFeeRet < 2 ^ 62) : 0 ≤ nFeeRet' ∧ nFeeRet' < 2 ^ 62 := by
  induction h with
  | refl => exact hstart
  | again hround _ ih =>
    obtain ⟨hsize, hmore, tx, rfl⟩ := sendRound_again hround
    exact ih ⟨hstart.1.trans hmore.le, (requiredFee_spec hfee tx hsize).1⟩

/-- How the loop ends: it has raised the fee in some rounds, and then either it is stopped, or it
fails, or a round is done. -/
theorem sendLoop_cases {fuel : ℕ} : ∀ {round : ℕ} {nFeeRet : ℤ} {r : Sent},
    v.sendLoop env vecSend nValue nSplitBlock coinControl wtxNew fuel round nFeeRet = .ok r →
      ∃ steps round' nFeeRet',
        Raises v env vecSend nValue nSplitBlock coinControl wtxNew round nFeeRet steps round'
          nFeeRet' ∧
        (r = .outOfFuel ∧ steps.length = fuel ∨ r = .failed (some nFeeRet') ∨
          ∃ tx, r = .created tx nFeeRet' ∧
            v.sendRound env vecSend nValue nSplitBlock coinControl wtxNew round' nFeeRet' =
              .ok (.done tx)) := by
  induction fuel with
  | zero =>
    intro round nFeeRet r h
    exact ⟨[], round, nFeeRet, .refl round nFeeRet, Or.inl ⟨(Except.ok.inj h).symm, rfl⟩⟩
  | succ fuel ih =>
    intro round nFeeRet r h
    rw [sendLoop] at h
    obtain ⟨sent, hround, h⟩ := bind_eq_ok.mp h
    cases sent with
    | failed =>
      exact ⟨[], round, nFeeRet, .refl round nFeeRet, Or.inr (Or.inl (Except.ok.inj h).symm)⟩
    | done tx =>
      exact ⟨[], round, nFeeRet, .refl round nFeeRet,
        Or.inr (Or.inr ⟨tx, (Except.ok.inj h).symm, hround⟩)⟩
    | again nBytes nFeeRet₁ =>
      obtain ⟨steps, round', nFeeRet', hraises, hends⟩ := ih h
      refine ⟨nBytes / 1000 :: steps, round', nFeeRet', .again hround hraises, ?_⟩
      rw [List.length_cons, Nat.add_right_cancel_iff]
      exact hends

/-- The loop ends within 101 rounds. -/
theorem sendLoop_ends {fuel : ℕ} (hfuel : 100 < fuel) {round : ℕ} {nFeeRet : ℤ} :
    v.sendLoop env vecSend nValue nSplitBlock coinControl wtxNew fuel round nFeeRet ≠
      .ok .outOfFuel := by
  intro h
  obtain ⟨steps, round', nFeeRet', hraises, ⟨-, hlength⟩ | hfailed | ⟨tx, hdone, -⟩⟩ :=
    sendLoop_cases h
  · have hle := hraises.length_le
    omega
  · cases hfailed
  · cases hdone

/-! ## What is created pays -/

/-- `CreateTransaction` ends, having raised the fee at most once for each kilobyte step.  The
transaction that it creates pays what was asked for, and none of its inputs is newer than it is if and
only if the user has chosen no coin that is. -/
theorem createTransaction_pays_iff (hsmall : SmallAmounts v env coinControl vecSend) :
    (∀ fuel, 100 < fuel →
      v.createTransaction env vecSend wtxNew nSplitBlock coinControl fuel ≠ .ok .outOfFuel) ∧
    (∀ nLockTime steps round nFeeRet,
      Raises v env vecSend (vecSend.map Prod.snd).sum nSplitBlock coinControl
        { wtxNew with nLockTime := nLockTime } 0 env.initialFee steps round nFeeRet →
      steps.Nodup ∧ ∀ step ∈ steps, step < MAX_STANDARD_TX_SIZE / 1000) ∧
    ∀ fuel tx nFeeRet,
      v.createTransaction env vecSend wtxNew nSplitBlock coinControl fuel =
          .ok (.created tx nFeeRet) →
        (v.Pays env vecSend tx nFeeRet ∧ v.FollowsTimes tx ↔
          v.NoneNewer env coinControl wtxNew.nTime) := by
  have hmoney : MAX_MONEY = 9000000000000000 := rfl
  have hsum : sumPayments 0 vecSend = some (vecSend.map Prod.snd).sum := by
    rw [sumPayments_eq hsmall.positive le_rfl, zero_add]
    have hpayments := hsmall.payments
    omega
  have hinitial : 0 ≤ env.initialFee ∧ env.initialFee < 2 ^ 62 := by
    obtain ⟨hlo, hhi⟩ := hsmall.fee
    unfold SendEnv.initialFee
    split
    · exact ⟨by decide, by decide⟩
    · exact ⟨hlo, by omega⟩
  refine ⟨fun fuel hfuel h ↦ ?_, fun nLockTime steps round nFeeRet h ↦ ?_, fun fuel tx nFeeRet h ↦ ?_⟩
  · rw [createTransaction, hsum] at h
    dsimp only at h
    by_cases hempty : vecSend = []
    · rw [if_pos hempty] at h
      cases h
    · rw [if_neg hempty] at h
      obtain ⟨nLockTime, -, h⟩ := bind_eq_ok.mp h
      exact sendLoop_ends hfuel h
  · exact ⟨h.nodup, fun step hmem ↦ (h.lt_requiredFee step hmem).1⟩
  · rw [createTransaction, hsum] at h
    dsimp only at h
    by_cases hempty : vecSend = []
    · rw [if_pos hempty] at h
      cases h
    · rw [if_neg hempty] at h
      obtain ⟨nLockTime, -, h⟩ := bind_eq_ok.mp h
      obtain ⟨steps, round, nFeeRet', hraises, ⟨hstopped, -⟩ | hfailed | ⟨tx', hcreated, hdone⟩⟩ :=
        sendLoop_cases h
      · cases hstopped
      · cases hfailed
      · cases hcreated
        obtain ⟨hpays, htimes⟩ := sendRound_done hsmall (hraises.fee hsmall.fee hinitial) hdone
        exact ⟨fun hboth ↦ htimes.mp hboth.2, fun hnewer ↦ ⟨hpays, htimes.mpr hnewer⟩⟩

end WalletView

namespace Sample

/-- What is received is one block deep, and is newer than the transactions that the wallet makes. -/
def lateFunds : CTransaction where
  nVersion := 1
  nTime := 500
  vin := [⟨⟨7, 0⟩, [], uintMax⟩]
  vout := [⟨10 * COIN, keyScript⟩]
  nLockTime := 0

def lateIn : CBlockIndex := .root (entryOf 10 (params.getHash lateFunds))

def lateCoin : COutPoint := ⟨params.getHash lateFunds, 0⟩

def lateEntry : CWalletTx where
  toCTransaction := lateFunds
  hashBlock := 10
  vMerkleBranch := []
  nIndex := 0
  fFromMe := false
  vfSpent := []

/-- A wallet that holds what is received. -/
def late : WalletView where
  params := params
  solverParams := oneKeyParams
  node :=
    { NodeState.init with
      mapBlockIndex hash := if hash = 10 then some lateIn else none
      pindexBest := some lateIn
      nBestHeight := 0 }
  nAdjustedTime := 600
  fConfChange := false
  keystore := oneKeyStore ∅
  mapAddressBook _ := false
  wallet := ⟨fun hash ↦ if hash = params.getHash lateFunds then some lateEntry else none⟩
  vtxPrev _ := []
  hashes := [params.getHash lateFunds]
  sorted := by decide
  mem_hashes hash := by
    by_cases h : hash = params.getHash lateFunds <;> simp [h]

/-- The only coin is taken from a set as it is. -/
noncomputable def plainSend : SendEnv where
  nTransactionFee := MIN_TX_FEE
  fSplitBlock := false
  nMinimumInputValue := 0
  isInitialBlockDownload := true
  randLockTime := none
  sign := oneSignature
  draws _ _ := noDraws
  order setCoins := if setCoins = {lateCoin} then [lateCoin] else setCoins.toList
  order_nodup setCoins := by
    split
    · exact List.nodup_singleton lateCoin
    · exact setCoins.nodup_toList
  mem_order setCoins coin := by
    split
    · rename_i h
      rw [h, List.mem_singleton, Finset.mem_singleton]
    · exact Finset.mem_toList
  position _ _ := 0
  reservedKey _ := none

def sendAt (nTime : ℕ) : CTransaction where
  nVersion := 1
  nTime := nTime
  vin := []
  vout := []
  nLockTime := 0

def chooseLate : CCoinControl := ⟨.noDestination, {lateCoin}⟩

/-- The whole coin is sent, except for the fee. -/
def payment : CScript × ℤ := (keyScript, 10 * COIN - MIN_TX_FEE)

/-- What is created, and the fee. -/
def created? : Except Fault Sent → Option (CTransaction × ℤ)
  | .ok (.created tx nFeeRet) => some (tx, nFeeRet)
  | _ => none

theorem eq_of_created? {sent : Except Fault Sent} {tx : CTransaction} {nFeeRet : ℤ}
    (h : created? sent = some (tx, nFeeRet)) : sent = .ok (.created tx nFeeRet) := by
  unfold created? at h
  split at h
  · cases h
    rfl
  · cases h

theorem smallAmounts_late {coinControl : Option CCoinControl}
    (h : ((late.availableCoins plainSend coinControl).toOption.map fun vCoins ↦
      (vCoins.map COutput.nValue).sum) = some (10 * COIN)) :
    late.SmallAmounts plainSend coinControl [payment] where
  nonneg := by decide +kernel
  coins vCoins havailable := by
    rw [havailable] at h
    have hsum : (vCoins.map COutput.nValue).sum = 10 * COIN := Option.some.inj h
    rw [hsum]
    decide
  fee := by decide
  positive := by decide
  payments := by decide

/-- The input that the user has chosen is newer than the transaction that is created. -/
theorem not_followsTimes_late :
    late.SmallAmounts plainSend (some chooseLate) [payment] ∧ ∃ tx,
      late.createTransaction plainSend [payment] (sendAt 300) 1 (some chooseLate) 101 =
        .ok (.created tx MIN_TX_FEE) ∧ ¬ late.FollowsTimes tx := by
  have hcreated : (created? (late.createTransaction plainSend [payment] (sendAt 300) 1
      (some chooseLate) 101)).map (fun r ↦ (r.1.vin.map CTxIn.prevout, r.1.nTime, r.2)) =
        some ([lateCoin], 300, MIN_TX_FEE) := by decide +kernel
  obtain ⟨⟨tx, nFeeRet⟩, hsent, hfields⟩ := Option.map_eq_some_iff.mp hcreated
  obtain ⟨hvin, hrest⟩ := Prod.mk.inj hfields
  obtain ⟨htime, rfl⟩ := Prod.mk.inj hrest
  refine ⟨smallAmounts_late (by decide +kernel), tx, eq_of_created? hsent, fun htimes ↦ ?_⟩
  have hin : lateCoin ∈ tx.vin.map CTxIn.prevout := by
    rw [hvin]
    exact List.mem_singleton_self lateCoin
  obtain ⟨txin, hmem, hprevout⟩ := List.mem_map.mp hin
  have hheld : late.wallet.mapWallet txin.prevout.hash = some lateEntry := by
    rw [hprevout]
    simp [late, lateCoin]
  have hle := htimes txin hmem lateEntry hheld
  rw [htime] at hle
  exact absurd hle (by decide)

end Sample

namespace WalletView

theorem createTransaction_pays_iff_sample : ∃ tx,
    Sample.late.createTransaction Sample.plainSend [Sample.payment] (Sample.sendAt 600) 1 none 101 =
      .ok (.created tx MIN_TX_FEE) ∧
    Sample.late.Pays Sample.plainSend [Sample.payment] tx MIN_TX_FEE ∧
    Sample.late.FollowsTimes tx := by
  have hcreated : (Sample.created? (Sample.late.createTransaction Sample.plainSend [Sample.payment]
      (Sample.sendAt 600) 1 none 101)).map Prod.snd = some MIN_TX_FEE := by decide +kernel
  obtain ⟨⟨tx, nFeeRet⟩, hsent, rfl⟩ := Option.map_eq_some_iff.mp hcreated
  have h := Sample.eq_of_created? hsent
  have hsmall : SmallAmounts Sample.late Sample.plainSend none [Sample.payment] :=
    Sample.smallAmounts_late (by decide +kernel)
  refine ⟨tx, h, ((createTransaction_pays_iff hsmall).2.2 101 tx _ h).mpr ?_⟩
  rintro ⟨⟩

end WalletView

end Bws
