import Bws.AcceptBlock
import Bws.Spend

/-!
# The byte that tells a burned output

`ConnectInputs` looks at `scriptPubKey[1]` of every output, and nothing before has looked at the size
of a script: `CheckTransaction` only refuses an output that has neither value nor script.  `ConnectInputs`
with a checked access in place of the unchecked one comes to the same result in every call exactly for
the transactions that do not get as far, or all of whose scripts have two bytes
(`readsInside_iff`).
-/

namespace Bws

/-! ## A checked access -/

/-- The burning loop of `ConnectInputs` with `scriptPubKey.at(1)` for `scriptPubKey[1]`. -/
def burnCoinsAt : ℕ → List CTxOut → Except Fault ℕ
  | nBurnCoins, [] => .ok nBurnCoins
  | nBurnCoins, txout :: vout =>
    match txout.scriptPubKey[1]? with
    | none => .error (.thrown "vout[i].scriptPubKey.at(1)")
    | some opcode =>
      burnCoinsAt
        (if opcode = OP_BURN then uint64 (nBurnCoins + txout.nValue) else nBurnCoins) vout

/-- The end of `ConnectInputs`, with the checked access. -/
def checkFeeAt (fBlock : Bool) (tx : CTransaction) (nValueIn : ℤ) (nBurnCoins : ℕ) :
    Except Fault ℕ :=
  if tx.isCoinStake then .ok nBurnCoins
  else do
    let nValueOut ← tx.getValueOut
    rejectIf (nValueIn < nValueOut) 100 "ConnectInputs() : %s value in < value out"
    let nTxFee := int64 (nValueIn - nValueOut)
    rejectIf (nTxFee < 0) 100 "ConnectInputs() : %s nTxFee < 0"
    rejectIf (nTxFee < getMinFee tx 1 .GMF_BLOCK 0) (if fBlock then 100 else 0)
      "ConnectInputs() : %s not paying required fee=%s, paid=%s"
    rejectIf (¬ moneyRange nTxFee) 100 "ConnectInputs() : nFees out of range"
    burnCoinsAt nBurnCoins tx.vout

/-- `CTransaction::ConnectInputs`, with the checked access. -/
def connectInputsAt (P : Params) (V : TxView) (m : ConnectMode)
    (pindexBlock : Option CBlockIndex) (tx : CTransaction) (inputs : MapPrevTx)
    (mapTestPool : TxIndexMap) (nBurnCoins : ℕ) : Except Fault (TxIndexMap × ℕ) :=
  if tx.isCoinBase then .ok (mapTestPool, nBurnCoins)
  else do
    let nValueIn ← checkInputs pindexBlock tx inputs 0 tx.vin
    let mapTestPool ← spendInputs P V m tx 0 inputs mapTestPool tx.vin
    let nBurnCoins ← checkFeeAt m.fBlock tx nValueIn nBurnCoins
    .ok (mapTestPool, nBurnCoins)

/-- No call of `ConnectInputs` for the transaction reads past the end of a script: with the checked
access it comes to the same. -/
def ReadsInside (P : Params) (tx : CTransaction) : Prop :=
  ∀ (V : TxView) (m : ConnectMode) (pindexBlock : Option CBlockIndex) (inputs : MapPrevTx)
    (mapTestPool : TxIndexMap) (nBurnCoins : ℕ),
    connectInputsAt P V m pindexBlock tx inputs mapTestPool nBurnCoins =
      connectInputs P V m pindexBlock tx inputs mapTestPool nBurnCoins

/-! ## Where the checked access does not fail -/

theorem burnCoinsAt_eq_ok (P : Params) {vout : List CTxOut}
    (h : ∀ txout ∈ vout, 2 ≤ txout.scriptPubKey.length) :
    ∀ nBurnCoins, burnCoinsAt nBurnCoins vout = .ok (burnCoins P nBurnCoins vout) := by
  induction vout with
  | nil => exact fun _ ↦ rfl
  | cons txout vout ih =>
    intro nBurnCoins
    rw [List.forall_mem_cons] at h
    have hget : txout.scriptPubKey[1]? = some txout.scriptPubKey[1] :=
      List.getElem?_eq_getElem h.1
    rw [burnCoinsAt, burnCoins, hget, Params.scriptByte1, hget]
    exact ih h.2 _

/-- The checked access fails at a script that is too short. -/
theorem burnCoinsAt_ne_ok {vout : List CTxOut} {txout : CTxOut} (hmem : txout ∈ vout)
    (h : txout.scriptPubKey.length < 2) : ∀ nBurnCoins n, burnCoinsAt nBurnCoins vout ≠ .ok n := by
  induction vout with
  | nil => cases hmem
  | cons txout' vout ih =>
    intro nBurnCoins n
    rw [burnCoinsAt]
    rcases hget : txout'.scriptPubKey[1]? with _ | opcode
    · exact nofun
    · rcases List.mem_cons.1 hmem with rfl | hmem
      · rw [List.getElem?_eq_none (by omega)] at hget
        cases hget
      · exact ih hmem _ n

theorem getMinFee_block (tx : CTransaction) : getMinFee tx 1 .GMF_BLOCK 0 = MIN_TX_FEE := by
  unfold getMinFee
  decide

theorem rejectIf_bind {α : Type} {bad : Prop} [Decidable bad] {nDoS : ℕ} {msg : String}
    {f : Unit → Except Fault α} (h : ¬ bad) : (rejectIf bad nDoS msg >>= f) = f () := by
  rw [rejectIf, if_neg h]
  rfl

/-- What is refused is refused whatever comes after it. -/
theorem rejectIf_bind_congr {α : Type} {bad : Prop} [Decidable bad] {nDoS : ℕ} {msg : String}
    {f g : Unit → Except Fault α} (h : ¬ bad → f () = g ()) :
    (rejectIf bad nDoS msg >>= f) = (rejectIf bad nDoS msg >>= g) := by
  by_cases hbad : bad
  · rw [rejectIf, if_pos hbad]
    rfl
  · rw [rejectIf_bind hbad, rejectIf_bind hbad, h hbad]

section

variable {P : Params} {fBlock : Bool} {tx : CTransaction} {nValueIn : ℤ} {nBurnCoins : ℕ}

/-- A transaction that pays just the fee is inspected. -/
theorem checkFee_paid (hcs : ¬ tx.isCoinStake)
    (hvalue : tx.getValueOut = .ok (totalValue tx.vout))
    (hpaid : nValueIn = totalValue tx.vout + MIN_TX_FEE) :
    checkFee P fBlock tx nValueIn nBurnCoins = .ok (burnCoins P nBurnCoins tx.vout) ∧
      checkFeeAt fBlock tx nValueIn nBurnCoins = burnCoinsAt nBurnCoins tx.vout := by
  have hfee : int64 (nValueIn - totalValue tx.vout) = MIN_TX_FEE := by
    rw [hpaid, add_sub_cancel_left]
    decide
  have hpos : (0 : ℤ) < MIN_TX_FEE := by decide
  have hmoney : moneyRange MIN_TX_FEE := by decide
  have hle : ¬ nValueIn < totalValue tx.vout := by omega
  rw [checkFee, checkFeeAt, if_neg hcs, if_neg hcs, hvalue, getMinFee_block]
  constructor
  all_goals
    refine (rejectIf_bind hle).trans ?_
    simp only [hfee]
    rw [rejectIf_bind (not_lt.2 hpos.le), rejectIf_bind (lt_irrefl _),
      rejectIf_bind (not_not.2 hmoney)]

/-- With the fee the outputs would be worth more than there can be money: nothing is inspected. -/
theorem checkFeeAt_eq_of_noRoom (hcs : ¬ tx.isCoinStake)
    (hvalue : tx.getValueOut = .ok (totalValue tx.vout)) (hrange : moneyRange nValueIn)
    (hroom : MAX_MONEY < totalValue tx.vout + MIN_TX_FEE) :
    checkFeeAt fBlock tx nValueIn nBurnCoins = checkFee P fBlock tx nValueIn nBurnCoins := by
  have hfee : MIN_TX_FEE = 10000 := rfl
  obtain ⟨-, hhi⟩ := hrange
  rw [checkFee, checkFeeAt, if_neg hcs, if_neg hcs, hvalue, getMinFee_block]
  refine rejectIf_bind_congr fun hle ↦ ?_
  refine rejectIf_bind_congr fun hneg ↦ rejectIf_bind_congr fun hpaid ↦ absurd ?_ hpaid
  rw [int64_eq ⟨by omega, by omega⟩]
  omega

/-- All scripts have the byte that is inspected. -/
theorem checkFeeAt_eq_of_bytes (h : ∀ txout ∈ tx.vout, 2 ≤ txout.scriptPubKey.length) :
    checkFeeAt fBlock tx nValueIn nBurnCoins = checkFee P fBlock tx nValueIn nBurnCoins := by
  rw [checkFee, checkFeeAt, burnCoinsAt_eq_ok P h]

end

/-- The inputs are worth no more than there can be money. -/
theorem moneyRange_of_checkInputs {pindexBlock : Option CBlockIndex} {tx : CTransaction}
    {inputs : MapPrevTx} {vin : List CTxIn} : ∀ {nValueIn n}, moneyRange nValueIn →
      checkInputs pindexBlock tx inputs nValueIn vin = .ok n → moneyRange n := by
  induction vin with
  | nil =>
    rintro nValueIn _ h ⟨⟩
    exact h
  | cons txin vin ih =>
    intro nValueIn n _ h
    obtain ⟨n₁, h₁, h₂⟩ := bind_eq_ok.1 h
    refine ih ?_ h₂
    unfold checkInput at h₁
    split at h₁
    · cases h₁
    · split at h₁
      · cases h₁
      · simp only [bind_eq_ok, rejectIf_eq_ok, not_or, not_not] at h₁
        obtain ⟨-, -, -, -, -, -, -, -, -, hmoney, h₁⟩ := h₁
        cases h₁
        exact hmoney.2

/-! ## Previous transactions that pay for anything -/

section

variable (o : COutPoint) (nValue : ℤ) (n : ℕ)

/-- The outputs of a previous transaction: the outpoint `o` is worth `nValue`, all others nothing. -/
def paidOut (hash : UInt256) : List CTxOut :=
  (List.range n).map fun k ↦ ⟨if (⟨hash, k⟩ : COutPoint) = o then nValue else 0, [0]⟩

/-- Under every hash a previous transaction with `n` outputs, none of them spent. -/
def paidInputs : MapPrevTx := fun hash ↦
  some (CTxIndex.mk' .inMemory n, ⟨1, 0, [], paidOut o nValue n hash, 0⟩)

variable {o nValue n}

theorem getElem?_paidOut {hash : UInt256} {k : ℕ} (hk : k < n) :
    (paidOut o nValue n hash)[k]? =
      some ⟨if (⟨hash, k⟩ : COutPoint) = o then nValue else 0, [0]⟩ := by
  simp [paidOut, hk]

/-- One input: what it is worth is added up, as long as there can be so much money. -/
theorem checkInput_paidInputs {pindexBlock : Option CBlockIndex} {tx : CTransaction}
    {prevout : COutPoint} {nValueIn : ℤ} (hn : prevout.n < n) (hvalue : moneyRange nValue)
    (hsum : moneyRange (nValueIn + if prevout = o then nValue else 0)) :
    checkInput pindexBlock tx (paidInputs o nValue n) nValueIn prevout =
      .ok (nValueIn + if prevout = o then nValue else 0) := by
  have hmax : MAX_MONEY < 2 ^ 62 := by decide
  obtain ⟨hlo, hhi⟩ := hsum
  have hexact : int64 (nValueIn + if prevout = o then nValue else 0) =
      nValueIn + if prevout = o then nValue else 0 := int64_eq ⟨by omega, by omega⟩
  have hrange : moneyRange (if prevout = o then nValue else 0) := by
    split_ifs
    exacts [hvalue, by decide]
  simp only [checkInput, paidInputs, getElem?_paidOut hn]
  refine bind_eq_ok.2 ⟨(), rejectIf_eq_ok.2 ?_, bind_eq_ok.2 ⟨(), rejectIf_eq_ok.2 ?_,
    bind_eq_ok.2 ⟨(), rejectIf_eq_ok.2 (Nat.not_lt_zero _), bind_eq_ok.2 ⟨(),
      rejectIf_eq_ok.2 ?_, bind_eq_ok.2 ⟨(), rejectIf_eq_ok.2 ?_, congrArg _ hexact⟩⟩⟩⟩⟩
  · simpa [CTxIndex.mk'] using hn
  · rintro ⟨h | h, -⟩
    · simp [CTransaction.isCoinBase] at h
    · simp [CTransaction.isCoinStake] at h
  · simp [CTxOut.isEmpty]
  · rw [hexact]
    exact not_or.2 ⟨not_not.2 hrange, not_not.2 ⟨hlo, hhi⟩⟩

/-- Inputs other than `o` add nothing. -/
theorem checkInputs_paidInputs {pindexBlock : Option CBlockIndex} {tx : CTransaction}
    (hvalue : moneyRange nValue) {vin : List CTxIn} (hn : ∀ txin ∈ vin, txin.prevout.n < n)
    (hnot : ∀ txin ∈ vin, txin.prevout ≠ o) :
    ∀ {nValueIn}, moneyRange nValueIn →
      checkInputs pindexBlock tx (paidInputs o nValue n) nValueIn vin = .ok nValueIn := by
  induction vin with
  | nil => exact fun _ ↦ rfl
  | cons txin vin ih =>
    intro nValueIn hin
    rw [List.forall_mem_cons] at hn hnot
    have hround : checkInput pindexBlock tx (paidInputs o nValue n) nValueIn txin.prevout =
        .ok (nValueIn + if txin.prevout = o then nValue else 0) :=
      checkInput_paidInputs hn.1 hvalue (by rw [if_neg hnot.1, add_zero]; exact hin)
    rw [if_neg hnot.1, add_zero] at hround
    rw [checkInputs, hround]
    exact ih hn.2 hnot.2 hin

end

/-- Every signature is right, and every output can be spent once. -/
theorem spendInputs_of_null {P : Params} {V : TxView} {m : ConnectMode} {tx : CTransaction}
    (hsig : ∀ txPrev i, checkSignature P V m.fBlock m.flags txPrev tx i = .ok ())
    {vin : List CTxIn} :
    (vin.map CTxIn.prevout).Nodup → ∀ {i : ℕ} {inputs : MapPrevTx} {mapTestPool : TxIndexMap},
      (∀ txin ∈ vin, ∃ txindex txPrev, inputs txin.prevout.hash = some (txindex, txPrev) ∧
        txindex.vSpent[txin.prevout.n]? = some .null) →
      ∃ r, spendInputs P V m tx i inputs mapTestPool vin = .ok r := by
  induction vin with
  | nil => exact fun _ _ _ mapTestPool _ ↦ ⟨mapTestPool, rfl⟩
  | cons txin vin ih =>
    intro hnodup i inputs mapTestPool h
    rw [List.map_cons, List.nodup_cons] at hnodup
    rw [List.forall_mem_cons] at h
    obtain ⟨⟨txindex, txPrev, hin, hnull⟩, hrest⟩ := h
    have hround : ∃ pool, spendInput P V m tx i inputs mapTestPool txin.prevout =
        .ok (Function.update inputs txin.prevout.hash (some
          ({ txindex with vSpent := txindex.vSpent.set txin.prevout.n m.posThisTx }, txPrev)),
          pool) := by
      simp only [spendInput, hin, hnull]
      exact ⟨_, bind_eq_ok.2 ⟨(), rejectIf_eq_ok.2 (not_not.2 rfl),
        bind_eq_ok.2 ⟨(), hsig txPrev i, rfl⟩⟩⟩
    obtain ⟨pool, hround⟩ := hround
    -- the other slots are as they were
    have hrest' : ∀ txin' ∈ vin, ∃ txindex' txPrev',
        Function.update inputs txin.prevout.hash (some
          ({ txindex with vSpent := txindex.vSpent.set txin.prevout.n m.posThisTx }, txPrev))
          txin'.prevout.hash = some (txindex', txPrev') ∧
        txindex'.vSpent[txin'.prevout.n]? = some .null := by
      intro txin' hmem
      obtain ⟨txindex', txPrev', hin', hnull'⟩ := hrest txin' hmem
      by_cases hhash : txin'.prevout.hash = txin.prevout.hash
      · have hne : txin.prevout.n ≠ txin'.prevout.n := fun hn ↦
          hnodup.1 (List.mem_map.2 ⟨txin', hmem, congrArg₂ COutPoint.mk hhash hn.symm⟩)
        rw [hhash] at hin' ⊢
        cases hin.symm.trans hin'
        refine ⟨_, _, Function.update_self .., ?_⟩
        rw [List.getElem?_set_ne hne, hnull']
      · rw [Function.update_of_ne hhash]
        exact ⟨txindex', txPrev', hin', hnull'⟩
    obtain ⟨r, hr⟩ := ih hnodup.2 hrest'
    exact ⟨r, bind_eq_ok.2 ⟨_, hround, hr⟩⟩

/-! ## The transactions that are inspected -/

/-- Nothing need stop `ConnectInputs` before it looks at the scripts: no signature is checked below
the height of the last checkpoint, and the previous transactions may pay for the outputs and the
fee. -/
theorem not_readsInside {P : Params} {tx : CTransaction} (h : checkTransaction tx = .ok ())
    (hcb : ¬ tx.isCoinBase) (hcs : ¬ tx.isCoinStake)
    (hpaid : totalValue tx.vout + MIN_TX_FEE ≤ MAX_MONEY)
    {txout : CTxOut} (hmem : txout ∈ tx.vout) (hshort : txout.scriptPubKey.length < 2) :
    ¬ ReadsInside P tx := by
  obtain ⟨nValueOut, hvalue⟩ := getValueOut_of_checkTransaction h
  obtain ⟨rfl, hlo, -⟩ := totalValue_of_getValueOut hvalue
  simp only [checkTransaction, bind_eq_ok, rejectIf_eq_ok, not_not] at h
  obtain ⟨-, hvin, -, -, -, -, -, -, -, hnodup, -⟩ := h
  obtain ⟨txin, vin, hcons⟩ := List.exists_cons_of_ne_nil hvin
  have hfee : MIN_TX_FEE = 10000 := rfl
  have hmax : MAX_MONEY < 2 ^ 62 := by decide
  let nValue := totalValue tx.vout + MIN_TX_FEE
  let n := (tx.vin.map fun txin ↦ txin.prevout.n).sum + 1
  let V : TxView := ⟨fun _ ↦ none, fun _ ↦ none, fun _ _ ↦ none, fun _ ↦ none, -1⟩
  let m : ConnectMode := ⟨.inMemory, true, false, 0⟩
  have hrange : moneyRange nValue := ⟨by omega, hpaid⟩
  have hn : ∀ txin ∈ tx.vin, txin.prevout.n < n := fun txin hmem ↦
    Nat.lt_succ_of_le (List.le_sum_of_mem (List.mem_map_of_mem hmem))
  have hsig : ∀ txPrev i, checkSignature P V m.fBlock m.flags txPrev tx i = .ok () := fun _ _ ↦
    if_pos ⟨rfl, by rw [P.getTotalBlocksEstimate_eq]; decide⟩
  have hinputs : checkInputs none tx (paidInputs txin.prevout nValue n) 0 tx.vin = .ok nValue := by
    rw [hcons] at hn hnodup ⊢
    rw [List.forall_mem_cons] at hn
    rw [List.map_cons, List.nodup_cons] at hnodup
    have hround : checkInput none tx (paidInputs txin.prevout nValue n) 0 txin.prevout =
        .ok (0 + if txin.prevout = txin.prevout then nValue else 0) :=
      checkInput_paidInputs hn.1 hrange (by rw [if_pos rfl, zero_add]; exact hrange)
    rw [if_pos rfl, zero_add] at hround
    rw [checkInputs, hround]
    refine checkInputs_paidInputs hrange hn.2 (fun txin' hmem hsame ↦ hnodup.1 ?_) hrange
    exact hsame ▸ List.mem_map_of_mem hmem
  obtain ⟨pool, hspend⟩ : ∃ pool,
      spendInputs P V m tx 0 (paidInputs txin.prevout nValue n) ∅ tx.vin = .ok pool :=
    spendInputs_of_null hsig hnodup fun txin' hmem ↦
      ⟨_, _, rfl, List.getElem?_replicate_of_lt (hn txin' hmem)⟩
  have hfees : checkFee P m.fBlock tx nValue 0 = .ok (burnCoins P 0 tx.vout) ∧
      checkFeeAt m.fBlock tx nValue 0 = burnCoinsAt 0 tx.vout := checkFee_paid hcs hvalue rfl
  have hok : connectInputs P V m none tx (paidInputs txin.prevout nValue n) ∅ 0 =
      .ok (pool, burnCoins P 0 tx.vout) := by
    rw [connectInputs, if_neg hcb]
    exact bind_eq_ok.2 ⟨_, hinputs, bind_eq_ok.2 ⟨_, hspend, bind_eq_ok.2 ⟨_, hfees.1, rfl⟩⟩⟩
  intro hinside
  have hcall := (hinside V m none (paidInputs txin.prevout nValue n) ∅ 0).trans hok
  rw [connectInputsAt, if_neg hcb] at hcall
  simp only [bind_eq_ok] at hcall
  obtain ⟨nValueIn, hvalueIn, -, -, nBurnCoins, hburn, -⟩ := hcall
  cases hinputs.symm.trans hvalueIn
  exact burnCoinsAt_ne_ok hmem hshort 0 nBurnCoins (hfees.2.symm.trans hburn)

/-- **`ConnectInputs` stays inside the scripts exactly for** coinbases and coinstakes, transactions all
of whose scripts have two bytes, and those that can pay for no fee. -/
theorem readsInside_iff (P : Params) {tx : CTransaction} (h : checkTransaction tx = .ok ()) :
    ReadsInside P tx ↔ tx.isCoinBase ∨ tx.isCoinStake ∨
      (∀ txout ∈ tx.vout, 2 ≤ txout.scriptPubKey.length) ∨
        MAX_MONEY < totalValue tx.vout + MIN_TX_FEE := by
  constructor
  · intro hinside
    by_contra hnot
    simp only [not_or, not_forall, not_le, not_lt] at hnot
    obtain ⟨hcb, hcs, ⟨txout, hmem, hshort⟩, hpaid⟩ := hnot
    exact not_readsInside h hcb hcs hpaid hmem hshort hinside
  · intro hcases V m pindexBlock inputs mapTestPool nBurnCoins
    rw [connectInputsAt, connectInputs]
    by_cases hcb : tx.isCoinBase
    · rw [if_pos hcb, if_pos hcb]
    rw [if_neg hcb, if_neg hcb]
    rcases hvalueIn : checkInputs pindexBlock tx inputs 0 tx.vin with _ | nValueIn
    · rfl
    have hfee : checkFeeAt m.fBlock tx nValueIn nBurnCoins =
        checkFee P m.fBlock tx nValueIn nBurnCoins := by
      rcases hcases with hcb' | hcs | hbytes | hroom
      · exact absurd hcb' hcb
      · rw [checkFeeAt, checkFee, if_pos hcs, if_pos hcs]
      · exact checkFeeAt_eq_of_bytes hbytes
      · by_cases hcs : tx.isCoinStake
        · rw [checkFeeAt, checkFee, if_pos hcs, if_pos hcs]
        obtain ⟨nValueOut, hvalue⟩ := getValueOut_of_checkTransaction h
        obtain ⟨rfl, -⟩ := totalValue_of_getValueOut hvalue
        exact checkFeeAt_eq_of_noRoom hcs hvalue
          (moneyRange_of_checkInputs (by decide) hvalueIn) hroom
    refine congrArg (fun x : Except Fault ℕ ↦ (do
      let mapTestPool ← spendInputs P V m tx 0 inputs mapTestPool tx.vin
      let nBurnCoins ← x
      return (mapTestPool, nBurnCoins))) hfee

namespace Sample

/-- A transaction with one input that pays one coin to a script. -/
def payer (scriptPubKey : CScript) : CTransaction where
  nVersion := 1
  nTime := 240
  vin := [⟨⟨1, 0⟩, [], uintMax⟩]
  vout := [⟨COIN, scriptPubKey⟩]
  nLockTime := 0

end Sample

theorem readsInside_iff_sample : ReadsInside Sample.params (Sample.payer [0, 0]) ↔
    (Sample.payer [0, 0]).isCoinBase ∨ (Sample.payer [0, 0]).isCoinStake ∨
      (∀ txout ∈ (Sample.payer [0, 0]).vout, 2 ≤ txout.scriptPubKey.length) ∨
        MAX_MONEY < totalValue (Sample.payer [0, 0]).vout + MIN_TX_FEE :=
  readsInside_iff Sample.params (by decide)

/-- An output of one coin whose script is empty is no obstacle to `CheckTransaction`. -/
theorem not_readsInside_emptyScript :
    ¬ ∀ (P : Params) (tx : CTransaction), checkTransaction tx = .ok () → ReadsInside P tx := by
  intro h
  have hcheck : checkTransaction (Sample.payer []) = .ok () := by decide
  exact not_readsInside hcheck (by decide) (by decide) (by decide) (List.mem_cons_self ..)
    Nat.two_pos (h Sample.params _ hcheck)

end Bws
