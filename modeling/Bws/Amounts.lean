import Bws.WorkReward

/-!
# The amounts that `ConnectBlock` adds up

`GetValueIn` adds before anything is checked, and the sums over the transactions of a block are
checked nowhere.  With amounts of money on disk, all of them stay in 64 bits exactly as long as the
transactions that `ConnectBlock` comes to spend less than `2 ^ 63` together, and pay less than that
(`loopFits_iff`).  A block that moves the same coins again and again does neither.
-/

namespace Bws

/-! ## The additions -/

section

variable (P : Params) (V : TxView) (pindex : CBlockIndex) (fJustCheck : Bool)

/-- The running sum of `GetValueIn` fits. -/
def SumsFit (inputs : MapPrevTx) : ℤ → List CTxIn → Prop
  | _, [] => True
  | nResult, txin :: vin => ∀ txout, getOutputFor inputs txin = .ok txout →
      InInt64 (nResult + txout.nValue) ∧ SumsFit inputs (int64 (nResult + txout.nValue)) vin

/-- What `ConnectBlock` adds for a transaction that spends `nTxValueIn` and pays `nTxValueOut`. -/
structure AddsFit (t : BlockTotals) (tx : CTransaction) (nTxValueIn nTxValueOut : ℤ) : Prop where
  valueIn : InInt64 (t.nValueIn + nTxValueIn)
  valueOut : InInt64 (t.nValueOut + nTxValueOut)
  fee : ¬ tx.isCoinStake → InInt64 (nTxValueIn - nTxValueOut) ∧
    InInt64 (t.nFees + int64 (nTxValueIn - nTxValueOut))
  reward : tx.isCoinStake → InInt64 (nTxValueOut - nTxValueIn)

/-- The tests before the additions for a transaction with inputs pass, and `inputs` has been
fetched. -/
structure Reads (t : BlockTotals) (tx : CTransaction) (inputs : MapPrevTx) : Prop where
  fetch : fetchInputs V t.mapQueuedChanges true false tx = .ok inputs
  sigops : ∃ nSigOps nP2SH, checkOverwrite P V t.nSigOps tx = .ok nSigOps ∧
    getP2SHSigOpCount P inputs tx = .ok nP2SH ∧ nSigOps + nP2SH ≤ MAX_BLOCK_SIGOPS

/-- The additions of a round of the loop fit. -/
structure RoundFits (t : BlockTotals) (tx : CTransaction) : Prop where
  coinbase : tx.isCoinBase → (checkOverwrite P V t.nSigOps tx).isOk → ∀ nTxValueOut,
    tx.getValueOut = .ok nTxValueOut → InInt64 (t.nValueOut + nTxValueOut)
  sums : ¬ tx.isCoinBase → ∀ inputs, Reads P V t tx inputs → SumsFit inputs 0 tx.vin
  adds : ¬ tx.isCoinBase → ∀ inputs, Reads P V t tx inputs → ∀ nTxValueIn nTxValueOut,
    getValueIn inputs tx = .ok nTxValueIn → tx.getValueOut = .ok nTxValueOut →
      AddsFit t tx nTxValueIn nTxValueOut

/-- No addition of the loop of `ConnectBlock` overflows, up to the transaction that it rejects. -/
def LoopFits : BlockTotals → List CTransaction → Prop
  | _, [] => True
  | t, tx :: vtx => RoundFits P V t tx ∧
      ∀ t', connectTx P V pindex fJustCheck t tx = .ok t' → LoopFits t' vtx

/-! ## The totals -/

/-- The loop comes to the additions of a transaction. -/
structure Counted (t : BlockTotals) (tx : CTransaction) : Prop where
  coinbase : tx.isCoinBase → (checkOverwrite P V t.nSigOps tx).isOk
  inputs : ¬ tx.isCoinBase → ∃ inputs, Reads P V t tx inputs

/-- What the transactions of a list spend, when they are connected one after another. -/
def TxView.spentFrom (idx : Ledger.Index UInt256 CDiskTxPos) :
    List (CTransaction × CDiskTxPos) → ℤ
  | [] => 0
  | a :: L => V.valueIn idx a.1 +
      spentFrom ((Ledger.connect idx (ledgerTx P a.1) a.2).getD idx) L

/-- What the transactions of a list pay. -/
def paidBy (vtx : List CTransaction) : ℤ := (vtx.map fun tx ↦ totalValue tx.vout).sum

/-- The transactions of a block with the positions that `ConnectBlock` gives them. -/
def placesFrom (nTxPos : ℕ) : List CTransaction → List (CTransaction × CDiskTxPos)
  | [] => []
  | tx :: vtx => (tx, ⟨pindex.val.nFile, pindex.val.nBlockPos, nTxPos⟩) ::
      placesFrom (if fJustCheck then nTxPos else nTxPos + tx.serializeSize) vtx

/-- Every transaction on disk and in the pool has passed `CheckTransaction`. -/
def TxView.Checked : Prop :=
  ∀ tx, (∃ pos, V.readTx pos = some tx) ∨ (∃ hash, V.lookup hash = some tx) →
    checkTransaction tx = .ok ()

end

section

variable {P : Params} {V : TxView} {pindex : CBlockIndex} {fJustCheck : Bool}
  {t t' : BlockTotals} {tx : CTransaction} {inputs : MapPrevTx} {vtx : List CTransaction}

/-! ## One sum -/

theorem nValue_of_checkTransaction (h : checkTransaction tx = .ok ()) :
    ∀ txout ∈ tx.vout, moneyRange txout.nValue := by
  obtain ⟨n, hn⟩ := getValueOut_of_checkTransaction h
  exact nValue_of_getValueOutFrom hn

/-- What is fetched is worth an amount of money. -/
theorem TxView.Checked.moneyRange (h : V.Checked) {idx : Ledger.Index UInt256 CDiskTxPos}
    {o : COutPoint} {txout : CTxOut} (hout : V.outputIn idx o = some txout) :
    Bws.moneyRange txout.nValue := by
  obtain ⟨txindex, -, hout⟩ := Option.bind_eq_some_iff.mp hout
  obtain ⟨txPrev, hprev, hout⟩ := Option.bind_eq_some_iff.mp hout
  refine nValue_of_checkTransaction (h txPrev ?_) txout (List.mem_of_getElem? hout)
  rw [TxView.prevTx] at hprev
  split_ifs at hprev with hmemory
  exacts [.inr ⟨_, hprev⟩, .inl ⟨_, hprev⟩]

theorem TxView.Checked.spends_nonneg (h : V.Checked) {idx : Ledger.Index UInt256 CDiskTxPos}
    {vin : List CTxIn} {vout : List CTxOut} (hs : SpendsOutputs V idx vin vout) :
    ∀ txout ∈ vout, 0 ≤ txout.nValue := by
  induction hs with
  | nil => exact nofun
  | cons hout _ ih => exact List.forall_mem_cons.mpr ⟨(h.moneyRange hout).1, ih⟩

theorem totalValue_nonneg {vout : List CTxOut} (h : ∀ txout ∈ vout, 0 ≤ txout.nValue) :
    0 ≤ totalValue vout :=
  List.sum_nonneg fun _ hx ↦ by
    obtain ⟨txout, hmem, rfl⟩ := List.mem_map.mp hx
    exact h txout hmem

/-- A running sum of values that are not negative fits when the last one does, and then it is
exact. -/
theorem sumsFit_iff {vin : List CTxIn} {vout : List CTxOut}
    (h : List.Forall₂ (fun txin txout ↦ getOutputFor inputs txin = .ok txout) vin vout) :
    ∀ {nResult}, 0 ≤ nResult → nResult < 2 ^ 63 → (∀ txout ∈ vout, 0 ≤ txout.nValue) →
      (SumsFit inputs nResult vin ↔ nResult + totalValue vout < 2 ^ 63) ∧
        (SumsFit inputs nResult vin → getValueInFrom inputs nResult vin =
          .ok (nResult + totalValue vout)) := by
  induction h with
  | nil =>
    intro nResult _ hlt _
    refine ⟨iff_of_true trivial (by simpa using hlt), fun _ ↦ ?_⟩
    rw [getValueInFrom, totalValue_nil, add_zero]
  | @cons txin txout vin vout hout _ ih =>
    intro nResult hpos hlt hnonneg
    rw [List.forall_mem_cons] at hnonneg
    have htail := totalValue_nonneg hnonneg.2
    have hhead := hnonneg.1
    have hstep : SumsFit inputs nResult (txin :: vin) ↔ InInt64 (nResult + txout.nValue) ∧
        SumsFit inputs (int64 (nResult + txout.nValue)) vin := by
      rw [SumsFit]
      refine ⟨fun hall ↦ hall txout hout, fun hfit txout' hout' ↦ ?_⟩
      cases hout.symm.trans hout'
      exact hfit
    rw [hstep, totalValue_cons]
    constructor
    · constructor
      · rintro ⟨hfit, hrest⟩
        rw [int64_eq hfit] at hrest
        have := (ih (by omega) hfit.2 hnonneg.2).1.mp hrest
        omega
      · intro hsum
        have hfit : InInt64 (nResult + txout.nValue) := ⟨by omega, by omega⟩
        rw [int64_eq hfit]
        exact ⟨hfit, (ih (by omega) hfit.2 hnonneg.2).1.mpr (by omega)⟩
    · rintro ⟨hfit, hrest⟩
      rw [int64_eq hfit] at hrest
      have heq := (ih (by omega) hfit.2 hnonneg.2).2 hrest
      rw [getValueInFrom, hout]
      change getValueInFrom inputs (int64 (nResult + txout.nValue)) vin = _
      rw [int64_eq hfit, heq, add_assoc]

/-! ## One round -/

theorem TxView.valueIn_coinBase (hcb : tx.isCoinBase) (idx : Ledger.Index UInt256 CDiskTxPos) :
    V.valueIn idx tx = 0 := by
  rw [TxView.valueIn, CTransaction.spends, if_pos hcb]
  rfl

/-- A round comes to its additions when it succeeds. -/
theorem counted_of_connectTx (h : connectTx P V pindex fJustCheck t tx = .ok t') :
    Counted P V t tx := by
  simp only [connectTx, bind_eq_ok] at h
  obtain ⟨nSigOps, hover, t₁, heither, -⟩ := h
  refine ⟨fun _ ↦ by rw [hover]; rfl, fun hcb ↦ ?_⟩
  rw [connectEither, if_neg hcb] at heither
  simp only [connectSpending, bind_eq_ok, dropScore_eq_ok, rejectIf_eq_ok] at heither
  obtain ⟨inputs, hfetch, nP2SH, hP2SH, -, hsigops, -⟩ := heither
  exact ⟨inputs, hfetch, nSigOps, nP2SH, hover, hP2SH, not_lt.mp hsigops⟩

/-- Where a round leads does not depend on `fJustCheck`, the place of the next transaction
excepted. -/
theorem connect_of_connectTx' (h : connectTx P V pindex fJustCheck t tx = .ok t') :
    Ledger.connect (queued V t.mapQueuedChanges) (ledgerTx P tx) (t.posThisTx pindex) =
      some (queued V t'.mapQueuedChanges) ∧
        t'.nTxPos = if fJustCheck then t.nTxPos else t.nTxPos + tx.serializeSize := by
  simp only [connectTx, bind_eq_ok] at h
  obtain ⟨nSigOps, hover, t₁, heither, h⟩ := h
  cases h
  obtain ⟨t', h', hmap⟩ : ∃ t', connectTx P V pindex false t tx = .ok t' ∧
      t'.mapQueuedChanges = t₁.mapQueuedChanges.insert (P.getHash tx)
        (CTxIndex.mk' (t.posThisTx pindex) tx.vout.length) := by
    simp only [connectTx, bind_eq_ok]
    exact ⟨_, ⟨nSigOps, hover, t₁, heither, rfl⟩, rfl⟩
  have hconn := (connect_of_connectTx h').1
  rw [hmap] at hconn
  exact ⟨hconn, rfl⟩

/-- The sums of a run in which nothing has overflown. -/
structure Exact (t : BlockTotals) : Prop where
  valueIn : 0 ≤ t.nValueIn ∧ t.nValueIn < 2 ^ 63
  valueOut : 0 ≤ t.nValueOut ∧ t.nValueOut < 2 ^ 63
  fees : 0 ≤ t.nFees ∧ t.nFees ≤ t.nValueIn

/-- **The additions of a round fit if and only if** the two totals do. -/
theorem roundFits_iff (he : Exact t) (hV : V.Checked) (htx : checkTransaction tx = .ok ()) :
    RoundFits P V t tx ↔ (Counted P V t tx →
      t.nValueIn + V.valueIn (queued V t.mapQueuedChanges) tx < 2 ^ 63 ∧
        t.nValueOut + totalValue tx.vout < 2 ^ 63) := by
  obtain ⟨⟨hin, hin'⟩, ⟨hout, hout'⟩, hfees, hfees'⟩ := he
  obtain ⟨nValueOut, hvalue⟩ := getValueOut_of_checkTransaction htx
  obtain ⟨rfl, hlo, hhi⟩ := totalValue_of_getValueOut hvalue
  have hmax : MAX_MONEY < 2 ^ 62 := by decide
  by_cases hcb : tx.isCoinBase
  · rw [TxView.valueIn_coinBase hcb]
    constructor
    · intro h hcounted
      obtain ⟨-, hlt⟩ := h.coinbase hcb (hcounted.coinbase hcb) _ hvalue
      exact ⟨by omega, hlt⟩
    · intro h
      refine ⟨fun _ hover v hv ↦ ?_, fun hcb' ↦ absurd hcb hcb', fun hcb' ↦ absurd hcb hcb'⟩
      cases hv.symm.trans hvalue
      have hlt := (h ⟨fun _ ↦ hover, fun hcb' ↦ absurd hcb hcb'⟩).2
      exact ⟨by omega, hlt⟩
  · -- what an input that has been fetched is worth
    have hread : ∀ inputs, Reads P V t tx inputs → ∃ vout,
        0 ≤ totalValue vout ∧ V.valueIn (queued V t.mapQueuedChanges) tx = totalValue vout ∧
        (SumsFit inputs 0 tx.vin ↔ totalValue vout < 2 ^ 63) ∧
          (SumsFit inputs 0 tx.vin → getValueIn inputs tx = .ok (totalValue vout)) := by
      intro inputs h
      obtain ⟨hf, hall⟩ := fetchInputs_eq_ok hcb h.fetch
      obtain ⟨vout, hget, hspends⟩ := spendsOutputs_of_fetched (Or.inl rfl) hf hall
      have hnonneg := hV.spends_nonneg hspends
      have hsums := sumsFit_iff hget le_rfl (by decide) hnonneg
      rw [zero_add] at hsums
      refine ⟨vout, totalValue_nonneg hnonneg, TxView.valueIn_of_spends hcb hspends, hsums.1, ?_⟩
      rw [getValueIn, if_neg hcb]
      exact hsums.2
    constructor
    · intro h hcounted
      obtain ⟨inputs, hreads⟩ := hcounted.inputs hcb
      obtain ⟨vout, hpos, hspent, hsums, hget⟩ := hread inputs hreads
      have hfit := h.sums hcb inputs hreads
      have hadds := h.adds hcb inputs hreads _ _ (hget hfit) hvalue
      rw [hspent]
      exact ⟨hadds.valueIn.2, hadds.valueOut.2⟩
    · intro h
      have hbound : ∀ inputs, Reads P V t tx inputs →
          t.nValueIn + V.valueIn (queued V t.mapQueuedChanges) tx < 2 ^ 63 ∧
            t.nValueOut + totalValue tx.vout < 2 ^ 63 :=
        fun inputs hreads ↦ h ⟨fun hcb' ↦ absurd hcb' hcb, fun _ ↦ ⟨inputs, hreads⟩⟩
      refine ⟨fun hcb' ↦ absurd hcb' hcb, fun _ inputs hreads ↦ ?_,
        fun _ inputs hreads nIn nOut hnIn hnOut ↦ ?_⟩
      · obtain ⟨vout, hpos, hspent, hsums, -⟩ := hread inputs hreads
        have hlt := (hbound inputs hreads).1
        exact hsums.mpr (by omega)
      · obtain ⟨vout, hpos, hspent, hsums, hget⟩ := hread inputs hreads
        obtain ⟨hlt, hlt'⟩ := hbound inputs hreads
        cases hnOut.symm.trans hvalue
        cases hnIn.symm.trans (hget (hsums.mpr (by omega)))
        have hdiff : InInt64 (totalValue vout - totalValue tx.vout) := ⟨by omega, by omega⟩
        refine ⟨⟨by omega, by omega⟩, ⟨by omega, hlt'⟩, fun _ ↦ ⟨hdiff, ?_⟩, fun _ ↦ ?_⟩
        · rw [int64_eq hdiff]
          exact ⟨by omega, by omega⟩
        · exact ⟨by omega, by omega⟩

/-- A round whose additions fit adds exactly. -/
theorem Exact.connectTx (he : Exact t) (hV : V.Checked) (htx : checkTransaction tx = .ok ())
    (hfit : RoundFits P V t tx) (h : Bws.connectTx P V pindex fJustCheck t tx = .ok t') :
    Exact t' ∧ t'.nValueIn = t.nValueIn + V.valueIn (queued V t.mapQueuedChanges) tx ∧
      t'.nValueOut = t.nValueOut + totalValue tx.vout := by
  obtain ⟨hlt, hlt'⟩ := (roundFits_iff he hV htx).mp hfit (counted_of_connectTx h)
  obtain ⟨⟨hin, hin'⟩, ⟨hout, hout'⟩, hfees, hfees'⟩ := he
  simp only [Bws.connectTx, bind_eq_ok] at h
  obtain ⟨nSigOps, -, t₁, heither, h⟩ := h
  cases h
  dsimp only
  rw [connectEither] at heither
  by_cases hcb : tx.isCoinBase
  · rw [if_pos hcb] at heither
    obtain ⟨rfl, hlo, -⟩ := connectCoinBase_eq_ok heither
    rw [TxView.valueIn_coinBase hcb, add_zero]
    have hexact : int64 (t.nValueOut + totalValue tx.vout) = t.nValueOut + totalValue tx.vout :=
      int64_eq ⟨by omega, hlt'⟩
    exact ⟨⟨⟨hin, hin'⟩, ⟨by dsimp only; omega, by dsimp only; omega⟩, hfees, hfees'⟩, rfl, hexact⟩
  · rw [if_neg hcb] at heither
    obtain ⟨vout, hconn⟩ := connected_of_connectSpending hcb heither
    obtain ⟨hlo, -⟩ := hconn.rangeIn
    obtain ⟨hlo', hhi'⟩ := hconn.rangeOut
    have hmax : MAX_MONEY < 2 ^ 62 := by decide
    have hspent : V.valueIn (queued V t.mapQueuedChanges) tx = totalValue vout :=
      TxView.valueIn_of_spends hcb hconn.spends
    rw [hspent] at hlt ⊢
    have hfitIn : InInt64 (t.nValueIn + totalValue vout) := ⟨by omega, hlt⟩
    have hfitOut : InInt64 (t.nValueOut + totalValue tx.vout) := ⟨by omega, hlt'⟩
    have hvin : t₁.nValueIn = t.nValueIn + totalValue vout :=
      (congrArg BlockTotals.nValueIn hconn.totals).trans (int64_eq hfitIn)
    have hvout : t₁.nValueOut = t.nValueOut + totalValue tx.vout :=
      (congrArg BlockTotals.nValueOut hconn.totals).trans (int64_eq hfitOut)
    have hvfees : t₁.nFees = if tx.isCoinStake then t.nFees
        else int64 (t.nFees + int64 (totalValue vout - totalValue tx.vout)) :=
      congrArg BlockTotals.nFees hconn.totals
    have hfees₁ : 0 ≤ t₁.nFees ∧ t₁.nFees ≤ t₁.nValueIn := by
      by_cases hcs : tx.isCoinStake
      · rw [if_pos hcs] at hvfees
        omega
      · have hpays := hconn.pays hcs
        have hdiff : InInt64 (totalValue vout - totalValue tx.vout) := ⟨by omega, by omega⟩
        have hsum : InInt64 (t.nFees + (totalValue vout - totalValue tx.vout)) :=
          ⟨by omega, by omega⟩
        rw [if_neg hcs, int64_eq hdiff, int64_eq hsum] at hvfees
        omega
    exact ⟨⟨⟨by dsimp only; omega, by dsimp only; omega⟩,
      ⟨by dsimp only; omega, by dsimp only; omega⟩, hfees₁⟩, hvin, hvout⟩

/-! ## The loop -/

/-- The totals up to a transaction, as the ones after the first round. -/
theorem totals_cons (h : Bws.connectTx P V pindex fJustCheck t tx = .ok t') (A : List CTransaction) :
    V.spentFrom P (queued V t.mapQueuedChanges) (placesFrom pindex fJustCheck t.nTxPos (tx :: A)) =
        V.valueIn (queued V t.mapQueuedChanges) tx +
          V.spentFrom P (queued V t'.mapQueuedChanges) (placesFrom pindex fJustCheck t'.nTxPos A) ∧
      paidBy (tx :: A) = totalValue tx.vout + paidBy A := by
  obtain ⟨hconn, hpos⟩ := connect_of_connectTx' h
  refine ⟨?_, by rw [paidBy, List.map_cons, List.sum_cons, paidBy]⟩
  rw [placesFrom, TxView.spentFrom, show (⟨pindex.val.nFile, pindex.val.nBlockPos, t.nTxPos⟩ :
    CDiskTxPos) = t.posThisTx pindex from rfl, hconn, Option.getD_some, hpos]

theorem spentFrom_singleton (t : BlockTotals) (tx : CTransaction) :
    V.spentFrom P (queued V t.mapQueuedChanges) (placesFrom pindex fJustCheck t.nTxPos [tx]) =
      V.valueIn (queued V t.mapQueuedChanges) tx := add_zero _

theorem paidBy_singleton (tx : CTransaction) : paidBy [tx] = totalValue tx.vout := add_zero _

/-- What the totals must be for the additions from `t` on to fit. -/
def TotalsFit (P : Params) (V : TxView) (pindex : CBlockIndex) (fJustCheck : Bool)
    (t : BlockTotals) (vtx : List CTransaction) : Prop :=
  ∀ A tx B, vtx = A ++ tx :: B → ∀ t₁, connectTxs P V pindex fJustCheck t A = .ok t₁ →
    Counted P V t₁ tx →
      t.nValueIn + V.spentFrom P (queued V t.mapQueuedChanges)
          (placesFrom pindex fJustCheck t.nTxPos (A ++ [tx])) < 2 ^ 63 ∧
        t.nValueOut + paidBy (A ++ [tx]) < 2 ^ 63

theorem Exact.loopFits (hV : V.Checked) : ∀ {t : BlockTotals}, Exact t →
    (∀ tx ∈ vtx, checkTransaction tx = .ok ()) →
      (LoopFits P V pindex fJustCheck t vtx ↔ TotalsFit P V pindex fJustCheck t vtx) := by
  induction vtx with
  | nil =>
    intro t _ _
    refine iff_of_true trivial fun A tx B hsplit ↦ ?_
    exact absurd hsplit.symm (List.append_ne_nil_of_right_ne_nil A (List.cons_ne_nil tx B))
  | cons tx vtx ih =>
    intro t he hall
    rw [List.forall_mem_cons] at hall
    have hround := roundFits_iff (P := P) he hV hall.1
    constructor
    · rintro ⟨hfit, hrest⟩ A tx' B hsplit t₁ hA hcounted
      cases A with
      | nil =>
        obtain ⟨rfl, -⟩ := List.cons.inj hsplit
        cases hA
        rw [List.nil_append, spentFrom_singleton, paidBy_singleton]
        exact hround.mp hfit hcounted
      | cons a A =>
        obtain ⟨rfl, htail⟩ := List.cons.inj hsplit
        obtain ⟨t', h, hA⟩ := bind_eq_ok.mp hA
        obtain ⟨he', hin, hout⟩ := he.connectTx hV hall.1 hfit h
        have hlt := (ih he' hall.2).mp (hrest t' h) A tx' B htail t₁ hA hcounted
        obtain ⟨hspent, hpaid⟩ := totals_cons h (A ++ [tx'])
        rw [List.cons_append, hspent, hpaid, ← add_assoc, ← add_assoc, ← hin, ← hout]
        exact hlt
    · intro h
      have hfit : RoundFits P V t tx := hround.mpr fun hcounted ↦ by
        have hlt := h [] tx vtx rfl t rfl hcounted
        rw [List.nil_append, spentFrom_singleton, paidBy_singleton] at hlt
        exact hlt
      refine ⟨hfit, fun t' hconn ↦ ?_⟩
      obtain ⟨he', hin, hout⟩ := he.connectTx hV hall.1 hfit hconn
      refine (ih he' hall.2).mpr fun A tx' B hsplit t₁ hA hcounted ↦ ?_
      have hlt := h (tx :: A) tx' B (by rw [hsplit]; rfl) t₁ (bind_eq_ok.mpr ⟨t', hconn, hA⟩) hcounted
      obtain ⟨hspent, hpaid⟩ := totals_cons hconn (A ++ [tx'])
      rw [List.cons_append, hspent, hpaid, ← add_assoc, ← add_assoc, ← hin, ← hout] at hlt
      exact hlt

theorem exact_init (nTxPos : ℕ) : Exact (.init nTxPos) :=
  ⟨⟨le_rfl, show (0 : ℤ) < 2 ^ 63 by decide⟩, ⟨le_rfl, show (0 : ℤ) < 2 ^ 63 by decide⟩, le_rfl,
    le_rfl⟩

/-- **No addition of `ConnectBlock` overflows if and only if** the transactions that it comes to spend
less than `2 ^ 63` together, and pay less than that. -/
theorem loopFits_iff {w : World} {block : CBlock} (hV : V.Checked)
    (hcheck : checkBlock P w block (!fJustCheck) (!fJustCheck) false = .ok ()) :
    LoopFits P V pindex fJustCheck (.init (firstTxPos block pindex fJustCheck)) block.vtx ↔
      ∀ A tx B, block.vtx = A ++ tx :: B → ∀ t,
        connectTxs P V pindex fJustCheck (.init (firstTxPos block pindex fJustCheck)) A = .ok t →
        Counted P V t tx →
          V.spentFrom P V.txIndex (placesFrom pindex fJustCheck
              (firstTxPos block pindex fJustCheck) (A ++ [tx])) < 2 ^ 63 ∧
            paidBy (A ++ [tx]) < 2 ^ 63 := by
  refine ((exact_init _).loopFits hV
    (checkedBlock_of_checkBlock hcheck).transactions).trans ?_
  unfold TotalsFit
  rw [show (BlockTotals.init (firstTxPos block pindex fJustCheck)).mapQueuedChanges = ∅ from rfl,
    queued_empty]
  simp only [BlockTotals.init, zero_add]

/-- What a run that fits has paid. -/
theorem nValueOut_of_connectTx (hfit : RoundFits P V t tx)
    (h : Bws.connectTx P V pindex fJustCheck t tx = .ok t') :
    t'.nValueOut = t.nValueOut + totalValue tx.vout ∧ InInt64 t'.nValueOut := by
  have hcounted := counted_of_connectTx h
  simp only [Bws.connectTx, bind_eq_ok] at h
  obtain ⟨nSigOps, hover, t₁, heither, h⟩ := h
  cases h
  dsimp only
  rw [connectEither] at heither
  by_cases hcb : tx.isCoinBase
  · rw [if_pos hcb] at heither
    simp only [connectCoinBase, bind_eq_ok] at heither
    obtain ⟨nValueOut, hvalue, heither⟩ := heither
    cases heither
    obtain ⟨rfl, -⟩ := totalValue_of_getValueOut hvalue
    have hin := hfit.coinbase hcb (hcounted.coinbase hcb) _ hvalue
    have hexact : int64 (t.nValueOut + totalValue tx.vout) = t.nValueOut + totalValue tx.vout :=
      int64_eq hin
    exact ⟨hexact, by rw [hexact]; exact hin⟩
  · rw [if_neg hcb] at heither
    simp only [connectSpending, bind_eq_ok, dropScore_eq_ok, rejectIf_eq_ok] at heither
    obtain ⟨inputs, hfetch, nP2SH, hP2SH, -, hsigops, nIn, hnIn, nOut, hnOut, ⟨map, n⟩, -, heither⟩ :=
      heither
    cases heither
    obtain ⟨rfl, -⟩ := totalValue_of_getValueOut hnOut
    have hin := (hfit.adds hcb inputs ⟨hfetch, nSigOps, nP2SH, hover, hP2SH, not_lt.mp hsigops⟩ _ _
      hnIn hnOut).valueOut
    have hexact : int64 (t.nValueOut + totalValue tx.vout) = t.nValueOut + totalValue tx.vout :=
      int64_eq hin
    exact ⟨hexact, by rw [BlockTotals.addValues, hexact]; exact hin⟩

theorem inInt64_paidBy : ∀ {t t' : BlockTotals}, LoopFits P V pindex fJustCheck t vtx →
    connectTxs P V pindex fJustCheck t vtx = .ok t' → InInt64 t.nValueOut →
      InInt64 (t.nValueOut + paidBy vtx) := by
  induction vtx with
  | nil =>
    intro t t' _ _ hin
    rw [paidBy, List.map_nil, List.sum_nil, add_zero]
    exact hin
  | cons tx vtx ih =>
    rintro t t' ⟨hfit, hrest⟩ h _
    obtain ⟨t₁, h₁, h₂⟩ := bind_eq_ok.mp h
    obtain ⟨hpaid, hin⟩ := nValueOut_of_connectTx hfit h₁
    have hall := ih (hrest t₁ h₁) h₂ hin
    rw [hpaid, add_assoc] at hall
    exact hall

theorem inInt64_paidBy_init {nTxPos : ℕ} (h : LoopFits P V pindex fJustCheck (.init nTxPos) vtx)
    (htxs : connectTxs P V pindex fJustCheck (.init nTxPos) vtx = .ok t') :
    InInt64 (paidBy vtx) := by
  have hzero : InInt64 0 := by decide
  have hin := inInt64_paidBy h htxs hzero
  rw [show (BlockTotals.init nTxPos).nValueOut = 0 from rfl, zero_add] at hin
  exact hin

end

namespace Sample

theorem paidBy_heavy : paidBy heavy.vtx = 10000 + 1025 * MAX_MONEY := by
  have hmakers : ∀ n i : ℕ, paidBy ((List.range' i n).map maker) = n * MAX_MONEY := by
    intro n
    induction n with
    | zero => exact fun _ ↦ (zero_mul _).symm
    | succ n ih =>
      intro i
      have hmaker : totalValue (maker i).vout = MAX_MONEY := rfl
      have hrest := ih (i + 1)
      rw [paidBy] at hrest
      rw [List.range'_succ, List.map_cons, paidBy, List.map_cons, List.sum_cons, hrest, hmaker]
      push_cast
      ring
  have hrest := hmakers 1025 1
  have hhead : totalValue (coinbase 12 0 0).vout = 0 ∧
      totalValue (mover 0 [⟨10000, [0, 0]⟩]).vout = 10000 := ⟨rfl, rfl⟩
  rw [paidBy] at hrest
  rw [paidBy, show heavy.vtx = coinbase 12 0 0 :: mover 0 [⟨10000, [0, 0]⟩] ::
    (List.range' 1 1025).map maker from rfl, List.map_cons, List.map_cons, List.sum_cons,
    List.sum_cons, hrest, hhead.1, hhead.2, zero_add]
  rfl

/-- A block that spends the coinbase of the first block, and spends on what has been paid. -/
def spendingTwice : CBlock :=
  blockOf 11 [coinbase 11 COIN 0, spendAgain 11,
    { spendAgain 11 with
      vin := [⟨⟨params.getHash (spendAgain 11), 0⟩, [], uintMax⟩]
      vout := [⟨8 * COIN, [0, 0]⟩]
      nLockTime := 2 }]

/-- A view of a node that has the coinbase on disk, and this block. -/
def onDisk : TxView where
  txIndex hash := if hash = params.getHash again then some ⟨⟨1, 1000, 1100⟩, [.null]⟩ else none
  readTx pos :=
    if pos = ⟨1, 1000, 1100⟩ then some again
    else ((placesFrom genesisIndex false (firstTxPos spendingTwice genesisIndex false)
      spendingTwice.vtx).find? fun place ↦ place.2 = pos).map Prod.fst
  readHeader _ _ := some (blockOf 1 [again]).toCBlockHeader
  lookup _ := none
  nBestHeight := 10

theorem checked_onDisk : onDisk.Checked := by
  have hall : ∀ place ∈ placesFrom genesisIndex false
      (firstTxPos spendingTwice genesisIndex false) spendingTwice.vtx,
      checkTransaction place.1 = .ok () := by
    decide +kernel
  rintro tx (⟨pos, h⟩ | ⟨hash, h⟩)
  · by_cases hpos : pos = ⟨1, 1000, 1100⟩
    · cases (if_pos hpos).symm.trans h
      decide +kernel
    · obtain ⟨place, hplace, rfl⟩ := Option.map_eq_some_iff.1 ((if_neg hpos).symm.trans h)
      exact hall place (List.mem_of_find?_eq_some hplace)
  · cases h

end Sample

/-- A block whose coinstakes pay out as much as there can be, 1025 times. -/
theorem not_loopFits_of_heavy : ∃ L G b s, Minted Sample.params Sample.genesisIndex L G b s ∧
    checkBlock Sample.params Sample.world Sample.heavy true true false = .ok () ∧
      ∃ pindex, ¬ LoopFits Sample.params ((s.stored Sample.world Sample.heavy).txView Sample.world
        (s.stored Sample.world Sample.heavy).txdb) pindex false
        (.init (firstTxPos Sample.heavy pindex false)) Sample.heavy.vtx := by
  open Sample in
  obtain ⟨L, G, b, s, -, -, h, hready⟩ := minted_connectThen below (NodeState.open_begin _)
    minted_start ready_below
  refine ⟨L, G, b, s, h, checkBlock_heavy, nextIndex s heavy b, fun hfit ↦ ?_⟩
  obtain ⟨pos, pindexBest, hwaiting, hfresh, -⟩ := waiting_of_ready hready
  obtain ⟨t, htxs, -⟩ : ∃ t, connectTxs params
      ((s.stored world heavy).txView world (s.stored world heavy).txdb) (nextIndex s heavy b) false
      (.init (firstTxPos heavy (nextIndex s heavy b) false)) heavy.vtx = .ok t ∧ _ :=
    connectTxs_heavy hwaiting hfresh
  have hin := inInt64_paidBy_init hfit htxs
  rw [paidBy_heavy] at hin
  exact absurd hin (by decide)

/-- The coins on disk are spent, and what is paid for them is spent again; each time a coin is left as a
fee. -/
theorem loopFits_iff_sample :
    LoopFits Sample.params Sample.onDisk Sample.genesisIndex false
      (.init (firstTxPos Sample.spendingTwice Sample.genesisIndex false)) Sample.spendingTwice.vtx ∧
    ∃ t, connectTxs Sample.params Sample.onDisk Sample.genesisIndex false
      (.init (firstTxPos Sample.spendingTwice Sample.genesisIndex false)) Sample.spendingTwice.vtx =
        .ok t ∧ t.nValueIn = 19 * COIN ∧ t.nValueOut = 18 * COIN ∧ t.nFees = 2 * COIN := by
  have hcheck : checkBlock Sample.params Sample.world Sample.spendingTwice (!false) (!false) false =
      .ok () := by
    decide +kernel
  refine ⟨(loopFits_iff Sample.checked_onDisk hcheck).mpr fun A tx B hsplit t _ _ ↦ ?_, ?_⟩
  · have hlen : A.length < 3 := by
      have hlen := congrArg List.length hsplit
      rw [List.length_append, List.length_cons] at hlen
      have hthree : Sample.spendingTwice.vtx.length = 3 := rfl
      omega
    have hA : A ++ [tx] = Sample.spendingTwice.vtx.take (A.length + 1) := by
      have happend : A ++ tx :: B = (A ++ [tx]) ++ B := List.append_cons ..
      rw [hsplit, happend]
      exact (List.take_left' List.length_append).symm
    have hall : ∀ i < 3,
        Sample.onDisk.spentFrom Sample.params Sample.onDisk.txIndex
            (placesFrom Sample.genesisIndex false
              (firstTxPos Sample.spendingTwice Sample.genesisIndex false)
              (Sample.spendingTwice.vtx.take (i + 1))) < 2 ^ 63 ∧
          paidBy (Sample.spendingTwice.vtx.take (i + 1)) < 2 ^ 63 := by
      decide +kernel
    rw [hA]
    exact hall A.length hlen
  · have hrun : (connectTxs Sample.params Sample.onDisk Sample.genesisIndex false
        (.init (firstTxPos Sample.spendingTwice Sample.genesisIndex false))
        Sample.spendingTwice.vtx).toOption.any (fun t ↦ t.nValueIn = 19 * COIN ∧
          t.nValueOut = 18 * COIN ∧ t.nFees = 2 * COIN) = true := by
      decide +kernel
    cases h : connectTxs Sample.params Sample.onDisk Sample.genesisIndex false
        (.init (firstTxPos Sample.spendingTwice Sample.genesisIndex false))
        Sample.spendingTwice.vtx with
    | error fault =>
      rw [h] at hrun
      cases hrun
    | ok t =>
      rw [h] at hrun
      exact ⟨t, rfl, of_decide_eq_true hrun⟩

end Bws
