import Bws.Fetch
import Bws.Lib.Ledger

/-!
# Connecting transactions spends outputs

The loop of `ConnectBlock` as operations of a ledger.  The index entries that the loop sees are
the queued changes over the database (`queued`); on these, connecting a transaction is
`Ledger.connect`, whatever place its inputs were read from (`connect_of_connectTx`), and the loop
is `Ledger.connectAll` (`connectAll_of_connectTxs`).
-/

namespace Bws

/-! ## Transactions of a ledger -/

/-- The name of an output. -/
def COutPoint.output (o : COutPoint) : UInt256 × ℕ := (o.hash, o.n)

/-- The outputs that a transaction spends. -/
def CTransaction.spends (tx : CTransaction) : List COutPoint :=
  if tx.isCoinBase then [] else tx.vin.map CTxIn.prevout

/-- What the ledger is told about a transaction. -/
def ledgerTx (P : Params) (tx : CTransaction) : Ledger.Tx UInt256 where
  id := P.getHash tx
  ins := tx.spends.map COutPoint.output
  nOut := tx.vout.length

/-- The transactions of a list with their positions, the first one being at `nTxPos` of the block
of `pindex`. -/
def placed (pindex : CBlockIndex) (nTxPos : ℕ) (vtx : List CTransaction) :
    List (CTransaction × CDiskTxPos) :=
  (txsFrom nTxPos vtx).map fun a ↦ (a.1, ⟨pindex.val.nFile, pindex.val.nBlockPos, a.2⟩)

/-- What the ledger is told about a list of transactions with their positions. -/
def toLedger (P : Params) (L : List (CTransaction × CDiskTxPos)) :
    List (Ledger.Tx UInt256 × CDiskTxPos) :=
  L.map fun a ↦ (ledgerTx P a.1, a.2)

theorem map_fst_placed (pindex : CBlockIndex) (nTxPos : ℕ) (vtx : List CTransaction) :
    (placed pindex nTxPos vtx).map Prod.fst = vtx := by
  unfold placed
  rw [List.map_map]
  exact map_fst_txsFrom vtx nTxPos

theorem map_fst_toLedger (P : Params) (L : List (CTransaction × CDiskTxPos)) :
    (toLedger P L).map Prod.fst = (L.map Prod.fst).map (ledgerTx P) := by
  unfold toLedger
  rw [List.map_map, List.map_map]
  rfl

theorem toLedger_append (P : Params) (L L' : List (CTransaction × CDiskTxPos)) :
    toLedger P (L ++ L') = toLedger P L ++ toLedger P L' := List.map_append

/-! ## What the loop sees -/

/-- The transaction index that the loop of `ConnectBlock` sees: the queued changes over the
database. -/
def queued (V : TxView) (mapTestPool : TxIndexMap) : Ledger.Index UInt256 CDiskTxPos :=
  fun hash ↦ mapTestPool[hash]?.or (V.txIndex hash)

/-- The transaction that an index entry leads to. -/
def TxView.prevTx (V : TxView) (hash : UInt256) (txindex : CTxIndex) : Option CTransaction :=
  if txindex.pos = .inMemory then V.lookup hash else V.readTx txindex.pos

section

variable {P : Params} {V : TxView} {mapTestPool : TxIndexMap}

theorem queued_empty (V : TxView) : queued V ∅ = V.txIndex := by
  funext hash
  simp [queued]

theorem queued_insert (V : TxView) (mapTestPool : TxIndexMap) (hash : UInt256)
    (txindex : CTxIndex) : queued V (mapTestPool.insert hash txindex) =
      Function.update (queued V mapTestPool) hash (some txindex) := by
  funext hash'
  unfold queued
  by_cases h : hash' = hash
  · subst h
    simp
  · rw [Function.update_of_ne h, Std.TreeMap.getElem?_insert, if_neg]
    exact fun heq ↦ h (Std.LawfulEqCmp.eq_of_compare heq).symm

theorem findTxIndex_eq_queued {fBlock fMiner : Bool} (hf : fBlock = true ∨ fMiner = true)
    (hash : UInt256) :
    findTxIndex V mapTestPool fBlock fMiner hash = queued V mapTestPool hash := by
  have hboth : (fBlock = true ∨ fMiner = true) = True := eq_true hf
  unfold findTxIndex queued
  rw [← Std.TreeMap.isSome_getElem?_eq_contains]
  cases mapTestPool[hash]? <;> simp [hboth]

/-- For a block and for the miner, what is fetched is the index entry that the loop sees and the
transaction that it leads to. -/
theorem fetches_queued {fBlock fMiner : Bool} (hf : fBlock = true ∨ fMiner = true) {hash : UInt256}
    {txindex : CTxIndex} {txPrev : CTransaction}
    (h : Fetches V mapTestPool fBlock fMiner hash txindex txPrev) :
    queued V mapTestPool hash = some txindex ∧ V.prevTx hash txindex = some txPrev := by
  cases h with
  | indexed h hread => exact ⟨(findTxIndex_eq_queued hf hash).symm.trans h, hread⟩
  | loose hloose =>
    rcases hf with hf | hf
    · exact absurd (hloose.1.symm.trans hf) nofun
    · exact absurd (hloose.2.symm.trans hf) nofun

/-! ## Spending the inputs -/

/-- The entries that have been fetched are the ones that the loop sees. -/
def Synced (V : TxView) (inputs : MapPrevTx) (mapTestPool : TxIndexMap) : Prop :=
  ∀ hash txindex txPrev, inputs hash = some (txindex, txPrev) →
    queued V mapTestPool hash = some txindex

/-- One output is marked spent in both places. -/
theorem spend_of_spendInput {m : ConnectMode} (hm : m.fBlock = true ∨ m.fMiner = true)
    {tx : CTransaction} {i : ℕ} {prevout : COutPoint} {inputs inputs' : MapPrevTx}
    {mapTestPool' : TxIndexMap} (hs : Synced V inputs mapTestPool)
    (h : spendInput P V m tx i inputs mapTestPool prevout = .ok (inputs', mapTestPool')) :
    Ledger.spend (queued V mapTestPool) m.posThisTx prevout.output =
        some (queued V mapTestPool') ∧ Synced V inputs' mapTestPool' := by
  obtain ⟨txindex, txPrev, pos, hin, hpos, hnull, rfl, hmap⟩ := spendInput_eq_ok h
  rw [if_pos hm] at hmap
  subst hmap
  have hq := hs _ _ _ hin
  have hlt : prevout.n < txindex.vSpent.length := (List.getElem?_eq_some_iff.mp hpos).1
  constructor
  · have hslot : Ledger.slot? (queued V mapTestPool) prevout.output = some pos := by
      rw [Ledger.slot?, show (prevout.output).1 = prevout.hash from rfl, hq]
      exact hpos
    have hisNull : Ledger.isNull pos = true := hnull
    rw [Ledger.spend, hslot]
    dsimp only
    rw [if_pos hisNull, Ledger.setSlot, show (prevout.output).1 = prevout.hash from rfl, hq]
    dsimp only
    rw [if_pos (show (prevout.output).2 < _ from hlt), queued_insert]
    rfl
  · intro hash txindex' txPrev' hin'
    rw [queued_insert]
    by_cases heq : hash = prevout.hash
    · subst heq
      rw [Function.update_self] at hin' ⊢
      cases hin'
      rfl
    · rw [Function.update_of_ne heq] at hin' ⊢
      exact hs _ _ _ hin'

theorem spendAll_of_spendInputs {m : ConnectMode} (hm : m.fBlock = true ∨ m.fMiner = true)
    {tx : CTransaction} {vin : List CTxIn} :
    ∀ {i : ℕ} {inputs : MapPrevTx} {mapTestPool mapTestPool' : TxIndexMap},
      Synced V inputs mapTestPool → spendInputs P V m tx i inputs mapTestPool vin = .ok mapTestPool' →
        Ledger.spendAll (queued V mapTestPool) m.posThisTx
          (vin.map fun txin ↦ txin.prevout.output) = some (queued V mapTestPool') := by
  induction vin with
  | nil =>
    rintro i inputs mapTestPool _ - ⟨⟩
    rfl
  | cons txin vin ih =>
    intro i inputs mapTestPool mapTestPool' hs h
    obtain ⟨⟨inputs₁, mapTestPool₁⟩, h₁, h₂⟩ := bind_eq_ok.mp h
    obtain ⟨hspend, hs₁⟩ := spend_of_spendInput hm hs h₁
    rw [List.map_cons, Ledger.spendAll, hspend]
    exact ih hs₁ h₂

end

/-! ## The values of the inputs -/

/-- The output that the loop finds for an outpoint, in the index `idx`. -/
def TxView.outputIn (V : TxView) (idx : Ledger.Index UInt256 CDiskTxPos) (o : COutPoint) :
    Option CTxOut :=
  (idx o.hash).bind fun txindex ↦ (V.prevTx o.hash txindex).bind fun txPrev ↦ txPrev.vout[o.n]?

/-- The outputs that the inputs spend, in order. -/
def SpendsOutputs (V : TxView) (idx : Ledger.Index UInt256 CDiskTxPos) (vin : List CTxIn)
    (vout : List CTxOut) : Prop :=
  List.Forall₂ (fun txin txout ↦ V.outputIn idx txin.prevout = some txout) vin vout

/-- The values of a list of outputs, added up without bounds. -/
def totalValue (vout : List CTxOut) : ℤ := (vout.map CTxOut.nValue).sum

@[simp] theorem totalValue_nil : totalValue [] = 0 := rfl

@[simp] theorem totalValue_cons (txout : CTxOut) (vout : List CTxOut) :
    totalValue (txout :: vout) = txout.nValue + totalValue vout := rfl

section

variable {V : TxView} {mapTestPool : TxIndexMap} {inputs : MapPrevTx}

theorem getOutputFor_eq_ok_iff {txin : CTxIn} {txout : CTxOut} :
    getOutputFor inputs txin = .ok txout ↔ ∃ txindex txPrev,
      inputs txin.prevout.hash = some (txindex, txPrev) ∧
        txPrev.vout[txin.prevout.n]? = some txout := by
  unfold getOutputFor
  split
  · rename_i hin
    simp [hin]
  · rename_i txindex txPrev hin
    split
    · rename_i hout
      simp [hin, hout]
    · rename_i txout' hout
      simp [hin, hout]

/-- The outputs that `GetOutputFor` gives are the ones that the loop sees. -/
theorem spendsOutputs_of_fetched {fBlock fMiner : Bool} (hmode : fBlock = true ∨ fMiner = true)
    {vin : List CTxIn} (hf : Fetched inputs vin)
    (hall : ∀ hash txindex txPrev, inputs hash = some (txindex, txPrev) →
      Fetches V mapTestPool fBlock fMiner hash txindex txPrev) :
    ∃ vout, List.Forall₂ (fun txin txout ↦ getOutputFor inputs txin = .ok txout) vin vout ∧
      SpendsOutputs V (queued V mapTestPool) vin vout := by
  induction vin with
  | nil => exact ⟨[], .nil, .nil⟩
  | cons txin vin ih =>
    obtain ⟨vout, hout, hspends⟩ := ih hf.tail
    obtain ⟨txout, htxout⟩ := getOutputFor_eq_ok hf List.mem_cons_self
    obtain ⟨txindex, txPrev, hin, hget⟩ := getOutputFor_eq_ok_iff.mp htxout
    obtain ⟨hq, hprev⟩ := fetches_queued hmode (hall _ _ _ hin)
    refine ⟨txout :: vout, .cons htxout hout, .cons ?_ hspends⟩
    rw [TxView.outputIn, hq, Option.bind_some, hprev, Option.bind_some, hget]

/-- `GetValueIn` adds the outputs up, in 64 bits. -/
theorem getValueInFrom_eq {vin : List CTxIn} {vout : List CTxOut}
    (h : List.Forall₂ (fun txin txout ↦ getOutputFor inputs txin = .ok txout) vin vout) :
    ∀ nResult, getValueInFrom inputs nResult vin =
      .ok (vout.foldl (fun n txout ↦ int64 (n + txout.nValue)) nResult) := by
  induction h with
  | nil => exact fun _ ↦ rfl
  | cons htxout _ ih =>
    intro nResult
    rw [getValueInFrom, htxout]
    exact ih _

/-- The inexpensive checks bound every value and every partial sum, so that the sum is exact. -/
theorem totalValue_of_checkInputs {pindexBlock : Option CBlockIndex} {tx : CTransaction}
    {vin : List CTxIn} {vout : List CTxOut}
    (h : List.Forall₂ (fun txin txout ↦ getOutputFor inputs txin = .ok txout) vin vout) :
    ∀ {nValueIn n}, moneyRange nValueIn → checkInputs pindexBlock tx inputs nValueIn vin = .ok n →
      n = nValueIn + totalValue vout ∧ moneyRange n ∧
        vout.foldl (fun n txout ↦ int64 (n + txout.nValue)) nValueIn = n := by
  induction h with
  | nil =>
    rintro nValueIn _ hrange ⟨⟩
    exact ⟨by simp, hrange, rfl⟩
  | @cons txin txout vin vout htxout _ ih =>
    intro nValueIn n hrange h
    obtain ⟨n₁, h₁, h₂⟩ := bind_eq_ok.mp h
    obtain ⟨txindex, txPrev, hin, hget⟩ := getOutputFor_eq_ok_iff.mp htxout
    simp only [checkInput, hin, hget, bind_eq_ok, rejectIf_eq_ok] at h₁
    obtain ⟨-, -, -, -, -, -, -, -, -, hmoney, h₁⟩ := h₁
    cases h₁
    simp only [not_or, not_not] at hmoney
    have hmax : MAX_MONEY < 2 ^ 62 := by decide
    obtain ⟨hlo, hhi⟩ := hrange
    obtain ⟨hlo', hhi'⟩ := hmoney.1
    have hexact : int64 (nValueIn + txout.nValue) = nValueIn + txout.nValue :=
      int64_eq ⟨by omega, by omega⟩
    obtain ⟨hn, hnrange, hfold⟩ := ih hmoney.2 h₂
    refine ⟨?_, hnrange, hfold⟩
    rw [hn, hexact, totalValue_cons]
    ring

end

/-- `GetValueOut` refuses any partial sum out of range, so that the sum is exact. -/
theorem totalValue_of_getValueOutFrom {vout : List CTxOut} :
    ∀ {nValueOut n}, moneyRange nValueOut →
      CTransaction.getValueOutFrom nValueOut vout = .ok n →
        n = nValueOut + totalValue vout ∧ moneyRange n := by
  induction vout with
  | nil =>
    rintro nValueOut _ hrange ⟨⟩
    exact ⟨by simp, hrange⟩
  | cons txout vout ih =>
    intro nValueOut n hrange h
    rw [CTransaction.getValueOutFrom] at h
    split at h
    · cases h
    · rename_i hmoney
      simp only [not_or, not_not] at hmoney
      have hmax : MAX_MONEY < 2 ^ 62 := by decide
      obtain ⟨hlo, hhi⟩ := hrange
      obtain ⟨hlo', hhi'⟩ := hmoney.1
      have hexact : int64 (nValueOut + txout.nValue) = nValueOut + txout.nValue :=
        int64_eq ⟨by omega, by omega⟩
      obtain ⟨hn, hnrange⟩ := ih hmoney.2 h
      refine ⟨?_, hnrange⟩
      rw [hn, hexact, totalValue_cons]
      ring

theorem totalValue_of_getValueOut {tx : CTransaction} {n : ℤ} (h : tx.getValueOut = .ok n) :
    n = totalValue tx.vout ∧ moneyRange n := by
  have hzero : moneyRange 0 := by decide
  obtain ⟨hn, hrange⟩ := totalValue_of_getValueOutFrom hzero h
  exact ⟨by rw [hn, zero_add], hrange⟩

theorem nValue_of_getValueOutFrom {vout : List CTxOut} :
    ∀ {nValueOut n : ℤ}, CTransaction.getValueOutFrom nValueOut vout = .ok n →
      ∀ txout ∈ vout, moneyRange txout.nValue := by
  induction vout with
  | nil => exact fun _ _ h ↦ absurd h List.not_mem_nil
  | cons txout vout ih =>
    intro nValueOut n h
    rw [CTransaction.getValueOutFrom] at h
    split at h
    · cases h
    · rename_i hmoney
      simp only [not_or, not_not] at hmoney
      rw [List.forall_mem_cons]
      exact ⟨hmoney.1, ih h⟩

/-! ## One transaction -/

section

variable {P : Params} {V : TxView} {pindex : CBlockIndex} {t t' : BlockTotals}
  {tx : CTransaction}

theorem spends_of_not_isCoinBase (hcb : ¬ tx.isCoinBase) :
    tx.spends = tx.vin.map CTxIn.prevout := if_neg hcb

theorem le_of_checkFee {nValueIn : ℤ} {nBurnCoins n : ℕ} (hcs : ¬ tx.isCoinStake)
    (h : checkFee P true tx nValueIn nBurnCoins = .ok n) :
    ∃ nValueOut, tx.getValueOut = .ok nValueOut ∧ nValueOut ≤ nValueIn := by
  unfold checkFee at h
  rw [if_neg hcs] at h
  simp only [bind_eq_ok, rejectIf_eq_ok, not_lt] at h
  obtain ⟨nValueOut, hv, -, hle, -⟩ := h
  exact ⟨nValueOut, hv, hle⟩

/-- What has become of a transaction with inputs that the loop has connected: it spends outputs
that the loop sees, of values that add up, and unless it is a coinstake it pays out no more. -/
structure Connected (P : Params) (V : TxView) (pindex : CBlockIndex) (t : BlockTotals)
    (tx : CTransaction) (t' : BlockTotals) (vout : List CTxOut) : Prop where
  spends : SpendsOutputs V (queued V t.mapQueuedChanges) tx.vin vout
  ledger : Ledger.spendAll (queued V t.mapQueuedChanges) (t.posThisTx pindex)
    (tx.spends.map COutPoint.output) = some (queued V t'.mapQueuedChanges)
  rangeIn : moneyRange (totalValue vout)
  rangeOut : moneyRange (totalValue tx.vout)
  pays : ¬ tx.isCoinStake → totalValue tx.vout ≤ totalValue vout
  totals : t' = { t.addValues tx (totalValue vout) (totalValue tx.vout) with
    mapQueuedChanges := t'.mapQueuedChanges
    nBurnCoins := t'.nBurnCoins
    nSigOps := t'.nSigOps }

theorem connected_of_connectSpending (hcb : ¬ tx.isCoinBase)
    (h : connectSpending P V pindex t tx = .ok t') : ∃ vout, Connected P V pindex t tx t' vout := by
  simp only [connectSpending, bind_eq_ok, dropScore_eq_ok, rejectIf_eq_ok] at h
  obtain ⟨inputs, hfetch, nP2SH, -, -, -, nTxValueIn, hin, nTxValueOut, hout, ⟨map, nBurn⟩, hconn,
    h⟩ := h
  cases h
  obtain ⟨hf, hall⟩ := fetchInputs_eq_ok hcb hfetch
  obtain ⟨vout, hget, hspends⟩ := spendsOutputs_of_fetched (Or.inl rfl) hf hall
  rw [connectInputs, if_neg hcb] at hconn
  simp only [bind_eq_ok] at hconn
  obtain ⟨nValueIn, hcheck, map', hspend, n, hfee, hconn⟩ := hconn
  cases hconn
  have hzero : moneyRange 0 := by decide
  obtain ⟨hsum, hrange, hfold⟩ := totalValue_of_checkInputs hget hzero hcheck
  rw [zero_add] at hsum
  rw [getValueIn, if_neg hcb, getValueInFrom_eq hget, hfold] at hin
  cases hin
  obtain ⟨hvalue, hrangeOut⟩ := totalValue_of_getValueOut hout
  have hsync : Synced V inputs t.mapQueuedChanges := fun hash txindex txPrev h ↦
    (fetches_queued (Or.inl rfl) (hall hash txindex txPrev h)).1
  have hledger := spendAll_of_spendInputs (m := ⟨t.posThisTx pindex, true, false,
    connectBlockFlags⟩) (Or.inl rfl) hsync hspend
  refine ⟨vout, hspends, ?_, hsum ▸ hrange, hvalue ▸ hrangeOut, fun hcs ↦ ?_, ?_⟩
  · rw [spends_of_not_isCoinBase hcb, List.map_map]
    exact hledger
  · obtain ⟨nValueOut, hv, hle⟩ := le_of_checkFee hcs hfee
    cases hv.symm.trans hout
    rw [← hvalue, ← hsum]
    exact hle
  · rw [← hvalue, ← hsum]

/-- One round of the loop: how it ends for a coinbase, and for a transaction with inputs. -/
theorem connectTx_eq_ok (h : connectTx P V pindex false t tx = .ok t') :
    ∃ nSigOps t₁, checkOverwrite P V t.nSigOps tx = .ok nSigOps ∧
      connectEither P V pindex { t with nSigOps } tx = .ok t₁ ∧
      t' = { t₁ with
        mapQueuedChanges := t₁.mapQueuedChanges.insert (P.getHash tx)
          (CTxIndex.mk' (t.posThisTx pindex) tx.vout.length)
        nTxPos := t.nTxPos + tx.serializeSize } := by
  simp only [connectTx, bind_eq_ok] at h
  obtain ⟨nSigOps, hover, t₁, heither, h⟩ := h
  cases h
  exact ⟨nSigOps, t₁, hover, heither, rfl⟩

theorem connectCoinBase_eq_ok (h : connectCoinBase t tx = .ok t') :
    t' = { t with nValueOut := int64 (t.nValueOut + totalValue tx.vout) } ∧
      moneyRange (totalValue tx.vout) := by
  simp only [connectCoinBase, bind_eq_ok] at h
  obtain ⟨v, hv, h⟩ := h
  obtain ⟨rfl, hrange⟩ := totalValue_of_getValueOut hv
  cases h
  exact ⟨rfl, hrange⟩

/-- **One round of the loop connects the transaction.** -/
theorem connect_of_connectTx (h : connectTx P V pindex false t tx = .ok t') :
    Ledger.connect (queued V t.mapQueuedChanges) (ledgerTx P tx) (t.posThisTx pindex) =
      some (queued V t'.mapQueuedChanges) ∧ t'.nTxPos = t.nTxPos + tx.serializeSize := by
  obtain ⟨nSigOps, t₁, -, heither, rfl⟩ := connectTx_eq_ok h
  refine ⟨?_, rfl⟩
  have hspend : Ledger.spendAll (queued V t.mapQueuedChanges) (t.posThisTx pindex)
      (tx.spends.map COutPoint.output) = some (queued V t₁.mapQueuedChanges) := by
    unfold connectEither at heither
    split at heither
    · rename_i hcb
      obtain ⟨rfl, -⟩ := connectCoinBase_eq_ok heither
      rw [CTransaction.spends, if_pos hcb]
      rfl
    · rename_i hcb
      obtain ⟨vout, hconn⟩ := connected_of_connectSpending hcb heither
      exact hconn.ledger
  rw [Ledger.connect, show (ledgerTx P tx).ins = tx.spends.map COutPoint.output from rfl, hspend,
    queued_insert]
  rfl

theorem connectTxs_cons_eq_ok {vtx : List CTransaction} :
    connectTxs P V pindex false t (tx :: vtx) = .ok t' ↔
      ∃ t₁, connectTx P V pindex false t tx = .ok t₁ ∧
        connectTxs P V pindex false t₁ vtx = .ok t' := bind_eq_ok

/-- **The loop connects the transactions of the block.** -/
theorem connectAll_of_connectTxs {vtx : List CTransaction} : ∀ {t t' : BlockTotals},
    connectTxs P V pindex false t vtx = .ok t' →
      Ledger.connectAll (queued V t.mapQueuedChanges) (toLedger P (placed pindex t.nTxPos vtx)) =
        some (queued V t'.mapQueuedChanges) := by
  induction vtx with
  | nil =>
    rintro t _ ⟨⟩
    rfl
  | cons tx vtx ih =>
    intro t t' h
    obtain ⟨t₁, h₁, h₂⟩ := connectTxs_cons_eq_ok.mp h
    obtain ⟨hconn, hpos⟩ := connect_of_connectTx h₁
    have hrest := ih h₂
    rw [hpos] at hrest
    unfold placed at hrest ⊢
    rw [txsFrom, List.map_cons, toLedger, List.map_cons, Ledger.connectAll]
    rw [show (⟨pindex.val.nFile, pindex.val.nBlockPos, t.nTxPos⟩ : CDiskTxPos) =
      t.posThisTx pindex from rfl, hconn]
    exact hrest

/-- The round of the loop for one of the transactions, and the index that it starts from. -/
theorem connectTx_of_connectTxs {vtx : List CTransaction} {a : CTransaction × CDiskTxPos}
    {B : List (CTransaction × CDiskTxPos)} : ∀ {t t' : BlockTotals} {A},
      connectTxs P V pindex false t vtx = .ok t' → placed pindex t.nTxPos vtx = A ++ a :: B →
        ∃ t₁ t₂, Ledger.connectAll (queued V t.mapQueuedChanges) (toLedger P A) =
            some (queued V t₁.mapQueuedChanges) ∧ connectTx P V pindex false t₁ a.1 = .ok t₂ := by
  induction vtx with
  | nil =>
    intro t t' A _ hsplit
    exact absurd hsplit.symm (List.append_ne_nil_of_right_ne_nil A (List.cons_ne_nil a B))
  | cons tx vtx ih =>
    intro t t' A h hsplit
    obtain ⟨t₁, h₁, h₂⟩ := connectTxs_cons_eq_ok.mp h
    obtain ⟨hconn, hpos⟩ := connect_of_connectTx h₁
    cases A with
    | nil =>
      obtain ⟨rfl, -⟩ := List.cons.inj hsplit
      exact ⟨t, t₁, rfl, h₁⟩
    | cons a' A =>
      obtain ⟨rfl, hrest⟩ := List.cons.inj hsplit
      rw [← hpos] at hrest
      obtain ⟨t₂, t₃, hall, hx⟩ := ih h₂ hrest
      refine ⟨t₂, t₃, ?_, hx⟩
      change (Ledger.connect (queued V t.mapQueuedChanges) (ledgerTx P tx)
        (t.posThisTx pindex)).bind (fun idx' ↦ Ledger.connectAll idx' (toLedger P A)) = _
      rw [hconn]
      exact hall

end

end Bws
