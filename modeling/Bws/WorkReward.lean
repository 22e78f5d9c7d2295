import Bws.Supply

/-!
# The limit of a coinbase

`GetProofOfWorkReward` takes the height from `pindexBest`, which is the parent of the block only where
the block extends the best chain.  Two nodes that have the same chain below a block can refuse its
coinbase and let it pass, and they do so exactly when its amount lies between their limits
(`sameVerdict_iff`).
-/

namespace Bws

open NodeM NodeState

/-! ## The fees of a block -/

section

variable (P : Params) (V : TxView)

/-- The value that a transaction spends, as the index leads to it. -/
def TxView.valueIn (idx : Ledger.Index UInt256 CDiskTxPos) (tx : CTransaction) : ℤ :=
  (tx.spends.map fun o ↦ ((V.outputIn idx o).map CTxOut.nValue).getD 0).sum

/-- What the transactions of a list pay in fees, when they are connected one after another. -/
def TxView.feesFrom (idx : Ledger.Index UInt256 CDiskTxPos) :
    List (CTransaction × CDiskTxPos) → ℤ
  | [] => 0
  | a :: L =>
    (if a.1.isCoinBase ∨ a.1.isCoinStake then 0 else V.valueIn idx a.1 - totalValue a.1.vout) +
      feesFrom ((Ledger.connect idx (ledgerTx P a.1) a.2).getD idx) L

/-- The fees of the transactions of a block. -/
def TxView.blockFees (block : CBlock) (pindex : CBlockIndex) : ℤ :=
  V.feesFrom P V.txIndex (blockTxs block pindex)

end

section

variable {P : Params} {V V' : TxView} {pindex : CBlockIndex} {t t' : BlockTotals}
  {tx : CTransaction} {idx : Ledger.Index UInt256 CDiskTxPos}

theorem TxView.valueIn_of_spends (hcb : ¬ tx.isCoinBase) {vout : List CTxOut}
    (h : SpendsOutputs V idx tx.vin vout) : V.valueIn idx tx = totalValue vout := by
  have hall : ∀ {vin : List CTxIn}, SpendsOutputs V idx vin vout →
      ((vin.map CTxIn.prevout).map fun o ↦ ((V.outputIn idx o).map CTxOut.nValue).getD 0).sum =
        totalValue vout := by
    clear h
    intro vin h
    induction h with
    | nil => rfl
    | cons htxout _ ih =>
      rw [List.map_cons, List.map_cons, List.sum_cons, ih, totalValue_cons, htxout]
      rfl
  rw [TxView.valueIn, spends_of_not_isCoinBase hcb]
  exact hall h

/-- One round of the loop adds the fee of the transaction. -/
theorem nFees_of_connectTx (h : connectTx P V pindex false t tx = .ok t') :
    t'.nFees ≡ t.nFees + (if tx.isCoinBase ∨ tx.isCoinStake then 0
      else V.valueIn (queued V t.mapQueuedChanges) tx - totalValue tx.vout) [ZMOD 2 ^ 64] := by
  obtain ⟨nSigOps, t₁, -, heither, rfl⟩ := connectTx_eq_ok h
  dsimp only
  rw [connectEither] at heither
  by_cases hcb : tx.isCoinBase
  · rw [if_pos hcb] at heither
    obtain ⟨rfl, -⟩ := connectCoinBase_eq_ok heither
    rw [if_pos (Or.inl hcb), add_zero]
  · rw [if_neg hcb] at heither
    obtain ⟨vout, hconn⟩ := connected_of_connectSpending hcb heither
    have hfees : t₁.nFees = if tx.isCoinStake then t.nFees
        else int64 (t.nFees + int64 (totalValue vout - totalValue tx.vout)) :=
      congrArg BlockTotals.nFees hconn.totals
    have hin : V.valueIn (queued V t.mapQueuedChanges) tx = totalValue vout :=
      TxView.valueIn_of_spends hcb hconn.spends
    rw [hfees, hin]
    by_cases hcs : tx.isCoinStake
    · rw [if_pos hcs, if_pos (Or.inr hcs), add_zero]
    · rw [if_neg hcs, if_neg (not_or.mpr ⟨hcb, hcs⟩)]
      exact (int64_modEq _).trans ((int64_modEq _).add_left _)

/-- **The loop of `ConnectBlock` adds the fees up.** -/
theorem nFees_of_connectTxs {vtx : List CTransaction} : ∀ {t t' : BlockTotals},
    connectTxs P V pindex false t vtx = .ok t' →
      t'.nFees ≡ t.nFees + V.feesFrom P (queued V t.mapQueuedChanges)
        (placed pindex t.nTxPos vtx) [ZMOD 2 ^ 64] := by
  induction vtx with
  | nil =>
    rintro t _ ⟨⟩
    rw [show placed pindex t.nTxPos [] = [] from rfl, TxView.feesFrom, add_zero]
  | cons tx vtx ih =>
    intro t t' h
    obtain ⟨t₁, h₁, h₂⟩ := connectTxs_cons_eq_ok.mp h
    obtain ⟨hconn, hpos⟩ := connect_of_connectTx h₁
    have hplaced : placed pindex t.nTxPos (tx :: vtx) =
        (tx, t.posThisTx pindex) :: placed pindex t₁.nTxPos vtx := by
      rw [placed, placed, txsFrom, List.map_cons, hpos]
      rfl
    rw [hplaced, TxView.feesFrom, hconn, Option.getD_some, ← add_assoc]
    exact (ih h₂).trans ((nFees_of_connectTx h₁).add_right _)

/-- The limit is that of the fees of the block. -/
theorem getProofOfWorkReward_of_connectTxs {block : CBlock}
    (h : connectTxs P V pindex false (.init (firstTxPos block pindex false)) block.vtx = .ok t)
    (nHeightBest : ℕ) : getProofOfWorkReward nHeightBest t.nFees =
      getProofOfWorkReward nHeightBest (V.blockFees P block pindex) := by
  have hfees : t.nFees ≡ 0 + V.feesFrom P (queued V ∅) (blockTxs block pindex) [ZMOD 2 ^ 64] :=
    nFees_of_connectTxs h
  rw [queued_empty, zero_add] at hfees
  exact int64_congr (hfees.add_left _)

/-! ## The same chain below a block -/

/-- Two views of the same chain below a block that is on disk: the transaction index is the same and
leads to the same transactions. -/
structure SameParent (V V' : TxView) (block : CBlock) (pindex : CBlockIndex) : Prop where
  txIndex : V.txIndex = V'.txIndex
  prevTx : ∀ hash txindex, V.txIndex hash = some txindex →
    V.prevTx hash txindex = V'.prevTx hash txindex
  readTx : ∀ a ∈ blockTxs block pindex, V.readTx a.2 = V'.readTx a.2

/-- What the fees depend on: the transactions that the entries lead to. -/
theorem TxView.feesFrom_congr {L : List (CTransaction × CDiskTxPos)} :
    ∀ {idx : Ledger.Index UInt256 CDiskTxPos},
      (∀ hash txindex, idx hash = some txindex → V.prevTx hash txindex = V'.prevTx hash txindex) →
      (∀ a ∈ L, a.2 ≠ .inMemory ∧ V.readTx a.2 = V'.readTx a.2) →
        V.feesFrom P idx L = V'.feesFrom P idx L := by
  induction L with
  | nil => exact fun _ _ ↦ rfl
  | cons a L ih =>
    intro idx hprev hread
    rw [List.forall_mem_cons] at hread
    have hout : ∀ o, V.outputIn idx o = V'.outputIn idx o := by
      intro o
      rw [outputIn, outputIn]
      cases hidx : idx o.hash with
      | none => rfl
      | some txindex => rw [Option.bind_some, Option.bind_some, hprev _ _ hidx]
    have hin : V.valueIn idx a.1 = V'.valueIn idx a.1 := by
      rw [valueIn, valueIn]
      simp only [hout]
    rw [feesFrom, feesFrom, hin]
    refine congrArg _ (ih ?_ hread.2)
    cases hconn : Ledger.connect idx (ledgerTx P a.1) a.2 with
    | none => exact hprev
    | some idx' =>
      intro hash txindex htxindex
      have hpos := Ledger.pos?_connect hconn hash
      rw [Ledger.pos?, show idx' hash = some txindex from htxindex, Option.map_some] at hpos
      rw [prevTx, prevTx]
      split_ifs at hpos with hself
      · -- the entry of the transaction itself
        rw [Option.some.inj hpos, if_neg hread.1.1, if_neg hread.1.1, hread.1.2]
      · obtain ⟨old, hold, heq⟩ := Option.map_eq_some_iff.mp hpos.symm
        have h := hprev _ _ hold
        rw [prevTx, prevTx, heq] at h
        exact h

theorem SameParent.blockFees_eq {block : CBlock} (h : SameParent V V' block pindex) :
    V.blockFees P block pindex = V'.blockFees P block pindex := by
  rw [TxView.blockFees, TxView.blockFees, ← h.txIndex]
  refine TxView.feesFrom_congr h.prevTx fun a ha ↦ ⟨?_, h.readTx a ha⟩
  obtain ⟨⟨tx, q⟩, hq, rfl⟩ := List.mem_map.mp ha
  -- the mark of the memory pool is a position before the first transaction of any block
  intro heq
  have hpos : q = 1 := congrArg CDiskTxPos.nTxPos heq
  have hlt := lt_of_mem_txsAt hq
  omega

end

/-! ## The verdict -/

/-- The error of the test of the coinbase. -/
def rewardExceeded : Fault :=
  .rejected 50 "ConnectBlock() : coinbase reward exceeded (actual=%d vs calculated=%d)"

section

variable (P : Params) (w : World) (s : NodeState) (block : CBlock) (pindex : CBlockIndex)

/-- `ConnectBlock` comes to the test of the coinbase: what it checks before passes. -/
structure ComesToReward : Prop where
  checked : checkBlock P w block true true false = .ok ()
  connected : (connectTxs P (s.txView w s.txdb) pindex false
    (.init (firstTxPos block pindex false)) block.vtx).isOk

/-- `ConnectBlock` refuses the block for the amount of its coinbase. -/
def RefusesReward : Prop :=
  Exec.error? (connectBlock w P block pindex false s) = some rewardExceeded

instance : Decidable (RefusesReward P w s block pindex) := inferInstanceAs (Decidable (_ = _))

/-- Two nodes that both come to the test of the coinbase decide it in the same way. -/
def SameVerdict (s₁ s₂ : NodeState) : Prop :=
  ComesToReward P w s₁ block pindex → ComesToReward P w s₂ block pindex →
    (RefusesReward P w s₁ block pindex ↔ RefusesReward P w s₂ block pindex)

/-- The most that a node with the best block `pindexBest` lets the coinbase of the block pay. -/
def rewardLimit (pindexBest : CBlockIndex) : ℤ :=
  getProofOfWorkReward pindexBest.nHeight ((s.txView w s.txdb).blockFees P block pindex)

end

section

variable {P : Params} {w : World} {s s₁ s₂ : NodeState} {block : CBlock}
  {pindex b b₁ b₂ : CBlockIndex}

/-- The test of a block that comes to it. -/
theorem ComesToReward.refusesReward_iff (h : ComesToReward P w s block pindex) (ho : s.Open)
    (hb : s.pindexBest = some b) (hwork : ¬ block.isProofOfStake) {tx : CTransaction}
    (htx : block.vtx[0]? = some tx) : RefusesReward P w s block pindex ↔
      rewardLimit P w s block pindex b < totalValue tx.vout := by
  obtain ⟨hchecked, hconnected⟩ := h
  have hmem := (checkedBlock_of_checkBlock hchecked).transactions tx (List.mem_of_getElem? htx)
  obtain ⟨nValueOut, hvalue⟩ := getValueOut_of_checkTransaction hmem
  obtain ⟨rfl, -⟩ := totalValue_of_getValueOut hvalue
  obtain ⟨t, ht⟩ := eq_ok_of_isOk hconnected
  have hstake : checkStakeReward P (s.txView w s.txdb) pindex block t.nFees t.nStakeReward = .ok () :=
    if_neg hwork
  have hreward : checkWorkReward (some b) block t.nFees = rejectIf
      (getProofOfWorkReward b.nHeight t.nFees < totalValue tx.vout) 50
        "ConnectBlock() : coinbase reward exceeded (actual=%d vs calculated=%d)" := by
    unfold checkWorkReward
    rw [if_neg hwork, htx]
    dsimp only
    rw [hvalue]
    rfl
  rw [RefusesReward, error?_connectBlock ho, hb, connectBlockCheck]
  change fault? (checkBlock P w block true true false >>= _) = _ ↔ _
  rw [hchecked]
  change fault? (connectTxs P (s.txView w s.txdb) pindex false
    (.init (firstTxPos block pindex false)) block.vtx >>= _) = _ ↔ _
  rw [ht]
  change fault? (checkWorkReward (some b) block t.nFees >>= fun _ ↦ checkStakeReward P
    (s.txView w s.txdb) pindex block t.nFees t.nStakeReward >>= fun _ ↦ Except.ok t) = _ ↔ _
  rw [hreward, hstake, getProofOfWorkReward_of_connectTxs ht, rewardLimit]
  by_cases hmore : getProofOfWorkReward b.nHeight ((s.txView w s.txdb).blockFees P block pindex) <
    totalValue tx.vout
  · rw [rejectIf, if_pos hmore]
    exact ⟨fun _ ↦ hmore, fun _ ↦ rfl⟩
  · rw [rejectIf, if_neg hmore]
    refine ⟨fun heq ↦ ?_, fun hlt ↦ absurd hlt hmore⟩
    have heq : none = some rewardExceeded := heq
    cases heq

/-- **Two nodes decide the coinbase in the same way if and only if** its amount is not between their
limits, whenever they have the same chain below the block. -/
theorem sameVerdict_iff (ho₁ : s₁.Open) (ho₂ : s₂.Open) (hb₁ : s₁.pindexBest = some b₁)
    (hb₂ : s₂.pindexBest = some b₂) (hwork : ¬ block.isProofOfStake)
    (hsame : SameParent (s₁.txView w s₁.txdb) (s₂.txView w s₂.txdb) block pindex) :
    SameVerdict P w block pindex s₁ s₂ ↔
      (ComesToReward P w s₁ block pindex → ComesToReward P w s₂ block pindex →
        ∀ tx ∈ block.vtx[0]?,
          let nFees := (s₁.txView w s₁.txdb).blockFees P block pindex
          let limit₁ := getProofOfWorkReward b₁.nHeight nFees
          let limit₂ := getProofOfWorkReward b₂.nHeight nFees
          ¬ (min limit₁ limit₂ < totalValue tx.vout ∧ totalValue tx.vout ≤ max limit₁ limit₂)) := by
  have hlimit₂ : rewardLimit P w s₂ block pindex b₂ = getProofOfWorkReward b₂.nHeight
      ((s₁.txView w s₁.txdb).blockFees P block pindex) := by
    rw [rewardLimit, hsame.blockFees_eq]
  constructor
  · intro h h₁ h₂ tx htx
    have hiff := h h₁ h₂
    rw [h₁.refusesReward_iff ho₁ hb₁ hwork htx, h₂.refusesReward_iff ho₂ hb₂ hwork htx, hlimit₂,
      rewardLimit] at hiff
    dsimp only
    omega
  · intro h h₁ h₂
    obtain ⟨tx, htx, -⟩ := (checkedBlock_of_checkBlock h₁.checked).coinbase
    have hbetween := h h₁ h₂ tx htx
    rw [h₁.refusesReward_iff ho₁ hb₁ hwork htx, h₂.refusesReward_iff ho₂ hb₂ hwork htx, hlimit₂,
      rewardLimit]
    dsimp only at hbetween
    omega

end

namespace Sample

/-- Two blocks for height 1.  The first one makes the coins that only this height may make. -/
def premineBlock : CBlock := block 1 1 (57000000 * COIN) 0 []

def rivalBlock : CBlock := block 1 1 0 1 []

/-- Both are on disk, and the best block is their parent. -/
def extending : NodeState := ((start.stored world rivalBlock).stored world premineBlock).begin_

/-- The entries of the two. -/
def rivalIndex : CBlockIndex := indexOf start rivalBlock

def premineIndex : CBlockIndex := indexOf (start.stored world rivalBlock) premineBlock

/-- The best block is the second one, which a switch has disconnected. -/
def switching : NodeState :=
  { extending with pindexBest := some rivalIndex, nBestHeight := 1 }

theorem pindexBest_extending : ∃ b, extending.pindexBest = some b ∧ b.nHeight = 0 :=
  ⟨_, rfl, by decide +kernel⟩

theorem blockFees_rivalBlock :
    (extending.txView world extending.txdb).blockFees params rivalBlock rivalIndex = 0 := by
  decide +kernel

end Sample

/-- The same coinbase is within the limit when the block extends the best chain, and beyond it in a
switch. -/
theorem not_sameVerdict_of_switching : ¬ SameVerdict Sample.params Sample.world
    Sample.premineBlock Sample.premineIndex Sample.extending Sample.switching := by
  intro h
  have hiff := h ⟨by decide +kernel, by decide +kernel⟩ ⟨by decide +kernel, by decide +kernel⟩
  exact absurd (hiff.mpr (by decide +kernel)) (by decide +kernel)

/-- A coinbase that pays nothing is within both limits. -/
theorem sameVerdict_iff_sample : SameVerdict Sample.params Sample.world Sample.rivalBlock
    Sample.rivalIndex Sample.extending Sample.switching := by
  obtain ⟨b, hb, hheight⟩ := Sample.pindexBest_extending
  have hwork : ¬ Sample.rivalBlock.isProofOfStake := by decide +kernel
  have ho : Sample.extending.Open := NodeState.open_begin _
  have ho' : Sample.switching.Open := ho
  refine (sameVerdict_iff ho ho' hb rfl hwork
    ⟨rfl, fun _ _ _ ↦ rfl, fun _ _ ↦ rfl⟩).mpr fun _ _ tx htx ↦ ?_
  cases htx
  rw [hheight, Sample.blockFees_rivalBlock]
  decide +kernel

end Bws
