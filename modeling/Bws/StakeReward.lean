import Bws.AcceptBlock
import Bws.Spend

/-!
# The test of the stake reward

`ConnectBlock` compares what a coinstake pays to itself with `GetProofOfStakeReward`.  The reward is
an `int64_t` and may be negative, the bound is a `uint64_t`, and so are the products that it is made
of.  The test decides as integers without bounds would exactly when no product wraps and the two sides
have the same sign (`decidesExactly_iff`).
-/

namespace Bws

/-! ## The bound as an integer -/

/-- What a coinstake may pay to itself at most, in integers without bounds. -/
def stakeReward (nCoinAge : ℕ) (nFees : ℤ) : ℤ :=
  nCoinAge * getCoinYearReward * 33 / (365 * 33 + 8) + nFees

/-- `GetProofOfStakeReward` multiplies without wrapping. -/
def FitsReward (nCoinAge : ℕ) : Prop :=
  nCoinAge * getCoinYearReward < 2 ^ 64 ∧ nCoinAge * getCoinYearReward * 33 < 2 ^ 64

theorem natCast_uint64 {x : ℤ} (hpos : 0 ≤ x) (hlt : x < 2 ^ 64) : (uint64 x : ℤ) = x := by
  rw [uint64, Int.emod_eq_of_lt hpos hlt, Int.toNat_of_nonneg hpos]

theorem getProofOfStakeReward_eq {nCoinAge : ℕ} (h : FitsReward nCoinAge) (nFees : ℤ) :
    getProofOfStakeReward nCoinAge nFees = uint64 (stakeReward nCoinAge nFees) := by
  have hyear : 0 ≤ getCoinYearReward := by decide
  have hpos : 0 ≤ (nCoinAge : ℤ) * getCoinYearReward := mul_nonneg nCoinAge.cast_nonneg hyear
  rw [getProofOfStakeReward, stakeReward, natCast_uint64 hpos h.1]
  push_cast
  rw [natCast_uint64 (mul_nonneg hpos (by decide)) h.2]

/-- A comparison in 64 bits without a sign: it is that of the integers when both have the same sign.
The bound on the left side is what keeps a wrapped one apart from any on the right. -/
theorem uint64_lt_uint64_iff {x y : ℤ} (hx : -2 ^ 62 ≤ x ∧ x < 2 ^ 62)
    (hy : -2 ^ 63 ≤ y ∧ y < 2 ^ 63 + 2 ^ 62) :
    (uint64 y < uint64 x ↔ y < x) ↔ (0 ≤ x ↔ 0 ≤ y) := by
  unfold uint64
  by_cases hxpos : 0 ≤ x <;> by_cases hypos : 0 ≤ y <;> omega

/-! ## The locals that the test reads -/

section

variable {P : Params} {V : TxView} {pindex : CBlockIndex} {fJustCheck : Bool} {t t' : BlockTotals}
  {tx : CTransaction}

/-- The fees fit: they are 0 or have just been added up. -/
theorem inInt64_nFees_addValues (h : InInt64 t.nFees) (nTxValueIn nTxValueOut : ℤ) :
    InInt64 (t.addValues tx nTxValueIn nTxValueOut).nFees := by
  unfold BlockTotals.addValues
  dsimp only
  split_ifs
  exacts [h, ⟨Int.le_bmod (by decide), Int.bmod_lt (by decide)⟩]

/-- What a round of the loop does to the two locals. -/
theorem stakeLocals_of_connectTx (h : connectTx P V pindex fJustCheck t tx = .ok t')
    (hfees : InInt64 t.nFees) :
    InInt64 t'.nFees ∧ (¬ tx.isCoinStake → t'.nStakeReward = t.nStakeReward) ∧
      (tx.isCoinStake → ∃ vout, SpendsOutputs V (queued V t.mapQueuedChanges) tx.vin vout ∧
        moneyRange (totalValue vout) ∧ moneyRange (totalValue tx.vout) ∧
          t'.nStakeReward = int64 (totalValue tx.vout - totalValue vout)) := by
  simp only [connectTx, bind_eq_ok] at h
  obtain ⟨nSigOps, -, t₁, heither, h⟩ := h
  cases h
  unfold connectEither at heither
  split at heither
  case isTrue hcb =>
    obtain ⟨rfl, -⟩ := connectCoinBase_eq_ok heither
    exact ⟨hfees, fun _ ↦ rfl, fun hcs ↦ absurd hcs (CTransaction.not_isCoinStake_of_isCoinBase hcb)⟩
  case isFalse hcb =>
    obtain ⟨vout, hconn⟩ := connected_of_connectSpending hcb heither
    rw [hconn.totals]
    refine ⟨inInt64_nFees_addValues hfees _ _, fun hcs ↦ if_neg hcs, fun hcs ↦
      ⟨vout, hconn.spends, hconn.rangeIn, hconn.rangeOut, if_pos hcs⟩⟩

/-- After the coinstake the loop keeps the reward. -/
theorem stakeLocals_of_connectTxs {vtx : List CTransaction} : ∀ {t t' : BlockTotals},
    connectTxs P V pindex fJustCheck t vtx = .ok t' → InInt64 t.nFees →
      (∀ tx ∈ vtx, ¬ tx.isCoinStake) →
        InInt64 t'.nFees ∧ t'.nStakeReward = t.nStakeReward := by
  induction vtx with
  | nil =>
    rintro t _ ⟨⟩ hfees -
    exact ⟨hfees, rfl⟩
  | cons tx vtx ih =>
    intro t t' h hfees hnot
    rw [List.forall_mem_cons] at hnot
    obtain ⟨t₁, h₁, h₂⟩ := bind_eq_ok.1 h
    obtain ⟨hfees₁, hkeep, -⟩ := stakeLocals_of_connectTx h₁ hfees
    obtain ⟨hfees', hkeep'⟩ := ih h₂ hfees₁ hnot.2
    exact ⟨hfees', hkeep'.trans (hkeep hnot.1)⟩

/-- The outputs that are spent are determined by the inputs. -/
theorem SpendsOutputs.unique {idx : Ledger.Index UInt256 CDiskTxPos} {vin : List CTxIn}
    {vout : List CTxOut} (h : SpendsOutputs V idx vin vout) :
    ∀ {vout'}, SpendsOutputs V idx vin vout' → vout = vout' := by
  induction h with
  | nil =>
    rintro _ ⟨⟩
    rfl
  | cons hhead _ ih =>
    rintro _ (_ | ⟨hhead', htail⟩)
    rw [Option.some.inj (hhead.symm.trans hhead'), ih htail]

end

/-! ## The test -/

/-- The verdict of the test. -/
def paysTooMuch : Fault :=
  .rejected 100 "ConnectBlock() : coinstake pays too much(actual=%d vs calculated=%d)"

/-- `ConnectBlock` comes to the test of a proof-of-stake block: the transactions are connected with
the totals `t`, the coinstake `tx` spends the outputs `vout`, and its age is known. -/
structure StakeTested (P : Params) (w : World) (V : TxView) (block : CBlock) (pindex : CBlockIndex)
    (fJustCheck : Bool) (t : BlockTotals) (tx : CTransaction) (vout : List CTxOut)
    (nCoinAge : ℕ) : Prop where
  checked : checkBlock P w block (!fJustCheck) (!fJustCheck) false = .ok ()
  connected : connectTxs P V pindex fJustCheck (.init (firstTxPos block pindex fJustCheck))
    block.vtx = .ok t
  stake : block.isProofOfStake
  coinstake : block.vtx[1]? = some tx
  spends : ∃ txBase ∈ block.vtx[0]?, ∃ t₁, connectTx P V pindex fJustCheck
    (.init (firstTxPos block pindex fJustCheck)) txBase = .ok t₁ ∧
      SpendsOutputs V (queued V t₁.mapQueuedChanges) tx.vin vout
  age : getCoinAge P V pindex.pprev tx = some nCoinAge

/-- The test decides by exact integer arithmetic for a coinstake that pays `nPaid` more than it
spends: no product wraps, it refuses what is more than the reward and the fees, and never a coinstake
that pays less than it spends. -/
structure DecidesExactly (P : Params) (w : World) (V : TxView) (pindexBest : Option CBlockIndex)
    (block : CBlock) (pindex : CBlockIndex) (fJustCheck : Bool) (nCoinAge : ℕ)
    (nFees nPaid : ℤ) : Prop where
  fits : FitsReward nCoinAge
  decides : connectBlockCheck P w V pindexBest block pindex fJustCheck = .error paysTooMuch ↔
    stakeReward nCoinAge nFees < nPaid
  loss : nPaid < 0 →
    connectBlockCheck P w V pindexBest block pindex fJustCheck ≠ .error paysTooMuch

section

variable {P : Params} {w : World} {V : TxView} {pindexBest : Option CBlockIndex} {block : CBlock}
  {pindex : CBlockIndex} {fJustCheck : Bool} {t : BlockTotals} {tx : CTransaction}
  {vout : List CTxOut} {nCoinAge : ℕ}

/-- The reward that is tested is the exact difference of two amounts of money. -/
theorem StakeTested.nStakeReward_eq
    (h : StakeTested P w V block pindex fJustCheck t tx vout nCoinAge) :
    InInt64 t.nFees ∧ moneyRange (totalValue vout) ∧ moneyRange (totalValue tx.vout) ∧
      t.nStakeReward = totalValue tx.vout - totalValue vout := by
  have hchecked := checkedBlock_of_checkBlock h.checked
  obtain ⟨txBase, hbase, t₁, h₁, hspends⟩ := h.spends
  have hcs : tx.isCoinStake := by
    obtain ⟨tx', htx', hcs⟩ := h.stake.2
    cases h.coinstake.symm.trans htx'
    exact hcs
  obtain ⟨txBase', hbase', hcb⟩ := hchecked.coinbase
  cases hbase.symm.trans hbase'
  have hrest := hchecked.coinstake_only h.stake
  have hall := h.connected
  have hone := h.coinstake
  obtain ⟨a, b, vtx, hvtx⟩ : ∃ a b vtx, block.vtx = a :: b :: vtx := by
    rcases hvtx : block.vtx with _ | ⟨a, _ | ⟨b, vtx⟩⟩
    · rw [hvtx] at hone
      cases hone
    · rw [hvtx] at hone
      cases hone
    · exact ⟨a, b, vtx, rfl⟩
  rw [hvtx] at hone hall hrest hbase
  cases hone
  cases hbase
  obtain ⟨t₁', h₁', hall⟩ := bind_eq_ok.1 hall
  cases h₁.symm.trans h₁'
  obtain ⟨t₂, h₂, hall⟩ := bind_eq_ok.1 hall
  have hzero : InInt64 0 := by decide
  have hfees₁ := (stakeLocals_of_connectTx h₁ hzero).1
  obtain ⟨hfees₂, -, hstake⟩ := stakeLocals_of_connectTx h₂ hfees₁
  obtain ⟨vout', hspends', hin, hout, hreward⟩ := hstake hcs
  obtain ⟨hfees, hkeep⟩ := stakeLocals_of_connectTxs hall hfees₂ hrest
  cases hspends.unique hspends'
  have hmax : MAX_MONEY < 2 ^ 62 := by decide
  obtain ⟨hlo, hhi⟩ := hin
  obtain ⟨hlo', hhi'⟩ := hout
  refine ⟨hfees, ⟨hlo, hhi⟩, ⟨hlo', hhi'⟩, ?_⟩
  rw [hkeep, hreward, int64_eq ⟨by omega, by omega⟩]

/-- The verdict of `ConnectBlock` is that of the comparison. -/
theorem StakeTested.eq_paysTooMuch_iff
    (h : StakeTested P w V block pindex fJustCheck t tx vout nCoinAge) :
    connectBlockCheck P w V pindexBest block pindex fJustCheck = .error paysTooMuch ↔
      getProofOfStakeReward nCoinAge t.nFees < uint64 (totalValue tx.vout - totalValue vout) := by
  have hwork : checkWorkReward pindexBest block t.nFees = .ok () := if_pos h.stake
  rw [← h.nStakeReward_eq.2.2.2, connectBlockCheck, h.checked]
  change (connectTxs P V pindex fJustCheck (.init (firstTxPos block pindex fJustCheck)) block.vtx >>=
    _) = _ ↔ _
  rw [h.connected]
  change (checkWorkReward pindexBest block t.nFees >>= _) = _ ↔ _
  rw [hwork]
  change (checkStakeReward P V pindex block t.nFees t.nStakeReward >>= _) = _ ↔ _
  simp only [checkStakeReward, if_pos h.stake, h.coinstake, h.age]
  by_cases hmuch : uint64 t.nStakeReward > getProofOfStakeReward nCoinAge t.nFees
  · rw [rejectIf, if_pos hmuch]
    exact ⟨fun _ ↦ hmuch, fun _ ↦ rfl⟩
  · rw [rejectIf, if_neg hmuch]
    refine ⟨fun heq ↦ ?_, fun hlt ↦ absurd hlt hmuch⟩
    -- what comes after the test has another text
    by_cases hfund : pindex.nHeight > 25 ∧
      ¬ paysFund P (getProofOfStakeReward nCoinAge t.nFees) tx.vout
    · rw [rejectIf, if_pos hfund] at heq
      exact absurd (Except.error.inj heq) (by decide)
    · rw [rejectIf, if_neg hfund] at heq
      cases heq

/-- **The test is exact if and only if** no product wraps and the two sides have the same sign, a
negative bound (the fees have wrapped) being one that the coinstake keeps. -/
theorem decidesExactly_iff
    (h : StakeTested P w V block pindex fJustCheck t tx vout nCoinAge) :
    DecidesExactly P w V pindexBest block pindex fJustCheck nCoinAge t.nFees
        (totalValue tx.vout - totalValue vout) ↔
      nCoinAge * getCoinYearReward * 33 < 2 ^ 64 ∧
        (totalValue vout ≤ totalValue tx.vout ∧ 0 ≤ stakeReward nCoinAge t.nFees ∨
          totalValue tx.vout - totalValue vout ≤ stakeReward nCoinAge t.nFees ∧
            stakeReward nCoinAge t.nFees < 0) := by
  obtain ⟨⟨hlo, hhi⟩, ⟨hinlo, hinhi⟩, ⟨houtlo, houthi⟩, -⟩ := h.nStakeReward_eq
  have hmax : MAX_MONEY < 2 ^ 62 := by decide
  have hyear : 0 < getCoinYearReward := by decide
  have hverdict : connectBlockCheck P w V pindexBest block pindex fJustCheck = .error paysTooMuch ↔
      getProofOfStakeReward nCoinAge t.nFees < uint64 (totalValue tx.vout - totalValue vout) :=
    h.eq_paysTooMuch_iff
  have hage : 0 ≤ (nCoinAge : ℤ) * getCoinYearReward := mul_nonneg nCoinAge.cast_nonneg hyear.le
  -- without wrapping the comparison is one of two integers in 64 bits
  have hexact : FitsReward nCoinAge →
      ((getProofOfStakeReward nCoinAge t.nFees < uint64 (totalValue tx.vout - totalValue vout) ↔
        stakeReward nCoinAge t.nFees < totalValue tx.vout - totalValue vout) ↔
      (0 ≤ totalValue tx.vout - totalValue vout ↔ 0 ≤ stakeReward nCoinAge t.nFees)) := by
    intro hfits
    rw [getProofOfStakeReward_eq hfits]
    have hbound : 0 ≤ stakeReward nCoinAge 0 ∧ stakeReward nCoinAge 0 < 2 ^ 62 := by
      obtain ⟨-, hlt⟩ := hfits
      unfold stakeReward
      omega
    refine uint64_lt_uint64_iff ⟨by omega, by omega⟩ ?_
    unfold stakeReward at hbound ⊢
    omega
  constructor
  · rintro ⟨hfits, hdecides, hloss⟩
    have hsign := (hexact hfits).1 (hverdict.symm.trans hdecides)
    refine ⟨hfits.2, ?_⟩
    by_cases hpaid : 0 ≤ totalValue tx.vout - totalValue vout
    · exact .inl ⟨by omega, hsign.1 hpaid⟩
    · have hkept := mt hdecides.2 (hloss (by omega))
      exact .inr ⟨by omega, by omega⟩
  · rintro ⟨hfit, hcases⟩
    have hfits : FitsReward nCoinAge := ⟨by omega, hfit⟩
    have hdecides := hverdict.trans ((hexact hfits).2 (by omega))
    refine ⟨hfits, hdecides, fun hpaid heq ↦ ?_⟩
    have hmore := hdecides.1 heq
    omega

end

namespace Sample

/-- A transaction that pays 100 coins. -/
def funds : CTransaction where
  nVersion := 1
  nTime := 120
  vin := [⟨⟨5, 0⟩, [], uintMax⟩]
  vout := [⟨100 * COIN, [0, 0]⟩]
  nLockTime := 0

/-- A coinstake that spends them ten days later. -/
def staker (nValue : ℤ) : CTransaction where
  nVersion := 1
  nTime := 900000
  vin := [⟨⟨120001, 0⟩, [], uintMax⟩]
  vout := [⟨0, []⟩, ⟨nValue, [0, 0]⟩]
  nLockTime := 0

/-- The empty coinbase of its block. -/
def stakeBase : CTransaction := { coinbase 7500 0 1 with vout := [⟨0, []⟩] }

def stakerBlock (nValue : ℤ) : CBlock where
  nVersion := 7
  hashPrevBlock := 0
  hashMerkleRoot := CBlock.buildMerkleTree params
    ⟨⟨0, 0, 0, 0, 0, 0⟩, [stakeBase, staker nValue], []⟩
  nTime := 900000
  nBits := 0
  nNonce := 0
  vtx := [stakeBase, staker nValue]
  vchBlockSig := []

/-- A chain that `funds` is in. -/
def fundsView : TxView where
  txIndex hash := if hash = 120001 then some (CTxIndex.mk' ⟨1, 8, 100⟩ 1) else none
  readTx pos := if pos = ⟨1, 8, 100⟩ then some funds else none
  readHeader _ _ := some genesis.toCBlockHeader
  lookup _ := none
  nBestHeight := 0

def stakeIndex : CBlockIndex := indexOf .init genesis

def stakeTotals (nValue : ℤ) : BlockTotals :=
  match connectTxs params fundsView stakeIndex false
    (.init (firstTxPos (stakerBlock nValue) stakeIndex false)) (stakerBlock nValue).vtx with
  | .ok t => t
  | .error _ => .init 0

theorem isCoinStake_staker (nValue : ℤ) : (staker nValue).isCoinStake := by
  refine ⟨Nat.one_pos, ⟨_, rfl, ?_⟩, le_rfl, _, rfl, rfl, rfl⟩
  rintro ⟨h, -⟩
  exact absurd (show (120001 : UInt256) = 0 from h) (by decide)

theorem connectTxs_stakeTotals {nValue : ℤ}
    (h : (connectTxs params fundsView stakeIndex false
      (.init (firstTxPos (stakerBlock nValue) stakeIndex false)) (stakerBlock nValue).vtx).isOk) :
    connectTxs params fundsView stakeIndex false
      (.init (firstTxPos (stakerBlock nValue) stakeIndex false)) (stakerBlock nValue).vtx =
        .ok (stakeTotals nValue) := by
  unfold stakeTotals
  generalize connectTxs params fundsView stakeIndex false
    (.init (firstTxPos (stakerBlock nValue) stakeIndex false)) (stakerBlock nValue).vtx = x at h ⊢
  cases x with
  | error _ => cases h
  | ok t => rfl

theorem stakeTested (nValue : ℤ)
    (hcheck : checkBlock params world (stakerBlock nValue) true true false = .ok ())
    (hconnect : (connectTxs params fundsView stakeIndex false
      (.init (firstTxPos (stakerBlock nValue) stakeIndex false)) (stakerBlock nValue).vtx).isOk)
    (hage : getCoinAge params fundsView stakeIndex.pprev (staker nValue) = some 1041) :
    StakeTested params world fundsView (stakerBlock nValue) stakeIndex false (stakeTotals nValue)
      (staker nValue) funds.vout 1041 := by
  have htotals := connectTxs_stakeTotals hconnect
  obtain ⟨t₁, ht₁, -⟩ := bind_eq_ok.1 htotals
  have hstake : (stakerBlock nValue).isProofOfStake :=
    ⟨by simp [stakerBlock], staker nValue, rfl, isCoinStake_staker nValue⟩
  refine ⟨hcheck, htotals, hstake, rfl, ⟨_, rfl, t₁, ht₁, .cons ?_ .nil⟩, hage⟩
  simp only [connectTx, bind_eq_ok] at ht₁
  obtain ⟨nSigOps, -, t₂, heither, ht₁⟩ := ht₁
  cases ht₁
  rw [connectEither, if_pos (by decide)] at heither
  obtain ⟨rfl, -⟩ := connectCoinBase_eq_ok heither
  dsimp only
  rw [queued_insert, TxView.outputIn, Function.update_of_ne (by decide +kernel)]
  rw [show (BlockTotals.init _).mapQueuedChanges = ∅ from rfl, queued_empty]
  decide +kernel

end Sample

theorem decidesExactly_iff_sample :
    DecidesExactly Sample.params Sample.world Sample.fundsView none
        (Sample.stakerBlock (100 * COIN + 10 ^ 7)) Sample.stakeIndex false 1041
        (Sample.stakeTotals (100 * COIN + 10 ^ 7)).nFees
        (totalValue (Sample.staker (100 * COIN + 10 ^ 7)).vout - totalValue Sample.funds.vout) ↔
      ((1041 : ℕ) : ℤ) * getCoinYearReward * 33 < 2 ^ 64 ∧
        (totalValue Sample.funds.vout ≤ totalValue (Sample.staker (100 * COIN + 10 ^ 7)).vout ∧
            0 ≤ stakeReward 1041 (Sample.stakeTotals (100 * COIN + 10 ^ 7)).nFees ∨
          totalValue (Sample.staker (100 * COIN + 10 ^ 7)).vout - totalValue Sample.funds.vout ≤
              stakeReward 1041 (Sample.stakeTotals (100 * COIN + 10 ^ 7)).nFees ∧
            stakeReward 1041 (Sample.stakeTotals (100 * COIN + 10 ^ 7)).nFees < 0) :=
  decidesExactly_iff
    (Sample.stakeTested _ (by decide +kernel) (by decide +kernel) (by decide +kernel))

/-- A coinstake that burns a coin of its own is refused for paying too much. -/
theorem not_decidesExactly_of_loss :
    ¬ ∀ (P : Params) (w : World) (V : TxView) (pindexBest : Option CBlockIndex) (block : CBlock)
      (pindex : CBlockIndex) (fJustCheck : Bool) (t : BlockTotals) (tx : CTransaction)
      (vout : List CTxOut) (nCoinAge : ℕ),
      StakeTested P w V block pindex fJustCheck t tx vout nCoinAge →
        DecidesExactly P w V pindexBest block pindex fJustCheck nCoinAge t.nFees
          (totalValue tx.vout - totalValue vout) := by
  intro h
  have htested := Sample.stakeTested (99 * COIN) (by decide +kernel) (by decide +kernel)
    (by decide +kernel)
  refine (h _ _ _ none _ _ _ _ _ _ _ htested).loss (by decide) (htested.eq_paysTooMuch_iff.2 ?_)
  decide +kernel

end Bws
