import Mathlib.Data.Int.ModEq
import Bws.Lib.Worth
import Bws.Spent

/-!
# The money supply

In a chain that `ConnectBlock` has built from the genesis block, the `nMoneySupply` of the last entry
is the worth of the unspent outputs less what has been burned, modulo 2 ^ 64, and the `nMint` of an
entry is what its coinbase and coinstakes make, as a 64 bit integer (`Minted.supply_accounted`).

No sum that `ConnectBlock` forms over a block is bounded.  A block without a proof of stake may hold
any number of coinstakes after its second transaction, and nothing bounds what they make, so that
`nMint` can wrap around.
-/

namespace Bws

open NodeM NodeState

/-! ## Arithmetic of 64 bits -/

theorem int64_modEq (x : ℤ) : int64 x ≡ x [ZMOD 2 ^ 64] := by
  rw [int64, Int.ModEq, Int.bmod_eq_emod]
  split <;> omega

theorem uint64_modEq (x : ℤ) : (uint64 x : ℤ) ≡ x [ZMOD 2 ^ 64] := by
  rw [uint64, Int.ModEq]
  omega

theorem int64_congr {x y : ℤ} (h : x ≡ y [ZMOD 2 ^ 64]) : int64 x = int64 y := by
  have hx : x % ((2 ^ 64 : ℕ) : ℤ) = y % ((2 ^ 64 : ℕ) : ℤ) := h
  rw [int64, int64, ← Int.emod_bmod x, ← Int.emod_bmod y, hx]

theorem int64_eq_self_iff {x : ℤ} : int64 x = x ↔ InInt64 x := by
  refine ⟨fun h ↦ ?_, int64_eq⟩
  rw [← h, int64, InInt64, Int.bmod_eq_emod]
  split <;> omega

/-! ## Values of outputs -/

section

variable (P : Params) (files : BlockFiles)

/-- The output that an outpoint names in the index `idx`. -/
def BlockFiles.outputAt (idx : Ledger.Index UInt256 CDiskTxPos) (o : UInt256 × ℕ) :
    Option CTxOut :=
  (Ledger.pos? idx o.1).bind fun pos ↦ (files.txAt pos.nFile pos.nTxPos).bind fun tx ↦ tx.vout[o.2]?

/-- What it is worth. -/
def BlockFiles.valueAt (idx : Ledger.Index UInt256 CDiskTxPos) (o : UInt256 × ℕ) : ℤ :=
  ((files.outputAt idx o).map CTxOut.nValue).getD 0

/-- What the inputs of a transaction are worth. -/
def BlockFiles.valueIn (idx : Ledger.Index UInt256 CDiskTxPos) (tx : CTransaction) : ℤ :=
  ((tx.spends.map COutPoint.output).map (files.valueAt idx)).sum

/-- What a coinbase or a coinstake pays out beyond its inputs. -/
def gain (idx : Ledger.Index UInt256 CDiskTxPos) (tx : CTransaction) : ℤ :=
  if tx.isCoinBase ∨ tx.isCoinStake then totalValue tx.vout - files.valueIn idx tx else 0

/-- What the coinbases and coinstakes of a list of transactions pay out beyond their inputs, when
the transactions are connected one after another. -/
def totalGain (idx : Ledger.Index UInt256 CDiskTxPos) : List (CTransaction × CDiskTxPos) → ℤ
  | [] => 0
  | a :: L => gain files idx a.1 +
      totalGain ((Ledger.connect idx (ledgerTx P a.1) a.2).getD idx) L

/-- What `ConnectInputs` adds to `nBurnCoins`. -/
def burned (tx : CTransaction) : ℤ :=
  if tx.isCoinBase ∨ tx.isCoinStake then 0
  else totalValue (tx.vout.filter fun txout ↦ P.scriptByte1 txout.scriptPubKey = OP_BURN)

end

section

variable {P : Params} {files : BlockFiles} {w : World}

theorem burnCoins_modEq (nBurnCoins : ℕ) (vout : List CTxOut) :
    (burnCoins P nBurnCoins vout : ℤ) ≡ nBurnCoins +
      totalValue (vout.filter fun txout ↦ P.scriptByte1 txout.scriptPubKey = OP_BURN)
        [ZMOD 2 ^ 64] := by
  induction vout generalizing nBurnCoins with
  | nil =>
    rw [burnCoins, List.filter_nil, totalValue_nil, add_zero]
  | cons txout vout ih =>
    rw [burnCoins]
    by_cases h : P.scriptByte1 txout.scriptPubKey = OP_BURN
    · rw [if_pos h, List.filter_cons_of_pos (by simpa using h), totalValue_cons, ← add_assoc]
      exact (ih _).trans ((uint64_modEq _).add_right _)
    · rw [if_neg h, List.filter_cons_of_neg (by simpa using h)]
      exact ih _

/-- The outputs of a transaction, one by one. -/
theorem sum_range_vout (vout : List CTxOut) :
    ∑ n ∈ Finset.range vout.length, ((vout[n]?).map CTxOut.nValue).getD 0 = totalValue vout := by
  induction vout with
  | nil => rfl
  | cons txout vout ih =>
    rw [List.length_cons, Finset.sum_range_succ', totalValue_cons, add_comm]
    simpa using ih

/-- What the loop reads for an outpoint is what is on disk. -/
theorem outputAt_of_outputIn {V : TxView} {idx : Ledger.Index UInt256 CDiskTxPos}
    (hread : V.readTx = readTxAt w files)
    (hdisk : ∀ hash pos, Ledger.pos? idx hash = some pos → pos ≠ .inMemory) {o : COutPoint}
    {txout : CTxOut} (h : V.outputIn idx o = some txout) :
    files.outputAt idx o.output = some txout := by
  obtain ⟨txindex, hindex, h⟩ := Option.bind_eq_some_iff.mp h
  obtain ⟨txPrev, hprev, h⟩ := Option.bind_eq_some_iff.mp h
  have hpos : Ledger.pos? idx o.hash = some txindex.pos := by
    rw [Ledger.pos?, hindex]
    rfl
  rw [TxView.prevTx, if_neg (hdisk _ _ hpos), hread, readTxAt] at hprev
  split at hprev
  · rw [BlockFiles.outputAt, show (o.output).1 = o.hash from rfl, hpos, Option.bind_some, hprev,
      Option.bind_some]
    exact h
  · cases hprev

theorem valueIn_of_spends {V : TxView} {idx : Ledger.Index UInt256 CDiskTxPos}
    (hread : V.readTx = readTxAt w files)
    (hdisk : ∀ hash pos, Ledger.pos? idx hash = some pos → pos ≠ .inMemory) {tx : CTransaction}
    (hcb : ¬ tx.isCoinBase) {vout : List CTxOut} (h : SpendsOutputs V idx tx.vin vout) :
    files.valueIn idx tx = totalValue vout := by
  have hall : ∀ {vin : List CTxIn}, SpendsOutputs V idx vin vout →
      (((vin.map CTxIn.prevout).map COutPoint.output).map (files.valueAt idx)).sum =
        totalValue vout := by
    clear h
    intro vin h
    induction h with
    | nil => rfl
    | cons htxout _ ih =>
      rw [List.map_cons, List.map_cons, List.map_cons, List.sum_cons, ih, totalValue_cons,
        BlockFiles.valueAt, outputAt_of_outputIn hread hdisk htxout]
      rfl
  rw [BlockFiles.valueIn, spends_of_not_isCoinBase hcb]
  exact hall h

/-! ## One transaction -/

variable {V : TxView} {pindex : CBlockIndex} {t t' : BlockTotals} {tx : CTransaction}

theorem nBurnCoins_of_connectSpending (hcb : ¬ tx.isCoinBase)
    (h : connectSpending P V pindex t tx = .ok t') :
    t'.nBurnCoins = if tx.isCoinStake then t.nBurnCoins else burnCoins P t.nBurnCoins tx.vout := by
  simp only [connectSpending, bind_eq_ok, dropScore_eq_ok, rejectIf_eq_ok] at h
  obtain ⟨inputs, -, nP2SH, -, -, -, nTxValueIn, -, nTxValueOut, -, ⟨map, nBurn⟩, hconn, h⟩ := h
  cases h
  rw [connectInputs, if_neg hcb] at hconn
  simp only [bind_eq_ok] at hconn
  obtain ⟨nValueIn, -, map', -, n, hfee, hconn⟩ := hconn
  cases hconn
  rw [checkFee] at hfee
  by_cases hcs : tx.isCoinStake
  · rw [if_pos hcs] at hfee ⊢
    exact (Except.ok.inj hfee).symm
  · rw [if_neg hcs] at hfee ⊢
    simp only [bind_eq_ok, rejectIf_eq_ok] at hfee
    obtain ⟨nValueOut, -, -, -, -, -, -, -, -, -, hfee⟩ := hfee
    exact (Except.ok.inj hfee).symm

/-- What the money accumulators have come to. -/
def BlockTotals.paid (t : BlockTotals) : ℤ := t.nValueOut - t.nValueIn

/-- What the accumulators and the worth of the unspent outputs have become when the loop of
`ConnectBlock` has connected the transactions `L`. -/
structure Tracked (P : Params) (files : BlockFiles) (idx idx' : Ledger.Index UInt256 CDiskTxPos)
    (t t' : BlockTotals) (L : List (CTransaction × CDiskTxPos)) : Prop where
  finite : (Ledger.unspent idx').Finite
  supply : Ledger.worth (files.valueAt idx') idx' - Ledger.worth (files.valueAt idx) idx ≡
    t'.paid - t.paid [ZMOD 2 ^ 64]
  mint : t'.paid + t'.nFees ≡ t.paid + t.nFees + totalGain P files idx L [ZMOD 2 ^ 64]
  burn : (t'.nBurnCoins : ℤ) ≡ t.nBurnCoins + (L.map fun a ↦ burned P a.1).sum [ZMOD 2 ^ 64]

/-- What one round of the loop does to the accumulators. -/
theorem totals_of_connectTx {idx : Ledger.Index UInt256 CDiskTxPos}
    (hidx : idx = queued V t.mapQueuedChanges) (hread : V.readTx = readTxAt w files)
    (hdisk : ∀ hash pos, Ledger.pos? idx hash = some pos → pos ≠ .inMemory)
    (h : connectTx P V pindex false t tx = .ok t') :
    t'.paid ≡ t.paid + (totalValue tx.vout - files.valueIn idx tx) [ZMOD 2 ^ 64] ∧
      t'.paid + t'.nFees ≡ t.paid + t.nFees + gain files idx tx [ZMOD 2 ^ 64] ∧
      (t'.nBurnCoins : ℤ) ≡ t.nBurnCoins + burned P tx [ZMOD 2 ^ 64] := by
  obtain ⟨nSigOps, t₁, -, heither, rfl⟩ := connectTx_eq_ok h
  unfold BlockTotals.paid gain burned
  dsimp only
  rw [connectEither] at heither
  by_cases hcb : tx.isCoinBase
  · rw [if_pos hcb] at heither
    obtain ⟨rfl, -⟩ := connectCoinBase_eq_ok heither
    have hin : files.valueIn idx tx = 0 := by
      rw [BlockFiles.valueIn, CTransaction.spends, if_pos hcb]
      rfl
    have hout := int64_modEq (t.nValueOut + totalValue tx.vout)
    rw [if_pos (Or.inl hcb), if_pos (Or.inl hcb), hin, sub_zero, add_zero]
    dsimp only
    refine ⟨?_, ?_, rfl⟩
    · convert hout.sub_right t.nValueIn using 1
      ring
    · convert (hout.sub_right t.nValueIn).add_right t.nFees using 1
      ring
  · rw [if_neg hcb] at heither
    obtain ⟨vout, hconn⟩ := connected_of_connectSpending hcb heither
    have hburn := nBurnCoins_of_connectSpending hcb heither
    have hin : files.valueIn idx tx = totalValue vout := by
      subst hidx
      exact valueIn_of_spends hread hdisk hcb hconn.spends
    have hvin : t₁.nValueIn = int64 (t.nValueIn + totalValue vout) :=
      congrArg BlockTotals.nValueIn hconn.totals
    have hvout : t₁.nValueOut = int64 (t.nValueOut + totalValue tx.vout) :=
      congrArg BlockTotals.nValueOut hconn.totals
    have hfees : t₁.nFees = if tx.isCoinStake then t.nFees
        else int64 (t.nFees + int64 (totalValue vout - totalValue tx.vout)) :=
      congrArg BlockTotals.nFees hconn.totals
    have hpaid : t₁.nValueOut - t₁.nValueIn ≡
        t.nValueOut - t.nValueIn + (totalValue tx.vout - totalValue vout) [ZMOD 2 ^ 64] := by
      rw [hvin, hvout]
      convert (int64_modEq (t.nValueOut + totalValue tx.vout)).sub
        (int64_modEq (t.nValueIn + totalValue vout)) using 1
      ring
    rw [hin]
    refine ⟨hpaid, ?_, ?_⟩
    · by_cases hcs : tx.isCoinStake
      · rw [if_pos hcs] at hfees
        rw [if_pos (Or.inr hcs), hfees]
        convert hpaid.add_right t.nFees using 1
        ring
      · rw [if_neg hcs] at hfees
        have hfee : t₁.nFees ≡ t.nFees + (totalValue vout - totalValue tx.vout) [ZMOD 2 ^ 64] := by
          rw [hfees]
          exact (int64_modEq _).trans ((int64_modEq _).add_left _)
        rw [if_neg (not_or.mpr ⟨hcb, hcs⟩)]
        convert hpaid.add hfee using 1
        ring
    · rw [hburn]
      by_cases hcs : tx.isCoinStake
      · rw [if_pos hcs, if_pos (Or.inr hcs), add_zero]
      · rw [if_neg hcs, if_neg (not_or.mpr ⟨hcb, hcs⟩)]
        exact burnCoins_modEq t.nBurnCoins tx.vout

/-- One round of the loop trades the outputs that the transaction spends for its own. -/
theorem worth_of_connectTx {idx idx' : Ledger.Index UInt256 CDiskTxPos} {p : CDiskTxPos}
    (hconn : Ledger.connect idx (ledgerTx P tx) p = some idx') (hp : p.isNull = false)
    (htx : files.txAt p.nFile p.nTxPos = some tx)
    (hname : ∀ o ∈ Ledger.unspent idx, o.1 ≠ P.getHash tx) (hfin : (Ledger.unspent idx).Finite) :
    Ledger.worth (files.valueAt idx') idx' + files.valueIn idx tx =
      Ledger.worth (files.valueAt idx) idx + totalValue tx.vout := by
  have hother : ∀ o ∈ Ledger.unspent idx, files.valueAt idx' o = files.valueAt idx o := by
    intro o ho
    rw [BlockFiles.valueAt, BlockFiles.valueAt, BlockFiles.outputAt, BlockFiles.outputAt,
      Ledger.pos?_connect hconn, if_neg (show o.1 ≠ (ledgerTx P tx).id from hname o ho)]
  have hown : ∀ n, files.valueAt idx' ((ledgerTx P tx).id, n) =
      ((tx.vout[n]?).map CTxOut.nValue).getD 0 := by
    intro n
    rw [BlockFiles.valueAt, BlockFiles.outputAt, Ledger.pos?_connect hconn, if_pos rfl,
      Option.bind_some, htx, Option.bind_some]
  rw [← sum_range_vout, ← Finset.sum_congr rfl fun n _ ↦ hown n]
  exact Ledger.worth_connect hp hconn hname hfin fun o ho _ ↦ hother o ho

/-- No unspent output has the hash of a transaction that `ConnectBlock` lets in, when none of the
queued changes made one. -/
theorem name_of_connectTx {idx : Ledger.Index UInt256 CDiskTxPos}
    (hold : ∀ o ∈ Ledger.unspent idx, o.1 = P.getHash tx → o ∈ Ledger.unspent V.txIndex)
    (h : connectTx P V pindex false t tx = .ok t') :
    ∀ o ∈ Ledger.unspent idx, o.1 ≠ P.getHash tx := by
  intro o ho hid
  obtain ⟨nSigOps, t₁, hover, -, -⟩ := connectTx_eq_ok h
  simp only [checkOverwrite, bind_eq_ok, rejectIf_eq_ok] at hover
  obtain ⟨-, hnone, -⟩ := hover
  obtain ⟨pos, hslot, hnull⟩ := hold o ho hid
  obtain ⟨txindex, hindex, hget⟩ := Option.bind_eq_some_iff.mp hslot
  exact hnone ⟨txindex, hid ▸ hindex, pos, List.mem_of_getElem? hget, hnull⟩

/-! ## The loop -/

/-- **The loop of `ConnectBlock` keeps account of what it does.** -/
theorem tracked_of_connectTxs {vtx : List CTransaction} (hread : V.readTx = readTxAt w files) :
    ∀ {t t' : BlockTotals} {idx : Ledger.Index UInt256 CDiskTxPos},
      idx = queued V t.mapQueuedChanges →
      (∀ hash pos, Ledger.pos? idx hash = some pos → pos ≠ .inMemory) →
      (∀ a ∈ placed pindex t.nTxPos vtx, a.2.isNull = false ∧ a.2 ≠ .inMemory ∧
        files.txAt a.2.nFile a.2.nTxPos = some a.1) →
      (vtx.map P.getHash).Nodup →
      (∀ tx ∈ vtx, ∀ o ∈ Ledger.unspent idx, o.1 = P.getHash tx → o ∈ Ledger.unspent V.txIndex) →
      (Ledger.unspent idx).Finite → connectTxs P V pindex false t vtx = .ok t' →
        Tracked P files idx (queued V t'.mapQueuedChanges) t t' (placed pindex t.nTxPos vtx) := by
  induction vtx with
  | nil =>
    rintro t _ idx rfl - - - - hfin ⟨⟩
    exact ⟨hfin, by rw [sub_self, sub_self], by rw [show placed pindex t.nTxPos [] = [] from rfl,
      totalGain, add_zero], by rw [show placed pindex t.nTxPos [] = [] from rfl, List.map_nil,
      List.sum_nil, add_zero]⟩
  | cons tx vtx ih =>
    intro t t' idx hidx hmem hdisk hnodup hold hfin h
    obtain ⟨t₁, h₁, h₂⟩ := connectTxs_cons_eq_ok.mp h
    obtain ⟨hconn, hpos⟩ := connect_of_connectTx h₁
    rw [← hidx] at hconn
    obtain ⟨hnew, hnodup⟩ := List.nodup_cons.mp hnodup
    have hplaced : placed pindex t.nTxPos (tx :: vtx) =
        (tx, t.posThisTx pindex) :: placed pindex t₁.nTxPos vtx := by
      rw [placed, placed, txsFrom, List.map_cons, hpos]
      rfl
    rw [hplaced] at hdisk
    obtain ⟨hnull, hmemory, htx⟩ := hdisk _ List.mem_cons_self
    have hname := name_of_connectTx (hold tx List.mem_cons_self) h₁
    have hworth := worth_of_connectTx hconn hnull htx hname hfin
    obtain ⟨hpaid, hmint, hburn⟩ := totals_of_connectTx hidx hread hmem h₁
    have hunspent := Ledger.unspent_connect hnull hconn hname
    have hmem₁ : ∀ hash pos, Ledger.pos? (queued V t₁.mapQueuedChanges) hash = some pos →
        pos ≠ .inMemory := by
      intro hash pos hp
      rw [Ledger.pos?_connect hconn] at hp
      split at hp
      · cases hp
        exact hmemory
      · exact hmem hash pos hp
    have hold₁ : ∀ tx' ∈ vtx, ∀ o ∈ Ledger.unspent (queued V t₁.mapQueuedChanges),
        o.1 = P.getHash tx' → o ∈ Ledger.unspent V.txIndex := by
      intro tx' htx' o ho hid
      rw [hunspent] at ho
      rcases ho with ⟨ho, -⟩ | ⟨hid', -⟩
      · exact hold tx' (List.mem_cons_of_mem tx htx') o ho hid
      · have heq : P.getHash tx' = P.getHash tx := hid.symm.trans hid'
        exact absurd (heq ▸ List.mem_map_of_mem htx') hnew
    have hrest := ih rfl hmem₁ (fun a ha ↦ hdisk a (List.mem_cons_of_mem _ ha)) hnodup hold₁
      (Ledger.finite_unspent_connect hnull hconn hname hfin) h₂
    rw [hplaced]
    refine ⟨hrest.finite, ?_, ?_, ?_⟩
    · have hstep : Ledger.worth (files.valueAt (queued V t₁.mapQueuedChanges))
          (queued V t₁.mapQueuedChanges) - Ledger.worth (files.valueAt idx) idx ≡
            t₁.paid - t.paid [ZMOD 2 ^ 64] := by
        have heq : Ledger.worth (files.valueAt (queued V t₁.mapQueuedChanges))
            (queued V t₁.mapQueuedChanges) - Ledger.worth (files.valueAt idx) idx =
              t.paid + (totalValue tx.vout - files.valueIn idx tx) - t.paid := by
          linarith
        rw [heq]
        exact (hpaid.sub_right t.paid).symm
      convert hrest.supply.add hstep using 1 <;> ring
    · rw [totalGain, hconn, Option.getD_some]
      refine hrest.mint.trans ?_
      convert hmint.add_right (totalGain P files (queued V t₁.mapQueuedChanges)
        (placed pindex t₁.nTxPos vtx)) using 1
      ring
    · rw [List.map_cons, List.sum_cons]
      refine hrest.burn.trans ?_
      convert hburn.add_right ((placed pindex t₁.nTxPos vtx).map fun a ↦ burned P a.1).sum using 1
      ring

/-! ## A block -/

variable {s s' : NodeState} {g b n : CBlockIndex} {block : CBlock}

/-- What `ConnectBlock` records of a block. -/
theorem money_of_connectBlock (h : connectBlock w P block n false s = .ok () s') :
    ∃ t, connectBlockCheck P w (s.txView w s.txdb) s.pindexBest block n false = .ok t ∧
      s'.nMint = Function.update s.nMint n (int64 (int64 t.paid + t.nFees)) ∧
      s'.nMoneySupply = Function.update s.nMoneySupply n
        (uint64 ((n.pprev.map s.nMoneySupply).getD 0 + t.nValueOut - t.nValueIn -
          t.nBurnCoins)) := by
  obtain ⟨t, s₁, hcheck, h₁, h₂⟩ := connectBlock_eq_ok.mp h
  obtain ⟨⟨⟩, s₀, htrack, hwrite⟩ := Exec.bind_eq_ok.mp h₁
  cases htrack
  have hindex := (keeps_writeBlockIndex (N := fun _ ↦ False) P w n id
    "Connect() : WriteBlockIndex for pindex failed").ok hwrite
  have hconnected : Exec.Keeps (InBatch fun _ ↦ False) (writeConnected w P block n t) :=
    Exec.Keeps.bind (keeps_forEach fun mi _ ↦ keeps_writeDb w _ _ _) fun _ ↦
      Exec.Keeps.bind (keeps_writeHashNext P w _ _ _) fun _ ↦
      Exec.Keeps.bind (keeps_emit _) fun _ ↦ keeps_forEach fun _ _ ↦ keeps_emit _
  have hall := hindex.trans (hconnected.ok h₂)
  refine ⟨t, hcheck, ?_, ?_⟩
  · funext m
    exact (hall.money m id).1
  · funext m
    exact (hall.money m id).2

/-- **`ConnectBlock` keeps account of a block.** -/
theorem tracked_of_connectBlock (ho : s.Open)
    (hdisk : s.files.blockAt n.val.nFile n.val.nBlockPos = some block)
    (hmem : ∀ hash pos, Ledger.pos? s.txdb.txIndex hash = some pos → pos ≠ .inMemory)
    (hfin : (Ledger.unspent s.txdb.txIndex).Finite)
    (h : connectBlock w P block n false s = .ok () s') :
    ∃ t, Tracked P s.files s.txdb.txIndex s'.txdb.txIndex (.init (firstTxPos block n false)) t
        (blockTxs block n) ∧
      s'.nMint = Function.update s.nMint n (int64 (int64 t.paid + t.nFees)) ∧
      s'.nMoneySupply = Function.update s.nMoneySupply n
        (uint64 ((n.pprev.map s.nMoneySupply).getD 0 + t.nValueOut - t.nValueIn -
          t.nBurnCoins)) := by
  obtain ⟨t, hcheck, hmoney⟩ := money_of_connectBlock h
  refine ⟨t, ?_, hmoney⟩
  simp only [connectBlockCheck, bind_eq_ok] at hcheck
  obtain ⟨-, -, t', htxs, -, -, -, -, hcheck⟩ := hcheck
  cases hcheck
  have hindex : queued (s.txView w s.txdb) ∅ = s.txdb.txIndex := by
    rw [queued_empty, txIndex_txView]
  have hfinal : queued (s.txView w s.txdb) t.mapQueuedChanges = s'.txdb.txIndex := by
    have hloop := connectAll_of_connectTxs htxs
    rw [show (BlockTotals.init (firstTxPos block n false)).mapQueuedChanges = ∅ from rfl,
      hindex] at hloop
    exact Option.some.inj (hloop.symm.trans (connectAll_of_connectBlock ho h).2)
  have hplaced : ∀ a ∈ placed n (BlockTotals.init (firstTxPos block n false)).nTxPos block.vtx,
      a.2.isNull = false ∧ a.2 ≠ .inMemory ∧ s.files.txAt a.2.nFile a.2.nTxPos = some a.1 :=
    fun a ha ↦ txAt_of_mem_blockTxs hdisk ha
  rw [← hfinal]
  exact tracked_of_connectTxs rfl hindex.symm hmem hplaced (checkedBlock_of_connectBlock h).nodup
    (fun tx _ o ho _ ↦ by rwa [txIndex_txView]) hfin htxs

/-! ## A chain -/

/-- A chain above `g` that `ConnectBlock` has built, its last entry, and the node after that; `G` is
what the coinbases and coinstakes of each block paid out beyond their inputs.  Between two blocks
anything may happen that leaves the transaction index, the blocks on disk and what was recorded of
the chain alone. -/
inductive Minted (P : Params) (g : CBlockIndex) :
    List (CBlock × CBlockIndex) → (CBlockIndex → ℤ) → CBlockIndex → NodeState → Prop where
  | start {s : NodeState} (empty : s.txdb.txIndex = fun _ ↦ none)
      (money : s.nMoneySupply g = 0) : Minted P g [] (fun _ ↦ 0) g s
  | between {L : List (CBlock × CBlockIndex)} {G : CBlockIndex → ℤ} {b : CBlockIndex}
      {s s' : NodeState} (h : Minted P g L G b s) (same : s'.txdb.txIndex = s.txdb.txIndex)
      (disk : ∀ nFile nBlockPos block, s.files.blockAt nFile nBlockPos = some block →
        s'.files.blockAt nFile nBlockPos = some block)
      (supply : s'.nMoneySupply b = s.nMoneySupply b)
      (mint : ∀ c ∈ L, s'.nMint c.2 = s.nMint c.2) : Minted P g L G b s'
  | connect {L : List (CBlock × CBlockIndex)} {G : CBlockIndex → ℤ} {b n : CBlockIndex}
      {s s' : NodeState} (h : Minted P g L G b s) {w : World} {block : CBlock}
      (parent : n.pprev = some b) (batch : s.Open)
      (disk : s.files.blockAt n.val.nFile n.val.nBlockPos = some block)
      (connected : connectBlock w P block n false s = .ok () s') :
      Minted P g (L ++ [(block, n)])
        (Function.update G n (totalGain P s.files s.txdb.txIndex (blockTxs block n))) n s'

theorem nHeight_of_pprev (h : n.pprev = some b) : n.nHeight = b.nHeight + 1 := by
  rw [Chain.Node.eq_child_of_parent? h]
  rfl

namespace Minted

variable {L : List (CBlock × CBlockIndex)} {G : CBlockIndex → ℤ}

theorem accepted (h : Minted P g L G b s) : Accepted P g L b s := by
  induction h with
  | start empty => exact .start empty
  | between h same disk => rename_i ih; exact ih.between same disk
  | connect h parent batch disk connected ih => exact ih.connect parent batch disk connected

/-- The entries of the chain are no higher than the last. -/
theorem height_le (h : Minted P g L G b s) : ∀ c ∈ L, c.2.nHeight ≤ b.nHeight := by
  induction h with
  | start => exact nofun
  | between h same disk supply mint ih => exact ih
  | @connect L G b n s s' h w block parent batch disk connected ih =>
    intro c hc
    rcases List.mem_append.mp hc with hc | hc
    · exact (ih c hc).trans (nHeight_of_pprev parent ▸ Nat.le_succ _)
    · cases List.mem_singleton.mp hc
      exact le_rfl

/-- A position in the index is that of a transaction of the chain. -/
theorem mem_of_pos? (h : Minted P g L G b s) {hash : UInt256} {pos : CDiskTxPos}
    (hpos : Ledger.pos? s.txdb.txIndex hash = some pos) :
    ∃ a ∈ chainTxs L, a.2 = pos := by
  rcases Ledger.mem_of_pos?_connectAll h.accepted.connectAll hpos with hpos | ⟨tp, htp, -, heq⟩
  · cases hpos
  · obtain ⟨a, ha, rfl⟩ := List.mem_map.mp htp
    exact ⟨a, ha, heq⟩

/-- The outputs of the index have the same values when more blocks are on disk. -/
theorem valueAt_eq (h : Minted P g L G b s) (h' : Minted P g L G b s')
    (same : s'.txdb.txIndex = s.txdb.txIndex) (o : UInt256 × ℕ) :
    s'.files.valueAt s'.txdb.txIndex o = s.files.valueAt s.txdb.txIndex o := by
  unfold BlockFiles.valueAt BlockFiles.outputAt
  rw [same]
  cases hpos : Ledger.pos? s.txdb.txIndex o.1 with
  | none => rfl
  | some pos =>
    obtain ⟨a, ha, rfl⟩ := h.mem_of_pos? hpos
    rw [Option.bind_some, Option.bind_some, (h.accepted.txAt ha).2.2, (h'.accepted.txAt ha).2.2]

/-- What the accumulators of `ConnectBlock` come to, over the whole chain. -/
theorem account (h : Minted P g L G b s) :
    ((Ledger.unspent s.txdb.txIndex).Finite ∧
      (s.nMoneySupply b : ℤ) ≡ Ledger.worth (s.files.valueAt s.txdb.txIndex) s.txdb.txIndex -
        ((chainVtx L).map (burned P)).sum [ZMOD 2 ^ 64]) ∧
      ∀ c ∈ L, s.nMint c.2 = int64 (G c.2) := by
  induction h with
  | start empty money =>
    refine ⟨⟨?_, ?_⟩, nofun⟩
    · rw [empty, Ledger.unspent_nil]
      exact Set.finite_empty
    · rw [money, empty, Ledger.worth, Ledger.unspent_nil, finsum_mem_empty]
      rfl
  | @between L G b s s' h same disk supply mint ih =>
    have h' : Minted P g L G b s' := h.between same disk supply mint
    obtain ⟨⟨hfin, hsupply⟩, hmint⟩ := ih
    refine ⟨⟨same ▸ hfin, ?_⟩, fun c hc ↦ (mint c hc).trans (hmint c hc)⟩
    have hworth : Ledger.worth (s'.files.valueAt s'.txdb.txIndex) s'.txdb.txIndex =
        Ledger.worth (s.files.valueAt s.txdb.txIndex) s.txdb.txIndex :=
      finsum_mem_congr (congrArg Ledger.unspent same) fun o _ ↦ h.valueAt_eq h' same o
    rw [supply, hworth]
    exact hsupply
  | @connect L G b n s s' h w block parent batch disk connected ih =>
    obtain ⟨⟨hfin, hsupply⟩, hmint⟩ := ih
    have hmem : ∀ hash pos, Ledger.pos? s.txdb.txIndex hash = some pos → pos ≠ .inMemory := by
      intro hash pos hpos
      obtain ⟨a, ha, rfl⟩ := h.mem_of_pos? hpos
      exact (h.accepted.txAt ha).2.1
    obtain ⟨t, htracked, hrecordMint, hrecordSupply⟩ :=
      tracked_of_connectBlock batch disk hmem hfin connected
    have hfiles : s'.files = s.files :=
      ((keeps_connectBlock (N := fun _ ↦ True) P w trivial block false).ok connected).files
    have hzero : (BlockTotals.init (firstTxPos block n false)).paid = 0 := rfl
    refine ⟨⟨htracked.finite, ?_⟩, fun c hc ↦ ?_⟩
    · have hrecorded : (s'.nMoneySupply n : ℤ) ≡
          s.nMoneySupply b + t.paid - t.nBurnCoins [ZMOD 2 ^ 64] := by
        rw [hrecordSupply, Function.update_self, parent]
        convert uint64_modEq _ using 1
        unfold BlockTotals.paid
        push_cast [Option.map_some, Option.getD_some]
        ring
      have hburned : ((chainVtx (L ++ [(block, n)])).map (burned P)).sum =
          ((chainVtx L).map (burned P)).sum + ((blockTxs block n).map fun a ↦ burned P a.1).sum := by
        rw [← map_fst_chainTxs, chainTxs_append, List.map_append, List.map_append, List.sum_append,
          map_fst_chainTxs, List.map_map]
        rfl
      have hburn := htracked.burn
      have hpaid := htracked.supply
      rw [hzero, sub_zero] at hpaid
      rw [show ((BlockTotals.init (firstTxPos block n false)).nBurnCoins : ℤ) = 0 from rfl,
        zero_add] at hburn
      rw [hfiles, hburned]
      refine hrecorded.trans ?_
      convert (hsupply.add hpaid.symm).sub hburn using 1
      ring
    · rw [hrecordMint]
      rcases List.mem_append.mp hc with hc | hc
      · -- the entries of the chain are lower than the new one
        have hne : c.2 ≠ n := by
          intro heq
          have hle := h.height_le c hc
          rw [heq, nHeight_of_pprev parent] at hle
          omega
        rw [Function.update_of_ne hne, Function.update_of_ne hne, hmint c hc]
      · cases List.mem_singleton.mp hc
        rw [Function.update_self, Function.update_self]
        have hmint := htracked.mint
        rw [hzero] at hmint
        refine int64_congr (((int64_modEq t.paid).add_right t.nFees).trans (hmint.trans ?_))
        convert Int.ModEq.refl _ using 1
        exact (zero_add _).symm

/-- **The money supply is accounted for**: modulo 2 ^ 64 it is what the unspent outputs are worth,
less what has been burned; and what is recorded as minted by a block is what its coinbase and its
coinstakes make, exactly when that is a 64 bit integer. -/
theorem supply_accounted (h : Minted P g L G b s) :
    ((Ledger.unspent s.txdb.txIndex).Finite ∧
      (s.nMoneySupply b : ℤ) ≡ Ledger.worth (s.files.valueAt s.txdb.txIndex) s.txdb.txIndex -
        ((chainVtx L).map (burned P)).sum [ZMOD 2 ^ 64]) ∧
      ∀ c ∈ L, (s.nMint c.2 = G c.2 ↔ InInt64 (G c.2)) := by
  obtain ⟨hsupply, hmint⟩ := h.account
  exact ⟨hsupply, fun c hc ↦ by rw [hmint c hc, int64_eq_self_iff]⟩

end Minted

/-! ## A transaction with one input -/

/-- An output that the transaction `tx` of the block of `pindex` can spend; `txPrev` at `pos` has
it. -/
structure Spendable (P : Params) (V : TxView) (pindex : CBlockIndex)
    (idx : Ledger.Index UInt256 CDiskTxPos) (tx : CTransaction) (pos : CDiskTxPos)
    (txPrev : CTransaction) (o : COutPoint) (txout : CTxOut) : Prop where
  indexed : Ledger.pos? idx o.hash = some pos
  slot : Ledger.slot? idx o.output = some .null
  disk : pos ≠ .inMemory
  read : V.readTx pos = some txPrev
  vout : txPrev.vout[o.n]? = some txout
  mature : confirmedBelow pos (some pindex) nCoinbaseMaturity = false
  time : txPrev.nTime ≤ tx.nTime
  verify : P.verifySignature txPrev tx 0 connectBlockFlags = true
  plain : ¬ isPayToScriptHash txout.scriptPubKey
  filled : ¬ txout.isEmpty
  range : moneyRange txout.nValue

/-- What fetching the inputs gives when there is one. -/
theorem fetchInputs_one {map : TxIndexMap} {txin : CTxIn} {txindex : CTxIndex}
    {txPrev : CTransaction} {txout : CTxOut} (hcb : ¬ tx.isCoinBase) (hvin : tx.vin = [txin])
    (hq : queued V map txin.prevout.hash = some txindex) (hpos : txindex.pos ≠ .inMemory)
    (hread : V.readTx txindex.pos = some txPrev)
    (hout : txPrev.vout[txin.prevout.n]? = some txout)
    (hslot : txindex.vSpent[txin.prevout.n]? = some .null) :
    fetchInputs V map true false tx =
      .ok (Function.update (fun _ ↦ none) txin.prevout.hash (some (txindex, txPrev))) := by
  obtain ⟨hlt, -⟩ := List.getElem?_eq_some_iff.mp hout
  obtain ⟨hlt', -⟩ := List.getElem?_eq_some_iff.mp hslot
  have hfetch : fetchInput V map true false (fun _ ↦ none) txin.prevout =
      .ok (Function.update (fun _ ↦ none) txin.prevout.hash (some (txindex, txPrev))) := by
    unfold fetchInput
    rw [findTxIndex_eq_queued (Or.inl rfl), hq]
    dsimp only
    rw [if_neg hpos, hread]
  rw [fetchInputs, if_neg hcb, hvin, fetchAll, hfetch]
  simp only [fetchAll, bind, Except.bind]
  rw [checkPrevouts, Function.update_self]
  dsimp only
  rw [rejectIf, if_neg (by omega)]
  rfl

theorem connectInputs_one {m : ConnectMode} {map : TxIndexMap} {txin : CTxIn} {txindex : CTxIndex}
    {txPrev : CTransaction} {txout : CTxOut} {nValueOut : ℤ} {n : ℕ}
    (hcb : ¬ tx.isCoinBase) (hvin : tx.vin = [txin])
    (hout : txPrev.vout[txin.prevout.n]? = some txout)
    (hslot : txindex.vSpent[txin.prevout.n]? = some .null)
    (hmature : confirmedBelow txindex.pos (some pindex) nCoinbaseMaturity = false)
    (htime : txPrev.nTime ≤ tx.nTime) (hfilled : ¬ txout.isEmpty)
    (hrange : moneyRange txout.nValue) (hverify : P.verifySignature txPrev tx 0 m.flags = true)
    (hvalue : tx.getValueOut = .ok nValueOut)
    (hfee : tx.isCoinStake ∨ nValueOut ≤ txout.nValue ∧
      getMinFee tx 1 .GMF_BLOCK 0 ≤ txout.nValue - nValueOut) :
    ∃ r, connectInputs P V m (some pindex) tx
      (Function.update (fun _ ↦ none) txin.prevout.hash (some (txindex, txPrev))) map n =
        .ok r := by
  obtain ⟨hlt, -⟩ := List.getElem?_eq_some_iff.mp hslot
  have hmax : MAX_MONEY < 2 ^ 62 := by decide
  obtain ⟨hlo, hhi⟩ := hrange
  have hexact : int64 (0 + txout.nValue) = txout.nValue := by
    rw [zero_add, int64_eq ⟨by omega, by omega⟩]
  have hcheck : checkInputs (some pindex) tx
      (Function.update (fun _ ↦ none) txin.prevout.hash (some (txindex, txPrev))) 0 tx.vin =
        .ok txout.nValue := by
    rw [hvin, checkInputs, checkInput, Function.update_self]
    dsimp only
    rw [hout]
    dsimp only
    rw [hexact, hmature]
    simp [rejectIf, not_le.mpr hlt, hfilled, not_lt.mpr htime, hlo, hhi, moneyRange, bind,
      Except.bind, checkInputs]
  have hspend : ∃ map', spendInputs P V m tx 0
      (Function.update (fun _ ↦ none) txin.prevout.hash (some (txindex, txPrev))) map tx.vin =
        .ok map' := by
    have hsignature : checkSignature P V m.fBlock m.flags txPrev tx 0 = .ok () := by
      unfold checkSignature
      rw [hverify]
      split <;> rfl
    have hnull : CDiskTxPos.null.isNull = true := rfl
    rw [hvin, spendInputs, spendInput, Function.update_self]
    dsimp only
    rw [hslot]
    dsimp only
    rw [hsignature, hnull]
    exact ⟨_, rfl⟩
  have hcheckFee : ∃ n', checkFee P m.fBlock tx txout.nValue n = .ok n' := by
    rw [checkFee]
    by_cases hcs : tx.isCoinStake
    · exact ⟨n, if_pos hcs⟩
    · obtain ⟨hle, hmin⟩ := hfee.resolve_left hcs
      obtain ⟨-, hrangeOut⟩ := totalValue_of_getValueOut hvalue
      have hfee' : int64 (txout.nValue - nValueOut) = txout.nValue - nValueOut :=
        int64_eq ⟨by omega, by obtain ⟨h, -⟩ := hrangeOut; omega⟩
      have hrangeFee : moneyRange (txout.nValue - nValueOut) :=
        ⟨by omega, by obtain ⟨h, -⟩ := hrangeOut; omega⟩
      rw [if_neg hcs, hvalue]
      simp only [bind, Except.bind]
      rw [hfee', rejectIf, if_neg (not_lt.mpr hle), rejectIf, if_neg (not_lt.mpr hrangeFee.1),
        rejectIf, if_neg (not_lt.mpr hmin), rejectIf, if_neg (not_not.mpr hrangeFee)]
      exact ⟨_, rfl⟩
  obtain ⟨map', hspend⟩ := hspend
  obtain ⟨n', hcheckFee⟩ := hcheckFee
  rw [connectInputs, if_neg hcb, hcheck]
  simp only [bind, Except.bind]
  rw [hspend]
  dsimp only
  rw [hcheckFee]
  exact ⟨_, rfl⟩

theorem checkOverwrite_eq_ok {nSigOps : ℕ} (hfresh : V.txIndex (P.getHash tx) = none)
    (hsigops : nSigOps + getLegacySigOpCount P tx ≤ MAX_BLOCK_SIGOPS) :
    checkOverwrite P V nSigOps tx = .ok (nSigOps + getLegacySigOpCount P tx) := by
  simp only [checkOverwrite, bind_eq_ok, rejectIf_eq_ok]
  refine ⟨(), ?_, (), not_lt.mpr hsigops, trivial⟩
  rintro ⟨txindex, hindex, -⟩
  rw [hfresh] at hindex
  cases hindex

/-- A coinbase is connected. -/
theorem connectTx_coinBase {nValueOut : ℤ} (hcb : tx.isCoinBase)
    (hfresh : V.txIndex (P.getHash tx) = none)
    (hsigops : t.nSigOps + getLegacySigOpCount P tx ≤ MAX_BLOCK_SIGOPS)
    (hvalue : tx.getValueOut = .ok nValueOut) :
    ∃ t', connectTx P V pindex false t tx = .ok t' ∧
      t'.nSigOps = t.nSigOps + getLegacySigOpCount P tx ∧ t'.nFees = t.nFees := by
  rw [connectTx, checkOverwrite_eq_ok hfresh hsigops]
  simp only [bind, Except.bind]
  rw [connectEither, if_pos hcb, connectCoinBase, hvalue]
  exact ⟨_, rfl, rfl, rfl⟩

/-- **A transaction that spends one spendable output is connected.** -/
theorem connectTx_one {txin : CTxIn} {pos : CDiskTxPos} {txPrev : CTransaction} {txout : CTxOut}
    {nValueOut : ℤ} (hcb : ¬ tx.isCoinBase)
    (hvin : tx.vin = [txin]) (hfresh : V.txIndex (P.getHash tx) = none)
    (hsigops : t.nSigOps + getLegacySigOpCount P tx ≤ MAX_BLOCK_SIGOPS)
    (hin : Spendable P V pindex (queued V t.mapQueuedChanges) tx pos txPrev txin.prevout txout)
    (hvalue : tx.getValueOut = .ok nValueOut)
    (hfee : tx.isCoinStake ∨ nValueOut ≤ txout.nValue ∧
      getMinFee tx 1 .GMF_BLOCK 0 ≤ txout.nValue - nValueOut) :
    ∃ t', connectTx P V pindex false t tx = .ok t' ∧
      t'.nSigOps = t.nSigOps + getLegacySigOpCount P tx ∧
      t'.nFees = if tx.isCoinStake then t.nFees
        else int64 (t.nFees + int64 (txout.nValue - nValueOut)) := by
  obtain ⟨txindex, hq, rfl⟩ := Option.map_eq_some_iff.mp hin.indexed
  have hslot : txindex.vSpent[txin.prevout.n]? = some .null := by
    have hslot := hin.slot
    rwa [Ledger.slot?, show (txin.prevout.output).1 = txin.prevout.hash from rfl, hq] at hslot
  have hmax : MAX_MONEY < 2 ^ 62 := by decide
  obtain ⟨hlo, hhi⟩ := hin.range
  have hget : ∀ {inputs : MapPrevTx}, inputs txin.prevout.hash = some (txindex, txPrev) →
      getOutputFor inputs txin = .ok txout :=
    fun h ↦ getOutputFor_eq_ok_iff.mpr ⟨txindex, txPrev, h, hin.vout⟩
  obtain ⟨r, hconnect⟩ : ∃ r, connectInputs P V ⟨t.posThisTx pindex, true, false, connectBlockFlags⟩
      (some pindex) tx _ t.mapQueuedChanges t.nBurnCoins = .ok r :=
    connectInputs_one hcb hvin hin.vout hslot hin.mature hin.time hin.filled hin.range hin.verify
      hvalue hfee
  have hexact : int64 (0 + txout.nValue) = txout.nValue := by
    rw [zero_add, int64_eq ⟨by omega, by omega⟩]
  have hnP2SH : getP2SHSigOpCount P (Function.update (fun _ ↦ none) txin.prevout.hash
      (some (txindex, txPrev))) tx = .ok 0 := by
    rw [getP2SHSigOpCount, if_neg hcb, hvin, getP2SHSigOpCountFrom, hget (Function.update_self ..)]
    simp only [bind, Except.bind]
    rw [if_neg hin.plain]
    rfl
  have hvalueIn : getValueIn (Function.update (fun _ ↦ none) txin.prevout.hash
      (some (txindex, txPrev))) tx = .ok txout.nValue := by
    rw [getValueIn, if_neg hcb, hvin, getValueInFrom, hget (Function.update_self ..)]
    simp only [bind, Except.bind]
    rw [hexact]
    rfl
  have hspending : ∃ t₁, connectSpending P V pindex
      { t with nSigOps := t.nSigOps + getLegacySigOpCount P tx } tx = .ok t₁ ∧
      t₁.nSigOps = t.nSigOps + getLegacySigOpCount P tx ∧
      t₁.nFees = if tx.isCoinStake then t.nFees
        else int64 (t.nFees + int64 (txout.nValue - nValueOut)) := by
    obtain ⟨map', nBurn⟩ := r
    refine ⟨_, by
      simp only [connectSpending, bind_eq_ok, dropScore_eq_ok, rejectIf_eq_ok]
      exact ⟨_, fetchInputs_one hcb hvin hq hin.disk hin.read hin.vout hslot, 0, hnP2SH, (),
        not_lt.mpr hsigops, _, hvalueIn, _, hvalue, ⟨map', nBurn⟩, hconnect, rfl⟩, rfl, rfl⟩
  obtain ⟨t₁, hspending, hnSigOps, hnFees⟩ := hspending
  rw [connectTx, checkOverwrite_eq_ok hfresh hsigops]
  simp only [bind, Except.bind]
  rw [connectEither, if_neg hcb, hspending]
  exact ⟨_, rfl, hnSigOps, hnFees⟩

end

/-! ## A block that makes too much -/

namespace Sample

/-- A coinbase with 1026 outputs. -/
def premine : CTransaction :=
  { coinbase 1 0 0 with vout := ⟨20000, [0, 0]⟩ :: List.replicate 1025 ⟨1, [0, 0]⟩ }

/-- A transaction at height 12 that spends one of them. -/
def mover (i : ℕ) (vout : List CTxOut) : CTransaction where
  nVersion := 1
  nTime := 1440
  vin := [⟨⟨120001, i⟩, [], uintMax⟩]
  vout := vout
  nLockTime := i + 1

/-- A coinstake that makes as much money as there can be. -/
def maker (i : ℕ) : CTransaction := mover i [⟨0, []⟩, ⟨MAX_MONEY, [0, 0]⟩]

/-- A block with 1025 of them, after a transaction that is none. -/
def heavy : CBlock :=
  blockOf 12 (coinbase 12 0 0 :: mover 0 [⟨10000, [0, 0]⟩] :: (List.range' 1 1025).map maker)

section

variable {V : TxView} {pindex : CBlockIndex} {pos : CDiskTxPos} {t : BlockTotals}

/-- What a block at height 12 needs of the index and the disk to spend the outputs of `premine` from
the one numbered `i` on. -/
structure Waiting (V : TxView) (pindex : CBlockIndex) (pos : CDiskTxPos)
    (idx : Ledger.Index UInt256 CDiskTxPos) (i : ℕ) : Prop where
  indexed : Ledger.pos? idx 120001 = some pos
  slot : ∀ j, i ≤ j → j ≤ 1025 → Ledger.slot? idx (120001, j) = some .null
  disk : pos ≠ .inMemory
  read : V.readTx pos = some premine
  mature : confirmedBelow pos (some pindex) nCoinbaseMaturity = false
  fresh : ∀ j vout, j ≤ 1025 → V.txIndex (params.getHash (mover j vout)) = none

theorem isCoinStake_maker (i : ℕ) : (maker i).isCoinStake := by
  refine ⟨Nat.one_pos, ⟨_, rfl, ?_⟩, le_rfl, _, rfl, rfl, rfl⟩
  rintro ⟨h, -⟩
  exact absurd (show (120001 : UInt256) = 0 from h) (by decide)

theorem not_isCoinBase_mover (i : ℕ) (vout : List CTxOut) : ¬ (mover i vout).isCoinBase := by
  rintro ⟨-, ⟨txin, htxin, hnull, -⟩, -⟩
  cases htxin
  exact absurd (show (120001 : UInt256) = 0 from hnull) (by decide)

theorem getLegacySigOpCount_params (tx : CTransaction) : getLegacySigOpCount params tx = 0 := by
  show (tx.vin.map fun _ ↦ 0).sum + (tx.vout.map fun _ ↦ 0).sum = 0
  simp

theorem vout_premine {i : ℕ} (hi : i ≤ 1025) :
    premine.vout[i]? = some ⟨if i = 0 then 20000 else 1, [0, 0]⟩ := by
  cases i with
  | zero => rfl
  | succ i =>
    have hget : (List.replicate 1025 (⟨1, [0, 0]⟩ : CTxOut))[i]? = some ⟨1, [0, 0]⟩ :=
      List.getElem?_replicate_of_lt hi
    exact hget

theorem spends_mover (i : ℕ) (vout : List CTxOut) :
    (mover i vout).spends.map COutPoint.output = [(120001, i)] := by
  rw [spends_of_not_isCoinBase (not_isCoinBase_mover i vout)]
  rfl

theorem getHash_mover_ne (i : ℕ) (vout : List CTxOut) :
    params.getHash (mover i vout) ≠ 120001 := by
  intro heq
  have heq : 1000 * 1440 + (i + 1) + 1 = 120001 := heq
  omega

/-- What is waiting for a block is still waiting after a transaction that does not spend it. -/
theorem Waiting.connect {idx idx' : Ledger.Index UInt256 CDiskTxPos} {i j : ℕ}
    {tx : CTransaction} {p : CDiskTxPos} (h : Waiting V pindex pos idx i) (hij : i ≤ j)
    (hid : params.getHash tx ≠ 120001)
    (hins : ∀ k, j ≤ k → (120001, k) ∉ (ledgerTx params tx).ins)
    (hconn : Ledger.connect idx (ledgerTx params tx) p = some idx') :
    Waiting V pindex pos idx' j := by
  have hid : (120001 : UInt256) ≠ (ledgerTx params tx).id := hid.symm
  refine { h with indexed := ?_, slot := ?_ }
  · rw [Ledger.pos?_connect hconn, if_neg hid]
    exact h.indexed
  · intro k hk hle
    rw [Ledger.slot?_connect hconn, if_neg hid, if_neg (hins k hk)]
    exact h.slot k (hij.trans hk) hle

/-- A transaction that spends the next output is connected. -/
theorem connectTx_mover {i : ℕ} {vout : List CTxOut} {nValueOut : ℤ} (hi : i ≤ 1025)
    (h : Waiting V pindex pos (queued V t.mapQueuedChanges) i) (hsigops : t.nSigOps = 0)
    (hvalue : (mover i vout).getValueOut = .ok nValueOut)
    (hfee : (mover i vout).isCoinStake ∨ nValueOut ≤ (if i = 0 then 20000 else 1) ∧
      getMinFee (mover i vout) 1 .GMF_BLOCK 0 ≤ (if i = 0 then 20000 else 1) - nValueOut) :
    ∃ t', connectTx params V pindex false t (mover i vout) = .ok t' ∧
      Waiting V pindex pos (queued V t'.mapQueuedChanges) (i + 1) ∧ t'.nSigOps = 0 ∧
      t'.nFees = if (mover i vout).isCoinStake then t.nFees
        else int64 (t.nFees + int64 ((if i = 0 then 20000 else 1) - nValueOut)) := by
  obtain ⟨t', hconn, hsigops', hfees⟩ := connectTx_one (P := params) (t := t)
    (not_isCoinBase_mover i vout) rfl (h.fresh i vout hi)
    (by rw [hsigops, getLegacySigOpCount_params]; exact Nat.zero_le _)
    { indexed := h.indexed
      slot := h.slot i le_rfl hi
      disk := h.disk
      read := h.read
      vout := vout_premine hi
      mature := h.mature
      time := show 120 ≤ 1440 by decide
      verify := rfl
      plain := show ¬ isPayToScriptHash [0, 0] by decide
      filled := by split <;> decide
      range := by split <;> decide } hvalue hfee
  have hwaiting : Waiting V pindex pos (queued V t'.mapQueuedChanges) (i + 1) := by
    refine h.connect (Nat.le_succ i) (getHash_mover_ne i vout) (fun k hk hmem ↦ ?_)
      (connect_of_connectTx hconn).1
    have hmem : (120001, k) ∈ (mover i vout).spends.map COutPoint.output := hmem
    rw [spends_mover, List.mem_singleton] at hmem
    cases hmem
    omega
  refine ⟨t', hconn, hwaiting, ?_, hfees⟩
  rw [hsigops', hsigops, getLegacySigOpCount_params]

theorem connectTxs_makers {n : ℕ} : ∀ {i : ℕ} {t : BlockTotals}, i + n = 1026 → 1 ≤ i →
    Waiting V pindex pos (queued V t.mapQueuedChanges) i → t.nSigOps = 0 →
      ∃ t', connectTxs params V pindex false t ((List.range' i n).map maker) = .ok t' ∧
        t'.nFees = t.nFees := by
  induction n with
  | zero => exact fun _ _ _ _ ↦ ⟨_, rfl, rfl⟩
  | succ n ih =>
    intro i t hin hi h hsigops
    obtain ⟨t₁, hconn, h₁, hsigops₁, hfees⟩ := connectTx_mover (by omega) h hsigops
      (show (maker i).getValueOut = .ok MAX_MONEY from rfl) (.inl (isCoinStake_maker i))
    have hfees : t₁.nFees = t.nFees := hfees.trans (if_pos (isCoinStake_maker i))
    obtain ⟨t', hconns, hfees'⟩ := ih (by omega) (by omega) h₁ hsigops₁
    refine ⟨t', ?_, hfees'.trans hfees⟩
    rw [List.range'_succ, List.map_cons]
    exact connectTxs_cons_eq_ok.mpr ⟨t₁, hconn, hconns⟩

/-- The loop of `ConnectBlock` over `heavy`. -/
theorem connectTxs_heavy {nTxPos : ℕ} (h : Waiting V pindex pos V.txIndex 0)
    (hfresh : V.txIndex (params.getHash (coinbase 12 0 0)) = none) :
    ∃ t', connectTxs params V pindex false (.init nTxPos) heavy.vtx = .ok t' ∧ t'.nFees = 10000 := by
  have hcb : (coinbase 12 0 0).isCoinBase := by decide
  obtain ⟨t₁, hconn₁, hsigops₁, hfees₁⟩ : ∃ t₁, connectTx params V pindex false (.init nTxPos)
      (coinbase 12 0 0) = .ok t₁ ∧ _ ∧ _ :=
    connectTx_coinBase hcb hfresh (by rw [getLegacySigOpCount_params]; exact Nat.zero_le _) rfl
  rw [getLegacySigOpCount_params] at hsigops₁
  have h₁ : Waiting V pindex pos (queued V t₁.mapQueuedChanges) 0 := by
    have hconn := (connect_of_connectTx hconn₁).1
    rw [show (BlockTotals.init nTxPos).mapQueuedChanges = ∅ from rfl, queued_empty] at hconn
    exact h.connect le_rfl (by decide) (fun k _ ↦ List.not_mem_nil) hconn
  have hvalue : (mover 0 [⟨10000, [0, 0]⟩]).getValueOut = .ok 10000 := rfl
  obtain ⟨t₂, hconn₂, h₂, hsigops₂, hfees₂⟩ := connectTx_mover (by decide) h₁ hsigops₁ hvalue
    (.inr ⟨by decide, by decide⟩)
  have hfees₂ : t₂.nFees = 10000 := by
    rw [hfees₂, hfees₁]
    exact (show int64 (0 + int64 (20000 - 10000)) = 10000 by decide)
  obtain ⟨t', hconns, hfees⟩ := connectTxs_makers (n := 1025) (i := 1) rfl le_rfl h₂ hsigops₂
  exact ⟨t', connectTxs_cons_eq_ok.mpr ⟨t₁, hconn₁, connectTxs_cons_eq_ok.mpr ⟨t₂, hconn₂, hconns⟩⟩,
    hfees.trans hfees₂⟩

theorem hashMerkleRoot_blockOf (nHeight : ℕ) (vtx : List CTransaction) :
    (blockOf nHeight vtx).hashMerkleRoot = (blockOf nHeight vtx).buildMerkleTree params := rfl

theorem nodup_heavy : (heavy.vtx.map params.getHash).Nodup := by
  have hmakers : ((List.range' 1 1025).map maker).map params.getHash =
      (List.range' 1 1025).map fun i ↦ 1000 * 1440 + (i + 1) + 1 := by
    rw [List.map_map]
    rfl
  show (params.getHash (coinbase 12 0 0) :: params.getHash (mover 0 [⟨10000, [0, 0]⟩]) ::
    ((List.range' 1 1025).map maker).map params.getHash).Nodup
  rw [hmakers]
  refine List.nodup_cons.mpr ⟨?_, List.nodup_cons.mpr ⟨?_, ?_⟩⟩
  · intro h
    rcases List.mem_cons.mp h with h | h
    · exact absurd h (by decide)
    · obtain ⟨i, -, hi⟩ := List.mem_map.mp h
      have hi : 1000 * 1440 + (i + 1) + 1 = 1000 * (120 * 12) + 0 + 1 := hi
      omega
  · intro h
    obtain ⟨i, hi, heq⟩ := List.mem_map.mp h
    have heq : 1000 * 1440 + (i + 1) + 1 = 1000 * 1440 + (0 + 1) + 1 := heq
    rw [List.mem_range'] at hi
    omega
  · refine List.Nodup.map (fun i j hij ↦ ?_) (List.nodup_range')
    have hij : 1000 * 1440 + (i + 1) + 1 = 1000 * 1440 + (j + 1) + 1 := hij
    omega

theorem not_isProofOfStake_heavy : ¬ heavy.isProofOfStake := by
  decide +kernel

theorem checkBlock_heavy : checkBlock params world heavy true true false = .ok () := by
  have hsigops : (heavy.vtx.map (getLegacySigOpCount params)).sum = 0 := by
    rw [funext getLegacySigOpCount_params]
    simp
  have hmerkle : heavy.hashMerkleRoot = heavy.buildMerkleTree params :=
    hashMerkleRoot_blockOf _ _
  have hshape : checkStakeShape heavy = .ok () := if_neg not_isProofOfStake_heavy
  have htxs : checkTransactions heavy heavy.vtx = .ok () := by
    decide +kernel
  simp only [checkBlock, bind_check_eq_ok, rejectIf_eq_ok]
  refine ⟨?_, ?_, ?_, ?_, ?_, hshape, ?_, htxs, not_not.mpr nodup_heavy, ?_, ?_⟩
  · decide +kernel
  · decide +kernel
  · decide +kernel
  · decide +kernel
  · decide +kernel
  · decide +kernel
  · rw [hsigops]
    decide
  · exact fun h ↦ h.2 hmerkle


/-! ### What `heavy` makes -/

theorem pos?_getD_connect {idx : Ledger.Index UInt256 CDiskTxPos} {tx : CTransaction}
    {p : CDiskTxPos} (hid : params.getHash tx ≠ 120001) (h : Ledger.pos? idx 120001 = some pos) :
    Ledger.pos? ((Ledger.connect idx (ledgerTx params tx) p).getD idx) 120001 = some pos := by
  cases hconn : Ledger.connect idx (ledgerTx params tx) p with
  | none => exact h
  | some idx' =>
    rw [Option.getD_some, Ledger.pos?_connect hconn, if_neg]
    · exact h
    · exact fun heq ↦ hid heq.symm

variable {files : BlockFiles}

theorem gain_maker (hfile : files.txAt pos.nFile pos.nTxPos = some premine)
    {idx : Ledger.Index UInt256 CDiskTxPos} (hpos : Ledger.pos? idx 120001 = some pos) {i : ℕ}
    (h₀ : 1 ≤ i) (hi : i ≤ 1025) : gain files idx (maker i) = MAX_MONEY - 1 := by
  have hin : files.valueIn idx (maker i) = 1 := by
    rw [BlockFiles.valueIn, maker, spends_mover, List.map_singleton, List.sum_singleton,
      BlockFiles.valueAt, BlockFiles.outputAt, hpos, Option.bind_some, hfile, Option.bind_some,
      vout_premine hi, if_neg (by omega)]
    rfl
  rw [gain, if_pos (.inr (isCoinStake_maker i)), hin]
  rfl

theorem totalGain_makers (hfile : files.txAt pos.nFile pos.nTxPos = some premine) {n : ℕ} :
    ∀ {i : ℕ} {idx : Ledger.Index UInt256 CDiskTxPos} {L : List (CTransaction × CDiskTxPos)},
      i + n = 1026 → 1 ≤ i → Ledger.pos? idx 120001 = some pos →
      L.map Prod.fst = (List.range' i n).map maker →
        totalGain params files idx L = n * (MAX_MONEY - 1) := by
  induction n with
  | zero =>
    intro i idx L _ _ _ hL
    cases List.map_eq_nil_iff.mp hL
    rw [totalGain, Nat.cast_zero, zero_mul]
  | succ n ih =>
    intro i idx L hin hi hpos hL
    rw [List.range'_succ, List.map_cons] at hL
    obtain ⟨a, L, rfl, ha, hL⟩ := List.map_eq_cons_iff.mp hL
    have hname : params.getHash (maker i) ≠ 120001 := getHash_mover_ne i _
    have hpos' := pos?_getD_connect (p := a.2) hname hpos
    rw [totalGain, ha, gain_maker hfile hpos hi (by omega),
      ih (by omega) (by omega) hpos' hL]
    push_cast
    ring

/-- What `heavy` makes is too much for 64 bits. -/
theorem not_inInt64_heavy (hfile : files.txAt pos.nFile pos.nTxPos = some premine)
    {idx : Ledger.Index UInt256 CDiskTxPos} (hpos : Ledger.pos? idx 120001 = some pos)
    (pindex : CBlockIndex) : ¬ InInt64 (totalGain params files idx (blockTxs heavy pindex)) := by
  have hvtx := map_fst_blockTxs heavy pindex
  obtain ⟨a, L, hL, ha, htail⟩ := List.map_eq_cons_iff.mp hvtx
  obtain ⟨c, L, rfl, hc, htail⟩ := List.map_eq_cons_iff.mp htail
  have hgainA : gain files idx (coinbase 12 0 0) = 0 := by
    rw [gain, if_pos (.inl (by decide))]
    rfl
  have hposA := pos?_getD_connect (p := a.2) (show params.getHash (coinbase 12 0 0) ≠ 120001 by
    decide) hpos
  have hposC := pos?_getD_connect (p := c.2) (getHash_mover_ne 0 [⟨10000, [0, 0]⟩]) hposA
  have hgainC : ∀ idx, gain files idx (mover 0 [⟨10000, [0, 0]⟩]) = 0 := by
    intro idx
    rw [gain, if_neg (by decide)]
  have hrest := totalGain_makers hfile (n := 1025) (i := 1) rfl le_rfl hposC htail
  rw [hL, totalGain, totalGain, ha, hc, hgainA, hgainC, hrest]
  decide

/-! ### The chain below -/

/-- The blocks are written and connected one after another, and `p` holds at the end. -/
def connectThen (p : CBlockIndex → NodeState → Bool) : List CBlock → CBlockIndex → NodeState → Bool
  | [], b, s => p b s
  | block :: blocks, b, s =>
    match connectBlock world params block (nextIndex s block b) false (s.stored world block) with
    | .ok _ s' => connectThen p blocks (nextIndex s block b) s'
    | .error _ _ => false

theorem minted_connectThen {g : CBlockIndex} {p : CBlockIndex → NodeState → Bool}
    (blocks : List CBlock) : ∀ {L : List (CBlock × CBlockIndex)} {G : CBlockIndex → ℤ}
      {b : CBlockIndex} {s : NodeState},
      s.Open → Minted params g L G b s → connectThen p blocks b s = true →
        ∃ L' G' b' s', L'.map Prod.fst = L.map Prod.fst ++ blocks ∧ s'.Open ∧
          Minted params g L' G' b' s' ∧ p b' s' = true := by
  induction blocks with
  | nil => exact fun {L G b s} ho h hp ↦ ⟨L, G, b, s, (List.append_nil _).symm, ho, h, hp⟩
  | cons block blocks ih =>
    intro L G b s ho h hx
    rw [connectThen] at hx
    split at hx
    · rename_i u s' hconn
      have hstored : Minted params g L G b (s.stored world block) :=
        .between h rfl (fun _ _ _ hat ↦ BlockFiles.blockAt_writeToDisk_of_some hat _ _) rfl
          fun _ _ ↦ rfl
      have hdisk : (s.stored world block).files.blockAt (nextIndex s block b).val.nFile
          (nextIndex s block b).val.nBlockPos = some block :=
        BlockFiles.blockAt_writeToDisk s.files world.nFile block
      have ho' := ((keeps_connectBlock (N := fun _ ↦ True) params world trivial block false).ok
        hconn).open ho
      obtain ⟨L', G', b', s'', hL, h'⟩ := ih ho' (hstored.connect rfl ho hdisk hconn) hx
      refine ⟨L', G', b', s'', ?_, h'⟩
      rw [hL, List.map_append, List.append_assoc]
      rfl
    · cases hx

/-- Eleven blocks, of which the first has `premine`. -/
def below : List CBlock :=
  (List.range' 1 11).map fun nHeight ↦
    blockOf nHeight [if nHeight = 1 then premine else coinbase nHeight 0 0]

/-- The outputs of `premine` can be spent in a block at height 12. -/
def ready (b : CBlockIndex) (s : NodeState) : Bool :=
  match s.txdb.txIndex 120001, s.pindexBest with
  | some txindex, some pindexBest =>
    decide (txindex.vSpent = List.replicate 1026 .null) && decide (txindex.pos ≠ .inMemory) &&
      decide ((s.stored world heavy).files.txAt txindex.pos.nFile txindex.pos.nTxPos =
        some premine) &&
      !confirmedBelow txindex.pos (some (nextIndex s heavy b)) nCoinbaseMaturity &&
      (List.range 1027).all (fun j ↦ (s.txdb.txIndex (1440001 + j)).isNone) &&
      decide (pindexBest.nHeight = 0)
  | _, _ => false

theorem ready_below : connectThen ready below genesisIndex start.begin_ = true := by
  decide +kernel

/-- The outputs of `premine` wait for `heavy`. -/
theorem waiting_of_ready {b : CBlockIndex} {s : NodeState} (h : ready b s = true) :
    ∃ pos pindexBest,
      Waiting ((s.stored world heavy).txView world (s.stored world heavy).txdb) (nextIndex s heavy b)
        pos ((s.stored world heavy).txView world (s.stored world heavy).txdb).txIndex 0 ∧
      ((s.stored world heavy).txView world (s.stored world heavy).txdb).txIndex
        (params.getHash (coinbase 12 0 0)) = none ∧
      Ledger.pos? s.txdb.txIndex 120001 = some pos ∧
      (s.stored world heavy).files.txAt pos.nFile pos.nTxPos = some premine ∧
      s.pindexBest = some pindexBest ∧ pindexBest.nHeight = 0 := by
  unfold ready at h
  split at h
  · rename_i txindex pindexBest hindex hbest
    simp only [Bool.and_eq_true, decide_eq_true_eq, Bool.not_eq_true', List.all_eq_true,
      List.mem_range, Option.isNone_iff_eq_none] at h
    obtain ⟨⟨⟨⟨⟨hspent, hdisk⟩, hfile⟩, hmature⟩, hfresh⟩, hheight⟩ := h
    have hpos : Ledger.pos? s.txdb.txIndex 120001 = some txindex.pos := by
      rw [Ledger.pos?, hindex]
      rfl
    have hview : ((s.stored world heavy).txView world (s.stored world heavy).txdb).txIndex =
        s.txdb.txIndex := txIndex_txView world _
    refine ⟨txindex.pos, pindexBest, ?_, ?_, hpos, hfile, hbest, hheight⟩
    · rw [hview]
      refine ⟨hpos, ?_, hdisk, hfile, hmature, ?_⟩
      · intro j _ hj
        show (s.txdb.txIndex 120001).bind (·.vSpent[j]?) = _
        rw [hindex, Option.bind_some, hspent]
        exact List.getElem?_replicate_of_lt (by omega)
      · intro j vout hj
        have heq : params.getHash (mover j vout) = 1440001 + (j + 1) :=
          show 1000 * 1440 + (j + 1) + 1 = 1440001 + (j + 1) by omega
        rw [hview, heq]
        exact hfresh (j + 1) (by omega)
    · rw [hview]
      exact hfresh 0 (by decide)
  · cases h

/-- `ConnectBlock` takes `heavy`. -/
theorem connectBlock_heavy {b : CBlockIndex} {s : NodeState} (ho : s.Open) (h : ready b s = true) :
    ∃ pos s', connectBlock world params heavy (nextIndex s heavy b) false (s.stored world heavy) =
        .ok () s' ∧ Ledger.pos? s.txdb.txIndex 120001 = some pos ∧
      (s.stored world heavy).files.txAt pos.nFile pos.nTxPos = some premine := by
  obtain ⟨pos, pindexBest, hwaiting, hfresh, hpos, hfile, hbest, hheight⟩ := waiting_of_ready h
  obtain ⟨t, htxs, hfees⟩ : ∃ t, connectTxs params
      ((s.stored world heavy).txView world (s.stored world heavy).txdb) (nextIndex s heavy b) false
      (.init (firstTxPos heavy (nextIndex s heavy b) false)) heavy.vtx = .ok t ∧ _ :=
    connectTxs_heavy hwaiting hfresh
  have hcheck : connectBlockCheck params world
      ((s.stored world heavy).txView world (s.stored world heavy).txdb)
      (s.stored world heavy).pindexBest heavy (nextIndex s heavy b) false = .ok t := by
    have hbest : (s.stored world heavy).pindexBest = some pindexBest := hbest
    have hreward : checkWorkReward (some pindexBest) heavy t.nFees = .ok () := by
      have hvtx : heavy.vtx[0]? = some (coinbase 12 0 0) := rfl
      unfold checkWorkReward
      rw [if_neg not_isProofOfStake_heavy, hvtx]
      dsimp only
      rw [hfees, hheight]
      decide +kernel
    rw [connectBlockCheck, hbest]
    simp only [bind_eq_ok]
    exact ⟨(), checkBlock_heavy, t, htxs, (), hreward, (), if_neg not_isProofOfStake_heavy, rfl⟩
  have hnone := error?_connectBlock (P := params) (w := world) (s := s.stored world heavy) ho heavy
    (nextIndex s heavy b)
  rw [hcheck] at hnone
  exact ⟨pos, _, Exec.eq_ok_of_error? hnone, hpos, hfile⟩

end

/-- A transaction that spends the coinbase of the first block, and burns a coin. -/
def spendBurning : CTransaction :=
  { spendAgain 11 with vout := [⟨8 * COIN, [0, 0]⟩, ⟨COIN, [0, OP_BURN]⟩] }

/-- Eleven blocks, of which the last has `spendBurning`. -/
def burning : List CBlock :=
  repeating.take 10 ++ [blockOf 11 [coinbase 11 COIN 0, spendBurning]]

theorem minted_start : Minted params genesisIndex [] (fun _ ↦ 0) genesisIndex start.begin_ :=
  .start ((txIndex_begin wf_start.closed).trans txIndex_start) (by decide +kernel)

end Sample

/-- Eleven blocks, of which the first makes ten coins and the last another one.  One of the ten is burned
there, and one is the fee. -/
theorem Minted.supply_accounted_sample : ∃ L G b s,
    Minted Sample.params Sample.genesisIndex L G b s ∧ L.map Prod.fst = Sample.burning ∧
      (s.nMoneySupply b = 9 * COIN ∧ ((chainVtx L).map (burned Sample.params)).sum = COIN) ∧
      ((Ledger.unspent s.txdb.txIndex).Finite ∧
        (s.nMoneySupply b : ℤ) ≡ Ledger.worth (s.files.valueAt s.txdb.txIndex) s.txdb.txIndex -
          ((chainVtx L).map (burned Sample.params)).sum [ZMOD 2 ^ 64]) ∧
      ∀ c ∈ L, (s.nMint c.2 = G c.2 ↔ InInt64 (G c.2)) := by
  obtain ⟨L, G, b, s, hL, -, h, hsupply⟩ := Sample.minted_connectThen
    (p := fun b s ↦ decide (s.nMoneySupply b = 9 * COIN)) Sample.burning
    (NodeState.open_begin _) Sample.minted_start (by decide +kernel)
  rw [List.map_nil, List.nil_append] at hL
  refine ⟨L, G, b, s, h, hL, ⟨of_decide_eq_true hsupply, ?_⟩, h.supply_accounted⟩
  rw [Sample.chainVtx_eq hL]
  decide +kernel

/-- The money that a block makes can be too much for 64 bits. -/
theorem nMint_ne_of_heavy : ∃ L G b s, Minted Sample.params Sample.genesisIndex L G b s ∧
    ∃ c ∈ L, s.nMint c.2 ≠ G c.2 := by
  open Sample in
  obtain ⟨L, G, b, s, -, ho, h, hready⟩ := minted_connectThen below (NodeState.open_begin _)
    minted_start ready_below
  obtain ⟨pos, s', hconn, hpos, hfile⟩ := connectBlock_heavy ho hready
  have hstored : Minted params genesisIndex L G b (s.stored world heavy) :=
    .between h rfl (fun _ _ _ hat ↦ BlockFiles.blockAt_writeToDisk_of_some hat _ _) rfl
      fun _ _ ↦ rfl
  have hdisk : (s.stored world heavy).files.blockAt (nextIndex s heavy b).val.nFile
      (nextIndex s heavy b).val.nBlockPos = some heavy :=
    BlockFiles.blockAt_writeToDisk s.files world.nFile heavy
  have hheavy := hstored.connect (n := nextIndex s heavy b) rfl ho hdisk hconn
  refine ⟨_, _, _, _, hheavy, _, List.mem_append_right L (List.mem_singleton_self _), ?_⟩
  rw [hheavy.account.2 _ (List.mem_append_right L (List.mem_singleton_self _)), Ne,
    int64_eq_self_iff, Function.update_self]
  exact not_inInt64_heavy hfile hpos _

end Bws
