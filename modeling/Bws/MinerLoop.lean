import Bws.CreateNewBlock
import Bws.PoolLinks
import Bws.WorkReward

/-!
# Filling a block

The second loop of `CreateNewBlock` connects the transactions that it takes to the index, over the
changes of those it has taken before.  So what it builds is sound in whatever order it takes them:
parents come before their children, nothing is spent twice, and the limits are kept
(`Miner.Filling`).

A record that has been erased is used exactly when the loop takes a transaction that a dropped one
has been waiting for (`Miner.createNewBlock_sound_iff`).
-/

namespace Bws

/-! ## What a transaction of the pool spends -/

/-- The output that an outpoint names, of a transaction that the index leads to, or else of one of
the pool. -/
def TxView.coin (V : TxView) (o : COutPoint) : Option CTxOut :=
  match V.txIndex o.hash with
  | some _ => V.outputIn V.txIndex o
  | none => (V.lookup o.hash).bind fun txPrev ↦ txPrev.vout[o.n]?

/-- What `GetP2SHSigOpCount` counts for an input. -/
def redeemSigOps (P : Params) (txin : CTxIn) (txout : CTxOut) : ℕ :=
  if isPayToScriptHash txout.scriptPubKey then
    P.getSigOpCountP2SH txout.scriptPubKey txin.scriptSig
  else 0

namespace Miner

variable (P : Params) (m : Miner)

/-- What an input is worth. -/
def inputValue (txin : CTxIn) : ℤ := ((m.V.coin txin.prevout).map CTxOut.nValue).getD 0

/-- Inputs minus outputs. -/
def fee (tx : CTransaction) : ℤ := (tx.vin.map m.inputValue).sum - totalValue tx.vout

/-- The signature operations that count for a transaction. -/
def sigOps (tx : CTransaction) : ℕ :=
  getLegacySigOpCount P tx +
    (tx.vin.map fun txin ↦ ((m.V.coin txin.prevout).map (redeemSigOps P txin)).getD 0).sum

/-- What `CreateNewBlock` tells the ledger about the transactions of the block. -/
def placedTxs (vtx : List CTransaction) : List (Ledger.Tx UInt256 × CDiskTxPos) :=
  vtx.map fun tx ↦ (ledgerTx P tx, .inMemory)

section

variable {P m} {idx : Ledger.Index UInt256 CDiskTxPos} {vin : List CTxIn} {vout : List CTxOut}

/-- An output depends on the position in the index only. -/
theorem outputIn_eq (V : TxView) (idx : Ledger.Index UInt256 CDiskTxPos) (o : COutPoint) :
    V.outputIn idx o = (Ledger.pos? idx o.hash).bind fun pos ↦
      (if pos = .inMemory then V.lookup o.hash else V.readTx pos).bind fun txPrev ↦
        txPrev.vout[o.n]? := by
  unfold TxView.outputIn Ledger.pos? TxView.prevTx
  cases idx o.hash with
  | none => rfl
  | some txindex => rfl

/-- What the loop finds for an outpoint, when the index has come from the one on disk by connecting
transactions of the pool. -/
theorem coin_of_outputIn {V : TxView} {vtx : List CTransaction}
    (hf : Ledger.Fresh V.txIndex (placedTxs P vtx))
    (h : Ledger.connectAll V.txIndex (placedTxs P vtx) = some idx) {o : COutPoint} {txout : CTxOut}
    (hout : V.outputIn idx o = some txout) : V.coin o = some txout := by
  have hpos := outputIn_eq V idx o
  rw [hout] at hpos
  obtain ⟨pos, hp, hread⟩ := Option.bind_eq_some_iff.mp hpos.symm
  unfold TxView.coin
  rcases Ledger.mem_of_pos?_connectAll h hp with hold | ⟨tp, hmem, hid, rfl⟩
  · -- it was in the index from the start
    cases htx : V.txIndex o.hash with
    | none =>
      rw [Ledger.eq_none_iff_pos?.mp htx] at hold
      cases hold
    | some txindex =>
      dsimp only
      rw [outputIn_eq, hold, Option.bind_some]
      exact hread
  · -- it is one of the pool
    have hnone := hf.notMem tp hmem
    rw [hid] at hnone
    rw [hnone]
    obtain ⟨tx, -, rfl⟩ := List.mem_map.mp hmem
    dsimp only
    rw [if_pos rfl] at hread
    exact hread

theorem sum_inputValue
    (h : List.Forall₂ (fun txin txout ↦ m.V.coin txin.prevout = some txout) vin vout) :
    (vin.map m.inputValue).sum = totalValue vout := by
  induction h with
  | nil => rfl
  | cons hout _ ih =>
    rw [List.map_cons, List.sum_cons, ih, totalValue_cons, inputValue, hout]
    rfl

theorem isSome_coin
    (h : List.Forall₂ (fun txin txout ↦ m.V.coin txin.prevout = some txout) vin vout) :
    ∀ txin ∈ vin, (m.V.coin txin.prevout).isSome := by
  induction h with
  | nil => exact nofun
  | cons hout _ ih =>
    rw [List.forall_mem_cons, hout]
    exact ⟨rfl, ih⟩

theorem sum_redeemSigOps
    (h : List.Forall₂ (fun txin txout ↦ m.V.coin txin.prevout = some txout) vin vout) :
    (vin.map fun txin ↦ ((m.V.coin txin.prevout).map (redeemSigOps P txin)).getD 0).sum =
      (List.zipWith (redeemSigOps P) vin vout).sum := by
  induction h with
  | nil => rfl
  | cons hout _ ih =>
    rw [List.map_cons, List.sum_cons, ih, List.zipWith_cons_cons, List.sum_cons, hout]
    rfl

/-- `GetP2SHSigOpCount` adds up what it counts for the inputs. -/
theorem getP2SHSigOpCountFrom_eq {inputs : MapPrevTx}
    (h : List.Forall₂ (fun txin txout ↦ getOutputFor inputs txin = .ok txout) vin vout) :
    ∀ nSigOps, getP2SHSigOpCountFrom P inputs nSigOps vin =
      .ok (nSigOps + (List.zipWith (redeemSigOps P) vin vout).sum) := by
  induction h with
  | nil => exact fun _ ↦ rfl
  | @cons txin txout vin vout hout _ ih =>
    intro nSigOps
    have hone : (if isPayToScriptHash txout.scriptPubKey then
        nSigOps + P.getSigOpCountP2SH txout.scriptPubKey txin.scriptSig else nSigOps) =
          nSigOps + redeemSigOps P txin txout := by
      unfold redeemSigOps
      split
      · rfl
      · rw [add_zero]
    rw [getP2SHSigOpCountFrom, hout]
    change getP2SHSigOpCountFrom P inputs (if isPayToScriptHash txout.scriptPubKey then
        nSigOps + P.getSigOpCountP2SH txout.scriptPubKey txin.scriptSig else nSigOps) vin = _
    rw [hone, ih, List.zipWith_cons_cons, List.sum_cons, add_assoc]

/-! ## One transaction -/

/-- The fee that `ConnectInputs` asks of every transaction. -/
theorem pays_of_checkFee {tx : CTransaction} {nValueIn : ℤ} {nBurnCoins n : ℕ}
    (hcs : ¬ tx.isCoinStake) (hin : moneyRange nValueIn)
    (h : checkFee P false tx nValueIn nBurnCoins = .ok n) :
    0 < nValueIn - totalValue tx.vout ∧ moneyRange (totalValue tx.vout) := by
  unfold checkFee at h
  rw [if_neg hcs] at h
  simp only [bind_eq_ok, rejectIf_eq_ok, not_lt] at h
  obtain ⟨nValueOut, hvalue, -, hle, -, -, -, hfee, -⟩ := h
  obtain ⟨rfl, hrange⟩ := totalValue_of_getValueOut hvalue
  have hmin : getMinFee tx 1 .GMF_BLOCK 0 = 10000 := rfl
  have hmax : MAX_MONEY < 2 ^ 62 := by decide
  obtain ⟨hlo, hhi⟩ := hin
  obtain ⟨hlo', hhi'⟩ := hrange
  rw [hmin, int64_eq ⟨by omega, by omega⟩] at hfee
  exact ⟨by omega, hlo', hhi'⟩

/-- A transaction has been added to the block; it spends the outputs `vout`. -/
structure Added (P : Params) (m : Miner) (a : Assembly) (tx : CTransaction) (vout : List CTxOut)
    (a' : Assembly) : Prop where
  spends : SpendsOutputs m.V (queued m.V a.mapTestPool) tx.vin vout
  connects : Ledger.connect (queued m.V a.mapTestPool) (ledgerTx P tx) .inMemory =
    some (queued m.V a'.mapTestPool)
  pays : 0 < totalValue vout - totalValue tx.vout
  rangeOut : moneyRange (totalValue tx.vout)
  size : a.nBlockSize + tx.serializeSize < m.nBlockMaxSize
  sigOps : a.nBlockSigOps + (getLegacySigOpCount P tx +
    (List.zipWith (redeemSigOps P) tx.vin vout).sum) < MAX_BLOCK_SIGOPS
  eq : a' = { a with
    mapTestPool := a'.mapTestPool
    vtx := a.vtx ++ [tx]
    nBlockSize := a.nBlockSize + tx.serializeSize
    nBlockSigOps := a.nBlockSigOps + (getLegacySigOpCount P tx +
      (List.zipWith (redeemSigOps P) tx.vin vout).sum)
    nFees := int64 (a.nFees + (totalValue vout - totalValue tx.vout)) }

theorem added_of_addTx {n : ℕ} {a a' : Assembly} {tx : CTransaction} (hcb : ¬ tx.isCoinBase)
    (hcs : ¬ tx.isCoinStake) (h : m.addTx P n a tx = .ok a') : ∃ vout, Added P m a tx vout a' := by
  simp only [addTx, bind_eq_ok, rejectIf_eq_ok, not_le] at h
  obtain ⟨-, hsize, -, -, -, -, -, -, inputs, hfetch, nValueIn, hin, nValueOut, hvalue, -, -, nP2SH,
    hP2SH, -, hsigops, ⟨map, nBurn⟩, hconn, h⟩ := h
  cases h
  obtain ⟨hf, hall⟩ := fetchInputs_eq_ok hcb hfetch
  obtain ⟨vout, hget, hspends⟩ := spendsOutputs_of_fetched (Or.inr rfl) hf hall
  rw [connectInputs, if_neg hcb] at hconn
  simp only [bind_eq_ok] at hconn
  obtain ⟨nValue, hcheck, map', hspend, nBurn', hfee, hconn⟩ := hconn
  cases hconn
  have hzero : moneyRange 0 := by decide
  obtain ⟨hsum, hrange, hfold⟩ := totalValue_of_checkInputs hget hzero hcheck
  rw [zero_add] at hsum
  rw [getValueIn, if_neg hcb, getValueInFrom_eq hget, hfold] at hin
  cases hin
  obtain ⟨hpays, hrangeOut⟩ := pays_of_checkFee hcs hrange hfee
  obtain ⟨rfl, -⟩ := totalValue_of_getValueOut hvalue
  rw [getP2SHSigOpCount, if_neg hcb, getP2SHSigOpCountFrom_eq hget, zero_add] at hP2SH
  cases hP2SH
  subst hsum
  have hmax : MAX_MONEY < 2 ^ 62 := by decide
  obtain ⟨hlo, hhi⟩ := hrange
  obtain ⟨hlo', hhi'⟩ := hrangeOut
  have hsync : Synced m.V inputs a.mapTestPool := fun hash txindex txPrev hin ↦
    (fetches_queued (Or.inr rfl) (hall hash txindex txPrev hin)).1
  have hledger := spendAll_of_spendInputs (m := mode) (Or.inr rfl) hsync hspend
  have hconnects : Ledger.connect (queued m.V a.mapTestPool) (ledgerTx P tx) .inMemory =
      some (queued m.V (map.insert (P.getHash tx) (CTxIndex.mk' .inMemory tx.vout.length))) := by
    have hins : (ledgerTx P tx).ins = tx.vin.map fun txin ↦ txin.prevout.output := by
      rw [show (ledgerTx P tx).ins = tx.spends.map COutPoint.output from rfl,
        spends_of_not_isCoinBase hcb, List.map_map]
      rfl
    rw [Ledger.connect, hins, show CDiskTxPos.inMemory = mode.posThisTx from rfl, hledger,
      queued_insert]
    rfl
  have hexact : int64 (totalValue vout - totalValue tx.vout) =
      totalValue vout - totalValue tx.vout := int64_eq ⟨by omega, by omega⟩
  exact ⟨vout, hspends, hconnects, hpays, ⟨hlo', hhi'⟩, hsize, hsigops, by rw [hexact]⟩

/-! ## The block so far -/

/-- The pool as `AcceptToMemoryPool` fills it. -/
structure PoolWf (P : Params) (m : Miner) : Prop where
  /-- a transaction is under its hash -/
  keyed : ∀ hash tx, m.mapTx[hash]? = some tx → P.getHash tx = hash
  /-- one that is in the chain already spends what the index marks as spent -/
  settled : ∀ hash tx, m.mapTx[hash]? = some tx → (m.V.txIndex hash).isSome →
    ∃ txin ∈ tx.vin, Ledger.Filled m.V.txIndex txin.prevout.output

theorem mem_poolTxs {tx : CTransaction} : tx ∈ m.poolTxs ↔
    ∃ hash : UInt256, m.mapTx[hash]? = some tx := by
  unfold poolTxs
  rw [List.mem_map]
  constructor
  · rintro ⟨⟨hash, tx⟩, hmem, rfl⟩
    exact ⟨hash, Std.TreeMap.mem_toList_iff_getElem?_eq_some.mp hmem⟩
  · rintro ⟨hash, htx⟩
    exact ⟨(hash, tx), Std.TreeMap.mem_toList_iff_getElem?_eq_some.mpr htx, rfl⟩

theorem PoolWf.getElem? (hwf : PoolWf P m) {tx : CTransaction} (h : tx ∈ m.poolTxs) :
    m.mapTx[P.getHash tx]? = some tx := by
  obtain ⟨hash, htx⟩ := mem_poolTxs.mp h
  rw [hwf.keyed hash tx htx]
  exact htx

theorem Ready.not_isCoinBase {tx : CTransaction} (h : m.Ready tx) : ¬ tx.isCoinBase :=
  fun hcb ↦ h.considers (Or.inl hcb)

theorem Ready.not_isCoinStake {tx : CTransaction} (h : m.Ready tx) : ¬ tx.isCoinStake :=
  fun hcs ↦ h.considers (Or.inr (Or.inl hcs))

/-- A transaction that the first loop has passed. -/
def Listed (m : Miner) (tx : CTransaction) : Prop := tx ∈ m.poolTxs ∧ m.Ready tx

theorem ins_of_listed {tx : CTransaction} (h : m.Listed tx) :
    (ledgerTx P tx).ins = tx.vin.map fun txin ↦ txin.prevout.output := by
  rw [show (ledgerTx P tx).ins = tx.spends.map COutPoint.output from rfl,
    spends_of_not_isCoinBase h.2.not_isCoinBase, List.map_map]
  rfl

/-- The transactions of the block so far are sound. -/
structure Filling (P : Params) (m : Miner) (a : Assembly) : Prop where
  listed : ∀ tx ∈ a.vtx, m.Listed tx
  fresh : Ledger.Fresh m.V.txIndex (placedTxs P a.vtx)
  connects : Ledger.connectAll m.V.txIndex (placedTxs P a.vtx) = some (queued m.V a.mapTestPool)
  found : ∀ tx ∈ a.vtx, ∀ txin ∈ tx.vin, (m.V.coin txin.prevout).isSome
  pays : ∀ tx ∈ a.vtx, 0 < m.fee tx
  size : a.nBlockSize = 1000 + (a.vtx.map CTransaction.serializeSize).sum
  size_le : a.nBlockSize ≤ MAX_BLOCK_SIZE - 1000
  sigOps : a.nBlockSigOps = 100 + (a.vtx.map (m.sigOps P)).sum
  sigOps_lt : a.nBlockSigOps < MAX_BLOCK_SIGOPS
  fees : a.nFees = int64 (a.vtx.map m.fee).sum

theorem filling_start (c : Collected) : Filling P m (start c) where
  listed := nofun
  fresh := ⟨List.nodup_nil, nofun, nofun⟩
  connects := by
    rw [show (start c).mapTestPool = ∅ from rfl, queued_empty]
    rfl
  found := nofun
  pays := nofun
  size := rfl
  size_le := show 1000 ≤ MAX_BLOCK_SIZE - 1000 by decide
  sigOps := rfl
  sigOps_lt := show 100 < MAX_BLOCK_SIGOPS by decide
  fees := rfl

theorem nBlockMaxSize_le (m : Miner) : m.nBlockMaxSize ≤ MAX_BLOCK_SIZE - 1000 := by
  have hmax : 1000 ≤ MAX_BLOCK_SIZE - 1000 := by decide
  exact max_le hmax (min_le_left _ _)

theorem placedTxs_append (vtx vtx' : List CTransaction) :
    placedTxs P (vtx ++ vtx') = placedTxs P vtx ++ placedTxs P vtx' := List.map_append

namespace Filling

variable {a a' : Assembly} {tx : CTransaction}

/-- What a transaction spends, in whatever state of the loop. -/
theorem coins (h : Filling P m a) {vin : List CTxIn} {vout : List CTxOut}
    (hs : SpendsOutputs m.V (Bws.queued m.V a.mapTestPool) vin vout) :
    List.Forall₂ (fun txin txout ↦ m.V.coin txin.prevout = some txout) vin vout :=
  hs.imp fun _ _ hout ↦ coin_of_outputIn h.fresh h.connects hout

theorem fee_eq (h : Filling P m a) {vout : List CTxOut} (hadd : Added P m a tx vout a') :
    m.fee tx = totalValue vout - totalValue tx.vout := by
  rw [Miner.fee, sum_inputValue (h.coins hadd.spends)]

/-- A transaction that can be connected is new, to the chain and to the block. -/
theorem new_of_added (hwf : PoolWf P m) (h : Filling P m a) (htx : m.Listed tx) {vout : List CTxOut}
    (hadd : Added P m a tx vout a') :
    m.V.txIndex (P.getHash tx) = none ∧ ∀ tx' ∈ a.vtx, P.getHash tx' ≠ P.getHash tx := by
  have hkey := hwf.getElem? htx.1
  -- what it spends has not been spent in the chain or in the block
  have hnot : ∀ txin ∈ tx.vin,
      ¬ Ledger.Filled (Bws.queued m.V a.mapTestPool) txin.prevout.output := fun txin hmem ↦ by
    refine Ledger.not_filled_of_connect ?_ hadd.connects
    rw [ins_of_listed htx]
    exact List.mem_map_of_mem hmem
  constructor
  · by_contra hne
    obtain ⟨txin, hmem, hfilled⟩ := hwf.settled _ tx hkey (Option.isSome_iff_ne_none.mpr hne)
    exact hnot txin hmem (hfilled.connectAll h.fresh h.connects)
  · intro tx' hmem' heq
    have hkey' := hwf.getElem? (h.listed tx' hmem').1
    rw [heq, hkey] at hkey'
    cases hkey'
    have hvin : tx.vin ≠ [] := by
      intro hnil
      have hspends := hadd.spends
      rw [hnil] at hspends
      cases hspends
      have hpays := hadd.pays
      have hrange := hadd.rangeOut.1
      rw [totalValue_nil] at hpays
      omega
    obtain ⟨txin, hmem⟩ := List.exists_mem_of_ne_nil _ hvin
    refine hnot txin hmem (Ledger.filled_of_connectAll h.fresh h.connects _ ?_).2
    refine List.mem_flatMap.mpr ⟨_, List.mem_map_of_mem hmem', ?_⟩
    rw [ins_of_listed htx]
    exact List.mem_map_of_mem hmem

/-- **Adding a transaction to the block.** -/
theorem added (hwf : PoolWf P m) (h : Filling P m a) (htx : m.Listed tx) {vout : List CTxOut}
    (hadd : Added P m a tx vout a') : Filling P m a' := by
  have hcoins := h.coins hadd.spends
  have hfee := h.fee_eq hadd
  have hops : m.sigOps P tx = getLegacySigOpCount P tx +
      (List.zipWith (redeemSigOps P) tx.vin vout).sum := by
    rw [Miner.sigOps, sum_redeemSigOps hcoins]
  obtain ⟨hnone, hnew⟩ := new_of_added hwf h htx hadd
  have hvtx : a'.vtx = a.vtx ++ [tx] := congrArg Assembly.vtx hadd.eq
  have hsize := hadd.size
  have hmaxSize := m.nBlockMaxSize_le
  have hall : ∀ {p : CTransaction → Prop},
      (∀ tx' ∈ a.vtx, p tx') → p tx → ∀ tx' ∈ a'.vtx, p tx' := by
    intro p hold hlast tx' hmem
    rw [hvtx] at hmem
    rcases List.mem_append.mp hmem with hmem | hmem
    · exact hold tx' hmem
    · rwa [List.mem_singleton.mp hmem]
  refine ⟨hall h.listed htx, ?_, ?_, hall h.found ?_, hall h.pays ?_, ?_, ?_, ?_, ?_, ?_⟩
  · rw [hvtx, placedTxs_append]
    refine h.fresh.concat rfl hnone fun tp hmem ↦ ?_
    obtain ⟨tx', hmem', rfl⟩ := List.mem_map.mp hmem
    exact hnew tx' hmem'
  · rw [hvtx, placedTxs_append, Ledger.connectAll_append, h.connects, Option.bind_some]
    exact Option.bind_eq_some_iff.mpr ⟨_, hadd.connects, rfl⟩
  · exact isSome_coin hcoins
  · rw [hfee]
    exact hadd.pays
  · rw [hvtx, hadd.eq]
    simp only [List.map_append, List.sum_append, List.map_cons, List.map_nil, List.sum_singleton]
    rw [h.size]
    omega
  · rw [hadd.eq]
    dsimp only
    omega
  · rw [hvtx, hadd.eq]
    simp only [List.map_append, List.sum_append, List.map_cons, List.map_nil, List.sum_singleton]
    rw [hops, h.sigOps]
    omega
  · rw [hadd.eq]
    exact hadd.sigOps
  · rw [hvtx, hadd.eq]
    simp only [List.map_append, List.sum_append, List.map_cons, List.map_nil, List.sum_singleton]
    rw [hfee, h.fees]
    exact Int.bmod_add_bmod

end Filling

/-! ## Releasing the records that wait -/

/-- The record is still waiting for a transaction. -/
def isWaiting (r : Option COrphan) : Bool := r.any fun orphan ↦ orphan.setDependsOn ≠ ∅

/-- The rounds that are left at most. -/
def roundsLeft (vOrphan : OrphanList) (vecPriority : List CTransaction) : ℕ :=
  vecPriority.length + vOrphan.countP isWaiting

/-- The records that are erased are those that `c` has erased, and everything in a record or in the
queue has passed the first loop. -/
structure Records (m : Miner) (c : Collected) (vOrphan : OrphanList)
    (vecPriority : List CTransaction) : Prop where
  length : vOrphan.length = c.vOrphan.length
  erased : ∀ p : ℕ, vOrphan[p]? = some none ↔ c.vOrphan[p]? = some none
  orphan : ∀ orphan : COrphan, some orphan ∈ vOrphan → m.Listed orphan.ptx
  queue : ∀ tx ∈ vecPriority, m.Listed tx

theorem records_start {c : Collected} (h : m.Tracks m.poolTxs c) :
    Records m c c.vOrphan c.vecPriority where
  length := rfl
  erased _ := Iff.rfl
  orphan := h.orphan
  queue := h.queue

section

variable {c : Collected} {vOrphan : OrphanList} {vecPriority : List CTransaction}

/-- A record that is there is replaced. -/
theorem Records.set (h : Records m c vOrphan vecPriority) {p : ℕ} {orphan orphan' : COrphan}
    (hp : vOrphan[p]? = some (some orphan)) (hptx : orphan'.ptx = orphan.ptx) :
    Records m c (vOrphan.set p (some orphan')) vecPriority where
  length := (List.length_set ..).trans h.length
  erased q := by
    by_cases heq : q = p
    · subst heq
      have hlt := (List.getElem?_eq_some_iff.mp hp).1
      rw [List.getElem?_set_self hlt, ← h.erased, hp]
      simp
    · rw [List.getElem?_set_ne (Ne.symm heq), h.erased]
  orphan o hmem := by
    rcases List.mem_or_eq_of_mem_set hmem with hmem | heq
    · exact h.orphan o hmem
    · rw [Option.some.inj heq, hptx]
      exact h.orphan orphan (List.mem_of_getElem? hp)
  queue := h.queue

theorem Records.push (h : Records m c vOrphan vecPriority) {orphan : COrphan}
    (hmem : some orphan ∈ vOrphan) : Records m c vOrphan (vecPriority ++ [orphan.ptx]) where
  length := h.length
  erased := h.erased
  orphan := h.orphan
  queue tx htx := by
    rcases List.mem_append.mp htx with htx | htx
    · exact h.queue tx htx
    · rw [List.mem_singleton.mp htx]
      exact h.orphan orphan hmem

/-- A record that is released is not waiting anymore when it goes into the queue. -/
theorem roundsLeft_release {p : ℕ} {orphan : COrphan} (hp : vOrphan[p]? = some (some orphan))
    (hwaits : orphan.setDependsOn ≠ ∅) (orphan' : COrphan) (vecPriority : List CTransaction) :
    roundsLeft (vOrphan.set p (some orphan'))
      (if orphan'.setDependsOn = ∅ then vecPriority ++ [orphan'.ptx] else vecPriority) ≤
        roundsLeft vOrphan vecPriority := by
  obtain ⟨hlt, hget⟩ := List.getElem?_eq_some_iff.mp hp
  have hold : isWaiting vOrphan[p] = true := by
    rw [hget]
    exact decide_eq_true hwaits
  have hpos : 0 < vOrphan.countP isWaiting :=
    List.countP_pos_iff.mpr ⟨vOrphan[p], List.getElem_mem hlt, hold⟩
  unfold roundsLeft
  rw [List.countP_set hlt, if_pos hold]
  by_cases hnew : orphan'.setDependsOn = ∅
  · rw [if_pos hnew, if_neg (by simp [isWaiting, hnew]), List.length_append, List.length_singleton]
    omega
  · rw [if_neg hnew, if_pos (by simp [isWaiting, hnew])]
    omega

/-- **Releasing the records** uses an erased one, or keeps everything in order. -/
theorem releaseOrphans_cases (hash : UInt256) {ps : List ℕ} :
    ∀ {vOrphan vecPriority}, Records m c vOrphan vecPriority →
      (∀ p ∈ ps, p < c.vOrphan.length) →
        ((∃ p ∈ ps, c.vOrphan[p]? = some none) ∧
            releaseOrphans hash vOrphan vecPriority ps = .error .dangling) ∨
          ((¬ ∃ p ∈ ps, c.vOrphan[p]? = some none) ∧ ∃ vOrphan' vecPriority',
            releaseOrphans hash vOrphan vecPriority ps = .ok (vOrphan', vecPriority') ∧
              Records m c vOrphan' vecPriority' ∧
                roundsLeft vOrphan' vecPriority' ≤ roundsLeft vOrphan vecPriority) := by
  induction ps with
  | nil => exact fun h _ ↦ Or.inr ⟨by simp, _, _, rfl, h, le_rfl⟩
  | cons p ps ih =>
    intro vOrphan vecPriority h hbound
    rw [List.forall_mem_cons] at hbound
    rw [List.exists_mem_cons_iff, releaseOrphans]
    have hlt : p < vOrphan.length := hbound.1.trans_eq h.length.symm
    cases hentry : vOrphan[p] with
    | none =>
      have hp : vOrphan[p]? = some none := List.getElem?_eq_some_iff.mpr ⟨hlt, hentry⟩
      rw [hp]
      exact Or.inl ⟨Or.inl ((h.erased p).mp hp), rfl⟩
    | some orphan =>
      have hp : vOrphan[p]? = some (some orphan) := List.getElem?_eq_some_iff.mpr ⟨hlt, hentry⟩
      have hnot : ¬ c.vOrphan[p]? = some none := by
        rw [← h.erased, hp]
        simp
      rw [or_iff_right hnot, hp, Option.join_some]
      dsimp only
      by_cases hdone : orphan.setDependsOn = ∅
      · rw [if_pos hdone]
        exact ih h hbound.2
      · rw [if_neg hdone]
        have hset : Records m c (vOrphan.set p (some (orphan.eraseDependsOn hash))) vecPriority :=
          h.set hp rfl
        have hstep : Records m c (vOrphan.set p (some (orphan.eraseDependsOn hash)))
            (if (orphan.eraseDependsOn hash).setDependsOn = ∅ then
              vecPriority ++ [(orphan.eraseDependsOn hash).ptx] else vecPriority) := by
          split
          · exact hset.push (List.mem_set hlt _)
          · exact hset
        have hleft := roundsLeft_release hp hdone (orphan.eraseDependsOn hash) vecPriority
        rcases ih hstep hbound.2 with hdangling | ⟨hall, vOrphan', vecPriority', hok, hrec, hle⟩
        · exact Or.inl hdangling
        · exact Or.inr ⟨hall, vOrphan', vecPriority', hok, hrec, hle.trans hleft⟩

end

/-! ## The rounds of the loop -/

/-- The states that the second loop comes to, with the number of the round that begins there. -/
inductive Rounds (P : Params) (m : Miner) (c : Collected) (n : ℕ) : ℕ → Assembly → Prop
  | start : Rounds P m c n 0 (start c)
  | next {round : ℕ} {a a' : Assembly} {tx : CTransaction} (h : Rounds P m c n round a)
      (hfront : m.frontTx round a = some tx)
      (hround : m.minerRound P c.mapDependers n (m.popFront round a) tx = .ok a') :
    Rounds P m c n (round + 1) a'

/-- How a round ends. -/
inductive Ends (P : Params) (m : Miner) (c : Collected) (n : ℕ) (a : Assembly) (tx : CTransaction) :
    Except MinerFault Assembly → Prop
  | passed (hadd : ¬ (m.addTx P n a tx).isOk) : Ends P m c n a tx (.ok a)
  | dangling (hadd : (m.addTx P n a tx).isOk) (hawaited : m.AwaitedByDropped (P.getHash tx)) :
    Ends P m c n a tx (.error .dangling)
  | taken {a' : Assembly} (hadd : (m.addTx P n a tx).isOk)
      (hawaited : ¬ m.AwaitedByDropped (P.getHash tx)) (hvtx : a'.vtx = a.vtx ++ [tx])
      (hfilling : Filling P m a') (hrecords : Records m c a'.vOrphan a'.vecPriority)
      (hleft : roundsLeft a'.vOrphan a'.vecPriority ≤ roundsLeft a.vOrphan a.vecPriority) :
    Ends P m c n a tx (.ok a')

section

variable {c : Collected} {n round : ℕ} {a a' : Assembly} {tx : CTransaction}

theorem Records.front (h : Records m c a.vOrphan a.vecPriority)
    (hfront : m.frontTx round a = some tx) : m.Listed tx :=
  h.queue tx (List.mem_of_getElem? hfront)

theorem Records.popFront (h : Records m c a.vOrphan a.vecPriority) (round : ℕ) :
    Records m c (m.popFront round a).vOrphan (m.popFront round a).vecPriority where
  length := h.length
  erased := h.erased
  orphan := h.orphan
  queue tx hmem := h.queue tx (List.mem_of_mem_eraseIdx hmem)

theorem roundsLeft_popFront (hfront : m.frontTx round a = some tx) :
    roundsLeft (m.popFront round a).vOrphan (m.popFront round a).vecPriority + 1 =
      roundsLeft a.vOrphan a.vecPriority := by
  have hlt := (List.getElem?_eq_some_iff.mp hfront).1
  have hlen : (a.vecPriority.eraseIdx (m.frontPlace round a)).length + 1 =
      a.vecPriority.length := by
    rw [List.length_eraseIdx_of_lt hlt]
    omega
  unfold roundsLeft Miner.popFront
  dsimp only
  omega

theorem Filling.popFront (h : Filling P m a) (round : ℕ) : Filling P m (m.popFront round a) :=
  ⟨h.listed, h.fresh, h.connects, h.found, h.pays, h.size, h.size_le, h.sigOps, h.sigOps_lt, h.fees⟩

/-- Nothing is thrown for a transaction that has passed the first loop. -/
theorem clean_addTx (htx : m.Ready tx) : Clean (m.addTx P n a tx) := by
  obtain ⟨nValueOut, hvalue⟩ := htx.value
  refine .bind (.rejectIf _ _ _) fun _ _ ↦ .bind (.rejectIf _ _ _) fun _ _ ↦
    .bind (.rejectIf _ _ _) fun _ _ ↦ .bind (.rejectIf _ _ _) fun _ _ ↦
    .bind (clean_fetchInputs tx) fun inputs hin ↦ ?_
  have hf := (fetchInputs_eq_ok htx.not_isCoinBase hin).1
  exact .bind (clean_getValueIn fun _ ↦ hf) fun _ _ ↦ .bind (.of_eq_ok hvalue) fun _ _ ↦
    .bind (.rejectIf _ _ _) fun _ _ ↦ .bind (clean_getP2SHSigOpCount fun _ ↦ hf) fun _ _ ↦
    .bind (.rejectIf _ _ _) fun _ _ ↦ .bind (clean_connectInputs hvalue (fun _ ↦ hf) _) fun _ _ ↦
    .ok _

/-- **One round.** -/
theorem ends_minerRound (hwf : PoolWf P m) (hc : m.Tracks m.poolTxs c) (h : Filling P m a)
    (hr : Records m c a.vOrphan a.vecPriority) (htx : m.Listed tx) :
    Ends P m c n a tx (m.minerRound P c.mapDependers n a tx) := by
  unfold minerRound
  cases hadd : m.addTx P n a tx with
  | error e =>
    have hnot : ¬ (m.addTx P n a tx).isOk := by
      rw [hadd]
      exact Bool.false_ne_true
    cases e with
    | thrown msg => exact absurd hadd (clean_addTx htx.2 msg)
    | rejected nDoS msg => exact .passed hnot
  | ok a₁ =>
    have hok : (m.addTx P n a tx).isOk := by
      rw [hadd]
      rfl
    obtain ⟨vout, hadded⟩ := added_of_addTx htx.2.not_isCoinBase htx.2.not_isCoinStake hadd
    have hv : a₁.vOrphan = a.vOrphan := by rw [hadded.eq]
    have hq : a₁.vecPriority = a.vecPriority := by rw [hadded.eq]
    have hvtx : a₁.vtx = a.vtx ++ [tx] := by rw [hadded.eq]
    have hfilling := h.added hwf htx hadded
    dsimp only
    rw [hv, hq]
    rcases releaseOrphans_cases (P.getHash tx) hr (hc.bound (P.getHash tx)) with
      ⟨herased, hdangling⟩ | ⟨hnone, vOrphan, vecPriority, hrelease, hrecords, hle⟩
    · rw [hdangling]
      exact .dangling hok ((hc.erased _).mp herased)
    · rw [hrelease]
      exact .taken hok (fun hawaited ↦ hnone ((hc.erased _).mpr hawaited)) hvtx
        ⟨hfilling.listed, hfilling.fresh, hfilling.connects, hfilling.found, hfilling.pays,
          hfilling.size, hfilling.size_le, hfilling.sigOps, hfilling.sigOps_lt, hfilling.fees⟩
        hrecords hle

/-- **What holds in every round.** -/
structure InOrder (P : Params) (m : Miner) (c : Collected) (round : ℕ) (a : Assembly) : Prop where
  filling : Filling P m a
  records : Records m c a.vOrphan a.vecPriority
  left : round + roundsLeft a.vOrphan a.vecPriority ≤ roundsLeft c.vOrphan c.vecPriority

theorem InOrder.ends (hwf : PoolWf P m) (hc : m.Tracks m.poolTxs c) (h : InOrder P m c round a)
    (hfront : m.frontTx round a = some tx) : Ends P m c n (m.popFront round a) tx
      (m.minerRound P c.mapDependers n (m.popFront round a) tx) :=
  ends_minerRound hwf hc (h.filling.popFront round) (h.records.popFront round)
    (h.records.front hfront)

theorem InOrder.next (hwf : PoolWf P m) (hc : m.Tracks m.poolTxs c) (h : InOrder P m c round a)
    (hfront : m.frontTx round a = some tx)
    (hround : m.minerRound P c.mapDependers n (m.popFront round a) tx = .ok a') :
    InOrder P m c (round + 1) a' ∧
      (¬ (m.addTx P n (m.popFront round a) tx).isOk ∧ a'.vtx = a.vtx ∨
        (m.addTx P n (m.popFront round a) tx).isOk ∧ a'.vtx = a.vtx ++ [tx]) := by
  have hends := h.ends (n := n) hwf hc hfront
  have hleft := roundsLeft_popFront hfront
  have hold := h.left
  rw [hround] at hends
  cases hends with
  | passed hadd =>
    exact ⟨⟨h.filling.popFront round, h.records.popFront round, by omega⟩, Or.inl ⟨hadd, rfl⟩⟩
  | taken hadd _ hvtx hfilling hrecords hle =>
    exact ⟨⟨hfilling, hrecords, by omega⟩, Or.inr ⟨hadd, hvtx⟩⟩

theorem Rounds.inOrder (hwf : PoolWf P m) (hc : m.Tracks m.poolTxs c)
    (h : Rounds P m c n round a) : InOrder P m c round a := by
  induction h with
  | start => exact ⟨filling_start c, records_start hc, (Nat.zero_add _).le⟩
  | next _ hfront hround ih => exact (ih.next hwf hc hfront hround).1

/-! ## The run -/

/-- The loop goes through the rounds. -/
theorem Rounds.minerLoop_eq (h : Rounds P m c n round a) : ∀ fuel,
    m.minerLoop P c.mapDependers n (round + fuel) 0 (Miner.start c) =
      m.minerLoop P c.mapDependers n fuel round a := by
  induction h with
  | start =>
    intro fuel
    rw [Nat.zero_add]
  | @next round a a' tx _ hfront hround ih =>
    intro fuel
    rw [Nat.add_assoc, Nat.add_comm 1 fuel, ih, minerLoop, hfront]
    dsimp only
    rw [hround]
    rfl

/-- From each of the rounds the loop comes to its end, or to the use of an erased record. -/
theorem Rounds.minerLoop_cases (hwf : PoolWf P m) (hc : m.Tracks m.poolTxs c) {fuel : ℕ} :
    ∀ {round a}, Rounds P m c n round a → roundsLeft a.vOrphan a.vecPriority < fuel →
      ∃ round' a', Rounds P m c n round' a' ∧ a.vtx <+: a'.vtx ∧
        (m.minerLoop P c.mapDependers n fuel round a = .ok a' ∨
          ∃ tx, m.frontTx round' a' = some tx ∧
            (m.addTx P n (m.popFront round' a') tx).isOk ∧ m.AwaitedByDropped (P.getHash tx) ∧
              m.minerLoop P c.mapDependers n fuel round a = .error .dangling) := by
  induction fuel with
  | zero => exact fun _ hlt ↦ absurd hlt (Nat.not_lt_zero _)
  | succ fuel ih =>
    intro round a h hlt
    have hin := h.inOrder hwf hc
    rw [minerLoop]
    cases hfront : m.frontTx round a with
    | none => exact ⟨round, a, h, List.prefix_rfl, Or.inl rfl⟩
    | some tx =>
      dsimp only
      have hends := hin.ends (n := n) hwf hc hfront
      cases hround : m.minerRound P c.mapDependers n (m.popFront round a) tx with
      | error e =>
        rw [hround] at hends
        cases hends with
        | dangling hadd hawaited =>
          exact ⟨round, a, h, List.prefix_rfl, Or.inr ⟨tx, hfront, hadd, hawaited, rfl⟩⟩
      | ok a₁ =>
        obtain ⟨hin₁, hvtx⟩ := hin.next hwf hc hfront hround
        have hnext := Rounds.next h hfront hround
        have hext : a.vtx <+: a₁.vtx := by
          rcases hvtx with ⟨-, hvtx⟩ | ⟨-, hvtx⟩
          · rw [hvtx]
          · rw [hvtx]
            exact List.prefix_append _ _
        have hlt₁ : roundsLeft a₁.vOrphan a₁.vecPriority < fuel := by
          have hpop := roundsLeft_popFront hfront
          rw [hround] at hends
          cases hends with
          | passed => omega
          | taken _ _ _ _ _ hle => omega
        obtain ⟨round', a', h', hext', hend⟩ := ih hnext hlt₁
        exact ⟨round', a', h', hext.trans hext', hend⟩

end

end

/-! ## The block -/

/-- What the block body must be, and the fees that go with it. -/
structure SoundBlock (block : CBlock) (nFees : ℤ) : Prop where
  coinbase : block.vtx ≠ []
  pool : ∀ tx ∈ block.vtx.tail, m.mapTx[P.getHash tx]? = some tx
  /-- no transaction of the chain is repeated, and none of the block -/
  fresh : ∀ tx ∈ block.vtx.tail, m.V.txIndex (P.getHash tx) = none
  distinct : (block.vtx.tail.map P.getHash).Nodup
  /-- what a transaction of the block spends is in the chain, or earlier in the block -/
  found : ∀ A tx B, block.vtx.tail = A ++ tx :: B → ∀ txin ∈ tx.vin,
    (m.V.coin txin.prevout).isSome ∧
      ((m.V.txIndex txin.prevout.hash).isSome ∨ txin.prevout.hash ∈ A.map P.getHash)
  /-- a parent from the pool that is not in the chain comes before its children -/
  parents : ∀ A tx B, block.vtx.tail = A ++ tx :: B → ∀ txin ∈ tx.vin, ∀ parent,
    m.mapTx[txin.prevout.hash]? = some parent → m.V.txIndex txin.prevout.hash = none → parent ∈ A
  noDoubleSpend : (block.vtx.tail.flatMap fun tx ↦ tx.vin.map CTxIn.prevout).Nodup
  unspent : ∀ tx ∈ block.vtx.tail, ∀ txin ∈ tx.vin,
    ¬ Ledger.Filled m.V.txIndex txin.prevout.output
  size : (block.vtx.map CTransaction.serializeSize).sum < MAX_BLOCK_SIZE
  sigOps : 100 + (block.vtx.tail.map (m.sigOps P)).sum < MAX_BLOCK_SIGOPS
  fees : nFees = (block.vtx.tail.map m.fee).sum

/-- `CreateNewBlock` ends, uses no record that has been erased, and returns sound blocks. -/
structure BuildsSoundly : Prop where
  ends : m.createNewBlock P ≠ .error .outOfFuel
  noDangling : m.createNewBlock P ≠ .error .dangling
  sound : ∀ block nFees, m.createNewBlock P = .ok (some (block, nFees)) → SoundBlock P m block nFees

/-- The run comes to the second loop, with this coinbase and what the first loop has collected. -/
structure Begins (txNew : CTransaction) (c : Collected) : Prop where
  coinbase : m.coinbase = .ok (some txNew)
  collects : m.collectTxs .init m.poolTxs = .ok c

section

variable {P m} {c : Collected} {n round : ℕ} {a a' : Assembly} {tx txNew : CTransaction}

theorem Begins.tracks (h : m.Begins txNew c) : m.Tracks m.poolTxs c :=
  (tracks_init m).collectTxs h.collects

theorem length_setDestination (id : CKeyID) : (setDestination (.keyID id)).length = 25 := by
  have hlen : (Codec.toLE 20 id).length = 20 := Codec.length_toLE 20 id
  have hpush : (20 : ℕ) < OP_PUSHDATA1.toNat := by decide
  simp [setDestination, pushData, hlen, hpush]

theorem getSizeOfCompactSize_le (nSize : ℕ) : getSizeOfCompactSize nSize ≤ 9 := by
  unfold getSizeOfCompactSize
  split_ifs <;> omega

/-- One input with a short script, and one output with a short script. -/
def ShortScripts (tx : CTransaction) : Prop :=
  ∃ txin txout, tx.vin = [txin] ∧ tx.vout = [txout] ∧ txin.scriptSig.length ≤ 100 ∧
    txout.scriptPubKey.length ≤ 25

theorem ShortScripts.size_lt (h : ShortScripts tx) : tx.serializeSize < 1000 := by
  obtain ⟨txin, txout, hvin, hvout, hsig, hkey⟩ := h
  have hin := getSizeOfCompactSize_le tx.vin.length
  have hout := getSizeOfCompactSize_le tx.vout.length
  have hsigSize := getSizeOfCompactSize_le txin.scriptSig.length
  have hkeySize := getSizeOfCompactSize_le txout.scriptPubKey.length
  unfold CTransaction.serializeSize
  rw [hvin] at hin ⊢
  rw [hvout] at hout ⊢
  simp only [List.map_cons, List.map_nil, List.sum_singleton, CTxIn.serializeSize,
    CTxOut.serializeSize]
  omega

theorem shortScripts_of_coinbase (h : m.coinbase = .ok (some txNew)) : ShortScripts txNew := by
  unfold Miner.coinbase at h
  dsimp only at h
  split at h
  · split at h
    · rename_i hlen
      cases h
      exact ⟨_, _, rfl, rfl, hlen, Nat.zero_le _⟩
    · cases h
  · obtain ⟨id, -, rfl⟩ := Option.map_eq_some_iff.mp (Except.ok.inj h)
    exact ⟨_, _, rfl, rfl, Nat.zero_le _, (length_setDestination id).le⟩

/-- The whole block, the coinbase included, stays below the limit. -/
theorem Filling.size_lt (h : Filling P m a) (hcb : m.coinbase = .ok (some txNew)) :
    ((m.fillIn P txNew a).vtx.map CTransaction.serializeSize).sum < MAX_BLOCK_SIZE := by
  obtain ⟨txin, txout, hvin, hvout, hsig, hkey⟩ := shortScripts_of_coinbase hcb
  obtain ⟨txNew', hvtx, hshort⟩ : ∃ txNew', (m.fillIn P txNew a).vtx = txNew' :: a.vtx ∧
      ShortScripts txNew' := by
    refine ⟨_, rfl, ?_⟩
    split
    · exact ⟨txin, txout, hvin, hvout, hsig, hkey⟩
    · exact ⟨txin, _, hvin, congrArg _ hvout, hsig, hkey⟩
  have hlt := hshort.size_lt
  have hsum := h.size
  have hle := h.size_le
  have hmax : 1000 ≤ MAX_BLOCK_SIZE := by decide
  rw [hvtx, List.map_cons, List.sum_cons]
  omega

/-- **A state of the loop is a sound block**, apart from what the fees add up to. -/
theorem Filling.soundBlock (hwf : PoolWf P m) (h : Filling P m a)
    (hcb : m.coinbase = .ok (some txNew)) (hfees : a.nFees = (a.vtx.map m.fee).sum) :
    SoundBlock P m (m.fillIn P txNew a) a.nFees := by
  have htail : (m.fillIn P txNew a).vtx.tail = a.vtx := rfl
  have hins : (placedTxs P a.vtx).flatMap (·.1.ins) =
      (a.vtx.flatMap fun tx ↦ tx.vin.map CTxIn.prevout).map COutPoint.output := by
    rw [placedTxs, List.flatMap_map, List.map_flatMap]
    refine List.flatMap_congr fun tx hmem ↦ ?_
    rw [ins_of_listed (h.listed tx hmem), List.map_map]
    rfl
  have hfound : ∀ A tx B, a.vtx = A ++ tx :: B → ∀ txin ∈ tx.vin,
      (m.V.txIndex txin.prevout.hash).isSome ∨ txin.prevout.hash ∈ A.map P.getHash := by
    intro A tx B hsplit txin hmem
    have hall : Ledger.connectAll m.V.txIndex
        (placedTxs P A ++ (ledgerTx P tx, .inMemory) :: placedTxs P B) =
          some (queued m.V a.mapTestPool) := by
      rw [← h.connects, hsplit, placedTxs_append]
      rfl
    have hlisted := h.listed tx (by rw [hsplit]; simp)
    have ho : txin.prevout.output ∈ (ledgerTx P tx).ins := by
      rw [ins_of_listed hlisted]
      exact List.mem_map_of_mem hmem
    rcases Ledger.isSome_or_mem_of_connectAll hall ho with hold | ⟨tp, htp, hid⟩
    · exact Or.inl hold
    · obtain ⟨tx', hmem', rfl⟩ := List.mem_map.mp htp
      exact Or.inr (List.mem_map.mpr ⟨tx', hmem', hid⟩)
  refine ⟨List.cons_ne_nil _ _, ?_, ?_, ?_, ?_, ?_, ?_, ?_, h.size_lt hcb, ?_, ?_⟩
  all_goals rw [htail]
  · exact fun tx hmem ↦ hwf.getElem? (h.listed tx hmem).1
  · exact fun tx hmem ↦ h.fresh.notMem _ (List.mem_map_of_mem hmem)
  · have hnodup := h.fresh.nodup
    rwa [placedTxs, List.map_map] at hnodup
  · intro A tx B hsplit txin hmem
    exact ⟨h.found tx (by rw [hsplit]; simp) txin hmem, hfound A tx B hsplit txin hmem⟩
  · intro A tx B hsplit txin hmem parent hparent hnone
    rcases hfound A tx B hsplit txin hmem with hold | hmem'
    · rw [hnone] at hold
      cases hold
    · obtain ⟨tx', hmem', hid⟩ := List.mem_map.mp hmem'
      have hkey := hwf.getElem? (h.listed tx' (by rw [hsplit]; simp [hmem'])).1
      rw [hid, hparent] at hkey
      rwa [Option.some.inj hkey]
  · have hnodup := h.fresh.nodup_ins h.connects
    rw [hins] at hnodup
    exact List.Nodup.of_map _ hnodup
  · intro tx hmem txin hin
    refine (Ledger.filled_of_connectAll h.fresh h.connects _ ?_).1
    rw [hins]
    exact List.mem_map_of_mem (List.mem_flatMap.mpr ⟨tx, hmem, List.mem_map_of_mem hin⟩)
  · have hsum := h.sigOps
    have hlt := h.sigOps_lt
    omega
  · exact hfees

/-! ## The whole run -/

theorem collectInputs_error {vin : List CTxIn} {e : MinerFault} :
    ∀ {c porphan}, m.collectInputs tx c porphan vin = .error e → ∃ msg, e = .thrown msg := by
  induction vin with
  | nil => exact fun h ↦ nomatch h
  | cons txin vin ih =>
    intro c porphan h
    unfold collectInputs at h
    split at h
    · exact ih h
    · split at h
      · cases porphan with
        | some p => exact ih h
        | none => exact ih h
      · split at h
        · cases h
          exact ⟨_, rfl⟩
        · cases h

theorem liftFault_error {α : Type} {x : Except Fault α} {e : MinerFault}
    (h : liftFault x = .error e) : ∃ msg, e = .thrown msg := by
  unfold liftFault at h
  split at h
  · cases h
    exact ⟨_, rfl⟩
  · cases h
    exact ⟨_, rfl⟩
  · cases h

theorem collectTx_error {e : MinerFault} (h : m.collectTx c tx = .error e) :
    ∃ msg, e = .thrown msg := by
  unfold Miner.collectTx at h
  split at h
  · cases h
  · rcases bind_eq_error.mp h with h | ⟨⟨c', porphan, fMissingInputs⟩, -, h⟩
    · exact collectInputs_error h
    · dsimp only at h
      split at h
      · cases h
      · rcases bind_eq_error.mp h with h | ⟨nValueOut, -, h⟩
        · exact liftFault_error h
        · split at h <;> cases h

theorem collectTxs_error {vtx : List CTransaction} {e : MinerFault} :
    ∀ {c}, m.collectTxs c vtx = .error e → ∃ msg, e = .thrown msg := by
  induction vtx with
  | nil => exact fun h ↦ nomatch h
  | cons tx vtx ih =>
    intro c h
    rcases bind_eq_error.mp h with h | ⟨c', -, h⟩
    · exact collectTx_error h
    · exact ih h

theorem coinbase_error {e : MinerFault} (h : m.coinbase = .error e) : ∃ msg, e = .thrown msg := by
  unfold Miner.coinbase at h
  dsimp only at h
  split at h
  · split at h
    · cases h
    · cases h
      exact ⟨_, rfl⟩
  · cases h

theorem Begins.createNewBlock_eq (h : m.Begins txNew c) : m.createNewBlock P =
    (m.minerLoop P c.mapDependers txNew.nTime (fuelFor c) 0 (Miner.start c)).map fun a ↦
      some (m.fillIn P txNew a, a.nFees) := by
  rw [createNewBlock, h.coinbase]
  change (do
    let c ← m.collectTxs .init m.poolTxs
    let a ← m.minerLoop P c.mapDependers txNew.nTime (fuelFor c) 0 (Miner.start c)
    .ok (some (m.fillIn P txNew a, a.nFees)) : Except MinerFault (Option (CBlock × ℤ))) = _
  rw [h.collects]
  rfl

/-- A run that does not come to the second loop is of no account. -/
theorem createNewBlock_of_not_begins (h : ∀ txNew c, ¬ m.Begins txNew c) :
    m.createNewBlock P = .ok none ∨ ∃ msg, m.createNewBlock P = .error (.thrown msg) := by
  unfold createNewBlock
  cases hcb : m.coinbase with
  | error e =>
    obtain ⟨msg, rfl⟩ := coinbase_error hcb
    exact Or.inr ⟨msg, rfl⟩
  | ok txNew =>
    cases txNew with
    | none => exact Or.inl rfl
    | some txNew =>
      cases hc : m.collectTxs .init m.poolTxs with
      | error e =>
        obtain ⟨msg, rfl⟩ := collectTxs_error hc
        exact Or.inr ⟨msg, rfl⟩
      | ok c => exact absurd ⟨hcb, hc⟩ (h txNew c)

theorem roundsLeft_lt_fuelFor (c : Collected) : roundsLeft c.vOrphan c.vecPriority < fuelFor c := by
  have hle := List.countP_le_length (p := isWaiting) (l := c.vOrphan)
  unfold roundsLeft fuelFor
  omega

/-- From each of the rounds the run comes to its end, or to the use of an erased record. -/
theorem Rounds.createNewBlock_cases (hwf : PoolWf P m) (hb : m.Begins txNew c)
    (h : Rounds P m c txNew.nTime round a) :
    ∃ round' a', Rounds P m c txNew.nTime round' a' ∧ a.vtx <+: a'.vtx ∧
      (m.createNewBlock P = .ok (some (m.fillIn P txNew a', a'.nFees)) ∨
        ∃ tx, m.frontTx round' a' = some tx ∧
          (m.addTx P txNew.nTime (m.popFront round' a') tx).isOk ∧
            m.AwaitedByDropped (P.getHash tx) ∧ m.createNewBlock P = .error .dangling) := by
  have hleft := (h.inOrder hwf hb.tracks).left
  have hfuel := roundsLeft_lt_fuelFor c
  obtain ⟨fuel, hsplit⟩ : ∃ fuel, fuelFor c = round + fuel := ⟨fuelFor c - round, by omega⟩
  obtain ⟨round', a', h', hext, hend⟩ :=
    h.minerLoop_cases hwf hb.tracks (show _ < fuel by omega)
  rw [hb.createNewBlock_eq, hsplit, h.minerLoop_eq]
  refine ⟨round', a', h', hext, ?_⟩
  rcases hend with hend | ⟨tx, hfront, hadd, hawaited, hend⟩
  · rw [hend]
    exact Or.inl rfl
  · rw [hend]
    exact Or.inr ⟨tx, hfront, hadd, hawaited, rfl⟩

/-- The run uses an erased record when it takes a transaction that a dropped one waits for. -/
theorem Rounds.createNewBlock_dangling (hwf : PoolWf P m) (hb : m.Begins txNew c)
    (h : Rounds P m c txNew.nTime round a) (hfront : m.frontTx round a = some tx)
    (hround : m.minerRound P c.mapDependers txNew.nTime (m.popFront round a) tx =
      .error .dangling) : m.createNewBlock P = .error .dangling := by
  have hleft := (h.inOrder hwf hb.tracks).left
  have hpop := roundsLeft_popFront hfront
  have hfuel := roundsLeft_lt_fuelFor c
  obtain ⟨fuel, hsplit⟩ : ∃ fuel, fuelFor c = round + (fuel + 1) :=
    ⟨fuelFor c - (round + 1), by omega⟩
  rw [hb.createNewBlock_eq, hsplit, h.minerLoop_eq, minerLoop, hfront]
  dsimp only
  rw [hround]
  rfl

/-- No round takes a transaction that a dropped one has been waiting for, or one whose fee does not
fit into 64 bits on top of those of the block so far. -/
def TakesCleanly (P : Params) (m : Miner) : Prop :=
  ∀ txNew c, m.Begins txNew c → ∀ round a tx, Rounds P m c txNew.nTime round a →
    m.frontTx round a = some tx → (m.addTx P txNew.nTime (m.popFront round a) tx).isOk →
      ¬ m.AwaitedByDropped (P.getHash tx) ∧ a.nFees + m.fee tx < 2 ^ 63

theorem Filling.fees_nonneg (h : Filling P m a) : 0 ≤ (a.vtx.map m.fee).sum :=
  List.sum_nonneg fun _ hx ↦ by
    obtain ⟨tx, hmem, rfl⟩ := List.mem_map.mp hx
    exact (h.pays tx hmem).le

theorem Filling.fees_exact (h : Filling P m a) (hlt : (a.vtx.map m.fee).sum < 2 ^ 63) :
    a.nFees = (a.vtx.map m.fee).sum := by
  have hpos := h.fees_nonneg
  rw [h.fees]
  exact int64_eq ⟨by omega, hlt⟩

/-- While no round takes what it should not, the fees are what they should be. -/
theorem Rounds.fees_lt (hwf : PoolWf P m) (hb : m.Begins txNew c) (hclean : TakesCleanly P m)
    (h : Rounds P m c txNew.nTime round a) : (a.vtx.map m.fee).sum < 2 ^ 63 := by
  induction h with
  | start => exact show (0 : ℤ) < 2 ^ 63 by decide
  | @next round a a' tx h hfront hround ih =>
    have hin := h.inOrder hwf hb.tracks
    obtain ⟨-, ⟨-, hvtx⟩ | ⟨hadd, hvtx⟩⟩ := hin.next hwf hb.tracks hfront hround
    · rwa [hvtx]
    · have hfit := (hclean txNew c hb round a tx h hfront hadd).2
      rw [hin.filling.fees_exact ih] at hfit
      rw [hvtx, List.map_append, List.sum_append, List.map_cons, List.map_nil, List.sum_singleton]
      exact hfit

/-- The fees of a block that begins with the transactions of another one are no less. -/
theorem Filling.fees_le (h : Filling P m a') (hext : a.vtx <+: a'.vtx) :
    (a.vtx.map m.fee).sum ≤ (a'.vtx.map m.fee).sum := by
  obtain ⟨B, hB⟩ := hext
  have hrest : 0 ≤ (B.map m.fee).sum := List.sum_nonneg fun _ hx ↦ by
    obtain ⟨tx, hmem, rfl⟩ := List.mem_map.mp hx
    exact (h.pays tx (by rw [← hB]; exact List.mem_append_right _ hmem)).le
  rw [← hB, List.map_append, List.sum_append]
  omega

/-- The transactions of a block are different ones of the pool. -/
theorem Filling.fees_le_pool (h : Filling P m a) :
    (a.vtx.map m.fee).sum ≤ ((m.poolTxs.filter fun tx ↦ 0 < m.fee tx).map m.fee).sum := by
  have hids : (a.vtx.map P.getHash).Nodup := by
    have hnodup := h.fresh.nodup
    rwa [placedTxs, List.map_map] at hnodup
  obtain ⟨vtx, hperm, hsub⟩ : a.vtx.Subperm (m.poolTxs.filter fun tx ↦ 0 < m.fee tx) :=
    List.subperm_of_subset (hids.of_map P.getHash) fun tx hmem ↦
      List.mem_filter.mpr ⟨(h.listed tx hmem).1, decide_eq_true (h.pays tx hmem)⟩
  rw [← (hperm.map m.fee).sum_eq]
  refine (hsub.map m.fee).sum_le_sum fun _ hx ↦ ?_
  obtain ⟨tx, hmem, rfl⟩ := List.mem_map.mp hx
  exact (of_decide_eq_true (List.mem_filter.mp hmem).2).le

/-- A pool from which nothing is dropped, and that pays fees which fit together. -/
theorem takesCleanly_of_pool (hwf : PoolWf P m)
    (hfound : ∀ tx ∈ m.poolTxs, ∀ txin ∈ tx.vin, ¬ m.Missing txin)
    (hfees : ((m.poolTxs.filter fun tx ↦ 0 < m.fee tx).map m.fee).sum < 2 ^ 63) :
    TakesCleanly P m := by
  intro txNew c hb round a tx h hfront hadd
  have hin := h.inOrder hwf hb.tracks
  constructor
  · rintro ⟨tx', hmem, -, ⟨txin, htxin, hmissing⟩, -⟩
    exact hfound tx' hmem txin htxin hmissing
  · have htx := hin.records.front hfront
    obtain ⟨a', hadd⟩ := eq_ok_of_isOk hadd
    obtain ⟨vout, hadded⟩ :=
      added_of_addTx htx.2.not_isCoinBase htx.2.not_isCoinStake hadd
    have hvtx : a'.vtx = a.vtx ++ [tx] := congrArg Assembly.vtx hadded.eq
    have hle := ((hin.filling.popFront round).added hwf htx hadded).fees_le_pool
    rw [hvtx, List.map_append, List.sum_append, List.map_cons, List.map_nil,
      List.sum_singleton] at hle
    rw [hin.filling.fees_exact (hin.filling.fees_le_pool.trans_lt hfees)]
    omega

/-- **`CreateNewBlock` builds soundly if and only if** no round takes a transaction that a dropped
one has been waiting for, or one whose fee does not fit. -/
theorem createNewBlock_sound_iff (hwf : PoolWf P m) : BuildsSoundly P m ↔ TakesCleanly P m := by
  constructor
  · intro hsound txNew c hb round a tx h hfront hadd
    have hin := h.inOrder hwf hb.tracks
    have hends := hin.ends (n := txNew.nTime) hwf hb.tracks hfront
    cases hround : m.minerRound P c.mapDependers txNew.nTime (m.popFront round a) tx with
    | error e =>
      rw [hround] at hends
      cases hends
      exact absurd (h.createNewBlock_dangling hwf hb hfront hround) hsound.noDangling
    | ok a' =>
      rw [hround] at hends
      cases hends with
      | passed hnot => exact absurd hadd hnot
      | taken _ hawaited hvtx hfilling _ _ =>
        refine ⟨hawaited, ?_⟩
        rw [show (m.popFront round a).vtx = a.vtx from rfl] at hvtx
        -- the block that the run ends with has its fees in 64 bits, and those so far are among them
        obtain ⟨round', a'', h'', hext, hend⟩ :=
          (Rounds.next h hfront hround).createNewBlock_cases hwf hb
        rcases hend with hend | ⟨tx', -, -, -, hend⟩
        · have hfilling'' := (h''.inOrder hwf hb.tracks).filling
          have hfees : a''.nFees = (a''.vtx.map m.fee).sum := (hsound.sound _ _ hend).fees
          have hin64 : InInt64 (a''.vtx.map m.fee).sum :=
            int64_eq_self_iff.mp (hfilling''.fees.symm.trans hfees)
          have hle := hfilling''.fees_le hext
          have hlt := hin64.2
          rw [hvtx, List.map_append, List.sum_append, List.map_cons, List.map_nil,
            List.sum_singleton] at hle
          have hpays := hfilling.pays tx (by rw [hvtx]; exact List.mem_append_right _ (by simp))
          rw [hin.filling.fees_exact (by omega)]
          omega
        · exact absurd hend hsound.noDangling
  · intro hclean
    by_cases hbegins : ∃ txNew c, m.Begins txNew c
    · obtain ⟨txNew, c, hb⟩ := hbegins
      obtain ⟨round, a, h, -, hend⟩ :=
        Rounds.createNewBlock_cases hwf hb (.start : Rounds P m c txNew.nTime 0 (Miner.start c))
      rcases hend with hend | ⟨tx, hfront, hadd, hawaited, -⟩
      · refine ⟨by rw [hend]; exact nofun, by rw [hend]; exact nofun, fun block nFees hblock ↦ ?_⟩
        rw [hend] at hblock
        cases hblock
        have hfilling := (h.inOrder hwf hb.tracks).filling
        exact hfilling.soundBlock hwf hb.coinbase
          (hfilling.fees_exact (h.fees_lt hwf hb hclean))
      · exact absurd hawaited (hclean txNew c hb round a tx h hfront hadd).1
    · -- the run returns or throws before the second loop
      rcases createNewBlock_of_not_begins (P := P) fun txNew c hb ↦ hbegins ⟨txNew, c, hb⟩ with
        hend | ⟨msg, hend⟩
      all_goals
        refine ⟨by rw [hend]; exact nofun, by rw [hend]; exact nofun, fun block nFees hblock ↦ ?_⟩
        rw [hend] at hblock
        cases hblock

end

end Miner

namespace Sample

open Miner

/-- A node that mines on the genesis block. -/
def miner (s : NodeState) : Miner where
  w := world
  s := s
  pindexPrev := genesisIndex
  fProofOfStake := false
  reservedKey := some 5
  fDebug := false
  blockmaxsize := none
  blockminsize := none
  cheap _ := false
  front _ := 0

/-- A transaction that can be mined; its hash is 6. -/
def parent : CTransaction := anyone ⟨77, 0⟩ COIN

/-- A transaction with two parents, the second of which is not there anymore. -/
def forsaken : CTransaction :=
  { anyone ⟨6, 0⟩ (COIN - CENT) with
    vin := [⟨⟨6, 0⟩, [], uintMax⟩, ⟨⟨99, 0⟩, [], uintMax⟩]
    nLockTime := 7 }

/-- A node with the first one in its pool. -/
def onePooled : NodeState := funded.addLoose params parent

/-- A node with both of them. -/
def dropping : Miner := miner (onePooled.addLoose params forsaken)

theorem poolWf_miner {s : NodeState} (h : ∀ e ∈ s.mempool.mapTx.toList,
    params.getHash e.2 = e.1 ∧ ¬ ((miner s).V.txIndex e.1).isSome) : PoolWf params (miner s) where
  keyed hash tx htx := (h (hash, tx) (Std.TreeMap.mem_toList_iff_getElem?_eq_some.mpr htx)).1
  settled hash tx htx hsome := absurd hsome
    (h (hash, tx) (Std.TreeMap.mem_toList_iff_getElem?_eq_some.mpr htx)).2

end Sample

/-- A pool with a transaction, and one that spends it and another output that is nowhere. -/
theorem Sample.not_buildsSoundly_dropping : Miner.PoolWf Sample.params Sample.dropping ∧
    ¬ Miner.BuildsSoundly Sample.params Sample.dropping :=
  ⟨Sample.poolWf_miner (by decide +kernel), fun h ↦ h.noDangling (by decide +kernel)⟩

/-- A pool with a transaction and one that spends its output. -/
theorem Miner.createNewBlock_sound_iff_sample :
    Miner.BuildsSoundly Sample.params (Sample.miner Sample.twoPooled) := by
  have hwf : Miner.PoolWf Sample.params (Sample.miner Sample.twoPooled) :=
    Sample.poolWf_miner (by decide +kernel)
  exact (Miner.createNewBlock_sound_iff hwf).mpr
    (Miner.takesCleanly_of_pool hwf (by decide +kernel) (by decide +kernel))

example : ((Sample.miner Sample.twoPooled).createNewBlock Sample.params).toOption.join.map
    (fun r ↦ (r.1.vtx.tail, r.2)) = some ([Sample.parent, Sample.spender], COIN + CENT) := by
  decide +kernel

end Bws
