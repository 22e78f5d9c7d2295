import Bws.Path

/-!
# What a chain spends

A chain of blocks that `ConnectBlock` has accepted one after another (`Accepted`).  When none of its
coinbase transactions comes back, no transaction does, and then no output is spent twice in the whole
chain, every output that is spent is one of an earlier transaction, and a transaction that is neither
coinbase nor coinstake pays out no more than it spends (`Accepted.spent_once`).

`ConnectBlock` does let a transaction come back once all of its outputs are spent, and they can then
be spent again (`spent_twice_of_repeated_coinbase`).  It is the height in the coinbase, which
`AcceptBlock` asks for, that keeps coinbases apart.
-/

namespace Bws

open NodeM NodeState

/-- A chain above `g` whose blocks `ConnectBlock` has accepted one after another, its last entry, and
the node after that.  Between two blocks anything may happen that leaves the transaction index and
the blocks on disk alone. -/
inductive Accepted (P : Params) (g : CBlockIndex) :
    List (CBlock × CBlockIndex) → CBlockIndex → NodeState → Prop where
  | start {s : NodeState} (empty : s.txdb.txIndex = fun _ ↦ none) : Accepted P g [] g s
  | between {L : List (CBlock × CBlockIndex)} {b : CBlockIndex} {s s' : NodeState}
      (h : Accepted P g L b s) (same : s'.txdb.txIndex = s.txdb.txIndex)
      (disk : ∀ nFile nBlockPos block, s.files.blockAt nFile nBlockPos = some block →
        s'.files.blockAt nFile nBlockPos = some block) : Accepted P g L b s'
  | connect {L : List (CBlock × CBlockIndex)} {b n : CBlockIndex} {s s' : NodeState}
      (h : Accepted P g L b s) {w : World} {block : CBlock} (parent : n.pprev = some b)
      (batch : s.Open) (disk : s.files.blockAt n.val.nFile n.val.nBlockPos = some block)
      (connected : connectBlock w P block n false s = .ok () s') :
      Accepted P g (L ++ [(block, n)]) n s'

/-- The transactions of a chain with their positions. -/
def chainTxs (L : List (CBlock × CBlockIndex)) : List (CTransaction × CDiskTxPos) :=
  L.flatMap fun c ↦ blockTxs c.1 c.2

theorem chainTxs_append (L : List (CBlock × CBlockIndex)) (c : CBlock × CBlockIndex) :
    chainTxs (L ++ [c]) = chainTxs L ++ blockTxs c.1 c.2 := by
  unfold chainTxs
  rw [List.flatMap_append, List.flatMap_singleton]

/-- The transaction spends outputs of the transactions `A`, and unless it is a coinstake it pays out
no more than these are worth. -/
def PaidFrom (P : Params) (A : List CTransaction) (tx : CTransaction) : Prop :=
  ∃ vout : List CTxOut,
    List.Forall₂ (fun o txout ↦ ∃ txPrev ∈ A, P.getHash txPrev = o.hash ∧
      txPrev.vout[o.n]? = some txout) tx.spends vout ∧
    (¬ tx.isCoinBase → ¬ tx.isCoinStake → totalValue tx.vout ≤ totalValue vout)

section

variable {P : Params} {w : World} {g b n : CBlockIndex} {L : List (CBlock × CBlockIndex)}
  {s s' : NodeState}

/-- The transaction at a position of a block that is on disk. -/
theorem txAt_of_mem_blockTxs {files : BlockFiles} {block : CBlock}
    (disk : files.blockAt n.val.nFile n.val.nBlockPos = some block)
    {a : CTransaction × CDiskTxPos} (ha : a ∈ blockTxs block n) :
    a.2.isNull = false ∧ a.2 ≠ .inMemory ∧ files.txAt a.2.nFile a.2.nTxPos = some a.1 := by
  obtain ⟨⟨tx, q⟩, hq, rfl⟩ := List.mem_map.mp ha
  refine ⟨decide_eq_false (files.nFile_lt disk).ne, ?_, files.txAt_eq disk hq⟩
  -- the mark of the memory pool is a position before the first transaction of any block
  intro heq
  have hpos : q = 1 := congrArg CDiskTxPos.nTxPos heq
  have hlt := lt_of_mem_txsAt hq
  omega

namespace Accepted

theorem disk (h : Accepted P g L b s) :
    ∀ c ∈ L, s.files.blockAt c.2.val.nFile c.2.val.nBlockPos = some c.1 := by
  induction h with
  | start empty => exact nofun
  | between h same disk ih => exact fun c hc ↦ disk _ _ _ (ih c hc)
  | connect h parent batch disk connected ih =>
    have hframe := (keeps_connectBlock (N := fun _ ↦ True) P _ trivial _ false).ok connected
    intro c hc
    rw [hframe.files]
    rcases List.mem_append.mp hc with hc | hc
    · exact ih c hc
    · cases List.mem_singleton.mp hc
      exact disk

theorem txAt (h : Accepted P g L b s) {a : CTransaction × CDiskTxPos} (ha : a ∈ chainTxs L) :
    a.2.isNull = false ∧ a.2 ≠ .inMemory ∧ s.files.txAt a.2.nFile a.2.nTxPos = some a.1 := by
  obtain ⟨c, hc, ha⟩ := List.mem_flatMap.mp ha
  exact txAt_of_mem_blockTxs (h.disk c hc) ha

theorem checkTransaction (h : Accepted P g L b s) {a : CTransaction × CDiskTxPos}
    (ha : a ∈ chainTxs L) : checkTransaction a.1 = .ok () := by
  induction h with
  | start empty => cases ha
  | between h same disk ih => exact ih ha
  | connect h parent batch disk connected ih =>
    rw [chainTxs_append] at ha
    rcases List.mem_append.mp ha with ha | ha
    · exact ih ha
    · refine (checkedBlock_of_connectBlock connected).transactions _ ?_
      rw [← map_fst_blockTxs]
      exact List.mem_map.mpr ⟨a, ha, rfl⟩

theorem connectAll (h : Accepted P g L b s) :
    Ledger.connectAll (fun _ ↦ none) (toLedger P (chainTxs L)) = some s.txdb.txIndex := by
  induction h with
  | start empty =>
    rw [empty]
    rfl
  | between h same disk ih => rw [same, ih]
  | connect h parent batch disk connected ih =>
    rw [chainTxs_append, toLedger_append, Ledger.connectAll_append, ih]
    exact (connectAll_of_connectBlock batch connected).2

end Accepted

/-! ## The outputs that are spent -/

/-- The output that the loop finds is one of a transaction that the index describes. -/
theorem mem_of_outputIn {V : TxView} {files : BlockFiles}
    {idx : Ledger.Index UInt256 CDiskTxPos} {A : List (CTransaction × CDiskTxPos)}
    (hread : V.readTx = readTxAt w files) (hd : Ledger.Describes idx (toLedger P A))
    (hdisk : ∀ a ∈ A, a.2 ≠ .inMemory ∧ files.txAt a.2.nFile a.2.nTxPos = some a.1)
    {o : COutPoint} {txout : CTxOut} (h : V.outputIn idx o = some txout) :
    ∃ a ∈ A, P.getHash a.1 = o.hash ∧ a.1.vout[o.n]? = some txout := by
  obtain ⟨txindex, hindex, h⟩ := Option.bind_eq_some_iff.mp h
  obtain ⟨txPrev, hprev, h⟩ := Option.bind_eq_some_iff.mp h
  have hpos : Ledger.pos? idx o.hash = some txindex.pos := by
    rw [Ledger.pos?, hindex]
    rfl
  obtain ⟨t, ht, hid⟩ := (hd.entry _ _).mp hpos
  obtain ⟨a, ha, heq⟩ := List.mem_map.mp ht
  obtain ⟨rfl, hplace⟩ := Prod.mk.inj heq
  obtain ⟨hmem, htx⟩ := hdisk a ha
  rw [TxView.prevTx, ← hplace, if_neg hmem, hread, readTxAt] at hprev
  split at hprev
  · cases hprev.symm.trans htx
    exact ⟨a, ha, hid, h⟩
  · cases hprev

/-- **What a transaction of the next block spends** is paid for by the chain and the block so
far. -/
theorem paidFrom_of_connectBlock {block : CBlock}
    {chain A B : List (CTransaction × CDiskTxPos)} {a : CTransaction × CDiskTxPos}
    (hchain : Ledger.connectAll (fun _ ↦ none) (toLedger P chain) = some s.txdb.txIndex)
    (hf : Ledger.Fresh (fun _ ↦ none) (toLedger P (chain ++ A)))
    (hdisk : ∀ a ∈ chain ++ A, a.2 ≠ .inMemory ∧ s.files.txAt a.2.nFile a.2.nTxPos = some a.1)
    (h : connectBlock w P block n false s = .ok () s') (hsplit : blockTxs block n = A ++ a :: B) :
    PaidFrom P ((chain ++ A).map Prod.fst) a.1 := by
  obtain ⟨t, s₁, hcheck, -, -⟩ := connectBlock_eq_ok.mp h
  simp only [connectBlockCheck, bind_eq_ok] at hcheck
  obtain ⟨-, -, t', htxs, -⟩ := hcheck
  obtain ⟨t₁, t₂, hall, hx⟩ := connectTx_of_connectTxs htxs hsplit
  rw [show (BlockTotals.init (firstTxPos block n false)).mapQueuedChanges = ∅ from rfl,
    queued_empty, txIndex_txView] at hall
  have hidx : Ledger.connectAll (fun _ ↦ none) (toLedger P (chain ++ A)) =
      some (queued (s.txView w s.txdb) t₁.mapQueuedChanges) := by
    rw [toLedger_append, Ledger.connectAll_append, hchain]
    exact hall
  have hd := Ledger.describes_nil.connectAll hf hidx
  rw [List.nil_append] at hd
  obtain ⟨nSigOps, t₃, -, heither, -⟩ := connectTx_eq_ok hx
  unfold connectEither at heither
  split at heither
  · rename_i hcb
    refine ⟨[], ?_, fun h ↦ absurd hcb h⟩
    rw [CTransaction.spends, if_pos hcb]
    exact .nil
  · rename_i hcb
    obtain ⟨vout, hconn⟩ := connected_of_connectSpending hcb heither
    refine ⟨vout, ?_, fun _ ↦ hconn.pays⟩
    rw [spends_of_not_isCoinBase hcb, List.forall₂_map_left_iff]
    refine hconn.spends.imp fun txin txout hout ↦ ?_
    obtain ⟨a', ha', hhash, hget⟩ := mem_of_outputIn rfl hd hdisk hout
    exact ⟨a'.1, List.mem_map.mpr ⟨a', ha', rfl⟩, hhash, hget⟩

theorem Accepted.paidFrom (h : Accepted P g L b s)
    (hf : Ledger.Fresh (fun _ ↦ none) (toLedger P (chainTxs L))) :
    ∀ A a B, chainTxs L = A ++ a :: B → PaidFrom P (A.map Prod.fst) a.1 := by
  induction h with
  | start empty =>
    intro A a B hsplit
    exact absurd hsplit.symm (List.append_ne_nil_of_right_ne_nil A (List.cons_ne_nil a B))
  | between h same disk ih => exact ih hf
  | @connect L b n s s' h w block parent batch disk connected ih =>
    intro A a B hsplit
    rw [chainTxs_append] at hf hsplit
    rw [toLedger_append] at hf
    rcases List.append_eq_append_iff.mp hsplit with ⟨A', rfl, hblock⟩ | ⟨B', hA, hB⟩
    · -- the transaction is one of the last block
      refine paidFrom_of_connectBlock h.connectAll ?_ ?_ connected hblock
      · rw [toLedger_append]
        have : toLedger P (blockTxs block n) = toLedger P A' ++ toLedger P (a :: B) := by
          rw [hblock, toLedger_append]
        rw [this, ← List.append_assoc] at hf
        exact hf.left
      · intro a' ha'
        rcases List.mem_append.mp ha' with ha' | ha'
        · exact (h.txAt ha').2
        · refine (txAt_of_mem_blockTxs disk (a := a') ?_).2
          rw [hblock]
          exact List.mem_append_left _ ha'
    · cases B' with
      | nil =>
        -- it is the first of the last block
        rw [List.append_nil] at hA
        subst hA
        have hpaid : PaidFrom P ((chainTxs L ++ []).map Prod.fst) a.1 := by
          refine paidFrom_of_connectBlock h.connectAll ?_ ?_ connected hB.symm
          · rw [List.append_nil]
            exact hf.left
          · rw [List.append_nil]
            exact fun a' ha' ↦ (h.txAt ha').2
        rwa [List.append_nil] at hpaid
      | cons a' B' =>
        obtain ⟨rfl, -⟩ := List.cons.inj hB
        exact ih hf.left A a B' hA

/-! ## The whole chain -/

/-- The transactions of a chain. -/
def chainVtx (L : List (CBlock × CBlockIndex)) : List CTransaction := L.flatMap fun c ↦ c.1.vtx

theorem map_fst_chainTxs (L : List (CBlock × CBlockIndex)) :
    (chainTxs L).map Prod.fst = chainVtx L := by
  unfold chainTxs chainVtx
  rw [List.map_flatMap]
  exact List.flatMap_congr fun c _ ↦ map_fst_blockTxs c.1 c.2

/-- A transaction that `CheckTransaction` has passed spends something unless it is a coinbase. -/
theorem isEmpty_spends {tx : CTransaction} (h : Bws.checkTransaction tx = .ok ()) :
    tx.spends.isEmpty = decide tx.isCoinBase := by
  have hvin : tx.vin ≠ [] := by
    simp only [Bws.checkTransaction, bind_eq_ok, rejectIf_eq_ok] at h
    obtain ⟨-, hvin, -⟩ := h
    exact hvin
  unfold CTransaction.spends
  by_cases hcb : tx.isCoinBase
  · simp [hcb]
  · simp [hcb, hvin]

/-- Distinct coinbases are enough for all transactions of the chain to be distinct. -/
theorem Accepted.fresh (h : Accepted P g L b s)
    (hhash : Set.InjOn P.getHash {tx | tx ∈ chainVtx L})
    (hcb : (((chainVtx L).filter fun tx ↦ tx.isCoinBase).map P.getHash).Nodup) :
    Ledger.Fresh (fun _ ↦ none) (toLedger P (chainTxs L)) := by
  have hmem : ∀ a ∈ chainTxs L, a.1 ∈ chainVtx L := fun a ha ↦ by
    rw [← map_fst_chainTxs]
    exact List.mem_map.mpr ⟨a, ha, rfl⟩
  refine Ledger.fresh_of_connectAll h.connectAll ?_ ?_ ?_
  · rintro _ htp
    obtain ⟨a, ha, rfl⟩ := List.mem_map.mp htp
    exact (h.txAt ha).1
  · rintro _ htp _ htp' hid
    obtain ⟨a, ha, rfl⟩ := List.mem_map.mp htp
    obtain ⟨a', ha', rfl⟩ := List.mem_map.mp htp'
    have heq : a.1 = a'.1 := hhash (hmem a ha) (hmem a' ha') hid
    change (ledgerTx P a.1).ins = (ledgerTx P a'.1).ins
    rw [heq]
  · have hfilter : (chainTxs L).filter (fun a ↦ (ledgerTx P a.1).ins.isEmpty) =
        (chainTxs L).filter fun a ↦ a.1.isCoinBase := by
      refine List.filter_congr fun a ha ↦ ?_
      rw [← isEmpty_spends (h.checkTransaction ha)]
      exact List.isEmpty_map
    have hids : ((toLedger P (chainTxs L)).filter (·.1.ins.isEmpty)).map (·.1.id) =
        ((chainVtx L).filter fun tx ↦ tx.isCoinBase).map P.getHash := by
      unfold toLedger
      rw [List.filter_map, List.map_map, ← map_fst_chainTxs, List.filter_map, List.map_map]
      exact congrArg (List.map fun a ↦ P.getHash a.1) hfilter
    rw [hids]
    exact hcb

/-- **Nothing is spent twice in a chain whose coinbases are distinct**, and everything that is spent
is there and is worth what is paid out. -/
theorem Accepted.spent_once (h : Accepted P g L b s)
    (hhash : Set.InjOn P.getHash {tx | tx ∈ chainVtx L})
    (hcb : (((chainVtx L).filter fun tx ↦ tx.isCoinBase).map P.getHash).Nodup) :
    ((chainVtx L).flatMap CTransaction.spends).Nodup ∧
      ∀ A tx B, chainVtx L = A ++ tx :: B → PaidFrom P A tx := by
  have hf := h.fresh hhash hcb
  constructor
  · have hins := Ledger.nodup_ins_of_connectAll hf h.connectAll
    have heq : (toLedger P (chainTxs L)).flatMap (·.1.ins) =
        ((chainVtx L).flatMap CTransaction.spends).map COutPoint.output := by
      unfold toLedger
      rw [List.flatMap_map, ← map_fst_chainTxs, List.flatMap_map, List.map_flatMap]
      rfl
    rw [heq] at hins
    exact hins.of_map
  · intro A tx B hsplit
    rw [← map_fst_chainTxs] at hsplit
    obtain ⟨A', C, hC, rfl, htail⟩ := List.map_eq_append_iff.mp hsplit
    obtain ⟨a, B', rfl, rfl, -⟩ := List.map_eq_cons_iff.mp htail
    exact h.paidFrom hf A' a B' hC

end

namespace Sample

/-- The blocks are written and connected one after another. -/
def connectChain : List CBlock → CBlockIndex → NodeState → Bool
  | [], _, _ => true
  | block :: blocks, b, s =>
    match connectBlock world params block (nextIndex s block b) false (s.stored world block) with
    | .ok _ s' => connectChain blocks (nextIndex s block b) s'
    | .error _ _ => false

theorem accepted_connectChain {g : CBlockIndex} (blocks : List CBlock) :
    ∀ {L : List (CBlock × CBlockIndex)} {b : CBlockIndex} {s : NodeState},
      s.Open → Accepted params g L b s → connectChain blocks b s = true →
        ∃ L' b' s', L'.map Prod.fst = L.map Prod.fst ++ blocks ∧ Accepted params g L' b' s' := by
  induction blocks with
  | nil => exact fun {L b s} _ h _ ↦ ⟨L, b, s, (List.append_nil _).symm, h⟩
  | cons block blocks ih =>
    intro L b s ho h hx
    rw [connectChain] at hx
    split at hx
    · rename_i u s' hconn
      have hstored : Accepted params g L b (s.stored world block) :=
        .between h rfl fun _ _ _ hat ↦ BlockFiles.blockAt_writeToDisk_of_some hat _ _
      have hdisk : (s.stored world block).files.blockAt (nextIndex s block b).val.nFile
          (nextIndex s block b).val.nBlockPos = some block :=
        BlockFiles.blockAt_writeToDisk s.files world.nFile block
      have ho' := ((keeps_connectBlock (N := fun _ ↦ True) params world trivial block false).ok
        hconn).open ho
      obtain ⟨L', b', s'', hL, hacc⟩ := ih ho' (hstored.connect rfl ho hdisk hconn) hx
      refine ⟨L', b', s'', ?_, hacc⟩
      rw [hL, List.map_append, List.append_assoc]
      rfl
    · cases hx

theorem chainVtx_eq {L : List (CBlock × CBlockIndex)} {blocks : List CBlock}
    (h : L.map Prod.fst = blocks) : chainVtx L = blocks.flatMap CBlock.vtx := by
  rw [← h, List.flatMap_map]
  rfl

theorem accepted_start : Accepted params genesisIndex [] genesisIndex start.begin_ :=
  .start ((txIndex_begin wf_start.closed).trans txIndex_start)

end Sample

/-- Of the first eleven blocks the last one spends the coinbase of the first. -/
theorem Accepted.spent_once_sample : ∃ L b s,
    L.map Prod.fst = Sample.repeating.take 11 ∧
      Accepted Sample.params Sample.genesisIndex L b s ∧
      (chainVtx L).flatMap CTransaction.spends = [⟨Sample.params.getHash Sample.again, 0⟩] ∧
      ((chainVtx L).flatMap CTransaction.spends).Nodup ∧
        ∀ A tx B, chainVtx L = A ++ tx :: B → PaidFrom Sample.params A tx := by
  obtain ⟨L, b, s, hL, h⟩ := Sample.accepted_connectChain (Sample.repeating.take 11)
    (NodeState.open_begin _) Sample.accepted_start (by decide +kernel)
  rw [List.map_nil, List.nil_append] at hL
  have hhash : ∀ tx ∈ (Sample.repeating.take 11).flatMap CBlock.vtx,
      ∀ tx' ∈ (Sample.repeating.take 11).flatMap CBlock.vtx,
        Sample.params.getHash tx = Sample.params.getHash tx' → tx = tx' := by
    decide +kernel
  refine ⟨L, b, s, hL, h, ?_, Accepted.spent_once h ?_ ?_⟩
  · rw [Sample.chainVtx_eq hL]
    decide +kernel
  · rw [Sample.chainVtx_eq hL]
    exact fun tx htx tx' htx' ↦ hhash tx htx tx' htx'
  · rw [Sample.chainVtx_eq hL]
    decide +kernel

/-- The outputs of a coinbase that comes back are spent twice, although no two transactions of the
chain have the same hash. -/
theorem spent_twice_of_repeated_coinbase : ∃ L b s,
    L.map Prod.fst = Sample.repeating ∧ Accepted Sample.params Sample.genesisIndex L b s ∧
      (∀ tx ∈ chainVtx L, ∀ tx' ∈ chainVtx L,
        Sample.params.getHash tx = Sample.params.getHash tx' → tx = tx') ∧
      ¬ ((chainVtx L).flatMap CTransaction.spends).Nodup := by
  obtain ⟨L, b, s, hL, h⟩ := Sample.accepted_connectChain Sample.repeating
    (NodeState.open_begin _) Sample.accepted_start (by decide +kernel)
  rw [List.map_nil, List.nil_append] at hL
  refine ⟨L, b, s, hL, h, ?_, ?_⟩
  · rw [Sample.chainVtx_eq hL]
    decide +kernel
  · rw [Sample.chainVtx_eq hL]
    decide +kernel

end Bws
