import Bws.Invariant

/-!
# Every reachable state

`AcceptBlock` taken apart (`acceptBlock_outcome`): a block is refused, or written and offered to
`AddToBlockIndex`, which may switch to it.  Whatever becomes of it, the state stays well formed
(`NodeState.Wf.step`), so every state of a run is (`Run.wf`).
-/

namespace Bws

open Chain (Node)
open NodeM NodeState

section

variable (P : Params) (w : World)

/-! ## AddToBlockIndex -/

theorem enterBlock_eq {s : NodeState} (h : ¬ s.Open) (block : CBlock) (pindexNew : CBlockIndex) :
    enterBlock P w block pindexNew (s.addIndex pindexNew) =
      if w.commitIndexOk then setIfBest P w block pindexNew (s.entered P pindexNew)
      else
        .error (.rejected 0 "") (s.addIndex pindexNew).begin_.drop := by
  have hb := txnBegin_eq (s.addIndex pindexNew)
  rw [if_neg (show ¬ (s.addIndex pindexNew).Open from h)] at hb
  have hw : writeBlockIndex w P pindexNew id "" (s.addIndex pindexNew).begin_ =
      .ok () ((s.addIndex pindexNew).begin_.record (.put
        (.blockindex (P.diskHash ((s.addIndex pindexNew).diskBlockIndex pindexNew)))
        ((s.addIndex pindexNew).diskBlockIndex pindexNew))) :=
    (Exec.bind_of_ok (reads_of_ok (a := (s.addIndex pindexNew).diskBlockIndex pindexNew) rfl)
      _).trans (writeDb_eq (open_begin _) w _ _ _)
  unfold enterBlock
  rw [Exec.bind_of_ok hb, Exec.bind_of_ok hw]
  have hcommit := txnCommit_eq (open_record (s.addIndex pindexNew).begin_ (.put
    (.blockindex (P.diskHash ((s.addIndex pindexNew).diskBlockIndex pindexNew)))
    ((s.addIndex pindexNew).diskBlockIndex pindexNew))) w.commitIndexOk ""
  by_cases hok : w.commitIndexOk
  · rw [if_pos hok] at hcommit ⊢
    rw [Exec.bind_of_ok hcommit]
    rfl
  · rw [if_neg hok] at hcommit ⊢
    rw [Exec.bind_of_error hcommit]
    rfl

theorem final_withTxDB (x : NodeM Unit) (s : NodeState) :
    Exec.final (withTxDB x s) = (Exec.final (x s.close)).close := Exec.final_mapState _ _

theorem withTxDB_eq_ok {x : NodeM Unit} {s s' : NodeState} :
    withTxDB x s = .ok () s' ↔ ∃ s₁, x s.close = .ok () s₁ ∧ s' = s₁.close :=
  Exec.mapState_eq_ok

theorem writeToDisk_eq (s : NodeState) (block : CBlock) :
    writeToDisk w block s =
      if w.appendOk then
        .ok (s.files.writeToDisk w.nFile block).2 (s.stored w block)
      else .error (.rejected 0 "AcceptBlock() : WriteToDisk failed") s := by
  unfold writeToDisk
  split <;> rfl

/-- The new entry stands for `block`, on top of an entry of the index. -/
structure Offered (s : NodeState) (block : CBlock) (pindexNew : CBlockIndex) : Prop where
  accept : ∃ hashProof, checkAccept P w s block = .ok hashProof ∧
    newBlockIndex P (s.stored w block) block w.nFile (s.files.writeToDisk w.nFile block).2
      hashProof = .ok pindexNew
  hash : pindexNew.getBlockHash = P.blockHash block.toCBlockHeader
  new : s.mapBlockIndex pindexNew.getBlockHash = none
  parent : ∃ p, pindexNew.pprev = some p ∧ s.mapBlockIndex block.hashPrevBlock = some p
  disk : (s.offered P w block pindexNew).files.blockAt pindexNew.val.nFile
    pindexNew.val.nBlockPos = some block
  vtx : block.vtx ≠ []

/-- What may become of a block that `AcceptBlock` is called with. -/
inductive Outcome (s : NodeState) (block : CBlock) : NodeState → Prop where
  /-- a check fails, or the block cannot be written -/
  | refused : Outcome s block s
  /-- there is no stake modifier for it -/
  | unmodified : Outcome s block (s.stored w block)
  /-- its entry is not committed to the database -/
  | unrecorded {pindexNew : CBlockIndex} (h : Offered P w s block pindexNew) :
    Outcome s block ((s.stored w block).addIndex pindexNew).begin_.drop
  /-- it is not better than the best block -/
  | kept {pindexNew : CBlockIndex} (h : Offered P w s block pindexNew)
      (worse : ¬ s.nBestChainTrust < pindexNew.nChainTrust) :
    Outcome s block (s.offered P w block pindexNew)
  /-- it is better, and `SetBestChain` is called -/
  | switched {pindexNew : CBlockIndex} (h : Offered P w s block pindexNew)
      (better : s.nBestChainTrust < pindexNew.nChainTrust) :
    Outcome s block
      (Exec.final (setBestChain P w block pindexNew (s.offered P w block pindexNew))).close

variable {P w}

theorem newBlockIndex_eq_ok {s : NodeState} {block : CBlock} {nFile nBlockPos : ℕ}
    {hashProof : UInt256} {n : CBlockIndex}
    (h : newBlockIndex P s block nFile nBlockPos hashProof = .ok n) :
    n.getBlockHash = P.blockHash block.toCBlockHeader ∧ n.val.nFile = nFile ∧
      n.val.nBlockPos = nBlockPos ∧ s.mapBlockIndex (P.blockHash block.toCBlockHeader) = none ∧
      n.pprev = s.mapBlockIndex block.hashPrevBlock := by
  unfold newBlockIndex at h
  obtain ⟨hnew, h⟩ := bind_check_eq_ok.mp h
  rw [rejectIf_eq_ok, Option.not_isSome_iff_eq_none] at hnew
  dsimp only at h
  split at h
  · cases h
  · split at h
    · rename_i hprev
      cases h
      exact ⟨rfl, rfl, rfl, hnew, hprev.symm⟩
    · rename_i pprev hprev
      cases h
      exact ⟨rfl, rfl, rfl, hnew, hprev.symm⟩

theorem checkAccept_eq_ok {s : NodeState} {block : CBlock} {hashProof : UInt256}
    (h : checkAccept P w s block = .ok hashProof) :
    ∃ pindexPrev pindexBest, s.mapBlockIndex block.hashPrevBlock = some pindexPrev ∧
      s.pindexBest = some pindexBest ∧ block.vtx ≠ [] ∧
      checkSync pindexBest (pindexPrev.nHeight + 1) ∧ 7 ≤ block.nVersion := by
  unfold checkAccept at h
  obtain ⟨-, h⟩ := bind_check_eq_ok.mp h
  obtain ⟨-, h⟩ := bind_check_eq_ok.mp h
  split at h
  · cases h
  · cases h
  · cases h
  · rename_i pindexPrev pindexBest coinbase hprev hbest hcoinbase
    simp only [bind_eq_ok, rejectIf_eq_ok, not_not, not_lt] at h
    obtain ⟨_, hversion, -, -, -, -, -, -, -, -, -, -, -, -, -, -, -, -, _, hsync, -⟩ := h
    exact ⟨pindexPrev, pindexBest, hprev, hbest, List.ne_nil_of_mem (List.mem_of_getElem? hcoinbase),
      hsync, hversion⟩

/-- **AcceptBlock taken apart.** -/
theorem acceptBlock_outcome {s : NodeState} (h : ¬ s.Open) (block : CBlock) :
    Outcome P w s block (Exec.final (acceptBlock P w block s)) := by
  unfold acceptBlock
  cases hcheck : checkAccept P w s block with
  | error e =>
    rw [Exec.bind_of_error (reads_of_error hcheck)]
    exact .refused
  | ok hashProof =>
    rw [Exec.bind_of_ok (reads_of_ok hcheck)]
    have hwrite := writeToDisk_eq w s block
    by_cases happend : w.appendOk
    · rw [if_pos happend] at hwrite
      rw [Exec.bind_of_ok hwrite]
      unfold addToBlockIndex
      cases hn : newBlockIndex P (s.stored w block) block
          w.nFile (s.files.writeToDisk w.nFile block).2 hashProof with
      | error e =>
        rw [Exec.bind_of_error (reads_of_error hn)]
        exact .unmodified
      | ok n =>
        obtain ⟨hhash, hfile, hpos, hnew, hprev⟩ := newBlockIndex_eq_ok hn
        obtain ⟨p, -, hp, -, hvtx, -, -⟩ := checkAccept_eq_ok hcheck
        have hoffered : Offered P w s block n := by
          refine ⟨⟨hashProof, hcheck, hn⟩, hhash, hhash ▸ hnew, ⟨p, hprev.trans hp, hp⟩, ?_, hvtx⟩
          rw [hfile, hpos]
          exact BlockFiles.blockAt_writeToDisk _ _ _
        rw [Exec.bind_of_ok (reads_of_ok hn)]
        have henter := enterBlock_eq P w
          (s := (s.stored w block)) h block n
        have hfresh : ((s.stored w block).addIndex n).close =
          (s.stored w block).addIndex n := close_eq h
        change Outcome P w s block (Exec.final (withTxDB _
          ((s.stored w block).addIndex n)))
        rw [final_withTxDB, hfresh, henter]
        by_cases hcommit : w.commitIndexOk
        · rw [if_pos hcommit]
          unfold setIfBest
          split
          · rename_i hbetter
            exact .switched hoffered hbetter
          · rename_i hworse
            exact .kept hoffered hworse
        · rw [if_neg hcommit]
          exact .unrecorded hoffered
    · rw [if_neg happend] at hwrite
      rw [Exec.bind_of_error hwrite]
      exact .refused

/-! ## The state stays well formed -/

theorem acceptToMemoryPool_eq_ok {s s' : NodeState} {tx : CTransaction} {fLimitFree : Bool}
    (h : acceptToMemoryPool P w s tx fLimitFree = .ok s') :
    checkLoose P w s tx = .ok () ∧
      (∃ inputs, fetchInputs (s.txView w s.txdb.fresh) ∅ false false tx = .ok inputs ∧
        checkLooseInputs P w s tx fLimitFree inputs = .ok ()) ∧ s' = s.addLoose P tx := by
  simp only [acceptToMemoryPool, bind_eq_ok, withText_eq_ok] at h
  obtain ⟨⟨⟩, hcheck, inputs, hfetch, ⟨⟩, hinputs, h⟩ := h
  cases h
  exact ⟨hcheck, ⟨inputs, hfetch, hinputs⟩, rfl⟩

theorem step_tx (P : Params) (w : World) (s : NodeState) (tx : CTransaction) (fLimitFree : Bool) :
    s.step P w (.tx tx fLimitFree) = s ∨
      acceptToMemoryPool P w s tx fLimitFree = .ok (s.addLoose P tx) ∧
        s.step P w (.tx tx fLimitFree) = s.addLoose P tx := by
  have hstep : s.step P w (.tx tx fLimitFree) =
      (acceptToMemoryPool P w s tx fLimitFree).toOption.getD s := rfl
  rw [hstep]
  cases hx : acceptToMemoryPool P w s tx fLimitFree with
  | error e => exact Or.inl rfl
  | ok s' =>
    obtain ⟨-, -, rfl⟩ := acceptToMemoryPool_eq_ok hx
    exact Or.inr ⟨rfl, rfl⟩

namespace NodeState.Wf

variable {s s' : NodeState} {block : CBlock} {n : CBlockIndex}

theorem stored (h : s.Wf P) (w : World) (block : CBlock) : (s.stored w block).Wf P where
  closed := h.closed
  key := h.key
  ancestor := h.ancestor
  genesis := h.genesis
  tip := h.tip
  disk hn := by
    obtain ⟨b, hb, hhash, hvtx⟩ := h.disk hn
    exact ⟨b, BlockFiles.blockAt_writeToDisk_of_some hb _ _, hhash, hvtx⟩

/-- The new entry is a leaf. -/
theorem addIndex (h : s.Wf P) (ho : Offered P w s block n) :
    ((s.stored w block).addIndex n).Wf P := by
  have hs := h.stored w block
  obtain ⟨p, hp, hprev⟩ := ho.parent
  have hnew : ∀ m, s.mapBlockIndex m.getBlockHash = some m → m.getBlockHash ≠ n.getBlockHash := by
    intro m hm heq
    rw [heq, ho.new] at hm
    cases hm
  have hold : ∀ {m}, s.mapBlockIndex m.getBlockHash = some m →
      Function.update s.mapBlockIndex n.getBlockHash (some n) m.getBlockHash = some m :=
    fun hm ↦ (Function.update_of_ne (hnew _ hm) _ _).trans hm
  have hmem : ∀ {hash m},
      Function.update s.mapBlockIndex n.getBlockHash (some n) hash = some m →
        (hash = n.getBlockHash ∧ m = n) ∨ s.mapBlockIndex hash = some m := by
    intro hash m hm
    by_cases heq : hash = n.getBlockHash
    · rw [heq, Function.update_self] at hm
      exact Or.inl ⟨heq, (Option.some.inj hm).symm⟩
    · rw [Function.update_of_ne heq] at hm
      exact Or.inr hm
  -- the ancestors of the new entry are those of its parent
  have hbelow : ∀ {m}, m ≤ p → s.mapBlockIndex m.getBlockHash = some m :=
    fun hm ↦ h.ancestor hprev hm
  refine ⟨h.closed, fun {hash m} hm ↦ ?_, fun {hash m k} hm hk ↦ ?_, ?_, ?_, fun {hash m} hm ↦ ?_⟩
  · rcases hmem hm with ⟨rfl, rfl⟩ | hm
    · rfl
    · exact h.key hm
  · rcases hmem hm with ⟨rfl, rfl⟩ | hm
    · rw [Chain.Node.eq_child_of_parent? hp, Chain.Node.le_child] at hk
      rcases hk with rfl | hk
      · rw [← Chain.Node.eq_child_of_parent? hp]
        exact Function.update_self _ _ _
      · exact hold (hbelow hk)
    · exact hold (h.ancestor hm hk)
  · obtain ⟨g, hg, hle⟩ := h.genesis
    refine ⟨g, hg, fun {hash m} hm ↦ ?_⟩
    rcases hmem hm with ⟨rfl, rfl⟩ | hm
    · exact (hle hprev).trans (Chain.Node.parent?_lt hp).le
    · exact hle hm
  · obtain ⟨b, hb, hhash, htip⟩ := h.tip
    exact ⟨b, hb, (h.key hhash) ▸ hold (h.ancestor hhash le_rfl), htip⟩
  · rcases hmem hm with ⟨rfl, rfl⟩ | hm
    · exact ⟨block, ho.disk, ho.hash.symm, ho.vtx⟩
    · exact hs.disk hm

theorem offered (h : s.Wf P) (ho : Offered P w s block n) : (s.offered P w block n).Wf P :=
  (h.addIndex ho).of_same ⟨rfl, fun _ h ↦ h⟩ nofun

theorem getBlockHash_offered (ho : Offered P w s block n) :
    (s.offered P w block n).mapBlockIndex (P.blockHash block.toCBlockHeader) = some n := by
  rw [← ho.hash]
  exact Function.update_self _ _ _

/-- **However `SetBestChain` ends, the state stays well formed.** -/
theorem setBestChain (h : s.Wf P) (hn : s.mapBlockIndex (P.blockHash block.toCBlockHeader) = some n) :
    (Exec.final (setBestChain P w block n s)).close.Wf P := by
  rw [setBestChain_eq P w h.closed]
  have hsame := same_connectBest P w block n s.begin_
  cases hx : connectBest P w block n s.begin_ with
  | ok u s₁ =>
    rw [hx] at hsame
    have h₁ : s₁.close.Wf P := h.of_same (Exec.IsFrame.trans (same_begin s)
      (Exec.IsFrame.trans hsame (same_close s₁))) (not_open_close s₁)
    have hmap : s₁.close.mapBlockIndex = s.mapBlockIndex := hsame.mapBlockIndex
    exact h₁.withTip (hmap ▸ hn)
  | error e s₁ =>
    rw [hx] at hsame
    exact h.of_same (Exec.IsFrame.trans (same_begin s)
      (Exec.IsFrame.trans hsame (same_close s₁))) (not_open_close s₁)

theorem outcome (h : s.Wf P) (ho : Outcome P w s block s') : s'.Wf P := by
  cases ho with
  | refused => exact h
  | unmodified => exact h.stored w block
  | unrecorded ho => exact (h.addIndex ho).of_same ⟨rfl, fun _ h ↦ h⟩ nofun
  | kept ho worse => exact h.offered ho
  | switched ho better => exact (h.offered ho).setBestChain (getBlockHash_offered ho)

theorem addLoose (h : s.Wf P) (tx : CTransaction) : (s.addLoose P tx).Wf P :=
  h.of_same ⟨rfl, fun _ h ↦ h⟩ h.closed

/-- **Whatever comes in, the state stays well formed.** -/
theorem step (h : s.Wf P) (w : World) (i : Input) : (s.step P w i).Wf P := by
  cases i with
  | block block => exact h.outcome (acceptBlock_outcome h.closed block)
  | tx tx fLimitFree =>
    rcases step_tx P w s tx fLimitFree with hx | ⟨-, hx⟩
    · rw [hx]
      exact h
    · rw [hx]
      exact h.addLoose tx

end NodeState.Wf

/-! ## The start -/

namespace NodeState

/-- A node whose only block is the genesis block. -/
def started (P : Params) (w : World) (genesis : CBlock) (pindexNew : CBlockIndex) : NodeState :=
  { ((init.offered P w genesis pindexNew).begin_.record
      (.put .hashBestChain P.hashGenesisBlock)).commit with
    pindexGenesisBlock := some pindexNew }.withTip pindexNew P.hashGenesisBlock

end NodeState

theorem addGenesis_eq_ok {genesis : CBlock} {s : NodeState}
    (hash : P.blockHash genesis.toCBlockHeader = P.hashGenesisBlock)
    (h : addGenesis P w genesis .init = .ok () s) (best : s.pindexBest.isSome) :
    ∃ e : CBlockEntry, s = started P w genesis (.root e) ∧ e.hash = P.hashGenesisBlock ∧
      s.files.blockAt e.nFile e.nBlockPos = some genesis := by
  obtain ⟨nBlockPos, s₁, hwrite, h⟩ := Exec.bind_eq_ok.mp h
  rw [writeToDisk_eq] at hwrite
  split at hwrite
  · cases hwrite
    obtain ⟨n, s₁, hread, h⟩ := Exec.bind_eq_ok.mp h
    obtain ⟨hn, rfl⟩ := reads_eq_ok.mp hread
    obtain ⟨hhash, hfile, hpos, -, hprev⟩ := newBlockIndex_eq_ok hn
    obtain ⟨⟨⟩, s₂, hs₂, h⟩ := Exec.bind_eq_ok.mp h
    cases hs₂
    obtain ⟨e, rfl⟩ : ∃ e, n = .root e := by
      cases n with
      | root e => exact ⟨e, rfl⟩
      | child e p => cases hprev
    obtain ⟨s₃, hs₃, rfl⟩ := withTxDB_eq_ok.mp h
    rw [close_eq (show ¬ ((init.stored w genesis).addIndex (.root e)).Open from nofun),
      enterBlock_eq P w (s := init.stored w genesis) nofun] at hs₃
    have hdisk : ((init.stored w genesis)).files.blockAt e.nFile e.nBlockPos = some genesis := by
      rw [show e.nFile = w.nFile from hfile, show e.nBlockPos = _ from hpos]
      exact BlockFiles.blockAt_writeToDisk _ _ _
    refine ⟨e, ?_⟩
    split at hs₃
    · unfold setIfBest at hs₃
      split at hs₃
      · have hgenesis : connectBest P w genesis (.root e)
            ((init.stored w genesis).entered P (.root e)).begin_ =
            setGenesis w (.root e) P.hashGenesisBlock
              ((init.stored w genesis).entered P (.root e)).begin_ := by
          unfold connectBest
          rw [if_pos ⟨rfl, hash⟩, hash]
        rw [setBestChain_eq P w (s := (init.stored w genesis).entered P (.root e)) nofun,
          hgenesis, setGenesis_eq w (open_begin _)] at hs₃
        by_cases hcommit : w.commitOk P.hashGenesisBlock
        · rw [if_pos hcommit, hash] at hs₃
          cases hs₃
          exact ⟨rfl, hhash.trans hash, hdisk⟩
        · rw [if_neg hcommit] at hs₃
          cases hs₃
      · cases hs₃
        cases best
    · cases hs₃
  · cases hwrite

theorem NodeState.Wf.started {genesis : CBlock} {e : CBlockEntry} (hhash : e.hash = P.hashGenesisBlock)
    (hash : P.blockHash genesis.toCBlockHeader = P.hashGenesisBlock) (hvtx : genesis.vtx ≠ [])
    (hdisk : (started P w genesis (.root e)).files.blockAt e.nFile e.nBlockPos = some genesis) :
    (started P w genesis (.root e)).Wf P := by
  have hmem : ∀ {h n}, (NodeState.started P w genesis (.root e)).mapBlockIndex h = some n →
      h = P.hashGenesisBlock ∧ n = .root e := by
    intro h n hn
    change Function.update (fun _ ↦ none) e.hash (some (.root e)) h = some n at hn
    by_cases heq : h = e.hash
    · rw [heq, Function.update_self] at hn
      exact ⟨heq.trans hhash, (Option.some.inj hn).symm⟩
    · rw [Function.update_of_ne heq] at hn
      cases hn
  have hself : (NodeState.started P w genesis (.root e)).mapBlockIndex P.hashGenesisBlock =
      some (.root e) := by
    rw [← hhash]
    exact Function.update_self _ _ _
  refine ⟨nofun, fun hn ↦ ?_, fun hn hm ↦ ?_, ⟨.root e, rfl, fun hn ↦ (hmem hn).2.ge⟩,
    ⟨.root e, rfl, hself, rfl, rfl⟩, fun hn ↦ ?_⟩
  · obtain ⟨rfl, rfl⟩ := hmem hn
    exact hhash
  · obtain ⟨-, rfl⟩ := hmem hn
    rw [Chain.Node.le_root.mp hm, show CBlockIndex.getBlockHash (.root e) = _ from hhash]
    exact hself
  · obtain ⟨rfl, rfl⟩ := hmem hn
    exact ⟨genesis, hdisk, hash, hvtx⟩

/-- **Every state of a run is well formed.** -/
theorem Run.wf {genesis : CBlock} {Good : List NodeState → NodeState → World → Input → Prop}
    {past : List NodeState} {s : NodeState} (h : Run P genesis Good past s) : s.Wf P := by
  induction h with
  | start hash vtx h best =>
    obtain ⟨e, rfl, hhash, hdisk⟩ := addGenesis_eq_ok hash h best
    exact .started hhash hash vtx hdisk
  | step h w i good ih => exact ih.step w i

end

namespace Sample

theorem run_start (Good : List NodeState → NodeState → World → Input → Prop) :
    Run params genesis Good [] start := by
  have h : Exec.error? (addGenesis params world genesis .init) = none := by decide +kernel
  exact .start (by decide +kernel) (by decide) (Exec.eq_ok_of_error? h) (by decide +kernel)

theorem wf_start : start.Wf params := (run_start fun _ _ _ _ ↦ True).wf

end Sample

end Bws
