import Bws.Rollback

/-!
# The block index and the tip

What holds in every state of a node: the index is closed under `pprev` and rooted at the
genesis block, every entry's block is on disk, and the globals of the tip name one entry of the
index (`NodeState.Wf`).  Nothing a switch does can break this, whether it succeeds, fails or is
left by an exception, because a switch touches neither the index nor, before its last step, the
tip (`SameIndex`).
-/

namespace Bws

open Chain (Node)
open Exec (Keeps)
open NodeM NodeState

/-! ## What a switch keeps before its last step -/

namespace NodeState

/-- The part of a node that a switch leaves alone until it names the new tip. -/
def indexPart (s : NodeState) : NodeState :=
  { NodeState.init with
    files := s.files
    mapBlockIndex := s.mapBlockIndex
    setStakeSeen := s.setStakeSeen
    pindexBest := s.pindexBest
    hashBestChain := s.hashBestChain
    nBestHeight := s.nBestHeight
    nBestChainTrust := s.nBestChainTrust }

end NodeState

structure SameIndex (s s' : NodeState) : Prop where
  part : s'.indexPart = s.indexPart
  genesis : ∀ g, s.pindexGenesisBlock = some g → s'.pindexGenesisBlock = some g

namespace SameIndex

variable {s s' : NodeState}

instance : Exec.IsFrame SameIndex where
  refl _ := ⟨rfl, fun _ h ↦ h⟩
  trans h h' := ⟨h'.part.trans h.part, fun g hg ↦ h'.genesis g (h.genesis g hg)⟩

theorem of_inBatch {N : CBlockIndex → Prop} (h : InBatch N s s') : SameIndex s s' where
  part := (congrArg NodeState.indexPart h.memory :)
  genesis _ hg := h.pindexGenesisBlock.trans hg

section

variable (h : SameIndex s s')
include h

theorem files : s'.files = s.files := (congrArg NodeState.files h.part :)
theorem mapBlockIndex : s'.mapBlockIndex = s.mapBlockIndex :=
  (congrArg NodeState.mapBlockIndex h.part :)
theorem setStakeSeen : s'.setStakeSeen = s.setStakeSeen :=
  (congrArg NodeState.setStakeSeen h.part :)
theorem pindexBest : s'.pindexBest = s.pindexBest := (congrArg NodeState.pindexBest h.part :)
theorem hashBestChain : s'.hashBestChain = s.hashBestChain :=
  (congrArg NodeState.hashBestChain h.part :)
theorem nBestHeight : s'.nBestHeight = s.nBestHeight := (congrArg NodeState.nBestHeight h.part :)
theorem nBestChainTrust : s'.nBestChainTrust = s.nBestChainTrust :=
  (congrArg NodeState.nBestChainTrust h.part :)

end

end SameIndex

section

variable (P : Params) (w : World)

theorem same_assign {f : NodeState → NodeState} (h : ∀ s, SameIndex s (f s)) :
    Keeps SameIndex (assign f) := h

theorem same_link (s : NodeState) (pindex : CBlockIndex) (next : Option CBlockIndex) :
    SameIndex s (s.link pindex next) := by
  unfold link
  split <;> exact ⟨rfl, fun _ h ↦ h⟩

theorem same_resurrect (tx : CTransaction) : Keeps SameIndex (resurrect P w tx) := by
  intro s
  unfold resurrect
  cases h : acceptToMemoryPool P w s tx false with
  | ok s' =>
    simp only [acceptToMemoryPool, bind_eq_ok] at h
    obtain ⟨-, -, -, -, -, -, h⟩ := h
    cases h
    exact ⟨rfl, fun _ h ↦ h⟩
  | error e => cases e <;> exact Exec.IsFrame.refl s

theorem same_followSwitch (vDisconnect vConnect : List CBlockIndex)
    (vResurrect vDelete : List CTransaction) :
    Keeps SameIndex (followSwitch P w vDisconnect vConnect vResurrect vDelete) :=
  Keeps.bind (keeps_forEach fun pindex _ ↦ same_assign fun s ↦ same_link s pindex none) fun _ ↦
    Keeps.bind (keeps_forEach fun pindex _ ↦ same_assign fun s ↦ same_link s pindex (some pindex))
      fun _ ↦ Keeps.bind (keeps_forEach fun tx _ ↦ same_resurrect P w tx) fun _ ↦
    keeps_forEach fun _ _ ↦ same_assign fun _ ↦ by exact ⟨rfl, fun _ h ↦ h⟩

theorem same_txnBegin : Keeps SameIndex txnBegin := by
  intro s
  rw [txnBegin_eq]
  split
  · exact Exec.IsFrame.refl s
  · exact ⟨rfl, fun _ h ↦ h⟩

theorem same_writeDb (key : DbKey) (value : key.Value) (msg : String) :
    Keeps SameIndex (writeDb w key value msg) :=
  Keeps.mono (fun _ _ ↦ SameIndex.of_inBatch) (keeps_writeDb (N := fun _ ↦ True) w _ _ _)

theorem same_txnCommit (ok : Bool) (msg : String) : Keeps SameIndex (txnCommit ok msg) := by
  refine Keeps.bind (keeps_reads _) fun r ↦ ?_
  obtain ⟨done, txdb⟩ := r
  refine Keeps.bind (same_assign fun _ ↦ by exact ⟨rfl, fun _ h ↦ h⟩) fun _ ↦ ?_
  split
  · exact same_assign fun _ ↦ by exact ⟨rfl, fun _ h ↦ h⟩
  · exact Keeps.throw _

theorem same_invalidChainFound (pindexNew : CBlockIndex) :
    Keeps SameIndex (invalidChainFound w pindexNew) :=
  same_assign fun s ↦ by split <;> exact ⟨rfl, fun _ h ↦ h⟩

theorem same_txnAbort : Keeps SameIndex txnAbort :=
  Keeps.bind (same_assign fun _ ↦ by exact ⟨rfl, fun _ h ↦ h⟩) fun _ ↦
    same_assign fun _ ↦ by exact ⟨rfl, fun _ h ↦ h⟩

theorem same_connectBlock (block : CBlock) (pindex : CBlockIndex) :
    Keeps SameIndex (connectBlock w P block pindex false) :=
  Keeps.mono (fun _ _ ↦ SameIndex.of_inBatch)
    (keeps_connectBlock (N := fun _ ↦ True) P w trivial block false)

theorem same_setBestChainInner (block : CBlock) (pindexNew : CBlockIndex) :
    Keeps SameIndex (setBestChainInner P w block pindexNew) := by
  refine Keeps.bind (Keeps.caught (Keeps.bind (same_connectBlock P w _ _) fun _ ↦
    same_writeDb w _ _ _)) fun connected ↦ ?_
  split
  · exact Keeps.bind (same_txnCommit _ _) fun _ ↦
      Keeps.bind (same_assign fun s ↦ same_link s pindexNew (some pindexNew)) fun _ ↦
      keeps_forEach fun _ _ ↦ same_assign fun _ ↦ by exact ⟨rfl, fun _ h ↦ h⟩
  · exact Keeps.bind same_txnAbort fun _ ↦ Keeps.bind (same_invalidChainFound w _) fun _ ↦
      keeps_fail _ _

theorem same_reorganize (pindexNew : CBlockIndex) :
    Keeps SameIndex (reorganize P w pindexNew) := by
  refine Keeps.bind (keeps_reads _) fun r ↦ ?_
  obtain ⟨pindexBest, pfork⟩ := r
  refine Keeps.bind (Keeps.mono (fun _ _ ↦ SameIndex.of_inBatch)
    (keeps_disconnectBranch (N := fun _ ↦ True) P w _ _)) fun _ ↦ ?_
  refine Keeps.bind (Keeps.mono (fun _ _ ↦ SameIndex.of_inBatch)
    (keeps_connectBranch (N := fun _ ↦ True) P w (fun _ _ ↦ trivial) _)) fun _ ↦ ?_
  exact Keeps.bind (same_writeDb w _ _ _) fun _ ↦ Keeps.bind (same_txnCommit _ _) fun _ ↦
    same_followSwitch P w _ _ _ _

theorem same_connectSecondary (l : List CBlockIndex) :
    Keeps SameIndex (connectSecondary P w l) := by
  induction l with
  | nil => exact Keeps.pure ()
  | cons pindex l ih =>
    refine Keeps.bind (Keeps.caught (Keeps.bind (keeps_reads _) fun _ ↦
      Keeps.bind same_txnBegin fun _ ↦ same_setBestChainInner P w _ _)) fun connected ↦ ?_
    split
    · exact ih
    · exact Keeps.pure ()

theorem same_connectBest (block : CBlock) (pindexNew : CBlockIndex) :
    Keeps SameIndex (connectBest P w block pindexNew) := by
  intro s
  unfold connectBest
  split
  · rename_i hg
    have hx : Keeps (fun s s' : NodeState ↦ s.pindexGenesisBlock = none → SameIndex s s')
        (setGenesis w pindexNew (P.blockHash block.toCBlockHeader)) := by
      intro s hnone
      have h₁ := (same_writeDb w .hashBestChain (P.blockHash block.toCBlockHeader) "") s
      unfold setGenesis
      cases hw : writeHashBestChain w (P.blockHash block.toCBlockHeader) "" s with
      | error e s₁ =>
        rw [Exec.bind_of_error hw]
        exact (same_writeDb w _ _ _).error hw
      | ok u s₁ =>
        have h₁ := (same_writeDb w _ _ _).ok hw
        rw [Exec.bind_of_ok hw]
        cases hc : txnCommit (w.commitOk (P.blockHash block.toCBlockHeader))
            "SetBestChain() : TxnCommit failed" s₁ with
        | error e s₂ =>
          rw [Exec.bind_of_error hc]
          exact Exec.IsFrame.trans h₁ ((same_txnCommit _ _).error hc)
        | ok u s₂ =>
          rw [Exec.bind_of_ok hc]
          have h₂ := Exec.IsFrame.trans h₁ ((same_txnCommit _ _).ok hc)
          refine ⟨h₂.part, fun g hg ↦ ?_⟩
          rw [hnone] at hg
          cases hg
    exact hx s hg.1
  · split
    · refine Keeps.bind (Keeps.caught (same_setBestChainInner P w block pindexNew))
        (fun extended ↦ ?_) s
      split
      · exact Keeps.pure ()
      · exact keeps_fail _ _
    · refine Keeps.bind (keeps_reads _) (fun r ↦ ?_) s
      obtain ⟨pindexIntermediate, vpindexSecondary⟩ := r
      refine Keeps.bind (Keeps.caught (same_reorganize P w _)) fun reorganized ↦ ?_
      split
      · exact same_connectSecondary P w _
      · exact Keeps.bind same_txnAbort fun _ ↦ Keeps.bind (same_invalidChainFound w _) fun _ ↦
          keeps_fail _ _

end

/-! ## Every state of a node -/

/-- What the block index, the block files and the globals of the tip have to do with each
other. -/
structure NodeState.Wf (P : Params) (s : NodeState) : Prop where
  /-- between two calls no batch is open -/
  closed : ¬ s.Open
  key : ∀ {hash n}, s.mapBlockIndex hash = some n → n.getBlockHash = hash
  ancestor : ∀ {hash n m}, s.mapBlockIndex hash = some n → m ≤ n →
    s.mapBlockIndex m.getBlockHash = some m
  genesis : ∃ g, s.pindexGenesisBlock = some g ∧ ∀ {hash n}, s.mapBlockIndex hash = some n → g ≤ n
  tip : ∃ b, s.pindexBest = some b ∧ s.mapBlockIndex s.hashBestChain = some b ∧
    s.nBestHeight = b.nHeight ∧ s.nBestChainTrust = b.nChainTrust
  disk : ∀ {hash n}, s.mapBlockIndex hash = some n → ∃ block,
    s.files.blockAt n.val.nFile n.val.nBlockPos = some block ∧
      P.blockHash block.toCBlockHeader = hash ∧ block.vtx ≠ []

namespace NodeState

/-- The database object of the call is gone, and its batch with it. -/
def close (s : NodeState) : NodeState := { s with txdb := s.txdb.fresh }

theorem not_open_close (s : NodeState) : ¬ s.close.Open := nofun

theorem close_eq {s : NodeState} (h : ¬ s.Open) : s.close = s := by
  have hb : s.txdb.activeBatch = none := Option.not_isSome_iff_eq_none.mp h
  unfold close CTxDB.fresh
  rw [← hb]

theorem same_begin (s : NodeState) : SameIndex s s.begin_ := ⟨rfl, fun _ h ↦ h⟩

theorem same_close (s : NodeState) : SameIndex s s.close := ⟨rfl, fun _ h ↦ h⟩

/-- After `AddToBlockIndex` has written the new entry to the database. -/
def entered (P : Params) (s : NodeState) (pindexNew : CBlockIndex) : NodeState :=
  let s := (s.addIndex pindexNew).begin_
  (s.record (.put (.blockindex (P.diskHash (s.diskBlockIndex pindexNew)))
    (s.diskBlockIndex pindexNew))).commit

/-- After `WriteToDisk`. -/
def stored (w : World) (s : NodeState) (block : CBlock) : NodeState :=
  { s with files := (s.files.writeToDisk w.nFile block).1 }

/-- The node that `AddToBlockIndex` looks for a new best block in: `block` is on disk and
`pindexNew` is in the index. -/
def offered (P : Params) (w : World) (s : NodeState) (block : CBlock) (pindexNew : CBlockIndex) :
    NodeState := (s.stored w block).entered P pindexNew

end NodeState

namespace NodeState.Wf

variable {P : Params} {s s' : NodeState}

/-- A switch that has not named a new tip. -/
theorem of_same (h : s.Wf P) (hs : SameIndex s s') (hc : ¬ s'.Open) : s'.Wf P where
  closed := hc
  key := by
    rw [hs.mapBlockIndex]
    exact h.key
  ancestor := by
    rw [hs.mapBlockIndex]
    exact h.ancestor
  genesis := by
    obtain ⟨g, hg, hle⟩ := h.genesis
    rw [hs.mapBlockIndex]
    exact ⟨g, hs.genesis g hg, hle⟩
  tip := by
    rw [hs.pindexBest, hs.mapBlockIndex, hs.hashBestChain, hs.nBestHeight, hs.nBestChainTrust]
    exact h.tip
  disk := by
    rw [hs.mapBlockIndex, hs.files]
    exact h.disk

/-- A new tip that is in the index. -/
theorem withTip (h : s.Wf P) {n : CBlockIndex} {hash : UInt256}
    (hn : s.mapBlockIndex hash = some n) : (s.withTip n hash).Wf P where
  closed := h.closed
  key := h.key
  ancestor := h.ancestor
  genesis := h.genesis
  tip := ⟨n, rfl, hn, rfl, rfl⟩
  disk := h.disk

end NodeState.Wf

end Bws
