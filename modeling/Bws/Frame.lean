import Bws.AcceptBlock

/-!
# What a switch leaves alone

Between `TxnBegin` and `TxnCommit` a switch writes to the batch, to `nMint` and `nMoneySupply`
of the blocks it connects, and to nothing else (`InBatch`).  The results about failing switches
and about runs rest on this one frame and on `SetBestChain` taken apart by its branches.
-/

namespace Bws

open Exec (Keeps)
open NodeM

namespace NodeState

/-- The node without what a switch may change before it commits. -/
def forget (s : NodeState) : NodeState :=
  { s with
    txdb := ⟨fun _ ↦ none, none⟩
    nMint := fun _ ↦ 0
    nMoneySupply := fun _ ↦ 0
    events := [] }

end NodeState

/-- From `s` to `s'` only the batch, the history, and the money of the blocks `N` have
changed. -/
structure InBatch (N : CBlockIndex → Prop) (s s' : NodeState) : Prop where
  memory : s'.forget = s.forget
  batch : s.txdb.activeBatch.isSome →
    s'.txdb.pdb = s.txdb.pdb ∧ s'.txdb.activeBatch.isSome
  money : ∀ n, ¬ N n → s'.nMint n = s.nMint n ∧ s'.nMoneySupply n = s.nMoneySupply n

namespace InBatch

variable {N : CBlockIndex → Prop} {s s' s'' : NodeState}

theorem refl (s : NodeState) : InBatch N s s := ⟨rfl, fun h ↦ ⟨rfl, h⟩, fun _ _ ↦ ⟨rfl, rfl⟩⟩

theorem trans (h : InBatch N s s') (h' : InBatch N s' s'') : InBatch N s s'' where
  memory := h'.memory.trans h.memory
  batch hb := by
    obtain ⟨h₁, h₂⟩ := h.batch hb
    obtain ⟨h₃, h₄⟩ := h'.batch h₂
    exact ⟨h₃.trans h₁, h₄⟩
  money n hn := by
    obtain ⟨h₁, h₂⟩ := h.money n hn
    obtain ⟨h₃, h₄⟩ := h'.money n hn
    exact ⟨h₃.trans h₁, h₄.trans h₂⟩

instance : Exec.IsFrame (InBatch N) := ⟨refl, trans⟩

section

variable (h : InBatch N s s')
include h

theorem files : s'.files = s.files := (congrArg NodeState.files h.memory :)
theorem mapBlockIndex : s'.mapBlockIndex = s.mapBlockIndex :=
  (congrArg NodeState.mapBlockIndex h.memory :)
theorem setStakeSeen : s'.setStakeSeen = s.setStakeSeen :=
  (congrArg NodeState.setStakeSeen h.memory :)
theorem pindexGenesisBlock : s'.pindexGenesisBlock = s.pindexGenesisBlock :=
  (congrArg NodeState.pindexGenesisBlock h.memory :)
theorem pindexBest : s'.pindexBest = s.pindexBest := (congrArg NodeState.pindexBest h.memory :)
theorem hashBestChain : s'.hashBestChain = s.hashBestChain :=
  (congrArg NodeState.hashBestChain h.memory :)
theorem nBestHeight : s'.nBestHeight = s.nBestHeight := (congrArg NodeState.nBestHeight h.memory :)
theorem nBestChainTrust : s'.nBestChainTrust = s.nBestChainTrust :=
  (congrArg NodeState.nBestChainTrust h.memory :)
theorem nBestInvalidTrust : s'.nBestInvalidTrust = s.nBestInvalidTrust :=
  (congrArg NodeState.nBestInvalidTrust h.memory :)
theorem pnext : s'.pnext = s.pnext := (congrArg NodeState.pnext h.memory :)
theorem mempool : s'.mempool = s.mempool := (congrArg NodeState.mempool h.memory :)

end

end InBatch

/-! ## Steps that keep every frame -/

section

variable {R : NodeState → NodeState → Prop} [Exec.IsFrame R]

theorem keeps_reads {α : Type} (f : NodeState → Except Fault α) : Keeps R (reads f) :=
  Keeps.of_final fun s ↦ by unfold reads; cases f s <;> rfl

theorem keeps_fail {α : Type} (nDoS : ℕ) (msg : String) : Keeps R (fail nDoS msg : NodeM α) :=
  Keeps.throw _

theorem keeps_forEach {α : Type} {f : α → NodeM Unit} {l : List α}
    (h : ∀ a ∈ l, Keeps R (f a)) : Keeps R (forEach f l) := by
  induction l with
  | nil => exact Keeps.pure ()
  | cons a l ih =>
    exact Keeps.bind (h a (by simp)) fun _ ↦ ih fun a ha ↦ h a (by simp [ha])

end

/-! ## The steps inside a batch -/

section

variable {N : CBlockIndex → Prop}

theorem keeps_emit (e : Event) : Keeps (InBatch N) (emit e) :=
  fun _ ↦ ⟨rfl, fun h ↦ ⟨rfl, h⟩, fun _ _ ↦ ⟨rfl, rfl⟩⟩

variable (P : Params) (w : World)

theorem keeps_writeDb (key : DbKey) (value : key.Value) (msg : String) :
    Keeps (InBatch N) (writeDb w key value msg) := by
  intro s
  unfold writeDb CTxDB.write CTxDB.record
  cases hb : s.txdb.activeBatch with
  | some batch => exact ⟨rfl, fun _ ↦ ⟨rfl, rfl⟩, fun _ _ ↦ ⟨rfl, rfl⟩⟩
  | none =>
    by_cases hok : w.putOk
    · simp only [hok, if_true]
      refine ⟨rfl, fun h ↦ ?_, fun _ _ ↦ ⟨rfl, rfl⟩⟩
      rw [hb] at h
      cases h
    · simp only [hok]
      exact InBatch.refl s

theorem keeps_eraseDb (key : DbKey) : Keeps (InBatch N) (eraseDb w key) := by
  intro s
  unfold eraseDb assign CTxDB.erase CTxDB.record
  cases hb : s.txdb.activeBatch with
  | some batch =>
    simp only [hb, Option.getD_some]
    exact ⟨rfl, fun _ ↦ ⟨rfl, rfl⟩, fun _ _ ↦ ⟨rfl, rfl⟩⟩
  | none =>
    refine ⟨rfl, fun h ↦ ?_, fun _ _ ↦ ⟨rfl, rfl⟩⟩
    rw [hb] at h
    cases h

theorem keeps_writeBlockIndex (pindex : CBlockIndex) (f : CDiskBlockIndex → CDiskBlockIndex)
    (msg : String) : Keeps (InBatch N) (writeBlockIndex w P pindex f msg) :=
  Keeps.bind (keeps_reads _) fun _ ↦ keeps_writeDb w _ _ _

theorem keeps_disconnectInputs (tx : CTransaction) :
    Keeps (InBatch N) (disconnectInputs w P tx) := by
  refine Keeps.bind ?_ fun _ ↦ keeps_eraseDb w _
  unfold releaseInputs
  split
  · exact Keeps.pure ()
  · exact keeps_forEach fun txin _ ↦ Keeps.bind (keeps_reads _) fun _ ↦ keeps_writeDb w _ _ _

theorem keeps_writeHashNext (pindex : CBlockIndex) (hashNext : UInt256) (msg : String) :
    Keeps (InBatch N) (writeHashNext w P pindex hashNext msg) := by
  unfold writeHashNext
  split
  · exact Keeps.pure ()
  · exact keeps_writeBlockIndex P w _ _ _

theorem keeps_disconnectBlock (block : CBlock) (pindex : CBlockIndex) :
    Keeps (InBatch N) (disconnectBlock w P block pindex) :=
  Keeps.bind (keeps_forEach fun tx _ ↦ keeps_disconnectInputs P w tx) fun _ ↦
    Keeps.bind (keeps_writeHashNext P w _ _ _) fun _ ↦ Keeps.bind (keeps_emit _) fun _ ↦
    keeps_forEach fun _ _ ↦ keeps_emit _

theorem keeps_trackMoney {pindex : CBlockIndex} (h : N pindex) (t : BlockTotals) :
    Keeps (InBatch N) (trackMoney pindex t) := fun s ↦ by
  refine ⟨rfl, fun h ↦ ⟨rfl, h⟩, fun n hn ↦ ?_⟩
  have hne : n ≠ pindex := fun heq ↦ hn (heq ▸ h)
  exact ⟨Function.update_of_ne hne _ _, Function.update_of_ne hne _ _⟩

theorem keeps_connectBlock {pindex : CBlockIndex} (h : N pindex) (block : CBlock)
    (fJustCheck : Bool) : Keeps (InBatch N) (connectBlock w P block pindex fJustCheck) := by
  refine Keeps.bind (keeps_reads _) fun t ↦
    Keeps.bind (keeps_trackMoney h t) fun _ ↦
    Keeps.bind (keeps_writeBlockIndex P w _ _ _) fun _ ↦ ?_
  split
  · exact Keeps.pure ()
  · exact Keeps.bind (keeps_forEach fun mi _ ↦ keeps_writeDb w _ _ _) fun _ ↦
      Keeps.bind (keeps_writeHashNext P w _ _ _) fun _ ↦ Keeps.bind (keeps_emit _) fun _ ↦
      keeps_forEach fun _ _ ↦ keeps_emit _

theorem keeps_disconnectBranch (vDisconnect : List CBlockIndex) :
    ∀ vResurrect, Keeps (InBatch N) (disconnectBranch P w vDisconnect vResurrect) := by
  induction vDisconnect with
  | nil => exact fun vResurrect ↦ Keeps.pure _
  | cons pindex vDisconnect ih =>
    exact fun vResurrect ↦ Keeps.bind (keeps_reads _) fun block ↦
      Keeps.bind (keeps_disconnectBlock P w block pindex) fun _ ↦ ih _

theorem keeps_connectBranch {vConnect : List CBlockIndex} :
    (∀ pindex ∈ vConnect, N pindex) →
      ∀ vDelete, Keeps (InBatch N) (connectBranch P w vConnect vDelete) := by
  induction vConnect with
  | nil => exact fun _ vDelete ↦ Keeps.pure _
  | cons pindex vConnect ih =>
    exact fun h vDelete ↦ Keeps.bind (keeps_reads _) fun block ↦
      Keeps.bind (keeps_connectBlock P w (h pindex (by simp)) block false) fun _ ↦
      ih (fun n hn ↦ h n (by simp [hn])) _

end

end Bws
