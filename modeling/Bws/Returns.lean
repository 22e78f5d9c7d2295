import Bws.Fetch
import Bws.Reach

/-!
# SetBestChain returns

In a well-formed state a switch ends with true or false: neither `ConnectBlock` nor what follows
the commit throws.  So whatever state the node is left in, `SetBestChain` has either returned true
or changed nothing (`setBestChain_ok_or_rejected`).
-/

namespace Bws

open Chain (Node)
open NodeM NodeState

/-! ## Connecting a block -/

theorem clean_checkTransactions (block : CBlock) (vtx : List CTransaction) :
    Clean (checkTransactions block vtx) := by
  induction vtx with
  | nil => exact .ok ()
  | cons tx vtx ih =>
    unfold checkTransactions
    split
    · exact .reject _ _
    · rename_i msg h
      exact absurd h (clean_checkTransaction tx msg)
    · exact .bind (.rejectIf _ _ _) fun _ _ ↦ ih

theorem clean_checkBlock (P : Params) (w : World) (block : CBlock)
    (fCheckPOW fCheckMerkleRoot fCheckSig : Bool) :
    Clean (checkBlock P w block fCheckPOW fCheckMerkleRoot fCheckSig) := by
  have hshape : Clean (checkStakeShape block) := by
    unfold checkStakeShape
    split
    · exact .bind (.rejectIf _ _ _) fun _ _ ↦ .bind (.rejectIf _ _ _) fun _ _ ↦ .rejectIf _ _ _
    · exact .ok ()
  exact .bind (.rejectIf _ _ _) fun _ _ ↦ .bind (.rejectIf _ _ _) fun _ _ ↦
    .bind (.rejectIf _ _ _) fun _ _ ↦ .bind (.rejectIf _ _ _) fun _ _ ↦
    .bind (.rejectIf _ _ _) fun _ _ ↦ .bind hshape fun _ _ ↦ .bind (.rejectIf _ _ _) fun _ _ ↦
    .bind (clean_checkTransactions _ _) fun _ _ ↦ .bind (.rejectIf _ _ _) fun _ _ ↦
    .bind (.rejectIf _ _ _) fun _ _ ↦ .rejectIf _ _ _

section

variable {P : Params} {w : World} {V : TxView} {pindex : CBlockIndex} {fJustCheck : Bool}

theorem clean_connectSpending {t : BlockTotals} {tx : CTransaction} (hcb : ¬ tx.isCoinBase)
    (htx : checkTransaction tx = .ok ()) : Clean (connectSpending P V pindex t tx) := by
  obtain ⟨v, hv⟩ := getValueOut_of_checkTransaction htx
  refine .bind (.dropScore (clean_fetchInputs tx)) fun inputs hin ↦ ?_
  have hf := (fetchInputs_eq_ok hcb (dropScore_eq_ok.mp hin)).1
  exact .bind (clean_getP2SHSigOpCount fun _ ↦ hf) fun _ _ ↦ .bind (.rejectIf _ _ _) fun _ _ ↦
    .bind (clean_getValueIn fun _ ↦ hf) fun _ _ ↦ .bind (.of_eq_ok hv) fun _ _ ↦
    .bind (.dropScore (clean_connectInputs hv (fun _ ↦ hf) _)) fun _ _ ↦ .ok _

theorem clean_connectTxs {vtx : List CTransaction}
    (h : ∀ tx ∈ vtx, checkTransaction tx = .ok ()) :
    ∀ t, Clean (connectTxs P V pindex fJustCheck t vtx) := by
  induction vtx with
  | nil => exact fun _ ↦ .ok _
  | cons tx vtx ih =>
    intro t
    have htx := h tx (by simp)
    have heither : ∀ t, Clean (connectEither P V pindex t tx) := by
      intro t
      unfold connectEither
      split
      · obtain ⟨v, hv⟩ := getValueOut_of_checkTransaction htx
        exact .bind (.of_eq_ok hv) fun _ _ ↦ .ok _
      · rename_i hcb
        exact clean_connectSpending hcb htx
    exact .bind (.bind (.bind (.rejectIf _ _ _) fun _ _ ↦ .bind (.rejectIf _ _ _) fun _ _ ↦ .ok _)
      fun _ _ ↦ .bind (heither _) fun _ _ ↦ .ok _) fun _ _ ↦ ih (fun tx hmem ↦ h tx (by simp [hmem])) _

theorem clean_connectBlockCheck {pindexBest : Option CBlockIndex} (hbest : pindexBest.isSome)
    (block : CBlock) :
    Clean (connectBlockCheck P w V pindexBest block pindex fJustCheck) := by
  refine .bind (clean_checkBlock P w block _ _ _) fun _ hcheck ↦ ?_
  have hblock := checkedBlock_of_checkBlock hcheck
  refine .bind (clean_connectTxs hblock.transactions _) fun t _ ↦ .bind ?_ fun _ _ ↦
    .bind ?_ fun _ _ ↦ .ok _
  · unfold checkWorkReward
    split
    · exact .ok _
    · obtain ⟨tx, htx, -⟩ := hblock.coinbase
      obtain ⟨b, rfl⟩ := Option.isSome_iff_exists.mp hbest
      rw [Option.mem_def.mp htx]
      dsimp only
      obtain ⟨v, hv⟩ := getValueOut_of_checkTransaction
        (hblock.transactions tx (List.mem_of_getElem? htx))
      exact .bind (.of_eq_ok hv) fun _ _ ↦ .rejectIf _ _ _
  · unfold checkStakeReward
    split
    · rename_i hstake
      obtain ⟨tx, htx, -⟩ := hstake.2
      rw [Option.mem_def.mp htx]
      dsimp only
      split
      · exact .reject _ _
      · exact .bind (.rejectIf _ _ _) fun _ _ ↦ .rejectIf _ _ _
    · exact .ok _

end

/-! ## Programs that throw nothing -/

/-- The program returns, true or false, from every state. -/
def NoThrow {α : Type} (x : NodeM α) : Prop := ∀ s msg s', x s ≠ .error (.thrown msg) s'

namespace NoThrow

variable {α β : Type}

theorem bind {x : NodeM α} {f : α → NodeM β} (hx : NoThrow x) (hf : ∀ a, NoThrow (f a)) :
    NoThrow (x >>= f) := by
  intro s msg s' h
  rcases Exec.bind_eq_error.mp h with h | ⟨a, s₁, -, h⟩
  · exact hx s msg s' h
  · exact hf a s₁ msg s' h

theorem pure (a : α) : NoThrow (Pure.pure a : NodeM α) := by
  intro s msg s' h
  cases h

theorem assign (f : NodeState → NodeState) : NoThrow (assign f) := by
  intro s msg s' h
  cases h

theorem reads {f : NodeState → Except Fault α} (h : ∀ s, Clean (f s)) : NoThrow (reads f) := by
  intro s msg s' hx
  unfold NodeM.reads at hx
  split at hx
  · cases hx
  · rename_i e he
    cases hx
    exact h s msg he

theorem forEach {f : α → NodeM Unit} (h : ∀ a, NoThrow (f a)) (l : List α) :
    NoThrow (forEach f l) := by
  induction l with
  | nil => exact pure ()
  | cons a l ih => exact bind (h a) fun _ ↦ ih

end NoThrow

section

variable (P : Params) (w : World)

theorem noThrow_writeDb (key : DbKey) (value : key.Value) (msg : String) :
    NoThrow (writeDb w key value msg) := by
  intro s msg' s' h
  unfold writeDb at h
  split at h <;> cases h

theorem noThrow_writeBlockIndex (pindex : CBlockIndex) (f : CDiskBlockIndex → CDiskBlockIndex)
    (msg : String) : NoThrow (writeBlockIndex w P pindex f msg) :=
  .bind (.reads fun _ ↦ .ok _) fun _ ↦ noThrow_writeDb w _ _ _

theorem noThrow_writeHashNext (pindex : CBlockIndex) (hashNext : UInt256) (msg : String) :
    NoThrow (writeHashNext w P pindex hashNext msg) := by
  unfold writeHashNext
  split
  · exact .pure ()
  · exact noThrow_writeBlockIndex P w _ _ _

theorem noThrow_disconnectBlock (block : CBlock) (pindex : CBlockIndex) :
    NoThrow (disconnectBlock w P block pindex) := by
  refine .bind (.forEach (fun tx ↦ .bind ?_ fun _ ↦ .assign _) _) fun _ ↦
    .bind (noThrow_writeHashNext P w _ _ _) fun _ ↦ .bind (.assign _) fun _ ↦
    .forEach (fun _ ↦ .assign _) _
  unfold releaseInputs
  split
  · exact .pure ()
  · refine .forEach (fun txin ↦ .bind (.reads fun s ↦ ?_) fun _ ↦ noThrow_writeDb w _ _ _) _
    split
    · exact .reject _ _
    · split
      · exact .reject _ _
      · exact .ok _

theorem noThrow_connectBlock {s s' : NodeState} (hbest : s.pindexBest.isSome) {block : CBlock}
    {pindex : CBlockIndex} {msg : String} :
    connectBlock w P block pindex false s ≠ .error (.thrown msg) s' := by
  intro h
  rcases Exec.bind_eq_error.mp h with h | ⟨t, s₁, -, h⟩
  · unfold NodeM.reads at h
    split at h
    · cases h
    · rename_i e he
      cases h
      exact clean_connectBlockCheck hbest block msg he
  · refine NoThrow.bind (.assign _) (fun _ ↦ .bind (noThrow_writeBlockIndex P w _ _ _) fun _ ↦ ?_)
      s₁ msg s' h
    exact .bind (.forEach (fun _ ↦ noThrow_writeDb w _ _ _) _) fun _ ↦
      .bind (noThrow_writeHashNext P w _ _ _) fun _ ↦ .bind (.assign _) fun _ ↦
      .forEach (fun _ ↦ .assign _) _

theorem noThrow_readBlock (pindex : CBlockIndex) (msg : String) :
    NoThrow (readBlock P w pindex msg) := by
  refine .reads fun s ↦ ?_
  split
  · exact .reject _ _
  · exact .ok _

theorem noThrow_disconnectBranch (vDisconnect : List CBlockIndex) :
    ∀ vResurrect, NoThrow (disconnectBranch P w vDisconnect vResurrect) := by
  induction vDisconnect with
  | nil => exact fun _ ↦ .pure _
  | cons pindex vDisconnect ih =>
    exact fun _ ↦ .bind (noThrow_readBlock P w _ _) fun _ ↦
      .bind (noThrow_disconnectBlock P w _ _) fun _ ↦ ih _

theorem noThrow_connectBranch (vConnect : List CBlockIndex) :
    ∀ {vDelete s s' msg}, s.pindexBest.isSome →
      connectBranch P w vConnect vDelete s ≠ .error (.thrown msg) s' := by
  induction vConnect with
  | nil => exact fun _ ↦ nofun
  | cons pindex vConnect ih =>
    intro vDelete s s' msg hbest h
    rcases Exec.bind_eq_error.mp h with h | ⟨block, s₁, h₁, h₂⟩
    · exact noThrow_readBlock P w _ _ _ _ _ h
    · obtain ⟨-, rfl⟩ := readBlock_eq_ok.mp h₁
      rcases Exec.bind_eq_error.mp h₂ with h₃ | ⟨⟨⟩, s₂, h₃, h₄⟩
      · exact noThrow_connectBlock P w hbest h₃
      · have := (keeps_connectBlock (N := fun _ ↦ True) P w trivial block false).ok h₃
        exact ih (this.pindexBest ▸ hbest) h₄

theorem noThrow_resurrect (tx : CTransaction) : NoThrow (resurrect P w tx) := by
  intro s msg s' h
  unfold resurrect at h
  split at h
  · cases h
  · cases h
  · rename_i msg' hx
    exact clean_acceptToMemoryPool P w s tx false msg' hx

/-- After the commit `Reorganize` returns true. -/
theorem followSwitch_eq_ok (s : NodeState) (vDisconnect vConnect : List CBlockIndex)
    (vResurrect vDelete : List CTransaction) :
    ∃ s', followSwitch P w vDisconnect vConnect vResurrect vDelete s = .ok () s' := by
  cases h : followSwitch P w vDisconnect vConnect vResurrect vDelete s with
  | ok u s' => exact ⟨s', rfl⟩
  | error e s' =>
    cases e with
    | rejected nDoS msg => exact absurd h (followSwitch_ne_rejected _ _ _ _ _)
    | thrown msg =>
      refine absurd h (NoThrow.bind (.forEach (fun _ ↦ .assign _) _) (fun _ ↦
        .bind (.forEach (fun _ ↦ .assign _) _) fun _ ↦ .bind (.forEach (noThrow_resurrect P w) _)
        fun _ ↦ .forEach (fun _ ↦ .assign _) _) s msg s')

end

/-! ## After the commit -/

/-- From `s` to `s'` only the memory pool has changed, and the wallets were told of loose
transactions. -/
structure InPool (s s' : NodeState) : Prop where
  memory : { s' with mempool := .empty, events := [] } = { s with mempool := .empty, events := [] }
  events : ∃ txs : List CTransaction,
    s'.events = s.events ++ txs.map fun tx ↦ .syncWithWallets tx none true

namespace InPool

variable {s s' : NodeState}

instance : Exec.IsFrame InPool where
  refl _ := ⟨rfl, [], by simp⟩
  trans h h' := by
    obtain ⟨txs, htxs⟩ := h.events
    obtain ⟨txs', htxs'⟩ := h'.events
    exact ⟨h'.memory.trans h.memory, txs ++ txs', by rw [htxs', htxs]; simp⟩

section

variable (h : InPool s s')
include h

theorem txdb : s'.txdb = s.txdb := (congrArg NodeState.txdb h.memory :)
theorem files : s'.files = s.files := (congrArg NodeState.files h.memory :)
theorem pnext : s'.pnext = s.pnext := (congrArg NodeState.pnext h.memory :)
theorem pindexBest : s'.pindexBest = s.pindexBest := (congrArg NodeState.pindexBest h.memory :)
theorem hashBestChain : s'.hashBestChain = s.hashBestChain :=
  (congrArg NodeState.hashBestChain h.memory :)

end

theorem of_mempool (s : NodeState) (mempool : CTxMemPool) : InPool s { s with mempool } :=
  ⟨rfl, [], by simp⟩

end InPool

section

variable {P : Params} {w : World}

theorem inPool_resurrect (tx : CTransaction) : Exec.Keeps InPool (resurrect P w tx) := by
  intro s
  unfold resurrect
  cases h : acceptToMemoryPool P w s tx false with
  | ok s' =>
    obtain ⟨-, -, rfl⟩ := acceptToMemoryPool_eq_ok h
    exact ⟨rfl, [tx], rfl⟩
  | error e => cases e <;> exact Exec.IsFrame.refl s

theorem inPool_foldl {α : Type} {f : NodeState → α → NodeState} (hf : ∀ s a, InPool s (f s a))
    (l : List α) : ∀ s, InPool s (l.foldl f s) := by
  induction l with
  | nil => exact fun s ↦ Exec.IsFrame.refl s
  | cons a l ih => exact fun s ↦ Exec.IsFrame.trans (hf s a) (ih (f s a))

theorem inPool_removeAll (s : NodeState) (vtx : List CTransaction) :
    InPool s (s.removeAll P vtx) := inPool_foldl (fun s _ ↦ .of_mempool s _) vtx s

/-- The end of `Reorganize`: the links follow the switch, and then the memory pool. -/
theorem inPool_followSwitch {s s' : NodeState} {vDisconnect vConnect : List CBlockIndex}
    {vResurrect vDelete : List CTransaction}
    (h : followSwitch P w vDisconnect vConnect vResurrect vDelete s = .ok () s') :
    InPool (s.relink vDisconnect vConnect) s' := by
  rw [followSwitch_eq] at h
  split at h
  · rename_i s₁ hr
    cases h
    exact Exec.IsFrame.trans ((keeps_forEach fun tx _ ↦ inPool_resurrect tx).ok hr)
      (inPool_foldl (fun s _ ↦ .of_mempool s _) vDelete s₁)
  · cases h

theorem txdb_link (s : NodeState) (pindex : CBlockIndex) (next : Option CBlockIndex) :
    (s.link pindex next).txdb = s.txdb := by
  unfold link
  split <;> rfl

theorem txdb_relink (s : NodeState) (vDisconnect vConnect : List CBlockIndex) :
    (s.relink vDisconnect vConnect).txdb = s.txdb := by
  have hfold : ∀ (next : CBlockIndex → Option CBlockIndex) (l : List CBlockIndex) (s : NodeState),
      (l.foldl (fun s pindex ↦ s.link pindex (next pindex)) s).txdb = s.txdb := by
    intro next l
    induction l with
    | nil => exact fun _ ↦ rfl
    | cons a l ih => exact fun s ↦ (ih _).trans (txdb_link s a _)
  exact (hfold some _ _).trans (hfold (fun _ ↦ none) _ _)

variable {s s' : NodeState} {block : CBlock} {pindexNew : CBlockIndex} {nDoS : ℕ} {msg : String}

theorem setBestChainInner_ne_thrown (ho : s.Open) (hbest : s.pindexBest.isSome) :
    setBestChainInner P w block pindexNew s ≠ .error (.thrown msg) s' := by
  intro h
  rw [setBestChainInner_eq P w ho] at h
  split at h
  · split at h <;> cases h
  · cases h
  · rename_i s₁ hc
    exact noThrow_connectBlock P w hbest hc

theorem setBestChainInner_ok (ho : s.Open)
    (h : setBestChainInner P w block pindexNew s = .ok () s') :
    ∃ s₁, connectBlock w P block pindexNew false s = .ok () s₁ ∧ s' = s₁.attached P block pindexNew := by
  rw [setBestChainInner_eq P w ho] at h
  split at h
  · rename_i s₁ hc
    split at h
    · cases h
      exact ⟨s₁, hc, rfl⟩
    · cases h
  · cases h
  · cases h

theorem inPool_attached (s : NodeState) (block : CBlock) (pindexNew : CBlockIndex) :
    InPool (((s.record (.put .hashBestChain (P.blockHash block.toCBlockHeader))).commit).link
      pindexNew (some pindexNew)) (s.attached P block pindexNew) := inPool_removeAll _ _

theorem not_open_attached (s : NodeState) (block : CBlock) (pindexNew : CBlockIndex) :
    ¬ (s.attached P block pindexNew).Open := by
  unfold NodeState.Open
  rw [(inPool_attached s block pindexNew).txdb, txdb_link]
  nofun

theorem reorganize_ne_thrown (ho : s.Open) (hbest : s.pindexBest.isSome) :
    reorganize P w pindexNew s ≠ .error (.thrown msg) s' := by
  intro h
  rw [reorganize_eq P w ho] at h
  split at h
  · rename_i e hf
    cases h
    unfold findFork at hf
    split at hf
    · rename_i hnone
      rw [hnone] at hbest
      cases hbest
    · split at hf <;> cases hf
  · split at h
    · rename_i hd
      cases h
      exact noThrow_disconnectBranch P w _ _ _ _ _ hd
    · rename_i vResurrect s₁ hd
      have h₁ := (keeps_disconnectBranch (N := fun _ ↦ True) P w _ _).ok hd
      split at h
      · rename_i hc
        cases h
        exact noThrow_connectBranch P w _ (h₁.pindexBest ▸ hbest) hc
      · split at h
        · obtain ⟨s₂, hs₂⟩ := followSwitch_eq_ok P w _ _ _ _ _
          rw [hs₂] at h
          cases h
        · cases h

/-- After a reorganisation that has returned true no batch is open. -/
theorem reorganize_ok (ho : s.Open) (h : reorganize P w pindexNew s = .ok () s') :
    ∃ b f vResurrect vDelete s₁ s₂, s.pindexBest = some b ∧ Node.findFork b pindexNew = some f ∧
      disconnectBranch P w (Node.above f b) [] s = .ok vResurrect s₁ ∧
      connectBranch P w (Node.above f pindexNew).reverse [] s₁ = .ok vDelete s₂ ∧
      followSwitch P w (Node.above f b) (Node.above f pindexNew).reverse vResurrect vDelete
        (s₂.record (.put .hashBestChain pindexNew.getBlockHash)).commit = .ok () s' := by
  rw [reorganize_eq P w ho] at h
  split at h
  · cases h
  · rename_i b f hf
    obtain ⟨hb, hfork⟩ := findFork_eq_ok.mp hf
    split at h
    · cases h
    · rename_i vResurrect s₁ hd
      split at h
      · cases h
      · rename_i vDelete s₂ hc
        split at h
        · exact ⟨b, f, vResurrect, vDelete, s₁, s₂, hb, hfork, hd, hc, h⟩
        · cases h

theorem not_open_of_reorganize_ok (ho : s.Open) (h : reorganize P w pindexNew s = .ok () s') :
    ¬ s'.Open := by
  obtain ⟨b, f, vResurrect, vDelete, s₁, s₂, -, -, -, -, hx⟩ := reorganize_ok ho h
  unfold NodeState.Open
  rw [(inPool_followSwitch hx).txdb, txdb_relink]
  nofun

theorem connectSecondary_ne_thrown (l : List CBlockIndex) :
    ∀ {s s' msg}, ¬ s.Open → s.pindexBest.isSome →
      connectSecondary P w l s ≠ .error (.thrown msg) s' := by
  induction l with
  | nil => exact fun _ _ ↦ nofun
  | cons pindex l ih =>
    intro s s' msg hc hbest h
    have hrest : ∀ msg s', connectPostponed P w pindex s ≠ .error (.thrown msg) s' := by
      intro msg s' h
      rw [connectPostponed_eq P w hc] at h
      split at h
      · cases h
      · exact setBestChainInner_ne_thrown (open_begin s) hbest h
    rw [connectSecondary_cons] at h
    split at h
    · rename_i s₁ hx
      rw [connectPostponed_eq P w hc] at hx
      split at hx
      · cases hx
      · have hsame := (same_setBestChainInner P w _ pindex).ok hx
        obtain ⟨s₂, -, rfl⟩ := setBestChainInner_ok (open_begin s) hx
        exact ih (not_open_attached s₂ _ _) (hsame.pindexBest ▸ hbest) h
    · cases h
    · rename_i hx
      exact hrest _ _ hx

/-- **In a well-formed state `SetBestChain` returns.** -/
theorem setBestChain_ok_or_rejected (w : World) (block : CBlock) (pindexNew : CBlockIndex)
    (hs : s.Wf P) :
    (∃ s', setBestChain P w block pindexNew s = .ok () s') ∨
      ∃ nDoS msg s', setBestChain P w block pindexNew s = .error (.rejected nDoS msg) s' := by
  obtain ⟨b, hb, -⟩ := hs.tip
  have hbest : s.begin_.pindexBest.isSome := by
    rw [show s.begin_.pindexBest = some b from hb]
    rfl
  rw [setBestChain_eq P w hs.closed]
  cases hx : connectBest P w block pindexNew s.begin_ with
  | ok u s₁ => exact Or.inl ⟨_, rfl⟩
  | error e s₁ =>
    cases e with
    | rejected nDoS msg => exact Or.inr ⟨nDoS, msg, s₁, rfl⟩
    | thrown msg =>
      exfalso
      unfold connectBest at hx
      split at hx
      · rw [setGenesis_eq w (open_begin s)] at hx
        split at hx <;> cases hx
      · split at hx
        · rw [extendTip_eq] at hx
          split at hx
          · cases hx
          · cases hx
          · rename_i hinner
            exact setBestChainInner_ne_thrown (open_begin s) hbest hinner
        · rw [switchBranch_eq, show s.begin_.pindexBest = some b from hb] at hx
          dsimp only at hx
          split at hx
          · rename_i s₂ hreorg
            exact connectSecondary_ne_thrown _ (not_open_of_reorganize_ok (open_begin s) hreorg)
              ((same_reorganize P w _).ok hreorg |>.pindexBest ▸ hbest) hx
          · cases hx
          · rename_i hreorg
            exact reorganize_ne_thrown (open_begin s) hbest hreorg

end

end Bws
