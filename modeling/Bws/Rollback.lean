import Bws.Switch

/-!
# A switch that fails

`SetBestChain` returns false from many places, with blocks disconnected and connected in the
batch.  On each of these paths the batch is dropped before a pointer in memory has moved, so
that what is left of the call is the best invalid trust, and the money of blocks outside the
best chain (`setBestChain_rejected`).
-/

namespace Bws

open Chain (Node)
open NodeM NodeState

/-- From `s` to `s'` nothing is committed and memory is as it was, the best invalid trust and the
money of the blocks `N` apart. -/
structure RolledBack (N : CBlockIndex → Prop) (s s' : NodeState) : Prop where
  memory : { s'.forget with nBestInvalidTrust := 0 } = { s.forget with nBestInvalidTrust := 0 }
  pdb : ∀ key, key ≠ .bnBestInvalidTrust → s'.txdb.pdb key = s.txdb.pdb key
  money : ∀ n, ¬ N n → s'.nMint n = s.nMint n ∧ s'.nMoneySupply n = s.nMoneySupply n

namespace RolledBack

variable {N : CBlockIndex → Prop} {s s' s'' : NodeState}

theorem trans (h : RolledBack N s s') (h' : RolledBack N s' s'') : RolledBack N s s'' where
  memory := h'.memory.trans h.memory
  pdb key hk := (h'.pdb key hk).trans (h.pdb key hk)
  money n hn := ⟨(h'.money n hn).1.trans (h.money n hn).1, (h'.money n hn).2.trans (h.money n hn).2⟩

theorem of_inBatch (h : InBatch N s s') (ho : s.Open) : RolledBack N s s' where
  memory := congrArg (fun s : NodeState ↦ { s with nBestInvalidTrust := 0 }) h.memory
  pdb key _ := congrFun (h.pdb ho) key
  money := h.money

theorem begin_ (s : NodeState) : RolledBack N s s.begin_ :=
  ⟨rfl, fun _ _ ↦ rfl, fun _ _ ↦ ⟨rfl, rfl⟩⟩

theorem drop (s : NodeState) (o : Overlay.Op DbKey.Value) : RolledBack N s (s.record o).drop :=
  ⟨rfl, fun _ _ ↦ rfl, fun _ _ ↦ ⟨rfl, rfl⟩⟩

theorem abort (s : NodeState) : RolledBack N s s.abort :=
  ⟨rfl, fun _ _ ↦ rfl, fun _ _ ↦ ⟨rfl, rfl⟩⟩

theorem invalid (w : World) (s : NodeState) (pindexNew : CBlockIndex) :
    RolledBack N s (s.invalid w pindexNew) := by
  unfold NodeState.invalid
  split
  · refine ⟨rfl, fun key hk ↦ ?_, fun _ _ ↦ ⟨rfl, rfl⟩⟩
    unfold CTxDB.write CTxDB.record CTxDB.fresh
    cases w.putOk with
    | false => rfl
    | true => exact Function.update_of_ne hk _ _
  · exact ⟨rfl, fun _ _ ↦ rfl, fun _ _ ↦ ⟨rfl, rfl⟩⟩

section

variable (h : RolledBack N s s')
include h

theorem pindexBest : s'.pindexBest = s.pindexBest := (congrArg NodeState.pindexBest h.memory :)
theorem hashBestChain : s'.hashBestChain = s.hashBestChain :=
  (congrArg NodeState.hashBestChain h.memory :)
theorem nBestHeight : s'.nBestHeight = s.nBestHeight := (congrArg NodeState.nBestHeight h.memory :)
theorem nBestChainTrust : s'.nBestChainTrust = s.nBestChainTrust :=
  (congrArg NodeState.nBestChainTrust h.memory :)
theorem pnext : s'.pnext = s.pnext := (congrArg NodeState.pnext h.memory :)
theorem pblockindexFBBHLast : s'.pblockindexFBBHLast = s.pblockindexFBBHLast :=
  (congrArg NodeState.pblockindexFBBHLast h.memory :)
theorem mempool : s'.mempool = s.mempool := (congrArg NodeState.mempool h.memory :)
theorem mapBlockIndex : s'.mapBlockIndex = s.mapBlockIndex :=
  (congrArg NodeState.mapBlockIndex h.memory :)
theorem setStakeSeen : s'.setStakeSeen = s.setStakeSeen :=
  (congrArg NodeState.setStakeSeen h.memory :)
theorem files : s'.files = s.files := (congrArg NodeState.files h.memory :)
theorem pindexGenesisBlock : s'.pindexGenesisBlock = s.pindexGenesisBlock :=
  (congrArg NodeState.pindexGenesisBlock h.memory :)

end

end RolledBack

section

variable {P : Params} {w : World} {N : CBlockIndex → Prop} {s s' : NodeState} {nDoS : ℕ}
  {msg : String}

/-! ## Loops that do not fail -/

theorem forEach_ne_rejected {α : Type} {f : α → NodeM Unit}
    (h : ∀ a s s' nDoS msg, f a s ≠ .error (.rejected nDoS msg) s') (l : List α) :
    ∀ s, forEach f l s ≠ .error (.rejected nDoS msg) s' := by
  induction l with
  | nil => nofun
  | cons a l ih =>
    intro s hx
    rcases Exec.bind_eq_error.mp hx with hx | ⟨_, s₁, -, hx⟩
    · exact h _ _ _ _ _ hx
    · exact ih s₁ hx

theorem resurrect_ne_rejected (tx : CTransaction) (s : NodeState) :
    resurrect P w tx s ≠ .error (.rejected nDoS msg) s' := by
  unfold resurrect
  split <;> nofun

/-- After the commit, `Reorganize` returns true. -/
theorem followSwitch_ne_rejected (s : NodeState) (vDisconnect vConnect : List CBlockIndex)
    (vResurrect vDelete : List CTransaction) :
    followSwitch P w vDisconnect vConnect vResurrect vDelete s ≠
      .error (.rejected nDoS msg) s' := by
  rw [followSwitch_eq]
  split
  · nofun
  · rename_i e s₁ hr
    rintro ⟨⟩
    exact forEach_ne_rejected (fun tx s _ _ _ ↦ resurrect_ne_rejected tx s) _ _ hr

/-- The postponed blocks never make the switch fail. -/
theorem connectSecondary_ne_rejected (l : List CBlockIndex) :
    ∀ s, connectSecondary P w l s ≠ .error (.rejected nDoS msg) s' := by
  induction l with
  | nil => nofun
  | cons pindex l ih =>
    intro s
    rw [connectSecondary_cons]
    split
    · exact ih _
    · nofun
    · nofun

/-! ## The nested functions -/

theorem setBestChainInner_rejected {block : CBlock} {pindexNew : CBlockIndex} (ho : s.Open)
    (hN : N pindexNew)
    (h : setBestChainInner P w block pindexNew s = .error (.rejected nDoS msg) s') :
    RolledBack N s s' := by
  have hframe := keeps_connectBlock P w hN block false
  rw [setBestChainInner_eq P w ho] at h
  split at h
  · rename_i s₁ hc
    have hb := RolledBack.of_inBatch (hframe.ok hc) ho
    split at h
    · cases h
    · cases h
      exact hb.trans (.drop _ _)
  · rename_i s₁ hc
    cases h
    exact (RolledBack.of_inBatch (hframe.error hc) ho).trans ((RolledBack.abort _).trans (.invalid w _ _))
  · cases h

/-- The places where `Reorganize` returns false. -/
inductive ReorganizeFails (P : Params) (w : World) (s : NodeState) (pindexNew : CBlockIndex) :
    NodeState → Prop where
  | noFork (h : ∀ r, s.findFork pindexNew ≠ .ok r) : ReorganizeFails P w s pindexNew s
  | disconnect {pindexBest pfork : CBlockIndex} {e : Fault} {s₁ : NodeState}
      (hf : s.findFork pindexNew = .ok (pindexBest, pfork))
      (hd : disconnectBranch P w (Node.above pfork pindexBest) [] s = .error e s₁) :
    ReorganizeFails P w s pindexNew s₁
  | connect {pindexBest pfork : CBlockIndex} {vResurrect : List CTransaction} {e : Fault}
      {s₁ s₂ : NodeState} (hf : s.findFork pindexNew = .ok (pindexBest, pfork))
      (hd : disconnectBranch P w (Node.above pfork pindexBest) [] s = .ok vResurrect s₁)
      (hc : connectBranch P w (Node.above pfork pindexNew).reverse [] s₁ = .error e s₂) :
    ReorganizeFails P w s pindexNew s₂
  | commit {pindexBest pfork : CBlockIndex} {vResurrect vDelete : List CTransaction}
      {s₁ s₂ : NodeState} (hf : s.findFork pindexNew = .ok (pindexBest, pfork))
      (hd : disconnectBranch P w (Node.above pfork pindexBest) [] s = .ok vResurrect s₁)
      (hc : connectBranch P w (Node.above pfork pindexNew).reverse [] s₁ = .ok vDelete s₂) :
    ReorganizeFails P w s pindexNew
      (s₂.record (.put .hashBestChain pindexNew.getBlockHash)).drop

theorem reorganizeFails_of_rejected {pindexNew : CBlockIndex} (ho : s.Open)
    (h : reorganize P w pindexNew s = .error (.rejected nDoS msg) s') :
    ReorganizeFails P w s pindexNew s' := by
  rw [reorganize_eq P w ho] at h
  split at h
  · rename_i e hf
    cases h
    exact .noFork fun r hr ↦ by rw [hf] at hr; cases hr
  · rename_i pindexBest pfork hf
    split at h
    · rename_i e s₁ hd
      cases h
      exact .disconnect hf hd
    · rename_i vResurrect s₁ hd
      split at h
      · rename_i e s₂ hc
        cases h
        exact .connect hf hd hc
      · rename_i vDelete s₂ hc
        split at h
        · exact absurd h (followSwitch_ne_rejected _ _ _ _ _)
        · cases h
          exact .commit hf hd hc

theorem findFork_eq_ok {pindexNew b f : CBlockIndex} :
    s.findFork pindexNew = .ok (b, f) ↔
      s.pindexBest = some b ∧ Node.findFork b pindexNew = some f := by
  unfold findFork
  constructor
  · intro h
    split at h
    · cases h
    · rename_i b' hb
      split at h
      · cases h
      · rename_i f' hf
        cases h
        exact ⟨hb, hf⟩
  · rintro ⟨hb, hf⟩
    rw [hb]
    dsimp only
    rw [hf]

theorem reorganize_rejected {pindexNew : CBlockIndex} (ho : s.Open)
    (hN : ∀ b ∈ s.pindexBest, ∀ m ≤ pindexNew, ¬ m ≤ b → N m)
    (h : reorganize P w pindexNew s = .error (.rejected nDoS msg) s') : RolledBack N s s' := by
  -- the blocks to connect are not in the best chain
  have hconnect : ∀ {b f}, s.findFork pindexNew = .ok (b, f) →
      ∀ m ∈ (Node.above f pindexNew).reverse, N m := by
    intro b f hf m hm
    obtain ⟨hb, hfork⟩ := findFork_eq_ok.mp hf
    obtain ⟨-, hle, -⟩ := Chain.Node.findFork_spec hfork
    obtain ⟨hlt, hmn⟩ := (Chain.Node.mem_above hle).mp (List.mem_reverse.mp hm)
    exact hN _ hb m hmn (Chain.Node.not_le_of_fork_lt hfork hlt hmn)
  cases reorganizeFails_of_rejected ho h with
  | noFork hf => exact .of_inBatch (.refl s) ho
  | disconnect hf hd => exact .of_inBatch ((keeps_disconnectBranch P w _ _).error hd) ho
  | connect hf hd hc =>
    exact .of_inBatch (((keeps_disconnectBranch P w _ _).ok hd).trans
      ((keeps_connectBranch P w (hconnect hf) _).error hc)) ho
  | commit hf hd hc =>
    exact (RolledBack.of_inBatch (((keeps_disconnectBranch P w _ _).ok hd).trans
      ((keeps_connectBranch P w (hconnect hf) _).ok hc)) ho).trans (.drop _ _)

theorem postpone_le (nTrustBest : UInt256) :
    (n : CBlockIndex) → (postpone nTrustBest n).1 ≤ n
  | .root _ => le_rfl
  | .child e p => by
    unfold postpone
    split
    · exact (postpone_le nTrustBest p).trans (Chain.Node.parent_lt e p).le
    · exact le_rfl

theorem connectBest_rejected {block : CBlock} {pindexNew : CBlockIndex} (ho : s.Open)
    (hN : ∀ b ∈ s.pindexBest, ∀ m ≤ pindexNew, ¬ m ≤ b → N m)
    (hext : block.hashPrevBlock = s.hashBestChain → N pindexNew)
    (h : connectBest P w block pindexNew s = .error (.rejected nDoS msg) s') :
    RolledBack N s s' := by
  unfold connectBest at h
  split at h
  · -- the genesis block: only the commit can fail
    rw [setGenesis_eq w ho] at h
    split at h
    · cases h
    · cases h
      exact .drop _ _
  · split at h
    · rename_i hprev
      rw [extendTip_eq] at h
      split at h
      · cases h
      · rename_i s₁ hx
        cases h
        exact setBestChainInner_rejected ho (hext hprev) hx
      · cases h
    · rw [switchBranch_eq] at h
      split at h
      · cases h
      · split at h
        · exact absurd h (connectSecondary_ne_rejected _ _)
        · rename_i s₁ hx
          cases h
          refine (reorganize_rejected ho (fun b hb m hm ↦ hN b hb m ?_) hx).trans
            ((RolledBack.abort _).trans (.invalid w _ _))
          exact hm.trans (postpone_le _ _)
        · cases h

/-- **A switch that returns false changes nothing but the best invalid trust**, and the money of
blocks that are not in the best chain. -/
theorem setBestChain_rejected {block : CBlock} {pindexNew : CBlockIndex}
    (hN : ∀ b ∈ s.pindexBest, ∀ m ≤ pindexNew, ¬ m ≤ b → N m)
    (hext : block.hashPrevBlock = s.hashBestChain → N pindexNew)
    (h : setBestChain P w block pindexNew s = .error (.rejected nDoS msg) s') :
    RolledBack N s s' := by
  by_cases ho : s.Open
  · have hb := txnBegin_eq s
    rw [if_pos ho] at hb
    unfold setBestChain at h
    rw [Exec.bind_of_error hb] at h
    cases h
  · rw [setBestChain_eq P w ho] at h
    split at h
    · cases h
    · rename_i s₁ hx
      cases h
      exact (RolledBack.begin_ s).trans (connectBest_rejected s.open_begin hN hext hx)

/-- **If `SetBestChain` returns false, the committed database, the links of the index, the globals
of the tip and the memory pool are exactly as before.**  Only the recorded best invalid trust may
differ, and the money of entries outside the best chain when the block was not in it. -/
theorem unchanged_of_setBestChain_false {block : CBlock} {pindexNew : CBlockIndex}
    (h : setBestChain P w block pindexNew s = .error (.rejected nDoS msg) s') :
    (∀ key, key ≠ .bnBestInvalidTrust → s'.txdb.pdb key = s.txdb.pdb key) ∧
      s'.pnext = s.pnext ∧ s'.pindexBest = s.pindexBest ∧ s'.hashBestChain = s.hashBestChain ∧
      s'.nBestHeight = s.nBestHeight ∧ s'.nBestChainTrust = s.nBestChainTrust ∧
      s'.mempool = s.mempool ∧ s'.mapBlockIndex = s.mapBlockIndex ∧
      s'.pindexGenesisBlock = s.pindexGenesisBlock ∧
      ∀ b ∈ s.pindexBest, ¬ pindexNew ≤ b →
        ∀ n ≤ b, s'.nMint n = s.nMint n ∧ s'.nMoneySupply n = s.nMoneySupply n := by
  have hr : RolledBack (fun _ ↦ True) s s' :=
    setBestChain_rejected (fun _ _ _ _ _ ↦ trivial) (fun _ ↦ trivial) h
  refine ⟨hr.pdb, hr.pnext, hr.pindexBest, hr.hashBestChain, hr.nBestHeight, hr.nBestChainTrust,
    hr.mempool, hr.mapBlockIndex, hr.pindexGenesisBlock, fun b hb hnew n hn ↦ ?_⟩
  -- only blocks outside the chain of `b` are connected
  have hr' : RolledBack (fun m ↦ ¬ m ≤ b) s s' := by
    refine setBestChain_rejected (fun b' hb' m _ hm ↦ ?_) (fun _ ↦ hnew) h
    cases Option.mem_unique hb hb'
    exact hm
  exact hr'.money n fun hm ↦ hm hn

/-- A block whose coinbase pays too much is offered to a node that has just started. -/
theorem unchanged_of_setBestChain_false_sample :
    let block := Sample.block 1 1 (6 * 10 ^ 15) 0 []
    let pindexNew := Sample.indexOf Sample.start block
    let s := Sample.start.addIndex pindexNew
    let r := setBestChain Sample.params Sample.world block pindexNew s
    Exec.error? r = some (.rejected 0 "SetBestChain() : SetBestChainInner failed") ∧
      (Exec.final r).pnext = s.pnext ∧ (Exec.final r).mempool = s.mempool := by
  intro block pindexNew s r
  have h : Exec.error? r = some (.rejected 0 "SetBestChain() : SetBestChainInner failed") := by
    decide +kernel
  have hr := unchanged_of_setBestChain_false (Exec.eq_error_of_error? h)
  exact ⟨h, hr.2.1, hr.2.2.2.2.2.2.1⟩

end

end Bws
