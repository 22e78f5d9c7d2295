import Bws.ProcessBlock
import Bws.Returns

/-!
# Blocks that wait

What a run keeps of the orphan blocks (`Receives.holding`).  The two maps hold the same records in every
run, and the size is theirs.  A stake is erased with the first of two orphans that share it, so that
`setStakeSeenOrphan` is what it should be in the runs that erase no orphan with such a twin
(`Receives.consistent`).  And an orphan whose parent is in `mapBlockIndex` is left only where
`AcceptBlock` has put the parent there and returned false (`Receives.caughtUp`).
-/

namespace Bws

open NodeM NodeState

section

variable {P : Params}

/-! ## AcceptBlock returns -/

theorem clean_checkAccept {w : World} {s : NodeState} (hs : s.Wf P) {block : CBlock}
    (hvtx : block.vtx ≠ []) : Clean (checkAccept P w s block) := by
  obtain ⟨b, hb, -⟩ := hs.tip
  obtain ⟨coinbase, vtx, hcons⟩ := List.exists_cons_of_ne_nil hvtx
  have hcoinbase : block.vtx[0]? = some coinbase := by rw [hcons]; rfl
  unfold checkAccept
  refine .bind (.rejectIf _ _ _) fun _ _ ↦ .bind (.rejectIf _ _ _) fun _ _ ↦ ?_
  rw [hb, hcoinbase]
  cases s.mapBlockIndex block.hashPrevBlock with
  | none => exact .reject _ _
  | some pindexPrev =>
    have hproof : Clean (proofHash P w s pindexPrev block) := by
      unfold proofHash
      split
      · rename_i hpos
        obtain ⟨-, tx, htx, -⟩ := hpos
        refine .withText ?_ _
        rw [show block.vtx[1]? = some tx from htx]
        refine .dropScore ?_
        unfold checkProofOfStake
        refine .bind (.rejectIf _ _ _) fun _ _ ↦ ?_
        split
        · exact .reject _ _
        · split
          · exact .reject _ _
          · refine .bind (.rejectIf _ _ _) fun _ _ ↦ ?_
            split
            · exact .reject _ _
            · refine .bind (.rejectIf _ _ _) fun _ _ ↦ ?_
              split
              · exact .reject _ _
              · exact .ok _
      · exact .ok _
    refine .bind (.rejectIf _ _ _) fun _ _ ↦ .bind (.rejectIf _ _ _) fun _ _ ↦
      .bind (.rejectIf _ _ _) fun _ _ ↦ .bind (.rejectIf _ _ _) fun _ _ ↦
      .bind (.rejectIf _ _ _) fun _ _ ↦ .bind (.rejectIf _ _ _) fun _ _ ↦
      .bind (.rejectIf _ _ _) fun _ _ ↦ .bind (.rejectIf _ _ _) fun _ _ ↦
      .bind hproof fun _ _ ↦ .bind (.rejectIf _ _ _) fun _ _ ↦
      .bind (.rejectIf _ _ _) fun _ _ ↦ .ok _

theorem clean_newBlockIndex (s : NodeState) (block : CBlock) (nFile nBlockPos : ℕ)
    (hashProof : UInt256) : Clean (newBlockIndex P s block nFile nBlockPos hashProof) := by
  unfold newBlockIndex
  refine .bind (.rejectIf _ _ _) fun _ _ ↦ ?_
  dsimp only
  split
  · exact .reject _ _
  · split <;> exact .ok _

/-- **In a well-formed state `AcceptBlock` returns.** -/
theorem acceptBlock_ne_thrown {w : World} {s : NodeState} (hs : s.Wf P) {block : CBlock}
    (hvtx : block.vtx ≠ []) {msg : String} {s' : NodeState} :
    acceptBlock P w block s ≠ .error (.thrown msg) s' := by
  intro hthrown
  unfold acceptBlock at hthrown
  cases hcheck : checkAccept P w s block with
  | error e =>
    rw [Exec.bind_of_error (reads_of_error hcheck)] at hthrown
    cases hthrown
    exact clean_checkAccept hs hvtx msg hcheck
  | ok hashProof =>
    rw [Exec.bind_of_ok (reads_of_ok hcheck)] at hthrown
    have hwrite := writeToDisk_eq w s block
    by_cases happend : w.appendOk
    · rw [if_pos happend] at hwrite
      rw [Exec.bind_of_ok hwrite] at hthrown
      unfold addToBlockIndex at hthrown
      cases hn : newBlockIndex P (s.stored w block) block
          w.nFile (s.files.writeToDisk w.nFile block).2 hashProof with
      | error e =>
        rw [Exec.bind_of_error (reads_of_error hn)] at hthrown
        cases hthrown
        exact clean_newBlockIndex _ _ _ _ _ msg hn
      | ok n =>
        obtain ⟨hhash, hfile, hpos, hnew, hprev⟩ := newBlockIndex_eq_ok hn
        obtain ⟨p, -, hp, -⟩ := checkAccept_eq_ok hcheck
        have ho : Offered P w s block n := by
          refine ⟨⟨hashProof, hcheck, hn⟩, hhash, hhash ▸ hnew, ⟨p, hprev.trans hp, hp⟩, ?_, hvtx⟩
          rw [hfile, hpos]
          exact BlockFiles.blockAt_writeToDisk _ _ _
        rw [Exec.bind_of_ok (reads_of_ok hn)] at hthrown
        have henter := enterBlock_eq P w (s := s.stored w block) hs.closed block n
        have hfresh : ((s.stored w block).addIndex n).close = (s.stored w block).addIndex n :=
          close_eq hs.closed
        have hdb : Exec.mapState (fun s ↦ s.close) (enterBlock P w block n
            ((s.stored w block).addIndex n).close) = .error (.thrown msg) s' := hthrown
        rw [hfresh, henter] at hdb
        split at hdb
        · unfold setIfBest at hdb
          split at hdb
          · rcases setBestChain_ok_or_rejected w block n (hs.offered ho) with
              ⟨s₁, h₁⟩ | ⟨nDoS, m, s₁, h₁⟩
            · rw [show (s.stored w block).entered P n = s.offered P w block n from rfl, h₁] at hdb
              cases hdb
            · rw [show (s.stored w block).entered P n = s.offered P w block n from rfl, h₁] at hdb
              cases hdb
          · cases hdb
        · cases hdb
    · rw [if_neg happend] at hwrite
      rw [Exec.bind_of_error hwrite] at hthrown
      cases hthrown

/-- `SetBestChain` leaves the index alone. -/
theorem mapBlockIndex_setBestChain {w : World} {s : NodeState} (hs : ¬ s.Open) (block : CBlock)
    (n : CBlockIndex) :
    (Exec.final (setBestChain P w block n s)).close.mapBlockIndex = s.mapBlockIndex := by
  rw [setBestChain_eq P w hs]
  have hsame := same_connectBest P w block n s.begin_
  cases hx : connectBest P w block n s.begin_ with
  | ok u s₁ =>
    rw [hx] at hsame
    exact hsame.mapBlockIndex
  | error e s₁ =>
    rw [hx] at hsame
    exact hsame.mapBlockIndex

/-- Nothing but the block itself enters the index. -/
theorem isSome_mapBlockIndex_of_outcome {w : World} {s s' : NodeState} (hs : s.Wf P)
    {block : CBlock} (h : Outcome P w s block s') {hash : UInt256}
    (hsome : (s'.mapBlockIndex hash).isSome) :
    (s.mapBlockIndex hash).isSome ∨ hash = P.blockHash block.toCBlockHeader := by
  have hadd : ∀ {n}, Offered P w s block n →
      (((s.stored w block).addIndex n).mapBlockIndex hash).isSome →
        (s.mapBlockIndex hash).isSome ∨ hash = P.blockHash block.toCBlockHeader := by
    intro n ho hsome
    by_cases heq : hash = n.getBlockHash
    · exact .inr (heq.trans ho.hash)
    · have hother : ((s.stored w block).addIndex n).mapBlockIndex hash = s.mapBlockIndex hash :=
        Function.update_of_ne heq ..
      exact .inl (hother ▸ hsome)
  cases h with
  | refused => exact .inl hsome
  | unmodified => exact .inl hsome
  | unrecorded ho => exact hadd ho hsome
  | kept ho worse => exact hadd ho hsome
  | switched ho better =>
    rw [mapBlockIndex_setBestChain (hs.offered ho).closed] at hsome
    exact hadd ho hsome

/-! ## The containers -/

namespace OrphanState

variable {s s' : OrphanState}

/-- The maps hold the same records, each made of its block and under the hash of its parent, and the
size and the stakes are of these. -/
structure Linked (P : Params) (s : OrphanState) : Prop where
  made : ∀ e ∈ s.mapOrphanBlocksByPrev, e.2 = orphanOf P e.2.vchBlock ∧ e.1 = e.2.hashPrev ∧
    e.2.vchBlock.vtx ≠ []
  nodup : (s.mapOrphanBlocksByPrev.map fun e ↦ e.2.hashBlock).Nodup
  find : ∀ hash o, s.mapOrphanBlocks hash = some o ↔
    o.hashBlock = hash ∧ (o.hashPrev, o) ∈ s.mapOrphanBlocksByPrev
  size : s.nOrphanBlocksSize =
    (s.mapOrphanBlocksByPrev.map fun e ↦ e.2.vchBlock.serializeSize).sum
  stakes : ∀ stake ∈ s.setStakeSeenOrphan, ∃ e ∈ s.mapOrphanBlocksByPrev,
    e.2.vchBlock.isProofOfStake ∧ e.2.stake = stake

/-- The stake of every orphan is in the set. -/
def Staked (s : OrphanState) : Prop :=
  ∀ e ∈ s.mapOrphanBlocksByPrev, e.2.vchBlock.isProofOfStake → e.2.stake ∈ s.setStakeSeenOrphan

theorem linked_empty : Linked P empty := by
  refine ⟨?_, List.nodup_nil, ?_, rfl, ?_⟩
  · exact fun e he ↦ absurd he List.not_mem_nil
  · exact fun hash o ↦ ⟨nofun, fun h ↦ absurd h.2 List.not_mem_nil⟩
  · exact fun stake h ↦ absurd h (Finset.notMem_empty _)

theorem Linked.mem (h : Linked P s) {e : UInt256 × COrphanBlock}
    (he : e ∈ s.mapOrphanBlocksByPrev) : s.mapOrphanBlocks e.2.hashBlock = some e.2 := by
  refine (h.find _ _).mpr ⟨rfl, ?_⟩
  rw [← (h.made e he).2.1]
  exact he

/-- A hash names one record. -/
theorem Linked.eq_of_hash (h : Linked P s) {e e' : UInt256 × COrphanBlock}
    (he : e ∈ s.mapOrphanBlocksByPrev) (he' : e' ∈ s.mapOrphanBlocksByPrev)
    (heq : e.2.hashBlock = e'.2.hashBlock) : e = e' := by
  have hrecord : e.2 = e'.2 := Option.some.inj ((h.mem he).symm.trans (heq ▸ h.mem he'))
  refine Prod.ext ?_ hrecord
  rw [(h.made e he).2.1, (h.made e' he').2.1, hrecord]

/-- A set of records is erased from all containers. -/
structure Removes (removed : List (UInt256 × COrphanBlock)) (s s' : OrphanState) : Prop where
  perm : s.mapOrphanBlocksByPrev.Perm (removed ++ s'.mapOrphanBlocksByPrev)
  map : ∀ hash, s'.mapOrphanBlocks hash =
    if hash ∈ removed.map (fun e ↦ e.2.hashBlock) then none else s.mapOrphanBlocks hash
  size : s'.nOrphanBlocksSize =
    s.nOrphanBlocksSize - (removed.map fun e ↦ e.2.vchBlock.serializeSize).sum
  stakes : ∀ stake, stake ∈ s'.setStakeSeenOrphan ↔
    stake ∈ s.setStakeSeenOrphan ∧ stake ∉ removed.map fun e ↦ e.2.stake

variable {removed : List (UInt256 × COrphanBlock)}

theorem Removes.mem (h : Removes removed s s') {e : UInt256 × COrphanBlock} :
    e ∈ s.mapOrphanBlocksByPrev ↔ e ∈ removed ∨ e ∈ s'.mapOrphanBlocksByPrev := by
  rw [h.perm.mem_iff, List.mem_append]

theorem Linked.removes (h : Linked P s) (hr : Removes removed s s') : Linked P s' := by
  have hnodup := (hr.perm.map fun e ↦ e.2.hashBlock).nodup_iff.mp h.nodup
  rw [List.map_append, List.nodup_append] at hnodup
  obtain ⟨-, hnodup, hapart⟩ := hnodup
  refine ⟨fun e he ↦ h.made e (hr.mem.mpr (.inr he)), hnodup, fun hash o ↦ ?_, ?_,
    fun stake hstake ↦ ?_⟩
  · rw [hr.map]
    split
    · rename_i hgone
      constructor
      · nofun
      · rintro ⟨rfl, ho⟩
        exact absurd rfl (hapart _ hgone _ (List.mem_map_of_mem ho))
    · rename_i hstays
      rw [h.find, hr.mem]
      refine and_congr_right fun heq ↦ or_iff_right fun ho ↦ hstays ?_
      exact heq ▸ List.mem_map_of_mem ho
  · rw [hr.size, h.size, (hr.perm.map _).sum_eq, List.map_append, List.sum_append]
    omega
  · obtain ⟨hin, hout⟩ := (hr.stakes stake).mp hstake
    obtain ⟨e, he, hpos, heq⟩ := h.stakes stake hin
    refine ⟨e, (hr.mem.mp he).resolve_left fun hgone ↦ hout ?_, hpos, heq⟩
    exact heq ▸ List.mem_map_of_mem hgone

/-- The stakes are right afterwards when no record that goes shares its stake with one that stays. -/
theorem Staked.removes (h : Staked s) (hr : Removes removed s s')
    (htwin : ∀ o ∈ removed, ∀ e ∈ s'.mapOrphanBlocksByPrev, e.2.vchBlock.isProofOfStake →
      e.2.stake ≠ o.2.stake) : Staked s' := by
  intro e he hpos
  refine (hr.stakes _).mpr ⟨h e (hr.mem.mpr (.inr he)) hpos, fun hgone ↦ ?_⟩
  obtain ⟨o, ho, heq⟩ := List.mem_map.mp hgone
  exact htwin o ho e he hpos heq.symm

/-! ### A record that is stored -/

theorem mem_store {o : COrphanBlock} {e : UInt256 × COrphanBlock} :
    e ∈ (s.store o).mapOrphanBlocksByPrev ↔ e = (o.hashPrev, o) ∨ e ∈ s.mapOrphanBlocksByPrev := by
  rw [store, (List.perm_orderedInsert _ _ _).mem_iff, List.mem_cons]

theorem Linked.store (h : Linked P s) {block : CBlock} (hvtx : block.vtx ≠ [])
    (hnew : s.mapOrphanBlocks (P.blockHash block.toCBlockHeader) = none) :
    Linked P (s.store (orphanOf P block)) := by
  have hperm : (s.store (orphanOf P block)).mapOrphanBlocksByPrev.Perm
      ((block.hashPrevBlock, orphanOf P block) :: s.mapOrphanBlocksByPrev) :=
    List.perm_orderedInsert _ _ _
  have hother : ∀ e ∈ s.mapOrphanBlocksByPrev, e.2.hashBlock ≠ P.blockHash block.toCBlockHeader :=
    fun e he heq ↦ absurd ((heq ▸ h.mem he).symm.trans hnew) nofun
  refine ⟨fun e he ↦ ?_, ?_, fun hash o ↦ ?_, ?_, fun stake hstake ↦ ?_⟩
  · rcases mem_store.mp he with rfl | he
    · exact ⟨rfl, rfl, hvtx⟩
    · exact h.made e he
  · rw [(hperm.map _).nodup_iff, List.map_cons, List.nodup_cons]
    refine ⟨fun hmem ↦ ?_, h.nodup⟩
    obtain ⟨e, he, heq⟩ := List.mem_map.mp hmem
    exact hother e he heq
  · rw [mem_store]
    change Function.update s.mapOrphanBlocks (P.blockHash block.toCBlockHeader)
      (some ((s.mapOrphanBlocks (P.blockHash block.toCBlockHeader)).getD _)) hash = some o ↔ _
    rw [hnew, Option.getD_none]
    by_cases heq : hash = P.blockHash block.toCBlockHeader
    · rw [heq, Function.update_self]
      constructor
      · rintro ⟨⟩
        exact ⟨rfl, .inl rfl⟩
      · rintro ⟨ho, hmem | hmem⟩
        · exact congrArg some (congrArg Prod.snd hmem).symm
        · exact absurd ho (hother _ hmem)
    · rw [Function.update_of_ne heq, h.find]
      refine and_congr_right fun ho ↦ (or_iff_right fun hmem ↦ heq ?_).symm
      exact ho.symm.trans (congrArg (fun e ↦ e.2.hashBlock) hmem)
  · rw [(hperm.map _).sum_eq, List.map_cons, List.sum_cons, ← h.size, add_comm]
    rfl
  · by_cases hpos : block.isProofOfStake
    · have hset : (s.store (orphanOf P block)).setStakeSeenOrphan =
          insert block.getProofOfStake s.setStakeSeenOrphan := if_pos hpos
      rw [hset] at hstake
      rcases Finset.mem_insert.mp hstake with rfl | hstake
      · exact ⟨_, mem_store.mpr (.inl rfl), hpos, rfl⟩
      · obtain ⟨e, he, hrest⟩ := h.stakes stake hstake
        exact ⟨e, mem_store.mpr (.inr he), hrest⟩
    · have hset : (s.store (orphanOf P block)).setStakeSeenOrphan = s.setStakeSeenOrphan :=
        if_neg hpos
      obtain ⟨e, he, hrest⟩ := h.stakes stake (hset ▸ hstake)
      exact ⟨e, mem_store.mpr (.inr he), hrest⟩

theorem Staked.store (h : Staked s) (block : CBlock) : Staked (s.store (orphanOf P block)) := by
  intro e he hpos
  change e.2.stake ∈ if block.isProofOfStake then insert block.getProofOfStake s.setStakeSeenOrphan
    else s.setStakeSeenOrphan
  rcases mem_store.mp he with rfl | he
  · rw [if_pos (show block.isProofOfStake from hpos)]
    exact Finset.mem_insert_self _ _
  · split
    · exact Finset.mem_insert_of_mem (h e he hpos)
    · exact h e he hpos

/-! ### Records that go -/

theorem mem_range {hashPrev : UInt256} {e : UInt256 × COrphanBlock} :
    e ∈ s.range hashPrev ↔ e ∈ s.mapOrphanBlocksByPrev ∧ e.1 = hashPrev := by
  rw [range, List.mem_filter, decide_eq_true_iff]

theorem mem_eraseRange {hashPrev : UInt256} {e : UInt256 × COrphanBlock} :
    e ∈ (s.eraseRange hashPrev).mapOrphanBlocksByPrev ↔
      e ∈ s.mapOrphanBlocksByPrev ∧ e.1 ≠ hashPrev := by
  rw [eraseRange, List.mem_filter, decide_eq_true_iff]

theorem removes_pruneAt {it : ℕ} {e : UInt256 × COrphanBlock}
    (he : s.mapOrphanBlocksByPrev[it]? = some e) : Removes [e] s (s.pruneAt it e.2) := by
  obtain ⟨hit, rfl⟩ := List.getElem?_eq_some_iff.mp he
  refine ⟨(List.getElem_cons_eraseIdx_perm hit).symm, fun hash ↦ ?_, ?_, fun stake ↦ ?_⟩
  · simp only [List.map_singleton, List.mem_singleton]
    exact Function.update_apply _ _ _ _
  · rw [List.map_singleton, List.sum_singleton]
    rfl
  · rw [List.map_singleton, List.mem_singleton]
    exact Finset.mem_erase.trans and_comm

/-- The records of a range are forgotten one after another. -/
def forgetAll (range : List (UInt256 × COrphanBlock)) (s : OrphanState) : OrphanState :=
  range.foldl (fun s e ↦ s.forget e.2) s

theorem mapOrphanBlocksByPrev_forgetAll (range : List (UInt256 × COrphanBlock)) :
    ∀ s : OrphanState, (s.forgetAll range).mapOrphanBlocksByPrev = s.mapOrphanBlocksByPrev := by
  induction range with
  | nil => exact fun _ ↦ rfl
  | cons e range ih => exact fun s ↦ ih (s.forget e.2)

theorem mapOrphanBlocks_forgetAll (range : List (UInt256 × COrphanBlock)) (hash : UInt256) :
    ∀ s : OrphanState, (s.forgetAll range).mapOrphanBlocks hash =
      if hash ∈ range.map (fun e ↦ e.2.hashBlock) then none else s.mapOrphanBlocks hash := by
  induction range with
  | nil => exact fun _ ↦ rfl
  | cons e range ih =>
    intro s
    rw [forgetAll, List.foldl_cons, ← forgetAll, ih, List.map_cons]
    change (if _ then none else Function.update s.mapOrphanBlocks e.2.hashBlock none hash) = _
    rw [Function.update_apply]
    by_cases hhead : hash = e.2.hashBlock
    · rw [if_pos hhead, ite_self, if_pos (List.mem_cons.mpr (.inl hhead))]
    · rw [if_neg hhead]
      simp only [List.mem_cons, hhead, false_or]

theorem nOrphanBlocksSize_forgetAll (range : List (UInt256 × COrphanBlock)) :
    ∀ s : OrphanState, (s.forgetAll range).nOrphanBlocksSize =
      s.nOrphanBlocksSize - (range.map fun e ↦ e.2.vchBlock.serializeSize).sum := by
  induction range with
  | nil => exact fun _ ↦ rfl
  | cons e range ih =>
    intro s
    rw [forgetAll, List.foldl_cons, ← forgetAll, ih, List.map_cons, List.sum_cons, forget]
    dsimp only
    omega

theorem mem_setStakeSeenOrphan_forgetAll (range : List (UInt256 × COrphanBlock))
    (stake : COutPoint × ℕ) : ∀ s : OrphanState, stake ∈ (s.forgetAll range).setStakeSeenOrphan ↔
      stake ∈ s.setStakeSeenOrphan ∧ stake ∉ range.map fun e ↦ e.2.vchBlock.getProofOfStake := by
  induction range with
  | nil => exact fun _ ↦ ⟨fun h ↦ ⟨h, List.not_mem_nil⟩, And.left⟩
  | cons e range ih =>
    intro s
    rw [forgetAll, List.foldl_cons, ← forgetAll, ih, List.map_cons, List.mem_cons, not_or]
    change stake ∈ s.setStakeSeenOrphan.erase _ ∧ _ ↔ _
    rw [Finset.mem_erase, and_assoc, and_left_comm]

theorem Linked.removes_range (h : Linked P s) (hashPrev : UInt256) :
    Removes (s.range hashPrev) s ((s.forgetAll (s.range hashPrev)).eraseRange hashPrev) := by
  refine ⟨?_, fun hash ↦ mapOrphanBlocks_forgetAll _ hash s, nOrphanBlocksSize_forgetAll _ s,
    fun stake ↦ ?_⟩
  · have hrest : ((s.forgetAll (s.range hashPrev)).eraseRange hashPrev).mapOrphanBlocksByPrev =
        s.mapOrphanBlocksByPrev.filter fun e ↦ !decide (e.1 = hashPrev) := by
      rw [eraseRange, mapOrphanBlocksByPrev_forgetAll]
      simp only [ne_eq, decide_not]
    rw [hrest]
    exact (List.filter_append_perm _ _).symm
  · have hstake : (s.range hashPrev).map (fun e ↦ e.2.vchBlock.getProofOfStake) =
        (s.range hashPrev).map fun e ↦ e.2.stake := by
      refine List.map_congr_left fun e he ↦ ?_
      rw [(h.made e (mem_range.mp he).1).1]
      rfl
    rw [← hstake]
    exact mem_setStakeSeenOrphan_forgetAll _ stake s

/-- A record that goes while one with its stake stays has a twin. -/
theorem Linked.hasTwin (h : Linked P s) {o e : UInt256 × COrphanBlock}
    (ho : o ∈ s.mapOrphanBlocksByPrev) (he : e ∈ s.mapOrphanBlocksByPrev) (hne : e ≠ o)
    (hpos : e.2.vchBlock.isProofOfStake) (heq : e.2.stake = o.2.stake) : s.hasTwin o.2 :=
  ⟨e, he, h.mem he, fun hhash ↦ hne (h.eq_of_hash he ho hhash), hpos, heq⟩

end OrphanState

/-! ## Pruning -/

theorem mem_of_walkToLeaf {byPrev : List (UInt256 × COrphanBlock)} {n it it' : ℕ}
    {o : COrphanBlock} (h : walkToLeaf byPrev n it = some (it', o)) :
    ∃ e, byPrev[it']? = some e ∧ e.2 = o := by
  induction n generalizing it with
  | zero => cases h
  | succ n ih =>
    rw [walkToLeaf] at h
    split at h
    · cases h
    · rename_i e he
      split at h
      · cases h
        exact ⟨e, he, rfl⟩
      · exact ih h

/-- An orphan was erased that had a twin. -/
def OrphanEvent.losesStake : OrphanEvent → Prop
  | .erased _ twin => twin
  | .refused _ _ _ _ => False

/-- A block was refused for which orphans waited, and it had entered the index, or was an orphan
itself. -/
def OrphanEvent.strands : OrphanEvent → Prop
  | .refused _ orphan entered waited => waited ∧ (orphan ∨ entered)
  | .erased _ _ => False

/-- What a call may do to the orphans: the maps stay linked, and the stakes right when no orphan with
a twin is erased. -/
structure Clears (P : Params) (s s' : ProcessState) : Prop where
  linked : s.orphans.Linked P → s'.orphans.Linked P
  events : s.events <:+ s'.events
  staked : s.orphans.Linked P → (∀ e ∈ s'.events, ¬ e.losesStake) → s.orphans.Staked →
    s'.orphans.Staked

theorem Clears.refl (s : ProcessState) : Clears P s s := ⟨id, List.suffix_refl _, fun _ _ ↦ id⟩

theorem Clears.trans {s₁ s₂ s₃ : ProcessState} (h : Clears P s₁ s₂) (h' : Clears P s₂ s₃) :
    Clears P s₁ s₃ where
  linked := h'.linked ∘ h.linked
  events := h.events.trans h'.events
  staked hl hno hs := h'.staked (h.linked hl) hno
    (h.staked hl (fun e he ↦ hno e (h'.events.subset he)) hs)

theorem clears_pruneOne {rand : ℕ} {s s' : ProcessState} (h : pruneOne rand s = some s') :
    Clears P s s' ∧ s'.node = s.node ∧
      s'.orphans.mapOrphanBlocksByPrev ⊆ s.orphans.mapOrphanBlocksByPrev := by
  unfold pruneOne at h
  split at h
  · cases h
  · rename_i it o hwalk
    obtain ⟨e, he, rfl⟩ := mem_of_walkToLeaf hwalk
    cases h
    refine ⟨⟨fun hl ↦ hl.removes (OrphanState.removes_pruneAt he), List.suffix_cons _ _,
      fun hl hno hs ↦ ?_⟩, rfl, List.eraseIdx_subset⟩
    refine hs.removes (OrphanState.removes_pruneAt he) fun o ho e' he' hpos heq ↦ ?_
    obtain rfl := List.mem_singleton.mp ho
    have hr := OrphanState.removes_pruneAt he
    have hmem := List.mem_of_getElem? he
    have hne : e' ≠ o := by
      rintro rfl
      have hnodup := (hr.perm.map fun e ↦ e.2.hashBlock).nodup_iff.mp hl.nodup
      rw [List.singleton_append, List.map_cons, List.nodup_cons] at hnodup
      exact hnodup.1 (List.mem_map_of_mem he')
    have htwin := hl.hasTwin hmem (hr.mem.mpr (.inr he')) hne hpos heq
    exact hno _ List.mem_cons_self (decide_eq_true htwin)

theorem clears_pruneLoop {nMax : ℕ} {rand : ℕ → ℕ} {n : ℕ} {s s' : ProcessState}
    (h : pruneLoop nMax rand n s = some s') : Clears P s s' ∧ s'.node = s.node ∧
      s'.orphans.mapOrphanBlocksByPrev ⊆ s.orphans.mapOrphanBlocksByPrev := by
  induction n generalizing s with
  | zero =>
    rw [pruneLoop] at h
    split at h
    · cases h
    · cases h
      exact ⟨.refl _, rfl, List.Subset.refl _⟩
  | succ n ih =>
    rw [pruneLoop] at h
    split at h
    · obtain ⟨s₁, hone, hloop⟩ := Option.bind_eq_some_iff.mp h
      obtain ⟨h₁, hn₁, hsub₁⟩ := clears_pruneOne hone
      obtain ⟨h₂, hn₂, hsub₂⟩ := ih hloop
      exact ⟨h₁.trans h₂, hn₂.trans hn₁, List.Subset.trans hsub₂ hsub₁⟩
    · cases h
      exact ⟨.refl _, rfl, List.Subset.refl _⟩

/-! ## Blocks with a parent -/

variable {r : Receipt}

/-- What a call of `AcceptBlock` does. -/
structure Submitted (P : Params) (orphan : Bool) (block : CBlock) (s : ProcessState)
    (accepted : Bool) (s' : ProcessState) : Prop where
  orphans : s'.orphans = s.orphans
  wf : s'.node.Wf P
  events : s.events <:+ s'.events
  index : ∀ hash, (s'.node.mapBlockIndex hash).isSome →
    (s.node.mapBlockIndex hash).isSome ∨ hash = P.blockHash block.toCBlockHeader
  refused : accepted = false → ∃ entered waited,
    .refused (P.blockHash block.toCBlockHeader) orphan entered waited ∈ s'.events ∧
    (waited = true ↔ s.orphans.waits (P.blockHash block.toCBlockHeader)) ∧
    (entered = false → (s'.node.mapBlockIndex (P.blockHash block.toCBlockHeader)).isSome →
      (s.node.mapBlockIndex (P.blockHash block.toCBlockHeader)).isSome)

theorem submit_run (orphan : Bool) {block : CBlock} {s : ProcessState} (hs : s.node.Wf P)
    (hvtx : block.vtx ≠ []) :
    ∃ accepted s', submit P r orphan block s = .ok accepted s' ∧
      Submitted P orphan block s accepted s' := by
  have houtcome := acceptBlock_outcome (P := P)
    (w := r.accepting (P.blockHash block.toCBlockHeader)) hs.closed block
  unfold submit
  cases hx : acceptBlock P (r.accepting (P.blockHash block.toCBlockHeader)) block s.node with
  | ok u node =>
    rw [hx] at houtcome
    exact ⟨true, _, rfl, rfl, hs.outcome houtcome, List.suffix_refl _,
      fun hash ↦ isSome_mapBlockIndex_of_outcome hs houtcome, nofun⟩
  | error e node =>
    cases e with
    | thrown msg => exact absurd hx (acceptBlock_ne_thrown hs hvtx)
    | rejected nDoS msg =>
      rw [hx] at houtcome
      refine ⟨false, _, rfl, rfl, hs.outcome houtcome, List.suffix_cons _ _,
        fun hash ↦ isSome_mapBlockIndex_of_outcome hs houtcome, fun _ ↦
          ⟨_, _, List.mem_cons_self, decide_eq_true_iff, fun hentered hsome ↦ ?_⟩⟩
      cases hbefore : s.node.mapBlockIndex (P.blockHash block.toCBlockHeader) with
      | some n => rfl
      | none =>
        rw [hbefore] at hentered
        exact absurd hsome (ne_true_of_eq_false hentered)

/-- What going through the orphans of one parent does. -/
structure RangeRun (P : Params) (range : List (UInt256 × COrphanBlock)) (s : ProcessState)
    (pushed : List UInt256) (s' : ProcessState) : Prop where
  orphans : s'.orphans = s.orphans.forgetAll range
  wf : s'.node.Wf P
  events : s.events <:+ s'.events
  length : pushed.length ≤ range.length
  index : (∀ e ∈ s'.events, ¬ e.strands) → ∀ hash, s.orphans.waits hash →
    (s'.node.mapBlockIndex hash).isSome → (s.node.mapBlockIndex hash).isSome ∨ hash ∈ pushed
  pushed : (∀ e ∈ s'.events, ¬ e.strands) → ∀ o ∈ range, s.orphans.waits o.2.hashBlock →
    o.2.hashBlock ∈ pushed
  twins : (∀ e ∈ s'.events, ¬ e.losesStake) → ∀ o ∈ range,
    ∀ e ∈ s.orphans.mapOrphanBlocksByPrev, s.orphans.mapOrphanBlocks e.2.hashBlock = some e.2 →
      e.2.hashBlock ∉ range.map (fun e ↦ e.2.hashBlock) → e.2.vchBlock.isProofOfStake →
        e.2.stake ≠ o.2.stake

theorem processRange_run (range : List (UInt256 × COrphanBlock)) :
    ∀ {s : ProcessState}, s.node.Wf P →
      (∀ e ∈ range, e.2 = orphanOf P e.2.vchBlock ∧ e.2.vchBlock.vtx ≠ []) →
        ∃ pushed s', processRange P r range s = .ok pushed s' ∧ RangeRun P range s pushed s' := by
  induction range with
  | nil =>
    intro s hs _
    refine ⟨[], s, rfl, rfl, hs, List.suffix_refl _, le_rfl, fun _ _ _ ↦ .inl, ?_, ?_⟩
    · exact fun _ o ho ↦ absurd ho List.not_mem_nil
    · exact fun _ o ho ↦ absurd ho List.not_mem_nil
  | cons o range ih =>
    intro s hs hmade
    obtain ⟨hmade₁, hmade⟩ := List.forall_mem_cons.mp hmade
    have hhash : P.blockHash o.2.vchBlock.toCBlockHeader = o.2.hashBlock := by
      rw [hmade₁.1]
      rfl
    obtain ⟨accepted, s₁, hsubmit, h₁⟩ := submit_run (r := r) true hs hmade₁.2
    have hindex₁ := h₁.index
    have hrefused₁ := h₁.refused
    rw [hhash] at hindex₁ hrefused₁
    obtain ⟨pushed, s₃, hrange, h₃⟩ := ih (s := { s₁ with orphans := s₁.orphans.forget o.2
      }.happened (.erased o.2.hashBlock (decide (s₁.orphans.hasTwin o.2)))) h₁.wf hmade
    have hrun : processRange P r (o :: range) s =
        .ok (if accepted then o.2.hashBlock :: pushed else pushed) s₃ := by
      have hforget : forgetOrphan o.2 s₁ = .ok () ({ s₁ with orphans := s₁.orphans.forget o.2
        }.happened (.erased o.2.hashBlock (decide (s₁.orphans.hasTwin o.2)))) := rfl
      rw [processRange, Exec.bind_of_ok hsubmit, Exec.bind_of_ok hforget, Exec.bind_of_ok hrange]
      rfl
    have herased : .erased o.2.hashBlock (decide (s₁.orphans.hasTwin o.2)) ∈ s₃.events :=
      h₃.events.subset List.mem_cons_self
    have hevents₁ : s₁.events <:+ s₃.events := (List.suffix_cons _ _).trans h₃.events
    -- a refused orphan for which others wait has left its event
    have hpushed : (∀ e ∈ s₃.events, ¬ e.strands) → s.orphans.waits o.2.hashBlock →
        accepted = true := by
      intro hno hwaits
      cases accepted with
      | true => rfl
      | false =>
        obtain ⟨entered, waited, hmem, hwaited, -⟩ := hrefused₁ rfl
        exact absurd ⟨hwaited.mpr hwaits, .inl rfl⟩ (hno _ (hevents₁.subset hmem))
    have hsub : pushed ⊆ if accepted then o.2.hashBlock :: pushed else pushed := by
      split
      · exact List.subset_cons_self _ _
      · exact List.Subset.refl _
    refine ⟨_, s₃, hrun, ?_, h₃.wf, h₁.events.trans hevents₁, ?_, ?_, ?_, ?_⟩
    · rw [h₃.orphans]
      exact congrArg (fun s ↦ OrphanState.forgetAll range (s.forget o.2)) h₁.orphans
    · have := h₃.length
      split <;> simp only [List.length_cons] <;> omega
    · intro hno hash hwaits hsome
      have hwaits₁ : s₁.orphans.waits hash := h₁.orphans ▸ hwaits
      rcases h₃.index hno hash hwaits₁ hsome with hsome₁ | hmem
      · rcases hindex₁ hash hsome₁ with hsome₀ | rfl
        · exact .inl hsome₀
        · rw [if_pos (hpushed hno hwaits)]
          exact .inr List.mem_cons_self
      · exact .inr (hsub hmem)
    · intro hno o' ho' hwaits
      rcases List.mem_cons.mp ho' with rfl | ho'
      · rw [if_pos (hpushed hno hwaits)]
        exact List.mem_cons_self
      · have hwaits₁ : s₁.orphans.waits o'.2.hashBlock := h₁.orphans ▸ hwaits
        exact hsub (h₃.pushed hno o' ho' hwaits₁)
    · intro hno o' ho' e he hstored hout hpos heq
      rw [List.map_cons, List.mem_cons, not_or] at hout
      have he₁ : e ∈ s₁.orphans.mapOrphanBlocksByPrev := h₁.orphans ▸ he
      have hstored₁ : s₁.orphans.mapOrphanBlocks e.2.hashBlock = some e.2 := h₁.orphans ▸ hstored
      rcases List.mem_cons.mp ho' with rfl | ho'
      · exact hno _ herased (decide_eq_true ⟨e, he₁, hstored₁, hout.1, hpos, heq⟩)
      · refine h₃.twins hno o' ho' e he₁ ?_ hout.2 hpos heq
        exact (Function.update_of_ne hout.1 ..).trans hstored₁

/-- What the work on one parent or on a queue of them does: the orphans that are left are left from
before, none of them waits for a parent that was worked on, or for an orphan that is gone, or for a
block that has entered the index now unless that is still to be worked on. -/
structure QueueRun (P : Params) (worked : List UInt256) (s : ProcessState) (left : List UInt256)
    (s' : ProcessState) : Prop where
  wf : s'.node.Wf P
  clears : Clears P s s'
  subset : s'.orphans.mapOrphanBlocksByPrev ⊆ s.orphans.mapOrphanBlocksByPrev
  worked : ∀ e ∈ s'.orphans.mapOrphanBlocksByPrev, e.1 ∉ worked
  index : (∀ e ∈ s'.events, ¬ e.strands) → ∀ e ∈ s'.orphans.mapOrphanBlocksByPrev,
    (s'.node.mapBlockIndex e.1).isSome → (s.node.mapBlockIndex e.1).isSome ∨ e.1 ∈ left
  gone : (∀ e ∈ s'.events, ¬ e.strands) → ∀ o ∈ s.orphans.mapOrphanBlocksByPrev,
    o ∈ s'.orphans.mapOrphanBlocksByPrev ∨
      ∀ e ∈ s'.orphans.mapOrphanBlocksByPrev, e.1 = o.2.hashBlock → e.1 ∈ left

theorem processParent_run {s : ProcessState} (hs : s.node.Wf P) (hl : s.orphans.Linked P)
    (hashPrev : UInt256) :
    ∃ pushed s', processParent P r hashPrev s = .ok pushed s' ∧
      QueueRun P [hashPrev] s pushed s' ∧
      pushed.length + s'.orphans.mapOrphanBlocksByPrev.length ≤
        s.orphans.mapOrphanBlocksByPrev.length := by
  have hrange : ∀ e ∈ s.orphans.range hashPrev, e ∈ s.orphans.mapOrphanBlocksByPrev :=
    fun e he ↦ (OrphanState.mem_range.mp he).1
  obtain ⟨pushed, s₁, hrun, h₁⟩ := processRange_run (r := r) (s.orphans.range hashPrev) hs
    fun e he ↦ ⟨(hl.made e (hrange e he)).1, (hl.made e (hrange e he)).2.2⟩
  have hr : OrphanState.Removes (s.orphans.range hashPrev) s.orphans
      (s₁.orphans.eraseRange hashPrev) := by
    rw [h₁.orphans]
    exact hl.removes_range hashPrev
  have hleft : ∀ e ∈ (s₁.orphans.eraseRange hashPrev).mapOrphanBlocksByPrev, e.1 ≠ hashPrev :=
    fun e he ↦ (OrphanState.mem_eraseRange.mp he).2
  have hwaits : ∀ e ∈ (s₁.orphans.eraseRange hashPrev).mapOrphanBlocksByPrev,
      s.orphans.waits e.1 := fun e he ↦ ⟨e, hr.mem.mpr (.inr he), rfl⟩
  refine ⟨pushed, { s₁ with orphans := s₁.orphans.eraseRange hashPrev },
    (Exec.bind_of_ok hrun _).trans rfl, ⟨h₁.wf, ⟨fun _ ↦ hl.removes hr, h₁.events, ?_⟩, ?_, ?_, ?_,
    ?_⟩, ?_⟩
  · intro _ hno hstaked
    refine hstaked.removes hr fun o ho e he hpos ↦ ?_
    have he₀ := hr.mem.mpr (.inr he)
    refine h₁.twins hno o ho e he₀ (hl.mem he₀) (fun hmem ↦ ?_) hpos
    obtain ⟨e', he', heq⟩ := List.mem_map.mp hmem
    obtain rfl := hl.eq_of_hash (hrange e' he') he₀ heq
    exact hleft e' he (OrphanState.mem_range.mp he').2
  · exact fun e he ↦ hr.mem.mpr (.inr he)
  · exact fun e he ↦ List.mem_singleton.not.mpr (hleft e he)
  · exact fun hno e he ↦ h₁.index hno e.1 (hwaits e he)
  · intro hno o ho
    rcases hr.mem.mp ho with hgone | hstays
    · refine .inr fun e he heq ↦ ?_
      rw [heq]
      exact h₁.pushed hno o hgone (heq ▸ hwaits e he)
    · exact .inl hstays
  · have hlen := hr.perm.length_eq
    rw [List.length_append] at hlen
    have := h₁.length
    dsimp only
    omega

/-- **The loop over the work queue** comes to an end with nothing left to work on. -/
theorem processQueue_run (n : ℕ) :
    ∀ {s : ProcessState} (vWorkQueue : List UInt256), s.node.Wf P → s.orphans.Linked P →
      vWorkQueue.length + s.orphans.mapOrphanBlocksByPrev.length ≤ n →
        ∃ s', processQueue P r n vWorkQueue s = .ok () s' ∧
          QueueRun P vWorkQueue s [] s' := by
  have hdone : ∀ {s : ProcessState}, s.node.Wf P → QueueRun P [] s [] s := fun hs ↦
    ⟨hs, .refl _, List.Subset.refl _, fun _ _ ↦ List.not_mem_nil, fun _ _ _ ↦ .inl,
      fun _ _ ho ↦ .inl ho⟩
  induction n with
  | zero =>
    intro s vWorkQueue hs _ hlen
    obtain rfl : vWorkQueue = [] := List.eq_nil_of_length_eq_zero (by omega)
    exact ⟨s, rfl, hdone hs⟩
  | succ n ih =>
    intro s vWorkQueue hs hl hlen
    cases vWorkQueue with
    | nil => exact ⟨s, rfl, hdone hs⟩
    | cons hashPrev vWorkQueue =>
      rw [List.length_cons] at hlen
      obtain ⟨pushed, s₁, hparent, h₁, hlen₁⟩ := processParent_run (r := r) hs hl hashPrev
      obtain ⟨s₂, hqueue, h₂⟩ := ih (vWorkQueue ++ pushed) h₁.wf
        (h₁.clears.linked hl) (by rw [List.length_append]; omega)
      have hno₁ : (∀ e ∈ s₂.events, ¬ e.strands) → ∀ e ∈ s₁.events, ¬ e.strands :=
        fun hno e he ↦ hno e (h₂.clears.events.subset he)
      refine ⟨s₂, (Exec.bind_of_ok hparent _).trans hqueue, h₂.wf, h₁.clears.trans h₂.clears,
        List.Subset.trans h₂.subset h₁.subset, ?_, ?_, ?_⟩
      · intro e he hmem
        rcases List.mem_cons.mp hmem with heq | hmem
        · exact h₁.worked e (h₂.subset he) (List.mem_singleton.mpr heq)
        · exact h₂.worked e he (List.mem_append_left _ hmem)
      · intro hno e he hsome
        rcases h₂.index hno e he hsome with hsome | hmem
        · rcases h₁.index (hno₁ hno) e (h₂.subset he) hsome with hsome | hmem
          · exact .inl hsome
          · exact absurd (List.mem_append_right _ hmem) (h₂.worked e he)
        · exact .inr hmem
      · intro hno o ho
        rcases h₁.gone (hno₁ hno) o ho with ho | hgone
        · exact h₂.gone hno o ho
        · refine .inr fun e he heq ↦ ?_
          exact absurd (List.mem_append_right _ (hgone e (h₂.subset he) heq)) (h₂.worked e he)

/-! ## ProcessBlock -/

theorem lowSBlock_eq_ok {block block' : CBlock} (h : lowSBlock r block = .ok block') :
    block'.toCBlockHeader = block.toCBlockHeader := by
  unfold lowSBlock at h
  split at h
  · cases h
    rfl
  · split at h
    · cases h
    · split at h <;> cases h
      rfl

theorem checkReceived_eq_ok {s : ProcessState} {block block' : CBlock}
    (h : checkReceived P r s block = .ok block') :
    s.orphans.mapOrphanBlocks (P.blockHash block'.toCBlockHeader) = none ∧ block'.vtx ≠ [] := by
  simp only [checkReceived, bind_eq_ok, rejectIf_eq_ok, withText_eq_ok] at h
  obtain ⟨-, -, _, hnew, -, -, _, -, _, -, block₁, hlow, _, hcheck, h⟩ := h
  cases h
  rw [lowSBlock_eq_ok hlow]
  refine ⟨Option.not_isSome_iff_eq_none.mp hnew, fun hnil ↦ ?_⟩
  obtain ⟨tx, htx, -⟩ := (checkedBlock_of_checkBlock hcheck).coinbase
  rw [hnil] at htx
  cases htx

/-- The orphan waits for the block with a hash, directly or through other orphans. -/
inductive Descends (byPrev : List (UInt256 × COrphanBlock)) (hash : UInt256) :
    UInt256 × COrphanBlock → Prop
  | child {e : UInt256 × COrphanBlock} (he : e ∈ byPrev) (h : e.1 = hash) : Descends byPrev hash e
  | step {o e : UInt256 × COrphanBlock} (ho : Descends byPrev hash o) (he : e ∈ byPrev)
      (h : e.1 = o.2.hashBlock) : Descends byPrev hash e

theorem Descends.mem {byPrev : List (UInt256 × COrphanBlock)} {hash : UInt256}
    {e : UInt256 × COrphanBlock} (h : Descends byPrev hash e) : e ∈ byPrev := by
  cases h with
  | child he h => exact he
  | step ho he h => exact he

/-- What every call keeps. -/
structure Holding (P : Params) (s : ProcessState) : Prop where
  wf : s.node.Wf P
  linked : s.orphans.Linked P
  staked : (∀ e ∈ s.events, ¬ e.losesStake) → s.orphans.Staked
  parentless : (∀ e ∈ s.events, ¬ e.strands) → ∀ e ∈ s.orphans.mapOrphanBlocksByPrev,
    s.node.mapBlockIndex e.1 = none

/-- No orphan is left that waits for a block of the index, directly or through orphans. -/
def CaughtUp (s s' : ProcessState) : Prop :=
  ∀ hash, (s'.node.mapBlockIndex hash).isSome →
    ∀ e, Descends s.orphans.mapOrphanBlocksByPrev hash e → e ∉ s'.orphans.mapOrphanBlocksByPrev

/-- Where no orphan waits for a block of the index before, none does after nothing has entered it. -/
theorem Holding.leavesNone {s s' : ProcessState} (h : Holding P s)
    (hno : ∀ e ∈ s.events, ¬ e.strands)
    (hindex : s'.node.mapBlockIndex = s.node.mapBlockIndex) : CaughtUp s s' := by
  intro hash hsome e he
  exfalso
  induction he with
  | child he heq =>
    rw [hindex, ← heq, h.parentless hno _ he] at hsome
    cases hsome
  | step ho he heq ih => exact ih

theorem Holding.holdBlock {s : ProcessState} (h : Holding P s) {block : CBlock}
    (hvtx : block.vtx ≠ [])
    (hnew : s.orphans.mapOrphanBlocks (P.blockHash block.toCBlockHeader) = none)
    (hparent : s.node.mapBlockIndex block.hashPrevBlock = none)
    {result : EStateM.Result Fault ProcessState Unit}
    (hret : holdBlock P r block s = some result) :
    Holding P (Exec.final result) ∧ s.events <:+ (Exec.final result).events ∧
      (Exec.final result).node = s.node := by
  unfold Bws.holdBlock at hret
  split at hret
  · cases hret
    exact ⟨h, List.suffix_refl _, rfl⟩
  · split at hret
    · cases hret
      exact ⟨h, List.suffix_refl _, rfl⟩
    · obtain ⟨s₁, hprune, rfl⟩ := Option.map_eq_some_iff.mp hret
      obtain ⟨hclears, hnode, hsub⟩ := clears_pruneLoop (P := P) hprune
      have hl₁ := hclears.linked h.linked
      have hnew₁ : s₁.orphans.mapOrphanBlocks (P.blockHash block.toCBlockHeader) = none := by
        rw [Option.eq_none_iff_forall_ne_some]
        intro o ho
        obtain ⟨hhash, hmem⟩ := (hl₁.find _ _).mp ho
        have := h.linked.mem (hsub hmem)
        rw [hhash, hnew] at this
        cases this
      have hevents : ∀ {p : OrphanEvent → Prop}, (∀ e ∈ s₁.events, p e) → ∀ e ∈ s.events, p e :=
        fun hno e he ↦ hno e (hclears.events.subset he)
      refine ⟨⟨hnode ▸ h.wf, hl₁.store hvtx hnew₁, fun hno ↦ ?_, fun hno e he ↦ ?_⟩,
        hclears.events, hnode⟩
      · exact (hclears.staked h.linked hno (h.staked (hevents hno))).store block
      · change s₁.node.mapBlockIndex e.1 = none
        rw [hnode]
        rcases OrphanState.mem_store.mp he with rfl | he
        · exact hparent
        · exact h.parentless (hevents hno) e (hsub he)

theorem Holding.acceptReceived {s : ProcessState} (h : Holding P s) {block : CBlock}
    (hvtx : block.vtx ≠ []) :
    Holding P (Exec.final (acceptReceived P r block s)) ∧
      s.events <:+ (Exec.final (acceptReceived P r block s)).events ∧
      ((∀ e ∈ (Exec.final (acceptReceived P r block s)).events, ¬ e.strands) →
        CaughtUp s (Exec.final (acceptReceived P r block s))) := by
  obtain ⟨accepted, s₁, hsubmit, h₁⟩ := submit_run (r := r) false h.wf hvtx
  rw [Bws.acceptReceived, Exec.bind_of_ok hsubmit]
  have hl₁ : s₁.orphans.Linked P := h₁.orphans ▸ h.linked
  have hstaked₁ : (∀ e ∈ s₁.events, ¬ e.losesStake) → s₁.orphans.Staked := fun hno ↦
    h₁.orphans ▸ h.staked fun e he ↦ hno e (h₁.events.subset he)
  -- only the block itself may have entered the index
  have hbefore : (∀ e ∈ s₁.events, ¬ e.strands) → ∀ e ∈ s.orphans.mapOrphanBlocksByPrev,
      (s₁.node.mapBlockIndex e.1).isSome → e.1 = P.blockHash block.toCBlockHeader := by
    intro hno e he hsome
    refine (h₁.index _ hsome).resolve_left fun hsome₀ ↦ ?_
    rw [h.parentless (fun e he ↦ hno e (h₁.events.subset he)) e he] at hsome₀
    cases hsome₀
  cases accepted with
  | false =>
    have hnone : (∀ e ∈ s₁.events, ¬ e.strands) → ∀ e ∈ s.orphans.mapOrphanBlocksByPrev,
        s₁.node.mapBlockIndex e.1 = none := by
      intro hno e he
      rw [← Option.not_isSome_iff_eq_none]
      intro hsome
      obtain heq := hbefore hno e he hsome
      obtain ⟨entered, waited, hmem, hwaited, hentered⟩ := h₁.refused rfl
      have hnot := hno _ hmem
      cases entered with
      | true => exact hnot ⟨hwaited.mpr ⟨e, he, heq⟩, .inr rfl⟩
      | false =>
        have hsome₀ := hentered rfl (heq ▸ hsome)
        rw [← heq, h.parentless (fun e he ↦ hno e (h₁.events.subset he)) e he] at hsome₀
        cases hsome₀
    refine ⟨⟨h₁.wf, hl₁, hstaked₁, fun hno e he ↦ hnone hno e (h₁.orphans ▸ he)⟩, h₁.events, ?_⟩
    intro hno hash hsome e he
    exfalso
    induction he with
    | child he heq =>
      have hsome₁ : (s₁.node.mapBlockIndex hash).isSome := hsome
      rw [← heq, hnone hno _ he] at hsome₁
      cases hsome₁
    | step ho he heq ih => exact ih
  | true =>
    obtain ⟨s₂, hqueue, h₂⟩ := processQueue_run (r := r)
      (s₁.orphans.mapOrphanBlocksByPrev.length + 1)
      [P.blockHash block.toCBlockHeader] h₁.wf hl₁
      (by rw [List.length_singleton]; omega)
    rw [processOrphans, if_pos rfl, hqueue]
    have hno₁ : ∀ {p : OrphanEvent → Prop}, (∀ e ∈ s₂.events, p e) → ∀ e ∈ s₁.events, p e :=
      fun hno e he ↦ hno e (h₂.clears.events.subset he)
    have hnone : (∀ e ∈ s₂.events, ¬ e.strands) → ∀ e ∈ s₂.orphans.mapOrphanBlocksByPrev,
        s₂.node.mapBlockIndex e.1 = none := by
      intro hno e he
      rw [← Option.not_isSome_iff_eq_none]
      intro hsome
      rcases h₂.index hno e he hsome with hsome₁ | hmem
      · have he₀ : e ∈ s.orphans.mapOrphanBlocksByPrev := h₁.orphans ▸ h₂.subset he
        exact h₂.worked e he (List.mem_singleton.mpr (hbefore (hno₁ hno) e he₀ hsome₁))
      · cases hmem
    refine ⟨⟨h₂.wf, h₂.clears.linked hl₁, fun hno ↦ h₂.clears.staked hl₁ hno (hstaked₁ (hno₁ hno)),
      hnone⟩, h₁.events.trans h₂.clears.events, ?_⟩
    intro hno hash hsome e he
    change e ∉ s₂.orphans.mapOrphanBlocksByPrev
    have hsome₂ : (s₂.node.mapBlockIndex hash).isSome := hsome
    induction he with
    | child he heq =>
      intro hmem
      rw [← heq, hnone hno _ hmem] at hsome₂
      cases hsome₂
    | @step o e ho he heq ih =>
      intro hmem
      have ho₁ : o ∈ s₁.orphans.mapOrphanBlocksByPrev := h₁.orphans ▸ ho.mem
      rcases h₂.gone hno o ho₁ with hstays | hgone
      · exact ih hstays
      · cases hgone e hmem heq

theorem Holding.processBlock {s : ProcessState} (h : Holding P s) {block : CBlock}
    {result : EStateM.Result Fault ProcessState Unit}
    (hret : processBlock P r block s = some result) :
    Holding P (Exec.final result) ∧ s.events <:+ (Exec.final result).events ∧
      ((∀ e ∈ (Exec.final result).events, ¬ e.strands) → CaughtUp s (Exec.final result)) := by
  unfold Bws.processBlock at hret
  split at hret
  · cases hret
    exact ⟨h, List.suffix_refl _, fun hno ↦ h.leavesNone hno rfl⟩
  · rename_i block' hcheck
    obtain ⟨hnew, hvtx⟩ := checkReceived_eq_ok hcheck
    split at hret
    · rename_i hparent
      obtain ⟨hheld, hevents, hnode⟩ :=
        h.holdBlock hvtx hnew (Option.isNone_iff_eq_none.mp hparent) hret
      refine ⟨hheld, hevents, fun hno ↦ h.leavesNone (fun e he ↦ hno e (hevents.subset he)) ?_⟩
      rw [hnode]
    · cases hret
      exact h.acceptReceived hvtx

theorem Receives.holding {genesis : CBlock} {s : ProcessState} (h : Receives P genesis s) :
    Holding P s := by
  induction h with
  | start h =>
    refine ⟨h.wf, OrphanState.linked_empty, fun _ e he ↦ ?_, fun _ e he ↦ ?_⟩
    · exact absurd he List.not_mem_nil
    · exact absurd he List.not_mem_nil
  | block _ r block returns ih => exact (ih.processBlock returns).1
  | @tx s _ w tx fLimitFree ih =>
    refine ⟨ih.wf.step w (.tx tx fLimitFree), ih.linked, ih.staked, fun hno e he ↦ ?_⟩
    have hsame : (s.node.step P w (.tx tx fLimitFree)).mapBlockIndex = s.node.mapBlockIndex := by
      rcases step_tx P w s.node tx fLimitFree with hstep | ⟨-, hstep⟩ <;> rw [hstep]
      rfl
    exact (congrFun hsame e.1).trans (ih.parentless hno e he)

/-! ## The containers agree -/

/-- The maps hold the same records, each under its own hash and its parent's; the size is the sum of
the sizes of the blocks, and the stakes are those of the proof-of-stake orphans. -/
structure OrphanState.Consistent (s : OrphanState) : Prop where
  records : ∀ hash o, s.mapOrphanBlocks hash = some o ↔
    o.hashBlock = hash ∧ (o.hashPrev, o) ∈ s.mapOrphanBlocksByPrev
  parents : ∀ e ∈ s.mapOrphanBlocksByPrev, e.1 = e.2.hashPrev
  nodup : s.mapOrphanBlocksByPrev.Nodup
  size : s.nOrphanBlocksSize =
    (s.mapOrphanBlocksByPrev.map fun e ↦ e.2.vchBlock.serializeSize).sum
  stakes : ∀ stake, stake ∈ s.setStakeSeenOrphan ↔ ∃ e ∈ s.mapOrphanBlocksByPrev,
    e.2.vchBlock.isProofOfStake ∧ e.2.vchBlock.getProofOfStake = stake

theorem OrphanState.Consistent.stake_mem {s : OrphanState} (h : s.Consistent) {k : UInt256}
    {block : CBlock} (hmem : (k, orphanOf P block) ∈ s.mapOrphanBlocksByPrev)
    (hpos : block.isProofOfStake) : block.getProofOfStake ∈ s.setStakeSeenOrphan :=
  (h.stakes _).mpr ⟨_, hmem, hpos, rfl⟩

/-- **The containers of orphan blocks agree** between two calls, in every run that erases no orphan
while another one with its stake is stored. -/
theorem Receives.consistent {genesis : CBlock} {s : ProcessState} (h : Receives P genesis s)
    (hno : ∀ e ∈ s.events, ¬ e.losesStake) : s.orphans.Consistent := by
  have hs := h.holding
  have hstake : ∀ e ∈ s.orphans.mapOrphanBlocksByPrev,
      e.2.stake = e.2.vchBlock.getProofOfStake := by
    intro e he
    rw [(hs.linked.made e he).1]
    rfl
  refine ⟨hs.linked.find, fun e he ↦ (hs.linked.made e he).2.1, hs.linked.nodup.of_map _,
    hs.linked.size, fun stake ↦ ⟨fun hmem ↦ ?_, ?_⟩⟩
  · obtain ⟨e, he, hpos, heq⟩ := hs.linked.stakes stake hmem
    exact ⟨e, he, hpos, (hstake e he).symm.trans heq⟩
  · rintro ⟨e, he, hpos, rfl⟩
    rw [← hstake e he]
    exact hs.staked hno e he hpos

/-- **No orphan waits for a block that is there**, after any call in a run in which `AcceptBlock` has
refused no block that orphans wait for, once it or the block it waited for is in the index. -/
theorem Receives.caughtUp {genesis : CBlock} {s : ProcessState} (h : Receives P genesis s)
    {r : Receipt} {block : CBlock} {result : EStateM.Result Fault ProcessState Unit}
    (returns : processBlock P r block s = some result)
    (hno : ∀ e ∈ (Exec.final result).events, ¬ e.strands) :
    (∀ e ∈ (Exec.final result).orphans.mapOrphanBlocksByPrev,
      (Exec.final result).node.mapBlockIndex e.2.hashPrev = none) ∧
    CaughtUp s (Exec.final result) := by
  obtain ⟨hs, -, hcaught⟩ := h.holding.processBlock returns
  refine ⟨fun e he ↦ ?_, hcaught hno⟩
  rw [← (hs.linked.made e he).2.1]
  exact hs.parentless hno e he

end

/-! ## Runs with orphans -/

namespace Sample

/-- A call on a machine on which everything succeeds. -/
def receipt : Receipt where
  fReindex := false
  fImporting := false
  maxorphanblocksmib := 40
  pfrom := some 70000
  insecureRand _ := 0
  ensureLowS _ := none
  checking := world
  accepting _ := world

/-- The state after some blocks. -/
def received (blocks : List CBlock) : ProcessState :=
  blocks.foldl (fun s block ↦ ((processBlock params receipt block s).map Exec.final).getD s)
    ⟨start, .empty, []⟩

theorem received_concat (blocks : List CBlock) (block : CBlock) : received (blocks ++ [block]) =
    ((processBlock params receipt block (received blocks)).map Exec.final).getD
      (received blocks) := by
  rw [received, List.foldl_append, List.foldl_cons, List.foldl_nil, ← received]

theorem receives_received (blocks : List CBlock) : Receives params genesis (received blocks) := by
  induction blocks using List.reverseRecOn with
  | nil => exact .start (run_start _)
  | append_singleton blocks block ih =>
    rw [received_concat]
    cases hx : processBlock params receipt block (received blocks) with
    | none => exact ih
    | some result => exact ih.block receipt block hx

/-- The first two blocks above the genesis block. -/
def block1 : CBlock := block 1 1 0 0 []
def block2 : CBlock := block 2 (params.blockHash block1.toCBlockHeader) 0 0 []

/-- A coinstake that stakes an outpoint nobody knows. -/
def coinstake (nHeight n : ℕ) : CTransaction where
  nVersion := 1
  nTime := 120 * nHeight
  vin := [⟨⟨7, n⟩, [], uintMax⟩]
  vout := [⟨0, []⟩, ⟨0, [0, 0]⟩]
  nLockTime := 500

/-- A proof-of-stake block at height 2 with a signature that looks right. -/
def stakeBlock (hashPrevBlock : UInt256) (tag n : ℕ) : CBlock :=
  let vtx := [{ coinbase 2 0 tag with vout := [⟨0, []⟩] }, coinstake 2 n]
  { block 2 hashPrevBlock 0 tag [] with
    hashMerkleRoot := CBlock.buildMerkleTree params ⟨⟨0, 0, 0, 0, 0, 0⟩, vtx, []⟩
    vtx := vtx
    vchBlockSig := [0x30, 7, 2, 2, 1, 1, 2, 1, 1] }

/-- The block whose proof-of-stake twin waits for `block1`. -/
def twin : CBlock := stakeBlock 77777 1 0

/-- Two orphans with one stake, the second of which is allowed in as an orphan waits for it; then the
parent of the first. -/
def twins : List CBlock :=
  [block 3 (params.blockHash twin.toCBlockHeader) 0 0 [],
    stakeBlock (params.blockHash block1.toCBlockHeader) 0 0, twin, block1]

/-- A proof-of-stake orphan that stays, one with another stake and a proof-of-work orphan that wait for
`block1`, and `block1`. -/
def waitingBlocks : List CBlock :=
  [twin, stakeBlock (params.blockHash block1.toCBlockHeader) 2 1, block2, block1]

/-- A block that pays more than any reward. -/
def greedy : CBlock := block 1 1 (60000000 * COIN) 0 []

end Sample

/-- Both orphans that waited are erased, and the stake of the one. -/
theorem Receives.consistent_sample :
    (Sample.received Sample.waitingBlocks).orphans.setStakeSeenOrphan = {Sample.twin.getProofOfStake} ∧
      OrphanEvent.erased 240001 false ∈ (Sample.received Sample.waitingBlocks).events ∧
      OrphanEvent.erased 240003 false ∈ (Sample.received Sample.waitingBlocks).events ∧
      (Sample.received Sample.waitingBlocks).orphans.Consistent := by
  have hevents : ∀ e ∈ (Sample.received Sample.waitingBlocks).events,
      e ∈ [.erased 240001 false, .erased 240003 false, .refused 240003 true false false] := by
    decide +kernel
  refine ⟨by decide +kernel, by decide +kernel, by decide +kernel,
    Receives.consistent (Sample.receives_received Sample.waitingBlocks) fun e he ↦ ?_⟩
  have hmem := hevents e he
  simp only [List.mem_cons, List.not_mem_nil, or_false] at hmem
  obtain rfl | rfl | rfl := hmem
  · exact Bool.false_ne_true
  · exact Bool.false_ne_true
  · exact id

/-- The stake of the orphan that is left is not in the set. -/
theorem not_consistent_of_twins : ∃ s, Receives Sample.params Sample.genesis s ∧
    ¬ s.orphans.Consistent := by
  have hpos : Sample.twin.isProofOfStake := by decide +kernel
  have hmem : (77777, orphanOf Sample.params Sample.twin) ∈
      (Sample.received Sample.twins).orphans.mapOrphanBlocksByPrev := by decide +kernel
  have hout : Sample.twin.getProofOfStake ∉
      (Sample.received Sample.twins).orphans.setStakeSeenOrphan := by decide +kernel
  generalize hs : Sample.received Sample.twins = s at hmem hout
  exact ⟨s, hs ▸ Sample.receives_received Sample.twins, fun h ↦ hout (h.stake_mem hmem hpos)⟩

theorem Receives.caughtUp_sample : ∃ result,
    processBlock Sample.params Sample.receipt Sample.block1 (Sample.received [Sample.block2]) =
      some result ∧
    (∀ e ∈ (Exec.final result).orphans.mapOrphanBlocksByPrev,
      (Exec.final result).node.mapBlockIndex e.2.hashPrev = none) ∧
    CaughtUp (Sample.received [Sample.block2]) (Exec.final result) := by
  have hsome : (processBlock Sample.params Sample.receipt Sample.block1
      (Sample.received [Sample.block2])).isSome := by decide +kernel
  obtain ⟨result, hret⟩ := Option.isSome_iff_exists.mp hsome
  have hfinal : Exec.final result = Sample.received [Sample.block2, Sample.block1] := by
    rw [show [Sample.block2, Sample.block1] = [Sample.block2] ++ [Sample.block1] from rfl,
      Sample.received_concat, hret, Option.map_some, Option.getD_some]
  have hevents : (Exec.final result).events = [.erased 240001 false] := by
    rw [hfinal]
    decide +kernel
  refine ⟨result, hret, Receives.caughtUp (Sample.receives_received [Sample.block2]) hret ?_⟩
  rw [hevents]
  rintro e he hstrands
  cases List.mem_singleton.mp he
  exact hstrands

/-- The block enters the index, `ConnectBlock` refuses it, and its child is left waiting. -/
theorem not_caughtUp_of_greedy : ∃ s, Receives Sample.params Sample.genesis s ∧
    ∃ e ∈ s.orphans.mapOrphanBlocksByPrev, (s.node.mapBlockIndex e.2.hashPrev).isSome := by
  refine ⟨_, Sample.receives_received [Sample.block2, Sample.greedy],
    (120001, orphanOf Sample.params Sample.block2), ?_, ?_⟩ <;> decide +kernel

end Bws
