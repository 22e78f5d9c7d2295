import Bws.Frame

/-!
# SetBestChain taken apart

For each of the nested functions of a switch one equation that says what it returns and which
state it leaves, given how the functions it calls end.  The database calls come first: with a
batch open, a write is never refused, and `TxnCommit` is the only call that can be.
-/

namespace Bws

open Chain (Node)
open Overlay (Op)
open NodeM

/-! ## The database calls with a batch open -/

namespace NodeState

/-- A batch is open. -/
def Open (s : NodeState) : Prop := s.txdb.activeBatch.isSome

instance (s : NodeState) : Decidable s.Open := inferInstanceAs (Decidable (_ = true))

/-- After `TxnBegin`. -/
def begin_ (s : NodeState) : NodeState :=
  { s with txdb := ⟨s.txdb.pdb, some []⟩, events := s.events ++ [.txnBegin] }

/-- After a write to the batch. -/
def record (s : NodeState) (o : Op DbKey.Value) : NodeState :=
  { s with txdb := ⟨s.txdb.pdb, some (s.txdb.activeBatch.getD [] ++ [o])⟩ }

/-- After a `TxnCommit` that LevelDB has executed. -/
def commit (s : NodeState) : NodeState :=
  { s with txdb := ⟨s.txdb.view, none⟩, events := s.events ++ [.txnCommit] }

/-- After a `TxnCommit` that LevelDB has refused. -/
def drop (s : NodeState) : NodeState := { s with txdb := ⟨s.txdb.pdb, none⟩ }

/-- After `TxnAbort`. -/
def abort (s : NodeState) : NodeState :=
  { s with txdb := ⟨s.txdb.pdb, none⟩, events := s.events ++ [.txnAbort] }

/-- After `InvalidChainFound`. -/
def invalid (w : World) (s : NodeState) (pindexNew : CBlockIndex) : NodeState :=
  if s.nBestInvalidTrust < pindexNew.nChainTrust then
    { s with
      nBestInvalidTrust := pindexNew.nChainTrust
      txdb := { s.txdb with
        pdb := ((s.txdb.fresh.write w.putOk .bnBestInvalidTrust pindexNew.nChainTrust).map
          CTxDB.pdb).getD s.txdb.pdb } }
  else s

theorem view_record {s : NodeState} (h : s.Open) (o : Op DbKey.Value) :
    (s.record o).txdb.view = o.apply s.txdb.view := by
  obtain ⟨batch, hb⟩ := Option.isSome_iff_exists.mp h
  simp only [record, CTxDB.view, hb, Option.getD_some, Overlay.applyAll_append]
  rfl

theorem open_begin (s : NodeState) : s.begin_.Open := rfl

theorem open_record (s : NodeState) (o : Op DbKey.Value) : (s.record o).Open := rfl

theorem view_begin {s : NodeState} (h : s.txdb.activeBatch = none) :
    s.begin_.txdb.view = s.txdb.view := by
  simp only [begin_, CTxDB.view, h, Overlay.applyAll_nil]

@[simp] theorem pdb_commit (s : NodeState) : s.commit.txdb.pdb = s.txdb.view := rfl

end NodeState

open NodeState

theorem InBatch.open {N : CBlockIndex → Prop} {s s' : NodeState} (h : InBatch N s s')
    (ho : s.Open) : s'.Open := (h.batch ho).2

theorem InBatch.pdb {N : CBlockIndex → Prop} {s s' : NodeState} (h : InBatch N s s')
    (ho : s.Open) : s'.txdb.pdb = s.txdb.pdb := (h.batch ho).1

theorem txnBegin_eq (s : NodeState) :
    txnBegin s = if s.Open then .error (.thrown "assert(!activeBatch)") s else .ok () s.begin_ := by
  unfold txnBegin
  by_cases h : s.Open
  · obtain ⟨batch, hb⟩ := Option.isSome_iff_exists.mp h
    have hx : s.txdb.txnBegin = .error (.thrown "assert(!activeBatch)") := by
      rw [CTxDB.txnBegin, hb]
    rw [if_pos h, Exec.bind_of_error (reads_of_error hx)]
  · have hb : s.txdb.activeBatch = none := Option.not_isSome_iff_eq_none.mp h
    have hx : s.txdb.txnBegin = .ok ⟨s.txdb.pdb, some []⟩ := by rw [CTxDB.txnBegin, hb]
    rw [if_neg h, Exec.bind_of_ok (reads_of_ok hx)]
    rfl

theorem writeDb_eq {s : NodeState} (h : s.Open) (w : World) (key : DbKey) (value : key.Value)
    (msg : String) : writeDb w key value msg s = .ok () (s.record (.put key value)) := by
  obtain ⟨batch, hb⟩ := Option.isSome_iff_exists.mp h
  simp only [writeDb, CTxDB.write, CTxDB.record_of_batch hb, record, hb, Option.getD_some]

theorem eraseDb_eq {s : NodeState} (h : s.Open) (w : World) (key : DbKey) :
    eraseDb w key s = .ok () (s.record (.delete key)) := by
  obtain ⟨batch, hb⟩ := Option.isSome_iff_exists.mp h
  simp only [eraseDb, assign, CTxDB.erase, CTxDB.record_of_batch hb, record, hb,
    Option.getD_some]

theorem txnCommit_eq {s : NodeState} (h : s.Open) (ok : Bool) (msg : String) :
    txnCommit ok msg s = if ok then .ok () s.commit else .error (.rejected 0 msg) s.drop := by
  obtain ⟨batch, hb⟩ := Option.isSome_iff_exists.mp h
  unfold txnCommit
  cases ok with
  | false =>
    have hx : s.txdb.txnCommit false = .ok (false, ⟨s.txdb.pdb, none⟩) := by
      rw [CTxDB.txnCommit, hb]
      rfl
    rw [Exec.bind_of_ok (reads_of_ok hx)]
    rfl
  | true =>
    have hx : s.txdb.txnCommit true = .ok (true, ⟨s.txdb.view, none⟩) := by
      simp only [CTxDB.txnCommit, CTxDB.view, hb, if_true]
    rw [Exec.bind_of_ok (reads_of_ok hx)]
    rfl

/-! ## Loops -/

/-- The state after a loop of assignments. -/
theorem forEach_assign {α : Type} (f : α → NodeState → NodeState) (l : List α) :
    ∀ s, forEach (fun a ↦ assign (f a)) l s = .ok () (l.foldl (fun s a ↦ f a s) s) := by
  induction l with
  | nil => exact fun s ↦ rfl
  | cons a l ih => exact fun s ↦ ih (f a s)

theorem forEach_cons_eq_ok {α : Type} {f : α → NodeM Unit} {a : α} {l : List α}
    {s s' : NodeState} :
    forEach f (a :: l) s = .ok () s' ↔ ∃ s₁, f a s = .ok () s₁ ∧ forEach f l s₁ = .ok () s' := by
  rw [forEach, Exec.bind_eq_ok]
  constructor
  · rintro ⟨⟨⟩, h⟩
    exact h
  · exact fun h ↦ ⟨(), h⟩

/-- A loop that only appends to the history. -/
theorem forEach_emit {α : Type} (e : α → Event) (l : List α) (s : NodeState) :
    forEach (fun a ↦ emit (e a)) l s = .ok () { s with events := s.events ++ l.map e } := by
  induction l generalizing s with
  | nil =>
    rw [List.map_nil, List.append_nil]
    rfl
  | cons a l ih =>
    have := ih { s with events := s.events ++ [e a] }
    rw [List.append_assoc] at this
    exact this

/-! ## SetBestChainInner -/

namespace NodeState

/-- `pindexNew->pprev->pnext = pindexNew` -/
def link (s : NodeState) (pindex : CBlockIndex) (next : Option CBlockIndex) : NodeState :=
  match pindex.pprev with
  | none => s
  | some pprev => { s with pnext := Function.update s.pnext pprev next }

/-- The transactions of a connected block leave the pool. -/
def removeAll (P : Params) (s : NodeState) (vtx : List CTransaction) : NodeState :=
  vtx.foldl (fun s tx ↦ { s with mempool := s.mempool.remove P tx false }) s

/-- The state of a successful `SetBestChainInner` after `ConnectBlock` has left `s`. -/
def attached (P : Params) (s : NodeState) (block : CBlock) (pindexNew : CBlockIndex) :
    NodeState :=
  ((((s.record (.put .hashBestChain (P.blockHash block.toCBlockHeader))).commit).link pindexNew
    (some pindexNew)).removeAll P block.vtx)

end NodeState

section

variable (P : Params) (w : World)

theorem setBestChainInner_eq {s : NodeState} (h : s.Open) (block : CBlock)
    (pindexNew : CBlockIndex) :
    setBestChainInner P w block pindexNew s =
      match connectBlock w P block pindexNew false s with
      | .ok () s₁ =>
        if w.commitOk (P.blockHash block.toCBlockHeader) then
          .ok () (s₁.attached P block pindexNew)
        else
          .error (.rejected 0 "SetBestChain() : TxnCommit failed")
            (s₁.record (.put .hashBestChain (P.blockHash block.toCBlockHeader))).drop
      | .error (.rejected _ _) s₁ => .error (.rejected 0 "") (s₁.abort.invalid w pindexNew)
      | .error (.thrown msg) s₁ => .error (.thrown msg) s₁ := by
  have hframe : Exec.Keeps (InBatch fun _ ↦ True) (connectBlock w P block pindexNew false) :=
    keeps_connectBlock P w trivial block false
  unfold setBestChainInner
  cases hc : connectBlock w P block pindexNew false s with
  | ok u s₁ =>
    have ho := (hframe.ok hc).open h
    have hx := (Exec.bind_of_ok hc fun _ ↦ writeHashBestChain w _ "").trans
      (writeDb_eq ho w .hashBestChain (P.blockHash block.toCBlockHeader) "")
    rw [Exec.bind_of_ok (succeeds_of_ok hx), if_pos rfl]
    have hcommit := txnCommit_eq (open_record s₁ (.put .hashBestChain
      (P.blockHash block.toCBlockHeader))) (w.commitOk (P.blockHash block.toCBlockHeader))
      "SetBestChain() : TxnCommit failed"
    by_cases hok : w.commitOk (P.blockHash block.toCBlockHeader)
    · rw [if_pos hok] at hcommit
      rw [Exec.bind_of_ok hcommit]
      dsimp only
      rw [if_pos hok]
      exact forEach_assign _ _ _
    · rw [if_neg hok] at hcommit
      rw [Exec.bind_of_error hcommit]
      dsimp only
      rw [if_neg hok]
  | error e s₁ =>
    have hx := Exec.bind_of_error hc fun _ ↦ writeHashBestChain w
      (P.blockHash block.toCBlockHeader) ""
    cases e with
    | rejected nDoS msg => exact Exec.bind_of_ok (succeeds_of_rejected hx) _
    | thrown msg => exact Exec.bind_of_error (succeeds_of_thrown hx) _

theorem extendTip_eq (s : NodeState) (block : CBlock) (pindexNew : CBlockIndex) :
    extendTip P w block pindexNew s =
      match setBestChainInner P w block pindexNew s with
      | .ok () s₁ => .ok () s₁
      | .error (.rejected _ _) s₁ =>
        .error (.rejected 0 "SetBestChain() : SetBestChainInner failed") s₁
      | .error (.thrown msg) s₁ => .error (.thrown msg) s₁ := by
  unfold extendTip
  cases hx : setBestChainInner P w block pindexNew s with
  | ok u s₁ => exact Exec.bind_of_ok (succeeds_of_ok hx) _
  | error e s₁ =>
    cases e with
    | rejected nDoS msg => exact Exec.bind_of_ok (succeeds_of_rejected hx) _
    | thrown msg => exact Exec.bind_of_error (succeeds_of_thrown hx) _

/-! ## Reorganize -/

namespace NodeState

/-- The links of the old branch are cut and those of the new one are made. -/
def relink (s : NodeState) (vDisconnect vConnect : List CBlockIndex) : NodeState :=
  vConnect.foldl (fun s pindex ↦ s.link pindex (some pindex))
    (vDisconnect.foldl (fun s pindex ↦ s.link pindex none) s)

/-- What the new branch contains or conflicts with leaves the pool. -/
def cleanUp (P : Params) (s : NodeState) (vDelete : List CTransaction) : NodeState :=
  vDelete.foldl (fun s tx ↦
    { s with mempool := (s.mempool.remove P tx false).removeConflicts P tx }) s

end NodeState

theorem followSwitch_eq (s : NodeState) (vDisconnect vConnect : List CBlockIndex)
    (vResurrect vDelete : List CTransaction) :
    followSwitch P w vDisconnect vConnect vResurrect vDelete s =
      match forEach (resurrect P w) vResurrect (s.relink vDisconnect vConnect) with
      | .ok () s₁ => .ok () (s₁.cleanUp P vDelete)
      | .error e s₁ => .error e s₁ := by
  have h₁ : forEach (fun pindex ↦ setPnext pindex none) vDisconnect s =
      .ok () (vDisconnect.foldl (fun s pindex ↦ s.link pindex none) s) := forEach_assign _ _ _
  have h₂ : forEach (fun pindex ↦ setPnext pindex (some pindex)) vConnect
      (vDisconnect.foldl (fun s pindex ↦ s.link pindex none) s) =
      .ok () (s.relink vDisconnect vConnect) := forEach_assign _ _ _
  unfold followSwitch
  rw [Exec.bind_of_ok h₁, Exec.bind_of_ok h₂]
  cases hr : forEach (resurrect P w) vResurrect (s.relink vDisconnect vConnect) with
  | ok u s₁ =>
    rw [Exec.bind_of_ok hr]
    exact forEach_assign _ _ _
  | error e s₁ => rw [Exec.bind_of_error hr]

theorem reorganize_eq {s : NodeState} (h : s.Open) (pindexNew : CBlockIndex) :
    reorganize P w pindexNew s =
      match s.findFork pindexNew with
      | .error e => .error e s
      | .ok (pindexBest, pfork) =>
        match disconnectBranch P w (Node.above pfork pindexBest) [] s with
        | .error e s₁ => .error e s₁
        | .ok vResurrect s₁ =>
          match connectBranch P w (Node.above pfork pindexNew).reverse [] s₁ with
          | .error e s₂ => .error e s₂
          | .ok vDelete s₂ =>
            if w.commitOk pindexNew.getBlockHash then
              followSwitch P w (Node.above pfork pindexBest)
                (Node.above pfork pindexNew).reverse vResurrect vDelete
                (s₂.record (.put .hashBestChain pindexNew.getBlockHash)).commit
            else
              .error (.rejected 0 "Reorganize() : TxnCommit failed")
                (s₂.record (.put .hashBestChain pindexNew.getBlockHash)).drop := by
  unfold reorganize
  cases hf : s.findFork pindexNew with
  | error e => exact Exec.bind_of_error (reads_of_error hf) _
  | ok r =>
    obtain ⟨pindexBest, pfork⟩ := r
    rw [Exec.bind_of_ok (reads_of_ok hf)]
    dsimp only
    cases hd : disconnectBranch P w (Node.above pfork pindexBest) [] s with
    | error e s₁ => exact Exec.bind_of_error hd _
    | ok vResurrect s₁ =>
      have h₁ := ((keeps_disconnectBranch (N := fun _ ↦ True) P w _ _).ok hd).open h
      rw [Exec.bind_of_ok hd]
      dsimp only
      cases hc : connectBranch P w (Node.above pfork pindexNew).reverse [] s₁ with
      | error e s₂ => exact Exec.bind_of_error hc _
      | ok vDelete s₂ =>
        have h₂ := ((keeps_connectBranch (N := fun _ ↦ True) P w (fun _ _ ↦ trivial) _).ok
          hc).open h₁
        rw [Exec.bind_of_ok hc]
        dsimp only
        have hw : writeHashBestChain w pindexNew.getBlockHash
            "Reorganize() : WriteHashBestChain failed" s₂ =
            .ok () (s₂.record (.put .hashBestChain pindexNew.getBlockHash)) := writeDb_eq h₂ w _ _ _
        rw [Exec.bind_of_ok hw]
        have hcommit := txnCommit_eq (open_record s₂ (.put .hashBestChain
          pindexNew.getBlockHash)) (w.commitOk pindexNew.getBlockHash)
          "Reorganize() : TxnCommit failed"
        by_cases hok : w.commitOk pindexNew.getBlockHash
        · rw [if_pos hok] at hcommit ⊢
          rw [Exec.bind_of_ok hcommit]
        · rw [if_neg hok] at hcommit ⊢
          rw [Exec.bind_of_error hcommit]

/-! ## SetBestChain -/

theorem setGenesis_eq {s : NodeState} (h : s.Open) (pindexNew : CBlockIndex) (hash : UInt256) :
    setGenesis w pindexNew hash s =
      if w.commitOk hash then
        .ok () { (s.record (.put .hashBestChain hash)).commit with
          pindexGenesisBlock := some pindexNew }
      else
        .error (.rejected 0 "SetBestChain() : TxnCommit failed")
          (s.record (.put .hashBestChain hash)).drop := by
  have hw : writeHashBestChain w hash "" s = .ok () (s.record (.put .hashBestChain hash)) :=
    writeDb_eq h w _ _ _
  have hcommit := txnCommit_eq (open_record s (.put .hashBestChain hash)) (w.commitOk hash)
    "SetBestChain() : TxnCommit failed"
  unfold setGenesis
  rw [Exec.bind_of_ok hw]
  by_cases hok : w.commitOk hash
  · rw [if_pos hok] at hcommit ⊢
    rw [Exec.bind_of_ok hcommit]
    rfl
  · rw [if_neg hok] at hcommit ⊢
    rw [Exec.bind_of_error hcommit]

theorem switchBranch_eq (s : NodeState) (pindexNew : CBlockIndex) :
    switchBranch P w pindexNew s =
      match s.pindexBest with
      | none => .error (.thrown "pindexBest->nChainTrust") s
      | some pindexBest =>
        match reorganize P w (postpone pindexBest.nChainTrust pindexNew).1 s with
        | .ok () s₁ =>
          connectSecondary P w (postpone pindexBest.nChainTrust pindexNew).2.reverse s₁
        | .error (.rejected _ _) s₁ =>
          .error (.rejected 0 "SetBestChain() : Reorganize failed") (s₁.abort.invalid w pindexNew)
        | .error (.thrown msg) s₁ => .error (.thrown msg) s₁ := by
  unfold switchBranch
  cases hbest : s.pindexBest with
  | none =>
    refine Exec.bind_of_error (reads_of_error ?_) _
    rw [hbest]
  | some pindexBest =>
    rw [Exec.bind_of_ok (reads_of_ok (a := postpone pindexBest.nChainTrust pindexNew)
      (by rw [hbest]))]
    dsimp only
    cases hx : reorganize P w (postpone pindexBest.nChainTrust pindexNew).1 s with
    | ok u s₁ => exact Exec.bind_of_ok (succeeds_of_ok hx) _
    | error e s₁ =>
      cases e with
      | rejected nDoS msg => exact Exec.bind_of_ok (succeeds_of_rejected hx) _
      | thrown msg => exact Exec.bind_of_error (succeeds_of_thrown hx) _

/-- A round over a postponed block, given that no batch is open. -/
theorem connectPostponed_eq {s : NodeState} (h : ¬ s.Open) (pindex : CBlockIndex) :
    connectPostponed P w pindex s =
      match P.readFromDisk w s.files pindex with
      | none => .error (.rejected 0 "SetBestChain() : ReadFromDisk failed") s
      | some block => setBestChainInner P w block pindex s.begin_ := by
  unfold connectPostponed
  cases hr : P.readFromDisk w s.files pindex with
  | none => exact Exec.bind_of_error (readBlock_of_none hr) _
  | some block =>
    rw [Exec.bind_of_ok (readBlock_eq_ok.mpr ⟨hr, rfl⟩)]
    have hb := txnBegin_eq s
    rw [if_neg h] at hb
    rw [Exec.bind_of_ok hb]

theorem connectSecondary_cons (pindex : CBlockIndex) (vpindexSecondary : List CBlockIndex)
    (s : NodeState) :
    connectSecondary P w (pindex :: vpindexSecondary) s =
      match connectPostponed P w pindex s with
      | .ok () s₁ => connectSecondary P w vpindexSecondary s₁
      | .error (.rejected _ _) s₁ => .ok () s₁
      | .error (.thrown msg) s₁ => .error (.thrown msg) s₁ := by
  rw [connectSecondary]
  cases hx : connectPostponed P w pindex s with
  | ok u s₁ => exact Exec.bind_of_ok (succeeds_of_ok hx) _
  | error e s₁ =>
    cases e with
    | rejected nDoS msg => exact Exec.bind_of_ok (succeeds_of_rejected hx) _
    | thrown msg => exact Exec.bind_of_error (succeeds_of_thrown hx) _

namespace NodeState

/-- The node with a new best block. -/
def withTip (s : NodeState) (pindexNew : CBlockIndex) (hash : UInt256) : NodeState :=
  { s with
    hashBestChain := hash
    pindexBest := some pindexNew
    pblockindexFBBHLast := none
    nBestHeight := pindexNew.nHeight
    nBestChainTrust := pindexNew.nChainTrust
    mempool := s.mempool.addTransactionsUpdated 1 }

end NodeState

theorem setBestChain_eq {s : NodeState} (h : ¬ s.Open) (block : CBlock)
    (pindexNew : CBlockIndex) :
    setBestChain P w block pindexNew s =
      match connectBest P w block pindexNew s.begin_ with
      | .ok () s₁ => .ok () (s₁.withTip pindexNew (P.blockHash block.toCBlockHeader))
      | .error e s₁ => .error e s₁ := by
  have hb := txnBegin_eq s
  rw [if_neg h] at hb
  unfold setBestChain
  rw [Exec.bind_of_ok hb]
  cases hx : connectBest P w block pindexNew s.begin_ with
  | ok u s₁ =>
    rw [Exec.bind_of_ok hx]
    rfl
  | error e s₁ => rw [Exec.bind_of_error hx]

end

end Bws
