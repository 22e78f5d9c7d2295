import Bws.Reach

/-!
# What the wallets are told

`ConnectBlock` and `DisconnectBlock` tell the wallets of a change while the batch that makes it
is still open.  When the switch fails after that, they have been told of something that did not
happen.  This is what goes wrong on every failing path but those on which the first block that
the switch touches fails already (`settled_iff_failsAtOnce`).
-/

namespace Bws

open Chain (Node)
open Exec (Keeps)
open NodeM NodeState

/-! ## Notices -/

namespace Event

/-- A wallet is told that a transaction of a block is connected or disconnected. -/
def IsNotice : Event → Prop
  | .syncWithWallets _ (some _) _ => True
  | _ => False

instance : DecidablePred IsNotice
  | .syncWithWallets _ (some _) _ => isTrue trivial
  | .syncWithWallets _ none _ => isFalse id
  | .connectBlock _ | .disconnectBlock _ | .txnBegin | .txnCommit | .txnAbort => isFalse id

/-- `CWallet::SyncTransaction` as far as it marks outputs unspent: those that a disconnected
coinstake of this wallet spends. -/
def markedUnspent (isFromMe : CTransaction → Bool) : Event → List COutPoint
  | .syncWithWallets tx _ false =>
    if tx.isCoinStake ∧ isFromMe tx then tx.vin.map CTxIn.prevout else []
  | _ => []

/-- The batch that is open before these events is committed. -/
def commits : List Event → Prop
  | [] | .txnBegin :: _ | .txnAbort :: _ => False
  | .txnCommit :: _ => True
  | .syncWithWallets _ _ _ :: es | .connectBlock _ :: es | .disconnectBlock _ :: es => commits es

/-- Every change that a wallet is told of is committed after that. -/
def settled : List Event → Prop
  | [] => True
  | e :: es => (e.IsNotice → commits es) ∧ settled es

instance decidableCommits : DecidablePred commits
  | [] | .txnBegin :: _ | .txnAbort :: _ => isFalse id
  | .txnCommit :: _ => isTrue trivial
  | .syncWithWallets _ _ _ :: es | .connectBlock _ :: es | .disconnectBlock _ :: es =>
    decidableCommits es

instance decidableSettled : DecidablePred settled
  | [] => isTrue trivial
  | e :: es =>
    have : Decidable (settled es) := decidableSettled es
    inferInstanceAs (Decidable ((e.IsNotice → commits es) ∧ settled es))

theorem txnCommit_mem_of_commits {es : List Event} (h : commits es) : .txnCommit ∈ es := by
  induction es with
  | nil => exact h.elim
  | cons e es ih =>
    cases e with
    | txnCommit => exact List.mem_cons_self
    | txnBegin => exact h.elim
    | txnAbort => exact h.elim
    | syncWithWallets tx pblock fConnect => exact List.mem_cons_of_mem _ (ih h)
    | connectBlock pindex => exact List.mem_cons_of_mem _ (ih h)
    | disconnectBlock pindex => exact List.mem_cons_of_mem _ (ih h)

theorem settled_of_forall {es : List Event} (h : ∀ e ∈ es, ¬ e.IsNotice) : settled es := by
  induction es with
  | nil => trivial
  | cons e es ih =>
    exact ⟨fun he ↦ (h e (by simp) he).elim, ih fun e' he' ↦ h e' (by simp [he'])⟩

theorem not_settled {es : List Event} (hc : .txnCommit ∉ es) {e : Event} (he : e ∈ es)
    (hn : e.IsNotice) : ¬ settled es := by
  induction es with
  | nil => cases he
  | cons e' es ih =>
    rintro ⟨h₁, h₂⟩
    rcases List.mem_cons.mp he with rfl | he
    · exact hc (List.mem_cons_of_mem _ (txnCommit_mem_of_commits (h₁ hn)))
    · exact ih (fun h ↦ hc (List.mem_cons_of_mem _ h)) he h₂

end Event

open Event

/-! ## What each step adds to the history -/

/-- From `s` to `s'` only events with `p` are added to the history. -/
def Adds (p : Event → Prop) (s s' : NodeState) : Prop :=
  ∃ es, s'.events = s.events ++ es ∧ ∀ e ∈ es, p e

namespace Adds

variable {p q : Event → Prop} {s s' s'' : NodeState}

theorem of_eq (h : s'.events = s.events) : Adds p s s' := ⟨[], by simp [h], nofun⟩

theorem trans (h : Adds p s s') (h' : Adds p s' s'') : Adds p s s'' := by
  obtain ⟨es, he, hp⟩ := h
  obtain ⟨es', he', hp'⟩ := h'
  refine ⟨es ++ es', by rw [he', he, List.append_assoc], fun e hmem ↦ ?_⟩
  rcases List.mem_append.mp hmem with hmem | hmem
  · exact hp e hmem
  · exact hp' e hmem

instance : Exec.IsFrame (Adds p) := ⟨fun _ ↦ of_eq rfl, trans⟩

theorem mono (hpq : ∀ e, p e → q e) (h : Adds p s s') : Adds q s s' := by
  obtain ⟨es, he, hp⟩ := h
  exact ⟨es, he, fun e hmem ↦ hpq e (hp e hmem)⟩

end Adds

/-- A wallet is told of a change between `s` and `s'`, and nothing is committed. -/
def Told (s s' : NodeState) : Prop :=
  ∃ es, s'.events = s.events ++ es ∧ .txnCommit ∉ es ∧ ∃ e ∈ es, e.IsNotice

namespace Told

variable {s s' s'' : NodeState}

theorem adds (h : Told s s') (h' : Adds (· ≠ .txnCommit) s' s'') : Told s s'' := by
  obtain ⟨es, he, hc, e, hmem, hn⟩ := h
  obtain ⟨es', he', hp'⟩ := h'
  refine ⟨es ++ es', by rw [he', he, List.append_assoc], fun h ↦ ?_, e, by simp [hmem], hn⟩
  rcases List.mem_append.mp h with h | h
  · exact hc h
  · exact hp' _ h rfl

theorem of_adds (h : Adds (· ≠ .txnCommit) s s') (h' : Told s' s'') : Told s s'' := by
  obtain ⟨es, he, hp⟩ := h
  obtain ⟨es', he', hc, e, hmem, hn⟩ := h'
  refine ⟨es ++ es', by rw [he', he, List.append_assoc], fun h ↦ ?_, e, by simp [hmem], hn⟩
  rcases List.mem_append.mp h with h | h
  · exact hp _ h rfl
  · exact hc h

end Told

section

variable (P : Params) (w : World)

/-- Nothing is added to the history. -/
structure Quiet (s s' : NodeState) : Prop where
  eq : s'.events = s.events

instance : Exec.IsFrame Quiet := ⟨fun _ ↦ ⟨rfl⟩, fun h h' ↦ ⟨h'.eq.trans h.eq⟩⟩

theorem Quiet.trans {s s' s'' : NodeState} (h : Quiet s s') (h' : Quiet s' s'') : Quiet s s'' :=
  Exec.IsFrame.trans h h'

theorem quiet_writeDb (key : DbKey) (value : key.Value) (msg : String) :
    Keeps Quiet (writeDb w key value msg) := by
  intro s
  unfold writeDb
  cases s.txdb.write w.putOk key value <;> exact ⟨rfl⟩

theorem quiet_eraseDb (key : DbKey) : Keeps Quiet (eraseDb w key) := fun _ ↦ ⟨rfl⟩

theorem quiet_writeBlockIndex (pindex : CBlockIndex) (f : CDiskBlockIndex → CDiskBlockIndex)
    (msg : String) : Keeps Quiet (writeBlockIndex w P pindex f msg) :=
  Keeps.bind (keeps_reads _) fun _ ↦ quiet_writeDb w _ _ _

theorem quiet_writeHashNext (pindex : CBlockIndex) (hashNext : UInt256) (msg : String) :
    Keeps Quiet (writeHashNext w P pindex hashNext msg) := by
  unfold writeHashNext
  split
  · exact Keeps.pure ()
  · exact quiet_writeBlockIndex P w _ _ _

theorem quiet_disconnectInputs (tx : CTransaction) : Keeps Quiet (disconnectInputs w P tx) := by
  refine Keeps.bind ?_ fun _ ↦ quiet_eraseDb w _
  unfold releaseInputs
  split
  · exact Keeps.pure ()
  · exact keeps_forEach fun txin _ ↦ Keeps.bind (keeps_reads _) fun _ ↦ quiet_writeDb w _ _ _

/-- What `ConnectBlock` and `DisconnectBlock` tell: the step, and each transaction. -/
def blockEvents (block : CBlock) (pindex : CBlockIndex) (fConnect : Bool) : List Event :=
  (if fConnect then .connectBlock pindex else .disconnectBlock pindex) ::
    block.vtx.map fun tx ↦ .syncWithWallets tx (some block) fConnect

variable {P w}

theorem events_emitAll {s : NodeState} (e : Event) (es : CTransaction → Event)
    (vtx : List CTransaction) :
    (do emit e; forEach (fun tx ↦ emit (es tx)) vtx : NodeM Unit) s =
      .ok () { s with events := s.events ++ e :: vtx.map es } := by
  have he : emit e s = .ok () { s with events := s.events ++ [e] } := rfl
  rw [Exec.bind_of_ok he, forEach_emit, List.append_assoc]
  rfl

theorem events_of_disconnectBlock_ok {block : CBlock} {pindex : CBlockIndex} {s s' : NodeState}
    (h : disconnectBlock w P block pindex s = .ok () s') :
    s'.events = s.events ++ blockEvents block pindex false := by
  obtain ⟨⟨⟩, s₁, h₁, h⟩ := Exec.bind_eq_ok.mp h
  obtain ⟨⟨⟩, s₂, h₂, h⟩ := Exec.bind_eq_ok.mp h
  have hq₁ := (keeps_forEach fun tx _ ↦ quiet_disconnectInputs P w tx).ok h₁
  have hq₂ := (quiet_writeHashNext P w _ _ _).ok h₂
  rw [events_emitAll] at h
  cases h
  rw [← hq₁.eq, ← hq₂.eq]
  rfl

theorem events_of_disconnectBlock_error {block : CBlock} {pindex : CBlockIndex}
    {s s' : NodeState} {e : Fault} (h : disconnectBlock w P block pindex s = .error e s') :
    s'.events = s.events := by
  rcases Exec.bind_eq_error.mp h with h | ⟨⟨⟩, s₁, h₁, h⟩
  · exact ((keeps_forEach fun tx _ ↦ quiet_disconnectInputs P w tx).error h).eq
  have hq₁ := (keeps_forEach fun tx _ ↦ quiet_disconnectInputs P w tx).ok h₁
  rcases Exec.bind_eq_error.mp h with h | ⟨⟨⟩, s₂, -, h⟩
  · rw [← hq₁.eq]
    exact ((quiet_writeHashNext P w _ _ _).error h).eq
  · rw [events_emitAll] at h
    cases h

theorem quiet_trackMoney (pindex : CBlockIndex) (t : BlockTotals) :
    Keeps Quiet (trackMoney pindex t) := fun _ ↦ ⟨rfl⟩

theorem quiet_writeQueued (t : BlockTotals) :
    Keeps Quiet (forEach (fun mi : UInt256 × CTxIndex ↦
      writeDb w (.tx mi.1) mi.2 "ConnectBlock() : UpdateTxIndex failed")
      t.mapQueuedChanges.toList) := keeps_forEach fun _ _ ↦ quiet_writeDb w _ _ _

theorem events_of_writeConnected_ok {block : CBlock} {pindex : CBlockIndex} {t : BlockTotals}
    {s s' : NodeState} (h : writeConnected w P block pindex t s = .ok () s') :
    s'.events = s.events ++ blockEvents block pindex true := by
  obtain ⟨⟨⟩, s₁, h₁, h₂⟩ := Exec.bind_eq_ok.mp h
  obtain ⟨⟨⟩, s₂, h₃, h₄⟩ := Exec.bind_eq_ok.mp h₂
  have hq := Quiet.trans ((quiet_writeQueued t).ok h₁) ((quiet_writeHashNext P w _ _ _).ok h₃)
  rw [events_emitAll] at h₄
  cases h₄
  rw [← hq.eq]
  rfl

theorem events_of_writeConnected_error {block : CBlock} {pindex : CBlockIndex} {t : BlockTotals}
    {s s' : NodeState} {e : Fault} (h : writeConnected w P block pindex t s = .error e s') :
    Quiet s s' := by
  rcases Exec.bind_eq_error.mp h with h₁ | ⟨⟨⟩, s₁, h₁, h₂⟩
  · exact (quiet_writeQueued t).error h₁
  rcases Exec.bind_eq_error.mp h₂ with h₃ | ⟨⟨⟩, s₂, -, h₄⟩
  · exact Quiet.trans ((quiet_writeQueued t).ok h₁) ((quiet_writeHashNext P w _ _ _).error h₃)
  · rw [events_emitAll] at h₄
    cases h₄

/-- The head of `ConnectBlock`: the checks, and what is written before the index entries. -/
theorem connectBlock_eq_ok {block : CBlock} {pindex : CBlockIndex} {s s' : NodeState} :
    connectBlock w P block pindex false s = .ok () s' ↔
      ∃ t s₁, connectBlockCheck P w (s.txView w s.txdb) s.pindexBest block pindex false = .ok t ∧
        (do trackMoney pindex t
            writeBlockIndex w P pindex id "Connect() : WriteBlockIndex for pindex failed") s =
          .ok () s₁ ∧
        writeConnected w P block pindex t s₁ = .ok () s' := by
  unfold connectBlock
  simp only [Exec.bind_eq_ok, reads_eq_ok, Bool.false_eq_true, if_false]
  constructor
  · rintro ⟨t, _, ⟨h₁, rfl⟩, _, s₂, h₂, _, s₃, h₃, h₄⟩
    exact ⟨t, s₃, h₁, ⟨_, s₂, h₂, h₃⟩, h₄⟩
  · rintro ⟨t, s₃, h₁, ⟨_, s₂, h₂, h₃⟩, h₄⟩
    exact ⟨t, s, ⟨h₁, rfl⟩, _, s₂, h₂, _, s₃, h₃, h₄⟩

theorem quiet_trackAndWrite (pindex : CBlockIndex) (t : BlockTotals) (msg : String) :
    Keeps Quiet (do trackMoney pindex t; writeBlockIndex w P pindex id msg) :=
  Keeps.bind (quiet_trackMoney _ _) fun _ ↦ quiet_writeBlockIndex P w _ _ _

theorem events_of_connectBlock_ok {block : CBlock} {pindex : CBlockIndex} {s s' : NodeState}
    (h : connectBlock w P block pindex false s = .ok () s') :
    s'.events = s.events ++ blockEvents block pindex true := by
  obtain ⟨t, s₁, -, h₁, h₂⟩ := connectBlock_eq_ok.mp h
  rw [events_of_writeConnected_ok h₂, ((quiet_trackAndWrite _ _ _).ok h₁).eq]

theorem events_of_connectBlock_error {block : CBlock} {pindex : CBlockIndex} {s s' : NodeState}
    {e : Fault} (h : connectBlock w P block pindex false s = .error e s') :
    s'.events = s.events := by
  rcases Exec.bind_eq_error.mp h with h₁ | ⟨t, s₁, h₁, h₂⟩
  · exact ((keeps_reads _).error h₁ : Quiet s s').eq
  have hq₁ : Quiet s s₁ := (keeps_reads _).ok h₁
  rcases Exec.bind_eq_error.mp h₂ with h₃ | ⟨⟨⟩, s₂, h₃, h₄⟩
  · exact (hq₁.trans ((quiet_trackMoney _ _).error h₃)).eq
  have hq₂ := hq₁.trans ((quiet_trackMoney _ _).ok h₃)
  rcases Exec.bind_eq_error.mp h₄ with h₅ | ⟨⟨⟩, s₃, h₅, h₆⟩
  · exact (hq₂.trans ((quiet_writeBlockIndex P w _ _ _).error h₅)).eq
  have hq₃ := hq₂.trans ((quiet_writeBlockIndex P w _ _ _).ok h₅)
  exact (hq₃.trans (events_of_writeConnected_error h₆)).eq

/-- A block that is connected has passed `CheckBlock`. -/
theorem checkedBlock_of_connectBlock {block : CBlock} {pindex : CBlockIndex} {s s' : NodeState}
    (h : connectBlock w P block pindex false s = .ok () s') : CheckedBlock P block := by
  obtain ⟨t, s₁, h, -, -⟩ := connectBlock_eq_ok.mp h
  exact checkedBlock_of_checkBlock (bind_check_eq_ok.mp h).1

theorem CheckedBlock.vtx_ne_nil {block : CBlock} (h : CheckedBlock P block) : block.vtx ≠ [] := by
  obtain ⟨tx, htx, -⟩ := h.coinbase
  exact List.ne_nil_of_mem (List.mem_of_getElem? htx)

/-! ## Branches -/

theorem told_of_blockEvents {block : CBlock} (hvtx : block.vtx ≠ []) {pindex : CBlockIndex}
    {fConnect : Bool} {s s' : NodeState}
    (h : s'.events = s.events ++ blockEvents block pindex fConnect) : Told s s' := by
  obtain ⟨tx, htx⟩ := List.exists_mem_of_ne_nil _ hvtx
  refine ⟨_, h, ?_, .syncWithWallets tx (some block) fConnect, ?_, trivial⟩
  · unfold blockEvents
    cases fConnect <;> simp
  · exact List.mem_cons_of_mem _ (List.mem_map.mpr ⟨tx, htx, rfl⟩)

theorem adds_of_blockEvents {block : CBlock} {pindex : CBlockIndex} {fConnect : Bool}
    {s s' : NodeState} (h : s'.events = s.events ++ blockEvents block pindex fConnect) :
    Adds (· ≠ .txnCommit) s s' := by
  refine ⟨_, h, fun e he ↦ ?_⟩
  rcases List.mem_cons.mp he with rfl | he
  · cases fConnect <;> nofun
  · obtain ⟨tx, -, rfl⟩ := List.mem_map.mp he
    nofun

theorem adds_disconnectBlock (block : CBlock) (pindex : CBlockIndex) :
    Keeps (Adds (· ≠ .txnCommit)) (disconnectBlock w P block pindex) := by
  intro s
  cases h : disconnectBlock w P block pindex s with
  | ok u s' => exact adds_of_blockEvents (events_of_disconnectBlock_ok h)
  | error e s' => exact .of_eq (events_of_disconnectBlock_error h)

theorem adds_connectBlock (block : CBlock) (pindex : CBlockIndex) :
    Keeps (Adds (· ≠ .txnCommit)) (connectBlock w P block pindex false) := by
  intro s
  cases h : connectBlock w P block pindex false s with
  | ok u s' => exact adds_of_blockEvents (events_of_connectBlock_ok h)
  | error e s' => exact .of_eq (events_of_connectBlock_error h)

theorem adds_disconnectBranch (vDisconnect : List CBlockIndex) :
    ∀ vResurrect, Keeps (Adds (· ≠ .txnCommit)) (disconnectBranch P w vDisconnect vResurrect) := by
  induction vDisconnect with
  | nil => exact fun vResurrect ↦ Keeps.pure _
  | cons pindex vDisconnect ih =>
    exact fun vResurrect ↦ Keeps.bind (keeps_reads _) fun block ↦
      Keeps.bind (adds_disconnectBlock block pindex) fun _ ↦ ih _

theorem adds_connectBranch (vConnect : List CBlockIndex) :
    ∀ vDelete, Keeps (Adds (· ≠ .txnCommit)) (connectBranch P w vConnect vDelete) := by
  induction vConnect with
  | nil => exact fun vDelete ↦ Keeps.pure _
  | cons pindex vConnect ih =>
    exact fun vDelete ↦ Keeps.bind (keeps_reads _) fun block ↦
      Keeps.bind (adds_connectBlock block pindex) fun _ ↦ ih _

variable (P w)

/-- The first block that a branch disconnects, or when there is none the first that it connects,
cannot be read back or is refused. -/
def FirstFails (s : NodeState) : List CBlockIndex → List CBlockIndex → Prop
  | pindex :: _, _ => ∀ block, P.readFromDisk w s.files pindex = some block →
    ∀ s', disconnectBlock w P block pindex s ≠ .ok () s'
  | [], pindex :: _ => ∀ block, P.readFromDisk w s.files pindex = some block →
    ∀ s', connectBlock w P block pindex false s ≠ .ok () s'
  | [], [] => True

/-- The first block that `SetBestChain` disconnects or connects fails, if it comes to one. -/
def FailsAtOnce (s : NodeState) (block : CBlock) (pindexNew : CBlockIndex) : Prop :=
  if s.pindexGenesisBlock = none ∧ P.blockHash block.toCBlockHeader = P.hashGenesisBlock then True
  else if block.hashPrevBlock = s.hashBestChain then
    ∀ s', connectBlock w P block pindexNew false s.begin_ ≠ .ok () s'
  else ∀ pindexBest ∈ s.pindexBest, ∀ pfork ∈
      Node.findFork pindexBest (postpone pindexBest.nChainTrust pindexNew).1,
    FirstFails P w s.begin_ (Node.above pfork pindexBest)
      (Node.above pfork (postpone pindexBest.nChainTrust pindexNew).1).reverse

variable {P w} {s s' : NodeState} {nDoS : ℕ} {msg : String}

theorem disconnectBranch_of_firstFails {pindex : CBlockIndex} {vDisconnect vConnect : List CBlockIndex}
    (vResurrect : List CTransaction) (h : FirstFails P w s (pindex :: vDisconnect) vConnect) :
    ∃ e s', disconnectBranch P w (pindex :: vDisconnect) vResurrect s = .error e s' ∧
      s'.events = s.events := by
  cases hx : disconnectBranch P w (pindex :: vDisconnect) vResurrect s with
  | ok r s' =>
    obtain ⟨block, s₁, h₁, h₂⟩ := Exec.bind_eq_ok.mp hx
    obtain ⟨hread, rfl⟩ := readBlock_eq_ok.mp h₁
    obtain ⟨⟨⟩, s₂, h₃, -⟩ := Exec.bind_eq_ok.mp h₂
    exact absurd h₃ (h block hread s₂)
  | error e s' =>
    refine ⟨e, s', rfl, ?_⟩
    rcases Exec.bind_eq_error.mp hx with h₁ | ⟨block, s₁, h₁, h₂⟩
    · exact ((keeps_reads _).error h₁ : Quiet s s').eq
    · obtain ⟨hread, rfl⟩ := readBlock_eq_ok.mp h₁
      rcases Exec.bind_eq_error.mp h₂ with h₃ | ⟨⟨⟩, s₂, h₃, -⟩
      · exact events_of_disconnectBlock_error h₃
      · exact absurd h₃ (h block hread s₂)

theorem told_disconnectBranch {pindex : CBlockIndex} {vDisconnect vConnect : List CBlockIndex}
    {vResurrect : List CTransaction}
    (hvtx : ∀ block, P.readFromDisk w s.files pindex = some block → block.vtx ≠ [])
    (h : ¬ FirstFails P w s (pindex :: vDisconnect) vConnect) :
    Told s (Exec.final (disconnectBranch P w (pindex :: vDisconnect) vResurrect s)) := by
  unfold FirstFails at h
  push Not at h
  obtain ⟨block, hread, s₁, hblock⟩ := h
  have hx : disconnectBranch P w (pindex :: vDisconnect) vResurrect s = disconnectBranch P w
      vDisconnect (block.vtx.filter (fun tx ↦
        ¬ (tx.isCoinBase ∨ tx.isCoinStake) ∧ pindex.nHeight > P.getTotalBlocksEstimate) ++
        vResurrect) s₁ := by
    rw [disconnectBranch, Exec.bind_of_ok (readBlock_eq_ok.mpr ⟨hread, rfl⟩),
      Exec.bind_of_ok hblock]
  rw [hx]
  exact (told_of_blockEvents (hvtx block hread) (events_of_disconnectBlock_ok hblock)).adds
    (adds_disconnectBranch _ _ s₁)

theorem connectBranch_of_firstFails {pindex : CBlockIndex} {vConnect : List CBlockIndex}
    (vDelete : List CTransaction) (h : FirstFails P w s [] (pindex :: vConnect)) :
    ∃ e s', connectBranch P w (pindex :: vConnect) vDelete s = .error e s' ∧
      s'.events = s.events := by
  cases hx : connectBranch P w (pindex :: vConnect) vDelete s with
  | ok r s' =>
    obtain ⟨block, s₁, h₁, h₂⟩ := Exec.bind_eq_ok.mp hx
    obtain ⟨hread, rfl⟩ := readBlock_eq_ok.mp h₁
    obtain ⟨⟨⟩, s₂, h₃, -⟩ := Exec.bind_eq_ok.mp h₂
    exact absurd h₃ (h block hread s₂)
  | error e s' =>
    refine ⟨e, s', rfl, ?_⟩
    rcases Exec.bind_eq_error.mp hx with h₁ | ⟨block, s₁, h₁, h₂⟩
    · exact ((keeps_reads _).error h₁ : Quiet s s').eq
    · obtain ⟨hread, rfl⟩ := readBlock_eq_ok.mp h₁
      rcases Exec.bind_eq_error.mp h₂ with h₃ | ⟨⟨⟩, s₂, h₃, -⟩
      · exact events_of_connectBlock_error h₃
      · exact absurd h₃ (h block hread s₂)

theorem told_connectBranch {pindex : CBlockIndex} {vConnect : List CBlockIndex}
    {vDelete : List CTransaction} (h : ¬ FirstFails P w s [] (pindex :: vConnect)) :
    Told s (Exec.final (connectBranch P w (pindex :: vConnect) vDelete s)) := by
  unfold FirstFails at h
  push Not at h
  obtain ⟨block, hread, s₁, hblock⟩ := h
  have hx : connectBranch P w (pindex :: vConnect) vDelete s = connectBranch P w
      vConnect (vDelete ++ block.vtx) s₁ := by
    rw [connectBranch, Exec.bind_of_ok (readBlock_eq_ok.mpr ⟨hread, rfl⟩),
      Exec.bind_of_ok hblock]
  rw [hx]
  exact (told_of_blockEvents (checkedBlock_of_connectBlock hblock).vtx_ne_nil
    (events_of_connectBlock_ok hblock)).adds (adds_connectBranch _ _ s₁)

section

variable {pindexNew b f : CBlockIndex} (hf : s.findFork pindexNew = .ok (b, f))
include hf

/-- When the first block of a reorganisation fails, no wallet is told of anything. -/
theorem ReorganizeFails.events (h : ReorganizeFails P w s pindexNew s')
    (hfirst : FirstFails P w s (Node.above f b) (Node.above f pindexNew).reverse) :
    s'.events = s.events := by
  generalize hvd : Node.above f b = vDisconnect at hfirst
  generalize hvc : (Node.above f pindexNew).reverse = vConnect at hfirst
  have hdisconnect : ∀ {e s₁}, disconnectBranch P w vDisconnect [] s = .error e s₁ →
      s₁.events = s.events := by
    intro e s₁ hd
    cases vDisconnect with
    | nil => cases hd
    | cons m vDisconnect =>
      obtain ⟨e', s₂, hx, he⟩ := disconnectBranch_of_firstFails [] hfirst
      rw [hx] at hd
      cases hd
      exact he
  -- only an empty branch is disconnected without a failure
  have hnil : ∀ {vResurrect s₁}, disconnectBranch P w vDisconnect [] s = .ok vResurrect s₁ →
      s₁ = s ∧ vDisconnect = [] := by
    intro vResurrect s₁ hd
    cases vDisconnect with
    | nil =>
      cases hd
      exact ⟨rfl, rfl⟩
    | cons m vDisconnect =>
      obtain ⟨e', s₂, hx, -⟩ := disconnectBranch_of_firstFails [] hfirst
      rw [hx] at hd
      cases hd
  have hconnect : vDisconnect = [] → (Exec.final (connectBranch P w vConnect [] s)).events =
      s.events := by
    rintro rfl
    cases vConnect with
    | nil => rfl
    | cons m vConnect =>
      obtain ⟨e', s₂, hx, he⟩ := connectBranch_of_firstFails [] hfirst
      rw [hx]
      exact he
  cases h with
  | noFork h => rfl
  | disconnect hf' hd =>
    cases hf.symm.trans hf'
    rw [hvd] at hd
    exact hdisconnect hd
  | connect hf' hd hc =>
    cases hf.symm.trans hf'
    rw [hvd] at hd
    rw [hvc] at hc
    obtain ⟨rfl, hempty⟩ := hnil hd
    have := hconnect hempty
    rwa [hc] at this
  | commit hf' hd hc =>
    cases hf.symm.trans hf'
    rw [hvd] at hd
    rw [hvc] at hc
    obtain ⟨rfl, hempty⟩ := hnil hd
    have := hconnect hempty
    rwa [hc] at this

/-- When it does not, a wallet is told of what is then taken back. -/
theorem ReorganizeFails.told (h : ReorganizeFails P w s pindexNew s')
    (hvtx : ∀ m ≤ b, ∀ block, P.readFromDisk w s.files m = some block → block.vtx ≠ [])
    (hfirst : ¬ FirstFails P w s (Node.above f b) (Node.above f pindexNew).reverse) :
    Told s s' := by
  have hle := (Chain.Node.findFork_spec (findFork_eq_ok.mp hf).2).1
  have hmem : ∀ m ∈ Node.above f b, m ≤ b := fun m hm ↦ ((Chain.Node.mem_above hle).mp hm).2
  generalize hvd : Node.above f b = vDisconnect at hfirst hmem
  generalize hvc : (Node.above f pindexNew).reverse = vConnect at hfirst
  have hdisconnect : vDisconnect ≠ [] → Told s (Exec.final (disconnectBranch P w vDisconnect [] s)) := by
    intro hne
    cases vDisconnect with
    | nil => exact absurd rfl hne
    | cons m vDisconnect =>
      exact told_disconnectBranch (hvtx m (hmem m (by simp))) hfirst
  have hconnect : ∀ {vResurrect s₁}, disconnectBranch P w vDisconnect [] s = .ok vResurrect s₁ →
      Told s (Exec.final (connectBranch P w vConnect [] s₁)) := by
    intro vResurrect s₁ hd
    cases vDisconnect with
    | cons m vDisconnect =>
      have := hdisconnect (by simp)
      rw [hd] at this
      exact this.adds (adds_connectBranch _ _ _)
    | nil =>
      cases hd
      cases vConnect with
      | nil => exact absurd trivial hfirst
      | cons m vConnect => exact told_connectBranch hfirst
  cases h with
  | noFork h => exact absurd hf (h _)
  | disconnect hf' hd =>
    cases hf.symm.trans hf'
    rw [hvd] at hd
    have := hdisconnect (by rintro rfl; cases hd)
    rwa [hd] at this
  | connect hf' hd hc =>
    cases hf.symm.trans hf'
    rw [hvd] at hd
    rw [hvc] at hc
    have := hconnect hd
    rwa [hc] at this
  | commit hf' hd hc =>
    cases hf.symm.trans hf'
    rw [hvd] at hd
    rw [hvc] at hc
    have := hconnect hd
    rwa [hc] at this

end

/-! ## SetBestChain -/

/-- The steps of a call that no wallet hears of. -/
def IsBatchStep (e : Event) : Prop := e = .txnBegin ∨ e = .txnAbort

theorem events_invalid (w : World) (s : NodeState) (pindexNew : CBlockIndex) :
    (s.invalid w pindexNew).events = s.events := by
  unfold invalid
  split <;> rfl

theorem adds_begin (s : NodeState) : Adds IsBatchStep s s.begin_ :=
  ⟨[.txnBegin], rfl, by simp [IsBatchStep]⟩

theorem adds_abortInvalid (w : World) (s : NodeState) (pindexNew : CBlockIndex) :
    Adds IsBatchStep s (s.abort.invalid w pindexNew) :=
  ⟨[.txnAbort], events_invalid w _ _, by simp [IsBatchStep]⟩

theorem IsBatchStep.ne_txnCommit {e : Event} (h : IsBatchStep e) : e ≠ .txnCommit := by
  rcases h with rfl | rfl <;> nofun

/-- A failing extension: the wallets hear of the block when `ConnectBlock` has succeeded. -/
theorem setBestChainInner_rejected_events {block : CBlock} {pindexNew : CBlockIndex} (ho : s.Open)
    (h : setBestChainInner P w block pindexNew s = .error (.rejected nDoS msg) s') :
    ((∀ s₁, connectBlock w P block pindexNew false s ≠ .ok () s₁) ∧ Adds IsBatchStep s s') ∨
      (∃ s₁, connectBlock w P block pindexNew false s = .ok () s₁) ∧ Told s s' := by
  rw [setBestChainInner_eq P w ho] at h
  split at h
  · rename_i s₁ hc
    split at h
    · cases h
    · cases h
      have ht : Told s s₁ := told_of_blockEvents (checkedBlock_of_connectBlock hc).vtx_ne_nil
        (events_of_connectBlock_ok hc)
      exact Or.inr ⟨⟨s₁, hc⟩, ht⟩
  · rename_i s₁ hc
    cases h
    refine Or.inl ⟨fun s₂ h₂ ↦ ?_, ?_⟩
    · rw [hc] at h₂
      cases h₂
    exact Adds.trans (.of_eq (events_of_connectBlock_error hc)) (adds_abortInvalid w s₁ _)
  · cases h

theorem setBestChain_rejected_events {block : CBlock} {pindexNew : CBlockIndex} (hs : s.Wf P)
    (h : setBestChain P w block pindexNew s = .error (.rejected nDoS msg) s') :
    (FailsAtOnce P w s block pindexNew ∧ Adds IsBatchStep s s') ∨
      (¬ FailsAtOnce P w s block pindexNew ∧ Told s s') := by
  have hbegin : Adds (· ≠ .txnCommit) s s.begin_ := (adds_begin s).mono fun _ ↦ IsBatchStep.ne_txnCommit
  rw [setBestChain_eq P w hs.closed] at h
  split at h
  · cases h
  rename_i s₁ hx
  cases h
  unfold connectBest at hx
  unfold FailsAtOnce
  by_cases hg : s.pindexGenesisBlock = none ∧ P.blockHash block.toCBlockHeader = P.hashGenesisBlock
  · rw [if_pos hg]
    rw [if_pos (show s.begin_.pindexGenesisBlock = none ∧ _ from hg), setGenesis_eq w (open_begin s)]
      at hx
    split at hx
    · cases hx
    · cases hx
      exact Or.inl ⟨trivial, adds_begin s⟩
  rw [if_neg hg]
  rw [if_neg (show ¬ (s.begin_.pindexGenesisBlock = none ∧ _) from hg)] at hx
  by_cases hext : block.hashPrevBlock = s.hashBestChain
  · rw [if_pos hext]
    rw [if_pos (show block.hashPrevBlock = s.begin_.hashBestChain from hext), extendTip_eq] at hx
    split at hx
    · cases hx
    · rename_i s₂ hinner
      cases hx
      rcases setBestChainInner_rejected_events (open_begin s) hinner with ⟨hc, ha⟩ | ⟨⟨s₂, hc⟩, ht⟩
      · exact Or.inl ⟨hc, (adds_begin s).trans ha⟩
      · exact Or.inr ⟨fun h ↦ h s₂ hc, Told.of_adds hbegin ht⟩
    · cases hx
  · rw [if_neg hext]
    rw [if_neg (show ¬ block.hashPrevBlock = s.begin_.hashBestChain from hext), switchBranch_eq] at hx
    obtain ⟨b, hb, hindex, -, -⟩ := hs.tip
    rw [show s.begin_.pindexBest = some b from hb] at hx
    dsimp only at hx
    split at hx
    · exact absurd hx (connectSecondary_ne_rejected _ _)
    · rename_i s₂ hreorg
      cases hx
      have hfails := reorganizeFails_of_rejected (open_begin s) hreorg
      have hvtx : ∀ m ≤ b, ∀ block, P.readFromDisk w s.begin_.files m = some block →
          block.vtx ≠ [] := by
        intro m hm block hread
        obtain ⟨block', hat, -, hne⟩ := hs.disk (hs.ancestor hindex hm)
        have := (P.readFromDisk_eq_some hread).1
        rw [show s.begin_.files = s.files from rfl, hat] at this
        cases this
        exact hne
      cases hfork : Node.findFork b (postpone b.nChainTrust pindexNew).1 with
      | none =>
        have hsame : s₂ = s.begin_ := by
          cases hfails with
          | noFork h => rfl
          | disconnect hf _ | connect hf _ _ | commit hf _ _ =>
            obtain ⟨hb', hfork'⟩ := findFork_eq_ok.mp hf
            cases hb.symm.trans hb'
            rw [hfork] at hfork'
            cases hfork'
        rw [hsame]
        refine Or.inl ⟨fun b' hb' f hf ↦ ?_, (adds_begin s).trans (adds_abortInvalid w _ _)⟩
        cases hb.symm.trans hb'
        rw [hfork] at hf
        cases hf
      | some f =>
        have hf := findFork_eq_ok.mpr ⟨show s.begin_.pindexBest = some b from hb, hfork⟩
        have hiff : (∀ b' ∈ s.pindexBest, ∀ f' ∈ Node.findFork b' (postpone b'.nChainTrust pindexNew).1,
            FirstFails P w s.begin_ (Node.above f' b')
              (Node.above f' (postpone b'.nChainTrust pindexNew).1).reverse) ↔
            FirstFails P w s.begin_ (Node.above f b)
              (Node.above f (postpone b.nChainTrust pindexNew).1).reverse := by
          constructor
          · exact fun h ↦ h b hb f hfork
          · intro h b' hb' f' hf'
            cases hb.symm.trans hb'
            cases hfork.symm.trans hf'
            exact h
        rw [hiff]
        by_cases hfirst : FirstFails P w s.begin_ (Node.above f b)
            (Node.above f (postpone b.nChainTrust pindexNew).1).reverse
        · refine Or.inl ⟨hfirst, (adds_begin s).trans ?_⟩
          exact Adds.trans (.of_eq (hfails.events hf hfirst)) (adds_abortInvalid w s₂ _)
        · refine Or.inr ⟨hfirst, Told.of_adds hbegin ?_⟩
          exact (hfails.told hf hvtx hfirst).adds
            ((adds_abortInvalid w s₂ _).mono fun _ ↦ IsBatchStep.ne_txnCommit)
    · cases hx

/-- Since `s` the wallets were told of nothing but changes that were committed; in particular no
output of theirs was marked unspent for a coinstake, which stays where it was. -/
def Truthful (isFromMe : CTransaction → Bool) (s s' : NodeState) : Prop :=
  settled (s'.events.drop s.events.length) ∧
    (s'.events.drop s.events.length).flatMap (markedUnspent isFromMe) = []

/-- **When `SetBestChain` returns false, the wallets have been told the truth exactly when the
first block that it disconnects or connects has failed.** -/
theorem truthful_iff_failsAtOnce {block : CBlock} {pindexNew : CBlockIndex} (hs : s.Wf P)
    (h : setBestChain P w block pindexNew s = .error (.rejected nDoS msg) s')
    (isFromMe : CTransaction → Bool) :
    Truthful isFromMe s s' ↔ FailsAtOnce P w s block pindexNew := by
  rcases setBestChain_rejected_events hs h with ⟨hfails, es, he, hp⟩ | ⟨hfails, es, he, hc, e, hmem, hn⟩
  · refine iff_of_true ?_ hfails
    unfold Truthful
    rw [he, List.drop_left]
    refine ⟨settled_of_forall fun e he' ↦ ?_, List.flatMap_eq_nil_iff.mpr fun e he' ↦ ?_⟩
    · rcases hp e he' with rfl | rfl <;> exact id
    · rcases hp e he' with rfl | rfl <;> rfl
  · refine iff_of_false ?_ hfails
    unfold Truthful
    rw [he, List.drop_left]
    exact fun ht ↦ not_settled hc hmem hn ht.1

end

/-- A node that has just started refuses the first block; its coinbase pays too much. -/
theorem truthful_iff_failsAtOnce_sample :
    let block := Sample.block 1 1 (6 * 10 ^ 15) 0 []
    let pindexNew := Sample.indexOf Sample.start block
    let s' := Exec.final (setBestChain Sample.params Sample.world block pindexNew Sample.start)
    Truthful (fun _ ↦ true) Sample.start s' ↔
      FailsAtOnce Sample.params Sample.world Sample.start block pindexNew := by
  intro block pindexNew s'
  have h : Exec.error? (setBestChain Sample.params Sample.world block pindexNew Sample.start) =
      some (.rejected 0 "SetBestChain() : SetBestChainInner failed") := by decide +kernel
  exact truthful_iff_failsAtOnce Sample.wf_start (Exec.eq_error_of_error? h) _

/-- A node that has just started connects its first block, and the batch is not committed: the
wallets have been told of a coinbase that is in no chain. -/
theorem not_truthful_of_refused_commit :
    let block := Sample.block 1 1 0 0 []
    let pindexNew := Sample.indexOf Sample.start block
    let s := Sample.start.offered Sample.params Sample.world block pindexNew
    let r := setBestChain Sample.params { Sample.world with commitOk := fun _ ↦ false } block
      pindexNew s
    Exec.error? r = some (.rejected 0 "SetBestChain() : SetBestChainInner failed") ∧
      ∀ isFromMe, ¬ Truthful isFromMe s (Exec.final r) := by
  intro block pindexNew s r
  have h : Exec.error? r = some (.rejected 0 "SetBestChain() : SetBestChainInner failed") := by
    decide +kernel
  have hn : ¬ settled ((Exec.final r).events.drop s.events.length) := by decide +kernel
  exact ⟨h, fun _ ht ↦ hn ht.1⟩

end Bws
