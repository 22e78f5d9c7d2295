import Bws.Agree
import Bws.Spend

/-!
# The transaction index of a chain

`ConnectBlock` and `DisconnectBlock` as operations of a ledger on the transaction index that the
batch stands for (`connectAll_of_connectBlock`, `disconnectAll_of_disconnectBlock`).  One undoes
the other, so that after any number of switches the index is the one that the blocks above the
genesis block give when they are connected in order, from nothing (`Switches.txIndex_eq`).

The genesis block is not among them: `SetBestChain` adopts it without `ConnectBlock`.
-/

namespace Bws

open Chain (Node)
open Exec (Keeps)
open NodeM NodeState

/-! ## Writes to the batch -/

section

variable {s s' : NodeState}

theorem txIndex_put (ho : s.Open) (hash : UInt256) (txindex : CTxIndex) :
    (s.record (.put (.tx hash) txindex)).txdb.txIndex =
      Function.update s.txdb.txIndex hash (some txindex) := by
  funext hash'
  rw [CTxDB.txIndex, view_record ho, Overlay.apply_put]
  by_cases h : hash' = hash
  · subst h
    rw [Function.update_self, Function.update_self]
  · rw [Function.update_of_ne h, Function.update_of_ne fun heq ↦ h (DbKey.tx.inj heq)]
    rfl

theorem txIndex_delete (ho : s.Open) (hash : UInt256) :
    (s.record (.delete (.tx hash))).txdb.txIndex =
      Function.update s.txdb.txIndex hash none := by
  funext hash'
  rw [CTxDB.txIndex, view_record ho, Overlay.apply_delete]
  by_cases h : hash' = hash
  · subst h
    rw [Function.update_self, Function.update_self]
  · rw [Function.update_of_ne h, Function.update_of_ne fun heq ↦ h (DbKey.tx.inj heq)]
    rfl

/-- A write of something else than an index entry. -/
theorem txIndex_put_other (ho : s.Open) (key : DbKey) (hkey : ∀ hash, key ≠ .tx hash)
    (value : key.Value) : (s.record (.put key value)).txdb.txIndex = s.txdb.txIndex := by
  funext hash
  rw [CTxDB.txIndex, view_record ho, Overlay.apply_put]
  exact Function.update_of_ne (hkey hash).symm _ _

/-- The batch stays open and holds the same index. -/
def SameTxs (s s' : NodeState) : Prop := s.Open → s'.Open ∧ s'.txdb.txIndex = s.txdb.txIndex

instance : Exec.IsFrame SameTxs where
  refl _ ho := ⟨ho, rfl⟩
  trans h h' ho := by
    obtain ⟨ho₁, heq⟩ := h ho
    obtain ⟨ho₂, heq'⟩ := h' ho₁
    exact ⟨ho₂, heq'.trans heq⟩

end

section

variable (P : Params) (w : World)

theorem sameTxs_emit (e : Event) : Keeps SameTxs (emit e) := fun _ ho ↦ ⟨ho, rfl⟩

theorem sameTxs_trackMoney (pindex : CBlockIndex) (t : BlockTotals) :
    Keeps SameTxs (trackMoney pindex t) := fun _ ho ↦ ⟨ho, rfl⟩

theorem sameTxs_writeBlockIndex (pindex : CBlockIndex) (f : CDiskBlockIndex → CDiskBlockIndex)
    (msg : String) : Keeps SameTxs (writeBlockIndex w P pindex f msg) := by
  refine Keeps.bind (keeps_reads _) fun d s ho ↦ ?_
  rw [writeDb_eq ho]
  exact ⟨open_record _ _, txIndex_put_other ho (.blockindex (P.diskHash d)) nofun d⟩

theorem sameTxs_writeHashNext (pindex : CBlockIndex) (hashNext : UInt256) (msg : String) :
    Keeps SameTxs (writeHashNext w P pindex hashNext msg) := by
  unfold writeHashNext
  split
  · exact Keeps.pure ()
  · exact sameTxs_writeBlockIndex P w _ _ _

theorem sameTxs_emitAll (e : Event) (es : CTransaction → Event) (vtx : List CTransaction) :
    Keeps SameTxs (do emit e; forEach (fun tx ↦ emit (es tx)) vtx : NodeM Unit) :=
  Keeps.bind (sameTxs_emit _) fun _ ↦ keeps_forEach fun _ _ ↦ sameTxs_emit _

end

/-! ## Writes succeed -/

/-- With a batch open the program returns true, and leaves it open. -/
def Writes (x : NodeM Unit) : Prop := ∀ s : NodeState, s.Open → ∃ s', x s = .ok () s' ∧ s'.Open

namespace Writes

theorem bind {x y : NodeM Unit} (hx : Writes x) (hy : Writes y) :
    Writes (do x; y) := by
  intro s ho
  obtain ⟨s₁, h₁, ho₁⟩ := hx s ho
  obtain ⟨s₂, h₂, ho₂⟩ := hy s₁ ho₁
  exact ⟨s₂, (Exec.bind_of_ok h₁ _).trans h₂, ho₂⟩

theorem forEach {α : Type} {f : α → NodeM Unit} (h : ∀ a, Writes (f a)) (l : List α) :
    Writes (NodeM.forEach f l) := by
  induction l with
  | nil => exact fun s ho ↦ ⟨s, rfl, ho⟩
  | cons a l ih => exact (h a).bind ih

theorem emit (e : Event) : Writes (NodeM.emit e) := fun _ ho ↦ ⟨_, rfl, ho⟩

variable (P : Params) (w : World)

theorem writeDb (key : DbKey) (value : key.Value) (msg : String) :
    Writes (Bws.writeDb w key value msg) :=
  fun _ ho ↦ ⟨_, writeDb_eq ho w key value msg, open_record _ _⟩

theorem eraseDb (key : DbKey) : Writes (Bws.eraseDb w key) :=
  fun _ ho ↦ ⟨_, eraseDb_eq ho w key, open_record _ _⟩

theorem writeBlockIndex (pindex : CBlockIndex) (f : CDiskBlockIndex → CDiskBlockIndex)
    (msg : String) : Writes (Bws.writeBlockIndex w P pindex f msg) := by
  intro s ho
  obtain ⟨s', h, ho'⟩ := writeDb w (.blockindex (P.diskHash (f (s.diskBlockIndex pindex))))
    (f (s.diskBlockIndex pindex)) msg s ho
  exact ⟨s', (Exec.bind_of_ok (reads_of_ok (a := f (s.diskBlockIndex pindex)) rfl) _).trans h, ho'⟩

theorem writeHashNext (pindex : CBlockIndex) (hashNext : UInt256) (msg : String) :
    Writes (Bws.writeHashNext w P pindex hashNext msg) := by
  unfold Bws.writeHashNext
  split
  · exact fun s ho ↦ ⟨s, rfl, ho⟩
  · exact writeBlockIndex P w _ _ _

theorem writeConnected (block : CBlock) (pindex : CBlockIndex) (t : BlockTotals) :
    Writes (Bws.writeConnected w P block pindex t) :=
  (forEach (fun _ ↦ writeDb w _ _ _) _).bind
    ((writeHashNext P w _ _ _).bind ((emit _).bind (forEach (fun _ ↦ emit _) _)))

end Writes

/-- The error that a function returns. -/
def fault? {α : Type} : Except Fault α → Option Fault
  | .ok _ => none
  | .error e => some e

/-- **`ConnectBlock` returns what its checks return.** -/
theorem error?_connectBlock {P : Params} {w : World} {s : NodeState} (ho : s.Open)
    (block : CBlock) (pindex : CBlockIndex) :
    Exec.error? (connectBlock w P block pindex false s) =
      fault? (connectBlockCheck P w (s.txView w s.txdb) s.pindexBest block pindex false) := by
  unfold connectBlock
  cases hcheck : connectBlockCheck P w (s.txView w s.txdb) s.pindexBest block pindex false with
  | error e =>
    rw [Exec.bind_of_error (reads_of_error hcheck)]
    rfl
  | ok t =>
    have htrack : Writes (trackMoney pindex t) := fun _ ho ↦ ⟨_, rfl, ho⟩
    obtain ⟨s', h, -⟩ := (htrack.bind ((Writes.writeBlockIndex P w pindex id
      "Connect() : WriteBlockIndex for pindex failed").bind
        (Writes.writeConnected P w block pindex t))) s ho
    rw [Exec.bind_of_ok (reads_of_ok hcheck)]
    simp only [Bool.false_eq_true, if_false]
    rw [h]
    rfl

/-! ## DisconnectBlock -/

section

variable {P : Params} {w : World} {s s' : NodeState}

theorem setSlot_of_disconnectInput {txin : CTxIn} (ho : s.Open)
    (h : disconnectInput w txin s = .ok () s') :
    s'.Open ∧ Ledger.setSlot s.txdb.txIndex txin.prevout.output Ledger.null =
      some s'.txdb.txIndex := by
  obtain ⟨txindex, s₁, h₁, h₂⟩ := Exec.bind_eq_ok.mp h
  obtain ⟨hread, rfl⟩ := reads_eq_ok.mp h₁
  rw [writeDb_eq ho] at h₂
  cases h₂
  refine ⟨open_record _ _, ?_⟩
  split at hread
  · cases hread
  · rename_i txindex' hindex
    split at hread
    · cases hread
    · rename_i hlt
      cases hread
      rw [CTxDB.readTxIndex_eq] at hindex
      rw [txIndex_put ho, Ledger.setSlot, show (txin.prevout.output).1 = txin.prevout.hash from rfl,
        hindex]
      exact if_pos (not_le.mp hlt)

theorem releaseAll_of_forEach {vin : List CTxIn} : ∀ {s s' : NodeState}, s.Open →
    forEach (disconnectInput w) vin s = .ok () s' →
      s'.Open ∧ Ledger.releaseAll s.txdb.txIndex (vin.map fun txin ↦ txin.prevout.output) =
        some s'.txdb.txIndex := by
  induction vin with
  | nil =>
    rintro s _ ho ⟨⟩
    exact ⟨ho, rfl⟩
  | cons txin vin ih =>
    intro s s' ho h
    obtain ⟨s₁, h₁, h₂⟩ := forEach_cons_eq_ok.mp h
    obtain ⟨ho₁, hset⟩ := setSlot_of_disconnectInput ho h₁
    obtain ⟨ho₂, hrest⟩ := ih ho₁ h₂
    refine ⟨ho₂, ?_⟩
    rw [List.map_cons, Ledger.releaseAll, hset]
    exact hrest

theorem disconnect_of_disconnectInputs {tx : CTransaction} (ho : s.Open)
    (h : disconnectInputs w P tx s = .ok () s') :
    s'.Open ∧ Ledger.disconnect s.txdb.txIndex (ledgerTx P tx) = some s'.txdb.txIndex := by
  obtain ⟨⟨⟩, s₁, h₁, h₂⟩ := Exec.bind_eq_ok.mp h
  have hrelease : s₁.Open ∧ Ledger.releaseAll s.txdb.txIndex (ledgerTx P tx).ins =
      some s₁.txdb.txIndex := by
    unfold releaseInputs at h₁
    change _ ∧ Ledger.releaseAll _ (tx.spends.map COutPoint.output) = _
    unfold CTransaction.spends
    split at h₁
    · rename_i hcb
      cases h₁
      rw [if_pos hcb]
      exact ⟨ho, rfl⟩
    · rename_i hcb
      rw [if_neg hcb, List.map_map]
      exact releaseAll_of_forEach ho h₁
  rw [eraseDb_eq hrelease.1] at h₂
  cases h₂
  refine ⟨open_record _ _, ?_⟩
  rw [Ledger.disconnect, hrelease.2, txIndex_delete hrelease.1]
  rfl

theorem disconnectAll_of_forEach {vtx : List CTransaction} : ∀ {s s' : NodeState}, s.Open →
    forEach (disconnectInputs w P) vtx s = .ok () s' →
      s'.Open ∧ Ledger.disconnectAll s.txdb.txIndex (vtx.map (ledgerTx P)) =
        some s'.txdb.txIndex := by
  induction vtx with
  | nil =>
    rintro s _ ho ⟨⟩
    exact ⟨ho, rfl⟩
  | cons tx vtx ih =>
    intro s s' ho h
    obtain ⟨s₁, h₁, h₂⟩ := forEach_cons_eq_ok.mp h
    obtain ⟨ho₁, hdis⟩ := disconnect_of_disconnectInputs ho h₁
    obtain ⟨ho₂, hrest⟩ := ih ho₁ h₂
    refine ⟨ho₂, ?_⟩
    rw [List.map_cons, Ledger.disconnectAll, hdis]
    exact hrest

/-- The transactions of a block with their positions. -/
def blockTxs (block : CBlock) (pindex : CBlockIndex) : List (CTransaction × CDiskTxPos) :=
  placed pindex (block.firstTxPos pindex.val.nBlockPos) block.vtx

theorem map_fst_blockTxs (block : CBlock) (pindex : CBlockIndex) :
    (blockTxs block pindex).map Prod.fst = block.vtx := map_fst_placed pindex _ block.vtx

/-- **`DisconnectBlock` disconnects the transactions of the block.** -/
theorem disconnectAll_of_disconnectBlock {block : CBlock} {pindex : CBlockIndex} (ho : s.Open)
    (h : disconnectBlock w P block pindex s = .ok () s') :
    s'.Open ∧ Ledger.disconnectAll s.txdb.txIndex
      ((toLedger P (blockTxs block pindex)).map Prod.fst).reverse = some s'.txdb.txIndex := by
  obtain ⟨⟨⟩, s₁, h₁, h₂⟩ := Exec.bind_eq_ok.mp h
  obtain ⟨⟨⟩, s₂, h₃, h₄⟩ := Exec.bind_eq_ok.mp h₂
  obtain ⟨ho₁, hdis⟩ := disconnectAll_of_forEach ho h₁
  obtain ⟨ho₂, hnext⟩ := (sameTxs_writeHashNext P w _ _ _).ok h₃ ho₁
  obtain ⟨ho₃, hemit⟩ := (sameTxs_emitAll _ _ _).ok h₄ ho₂
  refine ⟨ho₃, ?_⟩
  rw [hemit, hnext, map_fst_toLedger, map_fst_blockTxs, ← List.map_reverse]
  exact hdis

/-! ## ConnectBlock -/

/-- The queued changes, written out one after another. -/
def writeAll (idx : Ledger.Index UInt256 CDiskTxPos) (l : List (UInt256 × CTxIndex)) :
    Ledger.Index UInt256 CDiskTxPos :=
  l.foldl (fun idx mi ↦ Function.update idx mi.1 (some mi.2)) idx

theorem writeAll_of_notMem {l : List (UInt256 × CTxIndex)} {hash : UInt256}
    (h : ∀ txindex, (hash, txindex) ∉ l) : ∀ idx, writeAll idx l hash = idx hash := by
  induction l with
  | nil => exact fun _ ↦ rfl
  | cons mi l ih =>
    intro idx
    have hne : hash ≠ mi.1 := fun heq ↦ h mi.2 (by simp [heq])
    exact (ih (fun txindex hmem ↦ h txindex (by simp [hmem])) _).trans (Function.update_of_ne hne _ _)

theorem writeAll_of_mem {l : List (UInt256 × CTxIndex)} (hl : (l.map Prod.fst).Nodup)
    {hash : UInt256} {txindex : CTxIndex} (h : (hash, txindex) ∈ l) :
    ∀ idx, writeAll idx l hash = some txindex := by
  induction l with
  | nil => cases h
  | cons mi l ih =>
    intro idx
    obtain ⟨hhead, htail⟩ := List.nodup_cons.mp hl
    rcases List.mem_cons.mp h with rfl | h
    · change writeAll (Function.update idx hash (some txindex)) l hash = some txindex
      rw [writeAll_of_notMem, Function.update_self]
      exact fun _ hmem ↦ hhead (List.mem_map.mpr ⟨_, hmem, rfl⟩)
    · exact ih htail h _

/-- Written out, the queued changes give the index that the loop saw. -/
theorem writeAll_toList (V : TxView) (mapTestPool : TxIndexMap) :
    writeAll V.txIndex mapTestPool.toList = queued V mapTestPool := by
  funext hash
  have hl : (mapTestPool.toList.map Prod.fst).Nodup := by
    rw [List.Nodup, List.pairwise_map]
    exact Std.TreeMap.distinct_keys_toList.imp fun hne heq ↦ hne (compare_eq_iff_eq.mpr heq)
  unfold queued
  cases h : mapTestPool[hash]? with
  | none =>
    refine writeAll_of_notMem (fun txindex hmem ↦ ?_) _
    rw [Std.TreeMap.mem_toList_iff_getElem?_eq_some, h] at hmem
    cases hmem
  | some txindex =>
    exact writeAll_of_mem hl (Std.TreeMap.mem_toList_iff_getElem?_eq_some.mpr h) _

theorem writeAll_of_forEach {l : List (UInt256 × CTxIndex)} {msg : String} :
    ∀ {s s' : NodeState}, s.Open →
      forEach (fun mi : UInt256 × CTxIndex ↦ writeDb w (.tx mi.1) mi.2 msg) l s = .ok () s' →
        s'.Open ∧ s'.txdb.txIndex = writeAll s.txdb.txIndex l := by
  induction l with
  | nil =>
    rintro s _ ho ⟨⟩
    exact ⟨ho, rfl⟩
  | cons mi l ih =>
    intro s s' ho h
    obtain ⟨s₁, h₁, h₂⟩ := forEach_cons_eq_ok.mp h
    rw [writeDb_eq ho] at h₁
    cases h₁
    obtain ⟨ho', hrest⟩ := ih (open_record _ _) h₂
    refine ⟨ho', ?_⟩
    rw [hrest, txIndex_put ho]
    rfl

/-- The index that `ConnectBlock` reads is the one the batch stands for. -/
theorem txIndex_txView (w : World) (s : NodeState) :
    (s.txView w s.txdb).txIndex = s.txdb.txIndex := by
  funext hash
  exact s.txdb.readTxIndex_eq hash

/-- **`ConnectBlock` connects the transactions of the block.** -/
theorem connectAll_of_connectBlock {block : CBlock} {pindex : CBlockIndex} (ho : s.Open)
    (h : connectBlock w P block pindex false s = .ok () s') :
    s'.Open ∧ Ledger.connectAll s.txdb.txIndex (toLedger P (blockTxs block pindex)) =
      some s'.txdb.txIndex := by
  obtain ⟨t, s₁, hcheck, h₁, h₂⟩ := connectBlock_eq_ok.mp h
  obtain ⟨⟨⟩, s₂, h₃, h₄⟩ := Exec.bind_eq_ok.mp h₂
  obtain ⟨⟨⟩, s₃, h₅, h₆⟩ := Exec.bind_eq_ok.mp h₄
  have htrack : Keeps SameTxs (do
      trackMoney pindex t
      writeBlockIndex w P pindex id "Connect() : WriteBlockIndex for pindex failed") :=
    Keeps.bind (sameTxs_trackMoney _ _) fun _ ↦ sameTxs_writeBlockIndex P w _ _ _
  obtain ⟨ho₁, heq₁⟩ := htrack.ok h₁ ho
  obtain ⟨ho₂, heq₂⟩ := writeAll_of_forEach ho₁ h₃
  obtain ⟨ho₃, heq₃⟩ := (sameTxs_writeHashNext P w _ _ _).ok h₅ ho₂
  obtain ⟨ho₄, heq₄⟩ := (sameTxs_emitAll _ _ _).ok h₆ ho₃
  refine ⟨ho₄, ?_⟩
  simp only [connectBlockCheck, bind_eq_ok] at hcheck
  obtain ⟨-, -, t', htxs, -, -, -, -, hcheck⟩ := hcheck
  cases hcheck
  have hconn := connectAll_of_connectTxs htxs
  rw [show (BlockTotals.init (firstTxPos block pindex false)).mapQueuedChanges = ∅ from rfl,
    queued_empty, txIndex_txView] at hconn
  rw [heq₄, heq₃, heq₂, heq₁, ← txIndex_txView w s, writeAll_toList, txIndex_txView]
  exact hconn

end

end Bws
