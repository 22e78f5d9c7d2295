import Bws.TxIndex

/-!
# Switches of the best chain

A sequence of switches: extensions by `SetBestChainInner` and reorganisations by `Reorganize`, of
any depth, with anything in between that leaves the transaction index alone (`Switches`).  After
each of them the index is the one of the path up to the new tip (`Switches.indexOf`).
-/

namespace Bws

open Chain (Node)
open Exec (Keeps)
open NodeM NodeState

/-! ## Paths -/

section

variable (tree : CBlockIndex → CBlock)

/-- The transactions of the blocks of a list of entries, in order. -/
def listTxs (l : List CBlockIndex) : List (CTransaction × CDiskTxPos) :=
  l.flatMap fun n ↦ blockTxs (tree n) n

/-- The transactions on the path that starts above `f` and ends with `n`. -/
def pathTxs (f n : CBlockIndex) : List (CTransaction × CDiskTxPos) :=
  listTxs tree (Node.above f n).reverse

@[simp] theorem pathTxs_self (f : CBlockIndex) : pathTxs tree f f = [] := by
  unfold pathTxs
  rw [Chain.Node.above_self]
  rfl

theorem listTxs_append (l l' : List CBlockIndex) :
    listTxs tree (l ++ l') = listTxs tree l ++ listTxs tree l' := List.flatMap_append

theorem pathTxs_append {f g n : CBlockIndex} (hf : f ≤ g) (hg : g ≤ n) :
    pathTxs tree f n = pathTxs tree f g ++ pathTxs tree g n := by
  unfold pathTxs
  rw [Chain.Node.above_append hf hg, List.reverse_append, listTxs_append]

theorem pathTxs_of_pprev {b n : CBlockIndex} (hn : n.pprev = some b) :
    pathTxs tree b n = blockTxs (tree n) n := by
  unfold pathTxs
  rw [Chain.Node.eq_child_of_parent? hn, Chain.Node.above_child _ le_rfl, Chain.Node.above_self]
  exact List.append_nil _

variable (P : Params)

/-- What is on disk for an entry is its block of the tree. -/
def Holds (s : NodeState) : Prop :=
  ∀ n block, s.files.blockAt n.val.nFile n.val.nBlockPos = some block →
    P.blockHash block.toCBlockHeader = n.getBlockHash → tree n = block

/-- The index is the one of the path from above `g` up to `b`, on which no transaction hash occurs
twice. -/
structure IndexOf (g b : CBlockIndex) (idx : Ledger.Index UInt256 CDiskTxPos) : Prop where
  le : g ≤ b
  connectAll : Ledger.connectAll (fun _ ↦ none) (toLedger P (pathTxs tree g b)) = some idx
  fresh : Ledger.Fresh (fun _ ↦ none) (toLedger P (pathTxs tree g b))

/-- A path without a transaction hash that occurs twice. -/
def NoRepeat (g n : CBlockIndex) : Prop :=
  ((pathTxs tree g n).map fun a ↦ P.getHash a.1).Nodup

instance (g n : CBlockIndex) : Decidable (NoRepeat tree P g n) :=
  inferInstanceAs (Decidable (List.Nodup _))

end

section

variable {P : Params} {w : World} {tree : CBlockIndex → CBlock} {g b n : CBlockIndex}
  {s s' : NodeState}

theorem isNull_of_mem_blockTxs {block : CBlock} (hfile : n.val.nFile < uintMax) :
    ∀ a ∈ blockTxs block n, a.2.isNull = false := by
  intro a ha
  obtain ⟨a, -, rfl⟩ := List.mem_map.mp ha
  exact decide_eq_false hfile.ne

/-- Transactions at positions, with distinct hashes, may be connected from nothing. -/
theorem fresh_toLedger {L : List (CTransaction × CDiskTxPos)}
    (hnodup : (L.map fun a ↦ P.getHash a.1).Nodup) (hpos : ∀ a ∈ L, a.2.isNull = false) :
    Ledger.Fresh (fun _ ↦ none) (toLedger P L) where
  nodup := by
    unfold toLedger
    rw [List.map_map]
    exact hnodup
  notMem _ _ := rfl
  pos tp htp := by
    obtain ⟨a, ha, rfl⟩ := List.mem_map.mp htp
    exact hpos a ha

namespace IndexOf

theorem self (tree : CBlockIndex → CBlock) (P : Params) (g : CBlockIndex) :
    IndexOf tree P g g fun _ ↦ none where
  le := le_rfl
  connectAll := by
    rw [pathTxs_self]
    rfl
  fresh := by
    rw [pathTxs_self]
    exact ⟨List.nodup_nil, nofun, nofun⟩

variable {idx : Ledger.Index UInt256 CDiskTxPos}

/-- **What the index says about the path.** -/
theorem describes (h : IndexOf tree P g b idx) :
    Ledger.Describes idx (toLedger P (pathTxs tree g b)) := by
  have := Ledger.describes_nil.connectAll h.fresh h.connectAll
  rwa [List.nil_append] at this

/-- A longer path. -/
theorem append (h : IndexOf tree P g b idx) (hn : b ≤ n)
    {idx' : Ledger.Index UInt256 CDiskTxPos}
    (hconn : Ledger.connectAll idx (toLedger P (pathTxs tree b n)) = some idx')
    (hpos : ∀ a ∈ pathTxs tree b n, a.2.isNull = false) (hnodup : NoRepeat tree P g n) :
    IndexOf tree P g n idx' where
  le := h.le.trans hn
  connectAll := by
    rw [pathTxs_append tree h.le hn, toLedger_append, Ledger.connectAll_append, h.connectAll]
    exact hconn
  fresh := by
    refine fresh_toLedger hnodup ?_
    rw [pathTxs_append tree h.le hn]
    intro a ha
    rcases List.mem_append.mp ha with ha | ha
    · exact h.fresh.pos _ (List.mem_map.mpr ⟨a, ha, rfl⟩)
    · exact hpos a ha

/-- The index of the fork, and how to get back to it. -/
theorem fork (h : IndexOf tree P g b idx) {f : CBlockIndex} (hgf : g ≤ f) (hfb : f ≤ b) :
    ∃ idx', IndexOf tree P g f idx' ∧
      Ledger.disconnectAll idx ((toLedger P (pathTxs tree f b)).map Prod.fst).reverse =
        some idx' := by
  have hconn := h.connectAll
  have hfresh := h.fresh
  rw [pathTxs_append tree hgf hfb, toLedger_append] at hconn hfresh
  rw [Ledger.connectAll_append] at hconn
  obtain ⟨idx', h₁, h₂⟩ := Option.bind_eq_some_iff.mp hconn
  have hfork : IndexOf tree P g f idx' := ⟨hgf, h₁, hfresh.left⟩
  exact ⟨idx', hfork, Ledger.disconnectAll_connectAll hfork.describes.canonical
    (hfork.describes.fresh hfresh) h₂⟩

end IndexOf

/-! ## Branches -/

theorem Holds.of_files (h : Holds tree P s) (hs : s'.files = s.files) : Holds tree P s' := by
  intro n block hat hhash
  rw [hs] at hat
  exact h n block hat hhash

theorem Holds.eq_of_read (h : Holds tree P s) {block : CBlock}
    (hr : P.readFromDisk w s.files n = some block) : tree n = block ∧ n.val.nFile < uintMax := by
  obtain ⟨hat, hhash⟩ := P.readFromDisk_eq_some hr
  exact ⟨h n block hat hhash, s.files.nFile_lt hat⟩

/-- The loop of `Reorganize` over the old branch disconnects its transactions. -/
theorem disconnectAll_of_disconnectBranch {vDisconnect : List CBlockIndex} :
    ∀ {s s' vResurrect r}, s.Open → Holds tree P s →
      disconnectBranch P w vDisconnect vResurrect s = .ok r s' →
      Ledger.disconnectAll s.txdb.txIndex
        ((toLedger P (listTxs tree vDisconnect.reverse)).map Prod.fst).reverse =
          some s'.txdb.txIndex := by
  induction vDisconnect with
  | nil =>
    rintro s _ vResurrect _ - - ⟨⟩
    rfl
  | cons n vDisconnect ih =>
    intro s s' vResurrect r ho hs h
    obtain ⟨block, s₁, h₁, h₂⟩ := Exec.bind_eq_ok.mp h
    obtain ⟨hread, rfl⟩ := readBlock_eq_ok.mp h₁
    obtain ⟨⟨⟩, s₂, h₃, h₄⟩ := Exec.bind_eq_ok.mp h₂
    obtain ⟨ho₂, hdis⟩ := disconnectAll_of_disconnectBlock ho h₃
    have hframe := (keeps_disconnectBlock (N := fun _ ↦ True) P w block n).ok h₃
    have hrest := ih ho₂ (hs.of_files hframe.files) h₄
    rw [List.reverse_cons, listTxs_append, toLedger_append, List.map_append, List.reverse_append,
      Ledger.disconnectAll_append]
    have hblock : listTxs tree [n] = blockTxs block n := by
      rw [← (hs.eq_of_read hread).1]
      exact List.append_nil _
    rw [hblock, hdis]
    exact hrest

/-- The loop of `Reorganize` over the new branch connects its transactions. -/
theorem connectAll_of_connectBranch {vConnect : List CBlockIndex} :
    ∀ {s s' vDelete r}, s.Open → Holds tree P s →
      connectBranch P w vConnect vDelete s = .ok r s' →
      Ledger.connectAll s.txdb.txIndex (toLedger P (listTxs tree vConnect)) =
          some s'.txdb.txIndex ∧
        ∀ a ∈ listTxs tree vConnect, a.2.isNull = false := by
  induction vConnect with
  | nil =>
    rintro s _ vDelete _ - - ⟨⟩
    exact ⟨rfl, nofun⟩
  | cons n vConnect ih =>
    intro s s' vDelete r ho hs h
    obtain ⟨block, s₁, h₁, h₂⟩ := Exec.bind_eq_ok.mp h
    obtain ⟨hread, rfl⟩ := readBlock_eq_ok.mp h₁
    obtain ⟨⟨⟩, s₂, h₃, h₄⟩ := Exec.bind_eq_ok.mp h₂
    obtain ⟨ho₂, hconn⟩ := connectAll_of_connectBlock ho h₃
    have hframe := (keeps_connectBlock (N := fun _ ↦ True) P w trivial block false).ok h₃
    obtain ⟨hrest, hpos⟩ := ih ho₂ (hs.of_files hframe.files) h₄
    obtain ⟨hblock, hfile⟩ := hs.eq_of_read hread
    have hcons : listTxs tree (n :: vConnect) = blockTxs block n ++ listTxs tree vConnect := by
      rw [← hblock]
      rfl
    rw [hcons]
    constructor
    · rw [toLedger_append, Ledger.connectAll_append, hconn]
      exact hrest
    · intro a ha
      rcases List.mem_append.mp ha with ha | ha
      · exact isNull_of_mem_blockTxs hfile a ha
      · exact hpos a ha

/-! ## Switches -/

theorem txIndex_begin (hc : ¬ s.Open) : s.begin_.txdb.txIndex = s.txdb.txIndex := by
  have hb : s.txdb.activeBatch = none := Option.not_isSome_iff_eq_none.mp hc
  funext hash
  rw [CTxDB.txIndex, view_begin hb]
  rfl

/-- The commit that names a new best block. -/
theorem txIndex_commit (ho : s.Open) (hash : UInt256) :
    (s.record (.put .hashBestChain hash)).commit.txdb.txIndex = s.txdb.txIndex :=
  txIndex_put_other ho .hashBestChain nofun hash

/-- **An extension moves the index to the new tip.** -/
theorem IndexOf.setBestChainInner (h : IndexOf tree P g b s.txdb.txIndex) (hc : ¬ s.Open)
    (hn : n.pprev = some b) (hfile : n.val.nFile < uintMax) (hnodup : NoRepeat tree P g n)
    (hx : Bws.setBestChainInner P w (tree n) n s.begin_ = .ok () s') :
    IndexOf tree P g n s'.txdb.txIndex := by
  obtain ⟨s₁, hconn, rfl⟩ := setBestChainInner_ok (open_begin s) hx
  obtain ⟨ho₁, hconn⟩ := connectAll_of_connectBlock (open_begin s) hconn
  rw [txIndex_begin hc, ← pathTxs_of_pprev tree hn] at hconn
  have hle : b ≤ n := (Chain.Node.parent?_lt hn).le
  have hpos : ∀ a ∈ pathTxs tree b n, a.2.isNull = false := by
    rw [pathTxs_of_pprev tree hn]
    exact isNull_of_mem_blockTxs hfile
  have hpool := inPool_attached (P := P) s₁ (tree n) n
  rw [hpool.txdb, txdb_link, txIndex_commit ho₁]
  exact h.append hle hconn hpos hnodup

/-- **A reorganisation moves the index to the new tip.** -/
theorem IndexOf.reorganize (h : IndexOf tree P g b s.txdb.txIndex) (hc : ¬ s.Open)
    (hb : s.pindexBest = some b) (hgn : g ≤ n) (hs : Holds tree P s) (hnodup : NoRepeat tree P g n)
    (hx : Bws.reorganize P w n s.begin_ = .ok () s') : IndexOf tree P g n s'.txdb.txIndex := by
  obtain ⟨b', f, vResurrect, vDelete, s₁, s₂, hb', hf, hd, hconn, hfollow⟩ :=
    reorganize_ok (open_begin s) hx
  cases hb.symm.trans hb'
  obtain ⟨hfb, hfn, hlast⟩ := Chain.Node.findFork_spec hf
  obtain ⟨idx, hfork, hback⟩ := h.fork (hlast g h.le hgn) hfb
  have hframe := (keeps_disconnectBranch (N := fun _ ↦ True) P w _ _).ok hd
  have ho₁ := hframe.open (open_begin s)
  have hidx : idx = s₁.txdb.txIndex := by
    have hdis := disconnectAll_of_disconnectBranch (open_begin s) (hs.of_files rfl) hd
    rw [txIndex_begin hc] at hdis
    exact Option.some.inj (hback.symm.trans hdis)
  obtain ⟨hall, hpos⟩ := connectAll_of_connectBranch ho₁ (hs.of_files hframe.files) hconn
  have ho₂ := ((keeps_connectBranch (N := fun _ ↦ True) P w (fun _ _ ↦ trivial) _).ok hconn).open ho₁
  have hpool := inPool_followSwitch hfollow
  rw [hpool.txdb, txdb_relink, txIndex_commit ho₂]
  exact (hidx ▸ hfork).append hfn hall hpos hnodup

end

/-- A node after a sequence of switches, and its tip: it starts with the genesis block `g` and an
empty index, and each switch has returned true.  Between two switches anything else may happen that
leaves the transaction index alone. -/
inductive Switches (P : Params) (tree : CBlockIndex → CBlock) (g : CBlockIndex) :
    CBlockIndex → NodeState → Prop where
  | start {s : NodeState} (closed : ¬ s.Open) (empty : s.txdb.txIndex = fun _ ↦ none) :
    Switches P tree g g s
  | between {b : CBlockIndex} {s s' : NodeState} (h : Switches P tree g b s) (closed : ¬ s'.Open)
      (same : s'.txdb.txIndex = s.txdb.txIndex) : Switches P tree g b s'
  | extend {b n : CBlockIndex} {s s' : NodeState} (h : Switches P tree g b s) {w : World}
      (parent : n.pprev = some b)
      (disk : s.files.blockAt n.val.nFile n.val.nBlockPos = some (tree n))
      (nodup : NoRepeat tree P g n)
      (switch : setBestChainInner P w (tree n) n s.begin_ = .ok () s') : Switches P tree g n s'
  | reorganize {b n : CBlockIndex} {s s' : NodeState} (h : Switches P tree g b s) {w : World}
      (best : s.pindexBest = some b) (genesis : g ≤ n) (disk : Holds tree P s)
      (nodup : NoRepeat tree P g n)
      (switch : reorganize P w n s.begin_ = .ok () s') : Switches P tree g n s'

theorem Switches.closed_and_indexOf {P : Params} {tree : CBlockIndex → CBlock} {g b : CBlockIndex}
    {s : NodeState} (h : Switches P tree g b s) :
    ¬ s.Open ∧ IndexOf tree P g b s.txdb.txIndex := by
  induction h with
  | start closed empty => exact ⟨closed, empty ▸ IndexOf.self tree P g⟩
  | between h closed same ih => exact ⟨closed, same ▸ ih.2⟩
  | extend h parent disk nodup switch ih =>
    obtain ⟨s₁, -, rfl⟩ := setBestChainInner_ok (open_begin _) switch
    exact ⟨not_open_attached s₁ _ _, ih.2.setBestChainInner ih.1 parent
      (BlockFiles.nFile_lt _ disk) nodup switch⟩
  | reorganize h best genesis disk nodup switch ih =>
    exact ⟨not_open_of_reorganize_ok (open_begin _) switch,
      ih.2.reorganize ih.1 best genesis disk nodup switch⟩

/-- **After any sequence of switches** the transaction index is the one that the blocks on the path
above the genesis block give when they are connected from nothing: a record at its position for each
of their transactions and no other, and a spent slot exactly where one of them spends the output. -/
theorem Switches.txIndex_eq {P : Params} {tree : CBlockIndex → CBlock} {g b : CBlockIndex}
    {s : NodeState} (h : Switches P tree g b s) :
    Ledger.connectAll (fun _ ↦ none) (toLedger P (pathTxs tree g b)) = some s.txdb.txIndex ∧
      Ledger.Describes s.txdb.txIndex (toLedger P (pathTxs tree g b)) :=
  ⟨h.closed_and_indexOf.2.connectAll, h.closed_and_indexOf.2.describes⟩

/-- A node that has just started has no transaction in its index. -/
theorem txIndex_started {P : Params} {w : World} {genesis : CBlock} {e : CBlockEntry} :
    (started P w genesis (.root e)).txdb.txIndex = fun _ ↦ none := rfl

/-- A block that comes in does not change the index before it is switched to. -/
theorem txIndex_offered {P : Params} {w : World} {s : NodeState} (hc : ¬ s.Open) (block : CBlock)
    (n : CBlockIndex) : (s.offered P w block n).txdb.txIndex = s.txdb.txIndex := by
  have hput := txIndex_put_other (open_begin ((s.stored w block).addIndex n))
    (.blockindex (P.diskHash (((s.stored w block).addIndex n).begin_.diskBlockIndex n))) nofun
    (((s.stored w block).addIndex n).begin_.diskBlockIndex n)
  exact hput.trans (txIndex_begin (s := (s.stored w block).addIndex n) hc)

namespace Sample

theorem txIndex_start : start.txdb.txIndex = fun _ ↦ none := by
  have h : Exec.error? (addGenesis params world genesis .init) = none := by decide +kernel
  obtain ⟨e, heq, -⟩ := addGenesis_eq_ok (P := params) (by decide +kernel)
    (Exec.eq_ok_of_error? h) (by decide +kernel)
  change (Exec.final (addGenesis params world genesis .init)).txdb.txIndex = _
  rw [heq]
  exact txIndex_started

/-- The entry of the genesis block. -/
def genesisIndex : CBlockIndex := start.pindexBest.getD (indexOf start genesis)

/-- The first block on top of it. -/
def first : CBlock := block 1 1 0 0 []

/-- The node that the first block is offered to. -/
def offered : NodeState := start.offered params world first (indexOf start first)

/-- The node after the first block has extended the chain. -/
def extended : NodeState :=
  Exec.final (setBestChainInner params world first (indexOf start first) offered.begin_)

theorem switches_extended :
    Switches params (fun _ ↦ first) genesisIndex (indexOf start first) extended := by
  have hstart : Switches params (fun _ ↦ first) genesisIndex genesisIndex start :=
    .start (by decide +kernel) txIndex_start
  have hoffered : Switches params (fun _ ↦ first) genesisIndex genesisIndex offered :=
    .between hstart (by decide +kernel) (txIndex_offered wf_start.closed _ _)
  have hx : Exec.error? (setBestChainInner params world first (indexOf start first)
      offered.begin_) = none := by decide +kernel
  exact .extend hoffered (by decide +kernel) (by decide +kernel) (by decide +kernel)
    (Exec.eq_ok_of_error? hx)

/-- The entry of a block that is written next. -/
def nextIndex (s : NodeState) (block : CBlock) (b : CBlockIndex) : CBlockIndex :=
  .child (newBlockEntry params block 1 (s.files.fileEnd 1 + 8) 0 (some b) false) b

/-- A block at a height with the transactions given. -/
def blockOf (nHeight : ℕ) (vtx : List CTransaction) : CBlock :=
  { block nHeight 0 0 0 [] with
    hashMerkleRoot := CBlock.buildMerkleTree params ⟨⟨0, 0, 0, 0, 0, 0⟩, vtx, []⟩
    vtx }

/-- The coinbase that comes back. -/
def again : CTransaction := coinbase 1 (10 * COIN) 0

/-- A transaction that spends it. -/
def spendAgain (nHeight : ℕ) : CTransaction where
  nVersion := 1
  nTime := 120 * nHeight
  vin := [⟨⟨params.getHash again, 0⟩, [], uintMax⟩]
  vout := [⟨9 * COIN, [0, 0]⟩]
  nLockTime := 1

/-- A chain of 22 blocks.  The coinbase of the first is spent in the eleventh, comes back in the
twelfth and is spent in the last. -/
def repeating : List CBlock :=
  (List.range' 1 22).map fun nHeight ↦
    if nHeight = 1 ∨ nHeight = 12 then blockOf nHeight [again]
    else if nHeight = 11 ∨ nHeight = 22 then
      blockOf nHeight [coinbase nHeight 0 0, spendAgain nHeight]
    else blockOf nHeight [coinbase nHeight 0 0]

/-- Another eleventh block, which spends the first coinbase elsewhere. -/
def elsewhere : CBlock :=
  { blockOf 11 [coinbase 11 0 1, { spendAgain 11 with nLockTime := 2 }] with nNonce := 1 }

/-- Blocks are written, and each has an entry on top of the one before it. -/
def storeChain : List CBlock → CBlockIndex → NodeState → List CBlockIndex × NodeState
  | [], _, s => ([], s)
  | block :: blocks, b, s =>
    let stored := storeChain blocks (nextIndex s block b) (s.stored world block)
    (nextIndex s block b :: stored.1, stored.2)

/-- The entries of the first eleven blocks. -/
def mainChain : List CBlockIndex := (storeChain (repeating.take 11) genesisIndex start).1

/-- The entry of the other block, on top of the tenth. -/
def forkIndex : CBlockIndex :=
  nextIndex (storeChain (repeating.take 11) genesisIndex start).2 elsewhere
    (mainChain.getD 9 genesisIndex)

/-- The node with all twelve on disk. -/
def branched : NodeState := (storeChain (repeating.take 11) genesisIndex start).2.stored world elsewhere

def forkTree (n : CBlockIndex) : CBlock :=
  (branched.files.blockAt n.val.nFile n.val.nBlockPos).getD first

/-- The entries become the tip one after another. -/
def extendChain : List CBlockIndex → CBlockIndex → NodeState → Option NodeState
  | [], _, s => some s
  | n :: ns, b, s =>
    if n.pprev = some b ∧ s.files.blockAt n.val.nFile n.val.nBlockPos = some (forkTree n) ∧
        NoRepeat forkTree params genesisIndex n then
      match setBestChainInner params world (forkTree n) n s.begin_ with
      | .ok _ s' => extendChain ns n { s' with pindexBest := some n }
      | .error _ _ => none
    else none

theorem switches_extendChain (ns : List CBlockIndex) : ∀ {b : CBlockIndex} {s s' : NodeState},
    Switches params forkTree genesisIndex b s → extendChain ns b s = some s' →
      Switches params forkTree genesisIndex (ns.getLastD b) s' ∧ s'.files = s.files := by
  induction ns with
  | nil =>
    rintro b s _ h ⟨⟩
    exact ⟨h, rfl⟩
  | cons n ns ih =>
    intro b s s' h hx
    rw [extendChain] at hx
    split at hx
    · rename_i hstep
      obtain ⟨hparent, hdisk, hnodup⟩ := hstep
      split at hx
      · rename_i s₁ hswitch
        have h₁ := Switches.extend h hparent hdisk hnodup hswitch
        have hnamed : Switches params forkTree genesisIndex n { s₁ with pindexBest := some n } :=
          .between h₁ h₁.closed_and_indexOf.1 rfl
        obtain ⟨h', hfiles⟩ := ih hnamed hx
        have hkeep := (same_setBestChainInner params world (forkTree n) n).ok hswitch
        rw [List.getLastD_cons]
        exact ⟨h', hfiles.trans hkeep.files⟩
      · cases hx
    · cases hx

/-- The node that has switched from the eleventh block to the other one. -/
def switched : NodeState :=
  ((extendChain mainChain genesisIndex branched).map fun s ↦
    Exec.final (reorganize params world forkIndex s.begin_)).getD branched

theorem switches_switched : Switches params forkTree genesisIndex forkIndex switched := by
  have hstart : Switches params forkTree genesisIndex genesisIndex branched :=
    .start wf_start.closed txIndex_start
  have hchain : (extendChain mainChain genesisIndex branched).any (fun s ↦
      decide (s.pindexBest = some (mainChain.getLastD genesisIndex)) &&
        (Exec.error? (reorganize params world forkIndex s.begin_)).isNone) = true := by
    decide +kernel
  rw [switched]
  cases hextend : extendChain mainChain genesisIndex branched with
  | none =>
    rw [hextend] at hchain
    cases hchain
  | some s =>
    rw [hextend, Option.any_some, Bool.and_eq_true, decide_eq_true_eq, Option.isNone_iff_eq_none]
      at hchain
    obtain ⟨h, hfiles⟩ := switches_extendChain mainChain hstart hextend
    refine .reorganize h hchain.1 (by decide +kernel) (fun n block hat _ ↦ ?_) (by decide +kernel)
      (Exec.eq_ok_of_error? hchain.2)
    rw [hfiles] at hat
    rw [forkTree, hat]
    rfl

end Sample

/-- Eleven blocks extend the chain, the last of which spends the coinbase of the first; then another
eleventh block takes its place, and the coinbase is spent there. -/
theorem Switches.txIndex_eq_sample :
    (Sample.switched.txdb.txIndex (Sample.params.getHash Sample.again)).map Ledger.Entry.vSpent =
        some [⟨1, 1982, 2132⟩] ∧
      Ledger.connectAll (fun _ ↦ none) (toLedger Sample.params (pathTxs Sample.forkTree
        Sample.genesisIndex Sample.forkIndex)) = some Sample.switched.txdb.txIndex ∧
      Ledger.Describes Sample.switched.txdb.txIndex (toLedger Sample.params
        (pathTxs Sample.forkTree Sample.genesisIndex Sample.forkIndex)) :=
  ⟨by decide +kernel, Switches.txIndex_eq Sample.switches_switched⟩

/-- The transaction of the genesis block is on the path that starts with the genesis block, and has
no record in the index. -/
theorem not_txIndex_of_genesis :
    Switches Sample.params (fun _ ↦ Sample.first) Sample.genesisIndex
        (Sample.indexOf Sample.start Sample.first) Sample.extended ∧
      Sample.start.files.blockAt Sample.genesisIndex.val.nFile Sample.genesisIndex.val.nBlockPos =
        some Sample.genesis ∧
      Ledger.connectAll (fun _ ↦ none) (toLedger Sample.params
        (blockTxs Sample.genesis Sample.genesisIndex ++ pathTxs (fun _ ↦ Sample.first)
          Sample.genesisIndex (Sample.indexOf Sample.start Sample.first))) ≠
            some Sample.extended.txdb.txIndex := by
  refine ⟨Sample.switches_extended, by decide +kernel, fun h ↦ ?_⟩
  -- connecting the genesis block first leaves a record under the hash of its coinbase
  have hrecord : ((Ledger.connectAll (fun _ ↦ none) (toLedger Sample.params
      (blockTxs Sample.genesis Sample.genesisIndex ++ pathTxs (fun _ ↦ Sample.first)
        Sample.genesisIndex (Sample.indexOf Sample.start Sample.first)))).bind fun idx ↦
          idx (Sample.params.getHash (Sample.coinbase 0 0 0))).isSome := by decide +kernel
  have hnone : Sample.extended.txdb.txIndex (Sample.params.getHash (Sample.coinbase 0 0 0)) =
      none := by decide +kernel
  rw [h, Option.bind_some, hnone] at hrecord
  cases hrecord

end Bws
