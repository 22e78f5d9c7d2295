import Bws.Notices
import Bws.Returns

/-!
# The tip in memory and on disk

`SetBestChain` commits in several steps and moves the pointers in memory last.  When every block
that it postpones is connected in the end, memory and database agree again afterwards: the best
block is the one that the last committed `WriteHashBestChain` names, the blocks up to it are the
ones that have been connected, and the links of the index lead to it (`TipAgrees`).

A postponed block that fails ends the loop, and the call returns true all the same, with the
block it was called with named the best one.  That is the only way in which the two come apart.
-/

namespace Bws

open Chain (Node)
open NodeM NodeState

/-! ## The history -/

/-- What the history says about the blocks connected: by batches that were committed, and with
the steps of the batch that is open; the newest first. -/
structure Replay where
  connected : List CBlockIndex
  pending : List CBlockIndex

/-- One event. -/
def Replay.apply (r : Replay) : Event → Replay
  | .txnBegin => { r with pending := r.connected }
  | .connectBlock pindex => { r with pending := pindex :: r.pending }
  | .disconnectBlock pindex => { r with pending := r.pending.erase pindex }
  | .txnCommit => { r with connected := r.pending }
  | .txnAbort | .syncWithWallets _ _ _ => r

/-- The history so far. -/
def NodeState.replay (s : NodeState) : Replay := s.events.foldl Replay.apply ⟨[], []⟩

theorem replay_of_events {s s' : NodeState} (es : List Event) (h : s'.events = s.events ++ es) :
    s'.replay = es.foldl Replay.apply s.replay := by
  unfold NodeState.replay
  rw [h, List.foldl_append]

theorem foldl_syncs {α : Type} (f : α → Event) (hf : ∀ a r, Replay.apply r (f a) = r)
    (l : List α) (r : Replay) : (l.map f).foldl Replay.apply r = r := by
  induction l with
  | nil => rfl
  | cons a l ih =>
    rw [List.map_cons, List.foldl_cons, hf]
    exact ih

theorem connected_of_adds {s s' : NodeState} (h : Adds (· ≠ .txnCommit) s s') :
    s'.replay.connected = s.replay.connected := by
  obtain ⟨es, he, hp⟩ := h
  rw [replay_of_events _ he]
  generalize s.replay = r
  clear he
  induction es generalizing r with
  | nil => rfl
  | cons e es ih =>
    rw [List.foldl_cons, ih fun e' h' ↦ hp e' (by simp [h'])]
    cases e with
    | txnCommit => exact absurd rfl (hp _ (by simp))
    | _ => rfl

theorem replay_of_inPool {s s' : NodeState} (h : InPool s s') : s'.replay = s.replay := by
  obtain ⟨txs, htxs⟩ := h.events
  rw [replay_of_events _ htxs]
  exact foldl_syncs _ (fun _ _ ↦ rfl) _ _

theorem replay_of_blockEvents {s s' : NodeState} {block : CBlock} {pindex : CBlockIndex}
    {fConnect : Bool} (h : s'.events = s.events ++ blockEvents block pindex fConnect) :
    s'.replay = ⟨s.replay.connected,
      if fConnect then pindex :: s.replay.pending else s.replay.pending.erase pindex⟩ := by
  rw [replay_of_events _ h, blockEvents, List.foldl_cons, foldl_syncs _ fun _ _ ↦ rfl]
  cases fConnect <;> rfl

section

variable {P : Params} {w : World} {s s' : NodeState}

/-- Disconnecting a branch takes its blocks off the top. -/
theorem replay_of_disconnectBranch {vDisconnect : List CBlockIndex} :
    ∀ {s s' vResurrect r rest}, disconnectBranch P w vDisconnect vResurrect s = .ok r s' →
      s.replay.pending = vDisconnect ++ rest → s'.replay = ⟨s.replay.connected, rest⟩ := by
  induction vDisconnect with
  | nil =>
    rintro s _ vResurrect _ rest ⟨⟩ hr
    rw [← show s.replay.pending = rest from hr]
  | cons pindex vDisconnect ih =>
    intro s s' vResurrect r rest h hr
    obtain ⟨block, s₁, h₁, h₂⟩ := Exec.bind_eq_ok.mp h
    obtain ⟨-, rfl⟩ := readBlock_eq_ok.mp h₁
    obtain ⟨⟨⟩, s₂, h₃, h₄⟩ := Exec.bind_eq_ok.mp h₂
    have hrep := replay_of_blockEvents (events_of_disconnectBlock_ok h₃)
    rw [hr] at hrep
    have htop : s₂.replay.pending = vDisconnect ++ rest := by
      rw [hrep]
      simp
    rw [ih h₄ htop, hrep]

/-- Connecting a branch puts its blocks on the top. -/
theorem replay_of_connectBranch {vConnect : List CBlockIndex} :
    ∀ {s s' vDelete r}, connectBranch P w vConnect vDelete s = .ok r s' →
      s'.replay = ⟨s.replay.connected, vConnect.reverse ++ s.replay.pending⟩ := by
  induction vConnect with
  | nil =>
    rintro s _ vDelete _ ⟨⟩
    rfl
  | cons pindex vConnect ih =>
    intro s s' vDelete r h
    obtain ⟨block, s₁, h₁, h₂⟩ := Exec.bind_eq_ok.mp h
    obtain ⟨-, rfl⟩ := readBlock_eq_ok.mp h₁
    obtain ⟨⟨⟩, s₂, h₃, h₄⟩ := Exec.bind_eq_ok.mp h₂
    rw [ih h₄, replay_of_blockEvents (events_of_connectBlock_ok h₃)]
    simp

end

/-! ## The links of the index -/

section

variable {s : NodeState}

theorem pnext_link (pindex q : CBlockIndex) (next : Option CBlockIndex) :
    (s.link pindex next).pnext q = if pindex.pprev = some q then next else s.pnext q := by
  unfold link
  cases hp : pindex.pprev with
  | none => rfl
  | some p =>
    by_cases hq : q = p
    · subst hq
      rw [if_pos rfl]
      exact Function.update_self _ _ _
    · rw [if_neg fun h ↦ hq (Option.some.inj h).symm]
      exact Function.update_of_ne hq _ _

/-- Links of other entries stay. -/
theorem pnext_foldl_link (next : CBlockIndex → Option CBlockIndex) {q : CBlockIndex}
    {l : List CBlockIndex} (h : ∀ m ∈ l, m.pprev ≠ some q) :
    ∀ s, (l.foldl (fun s m ↦ s.link m (next m)) s : NodeState).pnext q = s.pnext q := by
  induction l with
  | nil => exact fun _ ↦ rfl
  | cons m l ih =>
    intro s
    rw [List.foldl_cons, ih (fun m' h' ↦ h m' (by simp [h'])), pnext_link,
      if_neg (h m (by simp))]

/-- The link that is made from the parent of `m`. -/
theorem pnext_foldl_link_of_mem (next : CBlockIndex → Option CBlockIndex) {q m : CBlockIndex}
    {l : List CBlockIndex} (hm : m ∈ l) (hq : m.pprev = some q)
    (huniq : ∀ m' ∈ l, m'.pprev = some q → m' = m) :
    ∀ s, (l.foldl (fun s m ↦ s.link m (next m)) s : NodeState).pnext q = next m := by
  induction l with
  | nil => cases hm
  | cons k l ih =>
    intro s
    rw [List.foldl_cons]
    by_cases hl : m ∈ l
    · exact ih hl (fun m' h' ↦ huniq m' (by simp [h'])) _
    · have hk : k = m := ((List.mem_cons.mp hm).resolve_right hl).symm
      subst hk
      rw [pnext_foldl_link, pnext_link, if_pos hq]
      intro m' h' hq'
      exact hl ((huniq m' (by simp [h']) hq') ▸ h')

/-- The links lead from the root up to `b`. -/
def LinkedTo (s : NodeState) (b : CBlockIndex) : Prop :=
  ∀ m ≤ b, ∀ p, m.pprev = some p → s.pnext p = some m

theorem LinkedTo.of_pnext {s s' : NodeState} {b : CBlockIndex} (h : LinkedTo s b)
    (hs : s'.pnext = s.pnext) : LinkedTo s' b := by
  intro m hm p hp
  rw [hs]
  exact h m hm p hp

theorem LinkedTo.link {b n : CBlockIndex} (h : LinkedTo s b) (hn : n.pprev = some b) :
    LinkedTo (s.link n (some n)) n := by
  intro m hm p hp
  rw [pnext_link]
  rw [Chain.Node.eq_child_of_parent? hn, Chain.Node.le_child] at hm
  rcases hm with rfl | hm
  · rw [← Chain.Node.eq_child_of_parent? hn] at hp ⊢
    rw [if_pos hp]
  · have hlt : p < b := (Chain.Node.parent?_lt hp).trans_le hm
    rw [if_neg fun heq ↦ hlt.ne (Option.some.inj (heq.symm.trans hn)), h m hm p hp]

/-- **The links after a reorganisation** from `b` to `n` over the fork `f`. -/
theorem LinkedTo.relink {b n f : CBlockIndex} (h : LinkedTo s b)
    (hf : Node.findFork b n = some f) :
    LinkedTo (s.relink (Node.above f b) (Node.above f n).reverse) n := by
  obtain ⟨hfb, hfn, -⟩ := Chain.Node.findFork_spec hf
  have hmem : ∀ {m}, m ∈ (Node.above f n).reverse ↔ f < m ∧ m ≤ n := fun {m} ↦ by
    rw [List.mem_reverse, Chain.Node.mem_above hfn]
  -- the parent of an entry above the fork is the fork or above it
  have hparent : ∀ {m p : CBlockIndex}, m.pprev = some p → f < m → f ≤ p := fun {m p} hp hlt ↦ by
    rw [Chain.Node.eq_child_of_parent? hp] at hlt
    exact Chain.Node.lt_child.mp hlt
  intro m hm p hp
  unfold NodeState.relink
  by_cases hlt : f < m
  · exact pnext_foldl_link_of_mem some (hmem.mpr ⟨hlt, hm⟩) hp
      (fun m' hm' hp' ↦ Chain.Node.eq_of_parent?_eq (hmem.mp hm').2 hm hp' hp) _
  · have hmf : m ≤ f := by
      rcases Chain.Node.le_total_of_le hm hfn with hle | hle
      · exact hle
      · rcases hle.lt_or_eq with hlt' | heq
        · exact absurd hlt' hlt
        · exact heq.ge
    have hpf : p < f := (Chain.Node.parent?_lt hp).trans_le hmf
    rw [pnext_foldl_link some, pnext_foldl_link fun _ ↦ none]
    · exact h m (hmf.trans hfb) p hp
    · intro m' hm' hp'
      exact absurd (hparent hp' ((Chain.Node.mem_above hfb).mp hm').1) (not_le_of_gt hpf)
    · intro m' hm' hp'
      exact absurd (hparent hp' (hmem.mp hm').1) (not_le_of_gt hpf)

end

/-! ## Agreement -/

/-- The database, the history and the links are those of a node with the genesis block `g` whose
best block is `b`. -/
structure AgreesOn (g : CBlockIndex) (s : NodeState) (b : CBlockIndex) : Prop where
  genesis : g ≤ b
  hash : s.txdb.pdb .hashBestChain = some b.getBlockHash
  connected : s.replay.connected = Node.above g b
  links : LinkedTo s b

/-- The best block in memory is the one that the last committed `WriteHashBestChain` names, the
blocks from the genesis block up to it have been connected, and `pnext` leads to it. -/
def TipAgrees (s : NodeState) : Prop :=
  ∃ g b, s.pindexGenesisBlock = some g ∧ s.pindexBest = some b ∧
    s.hashBestChain = b.getBlockHash ∧ s.nBestHeight = b.nHeight ∧
    s.nBestChainTrust = b.nChainTrust ∧ AgreesOn g s b

/-- The blocks are connected one after another, each in a batch that is committed. -/
def AllConnect (P : Params) (w : World) : List CBlockIndex → NodeState → Prop
  | [], _ => True
  | pindex :: l, s => ∃ s₁, connectPostponed P w pindex s = .ok () s₁ ∧ AllConnect P w l s₁

instance decidableAllConnect (P : Params) (w : World) :
    (l : List CBlockIndex) → (s : NodeState) → Decidable (AllConnect P w l s)
  | [], _ => isTrue trivial
  | pindex :: l, s =>
    match h : connectPostponed P w pindex s with
    | .ok () s₁ =>
      have := decidableAllConnect P w l s₁
      decidable_of_iff (AllConnect P w l s₁)
        ⟨fun hall ↦ ⟨s₁, h, hall⟩, fun ⟨_, h₂, hall⟩ ↦ by cases h.symm.trans h₂; exact hall⟩
    | .error _ _ => isFalse fun ⟨_, h₂, _⟩ ↦ by cases h.symm.trans h₂

/-- Every block that a switch to `pindexNew` postpones is connected once it has reorganized: it
can be read back, `ConnectBlock` accepts it, and its batch is committed. -/
def PostponedConnect (P : Params) (w : World) (s : NodeState) (pindexNew : CBlockIndex) : Prop :=
  ∀ b ∈ s.pindexBest, ∀ s₁,
    reorganize P w (postpone b.nChainTrust pindexNew).1 s.begin_ = .ok () s₁ →
      AllConnect P w (postpone b.nChainTrust pindexNew).2.reverse s₁

section

variable {P : Params} {w : World} {s s' : NodeState} {g b n : CBlockIndex}

theorem AgreesOn.of_same (h : AgreesOn g s b)
    (hdb : s'.txdb.pdb .hashBestChain = s.txdb.pdb .hashBestChain)
    (hr : s'.replay.connected = s.replay.connected) (hn : s'.pnext = s.pnext) : AgreesOn g s' b where
  genesis := h.genesis
  hash := hdb.trans h.hash
  connected := hr.trans h.connected
  links := h.links.of_pnext hn

/-- The globals of the tip, all of which a step has left alone. -/
def NodeState.tipPart (s : NodeState) :=
  (s.pindexGenesisBlock, s.pindexBest, s.hashBestChain, s.nBestHeight, s.nBestChainTrust, s.pnext)

theorem TipAgrees.of_same (h : TipAgrees s) (hs : s'.tipPart = s.tipPart)
    (hdb : s'.txdb.pdb .hashBestChain = s.txdb.pdb .hashBestChain)
    (hr : s'.replay.connected = s.replay.connected) : TipAgrees s' := by
  obtain ⟨g, b, hg, hb, hhash, hheight, htrust, h⟩ := h
  simp only [NodeState.tipPart, Prod.mk.injEq] at hs
  obtain ⟨h₁, h₂, h₃, h₄, h₅, h₆⟩ := hs
  exact ⟨g, b, h₁.trans hg, h₂.trans hb, h₃.trans hhash, h₄.trans hheight, h₅.trans htrust,
    h.of_same hdb hr h₆⟩

theorem replay_commit (s : NodeState) (o : Overlay.Op DbKey.Value) :
    (s.record o).commit.replay = ⟨s.replay.pending, s.replay.pending⟩ := by
  rw [replay_of_events (s := s) [.txnCommit] rfl]
  rfl

theorem replay_begin (s : NodeState) :
    s.begin_.replay = ⟨s.replay.connected, s.replay.connected⟩ := by
  rw [replay_of_events (s := s) [.txnBegin] rfl]
  rfl

theorem replay_link (s : NodeState) (pindex : CBlockIndex) (next : Option CBlockIndex) :
    (s.link pindex next).replay = s.replay := by
  unfold link
  split <;> rfl

theorem replay_relink (s : NodeState) (vDisconnect vConnect : List CBlockIndex) :
    (s.relink vDisconnect vConnect).replay = s.replay := by
  have hfold : ∀ (next : CBlockIndex → Option CBlockIndex) (l : List CBlockIndex) (s : NodeState),
      (l.foldl (fun s pindex ↦ s.link pindex (next pindex)) s).replay = s.replay := by
    intro next l
    induction l with
    | nil => exact fun _ ↦ rfl
    | cons a l ih => exact fun s ↦ (ih _).trans (replay_link s a _)
  exact (hfold some _ _).trans (hfold (fun _ ↦ none) _ _)

/-- The batch that makes `n` the best block is committed, on top of its parent. -/
theorem AgreesOn.setBestChainInner {block : CBlock} (h : AgreesOn g s b) (hn : n.pprev = some b)
    (hhash : P.blockHash block.toCBlockHeader = n.getBlockHash)
    (hx : setBestChainInner P w block n s.begin_ = .ok () s') : AgreesOn g s' n := by
  obtain ⟨s₁, hc, rfl⟩ := setBestChainInner_ok (open_begin s) hx
  have hframe := (keeps_connectBlock (N := fun _ ↦ True) P w trivial block false).ok hc
  have hpool := inPool_attached (P := P) s₁ block n
  have hlinks : LinkedTo (s₁.record
      (.put .hashBestChain (P.blockHash block.toCBlockHeader))).commit b :=
    h.links.of_pnext hframe.pnext
  have hlinked := hlinks.link hn
  refine ⟨h.genesis.trans (Chain.Node.parent?_lt hn).le, ?_, ?_, hlinked.of_pnext hpool.pnext⟩
  · rw [hpool.txdb, txdb_link, pdb_commit, view_record (hframe.open (open_begin s)), ← hhash]
    exact Function.update_self _ _ _
  · rw [replay_of_inPool hpool, replay_link, replay_commit,
      replay_of_blockEvents (events_of_connectBlock_ok hc), replay_begin, h.connected,
      Chain.Node.eq_child_of_parent? hn, Chain.Node.above_child _ h.genesis]
    rfl

/-- A reorganisation that returns true moves the agreement from `b` to the new block. -/
theorem AgreesOn.reorganize (h : AgreesOn g s b) (hb : s.pindexBest = some b) (hgn : g ≤ n)
    (hx : reorganize P w n s.begin_ = .ok () s') : AgreesOn g s' n := by
  obtain ⟨b', f, vResurrect, vDelete, s₁, s₂, hb', hf, hd, hc, hfollow⟩ :=
    reorganize_ok (open_begin s) hx
  cases hb.symm.trans hb'
  obtain ⟨hfb, hfn, hlast⟩ := Chain.Node.findFork_spec hf
  have hgf := hlast g h.genesis hgn
  have hframe : InBatch (fun _ ↦ True) s.begin_ s₂ :=
    ((keeps_disconnectBranch P w _ _).ok hd).trans
      ((keeps_connectBranch P w (fun _ _ ↦ trivial) _).ok hc)
  have hpool := inPool_followSwitch hfollow
  have hlinks : LinkedTo (s₂.record (.put .hashBestChain n.getBlockHash)).commit b :=
    h.links.of_pnext hframe.pnext
  have hlinked := hlinks.relink hf
  refine ⟨hgn, ?_, ?_, hlinked.of_pnext hpool.pnext⟩
  · rw [hpool.txdb, txdb_relink, pdb_commit, view_record (hframe.open (open_begin s))]
    exact Function.update_self _ _ _
  · have hpending : s.begin_.replay.pending = Node.above f b ++ Node.above g f := by
      rw [replay_begin, h.connected, ← Chain.Node.above_append hgf hfb]
    rw [replay_of_inPool hpool, replay_relink, replay_commit, replay_of_connectBranch hc,
      replay_of_disconnectBranch hd hpending, List.reverse_reverse,
      ← Chain.Node.above_append hgf hfn]

/-- The postponed blocks, when all of them connect. -/
theorem AgreesOn.connectSecondary {l : List CBlockIndex} : ∀ {s s' : NodeState} {b : CBlockIndex},
    ¬ s.Open → AgreesOn g s b → Chain.Node.IsPath b l n → AllConnect P w l s →
      connectSecondary P w l s = .ok () s' → AgreesOn g s' n := by
  induction l with
  | nil =>
    rintro s _ b _ h rfl _ ⟨⟩
    exact h
  | cons pindex l ih =>
    rintro s s' b hc h ⟨hp, hpath⟩ ⟨s₁, hs₁, hall⟩ hx
    rw [connectSecondary_cons, hs₁] at hx
    rw [connectPostponed_eq P w hc] at hs₁
    split at hs₁
    · cases hs₁
    · rename_i block hread
      have h₁ := h.setBestChainInner hp (P.readFromDisk_eq_some hread).2 hs₁
      obtain ⟨s₂, -, rfl⟩ := setBestChainInner_ok (open_begin s) hs₁
      exact ih (not_open_attached s₂ _ _) h₁ hpath hall hx

theorem postpone_eq (nTrustBest : UInt256) (n : CBlockIndex) :
    (postpone nTrustBest n).2 = Node.above (postpone nTrustBest n).1 n := by
  induction n with
  | root e => exact (Chain.Node.above_self _).symm
  | child e p ih =>
    unfold postpone
    split
    · change .child e p :: (postpone nTrustBest p).2 =
        Node.above (postpone nTrustBest p).1 (.child e p)
      rw [ih, Chain.Node.above_child _ (postpone_le nTrustBest p)]
    · exact (Chain.Node.above_self _).symm

/-- A block on top of the best one postpones nothing. -/
theorem postpone_of_pprev {n b : CBlockIndex} (h : n.pprev = some b) :
    postpone b.nChainTrust n = (n, []) := by
  rw [Chain.Node.eq_child_of_parent? h, postpone, if_neg (lt_irrefl _)]

/-- **A switch that returns true keeps the agreement when all that it postpones connects.** -/
theorem TipAgrees.setBestChain_ok {block : CBlock} (h : TipAgrees s) (hs : s.Wf P)
    (hn : s.mapBlockIndex (P.blockHash block.toCBlockHeader) = some n)
    (hprev : n.pprev = s.mapBlockIndex block.hashPrevBlock) (hpost : PostponedConnect P w s n)
    (hx : setBestChain P w block n s = .ok () s') : TipAgrees s' := by
  obtain ⟨g, b, hg, hb, -, -, -, h⟩ := h
  have hhash := hs.key hn
  rw [setBestChain_eq P w hs.closed] at hx
  split at hx
  · rename_i s₁ hbest
    cases hx
    have hsame := (same_connectBest P w block n).ok hbest
    refine ⟨g, n, hsame.genesis g hg, rfl, hhash.symm, rfl, rfl, ?_⟩
    suffices hs₁ : AgreesOn g s₁ n from ⟨hs₁.genesis, hs₁.hash, hs₁.connected, hs₁.links⟩
    unfold connectBest at hbest
    rw [if_neg (fun h ↦ by cases hg.symm.trans h.1)] at hbest
    split at hbest
    · rename_i hext
      rw [extendTip_eq] at hbest
      split at hbest
      · rename_i s₂ hinner
        cases hbest
        obtain ⟨b', hb', hindex, -⟩ := hs.tip
        cases hb.symm.trans hb'
        rw [show block.hashPrevBlock = s.hashBestChain from hext, hindex] at hprev
        exact h.setBestChainInner hprev hhash.symm hinner
      · cases hbest
      · cases hbest
    · rw [switchBranch_eq, show s.begin_.pindexBest = some b from hb] at hbest
      dsimp only at hbest
      split at hbest
      · rename_i s₂ hreorg
        have hle := postpone_le b.nChainTrust n
        obtain ⟨g', hg', hgle⟩ := hs.genesis
        cases hg.symm.trans hg'
        have hagree := h.reorganize hb (hgle (hs.ancestor hn hle)) hreorg
        refine hagree.connectSecondary (not_open_of_reorganize_ok (open_begin s) hreorg) ?_
          (hpost b hb s₂ hreorg) hbest
        rw [postpone_eq]
        exact Chain.Node.isPath_above hle
      · cases hbest
      · cases hbest
  · cases hx

/-- A switch that returns false keeps the agreement. -/
theorem TipAgrees.setBestChain_rejected {block : CBlock} {nDoS : ℕ} {msg : String}
    (h : TipAgrees s) (hs : s.Wf P)
    (hx : setBestChain P w block n s = .error (.rejected nDoS msg) s') : TipAgrees s' := by
  have hr : RolledBack (fun _ ↦ True) s s' :=
    Bws.setBestChain_rejected (fun _ _ _ _ _ ↦ trivial) (fun _ ↦ trivial) hx
  have hadds : Adds (· ≠ .txnCommit) s s' := by
    rcases setBestChain_rejected_events hs hx with ⟨-, h⟩ | ⟨-, es, he, hc, -⟩
    · exact h.mono fun _ ↦ IsBatchStep.ne_txnCommit
    · exact ⟨es, he, fun e hmem heq ↦ hc (heq ▸ hmem)⟩
  refine h.of_same ?_ (hr.pdb _ nofun) (connected_of_adds hadds)
  simp only [NodeState.tipPart, hr.pindexGenesisBlock, hr.pindexBest, hr.hashBestChain,
    hr.nBestHeight, hr.nBestChainTrust, hr.pnext]

theorem TipAgrees.addIndex {block : CBlock} (h : TipAgrees s) (hs : s.Wf P)
    (ho : Offered P w s block n) : TipAgrees ((s.stored w block).addIndex n) := by
  obtain ⟨g, b, hg, hb, hhash, hheight, htrust, h⟩ := h
  refine ⟨g, b, hg, hb, hhash, hheight, htrust, h.genesis, h.hash, h.connected, ?_⟩
  intro m hm p hp
  obtain ⟨b', hb', hindex, -⟩ := hs.tip
  cases hb.symm.trans hb'
  -- the parent is in the index, and the new entry was not
  have hne : p ≠ n := by
    rintro rfl
    have := hs.ancestor hindex ((Chain.Node.parent?_lt hp).le.trans hm)
    rw [ho.new] at this
    cases this
  exact (Function.update_of_ne hne _ _).trans (h.links m hm p hp)

theorem TipAgrees.entered {s : NodeState} {n : CBlockIndex} (h : TipAgrees (s.addIndex n))
    (hc : ¬ s.Open) : TipAgrees (s.entered P n) := by
  refine h.of_same rfl ?_ ?_
  · have hb : (s.addIndex n).txdb.activeBatch = none := Option.not_isSome_iff_eq_none.mp hc
    unfold NodeState.entered
    rw [pdb_commit, view_record (open_begin _), view_begin hb, CTxDB.view_of_none hb]
    exact Function.update_of_ne (show DbKey.hashBestChain ≠ .blockindex _ from nofun) _ _
  · unfold NodeState.entered
    rw [replay_commit, replay_begin]

theorem TipAgrees.outcome {block : CBlock} (h : TipAgrees s) (hs : s.Wf P)
    (hpost : ∀ n, Offered P w s block n → PostponedConnect P w (s.offered P w block n) n)
    (ho : Outcome P w s block s') : TipAgrees s' := by
  cases ho with
  | refused => exact h
  | unmodified => exact h.of_same rfl rfl rfl
  | unrecorded ho =>
    refine (h.addIndex hs ho).of_same rfl rfl ?_
    rw [replay_of_events (s := (s.stored w block).addIndex _) [.txnBegin] rfl]
    rfl
  | kept ho worse => exact (h.addIndex hs ho).entered hs.closed
  | @switched n ho better =>
    have hoff := (h.addIndex hs ho).entered (P := P) hs.closed
    have hwf := hs.offered ho
    have hclose : ∀ {s₁ : NodeState}, TipAgrees s₁ → TipAgrees s₁.close :=
      fun h ↦ h.of_same rfl rfl rfl
    have hprev : n.pprev = (s.offered P w block n).mapBlockIndex block.hashPrevBlock := by
      obtain ⟨p, hp, hindex⟩ := ho.parent
      have hne : block.hashPrevBlock ≠ n.getBlockHash := by
        intro heq
        rw [heq, ho.new] at hindex
        cases hindex
      exact hp.trans (hindex.symm.trans (Function.update_of_ne hne _ _).symm)
    rcases setBestChain_ok_or_rejected w block n hwf with
      ⟨s₁, hx⟩ | ⟨nDoS, msg, s₁, hx⟩
    · rw [hx]
      exact hclose (hoff.setBestChain_ok hwf (Wf.getBlockHash_offered ho) hprev (hpost n ho) hx)
    · rw [hx]
      exact hclose (hoff.setBestChain_rejected hwf hx)

/-- An extension postpones nothing. -/
theorem postponedConnect_of_extension {block : CBlock} (hs : s.Wf P) (ho : Offered P w s block n)
    (hext : block.hashPrevBlock = s.hashBestChain) :
    PostponedConnect P w (s.offered P w block n) n := by
  intro b hb s₁ _
  obtain ⟨p, hp, hindex⟩ := ho.parent
  obtain ⟨b', hb', hbest, -⟩ := hs.tip
  cases hb'.symm.trans hb
  rw [hext, hbest] at hindex
  cases hindex
  rw [postpone_of_pprev hp]
  trivial

theorem tipAgrees_started {genesis : CBlock} {e : CBlockEntry} (hash : e.hash = P.hashGenesisBlock) :
    TipAgrees (started P w genesis (.root e)) := by
  refine ⟨.root e, .root e, rfl, rfl, hash.symm, rfl, rfl, le_rfl, ?_, ?_, ?_⟩
  · rw [show CBlockIndex.getBlockHash (.root e) = P.hashGenesisBlock from hash,
      show (started P w genesis (.root e)).txdb.pdb = ((init.offered P w genesis
        (.root e)).begin_.record (.put .hashBestChain P.hashGenesisBlock)).txdb.view from rfl,
      view_record (open_begin _)]
    exact Function.update_self _ _ _
  · rw [Chain.Node.above_self (.root e : CBlockIndex)]
    rfl
  · intro m hm p hp
    rw [Chain.Node.le_root.mp hm] at hp
    cases hp

end

/-- **Memory and database agree in every state of a run in which no postponed block fails.** -/
theorem Run.tipAgrees {P : Params} {genesis : CBlock} {past : List NodeState} {s : NodeState}
    (h : Run P genesis (fun _ s w i ↦ ∀ block n, i = .block block → Offered P w s block n →
      PostponedConnect P w (s.offered P w block n) n) past s) : TipAgrees s := by
  induction h with
  | start hash vtx h best =>
    obtain ⟨e, rfl, hhash, -⟩ := addGenesis_eq_ok hash h best
    exact tipAgrees_started hhash
  | @step past s hrun w i good ih =>
    cases i with
    | block block =>
      exact ih.outcome hrun.wf (fun n ho ↦ good block n rfl ho)
        (acceptBlock_outcome hrun.wf.closed block)
    | tx tx fLimitFree =>
      rcases step_tx P w s tx fLimitFree with hx | ⟨-, hx⟩
      · rw [hx]
        exact ih
      · rw [hx]
        refine ih.of_same rfl rfl ?_
        rw [replay_of_events (s := s) [.syncWithWallets tx none true] rfl]
        rfl

namespace Sample

/-- The blocks that the switch to an offered block connects after it has reorganized. -/
def postponed (w : World) (s : NodeState) (block : CBlock) : Option (List CBlockIndex) :=
  (do
    let hashProof ← checkAccept params w s block
    let n ← newBlockIndex params (s.stored w block) block w.nFile
      (s.files.writeToDisk w.nFile block).2 hashProof
    match (s.offered params w block n).pindexBest with
    | none => .ok []
    | some b =>
      match reorganize params w (postpone b.nChainTrust n).1 (s.offered params w block n).begin_ with
      | .error _ _ => .ok []
      | .ok () s₁ =>
        if AllConnect params w (postpone b.nChainTrust n).2.reverse s₁ then
          .ok (postpone b.nChainTrust n).2
        else reject 0 "").toOption

theorem postponedConnect_of_postponed {w : World} {s : NodeState} {block : CBlock}
    (h : (postponed w s block).isSome) (n : CBlockIndex) (ho : Offered params w s block n) :
    PostponedConnect params w (s.offered params w block n) n := by
  obtain ⟨hashProof, hcheck, hn⟩ := ho.accept
  intro b hb s₁ hs₁
  obtain ⟨l, hl⟩ := Option.isSome_iff_exists.1 h
  simp only [postponed, hcheck, hn, Option.mem_def.1 hb, hs₁, bind, Except.bind] at hl
  split_ifs at hl with hall
  · exact hall
  · cases hl

/-- The first block, and another branch: a block at the same height, one on top of it whose batch is
not committed, and one on top of that. -/
def branching : List (World × CBlock) :=
  let other := block 1 1 0 1 []
  let second := block 2 (params.blockHash other.toCBlockHeader) 0 1 []
  [(world, block 1 1 0 0 []), (world, other), ({ world with commitOk := fun _ ↦ false }, second),
    (world, block 3 (params.blockHash second.toCBlockHeader) 0 1 [])]

/-- Blocks come in one after another. -/
def arrive (s : NodeState) (blocks : List (World × CBlock)) : NodeState :=
  blocks.foldl (fun s x ↦ s.step params x.1 (.block x.2)) s

/-- All that they postpone is connected. -/
def arriveWell : NodeState → List (World × CBlock) → Bool
  | _, [] => true
  | s, (w, block) :: blocks =>
    (postponed w s block).isSome && arriveWell (s.step params w (.block block)) blocks

theorem run_arrive (blocks : List (World × CBlock)) : ∀ {past : List NodeState} {s : NodeState},
    Run params genesis (fun _ s w i ↦ ∀ block n, i = .block block → Offered params w s block n →
      PostponedConnect params w (s.offered params w block n) n) past s → arriveWell s blocks = true →
        ∃ past', Run params genesis (fun _ s w i ↦ ∀ block n, i = .block block →
          Offered params w s block n → PostponedConnect params w (s.offered params w block n) n)
            past' (arrive s blocks) := by
  induction blocks with
  | nil => exact fun {past s} h _ ↦ ⟨past, h⟩
  | cons x blocks ih =>
    obtain ⟨w, block⟩ := x
    intro past s h hwell
    rw [arriveWell, Bool.and_eq_true] at hwell
    refine ih (.step h w (.block block) ?_) hwell.2
    rintro _ n ⟨⟩ ho
    exact postponedConnect_of_postponed hwell.1 n ho

end Sample

/-- The last block of the other branch is postponed: the node first reorganizes to the one below it. -/
theorem Run.tipAgrees_sample :
    (Sample.postponed Sample.world (Sample.arrive Sample.start (Sample.branching.take 3))
        (Sample.block 3 240002 0 1 [])).map List.length = some 1 ∧
      (Sample.arrive Sample.start Sample.branching).hashBestChain = 360002 ∧
      TipAgrees (Sample.arrive Sample.start Sample.branching) := by
  obtain ⟨past, hrun⟩ := Sample.run_arrive Sample.branching (Sample.run_start _) (by decide +kernel)
  exact ⟨by decide +kernel, by decide +kernel, Run.tipAgrees hrun⟩

/-- A first block whose batch is not committed stays in the index.  A second one on top of it, with
a coinbase that pays too much, is then postponed and refused; the call returns true, and names it
the best block. -/
theorem not_tipAgrees_of_refused_postponed :
    let s₁ := Sample.start.step Sample.params { Sample.world with commitOk := fun _ ↦ false }
      (.block (Sample.block 1 1 0 0 []))
    let block := Sample.block 2 120001 (6 * 10 ^ 15) 0 []
    Reachable Sample.params Sample.genesis (s₁.step Sample.params Sample.world (.block block)) ∧
      Exec.error? (acceptBlock Sample.params Sample.world block s₁) = none ∧
      ¬ TipAgrees (s₁.step Sample.params Sample.world (.block block)) := by
  intro s₁ block
  refine ⟨⟨_, .step (.step (Sample.run_start _) _ _ trivial) _ _ trivial⟩, by decide +kernel, ?_⟩
  rintro ⟨g, b, -, -, hhash, -, -, h⟩
  have hdiffer : (s₁.step Sample.params Sample.world (.block block)).txdb.pdb .hashBestChain ≠
      some (s₁.step Sample.params Sample.world (.block block)).hashBestChain := by decide +kernel
  exact hdiffer (h.hash.trans (congrArg some hhash.symm))

end Bws
