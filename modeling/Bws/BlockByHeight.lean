import Bws.Agree

/-!
# Finding a block by its height

`FindBlockByHeight` walks from the genesis block, from the best block, or from where the last call
ended, whichever looks closest, down by `pprev` and then up by `pnext`.  A new best block makes it
forget where the last call ended.

While the links lead up to the best block, it finds the block of the best chain whatever calls came
before (`Queried.findsBlocks`).  After a switch one of whose postponed blocks has failed they do not,
and a walk up can come to their end (`not_findsBlocks_of_refused_postponed`).
-/

namespace Bws

open Chain (Node)
open NodeState

/-! ## FindBlockByHeight -/

/-- `while (pblockindex->nHeight > nHeight) pblockindex = pblockindex->pprev;` -/
def walkDown (nHeight : ℤ) : CBlockIndex → Except Fault CBlockIndex
  | .root e => if nHeight < 0 then .error (.thrown "pblockindex->nHeight") else .ok (.root e)
  | .child e p =>
    if nHeight < CBlockIndex.nHeight (.child e p) then walkDown nHeight p else .ok (.child e p)

/-- `while (pblockindex->nHeight < nHeight) pblockindex = pblockindex->pnext;`, at most `fuel` times. -/
def walkUp (pnext : CBlockIndex → Option CBlockIndex) (nHeight : ℤ) :
    ℕ → CBlockIndex → Except Fault CBlockIndex
  | 0, pblockindex =>
    if pblockindex.nHeight < nHeight then .error (.thrown "FindBlockByHeight() : not at its end")
    else .ok pblockindex
  | fuel + 1, pblockindex =>
    if pblockindex.nHeight < nHeight then
      match pnext pblockindex with
      | none => .error (.thrown "pblockindex->nHeight")
      | some p => walkUp pnext nHeight fuel p
    else .ok pblockindex

namespace NodeState

/-- The block that `FindBlockByHeight` starts from. -/
def closestTo (s : NodeState) (nHeight : ℤ) : Except Fault CBlockIndex :=
  match if nHeight < s.nBestHeight.tdiv 2 then s.pindexGenesisBlock else s.pindexBest with
  | none => .error (.thrown "pblockindex->nHeight")
  | some pblockindex =>
    match s.pblockindexFBBHLast with
    | none => .ok pblockindex
    | some last =>
      if |nHeight - last.nHeight| < |nHeight - pblockindex.nHeight| then .ok last
      else .ok pblockindex

/-- `FindBlockByHeight`, with the node after it.  No walk up the best chain takes more steps than the
height that it ends at. -/
def findBlockByHeight (s : NodeState) (nHeight : ℤ) : Except Fault (CBlockIndex × NodeState) := do
  let pblockindex ← s.closestTo nHeight
  let pblockindex ← walkDown nHeight pblockindex
  let pblockindex ← walkUp s.pnext nHeight nHeight.toNat pblockindex
  .ok (pblockindex, { s with pblockindexFBBHLast := some pblockindex })

/-- For every height of the best chain `FindBlockByHeight` returns the block of that height. -/
def FindsBlocks (s : NodeState) : Prop :=
  ∀ nHeight : ℤ, 0 ≤ nHeight → nHeight ≤ s.nBestHeight →
    ∃ b ∈ s.pindexBest, ∃ m s', s.findBlockByHeight nHeight = .ok (m, s') ∧ m ≤ b ∧
      (m.nHeight : ℤ) = nHeight

end NodeState

/-! ## Walks -/

section

variable {s : NodeState} {b : CBlockIndex}

theorem walkDown_eq_ok (nHeight : ℕ) : ∀ p : CBlockIndex, ∃ q ≤ p,
    walkDown nHeight p = .ok q ∧ q.nHeight ≤ nHeight
  | .root e => ⟨.root e, le_rfl, if_neg (by omega), Nat.zero_le _⟩
  | .child e p => by
    rw [walkDown]
    split_ifs with hlt
    · obtain ⟨q, hq, hx, hheight⟩ := walkDown_eq_ok nHeight p
      exact ⟨q, hq.trans (Node.parent_lt e p).le, hx, hheight⟩
    · exact ⟨.child e p, le_rfl, rfl, by omega⟩

/-- Up the links of the best chain a walk comes to every height. -/
theorem walkUp_eq_ok (h : LinkedTo s b) (nHeight : ℕ) (hb : nHeight ≤ b.nHeight) {fuel : ℕ} :
    ∀ {p : CBlockIndex}, p ≤ b → p.nHeight ≤ nHeight → nHeight ≤ p.nHeight + fuel →
      ∃ q ≤ b, walkUp s.pnext nHeight fuel p = .ok q ∧ q.nHeight = nHeight := by
  induction fuel with
  | zero =>
    intro p hp hle hfuel
    exact ⟨p, hp, by rw [walkUp, if_neg (by omega)], by omega⟩
  | succ fuel ih =>
    intro p hp hle hfuel
    rcases hle.eq_or_lt with heq | hlt
    · exact ⟨p, hp, by rw [walkUp, if_neg (by omega)], heq⟩
    · have hne : p < b := lt_of_le_of_ne hp fun heq ↦ by subst heq; omega
      obtain ⟨(m : CBlockIndex), hm, hparent⟩ := Node.exists_parent?_eq hne
      have hheight : m.nHeight = p.nHeight + 1 := by
        rw [Node.eq_child_of_parent? hparent]
        rfl
      obtain ⟨q, hq, hx, hqh⟩ := ih hm (by omega) (by omega)
      refine ⟨q, hq, ?_, hqh⟩
      rw [walkUp, if_pos (by omega), h m hm p hparent]
      exact hx

end

/-! ## The cached block -/

/-- The cached block is on the best chain. -/
def CacheOnChain (s : NodeState) : Prop :=
  ∀ m ∈ s.pblockindexFBBHLast, ∃ b ∈ s.pindexBest, m ≤ b

/-- Where the links lead up to the best block and the cached block is on the best chain, so is every
start, and so is the end. -/
theorem findBlockByHeight_eq_ok {s : NodeState} (h : TipAgrees s) (hcache : CacheOnChain s)
    {nHeight : ℕ} (hle : (nHeight : ℤ) ≤ s.nBestHeight) :
    ∃ b ∈ s.pindexBest, ∃ m ≤ b, m.nHeight = nHeight ∧
      s.findBlockByHeight nHeight = .ok (m, { s with pblockindexFBBHLast := some m }) := by
  obtain ⟨g, b, hg, hb, -, hheight, -, hagree⟩ := h
  have hstart : ∃ p ≤ b, s.closestTo nHeight = .ok p := by
    obtain ⟨p, hp, hpb⟩ : ∃ p, (if (nHeight : ℤ) < s.nBestHeight.tdiv 2 then s.pindexGenesisBlock
        else s.pindexBest) = some p ∧ p ≤ b := by
      split_ifs
      exacts [⟨g, hg, hagree.genesis⟩, ⟨b, hb, le_rfl⟩]
    rw [closestTo, hp]
    rcases hlast : s.pblockindexFBBHLast with _ | last
    · exact ⟨p, hpb, rfl⟩
    · obtain ⟨b', hb', hlastb⟩ := hcache last hlast
      obtain rfl := Option.some.inj (hb.symm.trans hb')
      dsimp only
      split_ifs
      exacts [⟨last, hlastb, rfl⟩, ⟨p, hpb, rfl⟩]
  obtain ⟨p, hpb, hclosest⟩ := hstart
  obtain ⟨q, hq, hdown, hqh⟩ := walkDown_eq_ok nHeight p
  obtain ⟨m, hm, hup, hmh⟩ := walkUp_eq_ok hagree.links nHeight (by omega) (hq.trans hpb) hqh
    (Nat.le_add_left nHeight _)
  refine ⟨b, hb, m, hm, hmh, ?_⟩
  simp only [findBlockByHeight, bind_eq_ok]
  exact ⟨p, hclosest, q, hdown, m, by rwa [Int.toNat_natCast], rfl⟩

theorem findsBlocks_of_tipAgrees {s : NodeState} (h : TipAgrees s) (hcache : CacheOnChain s) :
    s.FindsBlocks := by
  intro nHeight hnonneg hle
  obtain ⟨n, rfl⟩ := Int.eq_ofNat_of_zero_le hnonneg
  obtain ⟨b, hb, m, hm, hheight, hfind⟩ := findBlockByHeight_eq_ok h hcache hle
  exact ⟨b, hb, m, _, hfind, hm, congrArg Nat.cast hheight⟩

section

variable {P : Params} {w : World} {s s' : NodeState}

theorem CacheOnChain.of_same (h : CacheOnChain s)
    (hlast : s'.pblockindexFBBHLast = s.pblockindexFBBHLast) (hbest : s'.pindexBest = s.pindexBest) :
    CacheOnChain s' := by
  intro m hm
  rw [hlast] at hm
  rw [hbest]
  exact h m hm

/-- A new best block empties the cache; a switch that returns false leaves it and the best chain. -/
theorem CacheOnChain.setBestChain (h : CacheOnChain s) (hs : s.Wf P) (block : CBlock)
    (n : CBlockIndex) : CacheOnChain (Exec.final (setBestChain P w block n s)) := by
  rcases setBestChain_ok_or_rejected w block n hs with ⟨s₁, hx⟩ | ⟨nDoS, msg, s₁, hx⟩
  · rw [hx]
    rw [setBestChain_eq P w hs.closed] at hx
    split at hx
    · cases hx
      exact nofun
    · cases hx
  · have hr : RolledBack (fun _ ↦ True) s s₁ :=
      setBestChain_rejected (fun _ _ _ _ _ ↦ trivial) (fun _ ↦ trivial) hx
    rw [hx]
    exact h.of_same hr.pblockindexFBBHLast hr.pindexBest

theorem CacheOnChain.outcome {block : CBlock} (h : CacheOnChain s) (hs : s.Wf P)
    (ho : Outcome P w s block s') : CacheOnChain s' := by
  cases ho with
  | refused => exact h
  | unmodified | unrecorded | kept => exact h.of_same rfl rfl
  | @switched n ho better =>
    have hoff : CacheOnChain (s.offered P w block n) := h.of_same rfl rfl
    exact (hoff.setBestChain (w := w) (hs.offered ho) block n).of_same rfl rfl

end

/-! ## Runs with calls in between -/

/-- The states of a node between inputs and calls of `FindBlockByHeight`, each with a height of the
best chain.  `Good` is asked of each input. -/
inductive Queried (P : Params) (genesis : CBlock) (Good : NodeState → World → Input → Prop) :
    NodeState → Prop
  | start {s : NodeState} (h : Run P genesis (fun _ ↦ Good) [] s) : Queried P genesis Good s
  | step {s : NodeState} (h : Queried P genesis Good s) (w : World) (i : Input)
      (good : Good s w i) : Queried P genesis Good (s.step P w i)
  | find {s s' : NodeState} {m : CBlockIndex} (h : Queried P genesis Good s) (nHeight : ℤ)
      (hnonneg : 0 ≤ nHeight) (hle : nHeight ≤ s.nBestHeight)
      (hfind : s.findBlockByHeight nHeight = .ok (m, s')) : Queried P genesis Good s'

/-- No postponed block fails, whatever block the input is. -/
def PostponesWell (P : Params) (s : NodeState) (w : World) (i : Input) : Prop :=
  ∀ block n, i = .block block → Offered P w s block n →
    PostponedConnect P w (s.offered P w block n) n

theorem NodeState.Wf.withLast {P : Params} {s : NodeState} (h : s.Wf P) (m : CBlockIndex) :
    ({ s with pblockindexFBBHLast := some m } : NodeState).Wf P where
  closed := h.closed
  key := h.key
  ancestor := h.ancestor
  genesis := h.genesis
  tip := h.tip
  disk := h.disk

theorem Queried.agrees {P : Params} {genesis : CBlock} {s : NodeState}
    (h : Queried P genesis (PostponesWell P) s) : s.Wf P ∧ TipAgrees s ∧ CacheOnChain s := by
  induction h with
  | start h =>
    have hwf := h.wf
    cases h with
    | start hash vtx h best =>
      obtain ⟨e, rfl, hhash, -⟩ := addGenesis_eq_ok hash h best
      exact ⟨hwf, tipAgrees_started hhash, nofun⟩
  | @step s _ w i good ih =>
    obtain ⟨hwf, hagrees, hcache⟩ := ih
    refine ⟨hwf.step w i, ?_⟩
    cases i with
    | block block =>
      have ho := acceptBlock_outcome (P := P) (w := w) hwf.closed block
      exact ⟨hagrees.outcome hwf (fun n hn ↦ good block n rfl hn) ho, hcache.outcome hwf ho⟩
    | tx tx fLimitFree =>
      rcases step_tx P w s tx fLimitFree with hx | ⟨-, hx⟩
      · rw [hx]
        exact ⟨hagrees, hcache⟩
      · rw [hx]
        refine ⟨hagrees.of_same rfl rfl ?_, hcache.of_same rfl rfl⟩
        rw [replay_of_events (s := s) [.syncWithWallets tx none true] rfl]
        rfl
  | find _ nHeight hnonneg hle hfind ih =>
    obtain ⟨hwf, hagrees, hcache⟩ := ih
    obtain ⟨n, rfl⟩ := Int.eq_ofNat_of_zero_le hnonneg
    obtain ⟨b, hb, m, hm, -, hx⟩ := findBlockByHeight_eq_ok hagrees hcache hle
    obtain ⟨-, rfl⟩ := Prod.ext_iff.1 (Except.ok.inj (hfind.symm.trans hx))
    refine ⟨hwf.withLast m, hagrees.of_same rfl rfl rfl, fun m' hm' ↦ ?_⟩
    obtain rfl := Option.some.inj hm'
    exact ⟨b, hb, hm⟩

/-- **`FindBlockByHeight` finds the blocks of the best chain in every state of a run in which no
postponed block fails**, whatever calls came before. -/
theorem Queried.findsBlocks {P : Params} {genesis : CBlock} {s : NodeState}
    (h : Queried P genesis (PostponesWell P) s) : s.FindsBlocks :=
  findsBlocks_of_tipAgrees h.agrees.2.1 h.agrees.2.2

/-- The node after a call, whatever became of it. -/
def NodeState.afterFind (s : NodeState) (nHeight : ℤ) : NodeState :=
  match s.findBlockByHeight nHeight with
  | .ok (_, s') => s'
  | .error _ => s

theorem Queried.afterFind {P : Params} {genesis : CBlock} {Good : NodeState → World → Input → Prop}
    {s : NodeState} (h : Queried P genesis Good s) {nHeight : ℤ} (hnonneg : 0 ≤ nHeight)
    (hle : nHeight ≤ s.nBestHeight) : Queried P genesis Good (s.afterFind nHeight) := by
  unfold NodeState.afterFind
  split
  · rename_i m s' hfind
    exact h.find nHeight hnonneg hle hfind
  · exact h

/-- The first block on top of the genesis block, after a call that has found the genesis block. -/
theorem Queried.findsBlocks_sample :
    ((Sample.start.afterFind 0).step Sample.params Sample.world
      (.block (Sample.block 1 1 0 0 []))).FindsBlocks := by
  have h : Queried Sample.params Sample.genesis (PostponesWell Sample.params)
      (Sample.start.afterFind 0) :=
    (Queried.start (Sample.run_start _)).afterFind le_rfl (by decide +kernel)
  refine Queried.findsBlocks (h.step Sample.world (.block (Sample.block 1 1 0 0 [])) ?_)
  rintro block n ⟨⟩ ho
  exact postponedConnect_of_extension h.agrees.1 ho (by decide +kernel)

namespace Sample

/-- Four blocks.  The commit of the first fails when it comes in; it is made up for when the second
comes in, which pays too much and is refused, and is named the best block all the same. -/
def inputs : List (World × CBlock) :=
  [({ world with commitOk := fun _ ↦ false }, block 1 1 0 0 []),
    (world, block 2 120001 (6 * 10 ^ 15) 0 []),
    (world, block 3 240001 0 0 []),
    (world, block 4 360001 0 0 [])]

def afterRefusal : NodeState :=
  inputs.foldl (fun s i ↦ s.step params i.1 (.block i.2)) start

theorem queried_foldl {l : List (World × CBlock)} :
    ∀ {s : NodeState}, Queried params genesis (fun _ _ _ ↦ True) s →
      Queried params genesis (fun _ _ _ ↦ True)
        (l.foldl (fun s i ↦ s.step params i.1 (.block i.2)) s) := by
  induction l with
  | nil => exact fun h ↦ h
  | cons i l ih => exact fun h ↦ ih (h.step i.1 (.block i.2) trivial)

end Sample

/-- After a call for height 1, a call for height 2 starts from the first block, which is closer than the
best one at height 4, and whose `pnext` is null. -/
theorem not_findsBlocks_of_refused_postponed :
    Queried Sample.params Sample.genesis (fun _ _ _ ↦ True) (Sample.afterRefusal.afterFind 1) ∧
      ¬ (Sample.afterRefusal.afterFind 1).FindsBlocks := by
  constructor
  · exact (Sample.queried_foldl (.start (Sample.run_start _))).afterFind zero_le_one
      (by decide +kernel)
  · intro h
    obtain ⟨_, -, m, s', hfind, -⟩ := h 2 (by decide) (by decide +kernel)
    have hnull : ((Sample.afterRefusal.afterFind 1).findBlockByHeight 2).isOk = false := by
      decide +kernel
    rw [hfind] at hnull
    cases hnull

end Bws
