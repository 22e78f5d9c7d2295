import Bws.Balance

/-!
# Block locators

`CBlockLocator::Set` lists a block and ancestors of it, the first eleven steps back by one block and
each further step twice as far as the one before; `GetBlockIndex` takes the first of the list that
is in the main chain.  From a node with another best chain, it finds a block that both have, and
misses no more of what they have in common than the listed block is ahead of it
(`getBlockIndex_set`).
-/

namespace Bws

open Chain (Node)

/-! ## The locator -/

/-- `for (int i = 0; pindex && i < nStep; i++) pindex = pindex->pprev;` -/
def stepBack : ℕ → Option CBlockIndex → Option CBlockIndex
  | 0, pindex => pindex
  | _ + 1, none => none
  | nStep + 1, some pindex => stepBack nStep pindex.pprev

/-- The loop of `CBlockLocator::Set`, and `none` if it is not at its end after `fuel` rounds.  `nStep`
is an `int` in the source; heights are, too, so that no step is taken with a larger one. -/
def CBlockLocator.setFrom : ℕ → List UInt256 → ℕ → Option CBlockIndex → Option (List UInt256)
  | _, vHave, _, none => some vHave
  | 0, _, _, some _ => none
  | fuel + 1, vHave, nStep, some pindex =>
    let vHave := vHave ++ [pindex.getBlockHash]
    setFrom fuel vHave (if 10 < vHave.length then nStep * 2 else nStep)
      (stepBack nStep (some pindex))

/-- `CBlockLocator::Set`: every round goes back by a block at least. -/
def CBlockLocator.set (P : Params) (pindex : CBlockIndex) : Option (List UInt256) :=
  (setFrom (pindex.nHeight + 1) [] 1 (some pindex)).map (· ++ [P.hashGenesisBlock])

/-- The loop of `CBlockLocator::GetBlockIndex`. -/
def NodeState.findInMainChain (s : NodeState) : List UInt256 → Option CBlockIndex
  | [] => s.pindexGenesisBlock
  | hash :: vHave =>
    match s.mapBlockIndex hash with
    | none => s.findInMainChain vHave
    | some pindex => if s.isInMainChain pindex then some pindex else s.findInMainChain vHave

/-- `CBlockLocator::GetBlockIndex` -/
def NodeState.getBlockIndex (s : NodeState) (vHave : List UInt256) : Option CBlockIndex :=
  s.findInMainChain vHave

/-- A block tree over the genesis block `g`, in which `pnext` links the chain up to the best block `b`
and nothing else. -/
structure BlockTree (P : Params) (s : NodeState) (g b : CBlockIndex) : Prop where
  key : ∀ {hash n}, s.mapBlockIndex hash = some n → n.getBlockHash = hash
  ancestor : ∀ {hash n m}, s.mapBlockIndex hash = some n → m ≤ n →
    s.mapBlockIndex m.getBlockHash = some m
  genesis : ∀ {hash n}, s.mapBlockIndex hash = some n → g ≤ n
  genesis_hash : g.getBlockHash = P.hashGenesisBlock
  pindexGenesisBlock : s.pindexGenesisBlock = some g
  pindexBest : s.pindexBest = some b
  best : s.mapBlockIndex b.getBlockHash = some b
  pnext : ∀ {n m}, s.pnext n = some m ↔ m ≤ b ∧ m.pprev = some n

section

variable {P : Params} {s : NodeState} {g b p f : CBlockIndex}

/-! ## Steps back -/

theorem stepBack_none (nStep : ℕ) : stepBack nStep none = none := by
  cases nStep <;> rfl

/-- `nStep` blocks back there is an ancestor, unless the chain ends before. -/
theorem stepBack_some (nStep : ℕ) (p : CBlockIndex) :
    (p.nHeight < nStep ∧ stepBack nStep (some p) = none) ∨
      ∃ q ≤ p, stepBack nStep (some p) = some q ∧ p.nHeight = q.nHeight + nStep := by
  induction nStep generalizing p with
  | zero => exact .inr ⟨p, le_rfl, rfl, rfl⟩
  | succ nStep ih =>
    cases p with
    | root e => exact .inl ⟨Nat.succ_pos _, stepBack_none nStep⟩
    | child e p =>
      rcases ih p with ⟨hlt, hnone⟩ | ⟨q, hq, hsome, hheight⟩
      · exact .inl ⟨Nat.succ_lt_succ hlt, hnone⟩
      · exact .inr ⟨q, hq.trans (Node.parent_lt e p).le, hsome, congrArg Nat.succ hheight⟩

/-! ## The schedule -/

/-- How far back the loop is when it has listed `size` blocks and steps by `nStep`: the first eleven
steps go back by one, and from then on it is nine blocks further back than its next step is wide. -/
def Schedule (size nStep nDistance : ℕ) : Prop :=
  (size ≤ 10 ∧ nStep = 1 ∧ nDistance = size) ∨
    (11 ≤ size ∧ 2 ≤ nStep ∧ nDistance = 9 + nStep)

theorem Schedule.next {size nStep nDistance : ℕ} (h : Schedule size nStep nDistance) :
    Schedule (size + 1) (if 10 < size + 1 then nStep * 2 else nStep) (nDistance + nStep) := by
  unfold Schedule at *
  split_ifs <;> omega

theorem Schedule.pos {size nStep nDistance : ℕ} (h : Schedule size nStep nDistance) :
    0 < nStep := by
  unfold Schedule at h
  omega

/-- A step is not wider than the way back so far, or it is by one block. -/
theorem Schedule.le {size nStep nDistance : ℕ} (h : Schedule size nStep nDistance) :
    nStep ≤ nDistance + 1 := by
  unfold Schedule at h
  omega

/-- The loop ends, and lists ancestors. -/
theorem CBlockLocator.setFrom_eq_some (vHave : List UInt256) {fuel : ℕ} (nStep : ℕ)
    {q : CBlockIndex} (hfuel : q.nHeight < fuel) (hpos : 0 < nStep) :
    ∃ l : List CBlockIndex,
      setFrom fuel vHave nStep (some q) = some (vHave ++ (q :: l).map CBlockIndex.getBlockHash) ∧
        ∀ m ∈ l, m ≤ q := by
  induction fuel generalizing nStep q vHave with
  | zero => omega
  | succ fuel ih =>
    rw [setFrom]
    rcases stepBack_some nStep q with ⟨-, hnone⟩ | ⟨q', hq', hsome, hheight⟩
    · refine ⟨[], ?_, by simp⟩
      rw [hnone]
      cases fuel <;> rfl
    · obtain ⟨l, hl, hle⟩ := ih (vHave ++ [q.getBlockHash])
        (if 10 < (vHave ++ [q.getBlockHash]).length then nStep * 2 else nStep) (q := q')
        (by omega) (by split_ifs <;> omega)
      refine ⟨q' :: l, ?_, List.forall_mem_cons.2 ⟨hq', fun m hm ↦ (hle m hm).trans hq'⟩⟩
      rw [hsome]
      simpa using hl

/-- **What the loop finds.**  Of a chain up to `p` that leaves the main chain above `f`, the loop lists
blocks above `f` first.  The first one that is not above it is as far below `f` as `p` is above it at
most; if there is none, that is so of the genesis block. -/
theorem CBlockLocator.setFrom_found (vHave : List UInt256) (fuel : ℕ) {nStep : ℕ}
    {q : CBlockIndex} (hfp : f ≤ p) (hqp : q ≤ p) (hfuel : q.nHeight < fuel)
    (hschedule : Schedule vHave.length nStep (p.nHeight - q.nHeight))
    (hgap : f.nHeight ≤ q.nHeight + (p.nHeight - f.nHeight)) :
    ∃ l : List CBlockIndex,
      setFrom fuel vHave nStep (some q) = some (vHave ++ l.map CBlockIndex.getBlockHash) ∧
      (∀ m ∈ l, m ≤ p) ∧
      ((∃ l₁ m l₂, l = l₁ ++ m :: l₂ ∧ (∀ n ∈ l₁, f < n) ∧ m ≤ f ∧
          f.nHeight ≤ m.nHeight + (p.nHeight - f.nHeight)) ∨
        (∀ n ∈ l, f < n) ∧ f.nHeight ≤ p.nHeight - f.nHeight) := by
  induction fuel generalizing nStep q vHave with
  | zero => omega
  | succ fuel ih =>
    have hpq : q.nHeight ≤ p.nHeight := Node.height_mono hqp
    rcases Node.le_total_of_le hqp hfp with hqf | hfq
    · -- `q` is in the main chain
      obtain ⟨l, hl, hle⟩ := setFrom_eq_some vHave nStep hfuel hschedule.pos
      refine ⟨q :: l, hl, List.forall_mem_cons.2 ⟨hqp, fun m hm ↦ (hle m hm).trans hqp⟩,
        .inl ⟨[], q, l, rfl, by simp, hqf, hgap⟩⟩
    · rcases hfq.eq_or_lt with rfl | hlt
      · obtain ⟨l, hl, hle⟩ := setFrom_eq_some vHave nStep hfuel hschedule.pos
        exact ⟨f :: l, hl, List.forall_mem_cons.2 ⟨hqp, fun m hm ↦ (hle m hm).trans hqp⟩,
          .inl ⟨[], f, l, rfl, by simp, le_rfl, hgap⟩⟩
      · have hheight : f.nHeight < q.nHeight := Node.height_strictMono hlt
        have hpos := hschedule.pos
        have hstep := hschedule.le
        rw [setFrom]
        rcases stepBack_some nStep q with ⟨hend, hnone⟩ | ⟨q', hq', hsome, hback⟩
        · refine ⟨[q], ?_, by simpa using hqp, .inr ⟨by simpa using hlt, by omega⟩⟩
          rw [hnone]
          cases fuel <;> rfl
        · have hnext := hschedule.next
          rw [show p.nHeight - q.nHeight + nStep = p.nHeight - q'.nHeight by omega,
            show vHave.length + 1 = (vHave ++ [q.getBlockHash]).length by simp] at hnext
          obtain ⟨l, hl, hle, hfound⟩ :=
            ih _ (q := q') (hq'.trans hqp) (by omega) hnext (by omega)
          refine ⟨q :: l, ?_, List.forall_mem_cons.2 ⟨hqp, hle⟩, ?_⟩
          · rw [hsome]
            simpa using hl
          · rcases hfound with ⟨l₁, m, l₂, rfl, habove, hm⟩ | ⟨habove, hroot⟩
            · exact .inl ⟨q :: l₁, m, l₂, rfl, List.forall_mem_cons.2 ⟨hlt, habove⟩, hm⟩
            · exact .inr ⟨List.forall_mem_cons.2 ⟨hlt, habove⟩, hroot⟩

/-! ## The block that is found -/

theorem BlockTree.isInMainChain_iff (h : BlockTree P s g b) {n : CBlockIndex} :
    s.isInMainChain n ↔ n ≤ b := by
  unfold NodeState.isInMainChain
  rw [h.pindexBest, Option.isSome_iff_exists]
  constructor
  · rintro (⟨m, hm⟩ | hb)
    · obtain ⟨hmb, hparent⟩ := h.pnext.1 hm
      exact (Node.parent?_lt hparent).le.trans hmb
    · exact (Option.some.inj hb).ge
  · intro hn
    rcases hn.eq_or_lt with rfl | hlt
    · exact .inr rfl
    · obtain ⟨m, hm, hparent⟩ := Node.exists_parent?_eq hlt
      exact .inl ⟨m, h.pnext.2 ⟨hm, hparent⟩⟩

/-- Blocks off the main chain are passed over. -/
theorem BlockTree.findInMainChain_append (h : BlockTree P s g b) {l : List CBlockIndex}
    (hindex : ∀ n ∈ l, s.mapBlockIndex n.getBlockHash = some n) (hoff : ∀ n ∈ l, ¬ n ≤ b)
    (vHave : List UInt256) :
    s.findInMainChain (l.map CBlockIndex.getBlockHash ++ vHave) = s.findInMainChain vHave := by
  induction l with
  | nil => rfl
  | cons n l ih =>
    rw [List.forall_mem_cons] at hindex hoff
    rw [List.map_cons, List.cons_append, NodeState.findInMainChain, hindex.1]
    dsimp only
    rw [if_neg (mt h.isInMainChain_iff.1 hoff.1), ih hindex.2 hoff.2]

theorem BlockTree.findInMainChain_cons (h : BlockTree P s g b) {m : CBlockIndex}
    (hindex : s.mapBlockIndex m.getBlockHash = some m) (hm : m ≤ b) (vHave : List UInt256) :
    s.findInMainChain (m.getBlockHash :: vHave) = some m := by
  rw [NodeState.findInMainChain, hindex]
  exact if_pos (h.isInMainChain_iff.2 hm)

/-- **What a locator finds.**  The locator of any block of the tree ends, with the genesis block.  The
block found is the first listed one of the main chain, and an ancestor of the block; it is as far
below the fork as the block is above it, plus ten, at most. -/
theorem getBlockIndex_set (h : BlockTree P s g b) (hp : s.mapBlockIndex p.getBlockHash = some p) :
    ∃ (vHave : List UInt256) (m f : CBlockIndex), CBlockLocator.set P p = some vHave ∧
      vHave.getLast? = some P.hashGenesisBlock ∧ s.getBlockIndex vHave = some m ∧ m ≤ b ∧ m ≤ p ∧
      (∃ l₁ l₂, vHave = l₁ ++ m.getBlockHash :: l₂ ∧
        ∀ hash ∈ l₁, ∀ n, s.mapBlockIndex hash = some n → ¬ n ≤ b) ∧
      Node.findFork b p = some f ∧
      f.nHeight - m.nHeight ≤ (p.nHeight - f.nHeight) + 10 := by
  obtain ⟨(f : CBlockIndex), hf⟩ := Option.isSome_iff_exists.1
    (Node.findFork_isSome (h.genesis h.best) (h.genesis hp))
  obtain ⟨hfb, hfp, hmax⟩ := Node.findFork_spec hf
  have hheight : f.nHeight ≤ p.nHeight := Node.height_mono hfp
  obtain ⟨l, hl, hle, hfound⟩ := CBlockLocator.setFrom_found [] (p.nHeight + 1) hfp
    le_rfl (Nat.lt_succ_self _) (.inl ⟨by simp, rfl, by simp⟩) (by omega)
  have hset : CBlockLocator.set P p =
      some (l.map CBlockIndex.getBlockHash ++ [P.hashGenesisBlock]) := by
    rw [CBlockLocator.set, hl]
    rfl
  -- the blocks above the fork are off the main chain
  have hoff : ∀ {l' : List CBlockIndex}, (∀ n ∈ l', n ≤ p) → (∀ n ∈ l', f < n) →
      ∀ n ∈ l', ¬ n ≤ b :=
    fun hle habove n hn hnb ↦ absurd (hmax n hnb (hle n hn)) (not_le_of_gt (habove n hn))
  have hhash : ∀ {l' : List CBlockIndex}, (∀ n ∈ l', n ≤ p) → (∀ n ∈ l', f < n) →
      ∀ hash ∈ l'.map CBlockIndex.getBlockHash, ∀ n, s.mapBlockIndex hash = some n → ¬ n ≤ b := by
    intro l' hle habove hash hmem n hn
    obtain ⟨n', hn', rfl⟩ := List.mem_map.1 hmem
    obtain rfl := Option.some.inj ((h.ancestor hp (hle n' hn')).symm.trans hn)
    exact hoff hle habove n' hn'
  rcases hfound with ⟨l₁, m, l₂, rfl, habove, hmf, hgap⟩ | ⟨habove, hgap⟩
  · obtain ⟨hle₁, hmp, -⟩ : (∀ n ∈ l₁, n ≤ p) ∧ m ≤ p ∧ ∀ n ∈ l₂, n ≤ p := by
      rw [List.forall_mem_append, List.forall_mem_cons] at hle
      exact hle
    refine ⟨_, m, f, hset, List.getLast?_concat .., ?_, hmf.trans hfb, hmp, ⟨l₁.map CBlockIndex.getBlockHash,
      l₂.map CBlockIndex.getBlockHash ++ [P.hashGenesisBlock], by simp, hhash hle₁ habove⟩, hf,
      by omega⟩
    rw [NodeState.getBlockIndex, List.map_append, List.append_assoc,
      h.findInMainChain_append (fun n hn ↦ h.ancestor hp (hle₁ n hn)) (hoff hle₁ habove),
      List.map_cons, List.cons_append, h.findInMainChain_cons (h.ancestor hp hmp) (hmf.trans hfb)]
  · have hg := h.genesis hp
    have hgb := h.genesis h.best
    refine ⟨_, g, f, hset, List.getLast?_concat .., ?_, hgb, hg, ⟨l.map CBlockIndex.getBlockHash, [],
      by rw [h.genesis_hash], hhash hle habove⟩, hf, by omega⟩
    rw [NodeState.getBlockIndex, h.findInMainChain_append (fun n hn ↦ h.ancestor hp (hle n hn))
      (hoff hle habove), ← h.genesis_hash, h.findInMainChain_cons (h.ancestor hp hg) hgb]

end

namespace Sample

def treeRoot : CBlockIndex := .root (entryOf 1 0)

def treeBest : CBlockIndex := .child (entryOf 2 0) treeRoot

/-- Another block on top of the genesis block. -/
def treeSide : CBlockIndex := .child (entryOf 3 0) treeRoot

/-- A node with a fork. -/
def forked : NodeState :=
  { NodeState.init with
    mapBlockIndex hash :=
      if hash = 1 then some treeRoot else if hash = 2 then some treeBest
      else if hash = 3 then some treeSide else none
    pnext pindex := if pindex = treeRoot then some treeBest else none
    pindexGenesisBlock := some treeRoot
    pindexBest := some treeBest }

theorem of_forked {hash : UInt256} {n : CBlockIndex} (h : forked.mapBlockIndex hash = some n) :
    hash = 1 ∧ n = treeRoot ∨ hash = 2 ∧ n = treeBest ∨ hash = 3 ∧ n = treeSide := by
  simp only [forked] at h
  split_ifs at h with h₁ h₂ h₃ <;> obtain rfl := Option.some.inj h <;> simp [*]

theorem blockTree_forked : BlockTree params forked treeRoot treeBest where
  key h := by
    rcases of_forked h with ⟨rfl, rfl⟩ | ⟨rfl, rfl⟩ | ⟨rfl, rfl⟩ <;> rfl
  ancestor h hm := by
    rcases of_forked h with ⟨rfl, rfl⟩ | ⟨rfl, rfl⟩ | ⟨rfl, rfl⟩
    · obtain rfl := Node.le_root.1 hm
      rfl
    · rcases Node.le_child.1 hm with rfl | hm
      · rfl
      · obtain rfl := Node.le_root.1 hm
        rfl
    · rcases Node.le_child.1 hm with rfl | hm
      · rfl
      · obtain rfl := Node.le_root.1 hm
        rfl
  genesis h := by
    rcases of_forked h with ⟨rfl, rfl⟩ | ⟨rfl, rfl⟩ | ⟨rfl, rfl⟩ <;> decide
  genesis_hash := rfl
  pindexGenesisBlock := rfl
  pindexBest := rfl
  best := rfl
  pnext {n m} := by
    simp only [forked, Option.ite_none_right_eq_some, Option.some.injEq]
    constructor
    · rintro ⟨rfl, rfl⟩
      exact ⟨le_rfl, rfl⟩
    · rintro ⟨hm, hparent⟩
      rcases Node.le_child.1 hm with rfl | hm
      · exact ⟨(Option.some.inj hparent).symm, rfl⟩
      · obtain rfl := Node.le_root.1 hm
        cases hparent

example : CBlockLocator.set params treeSide = some [3, 1, 1] := by decide

end Sample

theorem getBlockIndex_set_sample : ∃ (vHave : List UInt256) (m : CBlockIndex),
    CBlockLocator.set Sample.params Sample.treeSide = some vHave ∧
      Sample.forked.getBlockIndex vHave = some m ∧ m ≤ Sample.treeBest := by
  obtain ⟨vHave, m, -, hset, -, hfind, hm, -⟩ :=
    getBlockIndex_set (p := Sample.treeSide) Sample.blockTree_forked rfl
  exact ⟨vHave, m, hset, hfind, hm⟩

end Bws
