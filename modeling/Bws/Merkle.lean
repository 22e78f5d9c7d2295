import Bws.Balance
import Bws.Lib.Merkle

/-!
# The Merkle tree of a block

`BuildMerkleTree` keeps all levels of the tree in one array, `vMerkleTree`: each level is appended
while it is computed from the level before, which starts at a moving offset `j`.  `GetMerkleBranch`
walks the same array with the same offsets.  Both are the tree of `Bws.Lib.Merkle`
(`vMerkleTree_eq`, `merkleBranchFrom_eq`), level by level.

A branch leads back to the root (`checkMerkleBranch_merkleBranchFrom`), and where the transactions
of a block are distinct the root determines them (`map_getHash_eq_of_merkleTreeBack`).
-/

namespace Bws

/-! ## The array -/

/-- The inner loop of `BuildMerkleTree`, over the level of `nSize` nodes at `j`. -/
def pushMerkleLevel (hashPair : UInt256 → UInt256 → UInt256) (j nSize : ℕ)
    (vMerkleTree : List UInt256) : List UInt256 :=
  (List.range' 0 ((nSize + 1) / 2) 2).foldl (fun vMerkleTree i ↦
    let i2 := min (i + 1) (nSize - 1)
    vMerkleTree ++ [hashPair (vMerkleTree.getD (j + i) 0) (vMerkleTree.getD (j + i2) 0)])
    vMerkleTree

/-- The outer loop of `BuildMerkleTree`, which a size of one ends. -/
def pushMerkleLevels (hashPair : UInt256 → UInt256 → UInt256) :
    ℕ → ℕ → ℕ → List UInt256 → List UInt256
  | 0, _, _, vMerkleTree => vMerkleTree
  | fuel + 1, j, nSize, vMerkleTree =>
    if nSize ≤ 1 then vMerkleTree
    else pushMerkleLevels hashPair fuel (j + nSize) ((nSize + 1) / 2)
      (pushMerkleLevel hashPair j nSize vMerkleTree)

/-- `vMerkleTree` after `BuildMerkleTree` -/
def CBlock.vMerkleTree (P : Params) (block : CBlock) : List UInt256 :=
  pushMerkleLevels P.hashPair block.vtx.length 0 block.vtx.length (block.vtx.map P.getHash)

/-- What `BuildMerkleTree` returns: `vMerkleTree.empty() ? 0 : vMerkleTree.back()`. -/
def CBlock.merkleTreeBack (P : Params) (block : CBlock) : UInt256 :=
  (block.vMerkleTree P).getLastD 0

/-- The loop of `GetMerkleBranch`. -/
def pushMerkleBranch (vMerkleTree : List UInt256) : ℕ → ℕ → ℕ → ℕ → List UInt256
  | 0, _, _, _ => []
  | fuel + 1, j, nSize, nIndex =>
    if nSize ≤ 1 then []
    else
      let i := min (nIndex ^^^ 1) (nSize - 1)
      vMerkleTree.getD (j + i) 0 ::
        pushMerkleBranch vMerkleTree fuel (j + nSize) ((nSize + 1) / 2) (nIndex / 2)

/-- `GetMerkleBranch` of a block whose array is `vMerkleTree`: it is built if it is empty. -/
def CBlock.merkleBranchFrom (P : Params) (block : CBlock) (vMerkleTree : List UInt256)
    (nIndex : ℕ) : List UInt256 :=
  pushMerkleBranch (if vMerkleTree = [] then block.vMerkleTree P else vMerkleTree)
    block.vtx.length 0 block.vtx.length nIndex

/-! ## The array is the tree -/

section

variable (hashPair : UInt256 → UInt256 → UInt256)

theorem getD_node {pre l rest : List UInt256} {k : ℕ} (hk : k < l.length) :
    (pre ++ l ++ rest).getD (pre.length + k) 0 = l.getD k 0 := by
  rw [List.append_assoc, List.getD_append_right _ _ _ _ (Nat.le_add_right _ _),
    Nat.add_sub_cancel_left, List.getD_append _ _ _ _ hk]

/-- The rounds of the inner loop read the level below only, and push the level above. -/
theorem foldl_pushMerkleLevel (pre l : List UInt256) {m : ℕ} (hm : m ≤ (l.length + 1) / 2) :
    (List.range' 0 m 2).foldl (fun vMerkleTree i ↦
        vMerkleTree ++ [hashPair (vMerkleTree.getD (pre.length + i) 0)
          (vMerkleTree.getD (pre.length + min (i + 1) (l.length - 1)) 0)]) (pre ++ l) =
      pre ++ l ++ (Merkle.level hashPair l).take m := by
  induction m with
  | zero => simp
  | succ m ih =>
    have hleft : 2 * m < l.length := by omega
    have hright : min (2 * m + 1) (l.length - 1) < l.length := by omega
    rw [List.range'_concat, List.foldl_append, ih (by omega), Nat.zero_add, List.foldl_cons,
      List.foldl_nil, getD_node hleft, getD_node hright, List.take_add_one,
      Merkle.getElem?_level, List.getElem?_eq_getElem hleft, List.getElem?_eq_getElem hright,
      List.getD_eq_getElem _ _ hleft, List.getD_eq_getElem _ _ hright, List.append_assoc]
    rfl

theorem pushMerkleLevel_eq (pre l : List UInt256) :
    pushMerkleLevel hashPair pre.length l.length (pre ++ l) =
      pre ++ l ++ Merkle.level hashPair l := by
  have h := foldl_pushMerkleLevel hashPair pre l le_rfl
  rwa [List.take_of_length_le (by simp)] at h

theorem pushMerkleLevels_eq : ∀ {fuel : ℕ} {l : List UInt256} (pre : List UInt256),
    l.length ≤ fuel →
      pushMerkleLevels hashPair fuel pre.length l.length (pre ++ l) =
        pre ++ Merkle.nodes hashPair fuel l
  | 0, [], pre, _ => by simp [pushMerkleLevels, Merkle.nodes]
  | fuel + 1, [], pre, _ => by simp [pushMerkleLevels, Merkle.nodes]
  | fuel + 1, [a], pre, _ => by simp [pushMerkleLevels, Merkle.nodes]
  | fuel + 1, a :: b :: l, pre, hfuel => by
    have h := pushMerkleLevels_eq (pre ++ (a :: b :: l)) (Merkle.length_level_le hashPair hfuel)
    rw [List.length_append, Merkle.length_level] at h
    rw [pushMerkleLevels, if_neg (by simp), pushMerkleLevel_eq, h, List.append_assoc]
    rfl

theorem pushMerkleBranch_eq : ∀ {fuel : ℕ} {l : List UInt256} (pre : List UInt256) (i : ℕ),
    l.length ≤ fuel →
      pushMerkleBranch (pre ++ Merkle.nodes hashPair fuel l) fuel pre.length l.length i =
        Merkle.path hashPair 0 fuel i l
  | 0, [], pre, _, _ => by simp [pushMerkleBranch, Merkle.path]
  | fuel + 1, [], pre, _, _ => by simp [pushMerkleBranch, Merkle.path]
  | fuel + 1, [a], pre, _, _ => by simp [pushMerkleBranch, Merkle.path]
  | fuel + 1, a :: b :: l, pre, i, hfuel => by
    have h := pushMerkleBranch_eq (pre ++ (a :: b :: l)) (i / 2) (Merkle.length_level_le hashPair hfuel)
    rw [List.length_append, Merkle.length_level] at h
    have hnodes : Merkle.nodes hashPair (fuel + 1) (a :: b :: l) =
      (a :: b :: l) ++ Merkle.nodes hashPair fuel (Merkle.level hashPair (a :: b :: l)) := rfl
    have hmin : min (i ^^^ 1) ((a :: b :: l).length - 1) < (a :: b :: l).length := by
      simp only [List.length_cons]
      omega
    rw [pushMerkleBranch, if_neg (by simp), hnodes, ← List.append_assoc]
    dsimp only
    rw [getD_node hmin, h]
    rfl

theorem merkleLevel_eq : ∀ l : List UInt256, merkleLevel hashPair l = Merkle.level hashPair l
  | [] => rfl
  | [_] => rfl
  | _ :: _ :: l => congrArg _ (merkleLevel_eq l)

theorem merkleRoot_eq : ∀ (fuel : ℕ) (l : List UInt256),
    merkleRoot hashPair fuel l = Merkle.root hashPair 0 fuel l
  | _, [] => by simp [merkleRoot, Merkle.root]
  | _, [a] => by simp [merkleRoot, Merkle.root]
  | 0, a :: b :: l => by simp [merkleRoot, Merkle.root]
  | fuel + 1, a :: b :: l => by
    simp only [merkleRoot, Merkle.root, merkleLevel_eq, merkleRoot_eq fuel]

theorem merkleBranch_eq : ∀ (fuel nIndex : ℕ) (l : List UInt256),
    merkleBranch hashPair fuel nIndex l = Merkle.path hashPair 0 fuel nIndex l
  | _, _, [] => by simp [merkleBranch, Merkle.path]
  | _, _, [a] => by simp [merkleBranch, Merkle.path]
  | 0, _, a :: b :: l => by simp [merkleBranch, Merkle.path]
  | fuel + 1, _, a :: b :: l => by
    simp only [merkleBranch, Merkle.path, merkleLevel_eq, merkleBranch_eq fuel]

theorem merkleRootFrom_eq : ∀ (hash : UInt256) (vMerkleBranch : List UInt256) (nIndex : ℕ),
    merkleRootFrom hashPair hash vMerkleBranch nIndex =
      Merkle.climb hashPair hash vMerkleBranch nIndex
  | _, [], _ => rfl
  | hash, otherside :: vMerkleBranch, nIndex => by
    have hodd : (nIndex : ℤ) % 2 = 1 ↔ nIndex % 2 = 1 := by omega
    have hhalf : (nIndex : ℤ) / 2 = (nIndex / 2 : ℕ) := by omega
    simp only [merkleRootFrom, Merkle.climb, hodd, hhalf, merkleRootFrom_eq _ vMerkleBranch]

end

section

variable (P : Params) (block : CBlock)

theorem CBlock.vMerkleTree_eq : block.vMerkleTree P =
    Merkle.nodes P.hashPair block.vtx.length (block.vtx.map P.getHash) := by
  have h := pushMerkleLevels_eq P.hashPair (l := block.vtx.map P.getHash) []
    (List.length_map P.getHash).le
  rwa [List.length_map] at h

/-- Building level by level gives the root that is the last node of the array. -/
theorem CBlock.merkleTreeBack_eq : block.merkleTreeBack P = block.buildMerkleTree P := by
  rw [merkleTreeBack, buildMerkleTree, merkleRoot_eq, vMerkleTree_eq]
  rcases eq_or_ne block.vtx [] with hvtx | hvtx
  · simp [hvtx, Merkle.nodes, Merkle.root]
  · rw [List.getLastD_eq_getLast?, Merkle.getLast?_nodes P.hashPair 0 (by simpa using hvtx)
      (List.length_map P.getHash).le]
    rfl

theorem CBlock.merkleBranchFrom_eq {vMerkleTree : List UInt256}
    (hcache : vMerkleTree = [] ∨ vMerkleTree = block.vMerkleTree P) (nIndex : ℕ) :
    block.merkleBranchFrom P vMerkleTree nIndex = block.getMerkleBranch P nIndex := by
  have htree : (if vMerkleTree = [] then block.vMerkleTree P else vMerkleTree) =
      block.vMerkleTree P := by
    rcases hcache with rfl | rfl <;> simp
  have h := pushMerkleBranch_eq P.hashPair (l := block.vtx.map P.getHash) [] nIndex
    (List.length_map P.getHash).le
  rw [merkleBranchFrom, htree, getMerkleBranch, merkleBranch_eq, vMerkleTree_eq, ← h,
    List.length_map]
  rfl

end

/-! ## The branch of a transaction leads to the root -/

/-- `CheckMerkleBranch` accepts what `GetMerkleBranch` returns, whether or not the array was built
before. -/
theorem checkMerkleBranch_merkleBranchFrom (P : Params) (block : CBlock) (i : ℕ)
    (hi : i < block.vtx.length) (vMerkleTree : List UInt256)
    (hcache : vMerkleTree = [] ∨ vMerkleTree = block.vMerkleTree P) :
    checkMerkleBranch P (P.getHash block.vtx[i]) (block.merkleBranchFrom P vMerkleTree i) i =
      block.merkleTreeBack P := by
  have hnode : (block.vtx.map P.getHash)[i]? = some (P.getHash block.vtx[i]) := by
    rw [List.getElem?_map, List.getElem?_eq_getElem hi]
    rfl
  rw [checkMerkleBranch, if_neg (by omega), merkleRootFrom_eq, CBlock.merkleBranchFrom_eq P _ hcache,
    CBlock.getMerkleBranch, merkleBranch_eq, CBlock.merkleTreeBack_eq, CBlock.buildMerkleTree,
    merkleRoot_eq]
  exact Merkle.climb_path P.hashPair 0 (List.length_map P.getHash).le hnode

namespace Sample

/-- Hashes that can be told apart at a glance: a transaction is its lock time, and a node above the
transactions starts with a one. -/
def merkleParams : Params :=
  { params with getHash := CTransaction.nLockTime, hashPair := fun a b ↦ 10000 + 100 * a + b }

/-- A block of the transactions with the given hashes. -/
def merkleBlock (txids : List UInt256) : CBlock where
  toCBlockHeader := genesis.toCBlockHeader
  vtx := txids.map (coinbase 0 0)
  vchBlockSig := []

end Sample

theorem checkMerkleBranch_merkleBranchFrom_sample :
    checkMerkleBranch Sample.merkleParams 3
        ((Sample.merkleBlock [1, 2, 3]).merkleBranchFrom Sample.merkleParams [] 2) 2 =
      (Sample.merkleBlock [1, 2, 3]).merkleTreeBack Sample.merkleParams :=
  checkMerkleBranch_merkleBranchFrom Sample.merkleParams (Sample.merkleBlock [1, 2, 3]) 2
    (by decide) [] (.inl rfl)

/-! ## The root determines the transactions -/

/-- What is assumed of the hashes that occur in the trees of two blocks: two nodes are hashed without
a collision, and no transaction has the hash of two nodes. -/
structure MerkleLawful (P : Params) (block block' : CBlock) : Prop where
  inj : Set.InjOn (Function.uncurry P.hashPair)
    ({hash | hash ∈ block.vMerkleTree P ++ block'.vMerkleTree P} ×ˢ
      {hash | hash ∈ block.vMerkleTree P ++ block'.vMerkleTree P})
  leaf : ∀ tx ∈ block.vtx ++ block'.vtx, P.getHash tx ∉
    (block.vMerkleTree P).drop block.vtx.length ++ (block'.vMerkleTree P).drop block'.vtx.length

theorem map_getHash_eq {P : Params} {block block' : CBlock} (hlawful : MerkleLawful P block block')
    (hnodup : (block.vtx.map P.getHash).Nodup) (hnodup' : (block'.vtx.map P.getHash).Nodup)
    (hvtx : block.vtx = [] ↔ block'.vtx = [])
    (hroot : block.merkleTreeBack P = block'.merkleTreeBack P) :
    block.vtx.map P.getHash = block'.vtx.map P.getHash := by
  obtain ⟨hinj, hleaf⟩ := hlawful
  rcases eq_or_ne block.vtx [] with hnil | hne
  · rw [hnil, hvtx.1 hnil]
  · have hne' : block'.vtx ≠ [] := fun h ↦ hne (hvtx.2 h)
    simp only [CBlock.merkleTreeBack_eq, CBlock.buildMerkleTree, merkleRoot_eq] at hroot
    simp only [CBlock.vMerkleTree_eq, List.mem_append, not_or] at hinj hleaf
    refine Merkle.eq_of_root_eq hinj 0 (by simpa using hne) (by simpa using hne')
      (List.length_map P.getHash).le (List.length_map P.getHash).le (fun _ h ↦ .inl h)
      (fun _ h ↦ .inr h) hnodup hnodup' (fun hash hmem ↦ ?_) (fun hash hmem ↦ ?_) hroot
    · obtain ⟨tx, htx, rfl⟩ := List.mem_map.1 hmem
      rw [List.length_map]
      exact (hleaf tx (.inl htx)).2
    · obtain ⟨tx, htx, rfl⟩ := List.mem_map.1 hmem
      rw [List.length_map]
      exact (hleaf tx (.inr htx)).1

namespace Sample

instance (P : Params) (block block' : CBlock) : Decidable (MerkleLawful P block block') :=
  decidable_of_iff
    ((∀ a ∈ block.vMerkleTree P ++ block'.vMerkleTree P,
      ∀ b ∈ block.vMerkleTree P ++ block'.vMerkleTree P,
      ∀ c ∈ block.vMerkleTree P ++ block'.vMerkleTree P,
      ∀ d ∈ block.vMerkleTree P ++ block'.vMerkleTree P,
        P.hashPair a b = P.hashPair c d → a = c ∧ b = d) ∧
      ∀ tx ∈ block.vtx ++ block'.vtx, P.getHash tx ∉
        (block.vMerkleTree P).drop block.vtx.length ++ (block'.vMerkleTree P).drop block'.vtx.length)
    ⟨fun h ↦ ⟨fun _ hp _ hq heq ↦ Prod.ext_iff.2 (h.1 _ hp.1 _ hp.2 _ hq.1 _ hq.2 heq), h.2⟩,
      fun h ↦ ⟨fun _ ha _ hb _ hc _ hd heq ↦
        Prod.ext_iff.1 (h.inj (Set.mk_mem_prod ha hb) (Set.mk_mem_prod hc hd) heq), h.leaf⟩⟩

example : MerkleLawful merkleParams (merkleBlock [1, 2, 3]) (merkleBlock [1, 2, 3, 3]) := by
  decide +kernel

end Sample

/-- Blocks with distinct transactions and the same root have the same transactions; if the
transactions of one of them repeat, they need not. -/
theorem map_getHash_eq_of_merkleTreeBack :
    (∀ (P : Params) (block block' : CBlock), MerkleLawful P block block' →
      (block.vtx.map P.getHash).Nodup → (block'.vtx.map P.getHash).Nodup →
      (block.vtx = [] ↔ block'.vtx = []) →
      block.merkleTreeBack P = block'.merkleTreeBack P →
        block.vtx.map P.getHash = block'.vtx.map P.getHash) ∧
    ∃ (P : Params) (block block' : CBlock), MerkleLawful P block block' ∧
      (block.vtx.map P.getHash).Nodup ∧ (block.vtx = [] ↔ block'.vtx = []) ∧
      block.merkleTreeBack P = block'.merkleTreeBack P ∧
        block.vtx.map P.getHash ≠ block'.vtx.map P.getHash :=
  ⟨fun _ _ _ ↦ map_getHash_eq, Sample.merkleParams, Sample.merkleBlock [1, 2, 3],
    Sample.merkleBlock [1, 2, 3, 3], by decide +kernel, by decide, by decide, by decide, by decide⟩

theorem map_getHash_eq_of_merkleTreeBack_sample :
    [1, 2, 3] = (Sample.merkleBlock [1, 2, 3]).vtx.map Sample.merkleParams.getHash :=
  map_getHash_eq_of_merkleTreeBack.1 Sample.merkleParams (Sample.merkleBlock [1, 2, 3])
    (Sample.merkleBlock [1, 2, 3]) (by decide +kernel) (by decide) (by decide) Iff.rfl rfl

/-- `BuildMerkleTree` returns zero for a block without transactions, which is also what it returns for
a single transaction whose hash is zero. -/
theorem not_map_getHash_eq_of_empty :
    ¬ ∀ (P : Params) (block block' : CBlock), MerkleLawful P block block' →
      (block.vtx.map P.getHash).Nodup → (block'.vtx.map P.getHash).Nodup →
      block.merkleTreeBack P = block'.merkleTreeBack P →
        block.vtx.map P.getHash = block'.vtx.map P.getHash := fun h ↦
  absurd (h Sample.merkleParams (Sample.merkleBlock []) (Sample.merkleBlock [0]) (by decide +kernel)
    (by decide) (by decide) (by decide)) (by decide)

end Bws
