import Bws.TxDB

/-!
# The block files

Blocks are appended to numbered files.  A block is found again at the position it was written
at, and so is each of its transactions: `ConnectBlock` computes the position of a transaction
from that of its block, and a position it has computed is read back as that transaction.
`BlockFiles` carries this as a field, so that it holds for whatever `writeToDisk` has made.

What the bytes between two such positions would parse as is not modelled; the source never
reads there.
-/

namespace Bws

/-- The position of the first transaction of a block at `nBlockPos`. -/
def CBlock.firstTxPos (block : CBlock) (nBlockPos : ℕ) : ℕ :=
  nBlockPos + CBlock.headerSize + getSizeOfCompactSize block.vtx.length

/-- The transactions of a block with their positions, the first one being at `nTxPos`. -/
def txsFrom (nTxPos : ℕ) : List CTransaction → List (CTransaction × ℕ)
  | [] => []
  | tx :: vtx => (tx, nTxPos) :: txsFrom (nTxPos + tx.serializeSize) vtx

/-- The transactions of a block at `nBlockPos` with their positions. -/
def CBlock.txsAt (block : CBlock) (nBlockPos : ℕ) : List (CTransaction × ℕ) :=
  txsFrom (block.firstTxPos nBlockPos) block.vtx

theorem map_fst_txsFrom (vtx : List CTransaction) :
    ∀ nTxPos, (txsFrom nTxPos vtx).map Prod.fst = vtx := by
  induction vtx with
  | nil => exact fun _ ↦ rfl
  | cons tx vtx ih => exact fun nTxPos ↦ congrArg (tx :: ·) (ih _)

theorem le_of_mem_txsFrom {tx : CTransaction} {q : ℕ} {vtx : List CTransaction} :
    ∀ {nTxPos}, (tx, q) ∈ txsFrom nTxPos vtx → nTxPos ≤ q := by
  induction vtx with
  | nil => intro _ h; cases h
  | cons tx' vtx ih =>
    intro nTxPos h
    rcases List.mem_cons.mp h with h | h
    · cases h
      exact le_rfl
    · exact (Nat.le_add_right _ _).trans (ih h)

theorem add_size_le_of_mem_txsFrom {tx : CTransaction} {q : ℕ} {vtx : List CTransaction} :
    ∀ {nTxPos}, (tx, q) ∈ txsFrom nTxPos vtx →
      q + tx.serializeSize ≤ nTxPos + (vtx.map CTransaction.serializeSize).sum := by
  induction vtx with
  | nil => intro _ h; cases h
  | cons tx' vtx ih =>
    intro nTxPos h
    rw [List.map_cons, List.sum_cons]
    rcases List.mem_cons.mp h with h | h
    · cases h
      omega
    · have := ih h
      omega

/-- No two transactions of a block have one position. -/
theorem eq_of_mem_txsFrom {tx tx' : CTransaction} {q : ℕ} {vtx : List CTransaction} :
    ∀ {nTxPos}, (tx, q) ∈ txsFrom nTxPos vtx → (tx', q) ∈ txsFrom nTxPos vtx → tx = tx' := by
  induction vtx with
  | nil => intro _ h; cases h
  | cons tx₀ vtx ih =>
    intro nTxPos h h'
    have hlt : ∀ tx, (tx, nTxPos) ∉ txsFrom (nTxPos + tx₀.serializeSize) vtx := fun tx h ↦ by
      have := le_of_mem_txsFrom h
      have := tx₀.serializeSize_pos
      omega
    rcases List.mem_cons.mp h with h | h <;> rcases List.mem_cons.mp h' with h' | h'
    · cases h
      cases h'
      rfl
    · cases h
      exact absurd h' (hlt _)
    · cases h'
      exact absurd h (hlt _)
    · exact ih h h'

theorem lt_of_mem_txsAt {block : CBlock} {tx : CTransaction} {nBlockPos q : ℕ}
    (h : (tx, q) ∈ block.txsAt nBlockPos) : nBlockPos + 1 < q := by
  have := le_of_mem_txsFrom h
  have := one_le_getSizeOfCompactSize block.vtx.length
  unfold CBlock.firstTxPos CBlock.headerSize at *
  omega

/-! ## Files -/

/-- The transaction at a position among a list of transactions with their positions. -/
def findTx (q : ℕ) : List (CTransaction × ℕ) → Option CTransaction
  | [] => none
  | (tx, p) :: l => if p = q then some tx else findTx q l

theorem findTx_eq_some {q : ℕ} {tx : CTransaction} {l : List (CTransaction × ℕ)}
    (hu : ∀ tx', (tx', q) ∈ l → tx' = tx) (h : (tx, q) ∈ l) : findTx q l = some tx := by
  induction l with
  | nil => cases h
  | cons a l ih =>
    obtain ⟨tx', p⟩ := a
    rw [findTx]
    split
    · rename_i hp
      rw [hu tx' (by simp [hp])]
    · rename_i hp
      refine ih (fun tx' h ↦ hu tx' (by simp [h])) ?_
      rcases List.mem_cons.mp h with h | h
      · cases h
        exact absurd rfl hp
      · exact h

/-- The contents of the block files. -/
structure BlockFiles where
  /-- the block that starts at a position of a file -/
  blockAt : ℕ → ℕ → Option CBlock
  /-- the transaction that starts at a position of a file -/
  txAt : ℕ → ℕ → Option CTransaction
  fileEnd : ℕ → ℕ
  lt_fileEnd : ∀ {nFile nBlockPos block}, blockAt nFile nBlockPos = some block →
    nBlockPos + block.serializeSize ≤ fileEnd nFile
  txAt_eq : ∀ {nFile nBlockPos block tx q}, blockAt nFile nBlockPos = some block →
    (tx, q) ∈ block.txsAt nBlockPos → txAt nFile q = some tx
  /-- the null position names no file -/
  nFile_lt : ∀ {nFile nBlockPos block}, blockAt nFile nBlockPos = some block → nFile < uintMax

theorem CBlock.add_size_le_of_mem_txsAt {block : CBlock} {tx : CTransaction} {nBlockPos q : ℕ}
    (h : (tx, q) ∈ block.txsAt nBlockPos) :
    q + tx.serializeSize ≤ nBlockPos + block.serializeSize := by
  have := add_size_le_of_mem_txsFrom h
  unfold CBlock.firstTxPos at this
  unfold CBlock.serializeSize
  omega

namespace BlockFiles

def empty : BlockFiles where
  blockAt _ _ := none
  txAt _ _ := none
  fileEnd _ := 0
  lt_fileEnd := nofun
  txAt_eq := nofun
  nFile_lt := nofun

/-- `CBlock::WriteToDisk` to the file `nFile`: after eight bytes of message start and size the
block itself, which is therefore at `nBlockPos`. -/
def writeToDisk (files : BlockFiles) (nFile : Fin uintMax) (block : CBlock) : BlockFiles × ℕ :=
  let nBlockPos := files.fileEnd nFile + 8
  ({ blockAt := fun f p ↦
      if f = nFile ∧ p = nBlockPos then some block else files.blockAt f p
     txAt := fun f q ↦
      if f = nFile ∧ nBlockPos ≤ q then findTx q (block.txsAt nBlockPos) else files.txAt f q
     fileEnd := fun f ↦
      if f = nFile then nBlockPos + block.serializeSize else files.fileEnd f
     lt_fileEnd := by
      intro f p b h
      split at h
      · rename_i hfp
        cases h
        rw [if_pos hfp.1, hfp.2]
      · have := files.lt_fileEnd h
        split
        · rename_i hf
          subst hf
          omega
        · exact this
     txAt_eq := by
      intro f p b tx q h hq
      split at h
      · rename_i hfp
        cases h
        obtain ⟨hf, rfl⟩ := hfp
        have := lt_of_mem_txsAt hq
        rw [if_pos ⟨hf, by omega⟩]
        exact findTx_eq_some (fun tx' h' ↦ eq_of_mem_txsFrom h' hq) hq
      · have h₁ := files.lt_fileEnd h
        have h₂ := CBlock.add_size_le_of_mem_txsAt hq
        have h₃ := tx.serializeSize_pos
        rw [if_neg, files.txAt_eq h hq]
        rintro ⟨rfl, hle⟩
        omega
     nFile_lt := by
      intro f p b h
      split at h
      · rename_i hfp
        rw [hfp.1]
        exact nFile.2
      · exact files.nFile_lt h },
   nBlockPos)

theorem blockAt_writeToDisk (files : BlockFiles) (nFile : Fin uintMax) (block : CBlock) :
    (files.writeToDisk nFile block).1.blockAt nFile (files.writeToDisk nFile block).2 =
      some block := if_pos ⟨rfl, rfl⟩

/-- What was on disk stays there. -/
theorem blockAt_writeToDisk_of_some {files : BlockFiles} {f p : ℕ} {b : CBlock}
    (h : files.blockAt f p = some b) (nFile : Fin uintMax) (block : CBlock) :
    (files.writeToDisk nFile block).1.blockAt f p = some b := by
  refine (if_neg ?_).trans h
  rintro ⟨rfl, rfl⟩
  have := files.lt_fileEnd h
  omega

end BlockFiles

end Bws
