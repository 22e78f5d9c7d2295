import Bws.AcceptBlock

/-!
# The kernel of the miner and of the validator

`CheckKernel` tells the miner whether an output can stake at a time, `CheckProofOfStake` accepts the
coinstake that it then makes.  Both read the output and its block, and both end in
`CheckStakeKernelHash`.  The miner's own test of the minimum age is in 64 bits, the one in
`CheckStakeKernelHash` in 32 bits without a sign, so that the two functions agree unless the sum of the
block time and the age passes 2^32 (`checkKernel_agrees_iff`).
-/

namespace Bws

section

variable (P : Params) (w : World) (files : BlockFiles) (txIndex : UInt256 → Option CTxIndex)
  (pindexPrev : CBlockIndex)

/-- `CheckKernel` -/
def checkKernel (nBits nTime : ℕ) (prevout : COutPoint) : Bool :=
  match readPrevTx w files txIndex prevout with
  | none => false
  | some (txindex, txPrev) =>
    match readHeaderAt w files txindex.pos.nFile txindex.pos.nBlockPos with
    | none => false
    | some header =>
      if nTime < header.nTime + P.nStakeMinAge then false -- only count coins meeting min age
      else if (isConfirmedInNPrevBlocks txindex.pos.nFile txindex.pos.nBlockPos pindexPrev
          (nStakeMinConfirmations - 1)).isSome then false
      else
        (checkStakeKernelHash P pindexPrev nBits header.nTime txPrev prevout (nTime % 2 ^ 32)).isSome

/-- The output and its block can be read, the block is deep enough, the time is not before that of the
transaction, and the kernel hash meets the target: all that is tested of a kernel but its age. -/
def KernelMeets (nBits nTime : ℕ) (prevout : COutPoint) (nTimeBlockFrom : ℕ) : Prop :=
  ∃ txindex txPrev header txout,
    readPrevTx w files txIndex prevout = some (txindex, txPrev) ∧
    readHeaderAt w files txindex.pos.nFile txindex.pos.nBlockPos = some header ∧
    header.nTime = nTimeBlockFrom ∧
    isConfirmedInNPrevBlocks txindex.pos.nFile txindex.pos.nBlockPos pindexPrev
      (nStakeMinConfirmations - 1) = none ∧
    txPrev.vout[prevout.n]? = some txout ∧ txPrev.nTime ≤ nTime ∧
    (P.hashKernel pindexPrev.val.nStakeModifier txPrev.nTime prevout nTime : ℤ) ≤
      setCompact nBits * txout.nValue

/-- A coinstake at a time with a valid signature, whose first input spends an output. -/
structure StakesAt (nTime : ℕ) (prevout : COutPoint) (tx : CTransaction) : Prop where
  isCoinStake : tx.isCoinStake
  spends : tx.vin[0]?.map CTxIn.prevout = some prevout
  nTime : tx.nTime = nTime
  signed : ∀ txindex txPrev, readPrevTx w files txIndex prevout = some (txindex, txPrev) →
    P.verifySignature txPrev tx 0 0 = true

end

section

variable {P : Params} {w : World} {files : BlockFiles} {txIndex : UInt256 → Option CTxIndex}
  {pindexPrev : CBlockIndex} {nBits nTime : ℕ} {prevout : COutPoint}

theorem checkStakeKernelHash_isSome {nTimeBlockFrom : ℕ} {txPrev : CTransaction} {txout : CTxOut}
    (hout : txPrev.vout[prevout.n]? = some txout) :
    (checkStakeKernelHash P pindexPrev nBits nTimeBlockFrom txPrev prevout nTime).isSome = true ↔
      txPrev.nTime ≤ nTime ∧ (nTimeBlockFrom + P.nStakeMinAge) % 2 ^ 32 ≤ nTime ∧
        (P.hashKernel pindexPrev.val.nStakeModifier txPrev.nTime prevout nTime : ℤ) ≤
          setCompact nBits * txout.nValue := by
  rw [checkStakeKernelHash, hout]
  dsimp only
  split_ifs with h
  · simp only [Option.isSome_none, Bool.false_eq_true, false_iff]
    rintro ⟨h₁, h₂, h₃⟩
    omega
  · simp only [not_or, not_lt] at h
    exact ⟨fun _ ↦ h, fun _ ↦ rfl⟩

theorem exists_output_of_readPrevTx {txindex : CTxIndex} {txPrev : CTransaction}
    (h : readPrevTx w files txIndex prevout = some (txindex, txPrev)) :
    ∃ txout, txPrev.vout[prevout.n]? = some txout := by
  unfold readPrevTx at h
  split at h
  · cases h
  · split at h
    · cases h
    · split_ifs at h with hlt
      cases h
      exact ⟨_, List.getElem?_eq_getElem (not_le.mp hlt)⟩

/-- The miner's kernel. -/
theorem checkKernel_eq_true (htime : nTime < 2 ^ 32) :
    checkKernel P w files txIndex pindexPrev nBits nTime prevout = true ↔
      ∃ nTimeBlockFrom, KernelMeets P w files txIndex pindexPrev nBits nTime prevout nTimeBlockFrom ∧
        nTimeBlockFrom + P.nStakeMinAge ≤ nTime := by
  constructor
  · intro h
    unfold checkKernel at h
    split at h
    · cases h
    · rename_i txindex txPrev hread
      split at h
      · cases h
      · rename_i header hheader
        split_ifs at h with hage hdepth
        obtain ⟨txout, hout⟩ := exists_output_of_readPrevTx hread
        rw [Nat.mod_eq_of_lt htime, checkStakeKernelHash_isSome hout] at h
        rw [Option.not_isSome_iff_eq_none] at hdepth
        exact ⟨header.nTime, ⟨txindex, txPrev, header, txout, hread, hheader, rfl, hdepth, hout, h.1,
          h.2.2⟩, not_lt.mp hage⟩
  · rintro ⟨_, ⟨txindex, txPrev, header, txout, hread, hheader, rfl, hdepth, hout, hprev, hhash⟩, hage⟩
    unfold checkKernel
    rw [hread]
    dsimp only
    rw [hheader]
    dsimp only
    rw [if_neg (not_lt.mpr hage), hdepth, Option.isSome_none, if_neg Bool.false_ne_true,
      Nat.mod_eq_of_lt htime, checkStakeKernelHash_isSome hout,
      Nat.mod_eq_of_lt (hage.trans_lt htime)]
    exact ⟨hprev, hage, hhash⟩

/-- The kernel of the validator. -/
theorem checkProofOfStake_accepts {tx : CTransaction}
    (h : StakesAt P w files txIndex nTime prevout tx) :
    (∃ hashProofOfStake,
        checkProofOfStake P w files txIndex pindexPrev tx nBits = .ok hashProofOfStake) ↔
      ∃ nTimeBlockFrom, KernelMeets P w files txIndex pindexPrev nBits nTime prevout nTimeBlockFrom ∧
        (nTimeBlockFrom + P.nStakeMinAge) % 2 ^ 32 ≤ nTime := by
  obtain ⟨txin, hin, rfl⟩ := Option.map_eq_some_iff.mp h.spends
  obtain rfl := h.nTime
  constructor
  · rintro ⟨hashProofOfStake, hok⟩
    unfold checkProofOfStake at hok
    rw [hin] at hok
    dsimp only at hok
    obtain ⟨-, hok⟩ := bind_check_eq_ok.mp hok
    split at hok
    · cases hok
    · rename_i txindex txPrev hread
      obtain ⟨-, hok⟩ := bind_check_eq_ok.mp hok
      split at hok
      · cases hok
      · rename_i header hheader
        obtain ⟨hdepth, hok⟩ := bind_check_eq_ok.mp hok
        rw [rejectIf_eq_ok, Option.not_isSome_iff_eq_none] at hdepth
        split at hok
        · cases hok
        · rename_i hash hkernel
          obtain ⟨txout, hout⟩ := exists_output_of_readPrevTx hread
          obtain ⟨hprev, hage, hhash⟩ :=
            (checkStakeKernelHash_isSome hout).mp (Option.isSome_iff_exists.mpr ⟨hash, hkernel⟩)
          exact ⟨header.nTime, ⟨txindex, txPrev, header, txout, hread, hheader, rfl, hdepth, hout,
            hprev, hhash⟩, hage⟩
  · rintro ⟨_, ⟨txindex, txPrev, header, txout, hread, hheader, rfl, hdepth, hout, hprev, hhash⟩, hage⟩
    obtain ⟨hash, hkernel⟩ := Option.isSome_iff_exists.mp
      ((checkStakeKernelHash_isSome hout).mpr ⟨hprev, hage, hhash⟩)
    refine ⟨hash, ?_⟩
    unfold checkProofOfStake
    rw [hin]
    dsimp only
    refine bind_check_eq_ok.mpr ⟨rejectIf_eq_ok.mpr (not_not.mpr h.isCoinStake), ?_⟩
    rw [hread]
    dsimp only
    refine bind_check_eq_ok.mpr ⟨rejectIf_eq_ok.mpr (not_not.mpr (h.signed _ _ hread)), ?_⟩
    rw [hheader]
    dsimp only
    refine bind_check_eq_ok.mpr ⟨rejectIf_eq_ok.mpr ?_, ?_⟩
    · rw [hdepth]
      exact Bool.false_ne_true
    · rw [hkernel]

/-- The miner's test and the validator's agree on a coinstake unless its kernel is met and old enough only
because the block time and the minimum age pass 2^32. -/
theorem checkKernel_agrees_iff (htime : nTime < 2 ^ 32) {tx : CTransaction}
    (h : StakesAt P w files txIndex nTime prevout tx) :
    (checkKernel P w files txIndex pindexPrev nBits nTime prevout = true ↔ ∃ hashProofOfStake,
        checkProofOfStake P w files txIndex pindexPrev tx nBits = .ok hashProofOfStake) ↔
      ∀ nTimeBlockFrom, KernelMeets P w files txIndex pindexPrev nBits nTime prevout nTimeBlockFrom →
        (nTimeBlockFrom + P.nStakeMinAge) % 2 ^ 32 ≤ nTime →
          nTimeBlockFrom + P.nStakeMinAge < 2 ^ 32 := by
  rw [checkKernel_eq_true htime, checkProofOfStake_accepts h]
  constructor
  · rintro hagree nTimeBlockFrom hmeets hage
    obtain ⟨_, ⟨txindex, txPrev, header, txout, hread, hheader, rfl, -⟩, hle⟩ :=
      hagree.mpr ⟨_, hmeets, hage⟩
    -- the block is the same
    obtain ⟨txindex', txPrev', header', txout', hread', hheader', rfl, -⟩ := hmeets
    cases hread.symm.trans hread'
    cases hheader.symm.trans hheader'
    exact hle.trans_lt htime
  · intro hsmall
    constructor
    · rintro ⟨nTimeBlockFrom, hmeets, hage⟩
      exact ⟨nTimeBlockFrom, hmeets, (Nat.mod_le _ _).trans hage⟩
    · rintro ⟨nTimeBlockFrom, hmeets, hage⟩
      have hlt := hsmall nTimeBlockFrom hmeets hage
      rw [Nat.mod_eq_of_lt hlt] at hage
      exact ⟨nTimeBlockFrom, hmeets, hage⟩

end

namespace Sample

/-- A block shortly before the 32 bits of the time end. -/
def lateBlock : CBlock := { block 1 1 (100 * COIN) 0 [] with nTime := 2 ^ 32 - 100 }

def lateFiles : BlockFiles := (BlockFiles.empty.writeToDisk world.nFile lateBlock).1

def lateTxIndex : UInt256 → Option CTxIndex := fun hash ↦
  if hash = 5 then some (CTxIndex.mk' ⟨1, 8, 89⟩ 1) else none

/-- The best block, of another file. -/
def otherIndex : CBlockIndex := .root { (indexOf .init genesis).val with nFile := 0 }

def lateStaker : CTransaction := ⟨1, 1000, [⟨⟨5, 0⟩, [], uintMax⟩], [⟨0, []⟩, ⟨1, [0, 0]⟩], 0⟩

theorem stakesAt_lateStaker : StakesAt params world lateFiles lateTxIndex 1000 ⟨5, 0⟩ lateStaker where
  isCoinStake := by decide +kernel
  spends := rfl
  nTime := rfl
  signed _ _ _ := rfl

/-- A kernel that is old enough only in 32 bits. -/
theorem exists_kernel_lateBlock : ¬ ∀ nTimeBlockFrom,
    KernelMeets params world lateFiles lateTxIndex otherIndex 0 1000 ⟨5, 0⟩ nTimeBlockFrom →
      (nTimeBlockFrom + params.nStakeMinAge) % 2 ^ 32 ≤ 1000 →
        nTimeBlockFrom + params.nStakeMinAge < 2 ^ 32 := by
  intro h
  have hagree := (checkKernel_agrees_iff (by decide) stakesAt_lateStaker).mpr h
  have hkernel := hagree.mpr ⟨0, by decide +kernel⟩
  exact absurd hkernel (by decide +kernel)

/-- The validator takes the sum for a time long past. -/
theorem checkKernel_disagrees_lateBlock :
    StakesAt params world lateFiles lateTxIndex 1000 ⟨5, 0⟩ lateStaker ∧
      checkKernel params world lateFiles lateTxIndex otherIndex 0 1000 ⟨5, 0⟩ = false ∧
      checkProofOfStake params world lateFiles lateTxIndex otherIndex lateStaker 0 = .ok 0 :=
  ⟨stakesAt_lateStaker, by decide +kernel, by decide +kernel⟩

end Sample

end Bws
