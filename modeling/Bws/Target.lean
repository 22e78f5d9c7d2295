import Bws.AcceptBlock
import Bws.Lib.Scale

/-!
# The next target

`GetNextTargetRequired` scales the target of the last block of its type by the spacing of the last two,
cuts the result to the three leading bytes of the compact form, and takes the limit for what is out of
range.  In a chain that `AcceptBlock` has accepted it stays in range, and within bounds of the last
target, but for one escape: from the target 1 a short spacing leads to 0, and 0 to the limit
(`getNextTargetRequired_of_accepted`).
-/

namespace Bws

open Chain (Node)

/-! ## The compact form -/

theorem le_mpiSize {n : ℕ} (hn : 0 < n) : 2 ^ (8 * (mpiSize n - 1) - 1) ≤ n := by
  have hlog : 2 ^ n.log2 ≤ n := Nat.log2_self_le hn.ne'
  refine (Nat.pow_le_pow_right Nat.two_pos ?_).trans hlog
  rw [mpiSize, if_neg hn.ne']
  omega

theorem lt_mpiSize {n : ℕ} (hn : 0 < n) : n < 2 ^ (8 * mpiSize n - 1) := by
  refine Nat.lt_log2_self.trans_le (Nat.pow_le_pow_right Nat.two_pos ?_)
  rw [mpiSize, if_neg hn.ne']
  omega

theorem mpiSize_pos {n : ℕ} (hn : 0 < n) : 0 < mpiSize n := by
  rw [mpiSize, if_neg hn.ne']
  omega

theorem mpiSize_mono : Monotone mpiSize := by
  intro n m hnm
  unfold mpiSize
  split_ifs with hn hm hm
  · exact le_rfl
  · exact Nat.zero_le _
  · omega
  · have hlog : n.log2 ≤ m.log2 := (Nat.le_log2 hm).2 ((Nat.log2_self_le hn).trans hnm)
    omega

/-- The compact form keeps the number of bytes and the first three of them, the first bit being the
sign. -/
def compact : Scale where
  size := mpiSize
  low s := 2 ^ (8 * (s - 1) - 1)
  unit s := 2 ^ (8 * (s - 3))
  low_pos _ := Nat.two_pow_pos _
  unit_dvd_low s := Nat.pow_dvd_pow 2 (by omega)
  low_size_le := le_mpiSize
  lt_low := by
    intro n s hs
    rcases Nat.eq_zero_or_pos n with rfl | hn
    · exact Nat.two_pow_pos _
    · exact (lt_mpiSize hn).trans_le (Nat.pow_le_pow_right Nat.two_pos (by omega))
  size_mono := mpiSize_mono

/-- The three bytes that `GetCompact` writes: the sign bit is free. -/
theorem word_lt (n : ℕ) :
    (if mpiSize n ≤ 3 then n <<< (8 * (3 - mpiSize n)) else n >>> (8 * (mpiSize n - 3))) <
      2 ^ 23 := by
  rcases Nat.eq_zero_or_pos n with rfl | hn
  · decide
  have hlt := lt_mpiSize hn
  have hpos := mpiSize_pos hn
  split_ifs with hsize
  · rw [Nat.shiftLeft_eq]
    calc n * 2 ^ (8 * (3 - mpiSize n))
        < 2 ^ (8 * mpiSize n - 1) * 2 ^ (8 * (3 - mpiSize n)) :=
          Nat.mul_lt_mul_of_pos_right hlt (Nat.two_pow_pos _)
      _ = 2 ^ 23 := by
          rw [← pow_add]
          congr 1
          omega
  · rw [Nat.shiftRight_eq_div_pow, Nat.div_lt_iff_lt_mul (Nat.two_pow_pos _), ← pow_add]
    exact hlt.trans_le (Nat.pow_le_pow_right Nat.two_pos (by omega))

section

variable {nSize w : ℕ}

/-- The size and the word are read back from the compact form. -/
theorem compact_size (h : w < 2 ^ 23) : (nSize <<< 24 ||| w) >>> 24 = nSize := by
  rw [← Nat.shiftLeft_add_eq_or_of_lt (by omega), Nat.shiftLeft_eq, Nat.shiftRight_eq_div_pow]
  omega

theorem compact_word (h : w < 2 ^ 23) : (nSize <<< 24 ||| w) &&& 0x007fffff = w := by
  rw [← Nat.shiftLeft_add_eq_or_of_lt (by omega), Nat.shiftLeft_eq,
    show 0x007fffff = 2 ^ 23 - 1 from rfl, Nat.and_two_pow_sub_one_eq_mod]
  omega

theorem compact_sign (h : w < 2 ^ 23) : (nSize <<< 24 ||| w) &&& 0x00800000 = 0 := by
  rw [show 0x00800000 = 2 ^ 23 from rfl, Nat.and_two_pow, Nat.testBit_or, Nat.testBit_shiftLeft,
    Nat.testBit_lt_two_pow h]
  simp

end

/-- What is read back is the number cut to its leading bytes. -/
theorem setCompact_getCompact (n : ℕ) : setCompact (getCompact n) = compact.cut n := by
  have hlt := word_lt n
  rw [getCompact, Int.natAbs_natCast, if_neg (by omega)]
  generalize hw : (if mpiSize n ≤ 3 then n <<< (8 * (3 - mpiSize n))
    else n >>> (8 * (mpiSize n - 3))) = w at hlt ⊢
  rw [setCompact, compact_size hlt, compact_word hlt, compact_sign hlt]
  simp only [ne_eq, not_true_eq_false, and_false, if_false]
  rw [Nat.cast_inj, Scale.cut, ← hw]
  show _ = n / 2 ^ (8 * (mpiSize n - 3)) * 2 ^ (8 * (mpiSize n - 3))
  split_ifs with hsize
  · rw [Nat.shiftLeft_shiftRight, Nat.sub_eq_zero_of_le hsize, mul_zero, pow_zero, Nat.div_one,
      mul_one]
  · rw [Nat.shiftLeft_eq, Nat.shiftRight_eq_div_pow]

/-- A target in compact precision. -/
def compactFloor (x : ℤ) : ℤ := compact.cut x.toNat

theorem setCompact_getCompact_of_nonneg {x : ℤ} (h : 0 ≤ x) :
    setCompact (getCompact x) = compactFloor x := by
  obtain ⟨n, rfl⟩ := Int.eq_ofNat_of_zero_le h
  exact setCompact_getCompact n

theorem compactFloor_le {x : ℤ} (h : 0 ≤ x) : compactFloor x ≤ x := by
  have hle := compact.cut_le x.toNat
  unfold compactFloor
  omega

theorem compactFloor_pos {x : ℤ} (h : 0 < x) : 0 < compactFloor x :=
  Int.natCast_pos.2 (compact.cut_pos (Int.pos_iff_toNat_pos.1 h))

theorem compactFloor_mono : Monotone compactFloor := fun _ _ h ↦
  Int.ofNat_le.2 (compact.cut_mono (Int.toNat_le_toNat h))

/-! ## One step -/

section

variable {bnTargetLimit : ℤ} {pindexPrev pindexPrevPrev : CBlockIndex}

/-- The spacing, clamped above at ten times the target spacing. -/
theorem nextTarget_eq {p a : ℤ} (hp : setCompact pindexPrev.nBits = p)
    (ha : min 1200 (pindexPrev.getBlockTime - pindexPrevPrev.getBlockTime) = a) :
    nextTarget bnTargetLimit pindexPrev pindexPrevPrev =
      getCompact (if (p * (840 + 2 * a)).tdiv 1080 ≤ 0 ∨
        bnTargetLimit < (p * (840 + 2 * a)).tdiv 1080 then bnTargetLimit
        else (p * (840 + 2 * a)).tdiv 1080) := by
  have hspacing : (if pindexPrev.getBlockTime - pindexPrevPrev.getBlockTime > getTargetSpacing * 10
      then getTargetSpacing * 10
      else pindexPrev.getBlockTime - pindexPrevPrev.getBlockTime) = a := by
    rw [← ha, show getTargetSpacing * 10 = 1200 from rfl]
    split_ifs with h <;> omega
  rw [nextTarget, hp]
  simp only [hspacing]
  rw [show (nTargetTimespan / getTargetSpacing - 1) * getTargetSpacing + a + a = 840 + 2 * a by
      rw [show (nTargetTimespan / getTargetSpacing - 1) * getTargetSpacing = 840 from rfl]
      ring,
    show (nTargetTimespan / getTargetSpacing + 1) * getTargetSpacing = 1080 from rfl]

/-- **One step from a target in range.** -/
theorem setCompact_nextTarget {p : ℤ} (hp : setCompact pindexPrev.nBits = p) (hpos : 0 < p)
    (hlimit : p ≤ bnTargetLimit)
    (htime : pindexPrevPrev.getBlockTime < pindexPrev.getBlockTime) :
    if p = 1 ∧ pindexPrev.getBlockTime - pindexPrevPrev.getBlockTime < 120 then
      setCompact (nextTarget bnTargetLimit pindexPrev pindexPrevPrev) = compactFloor bnTargetLimit
    else compactFloor (p * 842 / 1080) ≤
        setCompact (nextTarget bnTargetLimit pindexPrev pindexPrevPrev) ∧
      setCompact (nextTarget bnTargetLimit pindexPrev pindexPrevPrev) ≤ 3 * p := by
  obtain ⟨a, ha⟩ : ∃ a, min 1200 (pindexPrev.getBlockTime - pindexPrevPrev.getBlockTime) = a :=
    ⟨_, rfl⟩
  have hlo : 1 ≤ a := by omega
  have hhi : a ≤ 1200 := by omega
  have hleast : p * 842 ≤ p * (840 + 2 * a) := Int.mul_le_mul_of_nonneg_left (by omega) hpos.le
  have hmost : p * (840 + 2 * a) ≤ p * 3240 := Int.mul_le_mul_of_nonneg_left (by omega) hpos.le
  rw [nextTarget_eq hp ha, Int.tdiv_eq_ediv_of_nonneg (by omega)]
  generalize hx : p * (840 + 2 * a) = x at hleast hmost ⊢
  by_cases hescape : p = 1 ∧ pindexPrev.getBlockTime - pindexPrevPrev.getBlockTime < 120
  · -- the product is less than the divisor
    obtain ⟨rfl, hshort⟩ := hescape
    rw [if_pos ⟨rfl, hshort⟩, if_pos (.inl (by omega)), setCompact_getCompact_of_nonneg (by omega)]
  · have hone : 1 ≤ x / 1080 := by
      by_cases hp1 : p = 1
      · subst hp1
        omega
      · omega
    rw [if_neg hescape]
    split_ifs with hout
    · -- above the limit
      rw [setCompact_getCompact_of_nonneg (by omega)]
      have hfloor : compactFloor bnTargetLimit ≤ bnTargetLimit := compactFloor_le (by omega)
      exact ⟨compactFloor_mono (by omega), by omega⟩
    · rw [setCompact_getCompact_of_nonneg (by omega)]
      have hfloor : compactFloor (x / 1080) ≤ x / 1080 := compactFloor_le (by omega)
      exact ⟨compactFloor_mono (by omega), by omega⟩

end

/-! ## Accepted chains -/

/-- The limit of a block type. -/
def targetLimit (P : Params) (fProofOfStake : Bool) : ℤ :=
  if fProofOfStake then bnProofOfStakeLimit else P.proofOfWorkLimit

/-- The chains that `AcceptBlock` builds: a first block, and on top of such a chain what passes the
checks. -/
inductive AcceptedChain (P : Params) : CBlockIndex → Prop
  | first (e : CBlockEntry) : AcceptedChain P (.root e)
  | next {w : World} {s : NodeState} {block : CBlock} {pindexPrev pindexNew : CBlockIndex}
      {nFile nBlockPos : ℕ} {hashProof : UInt256} : AcceptedChain P pindexPrev →
      s.mapBlockIndex block.hashPrevBlock = some pindexPrev →
      checkAccept P w s block = .ok hashProof →
      newBlockIndex P s block nFile nBlockPos hashProof = .ok pindexNew →
      AcceptedChain P pindexNew

section

variable {P : Params}

/-- The flag of the block type is the one that is set. -/
theorem isProofOfStake_newBlockEntry (block : CBlock) (nFile nBlockPos : ℕ) (hashProof : UInt256)
    (pprev : Option CBlockIndex) (fGenerated : Bool) :
    (newBlockEntry P block nFile nBlockPos hashProof pprev fGenerated).nFlags &&&
      BLOCK_PROOF_OF_STAKE ≠ 0 ↔ block.isProofOfStake := by
  unfold newBlockEntry
  dsimp only
  split_ifs with hstake <;> simp only [hstake, iff_true, iff_false] <;> decide

/-- The target and the time that the checks ask for. -/
theorem bits_of_checkAccept {w : World} {s : NodeState} {block : CBlock} {pindexPrev : CBlockIndex}
    {hashProof : UInt256} (hprev : s.mapBlockIndex block.hashPrevBlock = some pindexPrev)
    (h : checkAccept P w s block = .ok hashProof) :
    pindexPrev.getBlockTime < block.nTime ∧
      block.nBits = getNextTargetRequired (targetLimit P (decide block.isProofOfStake)) pindexPrev
        (decide block.isProofOfStake) := by
  unfold checkAccept at h
  obtain ⟨-, h⟩ := bind_check_eq_ok.mp h
  obtain ⟨-, h⟩ := bind_check_eq_ok.mp h
  rw [hprev] at h
  split at h
  · cases h
  · cases h
  · cases h
  · rename_i pindexPrev' pindexBest coinbase hprev' hbest hcoinbase
    cases hprev'
    simp only [bind_check_eq_ok, rejectIf_eq_ok, not_not, not_lt, not_or, not_le] at h
    obtain ⟨-, -, -, -, hbits, ⟨htime, -⟩, -⟩ := h
    refine ⟨htime, hbits.trans ?_⟩
    simp only [targetLimit, decide_eq_true_eq]

/-- What the checks say of a block that is not the first. -/
theorem AcceptedChain.child {e : CBlockEntry} {p : CBlockIndex} (h : AcceptedChain P (.child e p)) :
    AcceptedChain P p ∧ p.getBlockTime < e.nTime ∧
      e.nBits = getNextTargetRequired
        (targetLimit P (decide (CBlockIndex.isProofOfStake (.child e p)))) p
        (decide (CBlockIndex.isProofOfStake (.child e p))) := by
  generalize hn : Node.child e p = n at h
  cases h with
  | first => cases hn
  | @next w s block pindexPrev _ nFile nBlockPos hashProof hprev hmap hcheck hnew =>
    obtain ⟨htime, hbits⟩ := bits_of_checkAccept hmap hcheck
    unfold newBlockIndex at hnew
    obtain ⟨-, hnew⟩ := bind_check_eq_ok.mp hnew
    simp only [hmap] at hnew
    split at hnew
    · cases hnew
    · rename_i fGenerated _
      cases hnew
      cases hn
      have htype : decide (CBlockIndex.isProofOfStake (.child (newBlockEntry P block nFile nBlockPos
          hashProof (some p) fGenerated) p)) = decide block.isProofOfStake :=
        decide_eq_decide.2
          (isProofOfStake_newBlockEntry block nFile nBlockPos hashProof (some p) fGenerated)
      refine ⟨hprev, htime, ?_⟩
      rw [htype]
      exact hbits

/-- The last block of a type is the first block or of that type; it is accepted and no later. -/
theorem AcceptedChain.getLastBlockIndex {pindex : CBlockIndex} (h : AcceptedChain P pindex)
    (fProofOfStake : Bool) :
    AcceptedChain P (getLastBlockIndex fProofOfStake pindex) ∧
      (getLastBlockIndex fProofOfStake pindex).getBlockTime ≤ pindex.getBlockTime ∧
      ((getLastBlockIndex fProofOfStake pindex).pprev.isSome →
        decide (getLastBlockIndex fProofOfStake pindex).isProofOfStake = fProofOfStake) := by
  induction pindex with
  | root e => exact ⟨h, le_rfl, nofun⟩
  | child e p ih =>
    rw [Bws.getLastBlockIndex]
    split_ifs with htype
    · obtain ⟨hprev, htime, -⟩ := h.child
      obtain ⟨haccepted, hle, htype⟩ := ih hprev
      exact ⟨haccepted, hle.trans htime.le, htype⟩
    · exact ⟨h, le_rfl, fun _ ↦ not_not.1 htype⟩

end

/-! ## The targets of a chain -/

/-- The last two blocks of a type, neither of them the first block of the chain. -/
structure LastTwo (fProofOfStake : Bool) (pindexLast pindexPrev pindexPrevPrev : CBlockIndex) :
    Prop where
  last : getLastBlockIndex fProofOfStake pindexLast = pindexPrev
  before : ∃ p, pindexPrev.pprev = some p ∧ getLastBlockIndex fProofOfStake p = pindexPrevPrev
  later : pindexPrevPrev.pprev.isSome

section

variable {P : Params} {fProofOfStake : Bool} {pindexLast pindexPrev pindexPrevPrev : CBlockIndex}

theorem getNextTargetRequired_of_lastTwo (bnTargetLimit : ℤ)
    (h : LastTwo fProofOfStake pindexLast pindexPrev pindexPrevPrev) :
    getNextTargetRequired bnTargetLimit pindexLast fProofOfStake =
      nextTarget bnTargetLimit pindexPrev pindexPrevPrev := by
  obtain ⟨rfl, ⟨p, hp, rfl⟩, hlater⟩ := h
  obtain ⟨m, hm⟩ := Option.isSome_iff_exists.1 hlater
  rw [getNextTargetRequired]
  simp only [hp, hm]

theorem getNextTargetRequired_of_not_lastTwo (bnTargetLimit : ℤ)
    (h : ∀ pindexPrev pindexPrevPrev, ¬ LastTwo fProofOfStake pindexLast pindexPrev pindexPrevPrev) :
    getNextTargetRequired bnTargetLimit pindexLast fProofOfStake = getCompact bnTargetLimit := by
  rw [getNextTargetRequired]
  dsimp only
  split
  · rfl
  · rename_i p hp
    split
    · rfl
    · rename_i m hm
      exact absurd ⟨rfl, ⟨p, hp, rfl⟩, Option.isSome_iff_exists.2 ⟨m, hm⟩⟩ (h _ _)

/-- The limit is a target, and so is whatever the next target is. -/
theorem setCompact_getNextTargetRequired_mem {bnTargetLimit : ℤ} (hlimit : 0 < bnTargetLimit)
    (fProofOfStake : Bool) (pindexLast : CBlockIndex) :
    0 < setCompact (getNextTargetRequired bnTargetLimit pindexLast fProofOfStake) ∧
      setCompact (getNextTargetRequired bnTargetLimit pindexLast fProofOfStake) ≤ bnTargetLimit := by
  have hmem : ∀ x, 0 < x → x ≤ bnTargetLimit →
      0 < setCompact (getCompact x) ∧ setCompact (getCompact x) ≤ bnTargetLimit := by
    intro x hpos hle
    rw [setCompact_getCompact_of_nonneg hpos.le]
    exact ⟨compactFloor_pos hpos, (compactFloor_le hpos.le).trans hle⟩
  rw [getNextTargetRequired]
  dsimp only
  split
  · exact hmem _ hlimit le_rfl
  · split
    · exact hmem _ hlimit le_rfl
    · rw [nextTarget_eq rfl rfl]
      split_ifs with hout
      · exact hmem _ hlimit le_rfl
      · exact hmem _ (by omega) (by omega)

theorem targetLimit_pos (hlimit : 0 < P.proofOfWorkLimit) (fProofOfStake : Bool) :
    0 < targetLimit P fProofOfStake := by
  unfold targetLimit
  split_ifs
  exacts [by decide, hlimit]

/-- The last target of a type is in range, and the blocks are in order of time. -/
theorem AcceptedChain.lastTwo (h : AcceptedChain P pindexLast) (hlimit : 0 < P.proofOfWorkLimit)
    (hlast : LastTwo fProofOfStake pindexLast pindexPrev pindexPrevPrev) :
    0 < setCompact pindexPrev.nBits ∧ setCompact pindexPrev.nBits ≤ targetLimit P fProofOfStake ∧
      pindexPrevPrev.getBlockTime < pindexPrev.getBlockTime := by
  obtain ⟨rfl, ⟨p, hp, rfl⟩, -⟩ := hlast
  obtain ⟨haccepted, -, htype⟩ := h.getLastBlockIndex fProofOfStake
  have htype := htype (Option.isSome_iff_exists.2 ⟨p, hp⟩)
  generalize Bws.getLastBlockIndex fProofOfStake pindexLast = pindexPrev at hp haccepted htype ⊢
  rw [Node.eq_child_of_parent? hp] at haccepted htype ⊢
  obtain ⟨hprev, htime, hbits⟩ := haccepted.child
  rw [htype] at hbits
  obtain ⟨hpos, hle⟩ := setCompact_getNextTargetRequired_mem (targetLimit_pos hlimit fProofOfStake)
    fProofOfStake p
  rw [← hbits] at hpos hle
  exact ⟨hpos, hle, (hprev.getLastBlockIndex fProofOfStake).2.1.trans_lt htime⟩

/-- **The next target of an accepted chain** is in range.  It is the limit as long as the type has no
two blocks on top of the first; then it lies between 842/1080 of the last target, in compact
precision, and three times the last target, but for the escape from the target 1. -/
theorem getNextTargetRequired_of_accepted (h : AcceptedChain P pindexLast)
    (hlimit : 0 < P.proofOfWorkLimit) (fProofOfStake : Bool) :
    let bnTargetLimit := targetLimit P fProofOfStake
    let t := setCompact (getNextTargetRequired bnTargetLimit pindexLast fProofOfStake)
    (0 < t ∧ t ≤ bnTargetLimit) ∧
      ((∀ pindexPrev pindexPrevPrev,
        ¬ LastTwo fProofOfStake pindexLast pindexPrev pindexPrevPrev) →
          t = compactFloor bnTargetLimit) ∧
      ∀ pindexPrev pindexPrevPrev, LastTwo fProofOfStake pindexLast pindexPrev pindexPrevPrev →
        if setCompact pindexPrev.nBits = 1 ∧
          pindexPrev.getBlockTime - pindexPrevPrev.getBlockTime < 120
        then t = compactFloor bnTargetLimit
        else compactFloor (setCompact pindexPrev.nBits * 842 / 1080) ≤ t ∧
          t ≤ 3 * setCompact pindexPrev.nBits := by
  have hpos := targetLimit_pos hlimit fProofOfStake
  refine ⟨setCompact_getNextTargetRequired_mem hpos _ _, fun hnone ↦ ?_, fun _ _ hlast ↦ ?_⟩
  · rw [getNextTargetRequired_of_not_lastTwo _ hnone, setCompact_getCompact_of_nonneg hpos.le]
  · obtain ⟨hp, hle, htime⟩ := h.lastTwo hlimit hlast
    rw [getNextTargetRequired_of_lastTwo _ hlast]
    exact setCompact_nextTarget rfl hp hle htime

end

/-! ## A chain whose targets fall -/

namespace Sample

/-- A proof-of-work block a second after the one that it is on top of. -/
def hastyBlock (p : CBlockIndex) : CBlock where
  nVersion := 7
  hashPrevBlock := p.getBlockHash
  hashMerkleRoot := 0
  nTime := p.val.nTime + 1
  nBits := getNextTargetRequired params.proofOfWorkLimit p false
  nNonce := 0
  vtx := [{ coinbase (p.nHeight + 1) 0 0 with nTime := p.val.nTime + 1 }]
  vchBlockSig := []

/-- A chain of such blocks. -/
def hasty : ℕ → CBlockIndex
  | 0 => indexOf .init genesis
  | n + 1 =>
    .child (newBlockEntry params (hastyBlock (hasty n)) 1 0 0 (some (hasty n)) false) (hasty n)

/-- A node whose best block is the last one of the chain. -/
def hastyState (p : CBlockIndex) : NodeState :=
  { NodeState.init with
    mapBlockIndex := fun hash ↦ if hash = p.getBlockHash then some p else none
    pindexBest := some p
    nBestHeight := p.nHeight }

theorem hasty_eq (n : ℕ) : (hasty n).nHeight = n ∧ (hasty n).val.nTime = n ∧
    (hasty n).getBlockHash = 1000 * (hasty n).val.nTime + 1 := by
  induction n with
  | zero => decide +kernel
  | succ n ih =>
    obtain ⟨hheight, htime, -⟩ := ih
    exact ⟨congrArg (· + 1) hheight, congrArg (· + 1) htime, rfl⟩

theorem not_isProofOfStake_hastyBlock (p : CBlockIndex) : ¬ (hastyBlock p).isProofOfStake :=
  fun h ↦ absurd h.1 (lt_irrefl 1)

theorem syncCheckpointFrom_height_le (nHeightBest : ℕ) : (n : CBlockIndex) →
    (syncCheckpointFrom nHeightBest n).nHeight ≤ n.nHeight
  | .root _ => le_rfl
  | .child e p => by
    rw [syncCheckpointFrom]
    split_ifs
    · exact (syncCheckpointFrom_height_le nHeightBest p).trans (Nat.le_succ _)
    · exact le_rfl

theorem mapBlockIndex_hastyState (p : CBlockIndex) :
    (hastyState p).mapBlockIndex (hastyBlock p).hashPrevBlock = some p := if_pos rfl

theorem mapBlockIndex_hastyBlock {p : CBlockIndex}
    (hhash : p.getBlockHash = 1000 * p.val.nTime + 1) :
    (hastyState p).mapBlockIndex (params.blockHash (hastyBlock p).toCBlockHeader) = none := by
  refine if_neg ?_
  rw [hhash]
  show 1000 * (p.val.nTime + 1) + 0 + 1 ≠ 1000 * p.val.nTime + 1
  omega

theorem checkAccept_hastyBlock {p : CBlockIndex} (hheight : p.nHeight < 2 ^ 31 - 1)
    (hhash : p.getBlockHash = 1000 * p.val.nTime + 1) :
    checkAccept params world (hastyState p) (hastyBlock p) = .ok 0 := by
  have hpow := not_isProofOfStake_hastyBlock p
  have hbits : (hastyBlock p).nBits = getNextTargetRequired
      (if (hastyBlock p).isProofOfStake then bnProofOfStakeLimit else params.proofOfWorkLimit) p
      (decide (hastyBlock p).isProofOfStake) := by
    rw [if_neg hpow, decide_eq_false hpow]
    rfl
  have hsync : checkSync p (p.nHeight + 1) :=
    Nat.lt_succ_of_le (syncCheckpointFrom_height_le p.nHeight p)
  unfold checkAccept
  dsimp only
  rw [mapBlockIndex_hastyState, mapBlockIndex_hastyBlock hhash]
  refine bind_check_eq_ok.2 ⟨rejectIf_eq_ok.2 (lt_irrefl 7), bind_check_eq_ok.2
    ⟨rejectIf_eq_ok.2 nofun, bind_check_eq_ok.2 ⟨rejectIf_eq_ok.2 (lt_irrefl 7), bind_check_eq_ok.2
    ⟨rejectIf_eq_ok.2 fun h ↦ ?_, bind_check_eq_ok.2 ⟨rejectIf_eq_ok.2 (not_lt.2 ?_),
    bind_check_eq_ok.2 ⟨rejectIf_eq_ok.2 fun h ↦ hpow h.1, bind_check_eq_ok.2
    ⟨rejectIf_eq_ok.2 (not_not.2 hbits), bind_check_eq_ok.2 ⟨rejectIf_eq_ok.2 ?_, bind_check_eq_ok.2
    ⟨rejectIf_eq_ok.2 ?_, bind_check_eq_ok.2 ⟨rejectIf_eq_ok.2 (not_not.2 ?_), ?_⟩⟩⟩⟩⟩⟩⟩⟩⟩⟩
  · have hlt : 0x7fffffff < p.nHeight + 1 := h.2
    omega
  · show ((p.val.nTime + 1 : ℕ) : ℤ) ≤ (p.val.nTime + 1 : ℕ) + 10 * 60
    omega
  · show ¬ (((p.val.nTime + 1 : ℕ) : ℤ) ≤ p.val.nTime ∨
      ((p.val.nTime + 1 : ℕ) : ℤ) + 10 * 60 < p.val.nTime)
    omega
  · rintro ⟨tx, hmem, hfinal⟩
    rw [List.mem_singleton.1 hmem] at hfinal
    exact hfinal (.inl rfl)
  · exact fun i hi ↦ absurd hi (List.not_mem_nil)
  · rw [proofHash, if_neg hpow]
    refine bind_eq_ok.2 ⟨0, rfl, bind_check_eq_ok.2 ⟨rejectIf_eq_ok.2 (not_not.2 hsync),
      bind_check_eq_ok.2 ⟨rejectIf_eq_ok.2 (not_not.2 ?_), rfl⟩⟩⟩
    exact ⟨_, rfl, List.prefix_append _ _⟩

theorem accepted_hasty {n : ℕ} (hn : n < 2 ^ 31) : AcceptedChain params (hasty n) := by
  induction n with
  | zero =>
    obtain ⟨e, he⟩ : ∃ e, hasty 0 = .root e := ⟨(hasty 0).val, by decide +kernel⟩
    rw [he]
    exact .first e
  | succ n ih =>
    obtain ⟨hheight, -, hhash⟩ := hasty_eq n
    have hnew : newBlockIndex params (hastyState (hasty n)) (hastyBlock (hasty n)) 1 0 0 =
        .ok (hasty (n + 1)) := by
      unfold newBlockIndex
      dsimp only
      rw [mapBlockIndex_hastyState, mapBlockIndex_hastyBlock hhash]
      exact bind_check_eq_ok.2 ⟨rejectIf_eq_ok.2 nofun, rfl⟩
    exact .next (ih (by omega)) (mapBlockIndex_hastyState _)
      (checkAccept_hastyBlock (by omega) hhash) hnew

/-- The next target after a spacing of one second. -/
def nextHasty (nBits : ℕ) : ℕ :=
  getCompact (if (setCompact nBits * (840 + 2 * 1)).tdiv 1080 ≤ 0 ∨
    params.proofOfWorkLimit < (setCompact nBits * (840 + 2 * 1)).tdiv 1080 then
      params.proofOfWorkLimit
    else (setCompact nBits * (840 + 2 * 1)).tdiv 1080)

theorem getLastBlockIndex_hasty : ∀ n, getLastBlockIndex false (hasty n) = hasty n
  | 0 => by decide +kernel
  | n + 1 => if_neg fun h ↦ h (decide_eq_false (mt (isProofOfStake_newBlockEntry (hastyBlock (hasty n))
      1 0 0 (some (hasty n)) false).1 (not_isProofOfStake_hastyBlock _)))

theorem lastTwo_hasty (n : ℕ) : LastTwo false (hasty (n + 2)) (hasty (n + 2)) (hasty (n + 1)) :=
  ⟨getLastBlockIndex_hasty _, ⟨hasty (n + 1), rfl, getLastBlockIndex_hasty _⟩, rfl⟩

theorem spacing_hasty (n : ℕ) :
    (hasty (n + 1)).getBlockTime - (hasty n).getBlockTime = 1 := by
  have htime : (hasty n).getBlockTime = n := congrArg Nat.cast (hasty_eq n).2.1
  have htime' : (hasty (n + 1)).getBlockTime = (n + 1 : ℕ) := congrArg Nat.cast (hasty_eq _).2.1
  omega

theorem nextTarget_hasty (n : ℕ) :
    nextTarget params.proofOfWorkLimit (hasty (n + 2)) (hasty (n + 1)) =
      nextHasty (hasty (n + 2)).nBits := by
  refine nextTarget_eq rfl ?_
  rw [spacing_hasty]
  rfl

theorem nBits_hasty (n : ℕ) :
    (hasty (n + 2)).nBits = nextHasty^[n] (getCompact params.proofOfWorkLimit) := by
  induction n with
  | zero => decide +kernel
  | succ n ih =>
    rw [Function.iterate_succ_apply', ← ih, ← nextTarget_hasty]
    exact getNextTargetRequired_of_lastTwo _ (lastTwo_hasty n)

/-- From the limit it takes 663 such steps to the target 1; the kernel takes a few at a time. -/
theorem nextHasty_iterate :
    nextHasty^[663] (getCompact params.proofOfWorkLimit) = getCompact 1 := by
  have h₁ : nextHasty^[111] (getCompact params.proofOfWorkLimit) = 0x1a011921 := by decide +kernel
  have h₂ : nextHasty^[111] 0x1a011921 = 0x150134be := by decide +kernel
  have h₃ : nextHasty^[111] 0x150134be = 0x1001530d := by decide +kernel
  have h₄ : nextHasty^[111] 0x1001530d = 0x0b017454 := by decide +kernel
  have h₅ : nextHasty^[111] 0x0b017454 = 0x060198e4 := by decide +kernel
  have h₆ : nextHasty^[108] 0x060198e4 = getCompact 1 := by decide +kernel
  rw [show 663 = 108 + 111 + 111 + 111 + 111 + 111 from rfl]
  simp only [Function.iterate_add_apply, h₁, h₂, h₃, h₄, h₅, h₆]

/-- The chain comes to the target 1. -/
theorem exists_hasty_one : ∃ n, n + 2 < 2 ^ 31 ∧ setCompact (hasty (n + 2)).nBits = 1 := by
  refine ⟨663, by norm_num, ?_⟩
  rw [nBits_hasty, nextHasty_iterate]
  decide

end Sample

theorem getNextTargetRequired_of_accepted_sample : ∃ n,
    setCompact (Sample.hasty (n + 2)).nBits = 1 ∧
      setCompact (getNextTargetRequired (targetLimit Sample.params false)
        (Sample.hasty (n + 2)) false) = compactFloor (targetLimit Sample.params false) := by
  obtain ⟨n, hn, hone⟩ := Sample.exists_hasty_one
  have hlast := (getNextTargetRequired_of_accepted (Sample.accepted_hasty hn) (by decide)
    false).2.2 _ _ (Sample.lastTwo_hasty n)
  rw [if_pos ⟨hone, by rw [Sample.spacing_hasty]; decide⟩] at hlast
  exact ⟨n, hone, hlast⟩

/-- In a chain of blocks a second apart the target 1 is followed by the limit: it is in range, but it is
reached in one step from less than a third of it. -/
theorem not_bounded_of_one : ¬ ∀ (P : Params) (pindexLast : CBlockIndex) (fProofOfStake : Bool)
    (pindexPrev pindexPrevPrev : CBlockIndex), 0 < P.proofOfWorkLimit →
      AcceptedChain P pindexLast →
      LastTwo fProofOfStake pindexLast pindexPrev pindexPrevPrev →
        let bnTargetLimit := targetLimit P fProofOfStake
        let t := setCompact (getNextTargetRequired bnTargetLimit pindexLast fProofOfStake)
        let p := setCompact pindexPrev.nBits
        (0 < t ∧ t ≤ bnTargetLimit) ∧
          (t = compactFloor bnTargetLimit ∨ compactFloor (p * 842 / 1080) ≤ t ∧ t ≤ 3 * p) ∧
          (t = compactFloor bnTargetLimit → t ≤ 3 * p) := by
  intro h
  obtain ⟨n, hn, hone⟩ := Sample.exists_hasty_one
  obtain ⟨-, -, hjump⟩ := h Sample.params _ false _ _ (by decide) (Sample.accepted_hasty hn)
    (Sample.lastTwo_hasty n)
  have hlimit : targetLimit Sample.params false = Sample.params.proofOfWorkLimit := rfl
  rw [hlimit, getNextTargetRequired_of_lastTwo _ (Sample.lastTwo_hasty n),
    Sample.nextTarget_hasty, Sample.nextHasty, hone] at hjump
  exact absurd hjump (by decide +kernel)

end Bws
