import Bws.BigNum
import Bws.Target

/-!
# The compact form, byte by byte

`SetCompact` and `GetCompact` work on the bytes of the MPI format.  On numbers of at most 255 bytes
they compute what `setCompact` and `getCompact` say in terms of shifts (`setCompact_eq`,
`getCompact_eq`), and so the value that is decoded is the number with all but its three leading
bytes cleared (`compact_precision`).
-/

namespace Bws

open Chain (Node)
open SignMagnitude (decode encode)

namespace CBigNum

/-- The bytes that `SetCompact` hands over: up to three of the word, then zeros. -/
def compactBytes (nCompact : ℕ) : List UInt8 :=
  let nSize := nCompact >>> 24
  [UInt8.ofNat (nCompact >>> 16 &&& 0xff), UInt8.ofNat (nCompact >>> 8 &&& 0xff),
    UInt8.ofNat (nCompact &&& 0xff)].take nSize ++ List.replicate (nSize - 3) 0

/-- `CBigNum::SetCompact` -/
def setCompact (nCompact : ℕ) : ℤ := mpi2bn (compactBytes nCompact)

/-- `CBigNum::GetCompact`, in 32 bits. -/
def getCompact (bn : ℤ) : ℕ :=
  let vch := bn2mpi bn
  let nSize := vch.length
  let nCompact := (nSize <<< 24) % 2 ^ 32
  let nCompact := if 1 ≤ nSize then nCompact ||| (vch.getD 0 0).toNat <<< 16 else nCompact
  let nCompact := if 2 ≤ nSize then nCompact ||| (vch.getD 1 0).toNat <<< 8 else nCompact
  if 3 ≤ nSize then nCompact ||| (vch.getD 2 0).toNat else nCompact

end CBigNum

/-! ## The size -/

/-- The number of bytes is the one that the size of the number asks for. -/
theorem length_encode_natAbs (x : ℤ) : (encode x).length = mpiSize x.natAbs := by
  by_cases hx : x = 0
  · subst hx
    rw [SignMagnitude.encode_zero]
    rfl
  have hpos : 0 < x.natAbs := Int.natAbs_pos.2 hx
  apply le_antisymm
  · exact SignMagnitude.length_encode_le (lt_mpiSize hpos)
  · by_contra hlt
    have hle : 2 ^ (8 * (encode x).length - 1) ≤ 2 ^ (8 * (mpiSize x.natAbs - 1) - 1) :=
      Nat.pow_le_pow_right Nat.two_pos (by omega)
    have hless := SignMagnitude.natAbs_lt_two_pow x
    exact absurd (hle.trans (le_mpiSize hpos)) (not_le.2 hless)

theorem length_bn2mpi (x : ℤ) : (CBigNum.bn2mpi x).length = mpiSize x.natAbs := by
  rw [CBigNum.bn2mpi, List.length_reverse, length_encode_natAbs]

/-! ## GetCompact -/

/-- The three leading bytes of a string of bytes that is written with the lowest first. -/
def leadingWord (l : List UInt8) : ℕ :=
  Codec.ofLE l / 256 ^ (l.length - 3) * 256 ^ (3 - l.length)

theorem or_bytes {a b c : ℕ} (hb : b < 256) (hc : c < 256) :
    a <<< 16 ||| b <<< 8 ||| c = a * 65536 + b * 256 + c := by
  rw [Nat.or_assoc, ← Nat.shiftLeft_add_eq_or_of_lt (by omega : c < 2 ^ 8),
    ← Nat.shiftLeft_add_eq_or_of_lt (by rw [Nat.shiftLeft_eq]; omega), Nat.shiftLeft_eq,
    Nat.shiftLeft_eq]
  omega

/-- The bytes that `GetCompact` puts in its word. -/
theorem getCompact_eq_leadingWord {x : ℤ} (h : (CBigNum.bn2mpi x).length ≤ 255) :
    CBigNum.getCompact x = (encode x).length <<< 24 ||| leadingWord (encode x) := by
  rw [CBigNum.bn2mpi, List.length_reverse] at h
  have hsize : ((encode x).length <<< 24) % 2 ^ 32 = (encode x).length <<< 24 := by
    rw [Nat.shiftLeft_eq]
    omega
  unfold CBigNum.getCompact CBigNum.bn2mpi
  simp only [List.length_reverse, hsize]
  generalize encode x = l
  rcases List.eq_nil_or_concat' l with rfl | ⟨l, a, rfl⟩
  · rfl
  rcases List.eq_nil_or_concat' l with rfl | ⟨l, b, rfl⟩
  · have hword : leadingWord [a] = a.toNat <<< 16 := by
      rw [Nat.shiftLeft_eq]
      show Codec.ofLE [a] / 1 * 65536 = _
      rw [SignMagnitude.ofLE_singleton, Nat.div_one]
    rw [List.nil_append, hword]
    rfl
  rcases List.eq_nil_or_concat' l with rfl | ⟨l, c, rfl⟩
  · have hword : leadingWord [b, a] = a.toNat <<< 16 ||| b.toNat <<< 8 ||| 0 := by
      have hb := b.toNat_lt
      rw [or_bytes hb (by decide)]
      show Codec.ofLE ([b] ++ [a]) / 1 * 256 = _
      rw [SignMagnitude.ofLE_append, SignMagnitude.ofLE_singleton, SignMagnitude.ofLE_singleton,
        Nat.div_one]
      simp only [List.length_singleton]
      omega
    rw [List.nil_append, List.singleton_append, hword, Nat.or_zero, ← Nat.or_assoc]
    rfl
  · have hword : leadingWord (l ++ [c] ++ [b] ++ [a]) =
        a.toNat <<< 16 ||| b.toNat <<< 8 ||| c.toNat := by
      have hb := b.toNat_lt
      have hc := c.toNat_lt
      have hdrop : (l ++ [c] ++ [b] ++ [a]).drop l.length = [c] ++ [b] ++ [a] := by
        rw [List.append_assoc, List.append_assoc, List.drop_left]
        rfl
      rw [or_bytes hb hc, leadingWord, ← SignMagnitude.ofLE_drop]
      simp only [List.length_append, List.length_singleton]
      rw [show l.length + 1 + 1 + 1 - 3 = l.length by omega, hdrop,
        show 3 - (l.length + 1 + 1 + 1) = 0 by omega, SignMagnitude.ofLE_concat,
        SignMagnitude.ofLE_concat, SignMagnitude.ofLE_singleton]
      simp only [List.length_append, List.length_singleton]
      omega
    rw [hword, List.reverse_append, List.reverse_append, List.reverse_append]
    simp only [List.reverse_singleton, List.length_append, List.length_singleton,
      List.singleton_append, List.getD_cons_zero, List.getD_cons_succ, Nat.or_assoc]
    rw [if_pos (by omega), if_pos (by omega), if_pos (by omega), Nat.or_assoc, Nat.or_assoc]

/-- The word has the sign in its first bit. -/
theorem leadingWord_encode (x : ℤ) : leadingWord (encode x) =
    (if mpiSize x.natAbs ≤ 3 then x.natAbs <<< (8 * (3 - mpiSize x.natAbs))
      else x.natAbs >>> (8 * (mpiSize x.natAbs - 3))) + if x < 0 then 2 ^ 23 else 0 := by
  rw [leadingWord, SignMagnitude.ofLE_encode, length_encode_natAbs]
  have hpos : x < 0 → 0 < mpiSize x.natAbs := fun h ↦ mpiSize_pos (by omega)
  generalize mpiSize x.natAbs = s at hpos ⊢
  rw [← SignMagnitude.two_pow_eight_mul, ← SignMagnitude.two_pow_eight_mul]
  by_cases hs : s ≤ 3
  · rw [if_pos hs, Nat.sub_eq_zero_of_le hs, mul_zero, pow_zero, Nat.div_one, Nat.shiftLeft_eq,
      add_mul]
    congr 1
    split
    · rename_i hneg
      have := hpos hneg
      rw [← pow_add]
      congr 1
      omega
    · rw [zero_mul]
  · rw [if_neg hs, Nat.sub_eq_zero_of_le (by omega : 3 ≤ s), mul_zero, pow_zero, mul_one,
      Nat.shiftRight_eq_div_pow]
    split
    · rw [show 8 * s - 1 = 23 + 8 * (s - 3) by omega, pow_add,
        Nat.add_mul_div_right _ _ (Nat.two_pow_pos _)]
    · rfl

/-- `GetCompact` of a number of at most 255 bytes. -/
theorem getCompact_eq {x : ℤ} (h : (CBigNum.bn2mpi x).length ≤ 255) :
    CBigNum.getCompact x = getCompact x := by
  rw [getCompact_eq_leadingWord h, leadingWord_encode, length_encode_natAbs]
  have hlt := word_lt x.natAbs
  unfold getCompact
  dsimp only
  generalize (if mpiSize x.natAbs ≤ 3 then x.natAbs <<< (8 * (3 - mpiSize x.natAbs))
    else x.natAbs >>> (8 * (mpiSize x.natAbs - 3))) = w at hlt ⊢
  split
  · rw [Nat.or_comm w, show 0x00800000 = 1 <<< 23 from rfl,
      ← Nat.shiftLeft_add_eq_or_of_lt hlt, Nat.add_comm w]
    rfl
  · rfl

/-! ## SetCompact -/

section

variable {nCompact : ℕ}

/-- A byte of the word. -/
theorem toNat_byte (k : ℕ) :
    (UInt8.ofNat (nCompact >>> k &&& 0xff)).toNat = nCompact / 2 ^ k % 256 := by
  rw [show 0xff = 2 ^ 8 - 1 from rfl, Nat.and_two_pow_sub_one_eq_mod,
    UInt8.toNat_ofNat_of_lt' (Nat.mod_lt _ (by decide)), Nat.shiftRight_eq_div_pow]

/-- The sign bit of the word is the first bit of its highest byte. -/
theorem sign_iff : nCompact &&& 0x00800000 ≠ 0 ↔
    (0x80 : UInt8) ≤ UInt8.ofNat (nCompact >>> 16 &&& 0xff) := by
  rw [UInt8.le_iff_toNat_le, toNat_byte, show 0x00800000 = 2 ^ 23 from rfl, Nat.and_two_pow,
    Nat.testBit_eq_decide_div_mod_eq]
  by_cases h : nCompact / 2 ^ 23 % 2 = 1
  · simp only [h, decide_true, Bool.toNat_true, one_mul]
    refine iff_of_true (by decide) ?_
    show 128 ≤ _
    omega
  · simp only [h, decide_false, Bool.toNat_false, zero_mul]
    refine iff_of_false (by decide) ?_
    show ¬ 128 ≤ _
    omega

/-- The number that the bytes of the word stand for: its highest byte and those below. -/
theorem setCompact_of_take {s : ℕ} (hs : nCompact >>> 24 = s) (l : List UInt8)
    (hl : [UInt8.ofNat (nCompact >>> 16 &&& 0xff), UInt8.ofNat (nCompact >>> 8 &&& 0xff),
      UInt8.ofNat (nCompact &&& 0xff)].take s =
        UInt8.ofNat (nCompact >>> 16 &&& 0xff) :: l.reverse) :
    CBigNum.setCompact nCompact = if nCompact &&& 0x00800000 ≠ 0
      then -(((Codec.ofLE l + 256 ^ l.length * (nCompact / 2 ^ 16 % 128)) *
        256 ^ (s - 3) : ℕ) : ℤ)
      else (((Codec.ofLE l + 256 ^ l.length * (nCompact / 2 ^ 16 % 128)) *
        256 ^ (s - 3) : ℕ) : ℤ) := by
  have hmod : (UInt8.ofNat (nCompact >>> 16 &&& 0xff)).toNat % 128 = nCompact / 2 ^ 16 % 128 := by
    rw [toNat_byte]
    omega
  rw [CBigNum.setCompact, CBigNum.mpi2bn, CBigNum.compactBytes, hs, hl, List.reverse_append,
    List.reverse_replicate, List.reverse_cons, List.reverse_reverse,
    SignMagnitude.decode_replicate_append, SignMagnitude.decode_concat, hmod,
    if_congr sign_iff rfl rfl]
  split
  · push_cast
    ring
  · push_cast
    ring

/-- `SetCompact` is what the shifts say. -/
theorem setCompact_eq (nCompact : ℕ) : CBigNum.setCompact nCompact = setCompact nCompact := by
  have hword : nCompact &&& 0x007fffff = nCompact % 2 ^ 23 := by
    rw [show 0x007fffff = 2 ^ 23 - 1 from rfl, Nat.and_two_pow_sub_one_eq_mod]
  have hbyte₀ : (UInt8.ofNat (nCompact &&& 0xff)).toNat = nCompact % 256 := by
    have h := @toNat_byte nCompact 0
    rwa [Nat.shiftRight_zero, pow_zero, Nat.div_one] at h
  unfold setCompact
  dsimp only
  rw [hword]
  rcases hs : nCompact >>> 24 with - | - | - | s
  · have hzero : (nCompact % 2 ^ 23) >>> (8 * (3 - 0)) = 0 := by
      rw [Nat.shiftRight_eq_div_pow]
      omega
    rw [CBigNum.setCompact, CBigNum.compactBytes, hs, if_neg (fun h ↦ h.1 rfl), if_pos (by decide),
      hzero]
    rfl
  · have hmagnitude : (if 0 + 1 ≤ 3 then (nCompact % 2 ^ 23) >>> (8 * (3 - (0 + 1)))
        else (nCompact % 2 ^ 23) <<< (8 * (0 + 1 - 3))) =
        (Codec.ofLE [] + 256 ^ 0 * (nCompact / 2 ^ 16 % 128)) * 256 ^ (0 + 1 - 3) := by
      rw [if_pos (by decide), Nat.shiftRight_eq_div_pow, SignMagnitude.ofLE_nil]
      omega
    rw [setCompact_of_take hs [] rfl, hmagnitude]
    simp only [List.length_nil, ne_eq, Nat.succ_ne_zero, not_false_eq_true, true_and]
  · have hmagnitude : (if 0 + 1 + 1 ≤ 3 then (nCompact % 2 ^ 23) >>> (8 * (3 - (0 + 1 + 1)))
        else (nCompact % 2 ^ 23) <<< (8 * (0 + 1 + 1 - 3))) =
        (Codec.ofLE [UInt8.ofNat (nCompact >>> 8 &&& 0xff)] +
          256 ^ 1 * (nCompact / 2 ^ 16 % 128)) * 256 ^ (0 + 1 + 1 - 3) := by
      rw [if_pos (by decide), SignMagnitude.ofLE_singleton, toNat_byte, Nat.shiftRight_eq_div_pow]
      omega
    rw [setCompact_of_take hs [UInt8.ofNat (nCompact >>> 8 &&& 0xff)] rfl, hmagnitude]
    simp only [List.length_singleton, ne_eq, Nat.succ_ne_zero, not_false_eq_true, true_and]
  · have hvalue : Codec.ofLE
        [UInt8.ofNat (nCompact &&& 0xff), UInt8.ofNat (nCompact >>> 8 &&& 0xff)] +
        256 ^ 2 * (nCompact / 2 ^ 16 % 128) = nCompact % 2 ^ 23 := by
      rw [← List.singleton_append, SignMagnitude.ofLE_append, SignMagnitude.ofLE_singleton,
        SignMagnitude.ofLE_singleton, hbyte₀, toNat_byte, List.length_singleton]
      omega
    have hmagnitude : (if s + 1 + 1 + 1 ≤ 3 then (nCompact % 2 ^ 23) >>> (8 * (3 - (s + 1 + 1 + 1)))
        else (nCompact % 2 ^ 23) <<< (8 * (s + 1 + 1 + 1 - 3))) = nCompact % 2 ^ 23 * 256 ^ s := by
      rw [show s + 1 + 1 + 1 - 3 = s by omega, Nat.shiftLeft_eq, SignMagnitude.two_pow_eight_mul]
      split
      · rw [show s = 0 by omega, pow_zero, mul_one]
        rfl
      · rfl
    rw [setCompact_of_take hs
      [UInt8.ofNat (nCompact &&& 0xff), UInt8.ofNat (nCompact >>> 8 &&& 0xff)]
      (List.take_of_length_le (by simp)), hmagnitude, show s + 1 + 1 + 1 - 3 = s by omega]
    simp only [List.length_cons, List.length_nil, zero_add, Nat.reduceAdd, hvalue, ne_eq,
      Nat.succ_ne_zero, not_false_eq_true, true_and]

end

/-! ## Precision -/

theorem compact_unit_mul {n : ℕ} (h : 3 ≤ mpiSize n) :
    compact.unit (compact.size n) * 2 ^ 15 = compact.low (compact.size n) := by
  show 2 ^ (8 * (mpiSize n - 3)) * 2 ^ 15 = 2 ^ (8 * (mpiSize n - 1) - 1)
  rw [← pow_add]
  congr 1
  omega

/-- No more than one part in `2 ^ 15` is cut. -/
theorem le_compact_cut (n : ℕ) : (2 ^ 15 - 1) * n ≤ 2 ^ 15 * compact.cut n := by
  rcases Nat.eq_zero_or_pos n with rfl | hn
  · exact Nat.zero_le _
  by_cases hsize : mpiSize n < 3
  · have hcut : compact.cut n = n := by
      show n / 2 ^ (8 * (mpiSize n - 3)) * 2 ^ (8 * (mpiSize n - 3)) = n
      rw [Nat.sub_eq_zero_of_le hsize.le, mul_zero, pow_zero, Nat.div_one, mul_one]
    rw [hcut]
    exact Nat.mul_le_mul_right _ (by decide)
  · have hlow := compact.low_size_le hn
    have hrest : n < compact.cut n + compact.unit (compact.size n) :=
      Nat.lt_div_mul_add (Nat.two_pow_pos _)
    rw [← compact_unit_mul (not_lt.1 hsize)] at hlow
    omega

theorem mpiSize_cut (n : ℕ) : mpiSize (compact.cut n) = mpiSize n := by
  rcases Nat.eq_zero_or_pos n with rfl | hn
  · rfl
  apply le_antisymm (mpiSize_mono (compact.cut_le n))
  by_contra hlt
  exact absurd (compact.low_le_cut hn) (not_le.2 (compact.lt_low (not_le.1 hlt)))

/-- What is cut keeps its compact form. -/
theorem getCompact_cut (n : ℕ) : getCompact (compact.cut n) = getCompact n := by
  have hword : (if mpiSize n ≤ 3 then compact.cut n <<< (8 * (3 - mpiSize n))
      else compact.cut n >>> (8 * (mpiSize n - 3))) =
      if mpiSize n ≤ 3 then n <<< (8 * (3 - mpiSize n)) else n >>> (8 * (mpiSize n - 3)) := by
    have hcut : compact.cut n = n / 2 ^ (8 * (mpiSize n - 3)) * 2 ^ (8 * (mpiSize n - 3)) := rfl
    split_ifs with hsize
    · rw [hcut, Nat.sub_eq_zero_of_le hsize, mul_zero, pow_zero, Nat.div_one, mul_one]
    · rw [hcut, Nat.shiftRight_eq_div_pow, Nat.shiftRight_eq_div_pow,
        Nat.mul_div_cancel _ (Nat.two_pow_pos _)]
  have hneg : ∀ k : ℕ, ¬ (k : ℤ) < 0 := fun k ↦ by omega
  unfold getCompact
  simp only [Int.natAbs_natCast, mpiSize_cut, hword, hneg, if_false]

theorem getCompact_natCast (n : ℕ) : getCompact n = mpiSize n * 2 ^ 24 +
    if mpiSize n ≤ 3 then n <<< (8 * (3 - mpiSize n)) else n >>> (8 * (mpiSize n - 3)) := by
  have hlt := word_lt n
  unfold getCompact
  simp only [Int.natAbs_natCast]
  rw [if_neg (by omega), ← Nat.shiftLeft_add_eq_or_of_lt (by omega), Nat.shiftLeft_eq]

theorem getCompact_mono {n m : ℕ} (h : n ≤ m) : getCompact n ≤ getCompact m := by
  rw [getCompact_natCast, getCompact_natCast]
  rcases (mpiSize_mono h).eq_or_lt with heq | hlt
  · rw [heq]
    refine Nat.add_le_add_left ?_ _
    split_ifs
    · rw [Nat.shiftLeft_eq, Nat.shiftLeft_eq]
      exact Nat.mul_le_mul_right _ h
    · rw [Nat.shiftRight_eq_div_pow, Nat.shiftRight_eq_div_pow]
      exact Nat.div_le_div_right h
  · have hword := word_lt n
    have hsize : (mpiSize n + 1) * 2 ^ 24 ≤ mpiSize m * 2 ^ 24 := Nat.mul_le_mul_right _ hlt
    omega

section

variable {x y : ℤ}

theorem length_bn2mpi_mono (hx : 0 ≤ x) (h : x ≤ y) :
    (CBigNum.bn2mpi x).length ≤ (CBigNum.bn2mpi y).length := by
  rw [length_bn2mpi, length_bn2mpi]
  exact mpiSize_mono (by omega)

/-- The number with all but its three leading bytes cleared. -/
theorem mpi2bn_take (hx : 0 ≤ x) : CBigNum.mpi2bn ((CBigNum.bn2mpi x).take 3 ++
    List.replicate ((CBigNum.bn2mpi x).length - 3) 0) = compactFloor x := by
  rcases hx.eq_or_lt with rfl | hpos
  · rfl
  obtain ⟨n, rfl⟩ := Int.eq_ofNat_of_zero_le hx
  have hlen : 0 < (encode n).length := by
    rw [length_encode_natAbs]
    exact mpiSize_pos (by omega)
  rw [CBigNum.mpi2bn, List.reverse_append, List.reverse_replicate, CBigNum.bn2mpi,
    List.take_reverse, List.reverse_reverse, SignMagnitude.decode_replicate_append,
    List.length_reverse, SignMagnitude.decode_drop_encode hpos (by omega), length_encode_natAbs,
    Int.natAbs_natCast]
  show _ = ((n / 2 ^ (8 * (mpiSize n - 3)) * 2 ^ (8 * (mpiSize n - 3)) : ℕ) : ℤ)
  rw [SignMagnitude.two_pow_eight_mul, mul_comm]
  push_cast
  rfl

theorem setCompact_getCompact_eq (hx : 0 ≤ x) (hlen : (CBigNum.bn2mpi x).length ≤ 255) :
    CBigNum.setCompact (CBigNum.getCompact x) = compactFloor x := by
  rw [getCompact_eq hlen, setCompact_eq, setCompact_getCompact_of_nonneg hx]

theorem compactFloor_nonneg (x : ℤ) : 0 ≤ compactFloor x := Int.natCast_nonneg _

theorem getCompact_compactFloor (hx : 0 ≤ x) : getCompact (compactFloor x) = getCompact x := by
  obtain ⟨n, rfl⟩ := Int.eq_ofNat_of_zero_le hx
  exact getCompact_cut n

/-- The compact form is a fixed point of decoding and encoding. -/
theorem getCompact_setCompact (hx : 0 ≤ x) (hlen : (CBigNum.bn2mpi x).length ≤ 255) :
    CBigNum.getCompact (CBigNum.setCompact (CBigNum.getCompact x)) = CBigNum.getCompact x := by
  have hfloor := (length_bn2mpi_mono (compactFloor_nonneg x) (compactFloor_le hx)).trans hlen
  rw [setCompact_getCompact_eq hx hlen, getCompact_eq hfloor, getCompact_eq hlen,
    getCompact_compactFloor hx]

end

/-- The next target is the compact form of a number up to the limit. -/
theorem exists_getNextTargetRequired_eq {bnTargetLimit : ℤ} (hlimit : 0 ≤ bnTargetLimit)
    (fProofOfStake : Bool) (pindexLast : CBlockIndex) : ∃ x, 0 ≤ x ∧ x ≤ bnTargetLimit ∧
      getNextTargetRequired bnTargetLimit pindexLast fProofOfStake = getCompact x := by
  rw [getNextTargetRequired]
  dsimp only
  split
  · exact ⟨_, hlimit, le_rfl, rfl⟩
  · split
    · exact ⟨_, hlimit, le_rfl, rfl⟩
    · rw [nextTarget_eq rfl rfl]
      split_ifs with hout
      · exact ⟨_, hlimit, le_rfl, rfl⟩
      · exact ⟨_, by omega, by omega, rfl⟩

/-- **The compact form keeps the three leading bytes.**  What is decoded is the number with all the
bytes below them cleared, and encodes to the same form; the form is monotone; and a target that
`GetNextTargetRequired` asks for is decoded and encoded without loss. -/
theorem compact_precision :
    (∀ x : ℤ, 0 ≤ x → (CBigNum.bn2mpi x).length ≤ 255 →
      CBigNum.setCompact (CBigNum.getCompact x) = CBigNum.mpi2bn ((CBigNum.bn2mpi x).take 3 ++
        List.replicate ((CBigNum.bn2mpi x).length - 3) 0) ∧
      CBigNum.setCompact (CBigNum.getCompact x) ≤ x ∧
      (2 ^ 15 - 1) * x ≤ 2 ^ 15 * CBigNum.setCompact (CBigNum.getCompact x) ∧
      CBigNum.getCompact (CBigNum.setCompact (CBigNum.getCompact x)) = CBigNum.getCompact x) ∧
    (∀ x y : ℤ, 0 ≤ x → x ≤ y → (CBigNum.bn2mpi y).length ≤ 255 →
      CBigNum.getCompact x ≤ CBigNum.getCompact y) ∧
    ∀ (bnTargetLimit : ℤ) (pindexLast : CBlockIndex) (fProofOfStake : Bool), 0 ≤ bnTargetLimit →
      (CBigNum.bn2mpi bnTargetLimit).length ≤ 255 →
        CBigNum.getCompact (CBigNum.setCompact
          (getNextTargetRequired bnTargetLimit pindexLast fProofOfStake)) =
            getNextTargetRequired bnTargetLimit pindexLast fProofOfStake := by
  refine ⟨fun x hx hlen ↦ ?_, fun x y hx hxy hlen ↦ ?_,
    fun limit pindexLast fStake hlimit hlen ↦ ?_⟩
  · refine ⟨?_, ?_, ?_, getCompact_setCompact hx hlen⟩
    · rw [setCompact_getCompact_eq hx hlen, mpi2bn_take hx]
    · rw [setCompact_getCompact_eq hx hlen]
      exact compactFloor_le hx
    · rw [setCompact_getCompact_eq hx hlen]
      obtain ⟨n, rfl⟩ := Int.eq_ofNat_of_zero_le hx
      have hcut := le_compact_cut n
      show _ ≤ 2 ^ 15 * ((compact.cut n : ℕ) : ℤ)
      omega
  · rw [getCompact_eq ((length_bn2mpi_mono hx hxy).trans hlen), getCompact_eq hlen]
    obtain ⟨n, rfl⟩ := Int.eq_ofNat_of_zero_le hx
    obtain ⟨m, rfl⟩ := Int.eq_ofNat_of_zero_le (hx.trans hxy)
    exact getCompact_mono (Int.ofNat_le.1 hxy)
  · obtain ⟨x, hx, hle, heq⟩ := exists_getNextTargetRequired_eq hlimit fStake pindexLast
    have hsize := (length_bn2mpi_mono hx hle).trans hlen
    rw [heq, ← getCompact_eq hsize]
    exact getCompact_setCompact hx hsize

/-- At a number whose first bit is set, and at the first block. -/
theorem compact_precision_sample :
    (CBigNum.setCompact (CBigNum.getCompact 0x800001ff) = CBigNum.mpi2bn [0, 0x80, 0, 0, 0] ∧
      CBigNum.getCompact (CBigNum.setCompact (CBigNum.getCompact 0x800001ff)) =
        CBigNum.getCompact 0x800001ff) ∧
    CBigNum.getCompact 0x7fffff ≤ CBigNum.getCompact 0x800000 ∧
    CBigNum.getCompact (CBigNum.setCompact
      (getNextTargetRequired bnProofOfStakeLimit (Sample.indexOf .init Sample.genesis) true)) =
        getNextTargetRequired bnProofOfStakeLimit (Sample.indexOf .init Sample.genesis) true := by
  obtain ⟨hfloor, -, -, hfixed⟩ := compact_precision.1 0x800001ff (by decide) (by decide +kernel)
  refine ⟨⟨hfloor.trans (by decide +kernel), hfixed⟩,
    compact_precision.2.1 _ _ (by decide) (by decide) (by decide +kernel),
    compact_precision.2.2 _ _ _ (by decide) (by decide +kernel)⟩

end Bws
