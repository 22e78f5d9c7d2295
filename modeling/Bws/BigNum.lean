import Bws.Interpreter
import Bws.Lib.SignMagnitude

/-!
# The bytes of big numbers

`CBigNum` passes integers to and from OpenSSL in the MPI format: the magnitude with its highest byte
first and the sign in the first bit.  The four bytes of the length in front of it are left out here.
`getvch` and `setvch` turn the bytes around, and `setint64` and `setuint64` write them by hand from
a machine word.
-/

namespace Bws

open SignMagnitude (decode encode)

theorem leNat_eq_ofLE (l : List UInt8) : leNat l = Codec.ofLE l := by
  induction l with
  | nil => rfl
  | cons b l ih =>
    rw [leNat, ih, Codec.ofLE, Codec.ofLE, List.map_cons, Nat.ofDigits_cons]

theorem leBytes_eq_bytes : ∀ {fuel n : ℕ}, n ≤ fuel → leBytes fuel n = SignMagnitude.bytes n := by
  intro fuel
  induction fuel with
  | zero =>
    intro n hn
    rw [Nat.le_zero.1 hn, SignMagnitude.bytes_zero]
    rfl
  | succ fuel ih =>
    intro n hn
    rw [leBytes]
    split
    · rename_i hzero
      rw [hzero, SignMagnitude.bytes_zero]
    · rename_i hzero
      rw [SignMagnitude.bytes_cons hzero, ih (by omega)]

namespace CBigNum

/-- `BN_mpi2bn` -/
def mpi2bn (d : List UInt8) : ℤ := decode d.reverse

/-- `BN_bn2mpi` -/
def bn2mpi (bn : ℤ) : List UInt8 := (encode bn).reverse

theorem mpi2bn_bn2mpi (bn : ℤ) : mpi2bn (bn2mpi bn) = bn := by
  rw [mpi2bn, bn2mpi, List.reverse_reverse, SignMagnitude.decode_encode]

theorem setvch_eq_decode (vch : valtype) : setvch vch = decode vch := by
  have hval : leNat vch = Codec.ofLE vch := leNat_eq_ofLE vch
  unfold setvch decode
  exact hval ▸ rfl

theorem getvch_eq_encode (bn : ℤ) : getvch bn = encode bn := by
  have hbytes : leBytes bn.natAbs bn.natAbs = SignMagnitude.bytes bn.natAbs :=
    leBytes_eq_bytes le_rfl
  unfold getvch encode
  exact hbytes ▸ rfl

/-- The source's `setvch` turns the bytes around. -/
theorem setvch_eq_mpi2bn (vch : valtype) : setvch vch = mpi2bn vch.reverse := by
  rw [mpi2bn, List.reverse_reverse, setvch_eq_decode]

/-- The source's `getvch` turns the bytes around. -/
theorem getvch_eq_bn2mpi (bn : ℤ) : getvch bn = (bn2mpi bn).reverse := by
  rw [bn2mpi, List.reverse_reverse, getvch_eq_encode]

@[simp] theorem setvch_getvch (bn : ℤ) : setvch (getvch bn) = bn := by
  rw [setvch_eq_decode, getvch_eq_encode, SignMagnitude.decode_encode]

/-- Every other string of bytes for a number is longer. -/
theorem eq_getvch_or_length_lt {vch : valtype} {bn : ℤ} (h : setvch vch = bn) :
    vch = getvch bn ∨ (getvch bn).length < vch.length := by
  rw [getvch_eq_encode]
  rw [setvch_eq_decode] at h
  exact SignMagnitude.eq_encode_or_length_lt h

theorem length_getvch_le {bn : ℤ} {k : ℕ} (h : bn.natAbs < 2 ^ (8 * k - 1)) :
    (getvch bn).length ≤ k := by
  rw [getvch_eq_encode]
  exact SignMagnitude.length_encode_le h

theorem natAbs_setvch_lt (vch : valtype) : (setvch vch).natAbs < 2 ^ (8 * vch.length - 1) := by
  rw [setvch_eq_decode]
  exact SignMagnitude.natAbs_decode_lt vch

end CBigNum

/-- The bytes of a height are those of the number. -/
theorem getvch_eq_encode (n : ℕ) : getvch n = encode n := by
  have hneg : ¬ (n : ℤ) < 0 := by omega
  unfold getvch encode
  rw [leBytes_eq_bytes le_rfl, Int.natAbs_natCast]
  simp only [hneg, if_false]
  rcases (SignMagnitude.bytes n).getLast? with - | b <;> rfl

/-! ## Numbers from machine words -/

namespace CBigNum

/-- The loop of `setint64` and `setuint64`: the bytes of `n` that follow, `i` of them, from the
highest of the eight bytes of the word. -/
def mpiLoop (fNegative : Bool) : ℕ → ℕ → Bool → List UInt8
  | 0, _, _ => []
  | i + 1, n, fLeadingZeroes =>
    let c := UInt8.ofNat (n >>> 56 &&& 0xff)
    let next := mpiLoop fNegative i ((n <<< 8) % 2 ^ 64)
    if fLeadingZeroes then
      if c = 0 then next true
      else if 0x80 ≤ c then (if fNegative then 0x80 else 0) :: c :: next false
      else (if fNegative then c + 0x80 else c) :: next false
    else c :: next false

/-- `CBigNum::setint64`: the magnitude of a negative number is taken in two steps, since that of the
least number is no `int64_t`. -/
def setint64 (sn : ℤ) : ℤ :=
  if sn < 0 then mpi2bn (mpiLoop true 8 ((uint64 (-(sn + 1)) + 1) % 2 ^ 64) true)
  else mpi2bn (mpiLoop false 8 (uint64 sn) true)

/-- `CBigNum::setuint64` -/
def setuint64 (n : ℕ) : ℤ := mpi2bn (mpiLoop false 8 n true)

section

variable {fNegative : Bool} {i m : ℕ}

/-- One round of the loop: the highest byte of a number of `i + 1` bytes, and the bytes below. -/
theorem mpiLoop_round (hi : i < 8) (hm : m < 256 ^ (i + 1)) :
    UInt8.ofNat ((m * 256 ^ (7 - i)) >>> 56 &&& 0xff) = UInt8.ofNat (m / 256 ^ i) ∧
      ((m * 256 ^ (7 - i)) <<< 8) % 2 ^ 64 = m % 256 ^ i * 256 ^ (8 - i) := by
  have hword : 256 ^ (7 - i) * 256 ^ i = 2 ^ 56 := by
    rw [← pow_add, Nat.sub_add_cancel (by omega)]
    rfl
  have hshift : 256 ^ (7 - i) * 256 = 256 ^ (8 - i) := by
    rw [← pow_succ, show 7 - i + 1 = 8 - i by omega]
  have hmodulus : 2 ^ 64 = 256 ^ i * 256 ^ (8 - i) := by
    rw [← pow_add, Nat.add_sub_cancel' (by omega)]
    rfl
  have hbyte : m * 256 ^ (7 - i) / 2 ^ 56 = m / 256 ^ i := by
    rw [← hword, mul_comm m, Nat.mul_div_mul_left _ _ (Nat.pow_pos (by decide))]
  have hlt : m / 256 ^ i < 256 := Nat.div_lt_of_lt_mul (by rwa [pow_succ] at hm)
  constructor
  · rw [Nat.shiftRight_eq_div_pow, hbyte, show 0xff = 2 ^ 8 - 1 from rfl,
      Nat.and_two_pow_sub_one_eq_mod, Nat.mod_eq_of_lt hlt]
  · rw [Nat.shiftLeft_eq, show 2 ^ 8 = 256 from rfl, mul_assoc, hshift, hmodulus,
      Nat.mul_mod_mul_right]

/-- After the leading zeroes every byte is written. -/
theorem mpiLoop_false (hi : i ≤ 8) (hm : m < 256 ^ i) :
    mpiLoop fNegative i (m * 256 ^ (8 - i)) false = (Codec.toLE i m).reverse := by
  induction i generalizing m with
  | zero => rfl
  | succ i ih =>
    obtain ⟨hbyte, hnext⟩ := mpiLoop_round (by omega) hm
    have hpos : 0 < 256 ^ i := Nat.pow_pos (by decide)
    have hlt : m / 256 ^ i < 256 := Nat.div_lt_of_lt_mul (by rwa [pow_succ] at hm)
    rw [mpiLoop, show 8 - (i + 1) = 7 - i by omega, hbyte, hnext, ih (by omega) (Nat.mod_lt _ hpos),
      Codec.toLE_succ, Nat.mod_eq_of_lt hlt, List.reverse_append]
    rfl

/-- A number of `i + 1` bytes whose highest is not zero. -/
theorem bytes_eq_toLE (hm : m < 256 ^ (i + 1)) (hne : UInt8.ofNat (m / 256 ^ i) ≠ 0) :
    SignMagnitude.bytes m = Codec.toLE i (m % 256 ^ i) ++ [UInt8.ofNat (m / 256 ^ i)] := by
  have hlt : m / 256 ^ i < 256 := Nat.div_lt_of_lt_mul (by rwa [pow_succ] at hm)
  have hval := Codec.ofLE_toLE hm
  rw [Codec.toLE_succ, Nat.mod_eq_of_lt hlt] at hval
  rw [← SignMagnitude.bytes_ofLE hne, hval]

/-- The loop writes the bytes of the number, with the sign that is asked for. -/
theorem mpiLoop_true {x : ℤ} (hx : x.natAbs = m) (hneg : x < 0 ↔ fNegative = true) (hi : i ≤ 8)
    (hm : m < 256 ^ i) : mpiLoop fNegative i (m * 256 ^ (8 - i)) true = bn2mpi x := by
  induction i with
  | zero =>
    have hzero : x = 0 := by omega
    rw [hzero]
    rfl
  | succ i ih =>
    obtain ⟨hbyte, hnext⟩ := mpiLoop_round (by omega) hm
    have hpos : 0 < 256 ^ i := Nat.pow_pos (by decide)
    rw [mpiLoop, show 8 - (i + 1) = 7 - i by omega, hbyte, hnext, if_pos rfl]
    by_cases hzero : UInt8.ofNat (m / 256 ^ i) = 0
    · -- a leading zero is left out
      have hlt : m / 256 ^ i < 256 := Nat.div_lt_of_lt_mul (by rwa [pow_succ] at hm)
      have hdiv : m / 256 ^ i = 0 := by
        rw [← UInt8.toNat_ofNat_of_lt' hlt, hzero]
        rfl
      have hsmall : m < 256 ^ i := (Nat.div_eq_zero_iff_lt hpos).1 hdiv
      rw [if_pos hzero, Nat.mod_eq_of_lt hsmall, ih (by omega) hsmall]
    · have hbytes : SignMagnitude.bytes x.natAbs =
          Codec.toLE i (m % 256 ^ i) ++ [UInt8.ofNat (m / 256 ^ i)] := by
        rw [hx, bytes_eq_toLE hm hzero]
      rw [if_neg hzero, mpiLoop_false (by omega) (Nat.mod_lt _ hpos), bn2mpi]
      rcases SignMagnitude.lt_or_le (UInt8.ofNat (m / 256 ^ i)) 0x80 with hb | hb
      · rw [if_neg (UInt8.not_le.2 hb), SignMagnitude.encode_of_lt hbytes hb, List.reverse_append,
          if_congr hneg rfl rfl]
        rfl
      · rw [if_pos hb, SignMagnitude.encode_of_le hbytes hb, List.reverse_append,
          List.reverse_append, if_congr hneg rfl rfl]
        rfl

end

/-- `setint64` sets the number. -/
theorem setint64_eq {sn : ℤ} (h : InInt64 sn) : setint64 sn = sn := by
  obtain ⟨hlo, hhi⟩ := h
  unfold setint64
  split
  · rename_i hneg
    have hword : (uint64 (-(sn + 1)) + 1) % 2 ^ 64 = sn.natAbs := by
      unfold uint64
      omega
    have hloop : mpiLoop true 8 (sn.natAbs * 256 ^ (8 - 8)) true = bn2mpi sn :=
      mpiLoop_true rfl (by simp [hneg]) le_rfl (by omega)
    rw [Nat.sub_self, pow_zero, mul_one] at hloop
    rw [hword, hloop, mpi2bn_bn2mpi]
  · rename_i hneg
    have hword : uint64 sn = sn.natAbs := by
      unfold uint64
      omega
    have hloop : mpiLoop false 8 (sn.natAbs * 256 ^ (8 - 8)) true = bn2mpi sn :=
      mpiLoop_true rfl (by simp [hneg]) le_rfl (by omega)
    rw [Nat.sub_self, pow_zero, mul_one] at hloop
    rw [hword, hloop, mpi2bn_bn2mpi]

/-- `setuint64` sets the number. -/
theorem setuint64_eq {n : ℕ} (h : n < 2 ^ 64) : setuint64 n = n := by
  have hloop : mpiLoop false 8 ((n : ℤ).natAbs * 256 ^ (8 - 8)) true = bn2mpi n :=
    mpiLoop_true rfl (by simp) le_rfl h
  rw [Nat.sub_self, pow_zero, mul_one, Int.natAbs_natCast] at hloop
  rw [setuint64, hloop, mpi2bn_bn2mpi]

end CBigNum

end Bws
