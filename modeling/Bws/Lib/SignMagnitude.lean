import Mathlib
import Bws.Lib.Codec

/-!
# Integers as bytes with a sign bit

An integer as the bytes of its magnitude, the lowest first, with the sign in the first bit of the
last byte; where that bit is taken, one more byte holds the sign.  Every string of bytes is read
(`decode`).  What is written (`encode`) is read back, it is shorter than any other string for the
same integer (`eq_encode_or_length_lt`), and its length follows from the size of the integer
(`length_encode_le`, `two_pow_le_natAbs`).
-/

namespace SignMagnitude

open Codec (ofLE)

/-! ## Magnitudes -/

/-- The bytes of a natural number, the lowest first; the last of them is not zero. -/
def bytes (n : ℕ) : List UInt8 := (Nat.digits 256 n).map UInt8.ofNat

@[simp] theorem ofLE_nil : ofLE [] = 0 := rfl

@[simp] theorem bytes_zero : bytes 0 = [] := by
  rw [bytes, Nat.digits_zero, List.map_nil]

theorem ofLE_append (l m : List UInt8) : ofLE (l ++ m) = ofLE l + 256 ^ l.length * ofLE m := by
  rw [ofLE, List.map_append, Nat.ofDigits_append, List.length_map]
  rfl

@[simp] theorem ofLE_singleton (b : UInt8) : ofLE [b] = b.toNat := Nat.ofDigits_singleton

theorem ofLE_concat (l : List UInt8) (b : UInt8) :
    ofLE (l ++ [b]) = ofLE l + 256 ^ l.length * b.toNat := by
  rw [ofLE_append, ofLE_singleton]

theorem ofLE_replicate_zero (k : ℕ) : ofLE (List.replicate k 0) = 0 := by
  rw [ofLE, List.map_replicate]
  exact Nat.ofDigits_replicate_zero

theorem digit_lt {l : List UInt8} : ∀ d ∈ l.map UInt8.toNat, d < 256 := by
  intro d hd
  obtain ⟨b, -, rfl⟩ := List.mem_map.1 hd
  exact b.toNat_lt

theorem ofLE_lt (l : List UInt8) : ofLE l < 256 ^ l.length := by
  have h := Nat.ofDigits_lt_base_pow_length (b := 256) (by decide) (digit_lt (l := l))
  rwa [List.length_map] at h

theorem ofLE_drop (k : ℕ) (l : List UInt8) : ofLE (l.drop k) = ofLE l / 256 ^ k := by
  rw [ofLE, ofLE, List.map_drop, Nat.ofDigits_div_pow_eq_ofDigits_drop k (by decide) _ digit_lt]

@[simp] theorem ofLE_bytes (n : ℕ) : ofLE (bytes n) = n := by
  have hdigits : (bytes n).map UInt8.toNat = Nat.digits 256 n := by
    rw [bytes, List.map_map]
    refine (List.map_congr_left fun d hd ↦ ?_).trans (List.map_id _)
    exact UInt8.toNat_ofNat_of_lt' (Nat.digits_lt_base (by decide) hd)
  rw [ofLE, hdigits, Nat.ofDigits_digits]

/-- Bytes that do not end in zero are those of their number. -/
theorem bytes_ofLE {l : List UInt8} {b : UInt8} (hb : b ≠ 0) :
    bytes (ofLE (l ++ [b])) = l ++ [b] := by
  rw [bytes, ofLE, Nat.digits_ofDigits 256 (by decide) _ digit_lt, List.map_map]
  · refine (List.map_congr_left fun d _ ↦ ?_).trans (List.map_id _)
    exact UInt8.ofNat_toNat
  · intro hne
    rw [List.getLast_map, List.getLast_append_singleton]
    exact fun h ↦ hb (UInt8.toNat_inj.1 h)

theorem exists_bytes_eq {n : ℕ} (hn : n ≠ 0) : ∃ l b, bytes n = l ++ [b] ∧ b ≠ 0 := by
  have hne : Nat.digits 256 n ≠ [] := Nat.digits_ne_nil_iff_ne_zero.2 hn
  have hlast := Nat.getLast_digit_ne_zero 256 hn
  have hlt : (Nat.digits 256 n).getLast hne < 256 :=
    Nat.digits_lt_base (by decide) (List.getLast_mem hne)
  refine ⟨((Nat.digits 256 n).dropLast).map UInt8.ofNat,
    UInt8.ofNat ((Nat.digits 256 n).getLast hne), ?_, ?_⟩
  · rw [bytes, ← List.map_singleton, ← List.map_append, List.dropLast_append_getLast hne]
  · intro h
    have hzero := congrArg UInt8.toNat h
    rw [UInt8.toNat_ofNat_of_lt' hlt] at hzero
    exact hlast hzero

theorem bytes_cons {n : ℕ} (hn : n ≠ 0) :
    bytes n = UInt8.ofNat (n % 256) :: bytes (n / 256) := by
  rw [bytes, Nat.digits_eq_cons_digits_div (by decide) hn, List.map_cons, bytes]

/-! ## The sign -/

/-- The integer that bytes stand for: the first bit of the last byte is the sign. -/
def decode (l : List UInt8) : ℤ :=
  match l.getLast? with
  | none => 0
  | some b => if 0x80 ≤ b then -((ofLE l : ℤ) - 2 ^ (8 * l.length - 1)) else ofLE l

/-- The bytes of an integer. -/
def encode (x : ℤ) : List UInt8 :=
  match (bytes x.natAbs).getLast? with
  | none => []
  | some b =>
    if 0x80 ≤ b then bytes x.natAbs ++ [if x < 0 then 0x80 else 0]
    else if x < 0 then (bytes x.natAbs).dropLast ++ [b + 0x80] else bytes x.natAbs

theorem two_pow_eight_mul (k : ℕ) : 2 ^ (8 * k) = 256 ^ k := pow_mul 2 8 k

theorem two_pow_sign (k : ℕ) : 2 ^ (8 * (k + 1) - 1) = 256 ^ k * 128 := by
  rw [show 8 * (k + 1) - 1 = 8 * k + 7 by omega, pow_add, two_pow_eight_mul]
  rfl

theorem lt_or_le (b c : UInt8) : b < c ∨ c ≤ b := by
  rw [← UInt8.not_lt]
  exact em _

@[simp] theorem decode_nil : decode [] = 0 := rfl

@[simp] theorem encode_zero : encode 0 = [] := by
  rw [encode, Int.natAbs_zero, bytes_zero]
  rfl

section

variable {l : List UInt8} {b : UInt8} {x : ℤ}

theorem decode_of_lt (hb : b < 0x80) : decode (l ++ [b]) = ofLE (l ++ [b]) := by
  rw [decode, List.getLast?_append_of_ne_nil _ (by simp), List.getLast?_singleton]
  exact if_neg (UInt8.not_le.2 hb)

theorem decode_of_le (hb : 0x80 ≤ b) :
    decode (l ++ [b]) = -(ofLE l + 256 ^ l.length * (b.toNat - 128) : ℕ) := by
  have hle : 128 ≤ b.toNat := UInt8.le_iff_toNat_le.1 hb
  have hpow : (2 : ℤ) ^ (8 * (l ++ [b]).length - 1) = (256 ^ l.length * 128 : ℕ) := by
    rw [List.length_append, List.length_singleton, ← two_pow_sign, Nat.cast_pow, Nat.cast_ofNat]
  have hval : decode (l ++ [b]) = -((ofLE (l ++ [b]) : ℤ) - 2 ^ (8 * (l ++ [b]).length - 1)) := by
    rw [decode, List.getLast?_append_of_ne_nil _ (by simp), List.getLast?_singleton]
    exact if_pos hb
  rw [hval, hpow, ofLE_concat, Nat.mul_sub]
  have hmul : 256 ^ l.length * 128 ≤ 256 ^ l.length * b.toNat := Nat.mul_le_mul_left _ hle
  omega

/-- The sign and the magnitude. -/
theorem decode_concat (l : List UInt8) (b : UInt8) : decode (l ++ [b]) =
    if 0x80 ≤ b then -((ofLE l + 256 ^ l.length * (b.toNat % 128) : ℕ) : ℤ)
    else ((ofLE l + 256 ^ l.length * (b.toNat % 128) : ℕ) : ℤ) := by
  have hlt := b.toNat_lt
  rcases lt_or_le b 0x80 with hb | hb
  · have hsmall : b.toNat < 128 := UInt8.lt_iff_toNat_lt.1 hb
    rw [decode_of_lt hb, if_neg (UInt8.not_le.2 hb), ofLE_concat, Nat.mod_eq_of_lt hsmall]
  · have hle : 128 ≤ b.toNat := UInt8.le_iff_toNat_le.1 hb
    rw [decode_of_le hb, if_pos hb, show b.toNat % 128 = b.toNat - 128 by omega]

theorem encode_of_le (h : bytes x.natAbs = l ++ [b]) (hb : 0x80 ≤ b) :
    encode x = (l ++ [b]) ++ [if x < 0 then 0x80 else 0] := by
  rw [encode, h, List.getLast?_append_of_ne_nil _ (by simp), List.getLast?_singleton]
  exact if_pos hb

theorem encode_of_lt (h : bytes x.natAbs = l ++ [b]) (hb : b < 0x80) :
    encode x = l ++ [if x < 0 then b + 0x80 else b] := by
  rw [encode, h, List.getLast?_append_of_ne_nil _ (by simp), List.getLast?_singleton,
    List.dropLast_concat]
  refine (if_neg (UInt8.not_le.2 hb)).trans ?_
  split <;> rfl

theorem toNat_add_sign (hb : b < 0x80) : (b + 0x80).toNat = b.toNat + 128 := by
  have hlt : b.toNat < 128 := UInt8.lt_iff_toNat_lt.1 hb
  rw [UInt8.toNat_add, show (0x80 : UInt8).toNat = 128 from rfl, Nat.mod_eq_of_lt (by omega)]

end

/-! ## What is written is read back -/

theorem decode_encode (x : ℤ) : decode (encode x) = x := by
  by_cases hx : x = 0
  · subst hx
    rw [encode_zero, decode_nil]
  obtain ⟨l, b, hl, -⟩ := exists_bytes_eq (Int.natAbs_ne_zero.2 hx)
  have hval : ofLE (l ++ [b]) = x.natAbs := by rw [← hl, ofLE_bytes]
  rcases lt_or_le b 0x80 with hb | hb
  · rw [encode_of_lt hl hb]
    split
    · have hsign : (0x80 : UInt8) ≤ b + 0x80 := by
        rw [UInt8.le_iff_toNat_le, toNat_add_sign hb]
        exact Nat.le_add_left _ _
      rw [decode_of_le hsign, toNat_add_sign hb, Nat.add_sub_cancel, ← ofLE_concat, hval]
      omega
    · rw [decode_of_lt hb, hval]
      omega
  · rw [encode_of_le hl hb]
    split
    · rw [decode_of_le (UInt8.le_refl _), show (0x80 : UInt8).toNat - 128 = 0 from rfl, mul_zero,
        add_zero, hval]
      omega
    · rw [decode_of_lt (by decide), ofLE_concat, hval, show (0 : UInt8).toNat = 0 from rfl,
        mul_zero, add_zero]
      omega

/-- The number that the bytes of an integer are, the sign bit among them. -/
theorem ofLE_encode (x : ℤ) :
    ofLE (encode x) = x.natAbs + if x < 0 then 2 ^ (8 * (encode x).length - 1) else 0 := by
  by_cases hx : x = 0
  · subst hx
    rw [encode_zero]
    rfl
  obtain ⟨l, b, hl, -⟩ := exists_bytes_eq (Int.natAbs_ne_zero.2 hx)
  have hval : ofLE (l ++ [b]) = x.natAbs := by rw [← hl, ofLE_bytes]
  rcases lt_or_le b 0x80 with hb | hb
  · rw [encode_of_lt hl hb, List.length_append, List.length_singleton, two_pow_sign, ← hval]
    split
    · rw [ofLE_concat, ofLE_concat, toNat_add_sign hb]
      ring
    · rfl
  · rw [encode_of_le hl hb, List.length_append, List.length_singleton, two_pow_sign, ← hval,
      ofLE_concat]
    split
    · rfl
    · rfl

/-! ## Lengths -/

section

variable {l : List UInt8} {x : ℤ}

theorem natAbs_decode_lt (l : List UInt8) : (decode l).natAbs < 2 ^ (8 * l.length - 1) := by
  rcases List.eq_nil_or_concat' l with rfl | ⟨l, b, rfl⟩
  · decide
  have hpow : 2 ^ (8 * (l ++ [b]).length - 1) = 256 ^ l.length * 128 := by
    rw [List.length_append, List.length_singleton, two_pow_sign]
  have hlow := ofLE_lt l
  have hmagnitude : ∀ t, t < 128 → ofLE l + 256 ^ l.length * t < 256 ^ l.length * 128 := by
    intro t ht
    calc ofLE l + 256 ^ l.length * t < 256 ^ l.length + 256 ^ l.length * t := by omega
      _ = 256 ^ l.length * (t + 1) := by ring
      _ ≤ 256 ^ l.length * 128 := Nat.mul_le_mul_left _ ht
  rw [hpow]
  rcases lt_or_le b 0x80 with hb | hb
  · rw [decode_of_lt hb, Int.natAbs_natCast, ofLE_concat]
    exact hmagnitude _ (UInt8.lt_iff_toNat_lt.1 hb)
  · rw [decode_of_le hb, Int.natAbs_neg, Int.natAbs_natCast]
    have hlt := b.toNat_lt
    exact hmagnitude _ (by omega)

theorem natAbs_lt_two_pow (x : ℤ) : x.natAbs < 2 ^ (8 * (encode x).length - 1) := by
  have h := natAbs_decode_lt (encode x)
  rwa [decode_encode] at h

/-- No byte is needless. -/
theorem two_pow_le_natAbs (hx : x ≠ 0) : 2 ^ (8 * ((encode x).length - 1) - 1) ≤ x.natAbs := by
  obtain ⟨l, b, hl, hne⟩ := exists_bytes_eq (Int.natAbs_ne_zero.2 hx)
  have hval : ofLE l + 256 ^ l.length * b.toNat = x.natAbs := by
    rw [← ofLE_concat, ← hl, ofLE_bytes]
  rcases lt_or_le b 0x80 with hb | hb
  · have hone : 1 ≤ b.toNat := Nat.pos_of_ne_zero fun h ↦ hne (UInt8.toNat_inj.1 h)
    rw [encode_of_lt hl hb, List.length_append, List.length_singleton, Nat.add_sub_cancel]
    calc 2 ^ (8 * l.length - 1) ≤ 2 ^ (8 * l.length) :=
          Nat.pow_le_pow_right Nat.two_pos (Nat.sub_le _ _)
      _ = 256 ^ l.length * 1 := by rw [two_pow_eight_mul, mul_one]
      _ ≤ 256 ^ l.length * b.toNat := Nat.mul_le_mul_left _ hone
      _ ≤ x.natAbs := by omega
  · have hhigh : 128 ≤ b.toNat := UInt8.le_iff_toNat_le.1 hb
    rw [encode_of_le hl hb, List.length_append, List.length_singleton, Nat.add_sub_cancel,
      List.length_append, List.length_singleton]
    calc 2 ^ (8 * (l.length + 1) - 1) = 256 ^ l.length * 128 := two_pow_sign _
      _ ≤ 256 ^ l.length * b.toNat := Nat.mul_le_mul_left _ hhigh
      _ ≤ x.natAbs := by omega

theorem length_encode_le {k : ℕ} (h : x.natAbs < 2 ^ (8 * k - 1)) : (encode x).length ≤ k := by
  by_contra hlt
  have hx : x ≠ 0 := by
    rintro rfl
    rw [encode_zero] at hlt
    exact hlt (Nat.zero_le _)
  have hpow : 2 ^ (8 * k - 1) ≤ 2 ^ (8 * ((encode x).length - 1) - 1) :=
    Nat.pow_le_pow_right Nat.two_pos (by omega)
  exact absurd (hpow.trans (two_pow_le_natAbs hx)) (not_le.2 h)

theorem length_encode_decode_le (l : List UInt8) : (encode (decode l)).length ≤ l.length :=
  length_encode_le (natAbs_decode_lt l)

/-- The last byte has a part of the magnitude. -/
theorem encode_decode_of_ne {b : UInt8} (hb : b ≠ 0) (hb' : b ≠ 0x80) (l : List UInt8) :
    encode (decode (l ++ [b])) = l ++ [b] := by
  rcases lt_or_le b 0x80 with hlt | hle
  · have hbytes : bytes (decode (l ++ [b])).natAbs = l ++ [b] := by
      rw [decode_of_lt hlt, Int.natAbs_natCast, bytes_ofLE hb]
    have hnonneg : ¬ decode (l ++ [b]) < 0 := by
      rw [decode_of_lt hlt]
      omega
    rw [encode_of_lt hbytes hlt, if_neg hnonneg]
  · have hsub : (b - 0x80).toNat = b.toNat - 128 := UInt8.toNat_sub_of_le _ _ hle
    have hpos : b.toNat - 128 ≠ 0 := by
      have hge : 128 ≤ b.toNat := UInt8.le_iff_toNat_le.1 hle
      have hne : b.toNat ≠ 128 := fun h ↦ hb' (UInt8.toNat_inj.1 h)
      omega
    have hsign : b - 0x80 < 0x80 := by
      have hbyte := b.toNat_lt
      rw [UInt8.lt_iff_toNat_lt, hsub]
      show b.toNat - 128 < 128
      omega
    have hne : b - 0x80 ≠ 0 := by
      intro h
      rw [h] at hsub
      exact hpos hsub.symm
    have hval : decode (l ++ [b]) = -(ofLE (l ++ [b - 0x80]) : ℕ) := by
      rw [decode_of_le hle, ofLE_concat, hsub]
    have hbytes : bytes (decode (l ++ [b])).natAbs = l ++ [b - 0x80] := by
      rw [hval, Int.natAbs_neg, Int.natAbs_natCast, bytes_ofLE hne]
    have hneg : decode (l ++ [b]) < 0 := by
      have hval' : 0 < ofLE (l ++ [b - 0x80]) := by
        rw [ofLE_concat, hsub]
        exact Nat.add_pos_right _ (Nat.mul_pos (Nat.pow_pos (by decide)) (Nat.pos_of_ne_zero hpos))
      omega
    rw [encode_of_lt hbytes hsign, if_pos hneg, sub_add_cancel]

/-- The last byte is there for the sign only. -/
theorem natAbs_decode_sign {b : UInt8} (hb : b = 0 ∨ b = 0x80) (l : List UInt8) :
    (decode (l ++ [b])).natAbs = ofLE l := by
  rcases hb with rfl | rfl
  · rw [decode_of_lt (by decide), Int.natAbs_natCast, ofLE_concat, UInt8.toNat_zero, mul_zero,
      add_zero]
  · rw [decode_of_le (by decide), Int.natAbs_neg, Int.natAbs_natCast,
      show (0x80 : UInt8).toNat - 128 = 0 from rfl, mul_zero, add_zero]

theorem encode_decode_sign {b c : UInt8} (hb : b = 0 ∨ b = 0x80) (hc : 0x80 ≤ c) (l : List UInt8) :
    encode (decode (l ++ [c] ++ [b])) = l ++ [c] ++ [b] := by
  have hc0 : c.toNat ≠ 0 := by
    have hle : 128 ≤ c.toNat := UInt8.le_iff_toNat_le.1 hc
    omega
  have hbytes : bytes (decode (l ++ [c] ++ [b])).natAbs = l ++ [c] := by
    rw [natAbs_decode_sign hb, bytes_ofLE fun h ↦ hc0 (UInt8.toNat_inj.2 h)]
  rw [encode_of_le hbytes hc]
  rcases hb with rfl | rfl
  · have hnonneg : ¬ decode (l ++ [c] ++ [0]) < 0 := by
      rw [decode_of_lt (by decide)]
      omega
    rw [if_neg hnonneg]
  · have hneg : decode (l ++ [c] ++ [0x80]) < 0 := by
      have hpos : 0 < ofLE (l ++ [c]) := by
        rw [ofLE_concat]
        positivity
      rw [decode_of_le (by decide)]
      omega
    rw [if_pos hneg]

/-- What is as short as what is written is what is written. -/
theorem encode_decode (h : l.length ≤ (encode (decode l)).length) : encode (decode l) = l := by
  rcases List.eq_nil_or_concat' l with rfl | ⟨l, b, rfl⟩
  · exact encode_zero
  by_cases hb : b = 0 ∨ b = 0x80
  · have hshort : ¬ ofLE l < 2 ^ (8 * l.length - 1) := by
      intro hlt
      have hle := length_encode_le ((natAbs_decode_sign hb l).trans_lt hlt)
      rw [List.length_append, List.length_singleton] at h
      omega
    rcases List.eq_nil_or_concat' l with rfl | ⟨m, c, rfl⟩
    · exact absurd Nat.one_pos hshort
    · refine encode_decode_sign hb ?_ m
      by_contra hc
      have hlt := natAbs_decode_lt (m ++ [c])
      rw [decode_of_lt (UInt8.not_le.1 hc), Int.natAbs_natCast] at hlt
      exact hshort hlt
  · exact encode_decode_of_ne (fun h ↦ hb (.inl h)) (fun h ↦ hb (.inr h)) l

/-- Every other string for an integer is longer. -/
theorem eq_encode_or_length_lt (h : decode l = x) :
    l = encode x ∨ (encode x).length < l.length := by
  subst h
  rcases (length_encode_decode_le l).eq_or_lt with heq | hlt
  · exact .inl (encode_decode heq.ge).symm
  · exact .inr hlt

end

/-! ## Zeros below, zeros above -/

/-- Zeros below multiply. -/
theorem decode_replicate_append (k : ℕ) (l : List UInt8) :
    decode (List.replicate k 0 ++ l) = 256 ^ k * decode l := by
  have hmagnitude : ∀ m : List UInt8, ofLE (List.replicate k 0 ++ m) = 256 ^ k * ofLE m := by
    intro m
    rw [ofLE_append, ofLE_replicate_zero, List.length_replicate, zero_add]
  rcases List.eq_nil_or_concat' l with rfl | ⟨l, b, rfl⟩
  · rw [List.append_nil, decode_nil, mul_zero]
    rcases Nat.eq_zero_or_pos k with rfl | hk
    · rfl
    · obtain ⟨k, rfl⟩ := Nat.exists_eq_succ_of_ne_zero hk.ne'
      rw [List.replicate_succ', decode_of_lt (by decide), ofLE_concat, ofLE_replicate_zero]
      rfl
  · rw [← List.append_assoc]
    rcases lt_or_le b 0x80 with hb | hb
    · rw [decode_of_lt hb, decode_of_lt hb, List.append_assoc, hmagnitude]
      push_cast
      rfl
    · rw [decode_of_le hb, decode_of_le hb, hmagnitude, List.length_append, List.length_replicate]
      push_cast
      ring

/-- The sign bit of a positive number is not set. -/
theorem exists_encode_eq {x : ℤ} (hx : 0 < x) : ∃ l b, encode x = l ++ [b] ∧ b < 0x80 := by
  obtain ⟨l, b, hl, -⟩ := exists_bytes_eq (Int.natAbs_ne_zero.2 hx.ne')
  rcases lt_or_le b 0x80 with hb | hb
  · exact ⟨l, b, by rw [encode_of_lt hl hb, if_neg hx.not_gt], hb⟩
  · exact ⟨l ++ [b], 0, by rw [encode_of_le hl hb, if_neg hx.not_gt], by decide⟩

/-- The upper bytes of a positive number. -/
theorem decode_drop_encode {x : ℤ} (hx : 0 < x) {k : ℕ} (hk : k < (encode x).length) :
    decode ((encode x).drop k) = x / 256 ^ k := by
  have hval := ofLE_encode x
  rw [if_neg hx.not_gt, add_zero] at hval
  have hdrop : ofLE ((encode x).drop k) = x.natAbs / 256 ^ k := by rw [ofLE_drop, hval]
  obtain ⟨l, b, hl, hb⟩ := exists_encode_eq hx
  rw [hl, List.length_append, List.length_singleton] at hk
  rw [hl, List.drop_append_of_le_length (by omega)] at hdrop ⊢
  rw [decode_of_lt hb, hdrop, Int.natCast_ediv, Int.natAbs_of_nonneg hx.le, Nat.cast_pow]
  rfl

/-- A natural number is written as its bytes, with a zero where the first bit is taken. -/
theorem encode_natCast (n : ℕ) : encode n = bytes n ∨
    encode n = bytes n ++ [0] ∧ ∃ l b, bytes n = l ++ [b] ∧ 0x80 ≤ b := by
  by_cases hn : n = 0
  · subst hn
    exact .inl (by rw [Nat.cast_zero, encode_zero, bytes_zero])
  obtain ⟨l, b, hl, -⟩ := exists_bytes_eq hn
  have hneg : ¬ (n : ℤ) < 0 := by omega
  rcases lt_or_le b 0x80 with hb | hb
  · rw [encode_of_lt (by rwa [Int.natAbs_natCast]) hb, if_neg hneg, hl]
    exact .inl rfl
  · rw [encode_of_le (by rwa [Int.natAbs_natCast]) hb, if_neg hneg, hl]
    exact .inr ⟨rfl, l, b, rfl, hb⟩

/-- A zero above takes the sign away. -/
theorem decode_concat_zero (l : List UInt8) : decode (l ++ [0]) = ofLE l := by
  rw [decode_of_lt (by decide), ofLE_concat]
  rfl

end SignMagnitude
