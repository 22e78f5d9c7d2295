import Mathlib
import Bws.Lib.SignMagnitude

/-!
# DER

The distinguished encoding of integers that are not negative and of sequences of them: a tag, the
length in its shortest form, and the contents.  `IsContent` says by the first bytes what the
contents of an integer are (`isContent_iff`).
-/

namespace Der

open Codec (ofLE)
open SignMagnitude (bytes decode encode)

/-- The length octets: one for a length below 128, otherwise their number and the bytes. -/
def lengthOctets (n : ℕ) : List UInt8 :=
  if n < 128 then [UInt8.ofNat n]
  else UInt8.ofNat (128 + (bytes n).length) :: (bytes n).reverse

/-- A tag, a length and the contents. -/
def tlv (tag : UInt8) (content : List UInt8) : List UInt8 :=
  tag :: (lengthOctets content.length ++ content)

/-- The contents of an integer: its bytes in as few as keep the first bit clear. -/
def content (n : ℕ) : List UInt8 := if n = 0 then [0] else (encode n).reverse

/-- `INTEGER` -/
def integer (n : ℕ) : List UInt8 := tlv 0x02 (content n)

/-- `SEQUENCE` of two integers -/
def pair (r s : ℕ) : List UInt8 := tlv 0x30 (integer r ++ integer s)

/-- Contents that are not empty, not negative, and have no needless zero in front. -/
def IsContent (l : List UInt8) : Prop :=
  l ≠ [] ∧ l.getD 0 0 < 0x80 ∧ ¬ (1 < l.length ∧ l.getD 0 0 = 0 ∧ l.getD 1 0 < 0x80)

instance (l : List UInt8) : Decidable (IsContent l) := inferInstanceAs (Decidable (_ ∧ _))

theorem isContent_content (n : ℕ) : IsContent (content n) := by
  rw [content]
  split
  · decide
  · rename_i hn
    have hpos : (0 : ℤ) < n := by omega
    obtain ⟨l, b, hl, hb⟩ := SignMagnitude.exists_encode_eq hpos
    rw [hl, List.reverse_append, List.reverse_singleton]
    refine ⟨List.cons_ne_nil _ _, hb, ?_⟩
    rintro ⟨hlen, hzero, hnext⟩
    -- a needless zero would make the encoding longer than the number asks for
    obtain rfl : b = 0 := hzero
    rcases List.eq_nil_or_concat' l with rfl | ⟨m, c, rfl⟩
    · exact absurd hlen (lt_irrefl 1)
    have hc : c < 0x80 := by
      rwa [List.reverse_append] at hnext
    have hval := SignMagnitude.decode_encode n
    rw [hl, SignMagnitude.decode_concat_zero] at hval
    have hle := SignMagnitude.two_pow_le_natAbs hpos.ne'
    have hlt := SignMagnitude.natAbs_decode_lt (m ++ [c])
    rw [SignMagnitude.decode_of_lt hc, Int.natAbs_natCast] at hlt
    rw [hl, List.length_append, List.length_singleton, Nat.add_sub_cancel,
      Int.natAbs_natCast] at hle
    have heq : ofLE (m ++ [c]) = n := Nat.cast_injective hval
    omega

/-- **What the contents of an integer are.** -/
theorem isContent_iff {l : List UInt8} : IsContent l ↔ ∃ n, l = content n := by
  refine ⟨?_, ?_⟩
  · rintro ⟨hne, hsign, hshort⟩
    obtain ⟨b, l, rfl⟩ := List.exists_cons_of_ne_nil hne
    have hb : b < 0x80 := hsign
    have hb' : b ≠ 0x80 := by
      rintro rfl
      exact absurd hb (by decide)
    refine ⟨ofLE (l.reverse ++ [b]), ?_⟩
    have hdecode := SignMagnitude.decode_of_lt (l := l.reverse) hb
    have hwrite : encode (decode (l.reverse ++ [b])) = l.reverse ++ [b] →
        ofLE (l.reverse ++ [b]) ≠ 0 → b :: l = content (ofLE (l.reverse ++ [b])) := by
      intro h hne
      rw [content, if_neg hne, ← hdecode, h, List.reverse_append, List.reverse_reverse]
      rfl
    by_cases hzero : b = 0
    · subst hzero
      rcases l with - | ⟨c, l⟩
      · rfl
      have hc : (0x80 : UInt8) ≤ c := by
        rw [← UInt8.not_lt]
        exact fun h ↦ hshort ⟨by simp, rfl, h⟩
      have hc0 : 0 < c.toNat := by
        have hle : 128 ≤ c.toNat := UInt8.le_iff_toNat_le.1 hc
        omega
      rw [List.reverse_cons] at hwrite ⊢
      refine hwrite (SignMagnitude.encode_decode_sign (.inl rfl) hc _) ?_
      rw [SignMagnitude.ofLE_concat, SignMagnitude.ofLE_concat]
      have hpow : 0 < 256 ^ l.reverse.length := Nat.pow_pos (by decide)
      have hmul := Nat.mul_pos hpow hc0
      omega
    · refine hwrite (SignMagnitude.encode_decode_of_ne hzero hb' _) ?_
      have hb0 : 0 < b.toNat := Nat.pos_of_ne_zero fun h ↦ hzero (UInt8.toNat_inj.1 h)
      have hpow : 0 < 256 ^ l.reverse.length := Nat.pow_pos (by decide)
      have hmul := Nat.mul_pos hpow hb0
      rw [SignMagnitude.ofLE_concat]
      omega
  · rintro ⟨n, rfl⟩
    exact isContent_content n

theorem value_content (n : ℕ) : ofLE (content n).reverse = n := by
  rw [content]
  split_ifs with hn
  · rw [hn]
    rfl
  · rw [List.reverse_reverse, SignMagnitude.ofLE_encode, if_neg (by simp), Int.natAbs_natCast,
      Nat.add_zero]

/-- A number below a power of two that leaves room for the sign. -/
theorem length_content_le_iff {n k : ℕ} (hk : 0 < k) :
    (content n).length ≤ k ↔ n < 2 ^ (8 * k - 1) := by
  rw [content]
  split_ifs with hn
  · rw [hn]
    exact iff_of_true hk (Nat.two_pow_pos _)
  · rw [List.length_reverse]
    constructor
    · intro h
      calc n = (n : ℤ).natAbs := rfl
        _ < 2 ^ (8 * (encode n).length - 1) := SignMagnitude.natAbs_lt_two_pow n
        _ ≤ 2 ^ (8 * k - 1) := Nat.pow_le_pow_right Nat.two_pos (by omega)
    · intro h
      exact SignMagnitude.length_encode_le h

theorem length_content_pos (n : ℕ) : 0 < (content n).length :=
  List.length_pos_iff.2 (isContent_content n).1

/-- A smaller number has no more contents. -/
theorem length_content_le {m n : ℕ} (h : m ≤ n) : (content m).length ≤ (content n).length :=
  (length_content_le_iff (length_content_pos n)).2
    (h.trans_lt ((length_content_le_iff (length_content_pos n)).1 le_rfl))

/-! ## Short forms -/

theorem lengthOctets_of_lt {n : ℕ} (h : n < 128) : lengthOctets n = [UInt8.ofNat n] := if_pos h

/-- A long form has at least 130 bytes. -/
theorem lt_length_tlv (tag : UInt8) {c : List UInt8} (h : ¬ c.length < 128) :
    129 < (tlv tag c).length := by
  rw [tlv, lengthOctets, if_neg h, List.length_cons, List.length_append, List.length_cons]
  omega

/-- A tag, one byte for the length, and the contents. -/
theorem tlv_of_lt {tag : UInt8} {c : List UInt8} (h : c.length < 128) :
    tlv tag c = tag :: UInt8.ofNat c.length :: c := by
  rw [tlv, lengthOctets_of_lt h]
  rfl

/-- **A short sequence of two integers.** -/
theorem pair_of_lt {r s : ℕ} (h : (content r).length + (content s).length + 4 < 128) :
    pair r s = 0x30 :: UInt8.ofNat ((content r).length + (content s).length + 4) ::
      (0x02 :: UInt8.ofNat (content r).length ::
        (content r ++ 0x02 :: UInt8.ofNat (content s).length :: content s)) := by
  have hinner : integer r ++ integer s = 0x02 :: UInt8.ofNat (content r).length ::
      (content r ++ 0x02 :: UInt8.ofNat (content s).length :: content s) := by
    rw [integer, integer, tlv_of_lt (by omega), tlv_of_lt (by omega)]
    rfl
  have hlen : (integer r ++ integer s).length =
      (content r).length + (content s).length + 4 := by
    rw [hinner]
    simp only [List.length_cons, List.length_append]
    omega
  rw [pair, tlv_of_lt (hlen ▸ h), hlen, hinner]

/-- The form of a pair is the short one unless it has at least 130 bytes. -/
theorem short_of_length_lt {r s : ℕ} (h : (pair r s).length < 130) :
    (content r).length + (content s).length + 4 < 128 := by
  have hshort : (integer r ++ integer s).length < 128 := by
    by_contra hlong
    have := lt_length_tlv 0x30 hlong
    rw [pair] at h
    omega
  have hr : (content r).length < 128 := by
    by_contra hlong
    have := lt_length_tlv 0x02 hlong
    rw [List.length_append, integer] at hshort
    omega
  have hs : (content s).length < 128 := by
    by_contra hlong
    have := lt_length_tlv 0x02 hlong
    rw [List.length_append, integer, integer] at hshort
    omega
  rw [integer, integer, tlv_of_lt hr, tlv_of_lt hs] at hshort
  simp only [List.cons_append, List.length_cons, List.length_append] at hshort
  omega

/-- **The form of a short sequence of two integers.** -/
theorem pair_iff {l : List UInt8} (hlen : l.length < 130) :
    (∃ r s, l = pair r s) ↔ ∃ R S : List UInt8, IsContent R ∧ IsContent S ∧
      l = 0x30 :: UInt8.ofNat (R.length + S.length + 4) ::
        (0x02 :: UInt8.ofNat R.length :: (R ++ 0x02 :: UInt8.ofNat S.length :: S)) := by
  constructor
  · rintro ⟨r, s, rfl⟩
    exact ⟨content r, content s, isContent_content r, isContent_content s,
      pair_of_lt (short_of_length_lt hlen)⟩
  · rintro ⟨R, S, hR, hS, rfl⟩
    obtain ⟨r, rfl⟩ := isContent_iff.1 hR
    obtain ⟨s, rfl⟩ := isContent_iff.1 hS
    simp only [List.length_cons, List.length_append] at hlen
    exact ⟨r, s, (pair_of_lt (by omega)).symm⟩

end Der
