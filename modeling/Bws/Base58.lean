import Bws.BigNum
import Bws.Lib.Decimal

/-!
# Base 58

`EncodeBase58` and `DecodeBase58` by way of big numbers.  Both are a change of base that keeps the
leading zeros (`encodeBase58_eq`, `decodeBase58_eq`), so that each undoes the other.  Whitespace
around the digits is skipped, and nothing else is (`isSome_decodeBase58`).  A `std::string` is
decoded up to its first zero character.
-/

namespace Bws

/-! ## The functions of the source -/

def pszBase58 : List UInt8 :=
  "123456789ABCDEFGHJKLMNPQRSTUVWXYZabcdefghijkmnopqrstuvwxyz".toList.map
    fun c ↦ UInt8.ofNat c.toNat

/-- `isspace`, in the C locale. -/
def isspace (c : UInt8) : Bool := c = 0x20 ∨ 0x09 ≤ c ∧ c ≤ 0x0d

/-- The loop of `EncodeBase58` over the number; as many rounds as the number says are enough. -/
def base58Digits : ℕ → ℤ → List UInt8
  | 0, _ => []
  | fuel + 1, bn =>
    if 0 < bn then pszBase58.getD (bn.tmod 58).toNat 0 :: base58Digits fuel (bn.tdiv 58) else []

/-- The loop of `EncodeBase58` over the leading zeros. -/
def base58Zeros : List UInt8 → List UInt8
  | [] => []
  | b :: p => if b = 0 then pszBase58.getD 0 0 :: base58Zeros p else []

/-- `EncodeBase58` -/
def encodeBase58 (vch : List UInt8) : List UInt8 :=
  -- the extra zero at the end makes the number positive
  let bn := CBigNum.setvch (vch.reverse ++ [0])
  (base58Digits bn.natAbs bn ++ base58Zeros vch).reverse

/-- The loop of `DecodeBase58`, with the number so far. -/
def decodeBase58Loop (bn : ℤ) : List UInt8 → Option ℤ
  | [] => some bn
  | c :: p =>
    match pszBase58.idxOf? c with
    | none => if (c :: p).dropWhile isspace = [] then some bn else none
    | some i => decodeBase58Loop (bn * 58 + i) p

/-- The sign byte of the number is trimmed off if it is there. -/
def trimSign (vchTmp : List UInt8) : List UInt8 :=
  if 2 ≤ vchTmp.length ∧ vchTmp.getLast? = some 0 ∧ ∃ b ∈ vchTmp.dropLast.getLast?, 0x80 ≤ b
  then vchTmp.dropLast else vchTmp

/-- `DecodeBase58` of a C string, up to the zero character that ends it. -/
def decodeBase58 (psz : List UInt8) : Option (List UInt8) :=
  let psz := psz.dropWhile isspace
  (decodeBase58Loop 0 psz).map fun bn ↦
    List.replicate (psz.takeWhile (· = pszBase58.getD 0 0)).length 0 ++
      (trimSign (CBigNum.getvch bn)).reverse

/-- `str.c_str()`, as far as a C string goes. -/
def cStr (str : List UInt8) : List UInt8 := str.takeWhile (· ≠ 0)

/-- `DecodeBase58` of a `std::string`. -/
def decodeBase58Str (str : List UInt8) : Option (List UInt8) := decodeBase58 (cStr str)

/-! ## The alphabet -/

/-- The digit that a character stands for. -/
def base58Index (c : UInt8) : ℕ := pszBase58.idxOf c

/-- The characters of the alphabet only. -/
def IsBase58 (s : List UInt8) : Prop := ∀ c ∈ s, c ∈ pszBase58

instance (s : List UInt8) : Decidable (IsBase58 s) := inferInstanceAs (Decidable (∀ _ ∈ _, _))

theorem length_pszBase58 : pszBase58.length = 58 := by decide +kernel

theorem nodup_pszBase58 : pszBase58.Nodup := by decide +kernel

theorem not_isspace_of_mem : ∀ c ∈ pszBase58, isspace c = false ∧ c ≠ 0 := by decide +kernel

theorem not_isspace_of_isDigit {c : UInt8} (h : Decimal.isDigit c = true) :
    isspace c = false ∧ c ≠ 0x2d ∧ c ≠ 0x2b ∧ c ≠ 0 := by
  obtain ⟨hlo, hhi⟩ := of_decide_eq_true h
  rw [UInt8.le_iff_toNat_le] at hlo hhi
  simp only [UInt8.reduceToNat] at hlo hhi
  refine ⟨decide_eq_false ?_, ?_, ?_, ?_⟩
  · rintro (rfl | ⟨-, hle⟩)
    · exact absurd hlo (by decide)
    · rw [UInt8.le_iff_toNat_le] at hle
      simp only [UInt8.reduceToNat] at hle
      omega
  all_goals
    rintro rfl
    exact absurd hlo (by decide)

section

variable {c : UInt8} {i : ℕ}

theorem getD_mem (hi : i < 58) : pszBase58.getD i 0 ∈ pszBase58 := by
  rw [List.getD_eq_getElem _ _ (by rw [length_pszBase58]; exact hi)]
  exact List.getElem_mem _

theorem base58Index_getD (hi : i < 58) : base58Index (pszBase58.getD i 0) = i := by
  rw [List.getD_eq_getElem _ _ (by rw [length_pszBase58]; exact hi)]
  exact nodup_pszBase58.idxOf_getElem i _

theorem base58Index_lt (hc : c ∈ pszBase58) : base58Index c < 58 := by
  rw [← length_pszBase58]
  exact List.idxOf_lt_length_of_mem hc

theorem getD_base58Index (hc : c ∈ pszBase58) : pszBase58.getD (base58Index c) 0 = c := by
  rw [List.getD_eq_getElem _ _ (by rw [length_pszBase58]; exact base58Index_lt hc)]
  exact List.getElem_idxOf _

theorem idxOf?_of_mem (hc : c ∈ pszBase58) : pszBase58.idxOf? c = some (base58Index c) := by
  obtain ⟨i, hi⟩ := Option.isSome_iff_exists.1 (List.isSome_idxOf?.2 hc)
  rw [base58Index, List.idxOf_eq_getD_idxOf?, hi, Option.getD_some]

end

/-! ## Encoding -/

section

variable {n : ℕ} {v : List UInt8}

theorem base58Digits_eq {fuel : ℕ} (h : n ≤ fuel) :
    base58Digits fuel n = (Nat.digits 58 n).map fun i ↦ pszBase58.getD i 0 := by
  induction fuel generalizing n with
  | zero =>
    rw [Nat.le_zero.1 h]
    rfl
  | succ fuel ih =>
    rw [base58Digits]
    split
    · rename_i hpos
      have hn : n ≠ 0 := by omega
      have hmod : ((n : ℤ).tmod 58).toNat = n % 58 := by
        rw [Int.tmod_eq_emod_of_nonneg (by omega)]
        omega
      have hdiv : (n : ℤ).tdiv 58 = (n / 58 : ℕ) := by
        rw [Int.tdiv_eq_ediv_of_nonneg (by omega)]
        omega
      rw [hmod, hdiv, ih (by omega), Nat.digits_eq_cons_digits_div (by decide) hn, List.map_cons]
    · rename_i hpos
      rw [show n = 0 by omega]
      rfl

theorem base58Zeros_eq (v : List UInt8) : base58Zeros v =
    List.replicate (Radix.leadingZeros (v.map UInt8.toNat)) (pszBase58.getD 0 0) := by
  induction v with
  | nil => rfl
  | cons b v ih =>
    rw [base58Zeros, List.map_cons, Radix.leadingZeros]
    by_cases hb : b = 0
    · rw [if_pos hb, if_pos (by rw [hb]; rfl), ih, List.replicate_succ]
    · rw [if_neg hb, if_neg (show ¬ b.toNat = 0 from fun h ↦ hb (UInt8.toNat_inj.1 h))]
      rfl

theorem ofLE_reverse (v : List UInt8) :
    Codec.ofLE v.reverse = Radix.value 256 (v.map UInt8.toNat) := by
  rw [Codec.ofLE, Radix.value, List.map_reverse]

/-- **Encoding is a change of base.** -/
theorem encodeBase58_eq (v : List UInt8) : encodeBase58 v =
    (Radix.convert 256 58 (v.map UInt8.toNat)).map fun i ↦ pszBase58.getD i 0 := by
  rw [encodeBase58, CBigNum.setvch_eq_decode, SignMagnitude.decode_concat_zero, ofLE_reverse,
    Int.natAbs_natCast, base58Digits_eq le_rfl, base58Zeros_eq, Radix.convert, List.map_append,
    List.map_replicate, List.reverse_append, List.reverse_replicate, Radix.digits, List.map_reverse]

theorem isBase58_encodeBase58 (v : List UInt8) : IsBase58 (encodeBase58 v) := by
  rw [encodeBase58_eq]
  intro c hc
  obtain ⟨i, hi, rfl⟩ := List.mem_map.1 hc
  exact getD_mem (Radix.convert_lt (by decide) i hi)

end

/-! ## Decoding -/

section

variable {s : List UInt8}

theorem dropWhile_isspace (hs : IsBase58 s) : s.dropWhile isspace = s := by
  rcases s with - | ⟨c, s⟩
  · rfl
  · rw [List.dropWhile_cons, (not_isspace_of_mem c (hs c List.mem_cons_self)).1]
    rfl

theorem decodeBase58Loop_eq (hs : IsBase58 s) (pre : List ℕ) (p : List UInt8) :
    decodeBase58Loop (Radix.value 58 pre) (s ++ p) =
      decodeBase58Loop (Radix.value 58 (pre ++ s.map base58Index)) p := by
  induction s generalizing pre with
  | nil => rw [List.map_nil, List.append_nil, List.nil_append]
  | cons c s ih =>
    obtain ⟨hc, hs⟩ := List.forall_mem_cons.1 hs
    have hnext : (Radix.value 58 pre : ℤ) * 58 + base58Index c =
        Radix.value 58 (pre ++ [base58Index c]) := by
      rw [Radix.value_append_singleton]
      push_cast
      rfl
    rw [List.cons_append, decodeBase58Loop, idxOf?_of_mem hc]
    dsimp only
    rw [hnext, ih hs, List.append_assoc, List.map_cons, List.singleton_append]

theorem takeWhile_one (hs : IsBase58 s) : (s.takeWhile (· = pszBase58.getD 0 0)).length =
    Radix.leadingZeros (s.map base58Index) := by
  induction s with
  | nil => rfl
  | cons c s ih =>
    obtain ⟨hc, hs⟩ := List.forall_mem_cons.1 hs
    have hone : c = pszBase58.getD 0 0 ↔ base58Index c = 0 := by
      constructor
      · rintro rfl
        exact base58Index_getD (by decide)
      · intro h
        rw [← getD_base58Index hc, h]
    rw [List.takeWhile_cons, List.map_cons, Radix.leadingZeros]
    by_cases h : base58Index c = 0
    · rw [if_pos h, decide_eq_true (hone.2 h), if_pos rfl, List.length_cons, ih hs]
    · rw [if_neg h, decide_eq_false (fun hc ↦ h (hone.1 hc)), if_neg Bool.false_ne_true]
      rfl

/-- Without its sign byte a number is its bytes. -/
theorem trimSign_getvch (n : ℕ) : trimSign (CBigNum.getvch n) = SignMagnitude.bytes n := by
  rw [CBigNum.getvch_eq_encode]
  rcases SignMagnitude.encode_natCast n with h | ⟨h, l, b, hl, hb⟩
  · rw [h, trimSign, if_neg]
    rintro ⟨-, hlast, -⟩
    rcases Nat.eq_zero_or_pos n with rfl | hn
    · rw [SignMagnitude.bytes_zero] at hlast
      cases hlast
    · obtain ⟨l, b, hl, hb⟩ := SignMagnitude.exists_bytes_eq hn.ne'
      rw [hl, List.getLast?_concat] at hlast
      exact hb (Option.some.inj hlast)
  · rw [h, trimSign, if_pos, List.dropLast_concat]
    refine ⟨?_, List.getLast?_concat, b, ?_, hb⟩
    · rw [hl, List.length_append, List.length_append]
      simp only [List.length_singleton]
      omega
    · rw [List.dropLast_concat, hl, List.getLast?_concat]
      rfl

theorem reverse_bytes (n : ℕ) :
    (SignMagnitude.bytes n).reverse = (Radix.digits 256 n).map UInt8.ofNat := by
  rw [SignMagnitude.bytes, Radix.digits, List.map_reverse]

/-- **Decoding is a change of base.** -/
theorem decodeBase58_eq (hs : IsBase58 s) : decodeBase58 s =
    some ((Radix.convert 58 256 (s.map base58Index)).map UInt8.ofNat) := by
  have hloop := decodeBase58Loop_eq hs [] []
  rw [List.append_nil, List.nil_append] at hloop
  change decodeBase58Loop 0 s = some _ at hloop
  rw [decodeBase58, dropWhile_isspace hs, hloop, Option.map_some, trimSign_getvch,
    takeWhile_one hs, reverse_bytes, Radix.convert, List.map_append, List.map_replicate]
  rfl

theorem cStr_of_isBase58 (hs : IsBase58 s) : cStr s = s :=
  List.takeWhile_eq_self_iff.2 fun c hc ↦ by simpa using (not_isspace_of_mem c (hs c hc)).2

/-! ## The round trips -/

theorem decodeBase58_encodeBase58 (v : List UInt8) : decodeBase58 (encodeBase58 v) = some v := by
  have hbytes : ∀ d ∈ v.map UInt8.toNat, d < 256 := SignMagnitude.digit_lt
  have hindex : (encodeBase58 v).map base58Index = Radix.convert 256 58 (v.map UInt8.toNat) := by
    rw [encodeBase58_eq, List.map_map]
    refine (List.map_congr_left fun i hi ↦ ?_).trans (List.map_id _)
    exact base58Index_getD (Radix.convert_lt (by decide) i hi)
  rw [decodeBase58_eq (isBase58_encodeBase58 v), hindex, Radix.convert_convert (by decide) hbytes,
    List.map_map, Option.some_inj]
  refine (List.map_congr_left fun b _ ↦ ?_).trans (List.map_id _)
  exact UInt8.ofNat_toNat

theorem encodeBase58_decodeBase58 (hs : IsBase58 s) :
    ∃ v, decodeBase58 s = some v ∧ encodeBase58 v = s := by
  have hindex : ∀ d ∈ s.map base58Index, d < 58 := by
    intro d hd
    obtain ⟨c, hc, rfl⟩ := List.mem_map.1 hd
    exact base58Index_lt (hs c hc)
  have hbytes : ((Radix.convert 58 256 (s.map base58Index)).map UInt8.ofNat).map UInt8.toNat =
      Radix.convert 58 256 (s.map base58Index) := by
    rw [List.map_map]
    refine (List.map_congr_left fun i hi ↦ ?_).trans (List.map_id _)
    exact UInt8.toNat_ofNat_of_lt' (Radix.convert_lt (by decide) i hi)
  refine ⟨_, decodeBase58_eq hs, ?_⟩
  rw [encodeBase58_eq, hbytes, Radix.convert_convert (by decide) hindex, List.map_map]
  refine (List.map_congr_left fun c hc ↦ ?_).trans (List.map_id _)
  exact getD_base58Index (hs c hc)

end

/-! ## Whitespace -/

/-- A string without the whitespace in front and behind. -/
def trim (s : List UInt8) : List UInt8 := s.dropWhile isspace |>.rdropWhile isspace

section

variable {s p : List UInt8}

/-- The loop stops at the first character that is no digit, and asks for whitespace from there. -/
theorem decodeBase58Loop_of_not_mem {c : UInt8} (hc : c ∉ pszBase58) (bn : ℤ) (p : List UInt8) :
    decodeBase58Loop bn (c :: p) = if ∀ b ∈ c :: p, isspace b then some bn else none := by
  rw [decodeBase58Loop, List.idxOf?_eq_none_iff.2 hc]
  dsimp only
  rw [if_congr List.dropWhile_eq_nil_iff rfl rfl]

/-- A string is digits, and then nothing or another character. -/
theorem exists_digits (s : List UInt8) : ∃ d p, s = d ++ p ∧ IsBase58 d ∧
    ∀ c ∈ p.head?, c ∉ pszBase58 := by
  refine ⟨s.takeWhile (· ∈ pszBase58), s.dropWhile (· ∈ pszBase58),
    List.takeWhile_append_dropWhile.symm, fun c hc ↦ ?_, fun c hc ↦ ?_⟩
  · simpa using List.mem_takeWhile_imp hc
  · have hhead := List.head?_dropWhile_not (· ∈ pszBase58) s
    rw [Option.mem_def.1 hc] at hhead
    simpa using hhead

theorem rdropWhile_append {d : List UInt8} (hd : IsBase58 d) (p : List UInt8) :
    (d ++ p).rdropWhile isspace = d ++ p.rdropWhile isspace := by
  have hrev : d.reverse.dropWhile isspace = d.reverse :=
    dropWhile_isspace fun c hc ↦ hd c (List.mem_reverse.1 hc)
  rw [List.rdropWhile, List.reverse_append, List.dropWhile_append, hrev, List.rdropWhile]
  split
  · rename_i hp
    rw [List.isEmpty_iff.1 hp, List.reverse_reverse, List.reverse_nil, List.append_nil]
  · rw [List.reverse_append, List.reverse_reverse]

/-- What is decoded are the digits, and behind them there is only whitespace. -/
theorem decodeBase58_append {d p : List UInt8} (hs : s.dropWhile isspace = d ++ p)
    (hd : IsBase58 d) (hp : ∀ c ∈ p.head?, c ∉ pszBase58) :
    decodeBase58 s = if ∀ b ∈ p, isspace b then decodeBase58 d else none := by
  have hloop := decodeBase58Loop_eq hd [] p
  have hones : (d ++ p).takeWhile (· = pszBase58.getD 0 0) =
      d.takeWhile (· = pszBase58.getD 0 0) := by
    have hnone : p.takeWhile (· = pszBase58.getD 0 0) = [] := by
      rcases p with - | ⟨c, p⟩
      · rfl
      · refine List.takeWhile_cons_of_neg fun hc ↦ hp c rfl ?_
        rw [of_decide_eq_true hc]
        exact getD_mem (by decide)
    rw [List.takeWhile_append]
    split
    · rename_i hlen
      rw [hnone, List.append_nil, (List.takeWhile_prefix _).eq_of_length hlen]
    · rfl
  have hself := decodeBase58Loop_eq hd [] []
  rw [List.append_nil, List.nil_append] at hself
  change decodeBase58Loop 0 d = some _ at hself
  change decodeBase58Loop 0 (d ++ p) = decodeBase58Loop (Radix.value 58 (d.map base58Index)) p
    at hloop
  rw [decodeBase58, hs, hloop, hones, decodeBase58, dropWhile_isspace hd, hself]
  rcases p with - | ⟨c, p⟩
  · rw [if_pos (List.forall_mem_nil _)]
    rfl
  · rw [decodeBase58Loop_of_not_mem (hp c rfl)]
    split
    · rfl
    · rfl

/-- **Only whitespace around the digits is skipped.** -/
theorem decodeBase58_eq_trim (s : List UInt8) :
    decodeBase58 s = if IsBase58 (trim s) then decodeBase58 (trim s) else none := by
  obtain ⟨d, p, hs, hd, hp⟩ := exists_digits (s.dropWhile isspace)
  have htrim : trim s = d ++ p.rdropWhile isspace := by
    rw [trim, hs]
    exact rdropWhile_append hd p
  rw [decodeBase58_append hs hd hp, htrim]
  by_cases hspace : ∀ b ∈ p, isspace b
  · rw [if_pos hspace, List.rdropWhile_eq_nil_iff.2 hspace, List.append_nil, if_pos hd]
  · rw [if_neg hspace, if_neg]
    intro hbase
    have hne : p.rdropWhile isspace ≠ [] := fun h ↦ hspace (List.rdropWhile_eq_nil_iff.1 h)
    obtain ⟨c, q, hq⟩ := List.exists_cons_of_ne_nil hne
    obtain ⟨r, hr⟩ := List.rdropWhile_prefix isspace p
    refine hp c ?_ (hbase c ?_)
    · rw [← hr, hq]
      rfl
    · rw [hq]
      exact List.mem_append_right _ List.mem_cons_self

/-! ## Both ways -/

/-- **Encoding and decoding undo each other.**  A string that is decoded is, up to the zero
character that ends a C string and without the whitespace around it, made of the alphabet only, and
it is decoded as what is left of it then. -/
theorem base58_correct :
    (∀ vch, decodeBase58Str (encodeBase58 vch) = some vch) ∧
    (∀ s, IsBase58 s → ∃ vch, decodeBase58Str s = some vch ∧ encodeBase58 vch = s) ∧
    ∀ str, decodeBase58Str str =
      if IsBase58 (trim (cStr str)) then decodeBase58Str (trim (cStr str)) else none := by
  refine ⟨fun vch ↦ ?_, fun s hs ↦ ?_, fun str ↦ ?_⟩
  · rw [decodeBase58Str, cStr_of_isBase58 (isBase58_encodeBase58 vch),
      decodeBase58_encodeBase58]
  · rw [decodeBase58Str, cStr_of_isBase58 hs]
    exact encodeBase58_decodeBase58 hs
  · rw [decodeBase58Str, decodeBase58_eq_trim]
    split
    · rename_i h
      rw [decodeBase58Str, cStr_of_isBase58 h]
    · rfl

/-- The sign bit of the first byte, and a zero in front of it, are kept. -/
theorem base58_correct_sample : IsBase58 [0x31, 0x35, 0x51] ∧
    ∃ vch, decodeBase58Str [0x31, 0x35, 0x51] = some vch ∧
      encodeBase58 vch = [0x31, 0x35, 0x51] :=
  have h : IsBase58 [0x31, 0x35, 0x51] := by decide +kernel
  ⟨h, base58_correct.2.1 _ h⟩

/-- What follows a zero character of a `std::string` is not looked at: `"2\0!"` is decoded. -/
theorem not_base58_trim : ¬ ∀ str, (decodeBase58Str str).isSome → IsBase58 (trim str) := fun h ↦
  absurd (h [0x32, 0x00, 0x21] (by decide +kernel)) (by decide +kernel)

end

end Bws
