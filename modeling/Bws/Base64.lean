import Bws.Base58
import Bws.Serialize
import Bws.Lib.Regroup

/-!
# Base 64 and base 32

`EncodeBase64`, `EncodeBase32` and their decoders go through the bits of a text with a mode, which
says how many bits have not been written yet.  Both are regroupings of bits (`Regroup.Regroups`), so
that what is encoded is decoded again.

The decoders stop at the first character outside of the alphabet and look at what follows only as
far as they need it for the padding.  So they accept an encoding with any text behind it that begins
with such a character (`Code.decode_eq_iff`).
-/

namespace Bws

open Regroup

/-! ## The functions of the source -/

/-- What the loops keep: what has been written, how many bits have not been, and these bits. -/
structure Recoding where
  ret : List UInt8
  mode : ℕ
  left : ℕ

def Recoding.start : Recoding := ⟨[], 0, 0⟩

def pbase64 : List UInt8 := ascii "ABCDEFGHIJKLMNOPQRSTUVWXYZabcdefghijklmnopqrstuvwxyz0123456789+/"

/-- The loop of `EncodeBase64`, for one byte. -/
def encodeBase64Step (s : Recoding) (enc : ℕ) : Recoding :=
  match s.mode with
  | 0 => ⟨s.ret ++ [pbase64.getD (enc >>> 2) 0], 1, (enc &&& 3) <<< 4⟩
  | 1 => ⟨s.ret ++ [pbase64.getD (s.left ||| enc >>> 4) 0], 2, (enc &&& 15) <<< 2⟩
  | 2 => ⟨s.ret ++ [pbase64.getD (s.left ||| enc >>> 6) 0, pbase64.getD (enc &&& 63) 0], 0, s.left⟩
  | _ => s

def finishBase64 (s : Recoding) : List UInt8 :=
  if s.mode ≠ 0 then
    s.ret ++ [pbase64.getD s.left 0] ++ ascii "=" ++ if s.mode = 1 then ascii "=" else []
  else s.ret

/-- `EncodeBase64` -/
def encodeBase64 (pch : List UInt8) : List UInt8 :=
  finishBase64 ((pch.map UInt8.toNat).foldl encodeBase64Step .start)

/-- The table of 256 entries, with its runs of `-1` counted. -/
def decode64_table : List ℤ :=
  List.replicate 43 (-1) ++ [62] ++ List.replicate 3 (-1) ++
  [63, 52, 53, 54, 55, 56, 57, 58, 59, 60, 61] ++ List.replicate 7 (-1) ++
  [ 0,  1,  2,  3,  4,  5,  6,  7,  8,  9, 10, 11, 12, 13, 14, 15, 16, 17, 18, 19, 20, 21, 22, 23,
   24, 25] ++ List.replicate 6 (-1) ++
  [26, 27, 28, 29, 30, 31, 32, 33, 34, 35, 36, 37, 38, 39, 40, 41, 42, 43, 44, 45, 46, 47, 48, 49,
   50, 51] ++ List.replicate 133 (-1)

/-- The loop of `DecodeBase64`, for one digit. -/
def decodeBase64Step (s : Recoding) (dec : ℕ) : Recoding :=
  match s.mode with
  | 0 => ⟨s.ret, 1, dec⟩
  | 1 => ⟨s.ret ++ [UInt8.ofNat (s.left <<< 2 ||| dec >>> 4)], 2, dec &&& 15⟩
  | 2 => ⟨s.ret ++ [UInt8.ofNat (s.left <<< 4 ||| dec >>> 2)], 3, dec &&& 3⟩
  | 3 => ⟨s.ret ++ [UInt8.ofNat (s.left <<< 6 ||| dec)], 0, s.left⟩
  | _ => s

/-- The loop of both decoders, as far as the table goes; what is left of the string is returned too.
A string ends with a zero, for which there is no digit. -/
def decodeLoop (table : List ℤ) (step : Recoding → ℕ → Recoding) (s : Recoding) :
    List UInt8 → Recoding × List UInt8
  | [] => (s, [])
  | c :: p =>
    let dec := table.getD c.toNat (-1)
    if dec = -1 then (s, c :: p) else decodeLoop table step (step s dec.toNat) p

/-- `p[0] == '=' && … && p[n-1] == '='`, and then a character for which there is no digit. -/
def paddedBy (table : List ℤ) (n : ℕ) (p : List UInt8) : Bool :=
  (List.range n).all (fun i ↦ p.getD i 0 = 0x3d) && table.getD (p.getD n 0).toNat (-1) = -1

/-- `*pfInvalid` of `DecodeBase64` -/
def invalidBase64 (s : Recoding) (p : List UInt8) : Bool :=
  match s.mode with
  | 0 => false
  | 1 => true
  | 2 => s.left ≠ 0 || !paddedBy decode64_table 2 p
  | 3 => s.left ≠ 0 || !paddedBy decode64_table 1 p
  | _ => false

/-- `DecodeBase64`, with what it says in `*pfInvalid`. -/
def decodeBase64 (p : List UInt8) : List UInt8 × Bool :=
  let (s, p) := decodeLoop decode64_table decodeBase64Step .start p
  (s.ret, invalidBase64 s p)

def pbase32 : List UInt8 := ascii "abcdefghijklmnopqrstuvwxyz234567"

/-- The loop of `EncodeBase32`, for one byte. -/
def encodeBase32Step (s : Recoding) (enc : ℕ) : Recoding :=
  match s.mode with
  | 0 => ⟨s.ret ++ [pbase32.getD (enc >>> 3) 0], 1, (enc &&& 7) <<< 2⟩
  | 1 => ⟨s.ret ++ [pbase32.getD (s.left ||| enc >>> 6) 0, pbase32.getD (enc >>> 1 &&& 31) 0], 2,
      (enc &&& 1) <<< 4⟩
  | 2 => ⟨s.ret ++ [pbase32.getD (s.left ||| enc >>> 4) 0], 3, (enc &&& 15) <<< 1⟩
  | 3 => ⟨s.ret ++ [pbase32.getD (s.left ||| enc >>> 7) 0, pbase32.getD (enc >>> 2 &&& 31) 0], 4,
      (enc &&& 3) <<< 3⟩
  | 4 => ⟨s.ret ++ [pbase32.getD (s.left ||| enc >>> 5) 0, pbase32.getD (enc &&& 31) 0], 0, s.left⟩
  | _ => s

def nPadding : List ℕ := [0, 6, 4, 3, 1]

def finishBase32 (s : Recoding) : List UInt8 :=
  if s.mode ≠ 0 then
    s.ret ++ [pbase32.getD s.left 0] ++ List.replicate (nPadding.getD s.mode 0) 0x3d
  else s.ret

/-- `EncodeBase32` -/
def encodeBase32 (pch : List UInt8) : List UInt8 :=
  finishBase32 ((pch.map UInt8.toNat).foldl encodeBase32Step .start)

/-- The table of 256 entries, with its runs of `-1` counted. -/
def decode32_table : List ℤ :=
  List.replicate 50 (-1) ++ [26, 27, 28, 29, 30, 31] ++ List.replicate 9 (-1) ++
  [ 0,  1,  2,  3,  4,  5,  6,  7,  8,  9, 10, 11, 12, 13, 14, 15, 16, 17, 18, 19, 20, 21, 22, 23,
   24, 25] ++ List.replicate 6 (-1) ++
  [ 0,  1,  2,  3,  4,  5,  6,  7,  8,  9, 10, 11, 12, 13, 14, 15, 16, 17, 18, 19, 20, 21, 22, 23,
   24, 25] ++ List.replicate 133 (-1)

/-- The loop of `DecodeBase32`, for one digit. -/
def decodeBase32Step (s : Recoding) (dec : ℕ) : Recoding :=
  match s.mode with
  | 0 => ⟨s.ret, 1, dec⟩
  | 1 => ⟨s.ret ++ [UInt8.ofNat (s.left <<< 3 ||| dec >>> 2)], 2, dec &&& 3⟩
  | 2 => ⟨s.ret, 3, s.left <<< 5 ||| dec⟩
  | 3 => ⟨s.ret ++ [UInt8.ofNat (s.left <<< 1 ||| dec >>> 4)], 4, dec &&& 15⟩
  | 4 => ⟨s.ret ++ [UInt8.ofNat (s.left <<< 4 ||| dec >>> 1)], 5, dec &&& 1⟩
  | 5 => ⟨s.ret, 6, s.left <<< 5 ||| dec⟩
  | 6 => ⟨s.ret ++ [UInt8.ofNat (s.left <<< 2 ||| dec >>> 3)], 7, dec &&& 7⟩
  | 7 => ⟨s.ret ++ [UInt8.ofNat (s.left <<< 5 ||| dec)], 0, s.left⟩
  | _ => s

/-- `*pfInvalid` of `DecodeBase32` -/
def invalidBase32 (s : Recoding) (p : List UInt8) : Bool :=
  match s.mode with
  | 0 => false
  | 1 | 3 | 6 => true
  | 2 => s.left ≠ 0 || !paddedBy decode32_table 6 p
  | 4 => s.left ≠ 0 || !paddedBy decode32_table 4 p
  | 5 => s.left ≠ 0 || !paddedBy decode32_table 3 p
  | 7 => s.left ≠ 0 || !paddedBy decode32_table 1 p
  | _ => false

/-- `DecodeBase32`, with what it says in `*pfInvalid`. -/
def decodeBase32 (p : List UInt8) : List UInt8 × Bool :=
  let (s, p) := decodeLoop decode32_table decodeBase32Step .start p
  (s.ret, invalidBase32 s p)

/-- `tolower`, in the C locale. -/
def toLower (c : UInt8) : UInt8 := if 0x41 ≤ c ∧ c ≤ 0x5a then c + 0x20 else c

/-! ## What both codes have in common -/

/-- A code with `b` bits in a character, and the letter case that it does not tell apart. -/
structure Code where
  b : ℕ
  encodeModes : ℕ
  decodeModes : ℕ
  pbase : List UInt8
  canon : UInt8 → UInt8
  table : List ℤ
  encodeStep : Recoding → ℕ → Recoding
  finish : Recoding → List UInt8
  decodeStep : Recoding → ℕ → Recoding
  invalid : Recoding → List UInt8 → Bool

namespace Code

section

variable (C : Code)

def encode (pch : List UInt8) : List UInt8 :=
  C.finish ((pch.map UInt8.toNat).foldl C.encodeStep .start)

def decode (p : List UInt8) : List UInt8 × Bool :=
  let (s, p) := decodeLoop C.table C.decodeStep .start p
  (s.ret, C.invalid s p)

def char (d : ℕ) : UInt8 := C.pbase.getD d 0

/-- A character that stands for a digit. -/
def IsDigit (c : UInt8) : Prop := C.canon c ∈ C.pbase

instance : DecidablePred C.IsDigit := fun _ ↦ inferInstanceAs (Decidable (_ ∈ _))

def digit (c : UInt8) : ℕ := C.pbase.idxOf (C.canon c)

/-- The digits `out` have been written for the bytes `l`, and the bits of `x` are left over; they
are kept in the place that they have in the next digit. -/
structure Encodes (l : List ℕ) (s : Recoding) (out : List ℕ) (x : ℕ) : Prop where
  mode_lt : s.mode < C.encodeModes
  ret : s.ret = out.map C.char
  regroups : Regroups 8 C.b l out (8 * s.mode % C.b) x
  left : s.mode ≠ 0 → s.left = x * 2 ^ (C.b - 8 * s.mode % C.b)

/-- The bytes `out` have been written for the digits `l`, and the bits of `x` are left over. -/
structure Decodes (l : List ℕ) (s : Recoding) (out : List ℕ) (x : ℕ) : Prop where
  mode_lt : s.mode < C.decodeModes
  ret : s.ret = out.map UInt8.ofNat
  regroups : Regroups C.b 8 l out (C.b * s.mode % 8) x
  left : s.mode ≠ 0 → s.left = x

/-- What a text is followed by where it has been padded for `k` missing bits: the padding, and then
nothing or a character that stands for no digit. -/
def Padded (pads : ℕ → ℕ) (k : ℕ) (p : List UInt8) : Prop :=
  ∃ t, p = List.replicate (pads k) 0x3d ++ t ∧ ∀ c ∈ t.head?, ¬ C.IsDigit c

/-- The functions do what the code is meant to do, with so many padding characters for so many
missing bits. -/
structure Lawful (pads : ℕ → ℕ) : Prop where
  pos : 0 < C.b
  encodeModes_pos : 0 < C.encodeModes
  decodeModes_pos : 0 < C.decodeModes
  le : C.b ≤ 8
  length : C.pbase.length = 2 ^ C.b
  nodup : C.pbase.Nodup
  canon_eq : ∀ c ∈ C.pbase, C.canon c = c
  canon_eq_pad : ∀ c, C.canon c = 0x3d ↔ c = 0x3d
  pad_notMem : 0x3d ∉ C.pbase
  table : ∀ c, C.table.getD c.toNat (-1) =
    if C.canon c ∈ C.pbase then (C.pbase.idxOf (C.canon c) : ℤ) else -1
  encodeStep {l s out x c} : C.Encodes l s out x → c < 256 →
    ∃ out' x', C.Encodes (l ++ [c]) (C.encodeStep s c) out' x'
  finish {l s out x} : C.Encodes l s out x →
    C.finish s = (padded C.b out (8 * s.mode % C.b) x).map C.char ++
      List.replicate (pads (padBits C.b (8 * s.mode % C.b))) 0x3d
  decodeStep {l s out x d} : C.Decodes l s out x → d < 2 ^ C.b →
    ∃ out' x', C.Decodes (l ++ [d]) (C.decodeStep s d) out' x'
  invalid {l s out x p} : C.Decodes l s out x → (∀ c ∈ p.head?, ¬ C.IsDigit c) →
    (C.invalid s p = false ↔ C.b * s.mode % 8 < C.b ∧ x = 0 ∧ C.Padded pads (C.b * s.mode % 8) p)

end

section

variable {C : Code} {pads : ℕ → ℕ} {l out e : List ℕ} {s s' : Recoding} {x x' c d k : ℕ}
  {v w t p : List UInt8}

theorem Encodes.concat (h : C.Encodes l s out x) (hmode : s'.mode < C.encodeModes)
    (hret : s'.ret = s.ret ++ e.map C.char)
    (hbits : 8 * s.mode % C.b + 8 = C.b * e.length + 8 * s'.mode % C.b)
    (hvalue : x * 256 + c = Radix.value (2 ^ C.b) e * 2 ^ (8 * s'.mode % C.b) + x')
    (hsmall : x' < 2 ^ (8 * s'.mode % C.b)) (hdigit : ∀ d ∈ e, d < 2 ^ C.b)
    (hleft : s'.mode ≠ 0 → s'.left = x' * 2 ^ (C.b - 8 * s'.mode % C.b)) :
    C.Encodes (l ++ [c]) s' (out ++ e) x' where
  mode_lt := hmode
  ret := by rw [hret, h.ret, List.map_append]
  regroups := h.regroups.concat hbits (Nat.mod_lt _ (Nat.zero_lt_of_lt h.regroups.rest_lt)) hvalue
    hsmall hdigit
  left := hleft

theorem Decodes.concat (h : C.Decodes l s out x) (hmode : s'.mode < C.decodeModes)
    (hret : s'.ret = s.ret ++ e.map UInt8.ofNat)
    (hbits : C.b * s.mode % 8 + C.b = 8 * e.length + C.b * s'.mode % 8)
    (hvalue : x * 2 ^ C.b + d = Radix.value 256 e * 2 ^ (C.b * s'.mode % 8) + x')
    (hsmall : x' < 2 ^ (C.b * s'.mode % 8)) (hdigit : ∀ d ∈ e, d < 256)
    (hleft : s'.mode ≠ 0 → s'.left = x') : C.Decodes (l ++ [d]) s' (out ++ e) x' where
  mode_lt := hmode
  ret := by rw [hret, h.ret, List.map_append]
  regroups := h.regroups.concat hbits (Nat.mod_lt _ (by decide)) hvalue hsmall hdigit
  left := hleft

theorem char_digit {c : UInt8} (hc : C.IsDigit c) : C.char (C.digit c) = C.canon c := by
  rw [char, digit, List.getD_eq_getElem _ _ (List.idxOf_lt_length_of_mem hc)]
  exact List.getElem_idxOf _

theorem toNat_map_ofNat {a : ℕ} (h : Regroups a 8 l out k x) :
    (out.map UInt8.ofNat).map UInt8.toNat = out := by
  rw [List.map_map]
  refine (List.map_congr_left fun d hd ↦ ?_).trans (List.map_id _)
  exact UInt8.toNat_ofNat_of_lt' (h.digit_lt d hd)

/-- A text is digits, and then nothing or another character. -/
theorem exists_digits (p : List UInt8) : ∃ w t, p = w ++ t ∧ (∀ c ∈ w, C.IsDigit c) ∧
    ∀ c ∈ t.head?, ¬ C.IsDigit c := by
  refine ⟨p.takeWhile C.IsDigit, p.dropWhile C.IsDigit, List.takeWhile_append_dropWhile.symm,
    fun c hc ↦ ?_, fun c hc ↦ ?_⟩
  · simpa using List.mem_takeWhile_imp hc
  · have hhead := List.head?_dropWhile_not (fun c ↦ decide (C.IsDigit c)) p
    rw [Option.mem_def.1 hc] at hhead
    simpa using hhead

namespace Lawful

variable (hC : C.Lawful pads)
include hC

theorem encodes_foldl (hl : ∀ c ∈ l, c < 256) :
    ∃ out x, C.Encodes l (l.foldl C.encodeStep .start) out x := by
  induction l using List.reverseRecOn with
  | nil => exact ⟨[], 0, hC.encodeModes_pos, rfl, .nil hC.pos, nofun⟩
  | append_singleton l c ih =>
    obtain ⟨out, x, h⟩ := ih fun c hc ↦ hl c (List.mem_append_left _ hc)
    rw [List.foldl_concat]
    exact hC.encodeStep h (hl c (List.mem_append_right _ (List.mem_singleton_self c)))

theorem decodes_foldl (hl : ∀ d ∈ l, d < 2 ^ C.b) :
    ∃ out x, C.Decodes l (l.foldl C.decodeStep .start) out x := by
  induction l using List.reverseRecOn with
  | nil =>
    have hnil : Regroups C.b 8 [] [] 0 0 := .nil (by decide)
    exact ⟨[], 0, hC.decodeModes_pos, rfl, hnil, nofun⟩
  | append_singleton l d ih =>
    obtain ⟨out, x, h⟩ := ih fun d hd ↦ hl d (List.mem_append_left _ hd)
    rw [List.foldl_concat]
    exact hC.decodeStep h (hl d (List.mem_append_right _ (List.mem_singleton_self d)))

theorem digit_lt {c : UInt8} (hc : C.IsDigit c) : C.digit c < 2 ^ C.b := by
  rw [← hC.length]
  exact List.idxOf_lt_length_of_mem hc

theorem map_digit_lt (hw : ∀ c ∈ w, C.IsDigit c) : ∀ d ∈ w.map C.digit, d < 2 ^ C.b := by
  intro d hd
  obtain ⟨c, hc, rfl⟩ := List.mem_map.1 hd
  exact hC.digit_lt (hw c hc)

theorem char_mem (hd : d < 2 ^ C.b) : C.char d ∈ C.pbase := by
  rw [char, List.getD_eq_getElem _ _ (by rw [hC.length]; exact hd)]
  exact List.getElem_mem _

theorem canon_char (hd : d < 2 ^ C.b) : C.canon (C.char d) = C.char d :=
  hC.canon_eq _ (hC.char_mem hd)

theorem idxOf_char (hd : d < 2 ^ C.b) : C.pbase.idxOf (C.char d) = d := by
  rw [char, List.getD_eq_getElem _ _ (by rw [hC.length]; exact hd)]
  exact hC.nodup.idxOf_getElem d _

theorem not_isDigit_pad : ¬ C.IsDigit 0x3d := by
  rw [IsDigit, (hC.canon_eq_pad 0x3d).2 rfl]
  exact hC.pad_notMem

/-- The loop goes through the digits, and stops at another character. -/
theorem decodeLoop_append (hw : ∀ c ∈ w, C.IsDigit c) (ht : ∀ c ∈ t.head?, ¬ C.IsDigit c) :
    decodeLoop C.table C.decodeStep s (w ++ t) = ((w.map C.digit).foldl C.decodeStep s, t) := by
  induction w generalizing s with
  | nil =>
    rcases t with - | ⟨c, t⟩
    · rfl
    · have hc : C.table.getD c.toNat (-1) = -1 := by
        rw [hC.table]
        exact if_neg (ht c rfl)
      rw [List.nil_append, decodeLoop, hc, if_pos rfl, List.map_nil, List.foldl_nil]
  | cons c w ih =>
    obtain ⟨hc, hw⟩ := List.forall_mem_cons.1 hw
    have hdigit : C.table.getD c.toNat (-1) = (C.digit c : ℤ) := by
      rw [hC.table]
      exact if_pos hc
    rw [List.cons_append, decodeLoop, hdigit, if_neg (by omega), Int.toNat_natCast, ih hw,
      List.map_cons, List.foldl_cons]

/-- What is encoded are the bits of the bytes in other groups, and padding. -/
theorem encode_spec (v : List UInt8) : ∃ out k x, Regroups 8 C.b (v.map UInt8.toNat) out k x ∧
    C.encode v = (padded C.b out k x).map C.char ++
      List.replicate (pads (padBits C.b k)) 0x3d := by
  obtain ⟨out, x, h⟩ := hC.encodes_foldl (l := v.map UInt8.toNat) SignMagnitude.digit_lt
  exact ⟨out, _, x, h.regroups, hC.finish h⟩

/-- What is decoded are the bits of the digits in other groups, and it is valid if no bits are set
that stand for nothing and the digits are followed by their padding. -/
theorem decode_spec (hw : ∀ c ∈ w, C.IsDigit c) (ht : ∀ c ∈ t.head?, ¬ C.IsDigit c) :
    ∃ out k x, Regroups C.b 8 (w.map C.digit) out k x ∧
      (C.decode (w ++ t)).1 = out.map UInt8.ofNat ∧
      ((C.decode (w ++ t)).2 = false ↔ k < C.b ∧ x = 0 ∧ C.Padded pads k t) := by
  obtain ⟨out, x, h⟩ := hC.decodes_foldl (hC.map_digit_lt hw)
  refine ⟨out, _, x, h.regroups, ?_⟩
  rw [decode, hC.decodeLoop_append hw ht]
  exact ⟨h.ret, hC.invalid h ht⟩

/-- **What is accepted.**  A text is decoded to `v` if and only if it is the encoding of `v`, up to
letter case, and what follows begins with a character that stands for no digit. -/
theorem decode_eq_iff (p v : List UInt8) : C.decode p = (v, false) ↔
    ∃ w t, p = w ++ t ∧ w.map C.canon = C.encode v ∧ ∀ c ∈ t.head?, ¬ C.IsDigit c := by
  constructor
  · intro hdecode
    obtain ⟨w, t, rfl, hw, ht⟩ := exists_digits (C := C) p
    obtain ⟨out, k, x, hre, hret, hvalid⟩ := hC.decode_spec hw ht
    rw [hdecode] at hret hvalid
    obtain ⟨hk, rfl, q, rfl, hq⟩ := hvalid.1 rfl
    obtain ⟨out', k', x', hre', hencode⟩ := hC.encode_spec v
    have hv : v.map UInt8.toNat = out := by
      rw [show v = out.map UInt8.ofNat from hret]
      exact toNat_map_ofNat hre
    rw [hv] at hre'
    obtain ⟨hpadded, hbits⟩ := hre.forth hC.le hk (hC.map_digit_lt hw) hre'
    refine ⟨w ++ List.replicate (pads k) 0x3d, q, by rw [List.append_assoc], ?_, hq⟩
    rw [hencode, hpadded, hbits, List.map_append, List.map_map, List.map_replicate,
      (hC.canon_eq_pad _).2 rfl]
    congr 1
    exact List.map_congr_left fun c hc ↦ (char_digit (hw c hc)).symm
  · rintro ⟨w, t, rfl, hw, ht⟩
    obtain ⟨out, k, x, hre, hencode⟩ := hC.encode_spec v
    rw [hencode] at hw
    obtain ⟨w₁, w₂, rfl, hw₁, hw₂⟩ := List.map_eq_append_iff.1 hw
    have hpad : w₂ = List.replicate (pads (padBits C.b k)) 0x3d := by
      refine List.eq_replicate_iff.2 ⟨?_, fun c hc ↦ (hC.canon_eq_pad c).1 ?_⟩
      · rw [← List.length_map (f := C.canon), hw₂, List.length_replicate]
      · exact List.eq_of_mem_replicate (hw₂ ▸ List.mem_map_of_mem hc)
    have hlt := padded_lt hre
    have hdigits : w₁.map C.digit = padded C.b out k x := by
      have h := congrArg (List.map C.pbase.idxOf) hw₁
      rw [List.map_map, List.map_map] at h
      refine h.trans ((List.map_congr_left fun d hd ↦ ?_).trans (List.map_id _))
      exact hC.idxOf_char (hlt d hd)
    have hisDigit : ∀ c ∈ w₁, C.IsDigit c := by
      intro c hc
      obtain ⟨d, hd, hchar⟩ := List.mem_map.1 (hw₁ ▸ List.mem_map_of_mem (f := C.canon) hc)
      rw [IsDigit, ← hchar]
      exact hC.char_mem (hlt d hd)
    have hhead : ∀ c ∈ (w₂ ++ t).head?, ¬ C.IsDigit c := by
      intro c hc
      rw [List.head?_append] at hc
      rcases hw₂' : w₂ with - | ⟨c', w₂'⟩
      · rw [hw₂'] at hc
        exact ht c hc
      · have hmem : c' ∈ w₂ := by
          rw [hw₂']
          exact List.mem_cons_self
        rw [hw₂'] at hc
        cases Option.some.inj hc
        rw [hpad] at hmem
        rw [List.eq_of_mem_replicate hmem]
        exact hC.not_isDigit_pad
    obtain ⟨out', k', x', hre', hret, hvalid⟩ := hC.decode_spec hisDigit hhead
    rw [hdigits] at hre'
    obtain ⟨rfl, rfl, rfl⟩ := hre'.unique (hre.back hC.le SignMagnitude.digit_lt)
    rw [List.append_assoc]
    refine Prod.ext ?_ (hvalid.2 ⟨?_, rfl, t, by rw [hpad], ht⟩)
    · rw [hret, List.map_map]
      refine (List.map_congr_left fun b _ ↦ ?_).trans (List.map_id _)
      exact UInt8.ofNat_toNat
    · exact hre.padBits_lt

theorem canon_encode (v : List UInt8) : (C.encode v).map C.canon = C.encode v := by
  obtain ⟨out, k, x, hre, hencode⟩ := hC.encode_spec v
  rw [hencode, List.map_append, List.map_map, List.map_replicate, (hC.canon_eq_pad _).2 rfl]
  congr 1
  exact List.map_congr_left fun d hd ↦ hC.canon_char (padded_lt hre d hd)

/-- **What is encoded is decoded.** -/
theorem decode_encode (v : List UInt8) : C.decode (C.encode v) = (v, false) :=
  (hC.decode_eq_iff _ v).2 ⟨C.encode v, [], (List.append_nil _).symm, hC.canon_encode v, nofun⟩

/-- **What is decoded is encoded again**, up to letter case, unless the text is an encoding with
something behind it. -/
theorem encode_decode_iff (p : List UInt8) :
    ((C.decode p).2 = false → C.encode (C.decode p).1 = p.map C.canon) ↔
      ¬ ∃ v w c t, p = w ++ c :: t ∧ w.map C.canon = C.encode v ∧ ¬ C.IsDigit c := by
  constructor
  · rintro h ⟨v, w, c, t, rfl, hw, hc⟩
    have hdecode : C.decode (w ++ c :: t) = (v, false) := (hC.decode_eq_iff _ v).2
      ⟨w, c :: t, rfl, hw, fun c' hc' ↦ by cases Option.some.inj hc'; exact hc⟩
    rw [hdecode] at h
    have hlen := congrArg List.length (h rfl)
    rw [← hw, List.length_map, List.length_map, List.length_append, List.length_cons] at hlen
    omega
  · intro h hvalid
    obtain ⟨w, t, hp, hw, ht⟩ := (hC.decode_eq_iff p (C.decode p).1).1 (Prod.ext rfl hvalid)
    rcases t with - | ⟨c, t⟩
    · rw [← hw, hp, List.append_nil]
    · exact absurd ⟨_, w, c, t, hp, hw, ht c rfl⟩ h

end Lawful

end

end Code

/-! ## The bits -/

/-- Bits are put behind others. -/
theorem mul_two_pow_or {i a b : ℕ} (hb : b < 2 ^ i) : a * 2 ^ i ||| b = a * 2 ^ i + b := by
  rw [mul_comm, Nat.two_pow_add_eq_or_of_lt hb]

theorem shiftLeft_or {i a b : ℕ} (hb : b < 2 ^ i) : a <<< i ||| b = a * 2 ^ i + b := by
  rw [Nat.shiftLeft_eq, mul_two_pow_or hb]

/-! ## The padding -/

theorem paddedBy_iff {table : List ℤ} (hzero : table.getD 0 (-1) = -1) (n : ℕ) (p : List UInt8) :
    paddedBy table n p = true ↔ ∃ t, p = List.replicate n 0x3d ++ t ∧
      ∀ c ∈ t.head?, table.getD c.toNat (-1) = -1 := by
  induction n generalizing p with
  | zero =>
    rcases p with - | ⟨c, p⟩
    · simpa [paddedBy] using hzero
    · simp [paddedBy]
  | succ n ih =>
    rcases p with - | ⟨c, p⟩
    · simp [paddedBy, List.replicate_succ, List.range_succ_eq_map]
    · have hcons : paddedBy table (n + 1) (c :: p) = (decide (c = 0x3d) && paddedBy table n p) := by
        simp [paddedBy, List.range_succ_eq_map, Bool.and_assoc, Function.comp_def]
      simp [hcons, ih, List.replicate_succ, and_assoc]

theorem Code.table_eq_iff {C : Code} (htable : ∀ c, C.table.getD c.toNat (-1) =
    if C.canon c ∈ C.pbase then (C.pbase.idxOf (C.canon c) : ℤ) else -1) (c : UInt8) :
    C.table.getD c.toNat (-1) = -1 ↔ ¬ C.IsDigit c := by
  rw [htable]
  split_ifs with hc
  · exact iff_of_false (fun h ↦ by omega) (not_not.2 hc)
  · exact iff_of_true rfl hc

theorem Code.padded_iff {C : Code} (htable : ∀ c, C.table.getD c.toNat (-1) =
    if C.canon c ∈ C.pbase then (C.pbase.idxOf (C.canon c) : ℤ) else -1)
    (hzero : C.table.getD 0 (-1) = -1) (pads : ℕ → ℕ) (k : ℕ) (p : List UInt8) :
    C.Padded pads k p ↔ paddedBy C.table (pads k) p = true := by
  rw [paddedBy_iff hzero, Code.Padded]
  simp only [Code.table_eq_iff htable]

/-! ## Base 64 -/

def base64 : Code :=
  ⟨6, 3, 4, pbase64, id, decode64_table, encodeBase64Step, finishBase64, decodeBase64Step,
    invalidBase64⟩

theorem base64_encodeStep {l out : List ℕ} {s : Recoding} {x c : ℕ}
    (h : base64.Encodes l s out x) (hc : c < 256) :
    ∃ out' x', base64.Encodes (l ++ [c]) (encodeBase64Step s c) out' x' := by
  rcases s with ⟨ret, mode, left⟩
  have hmode : mode < 3 := h.mode_lt
  have hx := h.regroups.left_lt
  have hleft := h.left
  have h2 : c &&& 3 = c % 4 := Nat.and_two_pow_sub_one_eq_mod c 2
  have h4 : c &&& 15 = c % 16 := Nat.and_two_pow_sub_one_eq_mod c 4
  have h6 : c &&& 63 = c % 64 := Nat.and_two_pow_sub_one_eq_mod c 6
  interval_cases mode <;> simp [base64] at hx hleft
  · refine ⟨_, c % 4, h.concat (e := [c / 4]) ?_ ?_ ?_ ?_ ?_ ?_ ?_⟩ <;>
      simp [encodeBase64Step, Code.char, base64, Regroup.value_singleton, h2, Nat.shiftLeft_eq,
        Nat.shiftRight_eq_div_pow]
    all_goals omega
  · have hor : x * 16 ||| c / 16 = x * 16 + c / 16 := mul_two_pow_or (i := 4) (by omega)
    refine ⟨_, c % 16, h.concat (e := [x * 16 + c / 16]) ?_ ?_ ?_ ?_ ?_ ?_ ?_⟩ <;>
      simp [encodeBase64Step, Code.char, base64, Regroup.value_singleton, h4, hleft, hor,
        Nat.shiftLeft_eq, Nat.shiftRight_eq_div_pow]
    all_goals omega
  · have hor : x * 4 ||| c / 64 = x * 4 + c / 64 := mul_two_pow_or (i := 2) (by omega)
    refine ⟨_, 0, h.concat (e := [x * 4 + c / 64, c % 64]) ?_ ?_ ?_ ?_ ?_ ?_ ?_⟩ <;>
      simp [encodeBase64Step, Code.char, base64, Regroup.value_pair, h6, hleft, hor,
        Nat.shiftRight_eq_div_pow]
    all_goals omega

theorem base64_decodeStep {l out : List ℕ} {s : Recoding} {x d : ℕ}
    (h : base64.Decodes l s out x) (hd : d < 64) :
    ∃ out' x', base64.Decodes (l ++ [d]) (decodeBase64Step s d) out' x' := by
  rcases s with ⟨ret, mode, left⟩
  have hmode : mode < 4 := h.mode_lt
  have hx := h.regroups.left_lt
  have hleft := h.left
  have h2 : d &&& 3 = d % 4 := Nat.and_two_pow_sub_one_eq_mod d 2
  have h4 : d &&& 15 = d % 16 := Nat.and_two_pow_sub_one_eq_mod d 4
  interval_cases mode <;> simp [base64] at hx hleft
  · refine ⟨_, d, h.concat (e := []) ?_ ?_ ?_ ?_ ?_ ?_ ?_⟩ <;>
      simp [decodeBase64Step, base64, hx, hd, Radix.value]
  · have hor : x <<< 2 ||| d / 16 = x * 4 + d / 16 := shiftLeft_or (by omega)
    refine ⟨_, d % 16, h.concat (e := [x * 4 + d / 16]) ?_ ?_ ?_ ?_ ?_ ?_ ?_⟩ <;>
      simp [decodeBase64Step, base64, Regroup.value_singleton, h4, hleft, hor,
        Nat.shiftRight_eq_div_pow]
    all_goals omega
  · have hor : x <<< 4 ||| d / 4 = x * 16 + d / 4 := shiftLeft_or (by omega)
    refine ⟨_, d % 4, h.concat (e := [x * 16 + d / 4]) ?_ ?_ ?_ ?_ ?_ ?_ ?_⟩ <;>
      simp [decodeBase64Step, base64, Regroup.value_singleton, h2, hleft, hor,
        Nat.shiftRight_eq_div_pow]
    all_goals omega
  · have hor : x <<< 6 ||| d = x * 64 + d := shiftLeft_or (by omega)
    refine ⟨_, 0, h.concat (e := [x * 64 + d]) ?_ ?_ ?_ ?_ ?_ ?_ ?_⟩ <;>
      simp [decodeBase64Step, base64, Regroup.value_singleton, hleft, hor]
    all_goals omega

theorem base64_finish {l out : List ℕ} {s : Recoding} {x : ℕ} (h : base64.Encodes l s out x) :
    finishBase64 s = (padded 6 out (8 * s.mode % 6) x).map base64.char ++
      List.replicate (padBits 6 (8 * s.mode % 6) / 2) 0x3d := by
  rcases s with ⟨ret, mode, left⟩
  have hmode : mode < 3 := h.mode_lt
  have hret := h.ret
  have hleft := h.left
  interval_cases mode <;> simp [base64] at hret hleft <;>
    simp [finishBase64, hret, hleft, padded, padBits, Code.char, base64, ascii,
      List.replicate_succ]

/-- The table has the digits of the characters of the alphabet. -/
theorem base64_table : ∀ c : UInt8, decode64_table.getD c.toNat (-1) =
    if c ∈ pbase64 then (pbase64.idxOf c : ℤ) else -1 := by decide +kernel

theorem base64_invalid {l out : List ℕ} {s : Recoding} {x : ℕ} {p : List UInt8}
    (h : base64.Decodes l s out x) (hp : ∀ c ∈ p.head?, ¬ base64.IsDigit c) :
    invalidBase64 s p = false ↔
      6 * s.mode % 8 < 6 ∧ x = 0 ∧ base64.Padded (· / 2) (6 * s.mode % 8) p := by
  rcases s with ⟨ret, mode, left⟩
  have hmode : mode < 4 := h.mode_lt
  have hx := h.regroups.left_lt
  have hleft := h.left
  have hempty : base64.Padded (· / 2) 0 p := ⟨p, rfl, hp⟩
  rw [Code.padded_iff base64_table rfl] at hempty ⊢
  interval_cases mode <;> simp [base64] at hx hleft hempty
  · simp [invalidBase64, base64, hx, hempty]
  · simp [invalidBase64]
  · simp [invalidBase64, hleft, base64]
  · simp [invalidBase64, hleft, base64]

theorem base64_lawful : base64.Lawful (· / 2) where
  pos := by decide
  encodeModes_pos := by decide
  decodeModes_pos := by decide
  le := by decide
  length := by decide +kernel
  nodup := by decide +kernel
  canon_eq _ _ := rfl
  canon_eq_pad _ := Iff.rfl
  pad_notMem := by decide +kernel
  table := base64_table
  encodeStep := base64_encodeStep
  finish := base64_finish
  decodeStep := base64_decodeStep
  invalid := base64_invalid

/-! ## Base 32 -/

def base32 : Code :=
  ⟨5, 5, 8, pbase32, toLower, decode32_table, encodeBase32Step, finishBase32, decodeBase32Step,
    invalidBase32⟩

theorem base32_encodeStep {l out : List ℕ} {s : Recoding} {x c : ℕ}
    (h : base32.Encodes l s out x) (hc : c < 256) :
    ∃ out' x', base32.Encodes (l ++ [c]) (encodeBase32Step s c) out' x' := by
  rcases s with ⟨ret, mode, left⟩
  have hmode : mode < 5 := h.mode_lt
  have hx := h.regroups.left_lt
  have hleft := h.left
  have h1 : c &&& 1 = c % 2 := Nat.and_two_pow_sub_one_eq_mod c 1
  have h2 : c &&& 3 = c % 4 := Nat.and_two_pow_sub_one_eq_mod c 2
  have h3 : c &&& 7 = c % 8 := Nat.and_two_pow_sub_one_eq_mod c 3
  have h4 : c &&& 15 = c % 16 := Nat.and_two_pow_sub_one_eq_mod c 4
  have h5 : ∀ n, n &&& 31 = n % 32 := fun n ↦ Nat.and_two_pow_sub_one_eq_mod n 5
  interval_cases mode <;> simp [base32] at hx hleft
  · refine ⟨_, c % 8, h.concat (e := [c / 8]) ?_ ?_ ?_ ?_ ?_ ?_ ?_⟩ <;>
      simp [encodeBase32Step, Code.char, base32, Regroup.value_singleton, h3, Nat.shiftLeft_eq,
        Nat.shiftRight_eq_div_pow]
    all_goals omega
  · have hor : x * 4 ||| c / 64 = x * 4 + c / 64 := mul_two_pow_or (i := 2) (by omega)
    refine ⟨_, c % 2, h.concat (e := [x * 4 + c / 64, c / 2 % 32]) ?_ ?_ ?_ ?_ ?_ ?_ ?_⟩ <;>
      simp [encodeBase32Step, Code.char, base32, Regroup.value_pair, h1, h5, hleft, hor,
        Nat.shiftLeft_eq, Nat.shiftRight_eq_div_pow]
    all_goals omega
  · have hor : x * 16 ||| c / 16 = x * 16 + c / 16 := mul_two_pow_or (i := 4) (by omega)
    refine ⟨_, c % 16, h.concat (e := [x * 16 + c / 16]) ?_ ?_ ?_ ?_ ?_ ?_ ?_⟩ <;>
      simp [encodeBase32Step, Code.char, base32, Regroup.value_singleton, h4, hleft, hor,
        Nat.shiftLeft_eq, Nat.shiftRight_eq_div_pow]
    all_goals omega
  · have hor : x * 2 ||| c / 128 = x * 2 + c / 128 := mul_two_pow_or (i := 1) (by omega)
    refine ⟨_, c % 4, h.concat (e := [x * 2 + c / 128, c / 4 % 32]) ?_ ?_ ?_ ?_ ?_ ?_ ?_⟩ <;>
      simp [encodeBase32Step, Code.char, base32, Regroup.value_pair, h2, h5, hleft, hor,
        Nat.shiftLeft_eq, Nat.shiftRight_eq_div_pow]
    all_goals omega
  · have hor : x * 8 ||| c / 32 = x * 8 + c / 32 := mul_two_pow_or (i := 3) (by omega)
    refine ⟨_, 0, h.concat (e := [x * 8 + c / 32, c % 32]) ?_ ?_ ?_ ?_ ?_ ?_ ?_⟩ <;>
      simp [encodeBase32Step, Code.char, base32, Regroup.value_pair, h5, hleft, hor,
        Nat.shiftRight_eq_div_pow]
    all_goals omega

theorem base32_decodeStep {l out : List ℕ} {s : Recoding} {x d : ℕ}
    (h : base32.Decodes l s out x) (hd : d < 32) :
    ∃ out' x', base32.Decodes (l ++ [d]) (decodeBase32Step s d) out' x' := by
  rcases s with ⟨ret, mode, left⟩
  have hmode : mode < 8 := h.mode_lt
  have hx := h.regroups.left_lt
  have hleft := h.left
  have h1 : d &&& 1 = d % 2 := Nat.and_two_pow_sub_one_eq_mod d 1
  have h2 : d &&& 3 = d % 4 := Nat.and_two_pow_sub_one_eq_mod d 2
  have h3 : d &&& 7 = d % 8 := Nat.and_two_pow_sub_one_eq_mod d 3
  have h4 : d &&& 15 = d % 16 := Nat.and_two_pow_sub_one_eq_mod d 4
  interval_cases mode <;> simp [base32] at hx hleft
  · refine ⟨_, d, h.concat (e := []) ?_ ?_ ?_ ?_ ?_ ?_ ?_⟩ <;>
      simp [decodeBase32Step, base32, hx, hd, Radix.value]
  · have hor : x <<< 3 ||| d / 4 = x * 8 + d / 4 := shiftLeft_or (by omega)
    refine ⟨_, d % 4, h.concat (e := [x * 8 + d / 4]) ?_ ?_ ?_ ?_ ?_ ?_ ?_⟩ <;>
      simp [decodeBase32Step, base32, Regroup.value_singleton, h2, hleft, hor,
        Nat.shiftRight_eq_div_pow]
    all_goals omega
  · have hor : x <<< 5 ||| d = x * 32 + d := shiftLeft_or hd
    refine ⟨_, x * 32 + d, h.concat (e := []) ?_ ?_ ?_ ?_ ?_ ?_ ?_⟩ <;>
      simp [decodeBase32Step, base32, hleft, hor, Radix.value]
    all_goals omega
  · have hor : x <<< 1 ||| d / 16 = x * 2 + d / 16 := shiftLeft_or (by omega)
    refine ⟨_, d % 16, h.concat (e := [x * 2 + d / 16]) ?_ ?_ ?_ ?_ ?_ ?_ ?_⟩ <;>
      simp [decodeBase32Step, base32, Regroup.value_singleton, h4, hleft, hor,
        Nat.shiftRight_eq_div_pow]
    all_goals omega
  · have hor : x <<< 4 ||| d / 2 = x * 16 + d / 2 := shiftLeft_or (by omega)
    refine ⟨_, d % 2, h.concat (e := [x * 16 + d / 2]) ?_ ?_ ?_ ?_ ?_ ?_ ?_⟩ <;>
      simp [decodeBase32Step, base32, Regroup.value_singleton, h1, hleft, hor,
        Nat.shiftRight_eq_div_pow]
    all_goals omega
  · have hor : x <<< 5 ||| d = x * 32 + d := shiftLeft_or hd
    refine ⟨_, x * 32 + d, h.concat (e := []) ?_ ?_ ?_ ?_ ?_ ?_ ?_⟩ <;>
      simp [decodeBase32Step, base32, hleft, hor, Radix.value]
    all_goals omega
  · have hor : x <<< 2 ||| d / 8 = x * 4 + d / 8 := shiftLeft_or (by omega)
    refine ⟨_, d % 8, h.concat (e := [x * 4 + d / 8]) ?_ ?_ ?_ ?_ ?_ ?_ ?_⟩ <;>
      simp [decodeBase32Step, base32, Regroup.value_singleton, h3, hleft, hor,
        Nat.shiftRight_eq_div_pow]
    all_goals omega
  · have hor : x <<< 5 ||| d = x * 32 + d := shiftLeft_or hd
    refine ⟨_, 0, h.concat (e := [x * 32 + d]) ?_ ?_ ?_ ?_ ?_ ?_ ?_⟩ <;>
      simp [decodeBase32Step, base32, Regroup.value_singleton, hleft, hor]
    all_goals omega

theorem base32_finish {l out : List ℕ} {s : Recoding} {x : ℕ} (h : base32.Encodes l s out x) :
    finishBase32 s = (padded 5 out (8 * s.mode % 5) x).map base32.char ++
      List.replicate (padBits 5 (8 * s.mode % 5) * 3 % 8) 0x3d := by
  rcases s with ⟨ret, mode, left⟩
  have hmode : mode < 5 := h.mode_lt
  have hret := h.ret
  have hleft := h.left
  interval_cases mode <;> simp [base32] at hret hleft <;>
    simp [finishBase32, nPadding, hret, hleft, padded, padBits, Code.char, base32]

/-- The table has the digits of the characters of the alphabet, in both cases. -/
theorem base32_table : ∀ c : UInt8, decode32_table.getD c.toNat (-1) =
    if toLower c ∈ pbase32 then (pbase32.idxOf (toLower c) : ℤ) else -1 := by decide +kernel

theorem base32_invalid {l out : List ℕ} {s : Recoding} {x : ℕ} {p : List UInt8}
    (h : base32.Decodes l s out x) (hp : ∀ c ∈ p.head?, ¬ base32.IsDigit c) :
    invalidBase32 s p = false ↔
      5 * s.mode % 8 < 5 ∧ x = 0 ∧ base32.Padded (· * 3 % 8) (5 * s.mode % 8) p := by
  rcases s with ⟨ret, mode, left⟩
  have hmode : mode < 8 := h.mode_lt
  have hx := h.regroups.left_lt
  have hleft := h.left
  have hempty : base32.Padded (· * 3 % 8) 0 p := ⟨p, rfl, hp⟩
  rw [Code.padded_iff base32_table rfl] at hempty ⊢
  interval_cases mode <;> simp [base32] at hx hleft hempty
  · simp [invalidBase32, base32, hx, hempty]
  · simp [invalidBase32]
  · simp [invalidBase32, hleft, base32]
  · simp [invalidBase32]
  · simp [invalidBase32, hleft, base32]
  · simp [invalidBase32, hleft, base32]
  · simp [invalidBase32]
  · simp [invalidBase32, hleft, base32]

theorem base32_lawful : base32.Lawful (· * 3 % 8) where
  pos := by decide
  encodeModes_pos := by decide
  decodeModes_pos := by decide
  le := by decide
  length := by decide +kernel
  nodup := by decide +kernel
  canon_eq := by decide +kernel
  canon_eq_pad := by decide +kernel
  pad_notMem := by decide +kernel
  table := base32_table
  encodeStep := base32_encodeStep
  finish := base32_finish
  decodeStep := base32_decodeStep
  invalid := base32_invalid

/-! ## Both ways -/

/-- A text that is said to be valid is what its bytes are encoded as. -/
def EncodesBack64 (s : List UInt8) : Prop :=
  (decodeBase64 s).2 = false → encodeBase64 (decodeBase64 s).1 = s

/-- An encoding that is followed by something outside of the alphabet. -/
def Followed64 (s : List UInt8) : Prop :=
  ∃ v c t, s = encodeBase64 v ++ c :: t ∧ c ∉ pbase64

/-- A text that is said to be valid is what its bytes are encoded as, up to letter case. -/
def EncodesBack32 (s : List UInt8) : Prop :=
  (decodeBase32 s).2 = false → encodeBase32 (decodeBase32 s).1 = s.map toLower

/-- An encoding, up to letter case, that is followed by something outside of the alphabet. -/
def Followed32 (s : List UInt8) : Prop :=
  ∃ v w c t, s = w ++ c :: t ∧ w.map toLower = encodeBase32 v ∧ toLower c ∉ pbase32

theorem encodesBack64_iff (s : List UInt8) : EncodesBack64 s ↔ ¬ Followed64 s := by
  have h := base64_lawful.encode_decode_iff s
  simp only [show base64.canon = id from rfl, List.map_id] at h
  refine h.trans (not_congr ⟨?_, ?_⟩)
  · rintro ⟨v, w, c, t, hs, hw, hc⟩
    exact ⟨v, c, t, by rw [hs, hw]; rfl, hc⟩
  · rintro ⟨v, c, t, hs, hc⟩
    exact ⟨v, _, c, t, hs, rfl, hc⟩

theorem encodesBack32_iff (s : List UInt8) : EncodesBack32 s ↔ ¬ Followed32 s :=
  base32_lawful.encode_decode_iff s

/-- **Encoding and decoding undo each other**, except for texts in which an encoding is followed by
something outside of the alphabet. -/
theorem base64_base32_iff (v s : List UInt8) :
    decodeBase64 (encodeBase64 v) = (v, false) ∧ decodeBase32 (encodeBase32 v) = (v, false) ∧
      (EncodesBack64 s ↔ ¬ Followed64 s) ∧ (EncodesBack32 s ↔ ¬ Followed32 s) :=
  ⟨base64_lawful.decode_encode v, base32_lawful.decode_encode v, encodesBack64_iff s,
    encodesBack32_iff s⟩

/-- After full groups nothing is looked at: `"Zm9v!"` and `"mzxw6ytb!"` are said to be valid. -/
theorem not_encodesBack :
    ¬ EncodesBack64 (ascii "Zm9v!") ∧ ¬ EncodesBack32 (ascii "mzxw6ytb!") := by
  refine ⟨fun h ↦ absurd (h ?_) ?_, fun h ↦ absurd (h ?_) ?_⟩ <;> decide +kernel

example : encodeBase64 (ascii "fooba") = ascii "Zm9vYmE=" := by decide +kernel

example : encodeBase32 (ascii "foob") = ascii "mzxw6yq=" := by decide +kernel

end Bws
