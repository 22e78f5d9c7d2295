import Bws.Lib.Bijective
import Bws.Serialize

/-!
# Variable-length integers

`WriteVarInt`, `ReadVarInt` and `GetSizeOfVarInt` for an unsigned type of `w` bits: base 128 with
the highest digit first, the first bit of a byte saying that another follows, and one subtracted
from all but the last digit.  What is written is read back (`readVarInt_writeVarInt`).  The reader
does not check that the number fits its type, so an encoding is unique only as far as it does
(`readVarInt_canonical_iff`).
-/

namespace Bws

/-! ## The functions of the source -/

/-- The loop of `GetSizeOfVarInt`; `n + 1` rounds are always enough. -/
def sizeOfVarIntFrom : ℕ → ℕ → ℕ
  | 0, _ => 0
  | fuel + 1, n => if n ≤ 0x7f then 1 else 1 + sizeOfVarIntFrom fuel ((n >>> 7) - 1)

/-- `GetSizeOfVarInt` -/
def getSizeOfVarInt (n : ℕ) : ℕ := sizeOfVarIntFrom (n + 1) n

/-- The loop of `WriteVarInt` that fills `tmp` from the position `len` on. -/
def varIntTmp : ℕ → ℕ → ℕ → List UInt8
  | 0, _, _ => []
  | fuel + 1, len, n =>
    UInt8.ofNat ((n &&& 0x7f) ||| if len = 0 then 0x00 else 0x80) ::
      if n ≤ 0x7f then [] else varIntTmp fuel (len + 1) ((n >>> 7) - 1)

/-- `WriteVarInt`: the bytes of `tmp` from the last that is filled. -/
def writeVarInt (n : ℕ) : List UInt8 := (varIntTmp (n + 1) 0 n).reverse

/-- How many bytes `tmp` has: `(sizeof(n) * 8 + 6) / 7`. -/
def varIntTmpSize (w : ℕ) : ℕ := (w + 6) / 7

/-- The loop of `ReadVarInt`, with the number so far. -/
def readVarIntFrom (w : ℕ) : ℕ → List UInt8 → Option (ℕ × List UInt8)
  | _, [] => none
  | n, chData :: is =>
    let n := ((n <<< 7) % 2 ^ w) ||| (chData.toNat &&& 0x7f)
    if chData &&& 0x80 ≠ 0 then readVarIntFrom w ((n + 1) % 2 ^ w) is else some (n, is)

/-- `ReadVarInt` for an unsigned type of `w` bits. -/
def readVarInt (w : ℕ) (is : List UInt8) : Option (ℕ × List UInt8) := readVarIntFrom w 0 is

/-! ## The number that bytes encode -/

/-- `a & 0x7F` -/
def varIntDigit (b : UInt8) : ℕ := b.toNat % 128

/-- The number that the bytes encode, whatever the type: the digits of `a`, with one added to all
but the last. -/
def varIntValue (a : List UInt8) : ℕ := Bijective.value 128 (a.reverse.map varIntDigit)

/-- All bytes but the last have their first bit set. -/
inductive VarIntForm : List UInt8 → Prop
  | last {b : UInt8} (h : b < 0x80) : VarIntForm [b]
  | next {b : UInt8} {a : List UInt8} (h : 0x80 ≤ b) (ha : VarIntForm a) : VarIntForm (b :: a)

theorem varIntDigit_lt (b : UInt8) : varIntDigit b < 128 := Nat.mod_lt _ (by decide)

theorem VarIntForm.ne_nil {a : List UInt8} (h : VarIntForm a) : a ≠ [] := by
  cases h <;> exact List.cons_ne_nil _ _

/-- The bytes are told by their digits. -/
theorem VarIntForm.eq_of_digits {a : List UInt8} (ha : VarIntForm a) : ∀ {a' : List UInt8},
    VarIntForm a' → a.map varIntDigit = a'.map varIntDigit → a = a' := by
  have hlo : ∀ {b b' : UInt8}, b < 0x80 → b' < 0x80 → varIntDigit b = varIntDigit b' → b = b' := by
    intro b b' hb hb' h
    have h₁ : b.toNat < 128 := UInt8.lt_iff_toNat_lt.1 hb
    have h₂ : b'.toNat < 128 := UInt8.lt_iff_toNat_lt.1 hb'
    unfold varIntDigit at h
    exact UInt8.toNat_inj.1 (by omega)
  have hhi : ∀ {b b' : UInt8}, 0x80 ≤ b → 0x80 ≤ b' → varIntDigit b = varIntDigit b' → b = b' := by
    intro b b' hb hb' h
    have h₁ : 128 ≤ b.toNat := UInt8.le_iff_toNat_le.1 hb
    have h₂ : 128 ≤ b'.toNat := UInt8.le_iff_toNat_le.1 hb'
    have h₃ := b.toNat_lt
    have h₄ := b'.toNat_lt
    unfold varIntDigit at h
    exact UInt8.toNat_inj.1 (by omega)
  induction ha with
  | last hb =>
    intro a' ha' h
    cases ha' with
    | last hb' => rw [hlo hb hb' (List.cons.inj h).1]
    | next _ ha' => exact absurd (List.cons.inj h).2.symm (by simp [ha'.ne_nil])
  | next hb ha ih =>
    intro a' ha' h
    cases ha' with
    | last _ => exact absurd (List.cons.inj h).2 (by simp [ha.ne_nil])
    | next hb' ha' => rw [hhi hb hb' (List.cons.inj h).1, ih ha' (List.cons.inj h).2]

/-- **A number has one encoding.** -/
theorem VarIntForm.eq_of_value {a a' : List UInt8} (ha : VarIntForm a) (ha' : VarIntForm a')
    (h : varIntValue a = varIntValue a') : a = a' := by
  have hdigit : ∀ {l : List UInt8}, ∀ d ∈ l.reverse.map varIntDigit, d < 128 := by
    intro l d hd
    obtain ⟨b, -, rfl⟩ := List.mem_map.1 hd
    exact varIntDigit_lt b
  have hne : ∀ {l : List UInt8}, VarIntForm l → l.reverse.map varIntDigit ≠ [] := by
    intro l hl
    simp [hl.ne_nil]
  have hmap := Bijective.value_inj (hne ha) (hne ha') hdigit hdigit h
  rw [List.map_reverse, List.map_reverse, List.reverse_inj] at hmap
  exact ha.eq_of_digits ha' hmap

theorem varIntValue_singleton (b : UInt8) : varIntValue [b] = varIntDigit b := rfl

/-- One more byte in front. -/
theorem varIntValue_cons (b : UInt8) {a : List UInt8} (ha : a ≠ []) :
    varIntValue (b :: a) = varIntValue a + 128 ^ a.length * (varIntDigit b + 1) := by
  have hne : a.reverse.map varIntDigit ≠ [] := by simp [ha]
  rw [varIntValue, List.reverse_cons, List.map_append, List.map_singleton,
    Bijective.value_concat hne, List.length_map, List.length_reverse]
  rfl

/-! ## Writing -/

section

variable {n fuel len : ℕ}

/-- The byte that one round of the loop writes. -/
theorem toNat_varIntByte (n len : ℕ) :
    (UInt8.ofNat ((n &&& 0x7f) ||| if len = 0 then 0x00 else 0x80)).toNat =
      n % 128 + if len = 0 then 0 else 128 := by
  have hlow : n &&& 0x7f = n % 128 := Nat.and_two_pow_sub_one_eq_mod n 7
  have hlt : n % 128 < 128 := Nat.mod_lt _ (by decide)
  rw [hlow]
  split
  · rw [Nat.or_zero, UInt8.toNat_ofNat_of_lt' (hlt.trans (by decide)), add_zero]
  · rw [Nat.or_comm, show 0x80 = 1 <<< 7 from rfl, ← Nat.shiftLeft_add_eq_or_of_lt hlt,
      UInt8.toNat_ofNat_of_lt' (by show 128 + n % 128 < 256; omega), add_comm]

theorem varIntTmp_ne_nil (h : n < fuel) : varIntTmp fuel len n ≠ [] := by
  obtain ⟨fuel, rfl⟩ := Nat.exists_eq_succ_of_ne_zero (Nat.ne_zero_of_lt h)
  exact List.cons_ne_nil _ _

/-- The loop writes the digits of the number. -/
theorem value_varIntTmp (h : n < fuel) :
    Bijective.value 128 ((varIntTmp fuel len n).map varIntDigit) = n := by
  induction fuel generalizing n len with
  | zero => exact absurd h (Nat.not_lt_zero n)
  | succ fuel ih =>
    have hdigit : varIntDigit (UInt8.ofNat ((n &&& 0x7f) ||| if len = 0 then 0x00 else 0x80)) =
        n % 128 := by
      rw [varIntDigit, toNat_varIntByte]
      split <;> omega
    rw [varIntTmp, List.map_cons, hdigit]
    split
    · rename_i hsmall
      show n % 128 = n
      omega
    · have hlt : n >>> 7 - 1 < fuel := by
        rw [Nat.shiftRight_eq_div_pow]
        omega
      rw [Bijective.value_cons _ (by simpa using varIntTmp_ne_nil hlt), ih hlt,
        Nat.shiftRight_eq_div_pow]
      omega

/-- All the bytes after the first have their first bit set. -/
theorem high_of_mem_varIntTmp {b : UInt8} (hlen : len ≠ 0) (hb : b ∈ varIntTmp fuel len n) :
    0x80 ≤ b := by
  induction fuel generalizing n len with
  | zero => cases hb
  | succ fuel ih =>
    rw [varIntTmp] at hb
    rcases List.mem_cons.1 hb with rfl | hb
    · rw [UInt8.le_iff_toNat_le, toNat_varIntByte, if_neg hlen]
      exact Nat.le_add_left _ _
    · split at hb
      · cases hb
      · exact ih (Nat.succ_ne_zero len) hb

theorem VarIntForm.append {a : List UInt8} {b : UInt8} (hb : b < 0x80) (ha : ∀ c ∈ a, 0x80 ≤ c) :
    VarIntForm (a ++ [b]) := by
  induction a with
  | nil => exact .last hb
  | cons c a ih =>
    obtain ⟨hc, ha⟩ := List.forall_mem_cons.1 ha
    exact .next hc (ih ha)

theorem varIntForm_writeVarInt (n : ℕ) : VarIntForm (writeVarInt n) := by
  rw [writeVarInt, varIntTmp, List.reverse_cons]
  refine .append ?_ fun c hc ↦ ?_
  · rw [UInt8.lt_iff_toNat_lt, toNat_varIntByte, if_pos rfl, add_zero]
    exact Nat.mod_lt _ (by decide)
  · rw [List.mem_reverse] at hc
    split at hc
    · cases hc
    · exact high_of_mem_varIntTmp (Nat.succ_ne_zero 0) hc

theorem varIntValue_writeVarInt (n : ℕ) : varIntValue (writeVarInt n) = n := by
  rw [varIntValue, writeVarInt, List.reverse_reverse, value_varIntTmp (Nat.lt_succ_self n)]

theorem length_varIntTmp (fuel len n : ℕ) :
    (varIntTmp fuel len n).length = sizeOfVarIntFrom fuel n := by
  induction fuel generalizing len n with
  | zero => rfl
  | succ fuel ih =>
    rw [varIntTmp, sizeOfVarIntFrom, List.length_cons]
    split
    · rfl
    · rw [ih, add_comm]

theorem length_writeVarInt (n : ℕ) : (writeVarInt n).length = getSizeOfVarInt n := by
  rw [writeVarInt, List.length_reverse, length_varIntTmp, getSizeOfVarInt]

/-- `tmp` is large enough. -/
theorem length_writeVarInt_le {w : ℕ} (hw : 0 < w) (hn : n < 2 ^ w) :
    (writeVarInt n).length ≤ varIntTmpSize w := by
  have hpow : n < 128 ^ varIntTmpSize w := by
    refine hn.trans_le ?_
    rw [show 128 = 2 ^ 7 from rfl, ← pow_mul]
    refine Nat.pow_le_pow_right Nat.two_pos ?_
    unfold varIntTmpSize
    omega
  have hlen := Bijective.length_le (B := 128) (l := (varIntTmp (n + 1) 0 n).map varIntDigit)
    (k := varIntTmpSize w) (by decide) (by unfold varIntTmpSize; omega)
    (by rwa [value_varIntTmp (Nat.lt_succ_self n)])
  rw [List.length_map] at hlen
  rwa [writeVarInt, List.length_reverse]

end

/-! ## Reading -/

section

variable {w n : ℕ} {rest : List UInt8}

/-- One round of the loop, without the wrapping. -/
theorem varInt_round (hw : 7 ≤ w) (n : ℕ) (b : UInt8) :
    (((n % 2 ^ w) <<< 7) % 2 ^ w) ||| (b.toNat &&& 0x7f) = (n * 128 + varIntDigit b) % 2 ^ w := by
  have hdigit : b.toNat &&& 0x7f = varIntDigit b := Nat.and_two_pow_sub_one_eq_mod b.toNat 7
  have hlt := varIntDigit_lt b
  have hpow : 2 ^ w = 2 ^ (w - 7) * 128 := by
    rw [show 128 = 2 ^ 7 from rfl, ← pow_add, Nat.sub_add_cancel hw]
  have hshift : ((n % 2 ^ w) <<< 7) % 2 ^ w = (n % 2 ^ (w - 7)) <<< 7 := by
    rw [Nat.shiftLeft_eq, Nat.shiftLeft_eq, show 2 ^ 7 = 128 from rfl, Nat.mod_mul_mod, hpow,
      Nat.mul_mod_mul_right]
  have hsum : (n * 128 + varIntDigit b) % (2 ^ (w - 7) * 128) =
      n % 2 ^ (w - 7) * 128 + varIntDigit b := by
    have hless : (n % 2 ^ (w - 7) + 1) * 128 ≤ 2 ^ (w - 7) * 128 :=
      Nat.mul_le_mul_right _ (Nat.mod_lt _ (Nat.two_pow_pos _))
    rw [← Nat.mod_add_mod, Nat.mul_mod_mul_right, Nat.mod_eq_of_lt (by omega)]
  rw [hdigit, hshift, ← Nat.shiftLeft_add_eq_or_of_lt hlt, Nat.shiftLeft_eq, hpow, hsum]

/-- Another byte follows. -/
theorem continues_iff (b : UInt8) : b &&& 0x80 ≠ 0 ↔ 0x80 ≤ b := by
  have hlt := b.toNat_lt
  rw [ne_eq, ← UInt8.toNat_inj, UInt8.toNat_and, UInt8.le_iff_toNat_le]
  show ¬ b.toNat &&& 2 ^ 7 = 0 ↔ 128 ≤ b.toNat
  rw [Nat.and_two_pow, Nat.testBit_eq_decide_div_mod_eq]
  by_cases h : b.toNat / 2 ^ 7 % 2 = 1
  · rw [decide_eq_true h]
    exact iff_of_true (by decide) (by omega)
  · rw [decide_eq_false h]
    exact iff_of_false (by decide) (by omega)

/-- What is read is the number that the bytes encode, in `w` bits. -/
theorem readVarIntFrom_append (hw : 7 ≤ w) {a : List UInt8} (ha : VarIntForm a) :
    readVarIntFrom w (n % 2 ^ w) (a ++ rest) =
      some ((n * 128 ^ a.length + varIntValue a) % 2 ^ w, rest) := by
  induction ha generalizing n with
  | @last b hb =>
    have hbit : ¬ b &&& 0x80 ≠ 0 := by
      rw [continues_iff]
      exact UInt8.not_le.2 hb
    rw [List.singleton_append, readVarIntFrom, varInt_round hw, if_neg hbit,
      List.length_singleton, pow_one, varIntValue_singleton]
  | @next b a hb ha ih =>
    rw [List.cons_append, readVarIntFrom, varInt_round hw, if_pos ((continues_iff b).2 hb),
      Nat.mod_add_mod, ih, varIntValue_cons b ha.ne_nil, List.length_cons]
    congr 3
    ring

/-- What is accepted has the form of an encoding. -/
theorem varIntForm_of_readVarIntFrom {m : ℕ} {is : List UInt8}
    (h : readVarIntFrom w n is = some (m, rest)) : ∃ a, VarIntForm a ∧ is = a ++ rest := by
  induction is generalizing n with
  | nil => cases h
  | cons b is ih =>
    rw [readVarIntFrom] at h
    split at h
    · rename_i hbit
      obtain ⟨a, ha, rfl⟩ := ih h
      exact ⟨b :: a, .next ((continues_iff b).1 hbit) ha, rfl⟩
    · rename_i hbit
      cases h
      exact ⟨[b], .last (UInt8.not_le.1 fun hle ↦ hbit ((continues_iff b).2 hle)), rfl⟩

theorem readVarInt_append (hw : 7 ≤ w) {a : List UInt8} (ha : VarIntForm a) :
    readVarInt w (a ++ rest) = some (varIntValue a % 2 ^ w, rest) := by
  have h : readVarIntFrom w (0 % 2 ^ w) (a ++ rest) = _ := readVarIntFrom_append hw ha
  rwa [Nat.zero_mod, zero_mul, zero_add] at h

end

/-- **Variable-length integers.**  A number of the type is read back as it was written, in as many
bytes as `GetSizeOfVarInt` says, and they fit the buffer.  What the reader accepts is the encoding
of the number that it returns if and only if the number that the bytes encode fits the type. -/
theorem varInt_canonical_iff {w : ℕ} (hw : 8 ≤ w) :
    (∀ n < 2 ^ w, (∀ rest, readVarInt w (writeVarInt n ++ rest) = some (n, rest)) ∧
      (writeVarInt n).length = getSizeOfVarInt n ∧ (writeVarInt n).length ≤ varIntTmpSize w) ∧
    ∀ is n rest, readVarInt w is = some (n, rest) → ∃ a, is = a ++ rest ∧
      (a = writeVarInt n ↔ varIntValue a < 2 ^ w) := by
  refine ⟨fun n hn ↦ ⟨fun rest ↦ ?_, length_writeVarInt n, length_writeVarInt_le (by omega) hn⟩,
    fun is n rest h ↦ ?_⟩
  · rw [readVarInt_append (by omega) (varIntForm_writeVarInt n), varIntValue_writeVarInt,
      Nat.mod_eq_of_lt hn]
  · obtain ⟨a, ha, rfl⟩ := varIntForm_of_readVarIntFrom h
    refine ⟨a, rfl, ?_⟩
    rw [readVarInt_append (by omega) ha] at h
    obtain ⟨rfl, -⟩ := Prod.mk.inj (Option.some.inj h)
    constructor
    · intro heq
      have hvalue := congrArg varIntValue heq
      rw [varIntValue_writeVarInt] at hvalue
      rw [hvalue]
      exact Nat.mod_lt _ (Nat.two_pow_pos w)
    · intro hlt
      refine ha.eq_of_value (varIntForm_writeVarInt _) ?_
      rw [varIntValue_writeVarInt, Nat.mod_eq_of_lt hlt]

theorem varInt_canonical_iff_sample :
    readVarInt 32 (writeVarInt 65535 ++ [7]) = some (65535, [7]) ∧
      ∃ a, [0x82, 0xfe, 0x7f, 7] = a ++ [7] ∧ a = writeVarInt 65535 := by
  obtain ⟨hwrite, hread⟩ := varInt_canonical_iff (w := 32) (by decide)
  have hbytes := (hwrite 65535 (by decide)).1 [7]
  have hread' := hread [0x82, 0xfe, 0x7f, 7] 65535 [7] (by decide +kernel)
  obtain ⟨a, ha, hiff⟩ := hread'
  have hsplit : a = [0x82, 0xfe, 0x7f] := by
    rw [show ([0x82, 0xfe, 0x7f, 7] : List UInt8) = [0x82, 0xfe, 0x7f] ++ [7] from rfl] at ha
    exact (List.append_cancel_right ha).symm
  exact ⟨hbytes, a, ha, hiff.2 (by rw [hsplit]; decide +kernel)⟩

/-- The encoding of `2 ^ 32` is read as a zero of 32 bits, whose encoding is shorter. -/
theorem not_varInt_canonical : ¬ ∀ is n rest, readVarInt 32 is = some (n, rest) →
    is = writeVarInt n ++ rest := by
  intro h
  have hzero := h [0x8e, 0xfe, 0xfe, 0xff, 0x00] 0 [] (by decide +kernel)
  exact absurd hzero (by decide +kernel)

end Bws
