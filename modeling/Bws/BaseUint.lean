import Bws.Hex
import Bws.Lib.Limbs

/-!
# Numbers of 160 and of 256 bits

`base_uint` keeps a number as words of 32 bits, the least significant first.  Addition carries from
word to word, subtraction adds the complement, a shift moves the words and splits each between two
of the result, and a comparison goes down from the last word.

Every operator is the operation on natural numbers modulo `2 ^ BITS`, and `SetHex` reads what
`GetHex` writes (`BaseUint.value_operators`).
-/

namespace Bws

/-- `base_uint<BITS>`, which has `WIDTH` words. -/
structure BaseUint (BITS : ℕ) where
  pn : List UInt32
  length_pn : pn.length = BITS / 32

namespace BaseUint

variable {BITS : ℕ}

/-- The number that the words stand for. -/
def value (a : BaseUint BITS) : ℕ := Nat.ofDigits (2 ^ 32) (a.pn.map UInt32.toNat)

/-! ## The source -/

/-- `!` -/
def isZero (a : BaseUint BITS) : Bool := a.pn.all fun p ↦ p = 0

/-- `~` -/
def compl (a : BaseUint BITS) : BaseUint BITS where
  pn := a.pn.map fun p ↦ ~~~p
  length_pn := by rw [List.length_map, a.length_pn]

/-- `= b`, where `b` has 64 bits. -/
def assign64 (b : UInt64) : BaseUint BITS where
  pn := ((List.replicate (BITS / 32) 0).set 0 b.toUInt32).set 1 (b >>> 32).toUInt32
  length_pn := by rw [List.length_set, List.length_set, List.length_replicate]

/-- `^=`, `&=` and `|=`, where `f` is what is done with two words. -/
def wordwise (f : UInt32 → UInt32 → UInt32) (a b : BaseUint BITS) : BaseUint BITS where
  pn := List.zipWith f a.pn b.pn
  length_pn := by rw [List.length_zipWith, a.length_pn, b.length_pn, min_self]

def xorAssign : BaseUint BITS → BaseUint BITS → BaseUint BITS := wordwise (· ^^^ ·)

def andAssign : BaseUint BITS → BaseUint BITS → BaseUint BITS := wordwise (· &&& ·)

def orAssign : BaseUint BITS → BaseUint BITS → BaseUint BITS := wordwise (· ||| ·)

/-- `^= b` and `|= b`, where `b` has 64 bits. -/
def wordwise64 (f : UInt32 → UInt32 → UInt32) (a : BaseUint BITS) (b : UInt64) :
    BaseUint BITS where
  pn := (a.pn.modify 0 (f · b.toUInt32)).modify 1 (f · (b >>> 32).toUInt32)
  length_pn := by rw [List.length_modify, List.length_modify, a.length_pn]

def xorAssign64 : BaseUint BITS → UInt64 → BaseUint BITS := wordwise64 (· ^^^ ·)

def orAssign64 : BaseUint BITS → UInt64 → BaseUint BITS := wordwise64 (· ||| ·)

/-- A round of the loop of `<<=`: the word `i` goes to the words `i + k` and `i + k + 1`. -/
def shlRound (WIDTH : ℕ) (a : List UInt32) (k : ℕ) (shift : UInt32) (pn : List UInt32) (i : ℕ) :
    List UInt32 :=
  let pn :=
    if i + k + 1 < WIDTH ∧ shift ≠ 0 then
      pn.modify (i + k + 1) (· ||| a.getD i 0 >>> (32 - shift))
    else pn
  if i + k < WIDTH then pn.modify (i + k) (· ||| a.getD i 0 <<< shift) else pn

/-- A round of the loop of `>>=`. -/
def shrRound (a : List UInt32) (k : ℕ) (shift : UInt32) (pn : List UInt32) (i : ℕ) :
    List UInt32 :=
  let pn :=
    if k + 1 ≤ i ∧ shift ≠ 0 then
      pn.modify (i - k - 1) (· ||| a.getD i 0 <<< (32 - shift))
    else pn
  if k ≤ i then pn.modify (i - k) (· ||| a.getD i 0 >>> shift) else pn

theorem length_shlRound (WIDTH : ℕ) (a : List UInt32) (k : ℕ) (shift : UInt32) (pn : List UInt32)
    (i : ℕ) : (shlRound WIDTH a k shift pn i).length = pn.length := by
  unfold shlRound
  dsimp only
  split_ifs <;> simp only [List.length_modify]

theorem length_shrRound (a : List UInt32) (k : ℕ) (shift : UInt32) (pn : List UInt32) (i : ℕ) :
    (shrRound a k shift pn i).length = pn.length := by
  unfold shrRound
  dsimp only
  split_ifs <;> simp only [List.length_modify]

theorem length_foldl {round : List UInt32 → ℕ → List UInt32}
    (h : ∀ pn i, (round pn i).length = pn.length) (pn : List UInt32) (l : List ℕ) :
    (l.foldl round pn).length = pn.length := by
  induction l generalizing pn with
  | nil => rfl
  | cons i l ih => rw [List.foldl_cons, ih, h]

/-- `<<=` -/
def shlAssign (a : BaseUint BITS) (shift : UInt32) : BaseUint BITS where
  pn := (List.range (BITS / 32)).foldl
    (shlRound (BITS / 32) a.pn (shift / 32).toNat (shift % 32)) (List.replicate (BITS / 32) 0)
  length_pn := by rw [length_foldl (length_shlRound _ _ _ _), List.length_replicate]

/-- `>>=` -/
def shrAssign (a : BaseUint BITS) (shift : UInt32) : BaseUint BITS where
  pn := (List.range (BITS / 32)).foldl
    (shrRound a.pn (shift / 32).toNat (shift % 32)) (List.replicate (BITS / 32) 0)
  length_pn := by rw [length_foldl (length_shrRound _ _ _), List.length_replicate]

/-- The loop of `+=` -/
def addLoop : UInt64 → List UInt32 → List UInt32 → List UInt32
  | carry, p :: pn, q :: bpn =>
    let n := carry + p.toUInt64 + q.toUInt64
    (n &&& 0xffffffff).toUInt32 :: addLoop (n >>> 32) pn bpn
  | _, _, _ => []

theorem length_addLoop (carry : UInt64) (pn bpn : List UInt32) :
    (addLoop carry pn bpn).length = min pn.length bpn.length := by
  induction pn generalizing carry bpn with
  | nil => exact (Nat.zero_min _).symm
  | cons p pn ih =>
    rcases bpn with - | ⟨q, bpn⟩
    · exact (Nat.min_zero _).symm
    · rw [addLoop, List.length_cons, List.length_cons, List.length_cons, ih,
        Nat.add_min_add_right]

/-- `+=` -/
def addAssign (a b : BaseUint BITS) : BaseUint BITS where
  pn := addLoop 0 a.pn b.pn
  length_pn := by rw [length_addLoop, a.length_pn, b.length_pn, min_self]

/-- The loop of `++`, which goes on to the next word when this one has become zero. -/
def incLoop : List UInt32 → List UInt32
  | [] => []
  | p :: pn => if p + 1 = 0 ∧ pn ≠ [] then (p + 1) :: incLoop pn else (p + 1) :: pn

/-- The loop of `--` -/
def decLoop : List UInt32 → List UInt32
  | [] => []
  | p :: pn => if p - 1 = 0xffffffff ∧ pn ≠ [] then (p - 1) :: decLoop pn else (p - 1) :: pn

theorem length_incLoop (pn : List UInt32) : (incLoop pn).length = pn.length := by
  fun_induction incLoop pn with
  | case1 => rfl
  | case2 p pn _ ih => rw [List.length_cons, List.length_cons, ih]
  | case3 => rfl

theorem length_decLoop (pn : List UInt32) : (decLoop pn).length = pn.length := by
  fun_induction decLoop pn with
  | case1 => rfl
  | case2 p pn _ ih => rw [List.length_cons, List.length_cons, ih]
  | case3 => rfl

/-- `++` in front -/
def preInc (a : BaseUint BITS) : BaseUint BITS where
  pn := incLoop a.pn
  length_pn := by rw [length_incLoop, a.length_pn]

/-- `--` in front -/
def preDec (a : BaseUint BITS) : BaseUint BITS where
  pn := decLoop a.pn
  length_pn := by rw [length_decLoop, a.length_pn]

/-- `++` behind: what is returned, and the object. -/
def postInc (a : BaseUint BITS) : BaseUint BITS × BaseUint BITS := (a, a.preInc)

/-- `--` behind -/
def postDec (a : BaseUint BITS) : BaseUint BITS × BaseUint BITS := (a, a.preDec)

/-- `-` in front -/
def neg (a : BaseUint BITS) : BaseUint BITS := a.compl.postInc.2

/-- `-=` -/
def subAssign (a b : BaseUint BITS) : BaseUint BITS := a.addAssign b.neg

/-- `+= b64` -/
def addAssign64 (a : BaseUint BITS) (b64 : UInt64) : BaseUint BITS := a.addAssign (assign64 b64)

/-- `-= b64` -/
def subAssign64 (a : BaseUint BITS) (b64 : UInt64) : BaseUint BITS :=
  a.addAssign (assign64 b64 : BaseUint BITS).neg

/-- The loop of a comparison, over the words from the last one down: `before` decides where two
words differ, and `fEqual` is returned where none do. -/
def compareLoop (before : UInt32 → UInt32 → Bool) (fEqual : Bool) : List (UInt32 × UInt32) → Bool
  | [] => fEqual
  | (p, q) :: words =>
    if before p q then true
    else if before q p then false
    else compareLoop before fEqual words

def lt (a b : BaseUint BITS) : Bool :=
  compareLoop (fun p q ↦ p < q) false (a.pn.zip b.pn).reverse

def le (a b : BaseUint BITS) : Bool :=
  compareLoop (fun p q ↦ p < q) true (a.pn.zip b.pn).reverse

def gt (a b : BaseUint BITS) : Bool :=
  compareLoop (fun p q ↦ p > q) false (a.pn.zip b.pn).reverse

def ge (a b : BaseUint BITS) : Bool :=
  compareLoop (fun p q ↦ p > q) true (a.pn.zip b.pn).reverse

/-- `==` -/
def eq (a b : BaseUint BITS) : Bool := (a.pn.zip b.pn).all fun (p, q) ↦ p = q

/-- `== b`, where `b` has 64 bits. -/
def eq64 (a : BaseUint BITS) (b : UInt64) : Bool :=
  if a.pn.getD 0 0 ≠ b.toUInt32 then false
  else if a.pn.getD 1 0 ≠ (b >>> 32).toUInt32 then false
  else (a.pn.drop 2).all fun p ↦ p = 0

/-- `!=` -/
def ne (a b : BaseUint BITS) : Bool := !a.eq b

def ne64 (a : BaseUint BITS) (b : UInt64) : Bool := !a.eq64 b

/-- `GetLow64` -/
def getLow64 (a : BaseUint BITS) : UInt64 :=
  (a.pn.getD 0 0).toUInt64 ||| (a.pn.getD 1 0).toUInt64 <<< 32

/-- The words as they stand in memory. -/
def bytes (a : BaseUint BITS) : List UInt8 := a.pn.flatMap fun p ↦ Codec.toLE 4 p.toNat

/-- `GetHex`; `"%02x"` prints a byte as two digits of `hexmap`. -/
def getHex (a : BaseUint BITS) : List UInt8 := hexStr a.bytes.reverse

/-- The table `phexdigit` of `SetHex`, which has zero for what is no digit. -/
def hexDigit (c : UInt8) : UInt8 := UInt8.ofNat ((phexdigit c).getD 0)

/-- The loop of `SetHex` from the last digit to the first, over the bytes that are left. -/
def setHexLoop : ℕ → List UInt8 → List UInt8
  | 0, _ => []
  | n + 1, [] => List.replicate (n + 1) 0
  | n + 1, [c] => hexDigit c :: List.replicate n 0
  | n + 1, c :: c' :: psz => (hexDigit c ||| hexDigit c' <<< 4) :: setHexLoop n psz

/-- The words that bytes in memory are. -/
def wordsOfBytes : ℕ → List UInt8 → List UInt32
  | 0, _ => []
  | n + 1, vch => UInt32.ofNat (Codec.ofLE (vch.take 4)) :: wordsOfBytes n (vch.drop 4)

theorem length_wordsOfBytes (n : ℕ) (vch : List UInt8) : (wordsOfBytes n vch).length = n := by
  induction n generalizing vch with
  | zero => rfl
  | succ n ih => rw [wordsOfBytes, List.length_cons, ih]

/-- What `SetHex` skips: spaces, and `0x`. -/
def skipPrefix (psz : List UInt8) : List UInt8 :=
  let psz := psz.dropWhile isspace
  if psz[0]? = some 0x30 ∧ (psz[1]? = some 0x78 ∨ psz[1]? = some 0x58) then psz.drop 2 else psz

/-- `SetHex` -/
def setHex (str : List UInt8) : BaseUint BITS where
  pn := wordsOfBytes (BITS / 32) (setHexLoop (BITS / 32 * 4)
    ((skipPrefix (cStr str)).takeWhile fun c ↦ hexDigit c ≠ 0 ∨ c = 0x30).reverse)
  length_pn := length_wordsOfBytes _ _

/-! ## Words and numbers -/

theorem lt_of_mem_words (pn : List UInt32) : ∀ d ∈ pn.map UInt32.toNat, d < 2 ^ 32 := by
  intro d hd
  obtain ⟨p, -, rfl⟩ := List.mem_map.1 hd
  exact p.toNat_lt

theorem ofDigits_words_lt (pn : List UInt32) :
    Nat.ofDigits (2 ^ 32) (pn.map UInt32.toNat) < (2 ^ 32) ^ pn.length := by
  have h := Nat.ofDigits_lt_base_pow_length (by decide) (lt_of_mem_words pn)
  rwa [List.length_map] at h

theorem value_lt (a : BaseUint BITS) : a.value < (2 ^ 32) ^ (BITS / 32) :=
  a.length_pn ▸ ofDigits_words_lt a.pn

theorem pn_injective {a b : BaseUint BITS} (h : a.pn = b.pn) : a = b := by
  cases a
  cases b
  cases h
  rfl

theorem value_injective : Function.Injective (value : BaseUint BITS → ℕ) := by
  intro a b h
  have hlen : (a.pn.map UInt32.toNat).length = (b.pn.map UInt32.toNat).length := by
    rw [List.length_map, List.length_map, a.length_pn, b.length_pn]
  have hwords := Nat.ofDigits_inj_of_len_eq (by decide) hlen (lt_of_mem_words _) (lt_of_mem_words _) h
  exact pn_injective (List.map_injective_iff.2 (fun _ _ ↦ UInt32.toNat_inj.1) hwords)

/-- The words in front, and the number that the others are. -/
theorem ofDigits_words_cons (p : UInt32) (pn : List UInt32) :
    Nat.ofDigits (2 ^ 32) ((p :: pn).map UInt32.toNat) =
      p.toNat + 2 ^ 32 * Nat.ofDigits (2 ^ 32) (pn.map UInt32.toNat) := by
  rw [List.map_cons, Nat.ofDigits_cons]

/-! ## Adding and subtracting -/

/-- The sum of two words and a carry does not overflow. -/
theorem toNat_carry_add {carry : UInt64} (hcarry : carry.toNat < 2 ^ 32) (p q : UInt32) :
    (carry + p.toUInt64 + q.toUInt64).toNat = carry.toNat + p.toNat + q.toNat := by
  have hp := p.toNat_lt
  have hq := q.toNat_lt
  rw [UInt64.toNat_add, UInt64.toNat_add, UInt32.toNat_toUInt64, UInt32.toNat_toUInt64,
    Nat.mod_add_mod, Nat.mod_eq_of_lt (by omega)]

theorem toNat_low (n : UInt64) : (n &&& 0xffffffff).toUInt32.toNat = n.toNat % 2 ^ 32 := by
  have hmask : (0xffffffff : UInt64).toNat = 2 ^ 32 - 1 := rfl
  rw [UInt64.toNat_toUInt32, UInt64.toNat_and, hmask, Nat.and_two_pow_sub_one_eq_mod, Nat.mod_mod]

theorem toNat_high (n : UInt64) : (n >>> 32).toNat = n.toNat / 2 ^ 32 := by
  rw [UInt64.toNat_shiftRight, Nat.shiftRight_eq_div_pow]
  rfl

theorem map_addLoop {carry : UInt64} (hcarry : carry.toNat < 2 ^ 32) (pn bpn : List UInt32) :
    (addLoop carry pn bpn).map UInt32.toNat =
      Limbs.addCarry (2 ^ 32) carry.toNat (pn.map UInt32.toNat) (bpn.map UInt32.toNat) := by
  induction pn generalizing carry bpn with
  | nil => rfl
  | cons p pn ih =>
    rcases bpn with - | ⟨q, bpn⟩
    · rfl
    have hsum := toNat_carry_add hcarry p q
    have hnext : ((carry + p.toUInt64 + q.toUInt64) >>> 32).toNat < 2 ^ 32 := by
      have hp := p.toNat_lt
      have hq := q.toNat_lt
      rw [toNat_high, hsum]
      omega
    rw [addLoop, List.map_cons, List.map_cons, List.map_cons, Limbs.addCarry, ih hnext, toNat_low,
      toNat_high, hsum]

theorem value_addAssign (a b : BaseUint BITS) :
    (a.addAssign b).value = (a.value + b.value) % (2 ^ 32) ^ (BITS / 32) := by
  have hlen : (a.pn.map UInt32.toNat).length = (b.pn.map UInt32.toNat).length := by
    rw [List.length_map, List.length_map, a.length_pn, b.length_pn]
  rw [value, addAssign, map_addLoop (by decide), Limbs.ofDigits_addCarry (by decide) hlen,
    List.length_map, a.length_pn, UInt64.toNat_zero, Nat.zero_add]
  rfl

theorem value_compl (a : BaseUint BITS) :
    a.compl.value + a.value + 1 = (2 ^ 32) ^ (BITS / 32) := by
  have hwords : a.compl.pn.map UInt32.toNat =
      (a.pn.map UInt32.toNat).map fun x ↦ 2 ^ 32 - 1 - x := by
    rw [compl, List.map_map, List.map_map]
    exact List.map_congr_left fun p _ ↦ UInt32.toNat_not p
  rw [value, hwords, value, Limbs.ofDigits_complement (lt_of_mem_words _), List.length_map,
    a.length_pn]

theorem incLoop_cons (p : UInt32) (pn : List UInt32) :
    incLoop (p :: pn) = (p + 1) :: if p + 1 = 0 then incLoop pn else pn := by
  rw [incLoop]
  by_cases hp : p + 1 = 0
  · rcases pn with - | ⟨q, pn⟩
    · rw [if_neg fun h ↦ h.2 rfl, if_pos hp]
      rfl
    · rw [if_pos ⟨hp, List.cons_ne_nil _ _⟩, if_pos hp]
  · rw [if_neg fun h ↦ hp h.1, if_neg hp]

theorem decLoop_cons (p : UInt32) (pn : List UInt32) :
    decLoop (p :: pn) = (p - 1) :: if p - 1 = 0xffffffff then decLoop pn else pn := by
  rw [decLoop]
  by_cases hp : p - 1 = 0xffffffff
  · rcases pn with - | ⟨q, pn⟩
    · rw [if_neg fun h ↦ h.2 rfl, if_pos hp]
      rfl
    · rw [if_pos ⟨hp, List.cons_ne_nil _ _⟩, if_pos hp]
  · rw [if_neg fun h ↦ hp h.1, if_neg hp]

/-- A number below the modulus stays below it with a word in front. -/
theorem word_add_lt {d V M : ℕ} (hd : d < 2 ^ 32) (hV : V < M) : d + 2 ^ 32 * V < 2 ^ 32 * M :=
  calc d + 2 ^ 32 * V < 2 ^ 32 + 2 ^ 32 * V := Nat.add_lt_add_right hd _
    _ = 2 ^ 32 * (V + 1) := by ring
    _ ≤ 2 ^ 32 * M := Nat.mul_le_mul_left _ hV

theorem ofDigits_incLoop (pn : List UInt32) :
    Nat.ofDigits (2 ^ 32) ((incLoop pn).map UInt32.toNat) =
      (Nat.ofDigits (2 ^ 32) (pn.map UInt32.toNat) + 1) % (2 ^ 32) ^ pn.length := by
  induction pn with
  | nil => rfl
  | cons p pn ih =>
    have hp := p.toNat_lt
    have hadd : (p + 1).toNat = (p.toNat + 1) % 2 ^ 32 := UInt32.toNat_add p 1
    rw [incLoop_cons, ofDigits_words_cons, ofDigits_words_cons, List.length_cons,
      pow_succ' (2 ^ 32), hadd]
    by_cases hzero : p + 1 = 0
    · have hmax : p.toNat + 1 = 2 ^ 32 := by
        rw [hzero, UInt32.toNat_zero] at hadd
        omega
      have hsum : p.toNat + 2 ^ 32 * Nat.ofDigits (2 ^ 32) (pn.map UInt32.toNat) + 1 =
          2 ^ 32 * (Nat.ofDigits (2 ^ 32) (pn.map UInt32.toNat) + 1) := by omega
      rw [if_pos hzero, ih, hmax, Nat.mod_self, Nat.zero_add, hsum, Nat.mul_mod_mul_left]
    · have hlt : p.toNat + 1 < 2 ^ 32 := by
        by_contra hge
        exact hzero (UInt32.toNat_inj.1 (by rw [hadd, UInt32.toNat_zero]; omega))
      rw [if_neg hzero, Nat.mod_eq_of_lt hlt, add_right_comm p.toNat (2 ^ 32 * _) 1,
        Nat.mod_eq_of_lt (word_add_lt hlt (ofDigits_words_lt pn))]

theorem ofDigits_decLoop (pn : List UInt32) :
    Nat.ofDigits (2 ^ 32) ((decLoop pn).map UInt32.toNat) =
      (Nat.ofDigits (2 ^ 32) (pn.map UInt32.toNat) + ((2 ^ 32) ^ pn.length - 1)) %
        (2 ^ 32) ^ pn.length := by
  induction pn with
  | nil => rfl
  | cons p pn ih =>
    have hp := p.toNat_lt
    have hsub : (p - 1).toNat = (2 ^ 32 - 1 + p.toNat) % 2 ^ 32 := UInt32.toNat_sub p 1
    have hpos : 0 < (2 ^ 32) ^ pn.length := pow_pos (by decide) _
    have hlast : (0xffffffff : UInt32).toNat = 2 ^ 32 - 1 := rfl
    rw [decLoop_cons, ofDigits_words_cons, ofDigits_words_cons, List.length_cons,
      pow_succ' (2 ^ 32), hsub]
    by_cases hmax : p - 1 = 0xffffffff
    · have hzero : p.toNat = 0 := by
        rw [hmax, hlast] at hsub
        omega
      have hsum : 2 ^ 32 * Nat.ofDigits (2 ^ 32) (pn.map UInt32.toNat) +
            (2 ^ 32 * (2 ^ 32) ^ pn.length - 1) =
          2 ^ 32 - 1 + 2 ^ 32 *
            (Nat.ofDigits (2 ^ 32) (pn.map UInt32.toNat) + ((2 ^ 32) ^ pn.length - 1)) := by
        omega
      rw [if_pos hmax, ih, hzero, Nat.zero_add, hsum, Nat.mod_mul, Nat.add_mul_mod_self_left,
        Nat.add_mul_div_left _ _ (by decide)]
      norm_num
    · have hone : 1 ≤ p.toNat := by
        by_contra hlt
        exact hmax (UInt32.toNat_inj.1 (by rw [hsub, hlast]; omega))
      have hdigit : (2 ^ 32 - 1 + p.toNat) % 2 ^ 32 = p.toNat - 1 := by omega
      have hsum : p.toNat + 2 ^ 32 * Nat.ofDigits (2 ^ 32) (pn.map UInt32.toNat) +
            (2 ^ 32 * (2 ^ 32) ^ pn.length - 1) =
          p.toNat - 1 + 2 ^ 32 * Nat.ofDigits (2 ^ 32) (pn.map UInt32.toNat) +
            2 ^ 32 * (2 ^ 32) ^ pn.length := by omega
      rw [if_neg hmax, hdigit, hsum, Nat.add_mod_right, Nat.mod_eq_of_lt
        (word_add_lt (by omega) (ofDigits_words_lt pn))]

theorem value_preInc (a : BaseUint BITS) :
    a.preInc.value = (a.value + 1) % (2 ^ 32) ^ (BITS / 32) := by
  rw [value, preInc, ofDigits_incLoop, a.length_pn]
  rfl

theorem value_preDec (a : BaseUint BITS) :
    a.preDec.value = (a.value + ((2 ^ 32) ^ (BITS / 32) - 1)) % (2 ^ 32) ^ (BITS / 32) := by
  rw [value, preDec, ofDigits_decLoop, a.length_pn]
  rfl

theorem value_neg (a : BaseUint BITS) :
    a.neg.value = ((2 ^ 32) ^ (BITS / 32) - a.value) % (2 ^ 32) ^ (BITS / 32) := by
  have hcompl := a.value_compl
  rw [neg, postInc, value_preInc, ← hcompl]
  congr 1
  omega

theorem value_subAssign (a b : BaseUint BITS) : (a.subAssign b).value =
    (a.value + ((2 ^ 32) ^ (BITS / 32) - b.value)) % (2 ^ 32) ^ (BITS / 32) := by
  rw [subAssign, value_addAssign, value_neg, Nat.add_mod_mod]

/-! ## Comparing -/

/-- The words go down, so those that have been compared stand behind. -/
theorem compareLoop_lt (fEqual : Bool) (words : List (UInt32 × UInt32)) :
    compareLoop (fun p q ↦ p < q) fEqual words = true ↔
      Nat.ofDigits (2 ^ 32) (words.reverse.map fun pq ↦ pq.1.toNat) <
          Nat.ofDigits (2 ^ 32) (words.reverse.map fun pq ↦ pq.2.toNat) ∨
        fEqual = true ∧ Nat.ofDigits (2 ^ 32) (words.reverse.map fun pq ↦ pq.1.toNat) =
          Nat.ofDigits (2 ^ 32) (words.reverse.map fun pq ↦ pq.2.toNat) := by
  induction words with
  | nil => exact ⟨fun h ↦ .inr ⟨h, rfl⟩, fun h ↦ h.elim (absurd · (lt_irrefl _)) And.left⟩
  | cons pq words ih =>
    obtain ⟨p, q⟩ := pq
    have hfst : ∀ d ∈ words.reverse.map fun pq ↦ pq.1.toNat, d < 2 ^ 32 := by
      intro d hd
      obtain ⟨pq, -, rfl⟩ := List.mem_map.1 hd
      exact pq.1.toNat_lt
    have hsnd : ∀ d ∈ words.reverse.map fun pq ↦ pq.2.toNat, d < 2 ^ 32 := by
      intro d hd
      obtain ⟨pq, -, rfl⟩ := List.mem_map.1 hd
      exact pq.2.toNat_lt
    have hlen : (words.reverse.map fun pq ↦ pq.1.toNat).length =
        (words.reverse.map fun pq ↦ pq.2.toNat).length := by
      rw [List.length_map, List.length_map]
    rw [compareLoop, List.reverse_cons, List.map_append, List.map_append, List.map_singleton,
      List.map_singleton]
    rcases lt_trichotomy p.toNat q.toNat with hpq | hpq | hqp
    · rw [if_pos (decide_eq_true (UInt32.lt_iff_toNat_lt.2 hpq))]
      exact iff_of_true rfl (.inl (Limbs.ofDigits_concat_lt (by decide) hfst hlen hpq))
    · obtain rfl := UInt32.toNat_inj.1 hpq
      have hirrefl : ¬ decide (p < p) = true := by simp
      rw [if_neg hirrefl, if_neg hirrefl, ih, Limbs.ofDigits_concat_lt_iff hlen,
        Nat.ofDigits_append, Nat.ofDigits_append, hlen, Nat.add_right_cancel_iff]
    · have hlt := Limbs.ofDigits_concat_lt (by decide) hsnd hlen.symm hqp
      have hnot : ¬ decide (p < q) = true := by
        rw [decide_eq_true_iff, UInt32.lt_iff_toNat_lt]
        exact hqp.not_gt
      rw [if_neg hnot, if_pos (decide_eq_true (UInt32.lt_iff_toNat_lt.2 hqp))]
      exact iff_of_false Bool.false_ne_true fun h ↦
        h.elim (fun h ↦ hlt.not_gt h) fun h ↦ hlt.ne h.2.symm

/-- A comparison that starts with `>` is one that starts with `<`, with the words changed over. -/
theorem compareLoop_gt (fEqual : Bool) (words : List (UInt32 × UInt32)) :
    compareLoop (fun p q ↦ p > q) fEqual words =
      compareLoop (fun p q ↦ p < q) fEqual (words.map Prod.swap) := by
  induction words with
  | nil => rfl
  | cons pq words ih => rw [compareLoop, List.map_cons, ih]; rfl

theorem all_zip_iff {pn bpn : List UInt32} (hlen : pn.length = bpn.length) :
    ((pn.zip bpn).all fun (p, q) ↦ p = q) = true ↔ pn = bpn := by
  induction pn generalizing bpn with
  | nil => exact iff_of_true rfl (List.length_eq_zero_iff.1 hlen.symm).symm
  | cons p pn ih =>
    rcases bpn with - | ⟨q, bpn⟩
    · cases hlen
    rw [List.zip_cons_cons, List.all_cons, Bool.and_eq_true, decide_eq_true_iff,
      ih (Nat.succ.inj hlen), List.cons.injEq]

section

variable (a b : BaseUint BITS)

theorem map_fst_words : ((a.pn.zip b.pn).reverse.reverse.map fun pq ↦ pq.1.toNat) =
    a.pn.map UInt32.toNat := by
  have hlen : a.pn.length ≤ b.pn.length := by rw [a.length_pn, b.length_pn]
  have hcomp : (fun pq : UInt32 × UInt32 ↦ pq.1.toNat) = UInt32.toNat ∘ Prod.fst := rfl
  rw [List.reverse_reverse, hcomp, ← List.map_map, List.map_fst_zip hlen]

theorem map_snd_words : ((a.pn.zip b.pn).reverse.reverse.map fun pq ↦ pq.2.toNat) =
    b.pn.map UInt32.toNat := by
  have hlen : b.pn.length ≤ a.pn.length := by rw [a.length_pn, b.length_pn]
  have hcomp : (fun pq : UInt32 × UInt32 ↦ pq.2.toNat) = UInt32.toNat ∘ Prod.snd := rfl
  rw [List.reverse_reverse, hcomp, ← List.map_map, List.map_snd_zip hlen]

theorem swap_words : ((a.pn.zip b.pn).reverse.map Prod.swap) = (b.pn.zip a.pn).reverse := by
  rw [List.map_reverse, List.zip_swap]

theorem lt_iff : a.lt b = true ↔ a.value < b.value := by
  rw [lt, compareLoop_lt, map_fst_words, map_snd_words]
  exact or_iff_left fun h ↦ Bool.false_ne_true h.1

theorem le_iff : a.le b = true ↔ a.value ≤ b.value := by
  rw [le, compareLoop_lt, map_fst_words, map_snd_words, eq_self, true_and]
  exact le_iff_lt_or_eq.symm

theorem gt_iff : a.gt b = true ↔ b.value < a.value := by
  rw [gt, compareLoop_gt, swap_words]
  exact lt_iff b a

theorem ge_iff : a.ge b = true ↔ b.value ≤ a.value := by
  rw [ge, compareLoop_gt, swap_words]
  exact le_iff b a

theorem eq_iff : a.eq b = true ↔ a = b := by
  rw [eq, all_zip_iff (a.length_pn.trans b.length_pn.symm)]
  exact ⟨pn_injective, congrArg pn⟩

theorem isZero_iff : a.isZero = true ↔ a.value = 0 := by
  rw [isZero, value]
  induction a.pn with
  | nil => exact iff_of_true rfl rfl
  | cons p pn ih =>
    have hp : p = 0 ↔ p.toNat = 0 := UInt32.toNat_inj.symm
    rw [List.all_cons, Bool.and_eq_true, ih, decide_eq_true_iff, hp, ofDigits_words_cons]
    omega

theorem eq_iff_value : a.eq b = true ↔ a.value = b.value :=
  (eq_iff a b).trans value_injective.eq_iff.symm

end

/-! ## The bits -/

theorem testBit_value (a : BaseUint BITS) (j : ℕ) :
    a.value.testBit j = (a.pn.getD (j / 32) 0).toNat.testBit (j % 32) := by
  have hword : (a.pn.map UInt32.toNat).getD (j / 32) 0 = (a.pn.getD (j / 32) 0).toNat :=
    List.getD_map _ 0 UInt32.toNat
  rw [value, Limbs.testBit_ofDigits (by decide) (lt_of_mem_words _), hword]

section

variable {f : UInt32 → UInt32 → UInt32} {a b : BaseUint BITS}

theorem getD_wordwise (hzero : f 0 0 = 0) (i : ℕ) :
    (wordwise f a b).pn.getD i 0 = f (a.pn.getD i 0) (b.pn.getD i 0) := by
  have ha := a.length_pn
  have hb := b.length_pn
  have hlen := (wordwise f a b).length_pn
  rcases lt_or_ge i (BITS / 32) with hi | hi
  · rw [List.getD_eq_getElem _ _ (hlen.symm ▸ hi), List.getD_eq_getElem _ _ (ha.symm ▸ hi),
      List.getD_eq_getElem _ _ (hb.symm ▸ hi)]
    exact List.getElem_zipWith
  · rw [List.getD_eq_default _ _ (hlen.symm ▸ hi), List.getD_eq_default _ _ (ha.symm ▸ hi),
      List.getD_eq_default _ _ (hb.symm ▸ hi), hzero]

/-- What is done bit by bit with the words is done so with the numbers. -/
theorem value_wordwise {F : ℕ → ℕ → ℕ} {g : Bool → Bool → Bool} (hzero : f 0 0 = 0)
    (hf : ∀ p q j, (f p q).toNat.testBit j = g (p.toNat.testBit j) (q.toNat.testBit j))
    (hF : ∀ x y j, (F x y).testBit j = g (x.testBit j) (y.testBit j)) :
    (wordwise f a b).value = F a.value b.value := by
  apply Nat.eq_of_testBit_eq
  intro j
  rw [testBit_value, getD_wordwise hzero, hf, hF, testBit_value, testBit_value]

end

section

variable (a b : BaseUint BITS)

theorem value_xorAssign : (a.xorAssign b).value = a.value ^^^ b.value := by
  refine value_wordwise rfl (fun p q j ↦ ?_) Nat.testBit_xor
  rw [UInt32.toNat_xor]
  exact Nat.testBit_xor _ _ _

theorem value_andAssign : (a.andAssign b).value = a.value &&& b.value := by
  refine value_wordwise rfl (fun p q j ↦ ?_) Nat.testBit_and
  rw [UInt32.toNat_and]
  exact Nat.testBit_and _ _ _

theorem value_orAssign : (a.orAssign b).value = a.value ||| b.value := by
  refine value_wordwise rfl (fun p q j ↦ ?_) Nat.testBit_or
  rw [UInt32.toNat_or]
  exact Nat.testBit_or _ _ _

end

/-! ## Numbers of 64 bits -/

section

variable (hlong : 2 ≤ BITS / 32)

include hlong

theorem exists_words (a : BaseUint BITS) : ∃ p q pn, a.pn = p :: q :: pn ∧
    pn.length = BITS / 32 - 2 := by
  obtain ⟨pn, hlen⟩ := a
  rcases pn with - | ⟨p, - | ⟨q, pn⟩⟩
  · rw [← hlen] at hlong
    exact absurd hlong (Nat.not_le.2 Nat.zero_lt_two)
  · rw [← hlen] at hlong
    exact absurd hlong (Nat.not_le.2 Nat.one_lt_two)
  · exact ⟨p, q, pn, rfl, by rw [← hlen]; rfl⟩

theorem pn_assign64 (b : UInt64) : (assign64 b : BaseUint BITS).pn =
    b.toUInt32 :: (b >>> 32).toUInt32 :: List.replicate (BITS / 32 - 2) 0 := by
  obtain ⟨n, hn⟩ := Nat.exists_eq_add_of_le' hlong
  simp only [assign64, hn]
  rfl

theorem value_assign64 (b : UInt64) : (assign64 b : BaseUint BITS).value = b.toNat := by
  have hb := b.toNat_lt
  have hzeros : Nat.ofDigits (2 ^ 32) ((List.replicate (BITS / 32 - 2) (0 : UInt32)).map
      UInt32.toNat) = 0 := by
    rw [List.map_replicate, UInt32.toNat_zero]
    exact Nat.ofDigits_replicate_zero
  rw [value, pn_assign64 hlong, ofDigits_words_cons, ofDigits_words_cons, hzeros,
    UInt64.toNat_toUInt32, UInt64.toNat_toUInt32, toNat_high]
  omega

theorem toNat_getLow64 (a : BaseUint BITS) : a.getLow64.toNat = a.value % 2 ^ 64 := by
  obtain ⟨p, q, pn, hpn, -⟩ := exists_words hlong a
  have hp := p.toNat_lt
  have hq := q.toNat_lt
  have hshift : (q.toUInt64 <<< 32).toNat = q.toNat * 2 ^ 32 := by
    have hlt : q.toNat * 2 ^ 32 < 2 ^ 64 := by omega
    rw [UInt64.toNat_shiftLeft, UInt32.toNat_toUInt64, Nat.shiftLeft_eq]
    exact Nat.mod_eq_of_lt hlt
  rw [getLow64, value, hpn, ofDigits_words_cons, ofDigits_words_cons, List.getD_cons_zero,
    List.getD_cons_succ, List.getD_cons_zero, UInt64.toNat_or, hshift, UInt32.toNat_toUInt64,
    Nat.or_comm, Nat.mul_comm, ← Nat.two_pow_add_eq_or_of_lt hp]
  omega

theorem wordwise64_eq {f : UInt32 → UInt32 → UInt32} (hf : ∀ p, f p 0 = p) (a : BaseUint BITS)
    (b : UInt64) : wordwise64 f a b = wordwise f a (assign64 b) := by
  obtain ⟨p, q, pn, hpn, hlen⟩ := exists_words hlong a
  have hrest : ∀ (l : List UInt32) n, l.length = n → List.zipWith f l (List.replicate n 0) = l := by
    intro l
    induction l with
    | nil => exact fun _ _ ↦ List.zipWith_nil_left
    | cons p l ih =>
      rintro _ rfl
      rw [List.length_cons, List.replicate_succ, List.zipWith_cons_cons, hf, ih _ rfl]
  apply pn_injective
  simp only [wordwise64, wordwise, hpn, pn_assign64 hlong, List.zipWith_cons_cons,
    hrest pn _ hlen]
  rfl

theorem eq64_eq (a : BaseUint BITS) (b : UInt64) : a.eq64 b = a.eq (assign64 b) := by
  obtain ⟨p, q, pn, hpn, hlen⟩ := exists_words hlong a
  have hrest : ∀ (l : List UInt32) n, l.length = n →
      ((l.zip (List.replicate n 0)).all fun (p, q) ↦ p = q) = l.all fun p ↦ p = 0 := by
    intro l
    induction l with
    | nil => exact fun _ _ ↦ rfl
    | cons p l ih =>
      rintro _ rfl
      rw [List.length_cons, List.replicate_succ, List.zip_cons_cons, List.all_cons, ih _ rfl,
        List.all_cons]
  rw [eq64, eq, hpn, pn_assign64 hlong, List.zip_cons_cons, List.zip_cons_cons, List.all_cons,
    List.all_cons, hrest pn _ hlen]
  simp only [List.getD_cons_zero, List.getD_cons_succ, List.drop_succ_cons, List.drop_zero]
  by_cases hp : p = b.toUInt32
  · by_cases hq : q = (b >>> 32).toUInt32
    · simp [hp, hq]
    · simp [hp, hq]
  · simp [hp]

end

/-! ## Shifting -/

/-- The bit `r` of the word `t`. -/
def Bit (pn : List UInt32) (t r : ℕ) : Prop := (pn.getD t 0).toNat.testBit r = true

section

variable {pn : List UInt32} {t r : ℕ}

theorem Bit.lt (h : Bit pn t r) : t < pn.length ∧ r < 32 := by
  constructor
  · by_contra hge
    rw [Bit, List.getD_eq_default _ _ (not_lt.1 hge), UInt32.toNat_zero, Nat.zero_testBit] at h
    cases h
  · by_contra hge
    have hlt := ((pn.getD t 0).toNat_lt).trans_le (Nat.pow_le_pow_right zero_lt_two (not_lt.1 hge))
    rw [Bit, Nat.testBit_lt_two_pow hlt] at h
    cases h

theorem not_bit_replicate (n : ℕ) : ¬ Bit (List.replicate n 0) t r := by
  intro h
  have ht := h.lt.1
  rw [Bit, List.getD_eq_getElem _ _ ht, List.getElem_replicate, UInt32.toNat_zero,
    Nat.zero_testBit] at h
  cases h

/-- Writing a word adds its bits, where the word is written at all. -/
theorem bit_write {c : Prop} [Decidable c] {i : ℕ} (hi : c → i < pn.length) (v : UInt32) :
    Bit (if c then pn.modify i (· ||| v) else pn) t r ↔
      Bit pn t r ∨ c ∧ t = i ∧ v.toNat.testBit r = true := by
  by_cases hc : c
  · rw [if_pos hc, Bit, Bit, List.getD_eq_getElem?_getD]
    by_cases ht : i = t
    · subst ht
      rw [List.getElem?_modify_eq, List.getElem?_eq_getElem (hi hc),
        List.getD_eq_getElem _ _ (hi hc)]
      simp only [Option.map_eq_map, Option.map_some, Option.getD_some, UInt32.toNat_or,
        Nat.testBit_or, Bool.or_eq_true, hc, true_and]
    · rw [List.getElem?_modify_ne _ _ ht, ← List.getD_eq_getElem?_getD]
      exact (or_iff_left fun h ↦ ht h.2.1.symm).symm
  · rw [if_neg hc]
    exact (or_iff_left fun h ↦ hc h.1).symm

/-- A loop whose rounds add bits. -/
theorem bit_foldl {round : List UInt32 → ℕ → List UInt32} {adds : ℕ → Prop} {n : ℕ}
    (hlen : ∀ pn i, (round pn i).length = pn.length)
    (hround : ∀ pn i, pn.length = n → i < n → (Bit (round pn i) t r ↔ Bit pn t r ∨ adds i))
    (l : List ℕ) (hl : ∀ i ∈ l, i < n) (hpn : pn.length = n) :
    Bit (l.foldl round pn) t r ↔ Bit pn t r ∨ ∃ i ∈ l, adds i := by
  induction l generalizing pn with
  | nil => exact (or_iff_left fun ⟨_, h, _⟩ ↦ List.not_mem_nil h).symm
  | cons i l ih =>
    rw [List.foldl_cons, ih (fun j hj ↦ hl j (List.mem_cons_of_mem _ hj)) ((hlen pn i).trans hpn),
      hround pn i hpn (hl i List.mem_cons_self), List.exists_mem_cons_iff, or_assoc]

end

section

variable {s : UInt32} (hs : s.toNat < 32)

include hs

theorem testBit_shl {p : UInt32} {r : ℕ} (hr : r < 32) : (p <<< s).toNat.testBit r = true ↔
    s.toNat ≤ r ∧ p.toNat.testBit (r - s.toNat) = true := by
  rw [UInt32.toNat_shiftLeft, Nat.mod_eq_of_lt hs, Nat.testBit_mod_two_pow, Nat.testBit_shiftLeft,
    decide_eq_true hr, Bool.true_and, Bool.and_eq_true, decide_eq_true_iff]

theorem testBit_shr {p : UInt32} {r : ℕ} : (p >>> s).toNat.testBit r =
    p.toNat.testBit (s.toNat + r) := by
  rw [UInt32.toNat_shiftRight, Nat.mod_eq_of_lt hs, Nat.testBit_shiftRight]

theorem toNat_sub_shift (hne : s ≠ 0) : (32 - s).toNat = 32 - s.toNat ∧ (32 - s).toNat < 32 := by
  have hpos : s.toNat ≠ 0 := fun h ↦ hne (UInt32.toNat_inj.1 h)
  have hsub : (32 - s).toNat = 32 - s.toNat :=
    UInt32.toNat_sub_of_le 32 s (UInt32.le_iff_toNat_le.2 hs.le)
  exact ⟨hsub, by omega⟩

end

theorem bit_shlRound {WIDTH k i t r : ℕ} {a pn : List UInt32} {shift : UInt32}
    (hpn : pn.length = WIDTH) : Bit (shlRound WIDTH a k shift pn i) t r ↔ Bit pn t r ∨
      ((i + k + 1 < WIDTH ∧ shift ≠ 0) ∧ t = i + k + 1 ∧
          (a.getD i 0 >>> (32 - shift)).toNat.testBit r = true ∨
        i + k < WIDTH ∧ t = i + k ∧ (a.getD i 0 <<< shift).toNat.testBit r = true) := by
  rw [← or_assoc, ← bit_write fun h ↦ h.1.trans_eq hpn.symm, ← bit_write fun h ↦ ?_]
  · rfl
  · split_ifs
    · rw [List.length_modify, hpn]
      exact h
    · rw [hpn]
      exact h

theorem bit_shrRound {WIDTH k i t r : ℕ} {a pn : List UInt32} {shift : UInt32}
    (hpn : pn.length = WIDTH) (hi : i < WIDTH) :
    Bit (shrRound a k shift pn i) t r ↔ Bit pn t r ∨
      ((k + 1 ≤ i ∧ shift ≠ 0) ∧ t = i - k - 1 ∧
          (a.getD i 0 <<< (32 - shift)).toNat.testBit r = true ∨
        k ≤ i ∧ t = i - k ∧ (a.getD i 0 >>> shift).toNat.testBit r = true) := by
  have hle : i - k < WIDTH := (Nat.sub_le i k).trans_lt hi
  rw [← or_assoc, ← bit_write fun _ ↦ ((Nat.sub_le _ 1).trans_lt hle).trans_eq hpn.symm,
    ← bit_write fun _ ↦ ?_]
  · rfl
  · split_ifs
    · rw [List.length_modify, hpn]
      exact hle
    · rw [hpn]
      exact hle

theorem toNat_shift (shift : UInt32) : (shift / 32).toNat = shift.toNat / 32 ∧
    (shift % 32).toNat = shift.toNat % 32 ∧ (shift % 32).toNat < 32 := by
  have hmod : (shift % 32).toNat = shift.toNat % 32 := UInt32.toNat_mod shift 32
  exact ⟨UInt32.toNat_div shift 32, hmod, hmod ▸ Nat.mod_lt _ (by decide)⟩

theorem mod_shift_ne_zero_iff (shift : UInt32) : shift % 32 ≠ 0 ↔ shift.toNat % 32 ≠ 0 := by
  rw [← (toNat_shift shift).2.1]
  exact not_congr ⟨fun h ↦ congrArg UInt32.toNat h, fun h ↦ UInt32.toNat_inj.1 h⟩

/-- The bits of the shifted words, where `i` is the word that a bit comes from. -/
theorem bit_shlAssign (a : BaseUint BITS) (shift : UInt32) {t r : ℕ} (ht : t < BITS / 32)
    (hr : r < 32) : Bit (a.shlAssign shift).pn t r ↔ ∃ i < BITS / 32,
      t = i + shift.toNat / 32 + 1 ∧ shift.toNat % 32 ≠ 0 ∧
          Bit a.pn i (32 - shift.toNat % 32 + r) ∨
        t = i + shift.toNat / 32 ∧ shift.toNat % 32 ≤ r ∧ Bit a.pn i (r - shift.toNat % 32) := by
  obtain ⟨hk, hs, hlt⟩ := toNat_shift shift
  rw [shlAssign, bit_foldl (length_shlRound _ _ _ _) (fun pn i hpn _ ↦ bit_shlRound hpn) _
    (fun i hi ↦ List.mem_range.1 hi) List.length_replicate, or_iff_right (not_bit_replicate _), hk]
  apply exists_congr
  intro i
  rw [List.mem_range, testBit_shl hlt hr, hs, mod_shift_ne_zero_iff]
  apply and_congr_right
  intro hi
  by_cases hzero : shift.toNat % 32 = 0
  · simp only [hzero, ne_eq, not_true_eq_false, and_false, false_and, false_or]
    refine ⟨fun ⟨_, h, hle, hbit⟩ ↦ ⟨h, hle, hbit⟩, fun ⟨h, hle, hbit⟩ ↦ ⟨h ▸ ht, h, hle, hbit⟩⟩
  · obtain ⟨hsub, hsublt⟩ := toNat_sub_shift hlt ((mod_shift_ne_zero_iff shift).2 hzero)
    rw [testBit_shr hsublt, hsub, hs]
    refine or_congr ⟨fun ⟨_, h, hbit⟩ ↦ ⟨h, hzero, hbit⟩, fun ⟨h, _, hbit⟩ ↦
      ⟨⟨h ▸ ht, hzero⟩, h, hbit⟩⟩
      ⟨fun ⟨_, h, hle, hbit⟩ ↦ ⟨h, hle, hbit⟩, fun ⟨h, hle, hbit⟩ ↦ ⟨h ▸ ht, h, hle, hbit⟩⟩

theorem bit_shrAssign (a : BaseUint BITS) (shift : UInt32) {t r : ℕ} (hr : r < 32) :
    Bit (a.shrAssign shift).pn t r ↔ ∃ i < BITS / 32,
      i = t + shift.toNat / 32 + 1 ∧ shift.toNat % 32 ≠ 0 ∧ 32 - shift.toNat % 32 ≤ r ∧
          Bit a.pn i (r - (32 - shift.toNat % 32)) ∨
        i = t + shift.toNat / 32 ∧ Bit a.pn i (shift.toNat % 32 + r) := by
  obtain ⟨hk, hs, hlt⟩ := toNat_shift shift
  rw [shrAssign, bit_foldl (length_shrRound _ _ _) (fun pn i hpn hi ↦ bit_shrRound hpn hi) _
    (fun i hi ↦ List.mem_range.1 hi) List.length_replicate, or_iff_right (not_bit_replicate _), hk]
  apply exists_congr
  intro i
  rw [List.mem_range, testBit_shr hlt, hs, mod_shift_ne_zero_iff]
  apply and_congr_right
  intro hi
  have hsame : ∀ P : Prop, shift.toNat / 32 ≤ i ∧ t = i - shift.toNat / 32 ∧ P ↔
      i = t + shift.toNat / 32 ∧ P := by
    intro P
    rw [← and_assoc]
    exact and_congr_left' (by omega)
  have hnext : ∀ P : Prop, (shift.toNat / 32 + 1 ≤ i ∧ shift.toNat % 32 ≠ 0) ∧
      t = i - shift.toNat / 32 - 1 ∧ P ↔
        i = t + shift.toNat / 32 + 1 ∧ shift.toNat % 32 ≠ 0 ∧ P := by
    intro P
    rw [← and_assoc, ← and_assoc]
    exact and_congr_left' (by omega)
  rw [hsame, hnext]
  by_cases hzero : shift.toNat % 32 = 0
  · simp only [hzero, ne_eq, not_true_eq_false, and_false, false_and, false_or]
    exact Iff.rfl
  · obtain ⟨hsub, hsublt⟩ := toNat_sub_shift hlt ((mod_shift_ne_zero_iff shift).2 hzero)
    rw [testBit_shl hsublt hr, hsub, hs]
    exact Iff.rfl

theorem value_shlAssign (a : BaseUint BITS) (shift : UInt32) : (a.shlAssign shift).value =
    a.value * 2 ^ shift.toNat % (2 ^ 32) ^ (BITS / 32) := by
  apply Nat.eq_of_testBit_eq
  intro j
  rw [← Nat.shiftLeft_eq, ← pow_mul, Nat.testBit_mod_two_pow, Nat.testBit_shiftLeft,
    testBit_value, testBit_value, Bool.eq_iff_iff, Bool.and_eq_true, Bool.and_eq_true,
    decide_eq_true_iff, decide_eq_true_iff]
  have hr : j % 32 < 32 := Nat.mod_lt _ (by decide)
  have hj := Nat.div_add_mod j 32
  have hshift := Nat.div_add_mod shift.toNat 32
  constructor
  · intro hbit
    have ht := Bit.lt hbit
    rw [(a.shlAssign shift).length_pn] at ht
    obtain ⟨i, hi, ⟨hti, hne, hbit⟩ | ⟨hti, hle, hbit⟩⟩ :=
      (bit_shlAssign a shift ht.1 hr).1 hbit
    · have hlow := hbit.lt.2
      have hword : (j - shift.toNat) / 32 = i := by omega
      have hpos : (j - shift.toNat) % 32 = 32 - shift.toNat % 32 + j % 32 := by omega
      refine ⟨by omega, by omega, ?_⟩
      rw [hword, hpos]
      exact hbit
    · have hword : (j - shift.toNat) / 32 = i := by omega
      have hpos : (j - shift.toNat) % 32 = j % 32 - shift.toNat % 32 := by omega
      refine ⟨by omega, by omega, ?_⟩
      rw [hword, hpos]
      exact hbit
  · rintro ⟨hlt, hge, hbit⟩
    have ht : j / 32 < BITS / 32 := by omega
    refine (bit_shlAssign a shift ht hr).2 ⟨(j - shift.toNat) / 32, by omega, ?_⟩
    rcases le_or_gt (shift.toNat % 32) (j % 32) with hle | hgt
    · have hpos : j % 32 - shift.toNat % 32 = (j - shift.toNat) % 32 := by omega
      refine .inr ⟨by omega, hle, ?_⟩
      rw [hpos]
      exact hbit
    · have hpos : 32 - shift.toNat % 32 + j % 32 = (j - shift.toNat) % 32 := by omega
      refine .inl ⟨by omega, by omega, ?_⟩
      rw [hpos]
      exact hbit

theorem value_shrAssign (a : BaseUint BITS) (shift : UInt32) :
    (a.shrAssign shift).value = a.value / 2 ^ shift.toNat := by
  apply Nat.eq_of_testBit_eq
  intro j
  rw [← Nat.shiftRight_eq_div_pow, Nat.testBit_shiftRight, testBit_value, testBit_value,
    Bool.eq_iff_iff]
  have hr : j % 32 < 32 := Nat.mod_lt _ (by decide)
  have hj := Nat.div_add_mod j 32
  have hshift := Nat.div_add_mod shift.toNat 32
  constructor
  · intro hbit
    obtain ⟨i, hi, ⟨hti, hne, hle, hbit⟩ | ⟨hti, hbit⟩⟩ := (bit_shrAssign a shift hr).1 hbit
    · have hword : (shift.toNat + j) / 32 = i := by omega
      have hpos : (shift.toNat + j) % 32 = j % 32 - (32 - shift.toNat % 32) := by omega
      rw [hword, hpos]
      exact hbit
    · have hlow := hbit.lt.2
      have hword : (shift.toNat + j) / 32 = i := by omega
      have hpos : (shift.toNat + j) % 32 = shift.toNat % 32 + j % 32 := by omega
      rw [hword, hpos]
      exact hbit
  · intro hbit
    have hlt := (Bit.lt hbit).1
    rw [a.length_pn] at hlt
    refine (bit_shrAssign a shift hr).2 ⟨(shift.toNat + j) / 32, hlt, ?_⟩
    rcases le_or_gt (32 - shift.toNat % 32) (j % 32) with hle | hgt
    · have hpos : j % 32 - (32 - shift.toNat % 32) = (shift.toNat + j) % 32 := by omega
      refine .inl ⟨by omega, by omega, hle, ?_⟩
      rw [hpos]
      exact hbit
    · have hpos : shift.toNat % 32 + j % 32 = (shift.toNat + j) % 32 := by omega
      refine .inr ⟨by omega, ?_⟩
      rw [hpos]
      exact hbit

/-! ## Hexadecimal digits -/

theorem bytes_cons (p : UInt32) (pn : List UInt32) :
    ((p :: pn).flatMap fun p ↦ Codec.toLE 4 p.toNat) =
      Codec.toLE 4 p.toNat ++ pn.flatMap fun p ↦ Codec.toLE 4 p.toNat := List.flatMap_cons

theorem length_bytes (pn : List UInt32) :
    (pn.flatMap fun p ↦ Codec.toLE 4 p.toNat).length = pn.length * 4 := by
  induction pn with
  | nil => rfl
  | cons p pn ih =>
    rw [bytes_cons, List.length_append, Codec.length_toLE, ih, List.length_cons, Nat.succ_mul,
      Nat.add_comm]

theorem wordsOfBytes_bytes (pn : List UInt32) :
    wordsOfBytes pn.length (pn.flatMap fun p ↦ Codec.toLE 4 p.toNat) = pn := by
  induction pn with
  | nil => rfl
  | cons p pn ih =>
    have hlen : (Codec.toLE 4 p.toNat).length = 4 := Codec.length_toLE 4 _
    rw [List.length_cons, wordsOfBytes, bytes_cons, List.take_left' hlen, List.drop_left' hlen, ih,
      Codec.ofLE_toLE p.toNat_lt, UInt32.ofNat_toNat]

/-- A digit is no end of a string and no space, and not the `x` of `0x`. -/
theorem hexmap_ne : ∀ n < 16, hexmap n ≠ 0 ∧ isspace (hexmap n) = false ∧
    hexmap n ≠ 0x78 ∧ hexmap n ≠ 0x58 := by decide

theorem hexDigit_hexmap : ∀ n < 16, hexDigit (hexmap n) = UInt8.ofNat n := by decide

theorem isDigit_hexmap : ∀ n < 16, hexDigit (hexmap n) ≠ 0 ∨ hexmap n = 0x30 := by decide

theorem exists_of_mem_hexStr {vch : List UInt8} {c : UInt8} (hc : c ∈ hexStr vch) :
    ∃ n < 16, c = hexmap n := by
  obtain ⟨val, -, hval⟩ := List.mem_flatMap.1 hc
  have hlt := val.toNat_lt
  rcases List.mem_cons.1 hval with rfl | hval
  · exact ⟨_, by omega, rfl⟩
  · exact ⟨_, Nat.mod_lt _ (by decide), List.mem_singleton.1 hval⟩

theorem or_nibbles : ∀ n < 256, UInt8.ofNat (n % 16) ||| UInt8.ofNat (n / 16) <<< 4 =
    UInt8.ofNat n := by decide +kernel

/-- The digits are read from the last one, so the bytes come out the other way round. -/
theorem setHexLoop_hexStr (vch : List UInt8) :
    setHexLoop vch.length (hexStr vch).reverse = vch.reverse := by
  induction vch using List.reverseRecOn with
  | nil => rfl
  | append_singleton vch val ih =>
    have hlt := val.toNat_lt
    have hhigh := hexDigit_hexmap (val.toNat / 16) (by omega)
    have hlow := hexDigit_hexmap (val.toNat % 16) (Nat.mod_lt _ (by decide))
    have hstr : (hexStr (vch ++ [val])).reverse =
        hexmap (val.toNat % 16) :: hexmap (val.toNat / 16) :: (hexStr vch).reverse := by
      rw [hexStr, List.flatMap_append, List.reverse_append]
      rfl
    rw [hstr, List.length_append, List.length_singleton, setHexLoop, ih, hhigh, hlow,
      or_nibbles _ hlt, UInt8.ofNat_toNat, List.reverse_append, List.reverse_singleton,
      List.singleton_append]

theorem skipPrefix_hexStr (vch : List UInt8) : skipPrefix (hexStr vch) = hexStr vch := by
  have hspace : (hexStr vch).dropWhile isspace = hexStr vch := by
    cases hstr : hexStr vch with
    | nil => rfl
    | cons c str =>
      obtain ⟨n, hn, rfl⟩ := exists_of_mem_hexStr (hstr ▸ List.mem_cons_self : c ∈ hexStr vch)
      exact List.dropWhile_cons_of_neg (by rw [(hexmap_ne n hn).2.1]; exact Bool.false_ne_true)
  rw [skipPrefix, hspace]
  refine if_neg fun ⟨_, hsecond⟩ ↦ ?_
  rcases hsecond with hx | hx
  · obtain ⟨n, hn, hc⟩ := exists_of_mem_hexStr (List.mem_of_getElem? hx)
    exact (hexmap_ne n hn).2.2.1 hc.symm
  · obtain ⟨n, hn, hc⟩ := exists_of_mem_hexStr (List.mem_of_getElem? hx)
    exact (hexmap_ne n hn).2.2.2 hc.symm

/-- **What `GetHex` writes is read back.** -/
theorem setHex_getHex (a : BaseUint BITS) : setHex a.getHex = a := by
  have hcStr : cStr a.getHex = a.getHex := by
    rw [cStr, List.takeWhile_eq_self_iff]
    intro c hc
    obtain ⟨n, hn, rfl⟩ := exists_of_mem_hexStr hc
    exact decide_eq_true (hexmap_ne n hn).1
  have hdigits : (a.getHex.takeWhile fun c ↦ hexDigit c ≠ 0 ∨ c = 0x30) = a.getHex := by
    rw [List.takeWhile_eq_self_iff]
    intro c hc
    obtain ⟨n, hn, rfl⟩ := exists_of_mem_hexStr hc
    exact decide_eq_true (isDigit_hexmap n hn)
  have hlen : a.bytes.reverse.length = BITS / 32 * 4 := by
    rw [List.length_reverse, bytes, length_bytes, a.length_pn]
  have hwords : wordsOfBytes (BITS / 32) a.bytes = a.pn := by
    rw [← a.length_pn]
    exact wordsOfBytes_bytes a.pn
  apply pn_injective
  rw [setHex]
  dsimp only
  rw [hcStr, getHex, skipPrefix_hexStr, ← getHex, hdigits, getHex, ← hlen, setHexLoop_hexStr,
    List.reverse_reverse, hwords]

/-! ## Every operator -/

/-- The modulus of the words is that of the bits. -/
theorem pow_WIDTH (hword : 32 ∣ BITS) : (2 ^ 32) ^ (BITS / 32) = 2 ^ BITS := by
  rw [← pow_mul, Nat.mul_div_cancel' hword]

/-- Adding the complement subtracts. -/
theorem cast_add_sub_mod {x y M : ℕ} (hy : y ≤ M) :
    (((x + (M - y)) % M : ℕ) : ℤ) = ((x : ℤ) - y) % M := by
  have hsum : (x : ℤ) + (M - y) = x - y + M := by ring
  rw [Int.natCast_mod, Nat.cast_add, Nat.cast_sub hy, hsum, Int.add_emod_right]

/-- **The operators are those of the numbers modulo `2 ^ BITS`**, the comparisons are those of the
numbers, and hexadecimal digits are read back. -/
theorem value_operators (hword : 32 ∣ BITS) (hlong : 64 ≤ BITS) :
    (∀ a b : BaseUint BITS,
      (a.addAssign b).value = (a.value + b.value) % 2 ^ BITS ∧
      ((a.subAssign b).value : ℤ) = ((a.value : ℤ) - b.value) % 2 ^ BITS ∧
      (a.lt b = true ↔ a.value < b.value) ∧
      (a.le b = true ↔ a.value ≤ b.value) ∧
      (a.gt b = true ↔ a.value > b.value) ∧
      (a.ge b = true ↔ a.value ≥ b.value) ∧
      (a.eq b = true ↔ a.value = b.value) ∧
      (a.ne b = true ↔ a.value ≠ b.value)) ∧
    (∀ a : BaseUint BITS,
      (a.neg.value : ℤ) = -(a.value : ℤ) % 2 ^ BITS ∧
      a.preInc.value = (a.value + 1) % 2 ^ BITS ∧
      (a.preDec.value : ℤ) = ((a.value : ℤ) - 1) % 2 ^ BITS ∧
      a.postInc = (a, a.preInc) ∧
      a.postDec = (a, a.preDec) ∧
      setHex a.getHex = a) ∧
    (∀ (a : BaseUint BITS) (shift : UInt32),
      (a.shlAssign shift).value = a.value * 2 ^ shift.toNat % 2 ^ BITS ∧
      (a.shrAssign shift).value = a.value / 2 ^ shift.toNat) ∧
    ∀ (a : BaseUint BITS) (b : UInt64),
      (assign64 b : BaseUint BITS).value = b.toNat ∧
      (a.addAssign64 b).value = (a.value + b.toNat) % 2 ^ BITS ∧
      ((a.subAssign64 b).value : ℤ) = ((a.value : ℤ) - b.toNat) % 2 ^ BITS ∧
      (a.xorAssign64 b).value = a.value ^^^ b.toNat ∧
      (a.orAssign64 b).value = a.value ||| b.toNat ∧
      (a.eq64 b = true ↔ a.value = b.toNat) ∧
      (a.ne64 b = true ↔ a.value ≠ b.toNat) := by
  have hM := pow_WIDTH hword
  have hcast : ((2 ^ BITS : ℕ) : ℤ) = 2 ^ BITS := by push_cast; rfl
  have hlt : ∀ a : BaseUint BITS, a.value < 2 ^ BITS := fun a ↦ hM ▸ a.value_lt
  have hwide : 2 ≤ BITS / 32 := (Nat.le_div_iff_mul_le (by decide)).2 hlong
  have hadd : ∀ a b : BaseUint BITS, (a.addAssign b).value = (a.value + b.value) % 2 ^ BITS :=
    fun a b ↦ hM ▸ value_addAssign a b
  have hsub : ∀ a b : BaseUint BITS,
      ((a.subAssign b).value : ℤ) = ((a.value : ℤ) - b.value) % 2 ^ BITS := by
    intro a b
    rw [value_subAssign, hM, cast_add_sub_mod (hlt b).le, hcast]
  have hne : ∀ {p : Bool} {P : Prop}, (p = true ↔ P) → ((!p) = true ↔ ¬ P) := by
    intro p P h
    rw [Bool.not_eq_true', ← Bool.not_eq_true, h]
  refine ⟨fun a b ↦ ⟨hadd a b, hsub a b, lt_iff a b, le_iff a b, gt_iff a b, ge_iff a b,
    eq_iff_value a b, hne (eq_iff_value a b)⟩, fun a ↦ ⟨?_, ?_, ?_, rfl, rfl, setHex_getHex a⟩,
    fun a shift ↦ ⟨hM ▸ value_shlAssign a shift, value_shrAssign a shift⟩, fun a b ↦ ?_⟩
  · rw [value_neg, hM, ← Nat.zero_add (2 ^ BITS - a.value), cast_add_sub_mod (hlt a).le, hcast,
      Nat.cast_zero, zero_sub]
  · rw [value_preInc, hM]
  · rw [value_preDec, hM, cast_add_sub_mod Nat.one_le_two_pow, hcast, Nat.cast_one]
  · have hb : (assign64 b : BaseUint BITS).value = b.toNat := value_assign64 hwide b
    have heq : a.eq64 b = true ↔ a.value = b.toNat := by
      rw [eq64_eq hwide, eq_iff_value, hb]
    refine ⟨hb, ?_, ?_, ?_, ?_, heq, hne heq⟩
    · rw [addAssign64, hadd, hb]
    · rw [← hb]
      exact hsub a _
    · rw [xorAssign64, wordwise64_eq hwide fun p ↦ UInt32.xor_zero, ← hb]
      exact value_xorAssign a _
    · rw [orAssign64, wordwise64_eq hwide fun p ↦ UInt32.or_zero, ← hb]
      exact value_orAssign a _

theorem value_operators_sample :
    ((assign64 5 : BaseUint 160).subAssign (assign64 7)).value = 2 ^ 160 - 2 ∧
      ((assign64 3 : BaseUint 256).shlAssign 255).value = 2 ^ 255 := by
  have h160 := @value_operators 160 (by decide) (by decide)
  have h256 := @value_operators 256 (by decide) (by decide)
  have hfive := (h160.2.2.2 (assign64 0) 5).1
  have hseven := (h160.2.2.2 (assign64 0) 7).1
  have hthree := (h256.2.2.2 (assign64 0) 3).1
  have hsub := (h160.1 (assign64 5) (assign64 7)).2.1
  rw [hfive, hseven] at hsub
  constructor
  · exact Int.ofNat_inj.1 (hsub.trans (by decide))
  · rw [(h256.2.2.1 (assign64 3) 255).1, hthree]
    decide

end BaseUint

end Bws
