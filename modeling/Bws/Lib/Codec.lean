import Mathlib.Data.List.Basic
import Mathlib.Data.Nat.Digits.Lemmas

/-!
# Codecs

A codec writes values as bytes and reads them back.  Its law is that a reader which is given what
the writer has put, and anything after it, returns the value and leaves what comes after
(`Codec.get_put`).  From that law the writer is injective, and the code of one value is never the
beginning of the code of another (`Codec.put_append_inj`).

The codecs here are those of a binary stream: integers of a fixed width with the lowest byte first,
the variable width numbers that count the elements of a vector, vectors, and records.
-/

universe u v

/-- A way to write the values of a type as bytes and to read them back. -/
structure Codec (α : Type u) where
  /-- the values that can be written -/
  Valid : α → Prop
  put : α → List UInt8
  get : List UInt8 → Option (α × List UInt8)
  get_put : ∀ {a : α}, Valid a → ∀ rest : List UInt8, get (put a ++ rest) = some (a, rest)

namespace Codec

variable {α : Type u} {β : Type v}

/-- What follows does not change what is read. -/
theorem put_append_inj (F : Codec α) {a b : α} {r s : List UInt8} (ha : F.Valid a) (hb : F.Valid b)
    (h : F.put a ++ r = F.put b ++ s) : a = b ∧ r = s := by
  have hget : some (a, r) = some (b, s) := by rw [← F.get_put ha, h, F.get_put hb]
  exact Prod.mk.inj (Option.some.inj hget)

/-! ## Records -/

/-- A value that is written as another. -/
def imap (F : Codec α) (f : α → β) (g : β → α) : Codec β where
  Valid b := F.Valid (g b) ∧ f (g b) = b
  put b := F.put (g b)
  get bytes := (F.get bytes).map fun r ↦ (f r.1, r.2)
  get_put := by
    rintro b ⟨hvalid, hb⟩ rest
    rw [F.get_put hvalid, Option.map_some, hb]

/-- One value after another; how the second is written may depend on the first. -/
def bind (F : Codec α) (G : α → Codec β) : Codec (α × β) where
  Valid p := F.Valid p.1 ∧ (G p.1).Valid p.2
  put p := F.put p.1 ++ (G p.1).put p.2
  get bytes := (F.get bytes).bind fun r ↦ ((G r.1).get r.2).map fun q ↦ ((r.1, q.1), q.2)
  get_put := by
    rintro ⟨a, b⟩ ⟨ha, hb⟩ rest
    rw [List.append_assoc, F.get_put ha, Option.bind_some, (G a).get_put hb, Option.map_some]

/-- One value after another. -/
def prod (F : Codec α) (G : Codec β) : Codec (α × β) := F.bind fun _ ↦ G

/-! ## Bytes -/

/-- A number of bytes that is known beforehand. -/
def raw (n : ℕ) : Codec (List UInt8) where
  Valid bytes := bytes.length = n
  put bytes := bytes
  get bytes := if bytes.length < n then none else some (bytes.take n, bytes.drop n)
  get_put := by
    rintro bytes rfl rest
    rw [if_neg (by rw [List.length_append]; omega), List.take_left, List.drop_left]

/-- `n` bytes of a number, the lowest first. -/
def toLE : ℕ → ℕ → List UInt8
  | 0, _ => []
  | n + 1, x => UInt8.ofNat (x % 256) :: toLE n (x / 256)

/-- The number that bytes stand for, the lowest first. -/
def ofLE (bytes : List UInt8) : ℕ := Nat.ofDigits 256 (bytes.map UInt8.toNat)

@[simp] theorem length_toLE (n x : ℕ) : (toLE n x).length = n := by
  induction n generalizing x with
  | zero => rfl
  | succ n ih => rw [toLE, List.length_cons, ih]

/-- The highest byte is the last. -/
theorem toLE_succ (n x : ℕ) :
    toLE (n + 1) x = toLE n (x % 256 ^ n) ++ [UInt8.ofNat (x / 256 ^ n % 256)] := by
  induction n generalizing x with
  | zero => simp [toLE]
  | succ n ih =>
    have hlow : x % 256 ^ (n + 1) % 256 = x % 256 :=
      Nat.mod_mod_of_dvd x (Dvd.intro_left (256 ^ n) rfl)
    have hnext : x % 256 ^ (n + 1) / 256 = x / 256 % 256 ^ n := by
      rw [pow_succ', Nat.mod_mul_right_div_self]
    rw [toLE, ih (x / 256), toLE, hlow, hnext, List.cons_append, Nat.div_div_eq_div_mul, pow_succ']

theorem ofLE_toLE {n x : ℕ} (h : x < 256 ^ n) : ofLE (toLE n x) = x := by
  induction n generalizing x with
  | zero =>
    rw [pow_zero, Nat.lt_one_iff] at h
    rw [h]
    rfl
  | succ n ih =>
    have hdiv : x / 256 < 256 ^ n := Nat.div_lt_of_lt_mul (by rwa [pow_succ'] at h)
    have hbyte : (UInt8.ofNat (x % 256)).toNat = x % 256 := by
      rw [UInt8.toNat_ofNat', Nat.mod_mod]
    have htail : Nat.ofDigits 256 ((toLE n (x / 256)).map UInt8.toNat) = x / 256 := ih hdiv
    rw [ofLE, toLE, List.map_cons, Nat.ofDigits_cons, htail, hbyte]
    exact Nat.mod_add_div x 256

/-- An unsigned integer of `n` bytes. -/
def uint (n : ℕ) : Codec ℕ where
  Valid x := x < 256 ^ n
  put x := toLE n x
  get bytes := ((raw n).get bytes).map fun r ↦ (ofLE r.1, r.2)
  get_put := by
    intro x hx rest
    have hraw : (raw n).Valid (toLE n x) := length_toLE n x
    have hget := (raw n).get_put hraw rest
    rw [show (raw n).put (toLE n x) = toLE n x from rfl] at hget
    rw [hget, Option.map_some, ofLE_toLE hx]

/-- An integer with a sign of `n` bytes, as its two's complement. -/
def int (n : ℕ) : Codec ℤ :=
  (uint n).imap (fun x ↦ Int.bmod x (256 ^ n)) fun x ↦ (x % (256 ^ n : ℕ)).toNat

theorem valid_int {n : ℕ} {x : ℤ} (h₁ : -(256 ^ (n + 1) : ℕ) ≤ 2 * x)
    (h₂ : 2 * x < (256 ^ (n + 1) : ℕ)) : (int (n + 1)).Valid x := by
  have hpos : 0 < 256 ^ (n + 1) := Nat.pos_of_ne_zero (by positivity)
  have hmod : 0 ≤ x % (256 ^ (n + 1) : ℕ) := Int.emod_nonneg _ (by omega)
  refine ⟨?_, ?_⟩
  · have hlt := Int.emod_lt_of_pos x (b := (256 ^ (n + 1) : ℕ)) (by omega)
    show (x % (256 ^ (n + 1) : ℕ)).toNat < 256 ^ (n + 1)
    omega
  · have heven : 2 ∣ 256 ^ (n + 1) := Dvd.dvd.pow (by decide) (Nat.succ_ne_zero n)
    show Int.bmod (x % (256 ^ (n + 1) : ℕ)).toNat (256 ^ (n + 1)) = x
    rw [Int.toNat_of_nonneg hmod, Int.emod_bmod]
    exact Int.bmod_eq_of_le_mul_two (by omega) (by omega)

/-! ## Machine words -/

def uint16BE : Codec UInt16 :=
  (raw 2).imap (fun bytes ↦ UInt16.ofNat (ofLE bytes.reverse)) fun x ↦ (toLE 2 x.toNat).reverse

def uint32 : Codec UInt32 := (uint 4).imap UInt32.ofNat UInt32.toNat
def uint64 : Codec UInt64 := (uint 8).imap UInt64.ofNat UInt64.toNat
def int32 : Codec Int32 := (int 4).imap Int32.ofInt Int32.toInt
def int64 : Codec Int64 := (int 8).imap Int64.ofInt Int64.toInt
def uint256 : Codec (BitVec 256) := (uint 32).imap (BitVec.ofNat 256) BitVec.toNat

/-- An array of bytes -/
def array (n : ℕ) : Codec (Vector UInt8 n) :=
  (raw n).imap (fun bytes ↦ Vector.ofFn fun i : Fin n ↦ bytes.getD i 0) Vector.toList

theorem valid_uint16BE (x : UInt16) : uint16BE.Valid x := by
  have hlt : x.toNat < 256 ^ 2 := x.toNat_lt
  have hlen : (toLE 2 x.toNat).reverse.length = 2 := by rw [List.length_reverse, length_toLE]
  refine ⟨hlen, ?_⟩
  show UInt16.ofNat (ofLE (toLE 2 x.toNat).reverse.reverse) = x
  rw [List.reverse_reverse, ofLE_toLE hlt, UInt16.ofNat_toNat]

theorem valid_uint32 (x : UInt32) : uint32.Valid x := ⟨x.toNat_lt, UInt32.ofNat_toNat⟩

theorem valid_uint64 (x : UInt64) : uint64.Valid x := ⟨x.toNat_lt, UInt64.ofNat_toNat⟩

theorem valid_int32 (x : Int32) : int32.Valid x := by
  have h₁ := x.le_toInt
  have h₂ := x.toInt_lt
  exact ⟨valid_int (by omega) (by omega), x.ofInt_toInt⟩

theorem valid_int64 (x : Int64) : int64.Valid x := by
  have h₁ := x.le_toInt
  have h₂ := x.toInt_lt
  exact ⟨valid_int (by omega) (by omega), x.ofInt_toInt⟩

theorem valid_uint256 (x : BitVec 256) : uint256.Valid x := by
  have hlt : x.toNat < 256 ^ 32 := by
    have := x.isLt
    omega
  exact ⟨hlt, by rw [BitVec.ofNat_toNat, BitVec.setWidth_eq]⟩

theorem valid_array {n : ℕ} (x : Vector UInt8 n) : (array n).Valid x := by
  refine ⟨Vector.length_toList, ?_⟩
  ext i hi
  simp [List.getD_eq_getElem?_getD]

/-! ## Vectors -/

/-- Read as many values as are said to follow. -/
def getMany (F : Codec α) : ℕ → List UInt8 → Option (List α × List UInt8)
  | 0, bytes => some ([], bytes)
  | n + 1, bytes => (F.get bytes).bind fun r ↦
      (getMany F n r.2).map fun q ↦ (r.1 :: q.1, q.2)

/-- A number of values that is known beforehand. -/
def many (F : Codec α) (n : ℕ) : Codec (List α) where
  Valid l := l.length = n ∧ ∀ a ∈ l, F.Valid a
  put l := l.flatMap F.put
  get := F.getMany n
  get_put := by
    rintro l ⟨rfl, hvalid⟩ rest
    induction l with
    | nil => rfl
    | cons a l ih =>
      obtain ⟨ha, hl⟩ := List.forall_mem_cons.mp hvalid
      rw [List.flatMap_cons, List.append_assoc, List.length_cons, getMany, F.get_put ha,
        Option.bind_some, ih hl, Option.map_some]

/-- The number of elements of a vector, in one, three, five or nine bytes. -/
def compactSize : Codec ℕ where
  Valid n := n < 2 ^ 64
  put n :=
    if n < 253 then toLE 1 n
    else if n < 2 ^ 16 then 253 :: toLE 2 n
    else if n < 2 ^ 32 then 254 :: toLE 4 n
    else 255 :: toLE 8 n
  get bytes :=
    match bytes with
    | [] => none
    | b :: rest =>
      if b < 253 then some (b.toNat, rest)
      else if b = 253 then (uint 2).get rest
      else if b = 254 then (uint 4).get rest
      else (uint 8).get rest
  get_put := by
    intro n hn rest
    have hput : ∀ {k : ℕ}, n < 256 ^ k → (uint k).get (toLE k n ++ rest) = some (n, rest) :=
      fun h ↦ (uint _).get_put h rest
    by_cases h₁ : n < 253
    · have hbyte : (UInt8.ofNat (n % 256)).toNat = n := by
        rw [UInt8.toNat_ofNat']
        omega
      have hlt : UInt8.ofNat (n % 256) < 253 := by
        rw [UInt8.lt_iff_toNat_lt, hbyte]
        exact h₁
      rw [if_pos h₁]
      show (if UInt8.ofNat (n % 256) < 253 then some ((UInt8.ofNat (n % 256)).toNat, rest) else _) = _
      rw [if_pos hlt, hbyte]
    · rw [if_neg h₁]
      by_cases h₂ : n < 2 ^ 16
      · rw [if_pos h₂]
        exact hput (by omega)
      · rw [if_neg h₂]
        by_cases h₃ : n < 2 ^ 32
        · rw [if_pos h₃]
          exact hput (by omega)
        · rw [if_neg h₃]
          exact hput (by omega)

/-- A vector: the number of its elements, then the elements. -/
def vector (F : Codec α) : Codec (List α) :=
  (compactSize.bind F.many).imap Prod.snd fun l ↦ (l.length, l)

theorem valid_vector {F : Codec α} {l : List α} (hlen : l.length < 2 ^ 64)
    (hvalid : ∀ a ∈ l, F.Valid a) : F.vector.Valid l := ⟨⟨hlen, rfl, hvalid⟩, rfl⟩

/-- A vector of bytes. -/
def byteVector : Codec (List UInt8) :=
  (compactSize.bind raw).imap Prod.snd fun l ↦ (l.length, l)

theorem valid_byteVector {l : List UInt8} (hlen : l.length < 2 ^ 64) : byteVector.Valid l :=
  ⟨⟨hlen, rfl⟩, rfl⟩

end Codec
