import Bws.Lib.Radix

/-!
# Decimal text

A number as the characters of its decimal digits, and what a reader makes of the digits that a text
begins with.
-/

namespace Decimal

/-- The character of a digit. -/
def char (d : ℕ) : UInt8 := UInt8.ofNat (48 + d)

def isDigit (c : UInt8) : Bool := 48 ≤ c ∧ c ≤ 57

/-- A number without zeros in front. -/
def text (n : ℕ) : List UInt8 := if n = 0 then [char 0] else (Radix.digits 10 n).map char

/-- The digits that a text begins with, after a number that has been read. -/
def leading (acc : ℕ) : List UInt8 → ℕ
  | [] => acc
  | c :: l => if isDigit c then leading (acc * 10 + (c.toNat - 48)) l else acc

theorem toNat_char {d : ℕ} (hd : d < 10) : (char d).toNat = 48 + d :=
  UInt8.toNat_ofNat_of_lt' (show 48 + d < 256 by omega)

theorem isDigit_char {d : ℕ} (hd : d < 10) : isDigit (char d) = true := by
  refine decide_eq_true ⟨?_, ?_⟩ <;> rw [UInt8.le_iff_toNat_le, toNat_char hd] <;>
    simp only [UInt8.reduceToNat] <;> omega

theorem leading_map {l : List ℕ} (hl : ∀ d ∈ l, d < 10) (acc : ℕ) :
    leading acc (l.map char) = l.foldl (fun n d ↦ n * 10 + d) acc := by
  induction l generalizing acc with
  | nil => rfl
  | cons d l ih =>
    obtain ⟨hd, hl⟩ := List.forall_mem_cons.1 hl
    rw [List.map_cons, leading, if_pos (isDigit_char hd), toNat_char hd, Nat.add_sub_cancel_left,
      ih hl, List.foldl_cons]

theorem foldl_eq_value (l : List ℕ) : l.foldl (fun n d ↦ n * 10 + d) 0 = Radix.value 10 l := by
  induction l using List.reverseRecOn with
  | nil => rfl
  | append_singleton l d ih => rw [List.foldl_concat, ih, Radix.value_append_singleton]

/-- **A number is read from its text.** -/
theorem leading_text (n : ℕ) : leading 0 (text n) = n := by
  rw [text]
  split_ifs with hn
  · rw [hn]
    rfl
  · rw [leading_map (Radix.digit_lt (by decide)), foldl_eq_value, Radix.value_digits]

/-- The first character is a digit. -/
theorem exists_text_eq (n : ℕ) : ∃ c l, text n = c :: l ∧ isDigit c = true := by
  rw [text]
  split_ifs with hn
  · exact ⟨_, _, rfl, rfl⟩
  · have hne : Radix.digits 10 n ≠ [] := by
      rw [Radix.digits, Ne, List.reverse_eq_nil_iff]
      exact Nat.digits_ne_nil_iff_ne_zero.2 hn
    obtain ⟨d, l, hd⟩ := List.exists_cons_of_ne_nil hne
    refine ⟨char d, l.map char, by rw [hd, List.map_cons], isDigit_char ?_⟩
    exact Radix.digit_lt (by decide) d (hd ▸ List.mem_cons_self)

/-- The number that digits stand for. -/
def number (digits : List UInt8) : ℕ := Radix.value 10 (digits.map fun c ↦ c.toNat - 48)

theorem isDigit_iff {c : UInt8} : isDigit c = true ↔ 48 ≤ c.toNat ∧ c.toNat ≤ 57 :=
  decide_eq_true_iff

/-- Reading stops at the first character that is no digit. -/
theorem leading_append {digits rest : List UInt8} (h : ∀ c ∈ digits, isDigit c = true)
    (hrest : ∀ c ∈ rest.head?, isDigit c = false) : leading 0 (digits ++ rest) = number digits := by
  have key : ∀ acc, leading acc (digits ++ rest) =
      (digits.map fun c ↦ c.toNat - 48).foldl (fun n d ↦ n * 10 + d) acc := by
    induction digits with
    | nil =>
      intro acc
      rcases rest with - | ⟨c, rest⟩
      · rfl
      · rw [List.nil_append, leading, hrest c rfl]
        rfl
    | cons c digits ih =>
      obtain ⟨hc, h⟩ := List.forall_mem_cons.1 h
      intro acc
      rw [List.cons_append, leading, if_pos hc, ih h, List.map_cons, List.foldl_cons]
  rw [key, foldl_eq_value, number]

theorem leading_eq_number {digits : List UInt8} (h : ∀ c ∈ digits, isDigit c = true) :
    leading 0 digits = number digits := by
  have happend : leading 0 (digits ++ []) = number digits := leading_append h nofun
  rwa [List.append_nil] at happend

theorem isDigit_of_mem_text {n : ℕ} : ∀ c ∈ text n, isDigit c = true := by
  rw [text]
  split_ifs
  · exact List.forall_mem_singleton.2 rfl
  · intro c hc
    obtain ⟨d, hd, rfl⟩ := List.mem_map.1 hc
    exact isDigit_char (Radix.digit_lt (by decide) d hd)

theorem text_ne_nil (n : ℕ) : text n ≠ [] := by
  obtain ⟨c, l, h, -⟩ := exists_text_eq n
  rw [h]
  exact List.cons_ne_nil c l

theorem number_text (n : ℕ) : number (text n) = n := by
  rw [← leading_eq_number isDigit_of_mem_text, leading_text]

@[simp] theorem number_nil : number [] = 0 := rfl

theorem number_append (digits digits' : List UInt8) :
    number (digits ++ digits') = number digits * 10 ^ digits'.length + number digits' := by
  induction digits' using List.reverseRecOn with
  | nil => rw [List.append_nil, List.length_nil, pow_zero, mul_one, number_nil, add_zero]
  | append_singleton l c ih =>
    have hconcat : ∀ m : List UInt8, number (m ++ [c]) = number m * 10 + (c.toNat - 48) := by
      intro m
      rw [number, List.map_append, List.map_singleton, Radix.value_append_singleton, number]
    rw [← List.append_assoc, hconcat, hconcat, ih, List.length_append, List.length_singleton,
      pow_succ]
    ring

theorem number_cons (c : UInt8) (digits : List UInt8) :
    number (c :: digits) = (c.toNat - 48) * 10 ^ digits.length + number digits := by
  have hone : number [c] = c.toNat - 48 := by
    rw [number, List.map_singleton, ← List.nil_append [c.toNat - 48],
      Radix.value_append_singleton]
    exact Nat.zero_add _
  rw [← List.singleton_append, number_append, hone]

theorem number_replicate_zero (k : ℕ) : number (List.replicate k (char 0)) = 0 := by
  induction k with
  | zero => rfl
  | succ k ih =>
    rw [List.replicate_succ, number_cons, ih, show (char 0).toNat - 48 = 0 from rfl, zero_mul]

theorem number_lt {digits : List UInt8} (h : ∀ c ∈ digits, isDigit c = true) :
    number digits < 10 ^ digits.length := by
  induction digits with
  | nil => exact Nat.one_pos
  | cons c digits ih =>
    obtain ⟨hc, h⟩ := List.forall_mem_cons.1 h
    have hle := (isDigit_iff.1 hc).2
    have hlt := ih h
    have hmul : (c.toNat - 48) * 10 ^ digits.length ≤ 9 * 10 ^ digits.length :=
      Nat.mul_le_mul_right _ (by omega)
    rw [number_cons, List.length_cons, pow_succ]
    omega

/-- A number below a power of ten has no more digits than that. -/
theorem length_text_le {n k : ℕ} (hk : 0 < k) (h : n < 10 ^ k) : (text n).length ≤ k := by
  rw [text]
  split_ifs with hn
  · exact hk
  · rw [List.length_map, Radix.digits, List.length_reverse]
    exact (Nat.digits_length_le_iff (by decide) n).2 h

end Decimal
