import Bws.Lib.Radix

/-!
# The same bits in groups of another width

A sequence of digits of `a` bits is read as digits of `b` bits, the highest bits first.  In the end
fewer than `b` bits can be left over.  The result is determined by the input (`Regroups.unique`);
with the bits left over put into a last digit, regrouping goes back (`Regroups.back`,
`Regroups.forth`).
-/

namespace Regroup

open Radix

/-- The digits `l` of `a` bits are the digits `out` of `b` bits, and `k` more bits of the value
`x`. -/
structure Regroups (a b : ℕ) (l out : List ℕ) (k x : ℕ) : Prop where
  bits : a * l.length = b * out.length + k
  rest_lt : k < b
  value_eq : value (2 ^ a) l = value (2 ^ b) out * 2 ^ k + x
  left_lt : x < 2 ^ k
  digit_lt : ∀ d ∈ out, d < 2 ^ b

/-- The digits with a last one for the bits left over, which are its highest. -/
def padded (b : ℕ) (out : List ℕ) (k x : ℕ) : List ℕ :=
  if k = 0 then out else out ++ [x * 2 ^ (b - k)]

/-- The bits of the last digit that stand for nothing. -/
def padBits (b k : ℕ) : ℕ := if k = 0 then 0 else b - k

section

variable {a b : ℕ} {l out e : List ℕ} {k x k' x' d : ℕ}

theorem value_append (n : ℕ) (l m : List ℕ) :
    value n (l ++ m) = value n l * n ^ m.length + value n m := by
  induction m using List.reverseRecOn with
  | nil => rw [List.append_nil, List.length_nil, pow_zero, mul_one]; rfl
  | append_singleton m d ih =>
    rw [← List.append_assoc, value_append_singleton, value_append_singleton, ih,
      List.length_append, List.length_singleton, pow_succ]
    ring

theorem value_singleton (n d : ℕ) : value n [d] = d := by
  have h := value_append_singleton (a := n) [] d
  rw [List.nil_append] at h
  rw [h, show value n [] = 0 from rfl, zero_mul, zero_add]

theorem value_pair (n d e : ℕ) : value n [d, e] = d * n + e := by
  rw [show [d, e] = [d] ++ [e] from rfl, value_append_singleton, value_singleton]

/-- Digits are determined by how many there are and by their value. -/
theorem eq_of_value_eq {m : List ℕ} (hlen : l.length = m.length) (hl : ∀ d ∈ l, d < 2 ^ a)
    (hm : ∀ d ∈ m, d < 2 ^ a) (hvalue : value (2 ^ a) l = value (2 ^ a) m) : l = m := by
  rcases Nat.eq_zero_or_pos a with rfl | ha
  · have hzero : ∀ l : List ℕ, (∀ d ∈ l, d < 2 ^ 0) → l = List.replicate l.length 0 :=
      fun l h ↦ List.eq_replicate_iff.2 ⟨rfl, fun d hd ↦ Nat.lt_one_iff.1 (h d hd)⟩
    rw [hzero l hl, hzero m hm, hlen]
  · have h := Nat.ofDigits_inj_of_len_eq (Nat.one_lt_two_pow ha.ne')
      (by rw [List.length_reverse, List.length_reverse, hlen])
      (fun d hd ↦ hl d (List.mem_reverse.1 hd)) (fun d hd ↦ hm d (List.mem_reverse.1 hd)) hvalue
    exact List.reverse_inj.1 h

theorem Regroups.nil (hb : 0 < b) : Regroups a b [] [] 0 0 :=
  ⟨rfl, hb, rfl, Nat.one_pos, List.forall_mem_nil _⟩

/-- **One more digit.**  The bits left over and those of the digit are new digits, and fewer bits
than a digit has. -/
theorem Regroups.concat (h : Regroups a b l out k x) (hbits : k + a = b * e.length + k')
    (hrest : k' < b) (hvalue : x * 2 ^ a + d = value (2 ^ b) e * 2 ^ k' + x') (hleft : x' < 2 ^ k')
    (hdigit : ∀ d ∈ e, d < 2 ^ b) : Regroups a b (l ++ [d]) (out ++ e) k' x' where
  bits := by
    rw [List.length_append, List.length_append, List.length_singleton, mul_add, mul_add, h.bits]
    omega
  rest_lt := hrest
  value_eq := by
    have hpow : 2 ^ k * 2 ^ a = (2 ^ b) ^ e.length * 2 ^ k' := by
      rw [← pow_add, ← pow_mul, ← pow_add, hbits]
    calc value (2 ^ a) (l ++ [d]) = (value (2 ^ b) out * 2 ^ k + x) * 2 ^ a + d := by
          rw [value_append_singleton, h.value_eq]
      _ = value (2 ^ b) out * (2 ^ k * 2 ^ a) + (x * 2 ^ a + d) := by ring
      _ = value (2 ^ b) out * ((2 ^ b) ^ e.length * 2 ^ k') +
            (value (2 ^ b) e * 2 ^ k' + x') := by rw [hpow, hvalue]
      _ = value (2 ^ b) (out ++ e) * 2 ^ k' + x' := by rw [value_append]; ring
  left_lt := hleft
  digit_lt := fun c hc ↦ (List.mem_append.1 hc).elim (h.digit_lt c) (hdigit c)

/-- **Regrouping has one result.** -/
theorem Regroups.unique (h : Regroups a b l out k x) {out' : List ℕ}
    (h' : Regroups a b l out' k' x') : out = out' ∧ k = k' ∧ x = x' := by
  have hsum : b * out.length + k = b * out'.length + k' := h.bits.symm.trans h'.bits
  have hk : k = k' := by
    have hmod := congrArg (· % b) hsum
    simpa [Nat.mul_add_mod, Nat.mod_eq_of_lt h.rest_lt, Nat.mod_eq_of_lt h'.rest_lt] using hmod
  subst hk
  have hlen : out.length = out'.length :=
    Nat.eq_of_mul_eq_mul_left (Nat.zero_lt_of_lt h.rest_lt) (Nat.add_right_cancel hsum)
  have hvalue := h.value_eq.symm.trans h'.value_eq
  have hx : x = x' := by
    have hmod := congrArg (· % 2 ^ k) hvalue
    simpa only [Nat.mul_add_mod_self_right, Nat.mod_eq_of_lt h.left_lt,
      Nat.mod_eq_of_lt h'.left_lt] using hmod
  subst hx
  have hvalue' : value (2 ^ b) out = value (2 ^ b) out' :=
    Nat.eq_of_mul_eq_mul_right (Nat.two_pow_pos k) (Nat.add_right_cancel hvalue)
  exact ⟨eq_of_value_eq hlen h.digit_lt h'.digit_lt hvalue', rfl, rfl⟩

theorem Regroups.padBits_lt (h : Regroups a b l out k x) : padBits b k < b := by
  have hrest := h.rest_lt
  rw [padBits]
  split_ifs <;> omega

/-- **The way back** from the digits and the padded last one. -/
theorem Regroups.back (h : Regroups a b l out k x) (hba : b ≤ a) (hl : ∀ d ∈ l, d < 2 ^ a) :
    Regroups b a (padded b out k x) l (padBits b k) 0 := by
  have hrest := h.rest_lt
  by_cases hk : k = 0
  · subst hk
    rw [padded, if_pos rfl, padBits, if_pos rfl]
    have hx : x = 0 := Nat.lt_one_iff.1 h.left_lt
    exact ⟨h.bits.symm, by omega, by rw [h.value_eq, hx]; ring, Nat.one_pos, hl⟩
  · rw [padded, if_neg hk, padBits, if_neg hk]
    refine ⟨?_, by omega, ?_, Nat.two_pow_pos _, hl⟩
    · rw [List.length_append, List.length_singleton, mul_add, h.bits]
      omega
    · have hpow : (2 : ℕ) ^ b = 2 ^ k * 2 ^ (b - k) := by
        rw [← pow_add, Nat.add_sub_cancel' hrest.le]
      rw [value_append_singleton, h.value_eq, hpow]
      ring

theorem padded_lt (h : Regroups a b l out k x) : ∀ d ∈ padded b out k x, d < 2 ^ b := by
  rw [padded]
  split_ifs with hk
  · exact h.digit_lt
  · intro d hd
    rcases List.mem_append.1 hd with hd | hd
    · exact h.digit_lt d hd
    · rw [List.mem_singleton.1 hd]
      calc x * 2 ^ (b - k) < 2 ^ k * 2 ^ (b - k) :=
            Nat.mul_lt_mul_of_pos_right h.left_lt (Nat.two_pow_pos _)
        _ = 2 ^ b := by rw [← pow_add, Nat.add_sub_cancel' h.rest_lt.le]

/-- **The way forth** again: where fewer bits than a digit has were left over on the way back, and
these are zero, the digits are what is regrouped and padded. -/
theorem Regroups.forth (h : Regroups b a l out k 0) (hba : b ≤ a) (hkb : k < b)
    (hl : ∀ d ∈ l, d < 2 ^ b) {out' : List ℕ} (h' : Regroups a b out out' k' x') :
    padded b out' k' x' = l ∧ padBits b k' = k := by
  have hback := h'.back hba h.digit_lt
  have hmod : padBits b k' = k := by
    have hlen := congrArg (· % b) hback.bits
    have hlen' := congrArg (· % b) h.bits
    simp only [Nat.mul_mod_right] at hlen hlen'
    have hsame : (a * out.length + padBits b k') % b = (a * out.length + k) % b :=
      hlen.symm.trans hlen'
    have hmod : padBits b k' ≡ k [MOD b] := Nat.ModEq.add_left_cancel' _ hsame
    exact Nat.ModEq.eq_of_lt_of_lt hmod h'.padBits_lt hkb
  refine ⟨eq_of_value_eq ?_ (padded_lt h') hl ?_, hmod⟩
  · refine Nat.eq_of_mul_eq_mul_left (Nat.zero_lt_of_lt hkb) ?_
    rw [hback.bits, h.bits, hmod]
  · rw [hback.value_eq, h.value_eq, hmod]

end

end Regroup
