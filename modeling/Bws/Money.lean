import Bws.NetBase
import Bws.WalletSerialize

/-!
# Amounts as text

`FormatMoney` writes an amount in coins and leaves out zeros at its end; `ParseMoney` reads the
whole coins as text and sums up the fraction digit by digit, with a weight that shrinks to zero
after eight of them.  What is written is read back, and what is read is exact: no sum leaves the range of
its type.  The digits can be missing altogether.
-/

namespace Bws

/-! ## The source -/

/-- A sum or a product of type `int64_t`, if it is in range. -/
def checked (x : ℤ) : Option ℤ := if InInt64 x then some x else none

/-- `strprintf("%08d", n)` -/
def zeroPadded (n : ℕ) : List UInt8 :=
  List.replicate (8 - (Decimal.text n).length) 0x30 ++ Decimal.text n

/-- The loop of `FormatMoney` that counts zeros, from a position on; `none` is a look at a position
in front of the text. -/
def countTrim (str : List UInt8) : ℕ → Option ℕ
  | 0 => if str[0]? = some 0x30 then none else some 0
  | 1 => if str[1]? = some 0x30 then none else some 0
  | i + 2 =>
    if str[i + 2]? = some 0x30 ∧ ∃ c ∈ str[i]?, Decimal.isDigit c then
      (countTrim str (i + 1)).map (· + 1)
    else some 0

def moneyAbs (n : ℤ) : Option ℤ := if 0 < n then some n else checked (-n)

/-- `FormatMoney` -/
def formatMoney (n : ℤ) (fPlus : Bool) : Option (List UInt8) := do
  let n_abs ← moneyAbs n
  let quotient := n_abs.tdiv COIN
  let remainder := n_abs.tmod COIN
  let str := Decimal.text quotient.toNat ++ ascii "." ++ zeroPadded remainder.toNat
  let nTrim ← countTrim str (str.length - 1)
  let str := str.take (str.length - nTrim)
  return if n < 0 then ascii "-" ++ str else if fPlus ∧ 0 < n then ascii "+" ++ str else str

/-- The loop of `ParseMoney` over the digits of the fraction; `none` is an overflow. -/
def moneyFraction (nUnits nMult : ℤ) : List UInt8 → Option (ℤ × List UInt8)
  | [] => some (nUnits, [])
  | c :: p =>
    if Decimal.isDigit c ∧ 0 < nMult then do
      let product ← checked (nMult * (c.toNat - 48))
      let nUnits ← checked (nUnits + product)
      moneyFraction nUnits (nMult.tdiv 10) p
    else some (nUnits, c :: p)

/-- The loop of `ParseMoney` up to the end of the number: the digits of the whole coins, the
fraction and the rest of the text; nothing for another character. -/
def moneyWhole (strWhole : List UInt8) : List UInt8 → Option (Option (List UInt8 × ℤ × List UInt8))
  | [] => some (some (strWhole, 0, []))
  | c :: p =>
    if c = 0x2e then
      (moneyFraction 0 (CENT * 10) p).map fun (nUnits, p) ↦ some (strWhole, nUnits, p)
    else if isspace c then some (some (strWhole, 0, c :: p))
    else if ¬ Decimal.isDigit c then some none
    else moneyWhole (strWhole ++ [c]) p

/-- What `ParseMoney` does behind its first loop. -/
def finishMoney (strWhole : List UInt8) (nUnits : ℤ) (p : List UInt8) : Option (Option ℤ) :=
  if ¬ ∀ c ∈ p, isspace c then some none
  else if 10 < strWhole.length then some none
  else if nUnits < 0 ∨ COIN < nUnits then some none
  else do
    let nWhole := (atoi64 strWhole).toInt
    let product ← checked (nWhole * COIN)
    let nValue ← checked (product + nUnits)
    return some nValue

/-- `ParseMoney` of a string, as far as a C string goes: the amount, or nothing for `false`; `none`
is an overflow. -/
def parseMoney (str : List UInt8) : Option (Option ℤ) :=
  (moneyWhole [] ((cStr str).dropWhile isspace)).bind fun
    | none => some none
    | some (strWhole, nUnits, p) => finishMoney strWhole nUnits p

/-! ## What is read -/

/-- Whitespace around a number with at most ten digits, and at most eight behind a point. -/
structure IsAmount (str whole frac : List UInt8) : Prop where
  whole_digits : ∀ c ∈ whole, Decimal.isDigit c = true
  frac_digits : ∀ c ∈ frac, Decimal.isDigit c = true
  whole_le : whole.length ≤ 10
  frac_le : frac.length ≤ 8
  shape : ∃ spaces spaces', (∀ c ∈ spaces, isspace c) ∧ (∀ c ∈ spaces', isspace c) ∧
    (str = spaces ++ (whole ++ spaces') ∧ frac = [] ∨
      str = spaces ++ (whole ++ 0x2e :: (frac ++ spaces')))

/-- The number of base units that the digits stand for. -/
def amountOf (whole frac : List UInt8) : ℤ :=
  Decimal.number whole * COIN + Decimal.number frac * 10 ^ (8 - frac.length)

/-- The number of coins that the digits stand for. -/
def coinsOf (whole frac : List UInt8) : ℚ :=
  Decimal.number whole + Decimal.number frac / 10 ^ frac.length

/-! ## Reading -/

/-- The weight of the next digit of a fraction that may have `k` more. -/
def weight (k : ℕ) : ℤ := if k = 0 then 0 else 10 ^ (k - 1)

section

variable {whole frac rest str : List UInt8} {k : ℕ} {n : ℤ}

theorem checked_of {x : ℤ} (h : InInt64 x) : checked x = some x := if_pos h

theorem weight_tdiv (k : ℕ) : (weight (k + 1)).tdiv 10 = weight k := by
  rcases k with - | k
  · rfl
  · rw [weight, weight, if_neg (Nat.succ_ne_zero _), if_neg (Nat.succ_ne_zero _),
      Nat.add_sub_cancel, Nat.add_sub_cancel, pow_succ, Int.mul_tdiv_cancel _ (by decide)]

/-- The digits of a fraction are summed up, as many as there may be. -/
theorem moneyFraction_spec (hfrac : ∀ c ∈ frac, Decimal.isDigit c = true) (hlen : frac.length ≤ k)
    (hrest : frac.length = k ∨ ∀ c ∈ rest.head?, Decimal.isDigit c = false) {nUnits : ℤ}
    (hpos : 0 ≤ nUnits) (hlt : nUnits + 10 ^ k < 2 ^ 63) :
    moneyFraction nUnits (weight k) (frac ++ rest) =
      some (nUnits + Decimal.number frac * 10 ^ (k - frac.length), rest) := by
  induction frac generalizing k nUnits with
  | nil =>
    rw [List.nil_append, Decimal.number_nil, Nat.cast_zero, zero_mul, add_zero]
    rcases rest with - | ⟨c, rest⟩
    · rfl
    · rw [moneyFraction, if_neg]
      rintro ⟨hc, hweight⟩
      rcases hrest with rfl | hrest
      · exact absurd hweight (by decide)
      · exact absurd hc (by rw [hrest c rfl]; decide)
  | cons c frac ih =>
    obtain ⟨hc, hfrac⟩ := List.forall_mem_cons.1 hfrac
    rcases k with - | k
    · exact absurd hlen (by simp)
    have hdigit := Decimal.isDigit_iff.1 hc
    have hweight : weight (k + 1) = 10 ^ k := rfl
    have hten : (0 : ℤ) < 10 ^ k := by positivity
    have hpow : (10 : ℤ) ^ (k + 1) = 10 ^ k * 10 := pow_succ 10 k
    -- the digit is at most nine
    have hle : (10 : ℤ) ^ k * (c.toNat - 48) ≤ 10 ^ k * 9 :=
      mul_le_mul_of_nonneg_left (by omega) hten.le
    have hnonneg : (0 : ℤ) ≤ 10 ^ k * (c.toNat - 48) := mul_nonneg hten.le (by omega)
    rw [List.length_cons] at hlen hrest
    obtain ⟨next, hnextUnits⟩ : ∃ next, next = nUnits + 10 ^ k * (c.toNat - 48) := ⟨_, rfl⟩
    have hnext := ih hfrac (Nat.le_of_succ_le_succ hlen)
      (hrest.imp_left Nat.succ_injective.eq_iff.1) (by omega : 0 ≤ next) (by omega)
    rw [hnextUnits] at hnext
    have hproduct : InInt64 (10 ^ k * (c.toNat - 48)) := ⟨by omega, by omega⟩
    have hsum : InInt64 (nUnits + 10 ^ k * (c.toNat - 48)) := ⟨by omega, by omega⟩
    have hcast : ((c.toNat - 48 : ℕ) : ℤ) = c.toNat - 48 := by omega
    have hexp : (10 : ℤ) ^ k = 10 ^ frac.length * 10 ^ (k - frac.length) := by
      rw [← pow_add, Nat.add_sub_cancel' (by omega)]
    rw [List.cons_append, moneyFraction, if_pos ⟨hc, by rw [hweight]; exact hten⟩, hweight]
    simp only [checked_of hproduct, checked_of hsum, Option.bind_eq_bind, Option.bind_some]
    rw [← hweight, weight_tdiv, hweight, hnext, Decimal.number_cons, List.length_cons,
      Nat.add_sub_add_right]
    push_cast
    rw [hcast, hexp]
    congr 2
    ring

/-- The digits of the whole coins are kept as text. -/
theorem moneyWhole_append (hwhole : ∀ c ∈ whole, Decimal.isDigit c = true) (acc : List UInt8) :
    moneyWhole acc (whole ++ rest) = moneyWhole (acc ++ whole) rest := by
  induction whole generalizing acc with
  | nil => rw [List.nil_append, List.append_nil]
  | cons c whole ih =>
    obtain ⟨hc, hwhole⟩ := List.forall_mem_cons.1 hwhole
    have hpoint : c ≠ 0x2e := by
      rintro rfl
      exact absurd hc (by decide)
    rw [List.cons_append, moneyWhole, if_neg hpoint, (not_isspace_of_isDigit hc).1,
      if_neg Bool.false_ne_true, if_neg (not_not.2 hc), ih hwhole, List.append_assoc,
      List.singleton_append]

theorem exists_fraction (p : List UInt8) : ∃ frac rest, p = frac ++ rest ∧
    (∀ c ∈ frac, Decimal.isDigit c = true) ∧ frac.length ≤ 8 ∧
    (frac.length = 8 ∨ ∀ c ∈ rest.head?, Decimal.isDigit c = false) := by
  have key : ∀ k, ∃ frac rest, p = frac ++ rest ∧ (∀ c ∈ frac, Decimal.isDigit c = true) ∧
      frac.length ≤ k ∧ (frac.length = k ∨ ∀ c ∈ rest.head?, Decimal.isDigit c = false) := by
    intro k
    induction p generalizing k with
    | nil => exact ⟨[], [], rfl, List.forall_mem_nil _, Nat.zero_le _, .inr nofun⟩
    | cons c p ih =>
      rcases k with - | k
      · exact ⟨[], c :: p, rfl, List.forall_mem_nil _, le_rfl, .inl rfl⟩
      · by_cases hc : Decimal.isDigit c = true
        · obtain ⟨frac, rest, hp, hdigits, hle, hend⟩ := ih k
          exact ⟨c :: frac, rest, by rw [hp, List.cons_append],
            List.forall_mem_cons.2 ⟨hc, hdigits⟩, Nat.succ_le_succ hle,
            hend.imp_left (congrArg Nat.succ)⟩
        · refine ⟨[], c :: p, rfl, List.forall_mem_nil _, Nat.zero_le _, .inr fun c' hc' ↦ ?_⟩
          cases Option.some.inj hc'
          exact Bool.eq_false_iff.2 hc
  exact key 8

theorem number_mul_lt (hfrac : ∀ c ∈ frac, Decimal.isDigit c = true) (hle : frac.length ≤ 8) :
    (Decimal.number frac : ℤ) * 10 ^ (8 - frac.length) < COIN := by
  have hlt := Decimal.number_lt hfrac
  have hpow : (10 : ℕ) ^ frac.length * 10 ^ (8 - frac.length) = 10 ^ 8 := by
    rw [← pow_add, Nat.add_sub_cancel' hle]
  have hmul := Nat.mul_lt_mul_of_pos_right hlt (Nat.pos_of_ne_zero
    (pow_ne_zero (8 - frac.length) (by decide : (10 : ℕ) ≠ 0)))
  rw [hpow] at hmul
  rw [show COIN = ((10 ^ 8 : ℕ) : ℤ) from rfl]
  exact_mod_cast hmul

theorem atoi64_of_digits (hwhole : ∀ c ∈ whole, Decimal.isDigit c = true)
    (hle : whole.length ≤ 10) : (atoi64 whole).toInt = Decimal.number whole ∧
      Decimal.number whole < 10 ^ 10 := by
  have hlt : Decimal.number whole < 10 ^ 10 :=
    (Decimal.number_lt hwhole).trans_le (Nat.pow_le_pow_right (by decide) hle)
  refine ⟨?_, hlt⟩
  rcases whole with - | ⟨c, l⟩
  · rfl
  obtain ⟨hspace, hminus, hplus, -⟩ := not_isspace_of_isDigit (hwhole c List.mem_cons_self)
  rw [atoi64, List.dropWhile_cons_of_neg (by rw [hspace]; decide)]
  dsimp only
  rw [if_neg hminus, if_neg hplus, Decimal.leading_eq_number hwhole, min_eq_right (by omega)]
  exact Int64.toInt_ofInt_of_le (by omega) (by omega)

/-- The sums behind the loops stay in range. -/
theorem finishMoney_eq (hwhole : ∀ c ∈ whole, Decimal.isDigit c = true) {nUnits : ℤ}
    (hpos : 0 ≤ nUnits) (hlt : nUnits < COIN) (p : List UInt8) :
    finishMoney whole nUnits p = if (∀ c ∈ p, isspace c) ∧ whole.length ≤ 10 then
      some (some (Decimal.number whole * COIN + nUnits)) else some none := by
  rw [finishMoney]
  by_cases hp : ∀ c ∈ p, isspace c = true
  · by_cases hlen : whole.length ≤ 10
    · obtain ⟨hatoi, hnumber⟩ := atoi64_of_digits hwhole hlen
      have hcoin : COIN = 100000000 := rfl
      have hproduct : InInt64 (Decimal.number whole * COIN) := by
        rw [hcoin]
        exact ⟨by omega, by omega⟩
      have hsum : InInt64 (Decimal.number whole * COIN + nUnits) := by
        rw [hcoin] at hlt ⊢
        exact ⟨by omega, by omega⟩
      rw [if_neg (not_not.2 hp), if_neg (not_lt.2 hlen), if_neg (by omega), if_pos ⟨hp, hlen⟩,
        hatoi]
      simp only [checked_of hproduct, checked_of hsum, Option.bind_eq_bind, Option.bind_some]
      rfl
    · rw [if_neg (not_not.2 hp), if_pos (not_le.1 hlen), if_neg fun h ↦ hlen h.2]
  · rw [if_pos hp, if_neg fun h ↦ hp h.1]

theorem coin_pos : 0 < COIN := by decide

theorem isSpace_ne_point {c : UInt8} (hc : isspace c = true) : c ≠ 0x2e := by
  rintro rfl
  exact absurd hc (by decide)

/-- What stands behind the digits of the whole coins. -/
theorem moneyWhole_point (hfrac : ∀ c ∈ frac, Decimal.isDigit c = true) (hlen : frac.length ≤ 8)
    (hrest : frac.length = 8 ∨ ∀ c ∈ rest.head?, Decimal.isDigit c = false) :
    moneyWhole whole (0x2e :: (frac ++ rest)) =
      some (some (whole, (Decimal.number frac : ℤ) * 10 ^ (8 - frac.length), rest)) := by
  rw [moneyWhole.eq_def]
  dsimp only
  rw [if_pos rfl, show CENT * 10 = weight 8 from rfl,
    moneyFraction_spec hfrac hlen hrest le_rfl (by norm_num), zero_add, Option.map_some]

theorem moneyWhole_space (hrest : ∀ c ∈ rest, isspace c = true) :
    moneyWhole whole rest = some (some (whole, 0, rest)) := by
  rcases rest with - | ⟨c, rest⟩
  · rfl
  · have hc := hrest c List.mem_cons_self
    rw [moneyWhole, if_neg (isSpace_ne_point hc), if_pos hc]

theorem dropWhile_space {spaces : List UInt8} (hspaces : ∀ c ∈ spaces, isspace c = true)
    (l : List UInt8) : (spaces ++ l).dropWhile isspace = l.dropWhile isspace :=
  List.dropWhile_append_of_pos hspaces

theorem dropWhile_digits (hwhole : ∀ c ∈ whole, Decimal.isDigit c = true)
    (hrest : rest.dropWhile isspace = rest) :
    (whole ++ rest).dropWhile isspace = whole ++ rest := by
  rcases whole with - | ⟨c, whole⟩
  · exact hrest
  · rw [List.cons_append, List.dropWhile_cons_of_neg]
    rw [(not_isspace_of_isDigit (hwhole c List.mem_cons_self)).1]
    exact Bool.false_ne_true

theorem parseMoney_of_isAmount (h : IsAmount (cStr str) whole frac) :
    parseMoney str = some (some (amountOf whole frac)) := by
  obtain ⟨hwhole, hfrac, hle, hlen, spaces, spaces', hspaces, hspaces', hshape⟩ := h
  have hzero : ∀ rest : List UInt8, (∀ c ∈ rest, isspace c = true) → finishMoney whole 0 rest =
      some (some (Decimal.number whole * COIN + 0)) := by
    intro rest hrest
    rw [finishMoney_eq hwhole le_rfl coin_pos, if_pos ⟨hrest, hle⟩]
  rw [parseMoney]
  rcases hshape with ⟨hstr, rfl⟩ | hstr
  · have hamount : amountOf whole [] = Decimal.number whole * COIN + 0 := by
      rw [amountOf, Decimal.number_nil, Nat.cast_zero, zero_mul]
    rw [hstr, dropWhile_space hspaces, hamount]
    rcases whole with - | ⟨c, whole⟩
    · rw [List.nil_append, List.dropWhile_eq_nil_iff.2 hspaces',
        moneyWhole_space (List.forall_mem_nil _), Option.bind_some]
      exact hzero [] (List.forall_mem_nil _)
    · have hc := (not_isspace_of_isDigit (hwhole c List.mem_cons_self)).1
      rw [List.cons_append, List.dropWhile_cons_of_neg (by rw [hc]; exact Bool.false_ne_true),
        ← List.cons_append, moneyWhole_append hwhole, List.nil_append, moneyWhole_space hspaces']
      exact hzero spaces' hspaces'
  · have hend : frac.length = 8 ∨ ∀ c ∈ spaces'.head?, Decimal.isDigit c = false := by
      refine .inr fun c hc ↦ Bool.eq_false_iff.2 fun hdigit ↦ ?_
      have hspace := hspaces' c (List.mem_of_head? hc)
      rw [(not_isspace_of_isDigit hdigit).1] at hspace
      exact Bool.false_ne_true hspace
    rw [hstr, dropWhile_space hspaces, dropWhile_digits hwhole rfl, moneyWhole_append hwhole,
      List.nil_append, moneyWhole_point hfrac hlen hend]
    dsimp only [Option.bind_some]
    rw [finishMoney_eq hwhole (by positivity) (number_mul_lt hfrac hlen), if_pos ⟨hspaces', hle⟩,
      amountOf]

/-- Every text has whitespace and digits, possibly none, in front of something else. -/
theorem exists_whole (str : List UInt8) : ∃ spaces whole rest, str = spaces ++ (whole ++ rest) ∧
    str.dropWhile isspace = whole ++ rest ∧ (∀ c ∈ spaces, isspace c = true) ∧
    (∀ c ∈ whole, Decimal.isDigit c = true) ∧ ∀ c ∈ rest.head?, Decimal.isDigit c = false := by
  refine ⟨str.takeWhile isspace, (str.dropWhile isspace).takeWhile Decimal.isDigit,
    (str.dropWhile isspace).dropWhile Decimal.isDigit, ?_, ?_, fun _ ↦ List.mem_takeWhile_imp,
    fun _ ↦ List.mem_takeWhile_imp, fun c hc ↦ ?_⟩
  · rw [List.takeWhile_append_dropWhile, List.takeWhile_append_dropWhile]
  · rw [List.takeWhile_append_dropWhile]
  · have hnot := List.head?_dropWhile_not Decimal.isDigit (str.dropWhile isspace)
    rw [hc] at hnot
    simpa using hnot

/-- The text is refused, or it is a number. -/
theorem parseMoney_cases (str : List UInt8) : parseMoney str = some none ∨
    ∃ whole frac, IsAmount (cStr str) whole frac := by
  obtain ⟨spaces, whole, rest, hstr, hdrop, hspaces, hwhole, hrest⟩ := exists_whole (cStr str)
  have hparse : parseMoney str = (moneyWhole whole rest).bind fun
      | none => some none
      | some (strWhole, nUnits, p) => finishMoney strWhole nUnits p := by
    rw [parseMoney, hdrop, moneyWhole_append hwhole, List.nil_append]
  by_cases hall : ∀ c ∈ rest, isspace c = true
  · rw [moneyWhole_space hall] at hparse
    dsimp only [Option.bind_some] at hparse
    rw [finishMoney_eq hwhole le_rfl coin_pos] at hparse
    split_ifs at hparse with hcond
    · exact .inr ⟨whole, [], hwhole, List.forall_mem_nil _, hcond.2, Nat.zero_le _, spaces, rest,
        hspaces, hall, .inl ⟨hstr, rfl⟩⟩
    · exact .inl hparse
  obtain ⟨c, p, rfl⟩ : ∃ c p, rest = c :: p := List.exists_cons_of_ne_nil fun hnil ↦
    hall (by rw [hnil]; exact List.forall_mem_nil _)
  by_cases hpoint : c = 0x2e
  · obtain ⟨frac, rest', rfl, hfrac, hlen, hend⟩ := exists_fraction p
    rw [hpoint, moneyWhole_point hfrac hlen hend] at hparse
    dsimp only [Option.bind_some] at hparse
    rw [finishMoney_eq hwhole (by positivity) (number_mul_lt hfrac hlen)] at hparse
    split_ifs at hparse with hcond
    · exact .inr ⟨whole, frac, hwhole, hfrac, hcond.2, hlen, spaces, rest', hspaces, hcond.1,
        .inr (by rw [hstr, hpoint])⟩
    · exact .inl hparse
  · rw [moneyWhole, if_neg hpoint] at hparse
    by_cases hspace : isspace c = true
    · rw [if_pos hspace] at hparse
      dsimp only [Option.bind_some] at hparse
      rw [finishMoney_eq hwhole le_rfl coin_pos, if_neg fun h ↦ hall h.1] at hparse
      exact .inl hparse
    · rw [if_neg hspace, if_pos (by rw [hrest c rfl]; exact Bool.false_ne_true)] at hparse
      exact .inl hparse

/-! ## Writing -/

/-- The loop stops behind the second digit of the fraction at the latest, and what it counts are
zeros. -/
theorem countTrim_spec (k : ℕ) (hfrac : frac.length = k + 2)
    (hstr : str = whole ++ 0x2e :: (frac ++ rest)) : ∃ kept m,
      frac = kept ++ List.replicate m (Decimal.char 0) ∧
      countTrim str (whole.length + 1 + (k + 1)) = some m := by
  induction k generalizing frac rest with
  | zero =>
    have hpoint : str[whole.length]? = some 0x2e := by
      rw [hstr, List.getElem?_append_right le_rfl, Nat.sub_self, List.getElem?_cons_zero]
    refine ⟨frac, 0, (List.append_nil _).symm, ?_⟩
    rw [show whole.length + 1 + (0 + 1) = whole.length + 2 from rfl, countTrim, hpoint, if_neg]
    rintro ⟨-, c, hc, hdigit⟩
    cases Option.some.inj hc
    exact absurd hdigit (by decide)
  | succ k ih =>
    rw [show whole.length + 1 + (k + 1 + 1) = whole.length + 1 + k + 2 from rfl, countTrim]
    split_ifs with hcond
    · -- the last character is a zero and is counted
      obtain ⟨init, c, rfl⟩ := (List.eq_nil_or_concat' frac).resolve_left
        (List.ne_nil_of_length_eq_add_one hfrac)
      rw [List.length_append, List.length_singleton] at hfrac
      have hinit : init.length = k + 2 := Nat.succ_injective hfrac
      rw [List.append_assoc, List.singleton_append] at hstr
      have hlast : str[whole.length + 1 + k + 2]? = some c := by
        rw [hstr, List.getElem?_append_right (by omega),
          show whole.length + 1 + k + 2 - whole.length = init.length + 1 by omega,
          List.getElem?_cons_succ, List.getElem?_append_right le_rfl, Nat.sub_self,
          List.getElem?_cons_zero]
      obtain rfl : c = Decimal.char 0 := Option.some.inj (hlast.symm.trans hcond.1)
      obtain ⟨kept, m, rfl, hcount⟩ := ih hinit hstr
      refine ⟨kept, m + 1, by rw [List.append_assoc, ← List.replicate_succ'], ?_⟩
      rw [show whole.length + 1 + k + 1 = whole.length + 1 + (k + 1) from rfl, hcount,
        Option.map_some]
    · exact ⟨frac, 0, (List.append_nil _).symm, rfl⟩

theorem zeroPadded_spec {r : ℕ} (hr : r < 10 ^ 8) : (zeroPadded r).length = 8 ∧
    Decimal.number (zeroPadded r) = r ∧ ∀ c ∈ zeroPadded r, Decimal.isDigit c = true := by
  have hle := Decimal.length_text_le (by decide) hr
  refine ⟨?_, ?_, fun c hc ↦ ?_⟩
  · rw [zeroPadded, List.length_append, List.length_replicate, Nat.sub_add_cancel hle]
  · rw [zeroPadded, Decimal.number_append, show (0x30 : UInt8) = Decimal.char 0 from rfl,
      Decimal.number_replicate_zero, zero_mul, zero_add, Decimal.number_text]
  · rcases List.mem_append.1 hc with hc | hc
    · rw [List.eq_of_mem_replicate hc]
      rfl
    · exact Decimal.isDigit_of_mem_text c hc

/-- An amount is written with all of its coins, and zeros at the end of the fraction are left
out. -/
theorem formatMoney_eq (hpos : 0 ≤ n) (hin : InInt64 n) : ∃ frac m,
    formatMoney n false = some (Decimal.text (n / COIN).toNat ++ 0x2e :: frac) ∧
    zeroPadded (n % COIN).toNat = frac ++ List.replicate m (Decimal.char 0) := by
  have habs : moneyAbs n = some n := by
    rw [moneyAbs]
    split_ifs with h
    · rfl
    · obtain rfl : n = 0 := le_antisymm (not_lt.1 h) hpos
      rfl
  have hlt : (n % COIN).toNat < 10 ^ 8 := by
    have := Int.emod_lt_of_pos n coin_pos
    rw [COIN] at this ⊢
    omega
  obtain ⟨hlen, -, -⟩ := zeroPadded_spec hlt
  set whole := Decimal.text (n / COIN).toNat
  set digits := zeroPadded (n % COIN).toNat
  have hshape : whole ++ 0x2e :: digits = whole ++ 0x2e :: (digits ++ []) := by
    rw [List.append_nil]
  obtain ⟨frac, m, hdigits, hcount⟩ := countTrim_spec 6 hlen hshape
  refine ⟨frac, m, ?_, hdigits⟩
  have hstr : whole ++ ascii "." ++ digits = whole ++ 0x2e :: digits := by
    rw [List.append_assoc]
    rfl
  have hlength : (whole ++ 0x2e :: digits).length - 1 = whole.length + 1 + (6 + 1) := by
    rw [List.length_append, List.length_cons, hlen]
    rfl
  have hkept : whole ++ 0x2e :: digits =
      (whole ++ 0x2e :: frac) ++ List.replicate m (Decimal.char 0) := by
    rw [hdigits, List.append_assoc, List.cons_append]
  rw [formatMoney, habs]
  simp only [Option.bind_eq_bind, Option.bind_some]
  rw [Int.tdiv_eq_ediv_of_nonneg hpos, Int.tmod_eq_emod_of_nonneg hpos, hstr, hlength, hcount,
    Option.bind_some, if_neg (not_lt.2 hpos), if_neg fun h ↦ Bool.false_ne_true h.1, hkept]
  have hkeep : ((whole ++ 0x2e :: frac) ++ List.replicate m (Decimal.char 0)).length - m =
      (whole ++ 0x2e :: frac).length := by
    rw [List.length_append, List.length_replicate, Nat.add_sub_cancel]
  exact congrArg some (List.take_left' hkeep.symm)

theorem zero_notMem_number (hwhole : ∀ c ∈ whole, Decimal.isDigit c = true)
    (hfrac : ∀ c ∈ frac, Decimal.isDigit c = true) : 0 ∉ whole ++ 0x2e :: frac := by
  intro hmem
  rcases List.mem_append.1 hmem with h | h
  · exact absurd (hwhole 0 h) (by decide)
  · rcases List.mem_cons.1 h with h | h
    · exact absurd h (by decide)
    · exact absurd (hfrac 0 h) (by decide)

/-- **What is written is read back.** -/
theorem parse_format (hpos : 0 ≤ n) (hlt : n < 10 ^ 10 * COIN) :
    ∃ str, formatMoney n false = some str ∧ parseMoney str = some (some n) := by
  have hin : InInt64 n := by
    rw [COIN] at hlt
    exact ⟨by omega, by omega⟩
  obtain ⟨frac, m, hformat, hdigits⟩ := formatMoney_eq hpos hin
  refine ⟨_, hformat, ?_⟩
  have hmod : (n % COIN).toNat < 10 ^ 8 := by
    have := Int.emod_lt_of_pos n coin_pos
    rw [COIN] at this ⊢
    omega
  obtain ⟨hlen, hnumber, hdigit⟩ := zeroPadded_spec hmod
  rw [hdigits] at hlen hnumber hdigit
  rw [List.length_append, List.length_replicate] at hlen
  rw [Decimal.number_append, Decimal.number_replicate_zero, List.length_replicate, add_zero]
    at hnumber
  have hfrac : ∀ c ∈ frac, Decimal.isDigit c = true := fun c hc ↦
    hdigit c (List.mem_append_left _ hc)
  have hdiv : (n / COIN).toNat < 10 ^ 10 := by
    have := Int.ediv_lt_of_lt_mul coin_pos hlt
    omega
  have hamount : amountOf (Decimal.text (n / COIN).toNat) frac = n := by
    have hexp : 8 - frac.length = m := by omega
    have hcast : (Decimal.number frac : ℤ) * 10 ^ m = (n % COIN).toNat := by exact_mod_cast hnumber
    rw [amountOf, Decimal.number_text, hexp, hcast, Int.toNat_of_nonneg (Int.ediv_nonneg hpos
      coin_pos.le), Int.toNat_of_nonneg (Int.emod_nonneg n coin_pos.ne'), mul_comm]
    exact Int.mul_ediv_add_emod n COIN
  have hzero : 0 ∉ Decimal.text (n / COIN).toNat ++ 0x2e :: frac :=
    zero_notMem_number Decimal.isDigit_of_mem_text hfrac
  rw [← hamount]
  refine parseMoney_of_isAmount ?_
  rw [hamount, cStr_eq_self hzero]
  exact ⟨Decimal.isDigit_of_mem_text, hfrac, Decimal.length_text_le (by decide) hdiv, by omega,
    [], [], List.forall_mem_nil _, List.forall_mem_nil _, .inr (by rw [List.append_nil]; rfl)⟩

/-- The digits behind the point are parts of one coin. -/
theorem cast_amountOf (hle : frac.length ≤ 8) :
    (amountOf whole frac : ℚ) = coinsOf whole frac * COIN := by
  have hpow : (10 : ℚ) ^ frac.length * 10 ^ (8 - frac.length) = 10 ^ 8 := by
    rw [← pow_add, Nat.add_sub_cancel' hle]
  have hne : (10 : ℚ) ^ frac.length ≠ 0 := pow_ne_zero _ (by norm_num)
  rw [amountOf, coinsOf, show COIN = 10 ^ 8 from rfl]
  rw [Int.cast_add, Int.cast_mul, Int.cast_mul, Int.cast_pow, Int.cast_pow, Int.cast_natCast,
    Int.cast_natCast, Int.cast_ofNat, ← hpow]
  field_simp

end

/-- **Amounts as text.**  What is written for less than 10^10 coins is read back; no text makes a
sum overflow; and an amount is read exactly from whitespace around a decimal number, whose digits
may be missing, in front of the first zero character. -/
theorem money_text :
    (∀ n, 0 ≤ n → n < 10 ^ 10 * COIN →
      ∃ str, formatMoney n false = some str ∧ parseMoney str = some (some n)) ∧
    ∀ str, parseMoney str ≠ none ∧ ∀ n, parseMoney str = some (some n) ↔
      ∃ whole frac, IsAmount (cStr str) whole frac ∧ (n : ℚ) = coinsOf whole frac * COIN := by
  refine ⟨fun n ↦ parse_format, fun str ↦ ⟨fun hnone ↦ ?_, fun n ↦ ⟨fun h ↦ ?_, ?_⟩⟩⟩
  · rcases parseMoney_cases str with h | ⟨whole, frac, h⟩
    · exact Option.some_ne_none _ (h.symm.trans hnone)
    · exact Option.some_ne_none _ ((parseMoney_of_isAmount h).symm.trans hnone)
  · rcases parseMoney_cases str with hrefused | ⟨whole, frac, hamount⟩
    · exact absurd (h.symm.trans hrefused) (by simp)
    · have heq := h.symm.trans (parseMoney_of_isAmount hamount)
      refine ⟨whole, frac, hamount, ?_⟩
      rw [← cast_amountOf hamount.frac_le, Option.some.inj (Option.some.inj heq)]
  · rintro ⟨whole, frac, hamount, hn⟩
    rw [← cast_amountOf hamount.frac_le] at hn
    rw [parseMoney_of_isAmount hamount, Int.cast_injective hn]

theorem money_text_sample :
    ((0 : ℤ) ≤ 150000000 ∧ (150000000 : ℤ) < 10 ^ 10 * COIN) ∧
      formatMoney 150000000 false = some (ascii "1.50") ∧
      ∃ str, formatMoney 150000000 false = some str ∧
        parseMoney str = some (some 150000000) :=
  ⟨by decide, by decide, money_text.1 150000000 (by decide) (by decide)⟩

/-- Nothing at all is read as no coins, and nothing behind a zero character is looked at. -/
theorem parseMoney_no_numeral :
    (parseMoney [] = some (some 0) ∧
      ¬ ∃ whole frac, IsAmount [] whole frac ∧ whole ++ frac ≠ []) ∧
    parseMoney [0x31, 0, 0x78] = some (some COIN) ∧
      ¬ ∃ whole frac, IsAmount [0x31, 0, 0x78] whole frac := by
  refine ⟨⟨by decide +kernel, ?_⟩, by decide +kernel, ?_⟩
  · rintro ⟨whole, frac, ⟨-, -, -, -, spaces, spaces', -, -, ⟨hstr, rfl⟩ | hstr⟩, hne⟩
    · obtain ⟨-, hstr⟩ := List.append_eq_nil_iff.1 hstr.symm
      exact hne (by rw [(List.append_eq_nil_iff.1 hstr).1, List.append_nil])
    · obtain ⟨-, hstr⟩ := List.append_eq_nil_iff.1 hstr.symm
      exact List.cons_ne_nil _ _ (List.append_eq_nil_iff.1 hstr).2
  · rintro ⟨whole, frac, hwhole, hfrac, -, -, spaces, spaces', hspaces, hspaces', hshape⟩
    have hmem : (0 : UInt8) ∈ [0x31, 0, 0x78] := by decide
    have hspace : ∀ l : List UInt8, (∀ c ∈ l, isspace c = true) → 0 ∉ l := fun l hl h ↦
      absurd (hl 0 h) (by decide)
    have hdigit : ∀ l : List UInt8, (∀ c ∈ l, Decimal.isDigit c = true) → 0 ∉ l := fun l hl h ↦
      absurd (hl 0 h) (by decide)
    rcases hshape with ⟨hstr, -⟩ | hstr
    · simp [hstr, hspace _ hspaces, hspace _ hspaces', hdigit _ hwhole] at hmem
    · simp [hstr, hspace _ hspaces, hspace _ hspaces', hdigit _ hwhole, hdigit _ hfrac] at hmem

end Bws
