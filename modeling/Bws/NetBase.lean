import Bws.Base58
import Bws.Serialize
import Bws.Lib.Decimal

/-!
# A host and a port

`SplitHostPort` takes the text behind the last colon of a string for a port, where that colon is the
only one or follows a host in brackets.  The number is read with `strtol`, whose 64 bits are cut to
the 32 bits of an `int` before they are looked at, and as far as a zero character: so a numeral far
out of range can pass for a port (`splitsSoundly_iff`).
-/

namespace Bws

/-! ## The functions of the library -/

/-- A `long`, at the limits of the type where a number is out of range. -/
def saturate (n : ℤ) : Int64 := Int64.ofInt (max (-2 ^ 63) (min (2 ^ 63 - 1) n))

/-- The sign of a number, and what follows it. -/
def splitSign : List UInt8 → Bool × List UInt8
  | [] => (false, [])
  | c :: p => if c = 0x2d then (true, p) else (false, if c = 0x2b then p else c :: p)

/-- `strtol`, to the base of ten: the number that a C string begins with, and where it ends.  Where
there is no number, nothing is read. -/
def strtol (nptr : List UInt8) : Int64 × List UInt8 :=
  let (negative, p) := splitSign (nptr.dropWhile isspace)
  let digits := p.takeWhile Decimal.isDigit
  if digits = [] then (0, nptr)
  else (saturate (if negative then -Decimal.number digits else Decimal.number digits),
    p.dropWhile Decimal.isDigit)

/-- `str.find_last_of(c, pos)`, where `npos` (`none`) is the whole string. -/
def findLastOf (str : List UInt8) (c : UInt8) (pos : Option ℕ) : Option ℕ :=
  let i := Nat.findGreatest (fun i ↦ str[i]? = some c) (pos.elim str.length (min · str.length))
  if str[i]? = some c then some i else none

/-- `colon-1`, for a `size_t`; it is `npos` for a zero. -/
def predSize (colon : ℕ) : Option ℕ := if colon = 0 then none else some (colon - 1)

/-- `a && b`, where each may read outside of a string (`none`) -/
def andRead (a b : Option Bool) : Option Bool := a.bind fun a ↦ if a then b else some false

/-! ## SplitHostPort -/

/-- `in` without the brackets around it -/
def unbracket (str : List UInt8) : Option (List UInt8) :=
  if 0 < str.length then
    (andRead (str[0]?.map (· = 0x5b)) (str[str.length - 1]?.map (· = 0x5d))).map fun fBrackets ↦
      if fBrackets then (str.drop 1).take (str.length - 2) else str
  else some str

/-- `SplitHostPort`, with what it leaves in `portOut` and `hostOut`; `none` is a read outside of the
string. -/
def splitHostPort (str : List UInt8) (portOut : Int32) : Option (Int32 × List UInt8) :=
  match findLastOf str 0x3a none with
  | none => (unbracket str).map (portOut, ·)
  | some colon =>
    (andRead (str[0]?.map (· = 0x5b)) (((predSize colon).bind (str[·]?)).map (· = 0x5d))).bind
      fun fBracketed ↦
    let fMultiColon := (findLastOf str 0x3a (predSize colon)).isSome
    if colon = 0 ∨ fBracketed ∨ ¬ fMultiColon then
      let (l, endp) := strtol (cStr (str.drop (colon + 1)))
      let n := l.toInt32
      if endp = [] ∧ 0 ≤ n then
        (unbracket (str.take colon)).map (if 0 < n ∧ n < 0x10000 then n else portOut, ·)
      else (unbracket str).map (portOut, ·)
    else (unbracket str).map (portOut, ·)

/-! ## What it is meant to do -/

/-- A text is a decimal integer, with whitespace and a sign in front as `strtol` allows them. -/
def Denotes (text : List UInt8) (n : ℤ) : Prop :=
  ∃ spaces digits, (∀ c ∈ spaces, isspace c) ∧ digits ≠ [] ∧ (∀ c ∈ digits, Decimal.isDigit c) ∧
    ((text = spaces ++ digits ∨ text = spaces ++ 0x2b :: digits) ∧ n = Decimal.number digits ∨
      text = spaces ++ 0x2d :: digits ∧ n = -Decimal.number digits)

/-- The last colon, where it is in front, follows a host in brackets or is the only one. -/
def Separates (str : List UInt8) (colon : ℕ) : Prop :=
  str[colon]? = some 0x3a ∧ (∀ j : ℕ, str[j]? = some 0x3a → j ≤ colon) ∧
    (colon = 0 ∨ (str[0]? = some 0x5b ∧ str[colon - 1]? = some 0x5d) ∨
      ∀ j : ℕ, str[j]? = some 0x3a → j = colon)

/-- A string without the brackets around it. -/
def inner (str : List UInt8) : List UInt8 :=
  if str.head? = some 0x5b ∧ str.getLast? = some 0x5d then str.tail.dropLast else str

/-- Neither the string nor what is in front of its last colon is in brackets. -/
def Unbracketed (str : List UInt8) : Prop :=
  str.head? = some 0x5b → str.getLast? ≠ some 0x5d ∧
    ∀ colon : ℕ, str[colon]? = some 0x3a → (∀ j : ℕ, str[j]? = some 0x3a → j ≤ colon) →
      str[colon - 1]? ≠ some 0x5d

/-- A string is split as it is meant to be.  No character outside of it is read; a port is assigned
only where the text behind the separating colon is that number; the host is the string without it
and without one pair of brackets; and a string with several colons and no brackets is returned
whole. -/
structure SplitsSoundly (str : List UInt8) : Prop where
  reads portOut : ∃ port host, splitHostPort str portOut = some (port, host)
  port {portOut port host} : splitHostPort str portOut = some (port, host) → port ≠ portOut →
    ∃ colon, Separates str colon ∧ Denotes (str.drop (colon + 1)) port.toInt ∧
      1 ≤ port.toInt ∧ port.toInt ≤ 65535 ∧ host = inner (str.take colon)
  host {portOut port host} : splitHostPort str portOut = some (port, host) →
    host = inner str ∨ ∃ colon, Separates str colon ∧ host = inner (str.take colon)
  whole {portOut port host} : splitHostPort str portOut = some (port, host) →
    Unbracketed str → 2 ≤ str.count 0x3a → port = portOut ∧ host = str

/-- The text behind the separating colon is, as far as its first zero character, a numeral whose low
32 bits are a port, though it is not that port, or there is such a character. -/
def Misread (str : List UInt8) : Prop :=
  ∃ colon n, Separates str colon ∧ Denotes (cStr (str.drop (colon + 1))) n ∧
    -2 ^ 63 ≤ n ∧ n < 2 ^ 63 ∧ 1 ≤ n % 2 ^ 32 ∧ n % 2 ^ 32 ≤ 65535 ∧
    (n % 2 ^ 32 ≠ n ∨ 0 ∈ str.drop (colon + 1))

/-! ## The library -/

section

variable {str text spaces digits p : List UInt8} {c : UInt8} {pos : Option ℕ} {i : ℕ} {n : ℤ}

theorem le_limit {j : ℕ} (hj : str[j]? = some c) :
    j ≤ pos.elim str.length (min · str.length) ↔ ∀ m ∈ pos, j ≤ m := by
  have hlen : j < str.length := (List.getElem?_eq_some_iff.1 hj).1
  cases pos with
  | none => simp [hlen.le]
  | some m => simp [hlen.le]

theorem findLastOf_eq_some : findLastOf str c pos = some i ↔ str[i]? = some c ∧
    (∀ m ∈ pos, i ≤ m) ∧ ∀ j : ℕ, str[j]? = some c → (∀ m ∈ pos, j ≤ m) → j ≤ i := by
  let limit := pos.elim str.length (min · str.length)
  have hgreatest : ∀ j, str[j]? = some c → j ≤ limit →
      j ≤ Nat.findGreatest (fun i ↦ str[i]? = some c) limit :=
    fun j hj hle ↦ Nat.le_findGreatest hle hj
  have hle : Nat.findGreatest (fun i ↦ str[i]? = some c) limit ≤ limit := Nat.findGreatest_le _
  rw [findLastOf]
  constructor
  · intro h
    split_ifs at h with hfound
    cases h
    exact ⟨hfound, (le_limit hfound).1 hle, fun j hj hpos ↦ hgreatest j hj ((le_limit hj).2 hpos)⟩
  · rintro ⟨hi, hpos, hlast⟩
    have hspec := Nat.findGreatest_spec (P := fun i ↦ str[i]? = some c) ((le_limit hi).2 hpos) hi
    have heq : Nat.findGreatest (fun i ↦ str[i]? = some c) limit = i :=
      le_antisymm (hlast _ hspec ((le_limit hspec).1 hle)) (hgreatest i hi ((le_limit hi).2 hpos))
    rw [show Nat.findGreatest _ (pos.elim str.length (min · str.length)) = i from heq, if_pos hi]

theorem findLastOf_eq_none :
    findLastOf str c pos = none ↔ ∀ j : ℕ, str[j]? = some c → ¬ ∀ m ∈ pos, j ≤ m := by
  constructor
  · intro h j hj hpos
    have hspec := Nat.findGreatest_spec (P := fun i ↦ str[i]? = some c) ((le_limit hj).2 hpos) hj
    rw [findLastOf] at h
    rw [if_pos hspec] at h
    cases h
  · intro h
    rw [Option.eq_none_iff_forall_ne_some]
    intro i hi
    obtain ⟨hi, hpos, -⟩ := findLastOf_eq_some.1 hi
    exact h i hi hpos

theorem takeWhile_digits (h : ∀ c ∈ digits, Decimal.isDigit c = true) :
    digits.takeWhile Decimal.isDigit = digits ∧ digits.dropWhile Decimal.isDigit = [] :=
  ⟨List.takeWhile_eq_self_iff.2 h, List.dropWhile_eq_nil_iff.2 h⟩

/-- What `strtol` makes of the digits behind a sign. -/
theorem strtol_eq {negative : Bool}
    (hsign : splitSign (text.dropWhile isspace) = (negative, digits)) (hne : digits ≠ [])
    (h : ∀ c ∈ digits, Decimal.isDigit c = true) : strtol text =
      (saturate (if negative then -Decimal.number digits else Decimal.number digits), []) := by
  obtain ⟨htake, hdrop⟩ := takeWhile_digits h
  simp only [strtol, hsign, htake, hdrop, if_neg hne]

/-- A number is read, as far as the type goes. -/
theorem strtol_of_denotes (h : Denotes text n) : strtol text = (saturate n, []) := by
  obtain ⟨spaces, digits, hspaces, hne, hdigits, htext⟩ := h
  obtain ⟨d, ds, rfl⟩ := List.exists_cons_of_ne_nil hne
  obtain ⟨hspace, hminus, hplus, -⟩ := not_isspace_of_isDigit (hdigits d List.mem_cons_self)
  rcases htext with ⟨rfl | rfl, rfl⟩ | ⟨rfl, rfl⟩
  · have hsign : splitSign ((spaces ++ d :: ds).dropWhile isspace) = (false, d :: ds) := by
      rw [List.dropWhile_append_of_pos hspaces, List.dropWhile_cons_of_neg (by simp [hspace]),
        splitSign, if_neg hminus, if_neg hplus]
    rw [strtol_eq hsign hne hdigits, if_neg Bool.false_ne_true]
  · have hsign : splitSign ((spaces ++ 0x2b :: d :: ds).dropWhile isspace) = (false, d :: ds) := by
      rw [List.dropWhile_append_of_pos hspaces]
      rfl
    rw [strtol_eq hsign hne hdigits, if_neg Bool.false_ne_true]
  · have hsign : splitSign ((spaces ++ 0x2d :: d :: ds).dropWhile isspace) = (true, d :: ds) := by
      rw [List.dropWhile_append_of_pos hspaces]
      rfl
    rw [strtol_eq hsign hne hdigits, if_pos rfl]

/-- A text that is read to its end is a number, or there is nothing to read. -/
theorem denotes_of_strtol (h : (strtol text).2 = []) : text = [] ∨ ∃ n, Denotes text n := by
  rcases hsign : splitSign (text.dropWhile isspace) with ⟨negative, p⟩
  simp only [strtol, hsign] at h
  by_cases hnone : p.takeWhile Decimal.isDigit = []
  · rw [if_pos hnone] at h
    exact .inl h
  · right
    rw [if_neg hnone] at h
    have hspaces : ∀ c ∈ text.takeWhile isspace, isspace c = true :=
      fun c hc ↦ List.mem_takeWhile_imp hc
    have hsplit : text.takeWhile isspace ++ text.dropWhile isspace = text :=
      List.takeWhile_append_dropWhile
    have hdigits : ∀ c ∈ p, Decimal.isDigit c = true := List.dropWhile_eq_nil_iff.1 h
    have hne : p ≠ [] := by
      rintro rfl
      exact hnone rfl
    rcases hrest : text.dropWhile isspace with - | ⟨c, q⟩
    · rw [hrest] at hsign
      cases hsign
      exact absurd rfl hne
    · rw [hrest, splitSign] at hsign
      rw [hrest] at hsplit
      split_ifs at hsign with hminus hplus
      · cases hsign
        exact ⟨_, _, _, hspaces, hne, hdigits, .inr ⟨by rw [← hminus, hsplit], rfl⟩⟩
      · cases hsign
        exact ⟨_, _, _, hspaces, hne, hdigits, .inl ⟨.inr (by rw [← hplus, hsplit]), rfl⟩⟩
      · cases hsign
        exact ⟨_, _, _, hspaces, hne, hdigits, .inl ⟨.inl hsplit.symm, rfl⟩⟩

theorem Denotes.zero_notMem (h : Denotes text n) : 0 ∉ text := by
  obtain ⟨spaces, digits, hspaces, -, hdigits, htext⟩ := h
  have hs : 0 ∉ spaces := fun hmem ↦ absurd (hspaces 0 hmem) (by decide)
  have hd : 0 ∉ digits := fun hmem ↦ absurd (hdigits 0 hmem) (by decide)
  rcases htext with ⟨rfl | rfl, -⟩ | ⟨rfl, -⟩ <;> simp [hs, hd]

theorem cStr_eq_self (h : 0 ∉ text) : cStr text = text :=
  List.takeWhile_eq_self_iff.2 fun _ hc ↦ decide_eq_true fun hzero ↦ h (hzero ▸ hc)

theorem toInt_saturate (n : ℤ) : (saturate n).toInt = max (-2 ^ 63) (min (2 ^ 63 - 1) n) :=
  Int64.toInt_ofInt_of_le (by omega) (by omega)

/-- The ports that an `int` can be cut to are those of the low bits of a number in range. -/
theorem toInt32_saturate (n : ℤ) : 1 ≤ (saturate n).toInt32.toInt ∧
    (saturate n).toInt32.toInt ≤ 65535 ↔
      -2 ^ 63 ≤ n ∧ n < 2 ^ 63 ∧ 1 ≤ n % 2 ^ 32 ∧ n % 2 ^ 32 ≤ 65535 := by
  rw [Int64.toInt_toInt32, toInt_saturate, Int.bmod_def]
  omega

theorem toInt32_saturate_eq (hle : -2 ^ 63 ≤ n) (hlt : n < 2 ^ 63) (hport : n % 2 ^ 32 ≤ 65535) :
    (saturate n).toInt32.toInt = n % 2 ^ 32 := by
  rw [Int64.toInt_toInt32, toInt_saturate, Int.bmod_def]
  omega

theorem int32_port_iff (n : Int32) : 0 < n ∧ n < 0x10000 ↔ 1 ≤ n.toInt ∧ n.toInt ≤ 65535 := by
  rw [Int32.lt_iff_toInt_lt, Int32.lt_iff_toInt_lt]
  change 0 < n.toInt ∧ n.toInt < 65536 ↔ _
  omega

/-! ## Reading characters -/

theorem unbracket_eq (str : List UInt8) : unbracket str = some (inner str) := by
  rcases str with - | ⟨c, l⟩
  · rfl
  · have hlast : (c :: l)[(c :: l).length - 1]? = (c :: l).getLast? :=
      List.getLast?_eq_getElem?.symm
    have hd := List.getLast?_eq_some_getLast (List.cons_ne_nil c l)
    have htake : l.take (l.length - 1) = l.dropLast := List.dropLast_eq_take.symm
    rw [unbracket, if_pos (by simp), hlast, hd, inner, hd]
    by_cases hc : c = 0x5b
    · subst hc
      by_cases hb : (0x5b :: l).getLast (List.cons_ne_nil _ l) = 0x5d
      · simp [andRead, hb, htake]
      · simp [andRead, hb]
    · simp [andRead, hc]

/-- The bracket in front of the colon is read only where the string begins with one. -/
theorem bracketed_eq {colon : ℕ} (hcolon : str[colon]? = some 0x3a) :
    andRead (str[0]?.map (· = 0x5b)) (((predSize colon).bind (str[·]?)).map (· = 0x5d)) =
      some (decide (str[0]? = some 0x5b ∧ str[colon - 1]? = some 0x5d)) := by
  have hlt : colon < str.length := (List.getElem?_eq_some_iff.1 hcolon).1
  rcases Nat.eq_zero_or_pos colon with rfl | hpos
  · simp [andRead, hcolon]
  · have h0 := List.getElem?_eq_getElem (Nat.zero_lt_of_lt hlt)
    have h1 := List.getElem?_eq_getElem (lt_of_le_of_lt (Nat.sub_le colon 1) hlt)
    by_cases hbracket : str[0] = 0x5b
    · simp [andRead, predSize, hpos.ne', h0, h1, hbracket]
    · simp [andRead, h0, hbracket]

/-- The second search finds a colon in front of the last one. -/
theorem isSome_findLastOf_pred {colon : ℕ} (hpos : colon ≠ 0)
    (hlast : ∀ j : ℕ, str[j]? = some 0x3a → j ≤ colon) :
    (findLastOf str 0x3a (predSize colon)).isSome = true ↔
      ¬ ∀ j : ℕ, str[j]? = some 0x3a → j = colon := by
  rw [predSize, if_neg hpos, ← Option.ne_none_iff_isSome, Ne, findLastOf_eq_none]
  refine not_congr (forall₂_congr fun j hj ↦ ?_)
  have hle := hlast j hj
  simp only [Option.mem_some_iff, forall_eq']
  omega

/-- What is done with the text behind a separating colon. -/
theorem splitHostPort_of_separates {colon : ℕ} (h : Separates str colon) (portOut : Int32) :
    splitHostPort str portOut =
      some (if (strtol (cStr (str.drop (colon + 1)))).2 = [] ∧
          0 ≤ (strtol (cStr (str.drop (colon + 1)))).1.toInt32 then
        (if 0 < (strtol (cStr (str.drop (colon + 1)))).1.toInt32 ∧
            (strtol (cStr (str.drop (colon + 1)))).1.toInt32 < 0x10000 then
          (strtol (cStr (str.drop (colon + 1)))).1.toInt32 else portOut, inner (str.take colon))
        else (portOut, inner str)) := by
  obtain ⟨hcolon, hlast, hsep⟩ := h
  have hfind : findLastOf str 0x3a none = some colon :=
    findLastOf_eq_some.2 ⟨hcolon, nofun, fun j hj _ ↦ hlast j hj⟩
  have hcond : colon = 0 ∨ decide (str[0]? = some 0x5b ∧ str[colon - 1]? = some 0x5d) = true ∨
      ¬ (findLastOf str 0x3a (predSize colon)).isSome = true := by
    by_cases hzero : colon = 0
    · exact .inl hzero
    · rw [isSome_findLastOf_pred hzero hlast, not_not, decide_eq_true_iff]
      exact hsep
  rw [splitHostPort, hfind]
  dsimp only
  rw [bracketed_eq hcolon, Option.bind_some, if_pos hcond, unbracket_eq, unbracket_eq]
  split_ifs <;> rfl

/-- Without a separating colon there is no port. -/
theorem splitHostPort_of_not_separates (h : ∀ colon, ¬ Separates str colon) (portOut : Int32) :
    splitHostPort str portOut = some (portOut, inner str) := by
  rw [splitHostPort]
  rcases hfind : findLastOf str 0x3a none with - | colon
  · rw [unbracket_eq]
    rfl
  · obtain ⟨hcolon, -, hlast⟩ := findLastOf_eq_some.1 hfind
    replace hlast : ∀ j : ℕ, str[j]? = some 0x3a → j ≤ colon := fun j hj ↦ hlast j hj nofun
    dsimp only
    rw [bracketed_eq hcolon, Option.bind_some, if_neg, unbracket_eq]
    · rfl
    · intro hcond
      refine h colon ⟨hcolon, hlast, ?_⟩
      by_cases hzero : colon = 0
      · exact .inl hzero
      · rwa [isSome_findLastOf_pred hzero hlast, not_not, decide_eq_true_iff] at hcond

/-! ## The separating colon -/

theorem Separates.unique {colon colon' : ℕ} (h : Separates str colon) (h' : Separates str colon') :
    colon = colon' :=
  le_antisymm (h'.2.1 colon h.1) (h.2.1 colon' h'.1)

theorem exists_ne_of_two_le_count (h : 2 ≤ str.count c) (i : ℕ) :
    ∃ j : ℕ, str[j]? = some c ∧ j ≠ i := by
  obtain ⟨n, m, hlt, hn, hm⟩ :=
    List.duplicate_iff_exists_distinct_get.1 (List.duplicate_iff_two_le_count.2 h)
  have hget : ∀ n : Fin str.length, c = str.get n → str[n.1]? = some c := by
    intro n hn
    rw [List.getElem?_eq_getElem n.2, hn]
    rfl
  by_cases hi : n.1 = i
  · exact ⟨m, hget m hm, fun hmi ↦ absurd (hi.trans hmi.symm) (Nat.ne_of_lt hlt)⟩
  · exact ⟨n, hget n hn, hi⟩

/-- With two colons and no brackets there is no separating colon. -/
theorem not_separates_of_unbracketed (h : Unbracketed str) (hcount : 2 ≤ str.count 0x3a) :
    ∀ colon, ¬ Separates str colon := by
  rintro colon ⟨hcolon, hlast, hsep⟩
  obtain ⟨j, hj, hne⟩ := exists_ne_of_two_le_count hcount colon
  rcases hsep with rfl | ⟨hopen, hclose⟩ | honly
  · exact hne (Nat.le_zero.1 (hlast j hj))
  · rw [← List.head?_eq_getElem?] at hopen
    exact (h hopen).2 colon hcolon hlast hclose
  · exact hne (honly j hj)

theorem inner_of_unbracketed (h : Unbracketed str) : inner str = str :=
  if_neg fun hb ↦ (h hb.1).1 hb.2

/-- The two ways in which a string is split. -/
theorem splitHostPort_cases {portOut port : Int32} {host : List UInt8}
    (h : splitHostPort str portOut = some (port, host)) :
    (port = portOut ∧ host = inner str) ∨ ∃ colon, Separates str colon ∧
      host = inner (str.take colon) ∧ (strtol (cStr (str.drop (colon + 1)))).2 = [] ∧
      (port ≠ portOut → port = (strtol (cStr (str.drop (colon + 1)))).1.toInt32 ∧
        1 ≤ port.toInt ∧ port.toInt ≤ 65535) := by
  by_cases hsep : ∃ colon, Separates str colon
  · obtain ⟨colon, hsep⟩ := hsep
    rw [splitHostPort_of_separates hsep] at h
    split_ifs at h with hread hport
    · cases h
      exact .inr ⟨colon, hsep, rfl, hread.1, fun _ ↦ ⟨rfl, (int32_port_iff _).1 hport⟩⟩
    · cases h
      exact .inr ⟨colon, hsep, rfl, hread.1, fun hne ↦ absurd rfl hne⟩
    · cases h
      exact .inl ⟨rfl, rfl⟩
  · rw [splitHostPort_of_not_separates (not_exists.1 hsep)] at h
    cases h
    exact .inl ⟨rfl, rfl⟩

theorem isSome_splitHostPort (str : List UInt8) (portOut : Int32) :
    ∃ port host, splitHostPort str portOut = some (port, host) := by
  by_cases hsep : ∃ colon, Separates str colon
  · obtain ⟨colon, hsep⟩ := hsep
    exact ⟨_, _, splitHostPort_of_separates hsep portOut⟩
  · exact ⟨_, _, splitHostPort_of_not_separates (not_exists.1 hsep) portOut⟩

theorem denotes_text (n : ℕ) : Denotes (Decimal.text n) n :=
  ⟨[], Decimal.text n, List.forall_mem_nil _, Decimal.text_ne_nil n, Decimal.isDigit_of_mem_text,
    .inl ⟨.inl rfl, by rw [Decimal.number_text]⟩⟩

/-- The colon in front of a number separates it from a host without colons or in brackets. -/
theorem separates_append {host digits : List UInt8} (hdigits : 0x3a ∉ digits)
    (hhost : 0x3a ∉ host ∨ host.head? = some 0x5b ∧ host.getLast? = some 0x5d) :
    Separates (host ++ 0x3a :: digits) host.length := by
  have hlast : ∀ j : ℕ, (host ++ 0x3a :: digits)[j]? = some 0x3a → j ≤ host.length := by
    intro j hj
    by_contra hlt
    have hmem : 0x3a ∈ digits := by
      rw [List.getElem?_append_right (by omega), show j - host.length =
        (j - host.length - 1) + 1 by omega, List.getElem?_cons_succ] at hj
      exact List.mem_of_getElem? hj
    exact hdigits hmem
  refine ⟨by simp, hlast, .inr ?_⟩
  rcases hhost with hhost | ⟨hopen, hclose⟩
  · refine .inr fun j hj ↦ le_antisymm (hlast j hj) ?_
    by_contra hlt
    rw [List.getElem?_append_left (by omega)] at hj
    exact hhost (List.mem_of_getElem? hj)
  · have hlen : 0 < host.length := by
      rw [List.length_pos_iff]
      rintro rfl
      cases hopen
    left
    rw [List.getElem?_append_left hlen, List.getElem?_append_left (by omega)]
    exact ⟨List.head?_eq_getElem? ▸ hopen, List.getLast?_eq_getElem? ▸ hclose⟩

/-- **A host and a port are split again.** -/
theorem splitHostPort_append {host : List UInt8} {port : UInt16} (hport : port ≠ 0)
    (hhost : 0x3a ∉ host ∨ host.head? = some 0x5b ∧ host.getLast? = some 0x5d) (portOut : Int32) :
    splitHostPort (host ++ 0x3a :: Decimal.text port.toNat) portOut =
      some (Int32.ofInt port.toNat, inner host) := by
  have hlt := port.toNat_lt
  have hpos : port.toNat ≠ 0 := fun h ↦ hport (UInt16.toNat_inj.1 h)
  have hcolon : 0x3a ∉ Decimal.text port.toNat :=
    fun hmem ↦ absurd (Decimal.isDigit_of_mem_text _ hmem) (by decide)
  have hdrop : (host ++ 0x3a :: Decimal.text port.toNat).drop (host.length + 1) =
      Decimal.text port.toNat := by
    rw [List.drop_append]
    simp
  have hdenotes := denotes_text port.toNat
  have hread : strtol (cStr (Decimal.text port.toNat)) = (saturate port.toNat, []) := by
    rw [cStr_eq_self hdenotes.zero_notMem, strtol_of_denotes hdenotes]
  have htoInt : (Int32.ofInt port.toNat).toInt = port.toNat :=
    Int32.toInt_ofInt_of_le (by omega) (by omega)
  have hval : (saturate port.toNat).toInt32 = Int32.ofInt port.toNat := by
    rw [← Int32.toInt_inj, htoInt, toInt32_saturate_eq] <;> omega
  have hrange : 0 < Int32.ofInt port.toNat ∧ Int32.ofInt port.toNat < 0x10000 :=
    (int32_port_iff _).2 (by omega)
  rw [splitHostPort_of_separates (separates_append hcolon hhost), hdrop, hread]
  dsimp only
  rw [hval, if_pos ⟨rfl, Int32.le_of_lt hrange.1⟩, if_pos hrange, List.take_left']
  rfl

/-- A text that is misread is assigned as a port that it does not denote. -/
theorem not_splitsSoundly_of_misread (hmis : Misread str) : ¬ SplitsSoundly str := by
  intro h
  obtain ⟨colon, n, hsep, hdenotes, hle, hlt, hlow, hhigh, hwrong⟩ := hmis
  have hport : 1 ≤ (saturate n).toInt32.toInt ∧ (saturate n).toInt32.toInt ≤ 65535 :=
    (toInt32_saturate n).2 ⟨hle, hlt, hlow, hhigh⟩
  have hsplit := splitHostPort_of_separates hsep 0
  have hpos := (int32_port_iff _).2 hport
  rw [strtol_of_denotes hdenotes, if_pos ⟨rfl, Int32.le_of_lt hpos.1⟩, if_pos hpos] at hsplit
  have hne : (saturate n).toInt32 ≠ 0 := by
    intro hzero
    rw [hzero] at hport
    exact absurd hport.1 (by decide)
  obtain ⟨colon', hsep', hdenotes', -⟩ := h.port hsplit hne
  rw [hsep'.unique hsep] at hdenotes'
  have hzero := hdenotes'.zero_notMem
  rw [cStr_eq_self hzero] at hdenotes
  rw [toInt32_saturate_eq hle hlt hhigh] at hdenotes'
  -- both are what `strtol` reads
  have hsame := congrArg Int64.toInt (congrArg Prod.fst
    ((strtol_of_denotes hdenotes).symm.trans (strtol_of_denotes hdenotes')))
  simp only [toInt_saturate] at hsame
  rcases hwrong with hwrong | hwrong
  · omega
  · exact hzero hwrong

/-- **Splitting a string into host and port.**  A port is what the text behind the colon denotes,
unless that text is a numeral out of range whose low bits are a port, or has a zero character. -/
theorem splitsSoundly_iff (str : List UInt8) : SplitsSoundly str ↔ ¬ Misread str := by
  constructor
  · exact fun h hmis ↦ not_splitsSoundly_of_misread hmis h
  · intro h
    refine ⟨isSome_splitHostPort str, fun {portOut port host} hsplit hne ↦ ?_,
      fun {portOut port host} hsplit ↦ ?_, fun {portOut port host} hsplit hun hcount ↦ ?_⟩
    · rcases splitHostPort_cases hsplit with ⟨rfl, -⟩ | ⟨colon, hsep, hhost, hend, hport⟩
      · exact absurd rfl hne
      obtain ⟨hval, hlow, hhigh⟩ := hport hne
      rcases denotes_of_strtol hend with hempty | ⟨n, hdenotes⟩
      · rw [hval, hempty] at hlow
        exact absurd hlow (by decide)
      rw [strtol_of_denotes hdenotes] at hval
      subst hval
      obtain ⟨hle, hlt, hmod, hmod'⟩ := (toInt32_saturate n).1 ⟨hlow, hhigh⟩
      have hright : n % 2 ^ 32 = n ∧ 0 ∉ str.drop (colon + 1) := by
        by_contra hwrong
        rw [Classical.not_and_iff_not_or_not, not_not] at hwrong
        exact h ⟨colon, n, hsep, hdenotes, hle, hlt, hmod, hmod', hwrong⟩
      rw [cStr_eq_self hright.2] at hdenotes
      refine ⟨colon, hsep, ?_, hlow, hhigh, hhost⟩
      rwa [toInt32_saturate_eq hle hlt hmod', hright.1]
    · rcases splitHostPort_cases hsplit with ⟨-, rfl⟩ | ⟨colon, hsep, hhost, -⟩
      · exact .inl rfl
      · exact .inr ⟨colon, hsep, hhost⟩
    · rcases splitHostPort_cases hsplit with ⟨rfl, rfl⟩ | ⟨colon, hsep, -⟩
      · exact ⟨rfl, inner_of_unbracketed hun⟩
      · exact absurd hsep (not_separates_of_unbracketed hun hcount colon)

/-- In `"a:4294967376"` the low 32 bits of the number are 80. -/
theorem not_splitsSoundly :
    splitHostPort (ascii "a:4294967376") 0 = some (80, ascii "a") ∧
      ¬ SplitsSoundly (ascii "a:4294967376") := by
  refine ⟨by decide +kernel, not_splitsSoundly_of_misread ?_⟩
  have honly : ∀ j : ℕ, (ascii "a:4294967376")[j]? = some 0x3a → j = 1 := by
    intro j hj
    have hall : ∀ j < 12, (ascii "a:4294967376")[j]? = some 0x3a → j = 1 := by decide +kernel
    exact hall j (List.getElem?_eq_some_iff.1 hj).1 hj
  refine ⟨1, 4294967376, ⟨by decide +kernel, fun j hj ↦ (honly j hj).le, .inr (.inr honly)⟩, ?_,
    by decide, by decide, by decide, by decide, .inl (by decide)⟩
  exact ⟨[], ascii "4294967376", List.forall_mem_nil _, by decide +kernel, by decide +kernel,
    .inl ⟨.inl (by decide +kernel), by decide +kernel⟩⟩

example : splitHostPort (ascii "[::ffff:127.0.0.1]:8333") (-1) =
    some (8333, ascii "::ffff:127.0.0.1") := by decide +kernel

end

end Bws
