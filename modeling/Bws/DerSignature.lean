import Bws.Interpreter
import Bws.Lib.Der

/-!
# The encoding of a signature

`IsDERSignature` accepts a signature with its hash type exactly if what is before the hash type is
the DER encoding of a pair of integers of 8 to 72 bytes.  Without a hash type, as the signature of
a block is checked, the limits on the length are still those of a signature that has one
(`isDERSignature_iff_der`).  The bytes that it reads are there (`readsDERSignature_eq`).
-/

namespace Bws

/-! ## The reads -/

/-- `if (bad) return error(..);`, for a condition that reads bytes of the signature: `none` is a
read outside of it. -/
def refuseIf (bad : Option Bool) (next : Option Bool) : Option Bool :=
  bad.bind fun bad ↦ if bad then some false else next

/-- `IsDERSignature` with every read of a byte in its place. -/
def readsDERSignature (vchSig : valtype) (haveHashType : Bool) : Option Bool :=
  refuseIf (some (vchSig.length < 9)) <|
  refuseIf (some (73 < vchSig.length)) <|
  refuseIf (vchSig[0]?.map (· ≠ 0x30)) <|
  refuseIf (vchSig[1]?.map fun b ↦ b.toNat ≠ vchSig.length - if haveHashType then 3 else 2) <|
  vchSig[3]?.bind fun lenR ↦
  let nLenR := lenR.toNat
  refuseIf (some (vchSig.length ≤ 5 + nLenR)) <|
  vchSig[5 + nLenR]?.bind fun lenS ↦
  let nLenS := lenS.toNat
  refuseIf (some (nLenR + nLenS + (if haveHashType then 7 else 6) ≠ vchSig.length)) <|
  -- `R[-2]`, `R[0]` and `R[1]` of the pointer `R = &vchSig[4]`
  refuseIf (vchSig[4 - 2]?.map (· ≠ 0x02)) <|
  refuseIf (some (nLenR = 0)) <|
  refuseIf (vchSig[4]?.map (0x80 ≤ ·)) <|
  refuseIf (if 1 < nLenR then
      vchSig[4]?.bind fun b ↦ if b = 0 then vchSig[4 + 1]?.map (· < 0x80) else some false
    else some false) <|
  -- and those of the pointer `S = &vchSig[6+nLenR]`
  refuseIf (vchSig[6 + nLenR - 2]?.map (· ≠ 0x02)) <|
  refuseIf (some (nLenS = 0)) <|
  refuseIf (vchSig[6 + nLenR]?.map (0x80 ≤ ·)) <|
  refuseIf (if 1 < nLenS then
      vchSig[6 + nLenR]?.bind fun b ↦
        if b = 0 then vchSig[6 + nLenR + 1]?.map (· < 0x80) else some false
    else some false) <|
  some true

section

variable {vchSig : valtype} {haveHashType : Bool}

theorem getElem?_eq_getD {l : List UInt8} {i : ℕ} (h : i < l.length) :
    l[i]? = some (l.getD i 0) := by
  rw [List.getD_eq_getElem?_getD, List.getElem?_eq_getElem h, Option.getD_some]

/-- The check comes to an end, and says whether `p` holds. -/
def Decides (x : Option Bool) (p : Prop) : Prop := ∃ b, x = some b ∧ (b = true ↔ p)

theorem decides_true : Decides (some true) True := ⟨true, rfl, by simp⟩

/-- What a check refuses is not looked at any further. -/
theorem Decides.refuseIf {bad next : Option Bool} {p q : Prop} (hbad : Decides bad (¬ p))
    (hnext : p → Decides next q) : Decides (Bws.refuseIf bad next) (p ∧ q) := by
  obtain ⟨b, rfl, hb⟩ := hbad
  rcases b with - | -
  · have hp : p := by simpa using hb
    obtain ⟨b', hb', hq⟩ := hnext hp
    exact ⟨b', hb', by simp [hp, hq]⟩
  · have hp : ¬ p := by simpa using hb
    exact ⟨false, rfl, by simp [hp]⟩

/-- The last check. -/
theorem Decides.refuseIf_last {bad : Option Bool} {p : Prop} (hbad : Decides bad (¬ p)) :
    Decides (Bws.refuseIf bad (some true)) p := by
  have h := hbad.refuseIf fun _ ↦ decides_true
  rwa [and_true] at h

theorem decides_some {p : Prop} [Decidable p] {q : Prop} (h : p ↔ q) :
    Decides (some (decide p)) q := ⟨_, rfl, by rw [decide_eq_true_iff, h]⟩

/-- A check of one byte. -/
theorem decides_byte {i : ℕ} (h : i < vchSig.length) {p : UInt8 → Prop} [DecidablePred p] {q : Prop}
    (hq : p (vchSig.getD i 0) ↔ q) : Decides (vchSig[i]?.map fun b ↦ decide (p b)) q := by
  rw [getElem?_eq_getD h, Option.map_some]
  exact decides_some hq

/-- The check for a needless zero reads the second byte only if there is one. -/
theorem decides_padded {i n : ℕ} (h : 1 < n → i + 1 < vchSig.length) :
    Decides (if 1 < n then
      vchSig[i]?.bind fun b ↦ if b = 0 then vchSig[i + 1]?.map (· < 0x80) else some false
      else some false)
      (¬ ¬ (1 < n ∧ vchSig.getD i 0 = 0 ∧ vchSig.getD (i + 1) 0 < 0x80)) := by
  rw [not_not]
  split
  · rename_i hn
    have hlt := h hn
    rw [getElem?_eq_getD (i := i) (by omega), Option.bind_some]
    split
    · rename_i hzero
      exact decides_byte hlt ⟨fun h ↦ ⟨hn, hzero, h⟩, fun h ↦ h.2.2⟩
    · rename_i hzero
      exact ⟨false, rfl, iff_of_false nofun fun h ↦ hzero h.2.1⟩
  · rename_i hn
    exact ⟨false, rfl, iff_of_false nofun fun h ↦ hn h.1⟩

/-- The check comes to an end. -/
theorem decides_readsDERSignature (vchSig : valtype) (haveHashType : Bool) :
    Decides (readsDERSignature vchSig haveHashType) (isDERSignature vchSig haveHashType) := by
  have hsix : 6 ≤ if haveHashType then 7 else 6 := by split <;> decide
  unfold readsDERSignature isDERSignature
  refine .refuseIf (decides_some not_le.symm) fun hmin ↦
    .refuseIf (decides_some not_le.symm) fun _ ↦
    .refuseIf (decides_byte (by omega) Iff.rfl) fun _ ↦
    .refuseIf (decides_byte (by omega) Iff.rfl) fun _ ↦ ?_
  rw [getElem?_eq_getD (i := 3) (by omega), Option.bind_some]
  refine .refuseIf (decides_some not_lt.symm) fun hplaced ↦ ?_
  rw [getElem?_eq_getD hplaced, Option.bind_some]
  refine .refuseIf (decides_some Iff.rfl) fun hsum ↦
    .refuseIf (decides_byte (by omega) Iff.rfl) fun _ ↦
    .refuseIf (decides_some not_not.symm) fun hR ↦
    .refuseIf (decides_byte (by omega) UInt8.not_lt.symm) fun _ ↦
    .refuseIf (decides_padded (i := 4) fun _ ↦ by omega) fun _ ↦
    .refuseIf (decides_byte (by omega) (by rw [show ∀ n, 6 + n - 2 = 4 + n from fun n ↦ by omega]))
      fun _ ↦
    .refuseIf (decides_some not_not.symm) fun hS ↦
    .refuseIf (decides_byte (by omega) UInt8.not_lt.symm) fun _ ↦
    .refuseIf_last (decides_padded fun _ ↦ by omega)

/-- **No byte outside of the signature is read.** -/
theorem readsDERSignature_eq (vchSig : valtype) (haveHashType : Bool) :
    readsDERSignature vchSig haveHashType = some (decide (isDERSignature vchSig haveHashType)) := by
  obtain ⟨b, hb, hiff⟩ := decides_readsDERSignature vchSig haveHashType
  rw [hb, Bool.eq_iff_iff.2 (hiff.trans (decide_eq_true_iff).symm)]

/-! ## The encoding -/

theorem isContent_of_getD {l : List UInt8} {f : ℕ → UInt8} (hf : ∀ i < l.length, f i = l.getD i 0) :
    Der.IsContent l ↔ l.length ≠ 0 ∧ f 0 < 0x80 ∧ ¬ (1 < l.length ∧ f 0 = 0 ∧ f 1 < 0x80) := by
  rw [Der.IsContent, ← List.length_pos_iff, Nat.pos_iff_ne_zero]
  refine and_congr_right fun hpos ↦ ?_
  rw [hf 0 (Nat.pos_of_ne_zero hpos)]
  refine and_congr_right fun _ ↦ not_congr (and_congr_right fun hlen ↦ ?_)
  rw [hf 1 hlen]

/-- What the function checks, for a signature that is laid out as it reads it. -/
theorem isDERSignature_layout {a₀ a₁ a₂ a₃ b₀ b₁ : UInt8} {R S tail : List UInt8}
    (hR : a₃.toNat = R.length) (htail : tail.length = if haveHashType then 1 else 0) :
    isDERSignature (a₀ :: a₁ :: a₂ :: a₃ :: (R ++ b₀ :: b₁ :: (S ++ tail))) haveHashType ↔
      (3 ≤ R.length + S.length + tail.length ∧ R.length + S.length + tail.length ≤ 67) ∧
        a₀ = 0x30 ∧ a₁.toNat = R.length + S.length + 4 ∧ a₂ = 0x02 ∧ b₀ = 0x02 ∧
        b₁.toNat = S.length ∧ Der.IsContent R ∧ Der.IsContent S := by
  have hgetR : ∀ i < R.length,
      (a₀ :: a₁ :: a₂ :: a₃ :: (R ++ b₀ :: b₁ :: (S ++ tail))).getD (4 + i) 0 = R.getD i 0 := by
    intro i hi
    rw [add_comm]
    exact List.getD_append _ _ _ _ hi
  have hget : ∀ i,
      (a₀ :: a₁ :: a₂ :: a₃ :: (R ++ b₀ :: b₁ :: (S ++ tail))).getD (4 + R.length + i) 0 =
      (b₀ :: b₁ :: (S ++ tail)).getD i 0 := by
    intro i
    rw [add_assoc, add_comm 4]
    refine (List.getD_append_right R _ 0 (R.length + i) (Nat.le_add_right _ _)).trans ?_
    rw [Nat.add_sub_cancel_left]
  have hgetS : ∀ i < S.length,
      (a₀ :: a₁ :: a₂ :: a₃ :: (R ++ b₀ :: b₁ :: (S ++ tail))).getD (6 + R.length + i) 0 =
        S.getD i 0 := by
    intro i hi
    rw [show 6 + R.length + i = 4 + R.length + (i + 2) by omega, hget]
    exact List.getD_append _ _ _ _ hi
  have hb₀ := hget 0
  have hb₁ := hget 1
  have hlen : (a₀ :: a₁ :: a₂ :: a₃ :: (R ++ b₀ :: b₁ :: (S ++ tail))).length =
      R.length + S.length + tail.length + 6 := by
    simp only [List.length_cons, List.length_append]
    omega
  rw [isContent_of_getD hgetR, isContent_of_getD hgetS]
  unfold isDERSignature
  generalize hsig : a₀ :: a₁ :: a₂ :: a₃ :: (R ++ b₀ :: b₁ :: (S ++ tail)) = vchSig at *
  have ha₀ : vchSig.getD 0 0 = a₀ := by rw [← hsig]; rfl
  have ha₁ : vchSig.getD 1 0 = a₁ := by rw [← hsig]; rfl
  have ha₂ : vchSig.getD 2 0 = a₂ := by rw [← hsig]; rfl
  have ha₃ : vchSig.getD 3 0 = a₃ := by rw [← hsig]; rfl
  have hb₀' : vchSig.getD (4 + R.length) 0 = b₀ := hb₀
  have hb₁' : vchSig.getD (5 + R.length) 0 = b₁ := by
    rw [show 5 + R.length = 4 + R.length + 1 by omega, hb₁]
    rfl
  have hthree : (if haveHashType then 3 else 2) = 2 + tail.length := by
    rw [htail]
    split <;> rfl
  have hseven : (if haveHashType then 7 else 6) = 6 + tail.length := by
    rw [htail]
    split <;> rfl
  simp only [ha₀, ha₁, ha₂, ha₃, hR, hb₀', hb₁', hlen, hthree, hseven]
  constructor
  · rintro ⟨hmin, hmax, h₀, h₁, -, hsum, h₂, hR₀, hR₁, hR₂, hS, hS₀, hS₁, hS₂⟩
    have hlenS : b₁.toNat = S.length := by omega
    rw [hlenS] at hS₀ hS₂
    exact ⟨⟨by omega, by omega⟩, h₀, by omega, h₂, hS, hlenS, ⟨hR₀, hR₁, hR₂⟩, hS₀, hS₁, hS₂⟩
  · rintro ⟨⟨hmin, hmax⟩, h₀, h₁, h₂, hS, hlenS, ⟨hR₀, hR₁, hR₂⟩, hS₀, hS₁, hS₂⟩
    rw [hlenS]
    exact ⟨by omega, by omega, h₀, by omega, by omega, by omega, h₂, hR₀, hR₁, hR₂, hS, hS₀, hS₁,
      hS₂⟩

/-- The part of a signature before its hash type. -/
def derPart (vchSig : valtype) (haveHashType : Bool) : valtype :=
  if haveHashType then vchSig.dropLast else vchSig

/-- The strict encoding of a pair of integers. -/
def IsStrictDER (body : valtype) : Prop := ∃ r s, body = Der.pair r s

theorem derPart_append {body tail : List UInt8}
    (htail : tail.length = if haveHashType then 1 else 0) :
    derPart (body ++ tail) haveHashType = body := by
  cases haveHashType with
  | false =>
    rw [List.length_eq_zero_iff.1 htail, List.append_nil]
    rfl
  | true =>
    obtain ⟨b, rfl⟩ := List.length_eq_one_iff.1 htail
    exact List.dropLast_concat

/-- A signature is the part before its hash type, and the hash type. -/
theorem exists_tail (haveHashType : Bool) (h : vchSig ≠ []) :
    ∃ tail, vchSig = derPart vchSig haveHashType ++ tail ∧
      tail.length = if haveHashType then 1 else 0 := by
  cases haveHashType with
  | false => exact ⟨[], (List.append_nil _).symm, rfl⟩
  | true => exact ⟨[vchSig.getLast h], (List.dropLast_append_getLast h).symm, rfl⟩

/-- A signature that is accepted is laid out as the function reads it. -/
theorem exists_layout (h : isDERSignature vchSig haveHashType) :
    ∃ (a₀ a₁ a₂ a₃ b₀ b₁ : UInt8) (R S tail : List UInt8),
      vchSig = a₀ :: a₁ :: a₂ :: a₃ :: (R ++ b₀ :: b₁ :: (S ++ tail)) ∧ a₃.toNat = R.length ∧
        tail.length = if haveHashType then 1 else 0 := by
  obtain ⟨hmin, -, -, -, hplaced, hsum, -⟩ := h
  rcases vchSig with - | ⟨a₀, - | ⟨a₁, - | ⟨a₂, - | ⟨a₃, rest⟩⟩⟩⟩
  iterate 4 exact absurd hmin (by simp)
  have ha₃ : (a₀ :: a₁ :: a₂ :: a₃ :: rest).getD 3 0 = a₃ := rfl
  rw [ha₃] at hplaced hsum
  simp only [List.length_cons] at hplaced hsum
  have hlen : (rest.drop a₃.toNat).length = rest.length - a₃.toNat := List.length_drop
  rcases hrest : rest.drop a₃.toNat with - | ⟨b₀, - | ⟨b₁, rest'⟩⟩
  · rw [hrest, List.length_nil] at hlen
    omega
  · rw [hrest, List.length_singleton] at hlen
    omega
  have hsplit : rest = rest.take a₃.toNat ++ b₀ :: b₁ :: rest' := by
    rw [← hrest, List.take_append_drop]
  have hb₁ : (a₀ :: a₁ :: a₂ :: a₃ :: rest).getD (5 + a₃.toNat) 0 = b₁ := by
    have hone : (rest.drop a₃.toNat).getD 1 0 = b₁ := by rw [hrest]; rfl
    rw [← hone, List.getD_eq_getElem?_getD, List.getD_eq_getElem?_getD, List.getElem?_drop,
      show 5 + a₃.toNat = a₃.toNat + 1 + 1 + 1 + 1 + 1 by omega]
    rfl
  rw [hb₁] at hsum
  rw [hrest, List.length_cons, List.length_cons] at hlen
  refine ⟨a₀, a₁, a₂, a₃, b₀, b₁, rest.take a₃.toNat, rest'.take b₁.toNat, rest'.drop b₁.toNat, ?_,
    ?_, ?_⟩
  · rw [List.take_append_drop, ← hsplit]
  · rw [List.length_take]
    omega
  · rw [List.length_drop]
    revert hsum
    split <;> omega

/-- **What `IsDERSignature` accepts**: the encoding of a pair of integers, of 9 to 73 bytes with
the hash type, or without one. -/
theorem isDERSignature_iff : isDERSignature vchSig haveHashType ↔
    IsStrictDER (derPart vchSig haveHashType) ∧ 9 ≤ vchSig.length ∧ vchSig.length ≤ 73 := by
  have hbyte : ∀ {b : UInt8} {n : ℕ}, b.toNat = n → b = UInt8.ofNat n := by
    rintro b _ rfl
    exact UInt8.ofNat_toNat.symm
  constructor
  · intro h
    obtain ⟨a₀, a₁, a₂, a₃, b₀, b₁, R, S, tail, rfl, hR, htail⟩ := exists_layout h
    obtain ⟨⟨hmin, hmax⟩, rfl, h₁, rfl, rfl, hS, hcR, hcS⟩ := (isDERSignature_layout hR htail).1 h
    have hbody : (0x30 :: a₁ :: 0x02 :: a₃ :: (R ++ 0x02 :: b₁ :: (S ++ tail)) : List UInt8) =
        (0x30 :: a₁ :: 0x02 :: a₃ :: (R ++ 0x02 :: b₁ :: S)) ++ tail := by simp
    have hlen : ((0x30 :: a₁ :: 0x02 :: a₃ :: (R ++ 0x02 :: b₁ :: S)) ++ tail : List UInt8).length =
        R.length + S.length + tail.length + 6 := by
      simp only [List.length_append, List.length_cons]
      omega
    rw [hbody, derPart_append htail, hlen]
    refine ⟨(Der.pair_iff ?_).2 ⟨R, S, hcR, hcS, ?_⟩, by omega, by omega⟩
    · simp only [List.length_append, List.length_cons] at hlen ⊢
      omega
    · rw [hbyte h₁, hbyte hR, hbyte hS]
  · rintro ⟨hder, hmin, hmax⟩
    have hne : vchSig ≠ [] := by
      rintro rfl
      exact absurd hmin (by decide)
    obtain ⟨tail, hsplit, htail⟩ := exists_tail haveHashType hne
    have hlen := congrArg List.length hsplit
    rw [List.length_append] at hlen
    obtain ⟨R, S, hcR, hcS, hbody⟩ := (Der.pair_iff (by omega)).1 hder
    rw [hbody] at hsplit hlen
    simp only [List.length_append, List.length_cons] at hlen
    have hlayout : vchSig = 0x30 :: UInt8.ofNat (R.length + S.length + 4) :: 0x02 ::
        UInt8.ofNat R.length :: (R ++ 0x02 :: UInt8.ofNat S.length :: (S ++ tail)) := by
      rw [hsplit]
      simp
    have hnat : ∀ {n : ℕ}, n < 256 → (UInt8.ofNat n).toNat = n := UInt8.toNat_ofNat_of_lt'
    rw [hlayout, isDERSignature_layout (hnat (by omega)) htail]
    exact ⟨⟨by omega, by omega⟩, rfl, hnat (by omega), rfl, rfl, hnat (by omega), hcR, hcS⟩

end

/-- What the function is said to do, for one signature. -/
def AcceptsDER (vchSig : valtype) (haveHashType : Bool) : Prop :=
  isDERSignature vchSig haveHashType ↔ IsStrictDER (derPart vchSig haveHashType) ∧
    8 ≤ (derPart vchSig haveHashType).length ∧ (derPart vchSig haveHashType).length ≤ 72

/-- **The encoding of a signature.**  The function reads no byte outside of the signature, and
accepts the encodings of 8 to 72 bytes: unless it is asked about a signature without a hash type,
and that is an encoding of 8 or 73 bytes. -/
theorem isDERSignature_iff_der (vchSig : valtype) (haveHashType : Bool) :
    readsDERSignature vchSig haveHashType = some (decide (isDERSignature vchSig haveHashType)) ∧
      (AcceptsDER vchSig haveHashType ↔ haveHashType = true ∨ ¬ IsStrictDER vchSig ∨
        vchSig.length ≠ 8 ∧ vchSig.length ≠ 73) := by
  refine ⟨readsDERSignature_eq vchSig haveHashType, ?_⟩
  rw [AcceptsDER, isDERSignature_iff]
  cases haveHashType with
  | true =>
    have hlen : (derPart vchSig true).length = vchSig.length - 1 := List.length_dropLast
    rw [hlen]
    refine iff_of_true (and_congr_right fun hder ↦ ?_) (.inl rfl)
    have hpos : derPart vchSig true ≠ [] := by
      rintro hnil
      obtain ⟨r, s, hpair⟩ := hder
      rw [hnil] at hpair
      exact List.cons_ne_nil _ _ hpair.symm
    have hlt := List.length_pos_iff.2 hpos
    omega
  | false =>
    rw [derPart, if_neg Bool.false_ne_true]
    by_cases hder : IsStrictDER vchSig
    · simp only [hder, true_and, not_true_eq_false, false_or, Bool.false_eq_true]
      omega
    · simp [hder]

/-- The shortest encoding, of two zeros, is refused where it has no hash type. -/
theorem not_acceptsDER : ¬ AcceptsDER [0x30, 6, 2, 1, 0, 2, 1, 0] false := by
  intro h
  have hder : IsStrictDER (derPart [0x30, 6, 2, 1, 0, 2, 1, 0] false) :=
    ⟨0, 0, by decide +kernel⟩
  have haccepts := h.2 ⟨hder, by decide, by decide⟩
  exact absurd haccepts (by decide)

end Bws
