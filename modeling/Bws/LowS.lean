import Bws.DerSignature
import Bws.ExtKey
import Bws.BigNum

/-!
# The low half of `s`

`ProcessBlock` has the signature of a block rewritten where `s` is not in the low half of the
numbers below the order: `EnsureLowS` takes the order less `s`.  That is right as long as `s` is
below the order.  From there to twice the order the difference is negative, and its magnitude is
written, which some key may accept; and a signature of eight bytes, which can come out, is not one
that `IsDERSignature` accepts (`rewritesSoundly_iff`).
-/

namespace Bws

/-! ## The source -/

/-- The last loop of `CompareBigEndian`. -/
def compareBytes : List UInt8 → List UInt8 → ℤ
  | b₁ :: c₁, b₂ :: c₂ => if b₂ < b₁ then 1 else if b₁ < b₂ then -1 else compareBytes c₁ c₂
  | _, _ => 0

/-- `CompareBigEndian` -/
def compareBigEndian (c₁ c₂ : List UInt8) : ℤ :=
  if c₂.length < c₁.length then
    match c₁ with
    | [] => 0
    | b :: c₁ => if b ≠ 0 then 1 else compareBigEndian c₁ c₂
  else if c₁.length < c₂.length then
    match c₂ with
    | [] => 0
    | b :: c₂ => if b ≠ 0 then -1 else compareBigEndian c₁ c₂
  else compareBytes c₁ c₂
termination_by c₁.length + c₂.length

def vchMaxModOrder : List UInt8 :=
  [0xFF, 0xFF, 0xFF, 0xFF, 0xFF, 0xFF, 0xFF, 0xFF, 0xFF, 0xFF, 0xFF, 0xFF, 0xFF, 0xFF, 0xFF, 0xFE,
    0xBA, 0xAE, 0xDC, 0xE6, 0xAF, 0x48, 0xA0, 0x3B, 0xBF, 0xD2, 0x5E, 0x8C, 0xD0, 0x36, 0x41, 0x40]

def vchMaxModHalfOrder : List UInt8 :=
  [0x7F, 0xFF, 0xFF, 0xFF, 0xFF, 0xFF, 0xFF, 0xFF, 0xFF, 0xFF, 0xFF, 0xFF, 0xFF, 0xFF, 0xFF, 0xFF,
    0x5D, 0x57, 0x6E, 0x73, 0x57, 0xA4, 0x50, 0x1D, 0xDF, 0xE9, 0x2F, 0x46, 0x68, 0x1B, 0x20, 0xA0]

/-- `CKey::CheckSignatureElement` -/
def checkSignatureElement (vch : List UInt8) (half : Bool) : Bool :=
  0 < compareBigEndian vch [] ∧
    compareBigEndian vch (if half then vchMaxModHalfOrder else vchMaxModOrder) ≤ 0

/-- The bytes of `S` that `IsLowDERSignature` looks at. -/
def bytesOfS (vchSig : valtype) : List UInt8 :=
  let nLenR := (vchSig.getD 3 0).toNat
  (vchSig.drop (6 + nLenR)).take (vchSig.getD (5 + nLenR) 0).toNat

/-- What OpenSSL makes of a signature: how it is read and written, and the keys that may accept its
numbers for the hash of the block. -/
structure SignatureLib where
  /-- `d2i_ECDSA_SIG` -/
  d2i : List UInt8 → Option (ℤ × ℤ)
  /-- `i2d_ECDSA_SIG` -/
  i2d : ℤ × ℤ → List UInt8
  Key : Type
  /-- `ECDSA_do_verify` -/
  accepts : Key → ℤ → ℤ → Bool

section

variable (L : SignatureLib)

/-- `EnsureLowS`: the signature, or nothing for `false`; `none` is a write behind the end of the
signature, whose memory is written to. -/
def ensureLowS (vchSig : List UInt8) : Option (Option (List UInt8)) :=
  if vchSig = [] then some none
  else
    match L.d2i vchSig with
    | none => some none
    | some (r, s) =>
      let s := if (maxModHalfOrder : ℤ) < s then bnOrder - s else s
      if (L.i2d (r, s)).length ≤ vchSig.length then some (some (L.i2d (r, s))) else none

/-- `CPubKey::Verify` -/
def verifiesSig (key : L.Key) (vchSig : List UInt8) : Bool :=
  match L.d2i vchSig with
  | none => false
  | some (r, s) => L.accepts key r s

/-- The numbers are read exactly and written by their magnitudes; a verifier accepts `s` only below
the order, and where it accepts the order less `s`. -/
structure SignatureLib.Lawful : Prop where
  d2i_pair : ∀ {r s : ℕ}, (Der.pair r s).length < 130 →
    L.d2i (Der.pair r s) = some ((r : ℤ), (s : ℤ))
  i2d_eq : ∀ r s : ℤ, L.i2d (r, s) = Der.pair r.natAbs s.natAbs
  range_of_accepts : ∀ {key r s}, L.accepts key r s = true → 1 ≤ s ∧ s < bnOrder
  accepts_sub : ∀ key r {s : ℤ}, 1 ≤ s → s < bnOrder →
    L.accepts key r (bnOrder - s) = L.accepts key r s

/-- A signature is rewritten without a change of its meaning. -/
structure RewritesSoundly (vchSig : List UInt8) : Prop where
  succeeds : ∃ vchSig', ensureLowS L vchSig = some (some vchSig')
  length_le {vchSig'} : ensureLowS L vchSig = some (some vchSig') → vchSig'.length ≤ vchSig.length
  verifies_iff {vchSig'} : ensureLowS L vchSig = some (some vchSig') →
    ∀ key, verifiesSig L key vchSig' = true ↔ verifiesSig L key vchSig = true
  isLow {vchSig'} : ensureLowS L vchSig = some (some vchSig') →
    (∃ key, verifiesSig L key vchSig' = true) → isLowDERSignature vchSig' false

/-- Rewriting goes wrong for the numbers of a signature: some key accepts the difference of `s` and
the order, which is negative; or some key accepts the signature, and one byte is enough for each of
the new numbers. -/
def Miswritten (r s : ℕ) : Prop :=
  (bnOrder < s ∧ ∃ key, L.accepts key r (s - bnOrder : ℤ) = true) ∨
    r < 128 ∧ s < bnOrder ∧ bnOrder < s + 128 ∧ ∃ key, L.accepts key r s = true

end

/-! ## Comparing bytes -/

theorem compareBytes_pos {c₁ c₂ : List UInt8} (hlen : c₁.length = c₂.length) :
    0 < compareBytes c₁ c₂ ↔ bin2bn c₂ < bin2bn c₁ := by
  induction c₁ generalizing c₂ with
  | nil =>
    obtain rfl := List.length_eq_zero_iff.1 hlen.symm
    exact iff_of_false (by simp [compareBytes]) (lt_irrefl _)
  | cons b₁ c₁ ih =>
    rcases c₂ with - | ⟨b₂, c₂⟩
    · cases hlen
    have hlen' : c₁.length = c₂.length := Nat.succ.inj hlen
    have hlt₁ := bin2bn_lt c₁
    have hlt₂ := bin2bn_lt c₂
    rw [compareBytes, bin2bn_cons, bin2bn_cons, hlen']
    rw [hlen'] at hlt₁
    split_ifs with hgt hlt
    · have hmul : (b₂.toNat + 1) * 256 ^ c₂.length ≤ b₁.toNat * 256 ^ c₂.length :=
        Nat.mul_le_mul_right _ (UInt8.lt_iff_toNat_lt.1 hgt)
      rw [Nat.add_mul] at hmul
      exact iff_of_true (by decide) (by omega)
    · have hmul : (b₁.toNat + 1) * 256 ^ c₂.length ≤ b₂.toNat * 256 ^ c₂.length :=
        Nat.mul_le_mul_right _ (UInt8.lt_iff_toNat_lt.1 hlt)
      rw [Nat.add_mul] at hmul
      exact iff_of_false (by decide) (by omega)
    · have heq : b₁.toNat = b₂.toNat := by
        rw [UInt8.lt_iff_toNat_lt] at hgt hlt
        omega
      rw [ih hlen', heq, Nat.add_lt_add_iff_left]

/-- A byte other than zero in front outweighs a string that is no longer than the rest. -/
theorem bin2bn_lt_cons {b : UInt8} (hb : b ≠ 0) {c c' : List UInt8} (hlen : c'.length ≤ c.length) :
    bin2bn c' < bin2bn (b :: c) := by
  have hpos : 0 < b.toNat := Nat.pos_of_ne_zero fun h ↦ hb (UInt8.toNat_inj.1 h)
  calc bin2bn c' < 256 ^ c'.length := bin2bn_lt c'
    _ ≤ 256 ^ c.length := Nat.pow_le_pow_right (by norm_num) hlen
    _ ≤ b.toNat * 256 ^ c.length := Nat.le_mul_of_pos_left _ hpos
    _ ≤ bin2bn (b :: c) := by rw [bin2bn_cons]; exact Nat.le_add_right _ _

theorem bin2bn_zero_cons (c : List UInt8) : bin2bn (0 :: c) = bin2bn c := by
  rw [bin2bn_cons, UInt8.toNat_zero, Nat.zero_mul, Nat.zero_add]

/-- **The comparison of bytes is that of the numbers.** -/
theorem compareBigEndian_pos (c₁ c₂ : List UInt8) :
    0 < compareBigEndian c₁ c₂ ↔ bin2bn c₂ < bin2bn c₁ := by
  fun_induction compareBigEndian c₁ c₂ with
  | case1 c₂ hlen => exact absurd hlen (Nat.not_lt_zero _)
  | case2 c₂ b c₁ hb hlen =>
    exact iff_of_true one_pos (bin2bn_lt_cons hb (Nat.le_of_lt_succ hlen))
  | case3 c₂ b c₁ hb hlen ih =>
    rw [ih, not_not.1 hb, bin2bn_zero_cons]
  | case4 c₁ hlen hshort => exact absurd hshort (Nat.not_lt_zero _)
  | case5 c₁ b c₂ hb hlen hshort =>
    exact iff_of_false (by decide) (bin2bn_lt_cons hb (Nat.le_of_lt_succ hshort)).not_gt
  | case6 c₁ b c₂ hb hlen hshort ih =>
    rw [ih, not_not.1 hb, bin2bn_zero_cons]
  | case7 c₁ c₂ hlen hshort => exact compareBytes_pos (by omega)

theorem bin2bn_vchMaxModHalfOrder : bin2bn vchMaxModHalfOrder = maxModHalfOrder := by
  decide +kernel

theorem bnOrder_eq : bnOrder = 2 * maxModHalfOrder + 1 := by decide +kernel

/-- **The check of an element** is that of its number. -/
theorem checkSignatureElement_iff (vch : List UInt8) :
    checkSignatureElement vch true = true ↔ 0 < bin2bn vch ∧ bin2bn vch ≤ maxModHalfOrder := by
  rw [checkSignatureElement, decide_eq_true_iff, compareBigEndian_pos, if_pos rfl, ← not_lt,
    compareBigEndian_pos, not_lt, bin2bn_vchMaxModHalfOrder]
  rfl

/-- `IsLowDERSignature` as it calls `CheckSignatureElement`. -/
theorem isLowDERSignature_iff_element (vchSig : valtype) (haveHashType : Bool) :
    isLowDERSignature vchSig haveHashType ↔
      isDERSignature vchSig haveHashType ∧ checkSignatureElement (bytesOfS vchSig) true = true := by
  rw [checkSignatureElement_iff, isLowDERSignature, bytesOfS, bin2bn, ← leNat_eq_ofLE]

/-! ## The numbers of a signature -/

section

variable {r s : ℕ}

theorem bytesOfS_layout {a₀ a₁ a₂ a₃ b₀ b₁ : UInt8} {R S : List UInt8} (hR : a₃.toNat = R.length)
    (hS : b₁.toNat = S.length) : bytesOfS (a₀ :: a₁ :: a₂ :: a₃ :: (R ++ b₀ :: b₁ :: S)) = S := by
  have hget : (a₀ :: a₁ :: a₂ :: a₃ :: (R ++ b₀ :: b₁ :: S)).getD (5 + R.length) 0 = b₁ := by
    rw [show 5 + R.length = R.length + 1 + 1 + 1 + 1 + 1 by omega]
    exact (List.getD_append_right R _ 0 (R.length + 1) (Nat.le_succ _)).trans
      (by rw [Nat.add_sub_cancel_left]; rfl)
  have hdrop : (a₀ :: a₁ :: a₂ :: a₃ :: (R ++ b₀ :: b₁ :: S)).drop (6 + R.length) = S := by
    rw [show 6 + R.length = R.length + 2 + 1 + 1 + 1 + 1 by omega]
    simp only [List.drop_succ_cons]
    rw [← List.drop_drop, List.drop_left]
    rfl
  have hlenR : (a₀ :: a₁ :: a₂ :: a₃ :: (R ++ b₀ :: b₁ :: S)).getD 3 0 = a₃ := rfl
  rw [bytesOfS, hlenR, hR, hget, hdrop, hS, List.take_length]

/-- The bytes that are looked at are those of the second number. -/
theorem bytesOfS_pair (h : (Der.content r).length + (Der.content s).length + 4 < 128) :
    bytesOfS (Der.pair r s) = Der.content s := by
  have hnat : ∀ {n : ℕ}, n < 256 → (UInt8.ofNat n).toNat = n := UInt8.toNat_ofNat_of_lt'
  rw [Der.pair_of_lt h]
  exact bytesOfS_layout (hnat (by omega)) (hnat (by omega))

theorem isLow_pair (h : (Der.content r).length + (Der.content s).length + 4 < 128) :
    isLowDERSignature (Der.pair r s) false ↔
      isDERSignature (Der.pair r s) false ∧ 0 < s ∧ s ≤ maxModHalfOrder := by
  rw [isLowDERSignature_iff_element, checkSignatureElement_iff, bytesOfS_pair h, bin2bn,
    Der.value_content]

theorem length_pair (h : (Der.content r).length + (Der.content s).length + 4 < 128) :
    (Der.pair r s).length = (Der.content r).length + (Der.content s).length + 6 := by
  rw [Der.pair_of_lt h]
  simp only [List.length_cons, List.length_append]
  omega

theorem length_pair_lt (h : (Der.content r).length + (Der.content s).length + 4 < 128) :
    (Der.pair r s).length < 130 := by
  rw [length_pair h]
  omega

theorem isDER_pair (h : (Der.content r).length + (Der.content s).length + 4 < 128) :
    isDERSignature (Der.pair r s) false ↔ 9 ≤ (Der.content r).length + (Der.content s).length + 6 ∧
      (Der.content r).length + (Der.content s).length + 6 ≤ 73 := by
  rw [isDERSignature_iff, length_pair h]
  exact and_iff_right ⟨r, s, rfl⟩

/-- A signature that is accepted is a short pair of numbers. -/
theorem exists_pair {vchSig : valtype} (h : isDERSignature vchSig false) : ∃ r s,
    vchSig = Der.pair r s ∧ (Der.content r).length + (Der.content s).length + 4 < 128 := by
  obtain ⟨hder, -, hmax⟩ := isDERSignature_iff.1 h
  obtain ⟨R, S, hR, hS, hsig⟩ := (Der.pair_iff (by omega : vchSig.length < 130)).1 hder
  obtain ⟨r, rfl⟩ := Der.isContent_iff.1 hR
  obtain ⟨s, rfl⟩ := Der.isContent_iff.1 hS
  have hlen := congrArg List.length hsig
  simp only [List.length_cons, List.length_append] at hlen
  have hshort : (Der.content r).length + (Der.content s).length + 4 < 128 := by omega
  exact ⟨r, s, hsig.trans (Der.pair_of_lt hshort).symm, hshort⟩

end

/-! ## Rewriting -/

/-- The number that is written for `s`. -/
def lowS (s : ℕ) : ℕ := if maxModHalfOrder < s then (bnOrder - s : ℤ).natAbs else s

theorem lowS_of_lt {s : ℕ} (h : maxModHalfOrder < s) (hlt : s < bnOrder) : lowS s = bnOrder - s := by
  rw [lowS, if_pos h]
  omega

theorem lowS_of_le {s : ℕ} (h : bnOrder ≤ s) : lowS s = s - bnOrder := by
  have horder := bnOrder_eq
  rw [lowS, if_pos (by omega)]
  omega

theorem lowS_le (s : ℕ) : lowS s ≤ s := by
  have horder := bnOrder_eq
  rw [lowS]
  split_ifs <;> omega

section

variable {L : SignatureLib} {r s : ℕ}

/-- `EnsureLowS` succeeds and writes no more bytes than there were. -/
theorem ensureLowS_pair (hL : L.Lawful)
    (h : (Der.content r).length + (Der.content s).length + 4 < 128) :
    ensureLowS L (Der.pair r s) = some (some (Der.pair r (lowS s))) ∧
      (Der.pair r (lowS s)).length ≤ (Der.pair r s).length := by
  have hcontent := Der.length_content_le (lowS_le s)
  have hlen : (Der.pair r (lowS s)).length ≤ (Der.pair r s).length := by
    rw [length_pair h, length_pair (by omega)]
    omega
  have hne : Der.pair r s ≠ [] := by
    rw [Der.pair_of_lt h]
    exact List.cons_ne_nil _ _
  have hwritten : L.i2d (r, if (maxModHalfOrder : ℤ) < s then (bnOrder : ℤ) - s else s) =
      Der.pair r (lowS s) := by
    rw [hL.i2d_eq, Int.natAbs_natCast, lowS]
    congr 1
    split_ifs <;> omega
  refine ⟨?_, hlen⟩
  rw [ensureLowS, if_neg hne, hL.d2i_pair (length_pair_lt h)]
  dsimp only
  rw [hwritten, if_pos hlen]

theorem verifiesSig_pair (hL : L.Lawful)
    (h : (Der.content r).length + (Der.content s).length + 4 < 128) (key : L.Key) :
    verifiesSig L key (Der.pair r s) = L.accepts key r s := by
  rw [verifiesSig, hL.d2i_pair (length_pair_lt h)]

theorem accepts_eq_false (hL : L.Lawful) (key : L.Key) (h : s = 0 ∨ bnOrder ≤ s) :
    L.accepts key r s = false := by
  rw [← Bool.not_eq_true]
  intro haccepts
  obtain ⟨hle, hlt⟩ := hL.range_of_accepts haccepts
  omega

/-- What is left to ask of the new numbers. -/
theorem rewritesSoundly_pair (hL : L.Lawful)
    (h : (Der.content r).length + (Der.content s).length + 4 < 128) :
    RewritesSoundly L (Der.pair r s) ↔
      (∀ key, L.accepts key r (lowS s) = true ↔ L.accepts key r s = true) ∧
        ((∃ key, L.accepts key r (lowS s) = true) →
          isLowDERSignature (Der.pair r (lowS s)) false) := by
  obtain ⟨hensure, hlen⟩ := ensureLowS_pair hL h
  have hinj : ∀ {vchSig'}, ensureLowS L (Der.pair r s) = some (some vchSig') →
      Der.pair r (lowS s) = vchSig' := fun h' ↦
    Option.some.inj (Option.some.inj (hensure.symm.trans h'))
  have hold := verifiesSig_pair hL h
  have hnew := verifiesSig_pair hL (r := r) (s := lowS s)
    ((Nat.add_le_add_right (Nat.add_le_add_left (Der.length_content_le (lowS_le s)) _) 4).trans_lt h)
  constructor
  · rintro ⟨-, -, hverifies, hlow⟩
    have hverifies' := hverifies hensure
    have hlow' := hlow hensure
    simp only [hold, hnew] at hverifies' hlow'
    exact ⟨hverifies', hlow'⟩
  · rintro ⟨hverifies, hlow⟩
    refine ⟨⟨_, hensure⟩, fun h' ↦ hinj h' ▸ hlen, fun h' key ↦ ?_, fun h' hkey ↦ ?_⟩
    · rw [← hinj h', hold, hnew]
      exact hverifies key
    · rw [← hinj h'] at hkey ⊢
      simp only [hnew] at hkey
      exact hlow hkey

theorem pair_inj (hL : L.Lawful) (hlen : (Der.pair r s).length < 130) {r' s' : ℕ}
    (h : Der.pair r s = Der.pair r' s') : r = r' ∧ s = s' := by
  have hread := hL.d2i_pair hlen
  rw [h] at hlen hread
  rw [hL.d2i_pair hlen] at hread
  simpa [eq_comm] using hread

/-- Below the order the new numbers mean the same, and are low where the encoding is long enough. -/
theorem sound_of_lt (hL : L.Lawful) (hder : isDERSignature (Der.pair r s) false)
    (hshort : (Der.content r).length + (Der.content s).length + 4 < 128)
    (hhigh : maxModHalfOrder < s) (hlt : s < bnOrder) :
    RewritesSoundly L (Der.pair r s) ↔ ¬ Miswritten L r s := by
  have horder := bnOrder_eq
  have hcast : ((bnOrder - s : ℕ) : ℤ) = bnOrder - s := by omega
  have haccepts : ∀ key, L.accepts key r ((bnOrder - s : ℕ) : ℤ) = L.accepts key r s := by
    intro key
    rw [hcast]
    exact hL.accepts_sub key r (by omega) (by omega)
  -- the encoding is long enough unless both numbers have one byte
  have hle := Der.length_content_le (show bnOrder - s ≤ s by omega)
  have hposR := Der.length_content_pos r
  have hposS := Der.length_content_pos (bnOrder - s)
  have hone : ∀ n, (Der.content n).length ≤ 1 ↔ n < 128 := fun n ↦
    Der.length_content_le_iff one_pos
  have honeR := hone r
  have honeS := hone (bnOrder - s)
  have hlow : isLowDERSignature (Der.pair r (bnOrder - s)) false ↔
      ¬ (r < 128 ∧ bnOrder < s + 128) := by
    have hmax := ((isDER_pair hshort).1 hder).2
    rw [isLow_pair (by omega), isDER_pair (by omega)]
    omega
  rw [rewritesSoundly_pair hL hshort, lowS_of_lt hhigh hlt, hlow]
  simp only [haccepts, Miswritten, hlt.not_gt, hlt, false_and, false_or, true_and, iff_self,
    implies_true]
  constructor
  · rintro h ⟨hr, hs, haccepted⟩
    exact h haccepted ⟨hr, hs⟩
  · rintro h haccepted ⟨hr, hs⟩
    exact h ⟨hr, hs, haccepted⟩

/-- From the order on, the signature was not accepted. -/
theorem sound_of_le (hL : L.Lawful)
    (hshort : (Der.content r).length + (Der.content s).length + 4 < 128) (hle : bnOrder ≤ s) :
    RewritesSoundly L (Der.pair r s) ↔ ¬ Miswritten L r s := by
  have hcast : ((s - bnOrder : ℕ) : ℤ) = s - bnOrder := by omega
  have hnot : ∀ key, L.accepts key r s = false := fun key ↦ accepts_eq_false hL key (.inr hle)
  have hpos : ∀ key, L.accepts key r (s - bnOrder : ℤ) = true → bnOrder < s := by
    intro key haccepts
    have hrange := (hL.range_of_accepts haccepts).1
    omega
  rw [rewritesSoundly_pair hL hshort, lowS_of_le hle, hcast]
  simp only [hnot, Miswritten, hle.not_gt, Bool.false_eq_true, iff_false, false_and, and_false,
    or_false, not_and, not_exists]
  constructor
  · rintro ⟨hverifies, -⟩ -
    exact hverifies
  · intro hmis
    have hverifies : ∀ key, ¬ L.accepts key r (s - bnOrder : ℤ) = true := fun key haccepts ↦
      hmis (hpos key haccepts) key haccepts
    exact ⟨hverifies, fun ⟨key, haccepts⟩ ↦ absurd haccepts (hverifies key)⟩

/-- **The rewriting of a signature** that is encoded well but not low is sound just where its numbers
are not miswritten. -/
theorem rewritesSoundly_iff (hL : L.Lawful) {vchSig : List UInt8}
    (hder : isDERSignature vchSig false) (hhigh : ¬ isLowDERSignature vchSig false) :
    RewritesSoundly L vchSig ↔ ¬ ∃ r s, vchSig = Der.pair r s ∧ Miswritten L r s := by
  obtain ⟨r, s, rfl, hshort⟩ := exists_pair hder
  have hunique : (∃ r' s', Der.pair r s = Der.pair r' s' ∧ Miswritten L r' s') ↔
      Miswritten L r s := by
    constructor
    · rintro ⟨r', s', hpair, hmis⟩
      obtain ⟨rfl, rfl⟩ := pair_inj hL (length_pair_lt hshort) hpair
      exact hmis
    · exact fun hmis ↦ ⟨r, s, rfl, hmis⟩
  rw [hunique]
  rcases Nat.eq_zero_or_pos s with rfl | hpos
  · -- nothing is rewritten, and nothing is accepted
    have hnot : ∀ key, L.accepts key r ((0 : ℕ) : ℤ) = false := fun key ↦
      accepts_eq_false hL key (.inl rfl)
    have hzero : lowS 0 = 0 := if_neg (Nat.not_lt_zero _)
    rw [rewritesSoundly_pair hL hshort, hzero]
    refine iff_of_true ⟨fun _ ↦ Iff.rfl, ?_⟩ ?_
    · rintro ⟨key, haccepts⟩
      exact absurd ((hnot key).symm.trans haccepts) Bool.false_ne_true
    · rintro (⟨hlt, -⟩ | ⟨-, -, -, key, haccepts⟩)
      · exact Nat.not_lt_zero _ hlt
      · exact Bool.false_ne_true ((hnot key).symm.trans haccepts)
  · have hhalf : maxModHalfOrder < s := by
      rw [isLow_pair hshort] at hhigh
      exact not_le.1 fun hle ↦ hhigh ⟨hder, hpos, hle⟩
    rcases lt_or_ge s bnOrder with hlt | hle
    · exact sound_of_lt hL hder hshort hhalf hlt
    · exact sound_of_le hL hshort hle

end

/-! ## A verifier -/

/-- The two numbers of a short pair. -/
def readPair : List UInt8 → Option (ℤ × ℤ)
  | _ :: _ :: _ :: lenR :: rest =>
    some (bin2bn (rest.take lenR.toNat), bin2bn (rest.drop (lenR.toNat + 2)))
  | _ => none

theorem readPair_pair {r s : ℕ} (hlen : (Der.pair r s).length < 130) :
    readPair (Der.pair r s) = some ((r : ℤ), (s : ℤ)) := by
  have hshort := Der.short_of_length_lt hlen
  have hR : (UInt8.ofNat (Der.content r).length).toNat = (Der.content r).length :=
    UInt8.toNat_ofNat_of_lt' (show _ < 256 by omega)
  have hvalue : ∀ n, bin2bn (Der.content n) = n := Der.value_content
  rw [Der.pair_of_lt hshort, readPair, hR, List.take_left, hvalue, ← List.drop_drop,
    List.drop_left, List.drop_succ_cons, List.drop_succ_cons, List.drop_zero, hvalue]

/-- One key, which accepts every `s` in the range. -/
def rangeLib : SignatureLib where
  d2i := readPair
  i2d := fun (r, s) ↦ Der.pair r.natAbs s.natAbs
  Key := Unit
  accepts _ _ s := 1 ≤ s ∧ s < bnOrder

theorem rangeLib_lawful : rangeLib.Lawful where
  d2i_pair := readPair_pair
  i2d_eq _ _ := rfl
  range_of_accepts h := of_decide_eq_true h
  accepts_sub key r s hle hlt := by
    refine decide_eq_decide.2 ⟨fun _ ↦ ⟨hle, hlt⟩, fun _ ↦ ⟨?_, ?_⟩⟩ <;> omega

/-- Numbers of nine and of 33 bytes. -/
theorem isDER_sample {s : ℕ} (hle : 2 ^ 255 ≤ s) (hlt : s < 2 ^ 256) :
    isDERSignature (Der.pair (2 ^ 64) s) false ∧ ¬ isLowDERSignature (Der.pair (2 ^ 64) s) false := by
  have hr : (Der.content (2 ^ 64)).length ≤ 9 :=
    (Der.length_content_le_iff (by norm_num)).2 (by norm_num)
  have hs : (Der.content s).length ≤ 33 :=
    (Der.length_content_le_iff (by norm_num)).2
      (hlt.trans (Nat.pow_lt_pow_right (by norm_num) (by norm_num)))
  have hs' : 32 < (Der.content s).length := by
    rw [← not_le, Der.length_content_le_iff (by norm_num)]
    exact not_lt.2 hle
  have hpos := Der.length_content_pos (2 ^ 64)
  refine ⟨(isDER_pair (by omega)).2 ⟨by omega, by omega⟩, fun h ↦ ?_⟩
  have hhigh := ((isLow_pair (by omega)).1 h).2.2
  rw [maxModHalfOrder] at hhigh
  omega

theorem rewritesSoundly_iff_sample :
    RewritesSoundly rangeLib (Der.pair (2 ^ 64) (bnOrder - 2)) := by
  obtain ⟨hder, hhigh⟩ := isDER_sample (s := bnOrder - 2) (by decide) (by decide)
  refine (rewritesSoundly_iff rangeLib_lawful hder hhigh).2 ?_
  rintro ⟨r, s, hpair, hmis⟩
  have hlen : (Der.pair (2 ^ 64) (bnOrder - 2)).length < 130 :=
    (isDERSignature_iff.1 hder).2.2.trans_lt (by norm_num)
  obtain ⟨rfl, rfl⟩ := pair_inj rangeLib_lawful hlen hpair
  rcases hmis with ⟨hlt, -⟩ | ⟨hlt, -⟩
  · exact absurd hlt (by decide)
  · exact absurd hlt (by decide)

/-- An `s` of five more than the order is accepted by nobody, but five is. -/
theorem not_rewritesSoundly :
    (isDERSignature (Der.pair (2 ^ 64) (bnOrder + 5)) false ∧
      ¬ isLowDERSignature (Der.pair (2 ^ 64) (bnOrder + 5)) false) ∧
    verifiesSig rangeLib () (Der.pair (2 ^ 64) (bnOrder + 5)) = false ∧
    ensureLowS rangeLib (Der.pair (2 ^ 64) (bnOrder + 5)) = some (some (Der.pair (2 ^ 64) 5)) ∧
    verifiesSig rangeLib () (Der.pair (2 ^ 64) 5) = true ∧
    ¬ RewritesSoundly rangeLib (Der.pair (2 ^ 64) (bnOrder + 5)) := by
  obtain ⟨hder, hhigh⟩ := isDER_sample (s := bnOrder + 5) (by decide) (by decide)
  have hlen : (Der.pair (2 ^ 64) (bnOrder + 5)).length < 130 :=
    (isDERSignature_iff.1 hder).2.2.trans_lt (by norm_num)
  have hshort := Der.short_of_length_lt hlen
  have hensure := (ensureLowS_pair rangeLib_lawful hshort).1
  have hlow : lowS (bnOrder + 5) = 5 := by decide
  have hold := verifiesSig_pair rangeLib_lawful hshort ()
  have hnew := verifiesSig_pair rangeLib_lawful (r := 2 ^ 64) (s := 5)
    (lt_of_le_of_lt (by gcongr; exact Der.length_content_le (by decide)) hshort) ()
  rw [hlow] at hensure
  refine ⟨⟨hder, hhigh⟩, hold.trans (by decide), hensure, hnew.trans (by decide), fun h ↦ ?_⟩
  have hverifies := h.verifies_iff hensure ()
  rw [hold, hnew] at hverifies
  exact absurd (hverifies.1 (by decide)) (by decide)

end Bws
