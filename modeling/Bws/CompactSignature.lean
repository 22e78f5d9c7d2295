import Bws.ExtKey

/-!
# Compact signatures

A compact signature has a header byte in front of `r` and `s`, which says from which of four points
the public key can be recovered and whether it is to be compressed.  `SignCompact` looks for the
point among all four; `Recover` refuses the last of them.  So what is signed is recovered unless the
last point is the only one that gives the key (`signCompact_recovers_iff`).
-/

namespace Bws

/-! ## The source -/

/-- What the recovery of a key asks of the curve. -/
structure RecoveryCurve extends Curve where
  /-- The prime that the coordinates are taken modulo, `EC_GROUP_get_curve_GFp`. -/
  field : ℕ
  /-- `EC_GROUP_get_degree` -/
  degree : ℕ
  /-- `EC_POINT_set_compressed_coordinates_GFp`, of `x` and the last bit of `y` -/
  setCompressedCoordinates : ℕ → Bool → Option Point

structure ECDSA_SIG where
  r : ℕ
  s : ℕ

/-- `BN_mod_inverse` -/
def bnModInverse (a n : ℕ) : Option ℕ :=
  if Nat.Coprime a n then some ((a : ZMod n)⁻¹).val else none

/-- What a call of `SignCompact` comes to. -/
inductive Signed (α : Type)
  | assertion
  | refused
  | signed (result : α)
deriving DecidableEq

section

variable (C : RecoveryCurve)

/-- `ECDSA_SIG_recover_key_GFp`; there is no key where it does not return 1. -/
def ecdsaSigRecoverKey (ecsig : ECDSA_SIG) (msg : List UInt8) (recid : ℕ) (check : Bool) :
    Option C.Point := do
  let i := recid / 2
  let x := bnOrder * i + ecsig.r
  guard (x < C.field)
  let R ← C.setCompressedCoordinates x (recid % 2 = 1)
  guard (check → bnOrder • R = 0)
  let n := C.degree
  let e := bin2bn msg
  let e := if n < 8 * msg.length then e >>> (8 - (n &&& 7)) else e
  let e := (bnOrder - e % bnOrder) % bnOrder
  let rr ← bnModInverse ecsig.r bnOrder
  let sor := ecsig.s * rr % bnOrder
  let eor := e * rr % bnOrder
  return eor • C.generator + sor • R

/-- `CECKey::GetPubKey` -/
def pointPubKey (point : C.Point) (fCompressed : Bool) : PubKey :=
  PubKey.set (C.encode fCompressed point)

/-- `(unsigned char*)&hash` -/
def hashBytes (hash : UInt256) : List UInt8 := Codec.toLE 32 hash

/-- The loop of `CECKey::SignCompact`: whether the point with a number gives back the key. -/
def recoversWith (pubkey : PubKey) (hash : UInt256) (sig : ECDSA_SIG) (i : ℕ) : Bool :=
  match ecdsaSigRecoverKey C sig (hashBytes hash) i true with
  | none => false
  | some keyRec => pointPubKey C keyRec true = pubkey

/-- `CECKey::SignCompact`, with what `ECDSA_do_sign` returned: the 64 bytes and the number of the
point. -/
def signCompact64 (point : C.Point) (hash : UInt256) (sig : Option ECDSA_SIG) :
    Signed (List UInt8 × ℕ) :=
  match sig with
  | none => .refused
  | some sig =>
    if Nat.size sig.r ≤ 256 ∧ Nat.size sig.s ≤ 256 then
      match (List.range 4).find? (recoversWith C (pointPubKey C point true) hash sig) with
      | none => .assertion
      | some rec => .signed (bn2bin sig.r ++ bn2bin sig.s, rec)
    else .refused

/-- `CKey::SignCompact` -/
def CKey.signCompact (key : CKey) (hash : UInt256) (sig : Option ECDSA_SIG) :
    Signed (List UInt8) :=
  match signCompact64 C (bin2bn key.vch • C.generator) hash sig with
  | .assertion => .assertion
  | .refused => .refused
  | .signed (p64, rec) =>
    .signed (UInt8.ofNat (27 + rec + if key.fCompressed then 4 else 0) :: p64)

/-- `CECKey::Recover` -/
def recover64 (hash : UInt256) (p64 : List UInt8) (rec : Int32) : Option C.Point :=
  if rec < 0 ∨ 3 ≤ rec then none
  else
    let sig : ECDSA_SIG := ⟨bin2bn (p64.take 32), bin2bn ((p64.drop 32).take 32)⟩
    ecdsaSigRecoverKey C sig (hashBytes hash) rec.toNatClampNeg false

/-- `vchSig[0] - 27` -/
def headerValue (vchSig : List UInt8) : Int32 := (vchSig.getD 0 0).toUInt32.toInt32 - 27

/-- `CPubKey::RecoverCompact` -/
def recoverCompact (hash : UInt256) (vchSig : List UInt8) : Option PubKey :=
  if vchSig.length ≠ 65 then none
  else do
    let key ← recover64 C hash vchSig.tail (headerValue vchSig &&& ~~~4)
    return pointPubKey C key (headerValue vchSig &&& 4 ≠ 0)

/-- `CPubKey::VerifyCompact` -/
def PubKey.verifyCompact (pubkey : PubKey) (hash : UInt256) (vchSig : List UInt8) : Bool :=
  if ¬ pubkey.isValid then false
  else if vchSig.length ≠ 65 then false
  else
    match recover64 C hash vchSig.tail (headerValue vchSig &&& ~~~4) with
    | none => false
    | some key => pubkey = pointPubKey C key (pubkey.size = 33)

end

/-- A point has a compressed form, and one of 65 bytes that begins as such a form does; the infinite
one has a form of a single zero. -/
structure Curve.Serializes (C : Curve) : Prop extends C.Lawful where
  encode_zero : ∀ fCompressed, C.encode fCompressed 0 = [0]
  length_encode_false : ∀ {P}, P ≠ 0 → (C.encode false P).length = 65
  getLen_encode_false : ∀ {P}, P ≠ 0 → getLen (C.encode false P) = 65

/-! ## What is meant -/

section

variable (C : RecoveryCurve) (key : CKey) (hash : UInt256)

/-- The public key as a point. -/
def CKey.point : C.Point := bin2bn key.vch • C.generator

/-- What is signed is recovered: the public key, in the form that it is used in, and the signature
is accepted for it. -/
def RecoversSigned (sig : Option ECDSA_SIG) : Prop :=
  ∀ vchSig, key.signCompact C hash sig = .signed vchSig →
    (∃ pubkey, recoverCompact C hash vchSig = some pubkey ∧ pubkey = key.getPubKey C.toCurve ∧
      (pubkey.size = 33 ↔ key.fCompressed = true)) ∧
    (key.getPubKey C.toCurve).verifyCompact C hash vchSig = true

/-- Point recovery gives the key for the last of the four numbers alone. -/
def OnlyLast (sig : ECDSA_SIG) : Prop :=
  ∀ i < 4, ecdsaSigRecoverKey C sig (hashBytes hash) i true = some (key.point C) ↔ i = 3

end

/-! ## Recovering -/

section

variable {C : RecoveryCurve} {key : CKey} {hash : UInt256} {sig : ECDSA_SIG}

theorem pointPubKey_zero (hC : C.Serializes) (fCompressed : Bool) :
    pointPubKey C 0 fCompressed = PubKey.invalid := by
  rw [pointPubKey, hC.encode_zero]
  rfl

theorem vch_pointPubKey (hC : C.Serializes) {point : C.Point} (hne : point ≠ 0)
    (fCompressed : Bool) : (pointPubKey C point fCompressed).vch = C.encode fCompressed point := by
  have hlen : (C.encode fCompressed point).length = getLen (C.encode fCompressed point) := by
    rcases fCompressed
    · rw [hC.length_encode_false hne, hC.getLen_encode_false hne]
    · rw [hC.length_encode hne, hC.getLen_encode hne]
  rw [pointPubKey, PubKey.set, dif_pos hlen]

theorem size_pointPubKey (hC : C.Serializes) {point : C.Point} (hne : point ≠ 0)
    (fCompressed : Bool) :
    (pointPubKey C point fCompressed).size = if fCompressed then 33 else 65 := by
  rw [PubKey.size, vch_pointPubKey hC hne]
  rcases fCompressed
  · exact hC.length_encode_false hne
  · exact hC.length_encode hne

/-- A compressed key tells its point. -/
theorem pointPubKey_injective (hC : C.Serializes) {point point' : C.Point} (hne : point ≠ 0)
    (h : pointPubKey C point' true = pointPubKey C point true) : point' = point := by
  by_cases hzero : point' = 0
  · have hsize := congrArg PubKey.size h
    rw [hzero, pointPubKey_zero hC, size_pointPubKey hC hne] at hsize
    exact absurd hsize (by decide)
  · have hvch := congrArg PubKey.vch h
    rw [vch_pointPubKey hC hne, vch_pointPubKey hC hzero] at hvch
    have hdecode := hC.decode_encode hzero
    rw [hvch, hC.decode_encode hne] at hdecode
    exact (Option.some.inj hdecode).symm

/-- The additional check only refuses. -/
theorem recoverKey_unchecked {msg : List UInt8} {recid : ℕ} {point : C.Point}
    (h : ecdsaSigRecoverKey C sig msg recid true = some point) :
    ecdsaSigRecoverKey C sig msg recid false = some point := by
  simp only [ecdsaSigRecoverKey, Option.bind_eq_bind, Option.bind_eq_some_iff] at h ⊢
  obtain ⟨u, hx, R, hR, v, -, hrest⟩ := h
  exact ⟨u, hx, R, hR, v, by simp [guard], hrest⟩

theorem recoversWith_iff (hC : C.Serializes) {i : ℕ} :
    recoversWith C (pointPubKey C (key.point C) true) hash sig i = true ↔
      ecdsaSigRecoverKey C sig (hashBytes hash) i true = some (key.point C) := by
  have hne := key.point_ne_zero hC.toLawful
  rw [recoversWith]
  rcases ecdsaSigRecoverKey C sig (hashBytes hash) i true with - | keyRec
  · exact iff_of_false Bool.false_ne_true nofun
  · rw [decide_eq_true_iff, Option.some.injEq]
    exact ⟨pointPubKey_injective hC hne, fun h ↦ by rw [h]⟩

/-- The header byte tells the number and the form. -/
theorem header_spec : ∀ rec < 4, ∀ fCompressed : Bool, ∀ value,
    value = (UInt8.ofNat (27 + rec + if fCompressed then 4 else 0)).toUInt32.toInt32 - 27 →
      value &&& ~~~4 = Int32.ofNat rec ∧ decide (value &&& 4 ≠ 0) = fCompressed := by
  rintro rec hrec fCompressed _ rfl
  revert rec fCompressed
  decide

theorem size_le_iff (n : ℕ) : Nat.size n ≤ 256 ↔ n < 256 ^ 32 := by
  rw [Nat.size_le]
  norm_num

/-- What is read back is what was written; the last number is refused. -/
theorem recover64_append (hr : sig.r < 256 ^ 32) (hs : sig.s < 256 ^ 32) {rec : ℕ}
    (hrec : rec < 4) :
    recover64 C hash (bn2bin sig.r ++ bn2bin sig.s) (Int32.ofNat rec) =
      if rec = 3 then none else ecdsaSigRecoverKey C sig (hashBytes hash) rec false := by
  have hcond : ∀ rec < 4, ((Int32.ofNat rec < 0 ∨ 3 ≤ Int32.ofNat rec) ↔ rec = 3) ∧
      (Int32.ofNat rec).toNatClampNeg = rec := by decide
  have htake : (bn2bin sig.r ++ bn2bin sig.s).take 32 = bn2bin sig.r :=
    List.take_left' (length_bn2bin _)
  have hdrop : ((bn2bin sig.r ++ bn2bin sig.s).drop 32).take 32 = bn2bin sig.s := by
    rw [List.drop_left' (length_bn2bin _), List.take_of_length_le (length_bn2bin _).le]
  rw [recover64, htake, hdrop, bin2bn_bn2bin hr, bin2bn_bn2bin hs, (hcond rec hrec).2]
  exact if_congr (hcond rec hrec).1 rfl rfl

/-- The first number that gives the key. -/
structure FirstNumber (C : RecoveryCurve) (key : CKey) (hash : UInt256) (sig : ECDSA_SIG)
    (rec : ℕ) : Prop where
  r_lt : sig.r < 256 ^ 32
  s_lt : sig.s < 256 ^ 32
  lt : rec < 4
  recovers : ecdsaSigRecoverKey C sig (hashBytes hash) rec true = some (key.point C)
  first : ∀ i < rec, ecdsaSigRecoverKey C sig (hashBytes hash) i true ≠ some (key.point C)

theorem signCompact64_eq_signed (hC : C.Serializes) {sig : Option ECDSA_SIG} {p64 : List UInt8}
    {rec : ℕ} : signCompact64 C (key.point C) hash sig = .signed (p64, rec) ↔
      ∃ ecsig, sig = some ecsig ∧ FirstNumber C key hash ecsig rec ∧
        p64 = bn2bin ecsig.r ++ bn2bin ecsig.s := by
  rcases sig with - | ecsig
  · exact iff_of_false nofun (by rintro ⟨_, ⟨⟩, _⟩)
  have hfirst : (List.range 4).find?
      (recoversWith C (pointPubKey C (key.point C) true) hash ecsig) = some rec ↔ rec < 4 ∧
        ecdsaSigRecoverKey C ecsig (hashBytes hash) rec true = some (key.point C) ∧
        ∀ i < rec, ecdsaSigRecoverKey C ecsig (hashBytes hash) i true ≠ some (key.point C) := by
    simp only [List.find?_range_eq_some, recoversWith_iff hC, List.mem_range, Bool.not_eq_true',
      ← Bool.not_eq_true]
    exact and_left_comm
  simp only [signCompact64, size_le_iff]
  constructor
  · intro h
    split_ifs at h with hfit
    split at h
    · cases h
    · rename_i hfind
      cases h
      obtain ⟨hlt, hrec, hbefore⟩ := hfirst.1 hfind
      exact ⟨ecsig, rfl, ⟨hfit.1, hfit.2, hlt, hrec, hbefore⟩, rfl⟩
  · rintro ⟨_, ⟨⟩, ⟨hr, hs, hlt, hrec, hbefore⟩, rfl⟩
    rw [if_pos ⟨hr, hs⟩, hfirst.2 ⟨hlt, hrec, hbefore⟩]

theorem signCompact_eq_signed (hC : C.Serializes) {sig : Option ECDSA_SIG} {vchSig : List UInt8} :
    key.signCompact C hash sig = .signed vchSig ↔ ∃ ecsig rec, sig = some ecsig ∧
      FirstNumber C key hash ecsig rec ∧
      vchSig = UInt8.ofNat (27 + rec + if key.fCompressed then 4 else 0) ::
        (bn2bin ecsig.r ++ bn2bin ecsig.s) := by
  have hsigned : ∀ p64 rec, signCompact64 C (bin2bn key.vch • C.generator) hash sig =
      .signed (p64, rec) ↔ _ := fun _ _ ↦ signCompact64_eq_signed hC
  rw [CKey.signCompact]
  constructor
  · intro h
    split at h
    · cases h
    · cases h
    · rename_i p64 rec hsign
      cases h
      obtain ⟨ecsig, hsig, hfirst, rfl⟩ := (hsigned _ _).1 hsign
      exact ⟨ecsig, rec, hsig, hfirst, rfl⟩
  · rintro ⟨ecsig, rec, hsig, hfirst, rfl⟩
    rw [(hsigned _ _).2 ⟨ecsig, hsig, hfirst, rfl⟩]

/-- Of the four numbers the last one is not read back. -/
theorem recover_of_first {rec : ℕ} (h : FirstNumber C key hash sig rec)
    {vchSig : List UInt8}
    (hvch : vchSig = UInt8.ofNat (27 + rec + if key.fCompressed then 4 else 0) ::
      (bn2bin sig.r ++ bn2bin sig.s)) :
    vchSig.length = 65 ∧ decide (headerValue vchSig &&& 4 ≠ 0) = key.fCompressed ∧
      recover64 C hash vchSig.tail (headerValue vchSig &&& ~~~4) =
        if rec = 3 then none else some (key.point C) := by
  obtain ⟨hnumber, hform⟩ := header_spec rec h.lt key.fCompressed (headerValue vchSig)
    (by rw [hvch, headerValue, List.getD_cons_zero])
  refine ⟨?_, hform, ?_⟩
  · rw [hvch, List.length_cons, List.length_append, length_bn2bin, length_bn2bin]
  · rw [hnumber, hvch, List.tail_cons, recover64_append h.r_lt h.s_lt h.lt,
      recoverKey_unchecked h.recovers]

/-- The last number is written, and nothing is recovered from it. -/
theorem recoverCompact_of_onlyLast (hC : C.Serializes) (hr : sig.r < 256 ^ 32)
    (hs : sig.s < 256 ^ 32) (hlast : OnlyLast C key hash sig) :
    ∃ vchSig, key.signCompact C hash (some sig) = .signed vchSig ∧
      recoverCompact C hash vchSig = none := by
  have hfirst : FirstNumber C key hash sig 3 :=
    ⟨hr, hs, by decide, (hlast 3 (by decide)).2 rfl,
      fun i hi hrec ↦ hi.ne ((hlast i (hi.trans (by decide))).1 hrec)⟩
  obtain ⟨hlen, -, hnone⟩ := recover_of_first hfirst rfl
  refine ⟨_, (signCompact_eq_signed hC).2 ⟨sig, 3, rfl, hfirst, rfl⟩, ?_⟩
  rw [recoverCompact, if_neg (not_not.2 hlen), hnone]
  rfl

/-- Every other number is read back. -/
theorem recoversSigned_of_not_onlyLast (hC : C.Serializes) {sig : Option ECDSA_SIG}
    (h : ∀ ecsig ∈ sig, ecsig.r < 256 ^ 32 → ecsig.s < 256 ^ 32 → ¬ OnlyLast C key hash ecsig) :
    RecoversSigned C key hash sig := by
  intro vchSig hsign
  obtain ⟨ecsig, rec, rfl, hfirst, hvch⟩ := (signCompact_eq_signed hC).1 hsign
  have hrec : rec ≠ 3 := by
    rintro rfl
    refine h ecsig rfl hfirst.r_lt hfirst.s_lt fun i hi ↦ ⟨fun hi' ↦ ?_, ?_⟩
    · exact le_antisymm (Nat.le_of_lt_succ hi) (not_lt.1 fun hlt ↦ hfirst.first i hlt hi')
    · rintro rfl
      exact hfirst.recovers
  obtain ⟨hlen, hform, hrecover⟩ := recover_of_first hfirst hvch
  rw [if_neg hrec] at hrecover
  have hsize : (key.getPubKey C.toCurve).size = if key.fCompressed then 33 else 65 :=
    size_pointPubKey hC (key.point_ne_zero hC.toLawful) key.fCompressed
  have hcompressed : (key.getPubKey C.toCurve).size = 33 ↔ key.fCompressed = true := by
    rw [hsize]
    rcases key.fCompressed <;> simp
  have hvalid : (key.getPubKey C.toCurve).isValid = true := by
    rw [PubKey.isValid, hsize, decide_eq_true_iff]
    rcases key.fCompressed <;> simp
  refine ⟨⟨key.getPubKey C.toCurve, ?_, rfl, hcompressed⟩, ?_⟩
  · rw [recoverCompact, if_neg (not_not.2 hlen), hrecover]
    change some (pointPubKey C (key.point C) (decide (headerValue vchSig &&& 4 ≠ 0))) = _
    rw [hform]
    rfl
  · rw [PubKey.verifyCompact, if_neg (not_not.2 hvalid), if_neg (not_not.2 hlen), hrecover]
    refine decide_eq_true ?_
    rw [Bool.eq_iff_iff.2 (decide_eq_true_iff.trans hcompressed)]
    rfl

/-- **What is signed is recovered, unless only the last point gives the key.** -/
theorem recoversSigned_iff (hC : C.Serializes) (key : CKey) (hash : UInt256)
    (sig : Option ECDSA_SIG) : RecoversSigned C key hash sig ↔
      ¬ ∃ ecsig, sig = some ecsig ∧ ecsig.r < 256 ^ 32 ∧ ecsig.s < 256 ^ 32 ∧
        OnlyLast C key hash ecsig := by
  constructor
  · rintro h ⟨ecsig, rfl, hr, hs, hlast⟩
    obtain ⟨vchSig, hsign, hnone⟩ := recoverCompact_of_onlyLast hC hr hs hlast
    obtain ⟨⟨pubkey, hrecover, -⟩, -⟩ := h vchSig hsign
    exact Option.some_ne_none _ (hrecover.symm.trans hnone)
  · intro h
    exact recoversSigned_of_not_onlyLast hC fun ecsig hmem hr hs hlast ↦
      h ⟨ecsig, hmem, hr, hs, hlast⟩

end

/-! ## A curve of residues -/

/-- The points of a nonce that is small: `x` is 1 for three times the generator, and one above the
order for twice the generator. -/
def residueRecovery : RecoveryCurve where
  Point := ZMod bnOrder
  generator := 1
  encode fCompressed point := if point = 0 then [0] else residueCurve.encode fCompressed point
  decode := residueCurve.decode
  field := 2 ^ 256 - 2 ^ 32 - 977
  degree := 256
  setCompressedCoordinates x odd :=
    if x = 1 then some (if odd then 3 else -3)
    else if x = bnOrder + 1 then some (if odd then 2 else -2)
    else none

theorem residueRecovery_serializes : residueRecovery.toCurve.Serializes where
  addOrderOf_generator := residueCurve_lawful.addOrderOf_generator
  length_encode h := (congrArg List.length (if_neg h)).trans (residueCurve_lawful.length_encode h)
  getLen_encode h := (congrArg getLen (if_neg h)).trans (residueCurve_lawful.getLen_encode h)
  decode_encode h := (congrArg residueCurve.decode (if_neg h)).trans
    (residueCurve_lawful.decode_encode h)
  encode_zero fCompressed := by
    change (if (0 : ZMod bnOrder) = 0 then [0] else residueCurve.encode fCompressed 0) = [0]
    exact if_pos rfl
  length_encode_false h := (congrArg List.length (if_neg h)).trans (by
    change (4 :: bn2bin _ ++ bn2bin 0 : List UInt8).length = 65
    simp)
  getLen_encode_false h := (congrArg getLen (if_neg h)).trans rfl

/-- A key with a small secret. -/
def smallKey (n : ℕ) (h : checkKey (bn2bin n) = true) : CKey :=
  ⟨bn2bin n, true, length_bn2bin n, h⟩

/-- What is recovered for a message of zeros. -/
theorem recoverKey_of_zero {C : RecoveryCurve} {sig : ECDSA_SIG} {msg : List UInt8}
    (hmsg : bin2bn msg = 0) {recid : ℕ} {R : C.Point}
    (hx : bnOrder * (recid / 2) + sig.r < C.field)
    (hR : C.setCompressedCoordinates (bnOrder * (recid / 2) + sig.r) (recid % 2 = 1) = some R)
    (hcheck : bnOrder • R = 0) {rr : ℕ} (hrr : bnModInverse sig.r bnOrder = some rr) :
    ecdsaSigRecoverKey C sig msg recid true = some ((sig.s * rr % bnOrder) • R) := by
  have hfield : guard (bnOrder * (recid / 2) + sig.r < C.field) = some () := if_pos hx
  have horder : guard (True → bnOrder • R = 0) = some () := if_pos fun _ ↦ hcheck
  simp only [ecdsaSigRecoverKey, hfield, hR, horder, hmsg, hrr, Nat.zero_shiftRight, ite_self,
    Nat.zero_mod, Nat.sub_zero, Nat.mod_self, Nat.zero_mul, zero_nsmul, zero_add,
    Option.bind_eq_bind, Option.bind_some, Option.pure_def]

theorem bnModInverse_one : bnModInverse 1 bnOrder = some 1 := by
  have : Fact (1 < bnOrder) := ⟨by decide⟩
  rw [bnModInverse, if_pos (Nat.coprime_one_left _), Nat.cast_one, ZMod.inv_one, ZMod.val_one]

theorem bnOrder_nsmul (point : ZMod bnOrder) : bnOrder • point = 0 := by
  rw [nsmul_eq_mul, ZMod.natCast_self, zero_mul]

/-- Seven times the point with a number is recovered. -/
theorem residueRecovery_recover {i : ℕ} {R : residueRecovery.Point}
    (hfield : bnOrder * (i / 2) + 1 < 2 ^ 256 - 2 ^ 32 - 977)
    (hR : residueRecovery.setCompressedCoordinates (bnOrder * (i / 2) + 1) (i % 2 = 1) = some R) :
    ecdsaSigRecoverKey residueRecovery ⟨1, 7⟩ (hashBytes 0) i true = some (7 • R) := by
  have hkey : ecdsaSigRecoverKey residueRecovery ⟨1, 7⟩ (hashBytes 0) i true =
      some ((7 * 1 % bnOrder) • R) :=
    recoverKey_of_zero (show bin2bn (hashBytes 0) = 0 by decide) hfield hR (bnOrder_nsmul R)
      bnModInverse_one
  rwa [show 7 * 1 % bnOrder = 7 by decide] at hkey

/-- What is recovered with the four numbers. -/
theorem residueRecovery_numbers :
    ecdsaSigRecoverKey residueRecovery ⟨1, 7⟩ (hashBytes 0) 0 true = some (-21 : ZMod bnOrder) ∧
    ecdsaSigRecoverKey residueRecovery ⟨1, 7⟩ (hashBytes 0) 1 true = some (21 : ZMod bnOrder) ∧
    ecdsaSigRecoverKey residueRecovery ⟨1, 7⟩ (hashBytes 0) 2 true = some (-14 : ZMod bnOrder) ∧
    ecdsaSigRecoverKey residueRecovery ⟨1, 7⟩ (hashBytes 0) 3 true = some (14 : ZMod bnOrder) := by
  have hseven : ∀ R : ZMod bnOrder, 7 • R = 7 * R := fun R ↦ nsmul_eq_mul 7 R
  have h₀ := residueRecovery_recover (i := 0) (R := (-3 : ZMod bnOrder)) (by decide) (by rfl)
  have h₁ := residueRecovery_recover (i := 1) (R := (3 : ZMod bnOrder)) (by decide) (by rfl)
  have h₂ := residueRecovery_recover (i := 2) (R := (-2 : ZMod bnOrder)) (by decide) (by rfl)
  have h₃ := residueRecovery_recover (i := 3) (R := (2 : ZMod bnOrder)) (by decide) (by rfl)
  refine ⟨h₀.trans (congrArg some ?_), h₁.trans (congrArg some ?_), h₂.trans (congrArg some ?_),
    h₃.trans (congrArg some ?_)⟩
  · exact (hseven _).trans (by norm_num)
  · exact (hseven _).trans (by norm_num)
  · exact (hseven _).trans (by norm_num)
  · exact (hseven _).trans (by norm_num)

theorem smallKey_point {n : ℕ} (h : checkKey (bn2bin n) = true) (hn : n < 256 ^ 32) :
    (smallKey n h).point residueRecovery = (n : ZMod bnOrder) := by
  have hone : n • (1 : ZMod bnOrder) = n := by rw [nsmul_eq_mul, mul_one]
  rw [CKey.point, smallKey, bin2bn_bn2bin hn]
  exact hone

/-- The signature that has been made with twice the generator, for the key 14: nothing is recovered
from it. -/
theorem not_recoversSigned : residueRecovery.Serializes ∧
    OnlyLast residueRecovery (smallKey 14 (by decide +kernel)) 0 ⟨1, 7⟩ ∧
    ¬ RecoversSigned residueRecovery (smallKey 14 (by decide +kernel)) 0 (some ⟨1, 7⟩) := by
  obtain ⟨h₀, h₁, h₂, h₃⟩ := residueRecovery_numbers
  have hlast : OnlyLast residueRecovery (smallKey 14 (by decide +kernel)) 0 ⟨1, 7⟩ := by
    intro i hi
    have hne : (-21 : ZMod bnOrder) ≠ (14 : ℕ) ∧ (21 : ZMod bnOrder) ≠ (14 : ℕ) ∧
        (-14 : ZMod bnOrder) ≠ (14 : ℕ) ∧ (14 : ZMod bnOrder) = (14 : ℕ) := by decide +kernel
    rw [smallKey_point _ (by norm_num)]
    interval_cases i
    · rw [h₀]
      exact iff_of_false (fun h ↦ hne.1 (Option.some.inj h)) (by decide)
    · rw [h₁]
      exact iff_of_false (fun h ↦ hne.2.1 (Option.some.inj h)) (by decide)
    · rw [h₂]
      exact iff_of_false (fun h ↦ hne.2.2.1 (Option.some.inj h)) (by decide)
    · rw [h₃]
      exact iff_of_true (congrArg some hne.2.2.2) rfl
  refine ⟨residueRecovery_serializes, hlast, fun h ↦ ?_⟩
  obtain ⟨vchSig, hsign, hnone⟩ := recoverCompact_of_onlyLast residueRecovery_serializes
    (by norm_num) (by norm_num) hlast
  obtain ⟨⟨pubkey, hrecover, -⟩, -⟩ := h vchSig hsign
  exact Option.some_ne_none _ (hrecover.symm.trans hnone)

/-- For the key 21 the same signature is one of another point. -/
theorem recoversSigned_iff_sample :
    RecoversSigned residueRecovery (smallKey 21 (by decide +kernel)) 0 (some ⟨1, 7⟩) := by
  refine (recoversSigned_iff residueRecovery_serializes _ _ _).2 ?_
  rintro ⟨_, ⟨⟩, -, -, hlast⟩
  obtain ⟨-, h₁, -, -⟩ := residueRecovery_numbers
  have hone := (hlast 1 (by decide)).1 (h₁.trans (congrArg some ?_))
  · exact absurd hone (by decide)
  · exact (smallKey_point _ (by norm_num)).symm

end Bws
