import Bws.KeyStore
import Bws.Lib.SignMagnitude

/-!
# Extended keys

A child of an extended key is derived in two ways: `CKey::Derive` adds the tweak to the secret
modulo the order of the curve, `CPubKey::Derive` adds the multiple of the generator to the point.
For a child that is not hardened both hash the same bytes; they refuse the same tweaks, and the
children belong to each other (`CExtKey.derive_neuter`).

The curve is a group whose generator has the order that `CKey::Check` knows of; it and the two
hashes are parameters.
-/

namespace Bws

/-! ## Numbers of 32 bytes -/

/-- `BN_bin2bn`: the first byte is the highest. -/
def bin2bn (vch : List UInt8) : ℕ := Codec.ofLE vch.reverse

/-- `BN_bn2bin`, with zeros in front -/
def bn2bin (bn : ℕ) : List UInt8 := (Codec.toLE 32 bn).reverse

/-- The order of the curve, `vchOrder`. -/
def bnOrder : ℕ := 0xFFFFFFFFFFFFFFFFFFFFFFFFFFFFFFFEBAAEDCE6AF48A03BBFD25E8CD0364141

theorem bin2bn_cons (b : UInt8) (vch : List UInt8) :
    bin2bn (b :: vch) = b.toNat * 256 ^ vch.length + bin2bn vch := by
  rw [bin2bn, List.reverse_cons, SignMagnitude.ofLE_append, SignMagnitude.ofLE_singleton,
    List.length_reverse, bin2bn]
  ring

theorem bin2bn_lt (vch : List UInt8) : bin2bn vch < 256 ^ vch.length := by
  have h := SignMagnitude.ofLE_lt vch.reverse
  rwa [List.length_reverse] at h

@[simp] theorem length_bn2bin (bn : ℕ) : (bn2bin bn).length = 32 := by
  rw [bn2bin, List.length_reverse, Codec.length_toLE]

theorem bin2bn_bn2bin {bn : ℕ} (h : bn < 256 ^ 32) : bin2bn (bn2bin bn) = bn := by
  rw [bin2bn, bn2bin, List.reverse_reverse, Codec.ofLE_toLE h]

theorem all_zero_iff (vch : List UInt8) : vch.all (· = 0) = true ↔ bin2bn vch = 0 := by
  induction vch with
  | nil => exact ⟨fun _ ↦ rfl, fun _ ↦ rfl⟩
  | cons b vch ih =>
    have hpos : 0 < 256 ^ vch.length := by positivity
    have hb : b = 0 ↔ b.toNat = 0 := UInt8.toNat_inj.symm
    rw [List.all_cons, Bool.and_eq_true, decide_eq_true_iff, ih, bin2bn_cons, Nat.add_eq_zero_iff,
      hb, Nat.mul_eq_zero, or_iff_left hpos.ne']

/-- The comparison byte by byte is that of the numbers. -/
theorem leBigEndian_iff {vch max : List UInt8} (hlen : vch.length = max.length) :
    leBigEndian vch max = true ↔ bin2bn vch ≤ bin2bn max := by
  induction vch generalizing max with
  | nil =>
    rw [List.length_nil, eq_comm, List.length_eq_zero_iff] at hlen
    rw [hlen]
    exact ⟨fun _ ↦ le_rfl, fun _ ↦ rfl⟩
  | cons b vch ih =>
    rcases max with - | ⟨m, max⟩
    · cases hlen
    have hlen' : vch.length = max.length := Nat.succ.inj hlen
    have hvch := bin2bn_lt vch
    have hmax := bin2bn_lt max
    rw [leBigEndian, bin2bn_cons, bin2bn_cons, hlen']
    rw [hlen'] at hvch
    split_ifs with hlt hgt
    · have hle : (b.toNat + 1) * 256 ^ max.length ≤ m.toNat * 256 ^ max.length :=
        Nat.mul_le_mul_right _ (UInt8.lt_iff_toNat_lt.1 hlt)
      exact ⟨fun _ ↦ by rw [Nat.add_mul] at hle; omega, fun _ ↦ rfl⟩
    · have hle : (m.toNat + 1) * 256 ^ max.length ≤ b.toNat * 256 ^ max.length :=
        Nat.mul_le_mul_right _ (UInt8.lt_iff_toNat_lt.1 hgt)
      refine ⟨fun h ↦ (by cases h), fun h ↦ ?_⟩
      rw [Nat.add_mul] at hle
      omega
    · have heq : b.toNat = m.toNat := by
        rw [UInt8.lt_iff_toNat_lt] at hlt hgt
        omega
      rw [ih hlen', heq, Nat.add_le_add_iff_left]

theorem bin2bn_vchMax : bin2bn vchMax + 1 = bnOrder := by decide +kernel

/-- `CKey::Check` asks for a number between zero and the order. -/
theorem checkKey_iff {vch : List UInt8} (hlen : vch.length = 32) :
    checkKey vch = true ↔ bin2bn vch ≠ 0 ∧ bin2bn vch < bnOrder := by
  rw [checkKey, Bool.and_eq_true, Bool.not_eq_true', ← Bool.not_eq_true, all_zero_iff,
    leBigEndian_iff (show vch.length = vchMax.length from hlen), ← bin2bn_vchMax, Nat.lt_succ_iff]

theorem bnOrder_lt : bnOrder < 256 ^ 32 := by decide +kernel

/-! ## The source -/

/-- The curve, as OpenSSL gives it. -/
structure Curve where
  Point : Type
  [group : AddCommGroup Point]
  [decEq : DecidableEq Point]
  generator : Point
  /-- `i2o_ECPublicKey`, in compressed form or not -/
  encode : Bool → Point → List UInt8
  /-- `o2i_ECPublicKey` -/
  decode : List UInt8 → Option Point

attribute [instance] Curve.group Curve.decEq

/-- `CPubKey::GetLen`, of the first byte -/
def getLen : List UInt8 → ℕ
  | [] => 0
  | chHeader :: _ =>
    if chHeader = 2 ∨ chHeader = 3 then 33
    else if chHeader = 4 ∨ chHeader = 6 ∨ chHeader = 7 then 65
    else 0

/-- The bytes that a `CPubKey` stands for: there are as many as the first one says, and none in an
invalid key. -/
structure PubKey where
  vch : CPubKey
  valid : vch.length = getLen vch
deriving DecidableEq

namespace PubKey

/-- `CPubKey::Invalidate` -/
def invalid : PubKey := ⟨[], rfl⟩

/-- `CPubKey::Set` -/
def set (bytes : List UInt8) : PubKey :=
  if h : bytes.length = getLen bytes then ⟨bytes, h⟩ else invalid

def size (pubkey : PubKey) : ℕ := pubkey.vch.length

def isValid (pubkey : PubKey) : Bool := pubkey.size > 0

end PubKey

/-- The hashes: HMAC-SHA512 of a key and a message, and `Hash160`. -/
structure ExtHashes where
  hmacSHA512 : List UInt8 → List UInt8 → Vector UInt8 64
  hash160 : List UInt8 → Vector UInt8 20

/-- `memcpy` of `n` bytes from the offset `k` on -/
def copyFrom (bytes : List UInt8) (k n : ℕ) : Vector UInt8 n :=
  Vector.ofFn fun i : Fin n ↦ bytes.getD (k + i) 0

/-- The number of a child, the highest byte first. -/
def childBytes (nChild : UInt32) : List UInt8 :=
  [(nChild >>> 24).toUInt8, (nChild >>> 16).toUInt8, (nChild >>> 8).toUInt8, nChild.toUInt8]

/-- A `CExtKey`; the key is missing where it is not valid. -/
structure CExtKey where
  nDepth : UInt8
  vchFingerprint : Vector UInt8 4
  nChild : UInt32
  vchChainCode : Vector UInt8 32
  key : Option CKey

structure CExtPubKey where
  nDepth : UInt8
  vchFingerprint : Vector UInt8 4
  nChild : UInt32
  vchChainCode : Vector UInt8 32
  pubkey : PubKey

/-- `CECKey::TweakSecret` -/
def tweakSecret (vchSecretIn vchTweak : List UInt8) : List UInt8 × Bool :=
  let bnTweak := bin2bn vchTweak
  let bnSecret := (bin2bn vchSecretIn + bnTweak) % bnOrder
  (bn2bin bnSecret, !(bnTweak ≥ bnOrder) && !(bnSecret = 0))

/-- What `TweakSecret` lets pass, `Check` does as well. -/
theorem tweakSecret_valid {vchSecretIn vchTweak : List UInt8}
    (h : (tweakSecret vchSecretIn vchTweak).2 = true) :
    (tweakSecret vchSecretIn vchTweak).1.length = 32 ∧
      checkKey (tweakSecret vchSecretIn vchTweak).1 = true := by
  have hlt : (bin2bn vchSecretIn + bin2bn vchTweak) % bnOrder < bnOrder :=
    Nat.mod_lt _ (by decide)
  have hne : (bin2bn vchSecretIn + bin2bn vchTweak) % bnOrder ≠ 0 := by
    simp only [tweakSecret, Bool.and_eq_true, Bool.not_eq_true', decide_eq_false_iff_not] at h
    exact h.2
  refine ⟨length_bn2bin _, (checkKey_iff (length_bn2bin _)).2 ?_⟩
  rw [bin2bn_bn2bin (hlt.trans bnOrder_lt)]
  exact ⟨hne, hlt⟩

/-- The child that `TweakSecret` leaves, missing where it returns `false`. -/
def CKey.tweak (vchSecretIn vchTweak : List UInt8) : Option CKey :=
  if h : (tweakSecret vchSecretIn vchTweak).2 = true then
    some ⟨(tweakSecret vchSecretIn vchTweak).1, true, tweakSecret_valid h⟩
  else none

section

variable (C : Curve) (H : ExtHashes)

/-- `CECKey::TweakPublic` -/
def tweakPublic (point : C.Point) (vchTweak : List UInt8) : C.Point × Bool :=
  let bnTweak := bin2bn vchTweak
  let point := bnTweak • C.generator + point
  (point, !(bnTweak ≥ bnOrder) && !(point = 0))

/-- `CKey::GetPubKey`, of a valid key -/
def CKey.getPubKey (key : CKey) : PubKey :=
  PubKey.set (C.encode key.fCompressed (bin2bn key.vch • C.generator))

/-- `BIP32Hash` -/
def bip32Hash (chainCode : Vector UInt8 32) (nChild : UInt32) (header : UInt8) (data : List UInt8) :
    List UInt8 :=
  (H.hmacSHA512 chainCode.toList (header :: data ++ childBytes nChild)).toList

/-- `CKey::Derive`; there is no result where an assertion fails, and the child is missing where
`Derive` returns `false`. -/
def CKey.derive (key : CKey) (nChild : UInt32) (cc : Vector UInt8 32) :
    Option (Option CKey × Vector UInt8 32) := do
  guard key.fCompressed
  let out ←
    if nChild >>> 31 = 0 then do
      let pubkey := key.getPubKey C
      guard (pubkey.size = 33)
      some (bip32Hash H cc nChild (pubkey.vch.getD 0 0) pubkey.vch.tail)
    else some (bip32Hash H cc nChild 0 key.vch)
  some (CKey.tweak key.vch (out.take 32), copyFrom out 32 32)

/-- `CPubKey::Derive`; there is no result where an assertion fails, or where the bytes are no
point. -/
def PubKey.derive (pubkey : PubKey) (nChild : UInt32) (cc : Vector UInt8 32) :
    Option (PubKey × Vector UInt8 32 × Bool) := do
  guard pubkey.isValid
  guard (nChild >>> 31 = 0)
  guard (pubkey.size = 33)
  let out := bip32Hash H cc nChild (pubkey.vch.getD 0 0) pubkey.vch.tail
  let point ← C.decode pubkey.vch
  let (point, ret) := tweakPublic C point (out.take 32)
  some (PubKey.set (C.encode true point), copyFrom out 32 32, ret)

/-- `CPubKey::GetID`, the first four bytes -/
def fingerprint (pubkey : PubKey) : Vector UInt8 4 := copyFrom (H.hash160 pubkey.vch).toList 0 4

namespace CExtKey

/-- `CExtKey::Derive`: the child, and whether there is one. -/
def derive (k : CExtKey) (nChild : UInt32) : Option (CExtKey × Bool) := do
  let key ← k.key
  let (keyChild, ccChild) ← key.derive C H nChild k.vchChainCode
  some (⟨k.nDepth + 1, fingerprint H (key.getPubKey C), nChild, ccChild, keyChild⟩, keyChild.isSome)

def neuter (k : CExtKey) : Option CExtPubKey := do
  let key ← k.key
  some ⟨k.nDepth, k.vchFingerprint, k.nChild, k.vchChainCode, key.getPubKey C⟩

end CExtKey

/-- `CExtPubKey::Derive` -/
def CExtPubKey.derive (k : CExtPubKey) (nChild : UInt32) : Option (CExtPubKey × Bool) := do
  let (pubkeyChild, ccChild, ret) ← k.pubkey.derive C H nChild k.vchChainCode
  some (⟨k.nDepth + 1, fingerprint H k.pubkey, nChild, ccChild, pubkeyChild⟩, ret)

end

/-- The number of a child that four bytes stand for. -/
def childNumber (code : List UInt8) : UInt32 :=
  ((code.getD 5 0).toUInt32 <<< 24) ||| ((code.getD 6 0).toUInt32 <<< 16) |||
    ((code.getD 7 0).toUInt32 <<< 8) ||| (code.getD 8 0).toUInt32

namespace CExtKey

/-- `CExtKey::Encode`, where its assertion holds -/
def encode (k : CExtKey) : Option (List UInt8) :=
  k.key.map fun key ↦ [k.nDepth] ++ k.vchFingerprint.toList ++ childBytes k.nChild ++
    k.vchChainCode.toList ++ [0] ++ key.vch

/-- `CExtKey::Decode` -/
def decode (code : List UInt8) : CExtKey :=
  ⟨code.getD 0 0, copyFrom code 1 4, childNumber code, copyFrom code 9 32,
    CKey.set ((code.drop 42).take 32) true⟩

end CExtKey

namespace CExtPubKey

/-- `CExtPubKey::Encode`, where its assertion holds -/
def encode (k : CExtPubKey) : Option (List UInt8) :=
  if k.pubkey.size = 33 then
    some ([k.nDepth] ++ k.vchFingerprint.toList ++ childBytes k.nChild ++ k.vchChainCode.toList ++
      k.pubkey.vch)
  else none

/-- `CExtPubKey::Decode` -/
def decode (code : List UInt8) : CExtPubKey :=
  ⟨code.getD 0 0, copyFrom code 1 4, childNumber code, copyFrom code 9 32,
    PubKey.set ((code.drop 41).take 33)⟩

end CExtPubKey

/-! ## Decoding -/

section

variable {n k : ℕ} {pre : List UInt8}

theorem copyFrom_append (hpre : pre.length = k) (v : Vector UInt8 n) (rest : List UInt8) :
    copyFrom (pre ++ (v.toList ++ rest)) k n = v := by
  refine Vector.ext fun i hi ↦ ?_
  have hlen : i < v.toList.length := by rwa [Vector.length_toList]
  rw [copyFrom, Vector.getElem_ofFn, ← hpre, List.getD_append_right _ _ _ _ (Nat.le_add_right ..),
    Nat.add_sub_cancel_left, List.getD_append _ _ _ _ hlen, List.getD_eq_getElem _ _ hlen,
    Vector.getElem_toList]

theorem take_drop_append (hpre : pre.length = k) {vch : List UInt8} (hvch : vch.length = n) :
    ((pre ++ vch).drop k).take n = vch := by
  rw [List.drop_left' hpre, List.take_of_length_le hvch.le]

end

/-- The four bytes put together again. -/
theorem childBytes_or (nChild : UInt32) :
    ((nChild >>> 24).toUInt8.toUInt32 <<< 24) ||| ((nChild >>> 16).toUInt8.toUInt32 <<< 16) |||
      ((nChild >>> 8).toUInt8.toUInt32 <<< 8) ||| nChild.toUInt8.toUInt32 = nChild := by
  refine UInt32.toBitVec_inj.1 (BitVec.eq_of_getLsbD_eq fun i hi ↦ ?_)
  simp only [UInt32.toBitVec_or, UInt32.toBitVec_shiftLeft, UInt8.toBitVec_toUInt32,
    UInt32.toBitVec_toUInt8, UInt32.toBitVec_shiftRight, UInt32.toBitVec_ofNat]
  simp [hi]
  grind

theorem childNumber_append (pre : List UInt8) (hpre : pre.length = 5) (nChild : UInt32)
    (rest : List UInt8) : childNumber (pre ++ (childBytes nChild ++ rest)) = nChild := by
  have hget (i : ℕ) : (pre ++ (childBytes nChild ++ rest)).getD (5 + i) 0 =
      (childBytes nChild ++ rest).getD i 0 := by
    rw [← hpre, List.getD_append_right _ _ _ _ (Nat.le_add_right ..), Nat.add_sub_cancel_left]
  rw [childNumber, hget 0, hget 1, hget 2, hget 3]
  exact childBytes_or nChild

/-- The fields in front of the key are read back. -/
theorem decode_fields (nDepth : UInt8) (vchFingerprint : Vector UInt8 4) (nChild : UInt32)
    (vchChainCode : Vector UInt8 32) (rest : List UInt8) :
    let code :=
      [nDepth] ++ vchFingerprint.toList ++ childBytes nChild ++ vchChainCode.toList ++ rest
    code.getD 0 0 = nDepth ∧ copyFrom code 1 4 = vchFingerprint ∧ childNumber code = nChild ∧
      copyFrom code 9 32 = vchChainCode := by
  simp only [List.append_assoc]
  refine ⟨rfl, copyFrom_append rfl _ _, ?_, ?_⟩
  · rw [← List.append_assoc [nDepth]]
    exact childNumber_append _ (by simp) _ _
  · rw [← List.append_assoc [nDepth], ← List.append_assoc ([nDepth] ++ vchFingerprint.toList)]
    exact copyFrom_append (by simp [childBytes]) _ _

/-- Decoding gives back an encoded private key, as a compressed one. -/
theorem CExtKey.decode_encode {k : CExtKey} {key : CKey} (hkey : k.key = some key)
    {code : List UInt8} (h : k.encode = some code) :
    CExtKey.decode code = { k with key := some { key with fCompressed := true } } := by
  obtain ⟨nDepth, vchFingerprint, nChild, vchChainCode, _⟩ := k
  subst hkey
  obtain rfl := Option.some.inj h
  obtain ⟨hdepth, hfingerprint, hchild, hchain⟩ :=
    decode_fields nDepth vchFingerprint nChild vchChainCode ([0] ++ key.vch)
  rw [← List.append_assoc] at hdepth hfingerprint hchild hchain
  have hset : CKey.set key.vch true = some { key with fCompressed := true } := dif_pos key.valid
  rw [decode, hdepth, hfingerprint, hchild, hchain,
    take_drop_append (by simp [childBytes]) key.valid.1, hset]

theorem PubKey.set_vch (pubkey : PubKey) : PubKey.set pubkey.vch = pubkey := dif_pos pubkey.valid

/-- Decoding gives back an encoded public key. -/
theorem CExtPubKey.decode_encode {k : CExtPubKey} {code : List UInt8} (h : k.encode = some code) :
    CExtPubKey.decode code = k := by
  obtain ⟨nDepth, vchFingerprint, nChild, vchChainCode, pubkey⟩ := k
  have hsize : pubkey.vch.length = 33 := by
    by_contra hne
    rw [encode, if_neg (show ¬ pubkey.size = 33 from hne)] at h
    cases h
  rw [encode, if_pos (show pubkey.size = 33 from hsize)] at h
  obtain rfl := Option.some.inj h
  obtain ⟨hdepth, hfingerprint, hchild, hchain⟩ :=
    decode_fields nDepth vchFingerprint nChild vchChainCode pubkey.vch
  rw [decode, hdepth, hfingerprint, hchild, hchain, take_drop_append (by simp [childBytes]) hsize,
    PubKey.set_vch]

/-! ## Both ways of derivation -/

theorem CKey.tweak_isSome (vchSecret vchTweak : List UInt8) :
    (CKey.tweak vchSecret vchTweak).isSome = (tweakSecret vchSecret vchTweak).2 := by
  rw [tweak]
  split_ifs with h
  · exact h.symm
  · exact (Bool.not_eq_true _ ▸ h).symm

theorem CKey.mem_tweak {vchSecret vchTweak : List UInt8} {child : CKey}
    (h : CKey.tweak vchSecret vchTweak = some child) :
    child.vch = (tweakSecret vchSecret vchTweak).1 ∧ child.fCompressed = true := by
  rw [tweak] at h
  split_ifs at h
  obtain rfl := Option.some.inj h
  exact ⟨rfl, rfl⟩

/-- What is hashed for a child that is not hardened. -/
def PubKey.childHash (H : ExtHashes) (pubkey : PubKey) (nChild : UInt32) (cc : Vector UInt8 32) :
    List UInt8 :=
  bip32Hash H cc nChild (pubkey.vch.getD 0 0) pubkey.vch.tail

/-- The order is that of the generator; a finite point has a compressed form of 33 bytes, as the
first of them says, and can be read in it. -/
structure Curve.Lawful (C : Curve) : Prop where
  addOrderOf_generator : addOrderOf C.generator = bnOrder
  length_encode : ∀ {P}, P ≠ 0 → (C.encode true P).length = 33
  getLen_encode : ∀ {P}, P ≠ 0 → getLen (C.encode true P) = 33
  decode_encode : ∀ {P}, P ≠ 0 → C.decode (C.encode true P) = some P

section

variable {C : Curve} (hC : C.Lawful)
include hC

theorem Curve.Lawful.nsmul_eq_zero_iff (n : ℕ) : n • C.generator = 0 ↔ n % bnOrder = 0 := by
  rw [← addOrderOf_dvd_iff_nsmul_eq_zero, hC.addOrderOf_generator, Nat.dvd_iff_mod_eq_zero]

theorem Curve.Lawful.mod_nsmul (n : ℕ) : (n % bnOrder) • C.generator = n • C.generator := by
  rw [← hC.addOrderOf_generator, mod_addOrderOf_nsmul]

/-- **Both ways agree on every tweak**, and on the edge: the sum is a multiple of the order just
when the point is infinite. -/
theorem tweakPublic_eq (vchSecret vchTweak : List UInt8) :
    tweakPublic C (bin2bn vchSecret • C.generator) vchTweak =
      (bin2bn (tweakSecret vchSecret vchTweak).1 • C.generator,
        (tweakSecret vchSecret vchTweak).2) := by
  have hpoint : bin2bn vchTweak • C.generator + bin2bn vchSecret • C.generator =
      (bin2bn vchSecret + bin2bn vchTweak) • C.generator := by
    rw [← add_nsmul, Nat.add_comm]
  have hsecret : bin2bn (tweakSecret vchSecret vchTweak).1 =
      (bin2bn vchSecret + bin2bn vchTweak) % bnOrder :=
    bin2bn_bn2bin ((Nat.mod_lt _ (by decide)).trans bnOrder_lt)
  rw [hsecret, hC.mod_nsmul, ← hpoint]
  simp only [tweakPublic, tweakSecret, hpoint, hC.nsmul_eq_zero_iff]

theorem CKey.point_ne_zero (key : CKey) : bin2bn key.vch • C.generator ≠ 0 := by
  obtain ⟨hne, hlt⟩ := (checkKey_iff key.valid.1).1 key.valid.2
  rwa [Ne, hC.nsmul_eq_zero_iff, Nat.mod_eq_of_lt hlt]

theorem CKey.getPubKey_vch {key : CKey} (hkey : key.fCompressed = true) :
    (key.getPubKey C).vch = C.encode true (bin2bn key.vch • C.generator) := by
  have hne := key.point_ne_zero hC
  have hlen := (hC.length_encode hne).trans (hC.getLen_encode hne).symm
  rw [getPubKey, hkey, PubKey.set, dif_pos hlen]

theorem CKey.size_getPubKey {key : CKey} (hkey : key.fCompressed = true) :
    (key.getPubKey C).size = 33 := by
  rw [PubKey.size, key.getPubKey_vch hC hkey, hC.length_encode (key.point_ne_zero hC)]

theorem CKey.derive_eq (H : ExtHashes) {key : CKey} (hkey : key.fCompressed = true)
    {nChild : UInt32} (hchild : nChild >>> 31 = 0) (cc : Vector UInt8 32) :
    let out := (key.getPubKey C).childHash H nChild cc
    key.derive C H nChild cc = some (CKey.tweak key.vch (out.take 32), copyFrom out 32 32) := by
  have hsize := key.size_getPubKey hC hkey
  simp only [derive, hkey, hchild, hsize, guard_true, if_true, Option.pure_def, Option.bind_eq_bind,
    Option.bind_some, PubKey.childHash]

theorem PubKey.derive_eq (H : ExtHashes) {key : CKey} (hkey : key.fCompressed = true)
    {nChild : UInt32} (hchild : nChild >>> 31 = 0) (cc : Vector UInt8 32) :
    let out := (key.getPubKey C).childHash H nChild cc
    let tweaked := tweakSecret key.vch (out.take 32)
    (key.getPubKey C).derive C H nChild cc =
      some (PubKey.set (C.encode true (bin2bn tweaked.1 • C.generator)), copyFrom out 32 32,
        (CKey.tweak key.vch (out.take 32)).isSome) := by
  have hsize := key.size_getPubKey hC hkey
  have hvalid : (key.getPubKey C).isValid = true := by
    rw [isValid, hsize]
    rfl
  have hdecode : C.decode (key.getPubKey C).vch = some (bin2bn key.vch • C.generator) := by
    rw [key.getPubKey_vch hC hkey, hC.decode_encode (key.point_ne_zero hC)]
  simp only [derive, hchild, hsize, hvalid, hdecode, guard_true, Option.pure_def,
    Option.bind_eq_bind, Option.bind_some, tweakPublic_eq hC, CKey.tweak_isSome, childHash]

/-- **The child of the public key is the public key of the child**, where there is one. -/
theorem CKey.derive_getPubKey (H : ExtHashes) {key : CKey} (hkey : key.fCompressed = true)
    {nChild : UInt32} (hchild : nChild >>> 31 = 0) (cc : Vector UInt8 32) :
    ∃ keyChild ccChild pubkeyChild, key.derive C H nChild cc = some (keyChild, ccChild) ∧
      (key.getPubKey C).derive C H nChild cc = some (pubkeyChild, ccChild, keyChild.isSome) ∧
      ∀ child, keyChild = some child → child.getPubKey C = pubkeyChild := by
  have hpub := PubKey.derive_eq hC H hkey hchild cc
  refine ⟨_, _, _, key.derive_eq hC H hkey hchild cc, hpub, fun child hmem ↦ ?_⟩
  obtain ⟨hvch, hcomp⟩ := CKey.mem_tweak hmem
  rw [getPubKey, hvch, hcomp]

/-- `CExtKey::Derive` and `CExtPubKey::Derive` succeed together, and the children belong together in
all their fields. -/
theorem CExtKey.derive_neuter (H : ExtHashes) {k : CExtKey} {key : CKey} (hk : k.key = some key)
    (hkey : key.fCompressed = true) {nChild : UInt32} (hchild : nChild >>> 31 = 0) :
    ∃ pub child pubChild ret, k.neuter C = some pub ∧ k.derive C H nChild = some (child, ret) ∧
      pub.derive C H nChild = some (pubChild, ret) ∧
      (ret = true → child.neuter C = some pubChild) := by
  obtain ⟨keyChild, ccChild, pubkeyChild, hprivate, hpublic, hbelong⟩ :=
    key.derive_getPubKey hC H hkey hchild k.vchChainCode
  obtain ⟨nDepth, vchFingerprint, nChild', vchChainCode, _⟩ := k
  subst hk
  refine ⟨_, ⟨nDepth + 1, fingerprint H (key.getPubKey C), nChild, ccChild, keyChild⟩,
    ⟨nDepth + 1, fingerprint H (key.getPubKey C), nChild, ccChild, pubkeyChild⟩, keyChild.isSome,
    rfl, ?_, ?_, fun hsome ↦ ?_⟩
  · rw [derive, Option.bind_eq_bind, Option.bind_some, hprivate]
    rfl
  · rw [CExtPubKey.derive, hpublic]
    rfl
  · obtain ⟨child, rfl⟩ := Option.isSome_iff_exists.1 hsome
    rw [neuter, Option.bind_eq_bind, Option.bind_some, hbelong child rfl]

end

/-- **Extended keys.**  For a private key with a valid compressed key, the two derivations of a
child that is not hardened succeed together, and the children belong together; such a key, and a
public one with a compressed key, are given back by decoding. -/
theorem extKeys_agree (C : Curve) (hC : C.Lawful) (H : ExtHashes) :
    (∀ (k : CExtKey) (key : CKey), k.key = some key → key.fCompressed = true →
      ∀ nChild : UInt32, nChild >>> 31 = 0 →
        ∃ pub child pubChild ret, k.neuter C = some pub ∧ k.derive C H nChild = some (child, ret) ∧
          pub.derive C H nChild = some (pubChild, ret) ∧
          (ret = true → child.neuter C = some pubChild)) ∧
    (∀ (k : CExtKey) (key : CKey), k.key = some key → key.fCompressed = true →
      ∃ code, k.encode = some code ∧ code.length = 74 ∧ CExtKey.decode code = k) ∧
    ∀ k : CExtPubKey, k.pubkey.size = 33 →
      ∃ code, k.encode = some code ∧ code.length = 74 ∧ CExtPubKey.decode code = k := by
  refine ⟨fun k key hk hkey nChild hchild ↦ CExtKey.derive_neuter hC H hk hkey hchild,
    fun k key hk hkey ↦ ?_, fun k hsize ↦ ?_⟩
  · have hencode : k.encode = some ([k.nDepth] ++ k.vchFingerprint.toList ++ childBytes k.nChild ++
        k.vchChainCode.toList ++ [0] ++ key.vch) := by rw [CExtKey.encode, hk, Option.map_some]
    refine ⟨_, hencode, ?_, ?_⟩
    · simp [childBytes, key.valid.1]
    · have hcomp : { key with fCompressed := true } = key := by rw [← hkey]
      rw [CExtKey.decode_encode hk hencode, hcomp, ← hk]
  · have hencode : k.encode = some _ := if_pos hsize
    refine ⟨_, hencode, ?_, CExtPubKey.decode_encode hencode⟩
    rw [PubKey.size] at hsize
    simp [childBytes, hsize]

/-- The residues as a curve: the number of a point is its first coordinate. -/
def residueCurve : Curve where
  Point := ZMod bnOrder
  generator := 1
  encode fCompressed point :=
    if fCompressed then 2 :: bn2bin point.val else 4 :: bn2bin point.val ++ bn2bin 0
  decode vch := some (bin2bn ((vch.drop 1).take 32) : ZMod bnOrder)

instance : NeZero bnOrder := ⟨by decide⟩

theorem natCast_bin2bn_val (P : ZMod bnOrder) :
    some (bin2bn ((bn2bin P.val).take 32) : ZMod bnOrder) = some P := by
  have hlt : P.val < 256 ^ 32 := P.val_lt.trans bnOrder_lt
  rw [List.take_of_length_le (length_bn2bin _).le, bin2bn_bn2bin hlt, ZMod.natCast_zmod_val]

theorem residueCurve_lawful : residueCurve.Lawful where
  addOrderOf_generator := ZMod.addOrderOf_one bnOrder
  length_encode _ := congrArg Nat.succ (length_bn2bin _)
  getLen_encode _ := rfl
  decode_encode {P} _ := by
    change some (bin2bn ((bn2bin (ZMod.val (n := bnOrder) P)).take 32) : ZMod bnOrder) = some P
    exact natCast_bin2bn_val P

/-- Every hash has a tweak of one. -/
def oneHashes : ExtHashes where
  hmacSHA512 _ _ := copyFrom (bn2bin 1) 0 64
  hash160 _ := copyFrom [] 0 20

/-- An extended key with the secret one. -/
def oneKey (fCompressed : Bool) : CExtKey :=
  ⟨0, copyFrom [] 0 4, 0, copyFrom [] 0 32, CKey.set (bn2bin 1) fCompressed⟩

/-- The child of the secret one. -/
theorem extKeys_agree_oneKey : ∃ pub child pubChild, (oneKey true).neuter residueCurve = some pub ∧
    (oneKey true).derive residueCurve oneHashes 0 = some (child, true) ∧
    pub.derive residueCurve oneHashes 0 = some (pubChild, true) ∧
    child.neuter residueCurve = some pubChild := by
  obtain ⟨pub, child, pubChild, ret, hneuter, hderive, hpub, hchild⟩ :=
    (extKeys_agree residueCurve residueCurve_lawful oneHashes).1 (oneKey true) _ rfl rfl 0 rfl
  have hret : ret = true := by
    have h : ((oneKey true).derive residueCurve oneHashes 0).map Prod.snd = some true := by
      decide +kernel
    rw [hderive] at h
    exact Option.some.inj h
  subst hret
  exact ⟨pub, child, pubChild, hneuter, hderive, hpub, hchild rfl⟩

/-- An extended key whose key is not compressed comes back as another one. -/
theorem oneKey_not_restored :
    ∃ code, (oneKey false).encode = some code ∧ CExtKey.decode code ≠ oneKey false := by
  refine ⟨_, rfl, fun h ↦ ?_⟩
  have hcomp := congrArg (fun k ↦ k.key.map CKey.fCompressed) h
  exact absurd hcomp (by decide +kernel)

end Bws
