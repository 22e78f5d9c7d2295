import Bws.Core
import Bws.Serialize
import Bws.Lib.Canonical

/-!
# Transactions and blocks as bytes

What `IMPLEMENT_SERIALIZE` makes of `CTransaction` and `CBlock`: the bytes that are written, what is
read, and the size that is told beforehand.  Every size that is not written in the shortest way is
refused at every level, so that the reader accepts nothing but what the writer writes
(`CTransaction.canonical_implementSerialize`, `CBlock.canonical_implementSerialize`).  The size is
an `unsigned int`: it is the number of the bytes modulo `2 ^ 32`.
-/

namespace Bws

open Codec

/-! ## Sizes of vectors -/

/-- A size with a marker is what follows the marker, and it is too large for a shorter one. -/
theorem eq_of_marker {k lo n : ℕ} {bytes rest : List UInt8}
    (h : ((uint k).get bytes).filter (lo ≤ ·.1) = some (n, rest)) :
    lo ≤ n ∧ n < 256 ^ k ∧ bytes = toLE k n ++ rest := by
  obtain ⟨hget, hlo⟩ := Option.filter_eq_some_iff.1 h
  exact ⟨of_decide_eq_true hlo, canonical_uint k hget⟩

theorem put_compactSize (n : ℕ) : compactSize.put n =
    if n < 253 then toLE 1 n else if n < 2 ^ 16 then 253 :: toLE 2 n
    else if n < 2 ^ 32 then 254 :: toLE 4 n else 255 :: toLE 8 n := rfl

/-- A size that is not written in the shortest way is refused. -/
theorem canonical_sizeCodec : sizeCodec.Canonical := by
  intro bytes n rest hget
  rcases bytes with - | ⟨chSize, bytes⟩
  · cases hget
  obtain ⟨hr, hmax⟩ := Option.filter_eq_some_iff.1 hget
  have hn : n ≤ MAX_SIZE := of_decide_eq_true hmax
  refine ⟨hn, ?_⟩
  show chSize :: bytes = compactSize.put n ++ rest
  rw [put_compactSize]
  rw [MAX_SIZE] at hn
  split at hr
  · rename_i hlt
    obtain ⟨rfl, rfl⟩ := Prod.mk.inj (Option.some.inj hr)
    have hbyte : chSize.toNat < 253 := hlt
    rw [if_pos hbyte, toLE, toLE, Nat.mod_eq_of_lt (by omega), UInt8.ofNat_toNat]
    rfl
  · split at hr
    · rename_i hmark
      obtain ⟨hlo, hlt, rfl⟩ := eq_of_marker hr
      rw [if_neg (by omega), if_pos (by omega), hmark, List.cons_append]
    · split at hr
      · rename_i hmark
        obtain ⟨hlo, hlt, rfl⟩ := eq_of_marker hr
        rw [if_neg (by omega), if_neg (by omega), if_pos (by omega), hmark, List.cons_append]
      · obtain ⟨hlo, -⟩ := eq_of_marker hr
        omega

theorem length_put_compactSize (n : ℕ) :
    (compactSize.put n).length = getSizeOfCompactSize n := by
  rw [put_compactSize, getSizeOfCompactSize]
  split_ifs <;> first | omega | simp only [List.length_cons, length_toLE]

/-! ## Vectors -/

/-- A `sizeof`; the elements of a vector are read in blocks of about five megabytes. -/
structure ElementSize where
  sizeof : ℕ
  pos : 0 < sizeof
  le : sizeof ≤ 5000000

/-- `Unserialize_impl` of a vector of bytes -/
def unserializeBytes (bytes : List UInt8) : Option (List UInt8 × List UInt8) :=
  (readCompactSize bytes).bind fun r ↦
    readBlocks (fun n ↦ (raw n).get) (1 + 4999999 / 1) r.1 r.1 r.2

/-- `Unserialize_impl` of a vector of objects -/
def unserializeVector {α : Type} (T : ElementSize) (F : Codec α) (bytes : List UInt8) :
    Option (List α × List UInt8) :=
  (readCompactSize bytes).bind fun r ↦
    readBlocks F.getMany (5000000 / T.sizeof) r.1 r.1 r.2

theorem unserializeBytes_eq (bytes : List UInt8) :
    unserializeBytes bytes = stringCodec.get bytes := by
  show _ = ((readCompactSize bytes).bind fun r ↦ ((raw r.1).get r.2).map fun q ↦
    ((r.1, q.1), q.2)).map _
  rw [unserializeBytes, Option.map_bind]
  refine congrArg (Option.bind _) (funext fun r ↦ ?_)
  rw [readBlocks_eq readsOn_raw (by decide) le_rfl, Function.comp_apply, Option.map_map]
  exact Option.map_id'.symm

theorem unserializeVector_eq {α : Type} (T : ElementSize) (F : Codec α) (bytes : List UInt8) :
    unserializeVector T F bytes = (vectorCodec F).get bytes := by
  show _ = ((readCompactSize bytes).bind fun r ↦ (F.getMany r.1 r.2).map fun q ↦
    ((r.1, q.1), q.2)).map _
  rw [unserializeVector, Option.map_bind]
  refine congrArg (Option.bind _) (funext fun r ↦ ?_)
  rw [readBlocks_eq (readsOn_getMany F) (Nat.div_pos T.le T.pos) le_rfl, Function.comp_apply,
    Option.map_map]
  exact Option.map_id'.symm

/-- A vector of bytes, or a script. -/
def bytesCodec : Codec (List UInt8) := stringCodec.withGet unserializeBytes unserializeBytes_eq

/-- A vector of objects. -/
def objectsCodec {α : Type} (T : ElementSize) (F : Codec α) : Codec (List α) :=
  (vectorCodec F).withGet (unserializeVector T F) (unserializeVector_eq T F)

theorem canonical_bytesCodec : bytesCodec.Canonical := by
  refine Canonical.withGet (Canonical.imap ?_ ?_) _
  · exact canonical_sizeCodec.bind fun n _ ↦ canonical_raw n
  · rintro ⟨n, l⟩ ⟨-, hl⟩
    exact Prod.ext hl rfl

theorem canonical_objectsCodec {α : Type} (T : ElementSize) {F : Codec α} (hF : F.Canonical) :
    (objectsCodec T F).Canonical := by
  refine Canonical.withGet (Canonical.imap ?_ ?_) _
  · exact canonical_sizeCodec.bind fun n _ ↦ hF.many n
  · rintro ⟨n, l⟩ ⟨-, hl, -⟩
    exact Prod.ext hl rfl

theorem valid_bytesCodec {l : List UInt8} : bytesCodec.Valid l ↔ l.length ≤ MAX_SIZE :=
  ⟨fun h ↦ h.1.1, fun h ↦ ⟨⟨h, rfl⟩, rfl⟩⟩

theorem valid_objectsCodec {α : Type} {T : ElementSize} {F : Codec α} {l : List α} :
    (objectsCodec T F).Valid l ↔ l.length ≤ MAX_SIZE ∧ ∀ a ∈ l, F.Valid a :=
  ⟨fun h ↦ ⟨h.1.1, h.1.2.2⟩, fun h ↦ ⟨⟨h.1, rfl, h.2⟩, rfl⟩⟩

/-! ## The records

What `IMPLEMENT_SERIALIZE` reads and writes, a member at a time, and the size that it tells. -/

/-- The size of a vector of bytes -/
def getSerializeSizeBytes (v : List UInt8) : UInt32 :=
  UInt32.ofNat (getSizeOfCompactSize v.length + v.length)

/-- The size of a vector of objects -/
def getSerializeSizeVector {α : Type} (getSerializeSize : α → UInt32) (v : List α) : UInt32 :=
  v.foldl (fun nSize a ↦ nSize + getSerializeSize a) (UInt32.ofNat (getSizeOfCompactSize v.length))

def COutPoint.implementSerialize : Codec COutPoint :=
  ((uint 32).prod (uint 4)).imap (fun p ↦ ⟨p.1, p.2⟩) fun o ↦ (o.hash, o.n)

/-- The size of the structure, a hash and a number. -/
def COutPoint.getSerializeSize (_ : COutPoint) : UInt32 := 36

namespace CTxIn

def implementSerialize : Codec CTxIn :=
  (COutPoint.implementSerialize.prod (bytesCodec.prod (uint 4))).imap
    (fun p ↦ ⟨p.1, p.2.1, p.2.2⟩) fun txin ↦ (txin.prevout, txin.scriptSig, txin.nSequence)

def getSerializeSize (txin : CTxIn) : UInt32 :=
  txin.prevout.getSerializeSize + getSerializeSizeBytes txin.scriptSig + 4

end CTxIn

namespace CTxOut

def implementSerialize : Codec CTxOut :=
  ((int 8).prod bytesCodec).imap (fun p ↦ ⟨p.1, p.2⟩) fun txout ↦
    (txout.nValue, txout.scriptPubKey)

def getSerializeSize (txout : CTxOut) : UInt32 := 8 + getSerializeSizeBytes txout.scriptPubKey

end CTxOut

/-- What the compiler says about the classes that are in vectors. -/
structure ElementSizes where
  txIn : ElementSize
  txOut : ElementSize
  tx : ElementSize

namespace CTransaction

def implementSerialize (T : ElementSizes) : Codec CTransaction :=
  ((int 4).prod ((uint 4).prod ((objectsCodec T.txIn CTxIn.implementSerialize).prod
    ((objectsCodec T.txOut CTxOut.implementSerialize).prod (uint 4))))).imap
    (fun p ↦ ⟨p.1, p.2.1, p.2.2.1, p.2.2.2.1, p.2.2.2.2⟩)
    fun tx ↦ (tx.nVersion, tx.nTime, tx.vin, tx.vout, tx.nLockTime)

def getSerializeSize (tx : CTransaction) : UInt32 :=
  4 + 4 + getSerializeSizeVector CTxIn.getSerializeSize tx.vin +
    getSerializeSizeVector CTxOut.getSerializeSize tx.vout + 4

end CTransaction

def CBlockHeader.implementSerialize : Codec CBlockHeader :=
  ((int 4).prod ((uint 32).prod ((uint 32).prod ((uint 4).prod ((uint 4).prod (uint 4)))))).imap
    (fun p ↦ ⟨p.1, p.2.1, p.2.2.1, p.2.2.2.1, p.2.2.2.2.1, p.2.2.2.2.2⟩)
    fun h ↦ (h.nVersion, h.hashPrevBlock, h.hashMerkleRoot, h.nTime, h.nBits, h.nNonce)

def SER_GETHASH : BitVec 32 := 1 <<< 2
def SER_BLOCKHEADERONLY : BitVec 32 := 1 <<< 17

namespace CBlock

/-- A block of which only the header is written. -/
def headerOnly (nType : BitVec 32) : Bool := nType &&& (SER_GETHASH ||| SER_BLOCKHEADERONLY) ≠ 0

/-- The members that are not read are cleared. -/
def implementSerialize (T : ElementSizes) (nType : BitVec 32) : Codec CBlock :=
  if headerOnly nType then
    CBlockHeader.implementSerialize.imap (fun h ↦ ⟨h, [], []⟩) CBlock.toCBlockHeader
  else
    (CBlockHeader.implementSerialize.prod
      ((objectsCodec T.tx (CTransaction.implementSerialize T)).prod bytesCodec)).imap
      (fun p ↦ ⟨p.1, p.2.1, p.2.2⟩)
      fun block ↦ (block.toCBlockHeader, block.vtx, block.vchBlockSig)

def getSerializeSize (nType : BitVec 32) (block : CBlock) : UInt32 :=
  let nSerSize : UInt32 := 4 + 32 + 32 + 4 + 4 + 4
  if headerOnly nType then nSerSize
  else nSerSize + getSerializeSizeVector CTransaction.getSerializeSize block.vtx +
    getSerializeSizeBytes block.vchBlockSig

end CBlock

/-! ## What can be written -/

/-- The members fit in the types that they have. -/
def COutPoint.Writable (o : COutPoint) : Prop := o.hash < 2 ^ 256 ∧ o.n < 2 ^ 32

/-- An `int` of four bytes -/
def InInt32 (x : ℤ) : Prop := -2 ^ 31 ≤ x ∧ x < 2 ^ 31

structure CTxIn.Writable (txin : CTxIn) : Prop where
  prevout : txin.prevout.Writable
  scriptSig : txin.scriptSig.length ≤ MAX_SIZE
  nSequence : txin.nSequence < 2 ^ 32

structure CTxOut.Writable (txout : CTxOut) : Prop where
  nValue : InInt64 txout.nValue
  scriptPubKey : txout.scriptPubKey.length ≤ MAX_SIZE

/-- The members fit in the types that they have, and the vectors are not too long to be read. -/
structure CTransaction.Writable (tx : CTransaction) : Prop where
  nVersion : InInt32 tx.nVersion
  nTime : tx.nTime < 2 ^ 32
  vin : tx.vin.length ≤ MAX_SIZE ∧ ∀ txin ∈ tx.vin, txin.Writable
  vout : tx.vout.length ≤ MAX_SIZE ∧ ∀ txout ∈ tx.vout, txout.Writable
  nLockTime : tx.nLockTime < 2 ^ 32

structure CBlockHeader.Writable (h : CBlockHeader) : Prop where
  nVersion : InInt32 h.nVersion
  hashPrevBlock : h.hashPrevBlock < 2 ^ 256
  hashMerkleRoot : h.hashMerkleRoot < 2 ^ 256
  nTime : h.nTime < 2 ^ 32
  nBits : h.nBits < 2 ^ 32
  nNonce : h.nNonce < 2 ^ 32

structure CBlock.Writable (block : CBlock) : Prop where
  header : block.toCBlockHeader.Writable
  vtx : block.vtx.length ≤ MAX_SIZE ∧ ∀ tx ∈ block.vtx, tx.Writable
  vchBlockSig : block.vchBlockSig.length ≤ MAX_SIZE

/-! ### The codecs write just that -/

section

variable {T : ElementSizes}

theorem valid_int32_iff {x : ℤ} : (Codec.int 4).Valid x ↔ InInt32 x := by
  rw [valid_int_iff, InInt32]
  omega

theorem valid_int64_iff {x : ℤ} : (Codec.int 8).Valid x ↔ InInt64 x := by
  rw [valid_int_iff, InInt64]
  omega

theorem COutPoint.valid_iff {o : COutPoint} : implementSerialize.Valid o ↔ o.Writable := by
  have hhash : (256 : ℕ) ^ 32 = 2 ^ 256 := by norm_num
  refine ⟨fun h ↦ ?_, fun h ↦ ⟨⟨?_, h.2⟩, rfl⟩⟩
  · obtain ⟨⟨h₁, h₂⟩, -⟩ := h
    have h₁ : o.hash < 256 ^ 32 := h₁
    exact ⟨hhash ▸ h₁, h₂⟩
  · show o.hash < 256 ^ 32
    exact hhash ▸ h.1

theorem CTxIn.valid_iff {txin : CTxIn} : implementSerialize.Valid txin ↔ txin.Writable := by
  constructor
  · rintro ⟨⟨h₁, h₂, h₃⟩, -⟩
    exact ⟨COutPoint.valid_iff.1 h₁, valid_bytesCodec.1 h₂, h₃⟩
  · rintro ⟨h₁, h₂, h₃⟩
    exact ⟨⟨COutPoint.valid_iff.2 h₁, valid_bytesCodec.2 h₂, h₃⟩, rfl⟩

theorem CTxOut.valid_iff {txout : CTxOut} : implementSerialize.Valid txout ↔ txout.Writable := by
  constructor
  · rintro ⟨⟨h₁, h₂⟩, -⟩
    exact ⟨valid_int64_iff.1 h₁, valid_bytesCodec.1 h₂⟩
  · rintro ⟨h₁, h₂⟩
    exact ⟨⟨valid_int64_iff.2 h₁, valid_bytesCodec.2 h₂⟩, rfl⟩

theorem CTransaction.valid_iff {tx : CTransaction} :
    (implementSerialize T).Valid tx ↔ tx.Writable := by
  constructor
  · rintro ⟨⟨h₁, h₂, h₃, h₄, h₅⟩, -⟩
    obtain ⟨hin, hins⟩ := valid_objectsCodec.1 h₃
    obtain ⟨hout, houts⟩ := valid_objectsCodec.1 h₄
    exact ⟨valid_int32_iff.1 h₁, h₂, ⟨hin, fun a ha ↦ CTxIn.valid_iff.1 (hins a ha)⟩,
      ⟨hout, fun a ha ↦ CTxOut.valid_iff.1 (houts a ha)⟩, h₅⟩
  · rintro ⟨h₁, h₂, ⟨hin, hins⟩, ⟨hout, houts⟩, h₅⟩
    exact ⟨⟨valid_int32_iff.2 h₁, h₂,
      valid_objectsCodec.2 ⟨hin, fun a ha ↦ CTxIn.valid_iff.2 (hins a ha)⟩,
      valid_objectsCodec.2 ⟨hout, fun a ha ↦ CTxOut.valid_iff.2 (houts a ha)⟩, h₅⟩, rfl⟩

theorem CBlockHeader.valid_iff {h : CBlockHeader} : implementSerialize.Valid h ↔ h.Writable := by
  have hhash : (256 : ℕ) ^ 32 = 2 ^ 256 := by norm_num
  constructor
  · rintro ⟨⟨h₁, h₂, h₃, h₄, h₅, h₆⟩, -⟩
    have h₂ : h.hashPrevBlock < 256 ^ 32 := h₂
    have h₃ : h.hashMerkleRoot < 256 ^ 32 := h₃
    exact ⟨valid_int32_iff.1 h₁, hhash ▸ h₂, hhash ▸ h₃, h₄, h₅, h₆⟩
  · rintro ⟨h₁, h₂, h₃, h₄, h₅, h₆⟩
    have h₂ : h.hashPrevBlock < 256 ^ 32 := hhash ▸ h₂
    have h₃ : h.hashMerkleRoot < 256 ^ 32 := hhash ▸ h₃
    exact ⟨⟨valid_int32_iff.2 h₁, h₂, h₃, h₄, h₅, h₆⟩, rfl⟩

/-- What is left of a block of which only some is written. -/
def CBlock.written (nType : BitVec 32) (block : CBlock) : CBlock :=
  if headerOnly nType then ⟨block.toCBlockHeader, [], []⟩ else block

theorem CBlock.valid_written {nType : BitVec 32} {block : CBlock} (h : block.Writable) :
    (implementSerialize T nType).Valid (block.written nType) := by
  rw [implementSerialize, written]
  split
  · exact ⟨CBlockHeader.valid_iff.2 h.header, rfl⟩
  · exact ⟨⟨CBlockHeader.valid_iff.2 h.header, valid_objectsCodec.2 ⟨h.vtx.1, fun tx htx ↦
      CTransaction.valid_iff.2 (h.vtx.2 tx htx)⟩, valid_bytesCodec.2 h.vchBlockSig⟩, rfl⟩

theorem CBlock.writable_of_valid {nType : BitVec 32} {block : CBlock}
    (h : (implementSerialize T nType).Valid block) :
    block.Writable ∧ block.written nType = block := by
  rw [implementSerialize] at h
  rw [written]
  split at h
  · rename_i htype
    obtain ⟨hheader, hblock⟩ := h
    have hblock : (⟨block.toCBlockHeader, [], []⟩ : CBlock) = block := hblock
    rw [if_pos htype]
    refine ⟨?_, hblock⟩
    rw [← hblock]
    exact ⟨CBlockHeader.valid_iff.1 hheader, ⟨Nat.zero_le _, List.forall_mem_nil _⟩,
      Nat.zero_le _⟩
  · rename_i htype
    obtain ⟨⟨hheader, hvtx, hsig⟩, -⟩ := h
    obtain ⟨hlen, hall⟩ := valid_objectsCodec.1 hvtx
    rw [if_neg htype]
    exact ⟨⟨CBlockHeader.valid_iff.1 hheader,
      ⟨hlen, fun tx htx ↦ CTransaction.valid_iff.1 (hall tx htx)⟩, valid_bytesCodec.1 hsig⟩, rfl⟩

/-! ### They read nothing else -/

theorem COutPoint.canonical_implementSerialize : COutPoint.implementSerialize.Canonical :=
  Canonical.imap ((canonical_uint 32).prod (canonical_uint 4)) fun _ _ ↦ rfl

theorem CTxIn.canonical_implementSerialize : CTxIn.implementSerialize.Canonical :=
  Canonical.imap (COutPoint.canonical_implementSerialize.prod
    (canonical_bytesCodec.prod (canonical_uint 4))) fun _ _ ↦ rfl

theorem CTxOut.canonical_implementSerialize : CTxOut.implementSerialize.Canonical :=
  Canonical.imap ((canonical_int 8).prod canonical_bytesCodec) fun _ _ ↦ rfl

theorem CTransaction.canonical_implementSerialize (T : ElementSizes) :
    (implementSerialize T).Canonical :=
  Canonical.imap ((canonical_int 4).prod ((canonical_uint 4).prod
    ((canonical_objectsCodec T.txIn CTxIn.canonical_implementSerialize).prod
      ((canonical_objectsCodec T.txOut CTxOut.canonical_implementSerialize).prod
        (canonical_uint 4))))) fun _ _ ↦ rfl

theorem CBlockHeader.canonical_implementSerialize : CBlockHeader.implementSerialize.Canonical :=
  Canonical.imap ((canonical_int 4).prod ((canonical_uint 32).prod ((canonical_uint 32).prod
    ((canonical_uint 4).prod ((canonical_uint 4).prod (canonical_uint 4)))))) fun _ _ ↦ rfl

theorem CBlock.canonical_implementSerialize (T : ElementSizes) (nType : BitVec 32) :
    (implementSerialize T nType).Canonical := by
  rw [implementSerialize]
  split
  · exact Canonical.imap CBlockHeader.canonical_implementSerialize fun _ _ ↦ rfl
  · exact Canonical.imap (CBlockHeader.canonical_implementSerialize.prod
      ((canonical_objectsCodec T.tx (CTransaction.canonical_implementSerialize T)).prod
        canonical_bytesCodec)) fun _ _ ↦ rfl

/-! ### The size -/

theorem length_put_bytesCodec (v : List UInt8) :
    (bytesCodec.put v).length = getSizeOfCompactSize v.length + v.length := by
  show (compactSize.put v.length ++ v).length = _
  rw [List.length_append, length_put_compactSize]

theorem length_put_objectsCodec {α : Type} (T : ElementSize) {F : Codec α} {size : α → ℕ}
    (h : ∀ a, (F.put a).length = size a) (v : List α) :
    ((objectsCodec T F).put v).length = getSizeOfCompactSize v.length + (v.map size).sum := by
  show (compactSize.put v.length ++ v.flatMap F.put).length = _
  rw [List.length_append, length_put_compactSize, List.length_flatMap, funext h]

theorem getSerializeSizeVector_eq {α : Type} {getSerializeSize : α → UInt32} {size : α → ℕ}
    (h : ∀ a, getSerializeSize a = UInt32.ofNat (size a)) (v : List α) :
    getSerializeSizeVector getSerializeSize v =
      UInt32.ofNat (getSizeOfCompactSize v.length + (v.map size).sum) := by
  rw [getSerializeSizeVector]
  generalize getSizeOfCompactSize v.length = nSize
  induction v generalizing nSize with
  | nil => rfl
  | cons a v ih =>
    rw [List.foldl_cons, h, ← UInt32.ofNat_add, ih, List.map_cons, List.sum_cons, Nat.add_assoc]

theorem length_put_int (n : ℕ) (x : ℤ) : ((Codec.int n).put x).length = n := length_toLE ..

theorem length_put_uint (n x : ℕ) : ((Codec.uint n).put x).length = n := length_toLE ..

namespace CTxIn

theorem length_put (txin : CTxIn) : (implementSerialize.put txin).length = txin.serializeSize := by
  show (COutPoint.implementSerialize.put txin.prevout ++
    (bytesCodec.put txin.scriptSig ++ (Codec.uint 4).put txin.nSequence)).length = _
  have hprevout : (COutPoint.implementSerialize.put txin.prevout).length = 32 + 4 := by
    show ((Codec.uint 32).put txin.prevout.hash ++ (Codec.uint 4).put txin.prevout.n).length = _
    rw [List.length_append, length_put_uint, length_put_uint]
  rw [List.length_append, List.length_append, hprevout, length_put_bytesCodec, length_put_uint,
    serializeSize]
  omega

theorem getSerializeSize_eq (txin : CTxIn) :
    txin.getSerializeSize = UInt32.ofNat txin.serializeSize := by
  rw [serializeSize, UInt32.ofNat_add, UInt32.ofNat_add]
  rfl

end CTxIn

namespace CTxOut

theorem length_put (txout : CTxOut) :
    (implementSerialize.put txout).length = txout.serializeSize := by
  show ((Codec.int 8).put txout.nValue ++ bytesCodec.put txout.scriptPubKey).length = _
  rw [List.length_append, length_put_int, length_put_bytesCodec, serializeSize]

theorem getSerializeSize_eq (txout : CTxOut) :
    txout.getSerializeSize = UInt32.ofNat txout.serializeSize := by
  rw [serializeSize, UInt32.ofNat_add]
  rfl

end CTxOut

namespace CTransaction

theorem length_put (tx : CTransaction) :
    ((implementSerialize T).put tx).length = tx.serializeSize := by
  show ((Codec.int 4).put tx.nVersion ++ ((Codec.uint 4).put tx.nTime ++
    ((objectsCodec T.txIn CTxIn.implementSerialize).put tx.vin ++
      ((objectsCodec T.txOut CTxOut.implementSerialize).put tx.vout ++
        (Codec.uint 4).put tx.nLockTime)))).length = _
  simp only [List.length_append, length_put_int, length_put_uint,
    length_put_objectsCodec _ CTxIn.length_put, length_put_objectsCodec _ CTxOut.length_put,
    serializeSize]
  omega

theorem getSerializeSize_eq (tx : CTransaction) :
    tx.getSerializeSize = UInt32.ofNat tx.serializeSize := by
  rw [getSerializeSize, getSerializeSizeVector_eq CTxIn.getSerializeSize_eq,
    getSerializeSizeVector_eq CTxOut.getSerializeSize_eq, serializeSize]
  simp only [UInt32.ofNat_add]
  rfl

end CTransaction

namespace CBlock

theorem length_put_header (h : CBlockHeader) :
    (CBlockHeader.implementSerialize.put h).length = headerSize := by
  show ((Codec.int 4).put h.nVersion ++ ((Codec.uint 32).put h.hashPrevBlock ++
    ((Codec.uint 32).put h.hashMerkleRoot ++ ((Codec.uint 4).put h.nTime ++
      ((Codec.uint 4).put h.nBits ++ (Codec.uint 4).put h.nNonce))))).length = _
  simp only [List.length_append, length_put_int, length_put_uint, headerSize]

/-- The whole block is as long as the checks of the block say. -/
theorem length_put {nType : BitVec 32} (block : CBlock) :
    ((implementSerialize T nType).put block).length =
      if headerOnly nType then headerSize else block.serializeSize := by
  rw [implementSerialize]
  split
  · exact length_put_header _
  · show (CBlockHeader.implementSerialize.put block.toCBlockHeader ++
      ((objectsCodec T.tx (CTransaction.implementSerialize T)).put block.vtx ++
        bytesCodec.put block.vchBlockSig)).length = _
    simp only [List.length_append, length_put_header,
      length_put_objectsCodec _ CTransaction.length_put, length_put_bytesCodec, serializeSize]
    omega

theorem getSerializeSize_eq (nType : BitVec 32) (block : CBlock) :
    block.getSerializeSize nType =
      UInt32.ofNat (if headerOnly nType then headerSize else block.serializeSize) := by
  rw [getSerializeSize]
  split
  · rfl
  · rw [getSerializeSizeVector_eq CTransaction.getSerializeSize_eq, getSerializeSizeBytes,
      serializeSize, UInt32.ofNat_add (headerSize + _), UInt32.ofNat_add headerSize]
    rfl

end CBlock

theorem CBlock.put_written (nType : BitVec 32) (block : CBlock) :
    (implementSerialize T nType).put (block.written nType) =
      (implementSerialize T nType).put block := by
  rw [implementSerialize, written]
  split <;> rfl

theorem toNat_ofNat_length (n : ℕ) : (UInt32.ofNat n).toNat = n % 2 ^ 32 := UInt32.toNat_ofNat'

end

/-! ## The round trips -/

/-- **What was written is read back, what is read is what would have been written, and the size is
the number of the bytes modulo `2 ^ 32`**, for transactions and for blocks.  Where only the header
of a block is written, the rest of it is cleared. -/
theorem implementSerialize_correct (T : ElementSizes) :
    ((∀ tx : CTransaction, tx.Writable → ∀ rest,
        (CTransaction.implementSerialize T).get
          ((CTransaction.implementSerialize T).put tx ++ rest) = some (tx, rest)) ∧
      (∀ tx : CTransaction, tx.getSerializeSize.toNat =
        ((CTransaction.implementSerialize T).put tx).length % 2 ^ 32) ∧
      (∀ bytes tx rest, (CTransaction.implementSerialize T).get bytes = some (tx, rest) →
        tx.Writable ∧ bytes = (CTransaction.implementSerialize T).put tx ++ rest) ∧
      ∀ bytes bytes' tx, (CTransaction.implementSerialize T).get bytes = some (tx, []) →
        (CTransaction.implementSerialize T).get bytes' = some (tx, []) → bytes = bytes') ∧
    ∀ nType : BitVec 32,
      (∀ block : CBlock, block.Writable → ∀ rest,
        (CBlock.implementSerialize T nType).get
          ((CBlock.implementSerialize T nType).put block ++ rest) =
            some (if CBlock.headerOnly nType then ⟨block.toCBlockHeader, [], []⟩ else block,
              rest)) ∧
      (∀ block : CBlock, (block.getSerializeSize nType).toNat =
        ((CBlock.implementSerialize T nType).put block).length % 2 ^ 32) ∧
      ∀ bytes block rest, (CBlock.implementSerialize T nType).get bytes = some (block, rest) →
        block.Writable ∧ bytes = (CBlock.implementSerialize T nType).put block ++ rest := by
  refine ⟨⟨fun tx h rest ↦ ?_, fun tx ↦ ?_, fun bytes tx rest h ↦ ?_, fun _ _ tx h h' ↦ ?_⟩,
    fun nType ↦ ⟨fun block h rest ↦ ?_, fun block ↦ ?_, fun bytes block rest h ↦ ?_⟩⟩
  · exact (CTransaction.implementSerialize T).get_put (CTransaction.valid_iff.2 h) rest
  · rw [CTransaction.getSerializeSize_eq, CTransaction.length_put, toNat_ofNat_length]
  · obtain ⟨hvalid, hbytes⟩ := CTransaction.canonical_implementSerialize T h
    exact ⟨CTransaction.valid_iff.1 hvalid, hbytes⟩
  · exact (CTransaction.canonical_implementSerialize T).bytes_inj h h'
  · rw [← CBlock.put_written]
    exact (CBlock.implementSerialize T nType).get_put (CBlock.valid_written h) rest
  · rw [CBlock.getSerializeSize_eq, CBlock.length_put, toNat_ofNat_length]
  · obtain ⟨hvalid, hbytes⟩ := CBlock.canonical_implementSerialize T nType h
    exact ⟨(CBlock.writable_of_valid hvalid).1, hbytes⟩

namespace Sample

/-- The classes as they are with pointers of eight bytes. -/
def elementSizes : ElementSizes :=
  ⟨⟨72, Nat.le_of_ble_eq_true rfl, Nat.le_of_ble_eq_true rfl⟩,
    ⟨32, Nat.le_of_ble_eq_true rfl, Nat.le_of_ble_eq_true rfl⟩,
    ⟨64, Nat.le_of_ble_eq_true rfl, Nat.le_of_ble_eq_true rfl⟩⟩

/-- A block with one transaction and a signature of one byte. -/
def smallBlock : CBlock where
  nVersion := 7
  hashPrevBlock := 1
  hashMerkleRoot := 2
  nTime := 3
  nBits := 4
  nNonce := 5
  vtx := [⟨1, 6, [⟨⟨7, 8⟩, [9], 10⟩], [⟨-1, [11, 12]⟩], 13⟩]
  vchBlockSig := [14]

theorem writable_smallBlock : smallBlock.Writable := by
  refine ⟨⟨?_, ?_, ?_, ?_, ?_, ?_⟩, ⟨by decide, ?_⟩, by decide⟩
  · constructor <;> decide
  any_goals decide
  intro tx htx
  obtain rfl := List.mem_singleton.1 htx
  refine ⟨⟨by decide, by decide⟩, by decide, ⟨by decide, ?_⟩, ⟨by decide, ?_⟩, by decide⟩
  · intro txin htxin
    obtain rfl := List.mem_singleton.1 htxin
    exact ⟨⟨by decide, by decide⟩, by decide, by decide⟩
  · intro txout htxout
    obtain rfl := List.mem_singleton.1 htxout
    exact ⟨by decide, by decide⟩

/-- A transaction with many inputs that have the same script. -/
def repeated (k : ℕ) (scriptSig : CScript) : CTransaction where
  nVersion := 1
  nTime := 0
  vin := List.replicate k ⟨⟨0, 0⟩, scriptSig, 0⟩
  vout := []
  nLockTime := 0

theorem writable_repeated {k : ℕ} {scriptSig : CScript} (hk : k ≤ MAX_SIZE)
    (hscript : scriptSig.length ≤ MAX_SIZE) : (repeated k scriptSig).Writable := by
  have hlen : (repeated k scriptSig).vin.length = k := List.length_replicate
  have hversion : InInt32 1 := ⟨by decide, by decide⟩
  have hnull : COutPoint.Writable ⟨0, 0⟩ := ⟨by decide, by decide⟩
  have hzero : 0 < 2 ^ 32 := by decide
  refine ⟨hversion, hzero, ⟨hlen.le.trans hk, fun txin htxin ↦ ?_⟩,
    ⟨Nat.zero_le _, List.forall_mem_nil _⟩, hzero⟩
  rw [List.eq_of_mem_replicate htxin]
  exact ⟨hnull, hscript, hzero⟩

theorem le_serializeSize_repeated (k : ℕ) (scriptSig : CScript) :
    k * scriptSig.length ≤ (repeated k scriptSig).serializeSize := by
  have hinput : scriptSig.length ≤ CTxIn.serializeSize ⟨⟨0, 0⟩, scriptSig, 0⟩ := by
    rw [CTxIn.serializeSize]
    dsimp only
    omega
  have hmul := Nat.mul_le_mul_left k hinput
  rw [CTransaction.serializeSize, repeated, List.map_replicate, List.sum_replicate, smul_eq_mul]
  omega

end Sample

theorem implementSerialize_correct_sample :
    (CBlock.implementSerialize Sample.elementSizes 0).get
      ((CBlock.implementSerialize Sample.elementSizes 0).put Sample.smallBlock ++ [15]) =
        some (Sample.smallBlock, [15]) :=
  ((implementSerialize_correct Sample.elementSizes).2 0).1 Sample.smallBlock
    Sample.writable_smallBlock [15]

/-- The size of a large transaction is not the number of its bytes, and a block is not read back
where only its header was written. -/
theorem not_implementSerialize_exact :
    (¬ ∀ tx : CTransaction, tx.Writable → tx.getSerializeSize.toNat =
      ((CTransaction.implementSerialize Sample.elementSizes).put tx).length) ∧
    ¬ ∀ block : CBlock, block.Writable →
      (CBlock.implementSerialize Sample.elementSizes SER_BLOCKHEADERONLY).get
        ((CBlock.implementSerialize Sample.elementSizes SER_BLOCKHEADERONLY).put block ++ []) =
          some (block, []) := by
  refine ⟨fun h ↦ ?_, fun h ↦ ?_⟩
  · obtain ⟨scriptSig, hscript⟩ : ∃ l : CScript, l.length = MAX_SIZE :=
      ⟨List.replicate MAX_SIZE 0, List.length_replicate⟩
    -- the scripts alone are as long as four gigabytes
    have hle := Sample.le_serializeSize_repeated 128 scriptSig
    have hsize := h _ (Sample.writable_repeated (k := 128) (by decide) hscript.le)
    rw [CTransaction.length_put] at hsize
    have hlt := UInt32.toNat_lt (Sample.repeated 128 scriptSig).getSerializeSize
    rw [hscript, MAX_SIZE] at hle
    omega
  · have hget := h _ Sample.writable_smallBlock
    rw [← CBlock.put_written, (CBlock.implementSerialize _ _).get_put
      (CBlock.valid_written Sample.writable_smallBlock)] at hget
    have hblock := (Prod.mk.inj (Option.some.inj hget)).1
    exact absurd (congrArg CBlock.vchBlockSig hblock) (by decide)

end Bws
