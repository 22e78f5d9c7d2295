import Bws.Base58
import Bws.TxSerialize
import Bws.Wallet
import Bws.Lib.Decimal
import Std.Data.ExtTreeMap

/-!
# Records of the wallet as bytes

`CWalletTx` and `CAccountingEntry` have members that the format had no place for.  They are put
into `mapValue` while the record is written, or its size is counted, and taken out again; an
accounting entry writes the map itself after a zero byte behind its comment, and keeps what follows
the map for later versions.

What is written is read back where no string and no vector is longer than `MAX_SIZE`, which the
reader refuses (`CWalletTxRecord.unserialize_written`, `CAccountingEntry.unserialize_written`).
-/

namespace Bws

open Codec

/-! ## The source -/

/-- `mapValue_t`, a map from strings to strings -/
abbrev MapValue := Std.ExtTreeMap (List UInt8) (List UInt8)

/-- `strprintf("%d", n)` -/
def i64tostr (n : Int64) : List UInt8 :=
  if n < 0 then ascii "-" ++ Decimal.text n.toInt.natAbs else Decimal.text n.toInt.natAbs

/-- `strtoll`, to the base of ten; it stops at the limits of the type. -/
def atoi64 (psz : List UInt8) : Int64 :=
  match psz.dropWhile isspace with
  | [] => 0
  | c :: rest =>
    if c = 0x2d then Int64.ofInt (max (-2 ^ 63) (-(Decimal.leading 0 rest : ℤ)))
    else if c = 0x2b then Int64.ofInt (min (2 ^ 63 - 1) (Decimal.leading 0 rest))
    else Int64.ofInt (min (2 ^ 63 - 1) (Decimal.leading 0 (c :: rest)))

def readOrderPos (mapValue : MapValue) : Int64 :=
  match mapValue[ascii "n"]? with
  | none => -1
  | some n => atoi64 n

def writeOrderPos (nOrderPos : Int64) (mapValue : MapValue) : MapValue :=
  if nOrderPos = -1 then mapValue else mapValue.insert (ascii "n") (i64tostr nOrderPos)

def readTimeSmart (mapValue : MapValue) : UInt32 :=
  match mapValue[ascii "timesmart"]? with
  | none => 0
  | some timesmart => UInt32.ofInt (atoi64 timesmart).toInt

/-- The flags of the outputs; a record of an older version has one for all of them. -/
def readSpent (mapValue : MapValue) (nOut : ℕ) (fSpent : UInt8) : List Bool :=
  match mapValue[ascii "spent"]? with
  | none => List.replicate nOut (fSpent ≠ 0)
  | some spent => spent.map fun c ↦ c ≠ 0x30

/-- What the compiler says about the classes in the vectors of a wallet transaction. -/
structure WalletSizes extends ElementSizes where
  hash : ElementSize
  merkleTx : ElementSize
  pair : ElementSize

/-- A `std::pair` of strings -/
def pairCodec : Codec (List UInt8 × List UInt8) := stringCodec.prod stringCodec

/-- A map; an entry whose key is there already is dropped. -/
def mapCodec : Codec MapValue :=
  (vectorCodec pairCodec).imap (fun l ↦ l.foldl (fun m item ↦ m.insertIfNew item.1 item.2) ∅)
    fun m ↦ m.toList

def getSerializeSizePair (item : List UInt8 × List UInt8) : UInt32 :=
  getSerializeSizeBytes item.1 + getSerializeSizeBytes item.2

def getSerializeSizeMap (m : MapValue) : UInt32 :=
  getSerializeSizeVector getSerializeSizePair m.toList

namespace CMerkleTx

def implementSerialize (T : WalletSizes) : Codec CMerkleTx :=
  ((CTransaction.implementSerialize T.toElementSizes).prod ((uint 32).prod
    ((objectsCodec T.hash (uint 32)).prod (int 4)))).imap
    (fun p ↦ ⟨p.1, p.2.1, p.2.2.1, p.2.2.2⟩)
    fun tx ↦ (tx.toCTransaction, tx.hashBlock, tx.vMerkleBranch, tx.nIndex)

def getSerializeSize (tx : CMerkleTx) : UInt32 :=
  tx.toCTransaction.getSerializeSize + 32 +
    getSerializeSizeVector (fun _ ↦ 32) tx.vMerkleBranch + 4

end CMerkleTx

/-- A `char` -/
def charCodec : Codec UInt8 := (uint 1).imap UInt8.ofNat UInt8.toNat

/-- A `CWalletTx` with all that is stored of it. -/
structure CWalletTxRecord extends CMerkleTx where
  vtxPrev : List CMerkleTx
  mapValue : MapValue
  vOrderForm : List (List UInt8 × List UInt8)
  fTimeReceivedIsTxTime : UInt32
  nTimeReceived : UInt32
  nTimeSmart : UInt32
  fFromMe : UInt8
  strFromAccount : List UInt8
  vfSpent : List Bool
  nOrderPos : Int64

namespace CWalletTxRecord

/-- The members between the first and the last `READWRITE`. -/
def members (T : WalletSizes) : Codec (CMerkleTx × List CMerkleTx × MapValue ×
    List (List UInt8 × List UInt8) × UInt32 × UInt32 × UInt8 × UInt8) :=
  (CMerkleTx.implementSerialize T).prod
    ((objectsCodec T.merkleTx (CMerkleTx.implementSerialize T)).prod (mapCodec.prod
      ((objectsCodec T.pair pairCodec).prod (uint32.prod (uint32.prod
        (charCodec.prod charCodec))))))

/-- `mapValue` before the members are written. -/
def writtenMap (pthis : CWalletTxRecord) : MapValue :=
  let mapValue := pthis.mapValue.insert (ascii "fromaccount") pthis.strFromAccount
  let mapValue := mapValue.insert (ascii "spent")
    (pthis.vfSpent.map fun f ↦ if f then 0x31 else 0x30)
  let mapValue := writeOrderPos pthis.nOrderPos mapValue
  if pthis.nTimeSmart ≠ 0 then
    mapValue.insert (ascii "timesmart") (Decimal.text pthis.nTimeSmart.toNat)
  else mapValue

/-- Whether an output is spent; older versions look at this. -/
def fSpent (wtx : CWalletTxRecord) : UInt8 := if wtx.vfSpent.any id then 1 else 0

/-- `mapValue` after the members are written or read. -/
def eraseReserved (mapValue : MapValue) : MapValue :=
  ((((mapValue.erase (ascii "fromaccount")).erase (ascii "version")).erase (ascii "spent")).erase
    (ascii "n")).erase (ascii "timesmart")

/-- `Serialize`: the record afterwards, and the bytes. -/
def serialize (T : WalletSizes) (wtx : CWalletTxRecord) : CWalletTxRecord × List UInt8 :=
  let pthis := { wtx with mapValue := wtx.writtenMap }
  let bytes := (members T).put (pthis.toCMerkleTx, pthis.vtxPrev, pthis.mapValue, pthis.vOrderForm,
    pthis.fTimeReceivedIsTxTime, pthis.nTimeReceived, pthis.fFromMe, wtx.fSpent)
  ({ pthis with mapValue := eraseReserved pthis.mapValue }, bytes)

/-- `GetSerializeSize`: the record afterwards, and the size. -/
def getSerializeSize (wtx : CWalletTxRecord) : CWalletTxRecord × UInt32 :=
  let pthis := { wtx with mapValue := wtx.writtenMap }
  let nSerSize := pthis.toCMerkleTx.getSerializeSize +
    getSerializeSizeVector CMerkleTx.getSerializeSize pthis.vtxPrev +
    getSerializeSizeMap pthis.mapValue +
    getSerializeSizeVector getSerializeSizePair pthis.vOrderForm + 4 + 4 + 1 + 1
  ({ pthis with mapValue := eraseReserved pthis.mapValue }, nSerSize)

/-- `Unserialize`; all members are cleared before. -/
def unserialize (T : WalletSizes) (bytes : List UInt8) :
    Option (CWalletTxRecord × List UInt8) :=
  ((members T).get bytes).map fun r ↦
    let (tx, vtxPrev, mapValue, vOrderForm, fTimeReceivedIsTxTime, nTimeReceived, fFromMe,
      fSpent) := r.1
    ({ tx with
      vtxPrev, vOrderForm, fTimeReceivedIsTxTime, nTimeReceived, fFromMe
      strFromAccount := mapValue[ascii "fromaccount"]?.getD []
      vfSpent := readSpent mapValue tx.vout.length fSpent
      nOrderPos := readOrderPos mapValue
      nTimeSmart := readTimeSmart mapValue
      mapValue := eraseReserved mapValue }, r.2)

end CWalletTxRecord

structure CAccountingEntry where
  strAccount : List UInt8
  nCreditDebit : Int64
  nTime : Int64
  strOtherAccount : List UInt8
  strComment : List UInt8
  mapValue : MapValue
  nOrderPos : Int64
  nEntryNo : UInt64
  /-- `_ssExtra` -/
  ssExtra : List UInt8

namespace CAccountingEntry

/-- The members that are read and written, first the version, which is left out for a hash. -/
def members (nType : BitVec 32) :
    Codec (Int32 × Int64 × Int64 × List UInt8 × List UInt8) :=
  let record : Codec (Int64 × Int64 × List UInt8 × List UInt8) :=
    Codec.int64.prod (Codec.int64.prod (stringCodec.prod stringCodec))
  if nType &&& SER_GETHASH = 0 then int32.prod record
  else record.imap (fun p ↦ (0, p)) Prod.snd

/-- The members before the comment is written. -/
def prepare (me : CAccountingEntry) : CAccountingEntry :=
  let me := { me with mapValue := writeOrderPos me.nOrderPos me.mapValue }
  if me.mapValue.isEmpty && me.ssExtra.isEmpty then me
  else { me with strComment := me.strComment ++ ([0] ++ mapCodec.put me.mapValue ++ me.ssExtra) }

/-- The members after the comment is written: it ends before the first zero again. -/
def restore (me : CAccountingEntry) : CAccountingEntry :=
  { me with
    strComment := me.strComment.takeWhile (· ≠ 0)
    mapValue := me.mapValue.erase (ascii "n") }

/-- `Serialize`: the entry afterwards, and the bytes. -/
def serialize (nType : BitVec 32) (nVersion : Int32) (me : CAccountingEntry) :
    CAccountingEntry × List UInt8 :=
  let written := me.prepare
  (written.restore, (members nType).put
    (nVersion, written.nCreditDebit, written.nTime, written.strOtherAccount, written.strComment))

/-- `GetSerializeSize`: the entry afterwards, and the size. -/
def getSerializeSize (nType : BitVec 32) (me : CAccountingEntry) : CAccountingEntry × UInt32 :=
  let written := me.prepare
  (written.restore, (if nType &&& SER_GETHASH = 0 then 4 else 0) + 8 + 8 +
    getSerializeSizeBytes written.strOtherAccount + getSerializeSizeBytes written.strComment)

/-- `Unserialize` into an entry; there is no result where an exception ends it. -/
def unserialize (nType : BitVec 32) (me : CAccountingEntry) (bytes : List UInt8) :
    Option (CAccountingEntry × List UInt8) := do
  let ((_, nCreditDebit, nTime, strOtherAccount, strComment), rest) ← (members nType).get bytes
  let me := { me with nCreditDebit, nTime, strOtherAccount, strComment, mapValue := ∅ }
  let me ←
    match strComment.dropWhile (· ≠ 0) with
    | [] => some me
    | _ :: ss => (mapCodec.get ss).map fun r ↦ { me with mapValue := r.1, ssExtra := r.2 }
  let me := { me with nOrderPos := readOrderPos me.mapValue }
  some (me.restore, rest)

end CAccountingEntry

/-! ## Texts of numbers -/

theorem atoi64_text {n : ℕ} (hn : n < 2 ^ 63) : atoi64 (Decimal.text n) = Int64.ofInt n := by
  obtain ⟨c, l, htext, hc⟩ := Decimal.exists_text_eq n
  obtain ⟨hspace, hminus, hplus, -⟩ := not_isspace_of_isDigit hc
  have hleading := Decimal.leading_text n
  rw [htext] at hleading
  rw [atoi64, htext, List.dropWhile_cons_of_neg (by rw [hspace]; decide)]
  dsimp only
  rw [if_neg hminus, if_neg hplus, hleading, min_eq_right (by omega)]

theorem atoi64_i64tostr (n : Int64) : atoi64 (i64tostr n) = n := by
  have hlo := n.le_toInt
  have hhi := n.toInt_lt
  rw [i64tostr]
  split_ifs with hneg
  · have hlt : n.toInt < 0 := Int64.lt_iff_toInt_lt.1 hneg
    have habs : max (-2 ^ 63) (-(n.toInt.natAbs : ℤ)) = n.toInt := by omega
    have hminus : ascii "-" ++ Decimal.text n.toInt.natAbs = 0x2d :: Decimal.text n.toInt.natAbs :=
      rfl
    rw [hminus, atoi64, List.dropWhile_cons_of_neg (by decide)]
    dsimp only
    rw [if_pos rfl, Decimal.leading_text, habs, Int64.ofInt_toInt]
  · have hle : 0 ≤ n.toInt := by
      rw [Int64.lt_iff_toInt_lt, not_lt] at hneg
      exact hneg
    rw [atoi64_text (by omega), Int.natAbs_of_nonneg hle, Int64.ofInt_toInt]

/-! ## Maps -/

/-- Entries with different keys that are not there yet are added. -/
theorem getElem?_foldl_insertIfNew {l : List (List UInt8 × List UInt8)}
    (hl : l.Pairwise fun a b ↦ a.1 ≠ b.1) (m : MapValue) (hm : ∀ a ∈ l, a.1 ∉ m)
    (k v : List UInt8) :
    (l.foldl (fun m item ↦ m.insertIfNew item.1 item.2) m)[k]? = some v ↔
      m[k]? = some v ∨ (k, v) ∈ l := by
  induction l generalizing m with
  | nil => simp
  | cons a l ih =>
    obtain ⟨ha, hl⟩ := List.pairwise_cons.1 hl
    obtain ⟨hnew, hm⟩ := List.forall_mem_cons.1 hm
    have hrest : ∀ b ∈ l, b.1 ∉ m.insertIfNew a.1 a.2 := by
      intro b hb hmem
      rcases Std.ExtTreeMap.mem_insertIfNew.1 hmem with heq | hmem
      · exact ha b hb (Std.LawfulEqCmp.compare_eq_iff_eq.1 heq)
      · exact hm b hb hmem
    rw [List.foldl_cons, ih hl _ hrest, Std.ExtTreeMap.getElem?_insertIfNew, List.mem_cons]
    simp only [Std.LawfulEqCmp.compare_eq_iff_eq]
    by_cases hk : a.1 = k
    · have hnone : m[k]? = none := Std.ExtTreeMap.getElem?_eq_none (hk ▸ hnew)
      have hpair : (k, v) = a ↔ a.2 = v := by
        rw [Prod.ext_iff]
        exact ⟨fun h ↦ h.2.symm, fun h ↦ ⟨hk.symm, h.symm⟩⟩
      rw [if_pos ⟨hk, hnew⟩, hnone, hpair, Option.some_inj]
      simp
    · have hpair : (k, v) ≠ a := fun h ↦ hk (h ▸ rfl)
      rw [if_neg fun h ↦ hk h.1]
      simp [hpair]

theorem foldl_toList (m : MapValue) :
    m.toList.foldl (fun m item ↦ m.insertIfNew item.1 item.2) ∅ = m := by
  have hl : m.toList.Pairwise fun a b ↦ a.1 ≠ b.1 :=
    Std.ExtTreeMap.distinct_keys_toList.imp fun h heq ↦ h (Std.LawfulEqCmp.compare_eq_iff_eq.2 heq)
  have hempty : ∀ a ∈ m.toList, a.1 ∉ (∅ : MapValue) := fun _ _ ↦ Std.ExtTreeMap.not_mem_empty
  refine Std.ExtTreeMap.ext_getElem? fun k ↦ Option.ext fun v ↦ ?_
  rw [getElem?_foldl_insertIfNew hl ∅ hempty, Std.ExtTreeMap.mem_toList_iff_getElem?_eq_some]
  simp

theorem valid_stringCodec {l : List UInt8} : stringCodec.Valid l ↔ l.length ≤ MAX_SIZE :=
  valid_bytesCodec

theorem valid_vectorCodec {α : Type} {F : Codec α} {l : List α} :
    (vectorCodec F).Valid l ↔ l.length ≤ MAX_SIZE ∧ ∀ a ∈ l, F.Valid a :=
  ⟨fun h ↦ ⟨h.1.1, h.1.2.2⟩, fun h ↦ ⟨⟨h.1, rfl, h.2⟩, rfl⟩⟩

/-- A pair of strings that are not too long. -/
def PairWritable (item : List UInt8 × List UInt8) : Prop :=
  item.1.length ≤ MAX_SIZE ∧ item.2.length ≤ MAX_SIZE

/-- A map that is not too large, with strings that are not too long. -/
def MapValue.Writable (m : MapValue) : Prop :=
  m.size ≤ MAX_SIZE ∧ ∀ item ∈ m.toList, PairWritable item

theorem valid_pairCodec {item : List UInt8 × List UInt8} :
    pairCodec.Valid item ↔ PairWritable item :=
  and_congr valid_stringCodec valid_stringCodec

theorem valid_mapCodec {m : MapValue} : mapCodec.Valid m ↔ MapValue.Writable m := by
  refine (and_iff_left (foldl_toList m)).trans (valid_vectorCodec.trans ?_)
  rw [Std.ExtTreeMap.length_toList]
  exact and_congr_right' (forall₂_congr fun item _ ↦ valid_pairCodec)

/-! ## The keys that are reserved -/

/-- The keys for the members that the format has no place for. -/
def reserved : List (List UInt8) :=
  [ascii "fromaccount", ascii "version", ascii "spent", ascii "n", ascii "timesmart"]

namespace CWalletTxRecord

theorem getElem?_eraseReserved (m : MapValue) (a : List UInt8) :
    (eraseReserved m)[a]? = if a ∈ reserved then none else m[a]? := by
  simp only [eraseReserved, reserved, Std.ExtTreeMap.getElem?_erase, List.mem_cons,
    Std.LawfulEqCmp.compare_eq_iff_eq, List.not_mem_nil, or_false]
  grind

/-- What is under a key while the members are written. -/
theorem getElem?_writtenMap (wtx : CWalletTxRecord) (a : List UInt8) : wtx.writtenMap[a]? =
    if a = ascii "timesmart" ∧ wtx.nTimeSmart ≠ 0 then some (Decimal.text wtx.nTimeSmart.toNat)
    else if a = ascii "n" ∧ wtx.nOrderPos ≠ -1 then some (i64tostr wtx.nOrderPos)
    else if a = ascii "spent" then some (wtx.vfSpent.map fun f ↦ if f then 0x31 else 0x30)
    else if a = ascii "fromaccount" then some wtx.strFromAccount
    else wtx.mapValue[a]? := by
  simp only [writtenMap, writeOrderPos]
  split_ifs <;> simp only [Std.ExtTreeMap.getElem?_insert, Std.LawfulEqCmp.compare_eq_iff_eq] <;>
    grind

theorem eraseReserved_writtenMap {wtx : CWalletTxRecord}
    (h : ∀ k ∈ reserved, k ∉ wtx.mapValue) : eraseReserved wtx.writtenMap = wtx.mapValue := by
  refine Std.ExtTreeMap.ext_getElem? fun a ↦ ?_
  rw [getElem?_eraseReserved]
  split_ifs with ha
  · exact (Std.ExtTreeMap.getElem?_eq_none (h a ha)).symm
  · obtain ⟨hfrom, -, hspent, hpos, htime⟩ : a ≠ ascii "fromaccount" ∧ a ≠ ascii "version" ∧
        a ≠ ascii "spent" ∧ a ≠ ascii "n" ∧ a ≠ ascii "timesmart" := by simpa [reserved] using ha
    rw [getElem?_writtenMap, if_neg fun h ↦ htime h.1, if_neg fun h ↦ hpos h.1, if_neg hspent,
      if_neg hfrom]

/-- The position in the order is read as it was, also where there is none. -/
theorem readOrderPos_writtenMap {wtx : CWalletTxRecord} (h : ascii "n" ∉ wtx.mapValue) :
    readOrderPos wtx.writtenMap = wtx.nOrderPos := by
  rw [readOrderPos, getElem?_writtenMap, if_neg fun h ↦ absurd h.1 (by decide)]
  split_ifs with hpos hspent hfrom
  · exact atoi64_i64tostr _
  · exact absurd hspent (by decide)
  · exact absurd hfrom (by decide)
  · rw [Std.ExtTreeMap.getElem?_eq_none h]
    exact (not_not.1 fun hne ↦ hpos ⟨rfl, hne⟩).symm

theorem ofInt_atoi64_text (n : UInt32) :
    UInt32.ofInt (atoi64 (Decimal.text n.toNat)).toInt = n := by
  have hn := n.toNat_lt
  rw [atoi64_text (by omega), Int64.toInt_ofInt_of_le (by omega) (by omega), UInt32.ofInt,
    ← UInt32.toNat_inj, UInt32.toNat_ofNat']
  omega

theorem readTimeSmart_writtenMap {wtx : CWalletTxRecord} (h : ascii "timesmart" ∉ wtx.mapValue) :
    readTimeSmart wtx.writtenMap = wtx.nTimeSmart := by
  rw [readTimeSmart, getElem?_writtenMap]
  split_ifs with htime hpos hspent hfrom
  · exact ofInt_atoi64_text _
  · exact absurd hpos.1 (by decide)
  · exact absurd hspent (by decide)
  · exact absurd hfrom (by decide)
  · rw [Std.ExtTreeMap.getElem?_eq_none h]
    exact (not_not.1 fun hne ↦ htime ⟨rfl, hne⟩).symm

/-- Each output has its own flag, and the one for all of them is not used. -/
theorem readSpent_writtenMap (wtx : CWalletTxRecord) (nOut : ℕ) (fSpent : UInt8) :
    readSpent wtx.writtenMap nOut fSpent = wtx.vfSpent := by
  rw [readSpent, getElem?_writtenMap, if_neg fun h ↦ absurd h.1 (by decide),
    if_neg fun h ↦ absurd h.1 (by decide), if_pos rfl]
  dsimp only
  rw [List.map_map]
  refine (List.map_congr_left fun f _ ↦ ?_).trans (List.map_id wtx.vfSpent)
  cases f <;> rfl

end CWalletTxRecord

/-! ## What can be written -/

structure CMerkleTx.Writable (tx : CMerkleTx) : Prop where
  transaction : tx.toCTransaction.Writable
  hashBlock : tx.hashBlock < 2 ^ 256
  vMerkleBranch : tx.vMerkleBranch.length ≤ MAX_SIZE ∧ ∀ hash ∈ tx.vMerkleBranch, hash < 2 ^ 256
  nIndex : InInt32 tx.nIndex

/-- The members fit in the types that they have, and no string, map or vector is too long to be
read. -/
structure CWalletTxRecord.Writable (wtx : CWalletTxRecord) : Prop where
  merkleTx : wtx.toCMerkleTx.Writable
  vtxPrev : wtx.vtxPrev.length ≤ MAX_SIZE ∧ ∀ tx ∈ wtx.vtxPrev, tx.Writable
  mapValue : MapValue.Writable wtx.writtenMap
  vOrderForm : wtx.vOrderForm.length ≤ MAX_SIZE ∧ ∀ item ∈ wtx.vOrderForm, PairWritable item

theorem CMerkleTx.valid_iff {T : WalletSizes} {tx : CMerkleTx} :
    (implementSerialize T).Valid tx ↔ tx.Writable := by
  have hvalid : ∀ {hash : ℕ}, (uint 32).Valid hash ↔ hash < 2 ^ 256 := by
    intro hash
    have hhash : (256 : ℕ) ^ 32 = 2 ^ 256 := by norm_num
    rw [← hhash]
    exact Iff.rfl
  constructor
  · rintro ⟨⟨h₁, h₂, h₃, h₄⟩, -⟩
    obtain ⟨hlen, hall⟩ := valid_objectsCodec.1 h₃
    exact ⟨CTransaction.valid_iff.1 h₁, hvalid.1 h₂,
      ⟨hlen, fun hash h ↦ hvalid.1 (hall hash h)⟩, valid_int32_iff.1 h₄⟩
  · rintro ⟨h₁, h₂, ⟨hlen, hall⟩, h₄⟩
    exact ⟨⟨CTransaction.valid_iff.2 h₁, hvalid.2 h₂,
      valid_objectsCodec.2 ⟨hlen, fun hash h ↦ hvalid.2 (hall hash h)⟩, valid_int32_iff.2 h₄⟩, rfl⟩

theorem valid_charCodec (c : UInt8) : charCodec.Valid c := ⟨c.toNat_lt, UInt8.ofNat_toNat⟩

/-! ## Sizes -/

/-- The size that is told is the number of the bytes, as an `unsigned int`. -/
def Tells {α : Type} (getSerializeSize : α → UInt32) (F : Codec α) : Prop :=
  ∀ a, getSerializeSize a = UInt32.ofNat (F.put a).length

section

variable {α β : Type} {s : α → UInt32} {t : β → UInt32} {F : Codec α} {G : Codec β}

theorem Tells.prod (hF : Tells s F) (hG : Tells t G) :
    Tells (fun p ↦ s p.1 + t p.2) (F.prod G) := by
  intro p
  have hput : (F.prod G).put p = F.put p.1 ++ G.put p.2 := rfl
  dsimp only
  rw [hF, hG, hput, List.length_append, UInt32.ofNat_add]

/-- When the first value is there, the second decides. -/
theorem get_prod_put {a : α} (ha : F.Valid a) (rest : List UInt8) :
    (F.prod G).get (F.put a ++ rest) = (G.get rest).map fun q ↦ ((a, q.1), q.2) := by
  change ((F.get (F.put a ++ rest)).bind _) = _
  rw [F.get_put ha, Option.bind_some]

theorem Tells.objects (hF : Tells s F) (T : ElementSize) :
    Tells (getSerializeSizeVector s) (objectsCodec T F) := by
  intro v
  rw [getSerializeSizeVector_eq hF, length_put_objectsCodec T fun _ ↦ rfl]

theorem Tells.vector (hF : Tells s F) : Tells (getSerializeSizeVector s) (vectorCodec F) :=
  -- the blocks in which a vector is read make no difference to the writer
  hF.objects ⟨1, Nat.one_pos, Nat.le_of_ble_eq_true rfl⟩

theorem tells_string : Tells getSerializeSizeBytes stringCodec :=
  fun v ↦ congrArg UInt32.ofNat (length_put_bytesCodec v).symm

theorem tells_pair : Tells getSerializeSizePair pairCodec := tells_string.prod tells_string

theorem tells_map : Tells getSerializeSizeMap mapCodec := fun m ↦ tells_pair.vector m.toList

theorem tells_uint (n : ℕ) : Tells (fun _ ↦ UInt32.ofNat n) (uint n) :=
  fun x ↦ congrArg UInt32.ofNat (length_put_uint n x).symm

theorem tells_int (n : ℕ) : Tells (fun _ ↦ UInt32.ofNat n) (Codec.int n) :=
  fun x ↦ congrArg UInt32.ofNat (length_put_int n x).symm

theorem tells_uint32 : Tells (fun _ ↦ 4) uint32 := fun x ↦ tells_uint 4 x.toNat

theorem tells_int32 : Tells (fun _ ↦ 4) int32 := fun x ↦ tells_int 4 x.toInt

theorem tells_int64 : Tells (fun _ ↦ 8) Codec.int64 := fun x ↦ tells_int 8 x.toInt

theorem tells_char : Tells (fun _ ↦ 1) charCodec := fun c ↦ tells_uint 1 c.toNat

end

theorem tells_merkleTx (T : WalletSizes) :
    Tells CMerkleTx.getSerializeSize (CMerkleTx.implementSerialize T) := by
  intro tx
  have htx : Tells CTransaction.getSerializeSize
      (CTransaction.implementSerialize T.toElementSizes) := fun tx ↦ by
    rw [CTransaction.getSerializeSize_eq, CTransaction.length_put]
  have h := htx.prod ((tells_uint 32).prod (((tells_uint 32).objects T.hash).prod (tells_int 4)))
    (tx.toCTransaction, tx.hashBlock, tx.vMerkleBranch, tx.nIndex)
  simp only [← UInt32.add_assoc] at h
  exact h

namespace CWalletTxRecord

theorem eraseReserved_with {wtx : CWalletTxRecord} (h : ∀ k ∈ reserved, k ∉ wtx.mapValue) :
    { wtx with mapValue := eraseReserved wtx.writtenMap } = wtx := by
  rw [eraseReserved_writtenMap h]

theorem getSerializeSize_snd (T : WalletSizes) (wtx : CWalletTxRecord) :
    wtx.getSerializeSize.2 = UInt32.ofNat (wtx.serialize T).2.length := by
  have h := (tells_merkleTx T).prod (((tells_merkleTx T).objects T.merkleTx).prod (tells_map.prod
    ((tells_pair.objects T.pair).prod (tells_uint32.prod (tells_uint32.prod
      (tells_char.prod tells_char)))))) (wtx.toCMerkleTx, wtx.vtxPrev, wtx.writtenMap,
        wtx.vOrderForm, wtx.fTimeReceivedIsTxTime, wtx.nTimeReceived, wtx.fFromMe, wtx.fSpent)
  simp only [← UInt32.add_assoc] at h
  exact h

/-- What was written is read back. -/
theorem unserialize_written {T : WalletSizes} {wtx : CWalletTxRecord}
    (h : ∀ k ∈ reserved, k ∉ wtx.mapValue) (hw : wtx.Writable) (rest : List UInt8) :
    unserialize T ((wtx.serialize T).2 ++ rest) = some (wtx, rest) := by
  have hvalid : (members T).Valid (wtx.toCMerkleTx, wtx.vtxPrev, wtx.writtenMap, wtx.vOrderForm,
      wtx.fTimeReceivedIsTxTime, wtx.nTimeReceived, wtx.fFromMe, wtx.fSpent) :=
    ⟨CMerkleTx.valid_iff.2 hw.merkleTx,
      valid_objectsCodec.2 ⟨hw.vtxPrev.1, fun tx htx ↦ CMerkleTx.valid_iff.2 (hw.vtxPrev.2 tx htx)⟩,
      valid_mapCodec.2 hw.mapValue,
      valid_objectsCodec.2 ⟨hw.vOrderForm.1, fun p hp ↦ valid_pairCodec.2 (hw.vOrderForm.2 p hp)⟩,
      valid_uint32 _, valid_uint32 _, valid_charCodec _, valid_charCodec _⟩
  have hfrom : wtx.writtenMap[ascii "fromaccount"]? = some wtx.strFromAccount := by
    rw [getElem?_writtenMap, if_neg fun h ↦ absurd h.1 (by decide),
      if_neg fun h ↦ absurd h.1 (by decide), if_neg (by decide), if_pos rfl]
  rw [unserialize, serialize, (members T).get_put hvalid, Option.map_some]
  dsimp only
  rw [hfrom, readSpent_writtenMap, readOrderPos_writtenMap (h _ (by decide)),
    readTimeSmart_writtenMap (h _ (by decide)), eraseReserved_writtenMap h, Option.getD_some]

end CWalletTxRecord

/-! ## Accounting entries -/

theorem getElem?_writeOrderPos {m : MapValue} (nOrderPos : Int64) {a : List UInt8}
    (ha : a ≠ ascii "n") : (writeOrderPos nOrderPos m)[a]? = m[a]? := by
  rw [writeOrderPos]
  split_ifs
  · rfl
  · rw [Std.ExtTreeMap.getElem?_insert, if_neg fun h ↦ ha (Std.LawfulEqCmp.eq_of_compare h).symm]

section

variable {m : MapValue} (h : ascii "n" ∉ m)
include h

theorem erase_writeOrderPos (nOrderPos : Int64) :
    (writeOrderPos nOrderPos m).erase (ascii "n") = m := by
  refine Std.ExtTreeMap.ext_getElem? fun a ↦ ?_
  rw [Std.ExtTreeMap.getElem?_erase]
  split_ifs with ha
  · rw [← Std.LawfulEqCmp.eq_of_compare ha, Std.ExtTreeMap.getElem?_eq_none h]
  · exact getElem?_writeOrderPos nOrderPos fun heq ↦
      ha (Std.LawfulEqCmp.compare_eq_iff_eq.2 heq.symm)

theorem readOrderPos_writeOrderPos (nOrderPos : Int64) :
    readOrderPos (writeOrderPos nOrderPos m) = nOrderPos := by
  rw [readOrderPos, writeOrderPos]
  split_ifs with hpos
  · rw [Std.ExtTreeMap.getElem?_eq_none h]
    exact hpos.symm
  · rw [Std.ExtTreeMap.getElem?_insert_self]
    exact atoi64_i64tostr nOrderPos

end

/-- Nothing in a map is longer than its bytes. -/
theorem MapValue.writable_of_length_le {m : MapValue} (h : (mapCodec.put m).length ≤ MAX_SIZE) :
    MapValue.Writable m := by
  have hput : mapCodec.put m = compactSize.put m.toList.length ++ m.toList.flatMap pairCodec.put :=
    rfl
  have hpair : ∀ item, (pairCodec.put item).length = getSizeOfCompactSize item.1.length +
      item.1.length + (getSizeOfCompactSize item.2.length + item.2.length) := by
    intro item
    have hprod : pairCodec.put item = bytesCodec.put item.1 ++ bytesCodec.put item.2 := rfl
    rw [hprod, List.length_append, length_put_bytesCodec, length_put_bytesCodec]
  rw [hput, List.length_append, List.length_flatMap] at h
  refine ⟨?_, fun item hitem ↦ ?_⟩
  · have hcard : (m.toList.map fun item ↦ (pairCodec.put item).length).length ≤
        (m.toList.map fun item ↦ (pairCodec.put item).length).sum := by
      refine List.length_le_sum_of_one_le _ fun k hk ↦ ?_
      obtain ⟨item, -, rfl⟩ := List.mem_map.1 hk
      have hone := one_le_getSizeOfCompactSize item.1.length
      rw [hpair]
      omega
    rw [List.length_map, Std.ExtTreeMap.length_toList] at hcard
    omega
  · have hle := List.le_sum_of_mem
      (List.mem_map_of_mem (f := fun item ↦ (pairCodec.put item).length) hitem)
    rw [hpair] at hle
    exact ⟨by omega, by omega⟩

namespace CAccountingEntry

/-- What is written is not too long to be read. -/
structure Writable (me : CAccountingEntry) : Prop where
  strOtherAccount : me.strOtherAccount.length ≤ MAX_SIZE
  strComment : me.prepare.strComment.length ≤ MAX_SIZE

theorem prepare_eq (me : CAccountingEntry) :
    (writeOrderPos me.nOrderPos me.mapValue = ∅ ∧ me.ssExtra = [] ∧
      me.prepare = { me with mapValue := ∅ }) ∨
    me.prepare = { me with
      mapValue := writeOrderPos me.nOrderPos me.mapValue
      strComment := me.strComment ++
        ([0] ++ mapCodec.put (writeOrderPos me.nOrderPos me.mapValue) ++ me.ssExtra) } := by
  rw [prepare]
  dsimp only
  split_ifs with hempty
  · obtain ⟨hmap, hextra⟩ := Bool.and_eq_true_iff.1 hempty
    have hmap := Std.ExtTreeMap.isEmpty_iff.1 hmap
    exact .inl ⟨hmap, List.isEmpty_iff.1 hextra, by rw [hmap]⟩
  · exact .inr rfl

section

variable {me : CAccountingEntry} (hcomment : 0 ∉ me.strComment) (hn : ascii "n" ∉ me.mapValue)
include hcomment

theorem ne_zero_of_mem : ∀ c ∈ me.strComment, decide (c ≠ 0) = true :=
  fun _ hc ↦ decide_eq_true fun hzero ↦ hcomment (hzero ▸ hc)

include hn

/-- Writing leaves the entry as it was. -/
theorem restore_prepare : me.prepare.restore = me := by
  have hne := ne_zero_of_mem hcomment
  have herase := erase_writeOrderPos hn me.nOrderPos
  rcases me.prepare_eq with ⟨hmap, -, hprepare⟩ | hprepare
  · rw [hmap] at herase
    rw [hprepare, restore]
    dsimp only
    rw [herase, List.takeWhile_eq_self_iff.2 hne]
  · rw [hprepare, restore]
    dsimp only
    rw [herase, List.append_assoc, List.takeWhile_append_of_pos hne, List.singleton_append,
      List.takeWhile_cons_of_neg (by decide), List.append_nil]

end

theorem getSerializeSize_snd (nType : BitVec 32) (nVersion : Int32) (me : CAccountingEntry) :
    (me.getSerializeSize nType).2 = UInt32.ofNat (me.serialize nType nVersion).2.length := by
  have hrecord := tells_int64.prod (tells_int64.prod (tells_string.prod tells_string))
  rw [getSerializeSize, serialize, members]
  split_ifs with htype
  · have h := tells_int32.prod hrecord (nVersion, me.prepare.nCreditDebit, me.prepare.nTime,
      me.prepare.strOtherAccount, me.prepare.strComment)
    simp only [← UInt32.add_assoc] at h
    exact h
  · have h := hrecord (me.prepare.nCreditDebit, me.prepare.nTime, me.prepare.strOtherAccount,
      me.prepare.strComment)
    simp only [← UInt32.add_assoc] at h
    rw [UInt32.zero_add]
    exact h

theorem get_members (nType : BitVec 32) (nVersion : Int32) (nCreditDebit nTime : Int64)
    {strOtherAccount strComment : List UInt8} (hother : strOtherAccount.length ≤ MAX_SIZE)
    (hcomment : strComment.length ≤ MAX_SIZE) (rest : List UInt8) : ∃ version, (members nType).get
      ((members nType).put (nVersion, nCreditDebit, nTime, strOtherAccount, strComment) ++ rest) =
        some ((version, nCreditDebit, nTime, strOtherAccount, strComment), rest) := by
  let record : Codec (Int64 × Int64 × List UInt8 × List UInt8) :=
    Codec.int64.prod (Codec.int64.prod (stringCodec.prod stringCodec))
  have hrecord : record.Valid (nCreditDebit, nTime, strOtherAccount, strComment) :=
    ⟨valid_int64 _, valid_int64 _, valid_stringCodec.2 hother, valid_stringCodec.2 hcomment⟩
  rw [members]
  split_ifs
  · have hvalid : (int32.prod record).Valid
        (nVersion, nCreditDebit, nTime, strOtherAccount, strComment) := ⟨valid_int32 _, hrecord⟩
    have hget := (int32.prod record).get_put hvalid rest
    exact ⟨nVersion, hget⟩
  · refine ⟨0, ?_⟩
    change (record.get (record.put _ ++ rest)).map _ = _
    rw [record.get_put hrecord, Option.map_some]

/-- What was written is read back into a new entry; the account and the number are in the key. -/
theorem unserialize_written {me : CAccountingEntry} (hcomment : 0 ∉ me.strComment)
    (hn : ascii "n" ∉ me.mapValue) (hw : me.Writable) (nType : BitVec 32) (nVersion : Int32)
    {fresh : CAccountingEntry} (hfresh : fresh.ssExtra = []) (rest : List UInt8) :
    unserialize nType fresh ((me.serialize nType nVersion).2 ++ rest) =
      some ({ me with strAccount := fresh.strAccount, nEntryNo := fresh.nEntryNo }, rest) := by
  have hne := ne_zero_of_mem hcomment
  have hread := readOrderPos_writeOrderPos hn me.nOrderPos
  have herase := erase_writeOrderPos hn me.nOrderPos
  obtain ⟨version, hget⟩ : ∃ version,
      (members nType).get ((me.serialize nType nVersion).2 ++ rest) =
        some ((version, me.prepare.nCreditDebit, me.prepare.nTime, me.prepare.strOtherAccount,
          me.prepare.strComment), rest) := by
    have hrecord : me.prepare.strOtherAccount.length ≤ MAX_SIZE := by
      rcases me.prepare_eq with ⟨-, -, hprepare⟩ | hprepare <;> rw [hprepare] <;>
        exact hw.strOtherAccount
    exact get_members nType nVersion _ _ hrecord hw.strComment rest
  rw [unserialize, hget, Option.bind_eq_bind, Option.bind_some]
  have hlen := hw.strComment
  rcases me.prepare_eq with ⟨hmap, hextra, hprepare⟩ | hprepare
  · rw [hmap] at hread herase
    rw [hprepare]
    dsimp only
    rw [List.dropWhile_eq_nil_iff.2 hne]
    dsimp only
    rw [Option.bind_eq_bind, Option.bind_some, restore]
    dsimp only
    rw [hread, herase, hfresh, List.takeWhile_eq_self_iff.2 hne, ← hextra]
  · rw [hprepare] at hlen ⊢
    dsimp only at hlen ⊢
    have hmap : mapCodec.Valid (writeOrderPos me.nOrderPos me.mapValue) := by
      refine valid_mapCodec.2 (MapValue.writable_of_length_le (le_trans ?_ hlen))
      simp only [List.length_append]
      omega
    rw [List.append_assoc, List.dropWhile_append_of_pos hne, List.singleton_append,
      List.dropWhile_cons_of_neg (by decide)]
    dsimp only
    rw [mapCodec.get_put hmap, Option.map_some, Option.bind_eq_bind, Option.bind_some, restore]
    dsimp only
    rw [hread, herase, List.takeWhile_append_of_pos hne, List.takeWhile_cons_of_neg (by decide),
      List.append_nil]

end CAccountingEntry

/-- **The records of the wallet.**  Writing a record, or counting its bytes, leaves it as it was;
the size is that of the bytes modulo `2 ^ 32`; and what was written is read back where nothing in it
is too long to be read.  The account and the number of an accounting entry are in its key. -/
theorem walletRecords_roundTrip (T : WalletSizes) :
    (∀ wtx : CWalletTxRecord, (∀ k ∈ reserved, k ∉ wtx.mapValue) →
      (wtx.serialize T).1 = wtx ∧ wtx.getSerializeSize.1 = wtx ∧
      wtx.getSerializeSize.2.toNat = (wtx.serialize T).2.length % 2 ^ 32 ∧
      (wtx.Writable → ∀ rest, CWalletTxRecord.unserialize T ((wtx.serialize T).2 ++ rest) =
        some (wtx, rest))) ∧
    ∀ me : CAccountingEntry, 0 ∉ me.strComment → ascii "n" ∉ me.mapValue →
      ∀ (nType : BitVec 32) (nVersion : Int32),
        (me.serialize nType nVersion).1 = me ∧ (me.getSerializeSize nType).1 = me ∧
        (me.getSerializeSize nType).2.toNat = (me.serialize nType nVersion).2.length % 2 ^ 32 ∧
        (me.Writable → ∀ fresh : CAccountingEntry, fresh.ssExtra = [] → ∀ rest,
          CAccountingEntry.unserialize nType fresh ((me.serialize nType nVersion).2 ++ rest) =
            some ({ me with strAccount := fresh.strAccount, nEntryNo := fresh.nEntryNo },
              rest)) := by
  refine ⟨fun wtx h ↦ ⟨?_, ?_, ?_, fun hw rest ↦ ?_⟩,
    fun me hcomment hn nType nVersion ↦ ⟨?_, ?_, ?_, fun hw fresh hfresh rest ↦ ?_⟩⟩
  · exact CWalletTxRecord.eraseReserved_with h
  · exact CWalletTxRecord.eraseReserved_with h
  · rw [CWalletTxRecord.getSerializeSize_snd T, toNat_ofNat_length]
  · exact CWalletTxRecord.unserialize_written h hw rest
  · exact CAccountingEntry.restore_prepare hcomment hn
  · exact CAccountingEntry.restore_prepare hcomment hn
  · rw [CAccountingEntry.getSerializeSize_snd nType nVersion, toNat_ofNat_length]
  · exact CAccountingEntry.unserialize_written hcomment hn hw nType nVersion hfresh rest

namespace Sample

def walletSizes : WalletSizes where
  toElementSizes := elementSizes
  hash := elementSizes.txOut
  merkleTx := ⟨136, Nat.le_of_ble_eq_true rfl, Nat.le_of_ble_eq_true rfl⟩
  pair := elementSizes.tx

/-- A new entry, with an account and a comment. -/
def entry (strOtherAccount strComment : List UInt8) (nOrderPos : Int64) (ssExtra : List UInt8) :
    CAccountingEntry where
  strAccount := []
  nCreditDebit := -5
  nTime := 1
  strOtherAccount := strOtherAccount
  strComment := strComment
  mapValue := ∅
  nOrderPos := nOrderPos
  nEntryNo := 0
  ssExtra := ssExtra

/-- A transaction without outputs that is known to be old. -/
def record : CWalletTxRecord where
  toCTransaction := repeated 0 []
  hashBlock := 0
  vMerkleBranch := []
  nIndex := -1
  vtxPrev := []
  mapValue := ∅
  vOrderForm := [([1], [2])]
  fTimeReceivedIsTxTime := 1
  nTimeReceived := 2
  nTimeSmart := 3
  fFromMe := 1
  strFromAccount := [4]
  vfSpent := [true, false]
  nOrderPos := 7

theorem writable_record : record.Writable where
  merkleTx := ⟨writable_repeated (Nat.zero_le _) (Nat.zero_le _), by decide,
    ⟨by decide, List.forall_mem_nil _⟩, ⟨by decide, by decide⟩⟩
  vtxPrev := ⟨by decide, List.forall_mem_nil _⟩
  mapValue := MapValue.writable_of_length_le (by decide +kernel)
  vOrderForm := ⟨by decide, fun item hitem ↦ by
    rw [List.mem_singleton.1 hitem]
    exact ⟨by decide, by decide⟩⟩

end Sample

theorem walletRecords_roundTrip_sample :
    CWalletTxRecord.unserialize Sample.walletSizes
      ((Sample.record.serialize Sample.walletSizes).2 ++ []) = some (Sample.record, []) ∧
    CAccountingEntry.unserialize 0 (Sample.entry [] [] (-1) [])
      (((Sample.entry [1] [2] 3 [4]).serialize 0 5).2 ++ []) =
        some (Sample.entry [1] [2] 3 [4], []) := by
  refine ⟨((walletRecords_roundTrip Sample.walletSizes).1 Sample.record
    (fun _ _ ↦ Std.ExtTreeMap.not_mem_empty)).2.2.2 Sample.writable_record [], ?_⟩
  exact ((walletRecords_roundTrip Sample.walletSizes).2 (Sample.entry [1] [2] 3 [4]) (by decide)
    Std.ExtTreeMap.not_mem_empty 0 5).2.2.2 ⟨by decide, by decide +kernel⟩
    (Sample.entry [] [] (-1) []) rfl []

theorem readCompactSize_put_of_lt {n : ℕ} (hn : MAX_SIZE < n) (hlt : n < 2 ^ 32)
    (bytes : List UInt8) : readCompactSize (compactSize.put n ++ bytes) = none := by
  rw [MAX_SIZE] at hn
  have hput : compactSize.put n = 254 :: toLE 4 n := by
    rw [put_compactSize, if_neg (by omega), if_neg (by omega), if_pos hlt]
  have hget : (uint 4).get (toLE 4 n ++ bytes) = some (n, bytes) := (uint 4).get_put hlt bytes
  have hmin : decide (0x10000 ≤ n) = true := decide_eq_true (by omega)
  have hmax : decide (n ≤ MAX_SIZE) = false := decide_eq_false (by rw [MAX_SIZE]; omega)
  rw [hput, List.cons_append, readCompactSize, if_neg (by decide), if_neg (by decide), if_pos rfl,
    hget, Option.filter_some, if_pos hmin, Option.filter_some, if_neg (by rw [hmax]; decide)]

/-- The name of an account can be too long to be read. -/
theorem not_walletRecords_roundTrip : ¬ ∀ me : CAccountingEntry, 0 ∉ me.strComment →
    ascii "n" ∉ me.mapValue → ∀ fresh : CAccountingEntry, fresh.ssExtra = [] →
      (CAccountingEntry.unserialize 0 fresh (me.serialize 0 0).2).isSome = true := by
  intro h
  obtain ⟨strOtherAccount, hlen⟩ : ∃ l : List UInt8, l.length = MAX_SIZE + 1 :=
    ⟨List.replicate (MAX_SIZE + 1) 0, List.length_replicate⟩
  have hsome := h (Sample.entry strOtherAccount [] (-1) []) List.not_mem_nil
    Std.ExtTreeMap.not_mem_empty (Sample.entry [] [] (-1) []) rfl
  have hstring : ∀ rest, stringCodec.get (stringCodec.put strOtherAccount ++ rest) = none := by
    intro rest
    change (((readCompactSize (compactSize.put strOtherAccount.length ++ strOtherAccount ++
      rest)).bind _).map _) = none
    rw [List.append_assoc, readCompactSize_put_of_lt (by omega) (by rw [hlen, MAX_SIZE]; decide)]
    rfl
  have hnone : (CAccountingEntry.members 0).get
      ((Sample.entry strOtherAccount [] (-1) []).serialize 0 0).2 = none := by
    change (int32.prod (Codec.int64.prod (Codec.int64.prod (stringCodec.prod stringCodec)))).get
      (int32.put 0 ++ (Codec.int64.put (-5) ++ (Codec.int64.put 1 ++
        (stringCodec.put strOtherAccount ++ _)))) = none
    rw [get_prod_put (valid_int32 _), get_prod_put (valid_int64 _), get_prod_put (valid_int64 _)]
    change ((((stringCodec.get _).bind _).map _).map _).map _ = none
    rw [hstring]
    rfl
  rw [CAccountingEntry.unserialize, hnone] at hsome
  cases hsome

end Bws
