import Bws.Birthday
import Bws.Hex
import Bws.Serialize

/-!
# The lines of a wallet dump

`dumpwallet` writes one line for a key: its secret, a time, and a mark that is the label of its
address, or says that the key is for change or from the key pool.  Spaces separate the parts of a
line, so a label is written with every space, every `%` and every byte that is not printed as `%`
and two digits.

What is written is read back: the bytes of a label (`decodeDumpString_encodeDumpString`), the
secret with its compression (`CBitcoinSecret.getKey_setString`), and the mark (`readMarks_dumpMark`).
How a time is printed is a parameter, and so is the hash.
-/

namespace Bws

/-! ## Strings -/

/-- `EncodeDumpString` -/
def encodeDumpString (str : List UInt8) : List UInt8 :=
  str.flatMap fun c ↦ if c ≤ 32 ∨ 128 ≤ c ∨ c = 0x25 then 0x25 :: hexStr [c] else [c]

/-- `(c >> 6) * 9 + ((c - '0') & 15)`, where a `char` has a sign. -/
def dumpDigit (c : UInt8) : BitVec 32 :=
  let c := c.toBitVec.signExtend 32
  c.sshiftRight 6 * 9 + ((c - 0x30) &&& 15)

/-- The character that `%` and two digits stand for. -/
def dumpChar (c c' : UInt8) : UInt8 :=
  UInt8.ofBitVec ((dumpDigit c <<< 4 ||| dumpDigit c').setWidth 8)

/-- `DecodeDumpString` -/
def decodeDumpString : List UInt8 → List UInt8
  | c :: c₁ :: c₂ :: str =>
    if c = 0x25 then dumpChar c₁ c₂ :: decodeDumpString str
    else c :: decodeDumpString (c₁ :: c₂ :: str)
  | c :: str => c :: decodeDumpString str
  | [] => []

theorem dumpChar_hexmap :
    ∀ n < 16, ∀ m < 16, dumpChar (hexmap n) (hexmap m) = UInt8.ofNat (16 * n + m) := by
  decide +kernel

theorem hexmap_graph : ∀ n < 16, 32 < hexmap n ∧ hexmap n < 128 := by decide

theorem hexStr_singleton (c : UInt8) :
    hexStr [c] = [hexmap (c.toNat / 16), hexmap (c.toNat % 16)] := rfl

theorem div_sixteen_lt (c : UInt8) : c.toNat / 16 < 16 :=
  Nat.div_lt_of_lt_mul c.toNat_lt

theorem decodeDumpString_cons {c : UInt8} (hc : c ≠ 0x25) (str : List UInt8) :
    decodeDumpString (c :: str) = c :: decodeDumpString str := by
  rcases str with - | ⟨c₁, - | ⟨c₂, str⟩⟩
  · rfl
  · rfl
  · rw [decodeDumpString, if_neg hc]

theorem decodeDumpString_escaped (c : UInt8) (str : List UInt8) :
    decodeDumpString (0x25 :: (hexStr [c] ++ str)) = c :: decodeDumpString str := by
  have hchar : dumpChar (hexmap (c.toNat / 16)) (hexmap (c.toNat % 16)) = c := by
    rw [dumpChar_hexmap _ (div_sixteen_lt c) _ (Nat.mod_lt _ (by decide)), Nat.div_add_mod,
      UInt8.ofNat_toNat]
  rw [hexStr_singleton, List.cons_append, List.cons_append, List.nil_append, decodeDumpString,
    if_pos rfl, hchar]

/-- **Every string is read back byte for byte.** -/
theorem decodeDumpString_encodeDumpString (str : List UInt8) :
    decodeDumpString (encodeDumpString str) = str := by
  induction str with
  | nil => rfl
  | cons c str ih =>
    rw [encodeDumpString, List.flatMap_cons]
    split_ifs with hc
    · rw [List.cons_append, decodeDumpString_escaped]
      exact congrArg _ ih
    · have hne : c ≠ 0x25 := fun h ↦ hc (.inr (.inr h))
      rw [List.cons_append, List.nil_append, decodeDumpString_cons hne]
      exact congrArg _ ih

theorem hexStr_graph (vch : List UInt8) : ∀ c ∈ hexStr vch, 32 < c ∧ c < 128 := by
  intro c hc
  obtain ⟨b, -, hb⟩ := List.mem_flatMap.1 hc
  rcases List.mem_cons.1 hb with rfl | hb
  · exact hexmap_graph _ (div_sixteen_lt b)
  · rw [List.mem_singleton.1 hb]
    exact hexmap_graph _ (Nat.mod_lt _ (by decide))

/-- What is written is printed, and no space. -/
theorem encodeDumpString_graph (str : List UInt8) :
    ∀ c ∈ encodeDumpString str, 32 < c ∧ c < 128 := by
  intro c hc
  obtain ⟨b, -, hb⟩ := List.mem_flatMap.1 hc
  split_ifs at hb with hescape
  · rcases List.mem_cons.1 hb with rfl | hb
    · decide
    · exact hexStr_graph [b] c hb
  · rw [List.mem_singleton.1 hb]
    rw [not_or, not_or, UInt8.not_le, UInt8.not_le] at hescape
    exact ⟨hescape.1, hescape.2.1⟩

/-! ## What the format takes from outside -/

/-- The version bytes of a network, how a time is printed and read, and what names the build. -/
structure DumpFormat where
  /-- `Hash` -/
  hash : List UInt8 → UInt256
  PUBKEY_ADDRESS : UInt8
  SECRET_KEY : UInt8
  encodeDumpTime : ℤ → List UInt8
  decodeDumpTime : List UInt8 → ℤ
  CLIENT_BUILD : List UInt8
  CLIENT_DATE : List UInt8

/-- A time is one word, and the build is named on one line. -/
structure DumpFormat.Lawful (F : DumpFormat) : Prop where
  encodeDumpTime : ∀ nTime, (0x20 : UInt8) ∉ F.encodeDumpTime nTime ∧
    (0x0a : UInt8) ∉ F.encodeDumpTime nTime
  build : (0x0a : UInt8) ∉ F.CLIENT_BUILD ∧ (0x0a : UInt8) ∉ F.CLIENT_DATE

section

variable (F : DumpFormat)

/-! ## Secrets and addresses -/

/-- The first four bytes of the hash. -/
def checksum (vch : List UInt8) : List UInt8 := Codec.toLE 4 (F.hash vch)

/-- `EncodeBase58Check` -/
def encodeBase58Check (vchIn : List UInt8) : List UInt8 := encodeBase58 (vchIn ++ checksum F vchIn)

/-- `DecodeBase58Check` of a C string. -/
def decodeBase58Check (psz : List UInt8) : Option (List UInt8) :=
  match decodeBase58 psz with
  | none => none
  | some vchRet =>
    if vchRet.length < 4 then none
    else
      let vch := vchRet.take (vchRet.length - 4)
      if checksum F vch ≠ vchRet.drop (vchRet.length - 4) then none else some vch

structure CBase58Data where
  vchVersion : List UInt8
  vchData : List UInt8

/-- `SetString`, where there is one version byte. -/
def CBase58Data.setString (psz : List UInt8) : Option CBase58Data :=
  let vchTemp := (decodeBase58Check F psz).getD []
  if vchTemp.length < 1 then none else some ⟨vchTemp.take 1, vchTemp.drop 1⟩

def CBase58Data.toString (data : CBase58Data) : List UInt8 :=
  encodeBase58Check F (data.vchVersion ++ data.vchData)

/-- `CBitcoinAddress(keyid)` -/
def bitcoinAddress (keyid : CKeyID) : CBase58Data := ⟨[F.PUBKEY_ADDRESS], Codec.toLE 20 keyid⟩

namespace CBitcoinSecret

/-- `CBitcoinSecret(vchSecret)` -/
def setKey (vchSecret : CKey) : CBase58Data :=
  ⟨[F.SECRET_KEY], vchSecret.vch ++ if vchSecret.fCompressed then [1] else []⟩

/-- `GetKey`; there is no key when the bytes are not a valid one. -/
def getKey (data : CBase58Data) : Option CKey :=
  CKey.set (data.vchData.take 32) (32 < data.vchData.length && data.vchData[32]? = some 1)

def isValid (data : CBase58Data) : Bool :=
  let fExpectedFormat := data.vchData.length = 32 ∨
    data.vchData.length = 33 ∧ data.vchData[32]? = some 1
  fExpectedFormat ∧ data.vchVersion = [F.SECRET_KEY]

def setString (strSecret : List UInt8) : Option CBase58Data :=
  (CBase58Data.setString F (cStr strSecret)).filter (isValid F)

end CBitcoinSecret

/-! ## Lines -/

/-- What follows the time of a key: the label of its address, or whether it is in the key pool. -/
def dumpMark (strLabel : Option (List UInt8)) (fReserve : Bool) : List UInt8 :=
  match strLabel with
  | some strLabel => ascii "label=" ++ encodeDumpString strLabel
  | none => if fReserve then ascii "reserve=1" else ascii "change=1"

/-- The line of a key, without its end. -/
def dumpLine (key : CKey) (nTime : ℤ) (mark : List UInt8) (keyid : CKeyID) : List UInt8 :=
  (CBitcoinSecret.setKey F key).toString F ++ ascii " " ++ F.encodeDumpTime nTime ++ ascii " " ++
    mark ++ ascii " # addr=" ++ (bitcoinAddress F keyid).toString F

/-- The loop of `importwallet` over the marks of a line: `strLabel` and `fLabel`. -/
def readMarks (strLabel : List UInt8) (fLabel : Bool) :
    List (List UInt8) → List UInt8 × Bool
  | [] => (strLabel, fLabel)
  | str :: vstr =>
    if ascii "#" <+: str then (strLabel, fLabel)
    else
      let fLabel := if str = ascii "change=1" then false else fLabel
      let fLabel := if str = ascii "reserve=1" then false else fLabel
      if ascii "label=" <+: str then readMarks (decodeDumpString (str.drop 6)) true vstr
      else readMarks strLabel fLabel vstr

end

/-! ## Secrets are read back -/

section

variable {F : DumpFormat}

theorem length_checksum (vch : List UInt8) : (checksum F vch).length = 4 := Codec.length_toLE 4 _

theorem decodeBase58Check_encodeBase58Check (vch : List UInt8) :
    decodeBase58Check F (encodeBase58Check F vch) = some vch := by
  have hlen : (vch ++ checksum F vch).length - 4 = vch.length := by
    rw [List.length_append, length_checksum, Nat.add_sub_cancel]
  have hlong : ¬ (vch ++ checksum F vch).length < 4 := by
    rw [List.length_append, length_checksum]
    omega
  rw [decodeBase58Check, encodeBase58Check, decodeBase58_encodeBase58]
  dsimp only
  rw [if_neg hlong, hlen, List.take_left, List.drop_left, if_neg (not_not.2 rfl)]

theorem CBase58Data.setString_toString {b : UInt8} (vch : List UInt8) :
    CBase58Data.setString F ((⟨[b], vch⟩ : CBase58Data).toString F) = some ⟨[b], vch⟩ := by
  rw [CBase58Data.setString, CBase58Data.toString, decodeBase58Check_encodeBase58Check]
  rfl

/-- The characters of Base58 are neither spaces nor ends of lines, and none is `#`. -/
theorem graph_of_mem_pszBase58 :
    ∀ c ∈ pszBase58, c ≠ 0x20 ∧ c ≠ 0x0a ∧ c ≠ 0x23 := by decide +kernel

theorem isBase58_toString (data : CBase58Data) : IsBase58 (data.toString F) :=
  isBase58_encodeBase58 _

namespace CBitcoinSecret

theorem isValid_setKey (key : CKey) : isValid F (setKey F key) = true := by
  have hlen := key.valid.1
  rcases key with ⟨vch, - | -, hvalid⟩
  · rw [isValid, setKey]
    refine decide_eq_true ⟨.inl ?_, rfl⟩
    rw [if_neg Bool.false_ne_true, List.append_nil]
    exact hlen
  · rw [isValid, setKey]
    refine decide_eq_true ⟨.inr ⟨?_, ?_⟩, rfl⟩
    · rw [if_pos rfl, List.length_append]
      exact congrArg (· + 1) hlen
    · rw [if_pos rfl]
      exact hlen ▸ List.getElem?_concat_length

theorem getKey_setKey (key : CKey) : getKey (setKey F key) = some key := by
  have hset := CKey.set_vch key
  have hlen := key.valid.1
  rcases key with ⟨vch, - | -, hvalid⟩
  · have hshort : ¬ 32 < vch.length := hlen.le.not_gt
    rw [getKey, setKey, if_neg Bool.false_ne_true, List.append_nil,
      List.take_of_length_le hlen.le, decide_eq_false hshort, Bool.false_and]
    exact hset
  · have hlong : 32 < (vch ++ [(1 : UInt8)]).length := by
      rw [List.length_append]
      exact Nat.lt_succ_of_le hlen.ge
    have hlast : (vch ++ [(1 : UInt8)])[32]? = some 1 := hlen ▸ List.getElem?_concat_length
    rw [getKey, setKey, if_pos rfl, decide_eq_true hlong, decide_eq_true hlast,
      List.take_left' hlen]
    exact hset

/-- **A secret is read back with its compression.** -/
theorem getKey_setString (key : CKey) :
    ∃ data, setString F ((setKey F key).toString F) = some data ∧ getKey data = some key := by
  refine ⟨setKey F key, ?_, getKey_setKey key⟩
  rw [setString, cStr_of_isBase58 (isBase58_toString _), setKey, CBase58Data.setString_toString]
  exact Option.filter_eq_some_iff.2 ⟨rfl, isValid_setKey key⟩

end CBitcoinSecret

/-! ## Marks are read back -/

/-- The mark of a line is read back: the label, and whether there is one. -/
theorem readMarks_dumpMark (strLabel : Option (List UInt8)) (fReserve : Bool)
    (rest : List (List UInt8)) :
    readMarks [] true (dumpMark strLabel fReserve :: ascii "#" :: rest) =
      (strLabel.getD [], strLabel.isSome) := by
  have hend : ∀ str fLabel, readMarks str fLabel (ascii "#" :: rest) = (str, fLabel) := by
    intro str fLabel
    rw [readMarks, if_pos (List.prefix_refl _)]
  rcases strLabel with - | strLabel
  · cases fReserve <;> exact hend [] false
  · have hcomment : ¬ ascii "#" <+: ascii "label=" ++ encodeDumpString strLabel := by
      rintro ⟨_, h⟩
      exact absurd (List.cons.inj h).1 (by decide)
    have hdrop : (ascii "label=" ++ encodeDumpString strLabel).drop 6 =
        encodeDumpString strLabel := rfl
    rw [dumpMark, readMarks, if_neg hcomment]
    dsimp only
    rw [if_pos (List.prefix_append _ _), hdrop, decodeDumpString_encodeDumpString, hend]
    rfl

/-- A mark is one word. -/
theorem dumpMark_graph (strLabel : Option (List UInt8)) (fReserve : Bool) :
    ∀ c ∈ dumpMark strLabel fReserve, 32 < c := by
  rcases strLabel with - | strLabel
  · cases fReserve <;> decide +kernel
  · have hlabel : ∀ c ∈ ascii "label=", 32 < c := by decide +kernel
    intro c hc
    rcases List.mem_append.1 hc with hc | hc
    · exact hlabel c hc
    · exact (encodeDumpString_graph strLabel c hc).1

end

end Bws
