import Bws.DumpFile
import Bws.CreateTransaction
import Bws.Lib.Canonical

/-!
# Addresses

A destination is a key or a script by its hash.  It is written as text, with a version byte and a
checksum, and it is paid by a script.  Both ways lead back: an address is read as the destination it
was made of, and a valid text is, without the whitespace around it, the only one of its destination
(`CBitcoinAddress.address_correct`).
-/

namespace Bws

/-! ## The source -/

/-- The version bytes of both kinds of addresses. -/
structure AddressFormat extends DumpFormat where
  SCRIPT_ADDRESS : UInt8
  /-- the prefixes of a network differ -/
  ne : PUBKEY_ADDRESS ≠ SCRIPT_ADDRESS

namespace CBitcoinAddress

variable (F : AddressFormat)

/-- `CBitcoinAddress(dest)`; without a destination nothing is set. -/
def set : CTxDestination → CBase58Data
  | .keyID id => ⟨[F.PUBKEY_ADDRESS], Codec.toLE 20 id⟩
  | .scriptID id => ⟨[F.SCRIPT_ADDRESS], Codec.toLE 20 id⟩
  | .noDestination => ⟨[], []⟩

/-- `CBitcoinAddress(strAddress)` -/
def setString (strAddress : List UInt8) : CBase58Data :=
  (CBase58Data.setString F.toDumpFormat (cStr strAddress)).getD ⟨[], []⟩

def isValid (address : CBase58Data) : Bool :=
  let fCorrectSize := address.vchData.length = 20
  let fKnownVersion := address.vchVersion = [F.PUBKEY_ADDRESS] ∨ address.vchVersion = [F.SCRIPT_ADDRESS]
  fCorrectSize ∧ fKnownVersion

def get (address : CBase58Data) : CTxDestination :=
  if !isValid F address then .noDestination
  else
    let id := leNat (address.vchData.take 20)
    if address.vchVersion = [F.PUBKEY_ADDRESS] then .keyID id
    else if address.vchVersion = [F.SCRIPT_ADDRESS] then .scriptID id
    else .noDestination

def toString (address : CBase58Data) : List UInt8 := address.toString F.toDumpFormat

end CBitcoinAddress

/-- A destination whose hash is a number of 160 bits. -/
def CTxDestination.Valid : CTxDestination → Prop
  | .noDestination => False
  | .keyID id => id < 2 ^ 160
  | .scriptID id => id < 2 ^ 160

/-! ## Text -/

section

variable {F : DumpFormat}

/-- What is decoded is what the trimmed text encodes. -/
theorem encodeBase58Check_of_decode {psz vch : List UInt8} (h : decodeBase58Check F psz = some vch) :
    encodeBase58Check F vch = trim psz := by
  rw [decodeBase58Check, decodeBase58_eq_trim] at h
  by_cases hbase : IsBase58 (trim psz)
  · obtain ⟨v, hv, henc⟩ := encodeBase58_decodeBase58 hbase
    rw [if_pos hbase, hv] at h
    dsimp only at h
    split_ifs at h with hlen hsum
    cases h
    rw [encodeBase58Check, not_not.1 hsum, List.take_append_drop, henc]
  · rw [if_neg hbase] at h
    cases h

theorem CBase58Data.toString_of_setString {psz : List UInt8} {data : CBase58Data}
    (h : CBase58Data.setString F psz = some data) : data.toString F = trim psz := by
  rw [CBase58Data.setString] at h
  split_ifs at h with hlen
  cases h
  cases hdecode : decodeBase58Check F psz with
  | none => exact absurd (by rw [hdecode]; decide) hlen
  | some vch =>
    rw [CBase58Data.toString, Option.getD_some, List.take_append_drop]
    exact encodeBase58Check_of_decode hdecode

end

namespace CBitcoinAddress

variable {F : AddressFormat} {dest dest' : CTxDestination} {address : CBase58Data}

theorem isValid_set (hdest : dest.Valid) : isValid F (set F dest) = true := by
  cases dest with
  | noDestination => exact hdest.elim
  | keyID id => exact decide_eq_true ⟨Codec.length_toLE 20 id, .inl rfl⟩
  | scriptID id => exact decide_eq_true ⟨Codec.length_toLE 20 id, .inr rfl⟩

theorem leNat_toLE {id : ℕ} (h : id < 2 ^ 160) : leNat ((Codec.toLE 20 id).take 20) = id := by
  rw [List.take_of_length_le (Codec.length_toLE 20 id).le, leNat_eq_ofLE]
  exact Codec.ofLE_toLE h

theorem get_set (hdest : dest.Valid) : get F (set F dest) = dest := by
  have hvalid : (!isValid F (set F dest)) = false := by rw [isValid_set hdest, Bool.not_true]
  rw [get, if_neg (by rw [hvalid]; exact Bool.false_ne_true)]
  dsimp only
  cases dest with
  | noDestination => exact hdest.elim
  | keyID id =>
    rw [set, if_pos rfl, leNat_toLE hdest]
  | scriptID id =>
    have hne : [F.SCRIPT_ADDRESS] ≠ [F.PUBKEY_ADDRESS] := fun h ↦ F.ne (List.cons.inj h).1.symm
    rw [set, if_neg hne, if_pos rfl, leNat_toLE hdest]

/-- A valid address is that of its destination. -/
theorem set_get (h : isValid F address = true) :
    (get F address).Valid ∧ set F (get F address) = address := by
  obtain ⟨hlen, hversion⟩ := of_decide_eq_true h
  have hid : leNat (address.vchData.take 20) < 2 ^ 160 ∧
      Codec.toLE 20 (leNat (address.vchData.take 20)) = address.vchData := by
    have hlt := SignMagnitude.ofLE_lt address.vchData
    have hback := Codec.toLE_ofLE address.vchData
    rw [hlen] at hlt hback
    rw [List.take_of_length_le hlen.le, leNat_eq_ofLE]
    exact ⟨hlt, hback⟩
  rw [get, if_neg (by rw [h]; decide)]
  dsimp only
  rcases hversion with hpubkey | hscript
  · rw [if_pos hpubkey]
    exact ⟨hid.1, by rw [set, hid.2, ← hpubkey]⟩
  · have hne : address.vchVersion ≠ [F.PUBKEY_ADDRESS] := by
      rw [hscript]
      exact fun h ↦ F.ne (List.cons.inj h).1.symm
    rw [if_neg hne, if_pos hscript]
    exact ⟨hid.1, by rw [set, hid.2, ← hscript]⟩

theorem setString_toString (hdest : dest.Valid) :
    setString F (toString F (set F dest)) = set F dest := by
  have hone : ∃ b vch, set F dest = ⟨[b], vch⟩ := by
    cases dest with
    | noDestination => exact hdest.elim
    | keyID id => exact ⟨_, _, rfl⟩
    | scriptID id => exact ⟨_, _, rfl⟩
  obtain ⟨b, vch, hset⟩ := hone
  rw [setString, toString, cStr_of_isBase58 (isBase58_toString _), hset,
    CBase58Data.setString_toString, Option.getD_some]

theorem toString_setString {str : List UInt8} (h : isValid F (setString F str) = true) :
    toString F (setString F str) = trim (cStr str) := by
  rw [setString] at h ⊢
  cases hset : CBase58Data.setString F.toDumpFormat (cStr str) with
  | none =>
    rw [hset, Option.getD_none] at h
    cases h
  | some data => exact CBase58Data.toString_of_setString hset

end CBitcoinAddress

/-! ## Scripts -/

section

variable {n : ℕ} {opcode1 opcode2 : UInt8} {template : List UInt8} {script pc1 : CScript}
  {vch vch1 : valtype} {sol : List valtype} {S : SolverParams}

theorem matchTemplate_of_matchOp (hop : opcode2 ≠ OP_PUBKEYS)
    (hget : getOp script = some (opcode1, vch1, pc1))
    (hmatch : matchOp n opcode2 opcode1 vch1 = some sol) :
    matchTemplate n (opcode2 :: template) script =
      (matchTemplate n template pc1).map (sol ++ ·) := by
  rw [matchTemplate, hget]
  dsimp only
  rw [if_neg hop, hmatch]

theorem matchTemplate_of_mismatch (hop : opcode2 ≠ OP_PUBKEYS)
    (hget : getOp script = some (opcode1, vch1, pc1))
    (hmatch : matchOp n opcode2 opcode1 vch1 = none) :
    matchTemplate n (opcode2 :: template) script = none := by
  rw [matchTemplate, hget]
  dsimp only
  rw [if_neg hop, hmatch]

/-- A script of one opcode that ends where it begins. -/
theorem matchTemplate_last (opcode : UInt8) (hop : opcode ≠ OP_PUBKEYS)
    (hself : matchOp n opcode opcode [] = some []) (hget : getOp [opcode] = some (opcode, [], [])) :
    matchTemplate n [opcode] [opcode] = some [] := by
  rw [matchTemplate_of_matchOp hop hget hself]
  rfl

theorem length_pushData_ge (vch : valtype) : vch.length + 1 ≤ (pushData vch).length := by
  unfold pushData
  dsimp only
  split_ifs <;> simp

/-- Pay to a public key. -/
theorem solver_payToPubKey (hsize : isKeySize vch) :
    solver n (pushData vch ++ [OP_CHECKSIG]) = some (.TX_PUBKEY, [vch]) := by
  have hp2sh : ¬ isPayToScriptHash (pushData vch ++ [OP_CHECKSIG]) := by
    rintro ⟨hlen, -⟩
    have hlong := length_pushData_ge vch
    rw [List.length_append] at hlen
    have hmin := hsize.1
    omega
  obtain ⟨opcode, -, hget⟩ := getOp_pushData (hsize.2.trans (by decide)) [OP_CHECKSIG]
  have hmatch : matchOp n OP_PUBKEY opcode vch = some [vch] := by
    rw [matchOp, if_pos rfl, if_pos hsize]
  have hpubkey : matchTemplate n [OP_PUBKEY, OP_CHECKSIG] (pushData vch ++ [OP_CHECKSIG]) =
      some [vch] := by
    rw [matchTemplate_of_matchOp (by decide) hget hmatch,
      matchTemplate_last OP_CHECKSIG (by decide) rfl rfl]
    rfl
  rw [solver, if_neg hp2sh, mTemplates, scanTemplates, hpubkey]
  exact if_neg fun h ↦ by cases h.1

/-- Pay to the hash of a public key. -/
theorem solver_payToPubKeyHash (hlen : vch.length = 20) :
    solver n ([OP_DUP, OP_HASH160] ++ pushData vch ++ [OP_EQUALVERIFY, OP_CHECKSIG]) =
      some (.TX_PUBKEYHASH, [vch]) := by
  obtain ⟨opcode, -, hget⟩ :=
    getOp_pushData (hlen.trans_le (by decide)) [OP_EQUALVERIFY, OP_CHECKSIG]
  have hscript : [OP_DUP, OP_HASH160] ++ pushData vch ++ [OP_EQUALVERIFY, OP_CHECKSIG] =
      OP_DUP :: OP_HASH160 :: (pushData vch ++ [OP_EQUALVERIFY, OP_CHECKSIG]) := rfl
  have hdup : getOp (OP_DUP :: OP_HASH160 :: (pushData vch ++ [OP_EQUALVERIFY, OP_CHECKSIG])) =
      some (OP_DUP, [], OP_HASH160 :: (pushData vch ++ [OP_EQUALVERIFY, OP_CHECKSIG])) :=
    getOp_cons rfl
  have hhash : getOp (OP_HASH160 :: (pushData vch ++ [OP_EQUALVERIFY, OP_CHECKSIG])) =
      some (OP_HASH160, [], pushData vch ++ [OP_EQUALVERIFY, OP_CHECKSIG]) := getOp_cons rfl
  have hmatch : matchOp n OP_PUBKEYHASH opcode vch = some [vch] := by
    rw [matchOp, if_neg (by decide), if_pos rfl, if_pos hlen]
  have hp2sh : ¬ isPayToScriptHash
      (OP_DUP :: OP_HASH160 :: (pushData vch ++ [OP_EQUALVERIFY, OP_CHECKSIG])) := by
    rintro ⟨-, hfirst, -⟩
    exact absurd (Option.some.inj hfirst) (by decide)
  have hpubkey : matchTemplate n [OP_PUBKEY, OP_CHECKSIG]
      (OP_DUP :: OP_HASH160 :: (pushData vch ++ [OP_EQUALVERIFY, OP_CHECKSIG])) = none :=
    matchTemplate_of_mismatch (by decide) hdup rfl
  have hend : matchTemplate n [OP_EQUALVERIFY, OP_CHECKSIG] [OP_EQUALVERIFY, OP_CHECKSIG] =
      some [] := by
    rw [matchTemplate_of_matchOp (by decide) (getOp_cons rfl) rfl,
      matchTemplate_last OP_CHECKSIG (by decide) rfl rfl]
    rfl
  have hpubkeyhash : matchTemplate n [OP_DUP, OP_HASH160, OP_PUBKEYHASH, OP_EQUALVERIFY, OP_CHECKSIG]
      (OP_DUP :: OP_HASH160 :: (pushData vch ++ [OP_EQUALVERIFY, OP_CHECKSIG])) = some [vch] := by
    rw [matchTemplate_of_matchOp (by decide) hdup rfl,
      matchTemplate_of_matchOp (by decide) hhash rfl,
      matchTemplate_of_matchOp (by decide) hget hmatch, hend]
    rfl
  rw [hscript, solver, if_neg hp2sh, mTemplates, scanTemplates, hpubkey]
  dsimp only
  rw [scanTemplates, hpubkeyhash]
  exact if_neg fun h ↦ by cases h.1

/-- **The script that pays a destination shows it.** -/
theorem extractDestination_setDestination {dest : CTxDestination} (hdest : dest.Valid) :
    extractDestination S (setDestination dest) = some dest := by
  have huint : ∀ id, id < 2 ^ 160 → uint160 (Codec.toLE 20 id) = id := by
    intro id hid
    rw [uint160, if_pos (Codec.length_toLE 20 id), leNat_eq_ofLE]
    exact Codec.ofLE_toLE hid
  cases dest with
  | noDestination => exact hdest.elim
  | keyID id =>
    rw [extractDestination, setDestination, solver_payToPubKeyHash (Codec.length_toLE 20 id)]
    exact congrArg (some ∘ CTxDestination.keyID) (huint id hdest)
  | scriptID id =>
    have hlen := Codec.length_toLE 20 id
    have hpush : pushData (Codec.toLE 20 id) = 0x14 :: Codec.toLE 20 id := by
      rw [pushData, hlen]
      rfl
    have hp2sh : isPayToScriptHash ([OP_HASH160] ++ pushData (Codec.toLE 20 id) ++ [OP_EQUAL]) := by
      rw [hpush]
      refine ⟨?_, rfl, rfl, ?_⟩
      · simp [hlen]
      · exact List.getElem?_append_right (by simp) |>.trans (by simp)
    have hdrop : (([OP_HASH160] ++ pushData (Codec.toLE 20 id) ++ [OP_EQUAL]).drop 2).take 20 =
        Codec.toLE 20 id := by
      rw [hpush]
      exact List.take_left' hlen
    rw [extractDestination, setDestination, solver_of_isPayToScriptHash hp2sh, hdrop]
    exact congrArg (some ∘ CTxDestination.scriptID) (huint id hdest)

end

namespace CBitcoinAddress

variable {F : AddressFormat}

/-- **Destinations, addresses and scripts.**  The text of an address is read as its destination, and
the script that pays it shows the destination again.  A text that is accepted is up to whitespace the
one that is written for its destination, so that no other text has the same destination. -/
theorem address_correct (F : AddressFormat) (S : SolverParams) :
    (∀ dest, dest.Valid → isValid F (setString F (toString F (set F dest))) = true ∧
      get F (setString F (toString F (set F dest))) = dest ∧
      extractDestination S (setDestination dest) = some dest) ∧
    (∀ str, isValid F (setString F str) = true → (get F (setString F str)).Valid ∧
      toString F (set F (get F (setString F str))) = trim (cStr str)) ∧
    ∀ str str', isValid F (setString F str) = true → isValid F (setString F str') = true →
      get F (setString F str) = get F (setString F str') → trim (cStr str) = trim (cStr str') := by
  have hback : ∀ str, isValid F (setString F str) = true → (get F (setString F str)).Valid ∧
      toString F (set F (get F (setString F str))) = trim (cStr str) := by
    intro str hvalid
    obtain ⟨hdest, hset⟩ := set_get hvalid
    exact ⟨hdest, by rw [hset, toString_setString hvalid]⟩
  refine ⟨fun dest hdest ↦ ?_, hback, fun str str' hvalid hvalid' heq ↦ ?_⟩
  · rw [setString_toString hdest]
    exact ⟨isValid_set hdest, get_set hdest, extractDestination_setDestination hdest⟩
  · rw [← (hback str hvalid).2, ← (hback str' hvalid').2, heq]

end CBitcoinAddress

namespace Sample

/-- The prefixes of the main network, and the hash of the address of a key. -/
def addressFormat : AddressFormat where
  hash vch :=
    if vch = 25 :: Codec.toLE 20 0x10f1856cc154aa551571175ed842837364716127 then
      0x63e5a1561b6345c8cdff97afde78bab1813ff07af3e8eefbd4dd644401981db3
    else 0
  PUBKEY_ADDRESS := 25
  SECRET_KEY := 45
  encodeDumpTime _ := []
  decodeDumpTime _ := 0
  CLIENT_BUILD := []
  CLIENT_DATE := []
  SCRIPT_ADDRESS := 85
  ne := by decide

end Sample

theorem CBitcoinAddress.address_correct_sample :
    get Sample.addressFormat (setString Sample.addressFormat (toString Sample.addressFormat
      (set Sample.addressFormat (.keyID 0x10f1856cc154aa551571175ed842837364716127)))) =
        .keyID 0x10f1856cc154aa551571175ed842837364716127 ∧
    toString Sample.addressFormat (set Sample.addressFormat (get Sample.addressFormat
      (setString Sample.addressFormat (ascii " B83JheiAjBSHMdkbqrNbwWP7FwtgiFmRqa ")))) =
        ascii "B83JheiAjBSHMdkbqrNbwWP7FwtgiFmRqa" := by
  obtain ⟨hread, hback, -⟩ := address_correct Sample.addressFormat
    ⟨⟨id, id, id, id, id, fun _ _ ↦ 0, fun _ _ _ ↦ true⟩, 83⟩
  have hvalid : (CTxDestination.keyID 0x10f1856cc154aa551571175ed842837364716127).Valid := by
    change _ < 2 ^ 160
    decide
  refine ⟨(hread _ hvalid).2.1, ?_⟩
  rw [(hback _ (by decide +kernel)).2]
  decide +kernel

end Bws
