import Bws.Balance
import Bws.BlockByHeight
import Bws.ImportWallet
import Bws.Lib.Decimal

/-!
# Writing a wallet to a file and reading it back

`dumpwallet` goes over the keys that have a birth time.  For some it is in the metadata; for the
others `GetKeyBirthTimes` takes the first block with a transaction that affects them, or a block far
below the best one.  A key that is not in one of the two maps would be left out of the file.

What is written is read back: in a wallet that has none of the keys, and can encrypt what it is
given, `importwallet` adds all of them as they were, and gives their labels to those that had one
(`importwallet_dumpwallet`).  The scan that follows takes keys from the pool and makes new ones, and
labels some of these, but none of those that have been imported (`RescanStep.keeps`).
-/

namespace Bws

/-! ## Affected keys -/

section

variable (S : SolverParams)

/-- `ExtractDestinations`: `typeRet`, `addressRet` and `nRequiredRet`. -/
def extractDestinations (scriptPubKey : CScript) :
    Option (txnouttype × List CTxDestination × ℕ) :=
  match solver S.nMaxDatacarrierBytes scriptPubKey with
  | none => none
  -- this is data, not addresses
  | some (.TX_NULL_DATA, _) => none
  | some (.TX_MULTISIG, vSolutions) =>
    some (.TX_MULTISIG, vSolutions.tail.dropLast.map fun vch ↦ .keyID (keyIDOf S.crypto vch),
      firstByte (vSolutions.headD []))
  | some (typeRet, _) =>
    (extractDestination S scriptPubKey).map fun address ↦ (typeRet, [address], 1)

namespace BookWallet

variable (w : BookWallet)

/-- `CAffectedKeysVisitor::Process`, for at most as many redeem scripts one inside another as the
first argument is. -/
def affectedKeysWithin : ℕ → CScript → List CKeyID
  | 0, _ => []
  | depth + 1, script =>
    match extractDestinations S script with
    | none => []
    | some (_, vDest, _) => vDest.flatMap fun dest ↦
      match dest with
      | .noDestination => []
      | .keyID keyId => if w.haveKey keyId then [keyId] else []
      | .scriptID scriptId =>
        match w.mapScripts[scriptId]? with
        | none => []
        | some script => affectedKeysWithin depth script

/-- `ExtractAffectedKeys`: redeem scripts one inside another are all different. -/
def extractAffectedKeys (scriptPubKey : CScript) : List CKeyID :=
  w.affectedKeysWithin S (w.mapScripts.size + 1) scriptPubKey

end BookWallet

end

/-! ## Birth times -/

/-- `GetKeys` -/
def CCryptoKeyStore.getKeys (s : CCryptoKeyStore) : List CKeyID :=
  if !s.isCrypted then s.mapKeys.keys else s.mapCryptedKeys.keys

/-- `mapKeyFirstBlock` -/
abbrev FirstBlocks := Std.TreeMap CKeyID CBlockIndex

/-- `pindex` affects the key, and becomes its first block where the one that is noted is higher. -/
def FirstBlocks.lower (pindex : CBlockIndex) (mapKeyFirstBlock : FirstBlocks) (keyid : CKeyID) :
    FirstBlocks :=
  match mapKeyFirstBlock[keyid]? with
  | none => mapKeyFirstBlock
  | some first =>
    if pindex.nHeight < first.nHeight then mapKeyFirstBlock.insert keyid pindex
    else mapKeyFirstBlock

namespace BookWallet

section

variable (S : SolverParams) (s : NodeState) (w : BookWallet)

/-- A transaction of the wallet that is already in a block, in the loop of `GetKeyBirthTimes`. -/
def lowerFirstBlocks (mapKeyFirstBlock : FirstBlocks) (wtx : CWalletTx) : FirstBlocks :=
  match s.mapBlockIndex wtx.hashBlock with
  | none => mapKeyFirstBlock
  | some pindex =>
    if s.isInMainChain pindex then
      (wtx.vout.flatMap fun txout ↦ w.extractAffectedKeys S txout.scriptPubKey).foldl
        (FirstBlocks.lower pindex) mapKeyFirstBlock
    else mapKeyFirstBlock

/-- The birth times that are in the metadata. -/
def metadataTimes : Std.TreeMap CKeyID ℤ :=
  w.mapKeyMetadata.filter fun _ nCreateTime ↦ nCreateTime ≠ 0

/-- The other keys, each with the first block that affects it, or `pindexMax`. -/
def firstBlocks (pindexMax : CBlockIndex) : FirstBlocks :=
  let keys := w.getKeys.filter fun keyid ↦ !w.metadataTimes.contains keyid
  w.mapWallet.foldl (w.lowerFirstBlocks S s) (.ofList (keys.map fun keyid ↦ (keyid, pindexMax)))

/-- `GetKeyBirthTimes`, with the node after it.  Block times can be two hours off, and are of 32
bits. -/
def getKeyBirthTimes : Except Fault (Std.TreeMap CKeyID ℤ × NodeState) := do
  -- the tip can be reorganised; use a 144-block safety margin
  let (pindexMax, s') ← s.findBlockByHeight (max 0 (s.nBestHeight - 144))
  .ok (w.metadataTimes.insertMany ((w.firstBlocks S s pindexMax).toList.map fun (keyid, pindex) ↦
    (keyid, ((pindex.val.nTime : ℤ) - 7200) % 2 ^ 32)), s')

end

/-! ## dumpwallet -/

section

variable (O : KeyOps) (F : DumpFormat) (S : SolverParams) (w : BookWallet)

/-- The loop of `GetAllReserveKeys`. -/
def reserveKeysOf : List ℤ → Except Fault (Finset CKeyID)
  | [] => .ok ∅
  | id :: ids =>
    match w.pool id with
    | none => .error (.thrown "GetAllReserveKeyHashes() : read failed")
    | some vchPubKey =>
      if ¬ isValidPubKey vchPubKey then .error (.thrown "assert(keypool.vchPubKey.IsValid())")
      else if !w.haveKey (O.getID vchPubKey) then
        .error (.thrown "GetAllReserveKeyHashes() : unknown key in key pool")
      else do
        let setAddress ← reserveKeysOf ids
        .ok (insert (O.getID vchPubKey) setAddress)

def getAllReserveKeys : Except Fault (Finset CKeyID) :=
  w.reserveKeysOf O (w.setKeyPool.sort (· ≤ ·))

/-- The time/key pairs in their order. -/
def sortedBirths (mapKeyBirth : Std.TreeMap CKeyID ℤ) : List (ℤ × CKeyID) :=
  (mapKeyBirth.toList.map Prod.swap).insertionSort fun a b ↦ a.1 < b.1 ∨ a.1 = b.1 ∧ a.2 ≤ b.2

/-- The loop of `dumpwallet`: a line for every key, without its end. -/
def dumpKeys (setKeyPool : Finset CKeyID) :
    List (ℤ × CKeyID) → Except Fault (List (List UInt8))
  | [] => .ok []
  | (nTime, keyid) :: vKeyBirth =>
    match w.getKey O keyid with
    | none => dumpKeys setKeyPool vKeyBirth
    | some none => .error (.thrown "assert(vchSecret.IsValid())")
    | some (some key) => do
      let lines ← dumpKeys setKeyPool vKeyBirth
      let mark := dumpMark (w.mapAddressBook (.keyID keyid)) (keyid ∈ setKeyPool)
      .ok (dumpLine F key nTime mark keyid :: lines)

end

end BookWallet

section

variable (O : KeyOps) (F : DumpFormat) (S : SolverParams)

/-- `"%i"` -/
def printInt (n : ℤ) : List UInt8 :=
  (if n < 0 then ascii "-" else []) ++ Decimal.text n.natAbs

/-- The lines that a file begins with. -/
def dumpHeader (nNow nBestHeight : ℤ) (hashBestChain : UInt256) (nTime : ℤ) : List (List UInt8) :=
  [ascii "# Wallet dump created by Bws " ++ F.CLIENT_BUILD ++ ascii " (" ++ F.CLIENT_DATE ++
      ascii ")",
    ascii "# * Created on " ++ F.encodeDumpTime nNow,
    ascii "# * Best block at time of backup was " ++ printInt nBestHeight ++ ascii " (" ++
      hexStr (Codec.toLE 32 hashBestChain).reverse ++ ascii "),",
    ascii "#   mined on " ++ F.encodeDumpTime nTime,
    []]

/-- Every line with its end. -/
def unlines (lines : List (List UInt8)) : List UInt8 := lines.flatMap (· ++ [0x0a])

/-- `dumpwallet`, with the node after it; `fOpen` is whether the file could be opened, and `nNow`
the time. -/
def dumpwallet (fWalletUnlockStakingOnly fOpen : Bool) (nNow : ℤ) (s : NodeState) (w : BookWallet) :
    Except Fault (List UInt8 × NodeState) :=
  if w.isLocked then
    .error (.thrown "Error: Please enter the wallet passphrase with walletpassphrase first.")
  else if fWalletUnlockStakingOnly then
    .error (.thrown "Error: Wallet is unlocked for staking only.")
  else if !fOpen then .error (.thrown "Cannot open wallet dump file")
  else do
    let (mapKeyBirth, s) ← w.getKeyBirthTimes S s
    let setKeyPool ← w.getAllReserveKeys O
    match s.pindexBest with
    | none => .error (.thrown "pindexBest->nTime")
    | some pindexBest =>
      let lines ← w.dumpKeys O F setKeyPool (BookWallet.sortedBirths mapKeyBirth)
      .ok (unlines (dumpHeader F nNow s.nBestHeight s.hashBestChain pindexBest.val.nTime ++ lines ++
        [[], ascii "# End of dump"]), s)

end

/-! ## Lines are read back -/

section

variable {F : DumpFormat}

theorem splitOn_unlines {lines : List (List UInt8)} (h : ∀ line ∈ lines, (0x0a : UInt8) ∉ line) :
    (unlines lines).splitOn 0x0a = lines ++ [[]] := by
  induction lines with
  | nil => rfl
  | cons line lines ih =>
    rw [List.forall_mem_cons] at h
    have hlines : unlines (line :: lines) = line ++ 0x0a :: unlines lines := by
      rw [unlines, List.flatMap_cons, List.append_assoc]
      rfl
    rw [hlines, List.splitOn_append_cons_self_of_not_mem h.1, ih h.2]
    rfl

theorem not_mem_toString (data : CBase58Data) :
    (0x20 : UInt8) ∉ data.toString F ∧ (0x0a : UInt8) ∉ data.toString F ∧
      (0x23 : UInt8) ∉ data.toString F := by
  have hgraph := fun c h ↦ graph_of_mem_pszBase58 c (isBase58_toString (F := F) data c h)
  exact ⟨fun h ↦ (hgraph _ h).1 rfl, fun h ↦ (hgraph _ h).2.1 rfl, fun h ↦ (hgraph _ h).2.2 rfl⟩

theorem not_mem_dumpMark (strLabel : Option (List UInt8)) (fReserve : Bool) :
    (0x20 : UInt8) ∉ dumpMark strLabel fReserve ∧ (0x0a : UInt8) ∉ dumpMark strLabel fReserve := by
  have hgraph := dumpMark_graph strLabel fReserve
  exact ⟨fun h ↦ absurd (hgraph _ h) (by decide), fun h ↦ absurd (hgraph _ h) (by decide)⟩

theorem wordsOf_append {str : List UInt8} (hspace : (0x20 : UInt8) ∉ str)
    (hcomment : (0x23 : UInt8) ∉ str) (line : List UInt8) :
    wordsOf (str ++ 0x20 :: line) = str :: line.splitOn 0x20 := by
  have hwords : ¬ (str ++ 0x20 :: line = [] ∨ (str ++ 0x20 :: line).head? = some 0x23) := by
    rcases str with - | ⟨c, str⟩
    · simp
    · simp only [List.cons_append, List.head?_cons, Option.some.injEq, reduceCtorEq, false_or]
      rintro rfl
      exact hcomment List.mem_cons_self
  rw [wordsOf, if_neg hwords, List.splitOn_append_cons_self_of_not_mem hspace]

/-- The words of a line: its secret and its time, the mark, and a comment. -/
theorem wordsOf_dumpLine (hF : F.Lawful) (key : CKey) (nTime : ℤ) (strLabel : Option (List UInt8))
    (fReserve : Bool) (keyid : CKeyID) :
    wordsOf (dumpLine F key nTime (dumpMark strLabel fReserve) keyid) =
      [(CBitcoinSecret.setKey F key).toString F, F.encodeDumpTime nTime,
        dumpMark strLabel fReserve, ascii "#",
        ascii "addr=" ++ (bitcoinAddress F keyid).toString F] := by
  obtain ⟨hsecret, -, hcomment⟩ := not_mem_toString (F := F) (CBitcoinSecret.setKey F key)
  have haddr : (0x20 : UInt8) ∉ ascii "addr=" ++ (bitcoinAddress F keyid).toString F := by
    rw [List.mem_append, not_or]
    exact ⟨by decide, (not_mem_toString _).1⟩
  have hline : dumpLine F key nTime (dumpMark strLabel fReserve) keyid =
      (CBitcoinSecret.setKey F key).toString F ++ 0x20 :: (F.encodeDumpTime nTime ++
        0x20 :: (dumpMark strLabel fReserve ++ 0x20 :: (ascii "#" ++
          0x20 :: (ascii "addr=" ++ (bitcoinAddress F keyid).toString F)))) := by
    simp only [dumpLine, List.append_assoc]
    rfl
  rw [hline, wordsOf_append hsecret hcomment,
    List.splitOn_append_cons_self_of_not_mem (hF.encodeDumpTime nTime).1,
    List.splitOn_append_cons_self_of_not_mem (not_mem_dumpMark strLabel fReserve).1,
    List.splitOn_append_cons_self_of_not_mem (by decide), List.splitOn_eq_singleton haddr]

theorem newline_not_mem_dumpLine (hF : F.Lawful) (key : CKey) (nTime : ℤ)
    (strLabel : Option (List UInt8)) (fReserve : Bool) (keyid : CKeyID) :
    (0x0a : UInt8) ∉ dumpLine F key nTime (dumpMark strLabel fReserve) keyid := by
  simp only [dumpLine, List.mem_append, not_or]
  refine ⟨⟨⟨⟨⟨⟨?_, by decide⟩, ?_⟩, by decide⟩, ?_⟩, by decide⟩, ?_⟩
  · exact (not_mem_toString _).2.1
  · exact (hF.encodeDumpTime nTime).2
  · exact (not_mem_dumpMark strLabel fReserve).2
  · exact (not_mem_toString _).2.1

theorem newline_not_mem_printInt (n : ℤ) : (0x0a : UInt8) ∉ printInt n := by
  have htext : (0x0a : UInt8) ∉ Decimal.text n.natAbs :=
    fun h ↦ absurd (Decimal.isDigit_of_mem_text _ h) (by decide)
  rw [printInt, List.mem_append, not_or]
  refine ⟨?_, htext⟩
  split
  · decide
  · exact List.not_mem_nil

theorem newline_not_mem_hexStr (vch : List UInt8) : (0x0a : UInt8) ∉ hexStr vch :=
  fun h ↦ absurd (hexStr_graph vch _ h).1 (by decide)

/-- The lines before the first key are comments, but for an empty one. -/
theorem dumpHeader_skipped (hF : F.Lawful) (nNow nBestHeight : ℤ) (hashBestChain : UInt256)
    (nTime : ℤ) : ∀ line ∈ dumpHeader F nNow nBestHeight hashBestChain nTime,
      wordsOf line = [] ∧ (0x0a : UInt8) ∉ line := by
  have hbuild : (0x0a : UInt8) ∉ ascii "# Wallet dump created by Bws " := by decide +kernel
  have hcreated : (0x0a : UInt8) ∉ ascii "# * Created on " := by decide +kernel
  have hbest : (0x0a : UInt8) ∉ ascii "# * Best block at time of backup was " := by decide +kernel
  have hmined : (0x0a : UInt8) ∉ ascii "#   mined on " := by decide +kernel
  simp only [dumpHeader, List.forall_mem_cons, List.mem_append, not_or]
  refine ⟨⟨if_pos (.inr rfl), ?_⟩, ⟨if_pos (.inr rfl), ?_⟩, ⟨if_pos (.inr rfl), ?_⟩,
    ⟨if_pos (.inr rfl), ?_⟩, ⟨if_pos (.inl rfl), ?_⟩, ?_⟩
  · exact ⟨⟨⟨⟨hbuild, hF.build.1⟩, by decide⟩, hF.build.2⟩, by decide⟩
  · exact ⟨hcreated, (hF.encodeDumpTime nNow).2⟩
  · exact ⟨⟨⟨⟨hbest, newline_not_mem_printInt nBestHeight⟩, by decide⟩,
      newline_not_mem_hexStr _⟩, by decide⟩
  · exact ⟨hmined, (hF.encodeDumpTime nTime).2⟩
  · exact List.not_mem_nil
  · exact fun _ h ↦ absurd h List.not_mem_nil

end

/-! ## Adding a key -/

namespace CCryptoKeyStore

variable {O : KeyOps} {s : CCryptoKeyStore}

/-- Where there is encryption there is a master key that the cipher takes, and it encrypts every
secret. -/
def CanEncrypt (O : KeyOps) (s : CCryptoKeyStore) : Prop :=
  s.isCrypted = true → s.vMasterKey.length = 32 ∧
    ∀ nIV vch, vch.length = 32 → (O.encrypt s.vMasterKey nIV vch).isSome = true

/-- A key is refused, or enters one of the two maps. -/
theorem addKeyPubKey_cases (O : KeyOps) (s : CCryptoKeyStore) (key : CKey) (pubkey : CPubKey) :
    (s.isCrypted = true ∧
      (s.isLocked = true ∨ encryptSecret O s.vMasterKey key.vch (O.getHash pubkey) = none) ∧
      s.addKeyPubKey O key pubkey = (s, false)) ∨
    (s.isCrypted = false ∧ s.addKeyPubKey O key pubkey =
      ({ s with mapKeys := s.mapKeys.insert (O.getID pubkey) key }, true)) ∨
    ∃ vch, s.isCrypted = true ∧
      encryptSecret O s.vMasterKey key.vch (O.getHash pubkey) = some vch ∧
      s.addKeyPubKey O key pubkey =
        ({ s with mapCryptedKeys := s.mapCryptedKeys.insert (O.getID pubkey) (pubkey, vch) },
          true) := by
  unfold addKeyPubKey
  rcases Bool.eq_false_or_eq_true s.isCrypted with hcrypted | hcrypted
  · rw [hcrypted, Bool.not_true, if_neg Bool.false_ne_true]
    by_cases hlocked : s.isLocked = true
    · exact .inl ⟨rfl, .inl hlocked, if_pos hlocked⟩
    · rw [if_neg hlocked]
      cases hencrypt : encryptSecret O s.vMasterKey key.vch (O.getHash pubkey) with
      | none => exact .inl ⟨rfl, .inr rfl, rfl⟩
      | some vch =>
        refine .inr (.inr ⟨vch, rfl, rfl, ?_⟩)
        simp only [addCryptedKey, setCrypted_of_crypted hcrypted]
  · exact .inr (.inl ⟨hcrypted, by rw [hcrypted]; rfl⟩)

/-- The other addresses are as they were. -/
theorem addKeyPubKey_of_ne (s : CCryptoKeyStore) (key : CKey) {pubkey : CPubKey} {id : CKeyID}
    (h : O.getID pubkey ≠ id) :
    (s.addKeyPubKey O key pubkey).1.haveKey id = s.haveKey id ∧
      (s.addKeyPubKey O key pubkey).1.getKey O id = s.getKey O id := by
  have hne : compare (O.getID pubkey) id ≠ .eq := by simpa using h
  obtain ⟨-, -, hs⟩ | ⟨-, hs⟩ | ⟨vch, -, -, hs⟩ := addKeyPubKey_cases O s key pubkey
  · rw [hs]
    exact ⟨rfl, rfl⟩
  · rw [hs]
    constructor
    · simp [haveKey, isCrypted, Std.TreeMap.contains_insert, beq_false_of_ne hne]
    · simp [getKey, isCrypted, Std.TreeMap.getElem?_insert, hne]
  · rw [hs]
    constructor
    · simp [haveKey, isCrypted, Std.TreeMap.contains_insert, beq_false_of_ne hne]
    · simp [getKey, isCrypted, Std.TreeMap.getElem?_insert, hne]

/-- A store that can encrypt takes every key, and gives it back. -/
theorem CanEncrypt.addKeyPubKey (hO : O.Lawful) (h : s.CanEncrypt O) (key : CKey) :
    ∃ s', s.addKeyPubKey O key (O.getPubKey key) = (s', true) ∧ s'.CanEncrypt O ∧
      s'.haveKey (O.getID (O.getPubKey key)) = true ∧
      s'.getKey O (O.getID (O.getPubKey key)) = some (some key) := by
  have hdecrypt : ∀ vch, encryptSecret O s.vMasterKey key.vch (O.getHash (O.getPubKey key)) =
      some vch → decryptSecret O s.vMasterKey vch (O.getHash (O.getPubKey key)) = some key.vch := by
    intro vch hencrypt
    unfold encryptSecret at hencrypt
    unfold decryptSecret
    split_ifs at hencrypt ⊢
    exact hO.decrypt_encrypt hencrypt
  obtain ⟨hcrypted, hrefused, -⟩ | ⟨hplain, hs⟩ | ⟨vch, hcrypted, hencrypt, hs⟩ :=
    addKeyPubKey_cases O s key (O.getPubKey key)
  · obtain ⟨hlen, hencrypt⟩ := h hcrypted
    obtain ⟨vch, hvch⟩ := Option.isSome_iff_exists.1
      (hencrypt (O.getHash (O.getPubKey key)) key.vch key.valid.1)
    rcases hrefused with hlocked | hnone
    · rw [isLocked, hcrypted, Bool.true_and, List.isEmpty_iff] at hlocked
      rw [hlocked] at hlen
      cases hlen
    · rw [encryptSecret, if_neg (not_not.2 hlen), hvch] at hnone
      cases hnone
  · refine ⟨_, hs, fun hon ↦ absurd hon (by rw [isCrypted] at hplain ⊢; simp [hplain]), ?_, ?_⟩
    · rw [isCrypted] at hplain
      simp [haveKey, isCrypted, hplain]
    · rw [isCrypted] at hplain
      simp [getKey, isCrypted, hplain]
  · refine ⟨_, hs, h, ?_, ?_⟩
    · rw [isCrypted] at hcrypted
      simp [haveKey, isCrypted, hcrypted]
    · rw [isCrypted] at hcrypted
      simp [getKey, isCrypted, hcrypted, hdecrypt vch hencrypt, key.valid.1,
        hO.isCompressed_getPubKey, CKey.set_vch]

end CCryptoKeyStore

namespace BookWallet

variable {O : KeyOps} {w w' w'' : BookWallet} {id : CKeyID}

/-- The wallets have the same key under an address, and the same label. -/
structure SameAt (O : KeyOps) (w w' : BookWallet) (id : CKeyID) : Prop where
  haveKey : w'.haveKey id = w.haveKey id
  getKey : w'.getKey O id = w.getKey O id
  label : w'.mapAddressBook (.keyID id) = w.mapAddressBook (.keyID id)

theorem SameAt.refl (w : BookWallet) : SameAt O w w id := ⟨rfl, rfl, rfl⟩

theorem SameAt.trans (h : SameAt O w w' id) (h' : SameAt O w' w'' id) : SameAt O w w'' id :=
  ⟨h'.haveKey.trans h.haveKey, h'.getKey.trans h.getKey, h'.label.trans h.label⟩

/-- A key enters the store, and has metadata then. -/
theorem addKeyPubKey_spec (O : KeyOps) (w : BookWallet) (key : CKey) (pubkey : CPubKey) :
    ∃ mapKeyMetadata, w.addKeyPubKey O key pubkey =
      ({ w with
        toCCryptoKeyStore := (w.toCCryptoKeyStore.addKeyPubKey O key pubkey).1
        mapKeyMetadata }, (w.toCCryptoKeyStore.addKeyPubKey O key pubkey).2) := by
  unfold addKeyPubKey
  rcases w.toCCryptoKeyStore.addKeyPubKey O key pubkey with ⟨store, - | -⟩
  · exact ⟨w.mapKeyMetadata, rfl⟩
  · exact ⟨_, rfl⟩

theorem addKeyPubKey_sameAt {key : CKey} {pubkey : CPubKey} (h : O.getID pubkey ≠ id) :
    SameAt O w (w.addKeyPubKey O key pubkey).1 id := by
  obtain ⟨mapKeyMetadata, hspec⟩ := addKeyPubKey_spec O w key pubkey
  obtain ⟨hhave, hget⟩ := CCryptoKeyStore.addKeyPubKey_of_ne w.toCCryptoKeyStore key h
  rw [hspec]
  exact ⟨hhave, hget, rfl⟩

end BookWallet

/-! ## What a scan does to the wallet -/

namespace BookWallet

variable (O : KeyOps) (w : BookWallet)

/-- `GenerateNewKey`, where the key that is made is `secret`. -/
def generateNewKey (secret : CKey) (nCreationTime : ℤ) : BookWallet × Bool :=
  let w := { w.setCreateTime (O.getID (O.getPubKey secret)) nCreationTime with
    nTimeFirstKey := earlier w.nTimeFirstKey nCreationTime }
  w.addKeyPubKey O secret (O.getPubKey secret)

/-- The index after the last one of the pool. -/
def nEnd : ℤ :=
  match w.setKeyPool.max with
  | none => 1
  | some nLast => nLast + 1

/-- `WritePool(nEnd, CKeyPool(vchPubKey))`, and the index enters the pool. -/
def writePool (vchPubKey : CPubKey) : BookWallet :=
  { w with
    setKeyPool := insert w.nEnd w.setKeyPool
    pool := Function.update w.pool w.nEnd (some vchPubKey) }

/-- `KeepKey(nIndex)`, of an index that is taken from the pool. -/
def takeIndex (nIndex : ℤ) : BookWallet :=
  { w with
    setKeyPool := w.setKeyPool.erase nIndex
    pool := Function.update w.pool nIndex none }

/-- `AddToWallet`: another key becomes the default one. -/
def replaceDefaultKey (newDefaultKey : CPubKey) : BookWallet :=
  { w with vchDefaultKey := newDefaultKey }.setAddressBookName (.keyID (O.getID newDefaultKey)) []

end BookWallet

/-- What `ScanForWalletTransactions` and `ReacceptWalletTransactions` do to the wallet, step by
step.  `AddToWallet` takes a key from the pool when the default key has been used, and the pool is
filled up before.  A new key is not one that the wallet has. -/
inductive RescanStep (O : KeyOps) : BookWallet → BookWallet → Prop
  | transactions (w : BookWallet) (mapWallet : List CWalletTx) : RescanStep O w { w with mapWallet }
  | topUpKeyPool {w w' : BookWallet} {secret : CKey} (nCreationTime : ℤ)
      (hfresh : w.haveKey (O.getID (O.getPubKey secret)) = false)
      (hadd : w.generateNewKey O secret nCreationTime = (w', true)) :
      RescanStep O w (w'.writePool (O.getPubKey secret))
  | getKeyFromPool {w : BookWallet} {nIndex : ℤ} {vchPubKey : CPubKey}
      (hmem : nIndex ∈ w.setKeyPool) (hread : w.pool nIndex = some vchPubKey)
      (hhave : w.haveKey (O.getID vchPubKey) = true) :
      RescanStep O w ((w.takeIndex nIndex).replaceDefaultKey O vchPubKey)
  | generateNewKey {w w' : BookWallet} {secret : CKey} (nCreationTime : ℤ)
      (hfresh : w.haveKey (O.getID (O.getPubKey secret)) = false)
      (hadd : w.generateNewKey O secret nCreationTime = (w', true)) :
      RescanStep O w (w'.replaceDefaultKey O (O.getPubKey secret))

/-- The wallet has a key under the address, and it is not in the key pool. -/
structure BookWallet.Spares (O : KeyOps) (w : BookWallet) (id : CKeyID) : Prop where
  haveKey : w.haveKey id = true
  pool : ∀ nIndex ∈ w.setKeyPool, ∀ vchPubKey ∈ w.pool nIndex, O.getID vchPubKey ≠ id

section

variable {O : KeyOps} {w w' : BookWallet} {id : CKeyID}

namespace BookWallet

theorem writePool_sameAt (vchPubKey : CPubKey) : SameAt O w (w.writePool vchPubKey) id :=
  ⟨rfl, rfl, rfl⟩

theorem takeIndex_sameAt (nIndex : ℤ) : SameAt O w (w.takeIndex nIndex) id := ⟨rfl, rfl, rfl⟩

theorem setAddressBookName_sameAt {keyid : CKeyID} (hne : keyid ≠ id) (strName : List UInt8) :
    SameAt O w (w.setAddressBookName (.keyID keyid) strName) id := by
  refine ⟨rfl, rfl, Function.update_of_ne (fun h ↦ hne ?_) _ _⟩
  exact (CTxDestination.keyID.inj h).symm

theorem replaceDefaultKey_sameAt {newDefaultKey : CPubKey} (hne : O.getID newDefaultKey ≠ id) :
    SameAt O w (w.replaceDefaultKey O newDefaultKey) id :=
  have hdefault : SameAt O w { w with vchDefaultKey := newDefaultKey } id := ⟨rfl, rfl, rfl⟩
  hdefault.trans (setAddressBookName_sameAt hne [])

/-- A new key has another address. -/
theorem Spares.ne_of_fresh (h : w.Spares O id) {keyid : CKeyID} (hfresh : w.haveKey keyid = false) :
    keyid ≠ id := by
  rintro rfl
  exact Bool.false_ne_true (hfresh.symm.trans h.haveKey)

theorem Spares.generateNewKey (h : w.Spares O id) {secret : CKey} {nCreationTime : ℤ} {ok : Bool}
    (hadd : w.generateNewKey O secret nCreationTime = (w', ok))
    (hne : O.getID (O.getPubKey secret) ≠ id) : w'.Spares O id ∧ w.SameAt O w' id := by
  unfold BookWallet.generateNewKey at hadd
  obtain ⟨mapKeyMetadata, hspec⟩ := addKeyPubKey_spec O
    { w.setCreateTime (O.getID (O.getPubKey secret)) nCreationTime with
      nTimeFirstKey := earlier w.nTimeFirstKey nCreationTime } secret (O.getPubKey secret)
  rw [hspec] at hadd
  cases hadd
  obtain ⟨hhave, hget⟩ := CCryptoKeyStore.addKeyPubKey_of_ne w.toCCryptoKeyStore secret hne
  exact ⟨⟨hhave.trans h.haveKey, h.pool⟩, hhave, hget, rfl⟩

theorem Spares.writePool (h : w.Spares O id) {vchPubKey : CPubKey} (hne : O.getID vchPubKey ≠ id) :
    (w.writePool vchPubKey).Spares O id where
  haveKey := h.haveKey
  pool nIndex hmem vchPubKey' hread := by
    simp only [BookWallet.writePool] at hmem hread
    by_cases hend : nIndex = w.nEnd
    · rw [hend, Function.update_self] at hread
      rw [← Option.some.inj hread]
      exact hne
    · rw [Function.update_of_ne hend] at hread
      exact h.pool nIndex (Finset.mem_of_mem_insert_of_ne hmem hend) vchPubKey' hread

theorem Spares.takeIndex (h : w.Spares O id) (nIndex : ℤ) : (w.takeIndex nIndex).Spares O id where
  haveKey := h.haveKey
  pool n hmem vchPubKey hread := by
    simp only [BookWallet.takeIndex] at hmem hread
    obtain ⟨hother, hmem⟩ := Finset.mem_erase.1 hmem
    rw [Function.update_of_ne hother] at hread
    exact h.pool n hmem vchPubKey hread

theorem Spares.replaceDefaultKey (h : w.Spares O id) (newDefaultKey : CPubKey) :
    (w.replaceDefaultKey O newDefaultKey).Spares O id := ⟨h.haveKey, h.pool⟩

end BookWallet

/-- A scan takes keys from the pool, and makes new ones; it leaves all others as they are. -/
theorem RescanStep.keeps (h : RescanStep O w w') (hspares : w.Spares O id) :
    w'.Spares O id ∧ w.SameAt O w' id := by
  cases h with
  | transactions mapWallet => exact ⟨⟨hspares.haveKey, hspares.pool⟩, rfl, rfl, rfl⟩
  | topUpKeyPool nCreationTime hfresh hadd =>
    have hne := hspares.ne_of_fresh hfresh
    obtain ⟨hspares', hsame⟩ := hspares.generateNewKey hadd hne
    exact ⟨hspares'.writePool hne, hsame.trans (BookWallet.writePool_sameAt _)⟩
  | @getKeyFromPool nIndex vchPubKey hmem hread hhave =>
    have hne := hspares.pool nIndex hmem vchPubKey hread
    refine ⟨(hspares.takeIndex nIndex).replaceDefaultKey vchPubKey, ?_⟩
    exact (BookWallet.takeIndex_sameAt nIndex).trans (BookWallet.replaceDefaultKey_sameAt hne)
  | generateNewKey nCreationTime hfresh hadd =>
    have hne := hspares.ne_of_fresh hfresh
    obtain ⟨hspares', hsame⟩ := hspares.generateNewKey hadd hne
    exact ⟨hspares'.replaceDefaultKey _, hsame.trans (BookWallet.replaceDefaultKey_sameAt hne)⟩

theorem Rescans.keeps (h : Relation.ReflTransGen (RescanStep O) w w') (hspares : w.Spares O id) :
    w'.Spares O id ∧ w.SameAt O w' id := by
  induction h with
  | refl => exact ⟨hspares, .refl w⟩
  | tail _ hstep ih =>
    obtain ⟨hspares', hsame⟩ := ih
    obtain ⟨hspares'', hsame'⟩ := hstep.keeps hspares'
    exact ⟨hspares'', hsame.trans hsame'⟩

end

/-! ## Lines are imported -/

/-- What a line says about a key. -/
structure DumpedKey where
  key : CKey
  nTime : ℤ
  strLabel : Option (List UInt8)
  fReserve : Bool

section

variable (O : KeyOps) (F : DumpFormat)

def DumpedKey.keyid (d : DumpedKey) : CKeyID := O.getID (O.getPubKey d.key)

def DumpedKey.line (d : DumpedKey) : List UInt8 :=
  dumpLine F d.key d.nTime (dumpMark d.strLabel d.fReserve) (d.keyid O)

/-- The keys have been added, with their labels, and everything else about keys is as it was. -/
structure Imported (w w' : BookWallet) (dumped : List DumpedKey) : Prop where
  canEncrypt : w'.CanEncrypt O
  setKeyPool : w'.setKeyPool = w.setKeyPool
  pool : w'.pool = w.pool
  haveKey : ∀ d ∈ dumped, w'.haveKey (d.keyid O) = true
  getKey : ∀ d ∈ dumped, w'.getKey O (d.keyid O) = some (some d.key)
  label : ∀ d ∈ dumped, w'.mapAddressBook (.keyID (d.keyid O)) =
    d.strLabel.or (w.mapAddressBook (.keyID (d.keyid O)))
  others : ∀ id, (∀ d ∈ dumped, d.keyid O ≠ id) → w.SameAt O w' id

end

section

variable {O : KeyOps} {F : DumpFormat} {w w' w'' : BookWallet}

theorem Imported.cons {d : DumpedKey} {dumped : List DumpedKey} (h : Imported O w w' [d])
    (h' : Imported O w' w'' dumped) (hnew : ∀ d' ∈ dumped, d'.keyid O ≠ d.keyid O) :
    Imported O w w'' (d :: dumped) where
  canEncrypt := h'.canEncrypt
  setKeyPool := h'.setKeyPool.trans h.setKeyPool
  pool := h'.pool.trans h.pool
  haveKey := by
    rw [List.forall_mem_cons]
    exact ⟨(h'.others _ hnew).haveKey.trans (h.haveKey d List.mem_cons_self), h'.haveKey⟩
  getKey := by
    rw [List.forall_mem_cons]
    exact ⟨(h'.others _ hnew).getKey.trans (h.getKey d List.mem_cons_self), h'.getKey⟩
  label := by
    rw [List.forall_mem_cons]
    refine ⟨(h'.others _ hnew).label.trans (h.label d List.mem_cons_self), fun d' hd' ↦ ?_⟩
    have hne : ∀ d₀ ∈ [d], d₀.keyid O ≠ d'.keyid O :=
      List.forall_mem_singleton.2 (hnew d' hd').symm
    rw [h'.label d' hd', (h.others _ hne).label]
  others id hid := by
    rw [List.forall_mem_cons] at hid
    exact (h.others id (List.forall_mem_singleton.2 hid.1)).trans (h'.others id hid.2)

/-- A key that the wallet does not have is added. -/
theorem importKey_dumped (hO : O.Lawful) {st : ImportLoop} (hcan : st.wallet.CanEncrypt O)
    (d : DumpedKey) (hnew : st.wallet.haveKey (d.keyid O) = false) (strTime : List UInt8)
    {vstr : List (List UInt8)}
    (hmarks : readMarks [] true vstr = (d.strLabel.getD [], d.strLabel.isSome)) :
    (importKey O F st d.key strTime vstr).fGood = st.fGood ∧
      Imported O st.wallet (importKey O F st d.key strTime vstr).wallet [d] := by
  obtain ⟨store, hstore, hcan', hhave, hget⟩ := hcan.addKeyPubKey hO d.key
  obtain ⟨mapKeyMetadata, hadd⟩ :=
    BookWallet.addKeyPubKey_spec O st.wallet d.key (O.getPubKey d.key)
  have hsame : ∀ id, d.keyid O ≠ id → st.wallet.SameAt O
      (st.wallet.addKeyPubKey O d.key (O.getPubKey d.key)).1 id :=
    fun _ hne ↦ BookWallet.addKeyPubKey_sameAt hne
  rw [hstore] at hadd
  rw [hadd] at hsame
  have hnot : ¬ st.wallet.haveKey (O.getID (O.getPubKey d.key)) = true :=
    fun h ↦ Bool.false_ne_true (hnew.symm.trans h)
  simp only [importKey, if_neg hnot, hmarks, hadd]
  refine ⟨trivial, ?_⟩
  cases hlabel : d.strLabel with
  | none =>
    rw [Option.isSome_none, if_neg Bool.false_ne_true]
    refine ⟨hcan', rfl, rfl, ?_, ?_, ?_, fun id hothers ↦ ?_⟩
    · exact List.forall_mem_singleton.2 hhave
    · exact List.forall_mem_singleton.2 hget
    · rw [List.forall_mem_singleton, hlabel]
      rfl
    · obtain ⟨h₁, h₂, h₃⟩ := hsame id (hothers d List.mem_cons_self)
      exact ⟨h₁, h₂, h₃⟩
  | some strLabel =>
    rw [Option.isSome_some, if_pos rfl]
    refine ⟨hcan', rfl, rfl, ?_, ?_, ?_, fun id hothers ↦ ?_⟩
    · exact List.forall_mem_singleton.2 hhave
    · exact List.forall_mem_singleton.2 hget
    · rw [List.forall_mem_singleton, hlabel]
      exact Function.update_self _ _ _
    · have hne := hothers d List.mem_cons_self
      obtain ⟨h₁, h₂, -⟩ := hsame id hne
      exact ⟨h₁, h₂, (BookWallet.setAddressBookName_sameAt (O := O) hne strLabel).label⟩

/-- One round of the loop, over the line of a key. -/
theorem importLine_line (hO : O.Lawful) (hF : F.Lawful) {st : ImportLoop}
    (hcan : st.wallet.CanEncrypt O) (d : DumpedKey)
    (hnew : st.wallet.haveKey (d.keyid O) = false) :
    ∃ st', importLine O F (d.line O F) st = .ok () st' ∧ st'.fGood = st.fGood ∧
      Imported O st.wallet st'.wallet [d] := by
  obtain ⟨vchSecret, hset, hkey⟩ := CBitcoinSecret.getKey_setString (F := F) d.key
  refine ⟨_, ?_, importKey_dumped (F := F) hO hcan d hnew (F.encodeDumpTime d.nTime)
    (readMarks_dumpMark d.strLabel d.fReserve
      [ascii "addr=" ++ (bitcoinAddress F (d.keyid O)).toString F])⟩
  rw [importLine, DumpedKey.line, wordsOf_dumpLine hF]
  simp only [hset, hkey]

/-- The loop over the lines of keys that the wallet does not have. -/
theorem importLines_dumped (hO : O.Lawful) (hF : F.Lawful) {dumped : List DumpedKey}
    (hdistinct : dumped.Pairwise fun d d' ↦ d.keyid O ≠ d'.keyid O) (st : ImportLoop)
    (hcan : st.wallet.CanEncrypt O)
    (hnew : ∀ d ∈ dumped, st.wallet.haveKey (d.keyid O) = false) :
    ∃ st', importLines O F (dumped.map (DumpedKey.line O F)) st = .ok () st' ∧
      st'.fGood = st.fGood ∧ Imported O st.wallet st'.wallet dumped := by
  induction dumped generalizing st with
  | nil =>
    have hnone : ∀ {P : DumpedKey → Prop}, ∀ d ∈ ([] : List DumpedKey), P d :=
      fun _ h ↦ absurd h List.not_mem_nil
    exact ⟨st, rfl, rfl, hcan, rfl, rfl, hnone, hnone, hnone, fun _ _ ↦ .refl _⟩
  | cons d dumped ih =>
    rw [List.pairwise_cons] at hdistinct
    rw [List.forall_mem_cons] at hnew
    obtain ⟨st₁, hline, hgood₁, h₁⟩ := importLine_line hO hF hcan d hnew.1
    have hnew₁ : ∀ d' ∈ dumped, st₁.wallet.haveKey (d'.keyid O) = false := by
      intro d' hd'
      have hsame := h₁.others _ (List.forall_mem_singleton.2 (hdistinct.1 d' hd'))
      exact hsame.haveKey.trans (hnew.2 d' hd')
    obtain ⟨st₂, hlines, hgood₂, h₂⟩ := ih hdistinct.2 st₁ h₁.canEncrypt hnew₁
    refine ⟨st₂, ?_, hgood₂.trans hgood₁, h₁.cons h₂ fun d' hd' ↦ (hdistinct.1 d' hd').symm⟩
    rw [List.map_cons, importLines]
    simp only [hline, hlines]

end

/-! ## The file is imported -/

section

variable {O : KeyOps} {F : DumpFormat} {w w' : BookWallet}

theorem importLines_skip {lines : List (List UInt8)} (h : ∀ line ∈ lines, wordsOf line = [])
    (rest : List (List UInt8)) (st : ImportLoop) :
    importLines O F (lines ++ rest) st = importLines O F rest st := by
  induction lines with
  | nil => rfl
  | cons line lines ih =>
    rw [List.forall_mem_cons] at h
    have hline : importLine O F line st = .ok () st := by
      rw [importLine, h.1]
    rw [List.cons_append, importLines]
    simp only [hline]
    exact ih h.2

theorem importLines_append {lines rest : List (List UInt8)} {st st' : ImportLoop}
    (h : importLines O F lines st = .ok () st') :
    importLines O F (lines ++ rest) st = importLines O F rest st' := by
  induction lines generalizing st with
  | nil =>
    cases h
    rfl
  | cons line lines ih =>
    rw [importLines] at h
    rw [List.cons_append, importLines]
    cases hline : importLine O F line st with
    | error e st₁ =>
      simp only [hline] at h
      cases h
    | ok _ st₁ =>
      simp only [hline] at h ⊢
      exact ih h

end

/-! ## Every key has a birth time -/

theorem CCryptoKeyStore.mem_getKeys {s : CCryptoKeyStore} {id : CKeyID}
    (h : s.haveKey id = true) : id ∈ s.getKeys := by
  unfold haveKey at h
  unfold getKeys
  split_ifs at h ⊢ with hplain
  · exact Std.TreeMap.mem_keys.2 h
  · exact Std.TreeMap.mem_keys.2 h

theorem CCryptoKeyStore.getKey_of_not_haveKey {O : KeyOps} {s : CCryptoKeyStore} {id : CKeyID}
    (h : s.haveKey id = false) : s.getKey O id = none := by
  unfold haveKey at h
  unfold getKey
  split_ifs at h ⊢ with hplain
  · rw [Std.TreeMap.getElem?_eq_none_of_contains_eq_false h]
    rfl
  · rw [Std.TreeMap.getElem?_eq_none_of_contains_eq_false h]

/-- A key that a block has been noted for keeps one. -/
theorem FirstBlocks.contains_lower {pindex : CBlockIndex} {mapKeyFirstBlock : FirstBlocks}
    {id : CKeyID} (h : mapKeyFirstBlock.contains id = true) (keyid : CKeyID) :
    (FirstBlocks.lower pindex mapKeyFirstBlock keyid).contains id = true := by
  unfold lower
  split
  · exact h
  · split_ifs
    · rw [Std.TreeMap.contains_insert, h, Bool.or_true]
    · exact h

namespace BookWallet

variable {S : SolverParams} {s s' : NodeState} {w : BookWallet} {id : CKeyID}

theorem contains_lowerFirstBlocks {mapKeyFirstBlock : FirstBlocks}
    (h : mapKeyFirstBlock.contains id = true) (wtx : CWalletTx) :
    (w.lowerFirstBlocks S s mapKeyFirstBlock wtx).contains id = true := by
  unfold lowerFirstBlocks
  split
  · exact h
  · split_ifs
    · exact List.foldlRecOn (motive := fun m : FirstBlocks ↦ m.contains id = true) _ _ h
        fun _ hm keyid _ ↦ FirstBlocks.contains_lower hm keyid
    · exact h

theorem contains_firstBlocks (hhave : w.haveKey id = true)
    (hnone : w.metadataTimes.contains id = false) (pindexMax : CBlockIndex) :
    (w.firstBlocks S s pindexMax).contains id = true := by
  unfold firstBlocks
  refine List.foldlRecOn (motive := fun m : FirstBlocks ↦ m.contains id = true) _ _ ?_
    fun _ hm wtx _ ↦ contains_lowerFirstBlocks hm wtx
  have hmem : id ∈ w.getKeys.filter fun keyid ↦ !w.metadataTimes.contains keyid := by
    rw [List.mem_filter, hnone]
    exact ⟨CCryptoKeyStore.mem_getKeys hhave, rfl⟩
  rw [Std.TreeMap.contains_ofList, List.contains_iff_mem, List.map_map]
  exact List.mem_map.2 ⟨id, hmem, rfl⟩

/-- The two maps together have every key. -/
theorem contains_getKeyBirthTimes {mapKeyBirth : Std.TreeMap CKeyID ℤ}
    (h : w.getKeyBirthTimes S s = .ok (mapKeyBirth, s')) (hhave : w.haveKey id = true) :
    mapKeyBirth.contains id = true := by
  simp only [getKeyBirthTimes, bind_eq_ok] at h
  obtain ⟨⟨pindexMax, s₁⟩, -, h⟩ := h
  cases h
  rw [Std.TreeMap.contains_insertMany_list]
  by_cases hmeta : w.metadataTimes.contains id = true
  · rw [hmeta, Bool.true_or]
  · have hfirst := contains_firstBlocks (S := S) (s := s) hhave (Bool.eq_false_iff.2 hmeta)
      pindexMax
    rw [List.map_map, Bool.or_eq_true, List.contains_iff_mem]
    right
    rw [← Std.TreeMap.mem_iff_contains, ← Std.TreeMap.mem_keys,
      ← Std.TreeMap.map_fst_toList_eq_keys] at hfirst
    exact hfirst

theorem perm_sortedBirths (mapKeyBirth : Std.TreeMap CKeyID ℤ) :
    (sortedBirths mapKeyBirth).Perm (mapKeyBirth.toList.map Prod.swap) :=
  List.perm_insertionSort _ _

theorem mem_sortedBirths {mapKeyBirth : Std.TreeMap CKeyID ℤ}
    (h : mapKeyBirth.contains id = true) : ∃ nTime, (nTime, id) ∈ sortedBirths mapKeyBirth := by
  rw [← Std.TreeMap.mem_iff_contains, ← Std.TreeMap.mem_keys,
    ← Std.TreeMap.map_fst_toList_eq_keys] at h
  obtain ⟨⟨_, nTime⟩, hmem, rfl⟩ := List.mem_map.1 h
  exact ⟨nTime, (perm_sortedBirths mapKeyBirth).mem_iff.2 (List.mem_map_of_mem hmem)⟩

/-- No key has two birth times. -/
theorem sortedBirths_distinct (mapKeyBirth : Std.TreeMap CKeyID ℤ) :
    (sortedBirths mapKeyBirth).Pairwise fun b b' ↦ b.2 ≠ b'.2 := by
  rw [(perm_sortedBirths mapKeyBirth).pairwise_iff fun h ↦ Ne.symm h, List.pairwise_map]
  apply mapKeyBirth.distinct_keys_toList.imp
  rintro b b' hne heq
  exact hne (compare_eq_iff_eq.2 heq)

end BookWallet

/-! ## What the file says -/

namespace BookWallet

variable {O : KeyOps} {F : DumpFormat} {w : BookWallet}

/-- What the line of a key says, where the wallet has the key. -/
def dumpedKey (O : KeyOps) (w : BookWallet) (setKeyPool : Finset CKeyID) (birth : ℤ × CKeyID) :
    Option DumpedKey :=
  (w.getKey O birth.2).join.map fun key ↦
    ⟨key, birth.1, w.mapAddressBook (.keyID birth.2), birth.2 ∈ setKeyPool⟩

/-- Every key that the wallet gives out is a valid one, under its own address. -/
def GivesKeys (O : KeyOps) (w : BookWallet) : Prop :=
  ∀ id, w.haveKey id = false ∧ w.getKey O id = none ∨
    ∃ key, w.getKey O id = some (some key) ∧ O.getID (O.getPubKey key) = id

theorem givesKeys_of_history (hO : O.Lawful) {added : CKeyID → Option CKey}
    (h : History O w.toCCryptoKeyStore added) (hlocked : w.isLocked = false) : w.GivesKeys O := by
  intro id
  have hholds := h.holdsKeys hO
  cases hadded : added id with
  | some key => exact .inr ⟨key, hholds.getKey hO hlocked hadded, hholds.matching id key hadded⟩
  | none =>
    have hhave : w.haveKey id = false := by
      rw [hholds.haveKey, hadded]
      rfl
    exact .inl ⟨hhave, CCryptoKeyStore.getKey_of_not_haveKey hhave⟩

/-- A line is written for every key that has a birth time. -/
theorem dumpKeys_eq (h : w.GivesKeys O) (setKeyPool : Finset CKeyID) (births : List (ℤ × CKeyID)) :
    w.dumpKeys O F setKeyPool births =
      .ok ((births.filterMap (w.dumpedKey O setKeyPool)).map (DumpedKey.line O F)) := by
  induction births with
  | nil => rfl
  | cons birth births ih =>
    obtain ⟨nTime, keyid⟩ := birth
    rw [dumpKeys]
    rcases h keyid with ⟨-, hnone⟩ | ⟨key, hsome, hid⟩
    · have hdumped : w.dumpedKey O setKeyPool (nTime, keyid) = none := by
        rw [dumpedKey, hnone]
        rfl
      rw [hnone, List.filterMap_cons_none hdumped]
      exact ih
    · have hdumped : w.dumpedKey O setKeyPool (nTime, keyid) =
          some ⟨key, nTime, w.mapAddressBook (.keyID keyid), keyid ∈ setKeyPool⟩ := by
        rw [dumpedKey, hsome]
        rfl
      rw [hsome, List.filterMap_cons_some hdumped, List.map_cons, DumpedKey.line, DumpedKey.keyid,
        hid]
      simp only [ih]
      rfl

end BookWallet

namespace BookWallet

variable {O : KeyOps} {F : DumpFormat} {S : SolverParams} {s s' : NodeState} {w : BookWallet}

/-- The keys that the wallet has have a line in the file each, with their labels. -/
structure Dumped (O : KeyOps) (w : BookWallet) (dumped : List DumpedKey) : Prop where
  distinct : dumped.Pairwise fun d d' ↦ d.keyid O ≠ d'.keyid O
  getKey : ∀ d ∈ dumped, w.getKey O (d.keyid O) = some (some d.key)
  label : ∀ d ∈ dumped, d.strLabel = w.mapAddressBook (.keyID (d.keyid O))
  all : ∀ id, w.haveKey id = true → ∃ d ∈ dumped, d.keyid O = id

theorem dumpedKey_eq_some (h : w.GivesKeys O) {setKeyPool : Finset CKeyID} {birth : ℤ × CKeyID}
    {d : DumpedKey} (hdumped : w.dumpedKey O setKeyPool birth = some d) :
    d.keyid O = birth.2 ∧ w.getKey O birth.2 = some (some d.key) ∧
      d.strLabel = w.mapAddressBook (.keyID birth.2) := by
  unfold dumpedKey at hdumped
  rcases h birth.2 with ⟨-, hnone⟩ | ⟨key, hsome, hid⟩
  · rw [hnone] at hdumped
    cases hdumped
  · rw [hsome] at hdumped
    cases hdumped
    exact ⟨hid, hsome, rfl⟩

theorem dumped_of_births (h : w.GivesKeys O) (setKeyPool : Finset CKeyID)
    {births : List (ℤ × CKeyID)} (hdistinct : births.Pairwise fun b b' ↦ b.2 ≠ b'.2)
    (hall : ∀ id, w.haveKey id = true → ∃ nTime, (nTime, id) ∈ births) :
    w.Dumped O (births.filterMap (w.dumpedKey O setKeyPool)) where
  distinct := by
    refine hdistinct.filterMap _ fun b b' hne d hd d' hd' ↦ ?_
    rw [(dumpedKey_eq_some h hd).1, (dumpedKey_eq_some h hd').1]
    exact hne
  getKey d hd := by
    obtain ⟨b, -, hb⟩ := List.mem_filterMap.1 hd
    obtain ⟨hid, hget, -⟩ := dumpedKey_eq_some h hb
    rwa [hid]
  label d hd := by
    obtain ⟨b, -, hb⟩ := List.mem_filterMap.1 hd
    obtain ⟨hid, -, hlabel⟩ := dumpedKey_eq_some h hb
    rwa [hid]
  all id hhave := by
    obtain ⟨nTime, hmem⟩ := hall id hhave
    rcases h id with ⟨hnot, -⟩ | ⟨key, hsome, hid⟩
    · exact absurd (hnot.symm.trans hhave) Bool.false_ne_true
    · refine ⟨⟨key, nTime, w.mapAddressBook (.keyID id), id ∈ setKeyPool⟩,
        List.mem_filterMap.2 ⟨_, hmem, ?_⟩, hid⟩
      rw [dumpedKey, hsome]
      rfl

/-- The file has a line for every key, between lines that are skipped. -/
theorem dumpwallet_spec (hO : O.Lawful) (hF : F.Lawful) {added : CKeyID → Option CKey}
    (h : History O w.toCCryptoKeyStore added) {fStaking fOpen : Bool} {nNow : ℤ}
    {file : List UInt8} (hdump : dumpwallet O F S fStaking fOpen nNow s w = .ok (file, s')) :
    ∃ before dumped after, w.Dumped O dumped ∧
      file.splitOn 0x0a = before ++ (dumped.map (DumpedKey.line O F) ++ after) ∧
      (∀ line ∈ before, wordsOf line = []) ∧ ∀ line ∈ after, wordsOf line = [] := by
  unfold dumpwallet at hdump
  split_ifs at hdump with hlocked hstaking hopen
  have hgives := givesKeys_of_history hO h (Bool.eq_false_iff.2 hlocked)
  simp only [bind_eq_ok] at hdump
  obtain ⟨⟨mapKeyBirth, s₁⟩, hbirth, setKeyPool, -, hdump⟩ := hdump
  cases hbest : s₁.pindexBest with
  | none =>
    rw [hbest] at hdump
    cases hdump
  | some pindexBest =>
    rw [hbest] at hdump
    simp only [dumpKeys_eq hgives] at hdump
    cases hdump
    have hheader := dumpHeader_skipped hF nNow s'.nBestHeight s'.hashBestChain
      pindexBest.val.nTime
    have hdumped := dumped_of_births hgives setKeyPool (sortedBirths_distinct mapKeyBirth)
      fun id hhave ↦ mem_sortedBirths (contains_getKeyBirthTimes hbirth hhave)
    refine ⟨_, _, [[], ascii "# End of dump", []], hdumped, ?_,
      fun line hline ↦ (hheader line hline).1, ?_⟩
    · rw [splitOn_unlines]
      · simp only [List.append_assoc]
        rfl
      · simp only [List.mem_append]
        rintro line ((hline | hline) | hline)
        · exact (hheader line hline).2
        · obtain ⟨d, -, rfl⟩ := List.mem_map.1 hline
          exact newline_not_mem_dumpLine hF _ _ _ _ _
        · revert line
          decide +kernel
    · simp only [List.forall_mem_cons]
      refine ⟨if_pos (.inl rfl), if_pos (.inr rfl), if_pos (.inl rfl), ?_⟩
      exact fun _ h ↦ absurd h List.not_mem_nil

end BookWallet

/-- The keys of the pool are keys of the wallet. -/
def BookWallet.PoolHeld (O : KeyOps) (w : BookWallet) : Prop :=
  ∀ nIndex ∈ w.setKeyPool, ∀ vchPubKey ∈ w.pool nIndex, w.haveKey (O.getID vchPubKey) = true

/-- **A wallet that has been written to a file is read back.** -/
theorem importwallet_dumpwallet {O : KeyOps} {F : DumpFormat} {S : SolverParams} (hO : O.Lawful)
    (hF : F.Lawful) {w₁ w₂ : BookWallet} {added : CKeyID → Option CKey}
    (h₁ : History O w₁.toCCryptoKeyStore added) {fStaking fOpen : Bool} {nNow : ℤ}
    {s s' : NodeState} {file : List UInt8}
    (hdump : dumpwallet O F S fStaking fOpen nNow s w₁ = .ok (file, s'))
    (hunlocked : w₂.isLocked = false) (hcan : w₂.CanEncrypt O) (hpool : w₂.PoolHeld O)
    (hnone : ∀ id, w₁.haveKey id = true → w₂.haveKey id = false)
    {rescan : BookWallet → BookWallet}
    (hrescan : ∀ w, Relation.ReflTransGen (RescanStep O) w (rescan w)) (pindexBest : CBlockIndex) :
    ∃ w', importwallet O F rescan false pindexBest (some file) w₂ = .ok () w' ∧
      ∀ id, w₁.haveKey id = true → ∃ key, w₁.getKey O id = some (some key) ∧
        w'.getKey O id = some (some key) ∧
        w'.mapAddressBook (.keyID id) =
          (w₁.mapAddressBook (.keyID id)).or (w₂.mapAddressBook (.keyID id)) := by
  obtain ⟨before, dumped, after, hdumped, hsplit, hbefore, hafter⟩ :=
    BookWallet.dumpwallet_spec hO hF h₁ hdump
  have hnew : ∀ d ∈ dumped, w₂.haveKey (d.keyid O) = false := by
    intro d hd
    apply hnone
    by_contra hnot
    have hget := CCryptoKeyStore.getKey_of_not_haveKey (O := O) (Bool.eq_false_iff.2 hnot)
    exact Option.some_ne_none _ ((hdumped.getKey d hd).symm.trans hget)
  obtain ⟨st, hlines, hgood, himported⟩ := importLines_dumped (F := F) hO hF hdumped.distinct
    ⟨w₂, true, pindexBest.val.nTime⟩ hcan hnew
  have hafter' : importLines O F after st = .ok () st := by
    have hskip := importLines_skip (O := O) (F := F) hafter [] st
    rwa [List.append_nil] at hskip
  have hfile : importLines O F (file.splitOn 0x0a) ⟨w₂, true, pindexBest.val.nTime⟩ =
      .ok () st := by
    rw [hsplit, importLines_skip hbefore, importLines_append hlines, hafter']
  have hnot : ¬ w₂.isLocked = true := Bool.eq_false_iff.1 hunlocked
  set w := { st.wallet with nTimeFirstKey := earlier st.wallet.nTimeFirstKey st.nTimeBegin } with hw
  refine ⟨rescan w, ?_, fun id hhave ↦ ?_⟩
  · simp only [importwallet, if_neg hnot, if_neg Bool.false_ne_true, hfile]
    exact if_pos hgood
  · obtain ⟨d, hd, rfl⟩ := hdumped.all id hhave
    have hspares : w.Spares O (d.keyid O) := by
      refine ⟨himported.haveKey d hd, fun nIndex hmem vchPubKey hread heq ↦ ?_⟩
      have hmem₂ : nIndex ∈ w₂.setKeyPool := himported.setKeyPool ▸ hmem
      have hread₂ : vchPubKey ∈ w₂.pool nIndex := himported.pool ▸ hread
      have hheld := hpool nIndex hmem₂ vchPubKey hread₂
      rw [heq, hnew d hd] at hheld
      exact Bool.false_ne_true hheld
    obtain ⟨-, hsame⟩ := Rescans.keeps (hrescan w) hspares
    refine ⟨d.key, hdumped.getKey d hd, ?_, ?_⟩
    · exact hsame.getKey.trans (himported.getKey d hd)
    · rw [hsame.label, ← hdumped.label d hd]
      exact himported.label d hd

namespace Sample

theorem lawful_dumpFormat : dumpFormat.Lawful where
  encodeDumpTime _ :=
    have hword : (0x20 : UInt8) ∉ ascii "1970-01-01T00:00:00Z" ∧
        (0x0a : UInt8) ∉ ascii "1970-01-01T00:00:00Z" := by decide +kernel
    hword
  build := ⟨List.not_mem_nil, List.not_mem_nil⟩

/-- A label that looks like the marks of a line. -/
def strangeLabel : List UInt8 := ascii " change=1 # 100%\n"

/-- A key that change went to, one in the key pool, and one in the pool of another wallet. -/
def changeKey : CKey := ⟨List.replicate 32 5, true, by decide⟩
def reserveKey : CKey := ⟨List.replicate 32 3, false, by decide⟩
def otherKey : CKey := ⟨List.replicate 32 8, true, by decide⟩

def idOf (key : CKey) : CKeyID := keyOps.getID (keyOps.getPubKey key)

/-- A store that has been encrypted and unlocked, with some keys. -/
def storeOf (secrets : List CKey) : CCryptoKeyStore :=
  secrets.foldl (fun s key ↦ (s.addKeyPubKey keyOps key (keyOps.getPubKey key)).1) unlocked

theorem storeOf_concat (secrets : List CKey) (key : CKey) : storeOf (secrets ++ [key]) =
    ((storeOf secrets).addKeyPubKey keyOps key (keyOps.getPubKey key)).1 := by
  rw [storeOf, List.foldl_append, List.foldl_cons, List.foldl_nil, ← storeOf]

theorem history_storeOf (secrets : List CKey) : ∃ added, History keyOps (storeOf secrets) added := by
  induction secrets using List.reverseRecOn with
  | nil => exact ⟨_, history_unlocked⟩
  | append_singleton secrets key ih =>
    obtain ⟨added, h⟩ := ih
    rw [storeOf_concat]
    exact ⟨_, h.step (.addKeyPubKey key) rfl⟩

theorem canEncrypt_storeOf (secrets : List CKey) : (storeOf secrets).CanEncrypt keyOps := by
  induction secrets using List.reverseRecOn with
  | nil => exact fun _ ↦ ⟨rfl, fun _ _ _ ↦ rfl⟩
  | append_singleton secrets key ih =>
    obtain ⟨s', hadd, hcan, -⟩ := ih.addKeyPubKey lawful_keyOps key
    rw [storeOf_concat, hadd]
    exact hcan

theorem exists_of_haveKey_storeOf {secrets : List CKey} {id : CKeyID}
    (h : (storeOf secrets).haveKey id = true) : ∃ key ∈ secrets, idOf key = id := by
  induction secrets using List.reverseRecOn with
  | nil =>
    have hnone : (∅ : Std.TreeMap CKeyID (CPubKey × List UInt8)).contains id = false :=
      Std.TreeMap.contains_emptyc
    exact absurd (hnone.symm.trans h) Bool.false_ne_true
  | append_singleton secrets key ih =>
    by_cases hid : idOf key = id
    · exact ⟨key, List.mem_append_right _ (List.mem_singleton_self key), hid⟩
    · rw [storeOf_concat, (CCryptoKeyStore.addKeyPubKey_of_ne _ key hid).1] at h
      obtain ⟨key', hmem, heq⟩ := ih h
      exact ⟨key', List.mem_append_left _ hmem, heq⟩

/-- A wallet with a key whose address has the label, one without a label, and one in the pool. -/
def labelledWallet : BookWallet :=
  { bookWallet with
    toCCryptoKeyStore := storeOf [secretKey, changeKey, reserveKey]
    mapKeyMetadata := (∅ : Std.TreeMap CKeyID ℤ).insert (idOf changeKey) 1500000000
    mapAddressBook := Function.update (fun _ ↦ none) (.keyID (idOf secretKey)) (some strangeLabel)
    setKeyPool := {1}
    pool := Function.update (fun _ ↦ none) 1 (some (keyOps.getPubKey reserveKey)) }

/-- A wallet with another key in its pool. -/
def otherWallet : BookWallet :=
  { bookWallet with
    toCCryptoKeyStore := storeOf [otherKey]
    setKeyPool := {1}
    pool := Function.update (fun _ ↦ none) 1 (some (keyOps.getPubKey otherKey)) }

/-- The scan takes the key from the pool. -/
def takeOther (w : BookWallet) : BookWallet :=
  if 1 ∈ w.setKeyPool ∧ w.pool 1 = some (keyOps.getPubKey otherKey) ∧ w.haveKey (idOf otherKey) = true
  then (w.takeIndex 1).replaceDefaultKey keyOps (keyOps.getPubKey otherKey) else w

theorem rescans_takeOther (w : BookWallet) :
    Relation.ReflTransGen (RescanStep keyOps) w (takeOther w) := by
  unfold takeOther
  split_ifs with h
  · exact .single (.getKeyFromPool h.1 h.2.1 h.2.2)
  · exact .refl

end Sample

theorem importwallet_dumpwallet_sample : ∃ file s' w',
    dumpwallet Sample.keyOps Sample.dumpFormat ⟨Sample.crypto, 83⟩ false true 0 Sample.twoBlocks
      Sample.labelledWallet = .ok (file, s') ∧
    importwallet Sample.keyOps Sample.dumpFormat Sample.takeOther false Sample.stakedIn (some file)
      Sample.otherWallet = .ok () w' ∧
    ∀ key ∈ [Sample.secretKey, Sample.changeKey, Sample.reserveKey],
      w'.getKey Sample.keyOps (Sample.idOf key) = some (some key) ∧
      w'.mapAddressBook (.keyID (Sample.idOf key)) =
        if key = Sample.secretKey then some Sample.strangeLabel else none := by
  have hok : (dumpwallet Sample.keyOps Sample.dumpFormat ⟨Sample.crypto, 83⟩ false true 0
      Sample.twoBlocks Sample.labelledWallet).isOk := by decide +kernel
  obtain ⟨⟨file, s'⟩, hdump⟩ := eq_ok_of_isOk hok
  have hunlocked : Sample.otherWallet.isLocked = false := by decide +kernel
  have hpool : Sample.otherWallet.PoolHeld Sample.keyOps := by
    intro nIndex hmem vchPubKey hread
    obtain rfl := Finset.mem_singleton.1 hmem
    obtain rfl : Sample.keyOps.getPubKey Sample.otherKey = vchPubKey := Option.some.inj hread
    decide +kernel
  have hnone : ∀ id, Sample.labelledWallet.haveKey id = true →
      Sample.otherWallet.haveKey id = false := by
    intro id hhave
    obtain ⟨key, hmem, rfl⟩ := Sample.exists_of_haveKey_storeOf hhave
    revert key
    decide +kernel
  obtain ⟨added, hhistory⟩ : ∃ added,
      History Sample.keyOps Sample.labelledWallet.toCCryptoKeyStore added :=
    Sample.history_storeOf [Sample.secretKey, Sample.changeKey, Sample.reserveKey]
  obtain ⟨w', himport, hall⟩ := importwallet_dumpwallet Sample.lawful_keyOps
    Sample.lawful_dumpFormat hhistory hdump hunlocked
    (Sample.canEncrypt_storeOf [Sample.otherKey]) hpool hnone Sample.rescans_takeOther
    Sample.stakedIn
  have hkeys : ∀ key ∈ [Sample.secretKey, Sample.changeKey, Sample.reserveKey],
      Sample.labelledWallet.haveKey (Sample.idOf key) = true ∧
        Sample.labelledWallet.getKey Sample.keyOps (Sample.idOf key) = some (some key) ∧
        (Sample.labelledWallet.mapAddressBook (.keyID (Sample.idOf key))).or
          (Sample.otherWallet.mapAddressBook (.keyID (Sample.idOf key))) =
            if key = Sample.secretKey then some Sample.strangeLabel else none := by
    decide +kernel
  refine ⟨file, s', w', hdump, himport, fun key hmem ↦ ?_⟩
  obtain ⟨hhave, hkey, hbook⟩ := hkeys key hmem
  obtain ⟨key', hget, hget', hlabel⟩ := hall (Sample.idOf key) hhave
  rw [hkey] at hget
  exact ⟨hget'.trans hget.symm, hlabel.trans hbook⟩

end Bws
