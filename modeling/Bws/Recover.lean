import Bws.KeyStore
import Bws.Lib.Greedy
import Bws.Serialize

/-!
# Recovering the keys of a wallet

`CWalletDB::Recover` tells a sound record from a broken one by loading it into a wallet of its own, the
same for all records.  That wallet takes no plain key once it has an encrypted one, no encrypted key
once it has a plain one, and no second master key of one number.  So what is recovered is a greedy
selection of the sound records (`recover_eq_keep`): all of them are recovered, in any order, exactly
when there are not keys of both kinds and no two master keys of one number (`recoversAll_iff`).

Curve and hashes are parameters.  Failures of the disk are left out, and so are the records of other
types, which touch other parts of the wallet and are not written.
-/

namespace Bws

/-! ## Public keys -/

/-- `CPubKey::GetLen` -/
def CPubKey.getLen (chHeader : UInt8) : ℕ :=
  if chHeader = 2 ∨ chHeader = 3 then 33
  else if chHeader = 4 ∨ chHeader = 6 ∨ chHeader = 7 then 65
  else 0

/-- `CPubKey::Set`; an invalid key is empty. -/
def CPubKey.set : List UInt8 → CPubKey
  | [] => []
  | chHeader :: vch =>
    if getLen chHeader = (chHeader :: vch).length then chHeader :: vch else []

/-- `CPubKey::Unserialize` into a new key, whose array holds `0xFF` and then `stale`: bytes that are not
read stay. -/
def CPubKey.unserialize (stale bytes : List UInt8) : Option (CPubKey × List UInt8) :=
  (readCompactSize bytes).bind fun (len, bytes) ↦
    ((Codec.raw len).get bytes).map fun (data, bytes) ↦
      (if len ≤ 65 then
        let vch := data ++ (0xFF :: stale).drop len
        vch.take (getLen (vch.headD 0xFF))
      else [], bytes)

/-! ## Records of keys -/

structure CMasterKey where
  vchCryptedKey : List UInt8
  vchSalt : List UInt8
  nDerivationMethod : UInt32
  nDeriveIterations : UInt32
  vchOtherDerivationParameters : List UInt8
deriving DecidableEq

def CMasterKey.codec : Codec CMasterKey :=
  (stringCodec.prod (stringCodec.prod (Codec.uint32.prod (Codec.uint32.prod stringCodec)))).imap
    (fun (a, b, c, d, e) ↦ ⟨a, b, c, d, e⟩) fun k ↦
      (k.vchCryptedKey, k.vchSalt, k.nDerivationMethod, k.nDeriveIterations,
        k.vchOtherDerivationParameters)

/-- `CWalletKey`, of which only `vchPrivKey` is read: the version, the key, two times and a comment. -/
def walletKeyCodec : Codec (Int32 × List UInt8 × Int64 × Int64 × List UInt8) :=
  Codec.int32.prod (stringCodec.prod (Codec.int64.prod (Codec.int64.prod stringCodec)))

/-- What recovering is given from outside. -/
structure SalvageOps extends KeyOps where
  /-- `Hash` -/
  hash : List UInt8 → UInt256
  /-- `CECKey::SetPrivKey` and `GetSecretBytes`; the flag is `fSkipCheck` -/
  setPrivKey : List UInt8 → Bool → Option { vch : List UInt8 // vch.length = 32 ∧ checkKey vch = true }
  /-- what the array of a public key holds where nothing is read -/
  stale : List UInt8

/-- A row of the database: key and value. -/
abbrev KeyValPair := List UInt8 × List UInt8

/-- What a sound record of a key holds. -/
inductive KeyRecord
  | plain (key : CKey) (vchPubKey : CPubKey)
  | master (nID : UInt32) (kMasterKey : CMasterKey)
  | crypted (vchPubKey : CPubKey) (vchCryptedSecret : List UInt8)

/-- "key" -/
def strKey : List UInt8 := [0x6b, 0x65, 0x79]

/-- "wkey" -/
def strWKey : List UInt8 := [0x77, 0x6b, 0x65, 0x79]

/-- "mkey" -/
def strMKey : List UInt8 := [0x6d, 0x6b, 0x65, 0x79]

/-- "ckey" -/
def strCKey : List UInt8 := [0x63, 0x6b, 0x65, 0x79]

/-- `IsKeyType` -/
def isKeyType (strType : List UInt8) : Prop :=
  strType = strKey ∨ strType = strWKey ∨ strType = strMKey ∨ strType = strCKey

instance (strType : List UInt8) : Decidable (isKeyType strType) :=
  inferInstanceAs (Decidable (_ ∨ _))

section

variable (O : SalvageOps)

/-- `CKey::Load` -/
def CKey.load (privkey : List UInt8) (vchPubKey : CPubKey) (fSkipCheck : Bool) : Option CKey :=
  (O.setPrivKey privkey fSkipCheck).bind fun vch ↦
    let key : CKey := ⟨vch.1, vchPubKey.isCompressed, vch.2⟩
    if fSkipCheck then some key else if O.getPubKey key ≠ vchPubKey then none else some key

/-- The reading of a private key: of a record of type `key`, or of type `wkey`. -/
def readPrivKey (strType ssValue : List UInt8) : Option (List UInt8 × List UInt8) :=
  if strType = strKey then stringCodec.get ssValue
  else (walletKeyCodec.get ssValue).map fun (wkey, ssValue) ↦ (wkey.2.1, ssValue)

/-- The branch of `ReadKeyValue` for the types `key` and `wkey`, up to `LoadKey`.  A missing hash reads
as 0, which stands for no hash. -/
def readKey (strType ssKey ssValue : List UInt8) : Option KeyRecord :=
  (CPubKey.unserialize O.stale ssKey).bind fun (vchPubKey, _) ↦
    if vchPubKey = [] then none
    else
      (readPrivKey strType ssValue).bind fun (pkey, ssValue) ↦
        let hash := (((Codec.uint 32).get ssValue).map Prod.fst).getD 0
        if hash ≠ 0 ∧ O.hash (vchPubKey ++ pkey) ≠ hash then none
        else (CKey.load O pkey vchPubKey (hash ≠ 0)).map fun key ↦ .plain key vchPubKey

/-- The branch for the type `mkey`, up to the look at the wallet. -/
def readMKey (ssKey ssValue : List UInt8) : Option KeyRecord :=
  (Codec.uint32.get ssKey).bind fun (nID, _) ↦
    (CMasterKey.codec.get ssValue).map fun (kMasterKey, _) ↦ .master nID kMasterKey

/-- The branch for the type `ckey`, up to `LoadCryptedKey`. -/
def readCKey (ssKey ssValue : List UInt8) : Option KeyRecord :=
  (stringCodec.get ssKey).bind fun (vchPubKey, _) ↦
    (stringCodec.get ssValue).map fun (vchPrivKey, _) ↦ .crypted (CPubKey.set vchPubKey) vchPrivKey

/-- The type of a record, and what it holds if it is of a key and sound. -/
def readRecord (row : KeyValPair) : List UInt8 × Option KeyRecord :=
  match stringCodec.get row.1 with
  | none => ([], none)
  | some (strType, ssKey) =>
    (strType,
      if strType = strKey ∨ strType = strWKey then readKey O strType ssKey row.2
      else if strType = strMKey then readMKey ssKey row.2
      else if strType = strCKey then readCKey ssKey row.2
      else none)

end

/-! ## The wallet that records are tried on -/

/-- The part of `CWallet dummyWallet` that keys go to. -/
structure DummyWallet extends CCryptoKeyStore where
  mapMasterKeys : UInt32 → Option CMasterKey
  nMasterKeyMaxID : UInt32

def DummyWallet.init : DummyWallet := ⟨.init, fun _ ↦ none, 0⟩

section

variable (O : SalvageOps)

/-- The end of each branch: `LoadKey`, the entry of a master key, and `LoadCryptedKey`. -/
def DummyWallet.load (pwallet : DummyWallet) : KeyRecord → DummyWallet × Bool
  | .plain key vchPubKey =>
    let (store, ok) := pwallet.toCCryptoKeyStore.addKeyPubKey O.toKeyOps key vchPubKey
    ({ pwallet with toCCryptoKeyStore := store }, ok)
  | .master nID kMasterKey =>
    if (pwallet.mapMasterKeys nID).isSome then (pwallet, false)
    else
      ({ pwallet with
        mapMasterKeys := Function.update pwallet.mapMasterKeys nID (some kMasterKey)
        nMasterKeyMaxID := max pwallet.nMasterKeyMaxID nID }, true)
  | .crypted vchPubKey vchCryptedSecret =>
    let (store, ok) := pwallet.toCCryptoKeyStore.addCryptedKey (O.getID vchPubKey) vchPubKey
      vchCryptedSecret
    ({ pwallet with toCCryptoKeyStore := store }, ok)

/-- `ReadKeyValue`: the wallet, the type of the record and whether it was read.  For a record of another
type than a key nobody looks whether it was. -/
def readKeyValue (pwallet : DummyWallet) (row : KeyValPair) : DummyWallet × List UInt8 × Bool :=
  match readRecord O row with
  | (strType, none) => (pwallet, strType, false)
  | (strType, some r) =>
    let (pwallet, fReadOK) := pwallet.load O r
    (pwallet, strType, fReadOK)

/-- `pdbCopy->put` with `DB_NOOVERWRITE` -/
def put (pdbCopy : List KeyValPair) (row : KeyValPair) : List KeyValPair :=
  if ∃ r ∈ pdbCopy, r.1 = row.1 then pdbCopy else pdbCopy ++ [row]

/-- The loop of `CWalletDB::Recover` over the salvaged rows. -/
def recoverFrom (fOnlyKeys : Bool) :
    DummyWallet → List KeyValPair → List KeyValPair → List KeyValPair
  | _, pdbCopy, [] => pdbCopy
  | dummyWallet, pdbCopy, row :: salvagedData =>
    if fOnlyKeys then
      match readKeyValue O dummyWallet row with
      | (dummyWallet, strType, fReadOK) =>
        if ¬ isKeyType strType then recoverFrom fOnlyKeys dummyWallet pdbCopy salvagedData
        else if ¬ fReadOK then recoverFrom fOnlyKeys dummyWallet pdbCopy salvagedData
        else recoverFrom fOnlyKeys dummyWallet (put pdbCopy row) salvagedData
    else recoverFrom fOnlyKeys dummyWallet (put pdbCopy row) salvagedData

/-- `CWalletDB::Recover`: what it writes to the new database. -/
def recover (salvagedData : List KeyValPair) (fOnlyKeys : Bool) : List KeyValPair :=
  recoverFrom O fOnlyKeys .init [] salvagedData

/-- A record of a key is well formed on its own: a wallet without keys takes it. -/
def WellFormed (row : KeyValPair) : Prop :=
  isKeyType (readKeyValue O .init row).2.1 ∧ (readKeyValue O .init row).2.2 = true

instance (row : KeyValPair) : Decidable (WellFormed O row) := inferInstanceAs (Decidable (_ ∧ _))

end

/-! ## Records that shut each other out -/

/-- Keys of both kinds, or two master keys of one number. -/
def KeyRecord.clash : KeyRecord → KeyRecord → Bool
  | .plain .., .crypted .. => true
  | .crypted .., .plain .. => true
  | .master nID _, .master nID' _ => nID = nID'
  | _, _ => false

theorem KeyRecord.clash_comm : (r r' : KeyRecord) → r.clash r' = r'.clash r
  | .master .., .master .. => decide_eq_decide.2 eq_comm
  | .plain .., .plain .. | .plain .., .master .. | .plain .., .crypted .. | .master .., .plain ..
  | .master .., .crypted .. | .crypted .., .plain .. | .crypted .., .master ..
  | .crypted .., .crypted .. => rfl

section

variable {O : SalvageOps}

/-- What the rows hold shuts each other out. -/
def Clash (O : SalvageOps) (a b : KeyValPair) : Prop :=
  ∃ r ∈ (readRecord O a).2, ∃ r' ∈ (readRecord O b).2, r.clash r'

instance : DecidableRel (Clash O) := fun _ _ ↦ inferInstanceAs (Decidable (∃ _ ∈ _, ∃ _ ∈ _, _))

theorem Clash.symm {a b : KeyValPair} : Clash O a b → Clash O b a
  | ⟨r, hr, r', hr', h⟩ => ⟨r', hr', r, hr, KeyRecord.clash_comm r r' ▸ h⟩

/-- The wallet has taken what the rows hold. -/
structure Loaded (O : SalvageOps) (w : DummyWallet) (kept : List KeyValPair) : Prop where
  locked : w.vMasterKey = []
  apart : w.fUseCrypto = true → w.mapKeys.isEmpty = true
  plain : w.mapKeys.isEmpty = false ↔
    ∃ row ∈ kept, ∃ key vchPubKey, (readRecord O row).2 = some (.plain key vchPubKey)
  crypted : w.fUseCrypto = true ↔
    ∃ row ∈ kept, ∃ vchPubKey vch, (readRecord O row).2 = some (.crypted vchPubKey vch)
  master : ∀ nID, (w.mapMasterKeys nID).isSome ↔
    ∃ row ∈ kept, ∃ kMasterKey, (readRecord O row).2 = some (.master nID kMasterKey)

theorem loaded_init : Loaded O .init [] where
  locked := rfl
  apart := nofun
  plain := ⟨nofun, by rintro ⟨_, ⟨⟩, _⟩⟩
  crypted := ⟨nofun, by rintro ⟨_, ⟨⟩, _⟩⟩
  master _ := ⟨nofun, by rintro ⟨_, ⟨⟩, _⟩⟩

section

variable {w : DummyWallet} {kept : List KeyValPair} {row : KeyValPair}

theorem exists_mem_append {p : KeyValPair → Prop} :
    (∃ a ∈ kept ++ [row], p a) ↔ (∃ a ∈ kept, p a) ∨ p row := by
  simp [or_and_right, exists_or]

/-- A plain key is taken unless there is an encrypted one: the wallet is locked then. -/
theorem Loaded.load_plain (h : Loaded O w kept) {key : CKey} {vchPubKey : CPubKey}
    (hrow : (readRecord O row).2 = some (.plain key vchPubKey)) :
    if w.fUseCrypto then w.load O (.plain key vchPubKey) = (w, false)
    else ∃ w', w.load O (.plain key vchPubKey) = (w', true) ∧ Loaded O w' (kept ++ [row]) := by
  by_cases hcrypto : w.fUseCrypto = true
  · rw [if_pos hcrypto, DummyWallet.load, CCryptoKeyStore.addKeyPubKey, CCryptoKeyStore.isLocked,
      CCryptoKeyStore.isCrypted, h.locked, hcrypto]
    rfl
  · have hadd : w.toCCryptoKeyStore.addKeyPubKey O.toKeyOps key vchPubKey =
        ({ w.toCCryptoKeyStore with mapKeys := w.mapKeys.insert (O.getID vchPubKey) key }, true) := by
      rw [CCryptoKeyStore.addKeyPubKey]
      exact if_pos (by rw [CCryptoKeyStore.isCrypted, Bool.eq_false_iff.2 hcrypto]; rfl)
    rw [if_neg hcrypto, DummyWallet.load, hadd]
    refine ⟨_, rfl, h.locked, fun hon ↦ absurd hon hcrypto, iff_of_true Std.TreeMap.isEmpty_insert
      ⟨row, by simp, key, vchPubKey, hrow⟩, ?_, fun nID ↦ ?_⟩
    · rw [exists_mem_append]
      simpa [hrow] using h.crypted
    · rw [exists_mem_append]
      simpa [hrow] using h.master nID

/-- An encrypted key is taken unless there is a plain one. -/
theorem Loaded.load_crypted (h : Loaded O w kept) {vchPubKey : CPubKey} {vch : List UInt8}
    (hrow : (readRecord O row).2 = some (.crypted vchPubKey vch)) :
    if w.mapKeys.isEmpty then
      ∃ w', w.load O (.crypted vchPubKey vch) = (w', true) ∧ Loaded O w' (kept ++ [row])
    else w.load O (.crypted vchPubKey vch) = (w, false) := by
  by_cases hempty : w.mapKeys.isEmpty = true
  · have hset : w.toCCryptoKeyStore.setCrypted =
        ({ w.toCCryptoKeyStore with fUseCrypto := true }, true) := by
      unfold CCryptoKeyStore.setCrypted
      split_ifs with hcrypto
      · rw [← hcrypto]
      · rw [hempty] at *
        contradiction
      · rfl
    rw [if_pos hempty, DummyWallet.load, CCryptoKeyStore.addCryptedKey, hset]
    refine ⟨_, rfl, h.locked, fun _ ↦ hempty, ?_, iff_of_true rfl
      ⟨row, by simp, vchPubKey, vch, hrow⟩, fun nID ↦ ?_⟩
    · rw [exists_mem_append]
      simpa [hrow] using h.plain
    · rw [exists_mem_append]
      simpa [hrow] using h.master nID
  · have hcrypto : w.fUseCrypto = false := Bool.eq_false_iff.2 (mt h.apart hempty)
    rw [if_neg hempty, DummyWallet.load, CCryptoKeyStore.addCryptedKey, CCryptoKeyStore.setCrypted,
      hcrypto, Bool.eq_false_iff.2 hempty]
    rfl

/-- A master key is taken unless there is one of its number. -/
theorem Loaded.load_master (h : Loaded O w kept) {nID : UInt32} {kMasterKey : CMasterKey}
    (hrow : (readRecord O row).2 = some (.master nID kMasterKey)) :
    if (w.mapMasterKeys nID).isSome then w.load O (.master nID kMasterKey) = (w, false)
    else ∃ w', w.load O (.master nID kMasterKey) = (w', true) ∧ Loaded O w' (kept ++ [row]) := by
  rw [DummyWallet.load]
  split_ifs with hsome
  · rfl
  · refine ⟨_, rfl, h.locked, h.apart, ?_, ?_, fun nID' ↦ ?_⟩
    · rw [exists_mem_append]
      simpa [hrow] using h.plain
    · rw [exists_mem_append]
      simpa [hrow] using h.crypted
    · rw [exists_mem_append]
      by_cases heq : nID' = nID
      · subst heq
        simp [hrow]
      · have hne : ¬ nID = nID' := fun h ↦ heq h.symm
        simpa [hrow, Function.update_of_ne heq, hne] using h.master nID'

theorem exists_clash {r : KeyRecord} (hrow : (readRecord O row).2 = some r) :
    (∃ row' ∈ kept, Clash O row' row) ↔
      ∃ row' ∈ kept, ∃ r', (readRecord O row').2 = some r' ∧ r'.clash r := by
  simp [Clash, hrow]

/-- **The wallet takes what does not clash with what it has taken.** -/
theorem Loaded.load (h : Loaded O w kept) {r : KeyRecord} (hrow : (readRecord O row).2 = some r) :
    if ∃ row' ∈ kept, Clash O row' row then w.load O r = (w, false)
    else ∃ w', w.load O r = (w', true) ∧ Loaded O w' (kept ++ [row]) := by
  cases r with
  | plain key vchPubKey =>
    have hiff : (∃ row' ∈ kept, Clash O row' row) ↔ w.fUseCrypto = true := by
      rw [exists_clash hrow, h.crypted]
      refine exists_congr fun row' ↦ and_congr_right fun _ ↦ ⟨?_, ?_⟩
      · rintro ⟨_ | _ | ⟨vchPubKey, vch⟩, hr, ⟨⟩⟩
        exact ⟨vchPubKey, vch, hr⟩
      · rintro ⟨vchPubKey, vch, hr⟩
        exact ⟨_, hr, rfl⟩
    simp only [hiff]
    exact h.load_plain hrow
  | master nID kMasterKey =>
    have hiff : (∃ row' ∈ kept, Clash O row' row) ↔ (w.mapMasterKeys nID).isSome := by
      rw [exists_clash hrow, h.master]
      refine exists_congr fun row' ↦ and_congr_right fun _ ↦ ⟨?_, ?_⟩
      · rintro ⟨_ | ⟨nID', kMasterKey'⟩ | _, hr, hclash⟩
        · cases hclash
        · exact ⟨kMasterKey', of_decide_eq_true hclash ▸ hr⟩
        · cases hclash
      · rintro ⟨kMasterKey', hr⟩
        exact ⟨_, hr, decide_eq_true rfl⟩
    simp only [hiff]
    exact h.load_master hrow
  | crypted vchPubKey vch =>
    have hiff : (∃ row' ∈ kept, Clash O row' row) ↔ ¬ w.mapKeys.isEmpty = true := by
      rw [exists_clash hrow, Bool.not_eq_true, h.plain]
      refine exists_congr fun row' ↦ and_congr_right fun _ ↦ ⟨?_, ?_⟩
      · rintro ⟨⟨key, vchPubKey⟩ | _ | _, hr, ⟨⟩⟩
        exact ⟨key, vchPubKey, hr⟩
      · rintro ⟨key, vchPubKey, hr⟩
        exact ⟨_, hr, rfl⟩
    have hload := h.load_crypted hrow
    simp only [hiff]
    split_ifs at hload ⊢
    exacts [hload, hload]

end

/-! ## The loop as a greedy selection -/

theorem isKeyType_of_readRecord {row : KeyValPair} {r : KeyRecord}
    (h : (readRecord O row).2 = some r) : isKeyType (readRecord O row).1 := by
  unfold readRecord at h ⊢
  split at h
  · cases h
  · rename_i strType ssKey _
    dsimp only at h ⊢
    unfold isKeyType
    split_ifs at h with hkey hmkey hckey
    · exact hkey.imp id .inl
    · exact .inr (.inr (.inl hmkey))
    · exact .inr (.inr (.inr hckey))

theorem readKeyValue_of_none {row : KeyValPair} (h : (readRecord O row).2 = none)
    (w : DummyWallet) : readKeyValue O w row = (w, (readRecord O row).1, false) := by
  rcases hrec : readRecord O row with ⟨strType, _ | r⟩
  · simp only [readKeyValue, hrec]
  · rw [hrec] at h
    cases h

theorem readKeyValue_of_some {row : KeyValPair} {r : KeyRecord} {w w' : DummyWallet} {ok : Bool}
    (h : (readRecord O row).2 = some r) (hload : w.load O r = (w', ok)) :
    readKeyValue O w row = (w', (readRecord O row).1, ok) := by
  rcases hrec : readRecord O row with ⟨strType, _ | r'⟩
  · rw [hrec] at h
    cases h
  · rw [hrec] at h
    cases h
    simp only [readKeyValue, hrec, hload]

/-- A record is well formed on its own when it holds something that can be read. -/
theorem wellFormed_iff {row : KeyValPair} :
    WellFormed O row ↔ ∃ r, (readRecord O row).2 = some r := by
  constructor
  · rintro ⟨-, hok⟩
    rcases hrow : (readRecord O row).2 with _ | r
    · rw [readKeyValue_of_none hrow] at hok
      cases hok
    · exact ⟨r, rfl⟩
  · rintro ⟨r, hrow⟩
    have hload := loaded_init.load hrow
    rw [if_neg (by simp)] at hload
    obtain ⟨w', hload, -⟩ := hload
    rw [WellFormed, readKeyValue_of_some hrow hload]
    exact ⟨isKeyType_of_readRecord hrow, rfl⟩

/-- **What is recovered is a greedy selection of the well-formed records.** -/
theorem recoverFrom_eq_keep {rows : List KeyValPair} : ∀ {w : DummyWallet} {kept : List KeyValPair},
    Loaded O w kept → ((kept ++ rows).map Prod.fst).Nodup →
      recoverFrom O true w kept rows =
        Greedy.keep (Clash O) kept (rows.filter (WellFormed O)) := by
  induction rows with
  | nil => exact fun _ _ ↦ rfl
  | cons row rows ih =>
    intro w kept h hnodup
    have hrest : ((kept ++ rows).map Prod.fst).Nodup := by
      refine hnodup.sublist (List.Sublist.map _ ?_)
      exact (List.Sublist.refl kept).append (List.sublist_cons_self row rows)
    rw [recoverFrom, if_pos rfl]
    rcases hrow : (readRecord O row).2 with _ | r
    · -- not a record of a key, or a broken one
      have hbad : ¬ WellFormed O row := fun hw ↦ by
        obtain ⟨r, hr⟩ := wellFormed_iff.1 hw
        cases hrow.symm.trans hr
      rw [readKeyValue_of_none hrow, List.filter_cons_of_neg (by simpa using hbad)]
      simp only [Bool.false_eq_true, not_false_eq_true, if_true, ite_self]
      exact ih h hrest
    · have hgood : WellFormed O row := wellFormed_iff.2 ⟨r, hrow⟩
      have hload := h.load hrow
      rw [List.filter_cons_of_pos (by simpa using hgood), Greedy.keep]
      split_ifs at hload ⊢ with hclash
      · rw [readKeyValue_of_some hrow hload]
        simp only [Bool.false_eq_true, not_false_eq_true, if_true, ite_self]
        exact ih h hrest
      · obtain ⟨w', hload, h'⟩ := hload
        have hput : put kept row = kept ++ [row] := by
          refine if_neg ?_
          rintro ⟨r, hr, heq⟩
          rw [List.map_append, List.map_cons] at hnodup
          exact List.disjoint_of_nodup_append hnodup (List.mem_map.2 ⟨r, hr, heq⟩) List.mem_cons_self
        rw [readKeyValue_of_some hrow hload]
        simp only [isKeyType_of_readRecord hrow, not_true_eq_false, if_false, hput]
        exact ih h' (by rwa [List.append_assoc])

/-! ## When all keys are recovered -/

/-- Just the well-formed records of keys are recovered, and the order of the rows makes no
difference. -/
structure RecoversAll (O : SalvageOps) (salvagedData : List KeyValPair) : Prop where
  all : ∀ row, row ∈ recover O salvagedData true ↔ row ∈ salvagedData ∧ WellFormed O row
  order : ∀ salvagedData', salvagedData'.Perm salvagedData →
    ∀ row, row ∈ recover O salvagedData' true ↔ row ∈ recover O salvagedData true

/-- Keys of one kind, and master keys of different numbers. -/
structure NoClash (O : SalvageOps) (salvagedData : List KeyValPair) : Prop where
  oneKind : ¬ ((∃ row ∈ salvagedData, ∃ key vchPubKey,
      (readRecord O row).2 = some (.plain key vchPubKey)) ∧
    ∃ row ∈ salvagedData, ∃ vchPubKey vch, (readRecord O row).2 = some (.crypted vchPubKey vch))
  masters : ∀ row ∈ salvagedData, ∀ row' ∈ salvagedData, ∀ nID k k',
    (readRecord O row).2 = some (.master nID k) → (readRecord O row').2 = some (.master nID k') →
      row = row'

variable {salvagedData : List KeyValPair}

theorem noClash_iff (hnodup : salvagedData.Nodup) :
    NoClash O salvagedData ↔
      (salvagedData.filter (WellFormed O)).Pairwise (¬ Clash O · ·) := by
  have hgood : ∀ {row r}, row ∈ salvagedData → (readRecord O row).2 = some r →
      row ∈ salvagedData.filter (WellFormed O) := fun hmem hr ↦
    List.mem_filter.2 ⟨hmem, decide_eq_true (wellFormed_iff.2 ⟨_, hr⟩)⟩
  constructor
  · rintro ⟨hone, hmasters⟩
    refine (hnodup.filter _).pairwise_of_forall_ne fun a ha b hb hne ↦ ?_
    rintro ⟨r, hr, r', hr', hclash⟩
    have ha := (List.mem_filter.1 ha).1
    have hb := (List.mem_filter.1 hb).1
    match r, r', hclash with
    | .plain .., .crypted .., _ => exact hone ⟨⟨a, ha, _, _, hr⟩, b, hb, _, _, hr'⟩
    | .crypted .., .plain .., _ => exact hone ⟨⟨b, hb, _, _, hr'⟩, a, ha, _, _, hr⟩
    | .master nID k, .master nID' k', hclash =>
      obtain rfl : nID = nID' := of_decide_eq_true hclash
      exact hne (hmasters a ha b hb nID k k' hr hr')
  · intro h
    have hsymm : Std.Symm (¬ Clash O · ·) := ⟨fun a b hab hba ↦ hab hba.symm⟩
    refine ⟨?_, fun a ha b hb nID k k' hr hr' ↦ by_contra fun hne ↦ ?_⟩
    · rintro ⟨⟨a, ha, key, vchPubKey, hr⟩, b, hb, vchPubKey', vch, hr'⟩
      have hne : a ≠ b := by
        rintro rfl
        cases hr.symm.trans hr'
      exact h.forall (hgood ha hr) (hgood hb hr') hne ⟨_, hr, _, hr', rfl⟩
    · exact h.forall (hgood ha hr) (hgood hb hr') hne ⟨_, hr, _, hr', decide_eq_true rfl⟩

theorem recover_eq_keep (hnodup : (salvagedData.map Prod.fst).Nodup) :
    recover O salvagedData true =
      Greedy.keep (Clash O) [] (salvagedData.filter (WellFormed O)) :=
  recoverFrom_eq_keep loaded_init hnodup

/-- **All keys are recovered if and only if they are of one kind** and no two master keys have one
number. -/
theorem recoversAll_iff (hnodup : (salvagedData.map Prod.fst).Nodup) :
    RecoversAll O salvagedData ↔ NoClash O salvagedData := by
  have hrows : salvagedData.Nodup := hnodup.of_map Prod.fst
  have hmem : ∀ {row}, row ∈ salvagedData.filter (WellFormed O) ↔
      row ∈ salvagedData ∧ WellFormed O row := by
    simp
  rw [noClash_iff hrows]
  constructor
  · rintro ⟨hall, -⟩
    refine (Greedy.forall_mem_keep_iff (hrows.filter _)).1 fun row hrow ↦ ?_
    rw [← recover_eq_keep hnodup]
    exact (hall row).2 (hmem.1 hrow)
  · intro h
    refine ⟨fun row ↦ ?_, fun salvagedData' hperm row ↦ ?_⟩
    · rw [recover_eq_keep hnodup, Greedy.keep_eq_self h]
      exact hmem
    · have hnodup' : (salvagedData'.map Prod.fst).Nodup := (hperm.map _).nodup_iff.2 hnodup
      rw [recover_eq_keep hnodup, recover_eq_keep hnodup']
      exact Greedy.mem_keep_of_perm Clash.symm h (hperm.filter _)

end

namespace Sample

/-- Every private key in DER form holds the secret 1. -/
def salvageOps : SalvageOps where
  toKeyOps := keyOps
  hash _ := 7
  setPrivKey _ _ := some ⟨List.replicate 31 0 ++ [1], by decide⟩
  stale := List.replicate 64 0

/-- A record of a plain key, with its hash. -/
def plainRow : KeyValPair :=
  (3 :: strKey ++ 33 :: 2 :: List.replicate 32 0, [1, 9] ++ Codec.toLE 32 7)

/-- A record of an encrypted key. -/
def cryptedRow : KeyValPair :=
  (4 :: strCKey ++ 33 :: 3 :: List.replicate 32 0, [1, 5])

/-- A record of a master key. -/
def masterRow (nID : UInt32) : KeyValPair :=
  (4 :: strMKey ++ Codec.uint32.put nID,
    CMasterKey.codec.put ⟨List.replicate 48 1, List.replicate 8 2, 0, 25000, []⟩)

/-- A plain key with a hash that is not its own. -/
def brokenRow : KeyValPair :=
  (3 :: strKey ++ 33 :: 2 :: List.replicate 32 0, [1, 9] ++ Codec.toLE 32 8)

/-- An encrypted wallet with two pass phrases and two keys, and what is left of a plain key. -/
def encryptedRows : List KeyValPair :=
  [brokenRow, masterRow 1, cryptedRow, masterRow 2,
    (4 :: strCKey ++ 33 :: 3 :: List.replicate 32 1, [2, 5, 6])]

end Sample

theorem recoversAll_iff_sample : RecoversAll Sample.salvageOps Sample.encryptedRows ∧
    Sample.encryptedRows.filter (WellFormed Sample.salvageOps) = Sample.encryptedRows.tail :=
  ⟨(recoversAll_iff (by decide +kernel)).2
    ((noClash_iff (by decide +kernel)).2 (by decide +kernel)), by decide +kernel⟩

/-- A plain key that was left over shuts out the encrypted keys. -/
theorem not_recoversAll_of_both : ¬ ∀ (O : SalvageOps) (salvagedData : List KeyValPair),
    (salvagedData.map Prod.fst).Nodup → RecoversAll O salvagedData := by
  intro h
  have hall := (h Sample.salvageOps [Sample.plainRow, Sample.cryptedRow] (by decide)).all
    Sample.cryptedRow
  have hgood : WellFormed Sample.salvageOps Sample.cryptedRow := by decide +kernel
  have hlost : Sample.cryptedRow ∉
      recover Sample.salvageOps [Sample.plainRow, Sample.cryptedRow] true := by decide +kernel
  exact hlost (hall.2 ⟨List.mem_cons_of_mem _ List.mem_cons_self, hgood⟩)

end Bws
