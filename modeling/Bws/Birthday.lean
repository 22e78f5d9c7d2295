import Bws.KeyStore

/-!
# The birthday of a wallet

`nTimeFirstKey` says before which time no block can pay a key of the wallet; a rescan skips the blocks
before it.  It is found again when the records of the wallet are read: a key has a record of its own,
and another for the time at which it was created, which is 0 when nobody knows it.

`LoadWallet` sees when there are fewer times than keys.  It does not see a time of 0: that makes the
birthday 0, which stands for "no value yet", and the next record replaces it.  `importwallet` leaves
such records, as it writes them before it knows the time, and so does `EncryptWallet` for keys without
one.  The birthday that is read is no later than any key exactly when that does not happen
(`birthday_iff`).

Only what matters for the times is kept: a key is its public key.  Records are written without
failures of the disk, and the record type `wkey`, which nothing writes, is left out.
-/

namespace Bws

/-! ## The wallet file -/

/-- A record of the wallet file.  What a key record holds besides the public key is left out. -/
inductive WalletRecord
  | keymeta (vchPubKey : CPubKey) (nCreateTime : ℤ)
  | key (vchPubKey : CPubKey)
  | ckey (vchPubKey : CPubKey)
  | pool (nIndex : ℤ) (vchPubKey : CPubKey) (nTime : ℤ)
deriving DecidableEq

/-- What a record is found by. -/
inductive WalletRecordId
  | keymeta (vchPubKey : CPubKey)
  | key (vchPubKey : CPubKey)
  | ckey (vchPubKey : CPubKey)
  | pool (nIndex : ℤ)
deriving DecidableEq

namespace WalletRecord

def id : WalletRecord → WalletRecordId
  | keymeta vchPubKey _ => .keymeta vchPubKey
  | key vchPubKey => .key vchPubKey
  | ckey vchPubKey => .ckey vchPubKey
  | pool nIndex _ _ => .pool nIndex

end WalletRecord

abbrev WalletFile := List WalletRecord

namespace WalletFile

def erase (file : WalletFile) (id : WalletRecordId) : WalletFile := file.filter (·.id ≠ id)

/-- `Write(key, value)` -/
def write (file : WalletFile) (r : WalletRecord) : WalletFile := file.erase r.id ++ [r]

/-- `Write(key, value, false)`, which fails when there is a record already. -/
def writeNew (file : WalletFile) (r : WalletRecord) : WalletFile × Bool :=
  if file.any (·.id = r.id) then (file, false) else (file ++ [r], true)

/-- `CWalletDB::WriteKey` -/
def writeKey (file : WalletFile) (vchPubKey : CPubKey) (nCreateTime : ℤ) : WalletFile × Bool :=
  match file.writeNew (.keymeta vchPubKey nCreateTime) with
  | (file, false) => (file, false)
  | (file, true) => file.writeNew (.key vchPubKey)

/-- `CWalletDB::WriteCryptedKey` -/
def writeCryptedKey (file : WalletFile) (vchPubKey : CPubKey) (nCreateTime : ℤ) :
    WalletFile × Bool :=
  match (file.write (.keymeta vchPubKey nCreateTime)).writeNew (.ckey vchPubKey) with
  | (file, false) => (file, false)
  | (file, true) => (file.erase (.key vchPubKey), true)

end WalletFile

/-! ## The wallet -/

/-- The keys of a wallet in memory, what is known of their times, and the wallet file. -/
structure KeyWallet where
  mapKeys : List CPubKey
  mapCryptedKeys : List CPubKey
  fUseCrypto : Bool
  /-- the master key is in memory -/
  fUnlocked : Bool
  mapKeyMetadata : CKeyID → Option ℤ
  nTimeFirstKey : ℤ
  file : WalletFile

/-- `if (!nTimeFirstKey || nCreateTime < nTimeFirstKey) nTimeFirstKey = nCreateTime`: 0 stands for no
value. -/
def earlier (nTimeFirstKey nCreateTime : ℤ) : ℤ :=
  if nTimeFirstKey = 0 ∨ nCreateTime < nTimeFirstKey then nCreateTime else nTimeFirstKey

namespace KeyWallet

section

variable (getID : CPubKey → CKeyID)

def haveKey (w : KeyWallet) (keyid : CKeyID) : Bool :=
  (if !w.fUseCrypto then w.mapKeys else w.mapCryptedKeys).any (getID · = keyid)

/-- An entry of a map of keys. -/
def insertKey (keys : List CPubKey) (vchPubKey : CPubKey) : List CPubKey :=
  keys.filter (getID · ≠ getID vchPubKey) ++ [vchPubKey]

def setMetadata (w : KeyWallet) (keyid : CKeyID) (nCreateTime : ℤ) : KeyWallet :=
  { w with mapKeyMetadata := Function.update w.mapKeyMetadata keyid (some nCreateTime) }

/-- `mapKeyMetadata[keyid].nCreateTime`: a default is 0. -/
def createTime (w : KeyWallet) (keyid : CKeyID) : ℤ := (w.mapKeyMetadata keyid).getD 0

/-- `CWallet::AddCryptedKey`, when encryption is on. -/
def addCryptedKey (w : KeyWallet) (vchPubKey : CPubKey) : KeyWallet × Bool :=
  let nCreateTime := w.createTime (getID vchPubKey)
  let w := { w with mapCryptedKeys := insertKey getID w.mapCryptedKeys vchPubKey }
  let w := w.setMetadata (getID vchPubKey) nCreateTime
  let (file, ok) := w.file.writeCryptedKey vchPubKey nCreateTime
  ({ w with file }, ok)

/-- `CWallet::AddKeyPubKey` -/
def addKeyPubKey (w : KeyWallet) (vchPubKey : CPubKey) : KeyWallet × Bool :=
  if w.fUseCrypto then
    if !w.fUnlocked then (w, false) else w.addCryptedKey getID vchPubKey
  else
    let nCreateTime := w.createTime (getID vchPubKey)
    let w := { w with mapKeys := insertKey getID w.mapKeys vchPubKey }
    let w := w.setMetadata (getID vchPubKey) nCreateTime
    let (file, ok) := w.file.writeKey vchPubKey nCreateTime
    ({ w with file }, ok)

/-- `GenerateNewKey`; it throws when the key cannot be added. -/
def generateNewKey (w : KeyWallet) (vchPubKey : CPubKey) (nCreationTime : ℤ) : KeyWallet :=
  let w := w.setMetadata (getID vchPubKey) nCreationTime
  let w := { w with nTimeFirstKey := earlier w.nTimeFirstKey nCreationTime }
  (w.addKeyPubKey getID vchPubKey).1

def importprivkey (w : KeyWallet) (vchPubKey : CPubKey) : KeyWallet :=
  if w.haveKey getID (getID vchPubKey) then w
  else
    match (w.setMetadata (getID vchPubKey) 1).addKeyPubKey getID vchPubKey with
    | (w, false) => w
    -- 0 would be considered 'no value'
    | (w, true) => { w with nTimeFirstKey := 1 }

/-- One line of the file that `importwallet` reads, and the earliest time so far. -/
def importLine (w : KeyWallet) (nTimeBegin : ℤ) (line : CPubKey × ℤ) : KeyWallet × ℤ :=
  if w.haveKey getID (getID line.1) then (w, nTimeBegin)
  else
    match w.addKeyPubKey getID line.1 with
    | (w, false) => (w, nTimeBegin)
    | (w, true) => (w.setMetadata (getID line.1) line.2, min nTimeBegin line.2)

/-- `importwallet`, when the tip has the time `nTimeBegin`. -/
def importwallet (w : KeyWallet) (lines : List (CPubKey × ℤ)) (nTimeBegin : ℤ) : KeyWallet :=
  let (w, nTimeBegin) := lines.foldl (fun r line ↦ r.1.importLine getID r.2 line) (w, nTimeBegin)
  { w with nTimeFirstKey := earlier w.nTimeFirstKey nTimeBegin }

/-- The loop of `EncryptKeys`; a key that cannot be written ends the process. -/
def encryptKeys : KeyWallet → List CPubKey → Option KeyWallet
  | w, [] => some w
  | w, vchPubKey :: keys =>
    match w.addCryptedKey getID vchPubKey with
    | (_, false) => none
    | (w, true) => encryptKeys w keys

/-- `EncryptWallet`, up to the point where it makes a new key pool. -/
def encryptWallet (w : KeyWallet) : Option KeyWallet :=
  if w.fUseCrypto then some w
  else
    (encryptKeys getID { w with fUseCrypto := true, fUnlocked := false } w.mapKeys).map fun w ↦
      { w with mapKeys := [] }

/-! ### Loading -/

/-- The counts of `CWalletScanState`. -/
structure ScanState where
  nKeys : ℕ
  nCKeys : ℕ
  nKeyMeta : ℕ

def loadKeyMetadata (w : KeyWallet) (vchPubKey : CPubKey) (nCreateTime : ℤ) : KeyWallet :=
  let w := if nCreateTime ≠ 0 then
    { w with nTimeFirstKey := earlier w.nTimeFirstKey nCreateTime } else w
  w.setMetadata (getID vchPubKey) nCreateTime

/-- `ReadKeyValue`, unless it finds the record corrupt. -/
def readKeyValue (w : KeyWallet) (wss : ScanState) : WalletRecord → Option (KeyWallet × ScanState)
  | .keymeta vchPubKey nCreateTime =>
    let w := w.loadKeyMetadata getID vchPubKey nCreateTime
    -- find earliest key creation time, as wallet birthday
    let w := { w with nTimeFirstKey := earlier w.nTimeFirstKey nCreateTime }
    some (w, { wss with nKeyMeta := wss.nKeyMeta + 1 })
  | .key vchPubKey =>
    if w.fUseCrypto then none
    else some ({ w with mapKeys := insertKey getID w.mapKeys vchPubKey },
      { wss with nKeys := wss.nKeys + 1 })
  | .ckey vchPubKey =>
    -- SetCrypted
    if !w.fUseCrypto && !w.mapKeys.isEmpty then none
    else some ({ w with fUseCrypto := true,
                        mapCryptedKeys := insertKey getID w.mapCryptedKeys vchPubKey },
      { wss with nCKeys := wss.nCKeys + 1 })
  | .pool _ vchPubKey nTime =>
    if (w.mapKeyMetadata (getID vchPubKey)).isSome then some (w, wss)
    else some (w.setMetadata (getID vchPubKey) nTime, wss)

def readRecords : KeyWallet → ScanState → List WalletRecord → Option (KeyWallet × ScanState)
  | w, wss, [] => some (w, wss)
  | w, wss, r :: records =>
    match w.readKeyValue getID wss r with
    | none => none
    | some (w, wss) => readRecords w wss records

/-- `LoadWallet` of the records of a file, in the order in which the cursor gives them. -/
def loadWallet (file : WalletFile) : Option KeyWallet :=
  (readRecords getID ⟨[], [], false, false, fun _ ↦ none, 0, file⟩ ⟨0, 0, 0⟩ file).map
    fun (w, wss) ↦
      -- nTimeFirstKey is only reliable if all keys have metadata
      if wss.nKeys + wss.nCKeys ≠ wss.nKeyMeta then { w with nTimeFirstKey := 1 } else w

end

/-- Whether `ScanForWalletTransactions` skips a block with this time. -/
def skips (w : KeyWallet) (nTime : ℤ) : Prop := w.nTimeFirstKey ≠ 0 ∧ nTime < w.nTimeFirstKey - 7200

end KeyWallet

/-! ## Histories -/

/-- What changes the keys of a wallet or its file. -/
inductive KeyWalletOp
  | generateNewKey (vchPubKey : CPubKey) (nCreationTime : ℤ)
  | importprivkey (vchPubKey : CPubKey)
  | importwallet (lines : List (CPubKey × ℤ)) (nTimeBegin : ℤ)
  | encryptWallet
  /-- `Lock`, and `Unlock` with the right passphrase -/
  | setUnlocked (fUnlocked : Bool)
  | writePool (nIndex : ℤ) (vchPubKey : CPubKey) (nTime : ℤ)
  | erasePool (nIndex : ℤ)

section

variable (getID : CPubKey → CKeyID)

def KeyWalletOp.apply (w : KeyWallet) : KeyWalletOp → Option KeyWallet
  | .generateNewKey vchPubKey nCreationTime => some (w.generateNewKey getID vchPubKey nCreationTime)
  | .importprivkey vchPubKey => some (w.importprivkey getID vchPubKey)
  | .importwallet lines nTimeBegin => some (w.importwallet getID lines nTimeBegin)
  | .encryptWallet => w.encryptWallet getID
  | .setUnlocked fUnlocked => some { w with fUnlocked }
  | .writePool nIndex vchPubKey nTime =>
    some { w with file := w.file.write (.pool nIndex vchPubKey nTime) }
  | .erasePool nIndex => some { w with file := w.file.erase (.pool nIndex) }

/-- A wallet starts with keys that have no metadata, if any.  Its records may come in any order when
it is loaded. -/
inductive KeyHistory : KeyWallet → Prop
  | legacy {keys : List CPubKey} (hkeys : keys.Nodup) {w : KeyWallet}
      (hload : KeyWallet.loadWallet getID (keys.map .key) = some w) : KeyHistory w
  | step {w w' : KeyWallet} (h : KeyHistory w) (op : KeyWalletOp)
      (hop : op.apply getID w = some w') : KeyHistory w'
  | restart {w w' : KeyWallet} (h : KeyHistory w) {file : WalletFile} (horder : file.Perm w.file)
      (hload : KeyWallet.loadWallet getID file = some w') : KeyHistory w'

end

/-! ## The running minimum -/

def birthday (nTimeFirstKey : ℤ) (times : List ℤ) : ℤ := times.foldl earlier nTimeFirstKey

theorem earlier_le {r : ℤ} (hr : r ≠ 0) (t : ℤ) : earlier r t ≤ r ∧ earlier r t ≤ t := by
  unfold earlier
  split_ifs <;> omega

theorem birthday_append (r : ℤ) (times : List ℤ) (t : ℤ) :
    birthday r (times ++ [t]) = earlier (birthday r times) t := by
  rw [birthday, List.foldl_append]
  rfl

theorem birthday_mem (r : ℤ) (times : List ℤ) : birthday r times = r ∨ birthday r times ∈ times := by
  induction times using List.reverseRecOn with
  | nil => exact .inl rfl
  | append_singleton times t ih =>
    rw [birthday_append, earlier]
    split_ifs
    · exact .inr (List.mem_append_right _ (List.mem_singleton_self t))
    · exact ih.imp_right (List.mem_append_left _)

/-- Without a time of 0 the minimum is never forgotten. -/
theorem birthday_le {r : ℤ} (hr : r ≠ 0) {times : List ℤ} (hzero : (0 : ℤ) ∉ times) :
    birthday r times ≠ 0 ∧ birthday r times ≤ r ∧ ∀ t ∈ times, birthday r times ≤ t := by
  induction times using List.reverseRecOn with
  | nil => exact ⟨hr, le_rfl, fun t ht ↦ absurd ht List.not_mem_nil⟩
  | append_singleton times t ih =>
    obtain ⟨hne, hle, hall⟩ := ih fun h ↦ hzero (List.mem_append_left _ h)
    have ht : t ≠ 0 := fun h ↦
      hzero (h ▸ List.mem_append_right _ (List.mem_singleton_self t))
    obtain ⟨hle₁, hle₂⟩ := earlier_le hne t
    rw [birthday_append]
    refine ⟨?_, hle₁.trans hle, fun t' ht' ↦ ?_⟩
    · unfold earlier
      split_ifs
      · exact ht
      · exact hne
    · obtain hold | hnew := List.mem_append.mp ht'
      · exact hle₁.trans (hall t' hold)
      · rwa [List.mem_singleton.mp hnew]

theorem birthday_zero_le {times : List ℤ} (hzero : (0 : ℤ) ∉ times) (hne : times ≠ []) :
    birthday 0 times ∈ times ∧ ∀ t ∈ times, birthday 0 times ≤ t := by
  cases times with
  | nil => exact absurd rfl hne
  | cons t times =>
    have ht : t ≠ 0 := fun h ↦ hzero (h ▸ List.mem_cons_self)
    obtain ⟨-, hle, hall⟩ := birthday_le ht fun h ↦ hzero (List.mem_cons_of_mem t h)
    have hfirst : birthday 0 (t :: times) = birthday t times := rfl
    rw [hfirst]
    refine ⟨List.mem_cons.mpr (birthday_mem t times), fun t' ht' ↦ ?_⟩
    obtain rfl | htail := List.mem_cons.mp ht'
    · exact hle
    · exact hall t' htail

/-- A time before 0 is never forgotten. -/
theorem birthday_neg (times : List ℤ) :
    (birthday 0 times < 0 ∧ ∀ t ∈ times, birthday 0 times ≤ t) ∨
      (0 ≤ birthday 0 times ∧ ∀ t ∈ times, 0 ≤ t) := by
  induction times using List.reverseRecOn with
  | nil => exact .inr ⟨le_rfl, fun t ht ↦ absurd ht List.not_mem_nil⟩
  | append_singleton times t ih =>
    rw [birthday_append]
    obtain ⟨hneg, hall⟩ | ⟨hpos, hall⟩ := ih
    · obtain ⟨hle₁, hle₂⟩ := earlier_le hneg.ne t
      refine .inl ⟨hle₁.trans_lt hneg, fun t' ht' ↦ ?_⟩
      obtain hold | hnew := List.mem_append.mp ht'
      · exact hle₁.trans (hall t' hold)
      · rwa [List.mem_singleton.mp hnew]
    · by_cases ht : t < 0
      · have heq : earlier (birthday 0 times) t = t := if_pos (.inr (ht.trans_le hpos))
        rw [heq]
        refine .inl ⟨ht, fun t' ht' ↦ ?_⟩
        obtain hold | hnew := List.mem_append.mp ht'
        · exact ht.le.trans (hall t' hold)
        · exact (List.mem_singleton.mp hnew).ge
      · refine .inr ⟨?_, fun t' ht' ↦ ?_⟩
        · unfold earlier
          split_ifs <;> omega
        · obtain hold | hnew := List.mem_append.mp ht'
          · exact hall t' hold
          · rw [List.mem_singleton.mp hnew]
            omega

/-- A time of 0 makes everything before it forgotten. -/
theorem birthday_zero {before after : List ℤ} (h : ∀ t ∈ before, 0 ≤ t) :
    birthday 0 (before ++ 0 :: after) = birthday 0 after := by
  have hpos : 0 ≤ birthday 0 before := by
    obtain hzero | hmem := birthday_mem 0 before
    · exact hzero.ge
    · exact h _ hmem
  have hforget : earlier (birthday 0 before) 0 = 0 := by
    unfold earlier
    split_ifs <;> omega
  rw [birthday, List.foldl_append, List.foldl_cons]
  show birthday (earlier (birthday 0 before) 0) after = _
  rw [hforget]

/-- A time of 0 is followed by later times, all of them after 1, and no time is before 0. -/
def ForgetsZero (times : List ℤ) : Prop :=
  (∀ t ∈ times, 0 ≤ t) ∧
    ∃ before after, times = before ++ 0 :: after ∧ after ≠ [] ∧ ∀ t ∈ after, 1 < t

theorem exists_last_zero {times : List ℤ} (h : (0 : ℤ) ∈ times) :
    ∃ before after, times = before ++ 0 :: after ∧ (0 : ℤ) ∉ after := by
  obtain ⟨after, before, heq, hnot⟩ := List.eq_append_cons_of_mem (List.mem_reverse.mpr h)
  refine ⟨before.reverse, after.reverse, ?_, fun hmem ↦ hnot (List.mem_reverse.mp hmem)⟩
  rw [← List.reverse_reverse times, heq, List.reverse_append, List.reverse_cons, List.append_assoc]
  rfl

/-- The minimum is no bound at all, or a bound of all times and no time is 0, unless a 0 has been
forgotten. -/
theorem birthday_bound_iff (times : List ℤ) :
    (birthday 0 times ≤ 1 ∨ ((0 : ℤ) ∉ times ∧ ∀ t ∈ times, birthday 0 times ≤ t)) ↔
      ¬ ForgetsZero times := by
  constructor
  · rintro h ⟨hpos, before, after, rfl, hne, hafter⟩
    have hzero : (0 : ℤ) ∉ after := fun hmem ↦ absurd (hafter 0 hmem) (by decide)
    have hbefore : ∀ t ∈ before, 0 ≤ t := fun t ht ↦ hpos t (List.mem_append_left _ ht)
    obtain hle | ⟨hnot, -⟩ := h
    · rw [birthday_zero hbefore] at hle
      exact absurd (hafter _ (birthday_zero_le hzero hne).1) (not_lt.mpr hle)
    · exact hnot (List.mem_append_right _ List.mem_cons_self)
  · intro hgood
    obtain ⟨hneg, -⟩ | ⟨-, hpos⟩ := birthday_neg times
    · exact .inl (by omega)
    · by_cases hzero : (0 : ℤ) ∈ times
      · refine .inl ?_
        obtain ⟨before, after, rfl, hlast⟩ := exists_last_zero hzero
        rw [birthday_zero fun t ht ↦ hpos t (List.mem_append_left _ ht)]
        by_cases hempty : after = []
        · rw [hempty]
          decide
        · obtain ⟨-, hle⟩ := birthday_zero_le hlast hempty
          by_contra hlate
          exact hgood ⟨hpos, before, after, rfl, hempty, fun t ht ↦ by
            have := hle t ht
            omega⟩
      · by_cases hempty : times = []
        · rw [hempty]
          exact .inl (by decide)
        · exact .inr ⟨hzero, (birthday_zero_le hzero hempty).2⟩

/-! ## What a file holds -/

namespace WalletRecordId

/-- The public key of a metadata record. -/
def keymeta? : WalletRecordId → Option CPubKey
  | keymeta vchPubKey => some vchPubKey
  | _ => none

def key? : WalletRecordId → Option CPubKey
  | key vchPubKey => some vchPubKey
  | _ => none

def ckey? : WalletRecordId → Option CPubKey
  | ckey vchPubKey => some vchPubKey
  | _ => none

end WalletRecordId

namespace WalletFile

variable {file : WalletFile}

def createTime? : WalletRecord → Option ℤ
  | .keymeta _ nCreateTime => some nCreateTime
  | _ => none

/-- The times of a file, in the order of its records. -/
def createTimes (file : WalletFile) : List ℤ := file.filterMap createTime?

def ids (file : WalletFile) : List WalletRecordId := file.map WalletRecord.id

/-- The wallet has the key, encrypted or not. -/
def HasKey (file : WalletFile) (vchPubKey : CPubKey) : Prop :=
  .key vchPubKey ∈ file ∨ .ckey vchPubKey ∈ file

/-- Every record is found by its own ID, and a time is that of a key. -/
structure Backed (file : WalletFile) : Prop where
  nodup : file.ids.Nodup
  hasKey : ∀ vchPubKey t, .keymeta vchPubKey t ∈ file → file.HasKey vchPubKey

theorem mem_createTimes {t : ℤ} : t ∈ file.createTimes ↔ ∃ vchPubKey, .keymeta vchPubKey t ∈ file := by
  rw [createTimes, List.mem_filterMap]
  constructor
  · rintro ⟨r, hr, ht⟩
    cases r with
    | keymeta vchPubKey t' =>
      cases ht
      exact ⟨vchPubKey, hr⟩
    | key | ckey | pool => cases ht
  · rintro ⟨vchPubKey, hr⟩
    exact ⟨_, hr, rfl⟩

theorem Backed.perm {file' : WalletFile} (h : file.Backed) (hperm : file'.Perm file) :
    file'.Backed where
  nodup := (hperm.map WalletRecord.id).nodup_iff.mpr h.nodup
  hasKey vchPubKey t hmem :=
    (h.hasKey vchPubKey t (hperm.mem_iff.mp hmem)).imp hperm.mem_iff.mpr hperm.mem_iff.mpr

/-- A key has one time at most. -/
theorem Backed.keymeta_unique (h : file.Backed) {vchPubKey : CPubKey} {t t' : ℤ}
    (ht : .keymeta vchPubKey t ∈ file) (ht' : .keymeta vchPubKey t' ∈ file) : t = t' := by
  have heq := List.inj_on_of_nodup_map h.nodup ht ht' rfl
  exact (WalletRecord.keymeta.inj heq).2

/-! ### Writing -/

theorem mem_erase {id : WalletRecordId} {r : WalletRecord} :
    r ∈ file.erase id ↔ r ∈ file ∧ r.id ≠ id := by
  rw [erase, List.mem_filter, decide_eq_true_eq]

theorem nodup_erase (h : file.ids.Nodup) (id : WalletRecordId) : (file.erase id).ids.Nodup :=
  h.sublist (List.filter_sublist.map WalletRecord.id)

theorem nodup_append {r : WalletRecord} (h : file.ids.Nodup) (hnew : ∀ r' ∈ file, r'.id ≠ r.id) :
    ids (file ++ [r]) |>.Nodup := by
  rw [ids, List.map_append, List.map_singleton, List.nodup_append]
  refine ⟨h, List.nodup_singleton _, fun id hid id' hid' ↦ ?_⟩
  obtain ⟨r', hr', rfl⟩ := List.mem_map.mp hid
  rw [List.mem_singleton.mp hid']
  exact hnew r' hr'

theorem nodup_write (h : file.ids.Nodup) (r : WalletRecord) : (file.write r).ids.Nodup :=
  nodup_append (nodup_erase h r.id) fun _ hr' ↦ (mem_erase.mp hr').2

theorem mem_write {r r' : WalletRecord} :
    r' ∈ file.write r ↔ (r' ∈ file ∧ r'.id ≠ r.id) ∨ r' = r := by
  rw [write, List.mem_append, mem_erase, List.mem_singleton]

/-- A new record is written unless there is one with its ID. -/
theorem writeNew_cases (file : WalletFile) (r : WalletRecord) :
    (file.writeNew r = (file, false) ∧ ∃ r' ∈ file, r'.id = r.id) ∨
      (file.writeNew r = (file ++ [r], true) ∧ ∀ r' ∈ file, r'.id ≠ r.id) := by
  unfold writeNew
  split_ifs with hany
  · obtain ⟨r', hr', heq⟩ := List.any_eq_true.mp hany
    exact .inl ⟨rfl, r', hr', of_decide_eq_true heq⟩
  · exact .inr ⟨rfl, fun r' hr' heq ↦
      hany (List.any_eq_true.mpr ⟨r', hr', decide_eq_true heq⟩)⟩

theorem mem_of_mem_writeNew {r r' : WalletRecord} (h : r' ∈ (file.writeNew r).1) :
    r' ∈ file ∨ r' = r := by
  obtain ⟨heq, -⟩ | ⟨heq, -⟩ := file.writeNew_cases r
  · rw [heq] at h
    exact .inl h
  · rw [heq] at h
    exact (List.mem_append.mp h).imp_right List.mem_singleton.mp

theorem mem_writeNew_of_mem {r' : WalletRecord} (h : r' ∈ file) (r : WalletRecord) :
    r' ∈ (file.writeNew r).1 := by
  obtain ⟨heq, -⟩ | ⟨heq, -⟩ := file.writeNew_cases r
  · rw [heq]
    exact h
  · rw [heq]
    exact List.mem_append_left _ h

theorem nodup_writeNew (h : file.ids.Nodup) (r : WalletRecord) : (file.writeNew r).1.ids.Nodup := by
  obtain ⟨heq, -⟩ | ⟨heq, hnew⟩ := file.writeNew_cases r
  · rw [heq]
    exact h
  · rw [heq]
    exact nodup_append h hnew

theorem exists_mem_writeNew (file : WalletFile) (r : WalletRecord) :
    ∃ r' ∈ (file.writeNew r).1, r'.id = r.id := by
  obtain ⟨heq, r', hr', hid⟩ | ⟨heq, -⟩ := file.writeNew_cases r
  · rw [heq]
    exact ⟨r', hr', hid⟩
  · rw [heq]
    exact ⟨r, List.mem_append_right _ (List.mem_singleton_self r), rfl⟩

theorem mem_of_id_key {vchPubKey : CPubKey} (h : ∃ r ∈ file, r.id = .key vchPubKey) :
    .key vchPubKey ∈ file := by
  obtain ⟨r, hr, hid⟩ := h
  cases r with
  | key pubkey =>
    cases hid
    exact hr
  | keymeta | ckey | pool => cases hid

theorem mem_of_id_ckey {vchPubKey : CPubKey} (h : ∃ r ∈ file, r.id = .ckey vchPubKey) :
    .ckey vchPubKey ∈ file := by
  obtain ⟨r, hr, hid⟩ := h
  cases r with
  | ckey pubkey =>
    cases hid
    exact hr
  | keymeta | key | pool => cases hid

/-- What holds after a key has been written, or has been found in the file. -/
structure WritesKey (file file' : WalletFile) (vchPubKey : CPubKey) : Prop where
  backed : file'.Backed
  ckey : ∀ pubkey, .ckey pubkey ∈ file' → .ckey pubkey ∈ file
  key : ∀ pubkey, .key pubkey ∈ file' → .key pubkey ∈ file ∨ pubkey = vchPubKey

theorem Backed.writeKey (h : file.Backed) (vchPubKey : CPubKey) (t : ℤ) :
    WritesKey file (file.writeKey vchPubKey t).1 vchPubKey := by
  unfold WalletFile.writeKey
  obtain ⟨heq, -⟩ | ⟨heq, hnew⟩ := file.writeNew_cases (.keymeta vchPubKey t)
  · rw [heq]
    exact ⟨h, fun _ ↦ id, fun _ ↦ .inl⟩
  · rw [heq]
    show WritesKey file (writeNew (file ++ [.keymeta vchPubKey t]) (.key vchPubKey)).1 vchPubKey
    have hkey := mem_of_id_key (exists_mem_writeNew (file ++ [.keymeta vchPubKey t])
      (.key vchPubKey))
    have hmem : ∀ {r}, r ∈ (writeNew (file ++ [.keymeta vchPubKey t]) (.key vchPubKey)).1 →
        r ∈ file ∨ r = .keymeta vchPubKey t ∨ r = .key vchPubKey := by
      intro r hr
      obtain hold | rfl := mem_of_mem_writeNew hr
      · exact (List.mem_append.mp hold).imp_right fun hm ↦ .inl (List.mem_singleton.mp hm)
      · exact .inr (.inr rfl)
    have hold : ∀ {r}, r ∈ file →
        r ∈ (writeNew (file ++ [.keymeta vchPubKey t]) (.key vchPubKey)).1 :=
      fun hr ↦ mem_writeNew_of_mem (List.mem_append_left _ hr) _
    refine ⟨⟨nodup_writeNew (nodup_append h.nodup hnew) _, fun pubkey t' hr ↦ ?_⟩,
      fun pubkey hr ↦ ?_, fun pubkey hr ↦ ?_⟩
    · obtain hr | hr | hr := hmem hr
      · exact (h.hasKey pubkey t' hr).imp hold hold
      · cases hr
        exact .inl hkey
      · cases hr
    · obtain hr | hr | hr := hmem hr
      · exact hr
      · cases hr
      · cases hr
    · obtain hr | hr | hr := hmem hr
      · exact .inl hr
      · cases hr
      · cases hr
        exact .inr rfl

/-- What holds after an encrypted key has been written: the plain one is gone. -/
structure WritesCryptedKey (file file' : WalletFile) (ok : Bool) (vchPubKey : CPubKey) : Prop where
  backed : file'.Backed
  key : ∀ pubkey, .key pubkey ∈ file' → .key pubkey ∈ file
  gone : ok = true → .key vchPubKey ∉ file'

theorem Backed.writeCryptedKey (h : file.Backed) (vchPubKey : CPubKey) (t : ℤ) :
    WritesCryptedKey file (file.writeCryptedKey vchPubKey t).1
      (file.writeCryptedKey vchPubKey t).2 vchPubKey := by
  have hnodup := nodup_writeNew (nodup_write h.nodup (.keymeta vchPubKey t)) (.ckey vchPubKey)
  have hckey := mem_of_id_ckey (exists_mem_writeNew (file.write (.keymeta vchPubKey t))
    (.ckey vchPubKey))
  have hmem : ∀ {r}, r ∈ ((file.write (.keymeta vchPubKey t)).writeNew (.ckey vchPubKey)).1 →
      r ∈ file ∨ r = .keymeta vchPubKey t ∨ r = .ckey vchPubKey := by
    intro r hr
    obtain hold | rfl := mem_of_mem_writeNew hr
    · exact (mem_write.mp hold).imp And.left .inl
    · exact .inr (.inr rfl)
  have hold : ∀ {r : WalletRecord}, r ∈ file → r.id ≠ .keymeta vchPubKey →
      r ∈ ((file.write (.keymeta vchPubKey t)).writeNew (.ckey vchPubKey)).1 := by
    intro r hr hne
    have hwritten : r ∈ file.write (.keymeta vchPubKey t) := mem_write.mpr (.inl ⟨hr, hne⟩)
    exact mem_writeNew_of_mem hwritten _
  have hbacked : ∀ pubkey t',
      .keymeta pubkey t' ∈ ((file.write (.keymeta vchPubKey t)).writeNew (.ckey vchPubKey)).1 →
      pubkey = vchPubKey ∨ file.HasKey pubkey := by
    intro pubkey t' hr
    obtain hr | hr | hr := hmem hr
    · exact .inr (h.hasKey pubkey t' hr)
    · cases hr
      exact .inl rfl
    · cases hr
  have hkey : ∀ pubkey,
      .key pubkey ∈ ((file.write (.keymeta vchPubKey t)).writeNew (.ckey vchPubKey)).1 →
      .key pubkey ∈ file := by
    intro pubkey hr
    obtain hr | hr | hr := hmem hr
    · exact hr
    · cases hr
    · cases hr
  unfold WalletFile.writeCryptedKey
  rw [show (file.write (.keymeta vchPubKey t)).writeNew (.ckey vchPubKey) =
    (((file.write (.keymeta vchPubKey t)).writeNew (.ckey vchPubKey)).1,
      ((file.write (.keymeta vchPubKey t)).writeNew (.ckey vchPubKey)).2) from rfl]
  cases ((file.write (.keymeta vchPubKey t)).writeNew (.ckey vchPubKey)).2 with
  | false =>
    refine ⟨⟨hnodup, fun pubkey t' hr ↦ ?_⟩, hkey, fun h ↦ Bool.noConfusion h⟩
    obtain rfl | hhas := hbacked pubkey t' hr
    · exact .inr hckey
    · exact hhas.imp (hold · WalletRecordId.noConfusion) (hold · WalletRecordId.noConfusion)
  | true =>
    refine ⟨⟨nodup_erase hnodup _, fun pubkey t' hr ↦ ?_⟩,
      fun pubkey hr ↦ hkey pubkey (mem_erase.mp hr).1, fun _ hr ↦ (mem_erase.mp hr).2 rfl⟩
    by_cases heq : pubkey = vchPubKey
    · rw [heq]
      exact .inr (mem_erase.mpr ⟨hckey, WalletRecordId.noConfusion⟩)
    · have hhas := (hbacked pubkey t' (mem_erase.mp hr).1).resolve_left heq
      refine hhas.imp (fun hr' ↦ mem_erase.mpr ⟨hold hr' WalletRecordId.noConfusion, ?_⟩)
        fun hr' ↦ mem_erase.mpr
          ⟨hold hr' WalletRecordId.noConfusion, WalletRecordId.noConfusion⟩
      exact fun hid ↦ heq (WalletRecordId.key.inj hid)

end WalletFile

/-! ## What holds between two operations -/

namespace KeyWallet

variable {getID : CPubKey → CKeyID} {w w' : KeyWallet}

/-- The records of a wallet are backed, and it has encrypted keys or plain ones; the plain ones are in
memory. -/
structure Ok (w : KeyWallet) : Prop where
  backed : w.file.Backed
  plain : w.fUseCrypto = false → (∀ vchPubKey, .ckey vchPubKey ∉ w.file) ∧
    ∀ vchPubKey, .key vchPubKey ∈ w.file → vchPubKey ∈ w.mapKeys
  crypted : w.fUseCrypto = true → ∀ vchPubKey, .key vchPubKey ∉ w.file

/-- What does not touch the keys or the file. -/
theorem Ok.congr (h : w.Ok) (hfile : w'.file = w.file) (hcrypto : w'.fUseCrypto = w.fUseCrypto)
    (hkeys : w'.mapKeys = w.mapKeys) : w'.Ok where
  backed := hfile ▸ h.backed
  plain hoff := by
    rw [hfile, hkeys]
    exact h.plain (hcrypto ▸ hoff)
  crypted hon := by
    rw [hfile]
    exact h.crypted (hcrypto ▸ hon)

theorem mem_insertKey (hinj : Function.Injective getID) {keys : List CPubKey}
    {vchPubKey pubkey : CPubKey} :
    pubkey ∈ insertKey getID keys vchPubKey ↔ pubkey ∈ keys ∨ pubkey = vchPubKey := by
  rw [insertKey, List.mem_append, List.mem_filter, decide_eq_true_eq, List.mem_singleton]
  constructor
  · exact fun h ↦ h.imp_left And.left
  · rintro (hmem | heq)
    · by_cases heq : pubkey = vchPubKey
      · exact .inr heq
      · exact .inl ⟨hmem, fun hid ↦ heq (hinj hid)⟩
    · exact .inr heq

theorem Ok.addKeyPubKey (hinj : Function.Injective getID) (h : w.Ok) (vchPubKey : CPubKey) :
    (w.addKeyPubKey getID vchPubKey).1.Ok := by
  unfold KeyWallet.addKeyPubKey
  by_cases hcrypto : w.fUseCrypto = true
  · rw [if_pos hcrypto]
    split_ifs
    · exact h
    · have hwrite := h.backed.writeCryptedKey vchPubKey (w.createTime (getID vchPubKey))
      exact ⟨hwrite.backed, fun hoff ↦ Bool.noConfusion (hcrypto.symm.trans hoff),
        fun _ pubkey hmem ↦ h.crypted hcrypto pubkey (hwrite.key pubkey hmem)⟩
  · rw [if_neg hcrypto]
    have hwrite := h.backed.writeKey vchPubKey (w.createTime (getID vchPubKey))
    obtain ⟨hckey, hkey⟩ := h.plain (Bool.eq_false_iff.mpr hcrypto)
    refine ⟨hwrite.backed, fun _ ↦ ⟨fun pubkey hmem ↦ hckey pubkey (hwrite.ckey pubkey hmem),
      fun pubkey hmem ↦ ?_⟩, fun hon ↦ absurd hon hcrypto⟩
    exact (mem_insertKey hinj).mpr ((hwrite.key pubkey hmem).imp_left (hkey pubkey))

theorem Ok.generateNewKey (hinj : Function.Injective getID) (h : w.Ok) (vchPubKey : CPubKey)
    (nCreationTime : ℤ) : (w.generateNewKey getID vchPubKey nCreationTime).Ok := by
  refine Ok.addKeyPubKey hinj ?_ vchPubKey
  exact h.congr rfl rfl rfl

theorem Ok.importprivkey (hinj : Function.Injective getID) (h : w.Ok) (vchPubKey : CPubKey) :
    (w.importprivkey getID vchPubKey).Ok := by
  unfold KeyWallet.importprivkey
  split_ifs
  · exact h
  · have hadd := Ok.addKeyPubKey hinj (w := w.setMetadata (getID vchPubKey) 1)
      (h.congr rfl rfl rfl) vchPubKey
    split
    · rename_i w' heq
      rwa [heq] at hadd
    · rename_i w' heq
      rw [heq] at hadd
      exact hadd.congr rfl rfl rfl

theorem Ok.importLine (hinj : Function.Injective getID) (h : w.Ok) (nTimeBegin : ℤ)
    (line : CPubKey × ℤ) : (w.importLine getID nTimeBegin line).1.Ok := by
  unfold KeyWallet.importLine
  split_ifs
  · exact h
  · have hadd := h.addKeyPubKey hinj line.1
    split
    · rename_i w' heq
      rwa [heq] at hadd
    · rename_i w' heq
      rw [heq] at hadd
      exact hadd.congr rfl rfl rfl

theorem Ok.importwallet (hinj : Function.Injective getID) (h : w.Ok) (lines : List (CPubKey × ℤ))
    (nTimeBegin : ℤ) : (w.importwallet getID lines nTimeBegin).Ok := by
  have hlines : (lines.foldl (fun r line ↦ r.1.importLine getID r.2 line) (w, nTimeBegin)).1.Ok := by
    induction lines using List.reverseRecOn with
    | nil => exact h
    | append_singleton lines line ih =>
      rw [List.foldl_append]
      exact ih.importLine hinj _ line
  exact hlines.congr rfl rfl rfl

/-- The loop of `EncryptKeys` leaves no plain record of its keys. -/
theorem encryptKeys_spec {keys : List CPubKey} (h : w.file.Backed)
    (hrun : encryptKeys getID w keys = some w') : w'.file.Backed ∧ w'.fUseCrypto = w.fUseCrypto ∧
      ∀ vchPubKey, .key vchPubKey ∈ w'.file → .key vchPubKey ∈ w.file ∧ vchPubKey ∉ keys := by
  induction keys generalizing w with
  | nil =>
    cases hrun
    exact ⟨h, rfl, fun _ hmem ↦ ⟨hmem, List.not_mem_nil⟩⟩
  | cons vchPubKey keys ih =>
    have hwrite := h.writeCryptedKey vchPubKey (w.createTime (getID vchPubKey))
    rw [encryptKeys] at hrun
    split at hrun
    · cases hrun
    · rename_i w₁ heq
      have hfile : w₁.file =
          (w.file.writeCryptedKey vchPubKey (w.createTime (getID vchPubKey))).1 := by
        rw [show w₁ = (w.addCryptedKey getID vchPubKey).1 from by rw [heq]]
        rfl
      have hok : (w.file.writeCryptedKey vchPubKey (w.createTime (getID vchPubKey))).2 = true :=
        congrArg Prod.snd heq
      have hcrypto : w₁.fUseCrypto = w.fUseCrypto := by
        rw [show w₁ = (w.addCryptedKey getID vchPubKey).1 from by rw [heq]]
        rfl
      obtain ⟨hbacked, hcrypto', hkey⟩ := ih (hfile ▸ hwrite.backed) hrun
      refine ⟨hbacked, hcrypto'.trans hcrypto, fun pubkey hmem ↦ ?_⟩
      obtain ⟨hmem₁, hnot⟩ := hkey pubkey hmem
      rw [hfile] at hmem₁
      refine ⟨hwrite.key pubkey hmem₁, fun hin ↦ ?_⟩
      obtain rfl | hin := List.mem_cons.mp hin
      · exact hwrite.gone hok hmem₁
      · exact hnot hin

theorem Ok.encryptWallet (h : w.Ok) (hrun : w.encryptWallet getID = some w') : w'.Ok := by
  unfold KeyWallet.encryptWallet at hrun
  split_ifs at hrun with hcrypto
  · cases hrun
    exact h
  · obtain ⟨w₁, hloop, rfl⟩ := Option.map_eq_some_iff.mp hrun
    obtain ⟨hbacked, hon, hkey⟩ := encryptKeys_spec (by exact h.backed) hloop
    refine ⟨hbacked, fun hoff ↦ Bool.noConfusion (hon.symm.trans hoff), fun _ vchPubKey hmem ↦ ?_⟩
    obtain ⟨hold, hnot⟩ := hkey vchPubKey hmem
    exact hnot ((h.plain (Bool.eq_false_iff.mpr hcrypto)).2 vchPubKey hold)

end KeyWallet

namespace WalletFile

variable {file : WalletFile}

/-- A record that is neither a key nor its time can be written or erased. -/
theorem Backed.writePool (h : file.Backed) (nIndex : ℤ) (vchPubKey : CPubKey) (nTime : ℤ) :
    (file.write (.pool nIndex vchPubKey nTime)).Backed := by
  refine ⟨nodup_write h.nodup _, fun pubkey t hmem ↦ ?_⟩
  obtain hold | hnew := mem_write.mp hmem
  · exact (h.hasKey pubkey t hold.1).imp
      (fun hr ↦ mem_write.mpr (.inl ⟨hr, WalletRecordId.noConfusion⟩))
      fun hr ↦ mem_write.mpr (.inl ⟨hr, WalletRecordId.noConfusion⟩)
  · cases hnew

theorem Backed.erasePool (h : file.Backed) (nIndex : ℤ) : (file.erase (.pool nIndex)).Backed := by
  refine ⟨nodup_erase h.nodup _, fun pubkey t hmem ↦ ?_⟩
  exact (h.hasKey pubkey t (mem_erase.mp hmem).1).imp
    (fun hr ↦ mem_erase.mpr ⟨hr, WalletRecordId.noConfusion⟩)
    fun hr ↦ mem_erase.mpr ⟨hr, WalletRecordId.noConfusion⟩

end WalletFile

/-! ## Loading -/

namespace KeyWallet

variable {getID : CPubKey → CKeyID} {w w' : KeyWallet} {wss wss' : ScanState}

/-- What the records of a file make of a wallet and the counts. -/
structure Reads (records : List WalletRecord) (w : KeyWallet) (wss : ScanState) (w' : KeyWallet)
    (wss' : ScanState) : Prop where
  nTimeFirstKey : w'.nTimeFirstKey = birthday w.nTimeFirstKey (WalletFile.createTimes records)
  nKeys : wss'.nKeys = wss.nKeys + ((WalletFile.ids records).filterMap WalletRecordId.key?).length
  nCKeys :
    wss'.nCKeys = wss.nCKeys + ((WalletFile.ids records).filterMap WalletRecordId.ckey?).length
  nKeyMeta : wss'.nKeyMeta =
    wss.nKeyMeta + ((WalletFile.ids records).filterMap WalletRecordId.keymeta?).length
  file : w'.file = w.file
  fUseCrypto : w'.fUseCrypto = true ↔ w.fUseCrypto = true ∨ ∃ vchPubKey, .ckey vchPubKey ∈ records
  mapKeys : ∀ vchPubKey, vchPubKey ∈ w.mapKeys ∨ .key vchPubKey ∈ records → vchPubKey ∈ w'.mapKeys

theorem Reads.cons {r : WalletRecord} {records : List WalletRecord} {w₁ : KeyWallet}
    {wss₁ : ScanState} (h : Reads [r] w wss w₁ wss₁) (hrest : Reads records w₁ wss₁ w' wss') :
    Reads (r :: records) w wss w' wss' where
  nTimeFirstKey := by
    rw [hrest.nTimeFirstKey, h.nTimeFirstKey, birthday, birthday, birthday, ← List.foldl_append,
      WalletFile.createTimes, WalletFile.createTimes, WalletFile.createTimes,
      ← List.filterMap_append, List.singleton_append]
  nKeys := by
    rw [hrest.nKeys, h.nKeys, Nat.add_assoc, ← List.length_append, ← List.filterMap_append]
    rfl
  nCKeys := by
    rw [hrest.nCKeys, h.nCKeys, Nat.add_assoc, ← List.length_append, ← List.filterMap_append]
    rfl
  nKeyMeta := by
    rw [hrest.nKeyMeta, h.nKeyMeta, Nat.add_assoc, ← List.length_append, ← List.filterMap_append]
    rfl
  file := hrest.file.trans h.file
  fUseCrypto := by
    rw [hrest.fUseCrypto, h.fUseCrypto, or_assoc, ← exists_or]
    simp only [List.mem_cons, List.not_mem_nil, or_false]
  mapKeys vchPubKey hmem := by
    refine hrest.mapKeys vchPubKey ?_
    obtain hold | hmem := hmem
    · exact .inl (h.mapKeys vchPubKey (.inl hold))
    · obtain hhead | htail := List.mem_cons.mp hmem
      · exact .inl (h.mapKeys vchPubKey (.inr (List.mem_singleton.mpr hhead)))
      · exact .inr htail

/-- The two updates of the birthday do what one does. -/
theorem earlier_loadKeyMetadata (w : KeyWallet) (vchPubKey : CPubKey) (t : ℤ) :
    earlier (w.loadKeyMetadata getID vchPubKey t).nTimeFirstKey t = earlier w.nTimeFirstKey t := by
  unfold loadKeyMetadata setMetadata
  split_ifs with ht
  · simp only [earlier]
    split_ifs <;> omega
  · rfl

theorem loadKeyMetadata_frame (getID : CPubKey → CKeyID) (w : KeyWallet) (vchPubKey : CPubKey)
    (t : ℤ) :
    (w.loadKeyMetadata getID vchPubKey t).file = w.file ∧
      (w.loadKeyMetadata getID vchPubKey t).fUseCrypto = w.fUseCrypto ∧
      (w.loadKeyMetadata getID vchPubKey t).mapKeys = w.mapKeys := by
  unfold loadKeyMetadata setMetadata
  split_ifs
  · exact ⟨rfl, rfl, rfl⟩
  · exact ⟨rfl, rfl, rfl⟩

/-- The records hold encrypted keys or plain ones, and so does the wallet that reads them. -/
def OneKind (w : KeyWallet) (records : List WalletRecord) : Prop :=
  (w.fUseCrypto = false ∧ ∀ vchPubKey, .ckey vchPubKey ∉ records) ∨
    (w.mapKeys = [] ∧ ∀ vchPubKey, .key vchPubKey ∉ records)

theorem mem_singleton_ne {r : WalletRecord} {f : CPubKey → WalletRecord} (h : ∀ pubkey, f pubkey ≠ r)
    (vchPubKey : CPubKey) : f vchPubKey ∉ [r] :=
  fun hmem ↦ h vchPubKey (List.mem_singleton.mp hmem)

theorem readKeyValue_spec (hinj : Function.Injective getID) (w : KeyWallet) (wss : ScanState)
    {r : WalletRecord} {records : List WalletRecord} (hkind : OneKind w (r :: records)) :
    ∃ w' wss', w.readKeyValue getID wss r = some (w', wss') ∧ Reads [r] w wss w' wss' ∧
      OneKind w' records := by
  have htail : OneKind w records := hkind.imp
    (And.imp_right fun h pubkey hmem ↦ h pubkey (List.mem_cons_of_mem _ hmem))
    (And.imp_right fun h pubkey hmem ↦ h pubkey (List.mem_cons_of_mem _ hmem))
  have hnone : ∀ {P : Prop} {f : CPubKey → WalletRecord}, (∀ pubkey, f pubkey ≠ r) →
      (P ↔ P ∨ ∃ vchPubKey, f vchPubKey ∈ [r]) := fun hne ↦
    ⟨.inl, fun h ↦ h.resolve_right fun ⟨pubkey, hmem⟩ ↦ mem_singleton_ne hne pubkey hmem⟩
  cases r with
  | keymeta vchPubKey t =>
    obtain ⟨hfile, hcrypto, hkeys⟩ := loadKeyMetadata_frame getID w vchPubKey t
    refine ⟨_, _, rfl, ⟨earlier_loadKeyMetadata w vchPubKey t, rfl, rfl, rfl, hfile, ?_, ?_⟩, ?_⟩
    · rw [hcrypto]
      exact hnone fun _ ↦ WalletRecord.noConfusion
    · intro pubkey hmem
      rw [hkeys]
      exact hmem.resolve_right (mem_singleton_ne (fun _ ↦ WalletRecord.noConfusion) pubkey)
    · rw [OneKind, hcrypto, hkeys]
      exact htail
  | key vchPubKey =>
    obtain ⟨hoff, hckey⟩ | ⟨-, hkey⟩ := hkind
    · refine ⟨_, _, if_neg (by rw [hoff]; decide), ⟨rfl, rfl, rfl, rfl, rfl, ?_, ?_⟩, ?_⟩
      · exact hnone fun _ ↦ WalletRecord.noConfusion
      · intro pubkey hmem
        refine (mem_insertKey hinj).mpr (hmem.imp_right fun h ↦ ?_)
        exact WalletRecord.key.inj (List.mem_singleton.mp h)
      · exact .inl ⟨hoff, fun pubkey hmem ↦ hckey pubkey (List.mem_cons_of_mem _ hmem)⟩
    · exact absurd List.mem_cons_self (hkey vchPubKey)
  | ckey vchPubKey =>
    obtain ⟨-, hckey⟩ | ⟨hempty, hkey⟩ := hkind
    · exact absurd List.mem_cons_self (hckey vchPubKey)
    · refine ⟨_, _, if_neg (by rw [hempty]; simp), ⟨rfl, rfl, rfl, rfl, rfl, ?_, ?_⟩, ?_⟩
      · exact iff_of_true rfl (.inr ⟨vchPubKey, List.mem_singleton_self _⟩)
      · intro pubkey hmem
        exact hmem.resolve_right (mem_singleton_ne (fun _ ↦ WalletRecord.noConfusion) pubkey)
      · exact .inr ⟨hempty, fun pubkey hmem ↦ hkey pubkey (List.mem_cons_of_mem _ hmem)⟩
  | pool nIndex vchPubKey nTime =>
    rw [readKeyValue]
    split_ifs
    · refine ⟨_, _, rfl, ⟨rfl, rfl, rfl, rfl, rfl, hnone fun _ ↦ WalletRecord.noConfusion, ?_⟩, htail⟩
      intro pubkey hmem
      exact hmem.resolve_right (mem_singleton_ne (fun _ ↦ WalletRecord.noConfusion) pubkey)
    · refine ⟨_, _, rfl, ⟨rfl, rfl, rfl, rfl, rfl, hnone fun _ ↦ WalletRecord.noConfusion, ?_⟩, htail⟩
      intro pubkey hmem
      exact hmem.resolve_right (mem_singleton_ne (fun _ ↦ WalletRecord.noConfusion) pubkey)

theorem readRecords_spec (hinj : Function.Injective getID) {records : List WalletRecord}
    (w : KeyWallet) (wss : ScanState) (hkind : OneKind w records) :
    ∃ w' wss', readRecords getID w wss records = some (w', wss') ∧ Reads records w wss w' wss' := by
  induction records generalizing w wss with
  | nil =>
    refine ⟨w, wss, rfl, rfl, rfl, rfl, rfl, rfl, ?_, ?_⟩
    · exact ⟨.inl, fun h ↦ h.resolve_right fun ⟨_, hmem⟩ ↦ List.not_mem_nil hmem⟩
    · exact fun _ hmem ↦ hmem.resolve_right List.not_mem_nil
  | cons r records ih =>
    obtain ⟨w₁, wss₁, hread, hreads, hkind₁⟩ := readKeyValue_spec hinj w wss hkind
    obtain ⟨w', wss', hrest, hreads'⟩ := ih w₁ wss₁ hkind₁
    refine ⟨w', wss', ?_, hreads.cons hreads'⟩
    rw [readRecords, hread]
    exact hrest

end KeyWallet

namespace WalletFile

variable {file : WalletFile}

/-- Every key has a record of its time. -/
def AllTimed (file : WalletFile) : Prop :=
  ∀ vchPubKey, file.HasKey vchPubKey → ∃ t, .keymeta vchPubKey t ∈ file

/-- The public keys that are found by IDs of one kind. -/
theorem mem_filterMap_ids {f : WalletRecordId → Option CPubKey} {vchPubKey : CPubKey} :
    vchPubKey ∈ file.ids.filterMap f ↔ ∃ r ∈ file, f r.id = some vchPubKey := by
  rw [List.mem_filterMap]
  constructor
  · rintro ⟨id, hid, hf⟩
    obtain ⟨r, hr, rfl⟩ := List.mem_map.mp hid
    exact ⟨r, hr, hf⟩
  · rintro ⟨r, hr, hf⟩
    exact ⟨r.id, List.mem_map_of_mem hr, hf⟩

theorem mem_key? {vchPubKey : CPubKey} :
    vchPubKey ∈ file.ids.filterMap WalletRecordId.key? ↔ .key vchPubKey ∈ file := by
  rw [mem_filterMap_ids]
  constructor
  · rintro ⟨r, hr, hf⟩
    cases r with
    | key pubkey =>
      cases hf
      exact hr
    | keymeta | ckey | pool => cases hf
  · exact fun hr ↦ ⟨_, hr, rfl⟩

theorem mem_ckey? {vchPubKey : CPubKey} :
    vchPubKey ∈ file.ids.filterMap WalletRecordId.ckey? ↔ .ckey vchPubKey ∈ file := by
  rw [mem_filterMap_ids]
  constructor
  · rintro ⟨r, hr, hf⟩
    cases r with
    | ckey pubkey =>
      cases hf
      exact hr
    | keymeta | key | pool => cases hf
  · exact fun hr ↦ ⟨_, hr, rfl⟩

theorem mem_keymeta? {vchPubKey : CPubKey} :
    vchPubKey ∈ file.ids.filterMap WalletRecordId.keymeta? ↔
      ∃ t, .keymeta vchPubKey t ∈ file := by
  rw [mem_filterMap_ids]
  constructor
  · rintro ⟨r, hr, hf⟩
    cases r with
    | keymeta pubkey t =>
      cases hf
      exact ⟨t, hr⟩
    | ckey | key | pool => cases hf
  · rintro ⟨t, hr⟩
    exact ⟨_, hr, rfl⟩

/-- The public keys of a file, the plain ones first. -/
def pubKeys (file : WalletFile) : List CPubKey :=
  file.ids.filterMap WalletRecordId.key? ++ file.ids.filterMap WalletRecordId.ckey?

theorem mem_pubKeys {vchPubKey : CPubKey} :
    vchPubKey ∈ file.pubKeys ↔ file.HasKey vchPubKey := by
  rw [pubKeys, List.mem_append, mem_key?, mem_ckey?]
  rfl

theorem nodup_key? (h : file.ids.Nodup) : (file.ids.filterMap WalletRecordId.key?).Nodup := by
  refine h.filterMap fun id id' vchPubKey hid hid' ↦ ?_
  cases id <;> cases hid
  cases id' <;> cases hid'
  rfl

theorem nodup_ckey? (h : file.ids.Nodup) : (file.ids.filterMap WalletRecordId.ckey?).Nodup := by
  refine h.filterMap fun id id' vchPubKey hid hid' ↦ ?_
  cases id <;> cases hid
  cases id' <;> cases hid'
  rfl

theorem nodup_keymeta? (h : file.ids.Nodup) :
    (file.ids.filterMap WalletRecordId.keymeta?).Nodup := by
  refine h.filterMap fun id id' vchPubKey hid hid' ↦ ?_
  cases id <;> cases hid
  cases id' <;> cases hid'
  rfl

/-- Encrypted keys or plain ones. -/
def OneKind (file : WalletFile) : Prop :=
  (∀ vchPubKey, .ckey vchPubKey ∉ file) ∨ ∀ vchPubKey, .key vchPubKey ∉ file

theorem nodup_pubKeys (h : file.ids.Nodup) (hkind : file.OneKind) : file.pubKeys.Nodup := by
  rw [pubKeys]
  obtain hckey | hkey := hkind
  · have hnil : file.ids.filterMap WalletRecordId.ckey? = [] :=
      List.eq_nil_iff_forall_not_mem.mpr fun pubkey hmem ↦ hckey pubkey (mem_ckey?.mp hmem)
    rw [hnil, List.append_nil]
    exact nodup_key? h
  · have hnil : file.ids.filterMap WalletRecordId.key? = [] :=
      List.eq_nil_iff_forall_not_mem.mpr fun pubkey hmem ↦ hkey pubkey (mem_key?.mp hmem)
    rw [hnil, List.nil_append]
    exact nodup_ckey? h

/-- There are as many keys as times exactly when every key has a time. -/
theorem Backed.length_eq_iff (h : file.Backed) (hkind : file.OneKind) :
    file.pubKeys.length = (file.ids.filterMap WalletRecordId.keymeta?).length ↔ file.AllTimed := by
  have hsub : file.ids.filterMap WalletRecordId.keymeta? ⊆ file.pubKeys := by
    intro pubkey hmem
    obtain ⟨t, ht⟩ := mem_keymeta?.mp hmem
    exact mem_pubKeys.mpr (h.hasKey pubkey t ht)
  have hsubperm := (nodup_keymeta? h.nodup).subperm hsub
  constructor
  · intro hlen pubkey hhas
    have hperm := hsubperm.perm_of_length_le hlen.le
    exact mem_keymeta?.mp (hperm.mem_iff.mpr (mem_pubKeys.mpr hhas))
  · intro hall
    refine le_antisymm ?_ hsubperm.length_le
    refine ((nodup_pubKeys h.nodup hkind).subperm fun pubkey hmem ↦ ?_).length_le
    exact mem_keymeta?.mpr (hall pubkey (mem_pubKeys.mp hmem))

end WalletFile

namespace KeyWallet

variable {getID : CPubKey → CKeyID} {w w' : KeyWallet}

/-- What `LoadWallet` makes of a file. -/
theorem loadWallet_spec (hinj : Function.Injective getID) {file : WalletFile}
    (hbacked : file.Backed) (hkind : file.OneKind) :
    ∃ w', loadWallet getID file = some w' ∧ w'.Ok ∧ w'.file = file ∧
      (file.AllTimed → w'.nTimeFirstKey = birthday 0 file.createTimes) ∧
      (¬ file.AllTimed → w'.nTimeFirstKey = 1) := by
  obtain ⟨w, wss, hread, hreads⟩ := readRecords_spec hinj
    ⟨[], [], false, false, fun _ ↦ none, 0, file⟩ ⟨0, 0, 0⟩ (hkind.imp (⟨rfl, ·⟩) (⟨rfl, ·⟩))
  have hcount : wss.nKeys + wss.nCKeys = wss.nKeyMeta ↔ file.AllTimed := by
    rw [hreads.nKeys, hreads.nCKeys, hreads.nKeyMeta, ← hbacked.length_eq_iff hkind,
      WalletFile.pubKeys, List.length_append]
    simp only [Nat.zero_add]
  have hok : w.Ok := by
    refine ⟨?_, fun hoff ↦ ⟨fun pubkey hmem ↦ ?_, fun pubkey hmem ↦ ?_⟩, fun hon pubkey hmem ↦ ?_⟩
    · rw [hreads.file]
      exact hbacked
    · rw [hreads.file] at hmem
      exact Bool.noConfusion (hoff.symm.trans (hreads.fUseCrypto.mpr (.inr ⟨pubkey, hmem⟩)))
    · rw [hreads.file] at hmem
      exact hreads.mapKeys pubkey (.inr hmem)
    · rw [hreads.file] at hmem
      obtain hfalse | ⟨pubkey', hckey⟩ := hreads.fUseCrypto.mp hon
      · cases hfalse
      · obtain hno | hno := hkind
        · exact hno pubkey' hckey
        · exact hno pubkey hmem
  refine ⟨_, by rw [loadWallet, hread]; rfl, ?_, ?_, fun hall ↦ ?_, fun hnot ↦ ?_⟩
  · simp only
    split_ifs
    · exact hok.congr rfl rfl rfl
    · exact hok
  · simp only
    split_ifs
    · exact hreads.file
    · exact hreads.file
  · simp only
    rw [if_neg (not_not.mpr (hcount.mpr hall))]
    exact hreads.nTimeFirstKey
  · simp only
    rw [if_pos (mt hcount.mp hnot)]

theorem Ok.oneKind (h : w.Ok) : w.file.OneKind := by
  cases hcrypto : w.fUseCrypto with
  | false => exact .inl (h.plain hcrypto).1
  | true => exact .inr (h.crypted hcrypto)

theorem Ok.apply (hinj : Function.Injective getID) (h : w.Ok) (op : KeyWalletOp)
    (hop : op.apply getID w = some w') : w'.Ok := by
  cases op with
  | generateNewKey vchPubKey nCreationTime =>
    cases hop
    exact h.generateNewKey hinj vchPubKey nCreationTime
  | importprivkey vchPubKey =>
    cases hop
    exact h.importprivkey hinj vchPubKey
  | importwallet lines nTimeBegin =>
    cases hop
    exact h.importwallet hinj lines nTimeBegin
  | encryptWallet => exact h.encryptWallet hop
  | setUnlocked fUnlocked =>
    cases hop
    exact h.congr rfl rfl rfl
  | writePool nIndex vchPubKey nTime =>
    cases hop
    have hmem : ∀ {r : WalletRecord}, r ∈ w.file.write (.pool nIndex vchPubKey nTime) →
        r ∈ w.file ∨ r = .pool nIndex vchPubKey nTime :=
      fun hr ↦ (WalletFile.mem_write.mp hr).imp_left And.left
    refine ⟨h.backed.writePool nIndex vchPubKey nTime, fun hoff ↦ ⟨fun pubkey hr ↦ ?_,
      fun pubkey hr ↦ ?_⟩, fun hon pubkey hr ↦ ?_⟩
    · exact (h.plain hoff).1 pubkey ((hmem hr).resolve_right WalletRecord.noConfusion)
    · exact (h.plain hoff).2 pubkey ((hmem hr).resolve_right WalletRecord.noConfusion)
    · exact h.crypted hon pubkey ((hmem hr).resolve_right WalletRecord.noConfusion)
  | erasePool nIndex =>
    cases hop
    refine ⟨h.backed.erasePool nIndex, fun hoff ↦ ⟨fun pubkey hr ↦ ?_, fun pubkey hr ↦ ?_⟩,
      fun hon pubkey hr ↦ ?_⟩
    · exact (h.plain hoff).1 pubkey (WalletFile.mem_erase.mp hr).1
    · exact (h.plain hoff).2 pubkey (WalletFile.mem_erase.mp hr).1
    · exact h.crypted hon pubkey (WalletFile.mem_erase.mp hr).1

end KeyWallet

/-! ## Every history -/

section

variable {getID : CPubKey → CKeyID} {w : KeyWallet}

theorem backed_legacy {keys : List CPubKey} (hkeys : keys.Nodup) :
    WalletFile.Backed (keys.map .key) := by
  refine ⟨?_, fun vchPubKey t hmem ↦ ?_⟩
  · rw [WalletFile.ids, List.map_map]
    exact hkeys.map fun _ _ h ↦ WalletRecordId.key.inj h
  · obtain ⟨_, -, heq⟩ := List.mem_map.mp hmem
    cases heq

theorem oneKind_legacy (keys : List CPubKey) : WalletFile.OneKind (keys.map .key) := by
  refine .inl fun vchPubKey hmem ↦ ?_
  obtain ⟨_, -, heq⟩ := List.mem_map.mp hmem
  cases heq

theorem KeyHistory.ok (hinj : Function.Injective getID) (h : KeyHistory getID w) : w.Ok := by
  induction h with
  | legacy hkeys hload =>
    obtain ⟨w', hload', hok, -⟩ :=
      KeyWallet.loadWallet_spec hinj (backed_legacy hkeys) (oneKind_legacy _)
    rw [hload] at hload'
    cases hload'
    exact hok
  | step h op hop ih => exact ih.apply hinj op hop
  | restart h horder hload ih =>
    have hkind := ih.oneKind.imp (fun hno pubkey hmem ↦ hno pubkey (horder.mem_iff.mp hmem))
      fun hno pubkey hmem ↦ hno pubkey (horder.mem_iff.mp hmem)
    obtain ⟨w', hload', hok, -⟩ := KeyWallet.loadWallet_spec hinj (ih.backed.perm horder) hkind
    rw [hload] at hload'
    cases hload'
    exact hok

/-- The loader forgets that the time of a key is unknown: every key has a record of its time, and a
record with the time 0 is followed by later ones only. -/
def WalletFile.Forgets (file : WalletFile) : Prop :=
  file.AllTimed ∧ ForgetsZero file.createTimes

/-- A birthday of at most 1 is no bound, as no block is before it; any other is not later than the time
of any key, and every key has a time. -/
def WalletFile.Bounds (file : WalletFile) (nTimeFirstKey : ℤ) : Prop :=
  nTimeFirstKey ≤ 1 ∨ ∀ vchPubKey, file.HasKey vchPubKey →
    ∃ t, t ≠ 0 ∧ .keymeta vchPubKey t ∈ file ∧ nTimeFirstKey ≤ t

theorem WalletFile.Backed.bounds_iff {file : WalletFile} (h : file.Backed) (hall : file.AllTimed)
    (r : ℤ) : file.Bounds r ↔
      r ≤ 1 ∨ ((0 : ℤ) ∉ file.createTimes ∧ ∀ t ∈ file.createTimes, r ≤ t) := by
  refine or_congr_right ⟨fun hbound ↦ ?_, fun ⟨hzero, hle⟩ vchPubKey hhas ↦ ?_⟩
  · have hkey : ∀ t ∈ file.createTimes, t ≠ 0 ∧ r ≤ t := by
      intro t ht
      obtain ⟨vchPubKey, hmem⟩ := WalletFile.mem_createTimes.mp ht
      obtain ⟨t', hne, hmem', hle⟩ := hbound vchPubKey (h.hasKey vchPubKey t hmem)
      obtain rfl := h.keymeta_unique hmem hmem'
      exact ⟨hne, hle⟩
    exact ⟨fun hzero ↦ (hkey 0 hzero).1 rfl, fun t ht ↦ (hkey t ht).2⟩
  · obtain ⟨t, ht⟩ := hall vchPubKey hhas
    have htimes := WalletFile.mem_createTimes.mpr ⟨vchPubKey, ht⟩
    exact ⟨t, fun heq ↦ hzero (heq ▸ htimes), ht, hle t htimes⟩

/-- **The birthday.**  After every history, and in whatever order the records are read, the birthday
bounds the times of all keys exactly when the loader forgets no unknown time; and then a rescan skips
no block that a key may be older than. -/
theorem birthday_iff (hinj : Function.Injective getID) (h : KeyHistory getID w) {file : WalletFile}
    (horder : file.Perm w.file) : ∃ w', KeyWallet.loadWallet getID file = some w' ∧
      (file.Bounds w'.nTimeFirstKey ↔ ¬ file.Forgets) ∧
      (¬ file.Forgets → ∀ vchPubKey nTime, file.HasKey vchPubKey → 0 ≤ nTime →
        (∀ t, t ≠ 0 → .keymeta vchPubKey t ∈ file → t - 7200 ≤ nTime) → ¬ w'.skips nTime) := by
  have hok := h.ok hinj
  have hbacked := hok.backed.perm horder
  have hkind := hok.oneKind.imp (fun hno pubkey hmem ↦ hno pubkey (horder.mem_iff.mp hmem))
    fun hno pubkey hmem ↦ hno pubkey (horder.mem_iff.mp hmem)
  obtain ⟨w', hload, -, -, htimed, hnot⟩ := KeyWallet.loadWallet_spec hinj hbacked hkind
  have hiff : file.Bounds w'.nTimeFirstKey ↔ ¬ file.Forgets := by
    by_cases hall : file.AllTimed
    · rw [hbacked.bounds_iff hall, htimed hall, birthday_bound_iff]
      exact not_congr ⟨fun hforgets ↦ ⟨hall, hforgets⟩, And.right⟩
    · exact iff_of_true (.inl (hnot hall).le) fun hforgets ↦ hall hforgets.1
  refine ⟨w', hload, hiff, fun hgood vchPubKey nTime hhas htime hyoung ↦ ?_⟩
  rintro ⟨-, hskip⟩
  obtain hle | hbound := hiff.mpr hgood
  · omega
  · obtain ⟨t, hne, hmem, hle⟩ := hbound vchPubKey hhas
    have := hyoung t hne hmem
    omega

end

/-! ## A time that is forgotten -/

namespace Sample

/-- An address that tells the key. -/
def keyID (vchPubKey : CPubKey) : CKeyID := Encodable.encode (vchPubKey.map UInt8.toNat)

theorem keyID_injective : Function.Injective keyID := fun _ _ h ↦
  List.map_injective_iff.mpr (fun _ _ h ↦ UInt8.toNat_inj.mp h) (Encodable.encode_injective h)

/-- A wallet that has never had a key. -/
def emptyWallet : KeyWallet := ⟨[], [], false, false, fun _ ↦ none, 0, []⟩

/-- A key that is imported with its time, and later a new key. -/
def importedWallet : KeyWallet :=
  (emptyWallet.importwallet keyID [([1], 500)] 1000).generateNewKey keyID [2] 1000000

theorem history_imported : KeyHistory keyID importedWallet :=
  ((@KeyHistory.legacy keyID [] List.nodup_nil emptyWallet rfl).step
    (.importwallet [([1], 500)] 1000) rfl).step (.generateNewKey [2] 1000000) rfl

theorem file_imported : importedWallet.file =
    [.keymeta [1] 0, .key [1], .keymeta [2] 1000000, .key [2]] := by decide +kernel

end Sample

theorem birthday_iff_sample : ∃ w',
    KeyWallet.loadWallet Sample.keyID Sample.importedWallet.file = some w' ∧
      (Sample.importedWallet.file.Bounds w'.nTimeFirstKey ↔ ¬ Sample.importedWallet.file.Forgets) ∧
      (¬ Sample.importedWallet.file.Forgets → ∀ vchPubKey nTime,
        Sample.importedWallet.file.HasKey vchPubKey → 0 ≤ nTime →
        (∀ t, t ≠ 0 → .keymeta vchPubKey t ∈ Sample.importedWallet.file → t - 7200 ≤ nTime) →
        ¬ w'.skips nTime) :=
  birthday_iff Sample.keyID_injective Sample.history_imported (List.Perm.refl _)

/-- The imported key, whose time is recorded as unknown, is older than the birthday, and a rescan skips
the block of the time with which it was imported. -/
theorem not_bounds_of_imported : ∃ w w', KeyHistory Sample.keyID w ∧
    KeyWallet.loadWallet Sample.keyID w.file = some w' ∧ ¬ w.file.Bounds w'.nTimeFirstKey ∧
      w.file.HasKey [1] ∧ .keymeta [1] 0 ∈ w.file ∧ w'.skips 500 := by
  have hload : (KeyWallet.loadWallet Sample.keyID Sample.importedWallet.file).map
      KeyWallet.nTimeFirstKey = some 1000000 := by decide +kernel
  obtain ⟨w', hw', htime⟩ := Option.map_eq_some_iff.mp hload
  refine ⟨Sample.importedWallet, w', Sample.history_imported, hw', ?_, ?_, ?_, ?_⟩
  · rw [WalletFile.Bounds, htime, Sample.file_imported]
    rintro (hle | hbound)
    · exact absurd hle (by decide)
    · obtain ⟨t, hne, hmem, -⟩ := hbound [1] (.inl (by decide))
      simp only [List.mem_cons, List.not_mem_nil, or_false, WalletRecord.keymeta.injEq,
        reduceCtorEq, false_or] at hmem
      obtain ⟨-, rfl⟩ | ⟨heq, -⟩ := hmem
      · exact hne rfl
      · exact absurd heq (by decide)
  · rw [Sample.file_imported]
    exact .inl (by decide)
  · rw [Sample.file_imported]
    exact List.mem_cons_self
  · rw [KeyWallet.skips, htime]
    decide

end Bws
