import Bws.DumpFile
import Bws.ExtKey
import Bws.SignRaw

/-!
# Importing keys

`importprivkey`, `importwallet` and `signrawtransaction` read secrets that the user gives.
`CBitcoinSecret::SetString` asks for the version, the length and the flag of a secret, and
`CKey::Set` for a number between zero and the order of the curve; a key that is none of these is
marked as invalid.  None of the three looks at the mark before it asks for the public key, which
asserts it.

So a secret that is well written and out of range ends the process (`importCall_keepsValid_iff`).
The checksum is no obstacle, as anyone can compute it.
-/

namespace Bws

/-! ## The wallet -/

/-- The part of a wallet that importing keys and writing them to a file is about. -/
structure BookWallet extends CCryptoKeyStore where
  mapScripts : Std.TreeMap CScriptID CScript
  /-- `nCreateTime` of the metadata of a key -/
  mapKeyMetadata : Std.TreeMap CKeyID ℤ
  mapAddressBook : CTxDestination → Option (List UInt8)
  nTimeFirstKey : ℤ
  setKeyPool : Finset ℤ
  /-- the records `("pool", nIndex)` of the database -/
  pool : ℤ → Option CPubKey
  vchDefaultKey : CPubKey
  /-- the transactions, in the order of `mapWallet` -/
  mapWallet : List CWalletTx

/-- `assert(fValid)`, in `CKey::GetPubKey`. -/
def assertValid : Fault := .thrown "assert(fValid)"

namespace BookWallet

def setCreateTime (w : BookWallet) (keyid : CKeyID) (nCreateTime : ℤ) : BookWallet :=
  { w with mapKeyMetadata := w.mapKeyMetadata.insert keyid nCreateTime }

def setAddressBookName (w : BookWallet) (address : CTxDestination) (strName : List UInt8) :
    BookWallet :=
  { w with mapAddressBook := Function.update w.mapAddressBook address (some strName) }

section

variable (O : KeyOps) (F : DumpFormat)

/-- `CWallet::AddKeyPubKey`: the record that is written has the metadata of the key, and there are
some then. -/
def addKeyPubKey (w : BookWallet) (secret : CKey) (pubkey : CPubKey) : BookWallet × Bool :=
  match w.toCCryptoKeyStore.addKeyPubKey O secret pubkey with
  | (store, false) => ({ w with toCCryptoKeyStore := store }, false)
  | (store, true) =>
    ({ w with
      toCCryptoKeyStore := store
      mapKeyMetadata := w.mapKeyMetadata.insertIfNew (O.getID pubkey) 0 }, true)

end

end BookWallet

/-! ## importprivkey -/

section

variable (O : KeyOps) (F : DumpFormat)

/-- `importprivkey`; `rescan` is what scanning the chain does to the wallet. -/
def importprivkey (rescan : BookWallet → BookWallet) (fWalletUnlockStakingOnly : Bool)
    (strSecret strLabel : List UInt8) (fRescan : Bool) : EStateM Fault BookWallet Unit := fun w ↦
  match CBitcoinSecret.setString F strSecret with
  | none => .error (.thrown "Invalid private key") w
  | some vchSecret =>
    if fWalletUnlockStakingOnly then .error (.thrown "Wallet is unlocked for staking only.") w
    else
      match CBitcoinSecret.getKey vchSecret with
      | none => .error assertValid w
      | some key =>
        let pubkey := O.getPubKey key
        let vchAddress := O.getID pubkey
        let w := w.setAddressBookName (.keyID vchAddress) strLabel
        -- don't throw error in case a key is already there
        if w.haveKey vchAddress then .ok () w
        else
          match (w.setCreateTime vchAddress 1).addKeyPubKey O key pubkey with
          | (w, false) => .error (.thrown "Error adding key to wallet") w
          | (w, true) =>
            let w := { w with nTimeFirstKey := 1 }
            .ok () (if fRescan then rescan w else w)

/-! ## importwallet -/

/-- What the loop of `importwallet` keeps. -/
structure ImportLoop where
  wallet : BookWallet
  fGood : Bool
  nTimeBegin : ℤ

/-- A key of the file: the wallet has it already, or it is added with its time and its label. -/
def importKey (st : ImportLoop) (key : CKey) (strTime : List UInt8) (vstr : List (List UInt8)) :
    ImportLoop :=
  let pubkey := O.getPubKey key
  let keyid := O.getID pubkey
  if st.wallet.haveKey keyid then st
  else
    let nTime := F.decodeDumpTime strTime
    let (strLabel, fLabel) := readMarks [] true vstr
    match st.wallet.addKeyPubKey O key pubkey with
    | (wallet, false) => { st with wallet, fGood := false }
    | (wallet, true) =>
      let wallet := wallet.setCreateTime keyid nTime
      { st with
        wallet := if fLabel then wallet.setAddressBookName (.keyID keyid) strLabel else wallet
        nTimeBegin := min st.nTimeBegin nTime }

/-- The words of a line, unless it is empty or a comment. -/
def wordsOf (line : List UInt8) : List (List UInt8) :=
  if line = [] ∨ line.head? = some 0x23 then [] else line.splitOn 0x20

/-- One round of the loop. -/
def importLine (line : List UInt8) : EStateM Fault ImportLoop Unit := fun st ↦
  match wordsOf line with
  | strSecret :: strTime :: vstr =>
    match CBitcoinSecret.setString F strSecret with
    | none => .ok () st
    | some vchSecret =>
      match CBitcoinSecret.getKey vchSecret with
      | none => .error assertValid st
      | some key => .ok () (importKey O F st key strTime vstr)
  | _ => .ok () st

def importLines : List (List UInt8) → EStateM Fault ImportLoop Unit
  | [] => fun st ↦ .ok () st
  | line :: lines => fun st ↦
    match importLine O F line st with
    | .error e st => .error e st
    | .ok () st => importLines lines st

/-- `importwallet`; there is no file where it cannot be opened, and `pindexBest` is the best
block. -/
def importwallet (rescan : BookWallet → BookWallet) (fWalletUnlockStakingOnly : Bool)
    (pindexBest : CBlockIndex) (file : Option (List UInt8)) :
    EStateM Fault BookWallet Unit := fun w ↦
  if w.isLocked then
    .error (.thrown "Error: Please enter the wallet passphrase with walletpassphrase first.") w
  else if fWalletUnlockStakingOnly then
    .error (.thrown "Error: Wallet is unlocked for staking only.") w
  else
    match file with
    | none => .error (.thrown "Cannot open wallet dump file") w
    | some file =>
      match importLines O F (file.splitOn 0x0a) ⟨w, true, pindexBest.val.nTime⟩ with
      | .error e st => .error e st.wallet
      | .ok () st =>
        let w := { st.wallet with nTimeFirstKey := earlier st.wallet.nTimeFirstKey st.nTimeBegin }
        let w := rescan w
        if st.fGood then .ok () w else .error (.thrown "Error adding some keys to wallet") w

/-! ## signrawtransaction -/

/-- The loop of `signrawtransaction` over the keys that it is given. -/
def addGivenKeys : List (List UInt8) → Std.TreeMap CKeyID CKey →
    Except Fault (Std.TreeMap CKeyID CKey)
  | [], mapKeys => .ok mapKeys
  | k :: keys, mapKeys =>
    match CBitcoinSecret.setString F k with
    | none => .error (.thrown "Invalid private key")
    | some vchSecret =>
      match CBitcoinSecret.getKey vchSecret with
      | none => .error assertValid
      | some key => addGivenKeys keys (mapKeys.insert (O.getID (O.getPubKey key)) key)

/-- `signrawtransaction` up to the keys that it is given, which it reads after the transactions. -/
def signrawtransactionKeys (T : ElementSizes) (hexstring : List UInt8) (keys : List (List UInt8)) :
    Except Fault (Std.TreeMap CKeyID CKey) :=
  match txVariantsOf T (parseHex hexstring) with
  | none => .error (.thrown "TX decode failed")
  | some [] => .error (.thrown "Missing transaction")
  | some (_ :: _) => addGivenKeys O F keys ∅

end

/-! ## Calls -/

/-- A call that reads secrets. -/
inductive ImportCall
  | importprivkey (strSecret strLabel : List UInt8) (fRescan : Bool)
  | importwallet (pindexBest : CBlockIndex) (file : Option (List UInt8))
  | signrawtransaction (hexstring : List UInt8) (keys : List (List UInt8))

/-- The secret on a line. -/
def secretOf (line : List UInt8) : Option (List UInt8) :=
  match wordsOf line with
  | strSecret :: _ :: _ => some strSecret
  | _ => none

section

variable (O : KeyOps) (F : DumpFormat) (T : ElementSizes) (rescan : BookWallet → BookWallet)
  (fWalletUnlockStakingOnly : Bool) (w : BookWallet)

/-- The call ends the process with the assertion in `GetPubKey`. -/
def ImportCall.asserts : ImportCall → Prop
  | .importprivkey strSecret strLabel fRescan => ∃ w',
    Bws.importprivkey O F rescan fWalletUnlockStakingOnly strSecret strLabel fRescan w =
      .error assertValid w'
  | .importwallet pindexBest file => ∃ w',
    Bws.importwallet O F rescan fWalletUnlockStakingOnly pindexBest file w = .error assertValid w'
  | .signrawtransaction hexstring keys =>
    signrawtransactionKeys O F T hexstring keys = .error assertValid

/-- The strings that the call takes as secrets: of the keys given for signing, those before the
first one that is not accepted. -/
def ImportCall.secrets : ImportCall → List (List UInt8)
  | .importprivkey strSecret _ _ => if fWalletUnlockStakingOnly then [] else [strSecret]
  | .importwallet _ file =>
    if w.isLocked || fWalletUnlockStakingOnly then []
    else (file.elim [] (List.splitOn 0x0a)).filterMap secretOf
  | .signrawtransaction hexstring keys =>
    match txVariantsOf T (parseHex hexstring) with
    | some (_ :: _) => keys.takeWhile fun k ↦ (CBitcoinSecret.setString F k).isSome
    | _ => []

end

/-- If the string is accepted as a secret, then the number that it encodes is one of a private key:
not zero, and below the order of the curve. -/
def EncodesKey (F : DumpFormat) (strSecret : List UInt8) : Prop :=
  ∀ vchSecret ∈ CBitcoinSecret.setString F strSecret,
    0 < bin2bn (vchSecret.vchData.take 32) ∧ bin2bn (vchSecret.vchData.take 32) < bnOrder

/-! ## Which secrets are keys -/

section

variable {O : KeyOps} {F : DumpFormat} {T : ElementSizes} {strSecret : List UInt8}
  {vchSecret : CBase58Data}

theorem CBitcoinSecret.isSome_getKey_iff (h : setString F strSecret = some vchSecret) :
    (getKey vchSecret).isSome = true ↔ EncodesKey F strSecret := by
  obtain ⟨-, hvalid⟩ := Option.filter_eq_some_iff.1 h
  have hlen : (vchSecret.vchData.take 32).length = 32 := by
    obtain ⟨hlen | ⟨hlen, -⟩, -⟩ := of_decide_eq_true hvalid
    · rw [List.length_take, hlen]
      rfl
    · rw [List.length_take, hlen]
      rfl
  have hencodes : EncodesKey F strSecret ↔ checkKey (vchSecret.vchData.take 32) = true := by
    rw [checkKey_iff hlen, EncodesKey, h, ← Nat.pos_iff_ne_zero]
    constructor
    · exact fun hall ↦ hall vchSecret rfl
    · rintro hrange _ ⟨⟩
      exact hrange
  rw [hencodes, getKey, CKey.set]
  split_ifs with hkey
  · exact iff_of_true rfl hkey.2
  · exact iff_of_false Bool.false_ne_true fun hcheck ↦ hkey ⟨hlen, hcheck⟩

/-- A string is refused, or is a key, or is neither. -/
theorem secret_cases (F : DumpFormat) (strSecret : List UInt8) :
    CBitcoinSecret.setString F strSecret = none ∨ ∃ vchSecret,
      CBitcoinSecret.setString F strSecret = some vchSecret ∧
        (CBitcoinSecret.getKey vchSecret = none ∧ ¬ EncodesKey F strSecret ∨
          (∃ key, CBitcoinSecret.getKey vchSecret = some key) ∧ EncodesKey F strSecret) := by
  cases hset : CBitcoinSecret.setString F strSecret with
  | none => exact .inl rfl
  | some vchSecret =>
    refine .inr ⟨vchSecret, rfl, ?_⟩
    have hiff := CBitcoinSecret.isSome_getKey_iff hset
    cases hkey : CBitcoinSecret.getKey vchSecret with
    | none =>
      rw [hkey] at hiff
      exact .inl ⟨rfl, fun h ↦ Bool.false_ne_true (hiff.2 h)⟩
    | some key =>
      rw [hkey] at hiff
      exact .inr ⟨⟨key, rfl⟩, hiff.1 rfl⟩

theorem encodesKey_of_none (h : CBitcoinSecret.setString F strSecret = none) :
    EncodesKey F strSecret := by
  intro vchSecret hmem
  rw [h] at hmem
  cases hmem

theorem thrown_ne_assertValid {message : String} (h : message ≠ "assert(fValid)") :
    Fault.thrown message ≠ assertValid := by
  rintro ⟨⟩
  exact h rfl

theorem not_exists_assertValid {message : String} (h : message ≠ "assert(fValid)")
    (w : BookWallet) : ¬ ∃ w', (.error (.thrown message) w : EStateM.Result Fault BookWallet Unit) =
      .error assertValid w' := by
  rintro ⟨w', hw'⟩
  injection hw' with herr
  exact thrown_ne_assertValid h herr

/-! ## The lines of a file -/

theorem importLine_of_not {line : List UInt8} (hline : secretOf line = some strSecret)
    (hnot : ¬ EncodesKey F strSecret) (st : ImportLoop) :
    importLine O F line st = .error assertValid st := by
  unfold secretOf at hline
  split at hline
  · rename_i strTime vstr hwords
    cases hline
    rw [importLine, hwords]
    rcases secret_cases F strSecret with hset | ⟨vchSecret, hset, ⟨hkey, -⟩ | ⟨-, hencodes⟩⟩
    · exact absurd (encodesKey_of_none hset) hnot
    · simp only [hset, hkey]
    · exact absurd hencodes hnot
  · cases hline

theorem importLine_ok {line : List UInt8} (h : ∀ s ∈ secretOf line, EncodesKey F s)
    (st : ImportLoop) : ∃ st', importLine O F line st = .ok () st' := by
  unfold secretOf at h
  split at h
  · rename_i strSecret strTime vstr hwords
    rw [importLine, hwords]
    rcases secret_cases F strSecret with hset | ⟨vchSecret, hset, ⟨-, hnot⟩ | ⟨⟨key, hkey⟩, -⟩⟩
    · exact ⟨st, by simp only [hset]⟩
    · exact absurd (h strSecret rfl) hnot
    · exact ⟨_, by simp only [hset, hkey]; rfl⟩
  · rename_i hwords
    rw [importLine]
    split
    · rename_i strSecret strTime vstr heq
      exact absurd heq (hwords strSecret strTime vstr)
    · exact ⟨st, rfl⟩

/-- The file is read to its end, or up to a line whose secret is no key. -/
theorem importLines_cases (lines : List (List UInt8)) (st : ImportLoop) :
    (∀ s ∈ lines.filterMap secretOf, EncodesKey F s) ∧
        (∃ st', importLines O F lines st = .ok () st') ∨
      (¬ ∀ s ∈ lines.filterMap secretOf, EncodesKey F s) ∧
        ∃ st', importLines O F lines st = .error assertValid st' := by
  induction lines generalizing st with
  | nil => exact .inl ⟨fun _ h ↦ absurd h List.not_mem_nil, st, rfl⟩
  | cons line lines ih =>
    by_cases hline : ∀ s ∈ secretOf line, EncodesKey F s
    · obtain ⟨st₁, hst₁⟩ := importLine_ok (O := O) hline st
      have hall : (∀ s ∈ (line :: lines).filterMap secretOf, EncodesKey F s) ↔
          ∀ s ∈ lines.filterMap secretOf, EncodesKey F s := by
        rw [List.filterMap_cons]
        split
        · exact Iff.rfl
        · rename_i s hs
          rw [List.forall_mem_cons]
          exact and_iff_right (hline s hs)
      simp only [hall, importLines, hst₁]
      exact ih st₁
    · simp only [Option.mem_def, not_forall] at hline
      obtain ⟨s, hs, hnot⟩ := hline
      refine .inr ⟨fun hall ↦ hnot (hall s ?_), st, ?_⟩
      · exact List.mem_filterMap.2 ⟨line, List.mem_cons_self, hs⟩
      · simp only [importLines, importLine_of_not hs hnot]

/-! ## The keys for signing -/

theorem addGivenKeys_eq_assertValid (keys : List (List UInt8)) (mapKeys : Std.TreeMap CKeyID CKey) :
    addGivenKeys O F keys mapKeys = .error assertValid ↔
      ¬ ∀ s ∈ keys.takeWhile fun k ↦ (CBitcoinSecret.setString F k).isSome, EncodesKey F s := by
  induction keys generalizing mapKeys with
  | nil => exact iff_of_false (fun h ↦ nomatch h) (not_not.2 fun _ h ↦ absurd h List.not_mem_nil)
  | cons k keys ih =>
    rw [addGivenKeys]
    rcases secret_cases F k with hset | ⟨vchSecret, hset, ⟨hkey, hnot⟩ | ⟨⟨key, hkey⟩, hencodes⟩⟩
    · rw [List.takeWhile_cons_of_neg (by rw [hset]; exact Bool.false_ne_true), hset]
      refine iff_of_false ?_ (not_not.2 fun _ h ↦ absurd h List.not_mem_nil)
      exact fun h ↦ thrown_ne_assertValid (by decide) (Except.error.inj h)
    · rw [List.takeWhile_cons_of_pos (by rw [hset]; rfl), hset]
      simp only [hkey]
      exact iff_of_true trivial fun hall ↦ hnot (hall k List.mem_cons_self)
    · rw [List.takeWhile_cons_of_pos (by rw [hset]; rfl), hset, List.forall_mem_cons]
      simp only [hkey]
      rw [ih, and_iff_right hencodes]

/-! ## Every call -/

section

variable (O : KeyOps) (F : DumpFormat) (T : ElementSizes) (rescan : BookWallet → BookWallet)
  (fWalletUnlockStakingOnly : Bool) (w : BookWallet)

theorem importprivkey_eq_assertValid (strSecret strLabel : List UInt8) (fRescan : Bool) :
    (∃ w', importprivkey O F rescan fWalletUnlockStakingOnly strSecret strLabel fRescan w =
        .error assertValid w') ↔
      ¬ ∀ s ∈ if fWalletUnlockStakingOnly then [] else [strSecret], EncodesKey F s := by
  unfold importprivkey
  rcases secret_cases F strSecret with hset | ⟨vchSecret, hset, hcases⟩
  · simp only [hset]
    refine iff_of_false (not_exists_assertValid (by decide) w) (not_not.2 fun s hs ↦ ?_)
    split at hs
    · cases hs
    · rw [List.mem_singleton.1 hs]
      exact encodesKey_of_none hset
  · simp only [hset]
    cases fWalletUnlockStakingOnly with
    | true =>
      exact iff_of_false (not_exists_assertValid (by decide) w)
        (not_not.2 fun _ h ↦ absurd h List.not_mem_nil)
    | false =>
      rw [if_neg Bool.false_ne_true, if_neg Bool.false_ne_true, List.forall_mem_singleton]
      rcases hcases with ⟨hkey, hnot⟩ | ⟨⟨key, hkey⟩, hencodes⟩
      · simp only [hkey]
        exact iff_of_true ⟨w, rfl⟩ hnot
      · simp only [hkey]
        refine iff_of_false ?_ (not_not.2 hencodes)
        split
        · exact fun ⟨_, h⟩ ↦ nomatch h
        · split
          · exact not_exists_assertValid (by decide) _
          · exact fun ⟨_, h⟩ ↦ nomatch h

theorem importwallet_eq_assertValid (pindexBest : CBlockIndex) (file : Option (List UInt8)) :
    (∃ w', importwallet O F rescan fWalletUnlockStakingOnly pindexBest file w =
        .error assertValid w') ↔
      ¬ ∀ s ∈ if w.isLocked || fWalletUnlockStakingOnly then []
        else (file.elim [] (List.splitOn 0x0a)).filterMap secretOf, EncodesKey F s := by
  unfold importwallet
  by_cases hlocked : w.isLocked = true
  · rw [if_pos hlocked, if_pos (by rw [hlocked]; rfl)]
    exact iff_of_false (not_exists_assertValid (by decide) w)
      (not_not.2 fun _ h ↦ absurd h List.not_mem_nil)
  rw [if_neg hlocked]
  by_cases hstaking : fWalletUnlockStakingOnly = true
  · rw [if_pos hstaking, if_pos (by rw [hstaking, Bool.or_true])]
    exact iff_of_false (not_exists_assertValid (by decide) w)
      (not_not.2 fun _ h ↦ absurd h List.not_mem_nil)
  rw [if_neg hstaking, if_neg (by rw [Bool.or_eq_true]; exact not_or_intro hlocked hstaking)]
  cases file with
  | none =>
    exact iff_of_false (not_exists_assertValid (by decide) w)
      (not_not.2 fun _ h ↦ absurd h List.not_mem_nil)
  | some file =>
    dsimp only [Option.elim_some]
    rcases importLines_cases (O := O) (F := F) (file.splitOn 0x0a) ⟨w, true, pindexBest.val.nTime⟩
      with ⟨hall, st', hst'⟩ | ⟨hall, st', hst'⟩
    · rw [hst']
      refine iff_of_false ?_ (not_not.2 hall)
      dsimp only
      split
      · exact fun ⟨_, h⟩ ↦ nomatch h
      · exact not_exists_assertValid (by decide) _
    · rw [hst']
      exact iff_of_true ⟨st'.wallet, rfl⟩ hall

theorem signrawtransactionKeys_eq_assertValid (hexstring : List UInt8)
    (keys : List (List UInt8)) :
    signrawtransactionKeys O F T hexstring keys = .error assertValid ↔
      ¬ ∀ s ∈ (ImportCall.signrawtransaction hexstring keys).secrets F T fWalletUnlockStakingOnly w,
        EncodesKey F s := by
  simp only [signrawtransactionKeys, ImportCall.secrets]
  rcases txVariantsOf T (parseHex hexstring) with - | - | ⟨tx, txVariants⟩
  · refine iff_of_false ?_ (not_not.2 fun _ h ↦ absurd h List.not_mem_nil)
    exact fun h ↦ thrown_ne_assertValid (by decide) (Except.error.inj h)
  · refine iff_of_false ?_ (not_not.2 fun _ h ↦ absurd h List.not_mem_nil)
    exact fun h ↦ thrown_ne_assertValid (by decide) (Except.error.inj h)
  · exact addGivenKeys_eq_assertValid keys ∅

end

/-- **A secret that is accepted is a valid key if and only if its number is in range**, and a call
stays clear of the assertion in `GetPubKey` if and only if all the secrets that it takes are. -/
theorem importCall_keepsValid_iff (O : KeyOps) (F : DumpFormat) (T : ElementSizes)
    (rescan : BookWallet → BookWallet) (fWalletUnlockStakingOnly : Bool) (w : BookWallet) :
    (∀ strSecret vchSecret, CBitcoinSecret.setString F strSecret = some vchSecret →
      ((CBitcoinSecret.getKey vchSecret).isSome = true ↔ EncodesKey F strSecret)) ∧
    ∀ call : ImportCall, ¬ call.asserts O F T rescan fWalletUnlockStakingOnly w ↔
      ∀ s ∈ call.secrets F T fWalletUnlockStakingOnly w, EncodesKey F s := by
  refine ⟨fun _ _ h ↦ CBitcoinSecret.isSome_getKey_iff h, fun call ↦ ?_⟩
  cases call with
  | importprivkey strSecret strLabel fRescan =>
    exact (not_congr (importprivkey_eq_assertValid ..)).trans not_not
  | importwallet pindexBest file =>
    exact (not_congr (importwallet_eq_assertValid ..)).trans not_not
  | signrawtransaction hexstring keys =>
    exact (not_congr (signrawtransactionKeys_eq_assertValid ..)).trans not_not

end

/-! ## The secret of zeros -/

namespace Sample

/-- The main network, where the hash is that of the bytes of the secret of zeros. -/
def dumpFormat : DumpFormat where
  hash vch :=
    if vch = 45 :: List.replicate 32 0 then
      0xc6f629ec19f8c7a9ef51844f543acef4e11014b1231c9c14a707732e33b6685a
    else 0
  PUBKEY_ADDRESS := 25
  SECRET_KEY := 45
  encodeDumpTime _ := ascii "1970-01-01T00:00:00Z"
  decodeDumpTime _ := 0
  CLIENT_BUILD := []
  CLIENT_DATE := []

def zeroSecret : List UInt8 := ascii "2WUVwSCSM9SC4v9jo5vxvRyrD8iKFgvQQmBqyjxLjVJTD2PqLqg"

/-- The line of a file with the secret of zeros. -/
def zeroLine : List UInt8 := zeroSecret ++ ascii " 1970-01-01T00:00:00Z label="

/-- A wallet without keys that is not encrypted. -/
def bookWallet : BookWallet where
  toCCryptoKeyStore := .init
  mapScripts := ∅
  mapKeyMetadata := ∅
  mapAddressBook _ := none
  nTimeFirstKey := 0
  setKeyPool := ∅
  pool _ := none
  vchDefaultKey := []
  mapWallet := []

theorem setString_zeroSecret : CBitcoinSecret.setString dumpFormat zeroSecret =
    some ⟨[45], List.replicate 32 0⟩ := by
  have hstr : zeroSecret = CBase58Data.toString dumpFormat ⟨[45], List.replicate 32 0⟩ := by
    decide +kernel
  rw [hstr, CBitcoinSecret.setString, cStr_of_isBase58 (isBase58_toString _),
    CBase58Data.setString_toString]
  exact Option.filter_eq_some_iff.2 ⟨rfl, by decide⟩

theorem not_encodesKey_zeroSecret : ¬ EncodesKey dumpFormat zeroSecret := by
  intro h
  obtain ⟨hpos, -⟩ := h _ setString_zeroSecret
  exact absurd hpos (by decide)

end Sample

/-- Thirty-two zeros with the version byte and their checksum are accepted as a secret, and each of
the three calls then ends in the assertion. -/
theorem not_keepsValid :
    (CBitcoinSecret.setString Sample.dumpFormat Sample.zeroSecret).isSome = true ∧
    (CBitcoinSecret.setString Sample.dumpFormat Sample.zeroSecret).bind CBitcoinSecret.getKey =
      none ∧
    importprivkey Sample.keyOps Sample.dumpFormat id false Sample.zeroSecret [] false
      Sample.bookWallet = .error assertValid Sample.bookWallet ∧
    importwallet Sample.keyOps Sample.dumpFormat id false Sample.stakedIn (some Sample.zeroLine)
      Sample.bookWallet = .error assertValid Sample.bookWallet ∧
    signrawtransactionKeys Sample.keyOps Sample.dumpFormat Sample.elementSizes
      (Sample.hexOf Sample.oneTx) [Sample.zeroSecret] = .error assertValid := by
  have hset := Sample.setString_zeroSecret
  have hkey : CBitcoinSecret.getKey ⟨[45], List.replicate 32 0⟩ = none := by decide
  have hlines : Sample.zeroLine.splitOn 0x0a = [Sample.zeroLine] := by decide
  have hsecret : secretOf Sample.zeroLine = some Sample.zeroSecret := by decide
  refine ⟨by rw [hset]; rfl, by rw [hset]; exact hkey, ?_, ?_, ?_⟩
  · simp only [importprivkey, hset, hkey, if_neg Bool.false_ne_true]
  · have hunlocked : Sample.bookWallet.isLocked = false := by decide
    simp only [importwallet, hunlocked, if_neg Bool.false_ne_true, hlines, importLines,
      importLine_of_not hsecret Sample.not_encodesKey_zeroSecret]
  · rw [signrawtransactionKeys, Sample.txVariantsOf_hexOf Sample.writable_oneTx]
    simp only [addGivenKeys, hset, hkey]

theorem importCall_keepsValid_iff_sample :
    (CBitcoinSecret.getKey ⟨[45], List.replicate 32 0⟩).isSome = true ↔
      EncodesKey Sample.dumpFormat Sample.zeroSecret :=
  (importCall_keepsValid_iff Sample.keyOps Sample.dumpFormat Sample.elementSizes id false
    Sample.bookWallet).1 _ _ Sample.setString_zeroSecret

end Bws
