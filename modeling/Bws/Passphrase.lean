import Bws.Recover

/-!
# The passphrase of the wallet

Each master key record holds the master key, encrypted under a passphrase.  `Unlock` tries one
record after the other, `ChangeWalletPassphrase` locks the wallet first and encrypts the master key
again in the first record that opens it.  The two do not walk over the records in the same way:
where a record cannot be decrypted the first goes on and the second gives up.

What `ChangeWalletPassphrase` should do when it fails, and when it should not fail, is
`ChangesSafely`; it is what happens exactly under a condition on the records and on the state of the
wallet (`changesSafely_iff`).  The derivation of a key and the cipher are parameters.
-/

namespace Bws

/-! ## The source -/

/-- What is given from outside. -/
structure CrypterOps where
  Key : Type
  /-- `EVP_BytesToKey`, for data, salt and rounds; it may fail -/
  bytesToKey : List UInt8 → List UInt8 → ℕ → Option Key
  /-- `scrypt_salted_multiround_hash` -/
  scryptHash : List UInt8 → List UInt8 → ℕ → List UInt8
  /-- `CCrypter::Encrypt`: what it leaves in the ciphertext, and whether it is one -/
  encrypt : Key → List UInt8 → List UInt8 × Bool
  decrypt : Key → List UInt8 → Option (List UInt8)

/-- The part of the wallet that is locked, and the records in the order of their ids. -/
structure CLockedWallet extends CCryptoKeyStore where
  mapMasterKeys : List (UInt32 × CMasterKey)

section

variable (O : KeyOps) (C : CrypterOps)

def WALLET_CRYPTO_SALT_SIZE : ℕ := 8

/-- `CCrypter::SetKeyFromPassphrase` -/
def setKeyFromPassphrase (strKeyData chSalt : List UInt8) (nRounds nDerivationMethod : ℕ) :
    Option C.Key :=
  if nRounds < 1 ∨ chSalt.length ≠ WALLET_CRYPTO_SALT_SIZE then none
  else if nDerivationMethod = 0 then C.bytesToKey strKeyData chSalt nRounds
  else if nDerivationMethod = 1 then
    C.bytesToKey (C.scryptHash strKeyData chSalt nRounds) chSalt nRounds
  else none

/-- The crypter with the key for a record. -/
def CMasterKey.setKey (pMasterKey : CMasterKey) (strKeyData : List UInt8) : Option C.Key :=
  setKeyFromPassphrase C strKeyData pMasterKey.vchSalt pMasterKey.nDeriveIterations.toNat
    pMasterKey.nDerivationMethod.toNat

/-- The loop of `CWallet::Unlock`; the process ends where the key store's `Unlock` ends it. -/
def unlockLoop (strWalletPassphrase : List UInt8) :
    CCryptoKeyStore → List (UInt32 × CMasterKey) → Option (CCryptoKeyStore × Bool)
  | s, [] => some (s, false)
  | s, (_, pMasterKey) :: mapMasterKeys =>
    match pMasterKey.setKey C strWalletPassphrase with
    | none => some (s, false)
    | some crypter =>
      match C.decrypt crypter pMasterKey.vchCryptedKey with
      -- try another master key
      | none => unlockLoop strWalletPassphrase s mapMasterKeys
      | some vMasterKey =>
        match s.unlock O vMasterKey with
        | none => none
        | some (s, true) => some (s, true)
        | some (s, false) => unlockLoop strWalletPassphrase s mapMasterKeys

/-- `CWallet::Unlock` -/
def CLockedWallet.unlockWallet (w : CLockedWallet) (strWalletPassphrase : List UInt8) :
    Option (CLockedWallet × Bool) :=
  (unlockLoop O C strWalletPassphrase w.toCCryptoKeyStore w.mapMasterKeys).map fun r ↦
    (⟨r.1, w.mapMasterKeys⟩, r.2)

/-- A record is encrypted again; its iterations follow from how long a derivation was measured to
take. -/
def CMasterKey.rekey (pMasterKey : CMasterKey) (strNewWalletPassphrase vMasterKey : List UInt8)
    (nMeasured : UInt32) : CMasterKey × Bool :=
  let pMasterKey := { pMasterKey with
    nDeriveIterations := if nMeasured < 25000 then 25000 else nMeasured }
  match pMasterKey.setKey C strNewWalletPassphrase with
  | none => (pMasterKey, false)
  | some crypter =>
    let r := C.encrypt crypter vMasterKey
    ({ pMasterKey with vchCryptedKey := r.1 }, r.2)

/-- The loop of `CWallet::ChangeWalletPassphrase`, with the records that it leaves. -/
def changeLoop (strOldWalletPassphrase strNewWalletPassphrase : List UInt8) (nMeasured : UInt32)
    (fWasLocked : Bool) : CCryptoKeyStore → List (UInt32 × CMasterKey) →
    Option (CCryptoKeyStore × List (UInt32 × CMasterKey) × Bool)
  | s, [] => some (s, [], false)
  | s, (nID, pMasterKey) :: mapMasterKeys =>
    match pMasterKey.setKey C strOldWalletPassphrase with
    | none => some (s, (nID, pMasterKey) :: mapMasterKeys, false)
    | some crypter =>
      match C.decrypt crypter pMasterKey.vchCryptedKey with
      | none => some (s, (nID, pMasterKey) :: mapMasterKeys, false)
      | some vMasterKey =>
        match s.unlock O vMasterKey with
        | none => none
        | some (s, true) =>
          let r := pMasterKey.rekey C strNewWalletPassphrase vMasterKey nMeasured
          some (if r.2 ∧ fWasLocked then s.lock.1 else s, (nID, r.1) :: mapMasterKeys, r.2)
        | some (s, false) =>
          (changeLoop strOldWalletPassphrase strNewWalletPassphrase nMeasured fWasLocked s
            mapMasterKeys).map fun r ↦ (r.1, (nID, pMasterKey) :: r.2.1, r.2.2)

/-- `CWallet::ChangeWalletPassphrase` -/
def CLockedWallet.changeWalletPassphrase (w : CLockedWallet)
    (strOldWalletPassphrase strNewWalletPassphrase : List UInt8) (nMeasured : UInt32) :
    Option (CLockedWallet × Bool) :=
  let fWasLocked := w.isLocked
  (changeLoop O C strOldWalletPassphrase strNewWalletPassphrase nMeasured fWasLocked w.lock.1
    w.mapMasterKeys).map fun r ↦ (⟨r.1, r.2.1⟩, r.2.2)

end

/-! ## What one record does -/

section

variable (O : KeyOps) (C : CrypterOps)

/-- What the key store answers to a master key, whatever master key it has. -/
def CCryptoKeyStore.answer (s : CCryptoKeyStore) (vMasterKey : List UInt8) : Option Bool :=
  (s.unlock O vMasterKey).map Prod.snd

/-- What the record holds under the passphrase; nothing when there is no key for it, or the key does
not fit. -/
def CMasterKey.open? (pMasterKey : CMasterKey) (pass : List UInt8) : Option (List UInt8) :=
  (pMasterKey.setKey C pass).bind fun crypter ↦ C.decrypt crypter pMasterKey.vchCryptedKey

/-- There is a key for the record, and it does not fit. -/
def CMasterKey.Closed (pMasterKey : CMasterKey) (pass : List UInt8) : Prop :=
  (pMasterKey.setKey C pass).isSome ∧ pMasterKey.open? C pass = none

/-- The record holds something that is not the master key of the wallet. -/
def CMasterKey.Wrong (s : CCryptoKeyStore) (pMasterKey : CMasterKey) (pass : List UInt8) : Prop :=
  ∃ k, pMasterKey.open? C pass = some k ∧ s.answer O k = some false

/-- The record holds the master key of the wallet. -/
def CMasterKey.Opens (s : CCryptoKeyStore) (pMasterKey : CMasterKey) (pass k : List UInt8) : Prop :=
  pMasterKey.open? C pass = some k ∧ s.answer O k = some true

/-- The record holds something on which the key store ends the process. -/
def CMasterKey.Aborts (s : CCryptoKeyStore) (pMasterKey : CMasterKey) (pass : List UInt8) : Prop :=
  ∃ k, pMasterKey.open? C pass = some k ∧ s.answer O k = none

end

/-! ### The key store -/

namespace CCryptoKeyStore

/-- The two stores have the same secrets, and may or may not be encrypted. -/
structure Alike (s t : CCryptoKeyStore) : Prop where
  crypted : s.setCrypted.2 = t.setCrypted.2
  secrets : s.mapCryptedKeys = t.mapCryptedKeys

variable {O : KeyOps} {s t : CCryptoKeyStore} {k : List UInt8}

theorem setCrypted_cases (s : CCryptoKeyStore) :
    s.fUseCrypto = true ∧ s.setCrypted = (s, true) ∨
    s.fUseCrypto = false ∧ s.mapKeys.isEmpty = false ∧ s.setCrypted = (s, false) ∨
    s.fUseCrypto = false ∧ s.mapKeys.isEmpty = true ∧
      s.setCrypted = ({ s with fUseCrypto := true }, true) := by
  rw [setCrypted]
  cases hcrypto : s.fUseCrypto
  · cases hkeys : s.mapKeys.isEmpty
    · exact .inr (.inl ⟨rfl, rfl, rfl⟩)
    · exact .inr (.inr ⟨rfl, rfl, rfl⟩)
  · exact .inl ⟨rfl, rfl⟩

theorem alike_setCrypted (s : CCryptoKeyStore) : Alike s s.setCrypted.1 := by
  rcases s.setCrypted_cases with ⟨-, h⟩ | ⟨-, -, h⟩ | ⟨-, -, h⟩
  · rw [h]
    exact ⟨rfl, rfl⟩
  · rw [h]
    exact ⟨rfl, rfl⟩
  · rw [h]
    exact ⟨congrArg Prod.snd h, rfl⟩

theorem Alike.trans {u : CCryptoKeyStore} (h : Alike s t) (h' : Alike t u) : Alike s u :=
  ⟨h.crypted.trans h'.crypted, h.secrets.trans h'.secrets⟩

theorem lock_of_crypted {t : CCryptoKeyStore} (h : s.setCrypted = (t, true)) :
    s.lock.1 = { t with vMasterKey := [] } := by
  rw [lock, h]

theorem lock_of_plain (h : s.setCrypted = (s, false)) : s.lock.1 = s := by
  rw [lock, h]

theorem alike_lock (s : CCryptoKeyStore) : Alike s s.lock.1 := by
  rcases s.setCrypted_cases with ⟨hc, h⟩ | ⟨-, -, h⟩ | ⟨-, -, h⟩
  · rw [lock_of_crypted h]
    have hlocked : ({ s with vMasterKey := [] } : CCryptoKeyStore).fUseCrypto = true := hc
    refine ⟨?_, rfl⟩
    rw [h]
    exact (congrArg Prod.snd (setCrypted_of_crypted hlocked)).symm
  · rw [lock_of_plain h]
    exact ⟨rfl, rfl⟩
  · rw [lock_of_crypted h]
    refine ⟨?_, rfl⟩
    rw [h, setCrypted_of_crypted rfl]

theorem setCrypted_lock (s : CCryptoKeyStore) : s.lock.1.setCrypted.1 = s.lock.1 := by
  rcases s.setCrypted_cases with ⟨hc, h⟩ | ⟨-, -, h⟩ | ⟨-, -, h⟩
  · have hlocked : ({ s with vMasterKey := [] } : CCryptoKeyStore).fUseCrypto = true := hc
    rw [lock_of_crypted h]
    exact congrArg Prod.fst (setCrypted_of_crypted hlocked)
  · rw [lock_of_plain h, h]
  · rw [lock_of_crypted h]
    rfl

/-- Locking leaves the wallet locked, except where it has plain keys. -/
theorem isLocked_lock (s : CCryptoKeyStore) : s.lock.1.isLocked = s.setCrypted.2 := by
  rcases s.setCrypted_cases with ⟨hc, h⟩ | ⟨hc, -, h⟩ | ⟨-, -, h⟩
  · rw [lock_of_crypted h, h, isLocked, isCrypted, hc]
    rfl
  · rw [lock_of_plain h, h, isLocked, isCrypted, hc]
    rfl
  · rw [lock_of_crypted h, h]
    rfl

/-- What `Unlock` finds with the first secret. -/
def checkFirst (O : KeyOps) (vMasterKeyIn : List UInt8) :
    List (CKeyID × CPubKey × List UInt8) → Option Bool
  | [] => some true
  | (_, vchPubKey, vchCryptedSecret) :: _ =>
    match decryptSecret O vMasterKeyIn vchCryptedSecret (O.getHash vchPubKey) with
    | none => some false
    | some vchSecret =>
      if vchSecret.length ≠ 32 then some false
      else (CKey.set vchSecret vchPubKey.isCompressed).map fun key ↦ O.getPubKey key = vchPubKey

theorem unlock_of_plain (h : s.setCrypted = (s, false)) : s.unlock O k = some (s, false) := by
  rw [unlock, h]

theorem unlock_of_crypted {t : CCryptoKeyStore} (h : s.setCrypted = (t, true)) :
    s.unlock O k = (checkFirst O k t.mapCryptedKeys.toList).map fun ok ↦
      (if ok then { t with vMasterKey := k } else t, ok) := by
  rw [unlock, h]
  dsimp only
  rcases t.mapCryptedKeys.toList with - | ⟨⟨id, vchPubKey, vchCryptedSecret⟩, l⟩
  · rfl
  · rw [checkFirst]
    dsimp only
    rcases decryptSecret O k vchCryptedSecret (O.getHash vchPubKey) with - | vchSecret
    · rfl
    · dsimp only
      by_cases hlen : vchSecret.length ≠ 32
      · rw [if_pos hlen, if_pos hlen]
        rfl
      · rw [if_neg hlen, if_neg hlen]
        rcases CKey.set vchSecret vchPubKey.isCompressed with - | key
        · rfl
        · rw [Option.map_some, Option.map_some]
          by_cases hkey : O.getPubKey key = vchPubKey
          · rw [decide_eq_true hkey]
            exact if_pos hkey
          · rw [decide_eq_false hkey]
            exact if_neg hkey

theorem answer_eq (s : CCryptoKeyStore) (k : List UInt8) : s.answer O k =
    if s.setCrypted.2 then checkFirst O k s.mapCryptedKeys.toList else some false := by
  have hsecrets := (alike_setCrypted s).secrets
  rcases s.setCrypted_cases with ⟨-, h⟩ | ⟨-, -, h⟩ | ⟨-, -, h⟩ <;> rw [h] at hsecrets ⊢
  · rw [answer, unlock_of_crypted h, Option.map_map]
    exact Option.map_id'
  · rw [answer, unlock_of_plain h]
    rfl
  · rw [answer, unlock_of_crypted h, Option.map_map]
    exact Option.map_id'

/-- What the store answers depends on its secrets only. -/
theorem answer_congr (h : Alike s t) : s.answer O k = t.answer O k := by
  rw [answer_eq, answer_eq, h.crypted, h.secrets]

theorem unlock_of_answer_none (h : s.answer O k = none) : s.unlock O k = none :=
  Option.map_eq_none_iff.1 h

theorem unlock_of_answer_true (h : s.answer O k = some true) :
    ∃ t, s.unlock O k = some (t, true) := by
  obtain ⟨⟨t, ok⟩, ht, hok⟩ := Option.map_eq_some_iff.1 h
  exact ⟨t, by rw [ht, show ok = true from hok]⟩

/-- A master key that is refused changes nothing, after the store has become encrypted. -/
theorem unlock_of_answer_false (h : s.answer O k = some false) :
    s.unlock O k = some (s.setCrypted.1, false) := by
  rcases hc : s.setCrypted with ⟨t, - | -⟩
  · rcases s.setCrypted_cases with ⟨-, h'⟩ | ⟨-, -, h'⟩ | ⟨-, -, h'⟩
    · rw [hc] at h'
      cases h'
    · obtain rfl : t = s := congrArg Prod.fst (hc.symm.trans h')
      exact unlock_of_plain h'
    · rw [hc] at h'
      cases h'
  · have hsecrets := (alike_setCrypted s).secrets
    rw [answer_eq, hc, if_pos rfl, hsecrets, hc] at h
    rw [unlock_of_crypted hc, h]
    rfl

end CCryptoKeyStore

/-! ### The records -/

section

variable {O : KeyOps} {C : CrypterOps} {s t : CCryptoKeyStore} {pass : List UInt8}
variable {r : CMasterKey}

/-- Some record has the one property, and all before it have the other. -/
def Reaches (before here : CMasterKey → Prop) (mapMasterKeys : List (UInt32 × CMasterKey)) : Prop :=
  ∃ A nID r B, mapMasterKeys = A ++ (nID, r) :: B ∧ (∀ a ∈ A, before a.2) ∧ here r

/-- Up to the first record that does not have a property all have it. -/
theorem exists_before (before : CMasterKey → Prop) (mapMasterKeys : List (UInt32 × CMasterKey)) :
    ∃ A rest, mapMasterKeys = A ++ rest ∧ (∀ a ∈ A, before a.2) ∧
      (rest = [] ∨ ∃ nID r B, rest = (nID, r) :: B ∧ ¬ before r) := by
  induction mapMasterKeys with
  | nil => exact ⟨[], [], rfl, List.forall_mem_nil _, .inl rfl⟩
  | cons a l ih =>
    obtain ⟨nID, r⟩ := a
    by_cases hr : before r
    · obtain ⟨A, rest, rfl, hA, hrest⟩ := ih
      exact ⟨(nID, r) :: A, rest, rfl, List.forall_mem_cons.2 ⟨hr, hA⟩, hrest⟩
    · exact ⟨[], _, rfl, List.forall_mem_nil _, .inr ⟨nID, r, l, rfl, hr⟩⟩

/-- What can come of a record. -/
theorem CMasterKey.cases (s : CCryptoKeyStore) (r : CMasterKey) (pass : List UInt8) :
    r.setKey C pass = none ∨ r.Closed C pass ∨ r.Wrong O C s pass ∨ (∃ k, r.Opens O C s pass k) ∨
      r.Aborts O C s pass := by
  rcases hkey : r.setKey C pass with - | crypter
  · exact .inl rfl
  refine .inr ?_
  have hopen : r.open? C pass = C.decrypt crypter r.vchCryptedKey := by
    rw [CMasterKey.open?, hkey, Option.bind_some]
  rcases hk : C.decrypt crypter r.vchCryptedKey with - | k
  · exact .inl ⟨by rw [hkey]; rfl, hopen.trans hk⟩
  · rcases hanswer : s.answer O k with - | - | -
    · exact .inr (.inr (.inr ⟨k, hopen.trans hk, hanswer⟩))
    · exact .inr (.inl ⟨k, hopen.trans hk, hanswer⟩)
    · exact .inr (.inr (.inl ⟨k, hopen.trans hk, hanswer⟩))

theorem CMasterKey.open?_eq_some {k : List UInt8} (h : r.open? C pass = some k) :
    ∃ crypter, r.setKey C pass = some crypter ∧ C.decrypt crypter r.vchCryptedKey = some k :=
  Option.bind_eq_some_iff.1 h

theorem CMasterKey.Closed.exists_key (h : r.Closed C pass) :
    ∃ crypter, r.setKey C pass = some crypter ∧ C.decrypt crypter r.vchCryptedKey = none := by
  obtain ⟨crypter, hcrypter⟩ := Option.isSome_iff_exists.1 h.1
  refine ⟨crypter, hcrypter, ?_⟩
  rw [← h.2, CMasterKey.open?, hcrypter, Option.bind_some]

/-! ### The loop of `Unlock` -/

/-- Records that cannot be decrypted and records of another wallet are passed over. -/
theorem unlockLoop_append (h : s.Alike t) {A : List (UInt32 × CMasterKey)}
    (hA : ∀ a ∈ A, a.2.Closed C pass ∨ a.2.Wrong O C s pass) (l : List (UInt32 × CMasterKey)) :
    ∃ t', s.Alike t' ∧ unlockLoop O C pass t (A ++ l) = unlockLoop O C pass t' l := by
  induction A generalizing t with
  | nil => exact ⟨t, h, rfl⟩
  | cons a A ih =>
    obtain ⟨nID, r⟩ := a
    obtain ⟨hr, hA⟩ := List.forall_mem_cons.1 hA
    rw [List.cons_append, unlockLoop]
    rcases hr with hclosed | ⟨k, hopen, hanswer⟩
    · obtain ⟨crypter, hkey, hnone⟩ := hclosed.exists_key
      simp only [hkey, hnone]
      exact ih h hA
    · obtain ⟨crypter, hkey, hk⟩ := CMasterKey.open?_eq_some hopen
      rw [CCryptoKeyStore.answer_congr h] at hanswer
      simp only [hkey, hk, CCryptoKeyStore.unlock_of_answer_false hanswer]
      exact ih (h.trans (CCryptoKeyStore.alike_setCrypted t)) hA

theorem unlockLoop_opens (h : s.Alike t) {k : List UInt8} (hr : r.Opens O C s pass k) (nID : UInt32)
    (l : List (UInt32 × CMasterKey)) :
    ∃ t', unlockLoop O C pass t ((nID, r) :: l) = some (t', true) := by
  obtain ⟨hopen, hanswer⟩ := hr
  obtain ⟨crypter, hkey, hk⟩ := CMasterKey.open?_eq_some hopen
  rw [CCryptoKeyStore.answer_congr h] at hanswer
  obtain ⟨t', ht'⟩ := CCryptoKeyStore.unlock_of_answer_true hanswer
  refine ⟨t', ?_⟩
  rw [unlockLoop]
  simp only [hkey, hk, ht']

theorem unlockLoop_aborts (h : s.Alike t) (hr : r.Aborts O C s pass) (nID : UInt32)
    (l : List (UInt32 × CMasterKey)) : unlockLoop O C pass t ((nID, r) :: l) = none := by
  obtain ⟨k, hopen, hanswer⟩ := hr
  obtain ⟨crypter, hkey, hk⟩ := CMasterKey.open?_eq_some hopen
  rw [CCryptoKeyStore.answer_congr h] at hanswer
  rw [unlockLoop]
  simp only [hkey, hk, CCryptoKeyStore.unlock_of_answer_none hanswer]

/-- `Unlock` succeeds with the first record that opens the wallet, if it gets there. -/
theorem unlockLoop_eq_true_iff (h : s.Alike t) {l : List (UInt32 × CMasterKey)} :
    (∃ t', unlockLoop O C pass t l = some (t', true)) ↔
      Reaches (fun r ↦ r.Closed C pass ∨ r.Wrong O C s pass)
        (fun r ↦ ∃ k, r.Opens O C s pass k) l := by
  constructor
  · rintro ⟨t', ht'⟩
    obtain ⟨A, rest, rfl, hA, rfl | ⟨nID, r, B, rfl, hr⟩⟩ :=
      exists_before (fun r ↦ r.Closed C pass ∨ r.Wrong O C s pass) l
    · obtain ⟨t₁, -, ht₁⟩ := unlockLoop_append h hA []
      rw [ht₁] at ht'
      cases ht'
    · obtain ⟨t₁, h₁, ht₁⟩ := unlockLoop_append h hA ((nID, r) :: B)
      rw [ht₁] at ht'
      rcases r.cases s pass with hkey | hclosed | hwrong | hopens | haborts
      · rw [unlockLoop, hkey] at ht'
        cases ht'
      · exact absurd (.inl hclosed) hr
      · exact absurd (.inr hwrong) hr
      · exact ⟨A, nID, r, B, rfl, hA, hopens⟩
      · rw [unlockLoop_aborts h₁ haborts] at ht'
        cases ht'
  · rintro ⟨A, nID, r, B, rfl, hA, k, hr⟩
    obtain ⟨t₁, h₁, ht₁⟩ := unlockLoop_append h hA ((nID, r) :: B)
    obtain ⟨t', ht'⟩ := unlockLoop_opens h₁ hr nID B
    exact ⟨t', ht₁.trans ht'⟩

/-! ### The loop of `ChangeWalletPassphrase` -/

variable {new : List UInt8} {nMeasured : UInt32} {fWasLocked : Bool}

/-- Records of another wallet are passed over, and left as they are. -/
theorem changeLoop_append (h : s.Alike t) (hfix : t.setCrypted.1 = t)
    {A : List (UInt32 × CMasterKey)} (hA : ∀ a ∈ A, a.2.Wrong O C s pass)
    (l : List (UInt32 × CMasterKey)) :
    changeLoop O C pass new nMeasured fWasLocked t (A ++ l) =
      (changeLoop O C pass new nMeasured fWasLocked t l).map fun r ↦
        (r.1, A ++ r.2.1, r.2.2) := by
  induction A with
  | nil => exact Option.map_id'.symm
  | cons a A ih =>
    obtain ⟨nID, r⟩ := a
    obtain ⟨⟨k, hopen, hanswer⟩, hA⟩ := List.forall_mem_cons.1 hA
    obtain ⟨crypter, hkey, hk⟩ := CMasterKey.open?_eq_some hopen
    rw [CCryptoKeyStore.answer_congr h] at hanswer
    rw [List.cons_append, changeLoop]
    simp only [hkey, hk, CCryptoKeyStore.unlock_of_answer_false hanswer, hfix, ih hA,
      Option.map_map]
    rfl

/-- Without a key, or with one that does not fit, nothing else is tried. -/
theorem changeLoop_stops (h : r.setKey C pass = none ∨ r.Closed C pass) (nID : UInt32)
    (l : List (UInt32 × CMasterKey)) :
    changeLoop O C pass new nMeasured fWasLocked t ((nID, r) :: l) =
      some (t, (nID, r) :: l, false) := by
  rw [changeLoop]
  rcases h with hkey | hclosed
  · simp only [hkey]
  · obtain ⟨crypter, hkey, hnone⟩ := hclosed.exists_key
    simp only [hkey, hnone]

theorem changeLoop_aborts (h : s.Alike t) (hr : r.Aborts O C s pass) (nID : UInt32)
    (l : List (UInt32 × CMasterKey)) :
    changeLoop O C pass new nMeasured fWasLocked t ((nID, r) :: l) = none := by
  obtain ⟨k, hopen, hanswer⟩ := hr
  obtain ⟨crypter, hkey, hk⟩ := CMasterKey.open?_eq_some hopen
  rw [CCryptoKeyStore.answer_congr h] at hanswer
  rw [changeLoop]
  simp only [hkey, hk, CCryptoKeyStore.unlock_of_answer_none hanswer]

/-- The record that opens the wallet is encrypted again, and the loop ends either way. -/
theorem changeLoop_opens (h : s.Alike t) {k : List UInt8} (hr : r.Opens O C s pass k) (nID : UInt32)
    (l : List (UInt32 × CMasterKey)) :
    ∃ t', changeLoop O C pass new nMeasured fWasLocked t ((nID, r) :: l) =
      some (t', (nID, (r.rekey C new k nMeasured).1) :: l, (r.rekey C new k nMeasured).2) := by
  obtain ⟨hopen, hanswer⟩ := hr
  obtain ⟨crypter, hkey, hk⟩ := CMasterKey.open?_eq_some hopen
  rw [CCryptoKeyStore.answer_congr h] at hanswer
  obtain ⟨t', ht'⟩ := CCryptoKeyStore.unlock_of_answer_true hanswer
  rw [changeLoop]
  simp only [hkey, hk, ht']
  exact ⟨_, rfl⟩

/-- How the loop ends, by the first record that does not belong to another wallet. -/
theorem changeLoop_cases (O : KeyOps) (C : CrypterOps) (pass new : List UInt8) (nMeasured : UInt32)
    (fWasLocked : Bool) (h : s.Alike t) (hfix : t.setCrypted.1 = t)
    (l : List (UInt32 × CMasterKey)) :
    (∃ t' l', changeLoop O C pass new nMeasured fWasLocked t l = some (t', l', true)) ∧
        Reaches (fun r ↦ r.Wrong O C s pass)
          (fun r ↦ ∃ k, r.Opens O C s pass k ∧ (r.rekey C new k nMeasured).2 = true) l ∨
      (∃ t' l', changeLoop O C pass new nMeasured fWasLocked t l = some (t', l', false)) ∧
        Reaches (fun r ↦ r.Wrong O C s pass) (fun r ↦ ∃ k, r.Opens O C s pass k) l ∨
      changeLoop O C pass new nMeasured fWasLocked t l = none ∧
        Reaches (fun r ↦ r.Wrong O C s pass) (fun r ↦ r.Aborts O C s pass) l ∨
      changeLoop O C pass new nMeasured fWasLocked t l = some (t, l, false) := by
  obtain ⟨A, rest, rfl, hA, hrest⟩ := exists_before (fun r ↦ r.Wrong O C s pass) l
  rw [changeLoop_append h hfix hA]
  obtain rfl | ⟨nID, r, B, rfl, hr⟩ := hrest
  · exact .inr (.inr (.inr rfl))
  rcases r.cases s pass with hkey | hclosed | hwrong | ⟨k, hopens⟩ | haborts
  · rw [changeLoop_stops (.inl hkey)]
    exact .inr (.inr (.inr rfl))
  · rw [changeLoop_stops (.inr hclosed)]
    exact .inr (.inr (.inr rfl))
  · exact absurd hwrong hr
  · obtain ⟨t', ht'⟩ := changeLoop_opens h hopens nID B
    rw [ht', Option.map_some]
    cases hrekey : (r.rekey C new k nMeasured).2
    · exact .inr (.inl ⟨⟨_, _, rfl⟩, A, nID, r, B, rfl, hA, k, hopens⟩)
    · exact .inl ⟨⟨_, _, rfl⟩, A, nID, r, B, rfl, hA, k, hopens, hrekey⟩
  · rw [changeLoop_aborts h haborts]
    exact .inr (.inr (.inl ⟨rfl, A, nID, r, B, rfl, hA, haborts⟩))

end

/-! ## Changing the passphrase -/

section

variable (O : KeyOps) (C : CrypterOps) (w : CLockedWallet)
variable (old new : List UInt8) (nMeasured : UInt32)

/-- When the change fails the wallet is locked exactly if it was, and the records are as they were;
and it does not fail where `Unlock` would open the wallet. -/
def ChangesSafely : Prop :=
  (∀ w', w.changeWalletPassphrase O C old new nMeasured = some (w', false) →
    w'.isLocked = w.isLocked ∧ w'.mapMasterKeys = w.mapMasterKeys) ∧
  ∀ w', w.unlockWallet O C old = some (w', true) →
    ∃ w'', w.changeWalletPassphrase O C old new nMeasured = some (w'', true)

/-- The first record that does not belong to another wallet opens this one, and can be encrypted
again. -/
def Rekeys : Prop :=
  Reaches (fun r ↦ r.Wrong O C w.toCCryptoKeyStore old) (fun r ↦
    ∃ k, r.Opens O C w.toCCryptoKeyStore old k ∧ (r.rekey C new k nMeasured).2 = true)
    w.mapMasterKeys

/-- The first record that does not belong to another wallet ends the process. -/
def Ends : Prop :=
  Reaches (fun r ↦ r.Wrong O C w.toCCryptoKeyStore old)
    (fun r ↦ r.Aborts O C w.toCCryptoKeyStore old) w.mapMasterKeys

/-- Some record opens the wallet, and for all before it there is a key that does not. -/
def CanOpen : Prop :=
  Reaches (fun r ↦ r.Closed C old ∨ r.Wrong O C w.toCCryptoKeyStore old)
    (fun r ↦ ∃ k, r.Opens O C w.toCCryptoKeyStore old k) w.mapMasterKeys

end

section

variable {O : KeyOps} {C : CrypterOps} {w : CLockedWallet}
variable {old new : List UInt8} {nMeasured : UInt32}

theorem unlockWallet_iff :
    (∃ w', w.unlockWallet O C old = some (w', true)) ↔ CanOpen O C w old := by
  rw [CanOpen, ← unlockLoop_eq_true_iff ⟨rfl, rfl⟩, CLockedWallet.unlockWallet]
  constructor
  · rintro ⟨w', hw'⟩
    obtain ⟨⟨t, ok⟩, ht, hpair⟩ := Option.map_eq_some_iff.1 hw'
    exact ⟨t, by rw [ht, show ok = true from congrArg Prod.snd hpair]⟩
  · rintro ⟨t, ht⟩
    exact ⟨_, by rw [ht, Option.map_some]⟩

/-- Where the wallet has plain keys, or is locked already, locking makes no difference. -/
theorem isLocked_lock_iff (s : CCryptoKeyStore) : s.lock.1.isLocked = s.isLocked ↔
    s.isLocked = true ∨ s.isCrypted = false ∧ s.mapKeys.isEmpty = false := by
  rw [CCryptoKeyStore.isLocked_lock, CCryptoKeyStore.isCrypted]
  rcases s.setCrypted_cases with ⟨hc, h⟩ | ⟨hc, hkeys, h⟩ | ⟨hc, hkeys, h⟩
  · rw [h, hc]
    simp
  · rw [h, hc, hkeys, CCryptoKeyStore.isLocked, CCryptoKeyStore.isCrypted, hc]
    simp
  · rw [h, hc, hkeys, CCryptoKeyStore.isLocked, CCryptoKeyStore.isCrypted, hc]
    simp

theorem Rekeys.changes (h : Rekeys O C w old new nMeasured) :
    ∃ w', w.changeWalletPassphrase O C old new nMeasured = some (w', true) := by
  obtain ⟨A, nID, r, B, hsplit, hA, k, hopens, hrekey⟩ := h
  have halike := CCryptoKeyStore.alike_lock w.toCCryptoKeyStore
  obtain ⟨t', ht'⟩ := changeLoop_opens halike hopens nID B
  rw [CLockedWallet.changeWalletPassphrase, hsplit,
    changeLoop_append halike (CCryptoKeyStore.setCrypted_lock _) hA, ht', hrekey]
  exact ⟨_, rfl⟩

theorem Ends.ends (h : Ends O C w old) :
    w.changeWalletPassphrase O C old new nMeasured = none ∧ w.unlockWallet O C old = none := by
  obtain ⟨A, nID, r, B, hsplit, hA, haborts⟩ := h
  have halike := CCryptoKeyStore.alike_lock w.toCCryptoKeyStore
  refine ⟨?_, ?_⟩
  · rw [CLockedWallet.changeWalletPassphrase, hsplit,
      changeLoop_append halike (CCryptoKeyStore.setCrypted_lock _) hA,
      changeLoop_aborts halike haborts]
    rfl
  · obtain ⟨t, ht, heq⟩ := unlockLoop_append (t := w.toCCryptoKeyStore) ⟨rfl, rfl⟩
      (fun a ha ↦ .inr (hA a ha)) ((nID, r) :: B)
    rw [CLockedWallet.unlockWallet, hsplit, heq, unlockLoop_aborts ht haborts]
    rfl

theorem Rekeys.changesSafely (h : Rekeys O C w old new nMeasured) :
    ChangesSafely O C w old new nMeasured := by
  obtain ⟨w', hw'⟩ := h.changes
  refine ⟨fun w'' hw'' ↦ ?_, fun _ _ ↦ ⟨w', hw'⟩⟩
  rw [hw'] at hw''
  cases hw''

theorem Ends.changesSafely (h : Ends O C w old) : ChangesSafely O C w old new nMeasured := by
  refine ⟨fun w' hw' ↦ ?_, fun w' hw' ↦ ?_⟩
  · rw [h.ends.1] at hw'
    cases hw'
  · obtain ⟨-, hunlock⟩ : w.changeWalletPassphrase O C old new nMeasured = none ∧ _ := h.ends
    rw [hunlock] at hw'
    cases hw'

/-- **When the passphrase is changed safely.**  Either the first record that does not belong to
another wallet opens this one and is encrypted again (or ends the process), or the wallet was locked
or not encrypted, and no record that `Unlock` comes to opens it. -/
theorem changesSafely_iff : ChangesSafely O C w old new nMeasured ↔
    Rekeys O C w old new nMeasured ∨ Ends O C w old ∨
      (w.isLocked = true ∨ w.isCrypted = false ∧ w.mapKeys.isEmpty = false) ∧
        ¬ CanOpen O C w old := by
  have hends := changeLoop_cases O C old new nMeasured w.isLocked
    (CCryptoKeyStore.alike_lock w.toCCryptoKeyStore) (CCryptoKeyStore.setCrypted_lock _)
    w.mapMasterKeys
  have hlock := isLocked_lock_iff w.toCCryptoKeyStore
  have hfalse : ∀ t' l', changeLoop O C old new nMeasured w.isLocked w.lock.1 w.mapMasterKeys =
      some (t', l', false) →
      w.changeWalletPassphrase O C old new nMeasured = some (⟨t', l'⟩, false) := by
    intro t' l' heq
    rw [CLockedWallet.changeWalletPassphrase, heq]
    rfl
  constructor
  · rintro ⟨hfails, hopens⟩
    -- a change that fails must not be one where `Unlock` succeeds
    have hcannot : ∀ w', w.changeWalletPassphrase O C old new nMeasured = some (w', false) →
        ¬ CanOpen O C w old := by
      intro w' hw' hcan
      obtain ⟨w₁, hw₁⟩ := unlockWallet_iff.2 hcan
      obtain ⟨w₂, hw₂⟩ := hopens w₁ hw₁
      rw [hw'] at hw₂
      cases hw₂
    rcases hends with ⟨-, hrekeys⟩ | ⟨⟨t', l', heq⟩, A, nID, r, B, hsplit, hA, hr⟩ |
      ⟨-, haborts⟩ | heq
    · exact .inl hrekeys
    · exact absurd ⟨A, nID, r, B, hsplit, fun a ha ↦ .inr (hA a ha), hr⟩
        (hcannot _ (hfalse t' l' heq))
    · exact .inr (.inl haborts)
    · exact .inr (.inr ⟨hlock.1 (hfails _ (hfalse _ _ heq)).1, hcannot _ (hfalse _ _ heq)⟩)
  · rintro (h | h | ⟨hlocked, hcannot⟩)
    · exact h.changesSafely
    · exact h.changesSafely
    · rcases hends with ⟨-, hrekeys⟩ | ⟨-, A, nID, r, B, hsplit, hA, hr⟩ | ⟨-, haborts⟩ | heq
      · exact Rekeys.changesSafely hrekeys
      · exact absurd ⟨A, nID, r, B, hsplit, fun a ha ↦ .inr (hA a ha), hr⟩ hcannot
      · exact Ends.changesSafely haborts
      · refine ⟨fun w' hw' ↦ ?_, fun w' hw' ↦ absurd (unlockWallet_iff.1 ⟨w', hw'⟩) hcannot⟩
        rw [hfalse _ _ heq] at hw'
        cases hw'
        exact ⟨hlock.2 hlocked, rfl⟩

end

namespace Sample

/-- The key is the passphrase, and stands in front of what it encrypts. -/
def crypterOps : CrypterOps where
  Key := List UInt8
  bytesToKey strKeyData _ _ := some strKeyData
  scryptHash strKeyData _ _ := strKeyData
  encrypt key vchPlaintext := (key ++ vchPlaintext, true)
  decrypt key vchCiphertext :=
    if vchCiphertext.take key.length = key then some (vchCiphertext.drop key.length) else none

def masterKeyRecord (pass : List UInt8) : CMasterKey :=
  ⟨pass ++ masterKey, List.replicate 8 0, 0, 25000, []⟩

/-- An unlocked wallet with a record for each of two passphrases. -/
def twoPassphrases : CLockedWallet where
  toCCryptoKeyStore := unlocked
  mapMasterKeys := [(1, masterKeyRecord [1]), (2, masterKeyRecord [2])]

end Sample

/-- The second of two passphrases unlocks the wallet, and cannot be changed; the attempt leaves the
wallet locked. -/
theorem not_changesSafely :
    ¬ ChangesSafely Sample.keyOps Sample.crypterOps Sample.twoPassphrases [2] [3] 0 := by
  have hchange : (Sample.twoPassphrases.changeWalletPassphrase Sample.keyOps Sample.crypterOps
      [2] [3] 0).map (fun r ↦ (r.1.isLocked, r.2)) = some (true, false) := by decide +kernel
  rintro ⟨hfails, -⟩
  obtain ⟨⟨w', ok⟩, hw', hpair⟩ := Option.map_eq_some_iff.1 hchange
  obtain ⟨hlocked, rfl⟩ := Prod.mk.inj hpair
  have hsame := (hfails w' hw').1
  rw [show w'.isLocked = true from hlocked] at hsame
  exact absurd hsame (by decide +kernel)

/-- The same wallet is opened by `Unlock`. -/
example : ((Sample.twoPassphrases.unlockWallet Sample.keyOps Sample.crypterOps [2]).map
    Prod.snd) = some true := by decide +kernel

end Bws
