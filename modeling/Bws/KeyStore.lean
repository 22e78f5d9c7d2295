import Bws.KeyPool
import Bws.Lib.Codec
import Std.Data.TreeMap

/-!
# The key store with encryption

`CCryptoKeyStore` keeps its keys in `mapKeys` until it is encrypted, and their secrets in
`mapCryptedKeys` from then on.  Nobody remembers the master key while the store is locked: `Unlock`
tries what it is offered on the first stored secret, and takes anything while there is none.

In every history all secrets are encrypted under one master key, and an unlocked store gives back every
key that was added (`History.keeps_keys`).  A history ends when `EncryptKeys` fails, as the process then
exits, and when the assertion in `GetPubKey` fails.

Cipher and elliptic curve are parameters.  Redeem scripts and notifications are left out.
-/

namespace Bws

/-! ## Keys -/

abbrev CKeyID := ℕ

/-- The largest secret, one less than the order of the curve. -/
def vchMax : List UInt8 :=
  [0xFF, 0xFF, 0xFF, 0xFF, 0xFF, 0xFF, 0xFF, 0xFF, 0xFF, 0xFF, 0xFF, 0xFF, 0xFF, 0xFF, 0xFF, 0xFE,
    0xBA, 0xAE, 0xDC, 0xE6, 0xAF, 0x48, 0xA0, 0x3B, 0xBF, 0xD2, 0x5E, 0x8C, 0xD0, 0x36, 0x41, 0x40]

/-- No byte string above another, the first byte first. -/
def leBigEndian : List UInt8 → List UInt8 → Bool
  | b :: vch, m :: max => if b < m then true else if m < b then false else leBigEndian vch max
  | _, _ => true

/-- `CKey::Check` -/
def checkKey (vch : List UInt8) : Bool := !vch.all (· = 0) && leBigEndian vch vchMax

/-- A valid private key. -/
structure CKey where
  vch : List UInt8
  fCompressed : Bool
  valid : vch.length = 32 ∧ checkKey vch = true
deriving DecidableEq

/-- `CKey::Set`; there is no key when the bytes are not a valid one. -/
def CKey.set (vch : List UInt8) (fCompressed : Bool) : Option CKey :=
  if h : vch.length = 32 ∧ checkKey vch = true then some ⟨vch, fCompressed, h⟩ else none

theorem CKey.set_vch (key : CKey) : CKey.set key.vch key.fCompressed = some key := dif_pos key.valid

theorem CKey.set_eq_some {vch : List UInt8} {fCompressed : Bool} {key : CKey}
    (h : CKey.set vch fCompressed = some key) : key.vch = vch := by
  unfold CKey.set at h
  split_ifs at h
  rw [← Option.some.inj h]

/-- `CPubKey::IsCompressed` -/
def CPubKey.isCompressed (vchPubKey : CPubKey) : Bool := vchPubKey.length = 33

/-- What the store is given from outside: the curve, the hashes and the cipher. -/
structure KeyOps where
  getPubKey : CKey → CPubKey
  getID : CPubKey → CKeyID
  getHash : CPubKey → UInt256
  /-- with a key of 32 bytes -/
  encrypt : List UInt8 → UInt256 → List UInt8 → Option (List UInt8)
  decrypt : List UInt8 → UInt256 → List UInt8 → Option (List UInt8)

/-- A public key belongs to one private key and tells whether it is compressed; the cipher can be undone
with the right key, and a different key never gives back the same secret. -/
structure KeyOps.Lawful (O : KeyOps) : Prop where
  getPubKey_injective : Function.Injective O.getPubKey
  isCompressed_getPubKey : ∀ key, (O.getPubKey key).isCompressed = key.fCompressed
  decrypt_encrypt : ∀ {chKey nIV vch c}, O.encrypt chKey nIV vch = some c →
    O.decrypt chKey nIV c = some vch
  decrypt_ne : ∀ {chKey chKey' nIV vch c}, O.encrypt chKey nIV vch = some c → chKey' ≠ chKey →
    O.decrypt chKey' nIV c ≠ some vch

/-! ## The source -/

structure CCryptoKeyStore where
  mapKeys : Std.TreeMap CKeyID CKey
  mapCryptedKeys : Std.TreeMap CKeyID (CPubKey × List UInt8)
  vMasterKey : List UInt8
  fUseCrypto : Bool

namespace CCryptoKeyStore

/-- `CCryptoKeyStore()` -/
def init : CCryptoKeyStore := ⟨∅, ∅, [], false⟩

def isCrypted (s : CCryptoKeyStore) : Bool := s.fUseCrypto

def isLocked (s : CCryptoKeyStore) : Bool := s.isCrypted && s.vMasterKey.isEmpty

def setCrypted (s : CCryptoKeyStore) : CCryptoKeyStore × Bool :=
  if s.fUseCrypto then (s, true)
  else if !s.mapKeys.isEmpty then (s, false)
  else ({ s with fUseCrypto := true }, true)

def lock (s : CCryptoKeyStore) : CCryptoKeyStore × Bool :=
  match s.setCrypted with
  | (s, false) => (s, false)
  | (s, true) => ({ s with vMasterKey := [] }, true)

def addCryptedKey (s : CCryptoKeyStore) (id : CKeyID) (vchPubKey : CPubKey)
    (vchCryptedSecret : List UInt8) : CCryptoKeyStore × Bool :=
  match s.setCrypted with
  | (s, false) => (s, false)
  | (s, true) =>
    ({ s with mapCryptedKeys := s.mapCryptedKeys.insert id (vchPubKey, vchCryptedSecret) }, true)

def haveKey (s : CCryptoKeyStore) (address : CKeyID) : Bool :=
  if !s.isCrypted then s.mapKeys.contains address else s.mapCryptedKeys.contains address

section

variable (O : KeyOps)

/-- `EncryptSecret`; `SetKey` asks for 32 bytes. -/
def encryptSecret (vMasterKey vchPlaintext : List UInt8) (nIV : UInt256) : Option (List UInt8) :=
  if vMasterKey.length ≠ 32 then none else O.encrypt vMasterKey nIV vchPlaintext

def decryptSecret (vMasterKey vchCiphertext : List UInt8) (nIV : UInt256) : Option (List UInt8) :=
  if vMasterKey.length ≠ 32 then none else O.decrypt vMasterKey nIV vchCiphertext

/-- `Unlock`: the loop ends with the first secret. -/
def unlock (s : CCryptoKeyStore) (vMasterKeyIn : List UInt8) : Option (CCryptoKeyStore × Bool) :=
  match s.setCrypted with
  | (s, false) => some (s, false)
  | (s, true) =>
    match s.mapCryptedKeys.toList with
    | [] => some ({ s with vMasterKey := vMasterKeyIn }, true)
    | (_, vchPubKey, vchCryptedSecret) :: _ =>
      match decryptSecret O vMasterKeyIn vchCryptedSecret (O.getHash vchPubKey) with
      | none => some (s, false)
      | some vchSecret =>
        if vchSecret.length ≠ 32 then some (s, false)
        else
          match CKey.set vchSecret vchPubKey.isCompressed with
          -- assert(fValid)
          | none => none
          | some key =>
            if O.getPubKey key = vchPubKey then some ({ s with vMasterKey := vMasterKeyIn }, true)
            else some (s, false)

def addKeyPubKey (s : CCryptoKeyStore) (key : CKey) (pubkey : CPubKey) : CCryptoKeyStore × Bool :=
  if !s.isCrypted then ({ s with mapKeys := s.mapKeys.insert (O.getID pubkey) key }, true)
  else if s.isLocked then (s, false)
  else
    match encryptSecret O s.vMasterKey key.vch (O.getHash pubkey) with
    | none => (s, false)
    | some vchCryptedSecret => s.addCryptedKey (O.getID pubkey) pubkey vchCryptedSecret

/-- `GetKey`: a key that it has returned may be invalid. -/
def getKey (s : CCryptoKeyStore) (address : CKeyID) : Option (Option CKey) :=
  if !s.isCrypted then s.mapKeys[address]?.map some
  else
    match s.mapCryptedKeys[address]? with
    | none => none
    | some (vchPubKey, vchCryptedSecret) =>
      match decryptSecret O s.vMasterKey vchCryptedSecret (O.getHash vchPubKey) with
      | none => none
      | some vchSecret =>
        if vchSecret.length ≠ 32 then none
        else some (CKey.set vchSecret vchPubKey.isCompressed)

/-- The loop of `EncryptKeys`. -/
def encryptEach (vMasterKeyIn : List UInt8) :
    CCryptoKeyStore → List (CKeyID × CKey) → CCryptoKeyStore × Bool
  | s, [] => (s, true)
  | s, (_, key) :: keys =>
    let vchPubKey := O.getPubKey key
    match encryptSecret O vMasterKeyIn key.vch (O.getHash vchPubKey) with
    | none => (s, false)
    | some vchCryptedSecret =>
      match s.addCryptedKey (O.getID vchPubKey) vchPubKey vchCryptedSecret with
      | (s, false) => (s, false)
      | (s, true) => encryptEach vMasterKeyIn s keys

def encryptKeys (s : CCryptoKeyStore) (vMasterKeyIn : List UInt8) : CCryptoKeyStore × Bool :=
  if !s.mapCryptedKeys.isEmpty || s.isCrypted then (s, false)
  else
    match encryptEach O vMasterKeyIn { s with fUseCrypto := true } s.mapKeys.toList with
    | (s, false) => (s, false)
    | (s, true) => ({ s with mapKeys := ∅ }, true)

end

end CCryptoKeyStore

/-! ## Histories -/

/-- What is asked of a key store.  A key is added with its own public key. -/
inductive KeyStoreOp
  | addKeyPubKey (key : CKey)
  | encryptKeys (vMasterKeyIn : List UInt8)
  | lock
  | unlock (vMasterKeyIn : List UInt8)

section

variable (O : KeyOps)

/-- What an operation leaves and returns, unless it ends the process. -/
def KeyStoreOp.apply (s : CCryptoKeyStore) : KeyStoreOp → Option (CCryptoKeyStore × Bool)
  | .addKeyPubKey key => some (s.addKeyPubKey O key (O.getPubKey key))
  | .encryptKeys vMasterKeyIn =>
    match s.encryptKeys O vMasterKeyIn with
    | (_, false) => none
    | (s, true) => some (s, true)
  | .lock => some s.lock
  | .unlock vMasterKeyIn => s.unlock O vMasterKeyIn

/-- The last key that has been added under each address. -/
def KeyStoreOp.record (added : CKeyID → Option CKey) : KeyStoreOp → Bool → CKeyID → Option CKey
  | .addKeyPubKey key, true => Function.update added (O.getID (O.getPubKey key)) (some key)
  | _, _ => added

/-- A key store after some operations, and the keys that have been added to it. -/
inductive History : CCryptoKeyStore → (CKeyID → Option CKey) → Prop
  | start : History .init fun _ ↦ none
  | step {s s' : CCryptoKeyStore} {added : CKeyID → Option CKey} (h : History s added)
      (op : KeyStoreOp) {ok : Bool} (hop : op.apply O s = some (s', ok)) :
      History s' (op.record O added ok)

end

/-! ## What holds between two operations -/

namespace CCryptoKeyStore

variable {O : KeyOps} {s s' : CCryptoKeyStore} {added : CKeyID → Option CKey}

/-- The entry under an address is the key that was added there, encrypted under a master key. -/
def Encrypted (O : KeyOps) (added : CKeyID → Option CKey) (vMasterKey : List UInt8) (id : CKeyID)
    (entry : CPubKey × List UInt8) : Prop :=
  ∃ key, added id = some key ∧ entry.1 = O.getPubKey key ∧
    encryptSecret O vMasterKey key.vch (O.getHash entry.1) = some entry.2

/-- The keys that have been added are in one of the two maps, and one master key is that of all
secrets and the one in memory. -/
structure Holds (O : KeyOps) (s : CCryptoKeyStore) (added : CKeyID → Option CKey) : Prop where
  matching : ∀ id key, added id = some key → O.getID (O.getPubKey key) = id
  plain : s.fUseCrypto = false →
    s.vMasterKey = [] ∧ s.mapCryptedKeys.isEmpty = true ∧ ∀ id, s.mapKeys[id]? = added id
  crypted : s.fUseCrypto = true →
    s.mapKeys.isEmpty = true ∧ ∀ id, (s.mapCryptedKeys[id]?).isSome = (added id).isSome
  master : ∃ vMasterKey, (s.vMasterKey = [] ∨ s.vMasterKey = vMasterKey) ∧
    ∀ id entry, s.mapCryptedKeys[id]? = some entry → Encrypted O added vMasterKey id entry

theorem holds_init : Holds O init fun _ ↦ none where
  matching := fun _ _ h ↦ nomatch h
  plain _ := ⟨rfl, rfl, fun _ ↦ rfl⟩
  crypted h := nomatch h
  master := ⟨[], .inl rfl, fun _ _ h ↦ nomatch h⟩

/-! ### Turning encryption on -/

theorem setCrypted_of_crypted (h : s.fUseCrypto = true) : s.setCrypted = (s, true) := if_pos h

/-- `SetCrypted` refuses, or encryption is on and nothing else has changed. -/
theorem Holds.setCrypted (h : Holds O s added) : s.setCrypted = (s, false) ∨
    ∃ s', s.setCrypted = (s', true) ∧ s'.fUseCrypto = true ∧ Holds O s' added := by
  by_cases hcrypto : s.fUseCrypto = true
  · exact .inr ⟨s, setCrypted_of_crypted hcrypto, hcrypto, h⟩
  · by_cases hempty : s.mapKeys.isEmpty = true
    · refine .inr ⟨{ s with fUseCrypto := true }, ?_, rfl, ?_⟩
      · rw [CCryptoKeyStore.setCrypted, if_neg hcrypto, hempty]
        rfl
      · obtain ⟨-, hnone, hadded⟩ := h.plain (Bool.eq_false_iff.mpr hcrypto)
        refine ⟨h.matching, fun hoff ↦ Bool.noConfusion hoff, fun _ ↦ ⟨hempty, fun id ↦ ?_⟩, h.master⟩
        show (s.mapCryptedKeys[id]?).isSome = (added id).isSome
        rw [Std.TreeMap.getElem?_of_isEmpty hnone, ← hadded id,
          Std.TreeMap.getElem?_of_isEmpty hempty]
        rfl
    · refine .inl ?_
      rw [Bool.not_eq_true] at hempty
      rw [CCryptoKeyStore.setCrypted, if_neg hcrypto, hempty]
      rfl

/-- Changing the master key in memory. -/
theorem Holds.setMasterKey (h : Holds O s added) (hcrypto : s.fUseCrypto = true)
    {vMasterKey : List UInt8}
    (hmaster : ∃ k, (vMasterKey = [] ∨ vMasterKey = k) ∧
      ∀ id entry, s.mapCryptedKeys[id]? = some entry → Encrypted O added k id entry) :
    Holds O { s with vMasterKey := vMasterKey } added where
  matching := h.matching
  plain hoff := Bool.noConfusion (hcrypto.symm.trans hoff)
  crypted := h.crypted
  master := hmaster

theorem Holds.lock (h : Holds O s added) : Holds O s.lock.1 added := by
  unfold CCryptoKeyStore.lock
  obtain hoff | ⟨s', hon, hcrypto, h'⟩ := h.setCrypted
  · rw [hoff]
    exact h
  · rw [hon]
    obtain ⟨k, -, hall⟩ := h'.master
    exact h'.setMasterKey hcrypto ⟨k, .inl rfl, hall⟩

/-! ### Unlocking -/

/-- Only the master key that the first secret is encrypted under gives back its public key. -/
theorem masterKey_eq (hO : O.Lawful) {k k' : List UInt8} {id : CKeyID}
    {entry : CPubKey × List UInt8} {vchSecret : List UInt8} {key : CKey}
    (hentry : Encrypted O added k id entry)
    (hdecrypt : decryptSecret O k' entry.2 (O.getHash entry.1) = some vchSecret)
    (hkey : CKey.set vchSecret entry.1.isCompressed = some key)
    (hpubkey : O.getPubKey key = entry.1) : k' = k := by
  obtain ⟨key', -, hpubkey', hencrypt⟩ := hentry
  obtain rfl : key = key' := hO.getPubKey_injective (hpubkey.trans hpubkey')
  have hvch := CKey.set_eq_some hkey
  unfold encryptSecret at hencrypt
  unfold decryptSecret at hdecrypt
  split_ifs at hencrypt
  split_ifs at hdecrypt
  by_contra hne
  exact hO.decrypt_ne hencrypt hne (by rw [hvch]; exact hdecrypt)

theorem Holds.unlock (hO : O.Lawful) (h : Holds O s added) {k : List UInt8} {ok : Bool}
    (hunlock : s.unlock O k = some (s', ok)) : Holds O s' added := by
  unfold CCryptoKeyStore.unlock at hunlock
  obtain hoff | ⟨s₁, hon, hcrypto, h₁⟩ := h.setCrypted
  · rw [hoff] at hunlock
    cases hunlock
    exact h
  · rw [hon] at hunlock
    simp only at hunlock
    cases hlist : s₁.mapCryptedKeys.toList with
    | nil =>
      rw [hlist] at hunlock
      cases hunlock
      have hnone : ∀ (id : CKeyID) entry, s₁.mapCryptedKeys[id]? ≠ some entry := by
        intro id entry hentry
        rw [← Std.TreeMap.mem_toList_iff_getElem?_eq_some, hlist] at hentry
        exact List.not_mem_nil hentry
      exact h₁.setMasterKey hcrypto
        ⟨k, .inr rfl, fun id entry hentry ↦ absurd hentry (hnone id entry)⟩
    | cons first rest =>
      obtain ⟨id, vchPubKey, vchCryptedSecret⟩ := first
      have hfirst : s₁.mapCryptedKeys[id]? = some (vchPubKey, vchCryptedSecret) := by
        rw [← Std.TreeMap.mem_toList_iff_getElem?_eq_some, hlist]
        exact List.mem_cons_self
      rw [hlist] at hunlock
      simp only at hunlock
      cases hdecrypt : decryptSecret O k vchCryptedSecret (O.getHash vchPubKey) with
      | none =>
        rw [hdecrypt] at hunlock
        cases hunlock
        exact h₁
      | some vchSecret =>
        rw [hdecrypt] at hunlock
        simp only at hunlock
        split_ifs at hunlock
        · cases hunlock
          exact h₁
        · cases hset : CKey.set vchSecret vchPubKey.isCompressed with
          | none =>
            rw [hset] at hunlock
            cases hunlock
          | some key =>
            rw [hset] at hunlock
            simp only at hunlock
            split_ifs at hunlock with hpubkey
            · cases hunlock
              obtain ⟨k', -, hall⟩ := h₁.master
              have heq := masterKey_eq hO (hall id _ hfirst) hdecrypt hset hpubkey
              exact h₁.setMasterKey hcrypto ⟨k', .inr heq, hall⟩
            · cases hunlock
              exact h₁

/-! ### Adding a key -/

theorem addCryptedKey_of_crypted (h : s.fUseCrypto = true) (id : CKeyID) (vchPubKey : CPubKey)
    (vchCryptedSecret : List UInt8) : s.addCryptedKey id vchPubKey vchCryptedSecret =
      ({ s with mapCryptedKeys := s.mapCryptedKeys.insert id (vchPubKey, vchCryptedSecret) }, true) := by
  rw [addCryptedKey, setCrypted_of_crypted h]

/-- What is encrypted stays so when another key is added under the same address or another. -/
theorem Encrypted.update {k : List UInt8} {id : CKeyID} {entry : CPubKey × List UInt8} {key : CKey}
    (h : Encrypted O added k id entry) {id' : CKeyID} (hne : id' ≠ id) :
    Encrypted O (Function.update added id' (some key)) k id entry := by
  obtain ⟨key', hadded, hrest⟩ := h
  exact ⟨key', by rwa [Function.update_of_ne (Ne.symm hne)], hrest⟩

theorem matching_update (h : ∀ id key, added id = some key → O.getID (O.getPubKey key) = id)
    (key : CKey) (id : CKeyID) (key' : CKey)
    (hkey : Function.update added (O.getID (O.getPubKey key)) (some key) id = some key') :
    O.getID (O.getPubKey key') = id := by
  by_cases heq : O.getID (O.getPubKey key) = id
  · subst heq
    rw [Function.update_self] at hkey
    rw [Option.some.inj hkey]
  · rw [Function.update_of_ne (Ne.symm heq)] at hkey
    exact h id key' hkey

theorem Holds.addKeyPubKey (h : Holds O s added) (key : CKey) {ok : Bool}
    (hadd : s.addKeyPubKey O key (O.getPubKey key) = (s', ok)) :
    Holds O s' ((KeyStoreOp.addKeyPubKey key).record O added ok) := by
  unfold CCryptoKeyStore.addKeyPubKey at hadd
  by_cases hcrypto : s.fUseCrypto = true
  · rw [isCrypted, hcrypto, Bool.not_true, if_neg Bool.false_ne_true] at hadd
    split_ifs at hadd with hlocked
    · cases hadd
      exact h
    · cases hencrypt : encryptSecret O s.vMasterKey key.vch (O.getHash (O.getPubKey key)) with
      | none =>
        rw [hencrypt] at hadd
        cases hadd
        exact h
      | some vchCryptedSecret =>
        rw [hencrypt] at hadd
        simp only at hadd
        rw [addCryptedKey_of_crypted hcrypto] at hadd
        cases hadd
        have hunlocked : s.vMasterKey ≠ [] := by
          intro hempty
          rw [isLocked, isCrypted, hcrypto, hempty] at hlocked
          exact hlocked rfl
        obtain ⟨hempty, hdom⟩ := h.crypted hcrypto
        obtain ⟨k, hk, hall⟩ := h.master
        obtain rfl := hk.resolve_left hunlocked
        refine ⟨matching_update h.matching key, fun hoff ↦ Bool.noConfusion (hcrypto.symm.trans hoff),
          fun _ ↦ ⟨hempty, fun id ↦ ?_⟩, s.vMasterKey, .inr rfl, fun id entry hentry ↦ ?_⟩
        · show ((s.mapCryptedKeys.insert _ _)[id]?).isSome = (Function.update added _ _ id).isSome
          rw [Std.TreeMap.getElem?_insert]
          by_cases heq : O.getID (O.getPubKey key) = id
          · rw [if_pos (compare_eq_iff_eq.mpr heq), heq, Function.update_self]
            rfl
          · rw [if_neg (mt compare_eq_iff_eq.mp heq), Function.update_of_ne (Ne.symm heq)]
            exact hdom id
        · change (s.mapCryptedKeys.insert _ _)[id]? = some entry at hentry
          rw [Std.TreeMap.getElem?_insert] at hentry
          split_ifs at hentry with heq
          · obtain rfl := compare_eq_iff_eq.mp heq
            cases hentry
            exact ⟨key, Function.update_self .., rfl, hencrypt⟩
          · exact (hall id entry hentry).update (mt compare_eq_iff_eq.mpr heq)
  · have hoff := Bool.eq_false_iff.mpr hcrypto
    rw [isCrypted, hoff, Bool.not_false, if_pos rfl] at hadd
    cases hadd
    obtain ⟨hmaster, hnone, hadded⟩ := h.plain hoff
    have hno : ∀ (id : CKeyID) entry, s.mapCryptedKeys[id]? ≠ some entry := fun id entry hentry ↦ by
      rw [Std.TreeMap.getElem?_of_isEmpty hnone] at hentry
      cases hentry
    refine ⟨matching_update h.matching key, fun _ ↦ ⟨hmaster, hnone, fun id ↦ ?_⟩,
      fun hon ↦ Bool.noConfusion hon, [], .inl hmaster,
      fun id entry hentry ↦ absurd hentry (hno id entry)⟩
    show (s.mapKeys.insert _ _)[id]? = Function.update added _ _ id
    rw [Std.TreeMap.getElem?_insert]
    by_cases heq : O.getID (O.getPubKey key) = id
    · rw [if_pos (compare_eq_iff_eq.mpr heq), heq, Function.update_self]
    · rw [if_neg (mt compare_eq_iff_eq.mp heq), Function.update_of_ne (Ne.symm heq)]
      exact hadded id

/-! ### Encrypting the keys -/

/-- What the loop of `EncryptKeys` leaves: every key of the list is encrypted under the new master
key. -/
structure Encrypts (O : KeyOps) (k : List UInt8) (keys : List (CKeyID × CKey))
    (s s' : CCryptoKeyStore) : Prop where
  fUseCrypto : s'.fUseCrypto = true
  vMasterKey : s'.vMasterKey = s.vMasterKey
  mem : ∀ (id : CKeyID) entry, s'.mapCryptedKeys[id]? = some entry →
    s.mapCryptedKeys[id]? = some entry ∨ ∃ key, (id, key) ∈ keys ∧ entry.1 = O.getPubKey key ∧
      encryptSecret O k key.vch (O.getHash entry.1) = some entry.2
  isSome : ∀ id : CKeyID, ((s.mapCryptedKeys[id]?).isSome = true ∨ ∃ key, (id, key) ∈ keys) →
    (s'.mapCryptedKeys[id]?).isSome = true

theorem encrypts_encryptEach {k : List UInt8} {keys : List (CKeyID × CKey)}
    (hmatch : ∀ id key, (id, key) ∈ keys → O.getID (O.getPubKey key) = id)
    (hcrypto : s.fUseCrypto = true) (h : encryptEach O k s keys = (s', true)) :
    Encrypts O k keys s s' := by
  induction keys generalizing s with
  | nil =>
    cases h
    refine ⟨hcrypto, rfl, fun id entry hentry ↦ .inl hentry, fun id hid ↦ hid.resolve_right ?_⟩
    rintro ⟨key, hkey⟩
    exact List.not_mem_nil hkey
  | cons first keys ih =>
    obtain ⟨id₁, key₁⟩ := first
    have hid₁ := hmatch id₁ key₁ List.mem_cons_self
    rw [encryptEach] at h
    cases hencrypt : encryptSecret O k key₁.vch (O.getHash (O.getPubKey key₁)) with
    | none =>
      rw [hencrypt] at h
      cases h
    | some vchCryptedSecret =>
      rw [hencrypt] at h
      simp only at h
      rw [addCryptedKey_of_crypted hcrypto, hid₁] at h
      have hrest := ih (s := ⟨s.mapKeys, s.mapCryptedKeys.insert id₁ (O.getPubKey key₁,
        vchCryptedSecret), s.vMasterKey, s.fUseCrypto⟩)
        (fun id key hkey ↦ hmatch id key (List.mem_cons_of_mem _ hkey)) hcrypto h
      refine ⟨hrest.fUseCrypto, hrest.vMasterKey, fun id entry hentry ↦ ?_, fun id hid ↦ ?_⟩
      · obtain hold | ⟨key, hkey, hpubkey, hsecret⟩ := hrest.mem id entry hentry
        · change (s.mapCryptedKeys.insert _ _)[id]? = some entry at hold
          rw [Std.TreeMap.getElem?_insert] at hold
          split_ifs at hold with heq
          · obtain rfl := compare_eq_iff_eq.mp heq
            cases hold
            exact .inr ⟨key₁, List.mem_cons_self, rfl, hencrypt⟩
          · exact .inl hold
        · exact .inr ⟨key, List.mem_cons_of_mem _ hkey, hpubkey, hsecret⟩
      · apply hrest.isSome id
        by_cases hmem : ∃ key, (id, key) ∈ keys
        · exact .inr hmem
        · refine .inl ?_
          show ((s.mapCryptedKeys.insert _ _)[id]?).isSome = true
          rw [Std.TreeMap.getElem?_insert]
          split_ifs with heq
          · rfl
          · refine hid.resolve_right ?_
            rintro ⟨key, hkey⟩
            obtain hhead | htail := List.mem_cons.mp hkey
            · exact heq (compare_eq_iff_eq.mpr (Prod.mk.inj hhead).1.symm)
            · exact hmem ⟨key, htail⟩

theorem Holds.encryptKeys (h : Holds O s added) {k : List UInt8}
    (hencrypt : s.encryptKeys O k = (s', true)) : Holds O s' added := by
  unfold CCryptoKeyStore.encryptKeys at hencrypt
  split_ifs at hencrypt with hrefuse
  · cases hencrypt
  · rw [Bool.not_eq_true, Bool.or_eq_false_iff] at hrefuse
    obtain ⟨hmaster, hnone, hadded⟩ := h.plain hrefuse.2
    have hmem : ∀ id key, (id, key) ∈ s.mapKeys.toList ↔ added id = some key := fun id key ↦ by
      rw [Std.TreeMap.mem_toList_iff_getElem?_eq_some, hadded id]
    cases hrun : encryptEach O k { s with fUseCrypto := true } s.mapKeys.toList with
    | mk s₁ ok =>
      rw [hrun] at hencrypt
      cases ok with
      | false => cases hencrypt
      | true =>
        cases hencrypt
        have hloop := encrypts_encryptEach
          (fun id key hkey ↦ h.matching id key ((hmem id key).mp hkey)) rfl hrun
        have hentry : ∀ (id : CKeyID) entry, s₁.mapCryptedKeys[id]? = some entry →
            Encrypted O added k id entry := by
          intro id entry hentry
          obtain hold | ⟨key, hkey, hrest⟩ := hloop.mem id entry hentry
          · change s.mapCryptedKeys[id]? = some entry at hold
            rw [Std.TreeMap.getElem?_of_isEmpty hnone] at hold
            cases hold
          · exact ⟨key, (hmem id key).mp hkey, hrest⟩
        refine ⟨h.matching, fun hoff ↦ Bool.noConfusion (hloop.fUseCrypto.symm.trans hoff),
          fun _ ↦ ⟨rfl, fun id ↦ ?_⟩, k, .inl (hloop.vMasterKey.trans hmaster), hentry⟩
        show (s₁.mapCryptedKeys[id]?).isSome = (added id).isSome
        cases hid : added id with
        | some key => exact hloop.isSome id (.inr ⟨key, (hmem id key).mpr hid⟩)
        | none =>
          cases hget : s₁.mapCryptedKeys[id]? with
          | none => rfl
          | some entry =>
            obtain ⟨key, hkey, -⟩ := hentry id entry hget
            rw [hid] at hkey
            cases hkey

/-! ## Every history -/

theorem Holds.haveKey (h : Holds O s added) (address : CKeyID) :
    s.haveKey address = (added address).isSome := by
  unfold CCryptoKeyStore.haveKey
  by_cases hcrypto : s.fUseCrypto = true
  · rw [isCrypted, hcrypto, Bool.not_true, if_neg Bool.false_ne_true,
      ← Std.TreeMap.isSome_getElem?_eq_contains]
    exact (h.crypted hcrypto).2 address
  · have hoff := Bool.eq_false_iff.mpr hcrypto
    rw [isCrypted, hoff, Bool.not_false, if_pos rfl, ← Std.TreeMap.isSome_getElem?_eq_contains,
      (h.plain hoff).2.2 address]

/-- Unless it is locked, the store gives back the key that was added. -/
theorem Holds.getKey (hO : O.Lawful) (h : Holds O s added) (hlocked : s.isLocked = false)
    {address : CKeyID} {key : CKey} (hkey : added address = some key) :
    s.getKey O address = some (some key) := by
  unfold CCryptoKeyStore.getKey
  by_cases hcrypto : s.fUseCrypto = true
  · rw [isCrypted, hcrypto, Bool.not_true, if_neg Bool.false_ne_true]
    have hunlocked : s.vMasterKey ≠ [] := by
      intro hempty
      rw [isLocked, isCrypted, hcrypto, hempty] at hlocked
      cases hlocked
    obtain ⟨k, hk, hall⟩ := h.master
    obtain rfl := hk.resolve_left hunlocked
    have hdom := (h.crypted hcrypto).2 address
    rw [hkey] at hdom
    obtain ⟨entry, hentry⟩ := Option.isSome_iff_exists.mp hdom
    obtain ⟨key', hkey', hpubkey, hencrypt⟩ := hall address entry hentry
    obtain rfl : key = key' := Option.some.inj (hkey.symm.trans hkey')
    have hdecrypt : decryptSecret O s.vMasterKey entry.2 (O.getHash entry.1) = some key.vch := by
      unfold encryptSecret at hencrypt
      unfold decryptSecret
      split_ifs at hencrypt ⊢
      exact hO.decrypt_encrypt hencrypt
    rw [hentry]
    simp only [hdecrypt]
    rw [if_neg (not_not.mpr key.valid.1), hpubkey, hO.isCompressed_getPubKey, CKey.set_vch]
  · have hoff := Bool.eq_false_iff.mpr hcrypto
    rw [isCrypted, hoff, Bool.not_false, if_pos rfl, (h.plain hoff).2.2 address, hkey]
    rfl

end CCryptoKeyStore

section

variable {O : KeyOps} {s : CCryptoKeyStore} {added : CKeyID → Option CKey}

theorem History.holdsKeys (hO : O.Lawful) (h : History O s added) : s.Holds O added := by
  induction h with
  | start => exact CCryptoKeyStore.holds_init
  | @step s s' added _ op ok hop ih =>
    cases op with
    | addKeyPubKey key => exact ih.addKeyPubKey key (Option.some.inj hop)
    | encryptKeys k =>
      rw [KeyStoreOp.apply] at hop
      split at hop
      · cases hop
      · cases hop
        exact ih.encryptKeys ‹_›
    | lock =>
      have hlock : s.lock.1 = s' := congrArg Prod.fst (Option.some.inj hop)
      rw [← hlock]
      exact ih.lock
    | unlock k => exact ih.unlock hO hop

/-- No operation forgets that a key has been added. -/
theorem isSome_record (op : KeyStoreOp) (ok : Bool) {address : CKeyID}
    (h : (added address).isSome = true) : (op.record O added ok address).isSome = true := by
  unfold KeyStoreOp.record
  split
  · rename_i key
    by_cases heq : address = O.getID (O.getPubKey key)
    · rw [heq, Function.update_self]
      rfl
    · rwa [Function.update_of_ne heq]
  · exact h

/-- **The key store.**  After every history: one of the two maps is empty, and so is the master key
while encryption is off; all secrets are encrypted under one master key; the addresses known are those
of the keys added, and unless the store is locked every one of them gives back its key; and no
operation makes an address unknown. -/
theorem History.keeps_keys (hO : O.Lawful) (h : History O s added) :
    (s.isCrypted = true → s.mapKeys.isEmpty = true) ∧
    (s.isCrypted = false → s.vMasterKey = []) ∧
    (∃ vMasterKey, ∀ (id : CKeyID) entry, s.mapCryptedKeys[id]? = some entry →
      CCryptoKeyStore.Encrypted O added vMasterKey id entry) ∧
    (∀ address, s.haveKey address = (added address).isSome) ∧
    (s.isLocked = false → ∀ address, s.haveKey address = true →
      ∃ key, added address = some key ∧ s.getKey O address = some (some key)) ∧
    ∀ op s' ok, KeyStoreOp.apply O s op = some (s', ok) →
      ∀ address, s.haveKey address = true → s'.haveKey address = true := by
  have hholds := h.holdsKeys hO
  refine ⟨fun hon ↦ (hholds.crypted hon).1, fun hoff ↦ (hholds.plain hoff).1, ?_, hholds.haveKey,
    fun hlocked address hknown ↦ ?_, fun op s' ok hop address hknown ↦ ?_⟩
  · obtain ⟨k, -, hall⟩ := hholds.master
    exact ⟨k, hall⟩
  · rw [hholds.haveKey] at hknown
    obtain ⟨key, hkey⟩ := Option.isSome_iff_exists.mp hknown
    exact ⟨key, hkey, hholds.getKey hO hlocked hkey⟩
  · rw [hholds.haveKey] at hknown
    rw [((h.step op hop).holdsKeys hO).haveKey]
    exact isSome_record op ok hknown

end

namespace Sample

/-- A curve and a cipher that keep what they are given. -/
def keyOps : KeyOps where
  getPubKey key := if key.fCompressed then 2 :: key.vch else 4 :: (key.vch ++ List.replicate 32 0)
  getID vchPubKey := Codec.ofLE vchPubKey
  getHash _ := 0
  encrypt chKey _ vch := if chKey.length = 32 then some (chKey ++ vch) else none
  decrypt chKey _ c := if c.take 32 = chKey then some (c.drop 32) else none

theorem lawful_keyOps : keyOps.Lawful where
  getPubKey_injective := by
    rintro ⟨vch, fCompressed, hvalid⟩ ⟨vch', fCompressed', hvalid'⟩ h
    simp only [keyOps] at h
    cases fCompressed <;> cases fCompressed' <;>
      simp only [if_true, if_false, Bool.false_eq_true, List.cons.injEq] at h
    · obtain rfl := List.append_cancel_right h.2
      rfl
    · exact absurd h.1 (by decide)
    · exact absurd h.1 (by decide)
    · obtain rfl := h.2
      rfl
  isCompressed_getPubKey := by
    rintro ⟨vch, fCompressed, hlen, hcheck⟩
    cases fCompressed <;> simp [keyOps, CPubKey.isCompressed, hlen]
  decrypt_encrypt := by
    intro chKey nIV vch c h
    simp only [keyOps] at h ⊢
    split_ifs at h with hlen
    cases h
    rw [← hlen, List.take_left, List.drop_left, if_pos rfl]
  decrypt_ne := by
    intro chKey chKey' nIV vch c h hne
    simp only [keyOps] at h ⊢
    split_ifs at h with hlen
    cases h
    rw [← hlen, List.take_left, if_neg (Ne.symm hne)]
    exact Option.some_ne_none _ ∘ Eq.symm

def secretKey : CKey := ⟨List.replicate 32 7, true, by decide⟩

def masterKey : List UInt8 := List.replicate 32 9

/-- An empty store that has been encrypted and unlocked. -/
def unlocked : CCryptoKeyStore := ⟨∅, ∅, masterKey, true⟩

theorem history_unlocked : History keyOps unlocked fun _ ↦ none :=
  (History.start.step (.encryptKeys masterKey) rfl).step (.unlock masterKey) rfl

/-- The store with a key. -/
def withKey : CCryptoKeyStore × Bool :=
  unlocked.addKeyPubKey keyOps secretKey (keyOps.getPubKey secretKey)

end Sample

/-- A key that is added after the store has been encrypted. -/
theorem History.keeps_keys_sample :
    Sample.withKey.2 = true ∧ Sample.withKey.1.isLocked = false ∧
      Sample.withKey.1.getKey Sample.keyOps
        (Sample.keyOps.getID (Sample.keyOps.getPubKey Sample.secretKey)) =
          some (some Sample.secretKey) := by
  have hadded : Sample.withKey.2 = true := by decide +kernel
  have hlocked : Sample.withKey.1.isLocked = false := by decide +kernel
  have hhistory := Sample.history_unlocked.step (.addKeyPubKey Sample.secretKey)
    (show _ = some (Sample.withKey.1, Sample.withKey.2) from rfl)
  rw [hadded] at hhistory
  have hself : (KeyStoreOp.addKeyPubKey Sample.secretKey).record Sample.keyOps (fun _ ↦ none) true
      (Sample.keyOps.getID (Sample.keyOps.getPubKey Sample.secretKey)) = some Sample.secretKey := by
    rw [KeyStoreOp.record, Function.update_self]
  obtain ⟨-, -, -, hhave, hget, -⟩ := History.keeps_keys Sample.lawful_keyOps hhistory
  obtain ⟨key, hkey, hgetKey⟩ := hget hlocked _ (by rw [hhave, hself]; rfl)
  obtain rfl : Sample.secretKey = key := Option.some.inj (hself.symm.trans hkey)
  exact ⟨hadded, hlocked, hgetKey⟩

end Bws
