import Bws.Core
import Bws.Lib.Exec

/-!
# The key pool

The functions of `wallet.cpp` that keep a pool of keys nobody has used: `TopUpKeyPool`,
`ReserveKeyFromKeyPool`, `KeepKey`, `ReturnKey`, `GetKeyFromPool`, and the `CReserveKey` objects
through which the rest of the wallet takes keys out.

A key stands for its own hash.  What a call of the wallet's database or of the encryption answers is
given from outside (`WalletDB`), and so are the keys that are made (`KeySource`).  The events record
what happened to indices and keys; nothing reads them.
-/

namespace Bws

/-- The bytes `vch`, up to `size()`. -/
abbrev CPubKey := List UInt8

abbrev CKeyingMaterial := List UInt8

/-- `MakeNewKey` and `GetPubKey`: a new key is valid and none of those that the wallet has. -/
structure KeySource where
  newKey : List CPubKey → CPubKey
  newKey_notMem : ∀ keys, newKey keys ∉ keys
  newKey_ne_nil : ∀ keys, newKey keys ≠ []

/-- How the calls of a step to the wallet's database and to `EncryptSecret` end. -/
structure WalletDB where
  encryptSecret : CPubKey → Bool
  writeKey : CPubKey → Bool
  writePool : ℤ → Bool
  readPool : ℤ → Bool
  erasePool : ℤ → Bool

/-- What a run leaves a trace of. -/
inductive KeyEvent where
  /-- a new key was written under an index -/
  | wrote (nIndex : ℤ) (key : CPubKey)
  /-- a `CReserveKey` took the index -/
  | reserved (nIndex : ℤ)
  /-- the `CReserveKey` that had the index kept or returned it -/
  | released (nIndex : ℤ)
  | handedOut (key : CPubKey)
  | kept (key : CPubKey)
deriving DecidableEq

structure CReserveKey where
  nIndex : ℤ
  vchPubKey : CPubKey

/-- `CReserveKey(pwallet)` -/
def CReserveKey.empty : CReserveKey := ⟨-1, []⟩

/-- The part of a `CWallet` and of its database that the key pool uses. -/
structure KeyPool where
  fFileBacked : Bool
  fUseCrypto : Bool
  vMasterKey : CKeyingMaterial
  vchDefaultKey : CPubKey
  /-- the keys of the keystore, the newest first -/
  keys : List CPubKey
  setKeyPool : Finset ℤ
  /-- the records `("pool", nIndex)` of the database -/
  pool : ℤ → Option CPubKey
  /-- the `CReserveKey` objects -/
  reserveKeys : ℕ → CReserveKey
  /-- history, the newest event first -/
  events : List KeyEvent

abbrev KeyPoolM := EStateM Fault KeyPool

namespace KeyPool

def isLocked (s : KeyPool) : Bool := s.fUseCrypto && s.vMasterKey.isEmpty

/-- `CCryptoKeyStore::SetCrypted` succeeds -/
def canCrypt (s : KeyPool) : Bool := s.fUseCrypto || s.keys.isEmpty

/-- `CCryptoKeyStore::Lock` -/
def lock (s : KeyPool) : KeyPool :=
  if s.canCrypt then { s with fUseCrypto := true, vMasterKey := [] } else s

/-- `CWallet::Unlock`; `found` is the master key that the passphrase decrypts and that opens every
key. -/
def unlock (found : Option CKeyingMaterial) (s : KeyPool) : KeyPool :=
  match found with
  | none => s
  | some vMasterKeyIn =>
    if s.canCrypt then { s with fUseCrypto := true, vMasterKey := vMasterKeyIn } else s

/-! ## New keys -/

/-- A key enters the keystore. -/
def withKey (key : CPubKey) (s : KeyPool) : KeyPool where
  __ := s
  keys := key :: s.keys

/-- `CWallet::AddKeyPubKey` -/
def addKeyPubKey (d : WalletDB) (pubkey : CPubKey) (s : KeyPool) : KeyPool × Bool :=
  if s.fUseCrypto && (s.isLocked || !d.encryptSecret pubkey) then (s, false)
  else (s.withKey pubkey, !s.fFileBacked || d.writeKey pubkey)

def generateNewKey (K : KeySource) (d : WalletDB) : KeyPoolM CPubKey := fun s ↦
  match s.addKeyPubKey d (K.newKey s.keys) with
  | (s', true) => .ok (K.newKey s.keys) s'
  | (s', false) => .error (.thrown "CWallet::GenerateNewKey() : AddKey failed") s'

/-- The index after the last one of the set. -/
def nEnd (s : KeyPool) : ℤ :=
  match s.setKeyPool.max with
  | none => 1
  | some nLast => nLast + 1

/-- `WritePool(nIndex, key)`, and the index enters the set. -/
def insertKey (s : KeyPool) (nIndex : ℤ) (key : CPubKey) : KeyPool where
  __ := s
  setKeyPool := insert nIndex s.setKeyPool
  pool := Function.update s.pool nIndex (some key)
  events := .wrote nIndex key :: s.events

/-- `WritePool(nEnd, CKeyPool(key))` and what follows in the loop of `TopUpKeyPool` -/
def writePool (d : WalletDB) (key : CPubKey) : KeyPoolM Unit := fun s ↦
  if s.fFileBacked && d.writePool s.nEnd then .ok () (s.insertKey s.nEnd key)
  else .error (.thrown "TopUpKeyPool() : writing generated key failed") s

/-- The loop of `TopUpKeyPool`; a round adds an index, so that `n` of them are enough when only `n`
indices are missing. -/
def topUpLoop (K : KeySource) (d : WalletDB) (nSize : ℕ) : ℕ → KeyPoolM Unit
  | 0 => pure ()
  | n + 1 => fun s ↦
    if s.setKeyPool.card < nSize then
      (generateNewKey K d >>= writePool d >>= fun _ ↦ topUpLoop K d nSize n) s
    else .ok () s

/-- The size up to which `TopUpKeyPool(nSize)` fills the set; `keypool` is the argument `-keypool`,
and the size is an `unsigned int`. -/
def topUpSize (keypool : ℤ) (nSize : ℕ) : ℕ :=
  ((if 0 < nSize then nSize else (max keypool 0).toNat) + 1) % 2 ^ 32

def topUpKeyPool (K : KeySource) (keypool : ℤ) (d : WalletDB) (nSize : ℕ) : KeyPoolM Bool := fun s ↦
  if s.isLocked then .ok false s
  else (topUpLoop K d (topUpSize keypool nSize) (topUpSize keypool nSize - s.setKeyPool.card) >>=
    fun _ ↦ pure true) s

/-! ## Keys that are taken -/

/-- `ReadPool` and the checks of what it read -/
def readPool (d : WalletDB) (nIndex : ℤ) (s : KeyPool) : Except Fault CPubKey :=
  match if s.fFileBacked && d.readPool nIndex then s.pool nIndex else none with
  | none => .error (.thrown "ReserveKeyFromKeyPool() : read failed")
  | some key =>
    if key ∉ s.keys then .error (.thrown "ReserveKeyFromKeyPool() : unknown key in key pool")
    else if key = [] then .error (.thrown "assert(keypool.vchPubKey.IsValid())")
    else .ok key

/-- `setKeyPool.erase(nIndex)` -/
def takeIndex (nIndex : ℤ) (s : KeyPool) : KeyPool where
  __ := s
  setKeyPool := s.setKeyPool.erase nIndex

/-- `ReserveKeyFromKeyPool`: the wallet it leaves, and what it leaves in `nIndex` and in
`keypool.vchPubKey`, or the exception. -/
def reserveKeyFromKeyPool (K : KeySource) (keypool : ℤ) (d : WalletDB) (s : KeyPool) :
    KeyPool × ℤ × Except Fault CPubKey :=
  match topUpKeyPool K keypool d 0 s with
  | .error e s => (s, -1, .error e)
  | .ok _ s =>
    match s.setKeyPool.min with
    | none => (s, -1, .ok [])
    | some nIndex => (s.takeIndex nIndex, nIndex, readPool d nIndex (s.takeIndex nIndex))

/-- `CWallet::KeepKey` -/
def keepIndex (d : WalletDB) (nIndex : ℤ) (s : KeyPool) : KeyPool :=
  if s.fFileBacked && d.erasePool nIndex then
    { s with pool := Function.update s.pool nIndex none }
  else s

/-- `CWallet::ReturnKey` -/
def returnIndex (nIndex : ℤ) (s : KeyPool) : KeyPool where
  __ := s
  setKeyPool := insert nIndex s.setKeyPool

/-- Something happened to an index or to a key. -/
def happened (e : KeyEvent) (s : KeyPool) : KeyPool where
  __ := s
  events := e :: s.events

/-- `result = key; return true;` -/
def handOut (key : CPubKey) : KeyPoolM (Option CPubKey) := fun s ↦
  .ok (some key) (s.happened (.handedOut key))

/-- `GetKeyFromPool(result)` -/
def getKeyFromPool (K : KeySource) (keypool : ℤ) (d : WalletDB) : KeyPoolM (Option CPubKey) :=
  fun s ↦
    match s.reserveKeyFromKeyPool K keypool d with
    | (s, _, .error e) => .error e s
    | (s, nIndex, .ok key) =>
      if nIndex = -1 then
        if s.isLocked then .ok none s
        else (generateNewKey K d >>= handOut) s
      else .ok (some key) (((s.happened (.handedOut key)).keepIndex d nIndex).happened (.kept key))

/-! ## `CReserveKey` -/

/-- The object `r` is assigned. -/
def setReserveKey (r : ℕ) (k : CReserveKey) (s : KeyPool) : KeyPool where
  __ := s
  reserveKeys := Function.update s.reserveKeys r k

/-- `CReserveKey::GetReservedKey(pubkey)` -/
def getReservedKey (K : KeySource) (keypool : ℤ) (d : WalletDB) (r : ℕ) :
    KeyPoolM (Option CPubKey) := fun s ↦
  if (s.reserveKeys r).nIndex = -1 then
    match s.reserveKeyFromKeyPool K keypool d with
    | (s, nIndex, .error e) =>
      if nIndex = -1 then .error e s
      -- the member `nIndex` was assigned before the exception
      else .error e ((s.setReserveKey r ⟨nIndex, (s.reserveKeys r).vchPubKey⟩).happened
        (.reserved nIndex))
    | (s, nIndex, .ok key) =>
      if nIndex = -1 then
        if s.vchDefaultKey = [] then .ok none s
        else .ok (some s.vchDefaultKey) (s.setReserveKey r ⟨-1, s.vchDefaultKey⟩)
      else .ok (some key) (((s.setReserveKey r ⟨nIndex, key⟩).happened (.reserved nIndex)).happened
        (.handedOut key))
  else if (s.reserveKeys r).vchPubKey = [] then .error (.thrown "assert(vchPubKey.IsValid())") s
  else .ok (some (s.reserveKeys r).vchPubKey) s

/-- `CReserveKey::KeepKey()` -/
def keepKey (d : WalletDB) (r : ℕ) (s : KeyPool) : KeyPool :=
  (if (s.reserveKeys r).nIndex = -1 then s
  else ((s.keepIndex d (s.reserveKeys r).nIndex).happened
    (.released (s.reserveKeys r).nIndex)).happened (.kept (s.reserveKeys r).vchPubKey)).setReserveKey
      r .empty

/-- `CReserveKey::ReturnKey()`, which the destructor calls too -/
def returnKey (r : ℕ) (s : KeyPool) : KeyPool :=
  (if (s.reserveKeys r).nIndex = -1 then s
  else (s.returnIndex (s.reserveKeys r).nIndex).happened
    (.released (s.reserveKeys r).nIndex)).setReserveKey r .empty

end KeyPool

/-! ## Runs -/

/-- What the rest of the program does to the pool. -/
inductive KeyOp where
  | topUpKeyPool (nSize : ℕ)
  | getReservedKey (r : ℕ)
  | keepKey (r : ℕ)
  | returnKey (r : ℕ)
  | getKeyFromPool
  | lock
  | unlock (found : Option CKeyingMaterial)

/-- The wallet after an operation, also one that ends with an exception. -/
def KeyPool.step (K : KeySource) (keypool : ℤ) (d : WalletDB) (s : KeyPool) : KeyOp → KeyPool
  | .topUpKeyPool nSize => Exec.final (topUpKeyPool K keypool d nSize s)
  | .getReservedKey r => Exec.final (getReservedKey K keypool d r s)
  | .keepKey r => s.keepKey d r
  | .returnKey r => s.returnKey r
  | .getKeyFromPool => Exec.final (getKeyFromPool K keypool d s)
  | .lock => s.lock
  | .unlock found => s.unlock found

end Bws
