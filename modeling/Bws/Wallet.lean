import Bws.Checks
import Bws.Lib.Exec

/-!
# The wallet and its spent marks

The functions of `wallet.cpp` and `wallet.h` that record transactions in `mapWallet` and set and
clear `vfSpent`: `WalletUpdateSpent`, `AddToWallet`, `SyncTransaction`, `DisableTransaction` and
`CommitTransaction`.

An output pays a key only once the key has been made, so whether an output is ours does not change
while keys are made; it is a parameter.  Times, accounts and what is only shown to the user are left
out.  The key pool has a module of its own; here it is given from outside how the replacement of a
default key that has received something ends, and so is how the wallet file answers.
-/

namespace Bws

structure WalletParams where
  params : Params
  /-- `IsMine(keystore, scriptPubKey)` -/
  isMine : CScript → Bool
  nMinimumInputValue : ℤ

/-- What a handler of the wallet meets. -/
structure WalletEnv where
  /-- `WriteToDisk` of the entry that `AddToWallet` adds or changes -/
  writeToDisk : Bool
  /-- the exception that ends the replacement of the default key -/
  replaceDefaultKey : Option Fault
  nAdjustedTime : ℕ

/-! ## Wallet transactions -/

structure CMerkleTx extends CTransaction where
  hashBlock : UInt256
  vMerkleBranch : List UInt256
  nIndex : ℤ
deriving DecidableEq

structure CWalletTx extends CMerkleTx where
  fFromMe : Bool
  /-- which outputs are already spent -/
  vfSpent : List Bool
deriving DecidableEq

/-- `CWalletTx(pwallet, tx)` -/
def CTransaction.toWalletTx (tx : CTransaction) : CWalletTx where
  toCTransaction := tx
  hashBlock := 0
  vMerkleBranch := []
  nIndex := -1
  fFromMe := false
  vfSpent := []

/-- `CTransaction()` -/
def CTransaction.empty (nAdjustedTime : ℕ) : CTransaction where
  nVersion := 1
  nTime := nAdjustedTime
  vin := []
  vout := []
  nLockTime := 0

/-- The loop of `GetMerkleBranch`; `level` is the one the loop has come to. -/
def merkleBranch (hashPair : UInt256 → UInt256 → UInt256) : ℕ → ℕ → List UInt256 → List UInt256
  | _, _, [] => []
  | _, _, [_] => []
  | 0, _, _ => []
  | fuel + 1, nIndex, level =>
    level.getD (min (nIndex ^^^ 1) (level.length - 1)) 0 ::
      merkleBranch hashPair fuel (nIndex / 2) (merkleLevel hashPair level)

def CBlock.getMerkleBranch (P : Params) (block : CBlock) (nIndex : ℕ) : List UInt256 :=
  merkleBranch P.hashPair block.vtx.length nIndex (block.vtx.map P.getHash)

namespace CWalletTx

/-- `SetMerkleBranch(pblock)`, where there is a block -/
def setMerkleBranch (P : Params) (block : CBlock) (wtx : CWalletTx) : CWalletTx :=
  match block.vtx.findIdx? (· = wtx.toCTransaction) with
  | some nIndex =>
    { wtx with
      hashBlock := P.blockHash block.toCBlockHeader
      vMerkleBranch := block.getMerkleBranch P nIndex
      nIndex := nIndex }
  -- "SetMerkleBranch() : couldn't find tx in block"
  | none =>
    { wtx with hashBlock := P.blockHash block.toCBlockHeader, vMerkleBranch := [], nIndex := -1 }

def isSpent (wtx : CWalletTx) (nOut : ℕ) : Except Fault Bool :=
  if wtx.vout.length ≤ nOut then .error (.thrown "CWalletTx::IsSpent() : nOut out of range")
  else .ok (wtx.vfSpent.getD nOut false)

/-- `vfSpent.resize(nSize)` -/
def resize (vfSpent : List Bool) (nSize : ℕ) : List Bool :=
  vfSpent.take nSize ++ List.replicate (nSize - vfSpent.length) false

/-- What `MarkSpent` and `MarkUnspent` have in common. -/
def setSpent (fSpent : Bool) (msg : String) (nOut : ℕ) (wtx : CWalletTx) :
    Except Fault CWalletTx :=
  if wtx.vout.length ≤ nOut then .error (.thrown msg)
  else .ok { wtx with vfSpent := (resize wtx.vfSpent wtx.vout.length).set nOut fSpent }

def markSpent : ℕ → CWalletTx → Except Fault CWalletTx :=
  setSpent true "CWalletTx::MarkSpent() : nOut out of range"

def markUnspent : ℕ → CWalletTx → Except Fault CWalletTx :=
  setSpent false "CWalletTx::MarkUnspent() : nOut out of range"

/-- `UpdateSpent(vfNewSpent)`: marks what is marked in `vfNewSpent`, as far as `vfSpent` reaches. -/
def updateSpent : List Bool → List Bool → List Bool
  | _, [] => []
  | [], vfSpent => vfSpent
  | fNewSpent :: vfNewSpent, fSpent :: vfSpent =>
    (fNewSpent || fSpent) :: updateSpent vfNewSpent vfSpent

/-- What `AddToWallet(wtxIn)` makes of an entry that exists. -/
def merge (wtxIn wtx : CWalletTx) : CWalletTx where
  toCTransaction := wtx.toCTransaction
  hashBlock := if wtxIn.hashBlock ≠ 0 then wtxIn.hashBlock else wtx.hashBlock
  vMerkleBranch := if wtxIn.nIndex ≠ -1 then wtxIn.vMerkleBranch else wtx.vMerkleBranch
  nIndex := if wtxIn.nIndex ≠ -1 then wtxIn.nIndex else wtx.nIndex
  fFromMe := wtxIn.fFromMe || wtx.fFromMe
  vfSpent := updateSpent wtxIn.vfSpent wtx.vfSpent

end CWalletTx

structure Wallet where
  mapWallet : UInt256 → Option CWalletTx

abbrev WalletM := EStateM Fault Wallet

namespace Wallet

def put (hash : UInt256) (wtx : CWalletTx) (s : Wallet) : Wallet where
  mapWallet := Function.update s.mapWallet hash (some wtx)

@[simp] theorem mapWallet_put_self (hash : UInt256) (wtx : CWalletTx) (s : Wallet) :
    (s.put hash wtx).mapWallet hash = some wtx := Function.update_self ..

theorem mapWallet_put_of_ne {hash hash' : UInt256} (h : hash' ≠ hash) (wtx : CWalletTx)
    (s : Wallet) : (s.put hash wtx).mapWallet hash' = s.mapWallet hash' :=
  Function.update_of_ne h ..

/-- The entry of `hash` becomes what a call leaves of it. -/
def store (hash : UInt256) : Except Fault CWalletTx → WalletM Unit
  | .error e, s => .error e s
  | .ok wtx, s => .ok () (s.put hash wtx)

/-! ## What is ours -/

variable (W : WalletParams)

/-- `IsMine(txin)`, and the output that is spent when it is. -/
def mineOutput (s : Wallet) (prevout : COutPoint) : Option CTxOut :=
  match s.mapWallet prevout.hash with
  | none => none
  | some prev => prev.vout[prevout.n]?.filter fun txout ↦ W.isMine txout.scriptPubKey

/-- `GetDebit(txin)` -/
def getDebitIn (s : Wallet) (txin : CTxIn) : ℤ :=
  ((s.mineOutput W txin.prevout).map CTxOut.nValue).getD 0

/-- The loop of `GetDebit(tx)` with the sum so far. -/
def getDebitFrom (s : Wallet) (nDebit : ℤ) : List CTxIn → Except Fault ℤ
  | [] => .ok nDebit
  | txin :: vin =>
    if moneyRange (int64 (nDebit + s.getDebitIn W txin)) then
      getDebitFrom s (int64 (nDebit + s.getDebitIn W txin)) vin
    else .error (.thrown "CWallet::GetDebit() : value out of range")

def getDebit (s : Wallet) (tx : CTransaction) : Except Fault ℤ := s.getDebitFrom W 0 tx.vin

def isFromMe (s : Wallet) (tx : CTransaction) : Except Fault Bool :=
  (s.getDebit W tx).map (decide <| 0 < ·)

/-- `IsMine(tx)` -/
def isMine (tx : CTransaction) : Bool :=
  tx.vout.any fun txout ↦ W.isMine txout.scriptPubKey && decide (W.nMinimumInputValue ≤ txout.nValue)

/-- `fExisted || IsMine(tx) || IsFromMe(tx)` -/
def involves (s : Wallet) (tx : CTransaction) : Except Fault Bool :=
  if (s.mapWallet (W.params.getHash tx)).isSome || isMine W tx then .ok true else s.isFromMe W tx

/-! ## WalletUpdateSpent -/

/-- A round of the first loop of `WalletUpdateSpent`. -/
def updateInput (txin : CTxIn) : WalletM Unit := fun s ↦
  match s.mapWallet txin.prevout.hash with
  | none => .ok () s
  | some wtx =>
    match wtx.vout[txin.prevout.n]? with
    -- "WalletUpdateSpent: bad wtx"
    | none => .ok () s
    | some txout =>
      match wtx.isSpent txin.prevout.n with
      | .error e => .error e s
      | .ok fSpent =>
        if !fSpent && W.isMine txout.scriptPubKey then
          store txin.prevout.hash (wtx.markSpent txin.prevout.n) s
        else .ok () s

/-- A round of the second loop of `WalletUpdateSpent`, for the output `n`. -/
def updateOutput (hash : UInt256) (txout : CTxOut × ℕ) : WalletM Unit := fun s ↦
  if W.isMine txout.1.scriptPubKey then
    match s.mapWallet hash with
    | none => .error (.thrown "mapWallet.end()") s
    | some wtx => store hash (wtx.markUnspent txout.2) s
  else .ok () s

def walletUpdateSpent (tx : CTransaction) (fBlock : Bool) : WalletM Unit :=
  Exec.forEach (updateInput W) tx.vin >>= fun _ ↦
    if fBlock then Exec.forEach (updateOutput W (W.params.getHash tx)) tx.vout.zipIdx else pure ()

/-! ## AddToWallet -/

/-- The replacement of the default key. -/
def replaceDefaultKey (E : WalletEnv) : WalletM Unit := fun s ↦
  match E.replaceDefaultKey with
  | none => .ok () s
  | some e => .error e s

/-- `AddToWallet` from where the entry is in the map; `fWrite` is `fInsertedNew || fUpdated`. -/
def addedToWallet (E : WalletEnv) (tx : CTransaction) (fWrite fBlock : Bool) : WalletM Bool :=
  if fWrite && !E.writeToDisk then pure false
  else replaceDefaultKey E >>= fun _ ↦ walletUpdateSpent W tx fBlock >>= fun _ ↦ pure true

def addToWallet (E : WalletEnv) (wtxIn : CWalletTx) : WalletM Bool := fun s ↦
  let hash := W.params.getHash wtxIn.toCTransaction
  match s.mapWallet hash with
  | none =>
    addedToWallet W E wtxIn.toCTransaction true (wtxIn.hashBlock ≠ 0) (s.put hash wtxIn)
  | some wtx =>
    addedToWallet W E wtx.toCTransaction (wtxIn.merge wtx ≠ wtx) (wtxIn.hashBlock ≠ 0)
      (s.put hash (wtxIn.merge wtx))

/-- What `AddToWalletIfInvolvingMe` adds. -/
def walletTxOf (tx : CTransaction) (pblock : Option CBlock) : CWalletTx :=
  match pblock with
  | none => tx.toWalletTx
  | some block => tx.toWalletTx.setMerkleBranch W.params block

def addToWalletIfInvolvingMe (E : WalletEnv) (tx : CTransaction) (pblock : Option CBlock)
    (fUpdate : Bool) : WalletM Bool := fun s ↦
  if (s.mapWallet (W.params.getHash tx)).isSome && !fUpdate then .ok false s
  else
    match s.involves W tx with
    | .error e => .error e s
    | .ok true => addToWallet W E (walletTxOf W tx pblock) s
    | .ok false => (walletUpdateSpent W tx false >>= fun _ ↦ pure false) s

/-! ## The handlers -/

/-- A round of the loop of `DisableTransaction`. -/
def refundInput (txin : CTxIn) : WalletM Unit := fun s ↦
  match s.mapWallet txin.prevout.hash with
  | none => .ok () s
  | some prev =>
    if (s.mineOutput W txin.prevout).isSome then
      store txin.prevout.hash (prev.markUnspent txin.prevout.n) s
    else .ok () s

def disableTransaction (tx : CTransaction) : WalletM Unit := fun s ↦
  if tx.isCoinStake then
    match s.isFromMe W tx with
    | .error e => .error e s
    | .ok true => Exec.forEach (refundInput W) tx.vin s
    | .ok false => .ok () s
  else .ok () s

def syncTransaction (E : WalletEnv) (tx : CTransaction) (pblock : Option CBlock)
    (fConnect : Bool) : WalletM Unit := fun s ↦
  if fConnect then (addToWalletIfInvolvingMe W E tx pblock true >>= fun _ ↦ pure ()) s
  else if tx.isCoinStake then
    match s.isFromMe W tx with
    | .error e => .error e s
    | .ok true => disableTransaction W tx s
    | .ok false => .ok () s
  else .ok () s

/-- `mapWallet[hash]`, which adds an empty entry when there is none. -/
def entryAt (E : WalletEnv) (hash : UInt256) (s : Wallet) : CWalletTx :=
  (s.mapWallet hash).getD (CTransaction.empty E.nAdjustedTime).toWalletTx

/-- A round of the loop of `CommitTransaction`. -/
def markCoin (E : WalletEnv) (txin : CTxIn) : WalletM Unit := fun s ↦
  let coin := s.entryAt E txin.prevout.hash
  store txin.prevout.hash (coin.markSpent txin.prevout.n) (s.put txin.prevout.hash coin)

/-- `AcceptToMemoryPool`; if it accepts the transaction, it tells the wallet, which then meets
`accepted`. -/
def acceptToMemoryPool (tx : CTransaction) : Option WalletEnv → WalletM Bool
  | none => pure false
  | some E => syncTransaction W E tx none true >>= fun _ ↦ pure true

/-- `CommitTransaction(wtxNew)` -/
def commitTransaction (E : WalletEnv) (wtxNew : CWalletTx) (accepted : Option WalletEnv) :
    WalletM Bool :=
  addToWallet W E wtxNew >>= fun _ ↦ Exec.forEach (markCoin E) wtxNew.vin >>= fun _ ↦
    acceptToMemoryPool W wtxNew.toCTransaction accepted

end Wallet

/-! ## Runs -/

/-- What the wallet is told, and what it is told to do. -/
inductive WalletEvent where
  | commitTransaction (wtxNew : CWalletTx) (accepted : Option WalletEnv)
  | syncTransaction (tx : CTransaction) (pblock : Option CBlock) (fConnect : Bool)

/-- The transactions that an event may bring into the memory pool or into the best chain. -/
def WalletEvent.enters (P : Params) : WalletEvent → List UInt256
  | .commitTransaction wtxNew (some _) => [P.getHash wtxNew.toCTransaction]
  | .syncTransaction tx _ true => [P.getHash tx]
  | _ => []

/-- The wallet after an event, also one that ends with an exception. -/
def Wallet.step (W : WalletParams) (E : WalletEnv) (s : Wallet) : WalletEvent → Wallet
  | .commitTransaction wtxNew accepted => Exec.final (commitTransaction W E wtxNew accepted s)
  | .syncTransaction tx pblock fConnect => Exec.final (syncTransaction W E tx pblock fConnect s)

end Bws
