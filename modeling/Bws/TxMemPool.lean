import Bws.Params
import Std.Data.TreeMap

/-!
# The memory pool

`CTxMemPool`.  A `CInPoint` is a pointer into `mapTx`; here it is the key it points at and the
number of the input.
-/

namespace Bws

structure CTxMemPool where
  mapTx : Std.TreeMap UInt256 CTransaction
  /-- the transaction of the pool that spends an outpoint, and with which input -/
  mapNextTx : COutPoint → Option (UInt256 × ℕ)
  nTransactionsUpdated : ℕ

namespace CTxMemPool

def empty : CTxMemPool := ⟨∅, fun _ ↦ none, 0⟩

def exists_ (pool : CTxMemPool) (hash : UInt256) : Bool := pool.mapTx.contains hash

def lookup (pool : CTxMemPool) (hash : UInt256) : Option CTransaction := pool.mapTx[hash]?

def addTransactionsUpdated (pool : CTxMemPool) (n : ℕ) : CTxMemPool :=
  { pool with nTransactionsUpdated := pool.nTransactionsUpdated + n }

/-- The loop of `addUnchecked` over the inputs, from the `i`-th on. -/
def linkInputs (hash : UInt256) (mapNextTx : COutPoint → Option (UInt256 × ℕ)) :
    ℕ → List CTxIn → COutPoint → Option (UInt256 × ℕ)
  | _, [] => mapNextTx
  | i, txin :: vin =>
    linkInputs hash (Function.update mapNextTx txin.prevout (some (hash, i))) (i + 1) vin

/-- `CTxMemPool::addUnchecked` -/
def addUnchecked (pool : CTxMemPool) (hash : UInt256) (tx : CTransaction) : CTxMemPool where
  mapTx := pool.mapTx.insert hash tx
  mapNextTx := linkInputs hash pool.mapNextTx 0 tx.vin
  nTransactionsUpdated := pool.nTransactionsUpdated + 1

/-- Erase a transaction and what it spends: the end of `CTxMemPool::remove`. -/
def eraseTx (pool : CTxMemPool) (hash : UInt256) (tx : CTransaction) : CTxMemPool where
  mapTx := pool.mapTx.erase hash
  mapNextTx := fun o ↦ if ∃ txin ∈ tx.vin, txin.prevout = o then none else pool.mapNextTx o
  nTransactionsUpdated := pool.nTransactionsUpdated + 1

/-- The loop of `remove` over the outputs `0, .., n - 1` of the transaction `hash`, given how a
spender is removed. -/
def removeSpenders (removeNext : CTxMemPool → CTransaction → CTxMemPool) (hash : UInt256) :
    ℕ → CTxMemPool → CTxMemPool
  | 0, pool => pool
  | i + 1, pool =>
    let pool := removeSpenders removeNext hash i pool
    match pool.mapNextTx ⟨hash, i⟩ with
    | none => pool
    | some (hashNext, _) =>
      match pool.mapTx[hashNext]? with
      | none => pool
      | some txNext => removeNext pool txNext

/-- `CTxMemPool::clear` -/
def clear (pool : CTxMemPool) : CTxMemPool := ⟨∅, fun _ ↦ none, pool.nTransactionsUpdated + 1⟩

variable (P : Params)

/-- `CTxMemPool::remove`; the fuel bounds the depth of the recursion. -/
def removeFrom : ℕ → CTxMemPool → CTransaction → Bool → CTxMemPool
  | 0, pool, _, _ => pool
  | fuel + 1, pool, tx, fRecursive =>
    let hash := P.getHash tx
    if pool.mapTx.contains hash then
      let pool :=
        if fRecursive then
          removeSpenders (fun pool txNext ↦ removeFrom fuel pool txNext true) hash tx.vout.length pool
        else pool
      pool.eraseTx hash tx
    else pool

/-- `CTxMemPool::remove`: no chain of spenders is longer than the pool. -/
def remove (pool : CTxMemPool) (tx : CTransaction) (fRecursive : Bool) : CTxMemPool :=
  removeFrom P (pool.mapTx.size + 1) pool tx fRecursive

/-- The loop of `removeConflicts` over the inputs of `tx`. -/
def removeConflictsFrom (tx : CTransaction) : CTxMemPool → List CTxIn → CTxMemPool
  | pool, [] => pool
  | pool, txin :: vin =>
    let pool :=
      match pool.mapNextTx txin.prevout with
      | none => pool
      | some (hashNext, _) =>
        match pool.mapTx[hashNext]? with
        | none => pool
        | some txConflict => if txConflict ≠ tx then pool.remove P txConflict true else pool
    removeConflictsFrom tx pool vin

/-- `CTxMemPool::removeConflicts` -/
def removeConflicts (pool : CTxMemPool) (tx : CTransaction) : CTxMemPool :=
  removeConflictsFrom P tx pool tx.vin

end CTxMemPool

end Bws
