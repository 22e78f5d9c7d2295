import Bws.CreateTransaction
import Bws.Target

/-!
# Building a block

`CreateNewBlock`.  The transactions of the memory pool whose inputs are on disk go into a queue; one
that spends outputs of the pool gets a record in `vOrphan`, with the transactions that it waits for,
and `mapDependers` leads from each of these to the record.  Taking a transaction from the queue into
the block releases the records that wait for it.

A pointer to a record is its place in the order in which the records have been made.  An erased
record leaves its place empty, and the run fails when it comes to use it.

Fees per kilobyte are doubles.  They decide which transactions count as free and which one is at the
front of the queue; both are arbitrary here.
-/

namespace Bws

/-- How `CreateNewBlock` fails to return. -/
inductive MinerFault where
  /-- an exception, or an assertion that fails -/
  | thrown (msg : String)
  /-- the use of a record that `vOrphan` does not hold anymore -/
  | dangling
  | outOfFuel
deriving DecidableEq

/-- An exception of one of the functions that `CreateNewBlock` calls; they all return here. -/
def liftFault {α : Type} : Except Fault α → Except MinerFault α
  | .error (.thrown msg) => .error (.thrown msg)
  | .error (.rejected _ msg) => .error (.thrown msg)
  | .ok a => .ok a

@[simp] theorem liftFault_eq_ok {α : Type} {x : Except Fault α} {a : α} :
    liftFault x = .ok a ↔ x = .ok a := by
  unfold liftFault
  split <;> simp

structure COrphan where
  /-- a pointer into the memory pool -/
  ptx : CTransaction
  setDependsOn : Finset UInt256

namespace COrphan

variable (orphan : COrphan) (hash : UInt256)

/-- `porphan->setDependsOn.insert(hash)` -/
def insertDependsOn : COrphan :=
  { orphan with setDependsOn := insert hash orphan.setDependsOn }

/-- `porphan->setDependsOn.erase(hash)` -/
def eraseDependsOn : COrphan := { orphan with setDependsOn := orphan.setDependsOn.erase hash }

end COrphan

/-- `list<COrphan> vOrphan`: every record that has been made, in order; `none` for an erased one. -/
abbrev OrphanList := List (Option COrphan)

/-- What `CreateNewBlock` reads. -/
structure Miner where
  w : World
  s : NodeState
  /-- `pindexBest` -/
  pindexPrev : CBlockIndex
  fProofOfStake : Bool
  /-- what `reservekey` gives -/
  reservedKey : Option CKeyID
  fDebug : Bool
  /-- `-blockmaxsize` and `-blockminsize`, when they are given -/
  blockmaxsize : Option ℤ
  blockminsize : Option ℤ
  /-- `dFeePerKb < nMinTxFee` -/
  cheap : CTransaction → Bool
  /-- the choice of the heap in each round -/
  front : ℕ → ℕ

/-- `CScript COINBASE_FLAGS`, which nothing ever sets -/
def COINBASE_FLAGS : CScript := []

namespace Miner

variable (P : Params) (m : Miner)

def V : TxView := m.s.txView m.w m.s.txdb.fresh

def mapTx : Std.TreeMap UInt256 CTransaction := m.s.mempool.mapTx

def nHeight : ℕ := m.pindexPrev.nHeight + 1

/-- `nBlockMaxSize`, between 1K and `MAX_BLOCK_SIZE` - 1K -/
def nBlockMaxSize : ℕ :=
  max 1000 (min (MAX_BLOCK_SIZE - 1000)
    (m.blockmaxsize.getD (MAX_BLOCK_SIZE_GEN / 2 : ℕ) % 2 ^ 32).toNat)

def nBlockMinSize : ℕ := min m.nBlockMaxSize (m.blockminsize.getD 0 % 2 ^ 32).toNat

/-- The coinbase as it is before the fees are known. -/
def coinbase : Except MinerFault (Option CTransaction) :=
  let txNew : CTransaction :=
    { nVersion := 1
      nTime := (m.w.nAdjustedTime % 2 ^ 32).toNat
      vin := []
      vout := []
      nLockTime := 0 }
  if m.fProofOfStake then
    -- height first in coinbase
    let scriptSig := scriptHeight m.nHeight ++ COINBASE_FLAGS
    if scriptSig.length ≤ 100 then
      .ok (some { txNew with vin := [⟨.null, scriptSig, uintMax⟩], vout := [⟨0, []⟩] })
    else .error (.thrown "assert(txNew.vin[0].scriptSig.size() <= 100)")
  else
    .ok (m.reservedKey.map fun id ↦
      { txNew with vin := [⟨.null, [], uintMax⟩], vout := [⟨-1, setDestination (.keyID id)⟩] })

/-! ## Collecting the memory pool -/

/-- What the first loop fills. -/
structure Collected where
  vOrphan : OrphanList
  mapDependers : UInt256 → List ℕ
  vecPriority : List CTransaction

namespace Collected

variable (c : Collected)

def init : Collected := ⟨[], fun _ ↦ [], []⟩

/-- The record waits for a transaction of the pool. -/
def dependOn (porphan : ℕ) (hash : UInt256) : Collected :=
  { c with
    vOrphan := c.vOrphan.modify porphan fun r ↦ r.map (COrphan.insertDependsOn · hash)
    mapDependers := Function.update c.mapDependers hash (c.mapDependers hash ++ [porphan]) }

/-- `vOrphan.push_back(COrphan(&tx))` -/
def pushOrphan (tx : CTransaction) : Collected :=
  { c with vOrphan := c.vOrphan ++ [some ⟨tx, ∅⟩] }

/-- `vOrphan.pop_back()`, after which nothing is made before the next transaction -/
def popOrphan : Collected := { c with vOrphan := c.vOrphan.dropLast ++ [none] }

end Collected

/-- `txPrev.ReadFromDisk(txdb, txin.prevout, txindex)` -/
def readPrev (prevout : COutPoint) : Option (CTxIndex × CTransaction) :=
  readPrevTx m.w m.s.files m.V.txIndex prevout

/-- The loop over the inputs, with `porphan`; the result tells `fMissingInputs`. -/
def collectInputs (tx : CTransaction) :
    Collected → Option ℕ → List CTxIn → Except MinerFault (Collected × Option ℕ × Bool)
  | c, porphan, [] => .ok (c, porphan, false)
  | c, porphan, txin :: vin =>
    if (m.readPrev txin.prevout).isSome then collectInputs tx c porphan vin
    else if m.mapTx.contains txin.prevout.hash then
      -- has to wait for dependencies
      match porphan with
      | some p => collectInputs tx (c.dependOn p txin.prevout.hash) (some p) vin
      | none =>
        let p := c.vOrphan.length
        collectInputs tx ((c.pushOrphan tx).dependOn p txin.prevout.hash) (some p) vin
    else if m.fDebug then .error (.thrown "assert(\"mempool transaction missing input\" == 0)")
    else .ok (if porphan.isSome then c.popOrphan else c, porphan, true)

/-- The transactions that the first loop looks at. -/
def Considers (tx : CTransaction) : Prop :=
  ¬ (tx.isCoinBase ∨ tx.isCoinStake ∨
    ¬ isFinalTx m.s.nBestHeight m.w.nAdjustedTime tx m.nHeight 0)

instance (tx : CTransaction) : Decidable (m.Considers tx) := inferInstanceAs (Decidable (¬ _))

/-- One round of the first loop. -/
def collectTx (c : Collected) (tx : CTransaction) : Except MinerFault Collected :=
  if ¬ m.Considers tx then .ok c
  else do
    let (c, porphan, fMissingInputs) ← m.collectInputs tx c none tx.vin
    if fMissingInputs then .ok c
    else do
      let _ ← liftFault tx.getValueOut -- for `dFeePerKb`
      match porphan with
      | some _ => .ok c
      | none => .ok { c with vecPriority := c.vecPriority ++ [tx] }

/-- The first loop. -/
def collectTxs : Collected → List CTransaction → Except MinerFault Collected
  | c, [] => .ok c
  | c, tx :: vtx => do
    let c ← m.collectTx c tx
    collectTxs c vtx

/-- The transactions of the pool, in the order of `mapTx`. -/
def poolTxs : List CTransaction := m.mapTx.toList.map Prod.snd

/-! ## Filling the block -/

/-- What the second loop works on; `vtx` is without the coinbase. -/
structure Assembly where
  vOrphan : OrphanList
  vecPriority : List CTransaction
  mapTestPool : TxIndexMap
  vtx : List CTransaction
  nBlockSize : ℕ
  nBlockSigOps : ℕ
  nFees : ℤ

def start (c : Collected) : Assembly := ⟨c.vOrphan, c.vecPriority, ∅, [], 1000, 100, 0⟩

/-- How `CreateNewBlock` connects inputs. -/
def mode : ConnectMode := ⟨.inMemory, false, true, MANDATORY_SCRIPT_VERIFY_FLAGS⟩

/-- The transaction is added to the block, unless a test of the second loop fails, which then
continues with the next one.  `nTimeCoinbase` is `pblock->vtx[0].nTime`. -/
def addTx (nTimeCoinbase : ℕ) (a : Assembly) (tx : CTransaction) : Except Fault Assembly := do
  let nTxSize := tx.serializeSize
  rejectIf (m.nBlockMaxSize ≤ a.nBlockSize + nTxSize) 0 ""
  let nTxSigOps := getLegacySigOpCount P tx
  rejectIf (MAX_BLOCK_SIGOPS ≤ a.nBlockSigOps + nTxSigOps) 0 ""
  rejectIf ((tx.nTime : ℤ) > m.w.nAdjustedTime ∨ m.fProofOfStake ∧ tx.nTime > nTimeCoinbase) 0 ""
  let nMinFee := getMinFee tx a.nBlockSize .GMF_BLOCK 0
  -- skip free transactions past the minimum block size
  rejectIf (m.cheap tx ∧ m.nBlockMinSize ≤ a.nBlockSize + nTxSize) 0 ""
  let mapInputs ← fetchInputs m.V a.mapTestPool false true tx
  let nValueIn ← getValueIn mapInputs tx
  let nValueOut ← tx.getValueOut
  let nTxFees := int64 (nValueIn - nValueOut)
  rejectIf (nTxFees < nMinFee) 0 ""
  let nP2SH ← getP2SHSigOpCount P mapInputs tx
  let nTxSigOps := nTxSigOps + nP2SH
  rejectIf (MAX_BLOCK_SIGOPS ≤ a.nBlockSigOps + nTxSigOps) 0 ""
  let (mapTestPool, _) ←
    connectInputs P m.V mode (some m.pindexPrev) tx mapInputs a.mapTestPool 0
  .ok { a with
    mapTestPool := mapTestPool.insert (P.getHash tx) (CTxIndex.mk' .inMemory tx.vout.length)
    vtx := a.vtx ++ [tx]
    nBlockSize := a.nBlockSize + nTxSize
    nBlockSigOps := a.nBlockSigOps + nTxSigOps
    nFees := int64 (a.nFees + nTxFees) }

/-- The loop over the records that wait for a transaction that has been added. -/
def releaseOrphans (hash : UInt256) :
    OrphanList → List CTransaction → List ℕ → Except MinerFault (OrphanList × List CTransaction)
  | vOrphan, vecPriority, [] => .ok (vOrphan, vecPriority)
  | vOrphan, vecPriority, porphan :: ps =>
    match vOrphan[porphan]?.join with
    | none => .error .dangling
    | some orphan =>
      if orphan.setDependsOn = ∅ then releaseOrphans hash vOrphan vecPriority ps
      else
        let orphan := orphan.eraseDependsOn hash
        releaseOrphans hash (vOrphan.set porphan (some orphan))
          (if orphan.setDependsOn = ∅ then vecPriority ++ [orphan.ptx] else vecPriority) ps

/-- The place in `vecPriority` of the front of the heap. -/
def frontPlace (round : ℕ) (a : Assembly) : ℕ := m.front round % a.vecPriority.length

/-- `vecPriority.front()` -/
def frontTx (round : ℕ) (a : Assembly) : Option CTransaction :=
  a.vecPriority[m.frontPlace round a]?

/-- `pop_heap` and `pop_back` -/
def popFront (round : ℕ) (a : Assembly) : Assembly :=
  { a with vecPriority := a.vecPriority.eraseIdx (m.frontPlace round a) }

/-- One round of the second loop, for the transaction that has been taken from the queue. -/
def minerRound (mapDependers : UInt256 → List ℕ) (nTimeCoinbase : ℕ) (a : Assembly)
    (tx : CTransaction) : Except MinerFault Assembly :=
  match m.addTx P nTimeCoinbase a tx with
  | .error (.thrown msg) => .error (.thrown msg)
  | .error (.rejected _ _) => .ok a
  | .ok a => do
    let (vOrphan, vecPriority) ← releaseOrphans (P.getHash tx) a.vOrphan a.vecPriority
      (mapDependers (P.getHash tx))
    .ok { a with vOrphan, vecPriority }

/-- The second loop, from a round on. -/
def minerLoop (mapDependers : UInt256 → List ℕ) (nTimeCoinbase : ℕ) :
    ℕ → ℕ → Assembly → Except MinerFault Assembly
  | 0, _, _ => .error .outOfFuel
  | fuel + 1, round, a =>
    match m.frontTx round a with
    | none => .ok a
    | some tx => do
      let a ← m.minerRound P mapDependers nTimeCoinbase (m.popFront round a) tx
      minerLoop mapDependers nTimeCoinbase fuel (round + 1) a

/-- Every round takes a transaction from the queue, and a record gives one back at most. -/
def fuelFor (c : Collected) : ℕ := c.vecPriority.length + c.vOrphan.length + 1

/-! ## The block -/

/-- `GetMaxTransactionTime` -/
def maxTransactionTime (vtx : List CTransaction) : ℕ := (vtx.map CTransaction.nTime).foldl max 0

/-- The block with its header, for the transactions that have been chosen. -/
def fillIn (txNew : CTransaction) (a : Assembly) : CBlock :=
  let txNew := if m.fProofOfStake then txNew else
    { txNew with
      vout := txNew.vout.map fun txout ↦
        { txout with nValue := getProofOfWorkReward m.pindexPrev.nHeight a.nFees } }
  let vtx := txNew :: a.vtx
  let nTime := (max (m.pindexPrev.getPastTimeLimit + 1) (maxTransactionTime vtx) % 2 ^ 32).toNat
  { nVersion := CBlock.CURRENT_VERSION
    hashPrevBlock := m.pindexPrev.getBlockHash
    hashMerkleRoot := 0
    -- `UpdateTime` for proof of work
    nTime := if m.fProofOfStake then nTime else (max (nTime : ℤ) m.w.nAdjustedTime % 2 ^ 32).toNat
    nBits := getNextTargetRequired (targetLimit P m.fProofOfStake) m.pindexPrev m.fProofOfStake
    nNonce := 0
    vtx
    vchBlockSig := [] }

/-- `CreateNewBlock`, with what it leaves in `*pFees`; it returns `NULL` when there is no key. -/
def createNewBlock : Except MinerFault (Option (CBlock × ℤ)) := do
  match ← m.coinbase with
  | none => .ok none
  | some txNew => do
    let c ← m.collectTxs .init m.poolTxs
    let a ← m.minerLoop P c.mapDependers txNew.nTime (fuelFor c) 0 (start c)
    .ok (some (m.fillIn P txNew a, a.nFees))

/-! ## What the first loop leaves -/

/-- The input is neither on disk nor in the pool. -/
def Missing (txin : CTxIn) : Prop :=
  ¬ (m.readPrev txin.prevout).isSome ∧ ¬ m.mapTx.contains txin.prevout.hash

instance (txin : CTxIn) : Decidable (m.Missing txin) := inferInstanceAs (Decidable (_ ∧ _))

/-- The input is not on disk, but its transaction is in the pool. -/
def Waits (txin : CTxIn) : Prop :=
  ¬ (m.readPrev txin.prevout).isSome ∧ m.mapTx.contains txin.prevout.hash

instance (txin : CTxIn) : Decidable (m.Waits txin) := inferInstanceAs (Decidable (_ ∧ _))

/-- The inputs that come before the first one that is missing. -/
def scanned (vin : List CTxIn) : List CTxIn := vin.takeWhile fun txin ↦ ¬ m.Missing txin

/-- An input of the transaction is missing, and an earlier one spends an output of `hash`, which is
in the pool. -/
def Drops (tx : CTransaction) (hash : UInt256) : Prop :=
  (∃ txin ∈ tx.vin, m.Missing txin) ∧
    ∃ txin ∈ m.scanned tx.vin, m.Waits txin ∧ txin.prevout.hash = hash

instance (tx : CTransaction) (hash : UInt256) : Decidable (m.Drops tx hash) :=
  inferInstanceAs (Decidable (_ ∧ _))

/-- A transaction that the first loop drops has an input that spends an output of `hash`, before the
one that is missing. -/
def AwaitedByDropped (hash : UInt256) : Prop :=
  ∃ tx ∈ m.poolTxs, m.Considers tx ∧ m.Drops tx hash

instance (hash : UInt256) : Decidable (m.AwaitedByDropped hash) :=
  inferInstanceAs (Decidable (∃ _ ∈ _, _))

section

variable {P m}

theorem scanned_cons_of_missing {txin : CTxIn} (h : m.Missing txin) (vin : List CTxIn) :
    m.scanned (txin :: vin) = [] := by
  rw [scanned, List.takeWhile_cons_of_neg (by simpa using h)]

theorem scanned_cons_of_not_missing {txin : CTxIn} (h : ¬ m.Missing txin) (vin : List CTxIn) :
    m.scanned (txin :: vin) = txin :: m.scanned vin := by
  rw [scanned, List.takeWhile_cons_of_pos (by simpa using h), scanned]

theorem Collected.mem_dependOn {c : Collected} {q p : ℕ} {hash hash' : UInt256} :
    q ∈ (c.dependOn p hash').mapDependers hash ↔
      q ∈ c.mapDependers hash ∨ q = p ∧ hash' = hash := by
  change q ∈ Function.update c.mapDependers hash' (c.mapDependers hash' ++ [p]) hash ↔ _
  by_cases heq : hash = hash'
  · subst heq
    rw [Function.update_self, List.mem_append, List.mem_singleton, and_iff_left rfl]
  · rw [Function.update_of_ne heq]
    simp [Ne.symm heq]

/-- What the loop over the inputs of `tx` has done to `c₀` when it has come past `A`. -/
structure Scan (m : Miner) (c₀ : Collected) (tx : CTransaction) (A : List CTxIn) (c : Collected)
    (porphan : Option ℕ) : Prop where
  queue : c.vecPriority = c₀.vecPriority
  place : ∀ p, porphan = some p → p = c₀.vOrphan.length
  untouched : porphan = none → c = c₀ ∧ ∀ txin ∈ A, ¬ m.Waits txin
  orphan : porphan.isSome → ∃ orphan : COrphan, orphan.ptx = tx ∧
    c.vOrphan = c₀.vOrphan ++ [some orphan]
  dependers : ∀ hash p, p ∈ c.mapDependers hash ↔ p ∈ c₀.mapDependers hash ∨
    p = c₀.vOrphan.length ∧ ∃ txin ∈ A, m.Waits txin ∧ txin.prevout.hash = hash

namespace Scan

variable {c₀ c : Collected} {tx : CTransaction} {A : List CTxIn} {porphan : Option ℕ} {txin : CTxIn}

theorem nil (m : Miner) (c₀ : Collected) (tx : CTransaction) : Scan m c₀ tx [] c₀ none where
  queue := rfl
  place _ h := nomatch h
  untouched _ := ⟨rfl, nofun⟩
  orphan := nofun
  dependers _ _ := by simp

/-- An input that is on disk. -/
theorem read (h : Scan m c₀ tx A c porphan) (hread : (m.readPrev txin.prevout).isSome) :
    Scan m c₀ tx (A ++ [txin]) c porphan where
  queue := h.queue
  place := h.place
  untouched hnone := by
    refine ⟨(h.untouched hnone).1, fun txin' hmem ↦ ?_⟩
    rcases List.mem_append.mp hmem with hmem | hmem
    · exact (h.untouched hnone).2 txin' hmem
    · cases List.mem_singleton.mp hmem
      exact fun hwaits ↦ hwaits.1 hread
  orphan := h.orphan
  dependers hash p := by
    rw [h.dependers]
    have hnot : ¬ m.Waits txin := fun hwaits ↦ hwaits.1 hread
    simp [hnot]

/-- An input that is in the pool, when the transaction has a record. -/
theorem waits_some {p : ℕ} (h : Scan m c₀ tx A c (some p)) (hwaits : m.Waits txin) :
    Scan m c₀ tx (A ++ [txin]) (c.dependOn p txin.prevout.hash) (some p) where
  queue := h.queue
  place := h.place
  untouched := nofun
  orphan _ := by
    obtain ⟨orphan, hptx, hlist⟩ := h.orphan rfl
    rw [Collected.dependOn, h.place p rfl, hlist]
    exact ⟨orphan.insertDependsOn txin.prevout.hash, hptx, by simp [List.modify_eq_set_getElem?]⟩
  dependers hash q := by
    rw [Collected.mem_dependOn, h.dependers, h.place p rfl]
    simp only [List.mem_append, List.mem_singleton, or_and_right, exists_or, exists_eq_left,
      and_iff_right hwaits, or_assoc, and_or_left]

/-- The first input that is in the pool. -/
theorem waits_none (h : Scan m c₀ tx A c none) (hwaits : m.Waits txin) :
    Scan m c₀ tx (A ++ [txin])
      ((c.pushOrphan tx).dependOn c.vOrphan.length txin.prevout.hash) (some c.vOrphan.length) := by
  obtain ⟨rfl, hnone⟩ := h.untouched rfl
  have hpush : Scan m c tx A (c.pushOrphan tx) (some c.vOrphan.length) :=
    { queue := rfl
      place := fun p hp ↦ (Option.some.inj hp).symm
      untouched := nofun
      orphan := fun _ ↦ ⟨⟨tx, ∅⟩, rfl, rfl⟩
      dependers := h.dependers }
  exact hpush.waits_some hwaits

end Scan

/-- **The loop over the inputs.** -/
theorem collectInputs_eq_ok {c₀ : Collected} {tx : CTransaction} {vin : List CTxIn} :
    ∀ {A c c' porphan porphan' fMissingInputs}, Scan m c₀ tx A c porphan →
      m.collectInputs tx c porphan vin = .ok (c', porphan', fMissingInputs) →
        (fMissingInputs = true ↔ ∃ txin ∈ vin, m.Missing txin) ∧
          ∃ c₁, Scan m c₀ tx (A ++ m.scanned vin) c₁ porphan' ∧
            c' = if fMissingInputs ∧ porphan'.isSome then c₁.popOrphan else c₁ := by
  induction vin with
  | nil =>
    rintro A c c' porphan porphan' fMissingInputs hscan h
    cases h
    refine ⟨by simp, c, ?_, by simp⟩
    rw [scanned, List.takeWhile_nil, List.append_nil]
    exact hscan
  | cons txin vin ih =>
    intro A c c' porphan porphan' fMissingInputs hscan h
    -- an input that is not missing, after which the loop goes on
    have hnext : ∀ {c₁ porphan₁}, ¬ m.Missing txin → Scan m c₀ tx (A ++ [txin]) c₁ porphan₁ →
        m.collectInputs tx c₁ porphan₁ vin = .ok (c', porphan', fMissingInputs) →
          (fMissingInputs = true ↔ ∃ txin' ∈ txin :: vin, m.Missing txin') ∧
            ∃ c₁, Scan m c₀ tx (A ++ m.scanned (txin :: vin)) c₁ porphan' ∧
              c' = if fMissingInputs ∧ porphan'.isSome then c₁.popOrphan else c₁ := by
      intro c₁ porphan₁ hnot hscan₁ h₁
      obtain ⟨hmissing, hrest⟩ := ih hscan₁ h₁
      rw [List.append_assoc] at hrest
      rw [scanned_cons_of_not_missing hnot, List.exists_mem_cons_iff, or_iff_right hnot]
      exact ⟨hmissing, hrest⟩
    unfold collectInputs at h
    by_cases hread : (m.readPrev txin.prevout).isSome
    · rw [if_pos hread] at h
      exact hnext (fun hmissing ↦ hmissing.1 hread) (hscan.read hread) h
    · rw [if_neg hread] at h
      by_cases hpool : m.mapTx.contains txin.prevout.hash
      · rw [if_pos hpool] at h
        have hnot : ¬ m.Missing txin := fun hmissing ↦ hmissing.2 hpool
        cases porphan with
        | some p => exact hnext hnot (hscan.waits_some ⟨hread, hpool⟩) h
        | none => exact hnext hnot (hscan.waits_none ⟨hread, hpool⟩) h
      · rw [if_neg hpool] at h
        have hmissing : m.Missing txin := ⟨hread, hpool⟩
        split at h
        · cases h
        · cases h
          refine ⟨iff_of_true rfl ⟨txin, List.mem_cons_self, hmissing⟩, c, ?_, by simp⟩
          rw [scanned_cons_of_missing hmissing, List.append_nil]
          exact hscan

/-- The transaction passes the first loop. -/
structure Ready (m : Miner) (tx : CTransaction) : Prop where
  considers : m.Considers tx
  value : ∃ nValueOut, tx.getValueOut = .ok nValueOut

/-- What the first loop has done when it has come past the transactions `L`. -/
structure Tracks (m : Miner) (L : List CTransaction) (c : Collected) : Prop where
  bound : ∀ hash, ∀ p ∈ c.mapDependers hash, p < c.vOrphan.length
  erased : ∀ hash, (∃ p ∈ c.mapDependers hash, c.vOrphan[p]? = some none) ↔
    ∃ tx ∈ L, m.Considers tx ∧ m.Drops tx hash
  orphan : ∀ orphan : COrphan, some orphan ∈ c.vOrphan → orphan.ptx ∈ L ∧ m.Ready orphan.ptx
  queue : ∀ tx ∈ c.vecPriority, tx ∈ L ∧ m.Ready tx

theorem tracks_init (m : Miner) : m.Tracks [] .init where
  bound := nofun
  erased := by simp [Collected.init]
  orphan := nofun
  queue := nofun

namespace Tracks

variable {L : List CTransaction} {c c' : Collected} {tx : CTransaction}

/-- A transaction that has left no record, and perhaps an entry in the queue. -/
theorem queued (h : m.Tracks L c) (hdrops : m.Considers tx → ∀ hash, ¬ m.Drops tx hash)
    {vecPriority : List CTransaction} (hqueue : ∀ tx' ∈ vecPriority, tx' ∈ c.vecPriority ∨
      tx' = tx ∧ m.Ready tx) : m.Tracks (L ++ [tx]) { c with vecPriority } where
  bound := h.bound
  erased hash := by
    rw [h.erased]
    constructor
    · rintro ⟨tx', hmem, htx'⟩
      exact ⟨tx', List.mem_append_left _ hmem, htx'⟩
    · rintro ⟨tx', hmem, hconsiders, hdrops'⟩
      rcases List.mem_append.mp hmem with hmem | hmem
      · exact ⟨tx', hmem, hconsiders, hdrops'⟩
      · cases List.mem_singleton.mp hmem
        exact absurd hdrops' (hdrops hconsiders hash)
  orphan orphan hmem := ⟨List.mem_append_left _ (h.orphan orphan hmem).1, (h.orphan orphan hmem).2⟩
  queue tx' hmem := by
    rcases hqueue tx' hmem with hmem | ⟨rfl, hready⟩
    · exact ⟨List.mem_append_left _ (h.queue tx' hmem).1, (h.queue tx' hmem).2⟩
    · exact ⟨List.mem_append_right _ (List.mem_singleton_self tx'), hready⟩

/-- A transaction that has got a record, which may have been erased. -/
theorem recorded (h : m.Tracks L c) (hconsiders : m.Considers tx) {r : Option COrphan}
    (horphan : c'.vOrphan = c.vOrphan ++ [r]) (hqueue : c'.vecPriority = c.vecPriority)
    (hdeps : ∀ hash p, p ∈ c'.mapDependers hash ↔ p ∈ c.mapDependers hash ∨
      p = c.vOrphan.length ∧ ∃ txin ∈ m.scanned tx.vin, m.Waits txin ∧ txin.prevout.hash = hash)
    (hr : ∀ orphan ∈ r, orphan.ptx = tx ∧ m.Ready tx)
    (hnone : r = none ↔ ∃ txin ∈ tx.vin, m.Missing txin) : m.Tracks (L ++ [tx]) c' where
  bound hash p hp := by
    rw [horphan, List.length_append, List.length_singleton]
    rcases (hdeps hash p).mp hp with hp | ⟨rfl, -⟩
    · exact Nat.lt_succ_of_lt (h.bound hash p hp)
    · exact Nat.lt_succ_self _
  erased hash := by
    have hold : ∀ p ∈ c.mapDependers hash, c'.vOrphan[p]? = c.vOrphan[p]? := fun p hp ↦ by
      rw [horphan, List.getElem?_append_left (h.bound hash p hp)]
    have hlast : c'.vOrphan[c.vOrphan.length]? = some r := by
      rw [horphan, List.getElem?_concat_length]
    constructor
    · rintro ⟨p, hp, hentry⟩
      rcases (hdeps hash p).mp hp with hp | ⟨rfl, hwaits⟩
      · rw [hold p hp] at hentry
        obtain ⟨tx', hmem, htx'⟩ := (h.erased hash).mp ⟨p, hp, hentry⟩
        exact ⟨tx', List.mem_append_left _ hmem, htx'⟩
      · rw [hlast] at hentry
        exact ⟨tx, List.mem_append_right _ (List.mem_singleton_self tx), hconsiders,
          hnone.mp (Option.some.inj hentry), hwaits⟩
    · rintro ⟨tx', hmem, htx'⟩
      rcases List.mem_append.mp hmem with hmem | hmem
      · obtain ⟨p, hp, hentry⟩ := (h.erased hash).mpr ⟨tx', hmem, htx'⟩
        exact ⟨p, (hdeps hash p).mpr (Or.inl hp), (hold p hp).trans hentry⟩
      · cases List.mem_singleton.mp hmem
        exact ⟨_, (hdeps hash _).mpr (Or.inr ⟨rfl, htx'.2.2⟩),
          hlast.trans (congrArg some (hnone.mpr htx'.2.1))⟩
  orphan orphan hmem := by
    rw [horphan] at hmem
    rcases List.mem_append.mp hmem with hmem | hmem
    · exact ⟨List.mem_append_left _ (h.orphan orphan hmem).1, (h.orphan orphan hmem).2⟩
    · obtain ⟨hptx, hready⟩ := hr orphan (List.mem_singleton.mp hmem).symm
      rw [hptx]
      exact ⟨List.mem_append_right _ (List.mem_singleton_self tx), hready⟩
  queue tx' hmem := by
    rw [hqueue] at hmem
    exact ⟨List.mem_append_left _ (h.queue tx' hmem).1, (h.queue tx' hmem).2⟩

/-- **One round of the first loop.** -/
theorem collectTx (h : m.Tracks L c) (hc : m.collectTx c tx = .ok c') :
    m.Tracks (L ++ [tx]) c' := by
  unfold Miner.collectTx at hc
  by_cases hconsiders : m.Considers tx
  · rw [if_neg (not_not.mpr hconsiders)] at hc
    obtain ⟨⟨c₂, porphan, fMissingInputs⟩, hin, hrest⟩ := bind_eq_ok.mp hc
    obtain ⟨hmissing, c₁, hscan, rfl⟩ := collectInputs_eq_ok (.nil m c tx) hin
    rw [List.nil_append] at hscan
    dsimp only at hrest
    by_cases hm : fMissingInputs = true
    · rw [if_pos hm] at hrest
      cases hrest
      cases porphan with
      | none =>
        obtain ⟨rfl, hnone⟩ := hscan.untouched rfl
        rw [if_neg (by simp)]
        refine h.queued (fun _ hash hdrops ↦ ?_) fun tx' hmem ↦ Or.inl hmem
        obtain ⟨txin, hmem, hwaits, -⟩ := hdrops.2
        exact hnone txin hmem hwaits
      | some p =>
        obtain ⟨orphan, -, hlist⟩ := hscan.orphan rfl
        rw [if_pos ⟨hm, rfl⟩]
        have hpop : c₁.popOrphan.vOrphan = c.vOrphan ++ [none] := by
          rw [Collected.popOrphan, hlist, List.dropLast_concat]
        exact h.recorded hconsiders hpop hscan.queue hscan.dependers nofun
          (iff_of_true rfl (hmissing.mp hm))
    · rw [if_neg hm] at hrest
      rw [if_neg fun hboth ↦ hm hboth.1] at hrest
      have hnot : ¬ ∃ txin ∈ tx.vin, m.Missing txin := fun hex ↦ hm (hmissing.mpr hex)
      obtain ⟨nValueOut, hvalue, hdone⟩ := bind_eq_ok.mp hrest
      have hready : m.Ready tx := ⟨hconsiders, nValueOut, liftFault_eq_ok.mp hvalue⟩
      cases porphan with
      | none =>
        obtain ⟨rfl, -⟩ := hscan.untouched rfl
        cases hdone
        refine h.queued (fun _ hash hdrops ↦ hnot hdrops.1) fun tx' hmem ↦ ?_
        rcases List.mem_append.mp hmem with hmem | hmem
        · exact Or.inl hmem
        · exact Or.inr ⟨List.mem_singleton.mp hmem, hready⟩
      | some p =>
        obtain ⟨orphan, hptx, hlist⟩ := hscan.orphan rfl
        cases hdone
        refine h.recorded hconsiders hlist hscan.queue hscan.dependers ?_ (by simpa using hnot)
        rintro _ ⟨⟩
        exact ⟨hptx, hready⟩
  · rw [if_pos hconsiders] at hc
    cases hc
    exact h.queued (fun hyes ↦ absurd hyes hconsiders) fun tx' hmem ↦ Or.inl hmem

/-- **The first loop.** -/
theorem collectTxs {vtx : List CTransaction} : ∀ {L c c'}, m.Tracks L c →
    m.collectTxs c vtx = .ok c' → m.Tracks (L ++ vtx) c' := by
  induction vtx with
  | nil =>
    rintro L c _ h ⟨⟩
    rwa [List.append_nil]
  | cons tx vtx ih =>
    intro L c c' h hc
    obtain ⟨c₁, h₁, h₂⟩ := bind_eq_ok.mp hc
    rw [List.append_cons]
    exact ih (h.collectTx h₁) h₂

end Tracks

end

end Miner

end Bws
