import Bws.AcceptBlock
import Bws.Interpreter

/-!
# Receiving a block

`ProcessBlock` and `PruneOrphanBlocks`, and the containers in which blocks wait for their parents:
`mapOrphanBlocks`, `mapOrphanBlocksByPrev`, `setStakeSeenOrphan` and `nOrphanBlocksSize`.

An orphan block holds its block as it was serialized.  Messages to other nodes are left out.  The
events record what became of blocks and orphans; nothing reads them.
-/

namespace Bws

structure COrphanBlock where
  hashBlock : UInt256
  hashPrev : UInt256
  stake : COutPoint × ℕ
  /-- the block that the bytes are -/
  vchBlock : CBlock
deriving DecidableEq

def CANONICAL_BLOCK_SIG_VERSION : ℤ := 60016
def CANONICAL_BLOCK_SIG_LOW_S_VERSION : ℤ := 60018

/-- What a run leaves a trace of. -/
inductive OrphanEvent where
  /-- `AcceptBlock` returned false; whether the block was an orphan, whether it entered
  `mapBlockIndex` all the same, and whether orphans were waiting for it -/
  | refused (hash : UInt256) (orphan entered waited : Bool)
  /-- an orphan was erased, and its stake; whether another one was stored that has the same stake -/
  | erased (hashBlock : UInt256) (twin : Bool)
deriving DecidableEq

structure OrphanState where
  mapOrphanBlocks : UInt256 → Option COrphanBlock
  /-- the entries of the multimap in their order -/
  mapOrphanBlocksByPrev : List (UInt256 × COrphanBlock)
  setStakeSeenOrphan : Finset (COutPoint × ℕ)
  nOrphanBlocksSize : ℕ

/-- The globals that `ProcessBlock` uses. -/
structure ProcessState where
  node : NodeState
  orphans : OrphanState
  /-- history, the newest event first -/
  events : List OrphanEvent

/-- What a call of `ProcessBlock` depends on besides the block: the flags and arguments of the
program, the node that sent the block, and what the machine answers. -/
structure Receipt where
  fReindex : Bool
  fImporting : Bool
  /-- `GetArg("-maxorphanblocksmib", DEFAULT_MAX_ORPHAN_BLOCKS)` -/
  maxorphanblocksmib : ℤ
  /-- `pfrom`, by its `nVersion` -/
  pfrom : Option ℤ
  /-- the values of `insecure_rand()`, by the orphans that are left -/
  insecureRand : ℕ → ℕ
  /-- `EnsureLowS` -/
  ensureLowS : List UInt8 → Option (List UInt8)
  /-- the machine when the block is checked -/
  checking : World
  /-- the machine while the block with a hash is accepted -/
  accepting : UInt256 → World

abbrev ProcessM := EStateM Fault ProcessState

/-! ## The containers -/

namespace OrphanState

def empty : OrphanState where
  mapOrphanBlocks _ := none
  mapOrphanBlocksByPrev := []
  setStakeSeenOrphan := ∅
  nOrphanBlocksSize := 0

variable (s : OrphanState)

/-- `mapOrphanBlocksByPrev.count(hash)` -/
def waits (hash : UInt256) : Prop := ∃ e ∈ s.mapOrphanBlocksByPrev, e.1 = hash

instance (hash : UInt256) : Decidable (s.waits hash) := inferInstanceAs (Decidable (∃ _ ∈ _, _))

/-- The entries from `lower_bound(hash)` to `upper_bound(hash)`. -/
def range (hash : UInt256) : List (UInt256 × COrphanBlock) :=
  s.mapOrphanBlocksByPrev.filter fun e ↦ e.1 = hash

/-- Another orphan that is stored has the stake of this one. -/
def hasTwin (o : COrphanBlock) : Prop :=
  ∃ e ∈ s.mapOrphanBlocksByPrev, s.mapOrphanBlocks e.2.hashBlock = some e.2 ∧
    e.2.hashBlock ≠ o.hashBlock ∧ e.2.vchBlock.isProofOfStake ∧ e.2.stake = o.stake

instance (o : COrphanBlock) : Decidable (s.hasTwin o) :=
  inferInstanceAs (Decidable (∃ _ ∈ _, _))

/-- The orphan enters all containers. -/
def store (o : COrphanBlock) : OrphanState where
  mapOrphanBlocks := Function.update s.mapOrphanBlocks o.hashBlock
    (some ((s.mapOrphanBlocks o.hashBlock).getD o))
  mapOrphanBlocksByPrev :=
    s.mapOrphanBlocksByPrev.orderedInsert (fun e e' ↦ e.1 < e'.1) (o.hashPrev, o)
  setStakeSeenOrphan :=
    if o.vchBlock.isProofOfStake then insert o.vchBlock.getProofOfStake s.setStakeSeenOrphan
    else s.setStakeSeenOrphan
  nOrphanBlocksSize := s.nOrphanBlocksSize + o.vchBlock.serializeSize

/-- What `ProcessBlock` erases of an orphan while the entries of its parent are gone through. -/
def forget (o : COrphanBlock) : OrphanState where
  mapOrphanBlocks := Function.update s.mapOrphanBlocks o.hashBlock none
  mapOrphanBlocksByPrev := s.mapOrphanBlocksByPrev
  setStakeSeenOrphan := s.setStakeSeenOrphan.erase o.vchBlock.getProofOfStake
  nOrphanBlocksSize := s.nOrphanBlocksSize - o.vchBlock.serializeSize

/-- `mapOrphanBlocksByPrev.erase(hashPrev)` -/
def eraseRange (hashPrev : UInt256) : OrphanState where
  __ := s
  mapOrphanBlocksByPrev := s.mapOrphanBlocksByPrev.filter fun e ↦ e.1 ≠ hashPrev

/-- What `PruneOrphanBlocks` erases of the orphan at a position of the multimap. -/
def pruneAt (it : ℕ) (o : COrphanBlock) : OrphanState where
  mapOrphanBlocks := Function.update s.mapOrphanBlocks o.hashBlock none
  mapOrphanBlocksByPrev := s.mapOrphanBlocksByPrev.eraseIdx it
  setStakeSeenOrphan := s.setStakeSeenOrphan.erase o.stake
  nOrphanBlocksSize := s.nOrphanBlocksSize - o.vchBlock.serializeSize

end OrphanState

/-- Something happened to a block. -/
def ProcessState.happened (e : OrphanEvent) (s : ProcessState) : ProcessState where
  __ := s
  events := e :: s.events

/-! ## PruneOrphanBlocks -/

/-- Walk from a position to an orphan that no other one depends on.  Each position can be met once
only, so that a walk that takes more steps than there are entries does not end. -/
def walkToLeaf (byPrev : List (UInt256 × COrphanBlock)) : ℕ → ℕ → Option (ℕ × COrphanBlock)
  | 0, _ => none
  | n + 1, it =>
    match byPrev[it]? with
    | none => none
    | some e =>
      match byPrev.findIdx? fun e' ↦ e'.1 = e.2.hashBlock with
      | none => some (it, e.2)
      | some it2 => walkToLeaf byPrev n it2

/-- Remove a random orphan block which does not have any dependent orphans. -/
def pruneOne (rand : ℕ) (s : ProcessState) : Option ProcessState :=
  match walkToLeaf s.orphans.mapOrphanBlocksByPrev s.orphans.mapOrphanBlocksByPrev.length
      (rand % s.orphans.mapOrphanBlocksByPrev.length) with
  | none => none
  | some (it, o) =>
    some ({ s with orphans := s.orphans.pruneAt it o }.happened
      (.erased o.hashBlock (decide (s.orphans.hasTwin o))))

/-- The loop of `PruneOrphanBlocks`, with the number of orphans for its rounds: `none` when it does
not end. -/
def pruneLoop (nMaxOrphanBlocksSize : ℕ) (insecureRand : ℕ → ℕ) :
    ℕ → ProcessState → Option ProcessState
  | 0, s => if nMaxOrphanBlocksSize < s.orphans.nOrphanBlocksSize then none else some s
  | n + 1, s =>
    if nMaxOrphanBlocksSize < s.orphans.nOrphanBlocksSize then
      (pruneOne (insecureRand n) s).bind (pruneLoop nMaxOrphanBlocksSize insecureRand n)
    else some s

/-- `PruneOrphanBlocks` -/
def pruneOrphanBlocks (r : Receipt) (s : ProcessState) : Option ProcessState :=
  pruneLoop (uint64 (r.maxorphanblocksmib * 2 ^ 20)) r.insecureRand
    s.orphans.mapOrphanBlocksByPrev.length s

section

variable (P : Params) (r : Receipt)

/-! ## Checks -/

/-- `IsCanonicalBlockSignature` -/
def isCanonicalBlockSignature (block : CBlock) (checkLowS : Bool) : Prop :=
  if block.isProofOfWork then block.vchBlockSig = []
  else if checkLowS then isLowDERSignature block.vchBlockSig false
  else isDERSignature block.vchBlockSig false

instance (block : CBlock) (checkLowS : Bool) :
    Decidable (isCanonicalBlockSignature block checkLowS) :=
  inferInstanceAs (Decidable (if block.isProofOfWork then block.vchBlockSig = []
    else if checkLowS then isLowDERSignature block.vchBlockSig false
    else isDERSignature block.vchBlockSig false))

/-- Extra checks to prevent "fill up memory by spamming with bogus blocks" -/
def checkBlockTime (s : NodeState) (block : CBlock) : Except Fault Unit :=
  if block.hashPrevBlock ≠ s.hashBestChain then
    match s.pindexBest with
    | none => .error (.thrown "pindexBest")
    | some pindexBest =>
      rejectIf ((block.nTime : ℤ) - (autoSelectSyncCheckpoint pindexBest).val.nTime < 0) 0
        "ProcessBlock() : block with timestamp before last checkpoint"
  else .ok ()

/-- The block with a signature that has a low S. -/
def lowSBlock (block : CBlock) : Except Fault CBlock :=
  if isCanonicalBlockSignature block true then .ok block
  else if ∃ nVersion ∈ r.pfrom, CANONICAL_BLOCK_SIG_LOW_S_VERSION ≤ nVersion then
    reject 0 "ProcessBlock(): bad block signature encoding (low-s)"
  else
    match r.ensureLowS block.vchBlockSig with
    | none => reject 0 "ProcessBlock(): EnsureLowS failed"
    | some vchBlockSig => .ok { block with vchBlockSig }

/-- What `ProcessBlock` checks before it looks for the parent, with the block it goes on with. -/
def checkReceived (s : ProcessState) (block : CBlock) : Except Fault CBlock := do
  let hash := P.blockHash block.toCBlockHeader
  rejectIf (s.node.mapBlockIndex hash).isSome 0 "ProcessBlock() : already have block %d %s"
  rejectIf (s.orphans.mapOrphanBlocks hash).isSome 0
    "ProcessBlock() : already have block (orphan) %s"
  rejectIf (!r.fReindex ∧ !r.fImporting ∧ block.isProofOfStake ∧
      block.getProofOfStake ∈ s.node.setStakeSeen ∧ ¬ s.orphans.waits hash) 0
    "ProcessBlock() : duplicate proof-of-stake (%s, %d) for block %s"
  checkBlockTime s.node block
  rejectIf (¬ isCanonicalBlockSignature block false) 0
    "ProcessBlock(): bad block signature encoding"
  let block ← lowSBlock r block
  withText "ProcessBlock() : CheckBlock FAILED" (checkBlock P r.checking block true true true)
  .ok block

/-! ## Orphans -/

/-- The `COrphanBlock` that is made of a block. -/
def orphanOf (block : CBlock) : COrphanBlock where
  hashBlock := P.blockHash block.toCBlockHeader
  hashPrev := block.hashPrevBlock
  stake := block.getProofOfStake
  vchBlock := block

/-- The parent is missing: the block is shunted off to the holding area. -/
def holdBlock (block : CBlock) (s : ProcessState) :
    Option (EStateM.Result Fault ProcessState Unit) :=
  if r.pfrom.isNone then some (.ok () s)
  else if block.isProofOfStake ∧ block.getProofOfStake ∈ s.orphans.setStakeSeenOrphan ∧
      ¬ s.orphans.waits (P.blockHash block.toCBlockHeader) then
    some (.error
      (.rejected 0 "ProcessBlock() : duplicate proof-of-stake (%s, %d) for orphan block %s") s)
  else (pruneOrphanBlocks r s).map fun s ↦
    .ok () { s with orphans := s.orphans.store (orphanOf P block) }

/-! ## Blocks with a parent -/

/-- `block.AcceptBlock()`; an exception goes on. -/
def submit (orphan : Bool) (block : CBlock) : ProcessM Bool := fun s ↦
  match acceptBlock P (r.accepting (P.blockHash block.toCBlockHeader)) block s.node with
  | .ok _ node => .ok true { s with node }
  | .error (.rejected _ _) node =>
    .ok false ({ s with node }.happened (.refused (P.blockHash block.toCBlockHeader)
      orphan ((s.node.mapBlockIndex (P.blockHash block.toCBlockHeader)).isNone &&
        (node.mapBlockIndex (P.blockHash block.toCBlockHeader)).isSome)
      (decide (s.orphans.waits (P.blockHash block.toCBlockHeader)))))
  | .error e node => .error e { s with node }

/-- An orphan is erased after it was submitted. -/
def forgetOrphan (o : COrphanBlock) : ProcessM Unit := fun s ↦
  .ok () ({ s with orphans := s.orphans.forget o }.happened
    (.erased o.hashBlock (decide (s.orphans.hasTwin o))))

/-- The orphans of one parent; those whose blocks are accepted are to be worked on. -/
def processRange : List (UInt256 × COrphanBlock) → ProcessM (List UInt256)
  | [] => pure []
  | e :: range => do
    let accepted ← submit P r true e.2.vchBlock
    forgetOrphan e.2
    let vWorkQueue ← processRange range
    pure (if accepted then e.2.hashBlock :: vWorkQueue else vWorkQueue)

/-- One round of the loop over `vWorkQueue`: what it pushes. -/
def processParent (hashPrev : UInt256) : ProcessM (List UInt256) := do
  let pushed ← fun s ↦ processRange P r (s.orphans.range hashPrev) s
  fun s ↦ .ok pushed { s with orphans := s.orphans.eraseRange hashPrev }

/-- The loop over `vWorkQueue`; an orphan is pushed once at most, which bounds the rounds. -/
def processQueue : ℕ → List UInt256 → ProcessM Unit
  | 0, _ => pure ()
  | _ + 1, [] => pure ()
  | n + 1, hashPrev :: vWorkQueue => do
    let pushed ← processParent P r hashPrev
    processQueue n (vWorkQueue ++ pushed)

/-- Recursively process any orphan blocks that depended on this one. -/
def processOrphans (hash : UInt256) (accepted : Bool) : ProcessM Unit := fun s ↦
  if accepted then processQueue P r (s.orphans.mapOrphanBlocksByPrev.length + 1) [hash] s
  else .error (.rejected 0 "ProcessBlock() : AcceptBlock FAILED") s

/-- The parent is there: the block is accepted, and then the orphans that depend on it. -/
def acceptReceived (block : CBlock) : ProcessM Unit :=
  submit P r false block >>= processOrphans P r (P.blockHash block.toCBlockHeader)

/-- `ProcessBlock(pfrom, pblock)`; `none` when it does not return. -/
def processBlock (block : CBlock) (s : ProcessState) :
    Option (EStateM.Result Fault ProcessState Unit) :=
  match checkReceived P r s block with
  | .error e => some (.error e s)
  | .ok block =>
    if (s.node.mapBlockIndex block.hashPrevBlock).isNone then holdBlock P r block s
    else some (acceptReceived P r block s)

end

/-- The runs of a node that receives blocks and loose transactions, from the genesis block on: the
states between two calls. -/
inductive Receives (P : Params) (genesis : CBlock) : ProcessState → Prop
  | start {node : NodeState} (h : Run P genesis (fun _ _ _ _ ↦ True) [] node) :
    Receives P genesis ⟨node, .empty, []⟩
  | block {s : ProcessState} (h : Receives P genesis s) (r : Receipt) (block : CBlock)
      {result : EStateM.Result Fault ProcessState Unit}
      (returns : processBlock P r block s = some result) :
    Receives P genesis (Exec.final result)
  | tx {s : ProcessState} (h : Receives P genesis s) (w : World) (tx : CTransaction)
      (fLimitFree : Bool) :
    Receives P genesis { s with node := s.node.step P w (.tx tx fLimitFree) }

end Bws
