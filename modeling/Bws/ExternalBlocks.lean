import Bws.Lib.Window
import Bws.Orphans
import Bws.Serialize
import Bws.SigHash

/-!
# Loading blocks from an external file

`LoadExternalBlockFile` looks for the message start through overlapping windows, reads what follows
it and hands it to `ProcessBlock`.  It goes on behind a block that is accepted, and right behind the
message start where the size is out of range or the block is refused.

A block that cannot be read throws, and the handler stands outside of the loop: what comes behind is
lost (`handsAll_iff`).  The position is an `unsigned int`, so that a file of more than four gigabytes
can be scanned for ever (`importFrom_endless`).
-/

namespace Bws

open Window

/-! ## Blocks on disk -/

def CTxIn.diskCodec : Codec CTxIn :=
  (COutPoint.codec.prod (stringCodec.prod (Codec.uint 4))).imap
    (fun r ↦ ⟨r.1, r.2.1, r.2.2⟩) fun txin ↦ (txin.prevout, txin.scriptSig, txin.nSequence)

def CTxOut.diskCodec : Codec CTxOut :=
  ((Codec.int 8).prod stringCodec).imap (fun r ↦ ⟨r.1, r.2⟩)
    fun txout ↦ (txout.nValue, txout.scriptPubKey)

def CTransaction.diskCodec : Codec CTransaction :=
  ((Codec.int 4).prod ((Codec.uint 4).prod ((vectorCodec CTxIn.diskCodec).prod
    ((vectorCodec CTxOut.diskCodec).prod (Codec.uint 4))))).imap
    (fun r ↦ ⟨r.1, r.2.1, r.2.2.1, r.2.2.2.1, r.2.2.2.2⟩)
    fun tx ↦ (tx.nVersion, tx.nTime, tx.vin, tx.vout, tx.nLockTime)

def CBlockHeader.diskCodec : Codec CBlockHeader :=
  ((Codec.int 4).prod ((Codec.uint 32).prod ((Codec.uint 32).prod ((Codec.uint 4).prod
    ((Codec.uint 4).prod (Codec.uint 4)))))).imap
    (fun r ↦ ⟨r.1, r.2.1, r.2.2.1, r.2.2.2.1, r.2.2.2.2.1, r.2.2.2.2.2⟩)
    fun header ↦ (header.nVersion, header.hashPrevBlock, header.hashMerkleRoot, header.nTime,
      header.nBits, header.nNonce)

def CBlock.diskCodec : Codec CBlock :=
  (CBlockHeader.diskCodec.prod ((vectorCodec CTransaction.diskCodec).prod stringCodec)).imap
    (fun r ↦ ⟨r.1, r.2.1, r.2.2⟩) fun block ↦ (block.toCBlockHeader, block.vtx, block.vchBlockSig)

theorem CBlock.length_put_pos (block : CBlock) : 0 < (CBlock.diskCodec.put block).length := by
  have hversion : ((Codec.int 4).put block.nVersion).length = 4 := Codec.length_toLE 4 _
  change 0 < (((Codec.int 4).put block.nVersion ++ _) ++ _).length
  rw [List.length_append, List.length_append, hversion]
  omega

/-! ## The scan -/

/-- The bytes that a record starts with. -/
def messageStart (P : Params) : List UInt8 :=
  if P.testNet then [0x27, 0x12, 0x40, 0x11] else [0x14, 0x21, 0xb6, 0x24]

/-- What stands behind a message start. -/
inductive Record where
  | unreadable
  | outOfRange
  | read (nSize : ℕ) (block : CBlock)
deriving DecidableEq

/-- `blkdat >> nSize` and `blkdat >> block` -/
def readExternal (file : List UInt8) (nPos : ℕ) : Record :=
  match (Codec.uint 4).get (file.drop nPos) with
  | none => .unreadable
  | some (nSize, bytes) =>
    if 0 < nSize ∧ nSize ≤ MAX_BLOCK_SIZE then
      match CBlock.diskCodec.get bytes with
      | none => .unreadable
      | some (block, _) => .read nSize block
    else .outOfRange

/-- A block that has been handed to `ProcessBlock`, with the position of its message start. -/
structure Handed where
  nPos : ℕ
  nSize : ℕ
  block : CBlock
  fAccepted : Bool

structure ImportState where
  nPos : ℕ
  node : ProcessState
  /-- history, the oldest call first -/
  handed : List Handed

namespace ImportState

/-- A call of `ProcessBlock` with the block that is read at a message start. -/
def hand (s : ImportState) (nPos nSize : ℕ) (block : CBlock) (fAccepted : Bool)
    (node : ProcessState) : ImportState where
  nPos := s.nPos
  node := node
  handed := s.handed ++ [⟨nPos, nSize, block, fAccepted⟩]

/-- The position is moved. -/
def seek (s : ImportState) (nPos : ℕ) : ImportState := { s with nPos }

end ImportState

/-- What one look at the file comes to; `thrown` has the position of the message start behind which
there was an exception. -/
inductive ImportStep where
  | ended (s : ImportState)
  | thrown (nPos : ℕ) (s : ImportState)
  | on (s : ImportState)
  | stuck

section

variable (P : Params) (receipt : ℕ → Receipt) (file : List UInt8)

/-- The inner loop goes on behind a window, the outer one behind a message start or behind a block. -/
def importStep (s : ImportState) : ImportStep :=
  match look ((messageStart P).headD 0) (messageStart P).tail 65536 8 file s.nPos with
  | .ended => .ended s
  | .missed nPos => .on (s.seek (nPos % 2 ^ 32))
  | .found nFind =>
    let nPos := (nFind + 4) % 2 ^ 32
    if nPos = uintMax then .ended s
    else
      match readExternal file nPos with
      | .unreadable => .thrown nFind s
      | .outOfRange => .on (s.seek nPos)
      | .read nSize block =>
        match processBlock P { receipt s.handed.length with pfrom := none } block s.node with
        | none => .stuck
        | some (.ok () node) =>
          let s := s.hand nFind nSize block true node
          let nPos := (nPos + (4 + nSize)) % 2 ^ 32
          if nPos = uintMax then .ended s else .on (s.seek nPos)
        | some (.error (.rejected _ _) node) =>
          .on ((s.hand nFind nSize block false node).seek nPos)
        | some (.error _ node) => .thrown nFind (s.hand nFind nSize block false node)

/-- The loops, from a state on. -/
def importFrom : ℕ → ImportState → Option ImportState
  | 0, _ => none
  | fuel + 1, s =>
    match importStep P receipt file s with
    | .ended s => some s
    | .thrown _ s => some s
    | .on s => importFrom fuel s
    | .stuck => none

/-- `LoadExternalBlockFile`: what it returns, and the state that it leaves. -/
def loadExternalBlockFile (node : ProcessState) (fuel : ℕ) : Option (Bool × ImportState) :=
  (importFrom P receipt file fuel ⟨0, node, []⟩).map fun s ↦ (s.handed.any Handed.fAccepted, s)

/-! ## What the scan is for -/

/-- A well-formed record: a message start, a size, and a block of that size. -/
def IsRecord (nPos : ℕ) (block : CBlock) : Prop :=
  CBlock.diskCodec.Valid block ∧ (CBlock.diskCodec.put block).length ≤ MAX_BLOCK_SIZE ∧
    messageStart P ++ ((Codec.uint 4).put (CBlock.diskCodec.put block).length ++
      CBlock.diskCodec.put block) <+: file.drop nPos

/-- The scan ends, and has handed over every well-formed record that does not overlap an earlier one
which was accepted. -/
def HandsAll (node : ProcessState) : Prop :=
  ∃ fuel fLoaded s, loadExternalBlockFile P receipt file node fuel = some (fLoaded, s) ∧
    ∀ nPos block, IsRecord P file nPos block →
      (∀ h ∈ s.handed, h.fAccepted → h.nPos < nPos → h.nPos + 8 + h.nSize ≤ nPos) →
        ∃ h ∈ s.handed, h.nPos = nPos ∧ h.block = block

/-- The states that the scan goes through. -/
inductive Visits (node : ProcessState) : ImportState → Prop where
  | start : Visits node ⟨0, node, []⟩
  | step {s s' : ImportState} : Visits node s → importStep P receipt file s = .on s' → Visits node s'

/-- The next position is one that the `unsigned int` can hold, and is not the one that stands for the
end. -/
structure PosFits (s : ImportState) : Prop where
  missed : ∀ nPos, look ((messageStart P).headD 0) (messageStart P).tail 65536 8 file s.nPos =
    .missed nPos → nPos < 2 ^ 32
  found : ∀ nFind, look ((messageStart P).headD 0) (messageStart P).tail 65536 8 file s.nPos =
    .found nFind → nFind + 4 < uintMax ∧ ∀ nSize block node,
      readExternal file (nFind + 4) = .read nSize block →
        processBlock P { receipt s.handed.length with pfrom := none } block s.node =
          some (.ok () node) → nFind + 8 + nSize < uintMax

/-- No well-formed record stands behind a message start at which there is an exception. -/
def NoneLost (node : ProcessState) : Prop :=
  ∀ s, Visits P receipt file node s → ∀ nFind s', importStep P receipt file s = .thrown nFind s' →
    ∀ nPos block, IsRecord P file nPos block → nPos ≤ nFind

end

/-! ## Records -/

section

variable {P : Params} {file : List UInt8}

theorem messageStart_eq (P : Params) :
    (messageStart P).headD 0 :: (messageStart P).tail = messageStart P := by
  unfold messageStart
  split <;> rfl

theorem length_tail_messageStart (P : Params) : (messageStart P).tail.length = 3 := by
  unfold messageStart
  split <;> rfl

theorem head_notMem_messageStart (P : Params) :
    (messageStart P).headD 0 ∉ (messageStart P).tail := by
  unfold messageStart
  split <;> decide

/-- A message start stands at a position. -/
def StartsAt (P : Params) (file : List UInt8) (nPos : ℕ) : Prop :=
  Occurs ((messageStart P).headD 0) (messageStart P).tail file nPos

theorem IsRecord.startsAt {nPos : ℕ} {block : CBlock} (h : IsRecord P file nPos block) :
    StartsAt P file nPos := by
  rw [StartsAt, Occurs, messageStart_eq]
  exact (List.prefix_append _ _).trans h.2.2

/-- There is more behind a record than what ends the scan. -/
theorem IsRecord.add_lt {nPos : ℕ} {block : CBlock} (h : IsRecord P file nPos block) :
    nPos + 8 < file.length := by
  have hle := h.2.2.length_le
  have hpos := block.length_put_pos
  have hstart : (messageStart P).length = 4 := by
    rw [← messageStart_eq, List.length_cons, length_tail_messageStart]
  have hsize : ((Codec.uint 4).put (CBlock.diskCodec.put block).length).length = 4 :=
    Codec.length_toLE 4 _
  rw [List.length_drop, List.length_append, List.length_append, hstart, hsize] at hle
  omega

/-- A record can be read. -/
theorem IsRecord.readExternal {nPos : ℕ} {block : CBlock} (h : IsRecord P file nPos block) :
    ∃ nSize, readExternal file (nPos + 4) = .read nSize block := by
  obtain ⟨hvalid, hmax, rest, hrest⟩ := h
  have hstart : (messageStart P).length = 4 := by
    rw [← messageStart_eq, List.length_cons, length_tail_messageStart]
  have hdrop : file.drop (nPos + 4) =
      (Codec.uint 4).put (CBlock.diskCodec.put block).length ++
        (CBlock.diskCodec.put block ++ rest) := by
    rw [← List.drop_drop, ← hrest, List.append_assoc, ← hstart, List.drop_left, List.append_assoc]
  have hsize : (Codec.uint 4).Valid (CBlock.diskCodec.put block).length :=
    hmax.trans_lt (by decide)
  refine ⟨(CBlock.diskCodec.put block).length, ?_⟩
  rw [Bws.readExternal, hdrop, (Codec.uint 4).get_put hsize]
  dsimp only
  rw [if_pos ⟨block.length_put_pos, hmax⟩, CBlock.diskCodec.get_put hvalid]

end

/-! ## Steps -/

section

variable {P : Params} {receipt : ℕ → Receipt} {file : List UInt8} {node : ProcessState}
  {s s' : ImportState}

/-- Without a node that has sent the block, `ProcessBlock` returns. -/
theorem processBlock_ne_none (r : Receipt) (block : CBlock) :
    processBlock P { r with pfrom := none } block node ≠ none := by
  unfold processBlock holdBlock
  split
  · exact Option.some_ne_none _
  · split
    · exact (if_pos rfl).trans_ne (Option.some_ne_none _)
    · exact Option.some_ne_none _

/-- What a look comes to when the position fits: the end, a window without a message start, or the
first message start, with what is read behind it. -/
theorem importStep_cases (hfits : PosFits P receipt file s) {r : ImportStep}
    (hstep : importStep P receipt file s = r) :
    (r = .ended s ∧ file.length ≤ s.nPos + 8) ∨
    (∃ nPos, r = .on (s.seek nPos) ∧ s.nPos < file.length ∧ s.nPos < nPos ∧
      ∀ q, s.nPos ≤ q → q < nPos → ¬ StartsAt P file q) ∨
    ∃ nFind, FirstFrom ((messageStart P).headD 0) (messageStart P).tail file s.nPos nFind ∧
      (r = .thrown nFind s ∧ readExternal file (nFind + 4) = .unreadable ∨
        r = .on (s.seek (nFind + 4)) ∧ readExternal file (nFind + 4) = .outOfRange ∨
        ∃ nSize block node, readExternal file (nFind + 4) = .read nSize block ∧
          (r = .thrown nFind (s.hand nFind nSize block false node) ∨
            r = .on ((s.hand nFind nSize block false node).seek (nFind + 4)) ∨
            r = .on ((s.hand nFind nSize block true node).seek (nFind + 8 + nSize)))) := by
  subst hstep
  have hwidth : (messageStart P).tail.length < 65536 := by
    rw [length_tail_messageStart]
    decide
  have hmax : uintMax < 2 ^ 32 := by decide
  unfold importStep
  cases hlook : look ((messageStart P).headD 0) (messageStart P).tail 65536 8 file s.nPos with
  | ended =>
    have hle := look_ended hlook
    exact Or.inl ⟨rfl, by omega⟩
  | missed nPos =>
    obtain ⟨hleft, hlt, -, hnone⟩ := look_missed hwidth hlook
    refine Or.inr (Or.inl ⟨nPos, ?_, by omega, hlt, hnone⟩)
    dsimp only
    rw [Nat.mod_eq_of_lt (hfits.missed nPos hlook)]
  | found nFind =>
    obtain ⟨-, hfirst⟩ := look_found hlook
    obtain ⟨hfit, hnext⟩ := hfits.found nFind hlook
    refine Or.inr (Or.inr ⟨nFind, hfirst, ?_⟩)
    dsimp only
    rw [Nat.mod_eq_of_lt (hfit.trans hmax), if_neg hfit.ne]
    cases hread : readExternal file (nFind + 4) with
    | unreadable => exact Or.inl ⟨rfl, rfl⟩
    | outOfRange => exact Or.inr (Or.inl ⟨rfl, rfl⟩)
    | read nSize block =>
      refine Or.inr (Or.inr ⟨nSize, block, ?_⟩)
      dsimp only
      cases hprocess :
          processBlock P { receipt s.handed.length with pfrom := none } block s.node with
      | none => exact absurd hprocess (processBlock_ne_none _ block)
      | some result =>
        cases result with
        | ok _ node =>
          have hlt := hnext nSize block node hread hprocess
          have hsum : nFind + 4 + (4 + nSize) = nFind + 8 + nSize := by omega
          refine ⟨node, rfl, Or.inr (Or.inr ?_)⟩
          dsimp only
          rw [hsum, Nat.mod_eq_of_lt (hlt.trans hmax), if_neg hlt.ne]
        | error e node =>
          cases e with
          | rejected nDoS msg => exact ⟨node, rfl, Or.inr (Or.inl rfl)⟩
          | thrown msg => exact ⟨node, rfl, Or.inl rfl⟩

/-! ## What the scan has behind it -/

/-- What has been handed over lies behind the position, and so does no record that should have been
handed over and has not. -/
structure Scanned (P : Params) (file : List UInt8) (s : ImportState) : Prop where
  behind : ∀ h ∈ s.handed, h.nPos < s.nPos ∧ (h.fAccepted → h.nPos + 8 + h.nSize ≤ s.nPos)
  covered : ∀ nPos block, IsRecord P file nPos block → nPos < s.nPos →
    (∀ h ∈ s.handed, h.fAccepted → h.nPos < nPos → h.nPos + 8 + h.nSize ≤ nPos) →
      ∃ h ∈ s.handed, h.nPos = nPos ∧ h.block = block

theorem Scanned.start : Scanned P file ⟨0, node, []⟩ where
  behind := nofun
  covered _ _ _ hlt := absurd hlt (Nat.not_lt_zero _)

/-- The position moves over bytes in which no record starts. -/
theorem Scanned.seek (h : Scanned P file s) {nPos : ℕ} (hlt : s.nPos < nPos)
    (hnone : ∀ q block, s.nPos ≤ q → q < nPos → ¬ IsRecord P file q block) :
    Scanned P file (s.seek nPos) where
  behind e he := by
    obtain ⟨hbefore, hend⟩ := h.behind e he
    exact ⟨hbefore.trans hlt, fun hacc ↦ (hend hacc).trans hlt.le⟩
  covered q block hrecord hq happart := by
    refine h.covered q block hrecord ?_ happart
    by_contra hle
    exact hnone q block (not_lt.mp hle) hq hrecord

/-- A block is handed over, and the position moves behind its message start, or behind the block when
it is accepted. -/
theorem Scanned.hand (h : Scanned P file s) {nFind nPos nSize : ℕ} {block : CBlock}
    {fAccepted : Bool} (hle : s.nPos ≤ nFind)
    (hnone : ∀ q block, s.nPos ≤ q → q < nFind → ¬ IsRecord P file q block)
    (hread : readExternal file (nFind + 4) = .read nSize block) (hlt : nFind < nPos)
    (hend : fAccepted = true → nPos = nFind + 8 + nSize)
    (hinside : ∀ q block, nFind < q → q < nPos → fAccepted = false → ¬ IsRecord P file q block) :
    Scanned P file ((s.hand nFind nSize block fAccepted node).seek nPos) where
  behind e he := by
    rcases List.mem_append.mp he with he | he
    · obtain ⟨hbefore, hend'⟩ := h.behind e he
      exact ⟨hbefore.trans (hle.trans_lt hlt), fun hacc ↦ (hend' hacc).trans (hle.trans hlt.le)⟩
    · rw [List.mem_singleton.mp he]
      exact ⟨hlt, fun hacc ↦ (hend hacc).ge⟩
  covered q block' hrecord hq happart := by
    have hnew : (⟨nFind, nSize, block, fAccepted⟩ : Handed) ∈
        ((s.hand nFind nSize block fAccepted node).seek nPos).handed :=
      List.mem_append_right _ (List.mem_singleton_self _)
    obtain hbefore | rfl | hafter := lt_trichotomy q nFind
    · have hq' : q < s.nPos := by
        by_contra hge
        exact hnone q block' (not_lt.mp hge) hbefore hrecord
      obtain ⟨e, he, heq⟩ := h.covered q block' hrecord hq' fun e he ↦
        happart e (List.mem_append_left _ he)
      exact ⟨e, List.mem_append_left _ he, heq⟩
    · obtain ⟨nSize', hread'⟩ := hrecord.readExternal
      cases hread.symm.trans hread'
      exact ⟨_, hnew, rfl, rfl⟩
    · exfalso
      cases fAccepted with
      | false => exact hinside q block' hafter hq rfl hrecord
      | true =>
        have hle' := happart _ hnew rfl hafter
        have heq := hend rfl
        have hq' : q < nPos := hq
        dsimp only at hle'
        omega

theorem Scanned.step (h : Scanned P file s) (hfits : PosFits P receipt file s)
    (hstep : importStep P receipt file s = .on s') : Scanned P file s' := by
  obtain ⟨⟨⟩, -⟩ | ⟨nPos, ⟨⟩, -, hlt, hnone⟩ | ⟨nFind, hfirst, hfound⟩ :=
    importStep_cases hfits hstep
  · exact h.seek hlt fun q block hle hq hrecord ↦ hnone q hle hq hrecord.startsAt
  · have hbefore : ∀ q block, s.nPos ≤ q → q < nFind → ¬ IsRecord P file q block :=
      fun q block hle hq hrecord ↦ hfirst.first q hle hq hrecord.startsAt
    have hnear : ∀ q block, nFind < q → q < nFind + 4 → ¬ IsRecord P file q block := by
      intro q block hq hnear hrecord
      have hapart := hfirst.occurs.apart (head_notMem_messageStart P) hrecord.startsAt hq
      rw [length_tail_messageStart] at hapart
      omega
    have hle := hfirst.le
    obtain ⟨⟨⟩, -⟩ | ⟨⟨⟩, hread⟩ | ⟨nSize, block, node, hread, ⟨⟨⟩⟩ | ⟨⟨⟩⟩ | ⟨⟨⟩⟩⟩ := hfound
    · refine h.seek (by omega) fun q block hge hq hrecord ↦ ?_
      obtain hq' | rfl | hq' := lt_trichotomy q nFind
      · exact hbefore q block hge hq' hrecord
      · obtain ⟨nSize, hread'⟩ := hrecord.readExternal
        rw [hread] at hread'
        cases hread'
      · exact hnear q block hq' hq hrecord
    · exact h.hand hle hbefore hread (by omega) nofun fun q block hq hq' _ ↦ hnear q block hq hq'
    · exact h.hand hle hbefore hread (by omega) (fun _ ↦ rfl) nofun

theorem Visits.scanned (hfits : ∀ s, Visits P receipt file node s → PosFits P receipt file s)
    (h : Visits P receipt file node s) : Scanned P file s := by
  induction h with
  | start => exact .start
  | step hvisits hstep ih => exact ih.step (hfits _ hvisits) hstep

/-! ## Runs -/

/-- What a run ends with does not depend on how far it may go. -/
theorem importFrom_unique {fuel : ℕ} : ∀ {fuel' : ℕ} {s r r' : ImportState},
    importFrom P receipt file fuel s = some r → importFrom P receipt file fuel' s = some r' →
      r = r' := by
  induction fuel with
  | zero => exact fun h ↦ nomatch h
  | succ fuel ih =>
    intro fuel' s r r' h h'
    cases fuel' with
    | zero => cases h'
    | succ fuel' =>
      rw [importFrom] at h h'
      cases hstep : importStep P receipt file s with
      | ended s₁ =>
        rw [hstep] at h h'
        exact (Option.some.inj h).symm.trans (Option.some.inj h')
      | thrown nFind s₁ =>
        rw [hstep] at h h'
        exact (Option.some.inj h).symm.trans (Option.some.inj h')
      | on s₁ =>
        rw [hstep] at h h'
        exact ih h h'
      | stuck =>
        rw [hstep] at h
        cases h

/-- A run from a state that the scan goes through is the end of the run from the start. -/
theorem Visits.importFrom (h : Visits P receipt file node s) {fuel : ℕ} {r : ImportState}
    (hrun : importFrom P receipt file fuel s = some r) :
    ∃ fuel', Bws.importFrom P receipt file fuel' ⟨0, node, []⟩ = some r := by
  induction h generalizing fuel with
  | start => exact ⟨fuel, hrun⟩
  | step _ hstep ih =>
    refine ih (show Bws.importFrom P receipt file (fuel + 1) _ = some r from ?_)
    rw [Bws.importFrom, hstep]
    exact hrun

/-- A look that goes on moves the position forward, from one that lies in the file. -/
theorem importStep_forward (hfits : PosFits P receipt file s)
    (hstep : importStep P receipt file s = .on s') : s.nPos < file.length ∧ s.nPos < s'.nPos := by
  obtain ⟨⟨⟩, -⟩ | ⟨nPos, ⟨⟩, hleft, hlt, -⟩ | ⟨nFind, hfirst, hfound⟩ :=
    importStep_cases hfits hstep
  · exact ⟨hleft, hlt⟩
  · have hle := hfirst.le
    have hlen := hfirst.occurs.length_le
    have hnext : nFind < s'.nPos := by
      obtain ⟨⟨⟩, -⟩ | ⟨⟨⟩, -⟩ | ⟨nSize, block, node, -, ⟨⟨⟩⟩ | ⟨⟨⟩⟩ | ⟨⟨⟩⟩⟩ := hfound
      · exact Nat.lt_add_of_pos_right (by decide)
      · exact Nat.lt_add_of_pos_right (by decide)
      · exact (Nat.lt_add_of_pos_right (by decide)).trans_le (Nat.le_add_right _ nSize)
    exact ⟨by omega, by omega⟩

/-- The run ends with a look that goes no further. -/
theorem Visits.ends (hfits : ∀ s, Visits P receipt file node s → PosFits P receipt file s)
    (h : Visits P receipt file node s) :
    ∃ fuel last r, Visits P receipt file node last ∧
      Bws.importFrom P receipt file fuel s = some r ∧
      (r = last ∧ file.length ≤ last.nPos + 8 ∨
        ∃ nFind, importStep P receipt file last = .thrown nFind r) := by
  induction hleft : file.length - s.nPos using Nat.strong_induction_on generalizing s with
  | _ n ih =>
    cases hstep : importStep P receipt file s with
    | ended r =>
      refine ⟨1, s, r, h, by rw [Bws.importFrom, hstep], Or.inl ?_⟩
      obtain ⟨⟨⟩, hle⟩ | ⟨nPos, ⟨⟩, -⟩ | ⟨nFind, -, ⟨⟨⟩, -⟩ | ⟨⟨⟩, -⟩ |
        ⟨nSize, block, node, -, ⟨⟨⟩⟩ | ⟨⟨⟩⟩ | ⟨⟨⟩⟩⟩⟩ := importStep_cases (hfits s h) hstep
      exact ⟨rfl, hle⟩
    | thrown nFind r =>
      exact ⟨1, s, r, h, by rw [Bws.importFrom, hstep], Or.inr ⟨nFind, hstep⟩⟩
    | on s' =>
      obtain ⟨hinside, hlt⟩ := importStep_forward (hfits s h) hstep
      obtain ⟨fuel, last, r, hlast, hrun, hends⟩ := ih _ (by omega) (h.step hstep) rfl
      exact ⟨fuel + 1, last, r, hlast, by rw [Bws.importFrom, hstep]; exact hrun, hends⟩
    | stuck =>
      obtain ⟨⟨⟩, -⟩ | ⟨nPos, ⟨⟩, -⟩ | ⟨nFind, -, ⟨⟨⟩, -⟩ | ⟨⟨⟩, -⟩ |
        ⟨nSize, block, node, -, ⟨⟨⟩⟩ | ⟨⟨⟩⟩ | ⟨⟨⟩⟩⟩⟩ := importStep_cases (hfits s h) hstep

/-- An exception behind a message start leaves everything up to there behind. -/
theorem Scanned.thrown (h : Scanned P file s) (hfits : PosFits P receipt file s) {nFind : ℕ}
    {r : ImportState} (hstep : importStep P receipt file s = .thrown nFind r) :
    Scanned P file (r.seek (nFind + 1)) := by
  obtain ⟨⟨⟩, -⟩ | ⟨nPos, ⟨⟩, -⟩ | ⟨nFind, hfirst, hfound⟩ := importStep_cases hfits hstep
  have hle := hfirst.le
  have hbefore : ∀ q block, s.nPos ≤ q → q < nFind → ¬ IsRecord P file q block :=
    fun q block hle hq hrecord ↦ hfirst.first q hle hq hrecord.startsAt
  obtain ⟨⟨⟩, hread⟩ | ⟨⟨⟩, -⟩ | ⟨nSize, block, node, hread, ⟨⟨⟩⟩ | ⟨⟨⟩⟩ | ⟨⟨⟩⟩⟩ := hfound
  · refine h.seek (by omega) fun q block hge hq hrecord ↦ ?_
    obtain hq' | rfl : q < nFind ∨ q = nFind := by omega
    · exact hbefore q block hge hq' hrecord
    · obtain ⟨nSize, hread'⟩ := hrecord.readExternal
      rw [hread] at hread'
      cases hread'
  · exact h.hand hle hbefore hread (by omega) nofun fun q block hq hq' _ ↦ by omega

/-! ## Which files are scanned to their end -/

theorem readExternal_le {nPos nSize : ℕ} {block : CBlock}
    (h : readExternal file nPos = .read nSize block) : nSize ≤ MAX_BLOCK_SIZE := by
  unfold readExternal at h
  split at h
  · cases h
  · split at h
    · rename_i hrange
      split at h
      · cases h
      · cases h
        exact hrange.2
    · cases h

/-- In a file that is shorter by a block than four gigabytes, the position always fits. -/
theorem fits_of_length (hlen : file.length + MAX_BLOCK_SIZE + 8 < uintMax) (s : ImportState) :
    PosFits P receipt file s := by
  have hmax : MAX_BLOCK_SIZE = 1000000 := rfl
  have huint : uintMax = 4294967295 := rfl
  have htail := length_tail_messageStart P
  refine ⟨fun nPos h ↦ ?_, fun nFind h ↦ ?_⟩
  · obtain ⟨hleft, -, hle, -⟩ := look_missed (by omega) h
    omega
  · have hinside := (look_found h).2.occurs.length_le
    refine ⟨by omega, fun nSize block node hread _ ↦ ?_⟩
    have hle := readExternal_le hread
    omega

/-- A file of four gigabytes without a message start is scanned for ever. -/
theorem importFrom_endless (hlong : 2 ^ 32 + 8 ≤ file.length) (hnone : ∀ q, ¬ StartsAt P file q)
    {fuel : ℕ} : ∀ {s : ImportState}, s.nPos < 2 ^ 32 →
      importFrom P receipt file fuel s = none := by
  induction fuel with
  | zero => exact fun _ ↦ rfl
  | succ fuel ih =>
    intro s hs
    rw [importFrom, importStep]
    cases hlook : look ((messageStart P).headD 0) (messageStart P).tail 65536 8 file s.nPos with
    | ended =>
      have hle := look_ended hlook
      omega
    | missed nPos => exact ih (Nat.mod_lt _ (by decide))
    | found nFind => exact absurd (look_found hlook).2.occurs (hnone nFind)

/-- Where the position fits, the scan ends, and hands over all well-formed records that do not
overlap accepted ones if and only if none stands behind an exception. -/
theorem handsAll_iff (hfits : ∀ s, Visits P receipt file node s → PosFits P receipt file s) :
    HandsAll P receipt file node ↔ NoneLost P receipt file node := by
  constructor
  · rintro ⟨fuel, fLoaded, r, hload, hhands⟩ s hvisits nFind r' hthrown nPos block hrecord
    obtain ⟨r'', hrun, heq⟩ := Option.map_eq_some_iff.mp hload
    obtain ⟨-, rfl⟩ := Prod.mk.inj heq
    -- the run ends at the exception
    have hone : importFrom P receipt file 1 s = some r' := by rw [importFrom, hthrown]
    obtain ⟨fuel', hrun'⟩ := hvisits.importFrom hone
    obtain rfl := importFrom_unique hrun hrun'
    have hscanned := (hvisits.scanned hfits).thrown (hfits s hvisits) hthrown
    by_contra hbehind
    obtain ⟨e, he, heq, -⟩ := hhands nPos block hrecord fun e he hacc _ ↦ by
      have hend := (hscanned.behind e he).2 hacc
      change _ ≤ nFind + 1 at hend
      omega
    have hlt := (hscanned.behind e he).1
    change _ < nFind + 1 at hlt
    omega
  · intro hlost
    have hstart : Visits P receipt file node ⟨0, node, []⟩ := .start
    obtain ⟨fuel, last, r, hlast, hrun, ⟨rfl, hleft⟩ | ⟨nFind, hthrown⟩⟩ := hstart.ends hfits
    · refine ⟨fuel, _, r, Option.map_eq_some_iff.mpr ⟨r, hrun, rfl⟩,
        fun nPos block hrecord happart ↦ ?_⟩
      have hinside := hrecord.add_lt
      exact (hlast.scanned hfits).covered nPos block hrecord (by omega) happart
    · refine ⟨fuel, _, r, Option.map_eq_some_iff.mpr ⟨r, hrun, rfl⟩,
        fun nPos block hrecord happart ↦ ?_⟩
      have hscanned := (hlast.scanned hfits).thrown (hfits last hlast) hthrown
      have hle := hlost last hlast nFind r hthrown nPos block hrecord
      exact hscanned.covered nPos block hrecord (Nat.lt_succ_of_le hle) happart

end

namespace Sample

def emptyBlock : CBlock := ⟨⟨7, 0, 0, 0, 0, 0⟩, [], []⟩

/-- A record with a block, and one with bytes that are no block. -/
def goodRecord : List UInt8 :=
  messageStart params ++ ((Codec.uint 4).put (CBlock.diskCodec.put emptyBlock).length ++
    CBlock.diskCodec.put emptyBlock)
def badRecord : List UInt8 :=
  messageStart params ++ ((Codec.uint 4).put 89 ++ (List.replicate 80 0 ++ List.replicate 9 255))

theorem valid_emptyBlock : CBlock.diskCodec.Valid emptyBlock := by
  have hheader : CBlockHeader.diskCodec.Valid emptyBlock.toCBlockHeader :=
    ⟨⟨Codec.valid_int (by decide) (by decide), Nat.zero_lt_succ _, Nat.zero_lt_succ _,
      Nat.zero_lt_succ _, Nat.zero_lt_succ _, Nat.zero_lt_succ _⟩, rfl⟩
  have hvtx : (vectorCodec CTransaction.diskCodec).Valid [] :=
    ⟨⟨Nat.zero_le _, rfl, nofun⟩, rfl⟩
  have hsig : stringCodec.Valid [] := ⟨⟨Nat.zero_le _, rfl⟩, rfl⟩
  exact ⟨⟨hheader, hvtx, hsig⟩, rfl⟩

theorem isRecord_behind (file : List UInt8) :
    IsRecord params (file ++ goodRecord) file.length emptyBlock := by
  refine ⟨valid_emptyBlock, by decide +kernel, ?_⟩
  rw [List.drop_left]
  exact List.prefix_refl goodRecord

/-- The bytes that are no block end the scan. -/
theorem importFrom_badRecord {node : ProcessState} :
    importFrom params (fun _ ↦ receipt) (badRecord ++ goodRecord) 1 ⟨0, node, []⟩ =
      some ⟨0, node, []⟩ := by
  have hlook : look ((messageStart params).headD 0) (messageStart params).tail 65536 8
      (badRecord ++ goodRecord) 0 = .found 0 := by decide +kernel
  have hread : readExternal (badRecord ++ goodRecord) ((0 + 4) % 2 ^ 32) = .unreadable := by
    decide +kernel
  rw [importFrom, importStep, hlook]
  dsimp only
  rw [if_neg (by decide), hread]

/-- The record behind bytes that are no block is never handed over, and a long file of zeros is
scanned for ever. -/
theorem not_handsAll_badRecord :
    ¬ HandsAll params (fun _ ↦ receipt) (badRecord ++ goodRecord) (received []) ∧
      ¬ HandsAll params (fun _ ↦ receipt) (List.replicate (2 ^ 32 + 8) 0) (received []) := by
  constructor
  · rintro ⟨fuel, fLoaded, s, hload, hhands⟩
    obtain ⟨s', hrun, heq⟩ := Option.map_eq_some_iff.mp hload
    obtain ⟨-, rfl⟩ := Prod.mk.inj heq
    obtain rfl := importFrom_unique hrun importFrom_badRecord
    obtain ⟨h, hmem, -⟩ := hhands _ _ (isRecord_behind badRecord) nofun
    exact List.not_mem_nil hmem
  · rintro ⟨fuel, fLoaded, s, hload, -⟩
    obtain ⟨s', hrun, -⟩ := Option.map_eq_some_iff.mp hload
    have hnone : ∀ q, ¬ StartsAt params (List.replicate (2 ^ 32 + 8) 0) q := by
      intro q hstarts
      have hfirst := List.mem_of_getElem? hstarts.getElem?
      exact absurd (List.eq_of_mem_replicate hfirst) (by decide)
    have hlong : 2 ^ 32 + 8 ≤ (List.replicate (2 ^ 32 + 8) (0 : UInt8)).length :=
      List.length_replicate.ge
    rw [importFrom_endless hlong hnone (show (0 : ℕ) < 2 ^ 32 by decide)] at hrun
    cases hrun

end Sample

/-- The scan ends within some steps and without an exception. -/
def endsUnthrown (P : Params) (receipt : ℕ → Receipt) (file : List UInt8) :
    ℕ → ImportState → Bool
  | 0, _ => false
  | n + 1, s =>
    match importStep P receipt file s with
    | .ended _ => true
    | .on s => endsUnthrown P receipt file n s
    | .thrown _ _ | .stuck => false

theorem noneLost_of_endsUnthrown {P : Params} {receipt : ℕ → Receipt} {file : List UInt8}
    {node : ProcessState} {n : ℕ} (hends : endsUnthrown P receipt file n ⟨0, node, []⟩ = true) :
    NoneLost P receipt file node := by
  have hleft : ∀ s, Visits P receipt file node s → ∃ n, endsUnthrown P receipt file n s = true := by
    intro s hvisits
    induction hvisits with
    | start => exact ⟨n, hends⟩
    | step _ hstep ih =>
      obtain ⟨_ | n, hn⟩ := ih
      · cases hn
      · rw [endsUnthrown, hstep] at hn
        exact ⟨n, hn⟩
  intro s hvisits nFind s' hthrown
  obtain ⟨_ | n, hn⟩ := hleft s hvisits
  · cases hn
  · rw [endsUnthrown, hthrown] at hn
    cases hn

namespace Sample

/-- Other bytes, a block that is refused, the first half of a message start, and a block that is
accepted. -/
def mixedFile : List UInt8 :=
  [1, 0x27, 2] ++ goodRecord ++ [0x27, 0x12] ++ messageStart params ++
    ((Codec.uint 4).put (CBlock.diskCodec.put block1).length ++ CBlock.diskCodec.put block1) ++ [9]

end Sample

theorem handsAll_iff_sample :
    HandsAll Sample.params (fun _ ↦ Sample.receipt) Sample.mixedFile (Sample.received []) ∧
      (loadExternalBlockFile Sample.params (fun _ ↦ Sample.receipt) Sample.mixedFile
        (Sample.received []) 5).map (fun r ↦ r.2.handed.map fun h ↦ (h.nPos, h.fAccepted)) =
          some [(3, false), (95, true)] := by
  refine ⟨(handsAll_iff fun s _ ↦ fits_of_length ?_ s).mpr
    (noneLost_of_endsUnthrown (show endsUnthrown Sample.params (fun _ ↦ Sample.receipt)
      Sample.mixedFile 5 ⟨0, Sample.received [], []⟩ = true by decide +kernel)), by decide +kernel⟩
  have hlen : Sample.mixedFile.length < 1000 := by decide +kernel
  have hmax : MAX_BLOCK_SIZE = 1000000 := rfl
  have huint : uintMax = 4294967295 := rfl
  omega

end Bws
