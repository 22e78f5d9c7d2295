import Bws.Reach
import Bws.SpentMarks

/-!
# Taking the wallet's transactions up again

`ReacceptWalletTransactions` walks over `mapWallet` and marks the outputs of ours that the
transaction index records as spent.  A transaction that is not in the index is offered to the memory
pool, which may add transactions to the map that is walked over.  When an output has been found
spent the chain is scanned for the transaction that spends it, and the walk starts again after each
scan that has added something.

A step of the run is the visit of one entry or a scan.  Every run ends and no mark is ever cleared
(`Reaccept.Known.ends`, `Reaccept.Known.marks_of_reaches`).  A generated transaction is passed over
once its first output that can be ours is marked; where the other outputs of the entries passed over
are marked as well, all outputs of ours that the index records as spent are marked when the run
returns (`Reaccept.allSpentMarked`).

The time, the answers of the wallet file and the blocks of the main chain are given from outside.
-/

namespace Bws

/-! ## The source -/

/-- What a run meets: at each moment what the memory pool and the wallet meet, and the main chain
with the times in the block index and what is read of the blocks. -/
structure ReacceptEnv where
  world : ℕ → World
  wallet : ℕ → WalletEnv
  /-- `vtxPrev` of the entries -/
  vtxPrev : UInt256 → List CTransaction
  nTimeFirstKey : ℤ
  chain : List (ℕ × CBlock)

/-- A wallet and its node, with the iterator and the positions of the pass that is running. -/
structure Reaccept where
  wallet : Wallet
  /-- the keys of `mapWallet` in their order -/
  keys : List UInt256
  node : NodeState
  /-- the entry that was visited last -/
  last : Option UInt256
  vMissingTx : List CDiskTxPos
  /-- how often something was met -/
  clock : ℕ

abbrev ReacceptM := EStateM Fault Reaccept

namespace Reaccept

/-- The wallet changes, where at most the entry of `hash` is new. -/
def withWallet (hash : UInt256) (s : Reaccept) (wallet : Wallet) : Reaccept :=
  { s with
    wallet
    keys :=
      if (wallet.mapWallet hash).isSome ∧ hash ∉ s.keys then s.keys.orderedInsert (· ≤ ·) hash
      else s.keys
    clock := s.clock + 1 }

section

variable (W : WalletParams) (E : ReacceptEnv)

/-- The wallet is told of the transaction with the hash `hash`. -/
def tellWallet {α : Type} (hash : UInt256) (x : WalletEnv → WalletM α) : ReacceptM α := fun s ↦
  match x (E.wallet s.clock) s.wallet with
  | .ok a wallet => .ok a (s.withWallet hash wallet)
  | .error e wallet => .error e (s.withWallet hash wallet)

/-- `AcceptToMemoryPool(false)` -/
def accept (tx : CTransaction) : ReacceptM Unit := fun s ↦
  match acceptToMemoryPool W.params (E.world s.clock) s.node tx false with
  | .ok node =>
    tellWallet E (W.params.getHash tx) (fun E ↦ Wallet.syncTransaction W E tx none true)
      { s with node, clock := s.clock + 1 }
  | .error (.rejected _ _) => .ok () { s with clock := s.clock + 1 }
  | .error e => .error e { s with clock := s.clock + 1 }

/-- A round of the loop of `AcceptWalletTransaction`. -/
def acceptPrev (tx : CTransaction) : ReacceptM Unit := fun s ↦
  if tx.isCoinBase ∨ tx.isCoinStake then .ok () s
  else
    let hash := W.params.getHash tx
    if s.node.mempool.exists_ hash || s.node.txdb.fresh.contains (.tx hash) then .ok () s
    else accept W E tx s

def acceptWalletTransaction (vtxPrev : List CTransaction) (tx : CTransaction) : ReacceptM Unit :=
  Exec.forEach (acceptPrev W E) vtxPrev >>= fun _ ↦ accept W E tx

/-- Whether an entry is passed over. -/
def skips (wtx : CWalletTx) : Except Fault Bool :=
  if wtx.isCoinBase then wtx.isSpent 0
  else if wtx.isCoinStake then wtx.isSpent 1
  else .ok false

/-- The loop over `txindex.vSpent`: the entry, and the positions of what spends its outputs. -/
def findSpent : List (CDiskTxPos × ℕ) → CWalletTx → Except Fault (CWalletTx × List CDiskTxPos)
  | [], wtx => .ok (wtx, [])
  | (pos, i) :: vSpent, wtx =>
    match wtx.isSpent i with
    | .error e => .error e
    | .ok true => findSpent vSpent wtx
    | .ok false =>
      if !pos.isNull && wtx.vout[i]?.any fun txout ↦ W.isMine txout.scriptPubKey then
        match wtx.markSpent i with
        | .error e => .error e
        | .ok wtx => (findSpent vSpent wtx).map fun r ↦ (r.1, pos :: r.2)
      else findSpent vSpent wtx

/-- The body of the loop over `mapWallet`. -/
def visit (hash : UInt256) : ReacceptM Unit := fun s ↦
  match s.wallet.mapWallet hash with
  | none => .ok () s
  | some wtx =>
    match skips wtx with
    | .error e => .error e s
    | .ok true => .ok () s
    | .ok false =>
      match s.node.txdb.fresh.readTxIndex (W.params.getHash wtx.toCTransaction) with
      | some txindex =>
        -- "txindex.vSpent.size() %u != wtx.vout.size() %u"
        if txindex.vSpent.length ≠ wtx.vout.length then .ok () s
        else
          match findSpent W txindex.vSpent.zipIdx wtx with
          | .error e => .error e s
          | .ok (wtx, found) =>
            .ok () { s with
              wallet := s.wallet.put hash wtx
              vMissingTx := s.vMissingTx ++ found }
      | none =>
        if wtx.isCoinBase ∨ wtx.isCoinStake then .ok () s
        else acceptWalletTransaction W E (E.vtxPrev hash) wtx.toCTransaction s

/-- The transactions of a block in `ScanForWalletTransactions`, with what was found so far. -/
def scanBlock (block : CBlock) : List CTransaction → ℕ → ReacceptM ℕ
  | [], ret => pure ret
  | tx :: vtx, ret =>
    tellWallet E (W.params.getHash tx)
      (fun E ↦ Wallet.addToWalletIfInvolvingMe W E tx (some block) false) >>= fun added ↦
        scanBlock block vtx (if added then ret + 1 else ret)

/-- A block from before the first key -/
def tooOld (nTime : ℕ) : Prop := E.nTimeFirstKey ≠ 0 ∧ (nTime : ℤ) < E.nTimeFirstKey - 7200

instance decidableTooOld (nTime : ℕ) : Decidable (tooOld E nTime) :=
  inferInstanceAs (Decidable (_ ∧ _))

/-- `ScanForWalletTransactions` without `fUpdate` -/
def scanForWalletTransactions : List (ℕ × CBlock) → ℕ → ReacceptM ℕ
  | [], ret => pure ret
  | (nTime, block) :: chain, ret =>
    if tooOld E nTime then scanForWalletTransactions chain ret
    else scanBlock W E block block.vtx ret >>= fun ret ↦ scanForWalletTransactions chain ret

/-- The iterator after it has moved on. -/
def next (s : Reaccept) : Option UInt256 := s.keys.find? fun hash ↦ s.last.all (· < hash)

/-- How a step ends. -/
inductive Outcome where
  | next (s : Reaccept)
  | returned (s : Reaccept)
  | threw (e : Fault) (s : Reaccept)

/-- A visit, or at the end of a pass what follows it. -/
def step (s : Reaccept) : Outcome :=
  match s.next with
  | some hash =>
    match visit W E hash s with
    | .ok _ s => .next { s with last := some hash }
    | .error e s => .threw e s
  | none =>
    if s.vMissingTx.isEmpty then .returned s
    else
      match scanForWalletTransactions W E E.chain 0 s with
      | .ok ret s =>
        if ret ≠ 0 then .next { s with last := none, vMissingTx := [] } else .returned s
      | .error e s => .threw e s

/-- The states that a run comes through. -/
def Reaches : Reaccept → Reaccept → Prop :=
  Relation.ReflTransGen fun s s' ↦ step W E s = .next s'

def Outcome.state : Outcome → Reaccept
  | .next s | .returned s | .threw _ s => s

/-! ## What is to hold -/

/-- The index records the output `o` as spent. -/
def IndexSpent (s : Reaccept) (o : COutPoint) : Prop :=
  ∃ txindex, s.node.txdb.fresh.readTxIndex o.hash = some txindex ∧
    ∃ pos, txindex.vSpent[o.n]? = some pos ∧ pos.isNull = false

/-- An output of ours that the index records as spent. -/
def Due (s : Reaccept) (o : COutPoint) : Prop := s.wallet.Mine W o ∧ s.IndexSpent o

/-- The index has a slot for each output of `tx`, if it has `tx`. -/
def Sized (s : Reaccept) (tx : CTransaction) : Prop :=
  ∀ txindex, s.node.txdb.fresh.readTxIndex (W.params.getHash tx) = some txindex →
    txindex.vSpent.length = tx.vout.length

/-- `keys` are the keys of `mapWallet` in their order. -/
def Listed (s : Reaccept) : Prop :=
  s.keys.Pairwise (· ≤ ·) ∧ ∀ hash, hash ∈ s.keys ↔ (s.wallet.mapWallet hash).isSome

def InChain (tx : CTransaction) : Prop := ∃ block ∈ E.chain, tx ∈ block.2.vtx

/-- The transactions that a scan of `chain` comes to. -/
def scannedIn (chain : List (ℕ × CBlock)) : List CTransaction :=
  chain.flatMap fun block ↦ if tooOld E block.1 then [] else block.2.vtx

/-- A run starts. -/
structure Starts (s : Reaccept) : Prop where
  last : s.last = none
  vMissingTx : s.vMissingTx = []
  listed : s.Listed
  keyed : s.wallet.Keyed W
  vtxPrev : ∀ hash, s.wallet.mapWallet hash = none → E.vtxPrev hash = []
  sized : ∀ {hash tx}, s.wallet.tx? hash = some tx → s.Sized W tx
  sizedChain : ∀ {tx}, InChain E tx → s.Sized W tx

/-- A generated transaction that is passed over has no output that is due and unmarked, and what a
scan cannot write has no output of ours that the index records as spent. -/
structure Good (s : Reaccept) : Prop where
  visit : ∀ hash wtx, s.next = some hash → s.wallet.mapWallet hash = some wtx →
    skips wtx = .ok true → ∀ n, s.Due W ⟨hash, n⟩ → s.wallet.Marked ⟨hash, n⟩
  scan : s.next = none → s.vMissingTx ≠ [] → ∀ i tx, (scannedIn E E.chain)[i]? = some tx →
    (E.wallet (s.clock + i)).writeToDisk = false → ∀ n txout, tx.vout[n]? = some txout →
      W.isMine txout.scriptPubKey = true → ¬ s.IndexSpent ⟨W.params.getHash tx, n⟩

end

end Reaccept

/-! ## Which entries are new -/

namespace Wallet

variable {W : WalletParams} {s s' : Wallet}

/-- The entries have the same transactions. -/
def SameTx (s s' : Wallet) : Prop := s'.tx? = s.tx?

instance sameTx_isFrame : Exec.IsFrame SameTx where
  refl _ := rfl
  trans h h' := Eq.trans h' h

theorem sameTx_store {hash : UInt256} {wtx : CWalletTx} (hget : s.mapWallet hash = some wtx)
    (fSpent : Bool) (msg : String) (n : ℕ) :
    SameTx s (Exec.final (store hash (wtx.setSpent fSpent msg n) s)) := by
  cases hset : wtx.setSpent fSpent msg n with
  | error e => rfl
  | ok wtx' => exact tx?_put_of_some hget (isSpent_setSpent hset).2.1

theorem sameTx_updateInput (txin : CTxIn) : Exec.Keeps SameTx (updateInput W txin) := by
  intro s
  unfold updateInput
  cases hget : s.mapWallet txin.prevout.hash with
  | none => rfl
  | some wtx =>
    dsimp only
    cases wtx.vout[txin.prevout.n]? with
    | none => rfl
    | some txout =>
      cases wtx.isSpent txin.prevout.n with
      | error e => rfl
      | ok fSpent =>
        dsimp only
        split
        · exact sameTx_store hget ..
        · rfl

theorem sameTx_updateOutput (hash : UInt256) (txout : CTxOut × ℕ) :
    Exec.Keeps SameTx (updateOutput W hash txout) := by
  intro s
  unfold updateOutput
  split
  · cases hget : s.mapWallet hash with
    | none => rfl
    | some wtx => exact sameTx_store hget ..
  · rfl

theorem sameTx_walletUpdateSpent (tx : CTransaction) (fBlock : Bool) :
    Exec.Keeps SameTx (walletUpdateSpent W tx fBlock) := by
  apply Exec.Keeps.bind (Exec.Keeps.forEach fun txin _ ↦ sameTx_updateInput txin)
  intro _
  cases fBlock with
  | false => exact Exec.Keeps.pure ()
  | true => exact Exec.Keeps.forEach fun txout _ ↦ sameTx_updateOutput _ txout

theorem sameTx_addedToWallet (E : WalletEnv) (tx : CTransaction) (fWrite fBlock : Bool) :
    Exec.Keeps SameTx (addedToWallet W E tx fWrite fBlock) := by
  unfold addedToWallet
  split
  · exact Exec.Keeps.pure false
  · refine Exec.Keeps.bind (Exec.Keeps.of_final fun s ↦ ?_) fun _ ↦
      (sameTx_walletUpdateSpent tx fBlock).bind fun _ ↦ Exec.Keeps.pure true
    unfold replaceDefaultKey
    cases E.replaceDefaultKey <;> rfl

theorem tx?_addToWallet (E : WalletEnv) (s : Wallet) (wtxIn : CWalletTx) :
    (Exec.final (addToWallet W E wtxIn s)).tx? = (s.withTx W wtxIn.toCTransaction).tx? := by
  cases hget : s.mapWallet (W.params.getHash wtxIn.toCTransaction) with
  | none =>
    rw [withTx_of_none hget, tx?_put, addToWallet]
    simp only [hget]
    exact (sameTx_addedToWallet ..).trans (tx?_put ..)
  | some wtx =>
    rw [withTx_of_some hget, addToWallet]
    simp only [hget]
    exact (sameTx_addedToWallet ..).trans (tx?_put_of_some hget rfl)

/-- What the wallet is once it has been told of `tx`. -/
structure Told (W : WalletParams) (tx : CTransaction) (s s' : Wallet) : Prop where
  entries : s'.tx? = s.tx? ∨ s'.tx? = (s.withTx W tx).tx?
  marks : ∀ {o}, s.Marked o → s'.Marked o

theorem Told.refl (tx : CTransaction) (s : Wallet) : Told W tx s s := ⟨.inl rfl, id⟩

theorem Marked.withTx {o : COutPoint} (h : s.Marked o) (tx : CTransaction) :
    (s.withTx W tx).Marked o := by
  cases hget : s.mapWallet (W.params.getHash tx) with
  | some wtx => rwa [withTx_of_some hget]
  | none =>
    obtain ⟨wtx, hwtx, hmark⟩ := h
    refine ⟨wtx, (mapWallet_withTx ?_).trans hwtx, hmark⟩
    intro hhash
    rw [hhash, hget] at hwtx
    cases hwtx

theorem told_addToWallet (E : WalletEnv) {tx : CTransaction} {pblock : Option CBlock}
    (h : s.mapWallet (W.params.getHash tx) = none ∨ pblock = none) :
    Told W tx s (Exec.final (addToWallet W E (walletTxOf W tx pblock) s)) := by
  obtain ⟨tx', htx', hkept, -⟩ := kept_addToWallet (W := W) E s (walletTxOf W tx pblock)
  rw [toCTransaction_walletTxOf] at htx' hkept
  refine ⟨.inr ((tx?_addToWallet ..).trans (by rw [toCTransaction_walletTxOf])),
    fun {o} hmark ↦ hkept.marks ?_ (hmark.withTx tx)⟩
  -- only the marks of a new entry are cleared, and a new entry has none
  rintro ⟨hblock, hhash, -⟩
  rcases h with hnone | rfl
  · rw [withTx_of_none hnone, tx?, mapWallet_put_self] at htx'
    cases htx'
    obtain ⟨wtx, hget, -⟩ := hmark
    rw [hhash, CTransaction.toWalletTx, hnone] at hget
    cases hget
  · exact of_decide_eq_true hblock rfl

theorem told_addToWalletIfInvolvingMe (E : WalletEnv) (s : Wallet) (tx : CTransaction)
    {pblock : Option CBlock} {fUpdate : Bool} (h : fUpdate = false ∨ pblock = none) :
    Told W tx s (Exec.final (addToWalletIfInvolvingMe W E tx pblock fUpdate s)) := by
  rw [addToWalletIfInvolvingMe]
  by_cases hskip : ((s.mapWallet (W.params.getHash tx)).isSome && !fUpdate) = true
  · rw [if_pos hskip]
    exact Told.refl tx s
  · rw [if_neg hskip]
    cases s.involves W tx with
    | error e => exact Told.refl tx s
    | ok fInvolved =>
      cases fInvolved with
      | true =>
        apply told_addToWallet
        rcases h with rfl | rfl
        · exact .inl (by simpa using hskip)
        · exact .inr rfl
      | false =>
        dsimp only
        rw [Exec.final_bind_pure]
        have hkept := (kept_walletUpdateSpent (W := W) s tx false).1
        exact ⟨.inl (sameTx_walletUpdateSpent tx false s), hkept.marks fun hC ↦ by cases hC.1⟩

theorem told_syncTransaction (E : WalletEnv) (s : Wallet) (tx : CTransaction) :
    Told W tx s (Exec.final (syncTransaction W E tx none true s)) := by
  change Told W tx s
    (Exec.final ((addToWalletIfInvolvingMe W E tx none true >>= fun _ ↦ pure ()) s))
  rw [Exec.final_bind_pure]
  exact told_addToWalletIfInvolvingMe E s tx (.inr rfl)

/-- `AddToWalletIfInvolvingMe` without `fUpdate` says truly whether there is a new entry, if that is
written. -/
theorem addToWalletIfInvolvingMe_eq_ok {E : WalletEnv} {tx : CTransaction}
    {pblock : Option CBlock} {added : Bool}
    (h : addToWalletIfInvolvingMe W E tx pblock false s = .ok added s') :
    (added = true → s.mapWallet (W.params.getHash tx) = none ∧ s'.tx? = (s.withTx W tx).tx?) ∧
      (E.writeToDisk = true → added = false → s'.tx? = s.tx?) := by
  rw [addToWalletIfInvolvingMe, Bool.not_false, Bool.and_true] at h
  cases hget : s.mapWallet (W.params.getHash tx) with
  | some wtx =>
    rw [hget] at h
    cases h
    exact ⟨fun hadded ↦ absurd hadded Bool.false_ne_true, fun _ _ ↦ rfl⟩
  | none =>
    rw [hget, Option.isSome_none, if_neg Bool.false_ne_true] at h
    cases hinv : s.involves W tx with
    | error e =>
      rw [hinv] at h
      cases h
    | ok fInvolved =>
      rw [hinv] at h
      cases fInvolved with
      | true =>
        have htx := tx?_addToWallet (W := W) E s (walletTxOf W tx pblock)
        dsimp only at h
        rw [h, toCTransaction_walletTxOf] at htx
        refine ⟨fun _ ↦ ⟨rfl, htx⟩, fun hwrite hadded ↦ ?_⟩
        subst hadded
        rw [addToWallet, toCTransaction_walletTxOf] at h
        simp only [hget] at h
        rw [addedToWallet, if_neg (by simp [hwrite])] at h
        obtain ⟨_, s₁, -, h⟩ := Exec.bind_eq_ok.mp h
        obtain ⟨_, s₂, -, h⟩ := Exec.bind_eq_ok.mp h
        cases h
      | false =>
        obtain ⟨_, s₁, hupdate, h⟩ := Exec.bind_eq_ok.mp h
        cases h
        refine ⟨fun hadded ↦ absurd hadded Bool.false_ne_true, fun _ _ ↦ ?_⟩
        exact (sameTx_walletUpdateSpent tx false).ok hupdate

end Wallet

namespace Reaccept

variable {W : WalletParams} {E : ReacceptEnv} {s s' s'' : Reaccept}

/-! ## What a part of a run leaves -/

/-- The entries and the marks stay; `P` holds of the transactions that have a new entry. -/
structure Grows (W : WalletParams) (P : CTxDB → CTransaction → Prop) (s s' : Reaccept) : Prop where
  txdb : s'.node.txdb = s.node.txdb
  last : s'.last = s.last
  old : ∀ {hash tx}, s.wallet.tx? hash = some tx → s'.wallet.tx? hash = some tx
  new : ∀ {hash tx}, s'.wallet.tx? hash = some tx →
    s.wallet.tx? hash = some tx ∨ hash = W.params.getHash tx ∧ P s.node.txdb tx
  marks : ∀ {o}, s.wallet.Marked o → s'.wallet.Marked o
  listed : s.Listed → s'.Listed

instance grows_isFrame (P : CTxDB → CTransaction → Prop) : Exec.IsFrame (Grows W P) where
  refl _ := ⟨rfl, rfl, id, .inl, id, id⟩
  trans h h' :=
    { txdb := h'.txdb.trans h.txdb
      last := h'.last.trans h.last
      old := h'.old ∘ h.old
      new := fun htx ↦ (h'.new htx).elim h.new fun ⟨hhash, hP⟩ ↦ .inr ⟨hhash, h.txdb ▸ hP⟩
      marks := h'.marks ∘ h.marks
      listed := h'.listed ∘ h.listed }

variable {P : CTxDB → CTransaction → Prop}

theorem isSome_mapWallet_iff {wallet : Wallet} {hash : UInt256} :
    (wallet.mapWallet hash).isSome ↔ ∃ tx, wallet.tx? hash = some tx := by
  rw [Wallet.tx?]
  cases wallet.mapWallet hash with
  | none =>
    constructor
    · rintro ⟨⟩
    · rintro ⟨_, ⟨⟩⟩
  | some wtx => exact ⟨fun _ ↦ ⟨_, rfl⟩, fun _ ↦ rfl⟩

/-- An entry of the wallet in which `tx` has one. -/
theorem tx?_withTx {wallet : Wallet} {tx tx' : CTransaction} {hash : UInt256}
    (h : (wallet.withTx W tx).tx? hash = some tx') :
    wallet.tx? hash = some tx' ∨ hash = W.params.getHash tx ∧ tx' = tx := by
  cases hget : wallet.mapWallet (W.params.getHash tx) with
  | some wtx =>
    rw [Wallet.withTx_of_some hget] at h
    exact .inl h
  | none =>
    rw [Wallet.withTx_of_none hget, Wallet.tx?_put] at h
    by_cases hhash : hash = W.params.getHash tx
    · subst hhash
      rw [Function.update_self] at h
      cases h
      exact .inr ⟨rfl, rfl⟩
    · rw [Function.update_of_ne hhash] at h
      exact .inl h

theorem withTx_tx?_of_some {wallet : Wallet} {tx tx' : CTransaction} {hash : UInt256}
    (h : wallet.tx? hash = some tx') : (wallet.withTx W tx).tx? hash = some tx' := by
  cases hget : wallet.mapWallet (W.params.getHash tx) with
  | some wtx => rwa [Wallet.withTx_of_some hget]
  | none =>
    rw [Wallet.withTx_of_none hget, Wallet.tx?_put, Function.update_of_ne]
    · exact h
    · rintro rfl
      rw [Wallet.tx?, hget] at h
      cases h

theorem grows_withWallet {tx : CTransaction} {wallet : Wallet}
    (h : Wallet.Told W tx s.wallet wallet) (hP : P s.node.txdb tx) :
    Grows W P s (s.withWallet (W.params.getHash tx) wallet) where
  txdb := rfl
  last := rfl
  old := fun {hash tx'} htx ↦ by
    change wallet.tx? hash = some tx'
    rcases h.entries with heq | heq
    · rwa [heq]
    · rw [heq]
      exact withTx_tx?_of_some htx
  new := fun {hash tx'} htx ↦ by
    change wallet.tx? hash = some tx' at htx
    rcases h.entries with heq | heq
    · exact .inl (heq ▸ htx)
    · rw [heq] at htx
      refine (tx?_withTx htx).imp_right ?_
      rintro ⟨hhash, rfl⟩
      exact ⟨hhash, hP⟩
  marks := h.marks
  listed := by
    rintro ⟨hsorted, hkeys⟩
    have hkeys' : ∀ hash, (wallet.mapWallet hash).isSome → hash = W.params.getHash tx ∨
        hash ∈ s.keys := by
      intro hash hsome
      obtain ⟨tx', htx⟩ := isSome_mapWallet_iff.mp hsome
      rw [hkeys, isSome_mapWallet_iff]
      rcases h.entries with heq | heq
      · exact .inr ⟨tx', heq ▸ htx⟩
      · rw [heq] at htx
        exact (tx?_withTx htx).symm.imp And.left fun htx ↦ ⟨tx', htx⟩
    have hold : ∀ hash ∈ s.keys, (wallet.mapWallet hash).isSome := by
      intro hash hmem
      obtain ⟨tx', htx⟩ := isSome_mapWallet_iff.mp ((hkeys hash).mp hmem)
      refine isSome_mapWallet_iff.mpr ⟨tx', ?_⟩
      rcases h.entries with heq | heq
      · rwa [heq]
      · rw [heq]
        exact withTx_tx?_of_some htx
    unfold Listed withWallet
    dsimp only
    split
    next hnew =>
      refine ⟨hsorted.orderedInsert _ _, fun hash ↦ ?_⟩
      rw [List.mem_orderedInsert]
      refine ⟨?_, hkeys' hash⟩
      rintro (rfl | hmem)
      · exact hnew.1
      · exact hold hash hmem
    next hnew =>
      refine ⟨hsorted, fun hash ↦ ⟨hold hash, fun hsome ↦ ?_⟩⟩
      rcases hkeys' hash hsome with rfl | hmem
      · by_contra hmem
        exact hnew ⟨hsome, hmem⟩
      · exact hmem

theorem tellWallet_eq_ok {α : Type} {hash : UInt256} {x : WalletEnv → WalletM α} {a : α}
    (h : tellWallet E hash x s = .ok a s') :
    ∃ wallet, x (E.wallet s.clock) s.wallet = .ok a wallet ∧ s' = s.withWallet hash wallet := by
  unfold tellWallet at h
  cases hx : x (E.wallet s.clock) s.wallet with
  | ok b wallet =>
    rw [hx] at h
    cases h
    exact ⟨wallet, rfl, rfl⟩
  | error e wallet =>
    rw [hx] at h
    cases h

theorem final_tellWallet {α : Type} (hash : UInt256) (x : WalletEnv → WalletM α) (s : Reaccept) :
    Exec.final (tellWallet E hash x s) =
      s.withWallet hash (Exec.final (x (E.wallet s.clock) s.wallet)) := by
  unfold tellWallet
  cases x (E.wallet s.clock) s.wallet <;> rfl

/-! ## A visit -/

variable {U : Finset UInt256}

/-- The transactions that a visit may add. -/
def Offered (W : WalletParams) (U : Finset UInt256) (txdb : CTxDB) (tx : CTransaction) : Prop :=
  W.params.getHash tx ∈ U ∧ txdb.fresh.readTxIndex (W.params.getHash tx) = none

/-- What is accepted is not in the index. -/
theorem readTxIndex_of_accepted {w : World} {node node' : NodeState} {tx : CTransaction}
    (h : acceptToMemoryPool W.params w node tx false = .ok node') :
    node'.txdb = node.txdb ∧ node.txdb.fresh.readTxIndex (W.params.getHash tx) = none := by
  obtain ⟨hcheck, -, rfl⟩ := acceptToMemoryPool_eq_ok h
  simp only [checkLoose, bind_eq_ok, rejectIf_eq_ok] at hcheck
  obtain ⟨-, -, -, -, -, -, -, -, -, -, -, -, hindex⟩ := hcheck
  exact ⟨rfl, by simpa [CTxDB.contains, CTxDB.fresh, CTxDB.readTxIndex, CTxDB.read] using hindex⟩

theorem grows_accept {tx : CTransaction} (hU : W.params.getHash tx ∈ U) :
    Exec.Keeps (Grows W (Offered W U)) (accept W E tx) := by
  intro s
  unfold accept
  cases h : acceptToMemoryPool W.params (E.world s.clock) s.node tx false with
  | error e => cases e <;> exact ⟨rfl, rfl, id, .inl, id, id⟩
  | ok node =>
    obtain ⟨htxdb, hindex⟩ := readTxIndex_of_accepted h
    have hnode : Grows W (Offered W U) s { s with node, clock := s.clock + 1 } :=
      ⟨htxdb, rfl, id, .inl, id, id⟩
    dsimp only
    rw [final_tellWallet]
    exact Exec.IsFrame.trans hnode
      (grows_withWallet (Wallet.told_syncTransaction ..) ⟨hU, by rwa [htxdb]⟩)

theorem grows_acceptPrev {tx : CTransaction} (hU : W.params.getHash tx ∈ U) :
    Exec.Keeps (Grows W (Offered W U)) (acceptPrev W E tx) := by
  intro s
  unfold acceptPrev
  split
  · exact Exec.IsFrame.refl s
  · dsimp only
    split
    · exact Exec.IsFrame.refl s
    · exact grows_accept hU s

theorem grows_put {hash : UInt256} {wtx wtx' : CWalletTx} (vMissingTx : List CDiskTxPos)
    (hget : s.wallet.mapWallet hash = some wtx) (htx : wtx'.toCTransaction = wtx.toCTransaction)
    (hmarks : ∀ n, wtx.isSpent n = .ok true → wtx'.isSpent n = .ok true) :
    Grows W P s { s with wallet := s.wallet.put hash wtx', vMissingTx } := by
  have hsame := Wallet.tx?_put_of_some hget htx
  refine ⟨rfl, rfl, fun h ↦ ?_, fun h ↦ .inl ?_, fun h ↦ ?_, fun h ↦ ⟨h.1, fun hash' ↦ ?_⟩⟩
  · exact (congrFun hsame _).trans h
  · exact (congrFun hsame _).symm.trans h
  · exact (Wallet.kept_put (C := fun _ ↦ False) hget htx fun n _ ↦ hmarks n).marks id h
  · rw [h.2 hash', isSome_mapWallet_iff, isSome_mapWallet_iff]
    exact exists_congr fun tx ↦ by rw [hsame]

/-- The loop over `vSpent` marks the outputs of ours that have been spent. -/
theorem findSpent_eq_ok {vSpent : List (CDiskTxPos × ℕ)} {wtx wtx' : CWalletTx}
    {found : List CDiskTxPos} (h : findSpent W vSpent wtx = .ok (wtx', found)) :
    wtx'.toCTransaction = wtx.toCTransaction ∧
      (∀ n, wtx.isSpent n = .ok true → wtx'.isSpent n = .ok true) ∧
      ∀ pos n txout, (pos, n) ∈ vSpent → pos.isNull = false → wtx.vout[n]? = some txout →
        W.isMine txout.scriptPubKey = true → wtx'.isSpent n = .ok true := by
  induction vSpent generalizing wtx found with
  | nil =>
    cases h
    exact ⟨rfl, fun _ ↦ id, nofun⟩
  | cons a vSpent ih =>
    obtain ⟨pos, i⟩ := a
    rw [findSpent] at h
    cases hspent : wtx.isSpent i with
    | error e =>
      rw [hspent] at h
      cases h
    | ok fSpent =>
      rw [hspent] at h
      cases fSpent with
      | true =>
        obtain ⟨htx, hmarks, hown⟩ := ih h
        refine ⟨htx, hmarks, fun pos' n txout hmem hnull hout hmine ↦ ?_⟩
        rcases List.mem_cons.mp hmem with heq | hmem
        · cases heq
          exact hmarks i hspent
        · exact hown pos' n txout hmem hnull hout hmine
      | false =>
        dsimp only at h
        split at h
        next =>
          cases hset : wtx.markSpent i with
          | error e =>
            rw [hset] at h
            cases h
          | ok wtx₁ =>
            obtain ⟨-, htx₁, hself, hne⟩ := Wallet.isSpent_setSpent hset
            have hmarks₁ : ∀ n, wtx.isSpent n = .ok true → wtx₁.isSpent n = .ok true := by
              intro n hn
              by_cases hni : n = i
              · rw [hni]
                exact hself
              · rwa [hne n hni]
            rw [hset] at h
            dsimp only at h
            cases hrest : findSpent W vSpent wtx₁ with
            | error e =>
              rw [hrest] at h
              cases h
            | ok r =>
              rw [hrest] at h
              cases h
              obtain ⟨htx, hmarks, hown⟩ := ih hrest
              refine ⟨htx.trans htx₁, fun n hn ↦ hmarks n (hmarks₁ n hn),
                fun pos' n txout hmem hnull hout hmine ↦ ?_⟩
              rcases List.mem_cons.mp hmem with heq | hmem
              · cases heq
                exact hmarks i hself
              · exact hown pos' n txout hmem hnull (by rwa [htx₁]) hmine
        next hpass =>
          obtain ⟨htx, hmarks, hown⟩ := ih h
          refine ⟨htx, hmarks, fun pos' n txout hmem hnull hout hmine ↦ ?_⟩
          rcases List.mem_cons.mp hmem with heq | hmem
          · cases heq
            rw [hnull, hout] at hpass
            exact absurd hmine (by simpa using hpass)
          · exact hown pos' n txout hmem hnull hout hmine

theorem grows_visit {hash : UInt256} (hvtxPrev : ∀ tx ∈ E.vtxPrev hash, W.params.getHash tx ∈ U)
    (hentry : ∀ tx, s.wallet.tx? hash = some tx → W.params.getHash tx ∈ U) :
    Grows W (Offered W U) s (Exec.final (visit W E hash s)) := by
  unfold visit
  cases hget : s.wallet.mapWallet hash with
  | none => exact Exec.IsFrame.refl s
  | some wtx =>
    dsimp only
    cases skips wtx with
    | error e => exact Exec.IsFrame.refl s
    | ok fSkip =>
      cases fSkip with
      | true => exact Exec.IsFrame.refl s
      | false =>
        dsimp only
        cases s.node.txdb.fresh.readTxIndex (W.params.getHash wtx.toCTransaction) with
        | none =>
          dsimp only
          split
          · exact Exec.IsFrame.refl s
          · refine Exec.Keeps.bind (Exec.Keeps.forEach fun tx hmem ↦ ?_) (fun _ ↦ ?_) s
            · exact grows_acceptPrev (hvtxPrev tx hmem)
            · exact grows_accept (hentry _ (by rw [Wallet.tx?, hget]; rfl))
        | some txindex =>
          dsimp only
          split
          · exact Exec.IsFrame.refl s
          · cases hfind : findSpent W txindex.vSpent.zipIdx wtx with
            | error e => exact Exec.IsFrame.refl s
            | ok r =>
              obtain ⟨htx, hmarks, -⟩ := findSpent_eq_ok hfind
              exact grows_put _ hget htx hmarks

/-- After the visit of an entry that is not passed over wrongly nothing of it is due unmarked. -/
theorem marked_visit {hash : UInt256} {n : ℕ} (hkeyed : s.wallet.Keyed W)
    (hsized : ∀ tx, s.wallet.tx? hash = some tx → s.Sized W tx)
    (hskip : ∀ wtx, s.wallet.mapWallet hash = some wtx → skips wtx = .ok true →
      s.Due W ⟨hash, n⟩ → s.wallet.Marked ⟨hash, n⟩)
    (h : visit W E hash s = .ok () s') (hdue : s.Due W ⟨hash, n⟩) :
    s'.wallet.Marked ⟨hash, n⟩ := by
  obtain ⟨hmine, txindex, hindex, pos, hpos, hnull⟩ := hdue
  obtain ⟨tx, htx, txout, hout, hown⟩ := Wallet.mine_iff.mp hmine
  have hkey : W.params.getHash tx = hash := by
    rcases hkeyed htx with hkey | hblank
    · exact hkey
    · rw [hblank.2] at hout
      cases hout
  obtain ⟨wtx, hget, hwtx⟩ := Option.map_eq_some_iff.mp htx
  dsimp only at hget hwtx hindex hpos hout
  have hskip' := hskip wtx hget
  unfold visit at h
  rw [hget] at h
  dsimp only at h
  cases hskips : skips wtx with
  | error e =>
    rw [hskips] at h
    cases h
  | ok fSkip =>
    rw [hskips] at h
    cases fSkip with
    | true =>
      cases h
      exact hskip' hskips ⟨hmine, txindex, hindex, pos, hpos, hnull⟩
    | false =>
      dsimp only at h
      rw [hwtx, hkey, hindex] at h
      dsimp only at h
      rw [if_neg (not_not.mpr (hsized tx htx txindex (hkey ▸ hindex)))] at h
      cases hfind : findSpent W txindex.vSpent.zipIdx wtx with
      | error e =>
        rw [hfind] at h
        cases h
      | ok r =>
        rw [hfind] at h
        cases h
        obtain ⟨-, -, hown'⟩ := findSpent_eq_ok hfind
        exact ⟨r.1, Wallet.mapWallet_put_self .., hown' pos n txout
          (List.mem_zipIdx_iff_getElem?.mpr hpos) hnull (by rwa [← hwtx] at hout) hown⟩

/-! ## A scan -/

variable {Q : CTransaction → Prop}

theorem grows_scanBlock {block : CBlock} {vtx : List CTransaction} (hQ : ∀ tx ∈ vtx, Q tx)
    (ret : ℕ) : Exec.Keeps (Grows W fun _ ↦ Q) (scanBlock W E block vtx ret) := by
  induction vtx generalizing ret with
  | nil => exact Exec.Keeps.pure ret
  | cons tx vtx ih =>
    refine Exec.Keeps.bind (fun s ↦ ?_) fun _ ↦ ih (List.forall_mem_of_forall_mem_cons hQ) _
    rw [final_tellWallet]
    exact grows_withWallet (Wallet.told_addToWalletIfInvolvingMe _ _ tx (.inl rfl))
      (hQ tx List.mem_cons_self)

theorem grows_scan {chain : List (ℕ × CBlock)}
    (hQ : ∀ block ∈ chain, ∀ tx ∈ block.2.vtx, Q tx) (ret : ℕ) :
    Exec.Keeps (Grows W fun _ ↦ Q) (scanForWalletTransactions W E chain ret) := by
  induction chain generalizing ret with
  | nil => exact Exec.Keeps.pure ret
  | cons a chain ih =>
    have hrest := fun ret ↦ ih (List.forall_mem_of_forall_mem_cons hQ) ret
    rw [scanForWalletTransactions]
    split
    · exact hrest ret
    · exact (grows_scanBlock (hQ a List.mem_cons_self) ret).bind hrest

/-- How many hashes of `U` have no entry. -/
def missing (U : Finset UInt256) (s : Reaccept) : ℕ :=
  (U.filter fun hash ↦ s.wallet.tx? hash = none).card

theorem Grows.missing_subset (h : Grows W P s s') (U : Finset UInt256) :
    (U.filter fun hash ↦ s'.wallet.tx? hash = none) ⊆
      U.filter fun hash ↦ s.wallet.tx? hash = none := by
  refine Finset.monotone_filter_right U fun hash _ hnone ↦ ?_
  cases htx : s.wallet.tx? hash with
  | none => rfl
  | some tx => rw [h.old htx] at hnone; cases hnone

theorem Grows.missing_le (h : Grows W P s s') (U : Finset UInt256) : missing U s' ≤ missing U s :=
  Finset.card_le_card (h.missing_subset U)

theorem Grows.missing_lt (h : Grows W P s s') {hash : UInt256} (hU : hash ∈ U)
    (hnone : s.wallet.tx? hash = none) (hsome : s'.wallet.tx? hash ≠ none) :
    missing U s' < missing U s := by
  refine Finset.card_lt_card (Finset.ssubset_iff_of_subset (h.missing_subset U) |>.mpr ?_)
  exact ⟨hash, Finset.mem_filter.mpr ⟨hU, hnone⟩,
    fun hmem ↦ hsome (Finset.mem_filter.mp hmem).2⟩

/-- What a part of a scan has done that has come to `told` and counts `n` new entries: if it counts
none, a new entry could not be written. -/
structure Scanned (W : WalletParams) (E : ReacceptEnv) (U : Finset UInt256)
    (told : List CTransaction) (n : ℕ) (s s' : Reaccept) : Prop where
  clock : s'.clock = s.clock + told.length
  missing_le : missing U s' ≤ missing U s
  missing_lt : n ≠ 0 → missing U s' < missing U s
  unwritten : n = 0 → ∀ {hash tx}, s'.wallet.tx? hash = some tx →
    s.wallet.tx? hash = some tx ∨ hash = W.params.getHash tx ∧
      ∃ i, told[i]? = some tx ∧ (E.wallet (s.clock + i)).writeToDisk = false

theorem Scanned.refl (s : Reaccept) : Scanned W E U [] 0 s s :=
  ⟨rfl, le_rfl, fun h ↦ absurd rfl h, fun _ ↦ .inl⟩

theorem Scanned.trans {told told' : List CTransaction} {n m : ℕ}
    (h : Scanned W E U told n s s') (h' : Scanned W E U told' m s' s'') :
    Scanned W E U (told ++ told') (n + m) s s'' where
  clock := by rw [h'.clock, h.clock, List.length_append, Nat.add_assoc]
  missing_le := h'.missing_le.trans h.missing_le
  missing_lt := fun hne ↦ by
    rcases Nat.eq_zero_or_pos n with rfl | hn
    · exact (h'.missing_lt (by omega)).trans_le h.missing_le
    · exact h'.missing_le.trans_lt (h.missing_lt (by omega))
  unwritten := fun hzero {hash tx} htx ↦ by
    rcases h'.unwritten (by omega) htx with htx | ⟨hhash, i, hi, hwrite⟩
    · refine (h.unwritten (by omega) htx).imp_right fun ⟨hhash, i, hi, hwrite⟩ ↦
        ⟨hhash, i, ?_, hwrite⟩
      exact List.getElem?_append_left (List.getElem?_eq_some_iff.mp hi).1 ▸ hi
    · refine .inr ⟨hhash, told.length + i, ?_, ?_⟩
      · rw [List.getElem?_append_right (Nat.le_add_right ..), Nat.add_sub_cancel_left, hi]
      · rwa [h.clock, Nat.add_assoc] at hwrite

theorem scanned_tellWallet {tx : CTransaction} {block : CBlock} {added : Bool}
    (hU : W.params.getHash tx ∈ U)
    (h : tellWallet E (W.params.getHash tx)
      (fun E ↦ Wallet.addToWalletIfInvolvingMe W E tx (some block) false) s = .ok added s') :
    Scanned W E U [tx] (if added then 1 else 0) s s' := by
  obtain ⟨wallet, hadd, rfl⟩ := tellWallet_eq_ok h
  have htold : Wallet.Told W tx s.wallet (Exec.final (Wallet.addToWalletIfInvolvingMe W
      (E.wallet s.clock) tx (some block) false s.wallet)) :=
    Wallet.told_addToWalletIfInvolvingMe _ _ tx (.inl rfl)
  rw [hadd] at htold
  have hgrows := grows_withWallet (P := fun _ tx' ↦ tx' = tx) htold rfl
  obtain ⟨hnew, hsame⟩ := Wallet.addToWalletIfInvolvingMe_eq_ok hadd
  refine ⟨rfl, hgrows.missing_le U, fun hadded ↦ ?_, fun hadded {hash tx'} htx ↦ ?_⟩
  · cases added with
    | false => exact absurd rfl hadded
    | true =>
      obtain ⟨hnone, htx⟩ := hnew rfl
      refine hgrows.missing_lt hU (by rw [Wallet.tx?, hnone]; rfl) ?_
      change wallet.tx? _ ≠ none
      rw [htx, Wallet.withTx_of_none hnone, Wallet.tx?_put, Function.update_self]
      exact Option.some_ne_none _
  · cases added with
    | true => cases hadded
    | false =>
      cases hwrite : (E.wallet s.clock).writeToDisk with
      | true => exact .inl (hsame hwrite rfl ▸ htx)
      | false =>
        refine (hgrows.new htx).imp_right ?_
        rintro ⟨hhash, rfl⟩
        exact ⟨hhash, 0, rfl, hwrite⟩

theorem scanned_scanBlock {block : CBlock} {vtx : List CTransaction} {ret ret' : ℕ}
    (hU : ∀ tx ∈ vtx, W.params.getHash tx ∈ U)
    (h : scanBlock W E block vtx ret s = .ok ret' s') :
    ∃ n, ret' = ret + n ∧ Scanned W E U vtx n s s' := by
  induction vtx generalizing ret s with
  | nil =>
    cases h
    exact ⟨0, rfl, Scanned.refl _⟩
  | cons tx vtx ih =>
    obtain ⟨added, s₁, htell, h⟩ := Exec.bind_eq_ok.mp h
    have hscan₁ := scanned_tellWallet (hU tx List.mem_cons_self) htell
    obtain ⟨n, hret, hscan⟩ := ih (List.forall_mem_of_forall_mem_cons hU) h
    refine ⟨_, ?_, hscan₁.trans hscan⟩
    rw [hret]
    split <;> omega

theorem scanned_scan {chain : List (ℕ × CBlock)} {ret ret' : ℕ}
    (hU : ∀ block ∈ chain, ∀ tx ∈ block.2.vtx, W.params.getHash tx ∈ U)
    (h : scanForWalletTransactions W E chain ret s = .ok ret' s') :
    ∃ n, ret' = ret + n ∧ Scanned W E U (scannedIn E chain) n s s' := by
  induction chain generalizing ret s with
  | nil =>
    cases h
    exact ⟨0, rfl, Scanned.refl _⟩
  | cons a chain ih =>
    have hrest := List.forall_mem_of_forall_mem_cons hU
    rw [scanForWalletTransactions] at h
    rw [scannedIn, List.flatMap_cons, ← scannedIn]
    by_cases hold : tooOld E a.1
    · rw [if_pos hold] at h
      rw [if_pos hold]
      exact ih hrest h
    · rw [if_neg hold] at h
      rw [if_neg hold]
      obtain ⟨ret₁, s₁, hblock, h⟩ := Exec.bind_eq_ok.mp h
      obtain ⟨n₁, hret₁, hscan₁⟩ := scanned_scanBlock (hU a List.mem_cons_self) hblock
      obtain ⟨n, hret, hscan⟩ := ih hrest h
      exact ⟨n₁ + n, by omega, hscan₁.trans hscan⟩

/-! ## A step -/

/-- What is known throughout a run, where `U` has the hashes of all that may have an entry. -/
structure Known (W : WalletParams) (E : ReacceptEnv) (U : Finset UInt256) (s : Reaccept) :
    Prop where
  listed : s.Listed
  keyed : s.wallet.Keyed W
  entries : ∀ {hash tx}, s.wallet.tx? hash = some tx →
    hash ∈ U ∧ W.params.getHash tx ∈ U ∧ s.Sized W tx
  vtxPrev : ∀ {hash tx}, tx ∈ E.vtxPrev hash → W.params.getHash tx ∈ U
  chain : ∀ {tx}, InChain E tx → W.params.getHash tx ∈ U ∧ s.Sized W tx

theorem Grows.sized_iff (h : Grows W P s s') (tx : CTransaction) :
    s'.Sized W tx ↔ s.Sized W tx := by
  rw [Sized, Sized, h.txdb]

theorem Known.grows (h : Known W E U s) (hgrows : Grows W P s s')
    (hP : ∀ tx, P s.node.txdb tx → W.params.getHash tx ∈ U ∧ s.Sized W tx) : Known W E U s' where
  listed := hgrows.listed h.listed
  keyed := fun htx ↦ (hgrows.new htx).elim h.keyed fun hnew ↦ .inl hnew.1.symm
  entries := fun {hash tx} htx ↦ by
    rw [hgrows.sized_iff]
    rcases hgrows.new htx with htx | ⟨rfl, hnew⟩
    · exact h.entries htx
    · exact ⟨(hP tx hnew).1, hP tx hnew⟩
  vtxPrev := h.vtxPrev
  chain := fun {tx} htx ↦ by
    rw [hgrows.sized_iff]
    exact h.chain htx

/-- What a visit leaves, however it ends. -/
theorem Known.grows_visit (h : Known W E U s) (hash : UInt256) :
    Grows W (Offered W U) s (Exec.final (visit W E hash s)) :=
  Reaccept.grows_visit (fun _ ↦ h.vtxPrev) fun _ htx ↦ (h.entries htx).2.1

theorem Known.visit (h : Known W E U s) (hash : UInt256) :
    Known W E U (Exec.final (visit W E hash s)) :=
  h.grows (h.grows_visit hash) fun tx hP ↦ ⟨hP.1, fun txindex hindex ↦ by
    rw [hP.2] at hindex
    cases hindex⟩

theorem grows_chain (s : Reaccept) (ret : ℕ) :
    Grows W (fun _ ↦ InChain E) s (Exec.final (scanForWalletTransactions W E E.chain ret s)) :=
  grows_scan (fun block hblock _ htx ↦ ⟨block, hblock, htx⟩) ret s

theorem next_eq_some {hash : UInt256} (hlisted : s.Listed) (h : s.next = some hash) :
    hash ∈ s.keys ∧ (∀ last, s.last = some last → last < hash) ∧
      ∀ key ∈ s.keys, key < hash → ∃ last, s.last = some last ∧ key ≤ last := by
  obtain ⟨hlast, as, bs, hkeys, has⟩ := List.find?_eq_some_iff_append.mp h
  refine ⟨by simp [hkeys], fun last hsome ↦ ?_, fun key hmem hlt ↦ ?_⟩
  · rw [hsome] at hlast
    exact of_decide_eq_true hlast
  · rw [hkeys, List.mem_append, List.mem_cons] at hmem
    rcases hmem with hmem | rfl | hmem
    · have hbefore := has key hmem
      cases hsome : s.last with
      | none => rw [hsome] at hbefore; cases hbefore
      | some last =>
        rw [hsome] at hbefore
        exact ⟨last, rfl, by simpa using hbefore⟩
    · exact absurd hlt (lt_irrefl key)
    · have hsorted := hlisted.1
      rw [hkeys, List.pairwise_append, List.pairwise_cons] at hsorted
      exact absurd (hsorted.2.1.1 key hmem) (not_le.mpr hlt)

theorem next_eq_none (h : s.next = none) :
    ∀ key ∈ s.keys, ∃ last, s.last = some last ∧ key ≤ last := by
  intro key hmem
  have hkey := List.find?_eq_none.mp h key hmem
  cases hsome : s.last with
  | none => rw [hsome] at hkey; exact absurd rfl hkey
  | some last =>
    rw [hsome] at hkey
    exact ⟨last, rfl, by simpa using hkey⟩

/-- The ways in which a run goes on. -/
theorem step_eq_next (h : step W E s = .next s') :
    (∃ hash s₁, s.next = some hash ∧ visit W E hash s = .ok () s₁ ∧
      s' = { s₁ with last := some hash }) ∨
    (∃ ret s₁, s.next = none ∧ scanForWalletTransactions W E E.chain 0 s = .ok ret s₁ ∧
      ret ≠ 0 ∧ s' = { s₁ with last := none, vMissingTx := [] }) := by
  unfold step at h
  cases hnext : s.next with
  | some hash =>
    rw [hnext] at h
    dsimp only at h
    cases hvisit : visit W E hash s with
    | ok _ s₁ =>
      rw [hvisit] at h
      cases h
      exact .inl ⟨hash, s₁, rfl, hvisit, rfl⟩
    | error e s₁ =>
      rw [hvisit] at h
      cases h
  | none =>
    rw [hnext] at h
    dsimp only at h
    split at h
    · cases h
    · cases hscan : scanForWalletTransactions W E E.chain 0 s with
      | ok ret s₁ =>
        rw [hscan] at h
        dsimp only at h
        split at h
        next hret =>
          cases h
          exact .inr ⟨ret, s₁, rfl, rfl, hret, rfl⟩
        next => cases h
      | error e s₁ =>
        rw [hscan] at h
        cases h

/-- The ways in which a run returns. -/
theorem step_eq_returned (h : step W E s = .returned s') :
    s.next = none ∧ (s' = s ∨
      s.vMissingTx ≠ [] ∧ scanForWalletTransactions W E E.chain 0 s = .ok 0 s') := by
  unfold step at h
  cases hnext : s.next with
  | some hash =>
    rw [hnext] at h
    dsimp only at h
    cases hvisit : visit W E hash s with
    | ok _ s₁ => rw [hvisit] at h; cases h
    | error e s₁ => rw [hvisit] at h; cases h
  | none =>
    rw [hnext] at h
    dsimp only at h
    split at h
    next =>
      cases h
      exact ⟨rfl, .inl rfl⟩
    next hmissing =>
      cases hscan : scanForWalletTransactions W E E.chain 0 s with
      | ok ret s₁ =>
        rw [hscan] at h
        dsimp only at h
        split at h
        next => cases h
        next hret =>
          cases h
          rw [not_not.mp hret]
          exact ⟨rfl, .inr ⟨by simpa using hmissing, rfl⟩⟩
      | error e s₁ =>
        rw [hscan] at h
        cases h

theorem Known.next (h : Known W E U s) (hstep : step W E s = .next s') : Known W E U s' := by
  rcases step_eq_next hstep with ⟨hash, s₁, -, hvisit, rfl⟩ | ⟨ret, s₁, -, hscan, -, rfl⟩
  · have hknown := h.visit hash
    rw [hvisit] at hknown
    exact ⟨hknown.listed, hknown.keyed, hknown.entries, hknown.vtxPrev, hknown.chain⟩
  · have hgrows := grows_chain (W := W) (E := E) s 0
    rw [hscan] at hgrows
    have hknown := h.grows hgrows fun _ ↦ h.chain
    exact ⟨hknown.listed, hknown.keyed, hknown.entries, hknown.vtxPrev, hknown.chain⟩

/-- However a step ends, the marks stay. -/
theorem Known.marks (h : Known W E U s) {o : COutPoint} (hmark : s.wallet.Marked o) :
    (step W E s).state.wallet.Marked o := by
  unfold step
  cases hnext : s.next with
  | some hash =>
    have hgrows := h.grows_visit hash
    dsimp only
    cases hvisit : Reaccept.visit W E hash s with
    | ok _ s₁ =>
      rw [hvisit] at hgrows
      exact hgrows.marks hmark
    | error e s₁ =>
      rw [hvisit] at hgrows
      exact hgrows.marks hmark
  | none =>
    have hgrows := grows_chain (W := W) (E := E) s 0
    dsimp only
    split
    · exact hmark
    · cases hscan : scanForWalletTransactions W E E.chain 0 s with
      | ok ret s₁ =>
        rw [hscan] at hgrows
        dsimp only
        split <;> exact hgrows.marks hmark
      | error e s₁ =>
        rw [hscan] at hgrows
        exact hgrows.marks hmark

/-! ## Runs end -/

/-- How many hashes of `U` the pass has not come to. -/
def ahead (U : Finset UInt256) (s : Reaccept) : ℕ :=
  (U.filter fun hash ↦ s.last.all (· < hash)).card

/-- A visit comes closer to the end of the pass unless there is a new entry, and a scan that is not
the last step has found one. -/
theorem Known.step_lt (h : Known W E U s) (hstep : step W E s = .next s') :
    Prod.Lex (· < ·) (· < ·) (missing U s', ahead U s') (missing U s, ahead U s) := by
  rw [Prod.lex_def]
  rcases step_eq_next hstep with ⟨hash, s₁, hnext, hvisit, rfl⟩ | ⟨ret, s₁, -, hscan, hret, rfl⟩
  · have hgrows := h.grows_visit hash
    rw [hvisit] at hgrows
    obtain ⟨hmem, hlast, -⟩ := next_eq_some h.listed hnext
    rcases (hgrows.missing_le U).lt_or_eq with hlt | heq
    · exact .inl hlt
    · refine .inr ⟨heq, Finset.card_lt_card ?_⟩
      have hsub : (U.filter fun key ↦ (some hash).all (· < key)) ⊆
          U.filter fun key ↦ s.last.all (· < key) := by
        refine Finset.monotone_filter_right U fun key _ hkey ↦ ?_
        cases hsome : s.last with
        | none => rfl
        | some last =>
          have hlt : hash < key := of_decide_eq_true hkey
          exact decide_eq_true ((hlast last hsome).trans hlt)
      refine (Finset.ssubset_iff_of_subset hsub).mpr ⟨hash, Finset.mem_filter.mpr ⟨?_, ?_⟩, ?_⟩
      · obtain ⟨tx, htx⟩ := isSome_mapWallet_iff.mp ((h.listed.2 hash).mp hmem)
        exact (h.entries htx).1
      · cases hsome : s.last with
        | none => rfl
        | some last => exact decide_eq_true (hlast last hsome)
      · intro hself
        exact absurd (of_decide_eq_true (Finset.mem_filter.mp hself).2) (lt_irrefl hash)
  · obtain ⟨n, hn, hscanned⟩ := scanned_scan (U := U)
      (fun block hblock tx htx ↦ (h.chain ⟨block, hblock, htx⟩).1) hscan
    exact .inl (hscanned.missing_lt (by omega))

/-- Every run comes to an end. -/
theorem Known.ends (h : Known W E U s) :
    ∃ s', Reaches W E s s' ∧ ∀ s'', step W E s' ≠ .next s'' := by
  have hwf : WellFounded (Prod.Lex (· < ·) (· < ·) : ℕ × ℕ → ℕ × ℕ → Prop) :=
    WellFounded.prod_lex wellFounded_lt wellFounded_lt
  obtain ⟨m, hm⟩ : ∃ m, m = (missing U s, ahead U s) := ⟨_, rfl⟩
  induction m using hwf.induction generalizing s with
  | _ m ih =>
    cases hstep : step W E s with
    | returned s₁ => exact ⟨s, .refl, fun s'' ↦ by rw [hstep]; nofun⟩
    | threw e s₁ => exact ⟨s, .refl, fun s'' ↦ by rw [hstep]; nofun⟩
    | next s₁ =>
      subst hm
      obtain ⟨s', hreach, hend⟩ := ih _ (h.step_lt hstep) (h.next hstep) rfl
      exact ⟨s', .head hstep hreach, hend⟩

/-! ## What is marked -/

/-- Of the entries that the pass has come through nothing is due unmarked. -/
def Settled (W : WalletParams) (s : Reaccept) : Prop :=
  ∀ o last, s.last = some last → o.hash ≤ last → s.Due W o → s.wallet.Marked o

/-- What a visit adds is not in the index. -/
theorem Grows.due (h : Grows W (Offered W U) s s') {o : COutPoint} (hdue : s'.Due W o) :
    s.Due W o := by
  obtain ⟨hmine, txindex, hindex, hspent⟩ := hdue
  obtain ⟨tx, htx, hout⟩ := Wallet.mine_iff.mp hmine
  rw [h.txdb] at hindex
  refine ⟨Wallet.mine_iff.mpr ⟨tx, ?_, hout⟩, txindex, hindex, hspent⟩
  rcases h.new htx with htx | ⟨hhash, hoffered⟩
  · exact htx
  · rw [hhash, hoffered.2] at hindex
    cases hindex

theorem Due.mem_keys (hlisted : s.Listed) {o : COutPoint} (h : s.Due W o) : o.hash ∈ s.keys := by
  obtain ⟨tx, htx, -⟩ := Wallet.mine_iff.mp h.1
  exact (hlisted.2 _).mpr (isSome_mapWallet_iff.mpr ⟨tx, htx⟩)

theorem Known.settled (h : Known W E U s) (hgood : s.Good W E) (hsettled : s.Settled W)
    (hstep : step W E s = .next s') : s'.Settled W := by
  rcases step_eq_next hstep with ⟨hash, s₁, hnext, hvisit, rfl⟩ | ⟨_, _, -, -, -, rfl⟩
  · have hgrows := h.grows_visit hash
    rw [hvisit] at hgrows
    rintro o _ ⟨⟩ hle hdue
    have hdue' : s.Due W o := hgrows.due hdue
    obtain ⟨-, -, hbetween⟩ := next_eq_some h.listed hnext
    rcases hle.lt_or_eq with hlt | heq
    · obtain ⟨last, hlast, hle⟩ := hbetween o.hash (hdue'.mem_keys h.listed) hlt
      exact hgrows.marks (hsettled o last hlast hle hdue')
    · obtain ⟨hash', n⟩ := o
      obtain rfl : hash' = hash := heq
      have hmark : s₁.wallet.Marked ⟨hash', n⟩ :=
        marked_visit h.keyed (fun tx htx ↦ (h.entries htx).2.2)
          (fun wtx hget hskips ↦ hgood.visit hash' wtx hnext hget hskips n) hvisit hdue'
      exact hmark
  · nofun

/-- When the run returns nothing is due unmarked. -/
theorem Known.returned (h : Known W E U s) (hgood : s.Good W E) (hsettled : s.Settled W)
    (hstep : step W E s = .returned s') {o : COutPoint} (hdue : s'.Due W o) :
    s'.wallet.Marked o := by
  obtain ⟨hnext, hend⟩ := step_eq_returned hstep
  have hall : ∀ o, s.Due W o → s.wallet.Marked o := by
    intro o hdue
    obtain ⟨last, hlast, hle⟩ := next_eq_none hnext o.hash (hdue.mem_keys h.listed)
    exact hsettled o last hlast hle hdue
  rcases hend with rfl | ⟨hmissing, hscan⟩
  · exact hall o hdue
  · have hgrows := grows_chain (W := W) (E := E) s 0
    rw [hscan, Exec.final_ok] at hgrows
    obtain ⟨n, hn, hscanned⟩ := scanned_scan (U := U)
      (fun block hblock tx htx ↦ (h.chain ⟨block, hblock, htx⟩).1) hscan
    obtain ⟨hmine, hspent⟩ := hdue
    obtain ⟨tx, htx, txout, hout, hown⟩ := Wallet.mine_iff.mp hmine
    have hspent' : s.IndexSpent o := by
      rwa [IndexSpent, hgrows.txdb] at hspent
    rcases hscanned.unwritten (by omega) htx with htx | ⟨hhash, i, hi, hwrite⟩
    · exact hgrows.marks (hall o ⟨Wallet.mine_iff.mpr ⟨tx, htx, txout, hout, hown⟩, hspent'⟩)
    · have hharmless := hgood.scan hnext hmissing i tx hi hwrite o.n txout hout hown
      rw [← hhash] at hharmless
      exact absurd hspent' hharmless

/-- Where a run starts the hashes that may get an entry are finitely many. -/
theorem Starts.known (h : Starts W E s) : ∃ U, Known W E U s := by
  refine ⟨(s.keys ++ s.keys.flatMap (fun hash ↦
      ((s.wallet.tx? hash).map W.params.getHash).toList ++
        (E.vtxPrev hash).map W.params.getHash) ++
      E.chain.flatMap fun block ↦ block.2.vtx.map W.params.getHash).toFinset,
    h.listed, h.keyed, fun {hash tx} htx ↦ ?_, fun {hash tx} hmem ↦ ?_, fun {tx} htx ↦ ?_⟩
  · have hkey := (h.listed.2 hash).mpr (isSome_mapWallet_iff.mpr ⟨tx, htx⟩)
    refine ⟨by simp [hkey], ?_, h.sized htx⟩
    rw [List.mem_toFinset, List.mem_append, List.mem_append, List.mem_flatMap]
    exact .inl (.inr ⟨hash, hkey, by simp [htx]⟩)
  · have hkey : hash ∈ s.keys := by
      by_contra hkey
      rw [h.listed.2, Bool.not_eq_true, Option.isSome_eq_false_iff, Option.isNone_iff_eq_none]
        at hkey
      rw [h.vtxPrev hash hkey] at hmem
      cases hmem
    rw [List.mem_toFinset, List.mem_append, List.mem_append, List.mem_flatMap]
    exact .inl (.inr ⟨hash, hkey, by simp [List.mem_map_of_mem hmem]⟩)
  · refine ⟨?_, h.sizedChain htx⟩
    obtain ⟨block, hblock, hmem⟩ := htx
    rw [List.mem_toFinset, List.mem_append, List.mem_flatMap]
    exact .inr ⟨block, hblock, List.mem_map_of_mem hmem⟩

theorem Known.reaches (h : Known W E U s) (hreach : Reaches W E s s') : Known W E U s' := by
  induction hreach with
  | refl => exact h
  | tail _ hstep ih => exact ih.next hstep

/-- No mark is cleared in a run. -/
theorem Known.marks_of_reaches (h : Known W E U s) (hreach : Reaches W E s s') {o : COutPoint}
    (hmark : s.wallet.Marked o) : s'.wallet.Marked o := by
  induction hreach with
  | refl => exact hmark
  | tail hreach hstep ih =>
    have hmark' := (h.reaches hreach).marks ih
    rwa [hstep] at hmark'

theorem Known.settled_of_reaches (h : Known W E U s) (hlast : s.last = none)
    (hreach : Reaches W E s s') (hgood : ∀ s', Reaches W E s s' → s'.Good W E) :
    s'.Settled W := by
  induction hreach with
  | refl =>
    intro o last hsome
    rw [hlast] at hsome
    cases hsome
  | tail hreach hstep ih => exact (h.reaches hreach).settled (hgood _ hreach) ih hstep

/-- Every run ends and clears no mark; and where no entry is passed over that has a due output
unmarked, and the scans write what they find, nothing is due unmarked when the run returns. -/
theorem allSpentMarked (h : Starts W E s) :
    (∃ s', Reaches W E s s' ∧ ∀ s'', step W E s' ≠ .next s'') ∧
    (∀ s', Reaches W E s s' → ∀ o, s.wallet.Marked o →
      s'.wallet.Marked o ∧ (step W E s').state.wallet.Marked o) ∧
    ((∀ s', Reaches W E s s' → s'.Good W E) → ∀ s' s'', Reaches W E s s' →
      step W E s' = .returned s'' → ∀ o, s''.Due W o → s''.wallet.Marked o) := by
  obtain ⟨U, hknown⟩ := h.known
  refine ⟨hknown.ends, fun s' hreach o hmark ↦ ?_, fun hgood s' s'' hreach hstep o hdue ↦ ?_⟩
  · have hmark' := hknown.marks_of_reaches hreach hmark
    exact ⟨hmark', (hknown.reaches hreach).marks hmark'⟩
  · exact (hknown.reaches hreach).returned (hgood s' hreach)
      (hknown.settled_of_reaches h.last hreach hgood) hstep hdue

/-! ## A coinstake with two outputs of ours -/

namespace Sample

def stake : CTransaction where
  nVersion := 1
  nTime := 1
  vin := [⟨⟨7, 0⟩, [], uintMax⟩]
  vout := [⟨0, []⟩, ⟨5, [1]⟩, ⟨5, [1]⟩]
  nLockTime := 0

/-- A node with the coinstake in its index, both outputs of ours spent. -/
def node : NodeState :=
  { NodeState.init with
    txdb := ⟨fun
      | .tx 1001 => some ⟨⟨1, 8, 16⟩, [.null, ⟨1, 300, 308⟩, ⟨1, 300, 308⟩]⟩
      | _ => none, none⟩ }

def env : ReacceptEnv where
  world _ := Bws.Sample.world
  wallet _ := Wallet.Sample.env
  vtxPrev _ := []
  nTimeFirstKey := 0
  chain := []

/-- The wallet with the coinstake and the marks `vfSpent`. -/
def start (vfSpent : List Bool) : Reaccept where
  wallet := Wallet.put 1001 { stake.toWalletTx with vfSpent } ⟨fun _ ↦ none⟩
  keys := [1001]
  node := node
  last := none
  vMissingTx := []
  clock := 0

theorem tx?_start {vfSpent : List Bool} {hash : UInt256} {tx : CTransaction}
    (h : (start vfSpent).wallet.tx? hash = some tx) : hash = 1001 ∧ tx = stake := by
  rw [start, Wallet.tx?_put] at h
  by_cases hhash : hash = 1001
  · subst hhash
    rw [Function.update_self] at h
    cases h
    exact ⟨rfl, rfl⟩
  · rw [Function.update_of_ne hhash] at h
    cases h

theorem starts (vfSpent : List Bool) : Starts Wallet.Sample.wallet env (start vfSpent) where
  last := rfl
  vMissingTx := rfl
  listed := by
    refine ⟨List.pairwise_singleton _ _, fun hash ↦ ?_⟩
    rw [isSome_mapWallet_iff]
    constructor
    · intro hmem
      obtain rfl : hash = 1001 := List.mem_singleton.mp hmem
      exact ⟨stake, rfl⟩
    · rintro ⟨tx, htx⟩
      exact List.mem_singleton.mpr (tx?_start htx).1
  keyed := fun htx ↦ by
    obtain ⟨rfl, rfl⟩ := tx?_start htx
    exact .inl rfl
  vtxPrev := fun _ _ ↦ rfl
  sized := fun htx ↦ by
    obtain ⟨rfl, rfl⟩ := tx?_start htx
    rintro txindex ⟨⟩
    rfl
  sizedChain := by
    rintro tx ⟨block, hblock, -⟩
    cases hblock

/-- The state after the visit. -/
def visited (vfSpent : List Bool) : Reaccept :=
  (step Wallet.Sample.wallet env (start vfSpent)).state

end Sample

theorem allSpentMarked_sample :
    step Wallet.Sample.wallet Sample.env (Sample.visited []) = .returned (Sample.visited []) ∧
      (Sample.visited []).wallet.Marked ⟨1001, 1⟩ ∧
      (Sample.visited []).wallet.Marked ⟨1001, 2⟩ := by
  have hvisit : step Wallet.Sample.wallet Sample.env (Sample.start []) =
      .next (Sample.visited []) := rfl
  have hreturn : step Wallet.Sample.wallet Sample.env (Sample.visited []) =
      .returned (Sample.visited []) := rfl
  have hreaches : ∀ s, Reaches Wallet.Sample.wallet Sample.env (Sample.start []) s →
      s = Sample.start [] ∨ s = Sample.visited [] := by
    intro s hreach
    induction hreach with
    | refl => exact .inl rfl
    | tail _ hstep ih =>
      rcases ih with rfl | rfl
      · rw [hvisit] at hstep
        cases hstep
        exact .inr rfl
      · rw [hreturn] at hstep
        cases hstep
  have hgood : ∀ s, Reaches Wallet.Sample.wallet Sample.env (Sample.start []) s →
      s.Good Wallet.Sample.wallet Sample.env := by
    intro s hreach
    refine ⟨fun hash wtx hnext hget hskips ↦ ?_, fun _ _ i tx hi ↦ by cases hi⟩
    rcases hreaches s hreach with rfl | rfl
    · cases hnext
      cases hget
      cases hskips
    · cases hnext
  have hmarked := (allSpentMarked (Sample.starts [])).2.2 hgood _ _ (.single hvisit) hreturn
  refine ⟨hreturn, hmarked _ ⟨?_, _, rfl, _, rfl, rfl⟩, hmarked _ ⟨?_, _, rfl, _, rfl, rfl⟩⟩
  · exact rfl
  · exact rfl

/-- With its first output marked the coinstake is passed over, though the second is spent too. -/
theorem not_allSpentMarked : ∃ s', Starts Wallet.Sample.wallet Sample.env
      (Sample.start [false, true]) ∧
    Reaches Wallet.Sample.wallet Sample.env (Sample.start [false, true]) s' ∧
    step Wallet.Sample.wallet Sample.env s' = .returned s' ∧
    s'.Due Wallet.Sample.wallet ⟨1001, 2⟩ ∧ ¬ s'.wallet.Marked ⟨1001, 2⟩ := by
  have hvisit : step Wallet.Sample.wallet Sample.env (Sample.start [false, true]) =
      .next (Sample.visited [false, true]) := rfl
  refine ⟨Sample.visited [false, true], Sample.starts _, .single hvisit, rfl,
    ⟨rfl, _, rfl, _, rfl, rfl⟩, ?_⟩
  rintro ⟨wtx, hget, hspent⟩
  cases hget
  cases hspent

end Reaccept

end Bws
