import Bws.AcceptBlock
import Bws.Wallet

/-!
# Which outputs are marked spent

An output of ours that a transaction in the memory pool or in the best chain spends is marked, as
long as no event clears its mark (`Wallet.Run.allMarked`).  Marks are cleared by
`WalletUpdateSpent(tx, true)`, for every output of a transaction that a block confirms, spent or
not, and a new entry starts without any; `DisableTransaction` clears those of the inputs of a
coinstake.

A handler is described by the transactions that it leaves in the map and by the marks that it may
clear (`Kept`).  `live` are the hashes of the transactions in the pool or in the best chain: one
enters when the wallet is told, and may leave at any time.
-/

namespace Bws

namespace Wallet

variable (W : WalletParams)

/-- The transaction of an entry. -/
def tx? (s : Wallet) (hash : UInt256) : Option CTransaction :=
  (s.mapWallet hash).map fun wtx ↦ wtx.toCTransaction

/-- The output `o` of a wallet transaction is ours. -/
def Mine (s : Wallet) (o : COutPoint) : Prop := (s.mineOutput W o).isSome

/-- The output `o` of a wallet transaction is marked spent. -/
def Marked (s : Wallet) (o : COutPoint) : Prop :=
  ∃ wtx, s.mapWallet o.hash = some wtx ∧ wtx.isSpent o.n = .ok true

/-- A wallet transaction in the memory pool or in the best chain has the input `o`. -/
def SpentBy (s : Wallet) (live : List UInt256) (o : COutPoint) : Prop :=
  ∃ hash ∈ live, ∃ tx, s.tx? hash = some tx ∧ ∃ txin ∈ tx.vin, txin.prevout = o

/-- Every output of ours that a wallet transaction in the pool or in the chain spends is marked. -/
def AllMarked (s : Wallet) (live : List UInt256) : Prop :=
  ∀ o, s.Mine W o → s.SpentBy live o → s.Marked o

/-- The entry that `mapWallet[hash]` makes. -/
def IsBlank (tx : CTransaction) : Prop := tx.vin = [] ∧ tx.vout = []

/-- An entry stands under its hash, unless it is blank. -/
def Keyed (s : Wallet) : Prop :=
  ∀ {hash tx}, s.tx? hash = some tx → W.params.getHash tx = hash ∨ IsBlank tx

/-! ## The conditions -/

/-- The wallet in which `tx` has an entry. -/
def withTx (s : Wallet) (tx : CTransaction) : Wallet :=
  if (s.mapWallet (W.params.getHash tx)).isSome then s
  else s.put (W.params.getHash tx) tx.toWalletTx

/-- No output of `tx` that is ours is an input of a wallet transaction in the pool or in the
chain. -/
def Unspent (s : Wallet) (tx : CTransaction) (live : List UInt256) : Prop :=
  ∀ o : COutPoint, o.hash = W.params.getHash tx → (s.withTx W tx).Mine W o →
    ¬ (s.withTx W tx).SpentBy live o

/-- `tx` is in neither, or its inputs that are ours are marked. -/
def InputsMarked (s : Wallet) (tx : CTransaction) (live : List UInt256) : Prop :=
  W.params.getHash tx ∈ live →
    ∀ tx', (s.withTx W tx).tx? (W.params.getHash tx) = some tx' → ∀ txin ∈ tx'.vin,
      (s.withTx W tx).Mine W txin.prevout → (s.withTx W tx).Marked txin.prevout

/-- `o` is an output of a wallet transaction. -/
def Knows (s : Wallet) (o : COutPoint) : Prop :=
  ∃ wtx, s.mapWallet o.hash = some wtx ∧ o.n < wtx.vout.length

end Wallet

/-- The entry is written, and the default key can be replaced. -/
def WalletEnv.Records (E : WalletEnv) : Prop := E.writeToDisk = true ∧ E.replaceDefaultKey = none

/-- The event clears no mark that is to stay: a transaction of which an output of ours is spent
already is neither confirmed nor new, and a disconnected coinstake shares no input with another
transaction; and the entry of a transaction can be written. -/
def WalletEvent.Spares (W : WalletParams) (E : WalletEnv) (s : Wallet) (live : List UInt256) :
    WalletEvent → Prop
  | .commitTransaction wtxNew _ =>
    (s.mapWallet (W.params.getHash wtxNew.toCTransaction) = none ∨ wtxNew.hashBlock ≠ 0 →
      s.Unspent W wtxNew.toCTransaction live) ∧
    (E.Records ∨ s.InputsMarked W wtxNew.toCTransaction live ∨
      E.writeToDisk = false ∧ s.mapWallet (W.params.getHash wtxNew.toCTransaction) = none ∧
        ∀ txin ∈ wtxNew.vin, s.Knows txin.prevout)
  | .syncTransaction tx pblock true =>
    s.involves W tx = .ok true →
      (s.mapWallet (W.params.getHash tx) = none ∨ (Wallet.walletTxOf W tx pblock).hashBlock ≠ 0 →
        s.Unspent W tx live) ∧
      (E.Records ∨ s.InputsMarked W tx live)
  | .syncTransaction tx _ false =>
    tx.isCoinStake → s.isFromMe W tx = .ok true → ∀ txin ∈ tx.vin, s.Mine W txin.prevout →
      ¬ s.SpentBy live txin.prevout

/-- The wallets that events lead to, each of which meets `Good` together with the wallet before it
and what is in the pool or in the chain after it. -/
inductive Wallet.Run (W : WalletParams)
    (Good : WalletEnv → Wallet → List UInt256 → WalletEvent → Prop) :
    Wallet → List UInt256 → Prop
  | start {s : Wallet} {live : List UInt256} (hkeyed : s.Keyed W) (hmarked : s.AllMarked W live) :
    Run W Good s live
  | step {s : Wallet} {live live' : List UInt256} (h : Run W Good s live) (E : WalletEnv)
      (e : WalletEvent) (hlive : live' ⊆ e.enters W.params ++ live) (hgood : Good E s live' e) :
    Run W Good (s.step W E e) live'

namespace Wallet

variable {W : WalletParams} {s s' : Wallet} {live live' : List UInt256}

/-! ## Marks of one entry -/

theorem getD_resize (vfSpent : List Bool) (nSize n : ℕ) :
    (CWalletTx.resize vfSpent nSize).getD n false =
      if n < nSize then vfSpent.getD n false else false := by
  simp only [CWalletTx.resize, List.getD_eq_getElem?_getD, List.getElem?_append, List.length_take,
    List.getElem?_take, List.getElem?_replicate]
  by_cases hsize : n < nSize
  · by_cases hlen : n < vfSpent.length
    · rw [if_pos (by omega), if_pos hsize, if_pos hsize]
    · rw [if_neg (by omega), if_pos (by omega), if_pos hsize, List.getElem?_eq_none (by omega)]
      rfl
  · rw [if_neg (by omega), if_neg (by omega), if_neg hsize]
    rfl

theorem length_resize (vfSpent : List Bool) (nSize : ℕ) :
    (CWalletTx.resize vfSpent nSize).length = nSize := by
  rw [CWalletTx.resize, List.length_append, List.length_take, List.length_replicate]
  omega

theorem isSpent_eq_ok {wtx : CWalletTx} {n : ℕ} {fSpent : Bool} :
    wtx.isSpent n = .ok fSpent ↔ n < wtx.vout.length ∧ wtx.vfSpent.getD n false = fSpent := by
  rw [CWalletTx.isSpent]
  by_cases h : wtx.vout.length ≤ n
  · rw [if_pos h]
    exact ⟨nofun, fun h' ↦ absurd h'.1 (by omega)⟩
  · rw [if_neg h, Except.ok.injEq]
    exact ⟨fun h' ↦ ⟨by omega, h'⟩, And.right⟩

/-- `MarkSpent` and `MarkUnspent` change the mark of one output. -/
theorem isSpent_setSpent {wtx wtx' : CWalletTx} {fSpent : Bool} {msg : String} {n : ℕ}
    (h : wtx.setSpent fSpent msg n = .ok wtx') :
    n < wtx.vout.length ∧ wtx'.toCTransaction = wtx.toCTransaction ∧
      wtx'.isSpent n = .ok fSpent ∧ ∀ m, m ≠ n → wtx'.isSpent m = wtx.isSpent m := by
  rw [CWalletTx.setSpent] at h
  by_cases hlen : wtx.vout.length ≤ n
  · rw [if_pos hlen] at h
    cases h
  · rw [if_neg hlen] at h
    cases h
    have hlen' : n < wtx.vout.length := by omega
    refine ⟨hlen', rfl, isSpent_eq_ok.mpr ⟨hlen', ?_⟩, fun m hm ↦ ?_⟩
    · rw [List.getD_eq_getElem?_getD, List.getElem?_set_self (by rwa [length_resize])]
      rfl
    · simp only [CWalletTx.isSpent, List.getD_eq_getElem?_getD, List.getElem?_set_ne (Ne.symm hm)]
      rw [← List.getD_eq_getElem?_getD, ← List.getD_eq_getElem?_getD, getD_resize]
      by_cases hm' : wtx.vout.length ≤ m
      · rw [if_pos hm', if_pos hm']
      · rw [if_neg hm', if_neg hm', if_pos (by omega)]

theorem getD_updateSpent (vfNewSpent vfSpent : List Bool) (n : ℕ)
    (h : vfSpent.getD n false = true) :
    (CWalletTx.updateSpent vfNewSpent vfSpent).getD n false = true := by
  induction vfSpent generalizing vfNewSpent n with
  | nil => cases h
  | cons fSpent vfSpent ih =>
    cases vfNewSpent with
    | nil => exact h
    | cons fNewSpent vfNewSpent =>
      cases n with
      | zero =>
        change fSpent = true at h
        change (fNewSpent || fSpent) = true
        rw [h, Bool.or_true]
      | succ n => exact ih vfNewSpent n h

/-- Merging keeps the transaction and its marks. -/
theorem isSpent_merge (wtxIn : CWalletTx) {wtx : CWalletTx} {n : ℕ}
    (h : wtx.isSpent n = .ok true) : (wtxIn.merge wtx).isSpent n = .ok true := by
  obtain ⟨hlen, hspent⟩ := isSpent_eq_ok.mp h
  exact isSpent_eq_ok.mpr ⟨hlen, getD_updateSpent _ _ n hspent⟩

/-! ## What a handler leaves -/

/-- The transactions stay and at most blank entries are new; a mark that `C` does not name stays. -/
structure Kept (C : COutPoint → Prop) (s s' : Wallet) : Prop where
  old : ∀ {hash tx}, s.tx? hash = some tx → s'.tx? hash = some tx
  new : ∀ {hash tx}, s'.tx? hash = some tx → s.tx? hash = some tx ∨ IsBlank tx
  marks : ∀ {o}, ¬ C o → s.Marked o → s'.Marked o

instance (C : COutPoint → Prop) : Exec.IsFrame (Kept C) where
  refl _ := ⟨id, .inl, fun _ ↦ id⟩
  trans h h' :=
    ⟨h'.old ∘ h.old, fun htx ↦ (h'.new htx).elim h.new .inr, fun hC ↦ h'.marks hC ∘ h.marks hC⟩

theorem Kept.mono {C C' : COutPoint → Prop} (h : Kept C s s') (hC : ∀ o, C o → C' o) :
    Kept C' s s' :=
  ⟨h.old, h.new, fun ho ↦ h.marks (ho ∘ hC _)⟩

theorem mine_iff {o : COutPoint} : s.Mine W o ↔ ∃ tx, s.tx? o.hash = some tx ∧
    ∃ txout, tx.vout[o.n]? = some txout ∧ W.isMine txout.scriptPubKey = true := by
  unfold Mine mineOutput tx?
  cases s.mapWallet o.hash with
  | none => exact ⟨nofun, fun ⟨_, h, _⟩ ↦ nomatch h⟩
  | some wtx =>
    simp only [Option.map_some, Option.some.injEq, exists_eq_left', Option.isSome_filter]
    cases wtx.vout[o.n]? with
    | none => simp
    | some txout => simp

theorem Kept.mine_iff {C : COutPoint → Prop} (h : Kept C s s') {o : COutPoint} :
    s'.Mine W o ↔ s.Mine W o := by
  rw [Wallet.mine_iff, Wallet.mine_iff]
  constructor
  · rintro ⟨tx, htx, txout, hout, hmine⟩
    rcases h.new htx with htx | hblank
    · exact ⟨tx, htx, txout, hout, hmine⟩
    · rw [hblank.2] at hout
      cases hout
  · rintro ⟨tx, htx, hout⟩
    exact ⟨tx, h.old htx, hout⟩

theorem Kept.spentBy {C : COutPoint → Prop} (h : Kept C s s') {o : COutPoint}
    (hspent : s'.SpentBy live o) : s.SpentBy live o := by
  obtain ⟨hash, hlive, tx, htx, txin, hin, ho⟩ := hspent
  rcases h.new htx with htx | hblank
  · exact ⟨hash, hlive, tx, htx, txin, hin, ho⟩
  · rw [hblank.1] at hin
    cases hin

theorem Kept.keyed {C : COutPoint → Prop} (h : Kept C s s') (hkeyed : s.Keyed W) :
    s'.Keyed W :=
  fun htx ↦ (h.new htx).elim hkeyed Or.inr

theorem tx?_put (hash : UInt256) (wtx : CWalletTx) (s : Wallet) :
    (s.put hash wtx).tx? = Function.update s.tx? hash (some wtx.toCTransaction) := by
  funext hash'
  by_cases hhash : hash' = hash
  · subst hhash
    rw [tx?, mapWallet_put_self, Function.update_self]
    rfl
  · rw [tx?, mapWallet_put_of_ne hhash, Function.update_of_ne hhash]
    rfl

theorem tx?_put_of_some {hash : UInt256} {wtx wtx' : CWalletTx}
    (hget : s.mapWallet hash = some wtx) (htx : wtx'.toCTransaction = wtx.toCTransaction) :
    (s.put hash wtx').tx? = s.tx? := by
  rw [tx?_put, htx, Function.update_eq_self_iff, tx?, hget]
  rfl

/-- An entry is replaced by one with the same transaction. -/
theorem kept_put {C : COutPoint → Prop} {hash : UInt256} {wtx wtx' : CWalletTx}
    (hget : s.mapWallet hash = some wtx) (htx : wtx'.toCTransaction = wtx.toCTransaction)
    (hmarks : ∀ n, ¬ C ⟨hash, n⟩ → wtx.isSpent n = .ok true → wtx'.isSpent n = .ok true) :
    Kept C s (s.put hash wtx') := by
  have htxs : (s.put hash wtx').tx? = s.tx? := tx?_put_of_some hget htx
  refine ⟨fun h ↦ htxs ▸ h, fun h ↦ .inl (htxs ▸ h), ?_⟩
  rintro ⟨hash', n⟩ hC ⟨wtx₁, hget₁, hspent⟩
  by_cases hhash : hash' = hash
  · subst hhash
    cases hget.symm.trans hget₁
    exact ⟨wtx', mapWallet_put_self .., hmarks n hC hspent⟩
  · exact ⟨wtx₁, (mapWallet_put_of_ne hhash ..).trans hget₁, hspent⟩

/-- `MarkSpent` or `MarkUnspent` of an entry. -/
theorem kept_store {C : COutPoint → Prop} {hash : UInt256} {wtx : CWalletTx} {fSpent : Bool}
    {msg : String} {n : ℕ} (hget : s.mapWallet hash = some wtx)
    (hC : fSpent = false → C ⟨hash, n⟩) :
    Kept C s (Exec.final (store hash (wtx.setSpent fSpent msg n) s)) := by
  cases hset : wtx.setSpent fSpent msg n with
  | error e => exact Exec.IsFrame.refl s
  | ok wtx' =>
    obtain ⟨-, htx, hself, hne⟩ := isSpent_setSpent hset
    refine kept_put hget htx fun m hm hspent ↦ ?_
    by_cases hmn : m = n
    · subst hmn
      cases fSpent with
      | true => exact hself
      | false => exact absurd (hC rfl) hm
    · rwa [hne m hmn]

theorem kept_markSpent {C : COutPoint → Prop} {hash : UInt256} {wtx : CWalletTx}
    (hget : s.mapWallet hash = some wtx) (n : ℕ) :
    Kept C s (Exec.final (store hash (wtx.markSpent n) s)) :=
  kept_store hget nofun

theorem kept_markUnspent {C : COutPoint → Prop} {hash : UInt256} {wtx : CWalletTx}
    (hget : s.mapWallet hash = some wtx) {n : ℕ} (hC : C ⟨hash, n⟩) :
    Kept C s (Exec.final (store hash (wtx.markUnspent n) s)) :=
  kept_store hget fun _ ↦ hC

/-! ## WalletUpdateSpent -/

theorem updateInput_run (s : Wallet) (txin : CTxIn) : ∃ s', updateInput W txin s = .ok () s' ∧
    Kept (fun _ ↦ False) s s' ∧ (s.Mine W txin.prevout → s'.Marked txin.prevout) := by
  have hsame : ¬ s.Mine W txin.prevout → Kept (fun _ ↦ False) s s ∧
      (s.Mine W txin.prevout → s.Marked txin.prevout) :=
    fun h ↦ ⟨Exec.IsFrame.refl s, fun h' ↦ absurd h' h⟩
  unfold updateInput
  cases hget : s.mapWallet txin.prevout.hash with
  | none => exact ⟨s, rfl, hsame (by simp [Mine, mineOutput, hget])⟩
  | some wtx =>
    dsimp only
    cases hout : wtx.vout[txin.prevout.n]? with
    | none => exact ⟨s, rfl, hsame (by simp [Mine, mineOutput, hget, hout])⟩
    | some txout =>
      obtain ⟨hlen, -⟩ := List.getElem?_eq_some_iff.mp hout
      have hspent : wtx.isSpent txin.prevout.n =
          .ok (wtx.vfSpent.getD txin.prevout.n false) := isSpent_eq_ok.mpr ⟨hlen, rfl⟩
      cases hmine : W.isMine txout.scriptPubKey with
      | false =>
        refine ⟨s, ?_, hsame (by simp [Mine, mineOutput, hget, hout, hmine])⟩
        dsimp only
        rw [hspent, hmine]
        simp
      | true =>
        cases hmark : wtx.vfSpent.getD txin.prevout.n false with
        | true =>
          rw [hmark] at hspent
          refine ⟨s, ?_, Exec.IsFrame.refl s, fun _ ↦ ⟨wtx, hget, hspent⟩⟩
          dsimp only
          rw [hspent]
          simp
        | false =>
          rw [hmark] at hspent
          obtain ⟨marked, hset⟩ : ∃ marked, wtx.markSpent txin.prevout.n = .ok marked :=
            ⟨_, if_neg (by omega)⟩
          obtain ⟨-, -, hself, -⟩ := isSpent_setSpent hset
          have hkept := kept_markSpent (C := fun _ ↦ False) hget txin.prevout.n
          rw [hset] at hkept
          refine ⟨_, ?_, hkept, fun _ ↦ ⟨_, mapWallet_put_self .., hself⟩⟩
          dsimp only
          rw [hspent, hset, hmine]
          simp [store]

theorem updateInputs_run (s : Wallet) (vin : List CTxIn) :
    ∃ s', Exec.forEach (updateInput W) vin s = .ok () s' ∧ Kept (fun _ ↦ False) s s' ∧
      ∀ txin ∈ vin, s.Mine W txin.prevout → s'.Marked txin.prevout := by
  induction vin generalizing s with
  | nil => exact ⟨s, rfl, Exec.IsFrame.refl s, fun _ h ↦ absurd h List.not_mem_nil⟩
  | cons txin vin ih =>
    obtain ⟨s₁, hrun₁, hkept₁, hmark₁⟩ := updateInput_run (W := W) s txin
    obtain ⟨s₂, hrun₂, hkept₂, hmark₂⟩ := ih s₁
    refine ⟨s₂, Exec.forEach_cons_eq_ok.mpr ⟨s₁, hrun₁, hrun₂⟩,
      Exec.IsFrame.trans hkept₁ hkept₂, ?_⟩
    intro txin' hmem hmine
    rcases List.mem_cons.mp hmem with rfl | hmem
    · exact hkept₂.marks id (hmark₁ hmine)
    · exact hmark₂ txin' hmem ((hkept₁.mine_iff).mpr hmine)

/-- The marks that `WalletUpdateSpent(tx, fBlock)` clears. -/
def Cleared (W : WalletParams) (tx : CTransaction) (fBlock : Bool) (o : COutPoint) : Prop :=
  fBlock = true ∧ o.hash = W.params.getHash tx ∧
    ∃ txout, tx.vout[o.n]? = some txout ∧ W.isMine txout.scriptPubKey = true

theorem keeps_updateOutputs (tx : CTransaction) :
    Exec.Keeps (Kept (Cleared W tx true))
      (Exec.forEach (updateOutput W (W.params.getHash tx)) tx.vout.zipIdx) := by
  apply Exec.Keeps.forEach
  rintro ⟨txout, n⟩ hmem s
  unfold updateOutput
  cases hmine : W.isMine txout.scriptPubKey with
  | false => exact Exec.IsFrame.refl s
  | true =>
    cases hget : s.mapWallet (W.params.getHash tx) with
    | none => exact Exec.IsFrame.refl s
    | some wtx =>
      exact kept_markUnspent hget
        ⟨rfl, rfl, txout, List.mem_zipIdx_iff_getElem?.mp hmem, hmine⟩

theorem kept_walletUpdateSpent (s : Wallet) (tx : CTransaction) (fBlock : Bool) :
    Kept (Cleared W tx fBlock) s (Exec.final (walletUpdateSpent W tx fBlock s)) ∧
      ∀ txin ∈ tx.vin, s.Mine W txin.prevout → ¬ Cleared W tx fBlock txin.prevout →
        (Exec.final (walletUpdateSpent W tx fBlock s)).Marked txin.prevout := by
  obtain ⟨s₁, hrun, hkept, hmark⟩ := updateInputs_run (W := W) s tx.vin
  have hkept₂ : Kept (Cleared W tx fBlock) s₁ (Exec.final (walletUpdateSpent W tx fBlock s)) := by
    rw [walletUpdateSpent, Exec.bind_of_ok hrun]
    cases fBlock with
    | false => exact Exec.IsFrame.refl s₁
    | true => exact keeps_updateOutputs tx s₁
  exact ⟨Exec.IsFrame.trans (hkept.mono fun _ ↦ False.elim) hkept₂,
    fun txin hmem hmine hC ↦ hkept₂.marks hC (hmark txin hmem hmine)⟩

/-! ## AddToWallet -/

theorem kept_addedToWallet (E : WalletEnv) (s : Wallet) (tx : CTransaction)
    (fWrite fBlock : Bool) :
    Kept (Cleared W tx fBlock) s (Exec.final (addedToWallet W E tx fWrite fBlock s)) ∧
      (E.Records → ∀ txin ∈ tx.vin, s.Mine W txin.prevout → ¬ Cleared W tx fBlock txin.prevout →
        (Exec.final (addedToWallet W E tx fWrite fBlock s)).Marked txin.prevout) := by
  rw [addedToWallet]
  by_cases hwrite : fWrite = true ∧ E.writeToDisk = false
  · rw [if_pos (by simp [hwrite.1, hwrite.2])]
    exact ⟨Exec.IsFrame.refl s, fun h ↦ by simp [h.1] at hwrite⟩
  · rw [if_neg (by simpa using hwrite)]
    cases hreplace : E.replaceDefaultKey with
    | some e =>
      have hrun : replaceDefaultKey E s = .error e s := by rw [replaceDefaultKey, hreplace]
      rw [Exec.bind_of_error hrun]
      exact ⟨Exec.IsFrame.refl s, fun h ↦ by simp [h.2] at hreplace⟩
    | none =>
      have hrun : replaceDefaultKey E s = .ok () s := by rw [replaceDefaultKey, hreplace]
      have hupdate := kept_walletUpdateSpent (W := W) s tx fBlock
      have hpure := Exec.Keeps.final_bind (R := Kept fun _ ↦ False)
        (x := walletUpdateSpent W tx fBlock) (f := fun _ ↦ pure true)
        (fun _ ↦ Exec.Keeps.pure true) s
      rw [Exec.bind_of_ok hrun]
      exact ⟨Exec.IsFrame.trans hupdate.1 (hpure.mono fun _ ↦ False.elim),
        fun _ txin hmem hmine hC ↦ hpure.marks id (hupdate.2 txin hmem hmine hC)⟩

theorem withTx_of_some {tx : CTransaction} {wtx : CWalletTx}
    (h : s.mapWallet (W.params.getHash tx) = some wtx) : s.withTx W tx = s := by
  rw [withTx, h]
  exact if_pos rfl

theorem withTx_of_none {tx : CTransaction} (h : s.mapWallet (W.params.getHash tx) = none) :
    s.withTx W tx = s.put (W.params.getHash tx) tx.toWalletTx := by
  rw [withTx, h]
  exact if_neg (by simp)

/-- `AddToWallet`, where the wallet `s₁` with the entry differs from `s₀` in marks that are set. -/
theorem kept_addToWallet_of_eq {E : WalletEnv} {s s₀ s₁ : Wallet} {wtxIn : CWalletTx}
    {tx : CTransaction} {fWrite : Bool}
    (heq : addToWallet W E wtxIn s = addedToWallet W E tx fWrite (wtxIn.hashBlock ≠ 0) s₁)
    (hkept : Kept (fun _ ↦ False) s₀ s₁) :
    Kept (Cleared W tx (wtxIn.hashBlock ≠ 0)) s₀ (Exec.final (addToWallet W E wtxIn s)) ∧
      (E.Records → ∀ txin ∈ tx.vin, s₀.Mine W txin.prevout →
        ¬ Cleared W tx (wtxIn.hashBlock ≠ 0) txin.prevout →
          (Exec.final (addToWallet W E wtxIn s)).Marked txin.prevout) := by
  obtain ⟨hkept₁, hmark⟩ := kept_addedToWallet (W := W) E s₁ tx fWrite (wtxIn.hashBlock ≠ 0)
  rw [heq]
  exact ⟨Exec.IsFrame.trans (hkept.mono fun _ ↦ False.elim) hkept₁,
    fun hE txin hmem hmine ↦ hmark hE txin hmem ((hkept.mine_iff).mpr hmine)⟩

/-- `AddToWallet(wtxIn)` with the entry that it leaves in the map. -/
theorem kept_addToWallet (E : WalletEnv) (s : Wallet) (wtxIn : CWalletTx) :
    ∃ tx, (s.withTx W wtxIn.toCTransaction).tx? (W.params.getHash wtxIn.toCTransaction) =
        some tx ∧
      Kept (Cleared W tx (wtxIn.hashBlock ≠ 0)) (s.withTx W wtxIn.toCTransaction)
        (Exec.final (addToWallet W E wtxIn s)) ∧
      (E.Records → ∀ txin ∈ tx.vin, (s.withTx W wtxIn.toCTransaction).Mine W txin.prevout →
        ¬ Cleared W tx (wtxIn.hashBlock ≠ 0) txin.prevout →
          (Exec.final (addToWallet W E wtxIn s)).Marked txin.prevout) := by
  cases hget : s.mapWallet (W.params.getHash wtxIn.toCTransaction) with
  | none =>
    have heq : addToWallet W E wtxIn s =
        addedToWallet W E wtxIn.toCTransaction true (wtxIn.hashBlock ≠ 0)
          (s.put (W.params.getHash wtxIn.toCTransaction) wtxIn) := by
      rw [addToWallet]
      simp only [hget]
    have hidem : (s.put (W.params.getHash wtxIn.toCTransaction)
        wtxIn.toCTransaction.toWalletTx).put (W.params.getHash wtxIn.toCTransaction) wtxIn =
        s.put (W.params.getHash wtxIn.toCTransaction) wtxIn :=
      congrArg Wallet.mk (Function.update_idem ..)
    rw [withTx_of_none hget]
    refine ⟨wtxIn.toCTransaction, by rw [tx?, mapWallet_put_self]; rfl,
      kept_addToWallet_of_eq heq ?_⟩
    rw [← hidem]
    refine kept_put (mapWallet_put_self ..) rfl fun n _ h ↦ ?_
    -- a new entry has no marks
    cases (isSpent_eq_ok.mp h).2
  | some wtx =>
    have heq : addToWallet W E wtxIn s =
        addedToWallet W E wtx.toCTransaction (wtxIn.merge wtx ≠ wtx) (wtxIn.hashBlock ≠ 0)
          (s.put (W.params.getHash wtxIn.toCTransaction) (wtxIn.merge wtx)) := by
      rw [addToWallet]
      simp only [hget]
    rw [withTx_of_some hget]
    exact ⟨wtx.toCTransaction, by rw [tx?, hget]; rfl,
      kept_addToWallet_of_eq heq (kept_put hget rfl fun n _ ↦ isSpent_merge wtxIn)⟩

/-! ## What stays marked -/

/-- The outputs that are spent after a step are marked if they were before it and are not cleared,
or have been marked by the step. -/
theorem Kept.staysMarked {C : COutPoint → Prop} (h : Kept C s s')
    (hmarks : ∀ o, s.Mine W o → s.SpentBy live o → (¬ C o ∧ s.Marked o) ∨ s'.Marked o) :
    s'.AllMarked W live := by
  intro o hmine hspent
  rcases hmarks o ((h.mine_iff).mp hmine) (h.spentBy hspent) with ⟨hC, hmarked⟩ | hmarked
  · exact h.marks hC hmarked
  · exact hmarked

theorem Keyed.withTx (h : s.Keyed W) (tx : CTransaction) : (s.withTx W tx).Keyed W := by
  intro hash tx' htx
  cases hget : s.mapWallet (W.params.getHash tx) with
  | some wtx => exact h (withTx_of_some hget ▸ htx)
  | none =>
    rw [withTx_of_none hget] at htx
    by_cases hhash : hash = W.params.getHash tx
    · subst hhash
      rw [tx?, mapWallet_put_self] at htx
      cases htx
      exact .inl rfl
    · rw [tx?, mapWallet_put_of_ne hhash] at htx
      exact h htx

/-- The other entries are as they were. -/
theorem mapWallet_withTx {tx : CTransaction} {hash : UInt256} (h : hash ≠ W.params.getHash tx) :
    (s.withTx W tx).mapWallet hash = s.mapWallet hash := by
  cases hget : s.mapWallet (W.params.getHash tx) with
  | some wtx => rw [withTx_of_some hget]
  | none => rw [withTx_of_none hget, mapWallet_put_of_ne h]

/-- A transaction is recorded: `tx'` is what its entry holds.  The marks that stay are those of
outputs that were spent before, and the inputs of `tx'` have been marked. -/
theorem allMarked_of_recorded {tx tx' : CTransaction} {fBlock : Bool} (hkeyed : s.Keyed W)
    (hall : s.AllMarked W live)
    (hlive : ∀ hash ∈ live', hash = W.params.getHash tx ∨ hash ∈ live)
    (htx : (s.withTx W tx).tx? (W.params.getHash tx) = some tx')
    (hkept : Kept (Cleared W tx' fBlock) (s.withTx W tx) s')
    (hunspent : s.mapWallet (W.params.getHash tx) = none ∨ fBlock = true → s.Unspent W tx live')
    (hinputs : W.params.getHash tx ∈ live' → ∀ txin ∈ tx'.vin,
      (s.withTx W tx).Mine W txin.prevout → ¬ Cleared W tx' fBlock txin.prevout →
        s'.Marked txin.prevout) :
    s'.AllMarked W live' := by
  apply hkept.staysMarked
  intro o hmine hspent
  have hC : ¬ Cleared W tx' fBlock o := by
    rintro ⟨hfBlock, hhash, txout, hout, -⟩
    rcases hkeyed.withTx tx htx with hkey | hblank
    · exact hunspent (.inr hfBlock) o (hhash.trans hkey) hmine hspent
    · rw [hblank.2] at hout
      cases hout
  obtain ⟨hash, hmem, tx₁, htx₁, txin, hin, ho⟩ := hspent
  by_cases hhash : hash = W.params.getHash tx
  · subst hhash
    cases htx.symm.trans htx₁
    exact .inr (ho ▸ hinputs hmem txin hin (ho ▸ hmine) (ho ▸ hC))
  · have hmem' : hash ∈ live := (hlive hash hmem).resolve_left hhash
    have hspent' : s.SpentBy live o := ⟨hash, hmem', tx₁,
      by rwa [tx?, mapWallet_withTx hhash] at htx₁, txin, hin, ho⟩
    cases hget : s.mapWallet (W.params.getHash tx) with
    | some wtx =>
      rw [withTx_of_some hget] at hmine ⊢
      exact .inl ⟨hC, hall o hmine hspent'⟩
    | none =>
      by_cases hoh : o.hash = W.params.getHash tx
      · exact absurd ⟨hash, hmem, tx₁, htx₁, txin, hin, ho⟩ (hunspent (.inl hget) o hoh hmine)
      · have hentry := mapWallet_withTx (s := s) hoh
        obtain ⟨wtx, hwtx, hmark⟩ := hall o
          (by rwa [Mine, mineOutput, hentry, ← mineOutput, ← Mine] at hmine) hspent'
        exact .inl ⟨hC, wtx, hentry.trans hwtx, hmark⟩

/-! ## The handlers -/

theorem involves_of_some {tx : CTransaction} {wtx : CWalletTx}
    (h : s.mapWallet (W.params.getHash tx) = some wtx) : s.involves W tx = .ok true := by
  rw [involves, h]
  rfl

theorem toCTransaction_walletTxOf (tx : CTransaction) (pblock : Option CBlock) :
    (walletTxOf W tx pblock).toCTransaction = tx := by
  cases pblock with
  | none => rfl
  | some block =>
    unfold walletTxOf CWalletTx.setMerkleBranch
    dsimp only
    split <;> rfl

theorem final_syncTransaction (E : WalletEnv) {tx : CTransaction} {pblock : Option CBlock}
    (h : s.involves W tx = .ok true) :
    Exec.final (syncTransaction W E tx pblock true s) =
      Exec.final (addToWallet W E (walletTxOf W tx pblock) s) := by
  have hadd : addToWalletIfInvolvingMe W E tx pblock true s =
      addToWallet W E (walletTxOf W tx pblock) s := by
    rw [addToWalletIfInvolvingMe, Bool.not_true, Bool.and_false, h]
    rfl
  change Exec.final ((addToWalletIfInvolvingMe W E tx pblock true >>= fun _ ↦ pure ()) s) = _
  rw [Exec.final_bind_pure, hadd]

/-- A transaction that does not involve the wallet gets no entry. -/
theorem kept_syncTransaction_of_stranger (E : WalletEnv) {tx : CTransaction}
    {pblock : Option CBlock} (h : s.involves W tx ≠ .ok true) :
    Kept (fun _ ↦ False) s (Exec.final (syncTransaction W E tx pblock true s)) := by
  have hadd : Kept (fun _ ↦ False) s
      (Exec.final (addToWalletIfInvolvingMe W E tx pblock true s)) := by
    rw [addToWalletIfInvolvingMe, Bool.not_true, Bool.and_false]
    cases hinv : s.involves W tx with
    | error e => exact Exec.IsFrame.refl s
    | ok fInvolved =>
      cases fInvolved with
      | true => exact absurd hinv h
      | false =>
        have hupdate := (kept_walletUpdateSpent (W := W) s tx false).1
        exact Exec.IsFrame.trans (hupdate.mono fun _ hC ↦ nomatch hC.1)
          (Exec.Keeps.final_bind (fun _ ↦ Exec.Keeps.pure false) s)
  exact Exec.IsFrame.trans hadd (Exec.Keeps.final_bind (fun _ ↦ Exec.Keeps.pure ()) s)

theorem allMarked_connect (E : WalletEnv) {tx : CTransaction} {pblock : Option CBlock}
    (hkeyed : s.Keyed W) (hall : s.AllMarked W live)
    (hlive : ∀ hash ∈ live', hash = W.params.getHash tx ∨ hash ∈ live)
    (hspares : (WalletEvent.syncTransaction tx pblock true).Spares W E s live') :
    (Exec.final (syncTransaction W E tx pblock true s)).Keyed W ∧
      (Exec.final (syncTransaction W E tx pblock true s)).AllMarked W live' := by
  by_cases hinv : s.involves W tx = .ok true
  · obtain ⟨hunspent, hinputs⟩ := hspares hinv
    have hadd := kept_addToWallet (W := W) E s (walletTxOf W tx pblock)
    rw [toCTransaction_walletTxOf] at hadd
    obtain ⟨tx', htx, hkept, hmark⟩ := hadd
    rw [final_syncTransaction E hinv]
    refine ⟨hkept.keyed (hkeyed.withTx tx), allMarked_of_recorded hkeyed hall hlive htx hkept
      (fun h ↦ hunspent (h.imp id of_decide_eq_true)) fun hmem txin hin hmine hC ↦ ?_⟩
    rcases hinputs with hE | hinputs
    · exact hmark hE txin hin hmine hC
    · exact hkept.marks hC (hinputs hmem tx' htx txin hin hmine)
  · have hkept : Kept _ s (Exec.final (syncTransaction W E tx pblock true s)) :=
      kept_syncTransaction_of_stranger E hinv
    refine ⟨hkept.keyed hkeyed, hkept.staysMarked fun o hmine hspent ↦ .inl ⟨id, hall o hmine ?_⟩⟩
    obtain ⟨hash, hmem, tx₁, htx₁, hin⟩ := hspent
    rcases hlive hash hmem with rfl | hmem
    · obtain ⟨wtx, hget, -⟩ := Option.map_eq_some_iff.mp htx₁
      exact absurd (involves_of_some hget) hinv
    · exact ⟨hash, hmem, tx₁, htx₁, hin⟩

theorem keeps_refundInputs (vin : List CTxIn) :
    Exec.Keeps (Kept fun o ↦ ∃ txin ∈ vin, txin.prevout = o)
      (Exec.forEach (refundInput W) vin) := by
  apply Exec.Keeps.forEach
  intro txin hmem s
  unfold refundInput
  cases hget : s.mapWallet txin.prevout.hash with
  | none => exact Exec.IsFrame.refl s
  | some prev =>
    dsimp only
    split
    · exact kept_markUnspent hget ⟨txin, hmem, rfl⟩
    · exact Exec.IsFrame.refl s

theorem allMarked_disconnect (E : WalletEnv) {tx : CTransaction} {pblock : Option CBlock}
    (hkeyed : s.Keyed W) (hall : s.AllMarked W live) (hlive : live' ⊆ live)
    (hspares : (WalletEvent.syncTransaction tx pblock false).Spares W E s live') :
    (Exec.final (syncTransaction W E tx pblock false s)).Keyed W ∧
      (Exec.final (syncTransaction W E tx pblock false s)).AllMarked W live' := by
  have hmono : ∀ {o}, s.SpentBy live' o → s.SpentBy live o :=
    fun ⟨hash, hmem, h⟩ ↦ ⟨hash, hlive hmem, h⟩
  have hsame : s.Keyed W ∧ s.AllMarked W live' := ⟨hkeyed, fun o hmine ↦ hall o hmine ∘ hmono⟩
  by_cases hcoin : tx.isCoinStake
  · cases hfrom : s.isFromMe W tx with
    | error e => simpa [syncTransaction, hcoin, hfrom] using hsame
    | ok fFromMe =>
      cases fFromMe with
      | false => simpa [syncTransaction, hcoin, hfrom] using hsame
      | true =>
        have hkept := keeps_refundInputs (W := W) tx.vin s
        have heq : syncTransaction W E tx pblock false s =
            Exec.forEach (refundInput W) tx.vin s := by
          simp [syncTransaction, disableTransaction, hcoin, hfrom]
        rw [heq]
        refine ⟨hkept.keyed hkeyed, hkept.staysMarked fun o hmine hspent ↦
          .inl ⟨?_, hall o hmine (hmono hspent)⟩⟩
        rintro ⟨txin, hmem, rfl⟩
        exact hspares hcoin hfrom txin hmem hmine hspent
  · simpa [syncTransaction, hcoin] using hsame

/-! ## CommitTransaction -/

theorem kept_put_blank {C : COutPoint → Prop} {hash : UInt256} {tx : CTransaction}
    (hget : s.mapWallet hash = none) (hblank : IsBlank tx) :
    Kept C s (s.put hash tx.toWalletTx) := by
  have htx : ∀ {hash'}, hash' ≠ hash → (s.put hash tx.toWalletTx).tx? hash' = s.tx? hash' :=
    fun h ↦ congrArg _ (mapWallet_put_of_ne h ..)
  have hnone : s.tx? hash = none := by rw [tx?, hget]; rfl
  refine ⟨fun {hash' tx'} h ↦ ?_, fun {hash' tx'} h ↦ ?_, ?_⟩
  · by_cases hhash : hash' = hash
    · subst hhash
      cases hnone.symm.trans h
    · rwa [htx hhash]
  · by_cases hhash : hash' = hash
    · subst hhash
      rw [tx?, mapWallet_put_self] at h
      cases h
      exact .inr hblank
    · exact .inl (by rwa [htx hhash] at h)
  · rintro ⟨hash', n⟩ - ⟨wtx, hwtx, hmark⟩
    by_cases hhash : hash' = hash
    · subst hhash
      cases hget.symm.trans hwtx
    · exact ⟨wtx, (mapWallet_put_of_ne hhash ..).trans hwtx, hmark⟩

theorem put_eq_self {hash : UInt256} {wtx : CWalletTx} (hget : s.mapWallet hash = some wtx) :
    s.put hash wtx = s :=
  congrArg Wallet.mk (Function.update_eq_self_iff.mpr hget.symm)

theorem keeps_markCoin (E : WalletEnv) (txin : CTxIn) :
    Exec.Keeps (Kept fun _ ↦ False) (markCoin E txin) := by
  intro s
  unfold markCoin entryAt
  dsimp only
  cases hget : s.mapWallet txin.prevout.hash with
  | some coin =>
    rw [Option.getD_some, put_eq_self hget]
    exact kept_markSpent hget _
  | none =>
    have hempty : (CTransaction.empty E.nAdjustedTime).vin = [] ∧
        (CTransaction.empty E.nAdjustedTime).vout = [] := ⟨rfl, rfl⟩
    have hblank := kept_put_blank (C := fun _ ↦ False) hget hempty
    exact Exec.IsFrame.trans hblank (kept_markSpent (mapWallet_put_self ..) _)

theorem kept_markCoins (E : WalletEnv) (s : Wallet) (vin : List CTxIn) :
    Kept (fun _ ↦ False) s (Exec.final (Exec.forEach (markCoin E) vin s)) :=
  Exec.Keeps.forEach (fun txin _ ↦ keeps_markCoin E txin) s

theorem markCoins_run (E : WalletEnv) (s : Wallet) (vin : List CTxIn)
    (hknown : ∀ txin ∈ vin, s.Knows txin.prevout) :
    ∃ s', Exec.forEach (markCoin E) vin s = .ok () s' ∧ ∀ txin ∈ vin, s'.Marked txin.prevout := by
  induction vin generalizing s with
  | nil => exact ⟨s, rfl, fun _ h ↦ absurd h List.not_mem_nil⟩
  | cons txin vin ih =>
    obtain ⟨wtx, hget, hlen⟩ := hknown txin List.mem_cons_self
    obtain ⟨marked, hset⟩ : ∃ marked, wtx.markSpent txin.prevout.n = .ok marked :=
      ⟨_, if_neg (by omega)⟩
    obtain ⟨-, htx, hself, -⟩ := isSpent_setSpent hset
    have hrun : markCoin E txin s = .ok () (s.put txin.prevout.hash marked) := by
      unfold markCoin entryAt
      dsimp only
      rw [hget, Option.getD_some, put_eq_self hget, hset, store]
    have hknown' : ∀ txin' ∈ vin, (s.put txin.prevout.hash marked).Knows txin'.prevout := by
      intro txin' hmem
      obtain ⟨wtx', hget', hlen'⟩ := hknown txin' (List.mem_cons_of_mem txin hmem)
      by_cases hhash : txin'.prevout.hash = txin.prevout.hash
      · rw [hhash, hget] at hget'
        cases hget'
        exact ⟨marked, by rw [hhash, mapWallet_put_self], by rwa [htx]⟩
      · exact ⟨wtx', (mapWallet_put_of_ne hhash ..).trans hget', hlen'⟩
    obtain ⟨s', hloop, hmarks⟩ := ih (s.put txin.prevout.hash marked) hknown'
    have hkept := kept_markCoins E (s.put txin.prevout.hash marked) vin
    rw [hloop] at hkept
    refine ⟨s', Exec.forEach_cons_eq_ok.mpr ⟨_, hrun, hloop⟩, fun txin' hmem ↦ ?_⟩
    rcases List.mem_cons.mp hmem with rfl | hmem
    · exact hkept.marks id ⟨_, mapWallet_put_self .., hself⟩
    · exact hmarks txin' hmem

/-- The pool tells of a transaction that has an entry. -/
theorem kept_acceptToMemoryPool (accepted : Option WalletEnv) {tx : CTransaction}
    (hsome : ∃ tx', s.tx? (W.params.getHash tx) = some tx') :
    Kept (fun _ ↦ False) s (Exec.final (acceptToMemoryPool W tx accepted s)) := by
  cases accepted with
  | none => exact Exec.IsFrame.refl s
  | some E =>
    obtain ⟨tx', htx⟩ := hsome
    obtain ⟨wtx, hget, -⟩ := Option.map_eq_some_iff.mp htx
    have hadd := kept_addToWallet (W := W) E s tx.toWalletTx
    change ∃ tx', (s.withTx W tx).tx? _ = _ ∧ Kept _ (s.withTx W tx) _ ∧ _ at hadd
    rw [withTx_of_some hget] at hadd
    obtain ⟨tx₁, -, hkept, -⟩ := hadd
    have hsync : Kept (fun _ ↦ False) s (Exec.final (syncTransaction W E tx none true s)) := by
      rw [final_syncTransaction E (involves_of_some hget)]
      exact hkept.mono fun o hC ↦ absurd hC.1 (by simp [CTransaction.toWalletTx])
    exact Exec.IsFrame.trans hsync (Exec.Keeps.final_bind (fun _ ↦ Exec.Keeps.pure true) s)

/-- What follows `AddToWallet` in `CommitTransaction` clears nothing. -/
theorem kept_commitTransaction (E : WalletEnv) (wtxNew : CWalletTx)
    (accepted : Option WalletEnv) (s : Wallet)
    (hsome : ∃ tx', (Exec.final (addToWallet W E wtxNew s)).tx?
      (W.params.getHash wtxNew.toCTransaction) = some tx') :
    Kept (fun _ ↦ False) (Exec.final (addToWallet W E wtxNew s))
      (Exec.final (commitTransaction W E wtxNew accepted s)) := by
  rw [commitTransaction]
  cases hadd : addToWallet W E wtxNew s with
  | error e s₁ =>
    rw [Exec.bind_of_error hadd]
    exact Exec.IsFrame.refl s₁
  | ok a s₁ =>
    rw [Exec.bind_of_ok hadd]
    rw [hadd] at hsome
    have hloop := kept_markCoins E s₁ wtxNew.vin
    cases hrun : Exec.forEach (markCoin E) wtxNew.vin s₁ with
    | error e s₂ =>
      rw [Exec.bind_of_error hrun]
      rwa [hrun] at hloop
    | ok _ s₂ =>
      rw [Exec.bind_of_ok hrun]
      rw [hrun] at hloop
      obtain ⟨tx', htx⟩ := hsome
      exact Exec.IsFrame.trans hloop (kept_acceptToMemoryPool accepted ⟨tx', hloop.old htx⟩)

theorem allMarked_commit (E : WalletEnv) {wtxNew : CWalletTx} {accepted : Option WalletEnv}
    (hkeyed : s.Keyed W) (hall : s.AllMarked W live)
    (hlive : ∀ hash ∈ live', hash = W.params.getHash wtxNew.toCTransaction ∨ hash ∈ live)
    (hspares : (WalletEvent.commitTransaction wtxNew accepted).Spares W E s live') :
    (Exec.final (commitTransaction W E wtxNew accepted s)).Keyed W ∧
      (Exec.final (commitTransaction W E wtxNew accepted s)).AllMarked W live' := by
  obtain ⟨hunspent, hinputs⟩ := hspares
  obtain ⟨tx', htx, hadd, hmark⟩ := kept_addToWallet (W := W) E s wtxNew
  have hrest := kept_commitTransaction E wtxNew accepted s ⟨tx', hadd.old htx⟩
  have hkept := Exec.IsFrame.trans hadd (hrest.mono fun _ ↦ False.elim)
  refine ⟨hkept.keyed (hkeyed.withTx _), allMarked_of_recorded hkeyed hall hlive htx hkept
    (fun h ↦ hunspent (h.imp id of_decide_eq_true)) fun hmem txin hin hmine hC ↦ ?_⟩
  rcases hinputs with hE | hinputs | ⟨hwrite, hnone, hknown⟩
  · exact hrest.marks id (hmark hE txin hin hmine hC)
  · exact hkept.marks hC (hinputs hmem tx' htx txin hin hmine)
  · -- the entry is not written; the loop over the coins marks what `WalletUpdateSpent` did not
    rw [withTx_of_none hnone, tx?, mapWallet_put_self] at htx
    cases htx
    obtain ⟨s₂, hloop, hmarks⟩ := markCoins_run E
      (s.put (W.params.getHash wtxNew.toCTransaction) wtxNew) wtxNew.vin (by
        intro txin' hmem'
        obtain ⟨wtx, hget, hlen⟩ := hknown txin' hmem'
        refine ⟨wtx, (mapWallet_put_of_ne ?_ ..).trans hget, hlen⟩
        intro hhash
        rw [hhash, hnone] at hget
        cases hget)
    have hrun : addToWallet W E wtxNew s = .ok false
        (s.put (W.params.getHash wtxNew.toCTransaction) wtxNew) := by
      rw [addToWallet]
      simp only [hnone]
      rw [addedToWallet, hwrite]
      rfl
    have hkeptLoop := kept_markCoins E (s.put (W.params.getHash wtxNew.toCTransaction) wtxNew)
      wtxNew.vin
    rw [hloop] at hkeptLoop
    have hlast := kept_acceptToMemoryPool accepted (s := s₂)
      ⟨wtxNew.toCTransaction, hkeptLoop.old (by rw [tx?, mapWallet_put_self]; rfl)⟩
    rw [commitTransaction, Exec.bind_of_ok hrun, Exec.bind_of_ok hloop]
    exact hlast.marks id (hmarks txin hin)

/-! ## Runs -/

theorem step_keyed_allMarked {E : WalletEnv} {e : WalletEvent} (hkeyed : s.Keyed W)
    (hall : s.AllMarked W live) (hlive : live' ⊆ e.enters W.params ++ live)
    (hspares : e.Spares W E s live') :
    (s.step W E e).Keyed W ∧ (s.step W E e).AllMarked W live' := by
  cases e with
  | commitTransaction wtxNew accepted =>
    refine allMarked_commit E hkeyed hall (fun hash hmem ↦ ?_) hspares
    cases accepted with
    | none => exact .inr (hlive hmem)
    | some E => exact List.mem_cons.mp (hlive hmem)
  | syncTransaction tx pblock fConnect =>
    cases fConnect with
    | true =>
      exact allMarked_connect E hkeyed hall (fun _ hmem ↦ List.mem_cons.mp (hlive hmem)) hspares
    | false => exact allMarked_disconnect E hkeyed hall hlive hspares

/-- After events that spare the marks, every output of ours that is spent is marked. -/
theorem Run.allMarked (h : Run W (WalletEvent.Spares W) s live) : s.AllMarked W live := by
  suffices s.Keyed W ∧ s.AllMarked W live from this.2
  induction h with
  | start hkeyed hmarked => exact ⟨hkeyed, hmarked⟩
  | step h E e hlive hspares ih => exact step_keyed_allMarked ih.1 ih.2 hlive hspares

/-! ## A payment that is spent before a block confirms it -/

namespace Sample

def wallet : WalletParams where
  params := Bws.Sample.params
  isMine scriptPubKey := scriptPubKey = [1]
  nMinimumInputValue := 0

/-- A wallet file that can be written. -/
def env : WalletEnv where
  writeToDisk := true
  replaceDefaultKey := none
  nAdjustedTime := 1000

/-- A payment to us. -/
def payment : CTransaction where
  nVersion := 1
  nTime := 1
  vin := [⟨⟨7, 0⟩, [], uintMax⟩]
  vout := [⟨5, [1]⟩]
  nLockTime := 0

/-- A transaction that spends the payment. -/
def spending : CTransaction where
  nVersion := 1
  nTime := 2
  vin := [⟨⟨1001, 0⟩, [], uintMax⟩]
  vout := [⟨4, [2]⟩]
  nLockTime := 0

def paid : Wallet := Wallet.step wallet env ⟨fun _ ↦ none⟩ (.syncTransaction payment none true)

def spent : Wallet := paid.step wallet env (.commitTransaction spending.toWalletTx (some env))

def confirmed : Wallet :=
  spent.step wallet env (.syncTransaction payment (some (Bws.Sample.block 1 1 0 0 [payment])) true)

theorem run_empty (Good : WalletEnv → Wallet → List UInt256 → WalletEvent → Prop) :
    Run wallet Good ⟨fun _ ↦ none⟩ [] :=
  .start nofun fun _ ↦ nofun

theorem run_paid (Good : WalletEnv → Wallet → List UInt256 → WalletEvent → Prop)
    (hgood : Good env ⟨fun _ ↦ none⟩ [1001] (.syncTransaction payment none true)) :
    Run wallet Good paid [1001] :=
  .step (run_empty Good) env _ (by decide) hgood

theorem run_spent (Good : WalletEnv → Wallet → List UInt256 → WalletEvent → Prop)
    (hpaid : Run wallet Good paid [1001])
    (hgood : Good env paid [2001, 1001] (.commitTransaction spending.toWalletTx (some env))) :
    Run wallet Good spent [2001, 1001] :=
  .step hpaid env _ (by decide) hgood

end Sample

theorem Run.allMarked_sample : ∃ s, Run Sample.wallet (WalletEvent.Spares Sample.wallet) s
    [2001, 1001] ∧ s.Marked ⟨1001, 0⟩ := by
  have hpaid : Run Sample.wallet (WalletEvent.Spares Sample.wallet) Sample.paid [1001] := by
    apply Sample.run_paid
    rintro -
    refine ⟨fun _ o hhash _ ↦ ?_, .inl ⟨rfl, rfl⟩⟩
    rintro ⟨hash, hmem, tx, htx, txin, hin, rfl⟩
    obtain rfl : hash = 1001 := List.mem_singleton.mp hmem
    have hpayment : (withTx Sample.wallet ⟨fun _ ↦ none⟩ Sample.payment).tx? 1001 =
        some Sample.payment := by decide
    cases hpayment.symm.trans htx
    rw [List.mem_singleton.mp hin] at hhash
    cases hhash
  have hspent := Sample.run_spent (WalletEvent.Spares Sample.wallet) hpaid (by
    refine ⟨fun _ o hhash hmine ↦ ?_, .inl ⟨rfl, rfl⟩⟩
    obtain ⟨tx, htx, txout, hout, hours⟩ := (mine_iff).mp hmine
    have hspending : (Sample.paid.withTx Sample.wallet Sample.spending).tx? 2001 =
        some Sample.spending := by decide
    rw [hhash] at htx
    cases hspending.symm.trans htx
    rw [List.mem_singleton.mp (List.mem_of_getElem? hout)] at hours
    cases hours)
  refine ⟨_, hspent, Run.allMarked hspent ⟨1001, 0⟩ (by unfold Mine; decide) ?_⟩
  exact ⟨2001, List.mem_cons_self, Sample.spending, by decide, _, List.mem_cons_self, rfl⟩

/-- The block that confirms the payment clears the mark. -/
theorem not_allMarked_of_confirmed : ∃ s, Run Sample.wallet (fun _ _ _ _ ↦ True) s
    [2001, 1001] ∧ ¬ s.AllMarked Sample.wallet [2001, 1001] := by
  have hrun : Run Sample.wallet (fun _ _ _ _ ↦ True) Sample.confirmed [2001, 1001] :=
    .step (Sample.run_spent _ (Sample.run_paid _ trivial) trivial) Sample.env _ (by decide) trivial
  refine ⟨_, hrun, fun hall ↦ ?_⟩
  obtain ⟨wtx, hget, hmark⟩ := hall ⟨1001, 0⟩ (by unfold Mine; decide)
    ⟨2001, List.mem_cons_self, Sample.spending, by decide, _, List.mem_cons_self, rfl⟩
  have hvfSpent : (Sample.confirmed.mapWallet 1001).map CWalletTx.vfSpent = some [false] := by
    decide
  rw [hget, Option.map_some, Option.some.injEq] at hvfSpent
  rw [isSpent_eq_ok, hvfSpent] at hmark
  cases hmark.2

end Wallet

end Bws
