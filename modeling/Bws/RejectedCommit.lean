import Bws.SpentMarks

/-!
# A commit that the memory pool rejects

`CommitTransaction` records the transaction and marks what it spends before it asks the memory pool, and a
rejection takes nothing of it back: the wallet regards the same outputs as unspent as after a commit that
has come as far (`Wallet.unspent_of_rejected`).
-/

namespace Bws

namespace Wallet

variable (W : WalletParams)

/-- The outputs that the wallet regards as unspent. -/
def unspent (s : Wallet) : Set COutPoint := {o | s.Mine W o ∧ ¬ s.Marked o}

/-- The entry of `wtxNew` that `AddToWallet` leaves, as far as it does not mark anything. -/
def recordedEntry (s : Wallet) (wtxNew : CWalletTx) : CWalletTx :=
  match s.mapWallet (W.params.getHash wtxNew.toCTransaction) with
  | none => wtxNew
  | some wtx => wtxNew.merge wtx

/-- `AddToWallet` is given the block of the transaction, and does not fail to write the entry. -/
def Confirms (E : WalletEnv) (s : Wallet) (wtxNew : CWalletTx) : Prop :=
  wtxNew.hashBlock ≠ 0 ∧ (E.writeToDisk = true ∨
    s.mapWallet (W.params.getHash wtxNew.toCTransaction) = some (s.recordedEntry W wtxNew))

variable {W : WalletParams} {s s' : Wallet}

/-! ## Which marks a loop changes -/

theorem marked_put {hash : UInt256} {wtx wtx' : CWalletTx} {fSpent : Bool} {msg : String} {n : ℕ}
    (hget : s.mapWallet hash = some wtx) (hset : wtx.setSpent fSpent msg n = .ok wtx')
    (o : COutPoint) :
    (s.put hash wtx').Marked o ↔ if o = ⟨hash, n⟩ then fSpent = true else s.Marked o := by
  obtain ⟨-, -, hself, hne⟩ := isSpent_setSpent hset
  obtain ⟨hash', m⟩ := o
  by_cases hhash : hash' = hash
  · subst hhash
    have hmarked : (s.put hash' wtx').Marked ⟨hash', m⟩ ↔ wtx'.isSpent m = .ok true := by
      simp [Marked]
    have hmarked' : s.Marked ⟨hash', m⟩ ↔ wtx.isSpent m = .ok true := by
      simp [Marked, hget]
    by_cases hm : m = n
    · subst hm
      rw [hmarked, hself, if_pos rfl, Except.ok.injEq]
    · rw [hmarked, hmarked', hne m hm, if_neg (by simp [hm])]
  · rw [Marked, mapWallet_put_of_ne hhash, if_neg (by simp [hhash])]
    rfl

theorem marked_of_markCoin {E : WalletEnv} {txin : CTxIn}
    (h : markCoin E txin s = .ok () s') (o : COutPoint) :
    s'.Marked o ↔ s.Marked o ∨ txin.prevout = o := by
  unfold markCoin entryAt at h
  cases hget : s.mapWallet txin.prevout.hash with
  | none =>
    rw [hget] at h
    cases h
  | some coin =>
    dsimp only at h
    rw [hget, Option.getD_some, put_eq_self hget] at h
    cases hset : coin.markSpent txin.prevout.n with
    | error e =>
      rw [hset] at h
      cases h
    | ok coin' =>
      rw [hset] at h
      cases h
      rw [marked_put hget hset]
      split_ifs with ho
      · simp [ho]
      · simp [Ne.symm ho]

/-- The loop of `CommitTransaction` marks the inputs. -/
theorem marked_of_markCoins {E : WalletEnv} {vin : List CTxIn} :
    ∀ {s : Wallet}, Exec.forEach (markCoin E) vin s = .ok () s' → ∀ o,
      s'.Marked o ↔ s.Marked o ∨ ∃ txin ∈ vin, txin.prevout = o := by
  induction vin with
  | nil =>
    intro s h o
    cases h
    simp
  | cons txin vin ih =>
    intro s h o
    obtain ⟨s₁, hfirst, hrest⟩ := Exec.forEach_cons_eq_ok.mp h
    rw [ih hrest, marked_of_markCoin hfirst, or_assoc, List.exists_mem_cons_iff]

/-- `WalletUpdateSpent` marks inputs only. -/
theorem marked_of_updateInput {txin : CTxIn} (h : updateInput W txin s = .ok () s')
    {o : COutPoint} (hmarked : s'.Marked o) : s.Marked o ∨ txin.prevout = o := by
  unfold updateInput at h
  cases hget : s.mapWallet txin.prevout.hash with
  | none =>
    rw [hget] at h
    cases h
    exact .inl hmarked
  | some wtx =>
    rw [hget] at h
    dsimp only at h
    cases hout : wtx.vout[txin.prevout.n]? with
    | none =>
      rw [hout] at h
      cases h
      exact .inl hmarked
    | some txout =>
      rw [hout] at h
      dsimp only at h
      cases hspent : wtx.isSpent txin.prevout.n with
      | error e =>
        rw [hspent] at h
        cases h
      | ok fSpent =>
        rw [hspent] at h
        dsimp only at h
        split at h
        · cases hset : wtx.markSpent txin.prevout.n with
          | error e =>
            rw [hset] at h
            cases h
          | ok wtx' =>
            rw [hset] at h
            cases h
            rw [marked_put hget hset] at hmarked
            split_ifs at hmarked with ho
            · exact .inr ho.symm
            · exact .inl hmarked
        · cases h
          exact .inl hmarked

theorem marked_of_updateInputs {vin : List CTxIn} :
    ∀ {s : Wallet}, Exec.forEach (updateInput W) vin s = .ok () s' → ∀ {o}, s'.Marked o →
      s.Marked o ∨ ∃ txin ∈ vin, txin.prevout = o := by
  induction vin with
  | nil =>
    intro s h o hmarked
    cases h
    exact .inl hmarked
  | cons txin vin ih =>
    intro s h o hmarked
    obtain ⟨s₁, hfirst, hrest⟩ := Exec.forEach_cons_eq_ok.mp h
    rw [List.exists_mem_cons_iff, ← or_assoc]
    exact (ih hrest hmarked).imp_left (marked_of_updateInput hfirst)

theorem marked_of_updateOutput {hash : UInt256} {out : CTxOut × ℕ}
    (h : updateOutput W hash out s = .ok () s') (o : COutPoint) :
    s'.Marked o ↔ s.Marked o ∧ ¬ (o = ⟨hash, out.2⟩ ∧ W.isMine out.1.scriptPubKey = true) := by
  unfold updateOutput at h
  cases hmine : W.isMine out.1.scriptPubKey with
  | false =>
    rw [hmine] at h
    cases h
    simp
  | true =>
    rw [hmine, if_pos rfl] at h
    cases hget : s.mapWallet hash with
    | none =>
      rw [hget] at h
      cases h
    | some wtx =>
      rw [hget] at h
      dsimp only at h
      cases hset : wtx.markUnspent out.2 with
      | error e =>
        rw [hset] at h
        cases h
      | ok wtx' =>
        rw [hset] at h
        cases h
        rw [marked_put hget hset]
        split_ifs with ho
        · simp [ho]
        · simp [ho]

theorem marked_of_updateOutputs {hash : UInt256} {outs : List (CTxOut × ℕ)} :
    ∀ {s : Wallet}, Exec.forEach (updateOutput W hash) outs s = .ok () s' → ∀ o, s'.Marked o ↔
      s.Marked o ∧ ∀ out ∈ outs, ¬ (o = ⟨hash, out.2⟩ ∧ W.isMine out.1.scriptPubKey = true) := by
  induction outs with
  | nil =>
    intro s h o
    cases h
    simp
  | cons out outs ih =>
    intro s h o
    obtain ⟨s₁, hfirst, hrest⟩ := Exec.forEach_cons_eq_ok.mp h
    rw [ih hrest, marked_of_updateOutput hfirst, and_assoc, List.forall_mem_cons]

/-! ## WalletUpdateSpent and AddToWallet -/

/-- What `WalletUpdateSpent` leaves of the marks, but for those of the inputs. -/
theorem marked_of_walletUpdateSpent {tx : CTransaction} {fBlock : Bool}
    (h : walletUpdateSpent W tx fBlock s = .ok () s') {o : COutPoint}
    (hinput : ∀ txin ∈ tx.vin, txin.prevout ≠ o) :
    s'.Marked o ↔ s.Marked o ∧ ¬ Cleared W tx fBlock o := by
  obtain ⟨s₁, hrun, hkept, -⟩ := updateInputs_run (W := W) s tx.vin
  rw [walletUpdateSpent, Exec.bind_of_ok hrun] at h
  have hinputs : s₁.Marked o ↔ s.Marked o := by
    refine ⟨fun hmarked ↦ ?_, hkept.marks id⟩
    rcases marked_of_updateInputs hrun hmarked with hmarked | ⟨txin, hmem, rfl⟩
    · exact hmarked
    · exact absurd rfl (hinput txin hmem)
  cases fBlock with
  | false =>
    cases h
    simp [hinputs, Cleared]
  | true =>
    rw [marked_of_updateOutputs h, hinputs]
    refine and_congr_right fun _ ↦ ?_
    constructor
    · rintro hnone ⟨-, hhash, txout, hout, hmine⟩
      refine hnone (txout, o.n) (List.mem_zipIdx_iff_getElem?.mpr hout) ⟨?_, hmine⟩
      rw [← hhash]
    · rintro hnot ⟨txout, n⟩ hmem ⟨rfl, hmine⟩
      exact hnot ⟨rfl, rfl, txout, List.mem_zipIdx_iff_getElem?.mp hmem, hmine⟩

/-- The wallet with the entry of `wtxNew`. -/
def recorded (W : WalletParams) (s : Wallet) (wtxNew : CWalletTx) : Wallet :=
  s.put (W.params.getHash wtxNew.toCTransaction) (s.recordedEntry W wtxNew)

/-- The entry under the hash of the transaction holds the transaction. -/
def Collides (W : WalletParams) (s : Wallet) (wtxNew : CWalletTx) : Prop :=
  ∃ tx, s.tx? (W.params.getHash wtxNew.toCTransaction) = some tx ∧ tx ≠ wtxNew.toCTransaction

theorem recordedEntry_of_none {wtxNew : CWalletTx}
    (h : s.mapWallet (W.params.getHash wtxNew.toCTransaction) = none) :
    s.recordedEntry W wtxNew = wtxNew := by
  rw [recordedEntry, h]

theorem recordedEntry_of_some {wtxNew wtx : CWalletTx}
    (h : s.mapWallet (W.params.getHash wtxNew.toCTransaction) = some wtx) :
    s.recordedEntry W wtxNew = wtxNew.merge wtx := by
  rw [recordedEntry, h]

theorem toCTransaction_recordedEntry {wtxNew : CWalletTx} (h : ¬ s.Collides W wtxNew) :
    (s.recordedEntry W wtxNew).toCTransaction = wtxNew.toCTransaction := by
  cases hget : s.mapWallet (W.params.getHash wtxNew.toCTransaction) with
  | none => rw [recordedEntry_of_none hget]
  | some wtx =>
    rw [recordedEntry_of_some hget]
    by_contra hne
    exact h ⟨wtx.toCTransaction, by rw [tx?, hget]; rfl, hne⟩

theorem addToWallet_eq {E : WalletEnv} {wtxNew : CWalletTx} (h : ¬ s.Collides W wtxNew) :
    addToWallet W E wtxNew s = addedToWallet W E wtxNew.toCTransaction
      (s.mapWallet (W.params.getHash wtxNew.toCTransaction) ≠ some (s.recordedEntry W wtxNew))
      (wtxNew.hashBlock ≠ 0) (s.recorded W wtxNew) := by
  have htx := toCTransaction_recordedEntry h
  unfold recorded
  cases hget : s.mapWallet (W.params.getHash wtxNew.toCTransaction) with
  | none =>
    rw [recordedEntry_of_none hget, addToWallet]
    simp [hget]
  | some wtx =>
    rw [recordedEntry_of_some hget] at htx ⊢
    have htx' : wtx.toCTransaction = wtxNew.toCTransaction := htx
    rw [addToWallet]
    simp [hget, htx', eq_comm]

/-- `AddToWallet`, when it does not end with an exception: the marks of the entry, but for the inputs. -/
theorem marked_of_addToWallet {E : WalletEnv} {wtxNew : CWalletTx} {fAdded : Bool}
    (hhash : ¬ s.Collides W wtxNew) (h : addToWallet W E wtxNew s = .ok fAdded s') :
    Kept (Cleared W wtxNew.toCTransaction (wtxNew.hashBlock ≠ 0)) (s.recorded W wtxNew) s' ∧
      ∀ o, (∀ txin ∈ wtxNew.vin, txin.prevout ≠ o) → (s'.Marked o ↔
        (s.recorded W wtxNew).Marked o ∧ ¬ (Confirms W E s wtxNew ∧
          Cleared W wtxNew.toCTransaction true o)) := by
  have hkept := (kept_addedToWallet (W := W) E (s.recorded W wtxNew) wtxNew.toCTransaction
    (s.mapWallet (W.params.getHash wtxNew.toCTransaction) ≠ some (s.recordedEntry W wtxNew))
    (wtxNew.hashBlock ≠ 0)).1
  rw [addToWallet_eq hhash] at h
  rw [h] at hkept
  refine ⟨hkept, fun o hinput ↦ ?_⟩
  rw [addedToWallet] at h
  by_cases hwrite : s.mapWallet (W.params.getHash wtxNew.toCTransaction) =
      some (s.recordedEntry W wtxNew) ∨ E.writeToDisk = true
  · rw [if_neg (by simpa [or_iff_not_imp_left] using hwrite), Exec.bind_eq_ok] at h
    obtain ⟨_, s₁, hreplace, h⟩ := h
    rw [Exec.bind_eq_ok] at h
    obtain ⟨_, s₂, hupdate, h⟩ := h
    have hs₁ : s₁ = s.recorded W wtxNew := by
      unfold replaceDefaultKey at hreplace
      cases hdefault : E.replaceDefaultKey with
      | none =>
        rw [hdefault] at hreplace
        cases hreplace
        rfl
      | some e =>
        rw [hdefault] at hreplace
        cases hreplace
    subst hs₁
    cases h
    have hcleared : Cleared W wtxNew.toCTransaction (wtxNew.hashBlock ≠ 0) o ↔
        Confirms W E s wtxNew ∧ Cleared W wtxNew.toCTransaction true o := by
      constructor
      · rintro ⟨hblock, hown⟩
        exact ⟨⟨of_decide_eq_true hblock, hwrite.symm⟩, rfl, hown⟩
      · rintro ⟨⟨hblock, -⟩, -, hown⟩
        exact ⟨decide_eq_true hblock, hown⟩
    rw [marked_of_walletUpdateSpent hupdate hinput, hcleared]
  · rw [if_pos (by simpa [not_or] using hwrite)] at h
    cases h
    have hconfirms : ¬ Confirms W E s wtxNew := fun hc ↦ hwrite hc.2.symm
    simp [hconfirms]

/-! ## The commit -/

theorem tx?_recorded {wtxNew : CWalletTx} (h : ¬ s.Collides W wtxNew) :
    (s.recorded W wtxNew).tx? (W.params.getHash wtxNew.toCTransaction) =
      some wtxNew.toCTransaction := by
  rw [tx?, recorded, mapWallet_put_self, Option.map_some, toCTransaction_recordedEntry h]

/-- The own outputs of the transaction. -/
theorem mine_recorded {wtxNew : CWalletTx} (h : ¬ s.Collides W wtxNew) {o : COutPoint}
    (ho : o.hash = W.params.getHash wtxNew.toCTransaction) : (s.recorded W wtxNew).Mine W o ↔
      ∃ txout, wtxNew.vout[o.n]? = some txout ∧ W.isMine txout.scriptPubKey = true := by
  rw [mine_iff, ho, tx?_recorded h]
  simp only [Option.some.injEq, exists_eq_left']

theorem marked_recorded {wtxNew : CWalletTx} (h : ¬ s.Collides W wtxNew) {o : COutPoint}
    (ho : o.hash = W.params.getHash wtxNew.toCTransaction) : (s.recorded W wtxNew).Marked o ↔
      o.n < wtxNew.vout.length ∧ (s.recordedEntry W wtxNew).vfSpent.getD o.n false = true := by
  rw [Marked, recorded, ho, mapWallet_put_self]
  simp only [Option.some.injEq, exists_eq_left', isSpent_eq_ok, toCTransaction_recordedEntry h]

theorem mapWallet_recorded {wtxNew : CWalletTx} {hash : UInt256}
    (ho : hash ≠ W.params.getHash wtxNew.toCTransaction) :
    (s.recorded W wtxNew).mapWallet hash = s.mapWallet hash := mapWallet_put_of_ne ho ..

/-- After a commit that the pool has rejected, an output is unspent if the transaction does not spend it
and it is an own output of the transaction that the entry does not mark, or one of another transaction that
has been unspent before. -/
theorem unspent_of_rejected {E : WalletEnv} {wtxNew : CWalletTx} (hhash : ¬ s.Collides W wtxNew)
    (h : commitTransaction W E wtxNew none s = .ok false s') (o : COutPoint) :
    o ∈ s'.unspent W ↔ (∀ txin ∈ wtxNew.vin, txin.prevout ≠ o) ∧
      if o.hash = W.params.getHash wtxNew.toCTransaction then
        (∃ txout, wtxNew.vout[o.n]? = some txout ∧ W.isMine txout.scriptPubKey = true) ∧
          (Confirms W E s wtxNew ∨ (s.recordedEntry W wtxNew).vfSpent.getD o.n false = false)
      else o ∈ s.unspent W := by
  obtain ⟨fAdded, s₁, hadd, h⟩ := Exec.bind_eq_ok.mp h
  obtain ⟨_, s₂, hloop, h⟩ := Exec.bind_eq_ok.mp h
  cases h
  obtain ⟨hkept, hmarked⟩ := marked_of_addToWallet hhash hadd
  have hcoins := kept_markCoins E s₁ wtxNew.vin
  rw [hloop] at hcoins
  have hmine : s'.Mine W o ↔ (s.recorded W wtxNew).Mine W o := hcoins.mine_iff.trans hkept.mine_iff
  rw [unspent, Set.mem_ofPred_eq, hmine, marked_of_markCoins hloop, not_or]
  by_cases hinput : ∃ txin ∈ wtxNew.vin, txin.prevout = o
  · obtain ⟨txin, hmem, hout⟩ := hinput
    constructor
    · rintro ⟨-, -, hnone⟩
      exact absurd ⟨txin, hmem, hout⟩ hnone
    · rintro ⟨hnone, -⟩
      exact absurd hout (hnone txin hmem)
  · push Not at hinput
    have hnone : ¬ ∃ txin ∈ wtxNew.vin, txin.prevout = o := by
      rintro ⟨txin, hmem, hout⟩
      exact hinput txin hmem hout
    rw [hmarked o hinput, and_iff_left hnone, and_iff_right hinput]
    split_ifs with ho
    · rw [mine_recorded hhash ho, marked_recorded hhash ho]
      refine and_congr_right fun hout ↦ ?_
      obtain ⟨txout, hget, howned⟩ := hout
      obtain ⟨hlen, -⟩ := List.getElem?_eq_some_iff.mp hget
      have hcleared : Cleared W wtxNew.toCTransaction true o := ⟨rfl, ho, txout, hget, howned⟩
      rw [and_iff_right hlen, and_iff_left hcleared, ← Bool.not_eq_true]
      tauto
    · have hcleared : ¬ Cleared W wtxNew.toCTransaction true o := fun hc ↦ ho hc.2.1
      rw [Mine, mineOutput, Marked, mapWallet_recorded ho]
      simp only [hcleared, and_false, not_false_eq_true, and_true]
      rfl

namespace Sample

/-- The commit of a transaction that spends the payment, which the pool rejects. -/
def rejected : Wallet := Exec.final (commitTransaction wallet env spending.toWalletTx none paid)

theorem commitTransaction_rejected :
    commitTransaction wallet env spending.toWalletTx none paid = .ok false rejected := rfl

theorem not_collides_paid : ¬ paid.Collides wallet spending.toWalletTx := by
  rintro ⟨tx, htx, -⟩
  have hnone : paid.tx? (wallet.params.getHash spending) = none := by decide
  cases hnone.symm.trans htx

end Sample

theorem unspent_of_rejected_sample : (⟨1001, 0⟩ : COutPoint) ∉ Sample.rejected.unspent Sample.wallet := by
  rw [unspent_of_rejected Sample.not_collides_paid Sample.commitTransaction_rejected]
  rintro ⟨hnone, -⟩
  exact hnone ⟨⟨1001, 0⟩, [], uintMax⟩ (by decide) rfl

/-- The payment is no longer unspent. -/
theorem unspent_ne_of_rejected : ∃ s', commitTransaction Sample.wallet Sample.env
    Sample.spending.toWalletTx none Sample.paid = .ok false s' ∧
      s'.unspent Sample.wallet ≠ Sample.paid.unspent Sample.wallet := by
  refine ⟨Sample.rejected, Sample.commitTransaction_rejected, ?_⟩
  intro heq
  have hbefore : (⟨1001, 0⟩ : COutPoint) ∈ Sample.paid.unspent Sample.wallet := by
    refine ⟨by unfold Mine; decide, ?_⟩
    rintro ⟨wtx, hget, hmark⟩
    have hentry : Sample.paid.mapWallet 1001 = some Sample.payment.toWalletTx := by decide
    cases hentry.symm.trans hget
    exact absurd hmark (by decide)
  rw [← heq] at hbefore
  refine hbefore.2 ⟨{ Sample.payment.toWalletTx with vfSpent := [true] }, by decide, by decide⟩

end Wallet

end Bws
