import Bws.AcceptTx

/-!
# What FetchInputs fetches

A call of `FetchInputs` that succeeds has found an index entry and a transaction for each input,
both long enough for the output that is spent (`fetchInputs_eq_ok`).  The assertions and the
exceptions of the functions that are called after it are then out of reach: connecting a block
and accepting a loose transaction return true or false, and throw nothing (`Clean`).
-/

namespace Bws

/-! ## Fetching -/

/-- Where `FetchInputs` takes a previous transaction and its index entry from. -/
inductive Fetches (V : TxView) (mapTestPool : TxIndexMap) (fBlock fMiner : Bool) (hash : UInt256) :
    CTxIndex → CTransaction → Prop where
  | indexed {txindex : CTxIndex} {txPrev : CTransaction}
      (h : findTxIndex V mapTestPool fBlock fMiner hash = some txindex)
      (hread : (if txindex.pos = .inMemory then V.lookup hash else V.readTx txindex.pos) =
        some txPrev) : Fetches V mapTestPool fBlock fMiner hash txindex txPrev
  /-- a loose transaction may spend from the memory pool -/
  | loose {txPrev : CTransaction} (hloose : fBlock = false ∧ fMiner = false)
      (h : findTxIndex V mapTestPool fBlock fMiner hash = none)
      (hlookup : V.lookup hash = some txPrev) :
    Fetches V mapTestPool fBlock fMiner hash (CTxIndex.mk' .null txPrev.vout.length) txPrev

section

variable {V : TxView} {mapTestPool : TxIndexMap} {fBlock fMiner : Bool}
  {inputs inputs' : MapPrevTx}

theorem fetchInput_eq_ok {prevout : COutPoint}
    (h : fetchInput V mapTestPool fBlock fMiner inputs prevout = .ok inputs') :
    (inputs' prevout.hash).isSome ∧
      ∀ hash, inputs' hash = inputs hash ∨ ∃ txindex txPrev,
        inputs hash = none ∧ inputs' hash = some (txindex, txPrev) ∧
          Fetches V mapTestPool fBlock fMiner hash txindex txPrev := by
  unfold fetchInput at h
  -- whatever is fetched goes into the one place that was empty
  have hnew : ∀ {txindex txPrev}, inputs prevout.hash = none →
      Fetches V mapTestPool fBlock fMiner prevout.hash txindex txPrev →
      Function.update inputs prevout.hash (some (txindex, txPrev)) = inputs' →
      (inputs' prevout.hash).isSome ∧ ∀ hash, inputs' hash = inputs hash ∨ ∃ txindex txPrev,
        inputs hash = none ∧ inputs' hash = some (txindex, txPrev) ∧
          Fetches V mapTestPool fBlock fMiner hash txindex txPrev := by
    rintro txindex txPrev hnone hf rfl
    refine ⟨by simp, fun hash ↦ ?_⟩
    by_cases heq : hash = prevout.hash
    · subst heq
      exact Or.inr ⟨txindex, txPrev, hnone, Function.update_self _ _ _, hf⟩
    · exact Or.inl (Function.update_of_ne heq _ _)
  split at h
  · rename_i e he
    cases h
    exact ⟨by simp [he], fun hash ↦ Or.inl rfl⟩
  · rename_i hnone
    split at h
    · rename_i hfind
      split at h
      · cases h
      · split at h
        · cases h
        · rename_i hminer hblock
          split at h
          · cases h
          · rename_i txPrev hlookup
            exact hnew hnone (.loose ⟨eq_false_of_ne_true hblock, eq_false_of_ne_true hminer⟩ hfind
              hlookup) (Except.ok.inj h)
    · rename_i txindex hfind
      split at h
      · rename_i hpos
        split at h
        · cases h
        · rename_i txPrev hlookup
          exact hnew hnone (.indexed hfind (by rw [if_pos hpos, hlookup])) (Except.ok.inj h)
      · rename_i hpos
        split at h
        · cases h
        · rename_i txPrev hread
          exact hnew hnone (.indexed hfind (by rw [if_neg hpos, hread])) (Except.ok.inj h)

theorem fetchAll_eq_ok {vin : List CTxIn} : ∀ {inputs inputs' : MapPrevTx},
    fetchAll V mapTestPool fBlock fMiner inputs vin = .ok inputs' →
      (∀ txin ∈ vin, (inputs' txin.prevout.hash).isSome) ∧
        ∀ hash, inputs' hash = inputs hash ∨ ∃ txindex txPrev,
          inputs hash = none ∧ inputs' hash = some (txindex, txPrev) ∧
            Fetches V mapTestPool fBlock fMiner hash txindex txPrev := by
  induction vin with
  | nil =>
    rintro inputs _ ⟨⟩
    exact ⟨by simp, fun hash ↦ Or.inl rfl⟩
  | cons txin vin ih =>
    intro inputs inputs' h
    obtain ⟨inputs₁, h₁, h₂⟩ := bind_eq_ok.mp h
    obtain ⟨hsome, hfirst⟩ := fetchInput_eq_ok h₁
    obtain ⟨hall, hrest⟩ := ih h₂
    constructor
    · intro txin' hmem
      rcases List.mem_cons.mp hmem with rfl | hmem
      · rcases hrest txin'.prevout.hash with heq | ⟨txindex, txPrev, -, heq, -⟩
        · rw [heq]
          exact hsome
        · rw [heq]
          rfl
      · exact hall txin' hmem
    · intro hash
      rcases hrest hash with heq | ⟨txindex, txPrev, hnone, heq, hf⟩
      · rw [heq]
        exact hfirst hash
      · rcases hfirst hash with heq' | ⟨txindex', txPrev', -, heq', -⟩
        · exact Or.inr ⟨txindex, txPrev, heq' ▸ hnone, heq, hf⟩
        · rw [heq'] at hnone
          cases hnone

/-- Each of the inputs has been fetched, with the output that it spends. -/
def Fetched (inputs : MapPrevTx) (vin : List CTxIn) : Prop :=
  ∀ txin ∈ vin, ∃ txindex txPrev, inputs txin.prevout.hash = some (txindex, txPrev) ∧
    txin.prevout.n < txPrev.vout.length ∧ txin.prevout.n < txindex.vSpent.length

theorem fetched_of_checkPrevouts {vin : List CTxIn} (h : checkPrevouts inputs vin = .ok ()) :
    Fetched inputs vin := by
  induction vin with
  | nil => exact nofun
  | cons txin vin ih =>
    unfold checkPrevouts at h
    split at h
    · cases h
    · rename_i txindex txPrev hin
      obtain ⟨hrange, hrest⟩ := bind_check_eq_ok.mp h
      rw [rejectIf_eq_ok, not_or, not_le, not_le] at hrange
      intro txin' hmem
      rcases List.mem_cons.mp hmem with rfl | hmem
      · exact ⟨txindex, txPrev, hin, hrange⟩
      · exact ih hrest txin' hmem

/-- **What `FetchInputs` leaves in `inputs`.** -/
theorem fetchInputs_eq_ok {tx : CTransaction} (hcb : ¬ tx.isCoinBase)
    (h : fetchInputs V mapTestPool fBlock fMiner tx = .ok inputs) :
    Fetched inputs tx.vin ∧ ∀ hash txindex txPrev, inputs hash = some (txindex, txPrev) →
      Fetches V mapTestPool fBlock fMiner hash txindex txPrev := by
  unfold fetchInputs at h
  rw [if_neg hcb] at h
  obtain ⟨inputs₁, h₁, h₂⟩ := bind_eq_ok.mp h
  obtain ⟨h₃, h₄⟩ := bind_check_eq_ok.mp h₂
  cases h₄
  refine ⟨fetched_of_checkPrevouts h₃, fun hash txindex txPrev hin ↦ ?_⟩
  rcases (fetchAll_eq_ok h₁).2 hash with heq | ⟨txindex', txPrev', -, heq, hf⟩
  · rw [heq] at hin
    cases hin
  · rw [heq] at hin
    cases hin
    exact hf

end

/-! ## Nothing is thrown -/

/-- The function returns, true or false. -/
def Clean {α : Type} (x : Except Fault α) : Prop := ∀ msg, x ≠ .error (.thrown msg)

namespace Clean

variable {α β : Type}

theorem ok (a : α) : Clean (.ok a : Except Fault α) := nofun

theorem of_eq_ok {x : Except Fault α} {a : α} (h : x = .ok a) : Clean x := by
  rw [h]
  exact ok a

theorem reject (nDoS : ℕ) (msg : String) : Clean (reject nDoS msg : Except Fault α) := nofun

theorem rejectIf (bad : Prop) [Decidable bad] (nDoS : ℕ) (msg : String) :
    Clean (rejectIf bad nDoS msg) := by
  unfold Bws.rejectIf
  split
  · exact reject _ _
  · exact ok ()

theorem bind {x : Except Fault α} {f : α → Except Fault β} (hx : Clean x)
    (hf : ∀ a, x = .ok a → Clean (f a)) : Clean (x >>= f) := by
  cases x with
  | error e => exact fun msg h ↦ hx msg (congrArg Except.error (Except.error.inj h))
  | ok a => exact hf a rfl

theorem dropScore {x : Except Fault α} (hx : Clean x) : Clean (dropScore x) := by
  unfold Bws.dropScore
  split
  · exact reject _ _
  · exact absurd rfl (hx _)
  · exact ok _

theorem withText {x : Except Fault α} (hx : Clean x) (msg : String) : Clean (withText msg x) := by
  unfold Bws.withText
  split
  · exact reject _ _
  · exact absurd rfl (hx _)
  · exact ok _

end Clean

theorem clean_checkOutputs (tx : CTransaction) (vout : List CTxOut) :
    ∀ nValueOut, Clean (checkOutputs tx nValueOut vout) := by
  induction vout with
  | nil => exact fun _ ↦ .ok ()
  | cons txout vout ih =>
    exact fun _ ↦ .bind (.rejectIf _ _ _) fun _ _ ↦ .bind (.rejectIf _ _ _) fun _ _ ↦
      .bind (.rejectIf _ _ _) fun _ _ ↦ .bind (.rejectIf _ _ _) fun _ _ ↦ ih _

theorem clean_checkTransaction (tx : CTransaction) : Clean (checkTransaction tx) := by
  refine .bind (.rejectIf _ _ _) fun _ _ ↦ .bind (.rejectIf _ _ _) fun _ _ ↦
    .bind (.rejectIf _ _ _) fun _ _ ↦ .bind (clean_checkOutputs _ _ _) fun _ _ ↦
    .bind (.rejectIf _ _ _) fun _ _ ↦ ?_
  split <;> exact .rejectIf _ _ _

/-- A sum that `CheckTransaction` has checked is not refused by `GetValueOut`. -/
theorem getValueOutFrom_of_checkOutputs {tx : CTransaction} {vout : List CTxOut} :
    ∀ {nValueOut}, checkOutputs tx nValueOut vout = .ok () →
      ∃ v, CTransaction.getValueOutFrom nValueOut vout = .ok v := by
  induction vout with
  | nil => exact fun {nValueOut} _ ↦ ⟨nValueOut, rfl⟩
  | cons txout vout ih =>
    intro nValueOut h
    simp only [checkOutputs, bind_eq_ok, rejectIf_eq_ok, not_not, not_lt] at h
    obtain ⟨-, -, -, hneg, -, hhigh, -, hsum, hrest⟩ := h
    rw [CTransaction.getValueOutFrom, if_neg]
    · exact ih hrest
    · rintro (h | h)
      · exact h ⟨hneg, hhigh⟩
      · exact h hsum

theorem getValueOut_of_checkTransaction {tx : CTransaction} (h : checkTransaction tx = .ok ()) :
    ∃ v, tx.getValueOut = .ok v := by
  simp only [checkTransaction, bind_eq_ok] at h
  obtain ⟨-, -, -, -, -, -, _, h, -⟩ := h
  exact getValueOutFrom_of_checkOutputs h

section

variable {P : Params} {V : TxView} {mapTestPool : TxIndexMap} {fBlock fMiner : Bool}
  {inputs : MapPrevTx}

theorem clean_fetchInput (prevout : COutPoint) :
    Clean (fetchInput V mapTestPool fBlock fMiner inputs prevout) := by
  unfold fetchInput
  split
  · exact .ok _
  · split
    · split
      · exact .reject _ _
      · split
        · exact .reject _ _
        · split
          · exact .reject _ _
          · exact .ok _
    · split
      · split
        · exact .reject _ _
        · exact .ok _
      · split
        · exact .reject _ _
        · exact .ok _

theorem clean_fetchAll (vin : List CTxIn) :
    ∀ inputs, Clean (fetchAll V mapTestPool fBlock fMiner inputs vin) := by
  induction vin with
  | nil => exact fun _ ↦ .ok _
  | cons txin vin ih => exact fun _ ↦ .bind (clean_fetchInput _) fun _ _ ↦ ih _

theorem clean_checkPrevouts {vin : List CTxIn}
    (h : ∀ txin ∈ vin, (inputs txin.prevout.hash).isSome) : Clean (checkPrevouts inputs vin) := by
  induction vin with
  | nil => exact .ok ()
  | cons txin vin ih =>
    obtain ⟨⟨txindex, txPrev⟩, he⟩ := Option.isSome_iff_exists.mp (h txin (by simp))
    rw [checkPrevouts, he]
    exact .bind (.rejectIf _ _ _) fun _ _ ↦ ih fun txin' hmem ↦ h txin' (by simp [hmem])

theorem clean_fetchInputs (tx : CTransaction) :
    Clean (fetchInputs V mapTestPool fBlock fMiner tx) := by
  unfold fetchInputs
  split
  · exact .ok _
  · exact .bind (clean_fetchAll _ _) fun inputs h ↦
      .bind (clean_checkPrevouts (fetchAll_eq_ok h).1) fun _ _ ↦ .ok _

theorem Fetched.tail {txin : CTxIn} {vin : List CTxIn} (h : Fetched inputs (txin :: vin)) :
    Fetched inputs vin := fun txin' hmem ↦ h txin' (by simp [hmem])

theorem getOutputFor_eq_ok {txin : CTxIn} {vin : List CTxIn} (h : Fetched inputs vin)
    (hmem : txin ∈ vin) : ∃ txout, getOutputFor inputs txin = .ok txout := by
  obtain ⟨txindex, txPrev, he, hlt, -⟩ := h txin hmem
  rw [getOutputFor, he]
  dsimp only
  rw [List.getElem?_eq_getElem hlt]
  exact ⟨_, rfl⟩

theorem clean_outputsFor {vin : List CTxIn} (h : Fetched inputs vin) :
    Clean (outputsFor inputs vin) := by
  induction vin with
  | nil => exact .ok _
  | cons txin vin ih =>
    obtain ⟨txout, he⟩ := getOutputFor_eq_ok h List.mem_cons_self
    exact .bind (.of_eq_ok he) fun _ _ ↦ .bind (ih h.tail) fun _ _ ↦ .ok _

theorem clean_getValueInFrom {vin : List CTxIn} (h : Fetched inputs vin) :
    ∀ nResult, Clean (getValueInFrom inputs nResult vin) := by
  induction vin with
  | nil => exact fun _ ↦ .ok _
  | cons txin vin ih =>
    obtain ⟨txout, he⟩ := getOutputFor_eq_ok h List.mem_cons_self
    exact fun _ ↦ .bind (.of_eq_ok he) fun _ _ ↦ ih h.tail _

theorem clean_getP2SHSigOpCountFrom {vin : List CTxIn} (h : Fetched inputs vin) :
    ∀ nSigOps, Clean (getP2SHSigOpCountFrom P inputs nSigOps vin) := by
  induction vin with
  | nil => exact fun _ ↦ .ok _
  | cons txin vin ih =>
    obtain ⟨txout, he⟩ := getOutputFor_eq_ok h List.mem_cons_self
    exact fun _ ↦ .bind (.of_eq_ok he) fun _ _ ↦ ih h.tail _

theorem clean_checkInputs {pindexBlock : Option CBlockIndex} {tx : CTransaction} {vin : List CTxIn}
    (h : Fetched inputs vin) :
    ∀ nValueIn, Clean (checkInputs pindexBlock tx inputs nValueIn vin) := by
  induction vin with
  | nil => exact fun _ ↦ .ok _
  | cons txin vin ih =>
    intro nValueIn
    refine .bind ?_ fun _ _ ↦ ih h.tail _
    obtain ⟨txindex, txPrev, he, hlt, -⟩ := h txin List.mem_cons_self
    rw [checkInput, he]
    dsimp only
    rw [List.getElem?_eq_getElem hlt]
    exact .bind (.rejectIf _ _ _) fun _ _ ↦ .bind (.rejectIf _ _ _) fun _ _ ↦
      .bind (.rejectIf _ _ _) fun _ _ ↦ .bind (.rejectIf _ _ _) fun _ _ ↦
      .bind (.rejectIf _ _ _) fun _ _ ↦ .ok _

theorem clean_checkSignature (flags : ℕ) (txPrev tx : CTransaction) (i : ℕ) :
    Clean (checkSignature P V fBlock flags txPrev tx i) := by
  unfold checkSignature
  split
  · exact .ok _
  · split
    · exact .ok _
    · split <;> exact .reject _ _

/-- What `spendInput` leaves: the slot of the output holds the position of the spender. -/
theorem spendInput_eq_ok {m : ConnectMode} {tx : CTransaction} {i : ℕ} {prevout : COutPoint}
    {inputs' : MapPrevTx} {mapTestPool' : TxIndexMap}
    (h : spendInput P V m tx i inputs mapTestPool prevout = .ok (inputs', mapTestPool')) :
    ∃ txindex txPrev pos, inputs prevout.hash = some (txindex, txPrev) ∧
      txindex.vSpent[prevout.n]? = some pos ∧ pos.isNull = true ∧
      inputs' = Function.update inputs prevout.hash
        (some ({ txindex with vSpent := txindex.vSpent.set prevout.n m.posThisTx }, txPrev)) ∧
      mapTestPool' = if m.fBlock ∨ m.fMiner then mapTestPool.insert prevout.hash
        { txindex with vSpent := txindex.vSpent.set prevout.n m.posThisTx } else mapTestPool := by
  unfold spendInput at h
  split at h
  · cases h
  · rename_i txindex txPrev he
    split at h
    · cases h
    · rename_i pos hpos
      simp only [bind_eq_ok, rejectIf_eq_ok, not_not] at h
      obtain ⟨-, hnull, -, -, h⟩ := h
      cases h
      exact ⟨txindex, txPrev, pos, he, hpos, hnull, rfl, rfl⟩

/-- Marking an output spent leaves everything in place that the other inputs need. -/
theorem Fetched.spend {vin : List CTxIn} (h : Fetched inputs vin) {hash : UInt256}
    {txindex : CTxIndex} {txPrev : CTransaction} (he : inputs hash = some (txindex, txPrev)) (n : ℕ)
    (pos : CDiskTxPos) :
    Fetched (Function.update inputs hash
      (some ({ txindex with vSpent := txindex.vSpent.set n pos }, txPrev))) vin := by
  intro txin hmem
  obtain ⟨txindex', txPrev', he', hlt⟩ := h txin hmem
  by_cases heq : txin.prevout.hash = hash
  · rw [heq] at he' ⊢
    cases he.symm.trans he'
    exact ⟨_, _, Function.update_self _ _ _, hlt.1, by simpa using hlt.2⟩
  · exact ⟨txindex', txPrev', (Function.update_of_ne heq _ _).trans he', hlt⟩

theorem clean_spendInputs {m : ConnectMode} {tx : CTransaction} {vin : List CTxIn} :
    ∀ {i inputs mapTestPool}, Fetched inputs vin →
      Clean (spendInputs P V m tx i inputs mapTestPool vin) := by
  induction vin with
  | nil => exact fun _ ↦ .ok _
  | cons txin vin ih =>
    intro i inputs mapTestPool h
    refine .bind ?_ fun r hr ↦ ?_
    · obtain ⟨txindex, txPrev, he, -, hlt⟩ := h txin List.mem_cons_self
      rw [spendInput, he]
      dsimp only
      rw [List.getElem?_eq_getElem hlt]
      exact .bind (.rejectIf _ _ _) fun _ _ ↦ .bind (clean_checkSignature _ _ _ _) fun _ _ ↦ .ok _
    · obtain ⟨txindex, txPrev, pos, he, -, -, hinputs, -⟩ := spendInput_eq_ok hr
      refine ih ?_
      rw [hinputs]
      exact h.tail.spend he _ _

theorem clean_checkFee {tx : CTransaction} {v : ℤ} (hv : tx.getValueOut = .ok v) (nValueIn : ℤ)
    (nBurnCoins : ℕ) : Clean (checkFee P fBlock tx nValueIn nBurnCoins) := by
  unfold checkFee
  split
  · exact .ok _
  · exact .bind (.of_eq_ok hv) fun _ _ ↦ .bind (.rejectIf _ _ _) fun _ _ ↦
      .bind (.rejectIf _ _ _) fun _ _ ↦ .bind (.rejectIf _ _ _) fun _ _ ↦
      .bind (.rejectIf _ _ _) fun _ _ ↦ .ok _

theorem clean_connectInputs {m : ConnectMode} {pindexBlock : Option CBlockIndex}
    {tx : CTransaction} {v : ℤ} (hv : tx.getValueOut = .ok v)
    (h : ¬ tx.isCoinBase → Fetched inputs tx.vin) (nBurnCoins : ℕ) :
    Clean (connectInputs P V m pindexBlock tx inputs mapTestPool nBurnCoins) := by
  unfold connectInputs
  split
  · exact .ok _
  · rename_i hcb
    exact .bind (clean_checkInputs (h hcb) _) fun _ _ ↦ .bind (clean_spendInputs (h hcb)) fun _ _ ↦
      .bind (clean_checkFee hv _ _) fun _ _ ↦ .ok _

theorem clean_getValueIn {tx : CTransaction} (h : ¬ tx.isCoinBase → Fetched inputs tx.vin) :
    Clean (getValueIn inputs tx) := by
  unfold getValueIn
  split
  · exact .ok _
  · rename_i hcb
    exact clean_getValueInFrom (h hcb) _

theorem clean_getP2SHSigOpCount {tx : CTransaction} (h : ¬ tx.isCoinBase → Fetched inputs tx.vin) :
    Clean (getP2SHSigOpCount P inputs tx) := by
  unfold getP2SHSigOpCount
  split
  · exact .ok _
  · rename_i hcb
    exact clean_getP2SHSigOpCountFrom (h hcb) _

end

/-! ## Accepting a loose transaction -/

/-- **`AcceptToMemoryPool` throws nothing.** -/
theorem clean_acceptToMemoryPool (P : Params) (w : World) (s : NodeState) (tx : CTransaction)
    (fLimitFree : Bool) : Clean (acceptToMemoryPool P w s tx fLimitFree) := by
  have hloose : Clean (checkLoose P w s tx) :=
    .bind (.withText (clean_checkTransaction tx) _) fun _ _ ↦ .bind (.rejectIf _ _ _) fun _ _ ↦
      .bind (.rejectIf _ _ _) fun _ _ ↦ .bind (.rejectIf _ _ _) fun _ _ ↦
      .bind (.rejectIf _ _ _) fun _ _ ↦ .bind (.rejectIf _ _ _) fun _ _ ↦ .rejectIf _ _ _
  refine .bind hloose fun _ hcheck ↦ .bind (.withText (clean_fetchInputs tx) _) fun inputs hin ↦
    .bind ?_ fun _ _ ↦ .ok _
  simp only [checkLoose, bind_eq_ok, rejectIf_eq_ok, withText_eq_ok] at hcheck hin
  obtain ⟨⟨⟩, htx, -, hcb, -⟩ := hcheck
  obtain ⟨v, hv⟩ := getValueOut_of_checkTransaction htx
  have hf := (fetchInputs_eq_ok hcb hin).1
  exact .bind (clean_outputsFor hf) fun _ _ ↦ .bind (.rejectIf _ _ _) fun _ _ ↦
    .bind (clean_getP2SHSigOpCount fun _ ↦ hf) fun _ _ ↦ .bind (.rejectIf _ _ _) fun _ _ ↦
    .bind (clean_getValueIn fun _ ↦ hf) fun _ _ ↦ .bind (.of_eq_ok hv) fun _ _ ↦
    .bind (.rejectIf _ _ _) fun _ _ ↦
    .bind (.withText (clean_connectInputs hv (fun _ ↦ hf) _) _) fun _ _ ↦
    .bind (.withText (clean_connectInputs hv (fun _ ↦ hf) _) _) fun _ _ ↦ .ok _

end Bws
