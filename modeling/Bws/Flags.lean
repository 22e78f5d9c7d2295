import Bws.AcceptTx
import Bws.SigOps

/-!
# Flags that only refuse

`SCRIPT_VERIFY_NULLDUMMY`, `SCRIPT_VERIFY_DISCOURAGE_UPGRADABLE_NOPS` and `SCRIPT_VERIFY_STRICTENC`
end a script where it would otherwise go on, and never change how it goes on: a run that gets to its
end with such a flag gets to the same end without it.  So a script cannot make use of them by negating
a result, and what is accepted with them is accepted without them (`verifyScript_of_extended`).

The proof runs the interpreter twice, with flags of which one set is `Stricter`, and compares what the
two runs leave (`Refines`).
-/

namespace Bws

open Checked

/-- The flags that only refuse. -/
def refusingFlags : ℕ :=
  SCRIPT_VERIFY_NULLDUMMY ||| SCRIPT_VERIFY_DISCOURAGE_UPGRADABLE_NOPS |||
    SCRIPT_VERIFY_STRICTENC

/-- `flags'` has the same flags that decide how a script goes on, and the refusing flags of
`flags`. -/
structure Stricter (flags flags' : ℕ) : Prop where
  emptySig : hasFlag flags' SCRIPT_VERIFY_ALLOW_EMPTY_SIG ↔ hasFlag flags SCRIPT_VERIFY_ALLOW_EMPTY_SIG
  hashtype : hasFlag flags' SCRIPT_VERIFY_FIX_HASHTYPE ↔ hasFlag flags SCRIPT_VERIFY_FIX_HASHTYPE
  lockTime : hasFlag flags' SCRIPT_VERIFY_CHECKLOCKTIMEVERIFY ↔
    hasFlag flags SCRIPT_VERIFY_CHECKLOCKTIMEVERIFY
  nullDummy : hasFlag flags SCRIPT_VERIFY_NULLDUMMY → hasFlag flags' SCRIPT_VERIFY_NULLDUMMY
  upgradableNops : hasFlag flags SCRIPT_VERIFY_DISCOURAGE_UPGRADABLE_NOPS →
    hasFlag flags' SCRIPT_VERIFY_DISCOURAGE_UPGRADABLE_NOPS
  strictEnc : hasFlag flags SCRIPT_VERIFY_STRICTENC → hasFlag flags' SCRIPT_VERIFY_STRICTENC

/-- A flag outside a set of flags is not touched by adding any of these. -/
theorem hasFlag_extend {flags extra set flag : ℕ} (h : extra &&& set = extra)
    (hflag : set &&& flag = 0) : hasFlag (flags ||| extra) flag ↔ hasFlag flags flag := by
  have hextra : extra &&& flag = 0 := by
    rw [← h, Nat.land_assoc, hflag, Nat.and_zero]
  unfold hasFlag
  rw [Nat.and_or_distrib_right, hextra, Nat.or_zero]

theorem hasFlag_or {flags extra flag : ℕ} (h : hasFlag flags flag) :
    hasFlag (flags ||| extra) flag := by
  unfold hasFlag at h ⊢
  rw [Nat.and_or_distrib_right]
  exact fun hzero ↦ h (Nat.or_eq_zero_iff.mp hzero).1

theorem stricter_extend {extra : ℕ} (flags : ℕ) (h : extra &&& refusingFlags = extra) :
    Stricter flags (flags ||| extra) where
  emptySig := hasFlag_extend h (by decide)
  hashtype := hasFlag_extend h (by decide)
  lockTime := hasFlag_extend h (by decide)
  nullDummy := hasFlag_or
  upgradableNops := hasFlag_or
  strictEnc := hasFlag_or

theorem stricter_mandatory : Stricter MANDATORY_SCRIPT_VERIFY_FLAGS STANDARD_SCRIPT_VERIFY_FLAGS := by
  constructor <;> decide

theorem stricter_connectBlockFlags : Stricter connectBlockFlags STANDARD_SCRIPT_VERIFY_FLAGS := by
  constructor <;> decide

/-! ## Comparing two runs -/

/-- What `x'` leaves, `x` leaves too. -/
def Refines {α : Type} (x' x : Checked α) : Prop := ∀ a, x'.result = some a → x.result = some a

theorem Refines.rfl' {α : Type} (x : Checked α) : Refines x x := fun _ ↦ id

theorem refines_of_none {α : Type} {x' x : Checked α} (h : x'.result = none) : Refines x' x :=
  fun _ ha ↦ absurd (h.symm.trans ha) nofun

theorem Refines.bind {α β : Type} {x' x : Checked α} {f' f : α → Checked β} (h : Refines x' x)
    (hf : ∀ a, Refines (f' a) (f a)) : Refines (x'.bind f') (x.bind f) := by
  intro b hb
  rw [result_bind] at hb ⊢
  obtain ⟨a, ha, hb⟩ := Option.bind_eq_some_iff.mp hb
  rw [h a ha]
  exact hf a b hb

theorem Refines.map {α β : Type} {x' x : Checked α} {f' f : α → Option β} (h : Refines x' x)
    (hf : ∀ a b, f' a = some b → f a = some b) : Refines (x'.map f') (x.map f) := by
  intro b hb
  obtain ⟨a, ha, hb⟩ := Option.bind_eq_some_iff.mp hb
  exact Option.bind_eq_some_iff.mpr ⟨a, h a ha, hf a b hb⟩

section

variable {C : Crypto} {c : ScriptContext} {flags flags' : ℕ}

/-! ## Signatures -/

theorem checkSignatureEncoding_congr (h : Stricter flags flags') (vchSig : valtype) :
    checkSignatureEncoding vchSig flags' ↔ checkSignatureEncoding vchSig flags := by
  unfold checkSignatureEncoding
  rw [h.emptySig, h.hashtype]

theorem refines_checkOne (h : Stricter flags flags') (scriptCode : CScript)
    (vchSig vchPubKey : valtype) :
    Refines (checkOne C { c with flags := flags' } scriptCode vchSig vchPubKey)
      (checkOne C { c with flags := flags } scriptCode vchSig vchPubKey) := by
  have hcongr := checkSignatureEncoding_congr h vchSig
  unfold checkOne
  by_cases henc : checkSignatureEncoding vchSig flags ∧ checkPubKeyEncoding vchPubKey
  · rw [if_pos henc, if_pos ⟨hcongr.mpr henc.1, henc.2⟩]
    exact .rfl' _
  · rw [if_neg henc, if_neg fun henc' ↦ henc ⟨hcongr.mp henc'.1, henc'.2⟩]
    by_cases hstrict : hasFlag flags' SCRIPT_VERIFY_STRICTENC
    · exact refines_of_none (if_pos hstrict)
    · rw [if_neg hstrict, if_neg fun hf ↦ hstrict (h.strictEnc hf)]
      exact .rfl' _

theorem refines_multiSigLoop (h : Stricter flags flags') (scriptCode : CScript)
    (keys : List valtype) : ∀ sigs,
      Refines (multiSigLoop C { c with flags := flags' } scriptCode keys sigs)
        (multiSigLoop C { c with flags := flags } scriptCode keys sigs) := by
  induction keys with
  | nil =>
    intro sigs
    cases sigs <;> exact .rfl' _
  | cons vchPubKey keys ih =>
    intro sigs
    cases sigs with
    | nil => exact .rfl' _
    | cons vchSig sigs =>
      rw [multiSigLoop, multiSigLoop]
      refine (refines_checkOne h _ _ _).bind fun fOk ↦ ?_
      by_cases hfew : keys.length < (if fOk then sigs else vchSig :: sigs).length
      · rw [if_pos hfew, if_pos hfew]
        exact .rfl' _
      · rw [if_neg hfew, if_neg hfew]
        exact ih _

theorem refines_evalCheckSig (h : Stricter flags flags') (fVerify : Bool) (st : ScriptState) :
    Refines (evalCheckSig C { c with flags := flags' } fVerify st)
      (evalCheckSig C { c with flags := flags } fVerify st) := by
  unfold evalCheckSig
  split
  · exact (refines_checkOne h _ _ _).map fun _ _ ↦ id
  · exact .rfl' _

theorem dropDummy_of_stricter (h : Stricter flags flags') {fVerify fSuccess : Bool}
    {stack stack' : List valtype}
    (hd : dropDummy { c with flags := flags' } fVerify fSuccess stack = some stack') :
    dropDummy { c with flags := flags } fVerify fSuccess stack = some stack' := by
  cases stack with
  | nil => cases hd
  | cons dummy stack =>
    rw [dropDummy] at hd ⊢
    split at hd
    · cases hd
    · rename_i hnull
      rw [if_neg fun hf ↦ hnull ⟨h.nullDummy hf.1, hf.2⟩]
      exact hd

theorem refines_evalCheckMultiSig (h : Stricter flags flags') (fVerify : Bool) (st : ScriptState) :
    Refines (evalCheckMultiSig C { c with flags := flags' } fVerify st)
      (evalCheckMultiSig C { c with flags := flags } fVerify st) := by
  unfold evalCheckMultiSig
  split
  · exact .rfl' _
  · refine (refines_multiSigLoop h _ _ _).map fun fSuccess st' hst ↦ ?_
    obtain ⟨stack, hd, rfl⟩ := Option.map_eq_some_iff.mp hst
    rw [dropDummy_of_stricter h hd]
    rfl

/-! ## Instructions -/

theorem lockTimePasses_of_stricter (h : Stricter flags flags') {stack : List valtype}
    (hp : lockTimePasses { c with flags := flags' } stack = true) :
    lockTimePasses { c with flags := flags } stack = true := by
  unfold lockTimePasses at hp ⊢
  split at hp
  · rename_i hflag
    rw [if_pos fun hf ↦ hflag (h.lockTime.mpr hf)]
    rw [decide_eq_true_iff] at hp ⊢
    exact fun hf ↦ hp (h.upgradableNops hf)
  · rename_i hflag
    rw [if_neg fun hf ↦ hflag fun hf' ↦ hf (h.lockTime.mp hf')]
    exact hp

theorem refines_evalOp (h : Stricter flags flags') (opcode : UInt8) (pc : CScript) (fExec : Bool)
    (st : ScriptState) :
    Refines (evalOp C { c with flags := flags' } opcode pc fExec st)
      (evalOp C { c with flags := flags } opcode pc fExec st) := by
  unfold evalOp
  split
  · exact .rfl' _
  split
  · intro st' hst
    rw [result_plain] at hst ⊢
    split at hst
    · rename_i hp
      rw [if_pos (lockTimePasses_of_stricter h hp)]
      exact hst
    · cases hst
  split
  · intro st' hst
    rw [result_plain] at hst ⊢
    split at hst
    · cases hst
    · rename_i hnop
      rw [if_neg fun hf ↦ hnop (h.upgradableNops hf)]
      exact hst
  split
  · exact .rfl' _
  split
  · exact refines_evalCheckSig h _ st
  split
  · exact refines_evalCheckMultiSig h _ st
  · exact .rfl' _

theorem refines_step (h : Stricter flags flags') (opcode : UInt8) (vch : valtype) (pc : CScript)
    (st : ScriptState) :
    Refines (step C { c with flags := flags' } opcode vch pc st)
      (step C { c with flags := flags } opcode vch pc st) := by
  unfold step
  split
  · exact .rfl' _
  · refine Refines.map ?_ fun _ _ ↦ id
    unfold execute
    split
    · exact .rfl' _
    · split
      · exact refines_evalOp h _ _ _ _
      · exact .rfl' _

/-! ## Scripts -/

theorem refines_evalFrom (h : Stricter flags flags') (p : Parsed) : ∀ st,
    Refines (evalFrom C { c with flags := flags' } p st)
      (evalFrom C { c with flags := flags } p st) := by
  induction p with
  | done => exact fun _ ↦ .rfl' _
  | bad => exact fun _ ↦ .rfl' _
  | op opcode vch pc next ih => exact fun st ↦ (refines_step h opcode vch pc st).bind ih

theorem refines_evalScript (h : Stricter flags flags') (script : CScript) (stack : List valtype) :
    Refines (evalScript C { c with flags := flags' } script stack)
      (evalScript C { c with flags := flags } script stack) := by
  unfold evalScript
  split
  · exact .rfl' _
  · exact (refines_evalFrom h _ _).map fun _ _ ↦ id

theorem leavesTrue_of_refines {x' x : Checked (List valtype)} (h : Refines x' x)
    (hx : leavesTrue x') : leavesTrue x := by
  obtain ⟨stack, hstack, htop⟩ := hx
  exact ⟨stack, h stack hstack, htop⟩

theorem verifyScript_of_stricter (h : Stricter flags flags') {scriptSig scriptPubKey : CScript}
    (hv : verifyScript C { c with flags := flags' } scriptSig scriptPubKey = true) :
    verifyScript C { c with flags := flags } scriptSig scriptPubKey = true := by
  unfold verifyScript at hv ⊢
  split at hv
  · cases hv
  · rename_i stackCopy hsig
    have hsig' := refines_evalScript h scriptSig [] stackCopy hsig
    rw [hsig']
    split at hv
    · rename_i htrue
      have htrue' := leavesTrue_of_refines (refines_evalScript h scriptPubKey stackCopy) htrue
      dsimp only
      rw [if_pos htrue']
      split at hv
      · rename_i hp2sh
        rw [if_pos hp2sh]
        rw [runRedeem, hsig] at hv
        rw [runRedeem, hsig']
        dsimp only at hv ⊢
        rw [if_pos ⟨htrue, hp2sh⟩] at hv
        rw [if_pos ⟨htrue', hp2sh⟩]
        cases hr : redeemScript scriptSig stackCopy with
        | none =>
          rw [hr] at hv
          cases hv
        | some r =>
          rw [hr, Option.map_some, Option.any_some, decide_eq_true_iff] at hv
          rw [Option.map_some, Option.any_some, decide_eq_true_iff]
          exact leavesTrue_of_refines (refines_evalScript h r.1 r.2) hv
      · rename_i hp2sh
        rw [if_neg hp2sh]
    · cases hv

/-! ## Transactions -/

variable {P : Params} {V : TxView} {tx : CTransaction}

theorem verifySignature_of_stricter (hP : P.Interprets C) (h : Stricter flags flags')
    {txPrev : CTransaction} {i : ℕ} (hv : P.verifySignature txPrev tx i flags' = true) :
    P.verifySignature txPrev tx i flags = true := by
  rw [hP.verifySignature, verifySignature] at hv ⊢
  split at hv
  · cases hv
  · split at hv
    · cases hv
    · rw [Bool.and_eq_true] at hv ⊢
      exact ⟨hv.1, verifyScript_of_stricter (c := ⟨tx, i, 0, 0⟩) h hv.2⟩

theorem checkSignature_of_stricter (hP : P.Interprets C) (h : Stricter flags flags')
    {fBlock : Bool} {txPrev : CTransaction} {i : ℕ}
    (hs : checkSignature P V fBlock flags' txPrev tx i = .ok ()) :
    checkSignature P V fBlock flags txPrev tx i = .ok () := by
  unfold checkSignature at hs ⊢
  split at hs
  · rename_i hskip
    rw [if_pos hskip]
  · rename_i hskip
    rw [if_neg hskip]
    split at hs
    · rename_i hv
      rw [if_pos (verifySignature_of_stricter hP h hv)]
    · split at hs <;> cases hs

theorem spendInputs_of_stricter (hP : P.Interprets C) (h : Stricter flags flags')
    {m : ConnectMode} {vin : List CTxIn} :
    ∀ {i : ℕ} {inputs : MapPrevTx} {mapTestPool mapTestPool' : TxIndexMap},
      spendInputs P V { m with flags := flags' } tx i inputs mapTestPool vin = .ok mapTestPool' →
        spendInputs P V { m with flags := flags } tx i inputs mapTestPool vin =
          .ok mapTestPool' := by
  induction vin with
  | nil => exact id
  | cons txin vin ih =>
    intro i inputs mapTestPool mapTestPool' hs
    obtain ⟨⟨inputs₁, mapTestPool₁⟩, h₁, h₂⟩ := bind_eq_ok.mp hs
    refine bind_eq_ok.mpr ⟨(inputs₁, mapTestPool₁), ?_, ih h₂⟩
    unfold spendInput at h₁ ⊢
    split at h₁
    · cases h₁
    · split at h₁
      · cases h₁
      · obtain ⟨hnull, h₁⟩ := bind_check_eq_ok.mp h₁
        obtain ⟨hsig, h₁⟩ := bind_check_eq_ok.mp h₁
        exact bind_check_eq_ok.mpr ⟨hnull,
          bind_check_eq_ok.mpr ⟨checkSignature_of_stricter hP h hsig, h₁⟩⟩

theorem connectInputs_of_stricter (hP : P.Interprets C) (h : Stricter flags flags')
    {m : ConnectMode} {pindexBlock : Option CBlockIndex} {inputs : MapPrevTx}
    {mapTestPool : TxIndexMap} {nBurnCoins : ℕ} {r : TxIndexMap × ℕ}
    (hc : connectInputs P V { m with flags := flags' } pindexBlock tx inputs mapTestPool
      nBurnCoins = .ok r) :
    connectInputs P V { m with flags := flags } pindexBlock tx inputs mapTestPool nBurnCoins =
      .ok r := by
  unfold connectInputs at hc ⊢
  split at hc
  · rename_i hcb
    rw [if_pos hcb]
    exact hc
  · rename_i hcb
    rw [if_neg hcb]
    obtain ⟨nValueIn, hcheck, hc⟩ := bind_eq_ok.mp hc
    obtain ⟨map', hspend, hc⟩ := bind_eq_ok.mp hc
    exact bind_eq_ok.mpr ⟨nValueIn, hcheck,
      bind_eq_ok.mpr ⟨map', spendInputs_of_stricter hP h hspend, hc⟩⟩

end

/-- **Adding a flag that only refuses accepts nothing new.**  In particular the inputs of a
transaction that `AcceptToMemoryPool` accepts also pass with the mandatory flags and with those of
`ConnectBlock`. -/
theorem verifyScript_of_extended (C : Crypto) :
    (∀ (c : ScriptContext) (extra : ℕ) (scriptSig scriptPubKey : CScript),
      extra &&& refusingFlags = extra →
      verifyScript C { c with flags := c.flags ||| extra } scriptSig scriptPubKey = true →
        verifyScript C c scriptSig scriptPubKey = true) ∧
    ∀ (P : Params) (w : World) (s s' : NodeState) (tx : CTransaction) (fLimitFree : Bool),
      P.Interprets C → acceptToMemoryPool P w s tx fLimitFree = .ok s' →
        ∃ mapInputs, fetchInputs (s.txView w s.txdb.fresh) ∅ false false tx = .ok mapInputs ∧
          ∀ flags ∈ [MANDATORY_SCRIPT_VERIFY_FLAGS, connectBlockFlags],
            ∃ r, connectInputs P (s.txView w s.txdb.fresh) (looseMode flags) s.pindexBest tx
              mapInputs ∅ 0 = .ok r := by
  constructor
  · exact fun c extra _ _ hextra hv ↦ verifyScript_of_stricter (stricter_extend c.flags hextra) hv
  · intro P w s s' tx fLimitFree hP h
    simp only [acceptToMemoryPool, bind_eq_ok, withText_eq_ok] at h
    obtain ⟨-, -, mapInputs, hfetch, _, hloose, -⟩ := h
    simp only [checkLooseInputs, bind_eq_ok, withText_eq_ok] at hloose
    obtain ⟨-, -, -, -, -, -, -, -, -, -, -, -, -, -, r, hstandard, -⟩ := hloose
    refine ⟨mapInputs, hfetch, fun flags hmem ↦ ⟨r, ?_⟩⟩
    have hstricter : Stricter flags STANDARD_SCRIPT_VERIFY_FLAGS := by
      rcases List.mem_cons.mp hmem with rfl | hmem
      · exact stricter_mandatory
      · cases List.mem_singleton.mp hmem
        exact stricter_connectBlockFlags
    exact connectInputs_of_stricter (m := looseMode flags) hP hstricter hstandard

namespace Sample

/-- A transaction with an output that anyone may spend. -/
def anyone (prevout : COutPoint) (nValue : ℤ) : CTransaction where
  nVersion := 1
  nTime := 0
  vin := [⟨prevout, [], uintMax⟩]
  vout := [⟨nValue, [OP_1]⟩]
  nLockTime := 5

/-- A node with such a transaction in its pool. -/
def pooled : NodeState :=
  { start with
    mempool := start.mempool.addUnchecked (params.getHash (anyone ⟨77, 0⟩ COIN))
      (anyone ⟨77, 0⟩ COIN) }

/-- A transaction that spends it. -/
def spender : CTransaction :=
  { anyone ⟨params.getHash (anyone ⟨77, 0⟩ COIN), 0⟩ (COIN - CENT) with nLockTime := 6 }

end Sample

theorem verifyScript_of_extended_sample :
    verifyScript Sample.crypto ⟨Sample.coinbase 1 0 0, 0, SCRIPT_VERIFY_ALLOW_EMPTY_SIG, 0⟩
        Sample.redeemSig Sample.redeemPubKey = true ∧
      ∃ mapInputs, fetchInputs (Sample.pooled.txView Sample.world Sample.pooled.txdb.fresh) ∅
          false false Sample.spender = .ok mapInputs ∧
        ∃ r, connectInputs Sample.interpreted
          (Sample.pooled.txView Sample.world Sample.pooled.txdb.fresh)
          (looseMode connectBlockFlags) Sample.pooled.pindexBest Sample.spender mapInputs ∅ 0 =
            .ok r := by
  obtain ⟨hscript, hpool⟩ := verifyScript_of_extended Sample.crypto
  constructor
  · exact hscript ⟨Sample.coinbase 1 0 0, 0, SCRIPT_VERIFY_ALLOW_EMPTY_SIG, 0⟩ refusingFlags
      Sample.redeemSig Sample.redeemPubKey (by decide) (by decide +kernel)
  · have hok : (acceptToMemoryPool Sample.interpreted Sample.world Sample.pooled Sample.spender
        true).isOk := by decide +kernel
    cases h : acceptToMemoryPool Sample.interpreted Sample.world Sample.pooled Sample.spender
        true with
    | error e =>
      rw [h] at hok
      cases hok
    | ok s' =>
      obtain ⟨mapInputs, hfetch, hconnect⟩ := hpool _ _ _ s' _ _ ⟨rfl, rfl, rfl, rfl⟩ h
      exact ⟨mapInputs, hfetch, hconnect _ (by simp)⟩

end Bws
