import Bws.Reach
import Bws.SigOps

/-!
# Lock times

A script that executes `OP_CHECKLOCKTIMEVERIFY` with a number on the top of the stack compares the
number with the lock time of the spending transaction, and asks that the input is not final.
`AcceptBlock` compares the lock time of every transaction with the height and the time of the block,
unless all inputs are final.  Together they compare the number with the block
(`lockTime_passed`).

`RunsLockTime` says that a run executes the instruction; a run that ends well has passed the test of
every one that it executes, in whichever of the scripts of an input (`LockTimeRun`).
-/

namespace Bws

open Checked

section

variable {C : Crypto} {c : ScriptContext} {N : ℤ}

/-! ## One script -/

/-- The run of a parsed script from a state executes `OP_CHECKLOCKTIMEVERIFY` when the top of the
stack is the number `N`. -/
inductive RunsLockTime (C : Crypto) (c : ScriptContext) (N : ℤ) : Parsed → ScriptState → Prop
  | here {vch x : valtype} {pc : CScript} {next : Parsed} {st : ScriptState} (hexec : st.fExec = true)
      (hrefuses : ¬ refusesOp OP_CHECKLOCKTIMEVERIFY vch st) (htop : st.stack.head? = some x)
      (hnumber : CBigNum.setvch x = N) :
      RunsLockTime C c N (.op OP_CHECKLOCKTIMEVERIFY vch pc next) st
  | later {opcode : UInt8} {vch : valtype} {pc : CScript} {next : Parsed} {st st' : ScriptState}
      (hstep : (step C c opcode vch pc st).result = some st') (hnext : RunsLockTime C c N next st') :
      RunsLockTime C c N (.op opcode vch pc next) st

/-- The instruction goes on only when the test of the lock time passes. -/
theorem lockTimePasses_of_step {vch : valtype} {pc : CScript} {st st' : ScriptState}
    (hexec : st.fExec = true)
    (h : (step C c OP_CHECKLOCKTIMEVERIFY vch pc st).result = some st') :
    lockTimePasses c st.stack = true := by
  obtain ⟨-, h⟩ := step_eq_some h
  have hdata : ¬ OP_CHECKLOCKTIMEVERIFY ≤ OP_PUSHDATA4 := by decide
  unfold execute at h
  rw [if_neg fun h ↦ hdata h.2, fExec_countOp, if_pos (.inl hexec)] at h
  unfold evalOp at h
  rw [if_neg (by decide), if_pos rfl, stack_countOp] at h
  by_contra hfails
  rw [if_neg hfails] at h
  cases h

/-- The test is about the number on the top of the stack. -/
theorem checkLockTime_of_passes {stack : List valtype} {x : valtype}
    (hflag : hasFlag c.flags SCRIPT_VERIFY_CHECKLOCKTIMEVERIFY) (htop : stack.head? = some x)
    (h : lockTimePasses c stack = true) :
    0 ≤ CBigNum.setvch x ∧ checkLockTime c.txTo c.nIn (CBigNum.setvch x) := by
  obtain ⟨rest, rfl⟩ : ∃ rest, stack = x :: rest := by
    cases stack with
    | nil => cases htop
    | cons y rest =>
      cases htop
      exact ⟨rest, rfl⟩
  unfold lockTimePasses at h
  rw [if_neg (not_not.mpr hflag)] at h
  by_cases hsize : 5 < x.length
  · simp [castToBigNum, hsize] at h
  · simpa [castToBigNum, hsize] using h

/-- **A run that ends well has passed the test of every instruction it has executed.** -/
theorem RunsLockTime.checks (hflag : hasFlag c.flags SCRIPT_VERIFY_CHECKLOCKTIMEVERIFY)
    {p : Parsed} {st : ScriptState} (hruns : RunsLockTime C c N p st) :
    ∀ {st'}, (evalFrom C c p st).result = some st' → 0 ≤ N ∧ checkLockTime c.txTo c.nIn N := by
  induction hruns with
  | here hexec hrefuses htop hnumber =>
    intro st' h
    rw [evalFrom, result_bind] at h
    obtain ⟨st₁, hstep, -⟩ := Option.bind_eq_some_iff.mp h
    rw [← hnumber]
    exact checkLockTime_of_passes hflag htop (lockTimePasses_of_step hexec hstep)
  | later hstep hnext ih =>
    intro st' h
    rw [evalFrom, result_bind, hstep] at h
    exact ih h

/-- `EvalScript` executes the instruction. -/
def ScriptRunsLockTime (C : Crypto) (c : ScriptContext) (N : ℤ) (script : CScript)
    (stack : List valtype) : Prop :=
  script.length ≤ 10000 ∧ RunsLockTime C c N (parse script) (.init script stack)

theorem ScriptRunsLockTime.checks (hflag : hasFlag c.flags SCRIPT_VERIFY_CHECKLOCKTIMEVERIFY)
    {script : CScript} {stack stack' : List valtype} (hruns : ScriptRunsLockTime C c N script stack)
    (h : (evalScript C c script stack).result = some stack') :
    0 ≤ N ∧ checkLockTime c.txTo c.nIn N := by
  obtain ⟨hsize, hruns⟩ := hruns
  unfold evalScript at h
  rw [if_neg (Nat.not_lt.mpr hsize)] at h
  obtain ⟨st, hst, -⟩ := Option.bind_eq_some_iff.mp h
  exact hruns.checks hflag hst

/-! ## The scripts of an input -/

/-- One of the scripts that `VerifyScript` runs executes the instruction: the script of the input,
the script of the output, or the redeem script. -/
inductive LockTimeRun (C : Crypto) (c : ScriptContext) (N : ℤ) (scriptSig scriptPubKey : CScript) :
    Prop
  | scriptSig (hruns : ScriptRunsLockTime C c N scriptSig [])
  | scriptPubKey {stackCopy : List valtype}
      (hsig : (evalScript C c scriptSig []).result = some stackCopy)
      (hruns : ScriptRunsLockTime C c N scriptPubKey stackCopy)
  | redeem {stackCopy stack : List valtype} {redeem : CScript}
      (hsig : (evalScript C c scriptSig []).result = some stackCopy)
      (hpubKey : leavesTrue (evalScript C c scriptPubKey stackCopy))
      (hp2sh : isPayToScriptHash scriptPubKey)
      (hredeem : redeemScript scriptSig stackCopy = some (redeem, stack))
      (hruns : ScriptRunsLockTime C c N redeem stack)

theorem verifyScript_eq_true {scriptSig scriptPubKey : CScript}
    (h : verifyScript C c scriptSig scriptPubKey = true) :
    ∃ stackCopy, (evalScript C c scriptSig []).result = some stackCopy ∧
      leavesTrue (evalScript C c scriptPubKey stackCopy) ∧
      (isPayToScriptHash scriptPubKey → ∃ redeem stack,
        redeemScript scriptSig stackCopy = some (redeem, stack) ∧
          leavesTrue (evalScript C c redeem stack)) := by
  unfold verifyScript at h
  split at h
  · cases h
  · rename_i stackCopy hsig
    split at h
    · rename_i hpubKey
      refine ⟨stackCopy, hsig, hpubKey, fun hp2sh ↦ ?_⟩
      rw [if_pos hp2sh, runRedeem, hsig] at h
      dsimp only at h
      rw [if_pos ⟨hpubKey, hp2sh⟩] at h
      cases hr : redeemScript scriptSig stackCopy with
      | none =>
        rw [hr] at h
        cases h
      | some r =>
        rw [hr] at h
        exact ⟨r.1, r.2, rfl, of_decide_eq_true h⟩
    · cases h

/-- **What `VerifyScript` accepts has passed the test of every instruction that it executes.** -/
theorem LockTimeRun.checks (hflag : hasFlag c.flags SCRIPT_VERIFY_CHECKLOCKTIMEVERIFY)
    {scriptSig scriptPubKey : CScript} (hruns : LockTimeRun C c N scriptSig scriptPubKey)
    (h : verifyScript C c scriptSig scriptPubKey = true) :
    0 ≤ N ∧ checkLockTime c.txTo c.nIn N := by
  obtain ⟨stackCopy, hsig, hpubKey, hp2sh⟩ := verifyScript_eq_true h
  cases hruns with
  | scriptSig hruns => exact hruns.checks hflag hsig
  | scriptPubKey hsig' hruns =>
    cases hsig.symm.trans hsig'
    obtain ⟨stack, hstack, -⟩ := hpubKey
    exact hruns.checks hflag hstack
  | redeem hsig' _ hp2sh' hredeem' hruns =>
    cases hsig.symm.trans hsig'
    obtain ⟨redeem, stack, hredeem, stack', hstack', -⟩ := hp2sh hp2sh'
    cases hredeem.symm.trans hredeem'
    exact hruns.checks hflag hstack'

/-! ## The inputs of a transaction -/

variable {P : Params} {V : TxView} {tx : CTransaction}

/-- The second loop of `ConnectInputs` has checked every signature, against the transaction that was
fetched. -/
theorem checkSignature_of_spendInputs {m : ConnectMode} {vin : List CTxIn} :
    ∀ {i : ℕ} {inputs : MapPrevTx} {mapTestPool mapTestPool' : TxIndexMap},
      spendInputs P V m tx i inputs mapTestPool vin = .ok mapTestPool' →
        ∀ {k : ℕ} {txin : CTxIn}, vin[k]? = some txin →
          ∃ txindex txPrev, inputs txin.prevout.hash = some (txindex, txPrev) ∧
            checkSignature P V m.fBlock m.flags txPrev tx (i + k) = .ok () := by
  induction vin with
  | nil =>
    intro i inputs map map' _ k txin hk
    cases hk
  | cons txin₀ vin ih =>
    intro i inputs map map' h k txin hk
    obtain ⟨⟨inputs₁, map₁⟩, h₁, h₂⟩ := bind_eq_ok.mp h
    unfold spendInput at h₁
    split at h₁
    · cases h₁
    · rename_i txindex₀ txPrev₀ hin
      split at h₁
      · cases h₁
      · obtain ⟨-, h₁⟩ := bind_check_eq_ok.mp h₁
        obtain ⟨hsig, h₁⟩ := bind_check_eq_ok.mp h₁
        cases h₁
        cases k with
        | zero =>
          cases hk
          exact ⟨txindex₀, txPrev₀, hin, hsig⟩
        | succ k =>
          obtain ⟨txindex, txPrev, htx, hrest⟩ := ih h₂ hk
          rw [Nat.add_right_comm, Nat.add_assoc] at hrest
          by_cases heq : txin.prevout.hash = txin₀.prevout.hash
          · -- the output was marked spent in between, in the entry of the same transaction
            rw [heq, Function.update_self] at htx
            cases htx
            exact ⟨txindex₀, _, heq ▸ hin, hrest⟩
          · rw [Function.update_of_ne heq] at htx
            exact ⟨txindex, txPrev, htx, hrest⟩

/-- With script checking on, a signature of a block that is accepted has been verified. -/
theorem verifyScript_of_checkSignature (hP : P.Interprets C)
    (hon : P.getTotalBlocksEstimate ≤ V.nBestHeight) {flags i : ℕ} {txPrev : CTransaction}
    {txin : CTxIn} {txout : CTxOut} (hin : tx.vin[i]? = some txin)
    (hout : txPrev.vout[txin.prevout.n]? = some txout)
    (h : checkSignature P V true flags txPrev tx i = .ok ()) :
    verifyScript C ⟨tx, i, flags, 0⟩ txin.scriptSig txout.scriptPubKey = true := by
  unfold checkSignature at h
  rw [if_neg fun hskip ↦ absurd hskip.2 (not_lt.mpr hon)] at h
  split at h
  · rename_i hverify
    rw [hP.verifySignature, verifySignature, hin] at hverify
    dsimp only at hverify
    rw [hout] at hverify
    exact (Bool.and_eq_true_iff.mp hverify).2
  · split at h <;> cases h

/-- The transaction spends an output of the chain and of the block below it with its `i`-th input. -/
structure SpendsWith (V : TxView) (t : BlockTotals) (tx : CTransaction) (i : ℕ) (txin : CTxIn)
    (txout : CTxOut) : Prop where
  coinBase : ¬ tx.isCoinBase
  input : tx.vin[i]? = some txin
  output : V.outputIn (queued V t.mapQueuedChanges) txin.prevout = some txout

/-- The inputs of a transaction that is connected have been verified, with the flags of
`ConnectBlock`. -/
theorem verifyScript_of_connectSpending (hP : P.Interprets C)
    (hon : P.getTotalBlocksEstimate ≤ V.nBestHeight) {pindex : CBlockIndex} {t t' : BlockTotals}
    {i : ℕ} {txin : CTxIn} {txout : CTxOut} (hs : SpendsWith V t tx i txin txout)
    (h : connectSpending P V pindex t tx = .ok t') :
    verifyScript C ⟨tx, i, connectBlockFlags, 0⟩ txin.scriptSig txout.scriptPubKey = true := by
  simp only [connectSpending, bind_eq_ok, dropScore_eq_ok, rejectIf_eq_ok] at h
  obtain ⟨inputs, hfetch, nP2SH, -, -, -, nTxValueIn, -, nTxValueOut, -, ⟨map, nBurn⟩, hconn, -⟩ := h
  rw [connectInputs, if_neg hs.coinBase] at hconn
  simp only [bind_eq_ok] at hconn
  obtain ⟨nValueIn, -, map', hspend, -⟩ := hconn
  obtain ⟨-, hall⟩ := fetchInputs_eq_ok hs.coinBase hfetch
  obtain ⟨txindex, txPrev, hin, hsig⟩ := checkSignature_of_spendInputs hspend hs.input
  obtain ⟨hq, hprev⟩ := fetches_queued (Or.inl rfl) (hall _ _ _ hin)
  have hout := hs.output
  rw [TxView.outputIn, hq, Option.bind_some, hprev, Option.bind_some] at hout
  rw [Nat.zero_add] at hsig
  exact verifyScript_of_checkSignature hP hon hs.input hout hsig

/-! ## A block -/

/-- The turn of a transaction in the loop of `ConnectBlock`, and the totals when it comes. -/
inductive Turn (P : Params) (V : TxView) (pindex : CBlockIndex) (fJustCheck : Bool) :
    BlockTotals → List CTransaction → BlockTotals → CTransaction → Prop
  | here {t : BlockTotals} {tx : CTransaction} {vtx : List CTransaction} :
      Turn P V pindex fJustCheck t (tx :: vtx) t tx
  | later {t t₁ t' : BlockTotals} {tx tx' : CTransaction} {vtx : List CTransaction}
      (hconnect : connectTx P V pindex fJustCheck t tx = .ok t₁)
      (hnext : Turn P V pindex fJustCheck t₁ vtx t' tx') :
      Turn P V pindex fJustCheck t (tx :: vtx) t' tx'

variable {pindex : CBlockIndex} {fJustCheck : Bool}

theorem Turn.mem {t t' : BlockTotals} {vtx : List CTransaction}
    (h : Turn P V pindex fJustCheck t vtx t' tx) : tx ∈ vtx := by
  induction h with
  | here => exact List.mem_cons_self
  | later _ _ ih => exact List.mem_cons_of_mem _ ih

/-- Every transaction of a block that is connected is connected in its turn. -/
theorem Turn.connects {t t' : BlockTotals} {vtx : List CTransaction}
    (h : Turn P V pindex fJustCheck t vtx t' tx) :
    ∀ {t₂}, connectTxs P V pindex fJustCheck t vtx = .ok t₂ →
      ∃ t₁, connectTx P V pindex fJustCheck t' tx = .ok t₁ := by
  induction h with
  | here =>
    intro t₂ hok
    obtain ⟨t₁, h₁, -⟩ := bind_eq_ok.mp hok
    exact ⟨t₁, h₁⟩
  | later hconnect _ ih =>
    intro t₂ hok
    obtain ⟨t₁, h₁, h₂⟩ := bind_eq_ok.mp hok
    cases hconnect.symm.trans h₁
    exact ih h₂

/-- The scripts of every input of a block that is connected have been verified. -/
theorem Turn.verifies (hP : P.Interprets C) (hon : P.getTotalBlocksEstimate ≤ V.nBestHeight)
    {t t' t₂ : BlockTotals} {vtx : List CTransaction} {i : ℕ} {txin : CTxIn} {txout : CTxOut}
    (h : Turn P V pindex fJustCheck t vtx t' tx)
    (hok : connectTxs P V pindex fJustCheck t vtx = .ok t₂)
    (hs : SpendsWith V t' tx i txin txout) :
    verifyScript C ⟨tx, i, connectBlockFlags, 0⟩ txin.scriptSig txout.scriptPubKey = true := by
  obtain ⟨t₁, h₁⟩ := h.connects hok
  simp only [connectTx, bind_eq_ok] at h₁
  obtain ⟨nSigOps, -, t₃, heither, -⟩ := h₁
  rw [connectEither, if_neg hs.coinBase] at heither
  have hs' : SpendsWith V { t' with nSigOps } tx i txin txout := ⟨hs.coinBase, hs.input, hs.output⟩
  exact verifyScript_of_connectSpending hP hon hs' heither

end

/-! ## Finality -/

section

variable {P : Params} {w : World} {s : NodeState} {block : CBlock}

/-- The transactions of a block that `AcceptBlock` lets pass are final at its height and its time,
neither of which is zero. -/
theorem isFinalTx_of_checkAccept {hashProof : UInt256}
    (h : checkAccept P w s block = .ok hashProof) :
    ∃ pindexPrev, s.mapBlockIndex block.hashPrevBlock = some pindexPrev ∧ 0 < block.nTime ∧
      ∀ tx ∈ block.vtx, isFinalTx s.nBestHeight w.nAdjustedTime tx
        ((pindexPrev.nHeight + 1 : ℕ) : ℤ) block.nTime := by
  unfold checkAccept at h
  obtain ⟨-, h⟩ := bind_check_eq_ok.mp h
  obtain ⟨-, h⟩ := bind_check_eq_ok.mp h
  split at h
  · cases h
  · cases h
  · cases h
  · rename_i pindexPrev pindexBest coinbase hprev hbest hcoinbase
    simp only [bind_check_eq_ok, rejectIf_eq_ok, not_not, not_lt, not_or, not_le] at h
    obtain ⟨-, -, -, -, -, ⟨htime, -⟩, hfinal, -⟩ := h
    have hprevTime : 0 ≤ pindexPrev.getPastTimeLimit := Int.natCast_nonneg _
    exact ⟨pindexPrev, hprev, by omega, fun tx htx ↦ by_contra fun hn ↦ hfinal ⟨tx, htx, hn⟩⟩

/-- The number lies below the height or the time of a block, whichever it is compared with. -/
def LocksBefore (N : ℤ) (nHeight : ℕ) (nTime : ℕ) : Prop :=
  (N < LOCKTIME_THRESHOLD → N < nHeight) ∧ (LOCKTIME_THRESHOLD ≤ N → N < nTime)

/-- The test of the script and the test of the block, put together. -/
theorem locksBefore_of_isFinalTx {nBestHeight nAdjustedTime N : ℤ} {tx : CTransaction}
    {nHeight nTime i : ℕ} (hheight : 0 < nHeight) (htime : 0 < nTime)
    (hfinal : isFinalTx nBestHeight nAdjustedTime tx nHeight nTime) (hN : 0 ≤ N)
    (hcheck : checkLockTime tx i N) : LocksBefore N nHeight nTime := by
  obtain ⟨hkind, hle, txin, htxin, hinput⟩ := hcheck
  unfold isFinalTx at hfinal
  rw [if_neg (by omega), if_neg (by omega)] at hfinal
  rcases hfinal with hzero | hlt | hall
  · -- only the number `0` passes, and as a height
    have hzeroN : N = 0 := by omega
    rw [hzeroN]
    exact ⟨fun _ ↦ by exact_mod_cast hheight, fun h ↦ absurd h (by decide)⟩
  · rcases hkind with ⟨hlow, hlowN⟩ | ⟨hhigh, hhighN⟩
    · rw [if_pos hlow] at hlt
      exact ⟨fun _ ↦ by omega, fun h ↦ absurd hlowN (not_lt.mpr h)⟩
    · rw [if_neg (not_lt.mpr hhigh)] at hlt
      exact ⟨fun h ↦ absurd h (not_lt.mpr hhighN), fun _ ↦ by omega⟩
  · exact absurd (hall txin (List.mem_of_getElem? htxin)) hinput

end

/-! ## Outputs that are guarded -/

/-- Whoever redeems an output with this script executes the instruction with the number `N`. -/
def LockedUntil (C : Crypto) (N : ℤ) (scriptPubKey : CScript) : Prop :=
  ∀ c scriptSig, verifyScript C c scriptSig scriptPubKey = true →
    LockTimeRun C c N scriptSig scriptPubKey

theorem setvch_numberOf {opcode : UInt8} (hlo : OP_1 ≤ opcode) (hhi : opcode ≤ OP_16) :
    CBigNum.setvch (numberOf opcode) = (opcode.toNat : ℤ) - 0x50 := by
  refine forall_byte 0x51 0x60 (p := fun opcode ↦
    CBigNum.setvch (numberOf opcode) = (opcode.toNat : ℤ) - 0x50) (by decide) (by decide)
    (fun n h₁ h₂ ↦ ?_) hlo hhi
  interval_cases n <;> rfl

/-- An instruction without data is read as it stands. -/
theorem parse_opcode {opcode : UInt8} (h : OP_PUSHDATA4 < opcode) (script : CScript) :
    parse (opcode :: script) = .op opcode [] script (parse script) := by
  refine parse_of_getOp ?_
  have hsize : pushSize opcode script = some (0, script) := by
    rw [UInt8.lt_iff_toNat_lt] at h
    have hfour : OP_PUSHDATA4.toNat = 78 := rfl
    unfold pushSize
    rw [if_neg, if_neg, if_neg, if_neg]
    · rintro rfl
      omega
    · rintro rfl
      exact absurd h (by decide)
    · rintro rfl
      exact absurd h (by decide)
    · rw [UInt8.not_lt, UInt8.le_iff_toNat_le]
      exact (show OP_PUSHDATA1.toNat ≤ 78 by decide).trans (hfour ▸ h.le)
  rw [getOp, hsize]
  exact if_neg (Nat.not_lt_zero _)

/-- A script that starts with a number and `OP_CHECKLOCKTIMEVERIFY` is guarded by the number. -/
theorem lockedUntil_number (C : Crypto) {opcode : UInt8} (hlo : OP_1 ≤ opcode) (hhi : opcode ≤ OP_16)
    (script : CScript) :
    LockedUntil C ((opcode.toNat : ℤ) - 0x50) (opcode :: OP_CHECKLOCKTIMEVERIFY :: script) := by
  intro c scriptSig h
  obtain ⟨stackCopy, hsig, ⟨stack, hstack, -⟩, -⟩ := verifyScript_eq_true h
  have hdata : OP_PUSHDATA4 < opcode :=
    UInt8.lt_of_lt_of_le (show OP_PUSHDATA4 < OP_1 by decide) hlo
  have hparse := parse_opcode hdata (OP_CHECKLOCKTIMEVERIFY :: script)
  rw [parse_opcode (show OP_PUSHDATA4 < OP_CHECKLOCKTIMEVERIFY by decide)] at hparse
  unfold evalScript at hstack
  split at hstack
  · cases hstack
  · rename_i hsize
    obtain ⟨st, hrun, -⟩ := Option.bind_eq_some_iff.mp hstack
    rw [hparse, evalFrom, result_bind] at hrun
    obtain ⟨st₁, hpush, hrun⟩ := Option.bind_eq_some_iff.mp hrun
    rw [evalFrom, result_bind] at hrun
    obtain ⟨st₂, htest, -⟩ := Option.bind_eq_some_iff.mp hrun
    obtain ⟨hbranch, -⟩ := step_push hhi (fun _ ↦ rfl) rfl hpush
    have hexec : st₁.fExec = true := by
      rw [ScriptState.fExec, hbranch]
      rfl
    have htop := fits_step hpush hlo hhi hexec
    refine .scriptPubKey hsig ⟨Nat.not_lt.mp hsize, ?_⟩
    rw [hparse]
    exact .later hpush (.here hexec (step_eq_some htest).1 htop (setvch_numberOf hlo hhi))

/-- **A lock is passed when an output is spent.**  For a block that `AcceptBlock` lets pass and
`ConnectBlock` accepts with script checking on: the number that a script of an input compares with the
lock time, by executing `OP_CHECKLOCKTIMEVERIFY`, lies below the height of the block or its time; and
so does the number that guards an output which is spent. -/
theorem lockTime_passed {P : Params} {C : Crypto} (hP : P.Interprets C) {w w' : World}
    {s : NodeState} {block : CBlock} {hashProof : UInt256} {nFile nBlockPos : ℕ}
    {pindex : CBlockIndex} {V : TxView} {pindexBest : Option CBlockIndex} {fJustCheck : Bool}
    {t : BlockTotals} (haccept : checkAccept P w s block = .ok hashProof)
    (hindex : newBlockIndex P s block nFile nBlockPos hashProof = .ok pindex)
    (hon : P.getTotalBlocksEstimate ≤ V.nBestHeight)
    (hconnect : connectBlockCheck P w' V pindexBest block pindex fJustCheck = .ok t)
    {t' : BlockTotals} {tx : CTransaction} {i : ℕ} {txin : CTxIn} {txout : CTxOut} {N : ℤ}
    (hturn : Turn P V pindex fJustCheck (.init (firstTxPos block pindex fJustCheck)) block.vtx t' tx)
    (hspends : SpendsWith V t' tx i txin txout) :
    (LockTimeRun C ⟨tx, i, connectBlockFlags, 0⟩ N txin.scriptSig txout.scriptPubKey →
      LocksBefore N pindex.nHeight block.nTime) ∧
    (LockedUntil C N txout.scriptPubKey → LocksBefore N pindex.nHeight block.nTime) := by
  obtain ⟨pindexPrev, hprev, htime, hfinal⟩ := isFinalTx_of_checkAccept haccept
  have hparent : pindex.pprev = some pindexPrev :=
    (newBlockIndex_eq_ok hindex).2.2.2.2.trans hprev
  have hheight : pindex.nHeight = pindexPrev.nHeight + 1 := by
    cases pindex with
    | root e => cases hparent
    | child e p =>
      cases hparent
      rfl
  simp only [connectBlockCheck, bind_eq_ok] at hconnect
  obtain ⟨-, -, t₂, htxs, -⟩ := hconnect
  have hverify := hturn.verifies hP hon htxs hspends
  have hrun : LockTimeRun C ⟨tx, i, connectBlockFlags, 0⟩ N txin.scriptSig txout.scriptPubKey →
      LocksBefore N pindex.nHeight block.nTime := by
    intro hrun
    have hflag : hasFlag connectBlockFlags SCRIPT_VERIFY_CHECKLOCKTIMEVERIFY := by decide
    obtain ⟨hN, hcheck⟩ := hrun.checks hflag hverify
    rw [hheight]
    exact locksBefore_of_isFinalTx (Nat.succ_pos _) htime (hfinal tx hturn.mem) hN hcheck
  exact ⟨hrun, fun hguard ↦ hrun (hguard _ _ hverify)⟩

namespace Sample

/-- An output that is locked until the block at height 2. -/
def lockedPubKey : CScript := [OP_1, OP_CHECKLOCKTIMEVERIFY]

def lockedTx : CTransaction where
  nVersion := 1
  nTime := 0
  vin := [⟨⟨7, 0⟩, [], uintMax⟩]
  vout := [⟨10 * COIN, lockedPubKey⟩]
  nLockTime := 0

/-- A transaction that spends it. -/
def unlockTx : CTransaction where
  nVersion := 1
  nTime := 240
  vin := [⟨⟨params.getHash lockedTx, 0⟩, [], 0⟩]
  vout := [⟨9 * COIN, [0, 0]⟩]
  nLockTime := 1

/-- A chain with the output. -/
def lockedView : TxView where
  txIndex hash := if hash = params.getHash lockedTx then some ⟨⟨1, 100, 100⟩, [.null]⟩ else none
  readTx pos := if pos = ⟨1, 100, 100⟩ then some lockedTx else none
  readHeader _ _ := none
  lookup _ := none
  nBestHeight := 1

def heightOne : CBlock := block 1 1 0 0 []

/-- The node after the block at height 1. -/
def afterOne : NodeState := Exec.final (acceptBlock interpreted world heightOne start)

def heightTwo : CBlock := block 2 (params.blockHash heightOne.toCBlockHeader) 0 0 [unlockTx]

def indexTwo : CBlockIndex := indexOf afterOne heightTwo

/-- The totals when the transaction has its turn. -/
def unlockTotals : BlockTotals :=
  match connectTx interpreted lockedView indexTwo false (.init (firstTxPos heightTwo indexTwo false))
    (coinbase 2 0 0) with
  | .ok t => t
  | .error _ => .init 0

theorem lockedUntil_lockedPubKey : LockedUntil crypto 1 lockedPubKey :=
  lockedUntil_number crypto (show OP_1 ≤ OP_1 by decide) (show OP_1 ≤ OP_16 by decide) []

/-- The entry of a block does not depend on the interpreter. -/
theorem newBlockIndex_interpreted (s : NodeState) (block : CBlock) (nFile nBlockPos : ℕ)
    (hashProof : UInt256) :
    newBlockIndex interpreted s block nFile nBlockPos hashProof =
      newBlockIndex params s block nFile nBlockPos hashProof := rfl

theorem newBlockIndex_heightTwo : newBlockIndex interpreted afterOne heightTwo 1
    (afterOne.files.fileEnd 1 + 8) 0 = .ok indexTwo := by
  rw [newBlockIndex_interpreted]
  obtain ⟨pindex, h⟩ := eq_ok_of_isOk (show (newBlockIndex params afterOne heightTwo 1
    (afterOne.files.fileEnd 1 + 8) 0).isOk by decide +kernel)
  rw [indexTwo, indexOf, h]

theorem turn_unlockTx : Turn interpreted lockedView indexTwo false
    (.init (firstTxPos heightTwo indexTwo false)) heightTwo.vtx unlockTotals unlockTx := by
  obtain ⟨t₁, h₁⟩ := eq_ok_of_isOk (show (connectTx interpreted lockedView indexTwo false
    (.init (firstTxPos heightTwo indexTwo false)) (coinbase 2 0 0)).isOk by decide +kernel)
  have htotals : unlockTotals = t₁ := by rw [unlockTotals, h₁]
  rw [htotals]
  exact .later h₁ .here

end Sample

theorem lockTime_passed_sample :
    LockTimeRun Sample.crypto ⟨Sample.unlockTx, 0, connectBlockFlags, 0⟩ 1 [] Sample.lockedPubKey ∧
      LockedUntil Sample.crypto 1 Sample.lockedPubKey ∧ Sample.indexTwo.nHeight = 2 ∧
        LocksBefore 1 Sample.indexTwo.nHeight Sample.heightTwo.nTime := by
  have hrun := Sample.lockedUntil_lockedPubKey ⟨Sample.unlockTx, 0, connectBlockFlags, 0⟩ []
    (by decide +kernel)
  obtain ⟨hashProof, haccept⟩ := eq_ok_of_isOk (show (checkAccept Sample.interpreted Sample.world
    Sample.afterOne Sample.heightTwo).isOk by decide +kernel)
  have hzero : (checkAccept Sample.interpreted Sample.world Sample.afterOne
    Sample.heightTwo).toOption = some 0 := by decide +kernel
  rw [haccept] at hzero
  cases hzero
  obtain ⟨t, hconnect⟩ := eq_ok_of_isOk (show (connectBlockCheck Sample.interpreted Sample.world
    Sample.lockedView Sample.afterOne.pindexBest Sample.heightTwo Sample.indexTwo false).isOk by
      decide +kernel)
  have hspends : SpendsWith Sample.lockedView Sample.unlockTotals Sample.unlockTx 0
      ⟨⟨Sample.params.getHash Sample.lockedTx, 0⟩, [], 0⟩ ⟨10 * COIN, Sample.lockedPubKey⟩ :=
    ⟨by decide, rfl, by decide +kernel⟩
  have hpassed := lockTime_passed (N := 1) (C := Sample.crypto) (P := Sample.interpreted)
    ⟨rfl, rfl, rfl, rfl⟩ haccept Sample.newBlockIndex_heightTwo (by decide) hconnect
    Sample.turn_unlockTx hspends
  exact ⟨hrun, Sample.lockedUntil_lockedPubKey, by decide +kernel, hpassed.1 hrun⟩

end Bws
