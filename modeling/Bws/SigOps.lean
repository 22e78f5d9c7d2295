import Bws.AcceptBlock
import Bws.Interpreter
import Bws.Spend

/-!
# What a script may cost

`GetSigOpCount(true)` bounds the calls of `CheckSig` that a run of the script makes, also of one that
fails (`checks_evalScript`).  The count reads the bytes of the script; the run decides on the way
which instructions it executes and how many keys an `OP_CHECKMULTISIG` has.  They meet in `Fits`:
when the instruction before was `OP_1` .. `OP_16` and the run is not in a branch that it skips, the
top of the stack is that number.

For a pay-to-script-hash output the script that is counted is the one that is run, except that a
number pushed as the redeem script is counted as the empty script (`checks_runRedeem`); so the
signature operations that `ConnectBlock` counts bound what redeem scripts cost
(`redeemChecks_of_connectTxs`).
-/

namespace Bws

open Checked

/-- A statement about a range of bytes, checked number by number. -/
theorem forall_byte {p : UInt8 → Prop} (lo hi : ℕ) (hl : lo < 256) (hh : hi < 256)
    (h : ∀ n, lo ≤ n → n ≤ hi → p (UInt8.ofNat n)) {b : UInt8} (hlo : UInt8.ofNat lo ≤ b)
    (hhi : b ≤ UInt8.ofNat hi) : p b := by
  have hlo' := UInt8.le_iff_toNat_le.mp hlo
  have hhi' := UInt8.le_iff_toNat_le.mp hhi
  rw [UInt8.toNat_ofNat_of_lt' (by simpa using hl)] at hlo'
  rw [UInt8.toNat_ofNat_of_lt' (by simpa using hh)] at hhi'
  have hb := h b.toNat hlo' hhi'
  rwa [UInt8.ofNat_toNat] at hb

section

variable {C : Crypto} {c : ScriptContext}

/-! ## One signature, several signatures -/

theorem checks_checkOne (scriptCode : CScript) (vchSig vchPubKey : valtype) :
    (checkOne C c scriptCode vchSig vchPubKey).checks ≤ 1 := by
  unfold checkOne
  split
  · exact le_rfl
  · exact Nat.zero_le 1

theorem checks_bind_le {α β : Type} {x : Checked α} {f : α → Checked β} {m n : ℕ}
    (hx : x.checks ≤ m) (hf : ∀ a, x.result = some a → (f a).checks ≤ n) :
    (x.bind f).checks ≤ m + n := by
  cases h : x.result with
  | none =>
    rw [bind_of_none h]
    exact Nat.le_add_right_of_le hx
  | some a =>
    rw [bind_of_some h]
    exact Nat.add_le_add hx (hf a h)

/-- Every check uses up a key. -/
theorem checks_multiSigLoop (scriptCode : CScript) (keys : List valtype) :
    ∀ sigs, (multiSigLoop C c scriptCode keys sigs).checks ≤ keys.length := by
  induction keys with
  | nil =>
    intro sigs
    cases sigs <;> exact le_rfl
  | cons vchPubKey keys ih =>
    intro sigs
    cases sigs with
    | nil => exact Nat.zero_le _
    | cons vchSig sigs =>
      have hrest : ∀ sigs : List valtype,
          (if keys.length < sigs.length then Checked.plain (some false)
            else multiSigLoop C c scriptCode keys sigs).checks ≤ keys.length := by
        intro sigs
        split
        · exact Nat.zero_le _
        · exact ih sigs
      rw [multiSigLoop, List.length_cons, Nat.add_comm]
      exact checks_bind_le (checks_checkOne _ _ _) fun fOk _ ↦ hrest _

/-- `OP_CHECKMULTISIG` takes as many keys as the top of the stack says, and 20 at most. -/
theorem length_keys {nOpCount : ℕ} {stack : List valtype} {args : MultiSigArgs}
    (h : multiSigArgs nOpCount stack = some args) :
    ∃ x nKeysCount, stack.head? = some x ∧
      (castToBigNum x nDefaultMaxNumSize).map CBigNum.getint = some nKeysCount ∧
      args.keys.length ≤ nKeysCount.toNat ∧ nKeysCount.toNat ≤ 20 := by
  unfold multiSigArgs at h
  split at h
  · cases h
  · rename_i x stack
    split at h
    · cases h
    · rename_i nKeysCount hx
      split at h
      · cases h
      · rename_i hrange
        simp only [not_or, not_lt] at hrange
        split at h
        · cases h
        · split at h
          · cases h
          · split at h
            · cases h
            · cases h
              exact ⟨x, nKeysCount, rfl, hx, List.length_take_le _ _, by omega⟩

/-! ## The number before an instruction -/

/-- The number that `OP_1` .. `OP_16` push. -/
def numberOf (opcode : UInt8) : valtype := CBigNum.getvch ((opcode.toNat : ℤ) - 0x50)

theorem castToBigNum_numberOf {opcode : UInt8} (hlo : OP_1 ≤ opcode) (hhi : opcode ≤ OP_16) :
    (castToBigNum (numberOf opcode) nDefaultMaxNumSize).map CBigNum.getint =
      some (decodeOP_N opcode) := by
  refine forall_byte 0x51 0x60 (p := fun opcode ↦
    (castToBigNum (numberOf opcode) nDefaultMaxNumSize).map CBigNum.getint =
      some (decodeOP_N opcode : ℤ)) (by decide) (by decide) (fun n h₁ h₂ ↦ ?_) hlo hhi
  interval_cases n <;> rfl

/-- The instructions from `OP_1NEGATE` to `OP_16` push a number, except for `OP_RESERVED`. -/
theorem evalOp_number {opcode : UInt8} (hlo : OP_1NEGATE ≤ opcode) (hhi : opcode ≤ OP_16)
    (pc : CScript) (fExec : Bool) (st : ScriptState) :
    evalOp C c opcode pc fExec st =
      .plain (if opcode = 0x50 then none
        else some { st with stack := numberOf opcode :: st.stack }) := by
  refine forall_byte 0x4f 0x60 (p := fun opcode ↦ evalOp C c opcode pc fExec st =
    .plain (if opcode = 0x50 then none else some { st with stack := numberOf opcode :: st.stack }))
    (by decide) (by decide) (fun n h₁ h₂ ↦ ?_) hlo hhi
  interval_cases n <;> rfl

/-- When the last instruction was a number and has been executed, the number is on the top. -/
def Fits (lastOpcode : UInt8) (st : ScriptState) : Prop :=
  OP_1 ≤ lastOpcode → lastOpcode ≤ OP_16 → st.fExec = true →
    st.stack.head? = some (numberOf lastOpcode)

theorem fits_init (stack : List valtype) (script : CScript) :
    Fits OP_INVALIDOPCODE (.init script stack) := fun _ h ↦ absurd h (by decide)

theorem withinLimits_eq_some {st st' : ScriptState} (h : withinLimits st = some st') : st' = st := by
  unfold withinLimits at h
  split at h
  · cases h
  · exact (Option.some.inj h).symm

theorem countOp_of_le {opcode : UInt8} (h : opcode ≤ OP_16) (st : ScriptState) :
    countOp opcode st = st := if_neg (UInt8.not_lt.mpr h)

@[simp] theorem fExec_countOp (opcode : UInt8) (st : ScriptState) :
    (countOp opcode st).fExec = st.fExec := by
  unfold countOp
  split <;> rfl

@[simp] theorem stack_countOp (opcode : UInt8) (st : ScriptState) :
    (countOp opcode st).stack = st.stack := by
  unfold countOp
  split <;> rfl

theorem step_eq_some {opcode : UInt8} {vch : valtype} {pc : CScript} {st st' : ScriptState}
    (h : (step C c opcode vch pc st).result = some st') :
    ¬ refusesOp opcode vch st ∧
      (execute C c opcode vch pc (countOp opcode st)).result = some st' := by
  unfold step at h
  split at h
  · cases h
  · rename_i href
    obtain ⟨st₁, hexec, hlimits⟩ := Option.bind_eq_some_iff.mp h
    cases withinLimits_eq_some hlimits
    exact ⟨href, hexec⟩

theorem fits_step {opcode : UInt8} {vch : valtype} {pc : CScript} {st st' : ScriptState}
    (h : (step C c opcode vch pc st).result = some st') : Fits opcode st' := by
  intro hlo hhi hexec
  obtain ⟨-, h⟩ := step_eq_some h
  rw [countOp_of_le hhi] at h
  have hdata : ¬ opcode ≤ OP_PUSHDATA4 := fun hle ↦ absurd (UInt8.le_trans hlo hle) (by decide)
  have hcontrol : ¬ OP_IF ≤ opcode := fun hle ↦ absurd (UInt8.le_trans hle hhi) (by decide)
  unfold execute at h
  rw [if_neg fun h ↦ hdata h.2] at h
  split at h
  · rw [evalOp_number (UInt8.le_trans (by decide) hlo) hhi,
      if_neg fun heq ↦ absurd (heq ▸ hlo) (by decide)] at h
    cases h
    rfl
  · rename_i hskip
    cases h
    exact absurd (.inl hexec) hskip

/-! ## A whole script -/

theorem checks_evalOp {lastOpcode opcode : UInt8} {pc : CScript} {fExec : Bool} {st : ScriptState}
    (hfits : OP_1 ≤ lastOpcode → lastOpcode ≤ OP_16 →
      (OP_IF ≤ opcode ∧ opcode ≤ OP_ENDIF) ∨ st.stack.head? = some (numberOf lastOpcode)) :
    (evalOp C c opcode pc fExec st).checks ≤ sigOps true lastOpcode opcode := by
  unfold evalOp
  split
  · exact Nat.zero_le _
  split
  · exact Nat.zero_le _
  split
  · exact Nat.zero_le _
  split
  · exact Nat.zero_le _
  split
  · rename_i hsig
    rw [sigOps, if_pos hsig]
    unfold evalCheckSig
    split
    · exact checks_checkOne _ _ _
    · exact Nat.zero_le _
  rename_i hsig
  split
  · rename_i hmulti
    rw [sigOps, if_neg hsig, if_pos hmulti]
    unfold evalCheckMultiSig
    split
    · exact Nat.zero_le _
    · rename_i args hargs
      refine (checks_multiSigLoop _ _ _).trans ?_
      obtain ⟨x, nKeysCount, hx, hcast, hlen, hmax⟩ := length_keys hargs
      split
      · -- the number of keys is the number just pushed
        rename_i hnumber
        obtain ⟨-, hlo, hhi⟩ := hnumber
        rcases hfits hlo hhi with hcontrol | htop
        · rcases hmulti with rfl | rfl <;> exact absurd hcontrol (by decide)
        · cases hx.symm.trans htop
          cases hcast.symm.trans (castToBigNum_numberOf hlo hhi)
          exact hlen
      · exact hlen.trans hmax
  · exact Nat.zero_le _

theorem checks_step {lastOpcode opcode : UInt8} {vch : valtype} {pc : CScript} {st : ScriptState}
    (hfits : Fits lastOpcode st) :
    (step C c opcode vch pc st).checks ≤ sigOps true lastOpcode opcode := by
  unfold step
  split
  · exact Nat.zero_le _
  · rw [checks_map]
    unfold execute
    split
    · exact Nat.zero_le _
    · split
      · rename_i hrun
        refine checks_evalOp fun hlo hhi ↦ ?_
        rw [fExec_countOp] at hrun
        rw [stack_countOp]
        rcases hrun with hexec | hcontrol
        · exact .inr (hfits hlo hhi hexec)
        · exact .inl hcontrol
      · exact Nat.zero_le _

theorem checks_evalFrom (p : Parsed) : ∀ {lastOpcode : UInt8} {st : ScriptState},
    Fits lastOpcode st → (evalFrom C c p st).checks ≤ p.sigOpCount true lastOpcode := by
  induction p with
  | done => exact fun _ ↦ le_rfl
  | bad => exact fun _ ↦ le_rfl
  | op opcode vch pc next ih =>
    exact fun hfits ↦ checks_bind_le (checks_step hfits) fun st h ↦ ih (fits_step h)

/-- **A run checks no more signatures than are counted.** -/
theorem checks_evalScript_le (script : CScript) (stack : List valtype) :
    (evalScript C c script stack).checks ≤ getSigOpCount true script := by
  unfold evalScript
  split
  · exact Nat.zero_le _
  · exact checks_evalFrom _ (fits_init stack script)

/-! ## Redeem scripts -/

/-- Only the instructions up to `OP_PUSHDATA4` have bytes to push. -/
def Parsed.Faithful : Parsed → Prop
  | .done => True
  | .bad => True
  | .op opcode vch _ next => (OP_PUSHDATA4 < opcode → vch = []) ∧ next.Faithful

theorem vch_of_getOp {script pc : CScript} {opcode : UInt8} {vch : valtype}
    (h : getOp script = some (opcode, vch, pc)) (hop : OP_PUSHDATA4 < opcode) : vch = [] := by
  cases script with
  | nil => cases h
  | cons b rest =>
    rw [getOp] at h
    split at h
    · cases h
    · rename_i nSize pc' hsize
      split at h
      · cases h
      · cases h
        have hne : ∀ {o : UInt8}, o ≤ OP_PUSHDATA4 → opcode ≠ o := fun hle heq ↦
          UInt8.not_lt.mpr hle (heq ▸ hop)
        rw [pushSize, if_neg (UInt8.not_lt.mpr (UInt8.le_trans (by decide) (UInt8.le_of_lt hop))),
          if_neg (hne (by decide)), if_neg (hne (by decide)), if_neg (hne (by decide))] at hsize
        cases hsize
        rfl

theorem faithful_parseFrom : ∀ (fuel : ℕ) (script : CScript), (parseFrom fuel script).Faithful := by
  intro fuel
  induction fuel with
  | zero => exact fun _ ↦ trivial
  | succ fuel ih =>
    intro script
    rw [parseFrom]
    split
    · trivial
    · split
      · trivial
      · rename_i hget
        exact ⟨vch_of_getOp hget, ih _⟩

/-- The script that is run stands for the data that is counted. -/
def StandsFor (x data : valtype) : Prop :=
  x = data ∨ data = [] ∧ ∃ opcode, OP_1NEGATE ≤ opcode ∧ opcode ≤ OP_16 ∧ x = numberOf opcode

/-- A number has no signature operations when it is taken for a script. -/
theorem StandsFor.sigOpCount {x data : valtype} (h : StandsFor x data) :
    getSigOpCount true x = getSigOpCount true data := by
  rcases h with rfl | ⟨rfl, opcode, hlo, hhi, rfl⟩
  · rfl
  · refine forall_byte 0x4f 0x60
      (p := fun opcode ↦ getSigOpCount true (numberOf opcode) = getSigOpCount true [])
      (by decide) (by decide) (fun n h₁ h₂ ↦ ?_) hlo hhi
    interval_cases n <;> rfl

/-- An instruction that only pushes. -/
theorem step_push {opcode : UInt8} {vch : valtype} {pc : CScript} {st st' : ScriptState}
    (hop : opcode ≤ OP_16) (hvch : OP_PUSHDATA4 < opcode → vch = []) (hexec : st.vfExec = [])
    (h : (step C c opcode vch pc st).result = some st') :
    st'.vfExec = [] ∧ ∃ x, st'.stack = x :: st.stack ∧ StandsFor x vch := by
  obtain ⟨-, h⟩ := step_eq_some h
  have hf : st.fExec = true := by
    rw [ScriptState.fExec, hexec]
    rfl
  rw [countOp_of_le hop] at h
  unfold execute at h
  split at h
  · cases h
    exact ⟨hexec, vch, rfl, .inl rfl⟩
  · rename_i hdata
    have hlt : OP_PUSHDATA4 < opcode := UInt8.not_le.mp fun hle ↦ hdata ⟨hf, hle⟩
    have hlo : OP_1NEGATE ≤ opcode := by
      rw [UInt8.le_iff_toNat_le]
      exact UInt8.lt_iff_toNat_lt.mp hlt
    rw [if_pos (.inl hf), evalOp_number hlo hop] at h
    split at h
    · cases h
    · cases h
      exact ⟨hexec, _, rfl, .inr ⟨hvch hlt, opcode, hlo, hop, rfl⟩⟩

/-- What a script that only pushes leaves on the top is what its last instruction pushes. -/
theorem top_of_pushOnly (p : Parsed) (hp : p.Faithful) (hpush : p.isPushOnly = true) :
    ∀ {data : valtype} {st st' : ScriptState}, st.vfExec = [] →
      (∀ x ∈ st.stack.head?, StandsFor x data) → (evalFrom C c p st).result = some st' →
        ∃ d, p.lastPush data = some d ∧ ∀ x ∈ st'.stack.head?, StandsFor x d := by
  induction p with
  | done =>
    rintro data st _ - htop ⟨⟩
    exact ⟨data, rfl, htop⟩
  | bad => cases hpush
  | op opcode vch pc next ih =>
    intro data st st' hexec htop h
    rw [Parsed.isPushOnly] at hpush
    split at hpush
    · cases hpush
    · rename_i hop
      rw [evalFrom, result_bind] at h
      obtain ⟨st₁, hstep, h⟩ := Option.bind_eq_some_iff.mp h
      obtain ⟨hexec₁, x, hstack, hx⟩ := step_push (UInt8.not_lt.mp hop) hp.1 hexec hstep
      have htop₁ : ∀ y ∈ st₁.stack.head?, StandsFor y vch := by
        rw [hstack]
        rintro y ⟨⟩
        exact hx
      obtain ⟨d, hd, htop'⟩ := ih hp.2 hpush hexec₁ htop₁ h
      refine ⟨d, ?_, htop'⟩
      rw [Parsed.lastPush, if_neg hop]
      exact hd

theorem redeemScript_standsFor {scriptSig redeem : CScript} {stackCopy stack : List valtype}
    (h : (evalScript C c scriptSig []).result = some stackCopy)
    (hr : redeemScript scriptSig stackCopy = some (redeem, stack)) :
    ∃ data, (parse scriptSig).lastPush [] = some data ∧ StandsFor redeem data := by
  unfold redeemScript at hr
  split at hr
  · rename_i hpush
    split at hr
    · cases hr
    · cases hr
      unfold evalScript at h
      split at h
      · cases h
      · obtain ⟨st, hrun, hst⟩ := Option.bind_eq_some_iff.mp h
        split at hst
        · have hstack := Option.some.inj hst
          have hnil : ∀ x ∈ (ScriptState.init scriptSig []).stack.head?, StandsFor x [] := nofun
          obtain ⟨d, hd, htop⟩ := top_of_pushOnly _ (faithful_parseFrom _ _) hpush rfl hnil hrun
          exact ⟨d, hd, htop _ (by rw [hstack]; rfl)⟩
        · cases hst
  · cases hr

theorem isPayToScriptHash_of_runRedeem {scriptSig scriptPubKey : CScript}
    {x : Checked (List valtype)} (h : runRedeem C c scriptSig scriptPubKey = some x) :
    isPayToScriptHash scriptPubKey := by
  unfold runRedeem at h
  split at h
  · cases h
  · split at h
    · rename_i hp2sh
      exact hp2sh.2
    · cases h

/-- **The redeem script that is run is the one that is counted.** -/
theorem checks_runRedeem_le {scriptSig scriptPubKey : CScript} {x : Checked (List valtype)}
    (h : runRedeem C c scriptSig scriptPubKey = some x) :
    x.checks ≤ getSigOpCountP2SH scriptPubKey scriptSig := by
  unfold runRedeem at h
  split at h
  · cases h
  · rename_i stackCopy hsig
    split at h
    · rename_i hp2sh
      obtain ⟨⟨redeem, stack⟩, hr, rfl⟩ := Option.map_eq_some_iff.mp h
      obtain ⟨data, hdata, hstands⟩ := redeemScript_standsFor hsig hr
      rw [getSigOpCountP2SH, if_pos hp2sh.2, hdata]
      exact (checks_evalScript_le redeem stack).trans hstands.sigOpCount.le
    · cases h

/-! ## A block -/

/-- What the redeem scripts of the inputs from the `i`-th on cost, when they spend these outputs. -/
def redeemChecks (C : Crypto) (tx : CTransaction) (flags : ℕ) : ℕ → List CTxIn → List CTxOut → ℕ
  | i, txin :: vin, txout :: vout =>
    ((runRedeem C ⟨tx, i, flags, 0⟩ txin.scriptSig txout.scriptPubKey).elim 0 Checked.checks) +
      redeemChecks C tx flags (i + 1) vin vout
  | _, _, _ => 0

theorem redeemChecks_le {P : Params} (hP : P.Interprets C) {inputs : MapPrevTx} (tx : CTransaction)
    (flags : ℕ) {vin : List CTxIn} {vout : List CTxOut}
    (h : List.Forall₂ (fun txin txout ↦ getOutputFor inputs txin = .ok txout) vin vout) :
    ∀ {i n m}, getP2SHSigOpCountFrom P inputs n vin = .ok m →
      n + redeemChecks C tx flags i vin vout ≤ m := by
  induction h with
  | nil =>
    rintro i n _ ⟨⟩
    exact le_rfl
  | @cons txin txout vin vout htxout _ ih =>
    intro i n m h
    obtain ⟨txout', htxout', h⟩ := bind_eq_ok.mp h
    cases htxout.symm.trans htxout'
    have hrest := ih (i := i + 1) h
    have hcost : (runRedeem C ⟨tx, i, flags, 0⟩ txin.scriptSig txout.scriptPubKey).elim 0
        Checked.checks ≤ if isPayToScriptHash txout.scriptPubKey then
          P.getSigOpCountP2SH txout.scriptPubKey txin.scriptSig else 0 := by
      cases hrun : runRedeem C ⟨tx, i, flags, 0⟩ txin.scriptSig txout.scriptPubKey with
      | none => exact Nat.zero_le _
      | some x =>
        rw [hP.getSigOpCountP2SH, if_pos (isPayToScriptHash_of_runRedeem hrun)]
        exact checks_runRedeem_le hrun
    rw [redeemChecks]
    by_cases hp2sh : isPayToScriptHash txout.scriptPubKey
    · rw [if_pos hp2sh] at hrest hcost
      omega
    · rw [if_neg hp2sh] at hrest hcost
      omega

variable {P : Params} {V : TxView} {pindex : CBlockIndex}

/-- The outputs that a transaction with inputs spends. -/
def spentOutputs (V : TxView) (idx : Ledger.Index UInt256 CDiskTxPos) (tx : CTransaction) :
    List CTxOut :=
  if tx.isCoinBase then [] else tx.vin.filterMap fun txin ↦ V.outputIn idx txin.prevout

theorem spentOutputs_eq {idx : Ledger.Index UInt256 CDiskTxPos} {tx : CTransaction}
    {vout : List CTxOut} (hcb : ¬ tx.isCoinBase) (h : SpendsOutputs V idx tx.vin vout) :
    spentOutputs V idx tx = vout := by
  rw [spentOutputs, if_neg hcb]
  have hmap : ∀ {vin vout}, SpendsOutputs V idx vin vout →
      vin.filterMap (fun txin ↦ V.outputIn idx txin.prevout) = vout := by
    intro vin vout h
    induction h with
    | nil => rfl
    | cons htxout _ ih => rw [List.filterMap_cons, htxout, ih]
  exact hmap h

/-- What the redeem scripts cost that the loop of `ConnectBlock` runs. -/
def blockRedeemChecks (C : Crypto) (P : Params) (V : TxView) (pindex : CBlockIndex) :
    BlockTotals → List CTransaction → ℕ
  | _, [] => 0
  | t, tx :: vtx =>
    redeemChecks C tx connectBlockFlags 0 tx.vin
        (spentOutputs V (queued V t.mapQueuedChanges) tx) +
      match connectTx P V pindex false t tx with
      | .ok t' => blockRedeemChecks C P V pindex t' vtx
      | .error _ => 0

theorem redeemChecks_of_connectEither (hP : P.Interprets C) {t t' : BlockTotals}
    {tx : CTransaction} (h : connectEither P V pindex t tx = .ok t') :
    t.nSigOps + redeemChecks C tx connectBlockFlags 0 tx.vin
        (spentOutputs V (queued V t.mapQueuedChanges) tx) ≤ t'.nSigOps ∧
      (t.nSigOps ≤ MAX_BLOCK_SIGOPS → t'.nSigOps ≤ MAX_BLOCK_SIGOPS) := by
  unfold connectEither at h
  split at h
  · rename_i hcb
    obtain ⟨rfl, -⟩ := connectCoinBase_eq_ok h
    rw [spentOutputs, if_pos hcb]
    refine ⟨?_, id⟩
    cases tx.vin <;> exact le_rfl
  · rename_i hcb
    simp only [connectSpending, bind_eq_ok, dropScore_eq_ok, rejectIf_eq_ok, not_lt] at h
    obtain ⟨inputs, hfetch, nP2SH, hcount, -, hmax, _, -, _, -, _, -, h⟩ := h
    cases h
    obtain ⟨hf, hall⟩ := fetchInputs_eq_ok hcb hfetch
    obtain ⟨vout, hget, hspends⟩ := spendsOutputs_of_fetched (Or.inl rfl) hf hall
    rw [spentOutputs_eq hcb hspends]
    rw [getP2SHSigOpCount, if_neg hcb] at hcount
    have hle := redeemChecks_le hP tx connectBlockFlags hget (i := 0) hcount
    exact ⟨by dsimp only; omega, fun _ ↦ hmax⟩

/-- **What ConnectBlock counts bounds what redeem scripts cost.** -/
theorem redeemChecks_of_connectTxs (hP : P.Interprets C) {vtx : List CTransaction} :
    ∀ {t t' : BlockTotals}, connectTxs P V pindex false t vtx = .ok t' →
      t.nSigOps + blockRedeemChecks C P V pindex t vtx ≤ t'.nSigOps ∧
        (t.nSigOps ≤ MAX_BLOCK_SIGOPS → t'.nSigOps ≤ MAX_BLOCK_SIGOPS) := by
  induction vtx with
  | nil =>
    rintro t _ ⟨⟩
    exact ⟨le_rfl, id⟩
  | cons tx vtx ih =>
    intro t t' h
    obtain ⟨t₁, h₁, h₂⟩ := connectTxs_cons_eq_ok.mp h
    obtain ⟨nSigOps, t₂, hover, heither, rfl⟩ := connectTx_eq_ok h₁
    obtain ⟨hcost, hmax⟩ := redeemChecks_of_connectEither hP heither
    obtain ⟨hrest, hmax'⟩ := ih h₂
    simp only [checkOverwrite, bind_eq_ok, rejectIf_eq_ok, not_lt] at hover
    obtain ⟨-, -, -, hlimit, hover⟩ := hover
    cases hover
    rw [blockRedeemChecks, h₁]
    dsimp only at hcost hrest hmax hmax' ⊢
    exact ⟨by omega, fun _ ↦ hmax' (hmax hlimit)⟩

end

/-- **Signature operations bound signature checks**: of any script, whatever it is run on and however
it ends; of the redeem script of a pay-to-script-hash output; and of all redeem scripts of a block
that `ConnectBlock` accepts. -/
theorem checks_le_sigOps (C : Crypto) :
    (∀ c script stack, (evalScript C c script stack).checks ≤ getSigOpCount true script) ∧
    (∀ c scriptSig scriptPubKey x, runRedeem C c scriptSig scriptPubKey = some x →
      x.checks ≤ getSigOpCountP2SH scriptPubKey scriptSig) ∧
    ∀ (P : Params) (w : World) (V : TxView) (pindexBest : Option CBlockIndex) (block : CBlock)
      (pindex : CBlockIndex) (t : BlockTotals), P.Interprets C →
      connectBlockCheck P w V pindexBest block pindex false = .ok t →
        blockRedeemChecks C P V pindex (.init (firstTxPos block pindex false)) block.vtx ≤
            t.nSigOps ∧ t.nSigOps ≤ MAX_BLOCK_SIGOPS := by
  refine ⟨fun c script stack ↦ checks_evalScript_le script stack,
    fun c scriptSig scriptPubKey x ↦ checks_runRedeem_le, ?_⟩
  intro P w V pindexBest block pindex t hP h
  simp only [connectBlockCheck, bind_eq_ok] at h
  obtain ⟨-, -, t', htxs, -, -, -, -, h⟩ := h
  cases h
  obtain ⟨hcost, hmax⟩ := redeemChecks_of_connectTxs hP htxs
  exact ⟨by simpa [BlockTotals.init] using hcost, hmax (Nat.zero_le _)⟩

namespace Sample

/-- Hashes of zeros, and signatures that are all valid. -/
def crypto : Crypto where
  ripemd160 _ := List.replicate 20 0
  sha1 _ := List.replicate 20 0
  sha256 _ := List.replicate 32 0
  hash160 _ := List.replicate 20 0
  hash256 _ := List.replicate 32 0
  hashTx _ _ := 0
  verify _ _ _ := true

/-- The parameters with the interpreter in its place. -/
def interpreted : Params :=
  { params with
    verifySignature := verifySignature crypto params.getHash
    getSigOpCount := getSigOpCount false
    getSigOpCountP2SH := getSigOpCountP2SH
    isPushOnly := isPushOnly }

/-- `<key> OP_CHECKSIG OP_NOT`, which an empty signature redeems. -/
def redeem : CScript := 0x21 :: 2 :: List.replicate 32 0 ++ [OP_CHECKSIG, OP_NOT]

def redeemSig : CScript := 0 :: pushData redeem

def redeemPubKey : CScript := OP_HASH160 :: 0x14 :: List.replicate 20 0 ++ [OP_EQUAL]

def redeemContext : ScriptContext := ⟨coinbase 1 0 0, 0, MANDATORY_SCRIPT_VERIFY_FLAGS, 0⟩

example : verifyScript crypto redeemContext redeemSig redeemPubKey = true := by decide +kernel

/-- A chain without transactions. -/
def emptyView : TxView := ⟨fun _ ↦ none, fun _ ↦ none, fun _ _ ↦ none, fun _ ↦ none, 0⟩

end Sample

theorem checks_le_sigOps_sample :
    (∃ x, runRedeem Sample.crypto Sample.redeemContext Sample.redeemSig Sample.redeemPubKey =
      some x ∧ x.checks = 1 ∧ 1 ≤ getSigOpCountP2SH Sample.redeemPubKey Sample.redeemSig) ∧
    ∃ t, connectBlockCheck Sample.interpreted Sample.world Sample.emptyView
        (some (Sample.indexOf .init Sample.genesis)) Sample.genesis
        (Sample.indexOf .init Sample.genesis) false = .ok t ∧ t.nSigOps ≤ MAX_BLOCK_SIGOPS := by
  obtain ⟨-, hredeem, hblock⟩ := checks_le_sigOps Sample.crypto
  constructor
  · obtain ⟨x, hx⟩ := Option.isSome_iff_exists.mp (show (runRedeem Sample.crypto
      Sample.redeemContext Sample.redeemSig Sample.redeemPubKey).isSome by decide +kernel)
    have hone : (runRedeem Sample.crypto Sample.redeemContext Sample.redeemSig
      Sample.redeemPubKey).map Checked.checks = some 1 := by decide +kernel
    rw [hx] at hone
    have hchecks : x.checks = 1 := Option.some.inj hone
    exact ⟨x, hx, hchecks, hchecks ▸ hredeem _ _ _ x hx⟩
  · have hok : (connectBlockCheck Sample.interpreted Sample.world Sample.emptyView
        (some (Sample.indexOf .init Sample.genesis)) Sample.genesis
        (Sample.indexOf .init Sample.genesis) false).isOk := by decide +kernel
    cases h : connectBlockCheck Sample.interpreted Sample.world Sample.emptyView
        (some (Sample.indexOf .init Sample.genesis)) Sample.genesis
        (Sample.indexOf .init Sample.genesis) false with
    | error e =>
      rw [h] at hok
      cases hok
    | ok t => exact ⟨t, rfl, (hblock _ _ _ _ _ _ t ⟨rfl, rfl, rfl, rfl⟩ h).2⟩

end Bws
