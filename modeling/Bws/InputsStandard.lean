import Bws.Sign

/-!
# Standard inputs

`AreInputsStandard` looks at one input after another: what its script leaves on the stack must be what
the script of the output takes.  A redeem script of no known template ends the whole function when it
has few enough checks of signatures, so that the inputs after it are not looked at.  The answer is
therefore that of the inputs taken one by one, unless an input that breaks the rule comes after such a
redeem script (`areInputsStandard_iff`).
-/

namespace Bws

def SCRIPT_VERIFY_NONE : ℕ := 0
def MAX_P2SH_SIGOPS : ℕ := 15

/-- `ScriptSigArgsExpected` -/
def scriptSigArgsExpected (t : txnouttype) (vSolutions : List valtype) : ℤ :=
  match t with
  | .TX_NONSTANDARD | .TX_NULL_DATA => -1
  | .TX_PUBKEY => 1
  | .TX_PUBKEYHASH => 2
  | .TX_MULTISIG =>
    if vSolutions.length < 1 ∨ (vSolutions.headD []).length < 1 then -1
    else firstByte (vSolutions.headD []) + 1
  | .TX_SCRIPTHASH => 1 -- doesn't include args needed by the script

/-- How a round of the loop of `AreInputsStandard` ends: the function returns, or goes on. -/
inductive InputRound where
  | ret (f : Bool)
  | next
deriving DecidableEq

section

variable (S : SolverParams) (tx : CTransaction) (mapInputs : MapPrevTx)

/-- What is expected on the stack, or what the function returns, once the script of an input has left
`stack`. -/
def argsExpected (whichType : txnouttype) (vSolutions stack : List valtype) : Bool ⊕ ℤ :=
  let nArgsExpected := scriptSigArgsExpected whichType vSolutions
  if whichType = .TX_SCRIPTHASH then
    match stack with
    | [] => .inl false
    | subscript :: _ =>
      match solver S.nMaxDatacarrierBytes subscript with
      | some (whichType2, vSolutions2) =>
        let tmpExpected := scriptSigArgsExpected whichType2 vSolutions2
        if tmpExpected < 0 then .inl false else .inr (nArgsExpected + tmpExpected)
      -- any other script with few signature checks is fine, whatever is left on the stack
      | none => .inl (getSigOpCount true subscript ≤ MAX_P2SH_SIGOPS)
  else .inr nArgsExpected

/-- A round of the loop, for an input and its index. -/
def inputRound (i : CTxIn × ℕ) : Except Fault InputRound :=
  match getOutputFor mapInputs i.1 with
  | .error e => .error e
  | .ok prev =>
    match solver S.nMaxDatacarrierBytes prev.scriptPubKey with
    | none => .ok (.ret false)
    | some (whichType, vSolutions) =>
      if scriptSigArgsExpected whichType vSolutions < 0 then .ok (.ret false)
      else
        match (evalScript S.crypto ⟨tx, i.2, SCRIPT_VERIFY_NONE, 0⟩ i.1.scriptSig []).result with
        | none => .ok (.ret false)
        | some stack =>
          match argsExpected S whichType vSolutions stack with
          | .inl f => .ok (.ret f)
          | .inr nArgsExpected =>
            if (stack.length : ℤ) ≠ nArgsExpected then .ok (.ret false) else .ok .next

/-- The loop of `AreInputsStandard`. -/
def areInputsStandardFrom : List (CTxIn × ℕ) → Except Fault Bool
  | [] => .ok true
  | i :: vin =>
    match inputRound S tx mapInputs i with
    | .error e => .error e
    | .ok (.ret f) => .ok f
    | .ok .next => areInputsStandardFrom vin

/-- `AreInputsStandard` -/
def areInputsStandard : Except Fault Bool :=
  if tx.isCoinBase then .ok true -- coinbases don't use vin normally
  else areInputsStandardFrom S tx mapInputs tx.vin.zipIdx

/-! ## The rule for one input -/

/-- The redeem script on the top of the stack: a known template with as many arguments as it takes
below it, or few enough signature checks. -/
def RedeemStandard (stack : List valtype) : Prop :=
  ∃ subscript below, stack = subscript :: below ∧
    match solver S.nMaxDatacarrierBytes subscript with
    | some (whichType, vSolutions) => (below.length : ℤ) = scriptSigArgsExpected whichType vSolutions
    | none => getSigOpCount true subscript ≤ MAX_P2SH_SIGOPS

/-- An input, taken alone, is standard: the output that it spends is of a known template, and its script
leaves exactly the arguments of that template. -/
def InputStandard (i : CTxIn × ℕ) : Prop :=
  ∃ prev whichType vSolutions stack, getOutputFor mapInputs i.1 = .ok prev ∧
    solver S.nMaxDatacarrierBytes prev.scriptPubKey = some (whichType, vSolutions) ∧
    (evalScript S.crypto ⟨tx, i.2, SCRIPT_VERIFY_NONE, 0⟩ i.1.scriptSig []).result = some stack ∧
    if whichType = .TX_SCRIPTHASH then RedeemStandard S stack
    else (stack.length : ℤ) = scriptSigArgsExpected whichType vSolutions

/-- An input whose redeem script is of no known template. -/
def RedeemUnknown (i : CTxIn × ℕ) : Prop :=
  ∃ prev subscript below, getOutputFor mapInputs i.1 = .ok prev ∧
    isPayToScriptHash prev.scriptPubKey ∧
    (evalScript S.crypto ⟨tx, i.2, SCRIPT_VERIFY_NONE, 0⟩ i.1.scriptSig []).result =
      some (subscript :: below) ∧ solver S.nMaxDatacarrierBytes subscript = none

/-- An input with a redeem script of no known template passes, and one after it breaks the rule. -/
def CutShort (vin : List (CTxIn × ℕ)) : Prop :=
  ∃ before i after, vin = before ++ i :: after ∧ (∀ j ∈ before, InputStandard S tx mapInputs j) ∧
    InputStandard S tx mapInputs i ∧ RedeemUnknown S tx mapInputs i ∧
    ∃ j ∈ after, ¬ InputStandard S tx mapInputs j

end

section

variable {S : SolverParams} {tx : CTransaction} {mapInputs : MapPrevTx} {i : CTxIn × ℕ}

theorem argsExpected_of_ne {whichType : txnouttype} {vSolutions stack : List valtype}
    (h : whichType ≠ .TX_SCRIPTHASH) : argsExpected S whichType vSolutions stack =
      .inr (scriptSigArgsExpected whichType vSolutions) := if_neg h

theorem isPayToScriptHash_of_solver {n : ℕ} {script : CScript} {vSolutions : List valtype}
    (h : solver n script = some (.TX_SCRIPTHASH, vSolutions)) : isPayToScriptHash script := by
  by_contra hp2sh
  obtain ⟨template, hmem, -⟩ := mem_mTemplates_of_solver hp2sh h
  simp [mTemplates] at hmem

/-- The redeem script decides for a pay-to-script-hash output. -/
theorem argsExpected_p2sh {vSolutions stack : List valtype} :
    (argsExpected S .TX_SCRIPTHASH vSolutions stack = .inl true ∨
        argsExpected S .TX_SCRIPTHASH vSolutions stack = .inr (stack.length : ℤ)) ↔
      RedeemStandard S stack := by
  unfold argsExpected
  dsimp only
  rw [if_pos rfl]
  cases stack with
  | nil =>
    refine ⟨fun h ↦ ?_, ?_⟩
    · rcases h with h | h
      · cases h
      · cases h
    · rintro ⟨subscript, below, h, -⟩
      cases h
  | cons subscript below =>
    dsimp only
    cases hsolver : solver S.nMaxDatacarrierBytes subscript with
    | none =>
      dsimp only
      refine ⟨fun h ↦ ⟨subscript, below, rfl, ?_⟩, ?_⟩
      · rw [hsolver]
        rcases h with h | h
        · exact of_decide_eq_true (Sum.inl.inj h)
        · cases h
      · rintro ⟨subscript', below', heq, h⟩
        cases heq
        rw [hsolver] at h
        exact .inl (congrArg Sum.inl (decide_eq_true h))
    | some r =>
      obtain ⟨whichType, vSolutions'⟩ := r
      dsimp only
      have hone : scriptSigArgsExpected .TX_SCRIPTHASH vSolutions = 1 := rfl
      rw [hone, List.length_cons]
      refine ⟨fun h ↦ ⟨subscript, below, rfl, ?_⟩, ?_⟩
      · rw [hsolver]
        dsimp only
        split_ifs at h with hneg
        · rcases h with h | h
          · cases h
          · cases h
        · rcases h with h | h
          · cases h
          · have hcount := Sum.inr.inj h
            push_cast at hcount
            omega
      · rintro ⟨subscript', below', heq, h⟩
        cases heq
        rw [hsolver] at h
        dsimp only at h
        rw [if_neg (by omega)]
        refine .inr (congrArg Sum.inr ?_)
        push_cast
        omega

theorem inputRound_eq {prev : CTxOut} {whichType : txnouttype} {vSolutions stack : List valtype}
    (hprev : getOutputFor mapInputs i.1 = .ok prev)
    (hsolver : solver S.nMaxDatacarrierBytes prev.scriptPubKey = some (whichType, vSolutions))
    (hargs : 0 ≤ scriptSigArgsExpected whichType vSolutions)
    (heval : (evalScript S.crypto ⟨tx, i.2, SCRIPT_VERIFY_NONE, 0⟩ i.1.scriptSig []).result =
      some stack) :
    inputRound S tx mapInputs i =
      match argsExpected S whichType vSolutions stack with
      | .inl f => .ok (.ret f)
      | .inr nArgsExpected =>
        if (stack.length : ℤ) ≠ nArgsExpected then .ok (.ret false) else .ok .next := by
  rw [inputRound, hprev]
  dsimp only
  rw [hsolver]
  dsimp only
  rw [if_neg (not_lt.mpr hargs), heval]

/-- What has been found when a round lets the input pass. -/
theorem exists_of_passes
    (h : inputRound S tx mapInputs i = .ok .next ∨ inputRound S tx mapInputs i = .ok (.ret true)) :
    ∃ prev whichType vSolutions stack, getOutputFor mapInputs i.1 = .ok prev ∧
      solver S.nMaxDatacarrierBytes prev.scriptPubKey = some (whichType, vSolutions) ∧
      0 ≤ scriptSigArgsExpected whichType vSolutions ∧
      (evalScript S.crypto ⟨tx, i.2, SCRIPT_VERIFY_NONE, 0⟩ i.1.scriptSig []).result =
        some stack := by
  unfold inputRound at h
  split at h
  · rcases h with h | h
    · cases h
    · cases h
  · rename_i prev hprev
    split at h
    · rcases h with h | h
      · cases h
      · cases h
    · rename_i whichType vSolutions hsolver
      split_ifs at h with hargs
      · rcases h with h | h
        · cases h
        · cases h
      · split at h
        · rcases h with h | h
          · cases h
          · cases h
        · rename_i stack heval
          exact ⟨prev, whichType, vSolutions, stack, hprev, hsolver, not_lt.mp hargs, heval⟩

theorem scriptSigArgsExpected_p2sh (vSolutions : List valtype) :
    0 ≤ scriptSigArgsExpected .TX_SCRIPTHASH vSolutions := Int.one_nonneg

/-- A round lets the input pass if and only if the input is standard. -/
theorem passes_iff : (inputRound S tx mapInputs i = .ok .next ∨
    inputRound S tx mapInputs i = .ok (.ret true)) ↔ InputStandard S tx mapInputs i := by
  have hends : ∀ {prev whichType vSolutions stack}, getOutputFor mapInputs i.1 = .ok prev →
      solver S.nMaxDatacarrierBytes prev.scriptPubKey = some (whichType, vSolutions) →
      0 ≤ scriptSigArgsExpected whichType vSolutions →
      (evalScript S.crypto ⟨tx, i.2, SCRIPT_VERIFY_NONE, 0⟩ i.1.scriptSig []).result = some stack →
      ((inputRound S tx mapInputs i = .ok .next ∨ inputRound S tx mapInputs i = .ok (.ret true)) ↔
        argsExpected S whichType vSolutions stack = .inl true ∨
          argsExpected S whichType vSolutions stack = .inr (stack.length : ℤ)) := by
    intro prev whichType vSolutions stack hprev hsolver hargs heval
    rw [inputRound_eq hprev hsolver hargs heval]
    cases argsExpected S whichType vSolutions stack with
    | inl f => cases f <;> simp
    | inr n =>
      dsimp only
      split_ifs with hne
      · simp [Ne.symm hne]
      · simp [not_not.mp hne]
  constructor
  · intro h
    obtain ⟨prev, whichType, vSolutions, stack, hprev, hsolver, hargs, heval⟩ := exists_of_passes h
    refine ⟨prev, whichType, vSolutions, stack, hprev, hsolver, heval, ?_⟩
    have hexpected := (hends hprev hsolver hargs heval).mp h
    by_cases htype : whichType = .TX_SCRIPTHASH
    · subst htype
      rw [if_pos rfl]
      exact argsExpected_p2sh.mp hexpected
    · rw [if_neg htype]
      rw [argsExpected_of_ne htype] at hexpected
      rcases hexpected with hexpected | hexpected
      · cases hexpected
      · exact (Sum.inr.inj hexpected).symm
  · rintro ⟨prev, whichType, vSolutions, stack, hprev, hsolver, heval, hrule⟩
    by_cases htype : whichType = .TX_SCRIPTHASH
    · subst htype
      rw [if_pos rfl] at hrule
      exact (hends hprev hsolver (scriptSigArgsExpected_p2sh _) heval).mpr (argsExpected_p2sh.mpr hrule)
    · rw [if_neg htype] at hrule
      refine (hends hprev hsolver (by omega) heval).mpr (.inr ?_)
      rw [argsExpected_of_ne htype, hrule]

/-- A round ends the function with true for a redeem script of no known template. -/
theorem inputRound_eq_ret_true : inputRound S tx mapInputs i = .ok (.ret true) ↔
    RedeemUnknown S tx mapInputs i ∧ InputStandard S tx mapInputs i := by
  constructor
  · intro h
    refine ⟨?_, passes_iff.mp (.inr h)⟩
    obtain ⟨prev, whichType, vSolutions, stack, hprev, hsolver, hargs, heval⟩ :=
      exists_of_passes (.inr h)
    rw [inputRound_eq hprev hsolver hargs heval] at h
    by_cases htype : whichType = .TX_SCRIPTHASH
    · subst htype
      have hp2sh := isPayToScriptHash_of_solver hsolver
      unfold argsExpected at h
      dsimp only at h
      rw [if_pos rfl] at h
      cases stack with
      | nil => cases h
      | cons subscript below =>
        refine ⟨prev, subscript, below, hprev, hp2sh, heval, ?_⟩
        dsimp only at h
        cases hsub : solver S.nMaxDatacarrierBytes subscript with
        | none => rfl
        | some r =>
          rw [hsub] at h
          dsimp only at h
          split_ifs at h
          · cases h
          · dsimp only at h
            split_ifs at h <;> cases h
    · rw [argsExpected_of_ne htype] at h
      dsimp only at h
      split_ifs at h <;> cases h
  · rintro ⟨⟨prev, subscript, below, hprev, hp2sh, heval, hsub⟩, hstandard⟩
    rcases passes_iff.mpr hstandard with h | h
    · rw [inputRound_eq hprev (solver_of_isPayToScriptHash hp2sh)
        (scriptSigArgsExpected_p2sh _) heval] at h
      unfold argsExpected at h
      dsimp only at h
      rw [if_pos rfl, hsub] at h
      cases h
    · exact h

theorem cutShort_cons {vin : List (CTxIn × ℕ)} : CutShort S tx mapInputs (i :: vin) ↔
    InputStandard S tx mapInputs i ∧
      (RedeemUnknown S tx mapInputs i ∧ (∃ j ∈ vin, ¬ InputStandard S tx mapInputs j) ∨
        CutShort S tx mapInputs vin) := by
  constructor
  · rintro ⟨before, k, after, heq, hbefore, hk, hunknown, hafter⟩
    cases before with
    | nil =>
      obtain ⟨rfl, rfl⟩ := List.cons.inj heq
      exact ⟨hk, .inl ⟨hunknown, hafter⟩⟩
    | cons j before =>
      obtain ⟨rfl, rfl⟩ := List.cons.inj heq
      rw [List.forall_mem_cons] at hbefore
      exact ⟨hbefore.1, .inr ⟨before, k, after, rfl, hbefore.2, hk, hunknown, hafter⟩⟩
  · rintro ⟨hi, ⟨hunknown, hafter⟩ | ⟨before, k, after, rfl, hbefore, hrest⟩⟩
    · exact ⟨[], i, vin, rfl, fun _ h ↦ absurd h List.not_mem_nil, hi, hunknown, hafter⟩
    · exact ⟨i :: before, k, after, rfl, List.forall_mem_cons.mpr ⟨hi, hbefore⟩, hrest⟩

/-- The loop answers for the inputs one by one, unless it ends before an input that breaks the rule. -/
theorem areInputsStandardFrom_iff {vin : List (CTxIn × ℕ)} :
    (areInputsStandardFrom S tx mapInputs vin = .ok true ↔
        ∀ i ∈ vin, InputStandard S tx mapInputs i) ↔ ¬ CutShort S tx mapInputs vin := by
  induction vin with
  | nil =>
    have hnone : ¬ CutShort S tx mapInputs [] := by
      rintro ⟨before, i, after, heq, -⟩
      exact List.cons_ne_nil _ _ (List.append_eq_nil_iff.mp heq.symm).2
    exact ⟨fun _ ↦ hnone, fun _ ↦ ⟨fun _ _ h ↦ absurd h List.not_mem_nil, fun _ ↦ rfl⟩⟩
  | cons i vin ih =>
    rw [cutShort_cons, List.forall_mem_cons]
    by_cases hi : InputStandard S tx mapInputs i
    · rcases passes_iff.mpr hi with hround | hround
      · have hknown : ¬ RedeemUnknown S tx mapInputs i := fun h ↦ by
          cases hround.symm.trans (inputRound_eq_ret_true.mpr ⟨h, hi⟩)
        have hloop : areInputsStandardFrom S tx mapInputs (i :: vin) =
            areInputsStandardFrom S tx mapInputs vin := by
          rw [areInputsStandardFrom, hround]
        rw [hloop, and_iff_right hi, ih, and_iff_right hi, or_iff_right fun h ↦ hknown h.1]
      · have hunknown := (inputRound_eq_ret_true.mp hround).1
        have hloop : areInputsStandardFrom S tx mapInputs (i :: vin) = .ok true := by
          rw [areInputsStandardFrom, hround]
        rw [hloop, and_iff_right hi, iff_true_left rfl, and_iff_right hi, and_iff_right hunknown]
        constructor
        · rintro hall (⟨j, hj, hbad⟩ | ⟨before, k, after, rfl, -, -, -, j, hj, hbad⟩)
          · exact hbad (hall j hj)
          · exact hbad (hall j (List.mem_append_right _ (List.mem_cons_of_mem _ hj)))
        · intro h j hj
          by_contra hbad
          exact h (.inl ⟨j, hj, hbad⟩)
    · have hloop : areInputsStandardFrom S tx mapInputs (i :: vin) ≠ .ok true := by
        intro h
        rw [areInputsStandardFrom] at h
        split at h
        · cases h
        · rename_i f hround
          cases h
          exact hi (passes_iff.mp (.inr hround))
        · rename_i hround
          exact hi (passes_iff.mp (.inl hround))
      exact ⟨fun _ h ↦ hi h.1, fun _ ↦ ⟨fun h ↦ absurd h hloop, fun h ↦ absurd h.1 hi⟩⟩

/-- `AreInputsStandard` is the rule for every input, unless an input with a redeem script of no known
template comes before one that breaks the rule. -/
theorem areInputsStandard_iff (S : SolverParams) (tx : CTransaction) (mapInputs : MapPrevTx) :
    (areInputsStandard S tx mapInputs = .ok true ↔
        tx.isCoinBase ∨ ∀ i ∈ tx.vin.zipIdx, InputStandard S tx mapInputs i) ↔
      (tx.isCoinBase ∨ ¬ CutShort S tx mapInputs tx.vin.zipIdx) := by
  by_cases hbase : tx.isCoinBase
  · have hloop : areInputsStandard S tx mapInputs = .ok true := if_pos hbase
    exact ⟨fun _ ↦ .inl hbase, fun _ ↦ ⟨fun _ ↦ .inl hbase, fun _ ↦ hloop⟩⟩
  · have hloop : areInputsStandard S tx mapInputs =
        areInputsStandardFrom S tx mapInputs tx.vin.zipIdx := if_neg hbase
    rw [hloop, or_iff_right hbase, or_iff_right hbase, areInputsStandardFrom_iff]

end

/-! ## Two inputs -/

namespace Sample

/-- It has an output whose redeem script is not known, and one of no template. -/
def twoOutputs : CTransaction := ⟨1, 0, [], [⟨1, payToScriptHash 0⟩, ⟨1, []⟩], 0⟩

def twoInputs : MapPrevTx := fun hash ↦
  if hash = 1 then some (CTxIndex.mk' .null 2, twoOutputs) else none

/-- The redeem script that is pushed is `OP_NOP`. -/
def redeemInput : CTxIn := ⟨⟨1, 0⟩, pushData [OP_NOP], 0⟩

def otherInput : CTxIn := ⟨⟨1, 1⟩, [], 0⟩

def spendsBoth (vin : List CTxIn) : CTransaction := ⟨1, 0, vin, [], 0⟩

/-- The second input breaks the rule, but it is only looked at when it comes first. -/
theorem areInputsStandard_cutShort :
    areInputsStandard oneKeyParams (spendsBoth [redeemInput, otherInput]) twoInputs = .ok true ∧
      ¬ InputStandard oneKeyParams (spendsBoth [redeemInput, otherInput]) twoInputs (otherInput, 1) ∧
      areInputsStandard oneKeyParams (spendsBoth [otherInput, redeemInput]) twoInputs = .ok false := by
  refine ⟨by decide +kernel, fun h ↦ ?_, by decide +kernel⟩
  have hround : inputRound oneKeyParams (spendsBoth [redeemInput, otherInput]) twoInputs
      (otherInput, 1) = .ok (.ret false) := by
    decide +kernel
  rcases passes_iff.mpr h with h | h
  · cases hround.symm.trans h
  · cases hround.symm.trans h

end Sample

end Bws
