import Bws.EvalLimits
import Bws.Lib.Matching
import Bws.Sign
import Bws.Wallet

/-!
# Combining signatures

`CombineSignatures` merges what two scripts offer for one input.  For a multisig script it pools
the byte strings of both, in their order, and gives each to the first key that has none and for
which `CheckSig` accepts it; the encodings, which the interpreter tests before it calls `CheckSig`,
are not looked at.  Where every byte string that is accepted is well encoded, and accepted for one
key only, nothing is lost (`combineSignatures_multisig`).
-/

namespace Bws

open Checked Matching

/-! ## The code -/

/-- The scan of `Solver`, and what it leaves where it returns `false` too. -/
def scanTemplatesRet (nMaxDatacarrierBytes : ℕ) (script : CScript) :
    List (txnouttype × List UInt8) → txnouttype × List valtype
  | [] => (.TX_NONSTANDARD, [])
  | (typeRet, template) :: templates =>
    match matchTemplate nMaxDatacarrierBytes template script with
    | none => scanTemplatesRet nMaxDatacarrierBytes script templates
    | some vSolutions => (typeRet, vSolutions)

/-- `typeRet` and `vSolutionsRet` after `Solver` -/
def solverRet (nMaxDatacarrierBytes : ℕ) (scriptPubKey : CScript) : txnouttype × List valtype :=
  if isPayToScriptHash scriptPubKey then (.TX_SCRIPTHASH, [(scriptPubKey.drop 2).take 20])
  else scanTemplatesRet nMaxDatacarrierBytes scriptPubKey mTemplates

/-- The keys among the solutions of a multisig script. -/
def multisigKeys (vSolutions : List valtype) : List valtype := vSolutions.tail.dropLast

/-- `allsigs`, a set that is read in the order of the bytes -/
def allSigs (sigs1 sigs2 : List valtype) : List valtype :=
  (Std.TreeSet.ofList ((sigs1 ++ sigs2).filter fun v ↦ v ≠ []) compare).toList

section

variable (S : SolverParams) (txTo : CTransaction) (nIn : ℕ)

/-- `CheckSig(sig, pubkey, scriptPubKey, txTo, nIn, 0, 0)` -/
def accepts (scriptPubKey : CScript) (sig pubkey : valtype) : Bool :=
  checkSig S.crypto ⟨txTo, nIn, 0, 0⟩ scriptPubKey sig pubkey

/-- `CombineMultisig` -/
def combineMultisig (scriptPubKey : CScript) (vSolutions sigs1 sigs2 : List valtype) : CScript :=
  let nSigsRequired := firstByte (vSolutions.headD [])
  let pubKeys := multisigKeys vSolutions
  -- build a map of pubkey -> signature by matching sigs to pubkeys
  let sigs := assignAll (accepts S txTo nIn scriptPubKey) pubKeys (allSigs sigs1 sigs2)
  let result := (pubKeys.filterMap sigs).take nSigsRequired
  -- the first byte is the pop-one-too-many workaround, the last ones fill any missing
  OP_0 :: pushAll result ++ List.replicate (nSigsRequired - result.length) OP_0

/-- The inner `CombineSignatures`, with the last elements of `sigs1` and `sigs2` first. -/
def combineSolved : (sigs1 sigs2 : List valtype) → CScript → txnouttype → List valtype → CScript
  | sigs1, sigs2, scriptPubKey, txType, vSolutions =>
    match txType with
    | .TX_NONSTANDARD | .TX_NULL_DATA =>
      -- don't know anything about this, assume bigger one is correct
      if sigs2.length ≤ sigs1.length then pushAll sigs1.reverse else pushAll sigs2.reverse
    | .TX_PUBKEY | .TX_PUBKEYHASH =>
      -- signatures are bigger than placeholders or empty scripts
      if sigs1 = [] ∨ sigs1.reverse.headD [] = [] then pushAll sigs2.reverse
      else pushAll sigs1.reverse
    | .TX_SCRIPTHASH =>
      match sigs1 with
      | [] => pushAll sigs2.reverse
      | spk :: sigs1 =>
        if spk = [] then pushAll sigs2.reverse
        else if sigs2.headD [] = [] then pushAll (spk :: sigs1).reverse
        else
          let (txType2, vSolutions2) := solverRet S.nMaxDatacarrierBytes spk
          combineSolved sigs1 sigs2.tail spk txType2 vSolutions2 ++ pushData spk
    | .TX_MULTISIG => combineMultisig S txTo nIn scriptPubKey vSolutions sigs1 sigs2

/-- What `EvalScript(stack, scriptSig, CTransaction(), 0, SCRIPT_VERIFY_NONE, 0)` leaves in the
stack, whether it fails or not.  The empty transaction is of the given time. -/
def stackOf (nTime : ℕ) (scriptSig : CScript) : List valtype :=
  (runScript S.crypto ⟨.empty nTime, 0, 0, 0⟩ scriptSig []).2.2

/-- `CombineSignatures` -/
def combineSignatures (nTime : ℕ) (scriptPubKey scriptSig1 scriptSig2 : CScript) : CScript :=
  let (txType, vSolutions) := solverRet S.nMaxDatacarrierBytes scriptPubKey
  combineSolved S txTo nIn (stackOf S nTime scriptSig1) (stackOf S nTime scriptSig2) scriptPubKey
    txType vSolutions

end

/-! ## The pool -/

theorem mem_allSigs {sigs1 sigs2 : List valtype} {sig : valtype} :
    sig ∈ allSigs sigs1 sigs2 ↔ sig ∈ sigs1 ++ sigs2 ∧ sig ≠ [] := by
  rw [allSigs, Std.TreeSet.mem_toList, Std.TreeSet.mem_ofList, List.contains_iff_mem,
    List.mem_filter, decide_eq_true_eq]

/-- The pool is a set. -/
theorem allSigs_comm (sigs1 sigs2 : List valtype) : allSigs sigs1 sigs2 = allSigs sigs2 sigs1 := by
  refine Std.TreeSet.Equiv.toList_eq (Std.TreeSet.Equiv.of_forall_mem_iff fun sig ↦ ?_)
  rw [← Std.TreeSet.mem_toList, ← Std.TreeSet.mem_toList]
  have hleft : sig ∈ allSigs sigs1 sigs2 ↔ _ := mem_allSigs
  have hright : sig ∈ allSigs sigs2 sigs1 ↔ _ := mem_allSigs
  rw [allSigs] at hleft hright
  rw [hleft, hright, List.mem_append, List.mem_append, or_comm]

section

variable {S : SolverParams} {txTo : CTransaction} {nIn : ℕ}

theorem combineMultisig_comm (scriptPubKey : CScript) (vSolutions sigs1 sigs2 : List valtype) :
    combineMultisig S txTo nIn scriptPubKey vSolutions sigs1 sigs2 =
      combineMultisig S txTo nIn scriptPubKey vSolutions sigs2 sigs1 := by
  rw [combineMultisig, combineMultisig, allSigs_comm]

theorem solverRet_of_solver {n : ℕ} {script : CScript} {r : txnouttype × List valtype}
    (h : solver n script = some r) : solverRet n script = r := by
  have hscan : ∀ templates, scanTemplates n script templates = some r →
      scanTemplatesRet n script templates = r := by
    intro templates
    induction templates with
    | nil =>
      intro h
      cases h
    | cons first templates ih =>
      obtain ⟨typeRet, template⟩ := first
      intro h
      rw [scanTemplates] at h
      rw [scanTemplatesRet]
      rcases hmatch : matchTemplate n template script with - | vSolutions
      · rw [hmatch] at h
        exact ih h
      · rw [hmatch] at h
        dsimp only at h
        split_ifs at h
        exact Option.some.inj h
  rw [solver] at h
  rw [solverRet]
  split_ifs at h ⊢ with hp2sh
  · exact Option.some.inj h
  · exact hscan _ h

theorem not_isPayToScriptHash_of_multisig {n : ℕ} {script : CScript} {vSolutions : List valtype}
    (hsolve : solver n script = some (.TX_MULTISIG, vSolutions)) : ¬ isPayToScriptHash script :=
  fun hp2sh ↦ by cases (solver_of_isPayToScriptHash hp2sh).symm.trans hsolve

theorem exists_multisigOf {n : ℕ} {script : CScript} {vSolutions : List valtype}
    (hsolve : solver n script = some (.TX_MULTISIG, vSolutions)) :
    ∃ keys opm opn, MultisigOf script vSolutions keys opm opn := by
  obtain ⟨template, hmem, hmatch, hmulti⟩ :=
    mem_mTemplates_of_solver (not_isPayToScriptHash_of_multisig hsolve) hsolve
  have htemplate : template =
      [OP_SMALLINTEGER, OP_PUBKEYS, OP_SMALLINTEGER, OP_CHECKMULTISIG] := by
    simp [mTemplates] at hmem
    exact hmem
  subst htemplate
  exact multisigOf_of_matchTemplate hmatch (hmulti rfl)

/-! ## The signatures that are kept -/

/-- No byte string of the pool misleads `CombineMultisig`: the ones that `CheckSig` accepts for a
key would pass in the interpreter, and are accepted for no other key. -/
structure ClearPool (S : SolverParams) (txTo : CTransaction) (nIn : ℕ) (script : CScript)
    (keys pool : List valtype) : Prop where
  encodedKey : ∀ key ∈ keys, checkPubKeyEncoding key
  encodedSig : ∀ sig ∈ pool, ∀ key ∈ keys, accepts S txTo nIn script sig key = true →
    checkSignatureEncoding sig STANDARD_SCRIPT_VERIFY_FLAGS
  single : ∀ sig ∈ pool, ∀ key ∈ keys, ∀ key' ∈ keys, accepts S txTo nIn script sig key = true →
    accepts S txTo nIn script sig key' = true → key = key'

variable {script : CScript} {vSolutions keys signers sigs1 sigs2 : List valtype} {opm opn : UInt8}

/-- What is verified under the standard flags. -/
def standardContext (txTo : CTransaction) (nIn : ℕ) : ScriptContext :=
  ⟨txTo, nIn, STANDARD_SCRIPT_VERIFY_FLAGS, 0⟩

theorem ClearPool.signedBy (h : ClearPool S txTo nIn script keys (sigs1 ++ sigs2))
    {key sig : valtype} (hkey : key ∈ keys) (hsig : sig ∈ sigs1 ++ sigs2)
    (haccepts : accepts S txTo nIn script sig key = true) :
    SignedBy S.crypto (standardContext txTo nIn) script key sig :=
  ⟨h.encodedSig sig hsig key hkey haccepts, h.encodedKey key hkey, haccepts⟩

theorem MultisigOf.multisigKeys_eq (h : MultisigOf script vSolutions keys opm opn) :
    multisigKeys vSolutions = keys := by
  rw [multisigKeys, h.solutions, List.tail_cons, List.dropLast_concat]

theorem MultisigOf.firstByte_eq (h : MultisigOf script vSolutions keys opm opn) :
    firstByte (vSolutions.headD []) = decodeOP_N opm := by
  rw [h.solutions, List.headD_cons, firstByte_decodeOP_N]

/-- As many signatures as are required are kept, where the pool has them. -/
theorem combineMultisig_eq (h : MultisigOf script vSolutions keys opm opn)
    (hclear : ClearPool S txTo nIn script keys (sigs1 ++ sigs2)) (hsub : signers.Sublist keys)
    (hcover : ∀ key ∈ signers, ∃ sig ∈ sigs1 ++ sigs2, accepts S txTo nIn script sig key = true)
    (hcount : decodeOP_N opm ≤ signers.length) : ∃ signers sigs : List valtype,
      combineMultisig S txTo nIn script vSolutions sigs1 sigs2 = pushAll ([] :: sigs) ∧
        sigs.length = decodeOP_N opm ∧ sigs ⊆ sigs1 ++ sigs2 ∧ signers.Sublist keys ∧
          List.Forall₂ (SignedBy S.crypto (standardContext txTo nIn) script) signers sigs := by
  have hsingle : Single (accepts S txTo nIn script) keys (allSigs sigs1 sigs2) := fun sig hsig ↦
    hclear.single sig (mem_allSigs.1 hsig).1
  have hsome : ∀ key ∈ signers, (assignAll (accepts S txTo nIn script) keys
      (allSigs sigs1 sigs2) key).isSome := by
    intro key hkey
    obtain ⟨sig, hsig, haccepts⟩ := hcover key hkey
    refine (isSome_assignAll hsingle (hsub.subset hkey)).2 ⟨sig, mem_allSigs.2 ⟨hsig, ?_⟩, haccepts⟩
    rintro rfl
    exact absurd haccepts Bool.false_ne_true
  have hmany := hcount.trans (length_le_filterMap _ hsub hsome)
  obtain ⟨ts, hts, hall⟩ := exists_targets (assignAll (accepts S txTo nIn script) keys
    (allSigs sigs1 sigs2)) keys (decodeOP_N opm)
  have hlen : ((keys.filterMap (assignAll (accepts S txTo nIn script) keys
      (allSigs sigs1 sigs2))).take (decodeOP_N opm)).length = decodeOP_N opm := by
    rw [List.length_take, min_eq_left hmany]
  have hsound : ∀ {key sig : valtype}, assignAll (accepts S txTo nIn script) keys
      (allSigs sigs1 sigs2) key = some sig → sig ∈ sigs1 ++ sigs2 := fun hkey ↦
    (mem_allSigs.1 (sound_assignAll _ _ hkey).1).1
  refine ⟨ts, _, ?_, hlen, fun sig hsig ↦ ?_, hts, hall.imp fun key sig hkey ↦ ?_⟩
  · rw [combineMultisig, h.multisigKeys_eq, h.firstByte_eq, hlen, Nat.sub_self, List.replicate_zero,
      List.append_nil, pushAll_cons]
    rfl
  · obtain ⟨key, -, hkey⟩ := List.mem_filterMap.1 (List.mem_of_mem_take hsig)
    exact hsound hkey
  · obtain ⟨-, hkeys, haccepts⟩ := sound_assignAll key sig hkey
    exact hclear.signedBy hkeys (hsound hkey) haccepts

/-! ## A run that succeeds -/

/-- What follows the pushes is run on what they have pushed. -/
theorem evalFrom_of_pushes {C : Crypto} {c : ScriptContext} {script rest : CScript}
    {vchs : List valtype} (h : Pushes script vchs rest) :
    ∀ {stack : List valtype} {n : ℕ} {code : CScript} {st : ScriptState},
      (∀ vch ∈ vchs, vch.length ≤ MAX_SCRIPT_ELEMENT_SIZE) →
      (evalFrom C c (parse script) ⟨stack, [], [], n, code⟩).result = some st →
      (evalFrom C c (parse rest) ⟨vchs.reverse ++ stack, [], [], n, code⟩).result = some st := by
  induction h with
  | nil => exact fun _ hrun ↦ hrun
  | cons hget hop _ ih =>
    intro stack n code st hlen hrun
    rw [List.forall_mem_cons] at hlen
    rw [List.reverse_cons, List.append_assoc, List.singleton_append]
    exact ih hlen.2 (evalFrom_of_withinLimits hget (result_step_data hop hlen.1 rfl) hrun)

/-- A multisig script that succeeds has found as many signatures as it requires. -/
theorem MultisigOf.signers_of_leavesTrue {C : Crypto} {c : ScriptContext} {stack : List valtype}
    (h : MultisigOf script vSolutions keys opm opn) (hkeys : ∀ key ∈ keys, checkPubKeyEncoding key)
    (hrun : Bws.leavesTrue (evalScript C c script stack)) : ∃ signers sigs : List valtype,
      signers.Sublist keys ∧ signers.length = decodeOP_N opm ∧ sigs ⊆ stack ∧
        List.Forall₂ (SignedBy C c script) signers sigs := by
  obtain ⟨p₁, p₂, p₃, hgetm, hpush, hgetn, hcheck⟩ := h.reads
  have hle := h.le
  have hmany := h.length_le
  obtain ⟨stack', hres, vch, hhead, htrue⟩ := hrun
  rw [evalScript, if_neg (not_lt.mpr (h.bytes_le hkeys)), result_map] at hres
  obtain ⟨st, hst, hend⟩ := Option.bind_eq_some_iff.mp hres
  split_ifs at hend
  cases hend
  -- the instructions up to the last one
  have hnumber : ∀ {opcode : UInt8}, OP_1 ≤ opcode → opcode ≠ 0x50 := fun hlo heq ↦
    absurd (heq ▸ hlo) (by decide)
  have h₁ := evalFrom_of_withinLimits hgetm (result_step_number
    (UInt8.le_trans (by decide) h.required.1) h.required.2 (hnumber h.required.1) rfl) hst
  have h₂ := evalFrom_of_pushes hpush
    (fun key hmem ↦ (length_le_of_encoded (hkeys key hmem)).trans (by decide)) h₁
  have h₃ := evalFrom_of_withinLimits hgetn (result_step_number
    (UInt8.le_trans (by decide) h.total.1) h.total.2 (hnumber h.total.1) rfl) h₂
  rw [parse_of_getOp hcheck, evalFrom, result_bind, step_op (by decide) (by decide) rfl
    (Nat.zero_lt_succ 200)] at h₃
  obtain ⟨st₁, hmulti, hdone⟩ := Option.bind_eq_some_iff.mp h₃
  obtain ⟨st₂, hmulti, hlimits⟩ := Option.bind_eq_some_iff.mp hmulti
  rw [withinLimits] at hlimits
  split_ifs at hlimits
  cases hlimits
  cases hdone
  have hmulti : (evalCheckMultiSig C c false
      ⟨numberOf opn :: (keys.reverse ++ numberOf opm :: stack), [], [], 1, script⟩).result =
        some st := hmulti
  have hdelete : ∀ signer vchSig scriptCode, SignedBy C c scriptCode signer vchSig →
      findAndDelete (pushData vchSig) script = script := fun _ _ _ hsigned ↦
    h.findAndDelete_eq hkeys hsigned.isLowDERSignature
  have hfew : keys.reverse.length ≤ 16 := by
    rw [List.length_reverse]
    exact hmany
  obtain ⟨signers, hsub, hcount, hsigned⟩ := signers_of_evalCheckMultiSig h.castToBigNum_total
    h.castToBigNum_required (by omega) (by omega) (by rw [List.length_reverse]; exact hle) hdelete
    hmulti ⟨vch, hhead, htrue⟩
  refine ⟨signers.reverse, _, ?_, ?_, List.reverse_subset.2 (List.take_subset _ _),
    List.forall₂_reverse_iff.2 hsigned⟩
  · rw [← List.reverse_reverse keys]
    exact hsub.reverse
  · rw [List.length_reverse, hcount]

/-! ## Scripts that only push -/

theorem evalOp_of_le {C : Crypto} {c : ScriptContext} {opcode : UInt8} {pc : CScript} {fExec : Bool}
    {st : ScriptState} (hop : opcode ≤ OP_16) :
    evalOp C c opcode pc fExec st = .plain (evalPlain C opcode st) := by
  have hne : ∀ {other : UInt8}, OP_16 < other → opcode ≠ other := fun hlt heq ↦
    UInt8.not_lt.mpr (heq ▸ hop) hlt
  have hlow : ∀ {other : UInt8}, OP_16 < other → ¬ other ≤ opcode := fun hlt hle ↦
    UInt8.not_lt.mpr (UInt8.le_trans hle hop) hlt
  rw [evalOp, if_neg, if_neg (hne (by decide)), if_neg, if_neg (hne (by decide)), if_neg, if_neg]
  · exact not_or.2 ⟨hne (by decide), hne (by decide)⟩
  · exact not_or.2 ⟨hne (by decide), hne (by decide)⟩
  · exact not_or.2 ⟨hne (by decide), fun h ↦ hlow (by decide) h.1⟩
  · exact not_or.2 ⟨hne (by decide), not_or.2 ⟨hne (by decide), not_or.2
      ⟨hne (by decide), hne (by decide)⟩⟩⟩

/-- A script that only pushes leaves the same wherever it is run. -/
theorem evalFrom_of_isPushOnly {C : Crypto} {c c' : ScriptContext} {parsed : Parsed}
    (hpush : parsed.isPushOnly = true) (st : ScriptState) :
    (evalFrom C c parsed st).result = (evalFrom C c' parsed st).result := by
  induction parsed generalizing st with
  | done => rfl
  | bad => rfl
  | op opcode vch pc next ih =>
    rw [Parsed.isPushOnly] at hpush
    split_ifs at hpush with hop
    have hstep : step C c opcode vch pc st = step C c' opcode vch pc st := by
      rw [step, step, execute, execute, evalOp_of_le (UInt8.not_lt.mp hop),
        evalOp_of_le (UInt8.not_lt.mp hop)]
    rw [evalFrom, evalFrom, result_bind, result_bind, hstep]
    exact congrArg _ (funext fun st' ↦ ih hpush st')

theorem evalScript_of_isPushOnly {C : Crypto} {c c' : ScriptContext} {script : CScript}
    (hpush : isPushOnly script = true) (stack : List valtype) :
    (evalScript C c script stack).result = (evalScript C c' script stack).result := by
  rw [evalScript, evalScript]
  split
  · rfl
  · rw [result_map, result_map, evalFrom_of_isPushOnly hpush]

/-- `CombineSignatures` reads what the verifier reads. -/
theorem stackOf_eq {nTime : ℕ} {c : ScriptContext} {scriptSig : CScript} {stack : List valtype}
    (hpush : isPushOnly scriptSig = true)
    (h : (evalScript S.crypto c scriptSig []).result = some stack) :
    stackOf S nTime scriptSig = stack := by
  rw [evalScript_of_isPushOnly hpush] at h
  have hrun := outcome_runScript S.crypto ⟨.empty nTime, 0, 0, 0⟩ scriptSig []
  rw [h, leaves_some, outcome_eq_ok] at hrun
  rw [stackOf, hrun]

/-! ## The result -/

theorem combineSignatures_bare (nTime : ℕ) (s1 s2 : CScript)
    (hsolve : solver S.nMaxDatacarrierBytes script = some (.TX_MULTISIG, vSolutions)) :
    combineSignatures S txTo nIn nTime script s1 s2 =
      combineMultisig S txTo nIn script vSolutions (stackOf S nTime s1) (stackOf S nTime s2) := by
  rw [combineSignatures, solverRet_of_solver hsolve]
  dsimp only
  rw [combineSolved.eq_def]

/-- The redeem script is taken from the first stack, and the last element of the second one is
dropped. -/
theorem combineSignatures_p2sh_eq {nTime : ℕ} {scriptPubKey s1 s2 : CScript}
    (hp2sh : isPayToScriptHash scriptPubKey) (hstack : stackOf S nTime s1 = script :: sigs1)
    (hne : script ≠ []) (hlast : (stackOf S nTime s2).headD [] ≠ []) :
    combineSignatures S txTo nIn nTime scriptPubKey s1 s2 =
      combineSolved S txTo nIn sigs1 (stackOf S nTime s2).tail script
        (solverRet S.nMaxDatacarrierBytes script).1
        (solverRet S.nMaxDatacarrierBytes script).2 ++ pushData script := by
  rw [combineSignatures, solverRet_of_solver (solver_of_isPayToScriptHash hp2sh), hstack]
  dsimp only
  rw [combineSolved.eq_def]
  dsimp only
  rw [if_neg hne, if_neg hlast]

theorem combineSignatures_redeem {nTime : ℕ} {scriptPubKey s1 s2 : CScript}
    (hsolve : solver S.nMaxDatacarrierBytes script = some (.TX_MULTISIG, vSolutions))
    (hp2sh : isPayToScriptHash scriptPubKey) (hstack : stackOf S nTime s1 = script :: sigs1)
    (hne : script ≠ []) (hlast : (stackOf S nTime s2).headD [] ≠ []) :
    combineSignatures S txTo nIn nTime scriptPubKey s1 s2 =
      combineMultisig S txTo nIn script vSolutions sigs1 (stackOf S nTime s2).tail ++
        pushData script := by
  rw [combineSignatures_p2sh_eq hp2sh hstack hne hlast, solverRet_of_solver hsolve]
  dsimp only
  rw [combineSolved.eq_def]

/-- Without a second redeem script the first stack is pushed again. -/
theorem combineSignatures_alone {nTime : ℕ} {scriptPubKey s1 s2 : CScript}
    (hp2sh : isPayToScriptHash scriptPubKey) (hstack : stackOf S nTime s1 = script :: sigs1)
    (hne : script ≠ []) (hlast : (stackOf S nTime s2).headD [] = []) :
    combineSignatures S txTo nIn nTime scriptPubKey s1 s2 =
      pushAll (script :: sigs1).reverse := by
  rw [combineSignatures, solverRet_of_solver (solver_of_isPayToScriptHash hp2sh), hstack]
  dsimp only
  rw [combineSolved.eq_def]
  dsimp only
  rw [if_neg hne, if_pos hlast]

/-- The script makes the input pass under the standard flags. -/
def passes (S : SolverParams) (txTo : CTransaction) (nIn : ℕ) (scriptSig scriptPubKey : CScript) :
    Prop :=
  verifyScript S.crypto (standardContext txTo nIn) scriptSig scriptPubKey = true

/-- The output pays to the hash of the script, which is short enough to be pushed. -/
structure PaysToHashOf (S : SolverParams) (scriptPubKey script : CScript) : Prop where
  p2sh : isPayToScriptHash scriptPubKey
  hash : S.crypto.hash160 script = (scriptPubKey.drop 2).take 20
  short : script.length ≤ MAX_SCRIPT_ELEMENT_SIZE

/-- The pool has valid and well encoded signatures for that many keys. -/
def Covers (S : SolverParams) (txTo : CTransaction) (nIn : ℕ) (script : CScript)
    (keys pool : List valtype) (m : ℕ) : Prop :=
  ∃ covered : List valtype, covered.Nodup ∧ m ≤ covered.length ∧ ∀ key ∈ covered,
    key ∈ keys ∧ ∃ sig ∈ pool, checkSignatureEncoding sig STANDARD_SCRIPT_VERIFY_FLAGS ∧
      accepts S txTo nIn script sig key = true

/-- The keys in the order of the script, for each of which the pool has a signature. -/
def CoversInOrder (S : SolverParams) (txTo : CTransaction) (nIn : ℕ) (script : CScript)
    (keys pool : List valtype) (m : ℕ) : Prop :=
  ∃ signers : List valtype, signers.Sublist keys ∧ m ≤ signers.length ∧ ∀ key ∈ signers,
    ∃ sig ∈ pool, accepts S txTo nIn script sig key = true

theorem Covers.inOrder {pool : List valtype} {m : ℕ}
    (h : Covers S txTo nIn script keys pool m) : CoversInOrder S txTo nIn script keys pool m := by
  obtain ⟨covered, hnodup, hmany, hcovered⟩ := h
  obtain ⟨signers, hperm, hsub⟩ :=
    List.subperm_of_subset hnodup fun key hkey ↦ (hcovered key hkey).1
  refine ⟨signers, hsub, hperm.length_eq ▸ hmany, fun key hkey ↦ ?_⟩
  obtain ⟨-, sig, hsig, -, haccepts⟩ := hcovered key (hperm.subset hkey)
  exact ⟨sig, hsig, haccepts⟩

theorem exists_sig {α β : Type} {R : α → β → Prop} {signers : List α} {sigs : List β}
    (h : List.Forall₂ R signers sigs) : ∀ a ∈ signers, ∃ b ∈ sigs, R a b := by
  induction h with
  | nil => exact fun _ ha ↦ absurd ha List.not_mem_nil
  | cons hab _ ih =>
    refine List.forall_mem_cons.mpr ⟨⟨_, List.mem_cons_self, hab⟩, fun a ha ↦ ?_⟩
    obtain ⟨b, hb, hR⟩ := ih a ha
    exact ⟨b, List.mem_cons_of_mem _ hb, hR⟩

/-- What makes the script true has signatures for as many keys as are required. -/
theorem coversInOrder_of_leavesTrue {pool stack : List valtype}
    (h : MultisigOf script vSolutions keys opm opn) (hkeys : ∀ key ∈ keys, checkPubKeyEncoding key)
    (hrun : leavesTrue (evalScript S.crypto (standardContext txTo nIn) script stack))
    (hpool : stack ⊆ pool) : CoversInOrder S txTo nIn script keys pool (decodeOP_N opm) := by
  obtain ⟨signers, sigs, hsub, hcount, hsigs, hsigned⟩ := h.signers_of_leavesTrue hkeys hrun
  refine ⟨signers, hsub, hcount.ge, fun key hkey ↦ ?_⟩
  obtain ⟨sig, hsig, hone⟩ := exists_sig hsigned key hkey
  exact ⟨sig, hpool (hsigs hsig), hone.valid⟩

theorem short_of_signed {c : ScriptContext} {signers sigs : List valtype}
    (h : List.Forall₂ (SignedBy S.crypto c script) signers sigs) :
    ∀ arg ∈ [] :: sigs, arg.length ≤ 73 := by
  rw [List.forall_mem_cons]
  refine ⟨Nat.zero_le _, fun vchSig hmem ↦ ?_⟩
  obtain ⟨signer, hsig⟩ := exists_signer h vchSig hmem
  exact (isLowDERSignature_bounds hsig.isLowDERSignature).1

theorem passes_combineMultisig (h : MultisigOf script vSolutions keys opm opn)
    (hp2sh : ¬ isPayToScriptHash script)
    (hclear : ClearPool S txTo nIn script keys (sigs1 ++ sigs2))
    (hcover : CoversInOrder S txTo nIn script keys (sigs1 ++ sigs2) (decodeOP_N opm)) :
    passes S txTo nIn (combineMultisig S txTo nIn script vSolutions sigs1 sigs2) script := by
  obtain ⟨signers, hsub, hmany, hcovered⟩ := hcover
  obtain ⟨signers, sigs, heq, hcount, -, hsub, hsigned⟩ :=
    combineMultisig_eq h hclear hsub hcovered hmany
  have hle := h.le
  have hfew := h.length_le
  rw [passes, heq]
  exact verifyScript_pushAll hp2sh (by rw [List.length_cons]; omega) (short_of_signed hsigned)
    (h.leavesTrue hclear.encodedKey hsigned hsub hcount)

theorem passes_combineMultisig_redeem {scriptPubKey : CScript}
    (h : MultisigOf script vSolutions keys opm opn) (hpays : PaysToHashOf S scriptPubKey script)
    (hclear : ClearPool S txTo nIn script keys (sigs1 ++ sigs2))
    (hcover : CoversInOrder S txTo nIn script keys (sigs1 ++ sigs2) (decodeOP_N opm)) :
    passes S txTo nIn
      (combineMultisig S txTo nIn script vSolutions sigs1 sigs2 ++ pushData script)
      scriptPubKey := by
  obtain ⟨signers, hsub, hmany, hcovered⟩ := hcover
  obtain ⟨signers, sigs, heq, hcount, -, hsub, hsigned⟩ :=
    combineMultisig_eq h hclear hsub hcovered hmany
  have hle := h.le
  have hfew := h.length_le
  rw [passes, heq]
  exact verifyScript_redeem hpays.p2sh hpays.hash hpays.short (by rw [List.length_cons]; omega)
    (short_of_signed hsigned) (h.leavesTrue hclear.encodedKey hsigned hsub hcount)

/-! ### Scripts that pass alone -/

/-- A script that only pushes and passes leaves what makes the output true. -/
theorem leavesTrue_of_passes {nTime : ℕ} {s1 : CScript} (hp2sh : ¬ isPayToScriptHash script)
    (hpush : isPushOnly s1 = true) (h : passes S txTo nIn s1 script) :
    leavesTrue (evalScript S.crypto (standardContext txTo nIn) script (stackOf S nTime s1)) := by
  rw [passes, verifyScript] at h
  rcases hres : (evalScript S.crypto (standardContext txTo nIn) s1 []).result with - | stack
  · rw [hres] at h
    cases h
  · rw [hres] at h
    dsimp only at h
    rw [stackOf_eq hpush hres]
    split_ifs at h with htrue
    exact htrue

/-- A script that passes for a pay-to-script-hash output only pushes, and its last element is run on
the other ones. -/
theorem redeem_of_passes (nTime : ℕ) {scriptPubKey s1 : CScript}
    (hp2sh : isPayToScriptHash scriptPubKey) (h : passes S txTo nIn s1 scriptPubKey) :
    isPushOnly s1 = true ∧
      (evalScript S.crypto (standardContext txTo nIn) s1 []).result = some (stackOf S nTime s1) ∧
      ∃ redeem rest, stackOf S nTime s1 = redeem :: rest ∧
        leavesTrue (evalScript S.crypto (standardContext txTo nIn) redeem rest) := by
  rw [passes, verifyScript, runRedeem] at h
  rcases hres : (evalScript S.crypto (standardContext txTo nIn) s1 []).result with - | stack
  · rw [hres] at h
    cases h
  · rw [hres] at h
    dsimp only at h
    split_ifs at h with htrue hboth
    · rw [redeemScript.eq_def] at h
      split_ifs at h with hpush
      · rcases stack with - | ⟨redeem, rest⟩
        · cases h
        · have hstack : stackOf S nTime s1 = redeem :: rest := stackOf_eq hpush hres
          refine ⟨hpush, by rw [hstack], redeem, rest, hstack, ?_⟩
          exact of_decide_eq_true h
      · cases h
    · exact absurd ⟨htrue, hp2sh⟩ hboth

theorem verifyScript_congr {C : Crypto} {c : ScriptContext}
    {scriptSig scriptSig' scriptPubKey : CScript}
    (hres : (evalScript C c scriptSig []).result = (evalScript C c scriptSig' []).result)
    (hpush : isPushOnly scriptSig = isPushOnly scriptSig') :
    verifyScript C c scriptSig scriptPubKey = verifyScript C c scriptSig' scriptPubKey := by
  have hredeem : ∀ stack, redeemScript scriptSig stack = redeemScript scriptSig' stack := by
    intro stack
    rw [redeemScript.eq_def, redeemScript.eq_def, hpush]
  rw [verifyScript, verifyScript, runRedeem, runRedeem, hres]
  simp only [hredeem]

theorem result_of_passes (nTime : ℕ) {scriptPubKey s1 : CScript} (hpush : isPushOnly s1 = true)
    (h : passes S txTo nIn s1 scriptPubKey) :
    (evalScript S.crypto (standardContext txTo nIn) s1 []).result = some (stackOf S nTime s1) := by
  rw [passes, verifyScript] at h
  rcases hres : (evalScript S.crypto (standardContext txTo nIn) s1 []).result with - | stack
  · rw [hres] at h
    cases h
  · rw [stackOf_eq hpush hres]

/-- What a script has left is pushed again, and passes again. -/
theorem passes_pushAll {nTime : ℕ} {scriptPubKey s1 : CScript} (hC : S.crypto.Sized)
    (hpush : isPushOnly s1 = true) (h : passes S txTo nIn s1 scriptPubKey)
    (hbytes : (pushAll (stackOf S nTime s1).reverse).length ≤ 10000) :
    passes S txTo nIn (pushAll (stackOf S nTime s1).reverse) scriptPubKey := by
  have hres := result_of_passes nTime hpush h
  obtain ⟨hsize, hsmall⟩ := bounded_evalScript hC hres
  have hlen : ∀ vch ∈ (stackOf S nTime s1).reverse, vch.length ≤ MAX_SCRIPT_ELEMENT_SIZE :=
    fun vch hmem ↦ hsmall vch (List.mem_reverse.1 hmem)
  have hpushes : Pushes (pushAll (stackOf S nTime s1).reverse) (stackOf S nTime s1).reverse [] := by
    have hpushes := pushes_pushAll hlen []
    rwa [List.append_nil] at hpushes
  have hagain := evalScript_pushes (C := S.crypto) (c := standardContext txTo nIn) hpushes hlen
    (by rw [List.length_reverse]; exact hsize) hbytes
  rw [List.reverse_reverse] at hagain
  rw [passes, verifyScript_congr (hagain.trans hres.symm) (hpushes.isPushOnly.trans hpush.symm)]
  exact h

/-- What `CombineSignatures` makes of a multisig script whose keys are well encoded, when what the
two scripts leave does not mislead it: it passes where the first script does, and where there are
signatures for as many keys as are required; and the two scripts can be exchanged. -/
theorem combineSignatures_multisig (S : SolverParams) (hC : S.crypto.Sized) (txTo : CTransaction)
    (nIn nTime : ℕ) {script : CScript} {vSolutions : List valtype}
    (hsolve : solver S.nMaxDatacarrierBytes script = some (.TX_MULTISIG, vSolutions)) :
    let keys := multisigKeys vSolutions
    let nRequired := firstByte (vSolutions.headD [])
    -- for an output with the script itself
    (∀ s1 s2, combineSignatures S txTo nIn nTime script s1 s2 =
      combineSignatures S txTo nIn nTime script s2 s1) ∧
    (∀ s1 s2, ClearPool S txTo nIn script keys (stackOf S nTime s1 ++ stackOf S nTime s2) →
      (isPushOnly s1 = true → passes S txTo nIn s1 script →
        passes S txTo nIn (combineSignatures S txTo nIn nTime script s1 s2) script) ∧
      (Covers S txTo nIn script keys (stackOf S nTime s1 ++ stackOf S nTime s2) nRequired →
        passes S txTo nIn (combineSignatures S txTo nIn nTime script s1 s2) script)) ∧
    -- for an output with its hash, where the first script ends with it
    ∀ scriptPubKey, PaysToHashOf S scriptPubKey script → ∀ s1 s2 sigs1,
      stackOf S nTime s1 = script :: sigs1 →
      ((stackOf S nTime s2).head? = some script →
        combineSignatures S txTo nIn nTime scriptPubKey s1 s2 =
          combineSignatures S txTo nIn nTime scriptPubKey s2 s1) ∧
      (ClearPool S txTo nIn script keys (sigs1 ++ (stackOf S nTime s2).tail) →
        (passes S txTo nIn s1 scriptPubKey →
          ((stackOf S nTime s2).headD [] = [] →
            (pushAll (stackOf S nTime s1).reverse).length ≤ 10000) →
          passes S txTo nIn (combineSignatures S txTo nIn nTime scriptPubKey s1 s2)
            scriptPubKey) ∧
        ((stackOf S nTime s2).headD [] ≠ [] →
          Covers S txTo nIn script keys (sigs1 ++ (stackOf S nTime s2).tail) nRequired →
          passes S txTo nIn (combineSignatures S txTo nIn nTime scriptPubKey s1 s2)
            scriptPubKey)) := by
  have hbare := not_isPayToScriptHash_of_multisig hsolve
  obtain ⟨keys, opm, opn, h⟩ := exists_multisigOf hsolve
  have hne : script ≠ [] := by
    rintro rfl
    obtain ⟨p₁, p₂, p₃, hget, -⟩ := h.reads
    cases hget
  dsimp only
  rw [h.multisigKeys_eq, h.firstByte_eq]
  refine ⟨fun s1 s2 ↦ ?_, fun s1 s2 hclear ↦ ?_, fun scriptPubKey hpays s1 s2 sigs1 hstack ↦
    ⟨fun hlast ↦ ?_, fun hclear ↦ ⟨fun hpass hbytes ↦ ?_, fun hlast hcover ↦ ?_⟩⟩⟩
  · rw [combineSignatures_bare nTime s1 s2 hsolve, combineSignatures_bare nTime s2 s1 hsolve,
      combineMultisig_comm]
  · rw [combineSignatures_bare nTime s1 s2 hsolve]
    refine ⟨fun hpush hpass ↦ passes_combineMultisig h hbare hclear ?_, fun hcover ↦
      passes_combineMultisig h hbare hclear hcover.inOrder⟩
    exact coversInOrder_of_leavesTrue h hclear.encodedKey (leavesTrue_of_passes hbare hpush hpass)
      (List.subset_append_left _ _)
  · rcases hsecond : stackOf S nTime s2 with - | ⟨redeem, sigs2⟩
    · rw [hsecond] at hlast
      cases hlast
    rw [hsecond] at hlast
    cases hlast
    rw [combineSignatures_redeem hsolve hpays.p2sh hstack hne (by rw [hsecond]; exact hne),
      combineSignatures_redeem hsolve hpays.p2sh hsecond hne (by rw [hstack]; exact hne),
      hsecond, hstack, List.tail_cons, List.tail_cons, combineMultisig_comm]
  · by_cases hlast : (stackOf S nTime s2).headD [] = []
    · rw [combineSignatures_alone hpays.p2sh hstack hne hlast, ← hstack]
      exact passes_pushAll hC (redeem_of_passes nTime hpays.p2sh hpass).1 hpass (hbytes hlast)
    · rw [combineSignatures_redeem hsolve hpays.p2sh hstack hne hlast]
      obtain ⟨-, -, redeem, rest, hsplit, hrun⟩ :=
        redeem_of_passes nTime hpays.p2sh hpass
      cases hstack.symm.trans hsplit
      exact passes_combineMultisig_redeem h hpays hclear
        (coversInOrder_of_leavesTrue h hclear.encodedKey hrun (List.subset_append_left _ _))
  · rw [combineSignatures_redeem hsolve hpays.p2sh hstack hne hlast]
    exact passes_combineMultisig_redeem h hpays hclear hcover.inOrder

end

/-! ## What misleads it -/

namespace Sample

/-- A number `R` of 32 bytes, and the number one. -/
def sigBytes : valtype := [0x30, 0x25, 0x02, 0x20, 1] ++ List.replicate 31 0 ++ [0x02, 1, 1, 1]

/-- The number one, and a number `S` in the upper half of the range. -/
def highSigBytes : valtype :=
  [0x30, 0x25, 0x02, 1, 1, 0x02, 0x20, 0x7f] ++ List.replicate 31 0xff ++ [1]

/-- The signature for the second key. -/
def otherSigBytes : valtype := [0x30, 6, 0x02, 1, 3, 0x02, 1, 1, 1]

/-- One that is valid for it in `combineParams`. -/
def secondSigBytes : valtype := [0x30, 6, 0x02, 1, 5, 0x02, 1, 1, 1]

/-- A signature that is valid for two keys. -/
def sharedSigBytes : valtype := [0x30, 6, 0x02, 1, 1, 0x02, 1, 1, 1]

def otherKeyBytes : valtype := 0x03 :: List.replicate 32 0

/-- A key that is valid, in an encoding that the interpreter refuses. -/
def hybridKeyBytes : valtype := 0x06 :: List.replicate 64 0

/-- A script that requires one signature of one key. -/
def oneOfOne : CScript := [OP_1] ++ pushData keyBytes ++ [OP_1, OP_CHECKMULTISIG]

def oneOfTwo : CScript :=
  [OP_1] ++ pushData hybridKeyBytes ++ pushData keyBytes ++ [OP_1 + 1, OP_CHECKMULTISIG]

def twoOfTwo : CScript :=
  [OP_1 + 1] ++ pushData keyBytes ++ pushData otherKeyBytes ++ [OP_1 + 1, OP_CHECKMULTISIG]

/-- The signatures that are valid for a transaction: none is for the empty one. -/
def combineParams : SolverParams where
  crypto :=
    { ripemd160 := fun _ ↦ List.replicate 20 0
      sha1 := fun _ ↦ List.replicate 20 0
      sha256 := fun _ ↦ List.replicate 32 0
      hash160 := fun vch ↦ List.replicate 20 (if vch = oneOfOne then 1 else 0)
      hash256 := fun _ ↦ List.replicate 32 0
      hashTx := fun _ _ ↦ 0
      verify := fun key hash vchSig ↦ hash ≠ 1 ∧
        (key = keyBytes ∧ (vchSig ++ [1] = sigBytes ∨ vchSig ++ [1] = highSigBytes ∨
            vchSig ++ [1] = sharedSigBytes) ∨
          key = otherKeyBytes ∧ (vchSig ++ [1] = secondSigBytes ∨ vchSig ++ [1] = sharedSigBytes) ∨
          key = hybridKeyBytes ∧ vchSig ++ [1] = otherSigBytes) }
  nMaxDatacarrierBytes := 40

theorem sized_combineParams : combineParams.crypto.Sized :=
  ⟨fun _ ↦ rfl, fun _ ↦ rfl, fun _ ↦ rfl, fun _ ↦ List.length_replicate, fun _ ↦ rfl⟩

/-- `CombineSignatures` for the only input of a transaction. -/
def combine (scriptPubKey s1 s2 : CScript) : CScript :=
  combineSignatures combineParams oneTx 0 0 scriptPubKey s1 s2

/-- `VerifyScript` for that input. -/
def verifies (scriptSig scriptPubKey : CScript) : Bool :=
  verifyScript combineParams.crypto (standardContext oneTx 0) scriptSig scriptPubKey

end Sample

open Sample in
/-- A signature that is not well encoded displaces the only good one, and the result depends on the
order where only one script ends with the redeem script.  A key that is not well encoded, a
signature that is valid for two keys and a script that does more than push mislead it too. -/
theorem not_combineSignatures_multisig :
    (solver 40 oneOfOne = some (.TX_MULTISIG, [[1], keyBytes, [1]]) ∧
      verifies (pushAll [[], sigBytes]) oneOfOne = true ∧
      Covers combineParams oneTx 0 oneOfOne [keyBytes] [[], sigBytes] 1 ∧
      verifies (combine oneOfOne (pushAll [[], sigBytes]) (pushAll [[], highSigBytes])) oneOfOne =
        false) ∧
    (combine (payToScriptHash 1) (pushAll [[], sigBytes, oneOfOne]) (pushAll [[], [1]]) ≠
      combine (payToScriptHash 1) (pushAll [[], [1]]) (pushAll [[], sigBytes, oneOfOne])) ∧
    (verifies (pushAll [[], sigBytes]) oneOfTwo = true ∧
      verifies (combine oneOfTwo (pushAll [[], sigBytes]) (pushAll [[], otherSigBytes])) oneOfTwo =
        false) ∧
    (verifies (pushAll [[], sigBytes, sharedSigBytes]) twoOfTwo = true ∧
      verifies (combine twoOfTwo (pushAll [[], sigBytes, sharedSigBytes]) []) twoOfTwo = false) ∧
    verifies (pushAll [sigBytes, keyBytes] ++ [OP_CHECKSIG, OP_VERIFY] ++ pushAll [[], sigBytes])
      oneOfOne = true ∧
    verifies (combine oneOfOne (pushAll [sigBytes, keyBytes] ++ [OP_CHECKSIG, OP_VERIFY] ++
      pushAll [[], sigBytes]) []) oneOfOne = false := by
  refine ⟨⟨by decide +kernel, by decide +kernel, ?_, by decide +kernel⟩, by decide +kernel,
    ⟨by decide +kernel, by decide +kernel⟩, ⟨by decide +kernel, by decide +kernel⟩,
    by decide +kernel, by decide +kernel⟩
  refine ⟨[keyBytes], List.nodup_singleton _, le_rfl, List.forall_mem_singleton.2
    ⟨List.mem_cons_self, sigBytes, List.mem_cons_of_mem _ List.mem_cons_self, ?_, ?_⟩⟩
  · decide +kernel
  · decide +kernel

/-- Each of the two scripts has the signature of one of the keys. -/
theorem combineSignatures_multisig_sample :
    passes Sample.combineParams Sample.oneTx 0
      (Sample.combine Sample.twoOfTwo (pushAll [[], Sample.secondSigBytes])
        (pushAll [[], Sample.sigBytes])) Sample.twoOfTwo ∧
    passes Sample.combineParams Sample.oneTx 0
      (Sample.combine (Sample.payToScriptHash 0)
        (pushAll [[], Sample.secondSigBytes, Sample.twoOfTwo])
        (pushAll [[], Sample.sigBytes, Sample.twoOfTwo])) (Sample.payToScriptHash 0) := by
  have hsolve : solver 40 Sample.twoOfTwo =
      some (.TX_MULTISIG, [[2], Sample.keyBytes, Sample.otherKeyBytes, [2]]) := by decide +kernel
  obtain ⟨-, hbare, hredeem⟩ :=
    combineSignatures_multisig Sample.combineParams Sample.sized_combineParams Sample.oneTx 0 0
      hsolve
  have hkeys : multisigKeys [[2], Sample.keyBytes, Sample.otherKeyBytes, [2]] =
      [Sample.keyBytes, Sample.otherKeyBytes] := rfl
  rw [hkeys] at hbare hredeem
  have hclear : ClearPool Sample.combineParams Sample.oneTx 0 Sample.twoOfTwo
      [Sample.keyBytes, Sample.otherKeyBytes]
      ([Sample.secondSigBytes, []] ++ [Sample.sigBytes, []]) :=
    ⟨by decide +kernel, by decide +kernel, by decide +kernel⟩
  have hcovers : Covers Sample.combineParams Sample.oneTx 0 Sample.twoOfTwo
      [Sample.keyBytes, Sample.otherKeyBytes]
      ([Sample.secondSigBytes, []] ++ [Sample.sigBytes, []]) 2 := by
    refine ⟨[Sample.keyBytes, Sample.otherKeyBytes], by decide, le_rfl, List.forall_mem_cons.2
      ⟨⟨by simp, Sample.sigBytes, by simp, by decide +kernel, by decide +kernel⟩,
        List.forall_mem_singleton.2
          ⟨by simp, Sample.secondSigBytes, by simp, by decide +kernel, by decide +kernel⟩⟩⟩
  constructor
  · have hfirst : stackOf Sample.combineParams 0 (pushAll [[], Sample.secondSigBytes]) =
        [Sample.secondSigBytes, []] := by decide +kernel
    have hsecond : stackOf Sample.combineParams 0 (pushAll [[], Sample.sigBytes]) =
        [Sample.sigBytes, []] := by decide +kernel
    refine (hbare (pushAll [[], Sample.secondSigBytes]) (pushAll [[], Sample.sigBytes]) ?_).2 ?_
    · rw [hfirst, hsecond]
      exact hclear
    · rw [hfirst, hsecond]
      exact hcovers
  · have hfirst : stackOf Sample.combineParams 0
        (pushAll [[], Sample.secondSigBytes, Sample.twoOfTwo]) =
          [Sample.twoOfTwo, Sample.secondSigBytes, []] := by decide +kernel
    have hsecond : stackOf Sample.combineParams 0
        (pushAll [[], Sample.sigBytes, Sample.twoOfTwo]) =
          [Sample.twoOfTwo, Sample.sigBytes, []] := by decide +kernel
    have hpays : PaysToHashOf Sample.combineParams (Sample.payToScriptHash 0) Sample.twoOfTwo :=
      ⟨by decide +kernel, by decide +kernel, by decide +kernel⟩
    refine ((hredeem _ hpays (pushAll [[], Sample.secondSigBytes, Sample.twoOfTwo])
      (pushAll [[], Sample.sigBytes, Sample.twoOfTwo]) [Sample.secondSigBytes, []] hfirst).2 ?_).2
        ?_ ?_
    · rw [hsecond]
      exact hclear
    · rw [hsecond]
      exact List.cons_ne_nil _ _
    · rw [hsecond]
      exact hcovers

end Bws
