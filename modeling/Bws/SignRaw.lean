import Bws.Combine
import Bws.CreateTransaction
import Bws.Hex
import Bws.TxSerialize

/-!
# Signing raw transactions

`signrawtransaction` reads one or more variants of a transaction, signs the inputs of the first one
whose previous outputs are known, merges in the scripts that the other ones have, and verifies.  The
inputs are counted in the first variant only, and every variant is read at each index: nothing is
read outside of a variant exactly where it has as many inputs as are signed
(`signrawtransaction_reads_iff`).

A signature does not depend on the scripts of the inputs (`signatureHash_blank`), so that the rounds
of the loop do not get into each other's way (`signRound_eq`).
-/

namespace Bws

/-! ## The code -/

/-- `ssData >> tx`, until `ssData` is empty. -/
def readVariants (T : ElementSizes) : ℕ → List UInt8 → Option (List CTransaction)
  | _, [] => some []
  | 0, _ :: _ => none
  | fuel + 1, b :: ssData =>
    ((CTransaction.implementSerialize T).get (b :: ssData)).bind fun r ↦
      (readVariants T fuel r.2).map (r.1 :: ·)

/-- `txVariants`; no transaction is without bytes. -/
def txVariantsOf (T : ElementSizes) (txData : List UInt8) : Option (List CTransaction) :=
  readVariants T txData.length txData

/-- `txTo.vin[nIn].scriptSig` -/
def CTransaction.scriptSigAt (txTo : CTransaction) (nIn : ℕ) : CScript :=
  (txTo.vin[nIn]?).elim [] CTxIn.scriptSig

/-- What `signrawtransaction` signs with: the previous outputs that were found or given, the keys,
and the hash type. -/
structure Signer where
  params : SolverParams
  sign : CKey → UInt256 → Option valtype
  mapPrevOut : COutPoint → Option CScript
  keystore : CKeyStore
  nHashType : ℕ
  /-- the adjusted time, for the empty transactions of `CombineSignatures` -/
  nTime : ℕ

namespace Signer

variable (R : Signer)

/-- `(nHashType & ~SIGHASH_ANYONECANPAY) == SIGHASH_SINGLE`, for an `int` -/
def fHashSingle : Prop := R.nHashType &&& 0xffffff7f = SIGHASH_SINGLE

instance : Decidable R.fHashSingle := inferInstanceAs (Decidable (_ = _))

/-- Clear the script of an input and sign it; with `SIGHASH_SINGLE`, only where there is a
corresponding output. -/
def signAnew (prevPubKey : CScript) (i : ℕ) (mergedTx : CTransaction) : CTransaction :=
  let mergedTx := mergedTx.setScriptSig i []
  if ¬ R.fHashSingle ∨ i < mergedTx.vout.length then
    (signSignature R.params R.sign R.keystore prevPubKey mergedTx i R.nHashType).1
  else mergedTx

/-- Merge in other signatures.  There is no result where a variant has no input of that index. -/
def mergeVariants (prevPubKey : CScript) (i : ℕ) :
    List CTransaction → CTransaction → Option CTransaction
  | [], mergedTx => some mergedTx
  | txv :: txVariants, mergedTx =>
    (txv.vin[i]?).bind fun txin ↦
      mergeVariants prevPubKey i txVariants (mergedTx.setScriptSig i
        (combineSignatures R.params mergedTx i R.nTime prevPubKey (mergedTx.scriptSigAt i)
          txin.scriptSig))

/-- `mapPrevOut[mergedTx.vin[i].prevout]`, where there is one -/
def prevPubKeyAt (mergedTx : CTransaction) (i : ℕ) : Option CScript :=
  (mergedTx.vin[i]?).bind fun txin ↦ R.mapPrevOut txin.prevout

/-- One round of the loop that signs what it can. -/
def signRound (txVariants : List CTransaction) (r : CTransaction × Bool) (i : ℕ) :
    Option (CTransaction × Bool) :=
  match R.prevPubKeyAt r.1 i with
  | none => some (r.1, false)
  | some prevPubKey =>
    (R.mergeVariants prevPubKey i txVariants (R.signAnew prevPubKey i r.1)).map fun mergedTx ↦
      (mergedTx, r.2 && verifyScript R.params.crypto (standardContext mergedTx i)
        (mergedTx.scriptSigAt i) prevPubKey)

/-- The loop, for the first `n` inputs of `rawTx`: `mergedTx` and `fComplete`. -/
def signFirst (rawTx : CTransaction) (txVariants : List CTransaction) (n : ℕ) :
    Option (CTransaction × Bool) :=
  (List.range n).foldlM (R.signRound txVariants) (rawTx, true)

end Signer

/-- How `signrawtransaction` ends, once its other arguments have been read. -/
inductive SignRawResult where
  /-- `JSONRPCError(RPC_DESERIALIZATION_ERROR, msg)` -/
  | thrown (msg : String)
  /-- an element of a vector is read that is not there -/
  | outside
  | returned (hex : List UInt8) (complete : Bool)
deriving DecidableEq, Repr

/-- `signrawtransaction` -/
def signrawtransaction (T : ElementSizes) (R : Signer) (hexstring : List UInt8) : SignRawResult :=
  match txVariantsOf T (parseHex hexstring) with
  | none => .thrown "TX decode failed"
  | some [] => .thrown "Missing transaction"
  | some (tx :: txVariants) =>
    match R.signFirst tx (tx :: txVariants) tx.vin.length with
    | none => .outside
    | some (mergedTx, fComplete) =>
      .returned (hexStr ((CTransaction.implementSerialize T).put mergedTx)) fComplete

/-! ## What a signature does not depend on -/

section

variable {C : Crypto} {S : SolverParams} {txTo txTo' : CTransaction} {nIn i : ℕ}

theorem checkLockTime_blank (nLockTime : ℤ) :
    checkLockTime txTo.blank nIn nLockTime ↔ checkLockTime txTo nIn nLockTime := by
  rw [checkLockTime, checkLockTime]
  refine and_congr Iff.rfl (and_congr Iff.rfl ?_)
  rw [CTransaction.blank, List.getElem?_map]
  cases txTo.vin[nIn]? with
  | none => simp
  | some txin => simp [CTxIn.isFinal]

end

/-- Two contexts in which the same signatures are valid and the same locks are open. -/
structure SameChecks (C : Crypto) (c c' : ScriptContext) : Prop where
  flags : c.flags = c'.flags
  sig scriptCode vchSig vchPubKey :
    checkSig C c scriptCode vchSig vchPubKey = checkSig C c' scriptCode vchSig vchPubKey
  lock stack : lockTimePasses c stack = lockTimePasses c' stack

namespace SameChecks

variable {C : Crypto} {c c' : ScriptContext} (h : SameChecks C c c')

include h

theorem checkOne (scriptCode : CScript) (vchSig vchPubKey : valtype) :
    Bws.checkOne C c scriptCode vchSig vchPubKey =
      Bws.checkOne C c' scriptCode vchSig vchPubKey := by
  rw [Bws.checkOne, Bws.checkOne, h.flags, h.sig]

theorem multiSigLoop (scriptCode : CScript) (keys sigs : List valtype) :
    Bws.multiSigLoop C c scriptCode keys sigs = Bws.multiSigLoop C c' scriptCode keys sigs := by
  induction keys generalizing sigs with
  | nil =>
    cases sigs with
    | nil => rfl
    | cons vchSig sigs => rfl
  | cons vchPubKey keys ih =>
    cases sigs with
    | nil => rfl
    | cons vchSig sigs =>
      rw [Bws.multiSigLoop, Bws.multiSigLoop, h.checkOne]
      exact congrArg _ (funext fun fOk ↦ by rw [ih])

theorem evalCheckSig (fVerify : Bool) (st : ScriptState) :
    Bws.evalCheckSig C c fVerify st = Bws.evalCheckSig C c' fVerify st := by
  rw [Bws.evalCheckSig.eq_def, Bws.evalCheckSig.eq_def]
  simp only [h.checkOne]

theorem evalCheckMultiSig (fVerify : Bool) (st : ScriptState) :
    Bws.evalCheckMultiSig C c fVerify st = Bws.evalCheckMultiSig C c' fVerify st := by
  have hdummy : dropDummy c = dropDummy c' := by
    funext fVerify fSuccess stack
    rw [dropDummy.eq_def, dropDummy.eq_def, h.flags]
  rw [Bws.evalCheckMultiSig, Bws.evalCheckMultiSig]
  simp only [h.multiSigLoop, hdummy]

theorem step (opcode : UInt8) (vchPushValue : valtype) (pc : CScript) (st : ScriptState) :
    Bws.step C c opcode vchPushValue pc st = Bws.step C c' opcode vchPushValue pc st := by
  have hop : ∀ fExec st, evalOp C c opcode pc fExec st = evalOp C c' opcode pc fExec st := by
    intro fExec st
    rw [evalOp, evalOp, h.flags, h.evalCheckSig, h.evalCheckMultiSig, h.lock]
  rw [Bws.step, Bws.step, execute, execute, hop]

theorem evalFrom (parsed : Parsed) (st : ScriptState) :
    Bws.evalFrom C c parsed st = Bws.evalFrom C c' parsed st := by
  induction parsed generalizing st with
  | done => rfl
  | bad => rfl
  | op opcode vch pc next ih =>
    rw [Bws.evalFrom, Bws.evalFrom, h.step]
    exact congrArg _ (funext fun st' ↦ ih st')

theorem evalScript (script : CScript) (stack : List valtype) :
    Bws.evalScript C c script stack = Bws.evalScript C c' script stack := by
  rw [Bws.evalScript, Bws.evalScript, h.evalFrom]

theorem verifyScript (scriptSig scriptPubKey : CScript) :
    Bws.verifyScript C c scriptSig scriptPubKey = Bws.verifyScript C c' scriptSig scriptPubKey := by
  rw [Bws.verifyScript, Bws.verifyScript, runRedeem, runRedeem]
  simp only [h.evalScript]

end SameChecks

section

variable {C : Crypto} {S : SolverParams} {txTo txTo' : CTransaction} {nIn i : ℕ}

theorem sameChecks_of_blank (C : Crypto) (nIn : ℕ) (h : txTo.blank = txTo'.blank)
    (flags nHashType : ℕ) :
    SameChecks C ⟨txTo, nIn, flags, nHashType⟩ ⟨txTo', nIn, flags, nHashType⟩ where
  flags := rfl
  sig scriptCode vchSig vchPubKey := by
    have hhash : ∀ nHashType, signatureHash C scriptCode txTo nIn nHashType =
        signatureHash C scriptCode txTo' nIn nHashType := fun nHashType ↦ by
      rw [← signatureHash_blank, h, signatureHash_blank]
    rw [checkSig, checkSig]
    simp only [hhash]
  lock stack := by
    have hlock : ∀ nLockTime,
        checkLockTime txTo nIn nLockTime ↔ checkLockTime txTo' nIn nLockTime := by
      intro nLockTime
      rw [← checkLockTime_blank, h, checkLockTime_blank]
    rw [lockTimePasses.eq_def, lockTimePasses.eq_def]
    simp only [hlock]

theorem passes_blank (h : txTo.blank = txTo'.blank) (scriptSig scriptPubKey : CScript) :
    passes S txTo nIn scriptSig scriptPubKey ↔ passes S txTo' nIn scriptSig scriptPubKey := by
  rw [passes, passes, standardContext, standardContext,
    (sameChecks_of_blank _ _ h _ _).verifyScript]

theorem combineSolved_blank (h : txTo.blank = txTo'.blank) (sigs1 sigs2 : List valtype)
    (scriptPubKey : CScript) (txType : txnouttype) (vSolutions : List valtype) :
    combineSolved S txTo nIn sigs1 sigs2 scriptPubKey txType vSolutions =
      combineSolved S txTo' nIn sigs1 sigs2 scriptPubKey txType vSolutions := by
  have haccepts : accepts S txTo nIn = accepts S txTo' nIn := by
    funext scriptPubKey sig pubkey
    exact (sameChecks_of_blank _ _ h 0 0).sig scriptPubKey sig pubkey
  induction sigs1 generalizing sigs2 scriptPubKey txType vSolutions with
  | nil =>
    rw [combineSolved.eq_def, combineSolved.eq_def]
    simp only [combineMultisig, haccepts]
  | cons spk sigs1 ih =>
    rw [combineSolved.eq_def, combineSolved.eq_def]
    simp only [combineMultisig, haccepts, ih]

theorem combineSignatures_blank (h : txTo.blank = txTo'.blank) (nTime : ℕ)
    (scriptPubKey s1 s2 : CScript) :
    combineSignatures S txTo nIn nTime scriptPubKey s1 s2 =
      combineSignatures S txTo' nIn nTime scriptPubKey s1 s2 := by
  rw [combineSignatures, combineSignatures]
  exact combineSolved_blank h _ _ _ _ _

/-- What `SignSignature` writes does not depend on what was there. -/
theorem signSignature_blank (S : SolverParams) (sign : CKey → UInt256 → Option valtype)
    (keystore : CKeyStore) (fromPubKey : CScript) (txTo : CTransaction) (nIn nHashType : ℕ) :
    ∃ scriptSig, ∀ txTo', txTo'.blank = txTo.blank →
      (signSignature S sign keystore fromPubKey txTo' nIn nHashType).1 =
        txTo'.setScriptSig nIn scriptSig := by
  have hhash : ∀ {tx : CTransaction} (code : CScript), tx.blank = txTo.blank →
      signatureHash S.crypto code tx nIn nHashType =
        signatureHash S.crypto code txTo nIn nHashType :=
    fun code hblank ↦ by rw [← signatureHash_blank, hblank, signatureHash_blank]
  rcases hsolve : solverSign S sign keystore fromPubKey
    (signatureHash S.crypto fromPubKey txTo nIn nHashType) nHashType with ⟨scriptSig, whichType, ok⟩
  have heq : ∀ txTo', txTo'.blank = txTo.blank →
      solverSign S sign keystore fromPubKey
        (signatureHash S.crypto fromPubKey txTo' nIn nHashType) nHashType =
          (scriptSig, whichType, ok) := fun txTo' hblank ↦ by rw [hhash _ hblank, hsolve]
  cases ok with
  | false =>
    refine ⟨scriptSig, fun txTo' hblank ↦ ?_⟩
    rw [signSignature]
    dsimp only
    rw [heq txTo' hblank]
  | true =>
    by_cases hp2sh : whichType = .TX_SCRIPTHASH
    · refine ⟨(solverSign S sign keystore scriptSig
        (signatureHash S.crypto scriptSig txTo nIn nHashType) nHashType).1 ++ pushData scriptSig,
        fun txTo' hblank ↦ ?_⟩
      rw [signSignature]
      dsimp only
      rw [heq txTo' hblank]
      dsimp only
      rw [if_pos hp2sh, hhash _ ((blank_setScriptSig ..).trans hblank)]
      exact CTransaction.setScriptSig_setScriptSig ..
    · refine ⟨scriptSig, fun txTo' hblank ↦ ?_⟩
      rw [signSignature]
      dsimp only
      rw [heq txTo' hblank]
      dsimp only
      rw [if_neg hp2sh]

end

/-! ## The loop -/

namespace Signer

variable {R : Signer} {rawTx mergedTx : CTransaction} {txVariants : List CTransaction} {i : ℕ}

/-- What is written for the `i`-th input when it is signed. -/
def signedScript (R : Signer) (rawTx : CTransaction) (i : ℕ) (prevPubKey : CScript) : CScript :=
  (R.signAnew prevPubKey i rawTx).scriptSigAt i

/-- Scripts are merged with the first one, in their order. -/
def mergeScripts (R : Signer) (rawTx : CTransaction) (i : ℕ) (prevPubKey : CScript) :
    CScript → List CScript → CScript :=
  List.foldl (combineSignatures R.params rawTx i R.nTime prevPubKey)

/-- What the script of the `i`-th input becomes. -/
def mergedScript (R : Signer) (rawTx : CTransaction) (txVariants : List CTransaction) (i : ℕ)
    (prevPubKey : CScript) : CScript :=
  R.mergeScripts rawTx i prevPubKey (R.signedScript rawTx i prevPubKey)
    (txVariants.map (·.scriptSigAt i))

/-- What the `i`-th input becomes. -/
def mergedInput (R : Signer) (rawTx : CTransaction) (txVariants : List CTransaction) (i : ℕ)
    (txin : CTxIn) : CTxIn :=
  match R.mapPrevOut txin.prevout with
  | none => txin
  | some prevPubKey => { txin with scriptSig := R.mergedScript rawTx txVariants i prevPubKey }

/-- The transaction after the first `n` rounds. -/
def mergedFirst (R : Signer) (rawTx : CTransaction) (txVariants : List CTransaction) (n : ℕ) :
    CTransaction :=
  { rawTx with vin := rawTx.vin.mapIdx fun i txin ↦
      if i < n then R.mergedInput rawTx txVariants i txin else txin }

theorem scriptSigAt_setScriptSig {txTo : CTransaction} (hi : i < txTo.vin.length)
    (scriptSig : CScript) : (txTo.setScriptSig i scriptSig).scriptSigAt i = scriptSig := by
  rw [CTransaction.scriptSigAt, getElem?_setScriptSig, List.getElem?_eq_getElem hi]
  simp

theorem setScriptSig_scriptSigAt (txTo : CTransaction) (i : ℕ) :
    txTo.setScriptSig i (txTo.scriptSigAt i) = txTo := by
  have hvin : (txTo.setScriptSig i (txTo.scriptSigAt i)).vin = txTo.vin := by
    refine List.ext_getElem? fun j ↦ ?_
    rw [getElem?_setScriptSig, CTransaction.scriptSigAt]
    rcases hj : txTo.vin[j]? with - | txin
    · rfl
    · by_cases hji : j = i
      · subst hji
        simp [hj]
      · simp [hji]
  exact congrArg (fun vin ↦ { txTo with vin }) hvin

/-- Signing depends on nothing that the other rounds change. -/
theorem signAnew_eq (hblank : mergedTx.blank = rawTx.blank) (hi : i < rawTx.vin.length)
    (prevPubKey : CScript) : R.signAnew prevPubKey i mergedTx =
      mergedTx.setScriptSig i (R.signedScript rawTx i prevPubKey) := by
  obtain ⟨scriptSig, hsign⟩ := signSignature_blank R.params R.sign R.keystore prevPubKey rawTx i
    R.nHashType
  have hvout : ∀ {tx : CTransaction}, tx.blank = rawTx.blank → tx.vout = rawTx.vout := by
    intro tx htx
    have hvout := congrArg CTransaction.vout htx
    exact hvout
  have hanew : ∃ scriptSig, ∀ tx : CTransaction, tx.blank = rawTx.blank →
      R.signAnew prevPubKey i tx = tx.setScriptSig i scriptSig := by
    by_cases hsingle : ¬ R.fHashSingle ∨ i < rawTx.vout.length
    · refine ⟨scriptSig, fun tx htx ↦ ?_⟩
      have hout := hvout ((blank_setScriptSig tx i []).trans htx)
      rw [signAnew, if_pos (by rwa [hout]), hsign _ ((blank_setScriptSig ..).trans htx),
        CTransaction.setScriptSig_setScriptSig]
    · refine ⟨[], fun tx htx ↦ ?_⟩
      have hout := hvout ((blank_setScriptSig tx i []).trans htx)
      rw [signAnew, if_neg (by rwa [hout])]
  obtain ⟨scriptSig, hanew⟩ := hanew
  rw [hanew _ hblank, signedScript, hanew _ rfl, scriptSigAt_setScriptSig hi]

/-- Every variant is read at the index of the input. -/
theorem mergeVariants_eq (hblank : mergedTx.blank = rawTx.blank) (hi : i < rawTx.vin.length)
    (prevPubKey : CScript) : R.mergeVariants prevPubKey i txVariants mergedTx =
      if ∀ txv ∈ txVariants, i < txv.vin.length then
        some (mergedTx.setScriptSig i (R.mergeScripts rawTx i prevPubKey (mergedTx.scriptSigAt i)
          (txVariants.map (·.scriptSigAt i))))
      else none := by
  induction txVariants generalizing mergedTx with
  | nil =>
    rw [mergeVariants, if_pos (List.forall_mem_nil _)]
    exact congrArg some (setScriptSig_scriptSigAt ..).symm
  | cons txv txVariants ih =>
    rw [mergeVariants]
    by_cases htxv : i < txv.vin.length
    · have hscript : txv.scriptSigAt i = (txv.vin[i]).scriptSig := by
        rw [CTransaction.scriptSigAt, List.getElem?_eq_getElem htxv]
        rfl
      have hlen : i < mergedTx.vin.length := by
        rw [← length_blank, hblank, length_blank]
        exact hi
      rw [List.getElem?_eq_getElem htxv, Option.bind_some,
        ih ((blank_setScriptSig ..).trans hblank), scriptSigAt_setScriptSig hlen,
        CTransaction.setScriptSig_setScriptSig, combineSignatures_blank hblank, ← hscript]
      simp only [List.forall_mem_cons, htxv, true_and]
      rfl
    · rw [List.getElem?_eq_none (not_lt.1 htxv), if_neg fun h ↦ htxv (h txv List.mem_cons_self)]
      rfl

theorem length_mergedFirst (n : ℕ) :
    (R.mergedFirst rawTx txVariants n).vin.length = rawTx.vin.length := List.length_mapIdx

theorem getElem?_mergedFirst (n : ℕ) : (R.mergedFirst rawTx txVariants n).vin[i]? =
    (rawTx.vin[i]?).map fun txin ↦ if i < n then R.mergedInput rawTx txVariants i txin else txin :=
  List.getElem?_mapIdx

/-- Only scripts change. -/
theorem blank_mergedFirst (R : Signer) (rawTx : CTransaction) (txVariants : List CTransaction)
    (n : ℕ) : (R.mergedFirst rawTx txVariants n).blank = rawTx.blank := by
  have hvin : (R.mergedFirst rawTx txVariants n).blank.vin = rawTx.blank.vin := by
    refine List.ext_getElem? fun i ↦ ?_
    rw [CTransaction.blank, CTransaction.blank, List.getElem?_map, List.getElem?_map,
      getElem?_mergedFirst, Option.map_map]
    refine congrArg (Option.map · _) (funext fun txin ↦ ?_)
    rw [Function.comp_apply, mergedInput]
    split_ifs
    · split <;> rfl
    · rfl
  exact congrArg (fun vin ↦ { rawTx with vin }) hvin

theorem prevPubKeyAt_of_blank (hblank : mergedTx.blank = rawTx.blank) (i : ℕ) :
    R.prevPubKeyAt mergedTx i = R.prevPubKeyAt rawTx i := by
  have hget : ∀ tx : CTransaction, R.prevPubKeyAt tx i =
      (tx.blank.vin[i]?).bind fun txin ↦ R.mapPrevOut txin.prevout := by
    intro tx
    rw [prevPubKeyAt, CTransaction.blank, List.getElem?_map, Option.bind_map]
    rfl
  rw [hget, hget, hblank]

theorem mergedFirst_zero : R.mergedFirst rawTx txVariants 0 = rawTx := by
  have hvin : (R.mergedFirst rawTx txVariants 0).vin = rawTx.vin := by
    refine List.ext_getElem? fun i ↦ ?_
    rw [getElem?_mergedFirst]
    simp
  exact congrArg (fun vin ↦ { rawTx with vin }) hvin

theorem mergedFirst_succ (n : ℕ) : R.mergedFirst rawTx txVariants (n + 1) =
    match R.prevPubKeyAt rawTx n with
    | none => R.mergedFirst rawTx txVariants n
    | some prevPubKey => (R.mergedFirst rawTx txVariants n).setScriptSig n
        (R.mergedScript rawTx txVariants n prevPubKey) := by
  have hother : ∀ {i : ℕ} (txin : CTxIn), i ≠ n →
      (if i < n + 1 then R.mergedInput rawTx txVariants i txin else txin) =
        if i < n then R.mergedInput rawTx txVariants i txin else txin := fun txin hne ↦ by
    simp only [Nat.lt_succ_iff_lt_or_eq, hne, or_false]
  have hvin : (R.mergedFirst rawTx txVariants (n + 1)).vin = (match R.prevPubKeyAt rawTx n with
    | none => R.mergedFirst rawTx txVariants n
    | some prevPubKey => (R.mergedFirst rawTx txVariants n).setScriptSig n
        (R.mergedScript rawTx txVariants n prevPubKey)).vin := by
    refine List.ext_getElem? fun i ↦ ?_
    rw [getElem?_mergedFirst]
    rcases hknown : R.prevPubKeyAt rawTx n with - | prevPubKey
    · dsimp only
      rw [getElem?_mergedFirst]
      rcases hi : rawTx.vin[i]? with - | txin
      · rfl
      · by_cases hin : i = n
        · subst hin
          rw [prevPubKeyAt, hi, Option.bind_some] at hknown
          simp [mergedInput, hknown]
        · rw [Option.map_some, Option.map_some, hother txin hin]
    · dsimp only
      rw [getElem?_setScriptSig, getElem?_mergedFirst, Option.map_map]
      rcases hi : rawTx.vin[i]? with - | txin
      · rfl
      · by_cases hin : i = n
        · subst hin
          rw [prevPubKeyAt, hi, Option.bind_some] at hknown
          simp [mergedInput, hknown]
        · rw [Option.map_some, Option.map_some, hother txin hin, Function.comp_apply, if_neg hin]
  cases hknown : R.prevPubKeyAt rawTx n with
  | none =>
    rw [hknown] at hvin
    exact congrArg (fun vin ↦ { rawTx with vin }) hvin
  | some prevPubKey =>
    rw [hknown] at hvin
    exact congrArg (fun vin ↦ { rawTx with vin }) hvin

/-- What a round makes of the rounds before it. -/
theorem signRound_eq {fComplete : Bool} {n : ℕ} (hn : n < rawTx.vin.length) :
    R.signRound txVariants (R.mergedFirst rawTx txVariants n, fComplete) n =
      match R.prevPubKeyAt rawTx n with
      | none => some (R.mergedFirst rawTx txVariants (n + 1), false)
      | some prevPubKey =>
        if ∀ txv ∈ txVariants, n < txv.vin.length then
          some (R.mergedFirst rawTx txVariants (n + 1), fComplete &&
            verifyScript R.params.crypto (standardContext rawTx n)
              (R.mergedScript rawTx txVariants n prevPubKey) prevPubKey)
        else none := by
  have hblank := blank_mergedFirst R rawTx txVariants n
  rw [signRound, prevPubKeyAt_of_blank hblank, mergedFirst_succ]
  cases R.prevPubKeyAt rawTx n with
  | none => rfl
  | some prevPubKey =>
    dsimp only
    have hlen : n < (R.mergedFirst rawTx txVariants n).vin.length := by rwa [length_mergedFirst]
    rw [signAnew_eq hblank hn, mergeVariants_eq ((blank_setScriptSig ..).trans hblank) hn,
      scriptSigAt_setScriptSig hlen, CTransaction.setScriptSig_setScriptSig]
    split_ifs
    · rw [Option.map_some, scriptSigAt_setScriptSig hlen]
      have hsame := sameChecks_of_blank R.params.crypto n
        ((blank_setScriptSig (R.mergedFirst rawTx txVariants n) n
          (R.mergedScript rawTx txVariants n prevPubKey)).trans hblank)
        STANDARD_SCRIPT_VERIFY_FLAGS 0
      exact congrArg (fun b ↦ some (_, fComplete && b)) (hsame.verifyScript _ _)
    · rfl

/-! ## What is read -/

/-- The variants have the inputs, among the first `n`, whose previous outputs are known. -/
def HasInputs (R : Signer) (rawTx : CTransaction) (txVariants : List CTransaction) (n : ℕ) : Prop :=
  ∀ i < n, R.prevPubKeyAt rawTx i ≠ none → ∀ txv ∈ txVariants, i < txv.vin.length

/-- The previous output of the `i`-th input is known, and the script that is written passes. -/
def Verified (R : Signer) (rawTx : CTransaction) (txVariants : List CTransaction) (i : ℕ) : Prop :=
  ∃ prevPubKey ∈ R.prevPubKeyAt rawTx i,
    passes R.params rawTx i (R.mergedScript rawTx txVariants i prevPubKey) prevPubKey

theorem signFirst_succ (n : ℕ) : R.signFirst rawTx txVariants (n + 1) =
    (R.signFirst rawTx txVariants n).bind fun r ↦ R.signRound txVariants r n := by
  rw [signFirst, List.range_succ, List.foldlM_append]
  exact congrArg _ (funext fun r ↦ bind_pure _)

/-- The rounds, where nothing is read outside. -/
theorem signFirst_eq_some {n : ℕ} (hn : n ≤ rawTx.vin.length)
    (hread : R.HasInputs rawTx txVariants n) : ∃ fComplete,
      R.signFirst rawTx txVariants n = some (R.mergedFirst rawTx txVariants n, fComplete) ∧
        (fComplete = true ↔ ∀ i < n, R.Verified rawTx txVariants i) := by
  induction n with
  | zero =>
    refine ⟨true, ?_, iff_of_true rfl nofun⟩
    rw [mergedFirst_zero]
    rfl
  | succ n ih =>
    obtain ⟨fComplete, hrun, hcomplete⟩ := ih (Nat.le_of_succ_le hn) fun i hi ↦
      hread i (hi.trans (Nat.lt_succ_self n))
    have hall : (∀ i < n + 1, R.Verified rawTx txVariants i) ↔
        (∀ i < n, R.Verified rawTx txVariants i) ∧ R.Verified rawTx txVariants n :=
      Nat.forall_lt_succ_right
    rw [signFirst_succ, hrun, Option.bind_some, signRound_eq hn, hall, ← hcomplete]
    rcases hknown : R.prevPubKeyAt rawTx n with - | prevPubKey
    · refine ⟨false, rfl, iff_of_false Bool.false_ne_true ?_⟩
      rintro ⟨-, prevPubKey, hmem, -⟩
      rw [hknown] at hmem
      cases hmem
    · have hhas := hread n (Nat.lt_succ_self n) (by rw [hknown]; exact Option.some_ne_none _)
      dsimp only
      rw [if_pos hhas]
      refine ⟨_, rfl, ?_⟩
      rw [Bool.and_eq_true]
      refine and_congr Iff.rfl ⟨fun hpass ↦ ⟨prevPubKey, hknown, hpass⟩, ?_⟩
      rintro ⟨prevPubKey', hmem, hpass⟩
      rw [hknown] at hmem
      cases hmem
      exact hpass

theorem signFirst_eq_none {n : ℕ} (hn : n ≤ rawTx.vin.length)
    (hread : ¬ R.HasInputs rawTx txVariants n) : R.signFirst rawTx txVariants n = none := by
  induction n with
  | zero => exact absurd nofun hread
  | succ n ih =>
    rw [signFirst_succ]
    by_cases hbefore : R.HasInputs rawTx txVariants n
    · obtain ⟨fComplete, hrun, -⟩ := signFirst_eq_some (Nat.le_of_succ_le hn) hbefore
      rw [hrun, Option.bind_some, signRound_eq hn]
      rcases hknown : R.prevPubKeyAt rawTx n with - | prevPubKey
      · refine absurd (fun i hi hne ↦ ?_) hread
        rcases Nat.lt_succ_iff_lt_or_eq.1 hi with hlt | rfl
        · exact hbefore i hlt hne
        · exact absurd hknown hne
      · dsimp only
        rw [if_neg fun hhas ↦ hread fun i hi hne ↦ ?_]
        rcases Nat.lt_succ_iff_lt_or_eq.1 hi with hlt | rfl
        · exact hbefore i hlt hne
        · exact hhas
    · rw [ih (Nat.le_of_succ_le hn) hbefore]
      rfl

end Signer

/-! ## Parsing -/

section

variable {T : ElementSizes}

theorem length_put_pos (tx : CTransaction) :
    0 < ((CTransaction.implementSerialize T).put tx).length := by
  rw [CTransaction.length_put]
  exact tx.serializeSize_pos

theorem flatMap_put_eq_nil {txs : List CTransaction} :
    txs.flatMap (CTransaction.implementSerialize T).put = [] ↔ txs = [] := by
  constructor
  · intro h
    refine List.eq_nil_iff_forall_not_mem.2 fun tx htx ↦ ?_
    have hnil := List.flatMap_eq_nil_iff.1 h tx htx
    exact (length_put_pos tx).ne' (List.length_eq_zero_iff.2 hnil)
  · rintro rfl
    rfl

theorem readVariants_nil (fuel : ℕ) {txs : List CTransaction} : readVariants T fuel [] = some txs ↔
    [] = txs.flatMap (CTransaction.implementSerialize T).put ∧ ∀ tx ∈ txs, tx.Writable := by
  rw [readVariants.eq_def, eq_comm, Option.some_inj, eq_comm (a := []), flatMap_put_eq_nil]
  refine ⟨fun h ↦ ⟨h, ?_⟩, And.left⟩
  rw [h]
  exact List.forall_mem_nil _

/-- The bytes of some transactions, and nothing else, are read as these transactions. -/
theorem readVariants_eq_some {fuel : ℕ} {ssData : List UInt8} {txs : List CTransaction}
    (hfuel : ssData.length ≤ fuel) : readVariants T fuel ssData = some txs ↔
      ssData = txs.flatMap (CTransaction.implementSerialize T).put ∧ ∀ tx ∈ txs, tx.Writable := by
  induction fuel generalizing ssData txs with
  | zero =>
    obtain rfl := List.length_eq_zero_iff.1 (Nat.le_zero.1 hfuel)
    exact readVariants_nil _
  | succ fuel ih =>
    rcases ssData with - | ⟨b, ssData⟩
    · exact readVariants_nil _
    have hrest : ∀ {tx : CTransaction} {rest : List UInt8},
        b :: ssData = (CTransaction.implementSerialize T).put tx ++ rest → rest.length ≤ fuel := by
      intro tx rest hbytes
      have hlen := congrArg List.length hbytes
      have hpos : 0 < ((CTransaction.implementSerialize T).put tx).length := length_put_pos tx
      rw [List.length_append] at hlen
      omega
    rw [readVariants]
    constructor
    · intro h
      obtain ⟨⟨tx, rest⟩, hget, h⟩ := Option.bind_eq_some_iff.1 h
      obtain ⟨txs, hread, rfl⟩ := Option.map_eq_some_iff.1 h
      obtain ⟨hvalid, hbytes⟩ := CTransaction.canonical_implementSerialize T hget
      obtain ⟨rfl, hall⟩ := (ih (hrest hbytes)).1 hread
      exact ⟨hbytes, List.forall_mem_cons.2 ⟨CTransaction.valid_iff.1 hvalid, hall⟩⟩
    · rintro ⟨hbytes, hwritable⟩
      cases txs with
      | nil => cases hbytes
      | cons tx txs =>
        obtain ⟨htx, hall⟩ := List.forall_mem_cons.1 hwritable
        rw [List.flatMap_cons] at hbytes
        have hread := (ih (hrest hbytes)).2 ⟨rfl, hall⟩
        rw [hbytes, (CTransaction.implementSerialize T).get_put (CTransaction.valid_iff.2 htx),
          Option.bind_some, hread]
        rfl

theorem txVariantsOf_eq_some {txData : List UInt8} {txs : List CTransaction} :
    txVariantsOf T txData = some txs ↔
      txData = txs.flatMap (CTransaction.implementSerialize T).put ∧ ∀ tx ∈ txs, tx.Writable :=
  readVariants_eq_some le_rfl

/-- **No variant is read outside of its inputs** exactly where each of them has the inputs of the
first variant whose previous outputs are known. -/
theorem signrawtransaction_reads_iff (R : Signer) {hexstring : List UInt8} {rawTx : CTransaction}
    {others : List CTransaction}
    (hparse : txVariantsOf T (parseHex hexstring) = some (rawTx :: others)) :
    signrawtransaction T R hexstring ≠ .outside ↔
      ∀ txv ∈ others, ∀ i < rawTx.vin.length, R.prevPubKeyAt rawTx i ≠ none →
        i < txv.vin.length := by
  have hhas : R.HasInputs rawTx (rawTx :: others) rawTx.vin.length ↔
      ∀ txv ∈ others, ∀ i < rawTx.vin.length, R.prevPubKeyAt rawTx i ≠ none →
        i < txv.vin.length :=
    ⟨fun h txv htxv i hi hne ↦ h i hi hne txv (List.mem_cons_of_mem _ htxv),
      fun h i hi hne ↦ List.forall_mem_cons.2 ⟨hi, fun txv htxv ↦ h txv htxv i hi hne⟩⟩
  rw [signrawtransaction, hparse, ← hhas]
  dsimp only
  by_cases hread : R.HasInputs rawTx (rawTx :: others) rawTx.vin.length
  · obtain ⟨fComplete, hrun, -⟩ := Signer.signFirst_eq_some le_rfl hread
    rw [hrun]
    exact iff_of_true nofun hread
  · rw [Signer.signFirst_eq_none le_rfl hread]
    exact iff_of_false (fun h ↦ h rfl) hread

end

/-! ## A transaction without inputs -/

namespace Sample

/-- Every previous output is known, and there are no keys. -/
def rawSigner : Signer where
  params := oneKeyParams
  sign := oneSignature
  mapPrevOut := fun _ ↦ some []
  keystore := oneKeyStore ∅
  nHashType := SIGHASH_ALL
  nTime := 0

/-- A transaction with one input, and another. -/
def hexOf (tx : CTransaction) : List UInt8 :=
  hexStr ([oneTx, tx].flatMap (CTransaction.implementSerialize elementSizes).put)

def noInputs : CTransaction := ⟨1, 0, [], [], 0⟩

theorem writable_oneTx : oneTx.Writable := by
  refine ⟨⟨by decide, by decide⟩, by decide, ⟨by decide, ?_⟩, ⟨by decide, List.forall_mem_nil _⟩,
    by decide⟩
  exact List.forall_mem_singleton.2 ⟨⟨by decide, by decide⟩, by decide, by decide⟩

/-- The same input with a script, and one more. -/
def longerVariant : CTransaction := ⟨1, 0, [⟨⟨1, 0⟩, [OP_1], 0⟩, ⟨⟨2, 1⟩, [], 0⟩], [⟨5, [OP_1]⟩], 0⟩

theorem writable_longerVariant : longerVariant.Writable := by
  refine ⟨⟨by decide, by decide⟩, by decide, ⟨by decide, ?_⟩, ⟨by decide, ?_⟩, by decide⟩
  · exact List.forall_mem_cons.2 ⟨⟨⟨by decide, by decide⟩, by decide, by decide⟩,
      List.forall_mem_singleton.2 ⟨⟨by decide, by decide⟩, by decide, by decide⟩⟩
  · exact List.forall_mem_singleton.2 ⟨⟨by decide, by decide⟩, by decide⟩

theorem writable_noInputs : noInputs.Writable :=
  ⟨⟨by decide, by decide⟩, by decide, ⟨by decide, List.forall_mem_nil _⟩,
    ⟨by decide, List.forall_mem_nil _⟩, by decide⟩

theorem txVariantsOf_hexOf {tx : CTransaction} (htx : tx.Writable) :
    txVariantsOf elementSizes (parseHex (hexOf tx)) = some [oneTx, tx] := by
  rw [hexOf, parseHex_hexStr, txVariantsOf_eq_some]
  exact ⟨rfl, List.forall_mem_cons.2 ⟨writable_oneTx, List.forall_mem_singleton.2 htx⟩⟩

end Sample

/-- The second variant has more inputs than the first. -/
theorem signrawtransaction_reads_iff_sample :
    signrawtransaction Sample.elementSizes Sample.rawSigner (Sample.hexOf Sample.longerVariant) ≠
      .outside := by
  refine (signrawtransaction_reads_iff Sample.rawSigner
    (Sample.txVariantsOf_hexOf Sample.writable_longerVariant)).2 fun txv htxv i hi _ ↦ ?_
  rw [List.mem_singleton.1 htxv]
  exact hi.trans one_lt_two

/-- The second variant has no input, and its first one is read. -/
theorem not_signrawtransaction_reads :
    txVariantsOf Sample.elementSizes (parseHex (Sample.hexOf Sample.noInputs)) =
        some [Sample.oneTx, Sample.noInputs] ∧
      signrawtransaction Sample.elementSizes Sample.rawSigner (Sample.hexOf Sample.noInputs) =
        .outside := by
  have hparse := Sample.txVariantsOf_hexOf Sample.writable_noInputs
  refine ⟨hparse, ?_⟩
  have hshort : ¬ Sample.rawSigner.HasInputs Sample.oneTx [Sample.oneTx, Sample.noInputs]
      Sample.oneTx.vin.length := fun h ↦
    absurd (h 0 zero_lt_one (Option.some_ne_none _) Sample.noInputs (by simp)) (by decide)
  rw [signrawtransaction, hparse]
  dsimp only
  rw [Signer.signFirst_eq_none le_rfl hshort]

end Bws
