import Bws.ScriptRun
import Bws.Standard

/-!
# Signing what is ours

`IsMine` says of an output that the key store can spend it, and `SignSignature` makes the script
that does.  The two take scripts apart with the same `Solver`, but `IsMine` goes on through redeem
scripts that are pay-to-script-hash themselves, where `SignSignature` and `VerifyScript` unwrap one
level.  That is the only difference: with keys that sign, an output that is ours is signed unless
its redeem script is pay-to-script-hash again (`signs_iff_not_nested`).

What a key makes of a hash is a parameter.
-/

namespace Bws

open Checked

/-! ## Signing -/

section

variable (S : SolverParams) (sign : CKey → UInt256 → Option valtype) (keystore : CKeyStore)

/-- `Sign1`, after what is in `scriptSigRet` -/
def sign1 (address : CKeyID) (hash : UInt256) (nHashType : ℕ) (scriptSigRet : CScript) :
    CScript × Bool :=
  match (keystore.getKey address).bind fun key ↦ sign key hash with
  | none => (scriptSigRet, false)
  | some vchSig => (scriptSigRet ++ pushData (vchSig ++ [UInt8.ofNat nHashType]), true)

/-- The loop of `SignN`: the script, and how many signatures it has. -/
def signKeys (hash : UInt256) (nHashType nRequired : ℕ) :
    CScript → ℕ → List valtype → CScript × ℕ
  | scriptSigRet, nSigned, [] => (scriptSigRet, nSigned)
  | scriptSigRet, nSigned, pubkey :: multisigdata =>
    if nSigned < nRequired then
      match sign1 sign keystore (keyIDOf S.crypto pubkey) hash nHashType scriptSigRet with
      | (scriptSigRet, true) =>
        signKeys hash nHashType nRequired scriptSigRet (nSigned + 1) multisigdata
      | (scriptSigRet, false) => signKeys hash nHashType nRequired scriptSigRet nSigned multisigdata
    else (scriptSigRet, nSigned)

/-- `SignN` -/
def signN (multisigdata : List valtype) (hash : UInt256) (nHashType : ℕ) (scriptSigRet : CScript) :
    CScript × Bool :=
  let nRequired := firstByte (multisigdata.headD [])
  let (scriptSigRet, nSigned) :=
    signKeys S sign keystore hash nHashType nRequired scriptSigRet 0 multisigdata.tail.dropLast
  (scriptSigRet, nSigned = nRequired)

/-- `Solver(keystore, scriptPubKey, hash, nHashType, scriptSigRet, whichTypeRet)` -/
def solverSign (scriptPubKey : CScript) (hash : UInt256) (nHashType : ℕ) :
    CScript × txnouttype × Bool :=
  match solver S.nMaxDatacarrierBytes scriptPubKey with
  | none => ([], .TX_NONSTANDARD, false)
  | some (whichType, vSolutions) =>
    match whichType with
    | .TX_NONSTANDARD | .TX_NULL_DATA => ([], whichType, false)
    | .TX_PUBKEY =>
      let (scriptSigRet, ok) :=
        sign1 sign keystore (keyIDOf S.crypto (vSolutions.headD [])) hash nHashType []
      (scriptSigRet, whichType, ok)
    | .TX_PUBKEYHASH =>
      let keyID := uint160 (vSolutions.headD [])
      match sign1 sign keystore keyID hash nHashType [] with
      | (scriptSigRet, false) => (scriptSigRet, whichType, false)
      | (scriptSigRet, true) =>
        (scriptSigRet ++ pushData ((keystore.getPubKey keyID).getD []), whichType, true)
    | .TX_SCRIPTHASH =>
      match keystore.getCScript (uint160 (vSolutions.headD [])) with
      | none => ([], whichType, false)
      | some script => (script, whichType, true)
    | .TX_MULTISIG =>
      -- the byte is a workaround for the element too many that is taken from the stack
      let (scriptSigRet, ok) := signN S sign keystore vSolutions hash nHashType [OP_0]
      (scriptSigRet, whichType, ok)

/-- `txTo.vin[nIn].scriptSig = scriptSig` -/
def CTransaction.setScriptSig (txTo : CTransaction) (nIn : ℕ) (scriptSig : CScript) :
    CTransaction :=
  { txTo with vin := txTo.vin.modify nIn fun txin ↦ { txin with scriptSig } }

/-- The end of `SignSignature`: test the solution. -/
def testSolution (fromPubKey : CScript) (txTo : CTransaction) (nIn : ℕ) (scriptSig : CScript) :
    Bool :=
  verifyScript S.crypto ⟨txTo.setScriptSig nIn scriptSig, nIn, STANDARD_SCRIPT_VERIFY_FLAGS, 0⟩
    scriptSig fromPubKey

/-- `SignSignature`, with the transaction that it leaves. -/
def signSignature (fromPubKey : CScript) (txTo : CTransaction) (nIn nHashType : ℕ) :
    CTransaction × Bool :=
  let hash := signatureHash S.crypto fromPubKey txTo nIn nHashType
  match solverSign S sign keystore fromPubKey hash nHashType with
  | (scriptSig, _, false) => (txTo.setScriptSig nIn scriptSig, false)
  | (scriptSig, whichType, true) =>
    let txTo := txTo.setScriptSig nIn scriptSig
    if whichType = .TX_SCRIPTHASH then
      -- the script that must be evaluated; it follows its own signatures
      let subscript := scriptSig
      let hash2 := signatureHash S.crypto subscript txTo nIn nHashType
      let (scriptSig, subType, solved) := solverSign S sign keystore subscript hash2 nHashType
      let fSolved := solved && decide (subType ≠ .TX_SCRIPTHASH)
      let scriptSig := scriptSig ++ pushData subscript
      (txTo.setScriptSig nIn scriptSig, fSolved && testSolution S fromPubKey txTo nIn scriptSig)
    else (txTo, testSolution S fromPubKey txTo nIn scriptSig)

/-! ## Keys that sign -/

/-- The private key signs for the public key: whatever it makes of a hash has the encoding that the
interpreter asks for and verifies, and is not the hash of the public key. -/
structure SignsFor (key : CKey) (vch : valtype) : Prop where
  encoded : checkPubKeyEncoding vch
  signs : ∀ hash, ∃ vchSig, sign key hash = some vchSig ∧ S.crypto.verify vch hash vchSig = true ∧
    ∀ b, isLowDERSignature (vchSig ++ [b]) true ∧ vchSig ++ [b] ≠ S.crypto.hash160 vch

/-- A key store whose keys can all be read.  Keys and scripts are stored under their hashes, which
no other key has, and `AddCScript` has refused the scripts that are too long to be redeemed. -/
structure CKeyStore.Readable : Prop where
  getKey : ∀ id, keystore.haveKey id = true → ∃ key vch, keystore.getKey id = some key ∧
    keystore.getPubKey id = some vch ∧ keyIDOf S.crypto vch = id ∧ SignsFor S sign key vch
  unique : ∀ id vch vch', keystore.getPubKey id = some vch → keyIDOf S.crypto vch' = id → vch' = vch
  script : ∀ id script, keystore.getCScript id = some script →
    scriptIDOf S.crypto script = id ∧ script.length ≤ MAX_SCRIPT_ELEMENT_SIZE

/-- A pay-to-script-hash output with a stored redeem script that is pay-to-script-hash again. -/
def Nested (scriptPubKey : CScript) : Prop :=
  isPayToScriptHash scriptPubKey ∧ ∃ subscript,
    keystore.getCScript (uint160 ((scriptPubKey.drop 2).take 20)) = some subscript ∧
      isPayToScriptHash subscript

end

/-! ## The hash that is signed -/

theorem CTransaction.setScriptSig_setScriptSig (txTo : CTransaction) (nIn : ℕ)
    (scriptSig scriptSig' : CScript) :
    (txTo.setScriptSig nIn scriptSig).setScriptSig nIn scriptSig' =
      txTo.setScriptSig nIn scriptSig' := by
  rw [setScriptSig, setScriptSig, setScriptSig, List.modify_modify_eq]
  rfl

/-- The transaction without the scripts of its inputs. -/
def CTransaction.blank (txTo : CTransaction) : CTransaction :=
  { txTo with vin := txTo.vin.map fun txin ↦ { txin with scriptSig := [] } }

theorem getElem?_setScriptSig (txTo : CTransaction) (nIn i : ℕ) (scriptSig : CScript) :
    (txTo.setScriptSig nIn scriptSig).vin[i]? =
      (txTo.vin[i]?).map fun txin ↦ if i = nIn then { txin with scriptSig } else txin := by
  rw [CTransaction.setScriptSig, List.getElem?_modify]
  by_cases hi : nIn = i
  · simp [hi]
  · simp [hi, Ne.symm hi]

theorem blank_setScriptSig (txTo : CTransaction) (nIn : ℕ) (scriptSig : CScript) :
    (txTo.setScriptSig nIn scriptSig).blank = txTo.blank := by
  have hvin : (txTo.setScriptSig nIn scriptSig).blank.vin = txTo.blank.vin := by
    refine List.ext_getElem? fun i ↦ ?_
    rw [CTransaction.blank, CTransaction.blank, List.getElem?_map, List.getElem?_map,
      getElem?_setScriptSig, Option.map_map]
    refine congrArg (Option.map · _) (funext fun txin ↦ ?_)
    rw [Function.comp_apply]
    split_ifs <;> rfl
  exact congrArg (fun vin ↦ { txTo with vin }) hvin

theorem length_blank (txTo : CTransaction) : txTo.blank.vin.length = txTo.vin.length :=
  List.length_map _

theorem hashedInputs_blank (scriptCode : CScript) (nIn : ℕ) (fUpdate : Bool) (vin : List CTxIn) :
    hashedInputs scriptCode nIn fUpdate (vin.map fun txin ↦ { txin with scriptSig := [] }) =
      hashedInputs scriptCode nIn fUpdate vin := by
  refine List.ext_getElem? fun i ↦ ?_
  rw [hashedInputs, hashedInputs, List.getElem?_mapIdx, List.getElem?_mapIdx, List.getElem?_map,
    Option.map_map]
  rfl

theorem signatureHash_blank {C : Crypto} {txTo : CTransaction} {nIn : ℕ} (scriptCode : CScript) (nHashType : ℕ) :
    signatureHash C scriptCode txTo.blank nIn nHashType =
      signatureHash C scriptCode txTo nIn nHashType := by
  have hinputs : ∀ code f,
      hashedInputs code nIn f txTo.blank.vin = hashedInputs code nIn f txTo.vin :=
    fun code f ↦ hashedInputs_blank code nIn f txTo.vin
  rw [signatureHash, signatureHash, length_blank]
  simp only [hinputs]
  rfl

/-- The scripts of the inputs do not count in the hash for the input that is signed. -/
theorem signatureHash_setScriptSig (C : Crypto) (scriptCode : CScript) (txTo : CTransaction)
    (nIn nHashType : ℕ) (scriptSig : CScript) :
    signatureHash C scriptCode (txTo.setScriptSig nIn scriptSig) nIn nHashType =
      signatureHash C scriptCode txTo nIn nHashType := by
  rw [← signatureHash_blank, blank_setScriptSig, signatureHash_blank]

section

variable {S : SolverParams} {sign : CKey → UInt256 → Option valtype} {keystore : CKeyStore}
  {C : Crypto} {c : ScriptContext}

theorem isValidPubKey_of_encoded {vch : valtype} (h : checkPubKeyEncoding vch) :
    isValidPubKey vch := by
  obtain ⟨hlen, h⟩ := h
  cases vch with
  | nil => exact absurd hlen (by decide)
  | cons b vch =>
    simp only [List.getD_cons_zero] at h
    unfold isValidPubKey
    dsimp only
    split_ifs at h with h₁ h₂
    · rw [if_neg (by rw [h₁]; decide), if_pos (.inl h₁)]
      exact h
    · rw [if_pos h₂]
      exact h

/-- What a key makes of the hash of a script, with the hash type after it. -/
structure SignatureFor (S : SolverParams) (txTo : CTransaction) (nIn : ℕ) (scriptCode : CScript)
    (vch vchSig : valtype) : Prop where
  encoded : isLowDERSignature vchSig true
  ne_hash : vchSig ≠ S.crypto.hash160 vch
  signed : ∀ scriptSig, SignedBy S.crypto
    ⟨txTo.setScriptSig nIn scriptSig, nIn, STANDARD_SCRIPT_VERIFY_FLAGS, 0⟩ scriptCode vch vchSig

theorem SignsFor.signatureFor {key : CKey} {vch : valtype} (h : SignsFor S sign key vch)
    (scriptCode : CScript) (txTo : CTransaction) (nIn : ℕ) {nHashType : ℕ}
    (htype : nHashType < 256) :
    ∃ vchSig, sign key (signatureHash S.crypto scriptCode txTo nIn nHashType) = some vchSig ∧
      SignatureFor S txTo nIn scriptCode vch (vchSig ++ [UInt8.ofNat nHashType]) := by
  obtain ⟨vchSig, hsign, hverify, hencoded⟩ :=
    h.signs (signatureHash S.crypto scriptCode txTo nIn nHashType)
  obtain ⟨hder, hne⟩ := hencoded (UInt8.ofNat nHashType)
  have hflag : hasFlag STANDARD_SCRIPT_VERIFY_FLAGS SCRIPT_VERIFY_FIX_HASHTYPE := by decide
  refine ⟨vchSig, hsign, hder, hne, fun scriptSig ↦ ⟨.inr ⟨hder, .inl hflag⟩, h.encoded, ?_⟩⟩
  have hbyte : (UInt8.ofNat nHashType).toNat = nHashType :=
    UInt8.toNat_ofNat_of_lt' (by simpa [UInt8.size] using htype)
  rw [checkSig, List.getLast?_append_of_ne_nil _ (List.cons_ne_nil _ _), List.getLast?_singleton]
  dsimp only
  rw [if_pos rfl, hbyte, signatureHash_setScriptSig, List.dropLast_concat, hverify,
    decide_eq_true ⟨isValidPubKey_of_encoded h.encoded, rfl⟩]
  rfl

/-- A signature is not too long, and does not start like a key. -/
theorem isLowDERSignature_bounds {vchSig : valtype} (h : isLowDERSignature vchSig true) :
    vchSig.length ≤ 73 ∧ vchSig.getD 0 0 = 0x30 ∧ vchSig ≠ [] := by
  obtain ⟨⟨hlow, hhigh, hfirst, -⟩, -⟩ := h
  refine ⟨hhigh, hfirst, ?_⟩
  rintro rfl
  exact absurd hlow (by decide)

theorem ne_of_encoded {vch vchSig : valtype} (h : checkPubKeyEncoding vch)
    (hsig : isLowDERSignature vchSig true) : vch ≠ vchSig := by
  rintro rfl
  obtain ⟨-, hfirst, -⟩ := isLowDERSignature_bounds hsig
  obtain ⟨-, h⟩ := h
  rw [hfirst, if_neg (by decide), if_neg (by decide)] at h
  exact h

theorem SignedBy.isLowDERSignature {C : Crypto} {c : ScriptContext} {scriptCode : CScript}
    {vch vchSig : valtype} (h : SignedBy C c scriptCode vch vchSig) :
    Bws.isLowDERSignature vchSig true := by
  rcases h.encodedSig with ⟨-, rfl⟩ | hencoded
  · exact absurd h.valid Bool.false_ne_true
  · exact hencoded.1

/-! ## What the templates say -/

theorem matchTemplate_nil {n : ℕ} {script : CScript} {vSolutions : List valtype}
    (h : matchTemplate n [] script = some vSolutions) : script = [] ∧ vSolutions = [] := by
  cases script with
  | nil => exact ⟨rfl, (Option.some.inj h).symm⟩
  | cons b script => cases h

theorem matchTemplate_cons {n : ℕ} {opcode2 : UInt8} {template : List UInt8} {script : CScript}
    {vSolutions : List valtype} (hop : opcode2 ≠ OP_PUBKEYS)
    (h : matchTemplate n (opcode2 :: template) script = some vSolutions) :
    ∃ opcode1 vch1 pc1 sol rest, getOp script = some (opcode1, vch1, pc1) ∧
      matchOp n opcode2 opcode1 vch1 = some sol ∧ matchTemplate n template pc1 = some rest ∧
        vSolutions = sol ++ rest := by
  rw [matchTemplate] at h
  split at h
  · cases h
  · rename_i opcode1 vch1 pc1 hget
    rw [if_neg hop] at h
    split at h
    · cases h
    · rename_i sol hmatch
      obtain ⟨rest, hrest, rfl⟩ := Option.map_eq_some_iff.mp h
      exact ⟨opcode1, vch1, pc1, sol, rest, hget, hmatch, hrest, rfl⟩

/-- An opcode that stands for itself. -/
theorem matchOp_self {n : ℕ} {opcode2 opcode1 : UInt8} {vch1 : valtype} {sol : List valtype}
    (hop : opcode2 ∉ [OP_PUBKEY, OP_PUBKEYHASH, OP_SMALLINTEGER, OP_SMALLDATA])
    (h : matchOp n opcode2 opcode1 vch1 = some sol) : opcode1 = opcode2 ∧ vch1 = [] ∧ sol = [] := by
  simp only [List.mem_cons, List.not_mem_nil, or_false, not_or] at hop
  rw [matchOp, if_neg hop.1, if_neg hop.2.1, if_neg hop.2.2.1, if_neg hop.2.2.2] at h
  split_ifs at h with hne
  simp only [not_or, not_not] at hne
  exact ⟨hne.1, hne.2, (Option.some.inj h).symm⟩

theorem matchOp_pubkey {n : ℕ} {opcode1 : UInt8} {vch1 : valtype} {sol : List valtype}
    (h : matchOp n OP_PUBKEY opcode1 vch1 = some sol) : isKeySize vch1 ∧ sol = [vch1] := by
  rw [matchOp, if_pos rfl] at h
  split_ifs at h with hsize
  exact ⟨hsize, (Option.some.inj h).symm⟩

theorem matchOp_pubkeyhash {n : ℕ} {opcode1 : UInt8} {vch1 : valtype} {sol : List valtype}
    (h : matchOp n OP_PUBKEYHASH opcode1 vch1 = some sol) : vch1.length = 20 ∧ sol = [vch1] := by
  rw [matchOp, if_neg (by decide), if_pos rfl] at h
  split_ifs at h with hsize
  exact ⟨hsize, (Option.some.inj h).symm⟩

theorem matchOp_smallinteger {n : ℕ} {opcode1 : UInt8} {vch1 : valtype} {sol : List valtype}
    (h : matchOp n OP_SMALLINTEGER opcode1 vch1 = some sol) :
    (opcode1 = OP_0 ∨ OP_1 ≤ opcode1 ∧ opcode1 ≤ OP_16) ∧
      sol = [[UInt8.ofNat (decodeOP_N opcode1)]] := by
  rw [matchOp, if_neg (by decide), if_neg (by decide), if_pos rfl] at h
  split_ifs at h with hsmall
  exact ⟨hsmall, (Option.some.inj h).symm⟩

/-- Only instructions that push bytes have any. -/
theorem le_of_getOp {script pc : CScript} {opcode : UInt8} {vch : valtype}
    (h : getOp script = some (opcode, vch, pc)) (hne : vch ≠ []) : opcode ≤ OP_PUSHDATA4 :=
  UInt8.not_lt.mp fun hlt ↦ hne (vch_of_getOp h hlt)

/-- The keys of a multisig script, and the instruction after them. -/
theorem takePubKeys_spec {fuel : ℕ} : ∀ {script pc pc' : CScript} {opcode opcode' : UInt8}
    {vch vch' : valtype} {keys : List valtype}, getOp script = some (opcode, vch, pc) →
      takePubKeys fuel opcode vch pc = (keys, opcode', vch', pc') → opcode' ≠ OP_INVALIDOPCODE →
        ∃ rest, Pushes script keys rest ∧ getOp rest = some (opcode', vch', pc') ∧
          ∀ key ∈ keys, isKeySize key := by
  induction fuel with
  | zero =>
    intro script pc pc' opcode opcode' vch vch' keys hget htake _
    cases htake
    exact ⟨script, .nil script, hget, fun _ h ↦ absurd h List.not_mem_nil⟩
  | succ fuel ih =>
    intro script pc pc' opcode opcode' vch vch' keys hget htake hop
    rw [takePubKeys] at htake
    split_ifs at htake with hsize
    · have hne : vch ≠ [] := by
        rintro rfl
        exact absurd hsize.1 (by decide)
      split at htake
      · cases htake
        exact absurd rfl hop
      · rename_i opcode₁ vch₁ pc₁ hget₁
        obtain ⟨keys₁, ⟨op₁, v₁, p₁⟩, htake₁⟩ : ∃ keys₁ r, takePubKeys fuel opcode₁ vch₁ pc₁ =
          (keys₁, r) := ⟨_, _, rfl⟩
        rw [htake₁] at htake
        cases htake
        obtain ⟨rest, hpush, hrest, hkeys⟩ := ih hget₁ htake₁ hop
        exact ⟨rest, .cons hget (le_of_getOp hget hne) hpush, hrest,
          List.forall_mem_cons.mpr ⟨hsize, hkeys⟩⟩
    · cases htake
      exact ⟨script, .nil script, hget, fun _ h ↦ absurd h List.not_mem_nil⟩

/-- A multisig script, instruction by instruction, and what is read off it. -/
structure MultisigOf (script : CScript) (vSolutions keys : List valtype) (opm opn : UInt8) :
    Prop where
  reads : ∃ p₁ p₂ p₃, getOp script = some (opm, [], p₁) ∧ Pushes p₁ keys p₂ ∧
    getOp p₂ = some (opn, [], p₃) ∧ getOp p₃ = some (OP_CHECKMULTISIG, [], [])
  required : OP_1 ≤ opm ∧ opm ≤ OP_16
  total : OP_1 ≤ opn ∧ opn ≤ OP_16
  solutions : vSolutions =
    [UInt8.ofNat (decodeOP_N opm)] :: (keys ++ [[UInt8.ofNat (decodeOP_N opn)]])
  le : decodeOP_N opm ≤ keys.length
  length : keys.length = decodeOP_N opn

theorem matchTemplate_pubkeys {n : ℕ} {opcode2 : UInt8} {template : List UInt8} {script : CScript}
    {vSolutions : List valtype}
    (h : matchTemplate n (OP_PUBKEYS :: opcode2 :: template) script = some vSolutions)
    (hop : ∀ opcode vch sol, matchOp n opcode2 opcode vch = some sol → opcode ≠ OP_INVALIDOPCODE) :
    ∃ keys rest opcode vch pc sol sols, Pushes script keys rest ∧
      getOp rest = some (opcode, vch, pc) ∧ matchOp n opcode2 opcode vch = some sol ∧
        matchTemplate n template pc = some sols ∧ vSolutions = keys ++ sol ++ sols := by
  rw [matchTemplate] at h
  split at h
  · cases h
  · rename_i opcode₁ vch₁ pc₁ hget
    rw [if_pos rfl] at h
    dsimp only at h
    obtain ⟨keys, opcode, vch, pc, htake⟩ :
        ∃ keys opcode vch pc,
          takePubKeys (pc₁.length + 1) opcode₁ vch₁ pc₁ = (keys, opcode, vch, pc) :=
      ⟨_, _, _, _, rfl⟩
    rw [htake] at h
    dsimp only at h
    split at h
    · cases h
    · rename_i sol hmatch
      obtain ⟨sols, hsols, rfl⟩ := Option.map_eq_some_iff.mp h
      obtain ⟨rest, hpush, hrest, -⟩ := takePubKeys_spec hget htake (hop _ _ _ hmatch)
      exact ⟨keys, rest, opcode, vch, pc, sol, sols, hpush, hrest, hmatch, hsols, rfl⟩

theorem firstByte_decodeOP_N (opcode : UInt8) :
    firstByte [UInt8.ofNat (decodeOP_N opcode)] = decodeOP_N opcode := by
  have hlt : decodeOP_N opcode < 256 := by
    have hnat := opcode.toNat_lt
    unfold decodeOP_N
    split_ifs
    · decide
    · omega
  exact UInt8.toNat_ofNat_of_lt' hlt

theorem multisigOf_of_matchTemplate {n : ℕ} {script : CScript} {vSolutions : List valtype}
    (h : matchTemplate n [OP_SMALLINTEGER, OP_PUBKEYS, OP_SMALLINTEGER, OP_CHECKMULTISIG] script =
      some vSolutions) (hmulti : isMultisig vSolutions) :
    ∃ keys opm opn, MultisigOf script vSolutions keys opm opn := by
  have hhigh : ∀ {opcode : UInt8}, OP_1 ≤ opcode → OP_PUSHDATA4 < opcode := fun hle ↦
    UInt8.lt_of_lt_of_le (by decide) hle
  obtain ⟨opm, vchm, p₁, solm, sols₁, hgetm, hm, h₁, rfl⟩ := matchTemplate_cons (by decide) h
  have hvalid : ∀ opcode vch sol, matchOp n OP_SMALLINTEGER opcode vch = some sol →
      opcode ≠ OP_INVALIDOPCODE := by
    rintro _ vch sol hmatch rfl
    exact absurd (matchOp_smallinteger hmatch).1 (by decide)
  obtain ⟨keys, p₂, opn, vchn, p₃, soln, sols₂, hpush, hgetn, hn, h₂, rfl⟩ :=
    matchTemplate_pubkeys h₁ hvalid
  obtain ⟨opc, vchc, p₄, solc, sols₃, hgetc, hc, h₃, rfl⟩ := matchTemplate_cons (by decide) h₂
  obtain ⟨rfl, rfl⟩ := matchTemplate_nil h₃
  obtain ⟨rfl, rfl, rfl⟩ := matchOp_self (by decide) hc
  obtain ⟨hopm, rfl⟩ := matchOp_smallinteger hm
  obtain ⟨hopn, rfl⟩ := matchOp_smallinteger hn
  rw [List.append_nil, List.append_nil] at hmulti ⊢
  obtain ⟨hm₁, hn₁, hle, hlen⟩ := hmulti
  have hlast : ([[UInt8.ofNat (decodeOP_N opm)]] ++
      (keys ++ [[UInt8.ofNat (decodeOP_N opn)]])).getLastD [] =
      [UInt8.ofNat (decodeOP_N opn)] := by
    rw [← List.append_assoc, List.getLastD_concat]
  rw [hlast, firstByte_decodeOP_N] at hn₁ hle hlen
  rw [List.singleton_append, List.headD_cons, firstByte_decodeOP_N] at hm₁ hle
  have hcount : keys.length = decodeOP_N opn := by
    rw [List.length_append, List.length_append, List.length_singleton, List.length_singleton]
      at hlen
    omega
  have hposm : OP_1 ≤ opm ∧ opm ≤ OP_16 := hopm.resolve_left fun heq ↦ by
    rw [heq] at hm₁
    exact absurd hm₁ (by decide)
  have hposn : OP_1 ≤ opn ∧ opn ≤ OP_16 := hopn.resolve_left fun heq ↦ by
    rw [heq] at hn₁
    exact absurd hn₁ (by decide)
  cases vch_of_getOp hgetm (hhigh hposm.1)
  cases vch_of_getOp hgetn (hhigh hposn.1)
  exact ⟨keys, opm, opn, ⟨p₁, p₂, p₃, hgetm, hpush, hgetn, hgetc⟩, hposm, hposn, rfl, by omega,
    hcount⟩

/-- A script that is not pay-to-script-hash is solved with one of the templates. -/
theorem mem_mTemplates_of_solver {n : ℕ} {script : CScript} {whichType : txnouttype}
    {vSolutions : List valtype} (hp2sh : ¬ isPayToScriptHash script)
    (h : solver n script = some (whichType, vSolutions)) :
    ∃ template, (whichType, template) ∈ mTemplates ∧
      matchTemplate n template script = some vSolutions ∧
        (whichType = .TX_MULTISIG → isMultisig vSolutions) := by
  have hscan : ∀ {templates}, scanTemplates n script templates = some (whichType, vSolutions) →
      ∃ template, (whichType, template) ∈ templates ∧
        matchTemplate n template script = some vSolutions ∧
          (whichType = .TX_MULTISIG → isMultisig vSolutions) := by
    intro templates
    induction templates with
    | nil =>
      intro h
      cases h
    | cons first templates ih =>
      obtain ⟨typeRet, template⟩ := first
      intro h
      rw [scanTemplates] at h
      split at h
      · obtain ⟨template', hmem, hrest⟩ := ih h
        exact ⟨template', List.mem_cons_of_mem _ hmem, hrest⟩
      · rename_i sols hmatch
        split_ifs at h with hbad
        cases h
        exact ⟨template, List.mem_cons_self, hmatch, fun heq ↦
          not_not.mp fun hnot ↦ hbad ⟨heq, hnot⟩⟩
  rw [solver, if_neg hp2sh] at h
  exact hscan h

/-! ## Signing with a key of the store -/

section

variable {txTo : CTransaction} {nIn nHashType : ℕ} {scriptCode : CScript}

theorem sign1_of_haveKey (hstore : keystore.Readable S sign) (htype : nHashType < 256)
    {id : CKeyID} (h : keystore.haveKey id = true) : ∃ vch vchSig,
      keystore.getPubKey id = some vch ∧ keyIDOf S.crypto vch = id ∧ checkPubKeyEncoding vch ∧
        SignatureFor S txTo nIn scriptCode vch vchSig ∧ ∀ scriptSigRet,
          sign1 sign keystore id (signatureHash S.crypto scriptCode txTo nIn nHashType) nHashType
            scriptSigRet = (scriptSigRet ++ pushData vchSig, true) := by
  obtain ⟨key, vch, hkey, hpub, hid, hsigns⟩ := hstore.getKey id h
  obtain ⟨vchSig, hsign, hsignature⟩ := hsigns.signatureFor scriptCode txTo nIn htype
  refine ⟨vch, vchSig ++ [UInt8.ofNat nHashType], hpub, hid, hsigns.encoded, hsignature,
    fun scriptSigRet ↦ ?_⟩
  rw [sign1, hkey, Option.bind_some, hsign]

/-- The store has the key with this public key. -/
theorem sign1_of_pubkey (hstore : keystore.Readable S sign) (htype : nHashType < 256)
    {vch : valtype} (h : keystore.haveKey (keyIDOf S.crypto vch) = true) : ∃ vchSig,
      SignatureFor S txTo nIn scriptCode vch vchSig ∧ ∀ scriptSigRet,
        sign1 sign keystore (keyIDOf S.crypto vch)
          (signatureHash S.crypto scriptCode txTo nIn nHashType) nHashType scriptSigRet =
            (scriptSigRet ++ pushData vchSig, true) := by
  obtain ⟨vch', vchSig, hpub, -, -, hsignature, hsign⟩ := sign1_of_haveKey hstore htype h
  cases hstore.unique _ _ _ hpub rfl
  exact ⟨vchSig, hsignature, hsign⟩

theorem encoded_of_haveKey (hstore : keystore.Readable S sign) {vch : valtype}
    (h : keystore.haveKey (keyIDOf S.crypto vch) = true) : checkPubKeyEncoding vch := by
  obtain ⟨key, vch', -, hpub, -, hsigns⟩ := hstore.getKey _ h
  cases hstore.unique _ _ _ hpub rfl
  exact hsigns.encoded

theorem pushAll_cons (vch : valtype) (vchs : List valtype) :
    pushAll (vch :: vchs) = pushData vch ++ pushAll vchs := List.flatMap_cons

/-- The first keys of a multisig script sign. -/
theorem signKeys_eq (hstore : keystore.Readable S sign) (htype : nHashType < 256) {nRequired : ℕ} :
    ∀ {keys : List valtype} {scriptSigRet : CScript} {nSigned : ℕ},
      (∀ key ∈ keys, keystore.haveKey (keyIDOf S.crypto key) = true) →
        nSigned ≤ nRequired → nRequired ≤ nSigned + keys.length → ∃ sigs,
          List.Forall₂ (SignatureFor S txTo nIn scriptCode) (keys.take (nRequired - nSigned)) sigs ∧
            signKeys S sign keystore (signatureHash S.crypto scriptCode txTo nIn nHashType)
              nHashType nRequired scriptSigRet nSigned keys =
              (scriptSigRet ++ pushAll sigs, nRequired) := by
  intro keys
  induction keys with
  | nil =>
    intro scriptSigRet nSigned _ hle hge
    obtain rfl : nSigned = nRequired := by
      rw [List.length_nil] at hge
      omega
    refine ⟨[], by rw [List.take_nil]; exact .nil, ?_⟩
    rw [signKeys, pushAll, List.flatMap_nil, List.append_nil]
  | cons key keys ih =>
    intro scriptSigRet nSigned hkeys hle hge
    rw [List.forall_mem_cons] at hkeys
    rw [List.length_cons] at hge
    by_cases hlt : nSigned < nRequired
    · obtain ⟨vchSig, hsignature, hsign⟩ := sign1_of_pubkey hstore htype hkeys.1
      obtain ⟨sigs, hsigs, hrest⟩ :=
        @ih (scriptSigRet ++ pushData vchSig) (nSigned + 1) hkeys.2 hlt (by omega)
      refine ⟨vchSig :: sigs, ?_, ?_⟩
      · obtain ⟨n, hn⟩ : ∃ n, nRequired - nSigned = n + 1 := ⟨nRequired - nSigned - 1, by omega⟩
        obtain rfl : nRequired - (nSigned + 1) = n := by omega
        rw [hn, List.take_succ_cons]
        exact .cons hsignature hsigs
      · rw [signKeys, if_pos hlt, hsign]
        dsimp only
        rw [hrest, pushAll_cons, List.append_assoc]
    · obtain rfl : nSigned = nRequired := by omega
      refine ⟨[], ?_, ?_⟩
      · rw [Nat.sub_self, List.take_zero]
        exact .nil
      · rw [signKeys, if_neg hlt, pushAll, List.flatMap_nil, List.append_nil]

/-! ## Running what is signed -/

/-- The byte strings make the script true, whatever the input that is signed has for a script. -/
structure Unlocks (S : SolverParams) (txTo : CTransaction) (nIn : ℕ) (script : CScript)
    (args : List valtype) : Prop where
  few : args.length ≤ 20
  short : ∀ arg ∈ args, arg.length ≤ 73
  run : ∀ scriptSig, leavesTrue (evalScript S.crypto
    ⟨txTo.setScriptSig nIn scriptSig, nIn, STANDARD_SCRIPT_VERIFY_FLAGS, 0⟩ script args.reverse)

theorem length_le_of_encoded {vch : valtype} (h : checkPubKeyEncoding vch) : vch.length ≤ 65 := by
  obtain ⟨-, h⟩ := h
  split_ifs at h <;> omega

theorem SignatureFor.length_le {vch vchSig : valtype}
    (h : SignatureFor S txTo nIn scriptCode vch vchSig) : vchSig.length ≤ 73 :=
  (isLowDERSignature_bounds h.encoded).1

/-- A signature for the key of a script makes it true. -/
theorem leavesTrue_pubkey {script pc : CScript} {opcode : UInt8} {vch vchSig : valtype}
    (hget : getOp script = some (opcode, vch, pc)) (hcheck : getOp pc = some (OP_CHECKSIG, [], []))
    (hencoded : isLowDERSignature vchSig true) (hsig : SignedBy C c script vch vchSig) :
    leavesTrue (evalScript C c script [vchSig]) := by
  have hkey := length_le_of_encoded hsig.encodedKey
  obtain ⟨hbound, -, hnil⟩ := isLowDERSignature_bounds hencoded
  have hlen : vchSig.length ≤ MAX_SCRIPT_ELEMENT_SIZE := hbound.trans (by decide)
  have hop : opcode ≤ OP_PUSHDATA4 :=
    le_of_getOp hget fun h ↦ absurd hsig.encodedKey.1 (by rw [h]; decide)
  have hdelete : findAndDelete (pushData vchSig) script = script :=
    findAndDelete_of_clear (pushData_ne_nil vchSig)
      (.cons hget (not_prefix_of_getOp hlen hget (ne_of_encoded hsig.encodedKey hencoded))
        (.cons hcheck (not_prefix_of_getOp hlen hcheck hnil.symm) .nil))
  have hbytes : script.length ≤ 10000 := by
    have h₁ := length_le_of_getOp hget
    have h₂ := length_le_of_getOp hcheck
    rw [List.length_nil] at h₂
    omega
  have hrun : (evalFrom C c (parse script) (.init script [vchSig])).result =
      some ⟨[vchTrue], [], [], 1, script⟩ := by
    rw [ScriptState.init, evalFrom_data hget hop (hkey.trans (by decide)) (by simp),
      evalFrom_of_getOp hcheck (step_checkSig hsig hdelete (by decide) (by decide))]
    rfl
  exact leavesTrue_of_result (evalScript_eq_some hbytes hrun rfl)

theorem unlocks_pubkey {script pc : CScript} {opcode : UInt8} {vch vchSig : valtype}
    (hget : getOp script = some (opcode, vch, pc)) (hcheck : getOp pc = some (OP_CHECKSIG, [], []))
    (hsig : SignatureFor S txTo nIn script vch vchSig) : Unlocks S txTo nIn script [vchSig] where
  few := Nat.le_add_left 1 19
  short := List.forall_mem_singleton.mpr hsig.length_le
  run scriptSig := leavesTrue_pubkey hget hcheck hsig.encoded (hsig.signed scriptSig)

/-- A signature for the key with the hash of a script, and the key, make it true. -/
theorem leavesTrue_pubkeyhash {script p₁ p₂ p₃ p₄ : CScript} {opcode : UInt8} {vch vchSig : valtype}
    (hdup : getOp script = some (OP_DUP, [], p₁)) (hhash : getOp p₁ = some (OP_HASH160, [], p₂))
    (hget : getOp p₂ = some (opcode, C.hash160 vch, p₃))
    (hequal : getOp p₃ = some (OP_EQUALVERIFY, [], p₄))
    (hcheck : getOp p₄ = some (OP_CHECKSIG, [], [])) (hash : (C.hash160 vch).length = 20)
    (hencoded : isLowDERSignature vchSig true) (hne : vchSig ≠ C.hash160 vch)
    (hsig : SignedBy C c script vch vchSig) :
    leavesTrue (evalScript C c script [vch, vchSig]) := by
  obtain ⟨hbound, -, hnil⟩ := isLowDERSignature_bounds hencoded
  have hlen : vchSig.length ≤ MAX_SCRIPT_ELEMENT_SIZE := hbound.trans (by decide)
  have hop : opcode ≤ OP_PUSHDATA4 := le_of_getOp hget fun h ↦ absurd hash (by rw [h]; decide)
  have hclear : Clear (pushData vchSig) script :=
    .cons hdup (not_prefix_of_getOp hlen hdup hnil.symm)
      (.cons hhash (not_prefix_of_getOp hlen hhash hnil.symm)
        (.cons hget (not_prefix_of_getOp hlen hget hne.symm)
          (.cons hequal (not_prefix_of_getOp hlen hequal hnil.symm)
            (.cons hcheck (not_prefix_of_getOp hlen hcheck hnil.symm) .nil))))
  have hdelete := findAndDelete_of_clear (pushData_ne_nil vchSig) hclear
  have hbytes : script.length ≤ 10000 := by
    have h₁ := length_le_of_getOp hdup
    have h₂ := length_le_of_getOp hhash
    have h₃ := length_le_of_getOp hget
    have h₄ := length_le_of_getOp hequal
    have h₅ := length_le_of_getOp hcheck
    rw [List.length_nil] at h₁ h₂ h₄ h₅
    omega
  have hrun : (evalFrom C c (parse script) (.init script [vch, vchSig])).result =
      some ⟨[vchTrue], [], [], 4, script⟩ := by
    rw [ScriptState.init, evalFrom_of_getOp hdup (step_dup (by decide) (by simp)),
      evalFrom_of_getOp hhash (step_hash160 (by decide) (by simp)),
      evalFrom_data hget hop (by rw [hash]; decide) (by simp),
      evalFrom_of_getOp hequal (step_equalverify (by decide) (by simp)),
      evalFrom_of_getOp hcheck (step_checkSig hsig hdelete (by decide) (by simp))]
    rfl
  exact leavesTrue_of_result (evalScript_eq_some hbytes hrun rfl)

theorem unlocks_pubkeyhash {script p₁ p₂ p₃ p₄ : CScript} {opcode : UInt8} {vch vchSig : valtype}
    (hdup : getOp script = some (OP_DUP, [], p₁)) (hhash : getOp p₁ = some (OP_HASH160, [], p₂))
    (hget : getOp p₂ = some (opcode, S.crypto.hash160 vch, p₃))
    (hequal : getOp p₃ = some (OP_EQUALVERIFY, [], p₄))
    (hcheck : getOp p₄ = some (OP_CHECKSIG, [], []))
    (hash : (S.crypto.hash160 vch).length = 20) (hencoded : checkPubKeyEncoding vch)
    (hsig : SignatureFor S txTo nIn script vch vchSig) :
    Unlocks S txTo nIn script [vchSig, vch] where
  few := Nat.le_add_left 2 18
  short := by
    rw [List.forall_mem_cons, List.forall_mem_singleton]
    exact ⟨hsig.length_le, (length_le_of_encoded hencoded).trans (by decide)⟩
  run scriptSig := leavesTrue_pubkeyhash hdup hhash hget hequal hcheck hash hsig.encoded
    hsig.ne_hash (hsig.signed scriptSig)

theorem MultisigOf.length_le {script : CScript} {vSolutions keys : List valtype} {opm opn : UInt8}
    (h : MultisigOf script vSolutions keys opm opn) : keys.length ≤ 16 := by
  have hle := UInt8.le_iff_toNat_le.mp h.total.2
  have hhigh : OP_16.toNat = 96 := rfl
  rw [h.length, decodeOP_N]
  split_ifs <;> omega

/-- No signature is deleted from a multisig script. -/
theorem MultisigOf.findAndDelete_eq {script : CScript} {vSolutions keys : List valtype}
    {opm opn : UInt8} (h : MultisigOf script vSolutions keys opm opn)
    (hkeys : ∀ key ∈ keys, checkPubKeyEncoding key) {vchSig : valtype}
    (hsig : isLowDERSignature vchSig true) :
    findAndDelete (pushData vchSig) script = script := by
  obtain ⟨p₁, p₂, p₃, hgetm, hpush, hgetn, hcheck⟩ := h.reads
  obtain ⟨hbound, -, hnil⟩ := isLowDERSignature_bounds hsig
  have hlen : vchSig.length ≤ MAX_SCRIPT_ELEMENT_SIZE := hbound.trans (by decide)
  have hne : ∀ key ∈ keys, key ≠ vchSig := fun key hmem ↦ ne_of_encoded (hkeys key hmem) hsig
  have hend : Clear (pushData vchSig) p₂ :=
    .cons hgetn (not_prefix_of_getOp hlen hgetn hnil.symm)
      (.cons hcheck (not_prefix_of_getOp hlen hcheck hnil.symm) .nil)
  exact findAndDelete_of_clear (pushData_ne_nil vchSig)
    (.cons hgetm (not_prefix_of_getOp hlen hgetm hnil.symm) (.pushes hlen hpush hne hend))

theorem MultisigOf.castToBigNum_required {script : CScript} {vSolutions keys : List valtype}
    {opm opn : UInt8} (h : MultisigOf script vSolutions keys opm opn) :
    (castToBigNum (numberOf opm) nDefaultMaxNumSize).map CBigNum.getint =
      some (decodeOP_N opm : ℤ) :=
  castToBigNum_numberOf h.required.1 h.required.2

theorem MultisigOf.castToBigNum_total {script : CScript} {vSolutions keys : List valtype}
    {opm opn : UInt8} (h : MultisigOf script vSolutions keys opm opn) :
    (castToBigNum (numberOf opn) nDefaultMaxNumSize).map CBigNum.getint =
      some (keys.reverse.length : ℤ) := by
  rw [List.length_reverse, h.length]
  exact castToBigNum_numberOf h.total.1 h.total.2

theorem MultisigOf.bytes_le {script : CScript} {vSolutions keys : List valtype} {opm opn : UInt8}
    (h : MultisigOf script vSolutions keys opm opn)
    (hkeys : ∀ key ∈ keys, checkPubKeyEncoding key) : script.length ≤ 10000 := by
  obtain ⟨p₁, p₂, p₃, hgetm, hpush, hgetn, hcheck⟩ := h.reads
  have hmany := h.length_le
  have h₁ := length_le_of_getOp hgetm
  have h₂ := hpush.length_le fun key hmem ↦ length_le_of_encoded (hkeys key hmem)
  have h₃ := length_le_of_getOp hgetn
  have h₄ := length_le_of_getOp hcheck
  rw [List.length_nil] at h₁ h₃ h₄
  omega

/-- As many signatures as are required, for keys of the script in their order, make it true. -/
theorem MultisigOf.leavesTrue {C : Crypto} {c : ScriptContext} {script : CScript}
    {vSolutions keys signers sigs : List valtype} {opm opn : UInt8}
    (h : MultisigOf script vSolutions keys opm opn) (hkeys : ∀ key ∈ keys, checkPubKeyEncoding key)
    (hsigned : List.Forall₂ (SignedBy C c script) signers sigs) (hsub : signers.Sublist keys)
    (hcount : sigs.length = decodeOP_N opm) :
    leavesTrue (evalScript C c script ([] :: sigs).reverse) := by
  have hmany := h.length_le
  have hle := h.le
  have hshort : ∀ key ∈ keys, key.length ≤ 65 :=
    fun key hmem ↦ length_le_of_encoded (hkeys key hmem)
  obtain ⟨p₁, p₂, p₃, hgetm, hpush, hgetn, hcheck⟩ := h.reads
  -- the stack has the last first
  have hreversed : List.Forall₂ (SignedBy C c script) signers.reverse sigs.reverse :=
    List.forall₂_reverse_iff.mpr hsigned
  have hdelete : ∀ vchSig ∈ sigs.reverse, findAndDelete (pushData vchSig) script = script := by
    intro vchSig hmem
    obtain ⟨vch, hsig⟩ := exists_signer hsigned vchSig (List.mem_reverse.mp hmem)
    exact h.findAndDelete_eq hkeys hsig.isLowDERSignature
  have hm : (castToBigNum (numberOf opm) nDefaultMaxNumSize).map CBigNum.getint =
      some (sigs.reverse.length : ℤ) := by
    rw [List.length_reverse, hcount]
    exact h.castToBigNum_required
  have hencoded : ∀ key ∈ keys.reverse, checkPubKeyEncoding key := fun key hmem ↦
    hkeys key (List.mem_reverse.mp hmem)
  have hfew : keys.reverse.length ≤ 16 := by
    rw [List.length_reverse]
    exact hmany
  have hrun : (evalFrom C c (parse script) (.init script (sigs.reverse ++ [[]]))).result =
      some ⟨[vchTrue], [], [], 1 + keys.reverse.length, script⟩ := by
    have hmulti : (evalCheckMultiSig C c false
        ⟨numberOf opn :: (keys.reverse ++ numberOf opm :: (sigs.reverse ++ [[]])), [], [], 1,
          script⟩).result = some ⟨[vchTrue], [], [], 1 + keys.reverse.length, script⟩ :=
      result_evalCheckMultiSig h.castToBigNum_total hm (by omega) (by omega) rfl hencoded hreversed
        hsub.reverse hdelete
    have hstack₁ : (sigs.reverse ++ [[]]).length < 1000 := by
      rw [List.length_append, List.length_reverse, List.length_singleton]
      omega
    have hstack₂ : keys.length + (numberOf opm :: (sigs.reverse ++ [[]])).length ≤ 1000 := by
      rw [List.length_cons, List.length_append, List.length_reverse, List.length_singleton]
      omega
    have hstack₃ : (keys.reverse ++ numberOf opm :: (sigs.reverse ++ [[]])).length < 1000 := by
      rw [List.length_append, List.length_reverse, List.length_cons, List.length_append,
        List.length_reverse, List.length_singleton]
      omega
    rw [ScriptState.init, evalFrom_number hgetm h.required.1 h.required.2 hstack₁,
      evalFrom_pushes hpush (fun key hmem ↦ (hshort key hmem).trans (by decide)) hstack₂,
      evalFrom_number hgetn h.total.1 h.total.2 hstack₃,
      evalFrom_of_getOp hcheck (step_counted (by decide) (by decide) (by decide) (by simp) hmulti)]
    rfl
  rw [List.reverse_cons]
  exact leavesTrue_of_result (evalScript_eq_some (h.bytes_le hkeys) hrun rfl)

theorem unlocks_multisig {script : CScript} {vSolutions keys sigs : List valtype} {opm opn : UInt8}
    (h : MultisigOf script vSolutions keys opm opn) (hkeys : ∀ key ∈ keys, checkPubKeyEncoding key)
    (hsigs : List.Forall₂ (SignatureFor S txTo nIn script) (keys.take (decodeOP_N opm)) sigs) :
    Unlocks S txTo nIn script ([] :: sigs) := by
  have hmany := h.length_le
  have hcount : sigs.length = decodeOP_N opm := by
    rw [← hsigs.length_eq, List.length_take, min_eq_left h.le]
  have hle := h.le
  refine ⟨by rw [List.length_cons]; omega, ?_, fun scriptSig ↦ ?_⟩
  · rw [List.forall_mem_cons]
    refine ⟨Nat.zero_le _, fun vchSig hmem ↦ ?_⟩
    obtain ⟨vch, hsig⟩ := exists_signer hsigs vchSig hmem
    exact hsig.length_le
  · exact h.leavesTrue hkeys (hsigs.imp fun _ _ hsig ↦ hsig.signed scriptSig)
      (List.take_sublist _ _) hcount

/-! ## Scripts that are ours -/

theorem leNat_inj {vch : List UInt8} : ∀ {vch' : List UInt8}, vch.length = vch'.length →
    leNat vch = leNat vch' → vch = vch' := by
  induction vch with
  | nil =>
    intro vch' hlen _
    exact (List.length_eq_zero_iff.mp hlen.symm).symm
  | cons b vch ih =>
    intro vch' hlen heq
    cases vch' with
    | nil => cases hlen
    | cons b' vch' =>
      rw [leNat, leNat] at heq
      have hb := b.toNat_lt
      have hb' := b'.toNat_lt
      rw [UInt8.toNat_inj.mp (by omega : b.toNat = b'.toNat), ih (Nat.succ.inj hlen) (by omega)]

theorem uint160_inj {vch vch' : valtype} (h : vch.length = 20) (h' : vch'.length = 20)
    (heq : uint160 vch = uint160 vch') : vch = vch' := by
  rw [uint160, uint160, if_pos h, if_pos h'] at heq
  exact leNat_inj (h.trans h'.symm) heq

variable (S sign keystore txTo nIn nHashType) in
/-- The keys of the store make what unlocks the script. -/
def Solved (script : CScript) : Prop :=
  ∃ args whichType, whichType ≠ .TX_SCRIPTHASH ∧
    solverSign S sign keystore script (signatureHash S.crypto script txTo nIn nHashType) nHashType =
      (pushAll args, whichType, true) ∧ Unlocks S txTo nIn script args

theorem pushAll_singleton (vch : valtype) : pushAll [vch] = pushData vch := by
  rw [pushAll_cons]
  exact List.append_nil _

/-- The instructions of a script that pays to a public key. -/
theorem reads_pubkey {n : ℕ} {script : CScript} {vSolutions : List valtype}
    (hmatch : matchTemplate n [OP_PUBKEY, OP_CHECKSIG] script = some vSolutions) :
    ∃ opcode vch pc, getOp script = some (opcode, vch, pc) ∧
      getOp pc = some (OP_CHECKSIG, [], []) ∧ vSolutions = [vch] := by
  obtain ⟨opcode, vch, pc, sol, sols, hget, hkey, hmatch₁, rfl⟩ :=
    matchTemplate_cons (by decide) hmatch
  obtain ⟨opc, vchc, pc', solc, sols', hcheck, hc, hend, rfl⟩ :=
    matchTemplate_cons (by decide) hmatch₁
  obtain ⟨rfl, rfl⟩ := matchTemplate_nil hend
  obtain ⟨-, rfl⟩ := matchOp_pubkey hkey
  obtain ⟨rfl, rfl, rfl⟩ := matchOp_self (by decide) hc
  exact ⟨opcode, vch, pc, hget, hcheck, rfl⟩

/-- The instructions of a script that pays to the hash of a public key. -/
theorem reads_pubkeyhash {n : ℕ} {script : CScript} {vSolutions : List valtype}
    (hmatch : matchTemplate n [OP_DUP, OP_HASH160, OP_PUBKEYHASH, OP_EQUALVERIFY, OP_CHECKSIG]
      script = some vSolutions) :
    ∃ opcode vch p₁ p₂ p₃ p₄, getOp script = some (OP_DUP, [], p₁) ∧
      getOp p₁ = some (OP_HASH160, [], p₂) ∧ getOp p₂ = some (opcode, vch, p₃) ∧
      getOp p₃ = some (OP_EQUALVERIFY, [], p₄) ∧ getOp p₄ = some (OP_CHECKSIG, [], []) ∧
      vch.length = 20 ∧ vSolutions = [vch] := by
  obtain ⟨op₁, vch₁, p₁, sol₁, sols₁, hdup, h₁, hmatch₁, rfl⟩ :=
    matchTemplate_cons (by decide) hmatch
  obtain ⟨op₂, vch₂, p₂, sol₂, sols₂, hhash160, h₂, hmatch₂, rfl⟩ :=
    matchTemplate_cons (by decide) hmatch₁
  obtain ⟨op₃, vch₃, p₃, sol₃, sols₃, hget, h₃, hmatch₃, rfl⟩ :=
    matchTemplate_cons (by decide) hmatch₂
  obtain ⟨op₄, vch₄, p₄, sol₄, sols₄, hequal, h₄, hmatch₄, rfl⟩ :=
    matchTemplate_cons (by decide) hmatch₃
  obtain ⟨op₅, vch₅, p₅, sol₅, sols₅, hcheck, h₅, hend, rfl⟩ :=
    matchTemplate_cons (by decide) hmatch₄
  obtain ⟨rfl, rfl⟩ := matchTemplate_nil hend
  obtain ⟨rfl, rfl, rfl⟩ := matchOp_self (by decide) h₁
  obtain ⟨rfl, rfl, rfl⟩ := matchOp_self (by decide) h₂
  obtain ⟨hlen, rfl⟩ := matchOp_pubkeyhash h₃
  obtain ⟨rfl, rfl, rfl⟩ := matchOp_self (by decide) h₄
  obtain ⟨rfl, rfl, rfl⟩ := matchOp_self (by decide) h₅
  exact ⟨op₃, vch₃, p₁, p₂, p₃, p₄, hdup, hhash160, hget, hequal, hcheck, hlen, rfl⟩

theorem solved_pubkey (hstore : keystore.Readable S sign) (htype : nHashType < 256)
    {script : CScript} {vSolutions : List valtype}
    (hsolver : solver S.nMaxDatacarrierBytes script = some (.TX_PUBKEY, vSolutions))
    (hmatch : matchTemplate S.nMaxDatacarrierBytes [OP_PUBKEY, OP_CHECKSIG] script =
      some vSolutions)
    (hmine : keystore.haveKey (keyIDOf S.crypto (vSolutions.headD [])) = true) :
    Solved S sign keystore txTo nIn nHashType script := by
  obtain ⟨opcode, vch, pc, hget, hcheck, rfl⟩ := reads_pubkey hmatch
  change keystore.haveKey (keyIDOf S.crypto vch) = true at hmine
  obtain ⟨vchSig, hsig, hsign⟩ := sign1_of_pubkey hstore htype hmine
  refine ⟨[vchSig], .TX_PUBKEY, by decide, ?_, unlocks_pubkey hget hcheck hsig⟩
  rw [solverSign, hsolver]
  dsimp only
  rw [List.headD_cons, hsign, pushAll_singleton, List.nil_append]

theorem solved_pubkeyhash (hhash : ∀ vch, (S.crypto.hash160 vch).length = 20)
    (hstore : keystore.Readable S sign) (htype : nHashType < 256) {script : CScript}
    {vSolutions : List valtype}
    (hsolver : solver S.nMaxDatacarrierBytes script = some (.TX_PUBKEYHASH, vSolutions))
    (hmatch : matchTemplate S.nMaxDatacarrierBytes
      [OP_DUP, OP_HASH160, OP_PUBKEYHASH, OP_EQUALVERIFY, OP_CHECKSIG] script = some vSolutions)
    (hmine : keystore.haveKey (uint160 (vSolutions.headD [])) = true) :
    Solved S sign keystore txTo nIn nHashType script := by
  obtain ⟨opcode, vchHash, p₁, p₂, p₃, p₄, hdup, hhash160, hget, hequal, hcheck, hlen, rfl⟩ :=
    reads_pubkeyhash hmatch
  change keystore.haveKey (uint160 vchHash) = true at hmine
  obtain ⟨vch, vchSig, hpub, hid, hencoded, hsig, hsign⟩ := sign1_of_haveKey hstore htype hmine
  -- the hash in the script is that of the key
  rw [keyIDOf, if_pos (isValidPubKey_of_encoded hencoded)] at hid
  obtain rfl := uint160_inj (hhash vch) hlen hid
  refine ⟨[vchSig, vch], .TX_PUBKEYHASH, by decide, ?_,
    unlocks_pubkeyhash hdup hhash160 hget hequal hcheck (hhash vch) hencoded hsig⟩
  rw [solverSign, hsolver]
  dsimp only
  rw [List.headD_cons, hsign]
  dsimp only
  rw [hpub, Option.getD_some, List.nil_append, pushAll_cons, pushAll_singleton]

theorem solved_multisig (hstore : keystore.Readable S sign) (htype : nHashType < 256)
    {script : CScript} {vSolutions : List valtype}
    (hsolver : solver S.nMaxDatacarrierBytes script = some (.TX_MULTISIG, vSolutions))
    (hmatch : matchTemplate S.nMaxDatacarrierBytes
      [OP_SMALLINTEGER, OP_PUBKEYS, OP_SMALLINTEGER, OP_CHECKMULTISIG] script = some vSolutions)
    (hmulti : isMultisig vSolutions)
    (hmine : keystore.haveKeys S vSolutions.tail.dropLast = vSolutions.tail.dropLast.length) :
    Solved S sign keystore txTo nIn nHashType script := by
  obtain ⟨keys, opm, opn, h⟩ := multisigOf_of_matchTemplate hmatch hmulti
  obtain rfl := h.solutions
  rw [List.tail_cons, List.dropLast_concat] at hmine
  have hkeys : ∀ key ∈ keys, keystore.haveKey (keyIDOf S.crypto key) = true :=
    List.countP_eq_length.mp hmine
  have hencoded : ∀ key ∈ keys, checkPubKeyEncoding key := fun key hmem ↦
    encoded_of_haveKey hstore (hkeys key hmem)
  have hmake : ∃ sigs,
      List.Forall₂ (SignatureFor S txTo nIn script) (keys.take (decodeOP_N opm - 0)) sigs ∧
        signKeys S sign keystore (signatureHash S.crypto script txTo nIn nHashType) nHashType
          (decodeOP_N opm) [OP_0] 0 keys = ([OP_0] ++ pushAll sigs, decodeOP_N opm) :=
    signKeys_eq hstore htype hkeys (Nat.zero_le _) (by rw [Nat.zero_add]; exact h.le)
  obtain ⟨sigs, hsigs, hsign⟩ := hmake
  refine ⟨[] :: sigs, .TX_MULTISIG, by decide, ?_, unlocks_multisig h hencoded hsigs⟩
  rw [solverSign, hsolver]
  dsimp only
  rw [signN, List.headD_cons, firstByte_decodeOP_N, List.tail_cons, List.dropLast_concat, hsign]
  dsimp only
  rw [decide_eq_true rfl, pushAll_cons]
  rfl

/-- What is ours and not pay-to-script-hash is solved. -/
theorem solved_of_isMine (hhash : ∀ vch, (S.crypto.hash160 vch).length = 20)
    (hstore : keystore.Readable S sign) (htype : nHashType < 256) {script : CScript} {depth : ℕ}
    (hp2sh : ¬ isPayToScriptHash script)
    (hmine : keystore.isMineWithin S (depth + 1) script = true) :
    Solved S sign keystore txTo nIn nHashType script := by
  rw [CKeyStore.isMineWithin] at hmine
  split at hmine
  · cases hmine
  · rename_i whichType vSolutions hsolver
    obtain ⟨template, hmem, hmatch, hmulti⟩ := mem_mTemplates_of_solver hp2sh hsolver
    simp only [mTemplates, List.mem_cons, List.not_mem_nil, or_false, Prod.mk.injEq] at hmem
    rcases hmem with ⟨rfl, rfl⟩ | ⟨rfl, rfl⟩ | ⟨rfl, rfl⟩ | ⟨rfl, rfl⟩ | ⟨rfl, rfl⟩
    · exact solved_pubkey hstore htype hsolver hmatch hmine
    · exact solved_pubkeyhash hhash hstore htype hsolver hmatch hmine
    · exact solved_multisig hstore htype hsolver hmatch (hmulti rfl) (of_decide_eq_true hmine)
    · cases hmine
    · cases hmine

/-! ## What is verified in the end -/

/-- Few short byte strings that make a script true are pushed for it. -/
theorem verifyScript_pushAll {C : Crypto} {c : ScriptContext} {script : CScript}
    {args : List valtype} (hp2sh : ¬ isPayToScriptHash script) (hfew : args.length ≤ 20)
    (hshort : ∀ arg ∈ args, arg.length ≤ 73)
    (hrun : leavesTrue (evalScript C c script args.reverse)) :
    verifyScript C c (pushAll args) script = true := by
  have hsmall : ∀ arg ∈ args, arg.length ≤ MAX_SCRIPT_ELEMENT_SIZE := fun arg hmem ↦
    (hshort arg hmem).trans (by decide)
  have hpush : Pushes (pushAll args) args [] := by
    have hpush := pushes_pushAll hsmall []
    rwa [List.append_nil] at hpush
  have hbytes : (pushAll args).length ≤ 10000 := by
    have hle := hpush.length_le hshort
    have hfew := Nat.mul_le_mul_right 78 hfew
    rw [List.length_nil] at hle
    omega
  rw [verifyScript, evalScript_pushes hpush hsmall (hfew.trans (by decide)) hbytes]
  dsimp only
  rw [if_pos hrun, if_neg hp2sh]

theorem testSolution_of_unlocks {script : CScript} {args : List valtype}
    (hp2sh : ¬ isPayToScriptHash script) (h : Unlocks S txTo nIn script args) :
    testSolution S script txTo nIn (pushAll args) = true :=
  verifyScript_pushAll hp2sh h.few h.short (h.run _)

theorem getOp_of_isPayToScriptHash {script : CScript} (h : isPayToScriptHash script) : ∃ p₁ p₂,
    getOp script = some (OP_HASH160, [], p₁) ∧
      getOp p₁ = some (0x14, (script.drop 2).take 20, p₂) ∧ getOp p₂ = some (OP_EQUAL, [], []) := by
  obtain ⟨hlen, h₀, h₁, h₂⟩ := h
  rcases script with - | ⟨op, - | ⟨size, rest⟩⟩
  · cases h₀
  · cases h₁
  cases h₀
  cases h₁
  rw [List.length_cons, List.length_cons] at hlen
  have hend : rest.drop 20 = [OP_EQUAL] := by
    have hget : rest[20]? = some OP_EQUAL := h₂
    obtain ⟨hlt, heq⟩ := List.getElem?_eq_some_iff.mp hget
    rw [List.drop_eq_getElem_cons hlt, heq, List.drop_of_length_le (by omega)]
  have htake : (rest.take 20).length = 20 := by
    rw [List.length_take]
    omega
  refine ⟨0x14 :: rest, rest.drop 20, getOp_cons rfl, ?_, ?_⟩
  · have hsize : pushSize 0x14 ([] ++ (rest.take 20 ++ rest.drop 20)) =
        some ((rest.take 20).length, rest.take 20 ++ rest.drop 20) := by
      rw [htake]
      rfl
    have hget := getOp_of_sized [] hsize
    rwa [List.nil_append, List.take_append_drop] at hget
  · rw [hend]
    exact getOp_cons rfl

/-- What is hashed to the hash of a pay-to-script-hash script is accepted by it. -/
theorem evalScript_p2sh {C : Crypto} {c : ScriptContext} {script : CScript} {vch : valtype}
    {stack : List valtype} (hp2sh : isPayToScriptHash script)
    (hash : C.hash160 vch = (script.drop 2).take 20) (hsize : stack.length + 2 ≤ 1000) :
    (evalScript C c script (vch :: stack)).result = some (vchTrue :: stack) := by
  obtain ⟨p₁, p₂, hhash, hget, hequal⟩ := getOp_of_isPayToScriptHash hp2sh
  have hbytes : script.length ≤ 10000 := hp2sh.1.trans_le (by decide)
  have hlen : ((script.drop 2).take 20).length ≤ MAX_SCRIPT_ELEMENT_SIZE := by
    refine (List.length_take_le _ _).trans (by decide)
  have hrun : (evalFrom C c (parse script) (.init script (vch :: stack))).result =
      some ⟨vchTrue :: stack, [], [], 2, script⟩ := by
    rw [ScriptState.init, evalFrom_of_getOp hhash (step_hash160 (by decide) (by omega)),
      evalFrom_data hget (by decide) hlen (by rw [List.length_cons]; omega), hash,
      evalFrom_of_getOp hequal (step_equal (by decide) (by omega))]
    rfl
  exact evalScript_eq_some hbytes hrun rfl

/-- One redeem script is unwrapped. -/
theorem verifyScript_redeem {C : Crypto} {c : ScriptContext} {script subscript : CScript}
    {args : List valtype} (hp2sh : isPayToScriptHash script)
    (hash : C.hash160 subscript = (script.drop 2).take 20)
    (hlen : subscript.length ≤ MAX_SCRIPT_ELEMENT_SIZE) (hfew : args.length ≤ 20)
    (hshort : ∀ arg ∈ args, arg.length ≤ 73)
    (hrun : leavesTrue (evalScript C c subscript args.reverse)) :
    verifyScript C c (pushAll args ++ pushData subscript) script = true := by
  have hsmall : ∀ arg ∈ args ++ [subscript], arg.length ≤ MAX_SCRIPT_ELEMENT_SIZE := by
    intro arg hmem
    rcases List.mem_append.mp hmem with hmem | hmem
    · exact (hshort arg hmem).trans (by decide)
    · rwa [List.mem_singleton.mp hmem]
  have hscriptSig : pushAll args ++ pushData subscript = pushAll (args ++ [subscript]) := by
    rw [pushAll, pushAll, List.flatMap_append, List.flatMap_singleton]
  have hpush : Pushes (pushAll (args ++ [subscript])) (args ++ [subscript]) [] := by
    have hpush := pushes_pushAll hsmall []
    rwa [List.append_nil] at hpush
  have hbytes : (pushAll (args ++ [subscript])).length ≤ 10000 := by
    have hargs := (pushes_pushAll (fun arg hmem ↦ (hshort arg hmem).trans (by decide)) []).length_le
      hshort
    have hone := (pushes_pushAll (List.forall_mem_singleton.mpr hlen) []).length_le
      (List.forall_mem_singleton.mpr hlen)
    rw [List.append_nil, List.length_nil] at hargs hone
    rw [List.length_singleton, pushAll_singleton, one_mul] at hone
    have hbound : MAX_SCRIPT_ELEMENT_SIZE = 520 := rfl
    rw [← hscriptSig, List.length_append]
    omega
  have hmany : (args ++ [subscript]).length ≤ 1000 := by
    rw [List.length_append, List.length_singleton]
    omega
  have hstack : (args ++ [subscript]).reverse = subscript :: args.reverse := List.reverse_concat
  have hscript : leavesTrue (evalScript C c script (subscript :: args.reverse)) :=
    leavesTrue_of_result (evalScript_p2sh hp2sh hash (by rw [List.length_reverse]; omega))
  have hredeem : redeemScript (pushAll (args ++ [subscript])) (subscript :: args.reverse) =
      some (subscript, args.reverse) := by
    rw [redeemScript, if_pos hpush.isPushOnly]
  rw [hscriptSig, verifyScript, runRedeem, evalScript_pushes hpush hsmall hmany hbytes, hstack]
  dsimp only
  rw [if_pos hscript, if_pos hp2sh, if_pos ⟨hscript, hp2sh⟩, hredeem, Option.map_some,
    Option.any_some, decide_eq_true hrun]

theorem testSolution_of_redeem {script subscript : CScript} {args : List valtype}
    (hp2sh : isPayToScriptHash script) (hash : S.crypto.hash160 subscript = (script.drop 2).take 20)
    (hlen : subscript.length ≤ MAX_SCRIPT_ELEMENT_SIZE) (h : Unlocks S txTo nIn subscript args) :
    testSolution S script txTo nIn (pushAll args ++ pushData subscript) = true :=
  verifyScript_redeem hp2sh hash hlen h.few h.short (h.run _)

/-! ## The signer and `IsMine` -/

theorem solver_of_isPayToScriptHash {n : ℕ} {script : CScript} (h : isPayToScriptHash script) :
    solver n script = some (.TX_SCRIPTHASH, [(script.drop 2).take 20]) := if_pos h

theorem signSignature_of_solved {script : CScript} (hp2sh : ¬ isPayToScriptHash script)
    (h : Solved S sign keystore txTo nIn nHashType script) :
    (signSignature S sign keystore script txTo nIn nHashType).2 = true := by
  obtain ⟨args, whichType, htype, hsolve, hunlocks⟩ := h
  rw [signSignature]
  dsimp only
  rw [hsolve]
  dsimp only
  rw [if_neg htype, testSolution, CTransaction.setScriptSig_setScriptSig]
  exact testSolution_of_unlocks hp2sh hunlocks

/-- The signer of a pay-to-script-hash output whose redeem script is stored. -/
theorem signSignature_p2sh {script subscript : CScript} (hp2sh : isPayToScriptHash script)
    (hget : keystore.getCScript (uint160 ((script.drop 2).take 20)) = some subscript) :
    (signSignature S sign keystore script txTo nIn nHashType).2 =
      let txTo := txTo.setScriptSig nIn subscript
      let hash2 := signatureHash S.crypto subscript txTo nIn nHashType
      let r := solverSign S sign keystore subscript hash2 nHashType
      (r.2.2 && decide (r.2.1 ≠ .TX_SCRIPTHASH) &&
        testSolution S script txTo nIn (r.1 ++ pushData subscript)) := by
  have hsolve : ∀ hash, solverSign S sign keystore script hash nHashType =
      (subscript, .TX_SCRIPTHASH, true) := by
    intro hash
    rw [solverSign, solver_of_isPayToScriptHash hp2sh]
    dsimp only
    rw [List.headD_cons, hget]
  rw [signSignature]
  dsimp only
  rw [hsolve]
  dsimp only
  rw [if_pos rfl]

theorem signSignature_of_nested {script subscript : CScript} (hp2sh : isPayToScriptHash script)
    (hget : keystore.getCScript (uint160 ((script.drop 2).take 20)) = some subscript)
    (hsub : isPayToScriptHash subscript) :
    (signSignature S sign keystore script txTo nIn nHashType).2 = false := by
  have htype : ∀ hash,
      (solverSign S sign keystore subscript hash nHashType).2.1 = .TX_SCRIPTHASH := by
    intro hash
    rw [solverSign, solver_of_isPayToScriptHash hsub]
    dsimp only
    split <;> rfl
  rw [signSignature_p2sh hp2sh hget]
  dsimp only
  rw [htype, decide_eq_false (fun h ↦ h rfl), Bool.and_false, Bool.false_and]

/-- An output that is ours is signed if and only if its redeem script, when it has one, is not
pay-to-script-hash again. -/
theorem signs_iff_not_nested (hhash : ∀ vch, (S.crypto.hash160 vch).length = 20)
    (hstore : keystore.Readable S sign) (htype : nHashType < 256) {scriptPubKey : CScript}
    (hmine : keystore.isMine S scriptPubKey = true) :
    (signSignature S sign keystore scriptPubKey txTo nIn nHashType).2 = true ↔
      ¬ Nested keystore scriptPubKey := by
  by_cases hp2sh : isPayToScriptHash scriptPubKey
  · rw [CKeyStore.isMine, CKeyStore.isMineWithin, solver_of_isPayToScriptHash hp2sh] at hmine
    dsimp only at hmine
    split at hmine
    · cases hmine
    · rename_i subscript hget
      rw [List.headD_cons] at hget
      by_cases hsub : isPayToScriptHash subscript
      · rw [signSignature_of_nested hp2sh hget hsub]
        exact ⟨fun h ↦ absurd h Bool.false_ne_true, fun h ↦ absurd ⟨hp2sh, subscript, hget, hsub⟩ h⟩
      · obtain ⟨hid, hlen⟩ := hstore.script _ _ hget
        have hash : S.crypto.hash160 subscript = (scriptPubKey.drop 2).take 20 := by
          refine uint160_inj (hhash subscript) ?_ hid
          rw [List.length_take, List.length_drop, hp2sh.1]
          rfl
        obtain ⟨depth, hdepth⟩ : ∃ depth, keystore.mapScripts.size = depth + 1 := by
          refine Nat.exists_eq_succ_of_ne_zero fun hzero ↦ ?_
          rw [hzero] at hmine
          exact absurd hmine Bool.false_ne_true
        rw [hdepth] at hmine
        have hsolved : Solved S sign keystore (txTo.setScriptSig nIn subscript) nIn nHashType
            subscript := solved_of_isMine hhash hstore htype hsub hmine
        obtain ⟨args, whichType, hne, hsolve, hunlocks⟩ := hsolved
        rw [signSignature_p2sh hp2sh hget]
        dsimp only
        rw [hsolve]
        dsimp only
        rw [decide_eq_true hne, testSolution_of_redeem hp2sh hash hlen hunlocks]
        refine ⟨fun _ ⟨_, subscript', hget', hsub'⟩ ↦ ?_, fun _ ↦ rfl⟩
        cases hget.symm.trans hget'
        exact hsub hsub'
  · have hsolved : Solved S sign keystore txTo nIn nHashType scriptPubKey :=
      solved_of_isMine hhash hstore htype hp2sh hmine
    exact ⟨fun _ h ↦ hp2sh h.1, fun _ ↦ signSignature_of_solved hp2sh hsolved⟩

end

end

/-! ## One key -/

namespace Sample

def keyBytes : valtype := 0x02 :: List.replicate 32 0

/-- The hashes tell apart the key, the scripts of 23 bytes and everything else. -/
def oneKeyParams : SolverParams where
  crypto :=
    { ripemd160 := id
      sha1 := id
      sha256 := id
      hash160 := fun vch ↦
        List.replicate 20 (if vch = keyBytes then 1 else if vch.length = 23 then 2 else 0)
      hash256 := id
      hashTx := fun _ _ ↦ 0
      verify := fun _ _ _ ↦ true }
  nMaxDatacarrierBytes := 40

/-- The key always makes the same signature. -/
def oneSignature (_ : CKey) (_ : UInt256) : Option valtype :=
  some [0x30, 6, 0x02, 1, 1, 0x02, 1, 1]

def oneKeyStore (mapScripts : Std.TreeMap CScriptID CScript) : CKeyStore where
  haveKey id := id = keyIDOf oneKeyParams.crypto keyBytes
  getKey id := if id = keyIDOf oneKeyParams.crypto keyBytes then some secretKey else none
  getPubKey id := if id = keyIDOf oneKeyParams.crypto keyBytes then some keyBytes else none
  mapScripts := mapScripts

def keyScript : CScript := pushData keyBytes ++ [OP_CHECKSIG]

def payToScriptHash (b : UInt8) : CScript := [OP_HASH160, 0x14] ++ List.replicate 20 b ++ [OP_EQUAL]

theorem length_hash160_oneKey (vch : valtype) : (oneKeyParams.crypto.hash160 vch).length = 20 :=
  List.length_replicate

theorem keyIDOf_oneKey {vch : valtype}
    (h : keyIDOf oneKeyParams.crypto vch = keyIDOf oneKeyParams.crypto keyBytes) :
    vch = keyBytes := by
  have hvalid : isValidPubKey keyBytes := by decide +kernel
  rw [keyIDOf, keyIDOf, if_pos hvalid] at h
  have hash := uint160_inj (length_hash160_oneKey _) (length_hash160_oneKey _) h
  have hbyte := congrArg (fun vch : valtype ↦ vch.headD 0) hash
  have hbytes : ∀ vch, (oneKeyParams.crypto.hash160 vch).headD 0 =
      if vch = keyBytes then 1 else if vch.length = 23 then 2 else 0 := fun _ ↦ rfl
  rw [hbytes, hbytes, if_pos rfl] at hbyte
  by_cases hv : isValidPubKey vch
  · rw [if_pos hv] at hbyte
    by_contra hne
    rw [if_neg hne] at hbyte
    split_ifs at hbyte
    · exact absurd hbyte (by decide)
    · exact absurd hbyte (by decide)
  · rw [if_neg hv] at hbyte
    exact absurd hbyte (by decide)

theorem signsFor_oneKey : SignsFor oneKeyParams oneSignature secretKey keyBytes := by
  refine ⟨by decide +kernel, fun hash ↦ ⟨_, rfl, rfl, fun b ↦ ⟨?_, fun h ↦ ?_⟩⟩⟩
  · exact of_decide_eq_true rfl
  · have hlen := congrArg List.length h
    rw [length_hash160_oneKey, List.length_append, List.length_singleton] at hlen
    exact absurd hlen (by decide)

theorem readable_oneKeyStore {mapScripts : Std.TreeMap CScriptID CScript}
    (h : ∀ id script, mapScripts[id]? = some script →
      scriptIDOf oneKeyParams.crypto script = id ∧ script.length ≤ MAX_SCRIPT_ELEMENT_SIZE) :
    (oneKeyStore mapScripts).Readable oneKeyParams oneSignature where
  getKey id hid := by
    have heq : id = keyIDOf oneKeyParams.crypto keyBytes := of_decide_eq_true hid
    exact ⟨secretKey, keyBytes, if_pos heq, if_pos heq, heq.symm, signsFor_oneKey⟩
  unique id vch vch' hpub hid := by
    by_cases heq : id = keyIDOf oneKeyParams.crypto keyBytes
    · cases (if_pos heq).symm.trans hpub
      exact keyIDOf_oneKey (hid.trans heq)
    · cases (if_neg heq).symm.trans hpub
  script := h

def oneTx : CTransaction := ⟨1, 0, [⟨⟨1, 0⟩, [], 0⟩], [], 0⟩

/-- The redeem script pays to the key. -/
def keyScripts : Std.TreeMap CScriptID CScript :=
  (∅ : Std.TreeMap CScriptID CScript).insert (scriptIDOf oneKeyParams.crypto keyScript) keyScript

/-- A redeem script in another. -/
def nestedScripts : Std.TreeMap CScriptID CScript :=
  keyScripts.insert (scriptIDOf oneKeyParams.crypto (payToScriptHash 0)) (payToScriptHash 0)

theorem readable_keyScripts :
    (oneKeyStore keyScripts).Readable oneKeyParams oneSignature := by
  refine readable_oneKeyStore fun id script h ↦ ?_
  rw [keyScripts, Std.TreeMap.getElem?_insert] at h
  split_ifs at h with hid
  · cases h
    exact ⟨Std.LawfulEqCmp.eq_of_compare hid, by decide +kernel⟩
  · cases h

theorem readable_nestedScripts :
    (oneKeyStore nestedScripts).Readable oneKeyParams oneSignature := by
  refine readable_oneKeyStore fun id script h ↦ ?_
  rw [nestedScripts, Std.TreeMap.getElem?_insert] at h
  split_ifs at h with hid
  · cases h
    exact ⟨Std.LawfulEqCmp.eq_of_compare hid, by decide +kernel⟩
  · exact readable_keyScripts.script id script h

theorem signs_keyScript :
    (signSignature oneKeyParams oneSignature (oneKeyStore keyScripts) (payToScriptHash 0) oneTx 0
      1).2 = true := by
  have hmine : (oneKeyStore keyScripts).isMine oneKeyParams (payToScriptHash 0) = true := by
    decide +kernel
  refine (signs_iff_not_nested length_hash160_oneKey readable_keyScripts (by decide) hmine).mpr ?_
  rintro ⟨-, subscript, hget, hsub⟩
  rw [CKeyStore.getCScript, oneKeyStore, keyScripts, Std.TreeMap.getElem?_insert] at hget
  split_ifs at hget
  · cases hget
    exact absurd hsub (by decide +kernel)
  · cases hget

/-- An output that is ours, with keys that can all be read and sign, and that is not signed. -/
theorem not_signs_of_nested :
    (∀ vch, (oneKeyParams.crypto.hash160 vch).length = 20) ∧
      (oneKeyStore nestedScripts).Readable oneKeyParams oneSignature ∧
        (oneKeyStore nestedScripts).isMine oneKeyParams (payToScriptHash 2) = true ∧
          (signSignature oneKeyParams oneSignature (oneKeyStore nestedScripts) (payToScriptHash 2)
            oneTx 0 1).2 = false :=
  ⟨length_hash160_oneKey, readable_nestedScripts, by decide +kernel, by decide +kernel⟩

end Sample

end Bws
