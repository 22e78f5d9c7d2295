import Bws.Lib.Codec
import Bws.Interpreter

/-!
# What a signature commits to

`SignatureHash` hashes a copy of the transaction in which some fields are blanked out, depending on
the hash type, and the hash type after it.  When the hash is free of collisions, two transactions
have the same signature hash only if everything that the hash type promises to commit to is the same
in both (`commits_of_signatureHash`).

The argument is that the serialization of a transaction can be read back (`CTransaction.codec`), so
that the blanked copies are the same.
-/

namespace Bws

/-! ## Serialization -/

def COutPoint.codec : Codec COutPoint :=
  ((Codec.uint 32).prod (Codec.uint 4)).imap (fun r ↦ ⟨r.1, r.2⟩) fun o ↦ (o.hash, o.n)

def CTxIn.codec : Codec CTxIn :=
  (COutPoint.codec.prod (Codec.byteVector.prod (Codec.uint 4))).imap
    (fun r ↦ ⟨r.1, r.2.1, r.2.2⟩) fun txin ↦ (txin.prevout, txin.scriptSig, txin.nSequence)

def CTxOut.codec : Codec CTxOut :=
  ((Codec.int 8).prod Codec.byteVector).imap (fun r ↦ ⟨r.1, r.2⟩)
    fun txout ↦ (txout.nValue, txout.scriptPubKey)

def CTransaction.codec : Codec CTransaction :=
  ((Codec.int 4).prod ((Codec.uint 4).prod (CTxIn.codec.vector.prod
    (CTxOut.codec.vector.prod (Codec.uint 4))))).imap
    (fun r ↦ ⟨r.1, r.2.1, r.2.2.1, r.2.2.2.1, r.2.2.2.2⟩)
    fun tx ↦ (tx.nVersion, tx.nTime, tx.vin, tx.vout, tx.nLockTime)

/-- The fields of an input are of the types of the source. -/
structure CTxIn.Fits (txin : CTxIn) : Prop where
  hash : txin.prevout.hash < 2 ^ 256
  n : txin.prevout.n < 2 ^ 32
  scriptSig : txin.scriptSig.length < 2 ^ 64
  nSequence : txin.nSequence < 2 ^ 32

structure CTxOut.Fits (txout : CTxOut) : Prop where
  nValue : InInt64 txout.nValue
  scriptPubKey : txout.scriptPubKey.length < 2 ^ 64

structure CTransaction.Fits (tx : CTransaction) : Prop where
  nVersion : -2 ^ 31 ≤ tx.nVersion ∧ tx.nVersion < 2 ^ 31
  nTime : tx.nTime < 2 ^ 32
  vin : tx.vin.length < 2 ^ 64 ∧ ∀ txin ∈ tx.vin, txin.Fits
  vout : tx.vout.length < 2 ^ 64 ∧ ∀ txout ∈ tx.vout, txout.Fits
  nLockTime : tx.nLockTime < 2 ^ 32

theorem CTxIn.Fits.valid {txin : CTxIn} (h : txin.Fits) : CTxIn.codec.Valid txin := by
  refine ⟨⟨⟨⟨?_, ?_⟩, rfl⟩, Codec.valid_byteVector h.scriptSig, ?_⟩, rfl⟩
  · exact h.hash
  · exact h.n
  · exact h.nSequence

theorem CTxOut.Fits.valid {txout : CTxOut} (h : txout.Fits) : CTxOut.codec.Valid txout := by
  obtain ⟨h₁, h₂⟩ := h.nValue
  refine ⟨⟨Codec.valid_int ?_ ?_, Codec.valid_byteVector h.scriptPubKey⟩, rfl⟩
  · norm_num
    omega
  · norm_num
    omega

theorem CTransaction.Fits.valid {tx : CTransaction} (h : tx.Fits) : CTransaction.codec.Valid tx := by
  obtain ⟨h₁, h₂⟩ := h.nVersion
  refine ⟨⟨Codec.valid_int ?_ ?_, ?_, ?_, ?_, ?_⟩, rfl⟩
  · norm_num
    omega
  · norm_num
    omega
  · exact h.nTime
  · exact Codec.valid_vector h.vin.1 fun txin htxin ↦ (h.vin.2 txin htxin).valid
  · exact Codec.valid_vector h.vout.1 fun txout htxout ↦ (h.vout.2 txout htxout).valid
  · exact h.nLockTime

/-- `ss << txTmp << nHashType` -/
def hashedBytes (txTmp : CTransaction) (nHashType : ℕ) : List UInt8 :=
  CTransaction.codec.put txTmp ++ (Codec.uint 4).put nHashType

/-! ## The copy that is hashed -/

section

variable (scriptCode : CScript) (tx : CTransaction) (nIn nHashType : ℕ)

def signsNone : Prop := nHashType &&& 0x1f = SIGHASH_NONE
def signsSingle : Prop := nHashType &&& 0x1f = SIGHASH_SINGLE

instance : Decidable (signsNone nHashType) := inferInstanceAs (Decidable (_ = _))
instance : Decidable (signsSingle nHashType) := inferInstanceAs (Decidable (_ = _))

/-- The inputs of `txTmp` before those of the others are left out. -/
def signedInputs : List CTxIn :=
  hashedInputs (findAndDelete [OP_CODESEPARATOR] scriptCode) nIn
    (decide (signsNone nHashType ∨ signsSingle nHashType)) tx.vin

def signedOutputs : List CTxOut :=
  if signsNone nHashType then []
  else if signsSingle nHashType then List.replicate nIn .null ++ (tx.vout.drop nIn).take 1
  else tx.vout

/-- `txTmp` of `SignatureHash` when it is hashed. -/
def signedTx : CTransaction :=
  { tx with
    vin :=
      if hasFlag nHashType SIGHASH_ANYONECANPAY then
        ((signedInputs scriptCode tx nIn nHashType).drop nIn).take 1
      else signedInputs scriptCode tx nIn nHashType
    vout := signedOutputs tx nIn nHashType }

variable {scriptCode tx nIn nHashType}

theorem signatureHash_eq (C : Crypto) (hin : nIn < tx.vin.length)
    (hsingle : signsSingle nHashType → nIn < tx.vout.length) :
    signatureHash C scriptCode tx nIn nHashType =
      C.hashTx (signedTx scriptCode tx nIn nHashType) nHashType := by
  unfold signatureHash
  dsimp only
  rw [if_neg]
  · rfl
  · rintro (h | ⟨h₁, h₂⟩)
    · omega
    · have := hsingle h₁
      omega

/-- An output of the copy was one of the transaction, or is null. -/
theorem mem_signedOutputs {txout : CTxOut} (h : txout ∈ signedOutputs tx nIn nHashType) :
    txout = .null ∨ txout ∈ tx.vout := by
  unfold signedOutputs at h
  split at h
  · cases h
  · split at h
    · rcases List.mem_append.mp h with h | h
      · exact .inl (List.eq_of_mem_replicate h)
      · exact .inr (List.mem_of_mem_drop (List.mem_of_mem_take h))
    · exact .inr h

theorem length_signedOutputs (hsingle : signsSingle nHashType → nIn < tx.vout.length) :
    (signedOutputs tx nIn nHashType).length ≤ tx.vout.length := by
  unfold signedOutputs
  split
  · exact Nat.zero_le _
  · split
    · rename_i h
      have := hsingle h
      rw [List.length_append, List.length_replicate, List.length_take, List.length_drop]
      omega
    · exact le_rfl

end

/-! ## Code separators -/

theorem length_eraseHere_le (b : CScript) : ∀ (fuel : ℕ) (pc : CScript),
    (eraseHere b fuel pc).length ≤ pc.length
  | 0, _ => le_rfl
  | fuel + 1, pc => by
    rw [eraseHere]
    split
    · have hle := length_eraseHere_le b fuel (pc.drop b.length)
      rw [List.length_drop] at hle
      omega
    · exact le_rfl

theorem length_findAndDeleteFrom_le (b : CScript) : ∀ (fuel : ℕ) (pc : CScript),
    (findAndDeleteFrom b fuel pc).length ≤ pc.length
  | 0, _ => le_rfl
  | fuel + 1, pc => by
    have hle := length_eraseHere_le b pc.length pc
    rw [findAndDeleteFrom]
    cases hop : getOp (eraseHere b pc.length pc) with
    | none => exact hle
    | some r =>
      obtain ⟨opcode, vch, rest⟩ := r
      have hrest := length_findAndDeleteFrom_le b fuel rest
      have hlt := length_of_getOp hop
      rw [List.length_append, List.length_take]
      omega

/-- `FindAndDelete` makes a script no longer. -/
theorem length_findAndDelete_le (b script : CScript) :
    (findAndDelete b script).length ≤ script.length := by
  unfold findAndDelete
  split
  · exact le_rfl
  · exact length_findAndDeleteFrom_le b _ script

/-! ## The copy is of the same types -/

section

variable {scriptCode : CScript} {tx : CTransaction} {nIn nHashType : ℕ}

theorem getElem?_signedInputs (i : ℕ) :
    (signedInputs scriptCode tx nIn nHashType)[i]? = (tx.vin[i]?).map fun txin ↦
      if i = nIn then { txin with scriptSig := findAndDelete [OP_CODESEPARATOR] scriptCode }
      else { txin with
        scriptSig := []
        nSequence := if signsNone nHashType ∨ signsSingle nHashType then 0 else txin.nSequence } := by
  rw [signedInputs, hashedInputs, List.getElem?_mapIdx]
  simp only [decide_eq_true_eq]

theorem fits_signedInputs (htx : tx.Fits) (hscript : scriptCode.length < 2 ^ 64) :
    ∀ txin ∈ signedInputs scriptCode tx nIn nHashType, txin.Fits := by
  intro txin htxin
  obtain ⟨i, hi⟩ := List.mem_iff_getElem?.mp htxin
  rw [getElem?_signedInputs] at hi
  obtain ⟨txin', hget, rfl⟩ := Option.map_eq_some_iff.mp hi
  have hfits := htx.vin.2 txin' (List.mem_of_getElem? hget)
  have hle := length_findAndDelete_le [OP_CODESEPARATOR] scriptCode
  split
  · exact { hfits with scriptSig := lt_of_le_of_lt hle hscript }
  · refine { hfits with scriptSig := Nat.two_pow_pos 64, nSequence := ?_ }
    dsimp only
    split
    · exact Nat.two_pow_pos 32
    · exact hfits.nSequence

theorem fits_signedTx (htx : tx.Fits) (hscript : scriptCode.length < 2 ^ 64)
    (hsingle : signsSingle nHashType → nIn < tx.vout.length) :
    (signedTx scriptCode tx nIn nHashType).Fits := by
  have hlen : (signedInputs scriptCode tx nIn nHashType).length = tx.vin.length := List.length_mapIdx
  have hin : ∀ txin ∈ signedInputs scriptCode tx nIn nHashType, txin.Fits :=
    fits_signedInputs htx hscript
  refine { htx with vin := ?_, vout := ⟨?_, fun txout htxout ↦ ?_⟩ }
  · show (if hasFlag nHashType SIGHASH_ANYONECANPAY then _ else _ : List CTxIn).length < 2 ^ 64 ∧
      ∀ txin ∈ (if hasFlag nHashType SIGHASH_ANYONECANPAY then _ else _ : List CTxIn), txin.Fits
    split
    · refine ⟨?_, fun txin htxin ↦ hin txin (List.mem_of_mem_drop (List.mem_of_mem_take htxin))⟩
      rw [List.length_take]
      omega
    · exact ⟨hlen ▸ htx.vin.1, hin⟩
  · exact lt_of_le_of_lt (length_signedOutputs hsingle) htx.vout.1
  · rcases mem_signedOutputs htxout with rfl | h
    · exact ⟨by decide, Nat.two_pow_pos 64⟩
    · exact htx.vout.2 txout h

end

/-! ## What is committed to -/

/-- What the signature of the `nIn`-th input commits to is the same. -/
structure Commits (nIn nHashType : ℕ) (scriptCode scriptCode' : CScript) (tx tx' : CTransaction) :
    Prop where
  nVersion : tx.nVersion = tx'.nVersion
  nTime : tx.nTime = tx'.nTime
  nLockTime : tx.nLockTime = tx'.nLockTime
  prevout : (tx.vin[nIn]?).map CTxIn.prevout = (tx'.vin[nIn]?).map CTxIn.prevout
  nSequence : (tx.vin[nIn]?).map CTxIn.nSequence = (tx'.vin[nIn]?).map CTxIn.nSequence
  scriptCode : findAndDelete [OP_CODESEPARATOR] scriptCode =
    findAndDelete [OP_CODESEPARATOR] scriptCode'
  prevouts : ¬ hasFlag nHashType SIGHASH_ANYONECANPAY →
    tx.vin.map CTxIn.prevout = tx'.vin.map CTxIn.prevout
  nSequences : ¬ hasFlag nHashType SIGHASH_ANYONECANPAY → ¬ signsNone nHashType →
    ¬ signsSingle nHashType → tx.vin.map CTxIn.nSequence = tx'.vin.map CTxIn.nSequence
  vout : ¬ signsNone nHashType → ¬ signsSingle nHashType → tx.vout = tx'.vout
  txout : signsSingle nHashType → tx.vout[nIn]? = tx'.vout[nIn]?

section

variable {scriptCode scriptCode' : CScript} {tx tx' : CTransaction} {nIn nHashType : ℕ}

/-- The signed input of the copy. -/
theorem signedInput_eq
    (h : signedTx scriptCode tx nIn nHashType = signedTx scriptCode' tx' nIn nHashType) :
    (signedInputs scriptCode tx nIn nHashType)[nIn]? =
      (signedInputs scriptCode' tx' nIn nHashType)[nIn]? := by
  have hvin := congrArg CTransaction.vin h
  unfold signedTx at hvin
  dsimp only at hvin
  split at hvin
  · have hhead := congrArg List.head? hvin
    rw [List.head?_take, List.head?_take, if_neg one_ne_zero, if_neg one_ne_zero, List.head?_drop,
      List.head?_drop] at hhead
    exact hhead
  · rw [hvin]

theorem not_signsNone (h : signsSingle nHashType) : ¬ signsNone nHashType := by
  intro hnone
  unfold signsNone at hnone
  rw [show nHashType &&& 0x1f = SIGHASH_SINGLE from h] at hnone
  exact absurd hnone (by decide)

/-- The outpoints of the inputs are kept. -/
theorem prevout_signedInputs :
    (signedInputs scriptCode tx nIn nHashType).map CTxIn.prevout = tx.vin.map CTxIn.prevout := by
  refine List.ext_getElem? fun i ↦ ?_
  rw [List.getElem?_map, List.getElem?_map, getElem?_signedInputs, Option.map_map]
  refine Option.map_congr fun txin _ ↦ ?_
  rw [Function.comp_apply, apply_ite CTxIn.prevout]
  exact ite_self _

/-- The sequence numbers are, unless the hash type lets the others update. -/
theorem nSequence_signedInputs (hnone : ¬ signsNone nHashType) (hsingle : ¬ signsSingle nHashType) :
    (signedInputs scriptCode tx nIn nHashType).map CTxIn.nSequence =
      tx.vin.map CTxIn.nSequence := by
  refine List.ext_getElem? fun i ↦ ?_
  rw [List.getElem?_map, List.getElem?_map, getElem?_signedInputs, Option.map_map]
  refine Option.map_congr fun txin _ ↦ ?_
  rw [Function.comp_apply, apply_ite CTxIn.nSequence, if_neg (not_or.mpr ⟨hnone, hsingle⟩)]
  exact ite_self _

theorem signedInput_self : (signedInputs scriptCode tx nIn nHashType)[nIn]? =
    (tx.vin[nIn]?).map fun txin ↦
      { txin with scriptSig := findAndDelete [OP_CODESEPARATOR] scriptCode } := by
  rw [getElem?_signedInputs]
  refine Option.map_congr fun txin _ ↦ ?_
  exact if_pos rfl

theorem commits_of_signedTx (hin : nIn < tx.vin.length)
    (h : signedTx scriptCode tx nIn nHashType = signedTx scriptCode' tx' nIn nHashType) :
    Commits nIn nHashType scriptCode scriptCode' tx tx' := by
  have hinput := signedInput_eq h
  rw [signedInput_self, signedInput_self] at hinput
  have hvout : signedOutputs tx nIn nHashType = signedOutputs tx' nIn nHashType :=
    congrArg CTransaction.vout h
  have hvin : ¬ hasFlag nHashType SIGHASH_ANYONECANPAY →
      signedInputs scriptCode tx nIn nHashType = signedInputs scriptCode' tx' nIn nHashType := by
    intro hall
    have hvin := congrArg CTransaction.vin h
    unfold signedTx at hvin
    dsimp only at hvin
    rwa [if_neg hall, if_neg hall] at hvin
  have hfield : ∀ {α : Type} (f : CTxIn → α), (∀ txin script,
      f { txin with scriptSig := script } = f txin) →
        (tx.vin[nIn]?).map f = (tx'.vin[nIn]?).map f := by
    intro α f hf
    have hmap := congrArg (Option.map f) hinput
    simpa only [Option.map_map, Function.comp_def, hf] using hmap
  have hnVersion := congrArg CTransaction.nVersion h
  have hnTime := congrArg CTransaction.nTime h
  have hnLockTime := congrArg CTransaction.nLockTime h
  refine ⟨hnVersion, hnTime, hnLockTime, hfield _ fun _ _ ↦ rfl, hfield _ fun _ _ ↦ rfl,
    ?_, ?_, ?_, ?_, ?_⟩
  · rw [List.getElem?_eq_getElem hin, Option.map_some] at hinput
    obtain ⟨txin, -, heq⟩ := Option.map_eq_some_iff.mp hinput.symm
    exact (congrArg CTxIn.scriptSig heq).symm
  · intro hall
    have hprevouts : (signedInputs scriptCode tx nIn nHashType).map CTxIn.prevout =
        tx.vin.map CTxIn.prevout := prevout_signedInputs
    rw [← hprevouts, hvin hall, prevout_signedInputs]
  · intro hall hnone hsingle
    have hnSequences : (signedInputs scriptCode tx nIn nHashType).map CTxIn.nSequence =
        tx.vin.map CTxIn.nSequence := nSequence_signedInputs hnone hsingle
    rw [← hnSequences, hvin hall, nSequence_signedInputs hnone hsingle]
  · intro hnone hsingle
    unfold signedOutputs at hvout
    rwa [if_neg hnone, if_neg hsingle, if_neg hnone, if_neg hsingle] at hvout
  · intro hsingle
    unfold signedOutputs at hvout
    rw [if_neg (not_signsNone hsingle), if_pos hsingle, if_neg (not_signsNone hsingle),
      if_pos hsingle] at hvout
    have hhead := congrArg List.head? (List.append_cancel_left hvout)
    rw [List.head?_take, List.head?_take, if_neg one_ne_zero, if_neg one_ne_zero, List.head?_drop,
      List.head?_drop] at hhead
    exact hhead

/-- **What a signature commits to.**  With a hash that is free of collisions, transactions with the
same signature hash agree on all that the hash type promises. -/
theorem commits_of_signatureHash {C : Crypto} {hash : List UInt8 → UInt256}
    (hC : ∀ txTmp nHashType, C.hashTx txTmp nHashType = hash (hashedBytes txTmp nHashType))
    (hash_injective : Function.Injective hash) (htx : tx.Fits) (htx' : tx'.Fits)
    (hscript : scriptCode.length < 2 ^ 64) (hscript' : scriptCode'.length < 2 ^ 64)
    (hin : nIn < tx.vin.length) (hin' : nIn < tx'.vin.length)
    (hsingle : signsSingle nHashType → nIn < tx.vout.length ∧ nIn < tx'.vout.length)
    (h : signatureHash C scriptCode tx nIn nHashType =
      signatureHash C scriptCode' tx' nIn nHashType) :
    Commits nIn nHashType scriptCode scriptCode' tx tx' := by
  have hout := fun h ↦ (hsingle h).1
  have hout' := fun h ↦ (hsingle h).2
  rw [signatureHash_eq C hin hout, signatureHash_eq C hin' hout', hC, hC] at h
  have hcopy := CTransaction.codec.put_append_inj (fits_signedTx htx hscript hout).valid
    (fits_signedTx htx' hscript' hout').valid (hash_injective h)
  exact commits_of_signedTx hin hcopy.1

end

namespace Sample

/-- A hash of bytes that is free of collisions. -/
def hash (bytes : List UInt8) : UInt256 := Encodable.encode (bytes.map UInt8.toNat)

theorem hash_injective : Function.Injective hash := fun _ _ h ↦
  List.map_injective_iff.mpr (fun _ _ h ↦ UInt8.toNat_inj.mp h) (Encodable.encode_injective h)

def hashing : Crypto where
  ripemd160 vch := vch
  sha1 vch := vch
  sha256 vch := vch
  hash160 vch := vch
  hash256 vch := vch
  hashTx txTmp nHashType := hash (hashedBytes txTmp nHashType)
  verify _ _ _ := true

/-- Two inputs, and what one of them was signed with. -/
def signed (scriptSig : CScript) : CTransaction where
  nVersion := 1
  nTime := 120
  vin := [⟨⟨7, 0⟩, scriptSig, uintMax⟩, ⟨⟨8, 1⟩, [], 5⟩]
  vout := [⟨3, [0x51]⟩]
  nLockTime := 0

theorem fits_signed {scriptSig : CScript} (h : scriptSig.length < 2 ^ 64) :
    (signed scriptSig).Fits where
  nVersion := by constructor <;> norm_num [signed]
  nTime := by norm_num [signed]
  vin := by
    refine ⟨by norm_num [signed], fun txin htxin ↦ ?_⟩
    rcases List.mem_pair.mp htxin with rfl | rfl
    · exact ⟨by norm_num, by norm_num, h, by norm_num [uintMax]⟩
    · exact ⟨by norm_num, by norm_num, by norm_num, by norm_num⟩
  vout := by
    refine ⟨by norm_num [signed], fun txout htxout ↦ ?_⟩
    cases List.mem_singleton.mp htxout
    exact ⟨by decide, by norm_num⟩
  nLockTime := by norm_num [signed]

end Sample

/-- Two transactions that differ in what an input was signed with. -/
theorem commits_of_signatureHash_sample :
    signatureHash Sample.hashing [0xac] (Sample.signed [1]) 0 SIGHASH_ALL =
        signatureHash Sample.hashing [0xac, OP_CODESEPARATOR] (Sample.signed [2]) 0 SIGHASH_ALL ∧
      Commits 0 SIGHASH_ALL [0xac] [0xac, OP_CODESEPARATOR] (Sample.signed [1])
        (Sample.signed [2]) := by
  have hsingle : ¬ signsSingle SIGHASH_ALL := by decide
  have heq : signatureHash Sample.hashing [0xac] (Sample.signed [1]) 0 SIGHASH_ALL =
      signatureHash Sample.hashing [0xac, OP_CODESEPARATOR] (Sample.signed [2]) 0 SIGHASH_ALL := by
    rw [signatureHash_eq _ (by decide) fun h ↦ absurd h hsingle,
      signatureHash_eq _ (by decide) fun h ↦ absurd h hsingle]
    exact congrArg (Sample.hashing.hashTx · SIGHASH_ALL) (by decide)
  have hC : ∀ txTmp nHashType, Sample.hashing.hashTx txTmp nHashType =
      Sample.hash (hashedBytes txTmp nHashType) := fun _ _ ↦ rfl
  exact ⟨heq, commits_of_signatureHash hC Sample.hash_injective
    (Sample.fits_signed (by norm_num)) (Sample.fits_signed (by norm_num)) (by norm_num)
    (by norm_num) (by decide) (by decide) (fun h ↦ absurd h hsingle) heq⟩

end Bws
