import Bws.Script

/-!
# The script interpreter

`EvalScript`, `CheckSig` and `VerifyScript`.  The hash functions and the verification of a signature
against a key are parameters (`Crypto`).  The cache of signatures that were found valid is left out:
it only holds what `Verify` has accepted, so that looking there first gives the same answer.

A run also counts the calls of `CheckSig` (`Checked`), of a script that fails too.  A stack is a list
with the top first.
-/

namespace Bws

/-- The functions on bytes that are not embedded. -/
structure Crypto where
  ripemd160 : valtype → valtype
  sha1 : valtype → valtype
  sha256 : valtype → valtype
  hash160 : valtype → valtype
  hash256 : valtype → valtype
  /-- the hash of a serialized transaction and a hash type -/
  hashTx : CTransaction → ℕ → UInt256
  /-- `CPubKey::Verify` for a valid key -/
  verify : valtype → UInt256 → valtype → Bool

/-- What `EvalScript` is called for. -/
structure ScriptContext where
  txTo : CTransaction
  nIn : ℕ
  flags : ℕ
  nHashType : ℕ

/-! ## Numbers -/

namespace CBigNum

/-- `CBigNum(vch)`: the first bit of the last byte is the sign. -/
def setvch (vch : valtype) : ℤ :=
  match vch.getLast? with
  | none => 0
  | some b =>
    if 0x80 ≤ b then -((leNat vch : ℤ) - 2 ^ (8 * vch.length - 1)) else leNat vch

/-- `CBigNum::getvch` -/
def getvch (bn : ℤ) : valtype :=
  let vch := leBytes bn.natAbs bn.natAbs
  match vch.getLast? with
  | none => []
  | some b =>
    if 0x80 ≤ b then vch ++ [if bn < 0 then 0x80 else 0]
    else if bn < 0 then vch.dropLast ++ [b + 0x80] else vch

/-- `CBigNum::getint` -/
def getint (bn : ℤ) : ℤ :=
  if 2 ^ 31 - 1 < bn then 2 ^ 31 - 1 else if bn < -(2 ^ 31 - 1) then -2 ^ 31 else bn

end CBigNum

/-- `CastToBigNum`; it throws when there are too many bytes. -/
def castToBigNum (vch : valtype) (nMaxNumSize : ℕ) : Option ℤ :=
  if nMaxNumSize < vch.length then none else some (CBigNum.setvch vch)

def nDefaultMaxNumSize : ℕ := 4

/-- `CastToBool`: a negative zero is false too. -/
def castToBool : valtype → Bool
  | [] => false
  | [b] => b ≠ 0 ∧ b ≠ 0x80
  | b :: vch => b ≠ 0 ∨ castToBool vch

def vchFalse : valtype := []
def vchTrue : valtype := [1]

def boolToVch (f : Bool) : valtype := if f then vchTrue else vchFalse

/-! ## Signatures -/

/-- `flags & flag` -/
def hasFlag (flags flag : ℕ) : Prop := flags &&& flag ≠ 0

instance (flags flag : ℕ) : Decidable (hasFlag flags flag) := inferInstanceAs (Decidable (_ ≠ _))

def SIGHASH_ALL : ℕ := 1
def SIGHASH_NONE : ℕ := 2
def SIGHASH_SINGLE : ℕ := 3
def SIGHASH_ANYONECANPAY : ℕ := 0x80

/-- `IsDERSignature` -/
def isDERSignature (vchSig : valtype) (haveHashType : Bool) : Prop :=
  let nLenR := (vchSig.getD 3 0).toNat
  let nLenS := (vchSig.getD (5 + nLenR) 0).toNat
  let R := fun i ↦ vchSig.getD (4 + i) 0
  let S := fun i ↦ vchSig.getD (6 + nLenR + i) 0
  9 ≤ vchSig.length ∧ vchSig.length ≤ 73 ∧ vchSig.getD 0 0 = 0x30 ∧
    (vchSig.getD 1 0).toNat = vchSig.length - (if haveHashType then 3 else 2) ∧
    5 + nLenR < vchSig.length ∧
    nLenR + nLenS + (if haveHashType then 7 else 6) = vchSig.length ∧
    vchSig.getD 2 0 = 0x02 ∧ nLenR ≠ 0 ∧ R 0 < 0x80 ∧ ¬ (1 < nLenR ∧ R 0 = 0 ∧ R 1 < 0x80) ∧
    vchSig.getD (4 + nLenR) 0 = 0x02 ∧ nLenS ≠ 0 ∧ S 0 < 0x80 ∧
    ¬ (1 < nLenS ∧ S 0 = 0 ∧ S 1 < 0x80)

instance (vchSig : valtype) (haveHashType : Bool) : Decidable (isDERSignature vchSig haveHashType) :=
  inferInstanceAs (Decidable (_ ∧ _))

/-- Half of the order of the generator of secp256k1, less one. -/
def maxModHalfOrder : ℕ := 0x7fffffffffffffffffffffffffffffff5d576e7357a4501ddfe92f46681b20a0

/-- `IsLowDERSignature`, with `CKey::CheckSignatureElement` of the number `S`. -/
def isLowDERSignature (vchSig : valtype) (haveHashType : Bool) : Prop :=
  let nLenR := (vchSig.getD 3 0).toNat
  let nLenS := (vchSig.getD (5 + nLenR) 0).toNat
  let S := leNat ((vchSig.drop (6 + nLenR)).take nLenS).reverse
  isDERSignature vchSig haveHashType ∧ 0 < S ∧ S ≤ maxModHalfOrder

instance (vchSig : valtype) (haveHashType : Bool) :
    Decidable (isLowDERSignature vchSig haveHashType) := inferInstanceAs (Decidable (_ ∧ _))

/-- `IsDefinedHashtypeSignature` -/
def isDefinedHashtypeSignature (vchSig : valtype) : Prop :=
  ∃ b ∈ vchSig.getLast?, SIGHASH_ALL ≤ b.toNat % SIGHASH_ANYONECANPAY ∧
    b.toNat % SIGHASH_ANYONECANPAY ≤ SIGHASH_SINGLE

instance (vchSig : valtype) : Decidable (isDefinedHashtypeSignature vchSig) :=
  inferInstanceAs (Decidable (∃ _ ∈ _, _))

/-- `CheckSignatureEncoding` -/
def checkSignatureEncoding (vchSig : valtype) (flags : ℕ) : Prop :=
  hasFlag flags SCRIPT_VERIFY_ALLOW_EMPTY_SIG ∧ vchSig = [] ∨
    isLowDERSignature vchSig true ∧
      (hasFlag flags SCRIPT_VERIFY_FIX_HASHTYPE ∨ isDefinedHashtypeSignature vchSig)

instance (vchSig : valtype) (flags : ℕ) : Decidable (checkSignatureEncoding vchSig flags) :=
  inferInstanceAs (Decidable (_ ∨ _))

/-- `IsCompressedOrUncompressedPubKey` -/
def checkPubKeyEncoding (vchPubKey : valtype) : Prop :=
  33 ≤ vchPubKey.length ∧
    (if vchPubKey.getD 0 0 = 0x04 then vchPubKey.length = 65
    else if vchPubKey.getD 0 0 = 0x02 ∨ vchPubKey.getD 0 0 = 0x03 then vchPubKey.length = 33
    else False)

instance (vchPubKey : valtype) : Decidable (checkPubKeyEncoding vchPubKey) :=
  inferInstanceAs (Decidable (_ ∧ _))

/-- `CPubKey(vchPubKey).IsValid()` -/
def isValidPubKey (vchPubKey : valtype) : Prop :=
  match vchPubKey with
  | [] => False
  | b :: _ =>
    if b = 2 ∨ b = 3 then vchPubKey.length = 33
    else if b = 4 ∨ b = 6 ∨ b = 7 then vchPubKey.length = 65
    else False

instance (vchPubKey : valtype) : Decidable (isValidPubKey vchPubKey) := by
  unfold isValidPubKey
  cases vchPubKey <;> infer_instance

/-- `CTxOut::SetNull` -/
def CTxOut.null : CTxOut := ⟨-1, []⟩

/-- The inputs that are hashed for the `nIn`-th signature: the other scripts are blanked out, and
with `fUpdate` the other sequence numbers too. -/
def hashedInputs (scriptCode : CScript) (nIn : ℕ) (fUpdate : Bool) (vin : List CTxIn) :
    List CTxIn :=
  vin.mapIdx fun i txin ↦
    if i = nIn then { txin with scriptSig := scriptCode }
    else { txin with scriptSig := [], nSequence := if fUpdate then 0 else txin.nSequence }

/-- `SignatureHash` -/
def signatureHash (C : Crypto) (scriptCode : CScript) (txTo : CTransaction) (nIn nHashType : ℕ) :
    UInt256 :=
  let fNone := nHashType &&& 0x1f = SIGHASH_NONE
  let fSingle := nHashType &&& 0x1f = SIGHASH_SINGLE
  if txTo.vin.length ≤ nIn ∨ fSingle ∧ txTo.vout.length ≤ nIn then 1
  else
    let scriptCode := findAndDelete [OP_CODESEPARATOR] scriptCode
    let vin := hashedInputs scriptCode nIn (decide (fNone ∨ fSingle)) txTo.vin
    let vout :=
      if fNone then []
      else if fSingle then List.replicate nIn .null ++ (txTo.vout.drop nIn).take 1
      else txTo.vout
    let vin := if hasFlag nHashType SIGHASH_ANYONECANPAY then (vin.drop nIn).take 1 else vin
    C.hashTx { txTo with vin, vout } nHashType

/-- `CheckSig` -/
def checkSig (C : Crypto) (c : ScriptContext) (scriptCode : CScript) (vchSig vchPubKey : valtype) :
    Bool :=
  match vchSig.getLast? with
  | none => false
  | some b =>
    let nHashType := if c.nHashType = 0 then b.toNat else c.nHashType
    decide (isValidPubKey vchPubKey ∧ nHashType = b.toNat) &&
      C.verify vchPubKey (signatureHash C scriptCode c.txTo c.nIn nHashType) vchSig.dropLast

/-! ## A run -/

/-- A part of a run: how many times it has called `CheckSig`, and what it leaves unless the script
fails there. -/
structure Checked (α : Type) where
  checks : ℕ
  result : Option α

namespace Checked

variable {α β : Type}

/-- A part that checks no signature. -/
def plain (result : Option α) : Checked α := ⟨0, result⟩

@[simp] theorem checks_plain (result : Option α) : (plain result).checks = 0 := rfl
@[simp] theorem result_plain (result : Option α) : (plain result).result = result := rfl

/-- One part after another. -/
def bind (x : Checked α) (f : α → Checked β) : Checked β :=
  match x.result with
  | none => ⟨x.checks, none⟩
  | some a => ⟨x.checks + (f a).checks, (f a).result⟩

theorem bind_of_none {x : Checked α} (h : x.result = none) (f : α → Checked β) :
    x.bind f = ⟨x.checks, none⟩ := by
  rw [bind, h]

theorem bind_of_some {x : Checked α} {a : α} (h : x.result = some a) (f : α → Checked β) :
    x.bind f = ⟨x.checks + (f a).checks, (f a).result⟩ := by
  rw [bind, h]

theorem result_bind (x : Checked α) (f : α → Checked β) :
    (x.bind f).result = x.result.bind fun a ↦ (f a).result := by
  unfold bind
  cases x.result <;> rfl

/-- What is left is changed. -/
def map (f : α → Option β) (x : Checked α) : Checked β := ⟨x.checks, x.result.bind f⟩

@[simp] theorem checks_map (f : α → Option β) (x : Checked α) : (x.map f).checks = x.checks := rfl
@[simp] theorem result_map (f : α → Option β) (x : Checked α) :
    (x.map f).result = x.result.bind f := rfl

end Checked

structure ScriptState where
  stack : List valtype
  altstack : List valtype
  /-- the branches that the run is in, the innermost first -/
  vfExec : List Bool
  nOpCount : ℕ
  /-- the script from `pbegincodehash` on -/
  codehash : CScript
deriving DecidableEq

def MAX_SCRIPT_ELEMENT_SIZE : ℕ := 520

/-! ## Instructions that check no signature -/

/-- The instructions that move elements of the stack. -/
def evalStackOp (opcode : UInt8) (stack : List valtype) : Option (List valtype) :=
  if opcode = OP_2DROP then
    match stack with
    | _ :: _ :: stack => some stack
    | _ => none
  else if opcode = OP_2DUP then
    match stack with
    | x₂ :: x₁ :: stack => some (x₂ :: x₁ :: x₂ :: x₁ :: stack)
    | _ => none
  else if opcode = OP_3DUP then
    match stack with
    | x₃ :: x₂ :: x₁ :: stack => some (x₃ :: x₂ :: x₁ :: x₃ :: x₂ :: x₁ :: stack)
    | _ => none
  else if opcode = OP_2OVER then
    match stack with
    | x₄ :: x₃ :: x₂ :: x₁ :: stack => some (x₂ :: x₁ :: x₄ :: x₃ :: x₂ :: x₁ :: stack)
    | _ => none
  else if opcode = OP_2ROT then
    match stack with
    | x₆ :: x₅ :: x₄ :: x₃ :: x₂ :: x₁ :: stack =>
      some (x₂ :: x₁ :: x₆ :: x₅ :: x₄ :: x₃ :: stack)
    | _ => none
  else if opcode = OP_2SWAP then
    match stack with
    | x₄ :: x₃ :: x₂ :: x₁ :: stack => some (x₂ :: x₁ :: x₄ :: x₃ :: stack)
    | _ => none
  else if opcode = OP_IFDUP then
    match stack with
    | x :: stack => some (if castToBool x then x :: x :: stack else x :: stack)
    | _ => none
  else if opcode = OP_DEPTH then some (CBigNum.getvch stack.length :: stack)
  else if opcode = OP_DROP then
    match stack with
    | _ :: stack => some stack
    | _ => none
  else if opcode = OP_DUP then
    match stack with
    | x :: stack => some (x :: x :: stack)
    | _ => none
  else if opcode = OP_NIP then
    match stack with
    | x₂ :: _ :: stack => some (x₂ :: stack)
    | _ => none
  else if opcode = OP_OVER then
    match stack with
    | x₂ :: x₁ :: stack => some (x₁ :: x₂ :: x₁ :: stack)
    | _ => none
  else if opcode = OP_PICK ∨ opcode = OP_ROLL then
    match stack with
    | x :: y :: stack =>
      match (castToBigNum x nDefaultMaxNumSize).map CBigNum.getint with
      | none => none
      | some n =>
        if n < 0 then none
        else
          match (y :: stack)[n.toNat]? with
          | none => none
          | some vch =>
            some (vch :: if opcode = OP_ROLL then (y :: stack).eraseIdx n.toNat else y :: stack)
    | _ => none
  else if opcode = OP_ROT then
    match stack with
    | x₃ :: x₂ :: x₁ :: stack => some (x₁ :: x₃ :: x₂ :: stack)
    | _ => none
  else if opcode = OP_SWAP then
    match stack with
    | x₂ :: x₁ :: stack => some (x₁ :: x₂ :: stack)
    | _ => none
  else if opcode = OP_TUCK then
    match stack with
    | x₂ :: x₁ :: stack => some (x₂ :: x₁ :: x₂ :: stack)
    | _ => none
  else if opcode = OP_SIZE then
    match stack with
    | x :: stack => some (CBigNum.getvch x.length :: x :: stack)
    | _ => none
  else none

/-- What `OP_1ADD` .. `OP_0NOTEQUAL` make of a number. -/
def unaryOp (opcode : UInt8) (bn : ℤ) : Option ℤ :=
  if opcode = OP_1ADD then some (bn + 1)
  else if opcode = OP_1SUB then some (bn - 1)
  else if opcode = OP_NEGATE then some (-bn)
  else if opcode = OP_ABS then some (if bn < 0 then -bn else bn)
  else if opcode = OP_NOT then some (if bn = 0 then 1 else 0)
  else if opcode = OP_0NOTEQUAL then some (if bn ≠ 0 then 1 else 0)
  else none

/-- What `OP_ADD` .. `OP_MAX` make of two numbers. -/
def binaryOp (opcode : UInt8) (bn₁ bn₂ : ℤ) : Option ℤ :=
  if opcode = OP_ADD then some (bn₁ + bn₂)
  else if opcode = OP_SUB then some (bn₁ - bn₂)
  else if opcode = OP_BOOLAND then some (if bn₁ ≠ 0 ∧ bn₂ ≠ 0 then 1 else 0)
  else if opcode = OP_BOOLOR then some (if bn₁ ≠ 0 ∨ bn₂ ≠ 0 then 1 else 0)
  else if opcode = OP_NUMEQUAL ∨ opcode = OP_NUMEQUALVERIFY then some (if bn₁ = bn₂ then 1 else 0)
  else if opcode = OP_NUMNOTEQUAL then some (if bn₁ ≠ bn₂ then 1 else 0)
  else if opcode = OP_LESSTHAN then some (if bn₁ < bn₂ then 1 else 0)
  else if opcode = OP_GREATERTHAN then some (if bn₂ < bn₁ then 1 else 0)
  else if opcode = OP_LESSTHANOREQUAL then some (if bn₁ ≤ bn₂ then 1 else 0)
  else if opcode = OP_GREATERTHANOREQUAL then some (if bn₂ ≤ bn₁ then 1 else 0)
  else if opcode = OP_MIN then some (if bn₁ < bn₂ then bn₁ else bn₂)
  else if opcode = OP_MAX then some (if bn₂ < bn₁ then bn₁ else bn₂)
  else none

/-- The hash that an opcode stands for. -/
def hashOp (C : Crypto) (opcode : UInt8) (vch : valtype) : Option valtype :=
  if opcode = OP_RIPEMD160 then some (C.ripemd160 vch)
  else if opcode = OP_SHA1 then some (C.sha1 vch)
  else if opcode = OP_SHA256 then some (C.sha256 vch)
  else if opcode = OP_HASH160 then some (C.hash160 vch)
  else if opcode = OP_HASH256 then some (C.hash256 vch)
  else none

/-- The numeric instructions. -/
def evalNumeric (opcode : UInt8) (stack : List valtype) : Option (List valtype) :=
  if OP_1ADD ≤ opcode ∧ opcode ≤ OP_0NOTEQUAL then
    match stack with
    | x :: stack => do
      let bn ← castToBigNum x nDefaultMaxNumSize
      let bn ← unaryOp opcode bn
      some (CBigNum.getvch bn :: stack)
    | _ => none
  else if OP_ADD ≤ opcode ∧ opcode ≤ OP_MAX then
    match stack with
    | x₂ :: x₁ :: stack => do
      let bn₁ ← castToBigNum x₁ nDefaultMaxNumSize
      let bn₂ ← castToBigNum x₂ nDefaultMaxNumSize
      let bn ← binaryOp opcode bn₁ bn₂
      if opcode = OP_NUMEQUALVERIFY then
        (if castToBool (CBigNum.getvch bn) then some stack else none)
      else some (CBigNum.getvch bn :: stack)
    | _ => none
  else if opcode = OP_WITHIN then
    match stack with
    | x₃ :: x₂ :: x₁ :: stack => do
      let bn₁ ← castToBigNum x₁ nDefaultMaxNumSize
      let bn₂ ← castToBigNum x₂ nDefaultMaxNumSize
      let bn₃ ← castToBigNum x₃ nDefaultMaxNumSize
      some (boolToVch (decide (bn₂ ≤ bn₁ ∧ bn₁ < bn₃)) :: stack)
    | _ => none
  else none

/-- The instructions that work on the stack alone. -/
def evalOnStack (C : Crypto) (opcode : UInt8) (stack : List valtype) : Option (List valtype) :=
  if opcode = OP_1NEGATE ∨ OP_1 ≤ opcode ∧ opcode ≤ OP_16 then
    some (CBigNum.getvch ((opcode.toNat : ℤ) - 0x50) :: stack)
  else if opcode = OP_NOP then some stack
  else if opcode = OP_VERIFY then
    match stack with
    | x :: stack => if castToBool x then some stack else none
    | _ => none
  else if opcode = OP_EQUAL then
    match stack with
    | x₂ :: x₁ :: stack => some (boolToVch (decide (x₁ = x₂)) :: stack)
    | _ => none
  else if opcode = OP_EQUALVERIFY then
    match stack with
    | x₂ :: x₁ :: stack => if x₁ = x₂ then some stack else none
    | _ => none
  else if OP_1ADD ≤ opcode ∧ opcode ≤ OP_WITHIN then evalNumeric opcode stack
  else if OP_RIPEMD160 ≤ opcode ∧ opcode ≤ OP_HASH256 then
    match stack with
    | x :: stack => (hashOp C opcode x).map fun vchHash ↦ vchHash :: stack
    | _ => none
  else evalStackOp opcode stack

/-- The instructions that work on the two stacks.  Whatever is not listed fails, `OP_RETURN` and
`OP_BURN` among the rest. -/
def evalPlain (C : Crypto) (opcode : UInt8) (st : ScriptState) : Option ScriptState :=
  if opcode = OP_TOALTSTACK then
    match st.stack with
    | x :: stack => some { st with stack, altstack := x :: st.altstack }
    | _ => none
  else if opcode = OP_FROMALTSTACK then
    match st.altstack with
    | x :: altstack => some { st with stack := x :: st.stack, altstack }
    | _ => none
  else (evalOnStack C opcode st.stack).map fun stack ↦ { st with stack }

/-- `OP_IF`, `OP_NOTIF`, `OP_ELSE` and `OP_ENDIF`, which count in a branch that is not executed
too. -/
def evalControl (opcode : UInt8) (fExec : Bool) (st : ScriptState) : Option ScriptState :=
  if opcode = OP_IF ∨ opcode = OP_NOTIF then
    if fExec then
      match st.stack with
      | x :: stack =>
        some { st with
          stack
          vfExec := (if opcode = OP_NOTIF then !castToBool x else castToBool x) :: st.vfExec }
      | _ => none
    else some { st with vfExec := false :: st.vfExec }
  else if opcode = OP_ELSE then
    match st.vfExec with
    | f :: vfExec => some { st with vfExec := (!f) :: vfExec }
    | _ => none
  else
    match st.vfExec with
    | _ :: vfExec => some { st with vfExec }
    | _ => none

/-- `CheckLockTime` -/
def checkLockTime (txTo : CTransaction) (nIn : ℕ) (nLockTime : ℤ) : Prop :=
  (txTo.nLockTime < LOCKTIME_THRESHOLD ∧ nLockTime < LOCKTIME_THRESHOLD ∨
      LOCKTIME_THRESHOLD ≤ txTo.nLockTime ∧ (LOCKTIME_THRESHOLD : ℤ) ≤ nLockTime) ∧
    nLockTime ≤ txTo.nLockTime ∧ ∃ txin ∈ txTo.vin[nIn]?, ¬ txin.isFinal

instance (txTo : CTransaction) (nIn : ℕ) (nLockTime : ℤ) :
    Decidable (checkLockTime txTo nIn nLockTime) := inferInstanceAs (Decidable (_ ∧ _))

/-- `OP_CHECKLOCKTIMEVERIFY` lets the run go on. -/
def lockTimePasses (c : ScriptContext) (stack : List valtype) : Bool :=
  if ¬ hasFlag c.flags SCRIPT_VERIFY_CHECKLOCKTIMEVERIFY then
    -- not enabled; treat as a NOP2
    ¬ hasFlag c.flags SCRIPT_VERIFY_DISCOURAGE_UPGRADABLE_NOPS
  else
    match stack with
    | [] => false
    | x :: _ =>
      match castToBigNum x 5 with
      | none => false
      | some nLockTime => 0 ≤ nLockTime ∧ checkLockTime c.txTo c.nIn nLockTime

/-! ## Instructions that check signatures -/

/-- The result of a signature check is left on the stack, or tested. -/
def leaveResult (fVerify fSuccess : Bool) (stack : List valtype) : Option (List valtype) :=
  if fVerify then (if fSuccess then some stack else none) else some (boolToVch fSuccess :: stack)

section

variable (C : Crypto) (c : ScriptContext)

/-- One signature against one key.  With `SCRIPT_VERIFY_STRICTENC` a bad encoding ends the script,
otherwise it only makes the check fail. -/
def checkOne (scriptCode : CScript) (vchSig vchPubKey : valtype) : Checked Bool :=
  if checkSignatureEncoding vchSig c.flags ∧ checkPubKeyEncoding vchPubKey then
    ⟨1, some (checkSig C c scriptCode vchSig vchPubKey)⟩
  else .plain (if hasFlag c.flags SCRIPT_VERIFY_STRICTENC then none else some false)

/-- `OP_CHECKSIG` and `OP_CHECKSIGVERIFY` -/
def evalCheckSig (fVerify : Bool) (st : ScriptState) : Checked ScriptState :=
  match st.stack with
  | vchPubKey :: vchSig :: stack =>
    -- drop the signature, since there's no way for a signature to sign itself
    (checkOne C c (findAndDelete (pushData vchSig) st.codehash) vchSig vchPubKey).map
      fun fSuccess ↦ (leaveResult fVerify fSuccess stack).map fun stack ↦ { st with stack }
  | _ => .plain none

/-- The arguments of `OP_CHECKMULTISIG`, in the order in which they are looked at. -/
structure MultiSigArgs where
  keys : List valtype
  sigs : List valtype
  /-- the stack under them -/
  stack : List valtype

/-- The arguments of `OP_CHECKMULTISIG` are taken from the stack. -/
def multiSigArgs (nOpCount : ℕ) (stack : List valtype) : Option MultiSigArgs :=
  match stack with
  | [] => none
  | x :: stack =>
    match (castToBigNum x nDefaultMaxNumSize).map CBigNum.getint with
    | none => none
    | some nKeysCount =>
      if nKeysCount < 0 ∨ 20 < nKeysCount ∨ 201 < nOpCount + nKeysCount.toNat then none
      else
        match stack.drop nKeysCount.toNat with
        | [] => none
        | y :: below =>
          match (castToBigNum y nDefaultMaxNumSize).map CBigNum.getint with
          | none => none
          | some nSigsCount =>
            if nSigsCount < 0 ∨ nKeysCount < nSigsCount ∨ below.length < nSigsCount.toNat + 1
            then none
            else
              some ⟨stack.take nKeysCount.toNat, below.take nSigsCount.toNat,
                below.drop nSigsCount.toNat⟩

/-- The loop of `OP_CHECKMULTISIG`: every signature in its turn against the keys that are left. -/
def multiSigLoop (scriptCode : CScript) : List valtype → List valtype → Checked Bool
  | _, [] => .plain (some true)
  | [], _ :: _ => .plain (some false)
  | vchPubKey :: keys, vchSig :: sigs =>
    (checkOne C c scriptCode vchSig vchPubKey).bind fun fOk ↦
      if keys.length < (if fOk then sigs else vchSig :: sigs).length then .plain (some false)
      else multiSigLoop scriptCode keys (if fOk then sigs else vchSig :: sigs)

/-- The end of `OP_CHECKMULTISIG`: one element too many is taken from the stack. -/
def dropDummy (fVerify fSuccess : Bool) (stack : List valtype) : Option (List valtype) :=
  match stack with
  | [] => none
  | dummy :: stack =>
    if hasFlag c.flags SCRIPT_VERIFY_NULLDUMMY ∧ dummy ≠ [] then none
    else leaveResult fVerify fSuccess stack

/-- `OP_CHECKMULTISIG` and `OP_CHECKMULTISIGVERIFY` -/
def evalCheckMultiSig (fVerify : Bool) (st : ScriptState) : Checked ScriptState :=
  match multiSigArgs st.nOpCount st.stack with
  | none => .plain none
  | some args =>
    let scriptCode := args.sigs.foldl (fun script vchSig ↦ findAndDelete (pushData vchSig) script)
      st.codehash
    (multiSigLoop C c scriptCode args.keys args.sigs).map fun fSuccess ↦
      (dropDummy c fVerify fSuccess args.stack).map fun stack ↦
        { st with stack, nOpCount := st.nOpCount + args.keys.length }

/-! ## EvalScript -/

/-- `switch (opcode)`, for an instruction that is followed by `pc`. -/
def evalOp (opcode : UInt8) (pc : CScript) (fExec : Bool) (st : ScriptState) :
    Checked ScriptState :=
  if opcode = OP_IF ∨ opcode = OP_NOTIF ∨ opcode = OP_ELSE ∨ opcode = OP_ENDIF then
    .plain (evalControl opcode fExec st)
  else if opcode = OP_CHECKLOCKTIMEVERIFY then
    .plain (if lockTimePasses c st.stack then some st else none)
  else if opcode = OP_NOP1 ∨ OP_NOP3 ≤ opcode ∧ opcode ≤ OP_NOP10 then
    .plain (if hasFlag c.flags SCRIPT_VERIFY_DISCOURAGE_UPGRADABLE_NOPS then none else some st)
  else if opcode = OP_CODESEPARATOR then .plain (some { st with codehash := pc })
  else if opcode = OP_CHECKSIG ∨ opcode = OP_CHECKSIGVERIFY then
    evalCheckSig C c (opcode = OP_CHECKSIGVERIFY) st
  else if opcode = OP_CHECKMULTISIG ∨ opcode = OP_CHECKMULTISIGVERIFY then
    evalCheckMultiSig C c (opcode = OP_CHECKMULTISIGVERIFY) st
  else .plain (evalPlain C opcode st)

/-- `if (opcode > OP_16 && ++nOpCount > 201)` -/
def countOp (opcode : UInt8) (st : ScriptState) : ScriptState :=
  if OP_16 < opcode then { st with nOpCount := st.nOpCount + 1 } else st

def disabledOpcodes : List UInt8 :=
  [OP_CAT, OP_SUBSTR, OP_LEFT, OP_RIGHT, OP_INVERT, OP_AND, OP_OR, OP_XOR, OP_2MUL, OP_2DIV, OP_MUL,
    OP_DIV, OP_MOD, OP_LSHIFT, OP_RSHIFT]

/-- No enclosing branch is skipped. -/
def ScriptState.fExec (st : ScriptState) : Bool := st.vfExec.all id

/-- The instruction is refused whatever the stack holds. -/
def refusesOp (opcode : UInt8) (vchPushValue : valtype) (st : ScriptState) : Prop :=
  MAX_SCRIPT_ELEMENT_SIZE < vchPushValue.length ∨
    OP_16 < opcode ∧ 201 < (countOp opcode st).nOpCount ∨ opcode ∈ disabledOpcodes

instance (opcode : UInt8) (vchPushValue : valtype) (st : ScriptState) :
    Decidable (refusesOp opcode vchPushValue st) := inferInstanceAs (Decidable (_ ∨ _))

/-- An instruction is executed or skipped. -/
def execute (opcode : UInt8) (vchPushValue : valtype) (pc : CScript) (st : ScriptState) :
    Checked ScriptState :=
  if st.fExec ∧ opcode ≤ OP_PUSHDATA4 then .plain (some { st with stack := vchPushValue :: st.stack })
  else if st.fExec ∨ OP_IF ≤ opcode ∧ opcode ≤ OP_ENDIF then evalOp C c opcode pc st.fExec st
  else .plain (some st)

/-- The limit on the size of the stacks. -/
def withinLimits (st : ScriptState) : Option ScriptState :=
  if 1000 < st.stack.length + st.altstack.length then none else some st

/-- One round of the loop of `EvalScript`. -/
def step (opcode : UInt8) (vchPushValue : valtype) (pc : CScript) (st : ScriptState) :
    Checked ScriptState :=
  if refusesOp opcode vchPushValue st then .plain none
  else (execute C c opcode vchPushValue pc (countOp opcode st)).map withinLimits

/-- The loop of `EvalScript`. -/
def evalFrom : Parsed → ScriptState → Checked ScriptState
  | .done, st => .plain (some st)
  | .bad, _ => .plain none
  | .op opcode vch pc next, st => (step C c opcode vch pc st).bind fun st ↦ evalFrom next st

/-- The state that a script is started in. -/
def ScriptState.init (script : CScript) (stack : List valtype) : ScriptState where
  stack := stack
  altstack := []
  vfExec := []
  nOpCount := 0
  codehash := script

/-- `EvalScript` -/
def evalScript (script : CScript) (stack : List valtype) : Checked (List valtype) :=
  if 10000 < script.length then .plain none
  else
    (evalFrom C c (parse script) (.init script stack)).map fun st ↦
      if st.vfExec = [] then some st.stack else none

/-! ## VerifyScript -/

/-- The redeem script that `VerifyScript` runs for a pay-to-script-hash output, and the stack it runs
it on: the top of what `scriptSig` has left, when it only pushes. -/
def redeemScript (scriptSig : CScript) (stackCopy : List valtype) :
    Option (CScript × List valtype) :=
  if isPushOnly scriptSig then
    match stackCopy with
    | [] => none
    | pubKeySerialized :: stackCopy => some (pubKeySerialized, stackCopy)
  else none

/-- A script leaves true on the top of the stack. -/
def leavesTrue (x : Checked (List valtype)) : Prop :=
  ∃ stack ∈ x.result, ∃ vch ∈ stack.head?, castToBool vch

instance (x : Checked (List valtype)) : Decidable (leavesTrue x) :=
  inferInstanceAs (Decidable (∃ _ ∈ _, _))

/-- The run of the redeem script, when there is one. -/
def runRedeem (scriptSig scriptPubKey : CScript) : Option (Checked (List valtype)) :=
  match (evalScript C c scriptSig []).result with
  | none => none
  | some stackCopy =>
    if leavesTrue (evalScript C c scriptPubKey stackCopy) ∧ isPayToScriptHash scriptPubKey then
      (redeemScript scriptSig stackCopy).map fun r ↦ evalScript C c r.1 r.2
    else none

/-- `VerifyScript` -/
def verifyScript (scriptSig scriptPubKey : CScript) : Bool :=
  match (evalScript C c scriptSig []).result with
  | none => false
  | some stackCopy =>
    if leavesTrue (evalScript C c scriptPubKey stackCopy) then
      if isPayToScriptHash scriptPubKey then
        (runRedeem C c scriptSig scriptPubKey).any fun x ↦ leavesTrue x
      else true
    else false

end

/-- `VerifySignature(txFrom, txTo, nIn, flags, 0)` -/
def verifySignature (C : Crypto) (getHash : CTransaction → UInt256) (txFrom txTo : CTransaction)
    (nIn flags : ℕ) : Bool :=
  match txTo.vin[nIn]? with
  | none => false
  | some txin =>
    match txFrom.vout[txin.prevout.n]? with
    | none => false
    | some txout =>
      decide (txin.prevout.hash = getHash txFrom) &&
        verifyScript C ⟨txTo, nIn, flags, 0⟩ txin.scriptSig txout.scriptPubKey

/-- The parameters that stand for the interpreter are the interpreter. -/
structure Params.Interprets (P : Params) (C : Crypto) : Prop where
  verifySignature : P.verifySignature = Bws.verifySignature C P.getHash
  getSigOpCount : P.getSigOpCount = Bws.getSigOpCount false
  getSigOpCountP2SH : P.getSigOpCountP2SH = Bws.getSigOpCountP2SH
  isPushOnly : P.isPushOnly = Bws.isPushOnly

end Bws
