import Bws.Interpreter
import Bws.KeyStore

/-!
# Standard scripts

`Solver` compares a script with the templates of the standard ones and reads off the keys, the hash or
the numbers in it.  What the wallet wants to know of a script goes through it: `ExtractDestination`, and
`IsMine`, which looks into the redeem scripts of the key store.

A failed `Solver` also leaves a type and what it has read so far; nobody looks at them here.
-/

namespace Bws

inductive txnouttype where
  | TX_NONSTANDARD
  | TX_PUBKEY
  | TX_PUBKEYHASH
  | TX_SCRIPTHASH
  | TX_MULTISIG
  | TX_NULL_DATA
deriving DecidableEq

/-! ## Templates -/

def OP_0 : UInt8 := 0x00
def OP_RETURN : UInt8 := 0x6a

/-- What stands for data in a template. -/
def OP_SMALLDATA : UInt8 := 0xf9
def OP_SMALLINTEGER : UInt8 := 0xfa
def OP_PUBKEYS : UInt8 := 0xfb
def OP_PUBKEYHASH : UInt8 := 0xfd
def OP_PUBKEY : UInt8 := 0xfe

/-- `mTemplates`, in the order of the map -/
def mTemplates : List (txnouttype × List UInt8) :=
  [(.TX_PUBKEY, [OP_PUBKEY, OP_CHECKSIG]),
    (.TX_PUBKEYHASH, [OP_DUP, OP_HASH160, OP_PUBKEYHASH, OP_EQUALVERIFY, OP_CHECKSIG]),
    (.TX_MULTISIG, [OP_SMALLINTEGER, OP_PUBKEYS, OP_SMALLINTEGER, OP_CHECKMULTISIG]),
    (.TX_NULL_DATA, [OP_RETURN, OP_SMALLDATA]), (.TX_NULL_DATA, [OP_RETURN])]

/-- The size of a public key, as far as a template can tell. -/
def isKeySize (vch : valtype) : Prop := 33 ≤ vch.length ∧ vch.length ≤ 120

instance (vch : valtype) : Decidable (isKeySize vch) := inferInstanceAs (Decidable (_ ∧ _))

/-- An instruction against one of a template, and what it adds to `vSolutionsRet`. -/
def matchOp (nMaxDatacarrierBytes : ℕ) (opcode2 opcode1 : UInt8) (vch1 : valtype) :
    Option (List valtype) :=
  if opcode2 = OP_PUBKEY then if isKeySize vch1 then some [vch1] else none
  else if opcode2 = OP_PUBKEYHASH then if vch1.length = 20 then some [vch1] else none
  else if opcode2 = OP_SMALLINTEGER then
    if opcode1 = OP_0 ∨ OP_1 ≤ opcode1 ∧ opcode1 ≤ OP_16 then
      some [[UInt8.ofNat (decodeOP_N opcode1)]]
    else none
  else if opcode2 = OP_SMALLDATA then if nMaxDatacarrierBytes < vch1.length then none else some []
  else if opcode1 ≠ opcode2 ∨ vch1 ≠ [] then none
  else some []

/-- The loop over the keys of `OP_PUBKEYS`, for a script of fewer bytes than the first argument: the
keys, and the instruction that follows them with the rest of the script.  Where none can be read, it is
one that no template has. -/
def takePubKeys : ℕ → UInt8 → valtype → CScript → List valtype × UInt8 × valtype × CScript
  | 0, opcode1, vch1, pc1 => ([], opcode1, vch1, pc1)
  | fuel + 1, opcode1, vch1, pc1 =>
    if isKeySize vch1 then
      match getOp pc1 with
      | none => ([vch1], OP_INVALIDOPCODE, [], [])
      | some (opcode, vch, pc) =>
        let (keys, rest) := takePubKeys fuel opcode vch pc
        (vch1 :: keys, rest)
    else ([], opcode1, vch1, pc1)

/-- A script against a template, and the solutions when it matches. -/
def matchTemplate (nMaxDatacarrierBytes : ℕ) : List UInt8 → CScript → Option (List valtype)
  | [], [] => some []
  | [], _ :: _ => none
  | opcode2 :: template, script1 =>
    match getOp script1 with
    | none => none
    | some (opcode1, vch1, pc1) =>
      if opcode2 = OP_PUBKEYS then
        match template with
        | [] => none
        | opcode2 :: template =>
          let (keys, opcode1, vch1, pc1) := takePubKeys (pc1.length + 1) opcode1 vch1 pc1
          match matchOp nMaxDatacarrierBytes opcode2 opcode1 vch1 with
          | none => none
          | some vSolutions =>
            (matchTemplate nMaxDatacarrierBytes template pc1).map (keys ++ vSolutions ++ ·)
      else
        match matchOp nMaxDatacarrierBytes opcode2 opcode1 vch1 with
        | none => none
        | some vSolutions =>
          (matchTemplate nMaxDatacarrierBytes template pc1).map (vSolutions ++ ·)

/-- The first byte of a solution, as in `vSolutionsRet.front()[0]`. -/
def firstByte (vch : valtype) : ℕ := (vch.getD 0 0).toNat

/-- The additional checks for `TX_MULTISIG`. -/
def isMultisig (vSolutions : List valtype) : Prop :=
  let m := firstByte (vSolutions.headD [])
  let n := firstByte (vSolutions.getLastD [])
  1 ≤ m ∧ 1 ≤ n ∧ m ≤ n ∧ vSolutions.length - 2 = n

instance (vSolutions : List valtype) : Decidable (isMultisig vSolutions) :=
  inferInstanceAs (Decidable (_ ∧ _))

/-- The loop of `Solver` over the templates. -/
def scanTemplates (nMaxDatacarrierBytes : ℕ) (script : CScript) :
    List (txnouttype × List UInt8) → Option (txnouttype × List valtype)
  | [] => none
  | (typeRet, template) :: templates =>
    match matchTemplate nMaxDatacarrierBytes template script with
    | none => scanTemplates nMaxDatacarrierBytes script templates
    | some vSolutions =>
      if typeRet = .TX_MULTISIG ∧ ¬ isMultisig vSolutions then none else some (typeRet, vSolutions)

/-- `Solver(scriptPubKey, typeRet, vSolutionsRet)` -/
def solver (nMaxDatacarrierBytes : ℕ) (scriptPubKey : CScript) :
    Option (txnouttype × List valtype) :=
  -- a shortcut for pay-to-script-hash, which is more constrained than the other types
  if isPayToScriptHash scriptPubKey then some (.TX_SCRIPTHASH, [(scriptPubKey.drop 2).take 20])
  else scanTemplates nMaxDatacarrierBytes scriptPubKey mTemplates

/-! ## Destinations -/

abbrev CScriptID := ℕ

/-- `uint160(vch)` -/
def uint160 (vch : valtype) : ℕ := if vch.length = 20 then leNat vch else 0

/-- `CPubKey(vch).GetID()`; an invalid key has no bytes. -/
def keyIDOf (C : Crypto) (vch : valtype) : CKeyID :=
  uint160 (C.hash160 (if isValidPubKey vch then vch else []))

/-- `CScript::GetID` -/
def scriptIDOf (C : Crypto) (script : CScript) : CScriptID := uint160 (C.hash160 script)

/-- `CTxDestination` -/
inductive CTxDestination where
  | noDestination
  | keyID (id : CKeyID)
  | scriptID (id : CScriptID)
deriving DecidableEq

/-- What `Solver` is given besides the script. -/
structure SolverParams where
  crypto : Crypto
  nMaxDatacarrierBytes : ℕ

section

variable (S : SolverParams)

/-- `ExtractDestination` -/
def extractDestination (scriptPubKey : CScript) : Option CTxDestination :=
  match solver S.nMaxDatacarrierBytes scriptPubKey with
  | some (.TX_PUBKEY, vSolutions) => some (.keyID (keyIDOf S.crypto (vSolutions.headD [])))
  | some (.TX_PUBKEYHASH, vSolutions) => some (.keyID (uint160 (vSolutions.headD [])))
  | some (.TX_SCRIPTHASH, vSolutions) => some (.scriptID (uint160 (vSolutions.headD [])))
  -- multisig transactions have more than one address
  | _ => none

/-! ## IsMine -/

/-- What a key store answers, and its redeem scripts. -/
structure CKeyStore where
  haveKey : CKeyID → Bool
  getKey : CKeyID → Option CKey
  getPubKey : CKeyID → Option CPubKey
  mapScripts : Std.TreeMap CScriptID CScript

namespace CKeyStore

variable (keystore : CKeyStore)

def haveCScript (hash : CScriptID) : Bool := keystore.mapScripts.contains hash

def getCScript (hash : CScriptID) : Option CScript := keystore.mapScripts[hash]?

/-- `HaveKeys` -/
def haveKeys (pubkeys : List valtype) : ℕ :=
  pubkeys.countP fun pubkey ↦ keystore.haveKey (keyIDOf S.crypto pubkey)

/-- `IsMine(keystore, dest)` -/
def isMineDest : CTxDestination → Bool
  | .noDestination => false
  | .keyID id => keystore.haveKey id
  | .scriptID id => keystore.haveCScript id

/-- `IsMine(keystore, scriptPubKey)`, for at most as many redeem scripts one inside another as the first
argument is. -/
def isMineWithin : ℕ → CScript → Bool
  | 0, _ => false
  | depth + 1, scriptPubKey =>
    match solver S.nMaxDatacarrierBytes scriptPubKey with
    | none => false
    | some (whichType, vSolutions) =>
      match whichType with
      | .TX_NONSTANDARD | .TX_NULL_DATA => false
      | .TX_PUBKEY => keystore.haveKey (keyIDOf S.crypto (vSolutions.headD []))
      | .TX_PUBKEYHASH => keystore.haveKey (uint160 (vSolutions.headD []))
      | .TX_SCRIPTHASH =>
        match keystore.getCScript (uint160 (vSolutions.headD [])) with
        | none => false
        | some subscript => isMineWithin depth subscript
      | .TX_MULTISIG =>
        -- all the keys, so that nobody else can spend the output
        let keys := vSolutions.tail.dropLast
        keystore.haveKeys S keys = keys.length

/-- `IsMine(keystore, scriptPubKey)`: redeem scripts one inside another are all different. -/
def isMine (scriptPubKey : CScript) : Bool :=
  keystore.isMineWithin S (keystore.mapScripts.size + 1) scriptPubKey

end CKeyStore

end

end Bws
