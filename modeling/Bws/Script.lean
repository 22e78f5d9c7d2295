import Bws.Inputs

/-!
# Scripts

The bytes of a script as instructions (`getOp`, the source's `GetOp2`), and what is read off a
script without running it: `IsPushOnly`, `GetSigOpCount` and `FindAndDelete`.

All the loops of the source over a script read one instruction after another until the bytes run
out or do not form an instruction.  `parse` makes that sequence a tree without branches, and the
loops are recursions on it.
-/

namespace Bws

abbrev valtype := List UInt8

/-! ## Opcodes -/

def OP_PUSHDATA1 : UInt8 := 0x4c
def OP_PUSHDATA2 : UInt8 := 0x4d
def OP_PUSHDATA4 : UInt8 := 0x4e
def OP_1NEGATE : UInt8 := 0x4f
def OP_1 : UInt8 := 0x51
def OP_16 : UInt8 := 0x60

def OP_NOP : UInt8 := 0x61
def OP_IF : UInt8 := 0x63
def OP_NOTIF : UInt8 := 0x64
def OP_ELSE : UInt8 := 0x67
def OP_ENDIF : UInt8 := 0x68
def OP_VERIFY : UInt8 := 0x69

def OP_TOALTSTACK : UInt8 := 0x6b
def OP_FROMALTSTACK : UInt8 := 0x6c
def OP_2DROP : UInt8 := 0x6d
def OP_2DUP : UInt8 := 0x6e
def OP_3DUP : UInt8 := 0x6f
def OP_2OVER : UInt8 := 0x70
def OP_2ROT : UInt8 := 0x71
def OP_2SWAP : UInt8 := 0x72
def OP_IFDUP : UInt8 := 0x73
def OP_DEPTH : UInt8 := 0x74
def OP_DROP : UInt8 := 0x75
def OP_DUP : UInt8 := 0x76
def OP_NIP : UInt8 := 0x77
def OP_OVER : UInt8 := 0x78
def OP_PICK : UInt8 := 0x79
def OP_ROLL : UInt8 := 0x7a
def OP_ROT : UInt8 := 0x7b
def OP_SWAP : UInt8 := 0x7c
def OP_TUCK : UInt8 := 0x7d

def OP_CAT : UInt8 := 0x7e
def OP_SUBSTR : UInt8 := 0x7f
def OP_LEFT : UInt8 := 0x80
def OP_RIGHT : UInt8 := 0x81
def OP_SIZE : UInt8 := 0x82

def OP_INVERT : UInt8 := 0x83
def OP_AND : UInt8 := 0x84
def OP_OR : UInt8 := 0x85
def OP_XOR : UInt8 := 0x86
def OP_EQUALVERIFY : UInt8 := 0x88

def OP_1ADD : UInt8 := 0x8b
def OP_1SUB : UInt8 := 0x8c
def OP_2MUL : UInt8 := 0x8d
def OP_2DIV : UInt8 := 0x8e
def OP_NEGATE : UInt8 := 0x8f
def OP_ABS : UInt8 := 0x90
def OP_NOT : UInt8 := 0x91
def OP_0NOTEQUAL : UInt8 := 0x92
def OP_ADD : UInt8 := 0x93
def OP_SUB : UInt8 := 0x94
def OP_MUL : UInt8 := 0x95
def OP_DIV : UInt8 := 0x96
def OP_MOD : UInt8 := 0x97
def OP_LSHIFT : UInt8 := 0x98
def OP_RSHIFT : UInt8 := 0x99
def OP_BOOLAND : UInt8 := 0x9a
def OP_BOOLOR : UInt8 := 0x9b
def OP_NUMEQUAL : UInt8 := 0x9c
def OP_NUMEQUALVERIFY : UInt8 := 0x9d
def OP_NUMNOTEQUAL : UInt8 := 0x9e
def OP_LESSTHAN : UInt8 := 0x9f
def OP_GREATERTHAN : UInt8 := 0xa0
def OP_LESSTHANOREQUAL : UInt8 := 0xa1
def OP_GREATERTHANOREQUAL : UInt8 := 0xa2
def OP_MIN : UInt8 := 0xa3
def OP_MAX : UInt8 := 0xa4
def OP_WITHIN : UInt8 := 0xa5

def OP_RIPEMD160 : UInt8 := 0xa6
def OP_SHA1 : UInt8 := 0xa7
def OP_SHA256 : UInt8 := 0xa8
def OP_HASH256 : UInt8 := 0xaa
def OP_CODESEPARATOR : UInt8 := 0xab
def OP_CHECKSIG : UInt8 := 0xac
def OP_CHECKSIGVERIFY : UInt8 := 0xad
def OP_CHECKMULTISIG : UInt8 := 0xae
def OP_CHECKMULTISIGVERIFY : UInt8 := 0xaf

def OP_NOP1 : UInt8 := 0xb0
def OP_CHECKLOCKTIMEVERIFY : UInt8 := 0xb1
def OP_NOP3 : UInt8 := 0xb2
def OP_NOP10 : UInt8 := 0xb9
def OP_INVALIDOPCODE : UInt8 := 0xff

/-! ## Reading instructions -/

/-- The number that the bytes stand for, the lowest first. -/
def leNat : List UInt8 → ℕ
  | [] => 0
  | b :: bytes => b.toNat + 256 * leNat bytes

/-- A size of `n` bytes, and what follows it. -/
def readSize (n : ℕ) (pc : CScript) : Option (ℕ × CScript) :=
  if pc.length < n then none else some (leNat (pc.take n), pc.drop n)

/-- How many bytes an opcode pushes, and where they start. -/
def pushSize (opcode : UInt8) (pc : CScript) : Option (ℕ × CScript) :=
  if opcode < OP_PUSHDATA1 then some (opcode.toNat, pc)
  else if opcode = OP_PUSHDATA1 then readSize 1 pc
  else if opcode = OP_PUSHDATA2 then readSize 2 pc
  else if opcode = OP_PUSHDATA4 then readSize 4 pc
  else some (0, pc)

/-- `GetOp`: the opcode, the bytes that it pushes, and what follows. -/
def getOp : CScript → Option (UInt8 × valtype × CScript)
  | [] => none
  | opcode :: pc =>
    match pushSize opcode pc with
    | none => none
    | some (nSize, pc) =>
      if pc.length < nSize then none else some (opcode, pc.take nSize, pc.drop nSize)

theorem length_of_pushSize {opcode : UInt8} {pc pc' : CScript} {nSize : ℕ}
    (h : pushSize opcode pc = some (nSize, pc')) : pc'.length ≤ pc.length := by
  have hread : ∀ n, readSize n pc = some (nSize, pc') → pc'.length ≤ pc.length := by
    intro n hn
    unfold readSize at hn
    split at hn
    · cases hn
    · cases hn
      simp
  unfold pushSize at h
  split at h
  · cases h
    exact le_rfl
  · split at h
    · exact hread 1 h
    · split at h
      · exact hread 2 h
      · split at h
        · exact hread 4 h
        · cases h
          exact le_rfl

theorem length_of_getOp {script pc : CScript} {opcode : UInt8} {vch : valtype}
    (h : getOp script = some (opcode, vch, pc)) : pc.length < script.length := by
  cases script with
  | nil => cases h
  | cons b pc₀ =>
    rw [getOp] at h
    split at h
    · cases h
    · rename_i nSize pc' hsize
      have hle := length_of_pushSize hsize
      split at h
      · cases h
      · cases h
        rw [List.length_drop, List.length_cons]
        omega

/-- The instructions of a script up to its end, or up to bytes that are none. -/
inductive Parsed where
  | done
  | bad
  /-- an opcode, the bytes that it pushes, the script after it, and its instructions -/
  | op (opcode : UInt8) (vch : valtype) (pc : CScript) (next : Parsed)

/-- `parse`, for scripts of no more bytes than the first argument. -/
def parseFrom : ℕ → CScript → Parsed
  | 0, _ => .done
  | fuel + 1, script =>
    if script = [] then .done
    else
      match getOp script with
      | none => .bad
      | some (opcode, vch, pc) => .op opcode vch pc (parseFrom fuel pc)

/-- `while (pc < end) { if (!GetOp(pc, opcode, vch)) .. }` -/
def parse (script : CScript) : Parsed := parseFrom script.length script

/-- The bytes of the script are always enough. -/
theorem parseFrom_eq : ∀ {fuel : ℕ} {script : CScript}, script.length ≤ fuel →
    parseFrom fuel script = parse script := by
  intro fuel
  induction fuel using Nat.strong_induction_on with
  | _ fuel ih =>
    intro script hle
    unfold parse
    cases script with
    | nil => cases fuel <;> rfl
    | cons b script =>
      obtain ⟨fuel, rfl⟩ : ∃ n, fuel = n + 1 := ⟨fuel - 1, by rw [List.length_cons] at hle; omega⟩
      rw [List.length_cons, parseFrom, parseFrom, if_neg (List.cons_ne_nil b script),
        if_neg (List.cons_ne_nil b script)]
      cases hget : getOp (b :: script) with
      | none => rfl
      | some o =>
        obtain ⟨opcode, vch, pc⟩ := o
        have hlt := length_of_getOp hget
        rw [List.length_cons] at hlt hle
        dsimp only
        rw [ih fuel (by omega) (by omega : pc.length ≤ fuel),
          ih script.length (by omega) (by omega : pc.length ≤ script.length)]

theorem parse_nil : parse [] = .done := rfl

theorem parse_of_getOp {script pc : CScript} {opcode : UInt8} {vch : valtype}
    (h : getOp script = some (opcode, vch, pc)) : parse script = .op opcode vch pc (parse pc) := by
  have hlt := length_of_getOp h
  cases script with
  | nil => cases h
  | cons b script =>
    rw [List.length_cons] at hlt
    rw [parse, List.length_cons, parseFrom, if_neg (List.cons_ne_nil b script), h]
    dsimp only
    rw [parseFrom_eq (by omega)]

theorem parse_of_none {script : CScript} (hne : script ≠ []) (h : getOp script = none) :
    parse script = .bad := by
  cases script with
  | nil => exact absurd rfl hne
  | cons b script => rw [parse, List.length_cons, parseFrom, if_neg hne, h]

/-! ## What is read off a script -/

/-- The loop of `IsPushOnly`. -/
def Parsed.isPushOnly : Parsed → Bool
  | .done => true
  | .bad => false
  | .op opcode _ _ next => if OP_16 < opcode then false else next.isPushOnly

def isPushOnly (script : CScript) : Bool := (parse script).isPushOnly

/-- `DecodeOP_N` -/
def decodeOP_N (opcode : UInt8) : ℕ := if opcode = 0 then 0 else opcode.toNat - 0x50

/-- What an instruction adds to the count of `GetSigOpCount`. -/
def sigOps (fAccurate : Bool) (lastOpcode opcode : UInt8) : ℕ :=
  if opcode = OP_CHECKSIG ∨ opcode = OP_CHECKSIGVERIFY then 1
  else if opcode = OP_CHECKMULTISIG ∨ opcode = OP_CHECKMULTISIGVERIFY then
    if fAccurate ∧ OP_1 ≤ lastOpcode ∧ lastOpcode ≤ OP_16 then decodeOP_N lastOpcode else 20
  else 0

/-- The loop of `GetSigOpCount`. -/
def Parsed.sigOpCount (fAccurate : Bool) : UInt8 → Parsed → ℕ
  | _, .done => 0
  | _, .bad => 0
  | lastOpcode, .op opcode _ _ next =>
    sigOps fAccurate lastOpcode opcode + next.sigOpCount fAccurate opcode

/-- `GetSigOpCount(fAccurate)` -/
def getSigOpCount (fAccurate : Bool) (script : CScript) : ℕ :=
  (parse script).sigOpCount fAccurate OP_INVALIDOPCODE

/-- The bytes that the last instruction pushes, when all instructions push, starting from `data`:
the loop of `GetSigOpCount(scriptSig)`. -/
def Parsed.lastPush : valtype → Parsed → Option valtype
  | data, .done => some data
  | _, .bad => none
  | _, .op opcode vch _ next => if OP_16 < opcode then none else next.lastPush vch

/-- `scriptPubKey.GetSigOpCount(scriptSig)` -/
def getSigOpCountP2SH (scriptPubKey scriptSig : CScript) : ℕ :=
  if isPayToScriptHash scriptPubKey then
    match (parse scriptSig).lastPush [] with
    | none => 0
    | some data => getSigOpCount true data
  else getSigOpCount true scriptPubKey

/-- `CScript() << vch` -/
def pushData (vch : valtype) : CScript :=
  let nSize := vch.length
  (if nSize < OP_PUSHDATA1.toNat then [UInt8.ofNat nSize]
    else if nSize ≤ 0xff then [OP_PUSHDATA1, UInt8.ofNat nSize]
    else if nSize ≤ 0xffff then
      [OP_PUSHDATA2, UInt8.ofNat (nSize % 256), UInt8.ofNat (nSize / 256)]
    else
      [OP_PUSHDATA4, UInt8.ofNat (nSize % 256), UInt8.ofNat (nSize / 256 % 256),
        UInt8.ofNat (nSize / 256 / 256 % 256), UInt8.ofNat (nSize / 256 / 256 / 256)]) ++ vch

/-- `while (memcmp(&pc[0], &b[0], b.size()) == 0) erase(pc, pc + b.size());` for a script of no
more bytes than the first argument. -/
def eraseHere (b : CScript) : ℕ → CScript → CScript
  | 0, pc => pc
  | fuel + 1, pc => if b <+: pc then eraseHere b fuel (pc.drop b.length) else pc

/-- The loop of `FindAndDelete`, for a script of no more bytes than the first argument. -/
def findAndDeleteFrom (b : CScript) : ℕ → CScript → CScript
  | 0, pc => pc
  | fuel + 1, pc =>
    let pc := eraseHere b pc.length pc
    match getOp pc with
    | none => pc
    | some (_, _, rest) => pc.take (pc.length - rest.length) ++ findAndDeleteFrom b fuel rest

/-- `FindAndDelete`: every copy of `b` that starts where an instruction does is deleted. -/
def findAndDelete (b script : CScript) : CScript :=
  if b = [] then script else findAndDeleteFrom b (script.length + 1) script

end Bws
