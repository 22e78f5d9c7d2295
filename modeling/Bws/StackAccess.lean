import Bws.Interpreter

/-!
# The accesses of the interpreter

`EvalScript` once more, with the operations on vectors that it is written in: `stacktop`, which
throws where there is no such element, `popstack`, and positions counted from the end, which must
exist.  A run also lists the positions that it has looked at and the numbers that it has read
(`Look`).

Every part of a run carries the proof that it ends at once where it looks at a position that is not
there or at a number that is too long (`Eval.honest`).  Whether it ends with `false`, or in an
operation that is undefined, is shown by running it: each instruction leaves what the interpreter
leaves (`leaves_runSwitch`), and so does the script (`outcome_runScript`).
-/

namespace Bws

/-! ## Parts of a run -/

/-- What a part of a run looks at. -/
inductive Look where
  /-- the element, or the position, `k` from the end of a stack of `size` elements -/
  | at (k size : ℕ)
  /-- the argument of `CastToBigNum` -/
  | operand (vch : valtype)
deriving DecidableEq

/-- It is there, and it is not too long. -/
def Look.Fits (nMaxNumSize : ℕ) : Look → Prop
  | .at k size => 1 ≤ k ∧ k ≤ size
  | .operand vch => vch.length ≤ nMaxNumSize

/-- How a run ends before the end of the script: an exception is caught and returns `false` too. -/
inductive Stop where
  | returnFalse
  | undefined
deriving DecidableEq

/-- A part of a run, in which numbers have a limited size.  Where it ends early, the state is left
as it is then. -/
structure Eval (nMaxNumSize : ℕ) (α : Type) where
  run : ScriptState → List Look × Except Stop α × ScriptState
  honest : ∀ st, ∀ look ∈ (run st).1,
    look.Fits nMaxNumSize ∨ (run st).1.getLast? = some look ∧ ∃ stop, (run st).2.1 = .error stop

namespace Eval

variable {m : ℕ} {α β : Type}

/-- One part after another. -/
def andThen (x : List Look × Except Stop α × ScriptState)
    (f : α → ScriptState → List Look × Except Stop β × ScriptState) :
    List Look × Except Stop β × ScriptState :=
  match x.2.1 with
  | .error stop => (x.1, .error stop, x.2.2)
  | .ok a => (x.1 ++ (f a x.2.2).1, (f a x.2.2).2)

protected def pure (a : α) : Eval m α where
  run st := ([], .ok a, st)
  honest _ _ h := absurd h List.not_mem_nil

protected def bind (x : Eval m α) (f : α → Eval m β) : Eval m β where
  run st := andThen (x.run st) fun a ↦ (f a).run
  honest st look h := by
    rw [andThen] at h ⊢
    have hhonest := x.honest st look
    rcases hx : (x.run st).2.1 with stop | a
    · rw [hx] at h hhonest
      exact (hhonest h).imp_right fun hlast ↦ ⟨hlast.1, stop, rfl⟩
    · rw [hx] at h hhonest
      rcases List.mem_append.1 h with h | h
      · refine (hhonest h).imp_right ?_
        rintro ⟨-, stop, hstop⟩
        cases hstop
      · refine ((f a).honest _ look h).imp_right ?_
        rintro ⟨hlast, hstop⟩
        exact ⟨by rw [List.getLast?_append, hlast]; rfl, hstop⟩

instance : Monad (Eval m) where
  pure := Eval.pure
  bind := Eval.bind

@[simp] theorem run_pure (a : α) (st : ScriptState) :
    (pure a : Eval m α).run st = ([], .ok a, st) := rfl

@[simp] theorem run_bind (x : Eval m α) (f : α → Eval m β) (st : ScriptState) :
    (x >>= f).run st = andThen (x.run st) fun a ↦ (f a).run := rfl

@[simp] theorem andThen_error (looks : List Look) (stop : Stop) (st : ScriptState)
    (f : α → ScriptState → List Look × Except Stop β × ScriptState) :
    andThen (looks, .error stop, st) f = (looks, .error stop, st) := rfl

@[simp] theorem andThen_ok (looks : List Look) (a : α) (st : ScriptState)
    (f : α → ScriptState → List Look × Except Stop β × ScriptState) :
    andThen (looks, .ok a, st) f = (looks ++ (f a st).1, (f a st).2) := rfl

/-- Longer numbers are accepted too. -/
def mono {n : ℕ} (h : m ≤ n) (x : Eval m α) : Eval n α where
  run := x.run
  honest st look hlook := (x.honest st look hlook).imp_left fun hfits ↦
    match look, hfits with
    | .at _ _, hfits => hfits
    | .operand _, hfits => le_trans hfits h

@[simp] theorem run_mono {n : ℕ} (h : m ≤ n) (x : Eval m α) : (x.mono h).run = x.run := rfl

/-! ### The operations -/

/-- `return false` -/
def returnFalse : Eval m α where
  run st := ([], .error .returnFalse, st)
  honest _ _ h := absurd h List.not_mem_nil

/-- `if (bad) return false;` -/
def returnFalseIf (bad : Prop) [Decidable bad] : Eval m Unit := if bad then returnFalse else pure ()

/-- The state is read. -/
def look (f : ScriptState → α) : Eval m α where
  run st := ([], .ok (f st), st)
  honest _ _ h := absurd h List.not_mem_nil

/-- The state is changed, without a look at the stacks. -/
def change (f : ScriptState → ScriptState) : Eval m Unit where
  run st := ([], .ok (), f st)
  honest _ _ h := absurd h List.not_mem_nil

/-- `stack.size()` -/
def stackSize : Eval m ℕ := look fun st ↦ st.stack.length

/-- The element of a stack that is `k` from its end. -/
def fromTop (k : ℕ) (stack : List valtype) : Option valtype := if k = 0 then none else stack[k - 1]?

/-- An access that throws where there is no such element. -/
def accessAt (stackOf : ScriptState → List valtype) (k : ℕ) : Eval m valtype where
  run st := ([.at k (stackOf st).length],
    match fromTop k (stackOf st) with
    | some vch => .ok vch
    | none => .error .returnFalse, st)
  honest st l hl := by
    obtain rfl := List.mem_singleton.1 hl
    rw [fromTop]
    by_cases hk : 1 ≤ k ∧ k ≤ (stackOf st).length
    · exact .inl hk
    · refine .inr ⟨rfl, .returnFalse, ?_⟩
      split_ifs with hzero
      · rfl
      · rw [List.getElem?_eq_none (by omega)]

/-- `stacktop(-k)` -/
def stacktop (k : ℕ) : Eval m valtype := accessAt ScriptState.stack k

/-- `altstacktop(-k)` -/
def altstacktop (k : ℕ) : Eval m valtype := accessAt ScriptState.altstack k

/-- An operation at a position of the stack, undefined where the position does not exist. -/
def position (k : ℕ) (f : List valtype → List valtype) : Eval m Unit where
  run st := ([.at k st.stack.length],
    if 1 ≤ k ∧ k ≤ st.stack.length then (.ok (), { st with stack := f st.stack })
    else (.error .undefined, st))
  honest st l hl := by
    obtain rfl := List.mem_singleton.1 hl
    by_cases hk : 1 ≤ k ∧ k ≤ st.stack.length
    · exact .inl hk
    · exact .inr ⟨rfl, .undefined, congrArg Prod.fst (if_neg hk)⟩

/-- `stack.push_back(vch)` -/
def pushBack (vch : valtype) : Eval m Unit := change fun st ↦ { st with stack := vch :: st.stack }

/-- `altstack.push_back(vch)` -/
def pushAlt (vch : valtype) : Eval m Unit :=
  change fun st ↦ { st with altstack := vch :: st.altstack }

/-- `popstack(stack)` throws where the stack is empty. -/
def popstack : Eval m Unit := do
  let _ ← stacktop 1
  change fun st ↦ { st with stack := st.stack.tail }

/-- `popstack(altstack)` -/
def popAlt : Eval m Unit := do
  let _ ← altstacktop 1
  change fun st ↦ { st with altstack := st.altstack.tail }

/-- `while (n-- > 0) popstack(stack);` -/
def popMany : ℕ → Eval m Unit
  | 0 => pure ()
  | n + 1 => do
    popstack
    popMany n

/-- `stack.erase(stack.end()-k)` -/
def erase (k : ℕ) : Eval m Unit := position k fun stack ↦ stack.eraseIdx (k - 1)

/-- `stack.erase(stack.end()-k, stack.end()-k+2)` -/
def eraseTwo (k : ℕ) : Eval m Unit :=
  position k fun stack ↦ (stack.eraseIdx (k - 1)).eraseIdx (k - 2)

/-- `stack.insert(stack.end()-k, vch)` -/
def insertAt (k : ℕ) (vch : valtype) : Eval m Unit :=
  position k fun stack ↦ stack.insertIdx k vch

/-- `swap(stacktop(-j), stacktop(-k))` -/
def swap (j k : ℕ) : Eval m Unit := do
  let x ← stacktop j
  let y ← stacktop k
  change fun st ↦ { st with stack := (st.stack.set (j - 1) y).set (k - 1) x }

/-- `CastToBigNum` throws where the operand is too long. -/
def castToBigNum (vch : valtype) : Eval m ℤ where
  run st := ([.operand vch],
    match Bws.castToBigNum vch m with
    | some bn => .ok bn
    | none => .error .returnFalse, st)
  honest st l hl := by
    obtain rfl := List.mem_singleton.1 hl
    by_cases hlen : vch.length ≤ m
    · exact .inl hlen
    · refine .inr ⟨rfl, .returnFalse, ?_⟩
      rw [Bws.castToBigNum, if_pos (not_le.1 hlen)]

end Eval

/-! ## The instructions

Each is written as in `EvalScript`.  `4` is the size of a number. -/

namespace Instr

open Eval

/-- `if (stack.size() < k) return false;` -/
def needs {m : ℕ} (k : ℕ) : Eval m Unit := do
  let size ← stackSize
  returnFalseIf (size < k)

/-! ### Stack ops -/

def drop2 : Eval 4 Unit := do
  needs 2
  popstack
  popstack

def dup2 : Eval 4 Unit := do
  needs 2
  let vch1 ← stacktop 2
  let vch2 ← stacktop 1
  pushBack vch1
  pushBack vch2

def dup3 : Eval 4 Unit := do
  needs 3
  let vch1 ← stacktop 3
  let vch2 ← stacktop 2
  let vch3 ← stacktop 1
  pushBack vch1
  pushBack vch2
  pushBack vch3

def over2 : Eval 4 Unit := do
  needs 4
  let vch1 ← stacktop 4
  let vch2 ← stacktop 3
  pushBack vch1
  pushBack vch2

def rot2 : Eval 4 Unit := do
  needs 6
  let vch1 ← stacktop 6
  let vch2 ← stacktop 5
  eraseTwo 6
  pushBack vch1
  pushBack vch2

def swap2 : Eval 4 Unit := do
  needs 4
  swap 4 2
  swap 3 1

def ifdup : Eval 4 Unit := do
  needs 1
  let vch ← stacktop 1
  if castToBool vch then pushBack vch else pure ()

def depth : Eval 4 Unit := do
  let size ← stackSize
  pushBack (CBigNum.getvch size)

def drop : Eval 4 Unit := do
  needs 1
  popstack

def dup : Eval 4 Unit := do
  needs 1
  let vch ← stacktop 1
  pushBack vch

def nip : Eval 4 Unit := do
  needs 2
  erase 2

def overOne : Eval 4 Unit := do
  needs 2
  let vch ← stacktop 2
  pushBack vch

/-- `OP_PICK` and `OP_ROLL` -/
def pick (roll : Bool) : Eval 4 Unit := do
  needs 2
  let bn ← Eval.castToBigNum (← stacktop 1)
  let n := CBigNum.getint bn
  popstack
  let size ← stackSize
  returnFalseIf (n < 0 ∨ (size : ℤ) ≤ n)
  let vch ← stacktop (n.toNat + 1)
  if roll then erase (n.toNat + 1) else pure ()
  pushBack vch

def rot : Eval 4 Unit := do
  needs 3
  swap 3 2
  swap 2 1

def swapOne : Eval 4 Unit := do
  needs 2
  Eval.swap 2 1

def tuck : Eval 4 Unit := do
  needs 2
  let vch ← stacktop 1
  insertAt 2 vch

def size : Eval 4 Unit := do
  needs 1
  let vch ← stacktop 1
  pushBack (CBigNum.getvch vch.length)

def toAltStack : Eval 4 Unit := do
  needs 1
  pushAlt (← stacktop 1)
  popstack

def fromAltStack : Eval 4 Unit := do
  let size ← look fun st ↦ st.altstack.length
  returnFalseIf (size < 1)
  pushBack (← altstacktop 1)
  popAlt

/-! ### Bitwise logic, numeric, crypto -/

def verify : Eval 4 Unit := do
  needs 1
  let fValue := castToBool (← stacktop 1)
  if fValue then popstack else returnFalse

/-- `push_back(fSuccess ? vchTrue : vchFalse)`, and what follows in an instruction that verifies. -/
def leaveBool (fVerify fSuccess : Bool) : Eval 4 Unit := do
  pushBack (boolToVch fSuccess)
  if fVerify then
    if fSuccess then popstack else returnFalse
  else pure ()

/-- `OP_EQUAL` and `OP_EQUALVERIFY` -/
def equal (fVerify : Bool) : Eval 4 Unit := do
  needs 2
  let vch1 ← stacktop 2
  let vch2 ← stacktop 1
  let fEqual := decide (vch1 = vch2)
  popstack
  popstack
  leaveBool fVerify fEqual

/-- The inner `switch`, which has a case for each of these opcodes. -/
def result {m : ℕ} (bn : Option ℤ) : Eval m ℤ :=
  match bn with
  | some bn => pure bn
  | none => returnFalse

/-- `OP_1ADD` .. `OP_0NOTEQUAL` -/
def unary (opcode : UInt8) : Eval 4 Unit := do
  needs 1
  let bn ← Eval.castToBigNum (← stacktop 1)
  let bn ← result (unaryOp opcode bn)
  popstack
  pushBack (CBigNum.getvch bn)

/-- `OP_ADD` .. `OP_MAX` -/
def binary (opcode : UInt8) : Eval 4 Unit := do
  needs 2
  let bn1 ← Eval.castToBigNum (← stacktop 2)
  let bn2 ← Eval.castToBigNum (← stacktop 1)
  let bn ← result (binaryOp opcode bn1 bn2)
  popstack
  popstack
  pushBack (CBigNum.getvch bn)
  if opcode = OP_NUMEQUALVERIFY then
    if castToBool (← stacktop 1) then popstack else returnFalse
  else pure ()

def within : Eval 4 Unit := do
  needs 3
  let bn1 ← Eval.castToBigNum (← stacktop 3)
  let bn2 ← Eval.castToBigNum (← stacktop 2)
  let bn3 ← Eval.castToBigNum (← stacktop 1)
  let fValue := decide (bn2 ≤ bn1 ∧ bn1 < bn3)
  popstack
  popstack
  popstack
  pushBack (boolToVch fValue)

section

variable (C : Crypto) (c : ScriptContext)

/-- `OP_RIPEMD160` .. `OP_HASH256` -/
def hashTop (opcode : UInt8) : Eval 4 Unit := do
  needs 1
  let vch ← stacktop 1
  match hashOp C opcode vch with
  | some vchHash =>
    popstack
    pushBack vchHash
  | none => returnFalse

/-! ### Signatures -/

/-- What `CheckSig` and the encodings say, or the end of the script. -/
def runCheckOne (scriptCode : CScript) (vchSig vchPubKey : valtype) : Eval 4 Bool :=
  match (checkOne C c scriptCode vchSig vchPubKey).result with
  | some fSuccess => pure fSuccess
  | none => returnFalse

/-- `OP_CHECKSIG` and `OP_CHECKSIGVERIFY` -/
def opCheckSig (fVerify : Bool) : Eval 4 Unit := do
  needs 2
  let vchSig ← stacktop 2
  let vchPubKey ← stacktop 1
  let scriptCode ← look ScriptState.codehash
  let scriptCode := findAndDelete (pushData vchSig) scriptCode
  let fSuccess ← runCheckOne C c scriptCode vchSig vchPubKey
  popstack
  popstack
  leaveBool fVerify fSuccess

/-- The signatures are dropped from the script. -/
def dropSigs (isig : ℕ) : ℕ → CScript → Eval 4 CScript
  | 0, scriptCode => pure scriptCode
  | nSigsCount + 1, scriptCode => do
    let vchSig ← stacktop isig
    dropSigs (isig + 1) nSigsCount (findAndDelete (pushData vchSig) scriptCode)

/-- The loop over the signatures; each round takes a key away. -/
def multiSigRounds (scriptCode : CScript) : (nKeysCount nSigsCount ikey isig : ℕ) → Eval 4 Bool
  | _, 0, _, _ => pure true
  | 0, _ + 1, _, _ => pure false
  | nKeysCount + 1, nSigsCount + 1, ikey, isig => do
    let vchSig ← stacktop isig
    let vchPubKey ← stacktop ikey
    let fOk ← runCheckOne C c scriptCode vchSig vchPubKey
    let nSigsLeft := if fOk then nSigsCount else nSigsCount + 1
    let isig := if fOk then isig + 1 else isig
    if nKeysCount < nSigsLeft then pure false
    else multiSigRounds scriptCode nKeysCount nSigsLeft (ikey + 1) isig

/-- The head of `OP_CHECKMULTISIG`, which leaves `nKeysCount` and `nSigsCount`. -/
def multiSigCounts : Eval 4 (ℕ × ℕ) := do
  needs 1
  let bn ← Eval.castToBigNum (← stacktop 1)
  let nKeysCount := CBigNum.getint bn
  returnFalseIf (nKeysCount < 0 ∨ 20 < nKeysCount)
  change fun st ↦ { st with nOpCount := st.nOpCount + nKeysCount.toNat }
  let nOpCount ← look ScriptState.nOpCount
  returnFalseIf (201 < nOpCount)
  let i := nKeysCount.toNat + 2
  needs i
  let bn ← Eval.castToBigNum (← stacktop i)
  let nSigsCount := CBigNum.getint bn
  returnFalseIf (nSigsCount < 0 ∨ nKeysCount < nSigsCount)
  let i := nKeysCount.toNat + nSigsCount.toNat + 3
  needs i
  pure (nKeysCount.toNat, nSigsCount.toNat)

/-- `OP_CHECKMULTISIG` and `OP_CHECKMULTISIGVERIFY` -/
def opCheckMultiSig (fVerify : Bool) : Eval 4 Unit := do
  let (nKeysCount, nSigsCount) ← multiSigCounts
  let ikey := 2
  let isig := nKeysCount + 3
  let scriptCode ← dropSigs isig nSigsCount (← look ScriptState.codehash)
  let fSuccess ← multiSigRounds C c scriptCode nKeysCount nSigsCount ikey isig
  -- clean up stack of actual arguments
  popMany (nKeysCount + nSigsCount + 2)
  needs 1
  if hasFlag c.flags SCRIPT_VERIFY_NULLDUMMY then
    returnFalseIf ((← stacktop 1) ≠ [])
  else pure ()
  popstack
  leaveBool fVerify fSuccess

end

/-! ### The whole `switch` -/

/-- The cases from `OP_2DROP` to `OP_SIZE` -/
def stackOp (opcode : UInt8) : Eval 4 Unit :=
  if opcode = OP_2DROP then drop2
  else if opcode = OP_2DUP then dup2
  else if opcode = OP_3DUP then dup3
  else if opcode = OP_2OVER then over2
  else if opcode = OP_2ROT then rot2
  else if opcode = OP_2SWAP then swap2
  else if opcode = OP_IFDUP then ifdup
  else if opcode = OP_DEPTH then depth
  else if opcode = OP_DROP then drop
  else if opcode = OP_DUP then dup
  else if opcode = OP_NIP then nip
  else if opcode = OP_OVER then overOne
  else if opcode = OP_PICK ∨ opcode = OP_ROLL then pick (opcode = OP_ROLL)
  else if opcode = OP_ROT then rot
  else if opcode = OP_SWAP then swapOne
  else if opcode = OP_TUCK then tuck
  else if opcode = OP_SIZE then size
  else returnFalse

/-- The cases from `OP_1ADD` to `OP_WITHIN` -/
def numeric (opcode : UInt8) : Eval 4 Unit :=
  if OP_1ADD ≤ opcode ∧ opcode ≤ OP_0NOTEQUAL then unary opcode
  else if OP_ADD ≤ opcode ∧ opcode ≤ OP_MAX then binary opcode
  else if opcode = OP_WITHIN then within
  else returnFalse

/-- The cases that work on the stacks alone -/
def plain (C : Crypto) (opcode : UInt8) : Eval 4 Unit :=
  if opcode = OP_TOALTSTACK then toAltStack
  else if opcode = OP_FROMALTSTACK then fromAltStack
  else if opcode = OP_1NEGATE ∨ OP_1 ≤ opcode ∧ opcode ≤ OP_16 then
    pushBack (CBigNum.getvch ((opcode.toNat : ℤ) - 0x50))
  else if opcode = OP_NOP then pure ()
  else if opcode = OP_VERIFY then verify
  else if opcode = OP_EQUAL then equal false
  else if opcode = OP_EQUALVERIFY then equal true
  else if OP_1ADD ≤ opcode ∧ opcode ≤ OP_WITHIN then numeric opcode
  else if OP_RIPEMD160 ≤ opcode ∧ opcode ≤ OP_HASH256 then hashTop C opcode
  else stackOp opcode

/-- `OP_IF`, `OP_NOTIF`, `OP_ELSE` and `OP_ENDIF` -/
def control (opcode : UInt8) (fExec : Bool) : Eval 4 Unit :=
  if opcode = OP_IF ∨ opcode = OP_NOTIF then
    if fExec then do
      needs 1
      let fValue := castToBool (← stacktop 1)
      popstack
      change fun st ↦ { st with
        vfExec := (if opcode = OP_NOTIF then !fValue else fValue) :: st.vfExec }
    else change fun st ↦ { st with vfExec := false :: st.vfExec }
  else if opcode = OP_ELSE then do
    let vfExec ← look ScriptState.vfExec
    returnFalseIf (vfExec = [])
    change fun st ↦ { st with vfExec := (!vfExec.headD false) :: vfExec.tail }
  else do
    let vfExec ← look ScriptState.vfExec
    returnFalseIf (vfExec = [])
    change fun st ↦ { st with vfExec := vfExec.tail }

section

variable (C : Crypto) (c : ScriptContext)

/-- `OP_CHECKLOCKTIMEVERIFY` accepts numbers of five bytes. -/
def checkLockTimeVerify : Eval 5 Unit :=
  if ¬ hasFlag c.flags SCRIPT_VERIFY_CHECKLOCKTIMEVERIFY then
    -- not enabled; treat as a NOP2
    returnFalseIf (hasFlag c.flags SCRIPT_VERIFY_DISCOURAGE_UPGRADABLE_NOPS)
  else do
    needs 1
    let nLockTime ← Eval.castToBigNum (← stacktop 1)
    returnFalseIf (nLockTime < 0)
    returnFalseIf (¬ checkLockTime c.txTo c.nIn nLockTime)

/-- The other cases, for an instruction that is followed by `pc`. -/
def others (opcode : UInt8) (pc : CScript) (fExec : Bool) : Eval 4 Unit :=
  if opcode = OP_IF ∨ opcode = OP_NOTIF ∨ opcode = OP_ELSE ∨ opcode = OP_ENDIF then
    control opcode fExec
  else if opcode = OP_NOP1 ∨ OP_NOP3 ≤ opcode ∧ opcode ≤ OP_NOP10 then
    returnFalseIf (hasFlag c.flags SCRIPT_VERIFY_DISCOURAGE_UPGRADABLE_NOPS)
  else if opcode = OP_CODESEPARATOR then change fun st ↦ { st with codehash := pc }
  else if opcode = OP_CHECKSIG ∨ opcode = OP_CHECKSIGVERIFY then
    opCheckSig C c (opcode = OP_CHECKSIGVERIFY)
  else if opcode = OP_CHECKMULTISIG ∨ opcode = OP_CHECKMULTISIGVERIFY then
    opCheckMultiSig C c (opcode = OP_CHECKMULTISIGVERIFY)
  else plain C opcode

/-- The size of a number that the instruction accepts. -/
def maxNumSize (opcode : UInt8) : ℕ := if opcode = OP_CHECKLOCKTIMEVERIFY then 5 else 4

theorem four_le_maxNumSize (opcode : UInt8) : 4 ≤ maxNumSize opcode := by
  rw [maxNumSize]
  split <;> decide

/-- `switch (opcode)` -/
def runSwitch (opcode : UInt8) (pc : CScript) (fExec : Bool) : Eval (maxNumSize opcode) Unit :=
  if h : opcode = OP_CHECKLOCKTIMEVERIFY then (checkLockTimeVerify c).mono (if_pos h).ge
  else (others C c opcode pc fExec).mono (four_le_maxNumSize opcode)

/-- The instruction is executed or skipped. -/
def runExecute (opcode : UInt8) (vchPushValue : valtype) (pc : CScript) :
    Eval (maxNumSize opcode) Unit := do
  let fExec ← look ScriptState.fExec
  if fExec ∧ opcode ≤ OP_PUSHDATA4 then pushBack vchPushValue
  else if fExec ∨ OP_IF ≤ opcode ∧ opcode ≤ OP_ENDIF then runSwitch C c opcode pc fExec
  else pure ()

/-- `if (stack.size() + altstack.size() > 1000) return false;` -/
def checkSize {m : ℕ} : Eval m Unit := do
  let size ← look fun st ↦ st.stack.length + st.altstack.length
  returnFalseIf (1000 < size)

/-- One round of the loop. -/
def runRound (opcode : UInt8) (vchPushValue : valtype) (pc : CScript) :
    Eval (maxNumSize opcode) Unit := do
  let st ← look id
  returnFalseIf (refusesOp opcode vchPushValue st)
  change (countOp opcode)
  runExecute C c opcode vchPushValue pc
  checkSize

end

end Instr

/-- A round of the loop that has been run. -/
structure ScriptRound where
  opcode : UInt8
  looks : List Look
  left : Except Stop ScriptState

section

variable (C : Crypto) (c : ScriptContext)

/-- The loop of `EvalScript`, with its rounds. -/
def runFrom : Parsed → ScriptState → List ScriptRound × Except Stop Unit × ScriptState
  | .done, st => ([], .ok (), st)
  | .bad, st => ([], .error .returnFalse, st)
  | .op opcode vch pc next, st =>
    let x := (Instr.runRound C c opcode vch pc).run st
    match x.2.1 with
    | .error stop => ([⟨opcode, x.1, .error stop⟩], .error stop, x.2.2)
    | .ok _ => (⟨opcode, x.1, .ok x.2.2⟩ :: (runFrom next x.2.2).1, (runFrom next x.2.2).2)

/-- `EvalScript`, with the rounds of its loop.  The stack is changed by a script that fails too. -/
def runScript (script : CScript) (stack : List valtype) :
    List ScriptRound × Except Stop Unit × List valtype :=
  if 10000 < script.length then ([], .error .returnFalse, stack)
  else
    let x := runFrom C c (parse script) (.init script stack)
    (x.1, match x.2.1 with
      | .error stop => .error stop
      | .ok _ => if x.2.2.vfExec = [] then .ok () else .error .returnFalse, x.2.2.stack)

end

/-! ## What the instructions leave -/

/-- Something is left, or the script ends. -/
def leaves {α : Type} (r : Option α) : Except Stop α :=
  match r with
  | some a => .ok a
  | none => .error .returnFalse

@[simp] theorem leaves_some {α : Type} (a : α) : leaves (some a) = .ok a := rfl

@[simp] theorem leaves_none {α : Type} : leaves (none : Option α) = .error .returnFalse := rfl

/-- What is left by a run that has not ended early. -/
def outcome {α : Type} (x : Except Stop Unit × α) : Except Stop α :=
  match x.1 with
  | .error stop => .error stop
  | .ok _ => .ok x.2

@[simp] theorem outcome_error {α : Type} (stop : Stop) (a : α) :
    outcome (.error stop, a) = .error stop := rfl

@[simp] theorem outcome_ok {α : Type} (u : Unit) (a : α) : outcome (.ok u, a) = .ok a := rfl

theorem outcome_eq_error {α : Type} {x : Except Stop Unit × α} {stop : Stop} :
    outcome x = .error stop ↔ x.1 = .error stop := by
  obtain ⟨stop' | u, a⟩ := x
  · exact ⟨fun h ↦ by cases h; rfl, fun h ↦ by cases h; rfl⟩
  · exact ⟨fun h ↦ (nomatch h), fun h ↦ (nomatch h)⟩

theorem outcome_eq_ok {α : Type} {x : Except Stop Unit × α} {a : α} :
    outcome x = .ok a ↔ x = (.ok (), a) := by
  obtain ⟨stop | u, b⟩ := x
  · exact ⟨fun h ↦ (nomatch h), fun h ↦ nomatch congrArg Prod.fst h⟩
  · exact ⟨fun h ↦ by cases h; rfl, fun h ↦ by cases h; rfl⟩

/-- There are as many elements. -/
def atLeast {α : Type} : ℕ → List α → Bool
  | 0, _ => true
  | _ + 1, [] => false
  | k + 1, _ :: l => atLeast k l

theorem atLeast_iff {α : Type} {k : ℕ} {l : List α} : atLeast k l = true ↔ k ≤ l.length := by
  induction k generalizing l with
  | zero => exact iff_of_true rfl (Nat.zero_le _)
  | succ k ih =>
    rcases l with - | ⟨a, l⟩
    · exact iff_of_false Bool.false_ne_true (Nat.not_succ_le_zero k)
    · rw [atLeast, ih, List.length_cons, Nat.succ_le_succ_iff]

namespace Eval

variable {m k : ℕ} {α : Type}

@[simp] theorem run_returnFalse (st : ScriptState) :
    (returnFalse : Eval m α).run st = ([], .error .returnFalse, st) := rfl

@[simp] theorem run_change (f : ScriptState → ScriptState) (st : ScriptState) :
    (change f : Eval m Unit).run st = ([], .ok (), f st) := rfl

@[simp] theorem run_look (f : ScriptState → α) (st : ScriptState) :
    (look f : Eval m α).run st = ([], .ok (f st), st) := rfl

@[simp] theorem run_pushBack (vch : valtype) (st : ScriptState) :
    (pushBack vch : Eval m Unit).run st =
      ([], .ok (), { st with stack := vch :: st.stack }) := rfl

@[simp] theorem run_pushAlt (vch : valtype) (st : ScriptState) :
    (pushAlt vch : Eval m Unit).run st =
      ([], .ok (), { st with altstack := vch :: st.altstack }) := rfl

@[simp] theorem run_returnFalseIf (bad : Prop) [Decidable bad] (st : ScriptState) :
    (returnFalseIf bad : Eval m Unit).run st =
      ([], if bad then .error .returnFalse else .ok (), st) := by
  rw [returnFalseIf]
  split <;> rfl

@[simp] theorem run_needs (st : ScriptState) : (Instr.needs k : Eval m Unit).run st =
    ([], if atLeast k st.stack then .ok () else .error .returnFalse, st) := by
  rw [Instr.needs, stackSize, run_bind, run_look, andThen_ok, run_returnFalseIf, List.nil_append]
  by_cases h : st.stack.length < k
  · rw [if_pos h, if_neg (by rw [atLeast_iff]; omega)]
  · rw [if_neg h, if_pos (by rw [atLeast_iff]; omega)]

@[simp] theorem run_stacktop (st : ScriptState) :
    (stacktop (k + 1) : Eval m valtype).run st = ([.at (k + 1) st.stack.length],
      match st.stack[k]? with
      | some vch => .ok vch
      | none => .error .returnFalse, st) := rfl

@[simp] theorem run_altstacktop (st : ScriptState) :
    (altstacktop (k + 1) : Eval m valtype).run st = ([.at (k + 1) st.altstack.length],
      match st.altstack[k]? with
      | some vch => .ok vch
      | none => .error .returnFalse, st) := rfl

@[simp] theorem run_position (f : List valtype → List valtype) (st : ScriptState) :
    (position (k + 1) f : Eval m Unit).run st = ([.at (k + 1) st.stack.length],
      if atLeast (k + 1) st.stack then (.ok (), { st with stack := f st.stack })
      else (.error .undefined, st)) := by
  by_cases h : k + 1 ≤ st.stack.length
  · rw [if_pos (atLeast_iff.2 h)]
    exact Prod.ext rfl (if_pos ⟨Nat.le_add_left 1 k, h⟩)
  · rw [if_neg (mt atLeast_iff.1 h)]
    exact Prod.ext rfl (if_neg fun hk ↦ h hk.2)

@[simp] theorem run_castToBigNum (vch : valtype) (st : ScriptState) :
    (castToBigNum vch : Eval m ℤ).run st = ([.operand vch],
      match Bws.castToBigNum vch m with
      | some bn => .ok bn
      | none => .error .returnFalse, st) := rfl

end Eval

open Eval Instr

/-- The part of a run leaves the state, or returns `false`. -/
def Leaves {m : ℕ} (x : Eval m Unit) (st : ScriptState) (r : Option ScriptState) : Prop :=
  outcome (x.run st).2 = leaves r

/-- It leaves the stack, and everything else as it was, or returns `false`. -/
def LeavesStack {m : ℕ} (x : Eval m Unit) (st : ScriptState) (r : Option (List valtype)) : Prop :=
  Leaves x st (r.map fun stack ↦ { st with stack })

section

variable {m : ℕ} {p : Prop} [Decidable p] {x y : Eval m Unit} {st : ScriptState}

theorem Leaves.ite {r r' : Option ScriptState} (h : p → Leaves x st r) (h' : ¬ p → Leaves y st r') :
    Leaves (if p then x else y) st (if p then r else r') := by
  by_cases hp : p
  · rw [if_pos hp, if_pos hp]
    exact h hp
  · rw [if_neg hp, if_neg hp]
    exact h' hp

theorem LeavesStack.ite {r r' : Option (List valtype)} (h : p → LeavesStack x st r)
    (h' : ¬ p → LeavesStack y st r') :
    LeavesStack (if p then x else y) st (if p then r else r') := by
  by_cases hp : p
  · rw [if_pos hp, if_pos hp]
    exact h hp
  · rw [if_neg hp, if_neg hp]
    exact h' hp

/-- One part after another leaves what the second one leaves. -/
theorem Leaves.bind {r : Option ScriptState} {f : ScriptState → Option ScriptState}
    (h : Leaves x st r) (h' : ∀ st', Leaves y st' (f st')) :
    Leaves (do x; y) st (r.bind f) := by
  rw [Leaves] at h ⊢
  rcases r with - | st'
  · rw [leaves_none, outcome_eq_error] at h
    rw [run_bind, andThen, h]
    rfl
  · rw [leaves_some, outcome_eq_ok] at h
    rw [run_bind, andThen, h]
    exact h' st'

theorem leaves_returnFalse : Leaves (returnFalse : Eval m Unit) st none := rfl

theorem leaves_returnFalseIf :
    Leaves (returnFalseIf p : Eval m Unit) st (if p then none else some st) := by
  rw [Leaves, run_returnFalseIf]
  split <;> rfl

end

/-! ### Stack ops -/

section

variable (st : ScriptState)

theorem leaves_drop2 : LeavesStack drop2 st (match st.stack with
    | _ :: _ :: stack => some stack
    | _ => none) := by
  obtain ⟨stack, alt, vf, n, ch⟩ := st
  rcases stack with - | ⟨x₂, - | ⟨x₁, stack⟩⟩ <;>
    simp [LeavesStack, Leaves, drop2, popstack, atLeast]

theorem leaves_dup2 : LeavesStack dup2 st (match st.stack with
    | x₂ :: x₁ :: stack => some (x₂ :: x₁ :: x₂ :: x₁ :: stack)
    | _ => none) := by
  obtain ⟨stack, alt, vf, n, ch⟩ := st
  rcases stack with - | ⟨x₂, - | ⟨x₁, stack⟩⟩ <;> simp [LeavesStack, Leaves, dup2, atLeast]

theorem leaves_dup3 : LeavesStack dup3 st (match st.stack with
    | x₃ :: x₂ :: x₁ :: stack => some (x₃ :: x₂ :: x₁ :: x₃ :: x₂ :: x₁ :: stack)
    | _ => none) := by
  obtain ⟨stack, alt, vf, n, ch⟩ := st
  rcases stack with - | ⟨x₃, - | ⟨x₂, - | ⟨x₁, stack⟩⟩⟩ <;>
    simp [LeavesStack, Leaves, dup3, atLeast]

theorem leaves_over2 : LeavesStack over2 st (match st.stack with
    | x₄ :: x₃ :: x₂ :: x₁ :: stack => some (x₂ :: x₁ :: x₄ :: x₃ :: x₂ :: x₁ :: stack)
    | _ => none) := by
  obtain ⟨stack, alt, vf, n, ch⟩ := st
  rcases stack with - | ⟨x₄, - | ⟨x₃, - | ⟨x₂, - | ⟨x₁, stack⟩⟩⟩⟩ <;>
    simp [LeavesStack, Leaves, over2, atLeast]

theorem leaves_rot2 : LeavesStack rot2 st (match st.stack with
    | x₆ :: x₅ :: x₄ :: x₃ :: x₂ :: x₁ :: stack =>
      some (x₂ :: x₁ :: x₆ :: x₅ :: x₄ :: x₃ :: stack)
    | _ => none) := by
  obtain ⟨stack, alt, vf, n, ch⟩ := st
  rcases stack with - | ⟨x₆, - | ⟨x₅, - | ⟨x₄, - | ⟨x₃, - | ⟨x₂, - | ⟨x₁, stack⟩⟩⟩⟩⟩⟩ <;>
    simp [LeavesStack, Leaves, rot2, eraseTwo, atLeast]

theorem leaves_swap2 : LeavesStack swap2 st (match st.stack with
    | x₄ :: x₃ :: x₂ :: x₁ :: stack => some (x₂ :: x₁ :: x₄ :: x₃ :: stack)
    | _ => none) := by
  obtain ⟨stack, alt, vf, n, ch⟩ := st
  rcases stack with - | ⟨x₄, - | ⟨x₃, - | ⟨x₂, - | ⟨x₁, stack⟩⟩⟩⟩ <;>
    simp [LeavesStack, Leaves, swap2, Eval.swap, atLeast]

theorem leaves_ifdup : LeavesStack ifdup st (match st.stack with
    | x :: stack => some (if castToBool x then x :: x :: stack else x :: stack)
    | _ => none) := by
  obtain ⟨stack, alt, vf, n, ch⟩ := st
  rcases stack with - | ⟨x, stack⟩
  · simp [LeavesStack, Leaves, ifdup, atLeast]
  · by_cases hx : castToBool x <;> simp [LeavesStack, Leaves, ifdup, atLeast, hx]

theorem leaves_depth :
    LeavesStack depth st (some (CBigNum.getvch st.stack.length :: st.stack)) := rfl

theorem leaves_drop : LeavesStack drop st (match st.stack with
    | _ :: stack => some stack
    | _ => none) := by
  obtain ⟨stack, alt, vf, n, ch⟩ := st
  rcases stack with - | ⟨x, stack⟩ <;> simp [LeavesStack, Leaves, drop, popstack, atLeast]

theorem leaves_dup : LeavesStack dup st (match st.stack with
    | x :: stack => some (x :: x :: stack)
    | _ => none) := by
  obtain ⟨stack, alt, vf, n, ch⟩ := st
  rcases stack with - | ⟨x, stack⟩ <;> simp [LeavesStack, Leaves, dup, atLeast]

theorem leaves_nip : LeavesStack nip st (match st.stack with
    | x₂ :: _ :: stack => some (x₂ :: stack)
    | _ => none) := by
  obtain ⟨stack, alt, vf, n, ch⟩ := st
  rcases stack with - | ⟨x₂, - | ⟨x₁, stack⟩⟩ <;>
    simp [LeavesStack, Leaves, nip, erase, atLeast]

theorem leaves_overOne : LeavesStack overOne st (match st.stack with
    | x₂ :: x₁ :: stack => some (x₁ :: x₂ :: x₁ :: stack)
    | _ => none) := by
  obtain ⟨stack, alt, vf, n, ch⟩ := st
  rcases stack with - | ⟨x₂, - | ⟨x₁, stack⟩⟩ <;> simp [LeavesStack, Leaves, overOne, atLeast]

theorem leaves_pick (opcode : UInt8) : LeavesStack (pick (opcode = OP_ROLL)) st (match st.stack with
    | x :: y :: stack =>
      match (castToBigNum x nDefaultMaxNumSize).map CBigNum.getint with
      | none => none
      | some n =>
        if n < 0 then none
        else
          match (y :: stack)[n.toNat]? with
          | none => none
          | some vch =>
            some (vch :: if opcode = OP_ROLL then (y :: stack).eraseIdx n.toNat else y :: stack)
    | _ => none) := by
  obtain ⟨stack, alt, vf, n, ch⟩ := st
  rcases stack with - | ⟨x, - | ⟨y, stack⟩⟩
  · simp [LeavesStack, Leaves, pick, atLeast]
  · simp [LeavesStack, Leaves, pick, atLeast]
  rcases hbn : castToBigNum x 4 with - | bn
  · simp [LeavesStack, Leaves, pick, atLeast, nDefaultMaxNumSize, hbn]
  by_cases hneg : CBigNum.getint bn < 0
  · simp [LeavesStack, Leaves, pick, popstack, stackSize, atLeast, nDefaultMaxNumSize, hbn, hneg]
  rcases hvch : (y :: stack)[(CBigNum.getint bn).toNat]? with - | vch
  · have hlen := List.getElem?_eq_none_iff.1 hvch
    have hle : ((stack.length : ℤ) + 1) ≤ CBigNum.getint bn := by
      rw [List.length_cons] at hlen
      omega
    simp [LeavesStack, Leaves, pick, popstack, stackSize, atLeast, nDefaultMaxNumSize, hbn, hneg,
      hvch, hle]
  · obtain ⟨hlen, -⟩ := List.getElem?_eq_some_iff.1 hvch
    have hlt : ¬ ((stack.length : ℤ) + 1) ≤ CBigNum.getint bn := by
      rw [List.length_cons] at hlen
      omega
    have hroom : atLeast (CBigNum.getint bn).toNat stack = true :=
      atLeast_iff.2 (Nat.lt_succ_iff.1 hlen)
    by_cases hroll : opcode = OP_ROLL
    · simp [LeavesStack, Leaves, pick, popstack, stackSize, erase, atLeast, nDefaultMaxNumSize,
        hbn, hneg, hvch, hlt, hroom, hroll]
    · simp [LeavesStack, Leaves, pick, popstack, stackSize, atLeast, nDefaultMaxNumSize, hbn, hneg,
        hvch, hlt, hroll]

theorem leaves_rot : LeavesStack rot st (match st.stack with
    | x₃ :: x₂ :: x₁ :: stack => some (x₁ :: x₃ :: x₂ :: stack)
    | _ => none) := by
  obtain ⟨stack, alt, vf, n, ch⟩ := st
  rcases stack with - | ⟨x₃, - | ⟨x₂, - | ⟨x₁, stack⟩⟩⟩ <;>
    simp [LeavesStack, Leaves, rot, Eval.swap, atLeast]

theorem leaves_swapOne : LeavesStack swapOne st (match st.stack with
    | x₂ :: x₁ :: stack => some (x₁ :: x₂ :: stack)
    | _ => none) := by
  obtain ⟨stack, alt, vf, n, ch⟩ := st
  rcases stack with - | ⟨x₂, - | ⟨x₁, stack⟩⟩ <;>
    simp [LeavesStack, Leaves, swapOne, Eval.swap, atLeast]

theorem leaves_tuck : LeavesStack tuck st (match st.stack with
    | x₂ :: x₁ :: stack => some (x₂ :: x₁ :: x₂ :: stack)
    | _ => none) := by
  obtain ⟨stack, alt, vf, n, ch⟩ := st
  rcases stack with - | ⟨x₂, - | ⟨x₁, stack⟩⟩ <;>
    simp [LeavesStack, Leaves, tuck, insertAt, atLeast]

theorem leaves_size : LeavesStack size st (match st.stack with
    | x :: stack => some (CBigNum.getvch x.length :: x :: stack)
    | _ => none) := by
  obtain ⟨stack, alt, vf, n, ch⟩ := st
  rcases stack with - | ⟨x, stack⟩ <;> simp [LeavesStack, Leaves, size, atLeast]

theorem leaves_stackOp (opcode : UInt8) :
    LeavesStack (stackOp opcode) st (evalStackOp opcode st.stack) :=
  .ite (fun _ ↦ leaves_drop2 st) fun _ ↦ .ite (fun _ ↦ leaves_dup2 st) fun _ ↦
  .ite (fun _ ↦ leaves_dup3 st) fun _ ↦ .ite (fun _ ↦ leaves_over2 st) fun _ ↦
  .ite (fun _ ↦ leaves_rot2 st) fun _ ↦ .ite (fun _ ↦ leaves_swap2 st) fun _ ↦
  .ite (fun _ ↦ leaves_ifdup st) fun _ ↦ .ite (fun _ ↦ leaves_depth st) fun _ ↦
  .ite (fun _ ↦ leaves_drop st) fun _ ↦ .ite (fun _ ↦ leaves_dup st) fun _ ↦
  .ite (fun _ ↦ leaves_nip st) fun _ ↦ .ite (fun _ ↦ leaves_overOne st) fun _ ↦
  .ite (fun _ ↦ leaves_pick st opcode) fun _ ↦ .ite (fun _ ↦ leaves_rot st) fun _ ↦
  .ite (fun _ ↦ leaves_swapOne st) fun _ ↦ .ite (fun _ ↦ leaves_tuck st) fun _ ↦
  .ite (fun _ ↦ leaves_size st) fun _ ↦ leaves_returnFalse

/-! ### Bitwise logic, numeric, crypto -/

theorem leaves_toAltStack : Leaves toAltStack st (match st.stack with
    | x :: stack => some { st with stack, altstack := x :: st.altstack }
    | _ => none) := by
  obtain ⟨stack, alt, vf, n, ch⟩ := st
  rcases stack with - | ⟨x, stack⟩ <;> simp [Leaves, toAltStack, popstack, atLeast]

theorem leaves_fromAltStack : Leaves fromAltStack st (match st.altstack with
    | x :: altstack => some { st with stack := x :: st.stack, altstack }
    | _ => none) := by
  obtain ⟨stack, alt, vf, n, ch⟩ := st
  rcases alt with - | ⟨x, alt⟩ <;> simp [Leaves, fromAltStack, popAlt]

theorem leaves_verify : LeavesStack verify st (match st.stack with
    | x :: stack => if castToBool x then some stack else none
    | _ => none) := by
  obtain ⟨stack, alt, vf, n, ch⟩ := st
  rcases stack with - | ⟨x, stack⟩
  · simp [LeavesStack, Leaves, verify, atLeast]
  · by_cases hx : castToBool x <;>
      simp [LeavesStack, Leaves, verify, popstack, atLeast, hx]

@[simp] theorem run_leaveBool (fVerify fSuccess : Bool) :
    outcome ((leaveBool fVerify fSuccess).run st).2 =
      leaves ((leaveResult fVerify fSuccess st.stack).map fun stack ↦ { st with stack }) := by
  cases fVerify <;> cases fSuccess <;> simp [leaveBool, leaveResult, popstack]

theorem leaves_equal : LeavesStack (equal false) st (match st.stack with
    | x₂ :: x₁ :: stack => some (boolToVch (decide (x₁ = x₂)) :: stack)
    | _ => none) := by
  obtain ⟨stack, alt, vf, n, ch⟩ := st
  rcases stack with - | ⟨x₂, - | ⟨x₁, stack⟩⟩ <;>
    simp [LeavesStack, Leaves, equal, popstack, leaveResult, atLeast]

theorem leaves_equalVerify : LeavesStack (equal true) st (match st.stack with
    | x₂ :: x₁ :: stack => if x₁ = x₂ then some stack else none
    | _ => none) := by
  obtain ⟨stack, alt, vf, n, ch⟩ := st
  rcases stack with - | ⟨x₂, - | ⟨x₁, stack⟩⟩
  · simp [LeavesStack, Leaves, equal, atLeast]
  · simp [LeavesStack, Leaves, equal, atLeast]
  · by_cases hx : x₁ = x₂ <;>
      simp [LeavesStack, Leaves, equal, popstack, leaveResult, atLeast, hx]

theorem leaves_unary (opcode : UInt8) : LeavesStack (unary opcode) st (match st.stack with
    | x :: stack => do
      let bn ← castToBigNum x nDefaultMaxNumSize
      let bn ← unaryOp opcode bn
      some (CBigNum.getvch bn :: stack)
    | _ => none) := by
  obtain ⟨stack, alt, vf, n, ch⟩ := st
  rcases stack with - | ⟨x, stack⟩
  · simp [LeavesStack, Leaves, unary, atLeast]
  rcases hbn : castToBigNum x 4 with - | bn
  · simp [LeavesStack, Leaves, unary, atLeast, nDefaultMaxNumSize, hbn]
  rcases hop : unaryOp opcode bn with - | bn' <;>
    simp [LeavesStack, Leaves, unary, result, popstack, atLeast, nDefaultMaxNumSize, hbn, hop]

theorem leaves_binary (opcode : UInt8) : LeavesStack (binary opcode) st (match st.stack with
    | x₂ :: x₁ :: stack => do
      let bn₁ ← castToBigNum x₁ nDefaultMaxNumSize
      let bn₂ ← castToBigNum x₂ nDefaultMaxNumSize
      let bn ← binaryOp opcode bn₁ bn₂
      if opcode = OP_NUMEQUALVERIFY then
        (if castToBool (CBigNum.getvch bn) then some stack else none)
      else some (CBigNum.getvch bn :: stack)
    | _ => none) := by
  obtain ⟨stack, alt, vf, n, ch⟩ := st
  rcases stack with - | ⟨x₂, - | ⟨x₁, stack⟩⟩
  · simp [LeavesStack, Leaves, binary, atLeast]
  · simp [LeavesStack, Leaves, binary, atLeast]
  rcases h₁ : castToBigNum x₁ 4 with - | bn₁
  · simp [LeavesStack, Leaves, binary, atLeast, nDefaultMaxNumSize, h₁]
  rcases h₂ : castToBigNum x₂ 4 with - | bn₂
  · simp [LeavesStack, Leaves, binary, atLeast, nDefaultMaxNumSize, h₁, h₂]
  rcases hop : binaryOp opcode bn₁ bn₂ with - | bn
  · simp [LeavesStack, Leaves, binary, result, atLeast, nDefaultMaxNumSize, h₁, h₂, hop]
  by_cases hverify : opcode = OP_NUMEQUALVERIFY
  · subst hverify
    by_cases htrue : castToBool (CBigNum.getvch bn) <;>
      simp [LeavesStack, Leaves, binary, result, popstack, atLeast, nDefaultMaxNumSize, h₁, h₂,
        hop, htrue]
  · simp [LeavesStack, Leaves, binary, result, popstack, atLeast, nDefaultMaxNumSize, h₁, h₂, hop,
      hverify]

theorem leaves_within : LeavesStack within st (match st.stack with
    | x₃ :: x₂ :: x₁ :: stack => do
      let bn₁ ← castToBigNum x₁ nDefaultMaxNumSize
      let bn₂ ← castToBigNum x₂ nDefaultMaxNumSize
      let bn₃ ← castToBigNum x₃ nDefaultMaxNumSize
      some (boolToVch (decide (bn₂ ≤ bn₁ ∧ bn₁ < bn₃)) :: stack)
    | _ => none) := by
  obtain ⟨stack, alt, vf, n, ch⟩ := st
  rcases stack with - | ⟨x₃, - | ⟨x₂, - | ⟨x₁, stack⟩⟩⟩
  · simp [LeavesStack, Leaves, within, atLeast]
  · simp [LeavesStack, Leaves, within, atLeast]
  · simp [LeavesStack, Leaves, within, atLeast]
  rcases h₁ : castToBigNum x₁ 4 with - | bn₁
  · simp [LeavesStack, Leaves, within, atLeast, nDefaultMaxNumSize, h₁]
  rcases h₂ : castToBigNum x₂ 4 with - | bn₂
  · simp [LeavesStack, Leaves, within, atLeast, nDefaultMaxNumSize, h₁, h₂]
  rcases h₃ : castToBigNum x₃ 4 with - | bn₃ <;>
    simp [LeavesStack, Leaves, within, popstack, atLeast, nDefaultMaxNumSize, h₁, h₂, h₃]

theorem leaves_hashTop (C : Crypto) (opcode : UInt8) :
    LeavesStack (hashTop C opcode) st (match st.stack with
      | x :: stack => (hashOp C opcode x).map fun vchHash ↦ vchHash :: stack
      | _ => none) := by
  obtain ⟨stack, alt, vf, n, ch⟩ := st
  rcases stack with - | ⟨x, stack⟩
  · simp [LeavesStack, Leaves, hashTop, atLeast]
  · rcases hop : hashOp C opcode x with - | vch <;>
      simp [LeavesStack, Leaves, hashTop, popstack, atLeast, hop]

theorem leaves_numeric (opcode : UInt8) :
    LeavesStack (numeric opcode) st (evalNumeric opcode st.stack) :=
  .ite (fun _ ↦ leaves_unary st opcode) fun _ ↦ .ite (fun _ ↦ leaves_binary st opcode) fun _ ↦
  .ite (fun _ ↦ leaves_within st) fun _ ↦ leaves_returnFalse

theorem leaves_plain (C : Crypto) (opcode : UInt8) :
    Leaves (plain C opcode) st (evalPlain C opcode st) := by
  have hstack : ∀ x : Eval 4 Unit, ∀ r, LeavesStack x st r →
      Leaves x st (r.map fun stack ↦ { st with stack }) := fun _ _ h ↦ h
  refine .ite (fun _ ↦ leaves_toAltStack st) fun _ ↦ .ite (fun _ ↦ leaves_fromAltStack st) fun _ ↦
    hstack _ _ ?_
  exact .ite (fun _ ↦ rfl) fun _ ↦ .ite (fun _ ↦ rfl) fun _ ↦
    .ite (fun _ ↦ leaves_verify st) fun _ ↦ .ite (fun _ ↦ leaves_equal st) fun _ ↦
    .ite (fun _ ↦ leaves_equalVerify st) fun _ ↦ .ite (fun _ ↦ leaves_numeric st opcode) fun _ ↦
    .ite (fun _ ↦ leaves_hashTop st C opcode) fun _ ↦ leaves_stackOp st opcode

/-! ### Control -/

theorem leaves_control (opcode : UInt8) (fExec : Bool) :
    Leaves (control opcode fExec) st (evalControl opcode fExec st) := by
  obtain ⟨stack, alt, vf, n, ch⟩ := st
  refine .ite (fun _ ↦ .ite (fun _ ↦ ?_) fun _ ↦ rfl) fun _ ↦ .ite (fun _ ↦ ?_) fun _ ↦ ?_
  · rcases stack with - | ⟨x, stack⟩
    · simp [Leaves, atLeast]
    · by_cases hnot : opcode = OP_NOTIF <;> simp [Leaves, popstack, atLeast, hnot]
  · rcases vf with - | ⟨f, vf⟩ <;> simp [Leaves]
  · rcases vf with - | ⟨f, vf⟩ <;> simp [Leaves]

theorem leaves_checkLockTimeVerify (c : ScriptContext) :
    Leaves (checkLockTimeVerify c) st (if lockTimePasses c st.stack then some st else none) := by
  obtain ⟨stack, alt, vf, n, ch⟩ := st
  rw [checkLockTimeVerify, lockTimePasses.eq_def]
  split
  · by_cases hflag : hasFlag c.flags SCRIPT_VERIFY_DISCOURAGE_UPGRADABLE_NOPS <;>
      simp [Leaves, hflag]
  · rcases stack with - | ⟨x, stack⟩
    · simp [Leaves, atLeast]
    · rcases hbn : castToBigNum x 5 with - | bn
      · simp [Leaves, atLeast, hbn]
      · by_cases hneg : bn < 0
        · simp [Leaves, atLeast, hbn, hneg, not_le.2 hneg]
        · by_cases htime : checkLockTime c.txTo c.nIn bn <;>
            simp [Leaves, atLeast, hbn, hneg, htime, not_lt.1 hneg]

/-! ### Signatures -/

section

variable (C : Crypto) (c : ScriptContext)

theorem leaves_opCheckSig (fVerify : Bool) :
    Leaves (opCheckSig C c fVerify) st (evalCheckSig C c fVerify st).result := by
  obtain ⟨stack, alt, vf, n, ch⟩ := st
  rcases stack with - | ⟨vchPubKey, - | ⟨vchSig, stack⟩⟩
  · simp [Leaves, opCheckSig, evalCheckSig, atLeast]
  · simp [Leaves, opCheckSig, evalCheckSig, atLeast]
  rcases hone : (checkOne C c (findAndDelete (pushData vchSig) ch) vchSig vchPubKey).result
    with - | fSuccess
  · simp [Leaves, opCheckSig, evalCheckSig, runCheckOne, atLeast, hone]
  · simp [Leaves, opCheckSig, evalCheckSig, runCheckOne, popstack, atLeast, hone]

theorem run_popMany (st : ScriptState) {n : ℕ} (h : n ≤ st.stack.length) :
    ((popMany n : Eval 4 Unit).run st).2 = (.ok (), { st with stack := st.stack.drop n }) := by
  obtain ⟨stack, alt, vf, ops, ch⟩ := st
  induction n generalizing stack with
  | zero => rfl
  | succ n ih =>
    rcases stack with - | ⟨x, stack⟩
    · exact absurd h (Nat.not_succ_le_zero n)
    · simp [popMany, popstack, ih stack (Nat.succ_le_succ_iff.1 h)]

/-- The signatures from the position `isig` on. -/
theorem run_dropSigs (st : ScriptState) {isig : ℕ} {sigs below : List valtype}
    (h : st.stack.drop isig = sigs ++ below) (scriptCode : CScript) :
    ((dropSigs (isig + 1) sigs.length scriptCode).run st).2 =
      (.ok (sigs.foldl (fun script vchSig ↦ findAndDelete (pushData vchSig) script) scriptCode),
        st) := by
  induction sigs generalizing isig scriptCode with
  | nil => rfl
  | cons vchSig sigs ih =>
    have htop : st.stack[isig]? = some vchSig := by rw [← List.head?_drop, h]; rfl
    have hnext : st.stack.drop (isig + 1) = sigs ++ below := by
      rw [← List.tail_drop, h]; rfl
    simp [dropSigs, htop, ih hnext]

/-- The loop looks at the keys and at the signatures where they are. -/
theorem run_multiSigRounds (st : ScriptState) {ikey isig : ℕ}
    {keys sigs below below' : List valtype} (hkeys : st.stack.drop ikey = keys ++ below)
    (hsigs : st.stack.drop isig = sigs ++ below') (scriptCode : CScript) :
    ((multiSigRounds C c scriptCode keys.length sigs.length (ikey + 1) (isig + 1)).run st).2 =
      (leaves (multiSigLoop C c scriptCode keys sigs).result, st) := by
  induction keys generalizing ikey isig sigs with
  | nil => rcases sigs with - | ⟨vchSig, sigs⟩ <;> rfl
  | cons vchPubKey keys ih =>
    rcases sigs with - | ⟨vchSig, sigs⟩
    · rfl
    have hkey : st.stack[ikey]? = some vchPubKey := by rw [← List.head?_drop, hkeys]; rfl
    have hnextKey : st.stack.drop (ikey + 1) = keys ++ below := by
      rw [← List.tail_drop, hkeys]; rfl
    have hsig : st.stack[isig]? = some vchSig := by rw [← List.head?_drop, hsigs]; rfl
    have hnextSig : st.stack.drop (isig + 1) = sigs ++ below' := by
      rw [← List.tail_drop, hsigs]; rfl
    rcases hone : (checkOne C c scriptCode vchSig vchPubKey).result with - | fOk
    · simp [multiSigRounds, multiSigLoop, runCheckOne, Checked.result_bind, hkey, hsig, hone]
    cases fOk with
    | true =>
      by_cases hfew : keys.length < sigs.length
      · simp [multiSigRounds, multiSigLoop, runCheckOne, Checked.result_bind, hkey, hsig, hone,
          hfew]
      · simpa [multiSigRounds, multiSigLoop, runCheckOne, Checked.result_bind, hkey, hsig, hone,
          hfew] using ih hnextKey hnextSig
    | false =>
      by_cases hfew : keys.length < sigs.length + 1
      · simp [multiSigRounds, multiSigLoop, runCheckOne, Checked.result_bind, hkey, hsig, hone,
          hfew]
      · simpa [multiSigRounds, multiSigLoop, runCheckOne, Checked.result_bind, hkey, hsig, hone,
          hfew] using ih hnextKey hsigs

/-- Where the arguments are: one more element is under them. -/
theorem stack_of_multiSigArgs {nOpCount : ℕ} {stack : List valtype} {args : MultiSigArgs}
    (h : multiSigArgs nOpCount stack = some args) : ∃ x y dummy below,
      stack = x :: (args.keys ++ y :: (args.sigs ++ args.stack)) ∧ args.stack = dummy :: below := by
  rcases stack with - | ⟨x, stack⟩
  · cases h
  rw [multiSigArgs] at h
  rcases hx : (castToBigNum x nDefaultMaxNumSize).map CBigNum.getint with - | nKeys
  · simp [hx] at h
  rcases hdrop : stack.drop nKeys.toNat with - | ⟨y, below⟩
  · simp [hx, hdrop] at h
  rcases hy : (castToBigNum y nDefaultMaxNumSize).map CBigNum.getint with - | nSigs
  · simp [hx, hdrop, hy] at h
  simp only [hx, hdrop, hy, Option.ite_none_left_eq_some, Option.some.injEq] at h
  obtain ⟨-, hroom, rfl⟩ := h
  obtain ⟨dummy, rest, hbelow⟩ : ∃ dummy rest, below.drop nSigs.toNat = dummy :: rest := by
    refine List.exists_cons_of_ne_nil fun hnil ↦ ?_
    have hlen := List.drop_eq_nil_iff.1 hnil
    omega
  refine ⟨x, y, dummy, rest, ?_, hbelow⟩
  rw [List.take_append_drop, ← hdrop, List.take_append_drop]

/-- The counts are those of the arguments. -/
theorem run_multiSigCounts :
    match multiSigArgs st.nOpCount st.stack with
    | some args => (multiSigCounts.run st).2 = (.ok (args.keys.length, args.sigs.length),
      { st with nOpCount := st.nOpCount + args.keys.length })
    | none => (multiSigCounts.run st).2.1 = .error .returnFalse := by
  obtain ⟨stack, alt, vf, n, ch⟩ := st
  rcases stack with - | ⟨x, stack⟩
  · simp [multiSigCounts, multiSigArgs, atLeast]
  rcases hx : castToBigNum x 4 with - | bn
  · simp [multiSigCounts, multiSigArgs, atLeast, nDefaultMaxNumSize, hx]
  by_cases hcount : CBigNum.getint bn < 0 ∨ 20 < CBigNum.getint bn
  · have hbad : CBigNum.getint bn < 0 ∨ 20 < CBigNum.getint bn ∨
        201 < n + (CBigNum.getint bn).toNat := by omega
    simp [multiSigCounts, multiSigArgs, atLeast, nDefaultMaxNumSize, hx, hcount, hbad]
  by_cases hops : 201 < n + (CBigNum.getint bn).toNat
  · simp [multiSigCounts, multiSigArgs, atLeast, nDefaultMaxNumSize, hx, hcount, hops]
  have hgood : ¬ (CBigNum.getint bn < 0 ∨ 20 < CBigNum.getint bn ∨
      201 < n + (CBigNum.getint bn).toNat) := by omega
  rcases hdrop : stack.drop (CBigNum.getint bn).toNat with - | ⟨y, below⟩
  · have hshort : atLeast ((CBigNum.getint bn).toNat + 1) stack = false := by
      rw [← Bool.not_eq_true, atLeast_iff]
      have hlen := List.drop_eq_nil_iff.1 hdrop
      omega
    simp [multiSigCounts, multiSigArgs, atLeast, nDefaultMaxNumSize, hx, hcount, hops, hdrop,
      hshort]
  have hlen : below.length + 1 + (CBigNum.getint bn).toNat = stack.length := by
    have hsum := congrArg List.length hdrop
    rw [List.length_drop, List.length_cons] at hsum
    omega
  have hroom : atLeast ((CBigNum.getint bn).toNat + 1) stack = true := by
    rw [atLeast_iff]
    omega
  have hy : stack[(CBigNum.getint bn).toNat]? = some y := by
    rw [← List.head?_drop, hdrop, List.head?_cons]
  rcases hsigs : castToBigNum y 4 with - | bn'
  · simp [multiSigCounts, multiSigArgs, atLeast, nDefaultMaxNumSize, hx, hcount, hops, hdrop, hroom,
      hy, hsigs]
  by_cases hfew : CBigNum.getint bn' < 0 ∨ CBigNum.getint bn < CBigNum.getint bn'
  · have hbad : CBigNum.getint bn' < 0 ∨ CBigNum.getint bn < CBigNum.getint bn' ∨
        below.length ≤ (CBigNum.getint bn').toNat := by omega
    simp [multiSigCounts, multiSigArgs, atLeast, nDefaultMaxNumSize, hx, hcount, hops, hdrop, hroom,
      hy, hsigs, hfew, hbad]
  by_cases hbelow : below.length ≤ (CBigNum.getint bn').toNat
  · have hshort : atLeast ((CBigNum.getint bn).toNat + (CBigNum.getint bn').toNat + 2) stack =
        false := by
      rw [← Bool.not_eq_true, atLeast_iff]
      omega
    simp [multiSigCounts, multiSigArgs, atLeast, nDefaultMaxNumSize, hx, hcount, hops, hdrop, hroom,
      hy, hsigs, hfew, hbelow, hshort]
  · have henough : atLeast ((CBigNum.getint bn).toNat + (CBigNum.getint bn').toNat + 2) stack =
        true := by
      rw [atLeast_iff]
      omega
    have hdone : ¬ (CBigNum.getint bn' < 0 ∨ CBigNum.getint bn < CBigNum.getint bn' ∨
        below.length ≤ (CBigNum.getint bn').toNat) := by omega
    have hkeys : (CBigNum.getint bn).toNat ≤ stack.length := by omega
    have hsig : (CBigNum.getint bn').toNat ≤ below.length := by omega
    simp [multiSigCounts, multiSigArgs, atLeast, nDefaultMaxNumSize, hx, hcount, hops, hdrop, hroom,
      hy, hsigs, hfew, hdone, henough, hkeys, hsig]

theorem leaves_opCheckMultiSig (fVerify : Bool) :
    Leaves (opCheckMultiSig C c fVerify) st (evalCheckMultiSig C c fVerify st).result := by
  have hcounts := run_multiSigCounts st
  rcases hargs : multiSigArgs st.nOpCount st.stack with - | args
  · rw [hargs] at hcounts
    simp [Leaves, opCheckMultiSig, evalCheckMultiSig, andThen, hargs, hcounts]
  rw [hargs] at hcounts
  obtain ⟨x, y, dummy, below, hstack, hdummy⟩ := stack_of_multiSigArgs hargs
  have hkeys : st.stack.drop 1 = args.keys ++ y :: (args.sigs ++ args.stack) := by
    rw [hstack]; rfl
  have hsigs : st.stack.drop (args.keys.length + 2) = args.sigs ++ args.stack := by
    rw [hstack, List.drop_succ_cons, List.drop_append, Nat.add_sub_cancel_left,
      List.drop_of_length_le (Nat.le_succ _)]
    rfl
  have hrest : st.stack.drop (args.keys.length + args.sigs.length + 2) = args.stack := by
    rw [Nat.add_right_comm, ← List.drop_drop, hsigs, List.drop_left]
  have hlen : args.keys.length + args.sigs.length + 2 ≤ st.stack.length := by
    rw [hstack]
    simp only [List.length_cons, List.length_append]
    omega
  have hargs' := run_dropSigs { st with nOpCount := st.nOpCount + args.keys.length } hsigs
    st.codehash
  have hrounds := run_multiSigRounds C c
    { st with nOpCount := st.nOpCount + args.keys.length } hkeys hsigs
    (args.sigs.foldl (fun script vchSig ↦ findAndDelete (pushData vchSig) script) st.codehash)
  have hpop := run_popMany { st with nOpCount := st.nOpCount + args.keys.length } hlen
  rw [hrest, hdummy] at hpop
  rcases hloop : (multiSigLoop C c
      (args.sigs.foldl (fun script vchSig ↦ findAndDelete (pushData vchSig) script) st.codehash)
      args.keys args.sigs).result with - | fSuccess
  · rw [hloop] at hrounds
    simp [Leaves, opCheckMultiSig, evalCheckMultiSig, andThen, hargs, hcounts, hargs', hrounds,
      hloop]
  · rw [hloop] at hrounds
    by_cases hflag : hasFlag c.flags SCRIPT_VERIFY_NULLDUMMY
    · by_cases hnull : dummy = [] <;>
        simp [Leaves, opCheckMultiSig, evalCheckMultiSig, dropDummy, popstack, atLeast, andThen,
          hargs, hcounts, hargs', hrounds, hloop, hpop, hdummy, hflag, hnull]
    · simp [Leaves, opCheckMultiSig, evalCheckMultiSig, dropDummy, popstack, atLeast, andThen,
        hargs, hcounts, hargs', hrounds, hloop, hpop, hdummy, hflag]

/-! ### The whole `switch` -/

theorem leaves_others (opcode : UInt8) (pc : CScript) (fExec : Bool)
    (h : opcode ≠ OP_CHECKLOCKTIMEVERIFY) :
    Leaves (others C c opcode pc fExec) st (evalOp C c opcode pc fExec st).result := by
  rw [evalOp, if_neg h]
  simp only [apply_ite Checked.result, Checked.result_plain]
  exact .ite (fun _ ↦ leaves_control st opcode fExec) fun _ ↦
    .ite (fun _ ↦ leaves_returnFalseIf) fun _ ↦ .ite (fun _ ↦ rfl) fun _ ↦
    .ite (fun _ ↦ leaves_opCheckSig st C c _) fun _ ↦
    .ite (fun _ ↦ leaves_opCheckMultiSig st C c _) fun _ ↦ leaves_plain st C opcode

/-- Each instruction leaves what the interpreter leaves: none is undefined. -/
theorem leaves_runSwitch (opcode : UInt8) (pc : CScript) (fExec : Bool) :
    Leaves (runSwitch C c opcode pc fExec) st (evalOp C c opcode pc fExec st).result := by
  rw [runSwitch]
  split
  next h =>
    subst h
    exact leaves_checkLockTimeVerify st c
  next h => exact leaves_others st C c opcode pc fExec h

theorem leaves_runExecute (opcode : UInt8) (vchPushValue : valtype) (pc : CScript) :
    Leaves (runExecute C c opcode vchPushValue pc) st
      (execute C c opcode vchPushValue pc st).result := by
  rw [execute]
  simp only [apply_ite Checked.result, Checked.result_plain]
  exact .ite (fun _ ↦ rfl) fun _ ↦ .ite (fun _ ↦ leaves_runSwitch st C c opcode pc st.fExec) fun _ ↦
    rfl

theorem leaves_checkSize (m : ℕ) : Leaves (checkSize : Eval m Unit) st (withinLimits st) :=
  leaves_returnFalseIf

theorem leaves_runRound (opcode : UInt8) (vchPushValue : valtype) (pc : CScript) :
    Leaves (runRound C c opcode vchPushValue pc) st
      (step C c opcode vchPushValue pc st).result := by
  have hexecute : Leaves (do runExecute C c opcode vchPushValue pc; checkSize)
      (countOp opcode st)
      ((execute C c opcode vchPushValue pc (countOp opcode st)).result.bind withinLimits) :=
    .bind (leaves_runExecute _ C c opcode vchPushValue pc) fun st' ↦ leaves_checkSize st' _
  rw [step, apply_ite Checked.result, Checked.result_plain, Checked.result_map]
  by_cases hrefuses : refusesOp opcode vchPushValue st
  · simp [Leaves, runRound, hrefuses]
  · simpa [Leaves, runRound, hrefuses] using hexecute

end

/-! ### The loop -/

variable (C : Crypto) (c : ScriptContext)

theorem outcome_runFrom (parsed : Parsed) (st : ScriptState) :
    outcome (runFrom C c parsed st).2 = leaves (evalFrom C c parsed st).result := by
  induction parsed generalizing st with
  | done => rfl
  | bad => rfl
  | op opcode vch pc next ih =>
    have hround := leaves_runRound st C c opcode vch pc
    rw [Leaves] at hround
    rw [runFrom, evalFrom, Checked.result_bind]
    rcases hstep : (step C c opcode vch pc st).result with - | st'
    · rw [hstep, leaves_none, outcome_eq_error] at hround
      rw [hround]
      rfl
    · rw [hstep, leaves_some, outcome_eq_ok] at hround
      rw [hround]
      exact ih st'

/-- The script ends in the same way. -/
theorem outcome_runScript (script : CScript) (stack : List valtype) :
    outcome (runScript C c script stack).2 = leaves (evalScript C c script stack).result := by
  rw [runScript, evalScript]
  split
  · rfl
  · dsimp only
    have hrun := outcome_runFrom C c (parse script) (.init script stack)
    rw [Checked.result_map]
    rcases hres : (evalFrom C c (parse script) (.init script stack)).result with - | st
    · rw [hres, leaves_none, outcome_eq_error] at hrun
      rw [hrun]
      rfl
    · rw [hres, leaves_some, outcome_eq_ok] at hrun
      rw [hrun, Option.bind_some]
      dsimp only
      split <;> rfl

end

end Bws
