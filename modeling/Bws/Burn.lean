import Bws.ScriptRun

/-!
# Outputs that are burned

`ConnectInputs` takes an output for burned when the second byte of its script is `OP_BURN`.  Whether
the interpreter ever meets an `OP_BURN` there depends on the first byte.  It does, and the output can
never be spent, unless that byte pushes the second one as data, or is `OP_IF` or `OP_NOTIF`, so that
the instruction may be skipped; for each of these some scripts are spendable (`unspendable_iff`).
-/

namespace Bws

open Checked

/-- The second byte of a script is not executed whatever happens: it is data, or in a branch. -/
def hidesNext (opcode : UInt8) : Prop :=
  0 < opcode ∧ opcode ≤ OP_PUSHDATA4 ∨ opcode = OP_IF ∨ opcode = OP_NOTIF

instance (opcode : UInt8) : Decidable (hidesNext opcode) := inferInstanceAs (Decidable (_ ∨ _))

section

variable {C : Crypto} {c : ScriptContext}

/-! ## The instruction before -/

theorem vfExec_countOp (opcode : UInt8) (st : ScriptState) :
    (countOp opcode st).vfExec = st.vfExec := by
  unfold countOp
  split <;> rfl

theorem vfExec_evalPlain {opcode : UInt8} {st st' : ScriptState}
    (h : evalPlain C opcode st = some st') : st'.vfExec = st.vfExec := by
  unfold evalPlain at h
  split at h
  · split at h
    · cases h
      rfl
    · cases h
  · split at h
    · split at h
      · cases h
        rfl
      · cases h
    · obtain ⟨stack, -, rfl⟩ := Option.map_eq_some_iff.mp h
      rfl

theorem vfExec_evalCheckSig {fVerify : Bool} {st st' : ScriptState}
    (h : (evalCheckSig C c fVerify st).result = some st') : st'.vfExec = st.vfExec := by
  unfold evalCheckSig at h
  split at h
  · obtain ⟨fSuccess, -, h⟩ := Option.bind_eq_some_iff.mp h
    obtain ⟨stack, -, rfl⟩ := Option.map_eq_some_iff.mp h
    rfl
  · cases h

theorem vfExec_evalCheckMultiSig {fVerify : Bool} {st st' : ScriptState}
    (h : (evalCheckMultiSig C c fVerify st).result = some st') : st'.vfExec = st.vfExec := by
  unfold evalCheckMultiSig at h
  split at h
  · cases h
  · obtain ⟨fSuccess, -, h⟩ := Option.bind_eq_some_iff.mp h
    obtain ⟨stack, -, rfl⟩ := Option.map_eq_some_iff.mp h
    rfl

/-- Outside of all branches only `OP_IF` and `OP_NOTIF` open one, and none can be closed. -/
theorem vfExec_evalOp {opcode : UInt8} {pc : CScript} {fExec : Bool} {st st' : ScriptState}
    (hif : opcode ≠ OP_IF) (hnotif : opcode ≠ OP_NOTIF) (hst : st.vfExec = [])
    (h : (evalOp C c opcode pc fExec st).result = some st') : st'.vfExec = [] := by
  unfold evalOp at h
  split at h
  · rw [result_plain, evalControl, if_neg (not_or.mpr ⟨hif, hnotif⟩)] at h
    split at h <;> rw [hst] at h <;> cases h
  split at h
  · rw [result_plain] at h
    split at h
    · cases h
      exact hst
    · cases h
  split at h
  · rw [result_plain] at h
    split at h
    · cases h
    · cases h
      exact hst
  split at h
  · cases h
    exact hst
  split at h
  · rw [vfExec_evalCheckSig h, hst]
  split at h
  · rw [vfExec_evalCheckMultiSig h, hst]
  · rw [vfExec_evalPlain h, hst]

theorem vfExec_step {opcode : UInt8} {vch : valtype} {pc : CScript} {st st' : ScriptState}
    (hif : opcode ≠ OP_IF) (hnotif : opcode ≠ OP_NOTIF) (hst : st.vfExec = [])
    (h : (step C c opcode vch pc st).result = some st') : st'.vfExec = [] := by
  obtain ⟨-, h⟩ := step_eq_some h
  have hcount : (countOp opcode st).vfExec = [] := (vfExec_countOp opcode st).trans hst
  unfold execute at h
  split at h
  · cases h
    exact hcount
  · split at h
    · exact vfExec_evalOp hif hnotif hcount h
    · cases h
      exact hcount

/-- An `OP_BURN` that is executed ends the script. -/
theorem step_burn {vch : valtype} {pc : CScript} {st : ScriptState} (hst : st.vfExec = []) :
    (step C c OP_BURN vch pc st).result = none := by
  have hburn : ∀ (fExec : Bool) (st : ScriptState),
      evalOp C c OP_BURN pc fExec st = .plain none := fun _ _ ↦ rfl
  have hexec : (countOp OP_BURN st).fExec = true := by
    rw [fExec_countOp, ScriptState.fExec, hst]
    rfl
  unfold step execute
  split
  · rfl
  · rw [if_neg fun h ↦ absurd h.2 (by decide), if_pos (.inl hexec), hburn]
    rfl

/-! ## Scripts with `OP_BURN` second -/

theorem getOp_of_not_hidesNext {opcode : UInt8} (h : ¬ hidesNext opcode) (pc : CScript) :
    getOp (opcode :: pc) = some (opcode, [], pc) := by
  have hsize : pushSize opcode pc = some (0, pc) := by
    unfold pushSize
    by_cases hzero : opcode = 0
    · subst hzero
      rfl
    · have hlt : OP_PUSHDATA4 < opcode := by
        refine UInt8.not_le.mp fun hle ↦ h (.inl ⟨?_, hle⟩)
        exact UInt8.pos_iff_ne_zero.mpr hzero
      have hne : ∀ {o : UInt8}, o ≤ OP_PUSHDATA4 → opcode ≠ o := fun hle heq ↦
        UInt8.not_lt.mpr hle (heq ▸ hlt)
      rw [if_neg (UInt8.not_lt.mpr (UInt8.le_trans (by decide) (UInt8.le_of_lt hlt))),
        if_neg (hne (by decide)), if_neg (hne (by decide)), if_neg (hne (by decide))]
  exact getOp_cons hsize

/-- A script whose second instruction is `OP_BURN` fails on every stack. -/
theorem evalScript_burn {first : UInt8} (h : ¬ hidesNext first) (rest : CScript)
    (stack : List valtype) :
    (evalScript C c (first :: OP_BURN :: rest) stack).result = none := by
  have hparse : parse (first :: OP_BURN :: rest) =
      .op first [] (OP_BURN :: rest) (.op OP_BURN [] rest (parse rest)) := by
    rw [parse_of_getOp (getOp_of_not_hidesNext h _),
      parse_of_getOp (getOp_of_not_hidesNext (by decide) _)]
  obtain ⟨-, hif, hnotif⟩ := not_or.mp h |>.imp_right not_or.mp
  unfold evalScript
  split
  · rfl
  · rw [hparse, evalFrom, result_map, result_bind, Option.bind_eq_none_iff]
    intro st hst
    obtain ⟨st₁, hstep, hst⟩ := Option.bind_eq_some_iff.mp hst
    rw [evalFrom, result_bind, step_burn (vfExec_step hif hnotif rfl hstep)] at hst
    cases hst

theorem verifyScript_burn {first : UInt8} (h : ¬ hidesNext first) (rest scriptSig : CScript) :
    verifyScript C c scriptSig (first :: OP_BURN :: rest) = false := by
  unfold verifyScript
  split
  · rfl
  · rename_i stackCopy _
    rw [if_neg]
    rintro ⟨stack, hstack, -⟩
    rw [evalScript_burn h rest stackCopy] at hstack
    cases hstack

/-! ## Scripts that hide it -/

/-- A script that pushes one true value is redeemed by an empty one. -/
theorem verifyScript_push {script : CScript} {opcode : UInt8} {vch : valtype}
    (h : getOp script = some (opcode, vch, [])) (hop : opcode ≤ OP_PUSHDATA4)
    (hvch : vch.length ≤ MAX_SCRIPT_ELEMENT_SIZE) (hlen : script.length ≤ 10000)
    (htrue : castToBool vch = true) (hp2sh : ¬ isPayToScriptHash script) :
    verifyScript C c [] script = true := by
  have hbelow : OP_PUSHDATA4 ≤ OP_16 := by decide
  have hrefuse : ¬ refusesOp opcode vch (.init script []) := by
    have hle : ¬ OP_16 < opcode := UInt8.not_lt.mpr (UInt8.le_trans hop hbelow)
    rintro (hbig | hcount | hdis)
    · exact Nat.not_lt.mpr hvch hbig
    · exact hle hcount.1
    · have hall : ∀ o ∈ disabledOpcodes, ¬ o ≤ OP_PUSHDATA4 := by decide +kernel
      exact hall opcode hdis hop
  have hcount : countOp opcode (.init script []) = .init script [] :=
    countOp_of_le (UInt8.le_trans hop hbelow) _
  have hexec : execute C c opcode vch [] (.init script []) =
      .plain (some { ScriptState.init script [] with stack := [vch] }) := if_pos ⟨rfl, hop⟩
  have hrun : (evalScript C c script []).result = some [vch] := by
    rw [evalScript, if_neg (not_lt.mpr hlen), parse_of_getOp h, parse_nil, evalFrom, step,
      if_neg hrefuse, hcount, hexec]
    rfl
  have hsig : (evalScript C c [] []).result = some [] := rfl
  rw [verifyScript, hsig]
  dsimp only
  rw [if_pos ⟨[vch], hrun, vch, rfl, htrue⟩, if_neg hp2sh]

theorem castToBool_burn (vch : valtype) : castToBool (OP_BURN :: vch) = true := by
  cases vch <;> rfl

theorem not_isPayToScriptHash_burn (first : UInt8) (rest : CScript) :
    ¬ isPayToScriptHash (first :: OP_BURN :: rest) := by
  rintro ⟨-, -, h, -⟩
  cases h

theorem getOp_of_pushSize {opcode : UInt8} {pc data : CScript}
    (h : pushSize opcode pc = some (data.length, data)) :
    getOp (opcode :: pc) = some (opcode, data, []) := by
  rw [getOp, h]
  dsimp only
  rw [if_neg (lt_irrefl _), List.take_length, List.drop_length]

/-- Enough true bytes for a size that starts with the byte `OP_BURN`. -/
def ones : valtype := List.replicate 208 1

theorem length_ones : ones.length = 208 := List.length_replicate

theorem castToBool_ones : castToBool ones = true := rfl

/-- A first byte that pushes the second one can push no more than is there. -/
theorem exists_spendable_push {first : UInt8} (hpos : 0 < first) (hle : first ≤ OP_PUSHDATA4) :
    ∃ rest, verifyScript C c [] (first :: OP_BURN :: rest) = true := by
  by_cases hlt : first < OP_PUSHDATA1
  · have hfirst : 0 < first.toNat := by simpa using UInt8.lt_iff_toNat_lt.mp hpos
    have hsmall : first.toNat < 76 := UInt8.lt_iff_toNat_lt.mp hlt
    have hlen : (OP_BURN :: List.replicate (first.toNat - 1) 0).length = first.toNat := by
      rw [List.length_cons, List.length_replicate]
      omega
    have hsize : pushSize first (OP_BURN :: List.replicate (first.toNat - 1) 0) =
        some ((OP_BURN :: List.replicate (first.toNat - 1) 0).length,
          OP_BURN :: List.replicate (first.toNat - 1) 0) := by
      rw [pushSize, if_pos hlt, hlen]
    refine ⟨List.replicate (first.toNat - 1) 0, verifyScript_push (getOp_of_pushSize hsize) hle ?_ ?_
      (castToBool_burn _) (not_isPayToScriptHash_burn _ _)⟩
    · rw [hlen, MAX_SCRIPT_ELEMENT_SIZE]
      omega
    · rw [List.length_cons, hlen]
      omega
  · have hspend : ∀ {first : UInt8} (size : CScript), size.length ≤ 3 →
        (∀ pc, pushSize first pc = readSize (size.length + 1) pc) →
        leNat (OP_BURN :: size) = 208 → first ≤ OP_PUSHDATA4 →
        ∃ rest, verifyScript C c [] (first :: OP_BURN :: rest) = true := by
      intro first size hsize hread hnum hfirst
      have hpush : pushSize first (OP_BURN :: (size ++ ones)) = some (ones.length, ones) := by
        rw [hread, length_ones, ← hnum]
        exact readSize_append (OP_BURN :: size) ones
      refine ⟨size ++ ones, verifyScript_push (getOp_of_pushSize hpush) hfirst ?_ ?_
        castToBool_ones (not_isPayToScriptHash_burn _ _)⟩
      · rw [length_ones, MAX_SCRIPT_ELEMENT_SIZE]
        omega
      · rw [List.length_cons, List.length_cons, List.length_append, length_ones]
        omega
    refine forall_byte 0x4c 0x4e
      (p := fun first ↦ ∃ rest, verifyScript C c [] (first :: OP_BURN :: rest) = true)
      (by decide) (by decide) (fun n h₁ h₂ ↦ ?_) (UInt8.not_lt.mp hlt) hle
    -- the size is 208, in one, two or four bytes
    interval_cases n
    · exact hspend [] (by decide) (fun _ ↦ rfl) (by decide +kernel) (by decide)
    · exact hspend [0] (by decide) (fun _ ↦ rfl) (by decide +kernel) (by decide)
    · exact hspend [0, 0, 0] (by decide) (fun _ ↦ rfl) (by decide +kernel) (by decide)

theorem exists_spendable {first : UInt8} (h : hidesNext first) :
    ∃ rest scriptSig, verifyScript C c scriptSig (first :: OP_BURN :: rest) = true := by
  rcases h with ⟨hpos, hle⟩ | rfl | rfl
  · obtain ⟨rest, hv⟩ := exists_spendable_push (C := C) (c := c) hpos hle
    exact ⟨rest, [], hv⟩
  · exact ⟨[OP_ENDIF], [OP_1, 0], rfl⟩
  · exact ⟨[OP_ENDIF], [OP_1, OP_1], rfl⟩

end

/-- **Which burned outputs can never be spent.**  Of the scripts whose second byte is `OP_BURN`, all
those with a given first byte are unspendable in a block exactly when that byte neither pushes data
nor opens a branch. -/
theorem unspendable_iff (C : Crypto) (first : UInt8) :
    (∀ script : CScript, script[0]? = some first → script[1]? = some OP_BURN →
      ∀ (txTo : CTransaction) (nIn : ℕ) (scriptSig : CScript),
        verifyScript C ⟨txTo, nIn, connectBlockFlags, 0⟩ scriptSig script = false) ↔
      ¬ hidesNext first := by
  constructor
  · intro h hhides
    obtain ⟨rest, scriptSig, hv⟩ := exists_spendable (C := C)
      (c := ⟨Sample.coinbase 1 0 0, 0, connectBlockFlags, 0⟩) hhides
    have hfalse := h (first :: OP_BURN :: rest) rfl rfl (Sample.coinbase 1 0 0) 0 scriptSig
    exact absurd (hv.symm.trans hfalse) nofun
  · intro h script hfirst hburn txTo nIn scriptSig
    match script, hfirst, hburn with
    | first' :: burn :: rest, hfirst, hburn =>
      cases hfirst
      cases hburn
      exact verifyScript_burn h rest scriptSig

/-- An output is burned and anyone can spend it. -/
theorem spendable_burned : burnCoins Sample.params 0 [⟨5 * COIN, [1, OP_BURN]⟩] = 500000000 ∧
    verifyScript Sample.crypto ⟨Sample.coinbase 1 0 0, 0, connectBlockFlags, 0⟩ [] [1, OP_BURN] =
      true := by
  decide

end Bws
