import Bws.SigOps

/-!
# Running scripts without branches

What the interpreter does with a script that pushes byte strings and then uses them.  A script is
read instruction by instruction (`Pushes`), a run follows it step by step (`evalFrom_of_getOp`),
and a signature that no instruction pushes is not deleted from it (`findAndDelete_of_clear`).
-/

namespace Bws

open Checked

/-! ## Pushes -/

/-- The script starts with instructions that push the byte strings one after another, and `rest` is
what follows. -/
inductive Pushes : CScript → List valtype → CScript → Prop
  | nil (rest : CScript) : Pushes rest [] rest
  | cons {script pc rest : CScript} {opcode : UInt8} {vch : valtype} {vchs : List valtype}
      (hget : getOp script = some (opcode, vch, pc)) (hop : opcode ≤ OP_PUSHDATA4)
      (hrest : Pushes pc vchs rest) : Pushes script (vch :: vchs) rest

/-- `PushAll` -/
def pushAll (values : List valtype) : CScript := values.flatMap pushData

theorem getOp_of_sized {opcode : UInt8} (size : List UInt8) {vch rest : List UInt8}
    (h : pushSize opcode (size ++ (vch ++ rest)) = some (vch.length, vch ++ rest)) :
    getOp (opcode :: (size ++ (vch ++ rest))) = some (opcode, vch, rest) := by
  rw [getOp, h]
  dsimp only
  rw [if_neg (by rw [List.length_append]; omega), List.take_left, List.drop_left]

theorem getOp_cons {opcode : UInt8} {pc : CScript} (h : pushSize opcode pc = some (0, pc)) :
    getOp (opcode :: pc) = some (opcode, [], pc) := by
  rw [getOp, h]
  exact if_neg (Nat.not_lt_zero _)

theorem pushSize_of_lt {opcode : UInt8} (h : OP_PUSHDATA4 < opcode) (pc : CScript) :
    pushSize opcode pc = some (0, pc) := by
  have hne : ∀ o ≤ OP_PUSHDATA4, opcode ≠ o := by
    rintro o ho rfl
    exact UInt8.not_lt.2 ho h
  unfold pushSize
  rw [if_neg fun hlt ↦ UInt8.not_lt.2 (UInt8.le_of_lt (UInt8.lt_trans hlt (by decide))) h,
    if_neg (hne _ (by decide)), if_neg (hne _ (by decide)), if_neg (hne _ (UInt8.le_refl _))]

theorem readSize_append (size rest : List UInt8) :
    readSize size.length (size ++ rest) = some (leNat size, rest) := by
  rw [readSize, if_neg (by rw [List.length_append]; omega), List.take_left, List.drop_left]

/-- A push whose size does not fit in an opcode. -/
theorem getOp_of_size {opcode : UInt8} {size vch : List UInt8} {n : ℕ} (rest : CScript)
    (hlen : size.length = n) (hnum : leNat size = vch.length)
    (hsize : ∀ pc, pushSize opcode pc = readSize n pc) :
    getOp ((opcode :: size) ++ vch ++ rest) = some (opcode, vch, rest) := by
  have hread := readSize_append size (vch ++ rest)
  rw [hnum, hlen] at hread
  rw [List.append_assoc, List.cons_append]
  exact getOp_of_sized size ((hsize _).trans hread)

/-- What is pushed is read back, while its size fits in four bytes. -/
theorem getOp_pushData_of_lt {vch : valtype} (h : vch.length < 2 ^ 32) (rest : CScript) :
    ∃ opcode ≤ OP_PUSHDATA4, getOp (pushData vch ++ rest) = some (opcode, vch, rest) := by
  have hone : OP_PUSHDATA1.toNat = 76 := rfl
  have hbyte : ∀ {n}, n < 256 → (UInt8.ofNat n).toNat = n := fun hn ↦ UInt8.toNat_ofNat_of_lt' hn
  unfold pushData
  dsimp only
  by_cases hsmall : vch.length < 76
  · rw [if_pos (by rw [hone]; exact hsmall)]
    have hnat : (UInt8.ofNat vch.length).toNat = vch.length := hbyte (by omega)
    have hlt : UInt8.ofNat vch.length < OP_PUSHDATA1 := by
      rw [UInt8.lt_iff_toNat_lt, hnat]
      exact hsmall
    refine ⟨UInt8.ofNat vch.length, UInt8.le_of_lt (UInt8.lt_trans hlt (by decide)), ?_⟩
    rw [List.append_assoc, List.singleton_append]
    refine getOp_of_sized [] ?_
    rw [List.nil_append, pushSize, if_pos hlt, hnat]
  · rw [if_neg (by rw [hone]; exact hsmall)]
    by_cases hlow : vch.length ≤ 0xff
    · rw [if_pos hlow]
      refine ⟨OP_PUSHDATA1, by decide, getOp_of_size rest rfl ?_ fun _ ↦ rfl⟩
      rw [leNat, leNat, hbyte (by omega), mul_zero, add_zero]
    · rw [if_neg hlow]
      by_cases hshort : vch.length ≤ 0xffff
      · rw [if_pos hshort]
        refine ⟨OP_PUSHDATA2, by decide, getOp_of_size rest rfl ?_ fun _ ↦ rfl⟩
        rw [leNat, leNat, leNat, hbyte (by omega), hbyte (by omega)]
        omega
      · rw [if_neg hshort]
        refine ⟨OP_PUSHDATA4, UInt8.le_refl _, getOp_of_size rest rfl ?_ fun _ ↦ rfl⟩
        rw [leNat, leNat, leNat, leNat, leNat, hbyte (by omega), hbyte (by omega),
          hbyte (by omega), hbyte (by omega)]
        omega

/-- What is pushed is read back. -/
theorem getOp_pushData {vch : valtype} (h : vch.length ≤ MAX_SCRIPT_ELEMENT_SIZE) (rest : CScript) :
    ∃ opcode ≤ OP_PUSHDATA4, getOp (pushData vch ++ rest) = some (opcode, vch, rest) :=
  getOp_pushData_of_lt (h.trans_lt (by decide)) rest

theorem length_le_of_pushSize {opcode : UInt8} {pc pc' : CScript} {nSize : ℕ}
    (h : pushSize opcode pc = some (nSize, pc')) : pc.length ≤ 4 + pc'.length := by
  have hread : ∀ n ≤ 4, readSize n pc = some (nSize, pc') → pc.length ≤ 4 + pc'.length := by
    intro n hle hn
    unfold readSize at hn
    split at hn
    · cases hn
    · cases hn
      rw [List.length_drop]
      omega
  unfold pushSize at h
  split_ifs at h
  · cases h
    exact Nat.le_add_left _ _
  · exact hread 1 (by decide) h
  · exact hread 2 (by decide) h
  · exact hread 4 (by decide) h
  · cases h
    exact Nat.le_add_left _ _

/-- An instruction takes five bytes besides those that it pushes, at most. -/
theorem length_le_of_getOp {script pc : CScript} {opcode : UInt8} {vch : valtype}
    (h : getOp script = some (opcode, vch, pc)) :
    script.length ≤ 5 + vch.length + pc.length := by
  cases script with
  | nil => cases h
  | cons first rest =>
    rw [getOp] at h
    split at h
    · cases h
    · rename_i nSize pc' hsize
      have hle := length_le_of_pushSize hsize
      split at h
      · cases h
      · cases h
        rw [List.length_cons, List.length_take, List.length_drop]
        omega

theorem Pushes.length_le {script rest : CScript} {vchs : List valtype} {bound : ℕ}
    (h : Pushes script vchs rest) (hle : ∀ vch ∈ vchs, vch.length ≤ bound) :
    script.length ≤ vchs.length * (5 + bound) + rest.length := by
  induction h with
  | nil => exact Nat.le_add_left _ _
  | cons hget _ _ ih =>
    rw [List.forall_mem_cons] at hle
    have hop := length_le_of_getOp hget
    have hrest := ih hle.2
    rw [List.length_cons, Nat.succ_mul]
    omega

theorem pushes_pushAll {vchs : List valtype}
    (h : ∀ vch ∈ vchs, vch.length ≤ MAX_SCRIPT_ELEMENT_SIZE) (rest : CScript) :
    Pushes (pushAll vchs ++ rest) vchs rest := by
  induction vchs with
  | nil => exact .nil rest
  | cons vch vchs ih =>
    rw [List.forall_mem_cons] at h
    rw [pushAll, List.flatMap_cons, List.append_assoc]
    obtain ⟨opcode, hop, hget⟩ := getOp_pushData h.1 (pushAll vchs ++ rest)
    exact .cons hget hop (ih h.2)

/-- A script that only pushes. -/
theorem Pushes.isPushOnly {script : CScript} {vchs : List valtype} (h : Pushes script vchs []) :
    Bws.isPushOnly script = true := by
  generalize hrest : ([] : CScript) = rest at h
  induction h with
  | nil =>
    subst hrest
    rfl
  | cons hget hop _ ih =>
    rw [Bws.isPushOnly, parse_of_getOp hget, Parsed.isPushOnly,
      if_neg (UInt8.not_lt.mpr (UInt8.le_trans hop (by decide)))]
    exact ih hrest

/-! ## FindAndDelete -/

theorem suffix_of_pushSize {opcode : UInt8} {pc pc' : CScript} {nSize : ℕ}
    (h : pushSize opcode pc = some (nSize, pc')) : pc' <:+ pc := by
  have hread : ∀ n, readSize n pc = some (nSize, pc') → pc' <:+ pc := by
    intro n hn
    unfold readSize at hn
    split at hn
    · cases hn
    · cases hn
      exact List.drop_suffix n pc
  unfold pushSize at h
  split_ifs at h
  · cases h
    exact List.suffix_rfl
  · exact hread 1 h
  · exact hread 2 h
  · exact hread 4 h
  · cases h
    exact List.suffix_rfl

theorem suffix_of_getOp {script pc : CScript} {opcode : UInt8} {vch : valtype}
    (h : getOp script = some (opcode, vch, pc)) : pc <:+ script := by
  cases script with
  | nil => cases h
  | cons first rest =>
    rw [getOp] at h
    split at h
    · cases h
    · rename_i nSize pc' hsize
      split at h
      · cases h
      · cases h
        exact ((List.drop_suffix nSize pc').trans (suffix_of_pushSize hsize)).trans
          (List.suffix_cons _ rest)

/-- No copy of `b` starts where an instruction does. -/
inductive Clear (b : CScript) : CScript → Prop
  | nil : Clear b []
  | cons {script pc : CScript} {opcode : UInt8} {vch : valtype}
      (hget : getOp script = some (opcode, vch, pc)) (hne : ¬ b <+: script) (hrest : Clear b pc) :
      Clear b script

theorem eraseHere_of_not_start {b pc : CScript} (h : ¬ b <+: pc) (fuel : ℕ) :
    eraseHere b fuel pc = pc := by
  cases fuel with
  | zero => rfl
  | succ fuel => rw [eraseHere, if_neg h]

theorem findAndDelete_of_clear {b script : CScript} (hb : b ≠ []) (h : Clear b script) :
    findAndDelete b script = script := by
  have hall : ∀ {fuel : ℕ}, script.length < fuel → findAndDeleteFrom b fuel script = script := by
    induction h with
    | nil =>
      intro fuel hlt
      obtain ⟨n, rfl⟩ : ∃ n, fuel = n + 1 := ⟨fuel - 1, by omega⟩
      rfl
    | @cons script pc opcode vch hget hne _ ih =>
      intro fuel hlt
      obtain ⟨n, rfl⟩ : ∃ n, fuel = n + 1 := ⟨fuel - 1, by omega⟩
      have hshort := length_of_getOp hget
      obtain ⟨front, rfl⟩ := suffix_of_getOp hget
      rw [findAndDeleteFrom, eraseHere_of_not_start hne, hget]
      dsimp only
      rw [ih (by omega), List.length_append, Nat.add_sub_cancel, List.take_left]
  rw [findAndDelete, if_neg hb]
  exact hall (Nat.lt_succ_self _)

/-- A push starts only where an instruction pushes the same bytes. -/
theorem not_prefix_of_getOp {script pc : CScript} {opcode : UInt8} {vch vchSig : valtype}
    (hlen : vchSig.length ≤ MAX_SCRIPT_ELEMENT_SIZE)
    (hget : getOp script = some (opcode, vch, pc)) (hne : vch ≠ vchSig) :
    ¬ pushData vchSig <+: script := by
  rintro ⟨rest, rfl⟩
  obtain ⟨opcode', -, hget'⟩ := getOp_pushData hlen rest
  cases hget.symm.trans hget'
  exact hne rfl

theorem pushData_ne_nil (vch : valtype) : pushData vch ≠ [] := by
  unfold pushData
  dsimp only
  split_ifs <;> exact List.cons_ne_nil _ _

theorem Clear.pushes {script rest : CScript} {vchs : List valtype} {vchSig : valtype}
    (hlen : vchSig.length ≤ MAX_SCRIPT_ELEMENT_SIZE) (h : Pushes script vchs rest)
    (hne : ∀ vch ∈ vchs, vch ≠ vchSig) (hrest : Clear (pushData vchSig) rest) :
    Clear (pushData vchSig) script := by
  induction h with
  | nil => exact hrest
  | cons hget _ _ ih =>
    rw [List.forall_mem_cons] at hne
    exact .cons hget (not_prefix_of_getOp hlen hget hne.1) (ih hne.2 hrest)

/-! ## Steps -/

section

variable {C : Crypto} {c : ScriptContext} {st st' : ScriptState} {opcode : UInt8} {vch : valtype}
  {script pc rest : CScript}

theorem evalFrom_of_getOp (h : getOp script = some (opcode, vch, pc))
    (hstep : (step C c opcode vch pc st).result = some st') :
    (evalFrom C c (parse script) st).result = (evalFrom C c (parse pc) st').result := by
  rw [parse_of_getOp h, evalFrom, result_bind, hstep, Option.bind_some]

/-- The run goes on where the step has left it. -/
theorem evalFrom_of_withinLimits (h : getOp script = some (opcode, vch, pc)) {st₁ : ScriptState}
    (hstep : (step C c opcode vch pc st).result = withinLimits st₁)
    (hrun : (evalFrom C c (parse script) st).result = some st') :
    (evalFrom C c (parse pc) st₁).result = some st' := by
  rw [parse_of_getOp h, evalFrom, result_bind, hstep, withinLimits] at hrun
  split at hrun
  · cases hrun
  · exact hrun

theorem withinLimits_push (hsize : st.stack.length + st.altstack.length < 1000) :
    withinLimits { st with stack := vch :: st.stack } =
      some { st with stack := vch :: st.stack } := by
  rw [withinLimits, if_neg]
  dsimp only
  rw [List.length_cons]
  omega

theorem result_step_data (hop : opcode ≤ OP_PUSHDATA4)
    (hlen : vch.length ≤ MAX_SCRIPT_ELEMENT_SIZE) (hexec : st.fExec = true) :
    (step C c opcode vch pc st).result = withinLimits { st with stack := vch :: st.stack } := by
  have hle : opcode ≤ OP_16 := UInt8.le_trans hop (by decide)
  have hrefuse : ¬ refusesOp opcode vch st := by
    rintro (hbig | hcount | hdis)
    · exact Nat.not_lt.mpr hlen hbig
    · exact UInt8.not_lt.mpr hle hcount.1
    · have hall : ∀ o ∈ disabledOpcodes, ¬ o ≤ OP_PUSHDATA4 := by decide +kernel
      exact hall opcode hdis hop
  rw [step, if_neg hrefuse, countOp_of_le hle, execute, if_pos ⟨hexec, hop⟩, result_map,
    result_plain, Option.bind_some]

theorem step_data (hop : opcode ≤ OP_PUSHDATA4) (hlen : vch.length ≤ MAX_SCRIPT_ELEMENT_SIZE)
    (hexec : st.fExec = true) (hsize : st.stack.length + st.altstack.length < 1000) :
    (step C c opcode vch pc st).result = some { st with stack := vch :: st.stack } := by
  rw [result_step_data hop hlen hexec, withinLimits_push hsize]

/-- An instruction that is counted. -/
theorem step_op (hop : OP_16 < opcode) (hdis : opcode ∉ disabledOpcodes) (hexec : st.vfExec = [])
    (hcount : st.nOpCount < 201) : (step C c opcode [] pc st).result =
      (evalOp C c opcode pc true { st with nOpCount := st.nOpCount + 1 }).result.bind
        withinLimits := by
  have hcounted : countOp opcode st = { st with nOpCount := st.nOpCount + 1 } := if_pos hop
  have hrefuse : ¬ refusesOp opcode [] st := by
    rintro (hbig | ⟨-, hmany⟩ | hdis')
    · exact absurd hbig (Nat.not_lt_zero _)
    · rw [hcounted] at hmany
      exact absurd hmany (by dsimp only; omega)
    · exact hdis hdis'
  have hf : ScriptState.fExec { st with nOpCount := st.nOpCount + 1 } = true := by
    rw [ScriptState.fExec, hexec]
    rfl
  have hdata : ¬ opcode ≤ OP_PUSHDATA4 := fun hle ↦
    UInt8.not_lt.mpr (UInt8.le_trans hle (by decide)) hop
  rw [step, if_neg hrefuse, hcounted, execute, if_neg fun h ↦ hdata h.2, if_pos (.inl hf), hf,
    result_map]

/-- The numbers from -1 to 16, except for 0. -/
theorem result_step_number (hlo : OP_1NEGATE ≤ opcode) (hhi : opcode ≤ OP_16) (hne : opcode ≠ 0x50)
    (hexec : st.fExec = true) : (step C c opcode [] pc st).result =
      withinLimits { st with stack := numberOf opcode :: st.stack } := by
  have hrefuse : ¬ refusesOp opcode [] st := by
    rintro (hbig | hcount | hdis)
    · exact absurd hbig (Nat.not_lt_zero _)
    · exact UInt8.not_lt.mpr hhi hcount.1
    · have hall : ∀ o ∈ disabledOpcodes, ¬ o ≤ OP_16 := by decide +kernel
      exact hall opcode hdis hhi
  have hdata : ¬ opcode ≤ OP_PUSHDATA4 := fun hle ↦
    absurd (UInt8.le_trans hlo hle) (by decide)
  rw [step, if_neg hrefuse, countOp_of_le hhi, execute, if_neg fun h ↦ hdata h.2,
    if_pos (.inl hexec), evalOp_number hlo hhi, if_neg hne, result_map, result_plain,
    Option.bind_some]

theorem step_number (hlo : OP_1NEGATE ≤ opcode) (hhi : opcode ≤ OP_16) (hne : opcode ≠ 0x50)
    (hexec : st.fExec = true) (hsize : st.stack.length + st.altstack.length < 1000) :
    (step C c opcode [] pc st).result = some { st with stack := numberOf opcode :: st.stack } := by
  rw [result_step_number hlo hhi hne hexec, withinLimits_push hsize]

/-! ## Signatures -/

/-- The signature passes the check of `OP_CHECKSIG` for the key and the script code. -/
structure SignedBy (C : Crypto) (c : ScriptContext) (scriptCode : CScript) (vch vchSig : valtype) :
    Prop where
  encodedSig : checkSignatureEncoding vchSig c.flags
  encodedKey : checkPubKeyEncoding vch
  valid : checkSig C c scriptCode vchSig vch = true

theorem SignedBy.checkOne {scriptCode : CScript} {vch vchSig : valtype}
    (h : SignedBy C c scriptCode vch vchSig) :
    Bws.checkOne C c scriptCode vchSig vch = ⟨1, some true⟩ := by
  rw [Bws.checkOne, if_pos ⟨h.encodedSig, h.encodedKey⟩, h.valid]

theorem result_evalCheckSig {stack altstack : List valtype} {vfExec : List Bool} {n : ℕ}
    {code : CScript} {vchPubKey vchSig : valtype} (h : SignedBy C c code vchPubKey vchSig)
    (hdelete : findAndDelete (pushData vchSig) code = code) :
    (evalCheckSig C c false ⟨vchPubKey :: vchSig :: stack, altstack, vfExec, n, code⟩).result =
      some ⟨vchTrue :: stack, altstack, vfExec, n, code⟩ := by
  rw [evalCheckSig]
  dsimp only
  rw [hdelete, h.checkOne]
  rfl

/-- Signatures for some of the keys in their order are found, whatever the other keys are. -/
theorem result_multiSigLoop {code : CScript} {keys : List valtype}
    (hkeys : ∀ key ∈ keys, checkPubKeyEncoding key) : ∀ {signers sigs : List valtype},
      List.Forall₂ (SignedBy C c code) signers sigs → signers.Sublist keys →
        (multiSigLoop C c code keys sigs).result = some true := by
  induction keys with
  | nil =>
    intro signers sigs hsigned hsub
    rw [List.sublist_nil] at hsub
    subst hsub
    cases hsigned
    rfl
  | cons key keys ih =>
    rw [List.forall_mem_cons] at hkeys
    intro signers sigs hsigned hsub
    cases hsigned with
    | nil => rfl
    | @cons signer vchSig signers sigs hone hall =>
      have hlen := hall.length_eq
      have hcheck : checkOne C c code vchSig key = ⟨1, some (checkSig C c code vchSig key)⟩ :=
        if_pos ⟨hone.encodedSig, hkeys.1⟩
      rw [multiSigLoop, hcheck, Checked.result_bind, Option.bind_some]
      -- the key is the signer's, or the signers are all among the keys that are left
      cases hsub with
      | cons_cons _ hrest =>
        rw [hone.valid, if_pos rfl, if_neg (by have := hrest.length_le; omega)]
        exact ih hkeys.2 hall hrest
      | cons _ hrest =>
        have hle := hrest.length_le
        rw [List.length_cons] at hle
        cases checkSig C c code vchSig key with
        | true =>
          rw [if_pos rfl, if_neg (by omega)]
          exact ih hkeys.2 hall ((List.sublist_cons_self signer signers).trans hrest)
        | false =>
          rw [if_neg Bool.false_ne_true, if_neg (by rw [List.length_cons]; omega)]
          exact ih hkeys.2 (.cons hone hall) hrest

/-- Where the loop succeeds, each signature is for a key, and the keys are in their order. -/
theorem signers_of_multiSigLoop {code : CScript} {keys sigs : List valtype}
    (h : (multiSigLoop C c code keys sigs).result = some true) : ∃ signers : List valtype,
      signers.Sublist keys ∧ List.Forall₂ (SignedBy C c code) signers sigs := by
  induction keys generalizing sigs with
  | nil =>
    rcases sigs with - | ⟨vchSig, sigs⟩
    · exact ⟨[], .slnil, .nil⟩
    · cases h
  | cons key keys ih =>
    rcases sigs with - | ⟨vchSig, sigs⟩
    · exact ⟨[], List.nil_sublist _, .nil⟩
    rw [multiSigLoop, Checked.result_bind] at h
    obtain ⟨fOk, hone, h⟩ := Option.bind_eq_some_iff.mp h
    by_cases hfew : keys.length < (if fOk then sigs else vchSig :: sigs).length
    · rw [if_pos hfew] at h
      cases h
    rw [if_neg hfew] at h
    obtain ⟨signers, hsub, hsigned⟩ := ih h
    cases fOk with
    | true =>
      rw [checkOne] at hone
      split at hone
      next hencoded =>
        exact ⟨key :: signers, hsub.cons_cons key,
          .cons ⟨hencoded.1, hencoded.2, Option.some.inj hone⟩ hsigned⟩
      next =>
        rw [Checked.result_plain] at hone
        split at hone <;> cases hone
    | false => exact ⟨signers, hsub.cons key, hsigned⟩

theorem multiSigArgs_append {n nSigs : ℕ} {x y : valtype} {keys below : List valtype}
    (hx : (castToBigNum x nDefaultMaxNumSize).map CBigNum.getint = some (keys.length : ℤ))
    (hy : (castToBigNum y nDefaultMaxNumSize).map CBigNum.getint = some (nSigs : ℤ))
    (hkeys : keys.length ≤ 20) (hn : n + keys.length ≤ 201) (hle : nSigs ≤ keys.length) :
    multiSigArgs n (x :: (keys ++ y :: below)) =
      if below.length < nSigs + 1 then none
      else some ⟨keys, below.take nSigs, below.drop nSigs⟩ := by
  rw [multiSigArgs, hx]
  dsimp only
  rw [if_neg (by omega), Int.toNat_natCast, List.drop_left]
  dsimp only
  rw [hy]
  dsimp only
  rw [Int.toNat_natCast, List.take_left]
  refine if_congr ?_ rfl rfl
  omega

theorem multiSigArgs_eq {n : ℕ} {x y : valtype} {keys sigs below : List valtype}
    (hx : (castToBigNum x nDefaultMaxNumSize).map CBigNum.getint = some (keys.length : ℤ))
    (hy : (castToBigNum y nDefaultMaxNumSize).map CBigNum.getint = some (sigs.length : ℤ))
    (hkeys : keys.length ≤ 20) (hn : n + keys.length ≤ 201) (hsigs : sigs.length ≤ keys.length)
    (hbelow : below ≠ []) :
    multiSigArgs n (x :: (keys ++ y :: (sigs ++ below))) = some ⟨keys, sigs, below⟩ := by
  have hpos := List.length_pos_iff.mpr hbelow
  rw [multiSigArgs_append hx hy hkeys hn hsigs, if_neg, List.take_left, List.drop_left]
  rw [List.length_append]
  omega

theorem exists_signer {α β : Type} {R : α → β → Prop} {signers : List α} {sigs : List β}
    (h : List.Forall₂ R signers sigs) : ∀ b ∈ sigs, ∃ a, R a b := by
  induction h with
  | nil => exact fun _ hb ↦ absurd hb List.not_mem_nil
  | cons hab _ ih => exact List.forall_mem_cons.mpr ⟨⟨_, hab⟩, ih⟩

theorem foldl_findAndDelete {code : CScript} {sigs : List valtype}
    (h : ∀ vchSig ∈ sigs, findAndDelete (pushData vchSig) code = code) :
    sigs.foldl (fun script vchSig ↦ findAndDelete (pushData vchSig) script) code = code := by
  induction sigs with
  | nil => rfl
  | cons vchSig sigs ih =>
    rw [List.forall_mem_cons] at h
    rw [List.foldl_cons, h.1, ih h.2]

theorem result_evalCheckMultiSig {n : ℕ} {x y dummy : valtype}
    {altstack keys sigs signers stack : List valtype} {vfExec : List Bool} {code : CScript}
    (hx : (castToBigNum x nDefaultMaxNumSize).map CBigNum.getint = some (keys.length : ℤ))
    (hy : (castToBigNum y nDefaultMaxNumSize).map CBigNum.getint = some (sigs.length : ℤ))
    (hmany : keys.length ≤ 20) (hn : n + keys.length ≤ 201) (hdummy : dummy = [])
    (hkeys : ∀ key ∈ keys, checkPubKeyEncoding key)
    (hsigned : List.Forall₂ (SignedBy C c code) signers sigs) (hsub : signers.Sublist keys)
    (hdelete : ∀ vchSig ∈ sigs, findAndDelete (pushData vchSig) code = code) :
    (evalCheckMultiSig C c false
        ⟨x :: (keys ++ y :: (sigs ++ dummy :: stack)), altstack, vfExec, n, code⟩).result =
      some ⟨vchTrue :: stack, altstack, vfExec, n + keys.length, code⟩ := by
  have hle : sigs.length ≤ keys.length := by
    rw [← hsigned.length_eq]
    exact hsub.length_le
  subst hdummy
  rw [evalCheckMultiSig]
  dsimp only
  rw [multiSigArgs_eq hx hy hmany hn hle (List.cons_ne_nil _ _)]
  dsimp only
  rw [foldl_findAndDelete hdelete, result_map, result_multiSigLoop hkeys hsigned hsub,
    Option.bind_some, dropDummy, if_neg fun h ↦ h.2 rfl]
  rfl

/-- A success of `OP_CHECKMULTISIG` comes from signatures for some of the keys in their order. -/
theorem signers_of_evalCheckMultiSig {n nSigs : ℕ} {x y : valtype} {keys below : List valtype}
    {code : CScript} {st : ScriptState}
    (hx : (castToBigNum x nDefaultMaxNumSize).map CBigNum.getint = some (keys.length : ℤ))
    (hy : (castToBigNum y nDefaultMaxNumSize).map CBigNum.getint = some (nSigs : ℤ))
    (hmany : keys.length ≤ 20) (hn : n + keys.length ≤ 201) (hle : nSigs ≤ keys.length)
    (hdelete : ∀ signer vchSig scriptCode, SignedBy C c scriptCode signer vchSig →
      findAndDelete (pushData vchSig) code = code)
    (h : (evalCheckMultiSig C c false ⟨x :: (keys ++ y :: below), [], [], n, code⟩).result =
      some st)
    (htrue : ∃ vch ∈ st.stack.head?, castToBool vch) : ∃ signers : List valtype,
      signers.Sublist keys ∧ signers.length = nSigs ∧
        List.Forall₂ (SignedBy C c code) signers (below.take nSigs) := by
  rw [evalCheckMultiSig] at h
  dsimp only at h
  rw [multiSigArgs_append hx hy hmany hn hle] at h
  by_cases hfew : below.length < nSigs + 1
  · rw [if_pos hfew] at h
    cases h
  rw [if_neg hfew] at h
  obtain ⟨fSuccess, hloop, h⟩ := Option.bind_eq_some_iff.mp h
  obtain ⟨stack, hleave, rfl⟩ := Option.map_eq_some_iff.mp h
  have hsuccess : fSuccess = true := by
    rcases hdrop : below.drop nSigs with - | ⟨dummy, rest⟩
    · rw [hdrop] at hleave
      cases hleave
    · rw [hdrop, dropDummy] at hleave
      split_ifs at hleave
      cases hleave
      obtain ⟨vch, hvch, htrue⟩ := htrue
      cases hvch
      cases fSuccess
      · exact absurd htrue Bool.false_ne_true
      · rfl
  subst hsuccess
  obtain ⟨signers, hsub, hsigned⟩ := signers_of_multiSigLoop hloop
  rw [foldl_findAndDelete] at hsigned
  · refine ⟨signers, hsub, ?_, hsigned⟩
    rw [hsigned.length_eq, List.length_take]
    omega
  · rintro vchSig hmem
    obtain ⟨signer, hsigner⟩ := exists_signer hsigned vchSig hmem
    exact hdelete signer vchSig _ hsigner

/-! ## Instructions -/

section

variable {stack stack' : List valtype} {n n' : ℕ} {code : CScript}

/-- An instruction that is counted, in a script without branches. -/
theorem step_counted (hop : OP_16 < opcode) (hdis : opcode ∉ disabledOpcodes) (hcount : n < 201)
    (hsize : stack'.length ≤ 1000)
    (heval : (evalOp C c opcode pc true ⟨stack, [], [], n + 1, code⟩).result =
      some ⟨stack', [], [], n', code⟩) :
    (step C c opcode [] pc ⟨stack, [], [], n, code⟩).result = some ⟨stack', [], [], n', code⟩ := by
  rw [step_op hop hdis rfl hcount, heval, Option.bind_some, withinLimits, if_neg]
  exact not_lt.mpr hsize

theorem step_dup {x : valtype} (hcount : n < 201) (hsize : stack.length + 2 ≤ 1000) :
    (step C c OP_DUP [] pc ⟨x :: stack, [], [], n, code⟩).result =
      some ⟨x :: x :: stack, [], [], n + 1, code⟩ :=
  step_counted (by decide) (by decide) hcount hsize rfl

theorem step_hash160 {x : valtype} (hcount : n < 201) (hsize : stack.length + 1 ≤ 1000) :
    (step C c OP_HASH160 [] pc ⟨x :: stack, [], [], n, code⟩).result =
      some ⟨C.hash160 x :: stack, [], [], n + 1, code⟩ :=
  step_counted (by decide) (by decide) hcount hsize rfl

theorem step_equal {x : valtype} (hcount : n < 201) (hsize : stack.length + 1 ≤ 1000) :
    (step C c OP_EQUAL [] pc ⟨x :: x :: stack, [], [], n, code⟩).result =
      some ⟨vchTrue :: stack, [], [], n + 1, code⟩ := by
  refine step_counted (by decide) (by decide) hcount hsize ?_
  have heval : evalOp C c OP_EQUAL pc true ⟨x :: x :: stack, [], [], n + 1, code⟩ =
    .plain (some ⟨boolToVch (decide (x = x)) :: stack, [], [], n + 1, code⟩) := rfl
  rw [heval, decide_eq_true rfl]
  rfl

theorem step_equalverify {x : valtype} (hcount : n < 201) (hsize : stack.length ≤ 1000) :
    (step C c OP_EQUALVERIFY [] pc ⟨x :: x :: stack, [], [], n, code⟩).result =
      some ⟨stack, [], [], n + 1, code⟩ := by
  refine step_counted (by decide) (by decide) hcount hsize ?_
  have heval : evalOp C c OP_EQUALVERIFY pc true ⟨x :: x :: stack, [], [], n + 1, code⟩ =
    .plain ((if x = x then some stack else none).map fun stack ↦ ⟨stack, [], [], n + 1, code⟩) :=
    rfl
  rw [heval, if_pos rfl]
  rfl

theorem step_checkSig {vchPubKey vchSig : valtype} (h : SignedBy C c code vchPubKey vchSig)
    (hdelete : findAndDelete (pushData vchSig) code = code) (hcount : n < 201)
    (hsize : stack.length + 1 ≤ 1000) :
    (step C c OP_CHECKSIG [] pc ⟨vchPubKey :: vchSig :: stack, [], [], n, code⟩).result =
      some ⟨vchTrue :: stack, [], [], n + 1, code⟩ :=
  step_counted (by decide) (by decide) hcount hsize (result_evalCheckSig h hdelete)

end

/-! ## Runs -/

section

variable {n : ℕ} {code : CScript}

theorem evalFrom_data {stack : List valtype} (hget : getOp script = some (opcode, vch, pc))
    (hop : opcode ≤ OP_PUSHDATA4) (hlen : vch.length ≤ MAX_SCRIPT_ELEMENT_SIZE)
    (hsize : stack.length < 1000) :
    (evalFrom C c (parse script) ⟨stack, [], [], n, code⟩).result =
      (evalFrom C c (parse pc) ⟨vch :: stack, [], [], n, code⟩).result :=
  evalFrom_of_getOp hget (step_data hop hlen rfl hsize)

theorem evalFrom_number {stack : List valtype} (hget : getOp script = some (opcode, [], pc))
    (hlo : OP_1 ≤ opcode) (hhi : opcode ≤ OP_16) (hsize : stack.length < 1000) :
    (evalFrom C c (parse script) ⟨stack, [], [], n, code⟩).result =
      (evalFrom C c (parse pc) ⟨numberOf opcode :: stack, [], [], n, code⟩).result :=
  evalFrom_of_getOp hget (step_number (UInt8.le_trans (by decide) hlo) hhi
    (fun h ↦ absurd (h ▸ hlo) (by decide)) rfl hsize)

theorem evalFrom_pushes {vchs : List valtype} (h : Pushes script vchs rest) :
    ∀ {stack : List valtype}, (∀ vch ∈ vchs, vch.length ≤ MAX_SCRIPT_ELEMENT_SIZE) →
      vchs.length + stack.length ≤ 1000 →
        (evalFrom C c (parse script) ⟨stack, [], [], n, code⟩).result =
          (evalFrom C c (parse rest) ⟨vchs.reverse ++ stack, [], [], n, code⟩).result := by
  induction h with
  | nil => exact fun _ _ ↦ rfl
  | @cons script pc rest opcode vch vchs hget hop _ ih =>
    intro stack hlen hsize
    rw [List.forall_mem_cons] at hlen
    rw [List.length_cons] at hsize
    have hsize' : vchs.length + (vch :: stack).length ≤ 1000 := by
      rw [List.length_cons]
      omega
    rw [evalFrom_data hget hop hlen.1 (by omega), ih hlen.2 hsize', List.reverse_cons,
      List.append_assoc]
    rfl

end

/-- A run to the end of a script. -/
theorem evalScript_eq_some {stack : List valtype} (hlen : script.length ≤ 10000)
    (h : (evalFrom C c (parse script) (.init script stack)).result = some st)
    (hexec : st.vfExec = []) : (evalScript C c script stack).result = some st.stack := by
  rw [evalScript, if_neg (not_lt.mpr hlen), result_map, h, Option.bind_some, if_pos hexec]

theorem leavesTrue_of_result {x : Checked (List valtype)} {stack : List valtype}
    (h : x.result = some (vchTrue :: stack)) : leavesTrue x := ⟨_, h, vchTrue, rfl, rfl⟩

/-- A script that pushes leaves what it has pushed, the last on the top. -/
theorem evalScript_pushes {vchs : List valtype} (h : Pushes script vchs [])
    (hlen : ∀ vch ∈ vchs, vch.length ≤ MAX_SCRIPT_ELEMENT_SIZE) (hsize : vchs.length ≤ 1000)
    (hbytes : script.length ≤ 10000) :
    (evalScript C c script []).result = some vchs.reverse := by
  have hrun : (evalFrom C c (parse script) (.init script [])).result = _ :=
    evalFrom_pushes h hlen hsize
  have hend := evalScript_eq_some hbytes hrun rfl
  rw [hend]
  exact congrArg some (List.append_nil _)

end

end Bws
