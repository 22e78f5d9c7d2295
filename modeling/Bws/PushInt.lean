import Bws.BigNum
import Bws.ScriptRun

/-!
# Numbers in scripts

`CScript() << n` for a 64-bit number: one opcode for -1 and the numbers from 1 to 16, otherwise a
push of the bytes of the number.  Run as a script it leaves the shortest bytes for the number,
whatever the script goes on with, and no script starts with two different numbers
(`pushInt64_inj`).  So the height that a coinbase starts with tells the coinbases of different
heights apart.
-/

namespace Bws

open Checked

/-- `CBigNum(n)` for an `int64_t`, which is a `long`. -/
def CBigNum.ofInt64 (n : ℤ) : ℤ := if 0 ≤ n then uint64 n else setint64 n

theorem CBigNum.ofInt64_eq {n : ℤ} (h : InInt64 n) : ofInt64 n = n := by
  unfold ofInt64
  split
  · obtain ⟨hlo, hhi⟩ := h
    unfold uint64
    omega
  · exact setint64_eq h

/-- `n == -1 || (n >= 1 && n <= 16)` -/
def hasOpcode (n : ℤ) : Prop := n = -1 ∨ 1 ≤ n ∧ n ≤ 16

instance (n : ℤ) : Decidable (hasOpcode n) := inferInstanceAs (Decidable (_ ∨ _))

/-- `CScript::push_int64` on an empty script. -/
def pushInt64 (n : ℤ) : CScript :=
  if hasOpcode n then [UInt8.ofNat (n + 0x50).toNat]
  else pushData (CBigNum.getvch (CBigNum.ofInt64 n))

section

variable {n m : ℤ}

theorem length_getvch_of_inInt64 (h : InInt64 n) : (CBigNum.getvch n).length ≤ 9 := by
  obtain ⟨hlo, hhi⟩ := h
  exact CBigNum.length_getvch_le (by omega)

/-- The first instruction of a script that starts with a number. -/
theorem getOp_pushInt64 (h : InInt64 n) (rest : CScript) : ∃ opcode vch,
    getOp (pushInt64 n ++ rest) = some (opcode, vch, rest) ∧
      (hasOpcode n ∧ (opcode.toNat : ℤ) = n + 0x50 ∧ vch = [] ∨
        opcode ≤ OP_PUSHDATA4 ∧ vch = CBigNum.getvch n) := by
  rw [pushInt64, CBigNum.ofInt64_eq h]
  split
  · rename_i hop
    have hnat : (UInt8.ofNat (n + 0x50).toNat).toNat = (n + 0x50).toNat := by
      refine UInt8.toNat_ofNat_of_lt' ?_
      rcases hop with rfl | hop
      · decide
      · show _ < 256
        omega
    have hval : ((n + 0x50).toNat : ℤ) = n + 0x50 := by
      rcases hop with rfl | hop
      · decide
      · omega
    refine ⟨_, [], getOp_cons (pushSize_of_lt ?_ rest), .inl ⟨hop, by rw [hnat, hval], rfl⟩⟩
    rw [UInt8.lt_iff_toNat_lt, hnat]
    show 78 < _
    rcases hop with rfl | hop
    · decide
    · omega
  · have hlen := length_getvch_of_inInt64 h
    obtain ⟨opcode, hop, hget⟩ := getOp_pushData (hlen.trans (by decide)) rest
    exact ⟨opcode, _, hget, .inr ⟨hop, rfl⟩⟩

/-- No script starts with two numbers. -/
theorem pushInt64_inj (hn : InInt64 n) (hm : InInt64 m) {script : CScript}
    (h₁ : pushInt64 n <+: script) (h₂ : pushInt64 m <+: script) : n = m := by
  obtain ⟨rest, rfl⟩ := h₁
  obtain ⟨rest', heq⟩ := h₂
  obtain ⟨opcode, vch, hget, hcase⟩ := getOp_pushInt64 hn rest
  obtain ⟨opcode', vch', hget', hcase'⟩ := getOp_pushInt64 hm rest'
  rw [heq, hget] at hget'
  cases hget'
  have hsmall : ∀ {k : ℤ}, hasOpcode k → (opcode.toNat : ℤ) = k + 0x50 →
      ¬ opcode ≤ OP_PUSHDATA4 := by
    intro k hop hk hle
    have hnat : opcode.toNat ≤ 78 := UInt8.le_iff_toNat_le.1 hle
    rcases hop with rfl | hop <;> omega
  rcases hcase with ⟨hop, hval, -⟩ | ⟨hop, rfl⟩
  · rcases hcase' with ⟨-, hval', -⟩ | ⟨hop', -⟩
    · omega
    · exact absurd hop' (hsmall hop hval)
  · rcases hcase' with ⟨hop', hval', -⟩ | ⟨-, hvch⟩
    · exact absurd hop (hsmall hop' hval')
    · rw [← CBigNum.setvch_getvch n, hvch, CBigNum.setvch_getvch]

/-- A script that starts with a number leaves the bytes of the number, and goes on. -/
theorem evalFrom_pushInt64 (C : Crypto) (c : ScriptContext) (hn : InInt64 n) {st : ScriptState}
    (hexec : st.fExec = true) (hsize : st.stack.length + st.altstack.length < 1000)
    (rest : CScript) : (evalFrom C c (parse (pushInt64 n ++ rest)) st).result =
      (evalFrom C c (parse rest) { st with stack := CBigNum.getvch n :: st.stack }).result := by
  have hlen := length_getvch_of_inInt64 hn
  obtain ⟨opcode, vch, hget, ⟨hop, hval, rfl⟩ | ⟨hop, rfl⟩⟩ := getOp_pushInt64 hn rest
  · have hnumber : numberOf opcode = CBigNum.getvch n := by
      rw [numberOf, hval, add_sub_cancel_right]
    have hbounds : OP_1NEGATE ≤ opcode ∧ opcode ≤ OP_16 ∧ opcode ≠ 0x50 := by
      have hne : n ≠ 0 := by rcases hop with rfl | hop <;> omega
      refine ⟨UInt8.le_iff_toNat_le.2 ?_, UInt8.le_iff_toNat_le.2 ?_, ?_⟩
      · show 79 ≤ opcode.toNat
        rcases hop with rfl | hop <;> omega
      · show opcode.toNat ≤ 96
        rcases hop with rfl | hop <;> omega
      · rintro rfl
        exact hne (by simpa using hval.symm)
    rw [← hnumber]
    exact evalFrom_of_getOp hget (step_number hbounds.1 hbounds.2.1 hbounds.2.2 hexec hsize)
  · exact evalFrom_of_getOp hget (step_data hop (hlen.trans (by decide)) hexec hsize)

theorem length_pushInt64_le (hn : InInt64 n) : (pushInt64 n).length ≤ 14 := by
  obtain ⟨opcode, vch, hget, hcase⟩ := getOp_pushInt64 hn []
  rw [List.append_nil] at hget
  have hle := length_le_of_getOp hget
  have hlen := length_getvch_of_inInt64 hn
  rcases hcase with ⟨-, -, rfl⟩ | ⟨-, rfl⟩
  · rw [List.length_nil] at hle
    omega
  · rw [List.length_nil] at hle
    omega

/-- The script of a number leaves the bytes of the number. -/
theorem evalScript_pushInt64 (C : Crypto) (c : ScriptContext) (hn : InInt64 n)
    {stack : List valtype} (hsize : stack.length < 1000) :
    (evalScript C c (pushInt64 n) stack).result = some (CBigNum.getvch n :: stack) := by
  have hexec : (ScriptState.init (pushInt64 n) stack).fExec = true := rfl
  have hrun := evalFrom_pushInt64 C c hn hexec hsize []
  rw [List.append_nil] at hrun
  have hlen := length_pushInt64_le hn
  rw [evalScript, if_neg (by omega), result_map, hrun]
  rfl

end

/-- The script that the height rule asks for is the one of the number. -/
theorem scriptHeight_eq {nHeight : ℕ} (h : nHeight < 2 ^ 31) :
    scriptHeight nHeight = pushInt64 nHeight := by
  have hin : InInt64 nHeight := ⟨by omega, by omega⟩
  have hlen := length_getvch_of_inInt64 hin
  have hvch : getvch nHeight = CBigNum.getvch nHeight := by
    rw [getvch_eq_encode, CBigNum.getvch_eq_encode]
  rw [scriptHeight, pushInt64, CBigNum.ofInt64_eq hin, hvch]
  by_cases hop : 1 ≤ nHeight ∧ nHeight ≤ 16
  · rw [if_pos hop, if_pos (.inr ⟨by omega, by omega⟩)]
    rfl
  · have hnop : ¬ hasOpcode nHeight := by
      rintro (h | h) <;> omega
    have hone : OP_PUSHDATA1.toNat = 76 := rfl
    rw [if_neg hop, if_neg hnop, pushData, hone, if_pos (by omega)]
    rfl

/-- The first input of the coinbase of a block that is accepted starts with the height. -/
theorem scriptHeight_of_checkAccept {P : Params} {w : World} {s : NodeState} {block : CBlock}
    {pindexPrev : CBlockIndex} {hashProof : UInt256}
    (hprev : s.mapBlockIndex block.hashPrevBlock = some pindexPrev)
    (h : checkAccept P w s block = .ok hashProof) :
    ∃ coinbase txin, block.vtx[0]? = some coinbase ∧ coinbase.vin[0]? = some txin ∧
      scriptHeight (pindexPrev.nHeight + 1) <+: txin.scriptSig := by
  unfold checkAccept at h
  obtain ⟨-, h⟩ := bind_check_eq_ok.mp h
  obtain ⟨-, h⟩ := bind_check_eq_ok.mp h
  rw [hprev] at h
  split at h
  · cases h
  · cases h
  · cases h
  · rename_i pindexPrev' pindexBest coinbase hprev' hbest hcoinbase
    cases hprev'
    simp only [bind_eq_ok, rejectIf_eq_ok, not_not] at h
    obtain ⟨-, -, -, -, -, -, -, -, -, -, -, -, -, -, -, -, hashProof', -, -, -, -,
      ⟨txin, htxin, hheight⟩, -⟩ := h
    exact ⟨coinbase, txin, hcoinbase, htxin, hheight⟩

/-- **Numbers in scripts.**  For every 64-bit number the script that pushes it leaves its shortest
bytes, on its own and in front of any other script; scripts that start with different heights
differ, and so do the coinbases of blocks that `AcceptBlock` takes at different heights. -/
theorem pushInt64_correct (P : Params) (C : Crypto) (c : ScriptContext) :
    (∀ n, InInt64 n →
      (∀ stack : List valtype, stack.length < 1000 → ∃ vch,
        (evalScript C c (pushInt64 n) stack).result = some (vch :: stack) ∧
        CBigNum.setvch vch = n ∧
        ∀ vch', CBigNum.setvch vch' = n → vch' = vch ∨ vch.length < vch'.length) ∧
      ∀ (rest : CScript) (st : ScriptState), st.fExec = true →
        st.stack.length + st.altstack.length < 1000 → ∃ vch,
          (evalFrom C c (parse (pushInt64 n ++ rest)) st).result =
            (evalFrom C c (parse rest) { st with stack := vch :: st.stack }).result ∧
          CBigNum.setvch vch = n ∧
          ∀ vch', CBigNum.setvch vch' = n → vch' = vch ∨ vch.length < vch'.length) ∧
    (∀ h₁ h₂ : ℤ, 1 ≤ h₁ → h₁ < 2 ^ 31 → 1 ≤ h₂ → h₂ < 2 ^ 31 → h₁ ≠ h₂ → ∀ scriptSig : CScript,
      ¬ (pushInt64 h₁ <+: scriptSig ∧ pushInt64 h₂ <+: scriptSig)) ∧
    ∀ (w₁ w₂ : World) (s₁ s₂ : NodeState) (block₁ block₂ : CBlock) (hashProof₁ hashProof₂ : UInt256)
      (prev₁ prev₂ : CBlockIndex),
      s₁.mapBlockIndex block₁.hashPrevBlock = some prev₁ → prev₁.nHeight + 1 < 2 ^ 31 →
      s₂.mapBlockIndex block₂.hashPrevBlock = some prev₂ → prev₂.nHeight + 1 < 2 ^ 31 →
      checkAccept P w₁ s₁ block₁ = .ok hashProof₁ → checkAccept P w₂ s₂ block₂ = .ok hashProof₂ →
      prev₁.nHeight ≠ prev₂.nHeight → block₁.vtx[0]? ≠ block₂.vtx[0]? := by
  refine ⟨fun n hn ↦ ⟨fun stack hsize ↦ ?_, fun rest st hexec hsize ↦ ?_⟩, ?_, ?_⟩
  · exact ⟨_, evalScript_pushInt64 C c hn hsize, CBigNum.setvch_getvch n,
      fun _ ↦ CBigNum.eq_getvch_or_length_lt⟩
  · exact ⟨_, evalFrom_pushInt64 C c hn hexec hsize rest, CBigNum.setvch_getvch n,
      fun _ ↦ CBigNum.eq_getvch_or_length_lt⟩
  · rintro h₁ h₂ hlo₁ hhi₁ hlo₂ hhi₂ hne scriptSig ⟨hpre₁, hpre₂⟩
    exact hne (pushInt64_inj ⟨by omega, by omega⟩ ⟨by omega, by omega⟩ hpre₁ hpre₂)
  · intro w₁ w₂ s₁ s₂ block₁ block₂ _ _ prev₁ prev₂ hprev₁ hlt₁ hprev₂ hlt₂ hok₁ hok₂ hne heq
    obtain ⟨coinbase, txin, hcoinbase, htxin, hpre₁⟩ := scriptHeight_of_checkAccept hprev₁ hok₁
    obtain ⟨coinbase', txin', hcoinbase', htxin', hpre₂⟩ := scriptHeight_of_checkAccept hprev₂ hok₂
    rw [heq, hcoinbase'] at hcoinbase
    cases hcoinbase
    rw [htxin'] at htxin
    cases htxin
    rw [scriptHeight_eq hlt₁] at hpre₁
    rw [scriptHeight_eq hlt₂] at hpre₂
    have hval := pushInt64_inj ⟨by omega, by omega⟩ ⟨by omega, by omega⟩ hpre₁ hpre₂
    omega

namespace Sample

/-- The node after the block at height 1. -/
def pastOne : NodeState := Exec.final (acceptBlock params world (block 1 1 0 0 []) start)

/-- A block on top of it. -/
def nextBlock : CBlock :=
  block 2 (params.blockHash (block 1 1 0 0 []).toCBlockHeader) 0 0 []

end Sample

/-- The least number, the heights around the last one with an opcode, and two blocks. -/
theorem pushInt64_correct_sample :
    (∃ vch, (evalScript Sample.crypto Sample.redeemContext (pushInt64 (-2 ^ 63)) []).result =
      some [vch] ∧ CBigNum.setvch vch = -2 ^ 63) ∧
    ¬ (pushInt64 16 <+: [0x01, 0x11] ∧ pushInt64 17 <+: [0x01, 0x11]) ∧
    (Sample.block 1 1 0 0 []).vtx[0]? ≠ Sample.nextBlock.vtx[0]? := by
  obtain ⟨hpush, hheights, hblocks⟩ :=
    pushInt64_correct Sample.params Sample.crypto Sample.redeemContext
  obtain ⟨hashProof₁, hok₁⟩ := eq_ok_of_isOk (show (checkAccept Sample.params Sample.world
    Sample.start (Sample.block 1 1 0 0 [])).isOk by decide +kernel)
  obtain ⟨hashProof₂, hok₂⟩ := eq_ok_of_isOk (show (checkAccept Sample.params Sample.world
    Sample.pastOne Sample.nextBlock).isOk by decide +kernel)
  obtain ⟨prev₁, hprev₁, hheight₁⟩ := Option.map_eq_some_iff.1 (show (Sample.start.mapBlockIndex
    (Sample.block 1 1 0 0 []).hashPrevBlock).map (fun e ↦ e.nHeight) = some 0 by decide +kernel)
  obtain ⟨prev₂, hprev₂, hheight₂⟩ := Option.map_eq_some_iff.1 (show (Sample.pastOne.mapBlockIndex
    Sample.nextBlock.hashPrevBlock).map (fun e ↦ e.nHeight) = some 1 by decide +kernel)
  obtain ⟨vch, hrun, hvalue, -⟩ := (hpush (-2 ^ 63) ⟨le_rfl, by decide⟩).1 [] (by decide)
  refine ⟨⟨vch, hrun, hvalue⟩, hheights 16 17 (by decide) (by decide) (by decide) (by decide)
    (by decide) _, ?_⟩
  exact hblocks _ _ _ _ _ _ _ _ _ _ hprev₁ (by omega) hprev₂ (by omega) hok₁ hok₂ (by omega)

end Bws
