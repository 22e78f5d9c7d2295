import Bws.BigNum
import Bws.SigOps
import Bws.StackAccess

/-!
# The limits of a script

A script has at most as many rounds as bytes, and each of them looks only at what is there
(`evalScript_safe`).  While it runs, the two stacks hold at most 1000 elements, and none of more
than 520 bytes: the bytes that are pushed are counted, a number that an instruction makes of short
numbers is short, and a hash has a fixed size.  The first limit is checked after every instruction,
the second one only where bytes are pushed.
-/

namespace Bws

open Instr

/-! ## The size of the elements -/

section

variable {α : Type} {P : α → Prop}

theorem forall_mem_none : ∀ a ∈ (none : Option α), P a := fun _ h ↦ nomatch h

theorem forall_mem_some {b : α} (h : P b) : ∀ a ∈ some b, P a := by
  rintro a ⟨⟩
  exact h

theorem forall_mem_ite {p : Prop} [Decidable p] {x y : Option α} (hx : ∀ a ∈ x, P a)
    (hy : ∀ a ∈ y, P a) : ∀ a ∈ (if p then x else y), P a := by
  split
  · exact hx
  · exact hy

end

/-- Each element could have been pushed. -/
def SmallElements (stack : List valtype) : Prop :=
  ∀ vch ∈ stack, vch.length ≤ MAX_SCRIPT_ELEMENT_SIZE

@[simp] theorem smallElements_nil : SmallElements [] := fun _ h ↦ absurd h List.not_mem_nil

@[simp] theorem smallElements_cons {vch : valtype} {stack : List valtype} :
    SmallElements (vch :: stack) ↔ vch.length ≤ MAX_SCRIPT_ELEMENT_SIZE ∧ SmallElements stack :=
  List.forall_mem_cons

theorem SmallElements.of_subset {stack stack' : List valtype} (h : SmallElements stack)
    (hsub : stack' ⊆ stack) : SmallElements stack' := fun vch hvch ↦ h vch (hsub hvch)

/-- The arrays that the hashes are written to have these sizes. -/
structure Crypto.Sized (C : Crypto) : Prop where
  ripemd160 : ∀ vch, (C.ripemd160 vch).length = 20
  sha1 : ∀ vch, (C.sha1 vch).length = 20
  sha256 : ∀ vch, (C.sha256 vch).length = 32
  hash160 : ∀ vch, (C.hash160 vch).length = 20
  hash256 : ∀ vch, (C.hash256 vch).length = 32

/-! ### Numbers -/

theorem natAbs_castToBigNum {vch : valtype} {bn : ℤ}
    (h : castToBigNum vch nDefaultMaxNumSize = some bn) : bn.natAbs < 2 ^ 31 := by
  rw [castToBigNum] at h
  split_ifs at h with hlen
  cases h
  refine (CBigNum.natAbs_setvch_lt vch).trans_le (Nat.pow_le_pow_right two_pos ?_)
  rw [nDefaultMaxNumSize] at hlen
  omega

theorem natAbs_bool_le (p : Prop) [Decidable p] : (if p then (1 : ℤ) else 0).natAbs ≤ 1 := by
  split <;> decide

theorem natAbs_unaryOp (opcode : UInt8) (bn : ℤ) :
    ∀ r ∈ unaryOp opcode bn, r.natAbs ≤ bn.natAbs + 1 := by
  have hbool : ∀ (p : Prop) [Decidable p], ∀ r ∈ some (if p then (1 : ℤ) else 0),
      r.natAbs ≤ bn.natAbs + 1 := fun p _ ↦
    forall_mem_some ((natAbs_bool_le p).trans (Nat.le_add_left 1 _))
  exact forall_mem_ite (forall_mem_some (by omega)) <|
    forall_mem_ite (forall_mem_some (by omega)) <|
    forall_mem_ite (forall_mem_some (by omega)) <|
    forall_mem_ite (forall_mem_some (by split <;> omega)) <|
    forall_mem_ite (hbool _) <| forall_mem_ite (hbool _) forall_mem_none

theorem natAbs_binaryOp (opcode : UInt8) (bn₁ bn₂ : ℤ) :
    ∀ r ∈ binaryOp opcode bn₁ bn₂, r.natAbs ≤ bn₁.natAbs + bn₂.natAbs + 1 := by
  have hbool : ∀ (p : Prop) [Decidable p], ∀ r ∈ some (if p then (1 : ℤ) else 0),
      r.natAbs ≤ bn₁.natAbs + bn₂.natAbs + 1 := fun p _ ↦
    forall_mem_some ((natAbs_bool_le p).trans (Nat.le_add_left 1 _))
  exact forall_mem_ite (forall_mem_some (by omega)) <|
    forall_mem_ite (forall_mem_some (by omega)) <|
    forall_mem_ite (hbool _) <| forall_mem_ite (hbool _) <| forall_mem_ite (hbool _) <|
    forall_mem_ite (hbool _) <| forall_mem_ite (hbool _) <| forall_mem_ite (hbool _) <|
    forall_mem_ite (hbool _) <| forall_mem_ite (hbool _) <|
    forall_mem_ite (forall_mem_some (by split <;> omega)) <|
    forall_mem_ite (forall_mem_some (by split <;> omega)) forall_mem_none

/-- Five bytes are enough for whatever an instruction computes. -/
theorem length_getvch_small {bn : ℤ} (h : bn.natAbs < 2 ^ 39) :
    (CBigNum.getvch bn).length ≤ MAX_SCRIPT_ELEMENT_SIZE :=
  (CBigNum.length_getvch_le (k := 5) h).trans (by decide)

theorem length_boolToVch (f : Bool) : (boolToVch f).length ≤ MAX_SCRIPT_ELEMENT_SIZE := by
  cases f <;> decide

theorem length_hashOp {C : Crypto} (hC : C.Sized) {opcode : UInt8} {vch vchHash : valtype}
    (h : hashOp C opcode vch = some vchHash) : vchHash.length ≤ MAX_SCRIPT_ELEMENT_SIZE := by
  have hlen : vchHash.length = 20 ∨ vchHash.length = 32 := by
    unfold hashOp at h
    split_ifs at h <;> cases h
    · exact .inl (hC.ripemd160 vch)
    · exact .inl (hC.sha1 vch)
    · exact .inr (hC.sha256 vch)
    · exact .inl (hC.hash160 vch)
    · exact .inr (hC.hash256 vch)
  rw [MAX_SCRIPT_ELEMENT_SIZE]
  omega

/-! ### The instructions -/

section

variable {C : Crypto} {c : ScriptContext} {opcode : UInt8} {stack : List valtype}

theorem smallElements_evalStackOp (hsize : stack.length ≤ 1000) (hsmall : SmallElements stack) :
    ∀ stack' ∈ evalStackOp opcode stack, SmallElements stack' := by
  have hnumber : ∀ n : ℕ, n ≤ 1000 → (CBigNum.getvch n).length ≤ MAX_SCRIPT_ELEMENT_SIZE :=
    fun n hn ↦ length_getvch_small (by omega)
  refine forall_mem_ite ?_ <| forall_mem_ite ?_ <| forall_mem_ite ?_ <| forall_mem_ite ?_ <|
    forall_mem_ite ?_ <| forall_mem_ite ?_ <| forall_mem_ite ?_ <| forall_mem_ite ?_ <|
    forall_mem_ite ?_ <| forall_mem_ite ?_ <| forall_mem_ite ?_ <| forall_mem_ite ?_ <|
    forall_mem_ite ?_ <| forall_mem_ite ?_ <| forall_mem_ite ?_ <| forall_mem_ite ?_ <|
    forall_mem_ite ?_ forall_mem_none
  · rcases stack with - | ⟨x₂, - | ⟨x₁, stack⟩⟩ <;> simp_all
  · rcases stack with - | ⟨x₂, - | ⟨x₁, stack⟩⟩ <;> simp_all
  · rcases stack with - | ⟨x₃, - | ⟨x₂, - | ⟨x₁, stack⟩⟩⟩ <;> simp_all
  · rcases stack with - | ⟨x₄, - | ⟨x₃, - | ⟨x₂, - | ⟨x₁, stack⟩⟩⟩⟩ <;> simp_all
  · rcases stack with - | ⟨x₆, - | ⟨x₅, - | ⟨x₄, - | ⟨x₃, - | ⟨x₂, - | ⟨x₁, stack⟩⟩⟩⟩⟩⟩ <;> simp_all
  · rcases stack with - | ⟨x₄, - | ⟨x₃, - | ⟨x₂, - | ⟨x₁, stack⟩⟩⟩⟩ <;> simp_all
  · rcases stack with - | ⟨x, stack⟩
    · exact forall_mem_none
    · refine forall_mem_some ?_
      split <;> simp_all
  · exact forall_mem_some (smallElements_cons.2 ⟨hnumber _ hsize, hsmall⟩)
  · rcases stack with - | ⟨x, stack⟩ <;> simp_all
  · rcases stack with - | ⟨x, stack⟩ <;> simp_all
  · rcases stack with - | ⟨x₂, - | ⟨x₁, stack⟩⟩ <;> simp_all
  · rcases stack with - | ⟨x₂, - | ⟨x₁, stack⟩⟩ <;> simp_all
  · rcases stack with - | ⟨x, - | ⟨y, stack⟩⟩
    · exact forall_mem_none
    · exact forall_mem_none
    dsimp only
    rcases (castToBigNum x nDefaultMaxNumSize).map CBigNum.getint with - | n
    · exact forall_mem_none
    refine forall_mem_ite forall_mem_none ?_
    rcases hvch : (y :: stack)[n.toNat]? with - | vch
    · exact forall_mem_none
    have hrest := (smallElements_cons.1 hsmall).2
    refine forall_mem_some (smallElements_cons.2 ⟨hrest vch (List.mem_of_getElem? hvch), ?_⟩)
    split
    · exact hrest.of_subset (List.eraseIdx_subset)
    · exact hrest
  · rcases stack with - | ⟨x₃, - | ⟨x₂, - | ⟨x₁, stack⟩⟩⟩ <;> simp_all
  · rcases stack with - | ⟨x₂, - | ⟨x₁, stack⟩⟩ <;> simp_all
  · rcases stack with - | ⟨x₂, - | ⟨x₁, stack⟩⟩ <;> simp_all
  · rcases stack with - | ⟨x, stack⟩
    · exact forall_mem_none
    · have hx : x.length ≤ 520 := hsmall x List.mem_cons_self
      exact forall_mem_some (smallElements_cons.2 ⟨hnumber _ (by omega), hsmall⟩)

theorem smallElements_evalNumeric (hsmall : SmallElements stack) :
    ∀ stack' ∈ evalNumeric opcode stack, SmallElements stack' := by
  refine forall_mem_ite ?_ <| forall_mem_ite ?_ <| forall_mem_ite ?_ forall_mem_none
  · rcases stack with - | ⟨x, stack⟩
    · exact forall_mem_none
    rintro stack' h
    obtain ⟨bn, hbn, h⟩ := Option.bind_eq_some_iff.1 h
    obtain ⟨r, hr, h⟩ := Option.bind_eq_some_iff.1 h
    have hle := natAbs_unaryOp opcode bn r hr
    have hlt := natAbs_castToBigNum hbn
    cases h
    exact smallElements_cons.2 ⟨length_getvch_small (by omega), (smallElements_cons.1 hsmall).2⟩
  · rcases stack with - | ⟨x₂, - | ⟨x₁, stack⟩⟩
    · exact forall_mem_none
    · exact forall_mem_none
    rintro stack' h
    obtain ⟨bn₁, hbn₁, h⟩ := Option.bind_eq_some_iff.1 h
    obtain ⟨bn₂, hbn₂, h⟩ := Option.bind_eq_some_iff.1 h
    obtain ⟨r, hr, h⟩ := Option.bind_eq_some_iff.1 h
    have hle := natAbs_binaryOp opcode bn₁ bn₂ r hr
    have hlt₁ := natAbs_castToBigNum hbn₁
    have hlt₂ := natAbs_castToBigNum hbn₂
    have hrest := (smallElements_cons.1 (smallElements_cons.1 hsmall).2).2
    refine forall_mem_ite (forall_mem_ite (forall_mem_some hrest) forall_mem_none)
      (forall_mem_some (smallElements_cons.2 ⟨length_getvch_small ?_, hrest⟩)) stack' h
    omega
  · rcases stack with - | ⟨x₃, - | ⟨x₂, - | ⟨x₁, stack⟩⟩⟩
    · exact forall_mem_none
    · exact forall_mem_none
    · exact forall_mem_none
    rintro stack' h
    obtain ⟨bn₁, -, h⟩ := Option.bind_eq_some_iff.1 h
    obtain ⟨bn₂, -, h⟩ := Option.bind_eq_some_iff.1 h
    obtain ⟨bn₃, -, h⟩ := Option.bind_eq_some_iff.1 h
    cases h
    simp only [smallElements_cons] at hsmall ⊢
    exact ⟨length_boolToVch _, hsmall.2.2.2⟩

theorem smallElements_evalOnStack (hC : C.Sized) (hsize : stack.length ≤ 1000)
    (hsmall : SmallElements stack) :
    ∀ stack' ∈ evalOnStack C opcode stack, SmallElements stack' := by
  refine forall_mem_ite ?_ <| forall_mem_ite (forall_mem_some hsmall) <| forall_mem_ite ?_ <|
    forall_mem_ite ?_ <| forall_mem_ite ?_ <|
    forall_mem_ite (smallElements_evalNumeric hsmall) <| forall_mem_ite ?_ <|
    smallElements_evalStackOp hsize hsmall
  · refine forall_mem_some (smallElements_cons.2 ⟨length_getvch_small ?_, hsmall⟩)
    have hlt := opcode.toNat_lt
    omega
  · rcases stack with - | ⟨x, stack⟩
    · exact forall_mem_none
    · exact forall_mem_ite (forall_mem_some (smallElements_cons.1 hsmall).2) forall_mem_none
  · rcases stack with - | ⟨x₂, - | ⟨x₁, stack⟩⟩
    · exact forall_mem_none
    · exact forall_mem_none
    · simp only [smallElements_cons] at hsmall
      exact forall_mem_some (smallElements_cons.2 ⟨length_boolToVch _, hsmall.2.2⟩)
  · rcases stack with - | ⟨x₂, - | ⟨x₁, stack⟩⟩
    · exact forall_mem_none
    · exact forall_mem_none
    · simp only [smallElements_cons] at hsmall
      exact forall_mem_ite (forall_mem_some hsmall.2.2) forall_mem_none
  · rcases stack with - | ⟨x, stack⟩
    · exact forall_mem_none
    rintro stack' h
    obtain ⟨vchHash, hhash, rfl⟩ := Option.map_eq_some_iff.1 h
    exact smallElements_cons.2 ⟨length_hashOp hC hhash, (smallElements_cons.1 hsmall).2⟩

theorem smallElements_leaveResult {fVerify fSuccess : Bool} (hsmall : SmallElements stack) :
    ∀ stack' ∈ leaveResult fVerify fSuccess stack, SmallElements stack' :=
  forall_mem_ite (forall_mem_ite (forall_mem_some hsmall) forall_mem_none)
    (forall_mem_some (smallElements_cons.2 ⟨length_boolToVch _, hsmall⟩))

/-! ### The state -/

/-- The elements of both stacks could have been pushed. -/
def ScriptState.Small (st : ScriptState) : Prop :=
  SmallElements st.stack ∧ SmallElements st.altstack

variable {st : ScriptState} {fExec fVerify : Bool} {pc : CScript}

theorem small_evalPlain (hC : C.Sized) (hsize : st.stack.length ≤ 1000) (hsmall : st.Small) :
    ∀ st' ∈ evalPlain C opcode st, st'.Small := by
  obtain ⟨stack, altstack, vfExec, n, codehash⟩ := st
  obtain ⟨hstack, halt⟩ := hsmall
  refine forall_mem_ite ?_ <| forall_mem_ite ?_ ?_
  · rcases stack with - | ⟨x, stack⟩
    · exact forall_mem_none
    · obtain ⟨hx, hstack⟩ := smallElements_cons.1 hstack
      exact forall_mem_some ⟨hstack, smallElements_cons.2 ⟨hx, halt⟩⟩
  · rcases altstack with - | ⟨x, altstack⟩
    · exact forall_mem_none
    · obtain ⟨hx, halt⟩ := smallElements_cons.1 halt
      exact forall_mem_some ⟨smallElements_cons.2 ⟨hx, hstack⟩, halt⟩
  · rintro st' h
    obtain ⟨stack', hstack', rfl⟩ := Option.map_eq_some_iff.1 h
    exact ⟨smallElements_evalOnStack hC hsize hstack stack' hstack', halt⟩

theorem small_evalControl (hsmall : st.Small) :
    ∀ st' ∈ evalControl opcode fExec st, st'.Small := by
  obtain ⟨stack, altstack, vfExec, n, codehash⟩ := st
  obtain ⟨hstack, halt⟩ := hsmall
  refine forall_mem_ite (forall_mem_ite ?_ (forall_mem_some ⟨hstack, halt⟩)) <| forall_mem_ite ?_ ?_
  · rcases stack with - | ⟨x, stack⟩
    · exact forall_mem_none
    · exact forall_mem_some ⟨(smallElements_cons.1 hstack).2, halt⟩
  · rcases vfExec with - | ⟨f, vfExec⟩
    · exact forall_mem_none
    · exact forall_mem_some ⟨hstack, halt⟩
  · rcases vfExec with - | ⟨f, vfExec⟩
    · exact forall_mem_none
    · exact forall_mem_some ⟨hstack, halt⟩

theorem small_evalCheckSig (hsmall : st.Small) :
    ∀ st' ∈ (evalCheckSig C c fVerify st).result, st'.Small := by
  obtain ⟨stack, altstack, vfExec, n, codehash⟩ := st
  obtain ⟨hstack, halt⟩ := hsmall
  rcases stack with - | ⟨vchPubKey, - | ⟨vchSig, stack⟩⟩
  · exact forall_mem_none
  · exact forall_mem_none
  · rintro st' h
    obtain ⟨fSuccess, -, h⟩ := Option.bind_eq_some_iff.1 h
    obtain ⟨stack', hstack', rfl⟩ := Option.map_eq_some_iff.1 h
    simp only [smallElements_cons] at hstack
    exact ⟨smallElements_leaveResult hstack.2.2 stack' hstack', halt⟩

theorem small_evalCheckMultiSig (hsmall : st.Small) :
    ∀ st' ∈ (evalCheckMultiSig C c fVerify st).result, st'.Small := by
  rintro st' h
  rw [evalCheckMultiSig] at h
  rcases hargs : multiSigArgs st.nOpCount st.stack with - | args
  · rw [hargs] at h
    cases h
  rw [hargs] at h
  obtain ⟨fSuccess, -, h⟩ := Option.bind_eq_some_iff.1 h
  obtain ⟨stack', hstack', rfl⟩ := Option.map_eq_some_iff.1 h
  obtain ⟨x, y, dummy, below, hstack, hdummy⟩ := stack_of_multiSigArgs hargs
  have hbelow : SmallElements below := by
    refine hsmall.1.of_subset fun vch hvch ↦ ?_
    rw [hstack, hdummy]
    simp [hvch]
  rw [hdummy] at hstack'
  exact ⟨forall_mem_ite forall_mem_none (smallElements_leaveResult hbelow) stack' hstack', hsmall.2⟩

theorem small_evalOp (hC : C.Sized) (hsize : st.stack.length ≤ 1000) (hsmall : st.Small) :
    ∀ st' ∈ (evalOp C c opcode pc fExec st).result, st'.Small := by
  rw [evalOp]
  simp only [apply_ite Checked.result, Checked.result_plain]
  exact forall_mem_ite (small_evalControl hsmall) <|
    forall_mem_ite (forall_mem_ite (forall_mem_some hsmall) forall_mem_none) <|
    forall_mem_ite (forall_mem_ite forall_mem_none (forall_mem_some hsmall)) <|
    forall_mem_ite (forall_mem_some hsmall) <| forall_mem_ite (small_evalCheckSig hsmall) <|
    forall_mem_ite (small_evalCheckMultiSig hsmall) (small_evalPlain hC hsize hsmall)

/-- What holds between the instructions of a script. -/
structure ScriptState.Bounded (st : ScriptState) : Prop where
  length : st.stack.length + st.altstack.length ≤ 1000
  small : st.Small

/-- One round of the loop keeps the limits. -/
theorem ScriptState.Bounded.step (hC : C.Sized) {vch : valtype} (hst : st.Bounded) :
    ∀ st' ∈ (step C c opcode vch pc st).result, st'.Bounded := by
  rintro st' h
  rw [Bws.step] at h
  split at h
  next => cases h
  next hpush =>
    obtain ⟨st₁, h₁, h⟩ := Option.bind_eq_some_iff.1 h
    have hcount : (countOp opcode st).stack = st.stack ∧
        (countOp opcode st).altstack = st.altstack := by
      rw [countOp]
      split <;> exact ⟨rfl, rfl⟩
    have hsmall : (countOp opcode st).Small := by
      rw [Small, hcount.1, hcount.2]
      exact hst.small
    have hsize : (countOp opcode st).stack.length ≤ 1000 := by
      rw [hcount.1]
      exact (Nat.le_add_right _ _).trans hst.length
    have hvch : vch.length ≤ MAX_SCRIPT_ELEMENT_SIZE := not_lt.1 fun hlong ↦ hpush (.inl hlong)
    have hsmall₁ : st₁.Small := by
      rw [execute] at h₁
      simp only [apply_ite Checked.result, Checked.result_plain] at h₁
      exact forall_mem_ite
        (forall_mem_some ⟨smallElements_cons.2 ⟨hvch, hsmall.1⟩, hsmall.2⟩)
        (forall_mem_ite (small_evalOp hC hsize hsmall) (forall_mem_some hsmall)) st₁ h₁
    rw [withinLimits] at h
    split_ifs at h with hmany
    cases h
    exact ⟨not_lt.1 hmany, hsmall₁⟩

/-- And so does the whole loop. -/
theorem ScriptState.Bounded.evalFrom (hC : C.Sized) {parsed : Parsed} (hst : st.Bounded) :
    ∀ st' ∈ (evalFrom C c parsed st).result, st'.Bounded := by
  induction parsed generalizing st with
  | done => exact forall_mem_some hst
  | bad => exact forall_mem_none
  | op opcode vch pc next ih =>
    rintro st' h
    rw [Bws.evalFrom, Checked.result_bind] at h
    obtain ⟨st₁, h₁, h⟩ := Option.bind_eq_some_iff.1 h
    exact ih (hst.step hC st₁ h₁) st' h

theorem bounded_evalScript (hC : C.Sized) {script : CScript} {stack' : List valtype}
    (h : (evalScript C c script []).result = some stack') :
    stack'.length ≤ 1000 ∧ SmallElements stack' := by
  rw [evalScript] at h
  split at h
  · cases h
  · obtain ⟨st', hst', h⟩ := Option.bind_eq_some_iff.1 h
    split_ifs at h
    cases h
    have hinit : (ScriptState.init script []).Bounded :=
      ⟨Nat.zero_le _, smallElements_nil, smallElements_nil⟩
    have hbounded := hinit.evalFrom hC st' hst'
    exact ⟨(Nat.le_add_right _ _).trans hbounded.length, hbounded.small.1⟩

end

/-! ## The rounds -/

/-- A round keeps the limits, and returns `false` at once where it looks at a position that is not
there or at a number that is too long. -/
structure ScriptRound.Safe (round : ScriptRound) : Prop where
  left : ∀ st, round.left = .ok st → st.Bounded
  looks : ∀ look ∈ round.looks, look.Fits (maxNumSize round.opcode) ∨
    round.looks.getLast? = some look ∧ round.left = .error .returnFalse

section

variable {C : Crypto} {c : ScriptContext}

/-- Each round takes at least one byte from the script. -/
theorem length_runFrom (script : CScript) (st : ScriptState) :
    (runFrom C c (parse script) st).1.length ≤ script.length := by
  induction hn : script.length using Nat.strong_induction_on generalizing script st with
  | _ n ih =>
    by_cases hnil : script = []
    · subst hnil
      exact Nat.zero_le n
    rcases hget : getOp script with - | ⟨opcode, vch, pc⟩
    · rw [parse_of_none hnil hget]
      exact Nat.zero_le n
    · have hlt := length_of_getOp hget
      rw [parse_of_getOp hget, runFrom]
      rcases ((runRound C c opcode vch pc).run st).2.1 with stop | -
      · exact (Nat.zero_le pc.length).trans_lt (hn ▸ hlt)
      · exact (ih pc.length (hn ▸ hlt) pc _ rfl).trans_lt (hn ▸ hlt)

theorem safe_runFrom (hC : C.Sized) (parsed : Parsed) (st : ScriptState) (hst : st.Bounded) :
    ∀ round ∈ (runFrom C c parsed st).1, round.Safe ∧
      (round.left = .error .returnFalse → (runFrom C c parsed st).2.1 = .error .returnFalse) := by
  induction parsed generalizing st with
  | done => exact fun _ h ↦ absurd h List.not_mem_nil
  | bad => exact fun _ h ↦ absurd h List.not_mem_nil
  | op opcode vch pc next ih =>
    have hround := leaves_runRound st C c opcode vch pc
    have hhonest := ((runRound C c opcode vch pc).honest st)
    rw [Leaves] at hround
    rw [runFrom]
    rcases hstep : (step C c opcode vch pc st).result with - | st'
    · rw [hstep, leaves_none, outcome_eq_error] at hround
      rw [hround] at hhonest ⊢
      rintro round h
      obtain rfl := List.mem_singleton.1 h
      refine ⟨⟨fun _ h ↦ (by cases h), fun look hlook ↦ ?_⟩, fun _ ↦ rfl⟩
      exact (hhonest look hlook).imp_right fun hlast ↦ ⟨hlast.1, rfl⟩
    · rw [hstep, leaves_some, outcome_eq_ok] at hround
      rw [hround] at hhonest ⊢
      have hst' := hst.step hC st' hstep
      rintro round h
      rcases List.mem_cons.1 h with rfl | h
      · refine ⟨⟨?_, fun look hlook ↦ .inl ?_⟩, fun h ↦ (by cases h)⟩
        · rintro _ ⟨⟩
          exact hst'
        · refine (hhonest look hlook).resolve_right ?_
          rintro ⟨-, stop, hstop⟩
          cases hstop
      · exact ih _ hst' round h

end

/-- A script that is started with few short elements ends after at most as many rounds as it has
bytes, in the way that the interpreter says; every round leaves few short elements, and returns
`false` where it looks at a position that is not there or at a number that is too long. -/
theorem evalScript_safe {C : Crypto} (hC : C.Sized) (c : ScriptContext) (script : CScript)
    {stack : List valtype} (hsize : stack.length ≤ 1000) (hsmall : SmallElements stack) :
    outcome (runScript C c script stack).2 = leaves (evalScript C c script stack).result ∧
    (runScript C c script stack).1.length ≤ script.length ∧
    ∀ round ∈ (runScript C c script stack).1, round.Safe ∧
      (round.left = .error .returnFalse →
        (runScript C c script stack).2.1 = .error .returnFalse) := by
  refine ⟨outcome_runScript C c script stack, ?_⟩
  rw [runScript]
  split
  · exact ⟨Nat.zero_le _, fun _ h ↦ absurd h List.not_mem_nil⟩
  · refine ⟨length_runFrom script _, fun round hround ↦ ?_⟩
    obtain ⟨hsafe, hfalse⟩ := safe_runFrom hC (parse script) (.init script stack)
      ⟨hsize, hsmall, smallElements_nil⟩ round hround
    exact ⟨hsafe, fun h ↦ by dsimp only; rw [hfalse h]⟩

namespace Sample

theorem crypto_sized : crypto.Sized :=
  ⟨fun _ ↦ rfl, fun _ ↦ rfl, fun _ ↦ rfl, fun _ ↦ rfl, fun _ ↦ rfl⟩

/-- `1 2 0 OP_PICK 2 OP_ROLL`, which fails at its last instruction. -/
def pickRoll : CScript := [OP_1, OP_1 + 1, 0, OP_PICK, OP_1 + 1, OP_ROLL, OP_1 + 4, OP_ROLL]

end Sample

theorem evalScript_safe_sample :
    (runScript Sample.crypto Sample.redeemContext Sample.pickRoll []).2.1 = .error .returnFalse ∧
    (runScript Sample.crypto Sample.redeemContext Sample.pickRoll []).1.map ScriptRound.looks =
      [[], [], [], [.at 1 3, .operand [], .at 1 3, .at 1 2], [],
        [.at 1 4, .operand [2], .at 1 4, .at 3 3, .at 3 3], [], [.at 1 4, .operand [5], .at 1 4]] ∧
    ∀ round ∈ (runScript Sample.crypto Sample.redeemContext Sample.pickRoll []).1, round.Safe := by
  have hsize : ([] : List valtype).length ≤ 1000 := Nat.zero_le _
  obtain ⟨hresult, -, hsafe⟩ := evalScript_safe Sample.crypto_sized Sample.redeemContext
    Sample.pickRoll hsize smallElements_nil
  refine ⟨outcome_eq_error.1 ?_, by decide +kernel, fun round hround ↦ (hsafe round hround).1⟩
  rw [hresult, show (evalScript Sample.crypto Sample.redeemContext Sample.pickRoll []).result = none
    by decide +kernel, leaves_none]

end Bws
