import Bws.SignRaw

/-!
# What `signrawtransaction` reports

The inputs are verified one by one on a transaction that is still being signed.  No verdict depends
on the scripts of the other inputs, so what is reported is right for the transaction that is
returned (`signrawtransaction_complete`).  A script that passed before is not kept as it is: it is
merged with a new signature and with the scripts of the other variants, which may displace it.
-/

namespace Bws

open Checked

/-! ## What displaces a script -/

section

variable (S : SolverParams) (txTo : CTransaction) (nIn : ℕ)

/-- `CombineSignatures` does not give up the elements `kept`, the last one first, for those of a new
signature or of the other variants. -/
def Undisplaced (script : CScript) (signed kept : List valtype) (others : List (List valtype)) :
    Prop :=
  match (solverRet S.nMaxDatacarrierBytes script).1 with
  | .TX_NONSTANDARD | .TX_NULL_DATA => signed = [] ∧ ∀ other ∈ others, other.length ≤ kept.length
  | .TX_PUBKEY | .TX_PUBKEYHASH => signed = [] ∧ (others = [] ∨ kept.reverse.headD [] ≠ [])
  | .TX_SCRIPTHASH => False
  | .TX_MULTISIG => ∃ vSolutions,
      solver S.nMaxDatacarrierBytes script = some (.TX_MULTISIG, vSolutions) ∧
        ClearPool S txTo nIn script (multisigKeys vSolutions) (kept ++ (signed :: others).flatten)

/-- What a script leaves for the script of the output, or for the redeem script. -/
def argsFor (nTime : ℕ) (scriptPubKey s : CScript) : List valtype :=
  if isPayToScriptHash scriptPubKey then (stackOf S nTime s).tail else stackOf S nTime s

/-- What the scripts leave.  Without a redeem script nothing is merged. -/
def othersFor (nTime : ℕ) (scriptPubKey : CScript) (others : List CScript) : List (List valtype) :=
  (others.filter fun s ↦ ¬ isPayToScriptHash scriptPubKey ∨ (stackOf S nTime s).headD [] ≠ []).map
    (argsFor S nTime scriptPubKey)

/-- The script `s1` only pushes, and is not displaced when it is merged with a new signature and
after that with the scripts of the other variants.  `script` is the script of the output, or the
redeem script. -/
structure Undisturbed (nTime : ℕ) (scriptPubKey script signed s1 : CScript)
    (others : List CScript) : Prop where
  isPushOnly : Bws.isPushOnly s1 = true
  short : (pushAll (stackOf S nTime s1).reverse).length ≤ 10000
  bare : ¬ isPayToScriptHash scriptPubKey → script = scriptPubKey
  redeem : isPayToScriptHash scriptPubKey → (stackOf S nTime s1).head? = some script ∧
    script ≠ [] ∧ (stackOf S nTime signed = [] ∨ (stackOf S nTime signed).head? = some script)
  undisplaced : Undisplaced S txTo nIn script (argsFor S nTime scriptPubKey signed)
    (argsFor S nTime scriptPubKey s1) (othersFor S nTime scriptPubKey others)

/-- What the merged elements are: the ones that are to be kept, or signatures of the pool. -/
inductive Keeps (script : CScript) (kept pool acc : List valtype) : Prop
  | same (heq : acc = kept)
  | pooled (hmulti : (solverRet S.nMaxDatacarrierBytes script).1 = .TX_MULTISIG)
      (hrun : leavesTrue (evalScript S.crypto (standardContext txTo nIn) script acc))
      (hfew : acc.length ≤ 20) (hshort : ∀ arg ∈ acc, arg.length ≤ 73)
      (hpool : ∀ arg ∈ acc, arg = [] ∨ arg ∈ pool)

end

section

variable {S : SolverParams} {txTo : CTransaction} {nIn nTime : ℕ} {script : CScript}
  {vSolutions keys signed kept other acc pool pool' : List valtype} {others : List (List valtype)}

theorem ClearPool.mono (h : ClearPool S txTo nIn script keys pool)
    (hsub : ∀ sig ∈ pool', sig = [] ∨ sig ∈ pool) : ClearPool S txTo nIn script keys pool' := by
  refine ⟨h.encodedKey, fun sig hsig key hkey haccepts ↦ ?_,
    fun sig hsig key hkey key' hkey' haccepts ↦ ?_⟩
  · rcases hsub sig hsig with rfl | hsig
    · exact absurd haccepts Bool.false_ne_true
    · exact h.encodedSig sig hsig key hkey haccepts
  · rcases hsub sig hsig with rfl | hsig
    · exact absurd haccepts Bool.false_ne_true
    · exact h.single sig hsig key hkey key' hkey' haccepts

theorem Keeps.leavesTrue (h : Keeps S txTo nIn script kept pool acc)
    (hrun : leavesTrue (evalScript S.crypto (standardContext txTo nIn) script kept)) :
    leavesTrue (evalScript S.crypto (standardContext txTo nIn) script acc) := by
  rcases h with rfl | ⟨-, hrun, -, -, -⟩
  · exact hrun
  · exact hrun

theorem Keeps.eq_of_ne (h : Keeps S txTo nIn script kept pool acc)
    (hne : (solverRet S.nMaxDatacarrierBytes script).1 ≠ .TX_MULTISIG) : acc = kept := by
  rcases h with rfl | ⟨hmulti, -, -, -, -⟩
  · rfl
  · exact absurd hmulti hne

theorem Keeps.mem_pool (h : Keeps S txTo nIn script kept pool acc) (hsub : kept ⊆ pool) :
    ∀ arg ∈ acc, arg = [] ∨ arg ∈ pool := by
  rcases h with rfl | ⟨-, -, -, -, hpool⟩
  · exact fun arg harg ↦ .inr (hsub harg)
  · exact hpool

/-- Signatures of the pool make a multisig script true again. -/
theorem exists_pooled
    (hsolve : solver S.nMaxDatacarrierBytes script = some (.TX_MULTISIG, vSolutions))
    (hclear : ClearPool S txTo nIn script (multisigKeys vSolutions) pool)
    (hrun : leavesTrue (evalScript S.crypto (standardContext txTo nIn) script acc))
    (hacc : ∀ arg ∈ acc, arg = [] ∨ arg ∈ pool) (hother : other ⊆ pool) :
    ∃ acc', combineMultisig S txTo nIn script vSolutions acc other = pushAll acc'.reverse ∧
      Keeps S txTo nIn script kept pool acc' := by
  obtain ⟨keys, opm, opn, h⟩ := exists_multisigOf hsolve
  rw [h.multisigKeys_eq] at hclear
  have hboth : ∀ sig ∈ acc ++ other, sig = [] ∨ sig ∈ pool := fun sig hsig ↦
    (List.mem_append.1 hsig).elim (hacc sig) fun hsig ↦ .inr (hother hsig)
  obtain ⟨signers, hsub, hmany, hcovered⟩ :=
    coversInOrder_of_leavesTrue h hclear.encodedKey hrun (List.subset_append_left acc other)
  obtain ⟨signers, sigs, heq, hcount, hpool, hsub, hsigned⟩ :=
    combineMultisig_eq h (hclear.mono hboth) hsub hcovered hmany
  have hshort := short_of_signed hsigned
  have hle := h.le
  have hfew := h.length_le
  have hmulti : (solverRet S.nMaxDatacarrierBytes script).1 = .TX_MULTISIG := by
    rw [solverRet_of_solver hsolve]
  refine ⟨([] :: sigs).reverse, by rw [heq, List.reverse_reverse],
    .pooled hmulti (h.leavesTrue hclear.encodedKey hsigned hsub hcount) ?_ ?_ ?_⟩
  · rw [List.length_reverse, List.length_cons]
    omega
  · exact fun arg harg ↦ hshort arg (List.mem_reverse.1 harg)
  · intro arg harg
    rcases List.mem_cons.1 (List.mem_reverse.1 harg) with rfl | hsig
    · exact .inl rfl
    · exact hboth arg (hpool hsig)

/-- The elements are kept when a new signature comes first. -/
theorem exists_keeps_signed (h : Undisplaced S txTo nIn script signed kept others)
    (hrun : leavesTrue (evalScript S.crypto (standardContext txTo nIn) script kept)) :
    ∃ acc, combineSolved S txTo nIn signed kept script (solverRet S.nMaxDatacarrierBytes script).1
        (solverRet S.nMaxDatacarrierBytes script).2 = pushAll acc.reverse ∧
      Keeps S txTo nIn script kept (kept ++ (signed :: others).flatten) acc := by
  have hbigger : (if kept.length ≤ ([] : List valtype).length
      then pushAll ([] : List valtype).reverse else pushAll kept.reverse) =
        pushAll kept.reverse := by
    split_ifs with hlen
    · rw [List.length_eq_zero_iff.1 (Nat.le_zero.1 hlen)]
    · rfl
  rw [Undisplaced] at h
  rw [combineSolved.eq_def]
  cases htype : (solverRet S.nMaxDatacarrierBytes script).1 with
  | TX_NONSTANDARD =>
    rw [htype] at h
    obtain ⟨rfl, -⟩ := h
    exact ⟨kept, hbigger, .same rfl⟩
  | TX_NULL_DATA =>
    rw [htype] at h
    obtain ⟨rfl, -⟩ := h
    exact ⟨kept, hbigger, .same rfl⟩
  | TX_PUBKEY =>
    rw [htype] at h
    obtain ⟨rfl, -⟩ := h
    exact ⟨kept, if_pos (.inl rfl), .same rfl⟩
  | TX_PUBKEYHASH =>
    rw [htype] at h
    obtain ⟨rfl, -⟩ := h
    exact ⟨kept, if_pos (.inl rfl), .same rfl⟩
  | TX_SCRIPTHASH =>
    rw [htype] at h
    exact h.elim
  | TX_MULTISIG =>
    rw [htype] at h
    obtain ⟨vSolutions, hsolve, hclear⟩ := h
    dsimp only
    rw [solverRet_of_solver hsolve, combineMultisig_comm]
    exact exists_pooled hsolve hclear hrun (fun arg harg ↦ .inr (List.mem_append_left _ harg))
      fun sig hsig ↦ List.mem_append_right _ (List.mem_append_left _ hsig)

/-- They are kept when another variant comes. -/
theorem exists_keeps_other (h : Undisplaced S txTo nIn script signed kept others)
    (hrun : leavesTrue (evalScript S.crypto (standardContext txTo nIn) script kept))
    (hacc : Keeps S txTo nIn script kept (kept ++ (signed :: others).flatten) acc)
    (hother : other ∈ others) :
    ∃ acc', combineSolved S txTo nIn acc other script (solverRet S.nMaxDatacarrierBytes script).1
        (solverRet S.nMaxDatacarrierBytes script).2 = pushAll acc'.reverse ∧
      Keeps S txTo nIn script kept (kept ++ (signed :: others).flatten) acc' := by
  have hbottom : others = [] ∨ kept.reverse.headD [] ≠ [] →
      ¬ (kept = [] ∨ kept.reverse.headD [] = []) := by
    rintro (rfl | hne) (rfl | hnil)
    · cases hother
    · cases hother
    · exact hne rfl
    · exact hne hnil
  have hsame := hacc.eq_of_ne
  rw [Undisplaced] at h
  rw [combineSolved.eq_def]
  cases htype : (solverRet S.nMaxDatacarrierBytes script).1 with
  | TX_NONSTANDARD =>
    rw [htype] at h hsame
    obtain rfl := hsame (by rintro ⟨⟩)
    exact ⟨acc, if_pos (h.2 other hother), .same rfl⟩
  | TX_NULL_DATA =>
    rw [htype] at h hsame
    obtain rfl := hsame (by rintro ⟨⟩)
    exact ⟨acc, if_pos (h.2 other hother), .same rfl⟩
  | TX_PUBKEY =>
    rw [htype] at h hsame
    obtain rfl := hsame (by rintro ⟨⟩)
    exact ⟨acc, if_neg (hbottom h.2), .same rfl⟩
  | TX_PUBKEYHASH =>
    rw [htype] at h hsame
    obtain rfl := hsame (by rintro ⟨⟩)
    exact ⟨acc, if_neg (hbottom h.2), .same rfl⟩
  | TX_SCRIPTHASH =>
    rw [htype] at h
    exact h.elim
  | TX_MULTISIG =>
    rw [htype] at h
    obtain ⟨vSolutions, hsolve, hclear⟩ := h
    dsimp only
    rw [solverRet_of_solver hsolve]
    exact exists_pooled hsolve hclear (hacc.leavesTrue hrun)
      (hacc.mem_pool (List.subset_append_left _ _)) fun sig hsig ↦ List.mem_append_right _
        (List.mem_flatten.2 ⟨other, List.mem_cons_of_mem _ hother, hsig⟩)

end

/-! ## The script of one input -/

section

variable {S : SolverParams} {txTo : CTransaction} {nIn nTime : ℕ}
  {scriptPubKey script s1 s2 signed : CScript} {before kept acc pool : List valtype}
  {others : List CScript}

/-- The script `s1` only pushes and passes; it pushes `kept`, and for a pay-to-script-hash output
the redeem script `script` after that. -/
structure PassesWith (S : SolverParams) (txTo : CTransaction) (nIn nTime : ℕ)
    (scriptPubKey script s1 : CScript) (before kept : List valtype) : Prop where
  passes : Bws.passes S txTo nIn s1 scriptPubKey
  isPushOnly : Bws.isPushOnly s1 = true
  short : (pushAll (stackOf S nTime s1).reverse).length ≤ 10000
  stack : stackOf S nTime s1 = before ++ kept
  run : leavesTrue (evalScript S.crypto (standardContext txTo nIn) script kept)
  shape : ¬ isPayToScriptHash scriptPubKey ∧ before = [] ∧ script = scriptPubKey ∨
    PaysToHashOf S scriptPubKey script ∧ before = [script] ∧ script ≠ []

/-- The script passes, and pushes what is kept. -/
def Held (S : SolverParams) (txTo : CTransaction) (nIn nTime : ℕ) (scriptPubKey script : CScript)
    (before kept pool : List valtype) (s : CScript) : Prop :=
  passes S txTo nIn s scriptPubKey ∧ ∃ acc, stackOf S nTime s = before ++ acc ∧
    Keeps S txTo nIn script kept pool acc

/-- What is pushed is left, within the limits. -/
theorem stackOf_pushAll {stack : List valtype} (hsize : stack.length ≤ 1000)
    (hsmall : ∀ vch ∈ stack, vch.length ≤ MAX_SCRIPT_ELEMENT_SIZE)
    (hbytes : (pushAll stack.reverse).length ≤ 10000) :
    stackOf S nTime (pushAll stack.reverse) = stack := by
  have hlen : ∀ vch ∈ stack.reverse, vch.length ≤ MAX_SCRIPT_ELEMENT_SIZE :=
    fun vch hmem ↦ hsmall vch (List.mem_reverse.1 hmem)
  have hpushes : Pushes (pushAll stack.reverse) stack.reverse [] := by
    have hpushes := pushes_pushAll hlen []
    rwa [List.append_nil] at hpushes
  have hrun := evalScript_pushes (C := S.crypto) (c := ⟨.empty nTime, 0, 0, 0⟩) hpushes hlen
    (by rw [List.length_reverse]; exact hsize) hbytes
  rw [List.reverse_reverse] at hrun
  exact stackOf_eq hpushes.isPushOnly hrun

theorem length_pushAll_le {vchs : List valtype} {n : ℕ} (hn : n ≤ MAX_SCRIPT_ELEMENT_SIZE)
    (hlen : ∀ vch ∈ vchs, vch.length ≤ n) : (pushAll vchs).length ≤ vchs.length * (5 + n) := by
  have hpush := (pushes_pushAll (fun vch hmem ↦ (hlen vch hmem).trans hn) []).length_le hlen
  rwa [List.append_nil, List.length_nil, Nat.add_zero] at hpush

theorem pushAll_reverse_cons (vch : valtype) (stack : List valtype) :
    pushAll (vch :: stack).reverse = pushAll stack.reverse ++ pushData vch := by
  rw [List.reverse_cons, pushAll, List.flatMap_append, List.flatMap_singleton]
  rfl

theorem held_of_keeps (hC : S.crypto.Sized)
    (hs : PassesWith S txTo nIn nTime scriptPubKey script s1 before kept)
    (hacc : Keeps S txTo nIn script kept pool acc) :
    Held S txTo nIn nTime scriptPubKey script before kept pool
      (pushAll (before ++ acc).reverse) := by
  rcases hacc with rfl | ⟨hmulti, hrun, hfew, hshort, hpool⟩
  · have hres := result_of_passes nTime hs.isPushOnly hs.passes
    obtain ⟨hsize, hsmall⟩ := bounded_evalScript hC hres
    have hpass := passes_pushAll hC hs.isPushOnly hs.passes hs.short
    have hback : stackOf S nTime (pushAll (stackOf S nTime s1).reverse) = stackOf S nTime s1 :=
      stackOf_pushAll hsize hsmall hs.short
    rw [← hs.stack]
    exact ⟨hpass, acc, hback.trans hs.stack, .same rfl⟩
  · have hlen : (pushAll acc.reverse).length ≤ acc.length * (5 + 73) := by
      have hle := length_pushAll_le (by decide : 73 ≤ MAX_SCRIPT_ELEMENT_SIZE)
        fun arg harg ↦ hshort arg (List.mem_reverse.1 harg)
      rwa [List.length_reverse] at hle
    have hsmall : ∀ arg ∈ acc, arg.length ≤ MAX_SCRIPT_ELEMENT_SIZE := fun arg harg ↦
      (hshort arg harg).trans (by decide)
    have hback : (before ++ acc).length ≤ 1000 →
        (∀ vch ∈ before ++ acc, vch.length ≤ MAX_SCRIPT_ELEMENT_SIZE) →
          (pushAll (before ++ acc).reverse).length ≤ 10000 →
            ∃ acc', stackOf S nTime (pushAll (before ++ acc).reverse) = before ++ acc' ∧
              Keeps S txTo nIn script kept pool acc' := fun hsize hsmall hbytes ↦
      ⟨acc, stackOf_pushAll hsize hsmall hbytes, .pooled hmulti hrun hfew hshort hpool⟩
    have hargs : acc.reverse.length ≤ 20 := by rwa [List.length_reverse]
    have hshort' : ∀ arg ∈ acc.reverse, arg.length ≤ 73 := fun arg harg ↦
      hshort arg (List.mem_reverse.1 harg)
    rcases hs.shape with ⟨hbare, rfl, rfl⟩ | ⟨hpays, rfl, -⟩
    · refine ⟨verifyScript_pushAll hbare hargs hshort' ?_, hback ?_ hsmall ?_⟩
      · rw [List.nil_append, List.reverse_reverse]
        exact hrun
      · exact hfew.trans (by decide)
      · rw [List.nil_append]
        omega
    · have hscript := hpays.short
      refine ⟨?_, hback ?_ ?_ ?_⟩
      · rw [List.singleton_append, pushAll_reverse_cons]
        refine verifyScript_redeem hpays.p2sh hpays.hash hscript hargs hshort' ?_
        rw [List.reverse_reverse]
        exact hrun
      · rw [List.singleton_append, List.length_cons]
        omega
      · exact List.forall_mem_cons.2 ⟨hscript, hsmall⟩
      · have hone := length_pushAll_le le_rfl (List.forall_mem_singleton.2 hscript)
        rw [pushAll_singleton, List.length_singleton, MAX_SCRIPT_ELEMENT_SIZE] at hone
        rw [List.singleton_append, pushAll_reverse_cons, List.length_append]
        omega

/-! ### One merge -/

theorem combineSignatures_eq (s1 s2 : CScript) :
    combineSignatures S txTo nIn nTime scriptPubKey s1 s2 =
      combineSolved S txTo nIn (stackOf S nTime s1) (stackOf S nTime s2) scriptPubKey
        (solverRet S.nMaxDatacarrierBytes scriptPubKey).1
        (solverRet S.nMaxDatacarrierBytes scriptPubKey).2 := rfl

theorem argsFor_bare (hbare : ¬ isPayToScriptHash scriptPubKey) (s : CScript) :
    argsFor S nTime scriptPubKey s = stackOf S nTime s := if_neg hbare

theorem argsFor_p2sh (hp2sh : isPayToScriptHash scriptPubKey) (s : CScript) :
    argsFor S nTime scriptPubKey s = (stackOf S nTime s).tail := if_pos hp2sh

/-- Merging another script does not displace what is kept. -/
theorem Held.combine (hC : S.crypto.Sized)
    (hs : PassesWith S txTo nIn nTime scriptPubKey script s1 before kept) {new : List valtype}
    (h : Undisplaced S txTo nIn script new kept (othersFor S nTime scriptPubKey others))
    {s : CScript} (hheld : Held S txTo nIn nTime scriptPubKey script before kept
      (kept ++ (new :: othersFor S nTime scriptPubKey others).flatten) s) (hs2 : s2 ∈ others) :
    Held S txTo nIn nTime scriptPubKey script before kept
      (kept ++ (new :: othersFor S nTime scriptPubKey others).flatten)
      (combineSignatures S txTo nIn nTime scriptPubKey s s2) := by
  have hmem : (¬ isPayToScriptHash scriptPubKey ∨ (stackOf S nTime s2).headD [] ≠ []) →
      argsFor S nTime scriptPubKey s2 ∈ othersFor S nTime scriptPubKey others := fun hkept ↦
    List.mem_map_of_mem (List.mem_filter.2 ⟨hs2, decide_eq_true hkept⟩)
  obtain ⟨-, acc, hstack, hacc⟩ := hheld
  rcases hs.shape with ⟨hbare, rfl, rfl⟩ | ⟨hpays, rfl, hne⟩
  · obtain ⟨acc', heq, hacc'⟩ := exists_keeps_other h hs.run hacc (hmem (.inl hbare))
    rw [argsFor_bare hbare] at heq
    rw [combineSignatures_eq, hstack, List.nil_append, heq]
    exact held_of_keeps hC hs hacc'
  · rw [List.singleton_append] at hstack
    by_cases hlast : (stackOf S nTime s2).headD [] = []
    · rw [combineSignatures_alone hpays.p2sh hstack hne hlast]
      exact held_of_keeps hC hs hacc
    · obtain ⟨acc', heq, hacc'⟩ := exists_keeps_other h hs.run hacc (hmem (.inr hlast))
      rw [argsFor_p2sh hpays.p2sh] at heq
      rw [combineSignatures_p2sh_eq hpays.p2sh hstack hne hlast, heq, ← pushAll_reverse_cons]
      exact held_of_keeps hC hs hacc'

/-- Neither does merging it with a new signature. -/
theorem PassesWith.held (hC : S.crypto.Sized)
    (hs : PassesWith S txTo nIn nTime scriptPubKey script s1 before kept)
    {others : List (List valtype)}
    (h : Undisplaced S txTo nIn script (argsFor S nTime scriptPubKey signed) kept others)
    (hsigned : isPayToScriptHash scriptPubKey → stackOf S nTime signed = [] ∨
      (stackOf S nTime signed).head? = some script) :
    Held S txTo nIn nTime scriptPubKey script before kept
      (kept ++ (argsFor S nTime scriptPubKey signed :: others).flatten)
      (combineSignatures S txTo nIn nTime scriptPubKey signed s1) := by
  obtain ⟨acc, heq, hacc⟩ := exists_keeps_signed h hs.run
  rcases hs.shape with ⟨hbare, rfl, rfl⟩ | ⟨hpays, rfl, hne⟩
  · rw [argsFor_bare hbare] at heq
    rw [combineSignatures_eq, hs.stack, List.nil_append, heq]
    exact held_of_keeps hC hs hacc
  · have hstack : stackOf S nTime s1 = script :: kept := hs.stack
    rw [argsFor_p2sh hpays.p2sh] at heq
    rcases hsigned hpays.p2sh with hnil | hhead
    · have hall : combineSignatures S txTo nIn nTime scriptPubKey signed s1 =
          pushAll (script :: kept).reverse := by
        rw [combineSignatures, solverRet_of_solver (solver_of_isPayToScriptHash hpays.p2sh), hnil,
          hstack]
        dsimp only
        rw [combineSolved.eq_def]
      rw [hall]
      exact held_of_keeps hC hs (.same rfl)
    · obtain ⟨tail, hfirst⟩ := List.head?_eq_some_iff.1 hhead
      rw [hfirst, List.tail_cons] at heq
      rw [combineSignatures_p2sh_eq hpays.p2sh hfirst hne (by rw [hstack]; exact hne), hstack,
        List.tail_cons, heq, ← pushAll_reverse_cons]
      exact held_of_keeps hC hs hacc

/-! ### All merges -/

/-- The hash of a redeem script is the one in the output. -/
theorem hash_of_leavesTrue {C : Crypto} {c : ScriptContext} {vch : valtype} {stack : List valtype}
    (hp2sh : isPayToScriptHash scriptPubKey)
    (hrun : leavesTrue (evalScript C c scriptPubKey (vch :: stack))) :
    C.hash160 vch = (scriptPubKey.drop 2).take 20 := by
  obtain ⟨p₁, p₂, hhash, hget, hequal⟩ := getOp_of_isPayToScriptHash hp2sh
  have hlen : ((scriptPubKey.drop 2).take 20).length ≤ MAX_SCRIPT_ELEMENT_SIZE :=
    (List.length_take_le _ _).trans (by decide)
  obtain ⟨stack', hres, top, hhead, htrue⟩ := hrun
  rw [evalScript, if_neg (not_lt.2 (hp2sh.1.trans_le (by decide))), result_map] at hres
  obtain ⟨st, hst, hend⟩ := Option.bind_eq_some_iff.1 hres
  split_ifs at hend
  cases hend
  have hstep₁ : (step C c OP_HASH160 [] p₁ ⟨vch :: stack, [], [], 0, scriptPubKey⟩).result =
      withinLimits ⟨C.hash160 vch :: stack, [], [], 1, scriptPubKey⟩ :=
    step_op (by decide) (by decide) rfl (Nat.zero_lt_succ 200)
  have hstep₂ : (step C c OP_EQUAL [] [] ⟨(scriptPubKey.drop 2).take 20 :: C.hash160 vch :: stack,
      [], [], 1, scriptPubKey⟩).result = withinLimits ⟨boolToVch (decide
        (C.hash160 vch = (scriptPubKey.drop 2).take 20)) :: stack, [], [], 2, scriptPubKey⟩ :=
    step_op (by decide) (by decide) rfl (show 1 < 201 by decide)
  have h₁ := evalFrom_of_withinLimits hhash hstep₁ hst
  have h₂ := evalFrom_of_withinLimits hget (result_step_data (by decide) hlen rfl) h₁
  have h₃ := evalFrom_of_withinLimits hequal hstep₂ h₂
  cases h₃
  cases hhead
  by_contra hne
  rw [decide_eq_false hne] at htrue
  exact absurd htrue Bool.false_ne_true

/-- What passes for a pay-to-script-hash output ends with the redeem script. -/
theorem paysToHashOf_of_passes (hC : S.crypto.Sized) (hp2sh : isPayToScriptHash scriptPubKey)
    (hpass : passes S txTo nIn s1 scriptPubKey) (hstack : stackOf S nTime s1 = script :: kept) :
    PaysToHashOf S scriptPubKey script := by
  obtain ⟨hpush, hres, -⟩ := redeem_of_passes nTime hp2sh hpass
  obtain ⟨-, hsmall⟩ := bounded_evalScript hC hres
  rw [hstack] at hsmall
  refine ⟨hp2sh, ?_, hsmall script List.mem_cons_self⟩
  have hrun : leavesTrue (evalScript S.crypto (standardContext txTo nIn) scriptPubKey
      (script :: kept)) := by
    rw [passes, verifyScript, hres, hstack] at hpass
    dsimp only at hpass
    by_contra hfalse
    rw [if_neg hfalse] at hpass
    exact absurd hpass Bool.false_ne_true
  exact hash_of_leavesTrue hp2sh hrun

theorem Undisturbed.passesWith (hC : S.crypto.Sized)
    (h : Undisturbed S txTo nIn nTime scriptPubKey script signed s1 others)
    (hpass : passes S txTo nIn s1 scriptPubKey) :
    ∃ before, PassesWith S txTo nIn nTime scriptPubKey script s1 before
      (argsFor S nTime scriptPubKey s1) := by
  by_cases hp2sh : isPayToScriptHash scriptPubKey
  · obtain ⟨hhead, hne, -⟩ := h.redeem hp2sh
    obtain ⟨kept, hstack⟩ := List.head?_eq_some_iff.1 hhead
    have hpays := paysToHashOf_of_passes hC hp2sh hpass hstack
    obtain ⟨-, -, redeem, rest, hsplit, hrun⟩ := redeem_of_passes nTime hp2sh hpass
    cases hstack.symm.trans hsplit
    refine ⟨[script], hpass, h.isPushOnly, h.short, ?_, ?_, .inr ⟨hpays, rfl, hne⟩⟩
    · rw [argsFor_p2sh hp2sh, hstack]
      rfl
    · rw [argsFor_p2sh hp2sh, hstack]
      exact hrun
  · obtain rfl := h.bare hp2sh
    refine ⟨[], hpass, h.isPushOnly, h.short, ?_, ?_, .inl ⟨hp2sh, rfl, rfl⟩⟩
    · rw [argsFor_bare hp2sh]
      rfl
    · rw [argsFor_bare hp2sh]
      exact leavesTrue_of_passes hp2sh h.isPushOnly hpass

theorem Held.passes_foldl (hC : S.crypto.Sized)
    (hs : PassesWith S txTo nIn nTime scriptPubKey script s1 before kept) {new : List valtype}
    (h : Undisplaced S txTo nIn script new kept (othersFor S nTime scriptPubKey others))
    {rest : List CScript} (hrest : rest ⊆ others) {s : CScript}
    (hheld : Held S txTo nIn nTime scriptPubKey script before kept
      (kept ++ (new :: othersFor S nTime scriptPubKey others).flatten) s) :
    passes S txTo nIn (rest.foldl (combineSignatures S txTo nIn nTime scriptPubKey) s)
      scriptPubKey := by
  induction rest generalizing s with
  | nil => exact hheld.1
  | cons s2 rest ih =>
    obtain ⟨hs2, hrest⟩ := List.cons_subset.1 hrest
    exact ih hrest (hheld.combine hC hs h hs2)

/-- A script that nothing displaces still passes when it has been merged with a new signature and
the others. -/
theorem Undisturbed.passes_signed (hC : S.crypto.Sized)
    (h : Undisturbed S txTo nIn nTime scriptPubKey script signed s1 others)
    (hpass : passes S txTo nIn s1 scriptPubKey) :
    passes S txTo nIn (others.foldl (combineSignatures S txTo nIn nTime scriptPubKey)
      (combineSignatures S txTo nIn nTime scriptPubKey signed s1)) scriptPubKey := by
  obtain ⟨before, hs⟩ := h.passesWith hC hpass
  exact (hs.held hC h.undisplaced fun hp2sh ↦ (h.redeem hp2sh).2.2).passes_foldl hC hs h.undisplaced
    (List.Subset.refl _)

/-- So does the new signature itself. -/
theorem Undisturbed.passes_first (hC : S.crypto.Sized)
    (h : Undisturbed S txTo nIn nTime scriptPubKey script signed s1 others)
    (hpass : passes S txTo nIn s1 scriptPubKey) :
    passes S txTo nIn (others.foldl (combineSignatures S txTo nIn nTime scriptPubKey) s1)
      scriptPubKey := by
  obtain ⟨before, hs⟩ := h.passesWith hC hpass
  have hheld : Held S txTo nIn nTime scriptPubKey script before (argsFor S nTime scriptPubKey s1)
      (argsFor S nTime scriptPubKey s1 ++ (argsFor S nTime scriptPubKey signed ::
        othersFor S nTime scriptPubKey others).flatten) s1 :=
    ⟨hpass, _, hs.stack, .same rfl⟩
  exact hheld.passes_foldl hC hs h.undisplaced (List.Subset.refl _)

end

/-! ## The report -/

/-- The script of an input makes it pass. -/
def CTransaction.inputPasses (S : SolverParams) (txTo : CTransaction) (nIn : ℕ)
    (prevPubKey : CScript) : Prop := passes S txTo nIn (txTo.scriptSigAt nIn) prevPubKey

theorem inputPasses_setScriptSig {S : SolverParams} {i j : ℕ} (hij : i ≠ j) (txTo : CTransaction)
    (scriptSig prevPubKey : CScript) : (txTo.setScriptSig j scriptSig).inputPasses S i prevPubKey ↔
      txTo.inputPasses S i prevPubKey := by
  have hscript : (txTo.setScriptSig j scriptSig).scriptSigAt i = txTo.scriptSigAt i := by
    rw [CTransaction.scriptSigAt, getElem?_setScriptSig, CTransaction.scriptSigAt]
    simp only [if_neg hij, Option.map_id']
  rw [CTransaction.inputPasses, hscript]
  exact passes_blank (blank_setScriptSig ..) _ _

namespace Signer

variable {R : Signer} {rawTx : CTransaction} {txVariants others : List CTransaction} {i n : ℕ}
  {prevPubKey : CScript}

theorem scriptSigAt_mergedFirst (hi : i < rawTx.vin.length) (hin : i < n)
    (hknown : R.prevPubKeyAt rawTx i = some prevPubKey) :
    (R.mergedFirst rawTx txVariants n).scriptSigAt i =
      R.mergedScript rawTx txVariants i prevPubKey := by
  rw [prevPubKeyAt, List.getElem?_eq_getElem hi, Option.bind_some] at hknown
  rw [CTransaction.scriptSigAt, getElem?_mergedFirst, List.getElem?_eq_getElem hi, Option.map_some,
    if_pos hin, mergedInput, hknown]
  rfl

/-- The script of an input is the same after every later round. -/
theorem scriptSigAt_mergedFirst_eq (hin : i < n) (hn : n ≤ rawTx.vin.length) :
    (R.mergedFirst rawTx txVariants n).scriptSigAt i =
      (R.mergedFirst rawTx txVariants rawTx.vin.length).scriptSigAt i := by
  rw [CTransaction.scriptSigAt, CTransaction.scriptSigAt, getElem?_mergedFirst,
    getElem?_mergedFirst]
  simp only [if_pos hin, if_pos (hin.trans_le hn)]

theorem inputPasses_mergedFirst (hi : i < rawTx.vin.length) (hin : i < n)
    (hknown : R.prevPubKeyAt rawTx i = some prevPubKey) :
    (R.mergedFirst rawTx txVariants n).inputPasses R.params i prevPubKey ↔
      passes R.params rawTx i (R.mergedScript rawTx txVariants i prevPubKey) prevPubKey := by
  rw [CTransaction.inputPasses, scriptSigAt_mergedFirst hi hin hknown]
  exact passes_blank (blank_mergedFirst R rawTx txVariants n) _ _

theorem prevout_mergedInput (i : ℕ) (txin : CTxIn) :
    (R.mergedInput rawTx txVariants i txin).prevout = txin.prevout := by
  rw [mergedInput]
  split <;> rfl

/-- What has been verified for an input can be read off the transaction that is returned. -/
theorem verified_iff (hi : i < rawTx.vin.length) (hin : i < n) :
    R.Verified rawTx txVariants i ↔
      ∀ txin, (R.mergedFirst rawTx txVariants n).vin[i]? = some txin → ∃ prevPubKey,
        R.mapPrevOut txin.prevout = some prevPubKey ∧
          passes R.params (R.mergedFirst rawTx txVariants n) i txin.scriptSig prevPubKey := by
  have hget : (R.mergedFirst rawTx txVariants n).vin[i]? =
      some (R.mergedInput rawTx txVariants i rawTx.vin[i]) := by
    rw [getElem?_mergedFirst, List.getElem?_eq_getElem hi, Option.map_some, if_pos hin]
  have hknown : R.prevPubKeyAt rawTx i = R.mapPrevOut rawTx.vin[i].prevout := by
    rw [prevPubKeyAt, List.getElem?_eq_getElem hi, Option.bind_some]
  have hscript : (R.mergedFirst rawTx txVariants n).scriptSigAt i =
      (R.mergedInput rawTx txVariants i rawTx.vin[i]).scriptSig := by
    rw [CTransaction.scriptSigAt, hget]
    rfl
  rw [hget]
  constructor
  · rintro ⟨prevPubKey, hprev, hpass⟩ txin htxin
    cases htxin
    refine ⟨prevPubKey, ?_, ?_⟩
    · rw [prevout_mergedInput, ← hknown]
      exact hprev
    · rw [← hscript]
      exact (inputPasses_mergedFirst hi hin hprev).2 hpass
  · intro h
    obtain ⟨prevPubKey, hprev, hpass⟩ := h _ rfl
    rw [prevout_mergedInput, ← hknown] at hprev
    rw [← hscript] at hpass
    exact ⟨prevPubKey, hprev, (inputPasses_mergedFirst hi hin hprev).1 hpass⟩

end Signer

/-- **What is reported.**  Where the variants have as many inputs as the first one, the signatures
are complete exactly when each input of the transaction that is returned has a known previous output
and passes; no round changes the verdict on another input; and an input that passed still passes,
where nothing displaces its script. -/
theorem signrawtransaction_complete (R : Signer) (hC : R.params.crypto.Sized) {rawTx : CTransaction}
    {others : List CTransaction} (hlen : ∀ txv ∈ others, rawTx.vin.length ≤ txv.vin.length) :
    ∃ mergedTx fComplete,
      R.signFirst rawTx (rawTx :: others) rawTx.vin.length = some (mergedTx, fComplete) ∧
      (∀ T hexstring, txVariantsOf T (parseHex hexstring) = some (rawTx :: others) →
        signrawtransaction T R hexstring =
          .returned (hexStr ((CTransaction.implementSerialize T).put mergedTx)) fComplete) ∧
      (fComplete = true ↔ ∀ i txin, mergedTx.vin[i]? = some txin → ∃ prevPubKey,
        R.mapPrevOut txin.prevout = some prevPubKey ∧
          passes R.params mergedTx i txin.scriptSig prevPubKey) ∧
      (∀ n ≤ rawTx.vin.length, ∃ tx f, R.signFirst rawTx (rawTx :: others) n = some (tx, f) ∧
        ∀ i < n, ∀ prevPubKey,
          tx.inputPasses R.params i prevPubKey ↔ mergedTx.inputPasses R.params i prevPubKey) ∧
      (∀ (tx : CTransaction) (i j : ℕ) (scriptSig prevPubKey : CScript), i ≠ j →
        ((tx.setScriptSig j scriptSig).inputPasses R.params i prevPubKey ↔
          tx.inputPasses R.params i prevPubKey)) ∧
      ∀ i < rawTx.vin.length, ∀ prevPubKey ∈ R.prevPubKeyAt rawTx i,
        let signed := R.signedScript rawTx i prevPubKey
        let scripts := others.map (·.scriptSigAt i)
        (rawTx.inputPasses R.params i prevPubKey ∧ ∃ script,
            Undisturbed R.params rawTx i R.nTime prevPubKey script signed (rawTx.scriptSigAt i)
              scripts) ∨
          (passes R.params rawTx i signed prevPubKey ∧ ∃ script,
            Undisturbed R.params rawTx i R.nTime prevPubKey script [] signed
              (rawTx.scriptSigAt i :: scripts)) →
        mergedTx.inputPasses R.params i prevPubKey := by
  have hread : ∀ n ≤ rawTx.vin.length, R.HasInputs rawTx (rawTx :: others) n :=
    fun n hn i hi _ ↦ List.forall_mem_cons.2
      ⟨hi.trans_le hn, fun txv htxv ↦ (hi.trans_le hn).trans_le (hlen txv htxv)⟩
  obtain ⟨fComplete, hrun, hcomplete⟩ := Signer.signFirst_eq_some le_rfl (hread _ le_rfl)
  refine ⟨_, fComplete, hrun, fun T hexstring hparse ↦ ?_, ?_, fun n hn ↦ ?_,
    fun tx i j scriptSig prevPubKey hij ↦ inputPasses_setScriptSig hij tx scriptSig prevPubKey,
    fun i hi prevPubKey hknown ↦ ?_⟩
  · rw [signrawtransaction, hparse]
    dsimp only
    rw [hrun]
  · rw [hcomplete]
    constructor
    · intro hall i txin htxin
      have hi : i < rawTx.vin.length := by
        have hlt := (List.getElem?_eq_some_iff.1 htxin).1
        rwa [Signer.length_mergedFirst] at hlt
      exact (Signer.verified_iff hi hi).1 (hall i hi) txin htxin
    · exact fun h i hi ↦ (Signer.verified_iff hi hi).2 (h i)
  · obtain ⟨f, hfirst, -⟩ := Signer.signFirst_eq_some hn (hread n hn)
    refine ⟨_, f, hfirst, fun i hi prevPubKey ↦ ?_⟩
    rw [CTransaction.inputPasses, CTransaction.inputPasses, Signer.scriptSigAt_mergedFirst_eq hi hn]
    exact passes_blank ((Signer.blank_mergedFirst R rawTx _ n).trans
      (Signer.blank_mergedFirst R rawTx _ _).symm) _ _
  · intro signed scripts hpass
    rw [Signer.inputPasses_mergedFirst hi hi hknown]
    rcases hpass with ⟨hpass, script, hscript⟩ | ⟨hpass, script, hscript⟩
    · exact hscript.passes_signed hC hpass
    · exact hscript.passes_first hC hpass

/-! ## One input -/

namespace Sample

/-- Every previous output has this script, and there are no keys. -/
def signerFor (prevPubKey : CScript) : Signer where
  params := combineParams
  sign := oneSignature
  mapPrevOut := fun _ ↦ some prevPubKey
  keystore := ⟨fun _ ↦ false, fun _ ↦ none, fun _ ↦ none, ∅⟩
  nHashType := SIGHASH_ALL
  nTime := 0

/-- The transaction with a script for its only input. -/
def spending (scriptSig : CScript) : CTransaction := oneTx.setScriptSig 0 scriptSig

/-- The input passes at first, and does not when the variants have been merged. -/
def Breaks (prevPubKey scriptSig : CScript) (others : List CScript) : Prop :=
  verifies scriptSig prevPubKey = true ∧
    ((signerFor prevPubKey).signFirst (spending scriptSig)
      (spending scriptSig :: others.map spending) 1).map Prod.snd = some false

instance (prevPubKey scriptSig : CScript) (others : List CScript) :
    Decidable (Breaks prevPubKey scriptSig others) := inferInstanceAs (Decidable (_ ∧ _))

end Sample

open Sample in
/-- The second variant has one of the two signatures of the first. -/
theorem signrawtransaction_complete_sample : ∃ mergedTx fComplete,
    (signerFor twoOfTwo).signFirst (spending (pushAll [[], sigBytes, secondSigBytes]))
      [spending (pushAll [[], sigBytes, secondSigBytes]), spending (pushAll [[], secondSigBytes])] 1 =
        some (mergedTx, fComplete) ∧
      mergedTx.inputPasses combineParams 0 twoOfTwo := by
  have hlen : ∀ txv ∈ [spending (pushAll [[], secondSigBytes])],
      (spending (pushAll [[], sigBytes, secondSigBytes])).vin.length ≤ txv.vin.length :=
    List.forall_mem_singleton.2 le_rfl
  obtain ⟨mergedTx, fComplete, hrun, -, -, -, -, hstill⟩ :=
    signrawtransaction_complete (signerFor twoOfTwo) sized_combineParams hlen
  refine ⟨mergedTx, fComplete, hrun, hstill 0 zero_lt_one twoOfTwo rfl (.inl ⟨?_, twoOfTwo, ?_⟩)⟩
  · rw [CTransaction.inputPasses, passes]
    decide +kernel
  · refine ⟨by decide +kernel, by decide +kernel, fun _ ↦ rfl,
      fun hp2sh ↦ absurd hp2sh (by decide +kernel), ?_⟩
    have htype : (solverRet (signerFor twoOfTwo).params.nMaxDatacarrierBytes twoOfTwo).1 =
        .TX_MULTISIG := by decide +kernel
    rw [Undisplaced, htype]
    exact ⟨[[2], keyBytes, otherKeyBytes, [2]], by decide +kernel,
      by decide +kernel, by decide +kernel, by decide +kernel⟩

open Sample in
/-- A script that leaves more displaces one that passes; a signature that is not well encoded
displaces a good one; and a script that does more than push is lost though there is no other. -/
theorem not_signrawtransaction_complete :
    Breaks [] [OP_1] [[OP_1, OP_0]] ∧
      Breaks oneOfOne (pushAll [[], sigBytes]) [pushAll [[], highSigBytes]] ∧
        Breaks oneOfOne (pushAll [sigBytes, keyBytes] ++ [OP_CHECKSIG, OP_VERIFY] ++
          pushAll [[], sigBytes]) [] := by
  refine ⟨by decide +kernel, by decide +kernel, by decide +kernel⟩

end Bws
