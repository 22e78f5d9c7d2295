import Bws.ScriptRun

/-!
# Deleting a push from a script

`FindAndDelete` erases bytes while an iterator reads instructions from the same bytes: wherever an
instruction starts it compares the bytes from there with those to be deleted, and reads on behind
what is left.

When the bytes to be deleted are one instruction, a copy of them stands where an instruction starts
exactly when that instruction is the copy (`prefix_iff_of_getOp`).  So what goes are the
instructions that are equal to it, all of them, and what follows the last instruction stays
(`deleteFrom_operations`).
-/

namespace Bws

/-! ## The source -/

/-- The loops of `FindAndDelete`, a comparison at a time: the iterator stands behind `pc` bytes, and
either a copy is erased there or an instruction is read.  There is no result when the steps run
out. -/
def deleteFrom (b : CScript) : ℕ → CScript → ℕ → ℕ → Option (ℕ × CScript)
  | 0, _, _, _ => none
  | fuel + 1, script, pc, nFound =>
    if b.length ≤ script.length - pc ∧ (script.drop pc).take b.length = b then
      deleteFrom b fuel (script.take pc ++ script.drop (pc + b.length)) pc (nFound + 1)
    else
      match getOp (script.drop pc) with
      | none => some (nFound, script)
      | some (_, _, rest) => deleteFrom b fuel script (script.length - rest.length) nFound

/-- `FindAndDelete`: what it returns, and the script that it leaves. -/
def deleteInPlace (b script : CScript) : Option (ℕ × CScript) :=
  if b = [] then some (0, script) else deleteFrom b (script.length + 1) script 0 0

/-! ## Instructions -/

/-- The bytes of the instructions that `GetOp` reads one after another, and what follows them; for a
script of no more bytes than the first argument. -/
def operationsFrom : ℕ → CScript → List CScript × CScript
  | 0, script => ([], script)
  | fuel + 1, script =>
    match getOp script with
    | none => ([], script)
    | some (_, _, pc) =>
      (script.take (script.length - pc.length) :: (operationsFrom fuel pc).1,
        (operationsFrom fuel pc).2)

/-- The operations of a script and the tail that cannot be parsed. -/
def operations (script : CScript) : List CScript × CScript := operationsFrom script.length script

section

variable {script pc : CScript} {opcode : UInt8} {vch : valtype}

/-- The bytes of the instruction that is read. -/
theorem eq_append_of_getOp (h : getOp script = some (opcode, vch, pc)) :
    script = script.take (script.length - pc.length) ++ pc := by
  obtain ⟨front, rfl⟩ := suffix_of_getOp h
  rw [List.length_append, Nat.add_sub_cancel, List.take_left]

theorem operationsFrom_eq : ∀ {fuel : ℕ} {script : CScript}, script.length ≤ fuel →
    operationsFrom fuel script = operations script := by
  intro fuel
  induction fuel using Nat.strong_induction_on with
  | _ fuel ih =>
    intro script hle
    unfold operations
    rcases script with - | ⟨b, script⟩
    · cases fuel <;> rfl
    · obtain ⟨fuel, rfl⟩ : ∃ n, fuel = n + 1 := ⟨fuel - 1, by rw [List.length_cons] at hle; omega⟩
      rw [List.length_cons, operationsFrom, operationsFrom]
      cases hget : getOp (b :: script) with
      | none => rfl
      | some o =>
        obtain ⟨opcode, vch, pc⟩ := o
        have hlt := length_of_getOp hget
        rw [List.length_cons] at hlt hle
        dsimp only
        rw [ih fuel (by omega) (by omega : pc.length ≤ fuel),
          ih script.length (by omega) (by omega : pc.length ≤ script.length)]

theorem operations_of_none (h : getOp script = none) : operations script = ([], script) := by
  rcases script with - | ⟨b, script⟩
  · rfl
  · rw [operations, List.length_cons, operationsFrom, h]

theorem operations_of_getOp (h : getOp script = some (opcode, vch, pc)) : operations script =
    (script.take (script.length - pc.length) :: (operations pc).1, (operations pc).2) := by
  have hlt := length_of_getOp h
  rcases script with - | ⟨b, script⟩
  · cases h
  · rw [List.length_cons] at hlt
    rw [operations, List.length_cons, operationsFrom, h]
    dsimp only
    rw [operationsFrom_eq (by omega), List.length_cons]

/-- Along the instructions of a script. -/
theorem instructions_induction {P : CScript → Prop} (tail : ∀ script, getOp script = none → P script)
    (op : ∀ script opcode vch pc, getOp script = some (opcode, vch, pc) → P pc → P script)
    (script : CScript) : P script := by
  induction hn : script.length using Nat.strong_induction_on generalizing script with
  | _ n ih =>
    cases hget : getOp script with
    | none => exact tail script hget
    | some o =>
      obtain ⟨opcode, vch, pc⟩ := o
      exact op script opcode vch pc hget (ih _ (hn ▸ length_of_getOp hget) pc rfl)

end

/-! ## A copy is an instruction -/

theorem readSize_append_of_some {n nSize : ℕ} {pc pc' : CScript}
    (h : readSize n pc = some (nSize, pc')) (rest : CScript) :
    readSize n (pc ++ rest) = some (nSize, pc' ++ rest) := by
  unfold readSize at h ⊢
  split_ifs at h with hshort
  · cases h
    have hlen : n ≤ pc.length := not_lt.1 hshort
    rw [if_neg (by rw [List.length_append]; omega), List.take_append_of_le_length hlen,
      List.drop_append_of_le_length hlen]

theorem pushSize_append {opcode : UInt8} {nSize : ℕ} {pc pc' : CScript}
    (h : pushSize opcode pc = some (nSize, pc')) (rest : CScript) :
    pushSize opcode (pc ++ rest) = some (nSize, pc' ++ rest) := by
  unfold pushSize at h ⊢
  split_ifs at h ⊢
  · cases h
    rfl
  · exact readSize_append_of_some h rest
  · exact readSize_append_of_some h rest
  · exact readSize_append_of_some h rest
  · cases h
    rfl

/-- What follows an instruction does not change how it is read. -/
theorem getOp_append {script pc : CScript} {opcode : UInt8} {vch : valtype}
    (h : getOp script = some (opcode, vch, pc)) (rest : CScript) :
    getOp (script ++ rest) = some (opcode, vch, pc ++ rest) := by
  rcases script with - | ⟨b, script⟩
  · cases h
  · rw [getOp] at h
    split at h
    · cases h
    · rename_i nSize pc' hsize
      split_ifs at h with hshort
      cases h
      have hlen : nSize ≤ pc'.length := not_lt.1 hshort
      rw [List.cons_append, getOp, pushSize_append hsize rest]
      dsimp only
      rw [if_neg (by rw [List.length_append]; omega), List.take_append_of_le_length hlen,
        List.drop_append_of_le_length hlen]

section

variable {b script pc : CScript} {opcode opcode' : UInt8} {vch vch' : valtype}

/-- **At an instruction, equal bytes are an equal instruction.** -/
theorem prefix_iff_of_getOp (hb : getOp b = some (opcode, vch, []))
    (h : getOp script = some (opcode', vch', pc)) :
    b <+: script ↔ script.take (script.length - pc.length) = b := by
  constructor
  · rintro ⟨rest, rfl⟩
    have hread := getOp_append hb rest
    rw [h] at hread
    cases hread
    rw [List.nil_append, List.length_append, Nat.add_sub_cancel, List.take_left]
  · intro heq
    rw [← heq]
    exact List.take_prefix _ _

theorem not_prefix_of_none (hb : getOp b = some (opcode, vch, [])) (h : getOp script = none) :
    ¬ b <+: script := by
  rintro ⟨rest, rfl⟩
  rw [getOp_append hb rest] at h
  cases h

/-! ## Running -/

theorem here_iff (front : CScript) :
    b.length ≤ (front ++ script).length - front.length ∧
        ((front ++ script).drop front.length).take b.length = b ↔ b <+: script := by
  rw [List.length_append, Nat.add_sub_cancel_left, List.drop_left]
  constructor
  · rintro ⟨-, h⟩
    rw [← h]
    exact List.take_prefix _ _
  · intro h
    exact ⟨h.length_le, (List.prefix_iff_eq_take.1 h).symm⟩

theorem deleteFrom_of_none (hb : getOp b = some (opcode, vch, [])) (h : getOp script = none)
    (front : CScript) (nFound fuel : ℕ) :
    deleteFrom b (fuel + 1) (front ++ script) front.length nFound = some (nFound, front ++ script) := by
  rw [deleteFrom, if_neg (mt (here_iff front).1 (not_prefix_of_none hb h)), List.drop_left, h]

/-- A copy is erased. -/
theorem deleteFrom_erase (front pc : CScript) (nFound fuel : ℕ) :
    deleteFrom b (fuel + 1) (front ++ (b ++ pc)) front.length nFound =
      deleteFrom b fuel (front ++ pc) front.length (nFound + 1) := by
  rw [deleteFrom, if_pos ((here_iff front).2 (List.prefix_append b pc)), List.take_left,
    ← List.drop_drop, List.drop_left, List.drop_left]

/-- The iterator steps over an instruction. -/
theorem deleteFrom_step (hne : ¬ b <+: script) (h : getOp script = some (opcode', vch', pc))
    (front : CScript) (nFound fuel : ℕ) :
    deleteFrom b (fuel + 1) (front ++ script) front.length nFound =
      deleteFrom b fuel ((front ++ script.take (script.length - pc.length)) ++ pc)
        (front ++ script.take (script.length - pc.length)).length nFound := by
  have hall : front ++ script = (front ++ script.take (script.length - pc.length)) ++ pc := by
    rw [List.append_assoc, ← eq_append_of_getOp h]
  rw [deleteFrom, if_neg (mt (here_iff front).1 hne), List.drop_left, h]
  dsimp only
  rw [hall, List.length_append, Nat.add_sub_cancel]

/-- **The loop from an instruction on.**  In front of it everything stays. -/
theorem deleteFrom_operations (hb : getOp b = some (opcode, vch, [])) (script front : CScript)
    (nFound : ℕ) {fuel : ℕ} (hfuel : script.length < fuel) :
    deleteFrom b fuel (front ++ script) front.length nFound =
      some (nFound + (operations script).1.count b,
        front ++ (((operations script).1.filter (· ≠ b)).flatten ++ (operations script).2)) := by
  induction script using instructions_induction generalizing front nFound fuel with
  | tail script h =>
    obtain ⟨n, rfl⟩ : ∃ n, fuel = n + 1 := ⟨fuel - 1, by omega⟩
    rw [deleteFrom_of_none hb h, operations_of_none h]
    rfl
  | op script opcode' vch' pc h ih =>
    obtain ⟨n, rfl⟩ : ∃ n, fuel = n + 1 := ⟨fuel - 1, by omega⟩
    have hlt := length_of_getOp h
    rw [operations_of_getOp h]
    by_cases heq : script.take (script.length - pc.length) = b
    · have hscript := eq_append_of_getOp h
      rw [heq] at hscript
      rw [heq, List.count_cons_self, List.filter_cons_of_neg (by simp), hscript, deleteFrom_erase,
        ih front (nFound + 1) (by omega), Nat.add_assoc, Nat.add_comm 1]
    · rw [deleteFrom_step (mt (prefix_iff_of_getOp hb h).1 heq) h,
        ih _ nFound (by omega), List.count_cons_of_ne heq, List.filter_cons_of_pos (by simpa using heq),
        List.flatten_cons, List.append_assoc, List.append_assoc]

end

/-! ## The script that the interpreter goes on with -/

section

variable {b : CScript}

/-- Erasing never needs more rounds than there are bytes. -/
theorem eraseHere_eq (hb : b ≠ []) {fuel : ℕ} {pc : CScript} (h : pc.length ≤ fuel) :
    eraseHere b fuel pc = eraseHere b pc.length pc := by
  have hpos := List.length_pos_iff.2 hb
  induction fuel using Nat.strong_induction_on generalizing pc with
  | _ fuel ih =>
    by_cases hpre : b <+: pc
    · obtain ⟨rest, rfl⟩ := hpre
      rw [List.length_append] at h
      obtain ⟨n, rfl⟩ : ∃ n, fuel = n + 1 := ⟨fuel - 1, by omega⟩
      obtain ⟨m, hm⟩ : ∃ m, (b ++ rest).length = m + 1 :=
        ⟨b.length - 1 + rest.length, by rw [List.length_append]; omega⟩
      have hle : rest.length ≤ m := by
        rw [List.length_append] at hm
        omega
      have hpre := List.prefix_append b rest
      rw [hm, eraseHere, eraseHere, if_pos hpre, if_pos hpre, List.drop_left,
        ih n (by omega) (by omega)]
      exact (ih m (by rw [List.length_append] at hm; omega) hle).symm
    · rw [eraseHere_of_not_start hpre, eraseHere_of_not_start hpre]

theorem findAndDeleteFrom_append (hb : b ≠ []) (fuel : ℕ) (pc : CScript) :
    findAndDeleteFrom b (fuel + 1) (b ++ pc) = findAndDeleteFrom b (fuel + 1) pc := by
  have hpos := List.length_pos_iff.2 hb
  obtain ⟨m, hm⟩ : ∃ m, (b ++ pc).length = m + 1 :=
    ⟨b.length - 1 + pc.length, by rw [List.length_append]; omega⟩
  have herase : eraseHere b (b ++ pc).length (b ++ pc) = eraseHere b pc.length pc := by
    rw [hm, eraseHere, if_pos (List.prefix_append b pc), List.drop_left]
    exact eraseHere_eq hb (by rw [List.length_append] at hm; omega)
  rw [findAndDeleteFrom, findAndDeleteFrom, herase]

theorem deleteFrom_eq (hb : b ≠ []) (script front : CScript) (nFound : ℕ) {fuel fuel' : ℕ}
    (hfuel : script.length < fuel) (hfuel' : script.length < fuel') :
    ∃ n, deleteFrom b fuel (front ++ script) front.length nFound =
      some (n, front ++ findAndDeleteFrom b fuel' script) := by
  have hpos := List.length_pos_iff.2 hb
  induction hn : script.length using Nat.strong_induction_on
    generalizing script front nFound fuel fuel' with
  | _ n ih =>
    obtain ⟨k, rfl⟩ : ∃ k, fuel = k + 1 := ⟨fuel - 1, by omega⟩
    obtain ⟨k', rfl⟩ : ∃ k', fuel' = k' + 1 := ⟨fuel' - 1, by omega⟩
    by_cases hpre : b <+: script
    · obtain ⟨pc, rfl⟩ := hpre
      rw [List.length_append] at hn hfuel hfuel'
      rw [deleteFrom_erase, findAndDeleteFrom_append hb]
      exact ih pc.length (by omega) pc front (nFound + 1) (by omega) (by omega) rfl
    · cases hget : getOp script with
      | none =>
        refine ⟨nFound, ?_⟩
        rw [deleteFrom, if_neg (mt (here_iff front).1 hpre), List.drop_left, hget,
          findAndDeleteFrom, eraseHere_of_not_start hpre, hget]
      | some o =>
        obtain ⟨opcode, vch, pc⟩ := o
        have hlt := length_of_getOp hget
        obtain ⟨m, hm⟩ := ih pc.length (by omega) pc
          (front ++ script.take (script.length - pc.length)) nFound
          (by omega : pc.length < k) (by omega : pc.length < k') rfl
        refine ⟨m, ?_⟩
        rw [deleteFrom_step hpre hget, hm, findAndDeleteFrom, eraseHere_of_not_start hpre, hget,
          List.append_assoc]

/-- In place or not, the same script is left. -/
theorem map_snd_deleteInPlace (b script : CScript) :
    (deleteInPlace b script).map Prod.snd = some (findAndDelete b script) := by
  unfold deleteInPlace findAndDelete
  split_ifs with hb
  · rfl
  · obtain ⟨n, hn⟩ := deleteFrom_eq hb script [] 0 (Nat.lt_succ_self _) (Nat.lt_succ_self _)
    rw [List.nil_append, List.nil_append, List.length_nil] at hn
    rw [hn]
    rfl

end

/-- **Deleting a push.**  For every script, and for the push of every vector whose size fits in the
four bytes for it, `FindAndDelete` comes to its end, returns how many operations of the script are
that push, and leaves the other operations in their order and then the tail that cannot be parsed. -/
theorem findAndDelete_push {vch : valtype} (hvch : vch.length < 2 ^ 32) (script : CScript) :
    deleteInPlace (pushData vch) script = some ((operations script).1.count (pushData vch),
      ((operations script).1.filter (· ≠ pushData vch)).flatten ++ (operations script).2) ∧
    findAndDelete (pushData vch) script =
      ((operations script).1.filter (· ≠ pushData vch)).flatten ++ (operations script).2 := by
  obtain ⟨opcode, -, hget⟩ := getOp_pushData_of_lt hvch []
  rw [List.append_nil] at hget
  have hall := deleteFrom_operations hget script [] 0 (Nat.lt_succ_self _)
  rw [List.nil_append, List.length_nil, Nat.zero_add, List.nil_append] at hall
  have hplace : deleteInPlace (pushData vch) script =
      some ((operations script).1.count (pushData vch),
        ((operations script).1.filter (· ≠ pushData vch)).flatten ++ (operations script).2) := by
    rw [deleteInPlace, if_neg (pushData_ne_nil vch)]
    exact hall
  refine ⟨hplace, ?_⟩
  have hsnd := map_snd_deleteInPlace (pushData vch) script
  rw [hplace] at hsnd
  exact (Option.some.inj hsnd).symm

/-- Two copies of a push one behind the other, another at the end of the operations, and a push that
is cut off. -/
theorem findAndDelete_push_sample :
    deleteInPlace (pushData [7]) [1, 7, 1, 7, 2, 1, 7, 0x51, 1, 7, 3, 1, 7] =
      some (3, [2, 1, 7, 0x51, 3, 1, 7]) := by
  have hall := (findAndDelete_push (by decide : ([7] : valtype).length < 2 ^ 32)
    [1, 7, 1, 7, 2, 1, 7, 0x51, 1, 7, 3, 1, 7]).1
  rw [hall]
  decide +kernel

end Bws
