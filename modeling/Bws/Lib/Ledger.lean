import Mathlib.Logic.Function.Basic
import Mathlib.Data.List.Basic
import Mathlib.Data.List.Induction
import Mathlib.Data.List.Nodup

/-!
# A ledger of outputs and their spenders

An *index* records, for each transaction name, where the transaction is and one slot for each
of its outputs; a slot is null until a transaction spends the output, and then says where the
spender is.  *Connecting* a transaction fills the slots its inputs name, each of which must
exist and be null, and adds a record of its own; *disconnecting* it empties those slots again
and drops the record.

Nothing here knows what a transaction pays, how a name is computed or how an index is stored.
The results are

* `disconnect_connect`: disconnecting undoes connecting, exactly;
* `Describes`: what an index built from nothing says about the list of transactions it was
  built from, kept by each `connect` (`Describes.connect`);
* `nodup_ins_of_connectAll`: no output is spent twice in the whole list;
* `fresh_of_connectAll`: a name can come back only through a transaction that spends nothing.
-/

universe u v

namespace Ledger

/-- A slot value: some values count as null, and one of them is the null that gets written. -/
class Slots (S : Type v) where
  null : S
  isNull : S → Bool
  isNull_null : isNull null = true

export Slots (null isNull isNull_null)

attribute [simp] isNull_null

/-- The record of one transaction. -/
structure Entry (S : Type v) where
  /-- where the transaction is -/
  pos : S
  /-- for each output, where its spender is -/
  vSpent : List S
deriving DecidableEq, Repr

/-- The records of all transactions. -/
abbrev Index (I : Type u) (S : Type v) := I → Option (Entry S)

/-- What the ledger needs to know about a transaction. -/
structure Tx (I : Type u) where
  id : I
  ins : List (I × ℕ)
  nOut : ℕ

variable {I : Type u} {S : Type v}

/-- Where a transaction is. -/
def pos? (idx : Index I S) (i : I) : Option S := (idx i).map Entry.pos

/-- The slot of an output. -/
def slot? (idx : Index I S) (o : I × ℕ) : Option S := (idx o.1).bind (·.vSpent[o.2]?)

theorem eq_none_iff_pos? {idx : Index I S} {i : I} : idx i = none ↔ pos? idx i = none := by
  simp [pos?]

/-- Two indices with the same positions and the same slots are the same. -/
theorem index_ext {idx idx' : Index I S} (hp : ∀ i, pos? idx i = pos? idx' i)
    (hs : ∀ o, slot? idx o = slot? idx' o) : idx = idx' := by
  funext i
  have hi := hp i
  unfold pos? at hi
  cases h : idx i with
  | none =>
    cases h' : idx' i with
    | none => rfl
    | some e' => simp [h, h'] at hi
  | some e =>
    cases h' : idx' i with
    | none => simp [h, h'] at hi
    | some e' =>
      have hpos : e.pos = e'.pos := by simpa [h, h'] using hi
      have hspent : e.vSpent = e'.vSpent := by
        refine List.ext_getElem? fun n ↦ ?_
        simpa [slot?, h, h'] using hs (i, n)
      cases e
      cases e'
      simp_all

/-- A slot belongs to a record. -/
theorem pos?_isSome_of_slot? {idx : Index I S} {o : I × ℕ} {s : S} (h : slot? idx o = some s) :
    (pos? idx o.1).isSome := by
  unfold slot? at h
  unfold pos?
  cases h' : idx o.1 with
  | none => simp [h'] at h
  | some e => rfl

variable [DecidableEq I]

/-! ## Writing one slot -/

/-- Overwrite the slot of an output; the slot must exist. -/
def setSlot (idx : Index I S) (o : I × ℕ) (s : S) : Option (Index I S) :=
  match idx o.1 with
  | none => none
  | some e =>
    if o.2 < e.vSpent.length then
      some (Function.update idx o.1 (some { e with vSpent := e.vSpent.set o.2 s }))
    else none

theorem setSlot_isSome {idx : Index I S} {o : I × ℕ} {s : S} :
    (setSlot idx o s).isSome ↔ (slot? idx o).isSome := by
  unfold setSlot slot?
  cases idx o.1 with
  | none => simp
  | some e =>
    by_cases h : o.2 < e.vSpent.length <;> simp [h]

theorem pos?_setSlot {idx idx' : Index I S} {o : I × ℕ} {s : S}
    (h : setSlot idx o s = some idx') (i : I) : pos? idx' i = pos? idx i := by
  unfold setSlot at h
  cases he : idx o.1 with
  | none => simp [he] at h
  | some e =>
    simp only [he] at h
    split at h
    · cases h
      by_cases hi : i = o.1
      · subst hi
        simp [pos?, he]
      · simp [pos?, Function.update_of_ne hi]
    · cases h

theorem slot?_setSlot {idx idx' : Index I S} {o : I × ℕ} {s : S}
    (h : setSlot idx o s = some idx') (o' : I × ℕ) :
    slot? idx' o' = if o' = o then some s else slot? idx o' := by
  unfold setSlot at h
  cases he : idx o.1 with
  | none => simp [he] at h
  | some e =>
    simp only [he] at h
    split at h
    · rename_i hlt
      cases h
      obtain ⟨i, n⟩ := o
      obtain ⟨i', n'⟩ := o'
      by_cases hi : i' = i
      · subst hi
        by_cases hn : n' = n
        · subst hn
          simp [slot?, List.getElem?_set_self hlt]
        · simp [slot?, he, hn, Ne.symm hn]
      · simp [slot?, hi]
    · cases h

/-! ## Spending and releasing the inputs of a transaction -/

variable [Slots S]

/-- Fill the slot of an output that has not been spent. -/
def spend (idx : Index I S) (p : S) (o : I × ℕ) : Option (Index I S) :=
  match slot? idx o with
  | some s => if isNull s then setSlot idx o p else none
  | none => none

/-- Fill the slots of a list of outputs. -/
def spendAll (idx : Index I S) (p : S) : List (I × ℕ) → Option (Index I S)
  | [] => some idx
  | o :: os => (spend idx p o).bind fun idx' ↦ spendAll idx' p os

/-- Empty the slots of a list of outputs. -/
def releaseAll (idx : Index I S) : List (I × ℕ) → Option (Index I S)
  | [] => some idx
  | o :: os => (setSlot idx o null).bind fun idx' ↦ releaseAll idx' os

theorem spend_eq_some {idx idx' : Index I S} {p : S} {o : I × ℕ} (h : spend idx p o = some idx') :
    (∃ s, slot? idx o = some s ∧ isNull s = true) ∧ setSlot idx o p = some idx' := by
  unfold spend at h
  cases hs : slot? idx o with
  | none => simp [hs] at h
  | some s =>
    simp only [hs] at h
    split at h
    · rename_i hn
      exact ⟨⟨s, rfl, hn⟩, h⟩
    · cases h

theorem pos?_spendAll {p : S} {os : List (I × ℕ)} : ∀ {idx idx' : Index I S},
    spendAll idx p os = some idx' → ∀ i, pos? idx' i = pos? idx i := by
  induction os with
  | nil =>
    rintro idx _ ⟨⟩ i
    rfl
  | cons o os ih =>
    intro idx idx' h i
    obtain ⟨idx₁, h₁, h₂⟩ := Option.bind_eq_some_iff.mp h
    rw [ih h₂, pos?_setSlot (spend_eq_some h₁).2]

theorem slot?_spendAll {p : S} {os : List (I × ℕ)} : ∀ {idx idx' : Index I S},
    spendAll idx p os = some idx' → ∀ o,
      slot? idx' o = if o ∈ os then some p else slot? idx o := by
  induction os with
  | nil =>
    rintro idx _ ⟨⟩ o
    simp
  | cons o' os ih =>
    intro idx idx' h o
    obtain ⟨idx₁, h₁, h₂⟩ := Option.bind_eq_some_iff.mp h
    rw [ih h₂, slot?_setSlot (spend_eq_some h₁).2]
    by_cases ho : o = o' <;> by_cases hos : o ∈ os <;> simp [ho, hos]

/-- Every output that gets spent was there, and unspent. -/
theorem null_of_spendAll {p : S} {os : List (I × ℕ)} : ∀ {idx idx' : Index I S},
    spendAll idx p os = some idx' → ∀ o ∈ os, ∃ s, slot? idx o = some s ∧ isNull s = true := by
  induction os with
  | nil => intro _ _ _ o ho; cases ho
  | cons o' os ih =>
    intro idx idx' h o ho
    obtain ⟨idx₁, h₁, h₂⟩ := Option.bind_eq_some_iff.mp h
    obtain ⟨hs, hset⟩ := spend_eq_some h₁
    by_cases heq : o = o'
    · exact heq ▸ hs
    · obtain ⟨s, hs', hn⟩ := ih h₂ o ((List.mem_cons.mp ho).resolve_left heq)
      rw [slot?_setSlot hset, if_neg heq] at hs'
      exact ⟨s, hs', hn⟩

/-- A transaction that spends names no output twice. -/
theorem nodup_of_spendAll {p : S} (hp : isNull p = false) {os : List (I × ℕ)} :
    ∀ {idx idx' : Index I S}, spendAll idx p os = some idx' → os.Nodup := by
  induction os with
  | nil => intro _ _ _; exact List.nodup_nil
  | cons o os ih =>
    intro idx idx' h
    obtain ⟨idx₁, h₁, h₂⟩ := Option.bind_eq_some_iff.mp h
    refine List.nodup_cons.mpr ⟨fun ho ↦ ?_, ih h₂⟩
    obtain ⟨s, hs, hn⟩ := null_of_spendAll h₂ o ho
    rw [slot?_setSlot (spend_eq_some h₁).2, if_pos rfl] at hs
    cases hs
    rw [hp] at hn
    cases hn

theorem releaseAll_eq_some {os : List (I × ℕ)} : ∀ {idx : Index I S},
    (∀ o ∈ os, (slot? idx o).isSome) → ∃ idx', releaseAll idx os = some idx' ∧
      (∀ i, pos? idx' i = pos? idx i) ∧
      ∀ o, slot? idx' o = if o ∈ os then some null else slot? idx o := by
  induction os with
  | nil => exact fun _ ↦ ⟨_, rfl, fun _ ↦ rfl, by simp⟩
  | cons o os ih =>
    intro idx hall
    obtain ⟨idx₁, h₁⟩ := Option.isSome_iff_exists.mp
      (setSlot_isSome (s := null).mpr (hall o (by simp)))
    have hall₁ : ∀ o' ∈ os, (slot? idx₁ o').isSome := fun o' ho' ↦ by
      rw [slot?_setSlot h₁]
      split
      · rfl
      · exact hall o' (by simp [ho'])
    obtain ⟨idx', h', hpos, hslot⟩ := ih hall₁
    refine ⟨idx', by rw [releaseAll, h₁]; exact h', fun i ↦ by rw [hpos, pos?_setSlot h₁], ?_⟩
    intro o'
    rw [hslot, slot?_setSlot h₁]
    by_cases ho : o' = o <;> by_cases hos : o' ∈ os <;> simp [ho, hos]

/-! ## Connecting and disconnecting a transaction -/

/-- Connect a transaction that is at `p`: spend its inputs, then record it. -/
def connect (idx : Index I S) (t : Tx I) (p : S) : Option (Index I S) :=
  (spendAll idx p t.ins).map fun idx' ↦
    Function.update idx' t.id (some ⟨p, List.replicate t.nOut null⟩)

/-- Disconnect a transaction: release its inputs, then drop its record. -/
def disconnect (idx : Index I S) (t : Tx I) : Option (Index I S) :=
  (releaseAll idx t.ins).map fun idx' ↦ Function.update idx' t.id none

/-- Every slot that counts as null holds the null that gets written. -/
def Canonical (idx : Index I S) : Prop := ∀ o s, slot? idx o = some s → isNull s = true → s = null

theorem pos?_connect {idx idx' : Index I S} {t : Tx I} {p : S}
    (h : connect idx t p = some idx') (i : I) :
    pos? idx' i = if i = t.id then some p else pos? idx i := by
  obtain ⟨idx₁, h₁, rfl⟩ := Option.map_eq_some_iff.mp h
  by_cases hi : i = t.id
  · simp [pos?, hi]
  · rw [if_neg hi, ← pos?_spendAll h₁]
    simp [pos?, Function.update_of_ne hi]

theorem slot?_connect {idx idx' : Index I S} {t : Tx I} {p : S}
    (h : connect idx t p = some idx') (o : I × ℕ) :
    slot? idx' o =
      if o.1 = t.id then (if o.2 < t.nOut then some null else none)
      else if o ∈ t.ins then some p else slot? idx o := by
  obtain ⟨idx₁, h₁, rfl⟩ := Option.map_eq_some_iff.mp h
  by_cases hi : o.1 = t.id
  · simp [slot?, hi, List.getElem?_replicate]
  · rw [if_neg hi, ← slot?_spendAll h₁]
    simp [slot?, Function.update_of_ne hi]

/-- The inputs of a connected transaction were there, and unspent. -/
theorem null_of_connect {idx idx' : Index I S} {t : Tx I} {p : S}
    (h : connect idx t p = some idx') {o : I × ℕ} (ho : o ∈ t.ins) :
    ∃ s, slot? idx o = some s ∧ isNull s = true := by
  obtain ⟨idx₁, h₁, -⟩ := Option.map_eq_some_iff.mp h
  exact null_of_spendAll h₁ o ho

theorem nodup_of_connect {idx idx' : Index I S} {t : Tx I} {p : S} (hp : isNull p = false)
    (h : connect idx t p = some idx') : t.ins.Nodup := by
  obtain ⟨idx₁, h₁, -⟩ := Option.map_eq_some_iff.mp h
  exact nodup_of_spendAll hp h₁

theorem Canonical.connect {idx idx' : Index I S} {t : Tx I} {p : S} (hp : isNull p = false)
    (hc : Canonical idx) (h : connect idx t p = some idx') : Canonical idx' := by
  intro o s hs hn
  rw [slot?_connect h] at hs
  split at hs
  · split at hs
    · exact (Option.some.inj hs).symm
    · cases hs
  · split at hs
    · cases hs
      rw [hp] at hn
      cases hn
    · exact hc o s hs hn

/-- A fresh name is not an input of the transaction that takes it. -/
theorem id_ne_of_connect {idx idx' : Index I S} {t : Tx I} {p : S}
    (hfresh : idx t.id = none) (h : connect idx t p = some idx') {o : I × ℕ} (ho : o ∈ t.ins) :
    o.1 ≠ t.id := by
  intro hid
  obtain ⟨s, hs, -⟩ := null_of_connect h ho
  simp [slot?, hid, hfresh] at hs

/-- **Disconnecting undoes connecting.** -/
theorem disconnect_connect {idx idx' : Index I S} {t : Tx I} {p : S}
    (hc : Canonical idx) (hfresh : idx t.id = none) (h : connect idx t p = some idx') :
    disconnect idx' t = some idx := by
  have hsome : ∀ o ∈ t.ins, (slot? idx' o).isSome := fun o ho ↦ by
    rw [slot?_connect h, if_neg (id_ne_of_connect hfresh h ho), if_pos ho]
    rfl
  obtain ⟨idx₁, h₁, hpos, hslot⟩ := releaseAll_eq_some hsome
  have heq : Function.update idx₁ t.id none = idx := by
    apply index_ext
    · intro i
      by_cases hi : i = t.id
      · simp [pos?, hi, hfresh]
      · have := hpos i
        rw [pos?_connect h, if_neg hi] at this
        simpa [pos?, Function.update_of_ne hi] using this
    · intro o
      by_cases hi : o.1 = t.id
      · simp [slot?, hi, hfresh]
      · have ho := hslot o
        rw [slot?_connect h, if_neg hi] at ho
        have hu : slot? (Function.update idx₁ t.id none) o = slot? idx₁ o := by
          simp [slot?, Function.update_of_ne hi]
        rw [hu, ho]
        split
        · rename_i hin
          obtain ⟨s, hs, hn⟩ := null_of_connect h hin
          rw [hs, hc o s hs hn]
        · rfl
  rw [disconnect, h₁, Option.map_some, heq]

/-! ## Filled slots -/

/-- The output is there, and has been spent. -/
def Filled (idx : Index I S) (o : I × ℕ) : Prop := ∃ s, slot? idx o = some s ∧ isNull s = false

section

variable {idx idx' : Index I S} {t : Tx I} {p : S}

/-- A fresh transaction that is connected leaves filled slots filled. -/
theorem Filled.connect {o : I × ℕ} (h : Filled idx o) (hp : isNull p = false)
    (hfresh : idx t.id = none) (hc : Ledger.connect idx t p = some idx') : Filled idx' o := by
  obtain ⟨s, hs, hn⟩ := h
  have hid : o.1 ≠ t.id := by
    intro hid
    simp [slot?, hid, hfresh] at hs
  have hslot := slot?_connect hc o
  rw [if_neg hid] at hslot
  by_cases ho : o ∈ t.ins
  · rw [if_pos ho] at hslot
    exact ⟨p, hslot, hp⟩
  · rw [if_neg ho] at hslot
    exact ⟨s, hslot.trans hs, hn⟩

/-- It fills the slots of what it spends. -/
theorem filled_of_connect {o : I × ℕ} (ho : o ∈ t.ins) (hp : isNull p = false)
    (hfresh : idx t.id = none) (hc : Ledger.connect idx t p = some idx') : Filled idx' o := by
  have hslot := slot?_connect hc o
  rw [if_neg (id_ne_of_connect hfresh hc ho), if_pos ho] at hslot
  exact ⟨p, hslot, hp⟩

/-- They have not been filled before. -/
theorem not_filled_of_connect {o : I × ℕ} (ho : o ∈ t.ins)
    (hc : Ledger.connect idx t p = some idx') : ¬ Filled idx o := by
  rintro ⟨s, hs, hn⟩
  obtain ⟨s', hs', hn'⟩ := null_of_connect hc ho
  cases hs.symm.trans hs'
  rw [hn] at hn'
  cases hn'

end

/-! ## Lists of transactions -/

/-- Connect a list of transactions, each at its position, in order. -/
def connectAll (idx : Index I S) : List (Tx I × S) → Option (Index I S)
  | [] => some idx
  | tp :: L => (connect idx tp.1 tp.2).bind fun idx' ↦ connectAll idx' L

/-- Disconnect a list of transactions, in order. -/
def disconnectAll (idx : Index I S) : List (Tx I) → Option (Index I S)
  | [] => some idx
  | t :: L => (disconnect idx t).bind fun idx' ↦ disconnectAll idx' L

theorem connectAll_append {L L' : List (Tx I × S)} : ∀ {idx : Index I S},
    connectAll idx (L ++ L') = (connectAll idx L).bind fun idx' ↦ connectAll idx' L' := by
  induction L with
  | nil => intro idx; rfl
  | cons tp L ih =>
    intro idx
    rw [List.cons_append, connectAll, connectAll]
    cases connect idx tp.1 tp.2 with
    | none => rfl
    | some idx' => exact ih

theorem disconnectAll_append {L L' : List (Tx I)} : ∀ {idx : Index I S},
    disconnectAll idx (L ++ L') =
      (disconnectAll idx L).bind fun idx' ↦ disconnectAll idx' L' := by
  induction L with
  | nil => intro idx; rfl
  | cons t L ih =>
    intro idx
    rw [List.cons_append, disconnectAll, disconnectAll]
    cases disconnect idx t with
    | none => rfl
    | some idx' => exact ih

/-- A record that was not there before is one of the list. -/
theorem mem_of_pos?_connectAll {L : List (Tx I × S)} : ∀ {idx idx' : Index I S},
    connectAll idx L = some idx' → ∀ {i : I} {p : S}, pos? idx' i = some p →
      pos? idx i = some p ∨ ∃ tp ∈ L, tp.1.id = i ∧ tp.2 = p := by
  induction L with
  | nil =>
    rintro idx _ ⟨⟩ i p hp
    exact .inl hp
  | cons tp L ih =>
    intro idx idx' h i p hp
    obtain ⟨idx₁, h₁, h₂⟩ := Option.bind_eq_some_iff.mp h
    rcases ih h₂ hp with hp | ⟨tp', hmem, hid⟩
    · rw [pos?_connect h₁] at hp
      split at hp
      · rename_i hi
        exact .inr ⟨tp, List.mem_cons_self, hi.symm, Option.some.inj hp⟩
      · exact .inl hp
    · exact .inr ⟨tp', List.mem_cons_of_mem tp hmem, hid⟩

/-- What connecting the list `L` needs of the index it starts from. -/
structure Fresh (idx : Index I S) (L : List (Tx I × S)) : Prop where
  nodup : (L.map (·.1.id)).Nodup
  notMem : ∀ tp ∈ L, idx tp.1.id = none
  pos : ∀ tp ∈ L, isNull tp.2 = false

omit [DecidableEq I] in
theorem Fresh.head {idx : Index I S} {tp : Tx I × S} {L : List (Tx I × S)}
    (h : Fresh idx (tp :: L)) : idx tp.1.id = none := h.notMem tp (by simp)

theorem Fresh.tail {idx idx' : Index I S} {tp : Tx I × S} {L : List (Tx I × S)}
    (h : Fresh idx (tp :: L)) (hc : Ledger.connect idx tp.1 tp.2 = some idx') :
    Fresh idx' L where
  nodup := (List.nodup_cons.mp h.nodup).2
  notMem tp' h' := by
    rw [eq_none_iff_pos?, pos?_connect hc, if_neg, ← eq_none_iff_pos?]
    · exact h.notMem tp' (by simp [h'])
    · intro heq
      exact (List.nodup_cons.mp h.nodup).1 (List.mem_map.mpr ⟨tp', h', heq⟩)
  pos tp' h' := h.pos tp' (by simp [h'])

omit [DecidableEq I] in
theorem Fresh.left {idx : Index I S} {L L' : List (Tx I × S)} (h : Fresh idx (L ++ L')) :
    Fresh idx L where
  nodup := (List.nodup_append.mp (List.map_append ▸ h.nodup)).1
  notMem tp htp := h.notMem tp (List.mem_append_left _ htp)
  pos tp htp := h.pos tp (List.mem_append_left _ htp)

/-- Disconnecting a list in the reverse order undoes connecting it. -/
theorem disconnectAll_connectAll {L : List (Tx I × S)} : ∀ {idx idx' : Index I S},
    Canonical idx → Fresh idx L → connectAll idx L = some idx' →
      disconnectAll idx' (L.map Prod.fst).reverse = some idx := by
  induction L with
  | nil =>
    rintro idx _ _ _ ⟨⟩
    rfl
  | cons tp L ih =>
    intro idx idx' hc hf h
    obtain ⟨idx₁, h₁, h₂⟩ := Option.bind_eq_some_iff.mp h
    have hp := hf.pos tp (by simp)
    rw [List.map_cons, List.reverse_cons, disconnectAll_append,
      ih (hc.connect hp h₁) (hf.tail h₁) h₂, Option.bind_some, disconnectAll,
      disconnect_connect hc hf.head h₁]
    rfl

/-! ## What a list of fresh transactions spends -/

/-- A list of fresh transactions leaves filled slots filled. -/
theorem Filled.connectAll {L : List (Tx I × S)} : ∀ {idx idx' : Index I S} {o : I × ℕ},
    Filled idx o → Fresh idx L → Ledger.connectAll idx L = some idx' → Filled idx' o := by
  induction L with
  | nil =>
    rintro idx _ o h _ ⟨⟩
    exact h
  | cons tp L ih =>
    intro idx idx' o h hf hc
    obtain ⟨idx₁, h₁, h₂⟩ := Option.bind_eq_some_iff.mp hc
    exact ih (h.connect (hf.pos tp List.mem_cons_self) hf.head h₁) (hf.tail h₁) h₂

/-- It fills the slots of what it spends, which have not been filled before. -/
theorem filled_of_connectAll {L : List (Tx I × S)} : ∀ {idx idx' : Index I S}, Fresh idx L →
    connectAll idx L = some idx' → ∀ o ∈ L.flatMap (·.1.ins), ¬ Filled idx o ∧ Filled idx' o := by
  induction L with
  | nil => exact fun _ _ _ ho ↦ absurd ho List.not_mem_nil
  | cons tp L ih =>
    intro idx idx' hf hc o ho
    obtain ⟨idx₁, h₁, h₂⟩ := Option.bind_eq_some_iff.mp hc
    have hp := hf.pos tp List.mem_cons_self
    rw [List.flatMap_cons, List.mem_append] at ho
    rcases ho with ho | ho
    · exact ⟨not_filled_of_connect ho h₁,
        (filled_of_connect ho hp hf.head h₁).connectAll (hf.tail h₁) h₂⟩
    · obtain ⟨hnot, hfilled⟩ := ih (hf.tail h₁) h₂ o ho
      exact ⟨fun hold ↦ hnot (hold.connect hp hf.head h₁), hfilled⟩

/-- It spends no output twice, whatever the index it starts from. -/
theorem Fresh.nodup_ins {L : List (Tx I × S)} : ∀ {idx idx' : Index I S}, Fresh idx L →
    Ledger.connectAll idx L = some idx' → (L.flatMap (·.1.ins)).Nodup := by
  induction L with
  | nil => exact fun _ _ ↦ List.nodup_nil
  | cons tp L ih =>
    intro idx idx' hf hc
    obtain ⟨idx₁, h₁, h₂⟩ := Option.bind_eq_some_iff.mp hc
    have hp := hf.pos tp List.mem_cons_self
    rw [List.flatMap_cons, List.nodup_append]
    refine ⟨nodup_of_connect hp h₁, ih (hf.tail h₁) h₂, ?_⟩
    rintro o ho _ ho' rfl
    exact (filled_of_connectAll (hf.tail h₁) h₂ o ho').1 (filled_of_connect ho hp hf.head h₁)

/-- What a transaction of the list spends is in the index at the start, or comes earlier in the
list. -/
theorem isSome_or_mem_of_connectAll {idx idx' : Index I S} {A B : List (Tx I × S)} {tp : Tx I × S}
    (h : connectAll idx (A ++ tp :: B) = some idx') {o : I × ℕ} (ho : o ∈ tp.1.ins) :
    (idx o.1).isSome ∨ ∃ a ∈ A, a.1.id = o.1 := by
  rw [connectAll_append] at h
  obtain ⟨idx₁, h₁, h₂⟩ := Option.bind_eq_some_iff.mp h
  obtain ⟨idx₂, h₂, -⟩ := Option.bind_eq_some_iff.mp h₂
  obtain ⟨s, hs, -⟩ := null_of_connect h₂ ho
  obtain ⟨p, hp⟩ := Option.isSome_iff_exists.mp (pos?_isSome_of_slot? hs)
  rcases mem_of_pos?_connectAll h₁ hp with hp | ⟨a, hmem, hid, -⟩
  · rw [pos?] at hp
    exact Or.inl (by simpa using congrArg Option.isSome hp)
  · exact Or.inr ⟨a, hmem, hid⟩

omit [DecidableEq I] in
/-- One more transaction is fresh when its name is. -/
theorem Fresh.concat {idx : Index I S} {L : List (Tx I × S)} {tp : Tx I × S} (h : Fresh idx L)
    (hp : isNull tp.2 = false) (hnone : idx tp.1.id = none) (hnew : ∀ tp' ∈ L, tp'.1.id ≠ tp.1.id) :
    Fresh idx (L ++ [tp]) where
  nodup := by
    rw [List.map_append, List.nodup_append]
    refine ⟨h.nodup, List.nodup_singleton _, ?_⟩
    intro i hi j hj
    obtain ⟨tp', hmem, rfl⟩ := List.mem_map.mp hi
    rw [List.map_cons, List.map_nil, List.mem_singleton] at hj
    rw [hj]
    exact hnew tp' hmem
  notMem tp' hmem := by
    rcases List.mem_append.mp hmem with hmem | hmem
    · exact h.notMem tp' hmem
    · rwa [List.mem_singleton.mp hmem]
  pos tp' hmem := by
    rcases List.mem_append.mp hmem with hmem | hmem
    · exact h.pos tp' hmem
    · rwa [List.mem_singleton.mp hmem]

/-! ## What an index built from nothing says -/

/-- The index is the one that the list `L` of transactions, connected in order from nothing,
stands for. -/
structure Describes (idx : Index I S) (L : List (Tx I × S)) : Prop where
  /-- a record for each transaction of the list, at its position, and no other -/
  entry : ∀ i p, pos? idx i = some p ↔ ∃ t, (t, p) ∈ L ∧ t.id = i
  /-- a slot for each of its outputs and no other -/
  output : ∀ o, (slot? idx o).isSome ↔ ∃ t p, (t, p) ∈ L ∧ t.id = o.1 ∧ o.2 < t.nOut
  /-- a slot holds the position of the transaction that spends the output -/
  spender : ∀ t p o, (t, p) ∈ L → o ∈ t.ins → slot? idx o = some p
  /-- and is null when there is none -/
  unspent : ∀ o s, slot? idx o = some s → (∀ t p, (t, p) ∈ L → o ∉ t.ins) → s = null
  /-- every position is one -/
  pos : ∀ t p, (t, p) ∈ L → isNull p = false
  nodup : (L.map (·.1.id)).Nodup

omit [DecidableEq I] in
theorem describes_nil : Describes (fun _ ↦ none : Index I S) [] where
  entry := by simp [pos?]
  output := by simp [slot?]
  spender := by simp
  unspent := by simp [slot?]
  pos := by simp
  nodup := List.nodup_nil

namespace Describes

variable {idx idx' : Index I S} {L : List (Tx I × S)} {t : Tx I} {p : S}

omit [DecidableEq I] in
theorem eq_none (h : Describes idx L) {i : I} : idx i = none ↔ ∀ tp ∈ L, tp.1.id ≠ i := by
  rw [eq_none_iff_pos?, Option.eq_none_iff_forall_ne_some]
  constructor
  · rintro hne ⟨t, p⟩ htp hi
    exact hne p ((h.entry i p).mpr ⟨t, htp, hi⟩)
  · intro hne p hp
    obtain ⟨t, htp, hi⟩ := (h.entry i p).mp hp
    exact hne _ htp hi

omit [DecidableEq I] in
/-- A slot is filled exactly when a transaction of the list spends the output. -/
theorem isNull_iff (h : Describes idx L) {o : I × ℕ} {s : S} (hs : slot? idx o = some s) :
    isNull s = false ↔ ∃ t p, (t, p) ∈ L ∧ o ∈ t.ins := by
  constructor
  · intro hn
    by_contra hno
    have := h.unspent o s hs fun t p htp ho ↦ hno ⟨t, p, htp, ho⟩
    rw [this, isNull_null] at hn
    cases hn
  · rintro ⟨t, p, htp, ho⟩
    have := h.spender t p o htp ho
    rw [hs] at this
    cases this
    exact h.pos t s htp

omit [DecidableEq I] in
theorem canonical (h : Describes idx L) : Canonical idx := by
  intro o s hs hn
  refine h.unspent o s hs fun t p htp ho ↦ ?_
  have := (h.isNull_iff hs).mpr ⟨t, p, htp, ho⟩
  rw [hn] at this
  cases this

omit [DecidableEq I] in
/-- The rest of a list with distinct names is fresh for the index of its beginning. -/
theorem fresh {idx₀ : Index I S} {L' : List (Tx I × S)} (h : Describes idx L)
    (hf : Fresh idx₀ (L ++ L')) : Fresh idx L' where
  nodup := (List.nodup_append.mp (List.map_append ▸ hf.nodup)).2.1
  notMem tp htp := by
    refine h.eq_none.mpr fun tp' htp' heq ↦ ?_
    have hdis := (List.nodup_append.mp (List.map_append ▸ hf.nodup)).2.2
    exact hdis _ (List.mem_map.mpr ⟨tp', htp', rfl⟩) _ (List.mem_map.mpr ⟨tp, htp, rfl⟩) heq
  pos tp htp := hf.pos tp (List.mem_append_right _ htp)

/-- An output that the list spends cannot be spent by the next transaction. -/
theorem notMem_ins (h : Describes idx L)
    (hc : connect idx t p = some idx') {o : I × ℕ} (ho : o ∈ t.ins) {t' : Tx I} {p' : S}
    (htp : (t', p') ∈ L) : o ∉ t'.ins := by
  intro ho'
  obtain ⟨s, hs, hn⟩ := null_of_connect hc ho
  have := (h.isNull_iff hs).mpr ⟨t', p', htp, ho'⟩
  rw [hn] at this
  cases this

/-- A transaction with inputs cannot be connected a second time, under any name. -/
theorem connect_eq_none_of_mem (h : Describes idx L) {t' : Tx I} {p' : S}
    (htp : (t', p') ∈ L) {o : I × ℕ} (ho : o ∈ t.ins) (ho' : o ∈ t'.ins) :
    connect idx t p = none := by
  by_contra hne
  obtain ⟨idx', hc⟩ := Option.ne_none_iff_exists'.mp hne
  exact h.notMem_ins hc ho htp ho'

/-- **One more transaction.** -/
theorem connect (h : Describes idx L) (hp : isNull p = false) (hfresh : idx t.id = none)
    (hc : Ledger.connect idx t p = some idx') : Describes idx' (L ++ [(t, p)]) := by
  have hids := h.eq_none.mp hfresh
  -- an output with the fresh name is spent neither by the list nor by the transaction itself
  have hnew : ∀ t' p' o, (t', p') ∈ L ++ [(t, p)] → o ∈ t'.ins → o.1 ≠ t.id := by
    intro t' p' o htp ho hid
    rcases List.mem_append.mp htp with htp | htp
    · have hs := h.spender t' p' o htp ho
      have := pos?_isSome_of_slot? hs
      rw [hid, pos?, hfresh] at this
      cases this
    · cases List.mem_singleton.mp htp
      exact id_ne_of_connect hfresh hc ho hid
  refine ⟨fun i q ↦ ?_, fun o ↦ ?_, fun t' p' o htp ho ↦ ?_, fun o s hs hno ↦ ?_, ?_, ?_⟩
  · rw [pos?_connect hc]
    by_cases hi : i = t.id
    · subst hi
      rw [if_pos rfl]
      constructor
      · rintro ⟨⟩
        exact ⟨t, by simp, rfl⟩
      · rintro ⟨t', htp, hid⟩
        rcases List.mem_append.mp htp with htp | htp
        · exact absurd hid (hids _ htp)
        · cases List.mem_singleton.mp htp
          rfl
    · rw [if_neg hi, h.entry]
      constructor
      · rintro ⟨t', htp, hid⟩
        exact ⟨t', List.mem_append_left _ htp, hid⟩
      · rintro ⟨t', htp, hid⟩
        rcases List.mem_append.mp htp with htp | htp
        · exact ⟨t', htp, hid⟩
        · cases List.mem_singleton.mp htp
          exact absurd hid.symm hi
  · rw [slot?_connect hc]
    by_cases hi : o.1 = t.id
    · rw [if_pos hi]
      constructor
      · intro hsome
        split at hsome
        · rename_i hlt
          exact ⟨t, p, by simp, hi.symm, hlt⟩
        · cases hsome
      · rintro ⟨t', p', htp, hid, hlt⟩
        rcases List.mem_append.mp htp with htp | htp
        · exact absurd (hid.trans hi) (hids _ htp)
        · cases List.mem_singleton.mp htp
          rw [if_pos hlt]
          rfl
    · rw [if_neg hi]
      have hout : ((if o ∈ t.ins then some p else slot? idx o).isSome) ↔ (slot? idx o).isSome := by
        split
        · rename_i ho
          obtain ⟨s, hs, -⟩ := null_of_connect hc ho
          simp [hs]
        · rfl
      rw [hout, h.output]
      constructor
      · rintro ⟨t', p', htp, hid, hlt⟩
        exact ⟨t', p', List.mem_append_left _ htp, hid, hlt⟩
      · rintro ⟨t', p', htp, hid, hlt⟩
        rcases List.mem_append.mp htp with htp | htp
        · exact ⟨t', p', htp, hid, hlt⟩
        · cases List.mem_singleton.mp htp
          exact absurd hid.symm hi
  · rw [slot?_connect hc, if_neg (hnew t' p' o htp ho)]
    rcases List.mem_append.mp htp with htp | htp
    · rw [if_neg fun ho' ↦ h.notMem_ins hc ho' htp ho, h.spender t' p' o htp ho]
    · cases List.mem_singleton.mp htp
      rw [if_pos ho]
  · rw [slot?_connect hc] at hs
    split at hs
    · split at hs
      · exact (Option.some.inj hs).symm
      · cases hs
    · rw [if_neg (hno t p (by simp))] at hs
      exact h.unspent o s hs fun t' p' htp ↦ hno t' p' (by simp [htp])
  · intro t' p' htp
    rcases List.mem_append.mp htp with htp | htp
    · exact h.pos t' p' htp
    · cases List.mem_singleton.mp htp
      exact hp
  · rw [List.map_append, List.nodup_append]
    refine ⟨h.nodup, List.nodup_singleton _, ?_⟩
    intro i hi j hj
    obtain ⟨tp, htp, rfl⟩ := List.mem_map.mp hi
    rw [List.map_cons, List.map_nil, List.mem_singleton] at hj
    exact hj ▸ hids tp htp

/-- A list of transactions with fresh names. -/
theorem connectAll {L' : List (Tx I × S)} : ∀ {idx idx' : Index I S} {L : List (Tx I × S)},
    Describes idx L → Fresh idx L' → Ledger.connectAll idx L' = some idx' →
      Describes idx' (L ++ L') := by
  induction L' with
  | nil =>
    rintro idx _ L h _ ⟨⟩
    rwa [List.append_nil]
  | cons tp L' ih =>
    intro idx idx' L h hf hc
    obtain ⟨idx₁, h₁, h₂⟩ := Option.bind_eq_some_iff.mp hc
    have h' := h.connect (hf.pos tp (by simp)) hf.head h₁
    rw [show L ++ tp :: L' = L ++ [tp] ++ L' by simp]
    exact ih h' (hf.tail h₁) h₂

end Describes

/-! ## Lists connected from nothing -/

/-- **No output is spent twice.** -/
theorem nodup_ins_of_connectAll {L : List (Tx I × S)} : ∀ {idx : Index I S},
    Fresh (fun _ ↦ none) L → connectAll (fun _ ↦ none) L = some idx →
      (L.flatMap (·.1.ins)).Nodup := by
  induction L using List.reverseRecOn with
  | nil => exact fun _ _ ↦ List.nodup_nil
  | append_singleton L tp ih =>
    intro idx hf h
    rw [connectAll_append] at h
    obtain ⟨idx₁, h₁, h₂⟩ := Option.bind_eq_some_iff.mp h
    obtain ⟨idx₂, h₂, -⟩ := Option.bind_eq_some_iff.mp h₂
    have hd : Describes idx₁ L := describes_nil.connectAll hf.left h₁
    rw [List.flatMap_append, List.flatMap_singleton, List.nodup_append]
    refine ⟨ih hf.left h₁, nodup_of_connect (hf.pos tp (by simp)) h₂, ?_⟩
    rintro o ho _ ho' rfl
    obtain ⟨tp', htp', ho⟩ := List.mem_flatMap.mp ho
    exact hd.notMem_ins h₂ ho' htp' ho

/-- A name that comes back would have to be spent from again, unless its transaction spends
nothing: when those that spend nothing have distinct names, all have. -/
theorem fresh_of_connectAll {L : List (Tx I × S)} : ∀ {idx : Index I S},
    connectAll (fun _ ↦ none) L = some idx → (∀ tp ∈ L, isNull tp.2 = false) →
      (∀ tp ∈ L, ∀ tp' ∈ L, tp.1.id = tp'.1.id → tp.1.ins = tp'.1.ins) →
      ((L.filter (·.1.ins.isEmpty)).map (·.1.id)).Nodup → Fresh (fun _ ↦ none) L := by
  induction L using List.reverseRecOn with
  | nil => exact fun _ _ _ _ ↦ ⟨List.nodup_nil, nofun, nofun⟩
  | append_singleton L tp ih =>
    intro idx h hpos hins hmint
    rw [connectAll_append] at h
    obtain ⟨idx₁, h₁, h₂⟩ := Option.bind_eq_some_iff.mp h
    obtain ⟨idx₂, h₂, -⟩ := Option.bind_eq_some_iff.mp h₂
    rw [List.filter_append, List.map_append, List.nodup_append] at hmint
    have hf : Fresh (fun _ ↦ none) L := ih h₁ (fun tp' h' ↦ hpos tp' (by simp [h']))
      (fun tp' h' tp'' h'' ↦ hins tp' (by simp [h']) tp'' (by simp [h''])) hmint.1
    have hd : Describes idx₁ L := describes_nil.connectAll hf h₁
    refine ⟨?_, fun _ _ ↦ rfl, hpos⟩
    rw [List.map_append, List.nodup_append]
    refine ⟨hf.nodup, List.nodup_singleton _, ?_⟩
    rintro i hi _ hi' rfl
    obtain ⟨tp', htp', rfl⟩ := List.mem_map.mp hi
    have hid : tp'.1.id = tp.1.id := by simpa using hi'
    have heq := hins tp' (by simp [htp']) tp (by simp) hid
    cases ho : tp.1.ins with
    | nil =>
      have hmem : tp' ∈ L.filter (·.1.ins.isEmpty) := by
        rw [List.mem_filter]
        exact ⟨htp', by rw [heq, ho]; rfl⟩
      refine hmint.2.2 _ (List.mem_map.mpr ⟨tp', hmem, rfl⟩) tp.1.id ?_ hid
      simp [ho]
    | cons o os =>
      have hmem : o ∈ tp.1.ins := by simp [ho]
      have hnone : connect idx₁ tp.1 tp.2 = none :=
        hd.connect_eq_none_of_mem htp' hmem (heq ▸ hmem)
      rw [hnone] at h₂
      cases h₂

end Ledger
