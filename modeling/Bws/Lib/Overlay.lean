import Mathlib.Logic.Function.Basic
import Mathlib.Data.List.Induction

/-!
# Stores with a pending batch

A *store* is a partial map whose value type may depend on the key.  A *batch* is a list of
puts and deletes that has been recorded but not applied yet.  A reader that must see its own
writes looks the key up in the batch first and falls back on the store; the committed store is
what the batch leaves when its operations are applied in order.

The one fact everything else rests on is `Overlay.applyAll_eq_scan`: looking a key up through
the batch gives what the store would hold after the batch.  So the reader, and every argument
about it, may work with `applyAll` alone.
-/

universe u v

namespace Overlay

variable {K : Type u} {V : K → Type v}

/-- A partial map with a value type for each key. -/
abbrev Store (V : K → Type v) := ∀ k, Option (V k)

/-- One recorded operation. -/
inductive Op (V : K → Type v) where
  | put (k : K) (v : V k)
  | delete (k : K)

/-- The key an operation is about. -/
def Op.key : Op V → K
  | .put k _ => k
  | .delete k => k

/-- The value an operation leaves at its key. -/
def Op.value : (o : Op V) → Option (V o.key)
  | .put _ v => some v
  | .delete _ => none

/-- The last operation of the batch on the key deletes it. -/
def EndsErased (ops : List (Op V)) (k : K) : Prop :=
  ∃ pre post, ops = pre ++ .delete k :: post ∧ ∀ o ∈ post, o.key ≠ k

/-- Only the last operation on a key counts. -/
theorem endsErased_append_iff {ops : List (Op V)} {o : Op V} {k : K} :
    EndsErased (ops ++ [o]) k ↔ o = .delete k ∨ o.key ≠ k ∧ EndsErased ops k := by
  constructor
  · rintro ⟨pre, post, heq, hpost⟩
    rcases List.eq_nil_or_concat post with rfl | ⟨post, o', rfl⟩
    · obtain ⟨-, ho⟩ := List.append_inj' heq rfl
      exact .inl (List.cons.inj ho).1
    · rw [List.concat_eq_append, ← List.cons_append, ← List.append_assoc] at heq
      obtain ⟨hops, ho⟩ := List.append_inj' heq rfl
      obtain rfl := (List.cons.inj ho).1
      rw [List.concat_eq_append] at hpost
      exact .inr ⟨hpost o (by simp), pre, post, hops, fun o' ho' ↦ hpost o' (by simp [ho'])⟩
  · rintro (rfl | ⟨hne, pre, post, rfl, hpost⟩)
    · exact ⟨ops, [], rfl, nofun⟩
    · refine ⟨pre, post ++ [o], by simp, fun o' ho' ↦ ?_⟩
      rcases List.mem_append.mp ho' with ho' | ho'
      · exact hpost o' ho'
      · cases List.mem_singleton.mp ho'
        exact hne

variable [DecidableEq K]

/-- Apply one operation to a store. -/
def Op.apply (σ : Store V) (o : Op V) : Store V := Function.update σ o.key o.value

/-- Apply a batch, first operation first. -/
def applyAll (σ : Store V) (ops : List (Op V)) : Store V := ops.foldl Op.apply σ

/-- What one operation of a batch says about the key `k`: nothing (`none`), that it is deleted
(`some none`), or its value. -/
def scanStep (k : K) (found : Option (Option (V k))) (o : Op V) : Option (Option (V k)) :=
  if h : o.key = k then some (h ▸ o.value) else found

/-- Scan a whole batch for the key `k`; the last operation on it decides. -/
def scan (ops : List (Op V)) (k : K) : Option (Option (V k)) := ops.foldl (scanStep k) none

@[simp] theorem applyAll_nil (σ : Store V) : applyAll σ [] = σ := rfl

@[simp] theorem applyAll_append (σ : Store V) (ops ops' : List (Op V)) :
    applyAll σ (ops ++ ops') = applyAll (applyAll σ ops) ops' := List.foldl_append

@[simp] theorem apply_put (σ : Store V) (k : K) (v : V k) :
    Op.apply σ (.put k v) = Function.update σ k (some v) := rfl

@[simp] theorem apply_delete (σ : Store V) (k : K) :
    Op.apply σ (.delete k) = Function.update σ k none := rfl

/-- **Read your writes.**  Looking a key up in the batch, then in the store, gives what the
store holds once the batch is applied. -/
theorem applyAll_eq_scan (σ : Store V) (ops : List (Op V)) (k : K) :
    applyAll σ ops k = (scan ops k).getD (σ k) := by
  induction ops using List.reverseRecOn with
  | nil => rfl
  | append_singleton ops o ih =>
    have hs : scan (ops ++ [o]) k = scanStep k (scan ops k) o := by
      simp [scan, List.foldl_append]
    rw [applyAll_append, hs]
    change Op.apply (applyAll σ ops) o k = _
    unfold scanStep Op.apply
    by_cases hk : o.key = k
    · subst hk
      simp
    · rw [dif_neg hk, Function.update_of_ne (Ne.symm hk), ih]

/-- Scanning finds a key deleted exactly when the last operation on it deletes it. -/
theorem scan_eq_deleted_iff {ops : List (Op V)} {k : K} :
    scan ops k = some none ↔ EndsErased ops k := by
  induction ops using List.reverseRecOn with
  | nil =>
    constructor
    · exact nofun
    · rintro ⟨pre, post, heq, -⟩
      exact absurd heq.symm (List.append_ne_nil_of_right_ne_nil pre (List.cons_ne_nil _ post))
  | append_singleton ops o ih =>
    have hs : scan (ops ++ [o]) k = scanStep k (scan ops k) o := by
      simp [scan, List.foldl_append]
    rw [hs, scanStep, endsErased_append_iff]
    by_cases hk : o.key = k
    · subst hk
      rw [dif_pos rfl]
      cases o <;> simp [Op.key, Op.value]
    · rw [dif_neg hk, ih]
      constructor
      · exact fun h ↦ .inr ⟨hk, h⟩
      · rintro (rfl | ⟨-, h⟩)
        · exact absurd rfl hk
        · exact h

end Overlay
