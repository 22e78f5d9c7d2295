import Mathlib.Order.Nat

/-!
# Parent chains

A tree that grows at its leaves and is only ever walked towards its root: a node is its own
label together with the node it was added under.  The walk back from a node is then the
structural recursion on it, so no chain is cyclic and no walk runs out of nodes unexpectedly.

`a ≤ b` says that `a` is met on the walk back from `b` (`b` itself included).  Below any node
this order is linear, which is what makes *the* fork of two nodes well defined: `findFork`
walks two chains back to the last node they share.
-/

universe u

namespace Chain

/-- A node of a tree, seen as the chain back to its root. -/
inductive Node (α : Type u) where
  | root (a : α)
  | child (a : α) (parent : Node α)
deriving DecidableEq, Repr

namespace Node

variable {α : Type u}

/-- The label of a node. -/
def val : Node α → α
  | .root a | .child a _ => a

/-- The node a node was added under. -/
def parent? : Node α → Option (Node α)
  | .root _ => none
  | .child _ p => some p

/-- The number of steps back to the root. -/
def height : Node α → ℕ
  | .root _ => 0
  | .child _ p => p.height + 1

@[simp] theorem val_root (a : α) : (root a).val = a := rfl
@[simp] theorem val_child (a : α) (p : Node α) : (child a p).val = a := rfl
@[simp] theorem parent?_root (a : α) : (root a).parent? = none := rfl
@[simp] theorem parent?_child (a : α) (p : Node α) : (child a p).parent? = some p := rfl
@[simp] theorem height_root (a : α) : (root a).height = 0 := rfl
@[simp] theorem height_child (a : α) (p : Node α) : (child a p).height = p.height + 1 := rfl

theorem eq_child_of_parent? {n p : Node α} (h : n.parent? = some p) : n = child n.val p := by
  cases n with
  | root a => simp at h
  | child a q => simpa using h

/-! ## The ancestor order -/

/-- `a` is met on the walk back from the second argument. -/
def IsAncestor (a : Node α) : Node α → Prop
  | .root b => a = root b
  | .child b p => a = child b p ∨ a.IsAncestor p

theorem IsAncestor.rfl' : (n : Node α) → n.IsAncestor n
  | .root _ => rfl
  | .child _ _ => Or.inl rfl

theorem IsAncestor.height_le {a b : Node α} (h : a.IsAncestor b) : a.height ≤ b.height := by
  induction b with
  | root b => rw [show a = root b from h]
  | child b p ih =>
    rcases h with rfl | h
    · exact le_rfl
    · exact (ih h).trans (Nat.le_succ _)

theorem IsAncestor.trans {a b c : Node α} (h : a.IsAncestor b) (h' : b.IsAncestor c) :
    a.IsAncestor c := by
  induction c with
  | root c => exact (show b = root c from h') ▸ h
  | child c p ih =>
    rcases h' with rfl | h'
    · exact h
    · exact Or.inr (ih h')

/-- An ancestor that is as high as the node is the node. -/
theorem IsAncestor.eq_of_height {a b : Node α} (h : a.IsAncestor b) (hh : b.height ≤ a.height) :
    a = b := by
  cases b with
  | root b => exact h
  | child b p =>
    rcases h with rfl | h
    · rfl
    · have := h.height_le
      rw [height_child] at hh
      omega

instance : PartialOrder (Node α) where
  le := IsAncestor
  le_refl := IsAncestor.rfl'
  le_trans _ _ _ := IsAncestor.trans
  le_antisymm _ _ h h' := h.eq_of_height h'.height_le

theorem height_mono {a b : Node α} (h : a ≤ b) : a.height ≤ b.height := IsAncestor.height_le h

theorem eq_of_le_of_height {a b : Node α} (h : a ≤ b) (hh : b.height ≤ a.height) : a = b :=
  IsAncestor.eq_of_height h hh

theorem height_strictMono {a b : Node α} (h : a < b) : a.height < b.height := by
  by_contra hh
  exact h.ne (eq_of_le_of_height h.le (not_lt.mp hh))

@[simp] theorem le_root {a : Node α} {b : α} : a ≤ root b ↔ a = root b := Iff.rfl

theorem le_child {a p : Node α} {b : α} : a ≤ child b p ↔ a = child b p ∨ a ≤ p := Iff.rfl

theorem parent_lt (b : α) (p : Node α) : p < child b p := by
  refine lt_of_le_of_ne (le_child.mpr (Or.inr le_rfl)) fun h ↦ ?_
  have := congrArg height h
  simp at this

theorem parent?_lt {n p : Node α} (h : n.parent? = some p) : p < n := by
  rw [eq_child_of_parent? h]
  exact parent_lt _ _

theorem lt_child {a p : Node α} {b : α} : a < child b p ↔ a ≤ p := by
  constructor
  · intro h
    exact (le_child.mp h.le).resolve_left h.ne
  · exact fun h ↦ lt_of_le_of_lt h (parent_lt b p)

/-- Below one node the order is linear. -/
theorem le_total_of_le {a b c : Node α} (ha : a ≤ c) (hb : b ≤ c) : a ≤ b ∨ b ≤ a := by
  induction c with
  | root c => rw [le_root.mp ha, le_root.mp hb]; exact Or.inl le_rfl
  | child c p ih =>
    rcases le_child.mp ha with rfl | ha'
    · exact Or.inr hb
    · rcases le_child.mp hb with rfl | hb'
      · exact Or.inl ha
      · exact ih ha' hb'

/-- Below a node there is the child through which it is met. -/
theorem exists_parent?_eq {a c : Node α} (h : a < c) : ∃ m ≤ c, m.parent? = some a := by
  induction c with
  | root c => exact absurd (le_root.mp h.le) h.ne
  | child c p ih =>
    rcases (lt_child.mp h).eq_or_lt with rfl | hlt
    · exact ⟨child c a, le_rfl, rfl⟩
    · obtain ⟨m, hm, hparent⟩ := ih hlt
      exact ⟨m, hm.trans (parent_lt c p).le, hparent⟩

/-- Walk back while the node is higher than `h`. -/
def lower (h : ℕ) : Node α → Node α
  | .root a => .root a
  | .child a p => if h < (child a p).height then lower h p else .child a p

theorem lower_le (h : ℕ) : (n : Node α) → lower h n ≤ n
  | .root a => le_rfl
  | .child a p => by
    unfold lower
    split
    · exact (lower_le h p).trans (parent_lt a p).le
    · exact le_rfl

theorem height_lower_le (h : ℕ) : (n : Node α) → (lower h n).height ≤ h
  | .root a => Nat.zero_le _
  | .child a p => by
    unfold lower
    split
    · exact height_lower_le h p
    · rename_i hh
      exact not_lt.mp hh

theorem le_lower {h : ℕ} {x : Node α} (hx : x.height ≤ h) :
    (n : Node α) → x ≤ n → x ≤ lower h n
  | .root _, hn => hn
  | .child a p, hn => by
    unfold lower
    split
    · rename_i hh
      refine le_lower hx p ((le_child.mp hn).resolve_left ?_)
      rintro rfl
      exact absurd hh (not_lt.mpr hx)
    · exact hn

instance [DecidableEq α] : (a b : Node α) → Decidable (a ≤ b)
  | a, .root b => inferInstanceAs (Decidable (a = root b))
  | a, .child b p =>
    have : Decidable (a ≤ p) := instDecidableLeOfDecidableEq a p
    inferInstanceAs (Decidable (a = child b p ∨ a ≤ p))

/-! ## Segments of a chain -/

variable [DecidableEq α]

/-- The nodes met on the walk back from a node before `f`, newest first. -/
def above (f : Node α) : Node α → List (Node α)
  | .root a => if root a = f then [] else [root a]
  | .child a p => if child a p = f then [] else child a p :: above f p

@[simp] theorem above_self (f : Node α) : above f f = [] := by
  cases f <;> simp [above]

theorem above_child {f p : Node α} (b : α) (h : f ≤ p) :
    above f (child b p) = child b p :: above f p := by
  rw [above, if_neg]
  exact (lt_child.mpr h).ne'

/-- The walk from `n` back to an ancestor `f` meets exactly the nodes strictly above `f`. -/
theorem mem_above {f n m : Node α} (h : f ≤ n) : m ∈ above f n ↔ f < m ∧ m ≤ n := by
  induction n with
  | root a =>
    rw [le_root.mp h, above_self]
    simp only [List.not_mem_nil, false_iff, le_root, not_and]
    exact fun h ↦ h.ne'
  | child a p ih =>
    by_cases hf : child a p = f
    · subst hf
      rw [above_self]
      simp only [List.not_mem_nil, false_iff, not_and]
      exact fun h h' ↦ absurd h' (not_le_of_gt h)
    · have hp : f ≤ p := (le_child.mp h).resolve_left (Ne.symm hf)
      rw [above_child a hp, List.mem_cons, ih hp, le_child]
      constructor
      · rintro (rfl | ⟨h₁, h₂⟩)
        · exact ⟨lt_child.mpr hp, Or.inl rfl⟩
        · exact ⟨h₁, Or.inr h₂⟩
      · rintro ⟨h₁, rfl | h₂⟩
        · exact Or.inl rfl
        · exact Or.inr ⟨h₁, h₂⟩

/-- Two consecutive segments make one. -/
theorem above_append {f g n : Node α} (hf : f ≤ g) (hg : g ≤ n) :
    above f n = above g n ++ above f g := by
  induction n with
  | root a => rw [le_root.mp hg, above_self, List.nil_append]
  | child a p ih =>
    rcases le_child.mp hg with rfl | hp
    · rw [above_self, List.nil_append]
    · rw [above_child a (hf.trans hp), above_child a hp, ih hp, List.cons_append]

omit [DecidableEq α] in
/-- On one chain a node has one child. -/
theorem eq_of_parent?_eq {m m' p c : Node α} (hm : m ≤ c) (hm' : m' ≤ c)
    (h : m.parent? = some p) (h' : m'.parent? = some p) : m = m' := by
  have hh : m.height = m'.height := by
    rw [eq_child_of_parent? h, eq_child_of_parent? h', height_child, height_child]
  rcases le_total_of_le hm hm' with hle | hle
  · exact eq_of_le_of_height hle hh.ge
  · exact (eq_of_le_of_height hle hh.le).symm

/-- The list leads from child to child, from the first node up to the last. -/
def IsPath (b : Node α) : List (Node α) → Node α → Prop
  | [], n => n = b
  | m :: l, n => m.parent? = some b ∧ IsPath m l n

omit [DecidableEq α] in
theorem IsPath.snoc {l : List (Node α)} {n m : Node α} (hm : m.parent? = some n) :
    ∀ {b}, IsPath b l n → IsPath b (l ++ [m]) m := by
  induction l with
  | nil =>
    rintro b rfl
    exact ⟨hm, rfl⟩
  | cons k l ih => exact fun h ↦ ⟨h.1, ih h.2⟩

/-- The walk back, read forwards. -/
theorem isPath_above {f n : Node α} (h : f ≤ n) : IsPath f (above f n).reverse n := by
  induction n with
  | root a =>
    rw [le_root.mp h, above_self]
    rfl
  | child a p ih =>
    rcases le_child.mp h with rfl | hp
    · rw [above_self]
      rfl
    · rw [above_child a hp, List.reverse_cons]
      exact (ih hp).snoc rfl

/-! ## The fork of two chains -/

/-- The last node two chains share: walk the second back until it is no higher than the first,
then the first one step, until they meet. -/
def findFork : Node α → Node α → Option (Node α)
  | .root a, n =>
    if root a = n then some (root a)
    else if root a = lower 0 n then some (root a)
    else none
  | .child a p, n =>
    if child a p = n then some (child a p)
    else
      let n' := lower (child a p).height n
      if child a p = n' then some (child a p) else findFork p n'

/-- **The walk finds the fork**: a common ancestor, and every common ancestor is at or below
it. -/
theorem findFork_spec {a b f : Node α} (h : findFork a b = some f) :
    f ≤ a ∧ f ≤ b ∧ ∀ x, x ≤ a → x ≤ b → x ≤ f := by
  induction a generalizing b with
  | root a =>
    have hlow := lower_le 0 b
    rw [findFork] at h
    split at h
    · rename_i hb
      cases h
      exact ⟨le_rfl, hb.le, fun x hx _ ↦ hx⟩
    · split at h
      · rename_i hb
        cases h
        exact ⟨le_rfl, hb ▸ hlow, fun x hx _ ↦ hx⟩
      · cases h
  | child a p ih =>
    have hlow := lower_le (child a p).height b
    simp only [findFork] at h
    split at h
    · rename_i hb
      cases h
      exact ⟨le_rfl, hb.le, fun x hx _ ↦ hx⟩
    · split at h
      · rename_i hb
        cases h
        exact ⟨le_rfl, hb ▸ hlow, fun x hx _ ↦ hx⟩
      · rename_i hne hne'
        obtain ⟨h₁, h₂, h₃⟩ := ih h
        refine ⟨h₁.trans (parent_lt a p).le, h₂.trans hlow, fun x hx hxb ↦ ?_⟩
        have hxl := le_lower (height_mono hx) b hxb
        -- `x` is not `child a p` itself: that would be the lowered node
        rcases le_child.mp hx with rfl | hxp
        · have := eq_of_le_of_height hxl (height_lower_le _ b)
          exact absurd this hne'
        · exact h₃ x hxp hxl

/-- Two chains with a node in common have a fork. -/
theorem findFork_isSome {a b x : Node α} (ha : x ≤ a) (hb : x ≤ b) :
    (findFork a b).isSome := by
  induction a generalizing b with
  | root a =>
    have hx : x = root a := ha
    subst hx
    have hl := le_lower (h := 0) (by simp) b hb
    have := eq_of_le_of_height hl (height_lower_le 0 b)
    rw [findFork, if_pos this, ite_self]
    rfl
  | child a p ih =>
    simp only [findFork]
    split
    · rfl
    · split
      · rfl
      · rename_i hne hne'
        have hxl := le_lower (height_mono ha) b hb
        rcases le_child.mp ha with rfl | hxp
        · exact absurd (eq_of_le_of_height hxl (height_lower_le _ b)) hne'
        · exact ih hxp hxl

/-- Nothing above the fork on one side is met on the other. -/
theorem not_le_of_fork_lt {a b f m : Node α} (h : findFork a b = some f) (hm : f < m)
    (hmb : m ≤ b) : ¬ m ≤ a := fun hma ↦
  absurd ((findFork_spec h).2.2 m hma hmb) (not_le_of_gt hm)

end Node

end Chain
