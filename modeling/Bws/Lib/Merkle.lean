import Mathlib.Data.List.Nodup
import Mathlib.Data.Set.Prod
import Mathlib.Data.Set.Function
import Mathlib.Data.Nat.Bitwise

/-!
# Merkle trees over lists of any length

A tree is built level by level from a list of leaves: `level h` hashes neighbours, and a last node
without a neighbour is hashed with itself.  `root h` is what is left in the end, `path h` collects
the siblings on the way from one leaf, and `climb h` hashes them together again.

Two results.  Climbing a path gives the root (`climb_path`).  Where `h` does not collide on the nodes
that occur, the leaves are distinct, and no leaf is a node above them, the root determines the leaves
(`eq_of_root_eq`): repeating the last node of an odd level is the only way to the same level above,
and distinctness, which every level inherits from the one below, excludes it.
-/

namespace Merkle

variable {α : Type*} (h : α → α → α)

/-! ## Levels -/

/-- The level above a list of nodes. -/
def level : List α → List α
  | [] => []
  | [a] => [h a a]
  | a :: b :: l => h a b :: level l

@[simp] theorem length_level : ∀ l : List α, (level h l).length = (l.length + 1) / 2
  | [] => by simp [level]
  | [_] => by simp [level]
  | _ :: _ :: l => by
    simp only [level, List.length_cons, length_level l]
    omega

theorem length_level_le {a b : α} {l : List α} {n : ℕ} (hn : (a :: b :: l).length ≤ n + 1) :
    (level h (a :: b :: l)).length ≤ n := by
  simp only [length_level, List.length_cons] at hn ⊢
  omega

@[simp] theorem level_eq_nil {l : List α} : level h l = [] ↔ l = [] := by
  rw [← List.length_eq_zero_iff, ← List.length_eq_zero_iff, length_level]
  omega

/-- A node is the hash of the two below it, the last one of an odd level twice. -/
theorem getElem?_level : ∀ (l : List α) (k : ℕ),
    (level h l)[k]? =
      (l[2 * k]?).bind fun a ↦ (l[min (2 * k + 1) (l.length - 1)]?).map (h a)
  | [], k => by simp [level]
  | [a], 0 => by simp [level]
  | [a], k + 1 => by simp [level]
  | a :: b :: l, 0 => by simp [level]
  | a :: b :: l, k + 1 => by
    have hmin : min (2 * (k + 1) + 1) ((a :: b :: l).length - 1) =
        min (2 * k + 1) (l.length - 1) + 2 ∨ l.length = 0 := by
      simp only [List.length_cons]
      omega
    rw [level, List.getElem?_cons_succ, getElem?_level l k]
    rcases hmin with hmin | hmin
    · rw [hmin]
      rfl
    · obtain rfl := List.length_eq_zero_iff.1 hmin
      simp [Nat.mul_add]

/-- Every node of a level is a hash of two nodes below. -/
theorem exists_of_mem_level : ∀ {l : List α} {c : α}, c ∈ level h l →
    ∃ a ∈ l, ∃ b ∈ l, c = h a b
  | [a], c, hc => ⟨a, by simp, a, by simp, by simpa [level] using hc⟩
  | a :: b :: l, c, hc => by
    rcases List.mem_cons.1 hc with rfl | hc
    · exact ⟨a, by simp, b, by simp, rfl⟩
    · obtain ⟨x, hx, y, hy, rfl⟩ := exists_of_mem_level hc
      exact ⟨x, by simp [hx], y, by simp [hy], rfl⟩

/-! ## Roots, paths and nodes -/

/-- Build levels until one has a single node, at most `fuel` of them. -/
def root (default : α) : ℕ → List α → α
  | _, [] => default
  | _, [a] => a
  | 0, a :: _ => a
  | fuel + 1, l => root default fuel (level h l)

/-- The siblings of the node with the given index, from the leaves up. -/
def path (default : α) : ℕ → ℕ → List α → List α
  | _, _, [] => []
  | _, _, [_] => []
  | 0, _, _ => []
  | fuel + 1, i, l =>
    l.getD (min (i ^^^ 1) (l.length - 1)) default :: path default fuel (i / 2) (level h l)

/-- All nodes, the leaves first. -/
def nodes : ℕ → List α → List α
  | _, [] => []
  | _, [a] => [a]
  | 0, l => l
  | fuel + 1, l => l ++ nodes fuel (level h l)

/-- Hash the siblings together, on the side that the index tells. -/
def climb (a : α) : List α → ℕ → α
  | [], _ => a
  | b :: p, i => climb (if i % 2 = 1 then h b a else h a b) p (i / 2)

/-- The root is the last of the nodes. -/
theorem getLast?_nodes (default : α) : ∀ {fuel : ℕ} {l : List α}, l ≠ [] → l.length ≤ fuel →
    (nodes h fuel l).getLast? = some (root h default fuel l)
  | _, [], hne, _ => absurd rfl hne
  | fuel, [a], _, _ => by simp [nodes, root]
  | fuel + 1, a :: b :: l, _, hfuel => by
    have ih := getLast?_nodes (l := level h (a :: b :: l)) default (by simp)
      (length_level_le h hfuel)
    change ((a :: b :: l) ++ nodes h fuel (level h (a :: b :: l))).getLast? = _
    rw [List.getLast?_append, ih]
    rfl

/-! ## Climbing -/

/-- The parent of a node, from the node and its sibling. -/
theorem getElem?_level_half {l : List α} {i : ℕ} {a : α} (default : α) (ha : l[i]? = some a) :
    (level h l)[i / 2]? = some
      (if i % 2 = 1 then h (l.getD (min (i ^^^ 1) (l.length - 1)) default) a
      else h a (l.getD (min (i ^^^ 1) (l.length - 1)) default)) := by
  obtain ⟨hi, -⟩ := List.getElem?_eq_some_iff.1 ha
  rw [getElem?_level]
  split_ifs with hodd
  · rw [Nat.xor_one_of_odd (Nat.odd_iff.2 hodd), show 2 * (i / 2) = i - 1 by omega,
      show min (i - 1 + 1) (l.length - 1) = i by omega,
      show min (i - 1) (l.length - 1) = i - 1 by omega, ha,
      List.getElem?_eq_getElem (show i - 1 < l.length by omega)]
    simp [show i - 1 < l.length by omega]
  · rw [Nat.xor_one_of_even (Nat.even_iff.2 (by omega)), show 2 * (i / 2) = i by omega, ha,
      List.getElem?_eq_getElem (show min (i + 1) (l.length - 1) < l.length by omega)]
    simp [show min (i + 1) (l.length - 1) < l.length by omega]

/-- With fuel for as many levels as leaves, climbing the path of a leaf gives the root. -/
theorem climb_path (default : α) : ∀ {fuel : ℕ} {l : List α} {i : ℕ} {a : α},
    l.length ≤ fuel → l[i]? = some a →
      climb h a (path h default fuel i l) i = root h default fuel l
  | _, [], i, a, _, ha => by simp at ha
  | fuel, [b], i, a, _, ha => by
    obtain rfl : i = 0 := by
      by_contra hi
      rw [List.getElem?_eq_none (by simp; omega)] at ha
      cases ha
    obtain rfl : b = a := by simpa using ha
    simp [path, root, climb]
  | fuel + 1, b :: c :: l, i, a, hfuel, ha => by
    exact climb_path (l := level h (b :: c :: l)) default (length_level_le h hfuel)
      (getElem?_level_half h default ha)

/-! ## What a root determines -/

variable {h} {s : Set α}

theorem level_mem {n : ℕ} {l : List α} (hs : ∀ k ≤ n + 1, ∀ a ∈ (level h)^[k] l, a ∈ s) :
    ∀ k ≤ n, ∀ a ∈ (level h)^[k] (level h l), a ∈ s :=
  fun k hk ↦ hs (k + 1) (by omega)

section

variable (hinj : Set.InjOn (Function.uncurry h) (s ×ˢ s))

include hinj

theorem pair_inj {a b c d : α} (ha : a ∈ s) (hb : b ∈ s) (hc : c ∈ s) (hd : d ∈ s)
    (heq : h a b = h c d) : a = c ∧ b = d :=
  Prod.ext_iff.1 (hinj (Set.mk_mem_prod ha hb) (Set.mk_mem_prod hc hd) heq)

/-- Distinct nodes have distinct nodes above them: their left children are distinct. -/
theorem nodup_level : ∀ {l : List α}, (∀ a ∈ l, a ∈ s) → l.Nodup → (level h l).Nodup
  | [], _, _ => List.nodup_nil
  | [a], _, _ => List.nodup_singleton (h a a)
  | a :: b :: l, hs, hnodup => by
    obtain ⟨ha, hb, hl⟩ : a ∈ s ∧ b ∈ s ∧ ∀ c ∈ l, c ∈ s := by simpa using hs
    simp only [List.nodup_cons, List.mem_cons, not_or] at hnodup
    obtain ⟨⟨-, hal⟩, -, hnodup⟩ := hnodup
    refine List.nodup_cons.2 ⟨fun hmem ↦ ?_, nodup_level hl hnodup⟩
    obtain ⟨x, hx, y, hy, heq⟩ := exists_of_mem_level h hmem
    obtain ⟨rfl, -⟩ := pair_inj hinj ha hb (hl x hx) (hl y hy) heq
    exact hal hx

/-- Of two lists with the same level above them, one repeats its last node, or they are equal. -/
theorem level_inj : ∀ {l l' : List α}, (∀ a ∈ l, a ∈ s) → (∀ a ∈ l', a ∈ s) →
    l.Nodup → l'.Nodup → level h l = level h l' → l = l'
  | [], l', _, _, _, _, heq => (level_eq_nil h).1 heq.symm ▸ rfl
  | l, [], _, _, _, _, heq => (level_eq_nil h).1 heq
  | [a], [b], hs, hs', _, _, heq => by
    simp only [List.forall_mem_cons] at hs hs'
    obtain ⟨rfl, -⟩ := pair_inj hinj hs.1 hs.1 hs'.1 hs'.1 (List.cons.inj heq).1
    rfl
  | [a], b :: c :: l', hs, hs', _, hnodup, heq => by
    simp only [List.forall_mem_cons] at hs hs'
    obtain ⟨rfl, rfl⟩ := pair_inj hinj hs.1 hs.1 hs'.1 hs'.2.1 (List.cons.inj heq).1
    simp at hnodup
  | a :: b :: l, [c], hs, hs', hnodup, _, heq => by
    simp only [List.forall_mem_cons] at hs hs'
    obtain ⟨rfl, rfl⟩ := pair_inj hinj hs.1 hs.2.1 hs'.1 hs'.1 (List.cons.inj heq).1
    simp at hnodup
  | a :: b :: l, c :: d :: l', hs, hs', hnodup, hnodup', heq => by
    simp only [List.forall_mem_cons] at hs hs'
    obtain ⟨hhead, htail⟩ := List.cons.inj heq
    obtain ⟨rfl, rfl⟩ := pair_inj hinj hs.1 hs.2.1 hs'.1 hs'.2.1 hhead
    rw [level_inj hs.2.2 hs'.2.2 hnodup.of_cons.of_cons hnodup'.of_cons.of_cons htail]

theorem nodup_iterate : ∀ {n : ℕ} {l : List α}, (∀ k ≤ n, ∀ a ∈ (level h)^[k] l, a ∈ s) →
    l.Nodup → ((level h)^[n] l).Nodup
  | 0, _, _, hnodup => hnodup
  | n + 1, _, hs, hnodup =>
    nodup_iterate (n := n) (level_mem hs) (nodup_level hinj (hs 0 (Nat.zero_le _)) hnodup)

theorem iterate_inj : ∀ {n : ℕ} {l l' : List α}, (∀ k ≤ n, ∀ a ∈ (level h)^[k] l, a ∈ s) →
    (∀ k ≤ n, ∀ a ∈ (level h)^[k] l', a ∈ s) → l.Nodup → l'.Nodup →
      (level h)^[n] l = (level h)^[n] l' → l = l'
  | 0, _, _, _, _, _, _, heq => heq
  | n + 1, l, l', hs, hs', hnodup, hnodup', heq => by
    have h0 := hs 0 (Nat.zero_le _)
    have h0' := hs' 0 (Nat.zero_le _)
    exact level_inj hinj h0 h0' hnodup hnodup' (iterate_inj (n := n) (level_mem hs) (level_mem hs')
      (nodup_level hinj h0 hnodup) (nodup_level hinj h0' hnodup') heq)

end

theorem subset_nodes : ∀ {fuel : ℕ} {l : List α} {a : α}, a ∈ l → a ∈ nodes h fuel l
  | 0, [_], _, ha => ha
  | _ + 1, [_], _, ha => ha
  | 0, _ :: _ :: _, _, ha => ha
  | _ + 1, _ :: _ :: _, _, ha => List.mem_append_left _ ha

/-- The root is the only node of some level, and all levels below it consist of nodes. -/
theorem exists_iterate (default : α) : ∀ {fuel : ℕ} {l : List α}, l ≠ [] → l.length ≤ fuel →
    ∃ n, (level h)^[n] l = [root h default fuel l] ∧ ∀ k ≤ n, ∀ a ∈ (level h)^[k] l,
      a ∈ nodes h fuel l ∧ (0 < k → a ∈ (nodes h fuel l).drop l.length)
  | _, [], hne, _ => absurd rfl hne
  | fuel, [a], _, _ => by
    refine ⟨0, by simp [root], fun k hk b hb ↦ ?_⟩
    obtain rfl : k = 0 := by omega
    exact ⟨subset_nodes hb, fun h ↦ absurd h (lt_irrefl 0)⟩
  | fuel + 1, a :: b :: l, _, hfuel => by
    obtain ⟨n, hroot, hnodes⟩ :=
      exists_iterate default (by simp [level]) (length_level_le h hfuel)
    refine ⟨n + 1, hroot, fun k hk c hc ↦ ?_⟩
    rcases k with _ | k
    · exact ⟨subset_nodes hc, fun h ↦ absurd h (lt_irrefl 0)⟩
    · have hmem : c ∈ nodes h fuel (level h (a :: b :: l)) := (hnodes k (by omega) c hc).1
      refine ⟨List.mem_append_right _ hmem, fun _ ↦ ?_⟩
      change c ∈ ((a :: b :: l) ++ _).drop _
      rwa [List.drop_left]

/-- Where hashing does not collide on the nodes of two trees, the leaves of each are distinct, and
no leaf of one is a node above the leaves of the other, trees with the same root have the same
leaves. -/
theorem eq_of_root_eq (hinj : Set.InjOn (Function.uncurry h) (s ×ˢ s)) (default : α)
    {fuel fuel' : ℕ} {l l' : List α} (hne : l ≠ []) (hne' : l' ≠ []) (hfuel : l.length ≤ fuel)
    (hfuel' : l'.length ≤ fuel') (hs : ∀ a ∈ nodes h fuel l, a ∈ s)
    (hs' : ∀ a ∈ nodes h fuel' l', a ∈ s) (hnodup : l.Nodup) (hnodup' : l'.Nodup)
    (hleaf : ∀ a ∈ l, a ∉ (nodes h fuel' l').drop l'.length)
    (hleaf' : ∀ a ∈ l', a ∉ (nodes h fuel l).drop l.length)
    (hroot : root h default fuel l = root h default fuel' l') : l = l' := by
  obtain ⟨n, htop, hnodes⟩ := exists_iterate (h := h) default hne hfuel
  obtain ⟨n', htop', hnodes'⟩ := exists_iterate (h := h) default hne' hfuel'
  -- of the lower tree `l`, the level where the other has as many levels left is its bottom
  wlog hle : n ≤ n' generalizing fuel fuel' l l' n n'
  · exact (this hne' hne hfuel' hfuel hs' hs hnodup' hnodup hleaf' hleaf hroot.symm n' htop' hnodes'
      n htop hnodes (by omega)).symm
  obtain ⟨m, rfl⟩ := Nat.exists_eq_add_of_le hle
  have heq : l = (level h)^[m] l' := by
    refine iterate_inj hinj (n := n) (fun k hk a ha ↦ hs a (hnodes k hk a ha).1) (fun k hk a ha ↦ ?_)
      hnodup (nodup_iterate hinj (fun k hk a ha ↦ hs' a (hnodes' k (by omega) a ha).1) hnodup') ?_
    · rw [← Function.iterate_add_apply] at ha
      exact hs' a (hnodes' (k + m) (by omega) a ha).1
    · rw [← Function.iterate_add_apply, htop, htop', hroot]
  rcases Nat.eq_zero_or_pos m with rfl | hm
  · exact heq
  · obtain ⟨a, ha⟩ := List.exists_mem_of_ne_nil l hne
    exact absurd ((hnodes' m (by omega) a (heq ▸ ha)).2 hm) (hleaf a ha)

end Merkle
