import Bws.Recover

/-!
# Reading a public key

A `CPubKey` is an array of 65 bytes, and the first of them says how many belong to the key.
`Unserialize` copies as many bytes as the stream declares into the array and does not ask what the
first byte says, while `Set` does: when the stream declares fewer, the rest of the key is what the
array held before.

So what is read depends on the stream alone, is valid only with its declared length, and is written
as it was read exactly when the length is that of the first byte, or there is a first byte that no
key begins with, or the length is more than the array holds (`readsSoundly_iff`).
-/

namespace Bws

/-! ## The source -/

/-- The array `vch` of a `CPubKey`. -/
abbrev PubKeyArray := Vector UInt8 65

namespace PubKeyArray

variable (k : PubKeyArray)

/-- `size()` -/
def size : ℕ := CPubKey.getLen k[0]

def isValid : Prop := 0 < k.size

/-- The bytes from `begin()` to `end()`. -/
def bytes : CPubKey := k.toList.take k.size

/-- `operator==` -/
def same (k' : PubKeyArray) : Prop :=
  k[0] = k'[0] ∧ k.toList.take k.size = k'.toList.take k.size

instance (k' : PubKeyArray) : Decidable (k.same k') := inferInstanceAs (Decidable (_ ∧ _))

/-- `Invalidate` -/
def invalidate : PubKeyArray := k.set 0 0xFF

/-- `s.read((char*)vch, len)`, where `data` is what the stream gives. -/
def overwrite (data : List UInt8) : PubKeyArray := Vector.ofFn fun i : Fin 65 ↦ data.getD i k[i]

/-- `Serialize` -/
def serialize : List UInt8 := Codec.compactSize.put k.size ++ k.bytes

/-- `Unserialize` into an array that holds something already. -/
def unserialize (s : List UInt8) : Option (PubKeyArray × List UInt8) :=
  (readCompactSize s).bind fun (len, s) ↦
    ((Codec.raw len).get s).map fun (data, s) ↦
      (if len ≤ 65 then k.overwrite data
      -- invalid pubkey, skip available data
      else k.invalidate, s)

end PubKeyArray

/-! ## What is expected of it -/

/-- The key that is read from the stream is the same whatever the array held, is valid only with the
length that its first byte implies, and is written as it was read; and so the key of a wallet record
is the same whatever a new array holds. -/
structure ReadsSoundly (s : List UInt8) : Prop where
  same : ∀ {prior prior' k k' : PubKeyArray} {rest rest' : List UInt8},
    prior.unserialize s = some (k, rest) → prior'.unserialize s = some (k', rest') → k.same k'
  declared : ∀ {prior k : PubKeyArray} {rest data : List UInt8} {len : ℕ},
    prior.unserialize s = some (k, rest) → k.isValid → readCompactSize s = some (len, data) →
    len = k.size
  restored : ∀ {prior k : PubKeyArray} {rest : List UInt8},
    prior.unserialize s = some (k, rest) → k.isValid → k.serialize ++ rest = s
  determined : ∀ (O : SalvageOps) (stale strType ssValue : List UInt8),
    readKey { O with stale } strType s ssValue = readKey O strType s ssValue

/-- The declared length is that of the first byte, or no key begins with that byte, or the array does
not hold so many. -/
def DeclaresLength (s : List UInt8) : Prop :=
  ∃ len data, readCompactSize s = some (len, data) ∧
    (65 < len ∨ 0 < len ∧
      (CPubKey.getLen (data.headD 0) = len ∨ CPubKey.getLen (data.headD 0) = 0))

/-! ## Reading into the array -/

/-- Bytes are copied to the front of an array. -/
theorem toList_ofFn_getD {n : ℕ} (prior : Vector UInt8 n) {data : List UInt8}
    (h : data.length ≤ n) : (Vector.ofFn fun i : Fin n ↦ data.getD i prior[i]).toList =
      data ++ prior.toList.drop data.length := by
  apply List.ext_getElem
  · rw [Vector.length_toList, List.length_append, List.length_drop, Vector.length_toList]
    omega
  · intro i hi hi'
    rw [Vector.getElem_toList, Vector.getElem_ofFn]
    by_cases hlt : i < data.length
    · rw [List.getD_eq_getElem _ _ hlt, List.getElem_append_left hlt]
    · have hle := not_lt.1 hlt
      rw [List.getD_eq_default _ _ hle, List.getElem_append_right hle, List.getElem_drop,
        Vector.getElem_toList]
      simp only [Fin.getElem_fin, Nat.add_sub_cancel' hle]

namespace PubKeyArray

variable {k prior : PubKeyArray} {s data rest : List UInt8} {len : ℕ}

theorem toList_overwrite (h : data.length ≤ 65) :
    (prior.overwrite data).toList = data ++ prior.toList.drop data.length := toList_ofFn_getD prior h

theorem head_overwrite (prior : PubKeyArray) (h : data ≠ []) :
    (prior.overwrite data)[0] = data.headD 0 := by
  obtain ⟨b, data, rfl⟩ := List.exists_cons_of_ne_nil h
  rw [overwrite, Vector.getElem_ofFn]
  rfl

theorem head_invalidate : prior.invalidate[0] = 0xFF := Vector.getElem_set_self _

theorem size_invalidate : prior.invalidate.size = 0 := by
  rw [size, head_invalidate]
  rfl

/-- What an accepted stream consists of. -/
theorem exists_of_unserialize (h : prior.unserialize s = some (k, rest)) : ∃ len data,
    readCompactSize s = some (len, data ++ rest) ∧ data.length = len ∧
      k = if len ≤ 65 then prior.overwrite data else prior.invalidate := by
  obtain ⟨⟨len, s'⟩, hsize, h⟩ := Option.bind_eq_some_iff.1 h
  obtain ⟨⟨data, s''⟩, hraw, h⟩ := Option.map_eq_some_iff.1 h
  cases h
  simp only [Codec.raw] at hraw
  split_ifs at hraw with hshort
  cases hraw
  exact ⟨len, s'.take len, by rw [List.take_append_drop]; exact hsize,
    List.length_take_of_le (not_lt.1 hshort), rfl⟩

theorem unserialize_eq (hsize : readCompactSize s = some (len, data ++ rest))
    (hdata : data.length = len) (prior : PubKeyArray) : prior.unserialize s =
      some (if len ≤ 65 then prior.overwrite data else prior.invalidate, rest) := by
  have hraw : (Codec.raw len).get (data ++ rest) = some (data, rest) := (Codec.raw len).get_put hdata rest
  rw [unserialize, hsize, Option.bind_some]
  dsimp only
  rw [hraw]
  rfl

end PubKeyArray

/-! ## When the length is that of the first byte -/

section

variable {s data rest : List UInt8} {len : ℕ} {prior k : PubKeyArray}

/-- A small size is written in one byte. -/
theorem eq_put_of_readCompactSize (h : readCompactSize s = some (len, rest)) (hlen : len < 253) :
    s = Codec.compactSize.put len ++ rest := by
  rcases s with - | ⟨chSize, s⟩
  · cases h
  · obtain ⟨h, -⟩ := Option.filter_eq_some_iff.1 h
    split_ifs at h
    · cases h
      show chSize :: rest = (if chSize.toNat < 253 then Codec.toLE 1 chSize.toNat else _) ++ rest
      rw [if_pos hlen, Codec.toLE, Codec.toLE, Nat.mod_eq_of_lt chSize.toNat_lt, UInt8.ofNat_toNat]
      rfl
    · obtain ⟨-, hlarge⟩ := Option.filter_eq_some_iff.1 h
      exact absurd (of_decide_eq_true hlarge) (by omega)
    · obtain ⟨-, hlarge⟩ := Option.filter_eq_some_iff.1 h
      exact absurd (of_decide_eq_true hlarge) (by omega)
    · obtain ⟨-, hlarge⟩ := Option.filter_eq_some_iff.1 h
      exact absurd (of_decide_eq_true hlarge) (by omega)

theorem headD_append {l l' : List UInt8} (h : l ≠ []) (b b' : UInt8) :
    (l ++ l').headD b = l.headD b' := by
  obtain ⟨c, l, rfl⟩ := List.exists_cons_of_ne_nil h
  rfl

/-- What is read then: the declared bytes, or no key. -/
theorem DeclaresLength.read (h : DeclaresLength s) (hread : prior.unserialize s = some (k, rest)) :
    ∃ len data, readCompactSize s = some (len, data ++ rest) ∧ data.length = len ∧
      k[0] = (if len ≤ 65 then data.headD 0 else 0xFF) ∧
      (k.size = 0 ∨ k.size = len ∧ len ≤ 65 ∧ k.bytes = data) := by
  obtain ⟨len, data, hsize, hdata, hk⟩ := PubKeyArray.exists_of_unserialize hread
  obtain ⟨len', data', hsize', hdeclared⟩ := h
  rw [hsize] at hsize'
  cases hsize'
  refine ⟨len, data, hsize, hdata, ?_⟩
  by_cases hlarge : len ≤ 65
  · obtain ⟨hpos, hfirst⟩ := hdeclared.resolve_left (not_lt.2 hlarge)
    have hne : data ≠ [] := List.ne_nil_of_length_pos (hdata ▸ hpos)
    rw [if_pos hlarge] at hk
    have hhead : k[0] = data.headD 0 := by
      rw [hk]
      exact PubKeyArray.head_overwrite prior hne
    rw [headD_append hne 0 0, ← hhead] at hfirst
    refine ⟨by rw [if_pos hlarge]; exact hhead, hfirst.symm.imp_right fun hlen ↦ ?_⟩
    refine ⟨hlen, hlarge, ?_⟩
    rw [PubKeyArray.bytes, PubKeyArray.size, hlen, hk,
      PubKeyArray.toList_overwrite (hdata.le.trans hlarge), ← hdata, List.take_left]
  · rw [if_neg hlarge] at hk
    rw [if_neg hlarge, hk]
    exact ⟨PubKeyArray.head_invalidate, .inl PubKeyArray.size_invalidate⟩

/-- What a new array holds besides does not show. -/
theorem DeclaresLength.fresh (h : DeclaresLength s) (stale stale' : List UInt8) :
    CPubKey.unserialize stale s = CPubKey.unserialize stale' s := by
  obtain ⟨len, data, hsize, hdeclared⟩ := h
  unfold CPubKey.unserialize
  rw [hsize, Option.bind_some, Option.bind_some]
  simp only [Codec.raw]
  by_cases hshort : data.length < len
  · rw [if_pos hshort]
    rfl
  · by_cases hlarge : len ≤ 65
    · obtain ⟨hpos, hfirst⟩ := hdeclared.resolve_left (not_lt.2 hlarge)
      have hlen : (data.take len).length = len := List.length_take_of_le (not_lt.1 hshort)
      have hne : data.take len ≠ [] := List.ne_nil_of_length_pos (hlen.symm ▸ hpos)
      have hhead : ∀ l b, (data.take len ++ l).headD b = data.headD 0 := by
        intro l b
        rw [headD_append hne b 0]
        conv_rhs => rw [← List.take_append_drop len data]
        exact (headD_append hne 0 0).symm
      rw [if_neg hshort, Option.map_some, Option.map_some]
      simp only [if_pos hlarge, hhead]
      rcases hfirst with hfirst | hfirst
      · rw [hfirst, List.take_left' hlen, List.take_left' hlen]
      · rw [hfirst, List.take_zero, List.take_zero]
    · simp only [if_neg hlarge]

theorem readsSoundly_of_declaresLength (h : DeclaresLength s) : ReadsSoundly s where
  same := by
    intro prior prior' k k' rest rest' hread hread'
    obtain ⟨len, data, hsize, hdata, hfirst, hk⟩ := h.read hread
    obtain ⟨len', data', hsize', hdata', hfirst', hk'⟩ := h.read hread'
    rw [hsize] at hsize'
    obtain ⟨rfl, happ⟩ := Prod.mk.inj (Option.some.inj hsize')
    obtain ⟨rfl, -⟩ := List.append_inj happ (hdata.trans hdata'.symm)
    have hhead : k[0] = k'[0] := hfirst.trans hfirst'.symm
    have hlen : k.size = k'.size := congrArg CPubKey.getLen hhead
    refine ⟨hhead, ?_⟩
    rcases hk with hzero | ⟨hsize, -, hbytes⟩
    · rw [hzero, List.take_zero, List.take_zero]
    · rcases hk' with hzero' | ⟨-, -, hbytes'⟩
      · rw [hlen, hzero', List.take_zero, List.take_zero]
      · rw [PubKeyArray.bytes, ← hlen] at hbytes'
        exact hbytes.trans hbytes'.symm
  declared := by
    intro prior k rest data len hread hvalid hsize
    obtain ⟨len', data', hsize', -, -, hk⟩ := h.read hread
    rw [hsize] at hsize'
    cases hsize'
    obtain hzero | ⟨hlen, -, -⟩ := hk
    · exact absurd hzero (Nat.ne_of_gt hvalid)
    · exact hlen.symm
  restored := by
    intro prior k rest hread hvalid
    obtain ⟨len, data, hsize, -, -, hk⟩ := h.read hread
    obtain hzero | ⟨hlen, hlarge, hbytes⟩ := hk
    · exact absurd hzero (Nat.ne_of_gt hvalid)
    · rw [PubKeyArray.serialize, hbytes, hlen, List.append_assoc]
      exact (eq_put_of_readCompactSize hsize (hlarge.trans_lt (by decide))).symm
  determined := by
    intro O stale strType ssValue
    unfold readKey
    rw [h.fresh stale O.stale]
    rfl

/-- **A public key is read soundly if and only if the declared length is that of its first byte**, or
there is no key. -/
theorem readsSoundly_iff (prior : PubKeyArray)
    (haccept : (prior.unserialize s).isSome = true) :
    ReadsSoundly s ↔ DeclaresLength s := by
  refine ⟨fun h ↦ ?_, readsSoundly_of_declaresLength⟩
  obtain ⟨⟨k, rest⟩, hread⟩ := Option.isSome_iff_exists.1 haccept
  obtain ⟨len, data, hsize, hdata, -⟩ := PubKeyArray.exists_of_unserialize hread
  refine ⟨len, data ++ rest, hsize, ?_⟩
  by_contra hnot
  obtain ⟨hlarge, hnot⟩ := not_or.1 hnot
  have hread : ∀ prior : PubKeyArray, prior.unserialize s = some (prior.overwrite data, rest) := by
    intro prior
    rw [PubKeyArray.unserialize_eq hsize hdata, if_pos (not_lt.1 hlarge)]
  by_cases hpos : 0 < len
  · have hne : data ≠ [] := List.ne_nil_of_length_pos (hdata ▸ hpos)
    obtain ⟨hlen, hzero⟩ := not_or.1 (not_and.1 hnot hpos)
    rw [headD_append hne 0 0, ← PubKeyArray.head_overwrite prior hne] at hlen hzero
    exact hlen (h.declared (hread prior) (Nat.pos_of_ne_zero hzero) hsize).symm
  -- without a declared byte each array stays what it was
  · have hnil : data = [] := List.length_eq_zero_iff.1 (by omega)
    have hsame := (h.same (hread (Vector.replicate 65 0)) (hread (Vector.replicate 65 2))).1
    rw [hnil] at hsame
    exact absurd hsame (by decide)

end

/-- The key of a wallet record. -/
theorem readsSoundly_iff_sample :
    ReadsSoundly (33 :: 2 :: List.replicate 32 7) ↔ DeclaresLength (33 :: 2 :: List.replicate 32 7) :=
  readsSoundly_iff (Vector.replicate 65 0) (by decide +kernel)

/-- A stream that declares two bytes of a compressed key: the others are those of the array. -/
theorem not_readsSoundly : ¬ ReadsSoundly [2, 2, 7] := by
  intro h
  have hsize : readCompactSize [2, 2, 7] = some (2, [2, 7] ++ []) := by decide +kernel
  have hread (prior : PubKeyArray) := PubKeyArray.unserialize_eq hsize rfl prior
  exact absurd (h.same (hread (Vector.replicate 65 0)) (hread (Vector.replicate 65 1)))
    (by decide +kernel)

end Bws
