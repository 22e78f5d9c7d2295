import Bws.Lib.SignMagnitude

/-!
# Codecs that accept only what they write

The law of a codec says that what was written is read back.  A codec is canonical
(`Codec.Canonical`) when it also reads nothing else: what a reader has consumed is what the writer
would have put.  Then no two strings of bytes are read as the same value (`Canonical.bytes_inj`).
Records and vectors of canonical codecs are canonical.

A reader may get the elements of a vector block by block; that makes no difference
(`readBlocks_eq`).
-/

universe u v

namespace Codec

variable {α : Type u} {β : Type v}

/-- What is read is what would have been written. -/
def Canonical (F : Codec α) : Prop := ∀ ⦃bytes : List UInt8⦄ ⦃a : α⦄ ⦃rest : List UInt8⦄,
  F.get bytes = some (a, rest) → F.Valid a ∧ bytes = F.put a ++ rest

theorem Canonical.bytes_inj {F : Codec α} (h : F.Canonical) {bytes bytes' rest : List UInt8}
    {a : α} (hget : F.get bytes = some (a, rest)) (hget' : F.get bytes' = some (a, rest)) :
    bytes = bytes' := (h hget).2.trans (h hget').2.symm

/-- A codec with another way to read the same. -/
def withGet (F : Codec α) (get : List UInt8 → Option (α × List UInt8))
    (h : ∀ bytes, get bytes = F.get bytes) : Codec α where
  Valid := F.Valid
  put := F.put
  get := get
  get_put hvalid rest := (h _).trans (F.get_put hvalid rest)

theorem Canonical.withGet {F : Codec α} (hF : F.Canonical)
    {get : List UInt8 → Option (α × List UInt8)} (h : ∀ bytes, get bytes = F.get bytes) :
    (F.withGet get h).Canonical := fun _ _ _ hget ↦ hF ((h _).symm.trans hget)

/-! ## Records -/

theorem Canonical.imap {F : Codec α} (hF : F.Canonical) {f : α → β} {g : β → α}
    (hg : ∀ a, F.Valid a → g (f a) = a) : (F.imap f g).Canonical := by
  intro bytes b rest hget
  obtain ⟨⟨a, rest'⟩, ha, hpair⟩ := Option.map_eq_some_iff.1 hget
  obtain ⟨rfl, rfl⟩ := Prod.mk.inj hpair
  obtain ⟨hvalid, rfl⟩ := hF ha
  have hback : g (f a) = a := hg a hvalid
  refine ⟨⟨hback.symm ▸ hvalid, by rw [hback]⟩, ?_⟩
  show F.put a ++ rest' = F.put (g (f a)) ++ rest'
  rw [hback]

theorem Canonical.bind {F : Codec α} {G : α → Codec β} (hF : F.Canonical)
    (hG : ∀ a, F.Valid a → (G a).Canonical) : (F.bind G).Canonical := by
  rintro bytes ⟨a, b⟩ rest hget
  obtain ⟨⟨a', mid⟩, ha, hrest⟩ := Option.bind_eq_some_iff.1 hget
  obtain ⟨⟨b', rest'⟩, hb, hpair⟩ := Option.map_eq_some_iff.1 hrest
  obtain ⟨hab, rfl⟩ := Prod.mk.inj hpair
  obtain ⟨rfl, rfl⟩ := Prod.mk.inj hab
  obtain ⟨hvalid, rfl⟩ := hF ha
  obtain ⟨hvalid', hmid⟩ := hG _ hvalid hb
  refine ⟨⟨hvalid, hvalid'⟩, ?_⟩
  rw [show mid = _ from hmid, ← List.append_assoc]
  rfl

theorem Canonical.prod {F : Codec α} {G : Codec β} (hF : F.Canonical) (hG : G.Canonical) :
    (F.prod G).Canonical := hF.bind fun _ _ ↦ hG

/-! ## Integers -/

theorem canonical_raw (n : ℕ) : (raw n).Canonical := by
  intro bytes a rest hget
  change (if bytes.length < n then none else some (bytes.take n, bytes.drop n)) = _ at hget
  split at hget
  · cases hget
  · rename_i hlen
    obtain ⟨rfl, rfl⟩ := Prod.mk.inj (Option.some.inj hget)
    exact ⟨List.length_take_of_le (not_lt.1 hlen), (List.take_append_drop n bytes).symm⟩

theorem toLE_ofLE (l : List UInt8) : toLE l.length (ofLE l) = l := by
  induction l with
  | nil => rfl
  | cons b l ih =>
    have hcons : ofLE (b :: l) = b.toNat + 256 * ofLE l := Nat.ofDigits_cons ..
    have hb := b.toNat_lt
    rw [List.length_cons, toLE, hcons, show (b.toNat + 256 * ofLE l) % 256 = b.toNat by omega,
      show (b.toNat + 256 * ofLE l) / 256 = ofLE l by omega, ih, UInt8.ofNat_toNat]

theorem canonical_uint (n : ℕ) : (uint n).Canonical := by
  intro bytes x rest hget
  obtain ⟨⟨l, rest'⟩, hl, hpair⟩ := Option.map_eq_some_iff.1 hget
  obtain ⟨rfl, rfl⟩ := Prod.mk.inj hpair
  obtain ⟨rfl, hbytes⟩ : l.length = n ∧ bytes = l ++ rest' := canonical_raw n hl
  refine ⟨SignMagnitude.ofLE_lt l, ?_⟩
  show bytes = toLE l.length (ofLE l) ++ rest'
  rw [toLE_ofLE, hbytes]

theorem canonical_int (n : ℕ) : (int n).Canonical := by
  refine Canonical.imap (canonical_uint n) fun x hx ↦ ?_
  have hlt : x < 256 ^ n := hx
  rw [Int.bmod_emod, Int.emod_eq_of_lt (Int.natCast_nonneg x) (by exact_mod_cast hlt),
    Int.toNat_natCast]

theorem valid_int_iff {n : ℕ} {x : ℤ} : (int (n + 1)).Valid x ↔
    -(256 ^ (n + 1) : ℕ) ≤ 2 * x ∧ 2 * x < (256 ^ (n + 1) : ℕ) := by
  refine ⟨fun h ↦ ?_, fun h ↦ valid_int h.1 h.2⟩
  have hpos : 0 < 256 ^ (n + 1) := Nat.pos_of_ne_zero (by positivity)
  have hx : Int.bmod (x % (256 ^ (n + 1) : ℕ)).toNat (256 ^ (n + 1)) = x := h.2
  have hlow := Int.le_bmod (x := (x % (256 ^ (n + 1) : ℕ)).toNat) hpos
  have hhigh := Int.bmod_lt (x := (x % (256 ^ (n + 1) : ℕ)).toNat) hpos
  rw [hx] at hlow hhigh
  have heven : 2 ∣ 256 ^ (n + 1) := Dvd.dvd.pow (by decide) (Nat.succ_ne_zero n)
  omega

/-! ## Vectors -/

theorem Canonical.getMany {F : Codec α} (hF : F.Canonical) {n : ℕ} {bytes rest : List UInt8}
    {l : List α} (h : F.getMany n bytes = some (l, rest)) :
    (l.length = n ∧ ∀ a ∈ l, F.Valid a) ∧ bytes = l.flatMap F.put ++ rest := by
  induction n generalizing bytes l with
  | zero =>
    cases h
    exact ⟨⟨rfl, List.forall_mem_nil _⟩, rfl⟩
  | succ n ih =>
    obtain ⟨⟨a, mid⟩, ha, hrest⟩ := Option.bind_eq_some_iff.1 h
    obtain ⟨⟨l', rest'⟩, hl, hpair⟩ := Option.map_eq_some_iff.1 hrest
    obtain ⟨rfl, rfl⟩ := Prod.mk.inj hpair
    obtain ⟨hvalid, rfl⟩ := hF ha
    obtain ⟨⟨rfl, hall⟩, hmid⟩ := ih hl
    refine ⟨⟨rfl, List.forall_mem_cons.2 ⟨hvalid, hall⟩⟩, ?_⟩
    rw [List.flatMap_cons, List.append_assoc, ← hmid]

theorem Canonical.many {F : Codec α} (hF : F.Canonical) (n : ℕ) : (F.many n).Canonical :=
  fun _ _ _ hget ↦ hF.getMany hget

/-! ## Blocks -/

/-- A vector of `n` elements is read in blocks of at most `blk` elements; `n` rounds are enough. -/
def readBlocks (get : ℕ → List UInt8 → Option (List α × List UInt8)) (blk : ℕ) :
    ℕ → ℕ → List UInt8 → Option (List α × List UInt8)
  | 0, _, bytes => some ([], bytes)
  | fuel + 1, n, bytes =>
    if n = 0 then some ([], bytes)
    else (get (min n blk) bytes).bind fun r ↦
      (readBlocks get blk fuel (n - min n blk) r.2).map fun q ↦ (r.1 ++ q.1, q.2)

/-- To read `m` and then `n` is to read `m + n`. -/
structure ReadsOn (get : ℕ → List UInt8 → Option (List α × List UInt8)) : Prop where
  zero : ∀ bytes, get 0 bytes = some ([], bytes)
  add : ∀ m n bytes, get (m + n) bytes =
    (get m bytes).bind fun r ↦ (get n r.2).map fun q ↦ (r.1 ++ q.1, q.2)

/-- **Blocks make no difference.** -/
theorem readBlocks_eq {get : ℕ → List UInt8 → Option (List α × List UInt8)} (h : ReadsOn get)
    {blk : ℕ} (hblk : 0 < blk) {fuel n : ℕ} (hfuel : n ≤ fuel) (bytes : List UInt8) :
    readBlocks get blk fuel n bytes = get n bytes := by
  induction fuel generalizing n bytes with
  | zero =>
    rw [Nat.le_zero.1 hfuel]
    exact (h.zero bytes).symm
  | succ fuel ih =>
    rw [readBlocks]
    split
    · rename_i hn
      rw [hn]
      exact (h.zero bytes).symm
    · have hsplit := h.add (min n blk) (n - min n blk) bytes
      rw [Nat.add_sub_cancel' (Nat.min_le_left ..)] at hsplit
      rw [hsplit]
      refine congrArg (Option.bind _) (funext fun r ↦ ?_)
      rw [ih (by omega)]

theorem readsOn_raw : ReadsOn fun n ↦ (raw n).get where
  zero bytes := by
    show (if bytes.length < 0 then none else some (bytes.take 0, bytes.drop 0)) = _
    rw [if_neg (Nat.not_lt_zero _), List.take_zero, List.drop_zero]
  add m n bytes := by
    show (if bytes.length < m + n then none
      else some (bytes.take (m + n), bytes.drop (m + n))) =
      (if bytes.length < m then none else some (bytes.take m, bytes.drop m)).bind fun r ↦
        (if r.2.length < n then none else some (r.2.take n, r.2.drop n)).map _
    by_cases hm : bytes.length < m
    · rw [if_pos hm, if_pos (by omega)]
      rfl
    · rw [if_neg hm, Option.bind_some, List.length_drop]
      by_cases hn : bytes.length < m + n
      · rw [if_pos hn, if_pos (by omega)]
        rfl
      · rw [if_neg hn, if_neg (by omega), Option.map_some, List.take_add, List.drop_drop]

theorem readsOn_getMany (F : Codec α) : ReadsOn F.getMany where
  zero _ := rfl
  add m n bytes := by
    induction m generalizing bytes with
    | zero =>
      rw [Nat.zero_add, Codec.getMany, Option.bind_some]
      exact Option.map_id'.symm
    | succ m ih =>
      rw [Nat.succ_add, Codec.getMany, Codec.getMany, Option.bind_assoc]
      refine congrArg (Option.bind _) (funext fun r ↦ ?_)
      rw [ih, Option.map_bind, Option.bind_map]
      refine congrArg (Option.bind _) (funext fun q ↦ ?_)
      rw [Function.comp_apply, Option.map_map]
      rfl

end Codec
