import Bws.AcceptBlock
import Mathlib.Data.Finset.Basic
import Std.Data.TreeMap

/-!
# Transactions that wait for their parents

`mapOrphanTransactions` keeps transactions some of whose inputs are not known yet, and
`mapOrphanTransactionsByPrev` finds them by the hash of a parent.  The second map is the inverted
index of the first after any sequence of `AddOrphanTx`, `EraseOrphanTx` and `LimitOrphanTxSize`
(`OrphanTxs.Reachable.indexed`), and `LimitOrphanTxSize` ends whatever it draws
(`OrphanTxs.limitFrom_eq_some`).
-/

namespace Bws

structure OrphanTxs where
  mapOrphanTransactions : Std.TreeMap UInt256 CTransaction
  mapOrphanTransactionsByPrev : UInt256 → Option (Finset UInt256)

namespace OrphanTxs

def empty : OrphanTxs := ⟨∅, fun _ ↦ none⟩

/-! ## The operations -/

/-- The loop of `AddOrphanTx` over the inputs: `mapOrphanTransactionsByPrev[..].insert(hash)`. -/
def linkPrevs (hash : UInt256) (byPrev : UInt256 → Option (Finset UInt256)) :
    List CTxIn → UInt256 → Option (Finset UInt256)
  | [] => byPrev
  | txin :: vin =>
    linkPrevs hash (Function.update byPrev txin.prevout.hash
      (some (insert hash ((byPrev txin.prevout.hash).getD ∅)))) vin

/-- `AddOrphanTx` -/
def addOrphanTx (P : Params) (s : OrphanTxs) (tx : CTransaction) : OrphanTxs × Bool :=
  let hash := P.getHash tx
  if s.mapOrphanTransactions.contains hash then (s, false)
  -- ignore big transactions
  else if 5000 < tx.serializeSize then (s, false)
  else
    ({ mapOrphanTransactions := s.mapOrphanTransactions.insert hash tx
       mapOrphanTransactionsByPrev := linkPrevs hash s.mapOrphanTransactionsByPrev tx.vin }, true)

/-- The loop of `EraseOrphanTx` over the inputs; a set that gets empty is erased. -/
def unlinkPrevs (hash : UInt256) (byPrev : UInt256 → Option (Finset UInt256)) :
    List CTxIn → UInt256 → Option (Finset UInt256)
  | [] => byPrev
  | txin :: vin =>
    match byPrev txin.prevout.hash with
    | none => unlinkPrevs hash byPrev vin
    | some prev =>
      unlinkPrevs hash (Function.update byPrev txin.prevout.hash
        (if prev.erase hash = ∅ then none else some (prev.erase hash))) vin

/-- `EraseOrphanTx` -/
def eraseOrphanTx (s : OrphanTxs) (hash : UInt256) : OrphanTxs :=
  match s.mapOrphanTransactions[hash]? with
  | none => s
  | some tx =>
    { mapOrphanTransactions := s.mapOrphanTransactions.erase hash
      mapOrphanTransactionsByPrev := unlinkPrevs hash s.mapOrphanTransactionsByPrev tx.vin }

/-- The orphan that `LimitOrphanTxSize` evicts: the one at `lower_bound(randomhash)`, or the first
one if that is the end. -/
def evicted (s : OrphanTxs) (randomhash : UInt256) : Option UInt256 :=
  (s.mapOrphanTransactions.keys.find? (randomhash ≤ ·)).or s.mapOrphanTransactions.keys.head?

/-- The loop of `LimitOrphanTxSize`; the draws still to come and the rounds left are arguments, and
`none` means that the loop is not at its end after them. -/
def limitFrom (nMaxOrphans : ℕ) (getRandHash : ℕ → UInt256) :
    ℕ → ℕ → OrphanTxs → Option (OrphanTxs × ℕ)
  | fuel, nEvicted, s =>
    if nMaxOrphans < s.mapOrphanTransactions.size then
      match fuel, s.evicted (getRandHash nEvicted) with
      | fuel + 1, some hash =>
        limitFrom nMaxOrphans getRandHash fuel (nEvicted + 1) (s.eraseOrphanTx hash)
      | _, _ => none
    else some (s, nEvicted)

/-- `LimitOrphanTxSize`: every round evicts an orphan, so that as many rounds as orphans are
enough. -/
def limitOrphanTxSize (nMaxOrphans : ℕ) (getRandHash : ℕ → UInt256) (s : OrphanTxs) :
    Option (OrphanTxs × ℕ) :=
  limitFrom nMaxOrphans getRandHash s.mapOrphanTransactions.size 0 s

/-! ## The inverted index -/

/-- The second map is the inverted index of the first, and keeps no empty set. -/
structure Indexed (s : OrphanTxs) : Prop where
  nonempty : ∀ p prev, s.mapOrphanTransactionsByPrev p = some prev → prev ≠ ∅
  mem_iff : ∀ p hash, hash ∈ (s.mapOrphanTransactionsByPrev p).getD ∅ ↔
    ∃ tx, s.mapOrphanTransactions[hash]? = some tx ∧ ∃ txin ∈ tx.vin, txin.prevout.hash = p

/-- One parent after an orphan has left: no empty set is kept. -/
def unlinkPrev (hash : UInt256) (prev : Option (Finset UInt256)) : Option (Finset UInt256) :=
  prev.bind fun prev ↦ if prev.erase hash = ∅ then none else some (prev.erase hash)

@[simp] theorem unlinkPrev_unlinkPrev (hash : UInt256) (prev : Option (Finset UInt256)) :
    unlinkPrev hash (unlinkPrev hash prev) = unlinkPrev hash prev := by
  rcases prev with _ | prev
  · rfl
  · by_cases h : prev.erase hash = ∅ <;> simp [unlinkPrev, h]

theorem unlinkPrev_ne_empty {hash : UInt256} {prev : Option (Finset UInt256)}
    {prev' : Finset UInt256} (h : unlinkPrev hash prev = some prev') : prev' ≠ ∅ := by
  obtain ⟨prev, -, h⟩ := Option.bind_eq_some_iff.1 h
  split_ifs at h with hne
  obtain rfl := Option.some.inj h
  exact hne

@[simp] theorem mem_unlinkPrev (hash h : UInt256) (prev : Option (Finset UInt256)) :
    h ∈ (unlinkPrev hash prev).getD ∅ ↔ h ≠ hash ∧ h ∈ prev.getD ∅ := by
  rcases prev with _ | prev
  · simp [unlinkPrev]
  · by_cases hne : prev.erase hash = ∅
    · have hmem : h ∉ prev.erase hash := hne ▸ Finset.notMem_empty h
      rw [Finset.mem_erase] at hmem
      simp only [unlinkPrev, Option.bind_some, if_pos hne, Option.getD_none, Option.getD_some,
        Finset.notMem_empty, false_iff]
      exact hmem
    · simp [unlinkPrev, hne]

/-- The parents of the orphan get it once each, however many inputs come from one parent. -/
theorem linkPrevs_apply (hash : UInt256) (byPrev : UInt256 → Option (Finset UInt256))
    (vin : List CTxIn) (p : UInt256) :
    linkPrevs hash byPrev vin p =
      if ∃ txin ∈ vin, txin.prevout.hash = p then some (insert hash ((byPrev p).getD ∅))
      else byPrev p := by
  induction vin generalizing byPrev with
  | nil => simp [linkPrevs]
  | cons txin vin ih =>
    rw [linkPrevs, ih]
    rcases eq_or_ne p txin.prevout.hash with rfl | hp
    · simp
    · simp [Function.update_of_ne hp, hp.symm]

/-- The parents of the orphan lose it; that its entry may be gone before the last input of a
parent does not matter. -/
theorem unlinkPrevs_apply (hash : UInt256) (byPrev : UInt256 → Option (Finset UInt256))
    (vin : List CTxIn) (p : UInt256) :
    unlinkPrevs hash byPrev vin p =
      if ∃ txin ∈ vin, txin.prevout.hash = p then unlinkPrev hash (byPrev p) else byPrev p := by
  induction vin generalizing byPrev with
  | nil => simp [unlinkPrevs]
  | cons txin vin ih =>
    -- a round changes the entry of one parent, and nothing if there is no entry
    have hround : unlinkPrevs hash byPrev (txin :: vin) = unlinkPrevs hash
        (Function.update byPrev txin.prevout.hash (unlinkPrev hash (byPrev txin.prevout.hash)))
        vin := by
      rw [unlinkPrevs]
      rcases hprev : byPrev txin.prevout.hash with _ | prev
      · rw [show unlinkPrev hash none = byPrev txin.prevout.hash from hprev.symm,
          Function.update_eq_self]
      · rfl
    rw [hround, ih]
    rcases eq_or_ne p txin.prevout.hash with rfl | hp
    · simp
    · simp [Function.update_of_ne hp, hp.symm]

theorem Indexed.addOrphanTx {s : OrphanTxs} (h : s.Indexed) (P : Params) (tx : CTransaction) :
    (s.addOrphanTx P tx).1.Indexed := by
  unfold OrphanTxs.addOrphanTx
  dsimp only
  split_ifs with hold
  · exact h
  · exact h
  · have hnew : s.mapOrphanTransactions[P.getHash tx]? = none := by simpa using hold
    refine ⟨fun p prev hprev ↦ ?_, fun p hash ↦ ?_⟩
    · dsimp only at hprev
      rw [linkPrevs_apply] at hprev
      split_ifs at hprev with hp
      · obtain rfl := Option.some.inj hprev
        exact Finset.insert_ne_empty _ _
      · exact h.nonempty p prev hprev
    · have hmem := h.mem_iff p hash
      dsimp only
      rw [linkPrevs_apply, Std.TreeMap.getElem?_insert]
      rcases eq_or_ne hash (P.getHash tx) with rfl | hne
      · have hnot : P.getHash tx ∉ (s.mapOrphanTransactionsByPrev p).getD ∅ := by
          simp [hmem, hnew]
        split_ifs with hp <;> simp_all
      · split_ifs with hp heq <;> simp_all

theorem Indexed.eraseOrphanTx {s : OrphanTxs} (h : s.Indexed) (hash : UInt256) :
    (s.eraseOrphanTx hash).Indexed := by
  unfold OrphanTxs.eraseOrphanTx
  split
  · exact h
  · rename_i tx htx
    refine ⟨fun p prev hprev ↦ ?_, fun p hash' ↦ ?_⟩
    · dsimp only at hprev
      rw [unlinkPrevs_apply] at hprev
      split_ifs at hprev with hp
      · exact unlinkPrev_ne_empty hprev
      · exact h.nonempty p prev hprev
    · have hmem := h.mem_iff p hash'
      dsimp only
      rw [unlinkPrevs_apply, Std.TreeMap.getElem?_erase]
      rcases eq_or_ne hash' hash with rfl | hne
      · split_ifs with hp <;> simp_all
      · split_ifs with hp heq <;> simp_all

/-! ## Eviction -/

theorem mem_of_evicted {s : OrphanTxs} {randomhash hash : UInt256}
    (h : s.evicted randomhash = some hash) : hash ∈ s.mapOrphanTransactions := by
  rw [← Std.TreeMap.mem_keys]
  rcases Option.or_eq_some_iff.1 h with h | ⟨-, h⟩
  · exact List.mem_of_find?_eq_some h
  · exact List.mem_of_head? h

/-- Where there is an orphan, every draw evicts one. -/
theorem exists_evicted {s : OrphanTxs} (hsize : 0 < s.mapOrphanTransactions.size)
    (randomhash : UInt256) : ∃ hash, s.evicted randomhash = some hash := by
  have hkeys : s.mapOrphanTransactions.keys ≠ [] := by
    rw [← List.length_pos_iff_ne_nil, Std.TreeMap.length_keys]
    exact hsize
  obtain ⟨hash, vhash, hhead⟩ := List.exists_cons_of_ne_nil hkeys
  rcases hfind : s.mapOrphanTransactions.keys.find? (randomhash ≤ ·) with _ | it
  · exact ⟨hash, by rw [evicted, hfind, hhead]; rfl⟩
  · exact ⟨it, by rw [evicted, hfind]; rfl⟩

theorem size_eraseOrphanTx {s : OrphanTxs} {hash : UInt256}
    (h : hash ∈ s.mapOrphanTransactions) :
    (s.eraseOrphanTx hash).mapOrphanTransactions.size = s.mapOrphanTransactions.size - 1 := by
  obtain ⟨tx, htx⟩ := Std.TreeMap.mem_iff_isSome_getElem?.1 h |> Option.isSome_iff_exists.1
  rw [eraseOrphanTx, htx]
  simp [Std.TreeMap.size_erase, h]

/-- With as many rounds as orphans the loop ends, and it ends with few enough of them. -/
theorem limitFrom_eq_some (nMaxOrphans : ℕ) (getRandHash : ℕ → UInt256) {fuel nEvicted : ℕ}
    {s : OrphanTxs} (hfuel : s.mapOrphanTransactions.size ≤ fuel) :
    ∃ s' n, limitFrom nMaxOrphans getRandHash fuel nEvicted s = some (s', n) ∧
      s'.mapOrphanTransactions.size ≤ nMaxOrphans := by
  induction fuel generalizing nEvicted s with
  | zero => exact ⟨s, nEvicted, by simp [limitFrom, Nat.le_zero.1 hfuel], by omega⟩
  | succ fuel ih =>
    unfold limitFrom
    split_ifs with hsize
    · obtain ⟨hash, hash_eq⟩ := exists_evicted (s := s) (by omega) (getRandHash nEvicted)
      have herase := size_eraseOrphanTx (mem_of_evicted hash_eq)
      rw [hash_eq]
      exact ih (by omega)
    · exact ⟨s, nEvicted, rfl, by omega⟩

theorem limitOrphanTxSize_eq_some (s : OrphanTxs) (nMaxOrphans : ℕ) (getRandHash : ℕ → UInt256) :
    ∃ s' n, s.limitOrphanTxSize nMaxOrphans getRandHash = some (s', n) ∧
      s'.mapOrphanTransactions.size ≤ nMaxOrphans :=
  limitFrom_eq_some nMaxOrphans getRandHash le_rfl

theorem Indexed.limitFrom {nMaxOrphans : ℕ} {getRandHash : ℕ → UInt256} {fuel nEvicted n : ℕ}
    {s s' : OrphanTxs} (h : s.Indexed)
    (hlimit : OrphanTxs.limitFrom nMaxOrphans getRandHash fuel nEvicted s = some (s', n)) :
    s'.Indexed := by
  induction fuel generalizing nEvicted s with
  | zero =>
    unfold OrphanTxs.limitFrom at hlimit
    split_ifs at hlimit
    obtain ⟨rfl, -⟩ := Prod.ext_iff.1 (Option.some.inj hlimit)
    exact h
  | succ fuel ih =>
    unfold OrphanTxs.limitFrom at hlimit
    split_ifs at hlimit
    · split at hlimit
      · rename_i fuel' hash hfuel heq
        obtain rfl := Nat.succ.inj hfuel
        exact ih (h.eraseOrphanTx hash) hlimit
      · cases hlimit
    · obtain ⟨rfl, -⟩ := Prod.ext_iff.1 (Option.some.inj hlimit)
      exact h

/-! ## Runs -/

/-- What any sequence of calls leaves, whatever the random draws. -/
inductive Reachable (P : Params) : OrphanTxs → Prop
  | empty : Reachable P empty
  | add {s : OrphanTxs} (tx : CTransaction) : Reachable P s → Reachable P (s.addOrphanTx P tx).1
  | erase {s : OrphanTxs} (hash : UInt256) : Reachable P s → Reachable P (s.eraseOrphanTx hash)
  | limit {s s' : OrphanTxs} {n : ℕ} (nMaxOrphans : ℕ) (getRandHash : ℕ → UInt256) :
    Reachable P s → s.limitOrphanTxSize nMaxOrphans getRandHash = some (s', n) → Reachable P s'

theorem Reachable.indexed {P : Params} {s : OrphanTxs} (h : Reachable P s) : s.Indexed := by
  induction h with
  | empty => exact ⟨fun _ _ h ↦ (nomatch h), fun p hash ↦ by simp [OrphanTxs.empty]⟩
  | add tx _ ih => exact ih.addOrphanTx P tx
  | erase hash _ ih => exact ih.eraseOrphanTx hash
  | limit nMaxOrphans getRandHash _ hlimit ih => exact ih.limitFrom hlimit

/-- After any calls the second map is the inverted index of the first, and `LimitOrphanTxSize` ends
with at most as many orphans as it is told, whatever it draws. -/
theorem Reachable.indexed_and_limited {P : Params} {s : OrphanTxs} (h : Reachable P s) :
    s.Indexed ∧ ∀ (nMaxOrphans : ℕ) (getRandHash : ℕ → UInt256), ∃ s' n,
      s.limitOrphanTxSize nMaxOrphans getRandHash = some (s', n) ∧
        s'.mapOrphanTransactions.size ≤ nMaxOrphans :=
  ⟨h.indexed, s.limitOrphanTxSize_eq_some⟩

namespace Sample

/-- An orphan with the given hash and parents; each output of a parent is one of its inputs. -/
def orphan (tag : ℕ) (prevs : List (UInt256 × ℕ)) : CTransaction where
  nVersion := 1
  nTime := 0
  vin := prevs.map fun p ↦ ⟨⟨p.1, p.2⟩, [], uintMax⟩
  vout := [⟨1, [0, 0]⟩]
  nLockTime := tag

/-- Three orphans of two parents; the first spends two outputs of one of them. -/
def vtx : List CTransaction :=
  [orphan 4 [(50, 0), (50, 1), (60, 0)], orphan 5 [(60, 1)], orphan 6 [(50, 2)]]

/-- The orphans have arrived, and the first is erased again. -/
def orphans : OrphanTxs :=
  (vtx.foldl (fun s tx ↦ (s.addOrphanTx Bws.Sample.params tx).1) OrphanTxs.empty).eraseOrphanTx 5

example : (orphans.mapOrphanTransactions.keys, orphans.mapOrphanTransactionsByPrev 50,
    orphans.mapOrphanTransactionsByPrev 60) = ([6, 7], some {7}, some {6}) := by
  decide +kernel

end Sample

theorem Reachable.indexed_and_limited_sample :
    Sample.orphans.Indexed ∧ ∃ s' n,
      Sample.orphans.limitOrphanTxSize 1 (fun _ ↦ 100) = some (s', n) ∧
        s'.mapOrphanTransactions.size ≤ 1 :=
  have hreach : Reachable Bws.Sample.params Sample.orphans :=
    (((Reachable.empty.add _).add _).add _).erase 5
  ⟨hreach.indexed_and_limited.1, hreach.indexed_and_limited.2 1 fun _ ↦ 100⟩

end OrphanTxs

end Bws
