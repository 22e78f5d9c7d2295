import Bws.Flags
import Bws.Reach

/-!
# The links of the memory pool

`mapNextTx` says for an outpoint which transaction of the pool spends it, and `remove` follows it to
take the descendants of a transaction out first.  After any sequence of calls it agrees with `mapTx`
(`CTxMemPool.Run.linked`): the recursion erases a transaction only when it has erased all that spend
it, so that the entry it stands on is there when it comes back.

A transaction contains the hashes of those that it spends, so that no transaction is its own
descendant; `HashLawful` assumes that of the transactions that occur.  The recursion then ends, and
the fuel that `remove` has is enough (`CTxMemPool.removeFrom_eq_remove`).
-/

namespace Bws

/-- What is assumed of the hashes of the transactions `txs`: they do not collide, and no transaction
contains its own hash, or that of a transaction which does. -/
structure HashLawful (P : Params) (txs : Set CTransaction) (rank : UInt256 → ℕ) : Prop where
  inj : Set.InjOn P.getHash txs
  rank_lt : ∀ tx ∈ txs, ∀ txin ∈ tx.vin, rank txin.prevout.hash < rank (P.getHash tx)

namespace CTxMemPool

/-- `mapNextTx` names a transaction of the pool and one of its inputs exactly for the outpoints that
are spent by it. -/
structure Linked (P : Params) (txs : Set CTransaction) (pool : CTxMemPool) : Prop where
  mem : ∀ {hash : UInt256} {tx : CTransaction}, pool.mapTx[hash]? = some tx → tx ∈ txs
  key : ∀ {hash : UInt256} {tx : CTransaction}, pool.mapTx[hash]? = some tx → P.getHash tx = hash
  nodup : ∀ {hash : UInt256} {tx : CTransaction}, pool.mapTx[hash]? = some tx →
    (tx.vin.map CTxIn.prevout).Nodup
  next : ∀ {o : COutPoint} {hash : UInt256} {i : ℕ}, pool.mapNextTx o = some (hash, i) ↔
    ∃ tx, pool.mapTx[hash]? = some tx ∧ ∃ txin ∈ tx.vin[i]?, txin.prevout = o

/-- A transaction spends an output of another one. -/
def Spends (P : Params) (tx txNext : CTransaction) : Prop :=
  ∃ txin ∈ txNext.vin, ∃ i < tx.vout.length, txin.prevout = ⟨P.getHash tx, i⟩

variable {P : Params} {txs : Set CTransaction} {pool pool' pool'' : CTxMemPool}

/-! ## Entries -/

/-- The entry of an outpoint that a transaction of the pool spends. -/
theorem Linked.exists_next (h : pool.Linked P txs) {hash : UInt256} {tx : CTransaction}
    (htx : pool.mapTx[hash]? = some tx) {txin : CTxIn} (hmem : txin ∈ tx.vin) :
    ∃ i, pool.mapNextTx txin.prevout = some (hash, i) := by
  obtain ⟨i, hi⟩ := List.mem_iff_getElem?.1 hmem
  exact ⟨i, h.next.2 ⟨tx, htx, txin, hi, rfl⟩⟩

/-- The transaction that an entry names. -/
theorem Linked.of_next (h : pool.Linked P txs) {o : COutPoint} {hash : UInt256} {i : ℕ}
    (hnext : pool.mapNextTx o = some (hash, i)) :
    ∃ tx, pool.mapTx[hash]? = some tx ∧ ∃ txin ∈ tx.vin, txin.prevout = o := by
  obtain ⟨tx, htx, txin, hi, heq⟩ := h.next.1 hnext
  exact ⟨tx, htx, txin, List.mem_of_getElem? hi, heq⟩

/-- No two transactions of the pool spend the same outpoint. -/
theorem Linked.eq_of_prevout (h : pool.Linked P txs) {hash hash' : UInt256}
    {tx tx' : CTransaction} (htx : pool.mapTx[hash]? = some tx)
    (htx' : pool.mapTx[hash']? = some tx') {txin txin' : CTxIn} (hmem : txin ∈ tx.vin)
    (hmem' : txin' ∈ tx'.vin) (heq : txin.prevout = txin'.prevout) : hash = hash' := by
  obtain ⟨i, hi⟩ := h.exists_next htx hmem
  obtain ⟨j, hj⟩ := h.exists_next htx' hmem'
  rw [heq, hj] at hi
  exact (Prod.ext_iff.1 (Option.some.inj hi)).1.symm

/-! ## Adding a transaction -/

/-- The entries of the inputs, which spend different outpoints, and the entries from before. -/
theorem linkInputs_eq_some {hash : UInt256} {mapNextTx : COutPoint → Option (UInt256 × ℕ)}
    {vin : List CTxIn} (hnodup : (vin.map CTxIn.prevout).Nodup) {n : ℕ} {o : COutPoint}
    {e : UInt256 × ℕ} :
    linkInputs hash mapNextTx n vin o = some e ↔
      (∃ k, (∃ txin ∈ vin[k]?, txin.prevout = o) ∧ e = (hash, n + k)) ∨
        (∀ txin ∈ vin, txin.prevout ≠ o) ∧ mapNextTx o = some e := by
  induction vin generalizing mapNextTx n with
  | nil => simp [linkInputs]
  | cons txin vin ih =>
    simp only [List.map_cons, List.nodup_cons, List.mem_map, not_exists, not_and] at hnodup
    rw [linkInputs, ih hnodup.2]
    rcases eq_or_ne o txin.prevout with rfl | hne
    · have hrest : ∀ k : ℕ, ¬ ∃ txin' ∈ vin[k]?, CTxIn.prevout txin' = txin.prevout :=
        fun k ⟨txin', hk, heq⟩ ↦ hnodup.1 txin' (List.mem_of_getElem? hk) heq
      constructor
      · rintro (⟨k, hk, -⟩ | ⟨-, he⟩)
        · exact absurd hk (hrest k)
        · rw [Function.update_self] at he
          exact .inl ⟨0, ⟨txin, rfl, rfl⟩, (Option.some.inj he).symm⟩
      · rintro (⟨k, hk, rfl⟩ | ⟨hall, -⟩)
        · rcases k with _ | k
          · exact .inr ⟨hnodup.1, by rw [Function.update_self]; rfl⟩
          · exact absurd hk (hrest k)
        · exact absurd rfl (hall txin List.mem_cons_self)
    · rw [Function.update_of_ne hne]
      constructor
      · rintro (⟨k, hk, rfl⟩ | ⟨hall, he⟩)
        · exact .inl ⟨k + 1, hk, by rw [Nat.add_assoc, Nat.add_comm 1]⟩
        · exact .inr ⟨List.forall_mem_cons.2 ⟨hne.symm, hall⟩, he⟩
      · rintro (⟨k, hk, rfl⟩ | ⟨hall, he⟩)
        · rcases k with _ | k
          · obtain ⟨txin', htxin', heq⟩ := hk
            obtain rfl := Option.some.inj htxin'
            exact absurd heq.symm hne
          · exact .inl ⟨k, hk, by rw [Nat.add_assoc, Nat.add_comm 1]⟩
        · exact .inr ⟨(List.forall_mem_cons.1 hall).2, he⟩

/-- What `AcceptToMemoryPool` has checked when it calls `addUnchecked`. -/
theorem Linked.addUnchecked (h : pool.Linked P txs) {tx : CTransaction} (hmem : tx ∈ txs)
    (hnew : pool.mapTx[P.getHash tx]? = none) (hnodup : (tx.vin.map CTxIn.prevout).Nodup)
    (hfree : ∀ txin ∈ tx.vin, pool.mapNextTx txin.prevout = none) :
    (pool.addUnchecked (P.getHash tx) tx).Linked P txs := by
  have hget : ∀ {hash tx'}, (pool.addUnchecked (P.getHash tx) tx).mapTx[hash]? = some tx' ↔
      hash = P.getHash tx ∧ tx' = tx ∨ pool.mapTx[hash]? = some tx' := by
    intro hash tx'
    simp only [CTxMemPool.addUnchecked, Std.TreeMap.getElem?_insert]
    rcases eq_or_ne hash (P.getHash tx) with rfl | hne
    · simp [hnew, eq_comm]
    · simp [hne, hne.symm]
  refine ⟨fun htx' ↦ ?_, fun htx' ↦ ?_, fun htx' ↦ ?_, fun {o hash i} ↦ ?_⟩
  · rcases hget.1 htx' with ⟨-, rfl⟩ | htx'
    exacts [hmem, h.mem htx']
  · rcases hget.1 htx' with ⟨rfl, rfl⟩ | htx'
    exacts [rfl, h.key htx']
  · rcases hget.1 htx' with ⟨-, rfl⟩ | htx'
    exacts [hnodup, h.nodup htx']
  · rw [CTxMemPool.addUnchecked, linkInputs_eq_some hnodup]
    constructor
    · rintro (⟨k, hk, heq⟩ | ⟨-, hold⟩)
      · obtain ⟨rfl, rfl⟩ := Prod.ext_iff.1 heq
        exact ⟨tx, hget.2 (.inl ⟨rfl, rfl⟩), by simpa using hk⟩
      · obtain ⟨tx', htx', hk⟩ := h.next.1 hold
        exact ⟨tx', hget.2 (.inr htx'), hk⟩
    · rintro ⟨tx', htx', txin, hk, rfl⟩
      rcases hget.1 htx' with ⟨rfl, rfl⟩ | htx'
      · exact .inl ⟨i, ⟨txin, hk, rfl⟩, by simp⟩
      · have hold := h.next.2 ⟨tx', htx', txin, hk, rfl⟩
        refine .inr ⟨fun txin' hmem' heq ↦ ?_, hold⟩
        rw [← heq, hfree txin' hmem'] at hold
        cases hold

/-! ## Erasing a transaction -/

theorem getElem?_eraseTx {hash hash' : UInt256} {tx tx' : CTransaction} :
    (pool.eraseTx hash tx).mapTx[hash']? = some tx' ↔
      hash' ≠ hash ∧ pool.mapTx[hash']? = some tx' := by
  simp only [eraseTx, Std.TreeMap.getElem?_erase]
  rcases eq_or_ne hash' hash with rfl | hne
  · simp
  · simp [hne, hne.symm]

theorem Linked.eraseTx (h : pool.Linked P txs) {hash : UInt256} {tx : CTransaction}
    (htx : pool.mapTx[hash]? = some tx) : (pool.eraseTx hash tx).Linked P txs := by
  refine ⟨fun htx' ↦ h.mem (getElem?_eraseTx.1 htx').2, fun htx' ↦ h.key (getElem?_eraseTx.1 htx').2,
    fun htx' ↦ h.nodup (getElem?_eraseTx.1 htx').2, fun {o hash' i} ↦ ?_⟩
  constructor
  · intro hnext
    simp only [CTxMemPool.eraseTx] at hnext
    split_ifs at hnext with ho
    obtain ⟨tx', htx', txin, hk, rfl⟩ := h.next.1 hnext
    refine ⟨tx', getElem?_eraseTx.2 ⟨?_, htx'⟩, txin, hk, rfl⟩
    rintro rfl
    obtain rfl := Option.some.inj (htx.symm.trans htx')
    exact ho ⟨txin, List.mem_of_getElem? hk, rfl⟩
  · rintro ⟨tx', htx', txin, hk, rfl⟩
    obtain ⟨hne, htx'⟩ := getElem?_eraseTx.1 htx'
    simp only [CTxMemPool.eraseTx]
    rw [if_neg, h.next]
    · exact ⟨tx', htx', txin, hk, rfl⟩
    · rintro ⟨txin', hmem', heq⟩
      exact hne (h.eq_of_prevout htx' htx (List.mem_of_getElem? hk) hmem' heq.symm)

/-! ## Taking out a transaction with its descendants -/

section

variable {rank : UInt256 → ℕ} {r : ℕ}

/-- Transactions have left the pool, none of rank below `r`, and whatever spent one that has left has
left too. -/
structure Shrunk (P : Params) (rank : UInt256 → ℕ) (r : ℕ) (pool pool' : CTxMemPool) : Prop where
  sub : ∀ {hash : UInt256} {tx : CTransaction}, pool'.mapTx[hash]? = some tx →
    pool.mapTx[hash]? = some tx
  low : ∀ {hash : UInt256}, rank hash < r → pool'.mapTx[hash]? = pool.mapTx[hash]?
  closed : ∀ {hash hash' : UInt256} {tx tx' : CTransaction}, pool.mapTx[hash]? = some tx →
    pool'.mapTx[hash]? = none → pool'.mapTx[hash']? = some tx' → ¬ Spends P tx tx'

theorem Shrunk.refl : Shrunk P rank r pool pool :=
  ⟨id, fun _ ↦ rfl, fun htx hnone ↦ by rw [htx] at hnone; cases hnone⟩

theorem Shrunk.trans (h : Shrunk P rank r pool pool') (h' : Shrunk P rank r pool' pool'') :
    Shrunk P rank r pool pool'' := by
  refine ⟨fun htx ↦ h.sub (h'.sub htx), fun hlow ↦ (h'.low hlow).trans (h.low hlow), ?_⟩
  intro hash hash' tx tx' htx hnone htx'
  rcases hmid : pool'.mapTx[hash]? with _ | tx₁
  · exact h.closed htx hmid (h'.sub htx')
  · obtain rfl := Option.some.inj (htx.symm.trans (h.sub hmid))
    exact h'.closed hmid hnone htx'

theorem Shrunk.mono {r' : ℕ} (h : Shrunk P rank r pool pool') (hr : r' ≤ r) :
    Shrunk P rank r' pool pool' :=
  ⟨h.sub, fun hlow ↦ h.low (by omega), h.closed⟩

/-- No entry appears while transactions leave. -/
theorem Shrunk.next (h : Shrunk P rank r pool pool') (hpool : pool.Linked P txs)
    (hpool' : pool'.Linked P txs) {o : COutPoint} {e : UInt256 × ℕ}
    (hnext : pool'.mapNextTx o = some e) : pool.mapNextTx o = some e := by
  obtain ⟨tx, htx, hin⟩ := hpool'.next.1 hnext
  exact hpool.next.2 ⟨tx, h.sub htx, hin⟩

/-- The transactions of a rank or above. -/
def above (rank : UInt256 → ℕ) (pool : CTxMemPool) (r : ℕ) : Finset UInt256 :=
  pool.mapTx.keys.toFinset.filter (r ≤ rank ·)

theorem mem_above {hash : UInt256} :
    hash ∈ above rank pool r ↔ (∃ tx, pool.mapTx[hash]? = some tx) ∧ r ≤ rank hash := by
  rw [above, Finset.mem_filter, List.mem_toFinset, Std.TreeMap.mem_keys,
    Std.TreeMap.mem_iff_isSome_getElem?, Option.isSome_iff_exists]

theorem card_above_le : (above rank pool r).card ≤ pool.mapTx.size := by
  refine (Finset.card_filter_le _ _).trans ((List.toFinset_card_le _).trans ?_)
  rw [Std.TreeMap.length_keys]

/-- Above a spender there are fewer transactions than above what it spends. -/
theorem Shrunk.card_above_lt {r' : ℕ} (h : Shrunk P rank r' pool pool') {hash : UInt256}
    {tx : CTransaction} (htx : pool.mapTx[hash]? = some tx) (hr : rank hash < r) :
    (above rank pool' r).card < (above rank pool (rank hash)).card := by
  refine Finset.card_lt_card ((Finset.ssubset_iff_of_subset fun hash' hmem ↦ ?_).2
    ⟨hash, mem_above.2 ⟨⟨tx, htx⟩, le_rfl⟩, fun hmem ↦ by have := (mem_above.1 hmem).2; omega⟩)
  obtain ⟨⟨tx', htx'⟩, hle⟩ := mem_above.1 hmem
  exact mem_above.2 ⟨⟨tx', h.sub htx'⟩, by omega⟩

/-- A transaction whose outputs nobody spends is erased. -/
theorem Linked.shrunk_eraseTx (h : pool.Linked P txs) {tx : CTransaction}
    (htx : pool.mapTx[P.getHash tx]? = some tx)
    (hspent : ∀ i < tx.vout.length, pool.mapNextTx ⟨P.getHash tx, i⟩ = none) :
    Shrunk P rank (rank (P.getHash tx)) pool (pool.eraseTx (P.getHash tx) tx) := by
  refine ⟨fun htx' ↦ (getElem?_eraseTx.1 htx').2, fun {hash} hlow ↦ ?_, ?_⟩
  · refine Option.ext fun tx' ↦ getElem?_eraseTx.trans (and_iff_right ?_)
    rintro rfl
    exact lt_irrefl _ hlow
  · rintro hash hash' tx₁ tx' htx₁ hnone htx' ⟨txin, hmem, i, hi, heq⟩
    by_cases hhash : hash = P.getHash tx
    · subst hhash
      obtain rfl := Option.some.inj (htx.symm.trans htx₁)
      obtain ⟨k, hk⟩ := h.exists_next (getElem?_eraseTx.1 htx').2 hmem
      rw [heq, hspent i hi] at hk
      cases hk
    · rw [getElem?_eraseTx.2 ⟨hhash, htx₁⟩] at hnone
      cases hnone

/-- What `remove` does with a transaction of the pool: it leaves, with its descendants, and more
fuel makes no difference. -/
structure Taken (P : Params) (txs : Set CTransaction) (rank : UInt256 → ℕ) (hash : UInt256)
    (pool pool' more : CTxMemPool) : Prop where
  linked : pool'.Linked P txs
  shrunk : Shrunk P rank (rank hash) pool pool'
  gone : pool'.mapTx[hash]? = none
  more_eq : more = pool'

variable (hlawful : HashLawful P txs rank)

include hlawful

/-- The loop over the outputs: after it nobody spends them.  The transaction itself stays, since the
ones that leave are of higher rank. -/
theorem Linked.removeSpenders (h : pool.Linked P txs) {hash : UInt256} {tx : CTransaction}
    (htx : pool.mapTx[hash]? = some tx)
    {removeNext removeMore : CTxMemPool → CTransaction → CTxMemPool}
    (htaken : ∀ {pool₁ : CTxMemPool} {txNext : CTransaction}, pool₁.Linked P txs →
      pool₁.mapTx[P.getHash txNext]? = some txNext →
      (above rank pool₁ (rank (P.getHash txNext))).card < (above rank pool (rank hash)).card →
        Taken P txs rank (P.getHash txNext) pool₁ (removeNext pool₁ txNext)
          (removeMore pool₁ txNext)) (n : ℕ) :
    (pool.removeSpenders removeNext hash n).Linked P txs ∧
      Shrunk P rank (rank hash + 1) pool (pool.removeSpenders removeNext hash n) ∧
      (∀ i < n, (pool.removeSpenders removeNext hash n).mapNextTx ⟨hash, i⟩ = none) ∧
      pool.removeSpenders removeMore hash n = pool.removeSpenders removeNext hash n := by
  induction n with
  | zero => exact ⟨h, .refl, fun i hi ↦ absurd hi i.not_lt_zero, rfl⟩
  | succ n ih =>
    obtain ⟨hlinked, hshrunk, hnone, hmore⟩ := ih
    simp only [CTxMemPool.removeSpenders, hmore]
    generalize pool.removeSpenders removeNext hash n = pool₁ at hlinked hshrunk hnone
    rcases hnext : pool₁.mapNextTx ⟨hash, n⟩ with _ | ⟨hashNext, k⟩
    · refine ⟨hlinked, hshrunk, fun i hi ↦ ?_, rfl⟩
      rcases Nat.lt_succ_iff_lt_or_eq.1 hi with hi | rfl
      exacts [hnone i hi, hnext]
    · obtain ⟨txNext, hget, txin, hmem, hout⟩ := hlinked.of_next hnext
      have hkey := hlinked.key hget
      have hrank : rank hash < rank hashNext := by
        have := hlawful.rank_lt txNext (hlinked.mem hget) txin hmem
        rwa [hout, hkey] at this
      have htake : Taken P txs rank (P.getHash txNext) pool₁ (removeNext pool₁ txNext)
          (removeMore pool₁ txNext) := htaken hlinked (by rw [hkey]; exact hget)
        (by rw [hkey]; exact hshrunk.card_above_lt htx hrank)
      simp only [hget]
      obtain ⟨hlinked', hshrunk', hgone, hmore'⟩ := htake
      rw [hkey] at hshrunk' hgone
      refine ⟨hlinked', hshrunk.trans (hshrunk'.mono hrank), fun i hi ↦ ?_, hmore'⟩
      rcases hentry : (removeNext pool₁ txNext).mapNextTx ⟨hash, i⟩ with _ | e
      · rfl
      · -- whoever spends the output now has spent it before
        have hold := hshrunk'.next hlinked hlinked' hentry
        rcases Nat.lt_succ_iff_lt_or_eq.1 hi with hi | rfl
        · rw [hnone i hi] at hold
          cases hold
        · obtain rfl := Option.some.inj (hnext.symm.trans hold)
          obtain ⟨tx', htx', -⟩ := hlinked'.of_next hentry
          rw [hgone] at htx'
          cases htx'

/-- `remove` takes a transaction of the pool out with its descendants, if there is fuel for as many
levels as there are transactions of its rank and above. -/
theorem Linked.removeFrom {fuel : ℕ} (h : pool.Linked P txs) {tx : CTransaction}
    (htx : pool.mapTx[P.getHash tx]? = some tx)
    (hfuel : (above rank pool (rank (P.getHash tx))).card ≤ fuel) :
    Taken P txs rank (P.getHash tx) pool (pool.removeFrom P fuel tx true)
      (pool.removeFrom P (fuel + 1) tx true) := by
  induction fuel generalizing pool tx with
  | zero =>
    have hmem : P.getHash tx ∈ above rank pool (rank (P.getHash tx)) :=
      mem_above.2 ⟨⟨tx, htx⟩, le_rfl⟩
    rw [Finset.card_eq_zero.1 (Nat.le_zero.1 hfuel)] at hmem
    exact absurd hmem (Finset.notMem_empty _)
  | succ fuel ih =>
    have hcontains : pool.mapTx.contains (P.getHash tx) = true := by
      rw [Std.TreeMap.contains_eq_isSome_getElem?, htx]
      rfl
    obtain ⟨hlinked, hshrunk, hspent, hmore⟩ := h.removeSpenders hlawful htx
      (fun h₁ hget hlt ↦ ih h₁ hget (by omega)) tx.vout.length
    have hstay := hshrunk.low (Nat.lt_succ_self (rank (P.getHash tx))) |>.trans htx
    rw [CTxMemPool.removeFrom, CTxMemPool.removeFrom]
    simp only [hcontains, if_true, hmore]
    generalize pool.removeSpenders _ (P.getHash tx) tx.vout.length = pool₁ at *
    refine ⟨hlinked.eraseTx hstay, (hshrunk.mono (Nat.le_succ _)).trans
      (hlinked.shrunk_eraseTx hstay hspent), ?_, rfl⟩
    refine Option.eq_none_iff_forall_ne_some.2 fun tx' htx' ↦ ?_
    exact (getElem?_eraseTx.1 htx').1 rfl

/-- The fuel of `remove` is enough: any more makes no difference. -/
theorem Linked.removeFrom_eq (h : pool.Linked P txs) {tx : CTransaction}
    (htx : pool.mapTx[P.getHash tx]? = some tx) {fuel : ℕ} (hfuel : pool.mapTx.size ≤ fuel) :
    pool.removeFrom P fuel tx true = pool.remove P tx true := by
  have hstep : ∀ k, pool.removeFrom P (pool.mapTx.size + k) tx true =
      pool.removeFrom P pool.mapTx.size tx true := by
    intro k
    induction k with
    | zero => rfl
    | succ k ih =>
      rw [← ih]
      exact (h.removeFrom hlawful htx (card_above_le.trans (Nat.le_add_right _ k))).more_eq
  obtain ⟨k, rfl⟩ := Nat.exists_eq_add_of_le hfuel
  rw [hstep k, remove, hstep 1]

theorem Linked.taken_remove (h : pool.Linked P txs) {tx : CTransaction}
    (htx : pool.mapTx[P.getHash tx]? = some tx) :
    Taken P txs rank (P.getHash tx) pool (pool.remove P tx true) (pool.remove P tx true) := by
  have htaken := h.removeFrom hlawful htx (card_above_le.trans (Nat.le_succ _))
  exact { htaken with more_eq := rfl }

/-- A transaction of which the pool has the hash is the one in the pool. -/
theorem Linked.get_of_contains (h : pool.Linked P txs) {tx : CTransaction} (hmem : tx ∈ txs)
    (hcontains : pool.mapTx.contains (P.getHash tx)) :
    pool.mapTx[P.getHash tx]? = some tx := by
  rw [Std.TreeMap.contains_eq_isSome_getElem?, Option.isSome_iff_exists] at hcontains
  obtain ⟨tx', htx'⟩ := hcontains
  obtain rfl := hlawful.inj (h.mem htx') hmem (h.key htx')
  exact htx'

theorem Linked.remove (h : pool.Linked P txs) {tx : CTransaction} (hmem : tx ∈ txs)
    (fRecursive : Bool) : (pool.remove P tx fRecursive).Linked P txs := by
  by_cases hcontains : pool.mapTx.contains (P.getHash tx) = true
  · have htx := h.get_of_contains hlawful hmem hcontains
    rcases fRecursive with _ | _
    · rw [CTxMemPool.remove, CTxMemPool.removeFrom]
      simp only [hcontains, if_true, Bool.false_eq_true, if_false]
      exact h.eraseTx htx
    · exact (h.taken_remove hlawful htx).linked
  · rw [CTxMemPool.remove, CTxMemPool.removeFrom]
    simp only [hcontains, Bool.false_eq_true, if_false]
    exact h

theorem Linked.removeConflicts (h : pool.Linked P txs) (tx : CTransaction) :
    (pool.removeConflicts P tx).Linked P txs := by
  have hloop : ∀ {vin : List CTxIn} {pool : CTxMemPool}, pool.Linked P txs →
      (removeConflictsFrom P tx pool vin).Linked P txs := by
    intro vin
    induction vin with
    | nil => exact fun h ↦ h
    | cons txin vin ih =>
      intro pool h
      rw [removeConflictsFrom]
      refine ih ?_
      rcases hnext : pool.mapNextTx txin.prevout with _ | ⟨hashNext, k⟩
      · exact h
      · obtain ⟨txConflict, hget, -⟩ := h.of_next hnext
        simp only [hget]
        split_ifs
        · exact h.remove hlawful (h.mem hget) true
        · exact h
  exact hloop h

end

/-! ## Runs -/

/-- The pools that calls with transactions of `txs` leave.  Everything else that a call reads, the
node and the machine, may be anything. -/
inductive Run (P : Params) (txs : Set CTransaction) : CTxMemPool → Prop
  | empty : Run P txs empty
  | accept {w : World} {s s' : NodeState} {tx : CTransaction} {fLimitFree : Bool}
      (h : Run P txs s.mempool) (hmem : tx ∈ txs)
      (hok : acceptToMemoryPool P w s tx fLimitFree = .ok s') : Run P txs s'.mempool
  | remove {pool : CTxMemPool} (h : Run P txs pool) {tx : CTransaction} (hmem : tx ∈ txs)
      (fRecursive : Bool) : Run P txs (pool.remove P tx fRecursive)
  | removeConflicts {pool : CTxMemPool} (h : Run P txs pool) (tx : CTransaction) :
    Run P txs (pool.removeConflicts P tx)
  | clear {pool : CTxMemPool} (h : Run P txs pool) : Run P txs pool.clear
  | addTransactionsUpdated {pool : CTxMemPool} (h : Run P txs pool) (n : ℕ) :
    Run P txs (pool.addTransactionsUpdated n)

theorem linked_empty (n : ℕ) : Linked P txs ⟨∅, fun _ ↦ none, n⟩ :=
  ⟨fun h ↦ by simp at h, fun h ↦ by simp at h, fun h ↦ by simp at h, by simp⟩

/-- What `AcceptToMemoryPool` accepts has passed the checks that `addUnchecked` leaves out. -/
theorem Linked.accept {w : World} {s s' : NodeState} {tx : CTransaction} {fLimitFree : Bool}
    (h : s.mempool.Linked P txs) (hmem : tx ∈ txs)
    (hok : acceptToMemoryPool P w s tx fLimitFree = .ok s') : s'.mempool.Linked P txs := by
  obtain ⟨hcheck, -, rfl⟩ := acceptToMemoryPool_eq_ok hok
  simp only [checkLoose, bind_eq_ok, withText_eq_ok, rejectIf_eq_ok] at hcheck
  obtain ⟨⟨⟩, htx, -, -, -, -, -, -, -, hnew, -, hfree, -⟩ := hcheck
  simp only [checkTransaction, bind_eq_ok, rejectIf_eq_ok, not_not] at htx
  obtain ⟨-, -, -, -, -, -, -, -, -, hnodup, -⟩ := htx
  refine h.addUnchecked hmem (by simpa [exists_] using hnew) hnodup fun txin htxin ↦ ?_
  by_contra hne
  exact hfree ⟨txin, htxin, Option.isSome_iff_ne_none.2 hne⟩

theorem Run.linked {rank : UInt256 → ℕ} (hlawful : HashLawful P txs rank) (h : Run P txs pool) :
    pool.Linked P txs := by
  induction h with
  | empty => exact linked_empty 0
  | accept _ hmem hok ih => exact ih.accept hmem hok
  | remove _ hmem fRecursive ih => exact ih.remove hlawful hmem fRecursive
  | removeConflicts _ tx ih => exact ih.removeConflicts hlawful tx
  | clear _ _ => exact linked_empty _
  | addTransactionsUpdated _ n ih => exact ⟨ih.mem, ih.key, ih.nodup, ih.next⟩

/-- The transactions of the pool that spend a transaction, directly or through others of the pool. -/
inductive Descendant (P : Params) (pool : CTxMemPool) (tx : CTransaction) : CTransaction → Prop
  | child {txNext : CTransaction} (hget : pool.mapTx[P.getHash txNext]? = some txNext)
      (hspends : Spends P tx txNext) : Descendant P pool tx txNext
  | next {txMid txNext : CTransaction} (h : Descendant P pool tx txMid)
      (hget : pool.mapTx[P.getHash txNext]? = some txNext) (hspends : Spends P txMid txNext) :
    Descendant P pool tx txNext

theorem Descendant.get {tx txNext : CTransaction} (h : Descendant P pool tx txNext) :
    pool.mapTx[P.getHash txNext]? = some txNext := by
  cases h with
  | child hget _ => exact hget
  | next _ hget _ => exact hget

/-- No descendant stays: a transaction that spends one that has left has left. -/
theorem Taken.descendant {rank : UInt256 → ℕ} {tx txNext : CTransaction}
    (htaken : Taken P txs rank (P.getHash tx) pool pool' pool'')
    (htx : pool.mapTx[P.getHash tx]? = some tx) (h : Descendant P pool tx txNext) :
    pool'.mapTx[P.getHash txNext]? = none := by
  have hgone : ∀ {txMid txNext : CTransaction}, pool.mapTx[P.getHash txMid]? = some txMid →
      pool'.mapTx[P.getHash txMid]? = none → pool.mapTx[P.getHash txNext]? = some txNext →
      Spends P txMid txNext → pool'.mapTx[P.getHash txNext]? = none := by
    intro txMid txNext hmid hnone hget hspends
    refine Option.eq_none_iff_forall_ne_some.2 fun tx' htx' ↦ ?_
    obtain rfl := Option.some.inj (hget.symm.trans (htaken.shrunk.sub htx'))
    exact htaken.shrunk.closed hmid hnone htx' hspends
  induction h with
  | child hget hspends => exact hgone htx htaken.gone hget hspends
  | next h hget hspends ih => exact hgone h.get ih hget hspends

/-- After any calls `mapNextTx` names exactly the transactions of the pool and the outpoints their
inputs spend, so that no outpoint is spent twice; and a recursive `remove` of a transaction of the
pool, which ends, leaves none of its descendants. -/
theorem Run.exact {rank : UInt256 → ℕ} (hlawful : HashLawful P txs rank) (h : Run P txs pool) :
    (∀ o hash i, pool.mapNextTx o = some (hash, i) ↔
      ∃ tx, pool.mapTx[hash]? = some tx ∧ ∃ txin ∈ tx.vin[i]?, txin.prevout = o) ∧
    (∀ (hash hash' : UInt256) (tx tx' : CTransaction), pool.mapTx[hash]? = some tx →
      pool.mapTx[hash']? = some tx' → ∀ txin ∈ tx.vin, ∀ txin' ∈ tx'.vin,
        txin.prevout = txin'.prevout → hash = hash') ∧
    ∀ tx ∈ txs, pool.mapTx.contains (P.getHash tx) →
      (∀ fuel, pool.mapTx.size ≤ fuel →
        pool.removeFrom P fuel tx true = pool.remove P tx true) ∧
      ∀ txNext, txNext = tx ∨ Descendant P pool tx txNext →
        ¬ (pool.remove P tx true).mapTx.contains (P.getHash txNext) := by
  have hlinked := h.linked hlawful
  refine ⟨fun o hash i ↦ hlinked.next, fun hash hash' tx tx' htx htx' txin hmem txin' hmem' heq ↦
    hlinked.eq_of_prevout htx htx' hmem hmem' heq, fun tx hmem hcontains ↦ ?_⟩
  have htx := hlinked.get_of_contains hlawful hmem hcontains
  have htaken := hlinked.taken_remove hlawful htx
  refine ⟨fun fuel hfuel ↦ hlinked.removeFrom_eq hlawful htx hfuel, fun txNext hdesc ↦ ?_⟩
  rw [Std.TreeMap.contains_eq_isSome_getElem?, Option.not_isSome_iff_eq_none]
  rcases hdesc with rfl | hdesc
  exacts [htaken.gone, htaken.descendant htx hdesc]

end CTxMemPool

namespace Sample

/-- A transaction on disk that anyone may spend; its hash is 77. -/
def funding : CTransaction := { anyone ⟨1, 0⟩ (2 * COIN) with nLockTime := 76 }

/-- A node that has it in a block and in the index, and nothing in its pool. -/
def funded : NodeState :=
  let block : CBlock := { genesis with vtx := [funding] }
  { start with
    files := (BlockFiles.empty.writeToDisk world.nFile block).1
    txdb := ⟨fun
      | .tx 77 => some (CTxIndex.mk' ⟨1, 8, block.firstTxPos 8⟩ 1)
      | _ => none, none⟩
    mempool := .empty }

/-- The transactions of a pool where one spends the other. -/
def loose : Set CTransaction := {anyone ⟨77, 0⟩ COIN, spender}

/-- The node after both have been accepted. -/
def twoPooled : NodeState :=
  (funded.addLoose params (anyone ⟨77, 0⟩ COIN)).addLoose params spender

theorem hashLawful_loose : HashLawful params loose fun hash ↦ if hash = 77 then 0 else hash where
  inj := by
    rintro tx (rfl | rfl) tx' (rfl | rfl) heq
    exacts [rfl, absurd heq (by decide), absurd heq (by decide), rfl]
  rank_lt := by
    rintro tx (rfl | rfl)
    · decide
    · decide

theorem accept_of_isOk {s : NodeState} {tx : CTransaction}
    (h : (acceptToMemoryPool params world s tx true).isOk) :
    acceptToMemoryPool params world s tx true = .ok (s.addLoose params tx) := by
  rcases hok : acceptToMemoryPool params world s tx true with e | s'
  · rw [hok] at h
    cases h
  · obtain ⟨-, -, rfl⟩ := acceptToMemoryPool_eq_ok hok
    rfl

theorem run_twoPooled : CTxMemPool.Run params loose twoPooled.mempool := by
  have hfunded : CTxMemPool.Run params loose funded.mempool := .empty
  exact (hfunded.accept (.inl rfl) (accept_of_isOk (by decide +kernel))).accept (.inr rfl)
    (accept_of_isOk (by decide +kernel))

end Sample

theorem CTxMemPool.Run.exact_sample :
    ¬ (Sample.twoPooled.mempool.remove Sample.params (Sample.anyone ⟨77, 0⟩ COIN)
      true).mapTx.contains (Sample.params.getHash Sample.spender) :=
  ((CTxMemPool.Run.exact Sample.hashLawful_loose Sample.run_twoPooled).2.2
    (Sample.anyone ⟨77, 0⟩ COIN) (.inl rfl) (by decide +kernel)).2 Sample.spender
    (.inr (.child (by decide +kernel)
      ⟨⟨⟨6, 0⟩, [], uintMax⟩, by decide, 0, by decide, by decide⟩))

end Bws
