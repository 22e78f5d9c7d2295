import Bws.Fetch
import Bws.OrphanTx
import Bws.PoolLinks
import Bws.Wallet
import Mathlib.Data.Finset.Sort

/-!
# The tx message

`ProcessMessage` offers the transaction of a "tx" message to the memory pool, and then, with a queue
of what has been accepted, the orphans that have waited for it.  The loop ends, no orphan is left
that could be accepted now, each accepted one is relayed once and erased, and the others are erased
only if something else than missing inputs was wrong with them (`processTx_resolves`).
-/

namespace Bws

/-! ## The source -/

def MAX_ORPHAN_TRANSACTIONS : ℕ := MAX_BLOCK_SIZE / 100

/-- A call of `AcceptToMemoryPool`: the node and the time that it saw. -/
structure PoolCall where
  node : NodeState
  nAdjustedTime : ℤ
  tx : CTransaction

/-- The variables of the loop, with what it has done so far. -/
structure TxLoop where
  node : NodeState
  orphans : OrphanTxs
  vWorkQueue : List UInt256
  vEraseQueue : List UInt256
  /-- the calls of `RelayTransaction` -/
  relayed : List (CTransaction × UInt256)
  /-- history, the oldest call first -/
  calls : List PoolCall

/-- What the message leaves. -/
structure TxMessage where
  node : NodeState
  orphans : OrphanTxs
  relayed : List (CTransaction × UInt256)
  calls : List PoolCall
  /-- the score for `Misbehaving` -/
  nDoS : ℕ

/-- `mapOrphanTransactions[hash]`, which makes an entry where there is none -/
def OrphanTxs.index (s : OrphanTxs) (hash : UInt256) (nAdjustedTime : ℤ) :
    OrphanTxs × CTransaction :=
  match s.mapOrphanTransactions[hash]? with
  | some tx => (s, tx)
  | none =>
    let tx := CTransaction.empty nAdjustedTime.toNat
    ({ s with mapOrphanTransactions := s.mapOrphanTransactions.insert hash tx }, tx)

/-- The orphans under `mapOrphanTransactionsByPrev.find(hash)`, in the order of the set -/
def OrphanTxs.byPrev (s : OrphanTxs) (hash : UInt256) : List UInt256 :=
  ((s.mapOrphanTransactionsByPrev hash).getD ∅).sort

section

variable (P : Params) (w : World) (time : ℕ → ℤ)

/-- `AcceptToMemoryPool(mempool, tx, true, &fMissingInputs)` -/
def PoolCall.result (c : PoolCall) : Except Fault NodeState :=
  acceptToMemoryPool P { w with nAdjustedTime := c.nAdjustedTime } c.node c.tx true

/-- `fMissingInputs` after the call -/
def PoolCall.fMissingInputs (c : PoolCall) : Bool :=
  missingInputs P { w with nAdjustedTime := c.nAdjustedTime } c.node c.tx

/-- One round of the inner loop; `time` is the time at each call of `AcceptToMemoryPool`. -/
def tryOrphan (m : TxLoop) (orphanTxHash : UInt256) : Except Fault TxLoop :=
  let nAdjustedTime := time m.calls.length
  let r := m.orphans.index orphanTxHash nAdjustedTime
  let call : PoolCall := ⟨m.node, nAdjustedTime, r.2⟩
  let m := { m with orphans := r.1, calls := m.calls ++ [call] }
  match call.result P w with
  | .ok node => .ok { m with
      node
      vWorkQueue := m.vWorkQueue ++ [orphanTxHash]
      vEraseQueue := m.vEraseQueue ++ [orphanTxHash]
      relayed := m.relayed ++ [(r.2, orphanTxHash)] }
  | .error (.rejected _ _) =>
    if call.fMissingInputs P w then .ok m
    -- invalid or too-little-fee orphan
    else .ok { m with vEraseQueue := m.vEraseQueue ++ [orphanTxHash] }
  | .error (.thrown msg) => .error (.thrown msg)

/-- The inner loop -/
def tryOrphans : TxLoop → List UInt256 → Except Fault TxLoop
  | m, [] => .ok m
  | m, orphanTxHash :: hashes => do
    let m ← tryOrphan P w time m orphanTxHash
    tryOrphans m hashes

/-- The loop over `vWorkQueue` from the `i`-th element on; `none` means that it is not at its end
after the given number of rounds. -/
def resolveFrom : ℕ → ℕ → TxLoop → Option (Except Fault TxLoop)
  | fuel, i, m =>
    match m.vWorkQueue[i]? with
    | none => some (.ok m)
    | some hash =>
      match fuel with
      | 0 => none
      | fuel + 1 =>
        match tryOrphans P w time m (m.orphans.byPrev hash) with
        | .error e => some (.error e)
        | .ok m => resolveFrom fuel (i + 1) m

/-- The loop variables once the transaction of the message has been accepted. -/
def TxLoop.start (orphans : OrphanTxs) (call : PoolCall) (node : NodeState) : TxLoop where
  node
  orphans
  vWorkQueue := [P.getHash call.tx]
  vEraseQueue := [P.getHash call.tx]
  relayed := [(call.tx, P.getHash call.tx)]
  calls := [call]

/-- The end of the message after the loop: `EraseOrphanTx` for all of `vEraseQueue`. -/
def TxLoop.finish (m : TxLoop) : TxMessage where
  node := m.node
  orphans := m.vEraseQueue.foldl OrphanTxs.eraseOrphanTx m.orphans
  relayed := m.relayed
  calls := m.calls
  nDoS := 0

/-- `ProcessMessage` for a "tx" message.  Every round of the loop takes up an orphan that has been
accepted or `tx`, so that there are enough rounds. -/
def processTx (getRandHash : ℕ → UInt256) (s : NodeState) (orphans : OrphanTxs)
    (tx : CTransaction) : Option (Except Fault TxMessage) :=
  let call : PoolCall := ⟨s, time 0, tx⟩
  match call.result P w with
  | .ok node =>
    (resolveFrom P w time (orphans.mapOrphanTransactions.size + 1) 0
      (.start P orphans call node)).map fun r ↦ r.map TxLoop.finish
  | .error (.rejected nDoS _) =>
    if call.fMissingInputs P w then
      -- DoS prevention: do not allow mapOrphanTransactions to grow unbounded
      ((orphans.addOrphanTx P tx).1.limitOrphanTxSize MAX_ORPHAN_TRANSACTIONS getRandHash).map
        fun r ↦ .ok ⟨s, r.1, [], [call], nDoS⟩
    else some (.ok ⟨s, orphans, [], [call], nDoS⟩)
  | .error (.thrown msg) => some (.error (.thrown msg))

end

/-! ## What it is for -/

section

variable (P : Params) (w : World)

/-- The transaction has come into the pool. -/
def Joined (s s' : NodeState) (hash : UInt256) : Prop :=
  s.mempool.exists_ hash = false ∧ s'.mempool.exists_ hash = true

/-- The orphan spends an output of the transaction. -/
def SpendsFrom (tx : CTransaction) (hash : UInt256) : Prop :=
  ∃ txin ∈ tx.vin, txin.prevout.hash = hash

/-- The call has refused the transaction, and not for missing inputs. -/
def PoolCall.Refuses (c : PoolCall) : Prop :=
  (∀ node, c.result P w ≠ .ok node) ∧ c.fMissingInputs P w = false

/-- The orphans after the message, `s` and `orphans` being the node and the orphans before it. -/
structure OrphansResolved (s : NodeState) (orphans : OrphanTxs) (m : TxMessage) : Prop where
  /-- an orphan that waits for a new transaction would not be accepted now, nor later -/
  closed : ∀ (hash : UInt256) orphanTx parent,
    m.orphans.mapOrphanTransactions[hash]? = some orphanTx → SpendsFrom orphanTx parent →
      Joined s m.node parent → ∀ nAdjustedTime node,
      PoolCall.result P w ⟨m.node, nAdjustedTime, orphanTx⟩ ≠ .ok node
  /-- what has been accepted has been relayed once and is not stored -/
  relayed : ∀ hash, Joined s m.node hash →
    (m.relayed.map Prod.snd).count hash = 1 ∧ m.orphans.mapOrphanTransactions[hash]? = none
  /-- only what has been accepted has been relayed -/
  joined : ∀ hash ∈ m.relayed.map Prod.snd, Joined s m.node hash
  /-- an orphan is stored still unless it has been accepted or refused -/
  dropped : ∀ (hash : UInt256) orphanTx, orphans.mapOrphanTransactions[hash]? = some orphanTx →
    m.orphans.mapOrphanTransactions[hash]? = some orphanTx ∨ Joined s m.node hash ∨
      ∃ c ∈ m.calls, c.tx = orphanTx ∧ c.Refuses P w
  /-- no orphan is added -/
  kept : ∀ (hash : UInt256) orphanTx, m.orphans.mapOrphanTransactions[hash]? = some orphanTx →
    orphans.mapOrphanTransactions[hash]? = some orphanTx

end

/-! ## Missing inputs -/

/-- `FetchInputs` does not find an input. -/
def Lacking (V : TxView) (tx : CTransaction) : Prop :=
  ∃ msg, fetchInputs V ∅ false false tx = .error (.rejected 0 msg)

section

variable {P : Params} {w : World} {s s' : NodeState} {tx : CTransaction}

theorem lacking_of_missingInputs (h : missingInputs P w s tx = true) :
    Lacking (s.txView w s.txdb.fresh) tx := by
  unfold missingInputs at h
  split at h
  · cases h
  · split at h
    · rename_i msg hfetch
      exact ⟨msg, hfetch⟩
    · cases h

/-- Whatever the time, and whatever else is wrong with the transaction. -/
theorem Lacking.ne_ok (h : Lacking (s.txView w s.txdb.fresh) tx) (fLimitFree : Bool) :
    acceptToMemoryPool P w s tx fLimitFree ≠ .ok s' := by
  intro hok
  obtain ⟨-, ⟨inputs, hfetch, -⟩, -⟩ := acceptToMemoryPool_eq_ok hok
  obtain ⟨msg, h⟩ := h
  cases h.symm.trans hfetch

theorem fetchInput_congr {V V' : TxView} {mapTestPool : TxIndexMap} {fBlock fMiner : Bool}
    {inputs : MapPrevTx} {prevout : COutPoint} (hindex : V.txIndex = V'.txIndex)
    (hread : V.readTx = V'.readTx) (hlookup : V.lookup prevout.hash = V'.lookup prevout.hash) :
    fetchInput V mapTestPool fBlock fMiner inputs prevout =
      fetchInput V' mapTestPool fBlock fMiner inputs prevout := by
  unfold fetchInput findTxIndex
  rw [hindex, hread, hlookup]

theorem fetchAll_congr {V V' : TxView} {mapTestPool : TxIndexMap} {fBlock fMiner : Bool}
    {vin : List CTxIn} (hindex : V.txIndex = V'.txIndex) (hread : V.readTx = V'.readTx)
    (hlookup : ∀ txin ∈ vin, V.lookup txin.prevout.hash = V'.lookup txin.prevout.hash) :
    ∀ inputs, fetchAll V mapTestPool fBlock fMiner inputs vin =
      fetchAll V' mapTestPool fBlock fMiner inputs vin := by
  induction vin with
  | nil => exact fun _ ↦ rfl
  | cons txin vin ih =>
    intro inputs
    obtain ⟨hhead, htail⟩ := List.forall_mem_cons.1 hlookup
    rw [fetchAll, fetchAll, fetchInput_congr hindex hread hhead]
    exact congrArg _ (funext fun inputs ↦ ih htail inputs)

/-- A transaction that the orphan does not spend from is of no use to it. -/
theorem Lacking.addLoose {orphanTx : CTransaction} (h : Lacking (s.txView w s.txdb.fresh) orphanTx)
    (hspends : ¬ SpendsFrom orphanTx (P.getHash tx)) :
    Lacking ((s.addLoose P tx).txView w (s.addLoose P tx).txdb.fresh) orphanTx := by
  obtain ⟨msg, h⟩ := h
  have hlookup : ∀ txin ∈ orphanTx.vin, ((s.addLoose P tx).txView w s.txdb.fresh).lookup
      txin.prevout.hash = (s.txView w s.txdb.fresh).lookup txin.prevout.hash := by
    intro txin htxin
    have hne : P.getHash tx ≠ txin.prevout.hash := fun heq ↦ hspends ⟨txin, htxin, heq.symm⟩
    exact Std.TreeMap.getElem?_insert.trans
      (if_neg fun heq ↦ hne (Std.LawfulEqCmp.eq_of_compare heq))
  refine ⟨msg, ?_⟩
  rw [← h, fetchInputs, fetchInputs]
  split_ifs
  · rfl
  · refine congrArg (· >>= _) (fetchAll_congr ?_ ?_ hlookup _)
    · rfl
    · rfl

end

/-! ## One orphan -/

namespace OrphanTxs

variable {P : Params} {orphans : OrphanTxs}

theorem getElem?_eraseOrphanTx (orphans : OrphanTxs) (hash hash' : UInt256) :
    (orphans.eraseOrphanTx hash).mapOrphanTransactions[hash']? =
      if hash' = hash then none else orphans.mapOrphanTransactions[hash']? := by
  unfold eraseOrphanTx
  split
  · rename_i hnone
    split_ifs with heq
    · rw [heq, hnone]
    · rfl
  · rw [Std.TreeMap.getElem?_erase]
    rcases eq_or_ne hash' hash with rfl | hne
    · simp
    · rw [if_neg hne, if_neg fun heq ↦ hne (Std.LawfulEqCmp.eq_of_compare heq).symm]

theorem getElem?_foldl_eraseOrphanTx (hashes : List UInt256) (hash : UInt256) :
    ∀ orphans : OrphanTxs,
      (hashes.foldl eraseOrphanTx orphans).mapOrphanTransactions[hash]? =
        if hash ∈ hashes then none else orphans.mapOrphanTransactions[hash]? := by
  induction hashes with
  | nil => exact fun _ ↦ rfl
  | cons hash' hashes ih =>
    intro orphans
    rw [List.foldl_cons, ih, getElem?_eraseOrphanTx]
    by_cases hhead : hash = hash' <;> by_cases htail : hash ∈ hashes <;> simp [hhead, htail]

/-- An orphan is stored under its hash. -/
def Keyed (P : Params) (orphans : OrphanTxs) : Prop :=
  ∀ (hash : UInt256) orphanTx,
    orphans.mapOrphanTransactions[hash]? = some orphanTx → P.getHash orphanTx = hash

theorem Keyed.eraseOrphanTx (h : Keyed P orphans) (hash : UInt256) :
    Keyed P (orphans.eraseOrphanTx hash) := by
  intro hash' orphanTx horphan
  rw [getElem?_eraseOrphanTx] at horphan
  split_ifs at horphan
  exact h hash' orphanTx horphan

theorem Keyed.addOrphanTx (h : Keyed P orphans) (tx : CTransaction) :
    Keyed P (orphans.addOrphanTx P tx).1 := by
  unfold OrphanTxs.addOrphanTx
  dsimp only
  split_ifs
  · exact h
  · exact h
  · intro hash orphanTx horphan
    rw [Std.TreeMap.getElem?_insert] at horphan
    split_ifs at horphan with heq
    · obtain rfl := Option.some.inj horphan
      exact Std.LawfulEqCmp.eq_of_compare heq
    · exact h hash orphanTx horphan

theorem Keyed.limitFrom {nMaxOrphans : ℕ} {getRandHash : ℕ → UInt256} {fuel : ℕ} :
    ∀ {nEvicted n : ℕ} {orphans orphans' : OrphanTxs}, Keyed P orphans →
      limitFrom nMaxOrphans getRandHash fuel nEvicted orphans = some (orphans', n) →
        Keyed P orphans' := by
  induction fuel with
  | zero =>
    intro nEvicted n orphans orphans' h hlimit
    unfold OrphanTxs.limitFrom at hlimit
    split_ifs at hlimit
    obtain ⟨rfl, -⟩ := Prod.ext_iff.1 (Option.some.inj hlimit)
    exact h
  | succ fuel ih =>
    intro nEvicted n orphans orphans' h hlimit
    unfold OrphanTxs.limitFrom at hlimit
    split_ifs at hlimit
    · rcases hev : orphans.evicted (getRandHash nEvicted) with - | hash
      · rw [hev] at hlimit
        cases hlimit
      · rw [hev] at hlimit
        exact ih (h.eraseOrphanTx hash) hlimit
    · obtain ⟨rfl, -⟩ := Prod.ext_iff.1 (Option.some.inj hlimit)
      exact h

theorem Reachable.keyed (h : Reachable P orphans) : Keyed P orphans := by
  induction h with
  | empty => exact fun hash orphanTx h ↦ by simp [OrphanTxs.empty] at h
  | add tx _ ih => exact ih.addOrphanTx tx
  | erase hash _ ih => exact ih.eraseOrphanTx hash
  | limit nMaxOrphans getRandHash _ hlimit ih => exact ih.limitFrom hlimit

/-- Under a transaction are the orphans that spend from it. -/
theorem Indexed.mem_byPrev (h : orphans.Indexed) {parent hash : UInt256} :
    hash ∈ orphans.byPrev parent ↔
      ∃ orphanTx, orphans.mapOrphanTransactions[hash]? = some orphanTx ∧
        SpendsFrom orphanTx parent := by
  rw [byPrev, Finset.mem_sort]
  exact h.mem_iff parent hash

end OrphanTxs

/-- What one round of the inner loop can do, `c` being its call. -/
inductive Tried (P : Params) (w : World) (m : TxLoop) (hash : UInt256) (c : PoolCall) :
    TxLoop → Prop
  | accepted {node : NodeState} (h : c.result P w = .ok node) : Tried P w m hash c { m with
      node
      calls := m.calls ++ [c]
      vWorkQueue := m.vWorkQueue ++ [hash]
      vEraseQueue := m.vEraseQueue ++ [hash]
      relayed := m.relayed ++ [(c.tx, hash)] }
  | missing (h : c.fMissingInputs P w = true) : Tried P w m hash c { m with
      calls := m.calls ++ [c] }
  | refused (h : c.Refuses P w) : Tried P w m hash c { m with
      calls := m.calls ++ [c]
      vEraseQueue := m.vEraseQueue ++ [hash] }

section

variable {P : Params} {w : World}

theorem PoolCall.result_eq_ok {c : PoolCall} {node : NodeState} (h : c.result P w = .ok node) :
    c.node.mempool.exists_ (P.getHash c.tx) = false ∧ node = c.node.addLoose P c.tx := by
  obtain ⟨hcheck, -, rfl⟩ := acceptToMemoryPool_eq_ok h
  simp only [checkLoose, bind_eq_ok, rejectIf_eq_ok] at hcheck
  obtain ⟨-, -, -, -, -, -, -, -, -, hexists, -⟩ := hcheck
  exact ⟨by simpa using hexists, rfl⟩

theorem tryOrphan_cases (time : ℕ → ℤ) {m : TxLoop} {hash : UInt256} {orphanTx : CTransaction}
    (h : m.orphans.mapOrphanTransactions[hash]? = some orphanTx) : ∃ m' c,
      tryOrphan P w time m hash = .ok m' ∧ c.node = m.node ∧ c.tx = orphanTx ∧
        Tried P w m hash c m' := by
  obtain ⟨c, hc⟩ : ∃ c : PoolCall, c = ⟨m.node, time m.calls.length, orphanTx⟩ := ⟨_, rfl⟩
  have hnode : c.node = m.node := hc ▸ rfl
  have htx : c.tx = orphanTx := hc ▸ rfl
  have hclean : Clean (c.result P w) := clean_acceptToMemoryPool _ _ _ _ _
  unfold tryOrphan OrphanTxs.index
  rw [h]
  dsimp only
  rw [← hc]
  rcases hresult : c.result P w with (⟨nDoS, msg⟩ | msg) | node
  · dsimp only
    split_ifs with hmissing
    · exact ⟨_, c, rfl, hnode, htx, .missing hmissing⟩
    · refine ⟨_, c, rfl, hnode, htx, .refused ⟨fun node hok ↦ ?_, eq_false_of_ne_true hmissing⟩⟩
      cases hresult.symm.trans hok
  · exact absurd hresult (hclean msg)
  · exact ⟨_, c, rfl, hnode, htx, htx ▸ .accepted hresult⟩

end

/-! ## The loop -/

/-- Before a round of the inner loop: `done` is the part of `vWorkQueue` that the outer loop has
come to, `todo` the part after it, and `rest` are the orphans that the inner loop has still to try.
`first` is the transaction of the message. -/
structure TxLoop.Inv (P : Params) (w : World) (s : NodeState) (orphans : OrphanTxs)
    (first : UInt256) (done todo rest : List UInt256) (m : TxLoop) : Prop where
  orphans_eq : m.orphans = orphans
  work_eq : m.vWorkQueue = done ++ todo
  nodup : (done ++ todo).Nodup
  first_mem : first ∈ done ++ todo
  stored : ∀ hash ∈ done ++ todo, hash = first ∨ hash ∈ orphans.mapOrphanTransactions
  exists_iff : ∀ hash, m.node.mempool.exists_ hash = true ↔
    s.mempool.exists_ hash = true ∨ hash ∈ done ++ todo
  fresh : ∀ hash ∈ done ++ todo, s.mempool.exists_ hash = false
  relayed_eq : m.relayed.map Prod.snd = done ++ todo
  erased_of_work : ∀ hash ∈ done ++ todo, hash ∈ m.vEraseQueue
  work_or_refused : ∀ hash ∈ m.vEraseQueue, hash ∈ done ++ todo ∨ ∃ c ∈ m.calls,
    orphans.mapOrphanTransactions[hash]? = some c.tx ∧ c.Refuses P w
  /-- An orphan that is kept though it has been tried lacks an input, unless it is tried again. -/
  settled : ∀ (hash : UInt256) orphanTx, orphans.mapOrphanTransactions[hash]? = some orphanTx →
    hash ∉ rest → (∃ p ∈ done, SpendsFrom orphanTx p) → (∀ p ∈ todo, ¬ SpendsFrom orphanTx p) →
      hash ∉ m.vEraseQueue → Lacking (m.node.txView w m.node.txdb.fresh) orphanTx

section

variable {P : Params} {w : World} {s : NodeState} {orphans : OrphanTxs}
  {first hash : UInt256} {done todo rest : List UInt256} {m m' : TxLoop} {c : PoolCall}

theorem exists_addLoose (s : NodeState) (tx : CTransaction) (hash : UInt256) :
    (s.addLoose P tx).mempool.exists_ hash = true ↔
      s.mempool.exists_ hash = true ∨ hash = P.getHash tx := by
  have hcontains : (s.addLoose P tx).mempool.exists_ hash =
      (s.mempool.mapTx.insert (P.getHash tx) tx).contains hash := rfl
  rw [hcontains, Std.TreeMap.contains_insert, Bool.or_eq_true, beq_iff_eq, compare_eq_iff_eq,
    or_comm, eq_comm (a := hash)]
  rfl

/-- **A round of the inner loop keeps the invariant.** -/
theorem TxLoop.Inv.tried (h : m.Inv P w s orphans first done todo (hash :: rest))
    (hkeyed : orphans.Keyed P) (hstored : orphans.mapOrphanTransactions[hash]? = some c.tx)
    (hnode : c.node = m.node) (htried : Tried P w m hash c m') :
    ∃ todo', m'.Inv P w s orphans first done todo' rest := by
  have hhash : P.getHash c.tx = hash := hkeyed hash c.tx hstored
  have hrest : ∀ {hash' : UInt256}, hash' ≠ hash → hash' ∉ rest → hash' ∉ hash :: rest := by
    intro hash' hne hnot
    exact List.not_mem_cons_of_ne_of_not_mem hne hnot
  cases htried with
  | accepted hok =>
    obtain ⟨hnew, rfl⟩ := PoolCall.result_eq_ok hok
    rw [hnode, hhash] at hnew
    have hout : ¬ (s.mempool.exists_ hash = true ∨ hash ∈ done ++ todo) := by
      rw [← h.exists_iff, hnew]
      exact Bool.false_ne_true
    rw [not_or, Bool.not_eq_true] at hout
    have hqueue : done ++ (todo ++ [hash]) = (done ++ todo) ++ [hash] :=
      (List.append_assoc _ _ _).symm
    refine ⟨todo ++ [hash], ?_⟩
    exact
      { orphans_eq := h.orphans_eq
        work_eq := by rw [hqueue, ← h.work_eq]
        nodup := by
          rw [hqueue, ← List.concat_eq_append]
          exact h.nodup.concat hout.2
        first_mem := by
          rw [hqueue]
          exact List.mem_append_left _ h.first_mem
        stored := by
          rw [hqueue]
          intro hash' hmem
          rcases List.mem_append.1 hmem with hmem | hmem
          · exact h.stored hash' hmem
          · obtain rfl := List.mem_singleton.1 hmem
            exact .inr (Std.TreeMap.mem_iff_isSome_getElem?.2 (by rw [hstored]; rfl))
        exists_iff := by
          intro hash'
          rw [hqueue, hnode, exists_addLoose, h.exists_iff, hhash,
            List.mem_append (s := done ++ todo), List.mem_singleton, or_assoc]
        fresh := by
          rw [hqueue]
          intro hash' hmem
          rcases List.mem_append.1 hmem with hmem | hmem
          · exact h.fresh hash' hmem
          · obtain rfl := List.mem_singleton.1 hmem
            exact hout.1
        relayed_eq := by
          rw [hqueue, ← h.relayed_eq]
          exact List.map_append
        erased_of_work := by
          rw [hqueue]
          intro hash' hmem
          rcases List.mem_append.1 hmem with hmem | hmem
          · exact List.mem_append_left _ (h.erased_of_work hash' hmem)
          · exact List.mem_append_right _ hmem
        work_or_refused := by
          rw [hqueue]
          intro hash' hmem
          rcases List.mem_append.1 hmem with hmem | hmem
          · rcases h.work_or_refused hash' hmem with hwork | ⟨c', hc', hrefused⟩
            · exact .inl (List.mem_append_left _ hwork)
            · exact .inr ⟨c', List.mem_append_left _ hc', hrefused⟩
          · exact .inl (List.mem_append_right _ hmem)
        settled := by
          intro hash' orphanTx horphan hnot hdone htodo hkept
          obtain ⟨htodo, hlast⟩ := List.forall_mem_append.1 htodo
          have hne : hash' ≠ hash := fun heq ↦
            hkept (List.mem_append_right _ (List.mem_singleton.2 heq))
          have hlacking := h.settled hash' orphanTx horphan (hrest hne hnot) hdone htodo
            fun hmem ↦ hkept (List.mem_append_left _ hmem)
          rw [← hnode] at hlacking
          exact hlacking.addLoose (hhash ▸ hlast hash (List.mem_singleton_self _)) }
  | missing hmissing =>
    refine ⟨todo, { h with work_or_refused := ?_, settled := ?_ }⟩
    · intro hash' hmem
      rcases h.work_or_refused hash' hmem with hwork | ⟨c', hc', hrefused⟩
      · exact .inl hwork
      · exact .inr ⟨c', List.mem_append_left _ hc', hrefused⟩
    · intro hash' orphanTx horphan hnot hdone htodo hkept
      rcases eq_or_ne hash' hash with rfl | hne
      · obtain rfl := Option.some.inj (hstored.symm.trans horphan)
        have hlacking := lacking_of_missingInputs hmissing
        rwa [hnode] at hlacking
      · exact h.settled hash' orphanTx horphan (hrest hne hnot) hdone htodo hkept
  | refused hrefuses =>
    refine ⟨todo, { h with erased_of_work := ?_, work_or_refused := ?_, settled := ?_ }⟩
    · exact fun hash' hmem ↦ List.mem_append_left _ (h.erased_of_work hash' hmem)
    · intro hash' hmem
      rcases List.mem_append.1 hmem with hmem | hmem
      · rcases h.work_or_refused hash' hmem with hwork | ⟨c', hc', hrefused⟩
        · exact .inl hwork
        · exact .inr ⟨c', List.mem_append_left _ hc', hrefused⟩
      · obtain rfl := List.mem_singleton.1 hmem
        exact .inr ⟨c, List.mem_append_right _ (List.mem_singleton_self c), hstored, hrefuses⟩
    · intro hash' orphanTx horphan hnot hdone htodo hkept
      have hne : hash' ≠ hash := fun heq ↦
        hkept (List.mem_append_right _ (List.mem_singleton.2 heq))
      exact h.settled hash' orphanTx horphan (hrest hne hnot) hdone htodo
        fun hmem ↦ hkept (List.mem_append_left _ hmem)

/-- The inner loop ends, without an exception. -/
theorem TxLoop.Inv.tryOrphans (time : ℕ → ℤ) (hkeyed : orphans.Keyed P) {hashes : List UInt256} :
    ∀ {todo : List UInt256} {m : TxLoop}, m.Inv P w s orphans first done todo hashes →
      (∀ hash ∈ hashes, ∃ orphanTx, orphans.mapOrphanTransactions[hash]? = some orphanTx) →
        ∃ m' todo', Bws.tryOrphans P w time m hashes = .ok m' ∧
          m'.Inv P w s orphans first done todo' [] := by
  induction hashes with
  | nil => exact fun {todo m} h _ ↦ ⟨m, todo, rfl, h⟩
  | cons hash hashes ih =>
    intro todo m h hstored
    obtain ⟨⟨orphanTx, horphan⟩, htail⟩ := List.forall_mem_cons.1 hstored
    obtain ⟨m₁, c, htry, hnode, rfl, htried⟩ :=
      tryOrphan_cases time (h.orphans_eq.symm ▸ horphan)
    obtain ⟨todo₁, h₁⟩ := h.tried hkeyed horphan hnode htried
    obtain ⟨m', todo', hrest, h'⟩ := ih h₁ htail
    exact ⟨m', todo', by rw [Bws.tryOrphans, htry]; exact hrest, h'⟩

/-- The outer loop takes up the next transaction. -/
theorem TxLoop.Inv.next (hindexed : orphans.Indexed)
    (h : m.Inv P w s orphans first done (hash :: todo) []) :
    m.Inv P w s orphans first (done ++ [hash]) todo (orphans.byPrev hash) := by
  have hqueue : done ++ [hash] ++ todo = done ++ hash :: todo := by simp
  exact
    { orphans_eq := h.orphans_eq
      work_eq := hqueue ▸ h.work_eq
      nodup := hqueue ▸ h.nodup
      first_mem := hqueue ▸ h.first_mem
      stored := hqueue ▸ h.stored
      exists_iff := hqueue ▸ h.exists_iff
      fresh := hqueue ▸ h.fresh
      relayed_eq := hqueue ▸ h.relayed_eq
      erased_of_work := hqueue ▸ h.erased_of_work
      work_or_refused := hqueue ▸ h.work_or_refused
      settled := by
        intro hash' orphanTx horphan hnot hdone htodo hkept
        -- an orphan that is not under `hash` does not spend from it
        have hspends : ¬ SpendsFrom orphanTx hash := fun hspends ↦
          hnot (hindexed.mem_byPrev.2 ⟨orphanTx, horphan, hspends⟩)
        obtain ⟨p, hp, hpspends⟩ := hdone
        rcases List.mem_append.1 hp with hp | hp
        · exact h.settled hash' orphanTx horphan List.not_mem_nil ⟨p, hp, hpspends⟩
            (List.forall_mem_cons.2 ⟨hspends, htodo⟩) hkept
        · obtain rfl := List.mem_singleton.1 hp
          exact absurd hpspends hspends }

/-- Every element of the queue is an orphan or the transaction of the message, and is there once. -/
theorem TxLoop.Inv.length_le (h : m.Inv P w s orphans first done todo rest) :
    (done ++ todo).length ≤ orphans.mapOrphanTransactions.size + 1 := by
  have hsub : done ++ todo ⊆ first :: orphans.mapOrphanTransactions.keys := by
    intro hash hmem
    rcases h.stored hash hmem with rfl | hstored
    · exact List.mem_cons_self
    · exact List.mem_cons_of_mem _ (Std.TreeMap.mem_keys.2 hstored)
  have hlen := (List.subperm_of_subset h.nodup hsub).length_le
  rwa [List.length_cons, Std.TreeMap.length_keys] at hlen

/-- The loop ends, and what it leaves is settled. -/
theorem TxLoop.Inv.resolveFrom (time : ℕ → ℤ) (hindexed : orphans.Indexed)
    (hkeyed : orphans.Keyed P) {fuel : ℕ} : ∀ {done todo : List UInt256} {m : TxLoop},
      m.Inv P w s orphans first done todo [] →
        orphans.mapOrphanTransactions.size + 1 ≤ fuel + done.length →
          ∃ m' done', Bws.resolveFrom P w time fuel done.length m = some (.ok m') ∧
            m'.Inv P w s orphans first done' [] [] := by
  induction fuel with
  | zero =>
    intro done todo m h hfuel
    have hlen := h.length_le
    rw [List.length_append] at hlen
    obtain rfl := List.eq_nil_of_length_eq_zero (show todo.length = 0 by omega)
    refine ⟨m, done, ?_, h⟩
    rw [Bws.resolveFrom, h.work_eq, List.append_nil, List.getElem?_eq_none le_rfl]
  | succ fuel ih =>
    intro done todo m h hfuel
    cases todo with
    | nil =>
      refine ⟨m, done, ?_, h⟩
      rw [Bws.resolveFrom, h.work_eq, List.append_nil, List.getElem?_eq_none le_rfl]
    | cons hash todo =>
      obtain ⟨m₁, todo₁, htry, h₁⟩ := (h.next hindexed).tryOrphans time hkeyed
        fun hash' hmem ↦ (hindexed.mem_byPrev.1 hmem).imp fun _ ↦ And.left
      have hlen : (done ++ [hash]).length = done.length + 1 := List.length_append
      obtain ⟨m', done', hrun, h'⟩ := ih h₁ (by omega)
      refine ⟨m', done', ?_, h'⟩
      rw [hlen] at hrun
      rw [Bws.resolveFrom, h.work_eq, List.getElem?_append_right le_rfl, Nat.sub_self, h.orphans_eq]
      simp only [List.getElem?_cons_zero, htry]
      exact hrun

/-- Before the first round. -/
theorem inv_start {node : NodeState} (hok : c.result P w = .ok node) :
    (TxLoop.start P orphans c node).Inv P w c.node orphans (P.getHash c.tx) []
      [P.getHash c.tx] [] := by
  obtain ⟨hnew, hnode⟩ := PoolCall.result_eq_ok hok
  have hsingle : ∀ hash ∈ [] ++ [P.getHash c.tx], hash = P.getHash c.tx := fun hash hmem ↦
    List.mem_singleton.1 hmem
  exact
    { orphans_eq := rfl
      work_eq := rfl
      nodup := List.nodup_singleton _
      first_mem := List.mem_singleton_self _
      stored := fun hash hmem ↦ .inl (hsingle hash hmem)
      exists_iff := by
        intro hash
        rw [List.nil_append, List.mem_singleton, ← exists_addLoose, ← hnode]
        rfl
      fresh := fun hash hmem ↦ hsingle hash hmem ▸ hnew
      relayed_eq := rfl
      erased_of_work := fun hash hmem ↦ hmem
      work_or_refused := fun hash hmem ↦ .inl hmem
      settled := fun _ _ _ _ hdone ↦ absurd hdone (by simp) }

/-- After the last round. -/
theorem TxLoop.Inv.resolved (h : m.Inv P w s orphans first done [] []) :
    Joined s m.finish.node first ∧ OrphansResolved P w s orphans m.finish := by
  have hjoined : ∀ hash, Joined s m.finish.node hash ↔ hash ∈ done := by
    intro hash
    have hiff : m.finish.node.mempool.exists_ hash = true ↔ _ := h.exists_iff hash
    rw [List.append_nil] at hiff
    rw [Joined, hiff]
    constructor
    · rintro ⟨hnot, hold | hmem⟩
      · cases hnot.symm.trans hold
      · exact hmem
    · exact fun hmem ↦ ⟨h.fresh hash (List.mem_append_left _ hmem), .inr hmem⟩
  have hrelayed : m.relayed.map Prod.snd = done := h.relayed_eq.trans (List.append_nil done)
  have herased : ∀ hash : UInt256, m.finish.orphans.mapOrphanTransactions[hash]? =
      if hash ∈ m.vEraseQueue then none else orphans.mapOrphanTransactions[hash]? := by
    intro hash
    rw [TxLoop.finish, OrphanTxs.getElem?_foldl_eraseOrphanTx, h.orphans_eq]
  refine ⟨(hjoined first).2 (List.append_nil done ▸ h.first_mem), ?_⟩
  constructor
  · intro hash orphanTx parent horphan hspends hparent nAdjustedTime node
    rw [herased] at horphan
    split_ifs at horphan with hkept
    have hlacking : Lacking (m.node.txView { w with nAdjustedTime } m.node.txdb.fresh) orphanTx :=
      h.settled hash orphanTx horphan List.not_mem_nil
      ⟨parent, (hjoined parent).1 hparent, hspends⟩ (List.forall_mem_nil _) hkept
    exact hlacking.ne_ok true
  · intro hash hmem
    rw [hjoined] at hmem
    have hwork : hash ∈ done ++ [] := List.mem_append_left _ hmem
    refine ⟨?_, by rw [herased, if_pos (h.erased_of_work hash hwork)]⟩
    have hnodup : done.Nodup := List.append_nil done ▸ h.nodup
    exact hrelayed.symm ▸ List.count_eq_one_of_mem hnodup hmem
  · intro hash hmem
    exact (hjoined hash).2 (hrelayed ▸ hmem)
  · intro hash orphanTx horphan
    rw [herased]
    by_cases hmem : hash ∈ m.vEraseQueue
    · refine .inr ?_
      rcases h.work_or_refused hash hmem with hwork | ⟨c', hc', hstored, hrefuses⟩
      · exact .inl ((hjoined hash).2 (List.append_nil done ▸ hwork))
      · exact .inr ⟨c', hc', Option.some.inj (hstored.symm.trans horphan), hrefuses⟩
    · rw [if_neg hmem]
      exact .inl horphan
  · intro hash orphanTx horphan
    rw [herased] at horphan
    split_ifs at horphan
    exact horphan

end

/-- **The orphans are resolved.**  Whatever is stored and whatever the time does meanwhile, a "tx"
message whose transaction is accepted comes to its end, and every orphan that it makes acceptable
has been accepted and relayed. -/
theorem processTx_resolves (P : Params) (w : World) (time : ℕ → ℤ) (getRandHash : ℕ → UInt256)
    {s node : NodeState} {orphans : OrphanTxs} {tx : CTransaction} (h : orphans.Reachable P)
    (haccepted : PoolCall.result P w ⟨s, time 0, tx⟩ = .ok node) :
    ∃ m, processTx P w time getRandHash s orphans tx = some (.ok m) ∧
      Joined s m.node (P.getHash tx) ∧ OrphansResolved P w s orphans m := by
  obtain ⟨m, done, hrun, hm⟩ :=
    (inv_start haccepted).resolveFrom time h.indexed h.keyed le_rfl
  refine ⟨m.finish, ?_, hm.resolved⟩
  rw [processTx]
  simp only [haccepted, List.length_nil] at hrun ⊢
  rw [hrun]
  rfl

namespace Sample

/-- A transaction has arrived before the one that it spends. -/
def waiting : OrphanTxs := (OrphanTxs.empty.addOrphanTx params spender).1

example : (processTx params world (fun _ ↦ world.nAdjustedTime) (fun _ ↦ 0) funded waiting
    (anyone ⟨77, 0⟩ COIN)).map (fun r ↦ r.toOption.map fun m ↦
      (m.relayed.map Prod.snd, m.orphans.mapOrphanTransactions.size)) =
        some (some ([6, 7], 0)) := by
  decide +kernel

end Sample

theorem processTx_resolves_sample : ∃ m,
    processTx Sample.params Sample.world (fun _ ↦ Sample.world.nAdjustedTime) (fun _ ↦ 0)
        Sample.funded Sample.waiting (Sample.anyone ⟨77, 0⟩ COIN) = some (.ok m) ∧
      OrphansResolved Sample.params Sample.world Sample.funded Sample.waiting m := by
  have hreach : OrphanTxs.Reachable Sample.params Sample.waiting := .add Sample.spender .empty
  have haccepted : PoolCall.result Sample.params Sample.world
      ⟨Sample.funded, Sample.world.nAdjustedTime, Sample.anyone ⟨77, 0⟩ COIN⟩ =
        .ok (Sample.funded.addLoose Sample.params (Sample.anyone ⟨77, 0⟩ COIN)) :=
    Sample.accept_of_isOk (by decide +kernel)
  obtain ⟨m, hrun, -, hm⟩ := processTx_resolves Sample.params Sample.world
    (fun _ ↦ Sample.world.nAdjustedTime) (fun _ ↦ 0) hreach haccepted
  exact ⟨m, hrun, hm⟩

end Bws
