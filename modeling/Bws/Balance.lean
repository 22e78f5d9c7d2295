import Bws.Node
import Bws.SigOps
import Bws.Standard
import Bws.Supply
import Bws.Wallet

/-!
# Two ways to the balance

`GetBalance` adds up what is unspent of the trusted transactions, and `getbalance "*"` what they receive,
less what they send and pay as fees.  A comment of the source says that with no confirmations asked for
they give the same number.

They do so exactly when two sums agree (`getBalanceAll_eq_iff`).  An output that counts as change is
left out of what is received and of what is sent, so that the second way counts it whether or not it is
ours, and whether or not it is mature; and an output that is spent is counted as spent, wherever it comes
from.  Where transactions spend only what is trusted and mature, and only once, the ways differ by the
change outputs that the first one does not count.
-/

namespace Bws

/-! ## Depth in the chain -/

def NodeState.isInMainChain (s : NodeState) (pindex : CBlockIndex) : Prop :=
  (s.pnext pindex).isSome ∨ s.pindexBest = some pindex

instance (s : NodeState) (pindex : CBlockIndex) : Decidable (s.isInMainChain pindex) :=
  inferInstanceAs (Decidable (_ ∨ _))

/-- The loop of `CheckMerkleBranch`. -/
def merkleRootFrom (hashPair : UInt256 → UInt256 → UInt256) :
    UInt256 → List UInt256 → ℤ → UInt256
  | hash, [], _ => hash
  | hash, otherside :: vMerkleBranch, nIndex =>
    merkleRootFrom hashPair
      (if nIndex % 2 = 1 then hashPair otherside hash else hashPair hash otherside) vMerkleBranch
      (nIndex / 2)

def checkMerkleBranch (P : Params) (hash : UInt256) (vMerkleBranch : List UInt256) (nIndex : ℤ) :
    UInt256 :=
  if nIndex = -1 then 0 else merkleRootFrom P.hashPair hash vMerkleBranch nIndex

section

variable (P : Params) (s : NodeState)

/-- `GetDepthInMainChainINTERNAL`; whenever a block is in the main chain there is a best one. -/
def CMerkleTx.getDepthInMainChainINTERNAL (tx : CMerkleTx) : ℤ :=
  if tx.hashBlock = 0 ∨ tx.nIndex = -1 then 0
  else
    -- find the block it claims to be in
    match s.mapBlockIndex tx.hashBlock with
    | none => 0
    | some pindex =>
      if ¬ s.isInMainChain pindex then 0
      else if checkMerkleBranch P (P.getHash tx.toCTransaction) tx.vMerkleBranch tx.nIndex ≠
          pindex.val.hashMerkleRoot then 0
      else (s.pindexBest.elim 0 fun pindexBest ↦ (pindexBest.nHeight : ℤ)) - pindex.nHeight + 1

def CMerkleTx.getDepthInMainChain (tx : CMerkleTx) : ℤ :=
  let nResult := tx.getDepthInMainChainINTERNAL P s
  -- not in chain, not in mempool
  if nResult = 0 ∧ !s.mempool.exists_ (P.getHash tx.toCTransaction) then -1 else nResult

def CMerkleTx.getBlocksToMaturity (tx : CMerkleTx) : ℤ :=
  if ¬ (tx.isCoinBase ∨ tx.isCoinStake) then 0
  else max 0 (nCoinbaseMaturity + 1 - tx.getDepthInMainChain P s)

end

/-! ## What the balances read -/

/-- A wallet and the node it belongs to. -/
structure WalletView where
  params : Params
  solverParams : SolverParams
  node : NodeState
  nAdjustedTime : ℤ
  fConfChange : Bool
  keystore : CKeyStore
  /-- `mapAddressBook.count(address)` -/
  mapAddressBook : CTxDestination → Bool
  wallet : Wallet
  /-- `vtxPrev` of the transaction with a hash -/
  vtxPrev : UInt256 → List CMerkleTx
  /-- the keys of `mapWallet`, in the order of the map -/
  hashes : List UInt256
  sorted : hashes.Pairwise (· < ·)
  mem_hashes : ∀ hash, hash ∈ hashes ↔ (wallet.mapWallet hash).isSome

namespace WalletView

variable (v : WalletView)

/-- The transactions of the wallet, in the order of the map. -/
def entries : List (UInt256 × CWalletTx) :=
  v.hashes.filterMap fun hash ↦ (v.wallet.mapWallet hash).map fun wtx ↦ (hash, wtx)

def depth (tx : CMerkleTx) : ℤ := tx.getDepthInMainChain v.params v.node

def blocksToMaturity (tx : CMerkleTx) : ℤ := tx.getBlocksToMaturity v.params v.node

/-- `IsFinalTx(tx)` -/
def isFinal (tx : CTransaction) : Prop := isFinalTx v.node.nBestHeight v.nAdjustedTime tx 0 0

instance (tx : CTransaction) : Decidable (v.isFinal tx) :=
  inferInstanceAs (Decidable (isFinalTx ..))

/-- `IsMine(txout)` -/
def isMine (txout : CTxOut) : Bool := v.keystore.isMine v.solverParams txout.scriptPubKey

/-- What the debit of a transaction reads; it has no use for the smallest input. -/
def walletParams : WalletParams := ⟨v.params, v.keystore.isMine v.solverParams, 0⟩

/-- `GetDebit(tx)` -/
def getDebit (tx : CTransaction) : Except Fault ℤ := v.wallet.getDebit v.walletParams tx

def isFromMe (tx : CTransaction) : Except Fault Bool := v.wallet.isFromMe v.walletParams tx

def isChange (txout : CTxOut) : Bool :=
  match extractDestination v.solverParams txout.scriptPubKey with
  | none => false
  | some address => v.keystore.isMineDest address && !v.mapAddressBook address

/-- `GetCredit(txout)` -/
def getCredit (txout : CTxOut) : Except Fault ℤ :=
  if ¬ moneyRange txout.nValue then .error (.thrown "CWallet::GetCredit() : value out of range")
  else .ok (if v.isMine txout then txout.nValue else 0)

/-! ## IsTrusted -/

/-- The transactions that `vWorkQueue` holds at one time: what they add to it, unless there is one that
cannot be trusted. -/
def queueLevel (vtxPrev : List CMerkleTx) : List CMerkleTx → Except Fault (Option (List CMerkleTx))
  | [] => .ok (some [])
  | ptx :: level =>
    if ¬ v.isFinal ptx.toCTransaction then .ok none
    else if 1 ≤ v.depth ptx then queueLevel vtxPrev level
    else if v.depth ptx < 0 then .ok none
    else do
      if ← v.isFromMe ptx.toCTransaction then
        -- `mapPrev` holds the last one of a hash
        match ptx.vin.mapM fun txin ↦ vtxPrev.reverse.find? fun tx ↦
            v.params.getHash tx.toCTransaction = txin.prevout.hash with
        | none => .ok none
        | some added => (queueLevel vtxPrev level).map (Option.map (added ++ ·))
      else .ok none

/-- The loop of `IsTrusted` over `vWorkQueue`.  What is added after as many rounds as there are
transactions in `vtxPrev` would be among those that have been there before. -/
def queueTrusted (vtxPrev : List CMerkleTx) : ℕ → List CMerkleTx → Except Fault Bool
  | _, [] => .ok true
  | 0, _ :: _ => .ok false
  | fuel + 1, ptx :: level => do
    match ← v.queueLevel vtxPrev (ptx :: level) with
    | none => .ok false
    | some added => queueTrusted vtxPrev fuel added

def isTrusted (e : UInt256 × CWalletTx) : Except Fault Bool :=
  if ¬ v.isFinal e.2.toCTransaction then .ok false
  else if 1 ≤ v.depth e.2.toCMerkleTx then .ok true
  else if v.depth e.2.toCMerkleTx < 0 then .ok false
  else if v.fConfChange then .ok false
  else do
    -- if no confirmations but it's from us, we can still consider it confirmed if all dependencies are
    if ← v.isFromMe e.2.toCTransaction then
      v.queueTrusted (v.vtxPrev e.1) ((v.vtxPrev e.1).length + 2) [e.2.toCMerkleTx]
    else .ok false

/-! ## GetBalance -/

/-- The loop of `GetAvailableCredit`, from the output `i` on. -/
def availableCreditFrom (wtx : CWalletTx) : ℕ → ℤ → List CTxOut → Except Fault ℤ
  | _, nCredit, [] => .ok nCredit
  | i, nCredit, txout :: vout => do
    if ← wtx.isSpent i then availableCreditFrom wtx (i + 1) nCredit vout
    else
      let n ← v.getCredit txout
      if ¬ moneyRange (int64 (nCredit + n)) then
        .error (.thrown "CWalletTx::GetAvailableCredit() : value out of range")
      else availableCreditFrom wtx (i + 1) (int64 (nCredit + n)) vout

def getAvailableCredit (wtx : CWalletTx) : Except Fault ℤ :=
  -- must wait until coinbase is safely deep enough in the chain before valuing it
  if (wtx.isCoinBase ∨ wtx.isCoinStake) ∧ 0 < v.blocksToMaturity wtx.toCMerkleTx then .ok 0
  else v.availableCreditFrom wtx 0 0 wtx.vout

/-- A loop over the trusted transactions of the wallet. -/
def overTrusted (round : ℤ → CWalletTx → Except Fault ℤ) :
    ℤ → List (UInt256 × CWalletTx) → Except Fault ℤ
  | n, [] => .ok n
  | n, e :: entries => do
    if ← v.isTrusted e then
      let n ← round n e.2
      overTrusted round n entries
    else overTrusted round n entries

def getBalance : Except Fault ℤ :=
  v.overTrusted (fun nTotal wtx ↦ do
    let nCredit ← v.getAvailableCredit wtx
    .ok (int64 (nTotal + nCredit))) 0 v.entries

/-! ## getbalance "*" -/

/-- What `GetAmounts` leaves in its arguments. -/
structure Amounts where
  listReceived : List (CTxDestination × ℤ)
  listSent : List (CTxDestination × ℤ)
  nFee : ℤ

/-- The loop of `GetAmounts`. -/
def amountsFrom (nDebit : ℤ) : List CTxOut →
    List (CTxDestination × ℤ) × List (CTxDestination × ℤ)
  | [] => ([], [])
  | txout :: vout =>
    let (listReceived, listSent) := amountsFrom nDebit vout
    -- skip special stake out
    if txout.scriptPubKey = [] then (listReceived, listSent)
    -- don't report 'change' txouts
    else if 0 < nDebit ∧ v.isChange txout then (listReceived, listSent)
    else if ¬ 0 < nDebit ∧ ¬ v.isMine txout then (listReceived, listSent)
    else
      let address := (extractDestination v.solverParams txout.scriptPubKey).getD .noDestination
      (if v.isMine txout then (address, txout.nValue) :: listReceived else listReceived,
        if 0 < nDebit then (address, txout.nValue) :: listSent else listSent)

/-- The fee that `GetAmounts` computes. -/
def feeOf (nDebit : ℤ) (wtx : CWalletTx) : Except Fault ℤ :=
  -- debit>0 means we signed/sent this transaction
  if 0 < nDebit then wtx.getValueOut.map fun nValueOut ↦ int64 (nDebit - nValueOut) else .ok 0

def getAmounts (wtx : CWalletTx) : Except Fault Amounts := do
  let nDebit ← v.getDebit wtx.toCTransaction
  let nFee ← feeOf nDebit wtx
  let (listReceived, listSent) := v.amountsFrom nDebit wtx.vout
  .ok ⟨listReceived, listSent, nFee⟩

/-- A round of the loop of `getbalance` for all accounts. -/
def addAmounts (nMinDepth : ℤ) (nBalance : ℤ) (wtx : CWalletTx) : Except Fault ℤ := do
  let amounts ← v.getAmounts wtx
  let nBalance :=
    if nMinDepth ≤ v.depth wtx.toCMerkleTx ∧ v.blocksToMaturity wtx.toCMerkleTx = 0 then
      amounts.listReceived.foldl (fun n r ↦ int64 (n + r.2)) nBalance
    else nBalance
  let nBalance := amounts.listSent.foldl (fun n r ↦ int64 (n - r.2)) nBalance
  .ok (int64 (nBalance - amounts.nFee))

/-- `getbalance "*" nMinDepth` -/
def getBalanceAll (nMinDepth : ℤ) : Except Fault ℤ := v.overTrusted (v.addAmounts nMinDepth) 0 v.entries

/-! ## Sums of values -/

/-- What the outputs are worth that are chosen, each given with its place. -/
def valueWhere (p : CTxOut × ℕ → Bool) (outs : List (CTxOut × ℕ)) : ℤ :=
  ((outs.filter p).map fun out ↦ out.1.nValue).sum

@[simp] theorem valueWhere_nil (p : CTxOut × ℕ → Bool) : valueWhere p [] = 0 := rfl

theorem valueWhere_cons (p : CTxOut × ℕ → Bool) (out : CTxOut × ℕ) (outs : List (CTxOut × ℕ)) :
    valueWhere p (out :: outs) = (if p out then out.1.nValue else 0) + valueWhere p outs := by
  unfold valueWhere
  by_cases h : p out
  · rw [List.filter_cons_of_pos h, if_pos h, List.map_cons, List.sum_cons]
  · rw [List.filter_cons_of_neg h, if_neg h, zero_add]

theorem valueWhere_congr {p q : CTxOut × ℕ → Bool} {outs : List (CTxOut × ℕ)}
    (h : ∀ out ∈ outs, p out = q out) : valueWhere p outs = valueWhere q outs := by
  rw [valueWhere, valueWhere, List.filter_congr h]

/-- What is chosen one way or the other. -/
theorem valueWhere_add (p q : CTxOut × ℕ → Bool) (outs : List (CTxOut × ℕ)) :
    valueWhere p outs = valueWhere (fun out ↦ p out && q out) outs +
      valueWhere (fun out ↦ p out && !q out) outs := by
  induction outs with
  | nil => rfl
  | cons out outs ih =>
    rw [valueWhere_cons, valueWhere_cons, valueWhere_cons, ih]
    cases p out <;> cases q out <;> simp <;> ring

theorem valueWhere_nonneg {p : CTxOut × ℕ → Bool} {outs : List (CTxOut × ℕ)}
    (h : ∀ out ∈ outs, 0 ≤ out.1.nValue) : 0 ≤ valueWhere p outs := by
  refine List.sum_nonneg fun n hn ↦ ?_
  obtain ⟨out, hout, rfl⟩ := List.mem_map.mp hn
  exact h out (List.mem_of_mem_filter hout)

/-- What is chosen is worth nothing only when each of it is. -/
theorem valueWhere_eq_zero_iff {p : CTxOut × ℕ → Bool} {outs : List (CTxOut × ℕ)}
    (h : ∀ out ∈ outs, 0 ≤ out.1.nValue) :
    valueWhere p outs = 0 ↔ ∀ out ∈ outs, p out = true → out.1.nValue = 0 := by
  induction outs with
  | nil => simp
  | cons out outs ih =>
    have hout := h out List.mem_cons_self
    have houts : ∀ out ∈ outs, 0 ≤ out.1.nValue := fun o ho ↦ h o (List.mem_cons_of_mem _ ho)
    have hrest := valueWhere_nonneg (p := p) houts
    rw [valueWhere_cons, List.forall_mem_cons, ← ih houts]
    by_cases hp : p out
    · rw [if_pos hp]
      constructor
      · exact fun hsum ↦ ⟨fun _ ↦ by omega, by omega⟩
      · rintro ⟨hzero, hsum⟩
        rw [hzero hp, hsum, add_zero]
    · rw [if_neg hp, zero_add]
      exact ⟨fun hsum ↦ ⟨fun hp' ↦ absurd hp' hp, hsum⟩, And.right⟩

/-- The choice of everything is the value of the transaction. -/
theorem valueWhere_true (vout : List CTxOut) (i : ℕ) :
    valueWhere (fun _ ↦ true) (vout.zipIdx i) = totalValue vout := by
  induction vout generalizing i with
  | nil => rfl
  | cons txout vout ih =>
    rw [List.zipIdx_cons, valueWhere_cons, ih, totalValue_cons, if_pos rfl]

/-! ## What is assumed -/

/-- The transaction is trusted. -/
def trusts (e : UInt256 × CWalletTx) : Bool :=
  match v.isTrusted e with
  | .ok fTrusted => fTrusted
  | .error _ => false

def trustedEntries : List (UInt256 × CWalletTx) := v.entries.filter v.trusts

/-- The outputs of the transaction can be spent. -/
def mature (wtx : CWalletTx) : Bool := v.blocksToMaturity wtx.toCMerkleTx = 0

/-- An output of the wallet that is ours, with its value. -/
def mineOutput (o : COutPoint) : Option CTxOut := v.wallet.mineOutput v.walletParams o

/-- An own output is marked spent exactly when a trusted transaction of the wallet spends it. -/
def MarksExact : Prop :=
  ∀ hash wtx n txout, v.wallet.mapWallet hash = some wtx → wtx.vout[n]? = some txout →
    v.isMine txout = true →
      (wtx.vfSpent.getD n false = true ↔
        ∃ e ∈ v.trustedEntries, (⟨hash, n⟩ : COutPoint) ∈ e.2.vin.map CTxIn.prevout)

/-- No amount is out of range: neither what a transaction pays out, nor what it takes from the wallet,
also where it is a copy in `vtxPrev`. -/
structure InRange : Prop where
  value : ∀ e ∈ v.entries, ∃ nValueOut, e.2.getValueOut = .ok nValueOut
  debit : ∀ e ∈ v.entries, ∃ nDebit, v.getDebit e.2.toCTransaction = .ok nDebit
  debitPrev : ∀ e ∈ v.entries, ∀ prev ∈ v.vtxPrev e.1,
    ∃ nDebit, v.getDebit prev.toCTransaction = .ok nDebit

/-- No output with an empty script carries value. -/
def NoEmptyValue : Prop :=
  ∀ e ∈ v.entries, ∀ txout ∈ e.2.vout, txout.scriptPubKey = [] → txout.nValue = 0

variable {v}

theorem mem_entries {e : UInt256 × CWalletTx} :
    e ∈ v.entries ↔ v.wallet.mapWallet e.1 = some e.2 := by
  unfold entries
  rw [List.mem_filterMap]
  constructor
  · rintro ⟨hash, -, h⟩
    obtain ⟨wtx, hwtx, rfl⟩ := Option.map_eq_some_iff.mp h
    exact hwtx
  · intro h
    exact ⟨e.1, (v.mem_hashes e.1).mpr (by rw [h]; rfl), by rw [h]; rfl⟩

/-! ## The debit of a transaction -/

theorem InRange.nValue (h : v.InRange) {e : UInt256 × CWalletTx} (he : e ∈ v.entries) :
    ∀ txout ∈ e.2.vout, moneyRange txout.nValue := by
  obtain ⟨n, hn⟩ := h.value e he
  exact nValue_of_getValueOutFrom hn

theorem mineOutput_eq_some {o : COutPoint} {txout : CTxOut} :
    v.mineOutput o = some txout ↔ ∃ wtx, v.wallet.mapWallet o.hash = some wtx ∧
      wtx.vout[o.n]? = some txout ∧ v.isMine txout = true := by
  unfold mineOutput Wallet.mineOutput
  split
  · rename_i hnone
    rw [hnone]
    exact ⟨nofun, fun ⟨_, h, _⟩ ↦ nomatch h⟩
  · rename_i wtx hwtx
    rw [hwtx, Option.filter_eq_some_iff]
    constructor
    · rintro ⟨hout, hmine⟩
      exact ⟨wtx, rfl, hout, hmine⟩
    · rintro ⟨wtx', heq, hout, hmine⟩
      cases heq
      exact ⟨hout, hmine⟩

/-- What an output is worth to the wallet. -/
def valueAt (v : WalletView) (o : COutPoint) : ℤ := ((v.mineOutput o).map CTxOut.nValue).getD 0

theorem InRange.valueAt (h : v.InRange) (o : COutPoint) : moneyRange (v.valueAt o) := by
  unfold WalletView.valueAt
  cases ho : v.mineOutput o with
  | none => decide
  | some txout =>
    obtain ⟨wtx, hwtx, hout, -⟩ := mineOutput_eq_some.mp ho
    exact h.nValue (e := (o.hash, wtx)) (mem_entries.mpr hwtx) txout (List.mem_of_getElem? hout)

/-- What a transaction takes from the wallet. -/
def debitOf (v : WalletView) (tx : CTransaction) : ℤ :=
  (tx.vin.map fun txin ↦ v.valueAt txin.prevout).sum

/-- `GetDebit` refuses any partial sum out of range, so that the sum is exact. -/
theorem InRange.getDebitFrom_eq (h : v.InRange) {vin : List CTxIn} :
    ∀ {nDebit n : ℤ}, moneyRange nDebit →
      v.wallet.getDebitFrom v.walletParams nDebit vin = .ok n →
        n = nDebit + (vin.map fun txin ↦ v.valueAt txin.prevout).sum ∧ moneyRange n := by
  induction vin with
  | nil =>
    rintro nDebit _ hrange ⟨⟩
    exact ⟨by simp, hrange⟩
  | cons txin vin ih =>
    intro nDebit n hrange hok
    have hmax : MAX_MONEY < 2 ^ 62 := by decide
    obtain ⟨hlo, hhi⟩ := hrange
    obtain ⟨hlo', hhi'⟩ := h.valueAt txin.prevout
    have hin : v.wallet.getDebitIn v.walletParams txin = v.valueAt txin.prevout := rfl
    rw [Wallet.getDebitFrom, hin, int64_eq ⟨by omega, by omega⟩] at hok
    split at hok
    · rename_i hmoney
      obtain ⟨hn, hnrange⟩ := ih hmoney hok
      refine ⟨?_, hnrange⟩
      rw [hn, List.map_cons, List.sum_cons, add_assoc]
    · cases hok

theorem InRange.getDebit_eq (h : v.InRange) {tx : CTransaction} {nDebit : ℤ}
    (hok : v.getDebit tx = .ok nDebit) : nDebit = v.debitOf tx ∧ 0 ≤ nDebit := by
  have hzero : moneyRange 0 := by decide
  obtain ⟨hn, hrange⟩ := h.getDebitFrom_eq hzero hok
  exact ⟨by rw [hn, zero_add, debitOf], hrange.1⟩

theorem InRange.isFromMe_eq {tx : CTransaction} (h : ∃ nDebit, v.getDebit tx = .ok nDebit) :
    ∃ fFromMe, v.isFromMe tx = .ok fFromMe := by
  obtain ⟨nDebit, hok⟩ := h
  refine ⟨decide (0 < nDebit), ?_⟩
  rw [isFromMe, Wallet.isFromMe]
  change (v.getDebit tx).map _ = _
  rw [hok]
  rfl

/-! ## Trust -/

theorem mem_of_mapM {α β : Type} {f : α → Option β} {l : List α} :
    ∀ {l' : List β}, l.mapM f = some l' → ∀ {b}, b ∈ l' → ∃ a ∈ l, f a = some b := by
  induction l with
  | nil =>
    intro l' h b hb
    cases h
    cases hb
  | cons a l ih =>
    intro l' h b hb
    rw [List.mapM_cons] at h
    obtain ⟨b', hb', h⟩ := Option.bind_eq_some_iff.mp h
    obtain ⟨l'', hl'', h⟩ := Option.bind_eq_some_iff.mp h
    cases h
    rcases List.mem_cons.mp hb with rfl | hmem
    · exact ⟨a, List.mem_cons_self, hb'⟩
    · obtain ⟨a', ha', hf⟩ := ih hl'' hmem
      exact ⟨a', List.mem_cons_of_mem _ ha', hf⟩

theorem queueLevel_ok (vtxPrev : List CMerkleTx)
    {level : List CMerkleTx}
    (hlevel : ∀ ptx ∈ level, ∃ nDebit, v.getDebit ptx.toCTransaction = .ok nDebit) :
    ∃ added, v.queueLevel vtxPrev level = .ok added ∧
      ∀ next ∈ added, ∀ ptx ∈ next, ptx ∈ vtxPrev := by
  induction level with
  | nil => exact ⟨some [], rfl, by rintro _ ⟨⟩; exact nofun⟩
  | cons ptx level ih =>
    rw [List.forall_mem_cons] at hlevel
    obtain ⟨added, hadded, hmem⟩ := ih hlevel.2
    obtain ⟨fFromMe, hfrom⟩ := InRange.isFromMe_eq hlevel.1
    rw [queueLevel]
    split
    · exact ⟨none, rfl, nofun⟩
    · split
      · exact ⟨added, hadded, hmem⟩
      · split
        · exact ⟨none, rfl, nofun⟩
        · rw [hfrom]
          cases fFromMe with
          | false => exact ⟨none, rfl, nofun⟩
          | true =>
            simp only [bind, Except.bind, if_true]
            split
            · exact ⟨none, rfl, nofun⟩
            · rename_i prevs hprevs
              rw [hadded]
              refine ⟨_, rfl, ?_⟩
              intro next hnext ptx' hptx'
              obtain ⟨rest, hrest, rfl⟩ := Option.map_eq_some_iff.mp hnext
              rcases List.mem_append.mp hptx' with hnew | hold
              · obtain ⟨txin, -, hfind⟩ := mem_of_mapM hprevs hnew
                exact List.mem_reverse.mp (List.mem_of_find?_eq_some hfind)
              · exact hmem rest hrest ptx' hold

theorem queueTrusted_ok {vtxPrev : List CMerkleTx}
    (hprev : ∀ prev ∈ vtxPrev, ∃ nDebit, v.getDebit prev.toCTransaction = .ok nDebit) (fuel : ℕ) :
    ∀ {level : List CMerkleTx},
      (∀ ptx ∈ level, ∃ nDebit, v.getDebit ptx.toCTransaction = .ok nDebit) →
        ∃ fTrusted, v.queueTrusted vtxPrev fuel level = .ok fTrusted := by
  induction fuel with
  | zero =>
    intro level _
    cases level with
    | nil => exact ⟨true, rfl⟩
    | cons ptx level => exact ⟨false, rfl⟩
  | succ fuel ih =>
    intro level hlevel
    cases level with
    | nil => exact ⟨true, rfl⟩
    | cons ptx level =>
      obtain ⟨added, hadded, hmem⟩ := queueLevel_ok vtxPrev hlevel
      rw [queueTrusted, hadded]
      cases added with
      | none => exact ⟨false, rfl⟩
      | some next => exact ih fun ptx' hptx' ↦ hprev ptx' (hmem next rfl ptx' hptx')

/-- Nothing stands in the way of finding out whether a transaction is trusted. -/
theorem InRange.isTrusted_eq (h : v.InRange) {e : UInt256 × CWalletTx} (he : e ∈ v.entries) :
    v.isTrusted e = .ok (v.trusts e) := by
  have hok : ∃ fTrusted, v.isTrusted e = .ok fTrusted := by
    obtain ⟨fFromMe, hfrom⟩ := isFromMe_eq (h.debit e he)
    have hqueue : ∃ fTrusted, v.queueTrusted (v.vtxPrev e.1) ((v.vtxPrev e.1).length + 2)
        [e.2.toCMerkleTx] = .ok fTrusted := by
      refine queueTrusted_ok (h.debitPrev e he) _ fun ptx hptx ↦ ?_
      rw [List.mem_singleton.mp hptx]
      exact h.debit e he
    rw [isTrusted, hfrom]
    by_cases hfinal : v.isFinal e.2.toCTransaction
    · rw [if_neg (not_not.mpr hfinal)]
      split
      · exact ⟨true, rfl⟩
      · split
        · exact ⟨false, rfl⟩
        · split
          · exact ⟨false, rfl⟩
          · cases fFromMe with
            | false => exact ⟨false, rfl⟩
            | true => exact hqueue
    · rw [if_pos hfinal]
      exact ⟨false, rfl⟩
  obtain ⟨fTrusted, hok⟩ := hok
  rw [trusts, hok]

/-- A trusted transaction is in the chain or in the memory pool. -/
theorem depth_of_trusts {e : UInt256 × CWalletTx} (h : v.trusts e = true) :
    0 ≤ v.depth e.2.toCMerkleTx := by
  by_contra hneg
  have hlt : ¬ 1 ≤ v.depth e.2.toCMerkleTx := by omega
  have hfalse : v.isTrusted e = .ok false := by
    rw [isTrusted, if_neg hlt, if_pos (not_le.mp hneg), ite_self]
  rw [trusts, hfalse] at h
  cases h

theorem overTrusted_eq {round : ℤ → CWalletTx → Except Fault ℤ} {f : CWalletTx → ℤ}
    {es : List (UInt256 × CWalletTx)} (hok : ∀ e ∈ es, v.isTrusted e = .ok (v.trusts e))
    (hround : ∀ e ∈ es, v.trusts e = true → ∀ n, round n e.2 = .ok (int64 (n + f e.2))) :
    ∀ {n : ℤ}, int64 n = n → v.overTrusted round n es =
      .ok (int64 (n + ((es.filter v.trusts).map fun e ↦ f e.2).sum)) := by
  induction es with
  | nil =>
    intro n hn
    rw [overTrusted, List.filter_nil, List.map_nil, List.sum_nil, add_zero, hn]
  | cons e es ih =>
    intro n hn
    rw [List.forall_mem_cons] at hok hround
    rw [overTrusted, hok.1]
    simp only [bind, Except.bind]
    cases ht : v.trusts e with
    | false =>
      rw [List.filter_cons_of_neg (by rw [ht]; decide)]
      exact ih hok.2 hround.2 hn
    | true =>
      rw [List.filter_cons_of_pos ht, List.map_cons, List.sum_cons, if_pos rfl, hround.1 ht]
      have hidem : int64 (int64 (n + f e.2)) = int64 (n + f e.2) :=
        int64_congr (int64_modEq _)
      dsimp only
      rw [ih hok.2 hround.2 hidem]
      congr 1
      refine int64_congr ?_
      rw [← add_assoc]
      exact (int64_modEq _).add_right _

/-! ## One transaction -/

theorem isMine_of_empty {txout : CTxOut} (h : txout.scriptPubKey = []) : v.isMine txout = false := by
  rw [isMine, h]
  rfl

/-- What is ours and not marked spent. -/
def isUnspent (v : WalletView) (wtx : CWalletTx) (out : CTxOut × ℕ) : Bool :=
  v.isMine out.1 && !wtx.vfSpent.getD out.2 false

/-- What is ours and marked spent. -/
def isSettled (v : WalletView) (wtx : CWalletTx) (out : CTxOut × ℕ) : Bool :=
  v.isMine out.1 && wtx.vfSpent.getD out.2 false

theorem availableCreditFrom_eq {wtx : CWalletTx} {vout : List CTxOut} :
    ∀ {i : ℕ} {nCredit : ℤ}, i + vout.length = wtx.vout.length →
      (∀ txout ∈ vout, moneyRange txout.nValue) → 0 ≤ nCredit →
        moneyRange (nCredit + totalValue vout) → v.availableCreditFrom wtx i nCredit vout =
          .ok (nCredit + valueWhere (v.isUnspent wtx) (vout.zipIdx i)) := by
  induction vout with
  | nil =>
    intro i nCredit _ _ _ _
    rw [availableCreditFrom, List.zipIdx_nil, valueWhere_nil, add_zero]
  | cons txout vout ih =>
    intro i nCredit hlen hvalue hlo hrange
    have hmax : MAX_MONEY < 2 ^ 62 := by decide
    rw [List.forall_mem_cons] at hvalue
    have htotal : 0 ≤ totalValue vout := by
      refine List.sum_nonneg fun n hn ↦ ?_
      obtain ⟨txout', hmem, rfl⟩ := List.mem_map.mp hn
      exact (hvalue.2 txout' hmem).1
    rw [totalValue_cons] at hrange
    rw [List.length_cons] at hlen
    obtain ⟨hlo', hhi'⟩ := hvalue.1
    obtain ⟨-, hhi⟩ := hrange
    have hspent : wtx.isSpent i = .ok (wtx.vfSpent.getD i false) := if_neg (by omega)
    have hcredit : v.getCredit txout = .ok (if v.isMine txout then txout.nValue else 0) :=
      if_neg (not_not.mpr hvalue.1)
    have hnext : ∀ n, 0 ≤ n → n ≤ nCredit + txout.nValue →
        v.availableCreditFrom wtx (i + 1) n vout =
          .ok (n + valueWhere (v.isUnspent wtx) (vout.zipIdx (i + 1))) :=
      fun n hn hle ↦ ih (by omega) hvalue.2 hn ⟨by omega, by omega⟩
    rw [List.zipIdx_cons, valueWhere_cons, availableCreditFrom, hspent]
    simp only [bind, Except.bind]
    cases hmark : wtx.vfSpent.getD i false with
    | true =>
      have hno : v.isUnspent wtx (txout, i) = false := by
        rw [isUnspent, hmark, Bool.not_true, Bool.and_false]
      rw [if_pos rfl, hnext nCredit hlo (by omega), if_neg (by rw [hno]; decide), zero_add]
    | false =>
      have hyes : v.isUnspent wtx (txout, i) = v.isMine txout := by
        rw [isUnspent, hmark, Bool.not_false, Bool.and_true]
      rw [if_neg Bool.false_ne_true, hcredit, hyes]
      dsimp only
      cases v.isMine txout with
      | true =>
        rw [if_pos rfl, int64_eq ⟨by omega, by omega⟩, if_neg (not_not.mpr ⟨by omega, by omega⟩),
          hnext _ (by omega) le_rfl, add_assoc]
      | false =>
        rw [if_neg Bool.false_ne_true, add_zero, int64_eq ⟨by omega, by omega⟩,
          if_neg (not_not.mpr ⟨by omega, by omega⟩), hnext _ hlo (by omega), zero_add]

theorem blocksToMaturity_nonneg (tx : CMerkleTx) : 0 ≤ v.blocksToMaturity tx := by
  unfold blocksToMaturity CMerkleTx.getBlocksToMaturity
  split
  · exact le_rfl
  · exact le_max_left _ _

/-- `GetAvailableCredit` waits for nothing else than maturity. -/
theorem not_mature_iff {wtx : CWalletTx} : v.mature wtx = false ↔
    (wtx.isCoinBase ∨ wtx.isCoinStake) ∧ 0 < v.blocksToMaturity wtx.toCMerkleTx := by
  have hnonneg := blocksToMaturity_nonneg (v := v) wtx.toCMerkleTx
  rw [mature, decide_eq_false_iff_not]
  constructor
  · intro h
    refine ⟨?_, by omega⟩
    by_contra hplain
    exact h (if_pos hplain)
  · rintro ⟨-, hpos⟩ hzero
    omega

/-- What `GetAvailableCredit` gives. -/
def available (v : WalletView) (wtx : CWalletTx) : ℤ :=
  if v.mature wtx then valueWhere (v.isUnspent wtx) wtx.vout.zipIdx else 0

theorem InRange.getAvailableCredit_eq (h : v.InRange) {e : UInt256 × CWalletTx}
    (he : e ∈ v.entries) : v.getAvailableCredit e.2 = .ok (v.available e.2) := by
  obtain ⟨n, hn⟩ := h.value e he
  obtain ⟨rfl, hrange⟩ := totalValue_of_getValueOut hn
  rw [getAvailableCredit, available]
  cases hm : v.mature e.2 with
  | false => rw [if_pos (not_mature_iff.mp hm), if_neg Bool.false_ne_true]
  | true =>
    have hmature : ¬ ((e.2.isCoinBase ∨ e.2.isCoinStake) ∧
        0 < v.blocksToMaturity e.2.toCMerkleTx) := fun hno ↦
      absurd (not_mature_iff.mpr hno) (by rw [hm]; decide)
    rw [if_neg hmature, if_pos rfl, availableCreditFrom_eq (by rw [zero_add]) (h.nValue he) le_rfl
      (by rw [zero_add]; exact hrange), zero_add]

/-- What is received, for a transaction that takes `nDebit` from the wallet. -/
def isReceived (v : WalletView) (nDebit : ℤ) (out : CTxOut × ℕ) : Bool :=
  v.isMine out.1 && !(decide (0 < nDebit) && v.isChange out.1)

/-- What is sent, for a transaction that takes something from the wallet. -/
def isSent (v : WalletView) (out : CTxOut × ℕ) : Bool :=
  decide (out.1.scriptPubKey ≠ []) && !v.isChange out.1

theorem sum_amountsFrom (nDebit : ℤ) (vout : List CTxOut) : ∀ i,
    ((v.amountsFrom nDebit vout).1.map Prod.snd).sum =
        valueWhere (v.isReceived nDebit) (vout.zipIdx i) ∧
      ((v.amountsFrom nDebit vout).2.map Prod.snd).sum =
        if 0 < nDebit then valueWhere v.isSent (vout.zipIdx i) else 0 := by
  induction vout with
  | nil =>
    intro i
    exact ⟨rfl, (ite_self 0).symm⟩
  | cons txout vout ih =>
    intro i
    obtain ⟨hreceived, hsent⟩ := ih (i + 1)
    rw [List.zipIdx_cons, valueWhere_cons, valueWhere_cons, ← hreceived]
    by_cases hempty : txout.scriptPubKey = []
    · have hmine := isMine_of_empty (v := v) hempty
      simp only [amountsFrom, isReceived, isSent, hmine, hempty]
      simpa using hsent
    · by_cases hdebit : 0 < nDebit
      · cases hchange : v.isChange txout with
        | true =>
          simp only [amountsFrom, if_neg hempty, isReceived, isSent, hdebit, hchange]
          simpa [hdebit] using hsent
        | false =>
          rw [if_pos hdebit] at hsent
          cases hmine : v.isMine txout <;>
            simp [amountsFrom, hempty, isReceived, isSent, hdebit, hchange, hmine, hsent]
      · rw [if_neg hdebit] at hsent
        cases hmine : v.isMine txout <;>
          simp [amountsFrom, hempty, isReceived, hdebit, hmine, hsent]

theorem foldl_add_modEq (l : List (CTxDestination × ℤ)) : ∀ n : ℤ,
    l.foldl (fun n r ↦ int64 (n + r.2)) n ≡ n + (l.map Prod.snd).sum [ZMOD 2 ^ 64] := by
  induction l with
  | nil =>
    intro n
    rw [List.foldl_nil, List.map_nil, List.sum_nil, add_zero]
  | cons r l ih =>
    intro n
    rw [List.foldl_cons, List.map_cons, List.sum_cons, ← add_assoc]
    exact (ih _).trans ((int64_modEq _).add_right _)

theorem foldl_sub_modEq (l : List (CTxDestination × ℤ)) : ∀ n : ℤ,
    l.foldl (fun n r ↦ int64 (n - r.2)) n ≡ n - (l.map Prod.snd).sum [ZMOD 2 ^ 64] := by
  induction l with
  | nil =>
    intro n
    rw [List.foldl_nil, List.map_nil, List.sum_nil, sub_zero]
  | cons r l ih =>
    intro n
    rw [List.foldl_cons, List.map_cons, List.sum_cons, ← sub_sub]
    exact (ih _).trans ((int64_modEq _).sub_right _)

/-- What a round of `getbalance` for all accounts adds. -/
def allOf (v : WalletView) (wtx : CWalletTx) : ℤ :=
  let nDebit := v.debitOf wtx.toCTransaction
  (if v.mature wtx then valueWhere (v.isReceived nDebit) wtx.vout.zipIdx else 0) -
    if 0 < nDebit then valueWhere v.isSent wtx.vout.zipIdx + (nDebit - totalValue wtx.vout) else 0

theorem InRange.addAmounts_eq (h : v.InRange) {e : UInt256 × CWalletTx} (he : e ∈ v.entries)
    (hdepth : 0 ≤ v.depth e.2.toCMerkleTx) (n : ℤ) :
    v.addAmounts 0 n e.2 = .ok (int64 (n + v.allOf e.2)) := by
  obtain ⟨nValueOut, hvalue⟩ := h.value e he
  obtain ⟨nDebit, hdebit⟩ := h.debit e he
  obtain ⟨hsum, -⟩ := totalValue_of_getValueOut hvalue
  obtain ⟨hexact, -⟩ := h.getDebit_eq hdebit
  obtain ⟨hreceived, hsent⟩ := sum_amountsFrom (v := v) nDebit e.2.vout 0
  have hfee : ∃ nFee, feeOf nDebit e.2 = .ok nFee ∧
      nFee ≡ (if 0 < nDebit then nDebit - nValueOut else 0) [ZMOD 2 ^ 64] := by
    unfold feeOf
    by_cases hpos : 0 < nDebit
    · rw [if_pos hpos, if_pos hpos, hvalue]
      exact ⟨_, rfl, int64_modEq _⟩
    · rw [if_neg hpos, if_neg hpos]
      exact ⟨0, rfl, rfl⟩
  obtain ⟨nFee, hfee, hfeeMod⟩ := hfee
  have hamounts : v.getAmounts e.2 =
      .ok ⟨(v.amountsFrom nDebit e.2.vout).1, (v.amountsFrom nDebit e.2.vout).2, nFee⟩ := by
    rw [getAmounts, hdebit]
    simp only [bind, Except.bind]
    rw [hfee]
  have hmature : (0 ≤ v.depth e.2.toCMerkleTx ∧ v.blocksToMaturity e.2.toCMerkleTx = 0) ↔
      v.mature e.2 = true := by
    rw [mature, decide_eq_true_iff]
    exact and_iff_right hdepth
  rw [addAmounts, hamounts]
  simp only [bind, Except.bind, hmature]
  congr 1
  refine int64_congr ?_
  have hin : (if v.mature e.2 = true then
      (v.amountsFrom nDebit e.2.vout).1.foldl (fun n r ↦ int64 (n + r.2)) n else n) ≡
        n + (if v.mature e.2 = true then valueWhere (v.isReceived nDebit) e.2.vout.zipIdx else 0)
          [ZMOD 2 ^ 64] := by
    split
    · rw [← hreceived]
      exact foldl_add_modEq _ n
    · rw [add_zero]
  refine ((((foldl_sub_modEq _ _).trans (hin.sub_right _)).sub hfeeMod).trans ?_)
  rw [hsent, allOf, ← hexact, ← hsum]
  refine congrArg (· % 2 ^ 64) ?_
  by_cases hpos : 0 < nDebit
  · simp only [if_pos hpos]
    ring
  · simp only [if_neg hpos]
    ring

/-- The change of a transaction that `GetBalance` does not count: it is not ours, or not mature. -/
def isMissed (v : WalletView) (wtx : CWalletTx) (out : CTxOut × ℕ) : Bool :=
  v.isChange out.1 && !(v.mature wtx && v.isMine out.1)

/-- What it is worth, for a transaction that takes something from the wallet. -/
def missedOf (v : WalletView) (wtx : CWalletTx) : ℤ :=
  if 0 < v.debitOf wtx.toCTransaction then valueWhere (v.isMissed wtx) wtx.vout.zipIdx else 0

/-- What is marked spent of a transaction that is mature. -/
def settledOf (v : WalletView) (wtx : CWalletTx) : ℤ :=
  if v.mature wtx then valueWhere (v.isSettled wtx) wtx.vout.zipIdx else 0

/-- **One transaction both ways.** -/
theorem allOf_eq (hempty : v.NoEmptyValue) {e : UInt256 × CWalletTx} (he : e ∈ v.entries)
    (hdebit : 0 ≤ v.debitOf e.2.toCTransaction) :
    v.allOf e.2 = v.available e.2 + v.missedOf e.2 - v.debitOf e.2.toCTransaction +
      v.settledOf e.2 := by
  have hmine := valueWhere_add (fun out ↦ v.isMine out.1)
    (fun out ↦ e.2.vfSpent.getD out.2 false) e.2.vout.zipIdx
  change _ = valueWhere (v.isSettled e.2) _ + valueWhere (v.isUnspent e.2) _ at hmine
  by_cases hpos : 0 < v.debitOf e.2.toCTransaction
  · have hchange := valueWhere_add (fun out ↦ v.isChange out.1) (fun out ↦ v.isMine out.1)
      e.2.vout.zipIdx
    have hours := valueWhere_add (fun out ↦ v.isMine out.1) (fun out ↦ v.isChange out.1)
      e.2.vout.zipIdx
    have hall := valueWhere_add (fun _ ↦ true) (fun out ↦ v.isChange out.1) e.2.vout.zipIdx
    have hother := valueWhere_add (fun out ↦ !v.isChange out.1)
      (fun out ↦ decide (out.1.scriptPubKey ≠ [])) e.2.vout.zipIdx
    have hzero : valueWhere (fun out ↦ !v.isChange out.1 &&
        !decide (out.1.scriptPubKey ≠ [])) e.2.vout.zipIdx = 0 := by
      refine List.sum_eq_zero fun n hn ↦ ?_
      obtain ⟨out, hout, rfl⟩ := List.mem_map.mp hn
      obtain ⟨hmem, hp⟩ := List.mem_filter.mp hout
      refine hempty e he out.1 (List.fst_mem_of_mem_zipIdx hmem) ?_
      simpa using (Bool.and_eq_true_iff.mp hp).2
    have hcomm : valueWhere (fun out ↦ v.isMine out.1 && v.isChange out.1) e.2.vout.zipIdx =
        valueWhere (fun out ↦ v.isChange out.1 && v.isMine out.1) e.2.vout.zipIdx :=
      valueWhere_congr fun out _ ↦ Bool.and_comm _ _
    have hsent : valueWhere v.isSent e.2.vout.zipIdx = valueWhere (fun out ↦ !v.isChange out.1 &&
        decide (out.1.scriptPubKey ≠ [])) e.2.vout.zipIdx :=
      valueWhere_congr fun out _ ↦ Bool.and_comm _ _
    have hreceived : valueWhere (v.isReceived (v.debitOf e.2.toCTransaction)) e.2.vout.zipIdx =
        valueWhere (fun out ↦ v.isMine out.1 && !v.isChange out.1) e.2.vout.zipIdx :=
      valueWhere_congr fun out _ ↦ by simp [isReceived, hpos]
    simp only [Bool.true_and] at hall
    rw [valueWhere_true] at hall
    rw [allOf, available, missedOf, settledOf, if_pos hpos, if_pos hpos, hreceived, hsent]
    cases hm : v.mature e.2 with
    | true =>
      have hmissed : valueWhere (v.isMissed e.2) e.2.vout.zipIdx =
          valueWhere (fun out ↦ v.isChange out.1 && !v.isMine out.1) e.2.vout.zipIdx :=
        valueWhere_congr fun out _ ↦ by rw [isMissed, hm, Bool.true_and]
      rw [if_pos rfl, if_pos rfl, if_pos rfl, hmissed]
      linarith
    | false =>
      have hmissed : valueWhere (v.isMissed e.2) e.2.vout.zipIdx =
          valueWhere (fun out ↦ v.isChange out.1) e.2.vout.zipIdx :=
        valueWhere_congr fun out _ ↦ by rw [isMissed, hm, Bool.false_and, Bool.not_false, Bool.and_true]
      rw [if_neg Bool.false_ne_true, if_neg Bool.false_ne_true, if_neg Bool.false_ne_true, hmissed]
      linarith
  · have hnone : v.debitOf e.2.toCTransaction = 0 := by omega
    have hreceived : valueWhere (v.isReceived (v.debitOf e.2.toCTransaction)) e.2.vout.zipIdx =
        valueWhere (fun out ↦ v.isMine out.1) e.2.vout.zipIdx :=
      valueWhere_congr fun out _ ↦ by simp [isReceived, hpos]
    rw [allOf, available, missedOf, settledOf, if_neg hpos, if_neg hpos, hreceived, hnone]
    cases v.mature e.2 with
    | true =>
      rw [if_pos rfl, if_pos rfl, if_pos rfl]
      linarith
    | false =>
      rw [if_neg Bool.false_ne_true, if_neg Bool.false_ne_true, if_neg Bool.false_ne_true]
      rfl

/-! ## Spent outputs -/

/-- The own outputs that the trusted transactions spend, each as often as it is spent. -/
def ownSpends (v : WalletView) : List COutPoint :=
  (v.trustedEntries.flatMap fun e ↦ e.2.vin.map CTxIn.prevout).filter
    fun o ↦ (v.mineOutput o).isSome

/-- The own outputs of trusted and mature transactions that are marked spent. -/
def settledOutputs (v : WalletView) : List COutPoint :=
  (v.trustedEntries.filter fun e ↦ v.mature e.2).flatMap fun e ↦
    (e.2.vout.zipIdx.filter (v.isSettled e.2)).map fun out ↦ ⟨e.1, out.2⟩

/-- What trusted transactions spend a second time, or of transactions that are not trusted or not
mature. -/
def overspent (v : WalletView) : List COutPoint := v.ownSpends.diff v.settledOutputs

def missed (v : WalletView) : ℤ := (v.trustedEntries.map fun e ↦ v.missedOf e.2).sum

theorem sum_filter_valueAt (l : List COutPoint) :
    ((l.filter fun o ↦ (v.mineOutput o).isSome).map v.valueAt).sum = (l.map v.valueAt).sum := by
  induction l with
  | nil => rfl
  | cons o l ih =>
    cases ho : v.mineOutput o with
    | none =>
      have hzero : v.valueAt o = 0 := by rw [valueAt, ho]; rfl
      rw [List.filter_cons_of_neg (by rw [ho]; decide), List.map_cons, List.sum_cons, hzero,
        zero_add, ih]
    | some txout =>
      rw [List.filter_cons_of_pos (by rw [ho]; rfl), List.map_cons, List.map_cons, List.sum_cons,
        List.sum_cons, ih]

theorem sum_debitOf (es : List (UInt256 × CWalletTx)) :
    (es.map fun e ↦ v.debitOf e.2.toCTransaction).sum =
      ((es.flatMap fun e ↦ e.2.vin.map CTxIn.prevout).map v.valueAt).sum := by
  induction es with
  | nil => rfl
  | cons e es ih =>
    rw [List.map_cons, List.sum_cons, ih, List.flatMap_cons, List.map_append, List.sum_append,
      debitOf, List.map_map]
    rfl

/-- The trusted transactions take from the wallet what they spend of it. -/
theorem sum_ownSpends (v : WalletView) : (v.ownSpends.map v.valueAt).sum =
    (v.trustedEntries.map fun e ↦ v.debitOf e.2.toCTransaction).sum := by
  rw [ownSpends, sum_filter_valueAt, sum_debitOf]

theorem mem_zipIdx {vout : List CTxOut} {out : CTxOut × ℕ} (h : out ∈ vout.zipIdx) :
    vout[out.2]? = some out.1 := List.mem_zipIdx_iff_getElem?.mp h

theorem valueAt_of_isSettled {e : UInt256 × CWalletTx} (he : e ∈ v.entries) {out : CTxOut × ℕ}
    (hout : out ∈ e.2.vout.zipIdx) (h : v.isMine out.1 = true) :
    v.mineOutput ⟨e.1, out.2⟩ = some out.1 :=
  mineOutput_eq_some.mpr ⟨e.2, mem_entries.mp he, mem_zipIdx hout, h⟩

theorem mem_of_mem_trustedEntries {e : UInt256 × CWalletTx} (h : e ∈ v.trustedEntries) :
    e ∈ v.entries := List.mem_of_mem_filter h

theorem sum_settledOutputs_of {es : List (UInt256 × CWalletTx)} (hes : ∀ e ∈ es, e ∈ v.entries) :
    (((es.filter fun e ↦ v.mature e.2).flatMap fun e ↦
      (e.2.vout.zipIdx.filter (v.isSettled e.2)).map fun out ↦
        (⟨e.1, out.2⟩ : COutPoint)).map v.valueAt).sum = (es.map fun e ↦ v.settledOf e.2).sum := by
  induction es with
  | nil => rfl
  | cons e es ih =>
    rw [List.forall_mem_cons] at hes
    rw [List.map_cons, List.sum_cons, ← ih hes.2, settledOf]
    cases hm : v.mature e.2 with
    | false => rw [List.filter_cons_of_neg (by rw [hm]; decide), if_neg Bool.false_ne_true, zero_add]
    | true =>
      rw [List.filter_cons_of_pos (p := fun e : UInt256 × CWalletTx ↦ v.mature e.2) hm,
        List.flatMap_cons, List.map_append, List.sum_append, if_pos rfl, List.map_map, valueWhere]
      congr 2
      refine List.map_congr_left fun out hout ↦ ?_
      obtain ⟨hmem, hsettled⟩ := List.mem_filter.mp hout
      have hmine := valueAt_of_isSettled hes.1 hmem (Bool.and_eq_true_iff.mp hsettled).1
      rw [Function.comp_apply, valueAt, hmine]
      rfl

theorem sum_settledOutputs (v : WalletView) : (v.settledOutputs.map v.valueAt).sum =
    (v.trustedEntries.map fun e ↦ v.settledOf e.2).sum :=
  sum_settledOutputs_of fun _ ↦ mem_of_mem_trustedEntries

theorem mem_settledOutputs {o : COutPoint} : o ∈ v.settledOutputs ↔
    ∃ e ∈ v.trustedEntries, v.mature e.2 = true ∧ e.1 = o.hash ∧
      ∃ txout, e.2.vout[o.n]? = some txout ∧ v.isMine txout = true ∧
        e.2.vfSpent.getD o.n false = true := by
  unfold settledOutputs
  rw [List.mem_flatMap]
  constructor
  · rintro ⟨e, he, ho⟩
    obtain ⟨htrusted, hmature⟩ := List.mem_filter.mp he
    obtain ⟨out, hout, rfl⟩ := List.mem_map.mp ho
    obtain ⟨hmem, hsettled⟩ := List.mem_filter.mp hout
    obtain ⟨hmine, hspent⟩ := Bool.and_eq_true_iff.mp hsettled
    exact ⟨e, htrusted, hmature, rfl, out.1, mem_zipIdx hmem, hmine, hspent⟩
  · rintro ⟨e, htrusted, hmature, hhash, txout, hout, hmine, hspent⟩
    refine ⟨e, List.mem_filter.mpr ⟨htrusted, hmature⟩,
      List.mem_map.mpr ⟨(txout, o.n), List.mem_filter.mpr ⟨?_, ?_⟩, ?_⟩⟩
    · exact List.mem_zipIdx_iff_getElem?.mpr hout
    · exact Bool.and_eq_true_iff.mpr ⟨hmine, hspent⟩
    · rw [hhash]

theorem pairwise_entries (v : WalletView) : v.entries.Pairwise fun a b ↦ a.1 < b.1 := by
  refine List.Pairwise.filterMap _ (fun hash hash' hlt a ha b hb ↦ ?_) v.sorted
  obtain ⟨-, -, rfl⟩ := Option.map_eq_some_iff.mp ha
  obtain ⟨-, -, rfl⟩ := Option.map_eq_some_iff.mp hb
  exact hlt

theorem nodup_settledOutputs (v : WalletView) : v.settledOutputs.Nodup := by
  refine List.nodup_flatMap.mpr ⟨fun e _ ↦ ?_, ?_⟩
  · have hplaces : (e.2.vout.zipIdx.map Prod.snd).Nodup := by
      rw [List.zipIdx_map_snd]
      exact List.nodup_range'
    refine List.Nodup.map_on (fun a ha b hb heq ↦ ?_) ((List.Nodup.of_map _ hplaces).filter _)
    have hplace : a.2 = b.2 := congrArg COutPoint.n heq
    have hget := mem_zipIdx (List.mem_of_mem_filter ha)
    rw [hplace, mem_zipIdx (List.mem_of_mem_filter hb)] at hget
    exact Prod.ext (Option.some.inj hget).symm hplace
  · refine (((pairwise_entries v).filter _).filter _).imp fun {a b} hlt ↦ ?_
    refine List.disjoint_left.mpr fun o ha hb ↦ ?_
    obtain ⟨out, hout, rfl⟩ := List.mem_map.mp ha
    obtain ⟨out', hout', heq⟩ := List.mem_map.mp hb
    exact absurd (congrArg COutPoint.hash heq) hlt.ne'

/-- Where the marks are exact, what is marked spent is spent. -/
theorem MarksExact.settled_subset (h : v.MarksExact) : v.settledOutputs ⊆ v.ownSpends := by
  intro o ho
  obtain ⟨e, htrusted, -, hhash, txout, hout, hmine, hspent⟩ := mem_settledOutputs.mp ho
  have he := mem_entries.mp (mem_of_mem_trustedEntries htrusted)
  obtain ⟨e', he', hmem⟩ := (h e.1 e.2 o.n txout he hout hmine).mp hspent
  rw [hhash] at hmem he
  refine List.mem_filter.mpr ⟨List.mem_flatMap.mpr ⟨e', he', hmem⟩, ?_⟩
  rw [mineOutput_eq_some.mpr ⟨e.2, he, hout, hmine⟩]
  rfl

theorem MarksExact.sum_ownSpends_eq (h : v.MarksExact) : (v.ownSpends.map v.valueAt).sum =
    (v.settledOutputs.map v.valueAt).sum + (v.overspent.map v.valueAt).sum := by
  have hsub := (nodup_settledOutputs v).subperm h.settled_subset
  have hperm := List.subperm_append_diff_self_of_count_le (List.subperm_ext_iff.mp hsub)
  rw [← List.sum_append, ← List.map_append]
  exact (hperm.map v.valueAt).sum_eq.symm

theorem InRange.debitOf_nonneg (h : v.InRange) (tx : CTransaction) : 0 ≤ v.debitOf tx := by
  refine List.sum_nonneg fun n hn ↦ ?_
  obtain ⟨txin, -, rfl⟩ := List.mem_map.mp hn
  exact (h.valueAt txin.prevout).1

theorem sum_map_four {es : List (UInt256 × CWalletTx)} {f a m d t : UInt256 × CWalletTx → ℤ}
    (h : ∀ e ∈ es, f e = a e + m e - d e + t e) :
    (es.map f).sum = (es.map a).sum + (es.map m).sum - (es.map d).sum + (es.map t).sum := by
  induction es with
  | nil => rfl
  | cons e es ih =>
    rw [List.forall_mem_cons] at h
    simp only [List.map_cons, List.sum_cons]
    rw [h.1, ih h.2]
    ring

/-! ## The two balances -/

/-- What a chain takes care of: trusted transactions spend own outputs only once, and only of trusted and
mature transactions. -/
structure SpendsSettled (v : WalletView) : Prop where
  nodup : v.ownSpends.Nodup
  settled : ∀ o ∈ v.ownSpends, ∃ e ∈ v.trustedEntries, e.1 = o.hash ∧ v.mature e.2 = true

theorem SpendsSettled.overspent_eq_nil (h : v.SpendsSettled) (hmarks : v.MarksExact) :
    v.overspent = [] := by
  have hsub : v.ownSpends ⊆ v.settledOutputs := by
    intro o ho
    obtain ⟨e, htrusted, hhash, hmature⟩ := h.settled o ho
    obtain ⟨hspends, hsome⟩ := List.mem_filter.mp ho
    obtain ⟨txout, hmine⟩ := Option.isSome_iff_exists.mp hsome
    obtain ⟨wtx, hwtx, hout, hours⟩ := mineOutput_eq_some.mp hmine
    have he := mem_entries.mp (mem_of_mem_trustedEntries htrusted)
    rw [hhash, hwtx] at he
    cases he
    obtain ⟨e', he', hmem⟩ := List.mem_flatMap.mp hspends
    exact mem_settledOutputs.mpr ⟨e, htrusted, hmature, hhash, txout, hout, hours,
      (hmarks o.hash e.2 o.n txout hwtx hout hours).mpr ⟨e', he', hmem⟩⟩
  have hperm := (List.perm_ext_iff_of_nodup h.nodup (nodup_settledOutputs v)).mpr fun o ↦
    ⟨fun ho ↦ hsub ho, fun ho ↦ hmarks.settled_subset ho⟩
  refine List.eq_nil_iff_forall_not_mem.mpr fun o ho ↦ ?_
  have hmem := (h.nodup.mem_sdiff_iff).mp ho
  exact hmem.2 (hperm.mem_iff.mp hmem.1)

/-- The trusted transactions that take something from the wallet have no change of value which is not
ours or not mature. -/
def ChangeCounts (v : WalletView) : Prop :=
  ∀ e ∈ v.trustedEntries, 0 < v.debitOf e.2.toCTransaction →
    ∀ txout ∈ e.2.vout, v.isChange txout = true → v.mature e.2 = true ∧ v.isMine txout = true ∨
      txout.nValue = 0

theorem InRange.missedOf_nonneg (h : v.InRange) {e : UInt256 × CWalletTx} (he : e ∈ v.entries) :
    0 ≤ v.missedOf e.2 := by
  unfold missedOf
  split
  · exact valueWhere_nonneg fun out hout ↦
      (h.nValue he out.1 (List.fst_mem_of_mem_zipIdx hout)).1
  · exact le_rfl

theorem InRange.missed_eq_zero_iff (h : v.InRange) : v.missed = 0 ↔ v.ChangeCounts := by
  have hnonneg : ∀ n ∈ v.trustedEntries.map fun e ↦ v.missedOf e.2, 0 ≤ n := by
    intro n hn
    obtain ⟨e, he, rfl⟩ := List.mem_map.mp hn
    exact h.missedOf_nonneg (mem_of_mem_trustedEntries he)
  have hvalues : ∀ e ∈ v.trustedEntries, ∀ out ∈ e.2.vout.zipIdx, 0 ≤ out.1.nValue :=
    fun e he out hout ↦
      (h.nValue (mem_of_mem_trustedEntries he) out.1 (List.fst_mem_of_mem_zipIdx hout)).1
  constructor
  · intro hzero e he hpos txout htxout hchange
    have hmissed := List.all_zero_of_le_zero_le_of_sum_eq_zero hnonneg hzero
      (List.mem_map.mpr ⟨e, he, rfl⟩)
    rw [missedOf, if_pos hpos, valueWhere_eq_zero_iff (hvalues e he)] at hmissed
    by_cases hcounts : v.mature e.2 = true ∧ v.isMine txout = true
    · exact .inl hcounts
    · obtain ⟨i, hi⟩ := List.mem_iff_getElem?.mp htxout
      refine .inr (hmissed (txout, i) (List.mem_zipIdx_iff_getElem?.mpr hi) ?_)
      rw [isMissed, hchange, Bool.true_and, Bool.not_eq_true', ← Bool.not_eq_true, Bool.and_eq_true]
      exact hcounts
  · intro hcounts
    refine List.sum_eq_zero fun n hn ↦ ?_
    obtain ⟨e, he, rfl⟩ := List.mem_map.mp hn
    unfold missedOf
    split
    · rename_i hpos
      refine (valueWhere_eq_zero_iff (hvalues e he)).mpr fun out hout hmissed ↦ ?_
      obtain ⟨hchange, hno⟩ := Bool.and_eq_true_iff.mp hmissed
      rcases hcounts e he hpos out.1 (List.fst_mem_of_mem_zipIdx hout) hchange with ⟨hm, ho⟩ | hzero
      · rw [hm, ho] at hno
        cases hno
      · exact hzero
    · rfl

theorem int64_eq_iff {x y : ℤ} : int64 x = int64 y ↔ x ≡ y [ZMOD 2 ^ 64] :=
  ⟨fun h ↦ (int64_modEq x).symm.trans (h ▸ int64_modEq y), int64_congr⟩

/-- **The two balances agree exactly when** the change that only one of them counts is worth as much as
what is spent a second time or out of turn, in 64 bits.  Where nothing is, they agree exactly when there
is no such change. -/
theorem getBalanceAll_eq_iff (hmarks : v.MarksExact) (hrange : v.InRange)
    (hempty : v.NoEmptyValue) :
    (v.getBalanceAll 0 = v.getBalance ↔
      v.missed ≡ (v.overspent.map v.valueAt).sum [ZMOD 2 ^ 64]) ∧
    (v.SpendsSettled → v.missed < 2 ^ 64 →
      (v.getBalanceAll 0 = v.getBalance ↔ v.ChangeCounts)) := by
  have hzero : int64 0 = 0 := by decide
  have hok : ∀ e ∈ v.entries, v.isTrusted e = .ok (v.trusts e) := fun e he ↦ hrange.isTrusted_eq he
  have hbalance : v.getBalance =
      .ok (int64 (0 + (v.trustedEntries.map fun e ↦ v.available e.2).sum)) := by
    refine overTrusted_eq hok (fun e he _ n ↦ ?_) hzero
    rw [hrange.getAvailableCredit_eq he]
    rfl
  have hall : v.getBalanceAll 0 =
      .ok (int64 (0 + (v.trustedEntries.map fun e ↦ v.allOf e.2).sum)) :=
    overTrusted_eq hok (fun e he ht n ↦ hrange.addAmounts_eq he (depth_of_trusts ht) n) hzero
  have hsum := sum_map_four fun e he ↦ allOf_eq hempty
    (mem_of_mem_trustedEntries he) (hrange.debitOf_nonneg e.2.toCTransaction)
  rw [← sum_ownSpends, ← sum_settledOutputs, hmarks.sum_ownSpends_eq] at hsum
  have hiff : v.getBalanceAll 0 = v.getBalance ↔
      v.missed ≡ (v.overspent.map v.valueAt).sum [ZMOD 2 ^ 64] := by
    rw [hbalance, hall, Except.ok.injEq, int64_eq_iff, hsum, Int.modEq_iff_dvd, Int.modEq_iff_dvd,
      missed]
    refine iff_of_eq (congrArg _ ?_)
    ring
  refine ⟨hiff, fun hspends hlt ↦ ?_⟩
  rw [hiff, hspends.overspent_eq_nil hmarks, ← hrange.missed_eq_zero_iff]
  have hnonneg : 0 ≤ v.missed := by
    refine List.sum_nonneg fun n hn ↦ ?_
    obtain ⟨e, he, rfl⟩ := List.mem_map.mp hn
    exact hrange.missedOf_nonneg (mem_of_mem_trustedEntries he)
  constructor
  · intro hmod
    have hmod' : v.missed % 2 ^ 64 = 0 := hmod
    omega
  · intro hmissed
    rw [hmissed]
    rfl

/-- The marks, transaction by transaction. -/
theorem marksExact_iff : v.MarksExact ↔ ∀ e ∈ v.entries, ∀ out ∈ e.2.vout.zipIdx,
    v.isMine out.1 = true → (e.2.vfSpent.getD out.2 false = true ↔
      (⟨e.1, out.2⟩ : COutPoint) ∈ v.trustedEntries.flatMap fun e ↦ e.2.vin.map CTxIn.prevout) := by
  constructor
  · intro h e he out hout hmine
    rw [List.mem_flatMap]
    exact h e.1 e.2 out.2 out.1 (mem_entries.mp he) (mem_zipIdx hout) hmine
  · intro h hash wtx n txout hwtx hout hmine
    rw [← List.mem_flatMap]
    exact h (hash, wtx) (mem_entries.mpr hwtx) (txout, n)
      (List.mem_zipIdx_iff_getElem?.mpr hout) hmine

end WalletView

namespace Sample

open WalletView

/-- A script that pays the only key of the wallet. -/
def ownPubKey : CScript :=
  [OP_DUP, OP_HASH160, 0x14] ++ List.replicate 20 0 ++ [OP_EQUALVERIFY, OP_CHECKSIG]

def stakeFunds : CTransaction where
  nVersion := 1
  nTime := 0
  vin := [⟨⟨7, 0⟩, [], uintMax⟩]
  vout := [⟨100 * COIN, ownPubKey⟩]
  nLockTime := 0

/-- A coinstake that stakes what was received. -/
def staked : CTransaction where
  nVersion := 1
  nTime := 240
  vin := [⟨⟨params.getHash stakeFunds, 0⟩, [], uintMax⟩]
  vout := [⟨0, []⟩, ⟨110 * COIN, ownPubKey⟩]
  nLockTime := 0

def receivedEntry : CWalletTx where
  toCTransaction := stakeFunds
  hashBlock := 10
  vMerkleBranch := []
  nIndex := 0
  fFromMe := false
  vfSpent := [true]

/-- The coinstake stands behind the coinbase, whose hash is 5. -/
def stakedEntry : CWalletTx where
  toCTransaction := staked
  hashBlock := 11
  vMerkleBranch := [5]
  nIndex := 1
  fFromMe := true
  vfSpent := []

def entryOf (hash hashMerkleRoot : UInt256) : CBlockEntry where
  hash := hash
  nFile := 1
  nBlockPos := 0
  nFlags := 0
  nStakeModifier := 0
  prevoutStake := .null
  nStakeTime := 0
  hashProof := 0
  nVersion := 7
  hashMerkleRoot := hashMerkleRoot
  nTime := 0
  nBits := 0
  nNonce := 0

def receivedIn : CBlockIndex := .root (entryOf 10 (params.getHash stakeFunds))

def stakedIn : CBlockIndex := .child (entryOf 11 (5 + params.getHash staked)) receivedIn

/-- A node with two blocks. -/
def twoBlocks : NodeState :=
  { NodeState.init with
    mapBlockIndex hash := if hash = 10 then some receivedIn else if hash = 11 then some stakedIn else none
    pnext pindex := if pindex = receivedIn then some stakedIn else none
    pindexBest := some stakedIn
    nBestHeight := 1 }

/-- A wallet that has staked, with or without the address of its key in the address book. -/
def staking (fBook : Bool) : WalletView where
  params := params
  solverParams := ⟨crypto, 83⟩
  node := twoBlocks
  nAdjustedTime := 300
  fConfChange := false
  keystore := ⟨fun id ↦ id = 0, fun _ ↦ none, fun _ ↦ none, ∅⟩
  mapAddressBook address := fBook && address = .keyID 0
  wallet := ⟨fun hash ↦ if hash = 1 then some receivedEntry
    else if hash = 240001 then some stakedEntry else none⟩
  vtxPrev _ := []
  hashes := [1, 240001]
  sorted := by decide
  mem_hashes hash := by
    by_cases h₁ : hash = 1
    · simp [h₁]
    · by_cases h₂ : hash = 240001 <;> simp [h₁, h₂]

theorem staking_marksExact (fBook : Bool) : (staking fBook).MarksExact := by
  rw [marksExact_iff]
  cases fBook <;> decide +kernel

theorem staking_noEmptyValue (fBook : Bool) : (staking fBook).NoEmptyValue := by
  have h : ∀ e ∈ (staking fBook).entries, ∀ txout ∈ e.2.vout,
      txout.scriptPubKey = [] → txout.nValue = 0 := by
    cases fBook <;> decide +kernel
  exact h

theorem staking_inRange (fBook : Bool) : (staking fBook).InRange where
  value e he := by
    have h : ∀ e ∈ (staking fBook).entries, e.2.getValueOut.isOk := by
      cases fBook <;> decide +kernel
    exact eq_ok_of_isOk (h e he)
  debit e he := by
    have h : ∀ e ∈ (staking fBook).entries, ((staking fBook).getDebit e.2.toCTransaction).isOk := by
      cases fBook <;> decide +kernel
    exact eq_ok_of_isOk (h e he)
  debitPrev _ _ _ hprev := absurd hprev List.not_mem_nil

theorem staking_spendsSettled (fBook : Bool) : (staking fBook).SpendsSettled where
  nodup := by cases fBook <;> decide +kernel
  settled := by cases fBook <;> decide +kernel

end Sample

namespace WalletView

theorem getBalanceAll_eq_iff_sample :
    (Sample.staking true).getBalanceAll 0 = (Sample.staking true).getBalance := by
  have h := (getBalanceAll_eq_iff (Sample.staking_marksExact true) (Sample.staking_inRange true)
    (Sample.staking_noEmptyValue true)).2 (Sample.staking_spendsSettled true) (by decide +kernel)
  exact h.mpr (by unfold ChangeCounts; decide +kernel)

/-- The change of an immature coinstake is counted by one of the ways only. -/
theorem getBalanceAll_ne_getBalance : ¬ ∀ v : WalletView, v.MarksExact → v.InRange →
    v.NoEmptyValue → v.getBalanceAll 0 = v.getBalance := by
  intro h
  have heq := h (Sample.staking false) (Sample.staking_marksExact false)
    (Sample.staking_inRange false) (Sample.staking_noEmptyValue false)
  have hall : ((Sample.staking false).getBalanceAll 0).toOption = some (110 * COIN) := by
    decide +kernel
  have hbalance : (Sample.staking false).getBalance.toOption = some 0 := by decide +kernel
  rw [heq, hbalance] at hall
  exact absurd hall (by decide)

end WalletView

end Bws
