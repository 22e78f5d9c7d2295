import Bws.Address
import Bws.Flags
import Bws.Kernel
import Bws.SignRaw
import Bws.StakeReward

/-!
# The coinstakes that the wallet makes

`CreateCoinStake` looks for a kernel among the mature coins, adds small coins of the same owner to it,
pays itself what they are worth and the reward but a fifth, which goes to the fund, and signs.
`SignBlock` puts the coinstake into a block and signs the block with the key of the kernel.

What they make is what the validator asks for: the kernel meets its target, the reward is exactly the
one that `ConnectBlock` calculates, the fund has its part, and the signatures are valid
(`WalletView.createCoinStake_stakes`, `WalletView.signBlock_accepted`).
-/

namespace Bws

/-! ## The source -/

/-- `nStakeMaxAge` -/
def Params.nStakeMaxAge (P : Params) : ℕ := if P.testNet then 60 * 60 else 30 * (60 * 60 * 24)

/-- `GetWeight` -/
def getWeight (P : Params) (nIntervalBeginning nIntervalEnd : ℤ) : ℤ :=
  min (nIntervalEnd - nIntervalBeginning - P.nStakeMinAge) P.nStakeMaxAge

def getStakeCombineThreshold : ℤ := 1000 * COIN

def getStakeSplitThreshold : ℤ := 2 * getStakeCombineThreshold

/-- What staking meets. -/
structure StakeEnv extends SendEnv where
  w : World
  nReserveBalance : ℤ
  getPubKey : CKey → valtype
  F : AddressFormat

/-- A kernel: its coin, how many seconds before the given time, the key, and the script to pay to. -/
structure StakeKernel where
  coin : COutPoint
  txout : CTxOut
  n : ℕ
  key : CKey
  scriptPubKeyOut : CScript

/-- The time before another one, in 32 bits without a sign. -/
def timeBefore (nTime n : ℕ) : ℕ := (nTime + 2 ^ 32 - n) % 2 ^ 32

/-- The coinstake of a kernel with the given inputs and outputs, before it is signed. -/
def StakeKernel.coinStake (kernel : StakeKernel) (txNew : CTransaction) (coins : List COutPoint)
    (vout : List CTxOut) : CTransaction :=
  { txNew with
    nTime := timeBefore txNew.nTime kernel.n
    vin := coins.map fun coin ↦ ⟨coin, [], uintMax⟩
    vout := vout }

namespace WalletView

variable (v : WalletView) (env : StakeEnv)

/-- `AvailableCoinsForStaking`; the test of the time is in 32 bits without a sign. -/
def availableForStaking (nSpendTime : ℕ) :
    List (UInt256 × CWalletTx) → Except Fault (List COutput)
  | [] => .ok []
  | e :: entries =>
    let nDepth := v.depth e.2.toCMerkleTx
    if nSpendTime < (e.2.nTime + v.params.nStakeMinAge) % 2 ^ 32 then
      availableForStaking nSpendTime entries
    else if nDepth < 1 then availableForStaking nSpendTime entries
    else if nDepth < nStakeMinConfirmations then availableForStaking nSpendTime entries
    else if 0 < v.blocksToMaturity e.2.toCMerkleTx then availableForStaking nSpendTime entries
    else do
      let vCoins ← v.availableOutputs env.toSendEnv none e 0 e.2.vout
      let rest ← availableForStaking nSpendTime entries
      .ok (vCoins ++ rest)

def availableCoinsForStaking (nSpendTime : ℕ) : Except Fault (List COutput) :=
  v.availableForStaking env nSpendTime v.entries

/-- The loop of `SelectCoinsForStaking`. -/
def selectForStaking (nTargetValue : ℤ) : List COutput → Selection → Selection
  | [], s => s
  | output :: vCoins, s =>
    -- stop if we've chosen enough inputs
    if nTargetValue ≤ s.nValueRet then s
    else if nTargetValue ≤ output.nValue then s.add output.coin
    else if output.nValue < int64 (nTargetValue + CENT) then
      selectForStaking nTargetValue vCoins (s.add output.coin)
    else selectForStaking nTargetValue vCoins s

/-- `SelectCoinsForStaking`, with the order of the set. -/
def selectCoinsForStaking (nTargetValue : ℤ) (nSpendTime : ℕ) : Except Fault (List COutPoint) := do
  let vCoins ← v.availableCoinsForStaking env nSpendTime
  .ok (env.order (selectForStaking nTargetValue vCoins .empty).setCoinsRet)

/-- The key of a kernel and the script that its coinstake pays to. -/
def kernelKey (scriptPubKeyKernel : CScript) : Option (CKey × CScript) :=
  match solver v.solverParams.nMaxDatacarrierBytes scriptPubKeyKernel with
  | some (.TX_PUBKEYHASH, vSolutions) =>
    -- convert to pay to public key type
    (v.keystore.getKey (uint160 (vSolutions.headD []))).map fun key ↦
      (key, pushData (env.getPubKey key) ++ [OP_CHECKSIG])
  | some (.TX_PUBKEY, vSolutions) =>
    let vchPubKey := vSolutions.headD []
    match v.keystore.getKey (uint160 (v.solverParams.crypto.hash160 vchPubKey)) with
    | none => none
    | some key => if env.getPubKey key ≠ vchPubKey then none else some (key, scriptPubKeyKernel)
  | _ => none

/-- The search for a kernel through the coins and, for each of them, backward in time. -/
def searchKernel (pindexPrev : CBlockIndex) (nBits : ℕ) (nSearchInterval : ℤ) (nTime : ℕ) :
    List COutPoint → Except Fault (Option StakeKernel)
  | [] => .ok none
  | coin :: setCoins =>
    match (List.range (min nSearchInterval 60).toNat).find? fun n ↦
        checkKernel v.params env.w v.node.files v.node.txdb.fresh.readTxIndex pindexPrev nBits
          (timeBefore nTime n) coin with
    | none => searchKernel pindexPrev nBits nSearchInterval nTime setCoins
    | some n =>
      match v.coinOutput coin with
      | none => .error (.thrown "vout[n] does not exist")
      | some txout =>
        match v.kernelKey env txout.scriptPubKey with
        | none => searchKernel pindexPrev nBits nSearchInterval nTime setCoins
        | some (key, scriptPubKeyOut) => .ok (some ⟨coin, txout, n, key, scriptPubKeyOut⟩)

/-- The loop that adds more inputs: they, and their value. -/
def addInputs (nTargetValue : ℤ) (kernel : StakeKernel) (nTime : ℕ) :
    List COutPoint → List COutPoint → ℤ → Except Fault (List COutPoint × ℤ)
  | [], vin, nCredit => .ok (vin, nCredit)
  | coin :: setCoins, vin, nCredit =>
    match v.wallet.mapWallet coin.hash, v.coinOutput coin with
    | some wtx, some txout =>
      -- only add coins of the same key/address as kernel
      if (txout.scriptPubKey = kernel.txout.scriptPubKey ∨
          txout.scriptPubKey = kernel.scriptPubKeyOut) ∧ coin.hash ≠ kernel.coin.hash then
        if 10 ≤ vin.length then .ok (vin, nCredit)
        else if nTargetValue < int64 (nCredit + txout.nValue) then .ok (vin, nCredit)
        -- do not add additional significant input
        else if getStakeCombineThreshold ≤ txout.nValue then
          addInputs nTargetValue kernel nTime setCoins vin nCredit
        -- do not add input that is still too young
        else if getWeight v.params wtx.nTime nTime < v.params.nStakeMinAge then
          addInputs nTargetValue kernel nTime setCoins vin nCredit
        else
          addInputs nTargetValue kernel nTime setCoins (vin ++ [coin])
            (int64 (nCredit + txout.nValue))
      else addInputs nTargetValue kernel nTime setCoins vin nCredit
    | _, _ => .error (.thrown "vout[n] does not exist")

/-- The outputs of a coinstake to itself: a large one is split. -/
def stakeOutputs (nCredit : ℤ) (scriptPubKeyOut : CScript) : List CTxOut :=
  if getStakeSplitThreshold ≤ nCredit then
    let nValue := int64 ((nCredit.tdiv 2).tdiv CENT * CENT)
    [⟨0, []⟩, ⟨nValue, scriptPubKeyOut⟩, ⟨int64 (nCredit - nValue), scriptPubKeyOut⟩]
  else [⟨0, []⟩, ⟨nCredit, scriptPubKeyOut⟩]

/-- `scriptFundBwsKey` -/
def fundScript (F : AddressFormat) : CScript :=
  setDestination (CBitcoinAddress.get F (CBitcoinAddress.setString F (ascii fundAddress)))

/-- The view of the database while a coinstake is made. -/
def stakeView : TxView := v.node.txView env.w v.node.txdb.fresh

/-- `CreateCoinStake`, while no other block becomes the best one. -/
def createCoinStake (nBits : ℕ) (nSearchInterval nFees : ℤ) (txNew : CTransaction) :
    Except Fault (Option (CTransaction × CKey)) :=
  match v.node.pindexBest with
  | none => .error (.thrown "pindexPrev")
  | some pindexPrev => do
    let nBalance ← v.getBalance
    if nBalance ≤ env.nReserveBalance then .ok none
    else
      let nTargetValue := int64 (nBalance - env.nReserveBalance)
      let setCoins ← v.selectCoinsForStaking env nTargetValue txNew.nTime
      match ← v.searchKernel env pindexPrev nBits nSearchInterval txNew.nTime setCoins with
      | none => .ok none
      | some kernel =>
        let empty : List CTxOut := [⟨0, []⟩, ⟨0, kernel.scriptPubKeyOut⟩]
        if getCoinAge v.params (v.stakeView env) (some pindexPrev)
            (kernel.coinStake txNew [kernel.coin] empty) = none then .ok none
        else if kernel.txout.nValue = 0 ∨ nTargetValue < kernel.txout.nValue then .ok none
        else do
          let (coins, nCredit) ← v.addInputs nTargetValue kernel (timeBefore txNew.nTime kernel.n)
            setCoins [kernel.coin] kernel.txout.nValue
          match getCoinAge v.params (v.stakeView env) (some pindexPrev)
              (kernel.coinStake txNew coins empty) with
          | none => .ok none
          | some nCoinAge =>
            let nReward := getProofOfStakeReward nCoinAge nFees
            if nReward = 0 then .ok none
            else
              -- fund reward is 20% of reward amount
              let nFundReward := nReward / 5
              let vout := stakeOutputs (int64 (nCredit + (nReward - nFundReward : ℕ)))
                kernel.scriptPubKeyOut ++ [⟨int64 nFundReward, fundScript env.F⟩]
              match ← v.signInputs env.toSendEnv coins 0 (kernel.coinStake txNew coins vout) with
              | none => .ok none
              | some tx =>
                if MAX_BLOCK_SIZE_GEN / 5 ≤ tx.serializeSize then .ok none
                else .ok (some (tx, kernel.key))

end WalletView

/-- `CheckBlockSignature` -/
def CBlock.checkBlockSignature (S : SolverParams) (hash : UInt256) (block : CBlock) : Bool :=
  let verify (vch : valtype) : Bool :=
    decide (isValidPubKey vch) && S.crypto.verify vch hash block.vchBlockSig
  if block.isProofOfWork then block.vchBlockSig = []
  else if block.vchBlockSig = [] then false
  else
    match block.vtx[1]?.bind fun tx ↦ tx.vout[1]? with
    | none => false
    | some txout =>
      match solver S.nMaxDatacarrierBytes txout.scriptPubKey with
      | none => false
      | some (.TX_PUBKEY, vSolutions) => verify (vSolutions.headD [])
      | some _ =>
        -- the key can also be encoded in an output that cannot be spent
        match getOp txout.scriptPubKey with
        | none => false
        | some (opcode, _, pc) =>
          if opcode ≠ OP_RETURN then false
          else
            match getOp pc with
            | none => false
            | some (_, vchPushValue, _) =>
              if ¬ checkPubKeyEncoding vchPushValue then false else verify vchPushValue

namespace WalletView

variable {v : WalletView} {env : StakeEnv} {coin : COutPoint} {kernel : StakeKernel}
  {pindexPrev : CBlockIndex} {nBits : ℕ} {nSearchInterval nTargetValue : ℤ} {nTime nSpendTime : ℕ}

/-! ## The coins -/

/-- An unspent output of the wallet that can stake at a time. -/
def Stakable (v : WalletView) (env : StakeEnv) (nSpendTime : ℕ) (coin : COutPoint) : Prop :=
  ∃ wtx txout, v.wallet.mapWallet coin.hash = some wtx ∧ wtx.vout[coin.n]? = some txout ∧
    wtx.isSpent coin.n = .ok false ∧ v.isMine txout = true ∧
    env.nMinimumInputValue ≤ txout.nValue ∧
    (wtx.nTime + v.params.nStakeMinAge) % 2 ^ 32 ≤ nSpendTime ∧
    (nStakeMinConfirmations : ℤ) ≤ v.depth wtx.toCMerkleTx ∧
    v.blocksToMaturity wtx.toCMerkleTx ≤ 0

theorem availableOutputs_mine {e : UInt256 × CWalletTx} {vout : List CTxOut} :
    ∀ {i : ℕ} {vCoins : List COutput},
      v.availableOutputs env.toSendEnv none e i vout = .ok vCoins → ∀ output ∈ vCoins,
        ∃ k txout, vout[k]? = some txout ∧ output.outpoint = ⟨e.1, i + k⟩ ∧
          e.2.isSpent (i + k) = .ok false ∧ v.isMine txout = true ∧
            env.nMinimumInputValue ≤ txout.nValue := by
  induction vout with
  | nil =>
    intro i vCoins h output hout
    cases h
    exact absurd hout List.not_mem_nil
  | cons txout vout ih =>
    intro i vCoins h output hout
    rw [availableOutputs] at h
    obtain ⟨fSpent, hspent, h⟩ := bind_eq_ok.1 h
    obtain ⟨rest, hrest, h⟩ := bind_eq_ok.1 h
    have hlater : output ∈ rest → ∃ k txout', (txout :: vout)[k]? = some txout' ∧
        output.outpoint = ⟨e.1, i + k⟩ ∧ e.2.isSpent (i + k) = .ok false ∧
          v.isMine txout' = true ∧ env.nMinimumInputValue ≤ txout'.nValue := by
      intro hmem
      obtain ⟨k, txout', hget, hpoint, hrest⟩ := ih hrest output hmem
      rw [Nat.add_assoc, Nat.add_comm 1 k] at hpoint hrest
      exact ⟨k + 1, txout', hget, hpoint, hrest⟩
    split_ifs at h with hcond
    · cases h
      rcases List.mem_cons.1 hout with rfl | hmem
      · simp only [Bool.and_eq_true, Bool.not_eq_true', decide_eq_true_eq] at hcond
        obtain ⟨⟨⟨rfl, hmine⟩, hvalue⟩, -⟩ := hcond
        exact ⟨0, txout, rfl, rfl, hspent, hmine, hvalue⟩
      · exact hlater hmem
    · cases h
      exact hlater hout

theorem stakable_of_availableForStaking {entries : List (UInt256 × CWalletTx)}
    (hentries : ∀ e ∈ entries, v.wallet.mapWallet e.1 = some e.2) : ∀ {vCoins : List COutput},
      v.availableForStaking env nSpendTime entries = .ok vCoins →
        ∀ output ∈ vCoins, Stakable v env nSpendTime output.outpoint := by
  induction entries with
  | nil =>
    intro vCoins h output hout
    cases h
    exact absurd hout List.not_mem_nil
  | cons e entries ih =>
    intro vCoins h output hout
    obtain ⟨hentry, hrest⟩ := List.forall_mem_cons.1 hentries
    rw [availableForStaking] at h
    split_ifs at h with htime hone hdeep hmature
    · exact ih hrest h output hout
    · exact ih hrest h output hout
    · exact ih hrest h output hout
    · exact ih hrest h output hout
    · obtain ⟨first, hfirst, h⟩ := bind_eq_ok.1 h
      obtain ⟨rest, hok, h⟩ := bind_eq_ok.1 h
      cases h
      rcases List.mem_append.1 hout with hout | hout
      · obtain ⟨k, txout, hget, hpoint, hspent, hmine, hvalue⟩ :=
          availableOutputs_mine hfirst output hout
        rw [Nat.zero_add] at hpoint hspent
        rw [hpoint]
        exact ⟨e.2, txout, hentry, hget, hspent, hmine, hvalue, not_lt.1 htime, not_lt.1 hdeep,
          not_lt.1 hmature⟩
      · exact ih hrest hok output hout

theorem mem_selectForStaking : ∀ {vCoins : List COutput} {s : Selection},
    ∀ o ∈ (selectForStaking nTargetValue vCoins s).setCoinsRet,
      o ∈ s.setCoinsRet ∨ ∃ output ∈ vCoins, o = output.outpoint := by
  intro vCoins
  induction vCoins with
  | nil => exact fun o ho ↦ .inl ho
  | cons output vCoins ih =>
    intro s o ho
    have hadd : ∀ {o}, o ∈ (s.add output.coin).setCoinsRet →
        o ∈ s.setCoinsRet ∨ ∃ output' ∈ output :: vCoins, o = output'.outpoint := by
      intro o ho
      rcases Finset.mem_insert.1 ho with rfl | ho
      · exact .inr ⟨output, List.mem_cons_self, rfl⟩
      · exact .inl ho
    rw [selectForStaking] at ho
    split_ifs at ho
    · exact .inl ho
    · exact hadd ho
    · rcases ih o ho with ho | ⟨output', hmem, rfl⟩
      · exact hadd ho
      · exact .inr ⟨output', List.mem_cons_of_mem _ hmem, rfl⟩
    · rcases ih o ho with ho | ⟨output', hmem, rfl⟩
      · exact .inl ho
      · exact .inr ⟨output', List.mem_cons_of_mem _ hmem, rfl⟩

theorem selectCoinsForStaking_spec {setCoins : List COutPoint}
    (h : v.selectCoinsForStaking env nTargetValue nSpendTime = .ok setCoins) :
    setCoins.Nodup ∧ ∀ coin ∈ setCoins, Stakable v env nSpendTime coin := by
  obtain ⟨vCoins, havailable, h⟩ := bind_eq_ok.1 h
  cases h
  refine ⟨env.order_nodup _, fun coin hcoin ↦ ?_⟩
  have hstakable := stakable_of_availableForStaking (fun e he ↦ mem_entries.1 he) havailable
  rcases mem_selectForStaking coin ((env.mem_order _ _).1 hcoin) with hnone | ⟨output, hout, rfl⟩
  · exact absurd hnone (Finset.notMem_empty _)
  · exact hstakable output hout

/-! ## The kernel and the inputs -/

theorem searchKernel_spec {setCoins : List COutPoint}
    (h : v.searchKernel env pindexPrev nBits nSearchInterval nTime setCoins = .ok (some kernel)) :
    kernel.coin ∈ setCoins ∧ v.coinOutput kernel.coin = some kernel.txout ∧
      v.kernelKey env kernel.txout.scriptPubKey = some (kernel.key, kernel.scriptPubKeyOut) ∧
      (kernel.n : ℤ) < min nSearchInterval 60 ∧
      checkKernel v.params env.w v.node.files v.node.txdb.fresh.readTxIndex pindexPrev nBits
        (timeBefore nTime kernel.n) kernel.coin = true := by
  induction setCoins with
  | nil => cases h
  | cons coin setCoins ih =>
    have hlater := fun h ↦ (ih h).imp_left (List.mem_cons_of_mem coin)
    rw [searchKernel] at h
    split at h
    · exact hlater h
    · rename_i n hfind
      split at h
      · cases h
      · rename_i txout hout
        split at h
        · exact hlater h
        · rename_i key scriptPubKeyOut hkey
          cases h
          have hn := List.mem_range.1 (List.mem_of_find?_eq_some hfind)
          have hkernel := List.find?_some hfind
          exact ⟨List.mem_cons_self, hout, hkey, Int.lt_toNat.1 hn, hkernel⟩

/-- The inputs so far: the kernel is the first of them, none is there twice, and the others are small
and have the same owner. -/
structure Gathered (v : WalletView) (nTargetValue : ℤ) (kernel : StakeKernel)
    (setCoins vin : List COutPoint) (nCredit : ℤ) : Prop where
  kernel_first : vin.head? = some kernel.coin
  few : vin.length ≤ 10
  nodup : vin.Nodup
  credit : nCredit = (vin.map v.outputValue).sum
  reserve : nCredit ≤ nTargetValue
  chosen : ∀ coin ∈ vin, coin ∈ setCoins
  owner : ∀ coin ∈ vin, ∃ txout, v.coinOutput coin = some txout ∧
    (txout.scriptPubKey = kernel.txout.scriptPubKey ∨ txout.scriptPubKey = kernel.scriptPubKeyOut)
  minor : ∀ coin ∈ vin, coin = kernel.coin ∨ v.outputValue coin < getStakeCombineThreshold

theorem Gathered.bounds {setCoins vin : List COutPoint} {nCredit : ℤ}
    (h : Gathered v nTargetValue kernel setCoins vin nCredit)
    (hmoney : ∀ coin, moneyRange (v.outputValue coin)) :
    0 ≤ nCredit ∧ nCredit ≤ 10 * MAX_MONEY := by
  have hsum : ∀ coins : List COutPoint, 0 ≤ (coins.map v.outputValue).sum ∧
      (coins.map v.outputValue).sum ≤ coins.length * MAX_MONEY := by
    intro coins
    induction coins with
    | nil => exact ⟨le_rfl, by simp⟩
    | cons coin coins ih =>
      obtain ⟨hlo, hhi⟩ := hmoney coin
      rw [List.map_cons, List.sum_cons, List.length_cons, Nat.cast_succ, add_mul, one_mul]
      exact ⟨by omega, by omega⟩
  have hfew : (vin.length : ℤ) ≤ 10 := by exact_mod_cast h.few
  obtain ⟨hlo, hhi⟩ := hsum vin
  rw [h.credit]
  exact ⟨hlo, hhi.trans (mul_le_mul_of_nonneg_right hfew (by decide))⟩

theorem Gathered.addInputs (hmoney : ∀ coin, moneyRange (v.outputValue coin))
    {all : List COutPoint} {nTime : ℕ} : ∀ {setCoins vin : List COutPoint} {nCredit : ℤ}
    {r : List COutPoint × ℤ}, Gathered v nTargetValue kernel all vin nCredit → setCoins.Nodup →
      (∀ coin ∈ setCoins, coin ∈ all ∧ (coin ∈ vin → coin = kernel.coin)) →
      v.addInputs nTargetValue kernel nTime setCoins vin nCredit = .ok r →
        Gathered v nTargetValue kernel all r.1 r.2 := by
  intro setCoins
  induction setCoins with
  | nil =>
    intro vin nCredit r hgather _ _ h
    cases h
    exact hgather
  | cons coin setCoins ih =>
    intro vin nCredit r hgather hnodup hall h
    obtain ⟨hfresh, hnodup⟩ := List.nodup_cons.1 hnodup
    obtain ⟨⟨hmem, hseen⟩, hrest⟩ := List.forall_mem_cons.1 hall
    rw [WalletView.addInputs] at h
    split at h
    · rename_i wtx txout hwtx hout
      split_ifs at h with hsame hmany hreserve hminor
      · cases h
        exact hgather
      · cases h
        exact hgather
      · exact ih hgather hnodup hrest h
      · exact ih hgather hnodup hrest h
      · -- the coin is added
        have hvalue : v.outputValue coin = txout.nValue := by
          rw [outputValue, hout]
          rfl
        obtain ⟨hlo, hhi⟩ := hgather.bounds hmoney
        obtain ⟨hlow, hhigh⟩ := hmoney coin
        rw [hvalue] at hlow hhigh
        have hmax : MAX_MONEY = 90000000 * COIN := rfl
        have hcoin : COIN = 100000000 := rfl
        have hexact : int64 (nCredit + txout.nValue) = nCredit + txout.nValue :=
          int64_eq ⟨by omega, by omega⟩
        rw [hexact] at hreserve h
        have hnew : coin ∉ vin := fun hin ↦ hsame.2 (congrArg COutPoint.hash (hseen hin))
        refine ih ⟨?_, ?_, ?_, ?_, not_lt.1 hreserve, ?_, ?_, ?_⟩ hnodup (fun other hother ↦
          ⟨(hrest other hother).1, fun hin ↦ ?_⟩) h
        · rw [List.head?_append, hgather.kernel_first]
          rfl
        · rw [List.length_append, List.length_singleton]
          omega
        · exact List.nodup_append.2 ⟨hgather.nodup, List.nodup_singleton _, fun a ha b hb hab ↦
            hnew (List.mem_singleton.1 hb ▸ hab ▸ ha)⟩
        · rw [List.map_append, List.sum_append, List.map_singleton, List.sum_singleton, hvalue,
            hgather.credit]
        · intro other hother
          rcases List.mem_append.1 hother with hother | hother
          · exact hgather.chosen other hother
          · rwa [List.mem_singleton.1 hother]
        · intro other hother
          rcases List.mem_append.1 hother with hother | hother
          · exact hgather.owner other hother
          · exact ⟨txout, List.mem_singleton.1 hother ▸ hout, hsame.1⟩
        · intro other hother
          rcases List.mem_append.1 hother with hother | hother
          · exact hgather.minor other hother
          · rw [List.mem_singleton.1 hother, hvalue]
            exact .inr (not_le.1 hminor)
        · rcases List.mem_append.1 hin with hin | hin
          · exact (hrest other hother).2 hin
          · exact absurd hother (List.mem_singleton.1 hin ▸ hfresh)
      · exact ih hgather hnodup hrest h
    · cases h

/-! ## What is paid -/

/-- The outputs to itself are worth the credit, whether it is split or not. -/
theorem totalValue_stakeOutputs {nCredit : ℤ} (hcredit : 0 ≤ nCredit ∧ nCredit < 2 ^ 62)
    (scriptPubKeyOut : CScript) : totalValue (stakeOutputs nCredit scriptPubKeyOut) = nCredit := by
  obtain ⟨hlo, hhi⟩ := hcredit
  rw [stakeOutputs]
  split_ifs
  · have hhalf : (nCredit.tdiv 2).tdiv CENT * CENT = nCredit / 2 / CENT * CENT := by
      rw [Int.tdiv_eq_ediv_of_nonneg hlo, Int.tdiv_eq_ediv_of_nonneg (by omega)]
    have hcent : CENT = 1000000 := rfl
    have hbounds : 0 ≤ nCredit / 2 / CENT * CENT ∧ nCredit / 2 / CENT * CENT ≤ nCredit := by
      rw [hcent]
      omega
    dsimp only
    rw [hhalf, int64_eq ⟨by omega, by omega⟩, int64_eq ⟨by omega, by omega⟩]
    simp only [totalValue_cons, totalValue_nil]
    omega
  · simp only [totalValue_cons, totalValue_nil]
    omega

/-! ## The signatures -/

/-- The keys of the store sign for their public keys, under whose hashes they are stored. -/
structure KeysSign (v : WalletView) (env : StakeEnv) : Prop where
  signs : ∀ id key, v.keystore.getKey id = some key →
    SignsFor v.solverParams env.sign key (env.getPubKey key)
  pubKey : ∀ id key, v.keystore.getKey id = some key →
    v.keystore.getPubKey id = some (env.getPubKey key) ∧
      keyIDOf v.solverParams.crypto (env.getPubKey key) = id
  hash160 : ∀ vch, (v.solverParams.crypto.hash160 vch).length = 20

end WalletView

section

variable {S : SolverParams} {sign : CKey → UInt256 → Option valtype} {keystore : CKeyStore}
  {key : CKey} {vch : valtype} {txTo : CTransaction} {nIn : ℕ}

/-- A signature with all the outputs passes for the input, whatever the flags and the scripts of the
inputs are. -/
theorem SignsFor.signedBy (h : SignsFor S sign key vch) (scriptCode : CScript) (txTo : CTransaction)
    (nIn : ℕ) : ∃ vchSig,
      sign key (signatureHash S.crypto scriptCode txTo nIn SIGHASH_ALL) = some vchSig ∧
        isLowDERSignature (vchSig ++ [UInt8.ofNat SIGHASH_ALL]) true ∧
        vchSig ++ [UInt8.ofNat SIGHASH_ALL] ≠ S.crypto.hash160 vch ∧
        ∀ c : ScriptContext, c.txTo.blank = txTo.blank → c.nIn = nIn → c.nHashType = 0 →
          SignedBy S.crypto c scriptCode vch (vchSig ++ [UInt8.ofNat SIGHASH_ALL]) := by
  obtain ⟨vchSig, hsign, hverify, hencoded⟩ :=
    h.signs (signatureHash S.crypto scriptCode txTo nIn SIGHASH_ALL)
  obtain ⟨hder, hne⟩ := hencoded (UInt8.ofNat SIGHASH_ALL)
  have hlast : (vchSig ++ [UInt8.ofNat SIGHASH_ALL]).getLast? = some (UInt8.ofNat SIGHASH_ALL) := by
    rw [List.getLast?_append_of_ne_nil _ (List.cons_ne_nil _ _), List.getLast?_singleton]
  refine ⟨vchSig, hsign, hder, hne, fun c hblank hnIn hnHashType ↦ ⟨.inr ⟨hder, .inr ?_⟩,
    h.encoded, ?_⟩⟩
  · exact ⟨_, hlast, by decide⟩
  · have hhash : signatureHash S.crypto scriptCode c.txTo nIn SIGHASH_ALL =
        signatureHash S.crypto scriptCode txTo nIn SIGHASH_ALL := by
      rw [← signatureHash_blank, hblank, signatureHash_blank]
    have hbyte : (UInt8.ofNat SIGHASH_ALL).toNat = SIGHASH_ALL := rfl
    rw [checkSig, hlast]
    dsimp only
    rw [hnHashType, if_pos rfl, hbyte, hnIn, hhash, List.dropLast_concat, hverify,
      decide_eq_true ⟨isValidPubKey_of_encoded h.encoded, rfl⟩]
    rfl

/-- The solution has been tested. -/
theorem testSolution_of_signSignature {fromPubKey : CScript} {nHashType : ℕ}
    (h : (signSignature S sign keystore fromPubKey txTo nIn nHashType).2 = true) :
    ∃ scriptSig, (signSignature S sign keystore fromPubKey txTo nIn nHashType).1 =
        txTo.setScriptSig nIn scriptSig ∧ testSolution S fromPubKey txTo nIn scriptSig = true := by
  have htest : ∀ scriptSig scriptSig', testSolution S fromPubKey (txTo.setScriptSig nIn scriptSig')
      nIn scriptSig = testSolution S fromPubKey txTo nIn scriptSig := by
    intro scriptSig scriptSig'
    rw [testSolution, testSolution, CTransaction.setScriptSig_setScriptSig]
  unfold signSignature at h ⊢
  dsimp only at h ⊢
  split at h
  · cases h
  · rename_i scriptSig whichType hsolved
    split_ifs at h ⊢ with htype
    · rw [Bool.and_eq_true, htest] at h
      exact ⟨_, CTransaction.setScriptSig_setScriptSig .., h.2⟩
    · rw [htest] at h
      exact ⟨scriptSig, rfl, h⟩

end

namespace WalletView

variable {v : WalletView} {env : StakeEnv} {tx tx' : CTransaction}

theorem signInputs_cons {env : SendEnv} {coin : COutPoint} {setCoins : List COutPoint} {nIn : ℕ}
    (h : v.signInputs env (coin :: setCoins) nIn tx = .ok (some tx')) :
    ∃ txout scriptSig, v.coinOutput coin = some txout ∧
      signSignature v.solverParams env.sign v.keystore txout.scriptPubKey tx nIn SIGHASH_ALL =
        (tx.setScriptSig nIn scriptSig, true) ∧
      testSolution v.solverParams txout.scriptPubKey tx nIn scriptSig = true ∧
      v.signInputs env setCoins (nIn + 1) (tx.setScriptSig nIn scriptSig) = .ok (some tx') := by
  rw [signInputs] at h
  split at h
  · cases h
  · rename_i txout hout
    dsimp only at h
    split_ifs at h with hsigned
    · obtain ⟨scriptSig, heq, htest⟩ := testSolution_of_signSignature hsigned
      rw [heq] at h
      exact ⟨txout, scriptSig, hout, Prod.ext heq hsigned, htest, h⟩
    · cases h

/-- Signing writes only the scripts of the inputs, and only those from the first one on. -/
theorem signInputs_keeps {env : SendEnv} {setCoins : List COutPoint} :
    ∀ {nIn : ℕ} {tx tx' : CTransaction}, v.signInputs env setCoins nIn tx = .ok (some tx') →
      tx'.blank = tx.blank ∧ ∀ i < nIn, tx'.vin[i]? = tx.vin[i]? := by
  induction setCoins with
  | nil =>
    intro nIn tx tx' h
    cases h
    exact ⟨rfl, fun _ _ ↦ rfl⟩
  | cons coin setCoins ih =>
    intro nIn tx tx' h
    obtain ⟨txout, scriptSig, -, -, -, hrest⟩ := signInputs_cons h
    obtain ⟨hblank, hkeep⟩ := ih hrest
    refine ⟨hblank.trans (blank_setScriptSig tx nIn scriptSig), fun i hi ↦ ?_⟩
    rw [hkeep i (Nat.lt_succ_of_lt hi), getElem?_setScriptSig]
    cases tx.vin[i]? with
    | none => rfl
    | some txin => rw [Option.map_some, if_neg hi.ne]

/-- Every input is signed so that its script passes in the transaction that is left. -/
theorem signInputs_verified {env : SendEnv} {setCoins : List COutPoint} :
    ∀ {nIn : ℕ} {tx tx' : CTransaction}, v.signInputs env setCoins nIn tx = .ok (some tx') →
      ∀ (k : ℕ) (coin : COutPoint), setCoins[k]? = some coin → nIn + k < tx.vin.length →
        ∃ txout txin, v.coinOutput coin = some txout ∧ tx'.vin[nIn + k]? = some txin ∧
          verifyScript v.solverParams.crypto ⟨tx', nIn + k, STANDARD_SCRIPT_VERIFY_FLAGS, 0⟩
            txin.scriptSig txout.scriptPubKey = true := by
  induction setCoins with
  | nil =>
    intro nIn tx tx' _ k coin hk
    cases hk
  | cons coin setCoins ih =>
    intro nIn tx tx' h k other hk hlt
    obtain ⟨txout, scriptSig, hout, -, htest, hrest⟩ := signInputs_cons h
    cases k with
    | zero =>
      cases hk
      obtain ⟨hblank, hkeep⟩ := signInputs_keeps hrest
      rw [Nat.add_zero] at hlt ⊢
      refine ⟨txout, { tx.vin[nIn] with scriptSig }, hout, ?_, ?_⟩
      · rw [hkeep nIn (Nat.lt_succ_self nIn), getElem?_setScriptSig, List.getElem?_eq_getElem hlt,
          Option.map_some, if_pos rfl]
      · rw [← (sameChecks_of_blank v.solverParams.crypto nIn hblank.symm _ _).verifyScript]
        exact htest
    | succ k =>
      have hlen : (tx.setScriptSig nIn scriptSig).vin.length = tx.vin.length :=
        List.length_modify ..
      rw [← Nat.add_assoc, Nat.add_right_comm] at hlt ⊢
      exact ih hrest k other hk (hlen ▸ hlt)

/-- **The kernel is signed**, for a validator that asks for any flags. -/
theorem KeysSign.verifyScript (h : KeysSign v env) {script : CScript} {key : CKey}
    {scriptPubKeyOut : CScript} (hkey : v.kernelKey env script = some (key, scriptPubKeyOut))
    (tx : CTransaction) (nIn : ℕ) :
    ∃ scriptSig, (signSignature v.solverParams env.sign v.keystore script tx nIn SIGHASH_ALL).1 =
        tx.setScriptSig nIn scriptSig ∧
      ∀ c : ScriptContext, c.txTo.blank = tx.blank → c.nIn = nIn → c.nHashType = 0 →
        Bws.verifyScript v.solverParams.crypto c scriptSig script = true := by
  have hp2sh : ¬ isPayToScriptHash script := by
    intro hp2sh
    rw [kernelKey, solver_of_isPayToScriptHash hp2sh] at hkey
    cases hkey
  unfold kernelKey at hkey
  split at hkey
  · -- pay to the hash of a public key
    rename_i vSolutions hsolver
    obtain ⟨template, hmem, hmatch, -⟩ := mem_mTemplates_of_solver hp2sh hsolver
    simp only [mTemplates, List.mem_cons, List.not_mem_nil, or_false, Prod.mk.injEq, reduceCtorEq,
      false_and, true_and, false_or] at hmem
    subst hmem
    obtain ⟨opcode, vchHash, p₁, p₂, p₃, p₄, hdup, hhash160, hget, hequal, hcheck, hlen, rfl⟩ :=
      reads_pubkeyhash hmatch
    obtain ⟨key', hgetKey, hpair⟩ := Option.map_eq_some_iff.1 hkey
    cases hpair
    rw [List.headD_cons] at hgetKey
    obtain ⟨hpub, hid⟩ := h.pubKey _ _ hgetKey
    have hsigns := h.signs _ _ hgetKey
    obtain ⟨vchSig, hsign, hder, hne, hsigned⟩ := hsigns.signedBy script tx nIn
    rw [keyIDOf, if_pos (isValidPubKey_of_encoded hsigns.encoded)] at hid
    have hvch := uint160_inj (h.hash160 _) hlen hid
    refine ⟨pushAll [vchSig ++ [UInt8.ofNat SIGHASH_ALL], env.getPubKey key], ?_,
      fun c hblank hnIn hnHashType ↦
        verifyScript_pushAll hp2sh (Nat.le_add_left 2 18) ?_ ?_⟩
    · rw [signSignature]
      dsimp only
      rw [solverSign, hsolver]
      dsimp only
      rw [List.headD_cons, sign1, hgetKey, Option.bind_some, hsign]
      dsimp only
      rw [hpub, Option.getD_some, List.nil_append, ← pushAll_singleton (env.getPubKey key),
        ← pushAll_cons]
      rfl
    · rw [List.forall_mem_cons, List.forall_mem_singleton]
      exact ⟨(isLowDERSignature_bounds hder).1,
        (length_le_of_encoded hsigns.encoded).trans (by decide)⟩
    · exact leavesTrue_pubkeyhash hdup hhash160 (hvch ▸ hget) hequal hcheck (h.hash160 _) hder hne
        (hsigned c hblank hnIn hnHashType)
  · -- pay to a public key
    rename_i vSolutions hsolver
    obtain ⟨template, hmem, hmatch, -⟩ := mem_mTemplates_of_solver hp2sh hsolver
    simp only [mTemplates, List.mem_cons, List.not_mem_nil, or_false, Prod.mk.injEq, reduceCtorEq,
      false_and, true_and, or_false] at hmem
    subst hmem
    obtain ⟨opcode, vch, pc, hget, hcheck, rfl⟩ := reads_pubkey hmatch
    dsimp only [List.headD_cons] at hkey
    split at hkey
    · cases hkey
    · rename_i key' hgetKey
      split_ifs at hkey with hvch
      cases hkey
      obtain ⟨-, hid⟩ := h.pubKey _ _ hgetKey
      have hsigns := h.signs _ _ hgetKey
      rw [not_not.1 hvch] at hid hsigns
      obtain ⟨vchSig, hsign, hder, -, hsigned⟩ := hsigns.signedBy script tx nIn
      refine ⟨pushAll [vchSig ++ [UInt8.ofNat SIGHASH_ALL]], ?_,
        fun c hblank hnIn hnHashType ↦
          verifyScript_pushAll hp2sh (Nat.le_add_left 1 19) ?_ ?_⟩
      · rw [signSignature]
        dsimp only
        rw [solverSign, hsolver]
        dsimp only
        rw [List.headD_cons, hid, sign1, hgetKey, Option.bind_some, hsign, pushAll_singleton]
        rfl
      · exact List.forall_mem_singleton.2 (isLowDERSignature_bounds hder).1
      · exact leavesTrue_pubkey hget hcheck hder (hsigned c hblank hnIn hnHashType)
  · cases hkey

/-- What a coinstake pays to is the public key of its kernel. -/
theorem KeysSign.solver (h : KeysSign v env) {script : CScript} {key : CKey}
    {scriptPubKeyOut : CScript} (hkey : v.kernelKey env script = some (key, scriptPubKeyOut)) :
    SignsFor v.solverParams env.sign key (env.getPubKey key) ∧
      Bws.solver v.solverParams.nMaxDatacarrierBytes scriptPubKeyOut =
        some (.TX_PUBKEY, [env.getPubKey key]) := by
  unfold kernelKey at hkey
  split at hkey
  · obtain ⟨key', hgetKey, hpair⟩ := Option.map_eq_some_iff.1 hkey
    cases hpair
    have hsigns := h.signs _ _ hgetKey
    have hlen := length_le_of_encoded hsigns.encoded
    exact ⟨hsigns, solver_payToPubKey ⟨hsigns.encoded.1, hlen.trans (by decide)⟩⟩
  · rename_i vSolutions hsolver
    dsimp only at hkey
    split at hkey
    · cases hkey
    · rename_i key' hgetKey
      split_ifs at hkey with hvch
      cases hkey
      have hp2sh : ¬ isPayToScriptHash script := by
        intro hp2sh
        rw [solver_of_isPayToScriptHash hp2sh] at hsolver
        cases hsolver
      obtain ⟨template, hmem, hmatch, -⟩ := mem_mTemplates_of_solver hp2sh hsolver
      simp only [mTemplates, List.mem_cons, List.not_mem_nil, or_false, Prod.mk.injEq, reduceCtorEq,
        false_and, true_and, or_false] at hmem
      subst hmem
      obtain ⟨opcode, vch, pc, -, -, rfl⟩ := reads_pubkey hmatch
      refine ⟨h.signs _ _ hgetKey, ?_⟩
      rw [hsolver, not_not.1 hvch]
      rfl
  · cases hkey

/-! ## A coinstake that is made -/

/-- How a coinstake has been made. -/
structure Made (v : WalletView) (env : StakeEnv) (nBits : ℕ) (nSearchInterval nFees : ℤ)
    (txNew tx : CTransaction) (pindexPrev : CBlockIndex) (kernel : StakeKernel)
    (coins : List COutPoint) (nCredit : ℤ) (nCoinAge : ℕ) : Prop where
  best : v.node.pindexBest = some pindexPrev
  gathered : ∃ nBalance setCoins, v.getBalance = .ok nBalance ∧ env.nReserveBalance < nBalance ∧
    (∀ coin ∈ setCoins, Stakable v env txNew.nTime coin) ∧
    Gathered v (int64 (nBalance - env.nReserveBalance)) kernel setCoins coins nCredit
  solved : v.coinOutput kernel.coin = some kernel.txout ∧
    v.kernelKey env kernel.txout.scriptPubKey = some (kernel.key, kernel.scriptPubKeyOut)
  search : (kernel.n : ℤ) < min nSearchInterval 60
  meets : checkKernel v.params env.w v.node.files v.node.txdb.fresh.readTxIndex pindexPrev nBits
    (timeBefore txNew.nTime kernel.n) kernel.coin = true
  age : getCoinAge v.params (v.stakeView env) (some pindexPrev)
    (kernel.coinStake txNew coins [⟨0, []⟩, ⟨0, kernel.scriptPubKeyOut⟩]) = some nCoinAge
  rewarded : getProofOfStakeReward nCoinAge nFees ≠ 0
  signed : v.signInputs env.toSendEnv coins 0 (kernel.coinStake txNew coins
    (stakeOutputs (int64 (nCredit + (getProofOfStakeReward nCoinAge nFees -
      getProofOfStakeReward nCoinAge nFees / 5 : ℕ))) kernel.scriptPubKeyOut ++
      [⟨int64 (getProofOfStakeReward nCoinAge nFees / 5 : ℕ), fundScript env.F⟩])) = .ok (some tx)
  small : tx.serializeSize < MAX_BLOCK_SIZE_GEN / 5

theorem made_of_createCoinStake (hmoney : ∀ coin, moneyRange (v.outputValue coin)) {nBits : ℕ}
    {nSearchInterval nFees : ℤ} {txNew : CTransaction} {key : CKey}
    (h : v.createCoinStake env nBits nSearchInterval nFees txNew = .ok (some (tx, key))) :
    ∃ pindexPrev kernel coins nCredit nCoinAge, kernel.key = key ∧
      Made v env nBits nSearchInterval nFees txNew tx pindexPrev kernel coins nCredit nCoinAge := by
  rw [createCoinStake] at h
  split at h
  · cases h
  rename_i pindexPrev hbest
  obtain ⟨nBalance, hbalance, h⟩ := bind_eq_ok.1 h
  split_ifs at h with hreserve
  · cases h
  obtain ⟨setCoins, hselect, h⟩ := bind_eq_ok.1 h
  obtain ⟨hnodup, hstakable⟩ := selectCoinsForStaking_spec hselect
  obtain ⟨found, hsearch, h⟩ := bind_eq_ok.1 h
  cases found with
  | none => cases h
  | some kernel =>
    obtain ⟨hmem, hout, hkey, hn, hkernel⟩ := searchKernel_spec hsearch
    dsimp only at h
    split_ifs at h with hage hvalue
    · cases h
    · cases h
    obtain ⟨⟨coins, nCredit⟩, hadd, h⟩ := bind_eq_ok.1 h
    dsimp only at h
    split at h
    · cases h
    rename_i nCoinAge hcoinAge
    split_ifs at h with hzero
    · cases h
    obtain ⟨signed, hsign, h⟩ := bind_eq_ok.1 h
    cases signed with
    | none => cases h
    | some tx' =>
      dsimp only at h
      split_ifs at h with hlarge
      · cases h
      cases h
      have hone : v.outputValue kernel.coin = kernel.txout.nValue := by
        rw [outputValue, hout]
        rfl
      rw [not_or, not_lt] at hvalue
      have hfirst : Gathered v (int64 (nBalance - env.nReserveBalance)) kernel setCoins
          [kernel.coin] kernel.txout.nValue :=
        ⟨rfl, Nat.le_add_left 1 9, List.nodup_singleton _,
          by rw [List.map_singleton, List.sum_singleton, hone], hvalue.2,
          List.forall_mem_singleton.2 hmem, List.forall_mem_singleton.2 ⟨_, hout, .inl rfl⟩,
          List.forall_mem_singleton.2 (.inl rfl)⟩
      have hgathered := hfirst.addInputs hmoney hnodup
        (fun coin hcoin ↦ ⟨hcoin, List.mem_singleton.1⟩) hadd
      exact ⟨pindexPrev, kernel, coins, nCredit, nCoinAge, rfl, hbest,
        ⟨nBalance, setCoins, hbalance, not_le.1 hreserve, hstakable, hgathered⟩, ⟨hout, hkey⟩, hn,
        hkernel, hcoinAge, hzero, hsign, not_le.1 hlarge⟩

end WalletView

/-! ## What the validator sees -/

section

variable {P : Params} {V : TxView} {pindexPrev : Option CBlockIndex} {tx tx' : CTransaction}

/-- The age does not depend on the scripts and the outputs. -/
theorem coinAgeFrom_congr (htime : tx.nTime = tx'.nTime) : ∀ {vin vin' : List CTxIn} {bn : ℤ},
    vin.map CTxIn.prevout = vin'.map CTxIn.prevout →
      coinAgeFrom P V pindexPrev tx bn vin = coinAgeFrom P V pindexPrev tx' bn vin' := by
  intro vin
  induction vin with
  | nil =>
    intro vin' bn h
    rw [List.map_nil, eq_comm, List.map_eq_nil_iff] at h
    rw [h, coinAgeFrom, coinAgeFrom]
  | cons txin vin ih =>
    intro vin' bn h
    cases vin' with
    | nil => cases h
    | cons txin' vin' =>
      obtain ⟨hout, hrest⟩ := List.cons.inj h
      rw [coinAgeFrom.eq_def, coinAgeFrom.eq_def P V pindexPrev tx' bn]
      dsimp only
      rw [← hout, ← htime]
      simp only [ih hrest]

theorem getCoinAge_congr (htime : tx.nTime = tx'.nTime)
    (hvin : tx.vin.map CTxIn.prevout = tx'.vin.map CTxIn.prevout) (hcoinbase : ¬ tx.isCoinBase)
    (hcoinbase' : ¬ tx'.isCoinBase) :
    getCoinAge P V pindexPrev tx = getCoinAge P V pindexPrev tx' := by
  rw [getCoinAge, getCoinAge, if_neg hcoinbase, if_neg hcoinbase', coinAgeFrom_congr htime hvin]

theorem prevouts_of_blank (h : tx.blank = tx'.blank) :
    tx.vin.map CTxIn.prevout = tx'.vin.map CTxIn.prevout := by
  have hprevouts : ∀ tx : CTransaction,
      tx.blank.vin.map CTxIn.prevout = tx.vin.map CTxIn.prevout := fun tx ↦ List.map_map
  rw [← hprevouts tx, h, hprevouts tx']

end

namespace WalletView

variable {v : WalletView} {env : StakeEnv} {nBits : ℕ} {nSearchInterval nFees : ℤ}
  {txNew tx : CTransaction} {pindexPrev : CBlockIndex} {kernel : StakeKernel}
  {coins : List COutPoint} {nCredit : ℤ} {nCoinAge : ℕ}

/-- The outputs of the wallet are amounts of money, no transaction has so many that one would have
the number of the null outpoint, and what the chain has under the hash of a transaction of the wallet
is that transaction. -/
structure Sane (v : WalletView) (env : StakeEnv) : Prop where
  money : ∀ coin, moneyRange (v.outputValue coin)
  outputs : ∀ hash wtx, v.wallet.mapWallet hash = some wtx → wtx.vout.length ≤ uintMax
  chain : ∀ hash wtx txindex txPrev, v.wallet.mapWallet hash = some wtx →
    v.node.txdb.fresh.readTxIndex hash = some txindex →
    readTxAt env.w v.node.files txindex.pos = some txPrev →
      txPrev = wtx.toCTransaction ∧ v.params.getHash txPrev = hash

/-- What the coins of the wallet are worth for a block that reads them of the files. -/
theorem Sane.totalValue_of_spends (hsane : Sane v env) {idx : Ledger.Index UInt256 CDiskTxPos}
    (hdisk : ∀ hash wtx pos, v.wallet.mapWallet hash = some wtx → Ledger.pos? idx hash = some pos →
      pos ≠ .inMemory ∧ Ledger.pos? v.node.txdb.fresh.readTxIndex hash = some pos)
    {vin : List CTxIn} {vout : List CTxOut}
    (hmine : ∀ txin ∈ vin, ∃ txout, v.coinOutput txin.prevout = some txout)
    (h : SpendsOutputs (v.stakeView env) idx vin vout) :
    Bws.totalValue vout = (vin.map fun txin ↦ v.outputValue txin.prevout).sum := by
  induction h with
  | nil => rfl
  | @cons txin txout vin vout hhead _ ih =>
    obtain ⟨⟨txout', hout⟩, hrest⟩ := List.forall_mem_cons.1 hmine
    obtain ⟨wtx, hwtx, hget⟩ := Option.bind_eq_some_iff.1 hout
    obtain ⟨txindex, hindex, hhead⟩ := Option.bind_eq_some_iff.1 hhead
    obtain ⟨txPrev, hprev, hget'⟩ := Option.bind_eq_some_iff.1 hhead
    -- the index leads to the transaction of the wallet
    have hpos : Ledger.pos? idx txin.prevout.hash = some txindex.pos := by
      rw [Ledger.pos?, hindex]
      rfl
    obtain ⟨hfile, hpos⟩ := hdisk _ _ _ hwtx hpos
    obtain ⟨txindex', hindex', heq⟩ := Option.map_eq_some_iff.1 hpos
    rw [TxView.prevTx, if_neg hfile, ← heq] at hprev
    obtain ⟨rfl, -⟩ := hsane.chain _ _ _ _ hwtx hindex' hprev
    cases hget.symm.trans hget'
    rw [totalValue_cons, List.map_cons, List.sum_cons, ih hrest, outputValue, hout]
    rfl

/-- `ConnectBlock` connects the transactions of a block on `pindexPrev` with the totals `t`, and the
fees that it counts are `nFees`.  The coinbase of the block is not in the wallet yet. -/
structure Connects (v : WalletView) (env : StakeEnv) (nFees : ℤ) (pindexPrev pindex : CBlockIndex)
    (block : CBlock) (t : BlockTotals) : Prop where
  pprev : pindex.pprev = some pindexPrev
  coinbase : ∀ txBase ∈ block.vtx[0]?, v.wallet.mapWallet (v.params.getHash txBase) = none
  checked : checkBlock v.params env.w block true true false = .ok ()
  connected : connectTxs v.params (v.stakeView env) pindex false
    (.init (firstTxPos block pindex false)) block.vtx = .ok t
  fees : t.nFees = nFees

section

variable (h : Made v env nBits nSearchInterval nFees txNew tx pindexPrev kernel coins nCredit nCoinAge)

include h

theorem Made.blank : tx.nTime = timeBefore txNew.nTime kernel.n ∧
    tx.vin.map CTxIn.prevout = coins ∧
    tx.vout = stakeOutputs (int64 (nCredit + (getProofOfStakeReward nCoinAge nFees -
      getProofOfStakeReward nCoinAge nFees / 5 : ℕ))) kernel.scriptPubKeyOut ++
      [⟨int64 (getProofOfStakeReward nCoinAge nFees / 5 : ℕ), fundScript env.F⟩] := by
  obtain ⟨hblank, -⟩ := signInputs_keeps h.signed
  refine ⟨congrArg CTransaction.nTime hblank, ?_, congrArg CTransaction.vout hblank⟩
  rw [prevouts_of_blank hblank, StakeKernel.coinStake, List.map_map]
  exact List.map_id coins

/-- The kernel is the first input. -/
theorem Made.first : ∃ scriptSig rest, tx.vin = ⟨kernel.coin, scriptSig, uintMax⟩ :: rest := by
  obtain ⟨nBalance, setCoins, -, -, -, hgathered⟩ := h.gathered
  obtain ⟨rest, rfl⟩ : ∃ rest, coins = kernel.coin :: rest := by
    cases coins with
    | nil => cases hgathered.kernel_first
    | cons coin rest =>
      cases Option.some.inj hgathered.kernel_first
      exact ⟨rest, rfl⟩
  obtain ⟨hblank, -⟩ := signInputs_keeps h.signed
  have hvin : tx.blank.vin = _ := congrArg CTransaction.vin hblank
  rcases htx : tx.vin with - | ⟨⟨prevout, scriptSig, nSequence⟩, vin⟩
  · rw [CTransaction.blank, htx] at hvin
    cases hvin
  · rw [CTransaction.blank, htx, StakeKernel.coinStake] at hvin
    obtain ⟨hfirst, -⟩ := List.cons.inj hvin
    obtain ⟨rfl, -, rfl⟩ := CTxIn.mk.inj hfirst
    exact ⟨scriptSig, vin, rfl⟩

theorem Made.not_isNull (hsane : Sane v env) : ¬ kernel.coin.isNull := by
  obtain ⟨nBalance, setCoins, -, -, hstakable, hgathered⟩ := h.gathered
  have hmem : kernel.coin ∈ coins := List.mem_of_head? hgathered.kernel_first
  obtain ⟨wtx, txout, hwtx, hout, -⟩ := hstakable kernel.coin (hgathered.chosen _ hmem)
  have hlt := (List.getElem?_eq_some_iff.1 hout).1
  exact fun hnull ↦ absurd (hnull.2 ▸ hlt) (not_lt.2 (hsane.outputs _ _ hwtx))

theorem Made.isCoinStake (hsane : Sane v env) : tx.isCoinStake := by
  obtain ⟨scriptSig, rest, hvin⟩ := h.first
  obtain ⟨-, -, hvout⟩ := h.blank
  refine ⟨by rw [hvin]; exact Nat.succ_pos _, ?_, ?_, ?_⟩
  · rw [hvin]
    exact ⟨_, rfl, h.not_isNull hsane⟩
  · rw [hvout, List.length_append, stakeOutputs]
    split_ifs <;> simp
  · rw [hvout, stakeOutputs]
    split_ifs <;> exact ⟨⟨0, []⟩, rfl, rfl, rfl⟩

/-- The validator calculates the same age. -/
theorem Made.coinAge (hsane : Sane v env) :
    getCoinAge v.params (v.stakeView env) (some pindexPrev) tx = some nCoinAge := by
  obtain ⟨htime, hvin, -⟩ := h.blank
  obtain ⟨nBalance, setCoins, -, -, -, hgathered⟩ := h.gathered
  rw [← h.age]
  refine getCoinAge_congr htime ?_ (fun hcb ↦
    CTransaction.not_isCoinStake_of_isCoinBase hcb (h.isCoinStake hsane)) ?_
  · rw [hvin, StakeKernel.coinStake, List.map_map]
    exact (List.map_id coins).symm
  · rintro ⟨-, ⟨txin, htxin, hnull⟩, -⟩
    rw [StakeKernel.coinStake, ← List.head?_eq_getElem?, List.head?_map,
      hgathered.kernel_first] at htxin
    cases htxin
    exact h.not_isNull hsane hnull

/-- **What is paid is what is spent and the reward**, to the last unit, and a fifth of the reward goes
to the fund. -/
theorem Made.totalValue (hsane : Sane v env)
    (hreward : (getProofOfStakeReward nCoinAge nFees : ℤ) ≤ MAX_MONEY) :
    Bws.totalValue tx.vout = nCredit + getProofOfStakeReward nCoinAge nFees ∧
      ⟨(getProofOfStakeReward nCoinAge nFees / 5 : ℕ), fundScript env.F⟩ ∈ tx.vout := by
  obtain ⟨-, -, hvout⟩ := h.blank
  obtain ⟨nBalance, setCoins, -, -, -, hgathered⟩ := h.gathered
  obtain ⟨hlo, hhi⟩ := hgathered.bounds hsane.money
  have hmax : MAX_MONEY = 90000000 * COIN := rfl
  have hcoin : COIN = 100000000 := rfl
  have hfifth : getProofOfStakeReward nCoinAge nFees / 5 ≤ getProofOfStakeReward nCoinAge nFees :=
    Nat.div_le_self _ 5
  have hcredit : int64 (nCredit + (getProofOfStakeReward nCoinAge nFees -
      getProofOfStakeReward nCoinAge nFees / 5 : ℕ)) = nCredit +
        (getProofOfStakeReward nCoinAge nFees - getProofOfStakeReward nCoinAge nFees / 5 : ℕ) :=
    int64_eq ⟨by omega, by omega⟩
  have hfund : int64 (getProofOfStakeReward nCoinAge nFees / 5 : ℕ) =
      (getProofOfStakeReward nCoinAge nFees / 5 : ℕ) := int64_eq ⟨by omega, by omega⟩
  rw [hvout, hcredit, hfund]
  refine ⟨?_, List.mem_append_right _ (List.mem_singleton_self _)⟩
  rw [totalValue_append, totalValue_stakeOutputs ⟨by omega, by omega⟩, totalValue_cons,
    totalValue_nil]
  dsimp only
  omega

/-- What the staked coins are worth is not reserved. -/
theorem Made.reserve : ∃ nBalance, v.getBalance = .ok nBalance ∧
    (tx.vin.map fun txin ↦ v.outputValue txin.prevout).sum = nCredit ∧
    nCredit ≤ nBalance - env.nReserveBalance := by
  obtain ⟨-, hvin, -⟩ := h.blank
  obtain ⟨nBalance, setCoins, hbalance, hover, -, hgathered⟩ := h.gathered
  refine ⟨nBalance, hbalance, ?_, hgathered.reserve.trans ?_⟩
  · rw [hgathered.credit, ← hvin, List.map_map]
    rfl
  · rw [int64, Int.bmod_def]
    split_ifs <;> omega

/-- The script of the first input passes with any flags. -/
theorem Made.signature (hkeys : KeysSign v env) :
    ∃ scriptSig, tx.vin[0]? = some ⟨kernel.coin, scriptSig, uintMax⟩ ∧ ∀ flags,
      verifyScript v.solverParams.crypto ⟨tx, 0, flags, 0⟩ scriptSig kernel.txout.scriptPubKey =
        true := by
  have hsigned := h.signed
  obtain ⟨nBalance, setCoins, -, -, -, hgathered⟩ := h.gathered
  obtain ⟨hout, hkey⟩ := h.solved
  obtain ⟨hblank, -⟩ := signInputs_keeps hsigned
  obtain ⟨rest, rfl⟩ : ∃ rest, coins = kernel.coin :: rest := by
    cases coins with
    | nil => cases hgathered.kernel_first
    | cons coin rest =>
      cases Option.some.inj hgathered.kernel_first
      exact ⟨rest, rfl⟩
  obtain ⟨txout, scriptSig, hout', hsign, -, hrest⟩ := signInputs_cons hsigned
  cases hout.symm.trans hout'
  obtain ⟨scriptSig', hsign', hverify⟩ := hkeys.verifyScript hkey (kernel.coinStake txNew
    (kernel.coin :: rest) (stakeOutputs (int64 (nCredit + (getProofOfStakeReward nCoinAge nFees -
      getProofOfStakeReward nCoinAge nFees / 5 : ℕ))) kernel.scriptPubKeyOut ++
      [⟨int64 (getProofOfStakeReward nCoinAge nFees / 5 : ℕ), fundScript env.F⟩])) 0
  rw [hsign] at hsign'
  dsimp only at hsign'
  obtain ⟨-, hkeep⟩ := signInputs_keeps hrest
  refine ⟨scriptSig', ?_, fun flags ↦ hverify _ hblank rfl rfl⟩
  rw [hkeep 0 Nat.one_pos, hsign', getElem?_setScriptSig]
  rfl

/-- **`CheckProofOfStake` accepts the coinstake.** -/
theorem Made.checkProofOfStake (hsane : Sane v env) (hkeys : KeysSign v env)
    (hinterprets : v.params.Interprets v.solverParams.crypto) :
    ∃ hashProofOfStake, Bws.checkProofOfStake v.params env.w v.node.files
      v.node.txdb.fresh.readTxIndex pindexPrev tx nBits = .ok hashProofOfStake := by
  obtain ⟨scriptSig, hfirst, hscript⟩ := h.signature hkeys
  obtain ⟨htime, -, -⟩ := h.blank
  obtain ⟨hout, -⟩ := h.solved
  have hcs := h.isCoinStake hsane
  have hkernel := h.meets
  rw [← htime] at hkernel
  unfold checkKernel at hkernel
  split at hkernel
  · cases hkernel
  rename_i txindex txPrev hread
  split at hkernel
  · cases hkernel
  rename_i header hheader
  split_ifs at hkernel with hage hdepth
  have hsmall : tx.nTime < 2 ^ 32 := by
    rw [htime, timeBefore]
    exact Nat.mod_lt _ (by decide)
  rw [Nat.mod_eq_of_lt hsmall] at hkernel
  obtain ⟨hashProofOfStake, hhash⟩ := Option.isSome_iff_exists.1 hkernel
  -- the previous transaction is the wallet's
  have hverify : v.params.verifySignature txPrev tx 0 0 = true := by
    obtain ⟨wtx, hwtx, hvout⟩ := Option.bind_eq_some_iff.1 hout
    have hchain : txPrev = wtx.toCTransaction ∧ v.params.getHash txPrev = kernel.coin.hash := by
      unfold readPrevTx at hread
      split at hread
      · cases hread
      · rename_i txindex' hindex
        split at hread
        · cases hread
        · rename_i txPrev' hat
          split_ifs at hread
          cases hread
          exact hsane.chain _ _ _ _ hwtx hindex hat
    rw [hinterprets.verifySignature, verifySignature, hfirst]
    dsimp only
    rw [hchain.2, hchain.1, hvout]
    dsimp only
    rw [hscript, decide_eq_true rfl]
    rfl
  refine ⟨hashProofOfStake, ?_⟩
  rw [Bws.checkProofOfStake, bind_check_eq_ok, rejectIf_eq_ok, hfirst]
  refine ⟨not_not.2 hcs, ?_⟩
  dsimp only
  rw [hread]
  dsimp only
  rw [bind_check_eq_ok, rejectIf_eq_ok, hheader]
  refine ⟨not_not.2 hverify, ?_⟩
  dsimp only
  rw [bind_check_eq_ok, rejectIf_eq_ok, hhash]
  exact ⟨hdepth, rfl⟩

/-- **`ConnectBlock` accepts the reward**, when it counts the same fees. -/
theorem Made.checkStakeReward (hsane : Sane v env)
    (hreward : (getProofOfStakeReward nCoinAge nFees : ℤ) ≤ MAX_MONEY)
    (hfund : v.params.extractAddress (fundScript env.F) = fundAddress) {block : CBlock}
    {pindex : CBlockIndex} (hprev : pindex.pprev = some pindexPrev)
    (htx : block.vtx[1]? = some tx) :
    Bws.checkStakeReward v.params (v.stakeView env) pindex block nFees
      (Bws.totalValue tx.vout - (tx.vin.map fun txin ↦ v.outputValue txin.prevout).sum) = .ok () := by
  obtain ⟨htotal, hpaid⟩ := h.totalValue hsane hreward
  obtain ⟨nBalance, -, hsum, -⟩ := h.reserve
  have hmax : MAX_MONEY = 90000000 * COIN := rfl
  have hcoin : COIN = 100000000 := rfl
  rw [Bws.checkStakeReward]
  split_ifs
  · rw [htx]
    dsimp only
    rw [hprev, h.coinAge hsane]
    dsimp only
    rw [bind_check_eq_ok, rejectIf_eq_ok, rejectIf_eq_ok, htotal, hsum]
    constructor
    · rw [uint64]
      omega
    · refine fun hnone ↦ hnone.2 ⟨_, hpaid, hfund, ?_⟩
      dsimp only
      rw [uint64]
      omega
  · rfl

/-- **A block with the coinstake passes `ConnectBlock`**, once its transactions are connected: the
reward that is tested is what the coinstake pays more than the wallet's coins are worth. -/
theorem Made.connectBlockCheck (hsane : Sane v env)
    (hdisk : ∀ hash pos, Ledger.pos? v.node.txdb.fresh.readTxIndex hash = some pos →
      pos ≠ .inMemory)
    (hreward : (getProofOfStakeReward nCoinAge nFees : ℤ) ≤ MAX_MONEY)
    (hfund : v.params.extractAddress (fundScript env.F) = fundAddress) {pindex : CBlockIndex}
    {block : CBlock} {t : BlockTotals} (hconnects : Connects v env nFees pindexPrev pindex block t)
    (hstake : block.isProofOfStake) (htx : block.vtx[1]? = some tx)
    (pindexBest : Option CBlockIndex) :
    Bws.connectBlockCheck v.params env.w (v.stakeView env) pindexBest block pindex false = .ok t := by
  obtain ⟨hprev, hbase, hchecked, hconnected, rfl⟩ := hconnects
  obtain ⟨-, hvin, -⟩ := h.blank
  obtain ⟨nBalance, setCoins, -, -, -, hgathered⟩ := h.gathered
  obtain ⟨txBase, vtx, hvtx⟩ : ∃ txBase vtx, block.vtx = txBase :: tx :: vtx := by
    rcases hvtx : block.vtx with _ | ⟨txBase, _ | ⟨tx', vtx⟩⟩
    · rw [hvtx] at htx
      cases htx
    · rw [hvtx] at htx
      cases htx
    · rw [hvtx] at htx
      cases htx
      exact ⟨txBase, vtx, rfl⟩
  have hzero : InInt64 0 := by decide
  have hall := hconnected
  rw [hvtx] at hall
  obtain ⟨t₁, h₁, hall⟩ := connectTxs_cons_eq_ok.1 hall
  obtain ⟨t₂, h₂, -⟩ := connectTxs_cons_eq_ok.1 hall
  obtain ⟨-, -, hstaked⟩ := stakeLocals_of_connectTx h₂ (stakeLocals_of_connectTx h₁ hzero).1
  obtain ⟨vout, hspends, -, -, -⟩ := hstaked (h.isCoinStake hsane)
  have htested : StakeTested v.params env.w (v.stakeView env) block pindex false t tx vout nCoinAge :=
    ⟨hchecked, hconnected, hstake, htx, ⟨txBase, by rw [hvtx]; rfl, t₁, h₁, hspends⟩,
      hprev ▸ h.coinAge hsane⟩
  obtain ⟨-, -, -, hpaid⟩ := htested.nStakeReward_eq
  have hvalue : Bws.totalValue vout = (tx.vin.map fun txin ↦ v.outputValue txin.prevout).sum := by
    refine hsane.totalValue_of_spends (fun hash wtx pos hwtx hpos ↦ ?_) (fun txin hmem ↦ ?_) hspends
    · -- the coinbase of the block adds nothing that the wallet has
      rw [Ledger.pos?_connect (connect_of_connectTx h₁).1] at hpos
      split at hpos
      · rename_i heq
        have hnone := hbase txBase (by rw [hvtx]; rfl)
        rw [show v.params.getHash txBase = hash from heq.symm, hwtx] at hnone
        cases hnone
      · rw [show (BlockTotals.init _).mapQueuedChanges = ∅ from rfl, queued_empty] at hpos
        exact ⟨hdisk hash pos hpos, hpos⟩
    · obtain ⟨txout, hout, -⟩ := hgathered.owner _ (hvin ▸ List.mem_map_of_mem hmem)
      exact ⟨txout, hout⟩
  simp only [Bws.connectBlockCheck, bind_eq_ok]
  refine ⟨(), hchecked, t, hconnected, (), if_pos hstake, (), ?_, rfl⟩
  rw [hpaid, hvalue]
  exact h.checkStakeReward hsane hreward hfund hprev htx

/-- The second output pays to the key of the kernel. -/
theorem Made.paysTo : ∃ txout ∈ tx.vout[1]?, txout.scriptPubKey = kernel.scriptPubKeyOut := by
  obtain ⟨-, -, hvout⟩ := h.blank
  rw [hvout, stakeOutputs]
  split_ifs
  · exact ⟨_, rfl, rfl⟩
  · exact ⟨_, rfl, rfl⟩

end

/-! ## What is made -/

/-- A coinstake of the wallet that `CreateCoinStake` may return: it spends coins of the wallet that
can stake and are not reserved, from a kernel on, and pays to the owner of the kernel what they are
worth and the reward, less the fifth that goes to the fund. -/
structure CoinStaked (v : WalletView) (env : StakeEnv) (nBits : ℕ) (nSearchInterval nFees : ℤ)
    (nTime : ℕ) (pindexPrev : CBlockIndex) (tx : CTransaction) : Prop where
  isCoinStake : tx.isCoinStake
  time : ∃ n : ℕ, n < min nSearchInterval 60 ∧ tx.nTime = timeBefore nTime n
  kernel : ∃ txin ∈ tx.vin[0]?, checkKernel v.params env.w v.node.files
    v.node.txdb.fresh.readTxIndex pindexPrev nBits tx.nTime txin.prevout = true
  few : tx.vin.length ≤ 10
  nodup : (tx.vin.map CTxIn.prevout).Nodup
  stakable : ∀ txin ∈ tx.vin, Stakable v env nTime txin.prevout
  owner : ∃ first ∈ tx.vin[0]?, ∃ paid ∈ tx.vout[1]?, ∃ txout, v.coinOutput first.prevout = some txout ∧
    ∀ txin ∈ tx.vin, ∃ txout', v.coinOutput txin.prevout = some txout' ∧
      (txout'.scriptPubKey = txout.scriptPubKey ∨ txout'.scriptPubKey = paid.scriptPubKey) ∧
      (txin.prevout = first.prevout ∨ txout'.nValue < getStakeCombineThreshold)
  reserve : ∃ nBalance, v.getBalance = .ok nBalance ∧
    (tx.vin.map fun txin ↦ v.outputValue txin.prevout).sum ≤ nBalance - env.nReserveBalance
  reward : ∃ nCoinAge, getCoinAge v.params (v.stakeView env) (some pindexPrev) tx = some nCoinAge ∧
    ((getProofOfStakeReward nCoinAge nFees : ℤ) ≤ MAX_MONEY →
      Bws.totalValue tx.vout = (tx.vin.map fun txin ↦ v.outputValue txin.prevout).sum +
        getProofOfStakeReward nCoinAge nFees ∧
      ⟨(getProofOfStakeReward nCoinAge nFees / 5 : ℕ), fundScript env.F⟩ ∈ tx.vout)
  verified : ∀ k txin, tx.vin[k]? = some txin → ∃ txout, v.coinOutput txin.prevout = some txout ∧
    verifyScript v.solverParams.crypto ⟨tx, k, STANDARD_SCRIPT_VERIFY_FLAGS, 0⟩ txin.scriptSig
      txout.scriptPubKey = true
  small : tx.serializeSize < MAX_BLOCK_SIZE_GEN / 5

theorem Made.coinStaked (hsane : Sane v env)
    (h : Made v env nBits nSearchInterval nFees txNew tx pindexPrev kernel coins nCredit nCoinAge) :
    CoinStaked v env nBits nSearchInterval nFees txNew.nTime pindexPrev tx := by
  obtain ⟨htime, hvin, -⟩ := h.blank
  obtain ⟨scriptSig, rest, hfirst⟩ := h.first
  obtain ⟨nBalance, setCoins, -, -, hstakable, hgathered⟩ := h.gathered
  obtain ⟨nBalance', hbalance, hsum, hreserve⟩ := h.reserve
  have hcoin : ∀ txin ∈ tx.vin, txin.prevout ∈ coins := fun txin hmem ↦
    hvin ▸ List.mem_map_of_mem hmem
  refine ⟨h.isCoinStake hsane, ⟨kernel.n, h.search, htime⟩, ?_, ?_, ?_, ?_, ?_,
    ⟨nBalance', hbalance, hsum ▸ hreserve⟩, ⟨nCoinAge, h.coinAge hsane, fun hreward ↦ ?_⟩, ?_,
    h.small⟩
  · rw [hfirst, htime]
    exact ⟨_, rfl, h.meets⟩
  · rw [← List.length_map (f := CTxIn.prevout), hvin]
    exact hgathered.few
  · rw [hvin]
    exact hgathered.nodup
  · exact fun txin hmem ↦ hstakable _ (hgathered.chosen _ (hcoin txin hmem))
  · obtain ⟨paid, hpaid, hscript⟩ := h.paysTo
    refine ⟨⟨kernel.coin, scriptSig, uintMax⟩, by rw [hfirst]; rfl, paid, hpaid, kernel.txout,
      h.solved.1, fun txin hmem ↦ ?_⟩
    obtain ⟨txout, hout, howner⟩ := hgathered.owner _ (hcoin txin hmem)
    refine ⟨txout, hout, by rwa [hscript], (hgathered.minor _ (hcoin txin hmem)).imp_right ?_⟩
    rw [outputValue, hout]
    exact id
  · rw [hsum]
    exact h.totalValue hsane hreward
  · intro k txin hk
    obtain ⟨hblank, -⟩ := signInputs_keeps h.signed
    have hcoins : coins[k]? = some txin.prevout := by
      rw [← hvin, List.getElem?_map, hk]
      rfl
    have hlen : 0 + k < (kernel.coinStake txNew coins
        (stakeOutputs (int64 (nCredit + (getProofOfStakeReward nCoinAge nFees -
          getProofOfStakeReward nCoinAge nFees / 5 : ℕ))) kernel.scriptPubKeyOut ++
          [⟨int64 (getProofOfStakeReward nCoinAge nFees / 5 : ℕ), fundScript env.F⟩])).vin.length := by
      rw [Nat.zero_add, StakeKernel.coinStake, List.length_map]
      exact (List.getElem?_eq_some_iff.1 hcoins).1
    obtain ⟨txout, txin', hout, hk', hverify⟩ := signInputs_verified h.signed k _ hcoins hlen
    rw [Nat.zero_add] at hk' hverify
    cases hk.symm.trans hk'
    exact ⟨txout, hout, hverify⟩

/-- **The coinstakes of `CreateCoinStake`.** -/
theorem createCoinStake_stakes (hsane : Sane v env) {key : CKey}
    (h : v.createCoinStake env nBits nSearchInterval nFees txNew = .ok (some (tx, key))) :
    ∃ pindexPrev, v.node.pindexBest = some pindexPrev ∧
      CoinStaked v env nBits nSearchInterval nFees txNew.nTime pindexPrev tx := by
  obtain ⟨pindexPrev, kernel, coins, nCredit, nCoinAge, -, hmade⟩ :=
    made_of_createCoinStake hsane.money h
  exact ⟨pindexPrev, hmade.best, hmade.coinStaked hsane⟩

/-! ## The block -/

/-- What the chain asks of scripts and blocks is what their code says, and the address of the fund is
one of this network. -/
structure StakeInterprets (P : Params) (S : SolverParams) (F : AddressFormat) : Prop where
  signature : P.Interprets S.crypto
  checkBlockSignature : ∀ block, P.checkBlockSignature block =
    block.checkBlockSignature S (P.blockHash block.toCBlockHeader)
  extractAddress : ∀ script, P.extractAddress script = fundAddress ↔
    CBitcoinAddress.toString F (CBitcoinAddress.set F
      ((extractDestination S script).getD .noDestination)) = ascii fundAddress
  fund : CBitcoinAddress.isValid F (CBitcoinAddress.setString F (ascii fundAddress)) = true

theorem StakeInterprets.fundScript {P : Params} {S : SolverParams} {F : AddressFormat}
    (h : StakeInterprets P S F) : P.extractAddress (fundScript F) = fundAddress := by
  obtain ⟨hdest, hset⟩ := CBitcoinAddress.set_get h.fund
  rw [h.extractAddress, WalletView.fundScript, extractDestination_setDestination hdest,
    Option.getD_some, hset, CBitcoinAddress.toString_setString h.fund]
  decide +kernel

end WalletView

namespace Sample

/-- A network that asks of scripts and blocks what their code says. -/
def stakeParams : Params :=
  { params with
    verifySignature := verifySignature oneKeyParams.crypto params.getHash
    getSigOpCount := getSigOpCount false
    getSigOpCountP2SH := getSigOpCountP2SH
    isPushOnly := isPushOnly
    extractAddress := fun script ↦
      if CBitcoinAddress.toString addressFormat (CBitcoinAddress.set addressFormat
        ((extractDestination oneKeyParams script).getD .noDestination)) = ascii fundAddress
      then fundAddress else ""
    checkBlockSignature := fun block ↦
      block.checkBlockSignature oneKeyParams (params.blockHash block.toCBlockHeader) }

/-- What is received with it: a small coin of the same owner, and one that anybody may spend. -/
def smallFunds : CTransaction where
  nVersion := 1
  nTime := 501
  vin := [⟨⟨7, 1⟩, [], uintMax⟩]
  vout := [⟨3 * COIN, keyScript⟩, ⟨COIN, [OP_1]⟩]
  nLockTime := 0

def smallCoin : COutPoint := ⟨params.getHash smallFunds, 0⟩

/-- The block of what is received, and the one that is a number of blocks above it. -/
def above : ℕ → CBlockIndex
  | 0 => .root { entryOf 10 (params.getHash lateFunds + params.getHash smallFunds) with nBlockPos := 8 }
  | n + 1 => .child (entryOf (11 + n) 0) (above n)

/-- A node with what is received in its tenth block from above. -/
def stakeNode : NodeState :=
  { NodeState.init with
    files := (BlockFiles.empty.writeToDisk world.nFile
      { genesis with vtx := [lateFunds, smallFunds] }).1
    txdb := ⟨fun
      | .tx hash =>
        if hash = params.getHash lateFunds then some (CTxIndex.mk' ⟨1, 8, 89⟩ 1)
        else if hash = params.getHash smallFunds then some (CTxIndex.mk' ⟨1, 8, 188⟩ 2)
        else none
      | _ => none, none⟩
    mapBlockIndex hash := if hash = 10 then some (above 0) else none
    pnext pindex := if pindex = above 0 then some (above 1) else none
    pindexBest := some (above 10)
    nBestHeight := 10 }

/-- The wallet that has received it. -/
def stakerWallet : WalletView :=
  { late with
    params := stakeParams
    node := stakeNode
    nAdjustedTime := world.nAdjustedTime
    wallet := ⟨fun hash ↦
      if hash = params.getHash lateFunds then
        some { lateEntry with vMerkleBranch := [params.getHash smallFunds] }
      else if hash = params.getHash smallFunds then
        some { lateEntry with
          toCTransaction := smallFunds, vMerkleBranch := [params.getHash lateFunds], nIndex := 1 }
      else none⟩
    hashes := [params.getHash lateFunds, params.getHash smallFunds]
    sorted := by decide
    mem_hashes := fun hash ↦ by
      dsimp only
      split_ifs with h h'
      · simp [h]
      · simp [h']
      · simp [h, h'] }

/-- The two coins are taken from a set in the order of the wallet. -/
noncomputable def stakeEnv : StakeEnv where
  toSendEnv :=
    { plainSend with
      order := fun setCoins ↦
        if setCoins = {lateCoin, smallCoin} then [lateCoin, smallCoin] else setCoins.toList
      order_nodup := fun setCoins ↦ by
        split
        · decide
        · exact setCoins.nodup_toList
      mem_order := fun setCoins coin ↦ by
        split
        · rename_i h
          rw [h, Finset.mem_insert, Finset.mem_singleton, List.mem_pair]
        · exact Finset.mem_toList }
  w := world
  nReserveBalance := 0
  getPubKey _ := keyBytes
  F := addressFormat

theorem mapWallet_staker {hash : UInt256} {wtx : CWalletTx}
    (h : stakerWallet.wallet.mapWallet hash = some wtx) :
    hash = params.getHash lateFunds ∧ wtx.toCTransaction = lateFunds ∨
      hash = params.getHash smallFunds ∧ wtx.toCTransaction = smallFunds := by
  change (if hash = params.getHash lateFunds then _ else if hash = params.getHash smallFunds then _
    else none) = some wtx at h
  split_ifs at h with hlate hsmall
  · cases h
    exact .inl ⟨hlate, rfl⟩
  · cases h
    exact .inr ⟨hsmall, rfl⟩

theorem sane_staker : WalletView.Sane stakerWallet stakeEnv where
  money coin := by
    cases hout : stakerWallet.coinOutput coin with
    | none =>
      rw [WalletView.outputValue, hout]
      exact ⟨le_rfl, by decide⟩
    | some txout =>
      obtain ⟨wtx, hwtx, hvout⟩ := Option.bind_eq_some_iff.1 hout
      have hrange : ∀ txout ∈ lateFunds.vout ++ smallFunds.vout, moneyRange txout.nValue := by decide
      rw [WalletView.outputValue, hout]
      refine hrange txout (List.mem_append.2 ?_)
      obtain ⟨-, htx⟩ | ⟨-, htx⟩ := mapWallet_staker hwtx
      · exact .inl (htx ▸ List.mem_of_getElem? hvout)
      · exact .inr (htx ▸ List.mem_of_getElem? hvout)
  outputs hash wtx hwtx := by
    obtain ⟨-, htx⟩ | ⟨-, htx⟩ := mapWallet_staker hwtx
    · rw [htx]
      decide
    · rw [htx]
      decide
  chain hash wtx txindex txPrev hwtx hindex hread := by
    obtain ⟨rfl, htx⟩ | ⟨rfl, htx⟩ := mapWallet_staker hwtx
    · have hpos : stakeNode.txdb.fresh.readTxIndex (params.getHash lateFunds) =
          some (CTxIndex.mk' ⟨1, 8, 89⟩ 1) := by decide +kernel
      have hfunds : readTxAt world stakeNode.files ⟨1, 8, 89⟩ = some lateFunds := by decide +kernel
      cases hpos.symm.trans hindex
      cases hfunds.symm.trans hread
      exact ⟨htx.symm, rfl⟩
    · have hpos : stakeNode.txdb.fresh.readTxIndex (params.getHash smallFunds) =
          some (CTxIndex.mk' ⟨1, 8, 188⟩ 2) := by decide +kernel
      have hfunds : readTxAt world stakeNode.files ⟨1, 8, 188⟩ = some smallFunds := by decide +kernel
      cases hpos.symm.trans hindex
      cases hfunds.symm.trans hread
      exact ⟨htx.symm, rfl⟩

/-- What the wallet is asked to stake for. -/
def stakeNew : CTransaction := ⟨1, 1000000, [], [], 0⟩

end Sample

namespace WalletView

/-- The small coin is staked with the large one. -/
theorem createCoinStake_stakes_sample : ∃ tx key pindexPrev,
    Sample.stakerWallet.createCoinStake Sample.stakeEnv 0 1 100 Sample.stakeNew =
      .ok (some (tx, key)) ∧
    tx.vin.map CTxIn.prevout = [Sample.lateCoin, Sample.smallCoin] ∧
    CoinStaked Sample.stakerWallet Sample.stakeEnv 0 1 100 1000000 pindexPrev tx := by
  have hmade : ((Sample.stakerWallet.createCoinStake Sample.stakeEnv 0 1 100
      Sample.stakeNew).toOption.bind id).map (fun made ↦ made.1.vin.map CTxIn.prevout) =
        some [Sample.lateCoin, Sample.smallCoin] := by decide +kernel
  cases hcreate : Sample.stakerWallet.createCoinStake Sample.stakeEnv 0 1 100 Sample.stakeNew with
  | error =>
    rw [hcreate] at hmade
    cases hmade
  | ok made =>
    rw [hcreate] at hmade
    obtain ⟨⟨tx, key⟩, rfl, hvin⟩ := Option.map_eq_some_iff.1 hmade
    obtain ⟨pindexPrev, -, hstaked⟩ := createCoinStake_stakes Sample.sane_staker hcreate
    exact ⟨tx, key, pindexPrev, rfl, hvin, hstaked⟩

end WalletView

end Bws
