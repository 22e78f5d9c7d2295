import Bws.Balance
import Bws.Lib.Choice
import Mathlib.Data.List.Sort

/-!
# Which coins a payment spends

`SelectCoinsMinConf` goes through the coins in a random order.  It takes a coin of exactly the wanted
value, or all the coins below the target and one cent more, or the lowest coin above, or what
`ApproximateBestSubset` finds at random among the lower ones.

Whatever the random numbers are, the search keeps a best choice that reaches its target and whose value it
knows (`Search.Sound`), so that the selection says truly what it has selected
(`WalletView.selectCoinsMinConf_exact`).
-/

namespace Bws

/-- A coin of the wallet: `hash` is the entry that `tx` points to. -/
structure COutput where
  hash : UInt256
  tx : CWalletTx
  i : ℕ
  nDepth : ℤ
deriving DecidableEq

/-- The pointer and the index. -/
def COutput.outpoint (output : COutput) : COutPoint := ⟨output.hash, output.i⟩

/-- A value, and the coin that has it. -/
abbrev Coin := ℤ × COutPoint

/-- The random choices of a selection, and the order in which `sort` leaves coins of one value. -/
structure Draws where
  shuffle : List COutput → List COutput
  shuffle_perm : ∀ vCoins, (shuffle vCoins).Perm vCoins
  sort : List Coin → List Coin
  sort_perm : ∀ vValue, (sort vValue).Perm vValue
  sort_sorted : ∀ vValue, (sort vValue).Pairwise fun coin coin' ↦ coin'.1 ≤ coin.1
  /-- the bit for the coin `i` in the repetition `nRep` of a search -/
  insecureRand : (search nRep i : ℕ) → Bool

/-! ## ApproximateBestSubset -/

structure Search where
  nTotal : ℤ
  vfIncluded : List Bool
  fReachedTarget : Bool
  nBest : ℤ
  vfBest : List Bool

namespace Search

/-- The coin `i` of value `n` is included, and taken out again when it reaches the target. -/
def includeCoin (nTargetValue : ℤ) (i : ℕ) (n : ℤ) (s : Search) : Search :=
  let nTotal := int64 (s.nTotal + n)
  let vfIncluded := s.vfIncluded.set i true
  if nTargetValue ≤ nTotal then
    { nTotal := int64 (nTotal - n)
      vfIncluded := vfIncluded.set i false
      fReachedTarget := true
      nBest := if nTotal < s.nBest then nTotal else s.nBest
      vfBest := if nTotal < s.nBest then vfIncluded else s.vfBest }
  else { s with nTotal := nTotal, vfIncluded := vfIncluded }

/-- A pass over the coins from `i` on. -/
def pass (nTargetValue : ℤ) (wanted : List Bool → ℕ → Bool) : ℕ → List ℤ → Search → Search
  | _, [], s => s
  | i, n :: values, s =>
    pass nTargetValue wanted (i + 1) values
      (if wanted s.vfIncluded i then s.includeCoin nTargetValue i n else s)

/-- A repetition: coins at random, and where they do not reach the target, the others in their order. -/
def repetition (nTargetValue : ℤ) (values : List ℤ) (bit : ℕ → Bool) (s : Search) : Search :=
  let s := pass nTargetValue (fun _ ↦ bit) 0 values
    { s with
      nTotal := 0
      vfIncluded := List.replicate values.length false
      fReachedTarget := false }
  if s.fReachedTarget then s
  else pass nTargetValue (fun vfIncluded i ↦ !vfIncluded.getD i false) 0 values s

/-- The loop over the repetitions from `nRep` on. -/
def repeatFrom (nTargetValue : ℤ) (values : List ℤ) (bits : ℕ → ℕ → Bool) :
    ℕ → ℕ → Search → Search
  | 0, _, s => s
  | iterations + 1, nRep, s =>
    if s.nBest = nTargetValue then s
    else repeatFrom nTargetValue values bits iterations (nRep + 1)
      (s.repetition nTargetValue values (bits nRep))

end Search

/-- `ApproximateBestSubset` with its 1000 repetitions: `vfBest` and `nBest`. -/
def approximateBestSubset (values : List ℤ) (nTotalLower nTargetValue : ℤ) (bits : ℕ → ℕ → Bool) :
    List Bool × ℤ :=
  let s := Search.repeatFrom nTargetValue values bits 1000 0
    { nTotal := 0
      vfIncluded := []
      fReachedTarget := false
      nBest := nTotalLower
      vfBest := List.replicate values.length true }
  (s.vfBest, s.nBest)

/-- The best choice of lower coins: a second search leaves change of a cent where there is as much. -/
def bestSubset (C : Draws) (values : List ℤ) (nTotalLower nTargetValue : ℤ) : List Bool × ℤ :=
  let best := approximateBestSubset values nTotalLower nTargetValue (C.insecureRand 0)
  if best.2 ≠ nTargetValue ∧ int64 (nTargetValue + CENT) ≤ nTotalLower then
    approximateBestSubset values nTotalLower (int64 (nTargetValue + CENT)) (C.insecureRand 1)
  else best

/-! ## SelectCoinsMinConf -/

/-- `setCoinsRet` and `nValueRet` -/
structure Selection where
  setCoinsRet : Finset COutPoint
  nValueRet : ℤ
deriving DecidableEq

namespace Selection

def empty : Selection := ⟨∅, 0⟩

def add (s : Selection) (coin : Coin) : Selection where
  setCoinsRet := insert coin.2 s.setCoinsRet
  nValueRet := int64 (s.nValueRet + coin.1)

/-- The coins are added one after the other. -/
def addAll (s : Selection) (coins : List Coin) : Selection := coins.foldl add s

end Selection

/-- What the loop over the coins has found. -/
structure Found where
  coinLowestLarger : Option Coin
  vValue : List Coin
  nTotalLower : ℤ

/-- `coinLowestLarger.first`, which starts at the largest number that there is -/
def Found.lowestLarger (s : Found) : ℤ := s.coinLowestLarger.elim (2 ^ 63 - 1) Prod.fst

namespace WalletView

variable (v : WalletView)

section

variable (nTargetValue : ℤ) (nSpendTime : ℕ) (nConfMine nConfTheirs : ℤ)

/-- The loop over the coins, which ends at a coin of the target value. -/
def findCoins : List COutput → Found → Except Fault (Coin ⊕ Found)
  | [], s => .ok (.inr s)
  | output :: vCoins, s => do
    let fFromMe ← v.isFromMe output.tx.toCTransaction
    if output.nDepth < (if fFromMe then nConfMine else nConfTheirs) then findCoins vCoins s
    -- follow the timestamp rules
    else if nSpendTime < output.tx.nTime then findCoins vCoins s
    else
      match output.tx.vout[output.i]? with
      | none => .error (.thrown "vout[i] does not exist")
      | some txout =>
        let coin : Coin := (txout.nValue, output.outpoint)
        if txout.nValue = nTargetValue then .ok (.inl coin)
        else if txout.nValue < int64 (nTargetValue + CENT) then
          findCoins vCoins
            { s with
              vValue := s.vValue ++ [coin]
              nTotalLower := int64 (s.nTotalLower + txout.nValue) }
        else if txout.nValue < s.lowestLarger then
          findCoins vCoins { s with coinLowestLarger := some coin }
        else findCoins vCoins s

/-- The choice between the lower coins and the lowest larger one. -/
def bestOf (C : Draws) (s : Found) : Selection :=
  let vValue := C.sort s.vValue
  let best := bestSubset C (vValue.map Prod.fst) s.nTotalLower nTargetValue
  let subset := Selection.empty.addAll (Choice.pick vValue best.1)
  match s.coinLowestLarger with
  | none => subset
  | some coin =>
    -- the approximation has found no good solution, or the next bigger coin is closer
    if (best.2 ≠ nTargetValue ∧ best.2 < int64 (nTargetValue + CENT)) ∨ coin.1 ≤ best.2 then
      Selection.empty.add coin
    else subset

def selectCoinsMinConf (C : Draws) (vCoins : List COutput) : Except Fault (Bool × Selection) := do
  match ← v.findCoins nTargetValue nSpendTime nConfMine nConfTheirs (C.shuffle vCoins) ⟨none, [], 0⟩ with
  | .inl coin => .ok (true, Selection.empty.add coin)
  | .inr s =>
    if s.nTotalLower = nTargetValue then .ok (true, Selection.empty.addAll s.vValue)
    else if s.nTotalLower < nTargetValue then
      match s.coinLowestLarger with
      | none => .ok (false, .empty)
      | some coin => .ok (true, Selection.empty.add coin)
    else .ok (true, bestOf nTargetValue C s)

end

end WalletView

/-! ## What the search keeps -/

namespace Search

/-- The values are not negative, and their sum is an `int64_t`. -/
structure Fits (values : List ℤ) : Prop where
  nonneg : ∀ n ∈ values, 0 ≤ n
  lt : values.sum < 2 ^ 63

/-- The running total is that of the included coins. -/
structure Running (values : List ℤ) (s : Search) : Prop where
  length : s.vfIncluded.length = values.length
  nTotal : s.nTotal = (Choice.pick values s.vfIncluded).sum

/-- The best total is that of the best choice, and reaches the target. -/
structure Sound (values : List ℤ) (nTargetValue : ℤ) (s : Search) : Prop where
  nBest : s.nBest = (Choice.pick values s.vfBest).sum
  reaches : nTargetValue ≤ s.nBest

variable {values : List ℤ} {nTargetValue : ℤ} {s : Search}

theorem Fits.int64_pick (h : Fits values) (fs : List Bool) :
    int64 (Choice.pick values fs).sum = (Choice.pick values fs).sum := by
  obtain ⟨h₁, h₂⟩ := Choice.sum_pick_le h.nonneg fs
  have hlt := h.lt
  exact int64_eq ⟨by omega, by omega⟩

/-- A coin that is not included yet is tried. -/
theorem includeCoin_spec (hfits : Fits values) (hrun : s.Running values)
    (hsound : s.Sound values nTargetValue) {i : ℕ} {n : ℤ} (hn : values[i]? = some n)
    (hfree : s.vfIncluded[i]? = some false) :
    (s.includeCoin nTargetValue i n).Running values ∧
      (s.includeCoin nTargetValue i n).Sound values nTargetValue ∧
      ∀ j, j ≠ i → (s.includeCoin nTargetValue i n).vfIncluded[j]? = s.vfIncluded[j]? := by
  have hsum := Choice.sum_pick_set hn hfree
  have htotal : int64 (s.nTotal + n) = (Choice.pick values (s.vfIncluded.set i true)).sum := by
    rw [hrun.nTotal, ← hsum, hfits.int64_pick]
  have hback : s.vfIncluded.set i false = s.vfIncluded := by
    refine List.ext_getElem? fun j ↦ ?_
    by_cases hj : i = j
    · subst hj
      obtain ⟨hlen, -⟩ := List.getElem?_eq_some_iff.mp hfree
      rw [List.getElem?_set_self hlen, hfree]
    · rw [List.getElem?_set_ne hj]
  unfold includeCoin
  dsimp only
  rw [htotal]
  split_ifs with hreached hbetter
  · refine ⟨⟨?_, ?_⟩, ⟨rfl, hreached⟩, fun j hj ↦ ?_⟩
    · simp [hrun.length]
    · rw [List.set_set, hback, hsum, add_sub_cancel_right, hfits.int64_pick]
    · rw [List.set_set, hback]
  · refine ⟨⟨?_, ?_⟩, ⟨hsound.nBest, hsound.reaches⟩, fun j hj ↦ ?_⟩
    · simp [hrun.length]
    · rw [List.set_set, hback, hsum, add_sub_cancel_right, hfits.int64_pick]
    · rw [List.set_set, hback]
  · refine ⟨⟨by simp [hrun.length], rfl⟩, ⟨hsound.nBest, hsound.reaches⟩, fun j hj ↦ ?_⟩
    rw [List.getElem?_set_ne (Ne.symm hj)]

/-- A pass that wants only coins that are not included. -/
theorem pass_spec (hfits : Fits values) (wanted : List Bool → ℕ → Bool)
    (hlocal : ∀ fs fs' j, fs[j]? = fs'[j]? → wanted fs j = wanted fs' j) (rest : List ℤ) :
    ∀ {i : ℕ} {s : Search}, values.drop i = rest → s.Running values → s.Sound values nTargetValue →
      (∀ j, i ≤ j → j < values.length → wanted s.vfIncluded j = true →
        s.vfIncluded[j]? = some false) →
      (s.pass nTargetValue wanted i rest).Running values ∧
        (s.pass nTargetValue wanted i rest).Sound values nTargetValue := by
  induction rest with
  | nil => exact fun _ hrun hsound _ ↦ ⟨hrun, hsound⟩
  | cons n rest ih =>
    intro i s hdrop hrun hsound hfree
    have hn : values[i]? = some n := by
      rw [← List.head?_drop, hdrop, List.head?_cons]
    obtain ⟨hlen, -⟩ := List.getElem?_eq_some_iff.mp hn
    have hdrop' : values.drop (i + 1) = rest := by
      rw [← List.tail_drop, hdrop, List.tail_cons]
    rw [pass]
    by_cases hwanted : wanted s.vfIncluded i = true
    · obtain ⟨hrun', hsound', hframe⟩ :=
        includeCoin_spec hfits hrun hsound hn (hfree i le_rfl hlen hwanted)
      rw [if_pos hwanted]
      refine ih hdrop' hrun' hsound' fun j hij hj hw ↦ ?_
      -- the flags from the next coin on are as they were
      have hsame := hframe j (by omega)
      rw [hsame]
      rw [hlocal _ _ j hsame] at hw
      exact hfree j (by omega) hj hw
    · rw [if_neg hwanted]
      exact ih hdrop' hrun hsound fun j hij ↦ hfree j (by omega)

theorem repetition_spec (hfits : Fits values) (bit : ℕ → Bool)
    (hsound : s.Sound values nTargetValue) :
    (s.repetition nTargetValue values bit).Sound values nTargetValue := by
  obtain ⟨hrun, hsound'⟩ := pass_spec hfits (fun _ ↦ bit) (fun _ _ _ _ ↦ rfl) values
    (i := 0)
    (s := { s with
      nTotal := 0
      vfIncluded := List.replicate values.length false
      fReachedTarget := false })
    rfl ⟨by simp, by rw [Choice.pick_replicate_false, List.sum_nil]⟩
    ⟨hsound.nBest, hsound.reaches⟩ (fun j _ hj _ ↦ by simp [hj])
  unfold repetition
  dsimp only
  split
  · exact hsound'
  · refine (pass_spec hfits _ ?_ values (i := 0) rfl hrun hsound' ?_).2
    · intro fs fs' j hsame
      rw [List.getD_eq_getElem?_getD, hsame, ← List.getD_eq_getElem?_getD]
    · intro j _ hj hwanted
      rw [← hrun.length] at hj
      rw [List.getD_eq_getElem?_getD, List.getElem?_eq_getElem hj, Option.getD_some,
        Bool.not_eq_true'] at hwanted
      rw [List.getElem?_eq_getElem hj, hwanted]

theorem repeatFrom_spec (hfits : Fits values) (bits : ℕ → ℕ → Bool) (iterations : ℕ) :
    ∀ (nRep : ℕ) {s : Search}, s.Sound values nTargetValue →
      (s.repeatFrom nTargetValue values bits iterations nRep).Sound values nTargetValue := by
  induction iterations with
  | zero => exact fun _ _ hsound ↦ hsound
  | succ iterations ih =>
    intro nRep s hsound
    rw [repeatFrom]
    split
    · exact hsound
    · exact ih (nRep + 1) (repetition_spec hfits _ hsound)

end Search

/-- The search finds a choice that reaches the target, and its value. -/
theorem approximateBestSubset_spec {values : List ℤ} (hfits : Search.Fits values)
    {nTargetValue : ℤ} (hreach : nTargetValue ≤ values.sum) (bits : ℕ → ℕ → Bool) :
    let best := approximateBestSubset values values.sum nTargetValue bits
    best.2 = (Choice.pick values best.1).sum ∧ nTargetValue ≤ best.2 := by
  have hsound := Search.repeatFrom_spec hfits bits 1000 0
    (s := { nTotal := 0
            vfIncluded := []
            fReachedTarget := false
            nBest := values.sum
            vfBest := List.replicate values.length true })
    ⟨by rw [Choice.pick_replicate_true], hreach⟩
  exact ⟨hsound.nBest, hsound.reaches⟩

/-! ## What the loop over the coins finds -/

def COutput.nValue (output : COutput) : ℤ := (output.tx.vout[output.i]?.map CTxOut.nValue).getD 0

def COutput.coin (output : COutput) : Coin := (output.nValue, output.outpoint)

namespace WalletView

variable (v : WalletView)

section

variable (nTargetValue : ℤ) (nSpendTime : ℕ) (nConfMine nConfTheirs : ℤ)

/-- Deep enough, and not newer than the spend time. -/
def eligible (output : COutput) : Bool :=
  match v.isFromMe output.tx.toCTransaction with
  | .error _ => false
  | .ok fFromMe =>
    (if fFromMe then nConfMine else nConfTheirs) ≤ output.nDepth ∧ output.tx.nTime ≤ nSpendTime

/-- What the eligible coins are worth. -/
def eligibleValue (vCoins : List COutput) : ℤ :=
  ((vCoins.filter (v.eligible nSpendTime nConfMine nConfTheirs)).map COutput.nValue).sum

/-- The eligible coins that are not larger. -/
def lowerCoins (vCoins : List COutput) : List COutput :=
  vCoins.filter fun output ↦ v.eligible nSpendTime nConfMine nConfTheirs output &&
    decide (output.nValue < nTargetValue + CENT)

end

end WalletView

/-- The round for an eligible coin of another value than the target. -/
def Found.next (nTargetValue : ℤ) (output : COutput) (s : Found) : Found :=
  if output.nValue < int64 (nTargetValue + CENT) then
    { s with
      vValue := s.vValue ++ [output.coin]
      nTotalLower := int64 (s.nTotalLower + output.nValue) }
  else if output.nValue < s.lowestLarger then { s with coinLowestLarger := some output.coin }
  else s

theorem Found.nTotalLower_next (nTargetValue : ℤ) (output : COutput) (s : Found) :
    (s.next nTargetValue output).nTotalLower =
      if output.nValue < int64 (nTargetValue + CENT) then int64 (s.nTotalLower + output.nValue)
      else s.nTotalLower := by
  unfold Found.next
  split_ifs <;> rfl

namespace WalletView

variable {v : WalletView} {nTargetValue : ℤ} {nSpendTime : ℕ} {nConfMine nConfTheirs : ℤ}

theorem findCoins_cons {output : COutput} {vCoins : List COutput} {s : Found} {r : Coin ⊕ Found}
    (h : v.findCoins nTargetValue nSpendTime nConfMine nConfTheirs (output :: vCoins) s = .ok r) :
    v.eligible nSpendTime nConfMine nConfTheirs output = false ∧
        v.findCoins nTargetValue nSpendTime nConfMine nConfTheirs vCoins s = .ok r ∨
      v.eligible nSpendTime nConfMine nConfTheirs output = true ∧
        (output.nValue = nTargetValue ∧ r = .inl output.coin ∨ output.nValue ≠ nTargetValue ∧
          v.findCoins nTargetValue nSpendTime nConfMine nConfTheirs vCoins
            (s.next nTargetValue output) = .ok r) := by
  unfold findCoins at h
  unfold eligible
  cases hfrom : v.isFromMe output.tx.toCTransaction with
  | error e =>
    rw [hfrom] at h
    cases h
  | ok fFromMe =>
    rw [hfrom] at h
    simp only [bind, Except.bind] at h
    dsimp only
    generalize hconf : (if fFromMe = true then nConfMine else nConfTheirs) = nConf at h ⊢
    split_ifs at h with hdepth htime
    · exact .inl ⟨decide_eq_false fun helig ↦ not_le.mpr hdepth helig.1, h⟩
    · exact .inl ⟨decide_eq_false fun helig ↦ not_le.mpr htime helig.2, h⟩
    · have helig : decide (nConf ≤ output.nDepth ∧ output.tx.nTime ≤ nSpendTime) = true :=
        decide_eq_true ⟨not_lt.mp hdepth, not_lt.mp htime⟩
      refine .inr ⟨helig, ?_⟩
      cases hout : output.tx.vout[output.i]? with
      | none =>
        rw [hout] at h
        cases h
      | some txout =>
        have hvalue : output.nValue = txout.nValue := by
          rw [COutput.nValue, hout, Option.map_some, Option.getD_some]
        rw [hout] at h
        dsimp only at h
        rw [← hvalue] at h
        unfold Found.next
        split_ifs at h with hexact hlower hlowest
        · cases h
          exact .inl ⟨hexact, rfl⟩
        · exact .inr ⟨hexact, by rw [if_pos hlower]; exact h⟩
        · exact .inr ⟨hexact, by rw [if_neg hlower, if_pos hlowest]; exact h⟩
        · exact .inr ⟨hexact, by rw [if_neg hlower, if_neg hlowest]; exact h⟩

/-- What the loop over the coins adds to what has been found before. -/
structure Scanned (v : WalletView) (nTargetValue : ℤ) (nSpendTime : ℕ) (nConfMine nConfTheirs : ℤ)
    (vCoins : List COutput) (s s' : Found) : Prop where
  vValue : s'.vValue = s.vValue ++
    (v.lowerCoins nTargetValue nSpendTime nConfMine nConfTheirs vCoins).map COutput.coin
  nTotalLower : s'.nTotalLower = s.nTotalLower +
    ((v.lowerCoins nTargetValue nSpendTime nConfMine nConfTheirs vCoins).map COutput.nValue).sum
  larger : ∀ coin, s'.coinLowestLarger = some coin → s.coinLowestLarger = some coin ∨
    ∃ output ∈ vCoins, v.eligible nSpendTime nConfMine nConfTheirs output = true ∧
      nTargetValue + CENT ≤ output.nValue ∧ coin = output.coin
  noLarger : s'.coinLowestLarger = none → s.coinLowestLarger = none ∧
    ∀ output ∈ vCoins, v.eligible nSpendTime nConfMine nConfTheirs output = true →
      output.nValue < nTargetValue + CENT

theorem eligibleValue_cons (output : COutput) (vCoins : List COutput) :
    v.eligibleValue nSpendTime nConfMine nConfTheirs (output :: vCoins) =
      (if v.eligible nSpendTime nConfMine nConfTheirs output then output.nValue else 0) +
        v.eligibleValue nSpendTime nConfMine nConfTheirs vCoins := by
  unfold eligibleValue
  by_cases h : v.eligible nSpendTime nConfMine nConfTheirs output = true
  · rw [List.filter_cons_of_pos h, if_pos h, List.map_cons, List.sum_cons]
  · rw [List.filter_cons_of_neg h, if_neg h, zero_add]

variable (v nSpendTime nConfMine nConfTheirs) in
theorem eligibleValue_nonneg {vCoins : List COutput} (h : ∀ output ∈ vCoins, 0 ≤ output.nValue) :
    0 ≤ v.eligibleValue nSpendTime nConfMine nConfTheirs vCoins := by
  refine List.sum_nonneg fun n hn ↦ ?_
  obtain ⟨output, hout, rfl⟩ := List.mem_map.mp hn
  exact h output (List.mem_of_mem_filter hout)

/-- A coin that is not eligible changes nothing. -/
theorem Scanned.skip {output : COutput} {vCoins : List COutput} {s s' : Found}
    (h : Scanned v nTargetValue nSpendTime nConfMine nConfTheirs vCoins s s')
    (helig : v.eligible nSpendTime nConfMine nConfTheirs output = false) :
    Scanned v nTargetValue nSpendTime nConfMine nConfTheirs (output :: vCoins) s s' := by
  have hlower : v.lowerCoins nTargetValue nSpendTime nConfMine nConfTheirs (output :: vCoins) =
      v.lowerCoins nTargetValue nSpendTime nConfMine nConfTheirs vCoins :=
    List.filter_cons_of_neg (by simp [helig])
  refine ⟨by rw [hlower, h.vValue], by rw [hlower, h.nTotalLower], ?_, ?_⟩
  · intro coin hcoin
    refine (h.larger coin hcoin).imp_right ?_
    rintro ⟨output', hmem, hrest⟩
    exact ⟨output', List.mem_cons_of_mem _ hmem, hrest⟩
  · intro hnone
    obtain ⟨hnone', hall⟩ := h.noLarger hnone
    refine ⟨hnone', List.forall_mem_cons.mpr ⟨fun helig' ↦ ?_, hall⟩⟩
    rw [helig] at helig'
    cases helig'

/-- A lower coin is added to the lower ones. -/
theorem Scanned.lower {output : COutput} {vCoins : List COutput} {s s₁ s' : Found}
    (h : Scanned v nTargetValue nSpendTime nConfMine nConfTheirs vCoins s₁ s')
    (helig : v.eligible nSpendTime nConfMine nConfTheirs output = true)
    (hlt : output.nValue < nTargetValue + CENT)
    (hvValue : s₁.vValue = s.vValue ++ [output.coin])
    (htotal : s₁.nTotalLower = s.nTotalLower + output.nValue)
    (hlarger : s₁.coinLowestLarger = s.coinLowestLarger) :
    Scanned v nTargetValue nSpendTime nConfMine nConfTheirs (output :: vCoins) s s' := by
  have hlower : v.lowerCoins nTargetValue nSpendTime nConfMine nConfTheirs (output :: vCoins) =
      output :: v.lowerCoins nTargetValue nSpendTime nConfMine nConfTheirs vCoins :=
    List.filter_cons_of_pos (by simp [helig, hlt])
  refine ⟨?_, ?_, ?_, ?_⟩
  · rw [h.vValue, hvValue, hlower, List.map_cons, List.append_assoc, List.singleton_append]
  · rw [h.nTotalLower, htotal, hlower, List.map_cons, List.sum_cons, add_assoc]
  · intro coin hcoin
    rw [← hlarger]
    refine (h.larger coin hcoin).imp_right ?_
    rintro ⟨output', hmem, hrest⟩
    exact ⟨output', List.mem_cons_of_mem _ hmem, hrest⟩
  · intro hnone
    obtain ⟨hnone', hall⟩ := h.noLarger hnone
    exact ⟨hlarger ▸ hnone', List.forall_mem_cons.mpr ⟨fun _ ↦ hlt, hall⟩⟩

/-- A larger coin may become the lowest larger one, and leaves one. -/
theorem Scanned.notLower {output : COutput} {vCoins : List COutput} {s s₁ s' : Found}
    (h : Scanned v nTargetValue nSpendTime nConfMine nConfTheirs vCoins s₁ s')
    (helig : v.eligible nSpendTime nConfMine nConfTheirs output = true)
    (hle : nTargetValue + CENT ≤ output.nValue) (hvValue : s₁.vValue = s.vValue)
    (htotal : s₁.nTotalLower = s.nTotalLower)
    (hlarger : s₁.coinLowestLarger = some output.coin ∨
      s₁.coinLowestLarger = s.coinLowestLarger ∧ s.coinLowestLarger ≠ none) :
    Scanned v nTargetValue nSpendTime nConfMine nConfTheirs (output :: vCoins) s s' := by
  have hlower : v.lowerCoins nTargetValue nSpendTime nConfMine nConfTheirs (output :: vCoins) =
      v.lowerCoins nTargetValue nSpendTime nConfMine nConfTheirs vCoins :=
    List.filter_cons_of_neg (by simpa using fun _ ↦ hle)
  refine ⟨by rw [hlower, h.vValue, hvValue], by rw [hlower, h.nTotalLower, htotal], ?_, ?_⟩
  · intro coin hcoin
    rcases h.larger coin hcoin with hcoin | ⟨output', hmem, hrest⟩
    · rcases hlarger with hnew | ⟨hold, -⟩
      · rw [hnew] at hcoin
        cases hcoin
        exact .inr ⟨output, List.mem_cons_self, helig, hle, rfl⟩
      · exact .inl (hold ▸ hcoin)
    · exact .inr ⟨output', List.mem_cons_of_mem _ hmem, hrest⟩
  · intro hnone
    obtain ⟨hnone', -⟩ := h.noLarger hnone
    rcases hlarger with hnew | ⟨hold, hsome⟩
    · rw [hnew] at hnone'
      cases hnone'
    · exact absurd (hold ▸ hnone') hsome

/-- What the loop ends with: a coin of the target value, or all that it has seen. -/
theorem findCoins_spec (htarget : int64 (nTargetValue + CENT) = nTargetValue + CENT)
    {vCoins : List COutput} : ∀ {s : Found} {r : Coin ⊕ Found},
      (∀ output ∈ vCoins, 0 ≤ output.nValue) → 0 ≤ s.nTotalLower →
      s.nTotalLower + v.eligibleValue nSpendTime nConfMine nConfTheirs vCoins < 2 ^ 63 - 1 →
      v.findCoins nTargetValue nSpendTime nConfMine nConfTheirs vCoins s = .ok r →
      (∃ output ∈ vCoins, v.eligible nSpendTime nConfMine nConfTheirs output = true ∧
        output.nValue = nTargetValue ∧ r = .inl output.coin) ∨
      ∃ s', r = .inr s' ∧
        Scanned v nTargetValue nSpendTime nConfMine nConfTheirs vCoins s s' := by
  induction vCoins with
  | nil =>
    intro s r _ _ _ h
    cases h
    refine .inr ⟨s, rfl, ?_, ?_, fun _ ↦ .inl, fun hnone ↦ ⟨hnone, nofun⟩⟩
    · simp [lowerCoins]
    · simp [lowerCoins]
  | cons output vCoins ih =>
    intro s r hnonneg hlo hfit h
    obtain ⟨hvalue, hnonneg⟩ := List.forall_mem_cons.mp hnonneg
    have hrest := eligibleValue_nonneg v nSpendTime nConfMine nConfTheirs hnonneg
    rw [eligibleValue_cons] at hfit
    rcases findCoins_cons h with ⟨helig, h⟩ | ⟨helig, ⟨hexact, rfl⟩ | ⟨-, h⟩⟩
    · rw [helig, if_neg Bool.false_ne_true, zero_add] at hfit
      rcases ih hnonneg hlo hfit h with ⟨output', hmem, hfound⟩ | ⟨s', hr, hscan⟩
      · exact .inl ⟨output', List.mem_cons_of_mem _ hmem, hfound⟩
      · exact .inr ⟨s', hr, hscan.skip helig⟩
    · exact .inl ⟨output, List.mem_cons_self, helig, hexact, rfl⟩
    · rw [if_pos helig] at hfit
      have htotal : int64 (s.nTotalLower + output.nValue) = s.nTotalLower + output.nValue :=
        int64_eq ⟨by omega, by omega⟩
      have hnext := s.nTotalLower_next nTargetValue output
      rw [htotal] at hnext
      have hlo' : 0 ≤ (s.next nTargetValue output).nTotalLower := by
        rw [hnext]
        split_ifs <;> omega
      have hfit' : (s.next nTargetValue output).nTotalLower +
          v.eligibleValue nSpendTime nConfMine nConfTheirs vCoins < 2 ^ 63 - 1 := by
        rw [hnext]
        split_ifs <;> omega
      rcases ih hnonneg hlo' hfit' h with ⟨output', hmem, hfound⟩ | ⟨s', hr, hscan⟩
      · exact .inl ⟨output', List.mem_cons_of_mem _ hmem, hfound⟩
      · refine .inr ⟨s', hr, ?_⟩
        unfold Found.next at hscan
        rw [htarget] at hscan
        split_ifs at hscan with hlower hlowest
        · exact hscan.lower helig hlower rfl htotal rfl
        · exact hscan.notLower helig (not_lt.mp hlower) rfl rfl (.inl rfl)
        · refine hscan.notLower helig (not_lt.mp hlower) rfl rfl (.inr ⟨rfl, fun hnone ↦ ?_⟩)
          rw [Found.lowestLarger, hnone] at hlowest
          change ¬ output.nValue < 2 ^ 63 - 1 at hlowest
          omega

/-! ## What is selected -/

/-- The coins are eligible ones of the list, each is selected once, and their values are added up. -/
structure Selects (v : WalletView) (nSpendTime : ℕ) (nConfMine nConfTheirs : ℤ)
    (vCoins : List COutput) (sel : Selection) (coins : List Coin) : Prop where
  eligible : ∀ coin ∈ coins, ∃ output ∈ vCoins,
    v.eligible nSpendTime nConfMine nConfTheirs output = true ∧ coin = output.coin
  once : (coins.map Prod.snd).Nodup
  setCoinsRet : sel.setCoinsRet = (coins.map Prod.snd).toFinset
  nValueRet : sel.nValueRet = (coins.map Prod.fst).sum

/-- A call that returns answers `false` exactly when the eligible coins are worth less than the target,
and otherwise has selected coins for the target. -/
def SelectsExactly (v : WalletView) (C : Draws) (nTargetValue : ℤ) (nSpendTime : ℕ)
    (nConfMine nConfTheirs : ℤ) (vCoins : List COutput) : Prop :=
  ∀ fSelected sel,
    v.selectCoinsMinConf nTargetValue nSpendTime nConfMine nConfTheirs C vCoins =
      .ok (fSelected, sel) →
    (fSelected = false ↔ v.eligibleValue nSpendTime nConfMine nConfTheirs vCoins < nTargetValue) ∧
    (fSelected = true → nTargetValue ≤ sel.nValueRet ∧
      ∃ coins, Selects v nSpendTime nConfMine nConfTheirs vCoins sel coins)

/-- The coins are different ones, no value is negative, and neither the sum of the eligible ones nor the
target with a cent is too large for an `int64_t`. -/
structure Ordinary (v : WalletView) (nTargetValue : ℤ) (nSpendTime : ℕ) (nConfMine nConfTheirs : ℤ)
    (vCoins : List COutput) : Prop where
  nodup : (vCoins.map COutput.outpoint).Nodup
  nonneg : ∀ output ∈ vCoins, 0 ≤ output.nValue
  total : v.eligibleValue nSpendTime nConfMine nConfTheirs vCoins < 2 ^ 63 - 1
  target : -2 ^ 63 ≤ nTargetValue ∧ nTargetValue + CENT < 2 ^ 63

end WalletView

theorem Selection.setCoinsRet_addAll (coins : List Coin) : ∀ s : Selection,
    (s.addAll coins).setCoinsRet = s.setCoinsRet ∪ (coins.map Prod.snd).toFinset := by
  induction coins with
  | nil => simp [addAll]
  | cons coin coins ih =>
    intro s
    have h := ih (s.add coin)
    rw [addAll, List.foldl_cons, ← addAll, h]
    simp [add]

theorem Selection.nValueRet_addAll (coins : List Coin) : ∀ {s : Selection}, 0 ≤ s.nValueRet →
    (∀ coin ∈ coins, 0 ≤ coin.1) → s.nValueRet + (coins.map Prod.fst).sum < 2 ^ 63 →
    (s.addAll coins).nValueRet = s.nValueRet + (coins.map Prod.fst).sum := by
  induction coins with
  | nil => simp [addAll]
  | cons coin coins ih =>
    intro s hlo hnonneg hfit
    obtain ⟨hvalue, hnonneg⟩ := List.forall_mem_cons.mp hnonneg
    have hrest : 0 ≤ (coins.map Prod.fst).sum := List.sum_nonneg fun n hn ↦ by
      obtain ⟨coin', hmem, rfl⟩ := List.mem_map.mp hn
      exact hnonneg coin' hmem
    rw [List.map_cons, List.sum_cons] at hfit ⊢
    have hadd : (s.add coin).nValueRet = s.nValueRet + coin.1 := int64_eq ⟨by omega, by omega⟩
    have h := ih (s := s.add coin) (by omega) hnonneg (by omega)
    rw [addAll, List.foldl_cons, ← addAll, h, hadd, add_assoc]

namespace WalletView

variable {v : WalletView} {nTargetValue : ℤ} {nSpendTime : ℕ} {nConfMine nConfTheirs : ℤ}

theorem Selects.addAll {vCoins : List COutput} {coins : List Coin}
    (heligible : ∀ coin ∈ coins, ∃ output ∈ vCoins,
      v.eligible nSpendTime nConfMine nConfTheirs output = true ∧ coin = output.coin)
    (honce : (coins.map Prod.snd).Nodup) (hnonneg : ∀ output ∈ vCoins, 0 ≤ output.nValue)
    (hfit : (coins.map Prod.fst).sum < 2 ^ 63) :
    Selects v nSpendTime nConfMine nConfTheirs vCoins (Selection.empty.addAll coins) coins where
  eligible := heligible
  once := honce
  setCoinsRet := by
    rw [Selection.setCoinsRet_addAll]
    exact Finset.empty_union _
  nValueRet := by
    have hvalues : ∀ coin ∈ coins, 0 ≤ coin.1 := by
      intro coin hmem
      obtain ⟨output, hout, -, rfl⟩ := heligible coin hmem
      exact hnonneg output hout
    have hzero : Selection.empty.nValueRet = 0 := rfl
    rw [Selection.nValueRet_addAll coins (by rw [hzero]) hvalues (by rwa [hzero, zero_add]), hzero,
      zero_add]

theorem Selects.perm {vCoins vCoins' : List COutput} {sel : Selection} {coins : List Coin}
    (h : Selects v nSpendTime nConfMine nConfTheirs vCoins sel coins) (hperm : vCoins.Perm vCoins') :
    Selects v nSpendTime nConfMine nConfTheirs vCoins' sel coins where
  eligible := by
    intro coin hmem
    obtain ⟨output, hout, hrest⟩ := h.eligible coin hmem
    exact ⟨output, hperm.mem_iff.mp hout, hrest⟩
  once := h.once
  setCoinsRet := h.setCoinsRet
  nValueRet := h.nValueRet

variable (v nSpendTime nConfMine nConfTheirs) in
theorem eligibleValue_perm {vCoins vCoins' : List COutput} (h : vCoins.Perm vCoins') :
    v.eligibleValue nSpendTime nConfMine nConfTheirs vCoins =
      v.eligibleValue nSpendTime nConfMine nConfTheirs vCoins' :=
  ((h.filter _).map _).sum_eq

/-- Eligible coins, each once, are worth at most all of them. -/
theorem sum_le_eligibleValue {vCoins : List COutput} (hnonneg : ∀ output ∈ vCoins, 0 ≤ output.nValue)
    {coins : List Coin} (honce : (coins.map Prod.snd).Nodup)
    (heligible : ∀ coin ∈ coins, ∃ output ∈ vCoins,
      v.eligible nSpendTime nConfMine nConfTheirs output = true ∧ coin = output.coin) :
    (coins.map Prod.fst).sum ≤ v.eligibleValue nSpendTime nConfMine nConfTheirs vCoins := by
  have hsub : coins ⊆ (vCoins.filter (v.eligible nSpendTime nConfMine nConfTheirs)).map
      COutput.coin := by
    intro coin hmem
    obtain ⟨output, hout, helig, rfl⟩ := heligible coin hmem
    exact List.mem_map_of_mem (List.mem_filter.mpr ⟨hout, helig⟩)
  obtain ⟨coins', hperm, hsublist⟩ := List.subperm_of_subset (List.Nodup.of_map _ honce) hsub
  rw [← (hperm.map Prod.fst).sum_eq]
  have hvalues : ((vCoins.filter (v.eligible nSpendTime nConfMine nConfTheirs)).map
      COutput.coin).map Prod.fst =
      (vCoins.filter (v.eligible nSpendTime nConfMine nConfTheirs)).map COutput.nValue := by
    rw [List.map_map]
    rfl
  have hle := (hsublist.map Prod.fst).sum_le_sum
  rw [hvalues] at hle
  refine hle fun n hn ↦ ?_
  obtain ⟨output, hmem, rfl⟩ := List.mem_map.mp hn
  exact hnonneg output (List.mem_of_mem_filter hmem)

/-- Where no eligible coin is larger, the lower coins are all of them. -/
theorem lowerValue_eq {vCoins : List COutput}
    (h : ∀ output ∈ vCoins, v.eligible nSpendTime nConfMine nConfTheirs output = true →
      output.nValue < nTargetValue + CENT) :
    ((v.lowerCoins nTargetValue nSpendTime nConfMine nConfTheirs vCoins).map COutput.nValue).sum =
      v.eligibleValue nSpendTime nConfMine nConfTheirs vCoins := by
  rw [lowerCoins, eligibleValue, List.filter_congr fun output hmem ↦ ?_]
  cases helig : v.eligible nSpendTime nConfMine nConfTheirs output with
  | false => rfl
  | true =>
    rw [Bool.true_and]
    exact decide_eq_true (h output hmem helig)

/-- Eligible coins for the target, each once, are selected. -/
theorem Selects.of_reach {vCoins : List COutput} {coins : List Coin}
    (heligible : ∀ coin ∈ coins, ∃ output ∈ vCoins,
      v.eligible nSpendTime nConfMine nConfTheirs output = true ∧ coin = output.coin)
    (honce : (coins.map Prod.snd).Nodup) (hnonneg : ∀ output ∈ vCoins, 0 ≤ output.nValue)
    (hfit : v.eligibleValue nSpendTime nConfMine nConfTheirs vCoins < 2 ^ 63 - 1)
    (hreach : nTargetValue ≤ (coins.map Prod.fst).sum) :
    nTargetValue ≤ v.eligibleValue nSpendTime nConfMine nConfTheirs vCoins ∧
      nTargetValue ≤ (Selection.empty.addAll coins).nValueRet ∧
      Selects v nSpendTime nConfMine nConfTheirs vCoins (Selection.empty.addAll coins) coins := by
  have hle := sum_le_eligibleValue hnonneg honce heligible
  have hselects := Selects.addAll heligible honce hnonneg (by omega)
  refine ⟨hreach.trans hle, ?_, hselects⟩
  rw [hselects.nValueRet]
  exact hreach

/-! ## The end of the loop -/

section

variable {vCoins : List COutput} {s : Found}

theorem Scanned.vValue_start
    (h : Scanned v nTargetValue nSpendTime nConfMine nConfTheirs vCoins ⟨none, [], 0⟩ s) :
    s.vValue =
      (v.lowerCoins nTargetValue nSpendTime nConfMine nConfTheirs vCoins).map COutput.coin := by
  rw [h.vValue, List.nil_append]

/-- The lower coins are eligible ones. -/
theorem Scanned.eligible_lower
    (h : Scanned v nTargetValue nSpendTime nConfMine nConfTheirs vCoins ⟨none, [], 0⟩ s) :
    ∀ coin ∈ s.vValue, ∃ output ∈ vCoins,
      v.eligible nSpendTime nConfMine nConfTheirs output = true ∧ coin = output.coin := by
  intro coin hcoin
  rw [h.vValue_start] at hcoin
  obtain ⟨output, hmem, rfl⟩ := List.mem_map.mp hcoin
  obtain ⟨hmem, hand⟩ := List.mem_filter.mp hmem
  exact ⟨output, hmem, (Bool.and_eq_true_iff.mp hand).1, rfl⟩

theorem Scanned.nodup_lower
    (h : Scanned v nTargetValue nSpendTime nConfMine nConfTheirs vCoins ⟨none, [], 0⟩ s)
    (hnodup : (vCoins.map COutput.outpoint).Nodup) : (s.vValue.map Prod.snd).Nodup := by
  rw [h.vValue_start, List.map_map]
  exact hnodup.sublist (List.filter_sublist.map COutput.outpoint)

theorem Scanned.nTotalLower_start
    (h : Scanned v nTargetValue nSpendTime nConfMine nConfTheirs vCoins ⟨none, [], 0⟩ s) :
    s.nTotalLower = (s.vValue.map Prod.fst).sum := by
  rw [h.nTotalLower, h.vValue_start, List.map_map, zero_add]
  rfl

/-- Without a larger coin, all the eligible ones have been added up. -/
theorem Scanned.nTotalLower_of_none
    (h : Scanned v nTargetValue nSpendTime nConfMine nConfTheirs vCoins ⟨none, [], 0⟩ s)
    (hnone : s.coinLowestLarger = none) :
    s.nTotalLower = v.eligibleValue nSpendTime nConfMine nConfTheirs vCoins := by
  rw [h.nTotalLower, zero_add]
  exact lowerValue_eq (h.noLarger hnone).2

end

/-! ## The choice -/

theorem bestSubset_spec (C : Draws) (htarget : int64 (nTargetValue + CENT) = nTargetValue + CENT)
    {values : List ℤ} (hfits : Search.Fits values) (hreach : nTargetValue ≤ values.sum) :
    (bestSubset C values values.sum nTargetValue).2 =
        (Choice.pick values (bestSubset C values values.sum nTargetValue).1).sum ∧
      nTargetValue ≤ (bestSubset C values values.sum nTargetValue).2 := by
  have hcent : 0 ≤ CENT := by decide
  unfold bestSubset
  dsimp only
  rw [htarget]
  split_ifs with hsecond
  · obtain ⟨hvalue, hle⟩ := approximateBestSubset_spec hfits hsecond.2 (C.insecureRand 1)
    exact ⟨hvalue, by omega⟩
  · exact approximateBestSubset_spec hfits hreach (C.insecureRand 0)

/-- The choice at the end is the larger coin, or lower coins for the target. -/
theorem bestOf_spec (C : Draws) {s : Found}
    (htarget : int64 (nTargetValue + CENT) = nTargetValue + CENT)
    (hnodup : (s.vValue.map Prod.snd).Nodup) (hnonneg : ∀ coin ∈ s.vValue, 0 ≤ coin.1)
    (htotal : s.nTotalLower = (s.vValue.map Prod.fst).sum) (hfit : s.nTotalLower < 2 ^ 63)
    (hreach : nTargetValue ≤ s.nTotalLower)
    (hlarger : ∀ coin, s.coinLowestLarger = some coin → nTargetValue + CENT ≤ coin.1) :
    ∃ coins, bestOf nTargetValue C s = Selection.empty.addAll coins ∧
      nTargetValue ≤ (coins.map Prod.fst).sum ∧
      (∀ coin ∈ coins, coin ∈ s.vValue ∨ s.coinLowestLarger = some coin) ∧
      (coins.map Prod.snd).Nodup := by
  have hcent : 0 ≤ CENT := by decide
  have hperm := C.sort_perm s.vValue
  have hsum : s.nTotalLower = ((C.sort s.vValue).map Prod.fst).sum := by
    rw [htotal]
    exact (hperm.map Prod.fst).sum_eq.symm
  have hfits : Search.Fits ((C.sort s.vValue).map Prod.fst) := by
    refine ⟨fun n hn ↦ ?_, hsum ▸ hfit⟩
    obtain ⟨coin, hmem, rfl⟩ := List.mem_map.mp hn
    exact hnonneg coin (hperm.mem_iff.mp hmem)
  rw [hsum] at hreach
  obtain ⟨hvalue, hle⟩ := bestSubset_spec C htarget hfits hreach
  rw [← hsum] at hvalue hle
  unfold bestOf
  dsimp only
  generalize bestSubset C ((C.sort s.vValue).map Prod.fst) s.nTotalLower nTargetValue = best at *
  have hsubset : ∃ coins, Selection.empty.addAll (Choice.pick (C.sort s.vValue) best.1) =
      Selection.empty.addAll coins ∧ nTargetValue ≤ (coins.map Prod.fst).sum ∧
      (∀ coin ∈ coins, coin ∈ s.vValue ∨ s.coinLowestLarger = some coin) ∧
      (coins.map Prod.snd).Nodup := by
    have hpick := Choice.pick_sublist (C.sort s.vValue) best.1
    refine ⟨_, rfl, ?_, fun coin hmem ↦ .inl (hperm.mem_iff.mp (hpick.subset hmem)), ?_⟩
    · rw [← Choice.pick_map, ← hvalue]
      exact hle
    · exact ((hperm.map Prod.snd).nodup_iff.mpr hnodup).sublist (hpick.map Prod.snd)
  cases hcoin : s.coinLowestLarger with
  | none =>
    rw [hcoin] at hsubset
    exact hsubset
  | some coin =>
    dsimp only
    split_ifs
    · refine ⟨[coin], rfl, ?_, ?_, List.nodup_singleton _⟩
      · have hge := hlarger coin hcoin
        rw [List.map_singleton, List.sum_singleton]
        omega
      · intro coin' hmem
        rw [List.mem_singleton.mp hmem]
        exact .inr rfl
    · rw [hcoin] at hsubset
      exact hsubset

/-- The loop and the end of it. -/
theorem selectsExactly_of_ordinary (C : Draws) {vCoins : List COutput}
    (h : Ordinary v nTargetValue nSpendTime nConfMine nConfTheirs vCoins) :
    SelectsExactly v C nTargetValue nSpendTime nConfMine nConfTheirs vCoins := by
  have hcent : 0 ≤ CENT := by decide
  have htarget : int64 (nTargetValue + CENT) = nTargetValue + CENT :=
    int64_eq ⟨by have := h.target.1; omega, h.target.2⟩
  have hperm := C.shuffle_perm vCoins
  have htotal := eligibleValue_perm v nSpendTime nConfMine nConfTheirs hperm
  have hnonneg : ∀ output ∈ C.shuffle vCoins, 0 ≤ output.nValue :=
    fun output hmem ↦ h.nonneg output (hperm.mem_iff.mp hmem)
  have hfit := h.total
  rw [← htotal] at hfit
  intro fSelected sel hok
  unfold selectCoinsMinConf at hok
  cases hfind : v.findCoins nTargetValue nSpendTime nConfMine nConfTheirs (C.shuffle vCoins)
      ⟨none, [], 0⟩ with
  | error e =>
    rw [hfind] at hok
    cases hok
  | ok r =>
    rw [hfind] at hok
    simp only [bind, Except.bind] at hok
    -- coins for the target have been selected
    have hselect : ∀ coins : List Coin, (∀ coin ∈ coins, ∃ output ∈ C.shuffle vCoins,
        v.eligible nSpendTime nConfMine nConfTheirs output = true ∧ coin = output.coin) →
        (coins.map Prod.snd).Nodup → nTargetValue ≤ (coins.map Prod.fst).sum →
        fSelected = true → sel = Selection.empty.addAll coins →
        (fSelected = false ↔
          v.eligibleValue nSpendTime nConfMine nConfTheirs vCoins < nTargetValue) ∧
        (fSelected = true → nTargetValue ≤ sel.nValueRet ∧
          ∃ coins, Selects v nSpendTime nConfMine nConfTheirs vCoins sel coins) := by
      rintro coins heligible honce hreach rfl rfl
      obtain ⟨hle, hvalue, hselects⟩ := Selects.of_reach heligible honce hnonneg hfit hreach
      rw [htotal] at hle
      exact ⟨⟨nofun, fun hlt ↦ absurd hle (not_le.mpr hlt)⟩,
        fun _ ↦ ⟨hvalue, coins, hselects.perm hperm⟩⟩
    -- one of them is enough
    have hselectOne : ∀ output ∈ C.shuffle vCoins,
        v.eligible nSpendTime nConfMine nConfTheirs output = true → nTargetValue ≤ output.nValue →
        fSelected = true → sel = Selection.empty.addAll [output.coin] →
        (fSelected = false ↔
          v.eligibleValue nSpendTime nConfMine nConfTheirs vCoins < nTargetValue) ∧
        (fSelected = true → nTargetValue ≤ sel.nValueRet ∧
          ∃ coins, Selects v nSpendTime nConfMine nConfTheirs vCoins sel coins) := by
      intro output hmem helig hge
      refine hselect [output.coin] (fun coin hcoin ↦ ?_) (List.nodup_singleton _) ?_
      · exact ⟨output, hmem, helig, List.mem_singleton.mp hcoin⟩
      · rw [List.map_singleton, List.sum_singleton]
        exact hge
    have hempty : (0 : ℤ) + v.eligibleValue nSpendTime nConfMine nConfTheirs (C.shuffle vCoins) <
        2 ^ 63 - 1 := by rwa [zero_add]
    rcases findCoins_spec htarget hnonneg le_rfl hempty hfind with
      ⟨output, hmem, helig, hexact, rfl⟩ | ⟨s, rfl, hscan⟩
    · cases hok
      exact hselectOne output hmem helig hexact.ge rfl rfl
    · have hlarger : ∀ coin, s.coinLowestLarger = some coin → ∃ output ∈ C.shuffle vCoins,
          v.eligible nSpendTime nConfMine nConfTheirs output = true ∧
            nTargetValue + CENT ≤ output.nValue ∧ coin = output.coin :=
        fun coin hcoin ↦ (hscan.larger coin hcoin).resolve_left nofun
      have heligible := hscan.eligible_lower
      have honce := hscan.nodup_lower ((hperm.map COutput.outpoint).nodup_iff.mpr h.nodup)
      have hsum := hscan.nTotalLower_start
      have hle := sum_le_eligibleValue hnonneg honce heligible
      rw [← hsum] at hle
      dsimp only at hok
      split_ifs at hok with hexact hless
      · cases hok
        exact hselect s.vValue heligible honce (by rw [← hsum, hexact]) rfl rfl
      · cases hcoin : s.coinLowestLarger with
        | none =>
          rw [hcoin] at hok
          cases hok
          rw [hscan.nTotalLower_of_none hcoin, htotal] at hless
          exact ⟨⟨fun _ ↦ hless, fun _ ↦ rfl⟩, nofun⟩
        | some coin =>
          rw [hcoin] at hok
          cases hok
          obtain ⟨output, hmem, helig, hge, rfl⟩ := hlarger coin hcoin
          exact hselectOne output hmem helig (by omega) rfl rfl
      · cases hok
        obtain ⟨coins, hbest, hreach, hfrom, hnodup⟩ := bestOf_spec C htarget honce
          (by
            intro coin hcoin
            obtain ⟨output, hmem, -, rfl⟩ := heligible coin hcoin
            exact hnonneg output hmem)
          hsum (by omega) (not_lt.mp hless)
          (by
            intro coin hcoin
            obtain ⟨output, -, -, hge, rfl⟩ := hlarger coin hcoin
            exact hge)
        refine hselect coins ?_ hnodup hreach rfl hbest
        intro coin hcoin
        rcases hfrom coin hcoin with hcoin | hcoin
        · exact heligible coin hcoin
        · obtain ⟨output, hmem, helig, -, rfl⟩ := hlarger coin hcoin
          exact ⟨output, hmem, helig, rfl⟩

theorem findCoins_ok {vCoins : List COutput}
    (h : ∀ output ∈ vCoins, (∃ fFromMe, v.isFromMe output.tx.toCTransaction = .ok fFromMe) ∧
      output.i < output.tx.vout.length) :
    ∀ s, ∃ r, v.findCoins nTargetValue nSpendTime nConfMine nConfTheirs vCoins s = .ok r := by
  induction vCoins with
  | nil => exact fun s ↦ ⟨.inr s, rfl⟩
  | cons output vCoins ih =>
    intro s
    obtain ⟨⟨⟨fFromMe, hfrom⟩, hlen⟩, hrest⟩ := List.forall_mem_cons.mp h
    have hnext := ih hrest
    rw [findCoins, hfrom]
    simp only [bind, Except.bind]
    rw [List.getElem?_eq_getElem hlen]
    dsimp only
    generalize (if fFromMe = true then nConfMine else nConfTheirs) = nConf
    split_ifs
    · exact hnext _
    · exact hnext _
    · exact ⟨_, rfl⟩
    · exact hnext _
    · exact hnext _
    · exact hnext _

/-- The selection of different coins in range is exact, whatever is drawn, and returns unless it throws
where it reads a coin. -/
theorem selectCoinsMinConf_exact (C : Draws) {vCoins : List COutput}
    (h : Ordinary v nTargetValue nSpendTime nConfMine nConfTheirs vCoins) :
    SelectsExactly v C nTargetValue nSpendTime nConfMine nConfTheirs vCoins ∧
      ((∀ output ∈ vCoins, (∃ fFromMe, v.isFromMe output.tx.toCTransaction = .ok fFromMe) ∧
        output.i < output.tx.vout.length) →
        ∃ fSelected sel, v.selectCoinsMinConf nTargetValue nSpendTime nConfMine nConfTheirs C vCoins =
          .ok (fSelected, sel)) := by
  refine ⟨selectsExactly_of_ordinary C h, fun hread ↦ ?_⟩
  have hread' : ∀ output ∈ C.shuffle vCoins,
      (∃ fFromMe, v.isFromMe output.tx.toCTransaction = .ok fFromMe) ∧
        output.i < output.tx.vout.length :=
    fun output hmem ↦ hread output ((C.shuffle_perm vCoins).mem_iff.mp hmem)
  obtain ⟨r, hfind⟩ := findCoins_ok hread' ⟨none, [], 0⟩
  rw [selectCoinsMinConf, hfind]
  simp only [bind, Except.bind]
  rcases r with coin | s
  · exact ⟨true, _, rfl⟩
  · dsimp only
    split_ifs
    · exact ⟨true, _, rfl⟩
    · cases s.coinLowestLarger with
      | none => exact ⟨false, _, rfl⟩
      | some coin => exact ⟨true, _, rfl⟩
    · exact ⟨true, _, rfl⟩

end WalletView

namespace Sample

/-- The coins are not shuffled, and no coin is drawn in a first pass. -/
def noDraws : Draws where
  shuffle vCoins := vCoins
  shuffle_perm _ := .refl _
  sort := List.insertionSort fun coin coin' ↦ coin'.1 ≤ coin.1
  sort_perm vValue := List.perm_insertionSort _ vValue
  sort_sorted vValue := by
    have : Std.Total fun coin coin' : Coin ↦ coin'.1 ≤ coin.1 := ⟨fun coin coin' ↦ le_total _ _⟩
    have : IsTrans Coin fun coin coin' ↦ coin'.1 ≤ coin.1 := ⟨fun _ _ _ h h' ↦ h'.trans h⟩
    exact List.pairwise_insertionSort _ vValue
  insecureRand _ _ _ := false

/-- A coin that is ten blocks deep. -/
def coinOf (hash : UInt256) (nValue : ℤ) : COutput where
  hash := hash
  tx := CTransaction.toWalletTx
    { nVersion := 1
      nTime := 0
      vin := []
      vout := [⟨nValue, []⟩]
      nLockTime := 0 }
  i := 0
  nDepth := 10

/-- What is selected of some coins. -/
def select (nTargetValue : ℤ) (vCoins : List COutput) : Option (Bool × Selection) :=
  ((staking true).selectCoinsMinConf nTargetValue 100 1 6 noDraws vCoins).toOption

/-- Whether a selection of some coins is exact. -/
def Exact (nTargetValue : ℤ) (vCoins : List COutput) : Prop :=
  (staking true).SelectsExactly noDraws nTargetValue 100 1 6 vCoins

theorem Exact.of_select {nTargetValue : ℤ} {vCoins : List COutput} {fSelected : Bool} {sel : Selection}
    (h : Exact nTargetValue vCoins) (hselect : select nTargetValue vCoins = some (fSelected, sel)) :
    (fSelected = false ↔ (staking true).eligibleValue 100 1 6 vCoins < nTargetValue) ∧
    (fSelected = true → nTargetValue ≤ sel.nValueRet ∧
      ∃ coins, WalletView.Selects (staking true) 100 1 6 vCoins sel coins) := by
  refine h fSelected sel ?_
  unfold select at hselect
  cases hrun : (staking true).selectCoinsMinConf nTargetValue 100 1 6 noDraws vCoins with
  | error e =>
    rw [hrun] at hselect
    cases hselect
  | ok r =>
    rw [hrun] at hselect
    cases hselect
    rfl

/-- A coin that is twice in the list is counted twice. -/
theorem not_exact_twice : ¬ Exact 2 [coinOf 1 1, coinOf 1 1] := by
  intro h
  have hselect : select 2 [coinOf 1 1, coinOf 1 1] = some (true, ⟨{⟨1, 0⟩}, 2⟩) := by decide +kernel
  obtain ⟨-, coins, hcoins⟩ := (h.of_select hselect).2 rfl
  have hlength : coins.length = 1 := by
    rw [← List.length_map Prod.snd, ← List.toFinset_card_of_nodup hcoins.once, ← hcoins.setCoinsRet]
    rfl
  obtain ⟨coin, rfl⟩ := List.length_eq_one_iff.mp hlength
  obtain ⟨output, hmem, -, rfl⟩ := hcoins.eligible coin List.mem_cons_self
  have hvalue := hcoins.nValueRet
  simp only [List.mem_cons, List.not_mem_nil, or_false, or_self] at hmem
  subst hmem
  exact absurd hvalue (by decide +kernel)

/-- A coin of negative value is not made up for by a larger one. -/
theorem not_exact_negative : ¬ Exact 3 [coinOf 1 (-COIN), coinOf 2 (3 * CENT)] := by
  intro h
  have hselect : select 3 [coinOf 1 (-COIN), coinOf 2 (3 * CENT)] =
      some (true, ⟨{⟨2, 0⟩}, 3 * CENT⟩) := by decide +kernel
  have hvalue : (staking true).eligibleValue 100 1 6 [coinOf 1 (-COIN), coinOf 2 (3 * CENT)] < 3 := by
    decide +kernel
  cases (h.of_select hselect).1.mpr hvalue

/-- A coin of the largest value is not found. -/
theorem not_exact_largest : ¬ Exact 1 [coinOf 1 (2 ^ 63 - 1)] := by
  intro h
  have hselect : select 1 [coinOf 1 (2 ^ 63 - 1)] = some (false, .empty) := by decide +kernel
  have hvalue : ¬ (staking true).eligibleValue 100 1 6 [coinOf 1 (2 ^ 63 - 1)] < 1 := by
    decide +kernel
  exact hvalue ((h.of_select hselect).1.mp rfl)

/-- A cent more than the target is out of range. -/
theorem not_exact_target : ¬ Exact (2 ^ 63 - 2) [coinOf 1 (2 ^ 62), coinOf 2 (2 ^ 62 - 2)] := by
  intro h
  have hselect : select (2 ^ 63 - 2) [coinOf 1 (2 ^ 62), coinOf 2 (2 ^ 62 - 2)] =
      some (true, ⟨{⟨2, 0⟩}, 2 ^ 62 - 2⟩) := by decide +kernel
  have hreach := ((h.of_select hselect).2 rfl).1
  change (2 ^ 63 - 2 : ℤ) ≤ 2 ^ 62 - 2 at hreach
  omega

end Sample

namespace WalletView

theorem selectCoinsMinConf_exact_sample : ∃ sel,
    (Sample.staking true).selectCoinsMinConf 2 100 1 6 Sample.noDraws
      [Sample.coinOf 1 1, Sample.coinOf 2 1] = .ok (true, sel) := by
  have hordinary : Ordinary (Sample.staking true) 2 100 1 6 [Sample.coinOf 1 1, Sample.coinOf 2 1] :=
    ⟨by decide, by decide +kernel, by decide +kernel, by decide⟩
  obtain ⟨hexact, hreturns⟩ := selectCoinsMinConf_exact Sample.noDraws hordinary
  obtain ⟨fSelected, sel, hok⟩ := hreturns (by
    have h : ∀ output ∈ [Sample.coinOf 1 1, Sample.coinOf 2 1],
        ((Sample.staking true).isFromMe output.tx.toCTransaction).isOk ∧
          output.i < output.tx.vout.length := by decide +kernel
    exact fun output hmem ↦ ⟨eq_ok_of_isOk (h output hmem).1, (h output hmem).2⟩)
  obtain ⟨hfalse, -⟩ := hexact fSelected sel hok
  cases fSelected with
  | false =>
    have hvalue := hfalse.mp rfl
    exact absurd hvalue (by decide +kernel)
  | true => exact ⟨sel, hok⟩

/-- Coins that are in the list twice, negative values, values of 2^63-1 and targets near it break it. -/
theorem not_selectsExactly : ¬ Sample.Exact 2 [Sample.coinOf 1 1, Sample.coinOf 1 1] ∧
    ¬ Sample.Exact 3 [Sample.coinOf 1 (-COIN), Sample.coinOf 2 (3 * CENT)] ∧
    ¬ Sample.Exact 1 [Sample.coinOf 1 (2 ^ 63 - 1)] ∧
    ¬ Sample.Exact (2 ^ 63 - 2) [Sample.coinOf 1 (2 ^ 62), Sample.coinOf 2 (2 ^ 62 - 2)] :=
  ⟨Sample.not_exact_twice, Sample.not_exact_negative, Sample.not_exact_largest,
    Sample.not_exact_target⟩

end WalletView

end Bws
