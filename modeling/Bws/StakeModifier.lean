import Bws.AcceptBlock
import Bws.Lib.Pick

/-!
# The stake modifier

`ComputeNextStakeModifier` sorts the blocks of the selection interval by time and selects up to 64 of
them, one a round; each gives a bit of the new modifier.  A round scans the candidates in order, and its
early exit depends on whether it has found something already.  Over the blocks themselves this is
`Pick.scan`, so that a round never fails while there are candidates left, and what it selects is what
the comment of the source promises (`computeNextStakeModifier_eq`).
-/

namespace Bws

open Chain (Node)
open Chain.Node

/-! ## The source's functions -/

def nModifierInterval : ℤ := 10 * 60
def MODIFIER_INTERVAL_RATIO : ℤ := 3

namespace CBlockIndex

def getStakeEntropyBit (pindex : CBlockIndex) : ℕ := (pindex.val.nFlags &&& BLOCK_STAKE_ENTROPY) >>> 1

def generatedStakeModifier (pindex : CBlockIndex) : Prop :=
  pindex.val.nFlags &&& BLOCK_STAKE_MODIFIER ≠ 0

instance (pindex : CBlockIndex) : Decidable pindex.generatedStakeModifier :=
  inferInstanceAs (Decidable (_ ≠ _))

end CBlockIndex

open CBlockIndex

/-- `GetLastStakeModifier`: the modifier and the time that it was generated at. -/
def getLastStakeModifier : CBlockIndex → Option (UInt256 × ℤ)
  | .root e =>
    if generatedStakeModifier (.root e) then
      some (e.nStakeModifier, getBlockTime (.root e))
    else none -- "no generation at genesis block"
  | .child e p =>
    if generatedStakeModifier (.child e p) then
      some (e.nStakeModifier, getBlockTime (.child e p))
    else getLastStakeModifier p

/-- `GetStakeModifierSelectionIntervalSection` -/
def getStakeModifierSelectionIntervalSection (nSection : ℕ) : ℤ :=
  nModifierInterval * 63 / (63 + (63 - nSection) * ( MODIFIER_INTERVAL_RATIO - 1))

/-- The sum of the sections before one. -/
def selectionInterval (nSection : ℕ) : ℤ :=
  ((List.range nSection).map getStakeModifierSelectionIntervalSection).sum

/-- `GetStakeModifierSelectionInterval` -/
def getStakeModifierSelectionInterval : ℤ := selectionInterval 64

section

variable (P : Params) (mapBlockIndex : UInt256 → Option CBlockIndex)

/-- The selection hash: a proof-of-stake block is always favored over a proof-of-work block. -/
def hashSelection (nStakeModifierPrev : UInt256) (pindex : CBlockIndex) : UInt256 :=
  let hashSelection := P.hashModifier pindex.val.hashProof nStakeModifierPrev
  if pindex.isProofOfStake then hashSelection >>> 32 else hashSelection

/-- The loop of `SelectBlockFromCandidates`, with the best hash and block so far; nothing when a
candidate is not in the block index. -/
def selectFrom (mapSelectedBlocks : List UInt256) (nSelectionIntervalStop : ℤ)
    (nStakeModifierPrev : UInt256) : Option (UInt256 × CBlockIndex) → List (ℤ × UInt256) →
      Option (Option (UInt256 × CBlockIndex))
  | best, [] => some best
  | best, item :: vSortedByTimestamp =>
    match mapBlockIndex item.2 with
    | none => none
    | some pindex =>
      if best.isSome ∧ nSelectionIntervalStop < pindex.getBlockTime then some best
      else if pindex.getBlockHash ∈ mapSelectedBlocks then
        selectFrom mapSelectedBlocks nSelectionIntervalStop nStakeModifierPrev best
          vSortedByTimestamp
      else
        let hash := hashSelection P nStakeModifierPrev pindex
        match best with
        | some (hashBest, pindexBest) =>
          selectFrom mapSelectedBlocks nSelectionIntervalStop nStakeModifierPrev
            (if hash < hashBest then some (hash, pindex) else some (hashBest, pindexBest))
            vSortedByTimestamp
        | none =>
          selectFrom mapSelectedBlocks nSelectionIntervalStop nStakeModifierPrev
            (some (hash, pindex)) vSortedByTimestamp

/-- `SelectBlockFromCandidates`: the block, when one is selected. -/
def selectBlockFromCandidates (vSortedByTimestamp : List (ℤ × UInt256))
    (mapSelectedBlocks : List UInt256) (nSelectionIntervalStop : ℤ) (nStakeModifierPrev : UInt256) :
    Option CBlockIndex :=
  match selectFrom P mapBlockIndex mapSelectedBlocks nSelectionIntervalStop nStakeModifierPrev none
    vSortedByTimestamp with
  | some (some (_, pindex)) => some pindex
  | _ => none

/-- The loop over the rounds, with the number of those that are left. -/
def selectRounds (vSortedByTimestamp : List (ℤ × UInt256)) (nStakeModifier : UInt256) :
    ℕ → ℕ → ℤ → UInt256 → List UInt256 → Option UInt256
  | 0, _, _, nStakeModifierNew, _ => some nStakeModifierNew
  | left + 1, nRound, nSelectionIntervalStop, nStakeModifierNew, mapSelectedBlocks =>
    -- add an interval section to the current selection round
    let nSelectionIntervalStop :=
      nSelectionIntervalStop + getStakeModifierSelectionIntervalSection nRound
    match selectBlockFromCandidates P mapBlockIndex vSortedByTimestamp mapSelectedBlocks
      nSelectionIntervalStop nStakeModifier with
    | none => none
    | some pindex =>
      selectRounds vSortedByTimestamp nStakeModifier left (nRound + 1) nSelectionIntervalStop
        (nStakeModifierNew ||| pindex.getStakeEntropyBit <<< nRound)
        (mapSelectedBlocks ++ [pindex.getBlockHash])

/-- The blocks of the selection interval, from the last one back. -/
def candidates (nSelectionIntervalStart : ℤ) : CBlockIndex → List CBlockIndex
  | .root e =>
    if nSelectionIntervalStart ≤ getBlockTime (.root e) then [.root e] else []
  | .child e p =>
    if nSelectionIntervalStart ≤ getBlockTime (.child e p) then
      .child e p :: candidates nSelectionIntervalStart p
    else []

/-- `make_pair(pindex->GetBlockTime(), pindex->GetBlockHash())` -/
def timeAndHash (pindex : CBlockIndex) : ℤ × UInt256 := (pindex.getBlockTime, pindex.getBlockHash)

/-- The order of `pair<int64_t, uint256>`. -/
def pairLE (a b : ℤ × UInt256) : Prop := a.1 < b.1 ∨ a.1 = b.1 ∧ a.2 ≤ b.2

instance : DecidableRel pairLE := fun _ _ ↦ inferInstanceAs (Decidable (_ ∨ _))

/-- The start of the selection interval after a block. -/
def selectionIntervalStart (pindexPrev : CBlockIndex) : ℤ :=
  pindexPrev.getBlockTime / nModifierInterval * nModifierInterval - getStakeModifierSelectionInterval

/-- `vSortedByTimestamp` -/
def sortedByTimestamp (pindexPrev : CBlockIndex) : List (ℤ × UInt256) :=
  ((candidates (selectionIntervalStart pindexPrev) pindexPrev).map timeAndHash).reverse.insertionSort
    pairLE

/-- `ComputeNextStakeModifier`: the modifier, and whether it was generated. -/
def computeNextStakeModifier : Option CBlockIndex → Option (UInt256 × Bool)
  | none => some (0, true) -- genesis block's modifier is 0
  | some pindexPrev =>
    match getLastStakeModifier pindexPrev with
    | none => none
    | some (nStakeModifier, nModifierTime) =>
      if pindexPrev.getBlockTime / nModifierInterval ≤ nModifierTime / nModifierInterval then
        some (nStakeModifier, false)
      else
        let vSortedByTimestamp := sortedByTimestamp pindexPrev
        (selectRounds P mapBlockIndex vSortedByTimestamp nStakeModifier
          (min 64 vSortedByTimestamp.length) 0 (selectionIntervalStart pindexPrev) 0 []).map
            (·, true)

end

/-! ## What is selected -/

/-- The bits of the selected blocks, from the round `nRound` on. -/
def entropyBits : ℕ → UInt256 → List CBlockIndex → UInt256
  | _, nStakeModifierNew, [] => nStakeModifierNew
  | nRound, nStakeModifierNew, pindex :: selected =>
    entropyBits (nRound + 1) (nStakeModifierNew ||| pindex.getStakeEntropyBit <<< nRound) selected

/-- The choice of one round among the candidates that are not selected yet: the block with the smallest
selection hash of those up to the stop, or the first block when there is none. -/
structure IsChoice (cands : List CBlockIndex) (score : CBlockIndex → UInt256) (stop : ℤ)
    (selected : List CBlockIndex) (b : CBlockIndex) : Prop where
  mem : b ∈ cands
  unselected : b ∉ selected
  smallest : ∀ c ∈ cands, c ∉ selected → c.getBlockTime ≤ stop →
    b.getBlockTime ≤ stop ∧ score b ≤ score c
  first : (∀ c ∈ cands, c ∉ selected → stop < c.getBlockTime) →
    ∀ c ∈ cands, c ∉ selected → pairLE (timeAndHash b) (timeAndHash c)

/-- The choices of all rounds, the interval of the candidates starting at `start`. -/
def Choices (cands : List CBlockIndex) (score : CBlockIndex → UInt256) (start : ℤ)
    (selected : List CBlockIndex) : Prop :=
  ∀ k b, selected[k]? = some b →
    IsChoice cands score (start + selectionInterval (k + 1)) (selected.take k) b

/-- The ancestors of a block are in the block index under their hashes. -/
def Indexed (mapBlockIndex : UInt256 → Option CBlockIndex) (pindexPrev : CBlockIndex) : Prop :=
  ∀ pindex ≤ pindexPrev, mapBlockIndex pindex.getBlockHash = some pindex

section

variable {P : Params} {mapBlockIndex : UInt256 → Option CBlockIndex} {pindexPrev : CBlockIndex}

theorem le_of_mem_candidates {start : ℤ} {c : CBlockIndex} :
    ∀ {b : CBlockIndex}, c ∈ candidates start b → c ≤ b := by
  intro b
  induction b with
  | root e =>
    intro h
    rw [candidates] at h
    split_ifs at h
    · exact (List.mem_singleton.mp h).le
    · exact absurd h List.not_mem_nil
  | child e p ih =>
    intro h
    rw [candidates] at h
    split_ifs at h
    · rcases List.mem_cons.mp h with rfl | h
      · exact le_rfl
      · exact (ih h).trans (parent_lt e p).le
    · exact absurd h List.not_mem_nil

theorem nodup_candidates (start : ℤ) : ∀ b : CBlockIndex, (candidates start b).Nodup := by
  intro b
  induction b with
  | root e =>
    rw [candidates]
    split_ifs
    · exact List.nodup_singleton _
    · exact List.nodup_nil
  | child e p ih =>
    rw [candidates]
    split_ifs
    · refine List.nodup_cons.mpr ⟨fun h ↦ ?_, ih⟩
      exact absurd (le_of_mem_candidates h) (parent_lt e p).not_ge
    · exact List.nodup_nil

/-- Ancestors that are in the block index have different hashes. -/
theorem Indexed.eq_of_hash (h : Indexed mapBlockIndex pindexPrev) {a b : CBlockIndex}
    (ha : a ≤ pindexPrev) (hb : b ≤ pindexPrev) (heq : a.getBlockHash = b.getBlockHash) : a = b := by
  have hfound := (h a ha).symm.trans ((congrArg mapBlockIndex heq).trans (h b hb))
  exact Option.some.inj hfound

theorem pairLE_total (a b : ℤ × UInt256) : pairLE a b ∨ pairLE b a := by
  rcases lt_trichotomy a.1 b.1 with h | h | h
  · exact .inl (.inl h)
  · exact (Nat.le_total a.2 b.2).imp (fun h' ↦ .inr ⟨h, h'⟩) fun h' ↦ .inr ⟨h.symm, h'⟩
  · exact .inr (.inl h)

theorem pairLE_trans {a b c : ℤ × UInt256} (h₁ : pairLE a b) (h₂ : pairLE b c) : pairLE a c := by
  rcases h₁ with h₁ | ⟨h₁, h₁'⟩
  · rcases h₂ with h₂ | ⟨h₂, -⟩
    · exact .inl (h₁.trans h₂)
    · exact .inl (h₁.trans_eq h₂)
  · rcases h₂ with h₂ | ⟨h₂, h₂'⟩
    · exact .inl (h₁.trans_lt h₂)
    · exact .inr ⟨h₁.trans h₂, Nat.le_trans h₁' h₂'⟩

/-- The order of the candidates. -/
def candLE (a b : CBlockIndex) : Prop := pairLE (timeAndHash a) (timeAndHash b)

instance : DecidableRel candLE := fun _ _ ↦ inferInstanceAs (Decidable (pairLE _ _))

instance : Std.Total candLE := ⟨fun _ _ ↦ pairLE_total _ _⟩

instance : IsTrans CBlockIndex candLE := ⟨fun _ _ _ ↦ pairLE_trans⟩

/-- The candidates, sorted. -/
def sortedCandidates (pindexPrev : CBlockIndex) : List CBlockIndex :=
  (candidates (selectionIntervalStart pindexPrev) pindexPrev).reverse.insertionSort candLE

theorem sortedByTimestamp_eq (pindexPrev : CBlockIndex) :
    sortedByTimestamp pindexPrev = (sortedCandidates pindexPrev).map timeAndHash := by
  rw [sortedByTimestamp, ← List.map_reverse, sortedCandidates]
  exact (List.map_insertionSort candLE pairLE timeAndHash _ fun _ _ _ _ ↦ Iff.rfl).symm

theorem perm_sortedCandidates (pindexPrev : CBlockIndex) : (sortedCandidates pindexPrev).Perm
    (candidates (selectionIntervalStart pindexPrev) pindexPrev) :=
  (List.perm_insertionSort _ _).trans (List.reverse_perm _)

theorem pairwise_sortedCandidates (pindexPrev : CBlockIndex) :
    (sortedCandidates pindexPrev).Pairwise candLE := List.pairwise_insertionSort _ _

/-! ## A round -/

/-- What the scan carries along besides the block. -/
def withScore (score : CBlockIndex → UInt256) (b : CBlockIndex) : UInt256 × CBlockIndex := (score b, b)

/-- Over blocks of the index, the loop is a scan. -/
theorem selectFrom_eq {selected : List UInt256} {stop : ℤ} {modifier : UInt256}
    {l : List CBlockIndex} (h : ∀ c ∈ l, mapBlockIndex c.getBlockHash = some c) :
    ∀ best : Option CBlockIndex,
      selectFrom P mapBlockIndex selected stop modifier
          (best.map (withScore (hashSelection P modifier))) (l.map timeAndHash) =
        some ((Pick.scan (fun c ↦ stop < c.getBlockTime) (fun c ↦ c.getBlockHash ∈ selected)
          (hashSelection P modifier) best l).map (withScore (hashSelection P modifier))) := by
  induction l with
  | nil =>
    intro best
    cases best with
    | none => rfl
    | some b => rfl
  | cons c l ih =>
    rw [List.forall_mem_cons] at h
    have ih := ih h.2
    intro best
    have hget : mapBlockIndex (timeAndHash c).2 = some c := h.1
    rw [List.map_cons, selectFrom, hget]
    dsimp only
    cases best with
    | none =>
      rw [Option.map_none, if_neg fun h ↦ Bool.false_ne_true h.1, Pick.scan]
      dsimp only
      split_ifs
      · exact ih none
      · exact ih (some c)
    | some b =>
      rw [Option.map_some, Option.isSome_some, Pick.scan]
      by_cases hlate : stop < c.getBlockTime
      · rw [if_pos ⟨rfl, hlate⟩, if_pos hlate]
        rfl
      · rw [if_neg fun h ↦ hlate h.2, if_neg hlate]
        dsimp only [withScore]
        split_ifs
        · exact ih (some b)
        · exact ih (some c)
        · exact ih (some b)

theorem selectBlockFromCandidates_eq {selected : List UInt256} {stop : ℤ} {modifier : UInt256}
    {l : List CBlockIndex} (h : ∀ c ∈ l, mapBlockIndex c.getBlockHash = some c) :
    selectBlockFromCandidates P mapBlockIndex (l.map timeAndHash) selected stop modifier =
      Pick.scan (fun c ↦ stop < c.getBlockTime) (fun c ↦ c.getBlockHash ∈ selected)
        (hashSelection P modifier) none l := by
  have hselect : selectFrom P mapBlockIndex selected stop modifier none (l.map timeAndHash) = _ :=
    selectFrom_eq h none
  rw [selectBlockFromCandidates, hselect]
  cases hscan : Pick.scan (fun c : CBlockIndex ↦ stop < c.getBlockTime)
    (fun c ↦ c.getBlockHash ∈ selected) (hashSelection P modifier) none l with
  | none => rfl
  | some b => rfl

/-- A round makes its choice as long as not everything is selected. -/
theorem exists_choice (h : Indexed mapBlockIndex pindexPrev) {selected : List CBlockIndex}
    (hsub : ∀ c ∈ selected, c ∈ sortedCandidates pindexPrev)
    (hlen : selected.length < (sortedCandidates pindexPrev).length) (stop : ℤ) (modifier : UInt256) :
    ∃ b, selectBlockFromCandidates P mapBlockIndex (sortedByTimestamp pindexPrev)
        (selected.map getBlockHash) stop modifier = some b ∧
      IsChoice (candidates (selectionIntervalStart pindexPrev) pindexPrev) (hashSelection P modifier)
        stop selected b := by
  have hperm := perm_sortedCandidates pindexPrev
  have hle : ∀ c ∈ sortedCandidates pindexPrev, c ≤ pindexPrev := fun c hc ↦
    le_of_mem_candidates (hperm.mem_iff.mp hc)
  -- a block is selected when its hash is
  have hused : ∀ c ∈ sortedCandidates pindexPrev,
      (c.getBlockHash ∈ selected.map getBlockHash ↔ c ∈ selected) := by
    intro c hc
    refine ⟨fun hmem ↦ ?_, List.mem_map_of_mem⟩
    obtain ⟨c', hc', heq⟩ := List.mem_map.mp hmem
    rwa [← h.eq_of_hash (hle c' (hsub c' hc')) (hle c hc) heq]
  have hunused : ∃ c ∈ sortedCandidates pindexPrev, c.getBlockHash ∉ selected.map getBlockHash := by
    by_contra hall
    push Not at hall
    have hsubset : sortedCandidates pindexPrev ⊆ selected := fun c hc ↦ (hused c hc).mp (hall c hc)
    have hnodup : (sortedCandidates pindexPrev).Nodup := hperm.nodup_iff.mpr (nodup_candidates _ _)
    exact absurd (hnodup.subperm hsubset).length_le (not_le.mpr hlen)
  have hsorted := pairwise_sortedCandidates pindexPrev
  have hlate : (sortedCandidates pindexPrev).Pairwise fun a b ↦
      stop < a.getBlockTime → stop < b.getBlockTime := by
    refine hsorted.imp fun {a b} hab hstop ↦ ?_
    rcases hab with hlt | ⟨heq, -⟩
    · exact hstop.trans hlt
    · exact hstop.trans_eq heq
  obtain ⟨b, hscan, hpick⟩ := Pick.pick_spec (hashSelection P modifier) hlate hunused
  refine ⟨b, ?_, hperm.mem_iff.mp hpick.mem, fun hmem ↦ ?_, fun c hc hnot hstop ↦ ?_,
    fun hall c hc hnot ↦ ?_⟩
  · rw [sortedByTimestamp_eq, selectBlockFromCandidates_eq fun c hc ↦ h c (hle c hc), hscan]
  · exact hpick.unused ((hused b hpick.mem).mpr hmem)
  · have hc' := hperm.mem_iff.mpr hc
    obtain ⟨hin, hscore⟩ := hpick.lowest c hc' (fun h' ↦ hnot ((hused c hc').mp h')) (not_lt.mpr hstop)
    exact ⟨not_lt.mp hin, hscore⟩
  · have hb := hall b (hperm.mem_iff.mp hpick.mem) fun hmem ↦
      hpick.unused ((hused b hpick.mem).mpr hmem)
    obtain ⟨before, after, heq, hbefore⟩ := hpick.first hb
    rw [heq, List.pairwise_append, List.pairwise_cons] at hsorted
    have hc' := hperm.mem_iff.mpr hc
    rw [heq, List.mem_append, List.mem_cons] at hc'
    rcases hc' with hmem | rfl | hmem
    · exact absurd ((hused c (hperm.mem_iff.mpr hc)).mp (hbefore c hmem)) hnot
    · exact (pairLE_total _ _).elim id id
    · exact hsorted.2.1.1 c hmem

/-! ## All rounds -/

theorem selectionInterval_succ (nSection : ℕ) : selectionInterval (nSection + 1) =
    selectionInterval nSection + getStakeModifierSelectionIntervalSection nSection := by
  rw [selectionInterval, List.range_succ, List.map_append, List.sum_append, List.map_singleton,
    List.sum_singleton]
  rfl

/-- The rounds that are left never fail, and each makes its choice. -/
theorem selectRounds_eq (h : Indexed mapBlockIndex pindexPrev) (modifier : UInt256) (start : ℤ) :
    ∀ {left : ℕ} {selected : List CBlockIndex} (nStakeModifierNew : UInt256),
      (∀ c ∈ selected, c ∈ sortedCandidates pindexPrev) →
        selected.length + left ≤ (sortedCandidates pindexPrev).length →
          Choices (candidates (selectionIntervalStart pindexPrev) pindexPrev)
            (hashSelection P modifier) start selected → ∃ more, more.length = left ∧
              Choices (candidates (selectionIntervalStart pindexPrev) pindexPrev)
                (hashSelection P modifier) start (selected ++ more) ∧
              selectRounds P mapBlockIndex (sortedByTimestamp pindexPrev) modifier left
                  selected.length (start + selectionInterval selected.length) nStakeModifierNew
                  (selected.map getBlockHash) =
                some (entropyBits selected.length nStakeModifierNew more) := by
  intro left
  induction left with
  | zero =>
    intro selected nStakeModifierNew _ _ hchoices
    exact ⟨[], rfl, by rwa [List.append_nil], rfl⟩
  | succ left ih =>
    intro selected nStakeModifierNew hsub hlen hchoices
    obtain ⟨b, hselect, hchoice⟩ := exists_choice (P := P) h hsub (by omega)
      (start + selectionInterval (selected.length + 1)) modifier
    have hb : b ∈ sortedCandidates pindexPrev :=
      (perm_sortedCandidates pindexPrev).mem_iff.mpr hchoice.mem
    have hsub' : ∀ c ∈ selected ++ [b], c ∈ sortedCandidates pindexPrev := by
      intro c hc
      rcases List.mem_append.mp hc with hc | hc
      · exact hsub c hc
      · rwa [List.mem_singleton.mp hc]
    have hlen' : (selected ++ [b]).length + left ≤ (sortedCandidates pindexPrev).length := by
      rw [List.length_append, List.length_singleton]
      omega
    have hchoices' : Choices (candidates (selectionIntervalStart pindexPrev) pindexPrev)
        (hashSelection P modifier) start (selected ++ [b]) := by
      intro k c hk
      rcases lt_or_ge k selected.length with hlt | hge
      · rw [List.getElem?_append_left hlt] at hk
        rw [List.take_append_of_le_length hlt.le]
        exact hchoices k c hk
      · rw [List.getElem?_append_right hge] at hk
        obtain ⟨hzero, rfl⟩ : k - selected.length = 0 ∧ b = c := by
          obtain ⟨hlt, heq⟩ := List.getElem?_eq_some_iff.mp hk
          rw [List.length_singleton] at hlt
          exact ⟨by omega, (List.getElem_singleton hlt).symm.trans heq⟩
        obtain rfl : k = selected.length := by omega
        rw [List.take_left]
        exact hchoice
    obtain ⟨more, hmore, hall, hrounds⟩ :=
      ih (nStakeModifierNew ||| b.getStakeEntropyBit <<< selected.length) hsub' hlen' hchoices'
    refine ⟨b :: more, congrArg Nat.succ hmore, by rwa [List.append_assoc] at hall, ?_⟩
    rw [List.length_append, List.length_singleton, List.map_append, List.map_singleton] at hrounds
    rw [selectRounds, add_assoc, ← selectionInterval_succ, hselect]
    dsimp only
    rw [hrounds]
    rfl

/-- Only the ancestors are looked up. -/
theorem selectRounds_congr {mapBlockIndex' : UInt256 → Option CBlockIndex}
    (h : Indexed mapBlockIndex pindexPrev) (h' : Indexed mapBlockIndex' pindexPrev)
    (modifier : UInt256) : ∀ {left nRound : ℕ} {stop : ℤ} {new : UInt256} {selected : List UInt256},
      selectRounds P mapBlockIndex' (sortedByTimestamp pindexPrev) modifier left nRound stop new
          selected =
        selectRounds P mapBlockIndex (sortedByTimestamp pindexPrev) modifier left nRound stop new
          selected := by
  have hle : ∀ c ∈ sortedCandidates pindexPrev, c ≤ pindexPrev := fun c hc ↦
    le_of_mem_candidates ((perm_sortedCandidates pindexPrev).mem_iff.mp hc)
  intro left
  induction left with
  | zero => exact rfl
  | succ left ih =>
    intro nRound stop new selected
    rw [selectRounds, selectRounds, sortedByTimestamp_eq,
      selectBlockFromCandidates_eq fun c hc ↦ h c (hle c hc),
      selectBlockFromCandidates_eq fun c hc ↦ h' c (hle c hc), ← sortedByTimestamp_eq]
    split
    · rfl
    · exact ih

theorem exists_getLastStakeModifier : ∀ {b : CBlockIndex},
    (∀ g ≤ b, g.pprev = none → g.generatedStakeModifier) →
      ∃ r, getLastStakeModifier b = some r := by
  intro b
  induction b with
  | root e => exact fun h ↦ ⟨_, if_pos (h _ le_rfl rfl)⟩
  | child e p ih =>
    intro h
    rw [getLastStakeModifier]
    split_ifs
    · exact ⟨_, rfl⟩
    · exact ih fun g hg ↦ h g (hg.trans (parent_lt e p).le)

/-- With the ancestors in the block index and a modifier at the first block, `ComputeNextStakeModifier`
never fails.  When the modifier is generated anew, it has the bits of as many blocks as there are
candidates, 64 at most, each the choice of its round; and nothing but the ancestors counts. -/
theorem computeNextStakeModifier_eq (P : Params) (h : Indexed mapBlockIndex pindexPrev)
    (hgenesis : ∀ g ≤ pindexPrev, g.pprev = none → g.generatedStakeModifier) :
    ∃ nStakeModifier nModifierTime,
      getLastStakeModifier pindexPrev = some (nStakeModifier, nModifierTime) ∧
      (pindexPrev.getBlockTime / nModifierInterval ≤ nModifierTime / nModifierInterval →
        computeNextStakeModifier P mapBlockIndex (some pindexPrev) = some (nStakeModifier, false)) ∧
      (nModifierTime / nModifierInterval < pindexPrev.getBlockTime / nModifierInterval →
        ∃ selected,
          selected.length =
            min 64 (candidates (selectionIntervalStart pindexPrev) pindexPrev).length ∧
          Choices (candidates (selectionIntervalStart pindexPrev) pindexPrev)
            (hashSelection P nStakeModifier) (selectionIntervalStart pindexPrev) selected ∧
          computeNextStakeModifier P mapBlockIndex (some pindexPrev) =
            some (entropyBits 0 0 selected, true)) ∧
      ∀ mapBlockIndex', Indexed mapBlockIndex' pindexPrev →
        computeNextStakeModifier P mapBlockIndex' (some pindexPrev) =
          computeNextStakeModifier P mapBlockIndex (some pindexPrev) := by
  obtain ⟨⟨nStakeModifier, nModifierTime⟩, hlast⟩ := exists_getLastStakeModifier hgenesis
  have hlen : (sortedByTimestamp pindexPrev).length =
      (candidates (selectionIntervalStart pindexPrev) pindexPrev).length := by
    rw [sortedByTimestamp_eq, List.length_map, (perm_sortedCandidates pindexPrev).length_eq]
  refine ⟨nStakeModifier, nModifierTime, hlast, fun hrecent ↦ ?_, fun hold ↦ ?_, fun map' h' ↦ ?_⟩
  · rw [computeNextStakeModifier, hlast]
    exact if_pos hrecent
  · have hfirst : Choices (candidates (selectionIntervalStart pindexPrev) pindexPrev)
        (hashSelection P nStakeModifier) (selectionIntervalStart pindexPrev) [] := by
      intro k b hk
      rw [List.getElem?_nil] at hk
      cases hk
    have hcount : ([] : List CBlockIndex).length + min 64 (sortedByTimestamp pindexPrev).length ≤
        (sortedCandidates pindexPrev).length := by
      rw [sortedByTimestamp_eq, List.length_map, List.length_nil, zero_add]
      exact Nat.min_le_right _ _
    obtain ⟨selected, hselected, hchoices, hrounds⟩ := selectRounds_eq (P := P) h nStakeModifier
      (selectionIntervalStart pindexPrev) 0 (fun _ hc ↦ absurd hc List.not_mem_nil) hcount hfirst
    refine ⟨selected, by rw [hselected, hlen], hchoices, ?_⟩
    have hzero : selectionInterval 0 = 0 := rfl
    rw [List.length_nil, hzero, add_zero] at hrounds
    rw [computeNextStakeModifier, hlast]
    dsimp only
    rw [if_neg (not_le.mpr hold)]
    exact congrArg (Option.map (·, true)) hrounds
  · rw [computeNextStakeModifier, computeNextStakeModifier, hlast]
    dsimp only
    rw [selectRounds_congr h h']

end

namespace Sample

/-- A first block with a generated modifier. -/
def firstModifier : CBlockIndex :=
  .root { (indexOf .init genesis).val with hash := 1, nFlags := BLOCK_STAKE_MODIFIER, nTime := 0 }

def nextModifier : CBlockIndex :=
  .child { (indexOf .init genesis).val with hash := 2, nFlags := BLOCK_STAKE_ENTROPY, nTime := 700 }
    firstModifier

def stakedBlocks : UInt256 → Option CBlockIndex := fun hash ↦
  if hash = 1 then some firstModifier else if hash = 2 then some nextModifier else none

theorem indexed_stakedBlocks : Indexed stakedBlocks nextModifier := by
  intro pindex hle
  rcases le_child.mp hle with rfl | hle
  · rfl
  · obtain rfl : pindex = firstModifier := hle
    rfl

theorem computeNextStakeModifier_stakedBlocks : ∃ nStakeModifier selected, selected.length = 2 ∧
    Choices (candidates (selectionIntervalStart nextModifier) nextModifier)
      (hashSelection params nStakeModifier) (selectionIntervalStart nextModifier) selected ∧
    computeNextStakeModifier params stakedBlocks (some nextModifier) =
      some (entropyBits 0 0 selected, true) := by
  have hgenesis : ∀ g ≤ nextModifier, g.pprev = none → g.generatedStakeModifier := by
    intro g hle hroot
    rcases le_child.mp hle with rfl | hle
    · cases hroot
    · obtain rfl : g = firstModifier := hle
      decide +kernel
  obtain ⟨nStakeModifier, nModifierTime, hlast, -, hnew, -⟩ :=
    computeNextStakeModifier_eq params indexed_stakedBlocks hgenesis
  have htime : nModifierTime = 0 := by
    have hfirst : (getLastStakeModifier nextModifier).map Prod.snd = some 0 := by decide +kernel
    rw [hlast] at hfirst
    exact Option.some.inj hfirst
  obtain ⟨selected, hlen, hchoices, hcompute⟩ := hnew (by rw [htime]; decide +kernel)
  refine ⟨nStakeModifier, selected, ?_, hchoices, hcompute⟩
  rw [hlen]
  decide +kernel

end Sample

end Bws
