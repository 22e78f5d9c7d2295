import Bws.AddrMan
import Bws.Lib.Median
import Mathlib.Data.Finset.Basic
import Mathlib.Data.Finset.Insert
import Mathlib.Data.Finset.Card

/-!
# The time of other nodes

`AddTimeData` counts one sample for each address, for at most 200 addresses, and after every second
one sets `nTimeOffset` to the median of the samples and zero, or to zero if the median is 70 minutes
or more away.  Its median filter holds at most 200 elements, so that the last update is after 198
samples.  The bound goes through `abs64`, which gives back the least `int64_t` as it is: so far
away the time can be set when more than half of the samples are that number
(`timeOffsetSound_iff`).
-/

namespace Bws

/-! ## The source -/

structure CMedianFilter (T : Type) where
  vValues : List T
  vSorted : List T
  nSize : ℕ

namespace CMedianFilter

variable {T : Type}

/-- `CMedianFilter(size, initial_value)` -/
def mk' (size : ℕ) (initial_value : T) : CMedianFilter T where
  vValues := [initial_value]
  vSorted := [initial_value]
  nSize := size

def input [LE T] [DecidableLE T] (f : CMedianFilter T) (value : T) : CMedianFilter T :=
  let vValues := if f.vValues.length = f.nSize then f.vValues.tail else f.vValues
  let vValues := vValues ++ [value]
  { f with vValues, vSorted := vValues.insertionSort fun a b ↦ a ≤ b }

/-- `median`; none if the filter is empty, where an assertion fails -/
def median [Add T] [Div T] [OfNat T 2] (f : CMedianFilter T) : Option T :=
  let size := f.vSorted.length
  if size % 2 = 1 then f.vSorted[size / 2]?
  else do
    let a ← f.vSorted[size / 2 - 1]?
    let b ← f.vSorted[size / 2]?
    some ((a + b) / 2)

def size (f : CMedianFilter T) : ℕ := f.vValues.length

end CMedianFilter

def abs64 (n : Int64) : Int64 := if 0 ≤ n then n else -n

def BITCOIN_TIMEDATA_MAX_SAMPLES : ℕ := 200

/-- What `AddTimeData` keeps from the samples. -/
structure TimeOffsets where
  vTimeOffsets : CMedianFilter Int64
  nTimeOffset : Int64
  fDone : Bool
  strMiscWarning : String

structure TimeData extends TimeOffsets where
  setKnown : Finset CNetAddr

namespace TimeOffsets

def init : TimeOffsets where
  vTimeOffsets := .mk' BITCOIN_TIMEDATA_MAX_SAMPLES 0
  nTimeOffset := 0
  fDone := false
  strMiscWarning := ""

/-- The warning, if nobody has a time different than ours but within 5 minutes of ours. -/
def warn (s : TimeOffsets) : TimeOffsets :=
  if s.fDone then s
  else if s.vTimeOffsets.vSorted.any fun nOffset ↦ nOffset ≠ 0 && abs64 nOffset < 5 * 60 then s
  else { s with
    fDone := true
    strMiscWarning := "Warning: Please check that your computer's date and time are correct! " ++
      "If your clock is wrong Bws will not work properly." }

/-- The part of `AddTimeData` that sets `nTimeOffset`. -/
def update (nMedian : Int64) (s : TimeOffsets) : TimeOffsets :=
  -- only let other nodes change our time by so much
  if abs64 nMedian < 70 * 60 then { s with nTimeOffset := nMedian }
  else { s with nTimeOffset := 0 }.warn

/-- `AddTimeData` from "Add data" on -/
def addSample (s : TimeOffsets) (nOffsetSample : Int64) : TimeOffsets :=
  let vTimeOffsets := s.vTimeOffsets.input nOffsetSample
  let s := { s with vTimeOffsets }
  if 5 ≤ vTimeOffsets.size ∧ vTimeOffsets.size % 2 = 1 then
    vTimeOffsets.median.elim s fun nMedian ↦ s.update nMedian
  else s

end TimeOffsets

namespace TimeData

def init : TimeData := ⟨.init, ∅⟩

/-- `AddTimeData` -/
def addTimeData (s : TimeData) (ip : CNetAddr) (nOffsetSample : Int64) : TimeData :=
  -- ignore duplicates
  if s.setKnown.card = BITCOIN_TIMEDATA_MAX_SAMPLES then s
  else if ip ∈ s.setKnown then s
  else ⟨s.addSample nOffsetSample, insert ip s.setKnown⟩

/-- One call after another. -/
def run (calls : List (CNetAddr × Int64)) : TimeData :=
  calls.foldl (fun s call ↦ s.addTimeData call.1 call.2) init

end TimeData

/-! ## What it is for -/

/-- The samples that count, given the addresses that are known. -/
def countedFrom : Finset CNetAddr → List (CNetAddr × Int64) → List Int64
  | _, [] => []
  | known, (ip, nOffsetSample) :: calls =>
    if known.card = BITCOIN_TIMEDATA_MAX_SAMPLES ∨ ip ∈ known then countedFrom known calls
    else nOffsetSample :: countedFrom (insert ip known) calls

/-- The samples of the distinct addresses. -/
def counted (calls : List (CNetAddr × Int64)) : List Int64 := countedFrom ∅ calls

/-- How many samples there were at the last update, when there are `n`; less than four if there was
none. -/
def lastUpdate (n : ℕ) : ℕ := min n 198 / 2 * 2

/-- The offset is small, zero or the median, and stays when the filter is full. -/
structure TimeOffsetSound (calls : List (CNetAddr × Int64)) : Prop where
  small : ∀ pre, pre <+: calls → (TimeData.run pre).nTimeOffset.toInt.natAbs < 70 * 60
  median : ∀ pre, pre <+: calls → (TimeData.run pre).nTimeOffset = 0 ∨
    Median.IsMedian (· ≤ ·) (TimeData.run pre).nTimeOffset
      (0 :: (counted pre).take (lastUpdate (counted pre).length))
  frozen : ∀ pre rest, pre ++ rest <+: calls → (TimeData.run pre).vTimeOffsets.size =
    BITCOIN_TIMEDATA_MAX_SAMPLES →
      (TimeData.run (pre ++ rest)).nTimeOffset = (TimeData.run pre).nTimeOffset

/-- Not more than half of the samples are the least number, at any update. -/
def SampledWell (calls : List (CNetAddr × Int64)) : Prop :=
  ∀ k, k % 2 = 0 → 4 ≤ k → k ≤ 198 → k ≤ (counted calls).length →
    2 * ((counted calls).take k).count Int64.minValue ≤ k

/-! ## The samples that count -/

theorem run_eq_foldl (calls : List (CNetAddr × Int64)) : ∀ s : TimeData,
    (calls.foldl (fun s call ↦ s.addTimeData call.1 call.2) s).toTimeOffsets =
      (countedFrom s.setKnown calls).foldl TimeOffsets.addSample s.toTimeOffsets := by
  induction calls with
  | nil => exact fun _ ↦ rfl
  | cons call calls ih =>
    intro s
    rw [List.foldl_cons, ih, countedFrom, TimeData.addTimeData]
    by_cases hfull : s.setKnown.card = BITCOIN_TIMEDATA_MAX_SAMPLES
    · rw [if_pos hfull, if_pos (.inl hfull)]
    · by_cases hknown : call.1 ∈ s.setKnown
      · rw [if_neg hfull, if_pos hknown, if_pos (.inr hknown)]
      · rw [if_neg hfull, if_neg hknown, if_neg (not_or.2 ⟨hfull, hknown⟩), List.foldl_cons]

/-- The state depends on the samples that count only. -/
theorem run_eq (calls : List (CNetAddr × Int64)) : (TimeData.run calls).toTimeOffsets =
    (counted calls).foldl TimeOffsets.addSample .init := run_eq_foldl calls .init

theorem length_countedFrom (calls : List (CNetAddr × Int64)) : ∀ known : Finset CNetAddr,
    known.card ≤ 200 → (countedFrom known calls).length + known.card ≤ 200 := by
  induction calls with
  | nil => exact fun _ h ↦ (Nat.zero_add _).trans_le h
  | cons call calls ih =>
    intro known h
    rw [countedFrom]
    split_ifs with hskip
    · exact ih known h
    · rw [not_or, BITCOIN_TIMEDATA_MAX_SAMPLES] at hskip
      have hcard : (insert call.1 known).card = known.card + 1 :=
        Finset.card_insert_of_notMem hskip.2
      have := ih (insert call.1 known) (by omega)
      rw [List.length_cons]
      omega

theorem length_counted (calls : List (CNetAddr × Int64)) : (counted calls).length ≤ 200 :=
  length_countedFrom calls ∅ (Nat.zero_le _)

/-- What counts at first counts later. -/
theorem countedFrom_append (pre rest : List (CNetAddr × Int64)) : ∀ known : Finset CNetAddr,
    countedFrom known pre <+: countedFrom known (pre ++ rest) := by
  induction pre with
  | nil => exact fun _ ↦ List.nil_prefix
  | cons call pre ih =>
    intro known
    rw [List.cons_append, countedFrom, countedFrom]
    split_ifs
    · exact ih known
    · exact (List.cons_prefix_cons).2 ⟨rfl, ih _⟩

theorem prefix_counted {pre calls : List (CNetAddr × Int64)} (h : pre <+: calls) :
    counted pre <+: counted calls := by
  obtain ⟨rest, rfl⟩ := h
  exact countedFrom_append pre rest ∅

/-- There is a moment at which just so many samples have been counted. -/
theorem exists_counted_eq_take (calls : List (CNetAddr × Int64)) : ∀ (known : Finset CNetAddr)
    (k : ℕ), ∃ pre, pre <+: calls ∧ countedFrom known pre = (countedFrom known calls).take k := by
  induction calls with
  | nil => exact fun known k ↦ ⟨[], List.prefix_rfl, by rw [countedFrom, List.take_nil]⟩
  | cons call calls ih =>
    intro known k
    by_cases hskip : known.card = BITCOIN_TIMEDATA_MAX_SAMPLES ∨ call.1 ∈ known
    · obtain ⟨pre, hpre, heq⟩ := ih known k
      refine ⟨call :: pre, List.cons_prefix_cons.2 ⟨rfl, hpre⟩, ?_⟩
      rw [countedFrom, countedFrom, if_pos hskip, if_pos hskip, heq]
    · cases k with
      | zero => exact ⟨[], List.nil_prefix, by rw [countedFrom, List.take_zero]⟩
      | succ k =>
        obtain ⟨pre, hpre, heq⟩ := ih (insert call.1 known) k
        refine ⟨call :: pre, List.cons_prefix_cons.2 ⟨rfl, hpre⟩, ?_⟩
        rw [countedFrom, countedFrom, if_neg hskip, if_neg hskip, heq, List.take_succ_cons]

/-! ## The offset -/

/-- The middle of a list, when it is sorted. -/
def middle (l : List Int64) : Int64 := (l.insertionSort fun a b ↦ a ≤ b).getD (l.length / 2) 0

/-- What the offset is set to. -/
def clampOffset (nMedian : Int64) : Int64 := if abs64 nMedian < 70 * 60 then nMedian else 0

instance int64_total : Std.Total (α := Int64) (· ≤ ·) := ⟨fun a b ↦ by
  rw [Int64.le_iff_toInt_le, Int64.le_iff_toInt_le]
  exact le_total _ _⟩

instance int64_isTrans : IsTrans Int64 (· ≤ ·) := ⟨fun a b c ↦ by
  rw [Int64.le_iff_toInt_le, Int64.le_iff_toInt_le, Int64.le_iff_toInt_le]
  exact le_trans⟩

instance int64_antisymm : Std.Antisymm (α := Int64) (· ≤ ·) := ⟨fun a b ↦ by
  rw [Int64.le_iff_toInt_le, Int64.le_iff_toInt_le, ← Int64.toInt_inj]
  exact le_antisymm⟩

theorem isMedian_middle {l : List Int64} (hl : l.length % 2 = 1) :
    Median.IsMedian (· ≤ ·) (middle l) l := by
  have hsorted := List.pairwise_insertionSort (fun a b : Int64 ↦ a ≤ b) l
  have hperm := List.perm_insertionSort (fun a b : Int64 ↦ a ≤ b) l
  have hlen : (l.insertionSort fun a b ↦ a ≤ b).length = 2 * (l.length / 2) + 1 := by
    rw [hperm.length_eq]
    omega
  have hmedian := (Median.isMedian_getElem hsorted (by omega) hlen).perm hperm
  rwa [middle, List.getD_eq_getElem _ _ (by omega)]

namespace TimeOffsets

variable {l : List Int64}

@[simp] theorem nTimeOffset_warn (s : TimeOffsets) : s.warn.nTimeOffset = s.nTimeOffset := by
  unfold warn
  split_ifs <;> rfl

@[simp] theorem vTimeOffsets_warn (s : TimeOffsets) : s.warn.vTimeOffsets = s.vTimeOffsets := by
  unfold warn
  split_ifs <;> rfl

theorem nTimeOffset_update (nMedian : Int64) (s : TimeOffsets) :
    (s.update nMedian).nTimeOffset = clampOffset nMedian := by
  unfold update clampOffset
  split_ifs
  · rfl
  · exact nTimeOffset_warn _

theorem vTimeOffsets_update (nMedian : Int64) (s : TimeOffsets) :
    (s.update nMedian).vTimeOffsets = s.vTimeOffsets := by
  unfold update
  split_ifs
  · rfl
  · exact vTimeOffsets_warn _

theorem vTimeOffsets_addSample (s : TimeOffsets) (nOffsetSample : Int64) :
    (s.addSample nOffsetSample).vTimeOffsets = s.vTimeOffsets.input nOffsetSample := by
  unfold addSample
  dsimp only
  split_ifs
  · rcases (s.vTimeOffsets.input nOffsetSample).median with - | nMedian
    · rfl
    · exact vTimeOffsets_update nMedian _
  · rfl

/-- The state after some samples. -/
def after (l : List Int64) : TimeOffsets := l.foldl addSample init

theorem after_concat (l : List Int64) (x : Int64) : after (l ++ [x]) = (after l).addSample x := by
  rw [after, List.foldl_append]
  rfl

/-- The filter begins with zero, which goes when the last sample comes. -/
theorem vTimeOffsets_after (l : List Int64) (hl : l.length ≤ 200) :
    (after l).vTimeOffsets.nSize = 200 ∧
      (after l).vTimeOffsets.vValues = if l.length = 200 then l else 0 :: l := by
  induction l using List.reverseRecOn with
  | nil => exact ⟨rfl, rfl⟩
  | append_singleton l x ih =>
    rw [List.length_append, List.length_singleton] at hl
    obtain ⟨hsize, hvalues⟩ := ih (by omega)
    rw [if_neg (by omega)] at hvalues
    rw [after_concat, vTimeOffsets_addSample, CMedianFilter.input]
    dsimp only
    refine ⟨hsize, ?_⟩
    rw [hsize, hvalues, List.length_cons, List.length_append, List.length_singleton]
    split_ifs <;> rfl

/-- The median of an odd number of values is their middle. -/
theorem median_input {f : CMedianFilter Int64} {x : Int64} {vValues : List Int64}
    (h : (f.input x).vValues = vValues) (hodd : vValues.length % 2 = 1) :
    (f.input x).median = some (middle vValues) := by
  have hsorted : (f.input x).vSorted = vValues.insertionSort fun a b ↦ a ≤ b := by
    rw [← h]
    rfl
  have hlen : (vValues.insertionSort fun a b ↦ a ≤ b).length = vValues.length :=
    (List.perm_insertionSort _ _).length_eq
  rw [CMedianFilter.median, hsorted, hlen, if_pos hodd, middle, List.getD_eq_getElem _ _ (by omega),
    List.getElem?_eq_getElem (by omega)]

theorem nTimeOffset_concat (x : Int64) (hl : l.length < 200) : (after (l ++ [x])).nTimeOffset =
    if 4 ≤ l.length + 1 ∧ (l.length + 1) % 2 = 0 ∧ l.length + 1 ≤ 198 then
      clampOffset (middle (0 :: (l ++ [x])))
    else (after l).nTimeOffset := by
  have hlen : (l ++ [x]).length = l.length + 1 := List.length_append
  obtain ⟨-, hvalues⟩ := vTimeOffsets_after (l ++ [x]) (by omega)
  rw [after_concat, vTimeOffsets_addSample, hlen] at hvalues
  rw [after_concat, addSample, CMedianFilter.size, hvalues]
  by_cases hfull : l.length + 1 = 200
  · rw [if_pos hfull, hlen, if_neg (by omega), if_neg (by omega)]
  · rw [if_neg hfull] at hvalues ⊢
    rw [List.length_cons, hlen]
    by_cases hodd : 4 ≤ l.length + 1 ∧ (l.length + 1) % 2 = 0
    · have hmedian := median_input hvalues (by rw [List.length_cons, hlen]; omega)
      rw [if_pos (by omega), if_pos (by omega), hmedian]
      exact nTimeOffset_update _ _
    · rw [if_neg (by omega), if_neg (by omega)]

/-- **The offset is that of the last update.** -/
theorem nTimeOffset_after (l : List Int64) (hl : l.length ≤ 200) : (after l).nTimeOffset =
    if 4 ≤ lastUpdate l.length then clampOffset (middle (0 :: l.take (lastUpdate l.length)))
    else 0 := by
  induction l using List.reverseRecOn with
  | nil => rfl
  | append_singleton l x ih =>
    have hlen : (l ++ [x]).length = l.length + 1 := List.length_append
    rw [hlen] at hl ⊢
    rw [nTimeOffset_concat x (by omega), ih (by omega)]
    by_cases hupdate : 4 ≤ l.length + 1 ∧ (l.length + 1) % 2 = 0 ∧ l.length + 1 ≤ 198
    · have hlast : lastUpdate (l.length + 1) = l.length + 1 := by
        unfold lastUpdate
        omega
      rw [if_pos hupdate, hlast, if_pos hupdate.1, List.take_of_length_le hlen.le]
    · rw [if_neg hupdate]
      -- there is no update, and the last one is as before
      by_cases hnone : l.length + 1 < 4
      · have hbefore : ¬ 4 ≤ lastUpdate l.length := by
          unfold lastUpdate
          omega
        have hafter : ¬ 4 ≤ lastUpdate (l.length + 1) := by
          unfold lastUpdate
          omega
        rw [if_neg hbefore, if_neg hafter]
      · have hlast : lastUpdate (l.length + 1) = lastUpdate l.length := by
          unfold lastUpdate
          omega
        have hle : lastUpdate l.length ≤ l.length := by
          unfold lastUpdate
          omega
        rw [hlast, List.take_append_of_le_length hle]

end TimeOffsets

/-! ## The bound -/

theorem prefix_take_eq {α : Type} {l l' : List α} (h : l <+: l') {k : ℕ}
    (hk : k ≤ l.length) : l.take k = l'.take k := by
  obtain ⟨r, rfl⟩ := h
  exact (List.take_append_of_le_length hk).symm

/-- `abs64` gives the absolute value, but for the least number. -/
theorem toInt_abs64 {x : Int64} (hx : x ≠ Int64.minValue) : (abs64 x).toInt = x.toInt.natAbs := by
  have hlow := Int64.le_toInt x
  have hhigh := Int64.toInt_lt x
  have hne : x.toInt ≠ -2 ^ 63 := fun heq ↦
    hx (Int64.toInt_inj.1 (heq.trans Int64.toInt_minValue.symm))
  unfold abs64
  split_ifs with hpos
  · rw [Int64.le_iff_toInt_le, Int64.toInt_zero] at hpos
    omega
  · rw [Int64.le_iff_toInt_le, Int64.toInt_zero] at hpos
    rw [Int64.toInt_neg, Int.bmod_eq_of_le (by omega) (by omega)]
    omega

theorem clampOffset_small_iff (x : Int64) :
    (clampOffset x).toInt.natAbs < 70 * 60 ↔ x ≠ Int64.minValue := by
  rcases eq_or_ne x Int64.minValue with rfl | hx
  · decide
  · refine iff_of_true ?_ hx
    unfold clampOffset
    split_ifs with hclose
    · have hbound : ((70 * 60 : Int64)).toInt = 70 * 60 := rfl
      rw [Int64.lt_iff_toInt_lt, toInt_abs64 hx, hbound] at hclose
      omega
    · decide

theorem lastUpdate_spec (n : ℕ) : lastUpdate n ≤ n ∧ lastUpdate n % 2 = 0 ∧ lastUpdate n ≤ 198 := by
  unfold lastUpdate
  omega

theorem nTimeOffset_run (calls : List (CNetAddr × Int64)) : (TimeData.run calls).nTimeOffset =
    if 4 ≤ lastUpdate (counted calls).length then
      clampOffset (middle (0 :: (counted calls).take (lastUpdate (counted calls).length)))
    else 0 := by
  rw [← TimeOffsets.nTimeOffset_after _ (length_counted calls), TimeOffsets.after, ← run_eq]

/-- The middle of zero and an even number of samples is the least number when that makes up more
than half of the samples. -/
theorem middle_eq_minValue_iff {l : List Int64} (hl : l.length % 2 = 0) :
    middle (0 :: l) = Int64.minValue ↔ l.length < 2 * l.count Int64.minValue := by
  have hmedian := isMedian_middle (l := 0 :: l) (by rw [List.length_cons]; omega)
  rw [hmedian.eq_least_iff fun a ↦ Int64.le_iff_toInt_le.2 (by
    rw [Int64.toInt_minValue]
    exact Int64.le_toInt a), List.length_cons, List.count_cons_of_ne (by decide)]
  omega

/-- The offset is zero or the median, whatever the samples are. -/
theorem median_run (calls : List (CNetAddr × Int64)) : (TimeData.run calls).nTimeOffset = 0 ∨
    Median.IsMedian (· ≤ ·) (TimeData.run calls).nTimeOffset
      (0 :: (counted calls).take (lastUpdate (counted calls).length)) := by
  rw [nTimeOffset_run]
  split_ifs with hupdate
  · obtain ⟨hle, heven, -⟩ := lastUpdate_spec (counted calls).length
    unfold clampOffset
    split_ifs
    · refine .inr (isMedian_middle ?_)
      rw [List.length_cons, List.length_take_of_le hle]
      omega
    · exact .inl rfl
  · exact .inl rfl

/-- When the filter is full, the last update has been. -/
theorem frozen_run (calls rest : List (CNetAddr × Int64))
    (hfull : (TimeData.run calls).vTimeOffsets.size = BITCOIN_TIMEDATA_MAX_SAMPLES) :
    (TimeData.run (calls ++ rest)).nTimeOffset = (TimeData.run calls).nTimeOffset := by
  obtain ⟨-, hvalues⟩ := TimeOffsets.vTimeOffsets_after (counted calls) (length_counted calls)
  rw [TimeOffsets.after, ← run_eq] at hvalues
  rw [CMedianFilter.size, hvalues, BITCOIN_TIMEDATA_MAX_SAMPLES] at hfull
  have hprefix := prefix_counted (List.prefix_append calls rest)
  have hlen : 199 ≤ (counted calls).length := by
    split_ifs at hfull with hall
    · omega
    · rw [List.length_cons] at hfull
      omega
  have hle := hprefix.length_le
  have hlast : ∀ {n}, 199 ≤ n → lastUpdate n = 198 := by
    intro n hn
    unfold lastUpdate
    omega
  rw [nTimeOffset_run, nTimeOffset_run, hlast hlen, hlast (hlen.trans hle)]
  rw [prefix_take_eq hprefix (by omega)]

/-- **The offset is sound exactly when the least number never makes up more than half of the
samples.** -/
theorem timeOffsetSound_iff (calls : List (CNetAddr × Int64)) :
    TimeOffsetSound calls ↔ SampledWell calls := by
  constructor
  · intro h k heven hlow hhigh hk
    obtain ⟨pre, hpre, heq⟩ := exists_counted_eq_take calls ∅ k
    have hsmall := h.small pre hpre
    have hlen : (counted pre).length = k := by
      rw [counted, heq, List.length_take]
      exact min_eq_left hk
    have hlast : lastUpdate k = k := by
      unfold lastUpdate
      omega
    rw [nTimeOffset_run, hlen, hlast, if_pos hlow, List.take_of_length_le hlen.le,
      clampOffset_small_iff, ne_eq, middle_eq_minValue_iff (by omega), hlen] at hsmall
    rw [counted, ← heq]
    exact not_lt.1 hsmall
  · intro h
    refine ⟨fun pre hpre ↦ ?_, fun pre hpre ↦ ?_, fun pre rest hpre hfull ↦ ?_⟩
    · rw [nTimeOffset_run]
      split_ifs with hupdate
      · obtain ⟨hle, heven, hhigh⟩ := lastUpdate_spec (counted pre).length
        have hcount := h _ heven hupdate hhigh (hle.trans (prefix_counted hpre).length_le)
        rw [clampOffset_small_iff, ne_eq, middle_eq_minValue_iff, List.length_take_of_le hle,
          not_lt]
        · rwa [prefix_take_eq (prefix_counted hpre) hle]
        · rwa [List.length_take_of_le hle]
      · decide
    · exact median_run pre
    · exact frozen_run pre rest hfull

namespace Sample

/-- Calls from so many nodes with one sample. -/
def sampled (n : ℕ) (nOffsetSample : Int64) : List (CNetAddr × Int64) :=
  (List.range n).map fun i ↦ (Vector.replicate 16 (UInt8.ofNat i), nOffsetSample)

example : (TimeData.run (sampled 4 4199)).nTimeOffset = 4199 ∧
    (TimeData.run (sampled 4 4200)).nTimeOffset = 0 := by decide +kernel

end Sample

/-- The least number passes the test that lets no node change the time by 70 minutes. -/
theorem not_timeOffsetSound : ¬ TimeOffsetSound (Sample.sampled 4 Int64.minValue) := by
  intro h
  have hoffset : (TimeData.run (Sample.sampled 4 Int64.minValue)).nTimeOffset = Int64.minValue := by
    decide +kernel
  have hsmall := h.small _ List.prefix_rfl
  rw [hoffset] at hsmall
  exact absurd hsmall (by decide)

end Bws
