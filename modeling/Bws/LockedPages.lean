import Mathlib.Data.List.Induction
import Mathlib.Data.Multiset.Count
import Mathlib.Data.Multiset.Replicate
import Mathlib.Algebra.Order.Group.Multiset
import Mathlib.Tactic.Ring
import Mathlib.Tactic.NormNum

/-!
# Locked pages

Memory locks do not stack, so `LockedPageManagerBase` counts for every page how many ranges keep it
locked.  The counters are those of the ranges that have not been unlocked yet (`Tracks`), and a page
is locked as long as one of them touches it, whatever way the ranges overlap.  A counter is an
`int`, and so there is a limit to the ranges that may touch one page at a time.
-/

namespace Bws

variable {w : ℕ}

/-! ## The source -/

/-- How a call can fail; a loop that wraps around is endless. -/
inductive PageFault
  | assertion
  | overflow
  | endless
deriving DecidableEq

/-- `LockedPageManagerBase`, with the pages that are locked at the operating system: those that
`Lock` was called with, as far as `Unlock` was not called since. -/
structure LockedPageManager (w : ℕ) where
  page_size : BitVec w
  page_mask : BitVec w
  histogram : BitVec w → Option ℤ
  locked : BitVec w → Bool

/-- The result of an operation of type `int`. -/
def checkedCounter (n : ℤ) : Except PageFault ℤ :=
  if -2 ^ 31 ≤ n ∧ n < 2 ^ 31 then .ok n else .error .overflow

namespace LockedPageManager

/-- The constructor. -/
def new (page_size : BitVec w) : Except PageFault (LockedPageManager w) :=
  if page_size &&& (page_size - 1) ≠ 0 then .error .assertion
  else .ok ⟨page_size, ~~~(page_size - 1), fun _ ↦ none, fun _ ↦ false⟩

/-- The loop of `LockRange` at one page. -/
def lockPage (m : LockedPageManager w) (page : BitVec w) :
    Except PageFault (LockedPageManager w) :=
  match m.histogram page with
  | none => .ok { m with
      locked := Function.update m.locked page true
      histogram := Function.update m.histogram page (some 1) }
  | some n => do
    let n ← checkedCounter (n + 1)
    return { m with histogram := Function.update m.histogram page (some n) }

/-- The loop of `UnlockRange` at one page. -/
def unlockPage (m : LockedPageManager w) (page : BitVec w) :
    Except PageFault (LockedPageManager w) :=
  match m.histogram page with
  | none => .error .assertion
  | some n => do
    let n ← checkedCounter (n - 1)
    if n = 0 then
      return { m with
        locked := Function.update m.locked page false
        histogram := Function.update m.histogram page none }
    else return { m with histogram := Function.update m.histogram page (some n) }

/-- `for (page = start_page; page <= end_page; page += page_size)` -/
def forPages (visit : LockedPageManager w → BitVec w → Except PageFault (LockedPageManager w))
    (page_size end_page : BitVec w) :
    ℕ → LockedPageManager w → BitVec w → Except PageFault (LockedPageManager w)
  | 0, _, _ => .error .endless
  | fuel + 1, m, page =>
    if page ≤ end_page then do
      let m ← visit m page
      forPages visit page_size end_page fuel m (page + page_size)
    else .ok m

/-- What `LockRange` and `UnlockRange` have in common: all pages in the range are visited. -/
def visitRange (visit : LockedPageManager w → BitVec w → Except PageFault (LockedPageManager w))
    (fuel : ℕ) (m : LockedPageManager w) (p size : BitVec w) :
    Except PageFault (LockedPageManager w) :=
  if size = 0 then .ok m
  else
    let start_page := p &&& m.page_mask
    let end_page := (p + size - 1) &&& m.page_mask
    forPages visit m.page_size end_page fuel m start_page

/-- `LockRange` -/
def lockRange (fuel : ℕ) (m : LockedPageManager w) (p size : BitVec w) :
    Except PageFault (LockedPageManager w) :=
  visitRange lockPage fuel m p size

/-- `UnlockRange` -/
def unlockRange (fuel : ℕ) (m : LockedPageManager w) (p size : BitVec w) :
    Except PageFault (LockedPageManager w) :=
  visitRange unlockPage fuel m p size

/-- The counter of a page; there is none for a page that is not locked. -/
def counter (m : LockedPageManager w) (page : BitVec w) : ℤ := (m.histogram page).getD 0

end LockedPageManager

/-! ## Calls -/

/-- An address and a size. -/
structure MemoryRange (w : ℕ) where
  p : BitVec w
  size : BitVec w
deriving DecidableEq

inductive PageCall (w : ℕ)
  | lock (range : MemoryRange w)
  | unlock (range : MemoryRange w)

open LockedPageManager

def callPages (fuel : ℕ) (m : LockedPageManager w) :
    PageCall w → Except PageFault (LockedPageManager w)
  | .lock range => lockRange fuel m range.p range.size
  | .unlock range => unlockRange fuel m range.p range.size

/-- A manager of its own and a sequence of calls. -/
def runPages (fuel : ℕ) (page_size : BitVec w) (calls : List (PageCall w)) :
    Except PageFault (LockedPageManager w) := do
  let m ← new page_size
  calls.foldlM (callPages fuel) m

def leaveOutstanding (ranges : Multiset (MemoryRange w)) : PageCall w → Multiset (MemoryRange w)
  | .lock range => range ::ₘ ranges
  | .unlock range => ranges.erase range

/-- The ranges that have been locked and not been unlocked yet. -/
def outstanding (calls : List (PageCall w)) : Multiset (MemoryRange w) :=
  calls.foldl leaveOutstanding 0

/-- A byte of the range lies on the page. -/
def Touches (page_size : BitVec w) (range : MemoryRange w) (page : BitVec w) : Prop :=
  page_size.toNat ∣ page.toNat ∧ ∃ byte < range.p.toNat + range.size.toNat,
    range.p.toNat ≤ byte ∧ page.toNat ≤ byte ∧ byte < page.toNat + page_size.toNat

instance (page_size : BitVec w) (range : MemoryRange w) (page : BitVec w) :
    Decidable (Touches page_size range page) :=
  inferInstanceAs (Decidable (_ ∧ _))

/-- How many of the ranges touch the page. -/
def holders (page_size : BitVec w) (ranges : Multiset (MemoryRange w)) (page : BitVec w) : ℕ :=
  ranges.countP (Touches page_size · page)

/-- The range does not reach the last page. -/
def FitsPages (page_size : BitVec w) (range : MemoryRange w) : Prop :=
  range.size = 0 ∨ range.p.toNat + range.size.toNat + page_size.toNat ≤ 2 ^ w

/-- No range reaches the last page, and what is unlocked has been locked. -/
def Matched (page_size : BitVec w) (calls : List (PageCall w)) : Prop :=
  ∀ before call, before ++ [call] <+: calls → match call with
    | .lock range => FitsPages page_size range
    | .unlock range => range ∈ outstanding before

/-- No page is ever touched by more ranges than an `int` can count. -/
def WithinInt (page_size : BitVec w) (calls : List (PageCall w)) : Prop :=
  ∀ before, before <+: calls → ∀ page, holders page_size (outstanding before) page < 2 ^ 31

/-! ## Pages of a range -/

section

variable {page_size : BitVec w} {k : ℕ}

theorem toNat_sub_one {x : BitVec w} (h : 0 < x.toNat) : (x - 1).toNat = x.toNat - 1 := by
  have hone : (1 : BitVec w).toNat = 1 := by
    rw [BitVec.ofNat_eq_ofNat, BitVec.toNat_ofNat, Nat.mod_eq_of_lt (lt_of_le_of_lt h x.isLt)]
  rw [BitVec.toNat_sub_of_le (BitVec.le_def.2 (hone ▸ h)), hone]

/-- The mask clears the bits of an address on its page. -/
theorem toNat_and_mask (hsize : page_size.toNat = 2 ^ k) (address : BitVec w) :
    (address &&& ~~~(page_size - 1)).toNat = address.toNat / 2 ^ k * 2 ^ k := by
  have hsub : (page_size - 1).toNat = 2 ^ k - 1 := by
    rw [toNat_sub_one (hsize ▸ Nat.two_pow_pos k), hsize]
  refine Nat.eq_of_testBit_eq fun i ↦ ?_
  rw [Nat.testBit_mul_two_pow, Nat.testBit_div_two_pow, BitVec.testBit_toNat,
    BitVec.getLsbD_and, BitVec.getLsbD_not, ← BitVec.testBit_toNat (page_size - 1), hsub,
    Nat.testBit_two_pow_sub_one]
  by_cases hik : k ≤ i
  · rw [Nat.sub_add_cancel hik, BitVec.testBit_toNat]
    by_cases hi : i < w
    · simp [hik, hi, Nat.not_lt.2 hik]
    · rw [BitVec.getLsbD_of_ge address i (Nat.not_lt.1 hi)]
      simp
  · simp [hik, Nat.not_le.1 hik]

/-- What is touched are the pages from that of the first byte to that of the last one. -/
theorem touches_iff (hsize : page_size.toNat = 2 ^ k) {range : MemoryRange w}
    (hne : range.size.toNat ≠ 0) {page : BitVec w} : Touches page_size range page ↔
      ∃ j, page.toNat = j * 2 ^ k ∧ range.p.toNat / 2 ^ k ≤ j ∧
        j ≤ (range.p.toNat + range.size.toNat - 1) / 2 ^ k := by
  have hpos : 0 < 2 ^ k := Nat.two_pow_pos k
  rw [Touches, hsize]
  constructor
  · rintro ⟨⟨j, hj⟩, byte, hlt, hle, hpage, hbyte⟩
    rw [mul_comm] at hj
    rw [hj] at hpage hbyte
    have hdiv : byte / 2 ^ k = j := by
      refine Nat.div_eq_of_lt_le hpage ?_
      rw [Nat.succ_mul]
      exact hbyte
    refine ⟨j, hj, hdiv ▸ Nat.div_le_div_right hle, ?_⟩
    exact hdiv ▸ Nat.div_le_div_right (Nat.le_sub_one_of_lt hlt)
  · rintro ⟨j, hj, hle, hlt⟩
    have hstart : range.p.toNat < (j + 1) * 2 ^ k :=
      (Nat.div_lt_iff_lt_mul hpos).1 (Nat.lt_succ_of_le hle)
    have hend : j * 2 ^ k ≤ range.p.toNat + range.size.toNat - 1 :=
      (Nat.le_div_iff_mul_le hpos).1 hlt
    rw [Nat.succ_mul] at hstart
    refine ⟨⟨j, by rw [hj, mul_comm]⟩, max range.p.toNat page.toNat, ?_, le_max_left _ _,
      le_max_right _ _, ?_⟩
    · exact max_lt (by omega) (by omega)
    · exact max_lt (by omega) (by omega)

end

/-! ## Visiting pages -/

/-- The counters of a manager are those of a function, and the pages that it counts for are
locked. -/
structure Counts (m : LockedPageManager w) (page_size : BitVec w) (n : BitVec w → ℕ) : Prop where
  page_size_eq : m.page_size = page_size
  page_mask_eq : m.page_mask = ~~~(page_size - 1)
  histogram page : m.histogram page = if n page = 0 then none else some (n page : ℤ)
  locked page : m.locked page = true ↔ n page ≠ 0
  lt page : n page < 2 ^ 31

section

variable {page_size : BitVec w} {m : LockedPageManager w} {n : BitVec w → ℕ} {page : BitVec w}

theorem checkedCounter_of {n : ℤ} (hle : -2 ^ 31 ≤ n) (hlt : n < 2 ^ 31) :
    checkedCounter n = .ok n :=
  if_pos ⟨hle, hlt⟩

theorem Counts.counter (h : Counts m page_size n) (page : BitVec w) : m.counter page = n page := by
  rw [LockedPageManager.counter, h.histogram]
  split_ifs with hn
  · rw [hn]
    rfl
  · rfl

/-- A page is counted anew, and nothing else changes. -/
theorem Counts.update (h : Counts m page_size n) {m' : LockedPageManager w} {c : ℕ}
    (hsize : m'.page_size = m.page_size) (hmask : m'.page_mask = m.page_mask)
    (hhist : m'.histogram = Function.update m.histogram page (if c = 0 then none else some (c : ℤ)))
    (hlocked : m'.locked = Function.update m.locked page (decide (c ≠ 0))) (hlt : c < 2 ^ 31) :
    Counts m' page_size (Function.update n page c) := by
  refine ⟨hsize.trans h.page_size_eq, hmask.trans h.page_mask_eq, fun q ↦ ?_, fun q ↦ ?_,
    fun q ↦ ?_⟩ <;> rcases eq_or_ne q page with rfl | hq
  · rw [hhist, Function.update_self, Function.update_self]
  · rw [hhist, Function.update_of_ne hq, Function.update_of_ne hq, h.histogram]
  · rw [hlocked, Function.update_self, Function.update_self, decide_eq_true_iff]
  · rw [hlocked, Function.update_of_ne hq, Function.update_of_ne hq, h.locked]
  · rwa [Function.update_self]
  · rw [Function.update_of_ne hq]
    exact h.lt q

/-- A page stays locked as long as there is something to count. -/
theorem Counts.update_locked (h : Counts m page_size n) (hne : n page ≠ 0) {c : ℕ} (hc : c ≠ 0) :
    m.locked = Function.update m.locked page (decide (c ≠ 0)) := by
  rw [decide_eq_true hc, ← (h.locked page).2 hne, Function.update_eq_self]

theorem lockPage_spec (h : Counts m page_size n) (hlt : n page + 1 < 2 ^ 31) :
    ∃ m', lockPage m page = .ok m' ∧
      Counts m' page_size (Function.update n page (n page + 1)) := by
  have hhist := h.histogram page
  rw [lockPage]
  by_cases hzero : n page = 0
  · rw [if_pos hzero] at hhist
    rw [hhist, hzero]
    exact ⟨_, rfl, h.update rfl rfl rfl rfl (by norm_num)⟩
  · have hnext : checkedCounter (n page + 1) = .ok ((n page + 1 : ℕ) : ℤ) :=
      checkedCounter_of (by omega) (by omega)
    rw [if_neg hzero] at hhist
    rw [hhist]
    dsimp only
    rw [hnext]
    exact ⟨_, rfl, h.update rfl rfl (by rw [if_neg (Nat.succ_ne_zero _)])
      (h.update_locked hzero (Nat.succ_ne_zero _)) hlt⟩

theorem unlockPage_spec (h : Counts m page_size n) (hne : n page ≠ 0) :
    ∃ m', unlockPage m page = .ok m' ∧
      Counts m' page_size (Function.update n page (n page - 1)) := by
  have hlt := h.lt page
  have hhist := h.histogram page
  have hnext : checkedCounter (n page - 1) = .ok ((n page - 1 : ℕ) : ℤ) := by
    rw [Nat.cast_sub (Nat.one_le_iff_ne_zero.2 hne)]
    exact checkedCounter_of (by omega) (by omega)
  rw [if_neg hne] at hhist
  rw [unlockPage, hhist]
  dsimp only
  rw [hnext]
  by_cases hzero : n page - 1 = 0
  · rw [hzero]
    exact ⟨_, rfl, h.update rfl rfl rfl rfl (by norm_num)⟩
  · exact ⟨_, if_neg (Nat.cast_ne_zero.2 hzero), h.update rfl rfl (by rw [if_neg hzero])
      (h.update_locked hne hzero) ((Nat.sub_le _ _).trans_lt hlt)⟩

theorem Counts.congr (h : Counts m page_size n) {n' : BitVec w → ℕ} (hn : ∀ q, n q = n' q) :
    Counts m page_size n' :=
  funext hn ▸ h

theorem forPages_succ
    {visit : LockedPageManager w → BitVec w → Except PageFault (LockedPageManager w)}
    {end_page : BitVec w} (hle : page ≤ end_page) {m' : LockedPageManager w}
    (hm : visit m page = .ok m') (fuel : ℕ) : forPages visit page_size end_page (fuel + 1) m page =
      forPages visit page_size end_page fuel m' (page + page_size) := by
  rw [forPages, if_pos hle, hm]
  rfl

/-- Once the loop is over, every page from the first to the last one has been visited. -/
theorem forPages_spec {f : ℕ → ℕ} {P : ℕ → Prop}
    {visit : LockedPageManager w → BitVec w → Except PageFault (LockedPageManager w)}
    (hvisit : ∀ {m n page}, Counts m page_size n → P (n page) →
      ∃ m', visit m page = .ok m' ∧ Counts m' page_size (Function.update n page (f (n page))))
    {end_page : BitVec w} {k fuel : ℕ} (hpos : 0 < page_size.toNat)
    (hend : end_page.toNat = page.toNat + k * page_size.toNat)
    (hfit : end_page.toNat + page_size.toNat < 2 ^ w) (hfuel : k + 2 ≤ fuel)
    (h : Counts m page_size n)
    (hP : ∀ q, (∃ i ≤ k, q.toNat = page.toNat + i * page_size.toNat) → P (n q)) :
    ∃ m', forPages visit page_size end_page fuel m page = .ok m' ∧ Counts m' page_size fun q ↦
      if ∃ i ≤ k, q.toNat = page.toNat + i * page_size.toNat then f (n q) else n q := by
  have hpage : ∀ (p : BitVec w) (k : ℕ), ∃ i ≤ k, p.toNat = p.toNat + i * page_size.toNat :=
    fun p k ↦ ⟨0, Nat.zero_le k, by rw [zero_mul, add_zero]⟩
  induction k generalizing page m n fuel with
  | zero =>
    obtain ⟨fuel, rfl⟩ := Nat.exists_eq_add_of_le' hfuel
    obtain ⟨m', hm', h'⟩ := hvisit h (hP page (hpage page 0))
    obtain rfl : end_page = page := BitVec.eq_of_toNat_eq (by rw [hend, zero_mul, add_zero])
    have hnext : ¬ end_page + page_size ≤ end_page := by
      rw [BitVec.le_def, BitVec.toNat_add_of_lt hfit]
      omega
    refine ⟨m', ?_, h'.congr fun q ↦ ?_⟩
    · rw [forPages_succ (BitVec.le_refl _) hm', forPages, if_neg hnext]
    · rcases eq_or_ne q end_page with rfl | hq
      · rw [Function.update_self, if_pos (hpage q 0)]
      · rw [Function.update_of_ne hq, if_neg]
        rintro ⟨i, hi, hqi⟩
        rw [Nat.le_zero.1 hi, zero_mul, add_zero] at hqi
        exact hq (BitVec.eq_of_toNat_eq hqi)
  | succ k ih =>
    obtain ⟨fuel, rfl⟩ := Nat.exists_eq_add_of_le' hfuel
    obtain ⟨m₁, hm₁, h₁⟩ := hvisit h (hP page (hpage page _))
    have hsum : page.toNat + page_size.toNat + k * page_size.toNat = end_page.toNat := by
      rw [hend, Nat.succ_mul]
      ring
    have hnext : (page + page_size).toNat = page.toNat + page_size.toNat :=
      BitVec.toNat_add_of_lt (by omega)
    have hle : page ≤ end_page := BitVec.le_def.2 (by omega)
    have hother : ∀ q i, q.toNat = (page + page_size).toNat + i * page_size.toNat → q ≠ page := by
      rintro q i hq rfl
      rw [hnext] at hq
      omega
    -- the pages behind the first one
    have hmem : ∀ q, (∃ i ≤ k, q.toNat = (page + page_size).toNat + i * page_size.toNat) ↔
        q ≠ page ∧ ∃ i ≤ k + 1, q.toNat = page.toNat + i * page_size.toNat := by
      intro q
      constructor
      · rintro ⟨i, hi, hq⟩
        refine ⟨hother q i hq, i + 1, Nat.succ_le_succ hi, ?_⟩
        rw [hq, hnext, Nat.succ_mul]
        ring
      · rintro ⟨hq, i, hi, hqi⟩
        rcases i with - | i
        · rw [zero_mul, add_zero] at hqi
          exact absurd (BitVec.eq_of_toNat_eq hqi) hq
        · refine ⟨i, Nat.le_of_succ_le_succ hi, ?_⟩
          rw [hqi, hnext, Nat.succ_mul]
          ring
    have hP₁ : ∀ q, (∃ i ≤ k, q.toNat = (page + page_size).toNat + i * page_size.toNat) →
        P (Function.update n page (f (n page)) q) := by
      intro q hq
      rw [Function.update_of_ne ((hmem q).1 hq).1]
      exact hP q ((hmem q).1 hq).2
    have hsteps : k + 2 ≤ fuel + (k + 2) := Nat.le_add_left _ _
    obtain ⟨m', hm', h'⟩ := ih (by rw [hnext, hsum]) hsteps h₁ hP₁
    refine ⟨m', (forPages_succ hle hm₁ _).trans hm', h'.congr fun q ↦ ?_⟩
    rcases eq_or_ne q page with rfl | hq
    · rw [Function.update_self, if_neg fun hq ↦ ((hmem q).1 hq).1 rfl, if_pos (hpage q _)]
    · rw [Function.update_of_ne hq]
      exact if_congr ((hmem q).trans (and_iff_right hq)) rfl rfl

/-- Every page that the range touches is visited once. -/
theorem visitRange_spec {f : ℕ → ℕ} {P : ℕ → Prop}
    {visit : LockedPageManager w → BitVec w → Except PageFault (LockedPageManager w)}
    (hvisit : ∀ {m n page}, Counts m page_size n → P (n page) →
      ∃ m', visit m page = .ok m' ∧ Counts m' page_size (Function.update n page (f (n page))))
    {k fuel : ℕ} (hsize : page_size.toNat = 2 ^ k) {range : MemoryRange w}
    (hfit : FitsPages page_size range) (hfuel : 2 ^ w < fuel) (h : Counts m page_size n)
    (hP : ∀ q, Touches page_size range q → P (n q)) :
    ∃ m', visitRange visit fuel m range.p range.size = .ok m' ∧ Counts m' page_size fun q ↦
      if Touches page_size range q then f (n q) else n q := by
  have hpos : 0 < 2 ^ k := Nat.two_pow_pos k
  by_cases hzero : range.size = 0
  · refine ⟨m, if_pos hzero, h.congr fun q ↦ (if_neg ?_).symm⟩
    rintro ⟨-, byte, hlt, hle, -⟩
    rw [hzero, BitVec.ofNat_eq_ofNat, BitVec.toNat_ofNat, Nat.zero_mod] at hlt
    exact absurd (hlt.trans_le hle) (lt_irrefl _)
  have hne : range.size.toNat ≠ 0 := fun h0 ↦ hzero (BitVec.eq_of_toNat_eq (by rw [h0]; simp))
  replace hfit := hfit.resolve_left hzero
  have hsum : (range.p + range.size).toNat = range.p.toNat + range.size.toNat :=
    BitVec.toNat_add_of_lt (by omega)
  have hlast : (range.p + range.size - 1).toNat = range.p.toNat + range.size.toNat - 1 := by
    rw [toNat_sub_one (by omega), hsum]
  rw [hsize] at hfit
  obtain ⟨first, hfirst⟩ : ∃ first, first = range.p.toNat / 2 ^ k := ⟨_, rfl⟩
  obtain ⟨last, hlastPage⟩ : ∃ last, last = (range.p.toNat + range.size.toNat - 1) / 2 ^ k :=
    ⟨_, rfl⟩
  have hle : first ≤ last := by
    rw [hfirst, hlastPage]
    exact Nat.div_le_div_right (by omega)
  have hmul : last * 2 ^ k ≤ range.p.toNat + range.size.toNat - 1 :=
    hlastPage ▸ Nat.div_mul_le_self _ _
  have hstart : (range.p &&& m.page_mask).toNat = first * 2 ^ k := by
    rw [h.page_mask_eq, toNat_and_mask hsize, hfirst]
  have hend : ((range.p + range.size - 1) &&& m.page_mask).toNat = last * 2 ^ k := by
    rw [h.page_mask_eq, toNat_and_mask hsize, hlast, hlastPage]
  have hmem : ∀ q : BitVec w, (∃ i ≤ last - first,
      q.toNat = (range.p &&& m.page_mask).toNat + i * page_size.toNat) ↔
        Touches page_size range q := by
    intro q
    rw [touches_iff hsize hne, hstart, hsize, ← hfirst, ← hlastPage]
    constructor
    · rintro ⟨i, hi, hq⟩
      exact ⟨first + i, by rw [hq, Nat.add_mul], Nat.le_add_right _ _, by omega⟩
    · rintro ⟨j, hq, hj, hj'⟩
      refine ⟨j - first, Nat.sub_le_sub_right hj' _, ?_⟩
      rw [hq, ← Nat.add_mul, Nat.add_sub_cancel' hj]
  have hsteps : last - first + 2 ≤ fuel := by
    have := Nat.le_mul_of_pos_right last hpos
    omega
  obtain ⟨m', hm', h'⟩ := forPages_spec hvisit (hsize ▸ hpos) (k := last - first)
    (by rw [hend, hstart, hsize, ← Nat.add_mul, Nat.add_sub_cancel' hle])
    (by rw [hend, hsize]; omega) hsteps h fun q hq ↦ hP q ((hmem q).1 hq)
  refine ⟨m', ?_, h'.congr fun q ↦ if_congr (hmem q) rfl rfl⟩
  rw [visitRange, if_neg hzero, h.page_size_eq]
  exact hm'

end

/-! ## Runs -/

section

variable {page_size : BitVec w} {k fuel : ℕ} {calls : List (PageCall w)} {call : PageCall w}

theorem Matched.init (h : Matched page_size (calls ++ [call])) : Matched page_size calls :=
  fun before call' hbefore ↦ h before call' (hbefore.trans (List.prefix_append _ _))

theorem WithinInt.init (h : WithinInt page_size (calls ++ [call])) : WithinInt page_size calls :=
  fun before hbefore ↦ h before (hbefore.trans (List.prefix_append _ _))

theorem outstanding_concat (calls : List (PageCall w)) (call : PageCall w) :
    outstanding (calls ++ [call]) = leaveOutstanding (outstanding calls) call :=
  List.foldl_concat _ _ _ _

theorem runPages_concat (fuel : ℕ) (page_size : BitVec w) (calls : List (PageCall w))
    (call : PageCall w) : runPages fuel page_size (calls ++ [call]) =
      (runPages fuel page_size calls).bind (callPages fuel · call) := by
  rw [runPages, runPages]
  rcases new page_size with e | m
  · rfl
  · change (calls ++ [call]).foldlM (callPages fuel) m =
      Except.bind (calls.foldlM (callPages fuel) m) _
    rw [List.foldlM_append]
    refine congrArg (Except.bind _) (funext fun m' ↦ ?_)
    rw [List.foldlM_cons]
    exact bind_pure _

theorem new_spec (hsize : page_size.toNat = 2 ^ k) :
    ∃ m, new page_size = .ok m ∧ Counts m page_size fun _ ↦ 0 := by
  have hmask : page_size &&& (page_size - 1) = 0 := by
    refine BitVec.eq_of_toNat_eq ?_
    rw [BitVec.toNat_and, toNat_sub_one (hsize ▸ Nat.two_pow_pos k), hsize,
      Nat.and_two_pow_sub_one_eq_mod, Nat.mod_self]
    exact BitVec.toNat_zero.symm
  refine ⟨_, if_neg (not_not.2 hmask), rfl, rfl, fun q ↦ (if_pos rfl).symm, fun q ↦ ?_, fun q ↦ ?_⟩
  · exact iff_of_false Bool.false_ne_true (not_not.2 rfl)
  · norm_num

theorem holders_cons (range : MemoryRange w) (ranges : Multiset (MemoryRange w))
    (page : BitVec w) : holders page_size (range ::ₘ ranges) page =
      if Touches page_size range page then holders page_size ranges page + 1
      else holders page_size ranges page := by
  rw [holders, Multiset.countP_cons]
  split_ifs <;> rfl

/-- The counters of a run are the numbers of ranges that have not been unlocked. -/
theorem runPages_spec (hsize : page_size.toNat = 2 ^ k) (hfuel : 2 ^ w < fuel)
    (hmatched : Matched page_size calls) (hwithin : WithinInt page_size calls) :
    ∃ m, runPages fuel page_size calls = .ok m ∧
      Counts m page_size (holders page_size (outstanding calls)) ∧
      ∀ range ∈ outstanding calls, FitsPages page_size range := by
  induction calls using List.reverseRecOn with
  | nil =>
    obtain ⟨m, hm, h⟩ := new_spec hsize
    refine ⟨m, ?_, h, fun range hrange ↦ absurd hrange (Multiset.notMem_zero _)⟩
    rw [runPages, hm]
    rfl
  | append_singleton calls call ih =>
    obtain ⟨m, hm, h, hfits⟩ := ih hmatched.init hwithin.init
    have hcall := hmatched calls call (List.prefix_refl _)
    have hlt := hwithin (calls ++ [call]) (List.prefix_refl _)
    rw [runPages_concat, hm]
    rw [outstanding_concat] at hlt ⊢
    rcases call with range | range
    · have hroom : ∀ q, Touches page_size range q →
          holders page_size (outstanding calls) q + 1 < 2 ^ 31 := by
        intro q hq
        have hq' := hlt q
        rwa [leaveOutstanding, holders_cons, if_pos hq] at hq'
      obtain ⟨m', hm', h'⟩ := visitRange_spec (f := (· + 1)) (P := (· + 1 < 2 ^ 31))
        lockPage_spec hsize hcall hfuel h hroom
      refine ⟨m', hm', h'.congr fun q ↦ ?_, ?_⟩
      · rw [leaveOutstanding, holders_cons]
      · exact fun range' hrange ↦ (Multiset.mem_cons.1 hrange).elim (· ▸ hcall) (hfits range')
    · have hcons := Multiset.cons_erase hcall
      have hheld : ∀ q, Touches page_size range q →
          holders page_size (outstanding calls) q ≠ 0 := by
        intro q hq
        rw [← hcons, holders_cons, if_pos hq]
        exact Nat.succ_ne_zero _
      obtain ⟨m', hm', h'⟩ := visitRange_spec (f := (· - 1)) (P := (· ≠ 0))
        unlockPage_spec hsize (hfits range hcall) hfuel h hheld
      refine ⟨m', hm', h'.congr fun q ↦ ?_, fun range' hrange ↦
        hfits range' (Multiset.mem_of_mem_erase hrange)⟩
      rw [leaveOutstanding, ← hcons, holders_cons, Multiset.erase_cons_head]
      split_ifs <;> rfl

theorem holders_ne_zero {ranges : Multiset (MemoryRange w)} {page : BitVec w} :
    holders page_size ranges page ≠ 0 ↔ ∃ range ∈ ranges, Touches page_size range page :=
  Nat.pos_iff_ne_zero.symm.trans Multiset.countP_pos

end

/-! ## What is locked -/

/-- A page is locked exactly when an outstanding range touches it, and its counter is the number of
these ranges. -/
def Tracks (page_size : BitVec w) (ranges : Multiset (MemoryRange w))
    (m : LockedPageManager w) : Prop :=
  ∀ page, (m.locked page = true ↔ ∃ range ∈ ranges, Touches page_size range page) ∧
    m.counter page = holders page_size ranges page

/-- **Locked pages.**  As long as the counters suffice, every sequence of matched calls comes to its
end and keeps exactly those pages locked that are still needed. -/
theorem tracks_of_runPages {page_size : BitVec w} (hsize : ∃ k, page_size.toNat = 2 ^ k)
    {calls : List (PageCall w)} (hmatched : Matched page_size calls)
    (hwithin : WithinInt page_size calls) {fuel : ℕ} (hfuel : 2 ^ w < fuel) :
    ∃ m, runPages fuel page_size calls = .ok m ∧ Tracks page_size (outstanding calls) m := by
  obtain ⟨k, hsize⟩ := hsize
  obtain ⟨m, hm, h, -⟩ := runPages_spec hsize hfuel hmatched hwithin
  exact ⟨m, hm, fun page ↦ ⟨(h.locked page).trans holders_ne_zero, h.counter page⟩⟩

section

variable {page_size : BitVec w} {calls : List (PageCall w)} {call : PageCall w}

theorem matched_nil : Matched page_size [] :=
  fun _ _ h ↦ absurd (List.prefix_nil.1 h) (List.append_ne_nil_of_right_ne_nil _ (by simp))

theorem Matched.concat (h : Matched page_size calls) (hcall : match call with
    | .lock range => FitsPages page_size range
    | .unlock range => range ∈ outstanding calls) : Matched page_size (calls ++ [call]) := by
  intro before call' hbefore
  rcases List.prefix_concat_iff.1 hbefore with heq | hbefore
  · obtain ⟨rfl, hsingle⟩ := List.append_inj' heq rfl
    cases List.singleton_inj.1 hsingle
    exact hcall
  · exact h before call' hbefore

theorem card_outstanding_le (calls : List (PageCall w)) :
    (outstanding calls).card ≤ calls.length := by
  induction calls using List.reverseRecOn with
  | nil => exact le_rfl
  | append_singleton calls call ih =>
    rw [outstanding_concat, List.length_append, List.length_singleton]
    rcases call with range | range
    · rw [leaveOutstanding, Multiset.card_cons]
      exact Nat.succ_le_succ ih
    · exact (Multiset.card_erase_le.trans ih).trans (Nat.le_succ _)

/-- A page cannot be touched by more ranges than there were calls. -/
theorem withinInt_of_length_lt (h : calls.length < 2 ^ 31) : WithinInt page_size calls :=
  fun before hbefore _ ↦ ((Multiset.countP_le_card _ _).trans
    ((card_outstanding_le before).trans hbefore.length_le)).trans_lt h

end

theorem tracks_of_runPages_sample : ∃ m,
    runPages (2 ^ 64 + 1) (4096 : BitVec 64) [.lock ⟨4090, 20⟩, .lock ⟨4100, 1⟩,
      .unlock ⟨4090, 20⟩] = .ok m ∧
    Tracks 4096 (outstanding [.lock ⟨4090, 20⟩, .lock ⟨4100, 1⟩, .unlock ⟨4090, 20⟩]) m := by
  refine tracks_of_runPages ⟨12, by decide⟩ ?_ (withinInt_of_length_lt (by decide))
    (Nat.lt_succ_self _)
  have hfirst : Matched (4096 : BitVec 64) ([] ++ [.lock ⟨4090, 20⟩]) :=
    matched_nil.concat (.inr (by decide))
  have hsecond : Matched (4096 : BitVec 64) ([.lock ⟨4090, 20⟩] ++ [.lock ⟨4100, 1⟩]) :=
    hfirst.concat (.inr (by decide))
  exact hsecond.concat (by decide)

/-! ## More ranges than the counter can count -/

theorem outstanding_replicate (n : ℕ) (range : MemoryRange w) :
    outstanding (List.replicate n (.lock range)) = Multiset.replicate n range := by
  induction n with
  | zero => rfl
  | succ n ih =>
    rw [List.replicate_succ', outstanding_concat, ih, leaveOutstanding, Multiset.replicate_succ]

theorem matched_replicate {page_size : BitVec w} {range : MemoryRange w}
    (h : FitsPages page_size range) (n : ℕ) :
    Matched page_size (List.replicate n (.lock range)) := by
  induction n with
  | zero => exact matched_nil
  | succ n ih =>
    rw [List.replicate_succ']
    exact ih.concat h

/-- The byte at the beginning of the memory can be locked 2^31 - 1 times, and not once more. -/
theorem runPages_overflow :
    Matched (4096 : BitVec 64) (List.replicate (2 ^ 31) (.lock ⟨0, 1⟩)) ∧
      ∀ fuel, 2 ^ 64 < fuel →
        runPages fuel (4096 : BitVec 64) (List.replicate (2 ^ 31) (.lock ⟨0, 1⟩)) =
          .error .overflow := by
  have hfits : FitsPages (4096 : BitVec 64) ⟨0, 1⟩ := .inr (by decide)
  refine ⟨matched_replicate hfits _, fun fuel hfuel ↦ ?_⟩
  have hlength : (List.replicate (2 ^ 31 - 1) (.lock ⟨0, 1⟩ : PageCall 64)).length < 2 ^ 31 := by
    rw [List.length_replicate]
    norm_num
  obtain ⟨m, hm, h, -⟩ := runPages_spec (k := 12) (by decide) hfuel
    (matched_replicate hfits _) (withinInt_of_length_lt hlength)
  obtain ⟨fuel, rfl⟩ := Nat.exists_eq_succ_of_ne_zero (Nat.ne_zero_of_lt hfuel)
  -- the counter of the first page is at its limit
  have hcount : m.histogram 0 = some (2 ^ 31 - 1) := by
    have htouches : Touches (4096 : BitVec 64) ⟨0, 1⟩ 0 := by decide
    rw [h.histogram, outstanding_replicate, holders, Multiset.countP_eq_card.2,
      Multiset.card_replicate]
    · rfl
    · intro range hrange
      rwa [Multiset.eq_of_mem_replicate hrange]
  have hpage : lockPage m 0 = .error .overflow := by
    rw [lockPage, hcount]
    rfl
  have hcall : callPages (fuel + 1) m (.lock ⟨0, 1⟩) = .error .overflow := by
    rw [callPages, lockRange, visitRange, if_neg (by decide), h.page_mask_eq,
      show (0 : BitVec 64) &&& ~~~(4096 - 1) = 0 by decide,
      show (0 + 1 - 1 : BitVec 64) &&& ~~~(4096 - 1) = 0 by decide, forPages, if_pos (by decide),
      hpage]
    rfl
  rw [show (2 : ℕ) ^ 31 = 2 ^ 31 - 1 + 1 by norm_num, List.replicate_succ', runPages_concat, hm]
  exact hcall

end Bws
