import Bws.AddrOps
import Std.Data.TreeMap.Lemmas
import Std.Data.TreeSet.Lemmas

/-!
# The consistency check of the address manager

`Check_` counts by removing: a tried id when it comes to its slot, and a reference for every slot of the
new table.  `Checked` says the same without counting, and the check passes exactly then.  The invariant of
the operations implies it.
-/

namespace Bws

namespace CAddrMan

variable {A : AddrParams} {nKey : BitVec 256} {s : CAddrMan}

/-- A loop in which a round only checks, and changes its result in a fixed way. -/
theorem foldlM_eq_ok {ε α β : Type} {f : β → α → Except ε β} {g : β → α → β} {P : α → Prop}
    (hf : ∀ b a b', f b a = .ok b' ↔ P a ∧ b' = g b a) {l : List α} {b b' : β} :
    l.foldlM f b = .ok b' ↔ (∀ a ∈ l, P a) ∧ b' = l.foldl g b := by
  induction l generalizing b with
  | nil =>
    constructor
    · rintro ⟨⟩
      exact ⟨nofun, rfl⟩
    · rintro ⟨-, rfl⟩
      rfl
  | cons a l ih =>
    rw [List.foldlM_cons, bind_eq_ok, List.forall_mem_cons, List.foldl_cons]
    constructor
    · rintro ⟨b₁, hb₁, hl⟩
      obtain ⟨ha, rfl⟩ := (hf b a b₁).mp hb₁
      obtain ⟨hP, rfl⟩ := ih.mp hl
      exact ⟨⟨ha, hP⟩, rfl⟩
    · rintro ⟨⟨ha, hP⟩, rfl⟩
      exact ⟨g b a, (hf b a _).mpr ⟨ha, rfl⟩, ih.mpr ⟨hP, rfl⟩⟩

/-! ## Entries -/

/-- What `Check_` asks of an entry -/
structure EntryOk (s : CAddrMan) (nId : ℤ) (info : CAddrInfo) : Prop where
  tried : info.fInTried = true → info.nLastSuccess ≠ 0 ∧ info.nRefCount = 0
  new : info.fInTried = false → 0 < info.nRefCount ∧ info.nRefCount ≤ ADDRMAN_NEW_BUCKETS_PER_ADDRESS
  addr : (s.mapAddr info.ip).getD 0 = nId
  random : 0 ≤ info.nRandomPos ∧ s.vRandom[info.nRandomPos.toNat]? = some nId
  times : 0 ≤ info.nLastTry ∧ 0 ≤ info.nLastSuccess

/-- An entry is counted. -/
def Tally.add (t : Tally) (x : ℤ × CAddrInfo) : Tally :=
  if x.2.fInTried then { t with setTried := t.setTried.insert x.1 }
  else { t with mapNew := t.mapNew.insert x.1 x.2.nRefCount }

theorem checkEntry_eq_ok {t t' : Tally} {x : ℤ × CAddrInfo} :
    s.checkEntry t x = .ok t' ↔ EntryOk s x.1 x.2 ∧ t' = t.add x := by
  obtain ⟨n, info⟩ := x
  have htally : ∀ {t₁ : Tally}, tallyEntry n info t = .ok t₁ ↔
      ((info.fInTried = true → info.nLastSuccess ≠ 0 ∧ info.nRefCount = 0) ∧
        (info.fInTried = false → 0 < info.nRefCount ∧
          info.nRefCount ≤ ADDRMAN_NEW_BUCKETS_PER_ADDRESS)) ∧ t₁ = t.add (n, info) := by
    intro t₁
    rw [tallyEntry, Tally.add]
    cases info.fInTried with
    | true =>
      simp only [if_pos, bind_check_eq_ok, failIf_eq_ok, Except.ok.injEq, not_not, ne_eq, forall_const,
        Bool.true_eq_false, false_implies, and_true, and_assoc, eq_comm (a := t₁)]
    | false =>
      simp only [Bool.false_eq_true, if_false, bind_check_eq_ok, failIf_eq_ok, Except.ok.injEq,
        false_implies, true_and, forall_const, eq_comm (a := t₁)]
      constructor
      · rintro ⟨hrange, hzero, rfl⟩
        exact ⟨⟨by omega, by omega⟩, rfl⟩
      · rintro ⟨⟨hpos, hmax⟩, rfl⟩
        exact ⟨by omega, by omega, rfl⟩
  rw [checkEntry, bind_eq_ok]
  constructor
  · rintro ⟨t₁, ht₁, h⟩
    obtain ⟨⟨htried, hnew⟩, rfl⟩ := htally.mp ht₁
    simp only [bind_check_eq_ok, failIf_eq_ok, not_not, not_or, Int.not_lt, Int64.not_lt,
      Except.ok.injEq, ne_eq] at h
    obtain ⟨haddr, hrandom, htry, hsuccess, rfl⟩ := h
    exact ⟨⟨htried, hnew, haddr, hrandom, htry, hsuccess⟩, rfl⟩
  · rintro ⟨⟨htried, hnew, haddr, hrandom, htry, hsuccess⟩, rfl⟩
    refine ⟨_, htally.mpr ⟨⟨htried, hnew⟩, rfl⟩, ?_⟩
    simp only [bind_check_eq_ok, failIf_eq_ok, not_not, not_or, Int.not_lt, Int64.not_lt, ne_eq]
    exact ⟨haddr, hrandom, htry, hsuccess, trivial⟩

/-- The entries of a list with different ids have been counted. -/
structure Tallied (t : Tally) (l : List (ℤ × CAddrInfo)) (t' : Tally) : Prop where
  mem_setTried : ∀ n, n ∈ t'.setTried ↔ n ∈ t.setTried ∨ ∃ info, (n, info) ∈ l ∧ info.fInTried = true
  size_setTried : t'.setTried.size = t.setTried.size + l.countP fun x ↦ x.2.fInTried
  getElem?_mapNew : ∀ n r, t'.mapNew[n]? = some r ↔ t.mapNew[n]? = some r ∨
    ∃ info, (n, info) ∈ l ∧ info.fInTried = false ∧ info.nRefCount = r
  size_mapNew : t'.mapNew.size = t.mapNew.size + l.countP fun x ↦ !x.2.fInTried

theorem mem_setTried_add {t : Tally} {x : ℤ × CAddrInfo} {n : ℤ} :
    n ∈ (t.add x).setTried ↔ n ∈ t.setTried ∨ n = x.1 ∧ x.2.fInTried = true := by
  rw [Tally.add]
  cases x.2.fInTried with
  | true =>
    rw [if_pos rfl, Std.TreeSet.mem_insert, compare_eq_iff_eq]
    exact ⟨fun h ↦ h.symm.imp_right fun h ↦ ⟨h.symm, rfl⟩, fun h ↦ h.symm.imp_left fun h ↦ h.1.symm⟩
  | false => simp

theorem getElem?_mapNew_add {t : Tally} {x : ℤ × CAddrInfo} (hx : t.mapNew[x.1]? = none) {n r : ℤ} :
    (t.add x).mapNew[n]? = some r ↔
      t.mapNew[n]? = some r ∨ n = x.1 ∧ x.2.fInTried = false ∧ x.2.nRefCount = r := by
  rw [Tally.add]
  cases x.2.fInTried with
  | true => simp
  | false =>
    show (t.mapNew.insert x.1 x.2.nRefCount)[n]? = some r ↔ _
    rw [Std.TreeMap.getElem?_insert]
    simp only [compare_eq_iff_eq, true_and]
    by_cases hn : x.1 = n
    · rw [if_pos hn, ← hn, hx, Option.some_inj]
      simp
    · rw [if_neg hn]
      simp [Ne.symm hn]

theorem tallied (l : List (ℤ × CAddrInfo)) (hl : (l.map Prod.fst).Nodup) (t : Tally)
    (ht : ∀ x ∈ l, x.1 ∉ t.setTried ∧ t.mapNew[x.1]? = none) : Tallied t l (l.foldl Tally.add t) := by
  induction l generalizing t with
  | nil => exact ⟨fun n ↦ by simp, rfl, fun n r ↦ by simp, rfl⟩
  | cons x l ih =>
    obtain ⟨hx, hl'⟩ := List.nodup_cons.mp hl
    obtain ⟨⟨hxt, hxm⟩, ht'⟩ := List.forall_mem_cons.mp ht
    have hne : ∀ y ∈ l, y.1 ≠ x.1 := fun y hy heq ↦ hx (heq ▸ List.mem_map_of_mem hy)
    have h := ih hl' (t.add x) fun y hy ↦ by
      obtain ⟨hyt, hym⟩ := ht' y hy
      refine ⟨fun hmem ↦ ?_, Option.eq_none_iff_forall_ne_some.mpr fun r hr ↦ ?_⟩
      · rcases mem_setTried_add.mp hmem with hmem | ⟨heq, -⟩
        · exact hyt hmem
        · exact hne y hy heq
      · rcases (getElem?_mapNew_add hxm).mp hr with hr | ⟨heq, -⟩
        · rw [hym] at hr
          cases hr
        · exact hne y hy heq
    have hex : ∀ (n : ℤ) (p : CAddrInfo → Prop), (∃ info, (n, info) ∈ x :: l ∧ p info) ↔
        n = x.1 ∧ p x.2 ∨ ∃ info, (n, info) ∈ l ∧ p info := by
      intro n p
      simp only [List.mem_cons, or_and_right, exists_or]
      refine or_congr_left ⟨?_, ?_⟩
      · rintro ⟨info, heq, hp⟩
        rw [← heq]
        exact ⟨rfl, hp⟩
      · rintro ⟨rfl, hp⟩
        exact ⟨x.2, rfl, hp⟩
    rw [List.foldl_cons]
    refine ⟨fun n ↦ ?_, ?_, fun n r ↦ ?_, ?_⟩
    · rw [h.mem_setTried n, mem_setTried_add, or_assoc, hex]
    · rw [h.size_setTried, List.countP_cons, Tally.add]
      cases x.2.fInTried with
      | true =>
        rw [if_pos rfl, Std.TreeSet.size_insert, if_neg (by rwa [← Std.TreeSet.mem_iff_contains]),
          if_pos rfl]
        omega
      | false => rfl
    · rw [h.getElem?_mapNew n r, getElem?_mapNew_add hxm, or_assoc, hex n]
    · rw [h.size_mapNew, List.countP_cons, Tally.add]
      cases x.2.fInTried with
      | true => rfl
      | false =>
        have hmem : t.mapNew.contains x.1 = false := by
          rw [← Std.TreeMap.isSome_getElem?_eq_contains, hxm]
          rfl
        show (t.mapNew.insert x.1 x.2.nRefCount).size + _ = _
        rw [Std.TreeMap.size_insert, if_neg (by rw [hmem]; exact Bool.false_ne_true)]
        show t.mapNew.size + 1 + _ = t.mapNew.size + (_ + 1)
        omega

/-! ## The tried table -/

/-- A taken slot is the one of the entry in it. -/
def TriedSlotOk (A : AddrParams) (s : CAddrMan) (p : TriedSlot) : Prop :=
  ∃ info, s.mapInfo[s.vvTried p]? = some info ∧ info.triedSlot A s.nKey = p

theorem checkTriedSlot_eq_ok {setTried setTried' : Std.TreeSet ℤ} {p : TriedSlot} :
    checkTriedSlot A s setTried p = .ok setTried' ↔ s.vvTried p = -1 ∧ setTried' = setTried ∨
      s.vvTried p ≠ -1 ∧ TriedSlotOk A s p ∧ s.vvTried p ∈ setTried ∧
        setTried' = setTried.erase (s.vvTried p) := by
  rw [checkTriedSlot]
  by_cases hp : s.vvTried p = -1
  · rw [if_pos hp, Except.ok.injEq]
    exact ⟨fun h ↦ Or.inl ⟨hp, h.symm⟩, fun h ↦ h.elim (fun h ↦ h.2.symm) fun h ↦ absurd hp h.1⟩
  · rw [if_neg hp]
    simp only [hp, false_and, false_or, ne_eq, not_false_eq_true, true_and, TriedSlotOk]
    cases hinfo : s.mapInfo[s.vvTried p]? with
    | none => simp
    | some info =>
      simp only [bind_check_eq_ok, failIf_eq_ok, not_not, Except.ok.injEq, Option.some_inj,
        exists_eq_left', eq_comm (a := setTried')]
      constructor
      · rintro ⟨hmem, hbucket, hpos, rfl⟩
        refine ⟨Prod.ext hbucket ?_, hmem, rfl⟩
        show info.getBucketPosition A s.nKey false _ = p.2
        rw [hbucket, hpos]
      · rintro ⟨hslot, hmem, rfl⟩
        have hbucket : info.getTriedBucket A s.nKey = p.1 := congrArg Prod.fst hslot
        refine ⟨hmem, hbucket, ?_, rfl⟩
        have hpos : info.getBucketPosition A s.nKey false (info.getTriedBucket A s.nKey) = p.2 :=
          congrArg Prod.snd hslot
        rwa [hbucket] at hpos

/-- The loop ends: the taken slots are right, and what they name is not in the set any more. -/
theorem of_checkTriedSlots {l : List TriedSlot} {setTried setTried' : Std.TreeSet ℤ}
    (h : l.foldlM (checkTriedSlot A s) setTried = .ok setTried') :
    (∀ p ∈ l, s.vvTried p ≠ -1 → TriedSlotOk A s p ∧ s.vvTried p ∈ setTried) ∧
      ∀ n, n ∈ setTried' ↔ n ∈ setTried ∧ ∀ p ∈ l, s.vvTried p ≠ -1 → s.vvTried p ≠ n := by
  induction l generalizing setTried with
  | nil =>
    cases h
    exact ⟨nofun, fun n ↦ ⟨fun hn ↦ ⟨hn, nofun⟩, And.left⟩⟩
  | cons p l ih =>
    rw [List.foldlM_cons, bind_eq_ok] at h
    obtain ⟨setTried₁, h₁, h⟩ := h
    obtain ⟨hok, hmem⟩ := ih h
    rcases checkTriedSlot_eq_ok.mp h₁ with ⟨hp, rfl⟩ | ⟨hp, hslot, hin, rfl⟩
    · refine ⟨List.forall_mem_cons.mpr ⟨fun hne ↦ absurd hp hne, hok⟩, fun n ↦ ?_⟩
      rw [hmem n, List.forall_mem_cons]
      exact and_congr_right fun _ ↦ ⟨fun hl ↦ ⟨fun hne ↦ absurd hp hne, hl⟩, And.right⟩
    · simp only [Std.TreeSet.mem_erase, compare_eq_iff_eq, ne_eq] at hok hmem
      refine ⟨List.forall_mem_cons.mpr ⟨fun _ ↦ ⟨hslot, hin⟩, fun q hq hne ↦
        ⟨(hok q hq hne).1, (hok q hq hne).2.2⟩⟩, fun n ↦ ?_⟩
      rw [hmem n, List.forall_mem_cons]
      constructor
      · rintro ⟨⟨hne, hn⟩, hl⟩
        exact ⟨hn, fun _ ↦ hne, hl⟩
      · rintro ⟨hn, hpn, hl⟩
        exact ⟨⟨hpn hp, hn⟩, hl⟩

/-- When no two slots name the same id, the loop gets to its end. -/
theorem checkTriedSlots {l : List TriedSlot} (hl : l.Nodup) (setTried : Std.TreeSet ℤ)
    (h : ∀ p ∈ l, s.vvTried p ≠ -1 → TriedSlotOk A s p ∧ s.vvTried p ∈ setTried) :
    ∃ setTried', l.foldlM (checkTriedSlot A s) setTried = .ok setTried' := by
  induction l generalizing setTried with
  | nil => exact ⟨setTried, rfl⟩
  | cons p l ih =>
    obtain ⟨hpl, hl'⟩ := List.nodup_cons.mp hl
    obtain ⟨hp, h'⟩ := List.forall_mem_cons.mp h
    by_cases hnone : s.vvTried p = -1
    · obtain ⟨setTried', hok⟩ := ih hl' setTried h'
      rw [List.foldlM_cons]
      exact ⟨setTried', bind_eq_ok.mpr ⟨setTried, checkTriedSlot_eq_ok.mpr (Or.inl ⟨hnone, rfl⟩), hok⟩⟩
    · obtain ⟨⟨info, hinfo, hslot⟩, hmem⟩ := hp hnone
      obtain ⟨setTried', hok⟩ := ih hl' (setTried.erase (s.vvTried p)) fun q hq hne ↦ by
        obtain ⟨⟨info', hinfo', hslot'⟩, hmem'⟩ := h' q hq hne
        refine ⟨⟨info', hinfo', hslot'⟩, Std.TreeSet.mem_erase.mpr ⟨fun heq ↦ ?_, hmem'⟩⟩
        rw [compare_eq_iff_eq] at heq
        rw [← heq, hinfo] at hinfo'
        cases hinfo'
        exact hpl (hslot.symm.trans hslot' ▸ hq)
      rw [List.foldlM_cons]
      exact ⟨setTried', bind_eq_ok.mpr ⟨_, checkTriedSlot_eq_ok.mpr
        (Or.inr ⟨hnone, ⟨info, hinfo, hslot⟩, hmem, rfl⟩), hok⟩⟩

/-! ## The new table -/

/-- A taken slot is one that the entry in it may have. -/
def NewSlotOk (A : AddrParams) (s : CAddrMan) (p : NewSlot) : Prop :=
  ∃ info, s.mapInfo[s.vvNew p]? = some info ∧ info.newSlot A s.nKey p.1 = p

/-- How many references are left of an id -/
def refsLeft (mapNew : Std.TreeMap ℤ ℤ) (n : ℤ) : ℤ := mapNew[n]?.getD 0

theorem refsLeft_step (mapNew : Std.TreeMap ℤ ℤ) (n r m : ℤ) :
    refsLeft (if r - 1 = 0 then mapNew.erase n else mapNew.insert n (r - 1)) m =
      if m = n then r - 1 else refsLeft mapNew m := by
  by_cases hr : r - 1 = 0
  · rw [if_pos hr, refsLeft, Std.TreeMap.getElem?_erase]
    simp only [compare_eq_iff_eq, eq_comm (a := n)]
    split
    · rw [hr]
      rfl
    · rfl
  · rw [if_neg hr, refsLeft, Std.TreeMap.getElem?_insert]
    simp only [compare_eq_iff_eq, eq_comm (a := n)]
    split
    · rfl
    · rfl

/-- Every id in the map has references left. -/
def AllLeft (mapNew : Std.TreeMap ℤ ℤ) : Prop := ∀ n r : ℤ, mapNew[n]? = some r → 0 < r

theorem AllLeft.step {mapNew : Std.TreeMap ℤ ℤ} (h : AllLeft mapNew) {n r : ℤ}
    (hn : mapNew[n]? = some r) :
    AllLeft (if r - 1 = 0 then mapNew.erase n else mapNew.insert n (r - 1)) := by
  have hpos := h n r hn
  intro m q hq
  by_cases hr : r - 1 = 0
  · rw [if_pos hr, Std.TreeMap.getElem?_erase] at hq
    split at hq
    · cases hq
    · exact h m q hq
  · rw [if_neg hr, Std.TreeMap.getElem?_insert] at hq
    split at hq
    · cases hq
      omega
    · exact h m q hq

theorem checkNewSlot_eq_ok {mapNew mapNew' : Std.TreeMap ℤ ℤ} {p : NewSlot} :
    checkNewSlot A s mapNew p = .ok mapNew' ↔ s.vvNew p = -1 ∧ mapNew' = mapNew ∨
      s.vvNew p ≠ -1 ∧ NewSlotOk A s p ∧ ∃ r, mapNew[s.vvNew p]? = some r ∧
        mapNew' = if r - 1 = 0 then mapNew.erase (s.vvNew p) else mapNew.insert (s.vvNew p) (r - 1) := by
  rw [checkNewSlot]
  by_cases hp : s.vvNew p = -1
  · rw [if_pos hp, Except.ok.injEq]
    exact ⟨fun h ↦ Or.inl ⟨hp, h.symm⟩, fun h ↦ h.elim (fun h ↦ h.2.symm) fun h ↦ absurd hp h.1⟩
  · rw [if_neg hp]
    simp only [hp, false_and, false_or, ne_eq, not_false_eq_true, true_and, NewSlotOk]
    cases hinfo : s.mapInfo[s.vvNew p]? with
    | none => simp
    | some info =>
      cases hr : mapNew[s.vvNew p]? with
      | none => simp
      | some r =>
        simp only [bind_check_eq_ok, failIf_eq_ok, not_not, Except.ok.injEq, Option.some_inj,
          exists_eq_left', eq_comm (a := mapNew')]
        refine and_congr_left fun _ ↦ ⟨fun hpos ↦ Prod.ext rfl hpos, fun hslot ↦ congrArg Prod.snd hslot⟩

/-- The loop ends: the taken slots are right, and each has used up a reference of what it names. -/
theorem of_checkNewSlots {l : List NewSlot} {mapNew mapNew' : Std.TreeMap ℤ ℤ} (hleft : AllLeft mapNew)
    (h : l.foldlM (checkNewSlot A s) mapNew = .ok mapNew') :
    (∀ p ∈ l, s.vvNew p ≠ -1 → NewSlotOk A s p) ∧ AllLeft mapNew' ∧
      ∀ n, refsLeft mapNew n = refsLeft mapNew' n +
        if n = -1 then 0 else (l.countP fun p ↦ s.vvNew p = n : ℕ) := by
  induction l generalizing mapNew with
  | nil =>
    cases h
    exact ⟨nofun, hleft, fun n ↦ by simp⟩
  | cons p l ih =>
    rw [List.foldlM_cons, bind_eq_ok] at h
    obtain ⟨mapNew₁, h₁, h⟩ := h
    rcases checkNewSlot_eq_ok.mp h₁ with ⟨hp, rfl⟩ | ⟨hp, hslot, r, hr, rfl⟩
    · obtain ⟨hok, hleft', hcount⟩ := ih hleft h
      refine ⟨List.forall_mem_cons.mpr ⟨fun hne ↦ absurd hp hne, hok⟩, hleft', fun n ↦ ?_⟩
      rw [hcount n, List.countP_cons, hp]
      by_cases hn : n = -1
      · rw [if_pos hn, if_pos hn]
      · rw [if_neg hn, if_neg hn, if_neg (by simpa using Ne.symm hn), Nat.add_zero]
    · obtain ⟨hok, hleft', hcount⟩ := ih (hleft.step hr) h
      refine ⟨List.forall_mem_cons.mpr ⟨fun _ ↦ hslot, hok⟩, hleft', fun n ↦ ?_⟩
      have hn := hcount n
      rw [refsLeft_step] at hn
      rw [List.countP_cons]
      by_cases hnp : n = s.vvNew p
      · have hget : refsLeft mapNew n = r := by rw [hnp, refsLeft, hr, Option.getD_some]
        rw [if_pos hnp, if_neg (by rwa [hnp])] at hn
        rw [hget, if_neg (by rwa [hnp]), if_pos (by simpa using hnp.symm)]
        push_cast
        omega
      · have hother : ¬ decide (s.vvNew p = n) = true := by simpa using Ne.symm hnp
        rw [if_neg hnp] at hn
        rw [hn, if_neg hother, Nat.add_zero]

/-- When there are enough references, the loop gets to its end. -/
theorem checkNewSlots {l : List NewSlot} {mapNew : Std.TreeMap ℤ ℤ} (hleft : AllLeft mapNew)
    (h : ∀ p ∈ l, s.vvNew p ≠ -1 → NewSlotOk A s p)
    (hcount : ∀ n, n ≠ -1 → ((l.countP fun p ↦ s.vvNew p = n : ℕ) : ℤ) ≤ refsLeft mapNew n) :
    ∃ mapNew', l.foldlM (checkNewSlot A s) mapNew = .ok mapNew' := by
  induction l generalizing mapNew with
  | nil => exact ⟨mapNew, rfl⟩
  | cons p l ih =>
    obtain ⟨hp, h'⟩ := List.forall_mem_cons.mp h
    rw [List.foldlM_cons]
    by_cases hnone : s.vvNew p = -1
    · obtain ⟨mapNew', hok⟩ := ih hleft h' fun n hn ↦ by
        have hle := hcount n hn
        rw [List.countP_cons, if_neg (by simpa [hnone] using Ne.symm hn), Nat.add_zero] at hle
        exact hle
      exact ⟨mapNew', bind_eq_ok.mpr ⟨mapNew, checkNewSlot_eq_ok.mpr (Or.inl ⟨hnone, rfl⟩), hok⟩⟩
    · have hpos := hcount (s.vvNew p) hnone
      rw [List.countP_cons, if_pos (by simp)] at hpos
      obtain ⟨r, hr⟩ : ∃ r, mapNew[s.vvNew p]? = some r := by
        refine Option.ne_none_iff_exists'.mp fun hget ↦ ?_
        rw [refsLeft, hget, Option.getD_none] at hpos
        omega
      obtain ⟨mapNew', hok⟩ := ih (hleft.step hr) h' fun n hn ↦ by
        have hle := hcount n hn
        rw [List.countP_cons] at hle
        rw [refsLeft_step]
        by_cases hnp : n = s.vvNew p
        · have hget : refsLeft mapNew n = r := by rw [hnp, refsLeft, hr, Option.getD_some]
          rw [hget, if_pos (by simpa using hnp.symm)] at hle
          rw [if_pos hnp]
          omega
        · rw [if_neg (by simpa using Ne.symm hnp), Nat.add_zero] at hle
          rw [if_neg hnp]
          exact hle
      exact ⟨mapNew', bind_eq_ok.mpr ⟨_, checkNewSlot_eq_ok.mpr (Or.inr ⟨hnone, hp hnone, r, hr, rfl⟩),
        hok⟩⟩

/-! ## The whole check -/

theorem nodup_slots (n m : ℕ) : ((List.finRange n).product (List.finRange m)).Nodup :=
  (List.nodup_finRange n).product (List.nodup_finRange m)

theorem mem_slots {n m : ℕ} (p : Fin n × Fin m) : p ∈ (List.finRange n).product (List.finRange m) :=
  List.mem_product.mpr ⟨List.mem_finRange p.1, List.mem_finRange p.2⟩

/-- **What `Check_` checks**, but for the key -/
structure Checked (A : AddrParams) (s : CAddrMan) : Prop where
  total : (s.vRandom.length : ℤ) = s.nTried + s.nNew
  nTried : s.nTried = (s.mapInfo.toList.countP fun x ↦ x.2.fInTried : ℕ)
  nNew : s.nNew = (s.mapInfo.toList.countP fun x ↦ !x.2.fInTried : ℕ)
  addr : ∀ (nId : ℤ) (info : CAddrInfo), s.mapInfo[nId]? = some info →
    (s.mapAddr info.ip).getD 0 = nId
  random : ∀ (nId : ℤ) (info : CAddrInfo), s.mapInfo[nId]? = some info →
    0 ≤ info.nRandomPos ∧ s.vRandom[info.nRandomPos.toNat]? = some nId
  placed : Placed A s.nKey ∅ s.entry s.vvNew s.vvTried

theorem nodup_keys (s : CAddrMan) : (s.mapInfo.toList.map Prod.fst).Nodup := by
  rw [Std.TreeMap.map_fst_toList_eq_keys]
  refine s.mapInfo.distinct_keys.imp fun h heq ↦ h ?_
  rw [compare_eq_iff_eq, heq]

/-- All entries have been counted. -/
def tally (s : CAddrMan) : Tally := s.mapInfo.toList.foldl Tally.add ⟨∅, ∅⟩

theorem tallied_tally (s : CAddrMan) : Tallied ⟨∅, ∅⟩ s.mapInfo.toList s.tally :=
  tallied _ s.nodup_keys _ fun _ _ ↦ ⟨Std.TreeSet.not_mem_emptyc, rfl⟩

theorem mem_tally {n : ℤ} : n ∈ s.tally.setTried ↔
    ∃ info : CAddrInfo, s.mapInfo[n]? = some info ∧ info.fInTried = true := by
  rw [s.tallied_tally.mem_setTried n]
  simp only [Std.TreeMap.mem_toList_iff_getElem?_eq_some]
  exact or_iff_right Std.TreeSet.not_mem_emptyc

theorem getElem?_tally {n r : ℤ} : s.tally.mapNew[n]? = some r ↔ ∃ info : CAddrInfo,
    s.mapInfo[n]? = some info ∧ info.fInTried = false ∧ info.nRefCount = r := by
  rw [s.tallied_tally.getElem?_mapNew n r]
  simp only [Std.TreeMap.mem_toList_iff_getElem?_eq_some]
  exact or_iff_right nofun

/-- The references of an id without a new entry are not counted. -/
theorem getElem?_tally_eq_none {n : ℤ}
    (h : ∀ info : CAddrInfo, s.mapInfo[n]? = some info → info.fInTried = true) :
    s.tally.mapNew[n]? = none := by
  refine Option.eq_none_iff_forall_ne_some.mpr fun r hr ↦ ?_
  obtain ⟨info, hinfo, hnew, -⟩ := getElem?_tally.mp hr
  rw [h info hinfo] at hnew
  cases hnew

/-- The references of a new entry are left, and none of any other. -/
theorem refsLeft_tally {n : ℤ} {info : CAddrInfo} (h : s.mapInfo[n]? = some info)
    (htried : info.fInTried = false) : refsLeft s.tally.mapNew n = info.nRefCount := by
  rw [refsLeft, getElem?_tally.mpr ⟨info, h, htried, rfl⟩, Option.getD_some]

theorem refsLeft_tally_of_tried {n : ℤ} {info : CAddrInfo} (h : s.mapInfo[n]? = some info)
    (htried : info.fInTried = true) : refsLeft s.tally.mapNew n = 0 := by
  have hnone : s.tally.mapNew[n]? = none := by
    refine getElem?_tally_eq_none fun info' hinfo' ↦ ?_
    rw [h] at hinfo'
    cases hinfo'
    exact htried
  rw [refsLeft, hnone, Option.getD_none]

theorem count_new (s : CAddrMan) (n : ℤ) : Slots.count s.vvNew n =
    ((List.finRange 1024).product (List.finRange 64)).countP fun p ↦ s.vvNew p = n :=
  Slots.count_eq_countP s.vvNew n (nodup_slots 1024 64) mem_slots

theorem foldlM_checkEntry {t : Tally} : s.mapInfo.toList.foldlM s.checkEntry ⟨∅, ∅⟩ = .ok t ↔
    (∀ x ∈ s.mapInfo.toList, EntryOk s x.1 x.2) ∧ t = s.tally :=
  foldlM_eq_ok (f := s.checkEntry) (g := Tally.add) (P := fun x ↦ EntryOk s x.1 x.2)
    fun _ _ _ ↦ checkEntry_eq_ok

/-- The check as a list of conditions -/
theorem checkTables_eq_ok : checkTables A s = .ok () ↔ (s.vRandom.length : ℤ) = s.nTried + s.nNew ∧
    (∀ x ∈ s.mapInfo.toList, EntryOk s x.1 x.2) ∧ (s.tally.setTried.size : ℤ) = s.nTried ∧
    (s.tally.mapNew.size : ℤ) = s.nNew ∧
    (∃ setTried, ((List.finRange 256).product (List.finRange 64)).foldlM (checkTriedSlot A s)
      s.tally.setTried = .ok setTried ∧ setTried.size = 0) ∧
    ∃ mapNew, ((List.finRange 1024).product (List.finRange 64)).foldlM (checkNewSlot A s)
      s.tally.mapNew = .ok mapNew ∧ mapNew.size = 0 := by
  rw [checkTables]
  simp only [bind_eq_ok, failIf_eq_ok, not_not, ne_eq, foldlM_checkEntry, exists_const]
  constructor
  · rintro ⟨htotal, t, ⟨hentries, rfl⟩, hnTried, hnNew, setTried, hsetTried, mapNew, hmapNew, h₁, h₂⟩
    exact ⟨htotal, hentries, hnTried, hnNew, ⟨setTried, hsetTried, h₁⟩, mapNew, hmapNew, h₂⟩
  · rintro ⟨htotal, hentries, hnTried, hnNew, ⟨setTried, hsetTried, h₁⟩, mapNew, hmapNew, h₂⟩
    exact ⟨htotal, _, ⟨hentries, rfl⟩, hnTried, hnNew, setTried, hsetTried, mapNew, hmapNew, h₁, h₂⟩

theorem isEmpty_of_size {mapNew : Std.TreeMap ℤ ℤ} (h : mapNew.size = 0) (n : ℤ) :
    mapNew[n]? = none := by
  have hempty : mapNew.isEmpty = true := by rw [Std.TreeMap.isEmpty_eq_size_eq_zero, h]; rfl
  exact Std.TreeMap.getElem?_of_isEmpty hempty

/-- **When the check passes**, the tables are right. -/
theorem Checked.of_checkTables (h : checkTables A s = .ok ()) : Checked A s := by
  obtain ⟨htotal, hentries, hnTried, hnNew, ⟨setTried, hsetTried, hnoTried⟩, mapNew, hmapNew, hnoNew⟩ :=
    checkTables_eq_ok.mp h
  have hentry : ∀ (nId : ℤ) (info : CAddrInfo), s.mapInfo[nId]? = some info → EntryOk s nId info :=
    fun nId info hinfo ↦ hentries (nId, info) (Std.TreeMap.mem_toList_iff_getElem?_eq_some.mpr hinfo)
  obtain ⟨htriedSlots, hmem⟩ := of_checkTriedSlots hsetTried
  have hleft : AllLeft s.tally.mapNew := by
    intro n r hr
    obtain ⟨info, hinfo, hnew, rfl⟩ := getElem?_tally.mp hr
    exact ((hentry n info hinfo).new hnew).1
  obtain ⟨hnewSlots, -, hcount⟩ := of_checkNewSlots hleft hmapNew
  -- every tried id has a slot, and every reference of a new one
  have hallTried : ∀ n, n ∈ s.tally.setTried → ∃ p, s.vvTried p ≠ -1 ∧ s.vvTried p = n := by
    intro n hn
    by_contra hnone
    push Not at hnone
    have hin : n ∈ setTried := (hmem n).mpr ⟨hn, fun p _ ↦ hnone p⟩
    have hempty : setTried.isEmpty = true := by rw [Std.TreeSet.isEmpty_eq_size_eq_zero, hnoTried]; rfl
    exact Std.TreeSet.not_mem_of_isEmpty hempty hin
  have hallNew : ∀ n, refsLeft s.tally.mapNew n = if n = -1 then 0 else (Slots.count s.vvNew n : ℤ) := by
    intro n
    have hzero : refsLeft mapNew n = 0 := by
      rw [refsLeft, isEmpty_of_size hnoNew n, Option.getD_none]
    rw [hcount n, hzero, zero_add, s.count_new n]
    split_ifs <;> rfl
  have hnone : s.entry (-1) = none := by
    rw [entry_eq_none_iff]
    by_contra hsome
    obtain ⟨info, hinfo⟩ := Option.ne_none_iff_exists'.mp hsome
    cases htried : info.fInTried with
    | true =>
      obtain ⟨p, hp, heq⟩ := hallTried (-1) (mem_tally.mpr ⟨info, hinfo, htried⟩)
      exact hp heq
    | false =>
      have hpos := ((hentry (-1) info hinfo).new htried).1
      have hzero := hallNew (-1)
      rw [refsLeft_tally hinfo htried, if_pos rfl] at hzero
      omega
  refine ⟨htotal, ?_, ?_, fun nId info hinfo ↦ (hentry nId info hinfo).addr,
    fun nId info hinfo ↦ (hentry nId info hinfo).random, ⟨hnone, fun nId hid ↦ ?_⟩⟩
  · rw [← hnTried, s.tallied_tally.size_setTried]
    simp
  · rw [← hnNew, s.tallied_tally.size_mapNew]
    simp
  · refine ⟨fun p hp ↦ ?_, fun p hp ↦ ?_, ?_, ?_, ?_, ?_⟩
    · obtain ⟨info, hinfo, hslot⟩ := hnewSlots p (mem_slots p) (by rwa [hp])
      rw [hp] at hinfo
      refine ⟨_, entry_of_getElem? hinfo, ?_, hslot⟩
      -- an id that is named has references, so it is not tried
      by_contra htried
      have hpos : 0 < Slots.count s.vvNew nId := Slots.count_pos_iff.mpr ⟨p, hp⟩
      have hrefs := hallNew nId
      rw [refsLeft_tally_of_tried hinfo (eq_true_of_ne_false htried), if_neg hid] at hrefs
      omega
    · obtain ⟨⟨info, hinfo, hslot⟩, hin⟩ := htriedSlots p (mem_slots p) (by rwa [hp])
      rw [hp] at hinfo hin
      obtain ⟨info', hinfo', htried⟩ := mem_tally.mp hin
      rw [hinfo] at hinfo'
      cases hinfo'
      exact ⟨_, entry_of_getElem? hinfo, htried, hslot⟩
    · intro e he
      obtain ⟨info, hinfo, rfl⟩ := exists_getElem? he
      have hrefs := hallNew nId
      rw [if_neg hid] at hrefs
      cases htried : info.fInTried with
      | true =>
        have hzero := ((hentry nId info hinfo).tried htried).2
        rw [refsLeft_tally_of_tried hinfo htried] at hrefs
        exact ⟨hzero.trans hrefs, hzero.trans_le (by decide)⟩
      | false =>
        rw [refsLeft_tally hinfo htried] at hrefs
        exact ⟨hrefs, ((hentry nId info hinfo).new htried).2⟩
    · intro e he hnew _
      obtain ⟨info, hinfo, rfl⟩ := exists_getElem? he
      exact ((hentry nId info hinfo).new hnew).1
    · intro e he htried
      obtain ⟨info, hinfo, rfl⟩ := exists_getElem? he
      obtain ⟨p, hp, heq⟩ := hallTried nId (mem_tally.mpr ⟨info, hinfo, htried⟩)
      obtain ⟨⟨info', hinfo', hslot⟩, -⟩ := htriedSlots p (mem_slots p) hp
      rw [heq, hinfo] at hinfo'
      cases hinfo'
      have hat : s.vvTried (info.triedSlot A s.nKey) = nId := by rw [hslot, heq]
      exact ⟨hat, ((hentry nId info hinfo).tried htried).1⟩
    · intro e he
      obtain ⟨info, hinfo, rfl⟩ := exists_getElem? he
      exact (hentry nId info hinfo).times

theorem Checked.placedAt (h : Checked A s) {nId : ℤ} {info : CAddrInfo}
    (hinfo : s.mapInfo[nId]? = some info) :
    PlacedAt A s.nKey False s.vvNew s.vvTried nId (some { info with nRandomPos := 0 }) :=
  (h.placed.at_some (entry_of_getElem? hinfo)).congr (fun _ ↦ Iff.rfl) (fun _ ↦ Iff.rfl)
    fun hl ↦ Set.notMem_empty nId hl

/-- The check begins with as many references left as there are slots. -/
theorem Checked.refsLeft_tally (h : Checked A s) {n : ℤ} (hn : n ≠ -1) :
    refsLeft s.tally.mapNew n = (Slots.count s.vvNew n : ℤ) := by
  cases hinfo : s.mapInfo[n]? with
  | none =>
    have hzero : Slots.count s.vvNew n = 0 := Slots.count_eq_zero_iff.mpr fun p hp ↦ by
      obtain ⟨e, he, -⟩ := h.placed.new (p := p) (by rwa [hp])
      rw [hp, entry_eq_none_iff.mpr hinfo] at he
      cases he
    have hget : s.tally.mapNew[n]? = none := by
      refine getElem?_tally_eq_none fun info hinfo' ↦ ?_
      rw [hinfo] at hinfo'
      cases hinfo'
    rw [refsLeft, hget, hzero, Option.getD_none]
    rfl
  | some info =>
    cases htried : info.fInTried with
    | true =>
      rw [refsLeft_tally_of_tried hinfo htried]
      exact ((h.placedAt hinfo).refs_of_tried htried).symm.trans ((h.placedAt hinfo).refs _ rfl).1
    | false =>
      rw [CAddrMan.refsLeft_tally hinfo htried]
      exact ((h.placedAt hinfo).refs _ rfl).1

/-- **When the tables are right, the check passes.** -/
theorem Checked.checkTables (h : Checked A s) : checkTables A s = .ok () := by
  have hleft : AllLeft s.tally.mapNew := by
    intro n r hr
    obtain ⟨info, hinfo, hnew, rfl⟩ := getElem?_tally.mp hr
    exact (h.placedAt hinfo).held { info with nRandomPos := 0 } rfl hnew not_false
  have htriedSlots : ∀ p ∈ (List.finRange 256).product (List.finRange 64), s.vvTried p ≠ -1 →
      TriedSlotOk A s p ∧ s.vvTried p ∈ s.tally.setTried := by
    intro p _ hp
    obtain ⟨e, he, htried, hslot⟩ := h.placed.tried hp
    obtain ⟨info, hinfo, rfl⟩ := exists_getElem? he
    exact ⟨⟨info, hinfo, hslot⟩, mem_tally.mpr ⟨info, hinfo, htried⟩⟩
  obtain ⟨setTried, hsetTried⟩ := checkTriedSlots (nodup_slots 256 64) _ htriedSlots
  have hnewSlots : ∀ p ∈ (List.finRange 1024).product (List.finRange 64), s.vvNew p ≠ -1 →
      NewSlotOk A s p := by
    intro p _ hp
    obtain ⟨e, he, -, hslot⟩ := h.placed.new hp
    obtain ⟨info, hinfo, rfl⟩ := exists_getElem? he
    exact ⟨info, hinfo, hslot⟩
  obtain ⟨mapNew, hmapNew⟩ := checkNewSlots hleft hnewSlots fun n hn ↦ by
    rw [h.refsLeft_tally hn, s.count_new n]
  refine checkTables_eq_ok.mpr ⟨h.total, fun x hx ↦ ?_, ?_, ?_, ⟨setTried, hsetTried, ?_⟩,
    mapNew, hmapNew, ?_⟩
  · have hinfo : s.mapInfo[x.1]? = some x.2 := Std.TreeMap.mem_toList_iff_getElem?_eq_some.mp hx
    have hx := h.placedAt hinfo
    exact ⟨fun htried ↦ ⟨(hx.home { x.2 with nRandomPos := 0 } rfl htried).2, hx.refs_of_tried htried⟩,
      fun hnew ↦ ⟨hx.held { x.2 with nRandomPos := 0 } rfl hnew not_false, (hx.refs _ rfl).2⟩,
      h.addr _ _ hinfo, h.random _ _ hinfo, hx.times { x.2 with nRandomPos := 0 } rfl⟩
  · rw [h.nTried, s.tallied_tally.size_setTried]
    simp
  · rw [h.nNew, s.tallied_tally.size_mapNew]
    simp
  · have hempty : setTried.isEmpty = true := Std.TreeSet.isEmpty_iff_forall_not_mem.mpr fun n hn ↦ by
      obtain ⟨hmem, hno⟩ := ((of_checkTriedSlots hsetTried).2 n).mp hn
      obtain ⟨info, hinfo, htried⟩ := mem_tally.mp hmem
      have hslot := ((h.placedAt hinfo).home _ rfl htried).1
      refine hno _ (mem_slots _) ?_ hslot
      rw [hslot]
      exact h.placed.ne_of_some (entry_of_getElem? hinfo)
    rw [Std.TreeSet.isEmpty_eq_size_eq_zero] at hempty
    exact beq_iff_eq.mp hempty
  · have hempty : mapNew.isEmpty = true := Std.TreeMap.isEmpty_iff_forall_not_mem.mpr fun n hn ↦ by
      obtain ⟨-, hleft', hcount⟩ := of_checkNewSlots hleft hmapNew
      obtain ⟨r, hr⟩ := Option.isSome_iff_exists.mp (Std.TreeMap.mem_iff_isSome_getElem?.mp hn)
      have hpos := hleft' n r hr
      have hn' := hcount n
      rw [refsLeft, refsLeft, hr, Option.getD_some] at hn'
      by_cases hid : n = -1
      · have hget : s.tally.mapNew[n]? = none := getElem?_tally_eq_none fun info hinfo ↦
          absurd hid (h.placed.ne_of_some (entry_of_getElem? hinfo))
        rw [hget, if_pos hid, Option.getD_none] at hn'
        omega
      · have hall := h.refsLeft_tally hid
        rw [refsLeft, s.count_new n] at hall
        rw [if_neg hid] at hn'
        omega
    rw [Std.TreeMap.isEmpty_eq_size_eq_zero] at hempty
    exact beq_iff_eq.mp hempty

/-! ## Return codes -/

/-- A failure has a return code of its own. -/
def Nonzero {α : Type} (x : Except ℤ α) : Prop := ∀ code, x = .error code → code ≠ 0

theorem Nonzero.ok {α : Type} (a : α) : Nonzero (.ok a) := nofun

theorem Nonzero.error {α : Type} {code : ℤ} (h : code ≠ 0) : Nonzero (.error code : Except ℤ α) := by
  rintro _ ⟨⟩
  exact h

theorem Nonzero.failIf {bad : Prop} [Decidable bad] {code : ℤ} (h : code ≠ 0) :
    Nonzero (failIf bad code) := by
  unfold CAddrMan.failIf
  split
  · exact Nonzero.error h
  · exact Nonzero.ok ()

theorem Nonzero.bind {α β : Type} {x : Except ℤ α} {f : α → Except ℤ β} (hx : Nonzero x)
    (hf : ∀ a, Nonzero (f a)) : Nonzero (x >>= f) := by
  cases x with
  | ok a => exact hf a
  | error code =>
    rintro _ ⟨⟩
    exact hx code rfl

theorem Nonzero.foldlM {α β : Type} {f : β → α → Except ℤ β} (hf : ∀ b a, Nonzero (f b a)) (l : List α)
    (b : β) : Nonzero (l.foldlM f b) := by
  induction l generalizing b with
  | nil => exact Nonzero.ok b
  | cons a l ih =>
    rw [List.foldlM_cons]
    exact (hf b a).bind ih

theorem nonzero_checkTables : Nonzero (checkTables A s) := by
  have hentry : ∀ t x, Nonzero (s.checkEntry t x) := by
    rintro t ⟨n, info⟩
    refine Nonzero.bind ?_ fun t ↦ (Nonzero.failIf (by decide)).bind fun _ ↦
      (Nonzero.failIf (by decide)).bind fun _ ↦ (Nonzero.failIf (by decide)).bind fun _ ↦
      (Nonzero.failIf (by decide)).bind fun _ ↦ Nonzero.ok t
    rw [tallyEntry]
    split
    all_goals exact (Nonzero.failIf (by decide)).bind fun _ ↦
      (Nonzero.failIf (by decide)).bind fun _ ↦ Nonzero.ok _
  have htried : ∀ setTried p, Nonzero (checkTriedSlot A s setTried p) := by
    intro setTried p
    rw [checkTriedSlot]
    split
    · exact Nonzero.ok _
    · split
      · exact Nonzero.error (by decide)
      · exact (Nonzero.failIf (by decide)).bind fun _ ↦ (Nonzero.failIf (by decide)).bind fun _ ↦
          (Nonzero.failIf (by decide)).bind fun _ ↦ Nonzero.ok _
  have hnew : ∀ mapNew p, Nonzero (checkNewSlot A s mapNew p) := by
    intro mapNew p
    rw [checkNewSlot]
    split
    · exact Nonzero.ok _
    · split
      · exact (Nonzero.failIf (by decide)).bind fun _ ↦ Nonzero.ok _
      · exact Nonzero.error (by decide)
  rw [checkTables]
  exact (Nonzero.failIf (by decide)).bind fun _ ↦ (Nonzero.foldlM hentry _ _).bind fun _ ↦
    (Nonzero.failIf (by decide)).bind fun _ ↦ (Nonzero.failIf (by decide)).bind fun _ ↦
    (Nonzero.foldlM htried _ _).bind fun _ ↦ (Nonzero.foldlM hnew _ _).bind fun _ ↦
    (Nonzero.failIf (by decide)).bind fun _ ↦ Nonzero.failIf (by decide)

/-- **The check passes** just when what it checks is right and there is a key. -/
theorem check_eq_zero_iff : check_ A s = 0 ↔ Checked A s ∧ s.nKey ≠ 0 := by
  rw [check_]
  constructor
  · intro h
    split at h
    next code hcode => exact absurd h (nonzero_checkTables code hcode)
    next hok =>
      refine ⟨.of_checkTables hok, fun hzero ↦ ?_⟩
      rw [if_pos hzero] at h
      cases h
  · rintro ⟨hchecked, hkey⟩
    rw [hchecked.checkTables]
    exact if_neg hkey

/-! ## The invariant implies it -/

/-- As many entries are tried as slots are taken. -/
theorem countP_tried (h : Placed A s.nKey ∅ s.entry s.vvNew s.vvTried) :
    (s.mapInfo.toList.countP fun x ↦ x.2.fInTried) + Slots.count s.vvTried (-1) = 256 * 64 := by
  set slots := (List.finRange 256).product (List.finRange 64)
  have hids : ((s.mapInfo.toList.filter fun x ↦ x.2.fInTried).map Prod.fst).Nodup :=
    s.nodup_keys.sublist (List.filter_sublist.map Prod.fst)
  have hnames : ((slots.filter fun p ↦ s.vvTried p ≠ -1).map s.vvTried).Nodup := by
    refine ((nodup_slots 256 64).filter _).map_on fun p hp q hq heq ↦ ?_
    simp only [ne_eq, decide_not, List.mem_filter, Bool.not_eq_true', decide_eq_false_iff_not] at hp hq
    obtain ⟨e, he, -, hslot⟩ := h.tried hp.2
    obtain ⟨e', he', -, hslot'⟩ := h.tried hq.2
    rw [heq, he'] at he
    cases he
    exact hslot.symm.trans hslot'
  have hmem : ∀ n, n ∈ (s.mapInfo.toList.filter fun x ↦ x.2.fInTried).map Prod.fst ↔
      n ∈ (slots.filter fun p ↦ s.vvTried p ≠ -1).map s.vvTried := by
    intro n
    simp only [List.mem_map, List.mem_filter, ne_eq, decide_not, Bool.not_eq_true',
      decide_eq_false_iff_not]
    constructor
    · rintro ⟨⟨n, info⟩, ⟨hx, htried⟩, rfl⟩
      have he := entry_of_getElem? (Std.TreeMap.mem_toList_iff_getElem?_eq_some.mp hx)
      have hslot := ((h.at_some he).home _ rfl htried).1
      exact ⟨_, ⟨mem_slots _, by rw [hslot]; exact h.ne_of_some he⟩, hslot⟩
    · rintro ⟨p, ⟨-, hp⟩, rfl⟩
      obtain ⟨e, he, htried, -⟩ := h.tried hp
      obtain ⟨info, hinfo, rfl⟩ := exists_getElem? he
      exact ⟨(_, info), ⟨Std.TreeMap.mem_toList_iff_getElem?_eq_some.mpr hinfo, htried⟩, rfl⟩
  have hlen := ((List.perm_ext_iff_of_nodup hids hnames).mpr hmem).length_eq
  rw [List.length_map, List.length_map, ← List.countP_eq_length_filter,
    ← List.countP_eq_length_filter] at hlen
  rw [hlen, Slots.count_eq_countP s.vvTried (-1) (nodup_slots 256 64) mem_slots, Nat.add_comm]
  have hall := List.length_eq_countP_add_countP (fun p ↦ decide (s.vvTried p = -1)) (l := slots)
  have hslots : slots.length = 256 * 64 := (List.length_product _ _).trans (by
    rw [List.length_finRange, List.length_finRange])
  rw [hslots] at hall
  rw [hall]
  congr 1
  exact List.countP_congr fun p _ ↦ by simp

theorem Ordered.size_eq (h : Ordered s) : s.mapInfo.size = s.vRandom.length := by
  rw [← Std.TreeMap.length_keys, ← Std.TreeMap.map_fst_toList_eq_keys]
  refine ((List.perm_ext_iff_of_nodup s.nodup_keys h.random.nodup).mpr fun n ↦ ?_).length_eq
  rw [h.mem_vRandom, List.mem_map]
  constructor
  · rintro ⟨⟨n, info⟩, hx, rfl⟩
    exact ⟨info, Std.TreeMap.mem_toList_iff_getElem?_eq_some.mp hx⟩
  · rintro ⟨info, hinfo⟩
    exact ⟨(n, info), Std.TreeMap.mem_toList_iff_getElem?_eq_some.mpr hinfo, rfl⟩

/-- Every entry is tried or new. -/
theorem size_eq_countP (s : CAddrMan) : s.mapInfo.size =
    (s.mapInfo.toList.countP fun x ↦ x.2.fInTried) + s.mapInfo.toList.countP fun x ↦ !x.2.fInTried := by
  have hall := List.length_eq_countP_add_countP (fun x : ℤ × CAddrInfo ↦ x.2.fInTried)
    (l := s.mapInfo.toList)
  have hnew : (s.mapInfo.toList.countP fun x ↦ decide ¬ (x.2.fInTried = true)) =
      s.mapInfo.toList.countP fun x ↦ !x.2.fInTried := List.countP_congr fun x _ ↦ by simp
  rwa [Std.TreeMap.length_toList, hnew] at hall

/-- It is enough that the tables are right, that they have the right counts, and that each entry is
found by its address. -/
theorem Checked.of_placed (hplaced : Placed A s.nKey ∅ s.entry s.vvNew s.vvTried) (hordered : Ordered s)
    (htried : s.nTried + Slots.count s.vvTried (-1) = 256 * 64)
    (htotal : (s.vRandom.length : ℤ) = s.nTried + s.nNew)
    (haddr : ∀ (nId : ℤ) (info : CAddrInfo), s.mapInfo[nId]? = some info →
      (s.mapAddr info.ip).getD 0 = nId) : Checked A s := by
  have hcount := countP_tried hplaced
  have hsize := hordered.size_eq
  have hall := s.size_eq_countP
  have hnTried : s.nTried = (s.mapInfo.toList.countP fun x ↦ x.2.fInTried : ℕ) := by omega
  exact ⟨htotal, hnTried, by omega, haddr, fun nId info hinfo ↦ ⟨hordered.pos nId info hinfo,
    (hordered.random nId _).mp (by rw [position, hinfo, Option.map_some])⟩, hplaced⟩

/-- **The invariant implies what is checked.** -/
theorem Sound.checked (h : Sound A nKey ∅ 0 s) : Checked A s := by
  refine .of_placed h.placed h.indexed.ordered h.tried (h.total.trans (add_zero _))
    fun nId info hinfo ↦ ?_
  rw [(h.indexed.addr info.ip nId).mpr ⟨info, hinfo, rfl⟩, Option.getD_some]

/-- What an address manager is to be, in its own terms -/
structure Consistent (A : AddrParams) (s : CAddrMan) : Prop where
  /-- `mapAddr` and `mapInfo` are in bijection -/
  addr : ∀ ip nId, s.mapAddr ip = some nId ↔
    ∃ info : CAddrInfo, s.mapInfo[nId]? = some info ∧ info.ip = ip
  /-- and so are `vRandom` and `mapInfo` -/
  random : ∀ (i : ℕ) (nId : ℤ), s.vRandom[i]? = some nId ↔
    ∃ info : CAddrInfo, s.mapInfo[nId]? = some info ∧ info.nRandomPos = i
  new : ∀ (nId : ℤ) (info : CAddrInfo), s.mapInfo[nId]? = some info → info.fInTried = false →
    info.nRefCount = Slots.count s.vvNew nId ∧ 1 ≤ info.nRefCount ∧ info.nRefCount ≤ 8
  tried : ∀ (nId : ℤ) (info : CAddrInfo), s.mapInfo[nId]? = some info → info.fInTried = true →
    ∀ p, s.vvTried p = nId ↔ p = info.triedSlot A s.nKey
  nNew : s.nNew = (s.mapInfo.toList.countP fun x ↦ !x.2.fInTried : ℕ)
  nTried : s.nTried = (s.mapInfo.toList.countP fun x ↦ x.2.fInTried : ℕ)

theorem Sound.toConsistent (h : Sound A nKey ∅ 0 s) : Consistent A s where
  addr := h.indexed.addr
  random i nId := by
    rw [← h.indexed.random nId i, position, Option.map_eq_some_iff]
    refine exists_congr fun info ↦ and_congr_right fun hinfo ↦ ?_
    have hpos := h.indexed.pos nId info hinfo
    omega
  new nId info hinfo htried := by
    have hat := h.placed.at_some (entry_of_getElem? hinfo)
    obtain ⟨hrefs, hmax⟩ := hat.refs _ rfl
    exact ⟨hrefs, hat.held { info with nRandomPos := 0 } rfl htried (Set.notMem_empty nId), hmax⟩
  tried nId info hinfo htried p := by
    have hat := h.placed.at_some (entry_of_getElem? hinfo)
    have hslot : s.vvTried (info.triedSlot A s.nKey) = nId := (hat.home _ rfl htried).1
    constructor
    · intro hp
      obtain ⟨e, ⟨⟩, -, hp'⟩ := hat.tried p hp
      exact hp'.symm
    · rintro rfl
      exact hslot
  nNew := h.checked.nNew
  nTried := h.checked.nTried

/-- **Whatever is called in whatever order with positive times**, the manager is consistent, its check
passes, and the next call runs into no assertion. -/
theorem Reachable.holds (h : Reachable A nKey s) : Consistent A s ∧
    check_ A s = (if nKey = 0 then -16 else 0) ∧
    ∀ op : Op, op.Timely → ∃ s', s.step A op = .ok s' := by
  have hsound := h.isSound
  refine ⟨hsound.toConsistent, ?_, fun op htimely ↦ ?_⟩
  · rw [check_, hsound.checked.checkTables, hsound.key]
  · obtain ⟨s', hs', -⟩ := hsound.step htimely
    exact ⟨s', hs'⟩

namespace Sample

/-- Every address can be reached and is a group of its own; hashes are lengths. -/
def params : AddrParams where
  isRoutable _ := true
  getGroup ip := ip.toList
  getCheapHash := List.length

def node : CAddress where
  ip := Vector.replicate 16 7
  port := 6556
  nServices := 1
  nTime := 1000
  nLastTry := 0

/-- Another node. -/
def otherNode : CAddress := { node with ip := Vector.replicate 16 9 }

/-- Operations, one after another. -/
def stepAll (A : AddrParams) : List Op → CAddrMan → Except Fault CAddrMan
  | [], s => .ok s
  | op :: ops, s => do
    let s ← s.step A op
    stepAll A ops s

/-- A node is heard of and tried, and then another one is heard of. -/
def busyOps : List Op :=
  [.add node node.ip 0 2000 2000 0, .good node.toCService 1500,
    .add otherNode node.ip 0 2000 2000 0]

def busy : CAddrMan := (stepAll params busyOps (init 1)).toOption.getD (init 1)

example : (busy.nTried, busy.nNew) = (1, 1) := by decide +kernel

theorem reachable_stepAll {A : AddrParams} {nKey : BitVec 256} {s' : CAddrMan} (ops : List Op) :
    ∀ {s : CAddrMan}, Reachable A nKey s → (∀ op ∈ ops, op.Timely) → stepAll A ops s = .ok s' →
      Reachable A nKey s' := by
  induction ops with
  | nil =>
    intro s h _ hrun
    cases hrun
    exact h
  | cons op ops ih =>
    intro s h htimely hrun
    obtain ⟨s₁, hs₁, hrun⟩ := bind_eq_ok.1 hrun
    obtain ⟨hop, hops⟩ := List.forall_mem_cons.1 htimely
    exact ih (h.step hop hs₁) hops hrun

theorem stepAll_busy : stepAll params busyOps (init 1) = .ok busy := by
  have hok : (stepAll params busyOps (init 1)).toOption.isSome = true := by decide +kernel
  rw [busy]
  cases hrun : stepAll params busyOps (init 1) with
  | error fault =>
    rw [hrun] at hok
    cases hok
  | ok s => rfl

theorem timely_busyOps : ∀ op ∈ busyOps, op.Timely :=
  List.forall_mem_cons.2 ⟨trivial, List.forall_mem_cons.2 ⟨show (0 : Int64) < 1500 by decide,
    List.forall_mem_singleton.2 trivial⟩⟩

theorem run_busy : Reachable params 1 busy :=
  reachable_stepAll busyOps .init timely_busyOps stepAll_busy

end Sample

/-- One node is tried, and another is new. -/
theorem Reachable.holds_sample : Consistent Sample.params Sample.busy ∧
    check_ Sample.params Sample.busy = 0 ∧
    ∃ s', Sample.busy.step Sample.params (.good Sample.otherNode.toCService 1500) = .ok s' := by
  obtain ⟨hconsistent, hcheck, hstep⟩ := Reachable.holds Sample.run_busy
  exact ⟨hconsistent, hcheck.trans (if_neg (by decide)), hstep _ (show (0 : Int64) < 1500 by decide)⟩

end CAddrMan

end Bws
