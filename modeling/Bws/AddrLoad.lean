import Bws.AddrFile
import Bws.AddrRoundTrip
import Bws.Lib.Greedy

/-!
# When a loaded address manager is consistent

`Unserialize` takes what a stream says without looking at it: counts below zero, a key that is null,
addresses that come twice, times.  It clears the tables, and not the maps.  `AddrFile.Loadable` is
the condition on the stream and on what was in the manager before under which the check passes
afterwards, and it does not pass otherwise (`CAddrMan.check_unserialize_iff`).

An entry is found by its number in the list of the records that get one (`AddrFile.records`).  Slots
of the new table are granted to the numbers in the order in which they ask (`AddrFile.granted`).
-/

namespace Bws

/-- A new entry without references -/
abbrev CAddrInfo.Doomed (info : CAddrInfo) : Prop := info.fInTried = false ∧ info.nRefCount = 0

namespace CAddrMan

variable {A : AddrParams} {s s' : CAddrMan}

/-! ## Pruning -/

/-- What is left when the entries `l` have been gone through. -/
structure Pruned (s : CAddrMan) (l : List (ℤ × CAddrInfo)) (s' : CAddrMan) : Prop where
  nKey : s'.nKey = s.nKey
  nTried : s'.nTried = s.nTried
  vvTried : s'.vvTried = s.vvTried
  vvNew : s'.vvNew = s.vvNew
  counts : ∃ k : ℕ, s'.vRandom.length + k = s.vRandom.length ∧ s'.nNew + k = s.nNew ∧
    s'.mapInfo.size + k = s.mapInfo.size
  gone : ∀ x ∈ l, x.2.Doomed → s'.entry x.1 = none ∧ s'.mapAddr x.2.ip = none
  entry : ∀ id, (∀ x ∈ l, x.2.Doomed → x.1 ≠ id) → s'.entry id = s.entry id
  addr : ∀ ip, (∀ x ∈ l, x.2.Doomed → x.2.ip ≠ ip) → s'.mapAddr ip = s.mapAddr ip
  ordered : Ordered s → Ordered s'

theorem Pruned.cons (s : CAddrMan) {s₁ : CAddrMan} {n : ℤ} {info : CAddrInfo}
    {l : List (ℤ × CAddrInfo)} (hdelete : s.delete n = .ok s₁)
    (hinfo : s.entry n = some { info with nRandomPos := 0 }) (hdoomed : info.Doomed)
    (hn : n ∉ l.map Prod.fst) (h : Pruned s₁ l s') : Pruned s ((n, info) :: l) s' := by
  obtain ⟨e, he, -, hdeleted, haddr, -, hsize⟩ := delete_eq_ok hdelete
  rw [hinfo] at he
  cases he
  obtain ⟨k, hlen, hnNew, hmap⟩ := h.counts
  have hother : ∀ x ∈ l, x.2.Doomed → x.1 ≠ n :=
    fun x hx _ heq ↦ hn (heq ▸ List.mem_map_of_mem hx)
  have hlen₁ := hdeleted.length
  have hnNew₁ := hdeleted.nNew
  refine ⟨h.nKey.trans hdeleted.nKey, h.nTried.trans hdeleted.nTried,
    h.vvTried.trans hdeleted.vvTried, h.vvNew.trans hdeleted.vvNew,
    ⟨k + 1, by omega, by push_cast; omega, by omega⟩, ?_, ?_, ?_, ?_⟩
  · refine List.forall_mem_cons.mpr ⟨fun _ ↦ ⟨?_, ?_⟩, h.gone⟩
    · rw [h.entry n hother, hdeleted.entry, Function.update_self]
    · by_cases hip : ∃ x ∈ l, x.2.Doomed ∧ x.2.ip = info.ip
      · obtain ⟨x, hx, hdoomed', hip⟩ := hip
        exact hip ▸ (h.gone x hx hdoomed').2
      · rw [h.addr info.ip fun x hx hd hip' ↦ hip ⟨x, hx, hd, hip'⟩, haddr]
        exact Function.update_self ..
  · intro id hid
    obtain ⟨hne, hid⟩ := List.forall_mem_cons.mp hid
    rw [h.entry id hid, hdeleted.entry, Function.update_of_ne (hne hdoomed).symm]
  · intro ip hip
    obtain ⟨hne, hip⟩ := List.forall_mem_cons.mp hip
    rw [h.addr ip hip, haddr]
    exact Function.update_of_ne (hne hdoomed).symm ..
  · intro hordered
    obtain ⟨e', he', heq⟩ := entry_eq_some_iff.mp hinfo
    obtain ⟨s₂, hs₂, hordered₂⟩ := hordered.delete he'
      ((congrArg CAddrInfo.fInTried heq).trans hdoomed.1)
      ((congrArg CAddrInfo.nRefCount heq).trans hdoomed.2)
    rw [hdelete] at hs₂
    cases hs₂
    exact h.ordered hordered₂

theorem of_prune {l : List (ℤ × CAddrInfo)} (h : prune l s = .ok s') (hl : (l.map Prod.fst).Nodup)
    (hinfo : ∀ x ∈ l, s.entry x.1 = some { x.2 with nRandomPos := 0 }) : Pruned s l s' := by
  induction l generalizing s with
  | nil =>
    cases h
    exact ⟨rfl, rfl, rfl, rfl, ⟨0, rfl, Int.add_zero _, rfl⟩, nofun, fun _ _ ↦ rfl, fun _ _ ↦ rfl,
      id⟩
  | cons x l ih =>
    obtain ⟨n, info⟩ := x
    obtain ⟨hn, hl'⟩ := List.nodup_cons.mp hl
    obtain ⟨hx, hinfo'⟩ := List.forall_mem_cons.mp hinfo
    rw [prune] at h
    by_cases hdoomed : info.Doomed
    · rw [if_pos hdoomed] at h
      obtain ⟨s₁, hs₁, h⟩ := bind_eq_ok.mp h
      obtain ⟨-, -, -, hdeleted, -⟩ := delete_eq_ok hs₁
      refine .cons s hs₁ hx hdoomed hn (ih h hl' fun y hy ↦ ?_)
      have hmem : y.1 ∈ l.map Prod.fst := List.mem_map_of_mem hy
      have hne : y.1 ≠ n := fun heq ↦ hn (heq ▸ hmem)
      rw [hdeleted.entry, Function.update_of_ne hne]
      exact hinfo' y hy
    · rw [if_neg hdoomed] at h
      have hrest := ih h hl' hinfo'
      have hskip : ∀ {p : ℤ × CAddrInfo → Prop}, (∀ y ∈ (n, info) :: l, y.2.Doomed → p y) →
          ∀ y ∈ l, y.2.Doomed → p y := fun hp y hy ↦ hp y (List.mem_cons_of_mem _ hy)
      exact { hrest with
        gone := List.forall_mem_cons.mpr ⟨fun h ↦ absurd h hdoomed, hrest.gone⟩
        entry := fun id hid ↦ hrest.entry id (hskip hid)
        addr := fun ip hip ↦ hrest.addr ip (hskip hip) }

/-- All entries have been gone through. -/
def PrunedAll (s s' : CAddrMan) : Prop := Pruned s s.mapInfo.toList s'

theorem prunedAll (h : prune s.mapInfo.toList s = .ok s') : PrunedAll s s' :=
  of_prune h s.nodup_keys fun _ hx ↦
    entry_of_getElem? (Std.TreeMap.mem_toList_iff_getElem?_eq_some.mp hx)

namespace PrunedAll

theorem gone (h : PrunedAll s s') {id : ℤ} {e : CAddrInfo} (he : s.mapInfo[id]? = some e)
    (hdoomed : e.Doomed) : s'.entry id = none ∧ s'.mapAddr e.ip = none :=
  Pruned.gone h (id, e) (Std.TreeMap.mem_toList_iff_getElem?_eq_some.mpr he) hdoomed

theorem entry (h : PrunedAll s s') {id : ℤ} (hid : ∀ e, s.mapInfo[id]? = some e → ¬ e.Doomed) :
    s'.entry id = s.entry id := by
  refine Pruned.entry h id fun x hx hdoomed heq ↦ hid x.2 ?_ hdoomed
  rw [← heq]
  exact Std.TreeMap.mem_toList_iff_getElem?_eq_some.mp hx

theorem addr (h : PrunedAll s s') {ip : CNetAddr}
    (hip : ∀ (id : ℤ) (e : CAddrInfo), s.mapInfo[id]? = some e → e.Doomed → e.ip ≠ ip) :
    s'.mapAddr ip = s.mapAddr ip :=
  Pruned.addr h ip fun x hx hdoomed ↦
    hip x.1 x.2 (Std.TreeMap.mem_toList_iff_getElem?_eq_some.mp hx) hdoomed

end PrunedAll

/-! ## What the loops count -/

/-- Only references to new entries are different. -/
structure Referred (s s' : CAddrMan) : Prop where
  nKey : s'.nKey = s.nKey
  nIdCount : s'.nIdCount = s.nIdCount
  vRandom : s'.vRandom = s.vRandom
  nTried : s'.nTried = s.nTried
  vvTried : s'.vvTried = s.vvTried
  nNew : s'.nNew = s.nNew

theorem Referred.refl (s : CAddrMan) : Referred s s := ⟨rfl, rfl, rfl, rfl, rfl, rfl⟩

theorem Referred.trans {s₁ s₂ s₃ : CAddrMan} (h : Referred s₁ s₂) (h' : Referred s₂ s₃) :
    Referred s₁ s₃ where
  nKey := h'.nKey.trans h.nKey
  nIdCount := h'.nIdCount.trans h.nIdCount
  vRandom := h'.vRandom.trans h.vRandom
  nTried := h'.nTried.trans h.nTried
  vvTried := h'.vvTried.trans h.vvTried
  nNew := h'.nNew.trans h.nNew

theorem referred_refer (s : CAddrMan) (nId : ℤ) (p : NewSlot) : Referred s (s.refer nId p) := by
  rw [refer]
  split
  · exact ⟨rfl, rfl, rfl, rfl, rfl, rfl⟩
  · exact Referred.refl s

theorem referred_loadIndex (s : CAddrMan) (x : Option (Fin 1024) × ℤ) :
    Referred s (loadIndex A s x) := by
  obtain ⟨bucket, nIndex⟩ := x
  cases bucket with
  | none => exact Referred.refl s
  | some bucket =>
    change Referred s (readIndex A s bucket nIndex)
    rw [readIndex]
    split
    · split
      · exact Referred.refl s
      · split
        · exact referred_refer s _ _
        · exact Referred.refl s
    · exact Referred.refl s

theorem referred_loadIndexes (l : List (Option (Fin 1024) × ℤ)) (s : CAddrMan) :
    Referred s (l.foldl (loadIndex A) s) := by
  induction l generalizing s with
  | nil => exact Referred.refl s
  | cons x l ih => exact (referred_loadIndex s x).trans (ih _)

theorem counts_loadNew (fPlaced : Bool) (n : ℤ) (s : CAddrMan) (new : List Persisted) :
    (loadNew A fPlaced n s new).vRandom.length = s.vRandom.length + new.length ∧
      (loadNew A fPlaced n s new).nTried = s.nTried ∧ (loadNew A fPlaced n s new).nNew = s.nNew ∧
      (loadNew A fPlaced n s new).nKey = s.nKey := by
  induction new generalizing n s with
  | nil => exact ⟨rfl, rfl, rfl, rfl⟩
  | cons r new ih =>
    have hone : (loadOne A fPlaced n s r).vRandom = s.vRandom ++ [n] ∧
        (loadOne A fPlaced n s r).nTried = s.nTried ∧ (loadOne A fPlaced n s r).nNew = s.nNew ∧
        (loadOne A fPlaced n s r).nKey = s.nKey := by
      rw [loadOne]
      cases fPlaced with
      | true => exact ⟨rfl, rfl, rfl, rfl⟩
      | false =>
        have h := referred_refer (s.enter n ((s.mapInfo[n]?.getD CAddrInfo.blank).load r)) n
        exact ⟨(h _).vRandom, (h _).nTried, (h _).nNew, (h _).nKey⟩
    obtain ⟨hlen, hnTried, hnNew, hnKey⟩ := ih (n + 1) (loadOne A fPlaced n s r)
    refine ⟨?_, hnTried.trans hone.2.1, hnNew.trans hone.2.2.1, hnKey.trans hone.2.2.2⟩
    rw [loadNew, hlen, hone.1, List.length_append, List.length_singleton, List.length_cons]
    omega

theorem counts_loadTried (s : CAddrMan) (tried : List Persisted) (nLost : ℤ) :
    ((loadTried A s tried nLost).1.vRandom.length : ℤ) + (loadTried A s tried nLost).2 =
        s.vRandom.length + nLost + tried.length ∧
      (loadTried A s tried nLost).1.nTried = s.nTried ∧
      (loadTried A s tried nLost).1.nNew = s.nNew ∧
      (loadTried A s tried nLost).1.nKey = s.nKey := by
  induction tried generalizing s nLost with
  | nil => exact ⟨(Int.add_zero _).symm, rfl, rfl, rfl⟩
  | cons r tried ih =>
    by_cases hp : s.vvTried (CAddrInfo.triedSlot A s.nKey (triedInfo r)) = -1
    · simp only [loadTried, if_pos hp]
      obtain ⟨hlen, hrest⟩ := ih (({ s.enter s.nIdCount (triedInfo r) with
        nIdCount := s.nIdCount + 1 } : CAddrMan).setTried
          (CAddrInfo.triedSlot A s.nKey (triedInfo r)) (s.nIdCount + 1 - 1)) nLost
      refine ⟨hlen.trans ?_, hrest⟩
      change ((s.vRandom ++ [s.nIdCount]).length : ℤ) + nLost + tried.length = _
      rw [List.length_append, List.length_singleton, List.length_cons]
      push_cast
      ring
    · simp only [loadTried, if_neg hp]
      obtain ⟨hlen, hrest⟩ := ih s (nLost + 1)
      refine ⟨hlen.trans ?_, hrest⟩
      rw [List.length_cons]
      push_cast
      ring

/-- The counts are right just when they are not below zero. -/
theorem staged_counts {f : AddrFile} (hf : f.Wf) (s : CAddrMan) :
    ((staged A s f).vRandom.length : ℤ) - (staged A s f).nTried - (staged A s f).nNew =
        (f.nNew.toNat - f.nNew) + (f.nTried.toNat - f.nTried) ∧
      (staged A s f).nNew = f.nNew ∧ (staged A s f).nKey = f.nKey := by
  have hindexes := referred_loadIndexes (A := A) f.indexes (loadedAll A s f)
  obtain ⟨hlen, hnTried, hnNew, hnKey⟩ := counts_loadTried (A := A) (loadedNew A s f) f.tried 0
  obtain ⟨hlen₀, hnTried₀, hnNew₀, hnKey₀⟩ := counts_loadNew (A := A) f.fPlaced 0 (s.begun f) f.new
  have hlenNew : (loadedNew A s f).vRandom.length = f.nNew.toNat := by
    rw [← hf.new]
    exact hlen₀.trans (Nat.zero_add _)
  have hlenAll : ((loadedAll A s f).vRandom.length : ℤ) +
      (loadTried A (loadedNew A s f) f.tried 0).2 = f.nNew.toNat + f.nTried.toNat := by
    rw [← hf.tried, ← hlenNew]
    exact hlen.trans (by rw [Int.add_zero])
  have hnTriedAll : (loadedAll A s f).nTried =
      f.nTried - (loadTried A (loadedNew A s f) f.tried 0).2 :=
    congrArg (· - (loadTried A (loadedNew A s f) f.tried 0).2) (hnTried.trans hnTried₀)
  have hnNewAll : (loadedAll A s f).nNew = f.nNew := hnNew.trans hnNew₀
  refine ⟨?_, hindexes.nNew.trans hnNewAll, hindexes.nKey.trans (hnKey.trans hnKey₀)⟩
  rw [staged, hindexes.vRandom, hindexes.nTried, hindexes.nNew, hnTriedAll, hnNewAll]
  omega

end CAddrMan

/-! ## What a stream asks for -/

namespace AddrFile

open CAddrMan (info)

variable (A : AddrParams)

/-- Two records have the same slot of the tried table. -/
def SameSlot (nKey : BitVec 256) (r r' : Persisted) : Prop :=
  (info r).triedSlot A nKey = (info r').triedSlot A nKey

instance (nKey : BitVec 256) : DecidableRel (SameSlot A nKey) :=
  fun r r' ↦ inferInstanceAs (Decidable ((info r).triedSlot A nKey = (info r').triedSlot A nKey))

/-- The records of the tried table that are not lost: of those with the same slot, the first. -/
def placed (f : AddrFile) : List Persisted := Greedy.keep (SameSlot A f.nKey) [] f.tried

/-- The records that get a number, and whether they are tried -/
def records (f : AddrFile) : List (Persisted × Bool) :=
  f.new.map (·, false) ++ (f.placed A).map (·, true)

/-- Every record asks for a slot in the bucket of its own source. -/
def sourceRequests (nKey : BitVec 256) (n : ℕ) (new : List Persisted) : List (NewSlot × ℤ) :=
  (new.zipIdx n).map fun (r, j) ↦
    ((info r).newSlot A nKey ((info r).getNewBucket A nKey r.source), (j : ℤ))

/-- A number that is listed for a bucket asks for a slot there. -/
def request (f : AddrFile) (x : Option (Fin 1024) × ℤ) : Option (NewSlot × ℤ) :=
  x.1.bind fun bucket ↦
    if 0 ≤ x.2 then f.new[x.2.toNat]?.map fun r ↦ ((info r).newSlot A f.nKey bucket, x.2) else none

/-- The slots of the new table that are asked for, in the order of the stream -/
def requests (f : AddrFile) : List (NewSlot × ℤ) :=
  if f.fPlaced then f.indexes.filterMap (f.request A) else sourceRequests A f.nKey 0 f.new

/-- Who comes first has the slot, and nobody has more than eight. -/
def granted (f : AddrFile) : NewSlot → ℤ := (f.requests A).foldl (Slots.grant 8 (-1)) fun _ ↦ -1

/-- A record is tried or has a slot. -/
def Kept (f : AddrFile) (j : ℕ) (x : Persisted × Bool) : Prop := x.2 = true ∨ ∃ p, f.granted A p = j

/-- What is in the manager is written over, and an entry that a new one is read over is a new one
without references. -/
def Covers (f : AddrFile) (s : CAddrMan) : Prop :=
  ∀ (nId : ℤ) (e : CAddrInfo), s.mapInfo[nId]? = some e →
    (0 ≤ nId ∧ nId < (f.records A).length) ∧ (nId < f.nNew → e.Doomed)

/-- **When the check passes on what has been loaded** over the manager `s` -/
structure Loadable (f : AddrFile) (s : CAddrMan) : Prop where
  nKey : f.nKey ≠ 0
  nNew : 0 ≤ f.nNew
  nTried : 0 ≤ f.nTried
  covers : f.Covers A s
  times : ∀ (j : ℕ) (x : Persisted × Bool), (f.records A)[j]? = some x → f.Kept A j x →
    0 ≤ x.1.nLastSuccess ∧ (x.2 = true → x.1.nLastSuccess ≠ 0)
  /-- a record that is kept has its address alone; when another one with the address goes, only the
  number 0 is found -/
  addr : ∀ (i j : ℕ) (x y : Persisted × Bool), (f.records A)[i]? = some x →
    (f.records A)[j]? = some y → f.Kept A j y → x.1.service.ip = y.1.service.ip →
    i = j ∨ j = 0 ∧ ¬ f.Kept A i x

end AddrFile

namespace CAddrMan

variable {A : AddrParams} {s s' : CAddrMan}

/-! ## Entering -/

/-- What a record makes of what is at its number: a tried one makes an entry of its own, a new one
is read over what is there. -/
def seed (s : CAddrMan) (j : ℕ) (x : Persisted × Bool) : CAddrInfo :=
  if x.2 then triedInfo x.1 else (s.mapInfo[(j : ℤ)]?.getD CAddrInfo.blank).load x.1

theorem seed_toCService (s : CAddrMan) (j : ℕ) (x : Persisted × Bool) :
    (seed s j x).toCService = x.1.service := by
  rw [seed]
  split
  · rfl
  · rfl

/-- The entry of a record, with its place and the references that it has got -/
def entered (s : CAddrMan) (N : NewSlot → ℤ) (j : ℕ) (x : Persisted × Bool) : CAddrInfo :=
  { seed s j x with
    nRandomPos := j
    nRefCount := (seed s j x).nRefCount + Slots.count N (j : ℤ) }

/-- **The records `R` have been entered** over the manager `s`, each under its place in the list. -/
structure Loading (A : AddrParams) (s : CAddrMan) (nKey : BitVec 256) (R : List (Persisted × Bool))
    (t : CAddrMan) : Prop where
  key : t.nKey = nKey
  vRandom : t.vRandom = (List.range R.length).map Nat.cast
  /-- what was there before and is not written over stays -/
  other : ∀ nId : ℤ, (∀ j : ℕ, j < R.length → nId ≠ j) → t.mapInfo[nId]? = s.mapInfo[nId]?
  entry : ∀ (j : ℕ) x, R[j]? = some x → t.mapInfo[(j : ℤ)]? = some (entered s t.vvNew j x)
  /-- an address leads to the last record of it -/
  addr : ∀ (j : ℕ) x, R[j]? = some x →
    (∀ i y, R[i]? = some y → j < i → y.1.service.ip ≠ x.1.service.ip) →
    t.mapAddr x.1.service.ip = some (j : ℤ)
  new : ∀ p, t.vvNew p ≠ -1 → ∃ (j : ℕ) (r : Persisted), t.vvNew p = j ∧ R[j]? = some (r, false) ∧
    (info r).newSlot A nKey p.1 = p
  tried : ∀ p, t.vvTried p ≠ -1 → ∃ (j : ℕ) (r : Persisted), t.vvTried p = j ∧
    R[j]? = some (r, true) ∧ (info r).triedSlot A nKey = p
  home : ∀ (j : ℕ) r, R[j]? = some (r, true) → t.vvTried ((info r).triedSlot A nKey) = j
  slots : Slots.count t.vvTried (-1) + R.countP (fun x ↦ x.2) = 256 * 64

theorem getElem?_concat_eq_some {α : Type} {l : List α} {a b : α} {j : ℕ} :
    (l ++ [a])[j]? = some b ↔ l[j]? = some b ∨ j = l.length ∧ b = a := by
  rcases Nat.lt_trichotomy j l.length with hlt | rfl | hgt
  · rw [List.getElem?_append_left hlt]
    exact ⟨Or.inl, fun h ↦ h.resolve_right fun h ↦ hlt.ne h.1⟩
  · rw [List.getElem?_concat_length, List.getElem?_eq_none le_rfl, Option.some_inj]
    exact ⟨fun h ↦ .inr ⟨rfl, h.symm⟩, fun h ↦ (h.resolve_left nofun).2.symm⟩
  · rw [List.getElem?_eq_none (by rw [List.length_append, List.length_singleton]; omega),
      List.getElem?_eq_none hgt.le]
    exact ⟨nofun, fun h ↦ absurd (h.resolve_left nofun).1 hgt.ne'⟩

namespace Loading

variable {nKey : BitVec 256} {R : List (Persisted × Bool)} {t : CAddrMan}

theorem length (h : Loading A s nKey R t) : t.vRandom.length = R.length := by
  rw [h.vRandom, List.length_map, List.length_range]

/-- A number that has not been given has no slot. -/
theorem count_new (h : Loading A s nKey R t) {j : ℕ} (hj : ∀ r, R[j]? ≠ some (r, false)) :
    Slots.count t.vvNew (j : ℤ) = 0 := by
  refine Slots.count_eq_zero_iff.mpr fun p hp ↦ ?_
  obtain ⟨i, r, hi, hr, -⟩ := h.new p (by omega)
  have hij : i = j := by omega
  exact hj r (hij ▸ hr)

theorem begun (s : CAddrMan) (f : AddrFile) : Loading A s f.nKey [] (s.begun f) where
  key := rfl
  vRandom := rfl
  other _ _ := rfl
  entry := nofun
  addr := nofun
  new _ hp := absurd rfl hp
  tried _ hp := absurd rfl hp
  home := nofun
  slots := (Nat.add_zero _).trans count_free

/-- **A record is entered**; a tried one has a slot that is free. -/
theorem enter (h : Loading A s nKey R t) (x : Persisted × Bool) {T : TriedSlot → ℤ}
    (hT : x.2 = false ∧ T = t.vvTried ∨ x.2 = true ∧ t.vvTried ((info x.1).triedSlot A nKey) = -1 ∧
      T = Function.update t.vvTried ((info x.1).triedSlot A nKey) R.length) :
    Loading A s nKey (R ++ [x]) { t.enter R.length (seed s R.length x) with vvTried := T } := by
  have hget : ∀ nId : ℤ, (t.enter R.length (seed s R.length x)).mapInfo[nId]? =
      if nId = R.length then some { seed s R.length x with nRandomPos := t.vRandom.length }
      else t.mapInfo[nId]? := getElem?_insert_mapInfo t R.length _
  have hold : ∀ {j : ℕ} {y : Persisted × Bool}, R[j]? = some y → j < R.length := fun hy ↦
    (List.getElem?_eq_some_iff.mp hy).1
  have hfree : Slots.count t.vvNew (R.length : ℤ) = 0 :=
    h.count_new fun r hr ↦ absurd (hold hr) (lt_irrefl _)
  have hip : (seed s R.length x).ip = x.1.service.ip :=
    congrArg CService.ip (seed_toCService s R.length x)
  have hname : ∀ p, T p ≠ -1 → T p = t.vvTried p ∨ T p = R.length ∧ x.2 = true ∧
      (info x.1).triedSlot A nKey = p := by
    intro p _
    rcases hT with ⟨-, rfl⟩ | ⟨hx, -, rfl⟩
    · exact .inl rfl
    · by_cases hp : p = (info x.1).triedSlot A nKey
      · rw [hp, Function.update_self]
        exact .inr ⟨rfl, hx, rfl⟩
      · exact .inl (Function.update_of_ne hp ..)
  refine ⟨h.key, ?_, fun nId hid ↦ (hget nId).trans ?_, fun j y hy ↦ (hget j).trans ?_,
    fun j y hy hlast ↦ ?_, fun p hp ↦ ?_, fun p hp ↦ ?_, fun j r hr ↦ ?_, ?_⟩
  · change t.vRandom ++ [(R.length : ℤ)] = _
    rw [h.vRandom, List.length_append, List.length_singleton, List.range_succ, List.map_append]
    rfl
  · rw [List.length_append, List.length_singleton] at hid
    rw [if_neg (hid R.length (Nat.lt_succ_self _))]
    exact h.other nId fun j hj ↦ hid j (Nat.lt_succ_of_lt hj)
  · rcases getElem?_concat_eq_some.mp hy with hy | ⟨rfl, rfl⟩
    · have hj := hold hy
      rw [if_neg (by omega)]
      exact h.entry j y hy
    · rw [if_pos rfl, h.length]
      change _ = some (entered s t.vvNew R.length y)
      rw [entered, hfree, Int.natCast_zero, Int.add_zero]
  · change Function.update t.mapAddr (seed s R.length x).ip (some (R.length : ℤ)) _ = _
    rw [hip]
    rcases getElem?_concat_eq_some.mp hy with hy | ⟨rfl, rfl⟩
    · have hne := hlast R.length x (getElem?_concat_eq_some.mpr (.inr ⟨rfl, rfl⟩)) (hold hy)
      rw [Function.update_of_ne hne.symm]
      exact h.addr j y hy fun i z hz ↦ hlast i z (getElem?_concat_eq_some.mpr (.inl hz))
    · rw [Function.update_self]
  · obtain ⟨j, r, hj, hr, hslot⟩ := h.new p hp
    exact ⟨j, r, hj, getElem?_concat_eq_some.mpr (.inl hr), hslot⟩
  · change T p ≠ -1 at hp
    change ∃ j r, T p = ((j : ℕ) : ℤ) ∧ _
    rcases hname p hp with heq | ⟨heq, hx, hslot⟩
    · rw [heq] at hp ⊢
      obtain ⟨j, r, hj, hr, hslot⟩ := h.tried p hp
      exact ⟨j, r, hj, getElem?_concat_eq_some.mpr (.inl hr), hslot⟩
    · exact ⟨R.length, x.1, heq, getElem?_concat_eq_some.mpr (.inr ⟨rfl, Prod.ext rfl hx.symm⟩),
        hslot⟩
  · change T _ = _
    rcases hT with ⟨hx, rfl⟩ | ⟨-, hnone, rfl⟩
    · rcases getElem?_concat_eq_some.mp hr with hr | ⟨-, rfl⟩
      · exact h.home j r hr
      · cases hx
    · rcases getElem?_concat_eq_some.mp hr with hr | ⟨rfl, rfl⟩
      · have hhome := h.home j r hr
        rw [Function.update_of_ne, hhome]
        intro heq
        rw [heq, hnone] at hhome
        omega
      · exact Function.update_self ..
  · have hslots := h.slots
    rw [List.countP_append, List.countP_singleton]
    rcases hT with ⟨hx, rfl⟩ | ⟨hx, hnone, rfl⟩
    · rw [hx]
      exact hslots
    · have hcount := Slots.count_update_old (b := (R.length : ℤ)) hnone (by omega)
      rw [if_pos hx]
      change Slots.count (Function.update _ _ _) (-1) + _ = _
      omega

/-- **A number gets a slot of the new table** if it is free. -/
theorem refer (h : Loading A s nKey R t) {j : ℕ} {r : Persisted} (hr : R[j]? = some (r, false))
    {p : NewSlot} (hp : (info r).newSlot A nKey p.1 = p) : Loading A s nKey R (t.refer j p) := by
  rw [CAddrMan.refer]
  split
  next hfree =>
    have hne : t.vvNew p ≠ j := by omega
    refine ⟨h.key, h.vRandom, fun nId hid ↦ ?_, fun i y hy ↦ ?_, h.addr, fun q hq ↦ ?_, h.tried,
      h.home, h.slots⟩
    · rw [getElem?_modifyInfo, if_neg (hid j (List.getElem?_eq_some_iff.mp hr).1)]
      exact h.other nId hid
    · change _ = some (entered s (Function.update t.vvNew p (j : ℤ)) i y)
      rw [getElem?_modifyInfo]
      change (if (i : ℤ) = j then t.mapInfo[(j : ℤ)]?.map _ else t.mapInfo[(i : ℤ)]?) = _
      by_cases hij : (i : ℤ) = j
      · obtain rfl : i = j := by omega
        rw [if_pos rfl, h.entry i y hy, Option.map_some, entered, entered,
          Slots.count_update_new hne]
        push_cast
        rw [Int.add_assoc]
      · rw [if_neg hij, h.entry i y hy, entered, entered,
          Slots.count_update_of_ne (by omega) (Ne.symm hij)]
    · change Function.update t.vvNew p (j : ℤ) q ≠ -1 at hq
      change ∃ i r, Function.update t.vvNew p (j : ℤ) q = ((i : ℕ) : ℤ) ∧ _
      by_cases hqp : q = p
      · rw [hqp, Function.update_self]
        exact ⟨j, r, rfl, hr, hp⟩
      · rw [Function.update_of_ne hqp] at hq ⊢
        exact h.new q hq
  next => exact h

/-- The counters do not matter. -/
theorem recount (h : Loading A s nKey R t) (nIdCount nTried : ℤ) :
    Loading A s nKey R { t with nIdCount, nTried } :=
  ⟨h.key, h.vRandom, h.other, h.entry, h.addr, h.new, h.tried, h.home, h.slots⟩

end Loading

/-! ## The loops -/

theorem vvNew_refer (s : CAddrMan) (nId : ℤ) (p : NewSlot) : (s.refer nId p).vvNew =
    if s.vvNew p = -1 then Function.update s.vvNew p nId else s.vvNew := by
  rw [refer]
  split
  · rfl
  · rfl

namespace Loading

variable {nKey : BitVec 256} {R : List (Persisted × Bool)} {t : CAddrMan}

/-- The slot of the new table that a record asks for by itself. -/
theorem loadOne (h : Loading A s nKey R t) (fPlaced : Bool) (r : Persisted) :
    Loading A s nKey (R ++ [(r, false)]) (CAddrMan.loadOne A fPlaced R.length t r) ∧
      (CAddrMan.loadOne A fPlaced R.length t r).vvNew = if fPlaced then t.vvNew else
        Slots.grant 8 (-1) t.vvNew
          ((info r).newSlot A nKey ((info r).getNewBucket A nKey r.source), (R.length : ℤ)) := by
  set e := seed s R.length (r, false)
  have hseed : (t.mapInfo[(R.length : ℤ)]?.getD CAddrInfo.blank).load r = e := by
    rw [h.other R.length fun j hj ↦ by omega]
    rfl
  have henter : Loading A s nKey (R ++ [(r, false)]) (t.enter R.length e) :=
    h.enter (r, false) (.inl ⟨rfl, rfl⟩)
  have hslot : e.newSlot A (t.enter R.length e).nKey
      (e.getNewBucket A (t.enter R.length e).nKey e.source) =
      (info r).newSlot A nKey ((info r).getNewBucket A nKey r.source) := by
    rw [henter.key]
    exact congrFun (CAddrInfo.newSlot_congr (seed_toCService s R.length (r, false))) _
  rw [CAddrMan.loadOne, hseed]
  cases fPlaced with
  | true => exact ⟨henter, rfl⟩
  | false =>
    refine ⟨henter.refer (r := r) (getElem?_concat_eq_some.mpr (.inr ⟨rfl, rfl⟩)) ?_, ?_⟩
    · exact (congrArg ((info r).newSlot A nKey ·.1) hslot).trans hslot.symm
    · have hfree : Slots.count t.vvNew (R.length : ℤ) = 0 := h.count_new fun r hr ↦
        absurd (List.getElem?_eq_some_iff.mp hr).1 (lt_irrefl _)
      change (CAddrMan.refer _ _ _).vvNew = Slots.grant 8 (-1) t.vvNew _
      rw [vvNew_refer, Slots.grant, hfree]
      change (if t.vvNew (CAddrInfo.newSlot A _ _ _) = -1 then _ else t.vvNew) = _
      rw [hslot]
      simp only [Nat.zero_lt_succ, and_true]
      rfl

/-- **The new entries have been read.** -/
theorem loadNew (h : Loading A s nKey R t) (fPlaced : Bool) (new : List Persisted) :
    Loading A s nKey (R ++ new.map (·, false)) (CAddrMan.loadNew A fPlaced R.length t new) ∧
      (CAddrMan.loadNew A fPlaced R.length t new).vvNew = if fPlaced then t.vvNew else
        (AddrFile.sourceRequests A nKey R.length new).foldl (Slots.grant 8 (-1)) t.vvNew := by
  induction new generalizing R t with
  | nil =>
    rw [List.map_nil, List.append_nil]
    exact ⟨h, by rw [CAddrMan.loadNew]; exact (ite_self _).symm⟩
  | cons r new ih =>
    obtain ⟨hone, hvvNew⟩ := h.loadOne fPlaced r
    have hlen : ((R ++ [(r, false)]).length : ℤ) = R.length + 1 := by
      rw [List.length_append, List.length_singleton]
      exact Int.natCast_succ _
    obtain ⟨hrest, hvvNew'⟩ := ih hone
    rw [hlen] at hrest hvvNew'
    rw [CAddrMan.loadNew, List.map_cons, ← List.singleton_append, ← List.append_assoc]
    refine ⟨hrest, hvvNew'.trans ?_⟩
    rw [hvvNew]
    cases fPlaced with
    | true => rfl
    | false =>
      rw [List.length_append, List.length_singleton]
      rfl

/-- **The tried entries have been read.** -/
theorem loadTried {new kept : List Persisted}
    (h : Loading A s nKey (new.map (·, false) ++ kept.map (·, true)) t)
    (hcount : t.nIdCount = (new.map (·, false) ++ kept.map (·, true)).length)
    (tried : List Persisted) (nLost : ℤ) :
    Loading A s nKey (new.map (·, false) ++
      (Greedy.keep (AddrFile.SameSlot A nKey) kept tried).map (·, true))
      (CAddrMan.loadTried A t tried nLost).1 ∧
        (CAddrMan.loadTried A t tried nLost).1.vvNew = t.vvNew := by
  induction tried generalizing kept t nLost with
  | nil => exact ⟨h, rfl⟩
  | cons r tried ih =>
    have hslot : (triedInfo r).triedSlot A t.nKey = (info r).triedSlot A nKey := by
      rw [h.key]
      exact CAddrInfo.triedSlot_congr rfl
    have hmem : ∀ {j : ℕ} {r' : Persisted}, (new.map (·, false) ++ kept.map (·, true))[j]? =
        some (r', true) → r' ∈ kept := by
      intro j r' hr'
      rcases List.mem_append.mp (List.mem_of_getElem? hr') with hr' | hr'
      · obtain ⟨_, -, heq⟩ := List.mem_map.mp hr'
        cases heq
      · obtain ⟨_, hkept, heq⟩ := List.mem_map.mp hr'
        cases heq
        exact hkept
    have hclash : t.vvTried ((info r).triedSlot A nKey) = -1 ↔
        ¬ ∃ r' ∈ kept, AddrFile.SameSlot A nKey r' r := by
      constructor
      · rintro hfree ⟨r', hr', hsame⟩
        have hmem' : (r', true) ∈ new.map (·, false) ++ kept.map (·, true) :=
          List.mem_append_right _ (List.mem_map_of_mem hr')
        obtain ⟨j, hj⟩ := List.mem_iff_getElem?.mp hmem'
        have hhome := h.home j r' hj
        rw [show (info r').triedSlot A nKey = _ from hsame, hfree] at hhome
        omega
      · intro hnone
        by_contra hne
        obtain ⟨j, r', -, hr', hsame⟩ := h.tried _ hne
        exact hnone ⟨r', hmem hr', hsame⟩
    rw [CAddrMan.loadTried, hslot, Greedy.keep]
    by_cases hfree : t.vvTried ((info r).triedSlot A nKey) = -1
    · rw [if_pos hfree, if_neg (hclash.mp hfree)]
      set R := new.map (·, false) ++ kept.map (·, true)
      have hnext := (h.enter (r, true) (.inr ⟨rfl, hfree, rfl⟩)).recount (t.nIdCount + 1) t.nTried
      have happend : R ++ [(r, true)] = new.map (·, false) ++ (kept ++ [r]).map (·, true) := by
        rw [List.map_append, ← List.append_assoc]
        rfl
      rw [happend] at hnext
      have hstate : ({ t.enter t.nIdCount (triedInfo r) with
          nIdCount := t.nIdCount + 1 } : CAddrMan).setTried ((info r).triedSlot A nKey)
            (t.nIdCount + 1 - 1) =
          { t.enter R.length (seed s R.length (r, true)) with
            vvTried := Function.update t.vvTried ((info r).triedSlot A nKey) R.length
            nIdCount := t.nIdCount + 1
            nTried := t.nTried } := by
        rw [Int.add_sub_cancel, hcount]
        rfl
      dsimp only
      rw [hstate]
      have hlen : ((new.map (·, false) ++ (kept ++ [r]).map (·, true)).length : ℤ) =
          R.length + 1 := by
        rw [← happend, List.length_append, List.length_singleton]
        exact Int.natCast_succ _
      exact ih hnext ((congrArg (· + 1) hcount).trans hlen.symm) nLost
    · rw [if_neg hfree, if_pos (not_not.mp fun hnone ↦ hfree (hclash.mpr hnone))]
      exact ih h hcount (nLost + 1)

end Loading

/-- No new entry begins with references. -/
def Unreferenced (s : CAddrMan) (R : List (Persisted × Bool)) : Prop :=
  ∀ (j : ℕ) r, R[j]? = some (r, false) → (seed s j (r, false)).nRefCount = 0

namespace Loading

variable {f : AddrFile} {t : CAddrMan}

/-- **A number for a bucket has been read.** -/
theorem loadIndex (h : Loading A s f.nKey (f.records A) t) (hf : f.Wf) (hnNew : 0 ≤ f.nNew)
    (ht : t.nNew = f.nNew) (x : Option (Fin 1024) × ℤ) :
    Loading A s f.nKey (f.records A) (CAddrMan.loadIndex A t x) ∧
      (Unreferenced s (f.records A) → (CAddrMan.loadIndex A t x).vvNew =
        (f.request A x).elim t.vvNew (Slots.grant 8 (-1) t.vvNew)) := by
  obtain ⟨bucket, nIndex⟩ := x
  cases bucket with
  | none => exact ⟨h, fun _ ↦ rfl⟩
  | some bucket =>
    change Loading A s f.nKey (f.records A) (readIndex A t bucket nIndex) ∧
      (_ → (readIndex A t bucket nIndex).vvNew = _)
    have hrequest : f.request A (some bucket, nIndex) = if 0 ≤ nIndex then
        f.new[nIndex.toNat]?.map fun r ↦ ((info r).newSlot A f.nKey bucket, nIndex) else none := rfl
    have hlen := hf.new
    rw [readIndex, hrequest]
    by_cases hrange : 0 ≤ nIndex ∧ nIndex < t.nNew
    · obtain ⟨j, rfl⟩ := Int.eq_ofNat_of_zero_le hrange.1
      obtain ⟨r, hr⟩ : ∃ r, f.new[j]? = some r :=
        ⟨_, List.getElem?_eq_getElem (by omega : j < f.new.length)⟩
      have hrec : (f.records A)[j]? = some (r, false) := by
        rw [AddrFile.records, List.getElem?_append_left (by rw [List.length_map]; omega),
          List.getElem?_map, hr, Option.map_some]
      set e := entered s t.vvNew j (r, false) with he
      have hslot : e.newSlot A t.nKey bucket = (info r).newSlot A f.nKey bucket := by
        rw [h.key]
        exact congrFun (CAddrInfo.newSlot_congr (seed_toCService s j (r, false))) bucket
      rw [if_pos hrange, if_pos hrange.1, h.entry j _ hrec, Int.toNat_natCast, hr, Option.map_some,
        Option.elim_some]
      dsimp only
      rw [hslot]
      by_cases hcap : e.nRefCount < ADDRMAN_NEW_BUCKETS_PER_ADDRESS
      · rw [if_pos hcap]
        refine ⟨h.refer hrec rfl, fun hzero ↦ ?_⟩
        have hlt : Slots.count t.vvNew (j : ℤ) < 8 := by
          rw [he, entered, hzero j r hrec, Int.zero_add] at hcap
          exact Int.ofNat_lt.mp hcap
        rw [vvNew_refer, Slots.grant]
        simp only [hlt, and_true]
      · rw [if_neg hcap]
        refine ⟨h, fun hzero ↦ ?_⟩
        have hge : ¬ Slots.count t.vvNew (j : ℤ) < 8 := fun hlt ↦ hcap (by
          rw [he, entered, hzero j r hrec, Int.zero_add]
          exact Int.ofNat_lt.mpr hlt)
        rw [Slots.grant, if_neg fun hx ↦ hge hx.2]
    · rw [if_neg hrange]
      refine ⟨h, fun _ ↦ ?_⟩
      by_cases hneg : 0 ≤ nIndex
      · rw [if_pos hneg, List.getElem?_eq_none (by omega), Option.map_none]
        rfl
      · rw [if_neg hneg]
        rfl

theorem loadIndexes (h : Loading A s f.nKey (f.records A) t) (hf : f.Wf) (hnNew : 0 ≤ f.nNew)
    (ht : t.nNew = f.nNew) (l : List (Option (Fin 1024) × ℤ)) :
    Loading A s f.nKey (f.records A) (l.foldl (CAddrMan.loadIndex A) t) ∧
      (Unreferenced s (f.records A) → (l.foldl (CAddrMan.loadIndex A) t).vvNew =
        (l.filterMap (f.request A)).foldl (Slots.grant 8 (-1)) t.vvNew) := by
  induction l generalizing t with
  | nil => exact ⟨h, fun _ ↦ rfl⟩
  | cons x l ih =>
    obtain ⟨hone, hvvNew⟩ := h.loadIndex hf hnNew ht x
    obtain ⟨hrest, hvvNew'⟩ := ih hone ((referred_loadIndex t x).nNew.trans ht)
    refine ⟨hrest, fun hzero ↦ ?_⟩
    rw [List.foldl_cons, hvvNew' hzero, hvvNew hzero]
    cases hx : f.request A x with
    | none =>
      rw [List.filterMap_cons_none hx]
      rfl
    | some q =>
      rw [List.filterMap_cons_some hx]
      rfl

end Loading

/-- **All has been read**: every record that is not lost has been entered, and who asked for a slot
first has it. -/
theorem loading_staged {f : AddrFile} (hf : f.Wf) (hnNew : 0 ≤ f.nNew) (s : CAddrMan) :
    Loading A s f.nKey (f.records A) (staged A s f) ∧
      (Unreferenced s (f.records A) → (staged A s f).vvNew = f.granted A) := by
  obtain ⟨hnew, hvvNew⟩ := (Loading.begun (A := A) s f).loadNew f.fPlaced f.new
  rw [List.nil_append] at hnew
  have hcount : f.nNew = (f.new.map (·, false) ++ ([] : List Persisted).map (·, true)).length := by
    rw [List.map_nil, List.append_nil, List.length_map, hf.new, Int.toNat_of_nonneg hnNew]
  have hnew₀ : Loading A s f.nKey (f.new.map (·, false) ++ ([] : List Persisted).map (·, true))
      (loadedNew A s f) := by
    rw [List.map_nil, List.append_nil]
    exact hnew.recount f.nNew _
  obtain ⟨htried, hvvNew'⟩ := hnew₀.loadTried hcount f.tried 0
  obtain ⟨-, -, hnNew₁, -⟩ := counts_loadTried (A := A) (loadedNew A s f) f.tried 0
  obtain ⟨-, -, hnNew₀, -⟩ := counts_loadNew (A := A) f.fPlaced 0 (s.begun f) f.new
  have hall : Loading A s f.nKey (f.records A) (loadedAll A s f) := htried.recount _ _
  obtain ⟨hstaged, hindexes⟩ := hall.loadIndexes hf hnNew (hnNew₁.trans hnNew₀) f.indexes
  refine ⟨hstaged, fun hzero ↦ (hindexes hzero).trans ?_⟩
  have hbefore : (loadedAll A s f).vvNew = if f.fPlaced then fun _ ↦ -1 else
      (AddrFile.sourceRequests A f.nKey 0 f.new).foldl (Slots.grant 8 (-1)) fun _ ↦ -1 :=
    hvvNew'.trans hvvNew
  rw [hbefore, AddrFile.granted, AddrFile.requests]
  cases hplaced : f.fPlaced with
  | true => rfl
  | false =>
    have hnone : f.indexes.filterMap (f.request A) = [] := by
      refine List.filterMap_eq_nil_iff.mpr fun x hx ↦ ?_
      have hbucket := hf.indexes x hx
      rw [hplaced, Option.isSome_eq_false_iff, Option.isNone_iff_eq_none] at hbucket
      rw [AddrFile.request, hbucket]
      rfl
    rw [hnone]
    rfl

/-! ## What is left -/

section

variable {f : AddrFile} {t : CAddrMan}

/-- The entry of a record when there was nothing before -/
def settled (N : NewSlot → ℤ) (j : ℕ) (x : Persisted × Bool) : CAddrInfo :=
  { info x.1 with
    fInTried := x.2
    nRandomPos := j
    nRefCount := Slots.count N (j : ℤ) }

theorem lt_nNew (hf : f.Wf) (hnNew : 0 ≤ f.nNew) {j : ℕ} {r : Persisted}
    (hr : (f.records A)[j]? = some (r, false)) : (j : ℤ) < f.nNew := by
  by_contra hge
  have hlen := hf.new
  rw [AddrFile.records, List.getElem?_append_right (by rw [List.length_map]; omega),
    List.getElem?_map] at hr
  obtain ⟨_, -, heq⟩ := Option.map_eq_some_iff.mp hr
  cases heq

theorem unreferenced_of_covers (h : f.Covers A s) (hf : f.Wf) (hnNew : 0 ≤ f.nNew) :
    Unreferenced s (f.records A) := by
  intro j r hr
  change ((s.mapInfo[(j : ℤ)]?.getD CAddrInfo.blank).load r).nRefCount = 0
  cases he : s.mapInfo[(j : ℤ)]? with
  | none => rfl
  | some e => exact ((h j e he).2 (lt_nNew hf hnNew hr)).2

theorem entered_of_covers (h : f.Covers A s) (hf : f.Wf) (hnNew : 0 ≤ f.nNew) (N : NewSlot → ℤ)
    {j : ℕ} {x : Persisted × Bool} (hx : (f.records A)[j]? = some x) :
    entered s N j x = settled N j x := by
  obtain ⟨r, tried⟩ := x
  rw [entered, settled]
  cases tried with
  | true =>
    have hrefs : (seed s j (r, true)).nRefCount + (Slots.count N (j : ℤ) : ℤ) =
        Slots.count N (j : ℤ) := Int.zero_add _
    rw [hrefs]
    rfl
  | false =>
    rw [unreferenced_of_covers h hf hnNew j r hx, Int.zero_add]
    have hseed : seed s j (r, false) = (s.mapInfo[(j : ℤ)]?.getD CAddrInfo.blank).load r := rfl
    rw [hseed]
    cases he : s.mapInfo[(j : ℤ)]? with
    | none => rfl
    | some e =>
      have htried := ((h j e he).2 (lt_nNew hf hnNew hx)).1
      rw [Option.getD_some, CAddrInfo.load, htried]
      rfl

/-- A record that is not kept is the one that is pruned. -/
theorem doomed_settled {j : ℕ} {x : Persisted × Bool} :
    (settled (f.granted A) j x).Doomed ↔ ¬ f.Kept A j x := by
  rw [AddrFile.Kept, not_or, not_exists, Bool.not_eq_true]
  refine and_congr_right fun _ ↦ ?_
  change ((Slots.count (f.granted A) (j : ℤ) : ℕ) : ℤ) = 0 ↔ _
  rw [Int.natCast_eq_zero, Slots.count_eq_zero_iff]

/-- The records have been entered and nothing else is there. -/
structure Staged (A : AddrParams) (f : AddrFile) (t : CAddrMan) : Prop where
  key : t.nKey = f.nKey
  vvNew : t.vvNew = f.granted A
  entry : ∀ (nId : ℤ) (e : CAddrInfo), t.mapInfo[nId]? = some e ↔ ∃ (j : ℕ) (x : Persisted × Bool),
    nId = j ∧ (f.records A)[j]? = some x ∧ e = settled (f.granted A) j x

theorem Loading.toStaged (h : Loading A s f.nKey (f.records A) t) (hf : f.Wf) (hnNew : 0 ≤ f.nNew)
    (hcovers : f.Covers A s) (hvvNew : Unreferenced s (f.records A) → t.vvNew = f.granted A) :
    Staged A f t := by
  have hN := hvvNew (unreferenced_of_covers hcovers hf hnNew)
  have hentry : ∀ (j : ℕ) (x : Persisted × Bool), (f.records A)[j]? = some x →
      t.mapInfo[(j : ℤ)]? = some (settled (f.granted A) j x) := fun j x hx ↦ by
    rw [h.entry j x hx, hN, entered_of_covers hcovers hf hnNew _ hx]
  refine ⟨h.key, hN, fun nId e ↦ ⟨fun he ↦ ?_, ?_⟩⟩
  · obtain ⟨j, rfl, hj⟩ : ∃ j : ℕ, nId = j ∧ j < (f.records A).length := by
      by_contra hnone
      have hother := h.other nId fun j hj heq ↦ hnone ⟨j, heq, hj⟩
      rw [hother] at he
      obtain ⟨⟨hpos, hlt⟩, -⟩ := hcovers nId e he
      exact hnone ⟨nId.toNat, by omega, by omega⟩
    have hx := List.getElem?_eq_getElem hj
    rw [hentry j _ hx] at he
    exact ⟨j, _, rfl, hx, (Option.some.inj he).symm⟩
  · rintro ⟨j, x, rfl, hx, rfl⟩
    exact hentry j x hx

namespace Staged

theorem getElem? (h : Staged A f t) {j : ℕ} {x : Persisted × Bool}
    (hx : (f.records A)[j]? = some x) : t.mapInfo[(j : ℤ)]? = some (settled (f.granted A) j x) :=
  (h.entry _ _).mpr ⟨j, x, rfl, hx, rfl⟩

/-- **What is left after the pruning** are the records that are kept. -/
theorem entry_pruned (h : Staged A f t) (hprune : PrunedAll t s') {nId : ℤ} {e : CAddrInfo} :
    s'.entry nId = some e ↔ ∃ (j : ℕ) (x : Persisted × Bool), nId = j ∧
      (f.records A)[j]? = some x ∧ f.Kept A j x ∧
      e = { settled (f.granted A) j x with nRandomPos := 0 } := by
  constructor
  · intro he
    have hkept : ∀ e₀, t.mapInfo[nId]? = some e₀ → ¬ e₀.Doomed := fun e₀ he₀ hdoomed ↦ by
      rw [(hprune.gone he₀ hdoomed).1] at he
      cases he
    rw [hprune.entry hkept] at he
    obtain ⟨e₀, he₀, rfl⟩ := entry_eq_some_iff.mp he
    obtain ⟨j, x, rfl, hx, rfl⟩ := (h.entry _ _).mp he₀
    exact ⟨j, x, rfl, hx, not_not.mp fun hnot ↦ hkept _ he₀ (doomed_settled.mpr hnot), rfl⟩
  · rintro ⟨j, x, rfl, hx, hkept, rfl⟩
    have he₀ := h.getElem? hx
    rw [hprune.entry fun e₀ he hdoomed ↦ ?_]
    · exact entry_of_getElem? he₀
    · rw [he₀] at he
      cases he
      exact doomed_settled.mp hdoomed hkept

/-- The address of a record that is pruned leads nowhere. -/
theorem mapAddr_gone (h : Staged A f t) (hprune : PrunedAll t s') {i : ℕ} {x : Persisted × Bool}
    (hx : (f.records A)[i]? = some x) (hgone : ¬ f.Kept A i x) :
    s'.mapAddr x.1.service.ip = none :=
  (hprune.gone (h.getElem? hx) (doomed_settled.mpr hgone)).2

/-- The address of a record that has it alone leads to it. -/
theorem mapAddr_kept (h : Staged A f t) (hload : Loading A s f.nKey (f.records A) t)
    (hprune : PrunedAll t s') {j : ℕ} {y : Persisted × Bool} (hy : (f.records A)[j]? = some y)
    (hkept : f.Kept A j y) (halone : ∀ i x, (f.records A)[i]? = some x →
      x.1.service.ip = y.1.service.ip → i = j) : s'.mapAddr y.1.service.ip = some (j : ℤ) := by
  rw [hprune.addr fun nId e he hdoomed hip ↦ ?_]
  · exact hload.addr j y hy fun i x hx hlt hip ↦ hlt.ne (halone i x hx hip).symm
  · obtain ⟨i, x, rfl, hx, rfl⟩ := (h.entry _ _).mp he
    obtain rfl := halone i x hx hip
    rw [hx] at hy
    cases hy
    exact doomed_settled.mp hdoomed hkept

theorem ordered (h : Staged A f t) (hload : Loading A s f.nKey (f.records A) t) : Ordered t where
  pos nId e he := by
    obtain ⟨j, x, -, -, rfl⟩ := (h.entry _ _).mp he
    exact Int.natCast_nonneg j
  random nId i := by
    rw [position, Option.map_eq_some_iff, hload.vRandom, List.getElem?_map, Option.map_eq_some_iff]
    constructor
    · rintro ⟨e, he, rfl⟩
      obtain ⟨j, x, rfl, hx, rfl⟩ := (h.entry _ _).mp he
      have hj : (settled (f.granted A) j x).nRandomPos.toNat = j := Int.toNat_natCast j
      rw [hj]
      exact ⟨j, List.getElem?_range (List.getElem?_eq_some_iff.mp hx).1, rfl⟩
    · rintro ⟨j, hj, rfl⟩
      obtain ⟨hlt, heq⟩ := List.getElem?_eq_some_iff.mp hj
      rw [List.length_range] at hlt
      rw [List.getElem_range] at heq
      subst heq
      exact ⟨_, h.getElem? (List.getElem?_eq_getElem hlt), Int.toNat_natCast i⟩

end Staged

/-! ## When the check passes -/

/-- When there are as many entries as places, what was there before has been written over. -/
theorem Loading.exists_of_size (h : Loading A s f.nKey (f.records A) t)
    (hsize : t.mapInfo.size = t.vRandom.length) {nId : ℤ} {e : CAddrInfo}
    (he : s.mapInfo[nId]? = some e) : ∃ j : ℕ, nId = j ∧ j < (f.records A).length := by
  by_contra hnone
  have hother : t.mapInfo[nId]? = some e :=
    (h.other nId fun j hj heq ↦ hnone ⟨j, heq, hj⟩).trans he
  have hmem : ∀ j ∈ t.vRandom, ∃ i : ℕ, j = i ∧ i < (f.records A).length := by
    intro j hj
    rw [h.vRandom] at hj
    obtain ⟨i, hi, rfl⟩ := List.mem_map.mp hj
    exact ⟨i, rfl, List.mem_range.mp hi⟩
  have hnodup : (nId :: t.vRandom).Nodup := by
    refine List.nodup_cons.mpr ⟨fun hin ↦ hnone (hmem nId hin), ?_⟩
    rw [h.vRandom]
    exact List.nodup_range.map Nat.cast_injective
  have hsub : nId :: t.vRandom ⊆ t.mapInfo.keys := by
    have hkey : ∀ {id : ℤ} {e : CAddrInfo}, t.mapInfo[id]? = some e → id ∈ t.mapInfo.keys := by
      intro id e hid
      rw [Std.TreeMap.mem_keys, Std.TreeMap.mem_iff_isSome_getElem?, hid]
      rfl
    intro j hj
    rcases List.mem_cons.mp hj with rfl | hj
    · exact hkey hother
    · obtain ⟨i, rfl, hi⟩ := hmem j hj
      exact hkey (h.entry i _ (List.getElem?_eq_getElem hi))
  have hle := (hnodup.subperm hsub).length_le
  rw [List.length_cons, Std.TreeMap.length_keys, hsize] at hle
  exact absurd hle (Nat.not_succ_le_self _)

/-- An entry that a new record has been read over had no references, and was a new one. -/
theorem Loading.doomed_of_checked (h : Loading A s f.nKey (f.records A) t) (hprune : PrunedAll t s')
    (hchecked : Checked A s') {j : ℕ} {r : Persisted} (hr : (f.records A)[j]? = some (r, false))
    {e : CAddrInfo} (he : s.mapInfo[(j : ℤ)]? = some e) : e.Doomed := by
  have hseed : seed s j (r, false) = e.load r := by
    change (s.mapInfo[(j : ℤ)]?.getD CAddrInfo.blank).load r = _
    rw [he, Option.getD_some]
  have hentry := h.entry j _ hr
  rw [entered, hseed] at hentry
  set e' : CAddrInfo := { e.load r with
    nRandomPos := j
    nRefCount := (e.load r).nRefCount + Slots.count t.vvNew (j : ℤ) }
  by_cases hdoomed : e'.Doomed
  · refine ⟨hdoomed.1, ?_⟩
    have hzero : Slots.count t.vvNew (j : ℤ) = 0 := by
      refine Slots.count_eq_zero_iff.mpr fun p hp ↦ ?_
      obtain ⟨_, hnew, -⟩ := hchecked.placed.new (p := p) (by rw [hprune.vvNew]; omega)
      rw [hprune.vvNew, hp, (hprune.gone hentry hdoomed).1] at hnew
      cases hnew
    have hsum : e.nRefCount + (Slots.count t.vvNew (j : ℤ) : ℤ) = 0 := hdoomed.2
    omega
  · have hleft : s'.entry j = some { e' with nRandomPos := 0 } := by
      rw [hprune.entry fun e₀ he₀ ↦ ?_]
      · exact entry_of_getElem? hentry
      · rw [hentry] at he₀
        cases he₀
        exact hdoomed
    have hat := hchecked.placed.at_some hleft
    refine ⟨?_, ?_⟩
    · by_contra htried
      obtain ⟨hhome, -⟩ := hat.home _ rfl (eq_true_of_ne_false htried)
      rw [hprune.vvTried] at hhome
      obtain ⟨i, r', hi, hr', -⟩ := h.tried _ (by rw [hhome]; omega)
      obtain rfl : i = j := by omega
      rw [hr] at hr'
      cases hr'
    · have hrefs : e.nRefCount + (Slots.count t.vvNew (j : ℤ) : ℤ) = Slots.count s'.vvNew (j : ℤ) :=
        (hat.refs _ rfl).1
      rw [hprune.vvNew] at hrefs
      omega

theorem Loading.covers (h : Loading A s f.nKey (f.records A) t) (hf : f.Wf)
    (hprune : PrunedAll t s') (hchecked : Checked A s') : f.Covers A s := by
  have hsize : t.mapInfo.size = t.vRandom.length := by
    obtain ⟨k, hlen, -, hmap⟩ := hprune.counts
    have hall := s'.size_eq_countP
    have htotal := hchecked.total
    rw [hchecked.nTried, hchecked.nNew] at htotal
    omega
  intro nId e he
  obtain ⟨j, rfl, hj⟩ := h.exists_of_size hsize he
  refine ⟨⟨by omega, by omega⟩, fun hlt ↦ ?_⟩
  have hlen := hf.new
  have hnew : (f.records A)[j]? = some ((f.records A)[j].1, false) := by
    rw [List.getElem?_eq_getElem hj]
    have hget : (f.records A)[j]? = (f.new[j]?).map (·, false) := by
      rw [AddrFile.records, List.getElem?_append_left (by rw [List.length_map]; omega),
        List.getElem?_map]
    rw [List.getElem?_eq_getElem hj] at hget
    obtain ⟨r, -, hr⟩ := Option.map_eq_some_iff.mp hget.symm
    rw [← hr]
  exact h.doomed_of_checked hprune hchecked hnew he

/-- Nobody has been granted more than eight slots. -/
theorem count_granted_le (f : AddrFile) (j : ℕ) :
    (Slots.count (f.granted A) (j : ℤ) : ℤ) ≤ ADDRMAN_NEW_BUCKETS_PER_ADDRESS := by
  have hzero : Slots.count (fun _ : NewSlot ↦ (-1 : ℤ)) (j : ℤ) = 0 :=
    Slots.count_eq_zero_iff.mpr fun _ ↦ by omega
  exact Int.ofNat_le.mpr (Slots.count_foldl_grant_le (by omega) (f.requests A) (by omega))

/-- The tables are right when the times are. -/
theorem Staged.placed_pruned (h : Staged A f t) (hload : Loading A s f.nKey (f.records A) t)
    (hprune : PrunedAll t s')
    (htimes : ∀ (j : ℕ) (x : Persisted × Bool), (f.records A)[j]? = some x → f.Kept A j x →
      0 ≤ x.1.nLastSuccess ∧ (x.2 = true → x.1.nLastSuccess ≠ 0)) :
    Placed A f.nKey ∅ s'.entry s'.vvNew s'.vvTried := by
  have hN : s'.vvNew = f.granted A := hprune.vvNew.trans h.vvNew
  have hleft : ∀ {j : ℕ} {x : Persisted × Bool}, (f.records A)[j]? = some x → f.Kept A j x →
      s'.entry j = some { settled (f.granted A) j x with nRandomPos := 0 } := fun hx hkept ↦
    (h.entry_pruned hprune).mpr ⟨_, _, rfl, hx, hkept, rfl⟩
  have hservice : ∀ (j : ℕ) (x : Persisted × Bool),
      ({ settled (f.granted A) j x with nRandomPos := 0 } : CAddrInfo).toCService =
        (info x.1).toCService := fun _ _ ↦ rfl
  refine ⟨Option.eq_none_iff_forall_ne_some.mpr fun e he ↦ ?_, fun nId hid ↦ ⟨fun p hp ↦ ?_,
    fun p hp ↦ ?_, fun e he ↦ ?_, fun e he hnew _ ↦ ?_, fun e he htried ↦ ?_, fun e he ↦ ?_⟩⟩
  · obtain ⟨j, x, hj, -⟩ := (h.entry_pruned hprune).mp he
    omega
  · obtain ⟨j, r, hj, hr, hslot⟩ := hload.new p (by rw [h.vvNew, ← hN, hp]; exact hid)
    rw [h.vvNew] at hj
    obtain rfl : nId = j := by rw [← hp, hN, hj]
    exact ⟨_, hleft hr (.inr ⟨p, hj⟩), rfl,
      (congrFun (CAddrInfo.newSlot_congr (hservice j (r, false))) p.1).trans hslot⟩
  · obtain ⟨j, r, hj, hr, hslot⟩ := hload.tried p (by rw [← hprune.vvTried, hp]; exact hid)
    obtain rfl : nId = j := by rw [← hp, hprune.vvTried, hj]
    exact ⟨_, hleft hr (.inl rfl), rfl,
      (CAddrInfo.triedSlot_congr (hservice j (r, true))).trans hslot⟩
  · obtain ⟨j, x, rfl, hx, -, rfl⟩ := (h.entry_pruned hprune).mp he
    rw [hN]
    exact ⟨rfl, count_granted_le f j⟩
  · obtain ⟨j, x, rfl, hx, hkept, rfl⟩ := (h.entry_pruned hprune).mp he
    rcases hkept with htried | ⟨p, hp⟩
    · exact absurd (htried.symm.trans hnew) Bool.noConfusion
    · exact Int.natCast_pos.mpr (Slots.count_pos_iff.mpr ⟨p, hp⟩)
  · obtain ⟨j, ⟨r, _⟩, rfl, hx, hkept, rfl⟩ := (h.entry_pruned hprune).mp he
    obtain rfl : _ = true := htried
    rw [hprune.vvTried]
    have hslot := congrArg t.vvTried
      (show _ = (info r).triedSlot A f.nKey from CAddrInfo.triedSlot_congr (hservice j (r, true)))
    exact ⟨hslot.trans (hload.home j r hx), (htimes j _ hx hkept).2 rfl⟩
  · obtain ⟨j, x, rfl, hx, hkept, rfl⟩ := (h.entry_pruned hprune).mp he
    exact ⟨Int64.le_refl 0, (htimes j x hx hkept).1⟩

/-- Every record of the tried table that is not lost is tried, and no other one is. -/
theorem countP_records (f : AddrFile) :
    (f.records A).length = f.new.length + (f.records A).countP fun x ↦ x.2 := by
  have hnone := List.countP_eq_zero (p := (fun x : Persisted × Bool ↦ x.2) ∘ fun r ↦ (r, false))
    (l := f.new) |>.mpr fun _ _ ↦ Bool.false_ne_true
  have hall := List.countP_eq_length (p := (fun x : Persisted × Bool ↦ x.2) ∘ fun r ↦ (r, true))
    (l := f.placed A) |>.mpr fun _ _ ↦ rfl
  rw [AddrFile.records, List.countP_append, List.countP_map, List.countP_map, hnone, hall,
    List.length_append, List.length_map, List.length_map, Nat.zero_add]

/-- What has been loaded passes the check under the condition. -/
theorem Staged.checked (h : Staged A f t) (hload : Loading A s f.nKey (f.records A) t) (hf : f.Wf)
    (hprune : PrunedAll t s') (hloadable : f.Loadable A s)
    (hcounts : (t.vRandom.length : ℤ) - t.nTried - t.nNew = 0) (hnNew : t.nNew = f.nNew) :
    Checked A s' := by
  have hordered := hprune.ordered (h.ordered hload)
  have hplaced := h.placed_pruned hload hprune hloadable.times
  rw [← (hprune.nKey.trans h.key)] at hplaced
  obtain ⟨k, hlen, hnNew', -⟩ := hprune.counts
  refine .of_placed hplaced hordered ?_ ?_ fun nId e he ↦ ?_
  · have hslots := hload.slots
    have hlength := countP_records (A := A) f
    have hnew := hf.new
    have hpos := hloadable.nNew
    rw [hload.length] at hcounts
    rw [hprune.nTried, hprune.vvTried]
    omega
  · rw [hprune.nTried]
    omega
  · obtain ⟨j, y, rfl, hy, hkept, heq⟩ := (h.entry_pruned hprune).mp (entry_of_getElem? he)
    have hip : e.ip = y.1.service.ip := congrArg (fun e : CAddrInfo ↦ e.ip) heq
    rw [hip]
    by_cases hgone : ∃ i x, (f.records A)[i]? = some x ∧ ¬ f.Kept A i x ∧
        x.1.service.ip = y.1.service.ip
    · obtain ⟨i, x, hx, hnot, hsame⟩ := hgone
      rcases hloadable.addr i j x y hx hy hkept hsame with rfl | ⟨rfl, -⟩
      · rw [hx] at hy
        cases hy
        exact absurd hkept hnot
      · rw [← hsame, h.mapAddr_gone hprune hx hnot]
        rfl
    · rw [h.mapAddr_kept hload hprune hy hkept fun i x hx hsame ↦ ?_]
      · rfl
      · refine (hloadable.addr i j x y hx hy hkept hsame).resolve_right fun hnot ↦ ?_
        exact hgone ⟨i, x, hx, hnot.2, hsame⟩

/-- What passes the check has met the condition. -/
theorem Staged.loadable (h : Staged A f t) (hprune : PrunedAll t s') (hchecked : Checked A s')
    (hnKey : f.nKey ≠ 0) (hnNew : 0 ≤ f.nNew) (hnTried : 0 ≤ f.nTried) (hcovers : f.Covers A s) :
    f.Loadable A s where
  nKey := hnKey
  nNew := hnNew
  nTried := hnTried
  covers := hcovers
  times j x hx hkept := by
    have hat := hchecked.placed.at_some ((h.entry_pruned hprune).mpr ⟨j, x, rfl, hx, hkept, rfl⟩)
    exact ⟨(hat.times _ rfl).2, fun htried ↦ (hat.home _ rfl htried).2⟩
  addr i j x y hx hy hkept hsame := by
    have hfound : ∀ {i : ℕ} {x : Persisted × Bool}, (f.records A)[i]? = some x → f.Kept A i x →
        (s'.mapAddr x.1.service.ip).getD 0 = i := by
      intro i x hx hkept
      obtain ⟨e, he, heq⟩ := entry_eq_some_iff.mp
        ((h.entry_pruned hprune).mpr ⟨i, x, rfl, hx, hkept, rfl⟩)
      have hip : e.ip = x.1.service.ip := congrArg (fun e : CAddrInfo ↦ e.ip) heq
      rw [← hip]
      exact hchecked.addr _ e he
    have hj := hfound hy hkept
    by_cases hi : f.Kept A i x
    · have hi' := hfound hx hi
      rw [hsame, hj] at hi'
      exact .inl (by omega)
    · rw [← hsame, h.mapAddr_gone hprune hx hi, Option.getD_none] at hj
      exact .inr ⟨by omega, hi⟩

end

/-- **A load is checked**: when `Unserialize` comes to its end, the check passes just under the
condition on what the stream says and on what was in the manager before. -/
theorem check_unserialize_iff {bytes rest : List UInt8}
    (h : unserialize A s bytes = .ok (s', rest)) :
    ∃ f : AddrFile, AddrFile.read bytes = .ok (f, rest) ∧ (check_ A s' = 0 ↔ f.Loadable A s) := by
  obtain ⟨f, hread, hf, hpruned⟩ := unserialize_eq_ok.mp h
  have hprune := prunedAll hpruned
  obtain ⟨hcounts, hnNew, hkey⟩ := staged_counts (A := A) hf s
  refine ⟨f, hread, check_eq_zero_iff.trans ⟨?_, fun hloadable ↦ ⟨?_, ?_⟩⟩⟩
  · rintro ⟨hchecked, hnKey⟩
    obtain ⟨k, hlen, hleft, -⟩ := hprune.counts
    have htotal := hchecked.total
    rw [hprune.nTried] at htotal
    have hnew : 0 ≤ f.nNew := by omega
    have htried : 0 ≤ f.nTried := by omega
    obtain ⟨hload, hvvNew⟩ := loading_staged (A := A) hf hnew s
    have hcovers := hload.covers hf hprune hchecked
    have hstaged := hload.toStaged hf hnew hcovers hvvNew
    rw [hprune.nKey.trans hkey] at hnKey
    exact hstaged.loadable hprune hchecked hnKey hnew htried hcovers
  · obtain ⟨hload, hvvNew⟩ := loading_staged (A := A) hf hloadable.nNew s
    have hstaged := hload.toStaged hf hloadable.nNew hloadable.covers hvvNew
    have hnew := hloadable.nNew
    have htried := hloadable.nTried
    exact hstaged.checked hload hf hprune hloadable (by omega) hnNew
  · rw [hprune.nKey.trans hkey]
    exact hloadable.nKey

namespace Sample

def met : Persisted where
  service := node.toCService
  nServices := 1
  nTime := 1000
  source := node.ip
  nLastSuccess := 1500
  nAttempts := 0

/-- A node is in both tables. -/
def both : AddrFile where
  nKey := 1
  nNew := 1
  nTried := 1
  fPlaced := false
  new := [met]
  tried := [met]
  indexes := []

/-- It in a version whose positions are not used -/
def bothBytes : List UInt8 :=
  (Codec.uint 1).put 0 ++ ((Codec.uint 1).put 32 ++ (Codec.uint256.put 1 ++ (Codec.int32.put 1 ++
    (Codec.int32.put 1 ++ (Codec.int32.put 0 ++ (Persisted.codec.put met ++
      (Persisted.codec.put met ++ [])))))))

theorem read_both : AddrFile.read bothBytes = .ok (both, []) := by
  have hmany : ∀ rest, readMany Persisted.codec 1 (Persisted.codec.put met ++ rest) =
      .ok ([met], rest) := fun rest ↦ readMany_succ_eq_ok.mpr
    ⟨met, rest, [], read_put met.valid_codec rest, rfl, rfl⟩
  rw [AddrFile.read, bothBytes]
  exact bind_eq_ok.mpr ⟨_, read_put (show 0 < 256 ^ 1 by decide) _, bind_eq_ok.mpr
    ⟨_, read_put (show 32 < 256 ^ 1 by decide) _, bind_eq_ok.mpr ⟨(), assert_eq_ok.mpr rfl,
    bind_eq_ok.mpr ⟨_, read_put (Codec.valid_uint256 _) _, bind_eq_ok.mpr
    ⟨_, read_put (Codec.valid_int32 _) _, bind_eq_ok.mpr ⟨_, read_put (Codec.valid_int32 _) _,
    bind_eq_ok.mpr ⟨_, read_put (Codec.valid_int32 _) _, bind_eq_ok.mpr ⟨_, hmany _,
    bind_eq_ok.mpr ⟨_, hmany _, rfl⟩⟩⟩⟩⟩⟩⟩⟩⟩

theorem records_both : both.records params = [(met, false), (met, true)] := rfl

/-- The slot that the new one asks for -/
def slot : NewSlot := (info met).newSlot params 1 ((info met).getNewBucket params 1 met.source)

theorem granted_both : both.granted params slot = ((0 : ℕ) : ℤ) := by
  have hrequests : both.requests params = [(slot, ((0 : ℕ) : ℤ))] := rfl
  have hzero : Slots.count (fun _ : NewSlot ↦ (-1 : ℤ)) ((0 : ℕ) : ℤ) = 0 :=
    Slots.count_eq_zero_iff.mpr fun _ ↦ by omega
  have hfew : Slots.count (fun _ : NewSlot ↦ (-1 : ℤ)) ((0 : ℕ) : ℤ) < 8 := by omega
  rw [AddrFile.granted, hrequests, List.foldl_cons, List.foldl_nil, Slots.grant,
    if_pos ⟨rfl, hfew⟩, Function.update_self]

theorem wf_both : both.Wf := ⟨rfl, rfl, nofun⟩

theorem staged_both : Staged params both (staged params (init 7) both) ∧
    Loading params (init 7) both.nKey (both.records params) (staged params (init 7) both) := by
  obtain ⟨hload, hvvNew⟩ := loading_staged (A := params) wf_both (by decide) (init 7)
  exact ⟨hload.toStaged wf_both (by decide) (fun nId e he ↦ (by cases he)) hvvNew, hload⟩

/-- The new one has a slot and is not pruned. -/
theorem unserialize_both :
    unserialize params (init 7) bothBytes = .ok (staged params (init 7) both, []) := by
  refine unserialize_eq_ok.mpr ⟨both, read_both, wf_both, prune_eq _ fun x hx hnew ↦ ?_⟩
  obtain ⟨j, y, -, hy, heq⟩ :=
    (staged_both.1.entry _ _).mp (Std.TreeMap.mem_toList_iff_getElem?_eq_some.mp hx)
  rw [heq] at hnew ⊢
  have hkept : both.Kept params j y := by
    obtain ⟨hlt, -⟩ := List.getElem?_eq_some_iff.mp hy
    rw [records_both] at hlt hy
    obtain rfl | rfl : j = 0 ∨ j = 1 := by
      change j < 2 at hlt
      omega
    · exact .inr ⟨slot, granted_both⟩
    · cases hy
      exact .inl rfl
  exact fun hzero ↦ doomed_settled.mp ⟨hnew, hzero⟩ hkept

end Sample

/-- **An address in both tables** is loaded, and the check does not pass. -/
theorem unserialize_both_check :
    unserialize Sample.params (init 7) Sample.bothBytes =
        .ok (staged Sample.params (init 7) Sample.both, []) ∧
      check_ Sample.params (staged Sample.params (init 7) Sample.both) ≠ 0 := by
  refine ⟨Sample.unserialize_both, fun hcheck ↦ ?_⟩
  obtain ⟨hchecked, -⟩ := check_eq_zero_iff.mp hcheck
  have hnew := hchecked.addr _ _ (Sample.staged_both.1.getElem? (j := 0) rfl)
  have htried := hchecked.addr _ _ (Sample.staged_both.1.getElem? (j := 1) rfl)
  exact absurd (hnew.symm.trans htried) (by decide)

theorem check_unserialize_iff_sample : ∃ f : AddrFile,
    AddrFile.read Sample.bothBytes = .ok (f, []) ∧
    (check_ Sample.params (staged Sample.params (init 7) Sample.both) = 0 ↔
      f.Loadable Sample.params (init 7)) :=
  check_unserialize_iff Sample.unserialize_both

end CAddrMan

end Bws
