import Bws.Balance
import Bws.Lib.Linked
import Mathlib.Data.Finmap
import Mathlib.Data.Finset.Sort

/-!
# Addresses that belong together

`GetAddressGroupings` first collects groups of addresses from the transactions of the wallet, and then
merges the groups that overlap.

The merging loop keeps its groups behind pointers: those that it has merged are deleted, and the map from
addresses to groups points to them until it is rewritten.  No deleted group is ever used, and what is left
are the components of the family of groups (`mergeGroupings_partition`).

The collecting loop looks up what every input spends with `mapWallet[hash].vout[n]`, but has made sure of
the first input only.  It stays inside the wallet exactly when each input of a transaction whose first
input is ours spends an output of the wallet (`collectGroupings_ok_iff`).
-/

namespace Bws

/-! ## The merging loop -/

/-- What `new` answers when the addresses in a set are taken. -/
structure Allocator where
  new : Finset ℕ → ℕ
  new_notMem : ∀ live, new live ∉ live

/-- Each set can lie above all others. -/
instance : Inhabited Allocator where
  default :=
    { new := fun live ↦ live.sup id + 1
      new_notMem := by
        intro live hmem
        have hle := Finset.le_sup (s := live) (f := id) hmem
        exact absurd hle (Nat.not_succ_le_self _) }

/-- The variables of the merging loop, and the sets that it has made and not deleted. -/
structure GroupState where
  heap : Finmap fun _ : ℕ ↦ Finset CTxDestination
  uniqueGroupings : Finset ℕ
  setmap : CTxDestination → Option ℕ

namespace GroupState

def init : GroupState := ⟨∅, ∅, fun _ ↦ none⟩

/-- The loop over `hits`: each of them goes into `merged` and is deleted. -/
def absorb (merged : ℕ) : List ℕ → GroupState → Except Fault GroupState
  | [], s => .ok s
  | hit :: hits, s =>
    match s.heap.lookup merged, s.heap.lookup hit with
    | some group, some old =>
      absorb merged hits
        { s with
          heap := (s.heap.insert merged (group ∪ old)).erase hit
          uniqueGroupings := s.uniqueGroupings.erase hit }
    | _, _ => .error (.thrown "a deleted set is used")

/-- The groups that a new group hits. -/
def hits (s : GroupState) (grouping : Finset CTxDestination) : Finset ℕ :=
  grouping.biUnion fun address ↦ (s.setmap address).toFinset

/-- `setmap[element] = merged` for all elements of `merged` -/
def pointTo (merged : ℕ) (s : GroupState) : Except Fault GroupState :=
  match s.heap.lookup merged with
  | none => .error (.thrown "a deleted set is used")
  | some group =>
    .ok { s with
      uniqueGroupings := insert merged s.uniqueGroupings
      setmap := fun address ↦ if address ∈ group then some merged else s.setmap address }

/-- A round of the merging loop. -/
def mergeGrouping (A : Allocator) (s : GroupState) (grouping : Finset CTxDestination) :
    Except Fault GroupState :=
  let merged := A.new s.heap.keys
  absorb merged ((s.hits grouping).sort (· ≤ ·)) { s with heap := s.heap.insert merged grouping } >>=
    pointTo merged

/-- The loop that fills `ret` and deletes the groups. -/
def release : List ℕ → GroupState → Except Fault (Finset (Finset CTxDestination))
  | [], _ => .ok ∅
  | uniqueGrouping :: uniqueGroupings, s =>
    match s.heap.lookup uniqueGrouping with
    | none => .error (.thrown "a deleted set is used")
    | some group =>
      (release uniqueGroupings { s with heap := s.heap.erase uniqueGrouping }).map (insert group)

end GroupState

/-- The second half of `GetAddressGroupings`, with the groups in any order. -/
def mergeGroupings (A : Allocator) (groupings : List (Finset CTxDestination)) :
    Except Fault (Finset (Finset CTxDestination)) := do
  let s ← groupings.foldlM (GroupState.mergeGrouping A) GroupState.init
  s.release (s.uniqueGroupings.sort (· ≤ ·))

/-! ## The collecting loop -/

namespace WalletView

variable (v : WalletView)

/-- `mapWallet[hash]`, which adds an empty transaction when there is none. -/
def walletAt (hash : UInt256) : WalletM CWalletTx := fun s ↦
  let wtx := (s.mapWallet hash).getD (CTransaction.empty v.nAdjustedTime.toNat).toWalletTx
  .ok wtx (s.put hash wtx)

/-- `mapWallet[prevout.hash].vout[prevout.n]` -/
def outputAt (prevout : COutPoint) : WalletM CTxOut := do
  let wtx ← v.walletAt prevout.hash
  match wtx.vout[prevout.n]? with
  | none => throw (.thrown "vout[prevout.n] does not exist")
  | some txout => pure txout

/-- The address of an output joins a group, where there is one. -/
def withAddress (txout : CTxOut) (grouping : Finset CTxDestination) : Finset CTxDestination :=
  match extractDestination v.solverParams txout.scriptPubKey with
  | none => grouping
  | some address => insert address grouping

/-- The loop over the inputs. -/
def inputGrouping : List CTxIn → Finset CTxDestination → WalletM (Finset CTxDestination)
  | [], grouping => pure grouping
  | txin :: vin, grouping => do
    let txout ← v.outputAt txin.prevout
    inputGrouping vin (v.withAddress txout grouping)

/-- The loop over the outputs, which also copies a transaction that it does not use. -/
def changeGrouping (prevout : COutPoint) :
    List CTxOut → Finset CTxDestination → WalletM (Finset CTxDestination)
  | [], grouping => pure grouping
  | txout :: vout, grouping =>
    if v.isChange txout then do
      let _ ← v.walletAt prevout.hash
      changeGrouping prevout vout (v.withAddress txout grouping)
    else changeGrouping prevout vout grouping

/-- The groups of lone addresses. -/
def loneGroupings (wtx : CWalletTx) : List (Finset CTxDestination) :=
  (wtx.vout.filter v.isMine).filterMap fun txout ↦
    (extractDestination v.solverParams txout.scriptPubKey).map ({·})

/-- All input addresses, and change with them. -/
def spendGrouping (txin : CTxIn) (vin : List CTxIn) (vout : List CTxOut) :
    WalletM (List (Finset CTxDestination)) := do
  let grouping ← v.inputGrouping (txin :: vin) ∅
  let grouping ← v.changeGrouping txin.prevout vout grouping
  pure [grouping]

/-- The group of a transaction whose first input is ours. -/
def spendGroupings (wtx : CWalletTx) : WalletM (List (Finset CTxDestination)) := fun s ↦
  match wtx.vin with
  | [] => .ok [] s
  | txin :: vin =>
    if (s.mineOutput v.walletParams txin.prevout).isSome then v.spendGrouping txin vin wtx.vout s
    else .ok [] s

/-- The loop over the wallet.  An entry that it adds to the map itself is empty, so that the access to its
output fails before the loop could come to the entry. -/
def collectFrom : List (UInt256 × CWalletTx) → WalletM (List (Finset CTxDestination))
  | [] => pure []
  | e :: entries => do
    let spend ← v.spendGroupings e.2
    let groupings ← collectFrom entries
    pure (spend ++ v.loneGroupings e.2 ++ groupings)

/-- The first half of `GetAddressGroupings`. -/
def collectGroupings : WalletM (List (Finset CTxDestination)) := v.collectFrom v.entries

/-- The wallet has what is spent. -/
def Holds (prevout : COutPoint) : Prop :=
  ∃ prev txout, v.wallet.mapWallet prevout.hash = some prev ∧ prev.vout[prevout.n]? = some txout

/-- The further inputs of a transaction whose first input is ours spend outputs of the wallet. -/
def HeldIfMine (wtx : CWalletTx) : Prop :=
  ∀ txin vin, wtx.vin = txin :: vin → (v.mineOutput txin.prevout).isSome →
    ∀ txin' ∈ vin, v.Holds txin'.prevout

def SpendsHeld : Prop := ∀ e ∈ v.entries, v.HeldIfMine e.2

end WalletView

/-! ## What the merging loop keeps -/

/-- The groups of a list, as sets. -/
def family (groupings : List (Finset CTxDestination)) : Set (Set CTxDestination) :=
  {t | ∃ grouping ∈ groupings, t = ↑grouping}

theorem family_nil : family [] = ∅ := by
  ext t
  simp [family]

theorem family_cons (grouping : Finset CTxDestination) (groupings : List (Finset CTxDestination)) :
    family (grouping :: groupings) = insert ↑grouping (family groupings) := by
  ext t
  simp [family]

namespace GroupState

/-- The sets that live, without their addresses in memory. -/
def groups (s : GroupState) : Set (Set CTxDestination) :=
  {t | ∃ p group, s.heap.lookup p = some group ∧ t = ↑group}

/-- The sets that live are the unique groups, the map from addresses leads to them, and they are the
components of the groups merged so far. -/
structure Merged (groupings : Set (Set CTxDestination)) (s : GroupState) : Prop where
  keys : s.heap.keys = s.uniqueGroupings
  setmap : ∀ address p, s.setmap address = some p ↔
    ∃ group, s.heap.lookup p = some group ∧ address ∈ group
  components : Overlap.Components groupings s.groups

theorem merged_init : Merged ∅ init where
  keys := Finmap.keys_empty
  setmap address p := by simp [init]
  components := by
    have hgroups : init.groups = ∅ := by
      ext t
      simp [groups, init]
    rw [hgroups]
    exact Overlap.Components.empty

/-- What the loop over `hits` leaves, when none of them has been deleted. -/
theorem absorb_eq_ok {merged : ℕ} {hits : List ℕ} (hnodup : hits.Nodup) (hmerged : merged ∉ hits) :
    ∀ (s : GroupState) (group : Finset CTxDestination), s.heap.lookup merged = some group →
      (∀ hit ∈ hits, hit ∈ s.heap) →
      ∃ s', absorb merged hits s = .ok s' ∧ s'.setmap = s.setmap ∧
        s'.uniqueGroupings = s.uniqueGroupings \ hits.toFinset ∧
        s'.heap.keys = s.heap.keys \ hits.toFinset ∧
        (∀ p, p ∉ hits → p ≠ merged → s'.heap.lookup p = s.heap.lookup p) ∧
        ∃ group', s'.heap.lookup merged = some group' ∧ ∀ address, address ∈ group' ↔
          address ∈ group ∨ ∃ hit ∈ hits, ∃ old, s.heap.lookup hit = some old ∧ address ∈ old := by
  induction hits with
  | nil =>
    intro s group hgroup _
    exact ⟨s, rfl, rfl, by simp, by simp, fun _ _ _ ↦ rfl, group, hgroup, by simp⟩
  | cons hit hits ih =>
    intro s group hgroup hlive
    obtain ⟨hhit, hnodup⟩ := List.nodup_cons.mp hnodup
    rw [List.mem_cons, not_or] at hmerged
    obtain ⟨old, hold⟩ := Finmap.mem_iff.mp (hlive hit List.mem_cons_self)
    -- the other hits are as they were
    have hother : ∀ p, p ≠ hit → p ≠ merged →
        ((s.heap.insert merged (group ∪ old)).erase hit).lookup p = s.heap.lookup p := by
      intro p hp hp'
      rw [Finmap.lookup_erase_ne hp, Finmap.lookup_insert_of_ne _ hp']
    have hrest : ∀ p ∈ hits, ((s.heap.insert merged (group ∪ old)).erase hit).lookup p =
        s.heap.lookup p := by
      intro p hp
      refine hother p ?_ ?_
      · rintro rfl
        exact hhit hp
      · rintro rfl
        exact hmerged.2 hp
    obtain ⟨s', hok, hmap, hunique, hkeys, hframe, group', hgroup', hmem⟩ := ih hnodup hmerged.2
      { s with
        heap := (s.heap.insert merged (group ∪ old)).erase hit
        uniqueGroupings := s.uniqueGroupings.erase hit }
      (group ∪ old)
      (by rw [Finmap.lookup_erase_ne hmerged.1, Finmap.lookup_insert])
      (by
        intro p hp
        rw [← Finmap.lookup_isSome, hrest p hp, Finmap.lookup_isSome]
        exact hlive p (List.mem_cons_of_mem _ hp))
    refine ⟨s', ?_, hmap, ?_, ?_, ?_, group', hgroup', ?_⟩
    · rw [absorb, hgroup, hold]
      exact hok
    · rw [hunique, List.toFinset_cons, Finset.sdiff_insert, Finset.erase_sdiff_comm]
    · have hkey : merged ∈ s.heap.keys :=
        Finmap.mem_keys.mpr (Finmap.mem_of_lookup_eq_some hgroup)
      have hinsert : (s.heap.insert merged (group ∪ old)).keys = s.heap.keys := by
        ext p
        rw [Finmap.mem_keys, Finmap.mem_insert, Finmap.mem_keys]
        constructor
        · rintro (rfl | hp)
          · exact Finmap.mem_keys.mp hkey
          · exact hp
        · exact Or.inr
      rw [hkeys, Finmap.keys_erase, hinsert, List.toFinset_cons, Finset.sdiff_insert,
        Finset.erase_sdiff_comm]
    · intro p hp hp'
      rw [List.mem_cons, not_or] at hp
      rw [hframe p hp.2 hp', hother p hp.1 hp']
    · intro address
      rw [hmem, Finset.mem_union, or_assoc]
      refine or_congr_right ?_
      constructor
      · rintro (hmemOld | ⟨p, hp, old', hold', hmemOld⟩)
        · exact ⟨hit, List.mem_cons_self, old, hold, hmemOld⟩
        · rw [hrest p hp] at hold'
          exact ⟨p, List.mem_cons_of_mem _ hp, old', hold', hmemOld⟩
      · rintro ⟨p, hp, old', hold', hmemOld⟩
        rcases List.mem_cons.mp hp with rfl | hp
        · rw [hold] at hold'
          cases hold'
          exact Or.inl hmemOld
        · exact Or.inr ⟨p, hp, old', by rw [hrest p hp]; exact hold', hmemOld⟩

section

variable {groupings : Set (Set CTxDestination)} {s : GroupState}

theorem Merged.mem_hits (h : s.Merged groupings) {grouping : Finset CTxDestination} {p : ℕ} :
    p ∈ s.hits grouping ↔
      ∃ group, s.heap.lookup p = some group ∧ ∃ address ∈ grouping, address ∈ group := by
  simp only [hits, Finset.mem_biUnion, Option.mem_toFinset, Option.mem_def, h.setmap]
  constructor
  · rintro ⟨address, hmem, group, hgroup, hmem'⟩
    exact ⟨group, hgroup, address, hmem, hmem'⟩
  · rintro ⟨group, hgroup, address, hmem, hmem'⟩
    exact ⟨address, hmem, group, hgroup, hmem'⟩

/-- What a round leaves: the groups that are not hit, and one at a new address that has the new group and
the hit ones. -/
structure Round (s : GroupState) (grouping : Finset CTxDestination) (merged : ℕ)
    (group : Finset CTxDestination) (s' : GroupState) : Prop where
  new : merged ∉ s.heap
  lookup : ∀ p old, s'.heap.lookup p = some old ↔
    p = merged ∧ old = group ∨ p ∉ s.hits grouping ∧ s.heap.lookup p = some old
  coe_group : (↑group : Set CTxDestination) = Overlap.merged s.groups ↑grouping
  uniqueGroupings : s'.uniqueGroupings = insert merged (s.uniqueGroupings \ s.hits grouping)
  setmap : ∀ address, s'.setmap address = if address ∈ group then some merged else s.setmap address

theorem Merged.exists_round (h : s.Merged groupings) (A : Allocator)
    (grouping : Finset CTxDestination) : ∃ merged group s',
      s.mergeGrouping A grouping = .ok s' ∧ Round s grouping merged group s' := by
  have hnew : A.new s.heap.keys ∉ s.heap := by
    rw [← Finmap.mem_keys]
    exact A.new_notMem _
  generalize hmerged : A.new s.heap.keys = merged at hnew
  have hlive : ∀ p ∈ s.hits grouping, p ∈ s.heap ∧ p ≠ merged := by
    intro p hp
    obtain ⟨group, hgroup, -⟩ := h.mem_hits.mp hp
    have hmem := Finmap.mem_of_lookup_eq_some hgroup
    refine ⟨hmem, ?_⟩
    rintro rfl
    exact hnew hmem
  have hnotHit : merged ∉ (s.hits grouping).sort (· ≤ ·) :=
    fun hp ↦ (hlive merged ((Finset.mem_sort _).mp hp)).2 rfl
  have hlookup : ∀ p, p ≠ merged → (s.heap.insert merged grouping).lookup p = s.heap.lookup p :=
    fun p hp ↦ Finmap.lookup_insert_of_ne _ hp
  obtain ⟨s', hok, hmap, hunique, hkeys, hframe, group, hgroup, hmem⟩ :=
    absorb_eq_ok (Finset.sort_nodup (s.hits grouping) (· ≤ ·)) hnotHit
      { s with heap := s.heap.insert merged grouping } grouping (Finmap.lookup_insert _)
      (fun p hp ↦ Finmap.mem_insert.mpr (.inr (hlive p ((Finset.mem_sort _).mp hp)).1))
  simp only [Finset.mem_sort, Finset.sort_toFinset] at hunique hkeys hframe hmem
  refine ⟨merged, group, { s' with
    uniqueGroupings := insert merged s'.uniqueGroupings
    setmap := fun address ↦ if address ∈ group then some merged else s'.setmap address },
    ?_, hnew, ?_, ?_, ?_, ?_⟩
  · rw [GroupState.mergeGrouping, hmerged, hok]
    simp only [bind, Except.bind, pointTo, hgroup]
  · intro p old
    change s'.heap.lookup p = some old ↔ _
    by_cases hp : p = merged
    · subst hp
      rw [hgroup, Finmap.lookup_eq_none.mpr hnew]
      simp [eq_comm]
    · by_cases hhit : p ∈ s.hits grouping
      · have hnone : s'.heap.lookup p = none := by
          rw [Finmap.lookup_eq_none, ← Finmap.mem_keys, hkeys]
          exact fun hmem ↦ (Finset.mem_sdiff.mp hmem).2 hhit
        simp [hnone, hp, hhit]
      · rw [hframe p hhit hp, hlookup p hp]
        simp [hp, hhit]
  · ext address
    rw [Finset.mem_coe, hmem]
    refine or_congr_right ?_
    constructor
    · rintro ⟨hit, hhit, old, hold, haddress⟩
      rw [hlookup hit (hlive hit hhit).2] at hold
      obtain ⟨_, hold', other, hother, hmem'⟩ := h.mem_hits.mp hhit
      cases hold.symm.trans hold'
      exact ⟨↑old, ⟨⟨hit, old, hold, rfl⟩, other, hother, hmem'⟩, haddress⟩
    · rintro ⟨_, ⟨⟨hit, old, hold, rfl⟩, other, hother, hmem'⟩, haddress⟩
      have hhit := h.mem_hits.mpr ⟨old, hold, other, hother, hmem'⟩
      exact ⟨hit, hhit, old, by rw [hlookup hit (hlive hit hhit).2]; exact hold, haddress⟩
  · exact congrArg (insert merged) hunique
  · intro address
    rw [← hmap]

variable {grouping : Finset CTxDestination} {merged : ℕ} {group : Finset CTxDestination}
  {s' : GroupState}

theorem Round.keys (hround : Round s grouping merged group s') (h : s.Merged groupings) :
    s'.heap.keys = s'.uniqueGroupings := by
  ext p
  rw [hround.uniqueGroupings, Finset.mem_insert, Finset.mem_sdiff, ← h.keys, Finmap.mem_keys,
    Finmap.mem_keys, Finmap.mem_iff, Finmap.mem_iff]
  simp only [hround.lookup]
  constructor
  · rintro ⟨old, ⟨hp, -⟩ | ⟨hhit, hold⟩⟩
    · exact .inl hp
    · exact .inr ⟨⟨old, hold⟩, hhit⟩
  · rintro (hp | ⟨⟨old, hold⟩, hhit⟩)
    · exact ⟨group, .inl ⟨hp, rfl⟩⟩
    · exact ⟨old, .inr ⟨hhit, hold⟩⟩

/-- What is not hit has no address of the new group. -/
theorem Round.notMem (hround : Round s grouping merged group s') (h : s.Merged groupings) {p : ℕ}
    {old : Finset CTxDestination} (hold : s.heap.lookup p = some old) (hhit : p ∉ s.hits grouping)
    {address : CTxDestination} (haddress : address ∈ old) : address ∉ group := by
  intro hmem
  rw [← Finset.mem_coe, hround.coe_group] at hmem
  rcases hmem with hmem | ⟨_, ⟨⟨q, other, hother, rfl⟩, address', hmem', haddress'⟩, hmem⟩
  · exact hhit (h.mem_hits.mpr ⟨old, hold, address, hmem, haddress⟩)
  · -- an address is in one group only
    have hp := (h.setmap address p).mpr ⟨old, hold, haddress⟩
    have hq := (h.setmap address q).mpr ⟨other, hother, hmem⟩
    cases hp.symm.trans hq
    exact hhit (h.mem_hits.mpr ⟨other, hother, address', hmem', haddress'⟩)

theorem Round.setmap_eq (hround : Round s grouping merged group s') (h : s.Merged groupings)
    (address : CTxDestination) (p : ℕ) :
    s'.setmap address = some p ↔ ∃ old, s'.heap.lookup p = some old ∧ address ∈ old := by
  simp only [hround.setmap, hround.lookup]
  split_ifs with haddress
  · constructor
    · rintro ⟨⟩
      exact ⟨group, .inl ⟨rfl, rfl⟩, haddress⟩
    · rintro ⟨old, ⟨rfl, rfl⟩ | ⟨hhit, hold⟩, hmem⟩
      · rfl
      · exact absurd haddress (hround.notMem h hold hhit hmem)
  · rw [h.setmap]
    constructor
    · rintro ⟨old, hold, hmem⟩
      refine ⟨old, .inr ⟨?_, hold⟩, hmem⟩
      intro hhit
      obtain ⟨_, hold', other, hother, hmem'⟩ := h.mem_hits.mp hhit
      cases hold.symm.trans hold'
      refine haddress ?_
      rw [← Finset.mem_coe, hround.coe_group]
      exact .inr ⟨↑old, ⟨⟨p, old, hold, rfl⟩, other, hother, hmem'⟩, hmem⟩
    · rintro ⟨old, ⟨rfl, rfl⟩ | ⟨-, hold⟩, hmem⟩
      · exact absurd hmem haddress
      · exact ⟨old, hold, hmem⟩

theorem Round.groups (hround : Round s grouping merged group s') (h : s.Merged groupings) :
    s'.groups = insert (Overlap.merged s.groups ↑grouping)
      (s.groups \ Overlap.hits s.groups ↑grouping) := by
  ext t
  simp only [GroupState.groups, Set.mem_ofPred_eq, hround.lookup, Set.mem_insert_iff, Set.mem_sdiff]
  constructor
  · rintro ⟨p, old, ⟨rfl, rfl⟩ | ⟨hhit, hold⟩, rfl⟩
    · exact .inl hround.coe_group
    · refine .inr ⟨⟨p, old, hold, rfl⟩, ?_⟩
      rintro ⟨-, address, hmem, haddress⟩
      exact hhit (h.mem_hits.mpr ⟨old, hold, address, hmem, haddress⟩)
  · rintro (rfl | ⟨⟨p, old, hold, rfl⟩, hnot⟩)
    · exact ⟨merged, group, .inl ⟨rfl, rfl⟩, hround.coe_group.symm⟩
    · refine ⟨p, old, .inr ⟨?_, hold⟩, rfl⟩
      intro hhit
      obtain ⟨_, hold', address, hmem, haddress⟩ := h.mem_hits.mp hhit
      cases hold.symm.trans hold'
      exact hnot ⟨⟨p, old, hold, rfl⟩, address, hmem, haddress⟩

/-- A round adds its group to the family, and uses no deleted set. -/
theorem Merged.mergeGrouping (h : s.Merged groupings) (A : Allocator)
    (grouping : Finset CTxDestination) :
    ∃ s', s.mergeGrouping A grouping = .ok s' ∧ s'.Merged (insert ↑grouping groupings) := by
  obtain ⟨merged, group, s', hok, hround⟩ := h.exists_round A grouping
  refine ⟨s', hok, hround.keys h, hround.setmap_eq h, ?_⟩
  rw [hround.groups h]
  exact h.components.insert _

/-- The loop over all groups. -/
theorem Merged.foldlM (A : Allocator) (l : List (Finset CTxDestination)) :
    ∀ {groupings : Set (Set CTxDestination)} {s : GroupState}, s.Merged groupings →
      ∃ s', l.foldlM (GroupState.mergeGrouping A) s = .ok s' ∧
        s'.Merged (family l ∪ groupings) := by
  induction l with
  | nil =>
    intro groupings s h
    refine ⟨s, rfl, ?_⟩
    rw [family_nil, Set.empty_union]
    exact h
  | cons grouping l ih =>
    intro groupings s h
    obtain ⟨s₁, hok, h₁⟩ := h.mergeGrouping A grouping
    obtain ⟨s', hoks, h'⟩ := ih h₁
    refine ⟨s', ?_, ?_⟩
    · rw [List.foldlM_cons, hok]
      exact hoks
    · rw [family_cons, Set.insert_union, ← Set.union_insert]
      exact h'

end

/-- Each of the groups that live is returned. -/
theorem release_eq_ok {ps : List ℕ} (hnodup : ps.Nodup) :
    ∀ {s : GroupState}, (∀ p ∈ ps, p ∈ s.heap) →
      ∃ ret, s.release ps = .ok ret ∧
        ∀ group, group ∈ ret ↔ ∃ p ∈ ps, s.heap.lookup p = some group := by
  induction ps with
  | nil =>
    intro s _
    exact ⟨∅, rfl, by simp⟩
  | cons p ps ih =>
    intro s hlive
    obtain ⟨hp, hnodup⟩ := List.nodup_cons.mp hnodup
    obtain ⟨group, hgroup⟩ := Finmap.mem_iff.mp (hlive p List.mem_cons_self)
    have hother : ∀ q ∈ ps, (s.heap.erase p).lookup q = s.heap.lookup q := by
      intro q hq
      refine Finmap.lookup_erase_ne ?_
      rintro rfl
      exact hp hq
    obtain ⟨ret, hok, hmem⟩ := ih hnodup (s := { s with heap := s.heap.erase p }) (by
      intro q hq
      rw [← Finmap.lookup_isSome, hother q hq, Finmap.lookup_isSome]
      exact hlive q (List.mem_cons_of_mem _ hq))
    refine ⟨insert group ret, ?_, ?_⟩
    · rw [release, hgroup]
      dsimp only
      rw [hok]
      rfl
    · intro group'
      rw [Finset.mem_insert, hmem]
      constructor
      · rintro (rfl | ⟨q, hq, hgroup'⟩)
        · exact ⟨p, List.mem_cons_self, hgroup⟩
        · exact ⟨q, List.mem_cons_of_mem _ hq, by rw [← hother q hq]; exact hgroup'⟩
      · rintro ⟨q, hq, hgroup'⟩
        rcases List.mem_cons.mp hq with rfl | hq
        · exact .inl (Option.some.inj (hgroup'.symm.trans hgroup))
        · exact .inr ⟨q, hq, by rw [hother q hq]; exact hgroup'⟩

end GroupState

/-! ## The partition -/

/-- A chain of groups that overlap leads from one address to the other. -/
abbrev Linked (groupings : List (Finset CTxDestination)) : CTxDestination → CTxDestination → Prop :=
  Overlap.Linked (family groupings)

/-- The loop ends without use of a deleted set, and returns the components of the groups. -/
theorem mergeGroupings_components (A : Allocator) (groupings : List (Finset CTxDestination)) :
    ∃ ret, mergeGroupings A groupings = .ok ret ∧
      Overlap.Components (family groupings) (family ret.toList) := by
  obtain ⟨s, hok, h⟩ := GroupState.merged_init.foldlM A groupings
  rw [Set.union_empty] at h
  obtain ⟨ret, hret, hmem⟩ := GroupState.release_eq_ok (s := s)
    (Finset.sort_nodup s.uniqueGroupings (· ≤ ·))
    (by
      intro p hp
      rw [Finset.mem_sort, ← h.keys] at hp
      exact Finmap.mem_keys.mp hp)
  have hgroups : family ret.toList = s.groups := by
    ext t
    simp only [family, GroupState.groups, Finset.mem_toList, hmem, Finset.mem_sort,
      Set.mem_ofPred_eq]
    constructor
    · rintro ⟨group, ⟨p, -, hp⟩, rfl⟩
      exact ⟨p, group, hp, rfl⟩
    · rintro ⟨p, group, hp, rfl⟩
      refine ⟨group, ⟨p, ?_, hp⟩, rfl⟩
      rw [← h.keys, Finmap.mem_keys]
      exact Finmap.mem_of_lookup_eq_some hp
  refine ⟨ret, ?_, ?_⟩
  · rw [mergeGroupings, hok]
    exact hret
  · rw [hgroups]
    exact h.components

theorem mem_family {groupings : List (Finset CTxDestination)} {grouping : Finset CTxDestination}
    (h : grouping ∈ groupings) : ↑grouping ∈ family groupings := ⟨grouping, h, rfl⟩

theorem exists_mem_family {groupings : List (Finset CTxDestination)} {address : CTxDestination} :
    (∃ t ∈ family groupings, address ∈ t) ↔ ∃ grouping ∈ groupings, address ∈ grouping := by
  constructor
  · rintro ⟨_, ⟨grouping, hmem, rfl⟩, haddress⟩
    exact ⟨grouping, hmem, haddress⟩
  · rintro ⟨grouping, hmem, haddress⟩
    exact ⟨↑grouping, mem_family hmem, haddress⟩

/-- The loop returns a partition of the addresses into those that are linked. -/
theorem mergeGroupings_partition (A : Allocator) (groupings : List (Finset CTxDestination)) :
    ∃ ret, mergeGroupings A groupings = .ok ret ∧
      (∀ s ∈ ret, ∀ t ∈ ret, s ≠ t → Disjoint s t) ∧
      (∀ address, (∃ s ∈ ret, address ∈ s) ↔ ∃ grouping ∈ groupings, address ∈ grouping) ∧
      ∀ a b, (∃ s ∈ ret, a ∈ s ∧ b ∈ s) ↔
        (∃ grouping ∈ groupings, a ∈ grouping) ∧ Linked groupings a b := by
  obtain ⟨ret, hok, h⟩ := mergeGroupings_components A groupings
  have hmem : ∀ s ∈ ret, (↑s : Set CTxDestination) ∈ family ret.toList := fun s hs ↦
    mem_family (Finset.mem_toList.mpr hs)
  have hcover : ∀ address, (∃ s ∈ ret, address ∈ s) ↔
      ∃ grouping ∈ groupings, address ∈ grouping := by
    intro address
    have hcomponents := h.cover address
    rw [exists_mem_family, exists_mem_family] at hcomponents
    simpa only [Finset.mem_toList] using hcomponents
  refine ⟨ret, hok, ?_, hcover, ?_⟩
  · intro s hs t ht hne
    rw [Finset.disjoint_left]
    intro address has hat
    exact hne (Finset.coe_inj.mp (h.disjoint _ (hmem s hs) _ (hmem t ht) address has hat))
  · intro a b
    constructor
    · rintro ⟨s, hs, ha, hb⟩
      exact ⟨(hcover a).mp ⟨s, hs, ha⟩, (h.mem_iff (hmem s hs) ha).mp hb⟩
    · rintro ⟨ha, hlinked⟩
      obtain ⟨s, hs, has⟩ := (hcover a).mpr ha
      exact ⟨s, hs, has, (h.mem_iff (hmem s hs) has).mpr hlinked⟩

/-! ## What the collecting loop looks up -/

namespace WalletView

variable {v : WalletView}

theorem walletAt_of_some {hash : UInt256} {s : Wallet} {wtx : CWalletTx}
    (h : s.mapWallet hash = some wtx) : v.walletAt hash s = .ok wtx s := by
  have hput : s.put hash wtx = s := by
    rw [Wallet.put, ← h, Function.update_eq_self]
  rw [walletAt, h]
  simp only [Option.getD_some, hput]

/-- An entry that the access adds has no output. -/
theorem outputAt_eq_ok {prevout : COutPoint} {txout : CTxOut} {s' : Wallet} :
    v.outputAt prevout v.wallet = .ok txout s' ↔ s' = v.wallet ∧
      ∃ prev, v.wallet.mapWallet prevout.hash = some prev ∧ prev.vout[prevout.n]? = some txout := by
  rw [outputAt, Exec.bind_eq_ok]
  cases hprev : v.wallet.mapWallet prevout.hash with
  | none =>
    simp only [walletAt, hprev, Option.getD_none]
    constructor
    · rintro ⟨wtx, s, ⟨⟩, h⟩
      cases h
    · rintro ⟨-, prev, ⟨⟩, -⟩
  | some prev =>
    rw [walletAt_of_some hprev]
    constructor
    · rintro ⟨_, _, ⟨⟩, h⟩
      cases hout : prev.vout[prevout.n]? with
      | none =>
        rw [hout] at h
        cases h
      | some txout' =>
        rw [hout] at h
        cases h
        exact ⟨rfl, prev, rfl, hout⟩
    · rintro ⟨rfl, _, ⟨⟩, hout⟩
      refine ⟨prev, v.wallet, rfl, ?_⟩
      rw [hout]
      rfl

theorem inputGrouping_ok {vin : List CTxIn} (h : ∀ txin ∈ vin, v.Holds txin.prevout) :
    ∀ grouping, ∃ grouping', v.inputGrouping vin grouping v.wallet = .ok grouping' v.wallet := by
  induction vin with
  | nil => exact fun grouping ↦ ⟨grouping, rfl⟩
  | cons txin vin ih =>
    intro grouping
    rw [List.forall_mem_cons] at h
    obtain ⟨⟨prev, txout, hprev, hout⟩, hvin⟩ := h
    obtain ⟨grouping', hok⟩ := ih hvin (v.withAddress txout grouping)
    refine ⟨grouping', ?_⟩
    rw [inputGrouping, Exec.bind_of_ok (outputAt_eq_ok.mpr ⟨rfl, prev, hprev, hout⟩)]
    exact hok

theorem holds_of_inputGrouping {vin : List CTxIn} :
    ∀ {grouping grouping' : Finset CTxDestination} {s' : Wallet},
      v.inputGrouping vin grouping v.wallet = .ok grouping' s' →
        ∀ txin ∈ vin, v.Holds txin.prevout := by
  induction vin with
  | nil =>
    intro grouping grouping' s' _ txin hmem
    cases hmem
  | cons txin vin ih =>
    intro grouping grouping' s' h
    rw [inputGrouping, Exec.bind_eq_ok] at h
    obtain ⟨txout, s₁, hout, h⟩ := h
    obtain ⟨rfl, prev, hprev, hout⟩ := outputAt_eq_ok.mp hout
    exact List.forall_mem_cons.mpr ⟨⟨prev, txout, hprev, hout⟩, ih h⟩

theorem changeGrouping_ok {prevout : COutPoint} {prev : CWalletTx}
    (h : v.wallet.mapWallet prevout.hash = some prev) (vout : List CTxOut) :
    ∀ grouping, ∃ grouping',
      v.changeGrouping prevout vout grouping v.wallet = .ok grouping' v.wallet := by
  induction vout with
  | nil => exact fun grouping ↦ ⟨grouping, rfl⟩
  | cons txout vout ih =>
    intro grouping
    rw [changeGrouping]
    split
    · rw [Exec.bind_of_ok (walletAt_of_some h)]
      exact ih _
    · exact ih _

theorem holds_of_mineOutput {prevout : COutPoint} (h : (v.mineOutput prevout).isSome) :
    v.Holds prevout := by
  obtain ⟨txout, hmine⟩ := Option.isSome_iff_exists.mp h
  obtain ⟨prev, hprev, hout, -⟩ := mineOutput_eq_some.mp hmine
  exact ⟨prev, txout, hprev, hout⟩

theorem spendGroupings_ok {wtx : CWalletTx} (h : v.HeldIfMine wtx) :
    ∃ groupings, v.spendGroupings wtx v.wallet = .ok groupings v.wallet := by
  unfold spendGroupings
  cases hvin : wtx.vin with
  | nil => exact ⟨[], rfl⟩
  | cons txin vin =>
    by_cases hmine : (v.mineOutput txin.prevout).isSome
    · obtain ⟨prev, txout, hprev, hout⟩ := holds_of_mineOutput hmine
      obtain ⟨grouping, hinputs⟩ := inputGrouping_ok
        (List.forall_mem_cons.mpr ⟨⟨prev, txout, hprev, hout⟩, h txin vin hvin hmine⟩) ∅
      obtain ⟨grouping', hchange⟩ := changeGrouping_ok hprev wtx.vout grouping
      refine ⟨[grouping'], ?_⟩
      refine (if_pos hmine).trans ?_
      rw [spendGrouping, Exec.bind_of_ok hinputs, Exec.bind_of_ok hchange]
      rfl
    · exact ⟨[], if_neg hmine⟩

theorem held_of_spendGroupings {wtx : CWalletTx} {groupings : List (Finset CTxDestination)}
    {s' : Wallet} (h : v.spendGroupings wtx v.wallet = .ok groupings s') : v.HeldIfMine wtx := by
  intro txin vin hvin hmine
  unfold spendGroupings at h
  rw [hvin] at h
  replace h := (if_pos hmine).symm.trans h
  rw [spendGrouping, Exec.bind_eq_ok] at h
  obtain ⟨grouping, s₁, hinputs, -⟩ := h
  exact (List.forall_mem_cons.mp (holds_of_inputGrouping hinputs)).2

theorem collectFrom_ok {entries : List (UInt256 × CWalletTx)}
    (h : ∀ e ∈ entries, v.HeldIfMine e.2) :
    ∃ groupings, v.collectFrom entries v.wallet = .ok groupings v.wallet := by
  induction entries with
  | nil => exact ⟨[], rfl⟩
  | cons e entries ih =>
    rw [List.forall_mem_cons] at h
    obtain ⟨spend, hspend⟩ := spendGroupings_ok h.1
    obtain ⟨groupings, hrest⟩ := ih h.2
    refine ⟨spend ++ v.loneGroupings e.2 ++ groupings, ?_⟩
    rw [collectFrom, Exec.bind_of_ok hspend, Exec.bind_of_ok hrest]
    rfl

theorem held_of_collectFrom {entries : List (UInt256 × CWalletTx)} :
    ∀ {groupings : List (Finset CTxDestination)} {s' : Wallet},
      v.collectFrom entries v.wallet = .ok groupings s' → ∀ e ∈ entries, v.HeldIfMine e.2 := by
  induction entries with
  | nil =>
    intro groupings s' _ e he
    cases he
  | cons e entries ih =>
    intro groupings s' h
    rw [collectFrom, Exec.bind_eq_ok] at h
    obtain ⟨spend, s₁, hspend, h⟩ := h
    have hheld := held_of_spendGroupings hspend
    -- the run over the entry has left the wallet as it was
    obtain ⟨spend', hspend'⟩ := spendGroupings_ok hheld
    rw [hspend'] at hspend
    cases hspend
    obtain ⟨rest, s₂, hrest, -⟩ := Exec.bind_eq_ok.mp h
    exact List.forall_mem_cons.mpr ⟨hheld, ih hrest⟩

/-- The loop accesses outputs that exist only, and adds nothing to the wallet. -/
def CollectsInside (v : WalletView) : Prop :=
  ∃ groupings, v.collectGroupings v.wallet = .ok groupings v.wallet

theorem collectGroupings_ok_iff : v.CollectsInside ↔ v.SpendsHeld := by
  constructor
  · rintro ⟨_, h⟩
    exact held_of_collectFrom h
  · exact collectFrom_ok

/-- Both halves of `GetAddressGroupings`. -/
def getAddressGroupings (v : WalletView) (A : Allocator) :
    WalletM (Finset (Finset CTxDestination)) := fun s ↦
  match v.collectGroupings s with
  | .error e s => .error e s
  | .ok groupings s =>
    match mergeGroupings A groupings with
    | .error e => .error e s
    | .ok ret => .ok ret s

end WalletView

namespace Sample

/-- A transaction that spends an output of the wallet and one that the wallet does not know. -/
def joint : CTransaction where
  nVersion := 1
  nTime := 240
  vin := [⟨⟨params.getHash stakeFunds, 0⟩, [], uintMax⟩, ⟨⟨9, 0⟩, [], uintMax⟩]
  vout := [⟨100 * COIN, ownPubKey⟩]
  nLockTime := 0

/-- A wallet with a transaction of two owners. -/
def sharing : WalletView :=
  { staking true with
    wallet := ⟨fun hash ↦ if hash = 1 then some receivedEntry
      else if hash = 240001 then some joint.toWalletTx else none⟩
    mem_hashes := by
      intro hash
      by_cases h₁ : hash = 1
      · simp [h₁, staking]
      · by_cases h₂ : hash = 240001 <;> simp [h₁, h₂, staking] }

/-- The input of another owner is looked up, which leaves an empty transaction in the wallet. -/
theorem not_collectsInside_sharing : sharing.wallet.mapWallet 9 = none ∧
    ((Exec.final (sharing.collectGroupings sharing.wallet)).mapWallet 9).isSome ∧
      ¬ sharing.CollectsInside := by
  have herror : Exec.error? (sharing.collectGroupings sharing.wallet) =
      some (.thrown "vout[prevout.n] does not exist") := by decide +kernel
  refine ⟨by decide +kernel, by decide +kernel, ?_⟩
  rintro ⟨groupings, h⟩
  rw [h] at herror
  cases herror

end Sample

end Bws
