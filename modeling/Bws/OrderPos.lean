import Bws.Core

/-!
# The order of the wallet's entries

`CWalletDB::ReorderTransactions` gives the transactions and accounting entries of an old wallet that
have no order position (-1) a new one, by time, and shifts the positions of later ones by the number
of new positions below them.  The new positions count the shifts already made, the old ones do not,
so that a shifted position can meet a new one; and of the accounting entries only those of the
account with the empty name are listed.  All goes well if the new positions are counted as if they
were not shifted (`CountsAll`), and the others leave room (`HasRoom`); where the old positions have no
gaps, only then (`wellOrdered_iff`).
-/

namespace Bws

/-! ## The source -/

/-- What an order position belongs to. -/
inductive TxPair where
  | wtx (hash : UInt256)
  | acentry (strAccount : List UInt8) (nEntryNo : ℕ)
deriving DecidableEq

/-- `nTime` is the `nTimeReceived` of a transaction. -/
structure OrderItem where
  pair : TxPair
  nTime : ℤ
  nOrderPos : ℤ
  nOrderPos_inInt64 : InInt64 nOrderPos
deriving DecidableEq

/-- The transactions in the order of their hashes, and the accounting entries in the order of the
database. -/
structure OrderWallet where
  mapWallet : List OrderItem
  acentries : List OrderItem

/-- The account of an accounting entry -/
def TxPair.account : TxPair → List UInt8
  | .wtx _ => []
  | .acentry strAccount _ => strAccount

/-- `ListAccountCreditDebit`, for an account that is not `"*"` -/
def OrderWallet.listAccountCreditDebit (w : OrderWallet) (strAccount : List UInt8) :
    List OrderItem :=
  w.acentries.filter fun entry ↦ entry.pair.account = strAccount

/-- The entries by time; of those with one time the first that is inserted is the first. -/
def OrderWallet.txByTime (w : OrderWallet) : List OrderItem :=
  (w.mapWallet ++ w.listAccountCreditDebit []).insertionSort fun a b ↦ a.nTime ≤ b.nTime

/-- `nOrderPosOff` -/
def nOrderPosOff (nOrderPosOffsets : List ℤ) (nOrderPos : ℤ) : ℤ :=
  nOrderPosOffsets.countP fun nOffsetStart ↦ nOffsetStart ≤ nOrderPos

/-- The loop of `ReorderTransactions`: each entry with the position that it has afterwards, and
`nOrderPosNext`.  `write` is whether an entry could be written back with its position; if not, the
function returns `DB_LOAD_FAIL`. -/
def reorderLoop (write : TxPair → ℤ → Bool) :
    ℤ → List ℤ → List OrderItem → Option (List (OrderItem × ℤ) × ℤ)
  | nOrderPosNext, _, [] => some ([], nOrderPosNext)
  | nOrderPosNext, nOrderPosOffsets, item :: items =>
    if item.nOrderPos = -1 then
      if write item.pair nOrderPosNext then
        (reorderLoop write (int64 (nOrderPosNext + 1)) (nOrderPosOffsets ++ [nOrderPosNext])
          items).map fun r ↦ ((item, nOrderPosNext) :: r.1, r.2)
      else none
    else
      let nOff := nOrderPosOff nOrderPosOffsets item.nOrderPos
      let nOrderPos := int64 (item.nOrderPos + nOff)
      -- what has not changed is not written back
      if nOff = 0 ∨ write item.pair nOrderPos then
        (reorderLoop write (max nOrderPosNext (int64 (nOrderPos + 1))) nOrderPosOffsets items).map
          fun r ↦ ((item, nOrderPos) :: r.1, r.2)
      else none

/-- The accounting entries that are not listed. -/
def OrderWallet.unlisted (w : OrderWallet) : List OrderItem :=
  w.acentries.filter fun entry ↦ entry.pair.account ≠ []

/-- `ReorderTransactions`: all entries of the wallet with their positions afterwards, and
`nOrderPosNext`. -/
def OrderWallet.reorderTransactions (write : TxPair → ℤ → Bool) (w : OrderWallet) :
    Option (List (OrderItem × ℤ) × ℤ) :=
  (reorderLoop write 0 [] w.txByTime).map fun r ↦
    (r.1 ++ w.unlisted.map fun item ↦ (item, item.nOrderPos), r.2)

/-! ## What it is for -/

/-- All positions are distinct and below the next one, and who had a position has kept its rank. -/
structure WellOrdered (rows : List (OrderItem × ℤ)) (nOrderPosNext : ℤ) : Prop where
  nodup : (rows.map Prod.snd).Nodup
  range : ∀ r ∈ rows, 0 ≤ r.2 ∧ r.2 < nOrderPosNext
  mono : ∀ r ∈ rows, ∀ r' ∈ rows, r.1.nOrderPos ≠ -1 → r'.1.nOrderPos ≠ -1 →
    r.1.nOrderPos < r'.1.nOrderPos → r.2 < r'.2

/-- The positions of the wallet, as far as there are any, are distinct. -/
def OrderWallet.Distinct (w : OrderWallet) : Prop :=
  (((w.mapWallet ++ w.acentries).map OrderItem.nOrderPos).filter (· ≠ -1)).Nodup

/-! ## Where the entries belong -/

/-- What holds of each entry, and of those before it. -/
def Throughout (P : List OrderItem → OrderItem → Prop) :
    List OrderItem → List OrderItem → Prop
  | _, [] => True
  | before, item :: items => P before item ∧ Throughout P (before ++ [item]) items

instance decidableThroughout {P : List OrderItem → OrderItem → Prop}
    [∀ before item, Decidable (P before item)] :
    ∀ before items, Decidable (Throughout P before items)
  | _, [] => inferInstanceAs (Decidable True)
  | before, item :: items =>
    have := decidableThroughout (P := P) (before ++ [item]) items
    inferInstanceAs (Decidable (_ ∧ _))

/-- The entries without a position. -/
def countNew (items : List OrderItem) : ℕ := items.countP fun item ↦ item.nOrderPos = -1

/-- The old position behind all that entries have. -/
def firstFree : List OrderItem → ℤ
  | [] => 0
  | item :: items => max (item.nOrderPos + 1) (firstFree items)

/-- Where an entry without a position belongs that comes after some entries. -/
def slot (before : List OrderItem) : ℤ := firstFree before + countNew before

/-- How many entries without a position belong at or below an old position: those that come before
any entry with this position or a greater one. -/
def shift (before : List OrderItem) (p : ℤ) : ℕ :=
  countNew (before.takeWhile fun item ↦ item.nOrderPos < p)

/-- What belongs at or below an old position is not itself shifted beyond it. -/
def CountsNew (before : List OrderItem) (p : ℤ) : Prop :=
  Throughout (fun b item ↦ item.nOrderPos = -1 → firstFree b ≤ p → slot b ≤ p) [] before

/-- So it is for each entry that has a position. -/
def CountsAll (before items : List OrderItem) : Prop :=
  Throughout (fun b item ↦ item.nOrderPos ≠ -1 → CountsNew b item.nOrderPos) before items

/-- Nothing is in the way: no entry has a negative position, none is put where an entry is that is not
listed, or moved past one, and all fits below `2 ^ 63`. -/
structure HasRoom (others : List ℤ) (before items : List OrderItem) : Prop where
  nonneg : ∀ item ∈ items, item.nOrderPos ≠ -1 → 0 ≤ item.nOrderPos
  new : Throughout (fun b item ↦ item.nOrderPos = -1 → slot b ∉ others) before items
  old : Throughout (fun b item ↦ item.nOrderPos ≠ -1 → ∀ q ∈ others, item.nOrderPos < q →
    item.nOrderPos + shift b item.nOrderPos < q) before items
  others : ∀ q ∈ others, 0 ≤ q ∧ q < slot (before ++ items)
  int64 : slot (before ++ items) < 2 ^ 63

instance (before : List OrderItem) (p : ℤ) : Decidable (CountsNew before p) :=
  inferInstanceAs (Decidable (Throughout _ _ _))

instance (before items : List OrderItem) : Decidable (CountsAll before items) :=
  inferInstanceAs (Decidable (Throughout _ _ _))

/-- The old positions have no gaps. -/
def Gapless (items : List OrderItem) : Prop :=
  ∀ item ∈ items, ∀ q, 0 ≤ q → q < item.nOrderPos → ∃ item' ∈ items, item'.nOrderPos = q

/-! ## The loop -/

/-- Nothing goes wrong in the rest of the loop: a position that is shifted meets no new one and passes
none of an entry that is not listed, a new one meets none of these either, in the end all of these lie
below the next position, and nothing exceeds an `int64_t`. -/
def ClearOrder (others : List ℤ) : ℤ → List ℤ → List OrderItem → Prop
  | nOrderPosNext, _, [] => ∀ q ∈ others, 0 ≤ q ∧ q < nOrderPosNext
  | nOrderPosNext, nOrderPosOffsets, item :: items =>
    if item.nOrderPos = -1 then
      nOrderPosNext + 1 < 2 ^ 63 ∧ nOrderPosNext ∉ others ∧
        ClearOrder others (nOrderPosNext + 1) (nOrderPosOffsets ++ [nOrderPosNext]) items
    else
      let nOrderPos := item.nOrderPos + nOrderPosOff nOrderPosOffsets item.nOrderPos
      0 ≤ item.nOrderPos ∧ nOrderPos + 1 < 2 ^ 63 ∧ nOrderPos ∉ nOrderPosOffsets ∧
        (∀ q ∈ others, item.nOrderPos < q → nOrderPos < q) ∧
        ClearOrder others (max nOrderPosNext (nOrderPos + 1)) nOrderPosOffsets items

section

variable {write : TxPair → ℤ → Bool} {next next' : ℤ} {offs others : List ℤ}
  {items : List OrderItem} {rows : List (OrderItem × ℤ)}

theorem nOrderPosOff_append (offs offs' : List ℤ) (p : ℤ) :
    nOrderPosOff (offs ++ offs') p = nOrderPosOff offs p + nOrderPosOff offs' p := by
  rw [nOrderPosOff, List.countP_append, Nat.cast_add]
  rfl

theorem nOrderPosOff_nonneg (offs : List ℤ) (p : ℤ) : 0 ≤ nOrderPosOff offs p :=
  Int.natCast_nonneg _

theorem nOrderPosOff_le_length (offs : List ℤ) (p : ℤ) : nOrderPosOff offs p ≤ offs.length :=
  Int.ofNat_le.2 List.countP_le_length

/-- New positions above an old one do not shift it. -/
theorem nOrderPosOff_eq_zero {p : ℤ} (h : ∀ o ∈ offs, p < o) : nOrderPosOff offs p = 0 := by
  rw [nOrderPosOff, List.countP_eq_zero.2 fun o ho ↦ ?_, Nat.cast_zero]
  simpa using h o ho

theorem nOrderPosOff_mono {p q : ℤ} (h : p ≤ q) (offs : List ℤ) :
    nOrderPosOff offs p ≤ nOrderPosOff offs q := by
  refine Int.ofNat_le.2 (List.countP_mono_left fun o _ ho ↦ ?_)
  exact decide_eq_true ((of_decide_eq_true ho).trans h)

/-- A round for an entry without a position. -/
theorem reorderLoop_new {item : OrderItem} (hnew : item.nOrderPos = -1) :
    reorderLoop write next offs (item :: items) = some (rows, next') ↔
      write item.pair next = true ∧ ∃ rows₁, rows = (item, next) :: rows₁ ∧
        reorderLoop write (int64 (next + 1)) (offs ++ [next]) items = some (rows₁, next') := by
  rw [reorderLoop, if_pos hnew]
  split_ifs with hwrite
  · rw [Option.map_eq_some_iff]
    constructor
    · rintro ⟨r, hr, hpair⟩
      obtain ⟨rfl, rfl⟩ := Prod.mk.inj hpair
      exact ⟨hwrite, r.1, rfl, hr⟩
    · rintro ⟨-, rows₁, rfl, hr⟩
      exact ⟨_, hr, rfl⟩
  · exact iff_of_false (fun h ↦ by cases h) fun h ↦ hwrite h.1

/-- A round for an entry that has one. -/
theorem reorderLoop_old {item : OrderItem} (hold : item.nOrderPos ≠ -1)
    (h : reorderLoop write next offs (item :: items) = some (rows, next')) : ∃ rows₁,
      rows = (item, int64 (item.nOrderPos + nOrderPosOff offs item.nOrderPos)) :: rows₁ ∧
        reorderLoop write
          (max next (int64 (int64 (item.nOrderPos + nOrderPosOff offs item.nOrderPos) + 1))) offs
          items = some (rows₁, next') := by
  rw [reorderLoop, if_neg hold] at h
  dsimp only at h
  split_ifs at h with hwrite
  obtain ⟨r, hr, hpair⟩ := Option.map_eq_some_iff.1 h
  obtain ⟨rfl, rfl⟩ := Prod.mk.inj hpair
  exact ⟨r.1, rfl, hr⟩

theorem map_fst_of_reorderLoop : ∀ {next : ℤ} {offs : List ℤ} {rows : List (OrderItem × ℤ)},
    reorderLoop write next offs items = some (rows, next') → rows.map Prod.fst = items := by
  induction items with
  | nil =>
    intro next offs rows h
    obtain ⟨rfl, -⟩ := Prod.mk.inj (Option.some.inj h)
    rfl
  | cons item items ih =>
    intro next offs rows h
    by_cases hnew : item.nOrderPos = -1
    · obtain ⟨-, rows₁, rfl, h₁⟩ := (reorderLoop_new hnew).1 h
      rw [List.map_cons, ih h₁]
    · obtain ⟨rows₁, rfl, h₁⟩ := reorderLoop_old hnew h
      rw [List.map_cons, ih h₁]

/-- Two entries, the first of which comes first, in their new positions. -/
structure Apart (r r' : OrderItem × ℤ) : Prop where
  new : r'.1.nOrderPos = -1 → r.2 < r'.2
  meet : r.1.nOrderPos = -1 → r'.2 ≠ r.2
  up : r.1.nOrderPos ≠ -1 → r'.1.nOrderPos ≠ -1 → r.1.nOrderPos < r'.1.nOrderPos → r.2 < r'.2
  down : r.1.nOrderPos ≠ -1 → r'.1.nOrderPos ≠ -1 → r'.1.nOrderPos < r.1.nOrderPos → r'.2 < r.2

/-- What the rest of the loop makes of the entries, where nothing goes wrong. -/
structure PlacedRows (others offs : List ℤ) (next next' : ℤ) (rows : List (OrderItem × ℤ)) :
    Prop where
  next_le : next ≤ next'
  range : ∀ r ∈ rows, 0 ≤ r.2 ∧ r.2 < next'
  new : ∀ r ∈ rows, r.1.nOrderPos = -1 → next ≤ r.2 ∧ r.2 ∉ others
  /-- old positions are shifted by the new ones from before and by later ones -/
  old : ∀ r ∈ rows, r.1.nOrderPos ≠ -1 → r.2 ∉ offs ∧
    (∀ q ∈ others, r.1.nOrderPos < q → r.2 < q) ∧
    ∃ later : List ℤ, (∀ o ∈ later, next ≤ o) ∧
      r.2 = r.1.nOrderPos + nOrderPosOff (offs ++ later) r.1.nOrderPos
  apart : rows.Pairwise Apart
  others : ∀ q ∈ others, 0 ≤ q ∧ q < next'

theorem PlacedRows.new_cons {item : OrderItem} (hnew : item.nOrderPos = -1) (hnext : 0 ≤ next)
    (hother : next ∉ others) (h : PlacedRows others (offs ++ [next]) (next + 1) next' rows) :
    PlacedRows others offs next next' ((item, next) :: rows) := by
  have hle := h.next_le
  refine ⟨by omega, ?_, ?_, ?_, ?_, h.others⟩
  · exact List.forall_mem_cons.2 ⟨⟨hnext, by omega⟩, h.range⟩
  · refine List.forall_mem_cons.2 ⟨fun _ ↦ ⟨le_rfl, hother⟩, fun r hr hrnew ↦ ?_⟩
    have := (h.new r hr hrnew).1
    exact ⟨by omega, (h.new r hr hrnew).2⟩
  · refine List.forall_mem_cons.2 ⟨fun hold ↦ absurd hnew hold, fun r hr hrold ↦ ?_⟩
    obtain ⟨hmeet, hpass, later, hlater, heq⟩ := h.old r hr hrold
    refine ⟨fun hmem ↦ hmeet (List.mem_append_left _ hmem), hpass, next :: later, ?_, ?_⟩
    · refine List.forall_mem_cons.2 ⟨le_rfl, fun o ho ↦ ?_⟩
      have := hlater o ho
      omega
    · rw [heq, List.append_assoc, List.singleton_append]
  · refine List.pairwise_cons.2 ⟨fun r hr ↦ ⟨fun hrnew ↦ ?_, fun _ ↦ ?_, ?_, ?_⟩, h.apart⟩
    · have := (h.new r hr hrnew).1
      show next < r.2
      omega
    · by_cases hrnew : r.1.nOrderPos = -1
      · have := (h.new r hr hrnew).1
        show r.2 ≠ next
        omega
      · exact fun heq ↦ (h.old r hr hrnew).1
          (List.mem_append_right _ (List.mem_singleton.2 heq))
    · exact fun hold ↦ absurd hnew hold
    · exact fun hold ↦ absurd hnew hold

theorem PlacedRows.old_cons {item : OrderItem} {p : ℤ} (hold : item.nOrderPos ≠ -1)
    (hp : p = item.nOrderPos + nOrderPosOff offs item.nOrderPos) (hnonneg : 0 ≤ item.nOrderPos)
    (hmeet : p ∉ offs) (hpass : ∀ q ∈ others, item.nOrderPos < q → p < q)
    (h : PlacedRows others offs (max next (p + 1)) next' rows) :
    PlacedRows others offs next next' ((item, p) :: rows) := by
  have hle := h.next_le
  have hoff := nOrderPosOff_nonneg offs item.nOrderPos
  refine ⟨by omega, ?_, ?_, ?_, ?_, h.others⟩
  · exact List.forall_mem_cons.2 ⟨⟨by omega, by show p < next'; omega⟩, h.range⟩
  · refine List.forall_mem_cons.2 ⟨fun hnew ↦ absurd hnew hold, fun r hr hrnew ↦ ?_⟩
    have := (h.new r hr hrnew).1
    exact ⟨by omega, (h.new r hr hrnew).2⟩
  · refine List.forall_mem_cons.2 ⟨fun _ ↦ ⟨hmeet, hpass, [], ?_, ?_⟩, fun r hr hrold ↦ ?_⟩
    · exact List.forall_mem_nil _
    · rw [List.append_nil]
      exact hp
    · obtain ⟨hmeet', hpass', later, hlater, heq⟩ := h.old r hr hrold
      exact ⟨hmeet', hpass', later, fun o ho ↦ (le_max_left _ _).trans (hlater o ho), heq⟩
  · refine List.pairwise_cons.2 ⟨fun r hr ↦ ⟨fun hrnew ↦ ?_, fun hnew ↦ absurd hnew hold, ?_, ?_⟩,
      h.apart⟩
    · have := (h.new r hr hrnew).1
      show p < r.2
      omega
    · -- a later entry is shifted at least as far
      intro _ hrold (hlt : item.nOrderPos < r.1.nOrderPos)
      obtain ⟨-, -, later, -, heq⟩ := h.old r hr hrold
      have hmono := nOrderPosOff_mono hlt.le offs
      have hlater := nOrderPosOff_nonneg later r.1.nOrderPos
      rw [nOrderPosOff_append] at heq
      show p < r.2
      omega
    · -- the new positions from in between lie above both entries
      intro _ hrold (hlt : r.1.nOrderPos < item.nOrderPos)
      obtain ⟨-, -, later, hlater, heq⟩ := h.old r hr hrold
      have hmono := nOrderPosOff_mono hlt.le offs
      have hzero : nOrderPosOff later r.1.nOrderPos = 0 := by
        refine nOrderPosOff_eq_zero fun o ho ↦ ?_
        have := hlater o ho
        omega
      rw [nOrderPosOff_append, hzero] at heq
      show r.2 < p
      omega

theorem placedRows_of_clearOrder : ∀ {next : ℤ} {offs : List ℤ} {rows : List (OrderItem × ℤ)},
    0 ≤ next →
    ClearOrder others next offs items → reorderLoop write next offs items = some (rows, next') →
      PlacedRows others offs next next' rows := by
  induction items with
  | nil =>
    intro next offs rows _ hclear h
    obtain ⟨rfl, rfl⟩ := Prod.mk.inj (Option.some.inj h)
    exact ⟨le_rfl, List.forall_mem_nil _, List.forall_mem_nil _, List.forall_mem_nil _,
      List.Pairwise.nil, hclear⟩
  | cons item items ih =>
    intro next offs rows hnext hclear h
    rw [ClearOrder] at hclear
    by_cases hnew : item.nOrderPos = -1
    · rw [if_pos hnew] at hclear
      obtain ⟨hlt, hother, hclear⟩ := hclear
      obtain ⟨-, rows₁, rfl, h₁⟩ := (reorderLoop_new hnew).1 h
      rw [int64_eq ⟨by omega, hlt⟩] at h₁
      exact .new_cons hnew hnext hother (ih (by omega) hclear h₁)
    · rw [if_neg hnew] at hclear
      obtain ⟨hnonneg, hlt, hmeet, hpass, hclear⟩ := hclear
      have hoff := nOrderPosOff_nonneg offs item.nOrderPos
      obtain ⟨rows₁, rfl, h₁⟩ := reorderLoop_old hnew h
      have hpos : int64 (item.nOrderPos + nOrderPosOff offs item.nOrderPos) =
          item.nOrderPos + nOrderPosOff offs item.nOrderPos := int64_eq ⟨by omega, by omega⟩
      rw [hpos, int64_eq ⟨by omega, hlt⟩] at h₁
      rw [hpos]
      exact .old_cons hnew rfl hnonneg hmeet hpass (ih (by omega) hclear h₁)

theorem int64_lt (x : ℤ) : int64 x < 2 ^ 63 := Int.bmod_lt (by decide)

theorem lt_of_reorderLoop : ∀ {next : ℤ} {offs : List ℤ} {rows : List (OrderItem × ℤ)},
    next < 2 ^ 63 → reorderLoop write next offs items = some (rows, next') → next' < 2 ^ 63 := by
  induction items with
  | nil =>
    intro next offs rows hnext h
    obtain ⟨-, rfl⟩ := Prod.mk.inj (Option.some.inj h)
    exact hnext
  | cons item items ih =>
    intro next offs rows hnext h
    by_cases hnew : item.nOrderPos = -1
    · obtain ⟨-, rows₁, -, h₁⟩ := (reorderLoop_new hnew).1 h
      exact ih (int64_lt _) h₁
    · obtain ⟨rows₁, -, h₁⟩ := reorderLoop_old hnew h
      exact ih (max_lt hnext (int64_lt _)) h₁

/-- The positions of the rest of the loop are such as they should be. -/
structure Kept (others offs : List ℤ) (next' : ℤ) (rows : List (OrderItem × ℤ)) : Prop where
  nodup : (rows.map Prod.snd).Nodup
  range : ∀ r ∈ rows, 0 ≤ r.2 ∧ r.2 < next'
  meet : ∀ r ∈ rows, r.2 ∉ offs ∧ r.2 ∉ others
  pass : ∀ r ∈ rows, r.1.nOrderPos ≠ -1 → ∀ q ∈ others, r.1.nOrderPos < q → r.2 < q
  others : ∀ q ∈ others, 0 ≤ q ∧ q < next'

theorem Kept.tail {r : OrderItem × ℤ} (h : Kept others offs next' (r :: rows)) :
    Kept others offs next' rows where
  nodup := (List.nodup_cons.1 h.nodup).2
  range := (List.forall_mem_cons.1 h.range).2
  meet := (List.forall_mem_cons.1 h.meet).2
  pass := (List.forall_mem_cons.1 h.pass).2
  others := h.others

/-- A position that has been given is not given again. -/
theorem Kept.tail_concat {item : OrderItem} {p : ℤ}
    (h : Kept others offs next' ((item, p) :: rows)) : Kept others (offs ++ [p]) next' rows where
  nodup := h.tail.nodup
  range := h.tail.range
  meet r hr := by
    obtain ⟨hoffs, hothers⟩ := h.tail.meet r hr
    refine ⟨fun hmem ↦ ?_, hothers⟩
    rcases List.mem_append.1 hmem with hmem | hmem
    · exact hoffs hmem
    · obtain rfl := List.mem_singleton.1 hmem
      have hmem : r.2 ∈ rows.map Prod.snd := List.mem_map_of_mem hr
      exact (List.nodup_cons.1 h.nodup).1 hmem
  pass := h.tail.pass
  others := h.others

/-- Where the positions are as they should be, nothing went wrong: a number that did not fit would
be negative or leave nothing above it. -/
theorem clearOrder_of_kept : ∀ {next : ℤ} {offs : List ℤ} {rows : List (OrderItem × ℤ)},
    (∀ o ∈ offs, 0 ≤ o) → offs.length ≤ next → next < 2 ^ 63 →
    reorderLoop write next offs items = some (rows, next') → Kept others offs next' rows →
      ClearOrder others next offs items := by
  induction items with
  | nil =>
    intro next offs rows _ _ _ h hkept
    obtain ⟨rfl, rfl⟩ := Prod.mk.inj (Option.some.inj h)
    exact hkept.others
  | cons item items ih =>
    intro next offs rows hoffs hlen hnext h hkept
    have hlast := lt_of_reorderLoop hnext h
    rw [ClearOrder]
    by_cases hnew : item.nOrderPos = -1
    · obtain ⟨-, rows₁, rfl, h₁⟩ := (reorderLoop_new hnew).1 h
      have hrange := hkept.range _ List.mem_cons_self
      dsimp only at hrange
      have hlt : next + 1 < 2 ^ 63 := by omega
      rw [int64_eq ⟨by omega, hlt⟩] at h₁
      rw [if_pos hnew]
      refine ⟨hlt, (hkept.meet _ List.mem_cons_self).2, ih ?_ ?_ hlt h₁ hkept.tail_concat⟩
      · intro o ho
        rcases List.mem_append.1 ho with ho | ho
        · exact hoffs o ho
        · rw [List.mem_singleton.1 ho]
          exact hrange.1
      · rw [List.length_append, List.length_singleton, Nat.cast_add, Nat.cast_one]
        omega
    · obtain ⟨rows₁, rfl, h₁⟩ := reorderLoop_old hnew h
      obtain ⟨hpos₀, hlast₀⟩ := hkept.range _ List.mem_cons_self
      obtain ⟨hlow, hhigh⟩ := item.nOrderPos_inInt64
      have hoff := nOrderPosOff_nonneg offs item.nOrderPos
      have hoff' := nOrderPosOff_le_length offs item.nOrderPos
      have hnonneg : 0 ≤ item.nOrderPos := by
        by_contra hneg
        have hzero : nOrderPosOff offs item.nOrderPos = 0 := by
          refine nOrderPosOff_eq_zero fun o ho ↦ ?_
          have := hoffs o ho
          omega
        rw [hzero, add_zero, int64_eq item.nOrderPos_inInt64] at hpos₀
        exact hneg hpos₀
      have hsmall : item.nOrderPos + nOrderPosOff offs item.nOrderPos < 2 ^ 63 := by
        by_contra hbig
        -- the sum of two numbers below `2 ^ 63` becomes negative
        have hwrap : int64 (item.nOrderPos + nOrderPosOff offs item.nOrderPos) =
            item.nOrderPos + nOrderPosOff offs item.nOrderPos - 2 ^ 64 := by
          unfold int64
          rw [Int.bmod_def]
          omega
        rw [hwrap] at hpos₀
        omega
      have hpos : int64 (item.nOrderPos + nOrderPosOff offs item.nOrderPos) =
          item.nOrderPos + nOrderPosOff offs item.nOrderPos := int64_eq ⟨by omega, hsmall⟩
      have hmeet := hkept.meet _ List.mem_cons_self
      have hpass := hkept.pass _ List.mem_cons_self hnew
      dsimp only at hmeet hpass
      rw [hpos] at h₁ hlast₀ hmeet hpass
      have hlt : item.nOrderPos + nOrderPosOff offs item.nOrderPos + 1 < 2 ^ 63 := by omega
      rw [int64_eq ⟨by omega, hlt⟩] at h₁
      rw [if_neg hnew]
      exact ⟨hnonneg, hlt, hmeet.1, hpass, ih hoffs (hlen.trans (le_max_left _ _))
        (max_lt hnext hlt) h₁ hkept.tail⟩

end

/-! ## The whole wallet -/

section

variable {write : TxPair → ℤ → Bool} {w : OrderWallet} {rows : List (OrderItem × ℤ)} {next' : ℤ}

/-- The order positions of the entries that are not listed -/
def OrderWallet.others (w : OrderWallet) : List ℤ := w.unlisted.map OrderItem.nOrderPos

theorem perm_txByTime (w : OrderWallet) :
    (w.txByTime ++ w.unlisted).Perm (w.mapWallet ++ w.acentries) := by
  refine ((List.perm_insertionSort _ _).append_right _).trans ?_
  rw [List.append_assoc]
  refine List.Perm.append_left _ ?_
  have hsplit := List.filter_append_perm (fun entry : OrderItem ↦ entry.pair.account = [])
    w.acentries
  simpa [OrderWallet.listAccountCreditDebit, OrderWallet.unlisted] using hsplit

/-- Distinct entries have distinct positions. -/
theorem OrderWallet.Distinct.pairwise (h : w.Distinct) :
    (w.txByTime ++ w.unlisted).Pairwise fun a b ↦
      a.nOrderPos ≠ -1 → b.nOrderPos ≠ -1 → a.nOrderPos ≠ b.nOrderPos := by
  have hperm := ((perm_txByTime w).map OrderItem.nOrderPos).filter (· ≠ -1)
  have hpair := List.pairwise_filter.1 (hperm.nodup_iff.2 h)
  rw [List.pairwise_map] at hpair
  exact hpair.imp fun hab ha hb ↦ hab (decide_eq_true ha) (decide_eq_true hb)

/-- What is left out keeps its position. -/
def OrderWallet.unlistedRows (w : OrderWallet) : List (OrderItem × ℤ) :=
  w.unlisted.map fun item ↦ (item, item.nOrderPos)

theorem mem_unlistedRows {r : OrderItem × ℤ} (hr : r ∈ w.unlistedRows) :
    r.1 ∈ w.unlisted ∧ r.2 = r.1.nOrderPos ∧ r.2 ∈ w.others := by
  obtain ⟨item, hitem, rfl⟩ := List.mem_map.1 hr
  exact ⟨hitem, rfl, List.mem_map_of_mem hitem⟩

/-- Two entries keep their order. -/
def KeepsRank (r r' : OrderItem × ℤ) : Prop :=
  r.1.nOrderPos ≠ -1 → r'.1.nOrderPos ≠ -1 →
    (r.1.nOrderPos < r'.1.nOrderPos → r.2 < r'.2) ∧ (r'.1.nOrderPos < r.1.nOrderPos → r'.2 < r.2)

theorem PlacedRows.keepsRank {others offs : List ℤ} {next : ℤ}
    (h : PlacedRows others offs next next' rows)
    {r r' : OrderItem × ℤ} (hr : r ∈ rows) (hr' : r' ∈ rows) : KeepsRank r r' := by
  refine List.Pairwise.forall_of_forall_of_flip (R := KeepsRank) (fun r _ _ _ ↦ ?_) ?_ ?_ hr hr'
  · exact ⟨fun hlt ↦ absurd hlt (lt_irrefl _), fun hlt ↦ absurd hlt (lt_irrefl _)⟩
  · exact h.apart.imp fun hap h₁ h₂ ↦ ⟨hap.up h₁ h₂, hap.down h₁ h₂⟩
  · exact h.apart.imp fun hap h₁ h₂ ↦ ⟨hap.down h₂ h₁, hap.up h₂ h₁⟩

/-- Where nothing goes wrong the positions of the wallet are in order. -/
theorem wellOrdered_of_placedRows (hw : w.Distinct) (hrows : rows.map Prod.fst = w.txByTime)
    (h : PlacedRows w.others [] 0 next' rows) : WellOrdered (rows ++ w.unlistedRows) next' := by
  have hpairs := List.pairwise_append.1 hw.pairwise
  obtain ⟨hlisted, hunlisted, hcross⟩ := hpairs
  have hne : ∀ q ∈ w.others, q ≠ -1 := fun q hq heq ↦ by
    have := (h.others q hq).1
    omega
  -- an entry that is not listed lies on the same side of a listed one as before
  have hside : ∀ r ∈ rows, ∀ item ∈ w.unlisted, r.1.nOrderPos ≠ -1 →
      (r.1.nOrderPos < item.nOrderPos → r.2 < item.nOrderPos) ∧
      (item.nOrderPos < r.1.nOrderPos → item.nOrderPos < r.2) := by
    intro r hr item hitem hold
    obtain ⟨-, hpass, later, -, heq⟩ := h.old r hr hold
    refine ⟨hpass _ (List.mem_map_of_mem hitem), fun hlt ↦ ?_⟩
    have := nOrderPosOff_nonneg ([] ++ later) r.1.nOrderPos
    omega
  refine ⟨?_, ?_, ?_⟩
  · rw [List.map_append, List.nodup_append']
    refine ⟨?_, ?_, fun p hp hp' ↦ ?_⟩
    · rw [← hrows, List.pairwise_map] at hlisted
      refine List.pairwise_map.2 ((h.apart.and hlisted).imp fun {r r'} hap ↦ ?_)
      obtain ⟨hap, hne⟩ := hap
      by_cases hnew' : r'.1.nOrderPos = -1
      · exact (hap.new hnew').ne
      · by_cases hnew : r.1.nOrderPos = -1
        · exact (hap.meet hnew).symm
        · rcases lt_or_gt_of_ne (hne hnew hnew') with hlt | hlt
          · exact (hap.up hnew hnew' hlt).ne
          · exact (hap.down hnew hnew' hlt).ne'
    · rw [OrderWallet.unlistedRows, List.map_map]
      refine List.pairwise_map.2 (hunlisted.imp_of_mem fun {a b} ha hb hab ↦ ?_)
      exact hab (hne _ (List.mem_map_of_mem ha)) (hne _ (List.mem_map_of_mem hb))
    · obtain ⟨r, hr, rfl⟩ := List.mem_map.1 hp
      obtain ⟨r', hr', heq⟩ := List.mem_map.1 hp'
      obtain ⟨hitem, heq', hother⟩ := mem_unlistedRows hr'
      by_cases hnew : r.1.nOrderPos = -1
      · exact (h.new r hr hnew).2 (heq ▸ hother)
      · have hr₁ : r.1 ∈ w.txByTime := hrows ▸ List.mem_map_of_mem hr
        have hdist := hcross r.1 hr₁ r'.1 hitem hnew (heq' ▸ hne _ hother)
        obtain ⟨hup, hdown⟩ := hside r hr r'.1 hitem hnew
        omega
  · intro r hr
    rcases List.mem_append.1 hr with hr | hr
    · exact h.range r hr
    · exact h.others _ (mem_unlistedRows hr).2.2
  · intro r hr r' hr' hold hold' hlt
    rcases List.mem_append.1 hr with hr | hr
    · rcases List.mem_append.1 hr' with hr' | hr'
      · exact (h.keepsRank hr hr' hold hold').1 hlt
      · obtain ⟨hitem, heq, -⟩ := mem_unlistedRows hr'
        rw [heq]
        exact (hside r hr r'.1 hitem hold).1 hlt
    · obtain ⟨hitem, heq, -⟩ := mem_unlistedRows hr
      rcases List.mem_append.1 hr' with hr' | hr'
      · rw [heq]
        exact (hside r' hr' r.1 hitem hold').2 hlt
      · rw [heq, (mem_unlistedRows hr').2.1]
        exact hlt

theorem kept_of_wellOrdered (h : WellOrdered (rows ++ w.unlistedRows) next') :
    Kept w.others [] next' rows := by
  have hnodup := h.nodup
  rw [List.map_append, List.nodup_append'] at hnodup
  have hothers : w.unlistedRows.map Prod.snd = w.others := by
    rw [OrderWallet.unlistedRows, List.map_map]
    rfl
  rw [hothers] at hnodup
  obtain ⟨hnodup, -, hdisjoint⟩ := hnodup
  have hitems : ∀ q ∈ w.others, ∃ r ∈ w.unlistedRows, r.1.nOrderPos = q ∧ r.2 = q := by
    intro q hq
    obtain ⟨item, hitem, rfl⟩ := List.mem_map.1 hq
    exact ⟨_, List.mem_map_of_mem hitem, rfl, rfl⟩
  have hrange : ∀ q ∈ w.others, 0 ≤ q ∧ q < next' := by
    intro q hq
    obtain ⟨r, hr, -, rfl⟩ := hitems q hq
    exact h.range r (List.mem_append_right _ hr)
  refine ⟨hnodup, fun r hr ↦ h.range r (List.mem_append_left _ hr), fun r hr ↦ ?_, ?_, hrange⟩
  · exact ⟨List.not_mem_nil, hdisjoint (List.mem_map_of_mem hr)⟩
  · intro r hr hold q hq hlt
    have hpos := (hrange q hq).1
    obtain ⟨r', hr', rfl, heq⟩ := hitems q hq
    have := h.mono r (List.mem_append_left _ hr) r' (List.mem_append_right _ hr') hold
      (by omega) hlt
    omega

/-- The positions are in order when nothing goes wrong in the loop. -/
theorem wellOrdered_iff_clearOrder (hw : w.Distinct)
    (h : w.reorderTransactions write = some (rows, next')) :
    WellOrdered rows next' ↔ ClearOrder w.others 0 [] w.txByTime := by
  obtain ⟨⟨rows₁, next₁⟩, hloop, hpair⟩ := Option.map_eq_some_iff.1 h
  obtain ⟨rfl, rfl⟩ := Prod.mk.inj hpair
  constructor
  · intro hwell
    exact clearOrder_of_kept (List.forall_mem_nil _) le_rfl (by decide) hloop
      (kept_of_wellOrdered hwell)
  · intro hclear
    exact wellOrdered_of_placedRows hw (map_fst_of_reorderLoop hloop)
      (placedRows_of_clearOrder le_rfl hclear hloop)

end

/-! ## Without the loop -/

section

variable {P : List OrderItem → OrderItem → Prop} {before items items' : List OrderItem}
  {item : OrderItem} {p : ℤ}

theorem throughout_append : ∀ {before : List OrderItem}, Throughout P before (items ++ items') ↔
    Throughout P before items ∧ Throughout P (before ++ items) items' := by
  induction items with
  | nil =>
    intro before
    rw [List.nil_append, List.append_nil, Throughout, true_and]
  | cons item items ih =>
    intro before
    rw [List.cons_append, Throughout, Throughout, ih, List.append_assoc, and_assoc]
    rfl

theorem throughout_concat : Throughout P before (items ++ [item]) ↔
    Throughout P before items ∧ P (before ++ items) item := by
  rw [throughout_append, Throughout, Throughout, and_true]

theorem throughout_of_forall : ∀ {before : List OrderItem},
    (∀ b item b', items = b ++ item :: b' → P (before ++ b) item) → Throughout P before items := by
  induction items with
  | nil => exact fun _ ↦ trivial
  | cons item items ih =>
    intro before h
    refine ⟨?_, ih fun b item' b' heq ↦ ?_⟩
    · have hhead := h [] item items rfl
      rwa [List.append_nil] at hhead
    · have htail := h (item :: b) item' b' (congrArg (item :: ·) heq)
      rwa [← List.singleton_append, ← List.append_assoc] at htail

theorem countNew_append (b b' : List OrderItem) : countNew (b ++ b') = countNew b + countNew b' :=
  List.countP_append

theorem countNew_cons (item : OrderItem) (items : List OrderItem) :
    countNew (item :: items) = countNew items + if item.nOrderPos = -1 then 1 else 0 := by
  rw [countNew, List.countP_cons]
  simp only [decide_eq_true_eq]
  rfl

theorem firstFree_nonneg (items : List OrderItem) : 0 ≤ firstFree items := by
  induction items with
  | nil => exact le_rfl
  | cons item items ih => exact ih.trans (le_max_right _ _)

theorem firstFree_le_iff (hp : 0 ≤ p) : firstFree items ≤ p ↔ ∀ item ∈ items, item.nOrderPos < p := by
  induction items with
  | nil => exact iff_of_true hp (List.forall_mem_nil _)
  | cons item items ih => rw [firstFree, max_le_iff, ih, List.forall_mem_cons, Int.add_one_le_iff]

theorem firstFree_concat (before : List OrderItem) (item : OrderItem) :
    firstFree (before ++ [item]) = max (firstFree before) (item.nOrderPos + 1) := by
  induction before with
  | nil => exact max_comm _ _
  | cons item' before ih => rw [List.cons_append, firstFree, ih, firstFree, max_assoc]

theorem slot_new (hnew : item.nOrderPos = -1) : slot (before ++ [item]) = slot before + 1 := by
  have hnonneg := firstFree_nonneg before
  rw [slot, slot, firstFree_concat, countNew_append, countNew_cons, if_pos hnew, hnew]
  change max (firstFree before) 0 + ((countNew before + 1 : ℕ) : ℤ) = _
  push_cast
  omega

theorem shift_of_le (h : firstFree before ≤ p) : shift before p = countNew before := by
  have hp := (firstFree_nonneg before).trans h
  rw [shift, List.takeWhile_eq_self_iff.2 fun item hitem ↦
    decide_eq_true ((firstFree_le_iff hp).1 h item hitem)]

theorem shift_le (before : List OrderItem) (p : ℤ) : shift before p ≤ countNew before :=
  (List.takeWhile_sublist _).countP_le

/-- What comes after an entry with a greater position does not count. -/
theorem shift_concat_of_lt (hp : 0 ≤ p) (h : p < firstFree before) :
    shift (before ++ [item]) p = shift before p := by
  rw [shift, List.takeWhile_append, if_neg, shift]
  intro hlen
  have hall := List.takeWhile_eq_self_iff.1 ((List.takeWhile_prefix _).eq_of_length hlen)
  exact h.not_ge ((firstFree_le_iff hp).2 fun item' hitem' ↦ of_decide_eq_true (hall item' hitem'))

theorem shift_concat_new (hnew : item.nOrderPos = -1) (h : firstFree before ≤ p) :
    shift (before ++ [item]) p = shift before p + 1 := by
  have hle : firstFree (before ++ [item]) ≤ p := by
    have hnonneg := firstFree_nonneg before
    rw [firstFree_concat, hnew]
    exact max_le h (by omega)
  rw [shift_of_le hle, shift_of_le h, countNew_append, countNew_cons, if_pos hnew]
  rfl

theorem shift_concat_old (hold : item.nOrderPos ≠ -1) (hp : 0 ≤ p) :
    shift (before ++ [item]) p = shift before p := by
  rcases lt_or_ge p (firstFree before) with hlt | hle
  · exact shift_concat_of_lt hp hlt
  · have hall := (firstFree_le_iff hp).1 hle
    have hcount : countNew ([item].takeWhile fun item ↦ item.nOrderPos < p) = 0 := by
      have hsub := (List.takeWhile_sublist (fun item : OrderItem ↦ decide (item.nOrderPos < p))
        (l := [item])).countP_le (p := fun item : OrderItem ↦ item.nOrderPos = -1)
      have hzero : countNew [item] = 0 := by rw [countNew_cons, if_neg hold]; rfl
      exact Nat.le_zero.1 (hsub.trans hzero.le)
    rw [shift, List.takeWhile_append_of_pos fun item' hitem' ↦ decide_eq_true (hall item' hitem'),
      countNew_append, hcount, shift_of_le hle, add_zero]

/-- An entry with a position makes room behind it. -/
theorem slot_old (hold : item.nOrderPos ≠ -1) : slot (before ++ [item]) =
    max (slot before) (item.nOrderPos + shift before item.nOrderPos + 1) := by
  have hcount : countNew (before ++ [item]) = countNew before := by
    rw [countNew_append, countNew_cons, if_neg hold]
    rfl
  rw [slot, slot, firstFree_concat, hcount]
  rcases lt_or_ge item.nOrderPos (firstFree before) with hlt | hle
  · have hshift := shift_le before item.nOrderPos
    omega
  · rw [shift_of_le hle]
    omega

theorem slot_le_append (before items : List OrderItem) : slot before ≤ slot (before ++ items) := by
  induction items generalizing before with
  | nil => rw [List.append_nil]
  | cons item items ih =>
    rw [List.append_cons]
    refine le_trans ?_ (ih (before ++ [item]))
    rw [slot, slot, firstFree_concat, countNew_append]
    push_cast
    omega

/-- The new positions that the loop has given, where it has counted them right. -/
structure GivenSlots (before : List OrderItem) (offs : List ℤ) : Prop where
  lt : ∀ o ∈ offs, o < slot before
  count : ∀ p, 0 ≤ p → CountsNew before p → nOrderPosOff offs p = shift before p
  meet : ∀ p, 0 ≤ p → CountsNew before p → ∀ o ∈ offs, o ≤ p ∨ p + shift before p < o

variable {offs others : List ℤ}

theorem givenSlots_nil : GivenSlots [] [] where
  lt := List.forall_mem_nil _
  count _ _ _ := rfl
  meet _ _ _ := List.forall_mem_nil _

theorem GivenSlots.new (h : GivenSlots before offs) (hnew : item.nOrderPos = -1) :
    GivenSlots (before ++ [item]) (offs ++ [slot before]) := by
  have hcounts : ∀ p, CountsNew (before ++ [item]) p →
      CountsNew before p ∧ (firstFree before ≤ p → slot before ≤ p) := by
    intro p hp
    obtain ⟨hbefore, hitem⟩ := throughout_concat.1 hp
    exact ⟨hbefore, hitem hnew⟩
  refine ⟨fun o ho ↦ ?_, fun p hp hcountsNew ↦ ?_, fun p hp hcountsNew o ho ↦ ?_⟩
  · rw [slot_new hnew]
    rcases List.mem_append.1 ho with ho | ho
    · exact (h.lt o ho).trans (lt_add_one _)
    · rw [List.mem_singleton.1 ho]
      exact lt_add_one _
  · obtain ⟨hbefore, hitem⟩ := hcounts p hcountsNew
    rw [nOrderPosOff_append, h.count p hp hbefore, nOrderPosOff, List.countP_singleton]
    rcases lt_or_ge p (firstFree before) with hlt | hle
    · have hslot : ¬ slot before ≤ p := by
        rw [slot]
        omega
      rw [shift_concat_of_lt hp hlt, if_neg (by rwa [decide_eq_true_eq])]
      exact add_zero _
    · rw [shift_concat_new hnew hle, if_pos (decide_eq_true (hitem hle))]
      rfl
  · obtain ⟨hbefore, hitem⟩ := hcounts p hcountsNew
    rcases lt_or_ge p (firstFree before) with hlt | hle
    · rw [shift_concat_of_lt hp hlt]
      rcases List.mem_append.1 ho with ho | ho
      · exact h.meet p hp hbefore o ho
      · have hshift := shift_le before p
        rw [List.mem_singleton.1 ho, slot]
        omega
    · -- all of them lie at or below `p`
      refine .inl (le_trans ?_ (hitem hle))
      rcases List.mem_append.1 ho with ho | ho
      · exact (h.lt o ho).le
      · exact (List.mem_singleton.1 ho).le

theorem GivenSlots.old (h : GivenSlots before offs) (hold : item.nOrderPos ≠ -1) :
    GivenSlots (before ++ [item]) offs := by
  refine ⟨fun o ho ↦ (h.lt o ho).trans_le (slot_le_append before [item]),
    fun p hp hcountsNew ↦ ?_, fun p hp hcountsNew ↦ ?_⟩
  · rw [shift_concat_old hold hp]
    exact h.count p hp (throughout_concat.1 hcountsNew).1
  · rw [shift_concat_old hold hp]
    exact h.meet p hp (throughout_concat.1 hcountsNew).1

theorem hasRoom_cons : HasRoom others before (item :: items) ↔
    (item.nOrderPos ≠ -1 → 0 ≤ item.nOrderPos) ∧ (item.nOrderPos = -1 → slot before ∉ others) ∧
      (item.nOrderPos ≠ -1 → ∀ q ∈ others, item.nOrderPos < q →
        item.nOrderPos + shift before item.nOrderPos < q) ∧ HasRoom others (before ++ [item]) items := by
  have hassoc : before ++ item :: items = before ++ [item] ++ items := List.append_cons ..
  constructor
  · intro h
    obtain ⟨hnonneg, hnonneg'⟩ := List.forall_mem_cons.1 h.nonneg
    have hothers := h.others
    have hint64 := h.int64
    rw [hassoc] at hothers hint64
    exact ⟨hnonneg, h.new.1, h.old.1, hnonneg', h.new.2, h.old.2, hothers, hint64⟩
  · rintro ⟨hnonneg, hnew, hold, h⟩
    refine ⟨List.forall_mem_cons.2 ⟨hnonneg, h.nonneg⟩, ⟨hnew, h.new⟩, ⟨hold, h.old⟩, ?_, ?_⟩
    · rw [hassoc]
      exact h.others
    · rw [hassoc]
      exact h.int64

/-- What the loop does next with an entry that has a position, where it counts right. -/
theorem clearOrder_old (h : GivenSlots before offs) (hold : item.nOrderPos ≠ -1)
    (hcounts : CountsNew before item.nOrderPos) :
    ClearOrder others (slot before) offs (item :: items) ↔
      0 ≤ item.nOrderPos ∧ item.nOrderPos + shift before item.nOrderPos + 1 < 2 ^ 63 ∧
        (∀ q ∈ others, item.nOrderPos < q → item.nOrderPos + shift before item.nOrderPos < q) ∧
        ClearOrder others (slot (before ++ [item])) offs items := by
  rw [ClearOrder, if_neg hold]
  refine and_congr_right fun hp ↦ ?_
  have hcount := h.count _ hp hcounts
  rw [hcount, slot_old hold]
  refine and_congr_right fun _ ↦ and_iff_right fun hmem ↦ ?_
  -- a new position at or below the old one is counted, and lies below the shifted one
  rcases h.meet _ hp hcounts _ hmem with hle | hlt
  · have hpos : 0 < nOrderPosOff offs item.nOrderPos :=
      Int.natCast_pos.2 (List.countP_pos_iff.2 ⟨_, hmem, decide_eq_true hle⟩)
    omega
  · exact lt_irrefl _ hlt

/-- **Where the loop counts right, nothing goes wrong if there is room.** -/
theorem clearOrder_iff_hasRoom : ∀ {before : List OrderItem} {offs : List ℤ}, GivenSlots before offs →
    CountsAll before items → slot before < 2 ^ 63 →
      (ClearOrder others (slot before) offs items ↔ HasRoom others before items) := by
  induction items with
  | nil =>
    intro before offs _ _ hlt
    constructor
    · intro hothers
      refine ⟨List.forall_mem_nil _, trivial, trivial, ?_, ?_⟩
      · rw [List.append_nil]
        exact hothers
      · rwa [List.append_nil]
    · intro h
      have hothers := h.others
      rwa [List.append_nil] at hothers
  | cons item items ih =>
    intro before offs h hcounts hlt
    obtain ⟨hitem, hcounts⟩ := hcounts
    rw [hasRoom_cons]
    by_cases hnew : item.nOrderPos = -1
    · have hrest := ih (h.new hnew) hcounts
      rw [slot_new hnew] at hrest
      rw [ClearOrder, if_pos hnew]
      constructor
      · rintro ⟨hlt', hother, hclear⟩
        exact ⟨fun hold ↦ absurd hnew hold, fun _ ↦ hother, fun hold ↦ absurd hnew hold,
          (hrest hlt').1 hclear⟩
      · rintro ⟨-, hother, -, hroom⟩
        have hle := slot_le_append (before ++ [item]) items
        rw [slot_new hnew] at hle
        have hlt' := hle.trans_lt hroom.int64
        exact ⟨hlt', hother hnew, (hrest hlt').2 hroom⟩
    · rw [clearOrder_old h hnew (hitem hnew)]
      have hrest := ih (h.old hnew) hcounts
      constructor
      · rintro ⟨hp, hlt', hpass, hclear⟩
        refine ⟨fun _ ↦ hp, fun hnew' ↦ absurd hnew' hnew, fun _ ↦ hpass, (hrest ?_).1 hclear⟩
        rw [slot_old hnew]
        exact max_lt hlt hlt'
      · rintro ⟨hp, -, hpass, hroom⟩
        have hlt' := (slot_le_append (before ++ [item]) items).trans_lt hroom.int64
        refine ⟨hp hnew, ?_, hpass hnew, (hrest hlt').2 hroom⟩
        rw [slot_old hnew] at hlt'
        exact (le_max_right _ _).trans_lt hlt'

/-- Where the loop is after some entries that it has counted right. -/
theorem clearOrder_append : ∀ {before : List OrderItem} {offs : List ℤ}, GivenSlots before offs →
    CountsAll before items → ClearOrder others (slot before) offs (items ++ items') →
      ∃ offs', GivenSlots (before ++ items) offs' ∧
        ClearOrder others (slot (before ++ items)) offs' items' := by
  induction items with
  | nil =>
    intro before offs h _ hclear
    rw [List.append_nil]
    exact ⟨offs, h, hclear⟩
  | cons item items ih =>
    intro before offs h hcounts hclear
    obtain ⟨hitem, hcounts⟩ := hcounts
    rw [List.append_cons]
    rw [List.cons_append] at hclear
    by_cases hnew : item.nOrderPos = -1
    · rw [ClearOrder, if_pos hnew, ← slot_new hnew] at hclear
      exact ih (h.new hnew) hcounts hclear.2.2
    · rw [clearOrder_old h hnew (hitem hnew)] at hclear
      exact ih (h.old hnew) hcounts hclear.2.2.2

/-- Later new positions are greater. -/
theorem clearOrder_later : ∀ {next : ℤ} {offs : List ℤ},
    ClearOrder others next offs (items ++ items') → ∃ next' later, next ≤ next' ∧
      (∀ o ∈ later, next ≤ o) ∧ ClearOrder others next' (offs ++ later) items' := by
  induction items with
  | nil =>
    intro next offs hclear
    refine ⟨next, [], le_rfl, List.forall_mem_nil _, ?_⟩
    rw [List.append_nil]
    exact hclear
  | cons item items ih =>
    intro next offs hclear
    rw [List.cons_append, ClearOrder] at hclear
    split_ifs at hclear
    · obtain ⟨next', later, hle, hlater, hclear⟩ := ih hclear.2.2
      refine ⟨next', next :: later, by omega, List.forall_mem_cons.2 ⟨le_rfl, fun o ho ↦ ?_⟩, ?_⟩
      · have := hlater o ho
        omega
      · rwa [List.append_assoc] at hclear
    · obtain ⟨next', later, hle, hlater, hclear⟩ := ih hclear.2.2.2.2
      exact ⟨next', later, (le_max_left _ _).trans hle,
        fun o ho ↦ (le_max_left _ _).trans (hlater o ho), hclear⟩

/-- One new position is not shifted. -/
theorem countsNew_of_le_one (h : countNew before ≤ 1) (p : ℤ) : CountsNew before p := by
  refine throughout_of_forall fun b item b' heq hnew hle ↦ ?_
  have hcount : countNew b = 0 := by
    rw [heq, countNew_append, countNew_cons, if_pos hnew] at h
    omega
  rw [List.nil_append] at hle ⊢
  rw [slot, hcount]
  omega

theorem countsAll_of_le_one (h : countNew items ≤ 1) : CountsAll [] items := by
  refine throughout_of_forall fun b item b' heq _ ↦ countsNew_of_le_one ?_ _
  rw [heq, countNew_append] at h
  rw [List.nil_append]
  omega

theorem exists_first_new (h : 0 < countNew items) : ∃ b item b', items = b ++ item :: b' ∧
    countNew b = 0 ∧ item.nOrderPos = -1 := by
  induction items with
  | nil => cases h
  | cons item items ih =>
    by_cases hnew : item.nOrderPos = -1
    · exact ⟨[], item, items, rfl, rfl, hnew⟩
    · rw [countNew_cons, if_neg hnew] at h
      obtain ⟨b, item', b', rfl, hcount, hnew'⟩ := ih h
      refine ⟨item :: b, item', b', rfl, ?_, hnew'⟩
      rw [countNew_cons, if_neg hnew, hcount]

/-- **An entry at the position after all those before the second new one is counted wrong.**  It is
shifted by one, and meets the second new position. -/
theorem not_clearOrder_of_firstFree {new : OrderItem} {r r' : List OrderItem}
    (hcount : countNew before = 1) (hnew : new.nOrderPos = -1)
    (hitem : item.nOrderPos = firstFree before) :
    ¬ ClearOrder others 0 [] (before ++ new :: (r ++ item :: r')) := by
  intro hclear
  obtain ⟨offs, hgiven, hclear⟩ :=
    clearOrder_append givenSlots_nil (countsAll_of_le_one hcount.le) hclear
  rw [List.nil_append] at hgiven hclear
  rw [ClearOrder, if_pos hnew] at hclear
  obtain ⟨next', later, -, hlater, hclear⟩ := clearOrder_later hclear.2.2
  have hnonneg := firstFree_nonneg before
  have hslot : slot before = firstFree before + 1 := by
    rw [slot, hcount]
    rfl
  rw [ClearOrder, if_neg (by omega)] at hclear
  refine hclear.2.2.1 ?_
  have hzero : nOrderPosOff later item.nOrderPos = 0 := by
    refine nOrderPosOff_eq_zero fun o ho ↦ ?_
    have := hlater o ho
    omega
  have hzero' : nOrderPosOff [slot before] item.nOrderPos = 0 := by
    refine nOrderPosOff_eq_zero fun o ho ↦ ?_
    rw [List.mem_singleton.1 ho]
    omega
  have hone : nOrderPosOff offs item.nOrderPos = 1 := by
    rw [hgiven.count _ (by omega) (countsNew_of_le_one hcount.le _), shift_of_le hitem.ge, hcount]
    rfl
  rw [nOrderPosOff_append, nOrderPosOff_append, hone, hzero, hzero', hitem]
  refine List.mem_append_left _ (List.mem_append_right _ (List.mem_singleton.2 ?_))
  omega

/-- Where the old positions have no gaps, one that is counted wrong comes with one that meets a new
position. -/
theorem countsAll_of_gapless (hclear : ClearOrder others 0 [] items) (hgapless : Gapless items) :
    CountsAll [] items := by
  refine throughout_of_forall fun b item b' hitems _ ↦
    throughout_of_forall fun c new c' hb hnew hle ↦ ?_
  rw [List.nil_append] at hb hle ⊢
  by_contra hslot
  have hp := (firstFree_nonneg c).trans hle
  have hcount : 0 < countNew c := by
    rw [slot] at hslot
    omega
  -- the first two entries without a position
  obtain ⟨c₀, new₀, c₁, rfl, hc₀, hnew₀⟩ := exists_first_new hcount
  have hcount₁ : 0 < countNew (c₁ ++ [new]) := by
    rw [countNew_append, countNew_cons, if_pos hnew]
    omega
  obtain ⟨c₂, new₁, c₃, hsplit, hc₂, hnew₁⟩ := exists_first_new hcount₁
  set before := c₀ ++ new₀ :: c₂ with hbefore
  have hall : items = before ++ new₁ :: (c₃ ++ c' ++ item :: b') := by
    have hc : c₁ ++ new :: c' = c₂ ++ new₁ :: (c₃ ++ c') := by
      rw [List.append_cons, hsplit, List.append_assoc, List.cons_append]
    rw [hitems, hb, List.append_assoc c₀, List.cons_append, hc, hbefore]
    simp only [List.append_assoc, List.cons_append]
  have hcount₂ : countNew before = 1 := by
    rw [hbefore, countNew_append, countNew_cons, if_pos hnew₀, hc₀, hc₂]
  -- the position after those before the second one is held, by an entry after it
  have hfree : firstFree before ≤ item.nOrderPos := by
    rw [firstFree_le_iff hp] at hle ⊢
    intro item' hitem'
    rcases List.mem_append.1 hitem' with hmem | hmem
    · exact hle item' (List.mem_append_left _ hmem)
    · rcases List.mem_cons.1 hmem with rfl | hmem
      · omega
      · have hmem : item' ∈ c₁ ++ [new] := hsplit ▸ List.mem_append_left _ hmem
        rcases List.mem_append.1 hmem with hmem | hmem
        · exact hle item' (List.mem_append_right _ (List.mem_cons_of_mem _ hmem))
        · rw [List.mem_singleton.1 hmem]
          omega
  have hnonneg := firstFree_nonneg before
  obtain ⟨item', hmem, hpos⟩ : ∃ item' ∈ items, item'.nOrderPos = firstFree before := by
    rcases hfree.eq_or_lt with heq | hlt
    · refine ⟨item, ?_, heq.symm⟩
      rw [hitems]
      exact List.mem_append_right _ List.mem_cons_self
    · refine hgapless item ?_ _ hnonneg hlt
      rw [hitems]
      exact List.mem_append_right _ List.mem_cons_self
  rw [hall] at hmem
  have hafter : item' ∈ c₃ ++ c' ++ item :: b' := by
    rcases List.mem_append.1 hmem with hmem | hmem
    · have := (firstFree_le_iff hnonneg).1 le_rfl item' hmem
      omega
    · rcases List.mem_cons.1 hmem with rfl | hmem
      · omega
      · exact hmem
  obtain ⟨r, r', hr⟩ := List.append_of_mem hafter
  rw [hall, hr] at hclear
  exact not_clearOrder_of_firstFree hcount₂ hnew₁ hpos hclear

end

/-- **When the positions are in order**: where the loop counts right, if and only if there is room; and
where the old positions have no gaps, if and only if it counts right and there is room. -/
theorem wellOrdered_iff {write : TxPair → ℤ → Bool} {w : OrderWallet} {rows : List (OrderItem × ℤ)}
    {next' : ℤ} (hw : w.Distinct) (h : w.reorderTransactions write = some (rows, next')) :
    (CountsAll [] w.txByTime → (WellOrdered rows next' ↔ HasRoom w.others [] w.txByTime)) ∧
    (Gapless w.txByTime →
      (WellOrdered rows next' ↔ CountsAll [] w.txByTime ∧ HasRoom w.others [] w.txByTime)) := by
  have hroom : CountsAll [] w.txByTime → (WellOrdered rows next' ↔ HasRoom w.others [] w.txByTime) :=
    fun hcounts ↦ (wellOrdered_iff_clearOrder hw h).trans
      (clearOrder_iff_hasRoom givenSlots_nil hcounts (by decide))
  refine ⟨hroom, fun hgapless ↦ ⟨fun hwell ↦ ?_, fun hcond ↦ (hroom hcond.1).2 hcond.2⟩⟩
  have hcounts := countsAll_of_gapless ((wellOrdered_iff_clearOrder hw h).1 hwell) hgapless
  exact ⟨hcounts, (hroom hcounts).1 hwell⟩

namespace Sample

def orderItem (pair : TxPair) (nTime nOrderPos : ℤ) (h : InInt64 nOrderPos) : OrderItem :=
  ⟨pair, nTime, nOrderPos, h⟩

/-- Between the first and the last in time, two entries have no position; an entry of an account with a
name is not listed. -/
def orderedWallet : OrderWallet where
  mapWallet := [orderItem (.wtx 1) 30 2 (by decide), orderItem (.wtx 2) 20 (-1) (by decide),
    orderItem (.wtx 3) 10 0 (by decide)]
  acentries := [orderItem (.acentry [] 1) 40 6 (by decide),
    orderItem (.acentry [] 2) 25 (-1) (by decide), orderItem (.acentry [97] 3) 5 5 (by decide)]

/-- Of three transactions the one in the middle has no position. -/
def gaplessWallet : OrderWallet where
  mapWallet := [orderItem (.wtx 1) 30 1 (by decide), orderItem (.wtx 2) 20 (-1) (by decide),
    orderItem (.wtx 3) 10 0 (by decide)]
  acentries := []

/-- Two accounting entries without a position are followed by a transaction with the first one. -/
def collidingWallet : OrderWallet where
  mapWallet := [orderItem (.wtx 1) 30 0 (by decide)]
  acentries := [orderItem (.acentry [] 1) 10 (-1) (by decide),
    orderItem (.acentry [] 2) 20 (-1) (by decide)]

end Sample

/-- In the first wallet the two in the middle get the positions after the first, and the two behind them
are shifted, but not past the one that is not listed; the second has no gaps. -/
theorem wellOrdered_iff_sample :
    WellOrdered [(Sample.orderItem (.wtx 3) 10 0 (by decide), 0),
      (Sample.orderItem (.wtx 2) 20 (-1) (by decide), 1),
      (Sample.orderItem (.acentry [] 2) 25 (-1) (by decide), 2),
      (Sample.orderItem (.wtx 1) 30 2 (by decide), 4),
      (Sample.orderItem (.acentry [] 1) 40 6 (by decide), 8),
      (Sample.orderItem (.acentry [97] 3) 5 5 (by decide), 5)] 9 ∧
    WellOrdered [(Sample.orderItem (.wtx 3) 10 0 (by decide), 0),
      (Sample.orderItem (.wtx 2) 20 (-1) (by decide), 1),
      (Sample.orderItem (.wtx 1) 30 1 (by decide), 2)] 3 := by
  constructor
  · have hdistinct : Sample.orderedWallet.Distinct := by unfold OrderWallet.Distinct; decide
    have hrun : Sample.orderedWallet.reorderTransactions (fun _ _ ↦ true) = some _ := rfl
    refine ((wellOrdered_iff hdistinct hrun).1 (by decide)).2 ⟨?_, ?_, ?_, ?_, ?_⟩ <;> decide
  · have hdistinct : Sample.gaplessWallet.Distinct := by unfold OrderWallet.Distinct; decide
    have hrun : Sample.gaplessWallet.reorderTransactions (fun _ _ ↦ true) = some _ := rfl
    have hgapless : Gapless Sample.gaplessWallet.txByTime := by
      intro item hitem q hq hlt
      have hall : ∀ item ∈ Sample.gaplessWallet.txByTime, item.nOrderPos ≤ 1 := by decide
      have hle := hall item hitem
      obtain rfl : q = 0 := by omega
      exact ⟨_, List.mem_cons_self, rfl⟩
    refine ((wellOrdered_iff hdistinct hrun).2 hgapless).2 ⟨by decide, ?_, ?_, ?_, ?_, ?_⟩ <;> decide

/-- The second of two new positions is also that of the transaction that is shifted once. -/
theorem not_wellOrdered_colliding : Sample.collidingWallet.Distinct ∧
    ∃ rows nOrderPosNext,
      Sample.collidingWallet.reorderTransactions (fun _ _ ↦ true) = some (rows, nOrderPosNext) ∧
        rows.map Prod.snd = [0, 1, 1] ∧ ¬ WellOrdered rows nOrderPosNext := by
  refine ⟨by unfold OrderWallet.Distinct; decide, _, _, rfl, rfl, fun h ↦ ?_⟩
  exact absurd h.nodup (by decide)

end Bws
