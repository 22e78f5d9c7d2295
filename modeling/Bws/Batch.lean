import Bws.TxDB

/-!
# What a batch shows before it is committed

`Read` and `Exists` each look a key up in the open batch themselves.  `Read` agrees with the
database that the batch stands for.  `Exists` does not when the last pending operation on a key
erases it: it then asks the store, which still holds the key if it was there before the batch
(`shows_iff`).
-/

namespace Bws

open Overlay (Store Op EndsErased)

namespace CTxDB

/-- A sequence of calls of `Write` and `Erase`. -/
def recordAll (txdb : CTxDB) (ok : Bool) : List (Op DbKey.Value) → Option CTxDB
  | [] => some txdb
  | o :: ops => (txdb.record ok o).bind fun txdb ↦ txdb.recordAll ok ops

theorem recordAll_of_batch {ok : Bool} (ops : List (Op DbKey.Value)) :
    ∀ {pdb : Store DbKey.Value} {batch : List (Op DbKey.Value)},
      recordAll ⟨pdb, some batch⟩ ok ops = some ⟨pdb, some (batch ++ ops)⟩ := by
  induction ops with
  | nil =>
    intro pdb batch
    rw [List.append_nil]
    rfl
  | cons o ops ih =>
    intro pdb batch
    rw [recordAll, record_of_batch rfl, Option.bind_some, ih, List.append_assoc]
    rfl

/-- `t` and `t'` give the same answers about a key. -/
def Agree (t t' : CTxDB) (key : DbKey) : Prop :=
  t.read key = t'.read key ∧ t.contains key = t'.contains key

/-- What a database object shows of a key is what it shows once the batch is committed, and an abort
brings back what `before` shows. -/
def Shows (before t : CTxDB) (key : DbKey) : Prop :=
  (∃ t', t.txnCommit true = .ok (true, t') ∧ Agree t t' key) ∧ Agree t.txnAbort before key

theorem contains_eq_view (pdb : Store DbKey.Value) (batch : List (Op DbKey.Value)) (key : DbKey) :
    contains ⟨pdb, some batch⟩ key = (Overlay.applyAll pdb batch key).isSome ↔
      ¬ (EndsErased batch key ∧ (pdb key).isSome) := by
  rw [Overlay.applyAll_eq_scan, contains, ← Overlay.scan_eq_deleted_iff]
  dsimp only
  rcases Overlay.scan batch key with _ | _ | v
  · simp
  · simp
  · simp

/-- **What a batch shows.**  After any calls of `Write` and `Erase` in a batch, the database object
shows a key as the committed batch would, unless the last call on the key erases it and the store
holds it. -/
theorem shows_iff {before begun : CTxDB} (h : before.txnBegin = .ok begun) (ok : Bool)
    (ops : List (Op DbKey.Value)) (key : DbKey) :
    ∃ t, begun.recordAll ok ops = some t ∧
      (Shows before t key ↔ ¬ (EndsErased ops key ∧ (before.pdb key).isSome)) := by
  obtain ⟨pdb, activeBatch⟩ := before
  cases activeBatch with
  | some batch => cases h
  | none =>
    cases h
    refine ⟨⟨pdb, some ops⟩, recordAll_of_batch ops, ?_⟩
    have hread : read ⟨pdb, some ops⟩ key = Overlay.applyAll pdb ops key := read_eq_view _ _
    constructor
    · rintro ⟨⟨t', ht', -, hcontains⟩, -⟩
      cases ht'
      exact (contains_eq_view pdb ops key).mp hcontains
    · intro hshows
      exact ⟨⟨_, rfl, hread, (contains_eq_view pdb ops key).mpr hshows⟩, rfl, rfl⟩

/-- A database that holds one transaction. -/
def holding : CTxDB where
  pdb
    | .tx 1 => some ⟨⟨1, 9, 89⟩, []⟩
    | _ => none
  activeBatch := none

/-- A batch that writes another. -/
def writing : List (Op DbKey.Value) := [.put (.tx 2) ⟨⟨1, 209, 289⟩, []⟩]

theorem shows_iff_sample : ∃ t, recordAll ⟨holding.pdb, some []⟩ true writing = some t ∧
    (Shows holding t (.tx 2) ↔
      ¬ (EndsErased writing (.tx 2) ∧ (holding.pdb (.tx 2)).isSome)) :=
  shows_iff (show holding.txnBegin = .ok ⟨holding.pdb, some []⟩ from rfl) true writing (.tx 2)

/-- A transaction that the batch erases does not read back, but `Exists` still finds it. -/
theorem not_shows_of_erased : ∃ begun t, holding.txnBegin = .ok begun ∧
    begun.recordAll true [.delete (.tx 1)] = some t ∧ t.read (.tx 1) = none ∧
      t.contains (.tx 1) = true ∧ ¬ Shows holding t (.tx 1) := by
  refine ⟨⟨holding.pdb, some []⟩, ⟨holding.pdb, some [.delete (.tx 1)]⟩, rfl, rfl, rfl, rfl, ?_⟩
  rintro ⟨⟨t', ht', -, hcontains⟩, -⟩
  cases ht'
  cases hcontains

end CTxDB

end Bws
