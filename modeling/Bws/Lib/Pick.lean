import Mathlib

/-!
# Picking from a sorted list

A list is scanned for the element of the lowest score that is not used.  Elements may be late, and what
follows a late element is late too; a late element is picked only when nothing has been found before it.
So the pick is the lowest of those in time, or else the first that is not used (`pick_spec`).
-/

universe u v

namespace Pick

variable {α : Type u} {β : Type v} [LinearOrder β] (late used : α → Prop) [DecidablePred late]
  [DecidablePred used] (score : α → β)

/-- The scan, with the best element so far. -/
def scan : Option α → List α → Option α
  | best, [] => best
  | none, a :: l => if used a then scan none l else scan (some a) l
  | some b, a :: l =>
    if late a then some b
    else if used a then scan (some b) l
    else if score a < score b then scan (some a) l
    else scan (some b) l

/-- What is picked from a list. -/
structure IsPick (l : List α) (b : α) : Prop where
  mem : b ∈ l
  unused : ¬ used b
  /-- among those in time it is the lowest -/
  lowest : ∀ a ∈ l, ¬ used a → ¬ late a → ¬ late b ∧ score b ≤ score a
  /-- when all are late it is the first -/
  first : late b → ∃ before after, l = before ++ b :: after ∧ ∀ a ∈ before, used a

variable {late used score}

variable (score) in
/-- A scan that has found something in time goes on to the lowest. -/
theorem scan_some_spec {l : List α} : ∀ {b : α}, ¬ late b → ¬ used b →
    l.Pairwise (fun a a' ↦ late a → late a') → ∃ b', scan late used score (some b) l = some b' ∧
      (b' = b ∨ b' ∈ l) ∧ ¬ used b' ∧ ¬ late b' ∧ score b' ≤ score b ∧
        ∀ a ∈ l, ¬ used a → ¬ late a → score b' ≤ score a := by
  induction l with
  | nil =>
    intro b hlate hused _
    exact ⟨b, rfl, .inl rfl, hused, hlate, le_rfl, fun _ h ↦ absurd h List.not_mem_nil⟩
  | cons a l ih =>
    intro b hlate hused hsorted
    rw [List.pairwise_cons] at hsorted
    by_cases ha : late a
    · refine ⟨b, if_pos ha, .inl rfl, hused, hlate, le_rfl, fun a' ha' _ hnot ↦ absurd ?_ hnot⟩
      rcases List.mem_cons.mp ha' with rfl | hmem
      · exact ha
      · exact hsorted.1 a' hmem ha
    · by_cases hu : used a
      · obtain ⟨b', hscan, hmem, hrest, hlate', hle, hlow⟩ := ih hlate hused hsorted.2
        refine ⟨b', ?_, hmem.imp_right (List.mem_cons_of_mem a), hrest, hlate', hle, ?_⟩
        · rw [scan, if_neg ha, if_pos hu, hscan]
        · exact List.forall_mem_cons.mpr ⟨fun h ↦ absurd hu h, hlow⟩
      · by_cases hlt : score a < score b
        · obtain ⟨b', hscan, hmem, hrest, hlate', hle, hlow⟩ := ih ha hu hsorted.2
          refine ⟨b', ?_, .inr (List.mem_cons.mpr hmem), hrest, hlate', hle.trans hlt.le, ?_⟩
          · rw [scan, if_neg ha, if_neg hu, if_pos hlt, hscan]
          · exact List.forall_mem_cons.mpr ⟨fun _ _ ↦ hle, hlow⟩
        · obtain ⟨b', hscan, hmem, hrest, hlate', hle, hlow⟩ := ih hlate hused hsorted.2
          refine ⟨b', ?_, hmem.imp_right (List.mem_cons_of_mem a), hrest, hlate', hle, ?_⟩
          · rw [scan, if_neg ha, if_neg hu, if_neg hlt, hscan]
          · exact List.forall_mem_cons.mpr ⟨fun _ _ ↦ hle.trans (not_lt.mp hlt), hlow⟩

/-- A scan that has found something late stops. -/
theorem scan_some_of_late {l : List α} (b : α) (h : ∀ a ∈ l, late a) :
    scan late used score (some b) l = some b := by
  cases l with
  | nil => rfl
  | cons a l => exact if_pos (h a List.mem_cons_self)

variable (score) in
/-- Something is picked as long as not everything is used. -/
theorem pick_spec {l : List α} (hsorted : l.Pairwise fun a a' ↦ late a → late a')
    (hunused : ∃ a ∈ l, ¬ used a) :
    ∃ b, scan late used score none l = some b ∧ IsPick late used score l b := by
  induction l with
  | nil =>
    obtain ⟨a, ha, -⟩ := hunused
    exact absurd ha List.not_mem_nil
  | cons a l ih =>
    rw [List.pairwise_cons] at hsorted
    by_cases hu : used a
    · obtain ⟨c, hc, hnot⟩ := hunused
      have hmem : c ∈ l := (List.mem_cons.mp hc).resolve_left fun heq ↦ hnot (heq ▸ hu)
      obtain ⟨b, hscan, hpick⟩ := ih hsorted.2 ⟨c, hmem, hnot⟩
      refine ⟨b, ?_, List.mem_cons_of_mem a hpick.mem, hpick.unused, ?_, fun hlate ↦ ?_⟩
      · rw [scan, if_pos hu, hscan]
      · exact List.forall_mem_cons.mpr ⟨fun h ↦ absurd hu h, hpick.lowest⟩
      · obtain ⟨before, after, rfl, hbefore⟩ := hpick.first hlate
        exact ⟨a :: before, after, rfl, List.forall_mem_cons.mpr ⟨hu, hbefore⟩⟩
    · by_cases hlate : late a
      · have hall := fun c hc ↦ hsorted.1 c hc hlate
        refine ⟨a, ?_, List.mem_cons_self, hu, ?_, fun _ ↦ ⟨[], l, rfl, ?_⟩⟩
        · rw [scan, if_neg hu, scan_some_of_late a hall]
        · exact List.forall_mem_cons.mpr ⟨fun _ h ↦ absurd hlate h, fun c hc _ h ↦
            absurd (hall c hc) h⟩
        · exact fun _ h ↦ absurd h List.not_mem_nil
      · obtain ⟨b, hscan, hmem, hrest, hlate', hle, hlow⟩ := scan_some_spec score hlate hu hsorted.2
        refine ⟨b, ?_, List.mem_cons.mpr hmem, hrest, ?_, fun h ↦ absurd h hlate'⟩
        · rw [scan, if_neg hu, hscan]
        · exact List.forall_mem_cons.mpr ⟨fun _ _ ↦ ⟨hlate', hle⟩, fun c hc hused hin ↦
            ⟨hlate', hlow c hc hused hin⟩⟩

end Pick
