import Mathlib.Logic.Basic

/-!
# Programs with a state and a way to fail

A program is an `EStateM ε σ α`: it reads and changes a state, and ends with a value or with an
error; an error does not undo what was changed.

Two kinds of reasoning are set up.  Inversion (`bind_eq_ok`, `bind_eq_error`) takes the
run of a sequence apart.  A *frame* `Keeps R x` says that however `x` ends, the state
it leaves is related by `R` to the one it found; frames compose (`Keeps.bind`, `Keeps.forEach`).
-/

namespace Exec

variable {ε σ α β : Type}

/-- The state in which a run ends. -/
def final : EStateM.Result ε σ α → σ
  | .ok _ s | .error _ s => s

@[simp] theorem final_ok (a : α) (s : σ) : final (.ok a s : EStateM.Result ε σ α) = s := rfl
@[simp] theorem final_error (e : ε) (s : σ) : final (.error e s : EStateM.Result ε σ α) = s := rfl

/-- The same result in another state. -/
def mapState (f : σ → σ) : EStateM.Result ε σ α → EStateM.Result ε σ α
  | .ok a s => .ok a (f s)
  | .error e s => .error e (f s)

@[simp] theorem final_mapState (f : σ → σ) (r : EStateM.Result ε σ α) :
    final (mapState f r) = f (final r) := by
  cases r <;> rfl

theorem mapState_eq_ok {f : σ → σ} {r : EStateM.Result ε σ α} {a : α} {s' : σ} :
    mapState f r = .ok a s' ↔ ∃ s, r = .ok a s ∧ s' = f s := by
  cases r with
  | ok b s =>
    constructor
    · rintro ⟨⟩
      exact ⟨s, rfl, rfl⟩
    · rintro ⟨_, ⟨⟩, rfl⟩
      rfl
  | error e s => simp [mapState]

/-- The error a run ends with. -/
def error? : EStateM.Result ε σ α → Option ε
  | .ok _ _ => none
  | .error e _ => some e

theorem eq_error_of_error? {r : EStateM.Result ε σ α} {e : ε} (h : error? r = some e) :
    r = .error e (final r) := by
  cases r with
  | ok a s => cases h
  | error e' s =>
    cases h
    rfl

theorem eq_ok_of_error? {r : EStateM.Result ε σ Unit} (h : error? r = none) :
    r = .ok () (final r) := by
  cases r with
  | ok a s => rfl
  | error e s => cases h

/-! ## Inversion -/

theorem bind_eq_ok {x : EStateM ε σ α} {f : α → EStateM ε σ β} {s s' : σ} {b : β} :
    (x >>= f) s = .ok b s' ↔ ∃ a s₁, x s = .ok a s₁ ∧ f a s₁ = .ok b s' := by
  change EStateM.bind x f s = _ ↔ _
  unfold EStateM.bind
  cases x s with
  | ok a s₁ =>
    constructor
    · exact fun h ↦ ⟨a, s₁, rfl, h⟩
    · rintro ⟨_, _, ⟨⟩, h⟩
      exact h
  | error e s₁ => simp

theorem bind_eq_error {x : EStateM ε σ α} {f : α → EStateM ε σ β} {s s' : σ} {e : ε} :
    (x >>= f) s = .error e s' ↔
      x s = .error e s' ∨ ∃ a s₁, x s = .ok a s₁ ∧ f a s₁ = .error e s' := by
  change EStateM.bind x f s = _ ↔ _
  unfold EStateM.bind
  cases x s with
  | ok a s₁ =>
    constructor
    · exact fun h ↦ Or.inr ⟨a, s₁, rfl, h⟩
    · rintro (⟨⟨⟩⟩ | ⟨_, _, ⟨⟩, h⟩)
      exact h
  | error e s₁ => simp

theorem bind_of_ok {x : EStateM ε σ α} {s s₁ : σ} {a : α} (h : x s = .ok a s₁)
    (f : α → EStateM ε σ β) : (x >>= f) s = f a s₁ := by
  change EStateM.bind x f s = _
  rw [EStateM.bind, h]

theorem bind_of_error {x : EStateM ε σ α} {s s₁ : σ} {e : ε} (h : x s = .error e s₁)
    (f : α → EStateM ε σ β) : (x >>= f) s = .error e s₁ := by
  change EStateM.bind x f s = _
  rw [EStateM.bind, h]

theorem final_bind_pure (x : EStateM ε σ α) (b : β) (s : σ) :
    final ((x >>= fun _ ↦ pure b) s) = final (x s) := by
  cases h : x s with
  | ok a s₁ =>
    rw [bind_of_ok h]
    rfl
  | error e s₁ =>
    rw [bind_of_error h]
    rfl

/-- Run `x` and say whether it succeeded; an error that `p` does not hold of goes on. -/
def caught (p : ε → Bool) (x : EStateM ε σ Unit) : EStateM ε σ Bool := fun s ↦
  match x s with
  | .ok _ s' => .ok true s'
  | .error e s' => if p e then .ok false s' else .error e s'

theorem caught_of_ok {p : ε → Bool} {x : EStateM ε σ Unit} {s s₁ : σ} (h : x s = .ok () s₁) :
    caught p x s = .ok true s₁ := by
  rw [caught, h]

theorem caught_of_error {p : ε → Bool} {x : EStateM ε σ Unit} {s s₁ : σ} {e : ε}
    (h : x s = .error e s₁) : caught p x s = if p e then .ok false s₁ else .error e s₁ := by
  rw [caught, h]

/-! ## Loops -/

/-- Run `f` on the elements of a list, one after the other. -/
def forEach (f : α → EStateM ε σ Unit) : List α → EStateM ε σ Unit
  | [] => pure ()
  | a :: l => f a >>= fun _ ↦ forEach f l

theorem forEach_cons_eq_ok {f : α → EStateM ε σ Unit} {a : α} {l : List α} {s s' : σ} :
    forEach f (a :: l) s = .ok () s' ↔ ∃ s₁, f a s = .ok () s₁ ∧ forEach f l s₁ = .ok () s' := by
  rw [forEach, bind_eq_ok]
  constructor
  · rintro ⟨⟨⟩, h⟩
    exact h
  · exact fun h ↦ ⟨(), h⟩

/-! ## Frames -/

/-- A relation that a sequence of steps keeps when each of them does. -/
class IsFrame (R : σ → σ → Prop) : Prop where
  refl : ∀ s, R s s
  trans : ∀ {s s' s''}, R s s' → R s' s'' → R s s''

/-- However `x` ends, the state it leaves is related to the one it found. -/
def Keeps (R : σ → σ → Prop) (x : EStateM ε σ α) : Prop := ∀ s, R s (final (x s))

namespace Keeps

variable {R : σ → σ → Prop} {x : EStateM ε σ α}

theorem ok (h : Keeps R x) {s s' : σ} {a : α} (hx : x s = .ok a s') : R s s' := by
  have := h s
  rwa [hx] at this

theorem error (h : Keeps R x) {s s' : σ} {e : ε} (hx : x s = .error e s') : R s s' := by
  have := h s
  rwa [hx] at this

theorem mono {R' : σ → σ → Prop} (h : ∀ s s', R s s' → R' s s') (hx : Keeps R x) : Keeps R' x :=
  fun s ↦ h _ _ (hx s)

section

variable [IsFrame R]

theorem of_final (h : ∀ s, final (x s) = s) : Keeps R x := fun s ↦ by
  rw [h]
  exact IsFrame.refl s

theorem pure (a : α) : Keeps R (Pure.pure a : EStateM ε σ α) := fun s ↦ IsFrame.refl s

theorem throw (e : ε) : Keeps R (EStateM.throw e : EStateM ε σ α) := fun s ↦ IsFrame.refl s

theorem bind (hx : Keeps R x) {f : α → EStateM ε σ β} (hf : ∀ a, Keeps R (f a)) :
    Keeps R (x >>= f) := by
  intro s
  have h₁ := hx s
  change R s (final (EStateM.bind x f s))
  unfold EStateM.bind
  cases hxs : x s with
  | ok a s₁ =>
    rw [hxs] at h₁
    exact IsFrame.trans h₁ (hf a s₁)
  | error e s₁ =>
    rw [hxs] at h₁
    exact h₁

end

/-- What follows a step changes the state that the step leaves only as `R` allows. -/
theorem final_bind [IsFrame R] {f : α → EStateM ε σ β} (hf : ∀ a, Keeps R (f a)) (s : σ) :
    R (final (x s)) (final ((x >>= f) s)) := by
  cases hxs : x s with
  | ok a s₁ =>
    rw [bind_of_ok hxs]
    exact hf a s₁
  | error e s₁ =>
    rw [bind_of_error hxs]
    exact IsFrame.refl s₁

theorem forEach [IsFrame R] {f : α → EStateM ε σ Unit} {l : List α}
    (h : ∀ a ∈ l, Keeps R (f a)) : Keeps R (Exec.forEach f l) := by
  induction l with
  | nil => exact Keeps.pure ()
  | cons a l ih =>
    exact (h a List.mem_cons_self).bind fun _ ↦ ih fun b hb ↦ h b (List.mem_cons_of_mem a hb)

theorem caught {p : ε → Bool} {x : EStateM ε σ Unit} (hx : Keeps R x) :
    Keeps R (Exec.caught p x) := by
  intro s
  have h₁ := hx s
  unfold Exec.caught
  cases hxs : x s with
  | ok a s₁ =>
    rw [hxs] at h₁
    exact h₁
  | error e s₁ =>
    rw [hxs] at h₁
    dsimp only
    split <;> exact h₁

end Keeps

end Exec
