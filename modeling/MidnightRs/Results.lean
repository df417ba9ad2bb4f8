import Mathlib.Data.List.Forall2

/-!
Computations that return a value or an error: what is known of the parts when the
whole returns a value.
-/
namespace MidnightRs.Results

variable {ε α β : Type*}

theorem bind_ok_iff {x : Except ε α} {f : α → Except ε β} {b : β} :
    x.bind f = .ok b ↔ ∃ a, x = .ok a ∧ f a = .ok b := by
  cases x with
  | error e => exact ⟨fun h => (by cases h), fun ⟨a, h, _⟩ => (by cases h)⟩
  | ok a => exact ⟨fun h => ⟨a, rfl, h⟩, fun ⟨a', h, hf⟩ => (by cases h; exact hf)⟩

/-- Each part of a sequence that returns a value has returned one. -/
theorem exists_of_bind {ε α β : Type} {x : Except ε α} {f : α → Except ε β} {b : β}
    (h : (x >>= f) = .ok b) : ∃ a, x = .ok a ∧ f a = .ok b :=
  bind_ok_iff.mp h

theorem map_ok_iff {x : Except ε α} {f : α → β} {b : β} :
    x.map f = .ok b ↔ ∃ a, x = .ok a ∧ f a = b := by
  cases x with
  | error e => exact ⟨fun h => (by cases h), fun ⟨a, h, _⟩ => (by cases h)⟩
  | ok a =>
    exact ⟨fun h => ⟨a, rfl, Except.ok.inj h⟩, fun ⟨a', h, hf⟩ => (by cases h; exact hf ▸ rfl)⟩

theorem mapError_ok {ε' : Type*} {x : Except ε α} {g : ε → ε'} {a : α}
    (h : x.mapError g = .ok a) : x = .ok a := by
  cases x with
  | error e => cases h
  | ok b =>
    cases h
    rfl

section Lists

variable {ε ε' α β : Type} {f : α → Except ε β} {g : β → Except ε' α}

/-- A list is converted element by element. -/
theorem mapM_ok_iff {xs : List α} {ys : List β} :
    xs.mapM f = .ok ys ↔ List.Forall₂ (fun x y => f x = .ok y) xs ys := by
  induction xs generalizing ys with
  | nil =>
    rw [List.mapM_nil, List.forall₂_nil_left_iff]
    exact ⟨fun h => (Except.ok.inj h).symm, fun h => h ▸ rfl⟩
  | cons x xs ih =>
    rw [List.mapM_cons, List.forall₂_cons_left_iff]
    constructor
    · intro h
      obtain ⟨y, hy, h⟩ := exists_of_bind h
      obtain ⟨ys', hys, h⟩ := exists_of_bind h
      exact ⟨y, ys', hy, ih.mp hys, (Except.ok.inj h).symm⟩
    · rintro ⟨y, ys', hy, hys, rfl⟩
      rw [hy, ih.mpr hys]
      rfl

theorem mapM_total (h : ∀ x, ∃ y, f x = .ok y) (xs : List α) : ∃ ys, xs.mapM f = .ok ys := by
  induction xs with
  | nil => exact ⟨[], rfl⟩
  | cons x xs ih =>
    obtain ⟨y, hy⟩ := h x
    obtain ⟨ys, hys⟩ := ih
    refine ⟨y :: ys, ?_⟩
    rw [List.mapM_cons, hy, hys]
    rfl

/-- What undoes each conversion undoes that of a list. -/
theorem mapM_inverse (h : ∀ x y, f x = .ok y → g y = .ok x) {xs : List α} {ys : List β}
    (hxs : xs.mapM f = .ok ys) : ys.mapM g = .ok xs :=
  mapM_ok_iff.mpr (List.Forall₂.flip ((mapM_ok_iff.mp hxs).imp h))

/-- One element that has no conversion fails the list. -/
theorem mapM_error {xs : List α} {x : α} (hx : x ∈ xs) (h : ∀ y, f x ≠ .ok y) (ys : List β) :
    xs.mapM f ≠ .ok ys := by
  intro hys
  induction mapM_ok_iff.mp hys with
  | nil => cases hx
  | @cons x' y' xs' ys' hx' hrest ih =>
    rcases List.mem_cons.mp hx with rfl | hmem
    · exact h _ hx'
    · exact ih hmem (mapM_ok_iff.mpr hrest)

end Lists

end MidnightRs.Results
