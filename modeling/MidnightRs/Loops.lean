import Mathlib.Algebra.BigOperators.Group.List.Basic
import Mathlib.Algebra.Order.Ring.Nat

/-!
Early-exit loops and labelled runs, over arbitrary types.
A loop body answers each input by going round again or by leaving, and a run
strings together the steps of a labelled transition relation. Both come with
one induction rule, so that an invariant of a long execution is always reduced
to a statement about a single pass or a single step.
-/
namespace MidnightRs.Loops

variable {S R E : Type*}

/-- What one pass through a loop body decides. -/
inductive Pass (S R : Type*) where
  | again (s : S)
  | leave (r : R)
deriving DecidableEq

namespace Pass

/-- The states a body continues with satisfy `inv`; the values it leaves with
satisfy `post`. -/
def Holds (inv : S → Prop) (post : R → Prop) : Pass S R → Prop
  | .again s => inv s
  | .leave r => post r

@[simp] theorem holds_again (inv : S → Prop) (post : R → Prop) (s : S) :
    (Pass.again s : Pass S R).Holds inv post ↔ inv s := Iff.rfl

@[simp] theorem holds_leave (inv : S → Prop) (post : R → Prop) (r : R) :
    (Pass.leave r : Pass S R).Holds inv post ↔ post r := Iff.rfl

theorem holds_ite (inv : S → Prop) (post : R → Prop) (c : Prop) [Decidable c]
    (p q : Pass S R) :
    (if c then p else q).Holds inv post ↔
      (c → p.Holds inv post) ∧ (¬ c → q.Holds inv post) := by
  by_cases hc : c <;> simp [hc]

theorem Holds.mono {inv inv' : S → Prop} {post post' : R → Prop} {p : Pass S R}
    (h : p.Holds inv post) (hinv : ∀ s, inv s → inv' s) (hpost : ∀ r, post r → post' r) :
    p.Holds inv' post' := by
  cases p with
  | again s => exact hinv s h
  | leave r => exact hpost r h

theorem Holds.and {inv inv' : S → Prop} {post post' : R → Prop} {p : Pass S R}
    (h : p.Holds inv post) (h' : p.Holds inv' post') :
    p.Holds (fun s => inv s ∧ inv' s) (fun r => post r ∧ post' r) := by
  cases p with
  | again s => exact ⟨h, h'⟩
  | leave r => exact ⟨h, h'⟩

end Pass

/-- Feeds the inputs to the body until it leaves. -/
def loop (body : S → E → Pass S R) : S → List E → Pass S R
  | s, [] => .again s
  | s, e :: es =>
    match body s e with
    | .again s' => loop body s' es
    | .leave r => .leave r

@[simp] theorem loop_nil (body : S → E → Pass S R) (s : S) : loop body s [] = .again s := rfl

theorem loop_cons_holds (body : S → E → Pass S R) (inv : S → Prop) (post : R → Prop) (s : S)
    (e : E) (es : List E)
    (h : (body s e).Holds (fun s' => (loop body s' es).Holds inv post) post) :
    (loop body s (e :: es)).Holds inv post := by
  unfold loop
  cases hb : body s e with
  | again s' =>
    rw [hb] at h
    exact h
  | leave r =>
    rw [hb] at h
    exact h

/-- The loop rule: an invariant of every pass over an input is an invariant of
the loop. -/
theorem loop_holds_of_mem (body : S → E → Pass S R) (inv : S → Prop) (post : R → Prop)
    (s : S) (es : List E) (hbody : ∀ e ∈ es, ∀ s, inv s → (body s e).Holds inv post) (hs : inv s) :
    (loop body s es).Holds inv post := by
  induction es generalizing s with
  | nil => exact hs
  | cons e es ih =>
    refine loop_cons_holds body inv post s e es ?_
    refine (hbody e (by simp) s hs).mono (fun s' hs' => ?_) (fun _ hr => hr)
    exact ih s' (fun x hx => hbody x (by simp [hx])) hs'

theorem loop_holds (body : S → E → Pass S R) (inv : S → Prop) (post : R → Prop)
    (hbody : ∀ s e, inv s → (body s e).Holds inv post) (s : S) (es : List E) (hs : inv s) :
    (loop body s es).Holds inv post :=
  loop_holds_of_mem body inv post s es (fun e _ s => hbody s e) hs

section Logging

/-- The body, keeping a log of the inputs it has taken. -/
def logged (body : S → E → Pass S R) : S × List E → E → Pass (S × List E) (R × List E)
  | (s, log), e =>
    match body s e with
    | .again s' => .again (s', log ++ [e])
    | .leave r => .leave (r, log ++ [e])

theorem logged_holds (body : S → E → Pass S R) (inv : S × List E → Prop)
    (post : R × List E → Prop) (s : S) (log : List E) (e : E) :
    (logged body (s, log) e).Holds inv post ↔
      (body s e).Holds (fun s' => inv (s', log ++ [e])) (fun r => post (r, log ++ [e])) := by
  cases hb : body s e with
  | again s' =>
    have hlog : logged body (s, log) e = .again (s', log ++ [e]) := by simp only [logged, hb]
    rw [hlog]
    rfl
  | leave r =>
    have hlog : logged body (s, log) e = .leave (r, log ++ [e]) := by simp only [logged, hb]
    rw [hlog]
    rfl

/-- A value with the log kept beside it. -/
def Pass.forget {L : Type*} : Pass (S × L) (R × L) → Pass S R
  | .again s => .again s.1
  | .leave r => .leave r.1

theorem loop_logged (body : S → E → Pass S R) (s : S) (log es : List E) :
    (loop (logged body) (s, log) es).forget = loop body s es := by
  induction es generalizing s log with
  | nil => rfl
  | cons e es ih =>
    cases hb : body s e with
    | again s' =>
      have hlog : logged body (s, log) e = .again (s', log ++ [e]) := by simp only [logged, hb]
      simp only [loop, hlog, hb]
      exact ih s' (log ++ [e])
    | leave r =>
      have hlog : logged body (s, log) e = .leave (r, log ++ [e]) := by simp only [logged, hb]
      simp only [loop, hlog, hb]
      rfl

end Logging

section Passes

/-- The states in which the body runs, with the inputs that it takes there. -/
def passes (body : S → E → Pass S R) : S → List E → List (S × E)
  | _, [] => []
  | s, e :: es =>
    (s, e) ::
      match body s e with
      | .again s' => passes body s' es
      | .leave _ => []

theorem passes_take (body : S → E → Pass S R) (s : S) (es : List E) (n : ℕ) :
    passes body s (es.take n) = (passes body s es).take n := by
  induction es generalizing s n with
  | nil => simp [passes]
  | cons e es ih =>
    cases n with
    | zero => rfl
    | succ n =>
      simp only [List.take_succ_cons, passes]
      cases body s e with
      | again s' => simp only [ih s' n]
      | leave r => simp

/-- The passes after the first ones are those from the state in between. -/
theorem passes_split (body : S → E → Pass S R) (inv : S → Prop)
    (hstep : ∀ s e s', inv s → body s e = .again s' → inv s') {s : S} {es : List E}
    {pre post : List (S × E)} (hs : inv s) (h : passes body s es = pre ++ post) :
    post = [] ∨ ∃ s' es', inv s' ∧ post = passes body s' es' := by
  induction pre generalizing s es with
  | nil => exact Or.inr ⟨s, es, hs, h.symm⟩
  | cons p pre ih =>
    cases es with
    | nil => cases h
    | cons e es =>
      simp only [passes, List.cons_append, List.cons.injEq] at h
      obtain ⟨-, hrest⟩ := h
      cases hbody : body s e with
      | again s' =>
        rw [hbody] at hrest
        exact ih (hstep s e s' hs hbody) hrest
      | leave r =>
        rw [hbody] at hrest
        exact Or.inl (List.append_eq_nil_iff.mp hrest.symm).2

/-- Passes that each spend one from a budget, which they may refill, are at most
what the budget held and got. -/
theorem passes_length_le (body : S → E → Pass S R) (inv : S → Prop) (budget : S → ℕ)
    (gain : S × E → ℕ)
    (hstep : ∀ s e s', inv s → body s e = .again s' →
      inv s' ∧ budget s' + 1 ≤ budget s + gain (s, e)) (s : S) (es : List E) (hs : inv s) :
    (passes body s es).length ≤ budget s + ((passes body s es).map gain).sum + 1 := by
  induction es generalizing s with
  | nil => simp [passes]
  | cons e es ih =>
    simp only [passes, List.length_cons, List.map_cons, List.sum_cons]
    cases hbody : body s e with
    | again s' =>
      obtain ⟨hinv, hbudget⟩ := hstep s e s' hs hbody
      have hrest := ih s' hinv
      simp only
      omega
    | leave r =>
      simp only [List.length_nil, List.map_nil, List.sum_nil]
      omega

/-- The same for passes in a row, wherever they begin. -/
theorem passes_infix_length_le (body : S → E → Pass S R) (inv : S → Prop) (budget : S → ℕ)
    (gain : S × E → ℕ) (bound : ℕ)
    (hstep : ∀ s e s', inv s → body s e = .again s' →
      inv s' ∧ budget s' + 1 ≤ budget s + gain (s, e))
    (hbound : ∀ s, budget s ≤ bound) {s : S} {es : List E} (hs : inv s)
    {pre mid post : List (S × E)} (h : passes body s es = pre ++ mid ++ post) :
    mid.length ≤ bound + (mid.map gain).sum + 1 := by
  rw [List.append_assoc] at h
  rcases passes_split body inv (fun s e s' hs hb => (hstep s e s' hs hb).1) hs h with
    hnil | ⟨s', es', hs', hpasses⟩
  · simp [(List.append_eq_nil_iff.mp hnil).1]
  · have hmid : mid = passes body s' (es'.take mid.length) := by
      rw [passes_take, ← hpasses, List.take_left]
    have hlength := passes_length_le body inv budget gain hstep s' (es'.take mid.length) hs'
    rw [← hmid] at hlength
    have hs'' := hbound s'
    omega

/-- The loop rule beside a ghost that each pass moves on. -/
theorem loop_ghost {G : Type*} (body : S → E → Pass S R) (next : G → S × E → G)
    (inv : G → S → Prop) (post : G → R → Prop) (g : G) (s : S) (es : List E)
    (hstep : ∀ p ∈ passes body s es, ∀ g, inv g p.1 →
      (body p.1 p.2).Holds (inv (next g p)) (post (next g p))) (hs : inv g s) :
    (loop body s es).Holds (inv ((passes body s es).foldl next g))
      (post ((passes body s es).foldl next g)) := by
  induction es generalizing s g with
  | nil => exact hs
  | cons e es ih =>
    simp only [loop, passes, List.foldl_cons] at hstep ⊢
    have hpass := hstep (s, e) List.mem_cons_self g hs
    cases hbody : body s e with
    | again s' =>
      rw [hbody] at hpass
      simp only [hbody] at hstep ⊢
      exact ih _ s' (fun p hp => hstep p (List.mem_cons_of_mem _ hp)) hpass
    | leave r =>
      rw [hbody] at hpass
      exact hpass

theorem foldl_add_gain {α : Type*} (gain : α → ℕ) (ps : List α) (n : ℕ) :
    ps.foldl (fun n p => n + gain p) n = n + (ps.map gain).sum := by
  induction ps generalizing n with
  | nil => rfl
  | cons p ps ih => rw [List.foldl_cons, ih, List.map_cons, List.sum_cons, Nat.add_assoc]

/-- A quantity that each pass raises by its gain at most, up to the value that
the body leaves with. -/
theorem loop_gain (body : S → E → Pass S R) (size : S → ℕ) (left : R → ℕ) (gain : S × E → ℕ)
    (hstep : ∀ s e, (body s e).Holds (fun s' => size s' ≤ size s + gain (s, e))
      (fun r => left r ≤ size s + gain (s, e))) (s : S) (es : List E) :
    (loop body s es).Holds (fun s' => size s' ≤ size s + ((passes body s es).map gain).sum)
      (fun r => left r ≤ size s + ((passes body s es).map gain).sum) := by
  have hloop := loop_ghost body (fun n p => n + gain p) (fun n s' => size s' ≤ n)
    (fun n r => left r ≤ n) (size s) s es (fun p _ n hn =>
      (hstep p.1 p.2).mono (fun s' h => Nat.le_trans h (Nat.add_le_add_right hn _))
        (fun r h => Nat.le_trans h (Nat.add_le_add_right hn _))) (Nat.le_refl _)
  rwa [foldl_add_gain] at hloop

end Passes

/-- Runs of a labelled transition relation. -/
inductive Run {S A : Type*} (step : S → A → S → Prop) : S → List A → S → Prop
  | nil (s : S) : Run step s [] s
  | cons {s s' s'' : S} {a : A} {as : List A} :
      step s a s' → Run step s' as s'' → Run step s (a :: as) s''

namespace Run

variable {A : Type*} {step : S → A → S → Prop}

/-- A property that every step keeps holds at the end of a run from a state
that has it. -/
theorem invariant (inv : S → Prop) (hstep : ∀ s a s', step s a s' → inv s → inv s')
    {s s' : S} {as : List A} (h : Run step s as s') (hs : inv s) : inv s' := by
  induction h with
  | nil => exact hs
  | cons ha _ ih => exact ih (hstep _ _ _ ha hs)

end Run

end MidnightRs.Loops
