import MidnightRs.Triples

/-!
Two computations over a state, compared. A congruence is a relation between
computations that values, errors and sequencing respect, so that two computations of
one shape are compared part by part. Computations in step end alike from related
states; a computation approximates another one that ends alike wherever the first
one ends at all.
-/
namespace MidnightRs.Pairs

open Triples

variable {σ ε : Type}

abbrev Relation (σ ε : Type) : Type 1 := ∀ ⦃α : Type⦄, Comp σ ε α → Comp σ ε α → Prop

structure Congruence (rel : Relation σ ε) : Prop where
  value : ∀ {α : Type} (a : α), rel (pure a : Comp σ ε α) (pure a)
  error : ∀ {α : Type} (e : ε), rel (stop e : Comp σ ε α) (stop e)
  seq : ∀ {α β : Type} {m m' : Comp σ ε α} {f f' : α → Comp σ ε β},
    rel m m' → (∀ a, rel (f a) (f' a)) → rel (m >>= f) (m' >>= f')

section Rules

variable {rel : Relation σ ε} {α β : Type}

theorem rel_ite {p : Prop} [Decidable p] {m m' n n' : Comp σ ε α} (hm : p → rel m m')
    (hn : ¬ p → rel n n') : rel (if p then m else n) (if p then m' else n') := by
  by_cases hp : p
  · rw [if_pos hp, if_pos hp]
    exact hm hp
  · rw [if_neg hp, if_neg hp]
    exact hn hp

variable (h : Congruence rel)
include h

theorem Congruence.of_lift (r : Except ε α) : rel (lift r : Comp σ ε α) (lift r) := by
  cases r with
  | error e => exact h.error e
  | ok a => exact h.value a

theorem Congruence.each {f f' : α → Comp σ ε β} (as : List α) (hf : ∀ a ∈ as, rel (f a) (f' a)) :
    rel (each f as) (each f' as) := by
  induction as with
  | nil => exact h.value []
  | cons a as ih =>
    obtain ⟨ha, has⟩ := List.forall_mem_cons.mp hf
    exact h.seq ha (fun b => h.seq (ih has) (fun bs => h.value (b :: bs)))

end Rules

section InStep

/-- Both stop with one error, or give one value in related states. -/
def Paired {α : Type} (R : σ → σ → Prop) : Except ε (α × σ) → Except ε (α × σ) → Prop
  | .ok (a, s), .ok (a', s') => a = a' ∧ R s s'
  | .error e, .error e' => e = e'
  | _, _ => False

def InStep (R : σ → σ → Prop) : Relation σ ε :=
  fun _ m m' => ∀ s s', R s s' → Paired R (m.run s) (m'.run s')

variable {R : σ → σ → Prop} {α β : Type}

theorem Paired.isOk_eq {x x' : Except ε (α × σ)} (h : Paired R x x') : x.isOk = x'.isOk := by
  match x, x', h with
  | .ok _, .ok _, _ => exact rfl
  | .error _, .error _, _ => exact rfl

theorem Paired.bind {x x' : Except ε (α × σ)} {f f' : α → Comp σ ε β} (h : Paired R x x')
    (hf : ∀ a s s', R s s' → Paired R ((f a).run s) ((f' a).run s')) :
    Paired R (x >>= fun p => (f p.1).run p.2) (x' >>= fun p => (f' p.1).run p.2) := by
  match x, x', h with
  | .ok (a, s), .ok (_, s'), ⟨rfl, hs⟩ => exact hf a s s' hs
  | .error _, .error _, rfl => exact rfl

theorem inStep_congruence : Congruence (InStep R : Relation σ ε) where
  value _ := fun _ _ hs => ⟨rfl, hs⟩
  error _ := fun _ _ _ => rfl
  seq hm hf := fun s s' hs => (hm s s' hs).bind (fun a => hf a)

theorem inStep_modify {f f' : σ → σ} (h : ∀ s s', R s s' → R (f s) (f' s')) :
    InStep R (modify f : Comp σ ε Unit) (modify f') :=
  fun s s' hs => ⟨rfl, h s s' hs⟩

/-- What follows is compared with the state of each run at hand. -/
theorem inStep_get {f f' : σ → Comp σ ε α}
    (h : ∀ s s', R s s' → Paired R ((f s).run s) ((f' s').run s')) :
    InStep R (get >>= f) (get >>= f') :=
  fun s s' hs => h s s' hs

end InStep

section Approximates

/-- Every outcome but the bottom one is the outcome of the other computation. -/
def Approximates (bottom : ε) : Relation σ ε :=
  fun _ m m' => ∀ s, m.run s = .error bottom ∨ m'.run s = m.run s

variable {bottom : ε} {α β : Type}

theorem approximates_refl (m : Comp σ ε α) : Approximates bottom m m := fun _ => .inr rfl

theorem approximates_congruence : Congruence (Approximates bottom : Relation σ ε) where
  value a := approximates_refl _
  error e := approximates_refl _
  seq := by
    intro α β m m' f f' hm hf s
    rw [StateT.run_bind, StateT.run_bind]
    rcases hm s with hbottom | hsame
    · rw [hbottom]
      exact .inl rfl
    · rw [hsame]
      cases m.run s with
      | error e => exact .inr rfl
      | ok r => exact hf r.1 r.2

end Approximates

end MidnightRs.Pairs
