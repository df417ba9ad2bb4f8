import Mathlib.Control.Monad.Basic

/-!
Computations over a state that may stop with an error, and what they keep. A
computation is kept to an invariant of the state, to a set of errors it may stop
with and to what holds of its value. One rule for each way that computations are
put together.
-/
namespace MidnightRs.Triples

variable {σ ε α β : Type}

abbrev Comp (σ ε α : Type) : Type := StateT σ (Except ε) α

/-- The outcome of a computation that starts in a state. -/
def Ends (allowed : ε → Prop) (inv : σ → Prop) (post : α → Prop) : Except ε (α × σ) → Prop
  | .ok (a, s) => post a ∧ inv s
  | .error e => allowed e

def Keeps (inv : σ → Prop) (allowed : ε → Prop) (m : Comp σ ε α) (post : α → Prop) : Prop :=
  ∀ s, inv s → Ends allowed inv post (m.run s)

/-- The computation stops with the error. -/
def stop (e : ε) : Comp σ ε α := fun _ => .error e

/-- The value of an operation that does not touch the state. -/
def lift (r : Except ε α) : Comp σ ε α := fun s => r.map (fun a => (a, s))

/-- Every element in turn, up to the first error. -/
def each (f : α → Comp σ ε β) : List α → Comp σ ε (List β)
  | [] => pure []
  | a :: as => do
    let b ← f a
    let bs ← each f as
    pure (b :: bs)

/-- A run to an error, from a state on. -/
def Stops (m : Comp σ ε α) (s : σ) (e : ε) : Prop := m.run s = .error e

variable {inv : σ → Prop} {allowed : ε → Prop}

theorem Keeps.mono {m : Comp σ ε α} {post post' : α → Prop} (h : Keeps inv allowed m post)
    (hpost : ∀ a, post a → post' a) : Keeps inv allowed m post' := by
  intro s hs
  have hend := h s hs
  cases hm : m.run s with
  | error e =>
    rw [hm] at hend
    exact hend
  | ok r =>
    rw [hm] at hend
    exact ⟨hpost r.1 hend.1, hend.2⟩

/-- An error that a kept computation stops with is an allowed one. -/
theorem Keeps.of_stops {m : Comp σ ε α} {post : α → Prop} (h : Keeps inv allowed m post) {s : σ}
    (hs : inv s) {e : ε} (hstop : Stops m s e) : allowed e := by
  have hend := h s hs
  rw [hstop] at hend
  exact hend

theorem keeps_pure {a : α} {post : α → Prop} (h : post a) :
    Keeps inv allowed (pure a : Comp σ ε α) post :=
  fun _ hs => ⟨h, hs⟩

theorem keeps_bind {m : Comp σ ε α} {f : α → Comp σ ε β} {mid : α → Prop} {post : β → Prop}
    (hm : Keeps inv allowed m mid) (hf : ∀ a, mid a → Keeps inv allowed (f a) post) :
    Keeps inv allowed (m >>= f) post := by
  intro s hs
  have hend := hm s hs
  rw [StateT.run_bind]
  cases hrun : m.run s with
  | error e =>
    rw [hrun] at hend
    exact hend
  | ok r =>
    rw [hrun] at hend
    exact hf r.1 hend.1 r.2 hend.2

theorem keeps_stop {e : ε} {post : α → Prop} (h : allowed e) :
    Keeps inv allowed (stop e : Comp σ ε α) post :=
  fun _ _ => h

theorem keeps_lift {r : Except ε α} {post : α → Prop} (hok : ∀ a, r = .ok a → post a)
    (herror : ∀ e, r = .error e → allowed e) : Keeps inv allowed (lift r : Comp σ ε α) post := by
  intro s hs
  cases r with
  | error e => exact herror e rfl
  | ok a => exact ⟨hok a rfl, hs⟩

/-- Reading the state shows what the invariant says of it. -/
theorem keeps_get {post : σ → Prop} (h : ∀ s, inv s → post s) :
    Keeps inv allowed (get : Comp σ ε σ) post :=
  fun s hs => ⟨h s hs, hs⟩

theorem keeps_modify {f : σ → σ} {post : Unit → Prop} (hpost : post ())
    (h : ∀ s, inv s → inv (f s)) : Keeps inv allowed (modify f : Comp σ ε Unit) post :=
  fun s hs => ⟨hpost, h s hs⟩

theorem keeps_ite {p : Prop} [Decidable p] {m m' : Comp σ ε α} {post : α → Prop}
    (h : p → Keeps inv allowed m post) (h' : ¬ p → Keeps inv allowed m' post) :
    Keeps inv allowed (if p then m else m') post := by
  by_cases hp : p
  · rw [if_pos hp]
    exact h hp
  · rw [if_neg hp]
    exact h' hp

/-- The values of the elements, one by one. -/
theorem keeps_each {f : α → Comp σ ε β} {post : β → Prop} (as : List α)
    (h : ∀ a ∈ as, Keeps inv allowed (f a) post) :
    Keeps inv allowed (each f as) (fun bs => ∀ b ∈ bs, post b) := by
  induction as with
  | nil => exact keeps_pure (fun b hb => by cases hb)
  | cons a as ih =>
    obtain ⟨ha, has⟩ := List.forall_mem_cons.mp h
    refine keeps_bind ha (fun b hb => keeps_bind (ih has) (fun bs hbs => keeps_pure ?_))
    exact List.forall_mem_cons.mpr ⟨hb, hbs⟩

section Runs

/-- A run to a value, from a state to a state. -/
def Runs (m : Comp σ ε α) (s : σ) (a : α) (t : σ) : Prop := m.run s = .ok (a, t)

/-- Each element in turn, with the state handed on. -/
inductive InTurn {σ α β : Type} (R : α → σ → β → σ → Prop) : List α → σ → List β → σ → Prop where
  | nil (s : σ) : InTurn R [] s [] s
  | cons {a : α} {as : List α} {b : β} {bs : List β} {s t u : σ} (ha : R a s b t)
      (has : InTurn R as t bs u) : InTurn R (a :: as) s (b :: bs) u

/-- The parts of a pair, one after the other. -/
inductive Both {σ α β α' β' : Type} (R : α → σ → β → σ → Prop) (R' : α' → σ → β' → σ → Prop) :
    α × α' → σ → β × β' → σ → Prop where
  | intro {a : α} {a' : α'} {b : β} {b' : β'} {s t u : σ} (ha : R a s b t) (ha' : R' a' t b' u) :
      Both R R' (a, a') s (b, b') u

variable {s t : σ}

theorem runs_pure_iff {a b : α} : Runs (pure a : Comp σ ε α) s b t ↔ b = a ∧ t = s := by
  constructor
  · intro h
    cases h
    exact ⟨rfl, rfl⟩
  · rintro ⟨rfl, rfl⟩
    rfl

theorem runs_bind_iff {m : Comp σ ε α} {f : α → Comp σ ε β} {b : β} :
    Runs (m >>= f) s b t ↔ ∃ a u, Runs m s a u ∧ Runs (f a) u b t := by
  unfold Runs
  rw [StateT.run_bind]
  cases hm : m.run s with
  | error e =>
    constructor
    · intro h
      cases h
    · rintro ⟨a, u, ha, -⟩
      cases ha
  | ok r =>
    constructor
    · exact fun h => ⟨r.1, r.2, rfl, h⟩
    · rintro ⟨a, u, ha, hb⟩
      cases ha
      exact hb

theorem not_runs_stop {e : ε} {a : α} : ¬ Runs (stop e : Comp σ ε α) s a t := by
  intro h
  cases h

theorem runs_lift_iff {r : Except ε α} {a : α} :
    Runs (lift r : Comp σ ε α) s a t ↔ r = .ok a ∧ t = s := by
  cases r with
  | error e =>
    constructor
    · intro h
      cases h
    · rintro ⟨h, -⟩
      cases h
  | ok a' =>
    constructor
    · intro h
      cases h
      exact ⟨rfl, rfl⟩
    · rintro ⟨h, rfl⟩
      cases h
      rfl

theorem runs_ite {p : Prop} [Decidable p] {m m' : Comp σ ε α} {a : α} :
    Runs (if p then m else m') s a t ↔ (p ∧ Runs m s a t) ∨ (¬ p ∧ Runs m' s a t) := by
  by_cases hp : p <;> simp [hp]

/-- The elements run in turn, each to what is known of its runs. -/
theorem runs_each {f : α → Comp σ ε β} {R : α → σ → β → σ → Prop} {as : List α} {bs : List β}
    (h : Runs (each f as) s bs t)
    (hall : ∀ a ∈ as, ∀ s b t, Runs (f a) s b t → R a s b t) : InTurn R as s bs t := by
  induction as generalizing s bs with
  | nil =>
    obtain ⟨rfl, rfl⟩ := runs_pure_iff.mp h
    exact .nil _
  | cons a as ih =>
    obtain ⟨ha, has⟩ := List.forall_mem_cons.mp hall
    obtain ⟨b, u, hb, hrest⟩ := runs_bind_iff.mp h
    obtain ⟨bs', v, hbs, hpure⟩ := runs_bind_iff.mp hrest
    obtain ⟨rfl, rfl⟩ := runs_pure_iff.mp hpure
    exact .cons (ha s b u hb) (ih hbs has)

variable {R : α → σ → β → σ → Prop}

theorem InTurn.forall {as : List α} {bs : List β} {P : α → Prop} (h : InTurn R as s bs t)
    (hall : ∀ a ∈ as, ∀ s b t, R a s b t → P a) : ∀ a ∈ as, P a := by
  induction h with
  | nil s => exact fun a ha => by cases ha
  | cons ha _ ih =>
    obtain ⟨hhead, htail⟩ := List.forall_mem_cons.mp hall
    exact List.forall_mem_cons.mpr ⟨hhead _ _ _ ha, ih htail⟩

/-- Elements that have one outcome each have one together. -/
theorem InTurn.unique {as : List α} {bs bs' : List β} {t' : σ} (h : InTurn R as s bs t)
    (h' : InTurn R as s bs' t')
    (hall : ∀ a ∈ as, ∀ s b t b' t', R a s b t → R a s b' t' → b = b' ∧ t = t') :
    bs = bs' ∧ t = t' := by
  induction h generalizing bs' with
  | nil s =>
    cases h'
    exact ⟨rfl, rfl⟩
  | cons ha _ ih =>
    obtain ⟨hhead, htail⟩ := List.forall_mem_cons.mp hall
    cases h' with
    | cons ha' has' =>
      obtain ⟨rfl, rfl⟩ := hhead _ _ _ _ _ ha ha'
      obtain ⟨rfl, rfl⟩ := ih has' htail
      exact ⟨rfl, rfl⟩

end Runs

end MidnightRs.Triples
