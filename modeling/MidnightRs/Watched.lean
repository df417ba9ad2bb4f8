import Mathlib.Data.List.Basic

/-!
Computations over a state that others can look at after every write, and that may end
with an error at any point. What is kept holds of every state that is seen, not only of
the one that is left.
-/
namespace MidnightRs.Watched

variable {σ ε α β : Type}

/-- The states that were seen, the one that is left and the result. -/
structure Outcome (σ ε α : Type) where
  seen : List σ
  last : σ
  result : Except ε α

def Program (σ ε α : Type) : Type := σ → Outcome σ ε α

/-- Goes on after a value; an error ends the computation. -/
def andThen (o : Outcome σ ε α) (f : α → Program σ ε β) : Outcome σ ε β :=
  match o.result with
  | .error e => ⟨o.seen, o.last, .error e⟩
  | .ok a => ⟨o.seen ++ (f a o.last).seen, (f a o.last).last, (f a o.last).result⟩

/-- Goes on after an error, from the state that is left. -/
def orElse (o : Outcome σ ε α) (f : ε → Program σ ε α) : Outcome σ ε α :=
  match o.result with
  | .ok a => ⟨o.seen, o.last, .ok a⟩
  | .error e => ⟨o.seen ++ (f e o.last).seen, (f e o.last).last, (f e o.last).result⟩

instance programMonad : Monad (Program σ ε) where
  pure a := fun s => ⟨[], s, .ok a⟩
  bind x f := fun s => andThen (x s) f

def read : Program σ ε σ := fun s => ⟨[], s, .ok s⟩

def write (s : σ) : Program σ ε Unit := fun _ => ⟨[s], s, .ok ()⟩

def fail (e : ε) : Program σ ε α := fun s => ⟨[], s, .error e⟩

def recover (x : Program σ ε α) (f : ε → Program σ ε α) : Program σ ε α := fun s => orElse (x s) f

/-- From the state `s` on, every state that is seen keeps the invariant; a value and an
error each come with what holds of the state that is left. -/
structure Goes (inv : σ → Prop) (post : α → σ → Prop) (err : ε → σ → Prop) (x : Program σ ε α)
    (s : σ) : Prop where
  seen : ∀ s' ∈ (x s).seen, inv s'
  ok : ∀ a, (x s).result = .ok a → post a (x s).last
  error : ∀ e, (x s).result = .error e → err e (x s).last

variable {inv inv' : σ → Prop} {post post' : α → σ → Prop} {err err' : ε → σ → Prop} {s : σ}

theorem Goes.mono {x : Program σ ε α} (h : Goes inv post err x s) (hinv : ∀ s, inv s → inv' s)
    (hpost : ∀ a s, post a s → post' a s) (herr : ∀ e s, err e s → err' e s) :
    Goes inv' post' err' x s :=
  ⟨fun s' hs' => hinv s' (h.seen s' hs'), fun a ha => hpost a _ (h.ok a ha),
    fun e he => herr e _ (h.error e he)⟩

theorem goes_pure {a : α} (h : post a s) : Goes inv post err (pure a : Program σ ε α) s := by
  refine ⟨fun s' hs' => (by cases hs'), fun b hb => ?_, fun e he => (by cases he)⟩
  obtain rfl := Except.ok.inj hb
  exact h

theorem goes_fail {e : ε} (h : err e s) : Goes inv post err (fail e : Program σ ε α) s := by
  refine ⟨fun s' hs' => (by cases hs'), fun a ha => (by cases ha), fun e' he => ?_⟩
  obtain rfl := Except.error.inj he
  exact h

theorem goes_read {post : σ → σ → Prop} (h : post s s) :
    Goes inv post err (read : Program σ ε σ) s := by
  refine ⟨fun s' hs' => (by cases hs'), fun a ha => ?_, fun e he => (by cases he)⟩
  obtain rfl := Except.ok.inj ha
  exact h

theorem goes_write {post : Unit → σ → Prop} {s' : σ} (hinv : inv s') (h : post () s') :
    Goes inv post err (write s' : Program σ ε Unit) s := by
  refine ⟨fun s'' hs'' => ?_, fun a _ => h, fun e he => (by cases he)⟩
  obtain rfl := List.mem_singleton.mp hs''
  exact hinv

/-- The rule of sequence. -/
theorem goes_bind {x : Program σ ε α} {f : α → Program σ ε β} {mid : α → σ → Prop}
    {post : β → σ → Prop} (hx : Goes inv mid err x s)
    (hf : ∀ a s', mid a s' → Goes inv post err (f a) s') : Goes inv post err (x >>= f) s := by
  change Goes inv post err (fun s => andThen (x s) f) s
  cases hr : (x s).result with
  | error e =>
    have hx' : andThen (x s) f = ⟨(x s).seen, (x s).last, .error e⟩ := by simp only [andThen, hr]
    refine ⟨?_, ?_, ?_⟩
    · simp only [hx']
      exact hx.seen
    · simp only [hx']
      exact fun a ha => (by cases ha)
    · simp only [hx']
      intro e' he
      obtain rfl := Except.error.inj he
      exact hx.error e hr
  | ok a =>
    have hx' : andThen (x s) f = ⟨(x s).seen ++ (f a (x s).last).seen, (f a (x s).last).last,
        (f a (x s).last).result⟩ := by simp only [andThen, hr]
    have hrest := hf a _ (hx.ok a hr)
    refine ⟨?_, ?_, ?_⟩
    · simp only [hx']
      intro s' hs'
      rcases List.mem_append.mp hs' with h | h
      · exact hx.seen s' h
      · exact hrest.seen s' h
    · simp only [hx']
      exact hrest.ok
    · simp only [hx']
      exact hrest.error

/-- An error that is caught: what its handler does is up to the handler. -/
theorem goes_recover {x : Program σ ε α} {f : ε → Program σ ε α} {mid : ε → σ → Prop}
    (hx : Goes inv post mid x s) (hf : ∀ e s', mid e s' → Goes inv post err (f e) s') :
    Goes inv post err (recover x f) s := by
  change Goes inv post err (fun s => orElse (x s) f) s
  cases hr : (x s).result with
  | ok a =>
    have hx' : orElse (x s) f = ⟨(x s).seen, (x s).last, .ok a⟩ := by simp only [orElse, hr]
    refine ⟨?_, ?_, ?_⟩
    · simp only [hx']
      exact hx.seen
    · simp only [hx']
      intro b hb
      obtain rfl := Except.ok.inj hb
      exact hx.ok a hr
    · simp only [hx']
      exact fun e he => (by cases he)
  | error e =>
    have hx' : orElse (x s) f = ⟨(x s).seen ++ (f e (x s).last).seen, (f e (x s).last).last,
        (f e (x s).last).result⟩ := by simp only [orElse, hr]
    have hrest := hf e _ (hx.error e hr)
    refine ⟨?_, ?_, ?_⟩
    · simp only [hx']
      intro s' hs'
      rcases List.mem_append.mp hs' with h | h
      · exact hx.seen s' h
      · exact hrest.seen s' h
    · simp only [hx']
      exact hrest.ok
    · simp only [hx']
      exact hrest.error

/-- A computation whose errors are impossible returns a value. -/
theorem Goes.returns {x : Program σ ε α} (h : Goes inv post err x s)
    (hno : ∀ e s, ¬ err e s) : ∃ a, (x s).result = .ok a ∧ post a (x s).last := by
  cases hr : (x s).result with
  | ok a => exact ⟨a, rfl, h.ok a hr⟩
  | error e => exact (hno e _ (h.error e hr)).elim

end MidnightRs.Watched
