import Mathlib.Algebra.BigOperators.Group.List.Basic
import Mathlib.Tactic.Abel

/-!
Cancellable futures, over arbitrary answers and events. A future is what it does
on a script of polls: each await point takes the next poll, and a poll can drop
the future there. A guard holds something across the await points of a future
and hands it back when the future is cut short. The rules follow what is held
from one future to the next, so that every path hands it on or hands it back.
-/
namespace MidnightRs.Futures

/-- What an await point meets: its answer, the end of a deadline around it, or
the drop of the whole future. -/
inductive Poll (ρ : Type) where
  | ready (r : ρ)
  | elapsed
  | dropped
deriving DecidableEq

/-- Where a future stands once its script has run out. -/
inductive Outcome (α : Type) where
  | ready (a : α)
  | elapsed
  | dropped
  | pending
deriving DecidableEq

def Outcome.Ended {α : Type} : Outcome α → Prop
  | .pending => False
  | _ => True

structure Execution (ρ ε α : Type) where
  outcome : Outcome α
  rest : List (Poll ρ)
  log : List ε

def Execution.prepend {ρ ε α : Type} (log : List ε) (x : Execution ρ ε α) : Execution ρ ε α :=
  { x with log := log ++ x.log }

def Future (ρ ε α : Type) := List (Poll ρ) → Execution ρ ε α

namespace Future

variable {ρ ε α β E : Type}

/-- Completes with no await point. -/
def done (a : α) : Future ρ ε α := fun s => ⟨.ready a, s, []⟩

def andThen (f : Future ρ ε α) (k : α → Future ρ ε β) : Future ρ ε β := fun s =>
  match f s with
  | ⟨.ready a, s', log⟩ => (k a s').prepend log
  | ⟨.elapsed, s', log⟩ => ⟨.elapsed, s', log⟩
  | ⟨.dropped, s', log⟩ => ⟨.dropped, s', log⟩
  | ⟨.pending, s', log⟩ => ⟨.pending, s', log⟩

instance : Monad (Future ρ ε) where
  pure := done
  bind := andThen

def emit (e : ε) : Future ρ ε Unit := fun s => ⟨.ready (), s, [e]⟩

def await : Future ρ ε ρ
  | [] => ⟨.pending, [], []⟩
  | .ready r :: s => ⟨.ready r, s, []⟩
  | .elapsed :: s => ⟨.elapsed, s, []⟩
  | .dropped :: s => ⟨.dropped, s, []⟩

/-- Awaits again and again until an answer leads somewhere else. -/
def awaitUntil (next : ρ → List ε × Option (Future ρ ε α)) : Future ρ ε α
  | [] => ⟨.pending, [], []⟩
  | .ready r :: s =>
    match next r with
    | (log, none) => (awaitUntil next s).prepend log
    | (log, some f) => (f s).prepend log
  | .elapsed :: s => ⟨.elapsed, s, []⟩
  | .dropped :: s => ⟨.dropped, s, []⟩

/-- Runs `f` with a guard alive, whose drop emits `drops`. -/
def guarding (drops : List ε) (f : Future ρ ε α) : Future ρ ε α := fun s =>
  match f s with
  | ⟨.ready a, s', log⟩ => ⟨.ready a, s', log⟩
  | ⟨.elapsed, s', log⟩ => ⟨.elapsed, s', log ++ drops⟩
  | ⟨.dropped, s', log⟩ => ⟨.dropped, s', log ++ drops⟩
  | ⟨.pending, s', log⟩ => ⟨.pending, s', log⟩

/-- Bounds `f` by a deadline, which drops `f` when it passes. -/
def timeout (f : Future ρ ε α) : Future ρ ε (Option α) := fun s =>
  match f s with
  | ⟨.ready a, s', log⟩ => ⟨.ready (some a), s', log⟩
  | ⟨.elapsed, s', log⟩ => ⟨.ready none, s', log⟩
  | ⟨.dropped, s', log⟩ => ⟨.dropped, s', log⟩
  | ⟨.pending, s', log⟩ => ⟨.pending, s', log⟩

/-- Goes on with the value of a fallible future, and passes its error through. -/
def onOk (f : Future ρ ε (Except E α)) (k : α → Future ρ ε (Except E β)) :
    Future ρ ε (Except E β) := do
  match ← f with
  | .ok a => k a
  | .error e => pure (.error e)

def mapError {E' : Type} (g : E → E') (f : Future ρ ε (Except E α)) :
    Future ρ ε (Except E' α) := do
  return (← f).mapError g

/-- Every execution of `f` satisfies `P`. -/
def Ensures (f : Future ρ ε α) (P : Outcome α → List ε → Prop) : Prop :=
  ∀ s, P (f s).outcome (f s).log

theorem Ensures.mono {f : Future ρ ε α} {P Q : Outcome α → List ε → Prop}
    (hf : f.Ensures P) (h : ∀ o log, P o log → Q o log) : f.Ensures Q :=
  fun s => h _ _ (hf s)

theorem Ensures.and {f : Future ρ ε α} {P Q : Outcome α → List ε → Prop}
    (hf : f.Ensures P) (hf' : f.Ensures Q) :
    f.Ensures fun o log => P o log ∧ Q o log :=
  fun s => ⟨hf s, hf' s⟩

theorem ensures_pure (a : α) (P : Outcome α → List ε → Prop) (h : P (.ready a) []) :
    (pure a : Future ρ ε α).Ensures P := fun _ => h

theorem ensures_emit (e : ε) (P : Outcome Unit → List ε → Prop) (h : P (.ready ()) [e]) :
    (emit e : Future ρ ε Unit).Ensures P := fun _ => h

theorem ensures_await (P : Outcome ρ → List ε → Prop) (hready : ∀ r, P (.ready r) [])
    (helapsed : P .elapsed []) (hdropped : P .dropped []) (hpending : P .pending []) :
    (await : Future ρ ε ρ).Ensures P := by
  intro s
  cases s with
  | nil => exact hpending
  | cons poll s =>
    cases poll with
    | ready r => exact hready r
    | elapsed => exact helapsed
    | dropped => exact hdropped

/-- What `f` ensures when it completes is where its continuation starts. -/
theorem ensures_bind {f : Future ρ ε α} {k : α → Future ρ ε β}
    {P : Outcome α → List ε → Prop} {Q : Outcome β → List ε → Prop} (hf : f.Ensures P)
    (hready : ∀ a log, P (.ready a) log →
      (k a).Ensures (fun o log' => Q o (log ++ log')))
    (helapsed : ∀ log, P .elapsed log → Q .elapsed log)
    (hdropped : ∀ log, P .dropped log → Q .dropped log)
    (hpending : ∀ log, P .pending log → Q .pending log) : (f >>= k).Ensures Q := by
  intro s
  have hs := hf s
  show Q (f.andThen k s).outcome (f.andThen k s).log
  unfold andThen
  generalize f s = x at hs ⊢
  rcases x with ⟨o, s', log⟩
  cases o with
  | ready a => exact hready a log hs s'
  | elapsed => exact helapsed log hs
  | dropped => exact hdropped log hs
  | pending => exact hpending log hs

theorem ensures_guarding {f : Future ρ ε α} {drops : List ε}
    {P Q : Outcome α → List ε → Prop} (hf : f.Ensures P)
    (hready : ∀ a log, P (.ready a) log → Q (.ready a) log)
    (helapsed : ∀ log, P .elapsed log → Q .elapsed (log ++ drops))
    (hdropped : ∀ log, P .dropped log → Q .dropped (log ++ drops))
    (hpending : ∀ log, P .pending log → Q .pending log) :
    (guarding drops f).Ensures Q := by
  intro s
  have hs := hf s
  unfold guarding
  generalize f s = x at hs ⊢
  rcases x with ⟨o, s', log⟩
  cases o with
  | ready a => exact hready a log hs
  | elapsed => exact helapsed log hs
  | dropped => exact hdropped log hs
  | pending => exact hpending log hs

theorem ensures_timeout {f : Future ρ ε α} {P : Outcome α → List ε → Prop}
    {Q : Outcome (Option α) → List ε → Prop} (hf : f.Ensures P)
    (hready : ∀ a log, P (.ready a) log → Q (.ready (some a)) log)
    (helapsed : ∀ log, P .elapsed log → Q (.ready none) log)
    (hdropped : ∀ log, P .dropped log → Q .dropped log)
    (hpending : ∀ log, P .pending log → Q .pending log) : (timeout f).Ensures Q := by
  intro s
  have hs := hf s
  unfold timeout
  generalize f s = x at hs ⊢
  rcases x with ⟨o, s', log⟩
  cases o with
  | ready a => exact hready a log hs
  | elapsed => exact helapsed log hs
  | dropped => exact hdropped log hs
  | pending => exact hpending log hs

/-- The loop rule: `inv` holds of the log of the passes so far. -/
theorem ensures_awaitUntil {next : ρ → List ε × Option (Future ρ ε α)}
    {P : Outcome α → List ε → Prop} (inv : List ε → Prop) (hinit : inv [])
    (hagain : ∀ log r, inv log → (next r).2 = none → inv (log ++ (next r).1))
    (hleave : ∀ log r f, inv log → (next r).2 = some f →
      f.Ensures (fun o log' => P o (log ++ (next r).1 ++ log')))
    (helapsed : ∀ log, inv log → P .elapsed log)
    (hdropped : ∀ log, inv log → P .dropped log)
    (hpending : ∀ log, inv log → P .pending log) : (awaitUntil next).Ensures P := by
  have hfrom : ∀ s log, inv log → P (awaitUntil next s).outcome
      (log ++ (awaitUntil next s).log) := by
    intro s
    induction s with
    | nil =>
      intro log hlog
      simpa only [awaitUntil, List.append_nil] using hpending log hlog
    | cons poll s ih =>
      intro log hlog
      cases poll with
      | elapsed => simpa only [awaitUntil, List.append_nil] using helapsed log hlog
      | dropped => simpa only [awaitUntil, List.append_nil] using hdropped log hlog
      | ready r =>
        unfold awaitUntil
        rcases hr : next r with ⟨log', _ | f⟩
        · have hs := ih (log ++ log') (by simpa only [hr] using hagain log r hlog (by rw [hr]))
          simpa only [Execution.prepend, List.append_assoc] using hs
        · have hs := hleave log r f hlog (by rw [hr]) s
          simpa only [hr, Execution.prepend, List.append_assoc] using hs
  intro s
  simpa only [List.nil_append] using hfrom s [] hinit

/-- Every value that a fallible future completes with satisfies `v`. -/
def Yields (v : α → Prop) (f : Future ρ ε (Except E α)) : Prop :=
  f.Ensures fun o _ => ∀ a, o = .ready (.ok a) → v a

theorem yields_ok (a : α) (v : α → Prop) (h : v a) :
    Yields v (pure (.ok a) : Future ρ ε (Except E α)) := by
  intro s b hb
  cases hb
  exact h

theorem yields_bind {f : Future ρ ε β} {k : β → Future ρ ε (Except E α)} {v : α → Prop}
    (hk : ∀ b, Yields v (k b)) : Yields v (f >>= k) := by
  refine ensures_bind (P := fun _ _ => True) (fun _ => trivial) (fun b _ _ => hk b) ?_ ?_ ?_
  all_goals
    intro _ _ _ h
    cases h

theorem yields_onOk {f : Future ρ ε (Except E β)} {k : β → Future ρ ε (Except E α)}
    {v : α → Prop} (hk : ∀ b, Yields v (k b)) : Yields v (f.onOk k) := by
  refine yields_bind fun x => ?_
  cases x with
  | ok b => exact hk b
  | error e =>
    intro s a h
    cases h

theorem yields_mapError {E' : Type} {f : Future ρ ε (Except E α)} {v : α → Prop} (g : E → E')
    (hf : Yields v f) : Yields v (f.mapError g) := by
  refine ensures_bind hf ?_ ?_ ?_ ?_
  · rintro (e | b) _ hb
    · exact ensures_pure _ _ (fun _ h => by cases h)
    · exact yields_ok b v (hb b rfl)
  all_goals
    intro _ _ _ h
    cases h

theorem yields_guarding {f : Future ρ ε (Except E α)} {drops : List ε} {v : α → Prop}
    (hf : Yields v f) : Yields v (guarding drops f) := by
  refine ensures_guarding hf (fun _ _ h => h) ?_ ?_ (fun _ h => h)
  all_goals
    intro _ _ _ h
    cases h

section Logs

variable {ε' : Type}

/-- The same future, with its events told in other words. -/
def mapLog (g : ε → ε') (f : Future ρ ε α) : Future ρ ε' α := fun s =>
  ⟨(f s).outcome, (f s).rest, (f s).log.map g⟩

/-- The same future, with only some of its events told. -/
def filterLog (g : ε → Option ε') (f : Future ρ ε α) : Future ρ ε' α := fun s =>
  ⟨(f s).outcome, (f s).rest, (f s).log.filterMap g⟩

theorem pure_bind (a : α) (k : α → Future ρ ε β) : (pure a >>= k) = k a := rfl

theorem bind_pure (f : Future ρ ε α) : (f >>= pure) = f := by
  funext s
  show f.andThen done s = f s
  unfold andThen done
  generalize f s = x
  rcases x with ⟨o, s', log⟩
  cases o with
  | ready a => simp only [Execution.prepend, List.append_nil]
  | elapsed => rfl
  | dropped => rfl
  | pending => rfl

variable {g : ε → Option ε'}

theorem filterLog_mapLog {h : ε' → ε} (hg : ∀ e, g (h e) = some e) (f : Future ρ ε' α) :
    filterLog g (mapLog h f) = f := by
  funext s
  have hlog : ((f s).log.map h).filterMap g = (f s).log := by
    rw [List.filterMap_map]
    exact (List.filterMap_congr fun e _ => hg e).trans List.filterMap_some
  show (⟨(f s).outcome, (f s).rest, ((f s).log.map h).filterMap g⟩ : Execution ρ ε' α) = f s
  rw [hlog]

theorem filterLog_pure (a : α) : filterLog g (pure a : Future ρ ε α) = pure a := rfl

theorem filterLog_emit {e : ε} (h : g e = none) :
    filterLog g (emit e : Future ρ ε Unit) = pure () := by
  funext s
  show (⟨.ready (), s, [e].filterMap g⟩ : Execution ρ ε' Unit) = ⟨.ready (), s, []⟩
  rw [List.filterMap_cons_none h, List.filterMap_nil]

theorem filterLog_bind (f : Future ρ ε α) (k : α → Future ρ ε β) :
    filterLog g (f >>= k) = filterLog g f >>= fun a => filterLog g (k a) := by
  funext s
  show filterLog g (f.andThen k) s = (filterLog g f).andThen (fun a => filterLog g (k a)) s
  unfold filterLog andThen
  beta_reduce
  generalize f s = x
  rcases x with ⟨o, s', log⟩
  cases o with
  | ready a => simp only [Execution.prepend, List.filterMap_append]
  | elapsed => rfl
  | dropped => rfl
  | pending => rfl

theorem filterLog_onOk (f : Future ρ ε (Except E α)) (k : α → Future ρ ε (Except E β)) :
    filterLog g (f.onOk k) = (filterLog g f).onOk fun a => filterLog g (k a) := by
  unfold onOk
  rw [filterLog_bind]
  congr 1
  funext x
  cases x <;> rfl

theorem filterLog_mapError {E' : Type} (g' : E → E') (f : Future ρ ε (Except E α)) :
    filterLog g (f.mapError g') = (filterLog g f).mapError g' := by
  unfold mapError
  rw [filterLog_bind]
  rfl

theorem filterLog_guarding {h : ε' → ε} (hg : ∀ e, g (h e) = some e) (drops : List ε')
    (f : Future ρ ε α) :
    filterLog g (guarding (drops.map h) f) = guarding drops (filterLog g f) := by
  funext s
  have hdrops : (drops.map h).filterMap g = drops := by
    rw [List.filterMap_map]
    exact (List.filterMap_congr fun e _ => hg e).trans List.filterMap_some
  unfold filterLog guarding
  beta_reduce
  generalize f s = x
  rcases x with ⟨o, s', log⟩
  cases o with
  | ready a => rfl
  | elapsed => simp only [List.filterMap_append, hdrops]
  | dropped => simp only [List.filterMap_append, hdrops]
  | pending => rfl

theorem filterLog_timeout (f : Future ρ ε α) :
    filterLog g (timeout f) = timeout (filterLog g f) := by
  funext s
  unfold filterLog timeout
  beta_reduce
  generalize f s = x
  rcases x with ⟨o, s', log⟩
  cases o <;> rfl

end Logs

end Future

/-- What the events of a future take hold of and give back, and which of them a
future may emit while it owes what it holds. -/
structure Account (ε M : Type) where
  taken : ε → M
  given : ε → M
  quiet : ε → Prop

namespace Account

variable {ρ ε α β E E' M : Type} [AddCommMonoid M] (A : Account ε M)

/-- A quiet log that starts with `p` held and leaves `q` held. -/
def Settles (p : M) (log : List ε) (q : M) : Prop :=
  (∀ e ∈ log, A.quiet e) ∧ p + (log.map A.taken).sum = (log.map A.given).sum + q

/-- A log that settles with nothing given back. -/
def Holds (p : M) (log : List ε) (q : M) : Prop :=
  (∀ e ∈ log, A.quiet e ∧ A.given e = 0) ∧ p + (log.map A.taken).sum = q

variable {A}

theorem settles_nil (p : M) : A.Settles p [] p := by
  simp [Settles]

theorem holds_nil (p : M) : A.Holds p [] p := by
  simp [Holds]

theorem Settles.append {p q r : M} {log log' : List ε} (h : A.Settles p log q)
    (h' : A.Settles q log' r) : A.Settles p (log ++ log') r := by
  refine ⟨?_, ?_⟩
  · intro e he
    rcases List.mem_append.1 he with he | he
    · exact h.1 e he
    · exact h'.1 e he
  · rw [List.map_append, List.map_append, List.sum_append, List.sum_append, ← add_assoc, h.2,
      add_assoc, h'.2, add_assoc]

theorem Holds.append {p q r : M} {log log' : List ε} (h : A.Holds p log q)
    (h' : A.Holds q log' r) : A.Holds p (log ++ log') r := by
  refine ⟨?_, ?_⟩
  · intro e he
    rcases List.mem_append.1 he with he | he
    · exact h.1 e he
    · exact h'.1 e he
  · rw [List.map_append, List.sum_append, ← add_assoc, h.2, h'.2]

theorem sum_given_eq_zero {log : List ε} (h : ∀ e ∈ log, A.given e = 0) :
    (log.map A.given).sum = 0 := by
  refine List.sum_eq_zero fun m hm => ?_
  obtain ⟨e, he, rfl⟩ := List.mem_map.1 hm
  exact h e he

theorem Holds.settles {p q : M} {log : List ε} (h : A.Holds p log q) : A.Settles p log q := by
  refine ⟨fun e he => (h.1 e he).1, ?_⟩
  rw [sum_given_eq_zero fun e he => (h.1 e he).2, h.2, zero_add]

/-- What else is held stays held. -/
theorem Settles.frame {p q : M} {log : List ε} (h : A.Settles p log q) (d : M) :
    A.Settles (d + p) log (d + q) := by
  refine ⟨h.1, ?_⟩
  rw [add_assoc, h.2]
  abel

theorem Holds.frame {p q : M} {log : List ε} (h : A.Holds p log q) (d : M) :
    A.Holds (d + p) log (d + q) := by
  refine ⟨h.1, ?_⟩
  rw [add_assoc, h.2]

variable (A)

/-- A fallible future that takes over `p`: with its value it hands on `q`, and
failed or cut short, it has given everything back. -/
def Keeps (p : M) (f : Future ρ ε (Except E α)) (q : α → M) : Prop :=
  f.Ensures fun o log =>
    match o with
    | .ready (.ok a) => A.Holds p log (q a)
    | .pending => ∃ m, A.Settles p log m
    | _ => A.Settles p log 0

/-- A future that takes over `p` and gives it back however it ends. -/
def Returns (p : M) (f : Future ρ ε α) : Prop :=
  f.Ensures fun o log =>
    match o with
    | .pending => ∃ m, A.Settles p log m
    | _ => A.Settles p log 0

/-- A future that can only fail, with everything given back. -/
def Fails (p : M) (f : Future ρ ε (Except E α)) : Prop :=
  f.Ensures fun o log =>
    match o with
    | .ready (.ok _) => False
    | .pending => ∃ m, A.Settles p log m
    | _ => A.Settles p log 0

variable {A}

open Future

theorem Returns.fails {p : M} {f : Future ρ ε α} (hf : A.Returns p f) (e : E) :
    A.Fails p (f >>= fun _ => (pure (.error e) : Future ρ ε (Except E β))) := by
  refine ensures_bind hf ?_ (fun _ h => h) (fun _ h => h) (fun _ h => h)
  intro a log hlog
  refine ensures_pure _ _ ?_
  simpa only [List.append_nil] using hlog

theorem keeps_ok (a : α) (q : α → M) :
    A.Keeps (q a) (pure (.ok a) : Future ρ ε (Except E α)) q := fun _ => holds_nil _

theorem keeps_error (e : E) (q : α → M) :
    A.Keeps 0 (pure (.error e) : Future ρ ε (Except E α)) q := fun _ => settles_nil _

/-- The continuation sees only values that the first future can complete with. -/
theorem Keeps.onOk_of {p : M} {f : Future ρ ε (Except E α)} {k : α → Future ρ ε (Except E β)}
    {q : α → M} {r : β → M} {v : α → Prop} (hf : A.Keeps p f q) (hv : Yields v f)
    (hk : ∀ a, v a → A.Keeps (q a) (k a) r) : A.Keeps p (f.onOk k) r := by
  refine ensures_bind (Ensures.and hf hv) ?_ (fun _ h => h.1) (fun _ h => h.1) (fun _ h => h.1)
  rintro (e | a) log ⟨hlog, hva⟩
  · refine ensures_pure _ _ ?_
    simpa only [List.append_nil] using hlog
  · refine (hk a (hva a rfl)).mono fun o log' h => ?_
    rcases o with (e | b) | _ | _ | _
    · exact hlog.settles.append h
    · exact hlog.append h
    · exact hlog.settles.append h
    · exact hlog.settles.append h
    · obtain ⟨m, h⟩ := h
      exact ⟨m, hlog.settles.append h⟩

theorem Keeps.onOk {p : M} {f : Future ρ ε (Except E α)} {k : α → Future ρ ε (Except E β)}
    {q : α → M} {r : β → M} (hf : A.Keeps p f q) (hk : ∀ a, A.Keeps (q a) (k a) r) :
    A.Keeps p (f.onOk k) r :=
  hf.onOk_of (v := fun _ => True) (fun _ _ _ => trivial) (fun a _ => hk a)

/-- The values decide what is handed on. -/
theorem Keeps.congr {p : M} {f : Future ρ ε (Except E α)} {q q' : α → M} (hf : A.Keeps p f q)
    (hv : Yields (fun a => q a = q' a) f) : A.Keeps p f q' := by
  intro s
  have hs := hf s
  have hvs := hv s
  generalize (f s).outcome = o at hs hvs ⊢
  rcases o with (e | a) | _ | _ | _
  · exact hs
  · have hqa : q a = q' a := hvs a rfl
    show A.Holds p (f s).log (q' a)
    rw [← hqa]
    exact hs
  · exact hs
  · exact hs
  · exact hs

theorem Keeps.mapError {p : M} {f : Future ρ ε (Except E α)} {q : α → M}
    (hf : A.Keeps p f q) (g : E → E') : A.Keeps p (f.mapError g) q := by
  refine ensures_bind hf ?_ (fun _ h => h) (fun _ h => h) (fun _ h => h)
  rintro (e | a) log hlog
  · refine ensures_pure _ _ ?_
    simpa only [List.append_nil, Except.mapError] using hlog
  · refine ensures_pure _ _ ?_
    simpa only [List.append_nil, Except.mapError] using hlog

/-- A guard over `d` lets `d` cross the await points of `f`. -/
theorem Keeps.guarding {d p : M} {drops : List ε} {f : Future ρ ε (Except E α)} {q : α → M}
    (hf : A.Keeps p f q) (hdrops : A.Settles d drops 0) :
    (guarding drops f).Ensures fun o log =>
      match o with
      | .ready (.ok a) => A.Holds (d + p) log (d + q a)
      | .ready (.error _) => A.Settles (d + p) log d
      | .pending => ∃ m, A.Settles (d + p) log m
      | _ => A.Settles (d + p) log 0 := by
  have hcut : ∀ log, A.Settles p log 0 → A.Settles (d + p) (log ++ drops) 0 := by
    intro log h
    refine (h.frame d).append ?_
    simpa only [add_zero] using hdrops
  refine ensures_guarding hf ?_ hcut hcut ?_
  · rintro (e | a) log h
    · simpa only [add_zero] using h.frame d
    · exact h.frame d
  · rintro log ⟨m, h⟩
    exact ⟨d + m, h.frame d⟩

/-- A guarded future that fails has its guard's clean-up give the rest back. -/
theorem Keeps.guarded {d p : M} {drops : List ε} {f : Future ρ ε (Except E α)}
    {k : Except E α → Future ρ ε (Except E' β)} {q : α → M} {r : β → M} (hf : A.Keeps p f q)
    (hdrops : A.Settles d drops 0) (hok : ∀ a, A.Keeps (d + q a) (k (.ok a)) r)
    (herror : ∀ e, A.Fails d (k (.error e))) :
    A.Keeps (d + p) (Future.guarding drops f >>= k) r := by
  refine ensures_bind (hf.guarding hdrops) ?_ (fun _ h => h) (fun _ h => h) (fun _ h => h)
  rintro (e | a) log hlog
  · refine (herror e).mono fun o log' h => ?_
    rcases o with (e | b) | _ | _ | _
    · exact hlog.append h
    · exact h.elim
    · exact hlog.append h
    · exact hlog.append h
    · obtain ⟨m, h⟩ := h
      exact ⟨m, hlog.append h⟩
  · refine (hok a).mono fun o log' h => ?_
    rcases o with (e | b) | _ | _ | _
    · exact hlog.settles.append h
    · exact hlog.append h
    · exact hlog.settles.append h
    · exact hlog.settles.append h
    · obtain ⟨m, h⟩ := h
      exact ⟨m, hlog.settles.append h⟩

end Account

end MidnightRs.Futures
