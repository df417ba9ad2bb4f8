import Mathlib.Logic.Basic
import Mathlib.Tactic.Common

/-!
Two programs of atomic steps that run at the same time on one shared state, as
a schedule interleaves them. Programs that hold one lock from start to end run
one after the other. A program that only reads sees the state before or after
each step of the other one.
-/
namespace MidnightRs.Interleavings

universe u v

/-- A program of atomic steps. A step changes the state, and goes on with what
it read of the state before the change. -/
inductive Prog (S : Type u) (α : Type v) where
  | done (a : α)
  | step (effect : S → S) (next : S → Prog S α)

namespace Prog

variable {S : Type u} {α β : Type v}

/-- The program with the state to itself. -/
def run : Prog S α → S → S × α
  | done a, s => (s, a)
  | step effect next, s => (next s).run (effect s)

protected def bind : Prog S α → (α → Prog S β) → Prog S β
  | done a, f => f a
  | step effect next, f => step effect (fun s => (next s).bind f)

instance : Monad (Prog S) where
  pure := done
  bind := Prog.bind

def read (f : S → α) : Prog S α := step id (fun s => done (f s))

def modify (f : S → S) : Prog S PUnit := step f (fun _ => done ⟨⟩)

@[simp] theorem run_pure (a : α) (s : S) : (pure a : Prog S α).run s = (s, a) := rfl

@[simp] theorem run_read (f : S → α) (s : S) : (read f).run s = (s, f s) := rfl

@[simp] theorem run_modify (f : S → S) (s : S) : (modify f).run s = (f s, ⟨⟩) := rfl

@[simp] theorem run_bind (p : Prog S α) (f : α → Prog S β) (s : S) :
    (p >>= f).run s = (f (p.run s).2).run (p.run s).1 := by
  change (p.bind f).run s = _
  induction p generalizing s with
  | done a => rfl
  | step effect next ih => exact ih s (effect s)

/-- A program that changes nothing. -/
def ReadOnly : Prog S α → Prop
  | done _ => True
  | step effect next => effect = id ∧ ∀ s, (next s).ReadOnly

theorem ReadOnly.bind {p : Prog S α} {f : α → Prog S β} (hp : p.ReadOnly)
    (hf : ∀ a, (f a).ReadOnly) : (p >>= f).ReadOnly := by
  change (p.bind f).ReadOnly
  induction p with
  | done a => exact hf a
  | step effect next ih => exact ⟨hp.1, fun s => ih s (hp.2 s)⟩

/-- The program leaves the state as `same` has it. -/
def Settles (same : S → Prop) : Prog S α → S → Prop
  | done _, s => same s
  | step effect next, s => same s ∧ (next s).Settles same (effect s)

/-- The program takes the state from `before` to `after` in one step, or leaves
it as it was. -/
def Switches (before after : S → Prop) : Prog S α → S → Prop
  | done _, s => before s
  | step effect next, s =>
    before s ∧ ((next s).Switches before after (effect s) ∨ (next s).Settles after (effect s))

/-- What the program can read of states of one kind. -/
inductive Sees (same : S → Prop) : Prog S α → α → Prop
  | done (a : α) : Sees same (.done a) a
  | step {effect : S → S} {next : S → Prog S α} {a : α} (s : S) (hs : same s)
      (h : Sees same (next s) a) : Sees same (.step effect next) a

/-- What the program can read of states of the one kind and then of the other. -/
inductive Reads (before after : S → Prop) : Prog S α → α → Prop
  | late {p : Prog S α} {a : α} (h : Sees after p a) : Reads before after p a
  | early {effect : S → S} {next : S → Prog S α} {a : α} (s : S) (hs : before s)
      (h : Reads before after (next s) a) : Reads before after (.step effect next) a

theorem ReadOnly.settles {same : S → Prop} {p : Prog S α} (h : p.ReadOnly) {s : S}
    (hs : same s) : p.Settles same s := by
  induction p generalizing s with
  | done a => exact hs
  | step effect next ih =>
    obtain ⟨rfl, hnext⟩ := h
    exact ⟨hs, ih s (hnext s) hs⟩

theorem Settles.bind {same : S → Prop} {p : Prog S α} {f : α → Prog S β} {s : S}
    (hp : p.Settles same s) (hf : (f (p.run s).2).Settles same (p.run s).1) :
    (p >>= f).Settles same s := by
  change (p.bind f).Settles same s
  induction p generalizing s with
  | done a => exact hf
  | step effect next ih => exact ⟨hp.1, ih s hp.2 hf⟩

/-- A program may leave the change to what comes after it. -/
theorem Settles.bind_switches {before after : S → Prop} {p : Prog S α} {f : α → Prog S β} {s : S}
    (hp : p.Settles before s) (hf : (f (p.run s).2).Switches before after (p.run s).1) :
    (p >>= f).Switches before after s := by
  change (p.bind f).Switches before after s
  induction p generalizing s with
  | done a => exact hf
  | step effect next ih => exact ⟨hp.1, Or.inl (ih s hp.2 hf)⟩

theorem Settles.switches {before after : S → Prop} {p : Prog S α} {s : S}
    (h : p.Settles before s) : p.Switches before after s := by
  induction p generalizing s with
  | done a => exact h
  | step effect next ih => exact ⟨h.1, Or.inl (ih s h.2)⟩

theorem Settles.final {same : S → Prop} {p : Prog S α} {s : S} (h : p.Settles same s) :
    same (p.run s).1 := by
  induction p generalizing s with
  | done a => exact h
  | step effect next ih => exact ih s h.2

/-- What comes after the change may do nothing more. -/
theorem Switches.bind_done {before after : S → Prop} {p : Prog S α} {s : S}
    (h : p.Switches before after s) {f : α → Prog S β} {b : β} (hf : f (p.run s).2 = .done b) :
    (p >>= f).Switches before after s := by
  have hsettle : ∀ (p : Prog S α) (s : S), p.Settles after s → f (p.run s).2 = .done b →
      (p.bind f).Settles after s := by
    intro p
    induction p with
    | done a =>
      intro s hs hf
      change (f a).Settles after s
      rw [show f a = .done b from hf]
      exact hs
    | step effect next ih => exact fun s hs hf => ⟨hs.1, ih s (effect s) hs.2 hf⟩
  change (p.bind f).Switches before after s
  induction p generalizing s with
  | done a =>
    change (f a).Switches before after s
    rw [show f a = .done b from hf]
    exact h
  | step effect next ih =>
    exact ⟨h.1, h.2.imp (fun hnext => ih s hnext hf) (fun hnext => hsettle _ _ hnext hf)⟩

theorem Sees.of_bind_done {same : S → Prop} {p : Prog S α} {g : α → β} {b : β}
    (h : Sees same (p >>= fun a => pure (g a)) b) : ∃ a, Sees same p a ∧ b = g a := by
  replace h : Sees same (p.bind (fun a => .done (g a))) b := h
  induction p with
  | done a =>
    cases h with
    | done => exact ⟨a, .done a, rfl⟩
  | step effect next ih =>
    cases h with
    | step s hs h =>
      obtain ⟨a, ha, rfl⟩ := ih s h
      exact ⟨a, .step s hs ha, rfl⟩

theorem Reads.of_bind_done {before after : S → Prop} {p : Prog S α} {g : α → β} {b : β}
    (h : Reads before after (p >>= fun a => pure (g a)) b) :
    ∃ a, Reads before after p a ∧ b = g a := by
  replace h : Reads before after (p.bind (fun a => .done (g a))) b := h
  induction p with
  | done a =>
    cases h with
    | late h =>
      cases h with
      | done => exact ⟨a, .late (.done a), rfl⟩
  | step effect next ih =>
    cases h with
    | late h =>
      obtain ⟨a, ha, rfl⟩ := Sees.of_bind_done (p := .step effect next) h
      exact ⟨a, .late ha, rfl⟩
    | early s hs h =>
      obtain ⟨a, ha, rfl⟩ := ih s h
      exact ⟨a, .early s hs ha, rfl⟩

theorem Settles.here {same : S → Prop} {p : Prog S α} {s : S} (h : p.Settles same s) : same s := by
  cases p with
  | done a => exact h
  | step effect next => exact h.1

theorem switches_anyhow (p : Prog S α) (s : S) : p.Switches (fun _ => True) (fun _ => True) s := by
  induction p generalizing s with
  | done a => trivial
  | step effect next ih => exact ⟨trivial, Or.inl (ih s (effect s))⟩

theorem Switches.here {before after : S → Prop} {p : Prog S α} {s : S}
    (h : p.Switches before after s) : before s := by
  cases p with
  | done a => exact h
  | step effect next => exact h.1

end Prog

/-- Where a thread stands. -/
inductive Phase (S : Type u) (α : Type v) where
  | waiting (p : Prog S α)
  | running (p : Prog S α)
  | finished (a : α)

def Phase.result {S : Type u} {α : Type v} : Phase S α → Option α
  | .finished a => some a
  | .waiting _ => none
  | .running _ => none

theorem Phase.eq_finished {S : Type u} {α : Type v} {phase : Phase S α} {a : α}
    (h : phase.result = some a) : phase = .finished a := by
  cases phase with
  | finished b => rw [Option.some.inj h]
  | waiting p => cases h
  | running p => cases h

/-- A thread, which holds the lock while it runs if it is `locked`. -/
structure Thread (S : Type u) (α : Type v) where
  locked : Bool
  phase : Phase S α

namespace Thread

variable {S : Type u} {α : Type v}

def start (locked : Bool) (p : Prog S α) : Thread S α := ⟨locked, .waiting p⟩

def holds (t : Thread S α) : Bool :=
  match t.phase with
  | .running _ => t.locked
  | .waiting _ => false
  | .finished _ => false

/-- One step of the thread. Where `barred`, another thread holds the lock. -/
def advance (t : Thread S α) (barred : Bool) (s : S) : S × Thread S α :=
  match t.phase with
  | .waiting p => if t.locked && barred then (s, t) else (s, { t with phase := .running p })
  | .running (.done a) => (s, { t with phase := .finished a })
  | .running (.step effect next) => (effect s, { t with phase := .running (next s) })
  | .finished _ => (s, t)

end Thread

structure Config (S : Type u) (α β : Type v) where
  state : S
  left : Thread S α
  right : Thread S β

namespace Config

variable {S : Type u} {α β : Type v}

def step (c : Config S α β) : Bool → Config S α β
  | true =>
    let next := c.left.advance c.right.holds c.state
    ⟨next.1, next.2, c.right⟩
  | false =>
    let next := c.right.advance c.left.holds c.state
    ⟨next.1, c.left, next.2⟩

/-- The schedule says which thread takes the next step. -/
def run (c : Config S α β) (schedule : List Bool) : Config S α β := schedule.foldl step c

theorem eq_of_results {c : Config S α β} {a : α} {b : β} (ha : c.left.phase.result = some a)
    (hb : c.right.phase.result = some b) :
    c = ⟨c.state, ⟨c.left.locked, .finished a⟩, ⟨c.right.locked, .finished b⟩⟩ := by
  obtain ⟨state, ⟨l, left⟩, ⟨r, right⟩⟩ := c
  obtain rfl := Phase.eq_finished ha
  obtain rfl := Phase.eq_finished hb
  rfl

/-- What one step keeps, a schedule keeps. -/
theorem run_holds (inv : Config S α β → Prop) (hstep : ∀ c turn, inv c → inv (c.step turn))
    (c : Config S α β) (h : inv c) (schedule : List Bool) : inv (c.run schedule) := by
  unfold run
  induction schedule generalizing c with
  | nil => exact h
  | cons turn schedule ih => exact ih (c.step turn) (hstep c turn h)

end Config

section Locked

variable {S : Type u} {α β : Type v}

/-- The state and both results are those of the one program after the other. -/
def LeftFirst (p : Prog S α) (q : Prog S β) (s₀ s : S) (a : α) (b : β) : Prop :=
  p.run s₀ = ((p.run s₀).1, a) ∧ q.run (p.run s₀).1 = (s, b)

/-- How far two locked threads have come, when the left one went first. -/
inductive LeftAhead (p : Prog S α) (q : Prog S β) (s₀ : S) : S → Phase S α → Phase S β → Prop
  | running {s : S} (p' : Prog S α) (h : p'.run s = p.run s₀) :
      LeftAhead p q s₀ s (.running p') (.waiting q)
  | between {s : S} (a : α) (h : p.run s₀ = (s, a)) :
      LeftAhead p q s₀ s (.finished a) (.waiting q)
  | following {s : S} (a : α) (q' : Prog S β) (h : p.run s₀ = ((p.run s₀).1, a))
      (hq : q'.run s = q.run (p.run s₀).1) : LeftAhead p q s₀ s (.finished a) (.running q')
  | finished {s : S} (a : α) (b : β) (h : LeftFirst p q s₀ s a b) :
      LeftAhead p q s₀ s (.finished a) (.finished b)

/-- How far two locked threads have come. -/
structure Exclusive (p : Prog S α) (q : Prog S β) (s₀ : S) (c : Config S α β) : Prop where
  left : c.left.locked = true
  right : c.right.locked = true
  phases : (c.state = s₀ ∧ c.left.phase = .waiting p ∧ c.right.phase = .waiting q) ∨
    LeftAhead p q s₀ c.state c.left.phase c.right.phase ∨
    LeftAhead q p s₀ c.state c.right.phase c.left.phase

/-- The thread ahead steps. -/
theorem LeftAhead.advance {p : Prog S α} {q : Prog S β} {s₀ s : S} {t : Thread S α}
    {r : Thread S β} (h : LeftAhead p q s₀ s t.phase r.phase) (barred : Bool) :
    LeftAhead p q s₀ (t.advance barred s).1 (t.advance barred s).2.phase r.phase ∧
      (t.advance barred s).2.locked = t.locked := by
  obtain ⟨locked, phase⟩ := t
  obtain ⟨rlocked, rphase⟩ := r
  cases h with
  | running p' hrun =>
    cases p' with
    | done a => exact ⟨.between a hrun.symm, rfl⟩
    | step effect next => exact ⟨.running (next s) hrun, rfl⟩
  | between a hrun => exact ⟨.between a hrun, rfl⟩
  | following a q' hrun hq => exact ⟨.following a q' hrun hq, rfl⟩
  | finished a b hfirst => exact ⟨.finished a b hfirst, rfl⟩

/-- The thread behind steps, and is held back while the other one runs. -/
theorem LeftAhead.follow {p : Prog S α} {q : Prog S β} {s₀ s : S} {t : Thread S α}
    {r : Thread S β} (h : LeftAhead p q s₀ s t.phase r.phase) (ht : t.locked = true)
    (hr : r.locked = true) :
    LeftAhead p q s₀ (r.advance t.holds s).1 t.phase (r.advance t.holds s).2.phase ∧
      (r.advance t.holds s).2.locked = r.locked := by
  obtain ⟨locked, phase⟩ := t
  obtain ⟨rlocked, rphase⟩ := r
  obtain rfl : locked = true := ht
  obtain rfl : rlocked = true := hr
  cases h with
  | running p' hrun => exact ⟨.running p' hrun, rfl⟩
  | between a hrun =>
    have hstate : (p.run s₀).1 = s := congrArg Prod.fst hrun
    exact ⟨.following a q (by rw [hrun]) (congrArg q.run hstate.symm), rfl⟩
  | following a q' hrun hq =>
    cases q' with
    | done b => exact ⟨.finished a b ⟨hrun, hq.symm⟩, rfl⟩
    | step effect next => exact ⟨.following a (next s) hrun hq, rfl⟩
  | finished a b hfirst => exact ⟨.finished a b hfirst, rfl⟩

theorem Exclusive.step {p : Prog S α} {q : Prog S β} {s₀ : S} {c : Config S α β}
    (h : Exclusive p q s₀ c) (turn : Bool) : Exclusive p q s₀ (c.step turn) := by
  obtain ⟨hleft, hright, hwaiting | hahead | hbehind⟩ := h
  · obtain ⟨state, ⟨llocked, lphase⟩, ⟨rlocked, rphase⟩⟩ := c
    obtain ⟨rfl, rfl, rfl⟩ := hwaiting
    obtain rfl : llocked = true := hleft
    obtain rfl : rlocked = true := hright
    cases turn with
    | true => exact ⟨rfl, rfl, Or.inr (Or.inl (.running p rfl))⟩
    | false => exact ⟨rfl, rfl, Or.inr (Or.inr (.running q rfl))⟩
  · cases turn with
    | true =>
      obtain ⟨hphases, hlocked⟩ := hahead.advance c.right.holds
      exact ⟨hlocked.trans hleft, hright, Or.inr (Or.inl hphases)⟩
    | false =>
      obtain ⟨hphases, hlocked⟩ := hahead.follow hleft hright
      exact ⟨hleft, hlocked.trans hright, Or.inr (Or.inl hphases)⟩
  · cases turn with
    | true =>
      obtain ⟨hphases, hlocked⟩ := hbehind.follow hright hleft
      exact ⟨hlocked.trans hleft, hright, Or.inr (Or.inr hphases)⟩
    | false =>
      obtain ⟨hphases, hlocked⟩ := hbehind.advance c.left.holds
      exact ⟨hleft, hlocked.trans hright, Or.inr (Or.inr hphases)⟩

/-- Two programs under one lock run one after the other. -/
theorem locked_serial (p : Prog S α) (q : Prog S β) (s₀ s : S) (schedule : List Bool)
    (l r : Bool) (a : α) (b : β)
    (h : Config.run ⟨s₀, .start true p, .start true q⟩ schedule =
      ⟨s, ⟨l, .finished a⟩, ⟨r, .finished b⟩⟩) :
    LeftFirst p q s₀ s a b ∨ LeftFirst q p s₀ s b a := by
  have hinv := Config.run_holds (Exclusive p q s₀) (fun c turn hc => hc.step turn)
    ⟨s₀, .start true p, .start true q⟩ ⟨rfl, rfl, Or.inl ⟨rfl, rfl, rfl⟩⟩ schedule
  rw [h] at hinv
  rcases hinv.phases with ⟨-, hphase, -⟩ | hahead | hbehind
  · cases hphase
  · cases hahead with
    | finished _ _ hfirst => exact Or.inl hfirst
  · cases hbehind with
    | finished _ _ hfirst => exact Or.inr hfirst

end Locked

section Reading

variable {S : Type u} {α β : Type v}

/-- What a thread has still to do. -/
def Phase.rest : Phase S α → Prog S α
  | .waiting p => p
  | .running p => p
  | .finished a => .done a

/-- How far a thread and a reader beside it have come: the one will end as if
alone, and the reader sees the state before or after its one change. -/
structure Beside (before after : S → Prop) (q : Prog S β) (p : Prog S α) (s₀ : S)
    (c : Config S β α) : Prop where
  unlocked : c.right.locked = false
  readOnly : c.right.phase.rest.ReadOnly
  alone : c.left.phase.rest.run c.state = q.run s₀
  reads : (c.left.phase.rest.Switches before after c.state ∧
      ∀ a, Prog.Reads before after c.right.phase.rest a → Prog.Reads before after p a) ∨
    (c.left.phase.rest.Settles after c.state ∧
      ∀ a, Prog.Sees after c.right.phase.rest a → Prog.Reads before after p a)

variable {before after : S → Prop} {q : Prog S β} {p : Prog S α} {s₀ : S}

theorem Beside.stepLeft {c : Config S β α} (h : Beside before after q p s₀ c) :
    Beside before after q p s₀ (c.step true) := by
  obtain ⟨state, ⟨locked, phase⟩, right⟩ := c
  have hfree : right.holds = false := by
    have := h.unlocked
    cases hp : right.phase <;> simp_all [Thread.holds]
  have hstep : (Config.step ⟨state, ⟨locked, phase⟩, right⟩ true) =
      ⟨(Thread.advance ⟨locked, phase⟩ false state).1,
        (Thread.advance ⟨locked, phase⟩ false state).2, right⟩ := by
    simp only [Config.step, hfree]
  rw [hstep]
  cases phase with
  | waiting q' =>
    have hstart : Thread.advance ⟨locked, .waiting q'⟩ false state =
        (state, ⟨locked, .running q'⟩) := by
      simp [Thread.advance]
    rw [hstart]
    exact ⟨h.unlocked, h.readOnly, h.alone, h.reads⟩
  | finished b => exact ⟨h.unlocked, h.readOnly, h.alone, h.reads⟩
  | running q' =>
    cases q' with
    | done b => exact ⟨h.unlocked, h.readOnly, h.alone, h.reads⟩
    | step effect next =>
      refine ⟨h.unlocked, h.readOnly, h.alone, ?_⟩
      rcases h.reads with ⟨⟨-, hswitch | hsettle⟩, hreads⟩ | ⟨⟨-, hsettle⟩, hsees⟩
      · exact Or.inl ⟨hswitch, hreads⟩
      · exact Or.inr ⟨hsettle, fun a ha => hreads a (.late ha)⟩
      · exact Or.inr ⟨hsettle, hsees⟩

theorem Beside.stepRight {c : Config S β α} (h : Beside before after q p s₀ c) :
    Beside before after q p s₀ (c.step false) := by
  obtain ⟨state, left, ⟨locked, phase⟩⟩ := c
  obtain rfl : locked = false := h.unlocked
  cases phase with
  | waiting p' => exact ⟨rfl, h.readOnly, h.alone, h.reads⟩
  | finished a => exact ⟨rfl, h.readOnly, h.alone, h.reads⟩
  | running p' =>
    cases p' with
    | done a => exact ⟨rfl, h.readOnly, h.alone, h.reads⟩
    | step effect next =>
      obtain ⟨rfl, hnext⟩ : effect = id ∧ ∀ s, (next s).ReadOnly := h.readOnly
      refine ⟨rfl, hnext state, h.alone, ?_⟩
      rcases h.reads with ⟨hswitch, hreads⟩ | ⟨hsettle, hsees⟩
      · exact Or.inl ⟨hswitch, fun a ha => hreads a (.early state hswitch.here ha)⟩
      · exact Or.inr ⟨hsettle, fun a ha => hsees a (.step state hsettle.here ha)⟩

/-- A reader beside a program that changes what it reads in one step at most:
the program ends as if alone. -/
theorem reader_beside (hread : p.ReadOnly) (hswitch : q.Switches before after s₀)
    (locked : Bool) (s : S) (schedule : List Bool) (l r : Bool) (a : α) (b : β)
    (h : Config.run ⟨s₀, .start locked q, .start false p⟩ schedule =
      ⟨s, ⟨l, .finished b⟩, ⟨r, .finished a⟩⟩) :
    q.run s₀ = (s, b) ∧ Prog.Reads before after p a := by
  have hinv := Config.run_holds (Beside before after q p s₀)
    (fun c turn hc => by
      cases turn with
      | true => exact hc.stepLeft
      | false => exact hc.stepRight)
    ⟨s₀, .start locked q, .start false p⟩ ⟨rfl, hread, rfl, Or.inl ⟨hswitch, fun _ ha => ha⟩⟩
    schedule
  rw [h] at hinv
  refine ⟨hinv.alone.symm, ?_⟩
  rcases hinv.reads with ⟨-, hreads⟩ | ⟨-, hsees⟩
  · exact hreads a (.late (.done a))
  · exact hsees a (.done a)

/-- Beside a program that has nothing to do, the other one runs alone. -/
theorem idle_beside (x : α) (locked : Bool) (s : S) (schedule : List Bool) (l r : Bool) (a : α)
    (b : β) (h : Config.run ⟨s₀, .start locked q, .start false (.done x)⟩ schedule =
      ⟨s, ⟨l, .finished b⟩, ⟨r, .finished a⟩⟩) :
    q.run s₀ = (s, b) ∧ a = x := by
  have hread : (Prog.done x : Prog S α).ReadOnly := trivial
  obtain ⟨halone, hreads⟩ := reader_beside hread (q.switches_anyhow s₀) locked s schedule l r a b h
  cases hreads with
  | late hsees =>
    cases hsees with
    | done => exact ⟨halone, rfl⟩

end Reading

section Swapping

variable {S : Type u} {α β : Type v}

def Config.swap (c : Config S α β) : Config S β α := ⟨c.state, c.right, c.left⟩

theorem Config.swap_run (c : Config S α β) (schedule : List Bool) :
    (c.run schedule).swap = c.swap.run (schedule.map not) := by
  induction schedule generalizing c with
  | nil => rfl
  | cons turn schedule ih =>
    have hstep : (c.step turn).swap = c.swap.step (!turn) := by
      cases turn <;> rfl
    exact (ih (c.step turn)).trans (congrArg (fun d => d.run (schedule.map not)) hstep)

end Swapping

end MidnightRs.Interleavings
