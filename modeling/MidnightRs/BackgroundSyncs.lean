import MidnightRs.Errors
import MidnightRs.Loops

/-!
The background sync of a wallet. A task resyncs after each pause and announces how the
pass ended; a caller waits until the balance satisfies it, and checks again after each
announcement. The wallet's balance at a moment and what a pass gives are arbitrary, and
the steps of the task and the caller interleave in any order.
-/
namespace MidnightRs.BackgroundSyncs

open Loops (Run)

section Watching

variable {V : Type}

/-- A channel of one value, with how often it was replaced, and whether the sender is
gone. -/
structure Watch (V : Type) where
  value : V
  version : ℕ
  closed : Bool
deriving DecidableEq, Repr

/-- What a receiver that has seen a version waits for. -/
inductive Changed where
  | pending
  | fresh (version : ℕ)
  | closed
deriving DecidableEq, Repr

namespace Watch

def sendReplace (c : Watch V) (v : V) : Watch V := { c with value := v, version := c.version + 1 }

def changed (c : Watch V) (seen : ℕ) : Changed :=
  if seen ≠ c.version then .fresh c.version
  else if c.closed then .closed
  else .pending

end Watch

end Watching

section Model

variable {B : Type}

inductive LogLine where
  | committedAgain
  | failedAgain (text : String)
  | failed (text : String)
deriving DecidableEq, Repr

/-- Where the task stands: a pass that has ended is announced in a step of its own, and
a task that ends drops its sender before it counts as finished. -/
inductive Phase where
  | sleeping
  | resyncing
  | resynced (ended : ℕ) (result : Except WalletError Unit)
  | dropped
  | finished
deriving DecidableEq

/-- Where a caller stands, with the version it has seen and when it read the balance. -/
inductive Waiter where
  | idle
  | subscribed (seen : ℕ)
  | read (seen moment : ℕ)
  | waiting (seen moment : ℕ)
  | returned (moment : ℕ)
  | failed
deriving DecidableEq, Repr

/-- A moment of a run, with the passes announced so far and when each had ended. -/
structure State where
  now : ℕ
  phase : Phase
  status : Watch (Option WalletError)
  warned : Option String
  log : List LogLine
  called : ℕ
  waiter : Waiter
  passes : List (ℕ × Except WalletError Unit)
deriving DecidableEq

def State.start : State := ⟨0, .sleeping, ⟨none, 0, false⟩, none, [], 0, .idle, []⟩

/-- What the task warns of next, and what it logs for a pass. -/
def record (text : WalletError → String) (warned : Option String) :
    Except WalletError Unit → Option String × List LogLine
  | .ok () => (none, if warned.isSome then [.committedAgain] else [])
  | .error e => if warned = some (text e) then (warned, [.failedAgain (text e)])
    else (some (text e), [.failed (text e)])

/-- The error of a pass, which a pass that commits clears. -/
def failure : Except WalletError Unit → Option WalletError
  | .ok () => none
  | .error e => some e

inductive Event where
  | elapse
  | wake
  | resync (result : Except WalletError Unit)
  | announce
  | drop
  | finish
  | call
  | read
  | check
  | changed
deriving DecidableEq

def Phase.live : Phase → Bool
  | .dropped => false
  | .finished => false
  | _ => true

/-- One step of the task, of the caller, or of anything else. -/
inductive Step (text : WalletError → String) (done : B → Bool) (balance : ℕ → B) :
    State → Event → State → Prop
  | elapse (s : State) : Step text done balance s .elapse { s with now := s.now + 1 }
  | wake (s : State) (h : s.phase = .sleeping) :
      Step text done balance s .wake { s with now := s.now + 1, phase := .resyncing }
  | resync (s : State) (result : Except WalletError Unit) (h : s.phase = .resyncing) :
      Step text done balance s (.resync result)
        { s with now := s.now + 1, phase := .resynced s.now result }
  | announce (s : State) (ended : ℕ) (result : Except WalletError Unit)
      (h : s.phase = .resynced ended result) :
      Step text done balance s .announce { s with
        now := s.now + 1
        phase := .sleeping
        status := s.status.sendReplace (failure result)
        warned := (record text s.warned result).1
        log := s.log ++ (record text s.warned result).2
        passes := s.passes ++ [(ended, result)] }
  | drop (s : State) (h : s.phase.live = true) : Step text done balance s .drop
      { s with now := s.now + 1, phase := .dropped, status := { s.status with closed := true } }
  | finish (s : State) (h : s.phase = .dropped) :
      Step text done balance s .finish { s with now := s.now + 1, phase := .finished }
  | call (s : State) (h : s.waiter = .idle) : Step text done balance s .call
      { s with now := s.now + 1, called := s.now, waiter := .subscribed s.status.version }
  | read (s : State) (seen : ℕ) (h : s.waiter = .subscribed seen) :
      Step text done balance s .read
        { s with now := s.now + 1, waiter := .read seen s.now }
  | check (s : State) (seen moment : ℕ) (h : s.waiter = .read seen moment) :
      Step text done balance s .check { s with
        now := s.now + 1
        waiter := if done (balance moment) = true then .returned moment else .waiting seen moment }
  | changed (s : State) (seen moment version : ℕ) (h : s.waiter = .waiting seen moment)
      (hfresh : s.status.changed seen = .fresh version) :
      Step text done balance s .changed
        { s with now := s.now + 1, waiter := .subscribed version }
  | closed (s : State) (seen moment : ℕ) (h : s.waiter = .waiting seen moment)
      (hclosed : s.status.changed seen = .closed) :
      Step text done balance s .changed { s with now := s.now + 1, waiter := .failed }

/-- What a caller is told of the last pass. -/
inductive LastError where
  | none
  | failed (e : WalletError)
  | stopped
deriving DecidableEq

def State.lastError (s : State) : LastError :=
  if s.phase = .finished ∨ s.status.closed = true then .stopped
  else match s.status.value with
    | some e => .failed e
    | none => .none

end Model

section Sound

variable {B : Type} {text : WalletError → String} {done : B → Bool} {balance : ℕ → B}

/-- The error of the last of some passes. -/
def lastFailure (passes : List (ℕ × Except WalletError Unit)) : Option WalletError :=
  passes.getLast?.bind (fun p => failure p.2)

/-- What a pass logs after another: a failure that repeats the last one's text is not
warned of again. -/
def lines (text : WalletError → String) (last : Option WalletError) :
    Except WalletError Unit → List LogLine
  | .ok () => if last.isSome then [.committedAgain] else []
  | .error e => if last.map text = some (text e) then [.failedAgain (text e)]
    else [.failed (text e)]

/-- The log that passes leave, each judged by the one before it. -/
inductive Logged (text : WalletError → String) :
    List (ℕ × Except WalletError Unit) → List LogLine → Prop
  | nil : Logged text [] []
  | snoc {passes : List (ℕ × Except WalletError Unit)} {log : List LogLine}
      (h : Logged text passes log) (ended : ℕ) (result : Except WalletError Unit) :
      Logged text (passes ++ [(ended, result)]) (log ++ lines text (lastFailure passes) result)

theorem lastFailure_snoc (passes : List (ℕ × Except WalletError Unit)) (ended : ℕ)
    (result : Except WalletError Unit) :
    lastFailure (passes ++ [(ended, result)]) = failure result := by
  simp [lastFailure]

theorem record_eq (text : WalletError → String) (last : Option WalletError)
    (result : Except WalletError Unit) :
    record text (last.map text) result = ((failure result).map text, lines text last result) := by
  cases result with
  | ok u => simp [record, failure, lines]
  | error e =>
    by_cases h : last.map text = some (text e) <;> simp [record, failure, lines, h]

/-- A caller that read at `moment` after seeing a version has every pass up to that
version behind its read. -/
def Behind (s : State) (seen moment : ℕ) : Prop :=
  seen ≤ s.passes.length ∧ (∀ p ∈ s.passes.take seen, p.1 ≤ moment) ∧ s.called ≤ moment ∧
    moment < s.now

/-- What a caller knows at each of its steps. -/
def WaiterOk (done : B → Bool) (balance : ℕ → B) (s : State) : Waiter → Prop
  | .idle => True
  | .subscribed seen => seen ≤ s.passes.length ∧ s.called ≤ s.now
  | .read seen moment => Behind s seen moment
  | .waiting seen moment => Behind s seen moment ∧ done (balance moment) = false
  | .returned moment => s.called ≤ moment ∧ moment < s.now ∧ done (balance moment) = true
  | .failed => s.status.closed = true

/-- The announcements follow the passes, and the caller follows the announcements. -/
structure Tracked (text : WalletError → String) (done : B → Bool) (balance : ℕ → B)
    (s : State) : Prop where
  ended : ∀ p ∈ s.passes, p.1 < s.now
  ending : ∀ ended result, s.phase = .resynced ended result → ended < s.now
  version : s.status.version = s.passes.length
  value : s.status.value = lastFailure s.passes
  warned : s.warned = (lastFailure s.passes).map text
  log : Logged text s.passes s.log
  closed : s.status.closed = !s.phase.live
  waiter : WaiterOk done balance s s.waiter

theorem tracked_start : Tracked text done balance State.start where
  ended := fun p hp => by cases hp
  ending := fun ended result h => by cases h
  version := rfl
  value := rfl
  warned := rfl
  log := .nil
  closed := rfl
  waiter := trivial

/-- What the caller knows survives a step that leaves the caller alone. -/
theorem WaiterOk.mono {s s' : State} {w : Waiter} (h : WaiterOk done balance s w)
    (hnow : s.now ≤ s'.now) (hcalled : s'.called = s.called)
    (hpasses : s.passes <+: s'.passes)
    (hclosed : s.status.closed = true → s'.status.closed = true) :
    WaiterOk done balance s' w := by
  have hbehind : ∀ {seen moment}, Behind s seen moment → Behind s' seen moment := by
    rintro seen moment ⟨hseen, htake, hcall, hmoment⟩
    have hlen := hseen.trans hpasses.length_le
    obtain ⟨more, hmore⟩ := hpasses
    refine ⟨hlen, ?_, hcalled ▸ hcall, by omega⟩
    rw [← hmore, List.take_append_of_le_length hseen]
    exact htake
  cases w with
  | idle => exact trivial
  | subscribed seen => exact ⟨h.1.trans hpasses.length_le, hcalled ▸ h.2.trans hnow⟩
  | read seen moment => exact hbehind h
  | waiting seen moment => exact ⟨hbehind h.1, h.2⟩
  | returned moment => exact ⟨hcalled ▸ h.1, by have := h.2.1; omega, h.2.2⟩
  | failed => exact hclosed h

/-- A step of the task or of anything else, with no announcement in it. -/
theorem Tracked.quiet {s s' : State} (h : Tracked text done balance s) (hnow : s.now ≤ s'.now)
    (hending : ∀ ended result, s'.phase = .resynced ended result → ended < s'.now)
    (hvalue : s'.status.value = s.status.value) (hversion : s'.status.version = s.status.version)
    (hwarned : s'.warned = s.warned) (hlog : s'.log = s.log) (hpasses : s'.passes = s.passes)
    (hclosed : s'.status.closed = !s'.phase.live)
    (hwaiter : WaiterOk done balance s' s'.waiter) : Tracked text done balance s' where
  ended := fun p hp => (h.ended p (hpasses ▸ hp)).trans_le hnow
  ending := hending
  version := by rw [hversion, hpasses, h.version]
  value := by rw [hvalue, hpasses, h.value]
  warned := by rw [hwarned, hpasses, h.warned]
  log := by rw [hpasses, hlog]; exact h.log
  closed := hclosed
  waiter := hwaiter

theorem Watch.changed_fresh {c : Watch (Option WalletError)} {seen version : ℕ}
    (h : c.changed seen = .fresh version) : version = c.version := by
  unfold Watch.changed at h
  split at h
  · exact (Changed.fresh.inj h).symm
  · split at h <;> cases h

theorem Watch.changed_closed {c : Watch (Option WalletError)} {seen : ℕ}
    (h : c.changed seen = .closed) : c.closed = true := by
  unfold Watch.changed at h
  split at h
  · cases h
  · split at h
    · assumption
    · cases h

theorem step_tracked {s s' : State} {e : Event} (hstep : Step text done balance s e s')
    (h : Tracked text done balance s) : Tracked text done balance s' := by
  have hkeep : ∀ {s'' : State}, s''.now = s.now + 1 → s''.called = s.called →
      s''.passes = s.passes → (s.status.closed = true → s''.status.closed = true) →
        WaiterOk done balance s'' s.waiter := fun hnow hcalled hpasses hclosed =>
    h.waiter.mono (by omega) hcalled (hpasses ▸ List.prefix_rfl) hclosed
  have hending : ∀ ended result, s.phase = .resynced ended result → ended < s.now + 1 :=
    fun ended result hphase => Nat.lt_succ_of_lt (h.ending ended result hphase)
  cases hstep with
  | elapse =>
    exact h.quiet (Nat.le_succ _) hending rfl rfl rfl rfl rfl h.closed (hkeep rfl rfl rfl id)
  | wake hphase =>
    refine h.quiet (Nat.le_succ _) (fun _ _ hp => by cases hp) rfl rfl rfl rfl rfl ?_
      (hkeep rfl rfl rfl id)
    rw [h.closed, hphase]
    rfl
  | resync result hphase =>
    refine h.quiet (Nat.le_succ _) (fun _ _ hp => ?_) rfl rfl rfl rfl rfl ?_ (hkeep rfl rfl rfl id)
    · cases hp
      exact Nat.lt_succ_self _
    · rw [h.closed, hphase]
      rfl
  | announce ended result hphase =>
    have hrecord := record_eq text (lastFailure s.passes) result
    rw [← h.warned] at hrecord
    refine ⟨fun p hp => ?_, fun _ _ hp => (by cases hp), ?_, ?_, ?_, ?_, ?_, ?_⟩
    · rcases List.mem_append.mp hp with hp | hp
      · exact Nat.lt_succ_of_lt (h.ended p hp)
      · obtain rfl := List.mem_singleton.mp hp
        exact hending ended result hphase
    · simp [Watch.sendReplace, h.version]
    · exact (lastFailure_snoc s.passes ended result).symm
    · rw [lastFailure_snoc, hrecord]
    · simp only [hrecord]
      exact h.log.snoc ended result
    · rw [Watch.sendReplace, h.closed, hphase]
      rfl
    · exact h.waiter.mono (Nat.le_succ _) rfl (List.prefix_append _ _) id
  | drop hphase =>
    exact h.quiet (Nat.le_succ _) (fun _ _ hp => by cases hp) rfl rfl rfl rfl rfl rfl
      (hkeep rfl rfl rfl fun _ => rfl)
  | finish hphase =>
    refine h.quiet (Nat.le_succ _) (fun _ _ hp => by cases hp) rfl rfl rfl rfl rfl ?_
      (hkeep rfl rfl rfl id)
    rw [h.closed, hphase]
    rfl
  | call hidle =>
    refine h.quiet (Nat.le_succ _) hending rfl rfl rfl rfl rfl h.closed ⟨?_, Nat.le_succ _⟩
    exact Nat.le_of_eq h.version
  | read seen hsub =>
    refine h.quiet (Nat.le_succ _) hending rfl rfl rfl rfl rfl h.closed ?_
    have hw := h.waiter
    rw [hsub] at hw
    exact ⟨hw.1, fun p hp => Nat.le_of_lt (h.ended p (List.mem_of_mem_take hp)), hw.2,
      Nat.lt_succ_self _⟩
  | check seen moment hread =>
    refine h.quiet (Nat.le_succ _) hending rfl rfl rfl rfl rfl h.closed ?_
    have hw := h.waiter
    rw [hread] at hw
    have hlater : moment < s.now + 1 := Nat.lt_succ_of_lt hw.2.2.2
    simp only
    split
    · rename_i hdone
      exact ⟨hw.2.2.1, hlater, hdone⟩
    · rename_i hnot
      exact ⟨⟨hw.1, hw.2.1, hw.2.2.1, hlater⟩, Bool.eq_false_iff.mpr hnot⟩
  | changed seen moment version hwait hfresh =>
    refine h.quiet (Nat.le_succ _) hending rfl rfl rfl rfl rfl h.closed ⟨?_, ?_⟩
    · exact Nat.le_of_eq ((Watch.changed_fresh hfresh).trans h.version)
    · have hw := h.waiter
      rw [hwait] at hw
      have := hw.1.2.2
      simp only
      omega
  | closed seen moment hwait hclosed =>
    exact h.quiet (Nat.le_succ _) hending rfl rfl rfl rfl rfl h.closed
      (Watch.changed_closed hclosed)

/-- The caller is asleep: no announcement stands that it has not seen, and the task may
still announce. -/
def State.Blocked (s : State) : Prop :=
  ∃ seen moment, s.waiter = .waiting seen moment ∧ s.status.changed seen = .pending

/-- What a caller can rely on in a state: it is told of the last pass, a wait ends with a
balance that satisfies it or with the task, and a caller that sleeps has read a balance
after every pass announced. -/
structure Sound (text : WalletError → String) (done : B → Bool) (balance : ℕ → B)
    (s : State) : Prop where
  lastError : s.lastError = if s.phase.live = true then
    (match lastFailure s.passes with
      | some e => .failed e
      | none => .none) else .stopped
  log : Logged text s.passes s.log
  returned : ∀ moment, s.waiter = .returned moment →
    s.called ≤ moment ∧ moment < s.now ∧ done (balance moment) = true
  failed : s.waiter = .failed → s.lastError = .stopped
  blocked : s.Blocked → s.phase.live = true ∧ ∃ seen moment, s.waiter = .waiting seen moment ∧
    s.called ≤ moment ∧ (∀ p ∈ s.passes, p.1 ≤ moment) ∧ done (balance moment) = false

theorem Tracked.lastError {s : State} (h : Tracked text done balance s) :
    s.lastError = if s.phase.live = true then
      (match lastFailure s.passes with
        | some e => .failed e
        | none => .none) else .stopped := by
  rw [State.lastError, h.closed, h.value]
  cases hphase : s.phase <;> simp [Phase.live]

theorem Tracked.sound {s : State} (h : Tracked text done balance s) :
    Sound text done balance s := by
  refine ⟨h.lastError, h.log, fun moment hret => ?_, fun hfail => ?_, ?_⟩
  · have hw := h.waiter
    rw [hret] at hw
    exact hw
  · have hw := h.waiter
    rw [hfail] at hw
    exact if_pos (Or.inr hw)
  · rintro ⟨seen, moment, hwait, hpending⟩
    have hw := h.waiter
    rw [hwait] at hw
    obtain ⟨⟨-, htake, hcalled, -⟩, hdone⟩ := hw
    unfold Watch.changed at hpending
    split at hpending
    · cases hpending
    · rename_i hseen
      split at hpending
      · cases hpending
      · rename_i hopen
        obtain rfl : seen = s.status.version := not_not.mp hseen
        rw [h.version, List.take_length] at htake
        refine ⟨?_, _, moment, hwait, hcalled, htake, hdone⟩
        simpa [h.closed] using hopen

/-- However the task, the caller and the wallet's other users interleave, no pass is
missed and no wait ends early. -/
theorem background_sync_sound {s : State} {events : List Event}
    (h : Run (Step text done balance) State.start events s) : Sound text done balance s :=
  (Run.invariant (Tracked text done balance) (fun _ _ _ hstep hs => step_tracked hstep hs) h
    tracked_start).sound

/-- A caller that finds too little at its first check returns after the next pass. -/
theorem background_sync_sound_pass : ∃ events s,
    Run (Step (fun _ => "failed") (fun b : ℕ => decide (5 ≤ b)) id) State.start events s ∧
      s.waiter = .returned 7 ∧ Sound (fun _ => "failed") (fun b : ℕ => decide (5 ≤ b)) id s := by
  have hrun := Run.cons (@Step.call ℕ (fun _ => "failed") (fun b => decide (5 ≤ b)) id
    State.start rfl) (.cons (.read _ 0 rfl) (.cons (.check _ 0 1 rfl) (.cons (.wake _ rfl)
      (.cons (.resync _ (.ok ()) rfl) (.cons (.announce _ 4 (.ok ()) rfl)
        (.cons (.changed _ 0 1 1 rfl rfl) (.cons (.read _ 1 rfl)
          (.cons (.check _ 1 7 rfl) (.nil _)))))))))
  exact ⟨_, _, hrun, rfl, background_sync_sound hrun⟩

end Sound

end MidnightRs.BackgroundSyncs
