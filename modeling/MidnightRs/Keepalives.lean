import MidnightRs.Subscriptions

/-!
The keepalive of a subscription: when the task pings a silent connection, when it tears
one down, and how long it can stay at its select with nothing read.
-/
namespace MidnightRs.Subscriptions

open Loops (Run)

section Policy

/-- When the server was last heard, after one more entry. -/
def heard : ℕ → ℕ × Entry → ℕ
  | _, (t, .frame _) => t
  | last, (_, .ping) => last
  | last, (_, .pingFailed) => last
  | last, (_, .idle) => last

def lastFrameOf (begun : ℕ) (log : List (ℕ × Entry)) : ℕ := log.foldl heard begun

/-- Whether a ping waits for an answer, after one more entry. -/
def pinging : Bool → ℕ × Entry → Bool
  | _, (_, .frame _) => false
  | _, (_, .ping) => true
  | p, (_, .pingFailed) => p
  | p, (_, .idle) => p

def pinged (log : List (ℕ × Entry)) : Bool := log.foldl pinging false

theorem lastFrameOf_snoc (begun : ℕ) (log : List (ℕ × Entry)) (e : ℕ × Entry) :
    lastFrameOf begun (log ++ [e]) = heard (lastFrameOf begun log) e :=
  List.foldl_concat heard begun e log

theorem pinged_snoc (log : List (ℕ × Entry)) (e : ℕ × Entry) :
    pinged (log ++ [e]) = pinging (pinged log) e :=
  List.foldl_concat pinging false e log

/-- The logs that the two windows of silence allow. A silence has one ping, after the
first window, and the connection goes after the second; without room between the two
windows there is no ping. -/
inductive Allowed (cfg : Config) (begun : ℕ) : List (ℕ × Entry) → Prop
  | nil : Allowed cfg begun []
  | frame {log : List (ℕ × Entry)} {t : ℕ} {f : Frame} (h : Allowed cfg begun log)
      (hlast : lastFrameOf begun log ≤ t) : Allowed cfg begun (log ++ [(t, .frame f)])
  | ping {log : List (ℕ × Entry)} {t : ℕ} (h : Allowed cfg begun log) (hfirst : pinged log = false)
      (hwindows : cfg.pingAfter < cfg.idleTimeout)
      (hsilent : lastFrameOf begun log + cfg.pingAfter ≤ t) :
      Allowed cfg begun (log ++ [(t, .ping)])
  | pingFailed {log : List (ℕ × Entry)} {t : ℕ} (h : Allowed cfg begun log)
      (hfirst : pinged log = false) (hwindows : cfg.pingAfter < cfg.idleTimeout)
      (hsilent : lastFrameOf begun log + cfg.pingAfter ≤ t) :
      Allowed cfg begun (log ++ [(t, .pingFailed)])
  | idle {log : List (ℕ × Entry)} {t : ℕ} (h : Allowed cfg begun log)
      (hpinged : pinged log = true ∨ cfg.idleTimeout ≤ cfg.pingAfter)
      (hsilent : lastFrameOf begun log + cfg.idleTimeout ≤ t) :
      Allowed cfg begun (log ++ [(t, .idle)])

end Policy

section Answers

variable {T : Type}

/-- What an entry has the task send: each ping of the server has its pong. -/
def answer (readers : Readers T) (cfg : Config) : Entry → List Outgoing
  | .frame f =>
    match onFrame readers cfg.expectedId f with
    | .pong payload => [.pong payload]
    | _ => []
  | .ping => [.ping]
  | .pingFailed => []
  | .idle => []

variable {readers : Readers T} {cfg : Config} {begun : ℕ}

/-- How the keepalive's state and the outgoing messages stand to the log. -/
structure Keeping (readers : Readers T) (cfg : Config) (begun : ℕ) (s : State T) : Prop where
  lastFrame : s.lastFrame = lastFrameOf begun s.log
  pingSent : s.pingSent = pinged s.log
  allowed : Allowed cfg begun s.log
  past : s.lastFrame ≤ s.clock
  answers : s.outgoing = s.entries.flatMap (answer readers cfg) ∨
    (s.phase = .stopped ∧ s.handle = false) ∧
      s.outgoing = s.entries.flatMap (answer readers cfg) ++ [.complete cfg.expectedId]

theorem Keeping.outgoing {s : State T} (hs : Keeping readers cfg begun s)
    (hwaits : s.phase = .waiting) : s.outgoing = s.entries.flatMap (answer readers cfg) := by
  rcases hs.answers with h | ⟨⟨h, -⟩, -⟩
  · exact h
  · rw [hwaits] at h
    cases h

theorem onRead_outgoing (readers : Readers T) (cfg : Config) (f : Frame) (s : State T) :
    (onRead readers cfg f s).outgoing = s.outgoing ++ answer readers cfg (.frame f) ∧
      (onRead readers cfg f s).log = s.log ++ [(s.clock, .frame f)] ∧
      (onRead readers cfg f s).lastFrame = s.clock ∧ (onRead readers cfg f s).pingSent = false ∧
      (onRead readers cfg f s).clock = s.clock := by
  rw [onRead, answer]
  cases onFrame readers cfg.expectedId f with
  | pong payload => exact ⟨rfl, rfl, rfl, rfl, rfl⟩
  | ignore => exact ⟨(List.append_nil _).symm, rfl, rfl, rfl, rfl⟩
  | item r => exact ⟨(List.append_nil _).symm, rfl, rfl, rfl, rfl⟩
  | last e => exact ⟨(List.append_nil _).symm, rfl, rfl, rfl, rfl⟩
  | stop => exact ⟨(List.append_nil _).symm, rfl, rfl, rfl, rfl⟩

/-- The log of the state grows by one entry, and the messages by its answer. -/
theorem Keeping.entry {s s' : State T} {e : Entry} (hs : Keeping readers cfg begun s)
    (hwaits : s.phase = .waiting) (hlog : s'.log = s.log ++ [(s.clock, e)])
    (hlast : s'.lastFrame = heard s.lastFrame (s.clock, e))
    (hping : s'.pingSent = pinging s.pingSent (s.clock, e))
    (hallowed : Allowed cfg begun s'.log) (hpast : s'.lastFrame ≤ s'.clock)
    (hout : s'.outgoing = s.outgoing ++ answer readers cfg e) :
    Keeping readers cfg begun s' where
  lastFrame := by rw [hlast, hlog, lastFrameOf_snoc, hs.lastFrame]
  pingSent := by rw [hping, hlog, pinged_snoc, hs.pingSent]
  allowed := hallowed
  past := hpast
  answers := by
    have hentries : s'.entries = s.entries ++ [e] := by
      rw [State.entries, hlog, List.map_append]
      rfl
    rw [hentries, List.flatMap_append, List.flatMap_singleton, hout, hs.outgoing hwaits]
    exact Or.inl rfl

/-- The idle deadline stands after one window of silence or the other. -/
theorem idleDeadline_pinged {s : State T}
    (h : s.pingSent = true ∨ cfg.idleTimeout ≤ cfg.pingAfter) :
    idleDeadline cfg s = s.lastFrame + cfg.idleTimeout := by
  rw [idleDeadline]
  rcases h with h | h
  · rw [h, if_pos rfl]
  · rw [Nat.min_eq_right h, ite_self]

theorem idleDeadline_unpinged {s : State T} (h : s.pingSent = false)
    (hwindows : cfg.pingAfter < cfg.idleTimeout) :
    idleDeadline cfg s = s.lastFrame + cfg.pingAfter := by
  rw [idleDeadline, h, if_neg Bool.false_ne_true, Nat.min_eq_left hwindows.le]

theorem Keeping.deadline {s : State T} (sinkFails : Bool) (hs : Keeping readers cfg begun s)
    (hwaits : s.phase = .waiting) (hdue : idleDeadline cfg s ≤ s.clock) :
    Keeping readers cfg begun (onDeadline cfg sinkFails s) := by
  rcases onDeadline_cases cfg sinkFails s with ⟨hlate, heq⟩ | ⟨⟨hping, hwindows⟩, hrest⟩
  · have hsilent : lastFrameOf begun s.log + cfg.idleTimeout ≤ s.clock := by
      rw [← hs.lastFrame, ← idleDeadline_pinged hlate]
      exact hdue
    rw [heq]
    exact hs.entry hwaits rfl rfl rfl
      (.idle hs.allowed (hlate.imp_left fun h => hs.pingSent ▸ h) hsilent) hs.past
      (List.append_nil _).symm
  · have hsilent : lastFrameOf begun s.log + cfg.pingAfter ≤ s.clock := by
      rw [← hs.lastFrame, ← idleDeadline_unpinged hping hwindows]
      exact hdue
    have hfirst : pinged s.log = false := hs.pingSent ▸ hping
    rcases hrest with ⟨-, heq⟩ | ⟨-, heq⟩
    · rw [heq]
      exact hs.entry hwaits rfl rfl rfl (.pingFailed hs.allowed hfirst hwindows hsilent) hs.past
        (List.append_nil _).symm
    · rw [heq]
      exact hs.entry hwaits rfl rfl rfl (.ping hs.allowed hfirst hwindows hsilent) hs.past rfl

theorem Keeping.step {s s' : State T} {a : Act} (h : Step readers cfg s a s')
    (hs : Keeping readers cfg begun s) : Keeping readers cfg begun s' := by
  cases h with
  | tick d =>
    exact ⟨hs.lastFrame, hs.pingSent, hs.allowed, Nat.le_add_right_of_le hs.past, hs.answers⟩
  | read f hwaits =>
    obtain ⟨hout, hlog, hlast, hping, hclock⟩ := onRead_outgoing readers cfg f s
    have hallowed : Allowed cfg begun (onRead readers cfg f s).log := by
      rw [hlog]
      exact .frame hs.allowed (hs.lastFrame ▸ hs.past)
    exact hs.entry hwaits hlog hlast hping hallowed (by rw [hlast, hclock]) hout
  | deadline sinkFails hwaits hdue => exact hs.deadline sinkFails hwaits hdue
  | cancel hwaits hgone =>
    refine ⟨hs.lastFrame, hs.pingSent, hs.allowed, hs.past, Or.inr ⟨⟨rfl, hgone⟩, ?_⟩⟩
    exact congrArg (· ++ [.complete cfg.expectedId]) (hs.outgoing hwaits)
  | flush r andStop hsends _ _ =>
    refine ⟨hs.lastFrame, hs.pingSent, hs.allowed, hs.past, ?_⟩
    refine Or.inl (hs.answers.resolve_right fun h => ?_)
    exact ne_stopped_of_sending hsends h.1.1
  | refused r andStop hsends hgone =>
    exact ⟨hs.lastFrame, hs.pingSent, hs.allowed, hs.past,
      hs.answers.imp_right fun h => ⟨⟨rfl, hgone⟩, h.2⟩⟩
  | next r rest _ _ => exact ⟨hs.lastFrame, hs.pingSent, hs.allowed, hs.past, hs.answers⟩
  | drop _ =>
    exact ⟨hs.lastFrame, hs.pingSent, hs.allowed, hs.past,
      hs.answers.imp_right fun h => ⟨⟨h.1.1, rfl⟩, h.2⟩⟩

theorem Keeping.start (begun : ℕ) : Keeping readers cfg begun (start begun) :=
  ⟨rfl, rfl, .nil, le_rfl, Or.inl rfl⟩

/-- In every run the log is one that the windows allow, and the messages that went out
are the answers to it, with the `complete` of a dropped handle at the very end. -/
theorem log_allowed {as : List Act} {s : State T}
    (hrun : Run (Step readers cfg) (start begun) as s) :
    Allowed cfg begun s.log ∧ (s.outgoing = s.entries.flatMap (answer readers cfg) ∨
      (s.phase = .stopped ∧ s.handle = false) ∧ s.outgoing =
        s.entries.flatMap (answer readers cfg) ++ [.complete cfg.expectedId]) := by
  have hs := hrun.invariant (Keeping readers cfg begun) (fun _ _ _ h hs => hs.step h) (.start begun)
  exact ⟨hs.allowed, hs.answers⟩

theorem log_allowed_pinged :
    ∃ s : State String, Run (Step echo echoConfig) (start 0)
        [.tick 10, .deadline false, .tick 10, .deadline false] s ∧
      s.log = [(10, .ping), (20, .idle)] ∧ Allowed echoConfig 0 s.log := by
  have hrun : Run (Step echo echoConfig) (start 0)
      [.tick 10, .deadline false, .tick 10, .deadline false] _ :=
    .cons (.tick _ 10) (.cons (.deadline _ false rfl (by decide))
      (.cons (.tick _ 10) (.cons (.deadline _ false rfl (by decide)) (.nil _))))
  exact ⟨_, hrun, rfl, (log_allowed hrun).1⟩

end Answers

section Silence

variable {T : Type} {readers : Readers T} {cfg : Config} {begun : ℕ}

/-- The channel is full, and its handle is kept but does not read. -/
def Blocked (s : State T) : Prop := s.handle = true ∧ capacity ≤ s.queue.length

/-- The timer is served when it is due, and a send takes time only while the channel is
full and its handle kept. -/
def Prompt (cfg : Config) (s : State T) (a : Act) : Prop :=
  ∀ d, a = .tick d → (s.phase = .waiting → s.clock + d ≤ idleDeadline cfg s) ∧
    (s.phase.pending ≠ [] → Blocked s)

/-- How long the task has waited for room in the channel since it read a frame. -/
def stalled (s : State T) (a : Act) (waited : ℕ) : ℕ :=
  match a, s.phase with
  | .tick d, .sending _ _ => waited + d
  | .read _, _ => 0
  | _, _ => waited

/-- A prompt step, which keeps count of the time that the handle holds the task up. -/
def Timed (readers : Readers T) (cfg : Config) (s : State T × ℕ) (a : Act) (s' : State T × ℕ) :
    Prop :=
  (Step readers cfg s.1 a s'.1 ∧ Prompt cfg s.1 a) ∧ s'.2 = stalled s.1 a s.2

theorem Timed.of_step {s s' : State T} {a : Act} {waited : ℕ} (hstep : Step readers cfg s a s')
    (hprompt : Prompt cfg s a) : Timed readers cfg (s, waited) a (s', stalled s a waited) :=
  ⟨⟨hstep, hprompt⟩, rfl⟩

/-- A task that is not done has heard the server within the second window, or has been
held up since. -/
def Heard (cfg : Config) (s : State T × ℕ) : Prop :=
  s.1.phase ≠ .stopped → s.1.clock ≤ s.1.lastFrame + cfg.idleTimeout + s.2

theorem idleDeadline_le (cfg : Config) (s : State T) :
    idleDeadline cfg s ≤ s.lastFrame + cfg.idleTimeout := by
  rw [idleDeadline]
  split
  · exact le_rfl
  · exact Nat.add_le_add_left (Nat.min_le_right _ _) _

theorem Heard.step {s s' : State T × ℕ} {a : Act} (h : Timed readers cfg s a s')
    (hs : Heard cfg s) : Heard cfg s' := by
  obtain ⟨s, waited⟩ := s
  obtain ⟨s', waited'⟩ := s'
  obtain ⟨⟨hstep, hprompt⟩, rfl⟩ := h
  unfold Heard at hs ⊢
  simp only at hs hstep hprompt ⊢
  cases hstep with
  | tick d =>
    intro hgoing
    cases hphase : s.phase with
    | waiting =>
      have hdue := ((hprompt d rfl).1 hphase).trans (idleDeadline_le cfg s)
      exact hdue.trans (Nat.le_add_right _ _)
    | sending r andStop =>
      have hle := hs hgoing
      have hwaited : stalled s (.tick d) waited = waited + d := by
        unfold stalled
        rw [hphase]
      rw [hwaited]
      show s.clock + d ≤ s.lastFrame + cfg.idleTimeout + (waited + d)
      omega
    | stopped => exact absurd hphase hgoing
  | read f hwaits =>
    obtain ⟨-, -, hlast, -, hclock⟩ := onRead_outgoing readers cfg f s
    intro _
    rw [hlast, hclock, add_assoc]
    exact Nat.le_add_right _ _
  | deadline sinkFails hwaits _ =>
    have hle := hs (ne_stopped_of_waiting hwaits)
    rcases onDeadline_cases cfg sinkFails s with ⟨-, heq⟩ | ⟨-, ⟨-, heq⟩ | ⟨-, heq⟩⟩
    · rw [heq]
      exact fun _ => hle
    · rw [heq]
      exact fun _ => hle
    · rw [heq]
      exact fun _ => hle
  | cancel _ _ => exact fun h => absurd rfl h
  | flush r andStop hsends _ _ => exact fun _ => hs (ne_stopped_of_sending hsends)
  | refused r andStop _ _ => exact fun h => absurd rfl h
  | next r rest _ _ => exact hs
  | drop _ => exact hs

/-- No task outlives a silence of the second window, but for the time that its own handle
holds it up: its subscription has ended, and the handle has every event that it is owed,
or finds it in the channel. -/
theorem silence_ends {as : List Act} {s : State T} {waited : ℕ}
    (hrun : Run (Timed readers cfg) (start begun, 0) as (s, waited))
    (hsilent : s.lastFrame + cfg.idleTimeout + waited < s.clock) :
    s.phase = .stopped ∧ (s.handle = true → Ended readers cfg s.entries ∧
      s.received ++ s.queue = owed readers cfg s.entries) := by
  have hheard := hrun.invariant (Heard cfg) (fun _ _ _ h hs => hs.step h)
    fun _ => Nat.le_add_right _ _
  have hs := hrun.invariant (fun s => Faithful readers cfg s.1)
    (fun _ _ _ h hs => hs.step h.1.1) (.start begun)
  have hstopped : s.phase = .stopped := by
    by_contra hgoing
    exact absurd (hheard hgoing) (by simpa using hsilent)
  refine ⟨hstopped, fun hheld => ⟨hs.ending (Or.inr ⟨hstopped, hheld⟩), ?_⟩⟩
  have heq := hs.delivers (Or.inl hheld)
  rwa [hstopped, Phase.pending, List.append_nil] at heq

theorem silence_ends_pinged :
    ∃ s : State String, Run (Timed echo echoConfig) (start 0, 0)
        [.tick 10, .deadline false, .tick 10, .deadline false, .flush, .tick 1] (s, 0) ∧
      s.phase = .stopped := by
  have hstep : ∀ (s : State String) (d : ℕ), s.phase.pending = [] →
      (s.phase = .waiting → s.clock + d ≤ idleDeadline echoConfig s) →
        Prompt echoConfig s (.tick d) := by
    intro s d hpending hwaits d' hd
    cases hd
    exact ⟨hwaits, fun h => absurd hpending h⟩
  have hother : ∀ (s : State String) (a : Act), (∀ d, a ≠ .tick d) → Prompt echoConfig s a :=
    fun s a ha d hd => absurd hd (ha d)
  have hrun : Run (Timed echo echoConfig) (start 0, 0)
      [.tick 10, .deadline false, .tick 10, .deadline false, .flush, .tick 1] (_, _) :=
    .cons (.of_step (.tick _ 10) (hstep _ 10 rfl fun _ => by decide))
      (.cons (.of_step (.deadline _ false rfl (by decide)) (hother _ _ (by simp)))
      (.cons (.of_step (.tick _ 10) (hstep _ 10 rfl fun _ => by decide))
      (.cons (.of_step (.deadline _ false rfl (by decide)) (hother _ _ (by simp)))
      (.cons (.of_step (.flush _ _ true rfl rfl (by decide)) (hother _ _ (by simp)))
      (.cons (.of_step (.tick _ 1) (hstep _ 1 rfl fun h => by cases h)) (.nil _))))))
  exact ⟨_, hrun, (silence_ends hrun (by decide)).1⟩

end Silence

end MidnightRs.Subscriptions
