import MidnightRs.Errors
import MidnightRs.Loops

/-!
The task behind a GraphQL subscription. It reads the frames of a connection, hands
their events to the subscription's handle through a bounded channel, and tears a
silent connection down. A state holds both ends of the channel, and a log keeps what
the task read and when it pinged.
-/
namespace MidnightRs.Subscriptions

open Loops (Run)

section Frames

inductive Json where
  | null
  | bool (b : Bool)
  | number (text : String)
  | string (s : String)
  | array (items : List Json)
  | object (fields : List (String × Json))

def Json.get : Json → String → Option Json
  | .object fields, key => (fields.find? fun f => f.1 = key).map Prod.snd
  | _, _ => none

def Json.asStr : Json → Option String
  | .string s => some s
  | _ => none

structure GraphQLResponse where
  data : Option Json
  errors : Option (List String)

/-- The errors win over a partial result that carries both. -/
def GraphQLResponse.intoResult (response : GraphQLResponse) :
    Except IndexerError (Option Json) :=
  match response.errors with
  | some (e :: errors) => .error (.graphQL (e :: errors))
  | _ => .ok response.data

/-- What the JSON library makes of a text, of an envelope and of an event. -/
structure Readers (T : Type) where
  json : String → Option Json
  envelope : Json → Except String GraphQLResponse
  value : Json → Except String T
  render : Json → String

/-- A WebSocket message. Binary messages, pongs and raw frames are one kind here. -/
inductive Message where
  | text (t : String)
  | ping (payload : Bytes)
  | close
  | other

/-- What the stream yields: its end, a read error or a message. -/
abbrev Frame := Option (Except String Message)

abbrev Item (T : Type) := Except IndexerError T

/-- What the task does about a frame. -/
inductive Reply (T : Type) where
  | ignore
  | pong (payload : Option Bytes)
  | item (r : Item T)
  | last (e : IndexerError)
  | stop

variable {T : Type} (readers : Readers T) (expectedId : String)

def onNext (parsed : Json) : Reply T :=
  if (parsed.get "id").bind Json.asStr ≠ some expectedId then .ignore
  else match parsed.get "payload" with
    | none => .ignore
    | some payload =>
      match readers.envelope payload with
      | .error e => .item (.error (.deserialization s!"subscription payload: {e}"))
      | .ok response =>
        match response.intoResult with
        | .error e => .last e
        | .ok none => .ignore
        | .ok (some data) =>
          match readers.value data with
          | .error e => .item (.error (.deserialization s!"subscription event: {e}"))
          | .ok event => .item (.ok event)

def onText (text : String) : Reply T :=
  match readers.json text with
  | none => .ignore
  | some parsed =>
    let msgType := ((parsed.get "type").bind Json.asStr).getD ""
    if msgType = "next" then onNext readers expectedId parsed
    else if msgType = "ping" then .pong none
    else if msgType = "error" then
      let message := ((parsed.get "payload").map readers.render).getD "unknown error"
      .last (.protocol s!"subscription error: {message}")
    else if msgType = "complete" then .stop
    else .ignore

def onFrame : Frame → Reply T
  | none => .stop
  | some (.error e) => .last (.transport s!"WS read error: {e}")
  | some (.ok (.text t)) => onText readers expectedId t
  | some (.ok (.ping payload)) => .pong (some payload)
  | some (.ok .close) => .stop
  | some (.ok .other) => .ignore

end Frames

section Task

/-- The room of the channel. -/
def capacity : ℕ := 64

/-- The subscription of one connection: its id and its two windows of silence. -/
structure Config where
  expectedId : String
  pingAfter : ℕ
  idleTimeout : ℕ

def idleError (cfg : Config) : IndexerError :=
  .transport s!"subscription idle timeout: no frames from server for {cfg.idleTimeout}"

def pingError : IndexerError := .transport "failed to send keepalive ping"

inductive Outgoing where
  | pong (payload : Option Bytes)
  | ping
  | complete (id : String)
deriving DecidableEq, Repr

/-- What a log keeps: a frame that was read, a keepalive ping that was sent or that
failed, and the end of a silent connection. -/
inductive Entry where
  | frame (f : Frame)
  | ping
  | pingFailed
  | idle

/-- Where the task stands: at its select, at a send into the channel, or done. -/
inductive Phase (T : Type) where
  | waiting
  | sending (r : Item T) (andStop : Bool)
  | stopped

structure State (T : Type) where
  phase : Phase T
  clock : ℕ
  lastFrame : ℕ
  pingSent : Bool
  queue : List (Item T)
  handle : Bool
  received : List (Item T)
  outgoing : List Outgoing
  log : List (ℕ × Entry)

variable {T : Type}

/-- The task as the subscription starts it. -/
def start (now : ℕ) : State T where
  phase := .waiting
  clock := now
  lastFrame := now
  pingSent := false
  queue := []
  handle := true
  received := []
  outgoing := []
  log := []

def idleDeadline (cfg : Config) (s : State T) : ℕ :=
  s.lastFrame + if s.pingSent then cfg.idleTimeout else min cfg.pingAfter cfg.idleTimeout

def State.note (s : State T) (e : Entry) : State T := { s with log := s.log ++ [(s.clock, e)] }

/-- The select's branch of a frame. -/
def onRead (readers : Readers T) (cfg : Config) (f : Frame) (s : State T) : State T :=
  let s := { s.note (.frame f) with lastFrame := s.clock, pingSent := false }
  match onFrame readers cfg.expectedId f with
  | .ignore => s
  | .pong payload => { s with outgoing := s.outgoing ++ [.pong payload] }
  | .item r => { s with phase := .sending r false }
  | .last e => { s with phase := .sending (.error e) true }
  | .stop => { s with phase := .stopped }

/-- The select's branch of the idle deadline, where the sink may refuse the ping. -/
def onDeadline (cfg : Config) (sinkFails : Bool) (s : State T) : State T :=
  if s.pingSent || decide (cfg.idleTimeout ≤ cfg.pingAfter) then
    { s.note .idle with phase := .sending (.error (idleError cfg)) true }
  else if sinkFails then
    { s.note .pingFailed with phase := .sending (.error pingError) true }
  else { s.note .ping with pingSent := true, outgoing := s.outgoing ++ [.ping] }

inductive Act where
  | tick (d : ℕ)
  | read (f : Frame)
  | deadline (sinkFails : Bool)
  | cancel
  | flush
  | refused
  | next
  | drop

/-- A step of the task, of its clock or of the handle. A frame and a due deadline may
both be ready, and the select takes either. -/
inductive Step (readers : Readers T) (cfg : Config) : State T → Act → State T → Prop
  | tick (s : State T) (d : ℕ) : Step readers cfg s (.tick d) { s with clock := s.clock + d }
  | read (s : State T) (f : Frame) (hwaits : s.phase = .waiting) :
      Step readers cfg s (.read f) (onRead readers cfg f s)
  | deadline (s : State T) (sinkFails : Bool) (hwaits : s.phase = .waiting)
      (hdue : idleDeadline cfg s ≤ s.clock) :
      Step readers cfg s (.deadline sinkFails) (onDeadline cfg sinkFails s)
  | cancel (s : State T) (hwaits : s.phase = .waiting) (hgone : s.handle = false) :
      Step readers cfg s .cancel
        { s with phase := .stopped, outgoing := s.outgoing ++ [.complete cfg.expectedId] }
  | flush (s : State T) (r : Item T) (andStop : Bool) (hsends : s.phase = .sending r andStop)
      (hheld : s.handle = true) (hroom : s.queue.length < capacity) :
      Step readers cfg s .flush
        { s with
          phase := if andStop then .stopped else .waiting
          queue := s.queue ++ [r] }
  | refused (s : State T) (r : Item T) (andStop : Bool) (hsends : s.phase = .sending r andStop)
      (hgone : s.handle = false) : Step readers cfg s .refused { s with phase := .stopped }
  | next (s : State T) (r : Item T) (rest : List (Item T)) (hheld : s.handle = true)
      (hqueue : s.queue = r :: rest) :
      Step readers cfg s .next { s with queue := rest, received := s.received ++ [r] }
  | drop (s : State T) (hheld : s.handle = true) :
      Step readers cfg s .drop { s with handle := false }

end Task

section Delivery

variable {T : Type} (readers : Readers T) (cfg : Config)

def onEntry : Entry → Reply T
  | .frame f => onFrame readers cfg.expectedId f
  | .ping => .ignore
  | .pingFailed => .last pingError
  | .idle => .last (idleError cfg)

def Reply.Ends : Reply T → Prop
  | .last _ => True
  | .stop => True
  | _ => False

def Open (es : List Entry) : Prop := ∀ e ∈ es, ¬ (onEntry readers cfg e).Ends

/-- The entries end with the one that ends the subscription. -/
def Ended (es : List Entry) : Prop :=
  ∃ before e, es = before ++ [e] ∧ Open readers cfg before ∧ (onEntry readers cfg e).Ends

/-- What the entries owe the handle, up to the first that ends the subscription. -/
def owed : List Entry → List (Item T)
  | [] => []
  | e :: es =>
    match onEntry readers cfg e with
    | .item r => r :: owed es
    | .last e => [.error e]
    | .stop => []
    | _ => owed es

def State.entries (s : State T) : List Entry := s.log.map Prod.snd

def Phase.pending : Phase T → List (Item T)
  | .waiting => []
  | .sending r _ => [r]
  | .stopped => []

@[simp] theorem entries_note (s : State T) (e : Entry) :
    (s.note e).entries = s.entries ++ [e] := by
  simp [State.entries, State.note]

variable {readers cfg}

theorem owed_append {es : List Entry} (h : Open readers cfg es) (fs : List Entry) :
    owed readers cfg (es ++ fs) = owed readers cfg es ++ owed readers cfg fs := by
  induction es with
  | nil => rfl
  | cons e es ih =>
    obtain ⟨hhead, htail⟩ := List.forall_mem_cons.mp h
    have hrest := ih htail
    rw [List.cons_append, owed, owed]
    cases hreply : onEntry readers cfg e with
    | item r => exact congrArg (r :: ·) hrest
    | ignore => exact hrest
    | pong payload => exact hrest
    | last error => exact absurd (by rw [hreply]; trivial) hhead
    | stop => exact absurd (by rw [hreply]; trivial) hhead

theorem Open.append {es : List Entry} {e : Entry} (h : Open readers cfg es)
    (he : ¬ (onEntry readers cfg e).Ends) : Open readers cfg (es ++ [e]) := by
  intro x hx
  rcases List.mem_append.mp hx with hx | hx
  · exact h x hx
  · rw [List.mem_singleton.mp hx]
    exact he

theorem onNext_item_error {parsed : Json} {id : String} {error : IndexerError}
    (h : onNext readers id parsed = .item (.error error)) :
    ∃ message, error = .deserialization message := by
  rw [onNext] at h
  split at h
  · cases h
  · split at h
    · cases h
    · split at h
      · cases h
        exact ⟨_, rfl⟩
      · split at h
        · cases h
        · cases h
        · split at h
          · cases h
            exact ⟨_, rfl⟩
          · cases h

/-- The one error that an event can hand on without ending the subscription. -/
theorem onEntry_item_error {e : Entry} {error : IndexerError}
    (h : onEntry readers cfg e = .item (.error error)) :
    ∃ message, error = .deserialization message := by
  cases e with
  | ping => cases h
  | pingFailed => cases h
  | idle => cases h
  | frame f =>
    rcases f with _ | _ | text | payload | _ | _
    case some.ok.text =>
      rw [onEntry, onFrame, onText] at h
      split at h
      case h_1 => cases h
      case h_2 parsed _ =>
        dsimp only at h
        split_ifs at h
        case pos => exact onNext_item_error h
    all_goals cases h

/-- An error before the last item is an event that does not deserialize. -/
theorem owed_error_last (es : List Entry) {before after : List (Item T)} {error : IndexerError}
    (h : owed readers cfg es = before ++ .error error :: after) (hafter : after ≠ []) :
    ∃ message, error = .deserialization message := by
  induction es generalizing before with
  | nil =>
    rw [owed] at h
    exact absurd h (by simp)
  | cons e es ih =>
    rw [owed] at h
    cases hreply : onEntry readers cfg e with
    | item r =>
      rw [hreply] at h
      cases before with
      | nil =>
        obtain ⟨hr, -⟩ := List.cons.inj h
        exact onEntry_item_error (hr ▸ hreply)
      | cons b before => exact ih (List.cons.inj h).2
    | ignore =>
      rw [hreply] at h
      exact ih h
    | pong payload =>
      rw [hreply] at h
      exact ih h
    | last last =>
      rw [hreply] at h
      have hlen := congrArg List.length h
      have hpos := List.length_pos_of_ne_nil hafter
      simp only [List.length_cons, List.length_append, List.length_nil] at hlen
      omega
    | stop =>
      rw [hreply] at h
      exact absurd h (by simp)

/-- How the task stands to what it read. -/
structure Faithful (readers : Readers T) (cfg : Config) (s : State T) : Prop where
  going : s.phase = .waiting ∨ (∃ r, s.phase = .sending r false) → Open readers cfg s.entries
  ending : (∃ r, s.phase = .sending r true) ∨ s.phase = .stopped ∧ s.handle = true →
    Ended readers cfg s.entries
  delivers : s.handle = true ∨ s.phase ≠ .stopped →
    s.received ++ s.queue ++ s.phase.pending = owed readers cfg s.entries
  behind : s.received ++ s.queue <+: owed readers cfg s.entries
  room : s.queue.length ≤ capacity

/-- Where the task stands after a reply. -/
def Phase.after : Reply T → Phase T
  | .item r => .sending r false
  | .last e => .sending (.error e) true
  | .stop => .stopped
  | _ => .waiting

theorem not_ends_of_after {r : Reply T}
    (h : Phase.after r = .waiting ∨ ∃ x, Phase.after r = .sending x false) : ¬ r.Ends := by
  cases r with
  | ignore => exact not_false
  | pong payload => exact not_false
  | item x => exact not_false
  | last e =>
    rcases h with h | ⟨x, h⟩
    · cases h
    · cases h
  | stop =>
    rcases h with h | ⟨x, h⟩
    · cases h
    · cases h

theorem ends_of_after {r : Reply T}
    (h : (∃ x, Phase.after r = .sending x true) ∨ Phase.after r = .stopped) : r.Ends := by
  by_contra hends
  cases r with
  | last e => exact hends trivial
  | stop => exact hends trivial
  | ignore =>
    rcases h with ⟨x, h⟩ | h
    · cases h
    · cases h
  | pong payload =>
    rcases h with ⟨x, h⟩ | h
    · cases h
    · cases h
  | item r =>
    rcases h with ⟨x, h⟩ | h
    · cases h
    · cases h

theorem onRead_phase {f : Frame} {s : State T} (hwaits : s.phase = .waiting) :
    (onRead readers cfg f s).phase = .after (onEntry readers cfg (.frame f)) := by
  rw [onRead, onEntry]
  cases onFrame readers cfg.expectedId f with
  | ignore => exact hwaits
  | pong payload => exact hwaits
  | item r => rfl
  | last e => rfl
  | stop => rfl

/-- The branch of a frame leaves the channel alone. -/
theorem onRead_rest (readers : Readers T) (cfg : Config) (f : Frame) (s : State T) :
    (onRead readers cfg f s).entries = s.entries ++ [.frame f] ∧
      (onRead readers cfg f s).handle = s.handle ∧ (onRead readers cfg f s).queue = s.queue ∧
      (onRead readers cfg f s).received = s.received := by
  rw [onRead, ← entries_note]
  cases onFrame readers cfg.expectedId f with
  | ignore => exact ⟨rfl, rfl, rfl, rfl⟩
  | pong payload => exact ⟨rfl, rfl, rfl, rfl⟩
  | item r => exact ⟨rfl, rfl, rfl, rfl⟩
  | last e => exact ⟨rfl, rfl, rfl, rfl⟩
  | stop => exact ⟨rfl, rfl, rfl, rfl⟩

theorem onDeadline_cases (cfg : Config) (sinkFails : Bool) (s : State T) :
    ((s.pingSent = true ∨ cfg.idleTimeout ≤ cfg.pingAfter) ∧ onDeadline cfg sinkFails s =
        { s.note .idle with phase := .sending (.error (idleError cfg)) true }) ∨
      (s.pingSent = false ∧ cfg.pingAfter < cfg.idleTimeout) ∧
        (sinkFails = true ∧ onDeadline cfg sinkFails s =
            { s.note .pingFailed with phase := .sending (.error pingError) true } ∨
          sinkFails = false ∧ onDeadline cfg sinkFails s =
            { s.note .ping with pingSent := true, outgoing := s.outgoing ++ [.ping] }) := by
  rw [onDeadline]
  cases hsent : s.pingSent with
  | true => exact Or.inl ⟨Or.inl rfl, rfl⟩
  | false =>
    by_cases hle : cfg.idleTimeout ≤ cfg.pingAfter
    · rw [decide_eq_true hle]
      exact Or.inl ⟨Or.inr hle, rfl⟩
    · rw [decide_eq_false hle]
      refine Or.inr ⟨⟨rfl, by omega⟩, ?_⟩
      cases sinkFails with
      | true => exact Or.inl ⟨rfl, rfl⟩
      | false => exact Or.inr ⟨rfl, rfl⟩

theorem ne_stopped_of_waiting {p : Phase T} (h : p = .waiting) : p ≠ .stopped := by
  rw [h]
  intro h
  cases h

theorem ne_stopped_of_sending {p : Phase T} {r : Item T} {andStop : Bool}
    (h : p = .sending r andStop) : p ≠ .stopped := by
  rw [h]
  intro h
  cases h

/-- The task takes in one entry at its select. -/
theorem Faithful.entry {s s' : State T} {e : Entry} (hs : Faithful readers cfg s)
    (hwaits : s.phase = .waiting) (hphase : s'.phase = .after (onEntry readers cfg e))
    (hentries : s'.entries = s.entries ++ [e])
    (hrest : s'.handle = s.handle ∧ s'.queue = s.queue ∧ s'.received = s.received) :
    Faithful readers cfg s' := by
  obtain ⟨hhandle, hqueue, hreceived⟩ := hrest
  have hopen := hs.going (Or.inl hwaits)
  have howed : owed readers cfg s'.entries =
      owed readers cfg s.entries ++ (Phase.after (onEntry readers cfg e)).pending := by
    rw [hentries, owed_append hopen]
    refine congrArg (owed readers cfg s.entries ++ ·) ?_
    rw [owed]
    cases onEntry readers cfg e with
    | ignore => rfl
    | pong payload => rfl
    | item r => rfl
    | last error => rfl
    | stop => rfl
  have heq : s.received ++ s.queue = owed readers cfg s.entries := by
    have heq := hs.delivers (Or.inr (ne_stopped_of_waiting hwaits))
    rwa [hwaits, Phase.pending, List.append_nil] at heq
  constructor
  · intro h
    rw [hphase] at h
    rw [hentries]
    exact hopen.append (not_ends_of_after h)
  · intro h
    rw [hphase] at h
    exact ⟨s.entries, e, hentries, hopen, ends_of_after (h.imp_right And.left)⟩
  · intro h
    rw [hqueue, hreceived, hphase, howed, heq]
  · rw [hqueue, hreceived, howed, heq]
    exact List.prefix_append _ _
  · rw [hqueue]
    exact hs.room

theorem Faithful.flush {s : State T} {r : Item T} {andStop : Bool} (hs : Faithful readers cfg s)
    (hsends : s.phase = .sending r andStop) (hroom : s.queue.length < capacity) :
    Faithful readers cfg
      { s with
        phase := if andStop then .stopped else .waiting
        queue := s.queue ++ [r] } := by
  have heq := hs.delivers (Or.inr (ne_stopped_of_sending hsends))
  rw [hsends, Phase.pending, List.append_assoc] at heq
  have hpending : (if andStop then Phase.stopped else .waiting : Phase T).pending = [] := by
    cases andStop with
    | true => rfl
    | false => rfl
  constructor
  · intro h
    cases andStop with
    | false => exact hs.going (Or.inr ⟨r, hsends⟩)
    | true =>
      rcases h with h | ⟨x, h⟩
      · cases h
      · cases h
  · intro h
    cases andStop with
    | true => exact hs.ending (Or.inl ⟨r, hsends⟩)
    | false =>
      rcases h with ⟨x, h⟩ | ⟨h, -⟩
      · cases h
      · cases h
  · intro _
    rw [hpending, List.append_nil]
    exact heq
  · exact heq ▸ List.prefix_refl _
  · rw [List.length_append, List.length_singleton]
    exact hroom

theorem Faithful.stopped {s s' : State T} (hs : Faithful readers cfg s)
    (hphase : s.phase ≠ .stopped) (hstopped : s'.phase = .stopped) (hgone : s'.handle = false)
    (hentries : s'.entries = s.entries)
    (hrest : s'.queue = s.queue ∧ s'.received = s.received) : Faithful readers cfg s' := by
  obtain ⟨hqueue, hreceived⟩ := hrest
  constructor
  · rw [hstopped]
    rintro (h | ⟨x, h⟩)
    · cases h
    · cases h
  · rw [hstopped, hgone]
    rintro (⟨x, h⟩ | ⟨-, h⟩)
    · cases h
    · cases h
  · rw [hstopped, hgone]
    rintro (h | h)
    · cases h
    · exact absurd rfl h
  · rw [hentries, hqueue, hreceived, ← hs.delivers (Or.inr hphase)]
    exact List.prefix_append _ _
  · rw [hqueue]
    exact hs.room

theorem Faithful.step {s s' : State T} {a : Act} (h : Step readers cfg s a s')
    (hs : Faithful readers cfg s) : Faithful readers cfg s' := by
  cases h with
  | tick d => exact ⟨hs.going, hs.ending, hs.delivers, hs.behind, hs.room⟩
  | read f hwaits =>
    obtain ⟨hentries, hrest⟩ := onRead_rest readers cfg f s
    exact hs.entry hwaits (onRead_phase hwaits) hentries hrest
  | deadline sinkFails hwaits _ =>
    rcases onDeadline_cases cfg sinkFails s with ⟨-, heq⟩ | ⟨-, ⟨-, heq⟩ | ⟨-, heq⟩⟩
    · rw [heq]
      exact hs.entry (e := .idle) hwaits rfl (entries_note s .idle) ⟨rfl, rfl, rfl⟩
    · rw [heq]
      exact hs.entry (e := .pingFailed) hwaits rfl (entries_note s .pingFailed) ⟨rfl, rfl, rfl⟩
    · rw [heq]
      exact hs.entry (e := .ping) hwaits hwaits (entries_note s .ping) ⟨rfl, rfl, rfl⟩
  | cancel hwaits hgone =>
    exact hs.stopped (ne_stopped_of_waiting hwaits) rfl hgone rfl ⟨rfl, rfl⟩
  | flush r andStop hsends _ hroom => exact hs.flush hsends hroom
  | refused r andStop hsends hgone =>
    exact hs.stopped (ne_stopped_of_sending hsends) rfl hgone rfl ⟨rfl, rfl⟩
  | next r rest _ hqueue =>
    have hmoved : s.received ++ [r] ++ rest = s.received ++ s.queue := by
      rw [hqueue, List.append_assoc]
      rfl
    have hroom := hs.room
    rw [hqueue, List.length_cons] at hroom
    refine ⟨hs.going, hs.ending, ?_, ?_, Nat.le_of_succ_le hroom⟩
    · rw [hmoved]
      exact hs.delivers
    · rw [hmoved]
      exact hs.behind
  | drop hheld =>
    refine ⟨hs.going, fun h => hs.ending (h.imp_right fun h => ⟨h.1, hheld⟩), ?_, hs.behind,
      hs.room⟩
    exact fun _ => hs.delivers (Or.inl hheld)

theorem Faithful.start (now : ℕ) : Faithful readers cfg (start now) where
  going := fun _ _ h => absurd h List.not_mem_nil
  ending := by
    rintro (⟨r, h⟩ | ⟨h, -⟩)
    · cases h
    · cases h
  delivers := fun _ => rfl
  behind := List.nil_prefix
  room := Nat.zero_le _

/-- Whatever the order of frames, deadlines, sends and the handle's calls, the handle
gets the events of the frames that the task read, in order and none twice. A handle
that sees the subscription end has got them all, and the error that ends it is the
last. -/
theorem handle_receives_owed {now : ℕ} {as : List Act} {s : State T}
    (hrun : Run (Step readers cfg) (start now) as s) :
    s.received ++ s.queue <+: owed readers cfg s.entries ∧ s.queue.length ≤ capacity ∧
      (s.handle = true → s.phase = .stopped → s.queue = [] →
        s.received = owed readers cfg s.entries ∧ Ended readers cfg s.entries) ∧
      ∀ before error after, owed readers cfg s.entries = before ++ .error error :: after →
        after ≠ [] → ∃ message, error = .deserialization message := by
  have hs := hrun.invariant (Faithful readers cfg) (fun _ _ _ h hs => hs.step h) (.start now)
  refine ⟨hs.behind, hs.room, ?_, fun before error after h => owed_error_last s.entries h⟩
  intro hheld hstopped hempty
  have heq := hs.delivers (Or.inl hheld)
  rw [hstopped, hempty, Phase.pending, List.append_nil, List.append_nil] at heq
  exact ⟨heq, hs.ending (Or.inr ⟨hstopped, hheld⟩)⟩

/-- The text of an event of the subscription `1` whose data is the string `a`. -/
def eventText : String :=
  "\x7b\"type\":\"next\",\"id\":\"1\",\"payload\":\x7b\"data\":\"a\"\x7d\x7d"

/-- Readers that know this text, and events that are strings. -/
def echo : Readers String where
  json t :=
    if t = eventText then
      some (.object [("type", .string "next"), ("id", .string "1"),
        ("payload", .object [("data", .string "a")])])
    else none
  envelope payload := .ok ⟨payload.get "data", none⟩
  value data := (data.asStr.map Except.ok).getD (.error "not a string")
  render _ := ""

def echoConfig : Config := ⟨"1", 10, 20⟩

theorem handle_receives_owed_echo :
    ∃ s : State String, Run (Step echo echoConfig) (start 0)
        [.read (some (.ok (.text eventText))), .flush, .next, .read none] s ∧
      s.received = [.ok "a"] ∧ s.received ++ s.queue <+: owed echo echoConfig s.entries := by
  have hrun : Run (Step echo echoConfig) (start 0)
      [.read (some (.ok (.text eventText))), .flush, .next, .read none] _ :=
    .cons (.read _ _ rfl) (.cons (.flush _ (.ok "a") false rfl rfl (by decide))
      (.cons (.next _ (.ok "a") [] rfl rfl) (.cons (.read _ _ rfl) (.nil _))))
  exact ⟨_, hrun, rfl, (handle_receives_owed hrun).1⟩

end Delivery

end MidnightRs.Subscriptions
