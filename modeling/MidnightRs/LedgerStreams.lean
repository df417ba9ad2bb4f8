import MidnightRs.Replay
import MidnightRs.Streams

/-!
The ledger-event replay against an indexer that serves one stream. Such an
indexer may drop connections and lose the progress receiver, but a connection
that it keeps open sends all it owes, in order. Whatever the interruptions, a
replay that returns has played the stream from its cursor event by event.
-/
namespace MidnightRs.Replay

open Loops Streams

structure LedgerEvent where
  id : ℤ
  raw : String
deriving DecidableEq, Repr

/-- The message for an event of a stream whose newest id is `maxId`. -/
def LedgerEvent.message (e : LedgerEvent) (maxId : ℤ) : LedgerEventMessage :=
  ⟨e.id, e.raw, maxId⟩

@[simp] theorem LedgerEvent.message_id (e : LedgerEvent) (maxId : ℤ) :
    (e.message maxId).id = e.id := rfl

/-- The bytes and the generation of an event. -/
def readEvent (tagging : Tagging) (kind : String) (e : LedgerEvent) :
    Except WalletError (Bytes × LedgerVersion) :=
  match eventBytes (e.message e.id) kind with
  | .error err => .error err
  | .ok raw =>
    match tagging.ofTagged raw with
    | .error err => .error err
    | .ok ledger => .ok (raw, ledger)

section Play

variable {S : Type*}

/-- A wallet of the generation `ledger` plays a stream: each event in turn, and
none from the first event of a later generation on. -/
def play (read : LedgerEvent → Except WalletError (Bytes × LedgerVersion)) (ledger : LedgerVersion)
    (step : S → ℤ → Bytes → LedgerVersion → Except WalletError S) :
    S → ℤ → List LedgerEvent → Except WalletError (S × LedgerReplay)
  | s, last, [] => .ok (s, ⟨last, none⟩)
  | s, last, e :: es =>
    match read e with
    | .error err => .error err
    | .ok (raw, v) =>
      if ledger < v then .ok (s, ⟨last, some (e.id, v)⟩)
      else
        match step s e.id raw v with
        | .error err => .error err
        | .ok s' => play read ledger step s' e.id es

end Play

section Serving

/-- What one connection sends that owes the events `owed` of a stream with the
newest id `maxId`. Where `mayFail` does not hold, nothing interrupts it. -/
inductive Sends (mayFail : Prop) (maxId : ℤ) : List LedgerEvent → List Event → Prop
  | silent (h : mayFail ∨ maxId ≠ 0) : Sends mayFail maxId [] []
  | ended (h : mayFail) (rest : List Event) : Sends mayFail maxId [] (.ended :: rest)
  | failed (h : mayFail) (owed : List LedgerEvent) (e : IndexerError) (rest : List Event) :
      Sends mayFail maxId owed (.failed e :: rest)
  /-- On a chain without events the message says so. -/
  | empty (h : maxId = 0) (id : ℤ) (raw : String) (now : ℕ) (alive : Bool) (rest : List Event) :
      Sends mayFail maxId [] (.message ⟨id, raw, maxId⟩ now alive :: rest)
  | event {owed : List LedgerEvent} {events : List Event} (e : LedgerEvent) (now : ℕ)
      (alive : Bool) (h : mayFail ∨ alive = true) (hrest : Sends mayFail maxId owed events) :
      Sends mayFail maxId (e :: owed) (.message (e.message maxId) now alive :: events)

/-- How an indexer with the stream `es` answers a subscription from `n` on. -/
inductive Serves (mayFail : Prop) (es : List LedgerEvent) (n : ℤ) : Attempt → Prop
  | refused (h : mayFail) (e : IndexerError) : Serves mayFail es n (.refused e)
  | serves (events : List Event)
      (h : Sends mayFail (lastId LedgerEvent.id 0 es) (startingAt LedgerEvent.id n es) events) :
      Serves mayFail es n (.serves events)

/-- The indexer's answers to the subscriptions of a replay, in their order.
Each is a function of the id that is asked for. -/
abbrev Answers := List (ℤ → Attempt)

/-- An indexer that serves the stream, through whatever interruptions. -/
def Honest (es : List LedgerEvent) (answers : Answers) : Prop :=
  ∀ answer ∈ answers, ∀ n, Serves True es n (answer n)

/-- An uninterrupted answer. -/
def serveAll (es : List LedgerEvent) (n : ℤ) : Attempt :=
  if es = [] then .serves [.message ⟨0, "", 0⟩ 0 true]
  else .serves ((startingAt LedgerEvent.id n es).map (fun e =>
    .message (e.message (lastId LedgerEvent.id 0 es)) 0 true))

end Serving

variable {σ : Type*}

/-- One event handed to `apply`, on success. -/
def Args.step (args : Args σ) (s : σ) (id : ℤ) (raw : Bytes) (v : LedgerVersion) :
    Except WalletError σ :=
  match args.apply s id raw v with
  | (s', .ok ()) => .ok s'
  | (_, .error e) => .error e

def Args.play (args : Args σ) : σ → ℤ → List LedgerEvent → Except WalletError (σ × LedgerReplay) :=
  Replay.play (readEvent args.tagging args.stream.kind) args.ledger args.step

/-- The replay, when each subscription gets the next answer. -/
def replayAgainst (args : Args σ) (sink : σ) (answers : Answers) :
    State σ × Option (Except WalletError LedgerReplay) :=
  match loop (fun st answer => attempt args st (answer (resumeId st.count st.lastId)))
      (State.init args sink) answers with
  | .again st => (st, none)
  | .leave (st, result) => (st, some result)

/-- Answers are attempts, once it is known what each subscription asked for. -/
theorem replayAgainst_eq (args : Args σ) (sink : σ) (answers : Answers) :
    ∃ attempts, replayAgainst args sink answers = replayLedgerEvents args sink attempts := by
  have hloop : ∀ st : State σ, ∃ attempts : List Attempt,
      loop (fun st answer => attempt args st (answer (resumeId st.count st.lastId))) st answers =
        loop (attempt args) st attempts := by
    induction answers with
    | nil => exact fun st => ⟨[], rfl⟩
    | cons answer answers ih =>
      intro st
      cases hpass : attempt args st (answer (resumeId st.count st.lastId)) with
      | again st' =>
        obtain ⟨attempts, hrest⟩ := ih st'
        refine ⟨answer (resumeId st.count st.lastId) :: attempts, ?_⟩
        simp only [loop, hpass, hrest]
      | leave out =>
        refine ⟨[answer (resumeId st.count st.lastId)], ?_⟩
        simp only [loop, hpass]
  obtain ⟨attempts, h⟩ := hloop (State.init args sink)
  refine ⟨attempts, ?_⟩
  unfold replayAgainst replayLedgerEvents
  exact h ▸ rfl

section Feeding

/-- The sink, once it has taken all that a trace hands over. -/
def feed (args : Args σ) (sink : σ) : List Action → σ
  | [] => sink
  | .handOver id raw v :: older => (args.apply (feed args sink older) id raw v).1
  | .subscribe _ :: older => feed args sink older
  | .deliver _ :: older => feed args sink older

/-- The sink is what the trace has handed over to it. -/
def Fed (args : Args σ) (sink : σ) (st : State σ) : Prop := st.sink = feed args sink st.trace

def ExitFed (args : Args σ) (sink : σ) : Exit σ → Prop
  | .reconnect st => Fed args sink st
  | .finish st _ => Fed args sink st

variable {args : Args σ} {sink : σ}

theorem Fed.retryOr {st : State σ} (h : Fed args sink st) (e : IndexerError) :
    ExitFed args sink (st.retryOr e) := by
  unfold State.retryOr
  split
  · exact h
  · exact h

theorem handOver_fed {st : State σ} (h : Fed args sink st) (msg : LedgerEventMessage)
    (raw : Bytes) (v : LedgerVersion) (now : ℕ) (alive : Bool) :
    (handOver args st msg raw v now alive).Holds (fun conn => Fed args sink conn.st)
      (ExitFed args sink) := by
  have hfed : (args.apply st.sink msg.id raw v).1 =
      feed args sink (.handOver msg.id raw v :: st.trace) := by
    rw [h]
    rfl
  unfold handOver
  cases hout : (args.apply st.sink msg.id raw v).2 with
  | error e =>
    simp only [hout]
    exact hfed
  | ok u =>
    simp only [hout, consume, Pass.holds_ite]
    exact ⟨fun _ => hfed, fun _ => ⟨fun _ => hfed, fun _ => hfed⟩⟩

theorem onMessage_fed {conn : Conn σ} (h : Fed args sink conn.st) (msg : LedgerEventMessage)
    (now : ℕ) (alive : Bool) :
    (onMessage args conn msg now alive).Holds (fun conn => Fed args sink conn.st)
      (ExitFed args sink) := by
  have hdelivered : Fed args sink (conn.st.record (.deliver msg)) := h
  unfold onMessage
  cases orderRegression msg.id conn.connHigh with
  | some prev => exact hdelivered
  | none =>
    simp only
    split
    · exact hdelivered
    split
    · split
      · exact hdelivered
      · exact hdelivered
    cases eventBytes msg args.stream.kind with
    | error e => exact hdelivered
    | ok raw =>
      cases hgen : args.tagging.ofTagged raw with
      | error e =>
        simp only [hgen]
        exact hdelivered
      | ok v =>
        simp only [hgen]
        split
        · exact hdelivered
        · exact handOver_fed hdelivered msg raw v now alive

theorem onEvent_fed {conn : Conn σ} (h : Fed args sink conn.st) (e : Event) :
    (onEvent args conn e).Holds (fun conn => Fed args sink conn.st) (ExitFed args sink) := by
  cases e with
  | message msg now alive => exact onMessage_fed h msg now alive
  | failed e => exact h.retryOr e
  | ended =>
    simp only [onEvent, Pass.holds_ite]
    exact ⟨fun _ => h, fun _ => h.retryOr _⟩

theorem connect_fed {st : State σ} (h : Fed args sink st) (a : Attempt) :
    ExitFed args sink (connect args st a) := by
  have hasked : Fed args sink (st.record (.subscribe (resumeId st.count st.lastId))) := h
  cases a with
  | refused e => exact hasked.retryOr e
  | serves events =>
    have hloop := loop_holds (onEvent args) (fun conn => Fed args sink conn.st)
      (ExitFed args sink) (fun conn e hconn => onEvent_fed hconn e)
      ⟨st.record (.subscribe (resumeId st.count st.lastId)), none⟩ events hasked
    simp only [connect]
    cases hout : loop (onEvent args)
        ⟨st.record (.subscribe (resumeId st.count st.lastId)), none⟩ events with
    | leave exit =>
      rw [hout] at hloop
      exact hloop
    | again conn =>
      rw [hout] at hloop
      change ExitFed args sink (onSilence args conn)
      unfold onSilence
      split
      · exact hloop
      · exact hloop

/-- Whatever the server does, the sink is what was handed over. -/
theorem replay_fed (args : Args σ) (sink : σ) (attempts : List Attempt) :
    Fed args sink (replayLedgerEvents args sink attempts).1 := by
  have h := loop_holds (attempt args) (Fed args sink) (fun out => Fed args sink out.1)
    (fun st a hst => by
      have hexit := connect_fed hst a
      unfold attempt
      cases hc : connect args st a with
      | reconnect st' =>
        rw [hc] at hexit
        exact hexit
      | finish st' result =>
        rw [hc] at hexit
        exact hexit)
    (State.init args sink) attempts rfl
  unfold replayLedgerEvents
  cases hout : loop (attempt args) (State.init args sink) attempts with
  | again st =>
    rw [hout] at h
    exact h
  | leave out =>
    rw [hout] at h
    exact h

/-- What every application keeps holds of the sink, whatever the server does. -/
theorem replayAgainst_invariant (P : σ → Prop) (hP : P sink)
    (happly : ∀ s id raw v, P s → P (args.apply s id raw v).1) (answers : Answers) :
    P (replayAgainst args sink answers).1.sink := by
  obtain ⟨attempts, heq⟩ := replayAgainst_eq args sink answers
  rw [heq, replay_fed args sink attempts]
  induction (replayLedgerEvents args sink attempts).1.trace with
  | nil => exact hP
  | cons a older ih =>
    cases a with
    | subscribe id => exact ih
    | deliver msg => exact ih
    | handOver id raw v => exact happly _ _ _ _ ih

theorem feed_eq_of_handedIds (args : Args σ) (sink : σ) (trace : List Action)
    (h : handedIds trace = []) : feed args sink trace = sink := by
  induction trace with
  | nil => rfl
  | cons a older ih =>
    cases a with
    | subscribe id => exact ih h
    | deliver msg => exact ih h
    | handOver id raw v => cases h

/-- A replay past the beginning that returns with the cursor it started from
has applied nothing. -/
theorem replayAgainst_unmoved (hstart : 0 < args.startId) (answers : Answers) (st : State σ)
    (r : LedgerReplay) (h : replayAgainst args sink answers = (st, some (.ok r))) :
    args.startId - 1 ≤ r.lastId ∧ (r.lastId = args.startId - 1 → st.sink = sink) := by
  obtain ⟨attempts, heq⟩ := replayAgainst_eq args sink answers
  have hfed := replay_fed args sink attempts
  have hfinished := replay_holds args sink attempts
  rw [heq] at h
  rw [h] at hfed hfinished
  replace hfinished : Finished args st (.ok r) := hfinished
  have hlast := hfinished.last_eq r rfl
  refine ⟨hlast ▸ hfinished.handed.start_le_cursor args st.trace hstart, fun hunmoved => ?_⟩
  have hnone : handedIds st.trace = [] := by
    cases hids : handedIds st.trace with
    | nil => rfl
    | cons i ids =>
      have hcursor : r.lastId = i := by
        rw [hlast]
        unfold cursor
        rw [hids]
        rfl
      have := hfinished.handed.above hstart i (by simp [hids])
      omega
  exact hfed.trans (feed_eq_of_handedIds args sink st.trace hnone)

end Feeding

section Invariant

/-- Where a replay stands in the stream: what is done, what is to do, and what
`Known` says of the sink there. -/
structure Stands (args : Args σ) (es : List LedgerEvent)
    (Known : σ → ℤ → List LedgerEvent → Prop) (st : State σ) (done todo : List LedgerEvent) :
    Prop where
  split : done ++ todo = es
  cut : Cut LedgerEvent.id st.lastId done todo
  counted : done = [] ∨ (decide (0 < st.count) || decide (0 < args.startId)) = true
  known : Known st.sink st.lastId todo

/-- Every event that the replay applies keeps what is known. -/
def Keeps (args : Args σ) (Known : σ → ℤ → List LedgerEvent → Prop) : Prop :=
  ∀ s last e todo raw v s', Known s last (e :: todo) →
    readEvent args.tagging args.stream.kind e = .ok (raw, v) → ¬ args.ledger < v →
    args.apply s e.id raw v = (s', .ok ()) → Known s' e.id todo

/-- How a replay ends that has `todo` left: its last sink, and its result. -/
inductive Ends (mayFail : Prop) (args : Args σ) (s : σ) (last : ℤ) :
    List LedgerEvent → σ → Except WalletError LedgerReplay → Prop
  | finished : Ends mayFail args s last [] s (.ok ⟨last, none⟩)
  | later (e : LedgerEvent) (todo : List LedgerEvent) (raw : Bytes) (v : LedgerVersion)
      (hread : readEvent args.tagging args.stream.kind e = .ok (raw, v)) (hv : args.ledger < v) :
      Ends mayFail args s last (e :: todo) s (.ok ⟨last, some (e.id, v)⟩)
  | unread (e : LedgerEvent) (todo : List LedgerEvent) (err : WalletError)
      (hread : readEvent args.tagging args.stream.kind e = .error err) :
      Ends mayFail args s last (e :: todo) s (.error err)
  | refused (e : LedgerEvent) (todo : List LedgerEvent) (raw : Bytes) (v : LedgerVersion) (s' : σ)
      (err : WalletError) (hread : readEvent args.tagging args.stream.kind e = .ok (raw, v))
      (hv : ¬ args.ledger < v) (happly : args.apply s e.id raw v = (s', .error err)) :
      Ends mayFail args s last (e :: todo) s' (.error err)
  | broken (h : mayFail) (todo : List LedgerEvent) (s' : σ) (err : WalletError)
      (hs' : s' = s ∨ ∃ e ∈ todo.head?, ∃ raw v,
        readEvent args.tagging args.stream.kind e = .ok (raw, v) ∧ ¬ args.ledger < v ∧
          args.apply s e.id raw v = (s', .ok ())) :
      Ends mayFail args s last todo s' (.error err)

/-- The invariant on a connection that still owes `owed`: events that the
replay has consumed, and then all that is to do. -/
structure ConnStands (mayFail : Prop) (args : Args σ) (es : List LedgerEvent)
    (Known : σ → ℤ → List LedgerEvent → Prop) (conn : Conn σ) (owed : List LedgerEvent) :
    Prop where
  suffix : ∃ gone, gone ++ owed = es
  stands : ∃ done repeated todo, owed = repeated ++ todo ∧ (∀ e ∈ repeated, e ∈ done) ∧
    Stands args es Known conn.st done todo
  ordered : mayFail ∨ ∀ e ∈ owed, ∀ high, conn.connHigh = some high → high ≤ e.id
  fresh : es = [] → conn.connHigh = none

/-- What holds where a connection is left. -/
def ExitStands (mayFail : Prop) (args : Args σ) (es : List LedgerEvent)
    (Known : σ → ℤ → List LedgerEvent → Prop) : Exit σ → Prop
  | .reconnect st => mayFail ∧ ∃ done todo, Stands args es Known st done todo
  | .finish st result => ∃ s last todo, Known s last todo ∧
      Ends mayFail args s last todo st.sink result

variable {args : Args σ} {es : List LedgerEvent} {Known : σ → ℤ → List LedgerEvent → Prop}
  {mayFail : Prop}

/-- Only the cursor, the count and the sink matter to the invariant. -/
theorem Stands.congr {st st' : State σ} {done todo : List LedgerEvent}
    (h : Stands args es Known st done todo) (hlast : st'.lastId = st.lastId)
    (hcount : st'.count = st.count) (hsink : st'.sink = st.sink) :
    Stands args es Known st' done todo where
  split := h.split
  cut := hlast ▸ h.cut
  counted := hcount ▸ h.counted
  known := by rw [hlast, hsink]; exact h.known

theorem Stands.finished {st : State σ} {done : List LedgerEvent}
    (h : Stands args es Known st done []) : ExitStands mayFail args es Known (st.stop none) :=
  ⟨st.sink, st.lastId, [], h.known, .finished⟩

theorem Stands.broken {st : State σ} {done todo : List LedgerEvent} (hfail : mayFail)
    (h : Stands args es Known st done todo) (e : WalletError) :
    ExitStands mayFail args es Known (st.fail e) :=
  ⟨st.sink, st.lastId, todo, h.known, .broken hfail todo st.sink e (Or.inl rfl)⟩

theorem Stands.retryOr {st : State σ} {done todo : List LedgerEvent} (hfail : mayFail)
    (h : Stands args es Known st done todo) (e : IndexerError) :
    ExitStands mayFail args es Known (st.retryOr e) := by
  unfold State.retryOr
  split
  · exact ⟨hfail, done, todo, h.congr rfl rfl rfl⟩
  · exact h.broken hfail _

/-- A new event, once it is applied. -/
theorem handOver_stands (hkeeps : Keeps args Known) (hasc : Ascending LedgerEvent.id es)
    (st : State σ) (e : LedgerEvent) (done todo : List LedgerEvent)
    (h : Stands args es Known st done (e :: todo)) (raw : Bytes) (v : LedgerVersion)
    (hread : readEvent args.tagging args.stream.kind e = .ok (raw, v)) (hv : ¬ args.ledger < v)
    (now : ℕ) (alive : Bool) (halive : mayFail ∨ alive = true) :
    (handOver args st (e.message (lastId LedgerEvent.id 0 es)) raw v now alive).Holds
      (fun conn => ConnStands mayFail args es Known conn todo ∧ todo ≠ [])
      (ExitStands mayFail args es Known) := by
  unfold handOver
  rcases hout : args.apply st.sink e.id raw v with ⟨s', result⟩
  cases result with
  | error err =>
    simp only [LedgerEvent.message_id, hout]
    exact ⟨st.sink, st.lastId, e :: todo, h.known, .refused e todo raw v s' err hread hv hout⟩
  | ok u =>
    simp only [LedgerEvent.message_id, hout]
    have hsplit : (done ++ [e]) ++ todo = es := by rw [← h.split]; simp
    have hcut : Cut LedgerEvent.id e.id (done ++ [e]) todo := h.cut.advance (h.split ▸ hasc)
    have hascend : Ascending LedgerEvent.id (e :: todo) := (h.split ▸ hasc).append_right
    have hknown : Known s' e.id todo := hkeeps _ _ _ _ _ _ _ h.known hread hv hout
    simp only [consume, Pass.holds_ite]
    refine ⟨fun hcancel => ?_, fun _ => ⟨fun hmax => ?_, fun hmax => ?_⟩⟩
    · rcases halive with hfail | halive
      · exact ⟨st.sink, st.lastId, e :: todo, h.known, .broken hfail _ s' _
          (Or.inr ⟨e, rfl, raw, v, hread, hv, hout⟩)⟩
      · simp [halive] at hcancel
    · -- The newest event is applied, so nothing is left.
      have hnil : todo = [] := hcut.eq_nil (hsplit ▸ hasc) (hsplit.symm ▸ hmax)
      subst hnil
      exact ⟨s', e.id, [], hknown, .finished⟩
    · have hne : todo ≠ [] := by
        rintro rfl
        refine hmax (le_of_eq ?_)
        rw [← h.split, lastId_append]
        rfl
      refine ⟨⟨⟨done ++ [e], hsplit⟩, ⟨done ++ [e], [], todo, rfl, by simp, hsplit, hcut,
        Or.inr (by simp), hknown⟩, Or.inr ?_, fun hnil => by simp [hnil] at hsplit⟩, hne⟩
      intro x hx high hhigh
      cases hhigh
      exact ((List.pairwise_cons.mp hascend).1 x hx).le

theorem onMessage_stands (hkeeps : Keeps args Known) (hasc : Ascending LedgerEvent.id es)
    (hpos : ∀ e ∈ es, 1 ≤ e.id) (conn : Conn σ) (e : LedgerEvent) (owed : List LedgerEvent)
    (h : ConnStands mayFail args es Known conn (e :: owed)) (now : ℕ) (alive : Bool)
    (halive : mayFail ∨ alive = true) :
    (onMessage args conn (e.message (lastId LedgerEvent.id 0 es)) now alive).Holds
      (fun conn => ConnStands mayFail args es Known conn owed ∧ owed ≠ [])
      (ExitStands mayFail args es Known) := by
  obtain ⟨gone, hgone⟩ := h.suffix
  have hascend : Ascending LedgerEvent.id (e :: owed) := (hgone ▸ hasc).append_right
  have hle := hasc.le_lastId (c := 0) (fun x hx => by have := hpos x hx; omega)
  have hmem : e ∈ es := by rw [← hgone]; simp
  have hmax : lastId LedgerEvent.id 0 es ≠ 0 := by
    have h1 := hpos e hmem
    have h2 := hle.2 e hmem
    omega
  obtain ⟨done, repeated, todo, howed, hrepeated, hconn⟩ := h.stands
  unfold onMessage
  have hstands : Stands args es Known
      (conn.st.record (.deliver (e.message (lastId LedgerEvent.id 0 es)))) done todo :=
    hconn.congr rfl rfl rfl
  generalize conn.st.record (.deliver (e.message (lastId LedgerEvent.id 0 es))) = st at hstands
  cases hreg : orderRegression (e.message (lastId LedgerEvent.id 0 es)).id conn.connHigh with
  | some prev =>
    obtain ⟨hhigh, hlt⟩ := (orderRegression_eq_some_iff _ _ _).mp hreg
    rcases h.ordered with hfail | hordered
    · exact hstands.broken hfail _
    · exact absurd (hordered e (by simp) prev hhigh) (not_le.mpr hlt)
  | none =>
    simp only
    rw [if_neg (show (e.message (lastId LedgerEvent.id 0 es)).maxId ≠ 0 from hmax)]
    cases repeated with
    | cons first repeated =>
      -- A repeated event: it is skipped, and ends the replay if it is the newest.
      obtain ⟨rfl, rfl⟩ := List.cons.inj howed
      have hdone : e ∈ done := hrepeated e (by simp)
      have happlied : alreadyApplied (e.message (lastId LedgerEvent.id 0 es)).id st.lastId
          args.startId (decide (0 < st.count)) = true := by
        unfold alreadyApplied
        rw [Bool.and_eq_true]
        refine ⟨hstands.counted.resolve_left (List.ne_nil_of_mem hdone), ?_⟩
        exact decide_eq_true (hstands.cut.le e hdone)
      rw [if_pos happlied, Pass.holds_ite]
      refine ⟨fun hlast => ?_, fun hlast => ⟨⟨⟨gone ++ [e], by simpa using hgone⟩,
        ⟨done, repeated, todo, rfl, fun x hx => hrepeated x (by simp [hx]),
          hstands⟩, Or.inr ?_, fun hnil => by simp [hnil] at hmem⟩, ?_⟩⟩
      · have hnil : todo = [] := by
          refine hstands.cut.eq_nil (b := 0) (hstands.split ▸ hasc) ?_
          rw [hstands.split]
          exact le_trans hlast (hstands.cut.le e hdone)
        subst hnil
        exact hstands.finished
      · intro x hx high hhigh
        cases hhigh
        exact ((List.pairwise_cons.mp hascend).1 x hx).le
      · intro hnil
        refine hlast (le_of_eq ?_)
        rw [← hgone, hnil, lastId_append]
        rfl
    | nil =>
      obtain rfl : e :: owed = todo := howed
      have hnew : alreadyApplied (e.message (lastId LedgerEvent.id 0 es)).id st.lastId
          args.startId (decide (0 < st.count)) = false := by
        unfold alreadyApplied
        rw [Bool.and_eq_false_iff]
        exact Or.inr (decide_eq_false (not_le.mpr (hstands.cut.gt e (by simp))))
      rw [if_neg (by rw [hnew]; exact Bool.false_ne_true)]
      have hraw : eventBytes (e.message (lastId LedgerEvent.id 0 es)) args.stream.kind =
          eventBytes (e.message e.id) args.stream.kind := rfl
      rw [hraw]
      cases hbytes : eventBytes (e.message e.id) args.stream.kind with
      | error err =>
        exact ⟨_, _, e :: owed, hstands.known, .unread e owed err (by
          simp only [readEvent, hbytes])⟩
      | ok raw =>
        cases hgen : args.tagging.ofTagged raw with
        | error err =>
          simp only [hgen]
          exact ⟨_, _, e :: owed, hstands.known, .unread e owed err (by
            simp only [readEvent, hbytes, hgen])⟩
        | ok v =>
          have hread : readEvent args.tagging args.stream.kind e = .ok (raw, v) := by
            simp only [readEvent, hbytes, hgen]
          simp only [hgen]
          by_cases hv : args.ledger < v
          · rw [if_pos hv]
            exact ⟨_, _, e :: owed, hstands.known, .later e owed raw v hread hv⟩
          · rw [if_neg hv]
            exact handOver_stands hkeeps hasc _ e done owed hstands raw v hread hv now alive halive

/-- An owed-free connection has nothing left to do. -/
theorem ConnStands.finished {conn : Conn σ} (h : ConnStands mayFail args es Known conn []) :
    ∃ done, Stands args es Known conn.st done [] := by
  obtain ⟨done, repeated, todo, howed, -, hstands⟩ := h.stands
  obtain ⟨rfl, rfl⟩ := List.append_eq_nil_iff.mp howed.symm
  exact ⟨done, hstands⟩

theorem ConnStands.retryOr {conn : Conn σ} {owed : List LedgerEvent} (hfail : mayFail)
    (h : ConnStands mayFail args es Known conn owed) (e : IndexerError) :
    ExitStands mayFail args es Known (conn.st.retryOr e) := by
  obtain ⟨done, repeated, todo, -, -, hstands⟩ := h.stands
  exact hstands.retryOr hfail e

/-- The message of a chain without events ends the replay. -/
theorem onMessage_empty (hpos : ∀ e ∈ es, 1 ≤ e.id) (hasc : Ascending LedgerEvent.id es)
    (conn : Conn σ) (h : ConnStands mayFail args es Known conn [])
    (hmax : lastId LedgerEvent.id 0 es = 0) (id : ℤ) (raw : String) (now : ℕ) (alive : Bool) :
    ∃ exit, onMessage args conn ⟨id, raw, lastId LedgerEvent.id 0 es⟩ now alive = .leave exit ∧
      ExitStands mayFail args es Known exit := by
  have hnil : es = [] := by
    cases es with
    | nil => rfl
    | cons e es =>
      have hle := (hasc.le_lastId (c := 0) (fun x hx => by have := hpos x hx; omega)).2 e (by simp)
      have := hpos e (by simp)
      omega
  obtain ⟨done, hstands⟩ := h.finished
  refine ⟨(conn.st.record (.deliver ⟨id, raw, lastId LedgerEvent.id 0 es⟩)).stop none, ?_, ?_⟩
  · unfold onMessage
    rw [h.fresh hnil, hmax]
    rfl
  · exact (hstands.congr rfl rfl rfl).finished

/-- A connection keeps the invariant to its end, and one that stays silent has
sent all it owed. Uninterrupted, it is silent only if it owed nothing. -/
theorem sends_stands (hkeeps : Keeps args Known) (hasc : Ascending LedgerEvent.id es)
    (hpos : ∀ e ∈ es, 1 ≤ e.id) {owed : List LedgerEvent} {events : List Event}
    (hsends : Sends mayFail (lastId LedgerEvent.id 0 es) owed events) (conn : Conn σ)
    (h : ConnStands mayFail args es Known conn owed) :
    (loop (onEvent args) conn events).Holds
      (fun conn' => ConnStands mayFail args es Known conn' [] ∧
        (mayFail ∨ conn' = conn ∧ owed = [] ∧ lastId LedgerEvent.id 0 es ≠ 0))
      (ExitStands mayFail args es Known) := by
  induction hsends generalizing conn with
  | silent hmax => exact ⟨h, hmax.imp_right (fun hmax => ⟨rfl, rfl, hmax⟩)⟩
  | ended hfail rest =>
    refine loop_cons_holds _ _ _ _ _ _ ?_
    simp only [onEvent, Pass.holds_ite]
    refine ⟨fun _ => ?_, fun _ => h.retryOr hfail _⟩
    obtain ⟨done, hstands⟩ := h.finished
    exact hstands.finished
  | failed hfail owed e rest =>
    exact loop_cons_holds _ _ _ _ _ _ (h.retryOr hfail e)
  | empty hmax id raw now alive rest =>
    refine loop_cons_holds _ _ _ _ _ _ ?_
    obtain ⟨exit, hleave, hexit⟩ := onMessage_empty hpos hasc conn h hmax id raw now alive
    simp only [onEvent, hleave]
    exact hexit
  | event e now alive halive hrest ih =>
    refine loop_cons_holds _ _ _ _ _ _ ?_
    refine (onMessage_stands hkeeps hasc hpos conn e _ h now alive halive).mono ?_
      (fun _ hr => hr)
    rintro conn' ⟨hconn', hne⟩
    refine (ih conn' hconn').mono ?_ (fun _ hr => hr)
    rintro conn'' ⟨hconn'', hquiet⟩
    exact ⟨hconn'', Or.inl (hquiet.resolve_right (fun hnil => hne hnil.2.1))⟩

/-- The invariant over one connection attempt. Uninterrupted, the replay needs
to be a first attempt that resumes, or to have something to do. -/
theorem connect_stands (hkeeps : Keeps args Known) (hasc : Ascending LedgerEvent.id es)
    (hpos : ∀ e ∈ es, 1 ≤ e.id) (st : State σ) (done todo : List LedgerEvent)
    (h : Stands args es Known st done todo) (a : Attempt)
    (hserves : Serves mayFail es (resumeId st.count st.lastId) a)
    (hquiet : mayFail ∨ (args.resuming = true ∧ st.count = 0) ∨ es = [] ∨ todo ≠ []) :
    ExitStands mayFail args es Known (connect args st a) := by
  have hsub : Stands args es Known (st.record (.subscribe (resumeId st.count st.lastId)))
      done todo := h.congr rfl rfl rfl
  cases hserves with
  | refused hfail e => exact hsub.retryOr hfail e
  | serves events hsends =>
    have hasked : resumeId st.count st.lastId ≤ st.lastId + 1 := by
      unfold resumeId
      split <;> omega
    have howed : startingAt LedgerEvent.id (resumeId st.count st.lastId) es =
        startingAt LedgerEvent.id (resumeId st.count st.lastId) done ++ todo := by
      rw [← h.split]
      exact h.cut.startingAt hasked
    have hconn : ConnStands mayFail args es Known
        ⟨st.record (.subscribe (resumeId st.count st.lastId)), none⟩
        (startingAt LedgerEvent.id (resumeId st.count st.lastId) es) := by
      refine ⟨hasc.exists_append_startingAt _, ⟨done, _, todo, howed, ?_, hsub⟩,
        Or.inr (by simp), fun _ => rfl⟩
      exact fun e he => (mem_startingAt he).1
    have hloop := sends_stands hkeeps hasc hpos hsends _ hconn
    simp only [connect]
    cases hout : loop (onEvent args)
        ⟨st.record (.subscribe (resumeId st.count st.lastId)), none⟩ events with
    | leave exit =>
      rw [hout] at hloop
      exact hloop
    | again conn =>
      rw [hout] at hloop
      obtain ⟨hend, hsilent⟩ := hloop
      obtain ⟨done', hdone'⟩ := hend.finished
      change ExitStands mayFail args es Known (onSilence args conn)
      unfold onSilence
      by_cases hresume : (args.resuming && decide (conn.st.count = 0)) = true
      · rw [if_pos hresume]
        exact hdone'.finished
      · rw [if_neg hresume]
        refine hdone'.broken ?_ _
        rcases hsilent with hfail | ⟨rfl, hnil, hmax⟩
        · exact hfail
        rcases hquiet with hfail | ⟨hres, hcount⟩ | hempty | htodo
        · exact hfail
        · exact absurd (by simp [State.record, hres, hcount]) hresume
        · exact absurd (by rw [hempty]; rfl) hmax
        · exact absurd (List.append_eq_nil_iff.mp (howed.symm.trans hnil)).2 htodo

end Invariant

section Settling

variable {B S : Type} {args : Args B} {settle : B → Except WalletError S}
  {step : S → ℤ → Bytes → LedgerVersion → Except WalletError S}

theorem play_append (read : LedgerEvent → Except WalletError (Bytes × LedgerVersion))
    (ledger : LedgerVersion) (s : S) (last : ℤ) (xs ys : List LedgerEvent) :
    play read ledger step s last (xs ++ ys) =
      play read ledger step s last xs >>= fun out =>
        match out.2.laterLedger with
        | none => play read ledger step out.1 out.2.lastId ys
        | some _ => .ok out := by
  induction xs generalizing s last with
  | nil => rfl
  | cons x xs ih =>
    simp only [List.cons_append, play]
    cases read x with
    | error err => rfl
    | ok entry =>
      obtain ⟨raw, v⟩ := entry
      simp only
      split
      · rfl
      · cases step s x.id raw v with
        | error err => rfl
        | ok s' => exact ih s' x.id

/-- A play that stops at no later generation has read every event. -/
theorem play_none {read : LedgerEvent → Except WalletError (Bytes × LedgerVersion)}
    {ledger : LedgerVersion} {s s' : S} {last last' : ℤ} {es : List LedgerEvent}
    (h : play read ledger step s last es = .ok (s', ⟨last', none⟩)) :
    last' = lastId LedgerEvent.id last es ∧
      ∀ e ∈ es, ∃ raw v, read e = .ok (raw, v) ∧ v ≤ ledger := by
  induction es generalizing s last with
  | nil =>
    cases h
    exact ⟨rfl, by simp⟩
  | cons e es ih =>
    simp only [play] at h
    cases hread : read e with
    | error err =>
      rw [hread] at h
      cases h
    | ok entry =>
      obtain ⟨raw, v⟩ := entry
      rw [hread] at h
      simp only at h
      by_cases hv : ledger < v
      · rw [if_pos hv] at h
        cases h
      · rw [if_neg hv] at h
        cases hstep : step s e.id raw v with
        | error err =>
          rw [hstep] at h
          cases h
        | ok s₁ =>
          rw [hstep] at h
          obtain ⟨hlast, hall⟩ := ih h
          refine ⟨hlast, fun x hx => ?_⟩
          rcases List.mem_cons.mp hx with rfl | hx
          · exact ⟨raw, v, hread, not_lt.mp hv⟩
          · exact hall x hx

/-- A replay may hold events back, as long as settling them at any point gives
what taking them one by one gives. -/
def Settles (args : Args B) (settle : B → Except WalletError S)
    (step : S → ℤ → Bytes → LedgerVersion → Except WalletError S) : Prop :=
  ∀ b id raw v, Agree (args.step b id raw v >>= settle) (settle b >>= fun s => step s id raw v)

theorem play_settles (hsettles : Settles args settle step) (b : B) (last : ℤ)
    (es : List LedgerEvent) :
    Agree (args.play b last es >>= fun out => settle out.1 >>= fun s => .ok (s, out.2))
      (settle b >>= fun s =>
        play (readEvent args.tagging args.stream.kind) args.ledger step s last es) := by
  induction es generalizing b last with
  | nil => exact .refl _
  | cons e es ih =>
    simp only [Args.play, play]
    cases readEvent args.tagging args.stream.kind e with
    | error err =>
      refine (Agree.of_error err err).trans ?_
      cases settle b with
      | error err' => exact .of_error _ _
      | ok s => exact .refl _
    | ok entry =>
      obtain ⟨raw, v⟩ := entry
      simp only
      split
      · exact .refl _
      have hrest : Agree (args.step b e.id raw v >>= settle >>= fun s =>
            play (readEvent args.tagging args.stream.kind) args.ledger step s e.id es)
          (settle b >>= fun s => step s e.id raw v >>= fun s =>
            play (readEvent args.tagging args.stream.kind) args.ledger step s e.id es) := by
        rw [← bind_assoc]
        exact (hsettles b e.id raw v).bind (fun s => .refl _)
      have hplay : (fun s => step s e.id raw v >>= fun s =>
            play (readEvent args.tagging args.stream.kind) args.ledger step s e.id es) =
          fun s => match step s e.id raw v with
            | .error err => .error err
            | .ok s' =>
              play (readEvent args.tagging args.stream.kind) args.ledger step s' e.id es := by
        funext s
        cases step s e.id raw v <;> rfl
      rw [hplay] at hrest
      refine Agree.trans ?_ hrest
      cases args.step b e.id raw v with
      | error err => exact .refl _
      | ok b' => exact ih b' e.id

/-- What is known of a sink that settles: the events before those to do, taken
one by one from `s₀`. -/
def Settled (args : Args B) (settle : B → Except WalletError S)
    (step : S → ℤ → Bytes → LedgerVersion → Except WalletError S) (s₀ : S) (last₀ : ℤ)
    (all : List LedgerEvent) (b : B) (last : ℤ) (todo : List LedgerEvent) : Prop :=
  ∃ played, played ++ todo = all ∧
    Agree (settle b >>= fun s => .ok (s, (⟨last, none⟩ : LedgerReplay)))
      (play (readEvent args.tagging args.stream.kind) args.ledger step s₀ last₀ played)

theorem Settled.start {b : B} {s₀ : S} (h : settle b = .ok s₀) (last₀ : ℤ)
    (all : List LedgerEvent) : Settled args settle step s₀ last₀ all b last₀ all :=
  ⟨[], rfl, by rw [h]; exact .refl _⟩

theorem Settled.apply (hsettles : Settles args settle step) {s₀ : S} {last₀ last : ℤ}
    {all todo : List LedgerEvent} {b b' : B} {e : LedgerEvent} {raw : Bytes} {v : LedgerVersion}
    (h : Settled args settle step s₀ last₀ all b last (e :: todo))
    (hread : readEvent args.tagging args.stream.kind e = .ok (raw, v)) (hv : ¬ args.ledger < v)
    (happly : args.apply b e.id raw v = (b', .ok ())) :
    Settled args settle step s₀ last₀ all b' e.id todo := by
  obtain ⟨played, hsplit, hagree⟩ := h
  refine ⟨played ++ [e], by simpa using hsplit, ?_⟩
  have hstep : args.step b e.id raw v = .ok b' := by simp only [Args.step, happly]
  have hone := hsettles b e.id raw v
  rw [hstep] at hone
  rw [play_append]
  refine Agree.trans ?_ (hagree.bind (fun out => .refl _))
  rw [bind_assoc]
  refine ((Agree.bind hone (fun s => .refl (.ok (s, (⟨e.id, none⟩ : LedgerReplay))))).trans ?_)
  rw [bind_assoc]
  refine Agree.bind (.refl _) (fun s => ?_)
  change Agree _ (play (readEvent args.tagging args.stream.kind) args.ledger step s last [e])
  simp only [play, hread, if_neg hv]
  cases step s e.id raw v with
  | error err => exact .refl _
  | ok s' => exact .refl _

end Settling

section Replays

variable {args : Args σ} {es done todo : List LedgerEvent} {sink : σ}
  {Known : σ → ℤ → List LedgerEvent → Prop}

/-- Where a replay starts: its cursor cuts the stream, and nothing is done when
it starts at the beginning. -/
structure StartsAfter (args : Args σ) (es done todo : List LedgerEvent) : Prop where
  split : done ++ todo = es
  cut : Cut LedgerEvent.id (lastAppliedBefore args.startId) done todo
  counted : done = [] ∨ 0 < args.startId

theorem StartsAfter.stands (h : StartsAfter args es done todo) {sink : σ}
    (hknown : Known sink (lastAppliedBefore args.startId) todo) :
    Stands args es Known (State.init args sink) done todo :=
  ⟨h.split, h.cut, h.counted.imp_right (fun hpos => by simp [hpos]), hknown⟩

/-- Through whatever interruptions and whatever its result, a replay keeps what
is known of its sink. -/
theorem replayAgainst_stands (hkeeps : Keeps args Known) (hasc : Ascending LedgerEvent.id es)
    (hpos : ∀ e ∈ es, 1 ≤ e.id) (hstart : StartsAfter args es done todo)
    (hknown : Known sink (lastAppliedBefore args.startId) todo) (answers : Answers)
    (hhonest : Honest es answers) :
    match replayAgainst args sink answers with
    | (st, none) => ∃ done' todo', Stands args es Known st done' todo'
    | (st, some result) => ∃ s last todo', Known s last todo' ∧
        Ends True args s last todo' st.sink result := by
  have hloop := loop_holds_of_mem
    (fun st (answer : ℤ → Attempt) => attempt args st (answer (resumeId st.count st.lastId)))
    (fun st => ∃ done' todo', Stands args es Known st done' todo')
    (fun out => ExitStands True args es Known (.finish out.1 out.2))
    (State.init args sink) answers
    (by
      rintro answer hanswer st ⟨done', todo', hst⟩
      have hexit := connect_stands hkeeps hasc hpos st done' todo' hst _
        (hhonest answer hanswer (resumeId st.count st.lastId)) (Or.inl trivial)
      unfold attempt
      cases hc : connect args st (answer (resumeId st.count st.lastId)) with
      | reconnect st' =>
        rw [hc] at hexit
        exact hexit.2
      | finish st' result =>
        rw [hc] at hexit
        exact hexit)
    ⟨done, todo, hstart.stands hknown⟩
  unfold replayAgainst
  cases hout : loop (fun st (answer : ℤ → Attempt) =>
      attempt args st (answer (resumeId st.count st.lastId))) (State.init args sink) answers with
  | again st' =>
    rw [hout] at hloop
    exact hloop
  | leave out =>
    rw [hout] at hloop
    exact hloop

theorem keeps_play (goal : Except WalletError (σ × LedgerReplay)) :
    Keeps args (fun s last todo => args.play s last todo = goal) := by
  intro s last e todo raw v s' hgoal hread hv happly
  simp only [Args.play, play, hread, if_neg hv, Args.step, happly] at hgoal
  exact hgoal

/-- An end is what playing the rest gives, unless something broke. -/
theorem Ends.play_eq {mayFail : Prop} {s s' : σ} {last : ℤ}
    {result : Except WalletError LedgerReplay} (h : Ends mayFail args s last todo s' result)
    (hok : mayFail → ∃ r, result = .ok r) :
    args.play s last todo = result.map (fun r => (s', r)) := by
  cases h with
  | finished => rfl
  | later e todo raw v hread hv => simp only [Args.play, play, hread, if_pos hv, Except.map]
  | unread e todo err hread => simp only [Args.play, play, hread, Except.map]
  | refused e todo raw v s' err hread hv happly =>
    simp only [Args.play, play, hread, if_neg hv, Args.step, happly, Except.map]
  | broken hfail todo s' err hs' =>
    obtain ⟨r, hr⟩ := hok hfail
    cases hr

/-- Through whatever interruptions, a replay that returns has played what was
to do, and says so. -/
theorem replayAgainst_plays (hasc : Ascending LedgerEvent.id es) (hpos : ∀ e ∈ es, 1 ≤ e.id)
    (hstart : StartsAfter args es done todo) (answers : Answers) (hhonest : Honest es answers)
    (st : State σ) (r : LedgerReplay) (h : replayAgainst args sink answers = (st, some (.ok r))) :
    args.play sink (lastAppliedBefore args.startId) todo = .ok (st.sink, r) := by
  have hstands := replayAgainst_stands
    (keeps_play (args.play sink (lastAppliedBefore args.startId) todo)) hasc hpos hstart rfl
    answers hhonest
  rw [h] at hstands
  obtain ⟨s, last, todo', hgoal, hends⟩ := hstands
  exact hgoal.symm.trans (hends.play_eq (fun _ => ⟨r, rfl⟩))

theorem serveAll_serves (hasc : Ascending LedgerEvent.id es) (hpos : ∀ e ∈ es, 1 ≤ e.id) (n : ℤ) :
    Serves False es n (serveAll es n) := by
  unfold serveAll
  split
  · rename_i hnil
    subst hnil
    exact .serves _ (.empty rfl 0 "" 0 true [])
  · rename_i hne
    have hmax : lastId LedgerEvent.id 0 es ≠ 0 := by
      obtain ⟨e, he⟩ := List.exists_mem_of_ne_nil es hne
      have h1 := hpos e he
      have h2 := (hasc.le_lastId (c := 0) (fun x hx => by have := hpos x hx; omega)).2 e he
      omega
    refine .serves _ ?_
    induction startingAt LedgerEvent.id n es with
    | nil => exact .silent (Or.inr hmax)
    | cons e owed ih => exact .event e 0 true (Or.inr rfl) ih

theorem Sends.mono {a b : Prop} (h : a → b) {maxId : ℤ} {owed : List LedgerEvent}
    {events : List Event} (hsends : Sends a maxId owed events) : Sends b maxId owed events := by
  induction hsends with
  | silent hquiet => exact .silent (hquiet.imp_left h)
  | ended hfail rest => exact .ended (h hfail) rest
  | failed hfail owed e rest => exact .failed (h hfail) owed e rest
  | empty hempty id raw now alive rest => exact .empty hempty id raw now alive rest
  | event e now alive halive hrest ih => exact .event e now alive (halive.imp_left h) ih

theorem Serves.mono {a b : Prop} (h : a → b) {n : ℤ} {answer : Attempt}
    (hserves : Serves a es n answer) : Serves b es n answer := by
  cases hserves with
  | refused hfail e => exact .refused (h hfail) e
  | serves events hsends => exact .serves events (hsends.mono h)

/-- An indexer that nothing interrupts is one. -/
theorem honest_serveAll (hasc : Ascending LedgerEvent.id es) (hpos : ∀ e ∈ es, 1 ≤ e.id) :
    Honest es [serveAll es] := by
  intro answer hanswer n
  obtain rfl := List.mem_singleton.mp hanswer
  exact (serveAll_serves hasc hpos n).mono False.elim

/-- Uninterrupted, the replay returns what playing the stream gives, be it the
result or the error. -/
theorem replayAgainst_serveAll (sink : σ) (hasc : Ascending LedgerEvent.id es)
    (hpos : ∀ e ∈ es, 1 ≤ e.id) (hstart : StartsAfter args es done todo)
    (hquiet : args.resuming = true ∨ es = [] ∨ todo ≠ []) :
    ∃ st result, replayAgainst args sink [serveAll es] = (st, some result) ∧
      args.play sink (lastAppliedBefore args.startId) todo =
        result.map (fun r => (st.sink, r)) := by
  have hserves : Serves False es
      (resumeId (State.init args sink).count (State.init args sink).lastId) (serveAll es _) :=
    serveAll_serves hasc hpos _
  have hexit := connect_stands
    (keeps_play (args.play sink (lastAppliedBefore args.startId) todo)) hasc hpos
    (State.init args sink) done todo (hstart.stands rfl)
    _ hserves (Or.inr (hquiet.imp_left (fun hres => ⟨hres, rfl⟩)))
  unfold replayAgainst
  simp only [loop, attempt]
  cases hc : connect args (State.init args sink)
      (serveAll es (resumeId (State.init args sink).count (State.init args sink).lastId)) with
  | reconnect st =>
    rw [hc] at hexit
    exact absurd hexit.1 not_false
  | finish st result =>
    rw [hc] at hexit
    obtain ⟨s, last, todo', hgoal, hends⟩ := hexit
    exact ⟨st, result, rfl, hgoal.symm.trans (hends.play_eq (fun h => h.elim))⟩

end Replays

end MidnightRs.Replay
