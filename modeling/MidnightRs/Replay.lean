import MidnightRs.Loops
import MidnightRs.Hex
import Mathlib.Algebra.Order.Group.Int
import Mathlib.Data.List.Pairwise

/-!
The ledger-event replay: a subscription that reconnects from its cursor, drops
what was already applied and hands the rest to a callback. The server is a list
of connection attempts, each refused or serving finitely many events before it
falls silent, so a finite list is every prefix of what a server can do. The
loop writes a trace, newest action first, and the results below are about it.
-/
namespace MidnightRs.Replay

open Loops

structure LedgerEventMessage where
  id : ℤ
  raw : String
  maxId : ℤ
deriving DecidableEq, Repr

inductive LedgerStream where
  | zswap
  | dust
deriving DecidableEq, Repr

def LedgerStream.kind : LedgerStream → String
  | .zswap => "zswap"
  | .dust => "dust"

/-- Where a ledger-event replay asks its subscription to start. -/
def resumeId (appliedThisReplay : ℕ) (lastId : ℤ) : ℤ :=
  if 0 < appliedThisReplay then lastId + 1 else lastId

def lastAppliedBefore (startId : ℤ) : ℤ := max (startId - 1) 0

def reconnectMaxRetries : ℕ := 4

/-- A fresh sync from id 0 must not skip a genuine first event with id 0, so
the cursor counts as applied only after an event or past the beginning. -/
def alreadyApplied (msgId lastId startId : ℤ) (appliedAny : Bool) : Bool :=
  (appliedAny || decide (0 < startId)) && decide (msgId ≤ lastId)

/-- The high-water id of the connection that the message regressed below. -/
def orderRegression (msgId : ℤ) (connHigh : Option ℤ) : Option ℤ :=
  connHigh.filter (fun high => decide (msgId < high))

def gaveUp (error : IndexerError) : WalletError := .indexer error.isRetryable error

def progressCancelled (kind : String) : WalletError :=
  .sync s!"{kind} replay cancelled: progress receiver dropped"

/-- When a replay reports: on its first applied event, then on the first one
after each interval. -/
structure ProgressPacer where
  interval : ℕ
  last : Option ℕ
deriving DecidableEq, Repr

def ProgressPacer.due (pacer : ProgressPacer) (now : ℕ) : Bool × ProgressPacer :=
  if pacer.last.any (fun last => decide (now - last < pacer.interval)) then
    (false, pacer)
  else
    (true, { pacer with last := some now })

/-- One second, in milliseconds. -/
def progressInterval : ℕ := 1000

section Decoding

/-- Reading the tag of a serialised value, and the tags that the two linked
generations give an event. Both come from the ledger crates. -/
structure Tagging where
  peekTag : Bytes → Except String String
  tag8 : String
  tag9 : String

def Tagging.ofTagged (t : Tagging) (bytes : Bytes) : Except WalletError LedgerVersion :=
  match t.peekTag bytes with
  | .error e => .error (.unknownLedger e)
  | .ok tag =>
    if tag = t.tag8 then .ok .V8
    else if tag = t.tag9 then .ok .V9
    else .error (.unknownLedger s!"`{tag}`")

def eventBytes (msg : LedgerEventMessage) (kind : String) : Except WalletError Bytes :=
  match Hex.decode msg.raw with
  | .ok bytes => .ok bytes
  | .error e => .error (.sync s!"decode {kind} event hex: {e}")

end Decoding

/-- What one wait on the subscription yields. The clock and the state of the
progress channel are the ones at that moment: `alive` is false when a channel
was given and its receiver is gone. -/
inductive Event where
  | message (msg : LedgerEventMessage) (now : ℕ) (alive : Bool)
  | failed (error : IndexerError)
  | ended
deriving DecidableEq, Repr

/-- One connection attempt. After its events a connection stays silent, which
the replay reads as a timeout. -/
inductive Attempt where
  | refused (error : IndexerError)
  | serves (events : List Event)
deriving DecidableEq, Repr

structure LedgerReplay where
  lastId : ℤ
  laterLedger : Option (ℤ × LedgerVersion)
deriving DecidableEq, Repr

/-- What the loop does that the outside can see. -/
inductive Action where
  | subscribe (id : ℤ)
  | deliver (msg : LedgerEventMessage)
  | handOver (id : ℤ) (raw : Bytes) (ledger : LedgerVersion)
deriving DecidableEq, Repr

variable {σ : Type*}

/-- The arguments of a replay. `apply` is a closure over a state of type `σ`. -/
structure Args (σ : Type*) where
  tagging : Tagging
  stream : LedgerStream
  ledger : LedgerVersion
  startId : ℤ
  resuming : Bool
  apply : σ → ℤ → Bytes → LedgerVersion → σ × Except WalletError Unit

structure State (σ : Type*) where
  lastId : ℤ
  count : ℕ
  pacer : ProgressPacer
  retries : ℕ
  sink : σ
  trace : List Action

/-- The loop variables of one connection. -/
structure Conn (σ : Type*) where
  st : State σ
  connHigh : Option ℤ

/-- How a connection is left: for another attempt, or for good. -/
inductive Exit (σ : Type*) where
  | reconnect (st : State σ)
  | finish (st : State σ) (result : Except WalletError LedgerReplay)

namespace State

def init (args : Args σ) (sink : σ) : State σ where
  lastId := lastAppliedBefore args.startId
  count := 0
  pacer := ⟨progressInterval, none⟩
  retries := 0
  sink := sink
  trace := []

def record (st : State σ) (a : Action) : State σ := { st with trace := a :: st.trace }

def stop (st : State σ) (later : Option (ℤ × LedgerVersion)) : Exit σ :=
  .finish st (.ok ⟨st.lastId, later⟩)

def fail (st : State σ) (e : WalletError) : Exit σ := .finish st (.error e)

/-- Reconnect while the bound allows it, else give up with `e`. -/
def retryOr (st : State σ) (e : IndexerError) : Exit σ :=
  if e.isRetryable && decide (st.retries < reconnectMaxRetries) then
    .reconnect { st with retries := st.retries + 1 }
  else
    st.fail (gaveUp e)

end State

/-- The event's id becomes the cursor, and the replay reports and goes on or
completes. -/
def consume (args : Args σ) (st : State σ) (msg : LedgerEventMessage) (now : ℕ)
    (alive : Bool) : Pass (Conn σ) (Exit σ) :=
  -- Only a new event counts as progress for the reconnect bound.
  let st' : State σ := { st with
    retries := 0, lastId := msg.id, count := st.count + 1, pacer := (st.pacer.due now).2 }
  if (st.pacer.due now).1 && !alive then
    .leave (st'.fail (progressCancelled args.stream.kind))
  else if msg.maxId ≤ msg.id then .leave (st'.stop none)
  else .again ⟨st', some msg.id⟩

/-- Hands a new event of this or an earlier generation to `apply`. -/
def handOver (args : Args σ) (st : State σ) (msg : LedgerEventMessage) (raw : Bytes)
    (eventLedger : LedgerVersion) (now : ℕ) (alive : Bool) : Pass (Conn σ) (Exit σ) :=
  let outcome := args.apply st.sink msg.id raw eventLedger
  let st' : State σ := { st.record (.handOver msg.id raw eventLedger) with sink := outcome.1 }
  match outcome.2 with
  | .error e => .leave (st'.fail e)
  | .ok () => consume args st' msg now alive

def onMessage (args : Args σ) (conn : Conn σ) (msg : LedgerEventMessage) (now : ℕ)
    (alive : Bool) : Pass (Conn σ) (Exit σ) :=
  let st := conn.st.record (.deliver msg)
  match orderRegression msg.id conn.connHigh with
  | some prev => .leave (st.fail (.eventOrder args.stream.kind msg.id prev))
  | none =>
    if msg.maxId = 0 then .leave (st.stop none)
    else if alreadyApplied msg.id st.lastId args.startId (decide (0 < st.count)) then
      if msg.maxId ≤ msg.id then .leave (st.stop none) else .again ⟨st, some msg.id⟩
    else
      match eventBytes msg args.stream.kind with
      | .error e => .leave (st.fail e)
      | .ok raw =>
        match args.tagging.ofTagged raw with
        | .error e => .leave (st.fail e)
        | .ok eventLedger =>
          if args.ledger < eventLedger then .leave (st.stop (some (msg.id, eventLedger)))
          else handOver args st msg raw eventLedger now alive

def onEvent (args : Args σ) (conn : Conn σ) : Event → Pass (Conn σ) (Exit σ)
  | .message msg now alive => onMessage args conn msg now alive
  | .failed e => .leave (conn.st.retryOr e)
  | .ended =>
    if args.resuming && decide (conn.st.count = 0) then .leave (conn.st.stop none)
    else .leave (conn.st.retryOr (.transport
      s!"{args.stream.kind} subscription ended before replay completed (after {reconnectMaxRetries} reconnect attempts)"))

/-- The wait for the next event timed out. -/
def onSilence (args : Args σ) (conn : Conn σ) : Exit σ :=
  if args.resuming && decide (conn.st.count = 0) then conn.st.stop none
  else conn.st.fail (gaveUp (.transport s!"timeout waiting for {args.stream.kind} events"))

def connect (args : Args σ) (st : State σ) : Attempt → Exit σ
  | .refused e => (st.record (.subscribe (resumeId st.count st.lastId))).retryOr e
  | .serves events =>
    let st := st.record (.subscribe (resumeId st.count st.lastId))
    match loop (onEvent args) ⟨st, none⟩ events with
    | .leave exit => exit
    | .again conn => onSilence args conn

/-- One round of the outer loop. -/
def attempt (args : Args σ) (st : State σ) (a : Attempt) :
    Pass (State σ) (State σ × Except WalletError LedgerReplay) :=
  match connect args st a with
  | .reconnect st => .again st
  | .finish st result => .leave (st, result)

/-- The replay against a server that makes these attempts possible. It has no
result while it still waits to connect once more. -/
def replayLedgerEvents (args : Args σ) (sink : σ) (attempts : List Attempt) :
    State σ × Option (Except WalletError LedgerReplay) :=
  match loop (attempt args) (State.init args sink) attempts with
  | .again st => (st, none)
  | .leave (st, result) => (st, some result)

section Traces

/-- The ids handed to `apply`, newest first. -/
def handedIds : List Action → List ℤ
  | [] => []
  | .handOver id _ _ :: older => id :: handedIds older
  | .subscribe _ :: older => handedIds older
  | .deliver _ :: older => handedIds older

def handedLedgers : List Action → List LedgerVersion
  | [] => []
  | .handOver _ _ v :: older => v :: handedLedgers older
  | .subscribe _ :: older => handedLedgers older
  | .deliver _ :: older => handedLedgers older

/-- The ids that the current connection delivered, newest first. -/
def connIds : List Action → List ℤ
  | [] => []
  | .subscribe _ :: _ => []
  | .deliver msg :: older => msg.id :: connIds older
  | .handOver _ _ _ :: older => connIds older

/-- The cursor that a trace leaves: its last id handed over, or the one before
the start. -/
def cursor (startId : ℤ) (trace : List Action) : ℤ :=
  (handedIds trace).head?.getD (lastAppliedBefore startId)

/-- The message brings an event at or below the cursor, which the replay skips. -/
def Redelivered (startId : ℤ) (older : List Action) (msg : LedgerEventMessage) : Prop :=
  alreadyApplied msg.id (cursor startId older) startId (decide (handedIds older ≠ [])) = true

/-- The generation of the event that a message carries. -/
def generation (args : Args σ) (msg : LedgerEventMessage) : Except WalletError LedgerVersion := do
  let raw ← eventBytes msg args.stream.kind
  args.tagging.ofTagged raw

/-- A delivery that the loop goes on after: it is in order, and either
re-delivered or of a generation that the wallet may apply. -/
def Benign (args : Args σ) (older : List Action) (msg : LedgerEventMessage) : Prop :=
  (∀ i ∈ connIds older, i ≤ msg.id) ∧
    (Redelivered args.startId older msg ∨
      ∃ v, generation args msg = .ok v ∧ v ≤ args.ledger)

/-- Every delivery of the trace is one that the loop goes on after. -/
def Quiet (args : Args σ) : List Action → Prop
  | [] => True
  | .subscribe _ :: older => Quiet args older
  | .deliver msg :: older => Benign args older msg ∧ Quiet args older
  | .handOver _ _ _ :: older => Quiet args older

theorem Quiet.benign (args : Args σ) (newer older : List Action) (msg : LedgerEventMessage)
    (h : Quiet args (newer ++ .deliver msg :: older)) : Benign args older msg := by
  induction newer with
  | nil => exact h.1
  | cons a newer ih =>
    cases a with
    | subscribe id => exact ih h
    | deliver m => exact ih h.2
    | handOver id raw v => exact ih h

/-- In a quiet trace the last id delivered on a connection is its highest. -/
theorem Quiet.connIds_le (args : Args σ) (trace : List Action) (h : Quiet args trace) :
    ∀ i ∈ connIds trace, ∃ high, (connIds trace).head? = some high ∧ i ≤ high := by
  induction trace with
  | nil => simp [connIds]
  | cons a older ih =>
    cases a with
    | subscribe id => simp [connIds]
    | handOver id raw v => exact ih h
    | deliver m =>
      intro i hi
      refine ⟨m.id, rfl, ?_⟩
      rcases List.mem_cons.mp hi with rfl | hi
      · exact le_refl _
      · exact h.1.1 i hi

end Traces

theorem alreadyApplied_eq_false_iff (msgId lastId startId : ℤ) (appliedAny : Bool) :
    alreadyApplied msgId lastId startId appliedAny = false ↔
      (appliedAny = false ∧ startId ≤ 0) ∨ lastId < msgId := by
  cases appliedAny with
  | true => simp [alreadyApplied]
  | false =>
    simp only [alreadyApplied, Bool.false_or, Bool.and_eq_false_iff, decide_eq_false_iff_not,
      true_and]
    omega

theorem orderRegression_eq_none_iff (msgId : ℤ) (connHigh : Option ℤ) :
    orderRegression msgId connHigh = none ↔ ∀ high, connHigh = some high → high ≤ msgId := by
  simp [orderRegression, Option.filter_eq_none_iff]

theorem orderRegression_eq_some_iff (msgId prev : ℤ) (connHigh : Option ℤ) :
    orderRegression msgId connHigh = some prev ↔ connHigh = some prev ∧ msgId < prev := by
  simp [orderRegression, Option.filter_eq_some_iff]

/-- What holds of the events handed over, in every state of the loop. -/
structure Handed (args : Args σ) (trace : List Action) : Prop where
  decreasing : (handedIds trace).Pairwise (· > ·)
  above : 0 < args.startId → ∀ i ∈ handedIds trace, args.startId - 1 < i
  ledger_le : ∀ v ∈ handedLedgers trace, v ≤ args.ledger

theorem Handed.le_cursor (args : Args σ) (trace : List Action) (h : Handed args trace) :
    ∀ i ∈ handedIds trace, i ≤ cursor args.startId trace := by
  intro i hi
  unfold cursor
  cases hids : handedIds trace with
  | nil => simp [hids] at hi
  | cons j ids =>
    have hdec := h.decreasing
    rw [hids, List.pairwise_cons] at hdec
    rw [hids] at hi
    rcases List.mem_cons.mp hi with rfl | hi
    · exact le_refl _
    · exact le_of_lt (hdec.1 i hi)

theorem Handed.start_le_cursor (args : Args σ) (trace : List Action) (h : Handed args trace)
    (hstart : 0 < args.startId) : args.startId - 1 ≤ cursor args.startId trace := by
  unfold cursor
  cases hids : handedIds trace with
  | nil => exact le_max_left _ _
  | cons j ids =>
    have hj : args.startId - 1 < j := h.above hstart j (by simp [hids])
    exact le_of_lt hj

/-- Handing over an event that is not re-delivered keeps the ids increasing. -/
theorem Handed.handOver (args : Args σ) (trace : List Action) (msg : LedgerEventMessage)
    (raw : Bytes) (v : LedgerVersion) (h : Handed args trace)
    (hnew : ¬ Redelivered args.startId trace msg) (hv : v ≤ args.ledger) :
    Handed args (.handOver msg.id raw v :: trace) := by
  have hfresh := (alreadyApplied_eq_false_iff _ _ _ _).mp (Bool.eq_false_iff.mpr hnew)
  refine ⟨?_, ?_, ?_⟩
  · refine List.pairwise_cons.mpr ⟨?_, h.decreasing⟩
    intro i hi
    rcases hfresh with ⟨hnone, _⟩ | hlt
    · have hempty : handedIds trace = [] := by simpa using hnone
      simp [hempty] at hi
    · exact lt_of_le_of_lt (h.le_cursor args trace i hi) hlt
  · intro hstart i hi
    rcases List.mem_cons.mp hi with rfl | hi
    · rcases hfresh with ⟨_, hle⟩ | hlt
      · omega
      · exact lt_of_le_of_lt (h.start_le_cursor args trace hstart) hlt
    · exact h.above hstart i hi
  · intro w hw
    rcases List.mem_cons.mp hw with rfl | hw
    · exact hv
    · exact h.ledger_le w hw

/-- The loop invariant between two events. -/
structure Inv (args : Args σ) (st : State σ) : Prop where
  count_eq : st.count = (handedIds st.trace).length
  last_eq : st.lastId = cursor args.startId st.trace
  handed : Handed args st.trace
  quiet : Quiet args st.trace

structure ConnInv (args : Args σ) (conn : Conn σ) : Prop where
  inv : Inv args conn.st
  high_eq : conn.connHigh = (connIds conn.st.trace).head?

/-- How a trace ends: quietly, or at a delivery that the loop stops at. A
delivery that regresses within its connection is always the last action and its
result is the order error. -/
def Ended (args : Args σ) (trace : List Action) (result : Except WalletError LedgerReplay) :
    Prop :=
  Quiet args trace ∨ ∃ msg older, trace = .deliver msg :: older ∧ Quiet args older ∧
    ((∃ i ∈ connIds older, msg.id < i) →
      ∃ prev ∈ connIds older, msg.id < prev ∧
        result = .error (.eventOrder args.stream.kind msg.id prev))

structure Finished (args : Args σ) (st : State σ) (result : Except WalletError LedgerReplay) :
    Prop where
  handed : Handed args st.trace
  ended : Ended args st.trace result
  last_eq : ∀ r, result = .ok r → r.lastId = cursor args.startId st.trace

def ExitInv (args : Args σ) : Exit σ → Prop
  | .reconnect st => Inv args st
  | .finish st result => Finished args st result

theorem Inv.init (args : Args σ) (sink : σ) : Inv args (State.init args sink) where
  count_eq := rfl
  last_eq := rfl
  handed := ⟨List.Pairwise.nil, by simp [State.init, handedIds],
    by simp [State.init, handedLedgers]⟩
  quiet := trivial

theorem Inv.stop (args : Args σ) (st : State σ) (h : Inv args st)
    (later : Option (ℤ × LedgerVersion)) : ExitInv args (st.stop later) where
  handed := h.handed
  ended := Or.inl h.quiet
  last_eq r hr := by
    cases hr
    exact h.last_eq

theorem Inv.fail (args : Args σ) (st : State σ) (h : Inv args st) (e : WalletError) :
    ExitInv args (st.fail e) where
  handed := h.handed
  ended := Or.inl h.quiet
  last_eq r hr := by cases hr

theorem Inv.retryOr (args : Args σ) (st : State σ) (h : Inv args st) (e : IndexerError) :
    ExitInv args (st.retryOr e) := by
  unfold State.retryOr
  split
  · exact ⟨h.count_eq, h.last_eq, h.handed, h.quiet⟩
  · exact h.fail args st _

theorem Inv.subscribe (args : Args σ) (st : State σ) (h : Inv args st) (id : ℤ) :
    Inv args (st.record (.subscribe id)) :=
  ⟨h.count_eq, h.last_eq, ⟨h.handed.decreasing, h.handed.above, h.handed.ledger_le⟩, h.quiet⟩

/-- After a benign delivery the loop invariant still holds. -/
theorem Inv.deliver (args : Args σ) (st : State σ) (h : Inv args st) (msg : LedgerEventMessage)
    (hmsg : Benign args st.trace msg) : Inv args (st.record (.deliver msg)) :=
  ⟨h.count_eq, h.last_eq, ⟨h.handed.decreasing, h.handed.above, h.handed.ledger_le⟩,
    ⟨hmsg, h.quiet⟩⟩

theorem redelivered_iff (args : Args σ) (st : State σ) (h : Inv args st)
    (msg : LedgerEventMessage) :
    Redelivered args.startId st.trace msg ↔
      alreadyApplied msg.id st.lastId args.startId (decide (0 < st.count)) = true := by
  have hcount : decide (handedIds st.trace ≠ []) = decide (0 < st.count) := by
    rw [h.count_eq]
    simp [List.length_pos_iff]
  rw [Redelivered, hcount, h.last_eq]

/-- A trace that ends at a delivery in order, whatever the result. -/
theorem Inv.finish_deliver (args : Args σ) (st : State σ) (h : Inv args st)
    (msg : LedgerEventMessage) (hord : ∀ i ∈ connIds st.trace, i ≤ msg.id)
    (result : Except WalletError LedgerReplay)
    (hlast : ∀ r, result = .ok r → r.lastId = st.lastId) :
    Finished args (st.record (.deliver msg)) result where
  handed := ⟨h.handed.decreasing, h.handed.above, h.handed.ledger_le⟩
  ended := by
    refine Or.inr ⟨msg, st.trace, rfl, h.quiet, ?_⟩
    rintro ⟨i, hi, hlt⟩
    exact absurd (hord i hi) (not_le.mpr hlt)
  last_eq r hr := (hlast r hr).trans h.last_eq

theorem consume_holds (args : Args σ) (st : State σ) (msg : LedgerEventMessage) (now : ℕ)
    (alive : Bool)
    (hinv : Inv args { st with lastId := msg.id, count := st.count + 1 })
    (hhigh : (connIds st.trace).head? = some msg.id) :
    (consume args st msg now alive).Holds (ConnInv args) (ExitInv args) := by
  have hst : Inv args { st with
      retries := 0, lastId := msg.id, count := st.count + 1, pacer := (st.pacer.due now).2 } :=
    ⟨hinv.count_eq, hinv.last_eq, hinv.handed, hinv.quiet⟩
  simp only [consume, Pass.holds_ite]
  exact ⟨fun _ => hst.fail args _ _, fun _ => ⟨fun _ => hst.stop args _ none,
    fun _ => ⟨hst, hhigh.symm⟩⟩⟩

theorem handOver_holds (args : Args σ) (st : State σ) (h : Inv args st)
    (msg : LedgerEventMessage) (raw : Bytes) (v : LedgerVersion) (now : ℕ) (alive : Bool)
    (hnew : ¬ Redelivered args.startId st.trace msg) (hv : v ≤ args.ledger)
    (hhigh : (connIds st.trace).head? = some msg.id) :
    (handOver args st msg raw v now alive).Holds (ConnInv args) (ExitInv args) := by
  have hhanded : Handed args (.handOver msg.id raw v :: st.trace) :=
    h.handed.handOver args st.trace msg raw v hnew hv
  unfold handOver
  cases hout : (args.apply st.sink msg.id raw v).2 with
  | error e =>
    -- The event was handed over but not consumed, and the error ends the replay.
    simp only [hout]
    exact ⟨hhanded, Or.inl h.quiet, fun r hr => by cases hr⟩
  | ok u =>
    simp only [hout]
    refine consume_holds args _ msg now alive ⟨?_, rfl, hhanded, h.quiet⟩ hhigh
    simp only [State.record, handedIds, List.length_cons, h.count_eq]

theorem onMessage_holds (args : Args σ) (conn : Conn σ) (h : ConnInv args conn)
    (msg : LedgerEventMessage) (now : ℕ) (alive : Bool) :
    (onMessage args conn msg now alive).Holds (ConnInv args) (ExitInv args) := by
  unfold onMessage
  cases hreg : orderRegression msg.id conn.connHigh with
  | some prev =>
    obtain ⟨hhigh, hlt⟩ := (orderRegression_eq_some_iff _ _ _).mp hreg
    have hprev : prev ∈ connIds conn.st.trace :=
      List.mem_of_mem_head? (by rw [← h.high_eq, hhigh]; rfl)
    exact ⟨⟨h.inv.handed.decreasing, h.inv.handed.above, h.inv.handed.ledger_le⟩,
      Or.inr ⟨msg, conn.st.trace, rfl, h.inv.quiet, fun _ => ⟨prev, hprev, hlt, rfl⟩⟩,
      fun r hr => by cases hr⟩
  | none =>
    have hord : ∀ i ∈ connIds conn.st.trace, i ≤ msg.id := by
      intro i hi
      obtain ⟨high, hhead, hle⟩ := h.inv.quiet.connIds_le args _ i hi
      exact hle.trans ((orderRegression_eq_none_iff _ _).mp hreg high (h.high_eq.trans hhead))
    simp only
    split
    · exact h.inv.finish_deliver args _ msg hord _ (fun r hr => by cases hr; rfl)
    split
    · rename_i hdup
      have hre := (redelivered_iff args conn.st h.inv msg).mpr hdup
      have hinv := h.inv.deliver args conn.st msg ⟨hord, Or.inl hre⟩
      split
      · exact hinv.stop args _ none
      · exact ⟨hinv, rfl⟩
    rename_i hdup
    have hnew : ¬ Redelivered args.startId conn.st.trace msg := fun hre =>
      hdup ((redelivered_iff args conn.st h.inv msg).mp hre)
    cases hraw : eventBytes msg args.stream.kind with
    | error e => exact h.inv.finish_deliver args _ msg hord _ (fun r hr => by cases hr)
    | ok raw =>
      cases hgen : args.tagging.ofTagged raw with
      | error e =>
        simp only [hgen]
        exact h.inv.finish_deliver args _ msg hord _ (fun r hr => by cases hr)
      | ok v =>
        simp only [hgen]
        split
        · exact h.inv.finish_deliver args _ msg hord _ (fun r hr => by cases hr; rfl)
        · rename_i hv
          have hgeneration : generation args msg = .ok v := by
            simp only [generation, hraw]
            exact hgen
          have hinv := h.inv.deliver args conn.st msg
            ⟨hord, Or.inr ⟨v, hgeneration, not_lt.mp hv⟩⟩
          exact handOver_holds args _ hinv msg raw v now alive hnew (not_lt.mp hv) rfl

theorem onEvent_holds (args : Args σ) (conn : Conn σ) (e : Event) (h : ConnInv args conn) :
    (onEvent args conn e).Holds (ConnInv args) (ExitInv args) := by
  cases e with
  | message msg now alive => exact onMessage_holds args conn h msg now alive
  | failed e => exact h.inv.retryOr args conn.st e
  | ended =>
    simp only [onEvent, Pass.holds_ite]
    exact ⟨fun _ => h.inv.stop args conn.st none, fun _ => h.inv.retryOr args conn.st _⟩

theorem onSilence_holds (args : Args σ) (conn : Conn σ) (h : ConnInv args conn) :
    ExitInv args (onSilence args conn) := by
  unfold onSilence
  split
  · exact h.inv.stop args conn.st none
  · exact h.inv.fail args conn.st _

theorem connect_holds (args : Args σ) (st : State σ) (h : Inv args st) (a : Attempt) :
    ExitInv args (connect args st a) := by
  cases a with
  | refused e => exact (h.subscribe args st _).retryOr args _ e
  | serves events =>
    have hstart : ConnInv args ⟨st.record (.subscribe (resumeId st.count st.lastId)), none⟩ :=
      ⟨h.subscribe args st _, rfl⟩
    have hloop := loop_holds (onEvent args) (ConnInv args) (ExitInv args)
      (fun conn e hconn => onEvent_holds args conn e hconn) _ events hstart
    simp only [connect]
    cases hout : loop (onEvent args)
        ⟨st.record (.subscribe (resumeId st.count st.lastId)), none⟩ events with
    | leave exit =>
      rw [hout] at hloop
      exact hloop
    | again conn =>
      rw [hout] at hloop
      exact onSilence_holds args conn hloop

theorem attempt_holds (args : Args σ) (st : State σ) (a : Attempt) (h : Inv args st) :
    (attempt args st a).Holds (Inv args) (fun out => Finished args out.1 out.2) := by
  have hexit := connect_holds args st h a
  unfold attempt
  cases hc : connect args st a with
  | reconnect st' =>
    rw [hc] at hexit
    exact hexit
  | finish st' result =>
    rw [hc] at hexit
    exact hexit

/-- The replay's state after any server behaviour: the loop invariant while it
still waits, else the facts about a finished run. -/
theorem replay_holds (args : Args σ) (sink : σ) (attempts : List Attempt) :
    match replayLedgerEvents args sink attempts with
    | (st, none) => Inv args st
    | (st, some result) => Finished args st result := by
  have h := loop_holds (attempt args) (Inv args) (fun out => Finished args out.1 out.2)
    (fun st a hst => attempt_holds args st a hst) _ attempts (Inv.init args sink)
  unfold replayLedgerEvents
  cases hout : loop (attempt args) (State.init args sink) attempts with
  | again st =>
    rw [hout] at h
    exact h
  | leave out =>
    rw [hout] at h
    exact h

/-- A delivery that the loop does not go on after is the last action. -/
theorem Ended.newer_eq_nil (args : Args σ) (newer older : List Action)
    (msg : LedgerEventMessage) (result : Except WalletError LedgerReplay)
    (h : Ended args (newer ++ .deliver msg :: older) result) (hmsg : ¬ Benign args older msg) :
    newer = [] := by
  rcases h with hquiet | ⟨last, rest, heq, hquiet, _⟩
  · exact absurd (hquiet.benign args newer older msg) hmsg
  · cases newer with
    | nil => rfl
    | cons a newer =>
      have hrest : rest = newer ++ .deliver msg :: older := (List.cons.inj heq).2.symm
      rw [hrest] at hquiet
      exact absurd (hquiet.benign args newer older msg) hmsg

/-- A delivery below an id that its connection has delivered ends the replay in
the order error. -/
theorem Ended.regression (args : Args σ) (newer older : List Action) (msg : LedgerEventMessage)
    (result : Except WalletError LedgerReplay)
    (h : Ended args (newer ++ .deliver msg :: older) result)
    (hreg : ∃ i ∈ connIds older, msg.id < i) :
    newer = [] ∧ ∃ prev ∈ connIds older, msg.id < prev ∧
      result = .error (.eventOrder args.stream.kind msg.id prev) := by
  have hmsg : ¬ Benign args older msg := by
    rintro ⟨hord, _⟩
    obtain ⟨i, hi, hlt⟩ := hreg
    exact absurd (hord i hi) (not_le.mpr hlt)
  have hnil := h.newer_eq_nil args newer older msg result hmsg
  subst hnil
  refine ⟨rfl, ?_⟩
  rcases h with hquiet | ⟨last, rest, heq, _, hend⟩
  · exact absurd hquiet.1 hmsg
  · obtain ⟨hlast, hrest⟩ := List.cons.inj heq
    cases hlast
    subst hrest
    exact hend hreg

theorem not_benign_of_later (args : Args σ) (older : List Action) (msg : LedgerEventMessage)
    (v : LedgerVersion) (hgen : generation args msg = .ok v) (hv : args.ledger < v)
    (hnew : ¬ Redelivered args.startId older msg) : ¬ Benign args older msg := by
  rintro ⟨_, hre | ⟨w, hw, hle⟩⟩
  · exact hnew hre
  · have hvw : v = w := Except.ok.inj (hgen.symm.trans hw)
    exact absurd hle (not_le.mpr (hvw ▸ hv))

/-- Whatever the server does, the replay hands over each event at most once and
in order, none of a later generation, ends at the first regression within a
connection and at the first new event of a later generation, and reports the
last applied id. -/
theorem replay_once_in_order (args : Args σ) (sink : σ) (attempts : List Attempt) :
    let out := replayLedgerEvents args sink attempts
    (handedIds out.1.trace).Pairwise (· > ·) ∧
    (0 < args.startId → ∀ i ∈ handedIds out.1.trace, args.startId - 1 < i) ∧
    (∀ v ∈ handedLedgers out.1.trace, v ≤ args.ledger) ∧
    (∀ newer msg older, out.1.trace = newer ++ .deliver msg :: older →
      (∃ i ∈ connIds older, msg.id < i) →
      newer = [] ∧ ∃ prev ∈ connIds older, msg.id < prev ∧
        out.2 = some (.error (.eventOrder args.stream.kind msg.id prev))) ∧
    (∀ newer msg older v, out.1.trace = newer ++ .deliver msg :: older →
      generation args msg = .ok v → args.ledger < v →
      ¬ Redelivered args.startId older msg → newer = []) ∧
    (∀ r, out.2 = some (.ok r) → r.lastId = cursor args.startId out.1.trace) := by
  intro out
  have h := replay_holds args sink attempts
  change (match out with
    | (st, none) => Inv args st
    | (st, some result) => Finished args st result) at h
  obtain ⟨st, result⟩ := out
  cases result with
  | none =>
    replace h : Inv args st := h
    refine ⟨h.handed.decreasing, h.handed.above, h.handed.ledger_le, ?_, ?_, ?_⟩
    · rintro newer msg older heq ⟨i, hi, hlt⟩
      have hquiet := h.quiet
      change st.trace = _ at heq
      rw [heq] at hquiet
      exact absurd ((hquiet.benign args newer older msg).1 i hi) (not_le.mpr hlt)
    · intro newer msg older v heq hgen hv hnew
      have hquiet := h.quiet
      change st.trace = _ at heq
      rw [heq] at hquiet
      exact absurd (hquiet.benign args newer older msg)
        (not_benign_of_later args older msg v hgen hv hnew)
    · intro r hr
      cases hr
  | some result =>
    replace h : Finished args st result := h
    refine ⟨h.handed.decreasing, h.handed.above, h.handed.ledger_le, ?_, ?_, ?_⟩
    · intro newer msg older heq hreg
      have hended := h.ended
      change st.trace = _ at heq
      rw [heq] at hended
      obtain ⟨hnil, prev, hprev, hlt, hres⟩ := hended.regression args newer older msg result hreg
      exact ⟨hnil, prev, hprev, hlt, congrArg some hres⟩
    · intro newer msg older v heq hgen hv hnew
      have hended := h.ended
      change st.trace = _ at heq
      rw [heq] at hended
      exact hended.newer_eq_nil args newer older msg result
        (not_benign_of_later args older msg v hgen hv hnew)
    · intro r hr
      exact h.last_eq r (Option.some.inj hr)

/-- A re-delivered event is skipped before its generation is read, so a server
that re-delivers one with another generation's bytes does not end the replay. -/
theorem redelivered_later_event_is_skipped :
    let args : Args Unit := {
      tagging := ⟨fun bytes => .ok (String.ofList (bytes.map (fun b => Char.ofNat b.toNat))),
        "8", "9"⟩
      stream := .zswap, ledger := .V8, startId := 0, resuming := false
      apply := fun s _ _ _ => (s, .ok ()) }
    let out := replayLedgerEvents args () [.serves [
      .message ⟨1, "38", 3⟩ 0 true, .message ⟨1, "39", 3⟩ 0 true, .message ⟨2, "38", 3⟩ 0 true]]
    ¬ ∀ newer msg older v, out.1.trace = newer ++ .deliver msg :: older →
      generation args msg = .ok v → args.ledger < v → handedIds newer = [] := by
  intro args out h
  have htrace : out.1.trace = [.handOver 2 [56] .V8, .deliver ⟨2, "38", 3⟩] ++
      .deliver ⟨1, "39", 3⟩ ::
        [.handOver 1 [56] .V8, .deliver ⟨1, "38", 3⟩, .subscribe 0] := by decide +kernel
  have hgen : generation args ⟨1, "39", 3⟩ = .ok .V9 := by decide +kernel
  have := h _ _ _ _ htrace hgen (by decide)
  simp [handedIds] at this

end MidnightRs.Replay
