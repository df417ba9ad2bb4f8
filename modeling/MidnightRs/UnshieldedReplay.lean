import MidnightRs.Replay
import MidnightRs.Streams
import MidnightRs.Utxos

/-!
The replay of an address's unshielded transactions. The indexer merges them
with progress frames that announce its highest transaction id, and the replay
ends once it has seen a transaction with that id. Whatever the interruptions, a
replay that returns has applied the transactions after its cursor one by one.
-/
namespace MidnightRs.Unshielded

open Loops Streams Utxos Replay

structure UnshieldedTxRef where
  id : Option ℤ
  /-- The height of the transaction's block. -/
  block : Option ℤ
deriving DecidableEq, Repr

structure UnshieldedTxData where
  transaction : Option UnshieldedTxRef
  createdUtxos : List SubscriptionUtxo
  spentUtxos : List SubscriptionUtxo
deriving DecidableEq, Repr

def UnshieldedTxData.txId (tx : UnshieldedTxData) : Option ℤ := tx.transaction.bind (·.id)

def UnshieldedTxData.blockHeight (tx : UnshieldedTxData) : Option ℤ :=
  tx.transaction.bind (·.block)

/-- Where a replay stopped. -/
structure UnshieldedReplay where
  utxos : List TrackedUtxo
  lastTxId : ℤ
  lastBlockHeight : ℤ
  spent : List SpentUtxoKey
deriving DecidableEq, Repr

/-- Every UTXO is parsed before the set changes. -/
def applyUnshieldedTx (utxos : List TrackedUtxo) (tx : UnshieldedTxData) :
    Except WalletError (List TrackedUtxo × List SpentUtxoKey) :=
  match tx.spentUtxos.mapM parseUtxo with
  | .error e => .error e
  | .ok spent =>
    match tx.createdUtxos.mapM parseUtxo with
    | .error e => .error e
    | .ok created =>
      let spentKeys := spent.map TrackedUtxo.spentKey
      .ok (utxos.filter (fun u => !spentKeys.contains u.spentKey) ++ created, spentKeys)

/-- A malformed UTXO names the transaction it came with. -/
def attachTxId (txId : Option ℤ) : WalletError → WalletError
  | .malformedUtxo field value reason none => .malformedUtxo field value reason txId
  | other => other

inductive Event where
  | transaction (tx : UnshieldedTxData)
  | progress (highestTransactionId : ℤ)
  | failed (error : IndexerError)
  | ended
deriving DecidableEq, Repr

/-- One connection attempt, which stays silent after its events. -/
inductive Attempt where
  | refused (error : IndexerError)
  | serves (events : List Event)
deriving DecidableEq, Repr

structure Args where
  startTxId : ℤ
  resuming : Bool
deriving DecidableEq, Repr

structure State where
  utxos : List TrackedUtxo
  lastHeight : ℤ
  lastSeenTxId : ℤ
  spentKeys : List SpentUtxoKey
  targetTxId : Option ℤ
  appliedTxs : ℕ
  retries : ℕ
deriving DecidableEq, Repr

structure Conn where
  st : State
  connHigh : Option ℤ
deriving DecidableEq, Repr

inductive Exit where
  | reconnect (st : State)
  | finish (result : Except WalletError UnshieldedReplay)

namespace State

def init (args : Args) (initialUtxos : List TrackedUtxo) (startBlockHeight : ℤ) : State where
  utxos := initialUtxos
  lastHeight := startBlockHeight
  lastSeenTxId := lastAppliedBefore args.startTxId
  spentKeys := []
  targetTxId := none
  appliedTxs := 0
  retries := 0

def stopAt (st : State) (lastTxId : ℤ) : UnshieldedReplay :=
  ⟨st.utxos, lastTxId, st.lastHeight, st.spentKeys⟩

/-- The first attempt starts from the caller's cursor. -/
def resumeTxId (args : Args) (st : State) : ℤ :=
  if 0 < st.appliedTxs then st.lastSeenTxId + 1 else args.startTxId

def retryOr (st : State) (e : IndexerError) : Exit :=
  if e.isRetryable && decide (st.retries < reconnectMaxRetries) then
    .reconnect { st with retries := st.retries + 1 }
  else
    .finish (.error (gaveUp e))

/-- The transaction counts as applied, with the UTXOs it leaves. -/
def applied (st : State) (tx : UnshieldedTxData) (utxos : List TrackedUtxo)
    (confirmed : List SpentUtxoKey) : State where
  utxos := utxos
  lastHeight := tx.blockHeight.elim st.lastHeight (max st.lastHeight)
  lastSeenTxId := tx.txId.elim st.lastSeenTxId (max st.lastSeenTxId)
  spentKeys := st.spentKeys ++ confirmed
  targetTxId := st.targetTxId
  appliedTxs := st.appliedTxs + 1
  retries := 0

end State

/-- Applies a new transaction, and stops when it reaches the target. -/
def onNewTransaction (conn : Conn) (tx : UnshieldedTxData) : Pass Conn Exit :=
  match applyUnshieldedTx conn.st.utxos tx with
  | .error e => .leave (.finish (.error (attachTxId tx.txId e)))
  | .ok (utxos, confirmed) =>
    let st := conn.st.applied tx utxos confirmed
    if st.targetTxId.any (fun target => decide (target ≤ st.lastSeenTxId)) then
      .leave (.finish (.ok (st.stopAt st.lastSeenTxId)))
    else .again { conn with st := st }

/-- An event without a transaction id is neither ordered nor deduped. -/
def onTransaction (args : Args) (conn : Conn) (tx : UnshieldedTxData) : Pass Conn Exit :=
  match tx.txId with
  | none => onNewTransaction conn tx
  | some id =>
    match orderRegression id conn.connHigh with
    | some prev => .leave (.finish (.error (.eventOrder "unshielded" id prev)))
    | none =>
      if alreadyApplied id conn.st.lastSeenTxId args.startTxId
          (decide (0 < conn.st.appliedTxs)) then .again { conn with connHigh := some id }
      else onNewTransaction { conn with connHigh := some id } tx

/-- Any progress frame is liveness, so it resets the reconnect bound. -/
def onProgress (conn : Conn) (target : ℤ) : Pass Conn Exit :=
  let st := { conn.st with retries := 0 }
  if target = 0 ∨ target ≤ st.lastSeenTxId then
    .leave (.finish (.ok (st.stopAt (max st.lastSeenTxId target))))
  else .again { conn with st := { st with targetTxId := some target } }

def onEvent (args : Args) (conn : Conn) : Event → Pass Conn Exit
  | .transaction tx => onTransaction args conn tx
  | .progress target => onProgress conn target
  | .failed e => .leave (conn.st.retryOr e)
  | .ended => .leave (conn.st.retryOr (.transport
      s!"unshielded subscription ended before sync completed (after {reconnectMaxRetries} reconnect attempts)"))

/-- The wait for the next event timed out. -/
def onSilence (args : Args) (conn : Conn) : Exit :=
  if args.resuming then .finish (.ok (conn.st.stopAt conn.st.lastSeenTxId))
  else .finish (.error (gaveUp (.transport "timeout waiting for unshielded sync")))

def connect (args : Args) (st : State) : Attempt → Exit
  | .refused e => st.retryOr e
  | .serves events =>
    match loop (onEvent args) ⟨st, none⟩ events with
    | .leave exit => exit
    | .again conn => onSilence args conn

/-- The replay, when each subscription gets the next answer. An answer is a
function of the transaction id that is asked for. -/
def replayUnshieldedEvents (args : Args) (initialUtxos : List TrackedUtxo)
    (startBlockHeight : ℤ) (answers : List (ℤ → Attempt)) :
    Option (Except WalletError UnshieldedReplay) :=
  match loop (fun st (answer : ℤ → Attempt) =>
      match connect args st (answer (st.resumeTxId args)) with
      | .reconnect st => Pass.again st
      | .finish result => .leave result)
      (State.init args initialUtxos startBlockHeight) answers with
  | .again _ => none
  | .leave result => some result

section Tracking

/-- What one transaction does to the tracked UTXOs. -/
def track (r : UnshieldedReplay) (tx : UnshieldedTxData) : Except WalletError UnshieldedReplay :=
  match applyUnshieldedTx r.utxos tx with
  | .error e => .error (attachTxId tx.txId e)
  | .ok (utxos, confirmed) => .ok {
      utxos := utxos
      lastTxId := tx.txId.elim r.lastTxId (max r.lastTxId)
      lastBlockHeight := tx.blockHeight.elim r.lastBlockHeight (max r.lastBlockHeight)
      spent := r.spent ++ confirmed }

/-- The id that orders the stream. -/
def UnshieldedTxData.streamId (tx : UnshieldedTxData) : ℤ := tx.txId.getD 0

theorem txId_eq (tx : UnshieldedTxData) (h : 1 ≤ tx.streamId) : tx.txId = some tx.streamId := by
  unfold UnshieldedTxData.streamId at h ⊢
  cases hid : tx.txId with
  | none => simp [hid] at h
  | some id => rfl

end Tracking

section Serving

/-- What one connection sends that owes the transactions `owed`, when the
newest has the id `top`. A progress frame announces at least that id. -/
inductive Sends (top : ℤ) : List UnshieldedTxData → List Event → Prop
  | silent : Sends top [] []
  | ended (owed : List UnshieldedTxData) (rest : List Event) : Sends top owed (.ended :: rest)
  | failed (owed : List UnshieldedTxData) (e : IndexerError) (rest : List Event) :
      Sends top owed (.failed e :: rest)
  | progress {owed : List UnshieldedTxData} {events : List Event} (highest : ℤ)
      (h : top ≤ highest) (hrest : Sends top owed events) :
      Sends top owed (.progress highest :: events)
  | transaction {owed : List UnshieldedTxData} {events : List Event} (tx : UnshieldedTxData)
      (hrest : Sends top owed events) : Sends top (tx :: owed) (.transaction tx :: events)

/-- How an indexer with the transactions `es` answers a subscription. -/
inductive Serves (es : List UnshieldedTxData) (n : ℤ) : Attempt → Prop
  | refused (e : IndexerError) : Serves es n (.refused e)
  | serves (events : List Event)
      (h : Sends (lastId UnshieldedTxData.streamId 0 es)
        (startingAt UnshieldedTxData.streamId n es) events) : Serves es n (.serves events)

def Honest (es : List UnshieldedTxData) (answers : List (ℤ → Attempt)) : Prop :=
  ∀ answer ∈ answers, ∀ n, Serves es n (answer n)

/-- An uninterrupted answer. -/
def serveAll (es : List UnshieldedTxData) (n : ℤ) : Attempt :=
  .serves (.progress (lastId UnshieldedTxData.streamId 0 es) ::
    (startingAt UnshieldedTxData.streamId n es).map .transaction)

theorem honest_serveAll (es : List UnshieldedTxData) : Honest es [serveAll es] := by
  intro answer hanswer n
  obtain rfl := List.mem_singleton.mp hanswer
  refine .serves _ (.progress _ (le_refl _) ?_)
  induction startingAt UnshieldedTxData.streamId n es with
  | nil => exact .silent
  | cons tx owed ih => exact .transaction tx ih

end Serving

section Invariant

/-- The loop invariant: what is left of the stream, tracked from here, gives
what the replay is to return. -/
structure Reached (args : Args) (es : List UnshieldedTxData)
    (goal : Except WalletError UnshieldedReplay) (st : State) (done todo : List UnshieldedTxData) :
    Prop where
  split : done ++ todo = es
  cut : Cut UnshieldedTxData.streamId st.lastSeenTxId done todo
  nonneg : 0 ≤ st.lastSeenTxId
  asks : startingAt UnshieldedTxData.streamId (st.resumeTxId args) es = todo
  target : ∀ t, st.targetTxId = some t → lastId UnshieldedTxData.streamId 0 es ≤ t
  rest : todo.foldlM track (st.stopAt st.lastSeenTxId) = goal

def ExitReached (args : Args) (es : List UnshieldedTxData)
    (goal : Except WalletError UnshieldedReplay) : Exit → Prop
  | .reconnect st => ∃ done todo, Reached args es goal st done todo
  | .finish (.ok r) => goal = .ok r
  | .finish (.error _) => True

variable {args : Args} {es : List UnshieldedTxData} {goal : Except WalletError UnshieldedReplay}

theorem Reached.finished {st : State} {done : List UnshieldedTxData}
    (h : Reached args es goal st done []) : goal = .ok (st.stopAt st.lastSeenTxId) := h.rest.symm

theorem Reached.retryOr {st : State} {done todo : List UnshieldedTxData}
    (h : Reached args es goal st done todo) (e : IndexerError) :
    ExitReached args es goal (st.retryOr e) := by
  unfold State.retryOr
  split
  · exact ⟨done, todo, h.split, h.cut, h.nonneg, h.asks, h.target, h.rest⟩
  · trivial

/-- A cursor at an announced id has seen the whole stream. -/
theorem Reached.eq_nil (hasc : Ascending UnshieldedTxData.streamId es) {st : State}
    {done todo : List UnshieldedTxData} (h : Reached args es goal st done todo) (t : ℤ)
    (htop : lastId UnshieldedTxData.streamId 0 es ≤ t) (hseen : t ≤ st.lastSeenTxId) :
    todo = [] := by
  refine h.cut.eq_nil (b := 0) (h.split ▸ hasc) ?_
  rw [h.split]
  exact htop.trans hseen

/-- Applying the next transaction is tracking it, and keeps the invariant. -/
theorem Reached.applied (hasc : Ascending UnshieldedTxData.streamId es)
    (hpos : ∀ tx ∈ es, 1 ≤ tx.streamId) {st : State} {done todo : List UnshieldedTxData}
    {tx : UnshieldedTxData} (h : Reached args es goal st done (tx :: todo))
    {utxos : List TrackedUtxo} {confirmed : List SpentUtxoKey}
    (happly : applyUnshieldedTx st.utxos tx = .ok (utxos, confirmed)) :
    Reached args es goal (st.applied tx utxos confirmed) (done ++ [tx]) todo := by
  have hid : tx.txId = some tx.streamId := txId_eq tx (hpos tx (by rw [← h.split]; simp))
  have hgt := h.cut.gt tx (by simp)
  have hseen : (st.applied tx utxos confirmed).lastSeenTxId = tx.streamId := by
    simp only [State.applied, hid, Option.elim]
    omega
  have hsplit : (done ++ [tx]) ++ todo = es := by simpa using h.split
  have hcut := h.cut.advance (h.split ▸ hasc)
  refine ⟨hsplit, hseen ▸ hcut, ?_, ?_, h.target, ?_⟩
  · rw [hseen]
    exact h.nonneg.trans hgt.le
  · have hresume : (st.applied tx utxos confirmed).resumeTxId args = tx.streamId + 1 := by
      unfold State.resumeTxId
      rw [hseen]
      exact if_pos (Nat.succ_pos _)
    rw [hresume, ← hsplit]
    exact hcut.startingAt_succ
  · rw [← h.rest, List.foldlM_cons]
    simp only [track, State.stopAt, happly, State.applied]
    rfl

theorem onNewTransaction_reached (hasc : Ascending UnshieldedTxData.streamId es)
    (hpos : ∀ tx ∈ es, 1 ≤ tx.streamId) {conn : Conn} {done todo : List UnshieldedTxData}
    {tx : UnshieldedTxData} (h : Reached args es goal conn.st done (tx :: todo)) :
    (onNewTransaction conn tx).Holds
      (fun conn' => ∃ done', Reached args es goal conn'.st done' todo)
      (ExitReached args es goal) := by
  unfold onNewTransaction
  rcases happly : applyUnshieldedTx conn.st.utxos tx with e | ⟨utxos, confirmed⟩
  · exact trivial
  · have hreached := h.applied hasc hpos happly
    simp only [Pass.holds_ite, Option.any_eq_true, decide_eq_true_eq]
    refine ⟨?_, fun _ => ⟨_, hreached⟩⟩
    rintro ⟨t, htarget, hle⟩
    have hnil := hreached.eq_nil hasc t (hreached.target t htarget) hle
    subst hnil
    exact hreached.finished

theorem onTransaction_reached (hasc : Ascending UnshieldedTxData.streamId es)
    (hpos : ∀ tx ∈ es, 1 ≤ tx.streamId) {conn : Conn} {done todo : List UnshieldedTxData}
    {tx : UnshieldedTxData} (h : Reached args es goal conn.st done (tx :: todo)) :
    (onTransaction args conn tx).Holds
      (fun conn' => ∃ done', Reached args es goal conn'.st done' todo)
      (ExitReached args es goal) := by
  have hid : tx.txId = some tx.streamId := txId_eq tx (hpos tx (by rw [← h.split]; simp))
  unfold onTransaction
  simp only [hid]
  cases hreg : orderRegression tx.streamId conn.connHigh with
  | some prev => exact trivial
  | none =>
    have hnew : ¬ alreadyApplied tx.streamId conn.st.lastSeenTxId args.startTxId
        (decide (0 < conn.st.appliedTxs)) = true := by
      simp only [alreadyApplied, Bool.and_eq_true, decide_eq_true_eq, not_and]
      exact fun _ => not_le.mpr (h.cut.gt tx (by simp))
    simp only
    rw [if_neg hnew]
    exact onNewTransaction_reached hasc hpos h

theorem onProgress_reached (hasc : Ascending UnshieldedTxData.streamId es) {conn : Conn}
    {done todo : List UnshieldedTxData}
    (h : Reached args es goal conn.st done todo) (t : ℤ)
    (htop : lastId UnshieldedTxData.streamId 0 es ≤ t) :
    (onProgress conn t).Holds
      (fun conn' => ∃ done', Reached args es goal conn'.st done' todo)
      (ExitReached args es goal) := by
  simp only [onProgress, Pass.holds_ite]
  refine ⟨?_, fun _ => ⟨done, h.split, h.cut, h.nonneg, h.asks, ?_, h.rest⟩⟩
  · intro hdone
    have hle : t ≤ conn.st.lastSeenTxId := by
      rcases hdone with rfl | hle
      · exact h.nonneg
      · exact hle
    have hnil := h.eq_nil hasc t htop hle
    subst hnil
    have hmax : max conn.st.lastSeenTxId t = conn.st.lastSeenTxId := max_eq_left hle
    simp only [Pass.holds_leave, ExitReached, hmax]
    exact h.finished
  · intro t' ht'
    cases ht'
    exact htop

theorem sends_reached (hasc : Ascending UnshieldedTxData.streamId es)
    (hpos : ∀ tx ∈ es, 1 ≤ tx.streamId) {owed : List UnshieldedTxData} {events : List Event}
    (hsends : Sends (lastId UnshieldedTxData.streamId 0 es) owed events) (conn : Conn)
    (h : ∃ done, Reached args es goal conn.st done owed) :
    (loop (onEvent args) conn events).Holds
      (fun conn' => ∃ done, Reached args es goal conn'.st done [])
      (ExitReached args es goal) := by
  induction hsends generalizing conn with
  | silent => exact h
  | ended owed rest =>
    obtain ⟨done, hreached⟩ := h
    exact loop_cons_holds _ _ _ _ _ _ (hreached.retryOr _)
  | failed owed e rest =>
    obtain ⟨done, hreached⟩ := h
    exact loop_cons_holds _ _ _ _ _ _ (hreached.retryOr e)
  | progress highest htop hrest ih =>
    obtain ⟨done, hreached⟩ := h
    exact loop_cons_holds _ _ _ _ _ _
      ((onProgress_reached hasc hreached highest htop).mono ih (fun _ hr => hr))
  | transaction tx hrest ih =>
    obtain ⟨done, hreached⟩ := h
    exact loop_cons_holds _ _ _ _ _ _
      ((onTransaction_reached hasc hpos hreached).mono ih (fun _ hr => hr))

theorem connect_reached (hasc : Ascending UnshieldedTxData.streamId es)
    (hpos : ∀ tx ∈ es, 1 ≤ tx.streamId) (st : State) {done todo : List UnshieldedTxData}
    (h : Reached args es goal st done todo) (a : Attempt)
    (hserves : Serves es (st.resumeTxId args) a) :
    ExitReached args es goal (connect args st a) := by
  cases hserves with
  | refused e => exact h.retryOr e
  | serves events hsends =>
    rw [h.asks] at hsends
    have hloop := sends_reached hasc hpos hsends ⟨st, none⟩ ⟨done, h⟩
    simp only [connect]
    cases hout : loop (onEvent args) ⟨st, none⟩ events with
    | leave exit =>
      rw [hout] at hloop
      exact hloop
    | again conn =>
      rw [hout] at hloop
      obtain ⟨done', hend⟩ := hloop
      change ExitReached args es goal (onSilence args conn)
      unfold onSilence
      split
      · exact hend.finished
      · trivial

end Invariant

section Replays

variable {args : Args} {es done todo : List UnshieldedTxData} {utxos : List TrackedUtxo}
  {height : ℤ}

/-- Where a replay starts: its cursor cuts the stream, and nothing is done when
it starts at the beginning. -/
structure StartsAfter (args : Args) (es done todo : List UnshieldedTxData) : Prop where
  split : done ++ todo = es
  cut : Cut UnshieldedTxData.streamId (lastAppliedBefore args.startTxId) done todo
  counted : done = [] ∨ 0 < args.startTxId

/-- What a replay starts from. -/
def startOf (args : Args) (utxos : List TrackedUtxo) (height : ℤ) : UnshieldedReplay :=
  ⟨utxos, lastAppliedBefore args.startTxId, height, []⟩

theorem StartsAfter.reached (h : StartsAfter args es done todo) :
    Reached args es (todo.foldlM track (startOf args utxos height))
      (State.init args utxos height) done todo := by
  refine ⟨h.split, h.cut, le_max_right _ _, ?_, by simp [State.init], rfl⟩
  have hresume : (State.init args utxos height).resumeTxId args = args.startTxId := rfl
  rw [hresume, ← h.split]
  by_cases hstart : 0 < args.startTxId
  · have hnext : args.startTxId = lastAppliedBefore args.startTxId + 1 := by
      unfold lastAppliedBefore
      omega
    rw [hnext]
    exact h.cut.startingAt_succ
  · have hnil : done = [] := h.counted.resolve_right hstart
    refine (h.cut.startingAt ?_).trans (by rw [hnil]; rfl)
    unfold lastAppliedBefore
    omega

/-- Through whatever interruptions, a replay that returns has tracked what was
to do. -/
theorem replay_tracks (hasc : Ascending UnshieldedTxData.streamId es)
    (hpos : ∀ tx ∈ es, 1 ≤ tx.streamId) (hstart : StartsAfter args es done todo)
    (answers : List (ℤ → Attempt)) (hhonest : Honest es answers) (r : UnshieldedReplay)
    (h : replayUnshieldedEvents args utxos height answers = some (.ok r)) :
    todo.foldlM track (startOf args utxos height) = .ok r := by
  have hloop := loop_holds_of_mem
    (fun st (answer : ℤ → Attempt) =>
      match connect args st (answer (st.resumeTxId args)) with
      | .reconnect st => Pass.again st
      | .finish result => .leave result)
    (fun st => ∃ done' todo', Reached args es
      (todo.foldlM track (startOf args utxos height)) st done' todo')
    (fun result => ExitReached args es (todo.foldlM track (startOf args utxos height))
      (.finish result))
    (State.init args utxos height) answers
    (by
      rintro answer hanswer st ⟨done', todo', hst⟩
      have hexit := connect_reached hasc hpos st hst _
        (hhonest answer hanswer (st.resumeTxId args))
      cases hc : connect args st (answer (st.resumeTxId args)) with
      | reconnect st' =>
        rw [hc] at hexit
        exact hexit
      | finish result =>
        rw [hc] at hexit
        exact hexit)
    ⟨done, todo, hstart.reached⟩
  unfold replayUnshieldedEvents at h
  split at h
  · simp at h
  · rename_i result hout
    rw [hout] at hloop
    obtain rfl := Option.some.inj h
    exact hloop

/-- On an open connection that has announced the newest id, the transactions
that follow decide the result. -/
theorem loop_transactions {goal : Except WalletError UnshieldedReplay}
    (hasc : Ascending UnshieldedTxData.streamId es) (hpos : ∀ tx ∈ es, 1 ≤ tx.streamId) (conn : Conn) (done todo : List UnshieldedTxData)
    (hne : todo ≠ []) (h : Reached args es goal conn.st done todo)
    (htarget : conn.st.targetTxId = some (lastId UnshieldedTxData.streamId 0 es))
    (hhigh : ∀ high, conn.connHigh = some high → high ≤ conn.st.lastSeenTxId) :
    loop (onEvent args) conn (todo.map .transaction) = .leave (.finish goal) := by
  induction todo generalizing conn done with
  | nil => exact absurd rfl hne
  | cons tx todo ih =>
    have hid : tx.txId = some tx.streamId := txId_eq tx (hpos tx (by rw [← h.split]; simp))
    have hgt := h.cut.gt tx (by simp)
    have hreg : orderRegression tx.streamId conn.connHigh = none := by
      refine (orderRegression_eq_none_iff _ _).mpr ?_
      exact fun high hh => (hhigh high hh).trans hgt.le
    have hnew : ¬ alreadyApplied tx.streamId conn.st.lastSeenTxId args.startTxId
        (decide (0 < conn.st.appliedTxs)) = true := by
      simp only [alreadyApplied, Bool.and_eq_true, decide_eq_true_eq, not_and]
      exact fun _ => not_le.mpr hgt
    have hpass : onEvent args conn (.transaction tx) =
        onNewTransaction { conn with connHigh := some tx.streamId } tx := by
      simp only [onEvent, onTransaction, hid, hreg]
      rw [if_neg hnew]
    simp only [List.map_cons, loop, hpass]
    unfold onNewTransaction
    rcases happly : applyUnshieldedTx conn.st.utxos tx with e | ⟨utxos', confirmed⟩
    · have hgoal := h.rest
      simp only [List.foldlM_cons, track, State.stopAt, happly] at hgoal
      exact congrArg (fun g => Pass.leave (Exit.finish g)) hgoal
    · have hreached := h.applied hasc hpos happly
      have hseen : (conn.st.applied tx utxos' confirmed).lastSeenTxId = tx.streamId := by
        simp only [State.applied, hid, Option.elim]
        omega
      have hany : (conn.st.applied tx utxos' confirmed).targetTxId.any
          (fun target => decide (target ≤ (conn.st.applied tx utxos' confirmed).lastSeenTxId)) =
            decide (lastId UnshieldedTxData.streamId 0 es ≤ tx.streamId) := by
        rw [hseen]
        simp only [State.applied, htarget, Option.any_some]
      simp only [hany]
      by_cases hlast : lastId UnshieldedTxData.streamId 0 es ≤ tx.streamId
      · have hnil := hreached.eq_nil hasc _ (le_refl _) (hseen ▸ hlast)
        subst hnil
        rw [if_pos (decide_eq_true hlast), hreached.finished]
      · rw [if_neg (by simpa using hlast)]
        refine ih { conn with st := _, connHigh := _ } (done ++ [tx]) ?_ hreached htarget ?_
        · rintro rfl
          refine hlast (le_of_eq ?_)
          rw [← h.split, lastId_append]
          rfl
        · intro high hh
          cases hh
          exact hseen ▸ le_refl _

/-- Uninterrupted, the replay returns what tracking the stream gives, be it the
result or the error. -/
theorem replay_serveAll (hasc : Ascending UnshieldedTxData.streamId es)
    (hpos : ∀ tx ∈ es, 1 ≤ tx.streamId) (hstart : StartsAfter args es done todo) :
    replayUnshieldedEvents args utxos height [serveAll es] =
      some (todo.foldlM track (startOf args utxos height)) := by
  have h : Reached args es (todo.foldlM track (startOf args utxos height))
      (State.init args utxos height) done todo := hstart.reached
  have hconn : Reached args es (todo.foldlM track (startOf args utxos height))
      (Conn.mk (State.init args utxos height) none).st done todo := h
  have hprogress := onProgress_reached hasc hconn
    (lastId UnshieldedTxData.streamId 0 es) (le_refl _)
  have hconnect : connect args (State.init args utxos height)
      (serveAll es ((State.init args utxos height).resumeTxId args)) =
        .finish (todo.foldlM track (startOf args utxos height)) := by
    unfold serveAll connect
    rw [h.asks]
    simp only [loop, onEvent]
    unfold onProgress at hprogress ⊢
    by_cases hdone : lastId UnshieldedTxData.streamId 0 es = 0 ∨
        lastId UnshieldedTxData.streamId 0 es ≤ (State.init args utxos height).lastSeenTxId
    · -- The frame announces nothing new, so the replay ends with it.
      rw [if_pos hdone] at hprogress ⊢
      exact congrArg Exit.finish (Eq.symm hprogress)
    · have hne : todo ≠ [] := by
        rintro rfl
        refine hdone (Or.inr ?_)
        rw [← h.split, List.append_nil]
        exact lastId_le h.cut.le h.nonneg
      rw [if_neg hdone] at hprogress ⊢
      obtain ⟨done', hreached⟩ := hprogress
      simp only [loop_transactions hasc hpos ⟨_, none⟩ done' todo hne hreached rfl (by simp)]
  unfold replayUnshieldedEvents
  simp only [loop, hconnect]

end Replays

section Moving

/-- Some answer holds the transaction. -/
def Served (answers : List (ℤ → Attempt)) (tx : UnshieldedTxData) : Prop :=
  ∃ answer ∈ answers, ∃ n events, answer n = .serves events ∧ Event.transaction tx ∈ events

/-- A transaction without an id is of a block above `height`. -/
def Above (height : ℤ) (tx : UnshieldedTxData) : Prop :=
  tx.txId = none → ∃ h, tx.blockHeight = some h ∧ height < h

/-- The cursors only go up, and a replay past the beginning whose cursors stand
where they started has changed nothing. -/
structure Unmoved (args : Args) (utxos : List TrackedUtxo) (height lastTxId lastHeight : ℤ)
    (now : List TrackedUtxo) : Prop where
  id_le : lastAppliedBefore args.startTxId ≤ lastTxId
  height_le : height ≤ lastHeight
  same : 0 < args.startTxId → lastTxId = lastAppliedBefore args.startTxId → lastHeight = height →
    now = utxos

def StateUnmoved (args : Args) (utxos : List TrackedUtxo) (height : ℤ) (st : State) : Prop :=
  Unmoved args utxos height st.lastSeenTxId st.lastHeight st.utxos

def ExitUnmoved (args : Args) (utxos : List TrackedUtxo) (height : ℤ) : Exit → Prop
  | .reconnect st => StateUnmoved args utxos height st
  | .finish (.error _) => True
  | .finish (.ok r) => Unmoved args utxos height r.lastTxId r.lastBlockHeight r.utxos

variable {args : Args} {utxos : List TrackedUtxo} {height : ℤ}

theorem StateUnmoved.retryOr {st : State} (h : StateUnmoved args utxos height st)
    (e : IndexerError) : ExitUnmoved args utxos height (st.retryOr e) := by
  unfold State.retryOr
  split
  · exact h
  · trivial

/-- A new transaction moves a cursor. -/
theorem onNewTransaction_unmoved {conn : Conn} (h : StateUnmoved args utxos height conn.st)
    {tx : UnshieldedTxData} (habove : Above height tx)
    (hnew : ∀ id, tx.txId = some id → 0 < args.startTxId → conn.st.lastSeenTxId < id) :
    (onNewTransaction conn tx).Holds (fun conn => StateUnmoved args utxos height conn.st)
      (ExitUnmoved args utxos height) := by
  unfold onNewTransaction
  cases happly : applyUnshieldedTx conn.st.utxos tx with
  | error e => trivial
  | ok out =>
    obtain ⟨now, confirmed⟩ := out
    have hid := h.id_le
    have hheight := h.height_le
    have hmoved : StateUnmoved args utxos height (conn.st.applied tx now confirmed) := by
      unfold StateUnmoved State.applied
      cases htx : tx.txId with
      | some id =>
        refine ⟨?_, ?_, fun hstart hsame => ?_⟩
        · simp only [Option.elim]
          omega
        · cases tx.blockHeight with
          | none => exact hheight
          | some b =>
            simp only [Option.elim]
            omega
        · have hlt := hnew id htx hstart
          simp only [Option.elim] at hsame
          omega
      | none =>
        obtain ⟨b, hb, hlt⟩ := habove htx
        refine ⟨hid, ?_, fun _ _ hsame => ?_⟩
        · simp only [hb, Option.elim]
          omega
        · simp only [hb, Option.elim] at hsame
          omega
    simp only [Pass.holds_ite]
    exact ⟨fun _ => hmoved, fun _ => hmoved⟩

theorem onTransaction_unmoved {conn : Conn} (h : StateUnmoved args utxos height conn.st)
    {tx : UnshieldedTxData} (habove : Above height tx) :
    (onTransaction args conn tx).Holds (fun conn => StateUnmoved args utxos height conn.st)
      (ExitUnmoved args utxos height) := by
  unfold onTransaction
  cases htx : tx.txId with
  | none => exact onNewTransaction_unmoved h habove (fun id hid => by rw [htx] at hid; cases hid)
  | some id =>
    simp only
    cases orderRegression id conn.connHigh with
    | some prev => trivial
    | none =>
      simp only [Pass.holds_ite]
      refine ⟨fun _ => h, fun happlied => ?_⟩
      have hconn : StateUnmoved args utxos height ({ conn with connHigh := some id } : Conn).st := h
      refine onNewTransaction_unmoved hconn habove (fun id' hid' hstart => ?_)
      rw [htx] at hid'
      cases hid'
      unfold alreadyApplied at happlied
      simp only [hstart, decide_true, Bool.or_true, Bool.true_and, decide_eq_true_eq,
        not_le] at happlied
      exact happlied

theorem onProgress_unmoved {conn : Conn} (h : StateUnmoved args utxos height conn.st)
    (target : ℤ) :
    (onProgress conn target).Holds (fun conn => StateUnmoved args utxos height conn.st)
      (ExitUnmoved args utxos height) := by
  have hid := h.id_le
  simp only [onProgress, Pass.holds_ite]
  refine ⟨fun _ => ⟨?_, h.height_le, fun hstart hsame => ?_⟩, fun _ => h⟩
  · simp only [State.stopAt]
    omega
  · simp only [State.stopAt] at hsame
    exact h.same hstart (by omega)

theorem connect_unmoved {st : State} (h : StateUnmoved args utxos height st) (a : Attempt)
    (habove : ∀ events, a = .serves events → ∀ tx, Event.transaction tx ∈ events →
      Above height tx) : ExitUnmoved args utxos height (connect args st a) := by
  cases a with
  | refused e => exact h.retryOr e
  | serves events =>
    have hloop := loop_holds_of_mem (onEvent args)
      (fun conn => StateUnmoved args utxos height conn.st) (ExitUnmoved args utxos height)
      ⟨st, none⟩ events (fun e he conn hconn => by
        cases e with
        | transaction tx => exact onTransaction_unmoved hconn (habove events rfl tx he)
        | progress target => exact onProgress_unmoved hconn target
        | failed e => exact hconn.retryOr e
        | ended => exact hconn.retryOr _) h
    simp only [connect]
    cases hout : loop (onEvent args) ⟨st, none⟩ events with
    | leave exit =>
      rw [hout] at hloop
      exact hloop
    | again conn =>
      rw [hout] at hloop
      simp only [onSilence]
      split
      · exact hloop
      · trivial

/-- Whatever the indexer answers: a replay past the beginning that returns with
the cursors it started from has changed no UTXO, where each transaction without
an id is of a block above the one that the replay started from. -/
theorem replay_unmoved (answers : List (ℤ → Attempt))
    (habove : ∀ tx, Served answers tx → Above height tx) (r : UnshieldedReplay)
    (h : replayUnshieldedEvents args utxos height answers = some (.ok r)) :
    Unmoved args utxos height r.lastTxId r.lastBlockHeight r.utxos := by
  have hinit : StateUnmoved args utxos height (State.init args utxos height) :=
    ⟨le_refl _, le_refl _, fun _ _ _ => rfl⟩
  have hloop := loop_holds_of_mem
    (fun st (answer : ℤ → Attempt) =>
      match connect args st (answer (st.resumeTxId args)) with
      | .reconnect st => Pass.again st
      | .finish result => .leave result)
    (StateUnmoved args utxos height)
    (fun result => ExitUnmoved args utxos height (.finish result))
    (State.init args utxos height) answers (fun answer hanswer st hst => by
      have hconnect := connect_unmoved hst (answer (st.resumeTxId args))
        (fun events hevents tx htx => habove tx ⟨answer, hanswer, _, events, hevents, htx⟩)
      cases hout : connect args st (answer (st.resumeTxId args)) with
      | reconnect st' =>
        rw [hout] at hconnect
        exact hconnect
      | finish result =>
        rw [hout] at hconnect
        exact hconnect) hinit
  unfold replayUnshieldedEvents at h
  split at h
  · cases h
  · rename_i result hout
    rw [hout] at hloop
    cases h
    exact hloop

end Moving

section Forks

/-- The same transaction, as an indexer serves it once a hard fork has emptied
the chain's Dust registrations. -/
def UnshieldedTxData.unregistered (tx : UnshieldedTxData) : UnshieldedTxData :=
  { tx with createdUtxos := tx.createdUtxos.map SubscriptionUtxo.unregistered }

def UnshieldedReplay.unregistered (r : UnshieldedReplay) : UnshieldedReplay :=
  { r with utxos := r.utxos.map TrackedUtxo.unregistered }

theorem mapM_unregistered (utxos : List SubscriptionUtxo) :
    (utxos.map SubscriptionUtxo.unregistered).mapM parseUtxo =
      (utxos.mapM parseUtxo).map (List.map TrackedUtxo.unregistered) := by
  induction utxos with
  | nil => rfl
  | cons u utxos ih =>
    rw [List.map_cons, List.mapM_cons, List.mapM_cons, parseUtxo_unregistered, ih]
    cases parseUtxo u with
    | error e => rfl
    | ok parsed => cases utxos.mapM parseUtxo <;> rfl

/-- Emptying the registrations before or after a transaction is the same. -/
theorem track_unregistered (r : UnshieldedReplay) (tx : UnshieldedTxData) :
    track r.unregistered tx.unregistered = (track r tx).map UnshieldedReplay.unregistered := by
  have htx : tx.unregistered.txId = tx.txId := rfl
  have hheight : tx.unregistered.blockHeight = tx.blockHeight := rfl
  unfold track applyUnshieldedTx
  rw [htx, hheight]
  simp only [UnshieldedTxData.unregistered, UnshieldedReplay.unregistered, mapM_unregistered]
  cases tx.spentUtxos.mapM parseUtxo with
  | error e => rfl
  | ok spent =>
    cases tx.createdUtxos.mapM parseUtxo with
    | error e => rfl
    | ok created =>
      simp only [Except.map, UnshieldedReplay.unregistered, List.map_append, List.filter_map,
        Function.comp_def, TrackedUtxo.spentKey_unregistered]

theorem foldlM_track_unregistered (txs : List UnshieldedTxData) (r : UnshieldedReplay) :
    (txs.map UnshieldedTxData.unregistered).foldlM track r.unregistered =
      (txs.foldlM track r).map UnshieldedReplay.unregistered := by
  induction txs generalizing r with
  | nil => rfl
  | cons tx txs ih =>
    rw [List.map_cons, List.foldlM_cons, List.foldlM_cons, track_unregistered]
    cases track r tx with
    | error e => rfl
    | ok r' => exact ih r'

end Forks

end MidnightRs.Unshielded
