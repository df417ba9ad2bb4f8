import MidnightRs.Reconnects

/-!
What a replay that completed has seen. The end of a stream is the server's
word: an event at or past its own highest id, a highest id of zero, a progress
frame at or below the cursor. Where these words never take one back, nothing
that was announced is missing.
-/
namespace MidnightRs.Replay

open Loops

variable {σ : Type*}

section Completing

/-- The highest ids that the server reported, newest first. -/
def announced : List Action → List ℤ
  | [] => []
  | .deliver msg :: older => msg.maxId :: announced older
  | .subscribe _ :: older => announced older
  | .handOver _ _ _ :: older => announced older

instance (startId : ℤ) (older : List Action) (msg : LedgerEventMessage) :
    Decidable (Redelivered startId older msg) :=
  inferInstanceAs (Decidable (_ = true))

/-- The events that were delivered, not as a re-delivery, and not handed over. -/
def missed (startId : ℤ) : List Action → List LedgerEventMessage
  | [] => []
  | .subscribe _ :: older => missed startId older
  | .deliver msg :: older =>
    if Redelivered startId older msg then missed startId older else msg :: missed startId older
  | .handOver id _ _ :: older =>
    (missed startId older).filter (fun msg => decide (msg.id ≠ id))

/-- The last message of the current connection. -/
def lastDelivered : List Action → Option LedgerEventMessage
  | [] => none
  | .subscribe _ :: _ => none
  | .deliver msg :: _ => some msg
  | .handOver _ _ _ :: older => lastDelivered older

/-- The last message of the connection completes its stream. -/
def Told (trace : List Action) : Prop :=
  ∃ msg, lastDelivered trace = some msg ∧ (msg.maxId = 0 ∨ msg.maxId ≤ msg.id)

/-- Between two events nothing is missed, and the stream has more to come. -/
structure Underway (args : Args σ) (conn : Conn σ) : Prop where
  missed_eq : missed args.startId conn.st.trace = []
  more : ¬ Told conn.st.trace

/-- What is known where a replay completes, before the announcements are
compared with each other. -/
structure Completes (args : Args σ) (st : State σ) (lastId : ℤ) : Prop where
  last_eq : lastId = st.lastId
  told : Told st.trace → ∀ m, (announced st.trace).head? = some m → m ≤ lastId ∨ m = 0
  untold : ¬ Told st.trace →
    args.resuming = true ∧ st.lastId = lastAppliedBefore args.startId
  missed : ∀ msg ∈ missed args.startId st.trace, (announced st.trace).head? = some 0

def ExitCompletes (args : Args σ) : Exit σ → Prop
  | .reconnect st => missed args.startId st.trace = []
  | .finish st result => ∀ r, result = .ok r → r.laterLedger = none → Completes args st r.lastId

variable {args : Args σ}

theorem exitCompletes_fail (st : State σ) (e : WalletError) : ExitCompletes args (st.fail e) :=
  fun _ hr => by cases hr

theorem Underway.retryOr {conn : Conn σ} (h : Underway args conn) (e : IndexerError) :
    ExitCompletes args (conn.st.retryOr e) := by
  unfold State.retryOr
  split
  · exact h.missed_eq
  · exact exitCompletes_fail _ _

/-- A stream that goes quiet on a resuming replay without an event. -/
theorem Underway.stop {conn : Conn σ} (h : Underway args conn) (hinv : Inv args conn.st)
    (hresume : (args.resuming && decide (conn.st.count = 0)) = true) :
    ExitCompletes args (conn.st.stop none) := by
  intro r hr _
  cases hr
  obtain ⟨hresuming, hcount⟩ := Bool.and_eq_true_iff.mp hresume
  have hids : handedIds conn.st.trace = [] :=
    List.length_eq_zero_iff.mp (hinv.count_eq.symm.trans (of_decide_eq_true hcount))
  have hstart : conn.st.lastId = lastAppliedBefore args.startId := by
    rw [hinv.last_eq, cursor, hids]
    rfl
  refine ⟨rfl, fun htold => absurd htold h.more, fun _ => ⟨hresuming, hstart⟩, ?_⟩
  intro msg hmsg
  rw [h.missed_eq] at hmsg
  exact absurd hmsg List.not_mem_nil

/-- A message that completes the stream, where it is the newest announcement. -/
theorem completes_told (st : State σ) (msg : LedgerEventMessage)
    (hlast : lastDelivered st.trace = some msg)
    (hhead : (announced st.trace).head? = some msg.maxId)
    (hdone : msg.maxId ≤ msg.id) (hid : msg.id ≤ st.lastId)
    (hmissed : missed args.startId st.trace = []) : Completes args st st.lastId := by
  refine ⟨rfl, ?_, ?_, ?_⟩
  · intro _ m hm
    rw [hhead] at hm
    obtain rfl := Option.some.inj hm
    exact Or.inl (hdone.trans hid)
  · intro huntold
    exact absurd ⟨msg, hlast, Or.inr hdone⟩ huntold
  · intro msg' hmsg'
    rw [hmissed] at hmsg'
    exact absurd hmsg' List.not_mem_nil

theorem consume_completes (st : State σ) (msg : LedgerEventMessage) (now : ℕ) (alive : Bool)
    (hlast : lastDelivered st.trace = some msg)
    (hhead : (announced st.trace).head? = some msg.maxId) (hzero : msg.maxId ≠ 0)
    (hmissed : missed args.startId st.trace = []) :
    (consume args st msg now alive).Holds (Underway args) (ExitCompletes args) := by
  simp only [consume, Pass.holds_ite]
  refine ⟨fun _ => exitCompletes_fail _ _, fun _ => ⟨fun hdone => ?_, fun hmore => ?_⟩⟩
  · intro r hr _
    cases hr
    exact completes_told _ msg hlast hhead hdone (le_refl _) hmissed
  · refine ⟨hmissed, ?_⟩
    rintro ⟨msg', hmsg', htold⟩
    change lastDelivered st.trace = some msg' at hmsg'
    rw [hlast] at hmsg'
    obtain rfl := Option.some.inj hmsg'
    exact htold.elim hzero hmore

theorem handOver_completes (st : State σ) (msg : LedgerEventMessage) (raw : Bytes)
    (v : LedgerVersion) (now : ℕ) (alive : Bool)
    (hlast : lastDelivered st.trace = some msg)
    (hhead : (announced st.trace).head? = some msg.maxId) (hzero : msg.maxId ≠ 0)
    (hmissed : missed args.startId st.trace = [msg]) :
    (handOver args st msg raw v now alive).Holds (Underway args) (ExitCompletes args) := by
  unfold handOver
  cases hout : (args.apply st.sink msg.id raw v).2 with
  | error e =>
    simp only [hout]
    exact exitCompletes_fail _ _
  | ok u =>
    simp only [hout]
    refine consume_completes _ msg now alive hlast hhead hzero ?_
    change (missed args.startId st.trace).filter (fun m => decide (m.id ≠ msg.id)) = []
    rw [hmissed]
    exact List.filter_eq_nil_iff.mpr (by simp)

theorem onMessage_completes {conn : Conn σ} (hinv : ConnInv args conn) (h : Underway args conn)
    (msg : LedgerEventMessage) (now : ℕ) (alive : Bool) :
    (onMessage args conn msg now alive).Holds (Underway args) (ExitCompletes args) := by
  have hredelivered := redelivered_iff args conn.st hinv.inv msg
  unfold onMessage
  cases orderRegression msg.id conn.connHigh with
  | some prev => exact exitCompletes_fail _ _
  | none =>
    simp only [Pass.holds_ite]
    refine ⟨fun hzero => ?_, fun hzero => ⟨fun hdup => ?_, fun hnew => ?_⟩⟩
    · -- No announcement is larger than zero, so the event is one that the start has.
      intro r hr _
      cases hr
      refine ⟨rfl, ?_, ?_, ?_⟩
      · intro _ m hm
        obtain rfl := Option.some.inj hm
        exact Or.inr hzero
      · intro huntold
        exact absurd ⟨msg, rfl, Or.inl hzero⟩ huntold
      · intro _ _
        exact congrArg some hzero
    · have hmissed : missed args.startId (.deliver msg :: conn.st.trace) = [] := by
        simp only [missed]
        rw [if_pos (hredelivered.mpr hdup)]
        exact h.missed_eq
      refine ⟨fun hdone => ?_, fun hmore => ⟨hmissed, ?_⟩⟩
      · intro r hr _
        cases hr
        have hle : msg.id ≤ conn.st.lastId :=
          of_decide_eq_true (Bool.and_eq_true_iff.mp hdup).2
        exact completes_told (conn.st.record (.deliver msg)) msg rfl rfl hdone hle hmissed
      · rintro ⟨msg', hmsg', htold⟩
        obtain rfl := Option.some.inj hmsg'
        exact htold.elim hzero hmore
    · have hmissed : missed args.startId (.deliver msg :: conn.st.trace) = [msg] := by
        simp only [missed]
        rw [if_neg (fun hre => hnew (hredelivered.mp hre)), h.missed_eq]
      cases eventBytes msg args.stream.kind with
      | error e => exact exitCompletes_fail _ _
      | ok raw =>
        simp only
        cases args.tagging.ofTagged raw with
        | error e => exact exitCompletes_fail _ _
        | ok v =>
          simp only [Pass.holds_ite]
          refine ⟨fun _ r hr hnone => ?_, fun _ => ?_⟩
          · cases hr
            cases hnone
          · exact handOver_completes _ msg raw v now alive rfl rfl hzero hmissed

theorem onEvent_completes {conn : Conn σ} (hinv : ConnInv args conn) (h : Underway args conn)
    (e : Event) : (onEvent args conn e).Holds (Underway args) (ExitCompletes args) := by
  cases e with
  | message msg now alive => exact onMessage_completes hinv h msg now alive
  | failed e => exact h.retryOr e
  | ended =>
    simp only [onEvent, Pass.holds_ite]
    exact ⟨fun hresume => h.stop hinv.inv hresume, fun _ => h.retryOr _⟩

theorem connect_completes {st : State σ} (hinv : Inv args st)
    (h : missed args.startId st.trace = []) (a : Attempt) : ExitCompletes args (connect args st a) := by
  have hstart : Underway args ⟨st.record (.subscribe (resumeId st.count st.lastId)), none⟩ := by
    refine ⟨h, ?_⟩
    rintro ⟨msg, hmsg, -⟩
    cases hmsg
  cases a with
  | refused e => exact hstart.retryOr e
  | serves events =>
    have hloop := loop_holds (onEvent args) (fun conn => ConnInv args conn ∧ Underway args conn)
      (ExitCompletes args) (fun conn e hconn => ?_)
      ⟨st.record (.subscribe (resumeId st.count st.lastId)), none⟩ events
      ⟨⟨hinv.subscribe args st _, rfl⟩, hstart⟩
    · simp only [connect]
      cases hout : loop (onEvent args)
          ⟨st.record (.subscribe (resumeId st.count st.lastId)), none⟩ events with
      | leave exit =>
        rw [hout] at hloop
        exact hloop
      | again conn =>
        rw [hout] at hloop
        unfold onSilence
        simp only
        split
        · rename_i hresume
          exact hloop.2.stop hloop.1.inv hresume
        · exact exitCompletes_fail _ _
    · have hboth := (onEvent_holds args conn e hconn.1).and (onEvent_completes hconn.1 hconn.2 e)
      exact hboth.mono (fun _ h => h) (fun _ h => h.2)

/-- Every completion without a later generation. -/
theorem replay_completes {sink : σ} {attempts : List Attempt} {st : State σ} {r : LedgerReplay}
    (h : replayLedgerEvents args sink attempts = (st, some (.ok r)))
    (hnone : r.laterLedger = none) : Completes args st r.lastId := by
  have hloop := loop_holds (attempt args)
    (fun st => Inv args st ∧ missed args.startId st.trace = [])
    (fun out => ∀ r, out.2 = .ok r → r.laterLedger = none → Completes args out.1 r.lastId)
    (fun st a hst => ?_) (State.init args sink) attempts ⟨Inv.init args sink, rfl⟩
  · unfold replayLedgerEvents at h
    cases hout : loop (attempt args) (State.init args sink) attempts with
    | again st' =>
      rw [hout] at h
      cases h
    | leave out =>
      obtain ⟨st', result⟩ := out
      rw [hout] at h hloop
      cases h
      exact hloop r rfl hnone
  · have hinv := connect_holds args st hst.1 a
    have hcompletes := connect_completes hst.1 hst.2 a
    unfold attempt
    cases hconnect : connect args st a with
    | reconnect st' =>
      rw [hconnect] at hinv hcompletes
      exact ⟨hinv, hcompletes⟩
    | finish st' result =>
      rw [hconnect] at hcompletes
      exact hcompletes

end Completing

end MidnightRs.Replay

namespace MidnightRs.Unshielded

open Loops Replay Utxos

section Completing

/-- The transaction ids that progress frames announce, newest first. -/
def announce (ids : List ℤ) : Event → List ℤ
  | .progress target => target :: ids
  | .transaction _ => ids
  | .failed _ => ids
  | .ended => ids

def announcedIn (args : Args) (ids : List ℤ) (p : State × (ℤ → Attempt)) : List ℤ :=
  match p.2 (p.1.resumeTxId args) with
  | .refused _ => ids
  | .serves events =>
    (passes (onEvent args) ⟨p.1, none⟩ events).foldl (fun ids q => announce ids q.2) ids

/-- The transaction ids that a replay is told of, newest first. -/
def announced (args : Args) (utxos : List TrackedUtxo) (height : ℤ)
    (answers : List (ℤ → Attempt)) : List ℤ :=
  (attemptsMade args utxos height answers).foldl (announcedIn args) []

/-- The connection falls silent. -/
def Silent (args : Args) (p : State × (ℤ → Attempt)) : Prop :=
  ∃ events conn, p.2 (p.1.resumeTxId args) = .serves events ∧
    loop (onEvent args) ⟨p.1, none⟩ events = .again conn

/-- The target is the newest announcement. -/
def Targets (ids : List ℤ) (conn : Conn) : Prop := conn.st.targetTxId = ids.head?

/-- A replay that completes has reached the newest announcement. -/
def Reaches (ids : List ℤ) (result : Except WalletError UnshieldedReplay) : Prop :=
  ∀ r target, result = .ok r → ids.head? = some target → target ≤ r.lastTxId

def ExitReaches (ids : List ℤ) : Exit → Prop
  | .reconnect st => st.targetTxId = ids.head?
  | .finish result => Reaches ids result

variable {args : Args} {ids : List ℤ}

theorem reaches_error (e : WalletError) : Reaches ids (.error e) := fun _ _ hr => by cases hr

theorem Targets.retryOr {conn : Conn} (h : Targets ids conn) (e : IndexerError) :
    ExitReaches ids (conn.st.retryOr e) := by
  unfold State.retryOr
  split
  · exact h
  · exact reaches_error _

theorem onNewTransaction_reaches {conn : Conn} (h : Targets ids conn) (tx : UnshieldedTxData) :
    (onNewTransaction conn tx).Holds (Targets ids) (ExitReaches ids) := by
  unfold onNewTransaction
  cases applyUnshieldedTx conn.st.utxos tx with
  | error e => exact reaches_error _
  | ok out =>
    simp only [Pass.holds_ite]
    refine ⟨fun hreached => ?_, fun _ => h⟩
    intro r target hr htarget
    cases hr
    change conn.st.targetTxId.any _ = true at hreached
    rw [h, htarget] at hreached
    exact of_decide_eq_true hreached

theorem onEvent_reaches {conn : Conn} (h : Targets ids conn) (e : Event) :
    (onEvent args conn e).Holds (Targets (announce ids e)) (ExitReaches (announce ids e)) := by
  cases e with
  | transaction tx =>
    simp only [onEvent, onTransaction]
    cases tx.txId with
    | none => exact onNewTransaction_reaches h tx
    | some id =>
      simp only
      cases orderRegression id conn.connHigh with
      | some prev => exact reaches_error _
      | none =>
        simp only [Pass.holds_ite]
        refine ⟨fun _ => h, fun _ => ?_⟩
        have hconn : Targets ids { conn with connHigh := some id } := h
        exact onNewTransaction_reaches hconn tx
  | progress target =>
    simp only [onEvent, onProgress, Pass.holds_ite]
    refine ⟨fun _ => ?_, fun _ => rfl⟩
    intro r target' hr htarget
    cases hr
    obtain rfl := Option.some.inj htarget
    exact le_max_right _ _
  | failed e => exact h.retryOr e
  | ended => exact h.retryOr _

theorem attempt_reaches {p : State × (ℤ → Attempt)} (h : p.1.targetTxId = ids.head?)
    (hsilent : args.resuming = true → ¬ Silent args p) :
    (attempt args p.1 p.2).Holds (fun st => st.targetTxId = (announcedIn args ids p).head?)
      (Reaches (announcedIn args ids p)) := by
  have hexit : ExitReaches (announcedIn args ids p)
      (connect args p.1 (p.2 (p.1.resumeTxId args))) := by
    unfold announcedIn
    cases hanswer : p.2 (p.1.resumeTxId args) with
    | refused e =>
      have htargets : Targets ids ⟨p.1, none⟩ := h
      exact htargets.retryOr e
    | serves events =>
      have hloop := loop_ghost (onEvent args) (fun ids q => announce ids q.2) Targets ExitReaches
        ids ⟨p.1, none⟩ events (fun q _ ids hq => onEvent_reaches hq q.2) h
      simp only [connect]
      cases hout : loop (onEvent args) ⟨p.1, none⟩ events with
      | leave exit =>
        rw [hout] at hloop
        exact hloop
      | again conn =>
        unfold onSilence
        simp only
        split
        · rename_i hresuming
          exact absurd ⟨events, conn, hanswer, hout⟩ (hsilent hresuming)
        · exact reaches_error _
  unfold attempt
  cases hconnect : connect args p.1 (p.2 (p.1.resumeTxId args)) with
  | reconnect st =>
    rw [hconnect] at hexit
    exact hexit
  | finish result =>
    rw [hconnect] at hexit
    exact hexit

theorem replay_reaches {utxos : List TrackedUtxo} {height : ℤ} {answers : List (ℤ → Attempt)}
    {r : UnshieldedReplay} (h : replayUnshieldedEvents args utxos height answers = some (.ok r))
    (hsilent : args.resuming = true → ∀ p ∈ attemptsMade args utxos height answers,
      ¬ Silent args p) : Reaches (announced args utxos height answers) (.ok r) := by
  have hloop := loop_ghost (attempt args) (announcedIn args)
    (fun ids st => st.targetTxId = ids.head?) Reaches [] (State.init args utxos height) answers
    (fun p hp ids hids => attempt_reaches hids (fun hresuming => hsilent hresuming p hp)) rfl
  unfold replayUnshieldedEvents at h
  split at h
  · cases h
  · rename_i result hout
    have hleave : loop (attempt args) (State.init args utxos height) answers = .leave result := hout
    rw [hleave] at hloop
    cases h
    exact hloop

end Completing

end MidnightRs.Unshielded

namespace MidnightRs

open Replay

theorem le_newest {ids : List ℤ} (h : ids.Pairwise (· ≥ ·)) {id : ℤ} (hid : id ∈ ids) :
    ∃ newest, ids.head? = some newest ∧ id ≤ newest := by
  cases ids with
  | nil => exact absurd hid List.not_mem_nil
  | cons newest older =>
    refine ⟨newest, rfl, ?_⟩
    rcases List.mem_cons.mp hid with rfl | hid
    · exact le_refl _
    · exact (List.pairwise_cons.mp h).1 id hid

/-- A server that never takes an announcement back has sent a replay that
completes everything it announced. The ledger streams end with a message that
completes them, or on a resuming replay before its first event. -/
theorem completed_replays {σ : Type*} (args : Replay.Args σ) (sink : σ)
    (attempts : List Replay.Attempt) (uargs : Unshielded.Args) (utxos : List Utxos.TrackedUtxo)
    (height : ℤ) (answers : List (ℤ → Unshielded.Attempt)) :
    (∀ st r, replayLedgerEvents args sink attempts = (st, some (.ok r)) → r.laterLedger = none →
      (announced st.trace).Pairwise (· ≥ ·) →
      (∀ msg ∈ missed args.startId st.trace, ∀ m ∈ announced st.trace, msg.id ≤ m →
        msg.id ≤ lastAppliedBefore args.startId) ∧
      (Told st.trace → ∀ m ∈ announced st.trace,
        m ≤ r.lastId ∨ m ≤ lastAppliedBefore args.startId) ∧
      (¬ Told st.trace → args.resuming = true ∧ r.lastId = lastAppliedBefore args.startId)) ∧
    ∀ r, Unshielded.replayUnshieldedEvents uargs utxos height answers = some (.ok r) →
      (Unshielded.announced uargs utxos height answers).Pairwise (· ≥ ·) →
      (uargs.resuming = true → ∀ p ∈ Unshielded.attemptsMade uargs utxos height answers,
        ¬ Unshielded.Silent uargs p) →
      ∀ id ∈ Unshielded.announced uargs utxos height answers, id ≤ r.lastTxId := by
  refine ⟨fun st r hrun hnone hrising => ?_, fun r hrun hrising hsilent id hid => ?_⟩
  · have hcompletes := replay_completes hrun hnone
    have hzero : (0 : ℤ) ≤ lastAppliedBefore args.startId := le_max_right _ _
    refine ⟨fun msg hmsg m hm hle => ?_, fun htold m hm => ?_, fun huntold => ?_⟩
    · obtain ⟨newest, hhead, hnewest⟩ := le_newest hrising hm
      rw [hcompletes.missed msg hmsg] at hhead
      obtain rfl := Option.some.inj hhead
      exact (hle.trans hnewest).trans hzero
    · obtain ⟨newest, hhead, hnewest⟩ := le_newest hrising hm
      rcases hcompletes.told htold newest hhead with hle | rfl
      · exact Or.inl (hnewest.trans hle)
      · exact Or.inr (hnewest.trans hzero)
    · rw [hcompletes.last_eq]
      exact hcompletes.untold huntold
  · obtain ⟨newest, hhead, hnewest⟩ := le_newest hrising hid
    exact hnewest.trans (Unshielded.replay_reaches hrun hsilent r newest rfl hhead)

section Short

/-- A fresh replay whose events carry their generation's number as the tag. -/
def freshArgs : Replay.Args Unit where
  tagging := ⟨fun bytes => .ok (String.ofList (bytes.map (fun b => Char.ofNat b.toNat))), "8", "9"⟩
  stream := .zswap
  ledger := .V8
  startId := 0
  resuming := false
  apply := fun s _ _ _ => (s, .ok ())

/-- A chain of two events. -/
def twoEvents : List Replay.Attempt :=
  [.serves [.message ⟨1, "38", 2⟩ 0 true, .message ⟨2, "38", 2⟩ 0 true]]

/-- A chain with one transaction of the address. -/
def oneTransaction : List (ℤ → Unshielded.Attempt) :=
  [fun _ => .serves [.progress 1, .transaction ⟨some ⟨some 1, none⟩, [], []⟩]]

theorem completed_replays_short :
    (∀ m ∈ announced (replayLedgerEvents freshArgs () twoEvents).1.trace, m ≤ 2 ∨ m ≤ 0) ∧
      ∀ id ∈ Unshielded.announced ⟨0, false⟩ [] 0 oneTransaction, id ≤ 1 := by
  have hledger : (replayLedgerEvents freshArgs () twoEvents).2 = some (.ok ⟨2, none⟩) := by
    decide +kernel
  have htrace : (replayLedgerEvents freshArgs () twoEvents).1.trace =
      [.handOver 2 [56] .V8, .deliver ⟨2, "38", 2⟩, .handOver 1 [56] .V8,
        .deliver ⟨1, "38", 2⟩, .subscribe 0] := by decide +kernel
  have hunshielded : Unshielded.replayUnshieldedEvents ⟨0, false⟩ [] 0 oneTransaction =
      some (.ok ⟨[], 1, 0, []⟩) := by decide +kernel
  have hids : Unshielded.announced ⟨0, false⟩ [] 0 oneTransaction = [1] := by decide +kernel
  have hcompleted := completed_replays freshArgs () twoEvents ⟨0, false⟩ [] 0 oneTransaction
  have htold : Told (replayLedgerEvents freshArgs () twoEvents).1.trace := by
    rw [htrace]
    exact ⟨⟨2, "38", 2⟩, rfl, Or.inr (le_refl _)⟩
  have hrising : (announced (replayLedgerEvents freshArgs () twoEvents).1.trace).Pairwise
      (· ≥ ·) := by
    rw [htrace]
    decide
  exact ⟨(hcompleted.1 _ _ (Prod.ext rfl hledger) rfl hrising).2.1 htold,
    hcompleted.2 _ hunshielded (by rw [hids]; decide) (fun hresuming => by cases hresuming)⟩

/-- After the first of five events the server says that there are none. -/
def fiveThenNone : List Replay.Attempt :=
  [.serves [.message ⟨1, "38", 5⟩ 0 true, .message ⟨2, "38", 0⟩ 0 true]]

/-- After a target of five the server says that there are no transactions. -/
def targetThenNone : List (ℤ → Unshielded.Attempt) :=
  [fun _ => .serves [.progress 5, .progress 0]]

/-- An announcement that is taken back is not waited for. -/
theorem taken_back_not_completed :
    ¬ (∀ (args : Replay.Args Unit) (attempts : List Replay.Attempt) (r : LedgerReplay),
        (replayLedgerEvents args () attempts).2 = some (.ok r) → r.laterLedger = none →
        ∀ m ∈ announced (replayLedgerEvents args () attempts).1.trace,
          m ≤ r.lastId ∨ m ≤ lastAppliedBefore args.startId) ∧
      ¬ ∀ (args : Unshielded.Args) (utxos : List Utxos.TrackedUtxo) (height : ℤ)
        (answers : List (ℤ → Unshielded.Attempt)) (r : Unshielded.UnshieldedReplay),
        Unshielded.replayUnshieldedEvents args utxos height answers = some (.ok r) →
        ∀ id ∈ Unshielded.announced args utxos height answers, id ≤ r.lastTxId := by
  refine ⟨fun hall => ?_, fun hall => ?_⟩
  · have hrun : (replayLedgerEvents freshArgs () fiveThenNone).2 = some (.ok ⟨1, none⟩) := by
      decide +kernel
    have hfive : (5 : ℤ) ∈ announced (replayLedgerEvents freshArgs () fiveThenNone).1.trace := by
      decide +kernel
    exact absurd (hall freshArgs fiveThenNone _ hrun rfl 5 hfive) (by decide)
  · have hrun : Unshielded.replayUnshieldedEvents ⟨0, false⟩ [] 0 targetThenNone =
        some (.ok ⟨[], 0, 0, []⟩) := by decide +kernel
    have hfive : (5 : ℤ) ∈ Unshielded.announced ⟨0, false⟩ [] 0 targetThenNone := by
      decide +kernel
    exact absurd (hall _ _ _ _ _ hrun 5 hfive) (by decide)

end Short

end MidnightRs
