import MidnightRs.UnshieldedReplay
import Mathlib.Algebra.BigOperators.Ring.List

/-!
How often a replay connects. A failed connection spends one of a few retries,
and only new events give them back: an applied event, or a progress frame of
the unshielded stream. Whatever the server re-delivers, a replay that gets
nothing new is given up.
-/
namespace MidnightRs.Replay

open Loops

variable {σ : Type*}

section Budgets

def Exit.state : Exit σ → State σ
  | .reconnect st => st
  | .finish st _ => st

/-- The events that one attempt applies. -/
def appliedIn (args : Args σ) (p : State σ × Attempt) : ℕ :=
  (connect args p.1 p.2).state.count - p.1.count

/-- The attempts that a replay makes. -/
def attemptsMade (args : Args σ) (sink : σ) (attempts : List Attempt) :
    List (State σ × Attempt) :=
  passes (attempt args) (State.init args sink) attempts

def retriesLeft (st : State σ) : ℕ := reconnectMaxRetries - st.retries

/-- What is known of a connection that began in `st₀`. -/
structure Spent (st₀ st : State σ) : Prop where
  count_le : st₀.count ≤ st.count
  retries_le : st.retries ≤ reconnectMaxRetries
  left_le : retriesLeft st ≤ retriesLeft st₀ + reconnectMaxRetries * (st.count - st₀.count)

def ExitSpent (st₀ : State σ) : Exit σ → Prop
  | .reconnect st => Spent st₀ st ∧
      retriesLeft st + 1 ≤ retriesLeft st₀ + reconnectMaxRetries * (st.count - st₀.count)
  | .finish st _ => st₀.count ≤ st.count

variable {args : Args σ} {st₀ : State σ}

theorem Spent.retryOr {st : State σ} (h : Spent st₀ st) (e : IndexerError) :
    ExitSpent st₀ (st.retryOr e) := by
  have hleft := h.left_le
  unfold State.retryOr
  split
  · rename_i hretry
    obtain ⟨-, hlt⟩ := Bool.and_eq_true_iff.mp hretry
    have hlt' := of_decide_eq_true hlt
    unfold retriesLeft at hleft
    refine ⟨⟨h.count_le, ?_, ?_⟩, ?_⟩
    · simp only
      omega
    · unfold retriesLeft
      simp only
      omega
    · unfold retriesLeft
      simp only
      omega
  · exact h.count_le

/-- Only a new event gives the retries back. -/
theorem consume_spent {st : State σ} (h : Spent st₀ st) (msg : LedgerEventMessage) (now : ℕ)
    (alive : Bool) :
    (consume args st msg now alive).Holds (fun conn => Spent st₀ conn.st) (ExitSpent st₀) := by
  have hcount := h.count_le
  have hnew : Spent st₀ { st with
      retries := 0, lastId := msg.id, count := st.count + 1, pacer := (st.pacer.due now).2 } := by
    refine ⟨?_, Nat.zero_le _, ?_⟩
    · simp only
      omega
    · have hmul : reconnectMaxRetries * 1 ≤
          reconnectMaxRetries * (st.count + 1 - st₀.count) :=
        Nat.mul_le_mul_left _ (by omega)
      unfold retriesLeft
      simp only
      omega
  simp only [consume, Pass.holds_ite]
  exact ⟨fun _ => hnew.count_le, fun _ => ⟨fun _ => hnew.count_le, fun _ => hnew⟩⟩

theorem onMessage_spent {conn : Conn σ} (h : Spent st₀ conn.st) (msg : LedgerEventMessage)
    (now : ℕ) (alive : Bool) :
    (onMessage args conn msg now alive).Holds (fun conn => Spent st₀ conn.st)
      (ExitSpent st₀) := by
  have hdelivered : Spent st₀ (conn.st.record (.deliver msg)) :=
    ⟨h.count_le, h.retries_le, h.left_le⟩
  unfold onMessage
  cases orderRegression msg.id conn.connHigh with
  | some prev => exact h.count_le
  | none =>
    simp only [Pass.holds_ite]
    refine ⟨fun _ => h.count_le, fun _ => ⟨fun _ => ⟨fun _ => h.count_le, fun _ => hdelivered⟩,
      fun _ => ?_⟩⟩
    cases eventBytes msg args.stream.kind with
    | error e => exact h.count_le
    | ok raw =>
      simp only
      cases args.tagging.ofTagged raw with
      | error e => exact h.count_le
      | ok v =>
        simp only [Pass.holds_ite]
        refine ⟨fun _ => h.count_le, fun _ => ?_⟩
        unfold handOver
        simp only
        split
        · exact h.count_le
        · refine consume_spent ?_ msg now alive
          exact ⟨h.count_le, h.retries_le, h.left_le⟩

theorem onEvent_spent {conn : Conn σ} (h : Spent st₀ conn.st) (e : Event) :
    (onEvent args conn e).Holds (fun conn => Spent st₀ conn.st) (ExitSpent st₀) := by
  cases e with
  | message msg now alive => exact onMessage_spent h msg now alive
  | failed e => exact h.retryOr e
  | ended =>
    simp only [onEvent, Pass.holds_ite]
    exact ⟨fun _ => h.count_le, fun _ => h.retryOr _⟩

/-- A connection that is left for another one has spent a retry, or applied an
event. -/
theorem connect_spent (h : st₀.retries ≤ reconnectMaxRetries) (a : Attempt) :
    ExitSpent st₀ (connect args st₀ a) := by
  have hstart : Spent st₀ (st₀.record (.subscribe (resumeId st₀.count st₀.lastId))) :=
    ⟨le_refl _, h, Nat.le_add_right _ _⟩
  cases a with
  | refused e => exact hstart.retryOr e
  | serves events =>
    have hloop := loop_holds (onEvent args) (fun conn => Spent st₀ conn.st) (ExitSpent st₀)
      (fun conn e hconn => onEvent_spent hconn e)
      ⟨st₀.record (.subscribe (resumeId st₀.count st₀.lastId)), none⟩ events hstart
    simp only [connect]
    cases hout : loop (onEvent args)
        ⟨st₀.record (.subscribe (resumeId st₀.count st₀.lastId)), none⟩ events with
    | leave exit =>
      rw [hout] at hloop
      exact hloop
    | again conn =>
      rw [hout] at hloop
      unfold onSilence
      simp only
      split
      · exact hloop.count_le
      · exact hloop.count_le

theorem attempt_spent {st st' : State σ} {a : Attempt} (h : st.retries ≤ reconnectMaxRetries)
    (hattempt : attempt args st a = .again st') :
    st'.retries ≤ reconnectMaxRetries ∧
      retriesLeft st' + 1 ≤ retriesLeft st + reconnectMaxRetries * appliedIn args (st, a) := by
  have hspent : ExitSpent st (connect args st a) := connect_spent h a
  unfold attempt at hattempt
  unfold appliedIn
  cases hconnect : connect args st a with
  | reconnect st₁ =>
    rw [hconnect] at hattempt hspent
    cases hattempt
    exact ⟨hspent.1.retries_le, hspent.2⟩
  | finish st₁ result =>
    rw [hconnect] at hattempt
    cases hattempt

theorem count_le_connect {st : State σ} (h : st.retries ≤ reconnectMaxRetries) (a : Attempt) :
    st.count ≤ (connect args st a).state.count := by
  have hspent : ExitSpent st (connect args st a) := connect_spent h a
  cases hconnect : connect args st a with
  | reconnect st' =>
    rw [hconnect] at hspent
    exact hspent.1.count_le
  | finish st' result =>
    rw [hconnect] at hspent
    exact hspent

theorem count_passes (as : List Attempt) (st : State σ) (hst : st.retries ≤ reconnectMaxRetries) :
    st.count + ((passes (attempt args) st as).map (appliedIn args)).sum =
      (match loop (attempt args) st as with
        | .again st => st
        | .leave (st, _) => st).count := by
  induction as generalizing st with
  | nil => rfl
  | cons a as ih =>
    have hle : st.count ≤ (connect args st a).state.count := count_le_connect hst a
    simp only [passes, loop, List.map_cons, List.sum_cons]
    cases hattempt : attempt args st a with
    | again st' =>
      have hrest := ih st' (attempt_spent hst hattempt).1
      have hstate : (connect args st a).state = st' := by
        unfold attempt at hattempt
        cases hconnect : connect args st a with
        | reconnect st₁ =>
          rw [hconnect] at hattempt
          cases hattempt
          rfl
        | finish st₁ result =>
          rw [hconnect] at hattempt
          cases hattempt
      simp only [appliedIn, hstate] at hle ⊢
      rw [← hrest]
      omega
    | leave out =>
      have hstate : (connect args st a).state = out.1 := by
        unfold attempt at hattempt
        cases hconnect : connect args st a with
        | reconnect st₁ =>
          rw [hconnect] at hattempt
          cases hattempt
        | finish st₁ result =>
          rw [hconnect] at hattempt
          cases hattempt
          rfl
      simp only [appliedIn, hstate, List.map_nil, List.sum_nil] at hle ⊢
      omega

/-- What the attempts apply is what the replay counts. -/
theorem sum_appliedIn (sink : σ) (attempts : List Attempt) :
    ((attemptsMade args sink attempts).map (appliedIn args)).sum =
      (replayLedgerEvents args sink attempts).1.count := by
  have h : (State.init args sink).count +
      ((passes (attempt args) (State.init args sink) attempts).map (appliedIn args)).sum = _ :=
    count_passes attempts _ (Nat.zero_le _)
  unfold attemptsMade replayLedgerEvents
  rw [show (State.init args sink).count = 0 from rfl, Nat.zero_add] at h
  rw [h]
  cases loop (attempt args) (State.init args sink) attempts with
  | again st => rfl
  | leave out => rfl

/-- Any attempts in a row are at most what the retries allow and the events
applied in them give back. -/
theorem attemptsMade_le (sink : σ) (attempts : List Attempt)
    {pre mid post : List (State σ × Attempt)}
    (h : attemptsMade args sink attempts = pre ++ mid ++ post) :
    mid.length ≤ reconnectMaxRetries + 1 +
      reconnectMaxRetries * (mid.map (appliedIn args)).sum := by
  have hlength := passes_infix_length_le (attempt args)
    (fun st => st.retries ≤ reconnectMaxRetries) retriesLeft
    (fun p => reconnectMaxRetries * appliedIn args p) reconnectMaxRetries
    (fun st a st' hst hattempt => attempt_spent hst hattempt) (fun st => Nat.sub_le _ _)
    (Nat.zero_le _) h
  rw [List.sum_map_mul_left] at hlength
  omega

end Budgets

end MidnightRs.Replay

namespace MidnightRs.Unshielded

open Loops Replay Utxos

section Budgets

/-- One round of the outer loop. -/
def attempt (args : Args) (st : State) (answer : ℤ → Attempt) :
    Pass State (Except WalletError UnshieldedReplay) :=
  match connect args st (answer (st.resumeTxId args)) with
  | .reconnect st => .again st
  | .finish result => .leave result

/-- The attempts that a replay makes. -/
def attemptsMade (args : Args) (utxos : List TrackedUtxo) (height : ℤ)
    (answers : List (ℤ → Attempt)) : List (State × (ℤ → Attempt)) :=
  passes (attempt args) (State.init args utxos height) answers

/-- Whether an event brings something new: a transaction that is applied, or a
progress frame. -/
def advances (args : Args) (p : Conn × Event) : Bool :=
  match p.2 with
  | .progress _ => true
  | .transaction tx =>
    tx.txId.all (fun id => (orderRegression id p.1.connHigh).isNone &&
      !alreadyApplied id p.1.st.lastSeenTxId args.startTxId (decide (0 < p.1.st.appliedTxs))) &&
    (applyUnshieldedTx p.1.st.utxos tx).isOk
  | .failed _ => false
  | .ended => false

/-- The new transactions and the progress frames that one attempt takes. -/
def advancesIn (args : Args) (p : State × (ℤ → Attempt)) : ℕ :=
  match p.2 (p.1.resumeTxId args) with
  | .refused _ => 0
  | .serves events => (passes (onEvent args) ⟨p.1, none⟩ events).countP (advances args)

def retriesLeft (st : State) : ℕ := reconnectMaxRetries - st.retries

/-- What a connection is left with, for another one. -/
def leftAfter : Exit → ℕ
  | .reconnect st => retriesLeft st + 1
  | .finish _ => 0

variable {args : Args}

theorem retryOr_left (st : State) (e : IndexerError) : leftAfter (st.retryOr e) ≤ retriesLeft st := by
  unfold State.retryOr
  split
  · rename_i hretry
    have hlt := of_decide_eq_true (Bool.and_eq_true_iff.mp hretry).2
    unfold leftAfter retriesLeft
    simp only
    omega
  · exact Nat.zero_le _

/-- What an event gives back of the retries. -/
def gainOf (args : Args) (p : Conn × Event) : ℕ :=
  if advances args p then reconnectMaxRetries else 0

theorem onNewTransaction_left {conn : Conn} (tx : UnshieldedTxData) :
    (onNewTransaction conn tx).Holds
      (fun conn' => (applyUnshieldedTx conn.st.utxos tx).isOk = true ∧ conn'.st.retries = 0)
      (fun exit => leftAfter exit = 0) := by
  unfold onNewTransaction
  cases applyUnshieldedTx conn.st.utxos tx with
  | error e => rfl
  | ok out =>
    simp only [Pass.holds_ite]
    exact ⟨fun _ => rfl, fun _ => ⟨rfl, rfl⟩⟩

theorem onTransaction_left {conn : Conn} (tx : UnshieldedTxData) :
    (onTransaction args conn tx).Holds
      (fun conn' => retriesLeft conn'.st ≤
        retriesLeft conn.st + gainOf args (conn, .transaction tx))
      (fun exit => leftAfter exit = 0) := by
  have hgain : ∀ {conn' : Conn}, (applyUnshieldedTx conn.st.utxos tx).isOk = true ∧
      conn'.st.retries = 0 → advances args (conn, .transaction tx) =
        (applyUnshieldedTx conn.st.utxos tx).isOk → retriesLeft conn'.st ≤
          retriesLeft conn.st + gainOf args (conn, .transaction tx) := by
    rintro conn' ⟨hok, hretries⟩ hadvances
    unfold gainOf retriesLeft
    rw [hadvances, if_pos hok, hretries]
    omega
  unfold onTransaction
  cases htx : tx.txId with
  | none =>
    refine (onNewTransaction_left tx).mono (fun conn' h => hgain h ?_) (fun _ h => h)
    simp only [advances, htx, Option.all_none, Bool.true_and]
  | some id =>
    simp only
    cases hregression : orderRegression id conn.connHigh with
    | some prev => rfl
    | none =>
      simp only [Pass.holds_ite]
      refine ⟨fun _ => Nat.le_add_right _ _, fun hnew => ?_⟩
      refine (onNewTransaction_left tx).mono (fun conn' h => hgain h ?_) (fun _ h => h)
      simp only [advances, htx, Option.all_some, hregression, Option.isNone_none, Bool.true_and,
        Bool.not_eq_true] at hnew ⊢
      rw [hnew]
      rfl

theorem onEvent_left (conn : Conn) (e : Event) :
    (onEvent args conn e).Holds
      (fun conn' => retriesLeft conn'.st ≤ retriesLeft conn.st + gainOf args (conn, e))
      (fun exit => leftAfter exit ≤ retriesLeft conn.st + gainOf args (conn, e)) := by
  cases e with
  | transaction tx =>
    exact (onTransaction_left tx).mono (fun _ h => h) (fun _ h => by omega)
  | progress target =>
    simp only [onEvent, onProgress, Pass.holds_ite]
    refine ⟨fun _ => Nat.zero_le _, fun _ => ?_⟩
    have hgain : gainOf args (conn, .progress target) = reconnectMaxRetries := rfl
    rw [hgain]
    exact (Nat.sub_le _ _).trans (Nat.le_add_left _ _)
  | failed e => exact (retryOr_left conn.st e).trans (Nat.le_add_right _ _)
  | ended => exact (retryOr_left conn.st _).trans (Nat.le_add_right _ _)

theorem sum_gainOf (ps : List (Conn × Event)) :
    (ps.map (gainOf args)).sum = reconnectMaxRetries * ps.countP (advances args) := by
  induction ps with
  | nil => rfl
  | cons p ps ih =>
    rw [List.map_cons, List.sum_cons, List.countP_cons, ih]
    unfold gainOf
    split
    · rw [Nat.mul_add, Nat.add_comm, Nat.mul_one]
    · rw [Nat.zero_add, Nat.add_zero]

theorem attempt_left {st st' : State} {answer : ℤ → Attempt}
    (h : attempt args st answer = .again st') :
    retriesLeft st' + 1 ≤
      retriesLeft st + reconnectMaxRetries * advancesIn args (st, answer) := by
  have hleft : leftAfter (connect args st (answer (st.resumeTxId args))) ≤
      retriesLeft st + reconnectMaxRetries * advancesIn args (st, answer) := by
    unfold advancesIn
    simp only
    cases answer (st.resumeTxId args) with
    | refused e => exact (retryOr_left st e).trans (Nat.le_add_right _ _)
    | serves events =>
      have hloop := loop_gain (onEvent args) (fun conn => retriesLeft conn.st) leftAfter
        (gainOf args) onEvent_left ⟨st, none⟩ events
      rw [sum_gainOf] at hloop
      simp only [connect]
      cases hout : loop (onEvent args) ⟨st, none⟩ events with
      | leave exit =>
        rw [hout] at hloop
        exact hloop
      | again conn =>
        unfold onSilence
        simp only
        split <;> exact Nat.zero_le _
  unfold attempt at h
  cases hconnect : connect args st (answer (st.resumeTxId args)) with
  | reconnect st₁ =>
    rw [hconnect] at h hleft
    cases h
    exact hleft
  | finish result =>
    rw [hconnect] at h
    cases h

theorem attemptsMade_le (utxos : List TrackedUtxo) (height : ℤ) (answers : List (ℤ → Attempt))
    {pre mid post : List (State × (ℤ → Attempt))}
    (h : attemptsMade args utxos height answers = pre ++ mid ++ post) :
    mid.length ≤ reconnectMaxRetries + 1 +
      reconnectMaxRetries * (mid.map (advancesIn args)).sum := by
  have hlength := passes_infix_length_le (attempt args) (fun _ => True) retriesLeft
    (fun p => reconnectMaxRetries * advancesIn args p) reconnectMaxRetries
    (fun st answer st' _ hattempt => ⟨trivial, attempt_left hattempt⟩) (fun st => Nat.sub_le _ _)
    trivial h
  rw [List.sum_map_mul_left] at hlength
  omega

end Budgets

end MidnightRs.Unshielded

namespace MidnightRs

open Replay

/-- Whatever the servers do, a replay connects at most once more than its
retries, and as often again as it has retries for each new event. So a server
that brings nothing new in a row of attempts gets no more than five. -/
theorem reconnects_bounded {σ : Type*} (args : Replay.Args σ) (sink : σ)
    (attempts : List Replay.Attempt) (uargs : Unshielded.Args) (utxos : List Utxos.TrackedUtxo)
    (height : ℤ) (answers : List (ℤ → Unshielded.Attempt)) :
    let made := Replay.attemptsMade args sink attempts
    let umade := Unshielded.attemptsMade uargs utxos height answers
    (made.length ≤ (reconnectMaxRetries + 1) +
        reconnectMaxRetries * (replayLedgerEvents args sink attempts).1.count ∧
      ∀ pre mid post, made = pre ++ mid ++ post → (∀ p ∈ mid, appliedIn args p = 0) →
        mid.length ≤ reconnectMaxRetries + 1) ∧
    umade.length ≤ (reconnectMaxRetries + 1) +
        reconnectMaxRetries * (umade.map (Unshielded.advancesIn uargs)).sum ∧
      ∀ pre mid post, umade = pre ++ mid ++ post →
        (∀ p ∈ mid, Unshielded.advancesIn uargs p = 0) → mid.length ≤ reconnectMaxRetries + 1 := by
  intro made umade
  refine ⟨⟨?_, fun pre mid post hmade hnone => ?_⟩, ?_, fun pre mid post hmade hnone => ?_⟩
  · rw [← sum_appliedIn sink attempts]
    exact attemptsMade_le sink attempts (show made = [] ++ made ++ [] from (List.append_nil _).symm)
  · have hlength := attemptsMade_le sink attempts hmade
    have hzero : (mid.map (appliedIn args)).sum = 0 :=
      List.sum_eq_zero (List.forall_mem_map.mpr hnone)
    rw [hzero] at hlength
    exact hlength
  · exact Unshielded.attemptsMade_le utxos height answers
      (show umade = [] ++ umade ++ [] from (List.append_nil _).symm)
  · have hlength := Unshielded.attemptsMade_le utxos height answers hmade
    have hzero : (mid.map (Unshielded.advancesIn uargs)).sum = 0 :=
      List.sum_eq_zero (List.forall_mem_map.mpr hnone)
    rw [hzero] at hlength
    exact hlength

end MidnightRs
