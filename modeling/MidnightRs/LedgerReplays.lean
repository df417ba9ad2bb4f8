import MidnightRs.LedgerStreams
import MidnightRs.Storage
import MidnightRs.Reservations

/-!
What the shielded and the Dust replay do with the events that the stream hands
over. Both hold events back and give the ledger a thousand at a time, and the
Dust replay saves a checkpoint now and then. At any point the states they hold,
with the waiting events applied, are what the events give one by one.
-/
namespace MidnightRs.LedgerReplays

open Streams Replay Reservations

/-- What the wallet's own checks read of the ledger parameters. -/
structure ParameterFields where
  globalTtl : ℤ
  dustGracePeriod : ℤ
  nightDustRatio : ℕ
  generationDecayRate : ℕ
  overallPrice : ℤ
  /-- How the price prints. -/
  overallPriceText : String
deriving DecidableEq, Repr

structure CoinInfo where
  nonce : Bytes
  tokenType : Bytes
  value : ℕ
deriving DecidableEq, Repr

abbrev Commitment := Bytes

/-- What one wallet takes from the ledger crates of each generation: their
states, events and parameters, and what they do with them under its keys. -/
structure Ledgers (Z D E P : LedgerVersion → Type) where
  events : Tagging
  decodeEvent : ∀ v, Bytes → Except String (E v)
  blockTime : ∀ v, E v → Option Timestamp
  spendNullifier : ∀ v, E v → Option DustNullifier
  newZswap : ∀ v, Z v
  replayZswap : ∀ v, Z v → List (E v) → Except String (Z v)
  /-- The commitment of a coin that the wallet owns. -/
  commitment : LedgerVersion → CoinInfo → Commitment
  watchFor : ∀ v, Z v → CoinInfo → Z v
  /-- The coins that the state registers, by their commitments. -/
  pendingOutputs : ∀ v, Z v → List (Commitment × CoinInfo)
  removePendingOutput : ∀ v, Z v → Commitment → Z v
  /-- The coins that the state holds, by their nullifiers. -/
  coins : ∀ v, Z v → List (Nullifier × CoinInfo)
  /-- The shielded state across the fork. -/
  oldToNew : Z .V8 → Except String (Z .V9)
  newDust : ∀ v, P v → D v
  replayDust : ∀ v, D v → List (E v) → Except String (D v)
  parameters : Tagging
  decodeParameters : ∀ v, Bytes → Except String (P v)
  parameterFields : ∀ v, P v → ParameterFields

variable {Z D E P : LedgerVersion → Type}

/-- A ledger replays a batch as its events one after the other. -/
structure Ledgers.Lawful (L : Ledgers Z D E P) : Prop where
  zswap : ∀ v, LeftFold (L.replayZswap v)
  dust : ∀ v, LeftFold (L.replayDust v)

/-- The decoder of an event of the generation `v`. -/
def Ledgers.decode (L : Ledgers Z D E P) (v : LedgerVersion) (raw : Bytes) (kind : String) :
    Except WalletError (E v) :=
  match L.decodeEvent v raw with
  | .error e => .error (.sync s!"deserialize {kind} event: {e}")
  | .ok ev => .ok ev

/-- Events handed to the ledger per call. What a replay gives does not depend on
it, so the replays take the size of a batch as an argument. -/
def replayBatch : ℕ := 1000

/-- Decoded events that wait for one call, with the indexer ids they span. -/
structure ReplayBatch (Ev : Type) where
  events : List Ev
  firstId : ℤ
  lastId : ℤ

namespace ReplayBatch

variable {Ev S : Type}

def new : ReplayBatch Ev := ⟨[], 0, 0⟩

def push (b : ReplayBatch Ev) (id : ℤ) (event : Ev) : ReplayBatch Ev where
  events := b.events ++ [event]
  firstId := if b.events.isEmpty then id else b.firstId
  lastId := id

def isFull (b : ReplayBatch Ev) (size : ℕ) : Bool := decide (size ≤ b.events.length)

/-- The state with the waiting events applied, and the batch emptied. -/
def apply (b : ReplayBatch Ev) (call : String) (replay : S → List Ev → Except String S)
    (state : S) : Except WalletError (S × ReplayBatch Ev) :=
  if b.events.isEmpty then .ok (state, b)
  else
    match replay state b.events with
    | .error e => .error (.sync s!"{call} events id={b.firstId}..={b.lastId}: {e}")
    | .ok state => .ok (state, { b with events := [] })

def applyDust (L : Ledgers Z D E P) (v : LedgerVersion) (b : ReplayBatch (E v)) (wallet : D v) :
    Except WalletError (D v × ReplayBatch (E v)) :=
  b.apply "apply dust" (L.replayDust v) wallet

def applyZswap (L : Ledgers Z D E P) (v : LedgerVersion) (b : ReplayBatch (E v)) (state : Z v) :
    Except WalletError (Z v × ReplayBatch (E v)) :=
  b.apply "replay zswap" (L.replayZswap v) state

theorem apply_agree (b : ReplayBatch Ev) (call : String)
    {replay : S → List Ev → Except String S} (hfold : LeftFold replay) (state : S) :
    Agree (b.apply call replay state >>= fun out => .ok out.1) (replay state b.events) := by
  unfold apply
  cases hempty : b.events with
  | nil =>
    rw [hfold.nil]
    exact .of_ok _
  | cons ev evs =>
    simp only [List.isEmpty_cons, Bool.false_eq_true, if_false]
    cases replay state (ev :: evs) with
    | error e => exact .of_error _ _
    | ok s => exact .of_ok _

theorem apply_events {b b' : ReplayBatch Ev} {call : String}
    {replay : S → List Ev → Except String S} {state state' : S}
    (h : b.apply call replay state = .ok (state', b')) : b'.events = [] := by
  unfold apply at h
  split at h
  · rename_i hempty
    cases h
    exact List.isEmpty_iff.mp hempty
  · split at h
    · cases h
    · cases h
      rfl

theorem apply_of_empty {b : ReplayBatch Ev} (h : b.events = []) (call : String)
    (replay : S → List Ev → Except String S) (state : S) :
    b.apply call replay state = .ok (state, b) := by
  unfold apply
  rw [h]
  rfl

/-- An event held back is an event replayed. -/
theorem push_ok_iff (b : ReplayBatch Ev) (id : ℤ) (event : Ev) (call : String)
    {replay : S → List Ev → Except String S} (hfold : LeftFold replay) (state after : S) :
    ((b.push id event).apply call replay state >>= fun out => .ok out.1) = .ok after ↔
      ∃ before, (b.apply call replay state >>= fun out => .ok out.1) = .ok before ∧
        replay before [event] = .ok after := by
  have hpush : (b.push id event).events = b.events ++ [event] := rfl
  rw [(b.push id event).apply_agree call hfold state after, hpush, hfold.append, bind_eq_ok]
  constructor
  · rintro ⟨before, hbefore, hafter⟩
    exact ⟨before, (b.apply_agree call hfold state before).mpr hbefore, hafter⟩
  · rintro ⟨before, hbefore, hafter⟩
    exact ⟨before, (b.apply_agree call hfold state before).mp hbefore, hafter⟩

/-- Settling an emptied batch changes nothing. -/
theorem apply_settled {b b' : ReplayBatch Ev} {call : String}
    {replay : S → List Ev → Except String S} {state state' : S}
    (h : b.apply call replay state = .ok (state', b')) :
    b'.apply call replay state' = .ok (state', b') :=
  apply_of_empty (apply_events h) call replay state'

end ReplayBatch

section Zswap

variable (L : Ledgers Z D E P) (v : LedgerVersion)

/-- A state and the events that wait for it. -/
structure Waiting (S Ev : Type) where
  state : S
  batch : ReplayBatch Ev

def zswapApply (size : ℕ) (s : Waiting (Z v) (E v)) (id : ℤ) (raw : Bytes)
    (ledger : LedgerVersion) : Waiting (Z v) (E v) × Except WalletError Unit :=
  match Storage.Store.expectLedger v ledger with
  | .error e => (s, .error e)
  | .ok () =>
    match L.decode v raw "zswap" with
    | .error e => (s, .error e)
    | .ok ev =>
      let batch := s.batch.push id ev
      if batch.isFull size then
        match batch.applyZswap L v s.state with
        | .error e => ({ s with batch := batch }, .error e)
        | .ok (state, batch) => (⟨state, batch⟩, .ok ())
      else ({ s with batch := batch }, .ok ())

def zswapArgs (size : ℕ) (startId : ℤ) (resuming : Bool) : Args (Waiting (Z v) (E v)) where
  tagging := L.events
  stream := .zswap
  ledger := v
  startId := startId
  resuming := resuming
  apply := zswapApply L v size

/-- The shielded state a replay reached. -/
structure ZswapReplay (S : Type) where
  state : S
  lastId : ℤ
  laterLedger : Option (ℤ × LedgerVersion)

/-- The replay consumed every event in the batch, so the state must hold them
before it is returned. -/
def settleZswap (s : Waiting (Z v) (E v)) : Except WalletError (Z v) :=
  s.batch.applyZswap L v s.state >>= fun out => .ok out.1

def replayZswapEvents (initial : Z v) (startId : ℤ) (resuming : Bool) (answers : Answers)
    (size : ℕ := replayBatch) : Option (Except WalletError (ZswapReplay (Z v))) :=
  match replayAgainst (zswapArgs L v size startId resuming) ⟨initial, .new⟩ answers with
  | (_, none) => none
  | (_, some (.error e)) => some (.error e)
  | (st, some (.ok r)) =>
    some (settleZswap L v st.sink >>= fun state => .ok ⟨state, r.lastId, r.laterLedger⟩)

end Zswap

section Dust

variable (L : Ledgers Z D E P) (v : LedgerVersion)

/-- The variables that the Dust replay's closure binds. `saved` are the
checkpoints it has handed out, oldest first. -/
structure DustSink (S Ev : Type) where
  wallet : S
  batch : ReplayBatch Ev
  lastBlockTime : Option Timestamp
  spendNullifiers : List DustNullifier
  consumed : ℕ
  saved : List (S × ℤ)

def DustSink.new (wallet : D v) : DustSink (D v) (E v) := ⟨wallet, .new, none, [], 0, []⟩

def applyWaiting (s : DustSink (D v) (E v)) : DustSink (D v) (E v) × Except WalletError Unit :=
  match s.batch.applyDust L v s.wallet with
  | .error e => (s, .error e)
  | .ok (wallet, batch) => ({ s with wallet := wallet, batch := batch }, .ok ())

/-- An event of the replay's own generation. -/
def dustEvent (size : ℕ) (s : DustSink (D v) (E v)) (id : ℤ) (raw : Bytes) :
    DustSink (D v) (E v) × Except WalletError Unit :=
  match L.decode v raw "dust" with
  | .error e => (s, .error e)
  | .ok ev =>
    let s := { s with
      lastBlockTime := (L.blockTime v ev).or s.lastBlockTime
      spendNullifiers := s.spendNullifiers ++ (L.spendNullifier v ev).toList
      batch := s.batch.push id ev }
    if s.batch.isFull size then applyWaiting L v s else (s, .ok ())

/-- After every `checkpointEvery` consumed events, a checkpoint. Its cursor says
that every event up to it is in the wallet it saves. -/
def countEvent (checkpoint : Bool) (checkpointEvery : ℕ) (s : DustSink (D v) (E v)) (id : ℤ) :
    DustSink (D v) (E v) × Except WalletError Unit :=
  let s := { s with consumed := s.consumed + 1 }
  if checkpoint && decide (checkpointEvery ∣ s.consumed) then
    match applyWaiting L v s with
    | (s, .error e) => (s, .error e)
    | (s, .ok ()) => ({ s with saved := s.saved ++ [(s.wallet, id)] }, .ok ())
  else (s, .ok ())

/-- The events of an earlier generation are consumed without applying them: the
fork replaced the chain's Dust state with an empty one. -/
def dustApply (size : ℕ) (checkpoint : Bool) (checkpointEvery : ℕ) (s : DustSink (D v) (E v))
    (id : ℤ) (raw : Bytes) (ledger : LedgerVersion) :
    DustSink (D v) (E v) × Except WalletError Unit :=
  if ledger = v then
    match dustEvent L v size s id raw with
    | (s, .error e) => (s, .error e)
    | (s, .ok ()) => countEvent L v checkpoint checkpointEvery s id
  else countEvent L v checkpoint checkpointEvery s id

def dustArgs (size : ℕ) (startId : ℤ) (resuming : Bool) (checkpoint : Bool)
    (checkpointEvery : ℕ) :
    Args (DustSink (D v) (E v)) where
  tagging := L.events
  stream := .dust
  ledger := v
  startId := startId
  resuming := resuming
  apply := dustApply L v size checkpoint checkpointEvery

/-- The Dust state a replay reached. -/
structure DustReplay (S : Type) where
  wallet : S
  lastId : ℤ
  lastBlockTime : Option Timestamp
  spendNullifiers : List DustNullifier
  laterLedger : Option (ℤ × LedgerVersion)

/-- What a Dust replay has seen, event by event. -/
structure DustSeen (S : Type) where
  wallet : S
  lastBlockTime : Option Timestamp
  spendNullifiers : List DustNullifier

def settleDust (s : DustSink (D v) (E v)) : Except WalletError (DustSeen (D v)) :=
  s.batch.applyDust L v s.wallet >>= fun out =>
    .ok ⟨out.1, s.lastBlockTime, s.spendNullifiers⟩

/-- The checkpoints that the replay handed out, and its result. -/
def replayDustEvents (dustWallet : D v) (startId : ℤ) (resuming : Bool) (checkpoint : Bool)
    (checkpointEvery : ℕ) (answers : Answers) (size : ℕ := replayBatch) :
    List (D v × ℤ) × Option (Except WalletError (DustReplay (D v))) :=
  match replayAgainst (dustArgs L v size startId resuming checkpoint checkpointEvery)
      (DustSink.new v dustWallet) answers with
  | (st, none) => (st.sink.saved, none)
  | (st, some (.error e)) => (st.sink.saved, some (.error e))
  | (st, some (.ok r)) => (st.sink.saved, some (settleDust L v st.sink >>= fun seen =>
      .ok ⟨seen.wallet, r.lastId, seen.lastBlockTime, seen.spendNullifiers, r.laterLedger⟩))

end Dust

section OneByOne

variable (L : Ledgers Z D E P) (v : LedgerVersion)

/-- One shielded event. -/
def zswapStep (s : Z v) (_ : ℤ) (raw : Bytes) (ledger : LedgerVersion) :
    Except WalletError (Z v) :=
  match Storage.Store.expectLedger v ledger with
  | .error e => .error e
  | .ok () =>
    match L.decode v raw "zswap" with
    | .error e => .error e
    | .ok ev =>
      match L.replayZswap v s [ev] with
      | .error e => .error (.sync e)
      | .ok s => .ok s

/-- One Dust event. -/
def dustStep (s : DustSeen (D v)) (_ : ℤ) (raw : Bytes) (ledger : LedgerVersion) :
    Except WalletError (DustSeen (D v)) :=
  if ledger = v then
    match L.decode v raw "dust" with
    | .error e => .error e
    | .ok ev =>
      match L.replayDust v s.wallet [ev] with
      | .error e => .error (.sync e)
      | .ok wallet => .ok ⟨wallet, (L.blockTime v ev).or s.lastBlockTime,
          s.spendNullifiers ++ (L.spendNullifier v ev).toList⟩
  else .ok s

/-- The shielded stream event by event, in one generation. -/
def playZswap : Z v → ℤ → List LedgerEvent → Except WalletError (Z v × LedgerReplay) :=
  play (readEvent L.events "zswap") v (zswapStep L v)

/-- The Dust stream event by event, in one generation. -/
def playDust :
    DustSeen (D v) → ℤ → List LedgerEvent → Except WalletError (DustSeen (D v) × LedgerReplay) :=
  play (readEvent L.events "dust") v (dustStep L v)

end OneByOne

section Settling

variable {L : Ledgers Z D E P} {v : LedgerVersion} (size : ℕ)

/-- A step that fails agrees with every run that fails there too. -/
theorem agree_of_refused {S T : Type} (e : WalletError) (a : Except WalletError S) :
    Agree (.error e : Except WalletError T) (a >>= fun _ => .error e) := by
  cases a with
  | error e' => exact .of_error _ _
  | ok s => exact .of_error _ _

theorem zswapStep_ok_iff {s after : Z v} {id : ℤ} {raw : Bytes} {ledger : LedgerVersion} {ev : E v}
    (hledger : Storage.Store.expectLedger v ledger = .ok ()) (hev : L.decode v raw "zswap" = .ok ev) :
    zswapStep L v s id raw ledger = .ok after ↔ L.replayZswap v s [ev] = .ok after := by
  unfold zswapStep
  rw [hledger]
  simp only [hev]
  cases L.replayZswap v s [ev] with
  | error e => simp
  | ok s' => simp

theorem zswap_settles (hL : L.Lawful) (startId : ℤ) (resuming : Bool) :
    Settles (zswapArgs L v size startId resuming) (settleZswap L v) (zswapStep L v) := by
  intro s id raw ledger
  cases hledger : Storage.Store.expectLedger v ledger with
  | error e =>
    simp only [Args.step, zswapArgs, zswapApply, zswapStep, hledger]
    exact agree_of_refused e _
  | ok u =>
    cases hev : L.decode v raw "zswap" with
    | error e =>
      simp only [Args.step, zswapArgs, zswapApply, zswapStep, hledger, hev]
      exact agree_of_refused e _
    | ok ev =>
      have hpushed : Agree ((zswapArgs L v size startId resuming).step s id raw ledger >>=
          settleZswap L v) (((s.batch.push id ev).applyZswap L v s.state) >>= fun out =>
            .ok out.1) := by
        simp only [Args.step, zswapArgs, zswapApply, hledger, hev]
        by_cases hfull : (s.batch.push id ev).isFull size = true
        · rw [if_pos hfull]
          cases happly : (s.batch.push id ev).applyZswap L v s.state with
          | error e => exact .refl _
          | ok out =>
            simp only [settleZswap, bind, Except.bind]
            rw [show out.2.applyZswap L v out.1 = .ok (out.1, out.2) from
              ReplayBatch.apply_settled happly]
            exact .refl _
        · rw [if_neg hfull]
          exact .refl _
      refine hpushed.trans ?_
      intro after
      refine (ReplayBatch.push_ok_iff _ _ _ _ (hL.zswap v) _ _).trans (Iff.trans ?_ bind_eq_ok.symm)
      exact exists_congr (fun before => and_congr Iff.rfl (zswapStep_ok_iff hledger hev).symm)

/-- What a closure answers, as a computation of its state. -/
def answered {σ : Type} : σ × Except WalletError Unit → Except WalletError σ
  | (s, .ok ()) => .ok s
  | (_, .error e) => .error e

theorem applyWaiting_agree (s : DustSink (D v) (E v)) :
    Agree (answered (applyWaiting L v s) >>= settleDust L v) (settleDust L v s) := by
  unfold applyWaiting
  cases happly : s.batch.applyDust L v s.wallet with
  | error e =>
    simp only [settleDust, happly]
    exact .refl _
  | ok out =>
    simp only [settleDust, happly, answered, bind, Except.bind]
    rw [show out.2.applyDust L v out.1 = .ok (out.1, out.2) from
      ReplayBatch.apply_settled happly]
    exact .refl _

theorem dustStep_ok_iff {s after : DustSeen (D v)} {id : ℤ} {raw : Bytes} {ev : E v}
    (hev : L.decode v raw "dust" = .ok ev) :
    dustStep L v s id raw v = .ok after ↔ ∃ wallet, L.replayDust v s.wallet [ev] = .ok wallet ∧
      after = ⟨wallet, (L.blockTime v ev).or s.lastBlockTime,
        s.spendNullifiers ++ (L.spendNullifier v ev).toList⟩ := by
  unfold dustStep
  rw [if_pos rfl]
  simp only [hev]
  cases L.replayDust v s.wallet [ev] with
  | error e => simp
  | ok wallet => simp [eq_comm]

theorem countEvent_agree (checkpoint : Bool) (checkpointEvery : ℕ) (s : DustSink (D v) (E v))
    (id : ℤ) :
    Agree (answered (countEvent L v checkpoint checkpointEvery s id) >>= settleDust L v)
      (settleDust L v s) := by
  have hwaiting := applyWaiting_agree (L := L) { s with consumed := s.consumed + 1 }
  unfold countEvent
  simp only
  by_cases hdue : (checkpoint && decide (checkpointEvery ∣ s.consumed + 1)) = true
  · rw [if_pos hdue]
    rcases happly : applyWaiting L v { s with consumed := s.consumed + 1 } with ⟨s', result⟩
    rw [happly] at hwaiting
    cases result with
    | error e => exact hwaiting
    | ok u => exact hwaiting
  · rw [if_neg hdue]
    exact .refl _

theorem dustEvent_agree (hL : L.Lawful) (s : DustSink (D v) (E v)) (id : ℤ) (raw : Bytes) :
    Agree (answered (dustEvent L v size s id raw) >>= settleDust L v)
      (settleDust L v s >>= fun seen => dustStep L v seen id raw v) := by
  cases hev : L.decode v raw "dust" with
  | error e =>
    simp only [dustEvent, dustStep, hev, if_true]
    exact agree_of_refused e _
  | ok ev =>
    have hpushed : Agree (answered (dustEvent L v size s id raw) >>= settleDust L v)
        (settleDust L v { s with
          lastBlockTime := (L.blockTime v ev).or s.lastBlockTime
          spendNullifiers := s.spendNullifiers ++ (L.spendNullifier v ev).toList
          batch := s.batch.push id ev }) := by
      simp only [dustEvent, hev]
      by_cases hfull : (s.batch.push id ev).isFull size = true
      · rw [if_pos hfull]
        exact applyWaiting_agree _
      · rw [if_neg hfull]
        exact .refl _
    refine hpushed.trans ?_
    intro after
    simp only [settleDust, bind_eq_ok]
    constructor
    · rintro ⟨out, hout, hafter⟩
      obtain ⟨before, hbefore, hreplay⟩ := (ReplayBatch.push_ok_iff _ _ _ _ (hL.dust v) _ _).mp
        (bind_eq_ok.mpr ⟨out, hout, rfl⟩)
      obtain ⟨out', hout', hstate⟩ := bind_eq_ok.mp hbefore
      cases hstate
      exact ⟨_, ⟨out', hout', rfl⟩, (dustStep_ok_iff hev).mpr
        ⟨out.1, hreplay, (Except.ok.inj hafter).symm⟩⟩
    · rintro ⟨seen, ⟨out', hout', hseen⟩, hafter⟩
      cases hseen
      obtain ⟨wallet, hreplay, rfl⟩ := (dustStep_ok_iff hev).mp hafter
      obtain ⟨out, hout, hwallet⟩ := bind_eq_ok.mp
        ((ReplayBatch.push_ok_iff _ id ev "apply dust" (hL.dust v) _ _).mpr
          ⟨out'.1, bind_eq_ok.mpr ⟨out', hout', rfl⟩, hreplay⟩)
      cases hwallet
      exact ⟨out, hout, rfl⟩

theorem dust_settles (hL : L.Lawful) (startId : ℤ) (resuming checkpoint : Bool)
    (checkpointEvery : ℕ) :
    Settles (dustArgs L v size startId resuming checkpoint checkpointEvery) (settleDust L v)
      (dustStep L v) := by
  intro s id raw ledger
  have hstep : (dustArgs L v size startId resuming checkpoint checkpointEvery).step s id raw ledger =
      answered (dustApply L v size checkpoint checkpointEvery s id raw ledger) := rfl
  rw [hstep]
  unfold dustApply
  by_cases hledger : ledger = v
  · subst hledger
    rw [if_pos rfl]
    have hevent := dustEvent_agree size hL s id raw
    rcases happly : dustEvent L ledger size s id raw with ⟨s', result⟩
    rw [happly] at hevent
    cases result with
    | error e => exact hevent
    | ok u => exact (countEvent_agree checkpoint checkpointEvery s' id).trans hevent
  · rw [if_neg hledger]
    refine (countEvent_agree checkpoint checkpointEvery s id).trans ?_
    have hskip : (fun seen => dustStep L v seen id raw ledger) = .ok := by
      funext seen
      exact if_neg hledger
    rw [hskip]
    cases settleDust L v s with
    | error e => exact .refl _
    | ok seen => exact .refl _

end Settling

section Results

variable {L : Ledgers Z D E P} {v : LedgerVersion} {es done todo : List LedgerEvent}
  {startId : ℤ} {resuming : Bool} {answers : Answers} {size : ℕ}

/-- Through whatever interruptions, a shielded replay that returns has played
what was to do. -/
theorem replayZswapEvents_plays (hL : L.Lawful) (hasc : Ascending LedgerEvent.id es)
    (hpos : ∀ e ∈ es, 1 ≤ e.id) {initial : Z v}
    (hstart : StartsAfter (zswapArgs L v size startId resuming) es done todo)
    (hhonest : Honest es answers) {r : ZswapReplay (Z v)}
    (h : replayZswapEvents L v initial startId resuming answers size = some (.ok r)) :
    playZswap L v initial (lastAppliedBefore startId) todo =
      .ok (r.state, ⟨r.lastId, r.laterLedger⟩) := by
  unfold replayZswapEvents at h
  rcases hout : replayAgainst (zswapArgs L v size startId resuming) ⟨initial, .new⟩ answers with
    ⟨st, none | e | r'⟩
  · rw [hout] at h
    cases h
  · rw [hout] at h
    cases h
  · rw [hout] at h
    obtain ⟨state, hstate, hr⟩ := bind_eq_ok.mp (Option.some.inj h)
    cases hr
    have hplays := replayAgainst_plays hasc hpos hstart answers hhonest st r' hout
    refine (play_settles (zswap_settles size hL startId resuming) ⟨initial, .new⟩
      (lastAppliedBefore startId) todo _).mp ?_
    exact bind_eq_ok.mpr ⟨_, hplays, bind_eq_ok.mpr ⟨state, hstate, rfl⟩⟩

/-- Uninterrupted, the shielded replay succeeds as playing the stream does. -/
theorem replayZswapEvents_serveAll (hL : L.Lawful) (hasc : Ascending LedgerEvent.id es)
    (hpos : ∀ e ∈ es, 1 ≤ e.id) (initial : Z v)
    (hstart : StartsAfter (zswapArgs L v size startId resuming) es done todo)
    (hquiet : resuming = true ∨ es = [] ∨ todo ≠ []) :
    ∃ result, replayZswapEvents L v initial startId resuming [serveAll es] size = some result ∧
      Agree (result >>= fun r => .ok (r.state, (⟨r.lastId, r.laterLedger⟩ : LedgerReplay)))
        (playZswap L v initial (lastAppliedBefore startId) todo) := by
  obtain ⟨st, result, hout, hplay⟩ := replayAgainst_serveAll
    (⟨initial, .new⟩ : Waiting (Z v) (E v)) hasc hpos hstart hquiet
  have hsettles := play_settles (zswap_settles size hL startId resuming)
    (⟨initial, .new⟩ : Waiting (Z v) (E v)) (lastAppliedBefore startId) todo
  have hlast : lastAppliedBefore (zswapArgs L v size startId resuming).startId =
      lastAppliedBefore startId := rfl
  rw [← hlast, hplay] at hsettles
  unfold replayZswapEvents
  rw [hout]
  cases result with
  | error e => exact ⟨.error e, rfl, (Agree.of_error e e).trans hsettles⟩
  | ok r =>
    refine ⟨_, rfl, Agree.trans ?_ hsettles⟩
    simp only [Except.map, bind, Except.bind]
    cases settleZswap L v st.sink with
    | error e => exact .refl _
    | ok state => exact .refl _

/-- Through whatever interruptions, a Dust replay that returns has played what
was to do. -/
theorem replayDustEvents_plays (hL : L.Lawful) (hasc : Ascending LedgerEvent.id es)
    (hpos : ∀ e ∈ es, 1 ≤ e.id) {wallet : D v} {checkpoint : Bool} {checkpointEvery : ℕ}
    (hstart : StartsAfter (dustArgs L v size startId resuming checkpoint checkpointEvery) es done todo)
    (hhonest : Honest es answers) {r : DustReplay (D v)}
    (h : (replayDustEvents L v wallet startId resuming checkpoint checkpointEvery answers size).2 =
      some (.ok r)) :
    playDust L v ⟨wallet, none, []⟩ (lastAppliedBefore startId) todo =
      .ok (⟨r.wallet, r.lastBlockTime, r.spendNullifiers⟩, ⟨r.lastId, r.laterLedger⟩) := by
  unfold replayDustEvents at h
  rcases hout : replayAgainst (dustArgs L v size startId resuming checkpoint checkpointEvery)
      (DustSink.new v wallet) answers with ⟨st, none | e | r'⟩
  · rw [hout] at h
    cases h
  · rw [hout] at h
    cases h
  · rw [hout] at h
    obtain ⟨seen, hseen, hr⟩ := bind_eq_ok.mp (Option.some.inj h)
    cases hr
    have hplays := replayAgainst_plays hasc hpos hstart answers hhonest st r' hout
    refine (play_settles (dust_settles size hL startId resuming checkpoint checkpointEvery)
      (DustSink.new v wallet) (lastAppliedBefore startId) todo _).mp ?_
    exact bind_eq_ok.mpr ⟨_, hplays, bind_eq_ok.mpr ⟨seen, hseen, rfl⟩⟩

/-- Uninterrupted, the Dust replay succeeds as playing the stream does. -/
theorem replayDustEvents_serveAll (hL : L.Lawful) (hasc : Ascending LedgerEvent.id es)
    (hpos : ∀ e ∈ es, 1 ≤ e.id) (wallet : D v) (checkpoint : Bool) (checkpointEvery : ℕ)
    (hstart : StartsAfter (dustArgs L v size startId resuming checkpoint checkpointEvery) es done todo)
    (hquiet : resuming = true ∨ es = [] ∨ todo ≠ []) :
    ∃ result, (replayDustEvents L v wallet startId resuming checkpoint checkpointEvery
        [serveAll es] size).2 = some result ∧
      Agree (result >>= fun r => .ok ((⟨r.wallet, r.lastBlockTime, r.spendNullifiers⟩ :
          DustSeen (D v)), (⟨r.lastId, r.laterLedger⟩ : LedgerReplay)))
        (playDust L v ⟨wallet, none, []⟩ (lastAppliedBefore startId) todo) := by
  obtain ⟨st, result, hout, hplay⟩ := replayAgainst_serveAll (DustSink.new v wallet) hasc hpos
    hstart hquiet
  have hsettles := play_settles (dust_settles size hL startId resuming checkpoint checkpointEvery)
    (DustSink.new v wallet) (lastAppliedBefore startId) todo
  have hlast : lastAppliedBefore
      (dustArgs L v size startId resuming checkpoint checkpointEvery).startId =
        lastAppliedBefore startId := rfl
  rw [← hlast, hplay] at hsettles
  unfold replayDustEvents
  rw [hout]
  cases result with
  | error e => exact ⟨.error e, rfl, (Agree.of_error e e).trans hsettles⟩
  | ok r =>
    refine ⟨_, rfl, Agree.trans ?_ hsettles⟩
    simp only [Except.map, bind, Except.bind]
    cases settleDust L v st.sink with
    | error e => exact .refl _
    | ok seen => exact .refl _

end Results

section Checkpoints

variable {L : Ledgers Z D E P} {v : LedgerVersion} {size : ℕ}

theorem applyWaiting_saved {s s' : DustSink (D v) (E v)} {result : Except WalletError Unit}
    (h : applyWaiting L v s = (s', result)) :
    s'.saved = s.saved ∧ (result = .ok () → s'.batch.events = []) := by
  unfold applyWaiting at h
  cases happly : s.batch.applyDust L v s.wallet with
  | error e =>
    rw [happly] at h
    cases h
    exact ⟨rfl, fun hok => by cases hok⟩
  | ok out =>
    rw [happly] at h
    cases h
    exact ⟨rfl, fun _ => ReplayBatch.apply_events happly⟩

theorem dustEvent_saved {s s' : DustSink (D v) (E v)} {id : ℤ} {raw : Bytes}
    {result : Except WalletError Unit} (h : dustEvent L v size s id raw = (s', result)) :
    s'.saved = s.saved := by
  unfold dustEvent at h
  cases hev : L.decode v raw "dust" with
  | error e =>
    rw [hev] at h
    cases h
    rfl
  | ok ev =>
    simp only [hev] at h
    split at h
    · exact (applyWaiting_saved h).1
    · cases h
      rfl

/-- A consumed event adds one checkpoint at most, and that of its own state. -/
theorem countEvent_saved {checkpoint : Bool} {checkpointEvery : ℕ} {s s' : DustSink (D v) (E v)}
    {id : ℤ} {result : Except WalletError Unit}
    (h : countEvent L v checkpoint checkpointEvery s id = (s', result)) :
    s'.saved = s.saved ∨
      result = .ok () ∧ s'.batch.events = [] ∧ s'.saved = s.saved ++ [(s'.wallet, id)] := by
  unfold countEvent at h
  simp only at h
  split at h
  · rcases happly : applyWaiting L v { s with consumed := s.consumed + 1 } with ⟨s₁, _ | ⟨⟩⟩
    · rw [happly] at h
      cases h
      exact Or.inl (applyWaiting_saved happly).1
    · rw [happly] at h
      cases h
      obtain ⟨hsaved, hempty⟩ := applyWaiting_saved happly
      exact Or.inr ⟨rfl, hempty rfl, by simp only [hsaved]⟩
  · cases h
    exact Or.inl rfl

theorem dustApply_saved {checkpoint : Bool} {checkpointEvery : ℕ} {s s' : DustSink (D v) (E v)}
    {id : ℤ} {raw : Bytes} {ledger : LedgerVersion} {result : Except WalletError Unit}
    (h : dustApply L v size checkpoint checkpointEvery s id raw ledger = (s', result)) :
    s'.saved = s.saved ∨
      result = .ok () ∧ s'.batch.events = [] ∧ s'.saved = s.saved ++ [(s'.wallet, id)] := by
  unfold dustApply at h
  split at h
  · rcases hevent : dustEvent L v size s id raw with ⟨s₁, _ | ⟨⟩⟩
    · rw [hevent] at h
      cases h
      exact Or.inl (dustEvent_saved hevent)
    · rw [hevent] at h
      rw [← dustEvent_saved hevent]
      exact countEvent_saved h
  · exact countEvent_saved h

/-- What one checkpoint says: the events up to its id, taken one by one. -/
def CheckpointOf (L : Ledgers Z D E P) (v : LedgerVersion) (wallet : D v) (last₀ : ℤ)
    (all : List LedgerEvent) (c : D v × ℤ) : Prop :=
  ∃ early late, early ++ late = all ∧ ∃ seen,
    playDust L v ⟨wallet, none, []⟩ last₀ early = .ok (seen, ⟨c.2, none⟩) ∧ seen.wallet = c.1

/-- What is known of a Dust replay's sink. -/
def DustKnown (args : Args (DustSink (D v) (E v))) (L : Ledgers Z D E P) (wallet : D v)
    (last₀ : ℤ) (all : List LedgerEvent) (s : DustSink (D v) (E v)) (last : ℤ)
    (todo : List LedgerEvent) : Prop :=
  Settled args (settleDust L v) (dustStep L v) ⟨wallet, none, []⟩ last₀ all s last todo ∧
    ∀ c ∈ s.saved, CheckpointOf L v wallet last₀ all c

theorem keeps_dustKnown (hL : L.Lawful) (startId : ℤ) (resuming checkpoint : Bool)
    (checkpointEvery : ℕ) (wallet : D v) (last₀ : ℤ) (all : List LedgerEvent) :
    Keeps (dustArgs L v size startId resuming checkpoint checkpointEvery)
      (DustKnown (dustArgs L v size startId resuming checkpoint checkpointEvery) L wallet last₀ all) := by
  rintro s last e todo raw ledger s' ⟨hsettled, hsaved⟩ hread hv happly
  have hnext := hsettled.apply (dust_settles size hL startId resuming checkpoint checkpointEvery)
    hread hv happly
  refine ⟨hnext, fun c hc => ?_⟩
  rcases dustApply_saved happly with hsame | ⟨-, hempty, hadded⟩
  · exact hsaved c (hsame ▸ hc)
  · rw [hadded] at hc
    rcases List.mem_append.mp hc with hc | hc
    · exact hsaved c hc
    · -- The batch is empty at a checkpoint, so the wallet it saves is settled.
      obtain rfl := List.mem_singleton.mp hc
      obtain ⟨played, hsplit, hagree⟩ := hnext
      have hsettle : settleDust L v s' =
          .ok ⟨s'.wallet, s'.lastBlockTime, s'.spendNullifiers⟩ := by
        unfold settleDust
        rw [show s'.batch.applyDust L v s'.wallet = .ok (s'.wallet, s'.batch) from
          ReplayBatch.apply_of_empty hempty _ _ _]
        rfl
      rw [hsettle] at hagree
      exact ⟨played, todo, hsplit, _, (hagree _).mp rfl, rfl⟩

/-- However a Dust replay ends, its checkpoints are as known. -/
theorem ends_saved (hL : L.Lawful) {startId : ℤ} {resuming checkpoint : Bool}
    {checkpointEvery : ℕ} {wallet : D v} {last₀ last : ℤ} {all todo : List LedgerEvent}
    {s s' : DustSink (D v) (E v)} {result : Except WalletError LedgerReplay}
    (hknown : DustKnown (dustArgs L v size startId resuming checkpoint checkpointEvery) L wallet last₀
      all s last todo)
    (hends : Ends True (dustArgs L v size startId resuming checkpoint checkpointEvery) s last todo s'
      result) :
    ∀ c ∈ s'.saved, CheckpointOf L v wallet last₀ all c := by
  intro c hc
  cases hends with
  | finished => exact hknown.2 c hc
  | later => exact hknown.2 c hc
  | unread => exact hknown.2 c hc
  | refused e todo raw ledger s' err hread hv happly =>
    rcases dustApply_saved happly with hsame | ⟨hok, -, -⟩
    · exact hknown.2 c (hsame ▸ hc)
    · cases hok
  | broken _ todo s' err hlast =>
    rcases hlast with rfl | ⟨e, he, raw, ledger, hread, hv, happly⟩
    · exact hknown.2 c hc
    · obtain ⟨rest, rfl⟩ : ∃ rest, todo = e :: rest := by
        cases todo with
        | nil => cases he
        | cons x rest => exact ⟨rest, by rw [Option.some.inj he]⟩
      exact (keeps_dustKnown hL startId resuming checkpoint checkpointEvery wallet last₀ all
        _ _ _ _ _ _ _ hknown hread hv happly).2 c hc

theorem settleDust_new (wallet : D v) :
    settleDust L v (DustSink.new v wallet) = .ok ⟨wallet, none, []⟩ := rfl

/-- Every checkpoint that a Dust replay hands out holds the events up to its
cursor, whatever becomes of the replay. -/
theorem replayDustEvents_saved (hL : L.Lawful) {es done todo : List LedgerEvent}
    (hasc : Ascending LedgerEvent.id es) (hpos : ∀ e ∈ es, 1 ≤ e.id) {wallet : D v} {startId : ℤ}
    {resuming checkpoint : Bool} {checkpointEvery : ℕ} {answers : Answers}
    (hstart : StartsAfter (dustArgs L v size startId resuming checkpoint checkpointEvery) es done todo)
    (hhonest : Honest es answers) :
    ∀ c ∈ (replayDustEvents L v wallet startId resuming checkpoint checkpointEvery answers size).1,
      CheckpointOf L v wallet (lastAppliedBefore startId) todo c := by
  have hfirst : DustKnown (dustArgs L v size startId resuming checkpoint checkpointEvery) L wallet
      (lastAppliedBefore startId) todo (DustSink.new v wallet) (lastAppliedBefore startId) todo :=
    ⟨.start (settleDust_new wallet) _ _, fun c hc => by cases hc⟩
  have hstands := replayAgainst_stands (keeps_dustKnown hL startId resuming checkpoint
    checkpointEvery wallet (lastAppliedBefore startId) todo) hasc hpos hstart hfirst answers
    hhonest
  unfold replayDustEvents
  rcases hout : replayAgainst (dustArgs L v size startId resuming checkpoint checkpointEvery)
      (DustSink.new v wallet) answers with ⟨st, none | result⟩
  · rw [hout] at hstands
    obtain ⟨done', todo', hst⟩ := hstands
    exact hst.known.2
  · rw [hout] at hstands
    obtain ⟨s, last, todo', hknown, hends⟩ := hstands
    have hsaved := ends_saved hL hknown hends
    cases result with
    | error e => exact hsaved
    | ok r => exact hsaved

end Checkpoints

section Moving

variable {Z D E P : LedgerVersion → Type} {L : Ledgers Z D E P} {v : LedgerVersion} {startId : ℤ}
  {answers : Answers} {size : ℕ}

/-- Whatever the indexer answers, a shielded replay that returns with the cursor
it started from has changed nothing. -/
theorem replayZswapEvents_unmoved (hstart : 0 < startId) {initial : Z v} {resuming : Bool}
    {r : ZswapReplay (Z v)}
    (h : replayZswapEvents L v initial startId resuming answers size = some (.ok r))
    (hlast : r.lastId = startId - 1) : r.state = initial := by
  unfold replayZswapEvents at h
  split at h
  · cases h
  · cases h
  · rename_i st r' hout
    obtain ⟨state, hsettle, hr⟩ := bind_eq_ok.mp (Option.some.inj h)
    cases hr
    obtain ⟨-, hsame⟩ := @replayAgainst_unmoved _ (zswapArgs L v size startId resuming) _ hstart
      answers st r' hout
    rw [hsame hlast] at hsettle
    cases hsettle
    rfl

theorem replayDustEvents_unmoved (hstart : 0 < startId) {wallet : D v} {resuming checkpoint : Bool}
    {checkpointEvery : ℕ} {r : DustReplay (D v)}
    (h : (replayDustEvents L v wallet startId resuming checkpoint checkpointEvery answers size).2 =
      some (.ok r)) (hlast : r.lastId = startId - 1) : r.wallet = wallet := by
  unfold replayDustEvents at h
  split at h
  · cases h
  · cases h
  · rename_i st r' hout
    obtain ⟨seen, hsettle, hr⟩ := bind_eq_ok.mp (Option.some.inj h)
    cases hr
    obtain ⟨-, hsame⟩ := @replayAgainst_unmoved _
      (dustArgs L v size startId resuming checkpoint checkpointEvery) _ hstart answers st r' hout
    rw [hsame hlast] at hsettle
    cases hsettle
    rfl

end Moving

end MidnightRs.LedgerReplays
