import MidnightRs.Reconnects
import MidnightRs.DiskFollows

/-!
Crossing from one ledger generation to the next. A replay stops at the first event of a
later generation and the crossing goes on from there, so that it ends after as many
rounds as there are generations and takes each event once, in the event's own.
-/
namespace MidnightRs.Replay

open Loops Streams

variable {σ : Type*} {args : Args σ}

section Ending

/-- Every event handed over is one of those listed. -/
def HandsFrom (ids : List ℤ) (st : State σ) : Prop := ∀ i ∈ handedIds st.trace, i ∈ ids

def ExitHands (ids : List ℤ) : Exit σ → Prop
  | .reconnect st => HandsFrom ids st
  | .finish st _ => HandsFrom ids st

variable {ids : List ℤ}

theorem HandsFrom.retryOr {st : State σ} (h : HandsFrom ids st) (e : IndexerError) :
    ExitHands ids (st.retryOr e) := by
  unfold State.retryOr
  split
  · exact h
  · exact h

/-- No event is applied twice, so the stream bounds what is applied. -/
theorem HandsFrom.count_le {es : List LedgerEvent} {st : State σ} (hinv : Inv args st)
    (h : HandsFrom (es.map LedgerEvent.id) st) : st.count ≤ es.length := by
  have hnodup : (handedIds st.trace).Nodup := hinv.handed.decreasing.imp (fun hlt => ne_of_gt hlt)
  have hlength := (hnodup.subperm h).length_le
  rw [List.length_map] at hlength
  rw [hinv.count_eq]
  exact hlength

end Ending

section Forks

end Forks

end MidnightRs.Replay

namespace MidnightRs.ChainSync

open Streams Replay LedgerReplays Storage Reservations

variable {Z D E P : LedgerVersion → Type} {L : Ledgers Z D E P}

section Rounds

variable {v : LedgerVersion} {startId : ℤ} {resuming : Bool} {size : ℕ}

end Rounds

section Events

/-- The events taken one by one, each in its own generation: the state is carried there
first, and no event is left out or taken twice. -/
inductive Crosses (L : Ledgers Z D E P) : ZswapState Z → List LedgerEvent → ZswapState Z → Prop
  | nil (s : ZswapState Z) : Crosses L s [] s
  | event {s t : ZswapState Z} {e : LedgerEvent} {es : List LedgerEvent} {raw : Bytes}
      {u : LedgerVersion} {carried after : Z u} {ev : E u}
      (hread : readEvent L.events "zswap" e = .ok (raw, u))
      (hcarry : intoLedger L s u = .ok carried) (hdecode : L.decode u raw "zswap" = .ok ev)
      (hreplay : L.replayZswap u carried [ev] = .ok after) (hrest : Crosses L ⟨u, after⟩ es t) :
      Crosses L s (e :: es) t

theorem intoLedger_le {s : ZswapState Z} {u : LedgerVersion} {z : Z u}
    (h : intoLedger L s u = .ok z) : s.1 ≤ u := by
  obtain ⟨v, state⟩ := s
  cases v with
  | V8 =>
    cases u with
    | V8 => exact le_refl _
    | V9 => exact show LedgerVersion.V8 ≤ .V9 by decide
  | V9 =>
    cases u with
    | V8 => cases h
    | V9 => exact le_refl _

/-- A crossing is what the events give one by one. -/
theorem Crosses.foldlM {es : List LedgerEvent} {s t : ZswapState Z} (h : Crosses L s es t)
    (last : ℤ) : es.foldlM (crossStep L) (s, last) = .ok (t, lastId LedgerEvent.id last es) := by
  induction h generalizing last with
  | nil s => rfl
  | @event s t e es raw u carried after ev hread hcarry hdecode hreplay hrest ih =>
    have hown : zswapStep L u carried e.id raw u = .ok after :=
      (zswapStep_ok_iff (if_pos rfl) hdecode).mpr hreplay
    have hstep : crossStep L (s, last) e = .ok (⟨u, after⟩, e.id) := by
      simp only [crossStep, hread]
      by_cases hlt : s.1 < u
      · rw [if_pos hlt, hcarry]
        exact bind_eq_ok.mpr ⟨carried, rfl, bind_eq_ok.mpr ⟨after, hown, rfl⟩⟩
      · rw [if_neg hlt]
        obtain ⟨v, state⟩ := s
        obtain rfl : v = u := le_antisymm (intoLedger_le hcarry) (not_lt.mp hlt)
        have hsame := (intoLedger_self state).symm.trans hcarry
        cases hsame
        exact bind_eq_ok.mpr ⟨after, hown, rfl⟩
    rw [List.foldlM_cons, hstep]
    exact ih e.id

end Events

section Dust

variable {v : LedgerVersion}

end Dust

section Commits

/-- What a `pending.json` that the generation `written` wrote holds for a wallet of the
generation `v`. -/
def fromStored (v written : LedgerVersion) (stored : PendingReservations) : PendingReservations :=
  if written ≠ v then .default else stored

variable {v : LedgerVersion} {sync : SyncOptions} {around : Surroundings}

variable [∀ v, DecidableEq (P v)]

end Commits

section Crossing

variable (L)

end Crossing

end MidnightRs.ChainSync
