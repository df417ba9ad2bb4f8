import MidnightRs.DiskFollows
import MidnightRs.Registrations
import MidnightRs.UnshieldedSet

/-!
The reservations across a resync. The replays work on a copy of the state, and
the commit clears from the pending set of the moment what they saw spent. The
builds that follow stay off what is left, except for a Dust registration, which
does not look at the reservations.
-/
namespace MidnightRs.Unshielded

open Loops Utxos Replay

section Reported

variable {utxos : List TrackedUtxo}

/-- The set and the spent keys are those of the transactions applied so far. -/
def Reports (utxos : List TrackedUtxo) (txs : List UnshieldedTxData) (now : List TrackedUtxo)
    (spent : List SpentUtxoKey) : Prop :=
  now = txs.foldl remaining utxos ∧ spent = txs.flatMap spentKeysOf

def StateReports (utxos : List TrackedUtxo) (st : State) : Prop :=
  ∃ txs, Reports utxos txs st.utxos st.spentKeys

def ExitReports (utxos : List TrackedUtxo) : Exit → Prop
  | .reconnect st => StateReports utxos st
  | .finish (.error _) => True
  | .finish (.ok r) => ∃ txs, Reports utxos txs r.utxos r.spent

theorem StateReports.retryOr {st : State} (h : StateReports utxos st) (e : IndexerError) :
    ExitReports utxos (st.retryOr e) := by
  unfold State.retryOr
  split
  · exact h
  · trivial

end Reported

end MidnightRs.Unshielded

namespace MidnightRs.LedgerReplays

open Streams Replay Reservations

section Reported

variable {Z D E P : LedgerVersion → Type} {L : Ledgers Z D E P} {v : LedgerVersion} {size : ℕ}

theorem ReplayBatch.apply_ok {S Ev : Type} {b b' : ReplayBatch Ev} {call : String}
    {replay : S → List Ev → Except String S} (hfold : LeftFold replay) {state state' : S}
    (h : b.apply call replay state = .ok (state', b')) :
    replay state b.events = .ok state' ∧ b'.events = [] := by
  refine ⟨(b.apply_agree call hfold state state').mp ?_, apply_events h⟩
  rw [h]
  rfl

end Reported

end MidnightRs.LedgerReplays

namespace MidnightRs.Ownership

open Loops Reservations WalletBuilds

section LaterBuilds

/-- The builds that came after `wallet` stand apart from what it counted. -/
structure Spared (wallet : Wallet) (w : World) : Prop where
  retains : Retains wallet w.wallet
  started : w.builds ≠ []
  apart : ∀ b ∈ w.builds.tail, Apart wallet b.made

theorem Spared.start (wallet : Wallet) : Spared wallet (World.start wallet) :=
  ⟨Retains.refl wallet, List.cons_ne_nil _ _, fun b hb => by cases hb⟩

theorem Spared.step {wallet : Wallet} {w w' : World} (h : Spared wallet w)
    (hw : Answered [] w w') : Spared wallet w' := by
  cases hw with
  | kept wallet' hret => exact ⟨h.retains.trans hret, h.started, h.apart⟩
  | booked wallet' made spent hret hapart =>
    refine ⟨h.retains.trans hret, List.append_ne_nil_of_left_ne_nil h.started _, fun b hb => ?_⟩
    rw [World.booked, List.tail_append_of_ne_nil h.started] at hb
    rcases List.mem_append.mp hb with hb | hb
    · exact h.apart b hb
    · obtain rfl := List.mem_singleton.mp hb
      exact hapart.apart.mono h.retains

end LaterBuilds

end MidnightRs.Ownership

namespace MidnightRs.ChainSync

open LedgerReplays Storage Reservations Loops Ownership

variable {Z D E P : LedgerVersion → Type}

section Builds

variable (L : Ledgers Z D E P) (dustOf : ∀ v, D v → WalletBuilds.DustWallet) {v : LedgerVersion}

end Builds

section Commits

variable (L : Ledgers Z D E P) {v : LedgerVersion}

/-- The transactions and the Dust events that a plan replayed from its copy. -/
structure Replayed (plan : Snapshot Z D v) (c : ResyncCommit Z D P v)
    (txs : List Unshielded.UnshieldedTxData) (evs : List (E v)) : Prop where
  utxos : c.unshieldedUtxos = txs.foldl Unshielded.remaining plan.unshieldedUtxos
  dust : L.replayDust v plan.dustWallet evs = .ok c.dustWallet

end Commits

section Runs

/-- An indexer that has nothing new. -/
def quiet : Surroundings :=
  ⟨[[fun _ => .serves []]], [fun _ => .serves []], [fun _ => .serves []], true, .ok none, .ok ()⟩

end Runs

end MidnightRs.ChainSync
