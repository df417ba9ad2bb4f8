import MidnightRs.ResyncCommits

/-!
Coin registrations under concurrent work. A caller of the wallet holds its sync
lock over a whole call: it copies the state, replays, and commits onto the state
it then finds. No other call changes a registration in between.
-/
namespace MidnightRs.ChainSync

open LedgerReplays Storage Reservations Streams Replay

variable {Z D E P : LedgerVersion → Type}

section Laws

/-- What the chain says about the coins of a wallet: how coins are named, and
which commitments an event creates, which nullifiers it spends, and which coins
the wallet reads out of it with its own keys. -/
structure CoinRules (E : LedgerVersion → Type) where
  commitment : CoinInfo → Commitment
  nullifier : CoinInfo → Nullifier
  creates : ∀ v, E v → Commitment → Prop
  spends : ∀ v, E v → Nullifier → Prop
  discovers : ∀ v, E v → CoinInfo → Prop

/-- How the ledger crates keep a wallet's coins. Registrations and coins are
maps by the coins' names, which tell coins apart and are the same in both
generations, and replaying an output consumes its registration. -/
structure KeepsCoins (L : Ledgers Z D E P) (C : CoinRules E) : Prop where
  sameCommitment : ∀ v coin, L.commitment v coin = C.commitment coin
  commitmentInj : ∀ coin coin', C.commitment coin = C.commitment coin' → coin = coin'
  pendingKeys : ∀ v z, ∀ e ∈ L.pendingOutputs v z, e.1 = C.commitment e.2
  coinKeys : ∀ v z, ∀ e ∈ L.coins v z, e.1 = C.nullifier e.2
  coinsNodup : ∀ v z, ((L.coins v z).map Prod.fst).Nodup
  newPending : ∀ v, L.pendingOutputs v (L.newZswap v) = []
  watchPending : ∀ v z coin e, e ∈ L.pendingOutputs v (L.watchFor v z coin) ↔
    e = (C.commitment coin, coin) ∨ e ∈ L.pendingOutputs v z
  watchCoins : ∀ v z coin, L.coins v (L.watchFor v z coin) = L.coins v z
  removePending : ∀ v z k e, e ∈ L.pendingOutputs v (L.removePendingOutput v z k) ↔
    e ∈ L.pendingOutputs v z ∧ e.1 ≠ k
  removeCoins : ∀ v z k, L.coins v (L.removePendingOutput v z k) = L.coins v z
  replayPending : ∀ v z ev z', L.replayZswap v z [ev] = .ok z' → ∀ e,
    e ∈ L.pendingOutputs v z' ↔ e ∈ L.pendingOutputs v z ∧ ¬ C.creates v ev e.1
  replayCoins : ∀ v z ev z', L.replayZswap v z [ev] = .ok z' → ∀ coin,
    (C.nullifier coin, coin) ∈ L.coins v z' ↔ ¬ C.spends v ev (C.nullifier coin) ∧
      ((C.nullifier coin, coin) ∈ L.coins v z ∨ C.creates v ev (C.commitment coin) ∧
        ((C.commitment coin, coin) ∈ L.pendingOutputs v z ∨ C.discovers v ev coin))
  forkPending : ∀ z z', L.oldToNew z = .ok z' → L.pendingOutputs .V9 z' = L.pendingOutputs .V8 z
  forkCoins : ∀ z z', L.oldToNew z = .ok z' → L.coins .V9 z' = L.coins .V8 z

end Laws

section Played

variable (L : Ledgers Z D E P)

/-- What a shielded state becomes over events, each in its own generation. -/
inductive Played : ZswapState Z → List (Σ v, E v) → ZswapState Z → Prop
  | nil (s : ZswapState Z) : Played s [] s
  | event {v : LedgerVersion} {z z' : Z v} {ev : E v} {evs : List (Σ v, E v)} {t : ZswapState Z}
      (h : L.replayZswap v z [ev] = .ok z') (rest : Played ⟨v, z'⟩ evs t) :
      Played ⟨v, z⟩ (⟨v, ev⟩ :: evs) t
  | fork {z : Z .V8} {z' : Z .V9} {evs : List (Σ v, E v)} {t : ZswapState Z}
      (h : L.oldToNew z = .ok z') (rest : Played ⟨.V9, z'⟩ evs t) : Played ⟨.V8, z⟩ evs t

variable {L} {s t u : ZswapState Z} {evs evs' : List (Σ v, E v)}

theorem Played.append (h : Played L s evs t) (h' : Played L t evs' u) :
    Played L s (evs ++ evs') u := by
  induction h with
  | nil s => exact h'
  | event hev rest ih => exact .event hev (ih h')
  | fork hfork rest ih => exact .fork hfork (ih h')

/-- A batch is its events one after the other. -/
theorem played_batch (hL : L.Lawful) {v : LedgerVersion} {z z' : Z v} {batch : List (E v)}
    (h : L.replayZswap v z batch = .ok z') : Played L ⟨v, z⟩ (batch.map (Sigma.mk v)) ⟨v, z'⟩ := by
  induction batch generalizing z with
  | nil =>
    rw [(hL.zswap v).nil] at h
    cases h
    exact .nil _
  | cons ev batch ih =>
    have hsplit := (hL.zswap v).append z [ev] batch
    rw [List.singleton_append, h] at hsplit
    obtain ⟨mid, hmid, hrest⟩ := bind_eq_ok.mp hsplit.symm
    exact .event hmid (ih hrest)

theorem played_intoLedger {v : LedgerVersion} {z : Z v} (h : intoLedger L s v = .ok z) :
    Played L s [] ⟨v, z⟩ := by
  obtain ⟨v₀, z₀⟩ := s
  cases v₀ with
  | V8 =>
    cases v with
    | V8 =>
      cases h
      exact .nil _
    | V9 =>
      simp only [intoLedger] at h
      cases hfork : L.oldToNew z₀ with
      | error e =>
        rw [hfork] at h
        cases h
      | ok z' =>
        rw [hfork] at h
        cases h
        exact .fork hfork (.nil _)
  | V9 =>
    cases v with
    | V8 => cases h
    | V9 =>
      cases h
      exact .nil _

/-- An event handed over waits, or the batch that it fills is replayed. -/
theorem zswapApply_state (hL : L.Lawful) {v : LedgerVersion} (size : ℕ) (s : Waiting (Z v) (E v))
    (id : ℤ) (raw : Bytes) (ledger : LedgerVersion) :
    ∃ batch, L.replayZswap v s.state batch = .ok (zswapApply L v size s id raw ledger).1.state := by
  have hnone : ∃ batch, L.replayZswap v s.state batch = .ok s.state := ⟨[], (hL.zswap v).nil _⟩
  unfold zswapApply
  cases Store.expectLedger v ledger with
  | error e => exact hnone
  | ok u =>
    cases L.decode v raw "zswap" with
    | error e => exact hnone
    | ok ev =>
      simp only
      by_cases hfull : (s.batch.push id ev).isFull size = true
      · rw [if_pos hfull]
        cases hbatch : (s.batch.push id ev).applyZswap L v s.state with
        | error e => exact hnone
        | ok out => exact ⟨_, (ReplayBatch.apply_ok (hL.zswap v) hbatch).1⟩
      · rw [if_neg hfull]
        exact hnone

/-- Whatever the indexer answers, a replay of the shielded stream plays events. -/
theorem replayZswapEvents_played (hL : L.Lawful) {v : LedgerVersion} {z : Z v} {startId : ℤ}
    {resuming : Bool} {answers : Answers} {size : ℕ} {r : ZswapReplay (Z v)}
    (h : replayZswapEvents L v z startId resuming answers size = some (.ok r)) :
    ∃ evs, Played L ⟨v, z⟩ evs ⟨v, r.state⟩ := by
  have hsink := @replayAgainst_invariant _ (zswapArgs L v size startId resuming) ⟨z, .new⟩
    (fun s => ∃ evs, L.replayZswap v z evs = .ok s.state) ⟨[], (hL.zswap v).nil z⟩ (by
      rintro s id raw ledger ⟨evs, hevs⟩
      obtain ⟨batch, hbatch⟩ := zswapApply_state hL size s id raw ledger
      refine ⟨evs ++ batch, ?_⟩
      rw [(hL.zswap v).append, hevs]
      exact hbatch) answers
  unfold replayZswapEvents at h
  split at h
  · cases h
  · cases h
  · rename_i st r' hout
    rw [hout] at hsink
    obtain ⟨evs, hevs⟩ := hsink
    obtain ⟨state, hsettle, hr⟩ := bind_eq_ok.mp (Option.some.inj h)
    cases hr
    obtain ⟨out, happly, hstate⟩ := bind_eq_ok.mp hsettle
    cases hstate
    have hall : L.replayZswap v z (evs ++ st.sink.batch.events) = .ok out.1 := by
      rw [(hL.zswap v).append, hevs]
      exact (ReplayBatch.apply_ok (hL.zswap v) happly).1
    exact ⟨_, played_batch hL hall⟩

theorem replayZswap_played (hL : L.Lawful) {rounds : List Answers} {startId : ℤ} {resuming : Bool}
    {size : ℕ} {out : ZswapState Z × ℤ}
    (h : replayZswap L s startId resuming rounds size = some (.ok out)) :
    ∃ evs, Played L s evs out.1 := by
  induction rounds generalizing s startId with
  | nil => cases h
  | cons answers rounds ih =>
    obtain ⟨v, z⟩ := s
    rw [replayZswap] at h
    obtain ⟨r, hreplay, hrest⟩ := andThen_ok h
    obtain ⟨evs, hplayed⟩ := replayZswapEvents_played hL hreplay
    cases hlater : r.laterLedger with
    | none =>
      rw [hlater] at hrest
      cases hrest
      exact ⟨evs, hplayed⟩
    | some fork =>
      obtain ⟨id, found⟩ := fork
      rw [hlater] at hrest
      simp only at hrest
      cases hinto : intoLedger L ⟨v, r.state⟩ found with
      | error e =>
        rw [hinto] at hrest
        cases hrest
      | ok state =>
        rw [hinto] at hrest
        obtain ⟨evs', hplayed'⟩ := ih hrest
        exact ⟨evs ++ ([] ++ evs'), hplayed.append ((played_intoLedger hinto).append hplayed')⟩

end Played

section Landing

/-- The shielded part of a wallet's state. -/
def State.shielded (s : State Z D P) : ZswapState Z := ⟨s.1, s.2.zswapState⟩

variable (L : Ledgers Z D E P)

/-- What an edit brings to its commit: what its replay reached, or the coins of
one write. -/
inductive Landing (Z D P : LedgerVersion → Type) where
  | resync (c : Commit Z D P)
  | rescan (v : LedgerVersion) (c : RescanCommit Z v)
  | watch (coins : List CoinInfo)
  | forget (coins : List CoinInfo)

/-- The shielded state that a resync reached. -/
def Commit.shielded : Commit Z D P → ZswapState Z
  | .delta v c => ⟨v, c.zswapState⟩
  | .crossed w => ⟨.V9, w.zswapState⟩
  | .rebuilt new => new.shielded

/-- The replay of an edit, from the copy of the state that its plan took. -/
def Edit.replay (plan : State Z D P) : Edit → Awaited (Landing Z D P)
  | .resync around => andThen (runResync L plan around) (fun c => some (.ok (.resync c)))
  | .rebuild around => andThen (runRebuild L plan around) (fun c => some (.ok (.resync c)))
  | .rescan around => andThen (runRescan L plan.1 plan.2.zswapState around) (fun c =>
      some (.ok (.rescan plan.1 c)))
  | .watch coins => some (.ok (.watch coins))
  | .forget coins => some (.ok (.forget coins))

/-- The commit onto the state that it finds. -/
def Landing.commit [∀ v, DecidableEq (P v)] (s : State Z D P) :
    Landing Z D P → Except WalletError (State Z D P × Bool)
  | .resync c => commitResync L s c
  | .rescan v c =>
    match v, c, s with
    | .V8, c, ⟨.V8, w⟩ => .ok (⟨.V8, (w.commitShieldedRescan c).1⟩, (w.commitShieldedRescan c).2)
    | .V9, c, ⟨.V9, w⟩ => .ok (⟨.V9, (w.commitShieldedRescan c).1⟩, (w.commitShieldedRescan c).2)
    | found, _, s => .error (.ledgerMismatch s.1 found)
  | .watch coins => .ok (⟨s.1, (s.2.watchForCoins L coins).1⟩, (s.2.watchForCoins L coins).2)
  | .forget coins => .ok (⟨s.1, (s.2.forgetCoins L coins).1⟩, (s.2.forgetCoins L coins).2)

/-- What an edit makes of the shielded state its plan copied, and the events it
takes. A rebuild and a rescan start from a state that only registers coins. -/
def Takes (plan : State Z D P) (evs : List (Σ v, E v)) (t : ZswapState Z) : Edit → Prop
  | .resync _ => Played L plan.shielded evs t
  | .rebuild _ =>
    Played L ⟨.V8, registering L .V8 (coinsToRegister L plan.1 plan.2.zswapState)⟩ evs t
  | .rescan _ =>
    ∃ v, Played L ⟨v, registering L v (coinsToRegister L plan.1 plan.2.zswapState)⟩ evs t
  | .watch coins => evs = [] ∧ t = ⟨plan.1, coins.foldl (L.watchFor plan.1) plan.2.zswapState⟩
  | .forget coins => evs = [] ∧ t = ⟨plan.1, (Wallet.forgetAll L plan.2.zswapState coins).1⟩

variable {L}

theorem finishSync_zswap {v : LedgerVersion} {sync : SyncOptions} {block : Block}
    {start : SyncStart Z D v} {around : Surroundings} {w : Wallet Z D P v}
    (h : (finishSync L sync block start around).2 = some (.ok w)) :
    w.zswapState = start.zswapState := by
  unfold finishSync at h
  cases hparameters : decodeLedgerParameters L v block with
  | error e =>
    rw [hparameters] at h
    cases h
  | ok parameters =>
    cases htime : blockTime block with
    | error e =>
      rw [hparameters, htime] at h
      cases h
    | ok time =>
      rw [hparameters, htime] at h
      simp only at h
      generalize hassembled : andThen _ _ = assembled at h
      obtain rfl := saveSynced_ok h
      obtain ⟨dust, -, hfinish⟩ := andThen_ok hassembled
      have hfinish := Option.some.inj hfinish
      unfold finishDust at hfinish
      split at hfinish
      · cases hfinish
      split at hfinish
      · split at hfinish
        · cases hfinish
        · cases hfinish
          rfl
      · cases hfinish
        rfl

theorem syncOnChain_played (hL : L.Lawful) {sync : SyncOptions} {block : Block} {start : Start Z D}
    {around : Surroundings} {s : State Z D P}
    (h : (syncOnChain L sync block start around).2 = some (.ok s)) :
    ∃ evs, Played L start.zswap evs s.shielded := by
  obtain ⟨v, hledger, shielded, tracked, hjoin, z, hz⟩ := syncOnChain_reaches (Or.inr ⟨s, h⟩)
  rw [syncOnChain_eq hledger hjoin hz] at h
  simp only at h
  obtain ⟨w, hfinished, hw⟩ := andThen_ok h
  cases hw
  obtain ⟨evs, hplayed⟩ := replayZswap_played hL (tryJoin_ok hjoin).1
  refine ⟨evs ++ [], hplayed.append ?_⟩
  show Played L shielded.1 [] ⟨v, w.zswapState⟩
  rw [finishSync_zswap hfinished]
  exact played_intoLedger hz

theorem runRescan_played (hL : L.Lawful) {v : LedgerVersion} {zswap : Z v} {around : RescanAround}
    {c : RescanCommit Z v} (h : runRescan L v zswap around = some (.ok c)) :
    ∃ u evs, Played L ⟨u, registering L u (coinsToRegister L v zswap)⟩ evs ⟨v, c.zswapState⟩ := by
  unfold runRescan at h
  simp only at h
  split at h
  · split at h
    · obtain ⟨out, hreplay, hinto⟩ := andThen_ok h
      obtain ⟨evs, hplayed⟩ := replayZswap_played hL hreplay
      cases hstate : intoLedger L out.1 v with
      | error e =>
        rw [hstate] at hinto
        cases hinto
      | ok state =>
        rw [hstate] at hinto
        cases hinto
        exact ⟨.V8, evs ++ [], hplayed.append (played_intoLedger hstate)⟩
    · cases h
  · obtain ⟨r, hreplay, hlater⟩ := andThen_ok h
    obtain ⟨evs, hplayed⟩ := replayZswapEvents_played hL hreplay
    split at hlater
    · cases hlater
    · cases hlater
      exact ⟨v, evs, hplayed⟩

variable [∀ v, DecidableEq (P v)]

omit [∀ v, DecidableEq (P v)] in
theorem adopt_shielded (s new : State Z D P) : (adopt s new).shielded = new.shielded :=
  congrArg (fun stored : Stored Z D => (⟨stored.1, stored.2.zswapState⟩ : ZswapState Z))
    (adopt_wallet s new).2.2

theorem commitResync_shielded {s s' : State Z D P} {c : Commit Z D P} {changed : Bool}
    (h : commitResync L s c = .ok (s', changed)) :
    s'.shielded = c.shielded := by
  cases c with
  | delta v c =>
    obtain ⟨u, w⟩ := s
    cases u with
    | V8 =>
      cases v with
      | V8 =>
        cases h
        rfl
      | V9 => cases h
    | V9 =>
      cases v with
      | V8 => cases h
      | V9 =>
        cases h
        rfl
  | crossed crossed =>
    obtain ⟨u, w⟩ := s
    cases u with
    | V9 => cases h
    | V8 =>
      cases h
      show (⟨.V9, (keepPin w crossed).zswapState⟩ : ZswapState Z) = _
      unfold keepPin
      cases w.chainPin with
      | none => rfl
      | some pin => rfl
  | rebuilt new =>
    have hadopt : s' = adopt s new := by
      obtain ⟨u, w⟩ := s
      cases u with
      | V8 =>
        cases h
        rfl
      | V9 =>
        cases h
        rfl
    rw [hadopt]
    exact adopt_shielded s new

theorem rescan_shielded {s s' : State Z D P} {v : LedgerVersion} {c : RescanCommit Z v}
    {changed : Bool} (h : (Landing.rescan v c).commit L s = .ok (s', changed)) :
    s'.shielded = ⟨v, c.zswapState⟩ := by
  obtain ⟨u, w⟩ := s
  cases u with
  | V8 =>
    cases v with
    | V8 =>
      cases h
      rfl
    | V9 => cases h
  | V9 =>
    cases v with
    | V8 => cases h
    | V9 =>
      cases h
      rfl

/-- What a commit does to the shielded state, when that is still the one its
plan copied. -/
theorem landing_takes (hL : L.Lawful) {plan s s' : State Z D P} {edit : Edit}
    {landing : Landing Z D P} {changed : Bool} (hsame : s.shielded = plan.shielded)
    (hreplay : edit.replay L plan = some (.ok landing))
    (hcommit : landing.commit L s = .ok (s', changed)) :
    ∃ evs, Takes L plan evs s'.shielded edit := by
  cases edit with
  | resync around =>
    obtain ⟨c, hrun, hlanding⟩ := andThen_ok hreplay
    cases hlanding
    have hshielded := commitResync_shielded hcommit
    rcases runResync_ok L hrun with ⟨v, w, c, rfl, rfl, hplan⟩ | ⟨w, block, rfl, hcross, -⟩
    · obtain ⟨d, z, u, -, hzswap, -, hcommitted⟩ := runPlan_ok hplan none
      obtain ⟨evs, hplayed⟩ := replayZswapEvents_played hL hzswap
      have hstate : c.zswapState = z.state := congrArg Snapshot.zswapState hcommitted
      rw [hshielded, Commit.shielded, hstate]
      exact ⟨evs, hplayed⟩
    · obtain ⟨crossed, rfl, hsync⟩ := cross_ok hcross
      obtain ⟨evs, hplayed⟩ := syncOnChain_played hL hsync
      rw [hshielded]
      exact ⟨evs, hplayed⟩
  | rebuild around =>
    obtain ⟨c, hrun, hlanding⟩ := andThen_ok hreplay
    cases hlanding
    have hshielded := commitResync_shielded hcommit
    obtain ⟨new, block, rest, rfl, -, hsync⟩ := runRebuild_ok hrun
    obtain ⟨evs, hplayed⟩ := syncOnChain_played hL hsync
    rw [hshielded]
    exact ⟨evs, hplayed⟩
  | rescan around =>
    obtain ⟨c, hrun, hlanding⟩ := andThen_ok hreplay
    cases hlanding
    obtain ⟨u, evs, hplayed⟩ := runRescan_played hL hrun
    rw [rescan_shielded hcommit]
    exact ⟨evs, u, hplayed⟩
  | watch coins =>
    cases hreplay
    cases hcommit
    exact ⟨[], rfl, congrArg (fun z : ZswapState Z =>
      (⟨z.1, coins.foldl (L.watchFor z.1) z.2⟩ : ZswapState Z)) hsame⟩
  | forget coins =>
    cases hreplay
    cases hcommit
    exact ⟨[], rfl, congrArg (fun z : ZswapState Z =>
      (⟨z.1, (Wallet.forgetAll L z.2 coins).1⟩ : ZswapState Z)) hsame⟩

end Landing

section Coins

variable (L : Ledgers Z D E P) (C : CoinRules E)

def Registered (s : ZswapState Z) (coin : CoinInfo) : Prop :=
  (C.commitment coin, coin) ∈ L.pendingOutputs s.1 s.2

def Held (s : ZswapState Z) (coin : CoinInfo) : Prop :=
  (C.nullifier coin, coin) ∈ L.coins s.1 s.2

/-- The coins of the wallet name this one exactly once. -/
def HeldOnce (s : ZswapState Z) (coin : CoinInfo) : Prop :=
  ((L.coins s.1 s.2).map Prod.snd).count coin = 1

def Creates (evs : List (Σ v, E v)) (coin : CoinInfo) : Prop :=
  ∃ ev ∈ evs, C.creates ev.1 ev.2 (C.commitment coin)

def Spends (evs : List (Σ v, E v)) (coin : CoinInfo) : Prop :=
  ∃ ev ∈ evs, C.spends ev.1 ev.2 (C.nullifier coin)

variable {L C} {s t : ZswapState Z} {evs : List (Σ v, E v)} {coin : CoinInfo}

theorem creates_cons {ev : Σ v, E v} : Creates C (ev :: evs) coin ↔
    C.creates ev.1 ev.2 (C.commitment coin) ∨ Creates C evs coin := by
  simp [Creates]

theorem spends_cons {ev : Σ v, E v} : Spends C (ev :: evs) coin ↔
    C.spends ev.1 ev.2 (C.nullifier coin) ∨ Spends C evs coin := by
  simp [Spends]

/-- A registration lasts until its output is replayed. -/
theorem Played.registered_iff (hC : KeepsCoins L C) (h : Played L s evs t) :
    Registered L C t coin ↔ Registered L C s coin ∧ ¬ Creates C evs coin := by
  induction h with
  | nil s => simp [Creates]
  | @event v z z' ev evs t hev rest ih =>
    have hstep : Registered L C ⟨v, z'⟩ coin ↔
        Registered L C ⟨v, z⟩ coin ∧ ¬ C.creates v ev (C.commitment coin) :=
      hC.replayPending v z ev z' hev _
    rw [ih, hstep, creates_cons, not_or, and_assoc]
  | @fork z z' evs t hfork rest ih =>
    have hstep : Registered L C ⟨.V9, z'⟩ coin ↔ Registered L C ⟨.V8, z⟩ coin := by
      unfold Registered
      rw [hC.forkPending z z' hfork]
    rw [ih, hstep]

/-- A coin that is held, or whose registration meets its output, is held at the
end unless it is spent. -/
theorem Played.held (hC : KeepsCoins L C) (h : Played L s evs t) (hspends : ¬ Spends C evs coin)
    (hs : Held L C s coin ∨ Registered L C s coin ∧ Creates C evs coin) : Held L C t coin := by
  induction h with
  | nil s =>
    rcases hs with hheld | ⟨-, hcreates⟩
    · exact hheld
    · simp [Creates] at hcreates
  | @event v z z' ev evs t hev rest ih =>
    rw [spends_cons, not_or] at hspends
    have hstep : Held L C ⟨v, z⟩ coin ∨
        Registered L C ⟨v, z⟩ coin ∧ C.creates v ev (C.commitment coin) →
        Held L C ⟨v, z'⟩ coin := by
      intro hclaim
      refine (hC.replayCoins v z ev z' hev coin).mpr ⟨hspends.1, ?_⟩
      rcases hclaim with hheld | ⟨hreg, hcreates⟩
      · exact Or.inl hheld
      · exact Or.inr ⟨hcreates, Or.inl hreg⟩
    refine ih hspends.2 ?_
    rcases hs with hheld | ⟨hreg, hcreates⟩
    · exact Or.inl (hstep (Or.inl hheld))
    by_cases hnow : C.creates v ev (C.commitment coin)
    · exact Or.inl (hstep (Or.inr ⟨hreg, hnow⟩))
    · refine Or.inr ⟨?_, (creates_cons.mp hcreates).resolve_left hnow⟩
      exact (hC.replayPending v z ev z' hev _).mpr ⟨hreg, hnow⟩
  | @fork z z' evs t hfork rest ih =>
    have hheld : Held L C ⟨.V9, z'⟩ coin ↔ Held L C ⟨.V8, z⟩ coin := by
      unfold Held
      rw [hC.forkCoins z z' hfork]
    have hreg : Registered L C ⟨.V9, z'⟩ coin ↔ Registered L C ⟨.V8, z⟩ coin := by
      unfold Registered
      rw [hC.forkPending z z' hfork]
    rw [← hheld, ← hreg] at hs
    exact ih hspends hs

theorem Held.once (hC : KeepsCoins L C) (h : Held L C s coin) : HeldOnce L s coin := by
  have hkeys : (L.coins s.1 s.2).map Prod.fst =
      ((L.coins s.1 s.2).map Prod.snd).map C.nullifier := by
    rw [List.map_map]
    exact List.map_congr_left (fun e he => hC.coinKeys s.1 s.2 e he)
  have hnodup := hC.coinsNodup s.1 s.2
  rw [hkeys] at hnodup
  exact List.count_eq_one_of_mem hnodup.of_map (List.mem_map_of_mem h)

theorem registered_watch (hC : KeepsCoins L C) (v : LedgerVersion) (z : Z v)
    (coins : List CoinInfo) :
    Registered L C ⟨v, coins.foldl (L.watchFor v) z⟩ coin ↔
      coin ∈ coins ∨ Registered L C ⟨v, z⟩ coin := by
  induction coins generalizing z with
  | nil => simp
  | cons x coins ih =>
    have hwatch : Registered L C ⟨v, L.watchFor v z x⟩ coin ↔
        coin = x ∨ Registered L C ⟨v, z⟩ coin := by
      refine (hC.watchPending v z x _).trans (or_congr_left ⟨?_, ?_⟩)
      · intro heq
        exact (Prod.mk.inj heq).2
      · rintro rfl
        rfl
    rw [List.foldl_cons, ih, hwatch, List.mem_cons, or_left_comm, or_assoc]

theorem registered_registering (hC : KeepsCoins L C) (v : LedgerVersion) (coins : List CoinInfo) :
    Registered L C ⟨v, registering L v coins⟩ coin ↔ coin ∈ coins := by
  have hnew : ¬ Registered L C ⟨v, L.newZswap v⟩ coin := by
    unfold Registered
    rw [hC.newPending]
    exact List.not_mem_nil
  unfold registering
  rw [registered_watch hC, or_iff_left hnew]

/-- A rebuilt state is told about the registrations and the coins held. -/
theorem mem_coinsToRegister (hC : KeepsCoins L C) (s : ZswapState Z) :
    coin ∈ coinsToRegister L s.1 s.2 ↔ Registered L C s coin ∨ Held L C s coin := by
  unfold coinsToRegister Registered Held
  rw [List.mem_append, List.mem_map, List.mem_map]
  refine or_congr ⟨?_, ?_⟩ ⟨?_, ?_⟩
  · rintro ⟨⟨k, x⟩, hmem, rfl⟩
    have hk : k = C.commitment x := hC.pendingKeys _ _ _ hmem
    exact hk ▸ hmem
  · intro hmem
    exact ⟨_, hmem, rfl⟩
  · rintro ⟨⟨n, x⟩, hmem, rfl⟩
    have hn : n = C.nullifier x := hC.coinKeys _ _ _ hmem
    exact hn ▸ hmem
  · intro hmem
    exact ⟨_, hmem, rfl⟩

theorem registered_forgetCoin (hC : KeepsCoins L C) (v : LedgerVersion) (z : Z v) (x : CoinInfo) :
    Registered L C ⟨v, (Wallet.forgetCoin L z x).1⟩ coin ↔
      Registered L C ⟨v, z⟩ coin ∧ coin ≠ x := by
  have hname : C.commitment coin ≠ L.commitment v x ↔ coin ≠ x := by
    rw [hC.sameCommitment]
    exact ⟨fun h heq => h (heq ▸ rfl), fun h heq => h (hC.commitmentInj _ _ heq)⟩
  unfold Wallet.forgetCoin
  simp only
  split
  case isTrue hany =>
    refine (hC.removePending v z _ _).trans ?_
    exact and_congr_right (fun _ => hname)
  case isFalse hany =>
    refine ⟨fun hreg => ⟨hreg, ?_⟩, fun h => h.1⟩
    rintro rfl
    refine hany (List.any_eq_true.mpr ⟨_, hreg, ?_⟩)
    simp [hC.sameCommitment]

theorem registered_forget (hC : KeepsCoins L C) (v : LedgerVersion) (z : Z v)
    (coins : List CoinInfo) :
    Registered L C ⟨v, (Wallet.forgetAll L z coins).1⟩ coin ↔
      Registered L C ⟨v, z⟩ coin ∧ coin ∉ coins := by
  have hfold : ∀ (coins : List CoinInfo) (out : Z v × Bool),
      Registered L C ⟨v, (coins.foldl (fun out coin => ((Wallet.forgetCoin L out.1 coin).1,
        out.2 || (Wallet.forgetCoin L out.1 coin).2)) out).1⟩ coin ↔
      Registered L C ⟨v, out.1⟩ coin ∧ coin ∉ coins := by
    intro coins
    induction coins with
    | nil => simp
    | cons x coins ih =>
      intro out
      rw [List.foldl_cons, ih, registered_forgetCoin hC, List.mem_cons, not_or, and_assoc]
  exact hfold coins (z, false)

/-- A state rebuilt over events holds, or still registers, each coin that the
wallet registered or held, unless the events spend it. -/
theorem Played.rebuilt (hC : KeepsCoins L C) {v : LedgerVersion} {plan : State Z D P}
    (h : Played L ⟨v, registering L v (coinsToRegister L plan.1 plan.2.zswapState)⟩ evs t)
    (hplan : Registered L C plan.shielded coin ∨ Held L C plan.shielded coin) :
    (¬ Creates C evs coin → Registered L C t coin) ∧
      (Creates C evs coin → ¬ Spends C evs coin → Held L C t coin) := by
  have hstart : Registered L C
      ⟨v, registering L v (coinsToRegister L plan.1 plan.2.zswapState)⟩ coin :=
    (registered_registering hC v _).mpr ((mem_coinsToRegister hC plan.shielded).mpr hplan)
  refine ⟨?_, ?_⟩
  · intro hnot
    exact (h.registered_iff hC).mpr ⟨hstart, hnot⟩
  · intro hcreates hspends
    exact h.held hC hspends (Or.inr ⟨hstart, hcreates⟩)

variable {plan : State Z D P} {edit : Edit}

/-- An edit keeps a registration that it does not forget, until the output. -/
theorem takes_registered (hC : KeepsCoins L C) (h : Takes L plan evs t edit)
    (hplan : Registered L C plan.shielded coin)
    (hforget : ∀ coins, edit = .forget coins → coin ∉ coins) :
    Registered L C t coin ∨ Creates C evs coin := by
  by_cases hcreates : Creates C evs coin
  · exact Or.inr hcreates
  refine Or.inl ?_
  cases edit with
  | resync around =>
    have h : Played L plan.shielded evs t := h
    exact (h.registered_iff hC).mpr ⟨hplan, hcreates⟩
  | rebuild around => exact (Played.rebuilt hC h (Or.inl hplan)).1 hcreates
  | rescan around =>
    obtain ⟨v, h⟩ := h
    exact (Played.rebuilt hC h (Or.inl hplan)).1 hcreates
  | watch coins =>
    obtain ⟨-, rfl⟩ := h
    exact (registered_watch hC _ _ coins).mpr (Or.inr hplan)
  | forget coins =>
    obtain ⟨-, rfl⟩ := h
    exact (registered_forget hC _ _ coins).mpr ⟨hplan, hforget coins rfl⟩

/-- An edit registers a coin only where it watches for it, or where the wallet
registered or held it. -/
theorem takes_unregistered (hC : KeepsCoins L C) (h : Takes L plan evs t edit)
    (hregistered : ¬ Registered L C plan.shielded coin) (hheld : ¬ Held L C plan.shielded coin)
    (hwatch : ∀ coins, edit = .watch coins → coin ∉ coins) : ¬ Registered L C t coin := by
  have hrebuilt : ∀ v, ¬ Registered L C
      ⟨v, registering L v (coinsToRegister L plan.1 plan.2.zswapState)⟩ coin := by
    intro v hstart
    rcases (mem_coinsToRegister hC plan.shielded).mp ((registered_registering hC v _).mp hstart)
      with h | h
    · exact hregistered h
    · exact hheld h
  intro ht
  cases edit with
  | resync around =>
    have h : Played L plan.shielded evs t := h
    exact hregistered ((h.registered_iff hC).mp ht).1
  | rebuild around => exact hrebuilt .V8 ((Played.registered_iff hC h).mp ht).1
  | rescan around =>
    obtain ⟨v, h⟩ := h
    exact hrebuilt v ((h.registered_iff hC).mp ht).1
  | watch coins =>
    obtain ⟨-, rfl⟩ := h
    rcases (registered_watch hC _ _ coins).mp ht with hmem | hold
    · exact hwatch coins rfl hmem
    · exact hregistered hold
  | forget coins =>
    obtain ⟨-, rfl⟩ := h
    exact hregistered ((registered_forget hC _ _ coins).mp ht).1

end Coins

end MidnightRs.ChainSync
