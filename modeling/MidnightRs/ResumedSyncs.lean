import MidnightRs.SplitSyncs

/-!
One sync on a chain, its streams taken event by event, and what a later sync
makes of the snapshot it leaves: on a chain that has grown, a resume from the
snapshot is a sync of the whole streams.
-/
namespace MidnightRs.ChainSync

open Streams Replay LedgerReplays Storage Reservations Utxos Unshielded

variable {Z D E P : LedgerVersion → Type}

section OneSync

variable {L : Ledgers Z D E P} {c : Chain} {around : Surroundings} {sync : SyncOptions}
  {start : Start Z D} {zswap dust : List LedgerEvent} {txs : List UnshieldedTxData} {size : ℕ}

theorem dustStart_nextId (chain : LedgerVersion) (nextId : ℤ) (stored : Option (Σ v, D v)) :
    (dustStart chain nextId stored).nextId = nextId := by
  cases stored with
  | none => rfl
  | some s =>
    obtain ⟨v, wallet⟩ := s
    by_cases h : v = chain
    · simp [dustStart, h, DustStart.nextId]
    · simp [dustStart, h, DustStart.nextId]

theorem playFrom_eq {v : LedgerVersion} {block : Block} (hledger : ledgerOf L block = .ok v)
    (start : Start Z D) (zswap dust : List LedgerEvent) (txs : List UnshieldedTxData) :
    playFrom L block start zswap dust txs =
      (crossTo L v start.zswap (lastAppliedBefore start.zswapId) zswap >>= fun shielded =>
      txsPlayed (start.utxos v) (lastAppliedBefore start.txId) start.height txs >>= fun tracked =>
      finishPlayed L block (dustStart v start.dustId start.dust) dust >>= fun d =>
      .ok ⟨v, ⟨shielded.1, d.1, shielded.2, d.2, tracked.lastBlockHeight,
        some tracked.lastTxId, none, tracked.utxos⟩⟩) := by
  unfold playFrom finishPlayed
  rw [hledger, dustStart_nextId]
  simp only [bind_assoc]
  rfl

/-- The shielded and the unshielded replay of a sync, in whatever order they
return. -/
theorem tryJoin_ok {α β : Type} {a : Awaited α} {b : Awaited β} {x : α} {y : β}
    (h : tryJoin a b = some (.ok (x, y))) : a = some (.ok x) ∧ b = some (.ok y) := by
  rcases a with _ | _ | a <;> rcases b with _ | _ | b <;> cases h
  exact ⟨rfl, rfl⟩

/-- What a sync has replayed by the time it starts on the Dust stream. -/
theorem syncOnChain_started (hL : L.Lawful) (hc : c.WellFormed) (haround : c.Surrounds around)
    (hat : Position c start zswap dust txs) {v : LedgerVersion} {shielded : ZswapState Z × ℤ}
    {tracked : UnshieldedReplay}
    (h : tryJoin (replayZswap L start.zswap start.zswapId start.resuming around.zswap size)
      (replayUnshieldedEvents ⟨start.txId, start.resuming⟩ (start.utxos v) start.height
        around.unshielded) = some (.ok (shielded, tracked)))
    {z : Z v} (hz : intoLedger L shielded.1 v = .ok z) :
    crossTo L v start.zswap (lastAppliedBefore start.zswapId) zswap = .ok (z, shielded.2) ∧
      txsPlayed (start.utxos v) (lastAppliedBefore start.txId) start.height txs =
        .ok { tracked with spent := [] } := by
  obtain ⟨hzswap, htxs⟩ := tryJoin_ok h
  obtain ⟨zdone, hzat⟩ := hat.zswap
  obtain ⟨tdone, htat⟩ := hat.txs
  have hcrosses := replayZswap_crosses hL hc.zswap.1 hc.zswap.2 around.zswap haround.zswap
    start.zswap start.zswapId start.resuming hzat hzswap
  have htracks := replay_tracks hc.txs.1 hc.txs.2
    (⟨htat.split, htat.cut, htat.counted⟩ : Unshielded.StartsAfter ⟨start.txId, start.resuming⟩
      c.txs tdone txs) around.unshielded haround.unshielded tracked htxs
  refine ⟨?_, ?_⟩
  · unfold crossTo
    rw [hcrosses]
    simp only [bind, Except.bind, hz]
  · unfold txsPlayed
    rw [show txs.foldlM track ⟨start.utxos v, lastAppliedBefore start.txId, start.height, []⟩ =
      .ok tracked from htracks]
    rfl

/-- The start that a sync hands to its Dust replay. -/
def syncStart (start : Start Z D) {v : LedgerVersion} (z : Z v) (shielded : ZswapState Z × ℤ)
    (tracked : UnshieldedReplay) : SyncStart Z D v :=
  ⟨z, shielded.2, tracked.utxos, tracked.lastTxId, tracked.lastBlockHeight, tracked.spent,
    dustStart v start.dustId start.dust⟩

theorem syncStart_resumes {done : List LedgerEvent}
    (h : Resumes LedgerEvent.id start.dustId c.dust done dust) {v : LedgerVersion} (z : Z v)
    (shielded : ZswapState Z × ℤ) (tracked : UnshieldedReplay) :
    Resumes LedgerEvent.id (syncStart start z shielded tracked).dust.nextId c.dust done dust := by
  have hnext : (syncStart start z shielded tracked).dust.nextId = start.dustId :=
    dustStart_nextId v start.dustId start.dust
  rw [hnext]
  exact h

/-- A sync that gets to its Dust replay. -/
theorem syncOnChain_eq {block : Block} {v : LedgerVersion} (hledger : ledgerOf L block = .ok v)
    {shielded : ZswapState Z × ℤ} {tracked : UnshieldedReplay}
    (hjoin : tryJoin (replayZswap L start.zswap start.zswapId start.resuming around.zswap size)
      (replayUnshieldedEvents ⟨start.txId, start.resuming⟩ (start.utxos v) start.height
        around.unshielded) = some (.ok (shielded, tracked)))
    {z : Z v} (hz : intoLedger L shielded.1 v = .ok z) :
    syncOnChain L sync block start around size =
      ((finishSync L sync block (syncStart start z shielded tracked) around size).1.map (Sigma.mk v),
        andThen (finishSync L sync block (syncStart start z shielded tracked) around size).2
          (fun w => some (.ok ⟨v, w⟩))) := by
  unfold syncOnChain
  rw [hledger]
  simp only [hjoin, hz]
  rfl

/-- A sync that writes or returns something has got to its Dust replay. -/
theorem syncOnChain_reaches {block : Block}
    (h : (syncOnChain L sync block start around size).1 ≠ [] ∨
      ∃ s, (syncOnChain L sync block start around size).2 = some (.ok s)) :
    ∃ v, ledgerOf L block = .ok v ∧ ∃ shielded tracked,
      tryJoin (replayZswap L start.zswap start.zswapId start.resuming around.zswap size)
        (replayUnshieldedEvents ⟨start.txId, start.resuming⟩ (start.utxos v) start.height
          around.unshielded) = some (.ok (shielded, tracked)) ∧
      ∃ z, intoLedger L shielded.1 v = .ok z := by
  unfold syncOnChain at h
  cases hledger : ledgerOf L block with
  | error e =>
    rw [hledger] at h
    simp at h
  | ok v =>
    rw [hledger] at h
    simp only at h
    rcases hjoin : tryJoin (replayZswap L start.zswap start.zswapId start.resuming around.zswap size)
        (replayUnshieldedEvents ⟨start.txId, start.resuming⟩ (start.utxos v) start.height
          around.unshielded) with _ | e | ⟨shielded, tracked⟩
    · rw [hjoin] at h
      simp at h
    · rw [hjoin] at h
      simp at h
    · rw [hjoin] at h
      simp only at h
      cases hz : intoLedger L shielded.1 v with
      | error e =>
        rw [hz] at h
        simp at h
      | ok z => exact ⟨v, rfl, shielded, tracked, hjoin, z, hz⟩

theorem playFrom_started (sync : SyncOptions) {v : LedgerVersion} {block : Block}
    (hledger : ledgerOf L block = .ok v)
    {z : Z v} {shielded : ZswapState Z × ℤ} {tracked : UnshieldedReplay}
    (hzswap : crossTo L v start.zswap (lastAppliedBefore start.zswapId) zswap =
      .ok (z, shielded.2))
    (htxs : txsPlayed (start.utxos v) (lastAppliedBefore start.txId) start.height txs =
      .ok { tracked with spent := [] }) (dust : List LedgerEvent) :
    playFrom L block start zswap dust txs =
      (finishPlayed L block (syncStart start z shielded tracked).dust dust >>= fun d =>
        .ok (unpinned ⟨v, (syncStart start z shielded tracked).snapshot sync.chainPin d⟩)) := by
  rw [playFrom_eq hledger, hzswap, htxs]
  rfl

/-- A sync that returns has taken each of its streams event by event. -/
theorem syncOnChain_ok (hL : L.Lawful) (hc : c.WellFormed) (haround : c.Surrounds around)
    (hat : Position c start zswap dust txs) {s : State Z D P}
    (h : (syncOnChain L sync c.block start around size).2 = some (.ok s)) :
    playFrom L c.block start zswap dust txs = .ok (unpinned ⟨s.1, s.2.snapshot⟩) := by
  obtain ⟨v, hledger, shielded, tracked, hjoin, z, hz⟩ := syncOnChain_reaches (Or.inr ⟨s, h⟩)
  obtain ⟨hzswap, htxs⟩ := syncOnChain_started hL hc haround hat hjoin hz
  obtain ⟨ddone, hdat⟩ := hat.dust
  rw [syncOnChain_eq hledger hjoin hz] at h
  simp only at h
  rcases hfinished : (finishSync L sync c.block (syncStart start z shielded tracked) around size).2 with
    _ | e | w
  · rw [hfinished] at h
    cases h
  · rw [hfinished] at h
    cases h
  · rw [hfinished] at h
    cases h
    obtain ⟨d, hplayed, hsnapshot⟩ :=
      finishSync_ok hL hc haround.dust (syncStart_resumes hdat z shielded tracked) hfinished
    rw [playFrom_started sync hledger hzswap htxs, hplayed]
    simp only [bind, Except.bind, hsnapshot]

/-- A snapshot that a sync hands to the disk has its shielded and unshielded
streams whole, and the Dust stream up to some event. -/
theorem syncOnChain_writes (hL : L.Lawful) (hc : c.WellFormed) (haround : c.Surrounds around)
    (hat : Position c start zswap dust txs) {s : Stored Z D}
    (hs : s ∈ (syncOnChain L sync c.block start around size).1) :
    ∃ early late, early ++ late = dust ∧
      playFrom L c.block start zswap early txs = .ok (unpinned s) := by
  obtain ⟨v, hledger, shielded, tracked, hjoin, z, hz⟩ :=
    syncOnChain_reaches (Or.inl (List.ne_nil_of_mem hs))
  obtain ⟨hzswap, htxs⟩ := syncOnChain_started hL hc haround hat hjoin hz
  obtain ⟨ddone, hdat⟩ := hat.dust
  rw [syncOnChain_eq hledger hjoin hz] at hs
  obtain ⟨snapshot, hsnapshot, rfl⟩ := List.mem_map.mp hs
  obtain ⟨early, late, hsplit, d, hplayed, rfl⟩ :=
    finishSync_writes hL hc haround.dust (syncStart_resumes hdat z shielded tracked) snapshot
      hsnapshot
  refine ⟨early, late, hsplit, ?_⟩
  rw [playFrom_started sync hledger hzswap htxs, hplayed]
  rfl

/-- A sync from genesis waits for a first event, which is to come; one that
resumes does not. -/
theorem Start.quiet (start : Start Z D) {Ev : Type} {id : Ev → ℤ} {startId : ℤ}
    {es done todo : List Ev} (h : Resumes id startId es done todo)
    (hgenesis : start.resuming = false → startId = 0) :
    start.resuming = true ∨ es = [] ∨ todo ≠ [] := by
  cases hresuming : start.resuming with
  | true => exact Or.inl rfl
  | false =>
    have hstart := hgenesis hresuming
    exact h.quiet.imp_left (fun hpos => absurd hpos (by omega))

/-- Uninterrupted, a sync succeeds as its streams do event by event. -/
theorem syncOnChain_serveAll (hL : L.Lawful) (hc : c.WellFormed) (sync : SyncOptions)
    (stored : Option PendingReservations) (hat : Position c start zswap dust txs) :
    ∃ result, (syncOnChain L sync c.block start (c.serveAll stored)).2 = some result ∧
      Agree (result >>= fun s => .ok (unpinned ⟨s.1, s.2.snapshot⟩))
        (playFrom L c.block start zswap dust txs) := by
  obtain ⟨zdone, hzat⟩ := hat.zswap
  obtain ⟨tdone, htat⟩ := hat.txs
  obtain ⟨ddone, hdat⟩ := hat.dust
  cases hledger : ledgerOf L c.block with
  | error e =>
    refine ⟨.error e, ?_, ?_⟩
    · unfold syncOnChain
      rw [hledger]
    · unfold playFrom
      rw [hledger]
      exact .of_error _ _
  | ok v =>
    obtain ⟨shielded, hshielded, hcrosses⟩ := replayZswap_serveAll hL hc.zswap.1 hc.zswap.2
      start.zswap start.zswapId start.resuming hzat
      (start.quiet hzat (fun h => by cases start <;> first | rfl | cases h))
    have htracked : replayUnshieldedEvents ⟨start.txId, start.resuming⟩ (start.utxos v)
        start.height [Unshielded.serveAll c.txs] = some (txs.foldlM track
          (startOf ⟨start.txId, start.resuming⟩ (start.utxos v) start.height)) :=
      Unshielded.replay_serveAll hc.txs.1 hc.txs.2 (⟨htat.split, htat.cut, htat.counted⟩ :
        Unshielded.StartsAfter ⟨start.txId, start.resuming⟩ c.txs tdone txs)
    have hstarted : tryJoin
        (replayZswap L start.zswap start.zswapId start.resuming (c.serveAll stored).zswap)
        (replayUnshieldedEvents ⟨start.txId, start.resuming⟩ (start.utxos v) start.height
          (c.serveAll stored).unshielded) = tryJoin (some shielded) (some (txs.foldlM track
            ⟨start.utxos v, lastAppliedBefore start.txId, start.height, []⟩)) :=
      congrArg₂ tryJoin hshielded htracked
    cases shielded with
    | error e =>
      refine ⟨.error e, ?_, ?_⟩
      · unfold syncOnChain
        simp only [hledger]
        rw [hstarted]
        rfl
      · rw [playFrom_eq hledger]
        unfold crossTo
        cases hfold : zswap.foldlM (crossStep L)
            (start.zswap, lastAppliedBefore start.zswapId) with
        | error e' => exact .of_error _ _
        | ok out =>
          have := (hcrosses out).mpr hfold
          cases this
    | ok shielded =>
      have hfold := (hcrosses shielded).mp rfl
      cases htxs : txs.foldlM track
          ⟨start.utxos v, lastAppliedBefore start.txId, start.height, []⟩ with
      | error e =>
        refine ⟨.error e, ?_, ?_⟩
        · unfold syncOnChain
          simp only [hledger]
          rw [hstarted, htxs]
          rfl
        · rw [playFrom_eq hledger]
          unfold crossTo txsPlayed
          rw [hfold, htxs]
          cases hz : intoLedger L shielded.1 v with
          | error e' =>
            simp only [bind, Except.bind, hz]
            exact .of_error _ _
          | ok z =>
            simp only [bind, Except.bind, hz]
            exact .of_error _ _
      | ok tracked =>
        rw [htxs] at hstarted
        cases hz : intoLedger L shielded.1 v with
        | error e =>
          refine ⟨.error e, ?_, ?_⟩
          · unfold syncOnChain
            simp only [hledger]
            rw [hstarted]
            simp only [tryJoin, hz]
          · rw [playFrom_eq hledger]
            unfold crossTo
            rw [hfold]
            simp only [bind, Except.bind, hz]
            exact .of_error _ _
        | ok z =>
          obtain ⟨result, hresult, hagree⟩ := finishSync_serveAll c.block hL hc sync
            stored (syncStart_resumes hdat z shielded tracked)
          have hzswap : crossTo L v start.zswap (lastAppliedBefore start.zswapId) zswap =
              .ok (z, shielded.2) := by
            unfold crossTo
            rw [hfold]
            simp only [bind, Except.bind, hz]
          have htracks : txsPlayed (start.utxos v) (lastAppliedBefore start.txId) start.height
              txs = .ok { tracked with spent := [] } := by
            unfold txsPlayed
            rw [htxs]
            rfl
          rw [syncOnChain_eq hledger hstarted hz,
            playFrom_started sync hledger hzswap htracks]
          have hpair := hagree.bind (fun snapshot : Snapshot Z D v =>
            Agree.refl (.ok (unpinned ⟨v, snapshot⟩) : Except WalletError _))
          simp only [hresult]
          refine ⟨result >>= fun w => .ok ⟨v, w⟩, ?_, ?_⟩
          · cases result <;> rfl
          · rw [bind_assoc, bind_assoc] at hpair
            rw [bind_assoc]
            exact hpair

end OneSync

section Growing

variable (L : Ledgers Z D E P) (d₀ : ∀ v, D v)

/-- The chain runs the generation `v`, whose Dust state starts as `d₀` says. -/
structure Chain.Runs (c : Chain) (v : LedgerVersion) : Prop where
  ledger : ledgerOf L c.block = .ok v
  dust : ∀ parameters, decodeLedgerParameters L v c.block = .ok parameters →
    L.newDust v parameters = d₀ v

/-- The transactions of a chain of the generation `v` as the indexer shows them
once the chain runs `v'`: the fork emptied the Dust registrations. -/
def shownAfter (v v' : LedgerVersion) (txs : List UnshieldedTxData) : List UnshieldedTxData :=
  if v = .V8 ∧ v' = .V9 then txs.map UnshieldedTxData.unregistered else txs

/-- `c'` is the chain `c` at some later time. -/
structure Grows (c c' : Chain) (v v' : LedgerVersion) : Prop where
  before : c.Runs L d₀ v
  after : c'.Runs L d₀ v'
  ledger : v ≤ v'
  zswap : ∃ new, c.zswap ++ new = c'.zswap ∧ ∀ e ∈ new, NotBefore L v e
  dust : ∃ new, c.dust ++ new = c'.dust
  txs : ∃ new, shownAfter v v' c.txs ++ new = c'.txs

variable {L d₀}

theorem NotBefore.mono {v v' : LedgerVersion} (h : v ≤ v') {e : LedgerEvent}
    (he : NotBefore L v' e) : NotBefore L v e := fun raw u hread => h.trans (he raw u hread)

theorem shownAfter_append (v v' : LedgerVersion) (xs ys : List UnshieldedTxData) :
    shownAfter v v' (xs ++ ys) = shownAfter v v' xs ++ shownAfter v v' ys := by
  unfold shownAfter
  split
  · exact List.map_append
  · rfl

theorem shownAfter_shownAfter {v v' v'' : LedgerVersion} (h : v ≤ v') (h' : v' ≤ v'')
    (txs : List UnshieldedTxData) :
    shownAfter v' v'' (shownAfter v v' txs) = shownAfter v v'' txs := by
  cases v <;> cases v' <;> cases v'' <;> first | rfl | exact absurd h (by decide) |
    exact absurd h' (by decide)

theorem Grows.trans {c c' c'' : Chain} {v v' v'' : LedgerVersion} (h : Grows L d₀ c c' v v')
    (h' : Grows L d₀ c' c'' v' v'') : Grows L d₀ c c'' v v'' := by
  obtain ⟨zs, hzs, hnot⟩ := h.zswap
  obtain ⟨zs', hzs', hnot'⟩ := h'.zswap
  obtain ⟨ds, hds⟩ := h.dust
  obtain ⟨ds', hds'⟩ := h'.dust
  obtain ⟨ts, hts⟩ := h.txs
  obtain ⟨ts', hts'⟩ := h'.txs
  refine ⟨h.before, h'.after, h.ledger.trans h'.ledger, ⟨zs ++ zs', ?_, ?_⟩, ⟨ds ++ ds', ?_⟩,
    ⟨shownAfter v' v'' ts ++ ts', ?_⟩⟩
  · rw [← List.append_assoc, hzs, hzs']
  · intro e he
    rcases List.mem_append.mp he with he | he
    · exact hnot e he
    · exact (hnot' e he).mono h.ledger
  · rw [← List.append_assoc, hds, hds']
  · rw [← List.append_assoc, ← hts', ← hts, shownAfter_append,
      shownAfter_shownAfter h.ledger h'.ledger]

variable (L) in
/-- What the first sync of a wallet starts from. -/
def freshStart : Start Z D := .genesis ⟨.V8, L.newZswap .V8⟩

variable (L) in
/-- One sync over the whole of the chain, event by event. -/
def wholeSync (c : Chain) : Except WalletError (Stored Z D) :=
  playFrom L c.block (freshStart L) c.zswap c.dust c.txs

/-- What a sync of the whole chain leaves. -/
structure Whole (L : Ledgers Z D E P) (c : Chain) (s : Stored Z D) : Prop where
  ledger : ledgerOf L c.block = .ok s.1
  zswap : ∃ shielded, c.zswap.foldlM (crossStep L) (⟨.V8, L.newZswap .V8⟩, 0) =
    .ok (shielded, s.2.zswapEventId) ∧ intoLedger L shielded s.1 = .ok s.2.zswapState
  txs : ∃ lastTxId, s.2.lastTxId = some lastTxId ∧
    txsPlayed [] 0 0 c.txs = .ok ⟨s.2.unshieldedUtxos, lastTxId, s.2.lastBlockHeight, []⟩
  dust : ∃ parameters, decodeLedgerParameters L s.1 c.block = .ok parameters ∧
    dustPlayed L s.1 (L.newDust s.1 parameters) 0 c.dust =
      .ok (s.2.dustWallet, ⟨s.2.dustEventId, none⟩)

theorem play_later {S : Type} {read : LedgerEvent → Except WalletError (Bytes × LedgerVersion)}
    {ledger : LedgerVersion} {step : S → ℤ → Bytes → LedgerVersion → Except WalletError S}
    {s s' : S} {last last' fork : ℤ} {found : LedgerVersion} {es : List LedgerEvent}
    (h : play read ledger step s last es = .ok (s', ⟨last', some (fork, found)⟩)) :
    ledger < found := by
  induction es generalizing s last with
  | nil => cases h
  | cons e es ih =>
    simp only [play] at h
    cases hread : read e with
    | error err =>
      rw [hread] at h
      cases h
    | ok entry =>
      obtain ⟨raw, v⟩ := entry
      rw [hread] at h
      simp only at h
      by_cases hv : ledger < v
      · rw [if_pos hv] at h
        cases h
        exact hv
      · rw [if_neg hv] at h
        cases hstep : step s e.id raw v with
        | error err =>
          rw [hstep] at h
          cases h
        | ok s'' =>
          rw [hstep] at h
          exact ih h

/-- A Dust replay that the sync accepts has met no later generation. -/
theorem dustPlayed_accepted {v : LedgerVersion} {wallet wallet' : D v} {last : ℤ}
    {es : List LedgerEvent} {r : LedgerReplay} (h : dustPlayed L v wallet last es = .ok (wallet', r))
    (hlater : expectNoLater v r.laterLedger = .ok ()) : r.laterLedger = none := by
  obtain ⟨⟨seen, r'⟩, hplay, hout⟩ := bind_eq_ok.mp h
  cases hout
  obtain ⟨last', _ | ⟨fork, found⟩⟩ := r'
  · rfl
  · have hfound := play_later hplay
    have hne : found ≠ v := hfound.ne'
    have hmismatch : expectNoLater v (some (fork, found)) = .error (.ledgerMismatch v found) :=
      if_neg hne
    rw [hmismatch] at hlater
    cases hlater

theorem wholeSync_ok {c : Chain} {s : Stored Z D} (h : wholeSync L c = .ok (unpinned s)) :
    Whole L c s := by
  obtain ⟨v, hledger, h⟩ := bind_eq_ok.mp h
  obtain ⟨⟨z, last⟩, hzswap, h⟩ := bind_eq_ok.mp h
  obtain ⟨⟨us, lastTxId, height, spent⟩, htxs, h⟩ := bind_eq_ok.mp h
  obtain ⟨parameters, hparameters, h⟩ := bind_eq_ok.mp h
  obtain ⟨time, -, h⟩ := bind_eq_ok.mp h
  obtain ⟨⟨wallet, ⟨dustLast, later⟩⟩, hdust, h⟩ := bind_eq_ok.mp h
  obtain ⟨u, hlater, h⟩ := bind_eq_ok.mp h
  obtain ⟨⟨shielded, last'⟩, hfold, hinto⟩ := bind_eq_ok.mp hzswap
  obtain ⟨z', hz, hpair⟩ := bind_eq_ok.mp hinto
  cases hpair
  obtain ⟨w, zswapState, dustWallet, zswapId, dustId, height', txId, pin, utxos⟩ := s
  cases h
  have hnone : later = none := dustPlayed_accepted hdust hlater
  have hspent : spent = [] := by
    obtain ⟨r, -, hr⟩ := bind_eq_ok.mp htxs
    exact (UnshieldedReplay.mk.inj (Except.ok.inj hr)).2.2.2.symm
  refine ⟨hledger, ⟨shielded, hfold, hz⟩, ⟨lastTxId, rfl, ?_⟩, parameters, hparameters, ?_⟩
  · exact hspent ▸ htxs
  · exact hnone ▸ hdust

theorem crossStep_last {s s' : ZswapState Z × ℤ} {e : LedgerEvent}
    (h : crossStep L s e = .ok s') : s'.2 = e.id := by
  unfold crossStep at h
  cases hread : readEvent L.events "zswap" e with
  | error err =>
    rw [hread] at h
    cases h
  | ok entry =>
    obtain ⟨raw, u⟩ := entry
    rw [hread] at h
    simp only at h
    split at h
    · obtain ⟨z, -, h⟩ := bind_eq_ok.mp h
      obtain ⟨z', -, h⟩ := bind_eq_ok.mp h
      cases h
      rfl
    · obtain ⟨z, -, h⟩ := bind_eq_ok.mp h
      cases h
      rfl

/-- The shielded cursor is the id of the last event taken. -/
theorem crossed_lastId {s s' : ZswapState Z × ℤ} {es : List LedgerEvent}
    (h : es.foldlM (crossStep L) s = .ok s') : s'.2 = lastId LedgerEvent.id s.2 es := by
  induction es generalizing s with
  | nil =>
    cases h
    rfl
  | cons e es ih =>
    rw [List.foldlM_cons] at h
    obtain ⟨s₁, hstep, hrest⟩ := bind_eq_ok.mp h
    rw [ih hrest, crossStep_last hstep, lastId_cons]

section Resuming

variable {c₀ c : Chain} {v : LedgerVersion} {s : Stored Z D} (hgrows : Grows L d₀ c₀ c s.1 v)
  (hc : c.WellFormed) (hwhole : Whole L c₀ s)
include hgrows hc hwhole

/-- The shielded stream goes on from the snapshot as from the chain's start. -/
theorem resume_zswap : ∃ new, Resumes LedgerEvent.id (s.2.zswapEventId + 1) c.zswap c₀.zswap new ∧
    crossTo L v ⟨s.1, s.2.zswapState⟩ (lastAppliedBefore (s.2.zswapEventId + 1)) new =
      crossTo L v ⟨.V8, L.newZswap .V8⟩ 0 c.zswap := by
  obtain ⟨new, hnew, hnot⟩ := hgrows.zswap
  obtain ⟨shielded, hfold, hinto⟩ := hwhole.zswap
  have hlast : s.2.zswapEventId = lastId LedgerEvent.id 0 c₀.zswap := crossed_lastId hfold
  have hpos : ∀ e ∈ c₀.zswap, 1 ≤ e.id := by
    intro e he
    exact hc.zswap.2 e (hnew ▸ List.mem_append_left _ he)
  have hresumes : Resumes LedgerEvent.id (lastId LedgerEvent.id 0 c₀.zswap + 1)
      (c₀.zswap ++ new) c₀.zswap new := .after (hnew ▸ hc.zswap.1) (hnew ▸ hc.zswap.2)
  rw [hnew, ← hlast] at hresumes
  refine ⟨new, hresumes, ?_⟩
  rw [lastAppliedBefore_succ (hlast ▸ lastId_nonneg hpos),
    crossTo_carried hinto hgrows.ledger s.2.zswapEventId hnot, ← hnew]
  exact (crossTo_append hfold).symm

/-- The transactions go on from the snapshot as from the chain's start. -/
theorem resume_txs : ∃ done new, Resumes UnshieldedTxData.streamId
      (s.2.lastTxId.elim 0 (· + 1)) c.txs done new ∧
    txsPlayed ((Start.resume s).utxos v) (lastAppliedBefore (s.2.lastTxId.elim 0 (· + 1)))
        s.2.lastBlockHeight new = txsPlayed [] 0 0 c.txs := by
  obtain ⟨new, hnew⟩ := hgrows.txs
  obtain ⟨lastTxId, hlastTxId, hplayed⟩ := hwhole.txs
  have hshown : txsPlayed [] 0 0 (shownAfter s.1 v c₀.txs) =
      .ok ⟨(Start.resume s).utxos v, lastTxId, s.2.lastBlockHeight, []⟩ := by
    unfold shownAfter Start.utxos
    by_cases hfork : s.1 = .V8 ∧ v = .V9
    · simp only [if_pos hfork]
      have h := txsPlayed_unregistered [] 0 0 c₀.txs
      rw [hplayed] at h
      exact h
    · simp only [if_neg hfork]
      exact hplayed
  have hpos : ∀ tx ∈ shownAfter s.1 v c₀.txs, 1 ≤ tx.streamId := by
    intro tx htx
    exact hc.txs.2 tx (hnew ▸ List.mem_append_left _ htx)
  have hasc : Ascending UnshieldedTxData.streamId (shownAfter s.1 v c₀.txs) :=
    (List.pairwise_append.mp (hnew ▸ hc.txs.1)).1
  have hlast := txsPlayed_lastTxId hasc hpos (fun tx htx => by have := hpos tx htx; omega) hshown
  simp only at hlast
  have hresumes : Resumes UnshieldedTxData.streamId
      (lastId UnshieldedTxData.streamId 0 (shownAfter s.1 v c₀.txs) + 1)
      (shownAfter s.1 v c₀.txs ++ new) (shownAfter s.1 v c₀.txs) new :=
    .after (hnew ▸ hc.txs.1) (hnew ▸ hc.txs.2)
  rw [hnew, ← hlast] at hresumes
  rw [hlastTxId]
  refine ⟨_, new, hresumes, ?_⟩
  simp only [Option.elim]
  rw [lastAppliedBefore_succ (hlast ▸ lastId_nonneg hpos), ← hnew]
  exact (txsPlayed_append hshown new).symm

/-- The Dust stream goes on from the snapshot as from the chain's start, as far
as it is taken. A later generation starts over. -/
theorem resume_dust : ∃ new, Resumes LedgerEvent.id (s.2.dustEventId + 1) c.dust c₀.dust new ∧
    ∀ early late, early ++ late = new →
      finishPlayed L c.block (dustStart v (s.2.dustEventId + 1) (some ⟨s.1, s.2.dustWallet⟩))
          early =
        finishPlayed L c.block (dustStart v 0 (none : Option (Σ v, D v))) (c₀.dust ++ early) := by
  obtain ⟨new, hnew⟩ := hgrows.dust
  obtain ⟨parameters, hparameters, hplayed⟩ := hwhole.dust
  obtain ⟨hlast, hread⟩ : s.2.dustEventId = lastId LedgerEvent.id 0 c₀.dust ∧
      ∀ e ∈ c₀.dust, ∃ raw u, readEvent L.events "dust" e = .ok (raw, u) ∧ u ≤ s.1 := by
    obtain ⟨⟨seen, r⟩, hplay, hout⟩ := bind_eq_ok.mp hplayed
    have hr : r = ⟨s.2.dustEventId, none⟩ := (Prod.mk.inj (Except.ok.inj hout)).2
    rw [hr] at hplay
    exact play_none hplay
  have hpos : ∀ e ∈ c₀.dust, 1 ≤ e.id := by
    intro e he
    exact hc.dust.2 e (hnew ▸ List.mem_append_left _ he)
  have hresumes : Resumes LedgerEvent.id (lastId LedgerEvent.id 0 c₀.dust + 1)
      (c₀.dust ++ new) c₀.dust new := .after (hnew ▸ hc.dust.1) (hnew ▸ hc.dust.2)
  rw [hnew, ← hlast] at hresumes
  refine ⟨new, hresumes, fun early late hearly => ?_⟩
  have hcursor := lastAppliedBefore_succ (hlast ▸ lastId_nonneg hpos : 0 ≤ s.2.dustEventId)
  have hplays : ∀ p, decodeLedgerParameters L v c.block = .ok p →
      dustPlayed L v (startWallet L p
          (dustStart v (s.2.dustEventId + 1) (some ⟨s.1, s.2.dustWallet⟩))) s.2.dustEventId early =
        dustPlayed L v (L.newDust v p) 0 (c₀.dust ++ early) := by
    intro p hp
    have hfresh := hgrows.after.dust p hp
    by_cases hsame : s.1 = v
    · obtain ⟨w, snapshot⟩ := s
      obtain rfl : w = v := hsame
      have hstart : startWallet L p (dustStart w (snapshot.dustEventId + 1)
          (some ⟨w, snapshot.dustWallet⟩)) = snapshot.dustWallet := by
        simp [dustStart, startWallet]
      rw [hstart, hfresh, ← hgrows.before.dust parameters hparameters]
      exact (dustPlayed_append hplayed).symm
    · obtain ⟨hold, hnewer⟩ : s.1 = .V8 ∧ v = .V9 :=
        (LedgerVersion.lt_iff _ _).mp (lt_of_le_of_ne hgrows.ledger hsame)
      have hstart : startWallet L p (dustStart v (s.2.dustEventId + 1)
          (some ⟨s.1, s.2.dustWallet⟩)) = L.newDust v p := by
        simp [dustStart, startWallet, hsame]
      subst hnewer
      have hskip := dustPlayed_before (L := L) (L.newDust .V9 p) 0 c₀.dust (hold ▸ hread)
      rw [hstart, dustPlayed_append hskip, hlast]
  cases hp : decodeLedgerParameters L v c.block with
  | error e =>
    unfold finishPlayed
    rw [hp]
    rfl
  | ok p =>
    cases htime : blockTime c.block with
    | error e =>
      unfold finishPlayed
      rw [hp, htime]
      rfl
    | ok time =>
      rw [finishPlayed_eq hp htime, finishPlayed_eq hp htime, dustStart_nextId, dustStart_nextId,
        hcursor, hplays p hp]
      rfl

end Resuming

/-- A resume from a snapshot that holds a part of each stream is a sync of the
whole streams, with as much of the Dust stream as the resume takes. -/
theorem resume_eq {c₀ c : Chain} {v : LedgerVersion} {s : Stored Z D}
    (hgrows : Grows L d₀ c₀ c s.1 v) (hc : c.WellFormed) (hwhole : Whole L c₀ s) :
    ∃ zswap dust txs, Position c (.resume s) zswap dust txs ∧ c₀.dust ++ dust = c.dust ∧
      ∀ early late, early ++ late = dust → playFrom L c.block (.resume s) zswap early txs =
        playFrom L c.block (freshStart L) c.zswap (c₀.dust ++ early) c.txs := by
  obtain ⟨zswap, hzat, hz⟩ := resume_zswap hgrows hc hwhole
  obtain ⟨dust, hdat, hd⟩ := resume_dust hgrows hc hwhole
  obtain ⟨tdone, txs, htat, ht⟩ := resume_txs hgrows hc hwhole
  refine ⟨zswap, dust, txs, ⟨⟨_, hzat⟩, ⟨_, hdat⟩, ⟨_, htat⟩⟩, hdat.split, fun early late h => ?_⟩
  rw [playFrom_eq hgrows.after.ledger, playFrom_eq hgrows.after.ledger]
  have hzswap : crossTo L v (Start.resume s).zswap (lastAppliedBefore (Start.resume s).zswapId)
      zswap = crossTo L v (freshStart L : Start Z D).zswap
        (lastAppliedBefore (freshStart L : Start Z D).zswapId) c.zswap := hz
  have htxs : txsPlayed ((Start.resume s).utxos v) (lastAppliedBefore (Start.resume s).txId)
      (Start.resume s).height txs = txsPlayed ((freshStart L : Start Z D).utxos v)
        (lastAppliedBefore (freshStart L : Start Z D).txId) (freshStart L : Start Z D).height
        c.txs := ht
  have hdust : finishPlayed L c.block (dustStart v (Start.resume s).dustId (Start.resume s).dust)
      early = finishPlayed L c.block (dustStart v (freshStart L : Start Z D).dustId
        (freshStart L : Start Z D).dust) (c₀.dust ++ early) := hd early late h
  rw [hzswap, htxs, hdust]

variable (L d₀) in
/-- The snapshot is what one sync of an earlier chain leaves. -/
def Tracks (c : Chain) (v : LedgerVersion) (s : Stored Z D) : Prop :=
  ∃ c₀, Grows L d₀ c₀ c s.1 v ∧ wholeSync L c₀ = .ok (unpinned s)

theorem Tracks.grows {c c' : Chain} {v v' : LedgerVersion} {s : Stored Z D}
    (h : Tracks L d₀ c v s) (hgrows : Grows L d₀ c c' v v') : Tracks L d₀ c' v' s := by
  obtain ⟨c₀, hbefore, hwhole⟩ := h
  exact ⟨c₀, hbefore.trans hgrows, hwhole⟩

/-- The pin of a snapshot does not matter to what it tracks. -/
theorem Tracks.of_unpinned {c : Chain} {v : LedgerVersion} {s s' : Stored Z D}
    (h : Tracks L d₀ c v s) (heq : unpinned s = unpinned s') : Tracks L d₀ c v s' := by
  obtain ⟨c₀, hbefore, hwhole⟩ := h
  have hledger : (unpinned s).1 = (unpinned s').1 := congrArg Sigma.fst heq
  exact ⟨c₀, (hledger : s.1 = s'.1) ▸ hbefore, heq ▸ hwhole⟩

/-- What a sync of the chain as it stands leaves, its Dust stream taken up to
some event. -/
theorem tracks_of_playFrom {c : Chain} {v : LedgerVersion} {s : Stored Z D} (hc : c.Runs L d₀ v)
    (early late : List LedgerEvent) (hsplit : early ++ late = c.dust)
    (h : playFrom L c.block (freshStart L) c.zswap early c.txs = .ok (unpinned s)) :
    Tracks L d₀ c v s := by
  have hearly : ({ c with dust := early } : Chain).Runs L d₀ v := ⟨hc.ledger, hc.dust⟩
  have hledger : ledgerOf L c.block = .ok s.1 :=
    (wholeSync_ok (c := { c with dust := early }) h).ledger
  obtain rfl : v = s.1 := Except.ok.inj (hc.ledger.symm.trans hledger)
  refine ⟨{ c with dust := early }, ⟨hearly, hc, le_refl _, ⟨[], List.append_nil _, by simp⟩,
    ⟨late, hsplit⟩, ⟨[], ?_⟩⟩, h⟩
  unfold shownAfter
  rw [if_neg (by rintro ⟨h, h'⟩; rw [h] at h'; cases h')]
  exact List.append_nil _

end Growing

end MidnightRs.ChainSync
