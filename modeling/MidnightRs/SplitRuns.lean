import MidnightRs.ResumedSyncs
import MidnightRs.WalletRuns

/-!
Runs of syncs over a chain that grows. Each snapshot that a run leaves, on the
disk or in memory, is what one sync of some earlier chain would leave, so a sync
that resumes from it ends as one sync of the whole chain does.
-/
namespace MidnightRs.ChainSync

open Streams Replay LedgerReplays Storage Reservations Utxos Unshielded

variable {Z D E P : LedgerVersion → Type} {L : Ledgers Z D E P} {d₀ : ∀ v, D v}

section Starting

variable {c : Chain} {v : LedgerVersion} {start : Start Z D}

variable (L d₀ c v) in
/-- A sync starts with nothing, or with a snapshot that tracks the chain. -/
inductive Sound : Start Z D → Prop
  | fresh : Sound (freshStart L)
  | resume {s : Stored Z D} (h : Tracks L d₀ c v s) : Sound (.resume s)

/-- From wherever it starts, a sync is one of the whole streams, with as much of
the Dust stream as it takes. -/
theorem Sound.plays (h : Sound L d₀ c v start) (hc : c.WellFormed) :
    ∃ zswap before dust txs, Position c start zswap dust txs ∧ before ++ dust = c.dust ∧
      ∀ early late, early ++ late = dust → playFrom L c.block start zswap early txs =
        playFrom L c.block (freshStart L) c.zswap (before ++ early) c.txs := by
  cases h with
  | fresh =>
    refine ⟨c.zswap, [], c.dust, c.txs, ⟨⟨[], ?_⟩, ⟨[], ?_⟩, ⟨[], ?_⟩⟩, rfl, fun _ _ _ => rfl⟩
    · exact Resumes.genesis hc.zswap.2
    · exact Resumes.genesis hc.dust.2
    · exact Resumes.genesis hc.txs.2
  | resume h =>
    obtain ⟨c₀, hgrows, hwhole⟩ := h
    obtain ⟨zswap, dust, txs, hat, hdust, heq⟩ := resume_eq hgrows hc (wholeSync_ok hwhole)
    exact ⟨zswap, c₀.dust, dust, txs, hat, hdust, heq⟩

variable {around : Surroundings} {sync : SyncOptions} {size : ℕ}

theorem syncOnChain_whole (hL : L.Lawful) (hc : c.WellFormed) (haround : c.Surrounds around)
    (hstart : Sound L d₀ c v start) {s : State Z D P}
    (h : (syncOnChain L sync c.block start around size).2 = some (.ok s)) :
    wholeSync L c = .ok (unpinned s.stored) := by
  obtain ⟨zswap, before, dust, txs, hat, hdust, heq⟩ := hstart.plays hc
  have hplay := syncOnChain_ok hL hc haround hat h
  rw [heq dust [] (List.append_nil _), hdust] at hplay
  exact hplay

theorem syncOnChain_tracked (hL : L.Lawful) (hc : c.WellFormed) (hruns : c.Runs L d₀ v)
    (haround : c.Surrounds around) (hstart : Sound L d₀ c v start) {s : Stored Z D}
    (hs : s ∈ (syncOnChain L sync c.block start around size).1) : Tracks L d₀ c v s := by
  obtain ⟨zswap, before, dust, txs, hat, hdust, heq⟩ := hstart.plays hc
  obtain ⟨early, late, hsplit, hplay⟩ := syncOnChain_writes hL hc haround hat hs
  rw [heq early late hsplit] at hplay
  refine tracks_of_playFrom hruns _ late ?_ hplay
  rw [List.append_assoc, hsplit, hdust]

theorem syncOnChain_agrees (hL : L.Lawful) (hc : c.WellFormed) (sync : SyncOptions)
    (stored : Option PendingReservations) (hstart : Sound L d₀ c v start) :
    ∃ result, (syncOnChain L sync c.block start (c.serveAll stored)).2 = some result ∧
      Agree (result >>= fun s => .ok (unpinned s.stored)) (wholeSync L c) := by
  obtain ⟨zswap, before, dust, txs, hat, hdust, heq⟩ := hstart.plays hc
  obtain ⟨result, hresult, hagree⟩ := syncOnChain_serveAll hL hc sync stored hat
  rw [heq dust [] (List.append_nil _), hdust] at hagree
  exact ⟨result, hresult, hagree⟩

/-- What the directory loads as, if anything, tracks the chain. -/
def DirTracks (L : Ledgers Z D E P) (d₀ : ∀ v, D v) (st : Store Z D) (c : Chain)
    (v : LedgerVersion) (dir : Directories.Dir FileName) : Prop :=
  ∃ found, Loads st dir found ∧ ∀ s, found = some s → Tracks L d₀ c v s

/-- A sync from a directory whose snapshot tracks the chain starts well, unless
nobody waits for it any more. -/
theorem syncOnce_sound {st : Store Z D} {dir : Directories.Dir FileName}
    (hruns : c.Runs L d₀ v) (hdir : DirTracks L d₀ st c v dir) (sync : SyncOptions)
    (around : Surroundings) :
    (∃ sync' start, Sound L d₀ c v start ∧ syncOnce L st dir sync (.ok c.block) around =
        syncOnChain L sync' c.block start around) ∨
      (around.alive = false ∧ ∃ e, syncOnce L st dir sync (.ok c.block) around =
        ([], some (.error e))) := by
  obtain ⟨found, hloads, htracks⟩ := hdir
  unfold syncOnce
  simp only [hruns.ledger]
  have hfresh : ∃ sync' start, Sound L d₀ c v start ∧
      syncOnChain L sync c.block (.genesis ⟨.V8, L.newZswap .V8⟩) around =
        syncOnChain L sync' c.block start around := ⟨sync, _, .fresh, rfl⟩
  by_cases hstorage : sync.hasStorage = true
  · rw [if_pos hstorage]
    cases found with
    | none =>
      rw [hloads.loadSnapshot_none v]
      exact Or.inl hfresh
    | some s =>
      obtain ⟨c₀, hgrows, hwhole⟩ := htracks s rfl
      rw [hloads.loadSnapshot hgrows.ledger]
      simp only [Option.filter]
      split
      · rename_i hfilter
        split at hfilter
        · cases hfilter
        · exact Or.inl hfresh
      · rename_i s' hfilter
        split at hfilter
        · cases hfilter
          by_cases halive : around.alive = true
          · rw [if_pos halive]
            exact Or.inl ⟨_, _, .resume ⟨c₀, hgrows, hwhole⟩, rfl⟩
          · rw [if_neg halive]
            exact Or.inr ⟨by simpa using halive, _, rfl⟩
        · cases hfilter
  · rw [if_neg hstorage]
    exact Or.inl hfresh

end Starting

section Resyncing

variable {c : Chain} {v : LedgerVersion} {zswap dust : List LedgerEvent}
  {txs : List UnshieldedTxData} {around : Surroundings}

/-- What a resync commits of the wallet that it copied. -/
def ResyncCommit.snapshot {v : LedgerVersion} (commit : ResyncCommit Z D P v)
    (chainPin : Option ChainPin) : Snapshot Z D v :=
  ⟨commit.zswapState, commit.dustWallet, commit.zswapEventId, commit.dustEventId,
    commit.lastBlockHeight, some commit.lastTxId, chainPin, commit.unshieldedUtxos⟩

theorem resynced_snapshot (w : Wallet Z D P v) (commit : ResyncCommit Z D P v) :
    (w.resynced L commit).snapshot = commit.snapshot w.chainPin := rfl

/-- A replay that is not refused has met no later generation. -/
theorem expectNoLater_play {S : Type}
    {read : LedgerEvent → Except WalletError (Bytes × LedgerVersion)}
    {step : S → ℤ → Bytes → LedgerVersion → Except WalletError S} {s s' : S} {last last' : ℤ}
    {later : Option (ℤ × LedgerVersion)} {es : List LedgerEvent}
    (h : play read v step s last es = .ok (s', ⟨last', later⟩))
    (hlater : expectNoLater v later = .ok ()) : later = none := by
  rcases later with _ | ⟨fork, found⟩
  · rfl
  · have hfound := play_later h
    have hmismatch : expectNoLater v (some (fork, found)) = .error (.ledgerMismatch v found) :=
      if_neg hfound.ne'
    rw [hmismatch] at hlater
    cases hlater

theorem crossStep_ledger {s s' : ZswapState Z × ℤ} {e : LedgerEvent}
    (h : crossStep L s e = .ok s') : s.1.1 ≤ s'.1.1 ∧
      ∀ raw u, readEvent L.events "zswap" e = .ok (raw, u) → u ≤ s'.1.1 := by
  unfold crossStep at h
  cases hread : readEvent L.events "zswap" e with
  | error err =>
    rw [hread] at h
    cases h
  | ok entry =>
    obtain ⟨raw, u⟩ := entry
    rw [hread] at h
    simp only at h
    split at h
    · rename_i hlater
      obtain ⟨z, -, h⟩ := bind_eq_ok.mp h
      obtain ⟨z', -, h⟩ := bind_eq_ok.mp h
      cases h
      refine ⟨hlater.le, fun raw' u' hread' => ?_⟩
      cases hread'
      exact le_refl _
    · rename_i hnot
      obtain ⟨z, -, h⟩ := bind_eq_ok.mp h
      cases h
      refine ⟨le_refl _, fun raw' u' hread' => ?_⟩
      cases hread'
      exact not_lt.mp hnot

/-- The state never goes back to an earlier generation. -/
theorem crossed_ledger {s s' : ZswapState Z × ℤ} {es : List LedgerEvent}
    (h : es.foldlM (crossStep L) s = .ok s') : s.1.1 ≤ s'.1.1 := by
  induction es generalizing s with
  | nil =>
    cases h
    exact le_refl _
  | cons e es ih =>
    rw [List.foldlM_cons] at h
    obtain ⟨s₁, hstep, hrest⟩ := bind_eq_ok.mp h
    exact (crossStep_ledger hstep).1.trans (ih hrest)

/-- The stream stays in the generation `v` just when one replay takes it. -/
theorem crossTo_playZswap {z z' : Z v} {last last' : ℤ} {es : List LedgerEvent} :
    crossTo L v ⟨v, z⟩ last es = .ok (z', last') ↔
      playZswap L v z last es = .ok (z', ⟨last', none⟩) := by
  have hcrossed := playZswap_crossedBy (L := L) v z last es
  constructor
  · intro h
    obtain ⟨⟨state, last''⟩, hfold, hinto⟩ := bind_eq_ok.mp h
    obtain ⟨z'', hz, hout⟩ := bind_eq_ok.mp hinto
    cases hout
    rcases hplay : playZswap L v z last es with err | ⟨played, last'', _ | ⟨fork, found⟩⟩
    · rw [hplay] at hcrossed
      obtain ⟨err', herr⟩ := hcrossed
      rw [herr] at hfold
      cases hfold
    · rw [hplay] at hcrossed
      rw [show es.foldlM (crossStep L) (⟨v, z⟩, last) = .ok (⟨v, played⟩, last'') from hcrossed]
        at hfold
      cases hfold
      rw [intoLedger_self] at hz
      cases hz
      rfl
    · rw [hplay] at hcrossed
      obtain ⟨before, e, rest, raw, rfl, hbefore, -, hread, hfound⟩ := hcrossed
      rw [foldlM_split hbefore, List.foldlM_cons] at hfold
      obtain ⟨s₁, hstep, hrest⟩ := bind_eq_ok.mp hfold
      have hlater : v < state.1 := hfound.trans_le
        (((crossStep_ledger hstep).2 raw found hread).trans (crossed_ledger hrest))
      obtain ⟨u, state⟩ := state
      obtain ⟨rfl, rfl⟩ := (LedgerVersion.lt_iff v u).mp hlater
      cases hz
  · intro h
    rw [h] at hcrossed
    unfold crossTo
    rw [show es.foldlM (crossStep L) (⟨v, z⟩, last) = .ok (⟨v, z'⟩, last') from hcrossed]
    simp only [bind, Except.bind, intoLedger_self]

/-- What the three replays of a resync give, taken event by event. -/
def planPlayed (L : Ledgers Z D E P) {v : LedgerVersion} (plan : Snapshot Z D v) (block : Block)
    (zswap dust : List LedgerEvent) (txs : List UnshieldedTxData) (chainPin : Option ChainPin) :
    Except WalletError (Snapshot Z D v) :=
  playZswap L v plan.zswapState (lastAppliedBefore (plan.zswapEventId + 1)) zswap >>= fun z =>
  txsPlayed plan.unshieldedUtxos (lastAppliedBefore (plan.lastTxId.elim 0 (· + 1)))
    plan.lastBlockHeight txs >>= fun t =>
  decodeLedgerParameters L v block >>= fun _ =>
  blockTime block >>= fun _ =>
  dustPlayed L v plan.dustWallet (lastAppliedBefore (plan.dustEventId + 1)) dust >>= fun d =>
  expectNoLater v z.2.laterLedger >>= fun _ =>
  expectNoLater v d.2.laterLedger >>= fun _ =>
  .ok ⟨z.1, d.1, z.2.lastId, d.2.lastId, t.lastBlockHeight, some t.lastTxId, chainPin, t.utxos⟩

variable (zswap dust txs) in
/-- A resume in the chain's own generation is the three replays. -/
theorem planPlayed_agrees {block : Block} (hledger : ledgerOf L block = .ok v)
    (plan : Snapshot Z D v) (chainPin : Option ChainPin) :
    Agree (planPlayed L plan block zswap dust txs chainPin >>= fun s => .ok (unpinned ⟨v, s⟩))
      (playFrom L block (.resume ⟨v, plan⟩) zswap dust txs) := by
  have hutxos : (Start.resume ⟨v, plan⟩).utxos v = plan.unshieldedUtxos := by
    unfold Start.utxos
    cases v <;> rfl
  have hstart : dustStart v (plan.dustEventId + 1) (some ⟨v, plan.dustWallet⟩) =
      .resume plan.dustWallet (plan.dustEventId + 1) := by
    unfold dustStart
    simp
  rw [playFrom_eq hledger]
  have hdust : dustStart v (Start.resume ⟨v, plan⟩).dustId (Start.resume ⟨v, plan⟩).dust =
      .resume plan.dustWallet (plan.dustEventId + 1) := hstart
  rw [hdust, hutxos]
  have hfinish : ∀ {p : P v} {time : Timestamp}, decodeLedgerParameters L v block = .ok p →
      blockTime block = .ok time →
      finishPlayed L block (.resume plan.dustWallet (plan.dustEventId + 1)) dust =
        (dustPlayed L v plan.dustWallet (lastAppliedBefore (plan.dustEventId + 1)) dust >>=
          fun seen => expectNoLater v seen.2.laterLedger >>= fun _ =>
            .ok (seen.1, seen.2.lastId)) := fun hp htime => finishPlayed_eq hp htime dust
  intro x
  constructor
  · intro h
    obtain ⟨s, hs, hx⟩ := bind_eq_ok.mp h
    obtain ⟨⟨z, ⟨zlast, zlater⟩⟩, hz, hs⟩ := bind_eq_ok.mp hs
    obtain ⟨t, ht, hs⟩ := bind_eq_ok.mp hs
    obtain ⟨p, hp, hs⟩ := bind_eq_ok.mp hs
    obtain ⟨time, htime, hs⟩ := bind_eq_ok.mp hs
    obtain ⟨d, hd, hs⟩ := bind_eq_ok.mp hs
    obtain ⟨_, hzlater, hs⟩ := bind_eq_ok.mp hs
    obtain ⟨_, hdlater, hs⟩ := bind_eq_ok.mp hs
    cases hs
    cases hx
    obtain rfl : zlater = none := expectNoLater_play hz hzlater
    refine bind_eq_ok.mpr ⟨(z, zlast), crossTo_playZswap.mpr hz, bind_eq_ok.mpr ⟨t, ht, ?_⟩⟩
    rw [hfinish hp htime, hd]
    simp only [bind, Except.bind, hdlater]
    rfl
  · intro h
    obtain ⟨⟨z, zlast⟩, hz, h⟩ := bind_eq_ok.mp h
    obtain ⟨t, ht, h⟩ := bind_eq_ok.mp h
    obtain ⟨d, hd, hx⟩ := bind_eq_ok.mp h
    obtain ⟨p, hp, hd⟩ := bind_eq_ok.mp hd
    obtain ⟨time, htime, hd⟩ := bind_eq_ok.mp hd
    obtain ⟨seen, hseen, hd⟩ := bind_eq_ok.mp hd
    obtain ⟨u, hlater, hd⟩ := bind_eq_ok.mp hd
    cases hd
    cases hx
    have hplay := crossTo_playZswap.mp hz
    have hs : planPlayed L plan block zswap dust txs chainPin = .ok ⟨z, seen.1, zlast,
        seen.2.lastId, t.lastBlockHeight, some t.lastTxId, chainPin, t.utxos⟩ := by
      refine bind_eq_ok.mpr ⟨_, hplay, bind_eq_ok.mpr ⟨t, ht, bind_eq_ok.mpr ⟨p, hp,
        bind_eq_ok.mpr ⟨time, htime, bind_eq_ok.mpr ⟨seen, hseen, ?_⟩⟩⟩⟩⟩
      have hnone : expectNoLater v none = .ok () := rfl
      simp only [bind, Except.bind, hnone, hlater]
    rw [hs]
    rfl

/-- The commit of a resync goes by what its three replays give. -/
theorem resyncCommit_plays {plan : Snapshot Z D v} {block : Block}
    {dustResult : Except WalletError (DustReplay (D v))}
    {zswapResult : Except WalletError (ZswapReplay (Z v))}
    {txsResult : Except WalletError UnshieldedReplay} (chainPin : Option ChainPin)
    (hz : ∀ r, zswapResult = .ok r → playZswap L v plan.zswapState
      (lastAppliedBefore (plan.zswapEventId + 1)) zswap = .ok (r.state, ⟨r.lastId, r.laterLedger⟩))
    (hd : ∀ r, dustResult = .ok r → dustPlayed L v plan.dustWallet
      (lastAppliedBefore (plan.dustEventId + 1)) dust = .ok (r.wallet, ⟨r.lastId, r.laterLedger⟩))
    (ht : ∀ r, txsResult = .ok r → txsPlayed plan.unshieldedUtxos
      (lastAppliedBefore (plan.lastTxId.elim 0 (· + 1))) plan.lastBlockHeight txs =
        .ok { r with spent := [] }) {commit : ResyncCommit Z D P v}
    (h : resyncCommit L dustResult zswapResult txsResult (.ok block) = .ok commit) :
    planPlayed L plan block zswap dust txs chainPin = .ok (commit.snapshot chainPin) := by
  obtain ⟨dr, hdust, h⟩ := bind_eq_ok.mp h
  obtain ⟨zr, hzswap, h⟩ := bind_eq_ok.mp h
  obtain ⟨tr, htxs, h⟩ := bind_eq_ok.mp h
  obtain ⟨_, hblock, h⟩ := bind_eq_ok.mp h
  cases hblock
  obtain ⟨_, -, h⟩ := bind_eq_ok.mp h
  obtain ⟨_, -, h⟩ := bind_eq_ok.mp h
  obtain ⟨_, hzlater, h⟩ := bind_eq_ok.mp h
  obtain ⟨_, hdlater, h⟩ := bind_eq_ok.mp h
  obtain ⟨time, htime, h⟩ := bind_eq_ok.mp h
  obtain ⟨p, hp, h⟩ := bind_eq_ok.mp h
  cases h
  refine bind_eq_ok.mpr ⟨_, hz zr hzswap, bind_eq_ok.mpr ⟨_, ht tr htxs, bind_eq_ok.mpr ⟨p, hp,
    bind_eq_ok.mpr ⟨time, htime, bind_eq_ok.mpr ⟨_, hd dr hdust, ?_⟩⟩⟩⟩⟩
  simp only [hzlater, hdlater, bind, Except.bind]
  rfl

theorem resyncCommit_of_plays {plan : Snapshot Z D v} {block : Block}
    (hledger : ledgerOf L block = .ok v) {dustResult : Except WalletError (DustReplay (D v))}
    {zswapResult : Except WalletError (ZswapReplay (Z v))}
    {txsResult : Except WalletError UnshieldedReplay} (chainPin : Option ChainPin)
    (hz : ∀ out, playZswap L v plan.zswapState (lastAppliedBefore (plan.zswapEventId + 1)) zswap =
      .ok out → ∃ r, zswapResult = .ok r ∧ out = (r.state, ⟨r.lastId, r.laterLedger⟩))
    (hd : ∀ out, dustPlayed L v plan.dustWallet (lastAppliedBefore (plan.dustEventId + 1)) dust =
      .ok out → ∃ r, dustResult = .ok r ∧ out = (r.wallet, ⟨r.lastId, r.laterLedger⟩))
    (ht : ∀ out, txsPlayed plan.unshieldedUtxos
      (lastAppliedBefore (plan.lastTxId.elim 0 (· + 1))) plan.lastBlockHeight txs = .ok out →
        ∃ r, txsResult = .ok r ∧ out = { r with spent := [] }) {s : Snapshot Z D v}
    (h : planPlayed L plan block zswap dust txs chainPin = .ok s) :
    ∃ commit, resyncCommit L dustResult zswapResult txsResult (.ok block) = .ok commit ∧
      s = commit.snapshot chainPin := by
  obtain ⟨zout, hzswap, h⟩ := bind_eq_ok.mp h
  obtain ⟨tout, htxs, h⟩ := bind_eq_ok.mp h
  obtain ⟨p, hp, h⟩ := bind_eq_ok.mp h
  obtain ⟨time, htime, h⟩ := bind_eq_ok.mp h
  obtain ⟨dout, hdust, h⟩ := bind_eq_ok.mp h
  obtain ⟨_, hzlater, h⟩ := bind_eq_ok.mp h
  obtain ⟨_, hdlater, h⟩ := bind_eq_ok.mp h
  obtain ⟨zr, hzr, rfl⟩ := hz zout hzswap
  obtain ⟨tr, htr, rfl⟩ := ht tout htxs
  obtain ⟨dr, hdr, rfl⟩ := hd dout hdust
  cases h
  have hexpect : Store.expectLedger v v = .ok () := if_pos rfl
  refine ⟨⟨dr.wallet, dr.lastId, dr.lastBlockTime, dr.spendNullifiers, zr.state, zr.lastId,
    tr.utxos, tr.lastTxId, tr.lastBlockHeight, tr.spent, time, p⟩, ?_, rfl⟩
  simp only at hzlater hdlater
  unfold resyncCommit
  rw [hdr, hzr, htr]
  simp only [bind, Except.bind, hledger, hexpect, hzlater, hdlater, htime, hp, pure, Except.pure]

section Plans

variable {w : Wallet Z D P v}

theorem headD_honest (h : c.Surrounds around) : Replay.Honest c.zswap (around.zswap.headD []) := by
  cases hzswap : around.zswap with
  | nil =>
    intro answer hanswer
    cases hanswer
  | cons answers rounds => exact h.zswap answers (by rw [hzswap]; simp)

/-- A resync that commits leaves what one sync of the whole chain does. -/
theorem runPlan_whole (hL : L.Lawful) (hc : c.WellFormed) (haround : c.Surrounds around)
    {plan : Snapshot Z D v} (htracks : Tracks L d₀ c v ⟨v, plan⟩)
    {commit : ResyncCommit Z D P v}
    (h : runPlan L plan (.ok c.block) around = some (.ok commit)) (chainPin : Option ChainPin) :
    wholeSync L c = .ok (unpinned ⟨v, commit.snapshot chainPin⟩) := by
  obtain ⟨c₀, hgrows, hwhole⟩ := htracks
  obtain ⟨zswap, dust, txs, hat, hdust, heq⟩ := resume_eq hgrows hc (wholeSync_ok hwhole)
  obtain ⟨zdone, hzat⟩ := hat.zswap
  obtain ⟨ddone, hdat⟩ := hat.dust
  obtain ⟨tdone, htat⟩ := hat.txs
  replace hdat : Resumes LedgerEvent.id (plan.dustEventId + 1) c.dust ddone dust := hdat
  have hplay := heq dust [] (List.append_nil _)
  rw [hdust] at hplay
  suffices hplan : planPlayed L plan c.block zswap dust txs chainPin =
      .ok (commit.snapshot chainPin) by
    have hagree := planPlayed_agrees zswap dust txs hgrows.after.ledger plan chainPin
    rw [hplan] at hagree
    exact hplay.symm.trans ((hagree _).mp rfl)
  unfold runPlan at h
  rcases hd : (replayDustEvents L v plan.dustWallet (plan.dustEventId + 1) true false
    dustCheckpointInterval around.dust).2 with _ | dustResult
  · rw [hd] at h
    cases h
  rcases hz : replayZswapEvents L v plan.zswapState (plan.zswapEventId + 1) true
    (around.zswap.headD []) with _ | zswapResult
  · rw [hd, hz] at h
    cases h
  rcases ht : replayUnshieldedEvents ⟨plan.lastTxId.elim 0 (· + 1), true⟩ plan.unshieldedUtxos
    plan.lastBlockHeight around.unshielded with _ | txsResult
  · rw [hd, hz, ht] at h
    cases h
  rw [hd, hz, ht] at h
  refine resyncCommit_plays chainPin (fun r hr => ?_) (fun r hr => ?_) (fun r hr => ?_)
    (Option.some.inj h)
  · rw [hr] at hz
    exact replayZswapEvents_plays hL hc.zswap.1 hc.zswap.2 (hzat.startsAfter _ rfl)
      (headD_honest haround) hz
  · rw [hr] at hd
    have hplays := replayDustEvents_plays hL hc.dust.1 hc.dust.2 (hdat.startsAfter _ rfl)
      haround.dust hd
    unfold dustPlayed
    rw [hplays]
    rfl
  · rw [hr] at ht
    have htracks := replay_tracks hc.txs.1 hc.txs.2 (⟨htat.split, htat.cut, htat.counted⟩ :
      Unshielded.StartsAfter ⟨plan.lastTxId.elim 0 (· + 1), true⟩ c.txs tdone txs)
      around.unshielded haround.unshielded r ht
    unfold txsPlayed
    rw [show txs.foldlM track ⟨plan.unshieldedUtxos,
      lastAppliedBefore (plan.lastTxId.elim 0 (· + 1)), plan.lastBlockHeight, []⟩ = .ok r
      from htracks]
    rfl

/-- Uninterrupted, a resync succeeds as one sync of the whole chain does. -/
theorem runPlan_serveAll (hL : L.Lawful) (hc : c.WellFormed) {plan : Snapshot Z D v}
    (htracks : Tracks L d₀ c v ⟨v, plan⟩) (stored : Option PendingReservations)
    (chainPin : Option ChainPin) :
    ∃ result, runPlan L plan (.ok c.block) (c.serveAll stored) = some result ∧
      Agree (result >>= fun commit => .ok (unpinned ⟨v, commit.snapshot chainPin⟩))
        (wholeSync L c) := by
  obtain ⟨c₀, hgrows, hwhole⟩ := htracks
  obtain ⟨zswap, dust, txs, hat, hdust, heq⟩ := resume_eq hgrows hc (wholeSync_ok hwhole)
  obtain ⟨zdone, hzat⟩ := hat.zswap
  obtain ⟨ddone, hdat⟩ := hat.dust
  obtain ⟨tdone, htat⟩ := hat.txs
  replace hzat : Resumes LedgerEvent.id (plan.zswapEventId + 1) c.zswap zdone zswap := hzat
  replace hdat : Resumes LedgerEvent.id (plan.dustEventId + 1) c.dust ddone dust := hdat
  obtain ⟨zr, hzr, hz⟩ := replayZswapEvents_serveAll hL hc.zswap.1 hc.zswap.2 plan.zswapState
    (hzat.startsAfter (zswapArgs L v replayBatch (plan.zswapEventId + 1) true) rfl) (Or.inl rfl)
  obtain ⟨dr, hdr, hd⟩ := replayDustEvents_serveAll hL hc.dust.1 hc.dust.2 plan.dustWallet false
    dustCheckpointInterval (hdat.startsAfter (dustArgs L v replayBatch (plan.dustEventId + 1) true _ _) rfl)
    (Or.inl rfl)
  have htr : replayUnshieldedEvents ⟨plan.lastTxId.elim 0 (· + 1), true⟩ plan.unshieldedUtxos
      plan.lastBlockHeight [Unshielded.serveAll c.txs] = some (txs.foldlM track
        (startOf ⟨plan.lastTxId.elim 0 (· + 1), true⟩ plan.unshieldedUtxos
          plan.lastBlockHeight)) :=
    Unshielded.replay_serveAll hc.txs.1 hc.txs.2 (⟨htat.split, htat.cut, htat.counted⟩ :
      Unshielded.StartsAfter ⟨plan.lastTxId.elim 0 (· + 1), true⟩ c.txs tdone txs)
  have hrun : runPlan L plan (.ok c.block) (c.serveAll stored) =
      some (resyncCommit L dr zr (txs.foldlM track (startOf ⟨plan.lastTxId.elim 0 (· + 1), true⟩
        plan.unshieldedUtxos plan.lastBlockHeight)) (.ok c.block)) := by
    unfold runPlan
    simp only [Chain.serveAll, List.headD_cons, hzr, hdr, htr]
  have hwholeSync : wholeSync L c = playFrom L c.block (.resume ⟨v, plan⟩) zswap dust txs := by
    rw [heq dust [] (List.append_nil _), hdust]
    rfl
  refine ⟨_, hrun, ?_⟩
  rw [hwholeSync]
  refine Agree.trans ?_ (planPlayed_agrees zswap dust txs hgrows.after.ledger plan chainPin)
  intro x
  constructor
  · intro h
    obtain ⟨commit, hcommit, hx⟩ := bind_eq_ok.mp h
    refine bind_eq_ok.mpr ⟨commit.snapshot chainPin, ?_, hx⟩
    refine resyncCommit_plays chainPin (fun r hr => ?_) (fun r hr => ?_) (fun r hr => ?_) hcommit
    · exact (hz _).mp (bind_eq_ok.mpr ⟨r, hr, rfl⟩)
    · have hplay := (hd _).mp (bind_eq_ok.mpr ⟨r, hr, rfl⟩)
      unfold dustPlayed
      rw [hplay]
      rfl
    · unfold txsPlayed
      rw [show txs.foldlM track ⟨plan.unshieldedUtxos,
        lastAppliedBefore (plan.lastTxId.elim 0 (· + 1)), plan.lastBlockHeight, []⟩ = .ok r
        from hr]
      rfl
  · intro h
    obtain ⟨s, hs, hx⟩ := bind_eq_ok.mp h
    suffices hcommits : ∃ commit, resyncCommit L dr zr (txs.foldlM track
        (startOf ⟨plan.lastTxId.elim 0 (· + 1), true⟩ plan.unshieldedUtxos plan.lastBlockHeight))
          (.ok c.block) = .ok commit ∧ s = commit.snapshot chainPin by
      obtain ⟨commit, hcommit, rfl⟩ := hcommits
      exact bind_eq_ok.mpr ⟨commit, hcommit, hx⟩
    refine resyncCommit_of_plays hgrows.after.ledger chainPin
      (fun out hout => ?_) (fun out hout => ?_) (fun out hout => ?_) hs
    · obtain ⟨r, hr, hr'⟩ := bind_eq_ok.mp ((hz out).mpr hout)
      exact ⟨r, hr, (Except.ok.inj hr').symm⟩
    · obtain ⟨⟨seen, last⟩, hseen, hout⟩ := bind_eq_ok.mp hout
      obtain ⟨r, hr, hr'⟩ := bind_eq_ok.mp ((hd (seen, last)).mpr hseen)
      cases hr'
      exact ⟨r, hr, (Except.ok.inj hout).symm⟩
    · obtain ⟨r, hr, hr'⟩ := bind_eq_ok.mp hout
      exact ⟨r, hr, (Except.ok.inj hr').symm⟩

end Plans

section Edits

/-- The indexer answers a resync from the chain as it stands. The block that the
resync begins with can be one of before a fork. -/
structure Chain.Answers (L : Ledgers Z D E P) (c : Chain) (around : ResyncAround) : Prop where
  first : ∀ b, around.first = .ok b → b = c.block ∨ ledgerOf L b = .ok .V8
  block : ∀ b, around.block = .ok b → b = c.block
  again : ∀ b, around.again = .ok b → b = c.block
  replay : c.Surrounds around.replay
  rest : c.Surrounds around.rest

/-- What the indexer answers to a resync that nothing interrupts. -/
def Chain.answerAll (c : Chain) (stored : Option PendingReservations) : ResyncAround :=
  ⟨.ok c.block, c.serveAll stored, .ok c.block, .ok c.block, c.serveAll stored⟩

theorem unpinned_keepPin (old : Wallet Z D P .V8) (w : Wallet Z D P .V9) :
    unpinned (State.stored ⟨.V9, keepPin old w⟩) = unpinned (State.stored ⟨.V9, w⟩) := by
  unfold keepPin
  cases old.chainPin <;> rfl

theorem runPlan_ledger {plan : Snapshot Z D v} {block : Except WalletError Block}
    {commit : ResyncCommit Z D P v} (h : runPlan L plan block around = some (.ok commit)) :
    ∃ b, block = .ok b ∧ ledgerOf L b = .ok v := by
  unfold runPlan at h
  split at h
  · obtain ⟨_, -, h⟩ := bind_eq_ok.mp (Option.some.inj h)
    obtain ⟨_, -, h⟩ := bind_eq_ok.mp h
    obtain ⟨_, -, h⟩ := bind_eq_ok.mp h
    obtain ⟨b, hblock, h⟩ := bind_eq_ok.mp h
    obtain ⟨ledger, hledger, h⟩ := bind_eq_ok.mp h
    obtain ⟨_, hexpect, h⟩ := bind_eq_ok.mp h
    refine ⟨b, hblock, ?_⟩
    unfold Store.expectLedger at hexpect
    split at hexpect
    · rename_i heq
      rw [hledger, heq]
    · cases hexpect
  · cases h

/-- A replay of one generation that commits. -/
theorem delta_whole (hL : L.Lawful) (hc : c.WellFormed) (haround : c.Surrounds around)
    {w : Wallet Z D P v} {u : LedgerVersion} (htracks : Tracks L d₀ c u (State.stored ⟨v, w⟩))
    {block : Except WalletError Block} (hblock : ∀ b, block = .ok b → b = c.block)
    {commit : ResyncCommit Z D P v}
    (h : runPlan L w.snapshot block around = some (.ok commit)) :
    wholeSync L c = .ok (unpinned (State.stored ⟨v, w.resynced L commit⟩)) := by
  obtain ⟨b, rfl, hledger⟩ := runPlan_ledger h
  obtain rfl := hblock b rfl
  obtain ⟨c₀, hgrows, hwhole⟩ := htracks
  obtain rfl : v = u := Except.ok.inj (hledger.symm.trans hgrows.after.ledger)
  exact runPlan_whole hL hc haround ⟨c₀, hgrows, hwhole⟩ h w.chainPin

theorem cross_whole (hL : L.Lawful) (hc : c.WellFormed) (haround : c.Surrounds around)
    {w : Wallet Z D P .V8} {u : LedgerVersion} (htracks : Tracks L d₀ c u (State.stored ⟨.V8, w⟩))
    {commit : Commit Z D P} (h : cross L w c.block around = some (.ok commit)) :
    ∃ crossed, commit = .crossed crossed ∧
      wholeSync L c = .ok (unpinned (State.stored ⟨.V9, crossed⟩)) := by
  unfold cross at h
  split at h
  · cases h
  · cases h
  · rename_i crossed hsync
    cases h
    exact ⟨crossed, rfl, syncOnChain_whole hL hc haround (.resume htracks) hsync⟩
  · cases h

theorem wholeSync_ledger {x : Stored Z D} (h : wholeSync L c = .ok x) :
    ledgerOf L c.block = .ok x.1 := by
  obtain ⟨u, hledger, h⟩ := bind_eq_ok.mp h
  obtain ⟨_, -, h⟩ := bind_eq_ok.mp h
  obtain ⟨_, -, h⟩ := bind_eq_ok.mp h
  obtain ⟨_, -, h⟩ := bind_eq_ok.mp h
  obtain ⟨_, -, h⟩ := bind_eq_ok.mp h
  obtain ⟨_, -, h⟩ := bind_eq_ok.mp h
  obtain ⟨_, -, h⟩ := bind_eq_ok.mp h
  cases h
  exact hledger

variable [∀ v, DecidableEq (P v)]

/-- A resync in memory that commits leaves what one sync of the whole chain
does. -/
theorem resync_whole (hL : L.Lawful) (hc : c.WellFormed) {around : ResyncAround}
    (haround : c.Answers L around) {s s' : State Z D P} {changed : Bool}
    (htracks : Tracks L d₀ c v s.stored)
    (h : (Edit.resync around).run L s = some (.ok (s', changed))) :
    wholeSync L c = .ok (unpinned s'.stored) := by
  simp only [Edit.run] at h
  rcases hrun : runResync L s around with _ | e | commit
  · rw [hrun] at h
    cases h
  · rw [hrun] at h
    cases h
  rw [hrun] at h
  rcases runResync_ok L hrun with ⟨u, w, commit, rfl, rfl, hplan⟩ |
    ⟨w, block, rfl, hcross, hblock⟩
  · have hwhole := delta_whole hL hc haround.replay htracks haround.block hplan
    cases u with
    | V8 =>
      cases h
      exact hwhole
    | V9 =>
      cases h
      exact hwhole
  · obtain rfl : block = c.block := by
      rcases hblock with hagain | ⟨hfirst, hledger⟩
      · exact haround.again block hagain
      · rcases haround.first block hfirst with hsame | hold
        · exact hsame
        · rw [hledger] at hold
          cases hold
    obtain ⟨crossed, rfl, hwhole⟩ := cross_whole hL hc haround.rest htracks hcross
    cases h
    rw [unpinned_keepPin]
    exact hwhole

/-- A crossing to a chain whose sync ends in ledger 9, if it ends at all. -/
theorem cross_serveAll (hL : L.Lawful) (hc : c.WellFormed) {w : Wallet Z D P .V8}
    (htracks : Tracks L d₀ c v (State.stored ⟨.V8, w⟩)) (stored : Option PendingReservations)
    (hledger : ∀ x, wholeSync L c = .ok x → x.1 = .V9) :
    ∃ result, andThen (cross L w c.block (c.serveAll stored))
        (fun commit => some (commitResync L ⟨.V8, w⟩ commit)) = some result ∧
      Agree (result >>= fun out => .ok (unpinned out.1.stored)) (wholeSync L c) := by
  obtain ⟨result, hresult, hagree⟩ := syncOnChain_agrees (P := P) hL hc
    ⟨w.hasStorage, false, w.chainPin⟩ stored (.resume htracks)
  unfold cross
  simp only [State.stored] at hresult
  rw [hresult]
  rcases result with e | ⟨_ | _, w'⟩
  · exact ⟨.error e, rfl, hagree⟩
  · -- The sync would have ended in ledger 8.
    have := hledger _ ((hagree _).mp rfl)
    cases this
  · refine ⟨.ok (⟨.V9, keepPin w w'⟩, true), rfl, ?_⟩
    simp only [bind, Except.bind] at hagree ⊢
    rw [unpinned_keepPin]
    exact hagree

/-- Uninterrupted, a resync in memory succeeds as one sync of the whole chain
does. -/
theorem resync_answerAll (hL : L.Lawful) (hc : c.WellFormed) {s : State Z D P}
    (htracks : Tracks L d₀ c v s.stored) (stored : Option PendingReservations) :
    ∃ result, (Edit.resync (c.answerAll stored)).run L s = some result ∧
      Agree (result >>= fun out => .ok (unpinned out.1.stored)) (wholeSync L c) := by
  have htracks' := htracks
  obtain ⟨c₀, hgrows, -⟩ := htracks'
  have hledger := hgrows.after.ledger
  obtain ⟨u, w⟩ := s
  have hle : u ≤ v := hgrows.ledger
  have hdelta : u = v → ∃ result, runPlan L w.snapshot (.ok c.block) (c.serveAll stored) =
      some result ∧ Agree (result >>= fun commit =>
        .ok (unpinned ⟨u, commit.snapshot w.chainPin⟩)) (wholeSync L c) := by
    rintro rfl
    exact runPlan_serveAll hL hc htracks stored w.chainPin
  cases u with
  | V9 =>
    have hv : v = .V9 := by
      cases v with
      | V8 => exact absurd hle (by decide)
      | V9 => rfl
    obtain ⟨result, hresult, hagree⟩ := hdelta hv.symm
    simp only [Edit.run, runResync, Chain.answerAll, hresult, delta]
    cases result with
    | error e => exact ⟨.error e, rfl, hagree⟩
    | ok commit => exact ⟨_, rfl, hagree⟩
  | V8 =>
    simp only [Edit.run, runResync, Chain.answerAll, hledger]
    cases v with
    | V9 =>
      refine cross_serveAll hL hc htracks stored (fun x hx => ?_)
      exact (Except.ok.inj (hledger.symm.trans (wholeSync_ledger hx))).symm
    | V8 =>
      obtain ⟨result, hresult, hagree⟩ := hdelta rfl
      have hfailed : ∀ {e : WalletError}, result = .error e → ∀ x, wholeSync L c ≠ .ok x := by
        rintro e rfl x hx
        have := (hagree x).mpr hx
        cases this
      simp only [hresult]
      split
      · rename_i expected found hmismatch
        have hwhole := hfailed (Option.some.inj hmismatch)
        split
        · exact cross_serveAll hL hc htracks stored (fun x hx => absurd hx (hwhole x))
        · refine ⟨_, rfl, ?_⟩
          intro x
          exact iff_of_false (by rintro ⟨⟩) (hwhole x)
      · cases result with
        | error e => exact ⟨.error e, rfl, hagree⟩
        | ok commit => exact ⟨_, rfl, hagree⟩

end Edits

end Resyncing

section Following

variable {st : Store Z D} {c c' : Chain} {v v' : LedgerVersion}

/-- What happens to a wallet that only syncs, on the chain as it stands. -/
def Op.Honest (L : Ledgers Z D E P) (c : Chain) : Op → Prop
  | .sync _ block around => (∀ b, block = .ok b → b = c.block) ∧ c.Surrounds around
  | .edit (.resync around) => c.Answers L around
  | .edit _ => False
  | .reserve _ => True
  | .pin _ => True
  | .save => True
  | .stop => True

theorem Op.honest_sync (hc : c.WellFormed) (sync : SyncOptions)
    (stored : Option PendingReservations) :
    Op.Honest L c (.sync sync (.ok c.block) (c.serveAll stored)) :=
  ⟨fun _ hb => (Except.ok.inj hb).symm, Chain.surrounds_serveAll hc stored⟩

theorem DirTracks.saves (hst : st.Lawful) {d d' : Directories.Dir FileName} {s : Stored Z D}
    {saved : Except WalletError Unit} (h : DirTracks L d₀ st c v d) (hs : Tracks L d₀ c v s)
    (hsave : st.Saves d s saved d') : DirTracks L d₀ st c v d' := by
  obtain ⟨found, hloads, htracks⟩ := h
  rcases hsave.loads hst hloads with hnew | ⟨-, hold⟩
  · exact ⟨some s, hnew, fun s' hs' => Option.some.inj hs' ▸ hs⟩
  · exact ⟨found, hold, htracks⟩

theorem DirTracks.savesAll (hst : st.Lawful) {d d' : Directories.Dir FileName}
    {written : List (Stored Z D)} (h : DirTracks L d₀ st c v d)
    (hs : ∀ s ∈ written, Tracks L d₀ c v s) (hsaves : SavesAll st d written d') :
    DirTracks L d₀ st c v d' := by
  induction hsaves with
  | nil d => exact h
  | cons hsave hrest ih =>
    exact ih (h.saves hst (hs _ (by simp)) hsave) (fun s hs' => hs s (by simp [hs']))

theorem DirTracks.grows {d : Directories.Dir FileName} (h : DirTracks L d₀ st c v d)
    (hgrows : Grows L d₀ c c' v v') : DirTracks L d₀ st c' v' d := by
  obtain ⟨found, hloads, htracks⟩ := h
  exact ⟨found, hloads, fun s hs => (htracks s hs).grows hgrows⟩

/-- A whole chain tracks itself. -/
theorem tracks_of_whole {s : Stored Z D} (hc : c.Runs L d₀ v)
    (h : wholeSync L c = .ok (unpinned s)) : Tracks L d₀ c v s :=
  tracks_of_playFrom hc _ [] (List.append_nil _) h

theorem syncOnce_tracks (sync : SyncOptions) (hL : L.Lawful) (hc : c.WellFormed)
    (hruns : c.Runs L d₀ v) {dir : Directories.Dir FileName} (hdir : DirTracks L d₀ st c v dir)
    {block : Except WalletError Block} {around : Surroundings}
    (hblock : ∀ b, block = .ok b → b = c.block) (haround : c.Surrounds around) :
    (∀ s ∈ (syncOnce L st dir sync block around).1, Tracks L d₀ c v s) ∧
      ∀ s : State Z D P, (syncOnce L st dir sync block around).2 = some (.ok s) →
        wholeSync L c = .ok (unpinned s.stored) := by
  cases block with
  | error e => exact ⟨by simp [syncOnce], by simp [syncOnce]⟩
  | ok b =>
    obtain rfl := hblock b rfl
    rcases syncOnce_sound (P := P) hruns hdir sync around with
      ⟨sync', start, hstart, heq⟩ | ⟨-, e, heq⟩
    · rw [heq]
      exact ⟨fun s hs => syncOnChain_tracked hL hc hruns haround hstart hs,
        fun s hs => syncOnChain_whole hL hc haround hstart hs⟩
    · rw [heq]
      exact ⟨by simp, by simp⟩

variable [∀ v, DecidableEq (P v)]

variable (L d₀ st) in
/-- A wallet that starts with an empty directory and follows a chain as it
grows, by syncs and resyncs that end at any point. -/
inductive Follows : Chain → LedgerVersion → Machine Z D P → Prop
  | start {c : Chain} {v : LedgerVersion} {dir : Directories.Dir FileName} (hc : c.WellFormed)
      (hruns : c.Runs L d₀ v) (hdir : Loads st dir none) : Follows c v ⟨none, dir⟩
  | grow {c c' : Chain} {v v' : LedgerVersion} {m : Machine Z D P} (h : Follows c v m)
      (hc : c'.WellFormed) (hgrows : Grows L d₀ c c' v v') : Follows c' v' m
  | step {c : Chain} {v : LedgerVersion} {m m' : Machine Z D P} {op : Op} (h : Follows c v m)
      (hop : op.Honest L c) (hstep : Step L st m op m') : Follows c v m'

/-- Whatever a wallet that follows a chain holds, in memory or on the disk,
tracks the chain. -/
theorem Follows.tracks (hL : L.Lawful) (hst : st.Lawful) {m : Machine Z D P}
    (h : Follows L d₀ st c v m) : c.WellFormed ∧ c.Runs L d₀ v ∧ DirTracks L d₀ st c v m.dir ∧
      ∀ s, m.memory = some s → Tracks L d₀ c v s.stored := by
  induction h with
  | start hc hruns hdir =>
    exact ⟨hc, hruns, ⟨none, hdir, fun s hs => by cases hs⟩, fun s hs => by cases hs⟩
  | grow h hc hgrows ih =>
    obtain ⟨-, -, hdir, hmemory⟩ := ih
    exact ⟨hc, hgrows.after, hdir.grows hgrows, fun s hs => (hmemory s hs).grows hgrows⟩
  | step h hop hstep ih =>
    obtain ⟨hc, hruns, hdir, hmemory⟩ := ih
    refine ⟨hc, hruns, ?_⟩
    cases hstep with
    | @unsynced m sync block around early late d' hwrites hsaves =>
      obtain ⟨hwritten, -⟩ := syncOnce_tracks (P := P) sync hL hc hruns hdir hop.1 hop.2
      refine ⟨hdir.savesAll hst (fun s hs => hwritten s ?_) hsaves, fun s hs => by cases hs⟩
      rw [hwrites]
      exact List.mem_append_left _ hs
    | @synced m sync block around s checkpoints d d' hresult hcheckpoints hsave =>
      obtain ⟨hwritten, hwhole⟩ := syncOnce_tracks (P := P) sync hL hc hruns hdir hop.1 hop.2
      rw [hresult] at hwritten hwhole
      have hs := tracks_of_whole hruns (hwhole s rfl)
      refine ⟨(hdir.savesAll hst (fun s' hs' => hwritten s' ?_) hcheckpoints).saves hst hs hsave,
        fun s' hs' => Option.some.inj hs' ▸ hs⟩
      exact List.mem_append_left _ hs'
    | @syncedInMemory m sync block around s hresult =>
      obtain ⟨-, hwhole⟩ := syncOnce_tracks (P := P) sync hL hc hruns hdir hop.1 hop.2
      rw [hresult] at hwhole
      exact ⟨hdir, fun s' hs' => Option.some.inj hs' ▸ tracks_of_whole hruns (hwhole s rfl)⟩
    | @edited s s' edit changed saved d d' hrun hsave =>
      cases edit with
      | resync around =>
        have hs := tracks_of_whole hruns (resync_whole hL hc hop (hmemory s rfl) hrun)
        have hpersisted : (s'.persist changed saved).1.stored = s'.stored := by
          unfold State.persist Wallet.persist
          split <;> rfl
        refine ⟨?_, fun s'' hs'' => ?_⟩
        · split at hsave
          · exact hdir.saves hst hs hsave
          · exact hsave ▸ hdir
        · obtain rfl := Option.some.inj hs''
          rw [hpersisted]
          exact hs
      | rebuild around => exact hop.elim
      | rescan around => exact hop.elim
      | watch coins => exact hop.elim
      | forget coins => exact hop.elim
    | @reserved s d pending saved =>
      exact ⟨hdir, fun s' hs' => Option.some.inj hs' ▸ hmemory s rfl⟩
    | @pinned s d pin =>
      exact ⟨hdir, fun s' hs' => Option.some.inj hs' ▸ (hmemory s rfl).of_unpinned rfl⟩
    | @saved s d d' saved hsave =>
      exact ⟨hdir.saves hst (hmemory s rfl) hsave, hmemory⟩
    | stopped => exact ⟨hdir, fun s hs => by cases hs⟩

variable (L) in
/-- One uninterrupted sync over the whole of the chain, which nothing stored. -/
def oneSync (c : Chain) : Awaited (State Z D P) :=
  (syncOnChain L ⟨false, false, none⟩ c.block (freshStart L) (c.serveAll none)).2

/-- Wherever a wallet's syncs and resyncs were split, and wherever each of them
ended, a sync from its directory and a resync from its memory give the states
and the cursors of one sync over the whole chain. Where nothing interrupts them,
they succeed as the one sync does. -/
theorem sync_split (hL : L.Lawful) (hst : st.Lawful) {m : Machine Z D P}
    (h : Follows L d₀ st c v m) :
    ∃ whole, oneSync L c = some whole ∧
      (∀ sync around s, c.Surrounds around →
        (syncOnce L st m.dir sync (.ok c.block) around).2 = some (.ok s) →
          ∃ s₀, whole = .ok s₀ ∧ unpinned s.stored = unpinned s₀.stored) ∧
      (∀ sync stored, ∃ result,
        (syncOnce L st m.dir sync (.ok c.block) (c.serveAll stored)).2 = some result ∧
          Agree (result >>= fun s => .ok (unpinned s.stored))
            (whole >>= fun s => .ok (unpinned s.stored))) ∧
      (∀ w, m.memory = some w → ∀ around w' changed, c.Answers L around →
        (Edit.resync around).run L w = some (.ok (w', changed)) →
          ∃ s₀, whole = .ok s₀ ∧ unpinned w'.stored = unpinned s₀.stored) ∧
      ∀ w, m.memory = some w → ∀ stored, ∃ result,
        (Edit.resync (c.answerAll stored)).run L w = some result ∧
          Agree (result >>= fun out => .ok (unpinned out.1.stored))
            (whole >>= fun s => .ok (unpinned s.stored)) := by
  obtain ⟨hc, hruns, hdir, hmemory⟩ := h.tracks hL hst
  obtain ⟨whole, hwhole, hagree⟩ := syncOnChain_agrees (P := P) hL hc ⟨false, false, none⟩ none
    (.fresh : Sound L d₀ c v (freshStart L))
  -- What the one sync gives, where something else gives the whole chain.
  have hsame : ∀ {s : State Z D P}, wholeSync L c = .ok (unpinned s.stored) →
      ∃ s₀, whole = .ok s₀ ∧ unpinned s.stored = unpinned s₀.stored := by
    intro s hs
    obtain ⟨s₀, hs₀, heq⟩ := bind_eq_ok.mp ((hagree _).mpr hs)
    exact ⟨s₀, hs₀, (Except.ok.inj heq).symm⟩
  refine ⟨whole, hwhole, fun sync around s haround hs => ?_, fun sync stored => ?_,
    fun w hw around w' changed haround hrun => ?_, fun w hw stored => ?_⟩
  · obtain ⟨-, hsync⟩ := syncOnce_tracks (P := P) sync hL hc hruns hdir
      (fun b hb => (Except.ok.inj hb).symm) haround
    exact hsame (hsync s hs)
  · rcases syncOnce_sound (P := P) hruns hdir sync (c.serveAll stored) with
      ⟨sync', start, hstart, heq⟩ | ⟨halive, -⟩
    · obtain ⟨result, hresult, hsync⟩ := syncOnChain_agrees (P := P) hL hc sync' stored hstart
      rw [heq]
      exact ⟨result, hresult, hsync.trans hagree.symm⟩
    · cases halive
  · exact hsame (resync_whole hL hc haround (hmemory w hw) hrun)
  · obtain ⟨result, hresult, hresync⟩ := resync_answerAll hL hc (hmemory w hw) stored
    exact ⟨result, hresult, hresync.trans hagree.symm⟩

end Following

section Counting

/-- Ledgers whose states count the events that they took. -/
def countingLedgers : Ledgers (fun _ => ℕ) (fun _ => ℕ) (fun _ => Bytes) (fun _ => Unit) where
  events := ⟨fun bytes => .ok (if bytes = [9] then "9" else "8"), "8", "9"⟩
  decodeEvent _ bytes := .ok bytes
  blockTime _ _ := none
  spendNullifier _ _ := none
  newZswap _ := 0
  replayZswap _ n es := .ok (n + es.length)
  commitment _ coin := coin.nonce
  watchFor _ n _ := n
  pendingOutputs _ _ := []
  removePendingOutput _ n _ := n
  coins _ _ := []
  oldToNew n := .ok n
  newDust _ _ := 0
  replayDust _ n es := .ok (n + es.length)
  parameters := ⟨fun bytes => .ok (if bytes = [9] then "9" else "8"), "8", "9"⟩
  decodeParameters _ _ := .ok ()
  parameterFields _ _ := ⟨3600, 60, 1, 1, 1, "1"⟩

theorem countingLedgers_lawful : countingLedgers.Lawful where
  zswap v := ⟨fun n => rfl, fun n xs ys => by simp [countingLedgers, bind, Except.bind, add_assoc]⟩
  dust v := ⟨fun n => rfl, fun n xs ys => by simp [countingLedgers, bind, Except.bind, add_assoc]⟩

/-- A chain with one shielded event, and the same chain after the fork. -/
def oneEvent : Chain := ⟨⟨some "08", some 1000⟩, [⟨1, "08"⟩], [], []⟩

def twoEvents : Chain :=
  ⟨⟨some "09", some 2000⟩, [⟨1, "08"⟩, ⟨2, "09"⟩], [⟨1, "09"⟩], []⟩

def oneEventWallet : Wallet (fun _ => ℕ) (fun _ => ℕ) (fun _ => Unit) .V8 :=
  ⟨1, 1, 0, 0, [], 0, some 0, none, (), some ⟨1, 1⟩, .default, false, false⟩

theorem oneEvent_wellFormed : oneEvent.WellFormed := by
  refine ⟨⟨?_, ?_⟩, ⟨?_, ?_⟩, ⟨?_, ?_⟩⟩ <;> simp [oneEvent, Ascending]

theorem twoEvents_wellFormed : twoEvents.WellFormed := by
  refine ⟨⟨?_, ?_⟩, ⟨?_, ?_⟩, ⟨?_, ?_⟩⟩ <;> simp [twoEvents, Ascending]

theorem oneEvent_grows : Grows countingLedgers (fun _ => (0 : ℕ)) oneEvent twoEvents .V8 .V9 where
  before := ⟨rfl, fun _ _ => rfl⟩
  after := ⟨rfl, fun _ _ => rfl⟩
  ledger := by decide
  zswap := ⟨[⟨2, "09"⟩], rfl, fun e _ raw u _ => by cases u <;> decide⟩
  dust := ⟨[⟨1, "09"⟩], rfl⟩
  txs := ⟨[], rfl⟩

/-- The wallet that a first sync saves before the fork, and the one that a sync
from its directory saves after it. -/
def savedWallet : Wallet (fun _ => ℕ) (fun _ => ℕ) (fun _ => Unit) .V8 :=
  { oneEventWallet with hasStorage := true }

def reloadedWallet : Wallet (fun _ => ℕ) (fun _ => ℕ) (fun _ => Unit) .V9 :=
  ⟨2, 2, 1, 1, [], 0, some 0, none, (), some ⟨2, 2⟩, .default, true, false⟩

theorem syncOnce_first : syncOnce countingLedgers numberedStore ⟨false, fun _ => none⟩
    ⟨true, true, none⟩ (.ok oneEvent.block) (oneEvent.serveAll none) =
      ([] ++ [State.stored ⟨.V8, savedWallet⟩], some (.ok ⟨.V8, savedWallet⟩)) := rfl

theorem syncOnce_reload {d : Directories.Dir FileName}
    (hloads : Loads numberedStore d (some (State.stored ⟨.V8, savedWallet⟩))) :
    syncOnce countingLedgers numberedStore d ⟨true, true, none⟩ (.ok twoEvents.block)
      (twoEvents.serveAll none) =
        ([] ++ [State.stored ⟨.V9, reloadedWallet⟩], some (.ok ⟨.V9, reloadedWallet⟩)) := by
  have hledger : ledgerOf countingLedgers twoEvents.block = .ok .V9 := rfl
  have hload : numberedStore.loadSnapshot d .V9 = .ok (some (State.stored ⟨.V8, savedWallet⟩)) :=
    hloads.loadSnapshot (by decide)
  unfold syncOnce
  simp only [hledger, hload, if_true]
  rfl

/-- A sync that is saved, the end of the process, and a sync from the directory
after the fork. -/
theorem sync_split_fork : ∃ d, Loads numberedStore d (some (State.stored ⟨.V9, reloadedWallet⟩)) ∧
    ∃ whole, oneSync countingLedgers twoEvents = some whole ∧
      (∀ sync around s, twoEvents.Surrounds around →
        (syncOnce countingLedgers numberedStore d sync (.ok twoEvents.block) around).2 =
          some (.ok s) →
          ∃ s₀, whole = .ok s₀ ∧ unpinned s.stored = unpinned s₀.stored) ∧
      (∀ sync stored, ∃ result,
        (syncOnce countingLedgers numberedStore d sync (.ok twoEvents.block)
          (twoEvents.serveAll stored)).2 = some result ∧
          Agree (result >>= fun s => .ok (unpinned s.stored))
            (whole >>= fun s => .ok (unpinned s.stored))) ∧
      (∀ w, some (⟨.V9, reloadedWallet⟩ : State _ _ _) = some w → ∀ around w' changed,
        twoEvents.Answers countingLedgers around →
        (Edit.resync around).run countingLedgers w = some (.ok (w', changed)) →
          ∃ s₀, whole = .ok s₀ ∧ unpinned w'.stored = unpinned s₀.stored) ∧
      ∀ w, some (⟨.V9, reloadedWallet⟩ : State _ _ _) = some w → ∀ stored, ∃ result,
        (Edit.resync (twoEvents.answerAll stored)).run countingLedgers w = some result ∧
          Agree (result >>= fun out => .ok (unpinned out.1.stored))
            (whole >>= fun s => .ok (unpinned s.stored)) := by
  obtain ⟨d₁, hsave⟩ := numberedStore.exists_saves ⟨false, fun _ => none⟩
    (State.stored ⟨.V8, savedWallet⟩)
  obtain ⟨d₂, hsave'⟩ := numberedStore.exists_saves d₁ (State.stored ⟨.V9, reloadedWallet⟩)
  have hloads := hsave.loads_ok numberedStore_lawful
  have hfirst : Step countingLedgers numberedStore ⟨none, ⟨false, fun _ => none⟩⟩
      (.sync ⟨true, true, none⟩ (.ok oneEvent.block) (oneEvent.serveAll none))
      ⟨some ⟨.V8, savedWallet⟩, d₁⟩ := .synced syncOnce_first (.nil _) hsave
  have hreload : Step countingLedgers numberedStore ⟨none, d₁⟩
      (.sync ⟨true, true, none⟩ (.ok twoEvents.block) (twoEvents.serveAll none))
      ⟨some ⟨.V9, reloadedWallet⟩, d₂⟩ := .synced (syncOnce_reload hloads) (.nil _) hsave'
  have hstart : Follows countingLedgers (fun _ => 0) numberedStore oneEvent .V8
      ⟨none, ⟨false, fun _ => none⟩⟩ :=
    .start oneEvent_wellFormed oneEvent_grows.before (fun v => rfl)
  have hstop : Op.Honest countingLedgers oneEvent .stop := trivial
  have hstopped : Follows countingLedgers (fun _ => 0) numberedStore oneEvent .V8 ⟨none, d₁⟩ :=
    (hstart.step (Op.honest_sync oneEvent_wellFormed _ none) hfirst).step hstop .stopped
  have hfollows := (hstopped.grow twoEvents_wellFormed oneEvent_grows).step
    (Op.honest_sync twoEvents_wellFormed _ none) hreload
  exact ⟨d₂, hsave'.loads_ok numberedStore_lawful,
    sync_split countingLedgers_lawful numberedStore_lawful hfollows⟩

end Counting

end MidnightRs.ChainSync
