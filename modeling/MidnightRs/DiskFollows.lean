import MidnightRs.SplitRuns

/-!
What the disk holds of the state in memory. A save writes the whole state, but
a commit that seems to have changed nothing is not saved, and what changed is
read off the cursors.
-/
namespace MidnightRs.ChainSync

open LedgerReplays Storage Reservations Directories Streams

variable {Z D E P : LedgerVersion → Type}

section Attempts

variable {L : Ledgers Z D E P} {st : Store Z D} {dir : Dir FileName} {sync : SyncOptions}
  {around : Surroundings}

theorem andThen_ok {α β : Type} {a : Awaited α} {f : α → Awaited β} {y : β}
    (h : andThen a f = some (.ok y)) : ∃ x, a = some (.ok x) ∧ f x = some (.ok y) := by
  rcases a with _ | e | x
  · cases h
  · cases h
  · exact ⟨x, rfl, h⟩

/-- The snapshot that a sync resumes from. -/
def foundSnapshot (L : Ledgers Z D E P) (st : Store Z D) (dir : Dir FileName)
    (sync : SyncOptions) (block : Except WalletError Block) : Option (Stored Z D) :=
  match block with
  | .error _ => none
  | .ok block =>
    match ledgerOf L block with
    | .error _ => none
    | .ok chain =>
      match if sync.hasStorage then st.loadSnapshot dir chain else .ok none with
      | .error _ => none
      | .ok found =>
        found.filter (fun s => !discardUnpinnedSnapshot sync.chainPin.isSome s.2.chainPin.isSome)

theorem foundSnapshot_some {block : Except WalletError Block} {s : Stored Z D}
    (h : foundSnapshot L st dir sync block = some s) :
    sync.hasStorage = true ∧ (∃ chain, st.loadSnapshot dir chain = .ok (some s)) ∧
      discardUnpinnedSnapshot sync.chainPin.isSome s.2.chainPin.isSome = false := by
  unfold foundSnapshot at h
  split at h
  · cases h
  split at h
  · cases h
  rename_i chain _
  split at h
  · cases h
  rename_i found hload
  obtain ⟨hfound, hdiscard⟩ := Option.filter_eq_some_iff.mp h
  subst hfound
  split at hload
  · rename_i hstorage
    exact ⟨hstorage, ⟨chain, hload⟩, by simpa using hdiscard⟩
  · cases hload

/-- What an attempt of a sync does: it fails before it replays anything, or it
syncs from the chain's first event, or from the snapshot it found. -/
theorem syncOnce_cases (L : Ledgers Z D E P) (st : Store Z D) (dir : Dir FileName)
    (sync : SyncOptions) (block : Except WalletError Block) (around : Surroundings) :
    (∃ e, syncOnce L st dir sync block around = ([], some (.error e))) ∨
    ∃ b, (foundSnapshot L st dir sync block = none ∧ syncOnce L st dir sync block around =
        syncOnChain L sync b (.genesis ⟨.V8, L.newZswap .V8⟩) around) ∨
      ∃ s, foundSnapshot L st dir sync block = some s ∧ syncOnce L st dir sync block around =
        syncOnChain L { sync with chainPin := sync.chainPin.or s.2.chainPin } b (.resume s)
          around := by
  cases block with
  | error e => exact Or.inl ⟨e, rfl⟩
  | ok b =>
    cases hledger : ledgerOf L b with
    | error e =>
      refine Or.inl ⟨e, ?_⟩
      simp only [syncOnce, hledger]
    | ok chain =>
      simp only [syncOnce, foundSnapshot, hledger]
      rcases hload : (if sync.hasStorage then st.loadSnapshot dir chain else .ok none) with
        e | found
      · exact Or.inl ⟨e, rfl⟩
      · simp only
        cases hfilter : found.filter (fun s =>
            !discardUnpinnedSnapshot sync.chainPin.isSome s.2.chainPin.isSome) with
        | none => exact Or.inr ⟨b, Or.inl ⟨rfl, rfl⟩⟩
        | some s =>
          by_cases halive : around.alive = true
          · simp only [if_pos halive]
            exact Or.inr ⟨b, Or.inr ⟨s, rfl, rfl⟩⟩
          · simp only [if_neg halive]
            exact Or.inl ⟨_, rfl⟩

theorem finishDust_wallet {v : LedgerVersion} {start : SyncStart Z D v} {parameters : P v}
    {time : Timestamp} {dust : DustReplay (D v)} {w : Wallet Z D P v}
    (h : finishDust L sync start parameters time around dust = .ok w) :
    w.hasStorage = sync.hasStorage ∧ w.chainPin = sync.chainPin ∧ w.saveFailed = false := by
  unfold finishDust at h
  cases hlater : expectNoLater v dust.laterLedger with
  | error e =>
    rw [hlater] at h
    cases h
  | ok u =>
    rw [hlater] at h
    simp only at h
    split at h
    · cases hpending : around.storedPending with
      | error e =>
        rw [hpending] at h
        cases h
      | ok stored =>
        rw [hpending] at h
        cases h
        exact ⟨rfl, rfl, rfl⟩
    · cases h
      exact ⟨rfl, rfl, rfl⟩

/-- The wallet of a sync has the storage and the pin that the sync was given,
and went to the disk where the sync saves. -/
theorem finishSync_wallet {v : LedgerVersion} {block : Block} {start : SyncStart Z D v}
    {w : Wallet Z D P v} (h : (finishSync L sync block start around).2 = some (.ok w)) :
    (w.hasStorage = sync.hasStorage ∧ w.chainPin = sync.chainPin ∧ w.saveFailed = false) ∧
      ((sync.hasStorage && sync.save) = true →
        w.snapshot ∈ (finishSync L sync block start around).1) := by
  unfold finishSync at h ⊢
  cases hparameters : decodeLedgerParameters L v block with
  | error e =>
    rw [hparameters] at h
    cases h
  | ok parameters =>
    cases htime : blockTime block with
    | error e =>
      rw [hparameters, htime] at h
      cases h
    | ok time =>
      rw [hparameters, htime] at h
      simp only at h ⊢
      generalize hassembled : andThen _ _ = assembled at h ⊢
      obtain rfl := saveSynced_ok h
      have hwallet : w.hasStorage = sync.hasStorage ∧ w.chainPin = sync.chainPin ∧
          w.saveFailed = false := by
        obtain ⟨dust, -, hfinish⟩ := andThen_ok hassembled
        exact finishDust_wallet (Option.some.inj hfinish)
      refine ⟨hwallet, fun hsave => List.mem_append_right _ ?_⟩
      unfold saveSynced
      simp only [if_pos hsave]
      cases around.saved with
      | error e => simp
      | ok u => simp

theorem syncOnChain_state {block : Block} {start : Start Z D} {s : State Z D P}
    (h : (syncOnChain L sync block start around).2 = some (.ok s)) :
    (s.2.hasStorage = sync.hasStorage ∧ s.2.chainPin = sync.chainPin ∧ s.2.saveFailed = false) ∧
      ((sync.hasStorage && sync.save) = true →
        s.stored ∈ (syncOnChain L sync block start around).1) := by
  obtain ⟨v, hledger, shielded, tracked, hjoin, z, hz⟩ := syncOnChain_reaches (Or.inr ⟨s, h⟩)
  rw [syncOnChain_eq hledger hjoin hz] at h ⊢
  simp only at h ⊢
  obtain ⟨w, hfinished, hw⟩ := andThen_ok h
  cases hw
  obtain ⟨hwallet, hsaves⟩ := finishSync_wallet hfinished
  exact ⟨hwallet, fun hsave => List.mem_map_of_mem (hsaves hsave)⟩

/-- A process opens its wallet by a sync that saves: such a sync has written
nothing only where the wallet has no storage. -/
theorem syncOnce_unsaved (hsave : sync.save = true) {block : Except WalletError Block}
    {s : State Z D P} (h : syncOnce L st dir sync block around = ([], some (.ok s))) :
    s.2.hasStorage = false := by
  have hchain : ∀ {sync' : SyncOptions} {b : Block} {start : Start Z D}, sync'.save = true →
      syncOnChain L sync' b start around = ([], some (.ok s)) → s.2.hasStorage = false := by
    intro sync' b start hsave' hout
    obtain ⟨⟨hstorage, -, -⟩, hsaves⟩ := syncOnChain_state (congrArg Prod.snd hout)
    rw [hout] at hsaves
    by_contra htrue
    rw [Bool.not_eq_false, hstorage] at htrue
    have hmem := hsaves (by rw [htrue, hsave']; rfl)
    cases hmem
  rcases syncOnce_cases L st dir sync block around with
    ⟨e, he⟩ | ⟨b, ⟨-, hfresh⟩ | ⟨found, -, hresume⟩⟩
  · rw [he] at h
    cases h
  · exact hchain hsave (hfresh.symm.trans h)
  · refine hchain ?_ (hresume.symm.trans h)
    exact hsave

end Attempts

section Unmoved

variable {L : Ledgers Z D E P} {v : LedgerVersion} {around : Surroundings}

theorem resyncCommit_ok {dust : Except WalletError (DustReplay (D v))}
    {zswap : Except WalletError (ZswapReplay (Z v))}
    {unshielded : Except WalletError Unshielded.UnshieldedReplay}
    {block : Except WalletError Block} {c : ResyncCommit Z D P v}
    (h : resyncCommit L dust zswap unshielded block = .ok c) (chainPin : Option ChainPin) :
    ∃ d z u, dust = .ok d ∧ zswap = .ok z ∧ unshielded = .ok u ∧
      c.snapshot chainPin = ⟨z.state, d.wallet, z.lastId, d.lastId, u.lastBlockHeight,
        some u.lastTxId, chainPin, u.utxos⟩ := by
  unfold resyncCommit at h
  obtain ⟨d, hd, h⟩ := bind_eq_ok.mp h
  obtain ⟨z, hz, h⟩ := bind_eq_ok.mp h
  obtain ⟨u, hu, h⟩ := bind_eq_ok.mp h
  obtain ⟨block, -, h⟩ := bind_eq_ok.mp h
  obtain ⟨ledger, -, h⟩ := bind_eq_ok.mp h
  obtain ⟨-, -, h⟩ := bind_eq_ok.mp h
  obtain ⟨-, -, h⟩ := bind_eq_ok.mp h
  obtain ⟨-, -, h⟩ := bind_eq_ok.mp h
  obtain ⟨time, -, h⟩ := bind_eq_ok.mp h
  obtain ⟨parameters, -, h⟩ := bind_eq_ok.mp h
  cases h
  exact ⟨d, z, u, hd, hz, hu, rfl⟩

/-- The replays behind a commit. -/
theorem runPlan_ok {plan : Snapshot Z D v} {block : Except WalletError Block}
    {c : ResyncCommit Z D P v} (h : runPlan L plan block around = some (.ok c))
    (chainPin : Option ChainPin) :
    ∃ (d : DustReplay (D v)) (z : ZswapReplay (Z v)) (u : Unshielded.UnshieldedReplay),
      (replayDustEvents L v plan.dustWallet (plan.dustEventId + 1) true false
        dustCheckpointInterval around.dust).2 = some (.ok d) ∧
      replayZswapEvents L v plan.zswapState (plan.zswapEventId + 1) true
        (around.zswap.headD []) = some (.ok z) ∧
      Unshielded.replayUnshieldedEvents ⟨plan.lastTxId.elim 0 (· + 1), true⟩
        plan.unshieldedUtxos plan.lastBlockHeight around.unshielded = some (.ok u) ∧
      c.snapshot chainPin = ⟨z.state, d.wallet, z.lastId, d.lastId, u.lastBlockHeight,
        some u.lastTxId, chainPin, u.utxos⟩ := by
  unfold runPlan at h
  split at h
  · rename_i dust zswap unshielded hdust hzswap hunshielded
    obtain ⟨d, z, u, rfl, rfl, rfl, hcommit⟩ := resyncCommit_ok (Option.some.inj h) chainPin
    exact ⟨d, z, u, hdust, hzswap, hunshielded, hcommit⟩
  · cases h

/-- What the indexer may serve to a resync of a wallet so that each change
moves a cursor: no event before the first, and no transaction without an id of
a block that the wallet knows. -/
structure Telling (s : State Z D P) (around : ResyncAround) : Prop where
  zswap : 0 ≤ s.2.zswapEventId
  dust : 0 ≤ s.2.dustEventId
  above : ∀ tx, Unshielded.Served around.replay.unshielded tx →
    Unshielded.Above s.2.lastBlockHeight tx

/-- A commit that leaves the cursors where they are leaves the state as it is. -/
theorem resynced_unmoved [∀ v, DecidableEq (P v)] {w : Wallet Z D P v} {around : ResyncAround}
    (htelling : Telling (⟨v, w⟩ : State Z D P) around) {c : ResyncCommit Z D P v}
    (h : runPlan L w.snapshot around.block around.replay = some (.ok c))
    (hmoved : w.movedBy c = false) : (w.resynced L c).snapshot = w.snapshot := by
  obtain ⟨d, z, u, hd, hz, hu, hcommit⟩ := runPlan_ok h w.chainPin
  simp only [Wallet.movedBy, Bool.or_eq_false_iff, decide_eq_false_iff_not, not_not] at hmoved
  obtain ⟨⟨⟨⟨⟨hdustId, hzswapId⟩, htxId⟩, hheight⟩, -⟩, -⟩ := hmoved
  have hdust : 0 ≤ w.dustEventId := htelling.dust
  have hzswap : 0 ≤ w.zswapEventId := htelling.zswap
  simp only [ResyncCommit.snapshot, Snapshot.mk.injEq, Option.some.injEq] at hcommit
  obtain ⟨hstate, hwallet, hzlast, hdlast, hulast, hutx, -, hutxos⟩ := hcommit
  have hz' : z.state = w.zswapState := replayZswapEvents_unmoved
    (show 0 < w.zswapEventId + 1 by omega) hz
    (by simp only [add_sub_cancel_right, ← hzlast, hzswapId])
  have hd' : d.wallet = w.dustWallet := replayDustEvents_unmoved
    (show 0 < w.dustEventId + 1 by omega) hd
    (by simp only [add_sub_cancel_right, ← hdlast, hdustId])
  have hu' := Unshielded.replay_unmoved around.replay.unshielded htelling.above u hu
  have hstart : w.snapshot.lastTxId.elim 0 (· + 1) = c.lastTxId + 1 := by
    rw [show w.snapshot.lastTxId = some c.lastTxId from htxId.symm]
    rfl
  rw [hstart] at hu'
  have hid : Replay.lastAppliedBefore (c.lastTxId + 1) ≤ u.lastTxId := hu'.id_le
  have hheight' : w.lastBlockHeight ≤ u.lastBlockHeight := hu'.height_le
  unfold Replay.lastAppliedBefore at hid
  have hnow : u.utxos = w.unshieldedUtxos := by
    refine hu'.same (by simp only; omega) ?_ (by simp only; omega)
    unfold Replay.lastAppliedBefore
    simp only
    omega
  rw [resynced_snapshot]
  simp only [ResyncCommit.snapshot, Wallet.snapshot, Snapshot.mk.injEq, hstate, hwallet, hutxos,
    hz', hd', hnow, hdustId, hzswapId, htxId, true_and, and_true]
  omega

end Unmoved

section Edits

section Parts

variable {L : Ledgers Z D E P}

theorem cross_ok {w : Wallet Z D P .V8} {block : Block} {around : Surroundings}
    {commit : Commit Z D P} (h : cross L w block around = some (.ok commit)) :
    ∃ crossed, commit = .crossed crossed ∧ (syncOnChain L ⟨w.hasStorage, false, w.chainPin⟩ block
      (.resume ⟨.V8, w.snapshot⟩) around).2 = some (.ok ⟨.V9, crossed⟩) := by
  unfold cross at h
  split at h
  · cases h
  · cases h
  · rename_i crossed hsync
    cases h
    exact ⟨crossed, rfl, hsync⟩
  · cases h

theorem runRebuild_ok {s : State Z D P} {around : ResyncAround} {commit : Commit Z D P}
    (h : runRebuild L s around = some (.ok commit)) :
    ∃ new block rest, commit = .rebuilt new ∧
      (around.first = .ok block ∧ rest = around.replay ∨
        around.again = .ok block ∧ rest = around.rest) ∧
      (syncOnChain L ⟨s.2.hasStorage, false, s.2.chainPin⟩ block
        (.genesis ⟨.V8, registering L .V8 (coinsToRegister L s.1 s.2.zswapState)⟩) rest).2 =
          some (.ok new) := by
  unfold runRebuild at h
  simp only at h
  cases hfirst : around.first with
  | error e =>
    rw [hfirst] at h
    cases h
  | ok block =>
    rw [hfirst] at h
    simp only at h
    split at h
    · split at h
      · cases hagain : around.again with
        | error e =>
          rw [hagain] at h
          cases h
        | ok block' =>
          rw [hagain] at h
          obtain ⟨new, hsync, hcommit⟩ := andThen_ok h
          cases hcommit
          exact ⟨new, block', around.rest, rfl, Or.inr ⟨rfl, rfl⟩, hsync⟩
      · cases h
    · obtain ⟨new, hsync, hcommit⟩ := andThen_ok h
      cases hcommit
      exact ⟨new, block, around.replay, rfl, Or.inl ⟨rfl, rfl⟩, hsync⟩

theorem adopt_wallet (s new : State Z D P) :
    (adopt s new).2.hasStorage = new.2.hasStorage ∧ (adopt s new).2.chainPin = new.2.chainPin ∧
      (adopt s new).stored = new.stored := by
  obtain ⟨v, w⟩ := s
  obtain ⟨v', w'⟩ := new
  cases v <;> cases v' <;> exact ⟨rfl, rfl, rfl⟩

theorem keepPin_hasStorage (old : Wallet Z D P .V8) (w : Wallet Z D P .V9) :
    (keepPin old w).hasStorage = w.hasStorage := by
  unfold keepPin
  cases old.chainPin <;> rfl

/-- Where no coin is registered under a commitment, nothing is forgotten. -/
theorem forgetAll_unchanged {v : LedgerVersion} (zswap : Z v) (coins : List CoinInfo)
    (h : (Wallet.forgetAll L zswap coins).2 = false) :
    (Wallet.forgetAll L zswap coins).1 = zswap := by
  suffices hfold : ∀ (z : Z v) (forgotten : Bool),
      (coins.foldl (fun out coin => ((Wallet.forgetCoin L out.1 coin).1,
        out.2 || (Wallet.forgetCoin L out.1 coin).2)) (z, forgotten)).2 = false →
      forgotten = false ∧ (coins.foldl (fun out coin => ((Wallet.forgetCoin L out.1 coin).1,
        out.2 || (Wallet.forgetCoin L out.1 coin).2)) (z, forgotten)).1 = z from
    (hfold zswap false h).2
  clear h
  induction coins with
  | nil => exact fun z forgotten h => ⟨h, rfl⟩
  | cons coin coins ih =>
    intro z forgotten h
    have hcoin : (Wallet.forgetCoin L z coin).2 = false → (Wallet.forgetCoin L z coin).1 = z := by
      unfold Wallet.forgetCoin
      simp only
      split
      · exact fun h => by cases h
      · exact fun _ => rfl
    obtain ⟨hforgotten, hlast⟩ := ih _ _ h
    obtain ⟨hbefore, hnone⟩ := Bool.or_eq_false_iff.mp hforgotten
    exact ⟨hbefore, hlast.trans (hcoin hnone)⟩

end Parts

variable (L : Ledgers Z D E P) [∀ v, DecidableEq (P v)]

/-- What an edit does, and whether it says that it changed anything. -/
inductive Edited : State Z D P → Edit → State Z D P → Bool → Prop
  | resynced {v : LedgerVersion} {w : Wallet Z D P v} {around : ResyncAround}
      {c : ResyncCommit Z D P v}
      (hrun : runPlan L w.snapshot around.block around.replay = some (.ok c)) :
      Edited ⟨v, w⟩ (.resync around) ⟨v, w.resynced L c⟩ (w.movedBy c)
  | crossed {w : Wallet Z D P .V8} {around : ResyncAround} {block : Block}
      {crossed : Wallet Z D P .V9}
      (hblock : around.again = .ok block ∨
        around.first = .ok block ∧ ledgerOf L block = .ok .V9)
      (hsync : (syncOnChain L ⟨w.hasStorage, false, w.chainPin⟩ block (.resume ⟨.V8, w.snapshot⟩)
        around.rest).2 = some (.ok ⟨.V9, crossed⟩)) :
      Edited ⟨.V8, w⟩ (.resync around) ⟨.V9, keepPin w crossed⟩ true
  | rebuilt {s new : State Z D P} {around : ResyncAround} {block : Block} {rest : Surroundings}
      (hblock : around.first = .ok block ∧ rest = around.replay ∨
        around.again = .ok block ∧ rest = around.rest)
      (hsync : (syncOnChain L ⟨s.2.hasStorage, false, s.2.chainPin⟩ block
        (.genesis ⟨.V8, registering L .V8 (coinsToRegister L s.1 s.2.zswapState)⟩) rest).2 =
          some (.ok new)) : Edited s (.rebuild around) (adopt s new) true
  | rescanned {s : State Z D P} {around : RescanAround} {c : RescanCommit Z s.1}
      (hrun : runRescan L s.1 s.2.zswapState around = some (.ok c)) :
      Edited s (.rescan around) ⟨s.1, (s.2.commitShieldedRescan c).1⟩ true
  | watched {s : State Z D P} (coins : List CoinInfo) :
      Edited s (.watch coins) ⟨s.1, (s.2.watchForCoins L coins).1⟩ (!coins.isEmpty)
  | forgot {s : State Z D P} (coins : List CoinInfo) :
      Edited s (.forget coins) ⟨s.1, (s.2.forgetCoins L coins).1⟩ (s.2.forgetCoins L coins).2

variable {L}

/-- What an edit does when it has an effect. -/
theorem Edit.run_ok {s s' : State Z D P} {edit : Edit} {changed : Bool}
    (h : edit.run L s = some (.ok (s', changed))) : Edited L s edit s' changed := by
  cases edit with
  | resync around =>
    obtain ⟨commit, hrun, hcommit⟩ := andThen_ok h
    rcases runResync_ok L hrun with ⟨v, w, c, rfl, rfl, hplan⟩ | ⟨w, block, rfl, hcross, hblock⟩
    · cases v <;> cases hcommit <;> exact .resynced hplan
    · obtain ⟨crossed, rfl, hsync⟩ := cross_ok hcross
      cases hcommit
      exact .crossed hblock hsync
  | rebuild around =>
    obtain ⟨commit, hrun, hcommit⟩ := andThen_ok h
    obtain ⟨new, block, rest, rfl, hblock, hsync⟩ := runRebuild_ok hrun
    obtain ⟨v, w⟩ := s
    cases v <;> cases hcommit <;> exact .rebuilt hblock hsync
  | rescan around =>
    obtain ⟨c, hrun, hcommit⟩ := andThen_ok h
    cases hcommit
    exact .rescanned hrun
  | watch coins =>
    cases h
    exact .watched coins
  | forget coins =>
    cases h
    exact .forgot coins

theorem Edited.hasStorage {s s' : State Z D P} {edit : Edit} {changed : Bool}
    (h : Edited L s edit s' changed) : s'.2.hasStorage = s.2.hasStorage := by
  cases h with
  | resynced hrun => rfl
  | crossed hblock hsync =>
    rw [keepPin_hasStorage]
    exact (syncOnChain_state hsync).1.1
  | rebuilt hblock hsync => exact (adopt_wallet _ _).1.trans (syncOnChain_state hsync).1.1
  | rescanned hrun => rfl
  | watched coins => rfl
  | forgot coins => rfl

/-- Only a commit that says it changed something lifts the mark of a failed
save. -/
theorem Edited.saveFailed {s s' : State Z D P} {edit : Edit} {changed : Bool}
    (h : Edited L s edit s' changed) : changed = true ∨ s'.2.saveFailed = s.2.saveFailed := by
  cases h with
  | resynced hrun => exact Or.inr rfl
  | crossed hblock hsync => exact Or.inl rfl
  | rebuilt hblock hsync => exact Or.inl rfl
  | rescanned hrun => exact Or.inl rfl
  | watched coins => exact Or.inr rfl
  | forgot coins => exact Or.inr rfl
/-- What an edit may be told so that each change moves a cursor. -/
def Edit.Telling (s : State Z D P) : Edit → Prop
  | .resync around => ChainSync.Telling s around
  | _ => True

/-- An edit that says it changed nothing leaves what a save would write. -/
theorem Edited.unchanged {s s' : State Z D P} {edit : Edit} (htelling : edit.Telling s)
    (h : Edited L s edit s' false) : s'.stored = s.stored := by
  generalize hchanged : false = changed at h
  cases h with
  | @resynced v w around c hrun =>
    exact congrArg (Sigma.mk v) (resynced_unmoved htelling hrun hchanged.symm)
  | crossed hblock hsync => cases hchanged
  | rebuilt hblock hsync => cases hchanged
  | rescanned hrun => cases hchanged
  | watched coins =>
    cases coins with
    | nil => rfl
    | cons coin coins => cases hchanged
  | forgot coins =>
    have hsame := forgetAll_unchanged s.2.zswapState coins hchanged.symm
    unfold State.stored Wallet.snapshot Wallet.forgetCoins
    simp only [hsame]

end Edits

section Following

theorem persist_stored (s : State Z D P) (changed : Bool) (saved : Except WalletError Unit) :
    (s.persist changed saved).1.stored = s.stored := by
  obtain ⟨v, w⟩ := s
  unfold State.persist State.stored Wallet.persist
  simp only
  split <;> rfl

theorem persist_saveFailed (s : State Z D P) (changed : Bool) (saved : Except WalletError Unit)
    (h : s.2.persists changed = true) :
    (s.persist changed saved).1.2.saveFailed = true ↔ saved ≠ .ok () := by
  obtain ⟨v, w⟩ := s
  unfold State.persist Wallet.persist
  simp only at h ⊢
  rw [if_pos h]
  rcases saved with e | ⟨⟩
  · simp
  · simp

theorem persist_unsaved (s : State Z D P) (changed : Bool) (saved : Except WalletError Unit)
    (h : ¬s.2.persists changed = true) : (s.persist changed saved).1 = s := by
  obtain ⟨v, w⟩ := s
  unfold State.persist Wallet.persist
  simp only at h ⊢
  rw [if_neg h]

variable {L : Ledgers Z D E P} {st : Store Z D} [∀ v, DecidableEq (P v)]

/-- A process opens its wallet by a sync that saves. -/
def Op.Opens : Op → Prop
  | .sync options _ _ => options.save = true
  | _ => True

/-- Whether each change that the operation makes moves a cursor. -/
def Op.Telling (m : Machine Z D P) : Op → Prop
  | .edit e => ∀ s, m.memory = some s → e.Telling s
  | _ => True

/-- Unless a save is marked as failed, the disk holds the state in memory. -/
def InSync (st : Store Z D) (m : Machine Z D P) : Prop :=
  ∀ s, m.memory = some s → s.2.hasStorage = true → s.2.saveFailed = false →
    ∃ x, Loads st m.dir (some x) ∧ unpinned x = unpinned s.stored

/-- An edit after a failed save goes to the disk, whatever it changed, and lifts
the mark only when the disk has taken it. -/
theorem Step.retries {s s' : State Z D P} {d d' : Dir FileName} {edit : Edit}
    (hstep : Step L st ⟨some s, d⟩ (.edit edit) ⟨some s', d'⟩) (hstorage : s.2.hasStorage = true)
    (hfailed : s.2.saveFailed = true) :
    ∃ saved, st.Saves d s'.stored saved d' ∧ (s'.2.saveFailed = true ↔ saved ≠ .ok ()) := by
  cases hstep with
  | @edited _ before _ changed saved _ _ hrun hsave =>
    have hedited := Edit.run_ok hrun
    have hpersists : before.2.persists changed = true := by
      unfold Wallet.persists
      rw [hedited.hasStorage, hstorage, Bool.and_true, Bool.or_eq_true]
      exact hedited.saveFailed.imp_right (·.trans hfailed)
    rw [if_pos hpersists] at hsave
    refine ⟨saved, ?_, persist_saveFailed before changed saved hpersists⟩
    rw [persist_stored]
    exact hsave

theorem InSync.step (hst : st.Lawful) {m m' : Machine Z D P} {op : Op} (hsync : InSync st m)
    (hopens : op.Opens) (htelling : op.Telling m) (hstep : Step L st m op m') : InSync st m' := by
  cases hstep with
  | unsynced hwrites hsaves => exact fun s hs => by cases hs
  | synced hresult hcheckpoints hsave =>
    intro s hs hstorage hsaved
    cases hs
    exact ⟨_, hsave.loads_ok hst, rfl⟩
  | syncedInMemory hresult =>
    intro s hs hstorage hsaved
    cases hs
    rw [syncOnce_unsaved hopens hresult] at hstorage
    cases hstorage
  | @edited s s' edit changed saved d d' hrun hsave =>
    have hedited := Edit.run_ok hrun
    by_cases hpersists : s'.2.persists changed = true
    · rw [if_pos hpersists] at hsave
      intro x hx hstorage hsaved
      cases hx
      have hok : saved = .ok () := by
        by_contra hne
        rw [(persist_saveFailed s' changed saved hpersists).mpr hne] at hsaved
        cases hsaved
      subst hok
      rw [persist_stored]
      exact ⟨_, hsave.loads_ok hst, rfl⟩
    · rw [if_neg hpersists] at hsave
      subst hsave
      rw [persist_unsaved s' changed saved hpersists]
      intro x hx hstorage hsaved
      cases hx
      have hunchanged : changed = false := by
        simpa [Wallet.persists, hsaved, hstorage] using hpersists
      subst hunchanged
      rw [hedited.unchanged (htelling s rfl)]
      refine hsync s rfl (hedited.hasStorage ▸ hstorage) ?_
      rcases hedited.saveFailed with hchanged | hsame
      · cases hchanged
      · exact hsame ▸ hsaved
  | @reserved s d pending saved =>
    intro x hx hstorage hsaved
    cases hx
    refine hsync s rfl hstorage ?_
    simp only [Wallet.setPending] at hsaved
    rw [if_pos (show s.2.hasStorage = true from hstorage)] at hsaved
    cases saved with
    | error e => cases hsaved
    | ok u => exact hsaved
  | @pinned s d pin =>
    intro x hx hstorage hsaved
    cases hx
    exact hsync s rfl hstorage hsaved
  | @saved s d d' saved hsave =>
    intro x hx hstorage hsaved
    cases hx
    obtain ⟨y, hloads, hy⟩ := hsync s rfl hstorage hsaved
    rcases hsave.loads hst hloads with hnew | ⟨-, hold⟩
    · exact ⟨_, hnew, rfl⟩
    · exact ⟨y, hold, hy⟩
  | stopped => exact fun s hs => by cases hs

/-- In every run in which each change moves a cursor, the disk holds the state
in memory unless a save is marked as failed, and an edit after a failed save
hands the whole state to the disk again. -/
theorem disk_follows (hst : st.Lawful) {dir : Dir FileName} {m : Machine Z D P}
    (hrun : Run L st (fun m op => op.Opens ∧ op.Telling m) ⟨none, dir⟩ m) :
    InSync st m ∧ ∀ s s' d' edit, m.memory = some s → s.2.hasStorage = true →
      s.2.saveFailed = true → Step L st m (.edit edit) ⟨some s', d'⟩ →
        ∃ saved, st.Saves m.dir s'.stored saved d' ∧ (s'.2.saveFailed = true ↔ saved ≠ .ok ()) := by
  refine ⟨?_, fun s s' d' edit hmemory hstorage hfailed hstep => ?_⟩
  · induction hrun with
    | refl => exact fun s hs => by cases hs
    | step hrun hop hstep ih => exact ih.step hst hop.1 hop.2 hstep
  · obtain ⟨memory, d⟩ := m
    simp only at hmemory
    subst hmemory
    exact hstep.retries hstorage hfailed

end Following

section Stale

/-- A chain with no events. -/
def quietChain : Chain := ⟨⟨some "08", some 1000⟩, [], [], []⟩

/-- A transaction without an id that creates an output. -/
def idlessTx : Unshielded.UnshieldedTxData where
  transaction := some ⟨none, some 0⟩
  createdUtxos := [{
    owner := "addr"
    tokenType := String.ofList (List.replicate 64 '0')
    value := "1"
    intentHash := String.ofList (List.replicate 64 '0')
    outputIndex := 0
    ctime := none
    registeredForDustGeneration := none }]
  spentUtxos := []

/-- A resync that is served the transaction. -/
def idlessResync : ResyncAround :=
  { quietChain.answerAll none with
    replay := { quietChain.serveAll none with
      unshielded := [fun _ => .serves [.transaction idlessTx, .progress 0]] } }

def quietWallet : Wallet (fun _ => ℕ) (fun _ => ℕ) (fun _ => Unit) .V8 :=
  ⟨0, 0, 0, 0, [], 0, some 0, none, (), some ⟨1, 1⟩, .default, true, false⟩

theorem quiet_sync : syncOnce countingLedgers numberedStore ⟨false, fun _ => none⟩
    ⟨true, true, none⟩ (.ok quietChain.block) (quietChain.serveAll none) =
      ([] ++ [State.stored ⟨.V8, quietWallet⟩], some (.ok ⟨.V8, quietWallet⟩)) := rfl

/-- A first sync, whose save succeeds. -/
theorem quiet_run : ∃ d, Run countingLedgers numberedStore (fun m op => op.Opens ∧ op.Telling m)
    ⟨none, ⟨false, fun _ => none⟩⟩ ⟨some ⟨.V8, quietWallet⟩, d⟩ ∧
      Loads numberedStore d (some (State.stored ⟨.V8, quietWallet⟩)) := by
  obtain ⟨d, hsave⟩ := numberedStore.exists_saves ⟨false, fun _ => none⟩
    (State.stored ⟨.V8, quietWallet⟩)
  have hstep : Step countingLedgers numberedStore ⟨none, ⟨false, fun _ => none⟩⟩
      (.sync ⟨true, true, none⟩ (.ok quietChain.block) (quietChain.serveAll none))
      ⟨some ⟨.V8, quietWallet⟩, d⟩ := .synced quiet_sync (.nil _) hsave
  refine ⟨d, (Run.refl _).step ?_ hstep, hsave.loads_ok numberedStore_lawful⟩
  exact ⟨rfl, trivial⟩

/-- The wallet after a save that failed. -/
def unsavedWallet : Wallet (fun _ => ℕ) (fun _ => ℕ) (fun _ => Unit) .V8 :=
  { quietWallet with saveFailed := true }

/-- A registration whose save fails, and a registration of nothing after it. -/
theorem disk_follows_retry : ∃ d d', InSync numberedStore ⟨some ⟨.V8, unsavedWallet⟩, d⟩ ∧
    ∃ saved, numberedStore.Saves d (State.stored ⟨.V8, quietWallet⟩) saved d' ∧
      (quietWallet.saveFailed = true ↔ saved ≠ .ok ()) := by
  obtain ⟨d, hquiet, -⟩ := quiet_run
  obtain ⟨d', hcommitted⟩ := numberedStore.exists_saves d (State.stored ⟨.V8, quietWallet⟩)
  have hstopped : numberedStore.Saves d (State.stored ⟨.V8, quietWallet⟩)
      (.error (.sync "no space left on device")) d := .stopped _ (List.nil_append _) rfl
  have hfails : Step countingLedgers numberedStore ⟨some ⟨.V8, quietWallet⟩, d⟩
      (.edit (.watch [⟨[1], [], 5⟩])) ⟨some ⟨.V8, unsavedWallet⟩, d⟩ :=
    @Step.edited _ _ _ _ _ _ _ _ ⟨.V8, quietWallet⟩ _ true _ _ _ rfl hstopped
  have hretry : Step countingLedgers numberedStore ⟨some ⟨.V8, unsavedWallet⟩, d⟩
      (.edit (.watch [])) ⟨some ⟨.V8, quietWallet⟩, d'⟩ :=
    @Step.edited _ _ _ _ _ _ _ _ ⟨.V8, unsavedWallet⟩ _ false _ _ _ rfl hcommitted
  have hallowed : Op.Opens (.edit (.watch [⟨[1], [], 5⟩])) ∧
      Op.Telling ⟨some ⟨.V8, quietWallet⟩, d⟩ (.edit (.watch [⟨[1], [], 5⟩])) :=
    ⟨trivial, fun s hs => trivial⟩
  have hfollows := disk_follows numberedStore_lawful (hquiet.step hallowed hfails)
  exact ⟨d, d', hfollows.1, hfollows.2 _ _ d' (.watch []) rfl rfl rfl hretry⟩

theorem idless_resync_run :
    (match (Edit.resync idlessResync).run countingLedgers ⟨.V8, quietWallet⟩ with
      | some (.ok (⟨.V8, w⟩, false)) => !w.unshieldedUtxos.isEmpty && w.hasStorage && !w.saveFailed
      | _ => false) = true := by
  decide +kernel

/-- The output is new, and no cursor says so. -/
theorem idless_resync : ∃ w, (Edit.resync idlessResync).run countingLedgers ⟨.V8, quietWallet⟩ =
    some (.ok (⟨.V8, w⟩, false)) ∧ w.unshieldedUtxos ≠ [] ∧ w.hasStorage = true ∧
      w.saveFailed = false := by
  have hout := idless_resync_run
  split at hout
  · rename_i w hrun
    refine ⟨w, hrun, ?_⟩
    simpa [and_assoc] using hout
  · cases hout

/-- A resync can leave the disk behind with no save marked as failed. -/
theorem disk_stale : ∃ m, Run countingLedgers numberedStore (fun _ op => op.Opens)
    ⟨none, ⟨false, fun _ => none⟩⟩ m ∧ ¬InSync numberedStore m := by
  obtain ⟨d, hquiet, hloads⟩ := quiet_run
  obtain ⟨w, hrun, hutxos, hstorage, hsaved⟩ := idless_resync
  have hunsaved : ¬w.persists false = true := by
    unfold Wallet.persists
    rw [hsaved]
    exact Bool.false_ne_true
  have hstep : Step countingLedgers numberedStore ⟨some ⟨.V8, quietWallet⟩, d⟩
      (.edit (.resync idlessResync)) ⟨some (State.persist ⟨.V8, w⟩ false (.ok ())).1, d⟩ :=
    .edited hrun (by rw [if_neg hunsaved])
  rw [persist_unsaved ⟨.V8, w⟩ false (.ok ()) hunsaved] at hstep
  have hopens : Op.Opens (.edit (.resync idlessResync)) := trivial
  refine ⟨_, (hquiet.mono fun m op h => h.1).step hopens hstep, fun hsync => ?_⟩
  obtain ⟨x, hx, hsame⟩ := hsync _ rfl hstorage hsaved
  rw [hx.unique hloads] at hsame
  exact hutxos (congrArg (fun s => s.2.unshieldedUtxos) hsame).symm

end Stale

end MidnightRs.ChainSync
