import MidnightRs.UnshieldedReplay

/-!
What an unshielded replay makes of the events it took, whatever the server
sends. The transactions above the moving cursor are applied, each once and in
order of their ids, and the tracked set is what they leave of the set the
replay started from.
-/
namespace MidnightRs.Unshielded

open Loops Streams Utxos Replay

section Logs

/-- A connection attempt, with the events it took added to the log. -/
def connectLogged (args : Args) (st : State) (log : List Event) : Attempt → Exit × List Event
  | .refused e => (st.retryOr e, log)
  | .serves events =>
    match loop (logged (onEvent args)) (⟨st, none⟩, log) events with
    | .leave out => out
    | .again (conn, log) => (onSilence args conn, log)

def attemptLogged (args : Args) (s : State × List Event) (answer : ℤ → Attempt) :
    Pass (State × List Event) (Except WalletError UnshieldedReplay × List Event) :=
  match connectLogged args s.1 s.2 (answer (s.1.resumeTxId args)) with
  | (.reconnect st, log) => .again (st, log)
  | (.finish result, log) => .leave (result, log)

/-- The replay and the events it took from its connections, in their order. -/
def replayLogged (args : Args) (initialUtxos : List TrackedUtxo) (startBlockHeight : ℤ)
    (answers : List (ℤ → Attempt)) : Option (Except WalletError UnshieldedReplay) × List Event :=
  match loop (attemptLogged args) (State.init args initialUtxos startBlockHeight, []) answers with
  | .again (_, log) => (none, log)
  | .leave (result, log) => (some result, log)

theorem connectLogged_fst (args : Args) (st : State) (log : List Event) (a : Attempt) :
    (connectLogged args st log a).1 = connect args st a := by
  cases a with
  | refused e => rfl
  | serves events =>
    have hloop := loop_logged (onEvent args) ⟨st, none⟩ log events
    simp only [connectLogged, connect]
    rw [← hloop]
    cases loop (logged (onEvent args)) (⟨st, none⟩, log) events with
    | again s => rfl
    | leave out => rfl

/-- Keeping the log changes nothing. -/
theorem replayLogged_fst (args : Args) (initialUtxos : List TrackedUtxo) (startBlockHeight : ℤ)
    (answers : List (ℤ → Attempt)) :
    (replayLogged args initialUtxos startBlockHeight answers).1 =
      replayUnshieldedEvents args initialUtxos startBlockHeight answers := by
  unfold replayLogged replayUnshieldedEvents
  generalize State.init args initialUtxos startBlockHeight = st
  generalize ([] : List Event) = log
  induction answers generalizing st log with
  | nil => rfl
  | cons answer answers ih =>
    have hconnect := connectLogged_fst args st log (answer (st.resumeTxId args))
    simp only [loop, attemptLogged]
    rcases hc : connectLogged args st log (answer (st.resumeTxId args)) with ⟨exit, log'⟩
    rw [hc] at hconnect
    simp only at hconnect
    rw [← hconnect]
    cases exit with
    | reconnect st' => exact ih st' log'
    | finish result => rfl

end Logs

section Accepting

/-- The transactions among the events, in order of arrival. -/
def transactions : List Event → List UnshieldedTxData
  | [] => []
  | .transaction tx :: events => tx :: transactions events
  | .progress _ :: events => transactions events
  | .failed _ :: events => transactions events
  | .ended :: events => transactions events

@[simp] theorem transactions_append (xs ys : List Event) :
    transactions (xs ++ ys) = transactions xs ++ transactions ys := by
  induction xs with
  | nil => rfl
  | cons e xs ih => cases e <;> simp [transactions, ih]

/-- Whether a transaction is above the cursor `last`. -/
def isNew (args : Args) (last : ℤ) (appliedAny : Bool) (tx : UnshieldedTxData) : Bool :=
  tx.txId.all (fun id => !alreadyApplied id last args.startTxId appliedAny)

/-- The cursor that a transaction leaves. -/
def advance (last : ℤ) (tx : UnshieldedTxData) : ℤ := tx.txId.elim last (max last)

/-- The distinct transactions above the cursor, which each one moves. -/
def accepted (args : Args) : ℤ → Bool → List UnshieldedTxData → List UnshieldedTxData
  | _, _, [] => []
  | last, appliedAny, tx :: txs =>
    if isNew args last appliedAny tx then tx :: accepted args (advance last tx) true txs
    else accepted args last appliedAny txs

theorem accepted_append (args : Args) (last : ℤ) (appliedAny : Bool)
    (xs ys : List UnshieldedTxData) :
    accepted args last appliedAny (xs ++ ys) =
      accepted args last appliedAny xs ++
        accepted args ((accepted args last appliedAny xs).foldl advance last)
          (appliedAny || !(accepted args last appliedAny xs).isEmpty) ys := by
  induction xs generalizing last appliedAny with
  | nil => simp [accepted]
  | cons x xs ih =>
    simp only [List.cons_append, accepted]
    split
    · rw [ih]
      simp
    · exact ih last appliedAny

/-- In what order the accepted transactions come: above the cursor, and each
above the ones before it. -/
theorem accepted_ascending (args : Args) (last : ℤ) (appliedAny : Bool)
    (txs : List UnshieldedTxData) (hids : ∀ tx ∈ txs, tx.txId = some tx.streamId)
    (hcursor : (appliedAny || decide (0 < args.startTxId)) = true ∨ ∀ tx ∈ txs, last < tx.streamId) :
    (∀ tx ∈ accepted args last appliedAny txs, last < tx.streamId) ∧
      (accepted args last appliedAny txs).Pairwise (fun a b => a.streamId < b.streamId) := by
  induction txs generalizing last appliedAny with
  | nil => simp [accepted]
  | cons tx txs ih =>
    have hid := hids tx (by simp)
    unfold accepted
    split
    · rename_i hnew
      have hgt : last < tx.streamId := by
        rcases hcursor with hany | hall
        · simp only [isNew, hid, Option.all_some, alreadyApplied, hany, Bool.true_and,
            Bool.not_eq_true', decide_eq_false_iff_not, not_le] at hnew
          exact hnew
        · exact hall tx (by simp)
      have hadvance : advance last tx = tx.streamId := by
        simp only [advance, hid, Option.elim]
        omega
      obtain ⟨hall, hpair⟩ := ih (advance last tx) true (fun x hx => hids x (by simp [hx]))
        (Or.inl rfl)
      rw [hadvance] at hall hpair ⊢
      refine ⟨?_, List.pairwise_cons.mpr ⟨hall, hpair⟩⟩
      intro x hx
      rcases List.mem_cons.mp hx with rfl | hx
      · exact hgt
      · exact hgt.trans (hall x hx)
    · exact ih last appliedAny (fun x hx => hids x (by simp [hx]))
        (hcursor.imp_right (fun hall x hx => hall x (by simp [hx])))

/-- No distinct transaction above the cursor is passed over, unless one with
that id or a higher one was accepted before it. -/
theorem mem_accepted (args : Args) (last : ℤ) (appliedAny : Bool)
    (older newer : List UnshieldedTxData) (tx : UnshieldedTxData) (hid : tx.txId = some tx.streamId)
    (hgt : last < tx.streamId) :
    tx ∈ accepted args last appliedAny (older ++ tx :: newer) ∨
      ∃ x ∈ accepted args last appliedAny older, tx.streamId ≤ x.txId.getD last := by
  induction older generalizing last appliedAny with
  | nil =>
    left
    have hnew : isNew args last appliedAny tx = true := by
      simp only [isNew, hid, Option.all_some, alreadyApplied, Bool.not_eq_true',
        Bool.and_eq_false_iff, decide_eq_false_iff_not, not_le]
      exact Or.inr hgt
    simp [accepted, hnew]
  | cons x older ih =>
    simp only [List.cons_append, accepted]
    split
    · by_cases hle : tx.streamId ≤ advance last x
      · right
        refine ⟨x, by simp, ?_⟩
        unfold advance at hle
        cases hx : x.txId with
        | none => simp [hx] at hle; omega
        | some id =>
          simp only [hx, Option.elim, Option.getD_some] at hle ⊢
          omega
      · rcases ih (advance last x) true (not_le.mp hle) with hmem | ⟨y, hy, hle'⟩
        · exact Or.inl (by simp [hmem])
        · refine Or.inr ⟨y, by simp [hy], ?_⟩
          cases hy' : y.txId with
          | none => simp [hy'] at hle'; omega
          | some id => simpa [hy'] using hle'
    · exact ih last appliedAny hgt

theorem accepted_pairwise (args : Args) (last : ℤ) (appliedAny : Bool)
    (txs : List UnshieldedTxData) (hids : ∀ tx ∈ txs, tx.txId = some tx.streamId) :
    (accepted args last appliedAny txs).Pairwise (fun a b => a.streamId < b.streamId) := by
  induction txs generalizing last appliedAny with
  | nil => exact List.Pairwise.nil
  | cons tx txs ih =>
    have hrest : ∀ x ∈ txs, x.txId = some x.streamId := fun x hx => hids x (by simp [hx])
    unfold accepted
    split
    · obtain ⟨habove, hpair⟩ :=
        accepted_ascending args (advance last tx) true txs hrest (Or.inl rfl)
      refine List.pairwise_cons.mpr ⟨fun x hx => ?_, hpair⟩
      have hcursor : tx.streamId ≤ advance last tx := by simp [advance, hids tx (by simp)]
      exact hcursor.trans_lt (habove x hx)
    · exact ih last appliedAny hrest

end Accepting

section Contents

/-- Why a transaction does not parse. -/
def parseFailure (tx : UnshieldedTxData) : Option WalletError :=
  match tx.spentUtxos.mapM parseUtxo with
  | .error e => some e
  | .ok _ =>
    match tx.createdUtxos.mapM parseUtxo with
    | .error e => some e
    | .ok _ => none

/-- The keys that a transaction reports spent. -/
def spentKeysOf (tx : UnshieldedTxData) : List SpentUtxoKey :=
  match tx.spentUtxos.mapM parseUtxo with
  | .error _ => []
  | .ok spent => spent.map TrackedUtxo.spentKey

def createdOf (tx : UnshieldedTxData) : List TrackedUtxo :=
  match tx.createdUtxos.mapM parseUtxo with
  | .error _ => []
  | .ok created => created

/-- What a transaction that parses leaves of the tracked set. -/
def remaining (utxos : List TrackedUtxo) (tx : UnshieldedTxData) : List TrackedUtxo :=
  utxos.filter (fun u => !(spentKeysOf tx).contains u.spentKey) ++ createdOf tx

theorem applyUnshieldedTx_eq (utxos : List TrackedUtxo) (tx : UnshieldedTxData) :
    applyUnshieldedTx utxos tx =
      match parseFailure tx with
      | some e => .error e
      | none => .ok (remaining utxos tx, spentKeysOf tx) := by
  unfold applyUnshieldedTx parseFailure remaining spentKeysOf createdOf
  cases tx.spentUtxos.mapM parseUtxo with
  | error e => rfl
  | ok spent =>
    cases tx.createdUtxos.mapM parseUtxo with
    | error e => rfl
    | ok created => rfl

/-- The result of tracking transactions that all parse. -/
theorem foldlM_track_eq_ok (txs : List UnshieldedTxData) (start r : UnshieldedReplay)
    (h : txs.foldlM track start = .ok r) :
    (∀ tx ∈ txs, parseFailure tx = none) ∧ r.utxos = txs.foldl remaining start.utxos ∧
      r.spent = start.spent ++ txs.flatMap spentKeysOf ∧
      r.lastTxId = txs.foldl advance start.lastTxId := by
  induction txs generalizing start with
  | nil =>
    obtain rfl := Except.ok.inj h
    simp
  | cons tx txs ih =>
    rw [List.foldlM_cons, bind_eq_ok] at h
    obtain ⟨next, hnext, hrest⟩ := h
    unfold track at hnext
    rw [applyUnshieldedTx_eq] at hnext
    cases hparse : parseFailure tx with
    | some e => simp [hparse] at hnext
    | none =>
      simp only [hparse, Except.ok.injEq] at hnext
      obtain ⟨hall, hutxos, hspent, hlast⟩ := ih next hrest
      subst hnext
      refine ⟨?_, hutxos, ?_, hlast⟩
      · intro x hx
        rcases List.mem_cons.mp hx with rfl | hx
        · exact hparse
        · exact hall x hx
      · rw [hspent, List.flatMap_cons, List.append_assoc]

theorem le_foldl_advance (txs : List UnshieldedTxData) (last : ℤ) :
    last ≤ txs.foldl advance last ∧
      ∀ tx ∈ txs, ∀ id, tx.txId = some id → id ≤ txs.foldl advance last := by
  induction txs generalizing last with
  | nil => simp
  | cons tx txs ih =>
    obtain ⟨hle, hall⟩ := ih (advance last tx)
    have hadvance : last ≤ advance last tx ∧ ∀ id, tx.txId = some id → id ≤ advance last tx := by
      unfold advance
      cases tx.txId <;> simp
    refine ⟨hadvance.1.trans hle, ?_⟩
    intro x hx id hid
    rcases List.mem_cons.mp hx with rfl | hx
    · exact (hadvance.2 id hid).trans hle
    · exact hall x hx id hid

/-- A UTXO is tracked in the end if it was at the start or was created, and no
transaction after that spends it. -/
theorem mem_foldl_remaining (txs : List UnshieldedTxData) (utxos : List TrackedUtxo)
    (u : TrackedUtxo) :
    u ∈ txs.foldl remaining utxos ↔
      (u ∈ utxos ∧ ∀ tx ∈ txs, u.spentKey ∉ spentKeysOf tx) ∨
        ∃ older tx newer, txs = older ++ tx :: newer ∧ u ∈ createdOf tx ∧
          ∀ x ∈ newer, u.spentKey ∉ spentKeysOf x := by
  induction txs generalizing utxos with
  | nil => simp
  | cons tx txs ih =>
    rw [List.foldl_cons, ih]
    have hmem : u ∈ remaining utxos tx ↔
        (u ∈ utxos ∧ u.spentKey ∉ spentKeysOf tx) ∨ u ∈ createdOf tx := by
      simp [remaining]
    rw [hmem]
    constructor
    · rintro (⟨⟨hu, hnot⟩ | hcreated, hrest⟩ | ⟨older, x, newer, rfl, hx, hnewer⟩)
      · exact Or.inl ⟨hu, by simpa using ⟨hnot, hrest⟩⟩
      · exact Or.inr ⟨[], tx, txs, rfl, hcreated, hrest⟩
      · exact Or.inr ⟨tx :: older, x, newer, rfl, hx, hnewer⟩
    · rintro (⟨hu, hall⟩ | ⟨older, x, newer, heq, hx, hnewer⟩)
      · exact Or.inl ⟨Or.inl ⟨hu, hall tx (by simp)⟩, fun y hy => hall y (by simp [hy])⟩
      · cases older with
        | nil =>
          obtain ⟨rfl, rfl⟩ := List.cons.inj heq
          exact Or.inl ⟨Or.inr hx, hnewer⟩
        | cons y older =>
          obtain ⟨rfl, rfl⟩ := List.cons.inj heq
          exact Or.inr ⟨older, x, newer, rfl, hx, hnewer⟩

/-- Keys that are distinct over the starting set and all that is created stay
distinct. -/
theorem nodup_foldl_remaining (txs : List UnshieldedTxData) (utxos : List TrackedUtxo)
    (h : ((utxos ++ txs.flatMap createdOf).map TrackedUtxo.spentKey).Nodup) :
    ((txs.foldl remaining utxos).map TrackedUtxo.spentKey).Nodup := by
  induction txs generalizing utxos with
  | nil => simpa using h
  | cons tx txs ih =>
    refine ih (remaining utxos tx) ?_
    refine h.sublist ?_
    rw [List.flatMap_cons, remaining, List.append_assoc]
    exact (List.filter_sublist.append_right _).map _

/-- A spent key comes back: the transaction that spends it or a later one
creates it, and none after that spends it again. -/
def Resurrects (txs : List UnshieldedTxData) : Prop :=
  ∃ key older tx newer, txs = older ++ tx :: newer ∧
    key ∈ (older ++ [tx]).flatMap spentKeysOf ∧ key ∈ (createdOf tx).map TrackedUtxo.spentKey ∧
    ∀ x ∈ newer, key ∉ spentKeysOf x

/-- A spent key is tracked in the end exactly if one comes back. -/
theorem spent_tracked_iff (txs : List UnshieldedTxData) (utxos : List TrackedUtxo) :
    (∃ tx ∈ txs, ∃ key ∈ spentKeysOf tx,
      key ∈ (txs.foldl remaining utxos).map TrackedUtxo.spentKey) ↔ Resurrects txs := by
  constructor
  · rintro ⟨tx, htx, key, hkey, hmem⟩
    obtain ⟨u, hu, rfl⟩ := List.mem_map.mp hmem
    rcases (mem_foldl_remaining txs utxos u).mp hu with ⟨_, hall⟩ | ⟨older, x, newer, rfl, hx, hnewer⟩
    · exact absurd hkey (hall tx htx)
    · refine ⟨u.spentKey, older, x, newer, rfl, ?_, List.mem_map_of_mem hx, hnewer⟩
      have hplace : tx ∈ older ++ [x] ∨ tx ∈ newer := by
        simp only [List.mem_append, List.mem_cons] at htx ⊢
        tauto
      rcases hplace with hbefore | hafter
      · exact List.mem_flatMap.mpr ⟨tx, hbefore, hkey⟩
      · exact absurd hkey (hnewer tx hafter)
  · rintro ⟨key, older, x, newer, rfl, hspent, hcreated, hnewer⟩
    obtain ⟨tx, htx, hkey⟩ := List.mem_flatMap.mp hspent
    obtain ⟨u, hu, rfl⟩ := List.mem_map.mp hcreated
    refine ⟨tx, ?_, u.spentKey, hkey, List.mem_map_of_mem ?_⟩
    · simp only [List.mem_append, List.mem_cons] at htx ⊢
      tauto
    · exact (mem_foldl_remaining _ utxos u).mpr (Or.inr ⟨older, x, newer, rfl, hu, hnewer⟩)

end Contents

section Runs

variable (args : Args) (utxos : List TrackedUtxo) (height : ℤ)

/-- The transactions that a replay accepts of the events it took. -/
def acceptedOf (log : List Event) : List UnshieldedTxData :=
  accepted args (lastAppliedBefore args.startTxId) false (transactions log)

/-- The loop invariant: the state is what the accepted transactions left. -/
structure Tracked (st : State) (log : List Event) : Prop where
  fold : (acceptedOf args log).foldlM track (startOf args utxos height) =
    .ok (st.stopAt st.lastSeenTxId)
  counted : st.appliedTxs = (acceptedOf args log).length
  nonneg : 0 ≤ st.lastSeenTxId

/-- A connection has delivered no id above the cursor. -/
structure ConnTracked (conn : Conn) (log : List Event) : Prop where
  tracked : Tracked args utxos height conn.st log
  high : ∀ high, conn.connHigh = some high → high ≤ conn.st.lastSeenTxId ∧
    (decide (0 < conn.st.appliedTxs) || decide (0 < args.startTxId)) = true

/-- What holds of a result and the events the replay took for it. -/
structure Finished (result : Except WalletError UnshieldedReplay) (log : List Event) : Prop where
  ok : ∀ r, result = .ok r →
    (acceptedOf args log).foldlM track (startOf args utxos height) = .ok r
  malformed : ∀ tx ∈ acceptedOf args log, ∀ e, parseFailure tx = some e →
    (∃ older, log = older ++ [.transaction tx]) ∧ result = .error (attachTxId tx.txId e)

def ExitTracked (out : Exit × List Event) : Prop :=
  match out with
  | (.reconnect st, log) => Tracked args utxos height st log
  | (.finish result, log) => Finished args utxos height result log

variable {args utxos height}

theorem Tracked.cursor {st : State} {log : List Event} (h : Tracked args utxos height st log) :
    st.lastSeenTxId = (acceptedOf args log).foldl advance (lastAppliedBefore args.startTxId) :=
  (foldlM_track_eq_ok _ _ _ h.fold).2.2.2

theorem Tracked.parses {st : State} {log : List Event} (h : Tracked args utxos height st log) :
    ∀ tx ∈ acceptedOf args log, parseFailure tx = none :=
  (foldlM_track_eq_ok _ _ _ h.fold).1

theorem Tracked.stop {st : State} {log : List Event} (h : Tracked args utxos height st log) :
    Finished args utxos height (.ok (st.stopAt st.lastSeenTxId)) log where
  ok r hr := by
    obtain rfl := Except.ok.inj hr
    exact h.fold
  malformed tx htx e he := by simp [h.parses tx htx] at he

theorem Tracked.fail {st : State} {log : List Event} (h : Tracked args utxos height st log)
    (e : WalletError) : Finished args utxos height (.error e) log where
  ok r hr := by cases hr
  malformed tx htx e he := by simp [h.parses tx htx] at he

theorem Tracked.retryOr {st : State} {log : List Event} (h : Tracked args utxos height st log)
    (e : IndexerError) : ExitTracked args utxos height (st.retryOr e, log) := by
  unfold State.retryOr
  split
  · exact ⟨h.fold, h.counted, h.nonneg⟩
  · exact h.fail _

/-- An event that is no transaction leaves the accepted transactions alone. -/
theorem acceptedOf_append_other (log : List Event) (e : Event) (h : transactions [e] = []) :
    acceptedOf args (log ++ [e]) = acceptedOf args log := by
  simp [acceptedOf, h]

theorem Tracked.other {st : State} {log : List Event} (h : Tracked args utxos height st log)
    (e : Event) (he : transactions [e] = []) : Tracked args utxos height st (log ++ [e]) := by
  have heq : acceptedOf args (log ++ [e]) = acceptedOf args log := acceptedOf_append_other log e he
  exact ⟨heq ▸ h.fold, heq ▸ h.counted, h.nonneg⟩

theorem Tracked.acceptedOf_transaction {st : State} {log : List Event}
    (h : Tracked args utxos height st log) (tx : UnshieldedTxData) :
    acceptedOf args (log ++ [.transaction tx]) = acceptedOf args log ++
      if isNew args st.lastSeenTxId (decide (0 < st.appliedTxs)) tx then [tx] else [] := by
  have hany : (false || !(acceptedOf args log).isEmpty) = decide (0 < st.appliedTxs) := by
    rw [h.counted]
    cases acceptedOf args log <;> simp
  have hstep := accepted_append args (lastAppliedBefore args.startTxId) false (transactions log)
    [tx]
  have htx : transactions (log ++ [.transaction tx]) = transactions log ++ [tx] := by
    simp [transactions]
  rw [← htx] at hstep
  refine hstep.trans (congrArg (acceptedOf args log ++ ·) ?_)
  change accepted args ((acceptedOf args log).foldl advance (lastAppliedBefore args.startTxId))
    (false || !(acceptedOf args log).isEmpty) [tx] = _
  rw [hany, ← h.cursor]
  simp [accepted]

/-- A new transaction is applied, or does not parse and ends the replay. -/
theorem onNewTransaction_tracked (conn : Conn) (log : List Event) (tx : UnshieldedTxData)
    (h : Tracked args utxos height conn.st log)
    (hhigh : ∀ high, conn.connHigh = some high →
      high ≤ conn.st.lastSeenTxId ∨ tx.txId = some high)
    (haccepted : acceptedOf args (log ++ [.transaction tx]) = acceptedOf args log ++ [tx]) :
    (onNewTransaction conn tx).Holds
      (fun conn' => ConnTracked args utxos height conn' (log ++ [.transaction tx]))
      (fun exit => ExitTracked args utxos height (exit, log ++ [.transaction tx])) := by
  unfold onNewTransaction
  rw [applyUnshieldedTx_eq]
  cases hparse : parseFailure tx with
  | some e =>
    refine ⟨fun r hr => (by cases hr), ?_⟩
    intro x hx e' he'
    rw [haccepted] at hx
    rcases List.mem_append.mp hx with hx | hx
    · simp [h.parses x hx] at he'
    · obtain rfl := List.mem_singleton.mp hx
      obtain rfl := Option.some.inj (hparse.symm.trans he')
      exact ⟨⟨log, rfl⟩, rfl⟩
  | none =>
    have hlast : conn.st.lastSeenTxId ≤
        (conn.st.applied tx (remaining conn.st.utxos tx) (spentKeysOf tx)).lastSeenTxId := by
      simp only [State.applied]
      cases tx.txId <;> simp
    have htracked : Tracked args utxos height
        (conn.st.applied tx (remaining conn.st.utxos tx) (spentKeysOf tx))
        (log ++ [.transaction tx]) := by
      refine ⟨?_, ?_, h.nonneg.trans hlast⟩
      · rw [haccepted, foldlM_split h.fold]
        simp only [List.foldlM_cons, List.foldlM_nil, track, State.stopAt, applyUnshieldedTx_eq,
          hparse]
        rfl
      · rw [haccepted, List.length_append, ← h.counted]
        rfl
    simp only [Pass.holds_ite]
    refine ⟨fun _ => htracked.stop, fun _ => ⟨htracked, ?_⟩⟩
    intro high hh
    refine ⟨?_, by simp [State.applied]⟩
    rcases hhigh high hh with hle | hid
    · exact hle.trans hlast
    · simp only [State.applied, hid, Option.elim]
      exact le_max_right _ _

theorem onTransaction_tracked (conn : Conn) (log : List Event) (tx : UnshieldedTxData)
    (h : ConnTracked args utxos height conn log) :
    (onTransaction args conn tx).Holds
      (fun conn' => ConnTracked args utxos height conn' (log ++ [.transaction tx]))
      (fun exit => ExitTracked args utxos height (exit, log ++ [.transaction tx])) := by
  have haccepted := h.tracked.acceptedOf_transaction tx
  have hskipped : isNew args conn.st.lastSeenTxId (decide (0 < conn.st.appliedTxs)) tx = false →
      Tracked args utxos height conn.st (log ++ [.transaction tx]) := by
    intro hnew
    have heq : acceptedOf args (log ++ [.transaction tx]) = acceptedOf args log := by
      simpa [hnew] using haccepted
    exact ⟨heq ▸ h.tracked.fold, heq ▸ h.tracked.counted, h.tracked.nonneg⟩
  unfold onTransaction
  cases hid : tx.txId with
  | none =>
    have hnew : isNew args conn.st.lastSeenTxId (decide (0 < conn.st.appliedTxs)) tx = true := by
      simp [isNew, hid]
    exact onNewTransaction_tracked conn log tx h.tracked
      (fun high hh => Or.inl (h.high high hh).1) (by simpa [hnew] using haccepted)
  | some id =>
    simp only
    cases hreg : orderRegression id conn.connHigh with
    | some prev =>
      -- An id below one of this connection is at or below the cursor.
      obtain ⟨hhigh, hlt⟩ := (orderRegression_eq_some_iff _ _ _).mp hreg
      obtain ⟨hle, hany⟩ := h.high prev hhigh
      have hold : isNew args conn.st.lastSeenTxId (decide (0 < conn.st.appliedTxs)) tx = false := by
        simp only [isNew, hid, Option.all_some, alreadyApplied, hany, Bool.true_and,
          Bool.not_eq_false', decide_eq_true_eq]
        exact (hlt.trans_le hle).le
      exact (hskipped hold).fail _
    | none =>
      simp only [Pass.holds_ite]
      refine ⟨fun happlied => ?_, fun happlied => ?_⟩
      · have hold : isNew args conn.st.lastSeenTxId (decide (0 < conn.st.appliedTxs)) tx =
            false := by
          simp [isNew, hid, happlied]
        have htracked := hskipped hold
        refine ⟨⟨htracked.fold, htracked.counted, htracked.nonneg⟩, ?_⟩
        intro high hh
        obtain rfl := Option.some.inj hh
        simp only [alreadyApplied, Bool.and_eq_true, decide_eq_true_eq] at happlied
        exact ⟨happlied.2, happlied.1⟩
      · have hnew : isNew args conn.st.lastSeenTxId (decide (0 < conn.st.appliedTxs)) tx =
            true := by
          simpa [isNew, hid] using happlied
        refine onNewTransaction_tracked _ log tx h.tracked ?_ (by simpa [hnew] using haccepted)
        intro high hh
        obtain rfl := Option.some.inj hh
        exact Or.inr hid

theorem onProgress_tracked (conn : Conn) (log : List Event) (target : ℤ)
    (h : ConnTracked args utxos height conn log) :
    (onProgress conn target).Holds
      (fun conn' => ConnTracked args utxos height conn' (log ++ [.progress target]))
      (fun exit => ExitTracked args utxos height (exit, log ++ [.progress target])) := by
  have hother := h.tracked.other (.progress target) rfl
  simp only [onProgress, Pass.holds_ite]
  refine ⟨fun hdone => ?_, fun _ => ⟨⟨hother.fold, hother.counted, hother.nonneg⟩, h.high⟩⟩
  have hle : target ≤ conn.st.lastSeenTxId := by
    rcases hdone with rfl | hle
    · exact h.tracked.nonneg
    · exact hle
  have hmax : max conn.st.lastSeenTxId target = conn.st.lastSeenTxId := max_eq_left hle
  simp only [hmax]
  exact hother.stop

theorem onEvent_tracked (conn : Conn) (log : List Event) (e : Event)
    (h : ConnTracked args utxos height conn log) :
    (onEvent args conn e).Holds
      (fun conn' => ConnTracked args utxos height conn' (log ++ [e]))
      (fun exit => ExitTracked args utxos height (exit, log ++ [e])) := by
  cases e with
  | transaction tx => exact onTransaction_tracked conn log tx h
  | progress target => exact onProgress_tracked conn log target h
  | failed e => exact (h.tracked.other (.failed e) rfl).retryOr e
  | ended => exact (h.tracked.other .ended rfl).retryOr _

theorem connectLogged_tracked (st : State) (log : List Event) (a : Attempt)
    (h : Tracked args utxos height st log) :
    ExitTracked args utxos height (connectLogged args st log a) := by
  cases a with
  | refused e => exact h.retryOr e
  | serves events =>
    have hloop := loop_holds (logged (onEvent args))
      (fun s => ConnTracked args utxos height s.1 s.2)
      (fun out => ExitTracked args utxos height out)
      (by
        rintro ⟨conn, log⟩ e hconn
        exact (logged_holds _ _ _ conn log e).mpr (onEvent_tracked conn log e hconn))
      (⟨st, none⟩, log) events ⟨h, by simp⟩
    unfold connectLogged
    simp only
    cases hout : loop (logged (onEvent args)) (⟨st, none⟩, log) events with
    | leave out =>
      rw [hout] at hloop
      exact hloop
    | again s =>
      rw [hout] at hloop
      obtain ⟨conn, log'⟩ := s
      have htracked : Tracked args utxos height conn.st log' := hloop.tracked
      simp only [onSilence]
      split
      · exact htracked.stop
      · exact htracked.fail _

/-- The state of a replay after any events: the invariant while it still waits,
else the facts about its result. -/
theorem replayLogged_tracked (answers : List (ℤ → Attempt)) :
    match replayLogged args utxos height answers with
    | (none, log) => ∃ st, Tracked args utxos height st log
    | (some result, log) => Finished args utxos height result log := by
  have hloop := loop_holds (attemptLogged args)
    (fun s => Tracked args utxos height s.1 s.2)
    (fun out => Finished args utxos height out.1 out.2)
    (by
      rintro ⟨st, log⟩ answer hst
      have hexit := connectLogged_tracked st log (answer (st.resumeTxId args)) hst
      unfold attemptLogged
      rcases hc : connectLogged args st log (answer (st.resumeTxId args)) with ⟨exit, log'⟩
      rw [hc] at hexit
      cases exit with
      | reconnect st' => exact hexit
      | finish result => exact hexit)
    (State.init args utxos height, []) answers
    ⟨rfl, rfl, le_max_right _ _⟩
  unfold replayLogged
  cases hout : loop (attemptLogged args) (State.init args utxos height, []) answers with
  | again s =>
    rw [hout] at hloop
    exact ⟨s.1, hloop⟩
  | leave out =>
    rw [hout] at hloop
    exact hloop

end Runs

section Yield

variable (args : Args) (utxos : List TrackedUtxo) (height : ℤ)

/-- The accepted transactions are the distinct ones above the cursor, in the
order of their ids: one that is passed over came after one with that id or a
higher one. -/
structure InIdOrder (log : List Event) : Prop where
  ascending : (acceptedOf args log).Pairwise (fun a b => a.streamId < b.streamId)
  above : 0 < args.startTxId →
    ∀ tx ∈ acceptedOf args log, lastAppliedBefore args.startTxId < tx.streamId
  complete : ∀ older tx newer, transactions log = older ++ tx :: newer →
    lastAppliedBefore args.startTxId < tx.streamId →
      tx ∈ acceptedOf args log ∨ ∃ x ∈ acceptedOf args log, x ∈ older ∧ tx.streamId ≤ x.streamId

/-- What a replay that returns is to yield of the events it took: the fold of
the accepted transactions, distinct keys, the spent keys and none of them
tracked, and a cursor that covers every accepted id. -/
structure YieldsSet (log : List Event) (r : UnshieldedReplay) : Prop where
  ordered : (∀ tx ∈ transactions log, tx.txId = some tx.streamId) → InIdOrder args log
  fold : (acceptedOf args log).foldlM track (startOf args utxos height) = .ok r
  distinct : ((utxos ++ (acceptedOf args log).flatMap createdOf).map TrackedUtxo.spentKey).Nodup →
    (r.utxos.map TrackedUtxo.spentKey).Nodup
  unspent : ∀ tx ∈ acceptedOf args log, ∀ key ∈ spentKeysOf tx,
    key ∉ r.utxos.map TrackedUtxo.spentKey
  spent : r.spent = (acceptedOf args log).flatMap spentKeysOf
  cursor : ∀ tx ∈ acceptedOf args log, ∀ id, tx.txId = some id → id ≤ r.lastTxId

theorem mem_transactions_of_accepted (last : ℤ) (appliedAny : Bool) (txs : List UnshieldedTxData) :
    ∀ tx ∈ accepted args last appliedAny txs, tx ∈ txs := by
  induction txs generalizing last appliedAny with
  | nil => simp [accepted]
  | cons x txs ih =>
    intro tx htx
    unfold accepted at htx
    split at htx
    · rcases List.mem_cons.mp htx with rfl | htx
      · exact List.mem_cons_self
      · exact List.mem_cons_of_mem _ (ih _ _ tx htx)
    · exact List.mem_cons_of_mem _ (ih _ _ tx htx)

theorem acceptedOf_inIdOrder (log : List Event)
    (hids : ∀ tx ∈ transactions log, tx.txId = some tx.streamId) : InIdOrder args log where
  ascending := accepted_pairwise args _ false _ hids
  above hstart := (accepted_ascending args _ false _ hids (Or.inl (by simp [hstart]))).1
  complete older tx newer hsplit hgt := by
    have hid := hids tx (by rw [hsplit]; simp)
    unfold acceptedOf
    rw [hsplit]
    refine (mem_accepted args _ false older newer tx hid hgt).imp_right ?_
    rintro ⟨x, hx, hle⟩
    have holder := mem_transactions_of_accepted args _ _ _ x hx
    refine ⟨x, ?_, holder, ?_⟩
    · rw [accepted_append]
      exact List.mem_append_left _ hx
    · simpa [hids x (by rw [hsplit]; simp [holder])] using hle

/-- Whatever the server sends: a replay that returns yields the set exactly if
no spent key comes back, and a transaction that does not parse ends the replay
in its error. -/
theorem replay_yields_iff (answers : List (ℤ → Attempt)) :
    (∀ r, replayUnshieldedEvents args utxos height answers = some (.ok r) →
      (YieldsSet args utxos height (replayLogged args utxos height answers).2 r ↔
        ¬ Resurrects (acceptedOf args (replayLogged args utxos height answers).2))) ∧
    ∀ tx ∈ acceptedOf args (replayLogged args utxos height answers).2, ∀ e,
      parseFailure tx = some e →
      (∃ older, (replayLogged args utxos height answers).2 = older ++ [.transaction tx]) ∧
        replayUnshieldedEvents args utxos height answers =
          some (.error (attachTxId tx.txId e)) := by
  have htracked : match replayLogged args utxos height answers with
    | (none, log) => ∃ st, Tracked args utxos height st log
    | (some result, log) => Finished args utxos height result log := replayLogged_tracked answers
  rw [← replayLogged_fst]
  generalize replayLogged args utxos height answers = out at htracked ⊢
  obtain ⟨result, log⟩ := out
  cases result with
  | none =>
    obtain ⟨st, hst⟩ := htracked
    exact ⟨by simp, fun tx htx e he => by simp [hst.parses tx htx] at he⟩
  | some result =>
    replace htracked : Finished args utxos height result log := htracked
    refine ⟨?_, fun tx htx e he => ?_⟩
    · intro r hr
      have hfold := htracked.ok r (Option.some.inj hr)
      obtain ⟨-, hutxos, hspent, hlast⟩ := foldlM_track_eq_ok _ _ _ hfold
      have hback := spent_tracked_iff (acceptedOf args log) utxos
      have hset : r.utxos = (acceptedOf args log).foldl remaining utxos := hutxos
      constructor
      · intro hyields hresurrects
        obtain ⟨tx, htx, key, hkey, hmem⟩ := hback.mpr hresurrects
        exact hyields.unspent tx htx key hkey (hset ▸ hmem)
      · intro hclean
        refine ⟨acceptedOf_inIdOrder args log, hfold, fun hnodup => ?_,
          fun tx htx key hkey hmem => ?_, by simpa [startOf] using hspent,
          fun tx htx id hid => ?_⟩
        · rw [hset]
          exact nodup_foldl_remaining _ _ hnodup
        · exact hclean (hback.mp ⟨tx, htx, key, hkey, hset ▸ hmem⟩)
        · rw [hlast]
          exact (le_foldl_advance _ _).2 tx htx id hid
    · obtain ⟨holder, hresult⟩ := htracked.malformed tx htx e he
      exact ⟨holder, congrArg some hresult⟩

/-- A transaction that creates the output `0000…:0` and spends it. -/
def createdAndSpent : UnshieldedTxData :=
  let utxo : SubscriptionUtxo := {
    owner := "addr"
    tokenType := String.ofList (List.replicate 64 '0')
    value := "1"
    intentHash := String.ofList (List.replicate 64 '0')
    outputIndex := 0
    ctime := none
    registeredForDustGeneration := none }
  { transaction := some { id := some 1, block := some 1 }
    createdUtxos := [utxo]
    spentUtxos := [utxo] }

/-- The spent output is tracked after the replay. -/
theorem created_and_spent_stays_tracked :
    ∃ r, replayUnshieldedEvents ⟨1, false⟩ [] 0
        [fun _ => .serves [.transaction createdAndSpent, .progress 1]] = some (.ok r) ∧
      r.spent = r.utxos.map TrackedUtxo.spentKey ∧ r.utxos ≠ [] := by
  refine ⟨⟨createdOf createdAndSpent, 1, 1, spentKeysOf createdAndSpent⟩, ?_, ?_, ?_⟩
  · decide +kernel
  · decide +kernel
  · decide +kernel

end Yield

end MidnightRs.Unshielded
