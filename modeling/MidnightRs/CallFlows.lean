import MidnightRs.Lifecycle

/-!
A contract call with what it tells the private-state store. It reads the head of the
journal, records the state its witnesses left before it submits, and settles the
record from the verdict of its wait. Without that it is the flow of the call; with
it, every execution follows one of a few courses.
-/
namespace MidnightRs.CallFlows

open Futures Reservations Submission ContractFlows
open Lifecycle (duty keeps_ask keeps_pure keeps_callTransaction keeps_prepareReserved
  keeps_shieldedPublicKeys returns_releaseTx settles_dropTx ensures_ask_nil watches_waitFor)

section Flows

/-- What a call does to the wallet and the node, and what it tells the store, with
the store's answers. `ran` and `waited` are what the run and the wait ended with. -/
inductive CallEvent where
  | flow (e : Event)
  | head (found : Except String (Option (Bytes × Bytes)))
  | ran (change : PrivateStateChange)
  | appended (extrinsicHash : Bytes) (change : PrivateStateChange) (stored : Except String Unit)
  | waited (verdict : Except ProviderError TxInBlock)
  | confirmed (extrinsicHash blockHash : Bytes) (stored : Except String Unit)
  | failed (extrinsicHash : Bytes) (stored : Except String Unit)
deriving DecidableEq

/-- The private state that a call's witnesses left, if it changed. -/
def CallEvent.changed? : CallEvent → Option Bytes
  | .ran change => if change.after = change.baseline then none else some change.after
  | _ => none

abbrev CallFlow := Future Answers CallEvent

/-- A part of a call in which the store has no part. -/
def quietly {α : Type} (f : Flow α) : CallFlow α := f.mapLog .flow

/-- Awaits an answer of the store. -/
def askStore {α : Type} (field : Answers → α) (told : α → CallEvent) : CallFlow α := do
  let answer ← quietly (ask field)
  Future.emit (told answer)
  pure answer

variable (tokio : Bool) (p : MidnightProvider)

def witnessBaseline : CallFlow (Except ContractError (Bytes × Option Bytes)) :=
  if p.privateState then
    ((askStore Answers.head .head).mapError ContractError.privateState).onOk fun
      | some (data, extrinsicHash) => pure (.ok (data, some extrinsicHash))
      | none => pure (.ok ([], none))
  else pure (.ok ([], none))

def runForBuild (call : Call) : CallFlow (Except ContractError PrivateStateChange) :=
  (quietly (ask Answers.contract)).onOk fun () =>
    (quietly (ask Answers.contract)).onOk fun () =>
      (witnessBaseline p).onOk fun (baseline, dependsOn) =>
        (quietly (p.shieldedPublicKeys.mapError ContractError.ofProvider)).onOk fun () =>
          (quietly (now (call.run baseline))).onOk fun after => do
            Future.emit (.ran ⟨baseline, after, dependsOn⟩)
            pure (.ok ⟨baseline, after, dependsOn⟩)

def recordAndSubmit (prepared : PreparedTx) (change : PrivateStateChange) :
    CallFlow (Except ContractError (PendingTx × Bool)) := do
  let extrinsicHash := p.steps.extrinsicHash prepared.tx
  if p.privateState && privateStatePersist change.baseline change.after == .persist then
    match ← Future.guarding ((prepared.drop tokio).map .flow)
        (askStore Answers.store (.appended extrinsicHash change)) with
    | .error source =>
      quietly (prepared.release tokio)
      pure (.error (.pendingSnapshotFailed extrinsicHash source))
    | .ok () => quietly (ContractFlows.recordAndSubmit.submit p prepared extrinsicHash true)
  else quietly (ContractFlows.recordAndSubmit.submit p prepared extrinsicHash false)

def sendCallWith (call : Call) : CallFlow (Except ContractError PendingCall) :=
  if call.declaresWitnesses && !p.privateState then
    quietly (ContractFlows.sendCallWith tokio p call)
  else
    (runForBuild p call).onOk fun change =>
      (quietly (call.callTransaction tokio p true)).onOk fun transaction =>
        (quietly ((p.prepareReserved tokio transaction).mapError ContractError.ofProvider)).onOk
          fun prepared => do
            match call.decode with
            | .error e =>
              quietly (prepared.release tokio)
              pure (.error e)
            | .ok () =>
              (recordAndSubmit tokio p prepared change).onOk fun (pending, snapshotStore) =>
                pure (.ok ⟨pending, snapshotStore⟩)

def settleSnapshot (extrinsicHash : Bytes) (waited : Except ProviderError TxInBlock) :
    CallFlow (Except ContractError Unit) :=
  match waited with
  | .ok applied =>
    (askStore Answers.store (.confirmed extrinsicHash applied.blockHash)).mapError
      ContractError.privateState
  | .error (.notApplied _) =>
    (askStore Answers.store (.failed extrinsicHash)).mapError ContractError.privateState
  | .error _ => pure (.ok ())

def settleCall (call : PendingCall) (waited : Except ProviderError TxInBlock) :
    CallFlow (Except ContractError TxInBlock) := do
  Future.emit (.waited waited)
  (if call.snapshotStore then settleSnapshot call.pending.extrinsicHash waited
    else pure (.ok ())).onOk fun () =>
      match waited with
      | .ok applied => pure (.ok applied)
      | .error (.submission source) =>
        pure (.error (.submissionWait call.pending.transactionHash call.pending.extrinsicHash
          source call.snapshotStore))
      | .error e => pure (.error (.ofProvider e))

def finish (call : PendingCall) (deadline : Option ℕ) :
    CallFlow (Except ContractError TxInBlock) := do
  match deadline with
  | none =>
    let waited ← quietly (call.pending.waitFor tokio .finalized)
    settleCall call (waited.map Prod.fst)
  | some timeout =>
    match ← Future.timeout (quietly (call.pending.waitFor tokio .finalized)) with
    | some waited => settleCall call (waited.map Prod.fst)
    | none =>
      pure (.error (.finalizeTimeout call.pending.transactionHash call.pending.extrinsicHash
        timeout call.snapshotStore))

/-- A call, from its first await point to the end of its wait. -/
def callWith (call : Call) (deadline : Option ℕ) : CallFlow (Except ContractError TxInBlock) :=
  (sendCallWith tokio p call).onOk fun pending => finish tokio pending deadline

end Flows

section Erasure

variable (tokio : Bool) (p : MidnightProvider)

/-- What of a call the wallet and the node see. -/
def CallEvent.flow? : CallEvent → Option Event
  | .flow e => some e
  | _ => none

def erase {α : Type} (f : CallFlow α) : Flow α := f.filterLog CallEvent.flow?

theorem erase_quietly {α : Type} (f : Flow α) : erase (quietly f) = f :=
  Future.filterLog_mapLog (h := CallEvent.flow) (fun _ => rfl) f

theorem erase_askStore {α : Type} (field : Answers → α) (told : α → CallEvent)
    (htold : ∀ a, (told a).flow? = none) : erase (askStore field told) = ask field := by
  unfold erase askStore
  rw [Future.filterLog_bind]
  simp only [Future.filterLog_bind, Future.filterLog_emit (htold _), Future.filterLog_pure,
    Future.pure_bind]
  rw [Future.bind_pure]
  exact erase_quietly _

theorem erase_onOk {E α β : Type} (f : CallFlow (Except E α))
    (k : α → CallFlow (Except E β)) : erase (f.onOk k) = (erase f).onOk fun a => erase (k a) :=
  Future.filterLog_onOk f k

theorem erase_bind {α β : Type} (f : CallFlow α) (k : α → CallFlow β) :
    erase (f >>= k) = erase f >>= fun a => erase (k a) :=
  Future.filterLog_bind f k

theorem erase_mapError {E E' α : Type} (g : E → E') (f : CallFlow (Except E α)) :
    erase (f.mapError g) = (erase f).mapError g :=
  Future.filterLog_mapError g f

theorem erase_told {α : Type} {e : CallEvent} (he : e.flow? = none) (f : CallFlow α) :
    erase (Future.emit e >>= fun _ => f) = erase f := by
  rw [erase_bind]
  show Future.filterLog CallEvent.flow? (Future.emit e) >>= _ = _
  rw [Future.filterLog_emit he]
  exact Future.pure_bind _ _

theorem erase_witnessBaseline :
    erase (witnessBaseline p) = Call.runForBuild.witnessBaseline p := by
  unfold witnessBaseline Call.runForBuild.witnessBaseline
  split
  · rw [erase_onOk, erase_mapError, erase_askStore _ _ (fun _ => rfl)]
    congr 1
    funext found
    cases found <;> rfl
  · rfl

theorem erase_runForBuild (call : Call) : erase (runForBuild p call) = call.runForBuild p := by
  unfold runForBuild Call.runForBuild
  simp only [erase_onOk, erase_quietly, erase_witnessBaseline]
  rfl

theorem erase_recordAndSubmit (prepared : PreparedTx) (change : PrivateStateChange) :
    erase (recordAndSubmit tokio p prepared change) =
      ContractFlows.recordAndSubmit tokio p prepared change := by
  unfold recordAndSubmit ContractFlows.recordAndSubmit
  simp only
  split
  · rw [erase_bind]
    have hasked : erase (Future.guarding ((prepared.drop tokio).map .flow)
        (askStore Answers.store (.appended (p.steps.extrinsicHash prepared.tx) change))) =
        Future.guarding (prepared.drop tokio) (ask Answers.store) := by
      rw [← erase_askStore Answers.store
        (.appended (p.steps.extrinsicHash prepared.tx) change) (fun _ => rfl)]
      exact Future.filterLog_guarding (h := CallEvent.flow) (fun _ => rfl) _ _
    rw [hasked]
    congr 1
    funext stored
    cases stored with
    | error source => rw [erase_bind, erase_quietly]; rfl
    | ok _ => exact erase_quietly _
  · exact erase_quietly _

theorem erase_sendCallWith (call : Call) :
    erase (sendCallWith tokio p call) = ContractFlows.sendCallWith tokio p call := by
  unfold sendCallWith
  split
  · exact erase_quietly _
  · rename_i hdeclares
    unfold ContractFlows.sendCallWith
    rw [if_neg hdeclares]
    simp only [erase_onOk, erase_quietly, erase_runForBuild]
    congr 1
    funext change
    congr 1
    funext transaction
    congr 1
    funext prepared
    cases call.decode with
    | error e => rw [erase_bind, erase_quietly]; rfl
    | ok _ =>
      rw [erase_onOk, erase_recordAndSubmit]
      rfl

theorem erase_settleSnapshot (extrinsicHash : Bytes) (waited : Except ProviderError TxInBlock) :
    erase (settleSnapshot extrinsicHash waited) = ContractFlows.settleSnapshot waited := by
  have hasked : ∀ told : Except String Unit → CallEvent, (∀ a, (told a).flow? = none) →
      erase ((askStore Answers.store told).mapError ContractError.privateState) =
        (ask Answers.store).mapError ContractError.privateState := by
    intro told htold
    rw [erase_mapError, erase_askStore _ _ htold]
  rcases waited with e | applied
  · cases e with
    | notApplied _ => exact hasked _ (fun _ => rfl)
    | _ => rfl
  · exact hasked _ (fun _ => rfl)

theorem erase_settleCall (call : PendingCall) (waited : Except ProviderError TxInBlock) :
    erase (settleCall call waited) = call.settleCall waited := by
  unfold settleCall PendingCall.settleCall
  rw [erase_told rfl, erase_onOk]
  have hsettled : erase (if call.snapshotStore then
      settleSnapshot call.pending.extrinsicHash waited else pure (.ok ())) =
      if call.snapshotStore then ContractFlows.settleSnapshot waited else pure (.ok ()) := by
    split
    · exact erase_settleSnapshot _ waited
    · rfl
  rw [hsettled]
  congr 1
  funext _
  rcases waited with e | applied
  · cases e <;> rfl
  · rfl

theorem erase_finish (call : PendingCall) (deadline : Option ℕ) :
    erase (finish tokio call deadline) = call.finish tokio deadline := by
  unfold finish PendingCall.finish
  cases deadline with
  | none =>
    simp only [erase_bind, erase_quietly, erase_settleCall]
  | some timeout =>
    have hwait : erase (Future.timeout (quietly (call.pending.waitFor tokio .finalized))) =
        Future.timeout (call.pending.waitFor tokio .finalized) := by
      conv_rhs => rw [← erase_quietly (call.pending.waitFor tokio .finalized)]
      exact Future.filterLog_timeout _
    simp only [erase_bind, hwait]
    congr 1
    funext waited
    cases waited with
    | some waited => exact erase_settleCall _ _
    | none => rfl

/-- Without what the store is told, a call is the flow that it was modelled as. -/
theorem erase_callWith (call : Call) (deadline : Option ℕ) :
    erase (callWith tokio p call deadline) =
      (ContractFlows.sendCallWith tokio p call).onOk fun pending =>
        pending.finish tokio deadline := by
  unfold callWith
  rw [erase_onOk, erase_sendCallWith]
  congr 1
  funext pending
  exact erase_finish tokio pending deadline

end Erasure

section Notes

/-- The events that order the store and the node. -/
def CallEvent.noted : CallEvent → Bool
  | .flow e => decide (e = .handedOver)
  | _ => true

def notes (log : List CallEvent) : List CallEvent := log.filter CallEvent.noted

theorem notes_append (log log' : List CallEvent) :
    notes (log ++ log') = notes log ++ notes log' := List.filter_append _ _

theorem notes_told {e : CallEvent} (h : e.noted = true) : notes [e] = [e] :=
  List.filter_cons_of_pos h

/-- A part of a call that does not submit. -/
def Unhanded {α : Type} (f : Flow α) : Prop := f.Ensures fun _ log => .handedOver ∉ log

theorem notes_flow {log : List Event} (h : .handedOver ∉ log) :
    notes (log.map .flow) = [] := by
  refine List.filter_eq_nil_iff.mpr fun e he hnoted => ?_
  obtain ⟨e, hmem, rfl⟩ := List.mem_map.mp he
  obtain rfl : e = .handedOver := of_decide_eq_true hnoted
  exact h hmem

theorem settles_unhanded {m m' : Lifecycle.Tags} {log : List Event}
    (h : duty.Settles m log m') : .handedOver ∉ log := fun hmem => (h.1 _ hmem).elim

theorem keeps_unhanded {E α : Type} {m : Lifecycle.Tags} {q : α → Lifecycle.Tags}
    {f : Flow (Except E α)} (h : duty.Keeps m f q) : Unhanded f := by
  refine Future.Ensures.mono h fun o log ho => ?_
  rcases o with (e | a) | _ | _ | _
  · exact settles_unhanded ho
  · exact settles_unhanded (Account.Holds.settles ho)
  · exact settles_unhanded ho
  · exact settles_unhanded ho
  · obtain ⟨m', ho⟩ := ho
    exact settles_unhanded ho

theorem returns_unhanded {α : Type} {m : Lifecycle.Tags} {f : Flow α} (h : duty.Returns m f) :
    Unhanded f := by
  refine Future.Ensures.mono h fun o log ho => ?_
  rcases o with a | _ | _ | _
  · exact settles_unhanded ho
  · exact settles_unhanded ho
  · exact settles_unhanded ho
  · obtain ⟨m', ho⟩ := ho
    exact settles_unhanded ho

theorem ask_unhanded {α : Type} (field : Answers → α) : Unhanded (ask field) := by
  refine Future.Ensures.mono (ensures_ask_nil field) fun o log hlog => ?_
  rw [hlog]
  exact List.not_mem_nil

theorem waitFor_unhanded (tx : PendingTx) (wait : Wait) : Unhanded (tx.waitFor true wait) :=
  Future.Ensures.mono (watches_waitFor tx wait).watched fun _ _ h => h.handedOver_not_mem

theorem notes_quietly {α : Type} {f : Flow α} (h : Unhanded f) :
    (quietly f).Ensures fun _ log => notes log = [] := fun s => notes_flow (h s)

theorem ensures_quietly {α : Type} {f : Flow α} {P : Outcome α → List CallEvent → Prop}
    (h : f.Ensures fun o log => P o (log.map .flow)) : (quietly f).Ensures P := h

/-- A fallible part of a call: the notes it leaves where it stops, and with its
value. -/
def Tells {E α : Type} (stopped : List CallEvent → Prop) (done : α → List CallEvent → Prop)
    (f : CallFlow (Except E α)) : Prop :=
  f.Ensures fun o log =>
    match o with
    | .ready (.ok a) => done a (notes log)
    | _ => stopped (notes log)

variable {E E' α β : Type} {stopped stopped' : List CallEvent → Prop}

theorem tells_ok {a : α} {done : α → List CallEvent → Prop} (h : done a []) :
    Tells (E := E) stopped done (pure (.ok a)) := Future.ensures_pure _ _ h

theorem Tells.onOk {done : α → List CallEvent → Prop} {done' : β → List CallEvent → Prop}
    {f : CallFlow (Except E α)} {k : α → CallFlow (Except E β)} (hf : Tells stopped done f)
    (hstopped : ∀ ns, stopped ns → stopped' ns)
    (hk : ∀ a ns, done a ns →
      Tells (fun ns' => stopped' (ns ++ ns')) (fun b ns' => done' b (ns ++ ns')) (k a)) :
    Tells stopped' done' (f.onOk k) := by
  refine Future.ensures_bind hf ?_ (fun _ h => hstopped _ h) (fun _ h => hstopped _ h)
    (fun _ h => hstopped _ h)
  rintro (e | a) log hlog
  · refine Future.ensures_pure _ _ ?_
    rw [List.append_nil]
    exact hstopped _ hlog
  · refine Future.Ensures.mono (hk a _ hlog) fun o log' ho => ?_
    rcases o with (e | b) | _ | _ | _
    all_goals
      simp only [notes_append]
      exact ho

theorem tells_quietly {f : Flow (Except E α)} (h : Unhanded f) :
    Tells (fun ns => ns = []) (fun _ ns => ns = []) (quietly f) := by
  refine Future.Ensures.mono (notes_quietly h) fun o log ho => ?_
  rcases o with (e | a) | _ | _ | _
  all_goals exact ho

/-- A part that tells nothing, before the part that does. -/
theorem Tells.after {done : β → List CallEvent → Prop} {f : Flow (Except E α)}
    {k : α → CallFlow (Except E β)} (hf : Unhanded f) (hstopped : stopped [])
    (hk : ∀ a, Tells stopped done (k a)) : Tells stopped done ((quietly f).onOk k) := by
  refine (tells_quietly hf).onOk ?_ ?_
  · rintro ns rfl
    exact hstopped
  · rintro a ns rfl
    exact hk a

theorem Tells.mapError {done : α → List CallEvent → Prop} {f : CallFlow (Except E α)}
    (hf : Tells stopped done f) (g : E → E') : Tells stopped done (f.mapError g) := by
  refine Future.ensures_bind hf ?_ (fun _ h => h) (fun _ h => h) (fun _ h => h)
  rintro (e | a) log hlog
  · refine Future.ensures_pure _ _ ?_
    rw [List.append_nil]
    exact hlog
  · refine Future.ensures_pure _ _ ?_
    rw [List.append_nil]
    exact hlog

theorem Tells.mono {done done' : α → List CallEvent → Prop} {f : CallFlow (Except E α)}
    (hf : Tells stopped done f) (hstopped : ∀ ns, stopped ns → stopped' ns)
    (hdone : ∀ a ns, done a ns → done' a ns) : Tells stopped' done' f := by
  refine Future.Ensures.mono hf fun o log ho => ?_
  rcases o with (e | a) | _ | _ | _
  · exact hstopped _ ho
  · exact hdone a _ ho
  all_goals exact hstopped _ ho

/-- The drop of a guard over a part of a call tells nothing. -/
theorem Tells.guarding {done : α → List CallEvent → Prop} {f : CallFlow (Except E α)}
    {drops : List Event} {m m' : Lifecycle.Tags} (hf : Tells stopped done f)
    (hdrops : duty.Settles m drops m') :
    Tells stopped done (Future.guarding (drops.map .flow) f) := by
  have hcut : ∀ log, stopped (notes log) → stopped (notes (log ++ drops.map .flow)) := by
    intro log h
    rw [notes_append, notes_flow (settles_unhanded hdrops), List.append_nil]
    exact h
  exact Future.ensures_guarding hf (fun _ _ h => h) hcut hcut (fun _ h => h)

theorem ensures_told (e : CallEvent) {f : CallFlow α} {P : Outcome α → List CallEvent → Prop}
    (hf : f.Ensures fun o log => P o (e :: log)) :
    (Future.emit e >>= fun _ => f).Ensures P := by
  refine Future.ensures_bind (P := fun o log => o = .ready () ∧ log = [e])
    (Future.ensures_emit _ _ ⟨rfl, rfl⟩) ?_ ?_ ?_ ?_
  · rintro _ log ⟨_, rfl⟩
    exact hf
  all_goals
    rintro log ⟨h, _⟩
    cases h

theorem tells_askStore (field : Answers → Except E α) (told : Except E α → CallEvent)
    (htold : ∀ a, (told a).noted = true) :
    Tells (fun ns => ns = [] ∨ ∃ e, ns = [told (.error e)]) (fun a ns => ns = [told (.ok a)])
      (askStore field told) := by
  have hquiet := notes_quietly (ask_unhanded field)
  refine Future.ensures_bind hquiet ?_ (fun _ h => .inl h) (fun _ h => .inl h) (fun _ h => .inl h)
  intro answer log hlog
  refine ensures_told _ (Future.ensures_pure _ _ ?_)
  have hnotes : notes (log ++ [told answer]) = [told answer] := by
    rw [notes_append, hlog, notes_told (htold answer)]
    rfl
  cases answer with
  | error e => exact .inr ⟨e, hnotes⟩
  | ok a => exact hnotes

end Notes

section Course

/-- The change of a call that read `found` at the head and left `after`. -/
def changeFrom (found : Option (Bytes × Bytes)) (after : Bytes) : PrivateStateChange :=
  ⟨(found.map Prod.fst).getD [], after, found.map Prod.snd⟩

/-- A call that did not submit. -/
inductive Unsent : List CallEvent → Prop
  | unread : Unsent []
  | read (found : Except String (Option (Bytes × Bytes))) : Unsent [.head found]
  | ran (found : Option (Bytes × Bytes)) (after : Bytes) :
      Unsent [.head (.ok found), .ran (changeFrom found after)]
  | refused (found : Option (Bytes × Bytes)) (after extrinsicHash : Bytes) (e : String)
      (h : after ≠ (changeFrom found after).baseline) :
      Unsent [.head (.ok found), .ran (changeFrom found after),
        .appended extrinsicHash (changeFrom found after) (.error e)]

/-- A call that submitted: with its state unchanged, or with its state recorded. -/
inductive Sent (extrinsicHash : Bytes) : Bool → List CallEvent → Prop
  | unchanged (found : Option (Bytes × Bytes)) (after : Bytes)
      (h : after = (changeFrom found after).baseline) :
      Sent extrinsicHash false
        [.head (.ok found), .ran (changeFrom found after), .flow .handedOver]
  | recorded (found : Option (Bytes × Bytes)) (after : Bytes)
      (h : after ≠ (changeFrom found after).baseline) :
      Sent extrinsicHash true
        [.head (.ok found), .ran (changeFrom found after),
          .appended extrinsicHash (changeFrom found after) (.ok ()), .flow .handedOver]

/-- The wait read what the chain did with the transaction. -/
def Decided : Except ProviderError TxInBlock → Prop
  | .ok _ | .error (.notApplied _) => True
  | .error _ => False

/-- What a submitted call tells from its wait on, and how it ends. -/
inductive Settling (extrinsicHash : Bytes) :
    Bool → Outcome (Except ContractError TxInBlock) → List CallEvent → Prop
  | unwaited (recorded : Bool) (o : Outcome (Except ContractError TxInBlock)) :
      Settling extrinsicHash recorded o []
  | waited (recorded : Bool) (verdict : Except ProviderError TxInBlock)
      (o : Outcome (Except ContractError TxInBlock))
      (h : recorded = true → Decided verdict → ∀ r, o ≠ .ready r) :
      Settling extrinsicHash recorded o [.waited verdict]
  | confirmed (tx : TxInBlock) (stored : Except String Unit)
      (o : Outcome (Except ContractError TxInBlock))
      (h : ∀ r, o = .ready r → (r = .ok tx ↔ stored = .ok ())) :
      Settling extrinsicHash true o
        [.waited (.ok tx), .confirmed extrinsicHash tx.blockHash stored]
  | failed (tx : TxInBlock) (stored : Except String Unit)
      (o : Outcome (Except ContractError TxInBlock)) (h : ∀ tx, o ≠ .ready (.ok tx)) :
      Settling extrinsicHash true o
        [.waited (.error (.notApplied tx)), .failed extrinsicHash stored]

theorem Settling.handedOver_not_mem {hash : Bytes} {recorded : Bool}
    {o : Outcome (Except ContractError TxInBlock)} {ns : List CallEvent}
    (h : Settling hash recorded o ns) : .flow .handedOver ∉ ns := by
  cases h <;> simp

inductive Course : Outcome (Except ContractError TxInBlock) → List CallEvent → Prop
  | unsent {o : Outcome (Except ContractError TxInBlock)} {ns : List CallEvent} (h : Unsent ns) :
      Course o ns
  | sent {extrinsicHash : Bytes} {recorded : Bool}
      {o : Outcome (Except ContractError TxInBlock)} {ns ns' : List CallEvent}
      (h : Sent extrinsicHash recorded ns) (h' : Settling extrinsicHash recorded o ns') :
      Course o (ns ++ ns')

/-- A call that came to its end, or was cut short, before its wait. -/
def Stopped (ns : List CallEvent) : Prop :=
  Unsent ns ∨ ∃ extrinsicHash recorded, Sent extrinsicHash recorded ns

theorem Stopped.course {ns : List CallEvent} (h : Stopped ns)
    (o : Outcome (Except ContractError TxInBlock)) : Course o ns := by
  rcases h with h | ⟨hash, recorded, h⟩
  · exact .unsent h
  · exact (List.append_nil ns) ▸ Course.sent h (.unwaited recorded o)

variable (p : MidnightProvider)

theorem tells_runForBuild (hp : p.privateState = true) (call : Call) :
    Tells Unsent (fun change ns => ∃ found after, change = changeFrom found after ∧
      ns = [.head (.ok found), .ran change]) (runForBuild p call) := by
  have hbaseline : Tells Unsent (fun r ns => ∃ found : Option (Bytes × Bytes),
      r = ((found.map Prod.fst).getD [], found.map Prod.snd) ∧ ns = [.head (.ok found)])
      (witnessBaseline p) := by
    unfold witnessBaseline
    rw [if_pos hp]
    refine ((tells_askStore Answers.head .head (fun _ => rfl)).mapError _).onOk ?_ ?_
    · rintro ns (rfl | ⟨e, rfl⟩)
      · exact .unread
      · exact .read _
    · rintro found ns rfl
      cases found with
      | none => exact tells_ok ⟨none, rfl, rfl⟩
      | some r => exact tells_ok ⟨some r, rfl, rfl⟩
  have hcontract : Unhanded (ask Answers.contract) := ask_unhanded _
  refine .after hcontract .unread fun _ => .after hcontract .unread fun _ => ?_
  refine hbaseline.onOk (fun _ h => h) ?_
  rintro r ns ⟨found, rfl, rfl⟩
  refine .after (keeps_unhanded ((keeps_shieldedPublicKeys p).mapError _)) (.read _) fun _ => ?_
  refine .after (keeps_unhanded (keeps_pure _)) (.read _) fun after => ?_
  refine ensures_told _ (Future.ensures_pure _ _ ?_)
  exact ⟨found, after, rfl, rfl⟩

theorem ensures_submit (prepared : PreparedTx) :
    (prepared.submit p.steps).Ensures fun o log => log = [.handedOver] ∧ ∀ tx,
      o = .ready (.ok tx) → tx.extrinsicHash = p.steps.extrinsicHash prepared.tx := by
  refine Future.ensures_bind (Lifecycle.ensures_emit_one .handedOver) ?_ ?_ ?_ ?_
  · rintro _ log ⟨_, rfl⟩
    have hasked : ((ask Answers.watched).mapError fun e =>
        ProviderError.submission (.submitRpc e)).Ensures fun _ log => log = [] := by
      refine Future.ensures_bind (ensures_ask_nil Answers.watched) ?_ (fun _ h => h)
        (fun _ h => h) (fun _ h => h)
      rintro x log rfl
      exact Future.ensures_pure _ _ rfl
    refine Future.ensures_bind hasked ?_ ?_ ?_ ?_
    · rintro (e | _) log rfl
      · exact Future.ensures_pure _ _ ⟨rfl, fun _ h => by cases h⟩
      · refine Future.ensures_pure _ _ ⟨rfl, fun tx h => ?_⟩
        cases h
        rfl
    all_goals
      rintro log rfl
      exact ⟨rfl, fun _ h => by cases h⟩
  all_goals
    rintro log ⟨h, _⟩
    cases h

/-- From the hand-over on the call has submitted, however it goes on. -/
theorem tells_submit (prepared : PreparedTx) (hash : Bytes) (written : Bool) :
    Tells (fun ns => ns = [.flow .handedOver])
      (fun r ns => ns = [.flow .handedOver] ∧
        r.2 = written ∧ r.1.extrinsicHash = p.steps.extrinsicHash prepared.tx)
      (quietly (ContractFlows.recordAndSubmit.submit p prepared hash written)) := by
  have hnotes : notes (List.map .flow [.handedOver]) = [.flow .handedOver] := rfl
  have hsubmit : (ContractFlows.recordAndSubmit.submit p prepared hash written).Ensures
      fun o log => log = [.handedOver] ∧ ∀ r, o = .ready (.ok r) →
        r.2 = written ∧ r.1.extrinsicHash = p.steps.extrinsicHash prepared.tx := by
    refine Future.ensures_bind (ensures_submit p prepared) ?_ ?_ ?_ ?_
    · rintro (e | tx) log ⟨rfl, htx⟩
      · cases e
        all_goals exact Future.ensures_pure _ _ ⟨rfl, fun _ h => by cases h⟩
      · refine Future.ensures_pure _ _ ⟨rfl, fun r h => ?_⟩
        cases h
        exact ⟨rfl, htx tx rfl⟩
    all_goals
      rintro log ⟨rfl, _⟩
      exact ⟨rfl, fun _ h => by cases h⟩
  refine ensures_quietly (Future.Ensures.mono hsubmit ?_)
  rintro o log ⟨rfl, hready⟩
  rcases o with (e | r) | _ | _ | _
  · exact hnotes
  · exact ⟨hnotes, hready r rfl⟩
  all_goals exact hnotes

theorem persists_eq (baseline after : Bytes) :
    (privateStatePersist baseline after == .persist) = decide (after ≠ baseline) := by
  unfold privateStatePersist
  by_cases h : after = baseline
  · rw [if_pos h, decide_eq_false (not_not.mpr h)]
    rfl
  · rw [if_neg h, decide_eq_true h]
    rfl

theorem tells_recordAndSubmit (hp : p.privateState = true) (found : Option (Bytes × Bytes))
    (after : Bytes) (prepared : PreparedTx) :
    Tells (fun ns => Stopped ([.head (.ok found), .ran (changeFrom found after)] ++ ns))
      (fun r ns => Sent r.1.extrinsicHash r.2
        ([.head (.ok found), .ran (changeFrom found after)] ++ ns))
      (recordAndSubmit true p prepared (changeFrom found after)) := by
  have hsent : ∀ hash recorded ns, Sent hash recorded ns → Stopped ns :=
    fun hash recorded ns h => .inr ⟨hash, recorded, h⟩
  unfold recordAndSubmit
  simp only [hp, Bool.true_and]
  rw [persists_eq]
  by_cases hchange : (changeFrom found after).after = (changeFrom found after).baseline
  · rw [decide_eq_false (not_not.mpr hchange), if_neg Bool.false_ne_true]
    refine (tells_submit p prepared _ false).mono ?_ ?_
    · rintro ns rfl
      exact hsent (p.steps.extrinsicHash prepared.tx) _ _ (.unchanged found after hchange)
    · rintro r ns ⟨rfl, hwritten, hhash⟩
      rw [hwritten]
      exact .unchanged found after hchange
  · rw [decide_eq_true hchange, if_pos rfl]
    have hasked := (tells_askStore Answers.store (.appended (p.steps.extrinsicHash prepared.tx)
      (changeFrom found after)) (fun _ => rfl)).guarding (settles_dropTx prepared)
    have hcut : ∀ ns, (ns = [] ∨ ∃ e, ns = [.appended (p.steps.extrinsicHash prepared.tx)
        (changeFrom found after) (.error e)]) →
        Stopped ([.head (.ok found), .ran (changeFrom found after)] ++ ns) := by
      rintro ns (rfl | ⟨e, rfl⟩)
      · exact .inl (.ran found after)
      · exact .inl (.refused found after _ e hchange)
    refine Future.ensures_bind hasked ?_ (fun _ h => hcut _ h) (fun _ h => hcut _ h)
      (fun _ h => hcut _ h)
    rintro (source | _) log hlog
    · have hreleased : ∀ log', notes log' = [] →
          Stopped ([.head (.ok found), .ran (changeFrom found after)] ++
            notes (log ++ log')) := by
        intro log' h
        rw [notes_append, h, List.append_nil]
        exact hcut _ hlog
      refine Future.ensures_bind (notes_quietly (returns_unhanded (returns_releaseTx prepared)))
        ?_ (fun _ h => hreleased _ h) (fun _ h => hreleased _ h) (fun _ h => hreleased _ h)
      intro _ log' hlog'
      refine Future.ensures_pure _ _ ?_
      rw [List.append_nil]
      exact hreleased _ hlog'
    · have hsubmitted := tells_submit p prepared (p.steps.extrinsicHash prepared.tx) true
      refine Future.Ensures.mono hsubmitted fun o log' ho => ?_
      simp only [notes_append, hlog]
      rcases o with (e | r) | _ | _ | _
      · rw [ho]
        exact hsent _ _ _ (.recorded found after hchange)
      · obtain ⟨hns, hwritten, hhash⟩ := ho
        show Sent r.1.extrinsicHash r.2 _
        rw [hns, hwritten, hhash]
        exact .recorded found after hchange
      all_goals
        rw [ho]
        exact hsent _ _ _ (.recorded found after hchange)

theorem tells_sendCallWith (hp : p.privateState = true) (call : Call) :
    Tells Stopped (fun pending ns => Sent pending.pending.extrinsicHash pending.snapshotStore ns)
      (sendCallWith true p call) := by
  unfold sendCallWith
  rw [if_neg (by simp [hp])]
  refine (tells_runForBuild p hp call).onOk (fun _ h => .inl h) ?_
  rintro change ns ⟨found, after, rfl, rfl⟩
  have hran : Stopped ([.head (.ok found), .ran (changeFrom found after)] ++ []) :=
    .inl (.ran found after)
  refine .after (keeps_unhanded (keeps_callTransaction call)) hran fun transaction => ?_
  refine .after (keeps_unhanded ((keeps_prepareReserved p transaction).mapError _)) hran
    fun prepared => ?_
  cases call.decode with
  | error e =>
    refine Future.ensures_bind (notes_quietly (returns_unhanded (returns_releaseTx prepared)))
      ?_ ?_ ?_ ?_
    · intro _ log hlog
      refine Future.ensures_pure _ _ ?_
      rw [List.append_nil, hlog]
      exact hran
    all_goals
      intro log hlog
      simp only [hlog]
      exact hran
  | ok _ =>
    refine (tells_recordAndSubmit p hp found after prepared).onOk (fun _ h => h) ?_
    rintro r ns hr
    exact tells_ok (by simpa using hr)

/-- A verdict that is brought to the store: the call ends with the store's answer, or it
is dropped before the store takes it. -/
theorem ensures_brought (told : Except String Unit → CallEvent)
    (htold : ∀ a, (told a).noted = true) (result : Except ContractError TxInBlock) :
    (((askStore Answers.store told).mapError ContractError.privateState).onOk
      fun _ => pure result).Ensures fun o log =>
        (notes log = [] ∧ ∀ r, o ≠ .ready r) ∨
        (notes log = [told (.ok ())] ∧ o = .ready result) ∨
        ∃ e, notes log = [told (.error e)] ∧ o = .ready (.error (.privateState e)) := by
  have hasked : (askStore Answers.store told).Ensures fun o log =>
      (notes log = [] ∧ ∀ a, o ≠ .ready a) ∨ ∃ a, notes log = [told a] ∧ o = .ready a := by
    refine Future.ensures_bind (notes_quietly (ask_unhanded Answers.store)) ?_ ?_ ?_ ?_
    · intro answer log hlog
      refine ensures_told _ (Future.ensures_pure _ _ (.inr ⟨answer, ?_, rfl⟩))
      rw [notes_append, hlog, notes_told (htold answer)]
      rfl
    all_goals
      intro log hlog
      exact .inl ⟨hlog, fun _ h => by cases h⟩
  have hmapped : ((askStore Answers.store told).mapError ContractError.privateState).Ensures
      fun o log => (notes log = [] ∧ ∀ a, o ≠ .ready a) ∨
        ∃ a, notes log = [told a] ∧ o = .ready (a.mapError ContractError.privateState) := by
    refine Future.ensures_bind hasked ?_ ?_ ?_ ?_
    · rintro answer log (⟨_, hnot⟩ | ⟨a, hlog, ha⟩)
      · exact absurd rfl (hnot answer)
      · cases ha
        refine Future.ensures_pure _ _ (.inr ⟨answer, ?_, rfl⟩)
        rw [List.append_nil, hlog]
    all_goals
      rintro log (⟨hlog, _⟩ | ⟨a, _, ha⟩)
      · exact .inl ⟨hlog, fun _ h => by cases h⟩
      · cases ha
  refine Future.ensures_bind hmapped ?_ ?_ ?_ ?_
  · rintro answer log (⟨_, hnot⟩ | ⟨a, hlog, ha⟩)
    · exact absurd rfl (hnot answer)
    · cases ha
      cases a with
      | error e =>
        refine Future.ensures_pure _ _ (.inr (.inr ⟨e, ?_, rfl⟩))
        rw [List.append_nil, hlog]
      | ok _ =>
        refine Future.ensures_pure _ _ (.inr (.inl ⟨?_, rfl⟩))
        rw [List.append_nil, hlog]
  all_goals
    rintro log (⟨hlog, _⟩ | ⟨a, _, ha⟩)
    · exact .inl ⟨hlog, fun _ h => by cases h⟩
    · cases ha

theorem ensures_settleCall (call : PendingCall) (waited : Except ProviderError TxInBlock) :
    (settleCall call waited).Ensures fun o log =>
      Settling call.pending.extrinsicHash call.snapshotStore o (notes log) := by
  refine ensures_told _ ?_
  cases call.snapshotStore with
  | false =>
    have hquiet : ∀ o, Settling call.pending.extrinsicHash false o [.waited waited] :=
      fun o => .waited false waited o fun h => by cases h
    rcases waited with e | applied
    · cases e
      all_goals exact Future.ensures_pure _ _ (hquiet _)
    · exact Future.ensures_pure _ _ (hquiet _)
  | true =>
    have hundecided : ¬ Decided waited → ∀ o,
        Settling call.pending.extrinsicHash true o [.waited waited] :=
      fun hnot o => .waited true waited o fun _ h => (hnot h).elim
    have hcut : ∀ o : Outcome (Except ContractError TxInBlock), (∀ r, o ≠ .ready r) →
        Settling call.pending.extrinsicHash true o [.waited waited] :=
      fun o ho => .waited true waited o fun _ _ => ho
    rcases waited with e | applied
    · cases e with
      | notApplied tx =>
        refine Future.Ensures.mono (ensures_brought (.failed call.pending.extrinsicHash)
          (fun _ => rfl) (.error (.ofProvider (.notApplied tx)))) fun o log h => ?_
        show Settling _ true o (_ :: notes log)
        rcases h with ⟨hlog, ho⟩ | ⟨hlog, rfl⟩ | ⟨e, hlog, rfl⟩
        · exact hlog ▸ hcut o ho
        · exact hlog ▸ .failed tx _ _ fun _ h => by cases h
        · exact hlog ▸ .failed tx _ _ fun _ h => by cases h
      | _ => exact Future.ensures_pure _ _ (hundecided (fun h => h) _)
    · refine Future.Ensures.mono (ensures_brought
        (.confirmed call.pending.extrinsicHash applied.blockHash)
        (fun _ => rfl) (.ok applied)) fun o log h => ?_
      show Settling _ true o (_ :: notes log)
      rcases h with ⟨hlog, ho⟩ | ⟨hlog, rfl⟩ | ⟨e, hlog, rfl⟩
      · exact hlog ▸ hcut o ho
      · refine hlog ▸ .confirmed applied _ _ fun r h => ?_
        cases h
        exact ⟨fun _ => rfl, fun _ => rfl⟩
      · refine hlog ▸ .confirmed applied _ _ fun r h => ?_
        cases h
        exact ⟨fun h => (by cases h), fun h => (by cases h)⟩

theorem ensures_finish (call : PendingCall) (deadline : Option ℕ) :
    (finish true call deadline).Ensures fun o log =>
      Settling call.pending.extrinsicHash call.snapshotStore o (notes log) := by
  have hwait := notes_quietly (waitFor_unhanded call.pending .finalized)
  have hcut : ∀ o log, notes log = [] →
      Settling call.pending.extrinsicHash call.snapshotStore o (notes log) :=
    fun o log h => h ▸ .unwaited _ o
  have hsettle : ∀ log waited, notes log = [] → (settleCall call waited).Ensures fun o log' =>
      Settling call.pending.extrinsicHash call.snapshotStore o (notes (log ++ log')) := by
    intro log waited hlog
    refine Future.Ensures.mono (ensures_settleCall call waited) fun _ log' h => ?_
    rw [notes_append, hlog]
    exact h
  cases deadline with
  | none =>
    exact Future.ensures_bind hwait (fun waited log h => hsettle log _ h) (fun _ h => hcut _ _ h)
      (fun _ h => hcut _ _ h) (fun _ h => hcut _ _ h)
  | some timeout =>
    have htimed := Future.ensures_timeout (Q := fun _ log => notes log = []) hwait
      (fun _ _ h => h) (fun _ h => h) (fun _ h => h) (fun _ h => h)
    refine Future.ensures_bind htimed ?_ (fun _ h => hcut _ _ h) (fun _ h => hcut _ _ h)
      (fun _ h => hcut _ _ h)
    rintro (_ | waited) log hlog
    · refine Future.ensures_pure _ _ ?_
      rw [List.append_nil]
      exact hcut _ log hlog
    · exact hsettle log _ hlog

/-- Whatever its awaits answer and wherever it is dropped, a call follows its
course. -/
theorem ensures_course (hp : p.privateState = true) (call : Call) (deadline : Option ℕ) :
    (callWith true p call deadline).Ensures fun o log => Course o (notes log) := by
  refine Future.ensures_bind (tells_sendCallWith p hp call) ?_ (fun _ h => Stopped.course h _)
    (fun _ h => Stopped.course h _) (fun _ h => Stopped.course h _)
  rintro (e | pending) log hlog
  · refine Future.ensures_pure _ _ ?_
    rw [List.append_nil]
    exact Stopped.course hlog _
  · refine Future.Ensures.mono (ensures_finish pending deadline) fun o log' h => ?_
    rw [notes_append]
    exact .sent hlog h

end Course

end MidnightRs.CallFlows
