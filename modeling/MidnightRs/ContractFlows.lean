import MidnightRs.Submission

/-!
The flows that build on the provider and submit: transfers, contract calls,
deploys and maintenance updates, each from its first await point to the waits on
the submitted transaction. What a flow computes between two await points is an
argument of its request.
-/
namespace MidnightRs.ContractFlows

open Reservations WalletBuilds Futures Submission

structure PrivateStateChange where
  baseline : Bytes
  after : Bytes
  dependsOn : Option Bytes
deriving DecidableEq, Repr

inductive PrivateStatePersist where
  | unchanged
  | persist
deriving DecidableEq, Repr

def privateStatePersist (baseline postCall : Bytes) : PrivateStatePersist :=
  if postCall = baseline then .unchanged else .persist

/-- A circuit call. `deposits` is what the partition of its transcript has the
caller fund in each segment. -/
structure Call where
  declaresWitnesses : Bool
  run : Bytes → Except ContractError Bytes
  coins : List Nullifier
  deposits : Except ContractError (List (Bytes × ℕ) × List (Bytes × ℕ))
  attach : List PreparedInput → Except ContractError Unit
  signUnshieldedSpends : Bytes → Except ContractError Bytes
  decode : Except ContractError Unit

/-- A shielded offer; `pay` refuses a shortfall against the reserved coins. -/
structure ShieldedOffer where
  coins : List Nullifier
  pay : List PreparedInput → Except ContractError Unit

/-- A deploy. `constructor` runs when no initial state is given. -/
structure Deploy where
  checked : Except ContractError Unit
  constructor : Option (Except ContractError Bytes)
  initialPrivateState : Bytes
  committee : Except ContractError Unit
  offer : Option ShieldedOffer
  address : String
  deployTimeout : ℕ

/-- A signed maintenance update, for the generation it was prepared in. -/
structure Maintenance where
  checkSignatures : Except ContractError Unit
  expected : LedgerVersion
  found : LedgerVersion

structure PendingCall where
  pending : PendingTx
  snapshotStore : Bool
deriving DecidableEq, Repr

structure PendingDeploy where
  pending : PendingTx
  address : String
  deployTimeout : ℕ
  seen : Option TxInBlock
  snapshotStore : Bool
deriving DecidableEq, Repr

section Runtime

variable (tokio : Bool) (p : MidnightProvider)

/-- A step with no await point. -/
def now {E α : Type} (a : Except E α) : Flow (Except E α) := pure a

def proveWithoutFee : Flow (Except ContractError TransferResult) :=
  ((ask Answers.prepared).mapError (fun e => .provider (.wallet e))).onOk fun prepared =>
    ((ask Answers.proof).mapError (fun e => .provider (.wallet e))).onOk fun (bytes, feeSpeck) =>
      pure (.ok ⟨bytes, prepared.spentInputs, feeSpeck⟩)

namespace Call

/-- The circuit runs on the state at its block, and reserves nothing. -/
def runForBuild (call : Call) : Flow (Except ContractError PrivateStateChange) :=
  (ask Answers.contract).onOk fun () =>
    (ask Answers.contract).onOk fun () =>
      (witnessBaseline p).onOk fun (baseline, dependsOn) =>
        (p.shieldedPublicKeys.mapError ContractError.ofProvider).onOk fun () =>
          (now (call.run baseline)).onOk fun after =>
            pure (.ok ⟨baseline, after, dependsOn⟩)
where
  witnessBaseline (p : MidnightProvider) : Flow (Except ContractError (Bytes × Option Bytes)) :=
    if p.privateState then
      ((ask Answers.head).mapError ContractError.privateState).onOk fun
        | some (data, extrinsicHash) => pure (.ok (data, some extrinsicHash))
        | none => pure (.ok ([], none))
    else pure (.ok ([], none))

/-- The fee is paid after proving, in an intent of its own. -/
def attachAndProve (call : Call) (prepared : List PreparedInput) (payFees : Bool) :
    Flow (Except ContractError TransferResult) :=
  (now (call.attach prepared)).onOk fun () =>
    proveWithoutFee.onOk fun unpaid =>
      (now (call.signUnshieldedSpends unpaid.txBytes)).onOk fun txBytes =>
        if payFees then
          (Builds.balanceTransaction tokio p txBytes).mapError ContractError.ofProvider
        else pure (.ok { unpaid with txBytes })

/-- Draws the caller's unshielded value and proves, inside the guard over the
shielded coins. -/
def drawAndProve (call : Call) (draws : List (Bytes × ℕ)) (prepared : List PreparedInput)
    (payFees : Bool) : Flow (Except ContractError TransferResult) :=
  ((Builds.prepareUnshieldedInputs tokio p draws).mapError ContractError.ofProvider).onOk
    fun (_, held) =>
      (held.keepOnOk tokio (call.attachAndProve tokio p prepared payFees)).onOk
        fun transaction =>
          pure (.ok { transaction with spent := transaction.spent.merge held.spent })

def callTransaction (call : Call) (payFees : Bool) : Flow (Except ContractError TransferResult) :=
  (p.builds.mapError ContractError.ofProvider).onOk fun () =>
    (p.shieldedPublicKeys.mapError ContractError.ofProvider).onOk fun () =>
      (Builds.executionContext.mapError ContractError.ofProvider).onOk fun () =>
        (now call.deposits).onOk fun (guaranteed, fallible) =>
          (Builds.addFunding.mapError ContractError.ofProvider).onOk fun () =>
            ((Builds.prepareShieldedInputs p call.coins).mapError ContractError.ofProvider).onOk
              fun (prepared, held) =>
                (held.keepOnOk tokio
                  (call.drawAndProve tokio p (guaranteed ++ fallible) prepared payFees)).onOk
                  fun transaction =>
                    pure (.ok { transaction with spent := transaction.spent.merge held.spent })

end Call

/-- Records the snapshot when the private state changed, then submits. -/
def recordAndSubmit (prepared : PreparedTx) (change : PrivateStateChange) :
    Flow (Except ContractError (PendingTx × Bool)) := do
  let extrinsicHash := p.steps.extrinsicHash prepared.tx
  if p.privateState && privateStatePersist change.baseline change.after == .persist then
    match ← Future.guarding (prepared.drop tokio) (ask Answers.store) with
    | .error source =>
      prepared.release tokio
      pure (.error (.pendingSnapshotFailed extrinsicHash source))
    | .ok () => submit extrinsicHash true
  else submit extrinsicHash false
where
  submit (extrinsicHash : Bytes) (snapshotWritten : Bool) :
      Flow (Except ContractError (PendingTx × Bool)) := do
    match ← prepared.submit p.steps with
    | .ok pending => pure (.ok (pending, snapshotWritten))
    | .error (.submission source) =>
      pure (.error (.submissionWait prepared.transactionHash extrinsicHash source snapshotWritten))
    | .error e => pure (.error (.ofProvider e))

/-- The result is decoded before anything is recorded or submitted. -/
def sendCallWith (call : Call) : Flow (Except ContractError PendingCall) :=
  if call.declaresWitnesses && !p.privateState then
    pure (.error (.construction ("this contract declares witnesses, which read and write private " ++
      "state, but no private-state provider is attached: call " ++
      "`MidnightProvider::with_private_state(...)`. Without one every call would silently start " ++
      "from the default private state.")))
  else
    (call.runForBuild p).onOk fun change =>
      (call.callTransaction tokio p true).onOk fun transaction =>
        ((p.prepareReserved tokio transaction).mapError ContractError.ofProvider).onOk
          fun prepared => do
            match call.decode with
            | .error e =>
              prepared.release tokio
              pure (.error e)
            | .ok () =>
              (recordAndSubmit tokio p prepared change).onOk fun (pending, snapshotStore) =>
                pure (.ok ⟨pending, snapshotStore⟩)

/-- An applied transaction confirms the snapshot, one the chain did not apply
drops it, and a wait with no verdict keeps it. -/
def settleSnapshot (waited : Except ProviderError TxInBlock) : Flow (Except ContractError Unit) :=
  match waited with
  | .ok _ | .error (.notApplied _) => (ask Answers.store).mapError ContractError.privateState
  | .error _ => pure (.ok ())

namespace PendingCall

def settleCall (call : PendingCall) (waited : Except ProviderError TxInBlock) :
    Flow (Except ContractError TxInBlock) :=
  (if call.snapshotStore then settleSnapshot waited else pure (.ok ())).onOk fun () =>
    match waited with
    | .ok applied => pure (.ok applied)
    | .error (.submission source) =>
      pure (.error (.submissionWait call.pending.transactionHash call.pending.extrinsicHash source
        call.snapshotStore))
    | .error e => pure (.error (.ofProvider e))

/-- The settle runs outside the deadline, which only bounds the wait. -/
def finish (call : PendingCall) (deadline : Option ℕ) : Flow (Except ContractError TxInBlock) := do
  match deadline with
  | none =>
    let waited ← call.pending.waitFor tokio .finalized
    call.settleCall (waited.map Prod.fst)
  | some timeout =>
    match ← Future.timeout (call.pending.waitFor tokio .finalized) with
    | some waited => call.settleCall (waited.map Prod.fst)
    | none =>
      pure (.error (.finalizeTimeout call.pending.transactionHash call.pending.extrinsicHash
        timeout call.snapshotStore))

end PendingCall

namespace Deploy

/-- The wallet funds the transaction and balances its fee against mock proofs. -/
def buildWithMockFeeProofs : Flow (Except ContractError TransferResult) :=
  (Builds.buildFunded tokio p).mapError ContractError.ofProvider

def payOffer (offer : ShieldedOffer) (prepared : List PreparedInput) :
    Flow (Except ContractError TransferResult) :=
  (now (offer.pay prepared)).onOk fun () =>
    proveWithoutFee.onOk fun unpaid =>
      (Builds.balanceTransaction tokio p unpaid.txBytes).mapError ContractError.ofProvider

def offerTransaction (offer : ShieldedOffer) : Flow (Except ContractError TransferResult) :=
  (p.shieldedPublicKeys.mapError ContractError.ofProvider).onOk fun () =>
    (Builds.addFunding.mapError ContractError.ofProvider).onOk fun () =>
      ((Builds.prepareShieldedInputs p offer.coins).mapError ContractError.ofProvider).onOk
        fun (prepared, held) =>
          (held.keepOnOk tokio (payOffer tokio p offer prepared)).onOk fun transaction =>
            pure (.ok { transaction with spent := transaction.spent.merge held.spent })

def deployFunded (offer : Option ShieldedOffer) : Flow (Except ContractError TransferResult) :=
  (p.builds.mapError ContractError.ofProvider).onOk fun () =>
    (Builds.executionContext.mapError ContractError.ofProvider).onOk fun () =>
      match offer with
      | none => buildWithMockFeeProofs tokio p
      | some offer => offerTransaction tokio p offer

/-- The private state to record: the constructor's, or the one given. -/
def initialPrivate (deploy : Deploy) : Flow (Except ContractError Bytes) :=
  match deploy.constructor with
  | none => pure (.ok deploy.initialPrivateState)
  | some ran =>
    (p.shieldedPublicKeys.mapError ContractError.ofProvider).onOk fun () => now ran

def requireStoreForPrivateState (privateState : Bytes) (hasStore : Bool) :
    Except ContractError Unit :=
  if !privateState.isEmpty && !hasStore then
    .error (.construction ("the deploy has a private state to record, but no private-state " ++
      "provider is attached: call `MidnightProvider::with_private_state(...)`"))
  else .ok ()

def send (deploy : Deploy) : Flow (Except ContractError PendingDeploy) :=
  (now deploy.checked).onOk fun () =>
    (deploy.initialPrivate p).onOk fun privateState =>
      (now (requireStoreForPrivateState privateState p.privateState)).onOk fun () =>
        (ask Answers.contract).onOk fun () =>
          (now deploy.committee).onOk fun () =>
            (deployFunded tokio p deploy.offer).onOk fun transaction =>
              ((p.prepareReserved tokio transaction).mapError ContractError.ofProvider).onOk
                fun prepared =>
                  (recordAndSubmit tokio p prepared ⟨[], privateState, none⟩).onOk
                    fun (pending, snapshotStore) =>
                      pure (.ok ⟨pending, deploy.address, deploy.deployTimeout, none,
                        snapshotStore⟩)

end Deploy

namespace PendingDeploy

def waitBest (deploy : PendingDeploy) : Flow (Except ContractError PendingDeploy) :=
  ((deploy.pending.waitFor tokio .best).mapError ContractError.ofProvider).onOk
    fun (inBlock, pending) => pure (.ok { deploy with pending, seen := some inBlock })

/-- Settles the snapshot before it reports what the wait found. -/
def waitFinalized (deploy : PendingDeploy) : Flow (Except ContractError PendingDeploy) := do
  let waited ← deploy.pending.waitFor tokio .finalized
  (if deploy.snapshotStore then settleSnapshot (waited.map Prod.fst)
    else pure (.ok ())).onOk fun () =>
      match waited with
      | .error e => pure (.error (.ofProvider e))
      | .ok (inBlock, pending) =>
        pure (.ok { deploy with pending, seen := some inBlock, snapshotStore := false })

def wait (deploy : PendingDeploy) : Wait → Flow (Except ContractError PendingDeploy)
  | .best => deploy.waitBest tokio
  | .finalized => deploy.waitFinalized tokio

/-- A read that fails below the contract layer runs again. -/
def readAgain : Except ContractError Unit → Option (Flow (Except ContractError Unit))
  | .error (.provider _) => none
  | definitive => some (pure definitive)

def deployedState (deploy : PendingDeploy) (inBlock : TxInBlock) :
    Flow (Except ContractError Unit) := do
  match ← Future.timeout (Future.awaitUntil fun answers => ([], readAgain answers.contract)) with
  | some state => pure state
  | none =>
    pure (.error (.deployTimeout deploy.address inBlock.transactionHash deploy.deployTimeout
      (some inBlock)))

def intoContract (deploy : PendingDeploy) : Flow (Except ContractError Unit) := do
  match deploy.seen with
  | some inBlock => deploy.deployedState inBlock
  | none =>
    match ← Future.timeout (deploy.pending.waitFor tokio .best) with
    | some (.ok (inBlock, _)) => deploy.deployedState inBlock
    | some (.error e) => pure (.error (.ofProvider e))
    | none =>
      pure (.error (.deployTimeout deploy.address deploy.pending.transactionHash
        deploy.deployTimeout none))

end PendingDeploy

namespace Maintenance

def buildInner (update : Maintenance) : Flow (Except ContractError TransferResult) :=
  (now update.checkSignatures).onOk fun () =>
    (p.builds.mapError ContractError.ofProvider).onOk fun () =>
      if update.expected = update.found then
        (Builds.executionContext.mapError ContractError.ofProvider).onOk fun () =>
          Deploy.buildWithMockFeeProofs tokio p
      else
        pure (.error (.provider (.wallet (.ledgerMismatch update.expected update.found))))

def buildAndSubmit (update : Maintenance) : Flow (Except ContractError PendingTx) :=
  (update.buildInner tokio p).onOk fun transaction =>
    (p.submitReserved tokio transaction).mapError ContractError.ofProvider

end Maintenance

/-- The waits a caller runs on a handle, one after the other. -/
def waits (tx : PendingTx) : List Wait → Flow (Except ContractError Unit)
  | [] => pure (.ok ())
  | wait :: rest =>
    ((tx.waitFor tokio wait).mapError ContractError.ofProvider).onOk fun (_, tx) => waits tx rest

def deployWaits (deploy : PendingDeploy) (connect : Bool) :
    List Wait → Flow (Except ContractError Unit)
  | [] => if connect then deploy.intoContract tokio else pure (.ok ())
  | wait :: rest => (deploy.wait tokio wait).onOk fun deploy => deployWaits deploy connect rest

/-- The flows that run from a build to the waits on its transaction. The wait of
a call is bounded when the call waits for itself, and unbounded on its handle. -/
inductive SubmitFlow where
  | transfer (after : List Wait)
  | call (request : Call) (deadline : Option ℕ)
  | deploy (request : Deploy) (after : List Wait) (connect : Bool)
  | maintenance (request : Maintenance) (after : List Wait)

def SubmitFlow.run : SubmitFlow → Flow (Except ContractError Unit)
  | .transfer after =>
    ((p.buildAndSubmit tokio).mapError ContractError.ofProvider).onOk fun tx =>
      waits tokio tx after
  | .call request deadline =>
    (sendCallWith tokio p request).onOk fun pending =>
      (pending.finish tokio deadline).onOk fun _ => pure (.ok ())
  | .deploy request after connect =>
    (request.send tokio p).onOk fun pending => deployWaits tokio pending connect after
  | .maintenance request after =>
    (request.buildAndSubmit tokio p).onOk fun tx => waits tokio tx after

end Runtime

end MidnightRs.ContractFlows
