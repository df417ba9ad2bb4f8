import MidnightRs.Futures
import MidnightRs.WalletBuilds

/-!
From a build to the chain's verdict, on the provider. A build holds what the
wallet reserved for it in a guard; a prepared transaction takes the guard over,
a submitted one takes the reservation out of it, and a wait that reads a
definitive rejection hands it back. An await point is answered by the wallet,
the prover, the node or the store, or the caller drops the future there. Awaits
that follow each other inside one such answer are one await point.
-/
namespace MidnightRs.Submission

open Reservations WalletBuilds Futures

inductive Verdict where
  | success
  | partialSuccess
  | failure
deriving DecidableEq, Repr

structure InBlock where
  blockHash : Bytes
  extrinsicHash : Bytes
deriving DecidableEq, Repr

structure TxInBlock where
  blockHash : Bytes
  extrinsicHash : Bytes
  transactionHash : Bytes
  verdict : Verdict
deriving DecidableEq, Repr

/-- What the watch stream of a submitted transaction yields. -/
inductive Status where
  | validated
  | broadcasted
  | noLongerInBestBlock
  | inBestBlock (b : InBlock)
  | inFinalizedBlock (b : InBlock)
  | invalid (message : String)
  | dropped (message : String)
  | error (message : String)
deriving DecidableEq, Repr

inductive SubmitError where
  | notSubmitted (message : String)
  | submitRpc (message : String)
  | invalid (message : String) (code : Option ℕ)
  | dropped (message : String)
  | nodeError (message : String)
  | watchStream (message : String)
  | verdictFetch (message : String)
deriving DecidableEq, Repr

inductive ProviderError where
  | rpc (message : String)
  | unsupportedLedger (message : String)
  | noWallet
  | wallet (e : WalletError)
  | submission (e : SubmitError)
  | notApplied (tx : TxInBlock)
  | transaction (message : String)
deriving DecidableEq, Repr

inductive ContractError where
  | provider (e : ProviderError)
  | transactionFailed (tx : TxInBlock)
  | notFound (address : String)
  | stateFetch (message : String)
  | verifierKeyMismatch (circuit : String)
  | interpreter (message : String)
  | privateState (message : String)
  | construction (message : String)
  | shieldedOfferShortfall (tokenType : Bytes) (held paid : ℕ)
  | serialization (message : String)
  | maintenance (message : String)
  | pendingSnapshotFailed (extrinsicHash : Bytes) (source : String)
  | submissionWait (transactionHash extrinsicHash : Bytes) (source : SubmitError)
      (snapshotWritten : Bool)
  | finalizeTimeout (transactionHash extrinsicHash : Bytes) (timeout : ℕ) (snapshotWritten : Bool)
  | deployTimeout (address : String) (transactionHash : Bytes) (timeout : ℕ)
      (inBlock : Option TxInBlock)
deriving DecidableEq, Repr

def ContractError.ofProvider : ProviderError → ContractError
  | .notApplied tx => .transactionFailed tx
  | e => .provider e

/-- The decimal digits after the last "custom error", when they fit a byte. -/
def codeIn (message : String) : Option ℕ :=
  match (message.splitOn "custom error").reverse with
  | tail :: _ :: _ =>
    let digits := (tail.toList.dropWhile (fun c => c = ':' || c = ' ')).takeWhile Char.isDigit
    let code := digits.foldl (fun n c => n * 10 + (c.toNat - 48)) 0
    if digits.isEmpty || 255 < code then none else some code
  | _ => none

namespace SubmitError

def fromTerminalStatus : Status → Option SubmitError
  | .invalid message => some (.invalid message (codeIn message))
  | .dropped message => some (.dropped message)
  | .error message => some (.nodeError message)
  | .validated | .broadcasted | .noLongerInBestBlock | .inBestBlock _ | .inFinalizedBlock _ => none

def watch (e : String) : SubmitError := .watchStream e

def streamEnded (awaiting : String) : SubmitError :=
  .watchStream ("stream ended before " ++ awaiting)

def rejectionIsDefinitive : SubmitError → Bool
  | .invalid _ _ => true
  | _ => false

end SubmitError

/-- What a flow does that its reservation depends on. -/
inductive Event where
  | reserved (spent : SpentInputs)
  | released (spent : SpentInputs)
  | handedOver
  | read (status : Status)
deriving DecidableEq

/-- The answers an await point can get, by what the flow awaits there. -/
structure Answers where
  node : Except ProviderError Unit
  client : Option (Except String Unit)
  context : Except WalletError Unit
  prepared : Except WalletError PreparedTransfer
  fees : Except WalletError (Option PreparedTransfer)
  shielded : Except WalletError (List PreparedInput × SpentInputs)
  unshielded : Except WalletError (PreparedUnshielded × SpentInputs)
  proof : Except WalletError (Bytes × ℕ)
  watched : Except String Unit
  status : Option (Except String Status)
  events : Except String (List (Except String (String × String)))
  contract : Except ContractError Unit
  head : Except String (Option (Bytes × Bytes))
  store : Except String Unit

abbrev Flow := Future Answers Event

def ask {α : Type} (field : Answers → α) : Flow α := do
  return field (← Future.await)

/-- The handle of a wallet that holds reservations. -/
structure WalletFacade where
deriving DecidableEq, Repr

/-- The steps between the await points that third-party code decides: the check
of an external transaction, the price of a fee-less one, the encoding of an
extrinsic, and the hashes. -/
structure Steps where
  external : Bytes → Except ProviderError Unit
  feeSpeck : Bytes → Except WalletError ℕ
  createUnsigned : Bytes → Except String Unit
  transactionHash : Bytes → Bytes
  extrinsicHash : Bytes → Bytes
  showNullifier : Nullifier → String

structure MidnightProvider where
  wallet : Option WalletFacade
  privateState : Bool
  steps : Steps

/-- The inputs a build has reserved, released if the build does not finish. -/
structure HeldInputs where
  wallet : Option WalletFacade
  spent : SpentInputs
deriving DecidableEq, Repr

structure Reservation where
  wallet : WalletFacade
  spent : SpentInputs
deriving DecidableEq, Repr

structure TransferResult where
  txBytes : Bytes
  spent : SpentInputs
  feeSpeck : ℕ
deriving DecidableEq, Repr

structure PreparedTx where
  tx : Bytes
  transactionHash : Bytes
  held : Option HeldInputs
deriving DecidableEq, Repr

structure PendingTx where
  extrinsicHash : Bytes
  transactionHash : Bytes
  reservation : Option Reservation
deriving DecidableEq, Repr

section Runtime

variable (tokio : Bool)

/-- Under a runtime the release is a task of its own, and the await only joins
it; with none it runs inline, behind the await of the wallet's lock. -/
def handBack (spent : SpentInputs) : Flow Unit :=
  if spent.isEmpty then pure ()
  else if tokio then do
    Future.emit (.released spent)
    discard Future.await
  else do
    discard Future.await
    Future.emit (.released spent)

namespace HeldInputs

def absorb (held : HeldInputs) (spent : SpentInputs) : HeldInputs :=
  { held with spent := held.spent.merge spent }

/-- A drop cannot await: it hands the release to the runtime, if there is one. -/
def drop (held : HeldInputs) : List Event :=
  match held.wallet with
  | none => []
  | some _ => if held.spent.isEmpty || !tokio then [] else [.released held.spent]

def release (held : HeldInputs) : Flow Unit :=
  match held.wallet with
  | none => pure ()
  | some _ => handBack tokio held.spent

/-- Runs the rest of a build, with the guard alive while it runs. -/
def keepOnOk {E T : Type} (held : HeldInputs) (work : Flow (Except E T)) :
    Flow (Except E T) := do
  match ← Future.guarding (held.drop tokio) work with
  | .ok result => pure (.ok result)
  | .error e =>
    held.release tokio
    pure (.error e)

def intoReservation (held : HeldInputs) : Option Reservation :=
  held.wallet.map (fun wallet => ⟨wallet, held.spent⟩)

end HeldInputs

def Reservation.release (r : Reservation) : Flow Unit := handBack tokio r.spent

namespace WalletFacade

/-- A wallet records a reservation and answers in one step, so no drop falls in
between. -/
def reserving {T : Type} (answer : Answers → Except WalletError T) (spent : T → SpentInputs) :
    Flow (Except ProviderError T) :=
  ((ask answer).mapError .wallet).onOk fun a => do
    Future.emit (.reserved (spent a))
    pure (.ok a)

def prepareTransfer : Flow (Except ProviderError PreparedTransfer) :=
  reserving Answers.prepared PreparedTransfer.spentInputs

def prepareFunded : Flow (Except ProviderError PreparedTransfer) :=
  reserving Answers.prepared PreparedTransfer.spentInputs

def prepareFees : Flow (Except ProviderError (Option PreparedTransfer)) :=
  reserving Answers.fees (fun r => (r.map PreparedTransfer.spentInputs).getD .default)

def spendShielded : Flow (Except ProviderError (List PreparedInput × SpentInputs)) :=
  reserving Answers.shielded Prod.snd

def spendUnshielded : Flow (Except ProviderError (PreparedUnshielded × SpentInputs)) :=
  reserving Answers.unshielded Prod.snd

end WalletFacade

def refuseRepeatedNullifiers (p : MidnightProvider) : List Nullifier → Except WalletError Unit
  | [] => .ok ()
  | n :: ns =>
    if ns.contains n then
      .error (.duplicateInput ("shielded coin " ++ p.steps.showNullifier n))
    else refuseRepeatedNullifiers p ns

namespace Builds

variable (p : MidnightProvider)

def executionContext : Flow (Except ProviderError Unit) :=
  (ask Answers.context).mapError .wallet

def addFunding : Flow (Except ProviderError Unit) := (ask Answers.context).mapError .wallet

/-- Proves a build whose inputs the wallet already holds. -/
def proveReserved (reserved : PreparedTransfer) : Flow (Except ProviderError TransferResult) :=
  HeldInputs.keepOnOk tokio ⟨p.wallet, reserved.spentInputs⟩
    (((ask Answers.proof).mapError .wallet).onOk fun (bytes, feeSpeck) =>
      pure (.ok ⟨bytes, reserved.spentInputs, feeSpeck⟩))

def buildThenProve : Flow (Except ProviderError TransferResult) :=
  WalletFacade.prepareTransfer.onOk (proveReserved tokio p)

def buildFunded : Flow (Except ProviderError TransferResult) :=
  WalletFacade.prepareFunded.onOk (proveReserved tokio p)

def prepareShieldedInputs (coins : List Nullifier) :
    Flow (Except ProviderError (List PreparedInput × HeldInputs)) :=
  match refuseRepeatedNullifiers p coins with
  | .error e => pure (.error (.wallet e))
  | .ok () =>
    WalletFacade.spendShielded.onOk fun (prepared, spent) =>
      pure (.ok (prepared, ⟨p.wallet, spent⟩))

/-- One draw after another, under one guard over all of them. -/
def drawUnshielded (held : HeldInputs) (prepared : List PreparedUnshielded) :
    List (Bytes × ℕ) → Flow (Except ProviderError (List PreparedUnshielded × HeldInputs))
  | [] => pure (.ok (prepared, held))
  | _ :: draws => do
    match ← Future.guarding (held.drop tokio) WalletFacade.spendUnshielded with
    | .ok (draw, spent) => drawUnshielded (held.absorb spent) (prepared ++ [draw]) draws
    | .error e =>
      held.release tokio
      pure (.error e)

def prepareUnshieldedInputs (draws : List (Bytes × ℕ)) :
    Flow (Except ProviderError (List PreparedUnshielded × HeldInputs)) :=
  drawUnshielded tokio ⟨p.wallet, .default⟩ [] draws

/-- A transaction that already pays its fee comes back with nothing reserved. -/
def balanceTransaction (txBytes : Bytes) : Flow (Except ProviderError TransferResult) :=
  match p.steps.external txBytes with
  | .error e => pure (.error e)
  | .ok () =>
    executionContext.onOk fun () =>
      WalletFacade.prepareFees.onOk fun
        | some reserved => proveReserved tokio p reserved
        | none =>
          match p.steps.feeSpeck txBytes with
          | .error e => pure (.error (.wallet e))
          | .ok feeSpeck => pure (.ok ⟨txBytes, .default, feeSpeck⟩)

end Builds

namespace PreparedTx

def holding (prepared : PreparedTx) (held : HeldInputs) : PreparedTx :=
  { prepared with held := some held }

/-- What a drop of the prepared transaction emits: the drop of its guard. -/
def drop (prepared : PreparedTx) : List Event :=
  match prepared.held with
  | none => []
  | some held => held.drop tokio

def release (prepared : PreparedTx) : Flow Unit :=
  match prepared.held with
  | none => pure ()
  | some held => held.release tokio

/-- The guard is disarmed before the call: from the call on, the node can hold
the transaction. -/
def submit (steps : Steps) (prepared : PreparedTx) : Flow (Except ProviderError PendingTx) := do
  Future.emit .handedOver
  ((ask Answers.watched).mapError (fun e => .submission (.submitRpc e))).onOk fun () =>
    pure (.ok ⟨steps.extrinsicHash prepared.tx, prepared.transactionHash,
      prepared.held.bind HeldInputs.intoReservation⟩)

end PreparedTx

/-- The events decide the verdict, up to the first that names one. -/
def verdictOf : List (Except String (String × String)) → Except SubmitError Verdict
  | [] => .ok .failure
  | .error e :: _ => .error (.verdictFetch ("decode event: " ++ e))
  | .ok ("Midnight", "TxApplied") :: _ => .ok .success
  | .ok ("Midnight", "TxPartialSuccess") :: _ => .ok .partialSuccess
  | .ok _ :: events => verdictOf events

def txInBlockWithVerdict (b : InBlock) (transactionHash : Bytes) :
    Flow (Except ProviderError TxInBlock) :=
  ((ask Answers.events).mapError
    (fun e => .submission (.verdictFetch ("fetch events: " ++ e)))).onOk fun events =>
      match verdictOf events with
      | .error e => pure (.error (.submission e))
      | .ok verdict => pure (.ok ⟨b.blockHash, b.extrinsicHash, transactionHash, verdict⟩)

def applied (tx : TxInBlock) : Except ProviderError TxInBlock :=
  match tx.verdict with
  | .success => .ok tx
  | .partialSuccess | .failure => .error (.notApplied tx)

/-- What a wait waits for, and how it names that. -/
inductive Wait where
  | best
  | finalized
deriving DecidableEq, Repr

namespace Wait

def landed : Wait → Status → Option InBlock
  | .best, .inBestBlock b => some b
  | .finalized, .inFinalizedBlock b => some b
  | _, _ => none

def awaiting : Wait → String
  | .best => "reaching best block"
  | .finalized => "finalization"

end Wait

namespace PendingTx

/-- A definitive rejection hands the inputs back before the error returns. -/
def rejected (tx : PendingTx) (e : SubmitError) :
    Flow (Except ProviderError (TxInBlock × PendingTx)) :=
  match e.rejectionIsDefinitive, tx.reservation with
  | true, some reservation => do
    reservation.release tokio
    pure (.error (.submission e))
  | _, _ => pure (.error (.submission e))

def included (tx : PendingTx) (b : InBlock) :
    Flow (Except ProviderError (TxInBlock × PendingTx)) :=
  (txInBlockWithVerdict b tx.transactionHash).onOk fun found =>
    match applied found with
    | .error e => pure (.error e)
    | .ok found => pure (.ok (found, tx))

/-- What the wait does with one item of the watch stream. -/
def onStatus (tx : PendingTx) (wait : Wait) (item : Option (Except String Status)) :
    List Event × Option (Flow (Except ProviderError (TxInBlock × PendingTx))) :=
  match item with
  | none => ([], some (pure (.error (.submission (.streamEnded wait.awaiting)))))
  | some (.error e) => ([], some (pure (.error (.submission (.watch e)))))
  | some (.ok status) =>
    ([.read status],
      match SubmitError.fromTerminalStatus status with
      | some e => some (tx.rejected tokio e)
      | none => (wait.landed status).map tx.included)

def waitFor (tx : PendingTx) (wait : Wait) :
    Flow (Except ProviderError (TxInBlock × PendingTx)) :=
  Future.awaitUntil fun answers => tx.onStatus tokio wait answers.status

end PendingTx

namespace MidnightProvider

variable (p : MidnightProvider)

/-- The resync of the wallet that a build starts with. -/
def builds : Flow (Except ProviderError Unit) :=
  match p.wallet with
  | none => pure (.error .noWallet)
  | some _ => ask Answers.node

def shieldedPublicKeys : Flow (Except ProviderError Unit) :=
  match p.wallet with
  | none => pure (.error .noWallet)
  | some _ => ask Answers.node

def prepareBytes (txBytes : Bytes) : Flow (Except ProviderError PreparedTx) := do
  match ← ask Answers.client with
  | none =>
    pure (.error (.submission (.notSubmitted
      "tx client: the node gave no answer within 10s")))
  | some (.error e) => pure (.error (.submission (.notSubmitted ("tx client: " ++ e))))
  | some (.ok ()) =>
    match p.steps.createUnsigned txBytes with
    | .error e => pure (.error (.submission (.notSubmitted ("create unsigned: " ++ e))))
    | .ok () => pure (.ok ⟨txBytes, p.steps.transactionHash txBytes, none⟩)

def prepare (txBytes : Bytes) : Flow (Except ProviderError PreparedTx) :=
  (ask Answers.node).onOk fun () => p.prepareBytes txBytes

def prepareReserved (result : TransferResult) : Flow (Except ProviderError PreparedTx) := do
  let held : HeldInputs := ⟨p.wallet, result.spent⟩
  match ← Future.guarding (held.drop tokio) (p.prepare result.txBytes) with
  | .ok prepared => pure (.ok (prepared.holding held))
  | .error e =>
    held.release tokio
    pure (.error e)

def submitReserved (result : TransferResult) : Flow (Except ProviderError PendingTx) :=
  (p.prepareReserved tokio result).onOk fun prepared => prepared.submit p.steps

def buildThenProve : Flow (Except ProviderError TransferResult) :=
  p.builds.onOk fun () => Builds.buildThenProve tokio p

def buildAndSubmit : Flow (Except ProviderError PendingTx) :=
  (p.buildThenProve tokio).onOk fun result => p.submitReserved tokio result

end MidnightProvider

end Runtime

end MidnightRs.Submission
