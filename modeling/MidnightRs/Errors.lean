import Mathlib.Algebra.Order.Ring.Nat
import Mathlib.Order.Basic
import Mathlib.Order.Nat

/-!
The vocabulary the wallet modules share: the ledger generations, the indexer
client's errors with their retry policy, and the wallet's own errors, each with
the data that the message names.
-/
namespace MidnightRs

abbrev Bytes := List UInt8

/-- The numerals of a `u32`. -/
instance (priority := high) u32NeZero : NeZero ((2 : ℕ) ^ 32) := ⟨by decide⟩

/-- The generations this build links, in the order a chain runs them. -/
inductive LedgerVersion where
  | V8
  | V9
deriving DecidableEq, Repr

namespace LedgerVersion

def rank : LedgerVersion → ℕ
  | .V8 => 8
  | .V9 => 9

def display : LedgerVersion → String
  | .V8 => "ledger 8"
  | .V9 => "ledger 9"

theorem rank_injective : Function.Injective rank := by
  intro a b h
  cases a <;> cases b <;> simp_all [rank]

instance : LinearOrder LedgerVersion := LinearOrder.lift' rank rank_injective

theorem lt_iff (a b : LedgerVersion) : a < b ↔ a = .V8 ∧ b = .V9 := by
  cases a <;> cases b <;> decide

end LedgerVersion

/-- Where an HTTP query of the indexer failed. -/
structure HttpError where
  isRequest : Bool
  isTimeout : Bool
  status : Option ℕ
deriving DecidableEq, Repr

namespace HttpError

def isServerError (status : ℕ) : Bool := decide (500 ≤ status ∧ status < 600)

end HttpError

inductive IndexerError where
  | config (message : String)
  | http (error : HttpError)
  | graphQL (messages : List String)
  | transport (message : String)
  | protocol (message : String)
  | deserialization (message : String)
  | missingData
deriving DecidableEq, Repr

/-- A caller may retry a transport failure, a query that failed before its
response arrived, and a query that a gateway answered with a 5xx status. -/
def IndexerError.isRetryable : IndexerError → Bool
  | .transport _ => true
  | .http e => (e.isRequest && !e.isTimeout) || e.status.any HttpError.isServerError
  | _ => false

/-- The errors the modelled wallet code returns. -/
inductive WalletError where
  | sync (message : String)
  | eventOrder (kind : String) (id prev : ℤ)
  | malformedUtxo (field value reason : String) (txId : Option ℤ)
  | indexer (retryable : Bool) (source : IndexerError)
  | transfer (message : String)
  | insufficientDust (required available : ℕ)
  | insufficientShielded (tokenType : Bytes) (required available : ℕ)
  | insufficientUnshielded (tokenType : Bytes) (required available : ℕ)
  | inputsReserved (held : String)
  | duplicateInput (input : String)
  | ttlOutOfRange (requested globalTtl : ℕ)
  | ttlWithoutIntent
  | unknownLedger (found : String)
  | ledgerMismatch (expected found : LedgerVersion)
  | storage (message : String)
  | ledgerRegression (path : String) (snapshot chain : LedgerVersion)
  | corruptParameters (field value : String)
  | chainMismatch (path : String) (pinnedHeight : ℕ) (pinnedHash found : String)
deriving DecidableEq, Repr

end MidnightRs
