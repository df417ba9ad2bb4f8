import MidnightRs.RunRecords

/-!
Circuits run in process, call after call. A runner holds what a call reads and changes;
whatever calls are made on it, its contract state and its private state are what the
requests of the calls that succeeded leave, replayed in order.
-/
namespace MidnightRs.Circuits

open MidnightRs.Compact

section Runners

/-- A runner of one contract, at an address if it has one. -/
structure Runner (vm : Vm) (Address : Type) where
  state : vm.State
  privateState : Bytes
  witnesses : Bytes → String → List Value → Result (Option Value × Bytes)
  blockTime : ℕ
  address : Option Address
  coinPublicKey : Option Bytes

/-- What is asked of a runner. The block time is in whole seconds. -/
inductive RunnerCall (Address : Type) where
  | withWitnesses (witnesses : Bytes → String → List Value → Result (Option Value × Bytes))
  | setBlockTime (time : ℕ)
  | setAddress (address : Address)
  | setCoinPublicKey (key : Bytes)
  | run (circuit : Circuit) (program : Program) (args : List (String × Value))
  | runConstructor (constructor : Circuit) (program : Program) (args : List (String × Value))

variable {c : Codecs} (crypto : Crypto c) {vm : Vm} {Address : Type}
  (callContext : vm.State → ℕ → Option Address → vm.CallContext) (fuel : ℕ)

namespace Runner

/-- No witness answers before `withWitnesses`. -/
def new (state : vm.State) (blockTime : ℕ) : Runner vm Address where
  state := state
  privateState := []
  witnesses privateState _ _ := .ok (none, privateState)
  blockTime := blockTime
  address := none
  coinPublicKey := none

variable (r : Runner vm Address)

/-- The surroundings of a call at an address, or at none. -/
def env (address : Option Address) : Env vm where
  callWitness := r.witnesses
  callContext := callContext r.state r.blockTime address
  hasAddress := address.isSome
  coinPublicKey := r.coinPublicKey

/-- The run works on a copy of the private state, which only a success keeps. -/
def runAt (address : Option Address) (circuit : Circuit) (program : Program)
    (args : List (String × Value)) : Except Halt (Value × Runner vm Address) := do
  let ran ← execute crypto program (r.env callContext address) fuel circuit r.state
    r.privateState args
  pure (ran.result,
    { r with state := ran.context.state, privateState := ran.context.privateState })

def run (circuit : Circuit) (program : Program) (args : List (String × Value)) :
    Except Halt (Value × Runner vm Address) :=
  r.runAt crypto callContext fuel r.address circuit program args

def runConstructor (constructor : Circuit) (program : Program) (args : List (String × Value)) :
    Except Halt (Runner vm Address) :=
  (r.runAt crypto callContext fuel none constructor program args).map Prod.snd

/-- The runner after a call. A run that fails leaves it as it was. -/
def after : RunnerCall Address → Runner vm Address
  | .withWitnesses witnesses => { r with witnesses := witnesses }
  | .setBlockTime time => { r with blockTime := time }
  | .setAddress address => { r with address := some address }
  | .setCoinPublicKey key => { r with coinPublicKey := some key }
  | .run circuit program args =>
    match r.run crypto callContext fuel circuit program args with
    | .ok (_, r') => r'
    | .error _ => r
  | .runConstructor constructor program args =>
    match r.runConstructor crypto callContext fuel constructor program args with
    | .ok r' => r'
    | .error _ => r

def afterAll : Runner vm Address → List (RunnerCall Address) → Runner vm Address
  | r, [] => r
  | r, call :: calls => afterAll (r.after crypto callContext fuel call) calls

end Runner

end Runners

section Histories

variable {vm : Vm}

variable {c : Codecs} (crypto : Crypto c) {Address : Type}
  (callContext : vm.State → ℕ → Option Address → vm.CallContext) (fuel : ℕ)

namespace Runner

variable {r r' : Runner vm Address}

def states (r : Runner vm Address) : vm.State × Bytes := (r.state, r.privateState)

end Runner

end Histories

end MidnightRs.Circuits
