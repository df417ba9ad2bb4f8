import MidnightRs.ContractFlows
import Mathlib.Algebra.Order.Group.Multiset

/-!
Every reservation of a submitted build has one owner at a time. Up to the submit
the owner is a guard, so a build that fails or is dropped has handed everything
back; from the submit on it is the handle, which hands back on a definitive
rejection alone. The flows are followed await point by await point.
-/
namespace MidnightRs.Lifecycle

open Reservations WalletBuilds Futures Submission ContractFlows

abbrev Tags := Multiset (Input × Timestamp)

/-- The inputs a reservation names, as often as it names them. -/
def tagsOf (s : SpentInputs) : Tags := s.named

theorem tagsOf_merge (s t : SpentInputs) : tagsOf (s.merge t) = tagsOf s + tagsOf t := by
  simp only [tagsOf, SpentInputs.named, SpentInputs.merge, List.map_append, ← Multiset.coe_add]
  abel

theorem tagsOf_eq_zero {s : SpentInputs} (h : s.isEmpty = true) : tagsOf s = 0 := by
  simp only [SpentInputs.isEmpty, Bool.and_eq_true, List.isEmpty_iff] at h
  simp [tagsOf, SpentInputs.named, h]

/-- What the wallet reserves and gets back before a transaction is submitted. -/
def duty : Account Event Tags where
  taken
    | .reserved s => tagsOf s
    | _ => 0
  given
    | .released s => tagsOf s
    | _ => 0
  quiet
    | .reserved _ | .released _ => True
    | .handedOver | .read _ => False

def reservedBy (log : List Event) : Tags := (log.map duty.taken).sum

def releasedBy (log : List Event) : Tags := (log.map duty.given).sum

/-- What a guard has to release: nothing once it is disarmed. -/
def owedBy (held : HeldInputs) : Tags :=
  match held.wallet with
  | none => 0
  | some _ => tagsOf held.spent

def owedByTx (prepared : PreparedTx) : Tags :=
  match prepared.held with
  | none => 0
  | some held => owedBy held

def owedByPending (tx : PendingTx) : Tags :=
  match tx.reservation with
  | none => 0
  | some r => tagsOf r.spent

/-- What a build leaves reserved for its transaction. -/
def owedByResult (p : MidnightProvider) (result : TransferResult) : Tags :=
  owedBy ⟨p.wallet, result.spent⟩

section Guards

variable {E E' T : Type}

theorem keeps_ok_of {α : Type} {m : Tags} {a : α} {q : α → Tags} (h : m = q a) :
    duty.Keeps m (pure (.ok a) : Flow (Except E α)) q := by
  rw [h]
  exact Account.keeps_ok a q

theorem keeps_pure {α : Type} (a : Except E α) :
    duty.Keeps 0 (pure a : Flow (Except E α)) (fun _ => 0) := by
  cases a with
  | error e => exact Account.keeps_error e _
  | ok a => exact Account.keeps_ok a (fun _ => 0)

theorem ensures_await_nil : (Future.await : Flow Answers).Ensures fun _ log => log = [] :=
  Future.ensures_await _ (fun _ => rfl) rfl rfl rfl

theorem ensures_emit_one (e : Event) :
    (Future.emit e : Flow Unit).Ensures fun o log => o = .ready () ∧ log = [e] :=
  Future.ensures_emit _ _ ⟨rfl, rfl⟩

theorem ensures_ask_nil {α : Type} (field : Answers → α) :
    (ask field).Ensures fun _ log => log = [] := by
  refine Future.ensures_bind ensures_await_nil ?_ (fun _ h => h) (fun _ h => h) (fun _ h => h)
  rintro answers log rfl
  exact Future.ensures_pure _ _ rfl

theorem keeps_ask {α : Type} (field : Answers → Except E α) :
    duty.Keeps 0 (ask field) (fun _ => 0) := by
  refine Future.ensures_bind ensures_await_nil ?_ ?_ ?_ ?_
  · rintro r log rfl
    exact keeps_pure (field r)
  · rintro log rfl
    exact Account.settles_nil 0
  · rintro log rfl
    exact Account.settles_nil 0
  · rintro log rfl
    exact ⟨0, Account.settles_nil 0⟩

theorem settles_released (s : SpentInputs) : duty.Settles (tagsOf s) [.released s] 0 := by
  simp [Account.Settles, duty]

theorem returns_handBack (s : SpentInputs) : duty.Returns (tagsOf s) (handBack true s) := by
  unfold handBack
  split
  · rename_i hempty
    rw [tagsOf_eq_zero hempty]
    exact Future.ensures_pure _ _ (Account.settles_nil 0)
  · refine Future.ensures_bind (ensures_emit_one (.released s)) ?_ ?_ ?_ ?_
    · rintro _ log ⟨_, rfl⟩
      refine Future.ensures_bind ensures_await_nil ?_ ?_ ?_ ?_
      · rintro r log rfl
        exact Future.ensures_pure _ _ (settles_released s)
      · rintro log rfl
        exact settles_released s
      · rintro log rfl
        exact settles_released s
      · rintro log rfl
        exact ⟨0, settles_released s⟩
    all_goals
      rintro log ⟨h, _⟩
      cases h

theorem ensures_handBack (s : SpentInputs) :
    (handBack true s).Ensures fun _ log => log = [] ∨ log = [.released s] := by
  unfold handBack
  split
  · exact Future.ensures_pure _ _ (.inl rfl)
  · refine Future.ensures_bind (ensures_emit_one (.released s)) ?_ ?_ ?_ ?_
    · rintro _ log ⟨_, rfl⟩
      refine Future.ensures_bind ensures_await_nil ?_ ?_ ?_ ?_
      · rintro r log rfl
        exact Future.ensures_pure _ _ (.inr rfl)
      all_goals
        rintro log rfl
        exact .inr rfl
    all_goals
      rintro log ⟨h, _⟩
      cases h

theorem returns_nothing : duty.Returns 0 (pure () : Flow Unit) :=
  Future.ensures_pure _ _ (Account.settles_nil 0)

theorem returns_release (held : HeldInputs) :
    duty.Returns (owedBy held) (held.release true) := by
  rcases held with ⟨_ | wallet, spent⟩
  · exact returns_nothing
  · exact returns_handBack spent

theorem settles_drop (held : HeldInputs) : duty.Settles (owedBy held) (held.drop true) 0 := by
  rcases held with ⟨_ | wallet, spent⟩
  · exact Account.settles_nil 0
  · by_cases hempty : spent.isEmpty = true
    · simp only [HeldInputs.drop, owedBy, hempty, tagsOf_eq_zero hempty, Bool.true_or, if_true]
      exact Account.settles_nil 0
    · simp only [HeldInputs.drop, owedBy, hempty, Bool.not_true, Bool.or_self, Bool.false_eq_true,
        if_false]
      exact settles_released spent

/-- The rule of the guard: the rest of the build hands its own reservation on,
and the guard's goes with it. -/
theorem keeps_keepOnOk {work : Flow (Except E T)} {q : T → Tags} (held : HeldInputs)
    (hwork : duty.Keeps 0 work q) :
    duty.Keeps (owedBy held) (held.keepOnOk true work) (fun r => owedBy held + q r) := by
  rw [← add_zero (owedBy held)]
  refine hwork.guarded (settles_drop held) (fun a => ?_) (fun e => ?_)
  · refine keeps_ok_of ?_
    rw [add_zero]
  · exact (returns_release held).fails e

theorem yields_keepOnOk {work : Flow (Except E T)} {v v' : T → Prop} {held : HeldInputs}
    (hwork : work.Yields v) (h : ∀ r, v r → v' r) : (held.keepOnOk true work).Yields v' := by
  refine Future.ensures_bind (Future.yields_guarding hwork) ?_ ?_ ?_ ?_
  · rintro (e | r) log hr
    · refine Future.ensures_bind (P := fun _ _ => True) (fun _ => trivial) ?_ ?_ ?_ ?_
      · intro _ _ _
        exact Future.ensures_pure _ _ (fun _ h => by cases h)
      all_goals
        intro _ _ _ h
        cases h
    · exact Future.yields_ok r v' (h r (hr r rfl))
  all_goals
    intro _ _ _ h
    cases h

theorem keeps_reserving (answer : Answers → Except WalletError T) (spent : T → SpentInputs) :
    duty.Keeps 0 (WalletFacade.reserving answer spent) (fun a => tagsOf (spent a)) := by
  refine ((keeps_ask answer).mapError _).onOk fun a => ?_
  refine Future.ensures_bind (ensures_emit_one (.reserved (spent a))) ?_ ?_ ?_ ?_
  · rintro _ log ⟨_, rfl⟩
    refine Future.ensures_pure _ _ ?_
    simp [Account.Holds, duty]
  all_goals
    rintro log ⟨h, _⟩
    cases h

end Guards

section Builds

variable {p : MidnightProvider} {wallet : WalletFacade} (hp : p.wallet = some wallet)

theorem owedByResult_eq (hp : p.wallet = some wallet) (result : TransferResult) :
    owedByResult p result = tagsOf result.spent := by
  simp only [owedByResult, owedBy, hp]

include hp

theorem keeps_proveReserved (reserved : PreparedTransfer) :
    duty.Keeps (tagsOf reserved.spentInputs) (Builds.proveReserved true p reserved)
      (owedByResult p) := by
  have howed : owedBy ⟨p.wallet, reserved.spentInputs⟩ = tagsOf reserved.spentInputs := by
    simp only [owedBy, hp]
  rw [← howed]
  refine (keeps_keepOnOk _ (((keeps_ask Answers.proof).mapError _).onOk fun proof =>
    keeps_ok_of (q := fun _ => 0) rfl)).congr ?_
  refine yields_keepOnOk (v := fun r => r.spent = reserved.spentInputs) ?_ ?_
  · exact Future.yields_onOk fun proof => Future.yields_ok _ _ rfl
  · intro r hr
    rw [owedByResult, hr, add_zero]

theorem keeps_buildThenProve :
    duty.Keeps 0 (Builds.buildThenProve true p) (owedByResult p) :=
  (keeps_reserving _ _).onOk fun reserved => keeps_proveReserved hp reserved

theorem keeps_buildFunded : duty.Keeps 0 (Builds.buildFunded true p) (owedByResult p) :=
  (keeps_reserving _ _).onOk fun reserved => keeps_proveReserved hp reserved

theorem keeps_prepareShieldedInputs (coins : List Nullifier) :
    duty.Keeps 0 (Builds.prepareShieldedInputs p coins) (fun r => owedBy r.2) := by
  unfold Builds.prepareShieldedInputs
  split
  · exact Account.keeps_error _ _
  · refine (keeps_reserving _ _).onOk fun r => keeps_ok_of ?_
    simp only [owedBy, hp]

omit hp in
/-- Each draw joins the guard before the next await point. -/
theorem keeps_drawUnshielded (held : HeldInputs) (hheld : held.wallet = some wallet)
    (prepared : List PreparedUnshielded) (draws : List (Bytes × ℕ)) :
    duty.Keeps (owedBy held) (Builds.drawUnshielded true held prepared draws)
      (fun r => owedBy r.2) := by
  induction draws generalizing held prepared with
  | nil => exact keeps_ok_of rfl
  | cons draw draws ih =>
    unfold Builds.drawUnshielded
    rw [← add_zero (owedBy held)]
    refine (keeps_reserving _ _).guarded (settles_drop held) (fun r => ?_) (fun e => ?_)
    · have habsorb : owedBy held + tagsOf r.2 = owedBy (held.absorb r.2) := by
        simp only [owedBy, HeldInputs.absorb, hheld, tagsOf_merge]
      rw [habsorb]
      exact ih (held.absorb r.2) hheld _
    · exact (returns_release held).fails e

theorem keeps_prepareUnshieldedInputs (draws : List (Bytes × ℕ)) :
    duty.Keeps 0 (Builds.prepareUnshieldedInputs true p draws) (fun r => owedBy r.2) := by
  have hnone : owedBy ⟨p.wallet, .default⟩ = 0 := by
    simp [owedBy, hp, tagsOf]
  rw [← hnone]
  exact keeps_drawUnshielded _ hp _ _

theorem keeps_balanceTransaction (txBytes : Bytes) :
    duty.Keeps 0 (Builds.balanceTransaction true p txBytes) (owedByResult p) := by
  unfold Builds.balanceTransaction
  split
  · exact Account.keeps_error _ _
  · refine ((keeps_ask Answers.context).mapError _).onOk fun _ => ?_
    refine (keeps_reserving _ _).onOk fun fees => ?_
    cases fees with
    | some reserved => exact keeps_proveReserved hp reserved
    | none =>
      simp only
      split
      · exact Account.keeps_error _ _
      · refine keeps_ok_of ?_
        rw [owedByResult_eq hp]
        rfl

end Builds

section Prepare

variable (p : MidnightProvider)

theorem keeps_prepareBytes (txBytes : Bytes) :
    duty.Keeps 0 (p.prepareBytes txBytes) (fun _ => 0) := by
  unfold MidnightProvider.prepareBytes
  refine Future.ensures_bind (ensures_ask_nil Answers.client) ?_ ?_ ?_ ?_
  · rintro (_ | e | _) log rfl
    · exact Account.keeps_error _ (fun _ => 0)
    · exact Account.keeps_error _ (fun _ => 0)
    · simp only
      split
      · exact Account.keeps_error _ (fun _ => 0)
      · exact Account.keeps_ok _ (fun _ => 0)
  · rintro log rfl
    exact Account.settles_nil 0
  · rintro log rfl
    exact Account.settles_nil 0
  · rintro log rfl
    exact ⟨0, Account.settles_nil 0⟩

/-- A prepare that fails has handed the inputs of its build back. -/
theorem keeps_prepareReserved (result : TransferResult) :
    duty.Keeps (owedByResult p result) (p.prepareReserved true result) owedByTx := by
  unfold MidnightProvider.prepareReserved
  rw [← add_zero (owedByResult p result)]
  refine (((keeps_ask Answers.node).onOk fun _ => keeps_prepareBytes p result.txBytes)).guarded
    (settles_drop ⟨p.wallet, result.spent⟩) (fun prepared => ?_) (fun e => ?_)
  · refine keeps_ok_of ?_
    rw [add_zero]
    rfl
  · exact (returns_release ⟨p.wallet, result.spent⟩).fails e

theorem returns_releaseTx (prepared : PreparedTx) :
    duty.Returns (owedByTx prepared) (prepared.release true) := by
  rcases prepared with ⟨tx, hash, _ | held⟩
  · exact returns_nothing
  · exact returns_release held

theorem settles_dropTx (prepared : PreparedTx) :
    duty.Settles (owedByTx prepared) (prepared.drop true) 0 := by
  rcases prepared with ⟨tx, hash, _ | held⟩
  · exact Account.settles_nil 0
  · exact settles_drop held

theorem keeps_shieldedPublicKeys :
    duty.Keeps 0 p.shieldedPublicKeys (fun _ => 0) := by
  unfold MidnightProvider.shieldedPublicKeys
  split
  · exact Account.keeps_error _ _
  · exact keeps_ask Answers.node

variable {p}

/-- A build goes on only with a wallet attached. -/
theorem keeps_builds_onOk {T : Type} {k : Unit → Flow (Except ProviderError T)} {q : T → Tags}
    (hk : ∀ wallet, p.wallet = some wallet → duty.Keeps 0 (k ()) q) :
    duty.Keeps 0 (p.builds.onOk k) q := by
  unfold MidnightProvider.builds
  cases hp : p.wallet with
  | none => exact Account.keeps_error _ q
  | some wallet => exact (keeps_ask Answers.node).onOk fun _ => hk wallet hp

theorem keeps_builds_onOk' {T : Type} {k : Unit → Flow (Except ContractError T)} {q : T → Tags}
    (hk : ∀ wallet, p.wallet = some wallet → duty.Keeps 0 (k ()) q) :
    duty.Keeps 0 ((p.builds.mapError ContractError.ofProvider).onOk k) q := by
  unfold MidnightProvider.builds
  cases hp : p.wallet with
  | none => exact Account.keeps_error _ q
  | some wallet => exact ((keeps_ask Answers.node).mapError _).onOk fun _ => hk wallet hp

end Prepare

section Requests

variable {p : MidnightProvider}

theorem keeps_context :
    duty.Keeps 0 (Builds.executionContext.mapError ContractError.ofProvider) (fun _ => 0) :=
  ((keeps_ask Answers.context).mapError _).mapError _

theorem keeps_proveWithoutFee : duty.Keeps 0 proveWithoutFee (fun _ => 0) :=
  ((keeps_ask Answers.prepared).mapError _).onOk fun _ =>
    ((keeps_ask Answers.proof).mapError _).onOk fun _ => keeps_ok_of (q := fun _ => 0) rfl

theorem keeps_attachAndProve {wallet : WalletFacade} (hp : p.wallet = some wallet)
    (call : Call) (prepared : List PreparedInput) :
    duty.Keeps 0 (call.attachAndProve true p prepared true) (owedByResult p) := by
  refine (keeps_pure (call.attach prepared)).onOk fun _ => ?_
  refine keeps_proveWithoutFee.onOk fun unpaid => ?_
  refine (keeps_pure (call.signUnshieldedSpends unpaid.txBytes)).onOk fun txBytes => ?_
  exact (keeps_balanceTransaction hp txBytes).mapError _

/-- The result of a guarded build names what the guard held beside its own. -/
theorem keeps_merged {E : Type} {wallet : WalletFacade} (hp : p.wallet = some wallet)
    (held : HeldInputs) {work : Flow (Except E TransferResult)}
    (hheld : held.wallet = p.wallet) (hwork : duty.Keeps 0 work (owedByResult p)) :
    duty.Keeps (owedBy held) ((held.keepOnOk true work).onOk fun transaction =>
      pure (.ok { transaction with spent := transaction.spent.merge held.spent }))
      (owedByResult p) := by
  refine (keeps_keepOnOk held hwork).onOk fun transaction => keeps_ok_of ?_
  rw [owedByResult_eq hp, owedByResult_eq hp, tagsOf_merge, owedBy, hheld, hp, add_comm]

theorem yields_prepareShieldedInputs (coins : List Nullifier) :
    (Builds.prepareShieldedInputs p coins).Yields fun r => r.2.wallet = p.wallet := by
  unfold Builds.prepareShieldedInputs
  split
  · intro s r h
    cases h
  · exact Future.yields_onOk fun r => Future.yields_ok _ _ rfl

theorem yields_drawUnshielded (held : HeldInputs) (hheld : held.wallet = p.wallet)
    (prepared : List PreparedUnshielded) (draws : List (Bytes × ℕ)) :
    (Builds.drawUnshielded true held prepared draws).Yields fun r => r.2.wallet = p.wallet := by
  induction draws generalizing held prepared with
  | nil => exact Future.yields_ok _ _ hheld
  | cons draw draws ih =>
    refine Future.yields_bind fun x => ?_
    rcases x with e | ⟨drawn, spent⟩
    · refine Future.yields_bind fun _ => ?_
      intro s r h
      cases h
    · exact ih (held.absorb spent) hheld _

theorem keeps_drawAndProve {wallet : WalletFacade} (hp : p.wallet = some wallet) (call : Call)
    (draws : List (Bytes × ℕ)) (prepared : List PreparedInput) :
    duty.Keeps 0 (call.drawAndProve true p draws prepared true) (owedByResult p) :=
  ((keeps_prepareUnshieldedInputs hp draws).mapError _).onOk_of
    (Future.yields_mapError _ (yields_drawUnshielded _ rfl _ _))
    fun r hr => keeps_merged hp r.2 hr (keeps_attachAndProve hp call prepared)

theorem keeps_callTransaction (call : Call) :
    duty.Keeps 0 (call.callTransaction true p true) (owedByResult p) := by
  refine keeps_builds_onOk' fun wallet hp => ?_
  refine ((keeps_shieldedPublicKeys p).mapError _).onOk fun _ => ?_
  refine keeps_context.onOk fun _ => ?_
  refine (keeps_pure call.deposits).onOk fun deposits => ?_
  refine keeps_context.onOk fun _ => ?_
  exact ((keeps_prepareShieldedInputs hp call.coins).mapError _).onOk_of
    (Future.yields_mapError _ (yields_prepareShieldedInputs call.coins))
    fun r hr => keeps_merged hp r.2 hr (keeps_drawAndProve hp call _ r.1)

theorem keeps_runForBuild (call : Call) : duty.Keeps 0 (call.runForBuild p) (fun _ => 0) := by
  refine (keeps_ask Answers.contract).onOk fun _ => ?_
  refine (keeps_ask Answers.contract).onOk fun _ => ?_
  refine Account.Keeps.onOk (q := fun _ => 0) ?_ fun baseline => ?_
  · unfold Call.runForBuild.witnessBaseline
    split
    · refine ((keeps_ask Answers.head).mapError _).onOk fun head => ?_
      cases head with
      | none => exact keeps_pure _
      | some head => exact keeps_pure _
    · exact keeps_pure _
  · refine ((keeps_shieldedPublicKeys p).mapError _).onOk fun _ => ?_
    exact (keeps_pure (call.run baseline.1)).onOk fun _ => keeps_pure _

theorem keeps_deployFunded (offer : Option ShieldedOffer) :
    duty.Keeps 0 (Deploy.deployFunded true p offer) (owedByResult p) := by
  refine keeps_builds_onOk' fun wallet hp => ?_
  refine keeps_context.onOk fun _ => ?_
  cases offer with
  | none => exact (keeps_buildFunded hp).mapError _
  | some offer =>
    refine ((keeps_shieldedPublicKeys p).mapError _).onOk fun _ => ?_
    refine keeps_context.onOk fun _ => ?_
    refine ((keeps_prepareShieldedInputs hp offer.coins).mapError _).onOk_of
      (Future.yields_mapError _ (yields_prepareShieldedInputs offer.coins))
      fun r hr => keeps_merged hp r.2 hr ?_
    refine (keeps_pure (offer.pay r.1)).onOk fun _ => ?_
    exact keeps_proveWithoutFee.onOk fun unpaid =>
      (keeps_balanceTransaction hp unpaid.txBytes).mapError _

theorem keeps_initialPrivate (deploy : Deploy) :
    duty.Keeps 0 (deploy.initialPrivate p) (fun _ => 0) := by
  unfold Deploy.initialPrivate
  cases deploy.constructor with
  | none => exact keeps_pure _
  | some ran => exact ((keeps_shieldedPublicKeys p).mapError _).onOk fun _ => keeps_pure ran

theorem keeps_buildInner (update : Maintenance) :
    duty.Keeps 0 (update.buildInner true p) (owedByResult p) := by
  refine (keeps_pure update.checkSignatures).onOk fun _ => ?_
  refine keeps_builds_onOk' fun wallet hp => ?_
  split
  · exact keeps_context.onOk fun _ => (keeps_buildFunded hp).mapError _
  · exact Account.keeps_error _ _

theorem keeps_transfer : duty.Keeps 0 (p.buildThenProve true) (owedByResult p) :=
  keeps_builds_onOk fun _ hp => keeps_buildThenProve hp

end Requests

section Submit

variable {E E' α β γ : Type}

/-- Ended with no hand-over: everything is back. -/
def Unsent (m : Tags) (o : Outcome (Except E β)) (log : List Event) : Prop :=
  match o with
  | .ready (.ok _) => False
  | .pending => ∃ m', duty.Settles m log m'
  | _ => duty.Settles m log 0

/-- Handed over last, with nothing given back on the way. -/
def Sent (m : Tags) (log : List Event) (m' : Tags) : Prop :=
  ∃ before, log = before ++ [.handedOver] ∧ duty.Holds m before m'

theorem Sent.after {m m' m'' : Tags} {log log' : List Event} (h : duty.Holds m log m')
    (h' : Sent m' log' m'') : Sent m (log ++ log') m'' := by
  obtain ⟨before, rfl, hbefore⟩ := h'
  exact ⟨log ++ before, by rw [List.append_assoc], h.append hbefore⟩

/-- What an execution of a submitting future satisfies. -/
def SubmitsAs (m : Tags) (owed : β → Tags) (o : Outcome (Except E β)) (log : List Event) : Prop :=
  match o with
  | .ready (.ok b) => Sent m log (owed b)
  | o => Unsent m o log ∨ ∃ m', Sent m log m'

/-- A future that takes over `m` and, with its value, has handed it to the node. -/
def Submits (m : Tags) (f : Flow (Except E β)) (owed : β → Tags) : Prop :=
  f.Ensures (SubmitsAs m owed)

theorem SubmitsAs.after {m m' : Tags} {owed : β → Tags} {o : Outcome (Except E β)}
    {log log' : List Event} (hlog : duty.Holds m log m') (h : SubmitsAs m' owed o log') :
    SubmitsAs m owed o (log ++ log') := by
  have hcut : ∀ {o : Outcome (Except E β)}, (Unsent m' o log' ∨ ∃ m'', Sent m' log' m'') →
      (∀ b, o ≠ .ready (.ok b)) → Unsent m o (log ++ log') ∨ ∃ m'', Sent m (log ++ log') m'' := by
    rintro o (h | ⟨m'', h⟩) ho
    · rcases o with (e | b) | _ | _ | _
      · exact .inl (hlog.settles.append h)
      · exact (ho b rfl).elim
      · exact .inl (hlog.settles.append h)
      · exact .inl (hlog.settles.append h)
      · obtain ⟨m'', h⟩ := h
        exact .inl ⟨m'', hlog.settles.append h⟩
    · exact .inr ⟨m'', Sent.after hlog h⟩
  rcases o with (e | b) | _ | _ | _
  · exact hcut h (by simp)
  · exact Sent.after hlog h
  · exact hcut h (by simp)
  · exact hcut h (by simp)
  · exact hcut h (by simp)

theorem SubmitsAs.of_fails {m m' : Tags} {owed : β → Tags} {f : Flow (Except E β)}
    {log : List Event} (hlog : duty.Settles m log m') (hf : duty.Fails m' f) :
    f.Ensures fun o log' => SubmitsAs m owed o (log ++ log') := by
  refine Future.Ensures.mono hf fun o log' h => ?_
  rcases o with (e | b) | _ | _ | _
  · exact .inl (hlog.append h)
  · exact h.elim
  · exact .inl (hlog.append h)
  · exact .inl (hlog.append h)
  · obtain ⟨m'', h⟩ := h
    exact .inl ⟨m'', hlog.append h⟩

theorem Submits.of_fails {m : Tags} {f : Flow (Except E β)} {owed : β → Tags}
    (hf : duty.Fails m f) : Submits m f owed :=
  SubmitsAs.of_fails (Account.settles_nil m) hf

theorem Submits.after {m : Tags} {f : Flow (Except E α)} {k : α → Flow (Except E β)}
    {q : α → Tags} {owed : β → Tags} (hf : duty.Keeps m f q)
    (hk : ∀ a, Submits (q a) (k a) owed) : Submits m (f.onOk k) owed := by
  refine Future.ensures_bind hf ?_ (fun _ h => .inl h) (fun _ h => .inl h) (fun _ h => .inl h)
  rintro (e | a) log hlog
  · refine Future.ensures_pure _ _ (.inl ?_)
    rw [List.append_nil]
    exact hlog
  · exact Future.Ensures.mono (hk a) fun o log' h => h.after hlog

theorem Submits.guarded {d : Tags} {drops : List Event} {f : Flow (Except E α)}
    {k : Except E α → Flow (Except E' β)} {owed : β → Tags} (hf : duty.Keeps 0 f (fun _ => 0))
    (hdrops : duty.Settles d drops 0) (hok : ∀ a, Submits d (k (.ok a)) owed)
    (herror : ∀ e, duty.Fails d (k (.error e))) :
    Submits d (Future.guarding drops f >>= k) owed := by
  have hguarded := hf.guarding hdrops
  simp only [add_zero] at hguarded
  refine Future.ensures_bind hguarded ?_ (fun _ h => .inl h) (fun _ h => .inl h)
    (fun _ h => .inl h)
  rintro (e | a) log hlog
  · exact SubmitsAs.of_fails hlog (herror e)
  · exact Future.Ensures.mono (hok a) fun o log' h => h.after hlog

/-- What follows a submit without another await point only renames its result. -/
theorem Submits.renamed {m : Tags} {f : Flow (Except E β)} {owed : β → Tags}
    {owed' : γ → Tags} (hf : Submits m f owed) (g : Except E β → Except E' γ)
    (herror : ∀ e, ∃ e', g (.error e) = .error e')
    (hok : ∀ b, ∃ c, g (.ok b) = .ok c ∧ owed' c = owed b) :
    Submits m (f >>= fun x => (pure (g x) : Flow (Except E' γ))) owed' := by
  refine Future.ensures_bind hf ?_ (fun _ h => h) (fun _ h => h) (fun _ h => h)
  rintro (e | b) log hlog
  · obtain ⟨e', he'⟩ := herror e
    refine Future.ensures_pure _ _ ?_
    rw [he', List.append_nil]
    exact hlog
  · obtain ⟨c, hc, howed⟩ := hok b
    refine Future.ensures_pure _ _ ?_
    rw [hc, List.append_nil]
    show Sent m log (owed' c)
    rw [howed]
    exact hlog

theorem Submits.mapError {m : Tags} {f : Flow (Except E β)} {owed : β → Tags}
    (hf : Submits m f owed) (g : E → E') : Submits m (f.mapError g) owed :=
  hf.renamed (fun x => x.mapError g) (fun e => ⟨g e, rfl⟩) (fun b => ⟨b, rfl, rfl⟩)

theorem Submits.wrapped {m : Tags} {f : Flow (Except E β)} {owed : β → Tags} {owed' : γ → Tags}
    (hf : Submits m f owed) (g : β → γ) (h : ∀ b, owed' (g b) = owed b) :
    Submits m (f.onOk fun b => pure (.ok (g b))) owed' := by
  have hrenamed : Submits m (f >>= fun x => (pure (x.map g) : Flow (Except E γ))) owed' :=
    hf.renamed (fun x => x.map g) (fun e => ⟨e, rfl⟩) (fun b => ⟨g b, rfl, h b⟩)
  have heq : (f.onOk fun b => pure (.ok (g b))) =
      (f >>= fun x => (pure (x.map g) : Flow (Except E γ))) := by
    unfold Future.onOk
    congr 1
    funext x
    cases x <;> rfl
  rwa [heq]

/-- The submit disarms the guard before the call, so a drop in the call keeps
the reservation. -/
theorem submits_submit (steps : Steps) (prepared : PreparedTx) :
    Submits (owedByTx prepared) (prepared.submit steps) owedByPending := by
  have hsent : Sent (owedByTx prepared) [.handedOver] (owedByTx prepared) :=
    ⟨[], rfl, Account.holds_nil _⟩
  refine Future.ensures_bind (ensures_emit_one .handedOver) ?_ ?_ ?_ ?_
  · rintro _ log ⟨_, rfl⟩
    have hasked : ((ask Answers.watched).mapError fun e =>
        ProviderError.submission (.submitRpc e)).Ensures fun _ log => log = [] := by
      refine Future.ensures_bind (ensures_ask_nil Answers.watched) ?_ (fun _ h => h) (fun _ h => h)
        (fun _ h => h)
      rintro x log rfl
      exact Future.ensures_pure _ _ rfl
    refine Future.ensures_bind hasked ?_ ?_ ?_ ?_
    · rintro (e | _) log rfl
      · exact Future.ensures_pure _ _ (.inr ⟨_, hsent⟩)
      · refine Future.ensures_pure _ _ ?_
        rcases prepared with ⟨tx, hash, _ | ⟨_ | wallet, spent⟩⟩
        · exact hsent
        · exact hsent
        · exact hsent
    all_goals
      rintro log rfl
      exact .inr ⟨_, hsent⟩
  all_goals
    rintro log ⟨h, _⟩
    cases h

theorem submits_recordAndSubmit (p : MidnightProvider) (prepared : PreparedTx)
    (change : PrivateStateChange) :
    Submits (owedByTx prepared) (recordAndSubmit true p prepared change)
      (fun r => owedByPending r.1) := by
  have hsubmit : ∀ hash written, Submits (owedByTx prepared)
      (recordAndSubmit.submit p prepared hash written) (fun r => owedByPending r.1) := by
    intro hash written
    refine Future.ensures_bind (submits_submit p.steps prepared) ?_ (fun _ h => h) (fun _ h => h)
      (fun _ h => h)
    rintro (e | pending) log hlog
    · cases e
      all_goals
        refine Future.ensures_pure _ _ ?_
        rw [List.append_nil]
        exact hlog
    · refine Future.ensures_pure _ _ ?_
      rw [List.append_nil]
      exact hlog
  unfold recordAndSubmit
  simp only
  split
  · refine Submits.guarded (keeps_ask Answers.store) (settles_dropTx prepared) ?_ ?_
    · intro _
      exact hsubmit _ true
    · intro e
      exact (returns_releaseTx prepared).fails _
  · exact hsubmit _ false

theorem submits_submitReserved (p : MidnightProvider) (result : TransferResult) :
    Submits (owedByResult p result) (p.submitReserved true result) owedByPending :=
  .after (keeps_prepareReserved p result) fun prepared => submits_submit p.steps prepared

theorem submits_sendCallWith (p : MidnightProvider) (call : Call) :
    Submits 0 (sendCallWith true p call) (fun r => owedByPending r.pending) := by
  unfold sendCallWith
  split
  · exact Future.ensures_pure _ _ (.inl (Account.settles_nil 0))
  · refine .after (keeps_runForBuild call) fun change => ?_
    refine .after (keeps_callTransaction call) fun transaction => ?_
    refine .after ((keeps_prepareReserved p transaction).mapError _) fun prepared => ?_
    cases call.decode with
    | error e => exact .of_fails ((returns_releaseTx prepared).fails e)
    | ok _ =>
      exact (submits_recordAndSubmit p prepared change).wrapped
        (fun r => (⟨r.1, r.2⟩ : PendingCall)) (fun _ => rfl)

theorem submits_deploy (p : MidnightProvider) (deploy : Deploy) :
    Submits 0 (deploy.send true p) (fun r => owedByPending r.pending) := by
  refine .after (keeps_pure deploy.checked) fun _ => ?_
  refine .after (keeps_initialPrivate deploy) fun privateState => ?_
  refine .after (keeps_pure (Deploy.requireStoreForPrivateState privateState p.privateState))
    fun _ => ?_
  refine .after (keeps_ask Answers.contract) fun _ => ?_
  refine .after (keeps_pure deploy.committee) fun _ => ?_
  refine .after (keeps_deployFunded deploy.offer) fun transaction => ?_
  refine .after ((keeps_prepareReserved p transaction).mapError _) fun prepared => ?_
  exact (submits_recordAndSubmit p prepared _).wrapped
    (fun r => (⟨r.1, deploy.address, deploy.deployTimeout, none, r.2⟩ : PendingDeploy))
    (fun _ => rfl)

end Submit

section Waits

variable {E α β : Type}

def Silent (log : List Event) : Prop := ∀ e ∈ log, ∃ status, e = .read status

/-- The log of a wait: it reads, and hands `m` back at most once, last, and after
it has read a definitive rejection. -/
def Watched (m : Tags) (log : List Event) : Prop :=
  ∃ reads, Silent reads ∧ (log = reads ∨ ∃ s message,
    log = reads ++ [.released s] ∧ .read (.invalid message) ∈ reads ∧ tagsOf s = m)

theorem silent_nil : Silent [] := by
  simp [Silent]

theorem Silent.append {log log' : List Event} (h : Silent log) (h' : Silent log') :
    Silent (log ++ log') := by
  intro e he
  rcases List.mem_append.1 he with he | he
  · exact h e he
  · exact h' e he

theorem Silent.watched {m : Tags} {log : List Event} (h : Silent log) : Watched m log :=
  ⟨log, h, .inl rfl⟩

theorem Watched.after {m : Tags} {log log' : List Event} (h : Silent log) (h' : Watched m log') :
    Watched m (log ++ log') := by
  obtain ⟨reads, hreads, rfl | ⟨s, message, rfl, hmem, hs⟩⟩ := h'
  · exact (h.append hreads).watched
  · refine ⟨log ++ reads, h.append hreads, .inr ⟨s, message, ?_, ?_, hs⟩⟩
    · rw [List.append_assoc]
    · exact List.mem_append_right _ hmem

/-- What an execution on a handle that owes `m` satisfies after `reads`: only a
wait that failed may have handed the inputs back. -/
def WatchesAs (m : Tags) (owed : β → Tags) (reads : List Event) (o : Outcome (Except E β))
    (log : List Event) : Prop :=
  match o with
  | .ready (.ok b) => Silent (reads ++ log) ∧ owed b = m
  | _ => Watched m (reads ++ log)

def Watches (m : Tags) (f : Flow (Except E β)) (owed : β → Tags) : Prop :=
  f.Ensures (WatchesAs m owed [])

theorem watched_error {m : Tags} {owed : β → Tags} {reads : List Event} (h : Silent reads)
    (e : E) : (pure (.error e) : Flow (Except E β)).Ensures (WatchesAs m owed reads) := by
  refine Future.ensures_pure _ _ ?_
  show Watched m (reads ++ [])
  rw [List.append_nil]
  exact h.watched

theorem Watches.watched {m : Tags} {f : Flow (Except E β)} {owed : β → Tags}
    (hf : Watches m f owed) : f.Ensures fun _ log => Watched m log := by
  refine Future.Ensures.mono hf fun o log h => ?_
  rcases o with (e | b) | _ | _ | _
  · exact h
  · exact h.1.watched
  · exact h
  · exact h
  · exact h

/-- A wait goes on from the handle that the wait before it returned. -/
theorem Watches.onOk {m : Tags} {f : Flow (Except E α)} {k : α → Flow (Except E β)}
    {q : α → Tags} (hf : Watches m f q)
    (hk : ∀ a, q a = m → (k a).Ensures fun _ log => Watched m log) :
    (f.onOk k).Ensures fun _ log => Watched m log := by
  refine Future.ensures_bind hf ?_ (fun _ h => h) (fun _ h => h) (fun _ h => h)
  rintro (e | a) log hlog
  · refine Future.ensures_pure _ _ ?_
    rw [List.append_nil]
    exact hlog
  · exact (hk a hlog.2).mono fun o log' h => h.after hlog.1

theorem watched_then_nil {m : Tags} {f : Flow α} {k : α → Flow β}
    (hf : f.Ensures fun _ log => Watched m log) (hk : ∀ a, (k a).Ensures fun _ log => log = []) :
    (f >>= k).Ensures fun _ log => Watched m log := by
  refine Future.ensures_bind hf ?_ (fun _ h => h) (fun _ h => h) (fun _ h => h)
  intro a log hlog
  refine (hk a).mono fun o log' h => ?_
  rw [h, List.append_nil]
  exact hlog

theorem silent_onStatus (tx : PendingTx) (wait : Wait) (item : Option (Except String Status)) :
    Silent (tx.onStatus true wait item).1 := by
  rcases item with _ | e | status
  · exact silent_nil
  · exact silent_nil
  · intro e he
    exact ⟨status, List.mem_singleton.1 he⟩

theorem fromTerminalStatus_definitive {status : Status} {e : SubmitError}
    (h : SubmitError.fromTerminalStatus status = some e) (he : e.rejectionIsDefinitive = true) :
    ∃ message, status = .invalid message := by
  cases status with
  | invalid message => exact ⟨message, rfl⟩
  | dropped message =>
    cases h
    cases he
  | error message =>
    cases h
    cases he
  | _ => cases h

/-- The release on a rejection, once its status is read. -/
theorem watched_rejected {tx : PendingTx} {reads : List Event} {status : Status}
    {e : SubmitError} (hreads : Silent reads) (hstatus : .read status ∈ reads)
    (he : SubmitError.fromTerminalStatus status = some e) :
    (tx.rejected true e).Ensures (WatchesAs (owedByPending tx) (owedByPending ∘ Prod.snd) reads) := by
  unfold PendingTx.rejected
  split
  · rename_i reservation hdefinitive hreservation
    obtain ⟨message, rfl⟩ := fromTerminalStatus_definitive he hdefinitive
    have hreleased : ∀ log, log = [] ∨ log = [.released reservation.spent] →
        Watched (owedByPending tx) (reads ++ log) := by
      rintro log (rfl | rfl)
      · rw [List.append_nil]
        exact hreads.watched
      · refine ⟨reads, hreads, .inr ⟨reservation.spent, message, rfl, hstatus, ?_⟩⟩
        simp only [owedByPending, hreservation]
    refine Future.ensures_bind (ensures_handBack reservation.spent) ?_ (fun log h => hreleased log h)
      (fun log h => hreleased log h) (fun log h => hreleased log h)
    intro _ log h
    refine Future.ensures_pure _ _ ?_
    rw [List.append_nil]
    exact hreleased log h
  · exact watched_error hreads _

theorem watches_included {tx : PendingTx} {reads : List Event} (hreads : Silent reads)
    (b : InBlock) :
    (tx.included b).Ensures (WatchesAs (owedByPending tx) (owedByPending ∘ Prod.snd) reads) := by
  have hverdict : (txInBlockWithVerdict b tx.transactionHash).Ensures fun _ log => log = [] := by
    refine Future.ensures_bind (P := fun _ log => log = []) ?_ ?_ (fun _ h => h) (fun _ h => h)
      (fun _ h => h)
    · refine Future.ensures_bind (ensures_ask_nil Answers.events) ?_ (fun _ h => h) (fun _ h => h)
        (fun _ h => h)
      rintro x log rfl
      exact Future.ensures_pure _ _ rfl
    · rintro (e | events) log rfl
      · exact Future.ensures_pure _ _ rfl
      · simp only
        split
        · exact Future.ensures_pure _ _ rfl
        · exact Future.ensures_pure _ _ rfl
  refine Future.ensures_bind hverdict ?_ ?_ ?_ ?_
  · rintro (e | found) log rfl
    · exact watched_error hreads e
    · simp only [List.nil_append]
      split
      · exact watched_error hreads _
      · refine Future.ensures_pure _ _ ⟨?_, rfl⟩
        rw [List.append_nil]
        exact hreads
  all_goals
    rintro log rfl
    show Watched _ (reads ++ [])
    rw [List.append_nil]
    exact hreads.watched

/-- One wait: `Invalid` is the one status on which it hands the inputs back. -/
theorem watches_waitFor (tx : PendingTx) (wait : Wait) :
    Watches (owedByPending tx) (tx.waitFor true wait) (owedByPending ∘ Prod.snd) := by
  refine Future.ensures_awaitUntil Silent silent_nil ?_ ?_ (fun _ h => h.watched)
    (fun _ h => h.watched) (fun _ h => h.watched)
  · intro log answers hlog _
    exact hlog.append (silent_onStatus tx wait answers.status)
  · intro log answers f hlog hf
    have hreads := hlog.append (silent_onStatus tx wait answers.status)
    generalize answers.status = item at hf hreads ⊢
    rcases item with _ | e | status
    · obtain rfl := Option.some.inj hf
      exact watched_error hreads _
    · obtain rfl := Option.some.inj hf
      exact watched_error hreads _
    · simp only [PendingTx.onStatus] at hf hreads ⊢
      cases herror : SubmitError.fromTerminalStatus status with
      | some e =>
        rw [herror] at hf
        obtain rfl := Option.some.inj hf
        exact watched_rejected hreads (by simp) herror
      | none =>
        rw [herror] at hf
        obtain ⟨b, _, rfl⟩ := Option.map_eq_some_iff.1 hf
        exact watches_included hreads b

/-- What follows a wait with no event of its own keeps its handle. -/
theorem Watches.quietly {E' : Type} {m : Tags} {f : Flow (Except E α)}
    {k : Except E α → Flow (Except E' β)} {q : α → Tags} {owed : β → Tags} (hf : Watches m f q)
    (hquiet : ∀ x, (k x).Ensures fun _ log => log = [])
    (herror : ∀ e, (k (.error e)).Yields fun _ => False)
    (hok : ∀ a, (k (.ok a)).Yields fun b => owed b = q a) : Watches m (f >>= k) owed := by
  refine Future.ensures_bind hf ?_ (fun _ h => h) (fun _ h => h) (fun _ h => h)
  rintro (e | a) log hlog
  · refine ((hquiet (.error e)).and (herror e)).mono fun o log' h => ?_
    obtain ⟨rfl, ho⟩ := h
    rw [List.append_nil]
    rcases o with (e' | b) | _ | _ | _
    · exact hlog
    · exact (ho b rfl).elim
    · exact hlog
    · exact hlog
    · exact hlog
  · refine ((hquiet (.ok a)).and (hok a)).mono fun o log' h => ?_
    obtain ⟨rfl, ho⟩ := h
    rw [List.append_nil]
    rcases o with (e' | b) | _ | _ | _
    · exact hlog.1.watched
    · exact ⟨hlog.1, (ho b rfl).trans hlog.2⟩
    · exact hlog.1.watched
    · exact hlog.1.watched
    · exact hlog.1.watched

theorem yields_error {v : β → Prop} (e : E) :
    (pure (.error e) : Flow (Except E β)).Yields v := by
  intro s b h
  cases h

theorem Watches.mapError {E' : Type} {m : Tags} {f : Flow (Except E β)} {owed : β → Tags}
    (hf : Watches m f owed) (g : E → E') : Watches m (f.mapError g) owed :=
  hf.quietly (fun _ => Future.ensures_pure _ _ rfl) (fun e => yields_error (g e))
    (fun b => Future.yields_ok b _ rfl)

theorem watched_waits (tx : PendingTx) (after : List Wait) :
    (waits true tx after).Ensures fun _ log => Watched (owedByPending tx) log := by
  induction after generalizing tx with
  | nil => exact Future.ensures_pure _ _ silent_nil.watched
  | cons wait after ih =>
    refine ((watches_waitFor tx wait).mapError _).onOk fun r hr => ?_
    rw [← hr]
    exact ih r.2

theorem silent_settleSnapshot (waited : Except ProviderError TxInBlock) :
    (settleSnapshot waited).Ensures fun _ log => log = [] := by
  have hasked : ((ask Answers.store).mapError ContractError.privateState).Ensures
      fun _ log => log = [] := by
    refine Future.ensures_bind (ensures_ask_nil Answers.store) ?_ (fun _ h => h) (fun _ h => h)
      (fun _ h => h)
    rintro x log rfl
    exact Future.ensures_pure _ _ rfl
  unfold settleSnapshot
  split
  · exact hasked
  · exact hasked
  · exact Future.ensures_pure _ _ rfl

theorem silent_onOk_pure {f : Flow (Except E α)} {k : α → Except E β}
    (hf : f.Ensures fun _ log => log = []) :
    (f.onOk fun a => pure (k a)).Ensures fun _ log => log = [] := by
  refine Future.ensures_bind hf ?_ (fun _ h => h) (fun _ h => h) (fun _ h => h)
  rintro (e | a) log rfl
  · exact Future.ensures_pure _ _ rfl
  · exact Future.ensures_pure _ _ rfl

theorem silent_settleCall (call : PendingCall) (waited : Except ProviderError TxInBlock) :
    (call.settleCall waited).Ensures fun _ log => log = [] := by
  have hsettled : (if call.snapshotStore then settleSnapshot waited else pure (.ok ()) :
      Flow (Except ContractError Unit)).Ensures fun _ log => log = [] := by
    split
    · exact silent_settleSnapshot waited
    · exact Future.ensures_pure _ _ rfl
  refine Future.ensures_bind hsettled ?_ (fun _ h => h) (fun _ h => h) (fun _ h => h)
  rintro (e | _) log rfl
  · exact Future.ensures_pure _ _ rfl
  · simp only
    split
    all_goals exact Future.ensures_pure _ _ rfl

/-- A deadline drops the wait, and the dropped wait has handed nothing back. -/
theorem watched_finish (call : PendingCall) (deadline : Option ℕ) :
    (call.finish true deadline).Ensures fun _ log =>
      Watched (owedByPending call.pending) log := by
  have hwait := (watches_waitFor call.pending .finalized).watched
  cases deadline with
  | none => exact watched_then_nil hwait fun waited => silent_settleCall call _
  | some deadline =>
    refine watched_then_nil (f := Future.timeout (call.pending.waitFor true .finalized)) ?_ ?_
    · exact Future.ensures_timeout hwait (fun _ _ h => h) (fun _ h => h) (fun _ h => h)
        (fun _ h => h)
    · intro waited
      cases waited with
      | some waited => exact silent_settleCall call _
      | none => exact Future.ensures_pure _ _ rfl

theorem watches_deployWait (deploy : PendingDeploy) (wait : Wait) :
    Watches (owedByPending deploy.pending) (deploy.wait true wait)
      (fun d => owedByPending d.pending) := by
  cases wait with
  | best =>
    refine ((watches_waitFor deploy.pending .best).mapError _).quietly ?_ ?_ ?_
    · rintro (e | r)
      · exact Future.ensures_pure _ _ rfl
      · exact Future.ensures_pure _ _ rfl
    · exact fun e => yields_error e
    · exact fun r => Future.yields_ok _ _ rfl
  | finalized =>
    have hsettled : ∀ waited : Except ProviderError TxInBlock,
        (if deploy.snapshotStore then settleSnapshot waited else pure (.ok ()) :
          Flow (Except ContractError Unit)).Ensures fun _ log => log = [] := by
      intro waited
      split
      · exact silent_settleSnapshot waited
      · exact Future.ensures_pure _ _ rfl
    refine (watches_waitFor deploy.pending .finalized).quietly ?_ ?_ ?_
    · rintro (e | r)
      · exact silent_onOk_pure (hsettled _)
      · exact silent_onOk_pure (hsettled _)
    · exact fun e => Future.yields_onOk fun _ => yields_error _
    · exact fun r => Future.yields_onOk fun _ => Future.yields_ok _ _ rfl

theorem silent_deployedState (deploy : PendingDeploy) (inBlock : TxInBlock) :
    (deploy.deployedState inBlock).Ensures fun _ log => log = [] := by
  unfold PendingDeploy.deployedState
  refine Future.ensures_bind (P := fun _ log => log = []) ?_ ?_ (fun _ h => h) (fun _ h => h)
    (fun _ h => h)
  · refine Future.ensures_timeout (P := fun _ log => log = []) ?_ (fun _ _ h => h)
      (fun _ h => h) (fun _ h => h) (fun _ h => h)
    refine Future.ensures_awaitUntil (fun log => log = []) rfl ?_ ?_ (fun _ h => h)
      (fun _ h => h) (fun _ h => h)
    · rintro log answers rfl _
      rfl
    · rintro log answers f rfl h
      obtain ⟨state, rfl⟩ : ∃ state, f = pure state := by
        simp only [PendingDeploy.readAgain] at h
        split at h
        · cases h
        · exact ⟨_, (Option.some.inj h).symm⟩
      exact Future.ensures_pure _ _ rfl
  · rintro (_ | state) log rfl
    · exact Future.ensures_pure _ _ rfl
    · exact Future.ensures_pure _ _ rfl

theorem watched_intoContract (deploy : PendingDeploy) :
    (deploy.intoContract true).Ensures fun _ log => Watched (owedByPending deploy.pending) log := by
  unfold PendingDeploy.intoContract
  split
  · exact (silent_deployedState deploy _).mono fun _ log h => h ▸ silent_nil.watched
  · refine watched_then_nil (f := Future.timeout (deploy.pending.waitFor true .best)) ?_ ?_
    · exact Future.ensures_timeout (watches_waitFor deploy.pending .best).watched
        (fun _ _ h => h) (fun _ h => h) (fun _ h => h) (fun _ h => h)
    · rintro (_ | e | r)
      · exact Future.ensures_pure _ _ rfl
      · exact Future.ensures_pure _ _ rfl
      · exact silent_deployedState deploy r.1

theorem watched_deployWaits (deploy : PendingDeploy) (connect : Bool) (after : List Wait) :
    (deployWaits true deploy connect after).Ensures fun _ log =>
      Watched (owedByPending deploy.pending) log := by
  induction after generalizing deploy with
  | nil =>
    unfold deployWaits
    split
    · exact watched_intoContract deploy
    · exact Future.ensures_pure _ _ silent_nil.watched
  | cons wait after ih =>
    refine (watches_deployWait deploy wait).onOk fun d hd => ?_
    rw [← hd]
    exact ih d

end Waits

/-- How a flow ends: never submitted, or submitted once with all it had reserved. -/
def Concluded {E β : Type} (o : Outcome (Except E β)) (log : List Event) : Prop :=
  Unsent 0 o log ∨ ∃ before m after,
    log = before ++ .handedOver :: after ∧ duty.Holds 0 before m ∧ Watched m after

theorem Submits.concluded {E α β : Type} {f : Flow (Except E α)} {k : α → Flow (Except E β)}
    {owed : α → Tags} (hf : Submits 0 f owed)
    (hk : ∀ a, (k a).Ensures fun _ log => Watched (owed a) log) :
    (f.onOk k).Ensures Concluded := by
  have hsent : ∀ {o : Outcome (Except E β)} {log after : List Event} {m : Tags}, Sent 0 log m →
      Watched m after → Concluded o (log ++ after) := by
    rintro o log after m ⟨before, rfl, hbefore⟩ hafter
    refine .inr ⟨before, m, after, ?_, hbefore, hafter⟩
    simp only [List.append_assoc, List.cons_append, List.nil_append]
  have hcut : ∀ {o : Outcome (Except E β)} {log : List Event},
      (Unsent 0 o log ∨ ∃ m, Sent 0 log m) → Concluded o log := by
    rintro o log (h | ⟨m, h⟩)
    · exact .inl h
    · simpa only [List.append_nil] using hsent (o := o) h silent_nil.watched
  refine Future.ensures_bind hf ?_ (fun _ h => hcut h) (fun _ h => hcut h) (fun _ h => hcut h)
  rintro (e | a) log hlog
  · refine Future.ensures_pure _ _ ?_
    rw [List.append_nil]
    exact hcut hlog
  · exact (hk a).mono fun o log' h => hsent hlog h

theorem concluded_run (p : MidnightProvider) (flow : SubmitFlow) :
    (flow.run true p).Ensures Concluded := by
  cases flow with
  | transfer after =>
    refine Submits.concluded (.mapError ?_ _) fun tx => watched_waits tx after
    exact .after keeps_transfer fun result => submits_submitReserved p result
  | call request deadline =>
    refine (submits_sendCallWith p request).concluded fun call => ?_
    refine watched_then_nil (watched_finish call deadline) fun x => ?_
    cases x with
    | ok found => exact Future.ensures_pure _ _ rfl
    | error e => exact Future.ensures_pure _ _ rfl
  | deploy request after connect =>
    exact (submits_deploy p request).concluded fun deploy =>
      watched_deployWaits deploy connect after
  | maintenance request after =>
    refine Submits.concluded ?_ fun tx => watched_waits tx after
    exact .after (keeps_buildInner request) fun result =>
      (submits_submitReserved p result).mapError _

theorem Silent.handedOver_not_mem {log : List Event} (h : Silent log) : .handedOver ∉ log := by
  intro hmem
  obtain ⟨status, hstatus⟩ := h _ hmem
  cases hstatus

theorem Silent.released_not_mem {log : List Event} (h : Silent log) (s : SpentInputs) :
    .released s ∉ log := by
  intro hmem
  obtain ⟨status, hstatus⟩ := h _ hmem
  cases hstatus

theorem Silent.releasedBy_eq {log : List Event} (h : Silent log) : releasedBy log = 0 := by
  refine Account.sum_given_eq_zero fun e he => ?_
  obtain ⟨status, rfl⟩ := h e he
  rfl

theorem Silent.reservedBy_eq {log : List Event} (h : Silent log) : reservedBy log = 0 := by
  refine List.sum_eq_zero fun m hm => ?_
  obtain ⟨e, he, rfl⟩ := List.mem_map.1 hm
  obtain ⟨status, rfl⟩ := h e he
  rfl

theorem Watched.handedOver_not_mem {m : Tags} {log : List Event} (h : Watched m log) :
    .handedOver ∉ log := by
  obtain ⟨reads, hreads, rfl | ⟨s, message, rfl, _⟩⟩ := h
  · exact hreads.handedOver_not_mem
  · simpa using hreads.handedOver_not_mem

theorem Watched.sums {m : Tags} {log : List Event} (h : Watched m log) :
    reservedBy log = 0 ∧ releasedBy log ≤ m := by
  obtain ⟨reads, hreads, rfl | ⟨s, message, rfl, _, rfl⟩⟩ := h
  · rw [hreads.releasedBy_eq]
    exact ⟨hreads.reservedBy_eq, Multiset.zero_le _⟩
  · have hreserved := hreads.reservedBy_eq
    have hreleased := hreads.releasedBy_eq
    unfold reservedBy at hreserved ⊢
    unfold releasedBy at hreleased ⊢
    rw [List.map_append, List.sum_append, List.map_append, List.sum_append, hreserved, hreleased]
    simp [duty]

/-- A release in the log of a wait follows the read of the rejection. -/
theorem Watched.released_after_invalid {m : Tags} {log reads rest : List Event} {s : SpentInputs}
    (h : Watched m log) (hlog : log = reads ++ .released s :: rest) :
    ∃ message, .read (.invalid message) ∈ reads := by
  obtain ⟨quiet, hquiet, rfl | ⟨t, message, rfl, hmem, _⟩⟩ := h
  · refine (hquiet.released_not_mem s ?_).elim
    rw [hlog]
    simp
  · refine ⟨message, ?_⟩
    rcases List.append_eq_append_iff.1 hlog with ⟨as, rfl, has⟩ | ⟨as, rfl, has⟩
    · exact List.mem_append_left _ hmem
    · cases as with
      | nil => simpa using hmem
      | cons e as =>
        obtain ⟨rfl, _⟩ := List.cons.inj has
        refine (hquiet.released_not_mem s ?_).elim
        simp

/-- The hand-over of a log is where its parts without one meet. -/
theorem split_at_handedOver {before after before' after' : List Event}
    (hbefore : .handedOver ∉ before) (hafter : .handedOver ∉ after)
    (h : before ++ .handedOver :: after = before' ++ .handedOver :: after') :
    before' = before ∧ after' = after := by
  rcases List.append_eq_append_iff.1 h with ⟨as, rfl, has⟩ | ⟨as, rfl, has⟩
  · cases as with
    | nil =>
      simp only [List.nil_append, List.cons.injEq, true_and] at has
      exact ⟨by rw [List.append_nil], has.symm⟩
    | cons e as =>
      obtain ⟨rfl, rfl⟩ := List.cons.inj has
      refine (hafter ?_).elim
      simp
  · cases as with
    | nil =>
      simp only [List.nil_append, List.cons.injEq, true_and] at has
      exact ⟨by rw [List.append_nil], has⟩
    | cons e as =>
      obtain ⟨rfl, _⟩ := List.cons.inj has
      refine (hbefore ?_).elim
      simp

/-- The reservation of a flow, whatever its awaits answer and wherever it is
dropped: never released more than reserved, all of it released when the flow
ends with no hand-over, and released after a hand-over only by a wait that has
read a definitive rejection. -/
theorem reservation_released_by_its_owner (p : MidnightProvider) (flow : SubmitFlow)
    (script : List (Poll Answers)) :
    let x := flow.run true p script
    releasedBy x.log ≤ reservedBy x.log ∧
    (.handedOver ∉ x.log → x.outcome.Ended → releasedBy x.log = reservedBy x.log) ∧
    ∀ before after, x.log = before ++ .handedOver :: after →
      releasedBy before = 0 ∧ .handedOver ∉ after ∧
      ∀ reads s rest, after = reads ++ .released s :: rest →
        ∃ message, .read (.invalid message) ∈ reads := by
  intro x
  have hx : Concluded x.outcome x.log := concluded_run p flow script
  clear_value x
  rcases hx with hunsent | ⟨before, m, after, hlog, hbefore, hafter⟩
  · have hquiet : ∀ m, duty.Settles 0 x.log m → .handedOver ∉ x.log :=
      fun _ h hmem => (h.1 _ hmem).elim
    have hsettled : ∃ m, duty.Settles 0 x.log m ∧ (x.outcome.Ended → m = 0) := by
      generalize x.outcome = o at hunsent ⊢
      rcases o with (e | b) | _ | _ | _
      · exact ⟨0, hunsent, fun _ => rfl⟩
      · exact hunsent.elim
      · exact ⟨0, hunsent, fun _ => rfl⟩
      · exact ⟨0, hunsent, fun _ => rfl⟩
      · obtain ⟨m, hm⟩ := hunsent
        exact ⟨m, hm, fun h => h.elim⟩
    obtain ⟨m, hm, hended⟩ := hsettled
    have hsum : reservedBy x.log = releasedBy x.log + m := (zero_add _).symm.trans hm.2
    refine ⟨?_, ?_, ?_⟩
    · rw [hsum]
      exact Multiset.le_add_right _ _
    · intro _ h
      rw [hsum, hended h, add_zero]
    · intro before after h
      refine (hquiet m hm ?_).elim
      rw [h]
      simp
  · have hreleased : releasedBy before = 0 := Account.sum_given_eq_zero fun e he => (hbefore.1 e he).2
    have hreserved : reservedBy before = m := (zero_add _).symm.trans hbefore.2
    obtain ⟨hafterReserved, hafterReleased⟩ := hafter.sums
    refine ⟨?_, ?_, ?_⟩
    · have hr : reservedBy x.log = m := by
        have hsum : reservedBy x.log = reservedBy before + (0 + reservedBy after) := by
          rw [hlog]
          simp only [reservedBy, List.map_append, List.sum_append, List.map_cons, List.sum_cons]
          rfl
        rw [hsum, hafterReserved, hreserved, add_zero, add_zero]
      have hg : releasedBy x.log = releasedBy after := by
        have hsum : releasedBy x.log = releasedBy before + (0 + releasedBy after) := by
          rw [hlog]
          simp only [releasedBy, List.map_append, List.sum_append, List.map_cons, List.sum_cons]
          rfl
        rw [hsum, hreleased, zero_add, zero_add]
      rw [hr, hg]
      exact hafterReleased
    · intro h
      refine (h ?_).elim
      rw [hlog]
      simp
    · intro before' after' h
      obtain ⟨rfl, rfl⟩ := split_at_handedOver (fun he => (hbefore.1 _ he).1)
        hafter.handedOver_not_mem (hlog.symm.trans h)
      exact ⟨hreleased, hafter.handedOver_not_mem,
        fun reads s rest hrest => hafter.released_after_invalid hrest⟩

end MidnightRs.Lifecycle
