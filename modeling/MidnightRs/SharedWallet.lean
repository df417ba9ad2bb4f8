import MidnightRs.CoinRegistrations
import MidnightRs.Loops

/-!
One wallet behind its locks, shared by any number of callers. A call takes the
sync lock, and its edits each copy the state, replay and commit; builds and
releases change the reservations in between. The sync lock keeps every edit
whole, so registrations survive whatever else goes on.
-/
namespace MidnightRs.SharedWallet

open LedgerReplays Storage Reservations ChainSync Loops

variable {Z D E P : LedgerVersion → Type} {ι : Type}

section Steps

/-- The calls of the wallet that take its sync lock. -/
inductive Call where
  | resync (around : ResyncAround)
  | resyncFromGenesis (around : ResyncAround)
  | rescanShielded (around : RescanAround)
  | watchForCoins (coins : List CoinInfo) (around : RescanAround)
  | forgetCoins (coins : List CoinInfo)

/-- What a call does under the lock. Watching for no coin does nothing. -/
def Call.edits : Call → List Edit
  | .resync around => [.resync around]
  | .resyncFromGenesis around => [.rebuild around]
  | .rescanShielded around => [.rescan around]
  | .watchForCoins coins around => if coins.isEmpty then [] else [.watch coins, .rescan around]
  | .forgetCoins coins => [.forget coins]

/-- Where a caller stands: outside the lock, between two edits, or between the
plan and the commit of one. -/
inductive Phase (Z D P : LedgerVersion → Type) where
  | idle
  | holding (todo : List Edit)
  | replaying (plan : State Z D P) (edit : Edit) (todo : List Edit)

structure Shared (ι : Type) (Z D P : LedgerVersion → Type) where
  wallet : State Z D P
  sync : Option ι
  phase : ι → Phase Z D P

/-- What happens next. A commit tells the events that its replay took. -/
inductive Act (ι : Type) (E : LedgerVersion → Type) where
  | enter (i : ι) (call : Call)
  | plan (i : ι) (edit : Edit)
  | commit (i : ι) (edit : Edit) (evs : List (Σ v, E v))
  | behind (i : ι)
  | leave (i : ι)
  | reserve
  | pin

variable (L : Ledgers Z D E P) [∀ v, DecidableEq (P v)] [DecidableEq ι]

def Shared.moves (c : Shared ι Z D P) (i : ι) (phase : Phase Z D P) : ι → Phase Z D P :=
  Function.update c.phase i phase

/-- One step of one caller. A caller that fails or is dropped leaves, wherever it
stands. A rescan that finds the wallet behind a fork resyncs and rescans again. -/
inductive Step : Shared ι Z D P → Act ι E → Shared ι Z D P → Prop
  | enter {c : Shared ι Z D P} {i : ι} {call : Call} (hfree : c.sync = none)
      (hidle : c.phase i = .idle) :
      Step c (.enter i call) ⟨c.wallet, some i, c.moves i (.holding call.edits)⟩
  | plan {c : Shared ι Z D P} {i : ι} {edit : Edit} {todo : List Edit}
      (hphase : c.phase i = .holding (edit :: todo)) :
      Step c (.plan i edit) ⟨c.wallet, c.sync, c.moves i (.replaying c.wallet edit todo)⟩
  | commit {c : Shared ι Z D P} {i : ι} {plan s' : State Z D P} {edit : Edit} {todo : List Edit}
      {landing : Landing Z D P} {changed : Bool} {evs : List (Σ v, E v)}
      (saved : Except WalletError Unit) (hphase : c.phase i = .replaying plan edit todo)
      (hreplay : edit.replay L plan = some (.ok landing))
      (hcommit : landing.commit L c.wallet = .ok (s', changed))
      (htakes : Takes L plan evs s'.shielded edit) :
      Step c (.commit i edit evs)
        ⟨(s'.persist changed saved).1, c.sync, c.moves i (.holding todo)⟩
  | behind {c : Shared ι Z D P} {i : ι} {plan : State Z D P} {around : RescanAround}
      {todo : List Edit} {expected found : LedgerVersion} (resync : ResyncAround)
      (again : RescanAround) (hphase : c.phase i = .replaying plan (.rescan around) todo)
      (hfails : andThen ((Edit.rescan around).replay L plan)
        (fun landing => some (landing.commit L c.wallet)) =
          some (.error (.ledgerMismatch expected found)))
      (hlt : expected < found) :
      Step c (.behind i)
        ⟨c.wallet, c.sync, c.moves i (.holding (.resync resync :: .rescan again :: todo))⟩
  | leave {c : Shared ι Z D P} {i : ι} (hphase : c.phase i ≠ .idle) :
      Step c (.leave i) ⟨c.wallet, none, c.moves i .idle⟩
  | reserve {c : Shared ι Z D P} (pending : PendingReservations)
      (saved : Except WalletError Unit) :
      Step c .reserve ⟨⟨c.wallet.1, c.wallet.2.setPending pending saved⟩, c.sync, c.phase⟩
  | pin {c : Shared ι Z D P} (pin : ChainPin) :
      Step c .pin ⟨⟨c.wallet.1, c.wallet.2.setChainPin pin⟩, c.sync, c.phase⟩

end Steps

section Exclusion

variable {c c' : Shared ι Z D P}

/-- Only the caller that holds the lock is in a call, and the registrations are
those its plan copied. -/
structure Exclusive (c : Shared ι Z D P) : Prop where
  holder : ∀ i, c.phase i ≠ .idle → c.sync = some i
  same : ∀ i plan edit todo, c.phase i = .replaying plan edit todo →
    c.wallet.shielded = plan.shielded

def Shared.Idle (c : Shared ι Z D P) : Prop := ∀ i, c.phase i = .idle

theorem Shared.Idle.exclusive (h : c.Idle) : Exclusive c where
  holder i hi := absurd (h i) hi
  same i plan edit todo hi := by
    rw [h i] at hi
    cases hi

theorem persist_shielded (s : State Z D P) (changed : Bool) (saved : Except WalletError Unit) :
    (s.persist changed saved).1.shielded = s.shielded :=
  congrArg (fun stored : Stored Z D => (⟨stored.1, stored.2.zswapState⟩ : ZswapState Z))
    (persist_stored s changed saved)

theorem Exclusive.keep (h : Exclusive c) {wallet : State Z D P}
    (hsame : wallet.shielded = c.wallet.shielded) :
    Exclusive ⟨wallet, c.sync, c.phase⟩ where
  holder := h.holder
  same i plan edit todo hi := hsame.trans (h.same i plan edit todo hi)

variable [DecidableEq ι]

/-- A caller in a call keeps the lock when it moves on in it. -/
theorem Exclusive.moves (h : Exclusive c) {i : ι} {phase : Phase Z D P} {wallet : State Z D P}
    (hin : c.phase i ≠ .idle)
    (hsame : ∀ plan edit todo, phase = .replaying plan edit todo →
      wallet.shielded = plan.shielded) :
    Exclusive ⟨wallet, c.sync, c.moves i phase⟩ where
  holder j hj := by
    by_cases hij : j = i
    · rw [hij]
      exact h.holder i hin
    · simp only [Shared.moves, Function.update_of_ne hij] at hj
      exact h.holder j hj
  same j plan edit todo hj := by
    by_cases hij : j = i
    · subst hij
      simp only [Shared.moves, Function.update_self] at hj
      exact hsame plan edit todo hj
    · simp only [Shared.moves, Function.update_of_ne hij] at hj
      have hlock := h.holder j (by rw [hj]; exact fun hidle => by cases hidle)
      rw [h.holder i hin] at hlock
      exact absurd (Option.some.inj hlock).symm hij

variable {L : Ledgers Z D E P} [∀ v, DecidableEq (P v)]

theorem Exclusive.step {a : Act ι E} (h : Exclusive c) (hstep : Step L c a c') : Exclusive c' := by
  cases hstep with
  | @enter i call hfree hidle =>
    refine ⟨?_, ?_⟩
    · intro j hj
      by_cases hij : j = i
      · rw [hij]
      · simp only [Shared.moves, Function.update_of_ne hij] at hj
        have hlock := h.holder j hj
        rw [hfree] at hlock
        cases hlock
    · intro j plan edit todo hj
      by_cases hij : j = i
      · subst hij
        simp only [Shared.moves, Function.update_self] at hj
        cases hj
      · simp only [Shared.moves, Function.update_of_ne hij] at hj
        exact h.same j plan edit todo hj
  | @plan i edit todo hphase =>
    refine h.moves (by rw [hphase]; exact fun hidle => by cases hidle) ?_
    intro plan' edit' todo' heq
    cases heq
    rfl
  | @commit i plan s' edit todo landing changed evs saved hphase hreplay hcommit htakes =>
    refine h.moves (by rw [hphase]; exact fun hidle => by cases hidle) ?_
    intro plan' edit' todo' heq
    cases heq
  | @behind i plan around todo expected found resync again hphase hfails hlt =>
    refine h.moves (by rw [hphase]; exact fun hidle => by cases hidle) ?_
    intro plan' edit' todo' heq
    cases heq
  | @leave i hphase =>
    have hothers : ∀ j, j ≠ i → c.phase j = .idle := by
      intro j hij
      by_contra hj
      have hlock := h.holder j hj
      rw [h.holder i hphase] at hlock
      exact hij (Option.some.inj hlock).symm
    have hidle : Shared.Idle (⟨c.wallet, none, c.moves i .idle⟩ : Shared ι Z D P) := by
      intro j
      by_cases hij : j = i
      · rw [hij]
        exact Function.update_self i _ _
      · exact (Function.update_of_ne hij _ _).trans (hothers j hij)
    exact hidle.exclusive
  | reserve pending saved => exact h.keep rfl
  | pin pin => exact h.keep rfl

theorem Exclusive.run {acts : List (Act ι E)} (h : Exclusive c) (hrun : Run (Step L) c acts c') :
    Exclusive c' :=
  hrun.invariant Exclusive (fun _ _ _ hstep hc => hc.step hstep) h

end Exclusion

section Survival

variable {L : Ledgers Z D E P} {C : CoinRules E} [∀ v, DecidableEq (P v)] [DecidableEq ι]
  {c c' : Shared ι Z D P} {acts : List (Act ι E)} {coin : CoinInfo}

/-- The coins that an action forgets. -/
def Act.forgets : Act ι E → List CoinInfo
  | .commit _ (.forget coins) _ => coins
  | _ => []

def Act.watches : Act ι E → List CoinInfo
  | .commit _ (.watch coins) _ => coins
  | _ => []

/-- The events that an action's replay takes. -/
def Act.events : Act ι E → List (Σ v, E v)
  | .commit _ _ evs => evs
  | _ => []

/-- Under the lock, the plan of a commit copied the registrations it finds. -/
theorem commit_takes (h : Exclusive c) {i : ι} {edit : Edit}
    {evs : List (Σ v, E v)} (hstep : Step L c (.commit i edit evs) c') :
    ∃ plan, c.wallet.shielded = plan.shielded ∧ Takes L plan evs c'.wallet.shielded edit := by
  cases hstep with
  | @commit _ plan s' _ todo landing changed _ saved hphase hreplay hcommit htakes =>
    refine ⟨plan, h.same i plan edit todo hphase, ?_⟩
    show Takes L plan evs (s'.persist changed saved).1.shielded edit
    rw [persist_shielded]
    exact htakes

/-- An action that commits nothing leaves the registrations. -/
theorem shielded_of_not_commit {a : Act ι E} (hstep : Step L c a c')
    (ha : ∀ i edit evs, a ≠ .commit i edit evs) : c'.wallet.shielded = c.wallet.shielded := by
  cases hstep with
  | commit saved hphase hreplay hcommit htakes => exact absurd rfl (ha _ _ _)
  | _ => rfl

theorem step_registered (hC : KeepsCoins L C) {a : Act ι E} (h : Exclusive c)
    (hstep : Step L c a c') (hregistered : Registered L C c.wallet.shielded coin)
    (hforget : coin ∉ a.forgets) :
    Registered L C c'.wallet.shielded coin ∨ Creates C a.events coin := by
  by_cases ha : ∃ i edit evs, a = .commit i edit evs
  · obtain ⟨i, edit, evs, rfl⟩ := ha
    obtain ⟨plan, hsame, htakes⟩ := commit_takes h hstep
    rw [hsame] at hregistered
    refine takes_registered hC htakes hregistered ?_
    rintro coins rfl
    exact hforget
  · rw [shielded_of_not_commit hstep (fun i edit evs heq => ha ⟨i, edit, evs, heq⟩)]
    exact Or.inl hregistered

theorem step_unregistered (hC : KeepsCoins L C) {a : Act ι E} (h : Exclusive c)
    (hstep : Step L c a c') (hregistered : ¬ Registered L C c.wallet.shielded coin)
    (hheld : ¬ Held L C c.wallet.shielded coin) (hwatch : coin ∉ a.watches) :
    ¬ Registered L C c'.wallet.shielded coin := by
  by_cases ha : ∃ i edit evs, a = .commit i edit evs
  · obtain ⟨i, edit, evs, rfl⟩ := ha
    obtain ⟨plan, hsame, htakes⟩ := commit_takes h hstep
    rw [hsame] at hregistered hheld
    refine takes_unregistered hC htakes hregistered hheld ?_
    rintro coins rfl
    exact hwatch
  · rw [shielded_of_not_commit hstep (fun i edit evs heq => ha ⟨i, edit, evs, heq⟩)]
    exact hregistered

/-- A registration survives a run that does not forget it, up to the output. -/
theorem run_registered (hC : KeepsCoins L C) (h : Exclusive c) (hrun : Run (Step L) c acts c')
    (hregistered : Registered L C c.wallet.shielded coin)
    (hforget : ∀ a ∈ acts, coin ∉ a.forgets) :
    Registered L C c'.wallet.shielded coin ∨ ∃ a ∈ acts, Creates C a.events coin := by
  induction hrun with
  | nil c => exact Or.inl hregistered
  | @cons c mid c' a acts hstep hrest ih =>
    rcases step_registered hC h hstep hregistered (hforget a List.mem_cons_self) with hmid | hnow
    · rcases ih (h.step hstep) hmid (fun b hb => hforget b (List.mem_cons_of_mem a hb)) with
        hend | ⟨b, hb, hlater⟩
      · exact Or.inl hend
      · exact Or.inr ⟨b, List.mem_cons_of_mem a hb, hlater⟩
    · exact Or.inr ⟨a, List.mem_cons_self, hnow⟩

/-- A step from a wallet that does not hold the coin. -/
def WithoutCoin (L : Ledgers Z D E P) (C : CoinRules E) (coin : CoinInfo) (c : Shared ι Z D P)
    (a : Act ι E) (c' : Shared ι Z D P) : Prop :=
  Step L c a c' ∧ ¬ Held L C c.wallet.shielded coin

theorem run_unregistered (hC : KeepsCoins L C) (h : Exclusive c)
    (hrun : Run (WithoutCoin L C coin) c acts c')
    (hregistered : ¬ Registered L C c.wallet.shielded coin)
    (hwatch : ∀ a ∈ acts, coin ∉ a.watches) : ¬ Registered L C c'.wallet.shielded coin := by
  induction hrun with
  | nil c => exact hregistered
  | @cons c mid c' a acts hstep hrest ih =>
    exact ih (h.step hstep.1)
      (step_unregistered hC h hstep.1 hregistered hstep.2 (hwatch a List.mem_cons_self))
      (fun b hb => hwatch b (List.mem_cons_of_mem a hb))

/-- A rescan's commit holds once what its replay claims, and drops no coin. -/
theorem rescan_commit (hC : KeepsCoins L C) (h : Exclusive c) {i : ι} {around : RescanAround}
    {evs : List (Σ v, E v)} (hstep : Step L c (.commit i (.rescan around) evs) c')
    (hkept : Registered L C c.wallet.shielded coin ∨ Held L C c.wallet.shielded coin) :
    (¬ Creates C evs coin → Registered L C c'.wallet.shielded coin) ∧
      (Creates C evs coin → ¬ Spends C evs coin → HeldOnce L c'.wallet.shielded coin) := by
  obtain ⟨plan, hsame, v, hplayed⟩ := commit_takes h hstep
  rw [hsame] at hkept
  obtain ⟨hwaits, hclaimed⟩ := Played.rebuilt hC hplayed hkept
  exact ⟨hwaits, fun hcreates hspends => (hclaimed hcreates hspends).once hC⟩

/-- When a forget commits, no plan is on its way, and its coins are gone. -/
theorem forget_commit (hC : KeepsCoins L C) (h : Exclusive c) {i : ι} {coins : List CoinInfo}
    {evs : List (Σ v, E v)} (hstep : Step L c (.commit i (.forget coins) evs) c') :
    (∀ j plan edit todo, c'.phase j ≠ .replaying plan edit todo) ∧
      ∀ coin ∈ coins, ¬ Registered L C c'.wallet.shielded coin := by
  refine ⟨?_, ?_⟩
  · cases hstep with
    | @commit _ plan s' _ todo landing changed _ saved hphase hreplay hcommit htakes =>
      intro j plan' edit todo' hj
      by_cases hij : j = i
      · subst hij
        simp only [Shared.moves, Function.update_self] at hj
        cases hj
      · simp only [Shared.moves, Function.update_of_ne hij] at hj
        have hlock := h.holder j (by rw [hj]; exact fun hidle => by cases hidle)
        rw [h.holder i (by rw [hphase]; exact fun hidle => by cases hidle)] at hlock
        exact hij (Option.some.inj hlock).symm
  · obtain ⟨plan, -, -, hforgot⟩ := commit_takes h hstep
    intro coin hcoin hregistered
    rw [hforgot] at hregistered
    exact ((registered_forget hC _ _ coins).mp hregistered).2 hcoin

/-- Whatever a replay reached, its commit is a step. -/
theorem commit_possible (hL : L.Lawful) (h : Exclusive c) {i : ι} {plan s' : State Z D P}
    {edit : Edit} {todo : List Edit} {landing : Landing Z D P} {changed : Bool}
    (saved : Except WalletError Unit) (hphase : c.phase i = .replaying plan edit todo)
    (hreplay : edit.replay L plan = some (.ok landing))
    (hcommit : landing.commit L c.wallet = .ok (s', changed)) :
    ∃ evs, Step L c (.commit i edit evs)
      ⟨(s'.persist changed saved).1, c.sync, c.moves i (.holding todo)⟩ := by
  obtain ⟨evs, htakes⟩ := landing_takes hL (h.same i plan edit todo hphase) hreplay hcommit
  exact ⟨evs, .commit saved hphase hreplay hcommit htakes⟩

/-- Registered coins survive concurrent work, over every commit that a call can
make. -/
theorem registrations_survive (hL : L.Lawful) (hC : KeepsCoins L C) {c₀ : Shared ι Z D P}
    (hidle : c₀.Idle) (hreach : Run (Step L) c₀ acts c) :
    (∀ coin later c', Run (Step L) c later c' → Registered L C c.wallet.shielded coin →
      (∀ a ∈ later, coin ∉ a.forgets) →
      Registered L C c'.wallet.shielded coin ∨ ∃ a ∈ later, Creates C a.events coin) ∧
    (∀ coin i around evs c', Step L c (.commit i (.rescan around) evs) c' →
      Registered L C c.wallet.shielded coin ∨ Held L C c.wallet.shielded coin →
      (¬ Creates C evs coin → Registered L C c'.wallet.shielded coin) ∧
      (Creates C evs coin → ¬ Spends C evs coin → HeldOnce L c'.wallet.shielded coin)) ∧
    (∀ coin, Held L C c.wallet.shielded coin → HeldOnce L c.wallet.shielded coin) ∧
    (∀ i coins evs c', Step L c (.commit i (.forget coins) evs) c' →
      (∀ j plan edit todo, c'.phase j ≠ .replaying plan edit todo) ∧
      ∀ coin ∈ coins, ∀ later c'', Run (WithoutCoin L C coin) c' later c'' →
        (∀ a ∈ later, coin ∉ a.watches) → ¬ Registered L C c''.wallet.shielded coin) ∧
    ∀ i plan edit todo landing s' changed saved, c.phase i = .replaying plan edit todo →
      edit.replay L plan = some (.ok landing) → landing.commit L c.wallet = .ok (s', changed) →
      ∃ evs, Step L c (.commit i edit evs)
        ⟨(s'.persist changed saved).1, c.sync, c.moves i (.holding todo)⟩ := by
  have h : Exclusive c := hidle.exclusive.run hreach
  refine ⟨?_, ?_, ?_, ?_, ?_⟩
  · intro coin later c' hrun hregistered hforget
    exact run_registered hC h hrun hregistered hforget
  · intro coin i around evs c' hstep hkept
    exact rescan_commit hC h hstep hkept
  · intro coin hheld
    exact hheld.once hC
  · intro i coins evs c' hstep
    obtain ⟨hplans, hgone⟩ := forget_commit hC h hstep
    refine ⟨hplans, ?_⟩
    intro coin hcoin later c'' hrun hwatch
    exact run_unregistered hC (h.step hstep) hrun (hgone coin hcoin) hwatch
  · intro i plan edit todo landing s' changed saved hphase hreplay hcommit
    exact commit_possible hL h saved hphase hreplay hcommit

end Survival

section Toy

/-- A name that tells coins apart. -/
def marked (bytes : Bytes) : Bytes := bytes.flatMap (fun b => [0, b])

def nameOf (coin : CoinInfo) : Bytes :=
  marked coin.nonce ++ 1 :: (marked coin.tokenType ++ 1 :: List.replicate coin.value 0)

theorem marked_inj {xs ys r s : Bytes} (h : marked xs ++ 1 :: r = marked ys ++ 1 :: s) :
    xs = ys ∧ r = s := by
  induction xs generalizing ys with
  | nil =>
    cases ys with
    | nil => exact ⟨rfl, (List.cons.inj h).2⟩
    | cons y ys => exact absurd (List.cons.inj h).1 (by decide)
  | cons x xs ih =>
    cases ys with
    | nil => exact absurd (List.cons.inj h).1 (by decide)
    | cons y ys =>
      obtain ⟨hxy, hrest⟩ := List.cons.inj (List.cons.inj h).2
      obtain ⟨rfl, hrs⟩ := ih hrest
      exact ⟨by rw [hxy], hrs⟩

theorem nameOf_inj {coin coin' : CoinInfo} (h : nameOf coin = nameOf coin') : coin = coin' := by
  obtain ⟨hnonce, hrest⟩ := marked_inj h
  obtain ⟨htoken, hvalue⟩ := marked_inj hrest
  have hlength := congrArg List.length hvalue
  simp only [List.length_replicate] at hlength
  obtain ⟨nonce, tokenType, value⟩ := coin
  obtain ⟨nonce', tokenType', value'⟩ := coin'
  cases hnonce
  cases htoken
  cases hlength
  rfl

/-- An event creates the output of a coin, or spends it. -/
inductive CoinEvent where
  | output (coin : CoinInfo)
  | spend (coin : CoinInfo)

/-- The registrations and the coins held. -/
abbrev Purse := List CoinInfo × List CoinInfo

def Purse.take (z : Purse) : CoinEvent → Purse
  | .output coin =>
    if coin ∈ z.1 then (z.1.filter (fun x => decide (x ≠ coin)), coin :: z.2) else z
  | .spend coin => (z.1, z.2.filter (fun x => decide (x ≠ coin)))

def purseRules : CoinRules (fun _ => CoinEvent) where
  commitment := nameOf
  nullifier := nameOf
  creates _ ev k := ∃ coin, ev = .output coin ∧ k = nameOf coin
  spends _ ev n := ∃ coin, ev = .spend coin ∧ n = nameOf coin
  discovers _ _ _ := False

def purseLedgers : Ledgers (fun _ => Purse) (fun _ => ℕ) (fun _ => CoinEvent) (fun _ => Unit) where
  events := countingLedgers.events
  decodeEvent _ bytes := .ok (.output ⟨bytes, [], 0⟩)
  blockTime _ _ := none
  spendNullifier _ _ := none
  newZswap _ := ([], [])
  replayZswap _ z evs := .ok (evs.foldl Purse.take z)
  commitment _ := nameOf
  watchFor _ z coin := (coin :: z.1, z.2)
  pendingOutputs _ z := z.1.map (fun coin => (nameOf coin, coin))
  removePendingOutput _ z k := (z.1.filter (fun coin => decide (nameOf coin ≠ k)), z.2)
  coins _ z := z.2.dedup.map (fun coin => (nameOf coin, coin))
  oldToNew z := .ok z
  newDust _ _ := 0
  replayDust _ n es := .ok (n + es.length)
  parameters := countingLedgers.parameters
  decodeParameters _ _ := .ok ()
  parameterFields := countingLedgers.parameterFields

theorem purseLedgers_lawful : purseLedgers.Lawful where
  zswap v := ⟨fun z => rfl, fun z xs ys => by
    simp [purseLedgers, bind, Except.bind, List.foldl_append]⟩
  dust v := ⟨fun n => rfl, fun n xs ys => by
    simp [purseLedgers, bind, Except.bind, add_assoc]⟩

theorem mem_pending {v : LedgerVersion} {z : Purse} {k : Commitment} {coin : CoinInfo} :
    (k, coin) ∈ purseLedgers.pendingOutputs v z ↔ k = nameOf coin ∧ coin ∈ z.1 := by
  simp only [purseLedgers, List.mem_map, Prod.mk.injEq]
  constructor
  · rintro ⟨x, hx, rfl, rfl⟩
    exact ⟨rfl, hx⟩
  · rintro ⟨rfl, hx⟩
    exact ⟨coin, hx, rfl, rfl⟩

theorem mem_coins {v : LedgerVersion} {z : Purse} {n : Nullifier} {coin : CoinInfo} :
    (n, coin) ∈ purseLedgers.coins v z ↔ n = nameOf coin ∧ coin ∈ z.2 := by
  simp only [purseLedgers, List.mem_map, List.mem_dedup, Prod.mk.injEq]
  constructor
  · rintro ⟨x, hx, rfl, rfl⟩
    exact ⟨rfl, hx⟩
  · rintro ⟨rfl, hx⟩
    exact ⟨coin, hx, rfl, rfl⟩

/-- An output leaves the registrations. -/
theorem mem_take_registered {z : Purse} {ev : CoinEvent} {coin : CoinInfo} :
    coin ∈ (z.take ev).1 ↔ coin ∈ z.1 ∧ ev ≠ .output coin := by
  cases ev with
  | output made =>
    by_cases hmade : made ∈ z.1
    · simp [Purse.take, hmade, @eq_comm _ coin made]
    · have hother : coin ∈ z.1 → made ≠ coin := by
        rintro hcoin rfl
        exact hmade hcoin
      simpa [Purse.take, hmade] using hother
  | spend spent => simp [Purse.take]

theorem mem_take_held {z : Purse} {ev : CoinEvent} {coin : CoinInfo} :
    coin ∈ (z.take ev).2 ↔
      ev ≠ .spend coin ∧ (coin ∈ z.2 ∨ ev = .output coin ∧ coin ∈ z.1) := by
  cases ev with
  | output made =>
    by_cases hmade : made ∈ z.1
    · have hclaimed : coin = made ↔ made = coin ∧ coin ∈ z.1 := by
        constructor
        · rintro rfl
          exact ⟨rfl, hmade⟩
        · rintro ⟨rfl, -⟩
          rfl
      simp [Purse.take, hmade, hclaimed, or_comm]
    · have hother : ¬ (made = coin ∧ coin ∈ z.1) := by
        rintro ⟨rfl, hcoin⟩
        exact hmade hcoin
      simp [Purse.take, hmade, hother]
  | spend spent => simp [Purse.take, and_comm, @eq_comm _ coin spent]

theorem creates_iff {v : LedgerVersion} {ev : CoinEvent} {coin : CoinInfo} :
    purseRules.creates v ev (nameOf coin) ↔ ev = .output coin := by
  constructor
  · rintro ⟨made, rfl, hname⟩
    rw [nameOf_inj hname]
  · rintro rfl
    exact ⟨coin, rfl, rfl⟩

theorem spends_iff {v : LedgerVersion} {ev : CoinEvent} {coin : CoinInfo} :
    purseRules.spends v ev (nameOf coin) ↔ ev = .spend coin := by
  constructor
  · rintro ⟨spent, rfl, hname⟩
    rw [nameOf_inj hname]
  · rintro rfl
    exact ⟨coin, rfl, rfl⟩

theorem purse_watch {v : LedgerVersion} {z : Purse} {coin : CoinInfo} {k : Commitment}
    {x : CoinInfo} : (k, x) ∈ purseLedgers.pendingOutputs v (purseLedgers.watchFor v z coin) ↔
      (k, x) = (nameOf coin, coin) ∨ (k, x) ∈ purseLedgers.pendingOutputs v z := by
  rw [mem_pending, mem_pending]
  constructor
  · rintro ⟨rfl, hx⟩
    rcases List.mem_cons.mp hx with rfl | hx
    · exact Or.inl rfl
    · exact Or.inr ⟨rfl, hx⟩
  · rintro (heq | ⟨rfl, hx⟩)
    · cases heq
      exact ⟨rfl, List.mem_cons_self⟩
    · exact ⟨rfl, List.mem_cons_of_mem coin hx⟩

theorem purse_remove {v : LedgerVersion} {z : Purse} {k k' : Commitment} {x : CoinInfo} :
    (k', x) ∈ purseLedgers.pendingOutputs v (purseLedgers.removePendingOutput v z k) ↔
      (k', x) ∈ purseLedgers.pendingOutputs v z ∧ k' ≠ k := by
  rw [mem_pending, mem_pending]
  constructor
  · rintro ⟨rfl, hx⟩
    obtain ⟨hmem, hname⟩ := List.mem_filter.mp hx
    exact ⟨⟨rfl, hmem⟩, of_decide_eq_true hname⟩
  · rintro ⟨⟨rfl, hmem⟩, hname⟩
    exact ⟨rfl, List.mem_filter.mpr ⟨hmem, decide_eq_true hname⟩⟩

theorem purse_output {v : LedgerVersion} {z : Purse} {ev : CoinEvent} {k : Commitment}
    {x : CoinInfo} : (k, x) ∈ purseLedgers.pendingOutputs v (z.take ev) ↔
      (k, x) ∈ purseLedgers.pendingOutputs v z ∧ ¬ purseRules.creates v ev k := by
  rw [mem_pending, mem_pending, mem_take_registered]
  constructor
  · rintro ⟨rfl, hmem, hmade⟩
    exact ⟨⟨rfl, hmem⟩, fun hcreates => hmade (creates_iff.mp hcreates)⟩
  · rintro ⟨⟨rfl, hmem⟩, hmade⟩
    exact ⟨rfl, hmem, fun heq => hmade (creates_iff.mpr heq)⟩

theorem purse_claim {v : LedgerVersion} {z : Purse} {ev : CoinEvent} {coin : CoinInfo} :
    (nameOf coin, coin) ∈ purseLedgers.coins v (z.take ev) ↔
      ¬ purseRules.spends v ev (nameOf coin) ∧
        ((nameOf coin, coin) ∈ purseLedgers.coins v z ∨ purseRules.creates v ev (nameOf coin) ∧
          ((nameOf coin, coin) ∈ purseLedgers.pendingOutputs v z ∨
            purseRules.discovers v ev coin)) := by
  have hdiscovers : ¬ purseRules.discovers v ev coin := fun h => h
  rw [mem_coins, mem_coins, mem_pending, mem_take_held, spends_iff, creates_iff,
    or_iff_left hdiscovers]
  simp only [true_and, ne_eq]

theorem purse_keepsCoins : KeepsCoins purseLedgers purseRules where
  sameCommitment v coin := rfl
  commitmentInj coin coin' h := nameOf_inj h
  pendingKeys v z e he := (mem_pending.mp he).1
  coinKeys v z e he := (mem_coins.mp he).1
  coinsNodup v z := by
    have hkeys : ((purseLedgers.coins v z).map Prod.fst) = z.2.dedup.map nameOf := by
      simp [purseLedgers, Function.comp_def]
    rw [hkeys]
    exact (List.nodup_dedup z.2).map (fun x y h => nameOf_inj h)
  newPending v := rfl
  watchPending v z coin e := purse_watch
  watchCoins v z coin := rfl
  removePending v z k e := purse_remove
  removeCoins v z k := rfl
  replayPending v z ev z' h e := by
    cases h
    exact purse_output
  replayCoins v z ev z' h coin := by
    cases h
    exact purse_claim
  forkPending z z' h := by
    cases h
    rfl
  forkCoins z z' h := by
    cases h
    rfl

/-- A wallet that waits for a prize, and for change that is then forgotten. -/
def prize : CoinInfo := ⟨[1], [], 5⟩

def change : CoinInfo := ⟨[2], [], 3⟩

def purseWallet : Wallet (fun _ => Purse) (fun _ => ℕ) (fun _ => Unit) .V8 :=
  ⟨([prize, change], []), 1, 0, 0, [], 0, some 0, none, (), some ⟨1, 1⟩, .default, false, false⟩

def purseStart : Shared Bool (fun _ => Purse) (fun _ => ℕ) (fun _ => Unit) :=
  ⟨⟨.V8, purseWallet⟩, none, fun _ => .idle⟩

/-- One caller forgets the change, while the other takes a reservation. -/
def forgetChange : List (Act Bool (fun _ => CoinEvent)) :=
  [.enter true (.forgetCoins [change]), .plan true (.forget [change]), .reserve,
    .commit true (.forget [change]) [], .leave true]

theorem forgetChange_runs : ∃ c', Run (Step purseLedgers) purseStart forgetChange c' := by
  refine ⟨_, .cons (.enter rfl rfl) (.cons (.plan rfl) (.cons (.reserve .default (.ok ()))
    (.cons (.commit (.ok ()) rfl rfl rfl ⟨rfl, rfl⟩) (.cons (.leave ?_) (.nil _)))))⟩
  exact fun hidle => by cases hidle

theorem prize_survives :
    ∃ c', Run (Step purseLedgers) purseStart forgetChange c' ∧
      Registered purseLedgers purseRules c'.wallet.shielded prize := by
  obtain ⟨c', hrun⟩ := forgetChange_runs
  have hidle : purseStart.Idle := fun i => rfl
  have hsurvives := (registrations_survive purseLedgers_lawful purse_keepsCoins hidle
    (.nil purseStart)).1 prize forgetChange c' hrun
  refine ⟨c', hrun, (hsurvives ?_ ?_).resolve_right ?_⟩
  · exact mem_pending.mpr ⟨rfl, List.mem_cons_self⟩
  · intro a ha
    simp only [forgetChange, List.mem_cons, List.not_mem_nil, or_false] at ha
    rcases ha with rfl | rfl | rfl | rfl | rfl <;> simp [Act.forgets, prize, change]
  · rintro ⟨a, ha, ev, hev, -⟩
    simp only [forgetChange, List.mem_cons, List.not_mem_nil, or_false] at ha
    rcases ha with rfl | rfl | rfl | rfl | rfl <;> cases hev

end Toy

end MidnightRs.SharedWallet
