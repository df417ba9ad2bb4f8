import MidnightRs.Registrations

/-!
The balance of a wallet beside the view that funds its builds. The balance filters
the confirmed state by the reservations that hold; the view is made after the expired
ones are dropped, and marks Dust as spent instead of removing it. What the one flags
as spendable is what the other offers.
-/
namespace MidnightRs.WalletBuilds

open Reservations

structure UnshieldedUtxoInfo where
  tokenType : Bytes
  value : ℕ
  spendable : Bool
deriving DecidableEq, Repr

structure ShieldedCoinBalance where
  tokenType : Bytes
  value : ℕ
  spendable : Bool
deriving DecidableEq, Repr

structure ShieldedBalance where
  coins : List ShieldedCoinBalance
  totalCount : ℕ
deriving DecidableEq, Repr

structure DustBalance where
  spendableUtxos : ℕ
  balanceSpeck : ℕ
  spendableSpeck : ℕ
  nightGeneratesDust : Bool
  unregisteredNightUtxos : ℕ
deriving DecidableEq, Repr

structure WalletBalance where
  dust : DustBalance
  unshielded : List UnshieldedUtxoInfo
  shielded : ShieldedBalance
deriving DecidableEq, Repr

/-- The ledger's Dust state: what it is worth at a time, and the removal of a UTXO,
which takes the one with that nullifier and no other. -/
structure DustLedger where
  walletBalance : List DustNullifier → Timestamp → ℕ
  removeUtxo : List DustNullifier → DustNullifier → List DustNullifier
  removes : ∀ state n, removeUtxo state n = state.filter (fun m => decide (m ≠ n))

namespace Wallet

variable (L : DustLedger)

/-- One pass over the tNIGHT: whether any generates Dust, and how many do not. -/
def nightGeneration (w : Wallet) : Bool × ℕ :=
  (w.unshieldedUtxos.filter TrackedUtxo.isNight).foldl
    (fun (any, count) u => if u.isRegisteredForDust then (true, count) else (any, count + 1))
    (false, 0)

def dustBalance (w : Wallet) : DustBalance :=
  let confirmed := w.dustWallet.dustLocalState
  let unreserved := confirmed.map (fun state => w.reservedDustNullifiers.foldl L.removeUtxo state)
  let now := (w.blockContext.map BlockContext.tblock).getD 0
  { spendableUtxos := (unreserved.map List.length).getD 0
    balanceSpeck := (confirmed.map (L.walletBalance · now)).getD 0
    spendableSpeck := (unreserved.map (L.walletBalance · now)).getD 0
    nightGeneratesDust := w.nightGeneration.1
    unregisteredNightUtxos := w.nightGeneration.2 }

def unshieldedBalance (w : Wallet) : List UnshieldedUtxoInfo :=
  w.unshieldedUtxos.map (fun u =>
    ⟨u.tokenType, u.value, !w.reservedUnshieldedKeys.contains u.spentKey⟩)

def shieldedBalance (w : Wallet) : ShieldedBalance :=
  let coins := w.coins.map (fun c =>
    ⟨c.tokenType, c.value, !w.reservedShieldedNullifiers.contains c.nullifier⟩)
  ⟨coins, coins.length⟩

def balance (w : Wallet) : WalletBalance :=
  ⟨w.dustBalance L, w.unshieldedBalance, w.shieldedBalance⟩

end Wallet

/-- The Dust that a selection can still draw on. -/
def DustWallet.remaining (d : DustWallet) : Option (List DustNullifier) :=
  d.dustLocalState.map (fun state => state.filter (fun n => !d.spentUtxos.contains n))

/-- A balance says of each coin and UTXO that the wallet holds whether the view offers it,
and values the Dust that the view leaves. -/
structure Shows (L : DustLedger) (h : Helpers) (w : Wallet) (ctx : BuildContext)
    (view : ContextWallet) : Prop where
  utxos : (w.balance L).unshielded =
    w.unshieldedUtxos.map (fun u => ⟨u.tokenType, u.value, decide (u ∈ ctx.utxos)⟩)
  coins : (w.balance L).shielded.coins =
    w.coins.map (fun c => ⟨c.tokenType, c.value, decide (c ∈ view.coins)⟩)
  count : (w.balance L).shielded.totalCount = w.coins.length
  heldUtxos : ctx.utxos.Sublist w.unshieldedUtxos
  heldCoins : view.coins.Sublist w.coins
  withheldUtxos : ∀ e ∈ w.pending.unshielded, w.reservationHolds e.expiresAt = true →
    ∀ u ∈ ctx.utxos, u.spentKey ≠ e.key
  withheldCoins : ∀ e ∈ w.pending.shielded, w.reservationHolds e.expiresAt = true →
    ∀ c ∈ view.coins, c.nullifier ≠ e.nullifier
  dustUtxos : (w.balance L).dust.spendableUtxos = (view.dust.remaining.map List.length).getD 0
  dustTime : ∀ bc, w.blockContext = some bc → (ctx.block h).tblock = bc.tblock
  dustSpeck : w.blockContext.isSome = true → (w.balance L).dust.spendableSpeck =
    (view.dust.remaining.map (L.walletBalance · (ctx.block h).tblock)).getD 0

/-- The wallet itself marks no Dust as spent: the marks go on the clones of its views. -/
def Unmarked (w : Wallet) : Prop := w.dustWallet.spentUtxos = []

section Evictions

variable (w : Wallet)

theorem evict_coins : w.evict.coins = w.coins := by
  unfold Wallet.evict
  split <;> rfl

theorem evict_dustWallet : w.evict.dustWallet = w.dustWallet := by
  unfold Wallet.evict
  split <;> rfl

theorem evict_reservationHolds (expiresAt : Timestamp) :
    w.evict.reservationHolds expiresAt = w.reservationHolds expiresAt := by
  unfold Wallet.reservationHolds
  rw [evict_blockContext]

/-- An eviction keeps exactly the reservations that hold. -/
theorem evict_pending : w.evict.pending =
    ⟨w.pending.dust.filter (fun b => w.reservationHolds b.expiresAt),
      w.pending.unshielded.filter (fun e => w.reservationHolds e.expiresAt),
      w.pending.shielded.filter (fun e => w.reservationHolds e.expiresAt)⟩ := by
  unfold Wallet.evict Wallet.reservationHolds
  cases w.blockContext with
  | none => simp only [Option.all_none, List.filter_true]
  | some bc => rfl

theorem evict_spendableUtxos : w.evict.spendableUtxos = w.spendableUtxos := by
  have hkeys : w.evict.reservedUnshieldedKeys = w.reservedUnshieldedKeys := by
    unfold Wallet.reservedUnshieldedKeys
    simp only [evict_reservationHolds, evict_pending, List.filter_filter, Bool.and_self]
  unfold Wallet.spendableUtxos
  rw [hkeys, evict_unshieldedUtxos]

theorem evict_spendableCoins : w.evict.spendableCoins = w.spendableCoins := by
  have hnullifiers : w.evict.reservedShieldedNullifiers = w.reservedShieldedNullifiers := by
    unfold Wallet.reservedShieldedNullifiers
    simp only [evict_reservationHolds, evict_pending, List.filter_filter, Bool.and_self]
  unfold Wallet.spendableCoins
  rw [hnullifiers, evict_coins]

end Evictions

section Views

theorem foldl_markSpent_eq (batches : List PendingDustBatch) (spent : List DustNullifier)
    (state : List DustNullifier) :
    batches.foldl (fun d b => DustWallet.markSpent d b.spends state) ⟨some state, spent⟩ =
      ⟨some state, spent ++ batches.flatMap (fun b => b.spends.map DustSpend.oldNullifier)⟩ := by
  induction batches generalizing spent with
  | nil => rw [List.flatMap_nil, List.append_nil, List.foldl_nil]
  | cons b bs ih => rw [List.foldl_cons, DustWallet.markSpent, ih, List.flatMap_cons,
      List.append_assoc]

/-- Removed one after the other, the UTXOs that stay are those with no nullifier listed. -/
theorem foldl_removeUtxo (L : DustLedger) (ns state : List DustNullifier) :
    ns.foldl L.removeUtxo state = state.filter (fun n => !ns.contains n) := by
  induction ns generalizing state with
  | nil => simp only [List.foldl_nil, List.contains_nil, Bool.not_false, List.filter_true]
  | cons n ns ih =>
    rw [List.foldl_cons, ih, L.removes, List.filter_filter]
    refine List.filter_congr (fun m _ => ?_)
    simp only [List.contains_cons, Bool.not_or, ne_eq, decide_not, Bool.and_comm, beq_eq_decide]

/-- The Dust wallet of a view: the state of the wallet, with every reserved UTXO marked. -/
theorem fundedDust_evict {w : Wallet} {d : DustWallet} (hw : Unmarked w)
    (h : w.evict.fundedDust = .ok d) :
    d = ⟨w.dustWallet.dustLocalState, w.reservedDustNullifiers⟩ := by
  have hmarks : w.evict.pending.dust.flatMap (fun b => b.spends.map DustSpend.oldNullifier) =
      w.reservedDustNullifiers := by
    rw [evict_pending]
    rfl
  have hwallet : w.dustWallet = ⟨w.dustWallet.dustLocalState, []⟩ := by
    unfold Unmarked at hw
    rw [← hw]
  unfold Wallet.fundedDust at h
  rw [evict_dustWallet, hwallet] at h
  cases hstate : w.dustWallet.dustLocalState with
  | some state =>
    simp only [hstate, foldl_markSpent_eq, List.nil_append, hmarks] at h
    exact (Except.ok.inj h).symm
  | none =>
    simp only [hstate] at h
    by_cases hnone : w.evict.pending.dust.isEmpty = true
    · rw [if_pos hnone] at h
      rw [← hmarks, List.isEmpty_iff.mp hnone]
      exact (Except.ok.inj h).symm
    · rw [if_neg hnone] at h
      cases h

/-- The funding of a new context, with the view that it gives. -/
theorem addFunding_view {w w' : Wallet} {ctx ctx' : BuildContext} (hw : Unmarked w)
    (hutxos : ctx.utxos = []) (h : w.addFunding ctx = (w', ctx', .ok ())) :
    ctx'.utxos = w.spendableUtxos ∧ ctx'.latestBlockContext = w.blockContext ∧
      ctx'.wallet = some ⟨w.spendableCoins,
        ⟨w.dustWallet.dustLocalState, w.reservedDustNullifiers⟩⟩ := by
  have hblock := addFunding_block h
  unfold Wallet.addFunding at h
  by_cases hfunded : ctx.wallet.isSome = true
  · rw [if_pos hfunded] at h
    cases h
  · rw [if_neg hfunded] at h
    obtain ⟨-, hfund⟩ := Prod.mk.inj h
    unfold Wallet.fund at hfund
    cases hdust : w.evict.fundedDust with
    | error e =>
      rw [hdust] at hfund
      cases hfund
    | ok dust =>
      rw [hdust] at hfund
      cases hfund
      rw [fundedDust_evict hw hdust] at hblock ⊢
      rw [evict_spendableUtxos, evict_spendableCoins, hutxos, List.nil_append]
      exact ⟨rfl, hblock, rfl⟩

/-- A new context is refused exactly for want of a Dust state to mark. -/
theorem addFunding_ok_iff (w : Wallet) {ctx : BuildContext} (hwallet : ctx.wallet = none) :
    (w.addFunding ctx).2.2 = .ok () ↔
      w.dustWallet.dustLocalState.isSome = true ∨
        ∀ b ∈ w.pending.dust, w.reservationHolds b.expiresAt = false := by
  have hheld : w.evict.pending.dust.isEmpty = true ↔
      ∀ b ∈ w.pending.dust, w.reservationHolds b.expiresAt = false := by
    rw [evict_pending, List.isEmpty_iff, List.filter_eq_nil_iff]
    simp only [Bool.not_eq_true]
  have hanswer : (w.addFunding ctx).2.2 = (w.evict.fundedDust).map (fun _ => ()) := by
    unfold Wallet.addFunding Wallet.fund
    rw [hwallet]
    cases w.evict.fundedDust with
    | error e => rfl
    | ok d => rfl
  rw [hanswer, ← hheld]
  unfold Wallet.fundedDust
  rw [evict_dustWallet]
  cases w.dustWallet.dustLocalState with
  | some state => simp only [Except.map, Option.isSome_some, true_or]
  | none =>
    by_cases hnone : w.evict.pending.dust.isEmpty = true
    · simp only [hnone, if_true, Except.map, or_true]
    · simp only [hnone, Except.map, reduceCtorEq, Option.isSome_none, or_self, Bool.false_eq_true,
        if_false]

/-- The balance is what a view of the same state offers. -/
theorem addFunding_shows (L : DustLedger) (h : Helpers) {w w' : Wallet} {ctx ctx' : BuildContext}
    (hw : Unmarked w) (hutxos : ctx.utxos = []) (hfund : w.addFunding ctx = (w', ctx', .ok ())) :
    ∃ view, ctx'.wallet = some view ∧ Shows L h w ctx' view := by
  obtain ⟨hview, hblock, hwallet⟩ := addFunding_view hw hutxos hfund
  refine ⟨_, hwallet, ?_⟩
  have hremaining : DustWallet.remaining ⟨w.dustWallet.dustLocalState, w.reservedDustNullifiers⟩ =
      w.dustWallet.dustLocalState.map (fun state =>
        w.reservedDustNullifiers.foldl L.removeUtxo state) := by
    simp only [DustWallet.remaining, foldl_removeUtxo]
  have htime : ∀ bc, w.blockContext = some bc → (ctx'.block h).tblock = bc.tblock := by
    intro bc hbc
    rw [BuildContext.block, hblock, hbc]
    rfl
  constructor
  case utxos =>
    refine List.map_congr_left (fun u hu => ?_)
    have hflag : (!w.reservedUnshieldedKeys.contains u.spentKey) = decide (u ∈ ctx'.utxos) := by
      rw [hview, Bool.eq_iff_iff, decide_eq_true_iff, Wallet.spendableUtxos, List.mem_filter]
      exact ⟨fun hfree => ⟨hu, hfree⟩, fun hmem => hmem.2⟩
    rw [hflag]
  case coins =>
    refine List.map_congr_left (fun c hc => ?_)
    have hflag : (!w.reservedShieldedNullifiers.contains c.nullifier) =
        decide (c ∈ w.spendableCoins) := by
      rw [Bool.eq_iff_iff, decide_eq_true_iff, Wallet.spendableCoins, List.mem_filter]
      exact ⟨fun hfree => ⟨hc, hfree⟩, fun hmem => hmem.2⟩
    rw [hflag]
  case count => exact List.length_map _
  case heldUtxos =>
    rw [hview]
    exact List.filter_sublist
  case heldCoins => exact List.filter_sublist
  case withheldUtxos =>
    intro e he hholds u hu hkey
    rw [hview] at hu
    have hreserved : e.key ∈ w.reservedUnshieldedKeys :=
      List.mem_map_of_mem (List.mem_filter.mpr ⟨he, hholds⟩)
    have hfree := (List.mem_filter.mp hu).2
    rw [hkey] at hfree
    simp only [List.contains_iff_mem.mpr hreserved, Bool.not_true, Bool.false_eq_true] at hfree
  case withheldCoins =>
    intro e he hholds c hc hnullifier
    have hreserved : e.nullifier ∈ w.reservedShieldedNullifiers :=
      List.mem_map_of_mem (List.mem_filter.mpr ⟨he, hholds⟩)
    have hfree := (List.mem_filter.mp hc).2
    rw [hnullifier] at hfree
    simp only [List.contains_iff_mem.mpr hreserved, Bool.not_true, Bool.false_eq_true] at hfree
  case dustUtxos =>
    rw [hremaining]
    rfl
  case dustTime => exact htime
  case dustSpeck =>
    intro hsome
    obtain ⟨bc, hbc⟩ := Option.isSome_iff_exists.mp hsome
    rw [hremaining, htime bc hbc]
    simp only [Wallet.balance, Wallet.dustBalance, hbc, Option.map_some, Option.getD_some]

end Views

end MidnightRs.WalletBuilds

namespace MidnightRs.Ownership

open Loops Reservations WalletBuilds

section Marks

/-- A replay marks no Dust, so a wallet that a sync or a resync brings is unmarked. -/
def Action.Replayed : Action → Prop
  | .commitResync commit => commit.dustWallet.spentUtxos = []
  | .rebuild fresh => Unmarked fresh
  | .cross fresh => Unmarked fresh
  | _ => True

def ReplayedStep (w : World) (a : Action) (w' : World) : Prop := a.Replayed ∧ Step w a w'

variable {w : Wallet}

theorem unmarked_evict (hw : Unmarked w) : Unmarked w.evict := by
  unfold Unmarked
  rw [evict_dustWallet]
  exact hw

theorem unmarked_addFunding (hw : Unmarked w) (ctx : BuildContext) :
    Unmarked (w.addFunding ctx).1 := by
  rw [Wallet.addFunding_wallet]
  split
  · exact hw
  · exact unmarked_evict hw

theorem unmarked_reserveDraft (hw : Unmarked w) (h : Helpers) (ctx : BuildContext)
    (draft : Result Draft) : Unmarked (w.reserveDraft h ctx draft).1 := by
  cases draft with
  | error e => exact hw
  | ok draft => exact hw

theorem unmarked_prepareFunded (hw : Unmarked w) (h : Helpers) (ctx : BuildContext)
    (build : BuildContext → Result Draft) : Unmarked (w.prepareFunded h ctx build).1 := by
  have hfunded := unmarked_addFunding hw ctx
  unfold Wallet.prepareFunded
  rcases hfund : w.addFunding ctx with ⟨w', ctx', answer⟩
  rw [hfund] at hfunded
  cases answer with
  | error e => exact hfunded
  | ok _ => exact unmarked_reserveDraft hfunded h ctx' (build ctx')

theorem unmarked_prepareTransfer (hw : Unmarked w) (h : Helpers)
    (build : Wallet → BuildContext → Result Draft) : Unmarked (w.prepareTransfer h build).1 := by
  unfold Wallet.prepareTransfer
  cases w.executionContext h with
  | error e => exact hw
  | ok ctx =>
    have hfunded := unmarked_addFunding hw ctx
    simp only
    rcases hfund : w.addFunding ctx with ⟨w', ctx', answer⟩
    rw [hfund] at hfunded
    cases answer with
    | error e => exact hfunded
    | ok _ => exact unmarked_reserveDraft hfunded h ctx' (build w' ctx')

theorem unmarked_prepareFees (hw : Unmarked w) (h : Helpers) (ctx : BuildContext)
    (build : BuildContext → Result (Option Draft)) : Unmarked (w.prepareFees h ctx build).1 := by
  have hfunded := unmarked_addFunding hw ctx
  unfold Wallet.prepareFees
  rcases hfund : w.addFunding ctx with ⟨w', ctx', answer⟩
  rw [hfund] at hfunded
  cases answer with
  | error e => exact hfunded
  | ok _ =>
    simp only
    rcases build ctx' with e | _ | draft
    · exact hfunded
    · exact hfunded
    · exact hfunded

theorem unmarked_spendShielded (hw : Unmarked w) (h : Helpers) (ctx : BuildContext)
    (nullifiers : List Nullifier)
    (prepare : BuildContext → List Nullifier → Result (List PreparedInput)) :
    Unmarked (w.spendShielded h ctx nullifiers prepare).1 := by
  unfold Wallet.spendShielded
  by_cases hempty : nullifiers.isEmpty = true
  · rw [if_pos hempty]
    exact hw
  · rw [if_neg hempty]
    cases nullifiers.find? (fun n => w.reservedShieldedNullifiers.contains n) with
    | some taken => exact hw
    | none =>
      cases prepare ctx nullifiers with
      | error e => exact hw
      | ok prepared => exact hw

theorem unmarked_spendUnshielded (hw : Unmarked w) (h : Helpers) (ctx : BuildContext)
    (prepare : BuildContext → Result PreparedUnshielded) :
    Unmarked (w.spendUnshielded h ctx prepare).1 := by
  unfold Wallet.spendUnshielded
  cases prepare ctx with
  | error e => exact hw
  | ok prepared =>
    simp only
    cases prepared.spent.find? (fun key => w.reservedUnshieldedKeys.contains key) with
    | some taken => exact hw
    | none => exact hw

theorem World.afterPrepare_wallet (w : World) (r : Wallet × Result PreparedTransfer) :
    (w.afterPrepare r).wallet = r.1 := by
  rcases r with ⟨wallet, e | p⟩
  · rfl
  · rfl

theorem World.afterFees_wallet (w : World) (r : Wallet × Result (Option PreparedTransfer)) :
    (w.afterFees r).wallet = r.1 := by
  rcases r with ⟨wallet, e | _ | p⟩
  · rfl
  · rfl
  · rfl

theorem World.afterSpend_wallet {α : Type} (w : World) (expiresAt : Timestamp)
    (r : Wallet × Result (α × SpentInputs)) : (w.afterSpend expiresAt r).wallet = r.1 := by
  rcases r with ⟨wallet, e | p⟩
  · rfl
  · rfl

theorem unmarked_step (w : World) (a : Action) (w' : World) (hstep : ReplayedStep w a w')
    (hw : Unmarked w.wallet) : Unmarked w'.wallet := by
  obtain ⟨hreplayed, -, rfl⟩ := hstep
  cases a with
  | prepareTransfer h build =>
    rw [World.step, World.afterPrepare_wallet]
    exact unmarked_prepareTransfer hw h build
  | prepareFunded h ctx build =>
    rw [World.step, World.afterPrepare_wallet]
    exact unmarked_prepareFunded hw h ctx build
  | prepareFees h ctx build =>
    rw [World.step, World.afterFees_wallet]
    exact unmarked_prepareFees hw h ctx build
  | spendShielded h ctx nullifiers prepare =>
    rw [World.step, World.afterSpend_wallet]
    exact unmarked_spendShielded hw h ctx nullifiers prepare
  | spendUnshielded h ctx prepare =>
    rw [World.step, World.afterSpend_wallet]
    exact unmarked_spendUnshielded hw h ctx prepare
  | addFunding ctx => exact unmarked_addFunding hw ctx
  | commitResync commit => exact hreplayed
  | rebuild fresh => exact @unmarked_evict { fresh with pending := w.wallet.pending } hreplayed
  | cross fresh => exact hreplayed
  | commitShieldedRescan coins => exact hw
  | release i =>
    rw [World.step]
    unfold World.releaseBuild
    cases w.builds[i]? with
    | none => exact hw
    | some b => exact hw

end Marks

section Balances

variable (L : DustLedger) (h : Helpers)

/-- In every state that a wallet reaches, the balance is what the view of a new build
offers. The view is refused exactly where a reservation holds Dust and the wallet has no
Dust state. -/
theorem balance_is_view {wallet : Wallet} (hwallet : Unmarked wallet) {as : List Action}
    {w : World} (hrun : Run ReplayedStep (World.start wallet) as w) {ctx : BuildContext}
    (hctx : w.wallet.executionContext h = .ok ctx) :
    ((w.wallet.addFunding ctx).2.2 = .ok () ↔
      w.wallet.dustWallet.dustLocalState.isSome = true ∨
        ∀ b ∈ w.wallet.pending.dust, w.wallet.reservationHolds b.expiresAt = false) ∧
    ∀ w' ctx', w.wallet.addFunding ctx = (w', ctx', .ok ()) →
      ∃ view, ctx'.wallet = some view ∧ Shows L h w.wallet ctx' view := by
  have hunmarked : Unmarked w.wallet :=
    hrun.invariant (fun w => Unmarked w.wallet) unmarked_step hwallet
  have hnew : ctx.utxos = [] ∧ ctx.wallet = none := by
    unfold Wallet.executionContext at hctx
    split at hctx
    · cases hctx
      exact ⟨rfl, rfl⟩
    · cases hctx
  exact ⟨addFunding_ok_iff w.wallet hnew.2, fun w' ctx' hfund =>
    addFunding_shows L h hunmarked hnew.1 hfund⟩

/-- A Dust UTXO is worth one for each second. -/
def steadyDust : DustLedger :=
  ⟨fun state now => state.length * now, fun state n => state.filter (fun m => decide (m ≠ n)),
    fun _ _ => rfl⟩

/-- Of two coins one is reserved, and the reservation of the Dust expired. -/
def reservedWallet : Wallet :=
  ⟨[⟨[1], [0], 5⟩, ⟨[2], [0], 7⟩], ⟨some [[3], [4]], []⟩, [⟨[0], 5, [7], 0, none, none⟩],
    ⟨3600, 3600⟩, some ⟨1000, 1600⟩,
    ⟨[⟨[⟨1, [3]⟩], 900, 1599⟩], [], [⟨[1], 900, 1600⟩]⟩⟩

def quietHelpers : Helpers := ⟨⟨10, 10⟩, fun _ => .ok (), fun _ => "nullifier", fun _ => "key"⟩

theorem balance_is_view_reserved :
    (reservedWallet.balance steadyDust).shielded.coins = [⟨[0], 5, false⟩, ⟨[0], 7, true⟩] ∧
    (reservedWallet.balance steadyDust).dust.spendableSpeck = 2000 ∧
    ∃ view, (reservedWallet.addFunding ⟨⟨3600, 3600⟩, some ⟨1000, 1600⟩, [], none⟩).2.1.wallet =
        some view ∧
      Shows steadyDust quietHelpers reservedWallet
        (reservedWallet.addFunding ⟨⟨3600, 3600⟩, some ⟨1000, 1600⟩, [], none⟩).2.1 view :=
  ⟨rfl, rfl, (balance_is_view steadyDust quietHelpers (show Unmarked reservedWallet from rfl)
    (.nil (World.start reservedWallet)) rfl).2 _ _ rfl⟩

/-- No Dust state, and a reservation of Dust. -/
def dustlessWallet : Wallet :=
  ⟨[⟨[1], [0], 5⟩], ⟨none, []⟩, [], ⟨3600, 3600⟩, some ⟨1000, 1000⟩,
    ⟨[⟨[⟨1, [3]⟩], 900, 2000⟩], [], []⟩⟩

/-- No block context yet. -/
def unsyncedWallet : Wallet := ⟨[], ⟨some [[3]], []⟩, [], ⟨3600, 3600⟩, none, .default⟩

/-- A coin is flagged spendable where no build gets a view, and with no block context the
Dust is valued at another time than that of a build. -/
theorem refused_view_flagged :
    (dustlessWallet.balance steadyDust).shielded.coins = [⟨[0], 5, true⟩] ∧
    (dustlessWallet.addFunding ⟨⟨3600, 3600⟩, some ⟨1000, 1000⟩, [], none⟩).2.2 =
      .error (Wallet.noDustState 1) ∧
    (dustlessWallet.addFunding ⟨⟨3600, 3600⟩, some ⟨1000, 1000⟩, [], none⟩).2.1.wallet = none ∧
    (unsyncedWallet.balance steadyDust).dust.spendableSpeck = 0 ∧
    ∃ view, (unsyncedWallet.addFunding ⟨⟨3600, 3600⟩, none, [], none⟩).2.1.wallet = some view ∧
      (view.dust.remaining.map (steadyDust.walletBalance · ((unsyncedWallet.addFunding
        ⟨⟨3600, 3600⟩, none, [], none⟩).2.1.block quietHelpers).tblock)).getD 0 = 10 :=
  ⟨rfl, rfl, rfl, rfl, _, rfl, rfl⟩

end Balances

end MidnightRs.Ownership
