import MidnightRs.Loops
import MidnightRs.WalletBuilds

/-!
Who owns a reservation. A world is a wallet with the history of the builds made
on it: the entries each one recorded, what its release names, and whether that
release happened. The history only observes. A release finds its entries by
input and block time, so it takes another build's entry exactly when both
recorded one input at one block time.
-/
namespace MidnightRs.Ownership

open Loops Reservations WalletBuilds

structure Build where
  made : PendingReservations
  spent : SpentInputs
  released : Bool
deriving DecidableEq

structure World where
  wallet : Wallet
  builds : List Build
deriving DecidableEq

/-- The entries a wallet starts with are those of one earlier build. -/
def World.start (wallet : Wallet) : World :=
  ⟨wallet, [⟨wallet.pending, wallet.pending.spentInputs, false⟩]⟩

/-- The operations on one wallet. A builder is any function of what it reads. -/
inductive Action where
  | prepareTransfer (h : Helpers) (build : Wallet → BuildContext → Result Draft)
  | prepareFunded (h : Helpers) (ctx : BuildContext) (build : BuildContext → Result Draft)
  | prepareFees (h : Helpers) (ctx : BuildContext) (build : BuildContext → Result (Option Draft))
  | spendShielded (h : Helpers) (ctx : BuildContext) (nullifiers : List Nullifier)
      (prepare : BuildContext → List Nullifier → Result (List PreparedInput))
  | spendUnshielded (h : Helpers) (ctx : BuildContext)
      (prepare : BuildContext → Result PreparedUnshielded)
  | addFunding (ctx : BuildContext)
  | commitResync (commit : Wallet.ResyncCommit)
  | rebuild (fresh : Wallet)
  | cross (fresh : Wallet)
  | commitShieldedRescan (coins : List Coin)
  | release (i : ℕ)

namespace World

/-- A finished build joins the history with the entries it recorded. -/
def booked (w : World) (wallet : Wallet) (made : PendingReservations) (spent : SpentInputs) :
    World :=
  ⟨wallet, w.builds ++ [⟨made, spent, false⟩]⟩

def afterPrepare (w : World) : Wallet × Result PreparedTransfer → World
  | (wallet, .ok p) => w.booked wallet p.made p.spentInputs
  | (wallet, .error _) => { w with wallet := wallet }

def afterFees (w : World) : Wallet × Result (Option PreparedTransfer) → World
  | (wallet, .ok (some p)) => w.booked wallet p.made p.spentInputs
  | (wallet, .ok none) => { w with wallet := wallet }
  | (wallet, .error _) => { w with wallet := wallet }

/-- The entries of a spend are held until the longest TTL of its context. -/
def afterSpend {α : Type} (w : World) (expiresAt : Timestamp) :
    Wallet × Result (α × SpentInputs) → World
  | (wallet, .ok (_, spent)) =>
    w.booked wallet
      ⟨[], spent.unshielded.map (fun u => ⟨u.input, u.reservedAt, expiresAt⟩),
        spent.shielded.map (fun s => ⟨s.input, s.reservedAt, expiresAt⟩)⟩ spent
  | (wallet, .error _) => { w with wallet := wallet }

def releaseBuild (w : World) (i : ℕ) : World :=
  match w.builds[i]? with
  | none => w
  | some b => ⟨w.wallet.release b.spent, w.builds.set i { b with released := true }⟩

def step (w : World) : Action → World
  | .prepareTransfer h build => w.afterPrepare (w.wallet.prepareTransfer h build)
  | .prepareFunded h ctx build => w.afterPrepare (w.wallet.prepareFunded h ctx build)
  | .prepareFees h ctx build => w.afterFees (w.wallet.prepareFees h ctx build)
  | .spendShielded h ctx nullifiers prepare =>
    w.afterSpend (ctx.longestTtl h) (w.wallet.spendShielded h ctx nullifiers prepare)
  | .spendUnshielded h ctx prepare =>
    w.afterSpend (ctx.longestTtl h) (w.wallet.spendUnshielded h ctx prepare)
  | .addFunding ctx => { w with wallet := (w.wallet.addFunding ctx).1 }
  | .commitResync commit => { w with wallet := w.wallet.commitResync commit }
  | .rebuild fresh => { w with wallet := fresh.adoptPending w.wallet }
  | .cross fresh => { w with wallet := { fresh with pending := .default } }
  | .commitShieldedRescan coins => { w with wallet := w.wallet.commitShieldedRescan coins }
  | .release i => w.releaseBuild i

/-- The inputs a step newly selects, under the block time of its context. -/
def selected (w : World) : Action → List (Input × Timestamp)
  | .prepareTransfer h build =>
    match w.wallet.executionContext h with
    | .error _ => []
    | .ok ctx =>
      match w.wallet.addFunding ctx with
      | (_, _, .error _) => []
      | (wallet, ctx, .ok ()) => draftNamed h ctx (build wallet ctx)
  | .prepareFunded h ctx build =>
    match w.wallet.addFunding ctx with
    | (_, _, .error _) => []
    | (_, ctx, .ok ()) => draftNamed h ctx (build ctx)
  | .prepareFees h ctx build =>
    match w.wallet.addFunding ctx with
    | (_, _, .error _) => []
    | (_, ctx, .ok ()) =>
      match build ctx with
      | .ok (some draft) => draftNamed h ctx (.ok draft)
      | _ => []
  | .spendShielded h ctx nullifiers _ =>
    (SpentInputs.fromShielded nullifiers (ctx.block h).tblock).named
  | .spendUnshielded h ctx prepare =>
    match prepare ctx with
    | .ok prepared => (SpentInputs.fromUnshielded prepared.spent (ctx.block h).tblock).named
    | .error _ => []
  | _ => []
where
  draftNamed (h : Helpers) (ctx : BuildContext) : Result Draft → List (Input × Timestamp)
    | .ok draft => (draft.spentInputs (ctx.block h).tblock).named
    | .error _ => []

/-- A build is released at most once. -/
def Allowed (w : World) : Action → Prop
  | .release i => ∃ b, w.builds[i]? = some b ∧ b.released = false
  | _ => True

/-- No build that may still be released recorded, at this same block time, an
input that the step selects. -/
def Fresh (w : World) (a : Action) : Prop :=
  ∀ b ∈ w.builds, b.released = false → ∀ tag ∈ w.selected a, tag ∉ b.spent.named

/-- The entries the wallet holds that build `b` recorded. -/
def heldOf (w : World) (b : Build) : List Entry :=
  w.wallet.pending.entries.filter (fun e => decide (e ∈ b.made.entries))

end World

def Step (w : World) (a : Action) (w' : World) : Prop := w.Allowed a ∧ w' = w.step a

def FreshStep (w : World) (a : Action) (w' : World) : Prop := w.Fresh a ∧ Step w a w'

namespace Build

/-- The release of a build names every tag of what it recorded. -/
def Reported (b : Build) : Prop := ∀ e ∈ b.made.entries, ∀ tag ∈ e.tags, tag ∈ b.spent.named

end Build

/-- The wallet of `w'` holds nothing that `w` did not, except for `made`. -/
def Grows (w w' : Wallet) (made : PendingReservations) : Prop :=
  ∀ e ∈ w'.pending.entries, e ∈ w.pending.entries ∨ e ∈ made.entries

theorem Grows.refl (w : Wallet) (made : PendingReservations) : Grows w w made :=
  fun _ he => .inl he

theorem Grows.reserve {w w' : Wallet} (h : Grows w w' .default) (dust : List DustSpendBatch)
    (unshielded : List SpentUtxoKey) (shielded : List Nullifier)
    (reservedAt expiresAt : Timestamp) :
    Grows w (w'.reservePending dust unshielded shielded reservedAt expiresAt)
      (.made dust unshielded shielded reservedAt expiresAt) := by
  intro e he
  rcases (PendingReservations.mem_entries_append _ _ e).1 he with hold | hnew
  · rcases h e hold with h | h
    · exact .inl h
    · simp [PendingReservations.default, PendingReservations.entries] at h
  · exact .inr hnew

theorem grows_evict (w : Wallet) : Grows w w.evict .default := by
  intro e he
  unfold Wallet.evict at he
  cases hbc : w.blockContext with
  | none =>
    rw [hbc] at he
    exact .inl he
  | some bc =>
    rw [hbc] at he
    simp only [PendingReservations.entries_evictExpired] at he
    exact .inl (List.mem_of_mem_filter he)

theorem grows_addFunding (w : Wallet) (ctx : BuildContext) :
    Grows w (w.addFunding ctx).1 .default := by
  rw [Wallet.addFunding_wallet]
  split
  · exact Grows.refl w _
  · exact grows_evict w

/-- The three things a step does to a world: it drops entries, it books one
build, or it releases one. -/
inductive Effect (w : World) (a : Action) : World → Prop
  | kept (wallet : Wallet) (h : Grows w.wallet wallet .default) : Effect w a { w with wallet }
  | booked (wallet : Wallet) (made : PendingReservations) (spent : SpentInputs)
      (h : Grows w.wallet wallet made) (hmade : Build.Reported ⟨made, spent, false⟩)
      (hspent : ∀ tag ∈ spent.named, tag ∈ w.selected a) :
      Effect w a (w.booked wallet made spent)
  | released (i : ℕ) (b : Build) (ha : a = .release i) (hb : w.builds[i]? = some b) :
      Effect w a (w.releaseBuild i)

theorem grows_commitResync (w : Wallet) (c : Wallet.ResyncCommit) :
    Grows w (w.commitResync c) .default := by
  intro e he
  simp only [Wallet.commitResync, PendingReservations.entries_clearConfirmed] at he
  exact .inl (List.mem_of_mem_filter he)

theorem grows_adoptPending (w fresh : Wallet) : Grows w (fresh.adoptPending w) .default :=
  grows_evict { fresh with pending := w.pending }

theorem made_spentInputs (p : PreparedTransfer) :
    p.made.spentInputs = p.spentInputs := by
  unfold PreparedTransfer.made PreparedTransfer.spentInputs PendingReservations.spentInputs
    PendingReservations.made SpentInputs.stamped
  simp [List.flatMap_map, List.map_flatMap, Function.comp_def]

theorem reported_prepared (p : PreparedTransfer) :
    Build.Reported ⟨p.made, p.spentInputs, false⟩ := by
  intro e he tag htag
  have hnamed := (PendingReservations.mem_named_spentInputs p.made tag).2 ⟨e, he, htag⟩
  rwa [made_spentInputs] at hnamed

theorem effect_reserveDraft (w : World) (a : Action) (h : Helpers) (wallet : Wallet)
    (ctx : BuildContext) (draft : Result Draft) (hgrows : Grows w.wallet wallet .default)
    (hselected : w.selected a = World.selected.draftNamed h ctx draft) :
    Effect w a (w.afterPrepare (wallet.reserveDraft h ctx draft)) := by
  cases draft with
  | error e => exact .kept wallet hgrows
  | ok draft =>
    refine .booked _ _ _ (hgrows.reserve _ _ _ _ _) (reported_prepared _) ?_
    rw [hselected]
    exact fun _ htag => htag

theorem effect_prepareTransfer (w : World) (h : Helpers)
    (build : Wallet → BuildContext → Result Draft) :
    Effect w (.prepareTransfer h build) (w.step (.prepareTransfer h build)) := by
  simp only [World.step, Wallet.prepareTransfer]
  cases hctx : w.wallet.executionContext h with
  | error e => exact .kept w.wallet (Grows.refl _ _)
  | ok ctx =>
    have hgrows := grows_addFunding w.wallet ctx
    rcases hfund : w.wallet.addFunding ctx with ⟨wallet, ctx', _ | _⟩
    · rw [hfund] at hgrows
      simp only [hfund]
      exact .kept wallet hgrows
    · rw [hfund] at hgrows
      simp only [hfund]
      refine effect_reserveDraft w _ h wallet ctx' _ hgrows ?_
      simp only [World.selected, hctx, hfund]

theorem effect_prepareFunded (w : World) (h : Helpers) (ctx : BuildContext)
    (build : BuildContext → Result Draft) :
    Effect w (.prepareFunded h ctx build) (w.step (.prepareFunded h ctx build)) := by
  simp only [World.step, Wallet.prepareFunded]
  have hgrows := grows_addFunding w.wallet ctx
  rcases hfund : w.wallet.addFunding ctx with ⟨wallet, ctx', _ | _⟩
  · rw [hfund] at hgrows
    exact .kept wallet hgrows
  · rw [hfund] at hgrows
    refine effect_reserveDraft w _ h wallet ctx' _ hgrows ?_
    simp only [World.selected, hfund]

theorem effect_prepareFees (w : World) (h : Helpers) (ctx : BuildContext)
    (build : BuildContext → Result (Option Draft)) :
    Effect w (.prepareFees h ctx build) (w.step (.prepareFees h ctx build)) := by
  simp only [World.step, Wallet.prepareFees]
  have hgrows := grows_addFunding w.wallet ctx
  rcases hfund : w.wallet.addFunding ctx with ⟨wallet, ctx', _ | _⟩
  · rw [hfund] at hgrows
    exact .kept wallet hgrows
  · rw [hfund] at hgrows
    rcases hbuild : build ctx' with e | _ | draft
    · simp only [hbuild]
      exact .kept wallet hgrows
    · simp only [hbuild]
      exact .kept wallet hgrows
    · simp only [hbuild]
      refine .booked _ _ _ (hgrows.reserve _ _ _ _ _) (reported_prepared _) ?_
      simp only [World.selected, hfund, hbuild]
      exact fun _ htag => htag

/-- The entries of a spend, from what it reports. -/
theorem reported_spend (unshielded : List (ReservedInput SpentUtxoKey))
    (shielded : List (ReservedInput Nullifier)) (expiresAt : Timestamp) :
    Build.Reported ⟨⟨[], unshielded.map (fun u => ⟨u.input, u.reservedAt, expiresAt⟩),
      shielded.map (fun s => ⟨s.input, s.reservedAt, expiresAt⟩)⟩,
      ⟨[], unshielded, shielded⟩, false⟩ := by
  intro e he tag htag
  have hnamed := (PendingReservations.mem_named_spentInputs _ tag).2 ⟨e, he, htag⟩
  simpa [PendingReservations.spentInputs, Function.comp_def] using hnamed

theorem effect_spendShielded (w : World) (h : Helpers) (ctx : BuildContext)
    (nullifiers : List Nullifier)
    (prepare : BuildContext → List Nullifier → Result (List PreparedInput)) :
    Effect w (.spendShielded h ctx nullifiers prepare)
      (w.step (.spendShielded h ctx nullifiers prepare)) := by
  simp only [World.step, Wallet.spendShielded]
  split
  · exact .booked _ _ _ (Grows.refl _ _) (reported_spend [] [] _) (by simp)
  · split
    · exact .kept _ (Grows.refl _ _)
    · cases hprepare : prepare ctx nullifiers with
      | error e => exact .kept _ (Grows.refl _ _)
      | ok prepared =>
        refine .booked _ _ _ ?_ (reported_spend [] _ _) (fun _ htag => htag)
        have hgrows := (Grows.refl w.wallet .default).reserve [] [] nullifiers
          (ctx.block h).tblock (ctx.longestTtl h)
        simpa [PendingReservations.made, SpentInputs.fromShielded, SpentInputs.stamped,
          SpentInputs.default, Function.comp_def] using hgrows

theorem effect_spendUnshielded (w : World) (h : Helpers) (ctx : BuildContext)
    (prepare : BuildContext → Result PreparedUnshielded) :
    Effect w (.spendUnshielded h ctx prepare) (w.step (.spendUnshielded h ctx prepare)) := by
  simp only [World.step, Wallet.spendUnshielded]
  cases hprepare : prepare ctx with
  | error e => exact .kept _ (Grows.refl _ _)
  | ok prepared =>
    simp only
    split
    · exact .kept _ (Grows.refl _ _)
    · refine .booked _ _ _ ?_ (reported_spend _ [] _) ?_
      · have hgrows := (Grows.refl w.wallet .default).reserve [] prepared.spent []
          (ctx.block h).tblock (ctx.longestTtl h)
        simpa [PendingReservations.made, SpentInputs.fromUnshielded, SpentInputs.stamped,
          SpentInputs.default, Function.comp_def] using hgrows
      · simp only [World.selected, hprepare]
        exact fun _ htag => htag

theorem step_effect (w : World) (a : Action) (ha : w.Allowed a) : Effect w a (w.step a) := by
  cases a with
  | prepareTransfer h build => exact effect_prepareTransfer w h build
  | prepareFunded h ctx build => exact effect_prepareFunded w h ctx build
  | prepareFees h ctx build => exact effect_prepareFees w h ctx build
  | spendShielded h ctx nullifiers prepare => exact effect_spendShielded w h ctx nullifiers prepare
  | spendUnshielded h ctx prepare => exact effect_spendUnshielded w h ctx prepare
  | addFunding ctx => exact .kept _ (grows_addFunding w.wallet ctx)
  | commitResync commit => exact .kept _ (grows_commitResync w.wallet commit)
  | rebuild fresh => exact .kept _ (grows_adoptPending w.wallet fresh)
  | cross fresh => exact .kept _ (fun _ he => .inr he)
  | commitShieldedRescan coins => exact .kept _ (fun _ he => .inl he)
  | release i =>
    obtain ⟨b, hb, _⟩ := ha
    exact .released i b rfl hb

/-- The history explains the wallet: every build reports what it recorded, two
builds that may still be released share no input at one block time, and an
entry that names anything belongs to such a build. -/
structure Explained (w : World) : Prop where
  reported : ∀ b ∈ w.builds, b.Reported
  apart : w.builds.Pairwise (fun a b => a.released = false → b.released = false →
    a.spent.named.Disjoint b.spent.named)
  owned : ∀ e ∈ w.wallet.pending.entries, e.tags = [] ∨
    ∃ b ∈ w.builds, b.released = false ∧ e ∈ b.made.entries

theorem explained_start (wallet : Wallet) : Explained (World.start wallet) where
  reported := by
    intro b hb e he tag htag
    rw [List.mem_singleton.1 hb] at he ⊢
    exact (PendingReservations.mem_named_spentInputs _ tag).2 ⟨e, he, htag⟩
  apart := List.pairwise_singleton _ _
  owned := fun e he => .inr ⟨_, List.mem_singleton_self _, rfl, he⟩

theorem pairwise_set {α : Type} {r : α → α → Prop} {l : List α} (h : l.Pairwise r) (i : ℕ)
    (x : α) (hleft : ∀ y, r x y) (hright : ∀ y, r y x) : (l.set i x).Pairwise r := by
  induction l generalizing i with
  | nil => exact h
  | cons y ys ih =>
    obtain ⟨hy, hys⟩ := List.pairwise_cons.1 h
    cases i with
    | zero => exact List.pairwise_cons.2 ⟨fun z _ => hleft z, hys⟩
    | succ i =>
      refine List.pairwise_cons.2 ⟨fun z hz => ?_, ih hys i⟩
      rcases List.mem_or_eq_of_mem_set hz with hold | rfl
      · exact hy z hold
      · exact hright y

theorem explained_kept {w : World} (hw : Explained w) (wallet : Wallet)
    (h : Grows w.wallet wallet .default) : Explained { w with wallet } where
  reported := hw.reported
  apart := hw.apart
  owned := by
    intro e he
    rcases h e he with hold | hnew
    · exact hw.owned e hold
    · simp [PendingReservations.default, PendingReservations.entries] at hnew

theorem explained_booked {w : World} (hw : Explained w) (wallet : Wallet)
    (made : PendingReservations) (spent : SpentInputs) (h : Grows w.wallet wallet made)
    (hmade : Build.Reported ⟨made, spent, false⟩)
    (hfresh : ∀ b ∈ w.builds, b.released = false → ∀ tag ∈ spent.named, tag ∉ b.spent.named) :
    Explained (w.booked wallet made spent) where
  reported := by
    intro b hb
    rcases List.mem_append.1 hb with hold | hnew
    · exact hw.reported b hold
    · rw [List.mem_singleton.1 hnew]
      exact hmade
  apart := by
    refine List.pairwise_append.2 ⟨hw.apart, List.pairwise_singleton _ _, ?_⟩
    intro b hb new hnew hreleased _ tag htag htag'
    rw [List.mem_singleton.1 hnew] at htag'
    exact hfresh b hb hreleased tag htag' htag
  owned := by
    intro e he
    rcases h e he with hold | hnew
    · rcases hw.owned e hold with hnone | ⟨b, hb, hreleased, hmem⟩
      · exact .inl hnone
      · exact .inr ⟨b, List.mem_append_left _ hb, hreleased, hmem⟩
    · exact .inr ⟨_, List.mem_append_right _ (List.mem_singleton_self _), rfl, hnew⟩

/-- What a release leaves of an entry's build: another build's entry has the
build it had, and an entry of the released build names nothing. -/
theorem explained_released {w : World} (hw : Explained w) (i : ℕ) (b : Build)
    (hb : w.builds[i]? = some b) : Explained (w.releaseBuild i) := by
  have hbmem := List.mem_of_getElem? hb
  unfold World.releaseBuild
  simp only [hb]
  refine ⟨?_, pairwise_set hw.apart i _ ?_ ?_, ?_⟩
  · intro c hc
    rcases List.mem_or_eq_of_mem_set hc with hold | rfl
    · exact hw.reported c hold
    · exact hw.reported b hbmem
  · intro c hreleased
    simp at hreleased
  · intro c _ hreleased
    simp at hreleased
  · intro e he
    simp only [Wallet.release, PendingReservations.entries_release, List.mem_filter,
      Bool.not_eq_true', Entry.takenBy_eq_false_iff] at he
    obtain ⟨hold, hkept⟩ := he
    rcases hw.owned e hold with hnone | ⟨c, hc, hreleased, hmem⟩
    · exact .inl hnone
    · obtain ⟨j, hj⟩ := List.mem_iff_getElem?.1 hc
      by_cases hij : j = i
      · subst j
        obtain rfl := Option.some.inj (hb.symm.trans hj)
        refine .inl (List.eq_nil_iff_forall_not_mem.2 fun tag htag => ?_)
        exact hkept tag htag (hw.reported b hbmem e hmem tag htag)
      · refine .inr ⟨c, ?_, hreleased, hmem⟩
        refine List.mem_iff_getElem?.2 ⟨j, ?_⟩
        rw [List.getElem?_set_ne (Ne.symm hij)]
        exact hj

theorem explained_step (w : World) (a : Action) (w' : World) (hstep : FreshStep w a w')
    (hw : Explained w) : Explained w' := by
  obtain ⟨hfresh, hallowed, hw'⟩ := hstep
  have heffect := step_effect w a hallowed
  rw [← hw'] at heffect
  cases heffect with
  | kept wallet h => exact explained_kept hw wallet h
  | booked wallet made spent h hmade hspent =>
    exact explained_booked hw wallet made spent h hmade
      (fun b hb hreleased tag htag => hfresh b hb hreleased tag (hspent tag htag))
  | released i b _ hb => exact explained_released hw i b hb

theorem explained_run {wallet : Wallet} {as : List Action} {w : World}
    (hrun : Run FreshStep (World.start wallet) as w) : Explained w :=
  hrun.invariant Explained explained_step (explained_start wallet)

theorem apart_of_ne {w : World} (hw : Explained w) {i j : ℕ} {a b : Build}
    (ha : w.builds[i]? = some a) (hb : w.builds[j]? = some b) (hij : i ≠ j)
    (hareleased : a.released = false) (hbreleased : b.released = false) :
    a.spent.named.Disjoint b.spent.named := by
  obtain ⟨hi, rfl⟩ := List.getElem?_eq_some_iff.1 ha
  obtain ⟨hj, rfl⟩ := List.getElem?_eq_some_iff.1 hb
  rcases Nat.lt_or_gt_of_ne hij with hlt | hgt
  · exact List.pairwise_iff_getElem.1 hw.apart i j hi hj hlt hareleased hbreleased
  · exact List.disjoint_symm
      (List.pairwise_iff_getElem.1 hw.apart j i hj hi hgt hbreleased hareleased)

theorem entries_releaseBuild {w : World} {i : ℕ} {a : Build} (ha : w.builds[i]? = some a) :
    (w.releaseBuild i).wallet.pending.entries =
      w.wallet.pending.entries.filter (fun e => !e.takenBy a.spent.named) := by
  unfold World.releaseBuild
  simp only [ha]
  exact PendingReservations.entries_release _ _

/-- A release leaves alone every entry of another build that may still be
released, and drops nothing but what its own build recorded. -/
theorem release_frees_own {w : World} (hw : Explained w) {i : ℕ} {a : Build}
    (ha : w.builds[i]? = some a) (hareleased : a.released = false) :
    (∀ (j : ℕ) (b : Build), w.builds[j]? = some b → b.released = false → j ≠ i →
      (w.releaseBuild i).heldOf b = w.heldOf b) ∧
    ∀ e ∈ w.wallet.pending.entries, e ∉ (w.releaseBuild i).wallet.pending.entries →
      e ∈ a.made.entries := by
  have hkeep : ∀ (j : ℕ) (b : Build), w.builds[j]? = some b → b.released = false → j ≠ i →
      ∀ e ∈ b.made.entries, e.takenBy a.spent.named = false := by
    intro j b hb hbreleased hij e he
    rw [Entry.takenBy_eq_false_iff]
    intro tag htag htaken
    have htag' := hw.reported b (List.mem_of_getElem? hb) e he tag htag
    exact apart_of_ne hw ha hb (Ne.symm hij) hareleased hbreleased htaken htag'
  constructor
  · intro j b hb hbreleased hij
    unfold World.heldOf
    rw [entries_releaseBuild ha, List.filter_filter]
    refine List.filter_congr fun e _ => ?_
    by_cases he : e ∈ b.made.entries
    · simp [he, hkeep j b hb hbreleased hij e he]
    · simp [he]
  · intro e he hdropped
    rw [entries_releaseBuild ha, List.mem_filter] at hdropped
    have htaken : e.takenBy a.spent.named = true := by
      simpa [he] using hdropped
    rcases hw.owned e he with hnone | ⟨b, hb, hbreleased, hmem⟩
    · simp [Entry.takenBy, hnone] at htaken
    · obtain ⟨j, hj⟩ := List.mem_iff_getElem?.1 hb
      by_cases hij : j = i
      · subst j
        obtain rfl := Option.some.inj (ha.symm.trans hj)
        exact hmem
      · rw [hkeep j b hj hbreleased hij e hmem] at htaken
        cases htaken

/-- The condition is needed: an input and block time that two builds share is
enough for the release of the one to take the other's entry. -/
theorem release_takes_shared {w : World} {i : ℕ} {a b : Build} (ha : w.builds[i]? = some a)
    {e : Entry} (_he : e ∈ w.heldOf b) {tag : Input × Timestamp} (htag : tag ∈ e.tags)
    (hshared : tag ∈ a.spent.named) : e ∉ (w.releaseBuild i).heldOf b := by
  intro hkept
  have hentry := List.mem_of_mem_filter hkept
  rw [entries_releaseBuild ha, List.mem_filter, Bool.not_eq_true',
    Entry.takenBy_eq_false_iff] at hentry
  exact hentry.2 tag htag hshared

/-- In every run whose steps select nothing that a build not yet released
recorded at the same block time, each release frees its own build's entries
alone. -/
theorem release_keeps_other_builds (wallet : Wallet) (as : List Action) (w w' : World) (i : ℕ)
    (a : Build) (hrun : Run FreshStep (World.start wallet) as w) (ha : w.builds[i]? = some a)
    (hstep : Step w (.release i) w') :
    (∀ (j : ℕ) (b : Build), w.builds[j]? = some b → b.released = false → j ≠ i →
      w'.heldOf b = w.heldOf b) ∧
    ∀ e ∈ w.wallet.pending.entries, e ∉ w'.wallet.pending.entries → e ∈ a.made.entries := by
  obtain ⟨⟨a', ha', hreleased⟩, rfl⟩ := hstep
  obtain rfl := Option.some.inj (ha.symm.trans ha')
  exact release_frees_own (explained_run hrun) ha hreleased

section Runs

/-- One tNIGHT UTXO, at the block time 1000 of a chain whose TTLs last an hour. -/
def soleUtxo : TrackedUtxo := ⟨[0], 5, [7], 0, none, none⟩

def soleWallet : Wallet :=
  ⟨[], ⟨some [], []⟩, [soleUtxo], ⟨3600, 3600⟩, some ⟨1000, 1000⟩, .default⟩

def plainHelpers : Helpers := ⟨⟨0, 0⟩, fun _ => .ok (), fun _ => "nullifier", fun _ => "key"⟩

/-- Spends every UTXO in the view, in one intent that lives for `ttl` seconds. -/
def spendAll (ttl : ℕ) (_ : Wallet) (ctx : BuildContext) : Result Draft :=
  .ok ⟨[], ctx.utxos.map TrackedUtxo.spentKey, [],
    [chainTime (ctx.block plainHelpers) + ttl]⟩

/-- A minute passes on chain, with no Dust event and no spend of the wallet's. -/
def quietResync (chainTblock : Timestamp) : Wallet.ResyncCommit :=
  ⟨soleWallet.dustWallet, none, [], [], [soleUtxo], [], chainTblock, soleWallet.parameters⟩

def stampedRun (chainTblock : Timestamp) : World :=
  (((World.start soleWallet).step (.prepareTransfer plainHelpers (spendAll 1))).step
    (.commitResync (quietResync chainTblock))).step
      (.prepareTransfer plainHelpers (spendAll 3600))

/-- Two builds hold one UTXO in turn at two block times, and the late release of
the first leaves the second's entry. -/
theorem release_keeps_other_builds_later_block :
    ((stampedRun 9000).releaseBuild 1).heldOf ⟨.made [] [⟨[7], 0⟩] [] 9000 12600,
        .fromUnshielded [⟨[7], 0⟩] 9000, false⟩ =
      [.unshielded ⟨⟨[7], 0⟩, 9000, 12600⟩] := by
  have hrun : Run FreshStep (World.start soleWallet)
      [.prepareTransfer plainHelpers (spendAll 1), .commitResync (quietResync 9000),
        .prepareTransfer plainHelpers (spendAll 3600)] (stampedRun 9000) := by
    refine .cons ⟨?_, trivial, rfl⟩ (.cons ⟨?_, trivial, rfl⟩ (.cons ⟨?_, trivial, rfl⟩ (.nil _)))
    · unfold World.Fresh
      decide
    · unfold World.Fresh
      decide
    · unfold World.Fresh
      decide
  have hkept := release_keeps_other_builds soleWallet _ (stampedRun 9000)
    ((stampedRun 9000).releaseBuild 1) 1
    ⟨.made [] [⟨[7], 0⟩] [] 1000 1001, .fromUnshielded [⟨[7], 0⟩] 1000, false⟩ hrun rfl
    ⟨⟨_, rfl, rfl⟩, rfl⟩
  exact (hkept.1 2 ⟨.made [] [⟨[7], 0⟩] [] 9000 12600, .fromUnshielded [⟨[7], 0⟩] 9000, false⟩
    rfl rfl (by decide)).trans (by decide)

/-- The first build's TTL ends while the block time stands still, so a second
build takes its UTXO at the same block time, and the late release of the first
frees the entry of the second. -/
theorem late_release_drops_newer_build :
    ∃ (as : List Action) (w w' : World) (a b : Build) (e : Entry),
      Run Step (World.start soleWallet) as w ∧
      w.builds[1]? = some a ∧ w.builds[2]? = some b ∧
      a.released = false ∧ b.released = false ∧
      Step w (.release 1) w' ∧
      e ∉ a.made.entries ∧ e ∈ b.made.entries ∧ w.wallet.reservationHolds e.expiresAt = true ∧
      e ∈ w.wallet.pending.entries ∧ e ∉ w'.wallet.pending.entries := by
  refine ⟨[.prepareTransfer plainHelpers (spendAll 1), .commitResync (quietResync 1060),
      .prepareTransfer plainHelpers (spendAll 3600)], stampedRun 1060,
    (stampedRun 1060).releaseBuild 1, _, _, .unshielded ⟨⟨[7], 0⟩, 1000, 4660⟩,
    .cons ⟨trivial, rfl⟩ (.cons ⟨trivial, rfl⟩ (.cons ⟨trivial, rfl⟩ (.nil _))),
    rfl, rfl, rfl, rfl, ⟨⟨_, rfl, rfl⟩, rfl⟩, ?_⟩
  decide

end Runs

end MidnightRs.Ownership
