import MidnightRs.ResyncCommits
import Mathlib.Data.List.Flatten

/-!
The reservations that a wallet counts, over whole runs. Every operation on the
wallet thins them out or adds those of one build, and a build selects beside
them, so that no input is ever held twice but a UTXO that a registration picked
while it was held.
-/
namespace MidnightRs.Ownership

open Loops Reservations WalletBuilds

section Live

/-- The reservations that the wallet counts at its chain time. -/
def liveEntries (w : Wallet) : List Entry :=
  w.pending.entries.filter (fun e => w.reservationHolds e.expiresAt)

def liveInputs (w : Wallet) : List Input := (liveEntries w).flatMap Entry.inputs

/-- No input but `taken` is held twice by what the wallet counts. -/
def OnceBut (taken : List Input) (w : Wallet) : Prop :=
  ∀ i, i ∉ taken → (liveInputs w).count i ≤ 1

theorem onceBut_nil {w : Wallet} : OnceBut [] w ↔ (liveInputs w).Nodup := by
  simp [OnceBut, List.nodup_iff_count_le_one]

theorem OnceBut.mono {w : Wallet} {taken more : List Input} (h : OnceBut taken w)
    (hsub : taken ⊆ more) : OnceBut more w :=
  fun i hi => h i fun htaken => hi (hsub htaken)

theorem mem_liveEntries {w : Wallet} {e : Entry} : e ∈ liveEntries w ↔ Holding w e := by
  unfold liveEntries Holding
  rw [List.mem_filter]

/-- The chain time of the wallet does not go back. -/
def Forward (w w' : Wallet) : Prop :=
  ∀ bc, w.blockContext = some bc → ∃ bc', w'.blockContext = some bc' ∧ chainTime bc ≤ chainTime bc'

theorem Forward.of_eq {w w' : Wallet} (h : w'.blockContext = w.blockContext) : Forward w w' :=
  fun bc hbc => ⟨bc, h.trans hbc, le_refl _⟩

theorem Forward.holds {w w' : Wallet} (h : Forward w w') {expiresAt : Timestamp}
    (hholds : w'.reservationHolds expiresAt = true) : w.reservationHolds expiresAt = true := by
  unfold Wallet.reservationHolds at hholds ⊢
  cases hbc : w.blockContext with
  | none => rfl
  | some bc =>
    obtain ⟨bc', hbc', hle⟩ := h bc hbc
    rw [hbc'] at hholds
    simp only [Option.all_some, withinTtl, decide_eq_true_eq] at hholds ⊢
    exact le_trans hle hholds

/-- The wallet of `w'` counts a part of what `w` counts. -/
structure Thins (w w' : Wallet) : Prop where
  entries : w'.pending.entries.Sublist w.pending.entries
  forward : Forward w w'

theorem Thins.refl (w : Wallet) : Thins w w := ⟨List.Sublist.refl _, Forward.of_eq rfl⟩

theorem Thins.live {w w' : Wallet} (h : Thins w w') : (liveEntries w').Sublist (liveEntries w) :=
  (List.monotone_filter_right _ (fun _ he => h.forward.holds he)).trans (h.entries.filter _)

theorem Thins.onceBut {w w' : Wallet} {taken : List Input} (h : Thins w w')
    (hw : OnceBut taken w) : OnceBut taken w' :=
  fun i hi => ((h.live.flatMap Entry.inputs).count_le i).trans (hw i hi)

theorem thins_evict (w : Wallet) : Thins w w.evict := by
  refine ⟨?_, Forward.of_eq (evict_blockContext w)⟩
  unfold Wallet.evict
  split
  · rw [PendingReservations.entries_evictExpired]
    exact List.filter_sublist
  · exact List.Sublist.refl _

theorem thins_release (w : Wallet) (spent : SpentInputs) : Thins w (w.release spent) := by
  refine ⟨?_, Forward.of_eq rfl⟩
  unfold Wallet.release
  rw [PendingReservations.entries_release]
  exact List.filter_sublist

theorem thins_commitResync {w : Wallet} {c : Wallet.ResyncCommit}
    (h : Forward w (w.commitResync c)) : Thins w (w.commitResync c) := by
  refine ⟨?_, h⟩
  unfold Wallet.commitResync
  rw [PendingReservations.entries_clearConfirmed]
  exact List.filter_sublist

theorem thins_adoptPending {w fresh : Wallet} (h : Forward w fresh) :
    Thins w (fresh.adoptPending w) := by
  have hevict := thins_evict { fresh with pending := w.pending }
  refine ⟨hevict.entries, fun bc hbc => ?_⟩
  obtain ⟨bc', hbc', hle⟩ := h bc hbc
  exact ⟨bc', (evict_blockContext _).trans hbc', hle⟩

/-- An eviction drops nothing that the wallet counts. -/
theorem liveEntries_evict (w : Wallet) : liveEntries w.evict = liveEntries w := by
  unfold liveEntries Wallet.reservationHolds
  rw [evict_blockContext]
  unfold Wallet.evict
  cases hbc : w.blockContext with
  | none => rfl
  | some bc =>
    simp only [PendingReservations.entries_evictExpired, Option.all_some, List.filter_filter,
      Bool.and_self]

theorem entries_append_perm (p q : PendingReservations) :
    (p.append q).entries.Perm (p.entries ++ q.entries) := by
  rw [List.perm_iff_count]
  intro e
  simp only [PendingReservations.entries, PendingReservations.append, List.map_append,
    List.count_append]
  omega

/-- What a reservation adds to what the wallet counts. -/
theorem liveEntries_append (w : Wallet) (made : PendingReservations) :
    (liveEntries { w with pending := w.pending.append made }).Perm
      (liveEntries w ++ made.entries.filter (fun e => w.reservationHolds e.expiresAt)) := by
  have hperm := (entries_append_perm w.pending made).filter
    (fun e => w.reservationHolds e.expiresAt)
  rw [List.filter_append] at hperm
  exact hperm

theorem mem_liveInputs {w : Wallet} {i : Input} :
    i ∈ liveInputs w ↔ ∃ e, Holding w e ∧ i ∈ e.inputs := by
  simp only [liveInputs, List.mem_flatMap, mem_liveEntries]

/-- Inputs that stand apart but for `more`, each named once, may be reserved. -/
theorem onceBut_append {w : Wallet} {made : PendingReservations} {taken more : List Input}
    (h : OnceBut taken w) (hapart : ApartBut more w made) (honce : (inputsOf made).Nodup) :
    OnceBut (taken ++ more) { w with pending := w.pending.append made } := by
  intro i hi
  obtain ⟨htaken, hmore⟩ := not_or.mp (mt List.mem_append.mpr hi)
  have hperm := (liveEntries_append w made).flatMap_right Entry.inputs
  rw [List.flatMap_append] at hperm
  have hcount := hperm.count_eq i
  rw [List.count_append] at hcount
  have hadded := ((List.filter_sublist (p := fun e => w.reservationHolds e.expiresAt)
    (l := made.entries)).flatMap Entry.inputs).count_le i
  unfold liveInputs
  rw [hcount]
  by_cases hlive : i ∈ liveInputs w
  · -- the wallet holds the input already, so that the build does not name it
    obtain ⟨e, he, hie⟩ := mem_liveInputs.mp hlive
    have hnone : (inputsOf made).count i = 0 :=
      List.count_eq_zero.mpr fun hmade => hmore (hapart e he i hie hmade)
    have hone := h i htaken
    unfold inputsOf at hnone
    unfold liveInputs at hone
    omega
  · have hnone := List.count_eq_zero.mpr hlive
    have hone := List.nodup_iff_count_le_one.mp honce i
    unfold inputsOf at hone
    unfold liveInputs at hnone
    omega

end Live

section Requests

/-- The inputs of a build, of every kind. -/
def Draft.inputs (d : Draft) : List Input :=
  d.dustBatches.flatMap (fun b => b.spends.map (fun s => .dust s.oldNullifier)) ++
    d.spentUnshieldedInputs.map .unshielded ++ d.spentShieldedInputs.map .shielded

theorem inputsOf_made (dustBatches : List DustSpendBatch) (unshielded : List SpentUtxoKey)
    (shielded : List Nullifier) (reservedAt expiresAt : Timestamp) :
    inputsOf (.made dustBatches unshielded shielded reservedAt expiresAt) =
      Draft.inputs ⟨dustBatches, unshielded, shielded, []⟩ := by
  unfold inputsOf Draft.inputs PendingReservations.made PendingReservations.entries
  simp [List.flatMap_map, Entry.inputs, ← List.map_eq_flatMap]

theorem inputsOf_new (h : Helpers) (ctx : BuildContext) (d : Draft) :
    inputsOf (PreparedTransfer.new h ctx d).made = Draft.inputs d :=
  inputsOf_made _ _ _ _ _

/-- What the builders promise of one transaction: it spends no input twice. -/
def Request.Once : Request → Prop
  | .payment _ build => ∀ ctx d, build ctx = .ok d → (Draft.inputs d).Nodup
  | .dustRegistration _ _ _ assemble => ∀ ctx u amount tx, assemble ctx u amount = .ok tx →
    (Draft.inputs ⟨tx.dustBatches, [], [], tx.intentTtls⟩).Nodup
  | .funded _ _ build => ∀ ctx d, build ctx = .ok d → (Draft.inputs d).Nodup
  | .fees _ _ build => ∀ ctx d, build ctx = .ok (some d) → (Draft.inputs d).Nodup
  | .spendShielded _ ctx nullifiers prepare => ∀ prepared,
    prepare ctx nullifiers = .ok prepared → nullifiers.Nodup
  | .spendUnshielded _ ctx prepare => ∀ prepared, prepare ctx = .ok prepared → prepared.spent.Nodup

/-- What a request leaves: the wallet with its expired entries gone or not, and
the entries of the one build that it booked. -/
inductive Left (P : PendingReservations → Prop) (w : World) : World → Prop
  | kept (wallet : Wallet) (h : wallet = w.wallet ∨ wallet = w.wallet.evict) :
      Left P w { w with wallet }
  | booked (wallet : Wallet) (made : PendingReservations) (spent : SpentInputs)
      (h : wallet = w.wallet ∨ wallet = w.wallet.evict) (hmade : P made) :
      Left P w (w.booked { wallet with pending := wallet.pending.append made } made spent)

theorem addFunding_left (w : Wallet) (ctx : BuildContext) :
    (w.addFunding ctx).1 = w ∨ (w.addFunding ctx).1 = w.evict := by
  rw [Wallet.addFunding_wallet]
  split
  · exact Or.inl rfl
  · exact Or.inr rfl

variable {P : PendingReservations → Prop} (w : World) (h : Helpers)

theorem left_reserveDraft {wallet : Wallet} (ctx : BuildContext)
    (hleft : wallet = w.wallet ∨ wallet = w.wallet.evict) {draft : Result Draft}
    (hmade : ∀ d, draft = .ok d → P (PreparedTransfer.new h ctx d).made) :
    Left P w (w.afterPrepare (wallet.reserveDraft h ctx draft)) := by
  cases draft with
  | error e => exact .kept wallet hleft
  | ok d => exact .booked wallet _ _ hleft (hmade d rfl)

theorem left_prepareTransfer {build : Wallet → BuildContext → Result Draft}
    (hmade : ∀ wallet ctx d, build wallet ctx = .ok d → P (PreparedTransfer.new h ctx d).made) :
    Left P w (w.afterPrepare (w.wallet.prepareTransfer h build)) := by
  unfold Wallet.prepareTransfer
  cases w.wallet.executionContext h with
  | error e => exact .kept w.wallet (Or.inl rfl)
  | ok ctx =>
    have hleft := addFunding_left w.wallet ctx
    simp only
    rcases hfund : w.wallet.addFunding ctx with ⟨wallet, ctx', e | u⟩
    · rw [hfund] at hleft
      exact .kept wallet hleft
    · rw [hfund] at hleft
      exact left_reserveDraft w h ctx' hleft (hmade wallet ctx')

theorem left_prepareFunded (ctx : BuildContext) {build : BuildContext → Result Draft}
    (hmade : ∀ ctx d, build ctx = .ok d → P (PreparedTransfer.new h ctx d).made) :
    Left P w (w.afterPrepare (w.wallet.prepareFunded h ctx build)) := by
  have hleft := addFunding_left w.wallet ctx
  unfold Wallet.prepareFunded
  rcases hfund : w.wallet.addFunding ctx with ⟨wallet, ctx', e | u⟩
  · rw [hfund] at hleft
    exact .kept wallet hleft
  · rw [hfund] at hleft
    exact left_reserveDraft w h ctx' hleft (hmade ctx')

theorem left_prepareFees (ctx : BuildContext) {build : BuildContext → Result (Option Draft)}
    (hmade : ∀ ctx d, build ctx = .ok (some d) → P (PreparedTransfer.new h ctx d).made) :
    Left P w (w.afterFees (w.wallet.prepareFees h ctx build)) := by
  have hleft := addFunding_left w.wallet ctx
  unfold Wallet.prepareFees
  rcases hfund : w.wallet.addFunding ctx with ⟨wallet, ctx', e | u⟩
  · rw [hfund] at hleft
    exact .kept wallet hleft
  · rw [hfund] at hleft
    simp only
    rcases hbuild : build ctx' with e | _ | d
    · exact .kept wallet hleft
    · exact .kept wallet hleft
    · exact .booked wallet _ _ hleft (hmade ctx' d hbuild)

/-- The entries of a spend, held until the longest TTL. -/
theorem left_spend {α : Type} {expiresAt : Timestamp} {spent : SpentInputs} (prepared : α)
    (made : PendingReservations) (hdust : made.dust = [])
    (hunshielded :
      made.unshielded = spent.unshielded.map (fun u => ⟨u.input, u.reservedAt, expiresAt⟩))
    (hshielded : made.shielded = spent.shielded.map (fun s => ⟨s.input, s.reservedAt, expiresAt⟩))
    (hmade : P made) :
    Left P w (w.afterSpend expiresAt
      ({ w.wallet with pending := w.wallet.pending.append made }, .ok (prepared, spent))) := by
  obtain ⟨dust, unshielded, shielded⟩ := made
  simp only at hdust hunshielded hshielded
  subst hdust hunshielded hshielded
  exact .booked w.wallet _ spent (Or.inl rfl) hmade

theorem inputs_registration (dustBatches : List DustSpendBatch) (key : SpentUtxoKey)
    (intentTtls ttls : List Timestamp)
    (h : (Draft.inputs ⟨dustBatches, [], [], ttls⟩).Nodup) :
    (Draft.inputs ⟨dustBatches, [key], [], intentTtls⟩).Nodup := by
  simp only [Draft.inputs, List.map_nil, List.append_nil, List.map_cons] at h ⊢
  refine h.append (List.nodup_singleton _) fun i hi hkey => ?_
  obtain rfl := List.mem_singleton.mp hkey
  obtain ⟨b, -, hi⟩ := List.mem_flatMap.mp hi
  obtain ⟨s, -, hs⟩ := List.mem_map.mp hi
  cases hs

theorem step_left (r : Request) :
    Left (fun made => r.Once → (inputsOf made).Nodup) w (w.step r.action) := by
  cases r with
  | payment h build =>
    refine left_prepareTransfer w h fun _ ctx d hd honce => ?_
    rw [inputsOf_new]
    exact honce ctx d hd
  | dustRegistration h dust utxoCtime assemble =>
    refine left_prepareTransfer w h fun wallet ctx d hd honce => ?_
    obtain ⟨u, tx, -, htx, rfl⟩ := prepareRegisterDust_ok hd
    rw [inputsOf_new]
    exact inputs_registration _ _ _ _ (honce _ _ _ tx htx)
  | funded h ctx build =>
    refine left_prepareFunded w h ctx fun ctx d hd honce => ?_
    rw [inputsOf_new]
    exact honce ctx d hd
  | fees h ctx build =>
    refine left_prepareFees w h ctx fun ctx d hd honce => ?_
    rw [inputsOf_new]
    exact honce ctx d hd
  | spendShielded h ctx nullifiers prepare =>
    simp only [Request.action, World.step, Wallet.spendShielded]
    split
    · have hspend := @left_spend (fun made =>
          (Request.spendShielded h ctx nullifiers prepare).Once → (inputsOf made).Nodup) w
        (List PreparedInput) (ctx.longestTtl h) .default [] ⟨[], [], []⟩ rfl rfl rfl
        (fun _ => List.nodup_nil)
      simpa [PendingReservations.append] using hspend
    · split
      · exact .kept _ (Or.inl rfl)
      · cases hprepare : prepare ctx nullifiers with
        | error e => exact .kept _ (Or.inl rfl)
        | ok prepared =>
          refine left_spend w prepared (.made [] [] nullifiers _ _) rfl rfl ?_ fun honce => ?_
          · simp [PendingReservations.made, SpentInputs.fromShielded, SpentInputs.stamped]
          · rw [inputsOf_made]
            simpa [Draft.inputs] using (honce prepared hprepare).map (fun _ _ => Input.shielded.inj)
  | spendUnshielded h ctx prepare =>
    simp only [Request.action, World.step, Wallet.spendUnshielded]
    cases hprepare : prepare ctx with
    | error e => exact .kept _ (Or.inl rfl)
    | ok prepared =>
      simp only
      split
      · exact .kept _ (Or.inl rfl)
      · refine left_spend w prepared (.made [] prepared.spent [] _ _) rfl ?_ rfl fun honce => ?_
        · simp [PendingReservations.made, SpentInputs.fromUnshielded, SpentInputs.stamped]
        · rw [inputsOf_made]
          simpa [Draft.inputs] using
            (honce prepared hprepare).map (fun _ _ => Input.unshielded.inj)

/-- What a request booked is what stands apart. -/
theorem Answered.apart {taken : List Input} {w : World} {wallet : Wallet}
    {made : PendingReservations} {spent : SpentInputs}
    (h : Answered taken w (w.booked wallet made spent)) : ApartBut taken w.wallet made := by
  have hbuilds : (w.booked wallet made spent).builds = w.builds ++ [⟨made, spent, false⟩] := rfl
  generalize w.booked wallet made spent = w' at h hbuilds
  cases h with
  | kept wallet' hret =>
    have hlength := congrArg List.length hbuilds
    simp at hlength
  | booked wallet' made' spent' hret hapart =>
    have hlast := List.append_cancel_left hbuilds
    simp only [List.cons.injEq, Build.mk.injEq, and_true] at hlast
    exact hlast.1 ▸ hapart

/-- A request holds no input twice but the UTXO that a registration picks. -/
theorem onceBut_request {r : Request} {taken : List Input} (hlawful : r.Lawful) (honce : r.Once)
    (hw : OnceBut taken w.wallet) :
    OnceBut (taken ++ r.takes w.wallet) (w.step r.action).wallet := by
  have hthins : ∀ wallet, wallet = w.wallet ∨ wallet = w.wallet.evict → Thins w.wallet wallet := by
    rintro wallet (rfl | rfl)
    · exact Thins.refl _
    · exact thins_evict _
  have hleft := step_left w r
  have hanswered := step_answered w r hlawful
  generalize w.step r.action = w' at hleft hanswered
  cases hleft with
  | kept wallet h => exact ((hthins wallet h).onceBut hw).mono (List.subset_append_left _ _)
  | booked wallet made spent h hmade =>
    refine onceBut_append ((hthins wallet h).onceBut hw) ?_ (hmade honce)
    exact fun e he => hanswered.apart e
      ⟨(hthins wallet h).entries.mem he.1, (hthins wallet h).forward.holds he.2⟩

end Requests

section Moves

/-- What happens to one wallet. -/
inductive Move where
  | request (r : Request)
  | addFunding (ctx : BuildContext)
  | commitResync (commit : Wallet.ResyncCommit)
  | rebuild (fresh : Wallet)
  | cross (fresh : Wallet)
  | commitShieldedRescan (coins : List Coin)
  | release (i : ℕ)

namespace Move

def action : Move → Action
  | request r => r.action
  | addFunding ctx => .addFunding ctx
  | commitResync commit => .commitResync commit
  | rebuild fresh => .rebuild fresh
  | cross fresh => .cross fresh
  | commitShieldedRescan coins => .commitShieldedRescan coins
  | release i => .release i

/-- A builder selects from its view and names no input twice; the chain time goes
on. -/
def Promised (w : Wallet) : Move → Prop
  | request r => r.Lawful ∧ r.Once
  | commitResync commit => Forward w (w.commitResync commit)
  | rebuild fresh => Forward w fresh
  | _ => True

def takes (w : Wallet) : Move → List Input
  | request r => r.takes w
  | _ => []

end Move

/-- The UTXOs that the registrations of a run picked while a reservation held them. -/
def World.taken (w : World) : List Move → List Input
  | [] => []
  | m :: ms => m.takes w.wallet ++ (w.step m.action).taken ms

def LiveStep (w : World) (m : Move) (w' : World) : Prop :=
  m.Promised w.wallet ∧ w.Allowed m.action ∧ w' = w.step m.action

theorem onceBut_releaseBuild {w : World} {taken : List Input} (i : ℕ)
    (h : OnceBut taken w.wallet) : OnceBut taken (w.releaseBuild i).wallet := by
  unfold World.releaseBuild
  cases w.builds[i]? with
  | none => exact h
  | some b => exact (thins_release w.wallet b.spent).onceBut h

theorem onceBut_step {w w' : World} {m : Move} {taken : List Input} (hstep : LiveStep w m w')
    (h : OnceBut taken w.wallet) : OnceBut (taken ++ m.takes w.wallet) w'.wallet := by
  obtain ⟨hm, -, rfl⟩ := hstep
  have hsame : ∀ {wallet : Wallet}, OnceBut taken wallet → OnceBut (taken ++ []) wallet :=
    fun h => (List.append_nil taken).symm ▸ h
  cases m with
  | request r => exact onceBut_request w hm.1 hm.2 h
  | addFunding ctx =>
    refine hsame ?_
    simp only [Move.action, World.step]
    rcases addFunding_left w.wallet ctx with heq | heq
    · rwa [heq]
    · rw [heq]
      exact (thins_evict w.wallet).onceBut h
  | commitResync commit => exact hsame ((thins_commitResync hm).onceBut h)
  | rebuild fresh => exact hsame ((thins_adoptPending hm).onceBut h)
  | cross fresh => exact fun i _ => Nat.zero_le 1
  | commitShieldedRescan coins =>
    have hthins : Thins w.wallet (w.wallet.commitShieldedRescan coins) :=
      ⟨List.Sublist.refl _, Forward.of_eq rfl⟩
    exact hsame (hthins.onceBut h)
  | release i => exact hsame (onceBut_releaseBuild i h)

theorem onceBut_run {w w' : World} {ms : List Move} (hrun : Run LiveStep w ms w')
    {taken : List Input} (h : OnceBut taken w.wallet) :
    OnceBut (taken ++ w.taken ms) w'.wallet := by
  induction hrun generalizing taken with
  | nil w => simpa [World.taken] using h
  | @cons w mid w' m ms hstep _ ih =>
    have hrest := ih (onceBut_step hstep h)
    rw [World.taken, ← hstep.2.2, ← List.append_assoc]
    exact hrest

/-- In every run, no input is held by two reservations that the wallet counts, but a
UTXO that a registration of the run picked while one held it. A build that books
nothing keeps them as they are; one that books adds its own to them, those that its
TTL allows. -/
theorem nothing_held_twice {w w' : World} {ms : List Move} (hrun : Run LiveStep w ms w')
    (h : (liveInputs w.wallet).Nodup) :
    (∀ i, i ∉ w.taken ms → (liveInputs w'.wallet).count i ≤ 1) ∧ ∀ r : Request,
      ((w'.step r.action).builds = w'.builds ∧
          ((w'.step r.action).wallet = w'.wallet ∨ (w'.step r.action).wallet = w'.wallet.evict) ∧
          liveEntries (w'.step r.action).wallet = liveEntries w'.wallet) ∨
        ∃ made spent, (w'.step r.action).builds = w'.builds ++ [⟨made, spent, false⟩] ∧
          (liveEntries (w'.step r.action).wallet).Perm (liveEntries w'.wallet ++
            made.entries.filter (fun e => w'.wallet.reservationHolds e.expiresAt)) := by
  have hlive : ∀ wallet, wallet = w'.wallet ∨ wallet = w'.wallet.evict →
      liveEntries wallet = liveEntries w'.wallet ∧
        wallet.blockContext = w'.wallet.blockContext := by
    rintro wallet (rfl | rfl)
    · exact ⟨rfl, rfl⟩
    · exact ⟨liveEntries_evict _, evict_blockContext _⟩
  refine ⟨onceBut_run hrun (onceBut_nil.mpr h), fun r => ?_⟩
  have hleft := step_left w' r
  generalize w'.step r.action = w'' at hleft
  cases hleft with
  | kept wallet hwallet => exact Or.inl ⟨rfl, hwallet, (hlive wallet hwallet).1⟩
  | booked wallet made spent hwallet hmade =>
    refine Or.inr ⟨made, spent, rfl, ?_⟩
    have hholds : wallet.reservationHolds = w'.wallet.reservationHolds := by
      unfold Wallet.reservationHolds
      rw [(hlive wallet hwallet).2]
    have hperm := liveEntries_append wallet made
    rwa [(hlive wallet hwallet).1, hholds] at hperm

/-- Pays with the first UTXO in the view. -/
def payFirst : Request :=
  .payment plainHelpers (fun ctx => .ok ⟨[], (ctx.utxos.take 1).map TrackedUtxo.spentKey, [],
    [chainTime (ctx.block plainHelpers) + 3600]⟩)

theorem payFirst_promised (w : Wallet) : (Move.request payFirst).Promised w := by
  refine ⟨fun ctx d hd => ?_, fun ctx d hd => ?_⟩
  · cases hd
    refine ⟨fun b hb => (by cases hb), fun key hkey => ?_, fun n hn => (by cases hn)⟩
    obtain ⟨u, hu, rfl⟩ := List.mem_map.mp hkey
    exact ⟨u, List.mem_of_mem_take hu, rfl⟩
  · cases hd
    cases ctx.utxos <;> simp [Draft.inputs]

/-- A payment, a minute on the chain and a payment: the sole UTXO is held once,
by the first of them. -/
theorem nothing_held_twice_minute :
    (∀ i, (liveInputs ((((World.start soleWallet).step payFirst.action).step
        (.commitResync (quietResync 1060))).step payFirst.action).wallet).count i ≤ 1) ∧
      liveInputs ((((World.start soleWallet).step payFirst.action).step
        (.commitResync (quietResync 1060))).step payFirst.action).wallet =
          [.unshielded soleUtxo.spentKey] := by
  have hrun : Run LiveStep (World.start soleWallet)
      [.request payFirst, .commitResync (quietResync 1060), .request payFirst]
      ((((World.start soleWallet).step payFirst.action).step
        (.commitResync (quietResync 1060))).step payFirst.action) := by
    refine .cons ⟨payFirst_promised _, trivial, rfl⟩ (.cons ⟨fun bc hbc => ?_, trivial, rfl⟩
      (.cons ⟨payFirst_promised _, trivial, rfl⟩ (.nil _)))
    cases hbc
    exact ⟨_, rfl, by decide⟩
  exact ⟨fun i => (nothing_held_twice hrun List.nodup_nil).1 i (by simp [World.taken, Move.takes,
    Request.takes, payFirst]), by decide⟩

def soleNight : TrackedUtxo := ⟨night, 5, [7], 0, none, none⟩

def registerSole : Request :=
  .dustRegistration plainHelpers ⟨1, 1⟩ none (fun _ _ _ => .ok ⟨[], [4600]⟩)

/-- A registration in the minute after a payment takes the UTXO that the payment holds. -/
example : liveInputs (((World.start { soleWallet with unshieldedUtxos := [soleNight] }).step
    payFirst.action).step registerSole.action).wallet =
      [.unshielded soleNight.spentKey, .unshielded soleNight.spentKey] := by decide

end Moves

end MidnightRs.Ownership
