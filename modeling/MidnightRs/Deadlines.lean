import MidnightRs.Ownership

/-!
How long a reservation lasts against how long its transaction can land. A
transaction lands until the earliest TTL of its intents, those merged in later
included, and a build reserves its inputs until the earliest TTL of the intents
it made itself.
-/
namespace MidnightRs.WalletBuilds

open Reservations

section Ttls

/-- A requested TTL counts nanoseconds, the chain whole seconds. -/
def nanosPerSec : ℕ := 10 ^ 9

def ttlAfter (chainTime : Timestamp) (globalTtl : Duration) (ttl : Option ℕ) :
    Except WalletError Timestamp :=
  match ttl with
  | none => .ok (addDuration chainTime globalTtl)
  | some requested =>
    let secs := requested / nanosPerSec
    if secs = 0 ∨ globalTtl < secs then
      .error (.ttlOutOfRange requested (globalTtl.toNat * nanosPerSec))
    else .ok (addDuration chainTime secs)

namespace BuildContext

variable (h : Helpers)

/-- The TTL that a build on the context gives its intents. -/
def intentTtl (ctx : BuildContext) (ttl : Option ℕ) : Except WalletError Timestamp :=
  ttlAfter (chainTime (ctx.block h)) ctx.parameters.globalTtl ttl

end BuildContext

/-- When a transaction with these intents can land for the last time. -/
def landingDeadline (ttls : List Timestamp) : Option Timestamp := ttls.min?

/-- An intent merged in can only shorten what the others allow. -/
theorem landingDeadline_le {ttls : List Timestamp} {deadline ttl : Timestamp}
    (h : landingDeadline ttls = some deadline) (httl : ttl ∈ ttls) : deadline ≤ ttl :=
  (List.min?_eq_some_iff.mp h).2 ttl httl

theorem landingDeadline_mem {ttls : List Timestamp} {deadline : Timestamp}
    (h : landingDeadline ttls = some deadline) : deadline ∈ ttls :=
  (List.min?_eq_some_iff.mp h).1

end Ttls

section Evictions

/-- The wallet evicts at each of the chain views in turn. -/
def Wallet.evictAlong (w : Wallet) (views : List BlockContext) : Wallet :=
  views.foldl (fun w bc => ({ w with blockContext := some bc } : Wallet).evict) w

/-- What the wallet has reserved stays while the chain time is not after the
deadline. -/
def Wallet.Outlives (w : Wallet) (made : PendingReservations) (deadline : Timestamp) : Prop :=
  ∀ views, (∀ bc ∈ views, chainTime bc ≤ deadline) →
    ∀ e ∈ made.entries, e ∈ (w.evictAlong views).pending.entries

theorem evict_at_entries (w : Wallet) (bc : BlockContext) :
    (({ w with blockContext := some bc } : Wallet).evict).pending.entries =
      w.pending.entries.filter (fun e => withinTtl e.expiresAt (chainTime bc)) :=
  PendingReservations.entries_evictExpired _ _

/-- An entry that no view finds expired stays. -/
theorem mem_evictAlong {e : Entry} (views : List BlockContext)
    (hviews : ∀ bc ∈ views, chainTime bc ≤ e.expiresAt) (w : Wallet)
    (he : e ∈ w.pending.entries) : e ∈ (w.evictAlong views).pending.entries := by
  induction views generalizing w with
  | nil => exact he
  | cons bc views ih =>
    refine ih (fun bc' hbc' => hviews bc' (List.mem_cons_of_mem bc hbc')) _ ?_
    rw [evict_at_entries]
    exact List.mem_filter.mpr ⟨he, decide_eq_true (hviews bc List.mem_cons_self)⟩

/-- Entries that expire together outlive exactly the deadlines up to then. -/
theorem outlives_iff {w : Wallet} {made : PendingReservations} {expiresAt deadline : Timestamp}
    (hkept : ∀ e ∈ made.entries, e ∈ w.pending.entries)
    (hexpires : ∀ e ∈ made.entries, e.expiresAt = expiresAt) :
    w.Outlives made deadline ↔ made.entries = [] ∨ deadline ≤ expiresAt := by
  constructor
  · intro h
    cases hmade : made.entries with
    | nil => exact Or.inl rfl
    | cons e es =>
      have he : e ∈ made.entries := hmade ▸ List.mem_cons_self
      have hlast := h [⟨deadline, deadline⟩]
        (fun bc hbc => by
          obtain rfl := List.mem_singleton.mp hbc
          exact Nat.le_of_eq (Nat.max_self deadline)) e he
      have hwithin := (List.mem_filter.mp (evict_at_entries w ⟨deadline, deadline⟩ ▸ hlast)).2
      have htime : chainTime ⟨deadline, deadline⟩ = deadline := Nat.max_self deadline
      rw [htime, hexpires e he] at hwithin
      exact Or.inr (of_decide_eq_true hwithin)
  · rintro (hnone | hle) views hviews e he
    · rw [hnone] at he
      cases he
    · refine mem_evictAlong views (fun bc hbc => ?_) w (hkept e he)
      rw [hexpires e he]
      exact Nat.le_trans (hviews bc hbc) hle

end Evictions

section Builds

variable {h : Helpers} {w w' : Wallet} {made : PendingReservations} {own : List Timestamp}
  {longest : Timestamp}

/-- A build that takes the wallet from `w` to `w'`: what it reserves, the TTLs of
the intents it makes, and the longest TTL at that time. A contract call spends
into its context, and its own intent takes that context's TTL. -/
inductive Reserving (h : Helpers) (w w' : Wallet) :
    PendingReservations → List Timestamp → Timestamp → Prop
  | transfer (build : Wallet → BuildContext → Result Draft) (wallet : Wallet)
      (ctx ctx' : BuildContext) (draft : Draft) (hctx : w.executionContext h = .ok ctx)
      (hfund : w.addFunding ctx = (wallet, ctx', .ok ())) (hbuild : build wallet ctx' = .ok draft)
      (hw : (w.prepareTransfer h build).1 = w') :
      Reserving h w w' (PreparedTransfer.new h ctx' draft).made draft.intentTtls (ctx'.longestTtl h)
  | funded (build : BuildContext → Result Draft) (wallet : Wallet) (ctx ctx' : BuildContext)
      (draft : Draft) (hfund : w.addFunding ctx = (wallet, ctx', .ok ()))
      (hbuild : build ctx' = .ok draft) (hw : (w.prepareFunded h ctx build).1 = w') :
      Reserving h w w' (PreparedTransfer.new h ctx' draft).made draft.intentTtls (ctx'.longestTtl h)
  | fees (build : BuildContext → Result (Option Draft)) (wallet : Wallet) (ctx ctx' : BuildContext)
      (draft : Draft) (hfund : w.addFunding ctx = (wallet, ctx', .ok ()))
      (hbuild : build ctx' = .ok (some draft)) (hw : (w.prepareFees h ctx build).1 = w') :
      Reserving h w w' (PreparedTransfer.new h ctx' draft).made draft.intentTtls (ctx'.longestTtl h)
  | spendShielded (ctx : BuildContext) (nullifiers : List Nullifier)
      (prepare : BuildContext → List Nullifier → Result (List PreparedInput))
      (out : List PreparedInput × SpentInputs) (ttl : Timestamp)
      (hspend : w.spendShielded h ctx nullifiers prepare = (w', .ok out))
      (hcall : ctx.intentTtl h none = .ok ttl) :
      Reserving h w w' (.made [] [] nullifiers (ctx.block h).tblock (ctx.longestTtl h)) [ttl]
        (ctx.longestTtl h)
  | spendUnshielded (ctx : BuildContext) (prepare : BuildContext → Result PreparedUnshielded)
      (out : PreparedUnshielded × SpentInputs) (ttl : Timestamp)
      (hspend : w.spendUnshielded h ctx prepare = (w', .ok out))
      (hcall : ctx.intentTtl h none = .ok ttl) :
      Reserving h w w' (.made [] out.1.spent [] (ctx.block h).tblock (ctx.longestTtl h)) [ttl]
        (ctx.longestTtl h)

theorem expiresAt_made (dustBatches : List DustSpendBatch) (unshielded : List SpentUtxoKey)
    (shielded : List Nullifier) (reservedAt expiresAt : Timestamp) :
    ∀ e ∈ (PendingReservations.made dustBatches unshielded shielded reservedAt expiresAt).entries,
      e.expiresAt = expiresAt := by
  intro e he
  rcases (PendingReservations.mem_entries _ e).mp he with ⟨b, hb, rfl⟩ | ⟨u, hu, rfl⟩ |
    ⟨s, hs, rfl⟩
  · obtain ⟨-, -, rfl⟩ := List.mem_map.mp hb
    rfl
  · obtain ⟨-, -, rfl⟩ := List.mem_map.mp hu
    rfl
  · obtain ⟨-, -, rfl⟩ := List.mem_map.mp hs
    rfl

theorem kept_reservePending (w : Wallet) (dustBatches : List DustSpendBatch)
    (unshielded : List SpentUtxoKey) (shielded : List Nullifier)
    (reservedAt expiresAt : Timestamp) :
    ∀ e ∈ (PendingReservations.made dustBatches unshielded shielded reservedAt expiresAt).entries,
      e ∈ (w.reservePending dustBatches unshielded shielded reservedAt expiresAt).pending.entries :=
  fun e he => (PendingReservations.mem_entries_append _ _ e).mpr (Or.inr he)

/-- The wallet holds what the build reserved. -/
theorem Reserving.kept (hr : Reserving h w w' made own longest) :
    ∀ e ∈ made.entries, e ∈ w'.pending.entries := by
  cases hr with
  | transfer build wallet ctx ctx' draft hctx hfund hbuild hw =>
    subst hw
    unfold Wallet.prepareTransfer
    simp only [hctx, hfund, hbuild, Wallet.reserveDraft]
    exact kept_reservePending wallet _ _ _ _ _
  | funded build wallet ctx ctx' draft hfund hbuild hw =>
    subst hw
    unfold Wallet.prepareFunded
    simp only [hfund, hbuild, Wallet.reserveDraft]
    exact kept_reservePending wallet _ _ _ _ _
  | fees build wallet ctx ctx' draft hfund hbuild hw =>
    subst hw
    unfold Wallet.prepareFees
    simp only [hfund, hbuild]
    exact kept_reservePending wallet _ _ _ _ _
  | spendShielded ctx nullifiers prepare out ttl hspend hcall =>
    unfold Wallet.spendShielded at hspend
    split at hspend
    · rename_i hempty
      rw [List.isEmpty_iff.mp hempty]
      intro e he
      cases he
    · split at hspend
      · cases hspend
      · split at hspend
        · cases hspend
        · cases hspend
          exact kept_reservePending w _ _ _ _ _
  | spendUnshielded ctx prepare out ttl hspend hcall =>
    unfold Wallet.spendUnshielded at hspend
    split at hspend
    · cases hspend
    · split at hspend
      · cases hspend
      · cases hspend
        exact kept_reservePending w _ _ _ _ _

/-- A build reserves until the earliest TTL of its own intents. -/
theorem Reserving.expiresAt (hr : Reserving h w w' made own longest) :
    ∀ e ∈ made.entries, e.expiresAt = own.min?.getD longest := by
  cases hr with
  | transfer => exact expiresAt_made _ _ _ _ _
  | funded => exact expiresAt_made _ _ _ _ _
  | fees => exact expiresAt_made _ _ _ _ _
  | spendShielded ctx nullifiers prepare out ttl hspend hcall =>
    obtain rfl := Except.ok.inj hcall
    exact expiresAt_made _ _ _ _ _
  | spendUnshielded ctx prepare out ttl hspend hcall =>
    obtain rfl := Except.ok.inj hcall
    exact expiresAt_made _ _ _ _ _

/-- What a build reserved outlives a transaction made from it exactly where the
build made an intent, or where another's intent ends with the build's longest
TTL or before. -/
theorem reservation_outlives_iff (h : Helpers) (w w' : Wallet) (made : PendingReservations)
    (own others : List Timestamp) (longest deadline : Timestamp)
    (hbuild : Reserving h w w' made own longest)
    (hdeadline : landingDeadline (own ++ others) = some deadline) :
    w'.Outlives made deadline ↔
      made.entries = [] ∨ own ≠ [] ∨ ∃ ttl ∈ others, ttl ≤ longest := by
  rw [outlives_iff hbuild.kept hbuild.expiresAt]
  refine or_congr Iff.rfl ?_
  cases hown : own.min? with
  | some earliest =>
    have hmem := (List.min?_eq_some_iff.mp hown).1
    have hle := landingDeadline_le hdeadline (List.mem_append_left others hmem)
    exact ⟨fun _ => Or.inl (List.ne_nil_of_mem hmem), fun _ => hle⟩
  | none =>
    obtain rfl := List.min?_eq_none_iff.mp hown
    simp only [Option.getD_none, ne_eq, not_true_eq_false, false_or]
    constructor
    · intro hle
      exact ⟨deadline, landingDeadline_mem hdeadline, hle⟩
    · rintro ⟨ttl, hothers, hle⟩
      exact Nat.le_trans (landingDeadline_le hdeadline hothers) hle

end Builds

section Runs

/-- One shielded coin at the chain time 1000, with TTLs of an hour. -/
def coinWallet : Wallet :=
  ⟨[⟨[1], [2], 5⟩], ⟨some [], []⟩, [], ⟨3600, 3600⟩, some ⟨1000, 1000⟩, .default⟩

def coinHelpers : Helpers := ⟨⟨0, 0⟩, fun _ => .ok (), fun _ => "nullifier", fun _ => "key"⟩

/-- Spends the coin, in intents with these TTLs. -/
def spendCoin (ttls : List Timestamp) (_ : Wallet) (_ : BuildContext) : Result Draft :=
  .ok ⟨[], [], [[1]], ttls⟩

/-- The coin outlives a spend whose own intent ends with the hour, whoever adds
to it later. -/
theorem reservation_outlives_own_intent :
    ((coinWallet.prepareTransfer coinHelpers (spendCoin [4600])).1).Outlives
      (.made [] [] [[1]] 1000 4600) 4600 := by
  have hbuild : Reserving coinHelpers coinWallet
      (coinWallet.prepareTransfer coinHelpers (spendCoin [4600])).1
      (.made [] [] [[1]] 1000 4600) [4600] 4600 :=
    .transfer (spendCoin [4600]) coinWallet ⟨⟨3600, 3600⟩, some ⟨1000, 1000⟩, [], none⟩
      ⟨⟨3600, 3600⟩, some ⟨1000, 1000⟩, [], some ⟨[⟨[1], [2], 5⟩], ⟨some [], []⟩⟩⟩
      ⟨[], [], [[1]], [4600]⟩ rfl rfl rfl rfl
  exact (reservation_outlives_iff coinHelpers coinWallet _ _ [4600] [9000] 4600 4600 hbuild
    rfl).mpr (Or.inr (Or.inl (List.cons_ne_nil _ _)))

/-- A spend without an intent of its own, completed a second later by a fee
intent with the longest TTL of that moment: the coin is free while the
transaction can still land. -/
theorem sponsored_offer_outlasts_reservation :
    Reserving coinHelpers coinWallet (coinWallet.prepareTransfer coinHelpers (spendCoin [])).1
        (.made [] [] [[1]] 1000 4600) [] 4600 ∧
      BuildContext.longestTtl coinHelpers ⟨⟨3600, 3600⟩, some ⟨1001, 1001⟩, [], none⟩ = 4601 ∧
      landingDeadline ([] ++ [4601]) = some 4601 ∧
      ¬ ((coinWallet.prepareTransfer coinHelpers (spendCoin [])).1).Outlives
        (.made [] [] [[1]] 1000 4600) 4601 := by
  refine ⟨?_, rfl, rfl, fun h => ?_⟩
  · exact .transfer (spendCoin []) coinWallet ⟨⟨3600, 3600⟩, some ⟨1000, 1000⟩, [], none⟩
      ⟨⟨3600, 3600⟩, some ⟨1000, 1000⟩, [], some ⟨[⟨[1], [2], 5⟩], ⟨some [], []⟩⟩⟩
      ⟨[], [], [[1]], []⟩ rfl rfl rfl rfl
  · have hlast := h [⟨4601, 4601⟩] (by decide) (.shielded ⟨[1], 1000, 4600⟩) (by decide)
    revert hlast
    decide

end Runs

end MidnightRs.WalletBuilds
