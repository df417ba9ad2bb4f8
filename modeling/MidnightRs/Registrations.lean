import MidnightRs.Ownership

/-!
What a wallet's builds select. A payment, a funded build and a fee select from
the funding view of their context, which leaves out what a reservation holds. A
Dust registration picks a tNIGHT UTXO from the wallet itself.
-/
namespace MidnightRs.WalletBuilds

open Reservations

/-- The token type of NIGHT. -/
def night : Bytes := List.replicate 32 0

def TrackedUtxo.isNight (u : TrackedUtxo) : Bool := decide (u.tokenType = night)

/-- An absent flag reads as not registered. -/
def TrackedUtxo.isRegisteredForDust (u : TrackedUtxo) : Bool :=
  decide (u.registeredForDustGeneration = some true)

/-- The Dust parameters of the ledger that price a registration. -/
structure DustParameters where
  nightDustRatio : ℕ
  generationDecayRate : ℕ
deriving DecidableEq, Repr

/-- Amounts are 128-bit words. -/
def saturatingMul (a b : ℕ) : ℕ := min (a * b) (2 ^ 128 - 1)

/-- The Dust that a UTXO would have generated from its creation to `now`. A
creation after `now` counts as no time. -/
def generationlessFeeAvailability (value : ℕ) (ctime : Timestamp) (nightDustRatio : ℕ)
    (generationDecayRate : ℕ) (now : Timestamp) : ℕ :=
  let dt := now - ctime
  let vfull := saturatingMul value nightDustRatio
  let rate := saturatingMul value generationDecayRate
  min (saturatingMul dt rate) vfull

/-- The last of the greatest, by a comparison of keys. -/
def maxBy {α : Type} (le : α → α → Bool) : List α → Option α
  | [] => none
  | a :: as => some (as.foldl (fun best b => if le best b then b else best) a)

/-- The order in which a registration ranks UTXOs: by the Dust they carry, and
one without a creation time below every UTXO that has one. -/
def rankedLe (availability : TrackedUtxo → ℕ) (u v : TrackedUtxo) : Bool :=
  if u.ctime.isSome = v.ctime.isSome then decide (availability u ≤ availability v)
  else v.ctime.isSome

/-- The tNIGHT UTXO that a registration spends, if some generate no Dust yet. -/
def chooseRegistrationInput (nightUtxos : List TrackedUtxo) (availability : TrackedUtxo → ℕ) :
    Option TrackedUtxo :=
  maxBy (rankedLe availability) (nightUtxos.filter (fun u => !u.isRegisteredForDust))

/-- When a UTXO was created, with a guess for one that does not say. -/
def TrackedUtxo.createdAt (u : TrackedUtxo) (fallback : Timestamp) : Timestamp :=
  match u.ctime with
  | some t => if 0 ≤ t then t.toNat else fallback
  | none => fallback

namespace Wallet

/-- The Dust that a registration of `u` can pay its fee with. -/
def availability (dust : DustParameters) (utxoCtime : Option Timestamp) (now : Timestamp)
    (u : TrackedUtxo) : ℕ :=
  generationlessFeeAvailability u.value (u.createdAt (utxoCtime.getD (now - 3600)))
    dust.nightDustRatio dust.generationDecayRate now

def allNight (w : Wallet) : List TrackedUtxo := w.unshieldedUtxos.filter TrackedUtxo.isNight

/-- What a registration at the block time `now` picks. -/
def registrationInput (w : Wallet) (dust : DustParameters) (utxoCtime : Option Timestamp)
    (now : Timestamp) : Option TrackedUtxo :=
  chooseRegistrationInput w.allNight (availability dust utxoCtime now)

def noNight : WalletError := .transfer "no tNIGHT UTXOs available for dust registration"

def allRegistered : WalletError :=
  .transfer "every tNIGHT UTXO already generates dust: this address is registered"

/-- The Dust that pays a transaction's fee, and the TTLs of its intents. -/
structure Assembled where
  dustBatches : List DustSpendBatch
  intentTtls : List Timestamp
deriving DecidableEq, Repr

/-- Spends one tNIGHT UTXO of the wallet, and pays with the Dust it carries.
`assemble` builds the transaction and balances its fee. -/
def prepareRegisterDust (h : Helpers) (dust : DustParameters) (utxoCtime : Option Timestamp)
    (assemble : BuildContext → TrackedUtxo → ℕ → Result Assembled) (w : Wallet)
    (ctx : BuildContext) : Result Draft :=
  let now := (ctx.block h).tblock
  if w.allNight.isEmpty then .error (.error noNight)
  else
    match w.registrationInput dust utxoCtime now with
    | none => .error (.error allRegistered)
    | some chosen =>
      match assemble ctx chosen (availability dust utxoCtime now chosen) with
      | .error e => .error e
      | .ok tx => .ok ⟨tx.dustBatches, [chosen.spentKey], [], tx.intentTtls⟩

end Wallet

section Picking

variable {α : Type} {le : α → α → Bool}

theorem maxBy_mem {as : List α} {a : α} (h : maxBy le as = some a) : a ∈ as := by
  cases as with
  | nil => cases h
  | cons b bs =>
    obtain rfl := Option.some.inj h
    induction bs generalizing b with
    | nil => exact List.mem_singleton.mpr rfl
    | cons c cs ih =>
      simp only [List.foldl_cons]
      split
      · exact List.mem_cons_of_mem b (ih c rfl)
      · rcases List.mem_cons.mp (ih b rfl) with hb | hcs
        · rw [hb]
          exact List.mem_cons_self
        · exact List.mem_cons_of_mem b (List.mem_cons_of_mem c hcs)

/-- A registration picks tNIGHT of the wallet that generates no Dust yet. -/
theorem registrationInput_mem {w : Wallet} {dust : DustParameters} {utxoCtime : Option Timestamp}
    {now : Timestamp} {u : TrackedUtxo} (h : w.registrationInput dust utxoCtime now = some u) :
    u ∈ w.unshieldedUtxos ∧ u.isNight = true ∧ u.isRegisteredForDust = false := by
  have hmem := List.mem_filter.mp (maxBy_mem h)
  have hnight := List.mem_filter.mp hmem.1
  exact ⟨hnight.1, hnight.2, by simpa using hmem.2⟩

theorem prepareRegisterDust_ok {h : Helpers} {dust : DustParameters} {utxoCtime : Option Timestamp}
    {assemble : BuildContext → TrackedUtxo → ℕ → Result Wallet.Assembled} {w : Wallet}
    {ctx : BuildContext} {d : Draft}
    (hd : Wallet.prepareRegisterDust h dust utxoCtime assemble w ctx = .ok d) :
    ∃ u tx, w.registrationInput dust utxoCtime (ctx.block h).tblock = some u ∧
      assemble ctx u (Wallet.availability dust utxoCtime (ctx.block h).tblock u) = .ok tx ∧
      d = ⟨tx.dustBatches, [u.spentKey], [], tx.intentTtls⟩ := by
  unfold Wallet.prepareRegisterDust at hd
  split at hd
  · cases hd
  · cases hpick : w.registrationInput dust utxoCtime (ctx.block h).tblock with
    | none =>
      simp only [hpick] at hd
      cases hd
    | some u =>
      simp only [hpick] at hd
      cases htx : assemble ctx u (Wallet.availability dust utxoCtime (ctx.block h).tblock u) with
      | error e =>
        simp only [htx] at hd
        cases hd
      | ok tx =>
        simp only [htx] at hd
        cases hd
        exact ⟨u, tx, rfl, htx, rfl⟩

end Picking

section Views

/-- What a funded view leaves out: every Dust nullifier of a pending batch, and
the coins and the UTXOs that a reservation holds. -/
structure Withholds (w : Wallet) (ctx : BuildContext) : Prop where
  dust : ∀ b ∈ w.pending.dust, ∀ s ∈ b.spends, ∀ view, ctx.wallet = some view →
    s.oldNullifier ∈ view.dust.spentUtxos
  unshielded : ∀ u ∈ ctx.utxos, u.spentKey ∉ w.reservedUnshieldedKeys
  shielded : ∀ view, ctx.wallet = some view → ∀ c ∈ view.coins,
    c.nullifier ∉ w.reservedShieldedNullifiers

theorem foldl_markSpent (batches : List PendingDustBatch) (d : DustWallet)
    (state : List DustNullifier) (n : DustNullifier)
    (hn : n ∈ d.spentUtxos ∨ ∃ b ∈ batches, ∃ s ∈ b.spends, s.oldNullifier = n) :
    n ∈ (batches.foldl (fun d b => d.markSpent b.spends state) d).spentUtxos := by
  induction batches generalizing d with
  | nil =>
    rcases hn with hn | ⟨b, hb, -⟩
    · exact hn
    · cases hb
  | cons b bs ih =>
    apply ih
    rcases hn with hn | ⟨b', hb', s, hs, rfl⟩
    · exact Or.inl (List.mem_append_left _ hn)
    · rcases List.mem_cons.mp hb' with rfl | hb'
      · exact Or.inl (List.mem_append_right _ (List.mem_map_of_mem hs))
      · exact Or.inr ⟨b', hb', s, hs, rfl⟩

theorem fundedDust_spent {w : Wallet} {d : DustWallet} (h : w.fundedDust = .ok d)
    {b : PendingDustBatch} (hb : b ∈ w.pending.dust) {s : DustSpend} (hs : s ∈ b.spends) :
    s.oldNullifier ∈ d.spentUtxos := by
  unfold Wallet.fundedDust at h
  cases hstate : w.dustWallet.dustLocalState with
  | some state =>
    simp only [hstate] at h
    cases h
    exact foldl_markSpent _ _ _ _ (Or.inr ⟨b, hb, s, hs, rfl⟩)
  | none =>
    simp only [hstate] at h
    split at h
    · rename_i hempty
      rw [List.isEmpty_iff.mp hempty] at hb
      cases hb
    · cases h

theorem fund_withholds {w : Wallet} {ctx ctx' : BuildContext} (hfresh : ctx.utxos = [])
    (h : w.fund ctx = (ctx', .ok ())) : Withholds w ctx' := by
  unfold Wallet.fund at h
  cases hdust : w.fundedDust with
  | error e =>
    rw [hdust] at h
    cases h
  | ok dust =>
    rw [hdust] at h
    cases h
    refine ⟨fun b hb s hs view hview => ?_, fun u hu => ?_, fun view hview c hc => ?_⟩
    · cases hview
      exact fundedDust_spent hdust hb hs
    · simp only [hfresh, List.nil_append] at hu
      simpa using (List.mem_filter.mp hu).2
    · cases hview
      simpa using (List.mem_filter.mp hc).2

theorem evict_unshieldedUtxos (w : Wallet) : w.evict.unshieldedUtxos = w.unshieldedUtxos := by
  unfold Wallet.evict
  split <;> rfl

theorem evict_blockContext (w : Wallet) : w.evict.blockContext = w.blockContext := by
  unfold Wallet.evict
  split <;> rfl

/-- An eviction reserves nothing. -/
theorem evict_reservedUnshieldedKeys {w : Wallet} {key : SpentUtxoKey}
    (h : key ∈ w.evict.reservedUnshieldedKeys) : key ∈ w.reservedUnshieldedKeys := by
  obtain ⟨e, he, rfl⟩ := List.mem_map.mp h
  obtain ⟨hmem, hholds⟩ := List.mem_filter.mp he
  refine List.mem_map_of_mem (List.mem_filter.mpr ⟨?_, ?_⟩)
  · unfold Wallet.evict at hmem
    split at hmem
    · exact List.mem_of_mem_filter hmem
    · exact hmem
  · unfold Wallet.reservationHolds at hholds ⊢
    rw [evict_blockContext] at hholds
    exact hholds

theorem fund_latestBlockContext (w : Wallet) (ctx : BuildContext) :
    (w.fund ctx).1.latestBlockContext = w.blockContext := by
  unfold Wallet.fund
  cases w.fundedDust with
  | error e => rfl
  | ok dust => rfl

/-- A funded context is at the block of the wallet. -/
theorem addFunding_block {w w' : Wallet} {ctx ctx' : BuildContext}
    (h : w.addFunding ctx = (w', ctx', .ok ())) : ctx'.latestBlockContext = w.blockContext := by
  unfold Wallet.addFunding at h
  split at h
  · cases h
  · obtain ⟨-, hfund⟩ := Prod.mk.inj h
    have hblock := fund_latestBlockContext w.evict ctx
    rw [hfund] at hblock
    exact hblock.trans (evict_blockContext w)

theorem addFunding_withholds {w w' : Wallet} {ctx ctx' : BuildContext} (hfresh : ctx.utxos = [])
    (h : w.addFunding ctx = (w', ctx', .ok ())) : w' = w.evict ∧ Withholds w' ctx' := by
  unfold Wallet.addFunding at h
  split at h
  · cases h
  · obtain ⟨rfl, hfund⟩ := Prod.mk.inj h
    exact ⟨rfl, fund_withholds hfresh hfund⟩

end Views

end MidnightRs.WalletBuilds

namespace MidnightRs.Ownership

open Loops Reservations WalletBuilds

section Selecting

/-- A selection from the view of a context: it names inputs that the view
offers, and no Dust that the view counts as spent. -/
structure Draws (ctx : BuildContext) (d : Draft) : Prop where
  dust : ∀ b ∈ d.dustBatches, ∀ s ∈ b.spends, ∃ view, ctx.wallet = some view ∧
    s.oldNullifier ∉ view.dust.spentUtxos
  unshielded : ∀ key ∈ d.spentUnshieldedInputs, ∃ u ∈ ctx.utxos, u.spentKey = key
  shielded : ∀ n ∈ d.spentShieldedInputs, ∃ view, ctx.wallet = some view ∧
    ∃ c ∈ view.coins, c.nullifier = n

/-- The builds that a wallet takes. A transfer pays or registers for Dust. -/
inductive Request where
  | payment (h : Helpers) (build : BuildContext → Result Draft)
  | dustRegistration (h : Helpers) (dust : DustParameters) (utxoCtime : Option Timestamp)
      (assemble : BuildContext → TrackedUtxo → ℕ → Result Wallet.Assembled)
  | funded (h : Helpers) (ctx : BuildContext) (build : BuildContext → Result Draft)
  | fees (h : Helpers) (ctx : BuildContext) (build : BuildContext → Result (Option Draft))
  | spendShielded (h : Helpers) (ctx : BuildContext) (nullifiers : List Nullifier)
      (prepare : BuildContext → List Nullifier → Result (List PreparedInput))
  | spendUnshielded (h : Helpers) (ctx : BuildContext)
      (prepare : BuildContext → Result PreparedUnshielded)

namespace Request

def action : Request → Action
  | payment h build => .prepareTransfer h (fun _ ctx => build ctx)
  | dustRegistration h dust utxoCtime assemble =>
    .prepareTransfer h (Wallet.prepareRegisterDust h dust utxoCtime assemble)
  | funded h ctx build => .prepareFunded h ctx build
  | fees h ctx build => .prepareFees h ctx build
  | spendShielded h ctx nullifiers prepare => .spendShielded h ctx nullifiers prepare
  | spendUnshielded h ctx prepare => .spendUnshielded h ctx prepare

/-- What the builders rely on: selections draw from the view, and a context that
a build funds holds no UTXO before. -/
def Lawful : Request → Prop
  | payment _ build => ∀ ctx d, build ctx = .ok d → Draws ctx d
  | dustRegistration _ _ _ assemble => ∀ ctx u amount tx, assemble ctx u amount = .ok tx →
    Draws ctx ⟨tx.dustBatches, [], [], tx.intentTtls⟩
  | funded _ ctx build => ctx.utxos = [] ∧ ∀ ctx d, build ctx = .ok d → Draws ctx d
  | fees _ ctx build => ctx.utxos = [] ∧ ∀ ctx d, build ctx = .ok (some d) → Draws ctx d
  | spendShielded _ _ _ _ => True
  | spendUnshielded _ _ _ => True

/-- The UTXO that a registration picks although a reservation holds it. -/
def takes (w : Wallet) : Request → List Input
  | dustRegistration h dust utxoCtime _ =>
    (w.registrationInput dust utxoCtime (w.blockContext.getD h.noBlock).tblock).toList.filterMap
      (fun u => if u.spentKey ∈ w.reservedUnshieldedKeys then some (.unshielded u.spentKey)
        else none)
  | _ => []

end Request

/-- A reservation that the wallet still counts. -/
def Holding (w : Wallet) (e : Entry) : Prop :=
  e ∈ w.pending.entries ∧ w.reservationHolds e.expiresAt = true

def inputsOf (p : PendingReservations) : List Input := p.entries.flatMap Entry.inputs

/-- What was reserved shares no input with the reservations of the wallet. -/
def Apart (w : Wallet) (made : PendingReservations) : Prop :=
  ∀ e, Holding w e → ∀ i ∈ e.inputs, i ∉ inputsOf made

/-- What was reserved shares no other input with them. -/
def ApartBut (taken : List Input) (w : Wallet) (made : PendingReservations) : Prop :=
  ∀ e, Holding w e → ∀ i ∈ e.inputs, i ∈ inputsOf made → i ∈ taken

/-- The chain time stands still, and the wallet keeps what it counts. -/
structure Retains (w w' : Wallet) : Prop where
  block : w'.blockContext = w.blockContext
  held : ∀ e, Holding w e → e ∈ w'.pending.entries

theorem Retains.refl (w : Wallet) : Retains w w := ⟨rfl, fun _ he => he.1⟩

theorem Retains.holding {w w' : Wallet} (h : Retains w w') {e : Entry} (he : Holding w e) :
    Holding w' e := by
  refine ⟨h.held e he, ?_⟩
  unfold Wallet.reservationHolds
  rw [h.block]
  exact he.2

theorem Retains.trans {w w' w'' : Wallet} (h : Retains w w') (h' : Retains w' w'') :
    Retains w w'' :=
  ⟨h'.block.trans h.block, fun e he => h'.held e (h.holding he)⟩

theorem retains_evict (w : Wallet) : Retains w w.evict := by
  unfold Wallet.evict
  cases hbc : w.blockContext with
  | none => exact Retains.refl w
  | some bc =>
    refine ⟨hbc.symm, fun e he => ?_⟩
    rw [PendingReservations.entries_evictExpired]
    have hholds := he.2
    unfold Wallet.reservationHolds at hholds
    rw [hbc] at hholds
    exact List.mem_filter.mpr ⟨he.1, hholds⟩

theorem retains_reserve (w : Wallet) (dustBatches : List DustSpendBatch)
    (unshielded : List SpentUtxoKey) (shielded : List Nullifier)
    (reservedAt expiresAt : Timestamp) :
    Retains w (w.reservePending dustBatches unshielded shielded reservedAt expiresAt) :=
  ⟨rfl, fun e he => (PendingReservations.mem_entries_append _ _ e).mpr (Or.inl he.1)⟩

theorem retains_addFunding (w : Wallet) (ctx : BuildContext) :
    Retains w (w.addFunding ctx).1 := by
  rw [Wallet.addFunding_wallet]
  split
  · exact Retains.refl w
  · exact retains_evict w

theorem mem_inputsOf (p : PendingReservations) (i : Input) :
    i ∈ inputsOf p ↔ (∃ b ∈ p.dust, ∃ s ∈ b.spends, i = .dust s.oldNullifier) ∨
      (∃ e ∈ p.unshielded, i = .unshielded e.key) ∨
      ∃ e ∈ p.shielded, i = .shielded e.nullifier := by
  unfold inputsOf
  simp only [List.mem_flatMap, PendingReservations.mem_entries]
  constructor
  · rintro ⟨e, he, hi⟩
    cases e with
    | dust b =>
      obtain ⟨s, hs, rfl⟩ := List.mem_map.mp hi
      exact Or.inl ⟨b, by simpa using he, s, hs, rfl⟩
    | unshielded e => exact Or.inr (Or.inl ⟨e, by simpa using he, List.mem_singleton.mp hi⟩)
    | shielded e => exact Or.inr (Or.inr ⟨e, by simpa using he, List.mem_singleton.mp hi⟩)
  · rintro (⟨b, hb, s, hs, rfl⟩ | ⟨e, he, rfl⟩ | ⟨e, he, rfl⟩)
    · exact ⟨.dust b, by simpa using hb, List.mem_map_of_mem hs⟩
    · exact ⟨.unshielded e, by simpa using he, List.mem_singleton.mpr rfl⟩
    · exact ⟨.shielded e, by simpa using he, List.mem_singleton.mpr rfl⟩

end Selecting

section Steps

variable {w : Wallet}

theorem mem_inputsOf_made (dustBatches : List DustSpendBatch) (unshielded : List SpentUtxoKey)
    (shielded : List Nullifier) (reservedAt expiresAt : Timestamp) (i : Input) :
    i ∈ inputsOf (.made dustBatches unshielded shielded reservedAt expiresAt) ↔
      (∃ b ∈ dustBatches, ∃ s ∈ b.spends, i = .dust s.oldNullifier) ∨
        (∃ key ∈ unshielded, i = .unshielded key) ∨ ∃ n ∈ shielded, i = .shielded n := by
  simp [mem_inputsOf, PendingReservations.made]

/-- A reservation that the wallet counts is one that its checks see. -/
theorem Holding.cases {e : Entry} (he : Holding w e) :
    (∃ b ∈ w.pending.dust, e = .dust b) ∨
      (∃ s, e = .unshielded s ∧ s.key ∈ w.reservedUnshieldedKeys) ∨
      ∃ s, e = .shielded s ∧ s.nullifier ∈ w.reservedShieldedNullifiers := by
  obtain ⟨hmem, hholds⟩ := he
  rcases (PendingReservations.mem_entries _ _).mp hmem with ⟨b, hb, rfl⟩ | ⟨s, hs, rfl⟩ |
    ⟨s, hs, rfl⟩
  · exact Or.inl ⟨b, hb, rfl⟩
  · exact Or.inr (Or.inl ⟨s, rfl, List.mem_map_of_mem (List.mem_filter.mpr ⟨hs, hholds⟩)⟩)
  · exact Or.inr (Or.inr ⟨s, rfl, List.mem_map_of_mem (List.mem_filter.mpr ⟨hs, hholds⟩)⟩)

theorem Holding.reserved {e : Entry} (he : Holding w e) {key : SpentUtxoKey}
    (hi : .unshielded key ∈ e.inputs) : key ∈ w.reservedUnshieldedKeys := by
  rcases he.cases with ⟨b, -, rfl⟩ | ⟨s, rfl, hs⟩ | ⟨s, rfl, -⟩
  · obtain ⟨s, -, heq⟩ := List.mem_map.mp hi
    cases heq
  · exact Input.unshielded.inj (List.mem_singleton.mp hi) ▸ hs
  · cases List.mem_singleton.mp hi

/-- Inputs that no check sees reserved stand apart from the reservations. -/
theorem apart_made {dustBatches : List DustSpendBatch} {unshielded : List SpentUtxoKey}
    {shielded : List Nullifier} (reservedAt expiresAt : Timestamp)
    (hdust : ∀ b ∈ w.pending.dust, ∀ s ∈ b.spends, ∀ b' ∈ dustBatches, ∀ s' ∈ b'.spends,
      s.oldNullifier ≠ s'.oldNullifier)
    (hunshielded : ∀ key ∈ unshielded, key ∉ w.reservedUnshieldedKeys)
    (hshielded : ∀ n ∈ shielded, n ∉ w.reservedShieldedNullifiers) :
    Apart w (.made dustBatches unshielded shielded reservedAt expiresAt) := by
  intro e he i hi hmade
  rw [mem_inputsOf_made] at hmade
  rcases he.cases with ⟨b, hb, rfl⟩ | ⟨s, rfl, hs⟩ | ⟨s, rfl, hs⟩
  · obtain ⟨s, hs, rfl⟩ := List.mem_map.mp hi
    rcases hmade with ⟨b', hb', s', hs', heq⟩ | ⟨key, -, heq⟩ | ⟨n, -, heq⟩
    · exact hdust b hb s hs b' hb' s' hs' (Input.dust.inj heq)
    · cases heq
    · cases heq
  · obtain rfl := List.mem_singleton.mp hi
    rcases hmade with ⟨b', -, s', -, heq⟩ | ⟨key, hkey, heq⟩ | ⟨n, -, heq⟩
    · cases heq
    · exact hunshielded key hkey (Input.unshielded.inj heq ▸ hs)
    · cases heq
  · obtain rfl := List.mem_singleton.mp hi
    rcases hmade with ⟨b', -, s', -, heq⟩ | ⟨key, -, heq⟩ | ⟨n, hn, heq⟩
    · cases heq
    · cases heq
    · exact hshielded n hn (Input.shielded.inj heq ▸ hs)

theorem Apart.mono {w w' : Wallet} {made : PendingReservations} (h : Apart w' made)
    (hret : Retains w w') : Apart w made :=
  fun e he => h e (hret.holding he)

theorem Apart.but {made : PendingReservations} (h : Apart w made) (taken : List Input) :
    ApartBut taken w made :=
  fun e he i hi hmade => absurd hmade (h e he i hi)

theorem ApartBut.apart {made : PendingReservations} (h : ApartBut [] w made) : Apart w made :=
  fun e he i hi hmade => by cases h e he i hi hmade

/-- What a selection draws from a funded view stands apart. -/
theorem draws_apart {h : Helpers} {ctx : BuildContext} {d : Draft} (hview : Withholds w ctx)
    (hd : Draws ctx d) : Apart w (PreparedTransfer.new h ctx d).made := by
  refine apart_made _ _ (fun b hb s hs b' hb' s' hs' heq => ?_) (fun key hkey => ?_)
    (fun n hn => ?_)
  · obtain ⟨view, hctx, hfree⟩ := hd.dust b' hb' s' hs'
    exact hfree (heq ▸ hview.dust b hb s hs view hctx)
  · obtain ⟨u, hu, rfl⟩ := hd.unshielded key hkey
    exact hview.unshielded u hu
  · obtain ⟨view, hctx, c, hc, rfl⟩ := hd.shielded n hn
    exact hview.shielded view hctx c hc

/-- What a request does to a world: it keeps the history, or it books one build
that stands apart from what the wallet counts, but for `taken`. -/
inductive Answered (taken : List Input) (w : World) : World → Prop
  | kept (wallet : Wallet) (h : Retains w.wallet wallet) : Answered taken w { w with wallet }
  | booked (wallet : Wallet) (made : PendingReservations) (spent : SpentInputs)
      (h : Retains w.wallet wallet) (hapart : ApartBut taken w.wallet made) :
      Answered taken w (w.booked wallet made spent)

variable {taken : List Input}

theorem answered_reserveDraft (w : World) (h : Helpers) {wallet : Wallet} {ctx : BuildContext}
    (hret : Retains w.wallet wallet) {draft : Result Draft}
    (hdraft : ∀ d, draft = .ok d → ApartBut taken w.wallet (PreparedTransfer.new h ctx d).made) :
    Answered taken w (w.afterPrepare (wallet.reserveDraft h ctx draft)) := by
  cases draft with
  | error e => exact .kept wallet hret
  | ok d => exact .booked _ _ _ (hret.trans (retains_reserve wallet _ _ _ _ _)) (hdraft d rfl)

/-- A build that selects from the context which it funded. -/
theorem answered_prepareFunded (w : World) (h : Helpers) {ctx : BuildContext}
    {build : BuildContext → Result Draft} (hfresh : ctx.utxos = [])
    (hdraws : ∀ ctx d, build ctx = .ok d → Draws ctx d) :
    Answered taken w (w.afterPrepare (w.wallet.prepareFunded h ctx build)) := by
  have hret := retains_addFunding w.wallet ctx
  unfold Wallet.prepareFunded
  rcases hfund : w.wallet.addFunding ctx with ⟨wallet, ctx', e | u⟩
  · rw [hfund] at hret
    exact .kept wallet hret
  · rw [hfund] at hret
    have hview := (addFunding_withholds hfresh hfund).2
    exact answered_reserveDraft w h hret
      (fun d hd => ((draws_apart hview (hdraws ctx' d hd)).mono hret).but taken)

/-- A transfer funds a fresh context, and builds on it. -/
theorem answered_prepareTransfer (w : World) (h : Helpers)
    {build : Wallet → BuildContext → Result Draft}
    (hapart : ∀ ctx wallet ctx' d, ctx.utxos = [] → w.wallet.addFunding ctx = (wallet, ctx', .ok ()) →
      build wallet ctx' = .ok d → ApartBut taken wallet (PreparedTransfer.new h ctx' d).made) :
    Answered taken w (w.afterPrepare (w.wallet.prepareTransfer h build)) := by
  unfold Wallet.prepareTransfer
  cases hctx : w.wallet.executionContext h with
  | error e => exact .kept w.wallet (Retains.refl _)
  | ok ctx =>
    have hfresh : ctx.utxos = [] := by
      unfold Wallet.executionContext at hctx
      split at hctx
      · cases hctx
        rfl
      · cases hctx
    have hret := retains_addFunding w.wallet ctx
    simp only
    rcases hfund : w.wallet.addFunding ctx with ⟨wallet, ctx', e | u⟩
    · rw [hfund] at hret
      exact .kept wallet hret
    · rw [hfund] at hret
      exact answered_reserveDraft w h hret
        (fun d hd e he => hapart ctx wallet ctx' d hfresh hfund hd e (hret.holding he))

/-- A registration stands apart, but for the UTXO that it picks. -/
theorem answered_dustRegistration (w : World) (h : Helpers) (dust : DustParameters)
    (utxoCtime : Option Timestamp) (assemble : BuildContext → TrackedUtxo → ℕ →
      Result Wallet.Assembled)
    (hlawful : (Request.dustRegistration h dust utxoCtime assemble).Lawful) :
    Answered ((Request.dustRegistration h dust utxoCtime assemble).takes w.wallet) w
      (w.step (Request.dustRegistration h dust utxoCtime assemble).action) := by
  refine answered_prepareTransfer w h (fun ctx wallet ctx' d hfresh hfund hd => ?_)
  obtain ⟨rfl, hview⟩ := addFunding_withholds hfresh hfund
  obtain ⟨u, tx, hpick, htx, rfl⟩ := prepareRegisterDust_ok hd
  have hblock : (ctx'.block h).tblock = (w.wallet.blockContext.getD h.noBlock).tblock := by
    unfold BuildContext.block
    rw [addFunding_block hfund]
  have hnight : w.wallet.evict.allNight = w.wallet.allNight := by
    unfold Wallet.allNight
    rw [evict_unshieldedUtxos]
  have hpicked : w.wallet.registrationInput dust utxoCtime
      (w.wallet.blockContext.getD h.noBlock).tblock = some u := by
    rw [hblock] at hpick
    unfold Wallet.registrationInput at hpick ⊢
    rw [← hnight]
    exact hpick
  have hdraws := hlawful ctx' u _ tx htx
  intro e he i hi hmade
  rcases (mem_inputsOf_made _ _ _ _ _ i).mp hmade with ⟨b, hb, s, hs, rfl⟩ | ⟨key, hkey, rfl⟩ |
    ⟨n, hn, -⟩
  · have hdrawn := draws_apart (h := h) hview hdraws e he _ hi
    exact absurd ((mem_inputsOf_made _ _ _ _ _ _).mpr (.inl ⟨b, hb, s, hs, rfl⟩)) hdrawn
  · obtain rfl := List.mem_singleton.mp hkey
    have hreserved := evict_reservedUnshieldedKeys (he.reserved hi)
    exact List.mem_filterMap.mpr ⟨u, Option.mem_toList.mpr hpicked, if_pos hreserved⟩
  · cases hn

theorem answered_prepareFees (w : World) (h : Helpers) {ctx : BuildContext}
    {build : BuildContext → Result (Option Draft)} (hfresh : ctx.utxos = [])
    (hdraws : ∀ ctx d, build ctx = .ok (some d) → Draws ctx d) :
    Answered taken w (w.afterFees (w.wallet.prepareFees h ctx build)) := by
  have hret := retains_addFunding w.wallet ctx
  unfold Wallet.prepareFees
  rcases hfund : w.wallet.addFunding ctx with ⟨wallet, ctx', e | u⟩
  · rw [hfund] at hret
    exact .kept wallet hret
  · rw [hfund] at hret
    have hview := (addFunding_withholds hfresh hfund).2
    simp only
    rcases hbuild : build ctx' with e | _ | d
    · exact .kept wallet hret
    · exact .kept wallet hret
    · exact .booked _ _ _ (hret.trans (retains_reserve wallet _ _ _ _ _))
        (((draws_apart hview (hdraws ctx' d hbuild)).mono hret).but taken)

/-- A spend checks its inputs against the reservations. -/
theorem answered_spendShielded (w : World) (h : Helpers) (ctx : BuildContext)
    (nullifiers : List Nullifier)
    (prepare : BuildContext → List Nullifier → Result (List PreparedInput)) :
    Answered taken w (w.afterSpend (ctx.longestTtl h)
      (w.wallet.spendShielded h ctx nullifiers prepare)) := by
  have hapart : ∀ ns : List Nullifier, (∀ n ∈ ns, n ∉ w.wallet.reservedShieldedNullifiers) →
      ∀ reservedAt expiresAt, ApartBut taken w.wallet ⟨[], [],
        (SpentInputs.fromShielded ns reservedAt).shielded.map
          (fun s => ⟨s.input, s.reservedAt, expiresAt⟩)⟩ := by
    intro ns hns reservedAt expiresAt
    have hmade := @apart_made w.wallet [] [] ns reservedAt expiresAt
      (fun _ _ _ _ b' hb' => by cases hb') (fun key hkey => by cases hkey) hns
    simpa [PendingReservations.made, SpentInputs.fromShielded, SpentInputs.stamped,
      Function.comp_def] using hmade.but taken
  unfold Wallet.spendShielded
  split
  · exact .booked _ _ _ (Retains.refl _) (hapart [] (fun n hn => by cases hn) 0 _)
  · split
    · exact .kept _ (Retains.refl _)
    · rename_i hfind
      split
      · exact .kept _ (Retains.refl _)
      · refine .booked _ _ _ (retains_reserve w.wallet _ _ _ _ _) (hapart nullifiers ?_ _ _)
        intro n hn
        simpa using List.find?_eq_none.mp hfind n hn

theorem answered_spendUnshielded (w : World) (h : Helpers) (ctx : BuildContext)
    (prepare : BuildContext → Result PreparedUnshielded) :
    Answered taken w (w.afterSpend (ctx.longestTtl h) (w.wallet.spendUnshielded h ctx prepare)) := by
  unfold Wallet.spendUnshielded
  split
  · exact .kept _ (Retains.refl _)
  · rename_i prepared hprepared
    split
    · exact .kept _ (Retains.refl _)
    · rename_i hfind
      refine .booked _ _ _ (retains_reserve w.wallet _ _ _ _ _) ?_
      have hmade := @apart_made w.wallet [] prepared.spent [] (ctx.block h).tblock
        (ctx.longestTtl h) (fun _ _ _ _ b' hb' => by cases hb')
        (fun key hkey => by simpa using List.find?_eq_none.mp hfind key hkey)
        (fun n hn => by cases hn)
      simpa [PendingReservations.made, SpentInputs.fromUnshielded, SpentInputs.stamped,
        SpentInputs.default, Function.comp_def] using hmade.but taken

/-- A request books a build that stands apart, but for the UTXO that a registration
picks, or none. -/
theorem step_answered (w : World) (r : Request) (hlawful : r.Lawful) :
    Answered (r.takes w.wallet) w (w.step r.action) := by
  cases r with
  | payment h build =>
    refine answered_prepareTransfer w h (fun ctx wallet ctx' d hfresh hfund hd => ?_)
    exact (draws_apart (addFunding_withholds hfresh hfund).2 (hlawful ctx' d hd)).but _
  | dustRegistration h dust utxoCtime assemble =>
    exact answered_dustRegistration w h dust utxoCtime assemble hlawful
  | funded h ctx build => exact answered_prepareFunded w h hlawful.1 hlawful.2
  | fees h ctx build => exact answered_prepareFees w h hlawful.1 hlawful.2
  | spendShielded h ctx nullifiers prepare =>
    exact answered_spendShielded w h ctx nullifiers prepare
  | spendUnshielded h ctx prepare => exact answered_spendUnshielded w h ctx prepare

end Steps

end MidnightRs.Ownership
