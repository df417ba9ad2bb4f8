import MidnightRs.Errors
import Mathlib.Tactic.Tauto

/-!
In-flight spend reservations. A build names the inputs it spends; the wallet
holds them until a replay reports the spend, a release hands them back, or the
chain time passes their expiry. An entry is found again by the input and the
block time it was stamped with, never by the build that made it.
-/
namespace MidnightRs.Reservations

/-- Whole seconds. -/
abbrev Timestamp := ℕ

abbrev Nullifier := Bytes

abbrev DustNullifier := Bytes

structure SpentUtxoKey where
  intentHash : Bytes
  outputIndex : ℕ
deriving DecidableEq, Repr

structure DustSpend where
  vFee : ℕ
  oldNullifier : DustNullifier
deriving DecidableEq, Repr

/-- The spends of one speculative spend. -/
structure DustSpendBatch where
  spends : List DustSpend
deriving DecidableEq, Repr

structure PendingDustBatch where
  spends : List DustSpend
  reservedAt : Timestamp
  expiresAt : Timestamp
deriving DecidableEq, Repr

def PendingDustBatch.spendsNullifier (b : PendingDustBatch) (n : DustNullifier) : Bool :=
  b.spends.any (fun s => decide (s.oldNullifier = n))

/-- One match stands for the whole batch: a transaction applies atomically. -/
def PendingDustBatch.spendsAnyOf (b : PendingDustBatch) (ns : List DustNullifier) : Bool :=
  ns.any b.spendsNullifier

structure PendingUnshieldedSpend where
  key : SpentUtxoKey
  reservedAt : Timestamp
  expiresAt : Timestamp
deriving DecidableEq, Repr

structure PendingShieldedSpend where
  nullifier : Nullifier
  reservedAt : Timestamp
  expiresAt : Timestamp
deriving DecidableEq, Repr

structure ReservedInput (I : Type) where
  input : I
  reservedAt : Timestamp
deriving DecidableEq, Repr

/-- What a build reports to have spent, each input with its own stamp. -/
structure SpentInputs where
  dust : List (ReservedInput DustNullifier)
  unshielded : List (ReservedInput SpentUtxoKey)
  shielded : List (ReservedInput Nullifier)
deriving DecidableEq, Repr

namespace SpentInputs

def default : SpentInputs := ⟨[], [], []⟩

def stamped {I : Type} (inputs : List I) (reservedAt : Timestamp) : List (ReservedInput I) :=
  inputs.map (fun input => ⟨input, reservedAt⟩)

def fromShielded (shielded : List Nullifier) (reservedAt : Timestamp) : SpentInputs :=
  { default with shielded := stamped shielded reservedAt }

def fromUnshielded (unshielded : List SpentUtxoKey) (reservedAt : Timestamp) : SpentInputs :=
  { default with unshielded := stamped unshielded reservedAt }

def merge (s other : SpentInputs) : SpentInputs :=
  ⟨s.dust ++ other.dust, s.unshielded ++ other.unshielded, s.shielded ++ other.shielded⟩

def isEmpty (s : SpentInputs) : Bool :=
  s.dust.isEmpty && s.unshielded.isEmpty && s.shielded.isEmpty

end SpentInputs

/-- Whether a reservation that expires at `expiresAt` can still let its
transaction land at the chain time `now`. -/
def withinTtl (expiresAt now : Timestamp) : Bool := decide (now ≤ expiresAt)

/-- Whether `named` hands back an entry stamped `reservedAt`. -/
def handsBack {I : Type} (named : List (ReservedInput I)) (reservedAt : Timestamp)
    (spends : I → Bool) : Bool :=
  named.any (fun d => decide (d.reservedAt = reservedAt) && spends d.input)

structure PendingReservations where
  dust : List PendingDustBatch
  unshielded : List PendingUnshieldedSpend
  shielded : List PendingShieldedSpend
deriving DecidableEq, Repr

namespace PendingReservations

def default : PendingReservations := ⟨[], [], []⟩

/-- The entries a freshly built transaction adds. -/
def made (dustBatches : List DustSpendBatch) (unshielded : List SpentUtxoKey)
    (shielded : List Nullifier) (reservedAt expiresAt : Timestamp) : PendingReservations where
  dust := dustBatches.map (fun b => ⟨b.spends, reservedAt, expiresAt⟩)
  unshielded := unshielded.map (fun key => ⟨key, reservedAt, expiresAt⟩)
  shielded := shielded.map (fun nullifier => ⟨nullifier, reservedAt, expiresAt⟩)

def append (p q : PendingReservations) : PendingReservations :=
  ⟨p.dust ++ q.dust, p.unshielded ++ q.unshielded, p.shielded ++ q.shielded⟩

def reserve (p : PendingReservations) (dustBatches : List DustSpendBatch)
    (unshielded : List SpentUtxoKey) (shielded : List Nullifier)
    (reservedAt expiresAt : Timestamp) : PendingReservations :=
  p.append (made dustBatches unshielded shielded reservedAt expiresAt)

/-- Drops what a replay saw confirmed, and says whether it dropped anything. -/
def clearConfirmed (p : PendingReservations) (spentUnshielded : List SpentUtxoKey)
    (dustNullifiers : List DustNullifier) : PendingReservations × Bool :=
  let unshielded :=
    if spentUnshielded.isEmpty then p.unshielded
    else p.unshielded.filter (fun e => !spentUnshielded.contains e.key)
  let dust :=
    if dustNullifiers.isEmpty then p.dust
    else p.dust.filter (fun b => !b.spendsAnyOf dustNullifiers)
  (⟨dust, unshielded, p.shielded⟩,
    decide ((unshielded.length, dust.length) ≠ (p.unshielded.length, p.dust.length)))

def release (p : PendingReservations) (dust : List (ReservedInput DustNullifier))
    (unshielded : List (ReservedInput SpentUtxoKey)) (shielded : List (ReservedInput Nullifier)) :
    PendingReservations where
  dust := p.dust.filter (fun b => !handsBack dust b.reservedAt b.spendsNullifier)
  unshielded := p.unshielded.filter
    (fun e => !handsBack unshielded e.reservedAt (fun key => decide (key = e.key)))
  shielded := p.shielded.filter
    (fun e => !handsBack shielded e.reservedAt (fun n => decide (n = e.nullifier)))

def evictExpired (p : PendingReservations) (now : Timestamp) : PendingReservations where
  dust := p.dust.filter (fun b => withinTtl b.expiresAt now)
  unshielded := p.unshielded.filter (fun e => withinTtl e.expiresAt now)
  shielded := p.shielded.filter (fun e => withinTtl e.expiresAt now)

end PendingReservations

/-- An input of any kind. -/
inductive Input where
  | dust (nullifier : DustNullifier)
  | unshielded (key : SpentUtxoKey)
  | shielded (nullifier : Nullifier)
deriving DecidableEq, Repr

/-- A reservation of any kind, so that one lemma speaks about all three. -/
inductive Entry where
  | dust (batch : PendingDustBatch)
  | unshielded (spend : PendingUnshieldedSpend)
  | shielded (spend : PendingShieldedSpend)
deriving DecidableEq, Repr

namespace Entry

def inputs : Entry → List Input
  | dust b => b.spends.map (fun s => .dust s.oldNullifier)
  | unshielded e => [.unshielded e.key]
  | shielded e => [.shielded e.nullifier]

def reservedAt : Entry → Timestamp
  | dust b => b.reservedAt
  | unshielded e => e.reservedAt
  | shielded e => e.reservedAt

def expiresAt : Entry → Timestamp
  | dust b => b.expiresAt
  | unshielded e => e.expiresAt
  | shielded e => e.expiresAt

/-- What a release has to name to take the entry. -/
def tags (e : Entry) : List (Input × Timestamp) := e.inputs.map (fun i => (i, e.reservedAt))

/-- Whether a replay that reports these spends confirms the entry. -/
def confirmedBy (spentUnshielded : List SpentUtxoKey) (dustNullifiers : List DustNullifier) :
    Entry → Bool
  | dust b => b.spendsAnyOf dustNullifiers
  | unshielded e => spentUnshielded.contains e.key
  | shielded _ => false

end Entry

def PendingReservations.entries (p : PendingReservations) : List Entry :=
  p.dust.map .dust ++ p.unshielded.map .unshielded ++ p.shielded.map .shielded

/-- The named inputs of all kinds, each with its stamp. -/
def SpentInputs.named (s : SpentInputs) : List (Input × Timestamp) :=
  s.dust.map (fun d => (.dust d.input, d.reservedAt)) ++
    s.unshielded.map (fun u => (.unshielded u.input, u.reservedAt)) ++
    s.shielded.map (fun n => (.shielded n.input, n.reservedAt))

/-- What a release of all the entries names. -/
def PendingReservations.spentInputs (p : PendingReservations) : SpentInputs where
  dust := p.dust.flatMap (fun b => b.spends.map (fun s => ⟨s.oldNullifier, b.reservedAt⟩))
  unshielded := p.unshielded.map (fun e => ⟨e.key, e.reservedAt⟩)
  shielded := p.shielded.map (fun e => ⟨e.nullifier, e.reservedAt⟩)

namespace SpentInputs

@[simp] theorem named_default : default.named = [] := rfl

theorem mem_named_dust (s : SpentInputs) (n : DustNullifier) (t : Timestamp) :
    (Input.dust n, t) ∈ s.named ↔ ⟨n, t⟩ ∈ s.dust := by
  simp only [named, List.mem_append, List.mem_map, Prod.mk.injEq, Input.dust.injEq, reduceCtorEq,
    false_and, and_false, exists_false, or_false]
  constructor
  · rintro ⟨⟨_, _⟩, hd, rfl, rfl⟩
    exact hd
  · intro h
    exact ⟨_, h, rfl, rfl⟩

theorem mem_named_unshielded (s : SpentInputs) (k : SpentUtxoKey) (t : Timestamp) :
    (Input.unshielded k, t) ∈ s.named ↔ ⟨k, t⟩ ∈ s.unshielded := by
  simp only [named, List.mem_append, List.mem_map, Prod.mk.injEq, Input.unshielded.injEq,
    reduceCtorEq, false_and, and_false, exists_false, or_false, false_or]
  constructor
  · rintro ⟨⟨_, _⟩, hd, rfl, rfl⟩
    exact hd
  · intro h
    exact ⟨_, h, rfl, rfl⟩

theorem mem_named_shielded (s : SpentInputs) (n : Nullifier) (t : Timestamp) :
    (Input.shielded n, t) ∈ s.named ↔ ⟨n, t⟩ ∈ s.shielded := by
  simp only [named, List.mem_append, List.mem_map, Prod.mk.injEq, Input.shielded.injEq,
    reduceCtorEq, false_and, and_false, exists_false, or_false, false_or]
  constructor
  · rintro ⟨⟨_, _⟩, hd, rfl, rfl⟩
    exact hd
  · intro h
    exact ⟨_, h, rfl, rfl⟩

end SpentInputs

theorem handsBack_eq_true_iff {I : Type} (named : List (ReservedInput I)) (t : Timestamp)
    (spends : I → Bool) :
    handsBack named t spends = true ↔ ∃ i, ⟨i, t⟩ ∈ named ∧ spends i = true := by
  simp only [handsBack, List.any_eq_true, Bool.and_eq_true, decide_eq_true_eq]
  constructor
  · rintro ⟨⟨i, t'⟩, hmem, rfl, hspends⟩
    exact ⟨i, hmem, hspends⟩
  · rintro ⟨i, hmem, hspends⟩
    exact ⟨⟨i, t⟩, hmem, rfl, hspends⟩

/-- A list of entries as the three lists of the source select it. -/
theorem PendingReservations.entries_filter (p : PendingReservations) (keep : Entry → Bool) :
    p.entries.filter keep =
      PendingReservations.entries
        ⟨p.dust.filter (fun b => keep (.dust b)),
          p.unshielded.filter (fun e => keep (.unshielded e)),
          p.shielded.filter (fun e => keep (.shielded e))⟩ := by
  simp only [PendingReservations.entries, List.filter_append, List.filter_map]
  rfl

/-- Whether a release that names `named` takes the entry. -/
def Entry.takenBy (named : List (Input × Timestamp)) (e : Entry) : Bool :=
  e.tags.any (fun tag => decide (tag ∈ named))

theorem Entry.takenBy_eq_false_iff (named : List (Input × Timestamp)) (e : Entry) :
    e.takenBy named = false ↔ ∀ tag ∈ e.tags, tag ∉ named := by
  simp [Entry.takenBy]

namespace PendingReservations

theorem mem_entries (p : PendingReservations) (e : Entry) :
    e ∈ p.entries ↔
      (∃ b ∈ p.dust, e = .dust b) ∨ (∃ u ∈ p.unshielded, e = .unshielded u) ∨
        ∃ s ∈ p.shielded, e = .shielded s := by
  simp only [entries, List.mem_append, List.mem_map, or_assoc, @eq_comm Entry _ e]

theorem mem_entries_append (p q : PendingReservations) (e : Entry) :
    e ∈ (p.append q).entries ↔ e ∈ p.entries ∨ e ∈ q.entries := by
  simp only [entries, append, List.map_append, List.mem_append]
  tauto

theorem entries_evictExpired (p : PendingReservations) (now : Timestamp) :
    (p.evictExpired now).entries = p.entries.filter (fun e => withinTtl e.expiresAt now) := by
  rw [entries_filter]
  rfl

theorem entries_release (p : PendingReservations) (s : SpentInputs) :
    (p.release s.dust s.unshielded s.shielded).entries =
      p.entries.filter (fun e => !e.takenBy s.named) := by
  have hdust : ∀ b : PendingDustBatch,
      handsBack s.dust b.reservedAt b.spendsNullifier = (Entry.dust b).takenBy s.named := by
    intro b
    rw [Bool.eq_iff_iff, handsBack_eq_true_iff]
    simp only [PendingDustBatch.spendsNullifier, Entry.takenBy, Entry.tags, Entry.inputs,
      Entry.reservedAt, List.any_eq_true, List.any_map, decide_eq_true_eq, Function.comp_apply,
      SpentInputs.mem_named_dust]
    constructor
    · rintro ⟨_, hmem, spend, hspend, rfl⟩
      exact ⟨spend, hspend, hmem⟩
    · rintro ⟨spend, hspend, hmem⟩
      exact ⟨_, hmem, spend, hspend, rfl⟩
  have hunshielded : ∀ e : PendingUnshieldedSpend,
      handsBack s.unshielded e.reservedAt (fun key => decide (key = e.key)) =
        (Entry.unshielded e).takenBy s.named := by
    intro e
    rw [Bool.eq_iff_iff, handsBack_eq_true_iff]
    simp [Entry.takenBy, Entry.tags, Entry.inputs, Entry.reservedAt,
      SpentInputs.mem_named_unshielded]
  have hshielded : ∀ e : PendingShieldedSpend,
      handsBack s.shielded e.reservedAt (fun n => decide (n = e.nullifier)) =
        (Entry.shielded e).takenBy s.named := by
    intro e
    rw [Bool.eq_iff_iff, handsBack_eq_true_iff]
    simp [Entry.takenBy, Entry.tags, Entry.inputs, Entry.reservedAt,
      SpentInputs.mem_named_shielded]
  rw [entries_filter]
  simp only [release, hdust, hunshielded, hshielded]

theorem entries_clearConfirmed (p : PendingReservations) (spentUnshielded : List SpentUtxoKey)
    (dustNullifiers : List DustNullifier) :
    (p.clearConfirmed spentUnshielded dustNullifiers).1.entries =
      p.entries.filter (fun e => !e.confirmedBy spentUnshielded dustNullifiers) := by
  have hdust : (p.clearConfirmed spentUnshielded dustNullifiers).1.dust =
      p.dust.filter (fun b => !b.spendsAnyOf dustNullifiers) := by
    unfold clearConfirmed
    cases dustNullifiers with
    | nil => simp [PendingDustBatch.spendsAnyOf, List.filter_eq_self.2]
    | cons n ns => rfl
  have hunshielded : (p.clearConfirmed spentUnshielded dustNullifiers).1.unshielded =
      p.unshielded.filter (fun e => !spentUnshielded.contains e.key) := by
    unfold clearConfirmed
    cases spentUnshielded with
    | nil => simp [List.filter_eq_self.2]
    | cons k ks => rfl
  have hshielded : (p.clearConfirmed spentUnshielded dustNullifiers).1.shielded =
      p.shielded.filter (fun _ => !false) :=
    (List.filter_eq_self.2 (fun _ _ => rfl)).symm
  rw [entries_filter]
  simp only [Entry.confirmedBy]
  rw [← hdust, ← hunshielded, ← hshielded]

/-- A report names exactly the tags of the entries it reports. -/
theorem mem_named_spentInputs (p : PendingReservations) (tag : Input × Timestamp) :
    tag ∈ p.spentInputs.named ↔ ∃ e ∈ p.entries, tag ∈ e.tags := by
  obtain ⟨i, t⟩ := tag
  cases i with
  | dust n =>
    simp only [SpentInputs.mem_named_dust, spentInputs, List.mem_flatMap, List.mem_map]
    constructor
    · rintro ⟨b, hb, s, hs, heq⟩
      cases heq
      exact ⟨.dust b, (mem_entries p _).2 (.inl ⟨b, hb, rfl⟩), by
        simpa [Entry.tags, Entry.inputs, Entry.reservedAt] using ⟨s, hs, rfl⟩⟩
    · rintro ⟨e, he, htag⟩
      rcases (mem_entries p e).1 he with ⟨b, hb, rfl⟩ | ⟨u, _, rfl⟩ | ⟨u, _, rfl⟩
      · simp only [Entry.tags, Entry.inputs, Entry.reservedAt, List.map_map, List.mem_map,
          Function.comp_apply, Prod.mk.injEq, Input.dust.injEq] at htag
        obtain ⟨s, hs, rfl, rfl⟩ := htag
        exact ⟨b, hb, s, hs, rfl⟩
      · simp [Entry.tags, Entry.inputs] at htag
      · simp [Entry.tags, Entry.inputs] at htag
  | unshielded k =>
    simp only [SpentInputs.mem_named_unshielded, spentInputs, List.mem_map]
    constructor
    · rintro ⟨u, hu, heq⟩
      cases heq
      exact ⟨.unshielded u, (mem_entries p _).2 (.inr (.inl ⟨u, hu, rfl⟩)), by
        simp [Entry.tags, Entry.inputs, Entry.reservedAt]⟩
    · rintro ⟨e, he, htag⟩
      rcases (mem_entries p e).1 he with ⟨b, _, rfl⟩ | ⟨u, hu, rfl⟩ | ⟨u, _, rfl⟩
      · simp [Entry.tags, Entry.inputs] at htag
      · simp only [Entry.tags, Entry.inputs, Entry.reservedAt, List.map_cons, List.map_nil,
          List.mem_singleton, Prod.mk.injEq, Input.unshielded.injEq] at htag
        obtain ⟨rfl, rfl⟩ := htag
        exact ⟨u, hu, rfl⟩
      · simp [Entry.tags, Entry.inputs] at htag
  | shielded n =>
    simp only [SpentInputs.mem_named_shielded, spentInputs, List.mem_map]
    constructor
    · rintro ⟨u, hu, heq⟩
      cases heq
      exact ⟨.shielded u, (mem_entries p _).2 (.inr (.inr ⟨u, hu, rfl⟩)), by
        simp [Entry.tags, Entry.inputs, Entry.reservedAt]⟩
    · rintro ⟨e, he, htag⟩
      rcases (mem_entries p e).1 he with ⟨b, _, rfl⟩ | ⟨u, _, rfl⟩ | ⟨u, hu, rfl⟩
      · simp [Entry.tags, Entry.inputs] at htag
      · simp [Entry.tags, Entry.inputs] at htag
      · simp only [Entry.tags, Entry.inputs, Entry.reservedAt, List.map_cons, List.map_nil,
          List.mem_singleton, Prod.mk.injEq, Input.shielded.injEq] at htag
        obtain ⟨rfl, rfl⟩ := htag
        exact ⟨u, hu, rfl⟩

end PendingReservations

end MidnightRs.Reservations
