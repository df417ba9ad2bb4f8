import MidnightRs.Hex
import MidnightRs.Reservations
import MidnightRs.Results
import MidnightRs.Utxos

/-!
The reservations and the UTXOs that a wallet keeps on disk. A Dust spend and a
nullifier are stored in the tagged encoding of the generation that made them, and
a generation reads only its own. What it reads back is what was stored, entry by
entry, or an error.
-/
namespace MidnightRs.StoredReservations

open Results Utxos
open Reservations (Timestamp)

section Model

/-- The tagged encoding of a type. -/
structure Tagged (α : Type) where
  serialize : α → Except String Bytes
  deserialize : Bytes → Except String α

/-- Writing into memory does not fail, and reading undoes it. -/
structure Tagged.Lawful {α : Type} (codec : Tagged α) : Prop where
  total : ∀ x, ∃ buf, codec.serialize x = .ok buf
  inverse : ∀ x buf, codec.serialize x = .ok buf → codec.deserialize buf = .ok x

/-- What a generation's ledger crates know of its Dust spends and nullifiers. -/
structure Generation where
  ledger : LedgerVersion
  DustSpend : Type
  Nullifier : Type
  dustSpends : Tagged (List DustSpend)
  nullifier : Tagged Nullifier

structure Generation.Lawful (G : Generation) : Prop where
  dustSpends : G.dustSpends.Lawful
  nullifier : G.nullifier.Lawful

variable (G : Generation)

structure PendingDustBatch where
  spends : List G.DustSpend
  reservedAt : Timestamp
  expiresAt : Timestamp

structure PendingUnshieldedSpend where
  key : SpentUtxoKey
  reservedAt : Timestamp
  expiresAt : Timestamp

structure PendingShieldedSpend where
  nullifier : G.Nullifier
  reservedAt : Timestamp
  expiresAt : Timestamp

structure PendingReservations where
  dust : List (PendingDustBatch G)
  unshielded : List PendingUnshieldedSpend
  shielded : List (PendingShieldedSpend G)

def PendingReservations.default : PendingReservations G := ⟨[], [], []⟩

structure StoredPendingDustBatch where
  spendsHex : String
  reservedAtSecs : Timestamp
  expiresAtSecs : Timestamp
deriving DecidableEq, Repr

structure StoredPendingUnshielded where
  intentHash : String
  outputIndex : Fin (2 ^ 32)
  reservedAtSecs : Timestamp
  expiresAtSecs : Timestamp
deriving DecidableEq, Repr

structure StoredPendingShielded where
  nullifierHex : String
  reservedAtSecs : Timestamp
  expiresAtSecs : Timestamp
deriving DecidableEq, Repr

/-- The contents of `pending.json`. -/
structure StoredPending where
  ledgerVersion : LedgerVersion
  dust : List StoredPendingDustBatch
  unshielded : List StoredPendingUnshielded
  shielded : List StoredPendingShielded
deriving DecidableEq, Repr

def StoredPending.isEmpty (s : StoredPending) : Bool :=
  s.dust.isEmpty && s.unshielded.isEmpty && s.shielded.isEmpty

/-- The text of a stored file. -/
structure Json where
  encode : StoredPending → Except String String
  decode : String → Except String StoredPending

def Json.Lawful (json : Json) : Prop :=
  ∀ stored text, json.encode stored = .ok text → json.decode text = .ok stored

section Hex

variable {α : Type} (codec : Tagged α)

def taggedToHex (value : α) (what : String) : Except WalletError String :=
  match codec.serialize value with
  | .error e => .error (.storage s!"serialize {what}: {e}")
  | .ok buf => .ok (Hex.encode buf)

def taggedFromHex (encoded what : String) : Except WalletError α :=
  match Hex.decode encoded with
  | .error e => .error (.storage s!"decode {what}: {e}")
  | .ok bytes =>
    match codec.deserialize bytes with
    | .error e => .error (.storage s!"deserialize {what}: {e}")
    | .ok value => .ok value

end Hex

variable {G}

def PendingDustBatch.toStored (p : PendingDustBatch G) :
    Except WalletError StoredPendingDustBatch := do
  let spendsHex ← taggedToHex G.dustSpends p.spends "pending dust spends"
  pure ⟨spendsHex, p.reservedAt, p.expiresAt⟩

def PendingDustBatch.fromStored (s : StoredPendingDustBatch) :
    Except WalletError (PendingDustBatch G) := do
  let spends ← taggedFromHex G.dustSpends s.spendsHex "pending dust spends"
  pure ⟨spends, s.reservedAtSecs, s.expiresAtSecs⟩

def PendingUnshieldedSpend.toStored (p : PendingUnshieldedSpend) : StoredPendingUnshielded :=
  ⟨Hex.encode p.key.intentHash.bytes, p.key.outputIndex, p.reservedAt, p.expiresAt⟩

def PendingUnshieldedSpend.fromStored (s : StoredPendingUnshielded) :
    Except WalletError PendingUnshieldedSpend := do
  let intentHash ← (HashOutput.fromHex s.intentHash).mapError
    (fun e => .storage s!"decode pending unshielded intent hash: {e}")
  pure ⟨⟨intentHash, s.outputIndex⟩, s.reservedAtSecs, s.expiresAtSecs⟩

def PendingShieldedSpend.toStored (p : PendingShieldedSpend G) :
    Except WalletError StoredPendingShielded := do
  let nullifierHex ← taggedToHex G.nullifier p.nullifier "pending shielded nullifier"
  pure ⟨nullifierHex, p.reservedAt, p.expiresAt⟩

def PendingShieldedSpend.fromStored (s : StoredPendingShielded) :
    Except WalletError (PendingShieldedSpend G) := do
  let nullifier ← taggedFromHex G.nullifier s.nullifierHex "pending shielded nullifier"
  pure ⟨nullifier, s.reservedAtSecs, s.expiresAtSecs⟩

namespace PendingReservations

def toStored (p : PendingReservations G) : Except WalletError StoredPending := do
  let dust ← p.dust.mapM PendingDustBatch.toStored
  let shielded ← p.shielded.mapM PendingShieldedSpend.toStored
  pure ⟨G.ledger, dust, p.unshielded.map PendingUnshieldedSpend.toStored, shielded⟩

/-- Another generation's transactions cannot land on this one's chain, so its
reservations are dropped. -/
def fromStored (stored : StoredPending) : Except WalletError (PendingReservations G) :=
  if stored.ledgerVersion ≠ G.ledger then .ok (default G)
  else do
    let dust ← stored.dust.mapM PendingDustBatch.fromStored
    let unshielded ← stored.unshielded.mapM PendingUnshieldedSpend.fromStored
    let shielded ← stored.shielded.mapM PendingShieldedSpend.fromStored
    pure ⟨dust, unshielded, shielded⟩

end PendingReservations

/-- What `pending.json` holds after a save. An empty record leaves no file. -/
def savePending (json : Json) (pending : StoredPending) : Except WalletError (Option String) :=
  if pending.isEmpty then .ok none
  else
    match json.encode pending with
    | .error e => .error (.storage s!"serialize pending: {e}")
    | .ok text => .ok (some text)

def loadPending (json : Json) (path : String) :
    Option String → Except WalletError (Option StoredPending)
  | none => .ok none
  | some text =>
    match json.decode text with
    | .error e => .error (.storage s!"parse {path}: {e}")
    | .ok stored => .ok (some stored)

def PendingReservations.save (json : Json) (p : PendingReservations G) :
    Except WalletError (Option String) := do
  let stored ← p.toStored
  savePending json stored

def PendingReservations.load (json : Json) (path : String) (file : Option String) :
    Except WalletError (Option (PendingReservations G)) := do
  match ← loadPending json path file with
  | none => pure none
  | some stored => some <$> fromStored stored

end Model

section RoundTrip

variable {α : Type} {codec : Tagged α} {G : Generation} {json : Json}

theorem taggedToHex_total (h : codec.Lawful) (value : α) (what : String) :
    ∃ encoded, taggedToHex codec value what = .ok encoded := by
  obtain ⟨buf, hbuf⟩ := h.total value
  exact ⟨Hex.encode buf, by rw [taggedToHex, hbuf]⟩

theorem taggedFromHex_taggedToHex (h : codec.Lawful) {value : α} {what what' encoded : String}
    (hto : taggedToHex codec value what = .ok encoded) :
    taggedFromHex codec encoded what' = .ok value := by
  unfold taggedToHex at hto
  cases hbuf : codec.serialize value with
  | error e =>
    rw [hbuf] at hto
    cases hto
  | ok buf =>
    rw [hbuf] at hto
    cases hto
    simp only [taggedFromHex, Hex.decode_encode, h.inverse value buf hbuf]

theorem dust_total (hG : G.Lawful) (p : PendingDustBatch G) : ∃ s, p.toStored = .ok s := by
  obtain ⟨encoded, hto⟩ := taggedToHex_total hG.dustSpends p.spends "pending dust spends"
  refine ⟨⟨encoded, p.reservedAt, p.expiresAt⟩, ?_⟩
  rw [PendingDustBatch.toStored, hto]
  rfl

theorem dust_back (hG : G.Lawful) (p : PendingDustBatch G) (s : StoredPendingDustBatch)
    (h : p.toStored = .ok s) : PendingDustBatch.fromStored s = .ok p := by
  obtain ⟨encoded, hto, hs⟩ := exists_of_bind h
  cases hs
  rw [PendingDustBatch.fromStored, taggedFromHex_taggedToHex hG.dustSpends hto]
  rfl

theorem unshielded_back (p : PendingUnshieldedSpend) :
    PendingUnshieldedSpend.fromStored p.toStored = .ok p := by
  simp only [PendingUnshieldedSpend.fromStored, PendingUnshieldedSpend.toStored,
    HashOutput.fromHex_encode]
  rfl

theorem shielded_total (hG : G.Lawful) (p : PendingShieldedSpend G) :
    ∃ s, p.toStored = .ok s := by
  obtain ⟨encoded, hto⟩ := taggedToHex_total hG.nullifier p.nullifier "pending shielded nullifier"
  refine ⟨⟨encoded, p.reservedAt, p.expiresAt⟩, ?_⟩
  rw [PendingShieldedSpend.toStored, hto]
  rfl

theorem shielded_back (hG : G.Lawful) (p : PendingShieldedSpend G) (s : StoredPendingShielded)
    (h : p.toStored = .ok s) : PendingShieldedSpend.fromStored s = .ok p := by
  obtain ⟨encoded, hto, hs⟩ := exists_of_bind h
  cases hs
  rw [PendingShieldedSpend.fromStored, taggedFromHex_taggedToHex hG.nullifier hto]
  rfl

namespace PendingReservations

theorem toStored_total (hG : G.Lawful) (p : PendingReservations G) :
    ∃ stored, p.toStored = .ok stored := by
  obtain ⟨dust, hdust⟩ := mapM_total (dust_total hG) p.dust
  obtain ⟨shielded, hshielded⟩ := mapM_total (shielded_total hG) p.shielded
  refine ⟨⟨G.ledger, dust, p.unshielded.map PendingUnshieldedSpend.toStored, shielded⟩, ?_⟩
  rw [toStored, hdust, hshielded]
  rfl

theorem toStored_ledger {p : PendingReservations G} {stored : StoredPending}
    (h : p.toStored = .ok stored) : stored.ledgerVersion = G.ledger := by
  obtain ⟨dust, -, h⟩ := exists_of_bind h
  obtain ⟨shielded, -, h⟩ := exists_of_bind h
  cases h
  rfl

/-- The generation that stored the reservations reads them back. -/
theorem fromStored_toStored (hG : G.Lawful) {p : PendingReservations G} {stored : StoredPending}
    (h : p.toStored = .ok stored) : fromStored stored = .ok p := by
  obtain ⟨dust, hdust, h⟩ := exists_of_bind h
  obtain ⟨shielded, hshielded, h⟩ := exists_of_bind h
  cases h
  have hunshielded : (p.unshielded.map PendingUnshieldedSpend.toStored).mapM
      PendingUnshieldedSpend.fromStored = .ok p.unshielded := by
    rw [mapM_ok_iff, List.forall₂_map_left_iff, List.forall₂_same]
    exact fun u _ => unshielded_back u
  rw [fromStored, if_neg (not_not.mpr rfl), mapM_inverse (dust_back hG) hdust, hunshielded,
    mapM_inverse (shielded_back hG) hshielded]
  rfl

theorem fromStored_other {stored : StoredPending} (h : stored.ledgerVersion ≠ G.ledger) :
    fromStored stored = .ok (default G) := if_pos h

/-- Each stored entry stands for one reservation, at its place. -/
structure Decodes (stored : StoredPending) (p : PendingReservations G) : Prop where
  dust : List.Forall₂ (fun s e => PendingDustBatch.fromStored s = .ok e) stored.dust p.dust
  unshielded : List.Forall₂ (fun s e => PendingUnshieldedSpend.fromStored s = .ok e)
    stored.unshielded p.unshielded
  shielded : List.Forall₂ (fun s e => PendingShieldedSpend.fromStored s = .ok e)
    stored.shielded p.shielded

/-- A load reads every entry or fails. -/
theorem fromStored_ok_iff {stored : StoredPending} (h : stored.ledgerVersion = G.ledger)
    {p : PendingReservations G} : fromStored stored = .ok p ↔ Decodes stored p := by
  rw [fromStored, if_neg (not_not.mpr h)]
  constructor
  · intro hload
    obtain ⟨dust, hdust, hload⟩ := exists_of_bind hload
    obtain ⟨unshielded, hunshielded, hload⟩ := exists_of_bind hload
    obtain ⟨shielded, hshielded, hload⟩ := exists_of_bind hload
    cases hload
    exact ⟨mapM_ok_iff.mp hdust, mapM_ok_iff.mp hunshielded, mapM_ok_iff.mp hshielded⟩
  · intro hdecodes
    rw [mapM_ok_iff.mpr hdecodes.dust, mapM_ok_iff.mpr hdecodes.unshielded,
      mapM_ok_iff.mpr hdecodes.shielded]
    rfl

theorem Decodes.lengths {stored : StoredPending} {p : PendingReservations G}
    (h : Decodes stored p) : p.dust.length = stored.dust.length ∧
      p.unshielded.length = stored.unshielded.length ∧
        p.shielded.length = stored.shielded.length :=
  ⟨h.dust.length_eq.symm, h.unshielded.length_eq.symm, h.shielded.length_eq.symm⟩

/-- An entry that no conversion reads. -/
def Undecodable (G : Generation) (stored : StoredPending) : Prop :=
  (∃ s ∈ stored.dust, ∀ e : PendingDustBatch G, PendingDustBatch.fromStored s ≠ .ok e) ∨
  (∃ s ∈ stored.unshielded, ∀ e, PendingUnshieldedSpend.fromStored s ≠ .ok e) ∨
  ∃ s ∈ stored.shielded, ∀ e : PendingShieldedSpend G, PendingShieldedSpend.fromStored s ≠ .ok e

theorem undecodable_error {stored : StoredPending} (h : stored.ledgerVersion = G.ledger)
    (hbad : Undecodable G stored) :
    ∃ e, (fromStored stored : Except WalletError (PendingReservations G)) = .error e := by
  cases hload : (fromStored stored : Except WalletError (PendingReservations G)) with
  | error e => exact ⟨e, rfl⟩
  | ok p =>
    have hdecodes := (fromStored_ok_iff h).mp hload
    exfalso
    rcases hbad with ⟨s, hs, hnone⟩ | ⟨s, hs, hnone⟩ | ⟨s, hs, hnone⟩
    · exact mapM_error hs hnone _ (mapM_ok_iff.mpr hdecodes.dust)
    · exact mapM_error hs hnone _ (mapM_ok_iff.mpr hdecodes.unshielded)
    · exact mapM_error hs hnone _ (mapM_ok_iff.mpr hdecodes.shielded)

/-- A file that a save left is loaded as what was saved; no file is an empty set. -/
theorem load_save (hG : G.Lawful) (hjson : json.Lawful) {p : PendingReservations G}
    {file : Option String} (h : p.save json = .ok file) :
    ∃ loaded, (∀ path, load json path file = .ok loaded) ∧ loaded.getD (default G) = p := by
  obtain ⟨stored, hstored, hsaved⟩ := exists_of_bind h
  have hback := fromStored_toStored hG hstored
  unfold savePending at hsaved
  by_cases hempty : stored.isEmpty = true
  · rw [if_pos hempty] at hsaved
    cases hsaved
    refine ⟨none, fun path => rfl, ?_⟩
    have hlengths := ((fromStored_ok_iff (toStored_ledger hstored)).mp hback).lengths
    simp only [StoredPending.isEmpty, Bool.and_eq_true, List.isEmpty_iff] at hempty
    obtain ⟨⟨hdust, hunshielded⟩, hshielded⟩ := hempty
    simp only [hdust, hunshielded, hshielded, List.length_nil, List.length_eq_zero_iff] at hlengths
    obtain ⟨dust, unshielded, shielded⟩ := p
    obtain ⟨rfl, rfl, rfl⟩ := hlengths
    rfl
  · rw [if_neg hempty] at hsaved
    cases htext : json.encode stored with
    | error e =>
      rw [htext] at hsaved
      cases hsaved
    | ok text =>
      rw [htext] at hsaved
      cases hsaved
      refine ⟨some p, fun path => ?_, rfl⟩
      rw [load, loadPending, hjson stored text htext]
      show some <$> fromStored stored = _
      rw [hback]
      rfl

end PendingReservations

/-- What is stored of reservations and UTXOs is read back as it was, by the
generation that stored it; and what cannot be read is an error. -/
theorem stored_round_trip (hG : G.Lawful) (hjson : json.Lawful) :
    (∀ p : PendingReservations G, ∃ stored, p.toStored = .ok stored ∧
      PendingReservations.fromStored stored = .ok p) ∧
    (∀ (p : PendingReservations G) file, p.save json = .ok file → ∃ loaded,
      (∀ path, PendingReservations.load json path file = .ok loaded) ∧
        loaded.getD (.default G) = p) ∧
    (∀ (G' : Generation) (p : PendingReservations G') stored, G'.ledger ≠ G.ledger →
      p.toStored = .ok stored → PendingReservations.fromStored stored = .ok (.default G)) ∧
    (∀ stored, stored.ledgerVersion = G.ledger →
      (∀ p : PendingReservations G, PendingReservations.fromStored stored = .ok p →
        PendingReservations.Decodes stored p) ∧
      (PendingReservations.Undecodable G stored →
        ∃ e, (PendingReservations.fromStored stored :
          Except WalletError (PendingReservations G)) = .error e)) ∧
    (∀ utxos : List TrackedUtxo,
      (utxos.map StoredUtxo.from).mapM TrackedUtxo.tryFrom = .ok utxos) ∧
    ∀ (stored : List StoredUtxo) (utxos : List TrackedUtxo),
      stored.mapM TrackedUtxo.tryFrom = .ok utxos ↔
        List.Forall₂ (fun s u => TrackedUtxo.tryFrom s = .ok u) stored utxos := by
  refine ⟨?_, ?_, ?_, ?_, ?_, ?_⟩
  · intro p
    obtain ⟨stored, hstored⟩ := PendingReservations.toStored_total hG p
    exact ⟨stored, hstored, PendingReservations.fromStored_toStored hG hstored⟩
  · intro p file hsave
    exact PendingReservations.load_save hG hjson hsave
  · intro G' p stored hother hstored
    refine PendingReservations.fromStored_other ?_
    rw [PendingReservations.toStored_ledger hstored]
    exact hother
  · intro stored hledger
    exact ⟨fun p => (PendingReservations.fromStored_ok_iff hledger).mp,
      PendingReservations.undecodable_error hledger⟩
  · exact mapM_tryFrom_from
  · exact fun stored utxos => mapM_ok_iff

end RoundTrip

section Toy

/-- A tagged encoding that only puts its tag in front. -/
def byteCodec : Tagged Bytes where
  serialize bytes := .ok (109 :: bytes)
  deserialize
    | 109 :: bytes => .ok bytes
    | _ => .error "expected header tag"

theorem byteCodec_lawful : byteCodec.Lawful where
  total bytes := ⟨109 :: bytes, rfl⟩
  inverse bytes buf h := by
    cases h
    rfl

/-- A generation whose Dust spends are single bytes. -/
def byteGeneration : Generation where
  ledger := .V9
  DustSpend := UInt8
  Nullifier := Bytes
  dustSpends := byteCodec
  nullifier := byteCodec

theorem byteGeneration_lawful : byteGeneration.Lawful := ⟨byteCodec_lawful, byteCodec_lawful⟩

def threeReserved : PendingReservations byteGeneration where
  dust := [⟨[(7 : UInt8)], 100, 160⟩]
  unshielded := [⟨⟨⟨List.replicate 32 171, rfl⟩, 3⟩, 100, 160⟩]
  shielded := [⟨[1, 2], 100, 160⟩]

def threeStored : StoredPending where
  ledgerVersion := .V9
  dust := [⟨Hex.encode [109, 7], 100, 160⟩]
  unshielded := [⟨Hex.encode (List.replicate 32 171), 3, 100, 160⟩]
  shielded := [⟨Hex.encode [109, 1, 2], 100, 160⟩]

/-- JSON for one record. -/
def oneRecordJson : Json where
  encode stored := if stored = threeStored then .ok "record" else .error "not written here"
  decode text := if text = "record" then .ok threeStored else .error "not written here"

theorem oneRecordJson_lawful : oneRecordJson.Lawful := by
  intro stored text h
  unfold oneRecordJson at h ⊢
  simp only at h ⊢
  split at h
  · rename_i hstored
    rw [← Except.ok.inj h, hstored, if_pos rfl]
  · cases h

theorem threeReserved_toStored : threeReserved.toStored = .ok threeStored := rfl

/-- Three reservations through a file, and the file in the hands of the other
generation. -/
theorem stored_round_trip_three :
    PendingReservations.fromStored threeStored = .ok threeReserved ∧
      threeReserved.save oneRecordJson = .ok (some "record") ∧
      ∃ loaded : Option (PendingReservations byteGeneration),
        (∀ path, PendingReservations.load oneRecordJson path (some "record") = .ok loaded) ∧
          loaded.getD (.default byteGeneration) = threeReserved := by
  have h := stored_round_trip byteGeneration_lawful oneRecordJson_lawful
  obtain ⟨stored, hstored, hback⟩ := h.1 threeReserved
  rw [threeReserved_toStored] at hstored
  cases hstored
  have hsave : threeReserved.save oneRecordJson = .ok (some "record") := by
    rw [PendingReservations.save, threeReserved_toStored]
    rfl
  exact ⟨hback, hsave, h.2.1 threeReserved (some "record") hsave⟩

end Toy

end MidnightRs.StoredReservations
