import MidnightRs.Chains
import MidnightRs.Hex
import Mathlib.Logic.Function.Basic

/-!
The private-state store: one directory for each contract address, holding an
address marker and one file for each snapshot of the address's journal. The
journal is linked by hashes only, so its head and its rollbacks are read off the
graph. File-system failures are not modelled: every read and write succeeds.
-/
namespace MidnightRs.Journal

inductive PrivateStateError where
  | io (message : String)
  | serialize (message : String)
  | passwordTooShort
  | tooManyEntries
  | encrypt (message : String)
  | decrypt
  | keyDerivation (message : String)
  | invalidFormat (message : String)
  | importConflict (label : String)
  | snapshotNotFound (address extrinsicHash : String)
  | snapshotAlreadyExists (address extrinsicHash : String)
  | journalConflict (address : String) (expected found : Option String)
deriving DecidableEq, Repr

inductive SnapshotStatus where
  | pending
  | confirmed
deriving DecidableEq, Repr

structure Snapshot where
  status : SnapshotStatus
  extrinsicHash : String
  blockHash : Option String
  blockHeight : Option ℕ
  dependsOn : Option String
  data : Bytes
deriving DecidableEq, Repr

def Snapshot.links : Chains.Links Snapshot String := ⟨Snapshot.extrinsicHash, Snapshot.dependsOn⟩

/-- A 32-byte hash, as callers pass them. -/
abbrev Hash32 := { bytes : Bytes // bytes.length = 32 }

def Hash32.hex (h : Hash32) : String := Hex.encode h.val

/-- `<020-padded-unix-nanos>-<extrinsic_hash_hex>.json`. -/
structure FileName where
  nanos : ℕ
  extrinsicHash : String
deriving DecidableEq, Repr

/-- The padded names sort by time, then by hash. -/
def FileName.le (a b : FileName) : Bool :=
  decide (a.nanos < b.nanos ∨ a.nanos = b.nanos ∧ a.extrinsicHash ≤ b.extrinsicHash)

structure Dir where
  marker : Option String
  files : List (FileName × Snapshot)

namespace Dir

def empty : Dir := ⟨none, []⟩

/-- Renames a written file into place, over an older one of that name. -/
def write (dir : Dir) (name : FileName) (snap : Snapshot) : Dir :=
  { dir with files := (name, snap) :: dir.files.filter (fun f => decide (f.1 ≠ name)) }

def remove (dir : Dir) (name : FileName) : Dir :=
  { dir with files := dir.files.filter (fun f => decide (f.1 ≠ name)) }

def read (dir : Dir) (name : FileName) : Option Snapshot :=
  (dir.files.find? (fun f => decide (f.1 = name))).map Prod.snd

end Dir

/-- The per-address directories under `states`, by name. -/
abbrev Store := String → Option Dir

def Store.empty : Store := fun _ => none

/-- Where a provider keeps its journals. The name of an address's directory is
the hex of its sha256, of which only the freedom from collisions matters. -/
structure Provider where
  statesDir : String
  hashedName : String → String
  hashedName_injective : Function.Injective hashedName

variable (p : Provider)

def Provider.addressDir (address : String) : String := s!"{p.statesDir}/{p.hashedName address}"

def isWhitespace (c : Char) : Bool :=
  let n := c.toNat
  decide ((9 ≤ n ∧ n ≤ 13) ∨ n = 32 ∨ n = 0x85 ∨ n = 0xa0 ∨ n = 0x1680 ∨
    (0x2000 ≤ n ∧ n ≤ 0x200a) ∨ n = 0x2028 ∨ n = 0x2029 ∨ n = 0x202f ∨ n = 0x205f ∨ n = 0x3000)

def trim (text : String) : String :=
  String.ofList ((text.toList.dropWhile isWhitespace).reverse.dropWhile isWhitespace).reverse

/-- Every snapshot file of the address, oldest name first. -/
def loadSnapshots (st : Store) (address : String) : List (FileName × Snapshot) :=
  match st (p.hashedName address) with
  | none => []
  | some dir => dir.files.mergeSort (fun a b => a.1.le b.1)

def snapshots (st : Store) (address : String) : List Snapshot :=
  (loadSnapshots p st address).map Prod.snd

def findSnapshotPath (st : Store) (address extrinsicHash : String) : Option FileName :=
  ((loadSnapshots p st address).find?
    (fun f => decide (f.2.extrinsicHash = extrinsicHash))).map Prod.fst

/-- Writes the plaintext address next to its journal, or checks the one there.
The directory is created first, so it exists even after an error. -/
def ensureAddressMarker (st : Store) (address : String) : Store × Except PrivateStateError Unit :=
  let dir := (st (p.hashedName address)).getD Dir.empty
  match dir.marker with
  | some existing =>
    let st := Function.update st (p.hashedName address) (some dir)
    if trim existing ≠ address then
      (st, .error (.invalidFormat s!"address marker at {p.addressDir address}/address.txt holds {(trim existing).quote} but caller passed {address.quote}; the per-address directory does not match the address it was created for. Resolve by deleting the directory or repairing the marker."))
    else (st, .ok ())
  | none =>
    (Function.update st (p.hashedName address) (some { dir with marker := some address }), .ok ())

section Graph

/-- The hashes of the snapshots built on `hash`, in hash order. -/
def childrenOf (snaps : List Snapshot) (hash : String) : List String :=
  ((snaps.filter (fun s => decide (s.dependsOn = some hash))).map Snapshot.extrinsicHash).mergeSort
    (fun a b => decide (a ≤ b))

/-- The hashes reachable from `starts` along child edges, breadth first. -/
def walkChildren (snaps : List Snapshot) (starts : List String) : List String :=
  (Chains.reach (childrenOf snaps) snaps starts).reverse

def sortedJoin (hashes : List String) : String :=
  ", ".intercalate (hashes.mergeSort (fun a b => decide (a ≤ b)))

/-- The head of the journal: the one snapshot that no other depends on, in a
journal that is reachable from its roots. -/
def findLeaf (snaps : List Snapshot) : Except PrivateStateError (Option Snapshot) :=
  if snaps.isEmpty then .ok none
  else
    let referenced := snaps.filterMap Snapshot.dependsOn
    match snaps.filter (fun s => decide (s.extrinsicHash ∉ referenced)) with
    | [] => .error (.invalidFormat "malformed journal: no leaf snapshot (depends_on cycle)")
    | [leaf] =>
      let roots := (snaps.filter (fun s => s.dependsOn.isNone)).map Snapshot.extrinsicHash
      let reachable := walkChildren snaps roots
      if reachable.length ≠ snaps.length then
        let orphans := (snaps.map Snapshot.extrinsicHash).dedup.filter
          (fun h => decide (h ∉ reachable))
        let allParentsPresent := snaps.all (fun s =>
          decide (s.extrinsicHash ∈ reachable) ||
            s.dependsOn.all (fun q => decide (q ∈ snaps.map Snapshot.extrinsicHash)))
        let reason :=
          if allParentsPresent then
            "cycle (every unreachable snapshot's parent is in the journal but forms a closed loop)"
          else
            "orphan chain (at least one unreachable snapshot's `depends_on` parent is missing from the journal)"
        .error (.invalidFormat s!"malformed journal: {snaps.length - reachable.length} unreachable snapshot(s); {reason}. Resolve via rollback_from / mark_failed. unreachable=[{sortedJoin orphans}]")
      else .ok (some leaf)
    | leaves =>
      let hashes := leaves.map Snapshot.extrinsicHash
      .error (.invalidFormat s!"malformed journal: {hashes.length} leaves (branching); resolve via rollback_from / mark_failed. leaves=[{sortedJoin hashes}]")

end Graph

def headSnapshot (st : Store) (address : String) : Except PrivateStateError (Option Snapshot) :=
  findLeaf (snapshots p st address)

def parseHash (text : String) : Except PrivateStateError Hash32 :=
  match Hex.decode text with
  | .error e => .error (.invalidFormat s!"hash is not valid hex: {e}")
  | .ok bytes =>
    if h : bytes.length = 32 then .ok ⟨bytes, h⟩
    else .error (.invalidFormat s!"hash must be 32 bytes; got {bytes.length}")

def headWithExtrinsic (st : Store) (address : String) :
    Except PrivateStateError (Option (Bytes × Hash32)) :=
  match headSnapshot p st address with
  | .error e => .error e
  | .ok none => .ok none
  | .ok (some snap) =>
    match parseHash snap.extrinsicHash with
    | .error e => .error e
    | .ok ext => .ok (some (snap.data, ext))

/-- The directory of an address, once it exists. -/
def updateDir (st : Store) (address : String) (f : Dir → Dir) : Store :=
  Function.update st (p.hashedName address) ((st (p.hashedName address)).map f)

def pendingSnapshot (ext : Hash32) (dependsOn : Option Hash32) (state : Bytes) : Snapshot where
  status := .pending
  extrinsicHash := ext.hex
  blockHash := none
  blockHeight := none
  dependsOn := dependsOn.map Hash32.hex
  data := state

def appendPending (nanos : ℕ) (st : Store) (address : String) (ext : Hash32)
    (dependsOn : Option Hash32) (state : Bytes) : Store × Except PrivateStateError Unit :=
  match ensureAddressMarker p st address with
  | (st, .error e) => (st, .error e)
  | (st, .ok ()) =>
    if (findSnapshotPath p st address ext.hex).isSome then
      (st, .error (.snapshotAlreadyExists address ext.hex))
    else
      match headSnapshot p st address with
      | .error e => (st, .error e)
      | .ok head =>
        let expected := dependsOn.map Hash32.hex
        let currentLeaf := head.map Snapshot.extrinsicHash
        -- Requiring the parent to be the leaf is what prevents branching.
        if currentLeaf ≠ expected then
          (st, .error (.journalConflict address expected currentLeaf))
        else
          (updateDir p st address
            (fun dir => dir.write ⟨nanos, ext.hex⟩ (pendingSnapshot ext dependsOn state)), .ok ())

def debugOption (o : Option String) : String := o.elim "None" (fun s => s!"Some({s})")

def confirm (st : Store) (address : String) (ext : Hash32) (blockHeight : Option ℕ)
    (blockHash : Hash32) : Store × Except PrivateStateError Unit :=
  match findSnapshotPath p st address ext.hex with
  | none => (st, .error (.snapshotNotFound address ext.hex))
  | some path =>
    match (st (p.hashedName address)).bind (fun dir => dir.read path) with
    | none => (st, .error (.io s!"snapshot disappeared at {p.addressDir address}"))
    | some snap =>
      if snap.status = .confirmed then
        if snap.blockHash ≠ some blockHash.hex then
          (st, .error (.invalidFormat s!"snapshot already confirmed with a different block; address={address}, extrinsic_hash={ext.hex}, existing=(height={debugOption (snap.blockHeight.map toString)}, hash={debugOption (snap.blockHash.map String.quote)}), requested=(height={debugOption (blockHeight.map toString)}, hash={blockHash.hex})"))
        else if snap.blockHeight.isNone && blockHeight.isSome then
          (updateDir p st address
            (fun dir => dir.write path { snap with blockHeight := blockHeight }), .ok ())
        else (st, .ok ())
      else
        (updateDir p st address (fun dir => dir.write path
          { snap with
            status := .confirmed, blockHeight := blockHeight, blockHash := some blockHash.hex }),
          .ok ())

/-- Drops a snapshot and every snapshot built on it, children first. -/
def cascadeDrop (st : Store) (address startHash : String) :
    Store × Except PrivateStateError Unit :=
  let snaps := loadSnapshots p st address
  if snaps.any (fun f => decide (f.2.extrinsicHash = startHash)) then
    let doomed := walkChildren (snaps.map Prod.snd) [startHash]
    let pathByHash := fun hash =>
      (snaps.reverse.find? (fun f => decide (f.2.extrinsicHash = hash))).map Prod.fst
    (doomed.reverse.foldl (fun st hash =>
      match pathByHash hash with
      | none => st
      | some path => updateDir p st address (fun dir => dir.remove path)) st, .ok ())
  else (st, .error (.snapshotNotFound address startHash))

def rollbackFrom (st : Store) (address : String) (ext : Hash32) :
    Store × Except PrivateStateError Unit :=
  cascadeDrop p st address ext.hex

def markFailed (st : Store) (address : String) (ext : Hash32) :
    Store × Except PrivateStateError Unit :=
  rollbackFrom p st address ext

def forget (st : Store) (address : String) : Store × Except PrivateStateError Unit :=
  (Function.update st (p.hashedName address) none, .ok ())

section Import

inductive ConflictStrategy where
  | skip
  | overwrite
  | error
deriving DecidableEq, Repr

structure ImportResult where
  imported : ℕ
  skipped : ℕ
  overwritten : ℕ
deriving DecidableEq, Repr

structure ExportEntry where
  address : String
  snapshot : Snapshot
deriving DecidableEq, Repr

structure EncryptedExport where
  format : String
  salt : String
  ciphertext : String

structure ImportOptions where
  password : String
  conflict : ConflictStrategy
  maxEntries : ℕ

/-- Decryption under a password with associated data, and the JSON decoding of
the entries. -/
structure Codec where
  decrypt : String → Bytes → String → String → Except PrivateStateError Bytes
  decodeEntries : Bytes → Except String (List ExportEntry)

def formatStates : String := "midnight-rs-private-state-journal-export-v1"

/-- Whether to write an entry. A new one always is. -/
def ImportResult.admitEntry (result : ImportResult) (exists_ : Bool) (strategy : ConflictStrategy)
    (label : String) : Except PrivateStateError (ImportResult × Bool) :=
  match exists_, strategy with
  | false, _ => .ok ({ result with imported := result.imported + 1 }, true)
  | true, .skip => .ok ({ result with skipped := result.skipped + 1 }, false)
  | true, .overwrite => .ok ({ result with overwritten := result.overwritten + 1 }, true)
  | true, .error => .error (.importConflict label)

def validateHashField (name : String) : Option String → Except PrivateStateError Unit
  | none => .ok ()
  | some s =>
    if Hex.isLowercaseHex 64 s then .ok ()
    else .error (.invalidFormat s!"field `{name}` is not 32 bytes of lowercase hex: {s}")

def validateEntry (entry : ExportEntry) : Except PrivateStateError Unit := do
  validateHashField "extrinsic_hash" (some entry.snapshot.extrinsicHash)
  validateHashField "depends_on" entry.snapshot.dependsOn
  validateHashField "block_hash" entry.snapshot.blockHash

/-- Refuses a second entry for one address and hash. -/
def rejectDuplicates : List (String × String) → List ExportEntry → Except PrivateStateError Unit
  | _, [] => .ok ()
  | seen, entry :: entries =>
    let key := (entry.address, entry.snapshot.extrinsicHash)
    if key ∈ seen then
      .error (.invalidFormat
        s!"duplicate entry in import payload: {entry.address} / {entry.snapshot.extrinsicHash}")
    else rejectDuplicates (key :: seen) entries

/-- The journal of an address by hash: the file and the snapshot in it. -/
abbrev ByHash := List (String × FileName × Snapshot)

def ByHash.insert (m : ByHash) (hash : String) (value : FileName × Snapshot) : ByHash :=
  (hash, value) :: m.filter (fun e => decide (e.1 ≠ hash))

def ByHash.get (m : ByHash) (hash : String) : Option (FileName × Snapshot) :=
  (m.find? (fun e => decide (e.1 = hash))).map Prod.snd

def loadByHash (st : Store) (address : String) : ByHash :=
  (loadSnapshots p st address).foldl (fun m f => m.insert f.2.extrinsicHash f) []

/-- An entry and the file to write it to, or none to leave the store as it is. -/
abbrev Staged := ExportEntry × Option FileName

structure Staging where
  perAddress : String → ByHash
  staged : List Staged
  result : ImportResult

/-- The blank path that stands for a file not written yet. -/
def FileName.blank : FileName := ⟨0, ""⟩

/-- Decides one entry against the merged journals and stages its write. -/
def stageEntry (conflict : ConflictStrategy) (nanos : ℕ) (s : Staging) (entry : ExportEntry) :
    Except PrivateStateError Staging :=
  let hash := entry.snapshot.extrinsicHash
  let existing := (s.perAddress entry.address).get hash
  let label := s!"{entry.address} / {hash}"
  if conflict = .overwrite ∧ existing.any (fun e => decide (e.2.status = .confirmed)) = true ∧
      entry.snapshot.status = .pending then
    .error (.invalidFormat s!"import would downgrade a Confirmed snapshot to Pending at {label}; refusing to discard the existing block_hash / block_height")
  else
    match s.result.admitEntry existing.isSome conflict label with
    | .error e => .error e
    | .ok (result, false) =>
      .ok { s with staged := s.staged ++ [(entry, none)], result := result }
    | .ok (result, true) =>
      let target := existing.elim ⟨nanos, hash⟩ Prod.fst
      .ok {
        perAddress := Function.update s.perAddress entry.address
          ((s.perAddress entry.address).insert hash (FileName.blank, entry.snapshot))
        staged := s.staged ++ [(entry, some target)]
        result := result }

/-- `clock` gives the time at which each new file is named. -/
def stageEntries (conflict : ConflictStrategy) (clock : ℕ → ℕ) :
    Staging → List ExportEntry → Except PrivateStateError Staging
  | s, [] => .ok s
  | s, entry :: entries =>
    match stageEntry conflict (clock s.staged.length) s entry with
    | .error e => .error e
    | .ok s => stageEntries conflict clock s entries

/-- Refuses a payload that leaves one of its addresses without a single chain.
A hash set orders the addresses; the order only decides which one is named. -/
def checkMerged (perAddress : String → ByHash) : List String → Except PrivateStateError Unit
  | [] => .ok ()
  | address :: addresses =>
    match findLeaf ((perAddress address).map (fun e => e.2.2)) with
    | .error e => .error (.invalidFormat
        s!"import produced a malformed journal at {address}: {reprStr e}")
    | .ok _ => checkMerged perAddress addresses

/-- Writes what was staged, stopping at the first failure. -/
def commitStaged (st : Store) : List Staged → Store × Except PrivateStateError Unit
  | [] => (st, .ok ())
  | (entry, target) :: rest =>
    match ensureAddressMarker p st entry.address with
    | (st, .error e) => (st, .error e)
    | (st, .ok ()) =>
      match target with
      | none => commitStaged st rest
      | some path =>
        commitStaged (updateDir p st entry.address (fun dir => dir.write path entry.snapshot)) rest

def applyImportEntries (clock : ℕ → ℕ) (st : Store) (entries : List ExportEntry)
    (conflict : ConflictStrategy) : Store × Except PrivateStateError ImportResult :=
  match entries.forM validateEntry with
  | .error e => (st, .error e)
  | .ok () =>
    match rejectDuplicates [] entries with
    | .error e => (st, .error e)
    | .ok () =>
      match stageEntries conflict clock ⟨loadByHash p st, [], ⟨0, 0, 0⟩⟩ entries with
      | .error e => (st, .error e)
      | .ok s =>
        match checkMerged s.perAddress (entries.map ExportEntry.address).dedup with
        | .error e => (st, .error e)
        | .ok () =>
          match commitStaged p st s.staged with
          | (st, .error e) => (st, .error e)
          | (st, .ok ()) => (st, .ok s.result)

/-- Opens the envelope: its tag, its decryption, its decoding, its size. -/
def openExport (codec : Codec) (format : String) (data : EncryptedExport)
    (opts : ImportOptions) : Except PrivateStateError (List ExportEntry) :=
  if data.format ≠ format then
    .error (.invalidFormat s!"expected format {format}, got {data.format}")
  else
    match codec.decrypt opts.password (Hex.utf8 format) data.salt data.ciphertext with
    | .error e => .error e
    | .ok payload =>
      match codec.decodeEntries payload with
      | .error e => .error (.invalidFormat s!"malformed import payload: {e}")
      | .ok records => if opts.maxEntries < records.length then .error .tooManyEntries else .ok records

def importPrivateStates (codec : Codec) (clock : ℕ → ℕ) (st : Store) (data : EncryptedExport)
    (opts : ImportOptions) : Store × Except PrivateStateError ImportResult :=
  match openExport codec formatStates data opts with
  | .error e => (st, .error e)
  | .ok entries => applyImportEntries p clock st entries opts.conflict

end Import

section Runs

/-- One call on the store, with the times it reads. -/
inductive Op where
  | appendPending (nanos : ℕ) (address : String) (ext : Hash32) (dependsOn : Option Hash32)
      (state : Bytes)
  | confirm (address : String) (ext : Hash32) (blockHeight : Option ℕ) (blockHash : Hash32)
  | markFailed (address : String) (ext : Hash32)
  | rollbackFrom (address : String) (ext : Hash32)
  | forget (address : String)
  | importPrivateStates (clock : ℕ → ℕ) (data : EncryptedExport) (opts : ImportOptions)

def Op.apply (codec : Codec) (st : Store) : Op → Store
  | .appendPending nanos address ext dependsOn state =>
    (Journal.appendPending p nanos st address ext dependsOn state).1
  | .confirm address ext blockHeight blockHash =>
    (Journal.confirm p st address ext blockHeight blockHash).1
  | .markFailed address ext => (Journal.markFailed p st address ext).1
  | .rollbackFrom address ext => (Journal.rollbackFrom p st address ext).1
  | .forget address => (Journal.forget p st address).1
  | .importPrivateStates clock data opts =>
    (Journal.importPrivateStates p codec clock st data opts).1

def Trimmed (address : String) : Prop := trim address = address

/-- Every address that the call names has no surrounding whitespace. -/
def Op.Addressed (codec : Codec) : Op → Prop
  | .appendPending _ address _ _ _ => Trimmed address
  | .confirm address _ _ _ => Trimmed address
  | .markFailed address _ => Trimmed address
  | .rollbackFrom address _ => Trimmed address
  | .forget address => Trimmed address
  | .importPrivateStates _ data opts =>
    ∀ entries, openExport codec formatStates data opts = .ok entries →
      ∀ entry ∈ entries, Trimmed entry.address

def Step (codec : Codec) (st : Store) (op : Op) (st' : Store) : Prop :=
  op.Addressed codec ∧ st' = op.apply p codec st

end Runs

end MidnightRs.Journal
