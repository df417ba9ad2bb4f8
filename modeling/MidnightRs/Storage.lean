import MidnightRs.Directories
import MidnightRs.Utxos
import Mathlib.Logic.Equiv.List
import Mathlib.Logic.Denumerable

/-!
A wallet's snapshot directory. A save writes the state files of a new
generation number, commits the metadata that refers to them by one rename, and
then removes the files of the number before. So at every point at which a save
can stop, a load finds the old snapshot whole or the new one whole.
-/
namespace MidnightRs.Storage

open Directories Utxos

/-- The files of a snapshot directory. A write goes through the `tmp` file
beside its target. -/
inductive FileName where
  | metadata
  | pending
  | zswap (generation : ℕ)
  | dustWallet (generation : ℕ)
  | tmp (target : FileName)
deriving DecidableEq, Repr

def FileName.text : FileName → String
  | .metadata => "metadata.json"
  | .pending => "pending.json"
  | .zswap generation => s!"zswap-{generation}.bin"
  | .dustWallet generation => s!"dust_wallet-{generation}.bin"
  | .tmp target => s!"{target.text}.tmp"

structure ChainPin where
  height : ℕ
  hash : String
deriving DecidableEq, Repr

structure StoredMetadata where
  generation : ℕ
  ledgerVersion : LedgerVersion
  zswapEventId : ℤ
  dustEventId : ℤ
  lastBlockHeight : ℤ
  lastTxId : Option ℤ
  chainPin : Option ChainPin
  unshieldedUtxos : List StoredUtxo
deriving DecidableEq, Repr

-- The shielded and the Dust state of each ledger generation.
variable {Z D : LedgerVersion → Type}

/-- What one snapshot of the generation `v` records. -/
structure Snapshot (Z D : LedgerVersion → Type) (v : LedgerVersion) where
  zswapState : Z v
  dustWallet : D v
  zswapEventId : ℤ
  dustEventId : ℤ
  lastBlockHeight : ℤ
  lastTxId : Option ℤ
  chainPin : Option ChainPin
  unshieldedUtxos : List TrackedUtxo

/-- A snapshot with the generation that wrote it. -/
abbrev Stored (Z D : LedgerVersion → Type) := Σ v, Snapshot Z D v

/-- The encodings of a snapshot's files, which come from the ledger crates and
the JSON library, and the directory's path for the errors. -/
structure Store (Z D : LedgerVersion → Type) where
  path : String
  zswapBytes : ∀ v, Z v → Bytes
  readZswap : ∀ v, Bytes → Except String (Z v)
  dustBytes : ∀ v, D v → Bytes
  readDust : ∀ v, Bytes → Except String (D v)
  metadataJson : StoredMetadata → Bytes
  parseMetadata : Bytes → Except String StoredMetadata

/-- Every encoding reads back. -/
structure Store.Lawful (st : Store Z D) : Prop where
  zswap : ∀ v z, st.readZswap v (st.zswapBytes v z) = .ok z
  dust : ∀ v d, st.readDust v (st.dustBytes v d) = .ok d
  metadata : ∀ m, st.parseMetadata (st.metadataJson m) = .ok m

namespace Store

variable (st : Store Z D)

def filePath (name : FileName) : String := s!"{st.path}/{name.text}"

def readMetadata (d : Dir FileName) : Except WalletError (Option StoredMetadata) :=
  match d.files .metadata with
  | none => .ok none
  | some json =>
    match st.parseMetadata json with
    | .error e => .error (.storage s!"parse {st.filePath .metadata}: {e}")
    | .ok metadata => .ok (some metadata)

def taggedFromFile {α : Type} (d : Dir FileName) (name : FileName)
    (decode : Bytes → Except String α) : Except WalletError α :=
  match d.files name with
  | none => .error (.storage s!"read {st.filePath name}: No such file or directory (os error 2)")
  | some bytes =>
    match decode bytes with
    | .error e => .error (.storage s!"deserialize {name.text}: {e}")
    | .ok value => .ok value

/-- Refuses every generation but `ledger`. -/
def expectLedger (ledger found : LedgerVersion) : Except WalletError Unit :=
  if found = ledger then .ok () else .error (.ledgerMismatch ledger found)

/-- The load of the generation `v`. -/
def load (d : Dir FileName) (v : LedgerVersion) : Except WalletError (Option (Snapshot Z D v)) :=
  match st.readMetadata d with
  | .error e => .error e
  | .ok none => .ok none
  | .ok (some m) =>
    match expectLedger v m.ledgerVersion with
    | .error e => .error e
    | .ok () =>
      match st.taggedFromFile d (.zswap m.generation) (st.readZswap v) with
      | .error e => .error e
      | .ok zswapState =>
        match st.taggedFromFile d (.dustWallet m.generation) (st.readDust v) with
        | .error e => .error e
        | .ok dustWallet =>
          match m.unshieldedUtxos.mapM TrackedUtxo.tryFrom with
          | .error e => .error e
          | .ok utxos => .ok (some ⟨zswapState, dustWallet, m.zswapEventId, m.dustEventId,
              m.lastBlockHeight, m.lastTxId, m.chainPin, utxos⟩)

def loadLedgerVersion (d : Dir FileName) : Except WalletError (Option LedgerVersion) :=
  (st.readMetadata d).map (Option.map StoredMetadata.ledgerVersion)

/-- A snapshot of a later generation than the chain's means that the chain was
replaced. -/
def loadSnapshot (d : Dir FileName) (chain : LedgerVersion) :
    Except WalletError (Option (Stored Z D)) :=
  match st.loadLedgerVersion d with
  | .error e => .error e
  | .ok none => .ok none
  | .ok (some v) =>
    if chain < v then .error (.ledgerRegression st.path v chain)
    else (st.load d v).map (Option.map (Sigma.mk v))

def metadataOf (s : Stored Z D) (generation : ℕ) : StoredMetadata where
  generation := generation
  ledgerVersion := s.1
  zswapEventId := s.2.zswapEventId
  dustEventId := s.2.dustEventId
  lastBlockHeight := s.2.lastBlockHeight
  lastTxId := s.2.lastTxId
  chainPin := s.2.chainPin
  unshieldedUtxos := s.2.unshieldedUtxos.map StoredUtxo.from

/-- The generation number of the current metadata, when it reads. -/
def previousGeneration (d : Dir FileName) : Option ℕ :=
  match st.readMetadata d with
  | .ok (some m) => some m.generation
  | _ => none

def write (name : FileName) (contents : Bytes) : List (Step FileName) :=
  writeAtomic (.tmp name) name contents

/-- The file-system steps of one save. -/
def saveSnapshot (d : Dir FileName) (s : Stored Z D) : List (Step FileName) :=
  let previous := st.previousGeneration d
  let generation := (previous.map (· + 1)).getD 1
  [.createDir] ++ write (.zswap generation) (st.zswapBytes s.1 s.2.zswapState) ++
    write (.dustWallet generation) (st.dustBytes s.1 s.2.dustWallet) ++
    write .metadata (st.metadataJson (metadataOf s generation)) ++
    previous.elim [] (fun p => [.remove (.zswap p), .remove (.dustWallet p)])

section Loading

variable {st}

/-- The directory holds the snapshot whole, under the generation number. -/
structure Holds (st : Store Z D) (s : Stored Z D) (generation : ℕ) (d : Dir FileName) : Prop where
  metadata : d.files .metadata = some (st.metadataJson (metadataOf s generation))
  zswap : d.files (.zswap generation) = some (st.zswapBytes s.1 s.2.zswapState)
  dust : d.files (.dustWallet generation) = some (st.dustBytes s.1 s.2.dustWallet)

theorem Holds.readMetadata (hst : st.Lawful) {s : Stored Z D} {generation : ℕ}
    {d : Dir FileName} (h : Holds st s generation d) :
    st.readMetadata d = .ok (some (metadataOf s generation)) := by
  unfold Store.readMetadata
  rw [h.metadata]
  simp only [hst.metadata]

theorem Holds.load (hst : st.Lawful) {s : Stored Z D} {generation : ℕ} {d : Dir FileName}
    (h : Holds st s generation d) : st.load d s.1 = .ok (some s.2) := by
  have hzswap : st.taggedFromFile d (.zswap generation) (st.readZswap s.1) =
      .ok s.2.zswapState := by
    unfold taggedFromFile
    rw [h.zswap]
    simp only [hst.zswap]
  have hdust : st.taggedFromFile d (.dustWallet generation) (st.readDust s.1) =
      .ok s.2.dustWallet := by
    unfold taggedFromFile
    rw [h.dust]
    simp only [hst.dust]
  have hledger : expectLedger s.1 (metadataOf s generation).ledgerVersion = .ok () := if_pos rfl
  have hutxos := mapM_tryFrom_from s.2.unshieldedUtxos
  unfold Store.load
  rw [h.readMetadata hst]
  simp only [hledger]
  simp only [metadataOf, hzswap, hdust, hutxos]

theorem Holds.load_other (hst : st.Lawful) {s : Stored Z D} {generation : ℕ}
    {d : Dir FileName} (h : Holds st s generation d) (v : LedgerVersion) (hv : v ≠ s.1) :
    st.load d v = .error (.ledgerMismatch v s.1) := by
  unfold Store.load
  rw [h.readMetadata hst]
  have hledger : expectLedger v (metadataOf s generation).ledgerVersion =
      .error (.ledgerMismatch v s.1) := if_neg hv.symm
  simp only [hledger]

/-- The files that a load reads are the same in both directories. -/
structure SameSnapshot (st : Store Z D) (d d' : Dir FileName) : Prop where
  metadata : d'.files .metadata = d.files .metadata
  zswap : ∀ p, st.previousGeneration d = some p → d'.files (.zswap p) = d.files (.zswap p)
  dust : ∀ p, st.previousGeneration d = some p →
    d'.files (.dustWallet p) = d.files (.dustWallet p)

theorem SameSnapshot.refl (d : Dir FileName) : SameSnapshot st d d :=
  ⟨rfl, fun _ _ => rfl, fun _ _ => rfl⟩

theorem SameSnapshot.readMetadata {d d' : Dir FileName} (h : SameSnapshot st d d') :
    st.readMetadata d' = st.readMetadata d := by
  unfold Store.readMetadata
  rw [h.metadata]

theorem SameSnapshot.load {d d' : Dir FileName} (h : SameSnapshot st d d') (v : LedgerVersion) :
    st.load d' v = st.load d v := by
  unfold Store.load
  rw [h.readMetadata]
  cases hm : st.readMetadata d with
  | error e => rfl
  | ok found =>
    cases found with
    | none => rfl
    | some m =>
      have hprevious : st.previousGeneration d = some m.generation := by
        unfold previousGeneration
        rw [hm]
      simp only [taggedFromFile, h.zswap _ hprevious, h.dust _ hprevious]

end Loading

section Saving

variable {st}

/-- What holds wherever a save may stop: the old snapshot whole or the new one
whole. -/
def OldOrNew (st : Store Z D) (old : Dir FileName) (s : Stored Z D) (generation : ℕ)
    (d : Dir FileName) : Prop :=
  SameSnapshot st old d ∨ Holds st s generation d

theorem SameSnapshot.ignores (old : Dir FileName) (name : FileName) (hmetadata : name ≠ .metadata)
    (hother : ∀ p, st.previousGeneration old = some p →
      name ≠ .zswap p ∧ name ≠ .dustWallet p) :
    Ignores (SameSnapshot st old) name := by
  intro d file h
  refine ⟨?_, fun p hp => ?_, fun p hp => ?_⟩
  · rw [Dir.set_files_ne _ _ _ _ hmetadata.symm]
    exact h.metadata
  · rw [Dir.set_files_ne _ _ _ _ (hother p hp).1.symm]
    exact h.zswap p hp
  · rw [Dir.set_files_ne _ _ _ _ (hother p hp).2.symm]
    exact h.dust p hp

theorem Holds.ignores (s : Stored Z D) (generation : ℕ) (name : FileName)
    (hmetadata : name ≠ .metadata) (hzswap : name ≠ .zswap generation)
    (hdust : name ≠ .dustWallet generation) : Ignores (Holds st s generation) name := by
  intro d file h
  refine ⟨?_, ?_, ?_⟩
  · rw [Dir.set_files_ne _ _ _ _ hmetadata.symm]
    exact h.metadata
  · rw [Dir.set_files_ne _ _ _ _ hzswap.symm]
    exact h.zswap
  · rw [Dir.set_files_ne _ _ _ _ hdust.symm]
    exact h.dust

theorem SameSnapshot.ignores_tmp (old : Dir FileName) (name : FileName) :
    Ignores (SameSnapshot st old) (.tmp name) :=
  .ignores old _ (by simp) (by simp)

theorem oldOrNew_ignores_tmp (old : Dir FileName) (s : Stored Z D) (generation : ℕ)
    (name : FileName) : Ignores (OldOrNew st old s generation) (.tmp name) := by
  intro d file h
  exact h.imp (SameSnapshot.ignores_tmp old name d file)
    (Holds.ignores s generation _ (by simp) (by simp) (by simp) d file)

/-- An atomic write of a file that no load of the old snapshot reads. -/
theorem along_write (old : Dir FileName) (s : Stored Z D) (generation : ℕ) (name : FileName)
    (htmp : name ≠ .tmp name) (hmetadata : name ≠ .metadata)
    (hother : ∀ p, st.previousGeneration old = some p → name ≠ .zswap p ∧ name ≠ .dustWallet p)
    (d : Dir FileName) (hpresent : d.present = true) (hd : SameSnapshot st old d)
    (contents : Bytes) :
    Along (OldOrNew st old s generation) d (write name contents) ∧
      run d (write name contents) = some (d.written (.tmp name) name contents) ∧
      SameSnapshot st old (d.written (.tmp name) name contents) := by
  have hwritten : SameSnapshot st old (d.written (.tmp name) name contents) :=
    SameSnapshot.ignores_tmp old name _ none
      (SameSnapshot.ignores old name hmetadata hother d _ hd)
  obtain ⟨halong, hrun⟩ := along_writeAtomic htmp (oldOrNew_ignores_tmp old s generation name) d
    hpresent (Or.inl hd) contents (Or.inl hwritten)
  exact ⟨halong, hrun, hwritten⟩

/-- The two state files, written before the metadata refers to them. -/
structure Written (st : Store Z D) (old : Dir FileName) (s : Stored Z D) (generation : ℕ)
    (d : Dir FileName) : Prop where
  present : d.present = true
  same : SameSnapshot st old d
  zswap : d.files (.zswap generation) = some (st.zswapBytes s.1 s.2.zswapState)
  dust : d.files (.dustWallet generation) = some (st.dustBytes s.1 s.2.dustWallet)

theorem along_stateFiles (old : Dir FileName) (s : Stored Z D) (generation : ℕ)
    (hfresh : ∀ p, st.previousGeneration old = some p → generation ≠ p) :
    ∃ d, Along (OldOrNew st old s generation) old ([.createDir] ++
        write (.zswap generation) (st.zswapBytes s.1 s.2.zswapState) ++
        write (.dustWallet generation) (st.dustBytes s.1 s.2.dustWallet)) ∧
      run old ([.createDir] ++ write (.zswap generation) (st.zswapBytes s.1 s.2.zswapState) ++
        write (.dustWallet generation) (st.dustBytes s.1 s.2.dustWallet)) = some d ∧
      Written st old s generation d := by
  have hcreated : SameSnapshot st old { old with present := true } :=
    ⟨rfl, fun _ _ => rfl, fun _ _ => rfl⟩
  have hcreate : Along (OldOrNew st old s generation) old [.createDir] :=
    ⟨Or.inl (.refl old), _, rfl, Or.inl hcreated⟩
  obtain ⟨hzswap, hzswapRun, hzswapSame⟩ := along_write old s generation (.zswap generation)
    (by simp) (by simp) (fun p hp => ⟨by simpa using hfresh p hp, by simp⟩)
    { old with present := true } rfl hcreated (st.zswapBytes s.1 s.2.zswapState)
  obtain ⟨hdust, hdustRun, hdustSame⟩ := along_write old s generation (.dustWallet generation)
    (by simp) (by simp) (fun p hp => ⟨by simp, by simpa using hfresh p hp⟩)
    (({ old with present := true } : Dir FileName).written (.tmp (.zswap generation))
      (.zswap generation) (st.zswapBytes s.1 s.2.zswapState)) rfl hzswapSame
    (st.dustBytes s.1 s.2.dustWallet)
  have hfirst : Along (OldOrNew st old s generation) old
      ([.createDir] ++ write (.zswap generation) (st.zswapBytes s.1 s.2.zswapState)) :=
    hcreate.append rfl hzswap
  have hfirstRun : run old
      ([.createDir] ++ write (.zswap generation) (st.zswapBytes s.1 s.2.zswapState)) =
        some (({ old with present := true } : Dir FileName).written (.tmp (.zswap generation))
          (.zswap generation) (st.zswapBytes s.1 s.2.zswapState)) := run_append_of rfl hzswapRun
  refine ⟨_, hfirst.append hfirstRun hdust, run_append_of hfirstRun hdustRun, rfl, hdustSame,
    ?_, ?_⟩
  · unfold Dir.written
    rw [Dir.set_files_ne _ _ _ _ (by simp), Dir.set_files_ne _ _ _ _ (by simp),
      Dir.set_files_ne _ _ _ _ (by simp), Dir.set_files_self]
  · unfold Dir.written
    rw [Dir.set_files_ne _ _ _ _ (by simp), Dir.set_files_self]

/-- The rename of the metadata is the point at which the new snapshot replaces
the old one. -/
theorem along_commit (old : Dir FileName) (s : Stored Z D) (generation : ℕ) (d : Dir FileName)
    (h : Written st old s generation d) :
    ∃ d', Along (OldOrNew st old s generation) d
        (write .metadata (st.metadataJson (metadataOf s generation))) ∧
      run d (write .metadata (st.metadataJson (metadataOf s generation))) = some d' ∧
      Holds st s generation d' := by
  have hnew : Holds st s generation (d.written (.tmp .metadata) .metadata
      (st.metadataJson (metadataOf s generation))) := by
    unfold Dir.written
    refine ⟨?_, ?_, ?_⟩
    · rw [Dir.set_files_ne _ _ _ _ (by simp), Dir.set_files_self]
    · rw [Dir.set_files_ne _ _ _ _ (by simp), Dir.set_files_ne _ _ _ _ (by simp)]
      exact h.zswap
    · rw [Dir.set_files_ne _ _ _ _ (by simp), Dir.set_files_ne _ _ _ _ (by simp)]
      exact h.dust
  obtain ⟨halong, hrun⟩ := along_writeAtomic (by simp)
    (oldOrNew_ignores_tmp old s generation .metadata) d h.present (Or.inl h.same)
    (st.metadataJson (metadataOf s generation)) (Or.inr hnew)
  exact ⟨_, halong, hrun, hnew⟩

theorem along_cleanUp (old : Dir FileName) (s : Stored Z D) (generation p : ℕ)
    (hfresh : generation ≠ p) (d : Dir FileName) (h : Holds st s generation d) :
    ∃ d', Along (OldOrNew st old s generation) d [.remove (.zswap p), .remove (.dustWallet p)] ∧
      run d [.remove (.zswap p), .remove (.dustWallet p)] = some d' ∧
      Holds st s generation d' := by
  have hzswap : Holds st s generation (d.set (.zswap p) none) :=
    Holds.ignores s generation _ (by simp) (by simpa using hfresh.symm) (by simp) d none h
  have hdust : Holds st s generation ((d.set (.zswap p) none).set (.dustWallet p) none) :=
    Holds.ignores s generation _ (by simp) (by simp) (by simpa using hfresh.symm) _ none hzswap
  exact ⟨_, ⟨Or.inr h, _, rfl, Or.inr hzswap, _, rfl, Or.inr hdust⟩, rfl, hdust⟩

theorem Holds.saveSnapshot (hst : st.Lawful) {previous : Stored Z D} {p : ℕ} {old : Dir FileName}
    (h : Holds st previous p old) (s : Stored Z D) :
    st.saveSnapshot old s =
      [.createDir] ++ write (.zswap (p + 1)) (st.zswapBytes s.1 s.2.zswapState) ++
        write (.dustWallet (p + 1)) (st.dustBytes s.1 s.2.dustWallet) ++
        write .metadata (st.metadataJson (metadataOf s (p + 1))) ++
        [.remove (.zswap p), .remove (.dustWallet p)] := by
  have hprevious : st.previousGeneration old = some p := by
    unfold previousGeneration
    rw [h.readMetadata hst]
    rfl
  simp only [Store.saveSnapshot, hprevious, Option.map_some, Option.getD_some, Option.elim_some]

/-- A save can stop anywhere with the old snapshot or the new one, and at its
end the directory holds the new one. -/
theorem along_saveSnapshot (old : Dir FileName) (s : Stored Z D) :
    ∃ generation d, Along (OldOrNew st old s generation) old (st.saveSnapshot old s) ∧
      run old (st.saveSnapshot old s) = some d ∧ Holds st s generation d := by
  let generation := ((st.previousGeneration old).map (· + 1)).getD 1
  have hfresh : ∀ p, st.previousGeneration old = some p → generation ≠ p := by
    intro p hp
    simp only [generation, hp, Option.map_some, Option.getD_some]
    omega
  obtain ⟨written, hfiles, hfilesRun, hwritten⟩ := along_stateFiles old s generation hfresh
  obtain ⟨committed, hcommit, hcommitRun, hholds⟩ := along_commit old s generation written hwritten
  have hcommitted := hfiles.append hfilesRun hcommit
  have hcommittedRun := run_append_of hfilesRun hcommitRun
  unfold saveSnapshot
  cases hprevious : st.previousGeneration old with
  | none =>
    refine ⟨generation, committed, ?_, ?_, hholds⟩
    · simpa [generation, hprevious] using hcommitted
    · simpa [generation, hprevious] using hcommittedRun
  | some p =>
    obtain ⟨cleaned, hclean, hcleanRun, hcleaned⟩ :=
      along_cleanUp old s generation p (hfresh p hprevious) committed hholds
    refine ⟨generation, cleaned, ?_, ?_, hcleaned⟩
    · simpa [generation, hprevious] using hcommitted.append hcommittedRun hclean
    · simpa [generation, hprevious] using run_append_of hcommittedRun hcleanRun

end Saving

end Store

/-- What the directory loads as: nothing in any generation, or one snapshot in
its own generation and in no other. -/
def Loads (st : Store Z D) (d : Dir FileName) : Option (Stored Z D) → Prop
  | none => ∀ v, st.load d v = .ok none
  | some s => st.load d s.1 = .ok (some s.2) ∧
      ∀ v, v ≠ s.1 → st.load d v = .error (.ledgerMismatch v s.1)

theorem loads_of_holds (st : Store Z D) (hst : st.Lawful) (s : Stored Z D) (generation : ℕ)
    (d : Dir FileName) (h : st.Holds s generation d) : Loads st d (some s) :=
  ⟨h.load hst, h.load_other hst⟩

theorem Loads.of_same (st : Store Z D) (old d : Dir FileName) (x : Option (Stored Z D))
    (h : st.SameSnapshot old d) (hold : Loads st old x) : Loads st d x := by
  cases x with
  | none => exact fun v => (h.load v).trans (hold v)
  | some s => exact ⟨(h.load s.1).trans hold.1, fun v hv => (h.load v).trans (hold.2 v hv)⟩

/-- Wherever a save stops, a load finds the old snapshot or the new one, whole,
and the next save succeeds and leaves its own snapshot alone to be loaded. The
old directory may hold any leftovers beside what it loads as. -/
theorem save_atomic (st : Store Z D) (hst : st.Lawful) (old : Dir FileName)
    (previous : Option (Stored Z D)) (hold : Loads st old previous) (s : Stored Z D)
    (done rest : List (Step FileName)) (hstop : done ++ rest = st.saveSnapshot old s) :
    ∃ d, run old done = some d ∧ (Loads st d previous ∨ Loads st d (some s)) ∧
      ∀ next : Stored Z D, ∃ d', run d (st.saveSnapshot d next) = some d' ∧
        Loads st d' (some next) := by
  obtain ⟨generation, -, halong, -, -⟩ := st.along_saveSnapshot old s
  obtain ⟨d, hrun, hd⟩ := halong.stopped done rest hstop
  refine ⟨d, hrun, ?_, fun next => ?_⟩
  · rcases hd with hsame | hnew
    · exact Or.inl (Loads.of_same st old d previous hsame hold)
    · exact Or.inr (loads_of_holds st hst s generation d hnew)
  · obtain ⟨nextGeneration, d', -, hnextRun, hnext⟩ := st.along_saveSnapshot d next
    exact ⟨d', hnextRun, loads_of_holds st hst next nextGeneration d' hnext⟩

section Numbered

instance encodableChar : Encodable Char := Encodable.ofLeftInverse Char.toNat Char.ofNat Char.ofNat_toNat

instance encodableString : Encodable String :=
  Encodable.ofLeftInverse String.toList String.ofList (fun _ => String.ofList_toList)

instance : Encodable StoredUtxo :=
  Encodable.ofLeftInverse
    (fun u => (u.owner, u.tokenType, u.value, u.intentHash, u.outputIndex, u.ctime,
      u.registeredForDustGeneration))
    (fun t => ⟨t.1, t.2.1, t.2.2.1, t.2.2.2.1, t.2.2.2.2.1, t.2.2.2.2.2.1, t.2.2.2.2.2.2⟩)
    (fun _ => rfl)

instance : Encodable StoredMetadata :=
  Encodable.ofLeftInverse
    (fun m => (m.generation, m.ledgerVersion.rank, m.zswapEventId, m.dustEventId,
      m.lastBlockHeight, m.lastTxId, m.chainPin.map (fun p => (p.height, p.hash)),
      m.unshieldedUtxos))
    (fun t => ⟨t.1, if t.2.1 = 8 then .V8 else .V9, t.2.2.1, t.2.2.2.1, t.2.2.2.2.1,
      t.2.2.2.2.2.1, t.2.2.2.2.2.2.1.map (fun p => ⟨p.1, p.2⟩), t.2.2.2.2.2.2.2⟩)
    (by
      rintro ⟨g, v, z, d, h, t, p, us⟩
      cases v <;> cases p <;> rfl)

/-- A store whose states are numbers, and whose files are as long as the number
they encode. -/
def numberedStore : Store (fun _ => ℕ) (fun _ => ℕ) where
  path := "wallet"
  zswapBytes _ n := List.replicate n 0
  readZswap _ bytes := .ok bytes.length
  dustBytes _ n := List.replicate n 0
  readDust _ bytes := .ok bytes.length
  metadataJson m := List.replicate (Encodable.encode m) 0
  parseMetadata bytes :=
    match Encodable.decode bytes.length with
    | some m => .ok m
    | none => .error "expected value at line 1 column 1"

theorem numberedStore_lawful : numberedStore.Lawful where
  zswap v n := by simp [numberedStore]
  dust v n := by simp [numberedStore]
  metadata m := by simp [numberedStore]

def earlier : Stored (fun _ => ℕ) (fun _ => ℕ) := ⟨.V8, ⟨1, 2, 3, 4, 5, none, none, []⟩⟩

def later : Stored (fun _ => ℕ) (fun _ => ℕ) := ⟨.V9, ⟨6, 7, 8, 9, 10, some 11, none, []⟩⟩

/-- The directory of the earlier snapshot. -/
def savedDir : Dir FileName where
  present := true
  files
    | .metadata => some (numberedStore.metadataJson (Store.metadataOf earlier 1))
    | .zswap 1 => some (numberedStore.zswapBytes .V8 earlier.2.zswapState)
    | .dustWallet 1 => some (numberedStore.dustBytes .V8 earlier.2.dustWallet)
    | _ => none

theorem savedDir_holds : numberedStore.Holds earlier 1 savedDir := ⟨rfl, rfl, rfl⟩

/-- The save of the later snapshot over the earlier one, up to its last step. -/
def laterSave : List (Step FileName) :=
  [.createDir] ++ Store.write (.zswap 2) (numberedStore.zswapBytes .V9 later.2.zswapState) ++
    Store.write (.dustWallet 2) (numberedStore.dustBytes .V9 later.2.dustWallet) ++
    Store.write .metadata (numberedStore.metadataJson (Store.metadataOf later 2)) ++ [.remove (.zswap 1)]

/-- A snapshot of a later generation saved over another, stopped between the
two removals of the files before it. -/
theorem save_atomic_upgrade :
    ∃ d, run savedDir laterSave = some d ∧
      (Loads numberedStore d (some earlier) ∨ Loads numberedStore d (some later)) ∧
      ∀ next, ∃ d', run d (numberedStore.saveSnapshot d next) = some d' ∧
        Loads numberedStore d' (some next) := by
  have hsteps := savedDir_holds.saveSnapshot numberedStore_lawful later
  refine save_atomic numberedStore numberedStore_lawful savedDir (some earlier)
    (loads_of_holds _ numberedStore_lawful _ _ _ savedDir_holds) later laterSave
    [.remove (.dustWallet 1)] ?_
  rw [hsteps, laterSave, List.append_assoc _ [_] [_]]
  rfl

end Numbered

end MidnightRs.Storage
