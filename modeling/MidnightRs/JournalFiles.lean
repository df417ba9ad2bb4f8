import MidnightRs.Interleavings
import MidnightRs.JournalChain

/-!
The calls of the private-state store at the level of single files. Each call is
a program of reads, writes and removals, and alone on the store it does what
the store's model says. Two calls at a time are these programs interleaved, of
which those that change one journal in place hold the lock of its address.
-/
namespace MidnightRs.Journal

open Interleavings

variable (p : Provider)

section Programs

abbrev Outcome (α : Type) := Except PrivateStateError α

/-- The names of the snapshot files, as the directory lists them. -/
def listDir (address : String) : Prog Store (List FileName) :=
  .read (fun st => (files p st address).map Prod.fst)

def readFile (address : String) (name : FileName) : Prog Store (Option Snapshot) :=
  .read (fun st => (st (p.hashedName address)).bind (fun dir => dir.read name))

/-- A file that is gone by now is skipped. -/
def readFiles (address : String) : List FileName → Prog Store Files
  | [] => pure []
  | name :: names => do
    let found ← readFile p address name
    let rest ← readFiles address names
    pure (found.elim rest (fun snap => (name, snap) :: rest))

def inOrder (fs : Files) : Files := fs.mergeSort (fun a b => a.1.le b.1)

def readJsonDir (address : String) : Prog Store Files := do
  let names ← listDir p address
  let fs ← readFiles p address names
  pure (inOrder fs)

def createPrivateDir (address : String) : Prog Store Unit :=
  .modify (fun st => Function.update st (p.hashedName address)
    (some ((st (p.hashedName address)).getD Dir.empty)))

/-- The `tmp` sibling that a snapshot goes through. -/
def FileName.tmp (name : FileName) : String :=
  let digits := (toString name.nanos).toList
  let nanos := String.ofList (List.replicate (20 - digits.length) '0' ++ digits)
  s!"{nanos}-{name.extrinsicHash}.tmp"

/-- An atomic write into the address's directory, which must be there. -/
def writeAtomic (address tmp : String) (f : Dir → Dir) : Prog Store (Outcome Unit) :=
  .step (fun st => updateDir p st address f) (fun st => .done
    (if (st (p.hashedName address)).isSome then .ok ()
      else .error (.io
        s!"write {p.addressDir address}/{tmp}: No such file or directory (os error 2)")))

def markerProg (address : String) : Prog Store (Outcome Unit) := do
  createPrivateDir p address
  let marker ← Prog.read (fun st : Store => (st (p.hashedName address)).bind Dir.marker)
  match marker with
  | some existing =>
    if trim existing ≠ address then
      pure (.error (.invalidFormat s!"address marker at {p.addressDir address}/address.txt holds {(trim existing).quote} but caller passed {address.quote}; the per-address directory does not match the address it was created for. Resolve by deleting the directory or repairing the marker."))
    else pure (.ok ())
  | none => writeAtomic p address "address.tmp" (fun dir => { dir with marker := some address })

def writeJsonAtomic (address : String) (name : FileName) (snap : Snapshot) :
    Prog Store (Outcome Unit) := do
  createPrivateDir p address
  writeAtomic p address name.tmp (fun dir => dir.write name snap)

def removeFile (address : String) (name : FileName) : Prog Store Unit :=
  .modify (fun st => updateDir p st address (fun dir => dir.remove name))

def findIn (fs : Files) (hash : String) : Option FileName :=
  (fs.find? (fun f => decide (f.2.extrinsicHash = hash))).map Prod.fst

def appendProg (nanos : ℕ) (address : String) (ext : Hash32) (dependsOn : Option Hash32)
    (state : Bytes) : Prog Store (Outcome Unit) := do
  let marked ← markerProg p address
  match marked with
  | .error e => pure (.error e)
  | .ok () =>
    let found ← readJsonDir p address
    if (findIn found ext.hex).isSome then pure (.error (.snapshotAlreadyExists address ext.hex))
    else
      let fs ← readJsonDir p address
      match findLeaf (fs.map Prod.snd) with
      | .error e => pure (.error e)
      | .ok head =>
        let expected := dependsOn.map Hash32.hex
        let currentLeaf := head.map Snapshot.extrinsicHash
        if currentLeaf ≠ expected then
          pure (.error (.journalConflict address expected currentLeaf))
        else
          let written ← writeJsonAtomic p address ⟨nanos, ext.hex⟩
            (pendingSnapshot ext dependsOn state)
          match written with
          | .ok () => pure (.ok ())
          | .error e =>
            removeFile p address ⟨nanos, ext.hex⟩
            pure (.error e)

def confirmProg (address : String) (ext : Hash32) (blockHeight : Option ℕ) (blockHash : Hash32) :
    Prog Store (Outcome Unit) := do
  let found ← readJsonDir p address
  match findIn found ext.hex with
  | none => pure (.error (.snapshotNotFound address ext.hex))
  | some path =>
    let current ← readFile p address path
    match current with
    | none => pure (.error (.io s!"snapshot disappeared at {p.addressDir address}"))
    | some snap =>
      if snap.status = .confirmed then
        if snap.blockHash ≠ some blockHash.hex then
          pure (.error (.invalidFormat s!"snapshot already confirmed with a different block; address={address}, extrinsic_hash={ext.hex}, existing=(height={debugOption (snap.blockHeight.map toString)}, hash={debugOption (snap.blockHash.map String.quote)}), requested=(height={debugOption (blockHeight.map toString)}, hash={blockHash.hex})"))
        else if snap.blockHeight.isNone && blockHeight.isSome then
          writeJsonAtomic p address path { snap with blockHeight := blockHeight }
        else pure (.ok ())
      else
        writeJsonAtomic p address path
          { snap with
            status := .confirmed, blockHeight := blockHeight, blockHash := some blockHash.hex }

/-- Removes the files one after the other, those that have one. -/
def removeFiles (address : String) (path : String → Option FileName) :
    List String → Prog Store Unit
  | [] => pure ()
  | hash :: hashes => do
    match path hash with
    | none => removeFiles address path hashes
    | some name =>
      removeFile p address name
      removeFiles address path hashes

def cascadeProg (address startHash : String) : Prog Store (Outcome Unit) := do
  let snaps ← readJsonDir p address
  if snaps.any (fun f => decide (f.2.extrinsicHash = startHash)) then
    let doomed := walkChildren (snaps.map Prod.snd) [startHash]
    let pathByHash := fun hash =>
      (snaps.reverse.find? (fun f => decide (f.2.extrinsicHash = hash))).map Prod.fst
    removeFiles p address pathByHash doomed.reverse
    pure (.ok ())
  else pure (.error (.snapshotNotFound address startHash))

/-- Removes the directory's files one after the other, and then the directory
if it is empty by then. -/
def forgetProg (address : String) : Prog Store (Outcome Unit) := do
  let names ← listDir p address
  names.forM (removeFile p address)
  Prog.modify (fun st => updateDir p st address (fun dir => { dir with marker := none }))
  .step
    (fun st => if files p st address = [] then Function.update st (p.hashedName address) none else st)
    (fun st => .done (if files p st address = [] then .ok ()
      else .error (.io s!"clear {p.addressDir address}: Directory not empty (os error 39)")))

def headProg (address : String) : Prog Store (Outcome (Option (Bytes × Hash32))) := do
  let fs ← readJsonDir p address
  match findLeaf (fs.map Prod.snd) with
  | .error e => pure (.error e)
  | .ok none => pure (.ok none)
  | .ok (some snap) =>
    match parseHash snap.extrinsicHash with
    | .error e => pure (.error e)
    | .ok ext => pure (.ok (some (snap.data, ext)))

def byHash (fs : Files) : ByHash := fs.foldl (fun m f => m.insert f.2.extrinsicHash f) []

/-- Each touched directory is read once. -/
def readJournals : List String → Prog Store (String → ByHash)
  | [] => pure (fun _ => [])
  | address :: addresses => do
    let fs ← readJsonDir p address
    let rest ← readJournals addresses
    pure (Function.update rest address (byHash fs))

def commitProg : List Staged → Prog Store (Outcome Unit)
  | [] => pure (.ok ())
  | (entry, target) :: rest => do
    let marked ← markerProg p entry.address
    match marked with
    | .error e => pure (.error e)
    | .ok () =>
      match target with
      | none => commitProg rest
      | some path =>
        let written ← writeJsonAtomic p entry.address path entry.snapshot
        match written with
        | .error e => pure (.error e)
        | .ok () => commitProg rest

def importProg (codec : Codec) (clock : ℕ → ℕ) (data : EncryptedExport) (opts : ImportOptions) :
    Prog Store (Outcome ImportResult) := do
  match openExport codec formatStates data opts with
  | .error e => pure (.error e)
  | .ok entries =>
    match entries.forM validateEntry with
    | .error e => pure (.error e)
    | .ok () =>
      match rejectDuplicates [] entries with
      | .error e => pure (.error e)
      | .ok () =>
        let addresses := (entries.map ExportEntry.address).dedup
        let perAddress ← readJournals p addresses
        match stageEntries opts.conflict clock ⟨perAddress, [], ⟨0, 0, 0⟩⟩ entries with
        | .error e => pure (.error e)
        | .ok s =>
          match checkMerged s.perAddress addresses with
          | .error e => pure (.error e)
          | .ok () =>
            let committed ← commitProg p s.staged
            match committed with
            | .error e => pure (.error e)
            | .ok () => pure (.ok s.result)

end Programs

section Alone

variable {p}

/-- A directory names each of its files once. -/
def Named (st : Store) : Prop :=
  ∀ name dir, st name = some dir → (dir.files.map Prod.fst).Nodup

theorem Named.update {st : Store} (h : Named st) (name : String) (dir : Option Dir)
    (hdir : ∀ d, dir = some d → (d.files.map Prod.fst).Nodup) :
    Named (Function.update st name dir) := by
  intro other d hd
  by_cases hname : other = name
  · subst hname
    rw [Function.update_self] at hd
    exact hdir d hd
  · rw [Function.update_of_ne hname] at hd
    exact h other d hd

theorem Named.updateDir {st : Store} (h : Named st) (address : String) (f : Dir → Dir)
    (hf : ∀ dir : Dir, (dir.files.map Prod.fst).Nodup → ((f dir).files.map Prod.fst).Nodup) :
    Named (updateDir p st address f) := by
  refine h.update _ _ ?_
  intro d hd
  obtain ⟨dir, hdir, rfl⟩ := Option.map_eq_some_iff.mp hd
  exact hf dir (h _ dir hdir)

theorem Named.files {st : Store} (h : Named st) (address : String) :
    ((files p st address).map Prod.fst).Nodup := by
  unfold Journal.files
  cases hst : st (p.hashedName address) with
  | none => simp
  | some dir => exact h _ dir hst

theorem nodup_remove {dir : Dir} (h : (dir.files.map Prod.fst).Nodup) (name : FileName) :
    ((dir.remove name).files.map Prod.fst).Nodup :=
  h.sublist (List.filter_sublist.map _)

theorem nodup_write {dir : Dir} (h : (dir.files.map Prod.fst).Nodup) (name : FileName)
    (snap : Snapshot) : ((dir.write name snap).files.map Prod.fst).Nodup := by
  unfold Dir.write
  rw [List.map_cons]
  refine List.nodup_cons.mpr ⟨?_, h.sublist (List.filter_sublist.map _)⟩
  simp

/-- What a file of the name holds. -/
def readIn (fs : Files) (name : FileName) : Option Snapshot :=
  (fs.find? (fun f => decide (f.1 = name))).map Prod.snd

theorem readFile_eq (st : Store) (address : String) (name : FileName) :
    (st (p.hashedName address)).bind (fun dir => dir.read name) =
      readIn (files p st address) name := by
  unfold Journal.files readIn
  cases st (p.hashedName address) <;> rfl

theorem readIn_of_mem {fs : Files} (hnodup : (fs.map Prod.fst).Nodup) {f : FileName × Snapshot}
    (hf : f ∈ fs) : readIn fs f.1 = some f.2 := by
  have hsome : (fs.find? (fun g => decide (g.1 = f.1))).isSome = true :=
    List.find?_isSome.mpr ⟨f, hf, by simp⟩
  obtain ⟨g, hg⟩ := Option.isSome_iff_exists.mp hsome
  have hname : g.1 = f.1 := by simpa using List.find?_some hg
  have hgf : g = f := List.inj_on_of_nodup_map hnodup (List.mem_of_find?_eq_some hg) hf hname
  simp [readIn, hg, hgf]

theorem mem_of_readIn {fs : Files} {name : FileName} {snap : Snapshot}
    (h : readIn fs name = some snap) : (name, snap) ∈ fs := by
  unfold readIn at h
  obtain ⟨f, hfind, rfl⟩ := Option.map_eq_some_iff.mp h
  have hname : f.1 = name := by simpa using List.find?_some hfind
  exact hname ▸ List.mem_of_find?_eq_some hfind

/-- The files of these names. -/
def pick (fs : Files) (names : List FileName) : Files :=
  names.filterMap (fun name => (readIn fs name).map (fun snap => (name, snap)))

theorem pick_cons (fs : Files) (name : FileName) (names : List FileName) :
    pick fs (name :: names) =
      (readIn fs name).elim (pick fs names) (fun snap => (name, snap) :: pick fs names) := by
  unfold pick
  cases hread : readIn fs name <;> simp [hread]

theorem pick_all {fs : Files} (hnodup : (fs.map Prod.fst).Nodup) :
    pick fs (fs.map Prod.fst) = fs := by
  unfold pick
  rw [List.filterMap_map]
  have hsome : ∀ f ∈ fs, ((fun name => (readIn fs name).map (fun snap => (name, snap))) ∘ Prod.fst) f
      = some f := by
    intro f hf
    simp [readIn_of_mem hnodup hf]
  rw [List.filterMap_congr hsome, List.filterMap_some]

theorem readFiles_run (st : Store) (address : String) (names : List FileName) :
    (readFiles p address names).run st = (st, pick (files p st address) names) := by
  induction names with
  | nil => rfl
  | cons name names ih =>
    simp only [readFiles, readFile, Prog.run_bind, Prog.run_read, Prog.run_pure, ih, readFile_eq,
      pick_cons]

theorem inOrder_files (st : Store) (address : String) :
    inOrder (files p st address) = loadSnapshots p st address := by
  unfold inOrder files loadSnapshots
  cases st (p.hashedName address) with
  | none => simp
  | some dir => rfl

theorem readJsonDir_run {st : Store} (h : Named st) (address : String) :
    (readJsonDir p address).run st = (st, loadSnapshots p st address) := by
  simp only [readJsonDir, listDir, Prog.run_bind, Prog.run_read, Prog.run_pure, readFiles_run,
    pick_all (h.files address), inOrder_files]

theorem createPrivateDir_run (st : Store) (address : String) :
    (createPrivateDir p address).run st = (Function.update st (p.hashedName address)
      (some ((st (p.hashedName address)).getD Dir.empty)), ()) := rfl

theorem markerProg_run (st : Store) (address : String) :
    (markerProg p address).run st = ensureAddressMarker p st address := by
  unfold markerProg ensureAddressMarker
  simp only [Prog.run_bind, createPrivateDir_run, Prog.run_read, Function.update_self,
    Option.bind_some]
  cases hmarker : ((st (p.hashedName address)).getD Dir.empty).marker with
  | some existing =>
    simp only
    split <;> rfl
  | none =>
    simp only [writeAtomic, Prog.run, updateDir, Function.update_self, Option.map_some,
      Function.update_idem, Option.isSome_some, if_true]

/-- A write into a directory that is there. -/
theorem writeJsonAtomic_run {st : Store} (address : String)
    (hdir : (st (p.hashedName address)).isSome = true) (name : FileName) (snap : Snapshot) :
    (writeJsonAtomic p address name snap).run st =
      (updateDir p st address (fun dir => dir.write name snap), .ok ()) := by
  obtain ⟨dir, hdir⟩ := Option.isSome_iff_exists.mp hdir
  have hsame : Function.update st (p.hashedName address) (some dir) = st := by
    rw [← hdir]
    exact Function.update_eq_self _ _
  simp only [writeJsonAtomic, Prog.run_bind, createPrivateDir_run, hdir, Option.getD_some, hsame,
    writeAtomic, Prog.run, Option.isSome_some, if_true]

/-- The marker changes no journal. -/
theorem ensureAddressMarker_fst (st : Store) (address : String) :
    ∃ dir, (ensureAddressMarker p st address).1 =
        Function.update st (p.hashedName address) (some dir) ∧
      dir.files = files p st address := by
  have hget : ((st (p.hashedName address)).getD Dir.empty).files = files p st address := by
    unfold files
    cases st (p.hashedName address) <;> rfl
  unfold ensureAddressMarker
  generalize (st (p.hashedName address)).getD Dir.empty = dir at hget ⊢
  obtain ⟨marker, fs⟩ := dir
  cases marker with
  | none => exact ⟨_, rfl, hget⟩
  | some existing =>
    by_cases htrim : trim existing = address
    · exact ⟨⟨some existing, fs⟩, by simp [htrim], hget⟩
    · exact ⟨⟨some existing, fs⟩, by simp [htrim], hget⟩

theorem ensureAddressMarker_isSome (st : Store) (address : String) :
    ((ensureAddressMarker p st address).1 (p.hashedName address)).isSome = true := by
  obtain ⟨dir, hst, -⟩ := ensureAddressMarker_fst (p := p) st address
  rw [hst, Function.update_self]
  rfl

theorem Named.ensureAddressMarker {st : Store} (h : Named st) (address : String) :
    Named (ensureAddressMarker p st address).1 := by
  obtain ⟨dir, hst, hfiles⟩ := ensureAddressMarker_fst (p := p) st address
  rw [hst]
  refine h.update _ _ ?_
  rintro d hd
  obtain rfl := Option.some.inj hd
  rw [hfiles]
  exact h.files address

theorem appendProg_run {st : Store} (h : Named st) (nanos : ℕ) (address : String) (ext : Hash32)
    (dependsOn : Option Hash32) (state : Bytes) :
    (appendProg p nanos address ext dependsOn state).run st =
      appendPending p nanos st address ext dependsOn state := by
  have hnamed := h.ensureAddressMarker (p := p) address
  have hdir := ensureAddressMarker_isSome (p := p) st address
  unfold appendProg appendPending
  rw [Prog.run_bind, markerProg_run]
  generalize ensureAddressMarker p st address = marked at hnamed hdir ⊢
  obtain ⟨st, result⟩ := marked
  cases result with
  | error e => rfl
  | ok u =>
    have hpath : findIn (loadSnapshots p st address) ext.hex =
        findSnapshotPath p st address ext.hex := rfl
    simp only [Prog.run_bind, readJsonDir_run hnamed, hpath]
    split
    · rfl
    · simp only [Prog.run_bind, readJsonDir_run hnamed]
      unfold headSnapshot snapshots
      cases findLeaf ((loadSnapshots p st address).map Prod.snd) with
      | error e => rfl
      | ok head =>
        simp only
        split
        · rfl
        · simp only [Prog.run_bind, writeJsonAtomic_run address hdir]
          rfl

theorem readFile_run (st : Store) (address : String) (name : FileName) :
    (readFile p address name).run st =
      (st, (st (p.hashedName address)).bind (fun dir => dir.read name)) := rfl

theorem confirmProg_run {st : Store} (h : Named st) (address : String) (ext : Hash32)
    (blockHeight : Option ℕ) (blockHash : Hash32) :
    (confirmProg p address ext blockHeight blockHash).run st =
      confirm p st address ext blockHeight blockHash := by
  have hpath : findIn (loadSnapshots p st address) ext.hex =
      findSnapshotPath p st address ext.hex := rfl
  unfold confirmProg confirm
  simp only [Prog.run_bind, readJsonDir_run h, hpath]
  cases findSnapshotPath p st address ext.hex with
  | none => rfl
  | some path =>
    simp only [Prog.run_bind, readFile_run]
    cases hdir : st (p.hashedName address) with
    | none => rfl
    | some dir =>
      have hsome : (st (p.hashedName address)).isSome = true := by rw [hdir]; rfl
      simp only [Option.bind_some]
      cases dir.read path with
      | none => rfl
      | some snap =>
        simp only
        split
        · split
          · rfl
          · split
            · rw [writeJsonAtomic_run address hsome]
            · rfl
        · rw [writeJsonAtomic_run address hsome]

theorem removeFiles_run (address : String) (path : String → Option FileName)
    (hashes : List String) (st : Store) :
    (removeFiles p address path hashes).run st =
      (hashes.foldl (fun st hash =>
        match path hash with
        | none => st
        | some name => updateDir p st address (fun dir => dir.remove name)) st, ()) := by
  induction hashes generalizing st with
  | nil => rfl
  | cons hash hashes ih =>
    unfold removeFiles
    rw [List.foldl_cons]
    cases path hash with
    | none => exact ih st
    | some name =>
      rw [Prog.run_bind]
      exact ih (updateDir p st address (fun dir => dir.remove name))

theorem cascadeProg_run {st : Store} (h : Named st) (address startHash : String) :
    (cascadeProg p address startHash).run st = cascadeDrop p st address startHash := by
  unfold cascadeProg cascadeDrop
  simp only [Prog.run_bind, readJsonDir_run h]
  split
  · simp only [Prog.run_bind, removeFiles_run]
    rfl
  · rfl

/-- Removing listed files leaves the directory without them. -/
theorem removeEach_run (address : String) (names : List FileName) (st : Store) :
    ∃ dir, (names.forM (removeFile p address)).run st =
        (Function.update st (p.hashedName address) dir, ()) ∧
      files p (Function.update st (p.hashedName address) dir) address =
        (files p st address).filter (fun f => decide (f.1 ∉ names)) := by
  induction names generalizing st with
  | nil =>
    refine ⟨st (p.hashedName address), ?_, ?_⟩
    · rw [Function.update_eq_self]
      rfl
    · rw [Function.update_eq_self]
      simp
  | cons name names ih =>
    obtain ⟨dir, hrun, hfiles⟩ := ih (updateDir p st address (fun dir => dir.remove name))
    have hidem : Function.update (updateDir p st address (fun dir => dir.remove name))
        (p.hashedName address) dir = Function.update st (p.hashedName address) dir :=
      Function.update_idem _ _ _
    rw [hidem] at hrun hfiles
    refine ⟨dir, ?_, ?_⟩
    · change (removeFile p address name >>= fun _ => names.forM (removeFile p address)).run st = _
      rw [Prog.run_bind]
      exact hrun
    · rw [hfiles, files_remove, List.filter_filter]
      refine List.filter_congr ?_
      intro f _
      by_cases hname : f.1 = name <;> simp [hname]

theorem forgetProg_run (st : Store) (address : String) :
    (forgetProg p address).run st = forget p st address := by
  obtain ⟨dir, hrun, hfiles⟩ := removeEach_run (p := p) address
    ((files p st address).map Prod.fst) st
  have hempty : files p (Function.update st (p.hashedName address) dir) address = [] := by
    rw [hfiles]
    refine List.filter_eq_nil_iff.mpr ?_
    intro f hf
    have hmem : f.1 ∈ (files p st address).map Prod.fst := List.mem_map_of_mem hf
    simpa using hmem
  have hnone : files p (updateDir p (Function.update st (p.hashedName address) dir) address
      (fun dir => { dir with marker := none })) address = [] := by
    cases dir with
    | none => simp [files, updateDir]
    | some d => simpa [files, updateDir] using hempty
  unfold forgetProg forget
  simp only [listDir, Prog.run_bind, Prog.run_read, hrun, Prog.run_modify, Prog.run, hnone, if_true]
  unfold updateDir
  rw [Function.update_idem, Function.update_idem]

theorem headProg_run {st : Store} (h : Named st) (address : String) :
    (headProg p address).run st = (st, headWithExtrinsic p st address) := by
  unfold headProg headWithExtrinsic headSnapshot snapshots
  simp only [Prog.run_bind, readJsonDir_run h]
  cases findLeaf ((loadSnapshots p st address).map Prod.snd) with
  | error e => rfl
  | ok head =>
    cases head with
    | none => rfl
    | some snap =>
      simp only
      cases parseHash snap.extrinsicHash <;> rfl

theorem readJournals_run {st : Store} (h : Named st) (addresses : List String) :
    ∃ perAddress, (readJournals p addresses).run st = (st, perAddress) ∧
      ∀ a ∈ addresses, perAddress a = loadByHash p st a := by
  induction addresses with
  | nil => exact ⟨_, rfl, by simp⟩
  | cons address addresses ih =>
    obtain ⟨perAddress, hrun, hsame⟩ := ih
    refine ⟨Function.update perAddress address (byHash (loadSnapshots p st address)), ?_, ?_⟩
    · simp only [readJournals, Prog.run_bind, readJsonDir_run h, hrun, Prog.run_pure]
    · intro a ha
      by_cases hne : a = address
      · subst hne
        rw [Function.update_self]
        rfl
      · rw [Function.update_of_ne hne]
        exact hsame a ((List.mem_cons.mp ha).resolve_left hne)

/-- Two stagings that differ only in journals that no entry names. -/
structure SameOn (addresses : List String) (s s' : Staging) : Prop where
  perAddress : ∀ a ∈ addresses, s.perAddress a = s'.perAddress a
  staged : s.staged = s'.staged
  result : s.result = s'.result

theorem stageEntry_same {addresses : List String} {s s' : Staging} (h : SameOn addresses s s')
    (conflict : ConflictStrategy) (nanos : ℕ) (entry : ExportEntry)
    (hentry : entry.address ∈ addresses) :
    (∃ e, stageEntry conflict nanos s entry = .error e ∧
        stageEntry conflict nanos s' entry = .error e) ∨
      ∃ t t', stageEntry conflict nanos s entry = .ok t ∧
        stageEntry conflict nanos s' entry = .ok t' ∧ SameOn addresses t t' := by
  have hjournal := h.perAddress _ hentry
  unfold stageEntry
  simp only [← h.staged, ← h.result, ← hjournal]
  split
  · exact Or.inl ⟨_, rfl, rfl⟩
  · split
    · exact Or.inl ⟨_, rfl, rfl⟩
    · exact Or.inr ⟨_, _, rfl, rfl, h.perAddress, rfl, rfl⟩
    · refine Or.inr ⟨_, _, rfl, rfl, ?_, rfl, rfl⟩
      intro a ha
      by_cases hne : a = entry.address
      · subst hne
        simp only [Function.update_self]
      · simp only [Function.update_of_ne hne]
        exact h.perAddress a ha

theorem stageEntries_same {addresses : List String} (conflict : ConflictStrategy) (clock : ℕ → ℕ)
    (entries : List ExportEntry) (hentries : ∀ e ∈ entries, e.address ∈ addresses)
    {s s' : Staging} (h : SameOn addresses s s') :
    (∃ e, stageEntries conflict clock s entries = .error e ∧
        stageEntries conflict clock s' entries = .error e) ∨
      ∃ t t', stageEntries conflict clock s entries = .ok t ∧
        stageEntries conflict clock s' entries = .ok t' ∧ SameOn addresses t t' := by
  induction entries generalizing s s' with
  | nil => exact Or.inr ⟨s, s', rfl, rfl, h⟩
  | cons entry entries ih =>
    have hlength : s.staged.length = s'.staged.length := congrArg List.length h.staged
    unfold stageEntries
    rw [← hlength]
    rcases stageEntry_same h conflict (clock s.staged.length) entry (hentries entry (by simp)) with
      ⟨e, hs, hs'⟩ | ⟨t, t', hs, hs', hsame⟩
    · exact Or.inl ⟨e, by rw [hs], by rw [hs']⟩
    · rw [hs, hs']
      exact ih (fun e he => hentries e (by simp [he])) hsame

theorem checkMerged_same {perAddress perAddress' : String → ByHash} {addresses : List String}
    (h : ∀ a ∈ addresses, perAddress a = perAddress' a) :
    checkMerged perAddress addresses = checkMerged perAddress' addresses := by
  induction addresses with
  | nil => rfl
  | cons address addresses ih =>
    unfold checkMerged
    rw [h address (by simp), ih (fun a ha => h a (by simp [ha]))]

theorem commitProg_run (staged : List Staged) (st : Store) :
    (commitProg p staged).run st = commitStaged p st staged := by
  induction staged generalizing st with
  | nil => rfl
  | cons entry rest ih =>
    obtain ⟨entry, target⟩ := entry
    have hdir := ensureAddressMarker_isSome (p := p) st entry.address
    unfold commitProg commitStaged
    rw [Prog.run_bind, markerProg_run]
    generalize ensureAddressMarker p st entry.address = marked at hdir ⊢
    obtain ⟨st, result⟩ := marked
    cases result with
    | error e => rfl
    | ok u =>
      cases target with
      | none => exact ih st
      | some path =>
        simp only [Prog.run_bind, writeJsonAtomic_run entry.address hdir]
        exact ih _

theorem importProg_run {st : Store} (h : Named st) (codec : Codec) (clock : ℕ → ℕ)
    (data : EncryptedExport) (opts : ImportOptions) :
    (importProg p codec clock data opts).run st = importPrivateStates p codec clock st data opts := by
  unfold importProg importPrivateStates applyImportEntries
  cases openExport codec formatStates data opts with
  | error e => rfl
  | ok entries =>
    simp only
    cases entries.forM validateEntry with
    | error e => rfl
    | ok u =>
      simp only
      cases rejectDuplicates [] entries with
      | error e => rfl
      | ok u =>
        have hentries : ∀ e ∈ entries, e.address ∈ (entries.map ExportEntry.address).dedup :=
          fun e he => List.mem_dedup.mpr (List.mem_map_of_mem he)
        generalize (entries.map ExportEntry.address).dedup = addresses at hentries ⊢
        obtain ⟨perAddress, hrun, hsame⟩ := readJournals_run h addresses
        rw [Prog.run_bind, hrun]
        simp only
        rcases stageEntries_same opts.conflict clock entries hentries
            (show SameOn addresses ⟨perAddress, [], ⟨0, 0, 0⟩⟩ ⟨loadByHash p st, [], ⟨0, 0, 0⟩⟩ from
              ⟨hsame, rfl, rfl⟩) with
          ⟨e, hs, hs'⟩ | ⟨t, t', hs, hs', ht⟩
        · rw [hs, hs']
          rfl
        · rw [hs, hs']
          simp only [checkMerged_same ht.perAddress]
          cases checkMerged t'.perAddress addresses with
          | error e => rfl
          | ok u =>
            simp only [Prog.run_bind, commitProg_run, ht.staged, ht.result]
            rcases commitStaged p st t'.staged with ⟨st', e | u⟩ <;> rfl

end Alone

end MidnightRs.Journal
