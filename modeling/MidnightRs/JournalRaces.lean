import MidnightRs.JournalFiles

/-!
Two calls on one journal at the same time. The calls that change a journal in
place hold the lock of its address, and any interleaving of two of them is one
of the two serial orders. So is a read of the head beside a call that changes
one snapshot file. An import and a removal of the whole journal take no lock.
-/
namespace MidnightRs.Journal

open Interleavings Loops

variable (p : Provider)

/-- A call on the journal of one address. -/
inductive Call where
  | appendPending (nanos : ℕ) (ext : Hash32) (dependsOn : Option Hash32) (state : Bytes)
  | confirm (ext : Hash32) (blockHeight : Option ℕ) (blockHash : Hash32)
  | markFailed (ext : Hash32)
  | rollbackFrom (ext : Hash32)
  | forget
  | importPrivateStates (clock : ℕ → ℕ) (data : EncryptedExport) (opts : ImportOptions)
  | headWithExtrinsic

inductive Answer where
  | done (result : Outcome Unit)
  | imported (result : Outcome ImportResult)
  | head (result : Outcome (Option (Bytes × Hash32)))
deriving DecidableEq

namespace Call

/-- Whether the call holds the lock of its address. -/
def locks : Call → Bool
  | .appendPending _ _ _ _ => true
  | .confirm _ _ _ => true
  | .markFailed _ => true
  | .rollbackFrom _ => true
  | .forget => false
  | .importPrivateStates _ _ _ => false
  | .headWithExtrinsic => false

/-- The call, as its steps on single files. -/
def prog (codec : Codec) (address : String) : Call → Prog Store Answer
  | .appendPending nanos ext dependsOn state => do
    let result ← appendProg p nanos address ext dependsOn state
    pure (.done result)
  | .confirm ext blockHeight blockHash => do
    let result ← confirmProg p address ext blockHeight blockHash
    pure (.done result)
  | .markFailed ext => do
    let result ← cascadeProg p address ext.hex
    pure (.done result)
  | .rollbackFrom ext => do
    let result ← cascadeProg p address ext.hex
    pure (.done result)
  | .forget => do
    let result ← forgetProg p address
    pure (.done result)
  | .importPrivateStates clock data opts => do
    let result ← importProg p codec clock data opts
    pure (.imported result)
  | .headWithExtrinsic => do
    let result ← headProg p address
    pure (.head result)

/-- The call with the store to itself. -/
def apply (codec : Codec) (address : String) (st : Store) : Call → Store × Answer
  | .appendPending nanos ext dependsOn state =>
    let out := Journal.appendPending p nanos st address ext dependsOn state
    (out.1, .done out.2)
  | .confirm ext blockHeight blockHash =>
    let out := Journal.confirm p st address ext blockHeight blockHash
    (out.1, .done out.2)
  | .markFailed ext =>
    let out := Journal.markFailed p st address ext
    (out.1, .done out.2)
  | .rollbackFrom ext =>
    let out := Journal.rollbackFrom p st address ext
    (out.1, .done out.2)
  | .forget =>
    let out := Journal.forget p st address
    (out.1, .done out.2)
  | .importPrivateStates clock data opts =>
    let out := Journal.importPrivateStates p codec clock st data opts
    (out.1, .imported out.2)
  | .headWithExtrinsic => (st, .head (Journal.headWithExtrinsic p st address))

def start (codec : Codec) (address : String) (c : Call) : Thread Store Answer :=
  .start c.locks (c.prog p codec address)

/-- Alone, the steps of a call do what the call does. -/
theorem prog_run (codec : Codec) (address : String) {st : Store} (h : Named st) (c : Call) :
    (c.prog p codec address).run st = c.apply p codec address st := by
  cases c with
  | appendPending nanos ext dependsOn state =>
    simp only [prog, apply, Prog.run_bind, Prog.run_pure, appendProg_run h]
  | confirm ext blockHeight blockHash =>
    simp only [prog, apply, Prog.run_bind, Prog.run_pure, confirmProg_run h]
  | markFailed ext =>
    simp only [prog, apply, Prog.run_bind, Prog.run_pure, cascadeProg_run h]
    rfl
  | rollbackFrom ext =>
    simp only [prog, apply, Prog.run_bind, Prog.run_pure, cascadeProg_run h]
    rfl
  | forget => simp only [prog, apply, Prog.run_bind, Prog.run_pure, forgetProg_run]
  | importPrivateStates clock data opts =>
    simp only [prog, apply, Prog.run_bind, Prog.run_pure, importProg_run h]
  | headWithExtrinsic => simp only [prog, apply, Prog.run_bind, Prog.run_pure, headProg_run h]

end Call

section Names

variable {p}

theorem Named.foldl_remove {st : Store} (h : Named st) (address : String)
    (path : String → Option FileName) (hashes : List String) :
    Named (hashes.foldl (fun st hash =>
      match path hash with
      | none => st
      | some name => Journal.updateDir p st address (fun dir => dir.remove name)) st) := by
  induction hashes generalizing st with
  | nil => exact h
  | cons hash hashes ih =>
    rw [List.foldl_cons]
    cases path hash with
    | none => exact ih h
    | some name => exact ih (h.updateDir address _ (fun _ hdir => nodup_remove hdir name))

theorem Named.cascadeDrop {st : Store} (h : Named st) (address startHash : String) :
    Named (cascadeDrop p st address startHash).1 := by
  unfold Journal.cascadeDrop
  simp only
  split
  · exact h.foldl_remove address _ _
  · exact h

theorem Named.appendPending {st : Store} (h : Named st) (nanos : ℕ) (address : String)
    (ext : Hash32) (dependsOn : Option Hash32) (state : Bytes) :
    Named (appendPending p nanos st address ext dependsOn state).1 := by
  have hmarked := h.ensureAddressMarker (p := p) address
  unfold Journal.appendPending
  generalize Journal.ensureAddressMarker p st address = marked at hmarked ⊢
  obtain ⟨st, e | u⟩ := marked
  · exact hmarked
  · simp only
    split
    · exact hmarked
    · split
      · exact hmarked
      · split
        · exact hmarked
        · exact hmarked.updateDir address _ (fun _ hdir => nodup_write hdir _ _)

theorem Named.confirm {st : Store} (h : Named st) (address : String) (ext : Hash32)
    (blockHeight : Option ℕ) (blockHash : Hash32) :
    Named (confirm p st address ext blockHeight blockHash).1 := by
  have hwrite : ∀ name snap, Named (Journal.updateDir p st address (fun dir => dir.write name snap)) :=
    fun name snap => h.updateDir address _ (fun _ hdir => nodup_write hdir name snap)
  unfold Journal.confirm
  split
  · exact h
  · split
    · exact h
    · split
      · split
        · exact h
        · split
          · exact hwrite _ _
          · exact h
      · exact hwrite _ _

/-- The calls that may run beside another one keep a directory's names apart. -/
theorem Named.apply {st : Store} (h : Named st) (codec : Codec) (address : String) (c : Call)
    (hc : c.locks = true ∨ c = .headWithExtrinsic) : Named (c.apply p codec address st).1 := by
  cases c with
  | appendPending nanos ext dependsOn state => exact h.appendPending nanos address ext dependsOn state
  | confirm ext blockHeight blockHash => exact h.confirm address ext blockHeight blockHash
  | markFailed ext => exact h.cascadeDrop address ext.hex
  | rollbackFrom ext => exact h.cascadeDrop address ext.hex
  | forget => simp [Call.locks] at hc
  | importPrivateStates clock data opts => simp [Call.locks] at hc
  | headWithExtrinsic => exact h

end Names

section Reading

variable {p}

/-- What the head call makes of the files. -/
def headOf (fs : Files) : Outcome (Option (Bytes × Hash32)) :=
  match findLeaf (fs.map Prod.snd) with
  | .error e => .error e
  | .ok none => .ok none
  | .ok (some snap) =>
    match parseHash snap.extrinsicHash with
    | .error e => .error e
    | .ok ext => .ok (some (snap.data, ext))

theorem headProg_eq (address : String) :
    headProg p address = readJsonDir p address >>= fun fs => pure (headOf fs) := by
  unfold headProg
  refine congrArg (fun f => readJsonDir p address >>= f) (funext fun fs => ?_)
  unfold headOf
  cases findLeaf (fs.map Prod.snd) with
  | error e => rfl
  | ok head =>
    cases head with
    | none => rfl
    | some snap =>
      simp only
      cases parseHash snap.extrinsicHash <;> rfl

theorem headWithExtrinsic_eq_headOf (st : Store) (address : String) :
    headWithExtrinsic p st address = headOf (inOrder (files p st address)) := by
  rw [inOrder_files]
  rfl

theorem FileName.le_total (a b : FileName) : (a.le b || b.le a) = true := by
  have h := String.le_total a.extrinsicHash b.extrinsicHash
  simp only [FileName.le, Bool.or_eq_true, decide_eq_true_eq]
  rcases lt_trichotomy a.nanos b.nanos with hlt | heq | hgt
  · exact Or.inl (Or.inl hlt)
  · exact h.imp (fun hle => Or.inr ⟨heq, hle⟩) (fun hle => Or.inr ⟨heq.symm, hle⟩)
  · exact Or.inr (Or.inl hgt)

theorem FileName.le_trans (a b c : FileName) (hab : a.le b = true) (hbc : b.le c = true) :
    a.le c = true := by
  simp only [FileName.le, decide_eq_true_eq] at hab hbc ⊢
  rcases hab with hab | ⟨hab, hab'⟩
  · exact Or.inl (by omega)
  · rcases hbc with hbc | ⟨hbc, hbc'⟩
    · exact Or.inl (by omega)
    · exact Or.inr ⟨hab.trans hbc, String.le_trans hab' hbc'⟩

theorem FileName.le_antisymm (a b : FileName) (hab : a.le b = true) (hba : b.le a = true) :
    a = b := by
  obtain ⟨an, ah⟩ := a
  obtain ⟨bn, bh⟩ := b
  simp only [FileName.le, decide_eq_true_eq] at hab hba
  have hnanos : an = bn := by omega
  subst hnanos
  have hhash : ah = bh := String.le_antisymm (by simpa using hab) (by simpa using hba)
  rw [hhash]

/-- The order of the names settles the order of the files. -/
theorem inOrder_perm {fs fs' : Files} (hnodup : (fs.map Prod.fst).Nodup) (h : fs.Perm fs') :
    inOrder fs = inOrder fs' := by
  have hsorted : ∀ fs : Files, (inOrder fs).Pairwise (fun a b => a.1.le b.1 = true) := fun fs =>
    List.pairwise_mergeSort (fun a b c => FileName.le_trans a.1 b.1 c.1)
      (fun a b => FileName.le_total a.1 b.1) fs
  have hperm : ∀ fs : Files, (inOrder fs).Perm fs := fun fs => List.mergeSort_perm _ _
  refine List.Perm.eq_of_pairwise ?_ (hsorted fs) (hsorted fs')
    ((hperm fs).trans (h.trans (hperm fs').symm))
  intro a b ha hb hab hba
  have ha' : a ∈ fs := (hperm fs).mem_iff.mp ha
  have hb' : b ∈ fs := h.mem_iff.mpr ((hperm fs').mem_iff.mp hb)
  exact List.inj_on_of_nodup_map hnodup ha' hb' (FileName.le_antisymm a.1 b.1 hab hba)

/-- Only the file of one name differs. -/
def DifferAt (name : FileName) (fs fs' : Files) : Prop :=
  fs.filter (fun f => decide (f.1 ≠ name)) = fs'.filter (fun f => decide (f.1 ≠ name))

theorem DifferAt.mem {name : FileName} {fs fs' : Files} (h : DifferAt name fs fs')
    {f : FileName × Snapshot} (hf : f.1 ≠ name) : f ∈ fs ↔ f ∈ fs' := by
  have hfs : f ∈ fs ↔ f ∈ fs.filter (fun f => decide (f.1 ≠ name)) := by simp [hf]
  have hfs' : f ∈ fs' ↔ f ∈ fs'.filter (fun f => decide (f.1 ≠ name)) := by simp [hf]
  rw [hfs, hfs', h]

theorem DifferAt.readIn {name : FileName} {fs fs' : Files} (h : DifferAt name fs fs')
    (hfs : (fs.map Prod.fst).Nodup) (hfs' : (fs'.map Prod.fst).Nodup) {other : FileName}
    (hne : other ≠ name) : readIn fs other = readIn fs' other := by
  cases hread : Journal.readIn fs other with
  | some snap =>
    have hmem := (h.mem (f := (other, snap)) hne).mp (mem_of_readIn hread)
    exact (readIn_of_mem hfs' hmem).symm
  | none =>
    cases hread' : Journal.readIn fs' other with
    | none => rfl
    | some snap =>
      have hmem := (h.mem (f := (other, snap)) hne).mpr (mem_of_readIn hread')
      rw [readIn_of_mem hfs hmem] at hread
      cases hread

theorem DifferAt.pick {name : FileName} {fs fs' : Files} (h : DifferAt name fs fs')
    (hfs : (fs.map Prod.fst).Nodup) (hfs' : (fs'.map Prod.fst).Nodup) {names : List FileName}
    (hnames : name ∉ names) : pick fs names = pick fs' names := by
  refine List.filterMap_congr ?_
  intro other hother
  rw [h.readIn hfs hfs' (fun heq => hnames (heq ▸ hother))]

theorem mem_pick {fs : Files} (hfs : (fs.map Prod.fst).Nodup) (names : List FileName)
    (f : FileName × Snapshot) : f ∈ pick fs names ↔ f ∈ fs ∧ f.1 ∈ names := by
  unfold pick
  rw [List.mem_filterMap]
  constructor
  · rintro ⟨name, hname, hread⟩
    obtain ⟨snap, hsnap, rfl⟩ := Option.map_eq_some_iff.mp hread
    exact ⟨mem_of_readIn hsnap, hname⟩
  · rintro ⟨hf, hname⟩
    exact ⟨f.1, hname, by rw [readIn_of_mem hfs hf]; rfl⟩

theorem nodup_pick (fs : Files) {names : List FileName} (hnames : names.Nodup) :
    (pick fs names).Nodup := by
  refine hnames.filterMap ?_
  intro a b f ha hb
  obtain ⟨_, -, rfl⟩ := Option.map_eq_some_iff.mp ha
  obtain ⟨_, -, hb⟩ := Option.map_eq_some_iff.mp hb
  exact (congrArg Prod.fst hb).symm

/-- Files that were listed before the change and read after it. -/
theorem inOrder_pick {name : FileName} {fs fs' : Files} (h : DifferAt name fs fs')
    (hfs : (fs.map Prod.fst).Nodup) (hfs' : (fs'.map Prod.fst).Nodup) :
    inOrder (pick fs' (fs.map Prod.fst)) = inOrder fs ∨
      inOrder (pick fs' (fs.map Prod.fst)) = inOrder fs' := by
  by_cases hname : name ∈ fs.map Prod.fst
  · right
    refine (inOrder_perm hfs' ?_).symm
    refine (List.perm_ext_iff_of_nodup (List.Nodup.of_map _ hfs') (nodup_pick fs' hfs)).mpr ?_
    intro f
    rw [mem_pick hfs']
    refine ⟨fun hf => ⟨hf, ?_⟩, fun hf => hf.1⟩
    by_cases heq : f.1 = name
    · rw [heq]
      exact hname
    · exact List.mem_map_of_mem ((h.mem heq).mpr hf)
  · left
    rw [← h.pick hfs hfs' hname, pick_all hfs]

theorem sees_readFiles {address : String} {fs : Files} {names : List FileName} {r : Files}
    (h : Prog.Sees (fun st => files p st address = fs) (readFiles p address names) r) :
    r = pick fs names := by
  induction names generalizing r with
  | nil =>
    cases h with
    | done => rfl
  | cons name names ih =>
    cases h with
    | step s hs h =>
      obtain ⟨rest, hrest, rfl⟩ := Prog.Sees.of_bind_done h
      simp only [ih hrest, readFile_eq, hs, pick_cons]

theorem reads_readFiles {address : String} {name : FileName} {fs fs' : Files}
    (hdiffer : DifferAt name fs fs') (hfs : (fs.map Prod.fst).Nodup)
    (hfs' : (fs'.map Prod.fst).Nodup) {names : List FileName} (hnames : names.Nodup) {r : Files}
    (h : Prog.Reads (fun st => files p st address = fs) (fun st => files p st address = fs')
      (readFiles p address names) r) : r = pick fs names ∨ r = pick fs' names := by
  induction names generalizing r with
  | nil => exact Or.inl (by
      cases h with
      | late h =>
        cases h with
        | done => rfl)
  | cons other names ih =>
    obtain ⟨hother, hnames⟩ := List.nodup_cons.mp hnames
    cases h with
    | late h => exact Or.inr (sees_readFiles h)
    | early s hs h =>
      obtain ⟨rest, hrest, rfl⟩ := Prog.Reads.of_bind_done h
      simp only [readFile_eq, hs, pick_cons]
      have hrest' := ih hnames hrest
      by_cases hname : other = name
      · -- The rest names other files only, so it reads alike.
        subst hname
        rw [← hdiffer.pick hfs hfs' hother, or_self] at hrest'
        exact Or.inl (by rw [hrest'])
      · rw [← hdiffer.readIn hfs hfs' hname]
        rcases hrest' with rfl | rfl
        · exact Or.inl rfl
        · exact Or.inr rfl

/-- A read of the directory beside a change of one file sees it before or after
the change. -/
theorem reads_readJsonDir {address : String} {name : FileName} {fs fs' : Files}
    (hdiffer : DifferAt name fs fs') (hfs : (fs.map Prod.fst).Nodup)
    (hfs' : (fs'.map Prod.fst).Nodup) {r : Files}
    (h : Prog.Reads (fun st => files p st address = fs) (fun st => files p st address = fs')
      (readJsonDir p address) r) : r = inOrder fs ∨ r = inOrder fs' := by
  cases h with
  | late h =>
    cases h with
    | step s hs h =>
      obtain ⟨r, hr, rfl⟩ := Prog.Sees.of_bind_done h
      have hpick := sees_readFiles hr
      simp only [hs, pick_all hfs'] at hpick
      exact Or.inr (congrArg inOrder hpick)
  | early s hs h =>
    obtain ⟨r, hr, rfl⟩ := Prog.Reads.of_bind_done h
    simp only [hs] at hr
    rcases reads_readFiles hdiffer hfs hfs' hfs hr with rfl | rfl
    · exact Or.inl (by rw [pick_all hfs])
    · exact inOrder_pick hdiffer hfs hfs'

theorem reads_headProg {address : String} {name : FileName} {fs fs' : Files}
    (hdiffer : DifferAt name fs fs') (hfs : (fs.map Prod.fst).Nodup)
    (hfs' : (fs'.map Prod.fst).Nodup) {r : Outcome (Option (Bytes × Hash32))}
    (h : Prog.Reads (fun st => files p st address = fs) (fun st => files p st address = fs')
      (headProg p address) r) : r = headOf (inOrder fs) ∨ r = headOf (inOrder fs') := by
  rw [headProg_eq] at h
  obtain ⟨read, hread, rfl⟩ := Prog.Reads.of_bind_done h
  rcases reads_readJsonDir hdiffer hfs hfs' hread with rfl | rfl
  · exact Or.inl rfl
  · exact Or.inr rfl

theorem readFiles_readOnly (address : String) (names : List FileName) :
    (readFiles p address names).ReadOnly := by
  induction names with
  | nil => trivial
  | cons name names ih => exact ⟨rfl, fun _ => ih.bind (fun _ => trivial)⟩

theorem readJsonDir_readOnly (address : String) : (readJsonDir p address).ReadOnly :=
  ⟨rfl, fun _ => (readFiles_readOnly address _).bind (fun _ => trivial)⟩

theorem headProg_readOnly (address : String) : (headProg p address).ReadOnly := by
  rw [headProg_eq]
  exact (readJsonDir_readOnly address).bind (fun _ => trivial)

end Reading

section Brief

variable {p} {address : String}

/-- From this store on, the program changes one snapshot file in one step, or
none. -/
def Brief (p : Provider) (address : String) {α : Type} (c : Prog Store α) (st : Store) : Prop :=
  ∃ name, DifferAt name (files p st address) (files p (c.run st).1 address) ∧
    c.Switches (fun s => files p s address = files p st address)
      (fun s => files p s address = files p (c.run st).1 address) st

/-- The program leaves the journal as it is. -/
def Leaves (p : Provider) (address : String) {α : Type} (c : Prog Store α) (st : Store) : Prop :=
  c.Settles (fun s => files p s address = files p st address) st

theorem Leaves.brief {α : Type} {c : Prog Store α} {st : Store} (h : Leaves p address c st) :
    Brief p address c st :=
  ⟨FileName.blank, congrArg _ (Prog.Settles.final h).symm, Prog.Settles.switches h⟩

theorem leaves_of_readOnly {α : Type} {c : Prog Store α} (h : c.ReadOnly) (st : Store) :
    Leaves p address c st := h.settles rfl

theorem leaves_done {α : Type} (a : α) (st : Store) : Leaves p address (pure a) st := rfl

theorem Leaves.bind {α β : Type} {c : Prog Store α} {f : α → Prog Store β} {st : Store}
    (h : Leaves p address c st) (hf : Brief p address (f (c.run st).2) (c.run st).1) :
    Brief p address (c >>= f) st := by
  obtain ⟨name, hdiffer, hswitch⟩ := hf
  have hfinal : files p (c.run st).1 address = files p st address := Prog.Settles.final h
  rw [hfinal] at hdiffer hswitch
  refine ⟨name, ?_, ?_⟩
  · rw [Prog.run_bind]
    exact hdiffer
  · rw [Prog.run_bind]
    exact Prog.Settles.bind_switches h hswitch

theorem Brief.bind_done {α β : Type} {c : Prog Store α} {f : α → Prog Store β} {b : β} {st : Store}
    (h : Brief p address c st) (hf : f (c.run st).2 = .done b) : Brief p address (c >>= f) st := by
  obtain ⟨name, hdiffer, hswitch⟩ := h
  have hrun : ((c >>= f).run st).1 = (c.run st).1 := by
    rw [Prog.run_bind, hf]
    rfl
  unfold Brief
  rw [hrun]
  exact ⟨name, hdiffer, hswitch.bind_done hf⟩

theorem files_create (st : Store) :
    files p (Function.update st (p.hashedName address)
      (some ((st (p.hashedName address)).getD Dir.empty))) address = files p st address := by
  rw [files_update_same]
  unfold files
  cases st (p.hashedName address) <;> rfl

theorem leaves_createPrivateDir (st : Store) : Leaves p address (createPrivateDir p address) st :=
  ⟨rfl, files_create st⟩

theorem leaves_markerProg (st : Store) : Leaves p address (markerProg p address) st := by
  refine Prog.Settles.bind (leaves_createPrivateDir st) ⟨files_create st, ?_⟩
  simp only [Prog.bind, createPrivateDir_run, id_eq]
  cases hmarker : (Function.update st (p.hashedName address)
      (some ((st (p.hashedName address)).getD Dir.empty)) (p.hashedName address)).bind
        Dir.marker with
  | some existing =>
    simp only
    split <;> exact files_create st
  | none =>
    refine ⟨files_create st, ?_⟩
    change files p (updateDir p _ address _) address = _
    unfold updateDir
    rw [Function.update_self, Option.map_some, Function.update_idem, files_update_same]
    unfold files
    cases st (p.hashedName address) <;> rfl

theorem differAt_write (st : Store) (name : FileName) (snap : Snapshot) :
    DifferAt name (files p st address)
      (files p (updateDir p st address (fun dir => dir.write name snap)) address) := by
  unfold DifferAt files updateDir
  rw [Function.update_self]
  cases st (p.hashedName address) with
  | none => rfl
  | some dir => simp [Dir.write, List.filter_filter]

theorem brief_writeJsonAtomic {st : Store} (hdir : (st (p.hashedName address)).isSome = true)
    (name : FileName) (snap : Snapshot) :
    Brief p address (writeJsonAtomic p address name snap) st := by
  have hrun := writeJsonAtomic_run address hdir name snap
  obtain ⟨dir, hsome⟩ := Option.isSome_iff_exists.mp hdir
  have hsame : Function.update st (p.hashedName address)
      (some ((st (p.hashedName address)).getD Dir.empty)) = st := by
    rw [hsome, Option.getD_some, ← hsome]
    exact Function.update_eq_self _ _
  unfold Brief
  rw [hrun]
  refine ⟨name, differAt_write st name snap, ?_⟩
  refine Prog.Settles.bind_switches (leaves_createPrivateDir st) ?_
  rw [createPrivateDir_run, hsame]
  exact ⟨rfl, Or.inr rfl⟩

theorem brief_appendProg {st : Store} (h : Named st) (nanos : ℕ) (ext : Hash32)
    (dependsOn : Option Hash32) (state : Bytes) :
    Brief p address (appendProg p nanos address ext dependsOn state) st := by
  have hnamed := h.ensureAddressMarker (p := p) address
  have hdir := ensureAddressMarker_isSome (p := p) st address
  refine (leaves_markerProg st).bind ?_
  rw [markerProg_run]
  generalize ensureAddressMarker p st address = marked at hnamed hdir ⊢
  obtain ⟨st, e | u⟩ := marked
  · exact (leaves_done _ st).brief
  · refine (leaves_of_readOnly (readJsonDir_readOnly address) st).bind ?_
    rw [readJsonDir_run hnamed]
    simp only
    split
    · exact (leaves_done _ st).brief
    · refine (leaves_of_readOnly (readJsonDir_readOnly address) st).bind ?_
      rw [readJsonDir_run hnamed]
      simp only
      split
      · exact (leaves_done _ st).brief
      · split
        · exact (leaves_done _ st).brief
        · refine (brief_writeJsonAtomic hdir _ _).bind_done (b := .ok ()) ?_
          rw [writeJsonAtomic_run address hdir]
          rfl

theorem brief_confirmProg {st : Store} (h : Named st) (ext : Hash32) (blockHeight : Option ℕ)
    (blockHash : Hash32) : Brief p address (confirmProg p address ext blockHeight blockHash) st := by
  refine (leaves_of_readOnly (readJsonDir_readOnly address) st).bind ?_
  rw [readJsonDir_run h]
  simp only
  split
  · exact (leaves_done _ st).brief
  · rename_i path hpath
    have hread : (readFile p address path).ReadOnly := ⟨rfl, fun _ => trivial⟩
    refine (leaves_of_readOnly hread st).bind ?_
    rw [readFile_run]
    cases hdir : st (p.hashedName address) with
    | none => exact (leaves_done _ st).brief
    | some dir =>
      have hsome : (st (p.hashedName address)).isSome = true := by rw [hdir]; rfl
      simp only [Option.bind_some]
      cases dir.read path with
      | none => exact (leaves_done _ st).brief
      | some snap =>
        simp only
        split
        · split
          · exact (leaves_done _ st).brief
          · split
            · exact brief_writeJsonAtomic hsome _ _
            · exact (leaves_done _ st).brief
        · exact brief_writeJsonAtomic hsome _ _

theorem brief_removeFile (st : Store) (name : FileName) :
    Brief p address (removeFile p address name) st := by
  refine ⟨name, ?_, rfl, Or.inr rfl⟩
  change DifferAt name _ (files p (updateDir p st address (fun dir => dir.remove name)) address)
  unfold DifferAt
  rw [files_remove, List.filter_filter]
  simp

/-- Nothing depends on the hash, so a walk from it ends there. -/
theorem walkChildren_leaf {snaps : List Snapshot} {hash : String}
    (h : ∀ s ∈ snaps, s.dependsOn ≠ some hash) : walkChildren snaps [hash] = [hash] := by
  have hchildren : childrenOf snaps hash = [] := by
    have hnone : snaps.filter (fun s => decide (s.dependsOn = some hash)) = [] :=
      List.filter_eq_nil_iff.mpr (fun s hs => by simpa using h s hs)
    simp [childrenOf, hnone]
  have hfuel : [hash].length + snaps.length = snaps.length + 1 := by
    simp only [List.length_singleton]
    omega
  unfold walkChildren Chains.reach
  rw [hfuel]
  simp only [Chains.walk, hchildren, List.not_mem_nil, if_false, List.append_nil]
  cases snaps.length <;> rfl

/-- A rollback of a snapshot that nothing depends on removes one file. -/
theorem brief_cascadeProg {st : Store} (h : Named st) {hash : String}
    (hleaf : ∀ s ∈ snapshots p st address, s.dependsOn ≠ some hash) :
    Brief p address (cascadeProg p address hash) st := by
  refine (leaves_of_readOnly (readJsonDir_readOnly address) st).bind ?_
  rw [readJsonDir_run h]
  simp only
  split
  · have hdoomed : walkChildren ((loadSnapshots p st address).map Prod.snd) [hash] = [hash] :=
      walkChildren_leaf hleaf
    rw [hdoomed]
    refine Brief.bind_done (b := .ok ()) ?_ rfl
    simp only [List.reverse_singleton, removeFiles]
    split
    · exact (leaves_done _ st).brief
    · exact (brief_removeFile st _).bind_done rfl
  · exact (leaves_done _ st).brief

end Brief

/-- The payload does not open, or its entries are refused before any journal is read. -/
def RefusedPayload (codec : Codec) (data : EncryptedExport) (opts : ImportOptions) : Prop :=
  ∀ entries, openExport codec formatStates data opts = .ok entries →
    entries.forM validateEntry = .ok () → rejectDuplicates [] entries ≠ .ok ()

variable {p} in
theorem importProg_refused {codec : Codec} {data : EncryptedExport} {opts : ImportOptions}
    (clock : ℕ → ℕ) (h : RefusedPayload codec data opts) :
    ∃ e, importProg p codec clock data opts = pure (.error e) ∧
      ∀ st, importPrivateStates p codec clock st data opts = (st, .error e) := by
  unfold importProg importPrivateStates
  cases hopen : openExport codec formatStates data opts with
  | error e => exact ⟨e, rfl, fun st => rfl⟩
  | ok entries =>
    simp only [applyImportEntries]
    cases hvalid : entries.forM validateEntry with
    | error e => exact ⟨e, rfl, fun st => rfl⟩
    | ok u =>
      cases hdup : rejectDuplicates [] entries with
      | error e => exact ⟨e, rfl, fun st => rfl⟩
      | ok u' => exact absurd hdup (h entries hopen hvalid)

namespace Call

/-- Whether the call changes at most one snapshot file. -/
def ChangesOne (address : String) (st : Store) : Call → Prop
  | .appendPending _ _ _ _ => True
  | .confirm _ _ _ => True
  | .markFailed ext => ∀ s ∈ snapshots p st address, s.dependsOn ≠ some ext.hex
  | .rollbackFrom ext => ∀ s ∈ snapshots p st address, s.dependsOn ≠ some ext.hex
  | .forget => False
  | .importPrivateStates _ _ _ => False
  | .headWithExtrinsic => True

/-- Whether the call is an import that its payload alone refuses. -/
def Refused (codec : Codec) : Call → Prop
  | .importPrivateStates _ data opts => RefusedPayload codec data opts
  | _ => False

/-- Both calls hold the lock, or the one reads the head and the other changes at
most one snapshot file, or the one is refused before it reads a journal. -/
def Compatible (codec : Codec) (address : String) (st : Store) (a b : Call) : Prop :=
  (a.locks = true ∧ b.locks = true) ∨
    (b = .headWithExtrinsic ∧ a.ChangesOne p address st) ∨
    (a = .headWithExtrinsic ∧ b.ChangesOne p address st) ∨
    a.Refused codec ∨ b.Refused codec

/-- Every address that the call names has no surrounding whitespace. -/
def Addressed (codec : Codec) (address : String) : Call → Prop
  | .importPrivateStates clock data opts => (Op.importPrivateStates clock data opts).Addressed codec
  | _ => Trimmed address

/-- One call and then the other. -/
def InTurn (codec : Codec) (address : String) (first second : Call) (st st' : Store)
    (r s : Answer) : Prop :=
  r = (first.apply p codec address st).2 ∧
    second.apply p codec address (first.apply p codec address st).1 = (st', s)

variable {p}

theorem ChangesOne.brief (codec : Codec) {address : String} {st : Store} (h : Named st) {c : Call}
    (hc : c.ChangesOne p address st) : Brief p address (c.prog p codec address) st := by
  cases c with
  | appendPending nanos ext dependsOn state =>
    exact (brief_appendProg h nanos ext dependsOn state).bind_done rfl
  | confirm ext blockHeight blockHash =>
    exact (brief_confirmProg h ext blockHeight blockHash).bind_done rfl
  | markFailed ext => exact (brief_cascadeProg h hc).bind_done rfl
  | rollbackFrom ext => exact (brief_cascadeProg h hc).bind_done rfl
  | forget => exact hc.elim
  | importPrivateStates clock data opts => exact hc.elim
  | headWithExtrinsic =>
    exact (leaves_of_readOnly (headProg_readOnly address) st).brief.bind_done rfl

theorem ChangesOne.locks_or {address : String} {st : Store} {c : Call}
    (hc : c.ChangesOne p address st) : c.locks = true ∨ c = .headWithExtrinsic := by
  cases c with
  | forget => exact hc.elim
  | importPrivateStates clock data opts => exact hc.elim
  | headWithExtrinsic => exact Or.inr rfl
  | _ => exact Or.inl rfl

/-- A read of the head beside a call that changes one file comes before or
after it. -/
theorem head_inTurn (codec : Codec) (address : String) {st st' : Store} (h : Named st) (c : Call)
    (hc : c.ChangesOne p address st) (schedule : List Bool) (l r : Bool) (x y : Answer)
    (hrun : Config.run ⟨st, c.start p codec address, start p codec address .headWithExtrinsic⟩
      schedule = ⟨st', ⟨l, .finished x⟩, ⟨r, .finished y⟩⟩) :
    InTurn p codec address c .headWithExtrinsic st st' x y ∨
      InTurn p codec address .headWithExtrinsic c st st' y x := by
  obtain ⟨name, hdiffer, hswitch⟩ := hc.brief codec h
  have hread : (prog p codec address .headWithExtrinsic).ReadOnly :=
    (headProg_readOnly address).bind (fun _ => trivial)
  obtain ⟨halone, hreads⟩ := reader_beside hread hswitch _ _ schedule l r y x hrun
  have happly : c.apply p codec address st = (st', x) := (prog_run p codec address h c) ▸ halone
  have hnamed : Named st' := by
    have happlied := h.apply (p := p) codec address c hc.locks_or
    rwa [happly] at happlied
  rw [halone] at hdiffer hreads
  obtain ⟨head, hhead, rfl⟩ := Prog.Reads.of_bind_done hreads
  rcases reads_headProg hdiffer (h.files address) (hnamed.files address) hhead with rfl | rfl
  · refine Or.inr ⟨?_, happly⟩
    rw [← headWithExtrinsic_eq_headOf]
    rfl
  · refine Or.inl ⟨by rw [happly], ?_⟩
    rw [happly, ← headWithExtrinsic_eq_headOf]
    rfl

theorem Refused.idles {codec : Codec} {c : Call} (h : c.Refused codec) (address : String) :
    c.locks = false ∧ ∃ x, c.prog p codec address = .done x ∧
      ∀ st, c.apply p codec address st = (st, x) := by
  cases c with
  | importPrivateStates clock data opts =>
    obtain ⟨e, hprog, hrun⟩ := importProg_refused (p := p) clock h
    refine ⟨rfl, .imported (.error e), ?_, fun st => ?_⟩
    · simp only [prog, hprog]
      rfl
    · simp only [apply, hrun]
  | _ => exact h.elim

/-- A call beside one that is refused comes before it. -/
theorem refused_inTurn {codec : Codec} {address : String} {st st' : Store} (h : Named st)
    {a b : Call} (hb : b.Refused codec) (schedule : List Bool) (l r : Bool) (x y : Answer)
    (hrun : Config.run ⟨st, a.start p codec address, b.start p codec address⟩ schedule =
      ⟨st', ⟨l, .finished x⟩, ⟨r, .finished y⟩⟩) : InTurn p codec address a b st st' x y := by
  obtain ⟨hfree, z, hprog, happly⟩ := hb.idles (p := p) address
  unfold start at hrun
  rw [hprog, hfree] at hrun
  obtain ⟨halone, rfl⟩ := idle_beside z _ st' schedule l r y x hrun
  rw [prog_run p codec address h a] at halone
  exact ⟨by rw [halone], by rw [halone, happly]⟩

theorem inTurn_of_leftFirst {codec : Codec} {address : String} {st st' : Store} (h : Named st)
    {a b : Call} (ha : a.locks = true ∨ a = .headWithExtrinsic) {x y : Answer}
    (hfirst : LeftFirst (a.prog p codec address) (b.prog p codec address) st st' x y) :
    InTurn p codec address a b st st' x y := by
  obtain ⟨hx, hy⟩ := hfirst
  rw [prog_run p codec address h a] at hx hy
  rw [prog_run p codec address (h.apply codec address a ha) b] at hy
  exact ⟨(congrArg Prod.snd hx).symm, hy⟩

/-- Any interleaving of two compatible calls is one of the two serial orders. -/
theorem interleaving_inTurn (codec : Codec) (address : String) {st st' : Store} (h : Named st)
    (a b : Call) (hab : Compatible p codec address st a b) (schedule : List Bool) (l r : Bool)
    (x y : Answer)
    (hrun : Config.run ⟨st, a.start p codec address, b.start p codec address⟩ schedule =
      ⟨st', ⟨l, .finished x⟩, ⟨r, .finished y⟩⟩) :
    InTurn p codec address a b st st' x y ∨ InTurn p codec address b a st st' y x := by
  have hswap := Config.swap_run ⟨st, a.start p codec address, b.start p codec address⟩ schedule
  rw [hrun] at hswap
  rcases hab with ⟨ha, hb⟩ | ⟨rfl, ha⟩ | ⟨rfl, hb⟩ | ha | hb
  · unfold start at hrun
    rw [ha, hb] at hrun
    exact (locked_serial _ _ st st' schedule l r x y hrun).imp
      (inTurn_of_leftFirst h (Or.inl ha)) (inTurn_of_leftFirst h (Or.inl hb))
  · exact head_inTurn codec address h a ha schedule l r x y hrun
  · exact (head_inTurn codec address h b hb _ r l y x hswap.symm).symm
  · exact Or.inr (refused_inTurn h ha _ r l y x hswap.symm)
  · exact Or.inl (refused_inTurn h hb schedule l r x y hrun)

/-- The call as one of those that change the store. -/
theorem storeOk_apply {codec : Codec} {address : String} {st : Store} (h : StoreOk p st) {c : Call}
    (hc : c.Addressed codec address) : StoreOk p (c.apply p codec address st).1 := by
  cases c with
  | appendPending nanos ext dependsOn state =>
    exact (apply_preserves h codec (.appendPending nanos address ext dependsOn state) hc).ok
  | confirm ext blockHeight blockHash =>
    exact (apply_preserves h codec (.confirm address ext blockHeight blockHash) hc).ok
  | markFailed ext => exact (apply_preserves h codec (.markFailed address ext) hc).ok
  | rollbackFrom ext => exact (apply_preserves h codec (.rollbackFrom address ext) hc).ok
  | forget => exact (apply_preserves h codec (.forget address) hc).ok
  | importPrivateStates clock data opts =>
    exact (apply_preserves h codec (.importPrivateStates clock data opts) hc).ok
  | headWithExtrinsic => exact h

theorem storeOk_inTurn {codec : Codec} {address : String} {st st' : Store} (h : StoreOk p st)
    {a b : Call} (ha : a.Addressed codec address) (hb : b.Addressed codec address) {x y : Answer}
    (hturn : InTurn p codec address a b st st' x y) : StoreOk p st' := by
  have hok := storeOk_apply (storeOk_apply h ha) hb
  rw [hturn.2] at hok
  exact hok

/-- Two compatible calls at a time are serialisable, whatever the schedule: the
store and both answers are those of one of the two orders. So they leave a
journal that any calls built a single chain. -/
theorem calls_serialisable (p : Provider) (codec : Codec) (address : String) (st st' : Store)
    (h : Named st) (a b : Call) (hab : Compatible p codec address st a b) (schedule : List Bool)
    (l r : Bool) (x y : Answer)
    (hrun : Config.run ⟨st, a.start p codec address, b.start p codec address⟩ schedule =
      ⟨st', ⟨l, .finished x⟩, ⟨r, .finished y⟩⟩) :
    (InTurn p codec address a b st st' x y ∨ InTurn p codec address b a st st' y x) ∧
    ∀ ops, a.Addressed codec address → b.Addressed codec address →
        Run (Step p codec) Store.empty ops st →
      (∀ s ∈ snapshots p st' address, ∀ t ∈ snapshots p st' address,
        s.dependsOn = t.dependsOn → s = t) ∧
      ∀ s ∈ snapshots p st' address, ∀ parent, s.dependsOn = some parent →
        ∃ t ∈ snapshots p st' address, t.extrinsicHash = parent := by
  have hturn := interleaving_inTurn codec address h a b hab schedule l r x y hrun
  refine ⟨hturn, fun ops ha hb hops => ?_⟩
  have hok : StoreOk p st := run_storeOk codec hops StoreOk.empty
  have hok' : StoreOk p st' := hturn.elim (storeOk_inTurn hok ha hb) (storeOk_inTurn hok hb ha)
  obtain ⟨chain, hchain⟩ := hok'.isChain address
  obtain ⟨hroot, hchild, hpresent⟩ := isChain_shape hchain
  refine ⟨fun s hs t htt hparent => ?_, hpresent⟩
  cases hs' : s.dependsOn with
  | some parent => exact hchild s hs t htt parent hs' (hparent ▸ hs')
  | none =>
    have hne : snapshots p st' address ≠ [] := List.ne_nil_of_mem hs
    exact (hroot hne).unique ⟨hs, hs'⟩ ⟨htt, hparent ▸ hs'⟩

end Call

section Race

def sampleHash (byte : UInt8) : Hash32 := ⟨List.replicate 32 byte, by simp⟩

def sampleProvider : Provider := ⟨"states", id, Function.injective_id⟩

/-- Any export opens as one snapshot, a child of hash 1. -/
def sampleCodec : Codec where
  decrypt _ _ _ _ := .ok []
  decodeEntries _ := .ok [⟨"0200aa", pendingSnapshot (sampleHash 2) (some (sampleHash 1)) [2]⟩]

def sampleAppend (byte : UInt8) (parent : Option UInt8) : Call :=
  .appendPending byte.toNat (sampleHash byte) (parent.map sampleHash) [byte]

def sampleImport : Call :=
  .importPrivateStates (fun _ => 8) ⟨formatStates, "", ""⟩ ⟨"password", .error, 10⟩

def journalOfOne : Store :=
  (appendPending sampleProvider 1 Store.empty "0200aa" (sampleHash 1) none [1]).1

/-- The two calls, interleaved as the schedule says. -/
def race (st : Store) (a b : Call) (schedule : List Bool) : Config Store Answer Answer :=
  Config.run ⟨st, a.start sampleProvider sampleCodec "0200aa",
    b.start sampleProvider sampleCodec "0200aa"⟩ schedule

/-- The import reads the journal, the append runs whole, and the import writes:
both succeed, and the journal branches. -/
theorem import_branches_journal :
    let c := race journalOfOne (sampleAppend 3 (some 1)) sampleImport
      (List.replicate 4 false ++ List.replicate 20 true ++ List.replicate 20 false)
    c.left.phase.result = some (.done (.ok ())) ∧
      c.right.phase.result = some (.imported (.ok ⟨1, 0, 0⟩)) ∧
      (files sampleProvider c.state "0200aa").map (fun f => f.2.dependsOn) =
        [some (sampleHash 1).hex, some (sampleHash 1).hex, none] := by
  decide +kernel

/-- Two appends on an empty journal, which the lock puts in turn. -/
theorem calls_serialisable_appends :
    let c := race Store.empty (sampleAppend 2 none) (sampleAppend 3 none)
      (List.flatten (List.replicate 30 [true, false]))
    Call.InTurn sampleProvider sampleCodec "0200aa" (sampleAppend 2 none) (sampleAppend 3 none)
        Store.empty c.state (.done (.ok ()))
        (.done (.error (.journalConflict "0200aa" none (some (sampleHash 2).hex)))) ∨
      Call.InTurn sampleProvider sampleCodec "0200aa" (sampleAppend 3 none) (sampleAppend 2 none)
        Store.empty c.state
        (.done (.error (.journalConflict "0200aa" none (some (sampleHash 2).hex))))
        (.done (.ok ())) :=
  (Call.calls_serialisable sampleProvider sampleCodec "0200aa" Store.empty _
    (by simp [Named, Store.empty]) (sampleAppend 2 none) (sampleAppend 3 none)
    (Or.inl ⟨rfl, rfl⟩) (List.flatten (List.replicate 30 [true, false])) _ _ _ _
    (Config.eq_of_results (by decide +kernel) (by decide +kernel))).1

end Race

end MidnightRs.Journal
