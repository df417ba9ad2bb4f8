import MidnightRs.Exports
import MidnightRs.Rollbacks

/-!
The calls of the private-state store on a file system that may fail at every
operation. A write shows in a journal from its rename on, so a call that fails
leaves the journal as it was or as the call would have left it.
-/
namespace MidnightRs.JournalWrites

open Chains Faults
open Journal (Store Hash32 PrivateStateError Snapshot FileName Dir)

section Files

variable (js : Journal.Provider)

/-- A file operation of a store call, which ends the call if it fails. -/
def trying {α : Type} (effect : Store → Store) (what : String)
    (rest : Faulty Store String (Except PrivateStateError α)) :
    Faulty Store String (Except PrivateStateError α) :=
  .op effect whole (fun
    | .ok () => rest
    | .error e => .done (.error (.io s!"{what}: {e}")))

/-- A read, whose error names what was read. -/
def reading {α : Type} (rest : Faulty Store String (Except PrivateStateError α)) :
    Faulty Store String (Except PrivateStateError α) :=
  .op id whole (fun
    | .ok () => rest
    | .error e => .done (.error (.io e)))

def createPrivateDir (address : String) : Store → Store := fun st =>
  Function.update st (js.hashedName address) (some ((st (js.hashedName address)).getD Dir.empty))

/-- Writes a `tmp` sibling, renames it into place and syncs the directory. Only the
rename shows in a journal. -/
def writeAtomic (address tmp path : String) (effect : Dir → Dir) :
    Faulty Store String (Except PrivateStateError Unit) :=
  trying id s!"write {js.addressDir address}/{tmp}" <|
  trying (fun st => Journal.updateDir js st address effect)
    s!"rename into {js.addressDir address}/{path}" <|
  trying id s!"sync {js.addressDir address}" <|
  .done (.ok ())

def writeJsonAtomic (address : String) (name : FileName) (snap : Snapshot) :
    Faulty Store String (Except PrivateStateError Unit) :=
  trying (createPrivateDir js address) s!"create dir {js.addressDir address}" <|
  writeAtomic js address name.tmp name.json (fun dir => dir.write name snap)

def ensureAddressMarker (st : Store) (address : String) :
    Faulty Store String (Except PrivateStateError Unit) :=
  trying (createPrivateDir js address) s!"create dir {js.addressDir address}" <|
  reading <|
    match ((st (js.hashedName address)).getD Dir.empty).marker with
    | some existing =>
      if Journal.trim existing ≠ address then
        .done (.error (.invalidFormat s!"address marker at {js.addressDir address}/address.txt holds {(Journal.trim existing).quote} but caller passed {address.quote}; the per-address directory does not match the address it was created for. Resolve by deleting the directory or repairing the marker."))
      else .done (.ok ())
    | none => writeAtomic js address "address.tmp" "address.txt"
        (fun dir => { dir with marker := some address })

/-- What the call reads is what `st` holds: the marker changes no journal. A failed
write takes its snapshot away again, if it can. -/
def appendPending (nanos : ℕ) (st : Store) (address : String) (ext : Hash32)
    (dependsOn : Option Hash32) (state : Bytes) :
    Faulty Store String (Except PrivateStateError Unit) := do
  match ← ensureAddressMarker js st address with
  | .error e => .done (.error e)
  | .ok () =>
    reading <|
      match Journal.appendCheck js st address ext dependsOn with
      | .error e => .done (.error e)
      | .ok () => do
        match ← writeJsonAtomic js address ⟨nanos, ext.hex⟩
            (Journal.pendingSnapshot ext dependsOn state) with
        | .ok () => .done (.ok ())
        | .error e =>
          .op (fun st => Journal.updateDir js st address (fun dir => dir.remove ⟨nanos, ext.hex⟩))
            whole (fun _ => .done (.error e))

def confirm (st : Store) (address : String) (ext : Hash32) (blockHeight : Option ℕ)
    (blockHash : Hash32) : Faulty Store String (Except PrivateStateError Unit) :=
  reading <|
    match Journal.findSnapshotPath js st address ext.hex with
    | none => .done (.error (.snapshotNotFound address ext.hex))
    | some path =>
      match (st (js.hashedName address)).bind (fun dir => dir.read path) with
      | none => .done (.error (.io s!"snapshot disappeared at {js.addressDir address}"))
      | some snap =>
        if snap.status = .confirmed then
          if snap.blockHash ≠ some blockHash.hex then
            .done (.error (.invalidFormat s!"snapshot already confirmed with a different block; address={address}, extrinsic_hash={ext.hex}, existing=(height={Journal.debugOption (snap.blockHeight.map toString)}, hash={Journal.debugOption (snap.blockHash.map String.quote)}), requested=(height={Journal.debugOption (blockHeight.map toString)}, hash={blockHash.hex})"))
          else if snap.blockHeight.isNone && blockHeight.isSome then
            writeJsonAtomic js address path { snap with blockHeight := blockHeight }
          else .done (.ok ())
        else
          writeJsonAtomic js address path
            { snap with
              status := .confirmed, blockHeight := blockHeight, blockHash := some blockHash.hex }

def markFailed (st : Store) (address : String) (ext : Hash32) :
    Faulty Store String (Except PrivateStateError Unit) :=
  reading (Journal.cascadeDropOps js st address ext.hex)

def headWithExtrinsic (st : Store) (address : String) :
    Faulty Store String (Except PrivateStateError (Option (Bytes × Hash32))) :=
  reading (.done (Journal.headWithExtrinsic js st address))

variable {js}

theorem createPrivateDir_eq {st : Store} {address : String}
    (h : (st (js.hashedName address)).isSome = true) : createPrivateDir js address st = st := by
  obtain ⟨dir, hdir⟩ := Option.isSome_iff_exists.mp h
  unfold createPrivateDir
  rw [hdir, Option.getD_some, ← hdir, Function.update_eq_self]

/-- Without failures the operations do what the store's calls do. -/
theorem run_ensureAddressMarker (st : Store) (address : String) :
    (ensureAddressMarker js st address).run st = Journal.ensureAddressMarker js st address := by
  unfold ensureAddressMarker Journal.ensureAddressMarker
  simp only [trying, reading, Faulty.run, createPrivateDir, id]
  generalize (st (js.hashedName address)).getD Dir.empty = dir
  cases hmarker : dir.marker with
  | some existing =>
    by_cases htrim : Journal.trim existing = address
    · simp [htrim, Faulty.run]
    · simp [htrim, Faulty.run]
  | none => simp [writeAtomic, trying, Faulty.run, Journal.updateDir]

theorem run_writeJsonAtomic {st : Store} {address : String}
    (h : (st (js.hashedName address)).isSome = true) (name : FileName) (snap : Snapshot) :
    (writeJsonAtomic js address name snap).run st =
      (Journal.updateDir js st address (fun dir => dir.write name snap), .ok ()) := by
  show ((Journal.updateDir js (createPrivateDir js address st) address
    (fun dir => dir.write name snap)), _) = _
  rw [createPrivateDir_eq h]

theorem run_appendPending (nanos : ℕ) (st : Store) (address : String) (ext : Hash32)
    (dependsOn : Option Hash32) (state : Bytes) :
    (appendPending js nanos st address ext dependsOn state).run st =
      Journal.appendPending js nanos st address ext dependsOn state := by
  rw [Journal.appendPending_eq]
  unfold appendPending
  rw [Faulty.run_bind, run_ensureAddressMarker]
  have hsome := Journal.ensureAddressMarker_isSome (p := js) st address
  generalize Journal.ensureAddressMarker js st address = ensured at hsome ⊢
  obtain ⟨st', result⟩ := ensured
  cases result with
  | error e => rfl
  | ok _ =>
    simp only [reading, Faulty.run, id]
    cases Journal.appendCheck js st address ext dependsOn with
    | error e => rfl
    | ok _ =>
      simp only [Faulty.run_bind, run_writeJsonAtomic hsome]
      rfl

end Files

section Effects

variable {js : Journal.Provider} {st : Store} {address : String} {chain : List Snapshot}

/-- The journal of an address is one chain, newest first, under the names of its
snapshots. -/
structure JournalAt (js : Journal.Provider) (st : Store) (address : String)
    (chain : List Snapshot) : Prop where
  chainAt : Journal.ChainAt (p := js) st address chain
  named : ∀ f ∈ Journal.files js st address, f.1.extrinsicHash = f.2.extrinsicHash

theorem JournalAt.of_chain
    (hnamed : ∀ f ∈ Journal.files js st address, f.1.extrinsicHash = f.2.extrinsicHash)
    (h : IsChain Snapshot.links ((Journal.files js st address).map Prod.snd) chain) :
    JournalAt js st address chain :=
  ⟨.of_named hnamed h, hnamed⟩

theorem JournalAt.of_files_eq {st' : Store} (h : JournalAt js st address chain)
    (hfiles : Journal.files js st' address = Journal.files js st address) :
    JournalAt js st' address chain := by
  refine .of_chain ?_ ?_
  · rw [hfiles]
    exact h.named
  · rw [hfiles]
    exact h.chainAt.isChain

theorem files_createPrivateDir (js : Journal.Provider) (st : Store) (address : String) :
    Journal.files js (createPrivateDir js address st) address = Journal.files js st address := by
  unfold createPrivateDir
  rw [Journal.files_update_same]
  unfold Journal.files
  cases st (js.hashedName address) <;> rfl

theorem createPrivateDir_isSome (js : Journal.Provider) (st : Store) (address : String) :
    (createPrivateDir js address st (js.hashedName address)).isSome = true := by
  unfold createPrivateDir
  rw [Function.update_self]
  rfl

/-- A new snapshot on the head extends the chain. -/
theorem JournalAt.write_new {name : FileName} {snap : Snapshot} (h : JournalAt js st address chain)
    (hsome : (st (js.hashedName address)).isSome = true)
    (hname : name.extrinsicHash = snap.extrinsicHash)
    (hnew : ∀ f ∈ Journal.files js st address, Journal.HashOf f ≠ snap.extrinsicHash)
    (hparent : snap.dependsOn = chain.head?.map Snapshot.extrinsicHash) :
    JournalAt js (Journal.updateDir js st address (fun dir => dir.write name snap)) address
      (snap :: chain) := by
  have hfiles := Journal.files_write hsome name snap h.named
    ⟨hname, fun f hf hhash => absurd hhash (hnew f hf)⟩
  unfold Journal.putFile at hfiles
  rw [List.filter_eq_self.mpr fun f hf => decide_eq_true (hnew f hf)] at hfiles
  refine .of_chain ?_ ?_
  · rw [hfiles]
    intro f hf
    rcases List.mem_cons.mp hf with rfl | hf
    · exact hname
    · exact h.named f hf
  · rw [hfiles]
    refine ⟨h.chainAt.isChain.perm.cons snap, List.nodup_cons.mpr ⟨fun hmem => ?_,
      h.chainAt.isChain.nodup⟩, hparent, h.chainAt.isChain.linked⟩
    obtain ⟨t, ht, hkey⟩ := List.mem_map.mp hmem
    obtain ⟨f, hf, rfl⟩ := List.mem_map.mp (h.chainAt.isChain.perm.mem_iff.mp ht)
    exact hnew f hf hkey

/-- The newest snapshot rewritten in place, with its links kept. -/
theorem JournalAt.write_over {name : FileName} {s snap : Snapshot}
    (h : JournalAt js st address (s :: chain)) (hmem : (name, s) ∈ Journal.files js st address)
    (hhash : snap.extrinsicHash = s.extrinsicHash) (hparent : snap.dependsOn = s.dependsOn) :
    JournalAt js (Journal.updateDir js st address (fun dir => dir.write name snap)) address
      (snap :: chain) := by
  have htarget : Journal.Target (Journal.files js st address) name snap := by
    refine ⟨(h.named _ hmem).trans hhash.symm, fun f hf hfh => ?_⟩
    rw [Journal.eq_of_hash h.chainAt.hashes hf hmem (hfh.trans hhash)]
  have hfiles := Journal.files_write (Journal.isSome_of_mem_files hmem) name snap h.named htarget
  -- What stays is what a removal of the file leaves.
  have hrest := h.chainAt.remove hmem
  have hstay : Journal.files js (Journal.updateDir js st address (fun dir => dir.remove name))
      address = (Journal.files js st address).filter
        (fun f => decide (Journal.HashOf f ≠ snap.extrinsicHash)) := by
    rw [Journal.files_remove]
    refine List.filter_congr fun f hf => decide_eq_decide.mpr (not_congr ⟨fun hname => ?_,
      htarget.2 f hf⟩)
    rw [Journal.HashOf, ← h.named f hf, hname]
    exact htarget.1
  have hchain := hrest.isChain
  rw [hstay] at hchain
  refine .of_chain ?_ ?_
  · rw [hfiles]
    intro f hf
    rcases Journal.mem_putFile hf with rfl | ⟨hf, _⟩
    · exact htarget.1
    · exact h.named f hf
  · rw [hfiles]
    have hnodup := h.chainAt.isChain.nodup
    have hlinked := h.chainAt.isChain.linked
    refine ⟨hchain.perm.cons snap, ?_, ?_, hchain.linked⟩
    · rw [List.map_cons] at hnodup ⊢
      show (snap.extrinsicHash :: _).Nodup
      rw [hhash]
      exact hnodup
    · exact hparent.trans hlinked.1

theorem JournalAt.remove {name : FileName} {s : Snapshot}
    (h : JournalAt js st address (s :: chain)) (hmem : (name, s) ∈ Journal.files js st address) :
    JournalAt js (Journal.updateDir js st address (fun dir => dir.remove name)) address chain := by
  refine ⟨h.chainAt.remove hmem, fun f hf => h.named f ?_⟩
  rw [Journal.files_remove] at hf
  exact (List.mem_filter.mp hf).1

/-- The removal of a name that no snapshot of the chain goes by. -/
theorem JournalAt.remove_none {name : FileName} (h : JournalAt js st address chain)
    (hname : ∀ f ∈ Journal.files js st address, f.1 ≠ name) :
    JournalAt js (Journal.updateDir js st address (fun dir => dir.remove name)) address chain := by
  refine h.of_files_eq ?_
  rw [Journal.files_remove]
  exact List.filter_eq_self.mpr fun f hf => decide_eq_true (hname f hf)

theorem JournalAt.snapshots_eq (h : JournalAt js st address chain) :
    js.snapshots st address = chain.reverse := Journal.topoSort_eq h.chainAt.snapshots

theorem JournalAt.snapshots_cons {s : Snapshot} {st₀ : Store} (h₀ : JournalAt js st₀ address chain)
    (h : JournalAt js st address (s :: chain)) :
    js.snapshots st address = js.snapshots st₀ address ++ [s] := by
  rw [h.snapshots_eq, h₀.snapshots_eq, List.reverse_cons]

theorem JournalAt.newest (h : JournalAt js st address chain) :
    (js.snapshots st address).getLast? = chain.head? := by
  rw [h.snapshots_eq, List.getLast?_reverse]

/-- What a store call that aims at `done` may have left in the journal: `done` if it
reports no failure, else `before` or `done`. -/
def Leaves (js : Journal.Provider) (address : String) (before done : List Snapshot)
    (r : Except PrivateStateError Unit) (st : Store) : Prop :=
  match r with
  | .ok () => JournalAt js st address done
  | .error _ => JournalAt js st address before ∨ JournalAt js st address done

/-- What the store reported is what its call left. -/
theorem Leaves.told {before done : List Snapshot} {r : Except PrivateStateError Unit}
    {text : PrivateStateError → String} {stored : Except String Unit}
    (h : Leaves js address before done r st)
    (hstored : stored = r.mapError text) :
    (stored = .ok () → JournalAt js st address done) ∧
      (JournalAt js st address before ∨ JournalAt js st address done) := by
  cases r with
  | ok _ => exact ⟨fun _ => h, .inr h⟩
  | error e =>
    refine ⟨fun hok => ?_, h⟩
    rw [hstored] at hok
    cases hok

abbrev Ends {α : Type} (post : Except PrivateStateError α → Store → Prop)
    (f : Faulty Store String (Except PrivateStateError α)) (st : Store) : Prop :=
  Always (fun _ => True) post f st

theorem ends_done {α : Type} {post : Except PrivateStateError α → Store → Prop}
    {r : Except PrivateStateError α} (h : post r st) : Ends post (.done r) st := ⟨trivial, h⟩

theorem ends_trying {α : Type} {post : Except PrivateStateError α → Store → Prop}
    {effect : Store → Store} {what : String}
    {rest : Faulty Store String (Except PrivateStateError α)}
    (hok : Ends post rest (effect st)) (herror : ∀ e, post (.error e) st) :
    Ends post (trying effect what rest) st :=
  always_whole trivial hok fun _ => ends_done (herror _)

theorem ends_reading {α : Type} {post : Except PrivateStateError α → Store → Prop}
    {rest : Faulty Store String (Except PrivateStateError α)}
    (hok : Ends post rest st) (herror : ∀ e, post (.error e) st) :
    Ends post (reading rest) st :=
  always_whole trivial hok fun _ => ends_done (herror _)

/-- A write shows in the journal from its rename on. -/
theorem ends_writeAtomic {post : Except PrivateStateError Unit → Store → Prop}
    {tmp path : String} {effect : Dir → Dir}
    (hbefore : ∀ e, post (.error e) st)
    (hdone : ∀ r, post r (Journal.updateDir js st address effect)) :
    Ends post (writeAtomic js address tmp path effect) st :=
  ends_trying (ends_trying (ends_trying (ends_done (hdone _)) fun _ => hdone _) hbefore) hbefore

theorem ends_ensureAddressMarker (st : Store) (address : String) :
    Ends (fun _ st' => Journal.files js st' address = Journal.files js st address)
      (ensureAddressMarker js st address) st := by
  have hcreated := files_createPrivateDir js st address
  refine ends_trying (ends_reading ?_ fun _ => hcreated) fun _ => rfl
  split
  · split
    · exact ends_done hcreated
    · exact ends_done hcreated
  · refine ends_writeAtomic (fun _ => hcreated) fun _ => ?_
    obtain ⟨dir, hdir, hfiles⟩ := Journal.files_updateDir_same
      (createPrivateDir_isSome js st address)
      (fun dir => { dir with marker := some address })
    rw [hfiles, ← hcreated, ← hdir]

/-- A snapshot's write, on the store that its directory is created in. -/
theorem ends_writeJsonAtomic {before done : List Snapshot} {name : FileName} {snap : Snapshot}
    (h : JournalAt js st address before)
    (hwrite : ∀ st', JournalAt js st' address before →
      (st' (js.hashedName address)).isSome = true →
      Journal.files js st' address = Journal.files js st address →
      JournalAt js (Journal.updateDir js st' address (fun dir => dir.write name snap)) address
        done) :
    Ends (Leaves js address before done) (writeJsonAtomic js address name snap) st := by
  have hcreated := files_createPrivateDir js st address
  have hdone := hwrite _ (h.of_files_eq hcreated) (createPrivateDir_isSome js st address) hcreated
  refine ends_trying (ends_writeAtomic (fun _ => .inl (h.of_files_eq hcreated)) fun r => ?_)
    fun _ => .inl h
  cases r with
  | ok _ => exact hdone
  | error e => exact .inr hdone

/-- An append passes its checks on a new hash over the head alone. -/
theorem appendCheck_ok {ext : Hash32} {dependsOn : Option Hash32}
    (h : JournalAt js st address chain)
    (hcheck : Journal.appendCheck js st address ext dependsOn = .ok ()) :
    (∀ f ∈ Journal.files js st address, Journal.HashOf f ≠ ext.hex) ∧
      dependsOn.map Hash32.hex = chain.head?.map Snapshot.extrinsicHash := by
  unfold Journal.appendCheck at hcheck
  split at hcheck
  · cases hcheck
  · rename_i hfound
    have hhead : Journal.headSnapshot js st address = .ok chain.head? :=
      Journal.findLeaf_of_isChain _ _ h.chainAt.snapshots
    rw [hhead] at hcheck
    simp only at hcheck
    split at hcheck
    · cases hcheck
    · rename_i hparent
      refine ⟨fun f hf hhash => hfound ?_, (not_not.mp hparent).symm⟩
      exact (Journal.findSnapshotPath_isSome_iff st address ext.hex).mpr ⟨f, hf, hhash⟩

/-- What a failed append leaves once it has removed its file, wherever it failed. -/
theorem taken_away {name : FileName} {snap : Snapshot}
    (hname : name.extrinsicHash = snap.extrinsicHash)
    (hfresh : snap.extrinsicHash ∉ chain.map Snapshot.extrinsicHash)
    (h : JournalAt js st address chain ∨ JournalAt js st address (snap :: chain)) :
    JournalAt js (Journal.updateDir js st address (fun dir => dir.remove name)) address chain ∨
      JournalAt js (Journal.updateDir js st address (fun dir => dir.remove name)) address
        (snap :: chain) := by
  rcases h with h | h
  · refine .inl (h.remove_none fun f hf hfname => hfresh ?_)
    have hmem := h.chainAt.isChain.perm.mem_iff.mpr (List.mem_map_of_mem hf)
    rw [← hname, ← hfname, h.named f hf]
    exact List.mem_map_of_mem hmem
  · obtain ⟨f, hf, hsnap⟩ := List.mem_map.mp
      (h.chainAt.isChain.perm.mem_iff.mp List.mem_cons_self)
    by_cases hfname : f.1 = name
    · refine .inl (h.remove ?_)
      rw [← hfname, ← hsnap]
      exact hf
    · refine .inr (h.remove_none fun g hg hgname => hfname ?_)
      have hhash : Journal.HashOf g = Journal.HashOf f := by
        rw [Journal.HashOf, Journal.HashOf, ← h.named g hg, hgname, hsnap]
        exact hname
      rw [← Journal.eq_of_hash h.chainAt.hashes hg hf hhash, hgname]

theorem ends_appendPending (h : JournalAt js st address chain) (nanos : ℕ) (ext : Hash32)
    (dependsOn : Option Hash32) (state : Bytes) :
    Ends (Leaves js address chain (Journal.pendingSnapshot ext dependsOn state :: chain))
      (appendPending js nanos st address ext dependsOn state) st := by
  refine Always.bind (ends_ensureAddressMarker st address) (fun _ h => h) ?_
  intro marked st₁ _ hfiles
  have h₁ := h.of_files_eq hfiles
  cases marked with
  | error e => exact ends_done (.inl h₁)
  | ok _ =>
    refine ends_reading ?_ fun _ => .inl h₁
    cases hcheck : Journal.appendCheck js st address ext dependsOn with
    | error e => exact ends_done (.inl h₁)
    | ok _ =>
      obtain ⟨hnew, hparent⟩ := appendCheck_ok h hcheck
      have hfresh : ∀ f ∈ Journal.files js st₁ address, Journal.HashOf f ≠ ext.hex := by
        intro f hf
        rw [hfiles] at hf
        exact hnew f hf
      have hwritten : Ends (Leaves js address chain
          (Journal.pendingSnapshot ext dependsOn state :: chain))
          (writeJsonAtomic js address ⟨nanos, ext.hex⟩
            (Journal.pendingSnapshot ext dependsOn state)) st₁ :=
        ends_writeJsonAtomic h₁ fun st₂ h₂ hsome hfiles₂ =>
          h₂.write_new hsome rfl (fun f hf => hfresh f (hfiles₂ ▸ hf)) hparent
      refine Always.bind hwritten (fun _ h => h) ?_
      intro written st₂ _ hleft
      cases written with
      | ok _ => exact ends_done hleft
      | error e =>
        refine always_whole trivial (ends_done ?_) fun _ => ends_done hleft
        refine taken_away rfl (fun hmem => ?_) hleft
        obtain ⟨s, hs, hhash⟩ := List.mem_map.mp hmem
        obtain ⟨f, hf, rfl⟩ := List.mem_map.mp (h₁.chainAt.isChain.perm.mem_iff.mp hs)
        exact hfresh f hf hhash

def confirmedSnapshot (s : Snapshot) (blockHeight : Option ℕ) (blockHash : Hash32) : Snapshot :=
  { s with
    status := .confirmed, blockHeight := blockHeight, blockHash := some blockHash.hex }

theorem ends_confirm {s : Snapshot} (h : JournalAt js st address (s :: chain))
    (hpending : s.status = .pending) {ext : Hash32} (hext : s.extrinsicHash = ext.hex)
    (blockHeight : Option ℕ) (blockHash : Hash32) :
    Ends (Leaves js address (s :: chain) (confirmedSnapshot s blockHeight blockHash :: chain))
      (confirm js st address ext blockHeight blockHash) st := by
  refine ends_reading ?_ fun _ => .inl h
  cases hpath : Journal.findSnapshotPath js st address ext.hex with
  | none => exact ends_done (.inl h)
  | some path =>
    simp only
    cases hread : (st (js.hashedName address)).bind (fun dir => dir.read path) with
    | none => exact ends_done (.inl h)
    | some snap =>
      have hmem := Journal.read_mem_files hread
      obtain ⟨found, hfound, hhash⟩ := Journal.findSnapshotPath_eq_some hpath
      obtain ⟨f, hf, rfl⟩ := List.mem_map.mp
        (h.chainAt.isChain.perm.mem_iff.mp List.mem_cons_self)
      have hpathHash : path.extrinsicHash = ext.hex := (h.named _ hfound).trans hhash
      have hsame : (path, snap) = f := by
        refine Journal.eq_of_hash h.chainAt.hashes hmem hf ?_
        show snap.extrinsicHash = f.2.extrinsicHash
        rw [hext, ← hpathHash]
        exact (h.named _ hmem).symm
      subst hsame
      simp only
      rw [if_neg (by rw [hpending]; simp)]
      exact ends_writeJsonAtomic h fun st' h' _ hfiles =>
        h'.write_over (hfiles ▸ hmem) rfl rfl

theorem always_removeEach_subset (path : String → Option FileName) (hashes : List String)
    (st₀ : Store) (hsub : ∀ f ∈ Journal.files js st address, f ∈ Journal.files js st₀ address) :
    Ends (fun _ st' => ∀ f ∈ Journal.files js st' address, f ∈ Journal.files js st₀ address)
      (Journal.removeEach js address path hashes) st := by
  induction hashes generalizing st with
  | nil => exact always_whole trivial (ends_done hsub) fun _ => ends_done hsub
  | cons hash hashes ih =>
    unfold Journal.removeEach
    cases path hash with
    | none => exact ih hsub
    | some name =>
      refine always_whole trivial (ih fun f hf => ?_) fun _ => ends_done hsub
      rw [Journal.files_remove] at hf
      exact hsub f (List.mem_filter.mp hf).1

theorem ends_markFailed {s : Snapshot} (h : JournalAt js st address (s :: chain)) {ext : Hash32}
    (hext : s.extrinsicHash = ext.hex) :
    Ends (Leaves js address (s :: chain) chain) (markFailed js st address ext) st := by
  have hsubset : Ends (fun _ st' => ∀ f ∈ Journal.files js st' address,
      f ∈ Journal.files js st address) (Journal.cascadeDropOps js st address ext.hex) st := by
    unfold Journal.cascadeDropOps
    simp only
    split
    · exact always_removeEach_subset _ _ st fun _ hf => hf
    · exact ends_done fun _ hf => hf
  have hleft := Journal.always_cascadeDropOps [] h.chainAt
  rw [hext] at hleft
  refine ends_reading ?_ fun _ => .inl h
  refine (hleft.kept.and hsubset).mono (fun _ _ => trivial) ?_
  rintro r st' ⟨⟨⟨⟨k, hk, hdrop⟩, _⟩, hok⟩, hsub⟩
  have hnamed : ∀ f ∈ Journal.files js st' address, f.1.extrinsicHash = f.2.extrinsicHash :=
    fun f hf => h.named f (hsub f hf)
  cases r with
  | ok _ => exact ⟨hok rfl, hnamed⟩
  | error e =>
    obtain rfl | rfl : k = 0 ∨ k = 1 := by
      rw [List.length_nil] at hk
      omega
    · exact .inl ⟨hdrop, hnamed⟩
    · exact .inr ⟨hdrop, hnamed⟩

/-- Without a failure the head is the chain's. -/
theorem ends_headWithExtrinsic (h : JournalAt js st address chain) :
    Ends (fun r st' => st' = st ∧ ∀ found, r = .ok found →
      found.map Prod.fst = chain.head?.map Snapshot.data)
      (headWithExtrinsic js st address) st := by
  refine ends_reading (ends_done ⟨rfl, fun found hfound => ?_⟩) fun _ =>
    ⟨rfl, fun _ h => by cases h⟩
  unfold Journal.headWithExtrinsic Journal.headSnapshot at hfound
  rw [Journal.findLeaf_of_isChain _ _ h.chainAt.snapshots] at hfound
  cases hhead : chain.head? with
  | none =>
    rw [hhead] at hfound
    cases hfound
    rfl
  | some s =>
    rw [hhead] at hfound
    simp only at hfound
    cases hparse : Journal.parseHash s.extrinsicHash with
    | error e =>
      rw [hparse] at hfound
      cases hfound
    | ok ext =>
      rw [hparse] at hfound
      cases hfound
      rfl

end Effects

end MidnightRs.JournalWrites
