import MidnightRs.Faults
import MidnightRs.JournalFiles

/-!
Rollbacks and appends on a file system that may fail at every operation, on a
machine that may stop between any two. A rollback removes the newest snapshot first,
so what it leaves is a chain from which the same rollback goes on. An append goes
through a temporary file, so its snapshot is there as a whole or not at all.
-/
namespace MidnightRs.Journal

open Chains Faults

variable (p : Provider)

section Programs

/-- `<020-padded-unix-nanos>-<extrinsic_hash_hex>.json`. -/
def FileName.json (name : FileName) : String :=
  let digits := (toString name.nanos).toList
  let nanos := String.ofList (List.replicate (20 - digits.length) '0' ++ digits)
  s!"{nanos}-{name.extrinsicHash}.json"

/-- Removes the files one after the other, up to the first failure. -/
def removeEach (address : String) (path : String → Option FileName) :
    List String → Faulty Store String (Except PrivateStateError Unit)
  | [] => .op id whole (fun
    | .ok () => .done (.ok ())
    | .error e => .done (.error (.io s!"sync {p.addressDir address}: {e}")))
  | hash :: hashes =>
    match path hash with
    | none => removeEach address path hashes
    | some name => .op (fun st => updateDir p st address (fun dir => dir.remove name)) whole (fun
      | .ok () => removeEach address path hashes
      | .error e => .done (.error (.io s!"cascade_drop on {address} stopped at snapshot {hash} ({p.addressDir address}/{name.json}): {e}; re-run mark_failed to resume")))

def cascadeDropOps (st : Store) (address startHash : String) :
    Faulty Store String (Except PrivateStateError Unit) :=
  let snaps := loadSnapshots p st address
  if snaps.any (fun f => decide (f.2.extrinsicHash = startHash)) then
    let doomed := walkChildren (snaps.map Prod.snd) [startHash]
    let pathByHash := fun hash =>
      (snaps.reverse.find? (fun f => decide (f.2.extrinsicHash = hash))).map Prod.fst
    removeEach p address pathByHash doomed.reverse
  else .done (.error (.snapshotNotFound address startHash))

/-- The entries of an address's directory. -/
inductive Entry where
  | marker
  | markerTmp
  | snapshot (name : FileName)
  | snapshotTmp (name : FileName)
deriving DecidableEq

def Entry.fileName : Entry → String
  | .marker => "address.txt"
  | .markerTmp => "address.tmp"
  | .snapshot name => name.json
  | .snapshotTmp name => name.tmp

/-- What the files of one directory hold. -/
abbrev Contents := Entry → Option Bytes

/-- A write cut short leaves a beginning of the bytes. -/
def cutShort (entry : Entry) (bytes : Bytes) : Contents → Contents → Prop :=
  fun c c' => ∃ k, c' = Function.update c entry (some (bytes.take k))

/-- A file operation, which ends the call if it fails. -/
def attempt (effect : Contents → Contents) (torn : Contents → Contents → Prop) (what : String)
    (rest : Faulty Contents String (Except PrivateStateError Unit)) :
    Faulty Contents String (Except PrivateStateError Unit) :=
  .op effect torn (fun
    | .ok () => rest
    | .error e => .done (.error (.io s!"{what}: {e}")))

/-- Creates and fills a temporary file, renames it into place and syncs the directory. -/
def writeAtomicOps (dir : String) (tmp path : Entry) (contents : Bytes) :
    Faulty Contents String (Except PrivateStateError Unit) :=
  let writing := s!"write {dir}/{tmp.fileName}"
  attempt (fun c => Function.update c tmp none) whole writing <|
  attempt (fun c => Function.update c tmp (some [])) whole writing <|
  attempt (fun c => Function.update c tmp (some contents)) (cutShort tmp contents) writing <|
  attempt id whole writing <|
  attempt (fun c => Function.update (Function.update c path (c tmp)) tmp none) whole
    s!"rename into {dir}/{path.fileName}" <|
  attempt id whole s!"sync {dir}" <|
  .done (.ok ())

/-- The checks of an append, once the marker is in place. -/
def appendCheck (st : Store) (address : String) (ext : Hash32) (dependsOn : Option Hash32) :
    Except PrivateStateError Unit :=
  if (findSnapshotPath p st address ext.hex).isSome then
    .error (.snapshotAlreadyExists address ext.hex)
  else
    match headSnapshot p st address with
    | .error e => .error e
    | .ok head =>
      let expected := dependsOn.map Hash32.hex
      let currentLeaf := head.map Snapshot.extrinsicHash
      if currentLeaf ≠ expected then .error (.journalConflict address expected currentLeaf)
      else .ok ()

/-- Writes the new snapshot. A failed write takes its file away again. -/
def writeSnapshot (encode : Snapshot → Bytes) (address : String) (name : FileName)
    (snap : Snapshot) : Faulty Contents String (Except PrivateStateError Unit) := do
  let written ← attempt id whole s!"create dir {p.addressDir address}"
    (writeAtomicOps (p.addressDir address) (.snapshotTmp name) (.snapshot name) (encode snap))
  match written with
  | .ok () => .done (.ok ())
  | .error e =>
    .op (fun c => Function.update c (.snapshot name) none) whole (fun _ => .done (.error e))

def markerOps (st : Store) (address : String) :
    Faulty Contents String (Except PrivateStateError Unit) :=
  attempt id whole s!"create dir {p.addressDir address}" <|
    match ((st (p.hashedName address)).getD Dir.empty).marker with
    | some existing =>
      if trim existing ≠ address then
        .done (.error (.invalidFormat s!"address marker at {p.addressDir address}/address.txt holds {(trim existing).quote} but caller passed {address.quote}; the per-address directory does not match the address it was created for. Resolve by deleting the directory or repairing the marker."))
      else .done (.ok ())
    | none => writeAtomicOps (p.addressDir address) .markerTmp .marker (Hex.utf8 address)

/-- The append, on the directory of its address. What it reads is what `st` holds. -/
def appendPendingOps (encode : Snapshot → Bytes) (nanos : ℕ) (st : Store) (address : String)
    (ext : Hash32) (dependsOn : Option Hash32) (state : Bytes) :
    Faulty Contents String (Except PrivateStateError Unit) := do
  let marked ← markerOps p st address
  match marked with
  | .error e => .done (.error e)
  | .ok () =>
    match appendCheck p st address ext dependsOn with
    | .error e => .done (.error e)
    | .ok () =>
      writeSnapshot p encode address ⟨nanos, ext.hex⟩ (pendingSnapshot ext dependsOn state)

end Programs

section Rollback
variable {p}

/-- The files of an address hold one chain, under names of their own. -/
structure ChainAt (st : Store) (address : String) (chain : List Snapshot) : Prop where
  isChain : IsChain Snapshot.links ((files p st address).map Prod.snd) chain
  names : ((files p st address).map Prod.fst).Nodup

variable {st : Store} {address : String}

theorem ChainAt.hashes {chain : List Snapshot} (h : ChainAt (p := p) st address chain) :
    ((files p st address).map HashOf).Nodup := by
  have hmap : (files p st address).map HashOf =
      ((files p st address).map Prod.snd).map Snapshot.extrinsicHash := by
    rw [List.map_map]
    rfl
  rw [hmap]
  exact (h.isChain.perm.map Snapshot.extrinsicHash).nodup_iff.mp h.isChain.nodup

theorem ChainAt.snapshots {chain : List Snapshot} (h : ChainAt (p := p) st address chain) :
    IsChain Snapshot.links (snapshots p st address) chain :=
  isChain_of_perm h.isChain (snapshots_perm st address).symm

theorem ChainAt.of_named {chain : List Snapshot}
    (hnamed : ∀ f ∈ files p st address, f.1.extrinsicHash = f.2.extrinsicHash)
    (h : IsChain Snapshot.links ((files p st address).map Prod.snd) chain) :
    ChainAt (p := p) st address chain := by
  refine ⟨h, List.Nodup.of_map FileName.extrinsicHash ?_⟩
  have heq : ((files p st address).map Prod.fst).map FileName.extrinsicHash =
      ((files p st address).map Prod.snd).map Snapshot.extrinsicHash := by
    rw [List.map_map, List.map_map]
    exact List.map_congr_left hnamed
  rw [heq]
  exact (h.perm.map Snapshot.extrinsicHash).nodup_iff.mp h.nodup

/-- Without the file of its newest snapshot the journal holds the rest of the chain. -/
theorem ChainAt.remove {a : Snapshot} {chain : List Snapshot} {name : FileName}
    (h : ChainAt (p := p) st address (a :: chain)) (hfile : (name, a) ∈ files p st address) :
    ChainAt (p := p) (updateDir p st address (fun dir => dir.remove name)) address chain := by
  have hfiles := files_remove (p := p) st address name
  constructor
  · rw [hfiles]
    have hfilter : ((files p st address).filter (fun f => decide (f.1 ≠ name))).map Prod.snd =
        ((files p st address).map Prod.snd).filter
          (fun t => decide (t.extrinsicHash ≠ a.extrinsicHash)) := by
      rw [List.filter_map]
      refine congrArg (List.map Prod.snd) (List.filter_congr fun f hf => ?_)
      refine decide_eq_decide.mpr (not_congr ⟨fun hname => ?_, fun hhash => ?_⟩)
      · rw [List.inj_on_of_nodup_map h.names hf hfile hname]
      · rw [eq_of_hash h.hashes hf hfile hhash]
    have hperm := h.isChain.perm.filter (fun t => decide (t.extrinsicHash ≠ a.extrinsicHash))
    have hnodup := h.isChain.nodup
    rw [List.map_cons] at hnodup
    obtain ⟨hfresh, htail⟩ := List.nodup_cons.mp hnodup
    have hrest : (a :: chain).filter (fun t => decide (t.extrinsicHash ≠ a.extrinsicHash)) =
        chain := by
      rw [List.filter_cons_of_neg (by simp), List.filter_eq_self]
      intro t ht
      exact decide_eq_true fun heq => hfresh (List.mem_map.mpr ⟨t, ht, heq⟩)
    rw [hrest] at hperm
    exact ⟨hfilter ▸ hperm, htail, h.isChain.linked.tail⟩
  · rw [hfiles]
    exact h.names.sublist (List.filter_sublist.map _)

/-- What a rollback from a snapshot leaves behind: the chain without some of its
newest snapshots, and the snapshot itself before all that was built on it. -/
def Left (p : Provider) (st₀ : Store) (address : String) (post : List Snapshot) (s : Snapshot)
    (pre : List Snapshot) (st : Store) : Prop :=
  (∃ k ≤ post.length + 1, ChainAt (p := p) st address ((post ++ s :: pre).drop k)) ∧
    ∀ other, other ≠ address → files p st other = files p st₀ other

/-- One removal, from the newest end of the chain. -/
theorem always_remove {path : String → Option FileName} {a : Snapshot} {chain : List Snapshot}
    {hashes : List String} {inv : Store → Prop}
    {after : Except PrivateStateError Unit → Store → Prop}
    (h : ChainAt (p := p) st address (a :: chain))
    (hpath : ∀ f ∈ files p st address, path (HashOf f) = some f.1) (hinv : inv st)
    (herror : ∀ e, after (.error e) st)
    (hnext : ∀ st', ChainAt (p := p) st' address chain →
      (∀ f ∈ files p st' address, f ∈ files p st address) →
      (∀ other, other ≠ address → files p st' other = files p st other) →
      Always inv after (removeEach p address path hashes) st') :
    Always inv after (removeEach p address path (a.extrinsicHash :: hashes)) st := by
  obtain ⟨f, hf, rfl⟩ := List.mem_map.mp (h.isChain.perm.mem_iff.mp List.mem_cons_self)
  have hname : path f.2.extrinsicHash = some f.1 := hpath f hf
  unfold removeEach
  rw [hname]
  refine always_whole hinv (hnext _ (h.remove hf) (fun g hg => ?_) fun other ho => ?_)
    (fun e => ⟨hinv, herror _⟩)
  · rw [files_remove] at hg
    exact (List.mem_filter.mp hg).1
  · exact files_updateDir_other st address other _ ho

theorem always_synced {path : String → Option FileName} {inv : Store → Prop}
    {after : Except PrivateStateError Unit → Store → Prop} (hinv : inv st)
    (hafter : ∀ r, after r st) : Always inv after (removeEach p address path []) st :=
  always_whole hinv ⟨hinv, hafter _⟩ (fun _ => ⟨hinv, hafter _⟩)

theorem always_removeEach {path : String → Option FileName} {pre : List Snapshot} {s : Snapshot}
    (post : List Snapshot) (h : ChainAt (p := p) st address (post ++ s :: pre))
    (hpath : ∀ f ∈ files p st address, path (HashOf f) = some f.1) :
    Always (Left p st address post s pre)
      (fun r st' => r = .ok () → ChainAt (p := p) st' address pre)
      (removeEach p address path ((post ++ [s]).map Snapshot.extrinsicHash)) st := by
  induction post generalizing st with
  | nil =>
    refine always_remove h hpath ⟨⟨0, by omega, h⟩, fun _ _ => rfl⟩ (fun e he => by cases he) ?_
    intro st' h' _ hother
    exact always_synced ⟨⟨1, by simp, h'⟩, hother⟩ (fun _ _ => h')
  | cons a post ih =>
    refine always_remove h hpath ⟨⟨0, by omega, h⟩, fun _ _ => rfl⟩ (fun e he => by cases he) ?_
    intro st' h' hsub hother
    refine (ih h' (fun f hf => hpath f (hsub f hf))).mono ?_ (fun _ _ hpost => hpost)
    rintro st'' ⟨⟨k, hk, hleft⟩, hother'⟩
    refine ⟨⟨k + 1, by simpa using hk, hleft⟩, fun other ho => ?_⟩
    rw [hother' other ho, hother other ho]

/-- The doomed snapshots in the order of their removal: newest first. -/
theorem walkChildren_eq {snaps post pre : List Snapshot} {s : Snapshot}
    (h : IsChain Snapshot.links snaps (post ++ s :: pre)) :
    (walkChildren snaps [s.extrinsicHash]).reverse =
      (post ++ [s]).map Snapshot.extrinsicHash := by
  unfold walkChildren
  rw [List.reverse_reverse]
  refine IsChain.grown_eq (childrenOf_spec snaps) [] h (reach_grown _) ?_
  have happ : post ++ s :: pre = (post ++ [s]) ++ pre := by simp
  have hnodup := h.nodup
  rw [happ, List.map_append] at hnodup
  exact (List.perm_ext_iff_of_nodup (reach_nodup _) hnodup.of_append_left).mpr
    (h.mem_reach_iff (childrenOf_spec snaps))

/-- The rollback finds its start if the chain holds its hash. -/
theorem ChainAt.any_iff {chain : List Snapshot} (h : ChainAt (p := p) st address chain)
    {hash : String} : (loadSnapshots p st address).any
      (fun f => decide (f.2.extrinsicHash = hash)) = true ↔
        hash ∈ chain.map Snapshot.extrinsicHash := by
  rw [List.any_eq_true, ((h.snapshots.perm.map Snapshot.extrinsicHash)).mem_iff, Journal.snapshots,
    List.map_map, List.mem_map]
  simp

theorem always_cascadeDropOps {pre : List Snapshot} {s : Snapshot} (post : List Snapshot)
    (h : ChainAt (p := p) st address (post ++ s :: pre)) :
    Always (Left p st address post s pre)
      (fun r st' => r = .ok () → ChainAt (p := p) st' address pre)
      (cascadeDropOps p st address s.extrinsicHash) st := by
  have hchain : IsChain Snapshot.links ((loadSnapshots p st address).map Prod.snd)
      (post ++ s :: pre) := h.snapshots
  unfold cascadeDropOps
  simp only [h.any_iff.mpr (List.mem_map_of_mem (List.mem_append_right _ List.mem_cons_self)),
    if_true]
  rw [walkChildren_eq hchain]
  refine always_removeEach post h (fun f hf => ?_)
  exact path_eq h.hashes (fun g => List.mem_reverse.trans (mem_loadSnapshots st address g)) hf

/-- Without failures the operations do what the rollback does. -/
theorem run_cascadeDropOps (st : Store) (address startHash : String) :
    (cascadeDropOps p st address startHash).run st = cascadeDrop p st address startHash := by
  have hremove : ∀ (path : String → Option FileName) (hashes : List String) (st : Store),
      (removeEach p address path hashes).run st =
        (hashes.foldl (fun st hash =>
          match path hash with
          | none => st
          | some name => updateDir p st address (fun dir => dir.remove name)) st, .ok ()) := by
    intro path hashes
    induction hashes with
    | nil => exact fun st => rfl
    | cons hash hashes ih =>
      intro st
      rw [List.foldl_cons]
      unfold removeEach
      cases path hash with
      | none => exact ih st
      | some name => exact ih _
  unfold cascadeDropOps cascadeDrop
  simp only
  split
  · exact hremove _ _ _
  · rfl

theorem cascadeDrop_chain {pre : List Snapshot} {s : Snapshot} {post : List Snapshot}
    (h : ChainAt (p := p) st address (post ++ s :: pre)) :
    ChainAt (p := p) (cascadeDrop p st address s.extrinsicHash).1 address pre := by
  have hrun := (always_cascadeDropOps post h).run
  rw [run_cascadeDropOps] at hrun
  refine hrun.2 ?_
  unfold cascadeDrop
  simp only [h.any_iff.mpr (List.mem_map_of_mem (List.mem_append_right _ List.mem_cons_self)),
    if_true]

/-- The same rollback on what an earlier one left takes it to its end. -/
theorem cascadeDrop_left {st₀ : Store} {pre : List Snapshot} {s : Snapshot} {post : List Snapshot}
    (hnodup : ((post ++ s :: pre).map Snapshot.extrinsicHash).Nodup)
    (h : Left p st₀ address post s pre st) :
    ChainAt (p := p) (cascadeDrop p st address s.extrinsicHash).1 address pre := by
  obtain ⟨⟨k, hk, hchain⟩, _⟩ := h
  by_cases hstart : k ≤ post.length
  · rw [List.drop_append_of_le_length hstart] at hchain
    exact cascadeDrop_chain hchain
  · obtain rfl : k = post.length + 1 := by omega
    have hdrop : (post ++ s :: pre).drop (post.length + 1) = pre := by simp
    rw [hdrop] at hchain
    have hgone : s.extrinsicHash ∉ pre.map Snapshot.extrinsicHash := by
      rw [List.map_append, List.map_cons] at hnodup
      exact (List.nodup_cons.mp hnodup.of_append_right).1
    unfold cascadeDrop
    rw [if_neg (fun hany => hgone (hchain.any_iff.mp hany))]
    exact hchain

end Rollback

section Append
variable {p}

/-- The directory's snapshot files hold these snapshots, each as a whole. -/
def Stores (encode : Snapshot → Bytes) (fs : Files) (c : Contents) : Prop :=
  ∀ name, c (.snapshot name) = (readIn fs name).map encode

/-- The snapshot files are the old ones, or these with the new one. -/
def OldOrNew (encode : Snapshot → Bytes) (fs : Files) (name : FileName) (snap : Snapshot)
    (c : Contents) : Prop :=
  Stores encode fs c ∨ Stores encode ((name, snap) :: fs) c

variable {inv : Contents → Prop} {after : Except PrivateStateError Unit → Contents → Prop}

theorem always_attempt {effect : Contents → Contents} {torn : Contents → Contents → Prop}
    {what : String} {rest : Faulty Contents String (Except PrivateStateError Unit)} {c : Contents}
    (hinv : inv c) (htorn : ∀ c', torn c c' → inv c')
    (herror : ∀ e c', c' = c ∨ torn c c' → after (.error e) c')
    (hrest : Always inv after rest (effect c)) :
    Always inv after (attempt effect torn what rest) c := by
  refine ⟨hinv, htorn, hrest, fun e c' hc' => ⟨?_, herror _ c' hc'⟩⟩
  rcases hc' with rfl | hc'
  · exact hinv
  · exact htorn c' hc'

/-- The write of a file: what holds before is not about the temporary file, and the
rename makes what holds after. -/
theorem always_writeAtomicOps (before done : Contents → Prop) {dir : String} {tmp path : Entry}
    {contents : Bytes} (htmp : ∀ c v, before c → before (Function.update c tmp v))
    (hrename : ∀ c, before c → c tmp = some contents →
      done (Function.update (Function.update c path (c tmp)) tmp none))
    {c : Contents} (h : before c) :
    Always (fun c => before c ∨ done c) (fun r c => r = .ok () → done c)
      (writeAtomicOps dir tmp path contents) c := by
  have hfailed : ∀ (e : PrivateStateError) (c : Contents),
      (.error e : Except PrivateStateError Unit) = .ok () → done c := fun e c he => by cases he
  have hwhole : ∀ {c c' : Contents}, whole c c' → before c' ∨ done c' := fun h => h.elim
  refine always_attempt (Or.inl h) (fun _ => hwhole) (fun e c' _ => hfailed _ c') ?_
  refine always_attempt (Or.inl (htmp _ _ h)) (fun _ => hwhole) (fun e c' _ => hfailed _ c') ?_
  refine always_attempt (Or.inl (htmp _ _ (htmp _ _ h))) ?_ (fun e c' _ => hfailed _ c') ?_
  · rintro c' ⟨k, rfl⟩
    exact Or.inl (htmp _ _ (htmp _ _ (htmp _ _ h)))
  have hfull := htmp _ (some contents) (htmp _ (some []) (htmp _ none h))
  refine always_attempt (Or.inl hfull) (fun _ => hwhole) (fun e c' _ => hfailed _ c') ?_
  refine always_attempt (Or.inl hfull) (fun _ => hwhole) (fun e c' _ => hfailed _ c') ?_
  have hdone := hrename _ hfull (Function.update_self _ _ _)
  exact always_attempt (Or.inr hdone) (fun _ => hwhole) (fun e c' _ => hfailed _ c')
    ⟨Or.inr hdone, fun _ => hdone⟩

theorem Stores.update {encode : Snapshot → Bytes} {fs : Files} {c : Contents}
    (h : Stores encode fs c) {entry : Entry} (hentry : ∀ name, entry ≠ .snapshot name)
    (v : Option Bytes) : Stores encode fs (Function.update c entry v) := by
  intro name
  rw [Function.update_of_ne (hentry name).symm]
  exact h name

/-- A renamed file is a snapshot of the journal. -/
theorem Stores.write {encode : Snapshot → Bytes} {fs : Files} {c : Contents}
    (h : Stores encode fs c) (name : FileName) (snap : Snapshot) :
    Stores encode ((name, snap) :: fs)
      (Function.update c (.snapshot name) (some (encode snap))) := by
  intro other
  by_cases hname : other = name
  · subst hname
    rw [Function.update_self]
    simp [readIn]
  · rw [Function.update_of_ne (by simpa using hname), h other]
    simp [readIn, Ne.symm hname]

/-- Taking the new file away leaves the old journal. -/
theorem Stores.erase {encode : Snapshot → Bytes} {fs : Files} {c : Contents} {name : FileName}
    {snap : Snapshot} (hnew : readIn fs name = none) (h : OldOrNew encode fs name snap c) :
    Stores encode fs (Function.update c (.snapshot name) none) := by
  intro other
  by_cases hname : other = name
  · subst hname
    rw [Function.update_self, hnew]
    rfl
  · rw [Function.update_of_ne (by simpa using hname)]
    rcases h with h | h
    · exact h other
    · rw [h other]
      simp [readIn, Ne.symm hname]

theorem always_writeSnapshot {encode : Snapshot → Bytes} {fs : Files} {c : Contents}
    (address : String) {name : FileName} (snap : Snapshot) (hnew : readIn fs name = none)
    (h : Stores encode fs c) :
    Always (OldOrNew encode fs name snap)
      (fun r c => r = .ok () → Stores encode ((name, snap) :: fs) c)
      (writeSnapshot p encode address name snap) c := by
  have hwrite : Always (OldOrNew encode fs name snap)
      (fun r c => r = .ok () → Stores encode ((name, snap) :: fs) c)
      (attempt id whole s!"create dir {p.addressDir address}"
        (writeAtomicOps (p.addressDir address) (.snapshotTmp name) (.snapshot name)
          (encode snap))) c := by
    refine always_attempt (Or.inl h) (fun _ hw => hw.elim) (fun e c' _ he => by cases he) ?_
    refine always_writeAtomicOps (Stores encode fs) (Stores encode ((name, snap) :: fs))
      (fun c v hc => hc.update (fun _ => by simp) v) (fun c hc htmp => ?_) h
    rw [htmp]
    exact (hc.write name snap).update (fun _ => by simp) none
  refine hwrite.bind (fun _ hc => hc) (fun r c' hinv hpost => ?_)
  cases r with
  | ok u => exact ⟨hinv, hpost⟩
  | error e =>
    have hend : ∀ c, OldOrNew encode fs name snap c →
        Always (OldOrNew encode fs name snap)
          (fun r c => r = Except.ok () → Stores encode ((name, snap) :: fs) c)
          (Faulty.done (Except.error e) : Faulty Contents String _) c := fun c hc => ⟨hc, fun he => by cases he⟩
    exact always_whole hinv (hend _ (Or.inl (Stores.erase hnew hinv))) (fun _ => hend _ hinv)

theorem always_markerOps {encode : Snapshot → Bytes} {fs : Files} {c : Contents} (st : Store)
    (address : String) (h : Stores encode fs c) :
    Always (Stores encode fs) (fun _ _ => True) (markerOps p st address) c := by
  refine always_attempt h (fun _ hw => hw.elim) (fun _ _ _ => trivial) ?_
  split
  · split
    · exact ⟨h, trivial⟩
    · exact ⟨h, trivial⟩
  · refine (always_writeAtomicOps (Stores encode fs) (Stores encode fs)
      (fun c v hc => hc.update (fun _ => by simp) v) (fun c hc htmp => ?_) h).mono
        (fun _ hs => hs.elim id id) (fun _ _ _ => trivial)
    exact (hc.update (fun _ => by simp) _).update (fun _ => by simp) none

/-- The name of a snapshot that the checks let in is new. -/
theorem readIn_of_appendCheck {st : Store} {address : String} {ext : Hash32}
    {dependsOn : Option Hash32}
    (hnamed : ∀ f ∈ files p st address, f.1.extrinsicHash = f.2.extrinsicHash)
    (h : appendCheck p st address ext dependsOn = .ok ()) (nanos : ℕ) :
    readIn (files p st address) ⟨nanos, ext.hex⟩ = none := by
  have hfree : ¬ (findSnapshotPath p st address ext.hex).isSome = true := by
    intro hfound
    unfold appendCheck at h
    rw [if_pos hfound] at h
    cases h
  cases hread : readIn (files p st address) ⟨nanos, ext.hex⟩ with
  | none => rfl
  | some snap =>
    have hmem := mem_of_readIn hread
    exact absurd ((findSnapshotPath_isSome_iff st address ext.hex).mpr
      ⟨_, hmem, (hnamed _ hmem).symm⟩) hfree

theorem always_appendPendingOps {encode : Snapshot → Bytes} {c : Contents} {st : Store}
    {address : String}
    (hnamed : ∀ f ∈ files p st address, f.1.extrinsicHash = f.2.extrinsicHash)
    (h : Stores encode (files p st address) c) (nanos : ℕ) (ext : Hash32)
    (dependsOn : Option Hash32) (state : Bytes) :
    Always (OldOrNew encode (files p st address) ⟨nanos, ext.hex⟩
        (pendingSnapshot ext dependsOn state))
      (fun r c => r = .ok () → Stores encode ((⟨nanos, ext.hex⟩,
        pendingSnapshot ext dependsOn state) :: files p st address) c)
      (appendPendingOps p encode nanos st address ext dependsOn state) c := by
  unfold appendPendingOps
  refine (always_markerOps st address h).bind (fun _ hc => Or.inl hc) (fun marked c' hc' _ => ?_)
  cases marked with
  | error e => exact ⟨Or.inl hc', fun he => by cases he⟩
  | ok u =>
    cases hcheck : appendCheck p st address ext dependsOn with
    | error e => exact ⟨Or.inl hc', fun he => by cases he⟩
    | ok u => exact always_writeSnapshot address _ (readIn_of_appendCheck hnamed hcheck nanos) hc'

/-- The append as its checks and its write. -/
theorem appendPending_eq (nanos : ℕ) (st : Store) (address : String) (ext : Hash32)
    (dependsOn : Option Hash32) (state : Bytes) :
    appendPending p nanos st address ext dependsOn state =
      match ensureAddressMarker p st address with
      | (st', .error e) => (st', .error e)
      | (st', .ok ()) =>
        match appendCheck p st address ext dependsOn with
        | .error e => (st', .error e)
        | .ok () => (updateDir p st' address (fun dir => dir.write ⟨nanos, ext.hex⟩
            (pendingSnapshot ext dependsOn state)), .ok ()) := by
  have hload : loadSnapshots p (ensureAddressMarker p st address).1 address =
      loadSnapshots p st address := by
    obtain ⟨dir, hst, hfiles⟩ := ensureAddressMarker_fst (p := p) st address
    rw [hst, ← inOrder_files, ← inOrder_files, files_update_same, hfiles]
  unfold appendPending
  generalize ensureAddressMarker p st address = marked at hload ⊢
  obtain ⟨st', result⟩ := marked
  cases result with
  | error e => rfl
  | ok u =>
    have hcheck : appendCheck p st address ext dependsOn = appendCheck p st' address ext dependsOn := by
      unfold appendCheck findSnapshotPath headSnapshot snapshots
      rw [hload]
    simp only [hcheck]
    unfold appendCheck
    split
    · rfl
    · cases headSnapshot p st' address with
      | error e => rfl
      | ok head =>
        simp only
        split
        · rfl
        · rfl

end Append

section CrashSafety

/-- A rollback that fails or is cut short leaves the chain without some of its newest
snapshots, and the same rollback again takes it to its end. An append that fails or is
cut short leaves the old journal, or the old journal and the whole new snapshot. The
files of the address are named after their snapshots, as the store names them. -/
theorem journal_crash_safe (p : Provider) (encode : Snapshot → Bytes) {st : Store}
    {address : String}
    (hnamed : ∀ f ∈ files p st address, f.1.extrinsicHash = f.2.extrinsicHash) :
    (∀ post s pre, IsChain Snapshot.links (snapshots p st address) (post ++ s :: pre) →
      ∀ st' r, MayLeave (cascadeDropOps p st address s.extrinsicHash) st st' r →
        ∃ k ≤ post.length + 1,
          IsChain Snapshot.links (snapshots p st' address) ((post ++ s :: pre).drop k) ∧
          (k ≤ post.length → s ∈ snapshots p st' address) ∧
          (r = some (.ok ()) → IsChain Snapshot.links (snapshots p st' address) pre) ∧
          IsChain Snapshot.links
            (snapshots p (cascadeDrop p st' address s.extrinsicHash).1 address) pre ∧
          ∀ other, other ≠ address → files p st' other = files p st other) ∧
    ∀ nanos ext dependsOn state c c' r, Stores encode (files p st address) c →
      MayLeave (appendPendingOps p encode nanos st address ext dependsOn state) c c' r →
        OldOrNew encode (files p st address) ⟨nanos, ext.hex⟩
          (pendingSnapshot ext dependsOn state) c' ∧
        (r = some (.ok ()) → Stores encode ((⟨nanos, ext.hex⟩,
          pendingSnapshot ext dependsOn state) :: files p st address) c') := by
  constructor
  · intro post s pre hchain st' r hleaves
    have hat : ChainAt (p := p) st address (post ++ s :: pre) :=
      ChainAt.of_named hnamed (isChain_of_perm hchain (snapshots_perm st address))
    obtain ⟨hleft, hpost⟩ := (always_cascadeDropOps post hat).leaves hleaves
    obtain ⟨⟨k, hk, hk'⟩, hother⟩ := id hleft
    refine ⟨k, hk, hk'.snapshots, fun hstart => ?_, fun hr => (hpost _ hr rfl).snapshots,
      (cascadeDrop_left hat.isChain.nodup hleft).snapshots, hother⟩
    rw [List.drop_append_of_le_length hstart] at hk'
    exact hk'.snapshots.perm.mem_iff.mp (List.mem_append_right _ List.mem_cons_self)
  · intro nanos ext dependsOn state c c' r hc hleaves
    obtain ⟨hinv, hpost⟩ :=
      (always_appendPendingOps hnamed hc nanos ext dependsOn state).leaves hleaves
    exact ⟨hinv, fun hr => hpost _ hr rfl⟩

def pendingOn (hash : String) (dependsOn : Option String) : Snapshot where
  status := .pending
  extrinsicHash := hash
  blockHash := none
  blockHeight := none
  dependsOn := dependsOn
  data := []

def threeFiles : List (FileName × Snapshot) :=
  [(⟨7, "a"⟩, pendingOn "a" none), (⟨8, "b"⟩, pendingOn "b" (some "a")),
    (⟨9, "c"⟩, pendingOn "c" (some "b"))]

def threeSnapshots : Store := fun name =>
  if name = "journal" then some ⟨some "journal", threeFiles⟩ else none

/-- The store between the first removal and the second. -/
def halfRolledBack : Store :=
  updateDir plainProvider threeSnapshots "journal" (fun dir => dir.remove ⟨9, "c"⟩)

theorem loadSnapshots_three : loadSnapshots plainProvider threeSnapshots "journal" = threeFiles :=
  List.mergeSort_of_pairwise (by decide)

theorem mayLeave_halfRolledBack : MayLeave
    (cascadeDropOps plainProvider threeSnapshots "journal" "b") threeSnapshots halfRolledBack
      none := by
  have hdoomed : (walkChildren (threeFiles.map Prod.snd) ["b"]).reverse = ["c", "b"] := by
    decide +kernel
  have hpath : (threeFiles.reverse.find? (fun f => decide (f.2.extrinsicHash = "c"))).map Prod.fst =
      some ⟨9, "c"⟩ := by decide
  unfold cascadeDropOps
  simp only [loadSnapshots_three, hdoomed]
  rw [if_pos (by decide)]
  simp only [removeEach, hpath]
  exact .ok (.stop _ _)

/-- A rollback of two snapshots that stops between the two removals, and the same
rollback again. -/
theorem journal_crash_safe_between :
    MayLeave (cascadeDropOps plainProvider threeSnapshots "journal" "b") threeSnapshots
        halfRolledBack none ∧
      IsChain Snapshot.links (snapshots plainProvider
        (cascadeDrop plainProvider halfRolledBack "journal" "b").1 "journal")
          [pendingOn "a" none] := by
  have hchain : IsChain Snapshot.links (snapshots plainProvider threeSnapshots "journal")
      ([pendingOn "c" (some "b")] ++ pendingOn "b" (some "a") :: [pendingOn "a" none]) := by
    rw [snapshots, loadSnapshots_three]
    exact ⟨List.reverse_perm (threeFiles.map Prod.snd), by decide, rfl, rfl, rfl, trivial⟩
  have hnamed : ∀ f ∈ files plainProvider threeSnapshots "journal",
      f.1.extrinsicHash = f.2.extrinsicHash := by decide
  obtain ⟨k, -, -, -, -, hagain, -⟩ := (journal_crash_safe plainProvider Snapshot.data hnamed).1
    _ _ _ hchain halfRolledBack none mayLeave_halfRolledBack
  exact ⟨mayLeave_halfRolledBack, hagain⟩

end CrashSafety

end MidnightRs.Journal
