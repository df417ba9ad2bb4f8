import MidnightRs.Journal
import MidnightRs.Loops
import Mathlib.Data.List.Dedup

/-!
The journal of every address stays one chain. Each call is reduced to what it
does to the address's files: a write over the file of the same hash, a removal
of the newest end, or nothing. An import is followed file by file next to the
merged view that it checks before it writes.
-/
namespace MidnightRs.Journal

open Chains Loops

section Leaf

theorem childrenOf_spec (snaps : List Snapshot) :
    ChildrenOf Snapshot.links snaps (childrenOf snaps) :=
  fun _ => List.mergeSort_perm _ _

theorem isRoots_filter (snaps : List Snapshot) :
    IsRoots Snapshot.links snaps
      ((snaps.filter (fun s => s.dependsOn.isNone)).map Snapshot.extrinsicHash) := by
  intro k
  simp [Snapshot.links, and_assoc]

theorem unreferenced_iff (snaps : List Snapshot) (s : Snapshot) :
    Unreferenced Snapshot.links snaps s ↔
      s.extrinsicHash ∉ snaps.filterMap Snapshot.dependsOn := by
  simp [Unreferenced, Snapshot.links]

theorem filter_eq_singleton {α : Type*} (l : List α) (q : α → Bool) (a : α) (hl : l.Nodup)
    (ha : a ∈ l) (hq : ∀ b ∈ l, q b = true ↔ b = a) : l.filter q = [a] := by
  apply List.perm_singleton.mp
  refine (List.perm_ext_iff_of_nodup (hl.filter q) (List.nodup_singleton a)).mpr ?_
  intro b
  rw [List.mem_filter, List.mem_singleton]
  constructor
  · rintro ⟨hb, hqb⟩
    exact (hq b hb).mp hqb
  · rintro rfl
    exact ⟨ha, (hq b ha).mpr rfl⟩

theorem findLeaf_nil : findLeaf [] = .ok none := rfl

/-- A head is found exactly when the snapshots form one chain that ends there. -/
theorem findLeaf_eq_some_iff (snaps : List Snapshot) (s : Snapshot)
    (hnodup : (snaps.map Snapshot.extrinsicHash).Nodup) :
    findLeaf snaps = .ok (some s) ↔ ∃ rest, IsChain Snapshot.links snaps (s :: rest) := by
  constructor
  · intro h
    unfold findLeaf at h
    split at h
    · cases h
    rename_i hne
    simp only at h
    split at h
    · cases h
    · rename_i leaf hleaves
      split at h
      · cases h
      · rename_i hlen
        simp only [Except.ok.injEq, Option.some.injEq] at h
        subst h
        have honly : ∀ a ∈ snaps, Unreferenced Snapshot.links snaps a → a = leaf := by
          intro a ha hun
          have hmem : a ∈ snaps.filter (fun s => decide
              (s.extrinsicHash ∉ snaps.filterMap Snapshot.dependsOn)) :=
            List.mem_filter.mpr ⟨ha, decide_eq_true ((unreferenced_iff snaps a).mp hun)⟩
          rw [hleaves] at hmem
          exact List.mem_singleton.mp hmem
        have hall : (reach (childrenOf snaps) snaps
            ((snaps.filter (fun s => s.dependsOn.isNone)).map Snapshot.extrinsicHash)).length =
              snaps.length := by
          rw [← List.length_reverse]
          exact not_not.mp hlen
        obtain ⟨chain, hchain⟩ := isChain_of_reach (childrenOf_spec snaps) _
          (isRoots_filter snaps) hnodup hall
          (fun a ha b hb hau hbu => (honly a ha hau).trans (honly b hb hbu).symm)
        cases chain with
        | nil =>
          have hnil : snaps = [] := hchain.perm.symm.eq_nil
          simp [hnil] at hne
        | cons a rest =>
          have hmem : a ∈ snaps := hchain.perm.mem_iff.mp List.mem_cons_self
          have hun : Unreferenced Snapshot.links snaps a := fun b hb =>
            hchain.linked.rooted.unreferenced_head hchain.nodup b (hchain.perm.mem_iff.mpr hb)
          exact ⟨rest, honly a hmem hun ▸ hchain⟩
    · cases h
  · rintro ⟨rest, hchain⟩
    have hs : s ∈ snaps := hchain.perm.mem_iff.mp List.mem_cons_self
    have hleaves : snaps.filter (fun s => decide
        (s.extrinsicHash ∉ snaps.filterMap Snapshot.dependsOn)) = [s] := by
      refine filter_eq_singleton _ _ s hnodup.of_map hs ?_
      intro b hb
      have hb' : b ∈ s :: rest := hchain.perm.mem_iff.mpr hb
      rw [decide_eq_true_iff, ← unreferenced_iff, ← hchain.linked.unreferenced_iff hchain.nodup hb']
      exact ⟨fun h c hc => h c (hchain.perm.mem_iff.mp hc),
        fun h c hc => h c (hchain.perm.mem_iff.mpr hc)⟩
    have hlen := hchain.reach_length (childrenOf_spec snaps) _ (isRoots_filter snaps)
    have hne : snaps.isEmpty = false := by
      cases snaps with
      | nil => simp at hs
      | cons => rfl
    unfold findLeaf
    simp only [hne, hleaves, walkChildren, List.length_reverse, hlen, Bool.false_eq_true,
      if_false, ne_eq, not_true_eq_false]

theorem findLeaf_ok (snaps : List Snapshot) (o : Option Snapshot)
    (hnodup : (snaps.map Snapshot.extrinsicHash).Nodup) (h : findLeaf snaps = .ok o) :
    ∃ chain, IsChain Snapshot.links snaps chain := by
  cases o with
  | some s =>
    obtain ⟨rest, hchain⟩ := (findLeaf_eq_some_iff snaps s hnodup).mp h
    exact ⟨s :: rest, hchain⟩
  | none =>
    have hnil : snaps = [] := by
      by_contra hne
      unfold findLeaf at h
      rw [if_neg (by simpa using hne)] at h
      simp only at h
      split at h
      · cases h
      · split at h <;> simp at h
      · cases h
    subst hnil
    exact ⟨[], List.Perm.nil, List.nodup_nil, trivial⟩

/-- On a chain the head is its newest snapshot. -/
theorem findLeaf_of_isChain (snaps chain : List Snapshot)
    (h : IsChain Snapshot.links snaps chain) : findLeaf snaps = .ok chain.head? := by
  have hnodup : (snaps.map Snapshot.extrinsicHash).Nodup :=
    (h.perm.map Snapshot.extrinsicHash).nodup_iff.mp h.nodup
  cases chain with
  | nil =>
    have hnil : snaps = [] := h.perm.symm.eq_nil
    subst hnil
    rfl
  | cons s rest => exact (findLeaf_eq_some_iff snaps s hnodup).mpr ⟨rest, h⟩

end Leaf

section Files
variable (p : Provider)

abbrev Files := List (FileName × Snapshot)

/-- The files of an address, in no particular order. -/
def files (st : Store) (address : String) : Files :=
  (st (p.hashedName address)).elim [] Dir.files

def HashOf (f : FileName × Snapshot) : String := f.2.extrinsicHash

/-- What holds of the files of one journal. -/
structure FilesOk (fs : Files) : Prop where
  named : ∀ f ∈ fs, f.1.extrinsicHash = f.2.extrinsicHash
  hex : ∀ f ∈ fs, Hex.isLowercaseHex 64 f.2.extrinsicHash = true
  chain : ∃ chain, IsChain Snapshot.links (fs.map Prod.snd) chain

def MarkersOk (st : Store) : Prop :=
  ∀ name dir, st name = some dir → ∀ m, dir.marker = some m → p.hashedName m = name ∧ Trimmed m

structure StoreOk (st : Store) : Prop where
  markers : MarkersOk p st
  files : ∀ address, FilesOk (files p st address)

/-- No confirmed snapshot of `fs` is pending in `fs'`. -/
def Keeps (fs fs' : Files) : Prop :=
  ∀ f ∈ fs, f.2.status = .confirmed → ∀ f' ∈ fs', HashOf f' = HashOf f → f'.2.status = .confirmed

variable {p}

theorem FilesOk.nodup {fs : Files} (h : FilesOk fs) : (fs.map HashOf).Nodup := by
  obtain ⟨chain, hchain⟩ := h.chain
  have hmap : fs.map HashOf = (fs.map Prod.snd).map Snapshot.extrinsicHash := by
    rw [List.map_map]
    rfl
  rw [hmap]
  exact (hchain.perm.map Snapshot.extrinsicHash).nodup_iff.mp hchain.nodup

theorem eq_of_hash {fs : Files} (hnodup : (fs.map HashOf).Nodup) {f g : FileName × Snapshot}
    (hf : f ∈ fs) (hg : g ∈ fs) (h : HashOf f = HashOf g) : f = g :=
  List.inj_on_of_nodup_map hnodup hf hg h

theorem FilesOk.empty : FilesOk [] where
  named := by simp
  hex := by simp
  chain := ⟨[], List.Perm.nil, List.nodup_nil, trivial⟩

theorem StoreOk.empty : StoreOk p Store.empty where
  markers := by simp [MarkersOk, Store.empty]
  files _ := FilesOk.empty

theorem Keeps.refl {fs : Files} (hnodup : (fs.map HashOf).Nodup) : Keeps fs fs := by
  intro f hf hconf f' hf' hhash
  rw [eq_of_hash hnodup hf' hf hhash]
  exact hconf

theorem Keeps.of_subset {fs fs' : Files} (hnodup : (fs.map HashOf).Nodup)
    (hsub : ∀ f ∈ fs', f ∈ fs) : Keeps fs fs' := by
  intro f hf hconf f' hf' hhash
  rw [eq_of_hash hnodup (hsub f' hf') hf hhash]
  exact hconf

theorem loadSnapshots_perm (st : Store) (address : String) :
    (loadSnapshots p st address).Perm (files p st address) := by
  unfold loadSnapshots files
  cases st (p.hashedName address) with
  | none => exact List.Perm.nil
  | some dir => exact List.mergeSort_perm _ _

theorem mem_loadSnapshots (st : Store) (address : String) (f : FileName × Snapshot) :
    f ∈ loadSnapshots p st address ↔ f ∈ files p st address :=
  (loadSnapshots_perm st address).mem_iff

theorem snapshots_perm (st : Store) (address : String) :
    (snapshots p st address).Perm ((files p st address).map Prod.snd) :=
  (loadSnapshots_perm st address).map Prod.snd

theorem StoreOk.isChain {st : Store} (h : StoreOk p st) (address : String) :
    ∃ chain, IsChain Snapshot.links (snapshots p st address) chain := by
  obtain ⟨chain, hchain⟩ := (h.files address).chain
  exact ⟨chain, hchain.perm.trans (snapshots_perm st address).symm, hchain.nodup, hchain.linked⟩

theorem files_update_same (st : Store) (address : String) (dir : Dir) :
    files p (Function.update st (p.hashedName address) (some dir)) address = dir.files := by
  simp [files]

theorem files_update_other (st : Store) (address other : String) (dir : Option Dir)
    (h : other ≠ address) :
    files p (Function.update st (p.hashedName address) dir) other = files p st other := by
  have hname : p.hashedName other ≠ p.hashedName address := fun he => h (p.hashedName_injective he)
  simp [files, Function.update_of_ne hname]

theorem files_updateDir_other (st : Store) (address other : String) (f : Dir → Dir)
    (h : other ≠ address) : files p (updateDir p st address f) other = files p st other :=
  files_update_other st address other _ h

/-- A path that is found names the file of the hash. -/
theorem findSnapshotPath_eq_some {st : Store} {address hash : String} {path : FileName}
    (h : findSnapshotPath p st address hash = some path) :
    ∃ snap, (path, snap) ∈ files p st address ∧ snap.extrinsicHash = hash := by
  unfold findSnapshotPath at h
  obtain ⟨f, hfind, rfl⟩ := Option.map_eq_some_iff.mp h
  have hmem := (mem_loadSnapshots st address f).mp (List.mem_of_find?_eq_some hfind)
  exact ⟨f.2, hmem, by simpa using List.find?_some hfind⟩

theorem findSnapshotPath_isSome_iff (st : Store) (address hash : String) :
    (findSnapshotPath p st address hash).isSome = true ↔
      ∃ f ∈ files p st address, HashOf f = hash := by
  simp [findSnapshotPath, HashOf, mem_loadSnapshots]

/-- Creating the marker touches no journal and never fails on a trimmed
address. -/
theorem ensureAddressMarker_spec {st : Store} (h : MarkersOk p st) (address : String)
    (ht : Trimmed address) :
    ∃ st', ensureAddressMarker p st address = (st', .ok ()) ∧ MarkersOk p st' ∧
      (st' (p.hashedName address)).isSome = true ∧
      ∀ other, files p st' other = files p st other := by
  have hfiles : ∀ dir : Dir, dir.files = files p st address → ∀ other,
      files p (Function.update st (p.hashedName address) (some dir)) other =
        files p st other := by
    intro dir hdir other
    by_cases ho : other = address
    · subst ho
      rw [files_update_same, hdir]
    · exact files_update_other st address other _ ho
  have hget : ((st (p.hashedName address)).getD Dir.empty).files = files p st address := by
    unfold files
    cases st (p.hashedName address) <;> rfl
  have hmarkers : ∀ dir : Dir,
      (∀ m, dir.marker = some m → p.hashedName m = p.hashedName address ∧ Trimmed m) →
      MarkersOk p (Function.update st (p.hashedName address) (some dir)) := by
    intro dir hdir name d hd
    by_cases hn : name = p.hashedName address
    · subst hn
      rw [Function.update_self, Option.some.injEq] at hd
      exact hd ▸ hdir
    · rw [Function.update_of_ne hn] at hd
      exact h name d hd
  unfold ensureAddressMarker
  cases hm : ((st (p.hashedName address)).getD Dir.empty).marker with
  | none =>
    simp only [hm]
    refine ⟨_, rfl, hmarkers _ ?_, by simp, hfiles _ hget⟩
    intro m hmm
    obtain rfl := Option.some.inj hmm
    exact ⟨rfl, ht⟩
  | some existing =>
    have hdir : p.hashedName existing = p.hashedName address ∧ Trimmed existing := by
      cases hst : st (p.hashedName address) with
      | none => simp [hst, Dir.empty] at hm
      | some dir =>
        rw [hst, Option.getD_some] at hm
        exact h _ dir hst existing hm
    have heq : existing = address := p.hashedName_injective hdir.1
    have htrim : ¬ trim existing ≠ address := by
      rw [not_not, hdir.2, heq]
    simp only [hm, if_neg htrim]
    refine ⟨_, rfl, hmarkers _ ?_, by simp, hfiles _ hget⟩
    intro m hmm
    rw [hm, Option.some.injEq] at hmm
    exact hmm ▸ hdir

theorem markersOk_updateDir {st : Store} (h : MarkersOk p st) (address : String) (f : Dir → Dir)
    (hf : ∀ dir, (f dir).marker = dir.marker) : MarkersOk p (updateDir p st address f) := by
  intro name d hd
  unfold updateDir at hd
  by_cases hn : name = p.hashedName address
  · subst hn
    rw [Function.update_self] at hd
    obtain ⟨dir, hdir, rfl⟩ := Option.map_eq_some_iff.mp hd
    rw [hf]
    exact h _ dir hdir
  · rw [Function.update_of_ne hn] at hd
    exact h name d hd

theorem files_updateDir_same {st : Store} {address : String}
    (hsome : (st (p.hashedName address)).isSome = true) (f : Dir → Dir) :
    ∃ dir : Dir, dir.files = files p st address ∧
      files p (updateDir p st address f) address = (f dir).files := by
  obtain ⟨dir, hdir⟩ := Option.isSome_iff_exists.mp hsome
  exact ⟨dir, by simp [files, hdir], by simp [files, updateDir, hdir]⟩

theorem isSome_of_mem_files {st : Store} {address : String} {f : FileName × Snapshot}
    (h : f ∈ files p st address) : (st (p.hashedName address)).isSome = true := by
  unfold files at h
  cases hst : st (p.hashedName address) with
  | none => simp [hst] at h
  | some dir => rfl

/-- The files after a write: the written file replaces the one of its hash. -/
def putFile (fs : Files) (name : FileName) (snap : Snapshot) : Files :=
  (name, snap) :: fs.filter (fun f => decide (HashOf f ≠ snap.extrinsicHash))

/-- A name that is free for a snapshot: the file that already holds its hash,
or a new one. -/
def Target (fs : Files) (name : FileName) (snap : Snapshot) : Prop :=
  name.extrinsicHash = snap.extrinsicHash ∧
    ∀ f ∈ fs, HashOf f = snap.extrinsicHash → f.1 = name

theorem files_write {st : Store} {address : String}
    (hsome : (st (p.hashedName address)).isSome = true) (name : FileName) (snap : Snapshot)
    (hnamed : ∀ f ∈ files p st address, f.1.extrinsicHash = f.2.extrinsicHash)
    (htarget : Target (files p st address) name snap) :
    files p (updateDir p st address (fun dir => dir.write name snap)) address =
      putFile (files p st address) name snap := by
  obtain ⟨dir, hdir, hfiles⟩ := files_updateDir_same hsome (fun dir => dir.write name snap)
  rw [hfiles, ← hdir]
  refine congrArg (List.cons (name, snap)) (List.filter_congr fun f hf => ?_)
  rw [hdir] at hf
  rw [decide_eq_decide]
  constructor
  · intro hne hhash
    exact hne (htarget.2 f hf hhash)
  · intro hne hname
    apply hne
    rw [HashOf, ← hnamed f hf, hname, htarget.1]

theorem mem_putFile {fs : Files} {name : FileName} {snap : Snapshot} {f : FileName × Snapshot}
    (h : f ∈ putFile fs name snap) :
    f = (name, snap) ∨ (f ∈ fs ∧ HashOf f ≠ snap.extrinsicHash) := by
  rcases List.mem_cons.mp h with rfl | hf
  · exact Or.inl rfl
  · obtain ⟨hf, hne⟩ := List.mem_filter.mp hf
    exact Or.inr ⟨hf, by simpa using hne⟩

/-- A write of a confirmed snapshot, or over no confirmed one, keeps every
confirmation. -/
theorem keeps_putFile {fs : Files} (hnodup : (fs.map HashOf).Nodup) (name : FileName)
    (snap : Snapshot)
    (h : ∀ f ∈ fs, HashOf f = snap.extrinsicHash → f.2.status = .confirmed →
      snap.status = .confirmed) : Keeps fs (putFile fs name snap) := by
  intro f hf hconf f' hf' hhash
  rcases mem_putFile hf' with rfl | ⟨hold, _⟩
  · exact h f hf hhash.symm hconf
  · rw [eq_of_hash hnodup hold hf hhash]
    exact hconf

/-- Appending on the head extends the chain. -/
theorem FilesOk.append {fs : Files} (h : FilesOk fs) {chain : List Snapshot}
    (hchain : IsChain Snapshot.links (fs.map Prod.snd) chain) (name : FileName)
    (snap : Snapshot) (hname : name.extrinsicHash = snap.extrinsicHash)
    (hhex : Hex.isLowercaseHex 64 snap.extrinsicHash = true)
    (hnew : ∀ f ∈ fs, HashOf f ≠ snap.extrinsicHash)
    (hparent : snap.dependsOn = chain.head?.map Snapshot.extrinsicHash) :
    FilesOk (putFile fs name snap) := by
  have hput : putFile fs name snap = (name, snap) :: fs := by
    unfold putFile
    rw [List.filter_eq_self.mpr (fun f hf => decide_eq_true (hnew f hf))]
  rw [hput]
  refine ⟨?_, ?_, snap :: chain, ?_, ?_, hparent, hchain.linked⟩
  · intro f hf
    rcases List.mem_cons.mp hf with rfl | hf
    · exact hname
    · exact h.named f hf
  · intro f hf
    rcases List.mem_cons.mp hf with rfl | hf
    · exact hhex
    · exact h.hex f hf
  · exact hchain.perm.cons snap
  · refine List.nodup_cons.mpr ⟨?_, hchain.nodup⟩
    intro hmem
    obtain ⟨t, ht, hkey⟩ := List.mem_map.mp hmem
    obtain ⟨f, hf, rfl⟩ := List.mem_map.mp (hchain.perm.mem_iff.mp ht)
    exact hnew f hf hkey

/-- Rewriting a file without touching its links keeps the chain. -/
theorem FilesOk.replace {fs : Files} (h : FilesOk fs) (name : FileName) (old snap : Snapshot)
    (hmem : (name, old) ∈ fs) (hhash : snap.extrinsicHash = old.extrinsicHash)
    (hparent : snap.dependsOn = old.dependsOn) : FilesOk (putFile fs name snap) := by
  obtain ⟨chain, hchain⟩ := h.chain
  let f : Snapshot → Snapshot := fun s => if s = old then snap else s
  have hkey : ∀ s, (f s).extrinsicHash = s.extrinsicHash := by
    intro s
    by_cases hs : s = old <;> simp [f, hs, hhash]
  have hpar : ∀ s, (f s).dependsOn = s.dependsOn := by
    intro s
    by_cases hs : s = old <;> simp [f, hs, hparent]
  -- The other files hold other snapshots, so the map leaves them alone.
  have hperm : (fs.map Prod.snd).map f |>.Perm ((putFile fs name snap).map Prod.snd) := by
    have hsplit : fs.Perm ((name, old) ::
        fs.filter (fun g => decide (HashOf g ≠ snap.extrinsicHash))) := by
      refine (List.perm_ext_iff_of_nodup h.nodup.of_map ?_).mpr ?_
      · refine List.nodup_cons.mpr ⟨?_, h.nodup.of_map.filter _⟩
        simp [HashOf, hhash]
      · intro g
        rw [List.mem_cons, List.mem_filter, decide_eq_true_iff]
        constructor
        · intro hg
          by_cases hgh : HashOf g = snap.extrinsicHash
          · exact Or.inl (eq_of_hash h.nodup hg hmem (hgh.trans hhash))
          · exact Or.inr ⟨hg, hgh⟩
        · rintro (rfl | ⟨hg, _⟩)
          · exact hmem
          · exact hg
    have hrest : ((fs.filter (fun g => decide (HashOf g ≠ snap.extrinsicHash))).map
        Prod.snd).map f = (fs.filter (fun g => decide (HashOf g ≠ snap.extrinsicHash))).map
          Prod.snd := by
      rw [List.map_map]
      refine List.map_congr_left fun g hg => ?_
      have hgh : HashOf g ≠ snap.extrinsicHash := by simpa using (List.mem_filter.mp hg).2
      have hne : g.2 ≠ old := fun he => hgh (by rw [HashOf, he, hhash])
      simp [f, hne]
    have hmap := (hsplit.map Prod.snd).map f
    rw [List.map_cons, List.map_cons, hrest] at hmap
    have hold : f old = snap := by simp [f]
    rw [hold] at hmap
    exact hmap
  refine ⟨?_, ?_, chain.map f, (hchain.perm.map f).trans hperm, ?_,
    hchain.linked.map f hkey hpar⟩
  · intro g hg
    rcases mem_putFile hg with rfl | ⟨hg, _⟩
    · exact (h.named _ hmem).trans hhash.symm
    · exact h.named g hg
  · intro g hg
    rcases mem_putFile hg with rfl | ⟨hg, _⟩
    · exact hhash ▸ h.hex _ hmem
    · exact h.hex g hg
  · have hkeys : (chain.map f).map Snapshot.extrinsicHash =
        chain.map Snapshot.extrinsicHash := by
      rw [List.map_map]
      exact List.map_congr_left fun s _ => hkey s
    change ((chain.map f).map Snapshot.extrinsicHash).Nodup
    rw [hkeys]
    exact hchain.nodup

/-- What every call keeps. -/
structure Preserves (p : Provider) (st st' : Store) : Prop where
  ok : StoreOk p st'
  keeps : ∀ address, Keeps (files p st address) (files p st' address)

theorem Preserves.refl {st : Store} (h : StoreOk p st) : Preserves p st st :=
  ⟨h, fun address => Keeps.refl (h.files address).nodup⟩

/-- A call that changes the files of one address is judged on those. -/
theorem Preserves.of_files {st st' : Store} (h : StoreOk p st) (hm : MarkersOk p st')
    (address : String) (hok : FilesOk (files p st' address))
    (hkeeps : Keeps (files p st address) (files p st' address))
    (hother : ∀ other, other ≠ address → files p st' other = files p st other) :
    Preserves p st st' := by
  refine ⟨⟨hm, fun a => ?_⟩, fun a => ?_⟩
  · by_cases ha : a = address
    · exact ha ▸ hok
    · rw [hother a ha]
      exact h.files a
  · by_cases ha : a = address
    · exact ha ▸ hkeeps
    · rw [hother a ha]
      exact Keeps.refl (h.files a).nodup

theorem Preserves.of_files_eq {st st' : Store} (h : StoreOk p st) (hm : MarkersOk p st')
    (hfiles : ∀ address, files p st' address = files p st address) : Preserves p st st' := by
  refine ⟨⟨hm, fun a => ?_⟩, fun a => ?_⟩
  · rw [hfiles]
    exact h.files a
  · rw [hfiles]
    exact Keeps.refl (h.files a).nodup

end Files

section Calls
variable {p : Provider}

/-- The snapshot is new and its parent is the head. -/
def Appendable (p : Provider) (st : Store) (address : String) (ext : Hash32)
    (dependsOn : Option Hash32) : Prop :=
  (∀ s ∈ snapshots p st address, s.extrinsicHash ≠ ext.hex) ∧
    ∃ chain, IsChain Snapshot.links (snapshots p st address) chain ∧
      chain.head?.map Snapshot.extrinsicHash = dependsOn.map Hash32.hex

theorem snapshots_perm_of_files {st st' : Store} {address : String}
    (h : files p st' address = files p st address) :
    (snapshots p st' address).Perm (snapshots p st address) :=
  (snapshots_perm st' address).trans (h ▸ (snapshots_perm st address).symm)

theorem isChain_of_perm {snaps snaps' chain : List Snapshot}
    (h : IsChain Snapshot.links snaps chain) (hperm : snaps.Perm snaps') :
    IsChain Snapshot.links snaps' chain :=
  ⟨h.perm.trans hperm, h.nodup, h.linked⟩

/-- The head of a chain does not depend on how the chain is listed. -/
theorem isChain_head_unique {snaps chain chain' : List Snapshot}
    (h : IsChain Snapshot.links snaps chain) (h' : IsChain Snapshot.links snaps chain') :
    chain.head? = chain'.head? := by
  have heq := (findLeaf_of_isChain snaps chain h).symm.trans (findLeaf_of_isChain snaps chain' h')
  exact Except.ok.inj heq

theorem hex_isLowercaseHex (h : Hash32) : Hex.isLowercaseHex 64 h.hex = true := by
  have hhex := Hex.isLowercaseHex_encode h.val
  rw [h.property] at hhex
  exact hhex

/-- An append succeeds on what is appendable and otherwise changes no journal. -/
theorem appendPending_spec {st : Store} (h : StoreOk p st) (nanos : ℕ) (address : String)
    (ht : Trimmed address) (ext : Hash32) (dependsOn : Option Hash32) (state : Bytes) :
    Preserves p st (appendPending p nanos st address ext dependsOn state).1 ∧
      ((appendPending p nanos st address ext dependsOn state).2 = .ok () ↔
        Appendable p st address ext dependsOn) := by
  obtain ⟨st', hmarker, hm', hsome, hfiles⟩ := ensureAddressMarker_spec h.markers address ht
  have hsnaps := snapshots_perm_of_files (hfiles address)
  have hst' : StoreOk p st' := (Preserves.of_files_eq h hm' hfiles).ok
  unfold appendPending
  simp only [hmarker]
  by_cases hdup : (findSnapshotPath p st' address ext.hex).isSome = true
  · rw [if_pos hdup]
    refine ⟨Preserves.of_files_eq h hm' hfiles, by simp, fun happ => ?_⟩
    obtain ⟨f, hf, hhash⟩ := (findSnapshotPath_isSome_iff st' address ext.hex).mp hdup
    have hmem : f.2 ∈ snapshots p st address :=
      hsnaps.mem_iff.mp ((snapshots_perm st' address).mem_iff.mpr (List.mem_map_of_mem hf))
    exact absurd hhash (happ.1 f.2 hmem)
  · rw [if_neg hdup]
    have hnew : ∀ f ∈ files p st' address, HashOf f ≠ ext.hex := fun f hf hhash =>
      hdup ((findSnapshotPath_isSome_iff st' address ext.hex).mpr ⟨f, hf, hhash⟩)
    obtain ⟨chain, hchain⟩ := (hst'.files address).chain
    have hhead : headSnapshot p st' address = .ok chain.head? :=
      findLeaf_of_isChain _ _ (isChain_of_perm hchain (snapshots_perm st' address).symm)
    have hchain' : IsChain Snapshot.links (snapshots p st address) chain :=
      isChain_of_perm hchain ((snapshots_perm st' address).symm.trans hsnaps)
    simp only [hhead]
    by_cases hparent : chain.head?.map Snapshot.extrinsicHash = dependsOn.map Hash32.hex
    · rw [if_neg (not_not.mpr hparent)]
      have hput := files_write hsome ⟨nanos, ext.hex⟩ (pendingSnapshot ext dependsOn state)
        (hst'.files address).named ⟨rfl, fun f hf hhash => absurd hhash (hnew f hf)⟩
      refine ⟨?_, ⟨fun _ => ?_, fun _ => rfl⟩⟩
      · refine .of_files h (markersOk_updateDir hm' address _ (fun _ => rfl)) address ?_ ?_ ?_
        · rw [hput]
          exact (hst'.files address).append hchain _ _ rfl (hex_isLowercaseHex ext) hnew
            hparent.symm
        · rw [hput, ← hfiles address]
          exact keeps_putFile (hst'.files address).nodup _ _
            (fun f hf hhash => absurd hhash (hnew f hf))
        · intro other ho
          rw [files_updateDir_other st' address other _ ho, hfiles other]
      · refine ⟨?_, chain, hchain', hparent⟩
        intro s hs
        obtain ⟨f, hf, rfl⟩ := List.mem_map.mp
          ((snapshots_perm st' address).mem_iff.mp (hsnaps.mem_iff.mpr hs))
        exact hnew f hf
    · rw [if_pos hparent]
      refine ⟨Preserves.of_files_eq h hm' hfiles, by simp, fun happ => ?_⟩
      obtain ⟨_, chain2, hchain2, hhead2⟩ := happ
      rw [isChain_head_unique hchain2 hchain'] at hhead2
      exact absurd hhead2 hparent

theorem read_mem_files {st : Store} {address : String} {path : FileName} {snap : Snapshot}
    (h : (st (p.hashedName address)).bind (fun dir => dir.read path) = some snap) :
    (path, snap) ∈ files p st address := by
  obtain ⟨dir, hdir, hread⟩ := Option.bind_eq_some_iff.mp h
  obtain ⟨f, hfind, rfl⟩ := Option.map_eq_some_iff.mp hread
  have hmem := List.mem_of_find?_eq_some hfind
  have hname : f.1 = path := by simpa using List.find?_some hfind
  subst hname
  simpa [files, hdir] using hmem

/-- Rewriting the file of a hash with the same links and a confirmed status. -/
theorem preserves_rewrite {st : Store} (h : StoreOk p st) (address : String) (path : FileName)
    (old snap : Snapshot) (hmem : (path, old) ∈ files p st address)
    (hhash : snap.extrinsicHash = old.extrinsicHash) (hparent : snap.dependsOn = old.dependsOn)
    (hconf : snap.status = .confirmed) :
    Preserves p st (updateDir p st address (fun dir => dir.write path snap)) := by
  have htarget : Target (files p st address) path snap := by
    refine ⟨((h.files address).named _ hmem).trans hhash.symm, fun f hf hfh => ?_⟩
    rw [eq_of_hash (h.files address).nodup hf hmem (hfh.trans hhash)]
  have hput := files_write (isSome_of_mem_files hmem) path snap (h.files address).named htarget
  refine .of_files h (markersOk_updateDir h.markers address _ (fun _ => rfl)) address ?_ ?_ ?_
  · rw [hput]
    exact (h.files address).replace path old snap hmem hhash hparent
  · rw [hput]
    exact keeps_putFile (h.files address).nodup path snap (fun _ _ _ _ => hconf)
  · exact fun other ho => files_updateDir_other st address other _ ho

theorem confirm_preserves {st : Store} (h : StoreOk p st) (address : String) (ext : Hash32)
    (blockHeight : Option ℕ) (blockHash : Hash32) :
    Preserves p st (confirm p st address ext blockHeight blockHash).1 := by
  unfold confirm
  cases hpath : findSnapshotPath p st address ext.hex with
  | none => exact Preserves.refl h
  | some path =>
    simp only
    cases hread : (st (p.hashedName address)).bind (fun dir => dir.read path) with
    | none => exact Preserves.refl h
    | some snap =>
      have hmem := read_mem_files hread
      simp only
      split
      · rename_i hconf
        split
        · exact Preserves.refl h
        split
        · exact preserves_rewrite h address path snap _ hmem rfl rfl hconf
        · exact Preserves.refl h
      · exact preserves_rewrite h address path snap _ hmem rfl rfl rfl

theorem files_remove (st : Store) (address : String) (path : FileName) :
    files p (updateDir p st address (fun dir => dir.remove path)) address =
      (files p st address).filter (fun f => decide (f.1 ≠ path)) := by
  unfold files updateDir
  cases st (p.hashedName address) <;> simp [Dir.remove]

/-- The removals of a cascade, one after the other. -/
theorem files_removeAll (address : String) (path : String → Option FileName)
    (hashes : List String) (st : Store) (hm : MarkersOk p st) :
    let st' := hashes.foldl (fun st hash =>
      match path hash with
      | none => st
      | some name => updateDir p st address (fun dir => dir.remove name)) st
    files p st' address =
        (files p st address).filter (fun f => decide (f.1 ∉ hashes.filterMap path)) ∧
      (∀ other, other ≠ address → files p st' other = files p st other) ∧ MarkersOk p st' := by
  induction hashes generalizing st with
  | nil => exact ⟨by simp, fun _ _ => rfl, hm⟩
  | cons hash hashes ih =>
    simp only [List.foldl_cons]
    cases hpath : path hash with
    | none =>
      obtain ⟨hfiles, hother, hmarkers⟩ := ih st hm
      exact ⟨by simpa [hpath] using hfiles, hother, hmarkers⟩
    | some name =>
      obtain ⟨hfiles, hother, hmarkers⟩ :=
        ih _ (markersOk_updateDir hm address _ (fun dir => (rfl : (dir.remove name).marker = _)))
      refine ⟨?_, fun other ho => ?_, hmarkers⟩
      · rw [hfiles, files_remove, List.filter_filter]
        refine List.filter_congr fun f _ => ?_
        simp [hpath, Bool.and_comm]
      · rw [hother other ho, files_updateDir_other st address other _ ho]

theorem FilesOk.names {fs : Files} (h : FilesOk fs) : (fs.map Prod.fst).Nodup := by
  refine List.Nodup.of_map FileName.extrinsicHash ?_
  have heq : (fs.map Prod.fst).map FileName.extrinsicHash = fs.map HashOf := by
    rw [List.map_map]
    exact List.map_congr_left h.named
  rw [heq]
  exact h.nodup

/-- The path of a hash is the name of its file. -/
theorem path_eq {fs load : Files} (hnodup : (fs.map HashOf).Nodup)
    (hload : ∀ f, f ∈ load ↔ f ∈ fs) {g : FileName × Snapshot} (hg : g ∈ fs) :
    (load.find? (fun f => decide (f.2.extrinsicHash = HashOf g))).map Prod.fst = some g.1 := by
  cases hfind : load.find? (fun f => decide (f.2.extrinsicHash = HashOf g)) with
  | none =>
    have hnone := List.find?_eq_none.mp hfind g ((hload g).mpr hg)
    simp [HashOf] at hnone
  | some g' =>
    have hg' : g' ∈ fs := (hload g').mp (List.mem_of_find?_eq_some hfind)
    have hgh := List.find?_some hfind
    replace hgh : HashOf g' = HashOf g := of_decide_eq_true hgh
    rw [eq_of_hash hnodup hg' hg hgh]
    rfl

/-- The paths of a set of hashes are the names of the files with these hashes. -/
theorem mem_filterMap_path {fs load : Files} (hnames : (fs.map Prod.fst).Nodup)
    (hnodup : (fs.map HashOf).Nodup) (hload : ∀ f, f ∈ load ↔ f ∈ fs)
    (hashes : List String) {g : FileName × Snapshot} (hg : g ∈ fs) :
    g.1 ∈ hashes.filterMap (fun hash =>
        (load.find? (fun f => decide (f.2.extrinsicHash = hash))).map Prod.fst) ↔
      HashOf g ∈ hashes := by
  rw [List.mem_filterMap]
  constructor
  · rintro ⟨hash, hhash, hpath⟩
    obtain ⟨g', hfind, hname⟩ := Option.map_eq_some_iff.mp hpath
    have hg' : g' ∈ fs := (hload g').mp (List.mem_of_find?_eq_some hfind)
    have hgh : g'.2.extrinsicHash = hash := by simpa using List.find?_some hfind
    rw [List.inj_on_of_nodup_map hnames hg' hg hname] at hgh
    rw [HashOf, hgh]
    exact hhash
  · exact fun hhash => ⟨HashOf g, hhash, path_eq hnodup hload hg⟩

/-- Without the newest end of its chain, a journal is still one chain. -/
theorem FilesOk.drop {fs : Files} (h : FilesOk fs) {post pre : List Snapshot} {s : Snapshot}
    (hchain : IsChain Snapshot.links (fs.map Prod.snd) (post ++ s :: pre)) :
    FilesOk (fs.filter
      (fun g => decide (HashOf g ∉ (post ++ [s]).map Snapshot.extrinsicHash))) := by
  have hsub : ∀ g ∈ fs.filter
      (fun g => decide (HashOf g ∉ (post ++ [s]).map Snapshot.extrinsicHash)), g ∈ fs :=
    fun g hg => (List.mem_filter.mp hg).1
  have happ : post ++ s :: pre = (post ++ [s]) ++ pre := by simp
  have hnodup := hchain.nodup
  rw [happ, List.map_append] at hnodup
  have hpre : (post ++ s :: pre).filter (fun s' => decide
      (s'.extrinsicHash ∉ (post ++ [s]).map Snapshot.extrinsicHash)) = pre := by
    have hdisj := List.disjoint_of_nodup_append hnodup
    rw [happ, List.filter_append, List.filter_eq_nil_iff.mpr, List.nil_append,
      List.filter_eq_self.mpr]
    · intro t ht
      exact decide_eq_true fun hmem => hdisj hmem (List.mem_map_of_mem ht)
    · intro t ht
      rw [decide_eq_true_iff, not_not]
      exact List.mem_map_of_mem ht
  refine ⟨fun g hg => h.named g (hsub g hg), fun g hg => h.hex g (hsub g hg), pre, ?_,
    List.Nodup.of_append_right hnodup, hchain.linked.of_append.tail⟩
  have hperm := hchain.perm.filter (fun s' => decide
    (s'.extrinsicHash ∉ (post ++ [s]).map Snapshot.extrinsicHash))
  rw [hpre, List.filter_map] at hperm
  exact hperm

/-- Dropping a snapshot drops the end of the chain from it on. -/
theorem cascadeDrop_preserves {st : Store} (h : StoreOk p st) (address startHash : String) :
    Preserves p st (cascadeDrop p st address startHash).1 := by
  unfold cascadeDrop
  simp only
  split
  · rename_i hany
    obtain ⟨f, hf, hstart⟩ := List.any_eq_true.mp hany
    have hfok := h.files address
    have hmemf : f ∈ files p st address := (mem_loadSnapshots st address f).mp hf
    have hstart : f.2.extrinsicHash = startHash := by simpa using hstart
    obtain ⟨chain, hchain⟩ := hfok.chain
    have hload : IsChain Snapshot.links ((loadSnapshots p st address).map Prod.snd) chain :=
      isChain_of_perm hchain (snapshots_perm st address).symm
    -- The chain splits at the start: what was built on it, itself, what it was built on.
    obtain ⟨post, pre, hsplit⟩ := List.append_of_mem
      (hchain.perm.mem_iff.mpr (List.mem_map_of_mem (f := Prod.snd) hmemf))
    subst hsplit
    have hdoomed : ∀ k, k ∈ (walkChildren ((loadSnapshots p st address).map Prod.snd)
        [startHash]).reverse ↔ k ∈ (post ++ [f.2]).map Snapshot.extrinsicHash := by
      intro k
      rw [List.mem_reverse, walkChildren, List.mem_reverse, ← hstart]
      exact hload.mem_reach_iff (childrenOf_spec _) k
    obtain ⟨hfiles, hother, hmarkers⟩ := files_removeAll (p := p) address
      (fun hash => ((loadSnapshots p st address).reverse.find?
        (fun f => decide (f.2.extrinsicHash = hash))).map Prod.fst)
      (walkChildren ((loadSnapshots p st address).map Prod.snd) [startHash]).reverse st h.markers
    have hcongr : (files p st address).filter (fun f => decide (f.1 ∉
        (walkChildren ((loadSnapshots p st address).map Prod.snd) [startHash]).reverse.filterMap
          (fun hash => ((loadSnapshots p st address).reverse.find?
            (fun f => decide (f.2.extrinsicHash = hash))).map Prod.fst))) =
        (files p st address).filter
          (fun g => decide (HashOf g ∉ (post ++ [f.2]).map Snapshot.extrinsicHash)) := by
      refine List.filter_congr fun g hg => ?_
      rw [decide_eq_decide, not_iff_not, ← hdoomed]
      exact mem_filterMap_path hfok.names hfok.nodup
        (fun f => List.mem_reverse.trans (mem_loadSnapshots st address f)) _ hg
    rw [hcongr] at hfiles
    refine .of_files h hmarkers address ?_ ?_ hother
    · exact hfiles ▸ hfok.drop hchain
    · exact hfiles ▸ Keeps.of_subset hfok.nodup (fun g hg => (List.mem_filter.mp hg).1)
  · exact Preserves.refl h

theorem forget_preserves {st : Store} (h : StoreOk p st) (address : String) :
    Preserves p st (forget p st address).1 := by
  have hfiles : files p (forget p st address).1 address = [] := by simp [forget, files]
  refine .of_files h ?_ address ?_ ?_ (fun other ho => files_update_other st address other _ ho)
  · intro name dir hdir
    change Function.update st (p.hashedName address) none name = some dir at hdir
    by_cases hn : name = p.hashedName address
    · subst hn
      simp at hdir
    · rw [Function.update_of_ne hn] at hdir
      exact h.markers name dir hdir
  · rw [hfiles]
    exact FilesOk.empty
  · rw [hfiles]
    exact Keeps.of_subset (h.files address).nodup (by simp)

end Calls

section Merge
variable {p : Provider}

theorem ByHash.mem_of_get {m : ByHash} {hash : String} {v : FileName × Snapshot}
    (h : m.get hash = some v) : (hash, v) ∈ m := by
  obtain ⟨e, hfind, rfl⟩ := Option.map_eq_some_iff.mp h
  have hmem := List.mem_of_find?_eq_some hfind
  have hkey : e.1 = hash := by simpa using List.find?_some hfind
  exact hkey ▸ hmem

theorem ByHash.ne_of_get_none {m : ByHash} {hash : String} (h : m.get hash = none) :
    ∀ e ∈ m, e.1 ≠ hash := by
  intro e he
  have hfind := List.find?_eq_none.mp (Option.map_eq_none_iff.mp h) e he
  simpa using hfind

/-- Collecting files of distinct hashes loses none. -/
theorem foldl_insert_perm (fs : Files) (m : ByHash)
    (hnodup : (fs.map HashOf).Nodup) (hm : ∀ e ∈ m, ∀ f ∈ fs, e.1 ≠ HashOf f) :
    (fs.foldl (fun m f => m.insert f.2.extrinsicHash f) m).Perm
      (m ++ fs.map (fun f => (HashOf f, f))) := by
  induction fs generalizing m with
  | nil => simp
  | cons f fs ih =>
    have hinsert : m.insert f.2.extrinsicHash f = (HashOf f, f) :: m := by
      have hfilter : m.filter (fun e => decide (e.1 ≠ HashOf f)) = m :=
        List.filter_eq_self.mpr (fun e he => decide_eq_true (hm e he f List.mem_cons_self))
      exact congrArg (List.cons (HashOf f, f)) hfilter
    rw [List.map_cons, List.nodup_cons] at hnodup
    rw [List.foldl_cons, hinsert]
    refine (ih _ hnodup.2 ?_).trans ?_
    · intro e he g hg
      rcases List.mem_cons.mp he with rfl | he
      · exact fun heq => hnodup.1 (List.mem_map.mpr ⟨g, hg, heq.symm⟩)
      · exact hm e he g (List.mem_cons_of_mem _ hg)
    · rw [List.map_cons]
      exact List.perm_middle.symm

theorem loadByHash_perm {st : Store} (h : StoreOk p st) (address : String) :
    (loadByHash p st address).Perm ((files p st address).map (fun f => (HashOf f, f))) := by
  have hload := loadSnapshots_perm (p := p) st address
  have hnodup := (hload.map HashOf).nodup_iff.mpr (h.files address).nodup
  exact (foldl_insert_perm _ [] hnodup (by simp)).trans (hload.map _)

/-- The merged view `s.perAddress` and the store `cst` that committing what is
staged so far gives, after the entries with these keys. -/
structure Merging (p : Provider) (st : Store) (keys : List (String × String)) (s : Staging)
    (cst : Store) : Prop where
  commit : commitStaged p st s.staged = (cst, .ok ())
  markers : MarkersOk p cst
  named : ∀ a, ∀ f ∈ files p cst a, f.1.extrinsicHash = f.2.extrinsicHash
  hex : ∀ a, ∀ f ∈ files p cst a, Hex.isLowercaseHex 64 f.2.extrinsicHash = true
  nodup : ∀ a, ((files p cst a).map HashOf).Nodup
  merged : ∀ a, ((s.perAddress a).map (fun e => (e.1, e.2.2))).Perm
    ((files p cst a).map (fun f => (HashOf f, f.2)))
  paths : ∀ a, ∀ e ∈ s.perAddress a, (a, e.1) ∉ keys → e.2 ∈ files p cst a
  unmet : ∀ a f, (a, HashOf f) ∉ keys → (f ∈ files p cst a ↔ f ∈ files p st a)
  keeps : ∀ a, Keeps (files p st a) (files p cst a)
  untouched : ∀ a, a ∉ keys.map Prod.fst → files p cst a = files p st a

theorem Merging.init {st : Store} (h : StoreOk p st) :
    Merging p st [] ⟨loadByHash p st, [], ⟨0, 0, 0⟩⟩ st where
  commit := rfl
  markers := h.markers
  named a := (h.files a).named
  hex a := (h.files a).hex
  nodup a := (h.files a).nodup
  merged a := by
    have hmap := (loadByHash_perm h a).map (fun e => (e.1, e.2.2))
    rwa [List.map_map] at hmap
  paths a e he _ := by
    obtain ⟨f, hf, rfl⟩ := List.mem_map.mp ((loadByHash_perm h a).mem_iff.mp he)
    exact hf
  unmet _ _ _ := Iff.rfl
  keeps a := Keeps.refl (h.files a).nodup
  untouched _ _ := rfl

/-- An entry of the merged view is a file of the store, by its hash. -/
theorem Merging.mem_view {st cst : Store} {keys : List (String × String)} {s : Staging}
    (h : Merging p st keys s cst) {a : String} {e : String × FileName × Snapshot}
    (he : e ∈ s.perAddress a) : ∃ f ∈ files p cst a, HashOf f = e.1 ∧ f.2 = e.2.2 := by
  have hmem := (h.merged a).mem_iff.mp (List.mem_map_of_mem (f := fun e => (e.1, e.2.2)) he)
  obtain ⟨f, hf, heq⟩ := List.mem_map.mp hmem
  exact ⟨f, hf, (Prod.mk.inj heq).1, (Prod.mk.inj heq).2⟩

/-- The merged view finds every file whose hash the payload has not named yet. -/
theorem Merging.get_of_mem {st cst : Store} {keys : List (String × String)} {s : Staging}
    (h : Merging p st keys s cst) {a : String} {f : FileName × Snapshot}
    (hf : f ∈ files p cst a) (hkey : (a, HashOf f) ∉ keys) :
    (s.perAddress a).get (HashOf f) = some f := by
  cases hget : (s.perAddress a).get (HashOf f) with
  | none =>
    have hmem := (h.merged a).mem_iff.mpr
      (List.mem_map_of_mem (f := fun f => (HashOf f, f.2)) hf)
    obtain ⟨e, he, heq⟩ := List.mem_map.mp hmem
    exact absurd (Prod.mk.inj heq).1 (ByHash.ne_of_get_none hget e he)
  | some v =>
    have hmem := ByHash.mem_of_get hget
    have hv : v ∈ files p cst a := h.paths a _ hmem hkey
    have hvh : HashOf v = HashOf f := by
      obtain ⟨g, hg, hgh, hgs⟩ := h.mem_view hmem
      rw [HashOf, ← hgs]
      exact hgh
    rw [eq_of_hash (h.nodup a) hv hf hvh]

theorem commitStaged_append (st : Store) (xs : List Staged) (y : Staged) :
    commitStaged p st (xs ++ [y]) =
      match commitStaged p st xs with
      | (st, .error e) => (st, .error e)
      | (st, .ok ()) => commitStaged p st [y] := by
  induction xs generalizing st with
  | nil => rfl
  | cons x xs ih =>
    obtain ⟨entry, target⟩ := x
    simp only [List.cons_append, commitStaged]
    cases hm : ensureAddressMarker p st entry.address with
    | mk st' r =>
      cases r with
      | error e => rfl
      | ok u =>
        cases target with
        | none => exact ih st'
        | some path => exact ih _

/-- What a staged entry is written to is free for it. -/
theorem Merging.target {st cst : Store} {keys : List (String × String)} {s : Staging}
    (h : Merging p st keys s cst) (nanos : ℕ) (entry : ExportEntry)
    (hkey : (entry.address, entry.snapshot.extrinsicHash) ∉ keys) :
    Target (files p cst entry.address)
      (((s.perAddress entry.address).get entry.snapshot.extrinsicHash).elim
        ⟨nanos, entry.snapshot.extrinsicHash⟩ Prod.fst) entry.snapshot := by
  cases hget : (s.perAddress entry.address).get entry.snapshot.extrinsicHash with
  | none =>
    refine ⟨rfl, fun f hf hhash => ?_⟩
    have hfound := h.get_of_mem hf (hhash ▸ hkey)
    rw [hhash, hget] at hfound
    cases hfound
  | some v =>
    have hmem := ByHash.mem_of_get hget
    have hv : v ∈ files p cst entry.address := h.paths _ _ hmem hkey
    obtain ⟨g, hg, hgh, hgs⟩ := h.mem_view hmem
    have hvh : HashOf v = entry.snapshot.extrinsicHash := by
      rw [HashOf, ← hgs]
      exact hgh
    refine ⟨(h.named _ v hv).trans hvh, fun f hf hhash => ?_⟩
    rw [eq_of_hash (h.nodup _) hf hv (hhash.trans hvh.symm)]
    rfl

/-- An admitted entry does not undo a confirmation: over an existing snapshot
only an overwrite is admitted, and that one checks the status. -/
theorem Merging.admitted_confirmed {st cst : Store} {keys : List (String × String)} {s : Staging}
    (h : Merging p st keys s cst) (conflict : ConflictStrategy) (entry : ExportEntry)
    (label : String) (result : ImportResult)
    (hkey : (entry.address, entry.snapshot.extrinsicHash) ∉ keys)
    (hguard : ¬ (conflict = .overwrite ∧
      ((s.perAddress entry.address).get entry.snapshot.extrinsicHash).any
        (fun e => decide (e.2.status = .confirmed)) = true ∧ entry.snapshot.status = .pending))
    (hadmitted : s.result.admitEntry ((s.perAddress entry.address).get
      entry.snapshot.extrinsicHash).isSome conflict label = .ok (result, true)) :
    ∀ f ∈ files p cst entry.address, HashOf f = entry.snapshot.extrinsicHash →
      f.2.status = .confirmed → entry.snapshot.status = .confirmed := by
  intro f hf hhash hconf
  have hget := h.get_of_mem hf (hhash ▸ hkey)
  rw [hhash] at hget
  rw [hget] at hguard hadmitted
  have hover : conflict = .overwrite := by
    cases conflict <;> simp [ImportResult.admitEntry] at hadmitted ⊢
  cases hstatus : entry.snapshot.status with
  | confirmed => rfl
  | pending => exact absurd ⟨hover, by simpa using hconf, hstatus⟩ hguard

/-- Writing an entry to both sides keeps them in step. -/
theorem Merging.write {st cst cst' : Store} {keys : List (String × String)} {s : Staging}
    (h : Merging p st keys s cst) (entry : ExportEntry) (name : FileName)
    (result : ImportResult) (hhex : Hex.isLowercaseHex 64 entry.snapshot.extrinsicHash = true)
    (hkey : (entry.address, entry.snapshot.extrinsicHash) ∉ keys)
    (htarget : Target (files p cst entry.address) name entry.snapshot)
    (hconf : ∀ f ∈ files p cst entry.address, HashOf f = entry.snapshot.extrinsicHash →
      f.2.status = .confirmed → entry.snapshot.status = .confirmed)
    (hcommit : commitStaged p st (s.staged ++ [(entry, some name)]) = (cst', .ok ()))
    (hm : MarkersOk p cst')
    (hput : files p cst' entry.address = putFile (files p cst entry.address) name entry.snapshot)
    (hother : ∀ a, a ≠ entry.address → files p cst' a = files p cst a) :
    Merging p st ((entry.address, entry.snapshot.extrinsicHash) :: keys)
      ⟨Function.update s.perAddress entry.address
        ((s.perAddress entry.address).insert entry.snapshot.extrinsicHash
          (FileName.blank, entry.snapshot)), s.staged ++ [(entry, some name)], result⟩ cst' := by
  -- A fact about the files of each address is one about the written files and
  -- one about the others.
  have hsplit : ∀ P : String → Files → Prop,
      P entry.address (putFile (files p cst entry.address) name entry.snapshot) →
      (∀ a, P a (files p cst a)) → ∀ a, P a (files p cst' a) := by
    intro P hP hQ a
    by_cases ha : a = entry.address
    · rw [ha, hput]
      exact hP
    · rw [hother a ha]
      exact hQ a
  refine ⟨hcommit, hm, ?_, ?_, ?_, ?_, ?_, ?_, ?_, ?_⟩
  · refine hsplit (fun _ fs => ∀ f ∈ fs, f.1.extrinsicHash = f.2.extrinsicHash) ?_ h.named
    intro f hf
    rcases mem_putFile hf with rfl | ⟨hf, _⟩
    · exact htarget.1
    · exact h.named _ f hf
  · refine hsplit (fun _ fs => ∀ f ∈ fs, Hex.isLowercaseHex 64 f.2.extrinsicHash = true) ?_ h.hex
    intro f hf
    rcases mem_putFile hf with rfl | ⟨hf, _⟩
    · exact hhex
    · exact h.hex _ f hf
  · refine hsplit (fun _ fs => (fs.map HashOf).Nodup) ?_ h.nodup
    refine List.nodup_cons.mpr ⟨?_, (h.nodup entry.address).sublist
      (List.filter_sublist.map HashOf)⟩
    intro hmem
    obtain ⟨f, hf, hhash⟩ := List.mem_map.mp hmem
    exact (of_decide_eq_true (List.mem_filter.mp hf).2 : HashOf f ≠ _) hhash
  · intro a
    by_cases ha : a = entry.address
    · subst ha
      rw [hput]
      simp only [Function.update_self]
      refine List.Perm.cons _ ?_
      have hfilter := (h.merged entry.address).filter
        (fun e => decide (e.1 ≠ entry.snapshot.extrinsicHash))
      rw [List.filter_map, List.filter_map] at hfilter
      exact hfilter
    · rw [hother a ha]
      simp only [Function.update_of_ne ha]
      exact h.merged a
  · intro a e he hk
    obtain ⟨hne, hk⟩ := not_or.mp (List.mem_cons.not.mp hk)
    by_cases ha : a = entry.address
    · subst ha
      rw [hput]
      simp only [Function.update_self] at he
      rcases List.mem_cons.mp he with rfl | he
      · exact absurd rfl hne
      · obtain ⟨he, heh⟩ := List.mem_filter.mp he
        have hmem := h.paths entry.address e he hk
        obtain ⟨f, hf, hfh, hfs⟩ := h.mem_view he
        have hhash : HashOf e.2 = e.1 := by
          rw [HashOf, ← hfs]
          exact hfh
        refine List.mem_cons_of_mem _ (List.mem_filter.mpr ⟨hmem, ?_⟩)
        rw [hhash]
        exact heh
    · rw [hother a ha]
      simp only [Function.update_of_ne ha] at he
      exact h.paths a e he hk
  · intro a f hk
    obtain ⟨hne, hk⟩ := not_or.mp (List.mem_cons.not.mp hk)
    rw [← h.unmet a f hk]
    by_cases ha : a = entry.address
    · subst ha
      have hfh : HashOf f ≠ entry.snapshot.extrinsicHash := fun he => hne (by rw [he])
      rw [hput]
      constructor
      · intro hf
        rcases mem_putFile hf with rfl | ⟨hf, _⟩
        · exact absurd rfl hfh
        · exact hf
      · exact fun hf => List.mem_cons_of_mem _ (List.mem_filter.mpr ⟨hf, decide_eq_true hfh⟩)
    · rw [hother a ha]
  · refine hsplit (fun a fs => Keeps (files p st a) fs) ?_ h.keeps
    intro f hf hfconf f' hf' hhash
    rcases mem_putFile hf' with rfl | ⟨hf', _⟩
    · have hfk : (entry.address, HashOf f) ∉ keys := hhash ▸ hkey
      exact hconf f ((h.unmet _ f hfk).mpr hf) hhash.symm hfconf
    · exact h.keeps _ f hf hfconf f' hf' hhash
  · intro a ha
    obtain ⟨hne, ha⟩ := not_or.mp (List.mem_cons.not.mp ha)
    rw [hother a hne]
    exact h.untouched a ha

/-- Staging one entry keeps the merged view and the store in step. -/
theorem Merging.stage {st cst : Store} {keys : List (String × String)} {s s' : Staging}
    (h : Merging p st keys s cst) (conflict : ConflictStrategy) (nanos : ℕ) (entry : ExportEntry)
    (ht : Trimmed entry.address)
    (hhex : Hex.isLowercaseHex 64 entry.snapshot.extrinsicHash = true)
    (hkey : (entry.address, entry.snapshot.extrinsicHash) ∉ keys)
    (hstage : stageEntry conflict nanos s entry = .ok s') :
    ∃ cst', Merging p st ((entry.address, entry.snapshot.extrinsicHash) :: keys) s' cst' := by
  obtain ⟨mst, hmarker, hm', hsome, hfiles⟩ := ensureAddressMarker_spec h.markers entry.address ht
  unfold stageEntry at hstage
  simp only at hstage
  split at hstage
  · cases hstage
  rename_i hguard
  split at hstage
  · cases hstage
  · -- Skipped: only the marker is written.
    obtain rfl := Except.ok.inj hstage
    refine ⟨mst, ?_, hm', ?_, ?_, ?_, ?_, ?_, ?_, ?_, ?_⟩
    · rw [commitStaged_append, h.commit]
      simp only [commitStaged, hmarker]
    · exact fun a => (hfiles a).symm ▸ h.named a
    · exact fun a => (hfiles a).symm ▸ h.hex a
    · exact fun a => (hfiles a).symm ▸ h.nodup a
    · exact fun a => (hfiles a).symm ▸ h.merged a
    · exact fun a e he hk => (hfiles a).symm ▸
        h.paths a e he (fun hmem => hk (List.mem_cons_of_mem _ hmem))
    · exact fun a f hk => (hfiles a).symm ▸
        h.unmet a f (fun hmem => hk (List.mem_cons_of_mem _ hmem))
    · exact fun a => (hfiles a).symm ▸ h.keeps a
    · exact fun a ha => (hfiles a).symm ▸
        h.untouched a (fun hmem => ha (List.mem_cons_of_mem _ hmem))
  · rename_i result hadmitted
    obtain rfl := Except.ok.inj hstage
    have htarget := h.target nanos entry hkey
    have hconf := h.admitted_confirmed conflict entry _ result hkey hguard hadmitted
    revert htarget
    generalize (((s.perAddress entry.address).get entry.snapshot.extrinsicHash).elim
      (⟨nanos, entry.snapshot.extrinsicHash⟩ : FileName) Prod.fst) = name
    intro htarget
    have hput : files p (updateDir p mst entry.address
        (fun dir => dir.write name entry.snapshot)) entry.address =
          putFile (files p cst entry.address) name entry.snapshot := by
      rw [← hfiles entry.address] at htarget ⊢
      exact files_write hsome name entry.snapshot
        (hfiles entry.address ▸ h.named entry.address) htarget
    have hother : ∀ a, a ≠ entry.address → files p (updateDir p mst entry.address
        (fun dir => dir.write name entry.snapshot)) a = files p cst a := fun a ha => by
      rw [files_updateDir_other mst entry.address a _ ha, hfiles a]
    refine ⟨_, h.write entry name result hhex hkey htarget hconf ?_
      (markersOk_updateDir hm' entry.address (fun dir => dir.write name entry.snapshot)
        (fun _ => rfl)) hput hother⟩
    rw [commitStaged_append, h.commit]
    simp only [commitStaged, hmarker]

theorem Merging.stageAll {st : Store} (conflict : ConflictStrategy) (clock : ℕ → ℕ)
    (entries : List ExportEntry) {keys : List (String × String)} {s s' : Staging} {cst : Store}
    (h : Merging p st keys s cst) (ht : ∀ entry ∈ entries, Trimmed entry.address)
    (hhex : ∀ entry ∈ entries, Hex.isLowercaseHex 64 entry.snapshot.extrinsicHash = true)
    (hdup : rejectDuplicates keys entries = .ok ())
    (hstage : stageEntries conflict clock s entries = .ok s') :
    ∃ keys' cst', Merging p st keys' s' cst' ∧
      ∀ a, a ∉ keys.map Prod.fst → a ∉ entries.map ExportEntry.address →
        a ∉ keys'.map Prod.fst := by
  induction entries generalizing keys s cst with
  | nil =>
    obtain rfl := Except.ok.inj hstage
    exact ⟨keys, cst, h, fun a ha _ => ha⟩
  | cons entry entries ih =>
    unfold rejectDuplicates at hdup
    simp only at hdup
    split at hdup
    · cases hdup
    rename_i hkey
    unfold stageEntries at hstage
    cases hone : stageEntry conflict (clock s.staged.length) s entry with
    | error e => rw [hone] at hstage; cases hstage
    | ok s1 =>
      rw [hone] at hstage
      obtain ⟨cst1, h1⟩ := h.stage conflict _ entry (ht entry List.mem_cons_self)
        (hhex entry List.mem_cons_self) hkey hone
      obtain ⟨keys', cst', h', hkeys⟩ := ih h1
        (fun e he => ht e (List.mem_cons_of_mem _ he))
        (fun e he => hhex e (List.mem_cons_of_mem _ he)) hdup hstage
      refine ⟨keys', cst', h', fun a ha hae => ?_⟩
      rw [List.map_cons, List.mem_cons, not_or] at hae
      refine hkeys a ?_ hae.2
      rw [List.map_cons, List.mem_cons, not_or]
      exact ⟨hae.1, ha⟩

theorem checkMerged_ok {perAddress : String → ByHash} {addresses : List String}
    (h : checkMerged perAddress addresses = .ok ()) :
    ∀ a ∈ addresses, ∃ o, findLeaf ((perAddress a).map (fun e => e.2.2)) = .ok o := by
  induction addresses with
  | nil => simp
  | cons b addresses ih =>
    unfold checkMerged at h
    cases hleaf : findLeaf ((perAddress b).map (fun e => e.2.2)) with
    | error e => rw [hleaf] at h; cases h
    | ok o =>
      rw [hleaf] at h
      intro a ha
      rcases List.mem_cons.mp ha with rfl | ha
      · exact ⟨o, hleaf⟩
      · exact ih h a ha

theorem validateEntry_ok {entry : ExportEntry} (h : validateEntry entry = .ok ()) :
    Hex.isLowercaseHex 64 entry.snapshot.extrinsicHash = true := by
  by_contra hne
  simp [validateEntry, validateHashField, hne, bind, Except.bind] at h

theorem forM_validate_ok {entries : List ExportEntry}
    (h : entries.forM validateEntry = .ok ()) :
    ∀ entry ∈ entries, Hex.isLowercaseHex 64 entry.snapshot.extrinsicHash = true := by
  induction entries with
  | nil => simp
  | cons e entries ih =>
    change (validateEntry e >>= fun _ => entries.forM validateEntry) = .ok () at h
    cases hv : validateEntry e with
    | error err => rw [hv] at h; cases h
    | ok u =>
      rw [hv] at h
      intro entry hentry
      rcases List.mem_cons.mp hentry with rfl | hentry
      · exact validateEntry_ok hv
      · exact ih h entry hentry

/-- The merged view that the check accepts is what the commit leaves. -/
theorem Merging.preserves {st cst : Store} (hst : StoreOk p st) {keys : List (String × String)}
    {s : Staging} (h : Merging p st keys s cst)
    (hleaf : ∀ a ∈ keys.map Prod.fst, ∃ o,
      findLeaf ((s.perAddress a).map (fun e => e.2.2)) = .ok o) : Preserves p st cst := by
  refine ⟨⟨h.markers, fun a => ?_⟩, h.keeps⟩
  by_cases ha : a ∈ keys.map Prod.fst
  · obtain ⟨o, ho⟩ := hleaf a ha
    have hperm : ((s.perAddress a).map (fun e => e.2.2)).Perm
        ((files p cst a).map Prod.snd) := by
      have hmap := (h.merged a).map Prod.snd
      rwa [List.map_map, List.map_map] at hmap
    have hnodup : ((s.perAddress a).map (fun e => e.2.2)).map Snapshot.extrinsicHash |>.Nodup := by
      refine (hperm.map Snapshot.extrinsicHash).nodup_iff.mpr ?_
      rw [List.map_map]
      exact h.nodup a
    obtain ⟨chain, hchain⟩ := findLeaf_ok _ o hnodup ho
    exact ⟨h.named a, h.hex a, chain, isChain_of_perm hchain hperm⟩
  · rw [h.untouched a ha]
    exact hst.files a

theorem importPrivateStates_preserves {st : Store} (h : StoreOk p st) (codec : Codec)
    (clock : ℕ → ℕ) (data : EncryptedExport) (opts : ImportOptions)
    (haddr : (Op.importPrivateStates clock data opts).Addressed codec) :
    Preserves p st (importPrivateStates p codec clock st data opts).1 := by
  unfold importPrivateStates
  cases hopen : openExport codec formatStates data opts with
  | error e => exact Preserves.refl h
  | ok entries =>
    have ht := haddr entries hopen
    simp only [applyImportEntries]
    cases hvalid : entries.forM validateEntry with
    | error e => exact Preserves.refl h
    | ok u =>
    cases hdup : rejectDuplicates [] entries with
    | error e => exact Preserves.refl h
    | ok u =>
    cases hstage : stageEntries opts.conflict clock ⟨loadByHash p st, [], ⟨0, 0, 0⟩⟩ entries with
    | error e => exact Preserves.refl h
    | ok s =>
    simp only
    cases hcheck : checkMerged s.perAddress (entries.map ExportEntry.address).dedup with
    | error e => exact Preserves.refl h
    | ok u =>
      obtain ⟨keys, cst, hmerge, hkeys⟩ := Merging.stageAll opts.conflict clock entries
        (Merging.init h) ht (forM_validate_ok hvalid) hdup hstage
      have hpres : Preserves p st cst := by
        refine hmerge.preserves h fun a ha => checkMerged_ok hcheck a ?_
        rw [List.mem_dedup]
        by_contra hne
        exact hkeys a (by simp) hne ha
      simp only [hmerge.commit]
      exact hpres

end Merge

section Journals
variable {p : Provider}

/-- Every call keeps the chains and the confirmations. -/
theorem apply_preserves {st : Store} (h : StoreOk p st) (codec : Codec) (op : Op)
    (haddr : op.Addressed codec) : Preserves p st (op.apply p codec st) := by
  cases op with
  | appendPending nanos address ext dependsOn state =>
    exact (appendPending_spec h nanos address haddr ext dependsOn state).1
  | confirm address ext blockHeight blockHash =>
    exact confirm_preserves h address ext blockHeight blockHash
  | markFailed address ext => exact cascadeDrop_preserves h address ext.hex
  | rollbackFrom address ext => exact cascadeDrop_preserves h address ext.hex
  | forget address => exact forget_preserves h address
  | importPrivateStates clock data opts =>
    exact importPrivateStates_preserves h codec clock data opts haddr

theorem run_storeOk {st st' : Store} (codec : Codec) {ops : List Op}
    (hrun : Run (Step p codec) st ops st') (h : StoreOk p st) : StoreOk p st' := by
  refine hrun.invariant (StoreOk p) ?_ h
  rintro s op _ ⟨haddr, rfl⟩ hok
  exact (apply_preserves hok codec op haddr).ok

/-- A snapshot that stays in the journal through a run. -/
def StepWith (p : Provider) (codec : Codec) (address hash : String) (st : Store) (op : Op)
    (st' : Store) : Prop :=
  Step p codec st op st' ∧ ∃ s ∈ snapshots p st' address, s.extrinsicHash = hash

/-- The snapshot of a hash in a journal is confirmed. -/
def ConfirmedAt (p : Provider) (st : Store) (address hash : String) : Prop :=
  ∃ s ∈ snapshots p st address, s.extrinsicHash = hash ∧ s.status = .confirmed

theorem confirmedAt_step {st st' : Store} (codec : Codec) (op : Op) (address hash : String)
    (hok : StoreOk p st) (h : ConfirmedAt p st address hash)
    (hstep : StepWith p codec address hash st op st') : ConfirmedAt p st' address hash := by
  obtain ⟨s, hs, hhash, hconf⟩ := h
  obtain ⟨hst, s', hs', hhash'⟩ := hstep
  obtain ⟨f, hf, rfl⟩ := List.mem_map.mp ((snapshots_perm st address).mem_iff.mp hs)
  obtain ⟨f', hf', rfl⟩ := List.mem_map.mp ((snapshots_perm st' address).mem_iff.mp hs')
  have hkeeps : Keeps (files p st address) (files p st' address) :=
    hst.2 ▸ (apply_preserves hok codec op hst.1).keeps address
  exact ⟨f'.2, hs', hhash', hkeeps f hf hconf f' hf' (hhash'.trans hhash.symm)⟩

theorem confirmedAt_run {st st' : Store} (codec : Codec) (address hash : String) {ops : List Op}
    (hrun : Run (StepWith p codec address hash) st ops st') (hok : StoreOk p st)
    (h : ConfirmedAt p st address hash) : ConfirmedAt p st' address hash := by
  refine (hrun.invariant (fun st => StoreOk p st ∧ ConfirmedAt p st address hash)
    ?_ ⟨hok, h⟩).2
  rintro s op s' hstep ⟨hs, hconf⟩
  refine ⟨?_, confirmedAt_step codec op address hash hs hconf hstep⟩
  rw [hstep.1.2]
  exact (apply_preserves hs codec op hstep.1.1).ok

/-- The head call returns the newest snapshot of the chain. -/
theorem headWithExtrinsic_eq {st : Store} (h : StoreOk p st) (address : String)
    {chain : List Snapshot} (hchain : IsChain Snapshot.links (snapshots p st address) chain) :
    ∃ head, headWithExtrinsic p st address = .ok head ∧
      head.map Prod.fst = chain.head?.map Snapshot.data ∧
      head.map (fun r => r.2.hex) = chain.head?.map Snapshot.extrinsicHash := by
  unfold headWithExtrinsic headSnapshot
  rw [findLeaf_of_isChain _ _ hchain]
  cases hhead : chain.head? with
  | none => exact ⟨none, rfl, rfl, rfl⟩
  | some s =>
    have hs : s ∈ snapshots p st address := hchain.perm.mem_iff.mp (List.mem_of_mem_head? hhead)
    obtain ⟨f, hf, rfl⟩ := List.mem_map.mp ((snapshots_perm st address).mem_iff.mp hs)
    obtain ⟨bytes, hlength, hbytes⟩ := Hex.exists_encode 32 _ ((h.files address).hex f hf)
    have hparse : parseHash f.2.extrinsicHash = .ok ⟨bytes, hlength⟩ := by
      unfold parseHash
      rw [← hbytes, Hex.decode_encode]
      simp only [hlength, dif_pos]
    simp only [hparse]
    exact ⟨_, rfl, rfl, congrArg some hbytes⟩

theorem Hash32.hex_injective : Function.Injective Hash32.hex :=
  fun _ _ h => Subtype.ext (Hex.encode_injective h)

theorem StoreOk.nodup {st : Store} (h : StoreOk p st) (address : String) :
    ((snapshots p st address).map Snapshot.extrinsicHash).Nodup := by
  obtain ⟨chain, hchain⟩ := h.isChain address
  exact (hchain.perm.map Snapshot.extrinsicHash).nodup_iff.mp hchain.nodup

/-- The graph of a chain: one root, one child each, no parent missing. -/
theorem isChain_shape {snaps chain : List Snapshot} (h : IsChain Snapshot.links snaps chain) :
    (snaps ≠ [] → ∃! root, root ∈ snaps ∧ root.dependsOn = none) ∧
    (∀ a ∈ snaps, ∀ b ∈ snaps, ∀ parent,
      a.dependsOn = some parent → b.dependsOn = some parent → a = b) ∧
    (∀ s ∈ snaps, ∀ parent, s.dependsOn = some parent →
      ∃ q ∈ snaps, q.extrinsicHash = parent) := by
  have hmem : ∀ s, s ∈ snaps → s ∈ chain := fun s hs => h.perm.mem_iff.mpr hs
  refine ⟨fun hne => ?_, ?_, ?_⟩
  · have hchain : chain ≠ [] := by
      rintro rfl
      exact hne h.perm.symm.eq_nil
    obtain ⟨root, hroot, hnone⟩ := h.linked.exists_root hchain
    refine ⟨root, ⟨h.perm.mem_iff.mp hroot, hnone⟩, ?_⟩
    rintro other ⟨hother, hnone'⟩
    exact h.linked.root_unique (hmem other hother) hroot hnone' hnone
  · intro a ha b hb parent hap hbp
    exact h.linked.parent_inj h.nodup (hmem a ha) (hmem b hb) hap hbp
  · intro s hs parent hp
    obtain ⟨q, hq, hkey⟩ := List.mem_map.mp (h.linked.rooted.parent_mem (hmem s hs) hp)
    exact ⟨q, h.perm.mem_iff.mp hq, hkey⟩

theorem appendable_iff {st : Store} (h : StoreOk p st) (address : String) (ext : Hash32)
    (dependsOn : Option Hash32) :
    Appendable p st address ext dependsOn ↔
      (∀ s ∈ snapshots p st address, s.extrinsicHash ≠ ext.hex) ∧
        ∃ head, headWithExtrinsic p st address = .ok head ∧ head.map Prod.snd = dependsOn := by
  refine and_congr_right fun _ => ?_
  obtain ⟨chain, hchain⟩ := h.isChain address
  obtain ⟨head, hhead, _, hhex⟩ := headWithExtrinsic_eq h address hchain
  have hmap : head.map (fun r => r.2.hex) = (head.map Prod.snd).map Hash32.hex := by
    rw [Option.map_map]
    rfl
  rw [hmap] at hhex
  constructor
  · rintro ⟨chain', hchain', hparent⟩
    rw [isChain_head_unique hchain' hchain, ← hhex] at hparent
    exact ⟨head, hhead, Option.map_injective Hash32.hex_injective hparent⟩
  · rintro ⟨head', hhead', rfl⟩
    obtain rfl := Except.ok.inj (hhead.symm.trans hhead')
    exact ⟨chain, hchain, hhex.symm⟩

/-- After any run of calls from an empty store, each journal is one chain whose
end the head call returns, an append succeeds exactly on a new hash over the
head, and a confirmed snapshot stays confirmed while it stays in its journal. -/
theorem journal_single_chain (p : Provider) (codec : Codec) (ops : List Op) (st : Store)
    (hrun : Run (Step p codec) Store.empty ops st) :
    (∀ address,
      ((snapshots p st address).map Snapshot.extrinsicHash).Nodup ∧
      (snapshots p st address ≠ [] →
        ∃! root, root ∈ snapshots p st address ∧ root.dependsOn = none) ∧
      (∀ a ∈ snapshots p st address, ∀ b ∈ snapshots p st address, ∀ parent,
        a.dependsOn = some parent → b.dependsOn = some parent → a = b) ∧
      (∀ s ∈ snapshots p st address, ∀ parent, s.dependsOn = some parent →
        ∃ q ∈ snapshots p st address, q.extrinsicHash = parent) ∧
      ∃ chain head, IsChain Snapshot.links (snapshots p st address) chain ∧
        headWithExtrinsic p st address = .ok head ∧
        head.map Prod.fst = chain.head?.map Snapshot.data ∧
        head.map (fun r => r.2.hex) = chain.head?.map Snapshot.extrinsicHash) ∧
    (∀ nanos address ext dependsOn state, Trimmed address →
      ((appendPending p nanos st address ext dependsOn state).2 = .ok () ↔
        (∀ s ∈ snapshots p st address, s.extrinsicHash ≠ ext.hex) ∧
          ∃ head, headWithExtrinsic p st address = .ok head ∧ head.map Prod.snd = dependsOn)) ∧
    (∀ address hash ops' st', ConfirmedAt p st address hash →
      Run (StepWith p codec address hash) st ops' st' →
      ∀ s ∈ snapshots p st' address, s.extrinsicHash = hash → s.status = .confirmed) := by
  have hok : StoreOk p st := run_storeOk codec hrun StoreOk.empty
  refine ⟨fun address => ?_, ?_, ?_⟩
  · obtain ⟨chain, hchain⟩ := hok.isChain address
    obtain ⟨hroot, hchild, hpresent⟩ := isChain_shape hchain
    obtain ⟨head, hhead⟩ := headWithExtrinsic_eq hok address hchain
    exact ⟨hok.nodup address, hroot, hchild, hpresent, chain, head, hchain, hhead⟩
  · intro nanos address ext dependsOn state ht
    exact (appendPending_spec hok nanos address ht ext dependsOn state).2.trans
      (appendable_iff hok address ext dependsOn)
  · intro address hash ops' st' hconf hrun' s hs hhash
    have hok' : StoreOk p st' := by
      refine hrun'.invariant (StoreOk p) ?_ hok
      rintro s op s' ⟨⟨haddr, rfl⟩, _⟩ hs
      exact (apply_preserves hs codec op haddr).ok
    obtain ⟨t, ht, hth, htc⟩ := confirmedAt_run codec address hash hrun' hok hconf
    have heq := key_injOn (L := Snapshot.links) (hok'.nodup address) hs ht (hhash.trans hth.symm)
    exact heq ▸ htc

end Journals

section Samples

def plainProvider : Provider := ⟨"states", id, Function.injective_id⟩

def firstHash : Hash32 := ⟨List.replicate 32 1, rfl⟩

def secondHash : Hash32 := ⟨List.replicate 32 2, rfl⟩

def firstSnapshot : Snapshot := pendingSnapshot firstHash none [5]

def secondSnapshot : Snapshot := pendingSnapshot secondHash (some firstHash) [6]

def confirmedSnapshot : Snapshot :=
  { firstSnapshot with
    status := .confirmed, blockHeight := some 3, blockHash := some secondHash.hex }

/-- Two appends, and the first of them confirmed. -/
def confirmedOps : List Op :=
  [.appendPending 7 "0200aa" firstHash none [5],
    .appendPending 8 "0200aa" secondHash (some firstHash) [6],
    .confirm "0200aa" firstHash (some 3) secondHash]

/-- A store with the one journal. -/
def journalOf (files : Files) : Store :=
  Function.update Store.empty "0200aa" (some ⟨some "0200aa", files⟩)

theorem journalOf_self (files : Files) :
    journalOf files (plainProvider.hashedName "0200aa") = some ⟨some "0200aa", files⟩ :=
  Function.update_self _ _ _

theorem updateDir_journalOf (files : Files) (name : FileName) (snap : Snapshot) :
    updateDir plainProvider (journalOf files) "0200aa" (fun dir => dir.write name snap) =
      journalOf ((name, snap) :: files.filter (fun f => decide (f.1 ≠ name))) := by
  unfold updateDir
  rw [journalOf_self]
  exact Function.update_idem _ _ _

theorem loadSnapshots_journalOf (files : Files) :
    loadSnapshots plainProvider (journalOf files) "0200aa" =
      files.mergeSort (fun a b => a.1.le b.1) := by
  unfold loadSnapshots
  rw [journalOf_self]

def firstFiles : Files := [(⟨7, firstHash.hex⟩, firstSnapshot)]

def bothFiles : Files := (⟨8, secondHash.hex⟩, secondSnapshot) :: firstFiles

def confirmedFiles : Files :=
  [(⟨7, firstHash.hex⟩, confirmedSnapshot), (⟨8, secondHash.hex⟩, secondSnapshot)]

theorem ensureAddressMarker_empty :
    ensureAddressMarker plainProvider Store.empty "0200aa" = (journalOf [], .ok ()) := rfl

theorem ensureAddressMarker_journalOf (files : Files) :
    ensureAddressMarker plainProvider (journalOf files) "0200aa" = (journalOf files, .ok ()) := by
  have ht : trim "0200aa" = "0200aa" := by decide
  unfold ensureAddressMarker
  rw [journalOf_self]
  simp only [Option.getD_some, ht, ne_eq, not_true_eq_false, if_false]
  exact congrArg (·, Except.ok ()) (Function.update_idem _ _ _)

theorem appendPending_first :
    (appendPending plainProvider 7 Store.empty "0200aa" firstHash none [5]).1 =
      journalOf firstFiles := by
  unfold appendPending
  simp only [ensureAddressMarker_empty, findSnapshotPath, headSnapshot, snapshots,
    loadSnapshots_journalOf, List.mergeSort_nil, List.find?_nil, Option.map_none,
    Option.isSome_none, List.map_nil, findLeaf_nil]
  exact updateDir_journalOf [] _ _

theorem findLeaf_first : findLeaf [firstSnapshot] = .ok (some firstSnapshot) :=
  findLeaf_of_isChain _ [firstSnapshot] ⟨.refl _, List.nodup_singleton _, rfl, trivial⟩

theorem appendPending_second :
    (appendPending plainProvider 8 (journalOf firstFiles) "0200aa" secondHash (some firstHash)
      [6]).1 = journalOf bothFiles := by
  have hload : loadSnapshots plainProvider (journalOf firstFiles) "0200aa" = firstFiles := by
    rw [loadSnapshots_journalOf]
    simp [firstFiles]
  have hnew : findSnapshotPath plainProvider (journalOf firstFiles) "0200aa" secondHash.hex =
      none := by
    rw [findSnapshotPath, hload]
    decide
  have hhead : headSnapshot plainProvider (journalOf firstFiles) "0200aa" =
      .ok (some firstSnapshot) := by
    rw [headSnapshot, snapshots, hload]
    exact findLeaf_first
  unfold appendPending
  simp only [ensureAddressMarker_journalOf, hnew, hhead, Option.isSome_none]
  exact updateDir_journalOf firstFiles _ _

theorem confirm_first :
    (confirm plainProvider (journalOf bothFiles) "0200aa" firstHash (some 3) secondHash).1 =
      journalOf confirmedFiles := by
  have hpath : findSnapshotPath plainProvider (journalOf bothFiles) "0200aa" firstHash.hex =
      some ⟨7, firstHash.hex⟩ := by
    rw [findSnapshotPath, loadSnapshots_journalOf]
    simp [bothFiles, firstFiles, List.mergeSort, FileName.le, firstSnapshot, pendingSnapshot]
  have hread : (journalOf bothFiles (plainProvider.hashedName "0200aa")).bind
      (fun dir => dir.read ⟨7, firstHash.hex⟩) = some firstSnapshot := by
    rw [journalOf_self]
    decide
  unfold confirm
  simp only [hpath, hread]
  exact updateDir_journalOf bothFiles _ _

theorem snapshots_confirmed : snapshots plainProvider (journalOf confirmedFiles) "0200aa" =
    [confirmedSnapshot, secondSnapshot] := by
  rw [snapshots, loadSnapshots_journalOf]
  simp [confirmedFiles, List.mergeSort, FileName.le]

theorem run_confirmedOps (codec : Codec) :
    Run (Step plainProvider codec) Store.empty confirmedOps (journalOf confirmedFiles) := by
  have ht : trim "0200aa" = "0200aa" := by decide
  exact .cons ⟨ht, appendPending_first.symm⟩ (.cons ⟨ht, appendPending_second.symm⟩
    (.cons ⟨ht, confirm_first.symm⟩ (.nil _)))

/-- No codec, for runs without an import. -/
def noCodec : Codec := ⟨fun _ _ _ _ => .error .decrypt, fun _ => .error ""⟩

/-- Two appends and a confirmation: the head is the second snapshot, and the first hash
is taken. -/
theorem journal_single_chain_confirmed :
    (∃ chain head, IsChain Snapshot.links [confirmedSnapshot, secondSnapshot] chain ∧
      headWithExtrinsic plainProvider (journalOf confirmedFiles) "0200aa" = .ok head ∧
      head.map Prod.fst = chain.head?.map Snapshot.data ∧
      head.map (fun r => r.2.hex) = chain.head?.map Snapshot.extrinsicHash) ∧
    (appendPending plainProvider 9 (journalOf confirmedFiles) "0200aa" firstHash (some secondHash)
      [7]).2 ≠ .ok () := by
  have ht : trim "0200aa" = "0200aa" := by decide
  obtain ⟨hjournals, happend, -⟩ := journal_single_chain plainProvider noCodec confirmedOps _
    (run_confirmedOps noCodec)
  obtain ⟨-, -, -, -, hhead⟩ := hjournals "0200aa"
  rw [snapshots_confirmed] at hhead
  refine ⟨hhead, fun h => ?_⟩
  obtain ⟨hnew, -⟩ := (happend 9 "0200aa" firstHash (some secondHash) [7] ht).mp h
  rw [snapshots_confirmed] at hnew
  exact hnew confirmedSnapshot List.mem_cons_self rfl

end Samples

end MidnightRs.Journal
