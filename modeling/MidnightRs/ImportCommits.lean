import MidnightRs.Exports
import MidnightRs.JournalFiles

/-!
What an import leaves when it fails. Its checks come before the first write, except
one: the marker of an address is compared when the first entry of the address is
written. A marker that does not match stops the import between two writes, and then
the store is as it was exactly if the entries before it change nothing.
-/
namespace MidnightRs.Journal

variable (p : Provider)

section Plan

/-- What an import decides before its first write. -/
def importPlan (codec : Codec) (clock : ℕ → ℕ) (st : Store) (data : EncryptedExport)
    (opts : ImportOptions) : Except PrivateStateError (List ExportEntry × Staging) :=
  match openExport codec formatStates data opts with
  | .error e => .error e
  | .ok entries =>
    match entries.forM validateEntry with
    | .error e => .error e
    | .ok () =>
      match rejectDuplicates [] entries with
      | .error e => .error e
      | .ok () =>
        match stageEntries opts.conflict clock ⟨loadByHash p st, [], ⟨0, 0, 0⟩⟩ entries with
        | .error e => .error e
        | .ok s =>
          match checkMerged s.perAddress (entries.map ExportEntry.address).dedup with
          | .error e => .error e
          | .ok () => .ok (entries, s)

def markerAt (st : Store) (address : String) : Option String :=
  (st (p.hashedName address)).bind Dir.marker

/-- Whether the marker refuses an address, after entries of the addresses in `seen`. -/
def refused (st : Store) (seen : List String) (address : String) : Bool :=
  match markerAt p st address with
  | some existing => decide (trim existing ≠ address)
  | none => decide (address ∈ seen ∧ trim address ≠ address)

/-- The entries before the first one that is refused, if one is. -/
def writtenBefore (st : Store) : List String → List ExportEntry → Option (List ExportEntry)
  | _, [] => none
  | seen, entry :: entries =>
    if refused p st seen entry.address then some []
    else (writtenBefore st (entry.address :: seen) entries).map (entry :: ·)

/-- An entry whose address has its marker and whose snapshot is there: to be skipped,
or the same. -/
def Settled (st : Store) (conflict : ConflictStrategy) (entry : ExportEntry) : Prop :=
  (markerAt p st entry.address).isSome = true ∧
    ∃ f, (loadByHash p st entry.address).get entry.snapshot.extrinsicHash = some f ∧
      (conflict = .skip ∨ f.2 = entry.snapshot)

/-- The addresses' markers and snapshots are the same in both stores. -/
def SameJournals (st st' : Store) : Prop :=
  ∀ address, markerAt p st' address = markerAt p st address ∧
    ∀ f, f ∈ files p st' address ↔ f ∈ files p st address

theorem importPrivateStates_eq (codec : Codec) (clock : ℕ → ℕ) (st : Store)
    (data : EncryptedExport) (opts : ImportOptions) :
    importPrivateStates p codec clock st data opts =
      match importPlan p codec clock st data opts with
      | .error e => (st, .error e)
      | .ok (_, s) =>
        match commitStaged p st s.staged with
        | (st', .error e) => (st', .error e)
        | (st', .ok ()) => (st', .ok s.result) := by
  unfold importPrivateStates importPlan
  cases openExport codec formatStates data opts with
  | error e => rfl
  | ok entries =>
    simp only [applyImportEntries]
    cases entries.forM validateEntry with
    | error e => rfl
    | ok u =>
    cases rejectDuplicates [] entries with
    | error e => rfl
    | ok u =>
    cases stageEntries opts.conflict clock ⟨loadByHash p st, [], ⟨0, 0, 0⟩⟩ entries with
    | error e => rfl
    | ok s =>
    simp only
    cases checkMerged s.perAddress (entries.map ExportEntry.address).dedup with
    | error e => rfl
    | ok u => rfl

end Plan

section Staged
variable {p}

theorem ByHash.get_insert (m : ByHash) (hash hash' : String) (v : FileName × Snapshot) :
    (m.insert hash v).get hash' = if hash = hash' then some v else m.get hash' := by
  unfold ByHash.insert ByHash.get
  by_cases h : hash = hash'
  · simp [h]
  · have hskip : (m.filter (fun e => decide (e.1 ≠ hash))).find? (fun e => decide (e.1 = hash')) =
        m.find? (fun e => decide (e.1 = hash')) := by
      rw [List.find?_filter]
      congr 1
      funext e
      by_cases he : e.1 = hash'
      · simp [he, Ne.symm h]
      · simp [he]
    rw [List.find?_cons_of_neg (by simpa using h), hskip, if_neg h]

theorem get_foldl_insert (fs : Files) (m : ByHash) (hash : String) :
    (fs.foldl (fun m f => m.insert f.2.extrinsicHash f) m).get hash =
      ((fs.reverse.find? (fun f => decide (f.2.extrinsicHash = hash))).orElse (fun _ => m.get hash)) := by
  induction fs generalizing m with
  | nil => rfl
  | cons f fs ih =>
    rw [List.foldl_cons, ih, ByHash.get_insert, List.reverse_cons, List.find?_append]
    cases fs.reverse.find? (fun f => decide (f.2.extrinsicHash = hash)) with
    | some g => rfl
    | none =>
      by_cases h : f.2.extrinsicHash = hash
      · simp [h]
      · simp [h]

/-- A hash that is found names a file of the address. -/
theorem loadByHash_some {st : Store} {address hash : String} {f : FileName × Snapshot}
    (h : (loadByHash p st address).get hash = some f) :
    f ∈ files p st address ∧ f.2.extrinsicHash = hash := by
  unfold loadByHash at h
  rw [get_foldl_insert] at h
  cases hfind : (loadSnapshots p st address).reverse.find? (fun f => decide (f.2.extrinsicHash = hash)) with
  | none =>
    rw [hfind] at h
    cases h
  | some g =>
    rw [hfind] at h
    obtain rfl := Option.some.inj h
    refine ⟨(mem_loadSnapshots st address g).mp
      (List.mem_reverse.mp (List.mem_of_find?_eq_some hfind)), ?_⟩
    simpa using List.find?_some hfind

theorem loadByHash_none {st : Store} {address hash : String}
    (h : (loadByHash p st address).get hash = none) :
    ∀ f ∈ files p st address, f.2.extrinsicHash ≠ hash := by
  unfold loadByHash at h
  rw [get_foldl_insert] at h
  intro f hf
  cases hfind : (loadSnapshots p st address).reverse.find? (fun f => decide (f.2.extrinsicHash = hash)) with
  | some g =>
    rw [hfind] at h
    cases h
  | none =>
    have hnone := List.find?_eq_none.mp hfind f
      (List.mem_reverse.mpr ((mem_loadSnapshots st address f).mpr hf))
    simpa using hnone

/-- Where an entry goes: nowhere, over the file of its hash, or to a new file. -/
def TargetFor (p : Provider) (st : Store) (conflict : ConflictStrategy) (x : Staged) : Prop :=
  match (loadByHash p st x.1.address).get x.1.snapshot.extrinsicHash with
  | none => ∃ nanos, x.2 = some ⟨nanos, x.1.snapshot.extrinsicHash⟩
  | some f => if conflict = .skip then x.2 = none else x.2 = some f.1

theorem admitEntry_write {result result' : ImportResult} {found write : Bool}
    {conflict : ConflictStrategy} {label : String}
    (h : result.admitEntry found conflict label = .ok (result', write)) :
    write = (!found || decide (conflict ≠ .skip)) := by
  unfold ImportResult.admitEntry at h
  cases found <;> cases conflict <;> cases h <;> rfl

theorem stageEntry_target (st : Store) {conflict : ConflictStrategy} {nanos : ℕ} {s s' : Staging}
    {entry : ExportEntry} (hget : (s.perAddress entry.address).get entry.snapshot.extrinsicHash =
      (loadByHash p st entry.address).get entry.snapshot.extrinsicHash)
    (h : stageEntry conflict nanos s entry = .ok s') :
    ∃ target, s'.staged = s.staged ++ [(entry, target)] ∧
      TargetFor p st conflict (entry, target) ∧
      ∀ a hash, (a, hash) ≠ entry.key → (s'.perAddress a).get hash = (s.perAddress a).get hash := by
  unfold stageEntry at h
  simp only at h
  split at h
  · cases h
  unfold TargetFor
  simp only
  rw [← hget]
  cases hadmitted : s.result.admitEntry
      ((s.perAddress entry.address).get entry.snapshot.extrinsicHash).isSome conflict
      s!"{entry.address} / {entry.snapshot.extrinsicHash}" with
  | error e =>
    rw [hadmitted] at h
    cases h
  | ok admitted =>
    obtain ⟨result, write⟩ := admitted
    rw [hadmitted] at h
    have hwrite := admitEntry_write hadmitted
    cases write with
    | false =>
      obtain rfl := Except.ok.inj h
      refine ⟨none, rfl, ?_, fun _ _ _ => rfl⟩
      cases hfound : (s.perAddress entry.address).get entry.snapshot.extrinsicHash with
      | none => simp [hfound] at hwrite
      | some f =>
        rw [hfound] at hwrite
        simp only
        rw [if_pos (by simpa using hwrite)]
        trivial
    | true =>
      obtain rfl := Except.ok.inj h
      refine ⟨_, rfl, ?_, fun a hash hne => ?_⟩
      · cases hfound : (s.perAddress entry.address).get entry.snapshot.extrinsicHash with
        | none => exact ⟨nanos, rfl⟩
        | some f =>
          rw [hfound] at hwrite
          simp only
          rw [if_neg (by simpa using hwrite)]
          rfl
      · by_cases ha : a = entry.address
        · subst ha
          have hhash : entry.snapshot.extrinsicHash ≠ hash :=
            fun hh => hne (by rw [ExportEntry.key, hh])
          simp only [Function.update_self, ByHash.get_insert, if_neg hhash]
        · simp only [Function.update_of_ne ha]

/-- Each entry is staged once, in the payload's order, for the file that the store has
for it. -/
theorem stageEntries_targets (st : Store) {conflict : ConflictStrategy} {clock : ℕ → ℕ}
    (entries : List ExportEntry) {s s' : Staging} (keys : List (String × String))
    (hget : ∀ a hash, (a, hash) ∉ keys →
      (s.perAddress a).get hash = (loadByHash p st a).get hash)
    (hkeys : rejectDuplicates keys entries = .ok ())
    (h : stageEntries conflict clock s entries = .ok s') :
    ∃ staged, s'.staged = s.staged ++ staged ∧ staged.map Prod.fst = entries ∧
      (∀ x ∈ staged, TargetFor p st conflict x) ∧
      (entries.map ExportEntry.key).Nodup ∧ ∀ entry ∈ entries, entry.key ∉ keys := by
  induction entries generalizing s keys with
  | nil =>
    obtain rfl := Except.ok.inj h
    exact ⟨[], by simp, rfl, by simp, List.nodup_nil, by simp⟩
  | cons entry entries ih =>
    unfold rejectDuplicates at hkeys
    simp only at hkeys
    split at hkeys
    · cases hkeys
    rename_i hkey
    unfold stageEntries at h
    cases hone : stageEntry conflict (clock s.staged.length) s entry with
    | error e =>
      rw [hone] at h
      cases h
    | ok s₁ =>
      rw [hone] at h
      obtain ⟨target, hstaged, htarget, hsame⟩ :=
        stageEntry_target (p := p) st (hget _ _ hkey) hone
      obtain ⟨staged, heq, hentries, htargets, hnodup, hfresh⟩ := ih (entry.key :: keys)
        (fun a hash hne => by
          rw [List.mem_cons, not_or] at hne
          rw [hsame a hash hne.1, hget a hash hne.2]) hkeys h
      refine ⟨(entry, target) :: staged, ?_, ?_, ?_, ?_, ?_⟩
      · rw [heq, hstaged, List.append_assoc, List.singleton_append]
      · rw [List.map_cons, hentries]
      · exact List.forall_mem_cons.mpr ⟨htarget, htargets⟩
      · rw [List.map_cons, List.nodup_cons]
        refine ⟨fun hmem => ?_, hnodup⟩
        obtain ⟨other, hother, hkey'⟩ := List.mem_map.mp hmem
        exact hfresh other hother (hkey' ▸ List.mem_cons_self)
      · refine List.forall_mem_cons.mpr ⟨hkey, fun other hother => ?_⟩
        exact fun hmem => hfresh other hother (List.mem_cons_of_mem _ hmem)

/-- What the checks before the first write settle. -/
structure Planned (p : Provider) (st : Store) (conflict : ConflictStrategy)
    (entries : List ExportEntry) (staged : List Staged) : Prop where
  order : staged.map Prod.fst = entries
  targets : ∀ x ∈ staged, TargetFor p st conflict x
  keys : (entries.map ExportEntry.key).Nodup

theorem importPlan_planned {codec : Codec} {clock : ℕ → ℕ} {st : Store} {data : EncryptedExport}
    {opts : ImportOptions} {entries : List ExportEntry} {s : Staging}
    (h : importPlan p codec clock st data opts = .ok (entries, s)) :
    Planned p st opts.conflict entries s.staged := by
  unfold importPlan at h
  cases hopen : openExport codec formatStates data opts with
  | error e =>
    rw [hopen] at h
    cases h
  | ok opened =>
    rw [hopen] at h
    simp only at h
    cases hvalid : opened.forM validateEntry with
    | error e =>
      rw [hvalid] at h
      cases h
    | ok u =>
    rw [hvalid] at h
    simp only at h
    cases hdup : rejectDuplicates [] opened with
    | error e =>
      rw [hdup] at h
      cases h
    | ok u =>
    rw [hdup] at h
    simp only at h
    cases hstage : stageEntries opts.conflict clock ⟨loadByHash p st, [], ⟨0, 0, 0⟩⟩ opened with
    | error e =>
      rw [hstage] at h
      cases h
    | ok s' =>
    rw [hstage] at h
    simp only at h
    cases hcheck : checkMerged s'.perAddress (opened.map ExportEntry.address).dedup with
    | error e =>
      rw [hcheck] at h
      cases h
    | ok u =>
      rw [hcheck] at h
      cases h
      obtain ⟨staged, heq, hentries, htargets, hnodup, _⟩ := stageEntries_targets (p := p)
        st entries [] (fun _ _ _ => rfl) hdup hstage
      rw [List.nil_append] at heq
      exact ⟨heq ▸ hentries, heq ▸ htargets, hnodup⟩

end Staged

section Commit
variable {p}

/-- The writes of staged entries whose markers are not refused. -/
def writeAll (p : Provider) (st : Store) : List Staged → Store
  | [] => st
  | (entry, target) :: rest =>
    let marked := (ensureAddressMarker p st entry.address).1
    writeAll p (target.elim marked (fun path =>
      updateDir p marked entry.address (fun dir => dir.write path entry.snapshot))) rest

/-- The markers of a store that entries of the addresses in `seen` were written to. -/
def Marked (p : Provider) (st : Store) (seen : List String) (cst : Store) : Prop :=
  ∀ a, markerAt p cst a =
    match markerAt p st a with
    | some existing => some existing
    | none => if a ∈ seen then some a else none

theorem marked_nil (st : Store) : Marked p st [] st := by
  intro a
  cases markerAt p st a with
  | none => simp
  | some existing => rfl

theorem markerAt_update_self (st : Store) (address : String) (dir : Dir) :
    markerAt p (Function.update st (p.hashedName address) (some dir)) address = dir.marker := by
  unfold markerAt
  rw [Function.update_self]
  rfl

theorem markerAt_update_other (st : Store) {address other : String} (dir : Option Dir)
    (h : other ≠ address) :
    markerAt p (Function.update st (p.hashedName address) dir) other = markerAt p st other := by
  unfold markerAt
  rw [Function.update_of_ne (fun he => h (p.hashedName_injective he))]

theorem markerAt_write (st : Store) (address other : String) (path : FileName)
    (snap : Snapshot) :
    markerAt p (updateDir p st address (fun dir => dir.write path snap)) other =
      markerAt p st other := by
  unfold updateDir
  by_cases h : other = address
  · subst h
    unfold markerAt
    rw [Function.update_self]
    cases st (p.hashedName other) <;> rfl
  · exact markerAt_update_other st _ h

theorem getD_marker (st : Store) (address : String) :
    ((st (p.hashedName address)).getD Dir.empty).marker = markerAt p st address := by
  unfold markerAt
  cases st (p.hashedName address) <;> rfl

/-- An address without a marker gets its own. -/
theorem ensureAddressMarker_marker (st : Store) (address other : String) :
    markerAt p (ensureAddressMarker p st address).1 other =
      if other = address then some ((markerAt p st address).getD address)
      else markerAt p st other := by
  have hmarker := getD_marker (p := p) st address
  unfold ensureAddressMarker
  generalize (st (p.hashedName address)).getD Dir.empty = dir at hmarker ⊢
  obtain ⟨marker, fs⟩ := dir
  rw [← hmarker]
  have hupdate : ∀ dir : Dir, dir.marker = some (marker.getD address) →
      markerAt p (Function.update st (p.hashedName address) (some dir)) other =
        if other = address then some (marker.getD address) else markerAt p st other := by
    intro dir hdir
    by_cases h : other = address
    · subst h
      rw [markerAt_update_self, hdir, if_pos rfl]
    · rw [markerAt_update_other st _ h, if_neg h]
  cases marker with
  | none => exact hupdate _ rfl
  | some existing =>
    simp only
    split
    · exact hupdate _ rfl
    · exact hupdate _ rfl

/-- A marker that does not match is refused. -/
theorem ensureAddressMarker_ok_iff (st : Store) (address : String) :
    (ensureAddressMarker p st address).2 = .ok () ↔
      ∀ existing, markerAt p st address = some existing → trim existing = address := by
  have hmarker := getD_marker (p := p) st address
  unfold ensureAddressMarker
  generalize (st (p.hashedName address)).getD Dir.empty = dir at hmarker ⊢
  obtain ⟨marker, fs⟩ := dir
  rw [← hmarker]
  cases marker with
  | none => simp
  | some existing => by_cases htrim : trim existing = address <;> simp [htrim]

theorem ensureAddressMarker_refused {st cst : Store} {seen : List String}
    (hmarked : Marked p st seen cst) (address : String) :
    (ensureAddressMarker p cst address).2 = .ok () ↔ refused p st seen address = false := by
  rw [ensureAddressMarker_ok_iff, hmarked address]
  unfold refused
  cases markerAt p st address with
  | some existing => simp
  | none => by_cases hseen : address ∈ seen <;> simp [hseen]

theorem Marked.cons {st cst : Store} {seen : List String} (hmarked : Marked p st seen cst)
    (address : String) :
    Marked p st (address :: seen) (ensureAddressMarker p cst address).1 := by
  intro other
  rw [ensureAddressMarker_marker, hmarked other, hmarked address]
  by_cases h : other = address
  · subst h
    cases markerAt p st other with
    | some existing => simp
    | none => by_cases hseen : other ∈ seen <;> simp [hseen]
  · cases markerAt p st other with
    | some existing => simp [h]
    | none => simp [h]

theorem Marked.write {st cst : Store} {seen : List String} (hmarked : Marked p st seen cst)
    (address : String) (path : FileName) (snap : Snapshot) :
    Marked p st seen (updateDir p cst address (fun dir => dir.write path snap)) :=
  fun other => (markerAt_write cst address other path snap).trans (hmarked other)

theorem Marked.target {st cst : Store} {seen : List String} (hmarked : Marked p st seen cst)
    (entry : ExportEntry) (target : Option FileName) :
    Marked p st seen (target.elim cst (fun path =>
      updateDir p cst entry.address (fun dir => dir.write path entry.snapshot))) := by
  cases target with
  | none => exact hmarked
  | some path => exact hmarked.write entry.address path entry.snapshot

/-- The commit writes the entries before the first one that is refused. -/
theorem commitStaged_eq {st : Store} (staged : List Staged) {seen : List String} {cst : Store}
    (hmarked : Marked p st seen cst) :
    match writtenBefore p st seen (staged.map Prod.fst) with
    | none => commitStaged p cst staged = (writeAll p cst staged, .ok ())
    | some written => ∃ done x rest e, staged = done ++ x :: rest ∧ done.map Prod.fst = written ∧
        (markerAt p (writeAll p cst done) x.1.address).isSome = true ∧
        commitStaged p cst staged =
          ((ensureAddressMarker p (writeAll p cst done) x.1.address).1, .error e) := by
  induction staged generalizing seen cst with
  | nil => rfl
  | cons x staged ih =>
    obtain ⟨entry, target⟩ := x
    have hresult := ensureAddressMarker_refused hmarked entry.address
    have hcommit : commitStaged p cst ((entry, target) :: staged) =
        match (ensureAddressMarker p cst entry.address).2 with
        | .error e => ((ensureAddressMarker p cst entry.address).1, .error e)
        | .ok () => commitStaged p (target.elim (ensureAddressMarker p cst entry.address).1
            (fun path => updateDir p (ensureAddressMarker p cst entry.address).1 entry.address
              (fun dir => dir.write path entry.snapshot))) staged := by
      conv_lhs => unfold commitStaged
      generalize ensureAddressMarker p cst entry.address = ensured
      obtain ⟨st', result⟩ := ensured
      cases result with
      | error e => rfl
      | ok u => cases target <;> rfl
    rw [List.map_cons, writtenBefore]
    cases hrefused : refused p st seen entry.address with
    | true =>
      cases hensure : (ensureAddressMarker p cst entry.address).2 with
      | ok u =>
        have hnot := hresult.mp hensure
        rw [hrefused] at hnot
        cases hnot
      | error e =>
        rw [hensure] at hcommit
        refine ⟨[], (entry, target), staged, e, rfl, rfl, ?_, hcommit⟩
        by_contra hnone
        have hok := (ensureAddressMarker_ok_iff cst entry.address).mpr (fun existing hexisting =>
          absurd (by rw [writeAll, hexisting]; rfl) hnone)
        rw [hensure] at hok
        cases hok
    | false =>
      rw [hresult.mpr hrefused] at hcommit
      have hrest := ih ((hmarked.cons entry.address).target entry target)
      simp only [Bool.false_eq_true, if_false] at hrest ⊢
      cases hwritten : writtenBefore p st (entry.address :: seen) (staged.map Prod.fst) with
      | none =>
        rw [hwritten] at hrest
        exact hcommit.trans hrest
      | some written =>
        rw [hwritten] at hrest
        obtain ⟨done, x, rest, e, hsplit, hdone, hmarker, hend⟩ := hrest
        refine ⟨(entry, target) :: done, x, rest, e, by rw [hsplit, List.cons_append],
          by rw [List.map_cons, hdone], hmarker, ?_⟩
        exact hcommit.trans hend

/-- What a settled entry is staged for changes nothing. -/
theorem Settled.target {st : Store} {conflict : ConflictStrategy} {x : Staged}
    (h : Settled p st conflict x.1) (htarget : TargetFor p st conflict x) :
    ∀ path, x.2 = some path → (path, x.1.snapshot) ∈ files p st x.1.address := by
  obtain ⟨_, f, hget, hsame⟩ := h
  intro path hpath
  unfold TargetFor at htarget
  rw [hget] at htarget
  simp only at htarget
  by_cases hskip : conflict = .skip
  · rw [if_pos hskip, hpath] at htarget
    cases htarget
  · rw [if_neg hskip, hpath, Option.some.injEq] at htarget
    subst htarget
    rw [← hsame.resolve_left hskip]
    exact (loadByHash_some hget).1

theorem files_ensureAddressMarker (st : Store) (address other : String) :
    files p (ensureAddressMarker p st address).1 other = files p st other := by
  obtain ⟨dir, hst, hfiles⟩ := ensureAddressMarker_fst (p := p) st address
  rw [hst]
  by_cases ho : other = address
  · subst ho
    rw [files_update_same, hfiles]
  · exact files_update_other st address other _ ho

theorem SameJournals.refl (st : Store) : SameJournals p st st := fun _ => ⟨rfl, fun _ => Iff.rfl⟩

/-- The marker of an address that has one stays, and the journals with it. -/
theorem SameJournals.ensure {st cst : Store} (h : SameJournals p st cst) {address : String}
    (hmarker : (markerAt p cst address).isSome = true) :
    SameJournals p st (ensureAddressMarker p cst address).1 := by
  obtain ⟨existing, hexisting⟩ := Option.isSome_iff_exists.mp hmarker
  intro other
  obtain ⟨hmark, hfile⟩ := h other
  constructor
  · rw [ensureAddressMarker_marker, hexisting, Option.getD_some, ← hmark]
    by_cases ho : other = address
    · subst ho
      rw [if_pos rfl, hexisting]
    · rw [if_neg ho]
  · intro f
    rw [← hfile f, files_ensureAddressMarker]

theorem mem_write_iff {st : Store} {address : String}
    (hsome : (st (p.hashedName address)).isSome = true) {path : FileName} {snap : Snapshot}
    (f : FileName × Snapshot) :
    f ∈ files p (updateDir p st address (fun dir => dir.write path snap)) address ↔
      f = (path, snap) ∨ (f ∈ files p st address ∧ f.1 ≠ path) := by
  obtain ⟨dir, hdir, hfiles⟩ := files_updateDir_same hsome (fun dir => dir.write path snap)
  rw [hfiles, ← hdir]
  simp [Dir.write]

theorem SameJournals.write {st cst : Store} (h : SameJournals p st cst) (hnamed : Named cst)
    {address : String} {path : FileName} {snap : Snapshot}
    (hfile : (path, snap) ∈ files p st address) :
    SameJournals p st (updateDir p cst address (fun dir => dir.write path snap)) := by
  intro other
  obtain ⟨hmark, hfile'⟩ := h other
  refine ⟨by rw [markerAt_write, hmark], fun f => ?_⟩
  by_cases ho : other = address
  · subst ho
    have hmem : (path, snap) ∈ files p cst other := (hfile' _).mpr hfile
    rw [mem_write_iff (isSome_of_mem_files hmem), ← hfile' f]
    constructor
    · rintro (rfl | ⟨hf, _⟩)
      · exact hmem
      · exact hf
    · intro hf
      by_cases hname : f.1 = path
      · exact Or.inl (List.inj_on_of_nodup_map (hnamed.files other) hf hmem hname)
      · exact Or.inr ⟨hf, hname⟩
  · rw [files_updateDir_other cst address other _ ho]
    exact hfile' f

theorem writeAll_settled {st : Store} {conflict : ConflictStrategy} (done : List Staged)
    (htargets : ∀ x ∈ done, TargetFor p st conflict x)
    (hsettled : ∀ x ∈ done, Settled p st conflict x.1) {cst : Store} (hnamed : Named cst)
    (h : SameJournals p st cst) :
    SameJournals p st (writeAll p cst done) ∧ Named (writeAll p cst done) := by
  induction done generalizing cst with
  | nil => exact ⟨h, hnamed⟩
  | cons x done ih =>
    obtain ⟨entry, target⟩ := x
    obtain ⟨htarget, hothers⟩ := List.forall_mem_cons.mp htargets
    obtain ⟨hx, hrest⟩ := List.forall_mem_cons.mp hsettled
    have hmarked : (markerAt p cst entry.address).isSome = true := by
      rw [(h entry.address).1]
      exact hx.1
    have hensured := h.ensure hmarked
    have hnamed' := hnamed.ensureAddressMarker (p := p) entry.address
    unfold writeAll
    cases target with
    | none => exact ih hothers hrest hnamed' hensured
    | some path =>
      refine ih hothers hrest (hnamed'.updateDir _ _ (fun dir hdir => nodup_write hdir _ _)) ?_
      exact hensured.write hnamed' (hx.target htarget path rfl)

/-- A file stays where no entry is written over it. -/
theorem writeAll_mem (done : List Staged) {cst : Store} {a : String} {f : FileName × Snapshot}
    (hf : f ∈ files p cst a) (hfree : ∀ x ∈ done, x.1.address = a → x.2 ≠ some f.1) :
    f ∈ files p (writeAll p cst done) a := by
  induction done generalizing cst with
  | nil => exact hf
  | cons x done ih =>
    obtain ⟨entry, target⟩ := x
    obtain ⟨hx, hrest⟩ := List.forall_mem_cons.mp hfree
    unfold writeAll
    refine ih ?_ hrest
    have hensured : f ∈ files p (ensureAddressMarker p cst entry.address).1 a := by
      rw [files_ensureAddressMarker]
      exact hf
    cases target with
    | none => exact hensured
    | some path =>
      rw [Option.elim_some]
      by_cases ha : a = entry.address
      · subst ha
        refine (mem_write_iff (isSome_of_mem_files hensured) f).mpr (Or.inr ⟨hensured, ?_⟩)
        exact fun hname => hx rfl (by rw [hname])
      · rw [files_updateDir_other _ _ _ _ ha]
        exact hensured

theorem writeAll_marker (done : List Staged) (cst : Store) {a : String}
    (h : (markerAt p cst a).isSome = true ∨ ∃ x ∈ done, x.1.address = a) :
    (markerAt p (writeAll p cst done) a).isSome = true := by
  induction done generalizing cst with
  | nil => exact h.resolve_right (by simp)
  | cons x done ih =>
    obtain ⟨entry, target⟩ := x
    unfold writeAll
    apply ih
    have hmarked : ∀ target : Option FileName, markerAt p (target.elim
        (ensureAddressMarker p cst entry.address).1 (fun path => updateDir p
          (ensureAddressMarker p cst entry.address).1 entry.address
          (fun dir => dir.write path entry.snapshot))) a =
        if a = entry.address then some ((markerAt p cst entry.address).getD entry.address)
        else markerAt p cst a := by
      intro target
      rw [← ensureAddressMarker_marker]
      cases target with
      | none => rfl
      | some path => exact markerAt_write _ _ _ _ _
    rw [hmarked]
    by_cases ha : a = entry.address
    · rw [if_pos ha]
      exact Or.inl rfl
    · rw [if_neg ha]
      rcases h with h | ⟨x, hx, hxa⟩
      · exact Or.inl h
      · rcases List.mem_cons.mp hx with rfl | hx
        · exact absurd hxa.symm ha
        · exact Or.inr ⟨x, hx, hxa⟩

/-- The name of a staged file carries the hash of its snapshot. -/
theorem TargetFor.hash {st : Store} {conflict : ConflictStrategy} {x : Staged}
    (h : TargetFor p st conflict x)
    (hnamed : ∀ a, ∀ f ∈ files p st a, f.1.extrinsicHash = f.2.extrinsicHash) {path : FileName}
    (hpath : x.2 = some path) : path.extrinsicHash = x.1.snapshot.extrinsicHash := by
  unfold TargetFor at h
  cases hget : (loadByHash p st x.1.address).get x.1.snapshot.extrinsicHash with
  | none =>
    rw [hget] at h
    obtain ⟨nanos, hnanos⟩ := h
    rw [hpath, Option.some.injEq] at hnanos
    rw [hnanos]
  | some f =>
    rw [hget] at h
    simp only at h
    obtain ⟨hf, hhash⟩ := loadByHash_some hget
    by_cases hskip : conflict = .skip
    · rw [if_pos hskip, hpath] at h
      cases h
    · rw [if_neg hskip, hpath, Option.some.injEq] at h
      rw [h, hnamed _ f hf, hhash]

/-- Entries of different keys are written to different files. -/
theorem writeAll_written {st : Store} {conflict : ConflictStrategy} (done : List Staged)
    (hnamed : ∀ a, ∀ f ∈ files p st a, f.1.extrinsicHash = f.2.extrinsicHash)
    (htargets : ∀ x ∈ done, TargetFor p st conflict x)
    (hkeys : (done.map (fun x => x.1.key)).Nodup) {x : Staged} (hx : x ∈ done) {path : FileName}
    (hpath : x.2 = some path) (cst : Store) :
    (path, x.1.snapshot) ∈ files p (writeAll p cst done) x.1.address := by
  induction done generalizing cst with
  | nil => cases hx
  | cons y done ih =>
    obtain ⟨hy, hothers⟩ := List.forall_mem_cons.mp htargets
    rw [List.map_cons, List.nodup_cons] at hkeys
    rcases List.mem_cons.mp hx with rfl | hmem
    · obtain ⟨entry, target⟩ := x
      obtain rfl : target = some path := hpath
      unfold writeAll
      refine writeAll_mem done ?_ (fun z hz hza hzt => hkeys.1 ?_)
      · refine (mem_write_iff (ensureAddressMarker_isSome cst entry.address) _).mpr (Or.inl rfl)
      · refine List.mem_map.mpr ⟨z, hz, ?_⟩
        rw [ExportEntry.key, ExportEntry.key, hza, ← (hothers z hz).hash hnamed hzt,
          ← hy.hash hnamed rfl]
    · obtain ⟨entry, target⟩ := y
      exact ih hothers hkeys.2 hmem _

/-- An entry that is not settled changes a marker or a snapshot. -/
theorem TargetFor.changes {st : Store} {conflict : ConflictStrategy} {x : Staged}
    (h : TargetFor p st conflict x) (hnamed : Named st)
    (hnot : ¬ Settled p st conflict x.1) :
    markerAt p st x.1.address = none ∨
      ∃ path, x.2 = some path ∧ (path, x.1.snapshot) ∉ files p st x.1.address := by
  cases hmarker : markerAt p st x.1.address with
  | none => exact Or.inl rfl
  | some existing =>
    refine Or.inr ?_
    unfold TargetFor at h
    cases hget : (loadByHash p st x.1.address).get x.1.snapshot.extrinsicHash with
    | none =>
      rw [hget] at h
      obtain ⟨nanos, hnanos⟩ := h
      exact ⟨_, hnanos, fun hmem => loadByHash_none hget _ hmem rfl⟩
    | some f =>
      rw [hget] at h
      simp only at h
      have hdiffers : ¬ (conflict = .skip ∨ f.2 = x.1.snapshot) := fun hsame =>
        hnot ⟨by rw [hmarker]; rfl, f, hget, hsame⟩
      rw [not_or] at hdiffers
      rw [if_neg hdiffers.1] at h
      refine ⟨f.1, h, fun hmem => hdiffers.2 ?_⟩
      have hsame := List.inj_on_of_nodup_map (hnamed.files _) (loadByHash_some hget).1 hmem rfl
      rw [hsame]

end Commit

section AllOrNothing

/-- A failed import leaves every marker and snapshot as it was, if and only if the
entries before the first one whose marker refuses it change nothing. The directories
name each file once, and after the snapshot in it. -/
theorem import_all_or_nothing_iff (p : Provider) (codec : Codec) (clock : ℕ → ℕ) {st : Store}
    (hnames : Named st)
    (hnamed : ∀ a, ∀ f ∈ files p st a, f.1.extrinsicHash = f.2.extrinsicHash)
    (data : EncryptedExport) (opts : ImportOptions) :
    (∀ e, (importPrivateStates p codec clock st data opts).2 = .error e →
      SameJournals p st (importPrivateStates p codec clock st data opts).1) ↔
    ∀ entries s, importPlan p codec clock st data opts = .ok (entries, s) →
      ∀ written, writtenBefore p st [] entries = some written →
        ∀ entry ∈ written, Settled p st opts.conflict entry := by
  rw [importPrivateStates_eq]
  cases hplan : importPlan p codec clock st data opts with
  | error e => exact ⟨fun _ entries s h => (by cases h), fun _ _ _ => SameJournals.refl st⟩
  | ok planned =>
    obtain ⟨entries, s⟩ := planned
    have hplanned := importPlan_planned hplan
    have hcommit := commitStaged_eq (p := p) s.staged (marked_nil st)
    rw [hplanned.order] at hcommit
    simp only
    cases hwritten : writtenBefore p st [] entries with
    | none =>
      rw [hwritten] at hcommit
      simp only at hcommit
      rw [hcommit]
      constructor
      · rintro _ entries' s' h written hw
        cases h
        rw [hwritten] at hw
        cases hw
      · intro _ e he
        cases he
    | some written =>
      rw [hwritten] at hcommit
      obtain ⟨done, x, rest, e, hsplit, hdone, hmarker, hend⟩ := hcommit
      rw [hend]
      have htargets : ∀ y ∈ done, TargetFor p st opts.conflict y := fun y hy =>
        hplanned.targets y (hsplit ▸ List.mem_append_left _ hy)
      have hkeys : (done.map (fun y => y.1.key)).Nodup := by
        have hall := hplanned.keys
        rw [← hplanned.order, List.map_map, hsplit, List.map_append] at hall
        exact hall.of_append_left
      constructor
      · rintro hsame entries' s' h written' hw entry hentry
        cases h
        rw [hwritten, Option.some.injEq] at hw
        subst hw
        rw [← hdone] at hentry
        obtain ⟨y, hy, rfl⟩ := List.mem_map.mp hentry
        by_contra hnot
        obtain ⟨hmark, hfiles⟩ := hsame e rfl y.1.address
        rw [files_ensureAddressMarker] at hfiles
        rw [ensureAddressMarker_marker] at hmark
        rcases (htargets y hy).changes hnames hnot with hnone | ⟨path, hpath, hnew⟩
        · have hsome := writeAll_marker (p := p) done st (Or.inr ⟨y, hy, rfl⟩)
          rw [hnone] at hmark
          split at hmark
          · cases hmark
          · rw [hmark] at hsome
            cases hsome
        · exact hnew ((hfiles _).mp (writeAll_written done hnamed htargets hkeys hy hpath st))
      · intro hsettled e' _
        have hall := writeAll_settled done htargets
          (fun y hy => hsettled entries s rfl written hwritten y.1
            (hdone ▸ List.mem_map_of_mem hy)) hnames (SameJournals.refl st)
        exact hall.1.ensure hmarker

def zeroHash : String := String.ofList (List.replicate 64 '0')

def zeroEntry (address : String) : ExportEntry where
  address := address
  snapshot :=
    { status := .pending
      extrinsicHash := zeroHash
      blockHash := none
      blockHeight := none
      dependsOn := none
      data := [] }

/-- A payload with an entry for each of two addresses. -/
def twoAddresses : Codec where
  decrypt _ _ _ _ := .ok []
  decodeEntries _ := .ok [zeroEntry "a", zeroEntry "b"]

def plainExport : EncryptedExport := ⟨formatStates, "", ""⟩

def plainOptions : ImportOptions := ⟨"", .error, 10⟩

/-- A store with a marker in the directory of `b`, and no snapshots. -/
def markedStore (marker : String) : Store := fun name =>
  if name = "b" then some ⟨some marker, []⟩ else none

/-- The second address has the marker of another one: the import fails, and has
written the first address by then. -/
theorem import_stops_between_addresses :
    (∃ e, (importPrivateStates plainProvider twoAddresses (fun _ => 7) (markedStore "x") plainExport
      plainOptions).2 = .error e) ∧
    markerAt plainProvider (markedStore "x") "a" = none ∧
    markerAt plainProvider (importPrivateStates plainProvider twoAddresses (fun _ => 7)
      (markedStore "x") plainExport plainOptions).1 "a" = some "a" := by
  have hfails : (importPrivateStates plainProvider twoAddresses (fun _ => 7) (markedStore "x")
      plainExport plainOptions).2.toOption = none := by decide +kernel
  refine ⟨?_, rfl, by decide +kernel⟩
  cases h : (importPrivateStates plainProvider twoAddresses (fun _ => 7) (markedStore "x")
      plainExport plainOptions).2 with
  | error e => exact ⟨e, rfl⟩
  | ok result =>
    rw [h] at hfails
    cases hfails

/-- The journal of `a` holds the entry, and the directory of `b` another one's marker. -/
def heldStore : Store := fun name =>
  if name = "a" then some ⟨some "a", [(⟨7, zeroHash⟩, (zeroEntry "a").snapshot)]⟩
  else markedStore "x" name

def skipOptions : ImportOptions := ⟨"", .skip, 10⟩

theorem importPlan_held : (importPlan plainProvider twoAddresses (fun _ => 7) heldStore plainExport
    skipOptions).toOption.map Prod.fst = some [zeroEntry "a", zeroEntry "b"] := by decide +kernel

/-- The entry for `a` is skipped before the marker of `b` stops the import. -/
theorem import_all_or_nothing_skipped :
    (importPrivateStates plainProvider twoAddresses (fun _ => 7) heldStore plainExport
        skipOptions).2.toOption = none ∧
      SameJournals plainProvider heldStore (importPrivateStates plainProvider twoAddresses
        (fun _ => 7) heldStore plainExport skipOptions).1 := by
  have hfails : (importPrivateStates plainProvider twoAddresses (fun _ => 7) heldStore plainExport
      skipOptions).2.toOption = none := by decide +kernel
  obtain ⟨e, he⟩ : ∃ e, (importPrivateStates plainProvider twoAddresses (fun _ => 7) heldStore
      plainExport skipOptions).2 = .error e := by
    cases h : (importPrivateStates plainProvider twoAddresses (fun _ => 7) heldStore plainExport
        skipOptions).2 with
    | error e => exact ⟨e, rfl⟩
    | ok result =>
      rw [h] at hfails
      cases hfails
  have hdirs : ∀ name dir, heldStore name = some dir → dir.files = [] ∨
      dir.files = [(⟨7, zeroHash⟩, (zeroEntry "a").snapshot)] := by
    intro name dir h
    unfold heldStore markedStore at h
    split_ifs at h <;> cases h
    · exact .inr rfl
    · exact .inl rfl
  refine ⟨hfails, (import_all_or_nothing_iff plainProvider twoAddresses (fun _ => 7) ?_ ?_
    plainExport skipOptions).mpr ?_ e he⟩
  · intro name dir h
    rcases hdirs name dir h with hfiles | hfiles <;> rw [hfiles] <;> simp
  · intro a f hf
    unfold files at hf
    cases hdir : heldStore (plainProvider.hashedName a) with
    | none =>
      rw [hdir] at hf
      cases hf
    | some dir =>
      rw [hdir] at hf
      rcases hdirs _ dir hdir with hfiles | hfiles <;> rw [Option.elim_some, hfiles] at hf
      · cases hf
      · rw [List.mem_singleton.mp hf]
        rfl
  · intro entries s hplan written hwritten entry hentry
    have hentries := importPlan_held
    rw [hplan] at hentries
    obtain rfl := Option.some.inj hentries
    have hfirst : writtenBefore plainProvider heldStore [] [zeroEntry "a", zeroEntry "b"] =
        some [zeroEntry "a"] := by decide +kernel
    rw [hfirst, Option.some.injEq] at hwritten
    rw [← hwritten] at hentry
    rw [List.mem_singleton.mp hentry]
    exact ⟨rfl, (⟨7, zeroHash⟩, (zeroEntry "a").snapshot), by decide +kernel, .inl rfl⟩

end AllOrNothing

end MidnightRs.Journal
