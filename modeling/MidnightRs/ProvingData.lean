import MidnightRs.Errors
import MidnightRs.Watched
import Mathlib.Data.List.Nodup

/-!
The files local proving reads that no contract carries: the Zswap and Dust keys of both
linked ledger generations and the universal parameters. Provisioning takes each from the
cache, then the bundle, then the network. The ledger's constants, its data providers, the
bundle and the disk's failures are parameters; the cache is a map from names to bytes.
-/
namespace MidnightRs.ProvingData

open Watched

variable {H : Type}

section Model

variable [DecidableEq H]

/-- A path under the cache, as its directories and its last component. -/
structure Name where
  directory : List String
  fileName : String
deriving DecidableEq, Repr

def Name.text (x : Name) : String := "/".intercalate (x.directory ++ [x.fileName])

/-- The temporary file in the same directory. -/
def Name.temporary (x : Name) : Name := { x with fileName := s!".{x.fileName}.partial" }

inductive ErrorKind where
  | invalidInput
  | invalidData
  | notFound
  | other (kind : String)
deriving DecidableEq, Repr

structure IoError where
  kind : ErrorKind
  text : String
deriving DecidableEq, Repr

def minCircuitK : ℕ := 5

def baselineMaxCircuitK : ℕ := 15

def absoluteMaxCircuitK : ℕ := 18

inductive Provisioned where
  | present
  | installed
  | downloaded
deriving DecidableEq, Repr

structure ProvisionReport where
  present : ℕ := 0
  installed : ℕ := 0
  downloaded : ℕ := 0
deriving DecidableEq, Repr

def ProvisionReport.record (r : ProvisionReport) : Provisioned → ProvisionReport
  | .present => { r with present := r.present + 1 }
  | .installed => { r with installed := r.installed + 1 }
  | .downloaded => { r with downloaded := r.downloaded + 1 }

inductive Generation where
  | ledger8
  | ledger9
deriving DecidableEq, Repr

structure ProvingFile where
  name : Name
  generation : Generation
deriving DecidableEq, Repr

/-- The expected files that each linked generation declares, with their hashes. -/
structure Linked (H : Type) where
  zswapExpectedFiles : Generation → List (Name × H)
  dustExpectedFiles : Generation → List (Name × H)

/-- What the data provider of a generation is made with. -/
def Linked.expectedData (linked : Linked H) (g : Generation) : List (Name × H) :=
  linked.zswapExpectedFiles g ++ linked.dustExpectedFiles g

def Linked.entries (linked : Linked H) : List (Name × H × Generation) :=
  (linked.expectedData .ledger8).map (fun x => (x.1, x.2, .ledger8)) ++
    (linked.expectedData .ledger9).map (fun x => (x.1, x.2, .ledger9))

def nameK (k : ℕ) : Name := ⟨[], s!"bls_midnight_2p{k}"⟩

/-- One key of the linked lists; the files so far are paired with their hashes. -/
def addExpected (files : List (ProvingFile × H)) (x : Name × H × Generation) :
    Except IoError (List (ProvingFile × H)) :=
  match files.find? (fun f => f.1.name = x.1) with
  | some f =>
    if f.2 = x.2.1 then .ok files
    else .error ⟨.invalidData,
      s!"the linked ledger generations expect different bytes under {x.1.text}"⟩
  | none => .ok (files ++ [(⟨x.1, x.2.2⟩, x.2.1)])

def addAll : List (ProvingFile × H) → List (Name × H × Generation) →
    Except IoError (List (ProvingFile × H))
  | files, [] => .ok files
  | files, x :: rest =>
    match addExpected files x with
    | .error e => .error e
    | .ok files' => addAll files' rest

def ladder (maxK : ℕ) : List ProvingFile :=
  (List.range' minCircuitK (maxK + 1 - minCircuitK)).map (fun k => ⟨nameK k, .ledger9⟩)

def walletProvingFiles (linked : Linked H) (maxK : ℕ) : Except IoError (List ProvingFile) :=
  if baselineMaxCircuitK ≤ maxK ∧ maxK ≤ absoluteMaxCircuitK then
    match addAll [] linked.entries with
    | .error e => .error e
    | .ok files => .ok (files.map Prod.fst ++ ladder maxK)
  else .error ⟨.invalidInput,
    s!"the largest circuit size must be between {baselineMaxCircuitK} and " ++
    s!"{absoluteMaxCircuitK}, got {maxK}: below {baselineMaxCircuitK} drops " ++
    "parameters the wallet's own circuits need, and above " ++
    s!"{absoluteMaxCircuitK} is a size no phone has been measured to prove"⟩

abbrev Cache := Name → Option Bytes

/-- The cache, what `progress` was told, and the operations so far. -/
structure Disk where
  cache : Cache
  told : List (ℕ × ℕ)
  ticks : ℕ

/-- The hash, what the data providers expect and do, and which operations the disk
refuses. A provider may answer otherwise at another moment. -/
structure Sources (H : Type) where
  hash : Bytes → H
  expected : Generation → Name → H
  fetch : Generation → Name → ℕ → Cache → Except IoError Unit × Cache
  refuses : ℕ → Option IoError

abbrev Io (α : Type) := Program Disk IoError α

variable (W : Sources H)

/-- An operation of the disk that may fail. -/
def attempt : Io Unit := fun d =>
  match W.refuses d.ticks with
  | some e => ⟨[], { d with ticks := d.ticks + 1 }, .error e⟩
  | none => ⟨[], { d with ticks := d.ticks + 1 }, .ok ()⟩

def put (x : Name) (file : Option Bytes) : Io Unit := do
  let d ← read
  write { d with cache := Function.update d.cache x file }

def removeFile (x : Name) : Io Unit := do
  attempt W
  let d ← read
  match d.cache x with
  | none => fail ⟨.notFound, "No such file or directory"⟩
  | some _ => put x none

/-- The bytes arrive one by one; the writing may stop after any of them. -/
def writeAll (x : Name) : Bytes → Bytes → Io Unit
  | _, [] => pure ()
  | done, byte :: rest => do
    attempt W
    put x (some (done ++ [byte]))
    writeAll x (done ++ [byte]) rest

def copy (source : Bytes) (x : Name) : Io Unit := do
  attempt W
  put x (some [])
  writeAll W x [] source

def rename (x y : Name) : Io Unit := do
  attempt W
  let d ← read
  match d.cache x with
  | none => fail ⟨.notFound, "No such file or directory"⟩
  | some bytes =>
    write { d with cache := Function.update (Function.update d.cache y (some bytes)) x none }

def copyAtomically (source : Bytes) (destination : Name) : Io Unit := do
  attempt W -- create_dir_all
  copy W source destination.temporary
  rename W destination.temporary destination

def Sources.run (file : ProvingFile) : Io Unit := fun d =>
  let answer := W.fetch file.generation file.name d.ticks d.cache
  ⟨[{ d with cache := answer.2 }],
    { d with cache := answer.2, ticks := d.ticks + 1 }, answer.1⟩

/-- Whether the copy in the cache has the expected hash; one that has not is removed. -/
def verified (file : ProvingFile) : Io Bool :=
  recover (do W.run file; pure true) (fun e =>
    if e.kind = .invalidData then do
      removeFile W file.name
      pure false
    else fail e)

def isCached (file : ProvingFile) : Io Bool := do
  let d ← read
  if (d.cache file.name).isSome then verified W file else pure false

/-- Installs the bundle's file, if it has one. -/
def install (file : ProvingFile) : Option Bytes → Io Bool
  | none => pure false
  | some source => do
    copyAtomically W source file.name
    verified W file

def missing (file : ProvingFile) (e : IoError) : IoError :=
  ⟨e.kind,
    s!"{file.name.text} is not in the cache or the bundle, and downloading it failed: {e.text}"⟩

def download (file : ProvingFile) : Io Unit :=
  recover (W.run file) (fun e => fail (missing file e))

/-- A bundle is laid out as the cache is. -/
def bundled (bundle : Option Cache) (x : Name) : Option Bytes := bundle.bind (fun b => b x)

def provisionOne (bundle : Option Cache) (file : ProvingFile) : Io Provisioned := do
  if ← isCached W file then pure .present
  else if ← install W file (bundled bundle file.name) then pure .installed
  else do
    download W file
    pure .downloaded

def progress (done total : ℕ) : Io Unit := do
  let d ← read
  write { d with told := d.told ++ [(done, total)] }

/-- The files that are left, after `done` of `total`. -/
def provision (bundle : Option Cache) (total : ℕ) :
    ℕ → ProvisionReport → List ProvingFile → Io ProvisionReport
  | _, report, [] => pure report
  | done, report, file :: rest => do
    let outcome ← provisionOne W bundle file
    progress (done + 1) total
    provision bundle total (done + 1) (report.record outcome) rest

def provisionWalletProvingFiles (linked : Linked H) (bundle : Option Cache) (maxK : ℕ) :
    Io ProvisionReport :=
  match walletProvingFiles linked maxK with
  | .error e => fail e
  | .ok files => provision W bundle files.length 0 {} files

end Model

section Listing

/-- The names that the ledger's constants and the parameters go by. -/
def Linked.Names (linked : Linked H) (x : Name) : Prop :=
  (∃ entry ∈ linked.entries, x = entry.1) ∨ ∃ k, x = nameK k

/-- The ledger's names: no file is hidden, and no key is named as parameters are. -/
structure Linked.WellNamed (linked : Linked H) : Prop where
  shown : ∀ x ∈ linked.entries, x.1.fileName.toList.head? ≠ some '.'
  apart : ∀ x ∈ linked.entries, ∀ k, x.1 ≠ nameK k

theorem Linked.mem_entries {linked : Linked H} {x : Name} {h : H} {g : Generation} :
    (x, h, g) ∈ linked.entries ↔ (x, h) ∈ linked.expectedData g := by
  cases g <;> simp [entries]

variable [DecidableEq H]

/-- The files listed so far have one name each. -/
def Once (files : List (ProvingFile × H)) : Prop := (files.map (fun f => f.1.name)).Nodup

theorem addExpected_ok {files files' : List (ProvingFile × H)} {x : Name × H × Generation}
    (h : addExpected files x = .ok files') (honce : Once files) :
    Once files' ∧ (∀ f ∈ files, f ∈ files') ∧
      (∀ f ∈ files', f ∈ files ∨ f = (⟨x.1, x.2.2⟩, x.2.1)) ∧
      ∃ f ∈ files', f.1.name = x.1 ∧ f.2 = x.2.1 := by
  unfold addExpected at h
  cases hfind : files.find? (fun f => f.1.name = x.1) with
  | some f =>
    simp only [hfind] at h
    by_cases hhash : f.2 = x.2.1
    · rw [if_pos hhash] at h
      obtain rfl := Except.ok.inj h
      have hname : f.1.name = x.1 := by simpa using List.find?_some hfind
      exact ⟨honce, fun g hg => hg, fun g hg => Or.inl hg,
        f, List.mem_of_find?_eq_some hfind, hname, hhash⟩
    · rw [if_neg hhash] at h
      cases h
  | none =>
    simp only [hfind] at h
    obtain rfl := Except.ok.inj h
    have hnew : ∀ f ∈ files, f.1.name ≠ x.1 := by simpa using List.find?_eq_none.mp hfind
    refine ⟨?_, fun g hg => List.mem_append_left _ hg, fun g hg => ?_,
      (⟨x.1, x.2.2⟩, x.2.1), List.mem_append_right _ (List.mem_singleton.mpr rfl), rfl, rfl⟩
    · unfold Once
      rw [List.map_append]
      refine List.Nodup.append honce (List.nodup_singleton _) ?_
      intro y hy hy'
      obtain ⟨f, hf, rfl⟩ := List.mem_map.mp hy
      exact hnew f hf (List.mem_singleton.mp hy')
    · rcases List.mem_append.mp hg with h | h
      · exact Or.inl h
      · exact Or.inr (List.mem_singleton.mp h)

theorem addAll_ok {files files' : List (ProvingFile × H)} {entries : List (Name × H × Generation)}
    (h : addAll files entries = .ok files') (honce : Once files) :
    Once files' ∧ (∀ f ∈ files, f ∈ files') ∧
      (∀ f ∈ files', f ∈ files ∨ (f.1.name, f.2, f.1.generation) ∈ entries) ∧
      ∀ x ∈ entries, ∃ f ∈ files', f.1.name = x.1 ∧ f.2 = x.2.1 := by
  induction entries generalizing files with
  | nil =>
    obtain rfl := Except.ok.inj h
    exact ⟨honce, fun f hf => hf, fun f hf => Or.inl hf, fun x hx => (by cases hx)⟩
  | cons x entries ih =>
    cases hadd : addExpected files x with
    | error e =>
      simp only [addAll, hadd] at h
      cases h
    | ok added =>
      simp only [addAll, hadd] at h
      obtain ⟨honce', hkeep, hfrom, f, hf, hname, hhash⟩ := addExpected_ok hadd honce
      obtain ⟨honce'', hkeep', hfrom', hall⟩ := ih h honce'
      refine ⟨honce'', fun g hg => hkeep' g (hkeep g hg), fun g hg => ?_, fun y hy => ?_⟩
      · rcases hfrom' g hg with hg | hg
        · rcases hfrom g hg with hg | rfl
          · exact Or.inl hg
          · exact Or.inr List.mem_cons_self
        · exact Or.inr (List.mem_cons_of_mem _ hg)
      · rcases List.mem_cons.mp hy with rfl | hy
        · exact ⟨f, hkeep' f hf, hname, hhash⟩
        · exact hall y hy

/-- Entries that agree on every name are listed. -/
theorem addAll_total {files : List (ProvingFile × H)} {entries : List (Name × H × Generation)}
    (hfiles : ∀ f ∈ files, ∀ x ∈ entries, f.1.name = x.1 → f.2 = x.2.1)
    (hentries : ∀ x ∈ entries, ∀ y ∈ entries, x.1 = y.1 → x.2.1 = y.2.1) :
    ∃ files', addAll files entries = .ok files' := by
  induction entries generalizing files with
  | nil => exact ⟨files, rfl⟩
  | cons x entries ih =>
    have htail : ∀ y ∈ entries, ∀ z ∈ entries, y.1 = z.1 → y.2.1 = z.2.1 :=
      fun y hy z hz => hentries y (List.mem_cons_of_mem _ hy) z (List.mem_cons_of_mem _ hz)
    unfold addAll addExpected
    cases hfind : files.find? (fun f => f.1.name = x.1) with
    | some f =>
      have hname : f.1.name = x.1 := by simpa using List.find?_some hfind
      have hhash := hfiles f (List.mem_of_find?_eq_some hfind) x List.mem_cons_self hname
      simp only [if_pos hhash]
      exact ih (fun g hg y hy => hfiles g hg y (List.mem_cons_of_mem _ hy)) htail
    | none =>
      refine ih (fun g hg y hy hname => ?_) htail
      rcases List.mem_append.mp hg with hg | hg
      · exact hfiles g hg y (List.mem_cons_of_mem _ hy) hname
      · obtain rfl := List.mem_singleton.mp hg
        exact hentries x List.mem_cons_self y (List.mem_cons_of_mem _ hy) hname

theorem addAll_agree {files' : List (ProvingFile × H)} {entries : List (Name × H × Generation)}
    (h : addAll [] entries = .ok files') :
    ∀ x ∈ entries, ∀ y ∈ entries, x.1 = y.1 → x.2.1 = y.2.1 := by
  obtain ⟨honce, -, -, hall⟩ := addAll_ok h List.nodup_nil
  intro x hx y hy hname
  obtain ⟨f, hf, hfx, hhx⟩ := hall x hx
  obtain ⟨g, hg, hgy, hhy⟩ := hall y hy
  have hfg : f = g := List.inj_on_of_nodup_map honce hf hg (by rw [hfx, hgy, hname])
  rw [← hhx, ← hhy, hfg]

theorem walletProvingFiles_ok_iff {linked : Linked H} {maxK : ℕ} {files : List ProvingFile} :
    walletProvingFiles linked maxK = .ok files ↔
      (baselineMaxCircuitK ≤ maxK ∧ maxK ≤ absoluteMaxCircuitK) ∧
        ∃ keys, addAll [] linked.entries = .ok keys ∧
          files = keys.map Prod.fst ++ ladder maxK := by
  unfold walletProvingFiles
  by_cases hk : baselineMaxCircuitK ≤ maxK ∧ maxK ≤ absoluteMaxCircuitK
  · rw [if_pos hk]
    cases hkeys : addAll [] linked.entries with
    | error e => simp
    | ok keys =>
      simp only [hk, true_and, Except.ok.injEq, exists_eq_left', and_self]
      exact eq_comm
  · simp [hk]

end Listing

section Providers

/-- The cache holds the file with the expected hash. -/
def Right (W : Sources H) (file : ProvingFile) (cache : Cache) : Prop :=
  (cache file.name).map W.hash = some (W.expected file.generation file.name)

instance rightDecidable [DecidableEq H] (W : Sources H) (file : ProvingFile) (cache : Cache) :
    Decidable (Right W file cache) :=
  inferInstanceAs (Decidable (_ = _))

/-- The ledger's data providers. A file that is there is read and hashed, and the network
is not used; one that is not is downloaded and kept only with the expected hash. -/
structure Lawful (W : Sources H) (linked : Linked H) : Prop where
  expected : ∀ g x h, (x, h) ∈ linked.expectedData g → (x, W.expected g x) ∈ linked.expectedData g
  cached : ∀ g x t (c : Cache) b, c x = some b → (W.fetch g x t c).2 = c
  hashed : ∀ g x t (c : Cache) b, c x = some b → (W.fetch g x t c).1 = .ok () →
    W.hash b = W.expected g x
  invalid : ∀ g x t (c : Cache) b e, c x = some b → (W.fetch g x t c).1 = .error e →
    e.kind = .invalidData → W.hash b ≠ W.expected g x
  others : ∀ g x t (c : Cache) y, c x = none → linked.Names y → y ≠ x →
    (W.fetch g x t c).2 y = c y
  left : ∀ g x t (c : Cache) b, c x = none → (W.fetch g x t c).2 x = some b →
    W.hash b = W.expected g x
  fetched : ∀ g x t (c : Cache), c x = none → (W.fetch g x t c).1 = .ok () →
    ∃ b, (W.fetch g x t c).2 x = some b

/-- A failure of the disk: of an operation, or of reading a file that is there. -/
def Fault (W : Sources H) (e : IoError) : Prop :=
  (∃ t, W.refuses t = some e) ∨
    ∃ g x t, ∃ c : Cache, (∃ b, c x = some b) ∧ (W.fetch g x t c).1 = .error e ∧
      e.kind ≠ .invalidData

/-- What a download of the file may answer. -/
def Answers (W : Sources H) (file : ProvingFile) (answer : Except IoError Unit) : Prop :=
  ∃ t, ∃ c : Cache, c file.name = none ∧
    (W.fetch file.generation file.name t c).1 = answer

/-- Where a file comes from. -/
def source [DecidableEq H] (W : Sources H) (bundle : Option Cache) (cache : Cache)
    (file : ProvingFile) : Provisioned :=
  if Right W file cache then .present
  else if Right W file (bundled bundle) then .installed
  else .downloaded

theorem right_iff {W : Sources H} {file : ProvingFile} {cache : Cache} {b : Bytes}
    (h : cache file.name = some b) :
    Right W file cache ↔ W.hash b = W.expected file.generation file.name := by
  unfold Right
  rw [h]
  exact Option.some_inj

theorem not_right {W : Sources H} {file : ProvingFile} {cache : Cache}
    (h : cache file.name = none) : ¬ Right W file cache := by
  unfold Right
  rw [h]
  exact fun h => (by cases h)

theorem right_congr {W : Sources H} {file : ProvingFile} {cache cache' : Cache}
    (h : cache' file.name = cache file.name) : Right W file cache' ↔ Right W file cache := by
  unfold Right
  rw [h]

theorem source_congr [DecidableEq H] {W : Sources H} {bundle : Option Cache}
    {file : ProvingFile} {cache cache' : Cache} (h : cache' file.name = cache file.name) :
    source W bundle cache' file = source W bundle cache file := by
  simp only [source, right_congr h]

end Providers

section Lists

variable [DecidableEq H] {W : Sources H} {linked : Linked H} {maxK : ℕ} {files : List ProvingFile}

theorem nameK_injective : Function.Injective nameK := by
  intro i j h
  have htext : ("bls_midnight_2p" ++ toString i).toList =
      ("bls_midnight_2p" ++ toString j).toList := congrArg (fun x => x.fileName.toList) h
  have hdigits : Nat.toDigits 10 i = Nat.toDigits 10 j := by simpa using htext
  rw [← Nat.ofDigitChars_ten_toDigits (n := i), hdigits, Nat.ofDigitChars_ten_toDigits]

theorem mem_ladder {f : ProvingFile} :
    f ∈ ladder maxK ↔ ∃ k, minCircuitK ≤ k ∧ k ≤ maxK ∧ f = ⟨nameK k, .ledger9⟩ := by
  unfold ladder
  rw [List.mem_map]
  constructor
  · rintro ⟨k, hk, rfl⟩
    rw [List.mem_range'_1] at hk
    exact ⟨k, hk.1, by omega, rfl⟩
  · rintro ⟨k, hlow, hhigh, rfl⟩
    refine ⟨k, ?_, rfl⟩
    rw [List.mem_range'_1]
    omega

theorem files_named (h : walletProvingFiles linked maxK = .ok files) :
    ∀ f ∈ files, linked.Names f.name := by
  obtain ⟨-, keys, hkeys, rfl⟩ := walletProvingFiles_ok_iff.mp h
  obtain ⟨-, -, hfrom, -⟩ := addAll_ok hkeys List.nodup_nil
  intro f hf
  rcases List.mem_append.mp hf with hf | hf
  · obtain ⟨key, hkey, rfl⟩ := List.mem_map.mp hf
    rcases hfrom key hkey with hnil | hentry
    · cases hnil
    · exact Or.inl ⟨_, hentry, rfl⟩
  · obtain ⟨k, -, -, rfl⟩ := mem_ladder.mp hf
    exact Or.inr ⟨k, rfl⟩

/-- No name is listed twice. -/
theorem files_once (hnames : linked.WellNamed) (h : walletProvingFiles linked maxK = .ok files) :
    (files.map ProvingFile.name).Nodup := by
  obtain ⟨-, keys, hkeys, rfl⟩ := walletProvingFiles_ok_iff.mp h
  obtain ⟨honce, -, hfrom, -⟩ := addAll_ok hkeys List.nodup_nil
  rw [List.map_append, List.map_map]
  refine List.Nodup.append honce ?_ ?_
  · unfold ladder
    rw [List.map_map]
    exact List.Nodup.map nameK_injective List.nodup_range'
  · intro x hx hx'
    obtain ⟨key, hkey, rfl⟩ := List.mem_map.mp hx
    obtain ⟨f, hf, hname⟩ := List.mem_map.mp hx'
    obtain ⟨k, -, -, rfl⟩ := mem_ladder.mp hf
    rcases hfrom key hkey with hnil | hentry
    · cases hnil
    · exact hnames.apart _ hentry k hname.symm

/-- A listed key is expected with the hash that every linked generation declares. -/
theorem files_expected (hW : Lawful W linked) (h : walletProvingFiles linked maxK = .ok files)
    (x : Name × H × Generation) (hx : x ∈ linked.entries) :
    ∃ f ∈ files, f.name = x.1 ∧ W.expected f.generation f.name = x.2.1 := by
  obtain ⟨-, keys, hkeys, rfl⟩ := walletProvingFiles_ok_iff.mp h
  obtain ⟨-, -, hfrom, hall⟩ := addAll_ok hkeys List.nodup_nil
  obtain ⟨key, hkey, hname, hhash⟩ := hall x hx
  refine ⟨key.1, List.mem_append_left _ (List.mem_map_of_mem hkey), hname, ?_⟩
  rcases hfrom key hkey with hnil | hentry
  · cases hnil
  · have hexpected := hW.expected _ _ _ (Linked.mem_entries.mp hentry)
    exact addAll_agree hkeys _ (Linked.mem_entries.mpr hexpected) x hx hname

theorem files_from (hW : Lawful W linked) (h : walletProvingFiles linked maxK = .ok files) :
    ∀ f ∈ files, (∃ x ∈ linked.entries, f.name = x.1 ∧
      W.expected f.generation f.name = x.2.1) ∨
      ∃ k, minCircuitK ≤ k ∧ k ≤ maxK ∧ f = ⟨nameK k, .ledger9⟩ := by
  obtain ⟨-, keys, hkeys, rfl⟩ := walletProvingFiles_ok_iff.mp h
  obtain ⟨-, -, hfrom, -⟩ := addAll_ok hkeys List.nodup_nil
  intro f hf
  rcases List.mem_append.mp hf with hf | hf
  · obtain ⟨key, hkey, rfl⟩ := List.mem_map.mp hf
    rcases hfrom key hkey with hnil | hentry
    · cases hnil
    · have hexpected := hW.expected _ _ _ (Linked.mem_entries.mp hentry)
      refine Or.inl ⟨_, hentry, rfl, ?_⟩
      exact addAll_agree hkeys _ (Linked.mem_entries.mpr hexpected) _ hentry rfl
  · exact Or.inr (mem_ladder.mp hf)

end Lists

end MidnightRs.ProvingData
