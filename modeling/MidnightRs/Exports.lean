import MidnightRs.JournalChain

/-!
Exports of the private-state store. An export lists the snapshots of every
address and seals them under a password; an import opens it and replays them.
The key derivation, the cipher, base64 and JSON come from other crates: they are
parameters, and decoding is only assumed to undo encoding.
-/
namespace MidnightRs.Journal

open Chains Loops

section Order

/-- The snapshots by hash. A later one of the same hash replaces an earlier one. -/
def distinct (snaps : List Snapshot) : List Snapshot :=
  snaps.foldl
    (fun m s => s :: m.filter (fun t => decide (t.extrinsicHash ≠ s.extrinsicHash))) []

/-- Roots first, then each snapshot after its parent, then what no root leads to. -/
def topoSort (snaps : List Snapshot) : List Snapshot :=
  let byHash := distinct snaps
  let roots := ((byHash.filter (fun s => s.dependsOn.isNone)).map Snapshot.extrinsicHash).mergeSort
    (fun a b => decide (a ≤ b))
  let order := walkChildren byHash roots
  let out := order.filterMap (fun h => byHash.find? (fun s => decide (s.extrinsicHash = h)))
  let orphans := (byHash.filter (fun s => decide (s.extrinsicHash ∉ order))).mergeSort
    (fun a b => decide (a.extrinsicHash ≤ b.extrinsicHash))
  out ++ orphans

/-- All snapshots of an address, oldest first. -/
def Provider.snapshots (p : Provider) (st : Store) (address : String) : List Snapshot :=
  topoSort (Journal.snapshots p st address)

theorem distinct_perm {snaps : List Snapshot} (h : (snaps.map Snapshot.extrinsicHash).Nodup) :
    (distinct snaps).Perm snaps := by
  suffices hfold : ∀ (rest m : List Snapshot),
      ((m ++ rest).map Snapshot.extrinsicHash).Nodup →
      (rest.foldl (fun m s => s :: m.filter
        (fun t => decide (t.extrinsicHash ≠ s.extrinsicHash))) m).Perm (m ++ rest) by
    exact hfold snaps [] h
  intro rest
  induction rest with
  | nil => exact fun m _ => by simp
  | cons s rest ih =>
    intro m hm
    have hfilter : m.filter (fun t => decide (t.extrinsicHash ≠ s.extrinsicHash)) = m := by
      refine List.filter_eq_self.mpr fun t ht => decide_eq_true fun heq => ?_
      rw [List.map_append] at hm
      exact List.disjoint_of_nodup_append hm (List.mem_map_of_mem ht)
        (heq ▸ List.mem_map_of_mem List.mem_cons_self)
    have hperm : (s :: m ++ rest).Perm (m ++ s :: rest) := List.perm_middle.symm
    rw [List.foldl_cons, hfilter]
    exact (ih (s :: m) ((hperm.map Snapshot.extrinsicHash).nodup_iff.mpr hm)).trans hperm

theorem find?_hash {snaps : List Snapshot} (hnodup : (snaps.map Snapshot.extrinsicHash).Nodup)
    {s : Snapshot} (hs : s ∈ snaps) :
    snaps.find? (fun t => decide (t.extrinsicHash = s.extrinsicHash)) = some s := by
  cases hfind : snaps.find? (fun t => decide (t.extrinsicHash = s.extrinsicHash)) with
  | none => simpa using List.find?_eq_none.mp hfind s hs
  | some t =>
    have hhash : t.extrinsicHash = s.extrinsicHash := by simpa using List.find?_some hfind
    rw [key_injOn (L := Snapshot.links) hnodup (List.mem_of_find?_eq_some hfind) hs hhash]

/-- The order of a journal is that of its chain. -/
theorem topoSort_eq {snaps chain : List Snapshot} (h : IsChain Snapshot.links snaps chain) :
    topoSort snaps = chain.reverse := by
  have hsnaps : (snaps.map Snapshot.extrinsicHash).Nodup :=
    (h.perm.map Snapshot.extrinsicHash).nodup_iff.mp h.nodup
  have hdistinct : IsChain Snapshot.links (distinct snaps) chain :=
    isChain_of_perm h (distinct_perm hsnaps).symm
  have hnodup : ((distinct snaps).map Snapshot.extrinsicHash).Nodup :=
    (hdistinct.perm.map Snapshot.extrinsicHash).nodup_iff.mp h.nodup
  unfold topoSort
  simp only
  generalize hroots : (((distinct snaps).filter (fun s => s.dependsOn.isNone)).map
    Snapshot.extrinsicHash).mergeSort (fun a b => decide (a ≤ b)) = roots
  have hisRoots : IsRoots Snapshot.links (distinct snaps) roots := by
    intro k
    rw [← hroots, List.mem_mergeSort]
    exact isRoots_filter (distinct snaps) k
  have horder : walkChildren (distinct snaps) roots =
      (chain.map Snapshot.extrinsicHash).reverse :=
    congrArg List.reverse (hdistinct.reach_eq (childrenOf_spec _) roots hisRoots)
  have hout : (chain.map Snapshot.extrinsicHash).reverse.filterMap
      (fun h => (distinct snaps).find? (fun s => decide (s.extrinsicHash = h))) =
        chain.reverse := by
    rw [← List.map_reverse, List.filterMap_map]
    rw [List.filterMap_congr (g := some), List.filterMap_some]
    intro s hs
    exact find?_hash hnodup (hdistinct.perm.mem_iff.mp (List.mem_reverse.mp hs))
  have horphans : (distinct snaps).filter
      (fun s => decide (s.extrinsicHash ∉ (chain.map Snapshot.extrinsicHash).reverse)) = [] := by
    refine List.filter_eq_nil_iff.mpr fun s hs => ?_
    rw [decide_eq_true_iff, not_not, List.mem_reverse]
    exact List.mem_map_of_mem (hdistinct.perm.mem_iff.mpr hs)
  rw [horder, hout, horphans, List.mergeSort_nil, List.append_nil]

end Order

section Sealing

abbrev Salt := { bytes : Bytes // bytes.length = 32 }

abbrev Nonce := { bytes : Bytes // bytes.length = 12 }

/-- Argon2id, AES-256-GCM and base64. -/
structure Primitives where
  hashPassword : Bytes → Bytes → Except String Bytes
  aesGcmEncrypt : Bytes → Bytes → Bytes → Bytes → Option Bytes
  aesGcmDecrypt : Bytes → Bytes → Bytes → Bytes → Option Bytes
  base64Encode : Bytes → String
  base64Decode : String → Except String Bytes

/-- The JSON of the entries. -/
structure Json where
  encode : List ExportEntry → Except String Bytes
  decode : Bytes → Except String (List ExportEntry)

structure ExportOptions where
  password : String
  maxEntries : ℕ

def minPasswordLen : ℕ := 16

def ExportOptions.checkPassword (opts : ExportOptions) : Except PrivateStateError Unit :=
  if opts.password.length < minPasswordLen then .error .passwordTooShort else .ok ()

variable (c : Primitives) (json : Json)

def deriveKey (password salt : Bytes) : Except PrivateStateError Bytes :=
  (c.hashPassword password salt).mapError .keyDerivation

/-- The hex of the salt, and the base64 of the nonce and the ciphertext. -/
def encrypt (salt : Salt) (nonce : Nonce) (password : String) (aad plaintext : Bytes) :
    Except PrivateStateError (String × String) :=
  match deriveKey c (Hex.utf8 password) salt.val with
  | .error e => .error e
  | .ok key =>
    match c.aesGcmEncrypt key nonce.val aad plaintext with
    | none => .error (.encrypt "AES-GCM encryption failed")
    | some ciphertext => .ok (Hex.encode salt.val, c.base64Encode (nonce.val ++ ciphertext))

def decrypt (password : String) (aad : Bytes) (saltHex ciphertextB64 : String) :
    Except PrivateStateError Bytes :=
  match Hex.decode saltHex with
  | .error e => .error (.invalidFormat s!"salt is not valid hex: {e}")
  | .ok salt =>
    if salt.length ≠ 32 then
      .error (.invalidFormat s!"salt must be 32 bytes, got {salt.length}")
    else
      match c.base64Decode ciphertextB64 with
      | .error e => .error (.invalidFormat s!"ciphertext is not base64: {e}")
      | .ok combined =>
        if combined.length < 12 then .error (.invalidFormat "ciphertext shorter than nonce")
        else
          match deriveKey c (Hex.utf8 password) salt with
          | .error e => .error e
          | .ok key =>
            match c.aesGcmDecrypt key (combined.take 12) aad (combined.drop 12) with
            | none => .error .decrypt
            | some payload => .ok payload

def sealEntries (format : String) (opts : ExportOptions) (salt : Salt) (nonce : Nonce)
    (records : List ExportEntry) : Except PrivateStateError EncryptedExport :=
  if opts.maxEntries < records.length then .error .tooManyEntries
  else
    match json.encode records with
    | .error e => .error (.serialize e)
    | .ok payload =>
      match encrypt c salt nonce opts.password (Hex.utf8 format) payload with
      | .error e => .error e
      | .ok (salt, ciphertext) => .ok ⟨format, salt, ciphertext⟩

/-- How an import reads an envelope. -/
def codec : Codec := ⟨decrypt c, json.decode⟩

/-- Decrypting with the right key, nonce and associated data undoes encrypting. -/
structure Primitives.Lawful : Prop where
  aesGcm : ∀ key nonce aad msg ciphertext, c.aesGcmEncrypt key nonce aad msg = some ciphertext →
    c.aesGcmDecrypt key nonce aad ciphertext = some msg
  base64 : ∀ bytes, c.base64Decode (c.base64Encode bytes) = .ok bytes

def Json.Lawful : Prop := ∀ entries bytes, json.encode entries = .ok bytes →
  json.decode bytes = .ok entries

variable {c json}

theorem decrypt_encrypt (hc : c.Lawful) {salt : Salt} {nonce : Nonce} {password : String}
    {aad plaintext : Bytes} {sealed : String × String}
    (h : encrypt c salt nonce password aad plaintext = .ok sealed) :
    decrypt c password aad sealed.1 sealed.2 = .ok plaintext := by
  unfold encrypt at h
  cases hkey : deriveKey c (Hex.utf8 password) salt.val with
  | error e => simp [hkey] at h
  | ok key =>
    simp only [hkey] at h
    cases hcipher : c.aesGcmEncrypt key nonce.val aad plaintext with
    | none => simp [hcipher] at h
    | some ciphertext =>
      simp only [hcipher, Except.ok.injEq] at h
      subst h
      have hlength : ¬ (nonce.val ++ ciphertext).length < 12 := by
        rw [List.length_append, nonce.property]
        omega
      have htake : (nonce.val ++ ciphertext).take 12 = nonce.val :=
        List.take_left' nonce.property
      have hdrop : (nonce.val ++ ciphertext).drop 12 = ciphertext :=
        List.drop_left' nonce.property
      unfold decrypt
      simp only [Hex.decode_encode, salt.property, ne_eq, not_true_eq_false, if_false, hc.base64,
        if_neg hlength, hkey, htake, hdrop, hc.aesGcm _ _ _ _ _ hcipher]

/-- Opening an envelope with the password it was sealed with gives its records. -/
theorem openExport_sealEntries (hc : c.Lawful) (hjson : json.Lawful) {format : String}
    {opts : ExportOptions} {salt : Salt} {nonce : Nonce} {records : List ExportEntry}
    {data : EncryptedExport} (h : sealEntries c json format opts salt nonce records = .ok data)
    {iopts : ImportOptions} (hpassword : iopts.password = opts.password)
    (hlimit : records.length ≤ iopts.maxEntries) :
    openExport (codec c json) format data iopts = .ok records := by
  unfold sealEntries at h
  split at h
  · cases h
  cases hpayload : json.encode records with
  | error e => simp [hpayload] at h
  | ok payload =>
    simp only [hpayload] at h
    cases hsealed : encrypt c salt nonce opts.password (Hex.utf8 format) payload with
    | error e => simp [hsealed] at h
    | ok sealed =>
      simp only [hsealed, Except.ok.injEq] at h
      subst h
      have hopen := decrypt_encrypt hc hsealed
      unfold openExport codec
      simp only [ne_eq, not_true_eq_false, if_false, hpassword, hopen, hjson _ _ hpayload,
        if_neg (Nat.not_lt.mpr hlimit)]

end Sealing

section Export

variable (p : Provider) (c : Primitives) (json : Json)

/-- The entries of one directory under `states`. The hash in its name decides
which address its marker may hold. -/
def collectDir (st : Store) (name : String) : Except PrivateStateError (List ExportEntry) :=
  match (st name).bind Dir.marker with
  | none => .ok []
  | some marker =>
    let address := trim marker
    if name ≠ p.hashedName address then
      .error (.invalidFormat s!"address marker at {p.statesDir}/{name}/address.txt holds {address.quote} whose sha256 does not match the directory name (expected directory {p.addressDir address})")
    else .ok ((loadSnapshots p st address).map (fun f => ⟨address, f.2⟩))

/-- The entries of the directories, in the order the listing gives them. -/
def collectExportEntries (st : Store) : List String → Except PrivateStateError (List ExportEntry)
  | [] => .ok []
  | name :: names =>
    match collectDir p st name with
    | .error e => .error e
    | .ok entries =>
      match collectExportEntries st names with
      | .error e => .error e
      | .ok rest => .ok (entries ++ rest)

/-- A listing names each directory once, in any order. -/
structure Lists (st : Store) (names : List String) : Prop where
  nodup : names.Nodup
  mem : ∀ name, name ∈ names ↔ (st name).isSome = true

def exportPrivateStates (salt : Salt) (nonce : Nonce) (st : Store) (names : List String)
    (opts : ExportOptions) : Except PrivateStateError EncryptedExport :=
  match opts.checkPassword with
  | .error e => .error e
  | .ok () =>
    match collectExportEntries p st names with
    | .error e => .error e
    | .ok entries => sealEntries c json formatStates opts salt nonce entries

def forgetAll (_ : Store) : Store × Except PrivateStateError Unit := (Store.empty, .ok ())

/-- A call on one address's journal, on those a payload names, or on all. -/
inductive StoreOp where
  | journal (op : Op)
  | forgetAll

def StoreStep (codec : Codec) (st : Store) : StoreOp → Store → Prop
  | .journal op, st' => Step p codec st op st'
  | .forgetAll, st' => st' = (Journal.forgetAll st).1

end Export

section Directories

variable {p : Provider}

def BlockHashOk (s : Snapshot) : Prop :=
  ∀ hash, s.blockHash = some hash → Hex.isLowercaseHex 64 hash = true

/-- A directory has its marker, and its files name blocks by their hashes. -/
structure DirOk (dir : Dir) : Prop where
  marker : dir.marker.isSome = true
  blocks : ∀ f ∈ dir.files, BlockHashOk f.2

def DirsOk (st : Store) : Prop := ∀ name dir, st name = some dir → DirOk dir

theorem DirsOk.empty : DirsOk Store.empty := fun _ _ h => by cases h

theorem DirsOk.update {st : Store} (h : DirsOk st) (name : String) {dir : Dir} (hdir : DirOk dir) :
    DirsOk (Function.update st name (some dir)) := by
  intro other d hd
  by_cases hn : other = name
  · rw [hn, Function.update_self] at hd
    exact Option.some.inj hd ▸ hdir
  · rw [Function.update_of_ne hn] at hd
    exact h other d hd

theorem DirsOk.updateDir {st : Store} (h : DirsOk st) (address : String) {f : Dir → Dir}
    (hf : ∀ dir, DirOk dir → DirOk (f dir)) : DirsOk (updateDir p st address f) := by
  intro name d hd
  unfold Journal.updateDir at hd
  by_cases hn : name = p.hashedName address
  · rw [hn, Function.update_self] at hd
    obtain ⟨dir, hdir, rfl⟩ := Option.map_eq_some_iff.mp hd
    exact hf dir (h _ dir hdir)
  · rw [Function.update_of_ne hn] at hd
    exact h name d hd

theorem DirOk.write {dir : Dir} (h : DirOk dir) (name : FileName) {snap : Snapshot}
    (hsnap : BlockHashOk snap) : DirOk (dir.write name snap) := by
  refine ⟨h.marker, fun f hf => ?_⟩
  rcases List.mem_cons.mp hf with rfl | hf
  · exact hsnap
  · exact h.blocks f (List.mem_filter.mp hf).1

theorem DirOk.remove {dir : Dir} (h : DirOk dir) (name : FileName) : DirOk (dir.remove name) :=
  ⟨h.marker, fun f hf => h.blocks f (List.mem_filter.mp hf).1⟩

theorem DirsOk.ensureAddressMarker {st : Store} (h : DirsOk st) (address : String) :
    DirsOk (ensureAddressMarker p st address).1 := by
  have hfiles : ∀ f ∈ ((st (p.hashedName address)).getD Dir.empty).files, BlockHashOk f.2 := by
    intro f hf
    cases hst : st (p.hashedName address) with
    | none => simp [hst, Dir.empty] at hf
    | some dir =>
      rw [hst] at hf
      exact (h _ dir hst).blocks f hf
  unfold Journal.ensureAddressMarker
  simp only
  cases hmarker : ((st (p.hashedName address)).getD Dir.empty).marker with
  | none => exact h.update _ ⟨rfl, hfiles⟩
  | some existing =>
    have hdir : DirOk ((st (p.hashedName address)).getD Dir.empty) :=
      ⟨by rw [hmarker]; rfl, hfiles⟩
    simp only
    split
    · exact h.update _ hdir
    · exact h.update _ hdir

theorem DirsOk.appendPending {st : Store} (h : DirsOk st) (nanos : ℕ) (address : String)
    (ext : Hash32) (dependsOn : Option Hash32) (state : Bytes) :
    DirsOk (appendPending p nanos st address ext dependsOn state).1 := by
  have hmarker : DirsOk (Journal.ensureAddressMarker p st address).1 :=
    h.ensureAddressMarker address
  unfold Journal.appendPending
  cases hout : Journal.ensureAddressMarker p st address with
  | mk st' result =>
    rw [hout] at hmarker
    cases result with
    | error e => exact hmarker
    | ok u =>
      simp only
      split
      · exact hmarker
      cases headSnapshot p st' address with
      | error e => exact hmarker
      | ok head =>
        simp only
        split
        · exact hmarker
        · refine hmarker.updateDir address fun dir hdir => hdir.write _ ?_
          intro hash hhash
          cases hhash

theorem DirsOk.confirm {st : Store} (h : DirsOk st) (address : String) (ext : Hash32)
    (blockHeight : Option ℕ) (blockHash : Hash32) :
    DirsOk (confirm p st address ext blockHeight blockHash).1 := by
  unfold Journal.confirm
  cases findSnapshotPath p st address ext.hex with
  | none => exact h
  | some path =>
    simp only
    cases hread : (st (p.hashedName address)).bind (fun dir => dir.read path) with
    | none => exact h
    | some snap =>
      have hsnap : BlockHashOk snap := by
        obtain ⟨dir, hdir, hfile⟩ := Option.bind_eq_some_iff.mp hread
        obtain ⟨f, hfind, rfl⟩ := Option.map_eq_some_iff.mp hfile
        exact (h _ dir hdir).blocks f (List.mem_of_find?_eq_some hfind)
      simp only
      split
      · split
        · exact h
        split
        · exact h.updateDir address fun dir hdir => hdir.write path hsnap
        · exact h
      · refine h.updateDir address fun dir hdir => hdir.write path ?_
        intro hash hhash
        exact Option.some.inj hhash ▸ hex_isLowercaseHex blockHash

theorem DirsOk.cascadeDrop {st : Store} (h : DirsOk st) (address startHash : String) :
    DirsOk (cascadeDrop p st address startHash).1 := by
  unfold Journal.cascadeDrop
  simp only
  split
  · refine List.foldlRecOn _ _ h fun st hst hash _ => ?_
    split
    · exact hst
    · exact hst.updateDir address fun dir hdir => hdir.remove _
  · exact h

theorem DirsOk.forget {st : Store} (h : DirsOk st) (address : String) :
    DirsOk (forget p st address).1 := by
  intro name dir hdir
  change Function.update st (p.hashedName address) none name = some dir at hdir
  by_cases hn : name = p.hashedName address
  · rw [hn, Function.update_self] at hdir
    cases hdir
  · rw [Function.update_of_ne hn] at hdir
    exact h name dir hdir

theorem DirsOk.commitStaged {staged : List Staged}
    (hstaged : ∀ e ∈ staged, BlockHashOk e.1.snapshot) {st : Store} (h : DirsOk st) :
    DirsOk (commitStaged p st staged).1 := by
  induction staged generalizing st with
  | nil => exact h
  | cons e rest ih =>
    obtain ⟨entry, target⟩ := e
    have hrest : ∀ e ∈ rest, BlockHashOk e.1.snapshot :=
      fun e he => hstaged e (List.mem_cons_of_mem _ he)
    have hmarker : DirsOk (Journal.ensureAddressMarker p st entry.address).1 :=
      h.ensureAddressMarker entry.address
    unfold Journal.commitStaged
    cases hout : Journal.ensureAddressMarker p st entry.address with
    | mk st' result =>
      rw [hout] at hmarker
      cases result with
      | error e => exact hmarker
      | ok u =>
        cases target with
        | none => exact ih hrest hmarker
        | some path =>
          exact ih hrest (hmarker.updateDir entry.address fun dir hdir =>
            hdir.write path (hstaged _ List.mem_cons_self))

/-- What is staged is what was given. -/
theorem stageEntries_staged {conflict : ConflictStrategy} {clock : ℕ → ℕ}
    (entries : List ExportEntry) {s s' : Staging}
    (h : stageEntries conflict clock s entries = .ok s') :
    s'.staged.map Prod.fst = s.staged.map Prod.fst ++ entries := by
  induction entries generalizing s with
  | nil => rw [← Except.ok.inj h, List.append_nil]
  | cons entry entries ih =>
    unfold stageEntries at h
    cases hone : stageEntry conflict (clock s.staged.length) s entry with
    | error e => simp [hone] at h
    | ok s₁ =>
      rw [hone] at h
      have hstaged : s₁.staged.map Prod.fst = s.staged.map Prod.fst ++ [entry] := by
        unfold stageEntry at hone
        simp only at hone
        split at hone
        · cases hone
        split at hone
        · cases hone
        · rw [← Except.ok.inj hone, List.map_append]
          rfl
        · rw [← Except.ok.inj hone, List.map_append]
          rfl
      rw [ih h, hstaged, List.append_assoc]
      rfl

theorem validateHashField_eq_ok_iff (name : String) (field : Option String) :
    validateHashField name field = .ok () ↔
      ∀ hash, field = some hash → Hex.isLowercaseHex 64 hash = true := by
  cases field with
  | none => simp [validateHashField]
  | some hash => simp [validateHashField]

/-- The hashes that an import accepts. -/
structure HashesOk (s : Snapshot) : Prop where
  extrinsicHash : Hex.isLowercaseHex 64 s.extrinsicHash = true
  dependsOn : ∀ hash, s.dependsOn = some hash → Hex.isLowercaseHex 64 hash = true
  blockHash : BlockHashOk s

theorem validateEntry_eq_ok_iff (entry : ExportEntry) :
    validateEntry entry = .ok () ↔ HashesOk entry.snapshot := by
  have hbind : ∀ (x : Except PrivateStateError Unit) (y : Unit → Except PrivateStateError Unit),
      (x >>= y) = .ok () ↔ x = .ok () ∧ y () = .ok () := by
    intro x y
    cases x <;> simp [bind, Except.bind]
  unfold validateEntry
  rw [hbind, hbind, validateHashField_eq_ok_iff, validateHashField_eq_ok_iff,
    validateHashField_eq_ok_iff]
  constructor
  · exact fun ⟨hext, hdepends, hblock⟩ => ⟨hext _ rfl, hdepends, hblock⟩
  · exact fun h => ⟨fun hash hhash => Option.some.inj hhash ▸ h.extrinsicHash, h.dependsOn,
      h.blockHash⟩

theorem forM_validateEntry_iff (entries : List ExportEntry) :
    entries.forM validateEntry = .ok () ↔ ∀ entry ∈ entries, HashesOk entry.snapshot := by
  induction entries with
  | nil => simp [List.forM_nil, pure, Except.pure]
  | cons entry entries ih =>
    rw [List.forall_mem_cons, ← validateEntry_eq_ok_iff, ← ih]
    change (validateEntry entry >>= fun _ => entries.forM validateEntry) = .ok () ↔ _
    cases validateEntry entry <;> simp [bind, Except.bind]

theorem DirsOk.importPrivateStates {st : Store} (h : DirsOk st) (codec : Codec) (clock : ℕ → ℕ)
    (data : EncryptedExport) (opts : ImportOptions) :
    DirsOk (importPrivateStates p codec clock st data opts).1 := by
  unfold Journal.importPrivateStates
  cases openExport codec formatStates data opts with
  | error e => exact h
  | ok entries =>
    simp only [applyImportEntries]
    cases hvalid : entries.forM validateEntry with
    | error e => exact h
    | ok u =>
    cases rejectDuplicates [] entries with
    | error e => exact h
    | ok u =>
    cases hstage : stageEntries opts.conflict clock ⟨loadByHash p st, [], ⟨0, 0, 0⟩⟩ entries with
    | error e => exact h
    | ok s =>
    simp only
    cases checkMerged s.perAddress (entries.map ExportEntry.address).dedup with
    | error e => exact h
    | ok u =>
      have hstaged : ∀ e ∈ s.staged, BlockHashOk e.1.snapshot := by
        intro e he
        have hmem : e.1 ∈ s.staged.map Prod.fst := List.mem_map_of_mem he
        rw [stageEntries_staged entries hstage] at hmem
        exact ((forM_validateEntry_iff entries).mp hvalid e.1 hmem).blockHash
      have hcommit : DirsOk (Journal.commitStaged p st s.staged).1 := h.commitStaged hstaged
      simp only
      split
      · rename_i hout
        rw [hout] at hcommit
        exact hcommit
      · rename_i hout
        rw [hout] at hcommit
        exact hcommit

theorem DirsOk.apply {st : Store} (h : DirsOk st) (codec : Codec) (op : Op) :
    DirsOk (op.apply p codec st) := by
  cases op with
  | appendPending nanos address ext dependsOn state =>
    exact h.appendPending nanos address ext dependsOn state
  | confirm address ext blockHeight blockHash => exact h.confirm address ext blockHeight blockHash
  | markFailed address ext => exact h.cascadeDrop address ext.hex
  | rollbackFrom address ext => exact h.cascadeDrop address ext.hex
  | forget address => exact h.forget address
  | importPrivateStates clock data opts => exact h.importPrivateStates codec clock data opts

/-- What every run of calls keeps. -/
structure Exportable (p : Provider) (st : Store) : Prop where
  store : StoreOk p st
  dirs : DirsOk st

theorem run_exportable {codec : Codec} {ops : List StoreOp} {st st' : Store}
    (hrun : Run (StoreStep p codec) st ops st') (h : Exportable p st) : Exportable p st' := by
  refine hrun.invariant (Exportable p) ?_ h
  intro s op s' hstep hs
  cases op with
  | journal op =>
    obtain ⟨haddr, rfl⟩ := hstep
    exact ⟨(apply_preserves hs.store codec op haddr).ok, hs.dirs.apply codec op⟩
  | forgetAll =>
    cases hstep
    exact ⟨StoreOk.empty, DirsOk.empty⟩

end Directories

section Contents

variable {p : Provider}

def ExportEntry.key (e : ExportEntry) : String × String := (e.address, e.snapshot.extrinsicHash)

/-- The entries are the snapshots of the store, each once. -/
structure Carries (p : Provider) (st : Store) (entries : List ExportEntry) : Prop where
  nodup : (entries.map ExportEntry.key).Nodup
  mem : ∀ e, e ∈ entries ↔ e.snapshot ∈ snapshots p st e.address

theorem exists_dir_of_mem {st : Store} {address : String} {s : Snapshot}
    (hs : s ∈ snapshots p st address) :
    ∃ dir, st (p.hashedName address) = some dir ∧ ∃ name, (name, s) ∈ dir.files := by
  obtain ⟨f, hf, rfl⟩ := List.mem_map.mp ((snapshots_perm st address).mem_iff.mp hs)
  obtain ⟨dir, hdir⟩ := Option.isSome_iff_exists.mp (isSome_of_mem_files hf)
  refine ⟨dir, hdir, f.1, ?_⟩
  unfold files at hf
  rw [hdir] at hf
  exact hf

theorem Exportable.marker {st : Store} (h : Exportable p st) {name : String} {dir : Dir}
    (hdir : st name = some dir) :
    ∃ m, dir.marker = some m ∧ p.hashedName m = name ∧ Trimmed m := by
  obtain ⟨m, hm⟩ := Option.isSome_iff_exists.mp (h.dirs name dir hdir).marker
  exact ⟨m, hm, h.store.markers name dir hdir m hm⟩

theorem Exportable.trimmed {st : Store} (h : Exportable p st) {address : String} {s : Snapshot}
    (hs : s ∈ snapshots p st address) : Trimmed address := by
  obtain ⟨dir, hdir, -⟩ := exists_dir_of_mem hs
  obtain ⟨m, -, hname, hm⟩ := h.marker hdir
  exact p.hashedName_injective hname ▸ hm

/-- Every snapshot of a store passes the checks of an import. -/
theorem Exportable.hashesOk {st : Store} (h : Exportable p st) {address : String} {s : Snapshot}
    (hs : s ∈ snapshots p st address) : HashesOk s := by
  have hhex : ∀ t ∈ snapshots p st address, Hex.isLowercaseHex 64 t.extrinsicHash = true := by
    intro t ht
    obtain ⟨f, hf, rfl⟩ := List.mem_map.mp ((snapshots_perm st address).mem_iff.mp ht)
    exact (h.store.files address).hex f hf
  refine ⟨hhex s hs, fun hash hhash => ?_, ?_⟩
  · obtain ⟨chain, hchain⟩ := h.store.isChain address
    obtain ⟨q, hq, rfl⟩ := (isChain_shape hchain).2.2 s hs hash hhash
    exact hhex q hq
  · obtain ⟨dir, hdir, name, hmem⟩ := exists_dir_of_mem hs
    exact (h.dirs _ dir hdir).blocks _ hmem

theorem collectDir_spec {st : Store} (h : Exportable p st) (name : String) :
    ∃ entries, collectDir p st name = .ok entries ∧ (entries.map ExportEntry.key).Nodup ∧
      ∀ e, e ∈ entries ↔ p.hashedName e.address = name ∧ e.snapshot ∈ snapshots p st e.address := by
  unfold collectDir
  cases hst : st name with
  | none =>
    refine ⟨[], rfl, List.nodup_nil, fun e => ⟨fun he => (by cases he), fun ⟨hname, hmem⟩ => ?_⟩⟩
    obtain ⟨dir, hdir, -⟩ := exists_dir_of_mem hmem
    rw [hname, hst] at hdir
    cases hdir
  | some dir =>
    obtain ⟨m, hm, hname, htrim⟩ := h.marker hst
    have htrim : trim m = m := htrim
    refine ⟨(loadSnapshots p st m).map (fun f => ⟨m, f.2⟩), ?_, ?_, fun e => ?_⟩
    · simp only [Option.bind_some, hm, htrim, hname, ne_eq, not_true_eq_false, if_false]
    · have hnodup := (h.store.nodup m).map (fun a b heq => (Prod.mk.inj heq).2 :
        Function.Injective (fun hash => (m, hash)))
      unfold snapshots at hnodup
      rw [List.map_map, List.map_map] at hnodup
      rw [List.map_map]
      exact hnodup
    · constructor
      · intro he
        obtain ⟨f, hf, rfl⟩ := List.mem_map.mp he
        exact ⟨hname, List.mem_map_of_mem hf⟩
      · rintro ⟨hname', hmem⟩
        have hm' : e.address = m := p.hashedName_injective (hname'.trans hname.symm)
        rw [hm'] at hmem
        obtain ⟨f, hf, hsnap⟩ := List.mem_map.mp hmem
        refine List.mem_map.mpr ⟨f, hf, ?_⟩
        rw [hsnap, ← hm']

/-- Collecting never fails on a store that calls built, and misses nothing. -/
theorem collectExportEntries_spec {st : Store} (h : Exportable p st) {names : List String}
    (hnames : Lists st names) :
    ∃ entries, collectExportEntries p st names = .ok entries ∧ Carries p st entries := by
  suffices hlist : ∀ names : List String, names.Nodup →
      ∃ entries, collectExportEntries p st names = .ok entries ∧
        (entries.map ExportEntry.key).Nodup ∧
        ∀ e, e ∈ entries ↔
          p.hashedName e.address ∈ names ∧ e.snapshot ∈ snapshots p st e.address by
    obtain ⟨entries, hcollect, hnodup, hmem⟩ := hlist names hnames.nodup
    refine ⟨entries, hcollect, hnodup, fun e => (hmem e).trans ⟨And.right, fun hs => ⟨?_, hs⟩⟩⟩
    obtain ⟨dir, hdir, -⟩ := exists_dir_of_mem hs
    exact (hnames.mem _).mpr (by rw [hdir]; rfl)
  intro names
  induction names with
  | nil => exact fun _ => ⟨[], rfl, List.nodup_nil, fun e => by simp⟩
  | cons name names ih =>
    intro hnodup
    rw [List.nodup_cons] at hnodup
    obtain ⟨here, hhere, hherekeys, hheremem⟩ := collectDir_spec h name
    obtain ⟨rest, hrest, hrestkeys, hrestmem⟩ := ih hnodup.2
    refine ⟨here ++ rest, by simp only [collectExportEntries, hhere, hrest], ?_, fun e => ?_⟩
    · rw [List.map_append]
      refine hherekeys.append hrestkeys fun k hk hk' => ?_
      obtain ⟨e, he, rfl⟩ := List.mem_map.mp hk
      obtain ⟨e', he', hkey⟩ := List.mem_map.mp hk'
      have haddress : e'.address = e.address := (Prod.mk.inj hkey).1
      have hname := ((hrestmem e').mp he').1
      rw [haddress, ((hheremem e).mp he).1] at hname
      exact hnodup.1 hname
    · rw [List.mem_append, hheremem, hrestmem, List.mem_cons]
      constructor
      · rintro (⟨hname, hs⟩ | ⟨hname, hs⟩)
        · exact ⟨Or.inl hname, hs⟩
        · exact ⟨Or.inr hname, hs⟩
      · rintro ⟨hname | hname, hs⟩
        · exact Or.inl ⟨hname, hs⟩
        · exact Or.inr ⟨hname, hs⟩

/-- The snapshots among the entries that belong to an address. -/
def entriesAt (entries : List ExportEntry) (address : String) : List Snapshot :=
  (entries.filter (fun e => decide (e.address = address))).map ExportEntry.snapshot

theorem Carries.entriesAt_perm {st : Store} {entries : List ExportEntry} (h : Exportable p st)
    (hc : Carries p st entries) (address : String) :
    (entriesAt entries address).Perm (snapshots p st address) := by
  have hnodup : (entriesAt entries address).Nodup := by
    refine List.Nodup.map_on ?_ (hc.nodup.of_map.filter _)
    intro e he e' he' hsnap
    have ha : e.address = address := of_decide_eq_true (List.mem_filter.mp he).2
    have ha' : e'.address = address := of_decide_eq_true (List.mem_filter.mp he').2
    cases e
    cases e'
    subst ha
    cases ha'
    cases hsnap
    rfl
  refine (List.perm_ext_iff_of_nodup hnodup (h.store.nodup address).of_map).mpr fun s => ?_
  constructor
  · intro hs
    obtain ⟨e, he, rfl⟩ := List.mem_map.mp hs
    obtain ⟨he, ha⟩ := List.mem_filter.mp he
    exact of_decide_eq_true ha ▸ (hc.mem e).mp he
  · intro hs
    exact List.mem_map.mpr ⟨⟨address, s⟩,
      List.mem_filter.mpr ⟨(hc.mem ⟨address, s⟩).mpr hs, decide_eq_true rfl⟩, rfl⟩

/-- What two stores with the same journals carry differs only in its order. -/
theorem Carries.perm {p' : Provider} {st st' : Store} {entries entries' : List ExportEntry}
    (hc : Carries p st entries) (hc' : Carries p' st' entries')
    (hsame : ∀ address, (snapshots p' st' address).Perm (snapshots p st address)) :
    entries'.Perm entries := by
  refine (List.perm_ext_iff_of_nodup hc'.nodup.of_map hc.nodup.of_map).mpr fun e => ?_
  rw [hc'.mem, hc.mem, (hsame e.address).mem_iff]

end Contents

section Fresh

variable {p : Provider}

/-- The merged journals after these entries, in a store that had none. -/
def View (entries : List ExportEntry) (s : Staging) : Prop :=
  ∀ address, (s.perAddress address).map (fun e => (e.1, e.2.2)) =
    ((entriesAt entries address).map (fun snap => (snap.extrinsicHash, snap))).reverse

theorem entriesAt_append_singleton (entries : List ExportEntry) (e : ExportEntry)
    (address : String) :
    entriesAt (entries ++ [e]) address =
      if e.address = address then entriesAt entries address ++ [e.snapshot]
      else entriesAt entries address := by
  unfold entriesAt
  rw [List.filter_append, List.map_append]
  by_cases ha : e.address = address
  · simp [ha]
  · simp [ha]

/-- In a store that had none, a new entry is written to a file of its own. -/
theorem stageEntry_fresh {done : List ExportEntry} {s : Staging} (hview : View done s)
    (conflict : ConflictStrategy) (nanos : ℕ) {entry : ExportEntry}
    (hnew : entry.key ∉ done.map ExportEntry.key) :
    ∃ s', stageEntry conflict nanos s entry = .ok s' ∧ View (done ++ [entry]) s' ∧
      s'.result = { s.result with imported := s.result.imported + 1 } := by
  have hkeys : ∀ e ∈ s.perAddress entry.address, e.1 ≠ entry.snapshot.extrinsicHash := by
    intro e he hhash
    have hmem : (e.1, e.2.2) ∈ (s.perAddress entry.address).map (fun e => (e.1, e.2.2)) :=
      List.mem_map_of_mem he
    rw [hview, List.mem_reverse] at hmem
    obtain ⟨snap, hsnap, hpair⟩ := List.mem_map.mp hmem
    obtain ⟨d, hd, rfl⟩ := List.mem_map.mp hsnap
    obtain ⟨hd, ha⟩ := List.mem_filter.mp hd
    refine hnew (List.mem_map.mpr ⟨d, hd, ?_⟩)
    exact Prod.ext (of_decide_eq_true ha) ((Prod.mk.inj hpair).1.trans hhash)
  have hget : (s.perAddress entry.address).get entry.snapshot.extrinsicHash = none := by
    refine Option.map_eq_none_iff.mpr (List.find?_eq_none.mpr fun e he => ?_)
    simpa using hkeys e he
  have hinsert : ∀ value : FileName × Snapshot,
      (s.perAddress entry.address).insert entry.snapshot.extrinsicHash value =
        (entry.snapshot.extrinsicHash, value) :: s.perAddress entry.address := by
    intro value
    exact congrArg (List.cons _)
      (List.filter_eq_self.mpr fun e he => decide_eq_true (hkeys e he))
  unfold stageEntry
  simp only [hget, hinsert]
  rw [if_neg (by simp)]
  refine ⟨_, rfl, fun address => ?_, rfl⟩
  rw [entriesAt_append_singleton]
  simp only
  by_cases ha : entry.address = address
  · subst ha
    rw [if_pos rfl, Function.update_self, List.map_cons, hview entry.address, List.map_append,
      List.reverse_append]
    rfl
  · rw [if_neg ha, Function.update_of_ne (Ne.symm ha)]
    exact hview address

theorem stageEntries_fresh (conflict : ConflictStrategy) (clock : ℕ → ℕ)
    (entries done : List ExportEntry) {s : Staging} (hview : View done s)
    (hnodup : ((done ++ entries).map ExportEntry.key).Nodup) :
    ∃ s', stageEntries conflict clock s entries = .ok s' ∧ View (done ++ entries) s' ∧
      s'.result = { s.result with imported := s.result.imported + entries.length } := by
  induction entries generalizing done s with
  | nil => exact ⟨s, rfl, by rw [List.append_nil]; exact hview, rfl⟩
  | cons entry entries ih =>
    have happ : done ++ entry :: entries = (done ++ [entry]) ++ entries := by simp
    have hnew : entry.key ∉ done.map ExportEntry.key := by
      rw [List.map_append] at hnodup
      exact fun hmem => List.disjoint_of_nodup_append hnodup hmem
        (List.mem_map_of_mem List.mem_cons_self)
    obtain ⟨s₁, hone, hview₁, hresult₁⟩ :=
      stageEntry_fresh hview conflict (clock s.staged.length) hnew
    rw [happ] at hnodup ⊢
    obtain ⟨s', hrest, hview', hresult'⟩ := ih (done ++ [entry]) hview₁ hnodup
    refine ⟨s', by simp only [stageEntries, hone, hrest], hview', ?_⟩
    rw [hresult', hresult₁, List.length_cons]
    simp only [ImportResult.mk.injEq, and_true]
    omega

theorem rejectDuplicates_eq_ok {seen : List (String × String)} {entries : List ExportEntry}
    (hnodup : (entries.map ExportEntry.key).Nodup)
    (hseen : ∀ e ∈ entries, e.key ∉ seen) : rejectDuplicates seen entries = .ok () := by
  induction entries generalizing seen with
  | nil => rfl
  | cons entry entries ih =>
    rw [List.map_cons, List.nodup_cons] at hnodup
    have hnew : (entry.address, entry.snapshot.extrinsicHash) ∉ seen :=
      hseen entry List.mem_cons_self
    unfold rejectDuplicates
    simp only [if_neg hnew]
    refine ih hnodup.2 fun e he hmem => ?_
    rcases List.mem_cons.mp hmem with hkey | hmem
    · exact hnodup.1 (List.mem_map.mpr ⟨e, he, hkey⟩)
    · exact hseen e (List.mem_cons_of_mem _ he) hmem

theorem checkMerged_eq_ok {perAddress : String → ByHash} {addresses : List String}
    (h : ∀ a ∈ addresses, ∃ o, findLeaf ((perAddress a).map (fun e => e.2.2)) = .ok o) :
    checkMerged perAddress addresses = .ok () := by
  induction addresses with
  | nil => rfl
  | cons a addresses ih =>
    obtain ⟨o, ho⟩ := h a List.mem_cons_self
    simp only [checkMerged, ho]
    exact ih fun b hb => h b (List.mem_cons_of_mem _ hb)

/-- Replaying what a store carries into an empty store gives its journals. -/
theorem applyImportEntries_carried (p' : Provider) {st : Store} (h : Exportable p st)
    {entries : List ExportEntry} (hc : Carries p st entries) (clock : ℕ → ℕ)
    (conflict : ConflictStrategy) :
    ∃ st', applyImportEntries p' clock Store.empty entries conflict =
        (st', .ok ⟨entries.length, 0, 0⟩) ∧ StoreOk p' st' ∧
      ∀ address, (snapshots p' st' address).Perm (snapshots p st address) := by
  have hhashes : ∀ e ∈ entries, HashesOk e.snapshot :=
    fun e he => h.hashesOk ((hc.mem e).mp he)
  have hvalid : entries.forM validateEntry = .ok () := (forM_validateEntry_iff entries).mpr hhashes
  have hdup : rejectDuplicates [] entries = .ok () :=
    rejectDuplicates_eq_ok hc.nodup fun e _ hmem => (by cases hmem)
  obtain ⟨s, hstage, hview, hresult⟩ := stageEntries_fresh conflict clock entries []
    (s := ⟨loadByHash p' Store.empty, [], ⟨0, 0, 0⟩⟩) (fun address => rfl)
    (by rw [List.nil_append]; exact hc.nodup)
  rw [List.nil_append] at hview
  -- The merged journal of an address is its journal in the exported store.
  have hmerged : ∀ address, ((s.perAddress address).map (fun e => e.2.2)).Perm
      (snapshots p st address) := by
    intro address
    have hmap := congrArg (List.map Prod.snd) (hview address)
    rw [List.map_map, ← List.map_reverse, List.map_map] at hmap
    have hsnaps : (s.perAddress address).map (fun e => e.2.2) =
        (entriesAt entries address).reverse := by
      rw [show (fun e : String × FileName × Snapshot => e.2.2) =
        Prod.snd ∘ (fun e => (e.1, e.2.2)) from rfl, hmap]
      exact List.map_id _
    rw [hsnaps]
    exact (List.reverse_perm _).trans (hc.entriesAt_perm h address)
  have hcheck : checkMerged s.perAddress (entries.map ExportEntry.address).dedup = .ok () := by
    refine checkMerged_eq_ok fun address _ => ?_
    obtain ⟨chain, hchain⟩ := h.store.isChain address
    exact ⟨_, findLeaf_of_isChain _ chain (isChain_of_perm hchain (hmerged address).symm)⟩
  obtain ⟨keys, st', hmerge, hkeys⟩ := Merging.stageAll conflict clock entries
    (Merging.init StoreOk.empty) (fun e he => h.trimmed ((hc.mem e).mp he))
    (fun e he => (hhashes e he).extrinsicHash) hdup hstage
  have hfiles : ∀ address, (snapshots p' st' address).Perm (snapshots p st address) := by
    intro address
    have hmap := (hmerge.merged address).map Prod.snd
    rw [List.map_map, List.map_map] at hmap
    exact (snapshots_perm st' address).trans (hmap.symm.trans (hmerged address))
  have hpres : Preserves p' Store.empty st' := by
    refine hmerge.preserves StoreOk.empty fun a ha => checkMerged_ok hcheck a ?_
    rw [List.mem_dedup]
    by_contra hne
    exact hkeys a (by simp) hne ha
  refine ⟨st', ?_, hpres.ok, hfiles⟩
  unfold applyImportEntries
  simp only [hvalid, hdup, hstage, hcheck, hmerge.commit, hresult, Nat.zero_add]

end Fresh

section RoundTrip

/-- The export of a store that carries these entries. -/
theorem exportPrivateStates_eq {p : Provider} (c : Primitives) (json : Json) (salt : Salt)
    (nonce : Nonce) {st : Store} {names : List String} {entries : List ExportEntry}
    (hcollect : collectExportEntries p st names = .ok entries) (opts : ExportOptions) :
    exportPrivateStates p c json salt nonce st names opts = opts.checkPassword.bind
      (fun _ => sealEntries c json formatStates opts salt nonce entries) := by
  unfold exportPrivateStates
  rw [hcollect]
  cases opts.checkPassword <;> rfl

theorem sealEntries_of_export {p : Provider} {c : Primitives} {json : Json} {salt : Salt}
    {nonce : Nonce} {st : Store} {names : List String} {entries : List ExportEntry}
    {opts : ExportOptions} {data : EncryptedExport}
    (hcollect : collectExportEntries p st names = .ok entries)
    (h : exportPrivateStates p c json salt nonce st names opts = .ok data) :
    sealEntries c json formatStates opts salt nonce entries = .ok data := by
  rw [exportPrivateStates_eq c json salt nonce hcollect opts] at h
  cases hpassword : opts.checkPassword with
  | error e => rw [hpassword] at h; cases h
  | ok u => rw [hpassword] at h; exact h

theorem length_le_of_sealEntries {c : Primitives} {json : Json} {format : String}
    {opts : ExportOptions} {salt : Salt} {nonce : Nonce} {records : List ExportEntry}
    {data : EncryptedExport} (h : sealEntries c json format opts salt nonce records = .ok data) :
    records.length ≤ opts.maxEntries := by
  unfold sealEntries at h
  split at h
  · cases h
  · exact Nat.not_lt.mp ‹_›

/-- After any run of calls from an empty store, an export fails on its password,
its size or its sealing only. With the same password an empty store imports it
whole and holds, for each address, the same chain in the same order; its own
export carries the same entries. -/
theorem export_import_journals (p p' : Provider) (c : Primitives) (json : Json) (hc : c.Lawful)
    (hjson : json.Lawful) (k : Codec) (ops : List StoreOp) (st : Store)
    (hrun : Run (StoreStep p k) Store.empty ops st) (names : List String)
    (hnames : Lists st names) :
    ∃ entries, Carries p st entries ∧
      (∀ salt nonce opts, exportPrivateStates p c json salt nonce st names opts =
        opts.checkPassword.bind
          (fun _ => sealEntries c json formatStates opts salt nonce entries)) ∧
      ∀ salt nonce opts data iopts clock,
        exportPrivateStates p c json salt nonce st names opts = .ok data →
        iopts.password = opts.password → entries.length ≤ iopts.maxEntries →
        ∃ st', importPrivateStates p' (codec c json) clock Store.empty data iopts =
            (st', .ok ⟨entries.length, 0, 0⟩) ∧
          (∀ address, ∃ chain, IsChain Snapshot.links (snapshots p st address) chain ∧
            IsChain Snapshot.links (snapshots p' st' address) chain ∧
            p.snapshots st address = chain.reverse ∧ p'.snapshots st' address = chain.reverse) ∧
          ∀ names', Lists st' names' →
            ∃ entries', entries'.Perm entries ∧ ∀ salt' nonce' opts',
              exportPrivateStates p' c json salt' nonce' st' names' opts' =
                opts'.checkPassword.bind
                  (fun _ => sealEntries c json formatStates opts' salt' nonce' entries') ∧
              ∀ data' iopts',
                exportPrivateStates p' c json salt' nonce' st' names' opts' = .ok data' →
                iopts'.password = opts'.password → entries.length ≤ iopts'.maxEntries →
                openExport (codec c json) formatStates data' iopts' = .ok entries' := by
  have hst : Exportable p st := run_exportable hrun ⟨StoreOk.empty, DirsOk.empty⟩
  obtain ⟨entries, hcollect, hcarries⟩ := collectExportEntries_spec hst hnames
  refine ⟨entries, hcarries, fun salt nonce opts => exportPrivateStates_eq c json salt nonce
    hcollect opts, ?_⟩
  intro salt nonce opts data iopts clock hexport hpassword hlimit
  obtain ⟨st', happly, hok', hsame⟩ :=
    applyImportEntries_carried p' hst hcarries clock iopts.conflict
  have hopen : openExport (codec c json) formatStates data iopts = .ok entries :=
    openExport_sealEntries hc hjson (sealEntries_of_export hcollect hexport) hpassword hlimit
  have himport : importPrivateStates p' (codec c json) clock Store.empty data iopts =
      (st', .ok ⟨entries.length, 0, 0⟩) := by
    unfold importPrivateStates
    rw [hopen]
    exact happly
  have hdirs : DirsOk st' := by
    have h := DirsOk.empty.importPrivateStates (p := p') (codec c json) clock data iopts
    rwa [himport] at h
  refine ⟨st', himport, fun address => ?_, fun names' hnames' => ?_⟩
  · obtain ⟨chain, hchain⟩ := hst.store.isChain address
    have hchain' : IsChain Snapshot.links (snapshots p' st' address) chain :=
      isChain_of_perm hchain (hsame address).symm
    exact ⟨chain, hchain, hchain', topoSort_eq hchain, topoSort_eq hchain'⟩
  · obtain ⟨entries', hcollect', hcarries'⟩ := collectExportEntries_spec ⟨hok', hdirs⟩ hnames'
    have hperm : entries'.Perm entries := hcarries.perm hcarries' hsame
    refine ⟨entries', hperm, fun salt' nonce' opts' =>
      ⟨exportPrivateStates_eq c json salt' nonce' hcollect' opts', ?_⟩⟩
    intro data' iopts' hexport' hpassword' hlimit'
    exact openExport_sealEntries hc hjson (sealEntries_of_export hcollect' hexport') hpassword'
      (hperm.length_eq ▸ hlimit')

/-- A cipher that authenticates what it is given and hides nothing. -/
def plainPrimitives : Primitives where
  hashPassword password salt := .ok (password ++ salt)
  aesGcmEncrypt key nonce aad msg := some (key ++ nonce ++ aad ++ msg)
  aesGcmDecrypt key nonce aad ciphertext :=
    if (key ++ nonce ++ aad) <+: ciphertext then
      some (ciphertext.drop (key ++ nonce ++ aad).length)
    else none
  base64Encode := Hex.encode
  base64Decode := Hex.decode

theorem plainPrimitives_lawful : plainPrimitives.Lawful where
  aesGcm key nonce aad msg ciphertext h := by
    have hc : ciphertext = (key ++ nonce ++ aad) ++ msg := (Option.some.inj h).symm
    have hprefix : (key ++ nonce ++ aad) <+: ciphertext := ⟨msg, hc.symm⟩
    unfold plainPrimitives
    simp only
    rw [if_pos hprefix, hc, List.drop_left]
  base64 := Hex.decode_encode

def bothEntries : List ExportEntry := [⟨"0200aa", confirmedSnapshot⟩, ⟨"0200aa", secondSnapshot⟩]

/-- JSON for one payload. -/
def bothEntriesJson : Json where
  encode entries := if entries = bothEntries then .ok [91, 93] else .error "not written here"
  decode bytes := if bytes = [91, 93] then .ok bothEntries else .error "not written here"

theorem bothEntriesJson_lawful : bothEntriesJson.Lawful := by
  intro entries bytes h
  unfold bothEntriesJson at h ⊢
  simp only at h ⊢
  split at h
  · rename_i hentries
    rw [← Except.ok.inj h, hentries, if_pos rfl]
  · cases h

theorem journalOf_lists (files : Files) : Lists (journalOf files) ["0200aa"] where
  nodup := List.nodup_singleton _
  mem name := by
    rw [journalOf, List.mem_singleton]
    by_cases hname : name = "0200aa"
    · simp [hname]
    · simp [hname, Store.empty]

theorem collectExportEntries_confirmed :
    collectExportEntries plainProvider (journalOf confirmedFiles) ["0200aa"] = .ok bothEntries := by
  have ht : trim "0200aa" = "0200aa" := by decide
  have hload : loadSnapshots plainProvider (journalOf confirmedFiles) "0200aa" = confirmedFiles := by
    rw [loadSnapshots_journalOf]
    exact List.mergeSort_of_pairwise (by decide)
  have hmarker : (journalOf confirmedFiles "0200aa").bind Dir.marker = some "0200aa" := by
    simp [journalOf]
  simp only [collectExportEntries, collectDir, hmarker, ht, hload]
  rfl

/-- A chain of two snapshots, the first of them confirmed, goes through an export and an
import. -/
theorem export_import_journals_confirmed :
    ∃ data st' count,
      exportPrivateStates plainProvider plainPrimitives bothEntriesJson ⟨List.replicate 32 2, rfl⟩
        ⟨List.replicate 12 3, rfl⟩ (journalOf confirmedFiles) ["0200aa"]
          ⟨"correct horse battery staple", 10000⟩ = .ok data ∧
      importPrivateStates plainProvider (codec plainPrimitives bothEntriesJson) id Store.empty data
        ⟨"correct horse battery staple", .error, 10000⟩ = (st', .ok ⟨count, 0, 0⟩) ∧
      plainProvider.snapshots st' "0200aa" = [confirmedSnapshot, secondSnapshot] := by
  have hrun : Run (StoreStep plainProvider (codec plainPrimitives bothEntriesJson)) Store.empty
      (confirmedOps.map .journal) (journalOf confirmedFiles) := by
    have ht : trim "0200aa" = "0200aa" := by decide
    exact .cons ⟨ht, appendPending_first.symm⟩ (.cons ⟨ht, appendPending_second.symm⟩
      (.cons ⟨ht, confirm_first.symm⟩ (.nil _)))
  obtain ⟨entries, -, hexport, himport⟩ := export_import_journals plainProvider plainProvider
    plainPrimitives bothEntriesJson plainPrimitives_lawful bothEntriesJson_lawful
    (codec plainPrimitives bothEntriesJson) _ _ hrun ["0200aa"] (journalOf_lists _)
  have hdata : ∃ data, exportPrivateStates plainProvider plainPrimitives bothEntriesJson
      ⟨List.replicate 32 2, rfl⟩ ⟨List.replicate 12 3, rfl⟩ (journalOf confirmedFiles) ["0200aa"]
        ⟨"correct horse battery staple", 10000⟩ = .ok data := by
    rw [exportPrivateStates_eq _ _ _ _ collectExportEntries_confirmed]
    exact ⟨_, rfl⟩
  obtain ⟨data, hdata⟩ := hdata
  have hsealed : sealEntries plainPrimitives bothEntriesJson formatStates
      ⟨"correct horse battery staple", 10000⟩ _ _ entries = .ok data :=
    (hexport _ _ _).symm.trans hdata
  obtain ⟨st', hst', hchains, -⟩ := himport _ _ _ data
    ⟨"correct horse battery staple", .error, 10000⟩ id hdata rfl
    (length_le_of_sealEntries hsealed)
  obtain ⟨chain, hchain, -, -, hafter⟩ := hchains "0200aa"
  rw [snapshots_confirmed] at hchain
  obtain rfl : chain = [secondSnapshot, confirmedSnapshot] :=
    hchain.unique ⟨.swap _ _ _, by decide, rfl, rfl, trivial⟩
  exact ⟨data, st', entries.length, hdata, hst', hafter⟩

end RoundTrip

end MidnightRs.Journal
