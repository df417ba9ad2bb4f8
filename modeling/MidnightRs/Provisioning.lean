import MidnightRs.ProvingData

/-!
Runs of provisioning. At every moment, also between two bytes of a copy, a file's name
stands for a whole file, what the cache already held right is untouched, and `progress`
was told only of files that are there. A run stops for a failure of the disk, or for a
download of a file that neither the cache nor the bundle holds.
-/
namespace MidnightRs.ProvingData

open Watched

variable {H : Type}

section Steps

variable (W : Sources H) (linked : Linked H) (bundle : Option Cache) (file : ProvingFile)

/-- What the work on one file changes: only its name and its temporary file, and never a
copy that has the expected hash. What stands under the name is never a part of a copy. -/
structure Steps (d d' : Disk) : Prop where
  others : ∀ y, linked.Names y → y ≠ file.name → d'.cache y = d.cache y
  whole : d'.cache file.name = d.cache file.name ∨ d'.cache file.name = none ∨
    d'.cache file.name = bundled bundle file.name ∨ Right W file d'.cache
  kept : Right W file d.cache → d'.cache file.name = d.cache file.name
  told : d'.told = d.told

variable {W linked bundle file}

theorem Steps.refl (d : Disk) : Steps W linked bundle file d d :=
  ⟨fun _ _ _ => rfl, Or.inl rfl, fun _ => rfl, rfl⟩

theorem Steps.trans {d₁ d₂ d₃ : Disk} (h : Steps W linked bundle file d₁ d₂)
    (h' : Steps W linked bundle file d₂ d₃) : Steps W linked bundle file d₁ d₃ := by
  refine ⟨fun y hy hne => (h'.others y hy hne).trans (h.others y hy hne), ?_, fun hright => ?_,
    h'.told.trans h.told⟩
  · rcases h'.whole with hsame | hrest
    · rcases h.whole with hs | hs | hs | hs
      · exact Or.inl (hsame.trans hs)
      · exact Or.inr (Or.inl (hsame.trans hs))
      · exact Or.inr (Or.inr (Or.inl (hsame.trans hs)))
      · exact Or.inr (Or.inr (Or.inr ((right_congr hsame).mpr hs)))
    · exact Or.inr hrest
  · have hsame := h.kept hright
    exact (h'.kept ((right_congr hsame).mpr hright)).trans hsame

/-- A write to a name that no listed file has. -/
theorem Steps.of_hidden {d d' : Disk} {x : Name} (hx : ∀ y, linked.Names y → y ≠ x)
    (hfile : linked.Names file.name) (h : ∀ y, y ≠ x → d'.cache y = d.cache y)
    (htold : d'.told = d.told) : Steps W linked bundle file d d' :=
  ⟨fun y hy _ => h y (hx y hy), Or.inl (h _ (hx _ hfile)), fun _ => h _ (hx _ hfile), htold⟩

/-- A write to the file's own name. -/
theorem Steps.of_own {d d' : Disk} (h : ∀ y, linked.Names y → y ≠ file.name →
    d'.cache y = d.cache y) (hwrong : ¬ Right W file d.cache)
    (hnew : d'.cache file.name = none ∨ d'.cache file.name = bundled bundle file.name ∨
      Right W file d'.cache) (htold : d'.told = d.told) : Steps W linked bundle file d d' :=
  ⟨h, Or.inr hnew, fun hright => (hwrong hright).elim, htold⟩

variable (W linked bundle file) in
/-- A computation on one file: the steps it takes, what holds of its value and of its
errors. -/
def Walks {α : Type} (post : α → Disk → Prop) (err : IoError → Disk → Prop) (x : Io α)
    (d : Disk) : Prop :=
  Goes (Steps W linked bundle file d) (fun a d' => Steps W linked bundle file d d' ∧ post a d')
    (fun e d' => Steps W linked bundle file d d' ∧ err e d') x d

variable {α β : Type} {post : α → Disk → Prop} {err : IoError → Disk → Prop} {d : Disk}

theorem walks_pure {a : α} (h : post a d) : Walks W linked bundle file post err (pure a) d :=
  goes_pure ⟨Steps.refl d, h⟩

theorem walks_fail {e : IoError} (h : err e d) : Walks W linked bundle file post err (fail e) d :=
  goes_fail ⟨Steps.refl d, h⟩

theorem walks_write {post : Unit → Disk → Prop} {d' : Disk} (h : Steps W linked bundle file d d')
    (hpost : post () d') : Walks W linked bundle file post err (write d') d :=
  goes_write h ⟨h, hpost⟩

theorem Walks.mono {post' : α → Disk → Prop} {err' : IoError → Disk → Prop} {x : Io α}
    (h : Walks W linked bundle file post err x d) (hpost : ∀ a d', post a d' → post' a d')
    (herr : ∀ e d', err e d' → err' e d') : Walks W linked bundle file post' err' x d :=
  Goes.mono h (fun _ hs => hs) (fun a d' ha => ⟨ha.1, hpost a d' ha.2⟩)
    (fun e d' he => ⟨he.1, herr e d' he.2⟩)

/-- What is kept from a state that was reached by such steps is kept from the start. -/
theorem Walks.after {x : Io α} {d₀ : Disk} (h : Walks W linked bundle file post err x d)
    (hsteps : Steps W linked bundle file d₀ d) :
    Goes (Steps W linked bundle file d₀) (fun a d' => Steps W linked bundle file d₀ d' ∧ post a d')
      (fun e d' => Steps W linked bundle file d₀ d' ∧ err e d') x d :=
  Goes.mono h (fun _ hs => hsteps.trans hs) (fun _ _ ha => ⟨hsteps.trans ha.1, ha.2⟩)
    (fun _ _ he => ⟨hsteps.trans he.1, he.2⟩)

theorem walks_bind {mid : α → Disk → Prop} {post : β → Disk → Prop} {x : Io α} {f : α → Io β}
    (hx : Walks W linked bundle file mid err x d)
    (hf : ∀ a d', Steps W linked bundle file d d' → mid a d' →
      Walks W linked bundle file post err (f a) d') :
    Walks W linked bundle file post err (x >>= f) d :=
  goes_bind hx (fun a d' ha => (hf a d' ha.1 ha.2).after ha.1)

theorem walks_recover {mid : IoError → Disk → Prop} {x : Io α} {f : IoError → Io α}
    (hx : Walks W linked bundle file post mid x d)
    (hf : ∀ e d', Steps W linked bundle file d d' → mid e d' →
      Walks W linked bundle file post err (f e) d') :
    Walks W linked bundle file post err (recover x f) d :=
  goes_recover hx (fun e d' he => (hf e d' he.1 he.2).after he.1)

theorem walks_read {post : β → Disk → Prop} {f : Disk → Io β}
    (h : Walks W linked bundle file post err (f d) d) :
    Walks W linked bundle file post err (read >>= f) d := by
  have hread : Walks W linked bundle file (fun d' d'' => d' = d ∧ d'' = d) err read d :=
    goes_read ⟨Steps.refl d, rfl, rfl⟩
  refine walks_bind hread ?_
  rintro d' d'' - ⟨rfl, rfl⟩
  exact h

end Steps

section Operations

variable {W : Sources H} {linked : Linked H} {bundle : Option Cache} {file : ProvingFile}
  {d : Disk}

theorem temporary_head (x : Name) : x.temporary.fileName.toList.head? = some '.' := by
  change ("." ++ x.fileName ++ ".partial").toList.head? = some '.'
  simp

theorem nameK_head (k : ℕ) : (nameK k).fileName.toList.head? = some 'b' := by
  change ("bls_midnight_2p" ++ toString k).toList.head? = some 'b'
  simp

theorem Linked.WellNamed.hidden (hnames : linked.WellNamed) (x y : Name) (hy : linked.Names y) :
    y ≠ x.temporary := by
  rintro rfl
  rcases hy with ⟨entry, hentry, heq⟩ | ⟨k, heq⟩
  · refine hnames.shown entry hentry ?_
    rw [← heq, temporary_head]
  · have h := temporary_head x
    rw [heq, nameK_head] at h
    cases h

theorem walks_attempt : Walks W linked bundle file (fun _ d' => d'.cache = d.cache)
    (fun e _ => Fault W e) (attempt W) d := by
  have hsteps : Steps W linked bundle file d { d with ticks := d.ticks + 1 } :=
    ⟨fun _ _ _ => rfl, Or.inl rfl, fun _ => rfl, rfl⟩
  unfold Walks attempt
  cases hrefuses : W.refuses d.ticks with
  | none =>
    refine ⟨fun d' hd' => ?_, fun a _ => ?_, fun e he => ?_⟩
    · simp only [hrefuses] at hd'
      cases hd'
    · simp only [hrefuses, and_true]
      exact hsteps
    · simp only [hrefuses] at he
      cases he
  | some e =>
    refine ⟨fun d' hd' => ?_, fun a ha => ?_, fun e' he => ?_⟩
    · simp only [hrefuses] at hd'
      cases hd'
    · simp only [hrefuses] at ha
      cases ha
    · simp only [hrefuses] at he ⊢
      obtain rfl := Except.error.inj he
      exact ⟨hsteps, Or.inl ⟨d.ticks, hrefuses⟩⟩

theorem walks_put {x : Name} {new : Option Bytes} {err : IoError → Disk → Prop}
    (h : Steps W linked bundle file d { d with cache := Function.update d.cache x new }) :
    Walks W linked bundle file (fun _ d' => d'.cache = Function.update d.cache x new) err
      (put x new) d :=
  walks_read (walks_write h rfl)

/-- A temporary file is written byte by byte. -/
theorem walks_writeAll (hnames : linked.WellNamed) (hfile : linked.Names file.name)
    {x : Name} (hx : x = file.name.temporary) (done rest : Bytes)
    (hdone : d.cache x = some done) :
    Walks W linked bundle file
      (fun _ d' => d'.cache x = some (done ++ rest) ∧ ∀ y, y ≠ x → d'.cache y = d.cache y)
      (fun e _ => Fault W e) (writeAll W x done rest) d := by
  have hhidden : ∀ y, linked.Names y → y ≠ x := fun y hy => hx ▸ hnames.hidden _ y hy
  induction rest generalizing done d with
  | nil => exact walks_pure ⟨by rw [hdone, List.append_nil], fun _ _ => rfl⟩
  | cons byte rest ih =>
    refine walks_bind walks_attempt (fun _ d₁ _ h₁ => ?_)
    have hsteps : Steps W linked bundle file d₁
        { d₁ with cache := Function.update d₁.cache x (some (done ++ [byte])) } :=
      .of_hidden hhidden hfile (fun y hy => Function.update_of_ne hy _ _) rfl
    refine walks_bind (walks_put hsteps) (fun _ d₂ _ h₂ => ?_)
    have hnow : d₂.cache x = some (done ++ [byte]) := by rw [h₂, Function.update_self]
    refine (ih (done ++ [byte]) hnow).mono ?_ (fun _ _ he => he)
    rintro - d₃ ⟨hwritten, hothers⟩
    refine ⟨by rw [hwritten, List.append_assoc, List.singleton_append], fun y hy => ?_⟩
    rw [hothers y hy, h₂, Function.update_of_ne hy, h₁]

theorem walks_copy (hnames : linked.WellNamed) (hfile : linked.Names file.name) (source : Bytes) :
    Walks W linked bundle file
      (fun _ d' => d'.cache file.name.temporary = some source ∧
        d'.cache file.name = d.cache file.name)
      (fun e _ => Fault W e) (copy W source file.name.temporary) d := by
  have hhidden : ∀ y, linked.Names y → y ≠ file.name.temporary := fun y hy => hnames.hidden _ y hy
  refine walks_bind walks_attempt (fun _ d₁ _ h₁ => ?_)
  have hsteps : Steps W linked bundle file d₁
      { d₁ with cache := Function.update d₁.cache file.name.temporary (some []) } :=
    .of_hidden hhidden hfile (fun y hy => Function.update_of_ne hy _ _) rfl
  refine walks_bind (walks_put hsteps) (fun _ d₂ _ h₂ => ?_)
  have hempty : d₂.cache file.name.temporary = some [] := by rw [h₂, Function.update_self]
  refine (walks_writeAll hnames hfile rfl [] source hempty).mono ?_ (fun _ _ he => he)
  rintro - d₃ ⟨hwritten, hothers⟩
  refine ⟨hwritten, ?_⟩
  rw [hothers _ (hhidden _ hfile), h₂, Function.update_of_ne (hhidden _ hfile), h₁]

/-- A whole copy takes the file's name at once, and only when nothing has it. -/
theorem walks_copyAtomically (hnames : linked.WellNamed) (hfile : linked.Names file.name)
    {source : Bytes} (hsource : bundled bundle file.name = some source)
    (hfree : d.cache file.name = none) :
    Walks W linked bundle file (fun _ d' => d'.cache file.name = some source)
      (fun e _ => Fault W e) (copyAtomically W source file.name) d := by
  refine walks_bind walks_attempt (fun _ d₁ _ h₁ => ?_)
  refine walks_bind (walks_copy hnames hfile source) ?_
  rintro - d₂ - ⟨htemporary, hsame⟩
  refine walks_bind walks_attempt (fun _ d₃ _ h₃ => walks_read ?_)
  have hbytes : d₃.cache file.name.temporary = some source := by rw [h₃, htemporary]
  have hstill : d₃.cache file.name = none := by rw [h₃, hsame, h₁, hfree]
  have hne := hnames.hidden file.name file.name hfile
  have hnew : Function.update (Function.update d₃.cache file.name (some source))
      file.name.temporary none file.name = some source := by
    rw [Function.update_of_ne hne, Function.update_self]
  simp only [hbytes]
  refine walks_write (.of_own (fun y hy hyne => ?_) (not_right hstill) ?_ rfl) hnew
  · exact (Function.update_of_ne (hnames.hidden _ y hy) _ _).trans (Function.update_of_ne hyne _ _)
  · exact Or.inr (Or.inl (hnew.trans hsource.symm))

theorem walks_removeFile {b : Bytes} (hb : d.cache file.name = some b)
    (hwrong : ¬ Right W file d.cache) :
    Walks W linked bundle file (fun _ d' => d'.cache file.name = none) (fun e _ => Fault W e)
      (removeFile W file.name) d := by
  refine walks_bind walks_attempt (fun _ d₁ _ h₁ => walks_read ?_)
  have hb₁ : d₁.cache file.name = some b := by rw [h₁, hb]
  have hwrong₁ : ¬ Right W file d₁.cache := fun h => hwrong ((right_congr (by rw [h₁])).mp h)
  simp only [hb₁]
  refine (walks_put (.of_own (fun y _ hne => Function.update_of_ne hne _ _) hwrong₁
    (Or.inl (Function.update_self ..)) rfl)).mono ?_ (fun _ _ he => he)
  intro _ d₂ h₂
  rw [h₂, Function.update_self]

/-- A file that is there is read and hashed. -/
theorem walks_run_cached (hW : Lawful W linked) {b : Bytes} (hb : d.cache file.name = some b) :
    Walks W linked bundle file (fun _ d' => d'.cache = d.cache ∧ Right W file d.cache)
      (fun e d' => d'.cache = d.cache ∧ (e.kind = .invalidData → ¬ Right W file d.cache) ∧
        (e.kind ≠ .invalidData → Fault W e)) (W.run file) d := by
  have hsame := hW.cached file.generation file.name d.ticks d.cache b hb
  have hsteps : ∀ t, Steps W linked bundle file d
      ⟨(W.fetch file.generation file.name d.ticks d.cache).2, d.told, t⟩ := by
    intro t
    rw [hsame]
    exact ⟨fun _ _ _ => rfl, Or.inl rfl, fun _ => rfl, rfl⟩
  refine ⟨fun d' hd' => ?_, fun a ha => ?_, fun e he => ?_⟩
  · obtain rfl := List.mem_singleton.mp hd'
    exact hsteps _
  · exact ⟨hsteps _, hsame, (right_iff hb).mpr (hW.hashed _ _ _ _ b hb ha)⟩
  · refine ⟨hsteps _, hsame, fun hkind hright => ?_, fun hkind => ?_⟩
    · exact hW.invalid _ _ _ _ b e hb he hkind ((right_iff hb).mp hright)
    · exact Or.inr ⟨_, _, _, _, ⟨b, hb⟩, he, hkind⟩

/-- A file that is not there is downloaded. -/
theorem walks_run_absent (hW : Lawful W linked) (hfree : d.cache file.name = none) :
    Walks W linked bundle file (fun _ d' => Right W file d'.cache ∧ Answers W file (.ok ()))
      (fun e _ => Answers W file (.error e)) (W.run file) d := by
  have hsteps : ∀ t, Steps W linked bundle file d
      ⟨(W.fetch file.generation file.name d.ticks d.cache).2, d.told, t⟩ := by
    intro t
    refine .of_own (fun y hy hne => hW.others _ _ _ _ y hfree hy hne) (not_right hfree) ?_ rfl
    cases hnew : (W.fetch file.generation file.name d.ticks d.cache).2 file.name with
    | none => exact Or.inl hnew
    | some b => exact Or.inr (Or.inr ((right_iff hnew).mpr (hW.left _ _ _ _ b hfree hnew)))
  refine ⟨fun d' hd' => ?_, fun a ha => ?_, fun e he => ?_⟩
  · obtain rfl := List.mem_singleton.mp hd'
    exact hsteps _
  · obtain ⟨b, hb⟩ := hW.fetched _ _ _ _ hfree ha
    exact ⟨hsteps _, (right_iff hb).mpr (hW.left _ _ _ _ b hfree hb), _, _, hfree, ha⟩
  · exact ⟨hsteps _, _, _, hfree, he⟩

/-- A copy with another hash is removed, so that the next source can replace it. -/
theorem walks_verified (hW : Lawful W linked) {b : Bytes} (hb : d.cache file.name = some b) :
    Walks W linked bundle file
      (fun good d' => (good = true ↔ Right W file d.cache) ∧
        (good = true → d'.cache file.name = some b) ∧
        (good = false → d'.cache file.name = none))
      (fun e _ => Fault W e) (verified W file) d := by
  refine walks_recover (walks_bind (walks_run_cached hW hb) ?_) ?_
  · rintro - d₁ - ⟨hsame, hright⟩
    refine walks_pure ⟨⟨fun _ => hright, fun _ => rfl⟩, fun _ => ?_, fun h => (by cases h)⟩
    rw [hsame, hb]
  · rintro e d₁ - ⟨hsame, hinvalid, hfault⟩
    by_cases hkind : e.kind = .invalidData
    · rw [if_pos hkind]
      have hwrong : ¬ Right W file d₁.cache :=
        fun h => hinvalid hkind ((right_congr (by rw [hsame])).mp h)
      refine walks_bind (walks_removeFile (hsame ▸ hb) hwrong) (fun _ d₂ _ hgone => ?_)
      exact walks_pure ⟨⟨fun h => (by cases h), fun h => (hinvalid hkind h).elim⟩,
        fun h => (by cases h), fun _ => hgone⟩
    · rw [if_neg hkind]
      exact walks_fail (hfault hkind)

theorem walks_isCached (hW : Lawful W linked) :
    Walks W linked bundle file
      (fun good d' => (good = true ↔ Right W file d.cache) ∧
        (good = true → d'.cache file.name = d.cache file.name) ∧
        (good = false → d'.cache file.name = none))
      (fun e _ => Fault W e) (isCached W file) d := by
  refine walks_read ?_
  cases hb : d.cache file.name with
  | none =>
    rw [Option.isSome_none, if_neg Bool.false_ne_true]
    exact walks_pure ⟨⟨fun h => (by cases h), fun h => (not_right hb h).elim⟩,
      fun h => (by cases h), fun _ => hb⟩
  | some b =>
    rw [Option.isSome_some, if_pos rfl]
    exact walks_verified hW hb

theorem walks_install (hW : Lawful W linked) (hnames : linked.WellNamed)
    (hfile : linked.Names file.name) (hfree : d.cache file.name = none) :
    Walks W linked bundle file
      (fun good d' => (good = true ↔ Right W file (bundled bundle)) ∧
        (good = true → Right W file d'.cache) ∧ (good = false → d'.cache file.name = none))
      (fun e _ => Fault W e) (install W file (bundled bundle file.name)) d := by
  cases hsource : bundled bundle file.name with
  | none =>
    exact walks_pure ⟨⟨fun h => (by cases h), fun h => (not_right hsource h).elim⟩,
      fun h => (by cases h), fun _ => hfree⟩
  | some source =>
    refine walks_bind (walks_copyAtomically hnames hfile hsource hfree) (fun _ d₁ _ hcopied => ?_)
    have hsame : d₁.cache file.name = bundled bundle file.name := hcopied.trans hsource.symm
    refine (walks_verified hW hcopied).mono ?_ (fun _ _ he => he)
    rintro good d₂ ⟨hgood, hkept, hgone⟩
    rw [right_congr hsame] at hgood
    exact ⟨hgood, fun h => (right_congr ((hkept h).trans hsource.symm)).mpr (hgood.mp h), hgone⟩

theorem walks_download (hW : Lawful W linked) (hfree : d.cache file.name = none) :
    Walks W linked bundle file (fun _ d' => Right W file d'.cache ∧ Answers W file (.ok ()))
      (fun e _ => ∃ e', Answers W file (.error e') ∧ e = missing file e') (download W file) d :=
  walks_recover (walks_run_absent hW hfree) (fun e _ _ he => walks_fail ⟨e, he, rfl⟩)

/-- Why provisioning stops at a file: the disk, or a download of what neither the cache nor
the bundle holds. -/
def Stops [DecidableEq H] (W : Sources H) (bundle : Option Cache) (file : ProvingFile)
    (cache : Cache) (e : IoError) : Prop :=
  Fault W e ∨ (source W bundle cache file = .downloaded ∧
    ∃ e', Answers W file (.error e') ∧ e = missing file e')

/-- One file comes from the first of the cache, the bundle and the network that has it. -/
theorem walks_provisionOne [DecidableEq H] (hW : Lawful W linked) (hnames : linked.WellNamed)
    (hfile : linked.Names file.name) :
    Walks W linked bundle file
      (fun outcome d' => Right W file d'.cache ∧ outcome = source W bundle d.cache file ∧
        (outcome = .downloaded → Answers W file (.ok ())))
      (fun e _ => Stops W bundle file d.cache e) (provisionOne W bundle file) d := by
  refine walks_bind ((walks_isCached hW).mono (fun _ _ h => h) (fun _ _ he => Or.inl he)) ?_
  rintro good d₁ - ⟨hgood, hkept, hfree⟩
  cases good with
  | true =>
    have hright := hgood.mp rfl
    rw [if_pos rfl]
    refine walks_pure ⟨(right_congr (hkept rfl)).mpr hright, ?_, fun h => (by cases h)⟩
    rw [source, if_pos hright]
  | false =>
    have hwrong : ¬ Right W file d.cache := fun h => by cases hgood.mpr h
    rw [if_neg Bool.false_ne_true]
    refine walks_bind ((walks_install hW hnames hfile (hfree rfl)).mono (fun _ _ h => h)
      (fun _ _ he => Or.inl he)) ?_
    rintro good d₂ - ⟨hbundled, hright, hfree⟩
    cases good with
    | true =>
      rw [if_pos rfl]
      refine walks_pure ⟨hright rfl, ?_, fun h => (by cases h)⟩
      rw [source, if_neg hwrong, if_pos (hbundled.mp rfl)]
    | false =>
      have hnone : ¬ Right W file (bundled bundle) := fun h => by cases hbundled.mpr h
      have hsource : source W bundle d.cache file = .downloaded := by
        rw [source, if_neg hwrong, if_neg hnone]
      rw [if_neg Bool.false_ne_true]
      refine walks_bind ((walks_download hW (hfree rfl)).mono (fun _ _ h => h)
        (fun _ _ he => Or.inr ⟨hsource, he⟩)) ?_
      rintro - d₃ - ⟨hthere, hanswer⟩
      exact walks_pure ⟨hthere, hsource.symm, fun _ => hanswer⟩

end Operations

section Runs

variable [DecidableEq H] {W : Sources H} {linked : Linked H} {bundle : Option Cache}

/-- What `progress` is told of the first files. -/
def tally (done total : ℕ) : List (ℕ × ℕ) := (List.range done).map (fun i => (i + 1, total))

/-- What holds of the disk at every moment of a run that started at `d₀`. -/
structure Sound (W : Sources H) (bundle : Option Cache) (files : List ProvingFile)
    (d₀ d : Disk) : Prop where
  kept : ∀ f ∈ files, Right W f d₀.cache → d.cache f.name = d₀.cache f.name
  whole : ∀ f ∈ files, d.cache f.name = d₀.cache f.name ∨ d.cache f.name = none ∨
    d.cache f.name = bundled bundle f.name ∨ Right W f d.cache
  told : ∃ k, k ≤ files.length ∧ d.told = d₀.told ++ tally k files.length ∧
    ∀ f ∈ files.take k, Right W f d.cache

/-- The disk between two files. -/
structure Between (W : Sources H) (bundle : Option Cache) (total : ℕ)
    (done rest : List ProvingFile) (d₀ d : Disk) : Prop where
  kept : ∀ f ∈ done, Right W f d₀.cache → d.cache f.name = d₀.cache f.name
  right : ∀ f ∈ done, Right W f d.cache
  rest : ∀ f ∈ rest, d.cache f.name = d₀.cache f.name
  told : d.told = d₀.told ++ tally done.length total
  answered : ∀ f ∈ done, source W bundle d₀.cache f = .downloaded → Answers W f (.ok ())

variable {files done rest : List ProvingFile} {file : ProvingFile} {d₀ d d' : Disk}

theorem ne_of_once (honce : ((done ++ file :: rest).map ProvingFile.name).Nodup) :
    (∀ f ∈ done, f.name ≠ file.name) ∧ ∀ f ∈ rest, f.name ≠ file.name := by
  rw [List.map_append, List.map_cons, List.nodup_middle, ← List.map_append,
    List.nodup_cons] at honce
  constructor
  · intro f hf heq
    exact honce.1 (heq ▸ List.mem_map_of_mem (List.mem_append_left _ hf))
  · intro f hf heq
    exact honce.1 (heq ▸ List.mem_map_of_mem (List.mem_append_right _ hf))

theorem tally_succ (n total : ℕ) : tally (n + 1) total = tally n total ++ [(n + 1, total)] := by
  simp [tally, List.range_succ]

theorem Between.sound (h : Between W bundle (done ++ rest).length done rest d₀ d) :
    Sound W bundle (done ++ rest) d₀ d := by
  refine ⟨fun f hf hright => ?_, fun f hf => ?_, done.length, ?_, h.told, ?_⟩
  · rcases List.mem_append.mp hf with hf | hf
    · exact h.kept f hf hright
    · exact h.rest f hf
  · rcases List.mem_append.mp hf with hf | hf
    · exact Or.inr (Or.inr (Or.inr (h.right f hf)))
    · exact Or.inl (h.rest f hf)
  · rw [List.length_append]
    omega
  · rw [List.take_left]
    exact h.right

/-- The work on the next file keeps what holds at every moment. -/
theorem Between.during (h : Between W bundle (done ++ file :: rest).length done (file :: rest) d₀ d)
    (hnamed : ∀ f ∈ done ++ file :: rest, linked.Names f.name)
    (honce : ((done ++ file :: rest).map ProvingFile.name).Nodup)
    (hsteps : Steps W linked bundle file d d') : Sound W bundle (done ++ file :: rest) d₀ d' := by
  obtain ⟨hdone, hrest⟩ := ne_of_once honce
  have hfile : d.cache file.name = d₀.cache file.name := h.rest file List.mem_cons_self
  have hsame : ∀ f ∈ done ++ file :: rest, f.name ≠ file.name →
      d'.cache f.name = d.cache f.name := fun f hf hne => hsteps.others _ (hnamed f hf) hne
  have hright : ∀ f ∈ done, Right W f d'.cache := fun f hf =>
    (right_congr (hsame f (List.mem_append_left _ hf) (hdone f hf))).mpr (h.right f hf)
  refine ⟨fun f hf hstart => ?_, fun f hf => ?_, done.length, ?_, hsteps.told.trans h.told, ?_⟩
  · rcases List.mem_append.mp hf with hf' | hf'
    · exact (hsame f hf (hdone f hf')).trans (h.kept f hf' hstart)
    · rcases List.mem_cons.mp hf' with rfl | hf''
      · exact (hsteps.kept ((right_congr hfile).mpr hstart)).trans hfile
      · exact (hsame f hf (hrest f hf'')).trans (h.rest f hf')
  · rcases List.mem_append.mp hf with hf' | hf'
    · exact Or.inr (Or.inr (Or.inr (hright f hf')))
    · rcases List.mem_cons.mp hf' with rfl | hf''
      · exact hsteps.whole.imp_left (fun hs => hs.trans hfile)
      · exact Or.inl ((hsame f hf (hrest f hf'')).trans (h.rest f hf'))
  · rw [List.length_append]
    omega
  · rw [List.take_left]
    exact hright

theorem Between.next (h : Between W bundle (done ++ file :: rest).length done (file :: rest) d₀ d)
    (hnamed : ∀ f ∈ done ++ file :: rest, linked.Names f.name)
    (honce : ((done ++ file :: rest).map ProvingFile.name).Nodup)
    (hsteps : Steps W linked bundle file d d') (hright : Right W file d'.cache)
    (hanswer : source W bundle d₀.cache file = .downloaded → Answers W file (.ok ()))
    {d'' : Disk} (hcache : d''.cache = d'.cache)
    (htold : d''.told = d'.told ++ [(done.length + 1, (done ++ file :: rest).length)]) :
    Between W bundle (done ++ file :: rest).length (done ++ [file]) rest d₀ d'' := by
  obtain ⟨hdone, hrest⟩ := ne_of_once honce
  have hfile : d.cache file.name = d₀.cache file.name := h.rest file List.mem_cons_self
  have hsame : ∀ f ∈ done ++ file :: rest, f.name ≠ file.name →
      d''.cache f.name = d.cache f.name := by
    intro f hf hne
    rw [hcache]
    exact hsteps.others _ (hnamed f hf) hne
  have hlater : ∀ f ∈ rest, f ∈ done ++ file :: rest :=
    fun f hf => List.mem_append_right _ (List.mem_cons_of_mem _ hf)
  refine ⟨fun f hf hstart => ?_, fun f hf => ?_, fun f hf => ?_, ?_, fun f hf => ?_⟩
  · rcases List.mem_append.mp hf with hf | hf
    · exact (hsame f (List.mem_append_left _ hf) (hdone f hf)).trans (h.kept f hf hstart)
    · obtain rfl := List.mem_singleton.mp hf
      rw [hcache]
      exact (hsteps.kept ((right_congr hfile).mpr hstart)).trans hfile
  · rcases List.mem_append.mp hf with hf | hf
    · exact (right_congr (hsame f (List.mem_append_left _ hf) (hdone f hf))).mpr (h.right f hf)
    · obtain rfl := List.mem_singleton.mp hf
      exact (right_congr (by rw [hcache])).mpr hright
  · exact (hsame f (hlater f hf) (hrest f hf)).trans (h.rest f (List.mem_cons_of_mem _ hf))
  · have hlength : (done ++ [file]).length = done.length + 1 := by simp
    rw [htold, hsteps.told, h.told, List.append_assoc, ← tally_succ, hlength]
  · rcases List.mem_append.mp hf with hf | hf
    · exact h.answered f hf
    · obtain rfl := List.mem_singleton.mp hf
      exact hanswer

theorem goes_progress {inv : Disk → Prop} {err : IoError → Disk → Prop} {n total : ℕ}
    (h : inv { d with told := d.told ++ [(n, total)] }) :
    Goes inv (fun _ d' => d' = { d with told := d.told ++ [(n, total)] }) err
      (progress n total) d := by
  have hread : Goes inv (fun d' d'' => d' = d ∧ d'' = d) err read d := goes_read ⟨rfl, rfl⟩
  refine goes_bind hread ?_
  rintro d' d'' ⟨rfl, rfl⟩
  exact goes_write h rfl

/-- Where a run ends with an error: the files before are in the cache, and the next one
says why. -/
def StopsAt (W : Sources H) (bundle : Option Cache) (files : List ProvingFile) (d₀ : Disk)
    (e : IoError) (d : Disk) : Prop :=
  ∃ done file rest, files = done ++ file :: rest ∧ (∀ f ∈ done, Right W f d.cache) ∧
    d.told = d₀.told ++ tally done.length files.length ∧
    (∀ f ∈ done, source W bundle d₀.cache f = .downloaded → Answers W f (.ok ())) ∧
    Stops W bundle file d₀.cache e

/-- A run over the files that are left. -/
theorem goes_provision (hW : Lawful W linked) (hnames : linked.WellNamed)
    (hnamed : ∀ f ∈ files, linked.Names f.name) (honce : (files.map ProvingFile.name).Nodup)
    (hfiles : files = done ++ rest) (h : Between W bundle files.length done rest d₀ d)
    (report : ProvisionReport) :
    Goes (Sound W bundle files d₀)
      (fun r d' => Between W bundle files.length files [] d₀ d' ∧
        r = (rest.map (source W bundle d₀.cache)).foldl ProvisionReport.record report)
      (StopsAt W bundle files d₀)
      (provision W bundle files.length done.length report rest) d := by
  induction rest generalizing done d report with
  | nil =>
    obtain rfl : files = done := by simpa using hfiles
    exact goes_pure ⟨h, rfl⟩
  | cons file rest ih =>
    subst hfiles
    have hfile := hnamed file (List.mem_append_right _ List.mem_cons_self)
    have hsource : source W bundle d.cache file = source W bundle d₀.cache file :=
      source_congr (h.rest file List.mem_cons_self)
    have hone : Walks W linked bundle file _ _ (provisionOne W bundle file) d :=
      walks_provisionOne hW hnames hfile
    refine goes_bind (Goes.mono hone (fun d' hd' => h.during hnamed honce hd')
      (fun _ _ hp => hp) ?_) ?_
    · rintro e d' ⟨hsteps, hstops⟩
      refine ⟨done, file, rest, rfl, fun f hf => ?_, hsteps.told.trans h.told, h.answered, ?_⟩
      · have hne := (ne_of_once honce).1 f hf
        have hsame := hsteps.others _ (hnamed f (List.mem_append_left _ hf)) hne
        exact (right_congr hsame).mpr (h.right f hf)
      · rw [Stops, hsource] at hstops
        exact hstops
    · rintro outcome d₁ ⟨hsteps, hright, houtcome, hanswer⟩
      rw [hsource] at houtcome
      subst houtcome
      have hnext : Between W bundle (done ++ file :: rest).length (done ++ [file]) rest d₀
          { d₁ with told := d₁.told ++ [(done.length + 1, (done ++ file :: rest).length)] } :=
        h.next hnamed honce hsteps hright hanswer rfl rfl
      have hsplit : done ++ file :: rest = (done ++ [file]) ++ rest := by
        rw [List.append_assoc, List.singleton_append]
      have hlength : (done ++ [file]).length = done.length + 1 := by simp
      have hsound : Sound W bundle (done ++ file :: rest) d₀
          { d₁ with told := d₁.told ++ [(done.length + 1, (done ++ file :: rest).length)] } := by
        rw [hsplit] at hnext ⊢
        exact hnext.sound
      have hrest := ih hsplit hnext (report.record (source W bundle d₀.cache file))
      rw [hlength] at hrest
      refine goes_bind (goes_progress hsound) ?_
      rintro - d₂ rfl
      exact hrest

theorem record_fold (outcomes : List Provisioned) (r : ProvisionReport) :
    outcomes.foldl ProvisionReport.record r =
      ⟨r.present + outcomes.count .present, r.installed + outcomes.count .installed,
        r.downloaded + outcomes.count .downloaded⟩ := by
  induction outcomes generalizing r with
  | nil => rfl
  | cons outcome outcomes ih =>
    rw [List.foldl_cons, ih]
    cases outcome <;> simp [ProvisionReport.record, Nat.add_assoc, Nat.add_comm 1]

theorem count_outcomes (outcomes : List Provisioned) :
    outcomes.count .present + outcomes.count .installed + outcomes.count .downloaded =
      outcomes.length := by
  induction outcomes with
  | nil => rfl
  | cons outcome outcomes ih =>
    cases outcome <;> simp only [List.count_cons_self, List.count_cons, List.length_cons] <;>
      simp <;> omega

/-- How many of the files come from each source, when the run starts with the cache. -/
def reportOf (W : Sources H) (bundle : Option Cache) (files : List ProvingFile) (cache : Cache) :
    ProvisionReport :=
  let outcomes := files.map (source W bundle cache)
  ⟨outcomes.count .present, outcomes.count .installed, outcomes.count .downloaded⟩

/-- A whole run. -/
theorem goes_provisionAll (hW : Lawful W linked) (hnames : linked.WellNamed) {maxK : ℕ}
    (hfiles : walletProvingFiles linked maxK = .ok files) (d : Disk) :
    Goes (Sound W bundle files d)
      (fun r d' => Between W bundle files.length files [] d d' ∧
        r = reportOf W bundle files d.cache)
      (StopsAt W bundle files d) (provisionWalletProvingFiles W linked bundle maxK) d := by
  unfold provisionWalletProvingFiles
  simp only [hfiles]
  have hstart : Between W bundle files.length [] files d d :=
    ⟨fun f hf => (by cases hf), fun f hf => (by cases hf), fun _ _ => rfl,
      (List.append_nil _).symm, fun f hf => (by cases hf)⟩
  refine Goes.mono (goes_provision hW hnames (files_named hfiles) (files_once hnames hfiles) rfl
    hstart {}) (fun _ h => h) ?_ (fun _ _ h => h)
  rintro r d' ⟨hend, rfl⟩
  refine ⟨hend, ?_⟩
  rw [record_fold]
  simp [reportOf]

end Runs

section Sample

/-- Two keys, one of which both generations expect. -/
def plainLinked : Linked ℕ where
  zswapExpectedFiles := fun _ => [(⟨["zswap"], "spend.prover"⟩, 2)]
  dustExpectedFiles
    | .ledger8 => [(⟨["dust"], "spend.prover"⟩, 2)]
    | .ledger9 => []

/-- A key's bytes are two, a parameter's is one. -/
def plainSize (x : Name) : ℕ := if x.directory = [] then 1 else 2

def plainFetch (online : Bool) (x : Name) (c : Cache) : Except IoError Unit × Cache :=
  match c x with
  | some b =>
    (if b.length = plainSize x then .ok () else .error ⟨.invalidData, "hash mismatch"⟩, c)
  | none =>
    if online then (.ok (), Function.update c x (some (List.replicate (plainSize x) 0)))
    else (.error ⟨.other "ConnectionRefused", "connection refused"⟩, c)

def plainSources (online : Bool) : Sources ℕ :=
  { hash := List.length
    expected := fun _ x => plainSize x
    fetch := fun _ x _ c => plainFetch online x c
    refuses := fun _ => none }

theorem plainSources_lawful (online : Bool) : Lawful (plainSources online) plainLinked := by
  refine ⟨?_, ?_, ?_, ?_, ?_, ?_, ?_⟩
  · intro g x h hx
    cases g <;> simp_all [Linked.expectedData, plainLinked, plainSources, plainSize]
    rcases hx with ⟨rfl, rfl⟩ | ⟨rfl, rfl⟩ <;> decide
  · intro g x t c b hb
    simp [plainSources, plainFetch, hb]
  · intro g x t c b hb hok
    by_cases hsize : b.length = plainSize x
    · exact hsize
    · simp [plainSources, plainFetch, hb, hsize] at hok
  · intro g x t c b e hb herror _
    by_cases hsize : b.length = plainSize x
    · simp [plainSources, plainFetch, hb, hsize] at herror
    · exact hsize
  · intro g x t c y hc _ hne
    cases online <;> simp [plainSources, plainFetch, hc, hne]
  · intro g x t c b hc hleft
    cases online <;> simp [plainSources, plainFetch, hc] at hleft ⊢
    rw [← hleft, List.length_replicate]
  · intro g x t c hc hok
    cases online <;> simp [plainSources, plainFetch, hc] at hok ⊢

theorem plainLinked_named : plainLinked.WellNamed := by
  constructor
  · decide
  · intro x hx k h
    have hdirectory : ∀ x ∈ plainLinked.entries, x.1.directory ≠ [] := by decide
    exact hdirectory x hx (by rw [h, nameK])

/-- Both keys and the parameters of the smallest allowed run. -/
def plainFiles : List ProvingFile :=
  [⟨⟨["zswap"], "spend.prover"⟩, .ledger8⟩, ⟨⟨["dust"], "spend.prover"⟩, .ledger8⟩] ++ ladder 15

theorem plainFiles_listed : walletProvingFiles plainLinked 15 = .ok plainFiles := by
  decide

/-- A cache whose only file has the wrong bytes. -/
def plainDisk : Disk := ⟨fun x => if x = nameK 5 then some [1, 2, 3] else none, [], 0⟩

end Sample

section Results

variable [DecidableEq H] {W : Sources H} {linked : Linked H}

/-- Every key that either generation expects, and the parameters of every size. -/
theorem Between.all {files : List ProvingFile} {bundle : Option Cache} {d₀ d : Disk} {maxK : ℕ}
    (hW : Lawful W linked) (hfiles : walletProvingFiles linked maxK = .ok files)
    (h : Between W bundle files.length files [] d₀ d) :
    (∀ x ∈ linked.entries, (d.cache x.1).map W.hash = some x.2.1) ∧
      ∀ k, minCircuitK ≤ k → k ≤ maxK →
        (d.cache (nameK k)).map W.hash = some (W.expected .ledger9 (nameK k)) := by
  constructor
  · intro x hx
    obtain ⟨f, hf, hname, hhash⟩ := files_expected hW hfiles x hx
    have hright := h.right f hf
    rw [Right, hhash, hname] at hright
    exact hright
  · intro k hlow hhigh
    obtain ⟨-, keys, -, rfl⟩ := walletProvingFiles_ok_iff.mp hfiles
    exact h.right _ (List.mem_append_right _ (mem_ladder.mpr ⟨k, hlow, hhigh, rfl⟩))

/-- Provisioning is safe to stop at any moment. When it returns, both generations find every
file they read, and the report says where each came from. -/
theorem provision_sound (hW : Lawful W linked) (hnames : linked.WellNamed)
    (bundle : Option Cache) (maxK : ℕ) (d : Disk) (files : List ProvingFile)
    (hfiles : walletProvingFiles linked maxK = .ok files) :
    let run := provisionWalletProvingFiles W linked bundle maxK d
    (∀ d' ∈ run.seen, Sound W bundle files d d') ∧
      (∀ e, run.result = .error e → StopsAt W bundle files d e run.last) ∧
      ∀ report, run.result = .ok report →
        (∀ x ∈ linked.entries, (run.last.cache x.1).map W.hash = some x.2.1) ∧
        (∀ k, minCircuitK ≤ k → k ≤ maxK →
          (run.last.cache (nameK k)).map W.hash = some (W.expected .ledger9 (nameK k))) ∧
        (∀ f ∈ files, Right W f d.cache → run.last.cache f.name = d.cache f.name) ∧
        run.last.told = d.told ++ tally files.length files.length ∧
        report = reportOf W bundle files d.cache ∧
        report.present + report.installed + report.downloaded = files.length := by
  intro run
  have hgoes : Goes (Sound W bundle files d) _ (StopsAt W bundle files d)
      (provisionWalletProvingFiles W linked bundle maxK) d := goes_provisionAll hW hnames hfiles d
  refine ⟨hgoes.seen, hgoes.error, fun report hreport => ?_⟩
  obtain ⟨hend, hr⟩ := hgoes.ok report hreport
  obtain ⟨hkeys, hparameters⟩ := hend.all hW hfiles
  refine ⟨hkeys, hparameters, hend.kept, hend.told, hr, ?_⟩
  rw [hr]
  exact (count_outcomes _).trans (List.length_map _)

/-- A bundle supplies the keys; a wrong file is replaced, and the rest is downloaded. -/
theorem provision_sound_replaces :
    let bundle : Option Cache := some (fun x => if x.directory = [] then none else some [0, 0])
    let run := provisionWalletProvingFiles (plainSources true) plainLinked bundle 15 plainDisk
    run.result = .ok ⟨0, 2, 11⟩ ∧
      (∀ d' ∈ run.seen, Sound (plainSources true) bundle plainFiles plainDisk d') ∧
      run.last.told = tally 13 13 := by
  intro bundle run
  have hresult : run.result = .ok ⟨0, 2, 11⟩ := by decide +kernel
  have h := provision_sound (plainSources_lawful true) plainLinked_named bundle 15 plainDisk
    plainFiles plainFiles_listed
  exact ⟨hresult, h.1, (h.2.2 _ hresult).2.2.2.1⟩

end Results

section Offline

variable {W : Sources H} {linked : Linked H} {bundle : Option Cache}

/-- A disk on which every operation succeeds, and on which every file can be read. -/
structure Faultless (W : Sources H) : Prop where
  accepts : ∀ t, W.refuses t = none
  reads : ∀ g x t (c : Cache) b, c x = some b → (W.fetch g x t c).1 = .ok () ∨
    ∃ e, (W.fetch g x t c).1 = .error e ∧ e.kind = .invalidData

/-- No network: every download fails. -/
def Offline (W : Sources H) : Prop :=
  ∀ g x t (c : Cache), c x = none → ∃ e, (W.fetch g x t c).1 = .error e

theorem Faultless.no_fault (h : Faultless W) (e : IoError) : ¬ Fault W e := by
  rintro (⟨t, ht⟩ | ⟨g, x, t, c, ⟨b, hb⟩, herror, hkind⟩)
  · rw [h.accepts t] at ht
    cases ht
  · rcases h.reads g x t c b hb with hok | ⟨e', he, hkind'⟩
    · rw [hok] at herror
      cases herror
    · obtain rfl := Except.error.inj (he.symm.trans herror)
      exact hkind hkind'

theorem Offline.no_answer (h : Offline W) (file : ProvingFile) : ¬ Answers W file (.ok ()) := by
  rintro ⟨t, c, hc, hok⟩
  obtain ⟨e, he⟩ := h file.generation file.name t c hc
  rw [hok] at he
  cases he

/-- The cache or the bundle holds a file with the hash. -/
def Held (W : Sources H) (bundle : Option Cache) (cache : Cache) (x : Name) (h : H) : Prop :=
  (cache x).map W.hash = some h ∨ (bundled bundle x).map W.hash = some h

variable [DecidableEq H]

theorem source_eq_downloaded {cache : Cache} {f : ProvingFile} :
    source W bundle cache f = .downloaded ↔
      ¬ Held W bundle cache f.name (W.expected f.generation f.name) := by
  unfold source Held
  by_cases hcache : Right W f cache
  · rw [if_pos hcache]
    exact ⟨fun h => (by cases h), fun h => (h (Or.inl hcache)).elim⟩
  · by_cases hbundle : Right W f (bundled bundle)
    · rw [if_neg hcache, if_pos hbundle]
      exact ⟨fun h => (by cases h), fun h => (h (Or.inr hbundle)).elim⟩
    · rw [if_neg hcache, if_neg hbundle]
      exact ⟨fun _ h => h.elim hcache hbundle, fun _ => rfl⟩

/-- A run that has nothing to download and whose disk works returns. -/
theorem provision_returns (hW : Lawful W linked) (hnames : linked.WellNamed)
    (hdisk : Faultless W) {maxK : ℕ} {files : List ProvingFile}
    (hfiles : walletProvingFiles linked maxK = .ok files) (d : Disk)
    (hheld : ∀ f ∈ files, source W bundle d.cache f ≠ .downloaded) :
    ∃ r, (provisionWalletProvingFiles W linked bundle maxK d).result = .ok r ∧
      Between W bundle files.length files [] d
        (provisionWalletProvingFiles W linked bundle maxK d).last ∧
      r = reportOf W bundle files d.cache := by
  refine (goes_provisionAll hW hnames hfiles d).returns ?_
  rintro e d' ⟨done, file, rest, rfl, -, -, -, hfault | ⟨hsource, -⟩⟩
  · exact hdisk.no_fault e hfault
  · exact hheld file (List.mem_append_right _ List.mem_cons_self) hsource

theorem reportOf_present {files : List ProvingFile} {cache : Cache}
    (h : ∀ f ∈ files, Right W f cache) : reportOf W bundle files cache = ⟨files.length, 0, 0⟩ := by
  have hmap : files.map (source W bundle cache) = List.replicate files.length .present := by
    refine List.eq_replicate_iff.mpr ⟨List.length_map _, fun outcome houtcome => ?_⟩
    obtain ⟨f, hf, rfl⟩ := List.mem_map.mp houtcome
    exact if_pos (h f hf)
  simp [reportOf, hmap, List.count_replicate]

theorem files_of_ok {maxK : ℕ} {d : Disk} {report : ProvisionReport}
    (h : (provisionWalletProvingFiles W linked bundle maxK d).result = .ok report) :
    ∃ files, walletProvingFiles linked maxK = .ok files := by
  cases hfiles : walletProvingFiles linked maxK with
  | ok files => exact ⟨files, rfl⟩
  | error e =>
    unfold provisionWalletProvingFiles at h
    simp only [hfiles] at h
    cases h

/-- Nothing has to be downloaded when the keys and the parameters are held. -/
theorem none_downloaded_iff (hW : Lawful W linked) {maxK : ℕ} {files : List ProvingFile}
    (hfiles : walletProvingFiles linked maxK = .ok files) (cache : Cache) :
    (∀ f ∈ files, source W bundle cache f ≠ .downloaded) ↔
      (∀ x ∈ linked.entries, Held W bundle cache x.1 x.2.1) ∧
        ∀ k, minCircuitK ≤ k → k ≤ maxK →
          Held W bundle cache (nameK k) (W.expected .ledger9 (nameK k)) := by
  constructor
  · intro h
    have hheld : ∀ f ∈ files, Held W bundle cache f.name (W.expected f.generation f.name) :=
      fun f hf => not_not.mp (fun hno => h f hf (source_eq_downloaded.mpr hno))
    refine ⟨fun x hx => ?_, fun k hlow hhigh => ?_⟩
    · obtain ⟨f, hf, hname, hhash⟩ := files_expected hW hfiles x hx
      rw [← hhash, ← hname]
      exact hheld f hf
    · obtain ⟨-, keys, -, rfl⟩ := walletProvingFiles_ok_iff.mp hfiles
      exact hheld ⟨nameK k, .ledger9⟩
        (List.mem_append_right _ (mem_ladder.mpr ⟨k, hlow, hhigh, rfl⟩))
  · rintro ⟨hkeys, hparameters⟩ f hf
    refine fun hsource => source_eq_downloaded.mp hsource ?_
    rcases files_from hW hfiles f hf with ⟨x, hx, hname, hhash⟩ | ⟨k, hlow, hhigh, rfl⟩
    · rw [hhash, hname]
      exact hkeys x hx
    · exact hparameters k hlow hhigh

/-- What a later run finds, whatever the network does then. -/
theorem provision_again (bundle : Option Cache) (hnames : linked.WellNamed) {maxK : ℕ}
    {files : List ProvingFile} (hfiles : walletProvingFiles linked maxK = .ok files) {d : Disk}
    (hright : ∀ f ∈ files, Right W f d.cache) {W' : Sources H} (hW' : Lawful W' linked)
    (hdisk' : Faultless W') (hhash : W'.hash = W.hash) (hexpected : W'.expected = W.expected) :
    let run := provisionWalletProvingFiles W' linked bundle maxK d
    run.result = .ok ⟨files.length, 0, 0⟩ ∧
      ∀ d' ∈ run.seen, ∀ f ∈ files, d'.cache f.name = d.cache f.name := by
  intro run
  have hright' : ∀ f ∈ files, Right W' f d.cache := by
    intro f hf
    unfold Right
    rw [hhash, hexpected]
    exact hright f hf
  have hpresent : ∀ f ∈ files, source W' bundle d.cache f ≠ .downloaded := by
    intro f hf
    rw [source, if_pos (hright' f hf)]
    exact fun h => (by cases h)
  obtain ⟨r, hr, -, hreport⟩ := provision_returns hW' hnames hdisk' hfiles d hpresent
  refine ⟨?_, fun d' hd' f hf => ?_⟩
  · rw [← reportOf_present hright', ← hreport]
    exact hr
  · exact ((goes_provisionAll hW' hnames hfiles d).seen d' hd').kept f hf (hright' f hf)

/-- With no network, provisioning returns when the cache and the bundle together hold every
file; it is then complete, and a later run finds every file there. -/
theorem offline_provisions_iff (hW : Lawful W linked) (hnames : linked.WellNamed)
    (hdisk : Faultless W) (hoffline : Offline W) (bundle : Option Cache) (maxK : ℕ) (d : Disk) :
    let run := provisionWalletProvingFiles W linked bundle maxK d
    ((∃ report, run.result = .ok report) ↔
      (baselineMaxCircuitK ≤ maxK ∧ maxK ≤ absoluteMaxCircuitK) ∧
      (∀ x ∈ linked.entries, ∀ y ∈ linked.entries, x.1 = y.1 → x.2.1 = y.2.1) ∧
      (∀ x ∈ linked.entries, Held W bundle d.cache x.1 x.2.1) ∧
      ∀ k, minCircuitK ≤ k → k ≤ maxK →
        Held W bundle d.cache (nameK k) (W.expected .ledger9 (nameK k))) ∧
    ∀ report, run.result = .ok report → report.downloaded = 0 ∧
      ∀ W' : Sources H, Lawful W' linked → Faultless W' → W'.hash = W.hash →
        W'.expected = W.expected → ∀ bundle' d', d'.cache = run.last.cache →
          let later := provisionWalletProvingFiles W' linked bundle' maxK d'
          later.result = .ok ⟨report.present + report.installed, 0, 0⟩ ∧
          ∀ m ∈ later.seen, ∀ files, walletProvingFiles linked maxK = .ok files →
            ∀ f ∈ files, m.cache f.name = run.last.cache f.name := by
  intro run
  have hdone : ∀ report, run.result = .ok report → ∃ files,
      walletProvingFiles linked maxK = .ok files ∧
        Between W bundle files.length files [] d run.last ∧
        report = reportOf W bundle files d.cache ∧
        ∀ f ∈ files, source W bundle d.cache f ≠ .downloaded := by
    intro report hreport
    obtain ⟨files, hfiles⟩ := files_of_ok hreport
    obtain ⟨hend, hr⟩ := (goes_provisionAll hW hnames hfiles d).ok report hreport
    exact ⟨files, hfiles, hend, hr,
      fun f hf hsource => hoffline.no_answer f (hend.answered f hf hsource)⟩
  constructor
  · constructor
    · rintro ⟨report, hreport⟩
      obtain ⟨files, hfiles, -, -, hnone⟩ := hdone report hreport
      obtain ⟨hk, keys, hkeys, -⟩ := walletProvingFiles_ok_iff.mp hfiles
      exact ⟨hk, addAll_agree hkeys, (none_downloaded_iff hW hfiles _).mp hnone⟩
    · rintro ⟨hk, hagree, hheld⟩
      have hnone : ∀ f ∈ ([] : List (ProvingFile × H)), ∀ x ∈ linked.entries,
          f.1.name = x.1 → f.2 = x.2.1 := fun f hf => by cases hf
      obtain ⟨keys, hkeys⟩ := addAll_total hnone hagree
      have hfiles := walletProvingFiles_ok_iff.mpr ⟨hk, keys, hkeys, rfl⟩
      obtain ⟨r, hr, -⟩ := provision_returns hW hnames hdisk hfiles d
        ((none_downloaded_iff hW hfiles _).mpr hheld)
      exact ⟨r, hr⟩
  · intro report hreport
    obtain ⟨files, hfiles, hend, rfl, hnone⟩ := hdone report hreport
    have hzero : (reportOf W bundle files d.cache).downloaded = 0 := by
      refine List.count_eq_zero.mpr (fun hmem => ?_)
      obtain ⟨f, hf, hsource⟩ := List.mem_map.mp hmem
      exact hnone f hf hsource
    refine ⟨hzero, fun W' hW' hdisk' hhash hexpected bundle' d' hcache => ?_⟩
    have hright : ∀ f ∈ files, Right W f d'.cache := by
      intro f hf
      rw [hcache]
      exact hend.right f hf
    have hcount := (count_outcomes (files.map (source W bundle d.cache))).trans (List.length_map _)
    have hlength : (reportOf W bundle files d.cache).present +
        (reportOf W bundle files d.cache).installed = files.length := by
      have hsum : (reportOf W bundle files d.cache).present +
          (reportOf W bundle files d.cache).installed +
            (reportOf W bundle files d.cache).downloaded = files.length := hcount
      omega
    have hlater := provision_again bundle' hnames hfiles hright hW' hdisk' hhash hexpected
    refine ⟨?_, fun m hm files' hfiles' f hf => ?_⟩
    · rw [hlength]
      exact hlater.1
    · obtain rfl := Except.ok.inj (hfiles.symm.trans hfiles')
      rw [hlater.2 m hm f hf, hcache]

theorem plainSources_faultless (online : Bool) : Faultless (plainSources online) := by
  refine ⟨fun _ => rfl, fun g x t c b hb => ?_⟩
  by_cases hsize : b.length = plainSize x
  · exact Or.inl (by simp [plainSources, plainFetch, hb, hsize])
  · exact Or.inr ⟨⟨.invalidData, "hash mismatch"⟩,
      by simp [plainSources, plainFetch, hb, hsize], rfl⟩

theorem plainSources_offline : Offline (plainSources false) :=
  fun g x t c hc => ⟨⟨.other "ConnectionRefused", "connection refused"⟩,
    by simp [plainSources, plainFetch, hc]⟩

/-- A bundle that holds everything provisions a cache with a wrong file. -/
theorem offline_provisions_iff_bundled :
    let run := provisionWalletProvingFiles (plainSources false) plainLinked
      (some (fun x => some (List.replicate (plainSize x) 0))) 18 plainDisk
    ∃ report, run.result = .ok report ∧ report.downloaded = 0 := by
  intro run
  have h := offline_provisions_iff (plainSources_lawful false) plainLinked_named
    (plainSources_faultless false) plainSources_offline
    (some (fun x => some (List.replicate (plainSize x) 0))) 18 plainDisk
  have hsizes : ∀ x ∈ plainLinked.entries, plainSize x.1 = x.2.1 := by decide
  have hheld : ∀ x, Held (plainSources false)
      (some (fun x => some (List.replicate (plainSize x) 0))) plainDisk.cache x (plainSize x) :=
    fun x => Or.inr (congrArg some List.length_replicate)
  obtain ⟨report, hreport⟩ := h.1.mpr ⟨by decide, by decide,
    fun x hx => hsizes x hx ▸ hheld x.1, fun k _ _ => hheld (nameK k)⟩
  exact ⟨report, hreport, (h.2 report hreport).1⟩

end Offline

end MidnightRs.ProvingData
