import MidnightRs.Resyncs

/-!
Runs of one wallet: the state that a process holds in memory, if one runs, and
the wallet's directory. A process can end at any time, and a save can stop at
any of its steps.
-/
namespace MidnightRs.Storage.Store

open Directories

variable {Z D : LedgerVersion → Type} (st : Store Z D)

section Saves

/-- The steps of a save up to the rename that puts its snapshot in place. -/
def commitSteps (d : Dir FileName) (s : Stored Z D) : List (Step FileName) :=
  let generation := ((st.previousGeneration d).map (· + 1)).getD 1
  [.createDir] ++ write (.zswap generation) (st.zswapBytes s.1 s.2.zswapState) ++
    write (.dustWallet generation) (st.dustBytes s.1 s.2.dustWallet) ++
    write .metadata (st.metadataJson (metadataOf s generation))

/-- The removal of the files that the new snapshot replaces. -/
def removeSteps (d : Dir FileName) : List (Step FileName) :=
  (st.previousGeneration d).elim [] (fun p => [.remove (.zswap p), .remove (.dustWallet p)])

theorem saveSnapshot_eq (d : Dir FileName) (s : Stored Z D) :
    st.saveSnapshot d s = st.commitSteps d s ++ st.removeSteps d := rfl

/-- What a save says and leaves. It fails where one of its steps fails. With the
snapshot in place, a removal that fails is passed over, and the file of the
reservations may still fail. -/
inductive Saves (d : Dir FileName) (s : Stored Z D) :
    Except WalletError Unit → Dir FileName → Prop
  | stopped {done rest : List (Step FileName)} {d' : Dir FileName} (e : WalletError)
      (hstop : done ++ rest = st.commitSteps d s) (hrun : run d done = some d') :
      Saves d s (.error e) d'
  | committed {removed : List (Step FileName)} {d' : Dir FileName}
      (saved : Except WalletError Unit) (hremoved : removed.Sublist (st.removeSteps d))
      (hrun : run d (st.commitSteps d s ++ removed) = some d') : Saves d s saved d'

variable {st}

/-- With all its steps done up to the rename, the directory holds the snapshot. -/
theorem run_commitSteps (st : Store Z D) (d : Dir FileName) (s : Stored Z D) :
    ∃ generation d', run d (st.commitSteps d s) = some d' ∧ Holds st s generation d' ∧
      ∀ p, st.previousGeneration d = some p → generation ≠ p := by
  have hfresh : ∀ p, st.previousGeneration d = some p →
      ((st.previousGeneration d).map (· + 1)).getD 1 ≠ p := by
    intro p hp
    simp only [hp, Option.map_some, Option.getD_some]
    omega
  obtain ⟨written, -, hfilesRun, hwritten⟩ := along_stateFiles d s _ hfresh
  obtain ⟨committed, -, hcommitRun, hholds⟩ := along_commit d s _ written hwritten
  exact ⟨_, committed, run_append_of hfilesRun hcommitRun, hholds, hfresh⟩

/-- No removal touches the new snapshot. -/
theorem Holds.run_removed {s : Stored Z D} {generation : ℕ} {old : Dir FileName}
    (hfresh : ∀ p, st.previousGeneration old = some p → generation ≠ p)
    {removed : List (Step FileName)} (hremoved : ∀ step ∈ removed, step ∈ st.removeSteps old)
    {d d' : Dir FileName} (h : Holds st s generation d) (hrun : run d removed = some d') :
    Holds st s generation d' := by
  induction removed generalizing d with
  | nil =>
    cases hrun
    exact h
  | cons step removed ih =>
    have hstep := hremoved step (by simp)
    unfold removeSteps at hstep
    cases hprevious : st.previousGeneration old with
    | none =>
      rw [hprevious] at hstep
      cases hstep
    | some p =>
      have hne := hfresh p hprevious
      rw [hprevious] at hstep
      have hrest := fun step hstep => hremoved step (List.mem_cons_of_mem _ hstep)
      simp only [Option.elim, List.mem_cons, List.not_mem_nil, or_false] at hstep
      rcases hstep with rfl | rfl
      · exact ih hrest (Holds.ignores s generation _ (by simp) (by simpa using hne.symm) (by simp)
          d none h) hrun
      · exact ih hrest (Holds.ignores s generation _ (by simp) (by simp) (by simpa using hne.symm)
          d none h) hrun

theorem exists_saves (st : Store Z D) (d : Dir FileName) (s : Stored Z D) :
    ∃ d', st.Saves d s (.ok ()) d' := by
  obtain ⟨-, d', hrun, -, -⟩ := run_commitSteps st d s
  refine ⟨d', .committed (.ok ()) (List.nil_sublist _) ?_⟩
  rw [List.append_nil]
  exact hrun

/-- A save that reports success leaves its snapshot. -/
theorem Saves.loads_ok (hst : st.Lawful) {d d' : Dir FileName} {s : Stored Z D}
    (h : st.Saves d s (.ok ()) d') : Loads st d' (some s) := by
  cases h with
  | committed _ hremoved hrun =>
    obtain ⟨generation, d₁, hcommit, hholds, hfresh⟩ := run_commitSteps st d s
    rw [run_append, hcommit] at hrun
    exact loads_of_holds st hst s generation d' (hholds.run_removed hfresh
      (fun step hstep => hremoved.subset hstep) hrun)

/-- After a save the directory loads as the new snapshot, or as before when the
save failed. -/
theorem Saves.loads (hst : st.Lawful) {d d' : Dir FileName} {s : Stored Z D}
    {saved : Except WalletError Unit} (h : st.Saves d s saved d')
    {previous : Option (Stored Z D)} (hold : Loads st d previous) :
    Loads st d' (some s) ∨ (saved ≠ .ok () ∧ Loads st d' previous) := by
  cases h with
  | @stopped done rest _ e hstop hrun =>
    obtain ⟨generation, -, halong, -, -⟩ := st.along_saveSnapshot d s
    have hsteps : done ++ (rest ++ st.removeSteps d) = st.saveSnapshot d s := by
      rw [saveSnapshot_eq, ← hstop, List.append_assoc]
    obtain ⟨d'', hrun', hd⟩ := halong.stopped done _ hsteps
    cases hrun.symm.trans hrun'
    rcases hd with hsame | hnew
    · exact Or.inr ⟨by simp, Loads.of_same st d d' previous hsame hold⟩
    · exact Or.inl (loads_of_holds st hst s generation d' hnew)
  | @committed removed _ saved hremoved hrun =>
    obtain ⟨generation, d₁, hcommit, hholds, hfresh⟩ := run_commitSteps st d s
    rw [run_append, hcommit] at hrun
    exact Or.inl (loads_of_holds st hst s generation d' (hholds.run_removed hfresh
      (fun step hstep => hremoved.subset hstep) hrun))

end Saves

end MidnightRs.Storage.Store

namespace MidnightRs.Storage

open Directories

variable {Z D : LedgerVersion → Type} {st : Store Z D} {d : Dir FileName}

theorem Store.load_some {v : LedgerVersion} {s : Snapshot Z D v}
    (h : st.load d v = .ok (some s)) : st.loadLedgerVersion d = .ok (some v) := by
  unfold Store.load at h
  unfold Store.loadLedgerVersion
  rcases hread : st.readMetadata d with e | _ | m
  · rw [hread] at h
    cases h
  · rw [hread] at h
    cases h
  · rw [hread] at h
    simp only at h
    by_cases hledger : m.ledgerVersion = v
    · exact congrArg (fun v => Except.ok (some v)) hledger
    · rw [show Store.expectLedger v m.ledgerVersion = .error (.ledgerMismatch v m.ledgerVersion)
        from if_neg hledger] at h
      cases h

/-- A snapshot is found by every sync on a chain of its generation or a later
one. -/
theorem Loads.loadSnapshot {s : Stored Z D} (h : Loads st d (some s)) {chain : LedgerVersion}
    (hchain : s.1 ≤ chain) : st.loadSnapshot d chain = .ok (some s) := by
  unfold Store.loadSnapshot
  rw [Store.load_some h.1]
  simp only
  rw [if_neg (not_lt.mpr hchain), h.1]
  rfl

/-- A directory loads as one snapshot. -/
theorem Loads.unique {x y : Stored Z D} (hx : Loads st d (some x)) (hy : Loads st d (some y)) : x = y := by
  have hledger : x.1 = y.1 := by
    by_contra hne
    have hload := hx.2 y.1 (Ne.symm hne)
    rw [hy.1] at hload
    cases hload
  obtain ⟨v, x⟩ := x
  obtain ⟨v', y⟩ := y
  obtain rfl : v = v' := hledger
  have hsame := hx.1.symm.trans hy.1
  simp only [Except.ok.injEq, Option.some.injEq] at hsame
  rw [hsame]

theorem Loads.loadSnapshot_none (h : Loads st d none) (chain : LedgerVersion) :
    st.loadSnapshot d chain = .ok none := by
  have hload := h chain
  unfold Store.load at hload
  unfold Store.loadSnapshot Store.loadLedgerVersion
  rcases hread : st.readMetadata d with e | _ | m
  · rw [hread] at hload
    cases hload
  · rfl
  · rw [hread] at hload
    simp only at hload
    -- With metadata there, a load finds a snapshot or fails.
    split at hload
    · cases hload
    split at hload
    · cases hload
    split at hload
    · cases hload
    split at hload
    · cases hload
    · cases hload

end MidnightRs.Storage

namespace MidnightRs.ChainSync

open LedgerReplays Storage Reservations Directories

variable {Z D E P : LedgerVersion → Type}

section Machines

/-- A wallet: what a running process holds, and the directory. -/
structure Machine (Z D P : LedgerVersion → Type) where
  memory : Option (State Z D P)
  dir : Dir FileName

/-- Saves one after the other. A checkpoint that fails is only logged. -/
inductive SavesAll (st : Store Z D) : Dir FileName → List (Stored Z D) → Dir FileName → Prop
  | nil (d : Dir FileName) : SavesAll st d [] d
  | cons {d d₁ d' : Dir FileName} {s : Stored Z D} {saved : Except WalletError Unit}
      {rest : List (Stored Z D)} (hsave : st.Saves d s saved d₁)
      (hrest : SavesAll st d₁ rest d') : SavesAll st d (s :: rest) d'

/-- What happens to a wallet: one attempt of a sync, an edit of the state in
memory, a change of its reservations or of its pin, a save, or the end of the
process. -/
inductive Op where
  | sync (sync : SyncOptions) (block : Except WalletError Block) (around : Surroundings)
  | edit (edit : Edit)
  | reserve (pending : PendingReservations)
  | pin (pin : ChainPin)
  | save
  | stop

variable (L : Ledgers Z D E P) (st : Store Z D) [∀ v, DecidableEq (P v)]

/-- One step. Where a process ends during a save, the save fails and the process
ends after it. -/
inductive Step : Machine Z D P → Op → Machine Z D P → Prop
  | unsynced {m : Machine Z D P} {sync : SyncOptions} {block : Except WalletError Block}
      {around : Surroundings} {early late : List (Stored Z D)} {d' : Dir FileName}
      (hwrites : (syncOnce L st m.dir sync block around).1 = early ++ late)
      (hsaves : SavesAll st m.dir early d') : Step m (.sync sync block around) ⟨none, d'⟩
  | synced {m : Machine Z D P} {sync : SyncOptions} {block : Except WalletError Block}
      {around : Surroundings} {s : State Z D P} {checkpoints : List (Stored Z D)}
      {d d' : Dir FileName}
      (hresult : syncOnce L st m.dir sync block around = (checkpoints ++ [s.stored], some (.ok s)))
      (hcheckpoints : SavesAll st m.dir checkpoints d) (hsave : st.Saves d s.stored (.ok ()) d') :
      Step m (.sync sync block around) ⟨some s, d'⟩
  | syncedInMemory {m : Machine Z D P} {sync : SyncOptions} {block : Except WalletError Block}
      {around : Surroundings} {s : State Z D P}
      (hresult : syncOnce L st m.dir sync block around = ([], some (.ok s))) :
      Step m (.sync sync block around) ⟨some s, m.dir⟩
  | edited {s s' : State Z D P} {edit : Edit} {changed : Bool} {saved : Except WalletError Unit}
      {d d' : Dir FileName} (hrun : edit.run L s = some (.ok (s', changed)))
      (hsave : if s'.2.persists changed then st.Saves d s'.stored saved d' else d' = d) :
      Step ⟨some s, d⟩ (.edit edit) ⟨some (s'.persist changed saved).1, d'⟩
  | reserved {s : State Z D P} {d : Dir FileName} {pending : PendingReservations}
      (saved : Except WalletError Unit) :
      Step ⟨some s, d⟩ (.reserve pending) ⟨some ⟨s.1, s.2.setPending pending saved⟩, d⟩
  | pinned {s : State Z D P} {d : Dir FileName} {pin : ChainPin} :
      Step ⟨some s, d⟩ (.pin pin) ⟨some ⟨s.1, s.2.setChainPin pin⟩, d⟩
  | saved {s : State Z D P} {d d' : Dir FileName} {saved : Except WalletError Unit}
      (hsave : st.Saves d s.stored saved d') : Step ⟨some s, d⟩ .save ⟨some s, d'⟩
  | stopped {m : Machine Z D P} : Step m .stop ⟨none, m.dir⟩

/-- A run, of which each step is as `allowed` says of its operation and the
state before it. -/
inductive Run (allowed : Machine Z D P → Op → Prop) : Machine Z D P → Machine Z D P → Prop
  | refl (m : Machine Z D P) : Run allowed m m
  | step {m m' m'' : Machine Z D P} {op : Op} (hrun : Run allowed m m') (hop : allowed m' op)
      (hstep : Step L st m' op m'') : Run allowed m m''

variable {L st} in
theorem Run.mono {allowed allowed' : Machine Z D P → Op → Prop}
    (hall : ∀ m op, allowed m op → allowed' m op) {m m' : Machine Z D P}
    (h : Run L st allowed m m') : Run L st allowed' m m' := by
  induction h with
  | refl => exact .refl _
  | step hrun hop hstep ih => exact ih.step (hall _ _ hop) hstep

end Machines

end MidnightRs.ChainSync
