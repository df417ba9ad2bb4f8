import MidnightRs.Errors
import Mathlib.Data.List.Basic

/-!
A directory of named files, the steps a program takes on it, and the points
between two steps at which the program can stop. A rename is one step, and
written data may stop after any byte.
-/
namespace MidnightRs.Directories

variable {N : Type*} [DecidableEq N]

/-- A directory, which holds no file before it is created. -/
structure Dir (N : Type*) where
  present : Bool
  files : N → Option Bytes

inductive Step (N : Type*) where
  | createDir
  | remove (name : N)
  | create (name : N)
  | write (name : N) (byte : UInt8)
  | rename (source target : N)
  | sync
deriving DecidableEq

namespace Dir

def set (d : Dir N) (name : N) (file : Option Bytes) : Dir N :=
  { d with files := Function.update d.files name file }

@[simp] theorem set_present (d : Dir N) (name : N) (file : Option Bytes) :
    (d.set name file).present = d.present := rfl

@[simp] theorem set_files_self (d : Dir N) (name : N) (file : Option Bytes) :
    (d.set name file).files name = file := Function.update_self ..

theorem set_files_ne (d : Dir N) (name other : N) (file : Option Bytes) (h : other ≠ name) :
    (d.set name file).files other = d.files other := Function.update_of_ne h ..

end Dir

/-- A step's effect; `none` when the file system refuses it. Removing a file
that is not there does nothing. -/
def Step.apply (d : Dir N) : Step N → Option (Dir N)
  | .createDir => some { d with present := true }
  | .remove name => some (d.set name none)
  | .create name =>
    if d.present && (d.files name).isNone then some (d.set name (some [])) else none
  | .write name byte => (d.files name).map (fun bytes => d.set name (some (bytes ++ [byte])))
  | .rename source target =>
    (d.files source).map (fun bytes => (d.set target (some bytes)).set source none)
  | .sync => some d

def run : Dir N → List (Step N) → Option (Dir N)
  | d, [] => some d
  | d, s :: steps =>
    match s.apply d with
    | none => none
    | some d' => run d' steps

/-- The steps succeed, and `P` holds wherever the program may stop. -/
def Along (P : Dir N → Prop) : Dir N → List (Step N) → Prop
  | d, [] => P d
  | d, s :: steps => P d ∧ ∃ d', s.apply d = some d' ∧ Along P d' steps

theorem Along.stopped {P : Dir N → Prop} {d : Dir N} {steps : List (Step N)}
    (h : Along P d steps) (done rest : List (Step N)) (hsplit : done ++ rest = steps) :
    ∃ d', run d done = some d' ∧ P d' := by
  induction steps generalizing d done with
  | nil =>
    obtain ⟨rfl, rfl⟩ := List.append_eq_nil_iff.mp hsplit
    exact ⟨d, rfl, h⟩
  | cons s steps ih =>
    obtain ⟨hd, d', happly, hrest⟩ := h
    cases done with
    | nil => exact ⟨d, rfl, hd⟩
    | cons s' done =>
      obtain ⟨rfl, htail⟩ := List.cons.inj hsplit
      obtain ⟨d'', hrun, hP⟩ := ih hrest done htail
      exact ⟨d'', by simp only [run, happly, hrun], hP⟩

theorem run_append (d : Dir N) (xs ys : List (Step N)) :
    run d (xs ++ ys) = (run d xs).bind (fun d' => run d' ys) := by
  induction xs generalizing d with
  | nil => rfl
  | cons s xs ih =>
    simp only [List.cons_append, run]
    cases s.apply d with
    | none => rfl
    | some d' => exact ih d'

theorem run_append_of {d d' d'' : Dir N} {xs ys : List (Step N)} (h : run d xs = some d')
    (h' : run d' ys = some d'') : run d (xs ++ ys) = some d'' := by
  rw [run_append, h]
  exact h'

/-- The rule of sequence. -/
theorem Along.append {P : Dir N → Prop} {d d' : Dir N} {xs ys : List (Step N)}
    (h : Along P d xs) (hrun : run d xs = some d') (h' : Along P d' ys) : Along P d (xs ++ ys) := by
  induction xs generalizing d with
  | nil =>
    obtain rfl := Option.some.inj hrun
    exact h'
  | cons s xs ih =>
    obtain ⟨hd, d'', happly, hrest⟩ := h
    simp only [run, happly] at hrun
    exact ⟨hd, d'', happly, ih hrest hrun⟩

section WriteAtomic

/-- Writes a new file, whatever was there, and syncs it. -/
def createFile (name : N) (contents : Bytes) : List (Step N) :=
  [.remove name, .create name] ++ contents.map (Step.write name) ++ [.sync]

/-- Writes the contents beside the file and moves them over it. -/
def writeAtomic (tmp name : N) (contents : Bytes) : List (Step N) :=
  createFile tmp contents ++ [.rename tmp name, .sync]

/-- `P` does not look at the file `name`. -/
def Ignores (P : Dir N → Prop) (name : N) : Prop := ∀ d file, P d → P (d.set name file)

theorem set_set (d : Dir N) (name : N) (a b : Option Bytes) :
    (d.set name a).set name b = d.set name b := by
  simp [Dir.set]

theorem along_writes {P : Dir N → Prop} {name : N} (hP : Ignores P name) (d : Dir N)
    (hd : P d) (written contents : Bytes) :
    Along P (d.set name (some written)) (contents.map (Step.write name)) ∧
      run (d.set name (some written)) (contents.map (Step.write name)) =
        some (d.set name (some (written ++ contents))) := by
  induction contents generalizing written with
  | nil => exact ⟨hP d _ hd, by simp [run]⟩
  | cons b contents ih =>
    have happly : (Step.write name b).apply (d.set name (some written)) =
        some (d.set name (some (written ++ [b]))) := by
      simp [Step.apply, set_set]
    obtain ⟨halong, hrun⟩ := ih (written ++ [b])
    refine ⟨⟨hP d _ hd, _, happly, halong⟩, ?_⟩
    simp only [List.map_cons, run, happly, hrun, List.append_assoc, List.cons_append,
      List.nil_append]

theorem along_createFile {P : Dir N → Prop} {name : N} (hP : Ignores P name) (d : Dir N)
    (hpresent : d.present = true) (hd : P d) (contents : Bytes) :
    Along P d (createFile name contents) ∧
      run d (createFile name contents) = some (d.set name (some contents)) := by
  obtain ⟨halong, hrun⟩ := along_writes hP d hd [] contents
  have hcreate : (Step.create name).apply (d.set name none) = some (d.set name (some [])) := by
    simp [Step.apply, hpresent, set_set]
  have hstart : Along P d [.remove name, .create name] :=
    ⟨hd, _, rfl, hP d _ hd, _, hcreate, hP d _ hd⟩
  have hstartRun : run d [.remove name, .create name] = some (d.set name (some [])) := by
    have hremove : (Step.remove name).apply d = some (d.set name none) := rfl
    simp only [run, hremove, hcreate]
  have hall : Along P d ([.remove name, .create name] ++ contents.map (Step.write name)) :=
    hstart.append hstartRun halong
  have hallRun : run d ([.remove name, .create name] ++ contents.map (Step.write name)) =
      some (d.set name (some contents)) := run_append_of hstartRun hrun
  exact ⟨hall.append hallRun ⟨hP d _ hd, _, rfl, hP d _ hd⟩, run_append_of hallRun rfl⟩

/-- The directory after an atomic write. -/
def Dir.written (d : Dir N) (tmp name : N) (contents : Bytes) : Dir N :=
  (d.set name (some contents)).set tmp none

/-- An atomic write stops with the file as it was, or as it is to be. -/
theorem along_writeAtomic {P : Dir N → Prop} {tmp name : N} (hne : name ≠ tmp)
    (hP : Ignores P tmp) (d : Dir N) (hpresent : d.present = true) (hd : P d) (contents : Bytes)
    (hend : P (d.written tmp name contents)) :
    Along P d (writeAtomic tmp name contents) ∧
      run d (writeAtomic tmp name contents) = some (d.written tmp name contents) := by
  obtain ⟨halong, hrun⟩ := along_createFile hP d hpresent hd contents
  have hrename : (Step.rename tmp name).apply (d.set tmp (some contents)) =
      some (d.written tmp name contents) := by
    simp only [Step.apply, Dir.set_files_self, Option.map_some, Option.some.injEq]
    unfold Dir.written Dir.set
    simp [Function.update_comm hne]
  refine ⟨halong.append hrun ⟨hP d _ hd, _, hrename, hend, _, rfl, hend⟩, ?_⟩
  refine run_append_of hrun ?_
  simp only [run, hrename]
  rfl

end WriteAtomic

end MidnightRs.Directories
