import MidnightRs.TypedState
import Mathlib.Data.Finset.Card
import Mathlib.Data.Finset.Range
import Mathlib.Data.List.Dedup

/-!
The state that a contract is deployed with. The artifact gives each ledger field a
path of indices, and the generator groups the fields by their next index into nested
arrays. What it emits either compiles to the tree in which each path leads to its
field, or holds a compile error.
-/
namespace MidnightRs.TypedState

open MidnightRs.Compact

section Fields

/-- An index into one array, or a path when a ledger is batched into several. -/
inductive FieldIndex where
  | single (index : ℕ)
  | path (path : List ℕ)
deriving DecidableEq, Repr

inductive StorageKind where
  | cell
  | counter
  | map
  | set
  | list
  | merkleTree
  | historicMerkleTree
deriving DecidableEq, Repr

structure LedgerField where
  name : String
  index : FieldIndex
  storage : StorageKind
  elementType : Option Ty

/-- Where the artifact puts a field. -/
def LedgerField.fieldPath (field : LedgerField) : List ℕ :=
  match field.index with
  | .single index => [index]
  | .path path => path

/-- The constant that an accessor of the field navigates by, as a slice. -/
def LedgerField.fieldIndices (field : LedgerField) : List ℕ :=
  match field.index with
  | .single index => [index]
  | .path path => path

end Fields

section Expressions

variable {Tree : Type}

/-- The expression of a state that the generator emits. -/
inductive StateExpr (Tree : Type) where
  | value (sv : StateValue Tree)
  | array (elements : List (StateExpr Tree))
  | compileError (message : String)

namespace StateExpr

mutual

/-- What the expression builds, if it compiles. -/
def eval : StateExpr Tree → Option (StateValue Tree)
  | value sv => some sv
  | array elements => (evalEach elements).map .array
  | compileError _ => none

def evalEach : List (StateExpr Tree) → Option (List (StateValue Tree))
  | [] => some []
  | e :: es => (eval e).bind (fun sv => (evalEach es).map (sv :: ·))

end

end StateExpr

structure Slot (Tree : Type) where
  path : List ℕ
  value : StateExpr Tree

/-- The slots under one index, with what is left of their paths. -/
def group (i : ℕ) (slots : List (Slot Tree)) : List (Slot Tree) :=
  slots.filterMap (fun s =>
    match s.path with
    | [] => none
    | j :: rest => if j = i then some ⟨rest, s.value⟩ else none)

def firstIndices (slots : List (Slot Tree)) : List ℕ :=
  (slots.filterMap (fun s => s.path.head?)).dedup

def pathLengths (slots : List (Slot Tree)) : ℕ := (slots.map (fun s => s.path.length)).sum

theorem pathLengths_group_le (i : ℕ) (slots : List (Slot Tree)) :
    pathLengths (group i slots) + (group i slots).length ≤ pathLengths slots := by
  unfold pathLengths
  induction slots with
  | nil => exact Nat.le_refl 0
  | cons s slots ih =>
    obtain ⟨path, value⟩ := s
    cases path with
    | nil => simpa [group] using ih
    | cons j rest =>
      by_cases hj : j = i
      · have hgroup : group i (⟨j :: rest, value⟩ :: slots) = ⟨rest, value⟩ :: group i slots := by
          simp [group, hj]
        rw [hgroup]
        simp only [List.map_cons, List.sum_cons, List.length_cons]
        omega
      · have hgroup : group i (⟨j :: rest, value⟩ :: slots) = group i slots := by
          simp [group, hj]
        rw [hgroup]
        simp only [List.map_cons, List.sum_cons]
        omega

theorem pathLengths_group_lt {i : ℕ} {slots : List (Slot Tree)} (h : group i slots ≠ []) :
    pathLengths (group i slots) < pathLengths slots := by
  have hle := pathLengths_group_le i slots
  have hpos := List.length_pos_iff.mpr h
  omega

/-- Groups the slots by their leading index and recurses, up to the value of a slot
whose path is used up. -/
def stateArrayExpr (slots : List (Slot Tree)) : StateExpr Tree :=
  match slots with
  | [⟨[], value⟩] => value
  | slots =>
    if slots.any (fun s => s.path.isEmpty) then
      .compileError "a ledger field's index path stops short of its siblings'"
    else
      .array ((List.range (firstIndices slots).length).map (fun i =>
        if _h : group i slots = [] then
          .compileError s!"the artifact declares no ledger field at state index {i}"
        else stateArrayExpr (group i slots)))
termination_by pathLengths slots
decreasing_by exact pathLengths_group_lt _h

end Expressions

section Paths

/-- Neither path leads through the end of the other one. -/
def Apart (p q : List ℕ) : Prop := ¬ p <+: q ∧ ¬ q <+: p

/-- The paths lead to places of their own, and no level has a gap. -/
structure Placed (paths : List (List ℕ)) : Prop where
  apart : paths.Pairwise Apart
  contiguous : ∀ p i, (∃ q ∈ paths, p ++ [i] <+: q) → ∀ j < i, ∃ q ∈ paths, p ++ [j] <+: q

/-- What is left of a path under the index `i`. -/
def tailAt (i : ℕ) : List ℕ → Option (List ℕ)
  | [] => none
  | j :: rest => if j = i then some rest else none

theorem tailAt_eq_some {i : ℕ} {p rest : List ℕ} : tailAt i p = some rest ↔ p = i :: rest := by
  cases p with
  | nil => simp [tailAt]
  | cons j p =>
    by_cases hj : j = i
    · simp [tailAt, hj]
    · simp [tailAt, hj]

variable {paths : List (List ℕ)}

theorem mem_tails {i : ℕ} {rest : List ℕ} :
    rest ∈ paths.filterMap (tailAt i) ↔ i :: rest ∈ paths := by
  rw [List.mem_filterMap]
  constructor
  · rintro ⟨p, hp, htail⟩
    rw [tailAt_eq_some] at htail
    exact htail ▸ hp
  · exact fun h => ⟨_, h, tailAt_eq_some.mpr rfl⟩

theorem exists_prefix_cons (i : ℕ) (r : List ℕ) :
    (∃ q ∈ paths, i :: r <+: q) ↔ ∃ q ∈ paths.filterMap (tailAt i), r <+: q := by
  constructor
  · rintro ⟨q, hq, t, rfl⟩
    exact ⟨r ++ t, mem_tails.mpr hq, List.prefix_append r t⟩
  · rintro ⟨q, hq, hr⟩
    exact ⟨i :: q, mem_tails.mp hq, (List.prefix_cons_inj i).mpr hr⟩

theorem apart_cons (i : ℕ) {p q : List ℕ} : Apart (i :: p) (i :: q) ↔ Apart p q := by
  unfold Apart
  rw [List.prefix_cons_inj, List.prefix_cons_inj]

/-- Paths are apart when those under each index are. -/
theorem pairwise_apart_iff (hne : [] ∉ paths) :
    paths.Pairwise Apart ↔ ∀ i, (paths.filterMap (tailAt i)).Pairwise Apart := by
  simp only [List.pairwise_filterMap]
  simp only [List.pairwise_iff_getElem]
  constructor
  · intro h i m n hm hn hlt p hp q hq
    have hapart := h m n hm hn hlt
    rw [tailAt_eq_some.mp hp, tailAt_eq_some.mp hq, apart_cons] at hapart
    exact hapart
  · intro h m n hm hn hlt
    cases hp : paths[m] with
    | nil => exact absurd (hp ▸ List.getElem_mem hm) hne
    | cons i p =>
      cases hq : paths[n] with
      | nil => exact absurd (hq ▸ List.getElem_mem hn) hne
      | cons j q =>
        by_cases hij : i = j
        · subst hij
          rw [apart_cons]
          exact h i m n hm hn hlt p (tailAt_eq_some.mpr hp) q (tailAt_eq_some.mpr hq)
        · constructor
          · exact fun hpre => hij (List.cons_prefix_cons.mp hpre).1
          · exact fun hpre => hij (List.cons_prefix_cons.mp hpre).1.symm

/-- Placing paths is placing those under each index, with the indices in a row. -/
theorem placed_iff (hne : [] ∉ paths) :
    Placed paths ↔ (∀ i, Placed (paths.filterMap (tailAt i))) ∧
      ∀ i, (∃ q ∈ paths, [i] <+: q) → ∀ j < i, ∃ q ∈ paths, [j] <+: q := by
  constructor
  · intro h
    refine ⟨fun i => ⟨(pairwise_apart_iff hne).mp h.apart i, fun p k hk j hj => ?_⟩,
      fun i hi j hj => h.contiguous [] i hi j hj⟩
    rw [← exists_prefix_cons] at hk ⊢
    exact h.contiguous (i :: p) k hk j hj
  · rintro ⟨hgroups, hfirst⟩
    refine ⟨(pairwise_apart_iff hne).mpr (fun i => (hgroups i).apart), fun p i hi j hj => ?_⟩
    cases p with
    | nil => exact hfirst i hi j hj
    | cons k p =>
      rw [List.cons_append, exists_prefix_cons] at hi ⊢
      exact (hgroups k).contiguous p i hi j hj

/-- As many different numbers as there are below their count are those numbers. -/
theorem mem_iff_lt_length {l : List ℕ} (hnodup : l.Nodup) (h : ∀ i < l.length, i ∈ l) (i : ℕ) :
    i ∈ l ↔ i < l.length := by
  have hsub : Finset.range l.length ⊆ l.toFinset := fun j hj =>
    List.mem_toFinset.mpr (h j (Finset.mem_range.mp hj))
  have heq := Finset.eq_of_subset_of_card_le hsub
    (by rw [List.toFinset_card_of_nodup hnodup, Finset.card_range])
  rw [← List.mem_toFinset, ← heq, Finset.mem_range]

/-- Different numbers without a gap are those below their count. -/
theorem mem_of_lt_length {l : List ℕ} (hnodup : l.Nodup) (h : ∀ i ∈ l, ∀ j < i, j ∈ l) {i : ℕ}
    (hi : i < l.length) : i ∈ l := by
  by_contra hmem
  have hsub : l.toFinset ⊆ Finset.range i := by
    intro j hj
    rw [List.mem_toFinset] at hj
    rw [Finset.mem_range]
    by_contra hle
    rcases Nat.lt_or_eq_of_le (Nat.not_lt.mp hle) with hlt | rfl
    · exact hmem (h j hj i hlt)
    · exact hmem hj
  have hcard := Finset.card_le_card hsub
  rw [List.toFinset_card_of_nodup hnodup, Finset.card_range] at hcard
  omega

end Paths

section Building

variable {Tree : Type} {slots : List (Slot Tree)} {sv : StateValue Tree}

def paths (slots : List (Slot Tree)) : List (List ℕ) := slots.map Slot.path

/-- Each slot's path leads to what the slot's expression builds. -/
def Leads (slots : List (Slot Tree)) (sv : StateValue Tree) : Prop :=
  ∀ s ∈ slots, ∃ v, s.value.eval = some v ∧ getFieldPath sv s.path = .ok v

/-- On the way of a path there are arrays, with one element for each way on. -/
def Levels (paths : List (List ℕ)) (sv : StateValue Tree) : Prop :=
  ∀ p q, q ∈ paths → p <+: q → p ≠ q → ∃ elements, getFieldPath sv p = .ok (.array elements) ∧
    ∀ i, i < elements.length ↔ ∃ r ∈ paths, p ++ [i] <+: r

/-- The state that a set of slots asks for. -/
structure Built (slots : List (Slot Tree)) (sv : StateValue Tree) : Prop where
  placed : Placed (paths slots)
  leads : Leads slots sv
  levels : Levels (paths slots) sv

theorem mem_group {i : ℕ} {s : Slot Tree} : s ∈ group i slots ↔ ⟨i :: s.path, s.value⟩ ∈ slots := by
  unfold group
  rw [List.mem_filterMap]
  constructor
  · rintro ⟨⟨path, value⟩, hmem, hs⟩
    cases path with
    | nil => cases hs
    | cons j rest =>
      simp only at hs
      split at hs
      · rename_i hj
        cases hs
        exact hj ▸ hmem
      · cases hs
  · intro hmem
    exact ⟨_, hmem, if_pos rfl⟩

theorem paths_group (i : ℕ) (slots : List (Slot Tree)) :
    paths (group i slots) = (paths slots).filterMap (tailAt i) := by
  unfold paths group
  rw [List.map_filterMap, List.filterMap_map]
  refine congrArg (fun f => List.filterMap f slots) (funext fun s => ?_)
  obtain ⟨path, value⟩ := s
  cases path with
  | nil => rfl
  | cons j rest =>
    by_cases hj : j = i
    · simp [tailAt, hj]
    · simp [tailAt, hj]

theorem mem_firstIndices {i : ℕ} : i ∈ firstIndices slots ↔ ∃ q ∈ paths slots, [i] <+: q := by
  unfold firstIndices paths
  rw [List.mem_dedup, List.mem_filterMap]
  constructor
  · rintro ⟨s, hs, hhead⟩
    obtain ⟨rest, hrest⟩ := List.head?_eq_some_iff.mp hhead
    exact ⟨s.path, List.mem_map_of_mem hs, rest, hrest.symm⟩
  · rintro ⟨q, hq, rest, rfl⟩
    obtain ⟨s, hs, hpath⟩ := List.mem_map.mp hq
    exact ⟨s, hs, by rw [hpath]; rfl⟩

theorem nodup_firstIndices : (firstIndices slots).Nodup := List.nodup_dedup _

theorem group_ne_nil {i : ℕ} : group i slots ≠ [] ↔ i ∈ firstIndices slots := by
  rw [mem_firstIndices, exists_prefix_cons, ← paths_group]
  constructor
  · intro hne
    obtain ⟨s, hs⟩ := List.exists_mem_of_ne_nil _ hne
    exact ⟨s.path, List.mem_map_of_mem hs, List.nil_prefix⟩
  · rintro ⟨q, hq, -⟩ hnil
    rw [hnil] at hq
    cases hq

theorem evalEach_eq_some {es : List (StateExpr Tree)} {svs : List (StateValue Tree)} :
    StateExpr.evalEach es = some svs ↔ List.Forall₂ (fun e sv => e.eval = some sv) es svs := by
  induction es generalizing svs with
  | nil => simp [StateExpr.evalEach, eq_comm]
  | cons e es ih =>
    cases he : e.eval with
    | none => simp [StateExpr.evalEach, he, List.forall₂_cons_left_iff]
    | some sv =>
      simp only [StateExpr.evalEach, he, Option.bind_some, Option.map_eq_some_iff, ih,
        List.forall₂_cons_left_iff, Option.some.injEq]
      constructor
      · rintro ⟨svs', hsvs, rfl⟩
        exact ⟨sv, svs', rfl, hsvs, rfl⟩
      · rintro ⟨sv', svs', rfl, hsvs, rfl⟩
        exact ⟨svs', hsvs, rfl⟩

/-- What stands at the index `i` of the array. -/
def element (slots : List (Slot Tree)) (i : ℕ) : StateExpr Tree :=
  if group i slots = [] then
    .compileError s!"the artifact declares no ledger field at state index {i}"
  else stateArrayExpr (group i slots)

theorem stateArrayExpr_single (value : StateExpr Tree) :
    stateArrayExpr [⟨[], value⟩] = value := by
  rw [stateArrayExpr]

theorem stateArrayExpr_short (hmany : ∀ value, slots ≠ [⟨[], value⟩]) (hshort : [] ∈ paths slots) :
    stateArrayExpr slots =
      .compileError "a ledger field's index path stops short of its siblings'" := by
  have hany : slots.any (fun s => s.path.isEmpty) = true := by
    obtain ⟨s, hs, hpath⟩ := List.mem_map.mp hshort
    exact List.any_eq_true.mpr ⟨s, hs, by rw [hpath]; rfl⟩
  rw [stateArrayExpr]
  · rw [if_pos hany]
  · exact hmany

theorem stateArrayExpr_array (hne : [] ∉ paths slots) :
    stateArrayExpr slots =
      .array ((List.range (firstIndices slots).length).map (element slots)) := by
  have hany : ¬ slots.any (fun s => s.path.isEmpty) = true := by
    intro h
    obtain ⟨s, hs, hempty⟩ := List.any_eq_true.mp h
    rw [List.isEmpty_iff] at hempty
    exact hne (hempty ▸ List.mem_map_of_mem hs)
  rw [stateArrayExpr]
  · rw [if_neg hany]
    rfl
  · rintro value rfl
    exact hne List.mem_cons_self

/-- An array that is built has an element for each index below its length, and no
other group of slots. -/
theorem eval_array_iff (hne : [] ∉ paths slots) :
    (stateArrayExpr slots).eval = some sv ↔ ∃ elements, sv = .array elements ∧
      elements.length = (firstIndices slots).length ∧ ∀ i, ∀ sv, elements[i]? = some sv →
        group i slots ≠ [] ∧ (stateArrayExpr (group i slots)).eval = some sv := by
  have helement : ∀ i sv, (element slots i).eval = some sv ↔
      group i slots ≠ [] ∧ (stateArrayExpr (group i slots)).eval = some sv := by
    intro i sv
    unfold element
    split
    · rename_i hnil
      simp [StateExpr.eval, hnil]
    · rename_i hnil
      simp [hnil]
  rw [stateArrayExpr_array hne]
  simp only [StateExpr.eval, Option.map_eq_some_iff, evalEach_eq_some, List.forall₂_map_left_iff]
  constructor
  · rintro ⟨elements, heach, rfl⟩
    have hlength := heach.length_eq
    rw [List.length_range] at hlength
    refine ⟨elements, rfl, hlength.symm, fun i sv hsv => (helement i sv).mp ?_⟩
    obtain ⟨hi, rfl⟩ := List.getElem?_eq_some_iff.mp hsv
    have hget := heach.get (by rw [List.length_range, hlength]; exact hi) hi
    simpa using hget
  · rintro ⟨elements, rfl, hlength, heach⟩
    refine ⟨elements, ?_, rfl⟩
    refine List.forall₂_iff_get.mpr ⟨by rw [List.length_range, hlength], fun i hi hi' => ?_⟩
    have hget := (helement i _).mpr (heach i _ (List.getElem?_eq_getElem hi'))
    simpa using hget

/-- What compiles leads each path to its slot, and its levels have no gap. -/
theorem built_of_eval (slots : List (Slot Tree)) (sv : StateValue Tree)
    (h : (stateArrayExpr slots).eval = some sv) : Built slots sv := by
  induction hn : pathLengths slots using Nat.strong_induction_on generalizing slots sv with
  | _ n ih =>
    by_cases hsingle : ∃ value, slots = [⟨[], value⟩]
    · obtain ⟨value, rfl⟩ := hsingle
      rw [stateArrayExpr_single] at h
      refine ⟨⟨List.pairwise_singleton _ _, ?_⟩, ?_, ?_⟩
      · rintro p i ⟨q, hq, hpre⟩
        rw [List.mem_singleton.mp hq, List.prefix_nil] at hpre
        exact absurd hpre (by simp)
      · intro s hs
        rw [List.mem_singleton.mp hs]
        exact ⟨sv, h, rfl⟩
      · intro p q hq hpre hpq
        rw [List.mem_singleton.mp hq] at hpre hpq
        exact absurd (List.prefix_nil.mp hpre) hpq
    · have hmany : ∀ value, slots ≠ [⟨[], value⟩] := fun value heq => hsingle ⟨value, heq⟩
      by_cases hshort : [] ∈ paths slots
      · rw [stateArrayExpr_short hmany hshort] at h
        cases h
      · obtain ⟨elements, rfl, hlength, heach⟩ := (eval_array_iff hshort).mp h
        have hmem (i : ℕ) : i ∈ firstIndices slots ↔ i < elements.length := by
          rw [hlength]
          refine mem_iff_lt_length nodup_firstIndices (fun j hj => ?_) i
          rw [← hlength] at hj
          exact group_ne_nil.mp (heach j _ (List.getElem?_eq_getElem hj)).1
        have hgroup (i : ℕ) : ∀ sv, elements[i]? = some sv → Built (group i slots) sv := by
          intro sv hsv
          obtain ⟨hnil, heval⟩ := heach i sv hsv
          exact ih _ (hn ▸ pathLengths_group_lt hnil) _ _ heval rfl
        have hchild (i : ℕ) (hi : i ∈ firstIndices slots) :
            ∃ sv, elements[i]? = some sv ∧ Built (group i slots) sv :=
          ⟨_, List.getElem?_eq_getElem ((hmem i).mp hi), hgroup i _ (List.getElem?_eq_getElem _)⟩
        have hstep (i : ℕ) (p : List ℕ) {child : StateValue Tree} (hchild : elements[i]? = some child) :
            getFieldPath (.array elements) (i :: p) = getFieldPath child p := by
          rw [getFieldPath_cons, getField_ok_iff.mpr ⟨elements, rfl, hchild⟩]
          rfl
        refine ⟨(placed_iff hshort).mpr ⟨fun i => ?_, fun i hi j hj => ?_⟩, fun s hs => ?_, ?_⟩
        · rw [← paths_group]
          by_cases hi : i ∈ firstIndices slots
          · obtain ⟨child, -, hbuilt⟩ := hchild i hi
            exact hbuilt.placed
          · rw [not_not.mp (fun hne => hi (group_ne_nil.mp hne))]
            exact ⟨.nil, fun p i ⟨q, hq, _⟩ => by cases hq⟩
        · rw [← mem_firstIndices, hmem] at hi ⊢
          exact hj.trans hi
        · obtain ⟨path, value⟩ := s
          cases path with
          | nil => exact absurd (List.mem_map_of_mem hs) hshort
          | cons i rest =>
            have hi : i ∈ firstIndices slots :=
              mem_firstIndices.mpr ⟨_, List.mem_map_of_mem hs, rest, rfl⟩
            obtain ⟨child, hget, hbuilt⟩ := hchild i hi
            obtain ⟨v, hv, hleads⟩ := hbuilt.leads ⟨rest, value⟩ (mem_group.mpr hs)
            exact ⟨v, hv, (hstep i rest hget).trans hleads⟩
        · intro p q hq hpre hpq
          cases p with
          | nil =>
            refine ⟨elements, rfl, fun i => ?_⟩
            rw [← hmem, mem_firstIndices]
            rfl
          | cons i p =>
            obtain ⟨rest, rfl⟩ := hpre
            have hi : i ∈ firstIndices slots :=
              mem_firstIndices.mpr ⟨_, hq, p ++ rest, rfl⟩
            obtain ⟨child, hget, hbuilt⟩ := hchild i hi
            have hlevels := hbuilt.levels
            rw [paths_group] at hlevels
            obtain ⟨children, hpath, hways⟩ := hlevels p (p ++ rest) (mem_tails.mpr hq)
              (List.prefix_append p rest) (fun heq => hpq (congrArg (i :: ·) heq))
            refine ⟨children, (hstep i p hget).trans hpath, fun j => (hways j).trans ?_⟩
            rw [List.cons_append, exists_prefix_cons]

/-- Where the paths are placed and each value compiles, the state does. -/
theorem eval_of_placed (slots : List (Slot Tree)) (hplaced : Placed (paths slots))
    (hvalues : ∀ s ∈ slots, ∃ v, s.value.eval = some v) :
    ∃ sv, (stateArrayExpr slots).eval = some sv := by
  induction hn : pathLengths slots using Nat.strong_induction_on generalizing slots with
  | _ n ih =>
    by_cases hsingle : ∃ value, slots = [⟨[], value⟩]
    · obtain ⟨value, rfl⟩ := hsingle
      rw [stateArrayExpr_single]
      exact hvalues ⟨[], value⟩ List.mem_cons_self
    · by_cases hshort : [] ∈ paths slots
      · -- Another path would lead through the end of the empty one.
        obtain ⟨s, hs, hempty⟩ := List.mem_map.mp hshort
        obtain ⟨before, after, hslots⟩ := List.append_of_mem hs
        have hapart := hplaced.apart
        rw [hslots, paths, List.map_append, List.map_cons, hempty, List.pairwise_append] at hapart
        obtain ⟨-, hafter, hbefore⟩ := hapart
        have hnil : after = [] := by
          cases after with
          | nil => rfl
          | cons t after =>
            exact absurd List.nil_prefix ((List.pairwise_cons.mp hafter).1 t.path (by simp)).1
        have hnil' : before = [] := by
          cases before with
          | nil => rfl
          | cons t before =>
            exact absurd List.nil_prefix (hbefore t.path (by simp) [] (by simp)).2
        subst hnil hnil'
        refine absurd ⟨s.value, ?_⟩ hsingle
        rw [hslots, ← hempty]
        rfl
      · obtain ⟨hgroups, hfirst⟩ := (placed_iff hshort).mp hplaced
        have hmem (i : ℕ) (hi : i < (firstIndices slots).length) : group i slots ≠ [] := by
          refine group_ne_nil.mpr (mem_of_lt_length nodup_firstIndices (fun i hi j hj => ?_) hi)
          rw [mem_firstIndices] at hi ⊢
          exact hfirst i hi j hj
        have heach (i : ℕ) (hi : i < (firstIndices slots).length) :
            ∃ sv, (stateArrayExpr (group i slots)).eval = some sv := by
          refine ih _ (hn ▸ pathLengths_group_lt (hmem i hi)) _ ?_ (fun s hs => ?_) rfl
          · rw [paths_group]
            exact hgroups i
          · exact hvalues ⟨i :: s.path, s.value⟩ (mem_group.mp hs)
        have : Nonempty (StateValue Tree) := ⟨.null⟩
        choose! child hchild using heach
        refine ⟨_, (eval_array_iff hshort).mpr
          ⟨(List.range (firstIndices slots).length).map child, rfl, by simp, fun i sv hsv => ?_⟩⟩
        rw [List.getElem?_map, Option.map_eq_some_iff] at hsv
        obtain ⟨j, hj, rfl⟩ := hsv
        obtain ⟨hlt, hget⟩ := List.getElem?_eq_some_iff.mp hj
        rw [List.length_range] at hlt
        rw [List.getElem_range] at hget
        subst hget
        exact ⟨hmem _ hlt, hchild _ hlt⟩

end Building

section Emission

variable {Tree : Type}

/-- The expression that puts a field's value into the state. -/
def conversion (field : LedgerField) (value : StateValue Tree) : StateExpr Tree :=
  match field.storage, field.elementType with
  | .cell, none => .compileError s!"ledger cell `{field.name}` carries no type"
  | _, _ => .value value

/-- The fields of the struct with their values, as the slots of the state. -/
def fieldConversions (fields : List (LedgerField × StateValue Tree)) : List (Slot Tree) :=
  fields.map (fun field => ⟨field.1.fieldPath, conversion field.1 field.2⟩)

/-- The state that the struct builds. -/
def buildExpr (fields : List (LedgerField × StateValue Tree)) : StateExpr Tree :=
  stateArrayExpr (fieldConversions fields)

theorem paths_fieldConversions (fields : List (LedgerField × StateValue Tree)) :
    paths (fieldConversions fields) = fields.map (fun field => field.1.fieldIndices) := by
  unfold paths fieldConversions
  rw [List.map_map]
  rfl

theorem conversion_eval (field : LedgerField) (value : StateValue Tree) :
    ((∃ v, (conversion field value).eval = some v) ↔
      (field.storage = .cell → field.elementType ≠ none)) ∧
    ∀ v, (conversion field value).eval = some v → v = value := by
  unfold conversion
  split
  · rename_i hcell hnone
    simp [StateExpr.eval, hcell, hnone]
  · rename_i hother
    have htyped : field.storage = .cell → field.elementType ≠ none :=
      fun hcell hnone => hother hcell hnone
    refine ⟨⟨fun _ => htyped, fun _ => ⟨value, rfl⟩⟩, fun v hv => ?_⟩
    exact (Option.some.inj hv).symm

/-- The struct builds a state, whatever the values in it, exactly when its paths are
placed and its cells have types. Then each field's path leads its accessor to the
field's value, and no level has a gap. -/
theorem initial_state_placed (fields : List (LedgerField × StateValue Tree)) :
    ((∃ state, (buildExpr fields).eval = some state) ↔
      Placed (fields.map (fun field => field.1.fieldIndices)) ∧
        ∀ field ∈ fields, field.1.storage = .cell → field.1.elementType ≠ none) ∧
    ∀ state, (buildExpr fields).eval = some state →
      (∀ field ∈ fields, getFieldPath state field.1.fieldIndices = .ok field.2) ∧
      Levels (fields.map (fun field => field.1.fieldIndices)) state := by
  have hmem : ∀ field ∈ fields, (⟨field.1.fieldPath, conversion field.1 field.2⟩ : Slot Tree) ∈
      fieldConversions fields := fun field hfield => List.mem_map_of_mem hfield
  have hbuilt : ∀ state, (buildExpr fields).eval = some state →
      Built (fieldConversions fields) state := fun state h => built_of_eval _ state h
  rw [← paths_fieldConversions]
  refine ⟨⟨fun ⟨state, h⟩ => ⟨(hbuilt state h).placed, fun field hfield => ?_⟩,
    fun ⟨hplaced, htyped⟩ => eval_of_placed _ hplaced (fun s hs => ?_)⟩,
    fun state h => ⟨fun field hfield => ?_, (hbuilt state h).levels⟩⟩
  · obtain ⟨v, hv, -⟩ := (hbuilt state h).leads _ (hmem field hfield)
    exact (conversion_eval field.1 field.2).1.mp ⟨v, hv⟩
  · obtain ⟨field, hfield, rfl⟩ := List.mem_map.mp hs
    exact (conversion_eval field.1 field.2).1.mpr (htyped field hfield)
  · obtain ⟨v, hv, hleads⟩ := (hbuilt state h).leads _ (hmem field hfield)
    rw [(conversion_eval field.1 field.2).2 v hv] at hleads
    exact hleads

/-- Two fields of one array, a path that stops short of another, and a gap. -/
example : stateArrayExpr [⟨[1], .value .null⟩, ⟨[0], .value (.map [])⟩] =
    (.array [.value (.map []), .value .null] : StateExpr Unit) := by
  rw [stateArrayExpr_array (by simp [paths])]
  simp [element, group, firstIndices, stateArrayExpr_single, List.range_succ]

end Emission

end MidnightRs.TypedState
