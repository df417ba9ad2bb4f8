import Mathlib.Algebra.Order.Ring.Nat
import Mathlib.Data.List.Nodup
import Mathlib.Order.Lattice

/-!
Maps over a linear order, kept as the list of their entries in key order, and the
totals of a list of amounts under their keys.
-/
namespace MidnightRs.SortedMaps

/-- A map whose entries stand in the order of their keys, each key once. -/
structure SortedMap (K V : Type*) [LinearOrder K] where
  entries : List (K × V)
  sorted : (entries.map Prod.fst).Pairwise (· < ·)

/-- Entries that a filter keeps under their keys have each key once. -/
theorem keys_filterMap_sublist {K V W : Type*} {f : K × V → Option (K × W)}
    (hf : ∀ e r, f e = some r → r.1 = e.1) (entries : List (K × V)) :
    ((entries.filterMap f).map Prod.fst).Sublist (entries.map Prod.fst) := by
  induction entries with
  | nil => exact List.Sublist.slnil
  | cons e entries ih =>
    cases he : f e with
    | none =>
      rw [List.filterMap_cons_none he]
      exact ih.cons _
    | some r =>
      rw [List.filterMap_cons_some he, List.map_cons, List.map_cons, hf e r he]
      exact ih.cons_cons _

namespace SortedMap

variable {K V W : Type*} [LinearOrder K]

def empty : SortedMap K V := ⟨[], List.Pairwise.nil⟩

def get? (m : SortedMap K V) (k : K) : Option V := m.entries.lookup k

/-- The entries with the value at `k` replaced by what `f` makes of it. -/
def modifyEntries (k : K) (f : Option V → V) : List (K × V) → List (K × V)
  | [] => [(k, f none)]
  | (k', v) :: rest =>
    if k < k' then (k, f none) :: (k', v) :: rest
    else if k = k' then (k, f (some v)) :: rest
    else (k', v) :: modifyEntries k f rest

theorem mem_keys_modifyEntries {k : K} {f : Option V → V} {entries : List (K × V)} {k' : K}
    (h : k' ∈ (modifyEntries k f entries).map Prod.fst) :
    k' = k ∨ k' ∈ entries.map Prod.fst := by
  induction entries with
  | nil => exact Or.inl (by simpa [modifyEntries] using h)
  | cons e rest ih =>
    obtain ⟨k₀, v⟩ := e
    unfold modifyEntries at h
    by_cases hlt : k < k₀
    · rw [if_pos hlt, List.map_cons, List.mem_cons] at h
      exact h
    · by_cases heq : k = k₀
      · rw [if_neg hlt, if_pos heq, List.map_cons, List.mem_cons] at h
        exact h.imp id (List.mem_cons_of_mem _)
      · rw [if_neg hlt, if_neg heq, List.map_cons, List.mem_cons] at h
        rcases h with rfl | h
        · exact Or.inr List.mem_cons_self
        · exact (ih h).imp id (List.mem_cons_of_mem _)

theorem sorted_modifyEntries (k : K) (f : Option V → V) {entries : List (K × V)}
    (h : (entries.map Prod.fst).Pairwise (· < ·)) :
    ((modifyEntries k f entries).map Prod.fst).Pairwise (· < ·) := by
  induction entries with
  | nil => exact List.pairwise_singleton _ _
  | cons e rest ih =>
    obtain ⟨k₀, v⟩ := e
    obtain ⟨hhead, hrest⟩ := List.pairwise_cons.mp h
    unfold modifyEntries
    by_cases hlt : k < k₀
    · rw [if_pos hlt]
      refine List.pairwise_cons.mpr ⟨fun k' hk' => ?_, h⟩
      rcases List.mem_cons.mp hk' with rfl | hk'
      · exact hlt
      · exact lt_trans hlt (hhead k' hk')
    · rw [if_neg hlt]
      by_cases heq : k = k₀
      · subst heq
        rw [if_pos rfl]
        exact h
      · rw [if_neg heq]
        refine List.pairwise_cons.mpr ⟨fun k' hk' => ?_, ih hrest⟩
        rcases mem_keys_modifyEntries hk' with rfl | hk'
        · exact lt_of_le_of_ne (not_lt.mp hlt) (Ne.symm heq)
        · exact hhead k' hk'

def modify (m : SortedMap K V) (k : K) (f : Option V → V) : SortedMap K V :=
  ⟨modifyEntries k f m.entries, sorted_modifyEntries k f m.sorted⟩

theorem keys_nodup (m : SortedMap K V) : (m.entries.map Prod.fst).Nodup :=
  m.sorted.imp fun h => ne_of_lt h

theorem lookup_eq_none {entries : List (K × V)} {k : K} (h : k ∉ entries.map Prod.fst) :
    entries.lookup k = none := by
  rw [List.lookup_eq_none_iff]
  intro e he
  have hne : k ≠ e.1 := fun heq => h (heq ▸ List.mem_map_of_mem he)
  simpa using hne

theorem lookup_cons_ne {k k₀ : K} (h : k ≠ k₀) (v : V) (rest : List (K × V)) :
    ((k₀, v) :: rest).lookup k = rest.lookup k := by
  rw [List.lookup_cons, beq_eq_false_iff_ne.mpr h]

theorem lookup_modifyEntries (k : K) (f : Option V → V) {entries : List (K × V)}
    (h : (entries.map Prod.fst).Pairwise (· < ·)) (k' : K) :
    (modifyEntries k f entries).lookup k' =
      if k' = k then some (f (entries.lookup k)) else entries.lookup k' := by
  induction entries with
  | nil =>
    by_cases hk : k' = k
    · subst hk
      simp [modifyEntries]
    · rw [if_neg hk]
      exact lookup_cons_ne hk _ _
  | cons e rest ih =>
    obtain ⟨k₀, v⟩ := e
    obtain ⟨hhead, hrest⟩ := List.pairwise_cons.mp h
    unfold modifyEntries
    by_cases hlt : k < k₀
    · have hnone : ((k₀, v) :: rest).lookup k = none := by
        refine lookup_eq_none fun hmem => ?_
        rcases List.mem_cons.mp hmem with heq | hmem
        · exact absurd heq (ne_of_lt hlt)
        · exact lt_asymm hlt (hhead k hmem)
      rw [if_pos hlt, hnone]
      by_cases hk : k' = k
      · subst hk
        simp
      · rw [if_neg hk, lookup_cons_ne hk]
    · rw [if_neg hlt]
      by_cases heq : k = k₀
      · subst heq
        rw [if_pos rfl]
        by_cases hk : k' = k
        · subst hk
          simp
        · rw [if_neg hk, lookup_cons_ne hk, lookup_cons_ne hk]
      · rw [if_neg heq]
        by_cases hk₀ : k' = k₀
        · subst hk₀
          simp [Ne.symm heq]
        · rw [lookup_cons_ne hk₀, lookup_cons_ne hk₀, lookup_cons_ne heq, ih hrest]

theorem get?_modify (m : SortedMap K V) (k : K) (f : Option V → V) (k' : K) :
    (m.modify k f).get? k' = if k' = k then some (f (m.get? k)) else m.get? k' :=
  lookup_modifyEntries k f m.sorted k'

theorem mem_entries_iff (m : SortedMap K V) (k : K) (v : V) :
    (k, v) ∈ m.entries ↔ m.get? k = some v := by
  obtain ⟨entries, hsorted⟩ := m
  show (k, v) ∈ entries ↔ entries.lookup k = some v
  induction entries with
  | nil => simp
  | cons e rest ih =>
    obtain ⟨k₀, v₀⟩ := e
    obtain ⟨hhead, hrest⟩ := List.pairwise_cons.mp hsorted
    by_cases hk : k = k₀
    · subst hk
      have hnot : (k, v) ∉ rest := fun hmem =>
        lt_irrefl k (hhead k (List.mem_map_of_mem hmem))
      simp [hnot, eq_comm]
    · rw [lookup_cons_ne hk, List.mem_cons, ih hrest]
      simp [hk]

/-- Each amount goes to what its key has. -/
def addAll (add : V → W → V) (zero : V) (m : SortedMap K V) (amounts : List (K × W)) :
    SortedMap K V :=
  amounts.foldl (fun m e => m.modify e.1 (fun old => add (old.getD zero) e.2)) m

/-- The amounts of one key, in order. -/
def amountsOf (k : K) (amounts : List (K × W)) : List W :=
  (amounts.filter (fun e => decide (e.1 = k))).map Prod.snd

theorem amountsOf_cons_self (k : K) (w : W) (amounts : List (K × W)) :
    amountsOf k ((k, w) :: amounts) = w :: amountsOf k amounts := by
  simp [amountsOf]

theorem amountsOf_cons_ne {k k' : K} (h : k' ≠ k) (w : W) (amounts : List (K × W)) :
    amountsOf k ((k', w) :: amounts) = amountsOf k amounts := by
  simp [amountsOf, h]

@[simp] theorem amountsOf_append (k : K) (xs ys : List (K × W)) :
    amountsOf k (xs ++ ys) = amountsOf k xs ++ amountsOf k ys := by
  simp [amountsOf]

theorem getD_addAll (add : V → W → V) (zero : V) (m : SortedMap K V) (amounts : List (K × W))
    (k : K) :
    ((addAll add zero m amounts).get? k).getD zero =
      (amountsOf k amounts).foldl add ((m.get? k).getD zero) := by
  induction amounts generalizing m with
  | nil => rfl
  | cons e amounts ih =>
    obtain ⟨k', w⟩ := e
    unfold addAll at ih ⊢
    rw [List.foldl_cons, ih, get?_modify]
    by_cases hk : k' = k
    · subst hk
      rw [if_pos rfl, amountsOf_cons_self, List.foldl_cons, Option.getD_some]
    · rw [if_neg (Ne.symm hk), amountsOf_cons_ne hk]

/-- An addition that stops at a bound has the sum up to the bound. -/
theorem foldl_saturating (bound : ℕ) (amounts : List ℕ) {total : ℕ} (h : total ≤ bound) :
    amounts.foldl (fun total amount => min (total + amount) bound) total =
      min (total + amounts.sum) bound := by
  induction amounts generalizing total with
  | nil => simp [h]
  | cons amount amounts ih =>
    rw [List.foldl_cons, ih (Nat.min_le_right _ _), List.sum_cons]
    omega

end SortedMap

end MidnightRs.SortedMaps
