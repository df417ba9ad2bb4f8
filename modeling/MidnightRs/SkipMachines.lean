import MidnightRs.Results

/-!
Machines whose instructions can skip the ones that follow, over arbitrary
states. A program whose skips stay inside it runs the same in front of another
program; and the instructions that do nothing can be left out of it, where no
skip passes over one of them.
-/
namespace MidnightRs.SkipMachines

open Results

variable {I S Ev E : Type*}

/-- What an instruction did, and how many of the next ones it skips. -/
structure Move (S Ev : Type*) where
  state : S
  events : List Ev
  skip : ℕ

/-- A machine, and what it makes of a skip past the end of its program. -/
structure Machine (I S Ev E : Type*) where
  step : I → S → Except E (Move S Ev)
  pastEnd : S → Except E S

namespace Machine

variable (m : Machine I S Ev E)

/-- The program from its first instruction, of which the first `n` are skipped. -/
def run : ℕ → List I → S → Except E (List Ev × S)
  | 0, [], s => .ok ([], s)
  | _ + 1, [], s => (m.pastEnd s).map (fun s => ([], s))
  | n + 1, _ :: is, s => run n is s
  | 0, i :: is, s => (m.step i s).bind (fun move =>
      (run move.skip is move.state).map (fun r => (move.events ++ r.1, r.2)))

theorem run_cons_iff {i : I} {is : List I} {s : S} {r : List Ev × S} :
    m.run 0 (i :: is) s = .ok r ↔ ∃ move rest, m.step i s = .ok move ∧
      m.run move.skip is move.state = .ok rest ∧ r = (move.events ++ rest.1, rest.2) := by
  rw [run, bind_ok_iff]
  constructor
  · rintro ⟨move, hmove, h⟩
    obtain ⟨rest, hrest, rfl⟩ := map_ok_iff.mp h
    exact ⟨move, rest, hmove, hrest, rfl⟩
  · rintro ⟨move, rest, hmove, hrest, rfl⟩
    exact ⟨move, hmove, map_ok_iff.mpr ⟨rest, hrest, rfl⟩⟩

/-- An instruction skips at most what `reach` says. -/
def Within (reach : I → ℕ) : Prop :=
  ∀ i s move, m.step i s = .ok move → move.skip ≤ reach i

end Machine

/-- Each skip stays inside the program, and passes over instructions of `keep`. -/
def Guarded (reach : I → ℕ) (keep : I → Bool) : List I → Prop
  | [] => True
  | i :: is => reach i ≤ is.length ∧ (∀ j ∈ is.take (reach i), keep j = true) ∧
      Guarded reach keep is

instance guardedDecidable (reach : I → ℕ) (keep : I → Bool) :
    (is : List I) → Decidable (Guarded reach keep is)
  | [] => .isTrue trivial
  | i :: is =>
    have := guardedDecidable reach keep is
    inferInstanceAs (Decidable (reach i ≤ is.length ∧ _ ∧ Guarded reach keep is))

section Rules

variable {m : Machine I S Ev E} {reach : I → ℕ} {keep : I → Bool}

theorem Guarded.append {is js : List I} (h : Guarded reach keep is) (h' : Guarded reach keep js) :
    Guarded reach keep (is ++ js) := by
  induction is with
  | nil => exact h'
  | cons i is ih =>
    obtain ⟨hlength, hkeep, hrest⟩ := h
    rw [List.cons_append]
    refine ⟨?_, ?_, ih hrest⟩
    · rw [List.length_append]
      omega
    · rwa [List.take_append_of_le_length hlength]

theorem Guarded.flatten {programs : List (List I)} (h : ∀ is ∈ programs, Guarded reach keep is) :
    Guarded reach keep programs.flatten := by
  induction programs with
  | nil => trivial
  | cons is programs ih =>
    exact (h is List.mem_cons_self).append (ih fun js hjs => h js (List.mem_cons_of_mem _ hjs))

/-- A program whose skips stay inside it runs in front of another program as it
runs alone. -/
theorem run_append (hm : m.Within reach) {is js : List I} {n : ℕ} {s : S}
    {r r' : List Ev × S} (h : Guarded reach keep is) (hn : n ≤ is.length)
    (hrun : m.run n is s = .ok r) (hrun' : m.run 0 js r.2 = .ok r') :
    m.run n (is ++ js) s = .ok (r.1 ++ r'.1, r'.2) := by
  induction is generalizing n s r with
  | nil =>
    obtain rfl : n = 0 := Nat.le_zero.mp hn
    obtain rfl := Except.ok.inj hrun
    exact hrun'
  | cons i is ih =>
    cases n with
    | succ n => exact ih h.2.2 (Nat.le_of_succ_le_succ hn) hrun hrun'
    | zero =>
      obtain ⟨move, rest, hmove, hrest, rfl⟩ := m.run_cons_iff.mp hrun
      refine m.run_cons_iff.mpr ⟨move, _, hmove,
        ih h.2.2 (Nat.le_trans (hm i s move hmove) h.1) hrest hrun', ?_⟩
      rw [List.append_assoc]

/-- The instructions that do nothing can be left out, where no skip passes over
one of them. -/
theorem run_filter (hm : m.Within reach)
    (hidle : ∀ i s move, keep i = false → m.step i s = .ok move → move = ⟨s, [], 0⟩)
    {is : List I} {n : ℕ} {s : S} {r : List Ev × S} (h : Guarded reach keep is)
    (hn : n ≤ is.length) (hkeep : ∀ j ∈ is.take n, keep j = true)
    (hrun : m.run n is s = .ok r) : m.run n (is.filter keep) s = .ok r := by
  induction is generalizing n s r with
  | nil => exact hrun
  | cons i is ih =>
    cases n with
    | succ n =>
      have hi : keep i = true := hkeep i List.mem_cons_self
      rw [List.filter_cons_of_pos hi]
      exact ih h.2.2 (Nat.le_of_succ_le_succ hn)
        (fun j hj => hkeep j (List.mem_cons_of_mem i hj)) hrun
    | zero =>
      obtain ⟨move, rest, hmove, hrest, rfl⟩ := m.run_cons_iff.mp hrun
      have hskip : m.run move.skip (is.filter keep) move.state = .ok rest := by
        refine ih h.2.2 (Nat.le_trans (hm i s move hmove) h.1) (fun j hj => h.2.1 j ?_) hrest
        exact List.take_subset_take_left is (hm i s move hmove) hj
      cases hi : keep i with
      | true =>
        rw [List.filter_cons_of_pos hi]
        exact m.run_cons_iff.mpr ⟨move, rest, hmove, hskip, rfl⟩
      | false =>
        obtain rfl := hidle i s move hi hmove
        rw [List.filter_cons_of_neg (by simp [hi])]
        exact hskip

end Rules

end MidnightRs.SkipMachines
