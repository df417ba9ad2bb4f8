import Mathlib.Algebra.Order.Group.Int
import Mathlib.Data.List.Pairwise
import Mathlib.Tactic.Linarith

/-!
Streams of events with ascending ids, read from a cursor, and replays of such
streams that can fail. A cursor cuts a stream into what is done and what is to
do, and a replay that takes its events in batches is a left fold when the
batches compose.
-/
namespace MidnightRs.Streams

section Ids

variable {E : Type*} (id : E → ℤ)

def Ascending (es : List E) : Prop := es.Pairwise (fun a b => id a < id b)

/-- What a server owes a subscription that asks from `n` on. -/
def startingAt (n : ℤ) (es : List E) : List E := es.filter (fun e => decide (n ≤ id e))

/-- What a stream holds up to the cursor `c`. -/
def upTo (c : ℤ) (es : List E) : List E := es.filter (fun e => decide (id e ≤ c))

/-- The id of the last event, or the cursor `c` when there is none. -/
def lastId : ℤ → List E → ℤ
  | c, [] => c
  | _, e :: es => lastId (id e) es

/-- The cursor `c` separates what is done from what is to do. -/
structure Cut (c : ℤ) (done todo : List E) : Prop where
  le : ∀ e ∈ done, id e ≤ c
  gt : ∀ e ∈ todo, c < id e

variable {id}

@[simp] theorem lastId_nil (c : ℤ) : lastId id c [] = c := rfl

@[simp] theorem lastId_cons (c : ℤ) (e : E) (es : List E) :
    lastId id c (e :: es) = lastId id (id e) es := rfl

theorem lastId_append (c : ℤ) (xs ys : List E) :
    lastId id c (xs ++ ys) = lastId id (lastId id c xs) ys := by
  induction xs generalizing c with
  | nil => rfl
  | cons x xs ih => exact ih (id x)

theorem lastId_le {b c : ℤ} {es : List E} (h : ∀ e ∈ es, id e ≤ c) (hb : b ≤ c) :
    lastId id b es ≤ c := by
  induction es generalizing b with
  | nil => exact hb
  | cons e es ih => exact ih (fun x hx => h x (by simp [hx])) (h e (by simp))

theorem Ascending.append_right {xs ys : List E} (h : Ascending id (xs ++ ys)) :
    Ascending id ys := (List.pairwise_append.mp h).2.1

theorem Ascending.append_left {xs ys : List E} (h : Ascending id (xs ++ ys)) :
    Ascending id xs := (List.pairwise_append.mp h).1

/-- In an ascending stream past the cursor, every id is at most the last. -/
theorem Ascending.le_lastId {c : ℤ} {es : List E} (h : Ascending id es)
    (hgt : ∀ e ∈ es, c < id e) : c ≤ lastId id c es ∧ ∀ e ∈ es, id e ≤ lastId id c es := by
  induction es generalizing c with
  | nil => exact ⟨le_refl c, by simp⟩
  | cons e es ih =>
    obtain ⟨hhead, htail⟩ := List.pairwise_cons.mp h
    obtain ⟨hle, hall⟩ := ih htail hhead
    refine ⟨(hgt e (by simp)).le.trans hle, ?_⟩
    intro x hx
    rcases List.mem_cons.mp hx with rfl | hx
    · exact hle
    · exact hall x hx

theorem Cut.nil_done {c : ℤ} {es : List E} (h : ∀ e ∈ es, c < id e) : Cut id c [] es :=
  ⟨by simp, h⟩

/-- The last id of a prefix cuts the stream after it. -/
theorem Cut.of_append {c : ℤ} {xs ys : List E} (h : Ascending id (xs ++ ys))
    (hgt : ∀ e ∈ xs ++ ys, c < id e) : Cut id (lastId id c xs) xs ys where
  le := (h.append_left.le_lastId (fun e he => hgt e (List.mem_append_left _ he))).2
  gt := by
    intro e he
    induction xs generalizing c with
    | nil => exact hgt e (by simpa using he)
    | cons x xs ih =>
      obtain ⟨hhead, htail⟩ := List.pairwise_cons.mp h
      exact ih htail hhead

theorem Cut.advance {c : ℤ} {done todo : List E} {e : E} (h : Cut id c done (e :: todo))
    (hasc : Ascending id (done ++ e :: todo)) : Cut id (id e) (done ++ [e]) todo where
  le := by
    intro x hx
    rcases List.mem_append.mp hx with hx | hx
    · exact (h.le x hx).trans (h.gt e (by simp)).le
    · rw [List.mem_singleton.mp hx]
  gt := (List.pairwise_cons.mp hasc.append_right).1

/-- A subscription from the cursor or before it owes all that is to do, after
what it repeats. -/
theorem Cut.startingAt {c n : ℤ} {done todo : List E} (h : Cut id c done todo)
    (hn : n ≤ c + 1) :
    startingAt id n (done ++ todo) = startingAt id n done ++ todo := by
  have htodo : Streams.startingAt id n todo = todo := by
    refine List.filter_eq_self.mpr ?_
    intro e he
    have := h.gt e he
    exact decide_eq_true (by omega)
  unfold Streams.startingAt at htodo ⊢
  rw [List.filter_append, htodo]

/-- A subscription past the cursor owes only what is to do. -/
theorem Cut.startingAt_succ {c : ℤ} {done todo : List E} (h : Cut id c done todo) :
    Streams.startingAt id (c + 1) (done ++ todo) = todo := by
  have hdone : Streams.startingAt id (c + 1) done = [] := by
    refine List.filter_eq_nil_iff.mpr ?_
    intro e he
    have := h.le e he
    simp only [decide_eq_true_eq, not_le]
    omega
  rw [h.startingAt (le_refl _), hdone, List.nil_append]

/-- A cursor at the last id leaves nothing to do. -/
theorem Cut.eq_nil {b c : ℤ} {done todo : List E} (h : Cut id c done todo)
    (hasc : Ascending id (done ++ todo)) (hlast : lastId id b (done ++ todo) ≤ c) :
    todo = [] := by
  cases todo with
  | nil => rfl
  | cons e todo =>
    have hle := ((hasc.append_right.le_lastId h.gt).2 e (by simp))
    rw [lastId_append] at hlast
    exact absurd (h.gt e (by simp)) (not_lt.mpr (hle.trans hlast))

/-- What a subscription to an ascending stream owes is an end of it. -/
theorem Ascending.exists_append_startingAt {es : List E} (h : Ascending id es) (n : ℤ) :
    ∃ gone, gone ++ startingAt id n es = es := by
  induction es with
  | nil => exact ⟨[], rfl⟩
  | cons e es ih =>
    obtain ⟨hhead, htail⟩ := List.pairwise_cons.mp h
    by_cases hn : n ≤ id e
    · refine ⟨[], List.filter_eq_self.mpr ?_⟩
      intro x hx
      rcases List.mem_cons.mp hx with rfl | hx
      · exact decide_eq_true hn
      · exact decide_eq_true (hn.trans (hhead x hx).le)
    · obtain ⟨gone, hgone⟩ := ih htail
      refine ⟨e :: gone, ?_⟩
      unfold Streams.startingAt at hgone ⊢
      rw [List.filter_cons_of_neg (by simpa using hn), List.cons_append, hgone]

/-- A cursor cuts every ascending stream. -/
theorem Ascending.cut {es : List E} (h : Ascending id es) (c : ℤ) :
    upTo id c es ++ startingAt id (c + 1) es = es ∧
      Cut id c (upTo id c es) (startingAt id (c + 1) es) := by
  refine ⟨?_, fun e he => ?_, fun e he => ?_⟩
  · induction es with
    | nil => rfl
    | cons e es ih =>
      obtain ⟨hhead, htail⟩ := List.pairwise_cons.mp h
      unfold upTo startingAt at ih ⊢
      by_cases he : id e ≤ c
      · rw [List.filter_cons_of_pos (by simpa using he),
          List.filter_cons_of_neg (by simp only [decide_eq_true_eq]; omega), List.cons_append,
          ih htail]
      · have hnone : (e :: es).filter (fun e => decide (id e ≤ c)) = [] := by
          refine List.filter_eq_nil_iff.mpr (fun x hx => ?_)
          rcases List.mem_cons.mp hx with rfl | hx
          · simpa using he
          · have := hhead x hx
            simp only [decide_eq_true_eq]
            omega
        have hall : (e :: es).filter (fun e => decide (c + 1 ≤ id e)) = e :: es := by
          refine List.filter_eq_self.mpr (fun x hx => ?_)
          rcases List.mem_cons.mp hx with rfl | hx
          · simp only [decide_eq_true_eq]
            omega
          · have := hhead x hx
            simp only [decide_eq_true_eq]
            omega
        rw [hnone, hall, List.nil_append]
  · have := (List.mem_filter.mp he).2
    simpa using this
  · have hle := of_decide_eq_true (List.mem_filter.mp he).2
    omega

/-- What a cut has done is what the stream holds up to it. -/
theorem Cut.upTo_eq {c : ℤ} {done todo : List E} (h : Cut id c done todo) :
    upTo id c (done ++ todo) = done := by
  unfold upTo
  rw [List.filter_append, List.filter_eq_self.mpr (fun e he => decide_eq_true (h.le e he)),
    List.filter_eq_nil_iff.mpr (fun e he => by have := h.gt e he; simpa using this),
    List.append_nil]

/-- The cut after the next events. -/
theorem Cut.later {c : ℤ} {done early late : List E} (h : Cut id c done (early ++ late))
    (hasc : Ascending id (early ++ late)) : Cut id (lastId id c early) (done ++ early) late where
  le := by
    obtain ⟨hle, hall⟩ := hasc.append_left.le_lastId
      (fun e he => h.gt e (List.mem_append_left _ he))
    intro e he
    rcases List.mem_append.mp he with he | he
    · exact (h.le e he).trans hle
    · exact hall e he
  gt := (Cut.of_append hasc h.gt).gt

/-- What a stream holds up to a cursor, cut at an earlier one. -/
theorem Ascending.upTo_split {es : List E} (h : Ascending id es) {b c : ℤ} (hbc : b ≤ c) :
    upTo id b es ++ startingAt id (b + 1) (upTo id c es) = upTo id c es := by
  have hcut := (Ascending.cut (h.filter (fun e => decide (id e ≤ c))) b).1
  have hupTo : upTo id b (upTo id c es) = upTo id b es := by
    unfold upTo
    rw [List.filter_filter]
    refine List.filter_congr (fun e _ => ?_)
    by_cases he : id e ≤ b
    · simp [he, he.trans hbc]
    · simp [he]
  change upTo id b (upTo id c es) ++ _ = _ at hcut
  rwa [hupTo] at hcut

theorem mem_startingAt {n : ℤ} {es : List E} {e : E} (h : e ∈ startingAt id n es) :
    e ∈ es ∧ n ≤ id e := by
  simpa [Streams.startingAt] using h

end Ids

section Folds

universe u

variable {S E ε : Type*} {α β : Type u}

/-- Computations that succeed alike. Their errors may differ. -/
def Agree {ε' : Type*} (a : Except ε α) (b : Except ε' α) : Prop := ∀ x, a = .ok x ↔ b = .ok x

/-- Replaying a batch is replaying its events one after the other. -/
structure LeftFold (replay : S → List E → Except ε S) : Prop where
  nil : ∀ s, replay s [] = .ok s
  append : ∀ s xs ys, replay s (xs ++ ys) = replay s xs >>= fun s' => replay s' ys

theorem bind_eq_ok {a : Except ε α} {f : α → Except ε β} {y : β} :
    (a >>= f) = .ok y ↔ ∃ x, a = .ok x ∧ f x = .ok y := by
  cases a with
  | error e => simp [bind, Except.bind]
  | ok x => simp [bind, Except.bind]

theorem Agree.refl (a : Except ε α) : Agree a a := fun _ => Iff.rfl

theorem Agree.symm {ε' : Type*} {a : Except ε α} {b : Except ε' α} (h : Agree a b) : Agree b a :=
  fun x => (h x).symm

theorem Agree.trans {ε' ε'' : Type*} {a : Except ε α} {b : Except ε' α} {c : Except ε'' α}
    (h : Agree a b) (h' : Agree b c) : Agree a c := fun x => (h x).trans (h' x)

/-- Two failures agree. -/
theorem Agree.of_error {ε' : Type*} (e : ε) (e' : ε') :
    Agree (.error e : Except ε α) (.error e' : Except ε' α) := by
  intro x
  simp

theorem Agree.of_ok {ε' : Type*} (x : α) :
    Agree (.ok x : Except ε α) (.ok x : Except ε' α) := by
  intro y
  simp

theorem Agree.bind {ε' : Type*} {a : Except ε α} {b : Except ε' α} {f : α → Except ε β}
    {g : α → Except ε' β} (h : Agree a b) (hfg : ∀ x, Agree (f x) (g x)) :
    Agree (a >>= f) (b >>= g) := by
  intro y
  rw [bind_eq_ok, bind_eq_ok]
  constructor
  · rintro ⟨x, hx, hy⟩
    exact ⟨x, (h x).mp hx, (hfg x y).mp hy⟩
  · rintro ⟨x, hx, hy⟩
    exact ⟨x, (h x).mpr hx, (hfg x y).mpr hy⟩

/-- A run over a split stream is the run over the rest from where the first
part ends. -/
theorem foldlM_split {step : S → E → Except ε S} {s s' : S} {xs ys : List E}
    (h : xs.foldlM step s = .ok s') : (xs ++ ys).foldlM step s = ys.foldlM step s' := by
  rw [List.foldlM_append, h]
  rfl

end Folds

end MidnightRs.Streams
