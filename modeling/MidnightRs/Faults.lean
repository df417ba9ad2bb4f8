import Mathlib.Logic.Basic
import Mathlib.Tactic.Common

/-!
Programs of operations that may fail, on a machine that may stop. An operation
takes effect, or it fails or is cut short and leaves the state as it was or torn. A
property that is kept on every such path holds of every state that is left behind.
-/
namespace MidnightRs.Faults

variable {S ε α β : Type}

/-- An operation tells the rest of the program whether it failed. -/
inductive Faulty (S ε α : Type) where
  | done (a : α)
  | op (effect : S → S) (torn : S → S → Prop) (next : Except ε Unit → Faulty S ε α)

/-- An operation that takes effect or leaves the state as it was. -/
def whole : S → S → Prop := fun _ _ => False

namespace Faulty

/-- The program without failures. -/
def run : Faulty S ε α → S → S × α
  | done a, s => (s, a)
  | op effect _ next, s => (next (.ok ())).run (effect s)

protected def bind : Faulty S ε α → (α → Faulty S ε β) → Faulty S ε β
  | done a, f => f a
  | op effect torn next, f => op effect torn (fun r => (next r).bind f)

instance : Monad (Faulty S ε) where
  pure := done
  bind := Faulty.bind

@[simp] theorem run_bind (p : Faulty S ε α) (f : α → Faulty S ε β) (s : S) :
    (p >>= f).run s = (f (p.run s).2).run (p.run s).1 := by
  change (p.bind f).run s = _
  induction p generalizing s with
  | done a => rfl
  | op effect torn next ih => exact ih (.ok ()) (effect s)

end Faulty

/-- The states a program may leave, with its result if it came to an end. -/
inductive MayLeave : Faulty S ε α → S → S → Option α → Prop
  | done (a : α) (s : S) : MayLeave (.done a) s s (some a)
  | stop (p : Faulty S ε α) (s : S) : MayLeave p s s none
  | torn {effect : S → S} {torn : S → S → Prop} {next : Except ε Unit → Faulty S ε α} {s s' : S}
      (h : torn s s') : MayLeave (.op effect torn next) s s' none
  | ok {effect : S → S} {torn : S → S → Prop} {next : Except ε Unit → Faulty S ε α} {s s' : S}
      {r : Option α} (h : MayLeave (next (.ok ())) (effect s) s' r) :
      MayLeave (.op effect torn next) s s' r
  | failed {effect : S → S} {torn : S → S → Prop} {next : Except ε Unit → Faulty S ε α}
      {s s₁ s' : S} {r : Option α} (e : ε) (hs : s₁ = s ∨ torn s s₁)
      (h : MayLeave (next (.error e)) s₁ s' r) : MayLeave (.op effect torn next) s s' r

/-- A property of the state that is kept on every path, and what holds at the end. -/
def Always (inv : S → Prop) (post : α → S → Prop) : Faulty S ε α → S → Prop
  | .done a, s => inv s ∧ post a s
  | .op effect torn next, s =>
    inv s ∧ (∀ s', torn s s' → inv s') ∧ Always inv post (next (.ok ())) (effect s) ∧
      ∀ e s', s' = s ∨ torn s s' → Always inv post (next (.error e)) s'

variable {inv : S → Prop} {post : α → S → Prop}

theorem Always.here {p : Faulty S ε α} {s : S} (h : Always inv post p s) : inv s := by
  cases p with
  | done a => exact h.1
  | op effect torn next => exact h.1

theorem Always.leaves {p : Faulty S ε α} {s s' : S} {r : Option α} (h : Always inv post p s)
    (hleaves : MayLeave p s s' r) : inv s' ∧ ∀ a, r = some a → post a s' := by
  induction hleaves with
  | done a s =>
    refine ⟨h.1, fun b hb => ?_⟩
    obtain rfl := Option.some.inj hb
    exact h.2
  | stop p s => exact ⟨h.here, fun a ha => by cases ha⟩
  | torn htorn => exact ⟨h.2.1 _ htorn, fun a ha => by cases ha⟩
  | ok _ ih => exact ih h.2.2.1
  | failed e hs _ ih => exact ih (h.2.2.2 e _ hs)

/-- A program that ends without failures is one of its paths. -/
theorem mayLeave_run (p : Faulty S ε α) (s : S) : MayLeave p s (p.run s).1 (some (p.run s).2) := by
  induction p generalizing s with
  | done a => exact .done a s
  | op effect torn next ih => exact .ok (ih (.ok ()) (effect s))

theorem Always.run {p : Faulty S ε α} {s : S} (h : Always inv post p s) :
    inv (p.run s).1 ∧ post (p.run s).2 (p.run s).1 := by
  obtain ⟨hinv, hpost⟩ := h.leaves (mayLeave_run p s)
  exact ⟨hinv, hpost _ rfl⟩

theorem Always.mono {inv' : S → Prop} {post' : α → S → Prop} {p : Faulty S ε α} {s : S}
    (h : Always inv post p s) (hinv : ∀ s, inv s → inv' s) (hpost : ∀ a s, post a s → post' a s) :
    Always inv' post' p s := by
  induction p generalizing s with
  | done a => exact ⟨hinv s h.1, hpost a s h.2⟩
  | op effect torn next ih =>
    exact ⟨hinv s h.1, fun s' hs' => hinv s' (h.2.1 s' hs'), ih _ h.2.2.1,
      fun e s' hs' => ih _ (h.2.2.2 e s' hs')⟩

theorem Always.and {inv' : S → Prop} {post' : α → S → Prop} {p : Faulty S ε α} {s : S}
    (h : Always inv post p s) (h' : Always inv' post' p s) :
    Always (fun s => inv s ∧ inv' s) (fun a s => post a s ∧ post' a s) p s := by
  induction p generalizing s with
  | done a => exact ⟨⟨h.1, h'.1⟩, h.2, h'.2⟩
  | op effect torn next ih =>
    exact ⟨⟨h.1, h'.1⟩, fun s' hs' => ⟨h.2.1 s' hs', h'.2.1 s' hs'⟩, ih _ h.2.2.1 h'.2.2.1,
      fun e s' hs' => ih _ (h.2.2.2 e s' hs') (h'.2.2.2 e s' hs')⟩

/-- What is kept on every path holds at the end. -/
theorem Always.kept {p : Faulty S ε α} {s : S} (h : Always inv post p s) :
    Always inv (fun a s => inv s ∧ post a s) p s := by
  induction p generalizing s with
  | done a => exact ⟨h.1, h⟩
  | op effect torn next ih =>
    exact ⟨h.1, h.2.1, ih _ h.2.2.1, fun e s' hs' => ih _ (h.2.2.2 e s' hs')⟩

/-- The second program starts from what the first one keeps, which may be more. -/
theorem Always.bind {inv' : S → Prop} {post' : β → S → Prop} {p : Faulty S ε α}
    {f : α → Faulty S ε β} {s : S} (h : Always inv post p s) (hinv : ∀ s, inv s → inv' s)
    (hf : ∀ a s, inv s → post a s → Always inv' post' (f a) s) : Always inv' post' (p >>= f) s := by
  change Always inv' post' (p.bind f) s
  induction p generalizing s with
  | done a => exact hf a s h.1 h.2
  | op effect torn next ih =>
    exact ⟨hinv s h.1, fun s' hs' => hinv s' (h.2.1 s' hs'), ih _ h.2.2.1,
      fun e s' hs' => ih _ (h.2.2.2 e s' hs')⟩

/-- An operation that is never torn. -/
theorem always_whole {effect : S → S} {next : Except ε Unit → Faulty S ε α} {s : S} (hinv : inv s)
    (hok : Always inv post (next (.ok ())) (effect s))
    (herror : ∀ e, Always inv post (next (.error e)) s) :
    Always inv post (.op effect whole next) s := by
  refine ⟨hinv, fun s' hs' => hs'.elim, hok, fun e s' hs' => ?_⟩
  rcases hs' with rfl | hs'
  · exact herror e
  · exact hs'.elim

end MidnightRs.Faults
