import Mathlib.Order.Defs.PartialOrder
import Mathlib.Order.Nat

/-!
Histories of a versioned state, over an arbitrary content. A change of the content
raises the version, so a state of the history is known by its version: what was
prepared against a version fits whatever state has that version when it lands.
-/
namespace MidnightRs.VersionedHistories

variable {S C : Type*} (version : S → ℕ) (content : S → C)

/-- The states so far, newest first. -/
inductive History : List S → Prop where
  | start (s : S) : History [s]
  | keep {s t : S} {past : List S} (h : History (s :: past)) (hversion : version t = version s)
      (hcontent : content t = content s) : History (t :: s :: past)
  | raise {s t : S} {past : List S} (h : History (s :: past))
      (hversion : version s < version t) : History (t :: s :: past)

variable {version content}

/-- No earlier state has a later version. -/
theorem History.version_le {s : S} {past : List S} (h : History version content (s :: past)) :
    ∀ r ∈ s :: past, version r ≤ version s := by
  generalize hstates : s :: past = states at h
  induction h generalizing s past with
  | start s' =>
    cases hstates
    intro r hr
    rw [List.mem_singleton.mp hr]
  | keep h hversion hcontent ih =>
    cases hstates
    intro r hr
    rcases List.mem_cons.mp hr with rfl | hr
    · exact le_rfl
    · exact (ih rfl r hr).trans hversion.ge
  | raise h hversion ih =>
    cases hstates
    intro r hr
    rcases List.mem_cons.mp hr with rfl | hr
    · exact le_rfl
    · exact (ih rfl r hr).trans hversion.le

/-- A state of the history with the version of the newest has its content. -/
theorem History.content_eq {s : S} {past : List S} (h : History version content (s :: past)) :
    ∀ r ∈ s :: past, version r = version s → content r = content s := by
  generalize hstates : s :: past = states at h
  induction h generalizing s past with
  | start s' =>
    cases hstates
    intro r hr _
    rw [List.mem_singleton.mp hr]
  | keep h hversion hcontent ih =>
    cases hstates
    intro r hr hr'
    rcases List.mem_cons.mp hr with rfl | hr
    · rfl
    · exact (ih rfl r hr (hr'.trans hversion)).trans hcontent.symm
  | raise h hversion ih =>
    cases hstates
    intro r hr hr'
    rcases List.mem_cons.mp hr with rfl | hr
    · rfl
    · have hle := h.version_le r hr
      omega

end MidnightRs.VersionedHistories
