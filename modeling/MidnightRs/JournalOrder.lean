import MidnightRs.Exports
import Mathlib.Data.String.Basic

/-!
Head lookup and order on arbitrary snapshots, as files left on disk may hold them:
parents that are missing, branches, cycles, several roots. A head is found exactly
on a chain. The order is a permutation that puts a snapshot after its parent if a
root leads to it; what no root leads to comes last, by hash.
-/
namespace MidnightRs.Journal

open Chains

section Recognition

theorem findLeaf_eq_none_iff (snaps : List Snapshot) : findLeaf snaps = .ok none ↔ snaps = [] := by
  constructor
  · intro h
    by_contra hne
    unfold findLeaf at h
    rw [if_neg (by simpa using hne)] at h
    simp only at h
    split at h
    · cases h
    · split at h <;> simp at h
    · cases h
  · rintro rfl
    rfl

/-- The lookup fails on everything that is no chain. -/
theorem findLeaf_error_iff (snaps : List Snapshot)
    (hnodup : (snaps.map Snapshot.extrinsicHash).Nodup) :
    (∃ e, findLeaf snaps = .error e) ↔ ¬ ∃ chain, IsChain Snapshot.links snaps chain := by
  constructor
  · rintro ⟨e, he⟩ ⟨chain, hchain⟩
    rw [findLeaf_of_isChain snaps chain hchain] at he
    cases he
  · intro hno
    cases h : findLeaf snaps with
    | error e => exact ⟨e, rfl⟩
    | ok o => exact absurd (findLeaf_ok snaps o hnodup h) hno

end Recognition

section Sorted
variable {snaps : List Snapshot}

theorem distinct_nodup (h : (snaps.map Snapshot.extrinsicHash).Nodup) :
    ((distinct snaps).map Snapshot.extrinsicHash).Nodup :=
  ((distinct_perm h).map Snapshot.extrinsicHash).nodup_iff.mpr h

theorem fromRoot_distinct (h : (snaps.map Snapshot.extrinsicHash).Nodup) (s : Snapshot) :
    FromRoot Snapshot.links (distinct snaps) s ↔ FromRoot Snapshot.links snaps s :=
  ⟨FromRoot.mono fun _ => (distinct_perm h).mem_iff.mp,
    FromRoot.mono fun _ => (distinct_perm h).mem_iff.mpr⟩

/-- The order in two parts: what a root leads to, newest last, then the rest by hash. -/
structure Sorted (snaps led orphans : List Snapshot) : Prop where
  led_iff : ∀ s, s ∈ led ↔ FromRoot Snapshot.links snaps s
  led_nodup : led.Nodup
  led_order : ∀ q ∈ led, ∀ s ∈ led, s.dependsOn = some q.extrinsicHash → Before led q s
  orphans_iff : ∀ s, s ∈ orphans ↔ s ∈ snaps ∧ ¬ FromRoot Snapshot.links snaps s
  orphans_nodup : orphans.Nodup
  orphans_order : orphans.Pairwise (fun s t => s.extrinsicHash ≤ t.extrinsicHash)

theorem sorted_le (snaps : List Snapshot) :
    (snaps.mergeSort (fun a b => decide (a.extrinsicHash ≤ b.extrinsicHash))).Pairwise
      (fun s t => s.extrinsicHash ≤ t.extrinsicHash) := by
  have htrans : ∀ a b c : Snapshot, decide (a.extrinsicHash ≤ b.extrinsicHash) = true →
      decide (b.extrinsicHash ≤ c.extrinsicHash) = true →
        decide (a.extrinsicHash ≤ c.extrinsicHash) = true := fun a b c hab hbc =>
    decide_eq_true ((of_decide_eq_true hab).trans (of_decide_eq_true hbc))
  have htotal : ∀ a b : Snapshot, (decide (a.extrinsicHash ≤ b.extrinsicHash) ||
      decide (b.extrinsicHash ≤ a.extrinsicHash)) = true := fun a b => by
    simpa using le_total a.extrinsicHash b.extrinsicHash
  have h := List.pairwise_mergeSort htrans htotal snaps
  exact h.imp of_decide_eq_true

theorem topoSort_sorted (hnodup : (snaps.map Snapshot.extrinsicHash).Nodup) :
    ∃ led orphans, topoSort snaps = led ++ orphans ∧ Sorted snaps led orphans := by
  have hkeys := distinct_nodup hnodup
  unfold topoSort
  simp only
  generalize hroots : (((distinct snaps).filter (fun s => s.dependsOn.isNone)).map
    Snapshot.extrinsicHash).mergeSort (fun a b => decide (a ≤ b)) = roots
  have hisRoots : IsRoots Snapshot.links (distinct snaps) roots := by
    intro k
    rw [← hroots, List.mem_mergeSort]
    exact isRoots_filter (distinct snaps) k
  obtain ⟨as, has, hasNodup, hled, hbefore⟩ := exists_reach_records
    (childrenOf_spec (distinct snaps)) roots hisRoots hkeys
  have horder : walkChildren (distinct snaps) roots = as.reverse.map Snapshot.extrinsicHash := by
    rw [List.map_reverse]
    exact congrArg List.reverse has.symm
  have hout : (walkChildren (distinct snaps) roots).filterMap
      (fun h => (distinct snaps).find? (fun s => decide (s.extrinsicHash = h))) = as.reverse := by
    rw [horder, List.filterMap_map, List.filterMap_congr (g := some), List.filterMap_some]
    intro s hs
    exact find?_hash hkeys ((hled s).mp (List.mem_reverse.mp hs)).mem
  have hmet : ∀ s ∈ distinct snaps, s.extrinsicHash ∈ walkChildren (distinct snaps) roots ↔
      FromRoot Snapshot.links (distinct snaps) s := by
    intro s hs
    rw [horder, List.map_reverse, List.mem_reverse, ← hled]
    constructor
    · intro hin
      obtain ⟨a, ha, hkey⟩ := List.mem_map.mp hin
      exact key_injOn (L := Snapshot.links) hkeys ((hled a).mp ha).mem hs hkey ▸ ha
    · exact List.mem_map_of_mem
  refine ⟨as.reverse, _, congrArg (· ++ _) hout, fun s => ?_, List.nodup_reverse.mpr hasNodup,
    fun q hq s hs hp => ?_, fun s => ?_,
    (List.mergeSort_perm _ _).nodup_iff.mpr (hkeys.of_map.filter _), sorted_le _⟩
  · rw [List.mem_reverse, hled, fromRoot_distinct hnodup]
  · exact List.Sublist.reverse (hbefore s (List.mem_reverse.mp hs) q (List.mem_reverse.mp hq) hp)
  · rw [List.mem_mergeSort, List.mem_filter, decide_eq_true_iff, (distinct_perm hnodup).mem_iff]
    refine and_congr_right fun hs => not_congr ?_
    rw [hmet s ((distinct_perm hnodup).mem_iff.mpr hs), fromRoot_distinct hnodup]

variable {led orphans : List Snapshot}

theorem Sorted.perm (h : Sorted snaps led orphans) (hnodup : snaps.Nodup) :
    (led ++ orphans).Perm snaps := by
  have hdisjoint : led.Disjoint orphans :=
    fun s hled horphans => ((h.orphans_iff s).mp horphans).2 ((h.led_iff s).mp hled)
  refine (List.perm_ext_iff_of_nodup (h.led_nodup.append h.orphans_nodup hdisjoint) hnodup).mpr ?_
  intro s
  rw [List.mem_append, h.led_iff, h.orphans_iff]
  constructor
  · rintro (hroot | ⟨hs, _⟩)
    · exact hroot.mem
    · exact hs
  · intro hs
    by_cases hroot : FromRoot Snapshot.links snaps s
    · exact Or.inl hroot
    · exact Or.inr ⟨hs, hroot⟩

/-- A snapshot comes after its parent if a root leads to it, or by hash. -/
theorem Sorted.before_iff (h : Sorted snaps led orphans)
    (hnodup : (snaps.map Snapshot.extrinsicHash).Nodup) {q s : Snapshot} (hq : q ∈ snaps)
    (hs : s ∈ snaps) (hp : s.dependsOn = some q.extrinsicHash) :
    Before (led ++ orphans) q s ↔
      FromRoot Snapshot.links snaps s ∨ q.extrinsicHash < s.extrinsicHash := by
  by_cases hroot : FromRoot Snapshot.links snaps s
  · have hq' := hroot.parent hnodup hq hp
    have hbefore := h.led_order q ((h.led_iff q).mpr hq') s ((h.led_iff s).mpr hroot) hp
    exact ⟨fun _ => Or.inl hroot, fun _ => before_append_left hbefore⟩
  · have hq' : ¬ FromRoot Snapshot.links snaps q := fun hq' => hroot (.child hq' hs hp)
    rw [before_append_right_iff (fun hled => hq' ((h.led_iff q).mp hled)),
      before_iff_of_pairwise h.orphans_order h.orphans_nodup ((h.orphans_iff q).mpr ⟨hq, hq'⟩)
        ((h.orphans_iff s).mpr ⟨hs, hroot⟩)
        (fun hqs hsq => key_injOn (L := Snapshot.links) hnodup hq hs (le_antisymm hqs hsq)),
      or_iff_right hroot, lt_iff_le_and_ne]
    refine and_congr_right fun _ => not_congr ?_
    exact ⟨congrArg _, key_injOn (L := Snapshot.links) hnodup hq hs⟩

end Sorted

section Both

/-- Head lookup recognises the chains. The order is a permutation, in which a
snapshot comes after its parent if a root leads to it, and otherwise by hash. -/
theorem findLeaf_topoSort_spec (snaps : List Snapshot)
    (hnodup : (snaps.map Snapshot.extrinsicHash).Nodup) :
    (∀ s, findLeaf snaps = .ok (some s) ↔ ∃ rest, IsChain Snapshot.links snaps (s :: rest)) ∧
    (findLeaf snaps = .ok none ↔ snaps = []) ∧
    ((∃ e, findLeaf snaps = .error e) ↔ ¬ ∃ chain, IsChain Snapshot.links snaps chain) ∧
    (topoSort snaps).Perm snaps ∧
    ∀ q ∈ snaps, ∀ s ∈ snaps, s.dependsOn = some q.extrinsicHash →
      (Before (topoSort snaps) q s ↔
        FromRoot Snapshot.links snaps s ∨ q.extrinsicHash < s.extrinsicHash) := by
  obtain ⟨led, orphans, heq, hsorted⟩ := topoSort_sorted hnodup
  refine ⟨fun s => findLeaf_eq_some_iff snaps s hnodup, findLeaf_eq_none_iff snaps,
    findLeaf_error_iff snaps hnodup, ?_, fun q hq s hs hp => ?_⟩
  · rw [heq]
    exact hsorted.perm hnodup.of_map
  · rw [heq]
    exact hsorted.before_iff hnodup hq hs hp

def linkedSnapshot (hash : String) (dependsOn : Option String) : Snapshot where
  status := .pending
  extrinsicHash := hash
  blockHash := none
  blockHeight := none
  dependsOn := dependsOn
  data := []

/-- The theorem at a chain of two. -/
theorem findLeaf_topoSort_spec_two :
    findLeaf [linkedSnapshot "a" none, linkedSnapshot "b" (some "a")] =
      .ok (some (linkedSnapshot "b" (some "a"))) :=
  ((findLeaf_topoSort_spec [linkedSnapshot "a" none, linkedSnapshot "b" (some "a")]
    (by decide)).1 _).mpr
      ⟨[linkedSnapshot "a" none], List.Perm.swap _ _ _, by decide, rfl, rfl, trivial⟩

/-- A snapshot whose parent is missing, and its child of a lower hash: the child comes first. -/
theorem topoSort_orphan_child_first :
    (([linkedSnapshot "b" (some "c"), linkedSnapshot "a" (some "b")] :
      List Snapshot).map Snapshot.extrinsicHash).Nodup ∧
    (linkedSnapshot "a" (some "b")).dependsOn = some (linkedSnapshot "b" (some "c")).extrinsicHash ∧
    ¬ Before (topoSort [linkedSnapshot "b" (some "c"), linkedSnapshot "a" (some "b")])
      (linkedSnapshot "b" (some "c")) (linkedSnapshot "a" (some "b")) := by
  have hnodup : (([linkedSnapshot "b" (some "c"), linkedSnapshot "a" (some "b")] :
      List Snapshot).map Snapshot.extrinsicHash).Nodup := by decide
  obtain ⟨led, orphans, heq, hsorted⟩ := topoSort_sorted hnodup
  refine ⟨hnodup, rfl, ?_⟩
  rw [heq, hsorted.before_iff hnodup (by simp) (by simp) rfl]
  rintro (hroot | hlt)
  · obtain ⟨r, hr, hnone⟩ := hroot.exists_root
    revert r
    decide
  · exact absurd hlt (by decide)

end Both

end MidnightRs.Journal
