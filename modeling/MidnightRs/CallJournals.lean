import MidnightRs.CallFlows
import MidnightRs.JournalWrites

/-!
A contract's calls on its private-state journal. A store write may fail, and a drop
may fall at every await point of a call. Run one after the other, the calls leave a
journal whose confirmed chain is what the chain applied.
-/
namespace MidnightRs.CallJournals

open Chains Faults Futures Loops Reservations Submission CallFlows JournalWrites
open ContractFlows (Call PrivateStateChange)
open Journal (Store Hash32 PrivateStateError Snapshot)
open Lifecycle (duty releasedBy reservedBy)

section Acts

variable (js : Journal.Provider) (text : PrivateStateError → String) (address : String)

/-- What the store does at an event of a call on `address`. A store call awaits only
its lock, so a drop finds it unstarted or at its end; `text` prints its errors. -/
inductive Acts : Store → CallEvent → Store → Prop
  | flow (st : Store) (e : Event) : Acts st (.flow e) st
  | ran (st : Store) (change : PrivateStateChange) : Acts st (.ran change) st
  | waited (st : Store) (verdict : Except ProviderError TxInBlock) : Acts st (.waited verdict) st
  | head {st st' : Store} {found : Except String (Option (Bytes × Bytes))}
      {r : Except PrivateStateError (Option (Bytes × Hash32))}
      (h : MayLeave (headWithExtrinsic js st address) st st' (some r))
      (hfound : found = (r.mapError text).map (Option.map fun r => (r.1, r.2.val))) :
      Acts st (.head found) st'
  | appended {st st' : Store} {nanos : ℕ} {hash : Bytes} {change : PrivateStateChange}
      {stored : Except String Unit} {ext : Hash32} {dependsOn : Option Hash32}
      {r : Except PrivateStateError Unit} (hhash : hash = ext.val)
      (hparent : change.dependsOn = dependsOn.map Subtype.val)
      (h : MayLeave (appendPending js nanos st address ext dependsOn change.after) st st' (some r))
      (hstored : stored = r.mapError text) : Acts st (.appended hash change stored) st'
  | confirmed {st st' : Store} {hash block : Bytes} {stored : Except String Unit}
      {ext blockHash : Hash32} {r : Except PrivateStateError Unit} (hhash : hash = ext.val)
      (hblock : block = blockHash.val)
      (h : MayLeave (confirm js st address ext none blockHash) st st' (some r))
      (hstored : stored = r.mapError text) : Acts st (.confirmed hash block stored) st'
  | failed {st st' : Store} {hash : Bytes} {stored : Except String Unit} {ext : Hash32}
      {r : Except PrivateStateError Unit} (hhash : hash = ext.val)
      (h : MayLeave (markFailed js st address ext) st st' (some r))
      (hstored : stored = r.mapError text) : Acts st (.failed hash stored) st'

variable {js text address} {st st' : Store} {chain : List Snapshot}

theorem run_notes {log : List CallEvent} (h : Run (Acts js text address) st log st') :
    Run (Acts js text address) st (notes log) st' := by
  induction h with
  | nil st => exact .nil st
  | @cons st st₁ st₂ e log hact _ ih =>
    by_cases hnoted : e.noted = true
    · have hnotes : notes (e :: log) = e :: notes log := List.filter_cons_of_pos hnoted
      rw [hnotes]
      exact .cons hact ih
    · have hnotes : notes (e :: log) = notes log := List.filter_cons_of_neg hnoted
      rw [hnotes]
      cases hact with
      | flow => exact ih
      | _ => exact absurd rfl hnoted

/-- The snapshot that an append of `change` under `hash` writes. -/
def Writes (hash : Bytes) (change : PrivateStateChange) (s : Snapshot) : Prop :=
  ∃ (ext : Hash32) (dependsOn : Option Hash32), hash = ext.val ∧
    change.dependsOn = dependsOn.map Subtype.val ∧
    s = Journal.pendingSnapshot ext dependsOn change.after

theorem acts_head {found : Except String (Option (Bytes × Bytes))}
    (h : JournalAt js st address chain) (hact : Acts js text address st (.head found) st') :
    st' = st ∧ ∀ r, found = .ok r → r.map Prod.fst = chain.head?.map Snapshot.data := by
  cases hact with
  | head hleft hfound =>
    rename_i answer
    obtain ⟨hst, hhead⟩ := ((ends_headWithExtrinsic h).leaves hleft).2 _ rfl
    refine ⟨hst, fun r hr => ?_⟩
    cases answer with
    | error e =>
      rw [hfound] at hr
      cases hr
    | ok head =>
      rw [hfound] at hr
      obtain rfl := Except.ok.inj hr
      rw [← hhead head rfl, Option.map_map]
      rfl

theorem acts_appended {hash : Bytes} {change : PrivateStateChange} {stored : Except String Unit}
    (h : JournalAt js st address chain)
    (hact : Acts js text address st (.appended hash change stored) st') :
    ∃ s, Writes hash change s ∧ (stored = .ok () → JournalAt js st' address (s :: chain)) ∧
      (JournalAt js st' address chain ∨ JournalAt js st' address (s :: chain)) := by
  cases hact with
  | appended hhash hparent hleft hstored =>
    have hends := ((ends_appendPending h _ _ _ _).leaves hleft).2 _ rfl
    exact ⟨_, ⟨_, _, hhash, hparent, rfl⟩, hends.told hstored⟩

theorem acts_confirmed {hash block : Bytes} {change : PrivateStateChange}
    {stored : Except String Unit} {s : Snapshot} (h : JournalAt js st address (s :: chain))
    (hs : Writes hash change s)
    (hact : Acts js text address st (.confirmed hash block stored) st') :
    ∃ blockHash : Hash32, block = blockHash.val ∧
      (stored = .ok () → JournalAt js st' address (confirmedSnapshot s none blockHash :: chain)) ∧
      (JournalAt js st' address (s :: chain) ∨
        JournalAt js st' address (confirmedSnapshot s none blockHash :: chain)) := by
  obtain ⟨ext, dependsOn, rfl, _, rfl⟩ := hs
  cases hact with
  | confirmed hhash hblock hleft hstored =>
    obtain rfl := Subtype.ext hhash
    have hends := ((ends_confirm h rfl rfl none _).leaves hleft).2 _ rfl
    exact ⟨_, hblock, hends.told hstored⟩

theorem acts_failed {hash : Bytes} {change : PrivateStateChange} {stored : Except String Unit}
    {s : Snapshot} (h : JournalAt js st address (s :: chain)) (hs : Writes hash change s)
    (hact : Acts js text address st (.failed hash stored) st') :
    (stored = .ok () → JournalAt js st' address chain) ∧
      (JournalAt js st' address (s :: chain) ∨ JournalAt js st' address chain) := by
  obtain ⟨ext, dependsOn, rfl, _, rfl⟩ := hs
  cases hact with
  | failed hhash hleft hstored =>
    obtain rfl := Subtype.ext hhash
    exact (((ends_markFailed h rfl).leaves hleft).2 _ rfl).told hstored

end Acts

section Runs

/-- A call that was made, and whether the chain applied its transaction. -/
structure Made where
  log : List CallEvent
  applied : Bool

/-- Nothing is applied that was not handed over, and the wait's verdict is the
chain's. -/
structure Made.Truthful (m : Made) : Prop where
  handedOver : m.applied = true → .flow .handedOver ∈ m.log
  success : ∀ tx, .waited (.ok tx) ∈ m.log → m.applied = true
  notApplied : ∀ tx, .waited (.error (.notApplied tx)) ∈ m.log → m.applied = false

/-- The private states of the calls that changed it and that the chain applied. -/
def appliedStates (made : List Made) : List Bytes :=
  made.flatMap fun m => if m.applied then m.log.filterMap CallEvent.changed? else []

variable (js : Journal.Provider) (text : PrivateStateError → String) (address : String)

/-- The snapshot `s` is the one that the call told the store to append. -/
def Made.Told (m : Made) (s : Snapshot) : Prop :=
  ∃ hash change stored, .appended hash change stored ∈ m.log ∧ Writes hash change s

/-- The call's snapshot is `Pending` in the store. -/
def Made.Pending (m : Made) (st : Store) : Prop :=
  ∃ hash change stored, ∃ ext : Hash32, .appended hash change stored ∈ m.log ∧ hash = ext.val ∧
    ∃ s ∈ js.snapshots st address, s.extrinsicHash = ext.hex ∧ s.status = .pending

/-- Calls on one contract, each started once the snapshot of the one before it is not
`Pending`. A snapshot that a call left `Pending` may be settled by hand in between. -/
inductive Calls (st₀ : Store) : List Made → Store → Prop
  | none : Calls st₀ [] st₀
  | call {made : List Made} {st st' : Store} (h : Calls st₀ made st)
      (hsettled : ∀ m, made.getLast? = some m → ¬ m.Pending js address st)
      (p : MidnightProvider) (hp : p.privateState = true) (request : Call) (deadline : Option ℕ)
      (script : List (Poll Answers)) (applied : Bool)
      (htruth : Made.Truthful ⟨(callWith true p request deadline script).log, applied⟩)
      (hrun : Run (Acts js text address) st (callWith true p request deadline script).log st') :
      Calls st₀ (made ++ [⟨(callWith true p request deadline script).log, applied⟩]) st'
  | reconciled {made : List Made} {m : Made} {st st' : Store} (h : Calls st₀ (made ++ [m]) st)
      {hash : Bytes} {change : PrivateStateChange} {stored : Except String Unit}
      (hmem : .appended hash change stored ∈ m.log) {ext blockHash : Hash32}
      (hhash : hash = ext.val)
      {blockHeight : Option ℕ} {r : Except PrivateStateError Unit}
      (hpending : ∃ s ∈ js.snapshots st address, s.extrinsicHash = ext.hex ∧ s.status = .pending)
      (hleft : MayLeave (if m.applied then confirm js st address ext blockHeight blockHash
        else markFailed js st address ext) st st' (some r)) : Calls st₀ (made ++ [m]) st'

/-- The private states of the confirmed snapshots, oldest first. -/
def confirmedStates (st : Store) : List Bytes :=
  ((js.snapshots st address).filter (fun s => decide (s.status = .confirmed))).map Snapshot.data

variable {js text address} {st st' : Store} {chain : List Snapshot}

/-- The one snapshot that the notes of a call tell the store to append. -/
def Records (ns : List CallEvent) (s : Snapshot) : Prop :=
  (∃ hash change stored, .appended hash change stored ∈ ns ∧ Writes hash change s) ∧
    ns.filterMap CallEvent.changed? = [s.data]

theorem changed_ran {change : PrivateStateChange} (h : change.after ≠ change.baseline) :
    (CallEvent.ran change).changed? = some change.after := if_neg h

theorem run_two {s : Store} {e e' : CallEvent} {es : List CallEvent}
    (h : Run (Acts js text address) s (e :: e' :: es) st') :
    ∃ s₁ s₂, Acts js text address s e s₁ ∧ Acts js text address s₁ e' s₂ ∧
      Run (Acts js text address) s₂ es st' := by
  cases h with
  | cons hact h =>
    cases h with
    | cons hact' h => exact ⟨_, _, hact, hact', h⟩

/-- Up to its run, a call only reads the journal. -/
theorem run_ran {found : Option (Bytes × Bytes)} {change : PrivateStateChange}
    {es : List CallEvent} (h : JournalAt js st address chain)
    (hrun : Run (Acts js text address) st (.head (.ok found) :: .ran change :: es) st') :
    Run (Acts js text address) st es st' ∧
      found.map Prod.fst = chain.head?.map Snapshot.data := by
  obtain ⟨st₁, st₂, hhead, hran, hrest⟩ := run_two hrun
  obtain ⟨rfl, hdata⟩ := acts_head h hhead
  cases hran
  exact ⟨hrest, hdata found rfl⟩

theorem run_recorded {hash : Bytes} {change : PrivateStateChange} {es : List CallEvent}
    (h : JournalAt js st address chain)
    (hrun : Run (Acts js text address) st
      (.appended hash change (.ok ()) :: .flow .handedOver :: es) st') :
    ∃ s st₁, Writes hash change s ∧ JournalAt js st₁ address (s :: chain) ∧
      Run (Acts js text address) st₁ es st' := by
  obtain ⟨st₁, st₂, happended, hflow, hrest⟩ := run_two hrun
  obtain ⟨s, hs, hok, _⟩ := acts_appended h happended
  cases hflow
  exact ⟨s, st₁, hs, hok rfl, hrest⟩

theorem Writes.data {hash : Bytes} {change : PrivateStateChange} {s : Snapshot}
    (h : Writes hash change s) : s.data = change.after := by
  obtain ⟨_, _, _, _, rfl⟩ := h
  rfl

/-- What one call leaves in the journal it found: nothing new, its snapshot `Pending`,
or its snapshot confirmed. -/
theorem run_course {o : Outcome (Except ContractError TxInBlock)} {ns : List CallEvent}
    (h : JournalAt js st address chain) (hns : Course o ns)
    (hrun : Run (Acts js text address) st ns st') {applied : Bool}
    (htruth : Made.Truthful ⟨ns, applied⟩) :
    (JournalAt js st' address chain ∧
      (applied = true → ns.filterMap CallEvent.changed? = [])) ∨
    (∃ s, Records ns s ∧ JournalAt js st' address (s :: chain)) ∨
    ∃ s blockHash, Records ns s ∧ applied = true ∧
      JournalAt js st' address (confirmedSnapshot s none blockHash :: chain) := by
  cases hns with
  | unsent hns =>
    cases hns with
    | unread =>
      cases hrun
      exact .inl ⟨h, fun _ => rfl⟩
    | read found =>
      cases hrun with
      | cons hact hrun =>
        cases hrun
        obtain ⟨rfl, _⟩ := acts_head h hact
        exact .inl ⟨h, fun _ => rfl⟩
    | ran found after =>
      obtain ⟨hrun, _⟩ := run_ran h hrun
      cases hrun
      exact .inl ⟨h, fun happlied => absurd (htruth.handedOver happlied) (by simp)⟩
    | refused found after hash e hchange =>
      obtain ⟨hrun, _⟩ := run_ran h hrun
      cases hrun with
      | cons hact hrun =>
        cases hrun
        obtain ⟨s, hs, _, hleft⟩ := acts_appended h hact
        rcases hleft with hleft | hleft
        · exact .inl ⟨hleft, fun happlied => absurd (htruth.handedOver happlied) (by simp)⟩
        · have hmem : CallEvent.appended hash (changeFrom found after) (.error e) ∈
              [.head (.ok found), .ran (changeFrom found after),
                .appended hash (changeFrom found after) (.error e)] := by simp
          refine .inr (.inl ⟨s, ⟨⟨_, _, _, hmem, hs⟩, ?_⟩, hleft⟩)
          rw [hs.data]
          exact List.filterMap_cons_some (changed_ran hchange)
  | @sent hash _ _ _ _ hsent hsettling =>
    cases hsent with
    | unchanged found after hchange =>
      obtain ⟨hrun, _⟩ := run_ran h hrun
      have hsame : (CallEvent.ran (changeFrom found after)).changed? = none := if_pos hchange
      cases hsettling with
      | unwaited =>
        cases hrun with
        | cons hact hrun =>
          cases hact
          cases hrun
          exact .inl ⟨h, fun _ => List.filterMap_cons_none hsame⟩
      | waited _ verdict =>
        obtain ⟨st₁, st₂, hflow, hwaited, hrun⟩ := run_two hrun
        cases hflow
        cases hwaited
        cases hrun
        exact .inl ⟨h, fun _ => List.filterMap_cons_none hsame⟩
    | recorded found after hchange =>
      obtain ⟨hrun, _⟩ := run_ran h hrun
      obtain ⟨s, st₁, hs, h₁, hrun⟩ := run_recorded h hrun
      have hrecords : ∀ ns', ns'.filterMap CallEvent.changed? = [] →
          Records (.head (.ok found) :: .ran (changeFrom found after) ::
            .appended hash (changeFrom found after) (.ok ()) :: .flow .handedOver :: ns') s := by
        intro ns' hns'
        refine ⟨⟨_, _, _, List.mem_cons_of_mem _ (List.mem_cons_of_mem _ List.mem_cons_self), hs⟩,
          ?_⟩
        rw [hs.data]
        refine (List.filterMap_cons_some (changed_ran hchange)).trans ?_
        exact congrArg (List.cons after) hns'
      cases hsettling with
      | unwaited =>
        cases hrun
        exact .inr (.inl ⟨s, hrecords [] rfl, h₁⟩)
      | waited _ verdict =>
        cases hrun with
        | cons hact hrun =>
          cases hact
          cases hrun
          exact .inr (.inl ⟨s, hrecords _ rfl, h₁⟩)
      | confirmed tx stored =>
        obtain ⟨st₂, st₃, hwaited, hconfirmed, hrun⟩ := run_two hrun
        cases hwaited
        cases hrun
        obtain ⟨blockHash, _, _, hleft | hleft⟩ := acts_confirmed h₁ hs hconfirmed
        · exact .inr (.inl ⟨s, hrecords _ rfl, hleft⟩)
        · exact .inr (.inr ⟨s, blockHash, hrecords _ rfl, htruth.success tx (by simp), hleft⟩)
      | failed tx stored =>
        obtain ⟨st₂, st₃, hwaited, hfailed, hrun⟩ := run_two hrun
        cases hwaited
        cases hrun
        obtain ⟨_, hleft | hleft⟩ := acts_failed h₁ hs hfailed
        · exact .inr (.inl ⟨s, hrecords _ rfl, hleft⟩)
        · refine .inl ⟨hleft, fun happlied => ?_⟩
          have hnot : applied = false := htruth.notApplied tx (by simp)
          rw [hnot] at happlied
          cases happlied

theorem mem_notes {log : List CallEvent} {e : CallEvent} :
    e ∈ notes log ↔ e ∈ log ∧ e.noted = true := List.mem_filter

theorem changed_notes (log : List CallEvent) :
    (notes log).filterMap CallEvent.changed? = log.filterMap CallEvent.changed? := by
  unfold notes
  rw [List.filterMap_filter]
  refine List.filterMap_congr fun e _ => ?_
  cases e with
  | flow e =>
    split
    · rfl
    · rfl
  | _ => rfl

theorem Made.Truthful.notes {log : List CallEvent} {applied : Bool}
    (h : Made.Truthful ⟨log, applied⟩) : Made.Truthful ⟨notes log, applied⟩ where
  handedOver happlied := mem_notes.mpr ⟨h.handedOver happlied, rfl⟩
  success tx hmem := h.success tx (mem_notes.mp hmem).1
  notApplied tx hmem := h.notApplied tx (mem_notes.mp hmem).1

theorem Records.of_notes {log : List CallEvent} {s : Snapshot} (h : Records (notes log) s) :
    Records log s := by
  obtain ⟨⟨hash, change, stored, hmem, hs⟩, hchanged⟩ := h
  rw [changed_notes] at hchanged
  exact ⟨⟨hash, change, stored, (mem_notes.mp hmem).1, hs⟩, hchanged⟩

theorem appliedStates_concat (made : List Made) (m : Made) :
    appliedStates (made ++ [m]) = appliedStates made ++
      if m.applied then m.log.filterMap CallEvent.changed? else [] := by
  simp [appliedStates]

def AllConfirmed (chain : List Snapshot) : Prop := ∀ s ∈ chain, s.status = .confirmed

/-- Between two calls: the confirmed chain is what the chain applied, or it is what it
applied before the last call, whose snapshot is `Pending`. -/
inductive Standing (js : Journal.Provider) (address : String) (base : List Bytes) :
    List Made → Store → Prop
  | settled {made : List Made} {st : Store} {chain : List Snapshot}
      (h : JournalAt js st address chain) (hconf : AllConfirmed chain)
      (hstates : chain.reverse.map Snapshot.data = base ++ appliedStates made) :
      Standing js address base made st
  | pending {made : List Made} {m : Made} {st : Store} {s : Snapshot} {chain : List Snapshot}
      (h : JournalAt js st address (s :: chain)) (hconf : AllConfirmed chain)
      (hs : Records m.log s)
      (hstates : chain.reverse.map Snapshot.data = base ++ appliedStates made) :
      Standing js address base (made ++ [m]) st

theorem Records.pending {log : List CallEvent} {s : Snapshot} (h : Records log s) :
    s.status = .pending := by
  obtain ⟨⟨_, _, _, _, _, _, _, _, rfl⟩, _⟩ := h
  rfl

theorem confirmed_data {base : List Bytes} {made : List Made} {m : Made} {s : Snapshot}
    (hs : Records m.log s) (happlied : m.applied = true)
    (hstates : chain.reverse.map Snapshot.data = base ++ appliedStates made) {t : Snapshot}
    (ht : t.data = s.data) :
    (t :: chain).reverse.map Snapshot.data = base ++ appliedStates (made ++ [m]) := by
  rw [List.reverse_cons, List.map_append, hstates, appliedStates_concat, happlied, if_pos rfl, hs.2,
    List.map_singleton, ht, List.append_assoc]

theorem AllConfirmed.cons {t : Snapshot} (h : AllConfirmed chain) (ht : t.status = .confirmed) :
    AllConfirmed (t :: chain) := by
  intro s hs
  rcases List.mem_cons.mp hs with rfl | hs
  · exact ht
  · exact h s hs

/-- One call, from a settled journal. -/
theorem standing_call {base : List Bytes} {made : List Made} {m : Made}
    {o : Outcome (Except ContractError TxInBlock)} (h : JournalAt js st address chain)
    (hconf : AllConfirmed chain)
    (hstates : chain.reverse.map Snapshot.data = base ++ appliedStates made)
    (hcourse : Course o (notes m.log)) (htruth : m.Truthful)
    (hrun : Run (Acts js text address) st m.log st') :
    Standing js address base (made ++ [m]) st' := by
  obtain ⟨log, applied⟩ := m
  rcases run_course h hcourse (run_notes hrun) htruth.notes with
    ⟨h', hnone⟩ | ⟨s, hs, h'⟩ | ⟨s, blockHash, hs, happlied, h'⟩
  · refine .settled h' hconf ?_
    rw [hstates, appliedStates_concat]
    cases applied with
    | false => rw [if_neg Bool.false_ne_true, List.append_nil]
    | true =>
      have hlog : log.filterMap CallEvent.changed? = [] := by
        rw [← changed_notes]
        exact hnone rfl
      rw [if_pos rfl, hlog, List.append_nil]
  · exact .pending h' hconf hs.of_notes hstates
  · exact .settled h' (hconf.cons rfl)
      (confirmed_data (m := ⟨log, applied⟩) hs.of_notes happlied hstates rfl)

theorem standing_reconciled {base : List Bytes} {made : List Made} {m : Made}
    (h : Standing js address base (made ++ [m]) st) {ext blockHash : Hash32}
    {blockHeight : Option ℕ} {r : Except PrivateStateError Unit}
    (hpending : ∃ s ∈ js.snapshots st address, s.extrinsicHash = ext.hex ∧ s.status = .pending)
    (hleft : MayLeave (if m.applied then confirm js st address ext blockHeight blockHash
      else markFailed js st address ext) st st' (some r)) :
    Standing js address base (made ++ [m]) st' := by
  obtain ⟨s', hs', hhash', hstatus⟩ := hpending
  generalize hall : made ++ [m] = all at h
  cases h with
  | settled h hconf _ =>
    rw [h.snapshots_eq, List.mem_reverse] at hs'
    rw [hconf s' hs'] at hstatus
    cases hstatus
  | @pending _ _ _ s chain h hconf hs hstates =>
    obtain ⟨rfl, hm⟩ := List.append_inj' hall rfl
    obtain rfl := List.singleton_inj.mp hm
    -- The snapshot that is `Pending` is the head of the journal.
    have hhead : s' = s := by
      rw [h.snapshots_eq, List.mem_reverse] at hs'
      rcases List.mem_cons.mp hs' with rfl | hs'
      · rfl
      · rw [hconf s' hs'] at hstatus
        cases hstatus
    subst hhead
    by_cases happlied : m.applied = true
    · rw [if_pos happlied] at hleft
      have hends := ((ends_confirm h hstatus hhash' blockHeight blockHash).leaves hleft).2 _ rfl
      have hstates' := confirmed_data (t := confirmedSnapshot s' blockHeight blockHash) hs happlied
        hstates rfl
      cases r with
      | ok _ => exact .settled hends (hconf.cons rfl) hstates'
      | error e =>
        rcases hends with hends | hends
        · exact .pending hends hconf hs hstates
        · exact .settled hends (hconf.cons rfl) hstates'
    · rw [if_neg happlied] at hleft
      have hends := ((ends_markFailed h hhash').leaves hleft).2 _ rfl
      have hstates' : chain.reverse.map Snapshot.data = base ++ appliedStates (made ++ [m]) := by
        rw [hstates, appliedStates_concat, if_neg happlied, List.append_nil]
      cases r with
      | ok _ => exact .settled hends hconf hstates'
      | error e =>
        rcases hends with hends | hends
        · exact .pending hends hconf hs hstates
        · exact .settled hends hconf hstates'

theorem standing_not_pending {base : List Bytes} {made : List Made}
    (h : Standing js address base made st)
    (hsettled : ∀ m, made.getLast? = some m → ¬ m.Pending js address st) :
    ∃ chain, JournalAt js st address chain ∧ AllConfirmed chain ∧
      chain.reverse.map Snapshot.data = base ++ appliedStates made := by
  cases h with
  | settled h hconf hstates => exact ⟨_, h, hconf, hstates⟩
  | @pending _ m _ s chain h hconf hs hstates =>
    refine absurd ?_ (hsettled m List.getLast?_concat)
    obtain ⟨hash, change, stored, hmem, ext, dependsOn, hhash, _, hsnap⟩ := hs.1
    refine ⟨hash, change, stored, ext, hmem, hhash, s, ?_, ?_, hs.pending⟩
    · rw [h.snapshots_eq, List.mem_reverse]
      exact List.mem_cons_self
    · rw [hsnap]
      rfl

theorem standing_calls {st₀ : Store} {made : List Made} {chain₀ : List Snapshot}
    (h₀ : JournalAt js st₀ address chain₀) (hconf : AllConfirmed chain₀)
    (h : Calls js text address st₀ made st) :
    Standing js address (chain₀.reverse.map Snapshot.data) made st := by
  induction h with
  | none => exact .settled h₀ hconf (List.append_nil _).symm
  | call _ hsettled p hp request deadline script applied htruth hrun ih =>
    obtain ⟨chain, hchain, hchainConf, hstates⟩ := standing_not_pending ih hsettled
    exact standing_call hchain hchainConf hstates (ensures_course p hp request deadline script)
      htruth hrun
  | reconciled _ _ _ hpending hleft ih => exact standing_reconciled ih hpending hleft

/-- What one call does, from the journal that it finds: it starts from the newest
state, submits once its own is stored, and brings the verdict to the store. -/
structure Orderly (js : Journal.Provider) (text : PrivateStateError → String) (address : String)
    (st : Store) (x : Execution Answers CallEvent (Except ContractError TxInBlock))
    (st' : Store) : Prop where
  baseline : ∀ change, .ran change ∈ x.log →
    change.baseline = ((js.snapshots st address).getLast?.map Snapshot.data).getD []
  stored : ∀ before after, x.log = before ++ .flow .handedOver :: after →
    ∃ change, .ran change ∈ before ∧ (change.after ≠ change.baseline →
      ∃ hash s, .appended hash change (.ok ()) ∈ before ∧ Writes hash change s ∧
        ∀ mid, Run (Acts js text address) st before mid →
          js.snapshots mid address = js.snapshots st address ++ [s])
  refused : ∀ hash change e, .appended hash change (.error e) ∈ x.log →
    .flow .handedOver ∉ x.log ∧ (x.outcome.Ended →
      releasedBy (x.log.filterMap CallEvent.flow?) = reservedBy (x.log.filterMap CallEvent.flow?))
  success : ∀ hash change tx, .appended hash change (.ok ()) ∈ x.log → .waited (.ok tx) ∈ x.log →
    (∀ r, x.outcome = .ready r → ∃ stored, .confirmed hash tx.blockHash stored ∈ x.log ∧
      (r = .ok tx ↔ stored = .ok ())) ∧
    (.confirmed hash tx.blockHash (.ok ()) ∈ x.log →
      ∃ s blockHash, Writes hash change s ∧ tx.blockHash = blockHash.val ∧
        js.snapshots st' address =
          js.snapshots st address ++ [confirmedSnapshot s none blockHash])
  notApplied : ∀ hash change tx, .appended hash change (.ok ()) ∈ x.log →
    .waited (.error (.notApplied tx)) ∈ x.log →
    (∀ r, x.outcome = .ready r → (∃ stored, .failed hash stored ∈ x.log) ∧ ∀ tx, r ≠ .ok tx) ∧
    (.failed hash (.ok ()) ∈ x.log → js.snapshots st' address = js.snapshots st address)
  undecided : ∀ hash change, .appended hash change (.ok ()) ∈ x.log →
    (∀ verdict, .waited verdict ∈ x.log → ¬ Decided verdict) →
    ∃ s, Writes hash change s ∧ js.snapshots st' address = js.snapshots st address ++ [s]

theorem confirmedStates_eq (h : JournalAt js st address chain)
    (hconf : AllConfirmed chain) :
    confirmedStates js address st = chain.reverse.map Snapshot.data := by
  unfold confirmedStates
  rw [h.snapshots_eq, List.filter_eq_self.mpr fun s hs =>
    decide_eq_true (hconf s (List.mem_reverse.mp hs))]

/-- A call whose snapshot is stored has submitted, and is on its way to settle it. -/
theorem course_recorded {o : Outcome (Except ContractError TxInBlock)} {ns : List CallEvent}
    (hns : Course o ns) {hash : Bytes} {change : PrivateStateChange}
    (hmem : .appended hash change (.ok ()) ∈ ns) :
    ∃ found ns', ns = .head (.ok found) :: .ran change :: .appended hash change (.ok ()) ::
      .flow .handedOver :: ns' ∧ Settling hash true o ns' := by
  cases hns with
  | unsent h => cases h <;> simp at hmem
  | @sent hash' _ _ _ _ h h' =>
    cases h with
    | unchanged => cases h' <;> simp at hmem
    | recorded found after hchange =>
      have happended : hash = hash' ∧ change = changeFrom found after := by
        cases h' <;> simpa using hmem
      obtain ⟨rfl, rfl⟩ := happended
      exact ⟨found, _, rfl, h'⟩

/-- A call that told the store its verdict ends with the store's answer. -/
theorem orderly_settled {o : Outcome (Except ContractError TxInBlock)} {ns : List CallEvent}
    (h : JournalAt js st address chain) (hns : Course o ns)
    (hrun : Run (Acts js text address) st ns st') {hash : Bytes} {change : PrivateStateChange}
    (hmem : .appended hash change (.ok ()) ∈ ns) :
    (∀ tx, .waited (.ok tx) ∈ ns →
      (∀ r, o = .ready r → ∃ stored, .confirmed hash tx.blockHash stored ∈ ns ∧
        (r = .ok tx ↔ stored = .ok ())) ∧
      (.confirmed hash tx.blockHash (.ok ()) ∈ ns →
        ∃ s blockHash, Writes hash change s ∧ tx.blockHash = blockHash.val ∧
          JournalAt js st' address (confirmedSnapshot s none blockHash :: chain))) ∧
    (∀ tx, .waited (.error (.notApplied tx)) ∈ ns →
      (∀ r, o = .ready r → (∃ stored, .failed hash stored ∈ ns) ∧ ∀ tx, r ≠ .ok tx) ∧
      (.failed hash (.ok ()) ∈ ns → JournalAt js st' address chain)) ∧
    ((∀ verdict, .waited verdict ∈ ns → ¬ Decided verdict) →
      ∃ s, Writes hash change s ∧ JournalAt js st' address (s :: chain)) := by
  obtain ⟨found, ns', rfl, hsettling⟩ := course_recorded hns hmem
  obtain ⟨hrun, _⟩ := run_ran h hrun
  obtain ⟨s, st₁, hs, h₁, hrun⟩ := run_recorded h hrun
  cases hsettling with
  | unwaited =>
    cases hrun
    exact ⟨by simp, by simp, fun _ => ⟨s, hs, h₁⟩⟩
  | waited _ verdict _ hcut =>
    cases hrun with
    | cons hact hrun =>
      cases hact
      cases hrun
      refine ⟨fun tx htx => ?_, fun tx htx => ?_, fun _ => ⟨s, hs, h₁⟩⟩
      · obtain rfl : verdict = .ok tx := by simpa [eq_comm] using htx
        exact ⟨fun r hr => absurd hr (hcut rfl trivial r), by simp⟩
      · obtain rfl : verdict = .error (.notApplied tx) := by simpa [eq_comm] using htx
        exact ⟨fun r hr => absurd hr (hcut rfl trivial r), by simp⟩
  | confirmed tx stored _ hends =>
    obtain ⟨st₂, st₃, hwaited, hconfirmed, hrun⟩ := run_two hrun
    cases hwaited
    cases hrun
    obtain ⟨blockHash, hblock, hok, _⟩ := acts_confirmed h₁ hs hconfirmed
    refine ⟨fun tx' htx => ?_, by simp, fun hnone => (hnone (.ok tx) (by simp) trivial).elim⟩
    obtain rfl : tx = tx' := by simpa [eq_comm] using htx
    refine ⟨fun r hr => ⟨stored, by simp, hends r hr⟩, fun hstored => ?_⟩
    obtain rfl : stored = .ok () := by simpa [eq_comm] using hstored
    exact ⟨s, blockHash, hs, hblock, hok rfl⟩
  | failed tx stored _ hends =>
    obtain ⟨st₂, st₃, hwaited, hfailed, hrun⟩ := run_two hrun
    cases hwaited
    cases hrun
    obtain ⟨hok, _⟩ := acts_failed h₁ hs hfailed
    refine ⟨by simp, fun tx' htx => ⟨fun r hr => ⟨⟨stored, by simp⟩, fun tx hrtx => ?_⟩,
      fun hstored => ?_⟩, fun hnone => (hnone (.error (.notApplied tx)) (by simp) trivial).elim⟩
    · rw [hrtx] at hr
      exact hends tx hr
    · obtain rfl : stored = .ok () := by simpa [eq_comm] using hstored
      exact hok rfl

/-- What a call has told before its hand-over. -/
theorem course_before {o : Outcome (Except ContractError TxInBlock)}
    {before after : List CallEvent} (hns : Course o (before ++ .flow .handedOver :: after)) :
    ∃ found change, (change.after = change.baseline ∧
        before = [.head (.ok found), .ran change]) ∨
      ∃ hash, before = [.head (.ok found), .ran change, .appended hash change (.ok ())] := by
  generalize hlog : before ++ .flow .handedOver :: after = ns at hns
  cases hns with
  | unsent h =>
    have hmem : .flow .handedOver ∈ ns := by
      rw [← hlog]
      exact List.mem_append_right _ List.mem_cons_self
    cases h <;> simp at hmem
  | @sent hash _ _ _ ns' h h' =>
    have htail := h'.handedOver_not_mem
    cases h with
    | unchanged found after' hsame =>
      have hsplit : [CallEvent.head (.ok found), .ran (changeFrom found after')] ++
          .flow .handedOver :: ns' = before ++ .flow .handedOver :: after := hlog.symm
      rw [List.append_cons_inj_of_notMem (by simp) htail] at hsplit
      exact ⟨found, _, .inl ⟨hsame, hsplit.1.symm⟩⟩
    | recorded found after' _ =>
      have hsplit : [CallEvent.head (.ok found), .ran (changeFrom found after'),
          .appended hash (changeFrom found after') (.ok ())] ++ .flow .handedOver :: ns' =
            before ++ .flow .handedOver :: after := hlog.symm
      rw [List.append_cons_inj_of_notMem (by simp) htail] at hsplit
      exact ⟨found, _, .inr ⟨_, hsplit.1.symm⟩⟩

/-- A call that is never handed over has released what it reserved. -/
theorem released_unhanded (p : MidnightProvider) (request : Call) (deadline : Option ℕ)
    (script : List (Poll Answers)) :
    let x := callWith true p request deadline script
    .flow .handedOver ∉ x.log → x.outcome.Ended →
      releasedBy (x.log.filterMap CallEvent.flow?) =
        reservedBy (x.log.filterMap CallEvent.flow?) := by
  intro x hunhanded hended
  have hconcluded := (Lifecycle.submits_sendCallWith p request).concluded
    (fun pending => Lifecycle.watched_finish pending deadline) script
  rw [← erase_callWith] at hconcluded
  have hx : Lifecycle.Concluded x.outcome (x.log.filterMap CallEvent.flow?) := hconcluded
  clear_value x
  rcases hx with hunsent | ⟨before, m, after, hlog, _⟩
  · have hsettles : duty.Settles 0 (x.log.filterMap CallEvent.flow?) 0 := by
      rcases x with ⟨(e | tx) | _ | _ | _, rest, log⟩
      · exact hunsent
      · exact hunsent.elim
      · exact hunsent
      · exact hunsent
      · exact hended.elim
    have hsum := hsettles.2
    rw [zero_add, add_zero] at hsum
    exact hsum.symm
  · have hmem : Event.handedOver ∈ x.log.filterMap CallEvent.flow? := by
      rw [hlog]
      exact List.mem_append_right _ List.mem_cons_self
    obtain ⟨e, he, hflow⟩ := List.mem_filterMap.mp hmem
    cases e with
    | flow e =>
      obtain rfl := Option.some.inj hflow
      exact (hunhanded he).elim
    | _ => cases hflow

theorem course_ran {o : Outcome (Except ContractError TxInBlock)} {ns : List CallEvent}
    (hns : Course o ns) {change : PrivateStateChange} (hmem : .ran change ∈ ns) :
    ∃ found ns', change.baseline = (found.map Prod.fst).getD [] ∧
      ns = .head (.ok found) :: .ran change :: ns' := by
  cases hns with
  | unsent h =>
    cases h with
    | unread => simp at hmem
    | read => simp at hmem
    | ran found after =>
      obtain rfl : change = changeFrom found after := by simpa using hmem
      exact ⟨found, _, rfl, rfl⟩
    | refused found after =>
      obtain rfl : change = changeFrom found after := by simpa using hmem
      exact ⟨found, _, rfl, rfl⟩
  | sent h h' =>
    cases h with
    | unchanged found after =>
      obtain rfl : change = changeFrom found after := by
        cases h' <;> simpa using hmem
      exact ⟨found, _, rfl, rfl⟩
    | recorded found after =>
      obtain rfl : change = changeFrom found after := by
        cases h' <;> simpa using hmem
      exact ⟨found, _, rfl, rfl⟩

theorem course_refused {o : Outcome (Except ContractError TxInBlock)} {ns : List CallEvent}
    (hns : Course o ns) {hash : Bytes} {change : PrivateStateChange} {e : String}
    (hmem : .appended hash change (.error e) ∈ ns) : .flow .handedOver ∉ ns := by
  cases hns with
  | unsent h => cases h <;> simp
  | sent h h' =>
    cases h with
    | unchanged => cases h' <;> simp at hmem
    | recorded => cases h' <;> simp at hmem

theorem Writes.unique {hash : Bytes} {change : PrivateStateChange} {s s' : Snapshot}
    (h : Writes hash change s) (h' : Writes hash change s') : s = s' := by
  obtain ⟨ext, dependsOn, rfl, hparent, rfl⟩ := h
  obtain ⟨ext', dependsOn', hext, hparent', rfl⟩ := h'
  obtain rfl := Subtype.ext hext
  obtain rfl : dependsOn = dependsOn' :=
    Option.map_injective Subtype.val_injective (hparent.symm.trans hparent')
  rfl

theorem orderly_call (h : JournalAt js st address chain) (p : MidnightProvider)
    (hp : p.privateState = true) (request : Call) (deadline : Option ℕ)
    (script : List (Poll Answers))
    (hrun : Run (Acts js text address) st (callWith true p request deadline script).log st') :
    Orderly js text address st (callWith true p request deadline script) st' := by
  have hcourse := ensures_course p hp request deadline script
  have hreleased := released_unhanded p request deadline script
  generalize callWith true p request deadline script = x at hrun hcourse hreleased ⊢
  have hnotes := run_notes hrun
  have hmem : ∀ {e : CallEvent}, e.noted = true → e ∈ x.log → e ∈ notes x.log :=
    fun hnoted he => mem_notes.mpr ⟨he, hnoted⟩
  refine ⟨?_, ?_, ?_, ?_, ?_, ?_⟩
  · intro change hran
    obtain ⟨found, ns', hbaseline, hns⟩ := course_ran hcourse (hmem rfl hran)
    rw [hns] at hnotes
    rw [hbaseline, (run_ran h hnotes).2, h.newest]
  · intro before after hlog
    have hsplit : notes x.log = notes before ++ .flow .handedOver :: notes after := by
      rw [hlog, notes_append]
      rfl
    obtain ⟨found, change, hbefore⟩ := course_before (hsplit ▸ hcourse)
    refine ⟨change, ?_, fun hchange => ?_⟩
    · refine (mem_notes.mp ?_).1
      rcases hbefore with ⟨_, hbefore⟩ | ⟨hash, hbefore⟩
      · rw [hbefore]
        simp
      · rw [hbefore]
        simp
    · rcases hbefore with ⟨hsame, _⟩ | ⟨hash, hbefore⟩
      · exact (hchange hsame).elim
      · rw [hsplit, hbefore] at hnotes
        obtain ⟨s, _, hs, _⟩ := run_recorded h (run_ran h hnotes).1
        refine ⟨hash, s, (mem_notes.mp (?_ : _ ∈ notes before)).1, hs, fun mid hmid => ?_⟩
        · rw [hbefore]
          simp
        · have hrest := run_notes hmid
          rw [hbefore] at hrest
          cases (run_ran h hrest).1 with
          | cons hact hnil =>
            cases hnil
            obtain ⟨s', hs', hok, _⟩ := acts_appended h hact
            rw [hs.unique hs']
            exact h.snapshots_cons (hok rfl)
  · intro hash change e happended
    have hunhanded : .flow .handedOver ∉ x.log := fun hhanded =>
      course_refused hcourse (hmem rfl happended) (hmem rfl hhanded)
    exact ⟨hunhanded, hreleased hunhanded⟩
  · intro hash change tx happended hwaited
    obtain ⟨hanswered, hconfirmed⟩ :=
      (orderly_settled h hcourse hnotes (hmem rfl happended)).1 tx (hmem rfl hwaited)
    refine ⟨fun r hr => ?_, fun hstored => ?_⟩
    · obtain ⟨stored, hstored, hiff⟩ := hanswered r hr
      exact ⟨stored, (mem_notes.mp hstored).1, hiff⟩
    · obtain ⟨s, blockHash, hs, hblock, h'⟩ := hconfirmed (hmem rfl hstored)
      exact ⟨s, blockHash, hs, hblock, h.snapshots_cons h'⟩
  · intro hash change tx happended hwaited
    obtain ⟨hanswered, hdropped⟩ :=
      (orderly_settled h hcourse hnotes (hmem rfl happended)).2.1 tx (hmem rfl hwaited)
    refine ⟨fun r hr => ?_, fun hstored => ?_⟩
    · obtain ⟨⟨stored, hstored⟩, hnot⟩ := hanswered r hr
      exact ⟨⟨stored, (mem_notes.mp hstored).1⟩, hnot⟩
    · rw [(hdropped (hmem rfl hstored)).snapshots_eq, h.snapshots_eq]
  · intro hash change happended hnone
    obtain ⟨s, hs, h'⟩ := (orderly_settled h hcourse hnotes (hmem rfl happended)).2.2
      fun verdict hverdict => hnone verdict (mem_notes.mp hverdict).1
    exact ⟨s, hs, h.snapshots_cons h'⟩

/-- The calls of a run keep the journal beside the chain, whatever their awaits answer
and wherever they are dropped. -/
theorem journal_follows_calls {st₀ : Store} (hst₀ : Journal.StoreOk js st₀)
    (hconf : ∀ s ∈ js.snapshots st₀ address, s.status = .confirmed) {made : List Made}
    (hcalls : Calls js text address st₀ made st) :
    (∀ s ∈ js.snapshots st address, s.status = .pending →
      ∃ m, made.getLast? = some m ∧ m.Told s) ∧
    confirmedStates js address st = confirmedStates js address st₀ ++
      appliedStates (if ∃ s ∈ js.snapshots st address, s.status = .pending then made.dropLast
        else made) ∧
    ∀ p : MidnightProvider, p.privateState = true → ∀ request deadline script st',
      (∀ m, made.getLast? = some m → ¬ m.Pending js address st) →
      Run (Acts js text address) st (callWith true p request deadline script).log st' →
      Orderly js text address st (callWith true p request deadline script) st' := by
  obtain ⟨chain₀, hchain₀⟩ := (hst₀.files address).chain
  have h₀ : JournalAt js st₀ address chain₀ := .of_chain (hst₀.files address).named hchain₀
  have hconf₀ : AllConfirmed chain₀ := by
    intro s hs
    refine hconf s ?_
    rw [h₀.snapshots_eq, List.mem_reverse]
    exact hs
  have hbase : confirmedStates js address st₀ = chain₀.reverse.map Snapshot.data :=
    confirmedStates_eq h₀ hconf₀
  rw [hbase]
  refine ⟨?_, ?_, ?_⟩
  · intro s hs hpending
    cases standing_calls h₀ hconf₀ hcalls with
    | settled h hconf _ =>
      rw [h.snapshots_eq, List.mem_reverse] at hs
      rw [hconf s hs] at hpending
      cases hpending
    | @pending _ m _ s' chain h hconf hs' _ =>
      refine ⟨m, List.getLast?_concat, ?_⟩
      rw [h.snapshots_eq, List.mem_reverse] at hs
      rcases List.mem_cons.mp hs with rfl | hs
      · exact hs'.1
      · rw [hconf s hs] at hpending
        cases hpending
  · cases standing_calls h₀ hconf₀ hcalls with
    | settled h hconf hstates =>
      rw [if_neg ?_, confirmedStates_eq h hconf, hstates]
      rintro ⟨s, hs, hpending⟩
      rw [h.snapshots_eq, List.mem_reverse] at hs
      rw [hconf s hs] at hpending
      cases hpending
    | @pending _ m _ s chain h hconf hs hstates =>
      have hmem : s ∈ js.snapshots st address := by
        rw [h.snapshots_eq, List.mem_reverse]
        exact List.mem_cons_self
      have hlast : confirmedStates js address st = chain.reverse.map Snapshot.data := by
        unfold confirmedStates
        have hskip : decide (s.status = .confirmed) = false := by
          rw [hs.pending]
          rfl
        rw [h.snapshots_eq, List.reverse_cons, List.filter_append,
          List.filter_eq_self.mpr fun t ht => decide_eq_true (hconf t (List.mem_reverse.mp ht)),
          List.filter_cons_of_neg (by rw [hskip]; exact Bool.false_ne_true), List.filter_nil,
          List.append_nil]
      rw [if_pos ⟨s, hmem, hs.pending⟩, List.dropLast_concat, ← hstates, hlast]
  · intro p hp request deadline script st' hsettled hrun
    obtain ⟨chain, h, _, _⟩ := standing_not_pending (standing_calls h₀ hconf₀ hcalls) hsettled
    exact orderly_call h p hp request deadline script hrun

end Runs

section Examples

def journals : Journal.Provider := ⟨"states", id, Function.injective_id⟩

def sdk : MidnightProvider where
  wallet := some ⟨⟩
  privateState := true
  steps := ⟨fun _ => .ok (), fun _ => .ok 0, fun _ => .ok (), fun _ => [2],
    fun _ => List.replicate 32 5, fun _ => ""⟩

/-- A call whose witnesses append a byte to the private state. -/
def counting : Call where
  declaresWitnesses := true
  run := fun state => .ok (state ++ [1])
  coins := []
  deposits := .ok ([], [])
  attach := fun _ => .ok ()
  signUnshieldedSpends := .ok
  decode := .ok ()

def answering (store : Except String Unit) : Answers where
  node := .ok ()
  client := some (.ok ())
  context := .ok ()
  prepared := .ok ⟨[], [], [], 0, 0⟩
  fees := .ok none
  shielded := .ok ([], .default)
  unshielded := .ok (⟨none, []⟩, .default)
  proof := .ok ([], 0)
  watched := .ok ()
  status := some (.ok (.inFinalizedBlock ⟨List.replicate 32 9, List.replicate 32 5⟩))
  events := .ok [.ok ("Midnight", "TxApplied")]
  contract := .ok ()
  head := .ok none
  store

/-- Every step succeeds, but the store cannot confirm. -/
def failingConfirm : List (Poll Answers) :=
  List.replicate 19 (.ready (answering (.ok ()))) ++
    [.ready (answering (.error "disk full"))]

def callHash : Hash32 := ⟨List.replicate 32 5, rfl⟩

def blockHash : Hash32 := ⟨List.replicate 32 9, rfl⟩

/-- The store after the call's append. -/
def appendedStore : Store :=
  (Journal.appendPending journals 1 Store.empty "0200aa" callHash none [1]).1

def countingTx : TxInBlock := ⟨List.replicate 32 9, List.replicate 32 5, [2], .success⟩

def countingLog : List CallEvent :=
  [.head (.ok none), .ran ⟨[], [1], none⟩, .flow (.reserved .default), .flow (.reserved .default),
    .appended (List.replicate 32 5) ⟨[], [1], none⟩ (.ok ()), .flow .handedOver,
    .flow (.read (.inFinalizedBlock ⟨List.replicate 32 9, List.replicate 32 5⟩)),
    .waited (.ok countingTx),
    .confirmed (List.replicate 32 5) (List.replicate 32 9) (.error "disk full")]

theorem countingLog_eq : (callWith true sdk counting none failingConfirm).log = countingLog := by
  rfl

theorem journalAt_empty : JournalAt journals Store.empty "0200aa" [] :=
  .of_chain (by simp [Journal.files, Store.empty])
    ⟨List.Perm.nil, List.nodup_nil, trivial⟩

theorem appendedStore_left : MayLeave (appendPending journals 1 Store.empty "0200aa" callHash none
    [1]) Store.empty appendedStore (some (.ok ())) := by
  have htrim : Journal.Trimmed "0200aa" := by
    show Journal.trim "0200aa" = "0200aa"
    decide
  have hok := (Journal.appendPending_spec (p := journals) Journal.StoreOk.empty 1 "0200aa" htrim
    callHash none [1]).2.mpr ⟨by simp [Journal.snapshots, Journal.loadSnapshots, Store.empty],
      [], ⟨List.Perm.nil, List.nodup_nil, trivial⟩, rfl⟩
  have hleft := mayLeave_run (appendPending journals 1 Store.empty "0200aa" callHash none [1])
    Store.empty
  rw [run_appendPending, hok] at hleft
  exact hleft

/-- The call submits and the chain applies it, but the store fails on the confirm. -/
theorem counting_run : Run (Acts journals (fun _ => "disk full") "0200aa") Store.empty countingLog
    appendedStore := by
  have hhead : MayLeave (headWithExtrinsic journals Store.empty "0200aa") Store.empty Store.empty
      (some (.ok none)) := mayLeave_run _ _
  refine .cons (.head hhead rfl) (.cons (.ran _ _) (.cons (.flow _ _) (.cons (.flow _ _) ?_)))
  have hconfirm : MayLeave (confirm journals appendedStore "0200aa" callHash none blockHash)
      appendedStore appendedStore (some (.error (.io "disk full"))) :=
    .failed "disk full" (.inl rfl) (.done _ _)
  refine .cons (.appended (r := .ok ()) rfl rfl appendedStore_left rfl) ?_
  refine .cons (.flow _ _) (.cons (.flow _ _) (.cons (.waited _ _) ?_))
  exact .cons (.confirmed rfl rfl hconfirm rfl) (.nil _)

theorem counting_calls : Calls journals (fun _ => "disk full") "0200aa" Store.empty
    [⟨countingLog, true⟩] appendedStore := by
  have htruth : Made.Truthful ⟨countingLog, true⟩ :=
    ⟨fun _ => by decide, fun _ _ => rfl, fun tx hmem => by simp [countingLog] at hmem⟩
  have hrun := counting_run
  rw [← countingLog_eq] at htruth hrun ⊢
  exact .call .none (fun _ h => by cases h) sdk rfl counting none failingConfirm true htruth hrun

theorem confirmedStates_appended : confirmedStates journals "0200aa" appendedStore = [] := by
  have hends := ((ends_appendPending journalAt_empty 1 callHash none [1]).leaves
    appendedStore_left).2 _ rfl
  unfold confirmedStates
  rw [JournalAt.snapshots_eq hends]
  rfl

/-- A call that the chain applied and whose confirm failed: the call says so, and its
state is not in the confirmed chain. -/
theorem success_not_confirmed :
    Calls journals (fun _ => "disk full") "0200aa" Store.empty [⟨countingLog, true⟩]
      appendedStore ∧
    countingLog = (callWith true sdk counting none failingConfirm).log ∧
    .waited (.ok countingTx) ∈ countingLog ∧
    (callWith true sdk counting none failingConfirm).outcome =
      .ready (.error (.privateState "disk full")) ∧
    confirmedStates journals "0200aa" appendedStore = [] ∧
    appliedStates [⟨countingLog, true⟩] = [[1]] :=
  ⟨counting_calls, rfl, by decide, rfl, confirmedStates_appended, rfl⟩

/-- The theorem at the call whose confirm failed: its snapshot is the `Pending` one,
and no state is confirmed before it. -/
theorem journal_follows_calls_unconfirmed :
    confirmedStates journals "0200aa" appendedStore =
      confirmedStates journals "0200aa" Store.empty ++
        appliedStates (if ∃ s ∈ journals.snapshots appendedStore "0200aa", s.status = .pending
          then [(⟨countingLog, true⟩ : Made)].dropLast else [⟨countingLog, true⟩]) :=
  (journal_follows_calls Journal.StoreOk.empty (fun s hs => by
    rw [journalAt_empty.snapshots_eq] at hs
    cases hs) counting_calls).2.1

end Examples

end MidnightRs.CallJournals
