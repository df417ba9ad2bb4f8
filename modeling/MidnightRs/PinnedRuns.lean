import MidnightRs.ChainPins

/-!
What becomes of a wallet's pin over a run. Beside the wallet stands what no
wallet records: the chains whose events its state and its snapshot hold. The
pin of a snapshot names the chain of its events, as long as the pin could be
checked where the chain could have changed.
-/
namespace MidnightRs.Storage

open Directories

variable {Z D : LedgerVersion → Type} {st : Store Z D} {d : Dir FileName}

/-- The pin that a snapshot on disk carries, read without its states. -/
def Store.loadChainPin (st : Store Z D) (d : Dir FileName) :
    Except WalletError (Option ChainPin) :=
  (st.readMetadata d).map (fun m => m.bind (·.chainPin))

theorem Store.load_metadata {v : LedgerVersion} {s : Snapshot Z D v}
    (h : st.load d v = .ok (some s)) :
    ∃ m, st.readMetadata d = .ok (some m) ∧ m.ledgerVersion = v ∧ m.chainPin = s.chainPin := by
  unfold Store.load at h
  rcases hread : st.readMetadata d with e | _ | m
  · rw [hread] at h
    cases h
  · rw [hread] at h
    cases h
  · rw [hread] at h
    simp only at h
    split at h
    · cases h
    · rename_i hledger
      split at h
      · cases h
      split at h
      · cases h
      split at h
      · cases h
      · cases h
        refine ⟨m, rfl, ?_, rfl⟩
        by_contra hne
        unfold Store.expectLedger at hledger
        rw [if_neg hne] at hledger
        cases hledger

theorem Loads.loadChainPin {s : Stored Z D} (h : Loads st d (some s)) :
    st.loadChainPin d = .ok s.2.chainPin := by
  obtain ⟨m, hread, -, hpin⟩ := Store.load_metadata h.1
  unfold Store.loadChainPin
  rw [hread]
  exact congrArg Except.ok hpin

/-- What a load finds is all that the directory holds. -/
theorem loads_of_loadSnapshot {chain : LedgerVersion} {s : Stored Z D}
    (h : st.loadSnapshot d chain = .ok (some s)) : Loads st d (some s) := by
  unfold Store.loadSnapshot at h
  split at h
  · cases h
  · cases h
  · rename_i v _
    split at h
    · cases h
    · rcases hload : st.load d v with e | _ | snapshot
      · rw [hload] at h
        cases h
      · rw [hload] at h
        cases h
      · rw [hload] at h
        cases h
        refine ⟨hload, fun v' hv' => ?_⟩
        obtain ⟨m, hread, hledger, -⟩ := Store.load_metadata hload
        unfold Store.load
        rw [hread]
        simp only
        rw [show Store.expectLedger v' m.ledgerVersion = .error (.ledgerMismatch v' v) from by
          rw [hledger]
          exact if_neg (Ne.symm hv')]

end MidnightRs.Storage

namespace MidnightRs.ChainSync

open LedgerReplays Storage Reservations Directories

variable {Z D E P : LedgerVersion → Type}

section Checks

variable (st : Store Z D)

/-- What a sync checks before it begins. The fresh pin is taken before the
check, so that a chain replaced at any point after it reads as replaced. -/
def prepare (d : Dir FileName) (hasStorage pin : Bool) (pinning checking : ChainView) :
    Except WalletError SyncOptions :=
  if pin then
    let candidate := currentPin pinning
    if hasStorage then
      match st.loadChainPin d with
      | .error e => .error e
      | .ok none => .ok ⟨true, true, candidate⟩
      | .ok (some stored) =>
        match requireSameChain checking stored (some st.path) with
        | .error e => .error e
        | .ok () => .ok ⟨true, true, candidate⟩
    else .ok ⟨false, true, candidate⟩
  else .ok ⟨hasStorage, true, none⟩

/-- How much of the wallet a resync rebuilds. -/
inductive ResyncDepth where
  | delta
  | genesis
deriving DecidableEq, Repr

def ResyncDepth.edit (around : ResyncAround) : ResyncDepth → Edit
  | .delta => .resync around
  | .genesis => .rebuild around

/-- The directory that an error of the wallet names. -/
def snapshotDir (s : State Z D P) : Option String := if s.2.hasStorage then some st.path else none

/-- What a resync checks before it begins, and the pin that it sets once it has
committed. A rebuild from genesis is the cure for a replaced chain. -/
def resyncCheck (s : State Z D P) (depth : ResyncDepth) (pinning checking : ChainView) :
    Except WalletError (Option ChainPin) :=
  match s.2.chainPin with
  | none => .ok none
  | some pin =>
    let replacement := currentPin pinning
    match requireSameChain checking pin (snapshotDir st s), depth with
    | .error (.chainMismatch _ _ _ _), .genesis => .ok replacement
    | .error e, _ => .error e
    | .ok (), _ => .ok replacement

def rescanCheck (s : State Z D P) (checking : ChainView) : Except WalletError Unit :=
  match s.2.chainPin with
  | none => .ok ()
  | some pin => requireSameChain checking pin (snapshotDir st s)

/-- Whether the node says that the wallet's chain is gone. -/
def foundGone (s : State Z D P) (checking : ChainView) : Bool :=
  match s.2.chainPin with
  | none => false
  | some pin =>
    match verifyPin checking pin with
    | .replaced _ => true
    | _ => false

end Checks

section Origins

variable {C : Type}

/-- Where a state comes from. -/
structure Origin (C : Type) where
  /-- The chains whose events it holds. -/
  chains : List C
  /-- Whether a rebuild found the chain of the wallet's pin gone, and the wallet
  has had no fresh pin since. -/
  gone : Bool

/-- The state holds the events of one chain. -/
def Owned (c : C) (o : Origin C) : Prop := c ∈ o.chains ∧ ∀ c' ∈ o.chains, c' = c

/-- A wallet, and where its states come from. -/
structure Traced (Z D P : LedgerVersion → Type) (C : Type) where
  machine : Machine Z D P
  memory : Origin C
  disk : Origin C

variable (L : Ledgers Z D E P) (st : Store Z D) [∀ v, DecidableEq (P v)]

/-- What the directory holds after writes of which some can have stopped: what it
held before, or one of the snapshots written. -/
def Rewrites (d d' : Dir FileName) (written : Stored Z D → Prop) (old new after : Origin C) :
    Prop :=
  (after = old ∧ ∀ x, Loads st d' (some x) → Loads st d (some x)) ∨
    (after = new ∧ ∃ x, written x ∧ Loads st d' (some x))

/-- The state of a sync that the indexer serves from the chain `c`. -/
def Origin.synced (c : C) (disk : Origin C) : Option (Stored Z D) → Origin C
  | none => ⟨[c], false⟩
  | some _ => ⟨c :: disk.chains, disk.gone⟩

/-- The state with more events of the chain `c`. -/
def Origin.more (c : C) (o : Origin C) : Origin C := ⟨c :: o.chains, o.gone⟩

/-- One attempt of a sync. -/
def Attempt (sync : SyncOptions) (c : C) (w w' : Traced Z D P C) : Prop :=
  ∃ block around, Step L st w.machine (.sync sync block around) w'.machine ∧
    w'.memory = .synced c w.disk (foundSnapshot L st w.machine.dir sync block) ∧
    Rewrites st w.machine.dir w'.machine.dir
      (· ∈ (syncOnce L st w.machine.dir sync block around).1) w.disk w'.memory w'.disk

/-- An edit of the state in memory, after which it comes from `new`. -/
def Edits (edit : Edit) (new : Origin C) (w w' : Traced Z D P C) : Prop :=
  ∃ s s', w.machine.memory = some s ∧ w'.machine.memory = some s' ∧
    Step L st w.machine (.edit edit) w'.machine ∧ w'.memory = new ∧
    Rewrites st w.machine.dir w'.machine.dir (· = s'.stored) w.disk new w'.disk

/-- Where the state of a resync comes from, before and after its fresh pin. -/
def ResyncDepth.origin (c : C) (o : Origin C) (gone : Bool) : ResyncDepth → Origin C
  | .delta => o.more c
  | .genesis => ⟨[c], o.gone || gone⟩

def ResyncDepth.repinned (c : C) (o : Origin C) : ResyncDepth → Origin C
  | .delta => o.more c
  | .genesis => ⟨[c], false⟩

/-- A resync. A save that fails leaves the pin as it was. -/
inductive Resync (depth : ResyncDepth) (pinning checking : ChainView) (c : C) :
    Traced Z D P C → Traced Z D P C → Prop
  | committed {w w' : Traced Z D P C} {s : State Z D P} {replacement : Option ChainPin}
      {around : ResyncAround} (hmemory : w.machine.memory = some s)
      (hcheck : resyncCheck st s depth pinning checking = .ok replacement)
      (hedit : Edits L st (depth.edit around) (depth.origin c w.memory (foundGone s checking))
        w w') : Resync depth pinning checking c w w'
  | repinned {w w₁ : Traced Z D P C} {m : Machine Z D P} {s : State Z D P} {fresh : ChainPin}
      {around : ResyncAround} (hmemory : w.machine.memory = some s)
      (hcheck : resyncCheck st s depth pinning checking = .ok (some fresh))
      (hedit : Edits L st (depth.edit around) (depth.origin c w.memory (foundGone s checking))
        w w₁) (hpin : Step L st w₁.machine (.pin fresh) m) :
      Resync depth pinning checking c w ⟨m, depth.repinned c w.memory, w₁.disk⟩

/-- What is asked of a wallet, what the node answers, and the chain that the
indexer serves. -/
inductive Call (C : Type) where
  | «open» (hasStorage pin : Bool) (pinning checking : ChainView) (served : C)
  | resync (depth : ResyncDepth) (pinning checking : ChainView) (served : C)
  | rescan (checking : ChainView) (again : ChainView × ChainView) (served : C)
  | register (edit : Edit)
  | reserve (pending : PendingReservations)
  | save
  | stop

/-- One call. A call that is refused, or that the process does not outlive,
stops at one of its parts. -/
inductive Calls : Traced Z D P C → Call C → Traced Z D P C → Prop
  | opened {w w' : Traced Z D P C} {hasStorage pin : Bool} {pinning checking : ChainView} {c : C}
      {sync : SyncOptions}
      (hprepare : prepare st w.machine.dir hasStorage pin pinning checking = .ok sync)
      (hattempt : Attempt L st sync c w w') :
      Calls w (.open hasStorage pin pinning checking c) w'
  | reopened {w w₁ w' : Traced Z D P C} {hasStorage pin : Bool} {pinning checking : ChainView}
      {c : C} {sync : SyncOptions}
      (hprepare : prepare st w.machine.dir hasStorage pin pinning checking = .ok sync)
      (hfirst : Attempt L st sync c w w₁) (hagain : Attempt L st sync c w₁ w') :
      Calls w (.open hasStorage pin pinning checking c) w'
  | resynced {w w' : Traced Z D P C} {depth : ResyncDepth} {pinning checking : ChainView} {c : C}
      (hresync : Resync L st depth pinning checking c w w') :
      Calls w (.resync depth pinning checking c) w'
  | rescanned {w w' : Traced Z D P C} {checking : ChainView} {again : ChainView × ChainView}
      {c : C} {s : State Z D P} {around : RescanAround} (hmemory : w.machine.memory = some s)
      (hcheck : rescanCheck st s checking = .ok ())
      (hedit : Edits L st (.rescan around) (w.memory.more c) w w') :
      Calls w (.rescan checking again c) w'
  | crossed {w w₁ w' : Traced Z D P C} {checking : ChainView} {again : ChainView × ChainView}
      {c : C} {s : State Z D P} {around : RescanAround} (hmemory : w.machine.memory = some s)
      (hcheck : rescanCheck st s checking = .ok ())
      (hresync : Resync L st .delta again.1 again.2 c w w₁)
      (hedit : Edits L st (.rescan around) (w₁.memory.more c) w₁ w') :
      Calls w (.rescan checking again c) w'
  | watched {w w' : Traced Z D P C} (coins : List CoinInfo)
      (hedit : Edits L st (.watch coins) w.memory w w') : Calls w (.register (.watch coins)) w'
  | forgot {w w' : Traced Z D P C} (coins : List CoinInfo)
      (hedit : Edits L st (.forget coins) w.memory w w') : Calls w (.register (.forget coins)) w'
  | reserved {w : Traced Z D P C} {m : Machine Z D P} {pending : PendingReservations}
      (hstep : Step L st w.machine (.reserve pending) m) :
      Calls w (.reserve pending) ⟨m, w.memory, w.disk⟩
  | saved {w : Traced Z D P C} {m : Machine Z D P} {s : State Z D P} {disk : Origin C}
      (hmemory : w.machine.memory = some s) (hstep : Step L st w.machine .save m)
      (hdisk : Rewrites st w.machine.dir m.dir (· = s.stored) w.disk w.memory disk) :
      Calls w .save ⟨m, w.memory, disk⟩
  | stopped {w : Traced Z D P C} :
      Calls w .stop ⟨⟨none, w.machine.dir⟩, w.memory, w.disk⟩

/-- A wallet's life, from a directory without a snapshot. -/
inductive Lives (allowed : Traced Z D P C → Call C → Prop) : Traced Z D P C → Prop
  | start {d : Dir FileName} (hnone : ∀ x, ¬Loads st d (some x)) (memory disk : Origin C) :
      Lives allowed ⟨⟨none, d⟩, memory, disk⟩
  | call {w w' : Traced Z D P C} {call : Call C} (hlives : Lives allowed w)
      (hallowed : allowed w call) (hcall : Calls L st w call w') :
      Lives allowed w'

theorem Lives.mono {L : Ledgers Z D E P} {st : Store Z D}
    {allowed allowed' : Traced Z D P C → Call C → Prop}
    (hall : ∀ w call, allowed w call → allowed' w call) {w : Traced Z D P C}
    (h : Lives L st allowed w) : Lives L st allowed' w := by
  induction h with
  | start hnone memory disk => exact .start hnone memory disk
  | call hlives hallowed hcall ih => exact ih.call (hall _ _ hallowed) hcall

end Origins

section Pins

variable {L : Ledgers Z D E P} {st : Store Z D} {sync : SyncOptions} {around : Surroundings}

/-- Every snapshot that a sync writes carries the sync's pin. -/
theorem syncOnChain_pins {block : Block} {start : Start Z D} {x : Stored Z D}
    (hx : x ∈ (syncOnChain L sync block start around (P := P)).1) :
    x.2.chainPin = sync.chainPin := by
  obtain ⟨v, hledger, shielded, tracked, hjoin, z, hz⟩ :=
    syncOnChain_reaches (Or.inl (List.ne_nil_of_mem hx))
  rw [syncOnChain_eq hledger hjoin hz] at hx
  obtain ⟨snapshot, hsnapshot, rfl⟩ := List.mem_map.mp hx
  unfold finishSync at hsnapshot
  split at hsnapshot
  · cases hsnapshot
  split at hsnapshot
  · cases hsnapshot
  rcases List.mem_append.mp hsnapshot with hcheckpoint | hsaved
  · obtain ⟨c, -, rfl⟩ := List.mem_map.mp hcheckpoint
    rfl
  · obtain ⟨w, hassembled, rfl⟩ := mem_saveSynced hsaved
    obtain ⟨dust, -, hfinish⟩ := andThen_ok hassembled
    exact (finishDust_wallet (Option.some.inj hfinish)).2.1

theorem Edited.chainPin [∀ v, DecidableEq (P v)] {s s' : State Z D P} {edit : Edit}
    {changed : Bool} (h : Edited L s edit s' changed) : s'.2.chainPin = s.2.chainPin := by
  cases h with
  | resynced hrun => rfl
  | @crossed w around block crossed hblock hsync =>
    have hcrossed := (syncOnChain_state hsync).1.2.1
    unfold keepPin
    cases hpin : w.chainPin with
    | none => exact hcrossed.trans hpin
    | some pin => rfl
  | rebuilt hblock hsync => exact (adopt_wallet _ _).2.1.trans (syncOnChain_state hsync).1.2.1
  | rescanned hrun => rfl
  | watched coins => rfl
  | forgot coins => rfl

/-- An edit keeps the pin. -/
theorem Step.edit_pin [∀ v, DecidableEq (P v)] {m m' : Machine Z D P} {edit : Edit}
    {s s' : State Z D P} (h : Step L st m (.edit edit) m') (hs : m.memory = some s)
    (hs' : m'.memory = some s') : s'.2.chainPin = s.2.chainPin := by
  cases h with
  | @edited s₀ s₁ _ changed saved d d' hrun hsave =>
    cases hs
    cases hs'
    have hpersist := congrArg (fun x => x.2.chainPin) (persist_stored s₁ changed saved)
    exact hpersist.trans (Edit.run_ok hrun).chainPin

theorem Step.sync_ok [∀ v, DecidableEq (P v)] {m m' : Machine Z D P}
    {block : Except WalletError Block} {s : State Z D P}
    (h : Step L st m (.sync sync block around) m') (hs : m'.memory = some s) :
    (syncOnce L st m.dir sync block around).2 = some (.ok s) := by
  cases h with
  | unsynced hwrites hsaves => cases hs
  | synced hresult hcheckpoints hsave =>
    cases hs
    rw [hresult]
  | syncedInMemory hresult =>
    cases hs
    rw [hresult]

end Pins

section Naming

variable {L : Ledgers Z D E P} {st : Store Z D} {C : Type} {blocksAt : C → ℕ → List BlockHash}
  {c : C} {sync : SyncOptions}

/-- The pin names the chain of the events, unless a rebuild found that chain
gone. -/
def PinOk (blocksAt : C → ℕ → List BlockHash) (o : Origin C) (pin : Option ChainPin) : Prop :=
  o.gone = false → ∀ p, pin = some p → ∃ c, Owned c o ∧ Names blocksAt p c

structure Pinned (blocksAt : C → ℕ → List BlockHash) (st : Store Z D) (w : Traced Z D P C) :
    Prop where
  memory : ∀ s, w.machine.memory = some s → PinOk blocksAt w.memory s.2.chainPin
  disk : ∀ x, Loads st w.machine.dir (some x) → PinOk blocksAt w.disk x.2.chainPin

/-- The fresh pin of a sync names the chain that the indexer serves, and so does
the pin of a snapshot that the sync resumes from. -/
structure Ready (blocksAt : C → ℕ → List BlockHash) (st : Store Z D) (sync : SyncOptions) (c : C)
    (w : Traced Z D P C) : Prop where
  fresh : ∀ p, sync.chainPin = some p → Names blocksAt p c
  found : ∀ x, Loads st w.machine.dir (some x) → sync.hasStorage = true →
    discardUnpinnedSnapshot sync.chainPin.isSome x.2.chainPin.isSome = false →
    w.disk.gone = false → ∀ p, sync.chainPin.or x.2.chainPin = some p →
      Owned c w.disk ∧ Names blocksAt p c

theorem Owned.more {o : Origin C} (h : Owned c o) : Owned c (o.more c) := by
  refine ⟨List.mem_cons_self, fun c' hc' => ?_⟩
  rcases List.mem_cons.mp hc' with rfl | hc'
  · rfl
  · exact h.2 c' hc'

theorem owned_singleton (gone : Bool) : Owned c (⟨[c], gone⟩ : Origin C) :=
  ⟨List.mem_singleton_self c, fun _ hc' => List.mem_singleton.mp hc'⟩

/-- All that one attempt writes and returns carries one pin, which names the
chain of its events. -/
theorem Ready.attempt {w : Traced Z D P C} (h : Ready blocksAt st sync c w)
    (block : Except WalletError Block) (around : Surroundings) :
    ∃ pin, (∀ x ∈ (syncOnce L st w.machine.dir sync block around).1, x.2.chainPin = pin ∧
        ∀ p, sync.chainPin = some p → pin = some p) ∧
      (∀ s, (syncOnce L st w.machine.dir sync block around).2 = some (.ok s) →
        s.2.chainPin = pin) ∧
      ((Origin.synced c w.disk (foundSnapshot L st w.machine.dir sync block)).gone = false →
        ∀ p, pin = some p →
          Owned c (Origin.synced c w.disk (foundSnapshot L st w.machine.dir sync block)) ∧
            Names blocksAt p c) := by
  rcases syncOnce_cases L st w.machine.dir sync block around with
    ⟨e, he⟩ | ⟨b, ⟨hnone, hfresh⟩ | ⟨x, hsome, hresume⟩⟩
  · rw [he]
    exact ⟨none, fun x hx => (by cases hx), fun s hs => (by cases hs),
      fun _ p hp => (by cases hp)⟩
  · rw [hfresh, hnone]
    refine ⟨sync.chainPin, fun x hx => ⟨syncOnChain_pins hx, fun p hp => hp⟩,
      fun s hs => (syncOnChain_state hs).1.2.1, fun _ p hp => ⟨owned_singleton _, h.fresh p hp⟩⟩
  · obtain ⟨hstorage, ⟨chain, hload⟩, hdiscard⟩ := foundSnapshot_some hsome
    rw [hresume, hsome]
    refine ⟨sync.chainPin.or x.2.chainPin, fun y hy => ⟨syncOnChain_pins hy, fun p hp => ?_⟩,
      fun s hs => (syncOnChain_state hs).1.2.1, fun hgone p hp => ?_⟩
    · rw [hp]
      rfl
    · obtain ⟨howned, hnames⟩ :=
        h.found x (loads_of_loadSnapshot hload) hstorage hdiscard hgone p hp
      exact ⟨howned.more, hnames⟩

/-- After an attempt, the next one is as ready. -/
theorem Attempt.pinned [∀ v, DecidableEq (P v)] {w w' : Traced Z D P C}
    (h : Attempt L st sync c w w') (hready : Ready blocksAt st sync c w)
    (hpinned : Pinned blocksAt st w) :
    Pinned blocksAt st w' ∧ Ready blocksAt st sync c w' := by
  obtain ⟨block, around, hstep, hmemory, hdisk⟩ := h
  obtain ⟨pin, hwritten, hresult, hok⟩ := hready.attempt (L := L) block around
  rw [← hmemory] at hok
  refine ⟨⟨fun s hs hgone p hp => ?_, fun x hx hgone p hp => ?_⟩, hready.fresh,
    fun x hx hstorage hdiscard hgone p hp => ?_⟩
  · rw [hresult s (hstep.sync_ok hs)] at hp
    exact ⟨c, hok hgone p hp⟩
  · rcases hdisk with ⟨hold, hloads⟩ | ⟨hnew, y, hy, hloads⟩
    · rw [hold] at hgone ⊢
      exact hpinned.disk x (hloads x hx) hgone p hp
    · rw [hnew] at hgone ⊢
      rw [hx.unique hloads, (hwritten y hy).1] at hp
      exact ⟨c, hok hgone p hp⟩
  · rcases hdisk with ⟨hold, hloads⟩ | ⟨hnew, y, hy, hloads⟩
    · rw [hold] at hgone ⊢
      exact hready.found x (hloads x hx) hstorage hdiscard hgone p hp
    · rw [hnew] at hgone ⊢
      rw [hx.unique hloads, (hwritten y hy).1] at hp
      refine hok hgone p ?_
      cases hsync : sync.chainPin with
      | none => simpa [hsync] using hp
      | some q =>
        rw [hsync] at hp
        cases hp
        exact (hwritten y hy).2 p hsync

/-- An edit after which the pin names the chain of the events. -/
theorem Edits.pinned [∀ v, DecidableEq (P v)] {w w' : Traced Z D P C} {edit : Edit}
    {new : Origin C} (h : Edits L st edit new w w') (hpinned : Pinned blocksAt st w)
    (hnew : ∀ s, w.machine.memory = some s → PinOk blocksAt new s.2.chainPin) :
    Pinned blocksAt st w' := by
  obtain ⟨s, s', hs, hs', hstep, hmemory, hdisk⟩ := h
  have hpin := hstep.edit_pin hs hs'
  have hok := hnew s hs
  rw [← hpin] at hok
  refine ⟨fun x hx => ?_, fun x hx => ?_⟩
  · rw [hs'] at hx
    cases hx
    rw [hmemory]
    exact hok
  · rcases hdisk with ⟨hold, hloads⟩ | ⟨hafter, y, rfl, hloads⟩
    · rw [hold]
      exact hpinned.disk x (hloads x hx)
    · rw [hafter, hx.unique hloads]
      exact hok

end Naming

section Steadiness

variable {L : Ledgers Z D E P} {st : Store Z D} {C : Type} (blocksAt : C → ℕ → List BlockHash)

/-- The node answered for the pinned block. -/
def Answered (view : ChainView) (pin : ChainPin) : Prop := view.blockHashesAt pin.height ≠ none

/-- A call during which no chain is replaced, and which can check the pin unless
the wallet is on its own chain. -/
def Steady (st : Store Z D) (w : Traced Z D P C) : Call C → Prop
  | .open hasStorage pin pinning checking c =>
    pinning.Shows blocksAt c ∧ checking.Shows blocksAt c ∧
      ∀ x p, hasStorage = true → Loads st w.machine.dir (some x) → x.2.chainPin = some p →
        pin = true ∧ Answered checking p ∨ Owned c w.disk
  | .resync _ pinning checking c =>
    pinning.Shows blocksAt c ∧ checking.Shows blocksAt c ∧
      ∀ s p, w.machine.memory = some s → s.2.chainPin = some p →
        Answered checking p ∨ Owned c w.memory
  | .rescan checking again c =>
    checking.Shows blocksAt c ∧ again.1.Shows blocksAt c ∧ again.2.Shows blocksAt c ∧
      ∀ s p, w.machine.memory = some s → s.2.chainPin = some p →
        Answered checking p ∧ Answered again.2 p ∨ Owned c w.memory
  | _ => True

variable {blocksAt} {c : C} {w w' : Traced Z D P C}

/-- A pin that the check passes names the chain in front of the wallet. -/
theorem PinOk.checked (hapart : Apart blocksAt) {o : Origin C} {p : ChainPin}
    (hok : PinOk blocksAt o (some p)) (hgone : o.gone = false) {checking : ChainView}
    (hshows : checking.Shows blocksAt c) {snapshot : Option String}
    (hcheck : requireSameChain checking p snapshot = .ok ())
    (hanswered : Answered checking p ∨ Owned c o) : Owned c o ∧ Names blocksAt p c := by
  obtain ⟨c₀, howned, hnames⟩ := hok hgone p rfl
  have hsame : c₀ = c := by
    rcases hanswered with hanswered | hown
    · rcases requireSameChain_ok hcheck with hverify | hunknown
      · exact hnames.unique hapart (names_of_verifyPin hshows hverify)
      · exact absurd hunknown hanswered
    · exact hown.2 c₀ howned.1
  subst hsame
  exact ⟨howned, hnames⟩

/-- A sync that has passed its checks is ready. -/
theorem prepare_ready (hapart : Apart blocksAt) (hpinned : Pinned blocksAt st w)
    {hasStorage pin : Bool} {pinning checking : ChainView} {sync : SyncOptions}
    (hsteady : Steady blocksAt st w (.open hasStorage pin pinning checking c))
    (h : prepare st w.machine.dir hasStorage pin pinning checking = .ok sync) :
    Ready blocksAt st sync c w := by
  obtain ⟨hpinning, hchecking, hchecked⟩ := hsteady
  unfold prepare at h
  by_cases hpin : pin = true
  · rw [if_pos hpin] at h
    -- The fresh pin is the candidate, and the stored pin has passed the check.
    have hsync : sync = ⟨hasStorage, true, currentPin pinning⟩ ∧
        ∀ p, hasStorage = true → st.loadChainPin w.machine.dir = .ok (some p) →
          requireSameChain checking p (some st.path) = .ok () := by
      by_cases hstorage : hasStorage = true
      · rw [if_pos hstorage] at h
        rcases hload : st.loadChainPin w.machine.dir with e | _ | stored
        · rw [hload] at h
          cases h
        · rw [hload] at h
          cases h
          exact ⟨by rw [hstorage], fun p _ hp => by cases hp⟩
        · rw [hload] at h
          simp only at h
          rcases hrequire : requireSameChain checking stored (some st.path) with e | ⟨⟩
          · rw [hrequire] at h
            cases h
          · rw [hrequire] at h
            cases h
            refine ⟨by rw [hstorage], fun p _ hp => ?_⟩
            cases hp
            exact hrequire
      · rw [if_neg hstorage] at h
        cases h
        exact ⟨by simpa using hstorage, fun p htrue => absurd htrue hstorage⟩
    obtain ⟨rfl, hrequire⟩ := hsync
    refine ⟨fun p hp => names_currentPin hpinning hp, fun x hx hstorage hdiscard hgone p hp => ?_⟩
    cases hstored : x.2.chainPin with
    | none =>
      -- With a fresh pin, the unpinned snapshot is discarded.
      simp only [hstored, Option.or_none] at hp
      simp only [hstored, hp] at hdiscard
      cases hdiscard
    | some stored =>
      have hchainPin := hx.loadChainPin
      rw [hstored] at hchainPin
      have hok := hpinned.disk x hx
      rw [hstored] at hok
      obtain ⟨howned, hnames⟩ := hok.checked hapart hgone hchecking
        (hrequire stored hstorage hchainPin)
        ((hchecked x stored hstorage hx hstored).imp_left And.right)
      refine ⟨howned, ?_⟩
      cases hfresh : currentPin pinning with
      | none =>
        simp only [hfresh, hstored, Option.none_or, Option.some.injEq] at hp
        exact hp ▸ hnames
      | some fresh =>
        simp only [hfresh, Option.some_or, Option.some.injEq] at hp
        exact hp ▸ names_currentPin hpinning hfresh
  · rw [if_neg hpin] at h
    cases h
    refine ⟨fun p hp => (by cases hp), fun x hx hstorage hdiscard hgone p hp => ?_⟩
    simp only [Option.none_or] at hp
    have hok := hpinned.disk x hx hgone p hp
    obtain ⟨c₀, howned, hnames⟩ := hok
    rcases hchecked x p hstorage hx hp with ⟨htrue, -⟩ | hown
    · exact absurd htrue hpin
    · rw [← hown.2 c₀ howned.1]
      exact ⟨howned, hnames⟩

/-- What a resync's check tells of the state that it replays. -/
theorem resyncCheck_origin (hapart : Apart blocksAt) {s : State Z D P} {o : Origin C}
    (hok : PinOk blocksAt o s.2.chainPin) {depth : ResyncDepth} {pinning checking : ChainView}
    {replacement : Option ChainPin} (hshows : checking.Shows blocksAt c)
    (hanswered : ∀ p, s.2.chainPin = some p → Answered checking p ∨ Owned c o)
    (h : resyncCheck st s depth pinning checking = .ok replacement) :
    PinOk blocksAt (depth.origin c o (foundGone s checking)) s.2.chainPin ∧
      ∀ fresh, replacement = some fresh → currentPin pinning = some fresh ∧
        (Names blocksAt fresh c → PinOk blocksAt (depth.repinned c o) (some fresh)) := by
  unfold resyncCheck at h
  cases hpin : s.2.chainPin with
  | none =>
    rw [hpin] at h
    cases h
    exact ⟨fun _ p hp => (by cases hp), fun fresh hfresh => (by cases hfresh)⟩
  | some pin =>
    rw [hpin] at h hok
    simp only at h
    have hrepinned : ∀ fresh, Names blocksAt fresh c →
        PinOk blocksAt (⟨[c], false⟩ : Origin C) (some fresh) := by
      intro fresh hnames _ p hp
      cases hp
      exact ⟨c, owned_singleton _, hnames⟩
    have hgone : foundGone s checking = false ↔
        requireSameChain checking pin (snapshotDir st s) = .ok () := by
      unfold foundGone requireSameChain
      simp only [hpin]
      cases hverify : verifyPin checking pin <;> simp
    have hchecked : requireSameChain checking pin (snapshotDir st s) = .ok () →
        o.gone = false → Owned c o ∧ Names blocksAt pin c := fun hrequire hfalse =>
      hok.checked hapart hfalse hshows hrequire (hanswered pin hpin)
    rcases hrequire : requireSameChain checking pin (snapshotDir st s) with e | ⟨⟩
    · -- Only a rebuild goes on, and its state is marked.
      cases depth with
      | delta =>
        rw [hrequire] at h
        simp only at h
        cases h
      | genesis =>
        have htrue : foundGone s checking = true := by
          rw [← Bool.not_eq_false, hgone, hrequire]
          simp
        rw [hrequire] at h
        refine ⟨fun hfalse => ?_, fun fresh hfresh => ?_⟩
        · simp [ResyncDepth.origin, htrue] at hfalse
        · split at h
          · cases h
            exact ⟨hfresh, hrepinned fresh⟩
          · cases h
          · rename_i heq
            cases heq
    · rw [hrequire] at h
      have hreplacement : replacement = currentPin pinning := by
        cases depth <;> exact (Except.ok.inj h).symm
      subst hreplacement
      cases depth with
      | delta =>
        refine ⟨fun hfalse p hp => ?_, fun fresh hfresh => ⟨hfresh, fun hnames hfalse p hp => ?_⟩⟩
        · cases hp
          exact ⟨c, (hchecked hrequire hfalse).1.more, (hchecked hrequire hfalse).2⟩
        · cases hp
          exact ⟨c, (hchecked hrequire hfalse).1.more, hnames⟩
      | genesis =>
        refine ⟨fun hfalse p hp => ?_, fun fresh hfresh => ⟨hfresh, hrepinned fresh⟩⟩
        cases hp
        exact ⟨c, owned_singleton _,
          (hchecked hrequire (Bool.or_eq_false_iff.mp hfalse).1).2⟩

theorem Resync.pinned [∀ v, DecidableEq (P v)] (hapart : Apart blocksAt) {depth : ResyncDepth}
    {pinning checking : ChainView} (h : Resync L st depth pinning checking c w w')
    (hpinned : Pinned blocksAt st w) (hpinning : pinning.Shows blocksAt c)
    (hchecking : checking.Shows blocksAt c)
    (hanswered : ∀ s p, w.machine.memory = some s → s.2.chainPin = some p →
      Answered checking p ∨ Owned c w.memory) : Pinned blocksAt st w' := by
  cases h with
  | @committed _ s replacement around hmemory hcheck hedit =>
    refine hedit.pinned hpinned (fun s' hs' => ?_)
    rw [hmemory] at hs'
    cases hs'
    exact (resyncCheck_origin hapart (hpinned.memory s hmemory) hchecking
      (fun p => hanswered s p hmemory) hcheck).1
  | @repinned w₁ m s fresh around hmemory hcheck hedit hpin =>
    obtain ⟨horigin, hfresh⟩ := resyncCheck_origin hapart (hpinned.memory s hmemory) hchecking
      (fun p => hanswered s p hmemory) hcheck
    have hedited := hedit.pinned hpinned (fun s' hs' => by
      rw [hmemory] at hs'
      cases hs'
      exact horigin)
    obtain ⟨hcurrent, hrepinned⟩ := hfresh fresh rfl
    have hdisk := hedited.disk
    obtain ⟨machine, memory, disk⟩ := w₁
    cases hpin with
    | @pinned s₁ d pin =>
      refine ⟨fun x hx => ?_, hdisk⟩
      cases hx
      exact hrepinned (names_currentPin hpinning hcurrent)

theorem rescanCheck_origin (hapart : Apart blocksAt) {s : State Z D P} {o : Origin C}
    (hok : PinOk blocksAt o s.2.chainPin) {checking : ChainView}
    (hshows : checking.Shows blocksAt c)
    (hanswered : ∀ p, s.2.chainPin = some p → Answered checking p ∨ Owned c o)
    (h : rescanCheck st s checking = .ok ()) : PinOk blocksAt (o.more c) s.2.chainPin := by
  intro hgone p hp
  unfold rescanCheck at h
  rw [hp] at h hok
  obtain ⟨howned, hnames⟩ := hok.checked hapart hgone hshows h (hanswered p hp)
  exact ⟨c, howned.more, hnames⟩

/-- After a resync that the indexer served from `c`, the state holds events of
that chain. -/
theorem Resync.served [∀ v, DecidableEq (P v)] {depth : ResyncDepth}
    {pinning checking : ChainView} (h : Resync L st depth pinning checking c w w') :
    c ∈ w'.memory.chains := by
  cases h with
  | committed hmemory hcheck hedit =>
    obtain ⟨s, s', -, -, -, hnew, -⟩ := hedit
    rw [hnew]
    cases depth <;> exact List.mem_cons_self
  | repinned hmemory hcheck hedit hpin => cases depth <;> exact List.mem_cons_self

/-- A call keeps the pins. -/
theorem Calls.pinned [∀ v, DecidableEq (P v)] (hapart : Apart blocksAt) {call : Call C}
    (h : Calls L st w call w') (hpinned : Pinned blocksAt st w)
    (hsteady : Steady blocksAt st w call) : Pinned blocksAt st w' := by
  cases h with
  | opened hprepare hattempt =>
    exact (hattempt.pinned (prepare_ready hapart hpinned hsteady hprepare) hpinned).1
  | reopened hprepare hfirst hagain =>
    obtain ⟨hpinned', hready⟩ :=
      hfirst.pinned (prepare_ready hapart hpinned hsteady hprepare) hpinned
    exact (hagain.pinned hready hpinned').1
  | resynced hresync => exact hresync.pinned hapart hpinned hsteady.1 hsteady.2.1 hsteady.2.2
  | @rescanned _ checking again c s around hmemory hcheck hedit =>
    obtain ⟨hchecking, -, -, hanswered⟩ := hsteady
    refine hedit.pinned hpinned (fun s' hs' => ?_)
    rw [hmemory] at hs'
    cases hs'
    exact rescanCheck_origin hapart (hpinned.memory s hmemory) hchecking
      (fun p hp => (hanswered s p hmemory hp).imp_left And.left) hcheck
  | @crossed w₁ _ checking again c s around hmemory hcheck hresync hedit =>
    obtain ⟨hchecking, hpinning, hagain, hanswered⟩ := hsteady
    have hpinned' := hresync.pinned hapart hpinned hpinning hagain
      (fun s p hs hp => (hanswered s p hs hp).imp_left And.right)
    refine hedit.pinned hpinned' (fun s' hs' hgone p hp => ?_)
    -- The resync has put its chain among those of the state.
    obtain ⟨c₀, howned, hnames⟩ := hpinned'.memory s' hs' hgone p hp
    obtain rfl := howned.2 c hresync.served
    exact ⟨c, howned.more, hnames⟩
  | watched coins hedit => exact hedit.pinned hpinned hpinned.memory
  | forgot coins hedit => exact hedit.pinned hpinned hpinned.memory
  | reserved hstep =>
    obtain ⟨machine, memory, disk⟩ := w
    cases hstep with
    | @reserved s d pending saved =>
      have hok := hpinned.memory s rfl
      refine ⟨fun x hx => ?_, hpinned.disk⟩
      cases hx
      exact hok
  | saved hmemory hstep hdisk =>
    obtain ⟨machine, memory, disk⟩ := w
    cases hstep with
    | saved hsave =>
      refine ⟨hpinned.memory, fun x hx => ?_⟩
      rcases hdisk with ⟨rfl, hloads⟩ | ⟨rfl, y, rfl, hloads⟩
      · exact hpinned.disk x (hloads x hx)
      · rw [hx.unique hloads]
        exact hpinned.memory _ hmemory
  | stopped => exact ⟨fun s hs => (by cases hs), hpinned.disk⟩

/-- In every life in which each call is steady, the pin on disk names the chain
that the stored state was replayed from, unless a rebuild has found that chain
gone and no fresh pin was saved since. A node that answers from its whole chain
is refused exactly when it runs another chain. -/
theorem pin_names_chain [∀ v, DecidableEq (P v)] (hapart : Apart blocksAt)
    (hlives : Lives L st (Steady blocksAt st) w) {x : Stored Z D}
    (hx : Loads st w.machine.dir (some x)) {pin : ChainPin} (hpin : x.2.chainPin = some pin)
    (hgone : w.disk.gone = false) :
    (∀ c ∈ w.disk.chains, Names blocksAt pin c) ∧
      ∀ view c, view.blockHashesAt pin.height = some (blocksAt c pin.height) →
        (requireSameChain view pin (some st.path) = .ok () ↔ c ∈ w.disk.chains) := by
  have hpinned : Pinned blocksAt st w := by
    clear hx hgone
    induction hlives with
    | start hnone memory disk => exact ⟨fun s hs => (by cases hs), fun x hx => absurd hx (hnone x)⟩
    | call hlives hallowed hcall ih => exact hcall.pinned hapart ih hallowed
  obtain ⟨c₀, howned, hnames⟩ := hpinned.disk x hx hgone pin hpin
  have hall : ∀ c ∈ w.disk.chains, Names blocksAt pin c := fun c hc => (howned.2 c hc).symm ▸ hnames
  refine ⟨hall, fun view c hview => ?_⟩
  rw [requireSameChain_names hview]
  exact ⟨fun hc => hc.unique hapart hnames ▸ howned.1, hall c⟩

end Steadiness

section TwoChains

/-- Two chains of one block at each height. -/
def twoChains (b : Bool) (_ : ℕ) : List BlockHash :=
  [⟨List.replicate 32 (if b then 1 else 2), by rw [List.length_replicate]⟩]

theorem twoChains_apart : Apart twoChains := by
  intro a b height hash ha hb
  rw [List.mem_singleton.mp ha] at hb
  cases a <;> cases b <;> simp_all [twoChains]

/-- A node that runs a chain and has finalized its fifth block. -/
def answering (b : Bool) : ChainView := ⟨fun height => some (twoChains b height), some 5⟩

theorem answering_shows (b : Bool) : (answering b).Shows twoChains b := by
  intro height hashes h
  cases h
  exact List.Subset.refl _

def silent : ChainView := ⟨fun _ => none, none⟩

def pinnedWallet : Wallet (fun _ => ℕ) (fun _ => ℕ) (fun _ => Unit) .V8 :=
  { quietWallet with chainPin := currentPin (answering true) }

theorem pinned_sync : syncOnce countingLedgers numberedStore ⟨false, fun _ => none⟩
    ⟨true, true, currentPin (answering true)⟩ (.ok quietChain.block) (quietChain.serveAll none) =
      ([] ++ [State.stored ⟨.V8, pinnedWallet⟩], some (.ok ⟨.V8, pinnedWallet⟩)) := rfl

/-- The wallet with an event of another chain. -/
def mixedWallet : Wallet (fun _ => ℕ) (fun _ => ℕ) (fun _ => Unit) .V8 :=
  { pinnedWallet with zswapState := 1, zswapEventId := 1 }

theorem mixed_found {d : Dir FileName}
    (hloads : Loads numberedStore d (some (State.stored ⟨.V8, pinnedWallet⟩))) :
    foundSnapshot countingLedgers numberedStore d ⟨true, true, none⟩ (.ok oneEvent.block) =
      some (State.stored ⟨.V8, pinnedWallet⟩) := by
  have hload := hloads.loadSnapshot (le_refl LedgerVersion.V8)
  have hledger : ledgerOf countingLedgers oneEvent.block = .ok .V8 := rfl
  unfold foundSnapshot
  simp only [hledger, if_true, hload]
  rfl

theorem mixed_sync {d : Dir FileName}
    (hloads : Loads numberedStore d (some (State.stored ⟨.V8, pinnedWallet⟩))) :
    syncOnce countingLedgers numberedStore d ⟨true, true, none⟩ (.ok oneEvent.block)
        (oneEvent.serveAll none) =
      ([] ++ [State.stored ⟨.V8, mixedWallet⟩], some (.ok ⟨.V8, mixedWallet⟩)) := by
  have hload := hloads.loadSnapshot (le_refl LedgerVersion.V8)
  have hledger : ledgerOf countingLedgers oneEvent.block = .ok .V8 := rfl
  unfold syncOnce
  simp only [hledger, if_true, hload]
  rfl

/-- A first sync that saves what it returns. -/
theorem attempt_saved {d : Dir FileName} {sync : SyncOptions} {block : Block}
    {around : Surroundings} {s : State (fun _ => ℕ) (fun _ => ℕ) (fun _ => Unit)}
    (memory disk : Origin Bool) (c : Bool)
    (h : syncOnce countingLedgers numberedStore d sync (.ok block) around =
      ([] ++ [s.stored], some (.ok s))) :
    ∃ d', Loads numberedStore d' (some s.stored) ∧
      Attempt countingLedgers numberedStore sync c ⟨⟨none, d⟩, memory, disk⟩
        ⟨⟨some s, d'⟩,
          .synced c disk (foundSnapshot countingLedgers numberedStore d sync (.ok block)),
          .synced c disk (foundSnapshot countingLedgers numberedStore d sync (.ok block))⟩ := by
  obtain ⟨d', hsave⟩ := numberedStore.exists_saves d s.stored
  have hloads := hsave.loads_ok numberedStore_lawful
  refine ⟨d', hloads, .ok block, around, .synced h (.nil _) hsave, rfl, Or.inr ⟨rfl, _, ?_, hloads⟩⟩
  rw [h]
  exact List.mem_singleton_self _

/-- A first sync on the first chain. -/
theorem pinned_life : ∃ d, Loads numberedStore d (some (State.stored ⟨.V8, pinnedWallet⟩)) ∧
    Lives countingLedgers numberedStore (Steady twoChains numberedStore)
      ⟨⟨some ⟨.V8, pinnedWallet⟩, d⟩, ⟨[true], false⟩, ⟨[true], false⟩⟩ := by
  obtain ⟨d, hloads, hattempt⟩ := attempt_saved ⟨[], false⟩ ⟨[], false⟩ true pinned_sync
  have hnone : ∀ x, ¬Loads numberedStore ⟨false, fun _ => none⟩ (some x) := by
    intro x hx
    cases hx.1
  have hprepare : prepare numberedStore ⟨false, fun _ => none⟩ true true (answering true)
      (answering true) = .ok ⟨true, true, currentPin (answering true)⟩ := rfl
  refine ⟨d, hloads, .call (.start hnone ⟨[], false⟩ ⟨[], false⟩) ?_ (.opened hprepare hattempt)⟩
  exact ⟨answering_shows true, answering_shows true, fun x p _ hx => absurd hx (hnone x)⟩

/-- The saved pin names the chain, and the restart is refused on the other one
alone. -/
theorem pin_names_chain_first : ∃ pin, currentPin (answering true) = some pin ∧
    (∀ c ∈ [true], Names twoChains pin c) ∧
      ∀ view c, view.blockHashesAt pin.height = some (twoChains c pin.height) →
        (requireSameChain view pin (some "wallet") = .ok () ↔ c ∈ [true]) := by
  obtain ⟨d, hloads, hlives⟩ := pinned_life
  exact ⟨_, rfl, pin_names_chain twoChains_apart hlives hloads rfl rfl⟩

/-- A node that cannot answer for the pinned block leaves the wallet to a chain
that its pin does not name. -/
theorem pin_names_other_chain : ∃ (w : Traced _ _ _ Bool) (x : Stored _ _) (pin : ChainPin),
    Lives countingLedgers numberedStore (fun _ _ => True) w ∧
      Loads numberedStore w.machine.dir (some x) ∧ x.2.chainPin = some pin ∧
      w.disk.gone = false ∧ ∃ c ∈ w.disk.chains, ¬Names twoChains pin c := by
  obtain ⟨d, hloads, hlives⟩ := pinned_life
  obtain ⟨d', hloads', hattempt⟩ :=
    attempt_saved ⟨[true], false⟩ ⟨[true], false⟩ false (mixed_sync hloads)
  have hprepare : prepare numberedStore d true true silent silent = .ok ⟨true, true, none⟩ := by
    unfold prepare
    rw [hloads.loadChainPin]
    rfl
  rw [mixed_found hloads] at hattempt
  have hany : Lives countingLedgers numberedStore (fun _ _ => True) _ :=
    hlives.mono fun _ _ _ => trivial
  have hlast := (hany.call trivial .stopped).call trivial (.opened hprepare hattempt)
  refine ⟨_, _, _, hlast, hloads', rfl, rfl, false, List.mem_cons_self, ?_⟩
  rintro hnames
  obtain ⟨hash, hhash, heq⟩ := names_iff.mp hnames
  have hsame := pinHash_inj heq
  rw [List.mem_singleton.mp hhash] at hsame
  cases hsame

end TwoChains

end MidnightRs.ChainSync
