import MidnightRs.SplitRuns
import Mathlib.Logic.Relation

/-!
Batches and checkpoints of a sync. Whatever the size of a batch and wherever
the sync breaks off, a snapshot that it writes and the wallet that it returns
hold what their streams give one by one up to the cursors beside them.
-/
namespace MidnightRs.ChainSync

open Streams Replay LedgerReplays Storage Reservations Utxos Unshielded

variable {Z D E P : LedgerVersion → Type} {L : Ledgers Z D E P}

section OneSync

variable {c : Chain} {start : Start Z D} {around : Surroundings} {sync : SyncOptions} {size : ℕ}

/-- The events that a replay from `startId` has taken when its cursor is `last`. -/
def taken (startId last : ℤ) (es : List LedgerEvent) : List LedgerEvent :=
  startingAt LedgerEvent.id (lastAppliedBefore startId + 1) (upTo LedgerEvent.id last es)

/-- What a sync from `start` holds, with the events up to its cursors taken one
by one. -/
structure Taken (L : Ledgers Z D E P) (c : Chain) (start : Start Z D) (s : Stored Z D) :
    Prop where
  ledger : ledgerOf L c.block = .ok s.1
  zswap : crossTo L s.1 start.zswap (lastAppliedBefore start.zswapId)
    (taken start.zswapId s.2.zswapEventId c.zswap) = .ok (s.2.zswapState, s.2.zswapEventId)
  dust : ∃ parameters, decodeLedgerParameters L s.1 c.block = .ok parameters ∧
    dustPlayed L s.1 (startWallet L parameters (dustStart s.1 start.dustId start.dust))
        (lastAppliedBefore start.dustId) (taken start.dustId s.2.dustEventId c.dust) =
      .ok (s.2.dustWallet, ⟨s.2.dustEventId, none⟩)
  /-- A sync takes the shielded stream whole. -/
  whole : ∀ e ∈ c.zswap, e.id ≤ s.2.zswapEventId

/-- Every start has its place in the streams. -/
theorem Resumes.exists {Ev : Type} {id : Ev → ℤ} {es : List Ev} (hasc : Ascending id es)
    (hpos : ∀ e ∈ es, 1 ≤ id e) (startId : ℤ) : ∃ done todo, Resumes id startId es done todo := by
  obtain ⟨hsplit, hcut⟩ := hasc.cut (lastAppliedBefore startId)
  refine ⟨_, _, hsplit, hcut, ?_⟩
  by_cases hstart : 0 < startId
  · exact Or.inr hstart
  · refine Or.inl (List.filter_eq_nil_iff.mpr (fun e he => ?_))
    have := hpos e he
    unfold lastAppliedBefore
    simp only [decide_eq_true_eq]
    omega

theorem Position.exists (hc : c.WellFormed) (start : Start Z D) :
    ∃ zswap dust txs, Position c start zswap dust txs := by
  obtain ⟨zdone, zswap, hz⟩ := Resumes.exists hc.zswap.1 hc.zswap.2 start.zswapId
  obtain ⟨ddone, dust, hd⟩ := Resumes.exists hc.dust.1 hc.dust.2 start.dustId
  obtain ⟨tdone, txs, ht⟩ := Resumes.exists hc.txs.1 hc.txs.2 start.txId
  exact ⟨zswap, dust, txs, ⟨zdone, hz⟩, ⟨ddone, hd⟩, ⟨tdone, ht⟩⟩

/-- The first events to do are those that a cursor at the last of them has taken. -/
theorem Resumes.taken {startId : ℤ} {es done early late : List LedgerEvent}
    (h : Resumes LedgerEvent.id startId es done (early ++ late))
    (hasc : Ascending LedgerEvent.id es) :
    ChainSync.taken startId (lastId LedgerEvent.id (lastAppliedBefore startId) early) es = early := by
  have hsplit : (done ++ early) ++ late = es := by rw [List.append_assoc, h.split]
  have hlater := h.cut.later (h.split ▸ hasc).append_right
  have hupTo := hlater.upTo_eq
  rw [hsplit] at hupTo
  unfold ChainSync.taken
  rw [hupTo]
  refine Cut.startingAt_succ ⟨h.cut.le, fun e he => h.cut.gt e (List.mem_append_left _ he)⟩

/-- What playing the streams up to some Dust event holds. -/
theorem taken_of_playFrom (hc : c.WellFormed) {zswap dust early late : List LedgerEvent}
    {txs : List UnshieldedTxData} (hat : Position c start zswap dust txs)
    (hdust : early ++ late = dust) {s : Stored Z D}
    (h : playFrom L c.block start zswap early txs = .ok (unpinned s)) : Taken L c start s := by
  obtain ⟨v, hledger, h⟩ := bind_eq_ok.mp h
  obtain ⟨⟨z, zlast⟩, hzswap, h⟩ := bind_eq_ok.mp h
  obtain ⟨tracked, -, h⟩ := bind_eq_ok.mp h
  obtain ⟨parameters, hparameters, h⟩ := bind_eq_ok.mp h
  obtain ⟨time, -, h⟩ := bind_eq_ok.mp h
  obtain ⟨⟨wallet, ⟨dlast, later⟩⟩, hplayed, h⟩ := bind_eq_ok.mp h
  obtain ⟨u, hlater, h⟩ := bind_eq_ok.mp h
  obtain ⟨w, zswapState, dustWallet, zswapId, dustId, height, txId, pin, utxos⟩ := s
  cases h
  obtain rfl : later = none := dustPlayed_accepted hplayed hlater
  obtain ⟨zdone, hzat⟩ := hat.zswap
  obtain ⟨ddone, hdat⟩ := hat.dust
  obtain ⟨⟨shielded, last⟩, hfold, hinto⟩ := bind_eq_ok.mp hzswap
  obtain ⟨z', hz, hpair⟩ := bind_eq_ok.mp hinto
  cases hpair
  have hzlast : last = lastId LedgerEvent.id (lastAppliedBefore start.zswapId) zswap :=
    crossed_lastId hfold
  have hztaken := (show Resumes LedgerEvent.id start.zswapId c.zswap zdone (zswap ++ []) by
    rwa [List.append_nil]).taken hc.zswap.1
  rw [← hzlast] at hztaken
  have hdlast : dlast = lastId LedgerEvent.id (lastAppliedBefore start.dustId) early := by
    obtain ⟨⟨seen, r⟩, hplay, hout⟩ := bind_eq_ok.mp hplayed
    obtain rfl : r = ⟨dlast, none⟩ := (Prod.mk.inj (Except.ok.inj hout)).2
    exact (play_none hplay).1
  have hdtaken := (hdust ▸ hdat).taken hc.dust.1
  rw [← hdlast] at hdtaken
  refine ⟨hledger, ?_, ⟨parameters, hparameters, ?_⟩, fun e he => ?_⟩
  · simp only [hztaken]
    exact hzswap
  · simp only [hdtaken]
    exact hplayed
  · rw [← hzat.split] at he
    obtain ⟨hle, hall⟩ := (hzat.split ▸ hc.zswap.1).append_right.le_lastId hzat.cut.gt
    rw [← hzlast] at hle hall
    rcases List.mem_append.mp he with he | he
    · exact (hzat.cut.le e he).trans hle
    · exact hall e he

theorem syncOnChain_taken (hL : L.Lawful) (hc : c.WellFormed) (haround : c.Surrounds around)
    {s : Stored Z D} (hs : s ∈ (syncOnChain L sync c.block start around size).1 ∨
      ∃ out : State Z D P, (syncOnChain L sync c.block start around size).2 = some (.ok out) ∧
        out.stored = s) : Taken L c start s := by
  obtain ⟨zswap, dust, txs, hat⟩ := Position.exists hc start
  rcases hs with hs | ⟨out, hout, rfl⟩
  · obtain ⟨early, late, hsplit, hplay⟩ := syncOnChain_writes hL hc haround hat hs
    exact taken_of_playFrom hc hat hsplit hplay
  · exact taken_of_playFrom hc hat (List.append_nil _) (syncOnChain_ok hL hc haround hat hout)

end OneSync

section Growing

variable (L)

/-- `c'` is the chain `c` at some later time. -/
structure Grew (c c' : Chain) : Prop where
  wellFormed : c'.WellFormed
  ledger : ∃ v v', ledgerOf L c.block = .ok v ∧ ledgerOf L c'.block = .ok v' ∧ v ≤ v' ∧
    ∃ new, c.zswap ++ new = c'.zswap ∧ ∀ e ∈ new, NotBefore L v e
  dust : ∃ new, c.dust ++ new = c'.dust

/-- The shielded and the Dust state are what all events up to the cursors
beside them give one by one. The Dust state began with the parameters of the
chain at some earlier time. -/
structure InStep (c : Chain) (s : Stored Z D) : Prop where
  zswap : crossTo L s.1 ⟨.V8, L.newZswap .V8⟩ 0 (upTo LedgerEvent.id s.2.zswapEventId c.zswap) =
    .ok (s.2.zswapState, s.2.zswapEventId)
  dust : ∃ c₀ parameters, Relation.ReflTransGen (Grew L) c₀ c ∧
    decodeLedgerParameters L s.1 c₀.block = .ok parameters ∧
    dustPlayed L s.1 (L.newDust s.1 parameters) 0 (upTo LedgerEvent.id s.2.dustEventId c.dust) =
      .ok (s.2.dustWallet, ⟨s.2.dustEventId, none⟩)

/-- A sync starts from the snapshot that it finds, or from nothing. -/
def startOf : Option (Stored Z D) → Start Z D
  | none => freshStart L
  | some s => .resume s

/-- What the syncs of a growing chain find, with batches of whatever size: each
sync may break off after any of its checkpoints. -/
inductive Synced : Chain → Option (Stored Z D) → Prop
  | start {c : Chain} (hc : c.WellFormed) : Synced c none
  | grow {c c' : Chain} {found : Option (Stored Z D)} (h : Synced c found)
      (hgrew : Grew L c c') : Synced c' found
  | checkpoint {c : Chain} {found : Option (Stored Z D)} (h : Synced c found)
      (sync : SyncOptions) (around : Surroundings) (size : ℕ) (haround : c.Surrounds around)
      {s : Stored Z D}
      (hs : s ∈ (syncOnChain L sync c.block (startOf L found) around size).1) :
      Synced c (some s)
  | finished {c : Chain} {found : Option (Stored Z D)} (h : Synced c found)
      (sync : SyncOptions) (around : Surroundings) (size : ℕ) (haround : c.Surrounds around)
      {s : State Z D P}
      (hs : (syncOnChain L sync c.block (startOf L found) around size).2 = some (.ok s)) :
      Synced c (some s.stored)
  | discarded {c : Chain} {found : Option (Stored Z D)} (h : Synced c found) : Synced c none

variable {L}

/-- What a snapshot of a run is beside that: the events after its cursor are of
its generation or a later one. -/
structure Kept (L : Ledgers Z D E P) (c : Chain) (s : Stored Z D) : Prop extends InStep L c s where
  ledger : ∃ v, ledgerOf L c.block = .ok v ∧ s.1 ≤ v
  later : ∀ e ∈ c.zswap, s.2.zswapEventId < e.id → NotBefore L s.1 e

variable {c c' : Chain} {s : Stored Z D}

theorem crossTo_lastId {v : LedgerVersion} {z : ZswapState Z} {z' : Z v} {last last' : ℤ}
    {es : List LedgerEvent} (h : crossTo L v z last es = .ok (z', last')) :
    last' = lastId LedgerEvent.id last es := by
  obtain ⟨⟨shielded, last⟩, hfold, hinto⟩ := bind_eq_ok.mp h
  obtain ⟨z, -, hpair⟩ := bind_eq_ok.mp hinto
  cases hpair
  exact crossed_lastId hfold

theorem dustPlayed_lastId {v : LedgerVersion} {wallet wallet' : D v} {last last' : ℤ}
    {es : List LedgerEvent} (h : dustPlayed L v wallet last es = .ok (wallet', ⟨last', none⟩)) :
    last' = lastId LedgerEvent.id last es ∧
      ∀ e ∈ es, ∃ raw u, readEvent L.events "dust" e = .ok (raw, u) ∧ u ≤ v := by
  obtain ⟨⟨seen, r⟩, hplay, hout⟩ := bind_eq_ok.mp h
  obtain rfl : r = ⟨last', none⟩ := (Prod.mk.inj (Except.ok.inj hout)).2
  exact play_none hplay

/-- A cursor at an event of the stream, or at none, stays where it is when the
stream grows. -/
theorem upTo_grows {es new : List LedgerEvent} (hasc : Ascending LedgerEvent.id (es ++ new))
    (hpos : ∀ e ∈ es ++ new, 1 ≤ e.id) {last : ℤ}
    (hlast : last = lastId LedgerEvent.id 0 (upTo LedgerEvent.id last es)) :
    upTo LedgerEvent.id last (es ++ new) = upTo LedgerEvent.id last es ∧
      ∀ e ∈ new, last < e.id := by
  have hnew : ∀ e ∈ new, last < e.id := by
    intro e he
    have hone := hpos e (List.mem_append_right _ he)
    have hle : last ≤ e.id - 1 := by
      rw [hlast]
      refine lastId_le (fun x hx => ?_) (by omega)
      have hlt := (List.pairwise_append.mp hasc).2.2 x (List.mem_filter.mp hx).1 e he
      omega
    omega
  refine ⟨?_, hnew⟩
  have hnone : upTo LedgerEvent.id last new = [] :=
    List.filter_eq_nil_iff.mpr (fun e he => by simpa using hnew e he)
  unfold upTo at hnone ⊢
  rw [List.filter_append, hnone, List.append_nil]

theorem Kept.grow (h : Kept L c s) (hgrew : Grew L c c') : Kept L c' s := by
  have hc' := hgrew.wellFormed
  obtain ⟨v, v', hv, hv', hle, new, hnew, hnot⟩ := hgrew.ledger
  obtain ⟨dnew, hdnew⟩ := hgrew.dust
  obtain ⟨w, hw, hsw⟩ := h.ledger
  obtain rfl : w = v := Except.ok.inj (hw.symm.trans hv)
  obtain ⟨c₀, parameters, hearlier, hparameters, hplayed⟩ := h.dust
  obtain ⟨hupTo, -⟩ := upTo_grows (hnew ▸ hc'.zswap.1) (hnew ▸ hc'.zswap.2)
    (crossTo_lastId h.zswap)
  obtain ⟨hdupTo, -⟩ := upTo_grows (hdnew ▸ hc'.dust.1) (hdnew ▸ hc'.dust.2)
    (dustPlayed_lastId hplayed).1
  rw [hnew] at hupTo
  rw [hdnew] at hdupTo
  refine ⟨⟨?_, c₀, parameters, hearlier.tail hgrew, hparameters, ?_⟩, ⟨v', hv', hsw.trans hle⟩, ?_⟩
  · rw [hupTo]
    exact h.zswap
  · rw [hdupTo]
    exact hplayed
  · intro e he hcursor
    rw [← hnew] at he
    rcases List.mem_append.mp he with he | he
    · exact h.later e he hcursor
    · exact (hnot e he).mono hsw

/-- What a first sync holds is what it has taken. -/
theorem Taken.kept_fresh (hc : c.WellFormed) (h : Taken L c (freshStart L) s) : Kept L c s := by
  have hall : ∀ last es, (∀ e ∈ es, 1 ≤ e.id) → taken 0 last es = upTo LedgerEvent.id last es := by
    intro last es hpos
    refine List.filter_eq_self.mpr (fun e he => ?_)
    have hone := hpos e (List.mem_filter.mp he).1
    unfold lastAppliedBefore
    exact decide_eq_true (by omega)
  obtain ⟨parameters, hparameters, hplayed⟩ := h.dust
  refine ⟨⟨?_, c, parameters, .refl, hparameters, ?_⟩, ⟨s.1, h.ledger, le_refl _⟩, ?_⟩
  · rw [← hall s.2.zswapEventId c.zswap hc.zswap.2]
    exact h.zswap
  · rw [← hall s.2.dustEventId c.dust hc.dust.2]
    exact hplayed
  · intro e he hcursor
    exact absurd (h.whole e he) (not_le.mpr hcursor)

/-- What a sync takes from a cursor on goes on from what the cursor holds. -/
theorem upTo_taken {es : List LedgerEvent} (hasc : Ascending LedgerEvent.id es)
    (hpos : ∀ e ∈ es, 1 ≤ e.id) {first last : ℤ}
    (hfirst : first = lastId LedgerEvent.id 0 (upTo LedgerEvent.id first es))
    (hlast : last = lastId LedgerEvent.id (lastAppliedBefore (first + 1))
      (taken (first + 1) last es)) :
    lastAppliedBefore (first + 1) = first ∧
      upTo LedgerEvent.id first es ++ taken (first + 1) last es = upTo LedgerEvent.id last es := by
  have hnonneg : 0 ≤ first := by
    rw [hfirst]
    exact lastId_nonneg (fun e he => hpos e (List.mem_filter.mp he).1)
  have hbefore := lastAppliedBefore_succ hnonneg
  refine ⟨hbefore, ?_⟩
  have hle : first ≤ last := by
    have hgt : ∀ e ∈ taken (first + 1) last es, first < e.id := by
      intro e he
      have := (mem_startingAt he).2
      omega
    have htaken : Ascending LedgerEvent.id (taken (first + 1) last es) :=
      (hasc.filter _).filter _
    rw [hlast, hbefore]
    exact (htaken.le_lastId hgt).1
  unfold taken
  rw [hbefore]
  exact hasc.upTo_split hle

/-- The Dust state goes on from the snapshot, or starts over after the fork. -/
theorem InStep.dust_resumed (hc : c.WellFormed) {s₀ : Stored Z D} (h₀ : InStep L c s₀)
    (hle : s₀.1 ≤ s.1) (h : ∃ parameters, decodeLedgerParameters L s.1 c.block = .ok parameters ∧
      dustPlayed L s.1
          (startWallet L parameters (dustStart s.1 (s₀.2.dustEventId + 1)
            (some ⟨s₀.1, s₀.2.dustWallet⟩)))
          (lastAppliedBefore (s₀.2.dustEventId + 1))
          (taken (s₀.2.dustEventId + 1) s.2.dustEventId c.dust) =
        .ok (s.2.dustWallet, ⟨s.2.dustEventId, none⟩)) :
    ∃ c₀ parameters, Relation.ReflTransGen (Grew L) c₀ c ∧
      decodeLedgerParameters L s.1 c₀.block = .ok parameters ∧
      dustPlayed L s.1 (L.newDust s.1 parameters) 0 (upTo LedgerEvent.id s.2.dustEventId c.dust) =
        .ok (s.2.dustWallet, ⟨s.2.dustEventId, none⟩) := by
  obtain ⟨parameters, hparameters, hplayed⟩ := h
  obtain ⟨c₀, parameters₀, hearlier, hparameters₀, hplayed₀⟩ := h₀.dust
  obtain ⟨hlast, hread⟩ := dustPlayed_lastId hplayed₀
  obtain ⟨hfirst, hsplit⟩ := upTo_taken hc.dust.1 hc.dust.2 hlast (dustPlayed_lastId hplayed).1
  obtain ⟨v, snapshot⟩ := s
  obtain ⟨v₀, snapshot₀⟩ := s₀
  simp only at hplayed hplayed₀ hfirst hsplit hlast hread hle hparameters hparameters₀ ⊢
  rw [hfirst] at hplayed
  by_cases hsame : v₀ = v
  · subst hsame
    have hstart : startWallet L parameters (dustStart v₀ (snapshot₀.dustEventId + 1)
        (some ⟨v₀, snapshot₀.dustWallet⟩)) = snapshot₀.dustWallet := by
      simp [dustStart, startWallet]
    rw [hstart] at hplayed
    refine ⟨c₀, parameters₀, hearlier, hparameters₀, ?_⟩
    rw [← hsplit, dustPlayed_append hplayed₀]
    exact hplayed
  · obtain ⟨rfl, rfl⟩ : v₀ = .V8 ∧ v = .V9 :=
      (LedgerVersion.lt_iff _ _).mp (lt_of_le_of_ne hle hsame)
    have hstart : startWallet L parameters (dustStart .V9 (snapshot₀.dustEventId + 1)
        (some ⟨.V8, snapshot₀.dustWallet⟩)) = L.newDust .V9 parameters := by
      simp [dustStart, startWallet]
    rw [hstart] at hplayed
    refine ⟨c, parameters, .refl, hparameters, ?_⟩
    -- The events before the fork leave the new state alone.
    have hskip := dustPlayed_before (L := L) (L.newDust .V9 parameters) 0 _ hread
    rw [← hlast] at hskip
    rw [← hsplit, dustPlayed_append hskip]
    exact hplayed

/-- A sync that resumes from a snapshot of the run keeps what it holds. -/
theorem Taken.kept (hc : c.WellFormed) {s₀ : Stored Z D} (h₀ : Kept L c s₀)
    (h : Taken L c (.resume s₀) s) : Kept L c s := by
  obtain ⟨w, hw, hle⟩ := h₀.ledger
  obtain rfl : w = s.1 := Except.ok.inj (hw.symm.trans h.ledger)
  obtain ⟨hzfirst, hzsplit⟩ := upTo_taken hc.zswap.1 hc.zswap.2 (crossTo_lastId h₀.zswap)
    (crossTo_lastId h.zswap)
  refine ⟨⟨?_, ?_⟩, ⟨s.1, h.ledger, le_refl _⟩, ?_⟩
  · obtain ⟨⟨shielded, last⟩, hfold, hinto⟩ := bind_eq_ok.mp h₀.zswap
    obtain ⟨z, hz, hpair⟩ := bind_eq_ok.mp hinto
    cases hpair
    have hnot : ∀ e ∈ taken (s₀.2.zswapEventId + 1) s.2.zswapEventId c.zswap,
        NotBefore L s₀.1 e := by
      intro e he
      obtain ⟨hmem, hid⟩ := mem_startingAt he
      rw [hzfirst] at hid
      exact h₀.later e (List.mem_filter.mp hmem).1 (by omega)
    rw [← hzsplit, crossTo_append hfold, ← crossTo_carried hz hle _ hnot]
    have htaken := h.zswap
    change crossTo L s.1 ⟨s₀.1, s₀.2.zswapState⟩ (lastAppliedBefore (s₀.2.zswapEventId + 1))
      (taken (s₀.2.zswapEventId + 1) s.2.zswapEventId c.zswap) = _ at htaken
    rw [hzfirst] at htaken
    exact htaken
  · exact h₀.toInStep.dust_resumed hc hle h.dust
  · intro e he hcursor
    exact absurd (h.whole e he) (not_le.mpr hcursor)

theorem Synced.kept (hL : L.Lawful) {found : Option (Stored Z D)} (h : Synced L c found) :
    c.WellFormed ∧ ∀ s, found = some s → Kept L c s := by
  have hsync : ∀ {c : Chain} {found : Option (Stored Z D)} {sync : SyncOptions}
      {around : Surroundings} {size : ℕ} {s : Stored Z D},
      c.WellFormed ∧ (∀ s, found = some s → Kept L c s) → c.Surrounds around →
      (s ∈ (syncOnChain L sync c.block (startOf L found) around size).1 ∨
        ∃ out : State Z D P, (syncOnChain L sync c.block (startOf L found) around size).2 =
          some (.ok out) ∧ out.stored = s) → Kept L c s := by
    rintro c found sync around size s ⟨hc, hfound⟩ haround hs
    have htaken := syncOnChain_taken hL hc haround hs
    cases found with
    | none => exact htaken.kept_fresh hc
    | some s₀ => exact htaken.kept hc (hfound s₀ rfl)
  induction h with
  | start hc => exact ⟨hc, fun s hs => by cases hs⟩
  | grow h hgrew ih => exact ⟨hgrew.wellFormed, fun s hs => (ih.2 s hs).grow hgrew⟩
  | checkpoint h sync around size haround hs ih =>
    refine ⟨ih.1, fun s hsome => ?_⟩
    cases hsome
    exact hsync ih haround (Or.inl hs)
  | finished h sync around size haround hs ih =>
    refine ⟨ih.1, fun s hsome => ?_⟩
    cases hsome
    exact hsync ih haround (Or.inr ⟨_, hs, rfl⟩)
  | discarded h ih => exact ⟨ih.1, fun s hs => by cases hs⟩

end Growing

end MidnightRs.ChainSync
