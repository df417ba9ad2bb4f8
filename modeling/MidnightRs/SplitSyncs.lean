import MidnightRs.Resyncs

/-!
Splitting a sync. What a sync leaves, in memory or in any snapshot it writes,
is what its streams give event by event from the start of the chain, and a sync
that resumes there goes on as one sync over the whole of the streams would.
-/
namespace MidnightRs.ChainSync

open Streams Replay LedgerReplays Storage Reservations Utxos Unshielded

variable {Z D E P : LedgerVersion → Type}

section Positions

variable {Ev : Type} {id : Ev → ℤ}

/-- A replay that starts at `startId` has `done` behind it. -/
structure Resumes (id : Ev → ℤ) (startId : ℤ) (es done todo : List Ev) : Prop where
  split : done ++ todo = es
  cut : Cut id (lastAppliedBefore startId) done todo
  counted : done = [] ∨ 0 < startId

theorem Resumes.genesis {es : List Ev} (hpos : ∀ e ∈ es, 1 ≤ id e) :
    Resumes id 0 es [] es := by
  refine ⟨rfl, .nil_done (fun e he => ?_), Or.inl rfl⟩
  have := hpos e he
  unfold lastAppliedBefore
  omega

theorem lastId_nonneg {es : List Ev} (hpos : ∀ e ∈ es, 1 ≤ id e) : 0 ≤ lastId id 0 es := by
  cases es using List.reverseRecOn with
  | nil => exact le_refl 0
  | append_singleton es e =>
    have := hpos e (by simp)
    rw [lastId_append, lastId_cons, lastId_nil]
    omega

theorem lastAppliedBefore_succ {n : ℤ} (h : 0 ≤ n) : lastAppliedBefore (n + 1) = n := by
  unfold lastAppliedBefore
  omega

/-- The cursor of a prefix resumes after it. -/
theorem Resumes.after {done todo : List Ev} (hasc : Ascending id (done ++ todo))
    (hpos : ∀ e ∈ done ++ todo, 1 ≤ id e) :
    Resumes id (lastId id 0 done + 1) (done ++ todo) done todo := by
  have hlast := lastId_nonneg (fun e he => hpos e (List.mem_append_left _ he))
  refine ⟨rfl, ?_, Or.inr (by omega)⟩
  rw [lastAppliedBefore_succ hlast]
  exact .of_append hasc (fun e he => by have := hpos e he; omega)

theorem Resumes.startsAfter {σ : Type} (args : Replay.Args σ) {startId : ℤ}
    {es done todo : List LedgerEvent} (h : Resumes LedgerEvent.id startId es done todo)
    (hargs : args.startId = startId) : Replay.StartsAfter args es done todo :=
  ⟨h.split, hargs ▸ h.cut, hargs ▸ h.counted⟩

/-- A replay that resumes, or has something to do, does not wait in vain. -/
theorem Resumes.quiet {Ev : Type} {id : Ev → ℤ} {startId : ℤ} {es done todo : List Ev}
    (h : Resumes id startId es done todo) : 0 < startId ∨ es = [] ∨ todo ≠ [] := by
  rcases h.counted with hnil | hstart
  · have hsplit := h.split
    rw [hnil, List.nil_append] at hsplit
    by_cases hempty : es = []
    · exact Or.inr (Or.inl hempty)
    · exact Or.inr (Or.inr (hsplit ▸ hempty))
  · exact Or.inl hstart

end Positions

section Crossing

variable (L : Ledgers Z D E P)

/-- One shielded event, in whatever generation the state and the event are. -/
def crossStep (s : ZswapState Z × ℤ) (e : LedgerEvent) : Except WalletError (ZswapState Z × ℤ) :=
  match readEvent L.events "zswap" e with
  | .error err => .error err
  | .ok (raw, u) =>
    if s.1.1 < u then
      intoLedger L s.1 u >>= fun z => zswapStep L u z e.id raw u >>= fun z => .ok (⟨u, z⟩, e.id)
    else zswapStep L s.1.1 s.1.2 e.id raw u >>= fun z => .ok (⟨s.1.1, z⟩, e.id)

/-- The shielded stream event by event, and the state that it leaves in the
generation `target`. -/
def crossTo (target : LedgerVersion) (s : ZswapState Z) (last : ℤ) (es : List LedgerEvent) :
    Except WalletError (Z target × ℤ) :=
  es.foldlM (crossStep L) (s, last) >>= fun out =>
    intoLedger L out.1 target >>= fun z => .ok (z, out.2)

variable {L}

/-- The event, when it can be read, is of the generation `v` or a later one. -/
def NotBefore (L : Ledgers Z D E P) (v : LedgerVersion) (e : LedgerEvent) : Prop :=
  ∀ raw u, readEvent L.events "zswap" e = .ok (raw, u) → v ≤ u

theorem intoLedger_self {v : LedgerVersion} (z : Z v) : intoLedger L ⟨v, z⟩ v = .ok z := by
  cases v <;> rfl

theorem intoLedger_trans {s : ZswapState Z} {a b : LedgerVersion} {z : Z a}
    (h : intoLedger L s a = .ok z) (hab : a ≤ b) : intoLedger L ⟨a, z⟩ b = intoLedger L s b := by
  obtain ⟨v, state⟩ := s
  cases a with
  | V8 =>
    cases v with
    | V8 =>
      cases h
      rfl
    | V9 => cases h
  | V9 =>
    cases b with
    | V8 => exact absurd hab (by decide)
    | V9 => exact h.symm ▸ rfl

/-- A state carried forward takes an event as the one it came from. -/
theorem crossStep_carried {s : ZswapState Z} {a : LedgerVersion} {z : Z a}
    (h : intoLedger L s a = .ok z) (last last' : ℤ) {e : LedgerEvent} (he : NotBefore L a e) :
    crossStep L (⟨a, z⟩, last) e = crossStep L (s, last') e := by
  unfold crossStep
  cases hread : readEvent L.events "zswap" e with
  | error err => rfl
  | ok entry =>
    obtain ⟨raw, u⟩ := entry
    have hu := he raw u hread
    obtain ⟨v, state⟩ := s
    cases a with
    | V8 =>
      cases v with
      | V8 =>
        cases h
        rfl
      | V9 => cases h
    | V9 =>
      cases u with
      | V8 => exact absurd hu (by decide)
      | V9 =>
        cases v with
        | V8 =>
          simp only [h]
          rfl
        | V9 =>
          cases h
          rfl

/-- Carrying a state forward early changes nothing, when every event to come is
of the later generation. -/
theorem crossTo_carried {s : ZswapState Z} {a target : LedgerVersion} {z : Z a}
    (h : intoLedger L s a = .ok z) (htarget : a ≤ target) (last : ℤ) {es : List LedgerEvent}
    (hes : ∀ e ∈ es, NotBefore L a e) :
    crossTo L target ⟨a, z⟩ last es = crossTo L target s last es := by
  unfold crossTo
  cases es with
  | nil =>
    simp only [List.foldlM_nil, pure, Except.pure, bind, Except.bind]
    rw [intoLedger_trans h htarget]
  | cons e es =>
    rw [List.foldlM_cons, List.foldlM_cons, crossStep_carried h last last (hes e (by simp))]

theorem crossTo_append {target : LedgerVersion} {s s' : ZswapState Z} {last last' : ℤ}
    {xs ys : List LedgerEvent} (h : xs.foldlM (crossStep L) (s, last) = .ok (s', last')) :
    crossTo L target s last (xs ++ ys) = crossTo L target s' last' ys := by
  unfold crossTo
  rw [foldlM_split h]

end Crossing

section Rounds

variable {L : Ledgers Z D E P}

/-- What one generation's replay of the stream is of the whole stream. -/
def CrossedBy (L : Ledgers Z D E P) (v : LedgerVersion) (z : Z v) (last : ℤ)
    (es : List LedgerEvent) : Except WalletError (Z v × LedgerReplay) → Prop
  | .error _ => ∃ err, es.foldlM (crossStep L) (⟨v, z⟩, last) = .error err
  | .ok (z', ⟨last', none⟩) => es.foldlM (crossStep L) (⟨v, z⟩, last) = .ok (⟨v, z'⟩, last')
  | .ok (z', ⟨last', some (fork, found)⟩) => ∃ played e rest raw, es = played ++ e :: rest ∧
      played.foldlM (crossStep L) (⟨v, z⟩, last) = .ok (⟨v, z'⟩, last') ∧ e.id = fork ∧
      readEvent L.events "zswap" e = .ok (raw, found) ∧ v < found

theorem playZswap_crossedBy (v : LedgerVersion) (z : Z v) (last : ℤ) (es : List LedgerEvent) :
    CrossedBy L v z last es (playZswap L v z last es) := by
  induction es generalizing z last with
  | nil => rfl
  | cons e es ih =>
    simp only [playZswap, play]
    cases hread : readEvent L.events "zswap" e with
    | error err =>
      refine ⟨err, ?_⟩
      simp only [List.foldlM_cons, crossStep, hread]
      rfl
    | ok entry =>
      obtain ⟨raw, u⟩ := entry
      simp only
      by_cases hu : v < u
      · rw [if_pos hu]
        exact ⟨[], e, es, raw, rfl, rfl, rfl, hread, hu⟩
      · rw [if_neg hu]
        have hcross : crossStep L (⟨v, z⟩, last) e =
            zswapStep L v z e.id raw u >>= fun z => .ok (⟨v, z⟩, e.id) := by
          simp only [crossStep, hread]
          rw [if_neg hu]
        cases hstep : zswapStep L v z e.id raw u with
        | error err =>
          refine ⟨err, ?_⟩
          rw [List.foldlM_cons, hcross, hstep]
          rfl
        | ok z' =>
          rw [hstep] at hcross
          have hrest := ih z' e.id
          simp only
          change CrossedBy L v z last (e :: es) (playZswap L v z' e.id es)
          have hcons : ∀ xs, (e :: xs).foldlM (crossStep L) (⟨v, z⟩, last) =
              xs.foldlM (crossStep L) (⟨v, z'⟩, e.id) := by
            intro xs
            rw [List.foldlM_cons, hcross]
            rfl
          rcases hplay : playZswap L v z' e.id es with err | ⟨z'', last'', _ | ⟨fork, found⟩⟩
          · rw [hplay] at hrest
            obtain ⟨err', herr⟩ := hrest
            exact ⟨err', (hcons es).trans herr⟩
          · rw [hplay] at hrest
            exact (hcons es).trans hrest
          · rw [hplay] at hrest
            obtain ⟨played, e', rest, raw', rfl, hplayed, hfork, hread', hfound⟩ := hrest
            exact ⟨e :: played, e', rest, raw', rfl, (hcons played).trans hplayed, hfork, hread',
              hfound⟩

/-- Where the round after a fork starts. -/
theorem Resumes.atFork {startId : ℤ} {es done played rest : List LedgerEvent} {e : LedgerEvent}
    (hasc : Ascending LedgerEvent.id es) (hpos : ∀ e ∈ es, 1 ≤ e.id)
    (h : Resumes LedgerEvent.id startId es done (played ++ e :: rest)) :
    Resumes LedgerEvent.id e.id es (done ++ played) (e :: rest) := by
  have hsplit : (done ++ played) ++ e :: rest = es := by rw [← h.split]; simp
  have he := hpos e (by rw [← hsplit]; simp)
  have hbefore : lastAppliedBefore e.id = e.id - 1 := by
    unfold lastAppliedBefore
    omega
  have hascend := hsplit ▸ hasc
  refine ⟨hsplit, ⟨?_, ?_⟩, Or.inr (by omega)⟩
  · intro x hx
    have hlt := (List.pairwise_append.mp hascend).2.2 x hx e (by simp)
    rw [hbefore]
    omega
  · intro x hx
    rw [hbefore]
    rcases List.mem_cons.mp hx with rfl | hx
    · omega
    · have hlt := (List.pairwise_cons.mp hascend.append_right).1 x hx
      omega

/-- The event at the fork, taken by the state that the fork carries forward. -/
theorem cross_atFork {v found : LedgerVersion} {z : Z v} {carried : Z found}
    (hcarry : intoLedger L ⟨v, z⟩ found = .ok carried) (last last' : ℤ) {e : LedgerEvent}
    {raw : Bytes} (hread : readEvent L.events "zswap" e = .ok (raw, found))
    (rest : List LedgerEvent) :
    (e :: rest).foldlM (crossStep L) (⟨found, carried⟩, last) =
      (e :: rest).foldlM (crossStep L) (⟨v, z⟩, last') := by
  have he : NotBefore L found e := by
    intro raw' u hread'
    rw [hread] at hread'
    cases hread'
    exact le_refl _
  rw [List.foldlM_cons, List.foldlM_cons, crossStep_carried hcarry last last' he]

/-- Through whatever interruptions, a shielded replay that returns has taken
the events to do one by one, across every fork. -/
theorem replayZswap_crosses (hL : L.Lawful) {es : List LedgerEvent}
    (hasc : Ascending LedgerEvent.id es) (hpos : ∀ e ∈ es, 1 ≤ e.id)
    (rounds : List Replay.Answers) (hrounds : ∀ answers ∈ rounds, Replay.Honest es answers)
    (state : ZswapState Z) (startId : ℤ) (resuming : Bool) {size : ℕ} {done todo : List LedgerEvent}
    (hstart : Resumes LedgerEvent.id startId es done todo) {out : ZswapState Z × ℤ}
    (h : replayZswap L state startId resuming rounds size = some (.ok out)) :
    todo.foldlM (crossStep L) (state, lastAppliedBefore startId) = .ok out := by
  induction rounds generalizing state startId done todo with
  | nil => cases h
  | cons answers rounds ih =>
    obtain ⟨v, z⟩ := state
    simp only [replayZswap] at h
    rcases hreplay : replayZswapEvents L v z startId resuming answers size with _ | err | r
    · rw [hreplay] at h
      cases h
    · rw [hreplay] at h
      cases h
    · rw [hreplay] at h
      have hplays := replayZswapEvents_plays hL hasc hpos (hstart.startsAfter _ rfl)
        (hrounds answers (by simp)) hreplay
      have hcrossed := playZswap_crossedBy (L := L) v z (lastAppliedBefore startId) todo
      rw [hplays] at hcrossed
      simp only [andThen] at h
      cases hlater : r.laterLedger with
      | none =>
        rw [hlater] at h hcrossed
        cases h
        exact hcrossed
      | some later =>
        obtain ⟨fork, found⟩ := later
        rw [hlater] at h hcrossed
        obtain ⟨played, e, rest, raw, rfl, hplayed, rfl, hread, hfound⟩ := hcrossed
        simp only at h
        cases hcarry : intoLedger L ⟨v, r.state⟩ found with
        | error err =>
          rw [hcarry] at h
          cases h
        | ok carried =>
          rw [hcarry] at h
          have hrest := ih (fun a ha => hrounds a (by simp [ha])) ⟨found, carried⟩ e.id
            (hstart.atFork hasc hpos) h
          rw [foldlM_split hplayed]
          exact (cross_atFork hcarry _ _ hread rest).symm.trans hrest

/-- Uninterrupted, one round of the shielded replay ends the stream, breaks, or
stops at a fork. -/
theorem replayZswap_round (hL : L.Lawful) {es : List LedgerEvent}
    (hasc : Ascending LedgerEvent.id es) (hpos : ∀ e ∈ es, 1 ≤ e.id) (v : LedgerVersion) (z : Z v)
    (startId : ℤ) (resuming : Bool) (rounds : List Replay.Answers) {done todo : List LedgerEvent}
    (hstart : Resumes LedgerEvent.id startId es done todo)
    (hquiet : resuming = true ∨ es = [] ∨ todo ≠ []) :
    (∃ result, replayZswap L ⟨v, z⟩ startId resuming ([serveAll es] :: rounds) = some result ∧
        Agree result (todo.foldlM (crossStep L) (⟨v, z⟩, lastAppliedBefore startId))) ∨
      ∃ (z' : Z v) (last' : ℤ) (played : List LedgerEvent) (e : LedgerEvent)
        (rest : List LedgerEvent) (raw : Bytes) (found : LedgerVersion),
        todo = played ++ e :: rest ∧ v < found ∧
        played.foldlM (crossStep L) (⟨v, z⟩, lastAppliedBefore startId) = .ok (⟨v, z'⟩, last') ∧
        readEvent L.events "zswap" e = .ok (raw, found) ∧
        replayZswap L ⟨v, z⟩ startId resuming ([serveAll es] :: rounds) =
          match intoLedger L ⟨v, z'⟩ found with
          | .error err => some (.error err)
          | .ok carried => replayZswap L ⟨found, carried⟩ e.id resuming rounds := by
  obtain ⟨result, hresult, hagree⟩ := replayZswapEvents_serveAll hL hasc hpos z
    (hstart.startsAfter (zswapArgs L v replayBatch startId resuming) rfl) hquiet
  have hcrossed := playZswap_crossedBy (L := L) v z (lastAppliedBefore startId) todo
  cases result with
  | error err =>
    refine Or.inl ⟨.error err, ?_, ?_⟩
    · simp only [replayZswap, hresult, andThen]
    · cases hplay : playZswap L v z (lastAppliedBefore startId) todo with
      | ok out =>
        have := (hagree out).mpr hplay
        cases this
      | error err' =>
        rw [hplay] at hcrossed
        obtain ⟨err'', herr⟩ := hcrossed
        rw [herr]
        exact .of_error _ _
  | ok r =>
    have hplay := (hagree _).mp rfl
    rw [hplay] at hcrossed
    have hround : replayZswap L ⟨v, z⟩ startId resuming ([serveAll es] :: rounds) =
        andThen (some (.ok r)) _ := congrArg (fun run => andThen run _) hresult
    obtain ⟨state, last', _ | ⟨fork, found⟩⟩ := r
    · refine Or.inl ⟨.ok (⟨v, state⟩, last'), hround.trans rfl, ?_⟩
      rw [show todo.foldlM (crossStep L) (⟨v, z⟩, lastAppliedBefore startId) =
        .ok (⟨v, state⟩, last') from hcrossed]
      exact .refl _
    · obtain ⟨played, e, rest, raw, htodo, hplayed, rfl, hread, hfound⟩ := hcrossed
      exact Or.inr ⟨state, last', played, e, rest, raw, found, htodo, hfound, hplayed, hread,
        hround.trans rfl⟩

/-- Uninterrupted, the shielded replay succeeds as the events do one by one. A
chain has one fork, so two rounds are enough. -/
theorem replayZswap_serveAll (hL : L.Lawful) {es : List LedgerEvent}
    (hasc : Ascending LedgerEvent.id es) (hpos : ∀ e ∈ es, 1 ≤ e.id) (state : ZswapState Z)
    (startId : ℤ) (resuming : Bool) {done todo : List LedgerEvent}
    (hstart : Resumes LedgerEvent.id startId es done todo)
    (hquiet : resuming = true ∨ es = [] ∨ todo ≠ []) :
    ∃ result, replayZswap L state startId resuming [[serveAll es], [serveAll es]] =
        some result ∧
      Agree result (todo.foldlM (crossStep L) (state, lastAppliedBefore startId)) := by
  obtain ⟨v, z⟩ := state
  rcases replayZswap_round hL hasc hpos v z startId resuming [[serveAll es]] hstart hquiet with
    hdone | ⟨z', last', played, e, rest, raw, found, rfl, hfound, hplayed, hread, hrun⟩
  · exact hdone
  rw [hrun, foldlM_split hplayed]
  cases hcarry : intoLedger L ⟨v, z'⟩ found with
  | error err =>
    refine ⟨.error err, rfl, ?_⟩
    rw [List.foldlM_cons]
    simp only [crossStep, hread]
    rw [if_pos hfound, hcarry]
    exact .of_error _ _
  | ok carried =>
    obtain ⟨rfl, rfl⟩ := (LedgerVersion.lt_iff v found).mp hfound
    rw [← cross_atFork hcarry (lastAppliedBefore e.id) last' hread rest]
    rcases replayZswap_round hL hasc hpos .V9 carried e.id resuming []
        (hstart.atFork hasc hpos) (Or.inr (Or.inr (by simp))) with
      hdone | ⟨-, -, -, -, -, -, later, -, hlater, -, -, -⟩
    · exact hdone
    · -- No generation follows ledger 9.
      have := (LedgerVersion.lt_iff _ _).mp hlater
      simp at this

end Rounds

section DustStream

variable (L : Ledgers Z D E P)

/-- The Dust stream event by event, as far as the wallet's state goes. -/
def dustPlayed (v : LedgerVersion) (wallet : D v) (last : ℤ) (es : List LedgerEvent) :
    Except WalletError (D v × LedgerReplay) :=
  playDust L v ⟨wallet, none, []⟩ last es >>= fun out => .ok (out.1.wallet, out.2)

variable {L}

/-- What was seen before does not matter to the wallet's state. -/
theorem dustStep_wallet {v : LedgerVersion} {seen seen' : DustSeen (D v)}
    (hwallet : seen.wallet = seen'.wallet) (id : ℤ) (raw : Bytes) (u : LedgerVersion) :
    (∃ err, dustStep L v seen id raw u = .error err ∧ dustStep L v seen' id raw u = .error err) ∨
      ∃ a b, dustStep L v seen id raw u = .ok a ∧ dustStep L v seen' id raw u = .ok b ∧
        a.wallet = b.wallet := by
  unfold dustStep
  by_cases hgen : u = v
  · rw [if_pos hgen, if_pos hgen]
    cases L.decode v raw "dust" with
    | error err => exact Or.inl ⟨err, rfl, rfl⟩
    | ok ev =>
      simp only [hwallet]
      cases L.replayDust v seen'.wallet [ev] with
      | error err => exact Or.inl ⟨.sync err, rfl, rfl⟩
      | ok wallet => exact Or.inr ⟨_, _, rfl, rfl, rfl⟩
  · rw [if_neg hgen, if_neg hgen]
    exact Or.inr ⟨seen, seen', rfl, rfl, hwallet⟩

theorem playDust_wallet (v : LedgerVersion) (seen seen' : DustSeen (D v))
    (hwallet : seen.wallet = seen'.wallet) (last : ℤ) (es : List LedgerEvent) :
    (playDust L v seen last es >>= fun out => .ok (out.1.wallet, out.2)) =
      (playDust L v seen' last es >>= fun out =>
        (.ok (out.1.wallet, out.2) : Except WalletError _)) := by
  induction es generalizing seen seen' last with
  | nil =>
    simp only [playDust, play, bind, Except.bind, hwallet]
  | cons e es ih =>
    simp only [playDust, play]
    cases readEvent L.events "dust" e with
    | error err => rfl
    | ok entry =>
      obtain ⟨raw, u⟩ := entry
      simp only
      by_cases hu : v < u
      · rw [if_pos hu, if_pos hu]
        simp only [bind, Except.bind, hwallet]
      · rw [if_neg hu, if_neg hu]
        rcases dustStep_wallet (L := L) hwallet e.id raw u with ⟨err, ha, hb⟩ | ⟨a, b, ha, hb, hab⟩
        · rw [ha, hb]
        · rw [ha, hb]
          exact ih a b hab e.id

theorem dustPlayed_append {v : LedgerVersion} {wallet wallet' : D v} {last last' : ℤ}
    {xs ys : List LedgerEvent} (h : dustPlayed L v wallet last xs = .ok (wallet', ⟨last', none⟩)) :
    dustPlayed L v wallet last (xs ++ ys) = dustPlayed L v wallet' last' ys := by
  obtain ⟨⟨seen, r⟩, hplay, hout⟩ := bind_eq_ok.mp h
  cases hout
  have happend : playDust L v ⟨wallet, none, []⟩ last (xs ++ ys) =
      playDust L v seen last' ys := by
    have hsplit := @play_append _ (dustStep L v) (readEvent L.events "dust") v
      ⟨wallet, none, []⟩ last xs ys
    rw [show play (readEvent L.events "dust") v (dustStep L v) ⟨wallet, none, []⟩ last xs =
      .ok (seen, ⟨last', none⟩) from hplay] at hsplit
    exact hsplit
  unfold dustPlayed
  rw [happend]
  exact playDust_wallet v seen ⟨seen.wallet, none, []⟩ rfl last' ys

/-- Events of the generation before the fork leave a state after it alone. -/
theorem dustPlayed_before (wallet : D .V9) (last : ℤ) (es : List LedgerEvent)
    (hes : ∀ e ∈ es, ∃ raw u, readEvent L.events "dust" e = .ok (raw, u) ∧ u ≤ .V8) :
    dustPlayed L .V9 wallet last es = .ok (wallet, ⟨lastId LedgerEvent.id last es, none⟩) := by
  unfold dustPlayed
  induction es generalizing last with
  | nil => rfl
  | cons e es ih =>
    obtain ⟨raw, u, hread, hu⟩ := hes e (by simp)
    have hskip : dustStep L .V9 ⟨wallet, none, []⟩ e.id raw u = .ok ⟨wallet, none, []⟩ := by
      refine if_neg ?_
      rintro rfl
      exact absurd hu (by decide)
    have hcons : playDust L .V9 ⟨wallet, none, []⟩ last (e :: es) =
        playDust L .V9 ⟨wallet, none, []⟩ e.id es := by
      simp only [playDust, play, hread]
      rw [if_neg (not_lt.mpr (hu.trans (by decide))), hskip]
    rw [hcons]
    exact ih e.id (fun x hx => hes x (by simp [hx]))

end DustStream

section Transactions

/-- The transactions one by one, as far as the wallet's state goes. -/
def txsPlayed (utxos : List TrackedUtxo) (last height : ℤ) (txs : List UnshieldedTxData) :
    Except WalletError UnshieldedReplay :=
  txs.foldlM track ⟨utxos, last, height, []⟩ >>= fun r => .ok { r with spent := [] }

/-- What a replay saw spent does not matter to what it tracks. -/
theorem track_spent {r r' : UnshieldedReplay} (h : { r with spent := [] } = { r' with spent := [] })
    (tx : UnshieldedTxData) :
    (∃ err, track r tx = .error err ∧ track r' tx = .error err) ∨
      ∃ a b, track r tx = .ok a ∧ track r' tx = .ok b ∧
        { a with spent := [] } = { b with spent := [] } := by
  obtain ⟨hutxos, hlast, hheight, -⟩ := UnshieldedReplay.mk.injEq .. ▸ h
  unfold track
  rw [hutxos]
  cases applyUnshieldedTx r'.utxos tx with
  | error e => exact Or.inl ⟨_, rfl, rfl⟩
  | ok out =>
    refine Or.inr ⟨_, _, rfl, rfl, ?_⟩
    rw [hlast, hheight]

theorem foldlM_track_spent {r r' : UnshieldedReplay}
    (h : { r with spent := [] } = { r' with spent := [] }) (txs : List UnshieldedTxData) :
    (txs.foldlM track r >>= fun r => .ok { r with spent := [] }) =
      (txs.foldlM track r' >>= fun r => (.ok { r with spent := [] } : Except WalletError _)) := by
  induction txs generalizing r r' with
  | nil =>
    simp only [List.foldlM_nil, pure, Except.pure, bind, Except.bind]
    exact congrArg _ h
  | cons tx txs ih =>
    rw [List.foldlM_cons, List.foldlM_cons]
    rcases track_spent h tx with ⟨err, ha, hb⟩ | ⟨a, b, ha, hb, hab⟩
    · rw [ha, hb]
    · rw [ha, hb]
      exact ih hab

theorem txsPlayed_append {utxos : List TrackedUtxo} {last height : ℤ}
    {xs : List UnshieldedTxData} {r : UnshieldedReplay}
    (h : txsPlayed utxos last height xs = .ok r) (ys : List UnshieldedTxData) :
    txsPlayed utxos last height (xs ++ ys) =
      txsPlayed r.utxos r.lastTxId r.lastBlockHeight ys := by
  obtain ⟨r', hr', hr⟩ := bind_eq_ok.mp h
  cases hr
  unfold txsPlayed
  rw [foldlM_split hr']
  have hspent : ({ r' with spent := [] } : UnshieldedReplay) =
      { ({ r' with spent := [] } : UnshieldedReplay) with spent := [] } := rfl
  exact foldlM_track_spent hspent ys

theorem txsPlayed_unregistered (utxos : List TrackedUtxo) (last height : ℤ)
    (txs : List UnshieldedTxData) :
    txsPlayed (utxos.map TrackedUtxo.unregistered) last height
        (txs.map UnshieldedTxData.unregistered) =
      (txsPlayed utxos last height txs).map UnshieldedReplay.unregistered := by
  unfold txsPlayed
  have h := foldlM_track_unregistered txs ⟨utxos, last, height, []⟩
  rw [show (⟨utxos, last, height, []⟩ : UnshieldedReplay).unregistered =
    ⟨utxos.map TrackedUtxo.unregistered, last, height, []⟩ from rfl] at h
  rw [h]
  cases txs.foldlM track ⟨utxos, last, height, []⟩ with
  | error e => rfl
  | ok r => rfl

/-- The cursor that the transactions leave is the id of the last. -/
theorem txsPlayed_lastTxId {utxos : List TrackedUtxo} {last height : ℤ}
    {txs : List UnshieldedTxData} {r : UnshieldedReplay}
    (hasc : Ascending UnshieldedTxData.streamId txs)
    (hpos : ∀ tx ∈ txs, 1 ≤ tx.streamId) (hlast : ∀ tx ∈ txs, last < tx.streamId)
    (h : txsPlayed utxos last height txs = .ok r) :
    r.lastTxId = lastId UnshieldedTxData.streamId last txs := by
  induction txs generalizing utxos last height with
  | nil =>
    cases h
    rfl
  | cons tx txs ih =>
    obtain ⟨hhead, htail⟩ := List.pairwise_cons.mp hasc
    have hid := txId_eq tx (hpos tx (by simp))
    cases hone : txsPlayed utxos last height [tx] with
    | error e =>
      unfold txsPlayed at h hone
      rw [List.foldlM_cons] at h hone
      cases htrack : track ⟨utxos, last, height, []⟩ tx with
      | error e =>
        rw [htrack] at h
        cases h
      | ok r₁ =>
        rw [htrack] at hone
        cases hone
    | ok r₁ =>
      have happend := txsPlayed_append hone txs
      rw [List.singleton_append, h] at happend
      have hr₁ : r₁.lastTxId = tx.streamId := by
        unfold txsPlayed at hone
        rw [List.foldlM_cons] at hone
        unfold track at hone
        cases happly : applyUnshieldedTx utxos tx with
        | error e =>
          rw [happly] at hone
          cases hone
        | ok out =>
          rw [happly] at hone
          cases hone
          simp only [hid, Option.elim]
          exact max_eq_right (hlast tx (by simp)).le
      rw [hr₁] at happend
      exact ih htail (fun x hx => hpos x (by simp [hx])) hhead happend.symm

end Transactions

section Playing

variable (L : Ledgers Z D E P)

/-- The Dust state that a sync starts from. -/
def startWallet {v : LedgerVersion} (parameters : P v) : DustStart (D v) → D v
  | .resume wallet _ => wallet
  | .fresh _ => L.newDust v parameters

/-- What a sync from `start` is to give, its streams taken one by one. -/
def playFrom (block : Block) (start : Start Z D) (zswap dust : List LedgerEvent)
    (txs : List UnshieldedTxData) : Except WalletError (Stored Z D) :=
  ledgerOf L block >>= fun chain =>
  crossTo L chain start.zswap (lastAppliedBefore start.zswapId) zswap >>= fun shielded =>
  txsPlayed (start.utxos chain) (lastAppliedBefore start.txId) start.height txs >>= fun tracked =>
  decodeLedgerParameters L chain block >>= fun parameters =>
  blockTime block >>= fun _ =>
  dustPlayed L chain (startWallet L parameters (dustStart chain start.dustId start.dust))
    (lastAppliedBefore start.dustId) dust >>= fun seen =>
  expectNoLater chain seen.2.laterLedger >>= fun _ =>
  .ok ⟨chain, ⟨shielded.1, seen.1, shielded.2, seen.2.lastId, tracked.lastBlockHeight,
    some tracked.lastTxId, none, tracked.utxos⟩⟩

/-- What the indexer shows of a chain, for one address. -/
structure Chain where
  block : Block
  zswap : List LedgerEvent
  dust : List LedgerEvent
  txs : List UnshieldedTxData

namespace Chain

/-- The ids of each stream ascend from 1. -/
structure WellFormed (c : Chain) : Prop where
  zswap : Ascending LedgerEvent.id c.zswap ∧ ∀ e ∈ c.zswap, 1 ≤ e.id
  dust : Ascending LedgerEvent.id c.dust ∧ ∀ e ∈ c.dust, 1 ≤ e.id
  txs : Ascending UnshieldedTxData.streamId c.txs ∧ ∀ tx ∈ c.txs, 1 ≤ tx.streamId

/-- What surrounds a sync of the chain, whatever interrupts it. -/
structure Surrounds (c : Chain) (around : Surroundings) : Prop where
  zswap : ∀ answers ∈ around.zswap, Replay.Honest c.zswap answers
  unshielded : Unshielded.Honest c.txs around.unshielded
  dust : Replay.Honest c.dust around.dust

/-- What surrounds a sync of the chain that nothing interrupts. -/
def serveAll (c : Chain) (stored : Option PendingReservations) : Surroundings where
  zswap := [[Replay.serveAll c.zswap], [Replay.serveAll c.zswap]]
  unshielded := [Unshielded.serveAll c.txs]
  dust := [Replay.serveAll c.dust]
  alive := true
  storedPending := .ok stored
  saved := .ok ()

theorem surrounds_serveAll {c : Chain} (hc : c.WellFormed) (stored : Option PendingReservations) :
    c.Surrounds (c.serveAll stored) where
  zswap := by
    intro answers hanswers
    have hanswers' : answers = [Replay.serveAll c.zswap] := by
      simpa [serveAll] using hanswers
    exact hanswers' ▸ Replay.honest_serveAll hc.zswap.1 hc.zswap.2
  unshielded := Unshielded.honest_serveAll c.txs
  dust := Replay.honest_serveAll hc.dust.1 hc.dust.2

end Chain

/-- What of each stream is to do for a sync from `start`. -/
structure Position (c : Chain) (start : Start Z D) (zswap dust : List LedgerEvent)
    (txs : List UnshieldedTxData) : Prop where
  zswap : ∃ done, Resumes LedgerEvent.id start.zswapId c.zswap done zswap
  dust : ∃ done, Resumes LedgerEvent.id start.dustId c.dust done dust
  txs : ∃ done, Resumes UnshieldedTxData.streamId start.txId c.txs done txs

end Playing

section Finishing

variable {L : Ledgers Z D E P} {v : LedgerVersion} {c : Chain} {around : Surroundings}
  {sync : SyncOptions} {block : Block} {start : SyncStart Z D v} {done todo : List LedgerEvent}
  {size : ℕ}

def DustStart.nextId {S : Type} : DustStart S → ℤ
  | .resume _ nextId => nextId
  | .fresh nextId => nextId

/-- What the end of a sync is to give, its Dust stream taken one by one. -/
def finishPlayed (L : Ledgers Z D E P) (block : Block) (start : DustStart (D v))
    (dust : List LedgerEvent) : Except WalletError (D v × ℤ) :=
  decodeLedgerParameters L v block >>= fun parameters =>
  blockTime block >>= fun _ =>
  dustPlayed L v (startWallet L parameters start) (lastAppliedBefore start.nextId) dust >>=
    fun seen =>
  expectNoLater v seen.2.laterLedger >>= fun _ => .ok (seen.1, seen.2.lastId)

/-- The end of a sync, once the block has been read. -/
theorem finishSync_eq {parameters : P v} {time : Timestamp}
    (hparameters : decodeLedgerParameters L v block = .ok parameters)
    (htime : blockTime block = .ok time) :
    finishSync L sync block start around size =
      let replayed := replayDustEvents L v (startWallet L parameters start.dust) start.dust.nextId
        (decide (0 < start.dust.nextId)) (sync.hasStorage && sync.save) dustCheckpointInterval
        around.dust size
      let saved := saveSynced sync around (andThen replayed.2 (fun dust =>
        some (finishDust L sync start parameters time around dust)))
      (replayed.1.map (start.snapshot sync.chainPin) ++ saved.1, saved.2) := by
  unfold finishSync
  rw [hparameters, htime]
  cases start.dust <;> rfl

theorem finishPlayed_eq {parameters : P v} {time : Timestamp} {start : DustStart (D v)}
    (hparameters : decodeLedgerParameters L v block = .ok parameters)
    (htime : blockTime block = .ok time) (dust : List LedgerEvent) :
    finishPlayed L block start dust =
      (dustPlayed L v (startWallet L parameters start) (lastAppliedBefore start.nextId) dust >>=
        fun seen => expectNoLater v seen.2.laterLedger >>= fun _ => .ok (seen.1, seen.2.lastId)) := by
  unfold finishPlayed
  rw [hparameters, htime]
  rfl

theorem finishDust_snapshot {parameters : P v} {time : Timestamp} {dust : DustReplay (D v)}
    {w : Wallet Z D P v} (h : finishDust L sync start parameters time around dust = .ok w) :
    expectNoLater v dust.laterLedger = .ok () ∧
      w.snapshot = start.snapshot sync.chainPin (dust.wallet, dust.lastId) := by
  unfold finishDust at h
  cases hlater : expectNoLater v dust.laterLedger with
  | error e =>
    rw [hlater] at h
    cases h
  | ok u =>
    rw [hlater] at h
    simp only at h
    split at h
    · cases hpending : around.storedPending with
      | error e =>
        rw [hpending] at h
        cases h
      | ok stored =>
        rw [hpending] at h
        cases h
        exact ⟨rfl, rfl⟩
    · cases h
      exact ⟨rfl, rfl⟩

theorem saveSynced_ok {assembled : Awaited (Wallet Z D P v)} {w : Wallet Z D P v}
    (h : (saveSynced sync around assembled).2 = some (.ok w)) : assembled = some (.ok w) := by
  rcases assembled with _ | e | w'
  · cases h
  · cases h
  · simp only [saveSynced] at h
    split at h
    · cases hsaved : around.saved with
      | error e =>
        rw [hsaved] at h
        cases h
      | ok u =>
        rw [hsaved] at h
        exact h
    · exact h

theorem mem_saveSynced {assembled : Awaited (Wallet Z D P v)} {s : Snapshot Z D v}
    (hs : s ∈ (saveSynced sync around assembled).1) :
    ∃ w, assembled = some (.ok w) ∧ s = w.snapshot := by
  rcases assembled with _ | e | w
  · cases hs
  · cases hs
  · refine ⟨w, rfl, ?_⟩
    simp only [saveSynced] at hs
    split at hs
    · cases hsaved : around.saved with
      | error e =>
        rw [hsaved] at hs
        exact List.mem_singleton.mp hs
      | ok u =>
        rw [hsaved] at hs
        exact List.mem_singleton.mp hs
    · cases hs

/-- A wallet that a sync assembles has its Dust stream taken whole. -/
theorem assembled_ok (hL : L.Lawful) (hc : c.WellFormed)
    (hdust : Replay.Honest c.dust around.dust)
    (hstart : Resumes LedgerEvent.id start.dust.nextId c.dust done todo) {parameters : P v}
    (hparameters : decodeLedgerParameters L v block = .ok parameters) {time : Timestamp}
    (htime : blockTime block = .ok time) {w : Wallet Z D P v}
    (h : andThen (replayDustEvents L v (startWallet L parameters start.dust) start.dust.nextId
        (decide (0 < start.dust.nextId)) (sync.hasStorage && sync.save) dustCheckpointInterval
        around.dust size).2 (fun dust => some (finishDust L sync start parameters time around dust)) =
      some (.ok w)) :
    ∃ d, finishPlayed L block start.dust todo = .ok d ∧
      w.snapshot = start.snapshot sync.chainPin d := by
  rcases hreplay : (replayDustEvents L v (startWallet L parameters start.dust)
      start.dust.nextId (decide (0 < start.dust.nextId)) (sync.hasStorage && sync.save)
      dustCheckpointInterval around.dust size).2 with _ | e | dust
  · rw [hreplay] at h
    cases h
  · rw [hreplay] at h
    cases h
  · rw [hreplay] at h
    obtain ⟨hlater, hsnapshot⟩ := finishDust_snapshot (Option.some.inj h)
    have hplays := replayDustEvents_plays hL hc.dust.1 hc.dust.2
      (hstart.startsAfter (dustArgs L v _ start.dust.nextId _ _ _) rfl) hdust hreplay
    refine ⟨(dust.wallet, dust.lastId), ?_, hsnapshot⟩
    rw [finishPlayed_eq hparameters htime]
    unfold dustPlayed
    rw [hplays]
    simp only [bind, Except.bind, hlater]

/-- The end of a sync that returns a wallet. -/
theorem finishSync_ok (hL : L.Lawful) (hc : c.WellFormed)
    (hdust : Replay.Honest c.dust around.dust)
    (hstart : Resumes LedgerEvent.id start.dust.nextId c.dust done todo) {w : Wallet Z D P v}
    (h : (finishSync L sync block start around size).2 = some (.ok w)) :
    ∃ d, finishPlayed L block start.dust todo = .ok d ∧
      w.snapshot = start.snapshot sync.chainPin d := by
  cases hparameters : decodeLedgerParameters L v block with
  | error e =>
    unfold finishSync at h
    rw [hparameters] at h
    cases h
  | ok parameters =>
    cases htime : blockTime block with
    | error e =>
      unfold finishSync at h
      rw [hparameters, htime] at h
      cases h
    | ok time =>
      rw [finishSync_eq hparameters htime] at h
      exact assembled_ok hL hc hdust hstart hparameters htime (saveSynced_ok h)

/-- Every snapshot that the end of a sync hands to the disk holds the Dust
events up to its cursor. -/
theorem finishSync_writes (hL : L.Lawful) (hc : c.WellFormed)
    (hdust : Replay.Honest c.dust around.dust)
    (hstart : Resumes LedgerEvent.id start.dust.nextId c.dust done todo) (s : Snapshot Z D v)
    (hs : s ∈ (finishSync L sync block start around size).1) :
    ∃ early late, early ++ late = todo ∧ ∃ d, finishPlayed L block start.dust early = .ok d ∧
      s = start.snapshot sync.chainPin d := by
  cases hparameters : decodeLedgerParameters L v block with
  | error e =>
    unfold finishSync at hs
    rw [hparameters] at hs
    cases hs
  | ok parameters =>
    cases htime : blockTime block with
    | error e =>
      unfold finishSync at hs
      rw [hparameters, htime] at hs
      cases hs
    | ok time =>
      rw [finishSync_eq hparameters htime] at hs
      rcases List.mem_append.mp hs with hs | hs
      · obtain ⟨d, hd, rfl⟩ := List.mem_map.mp hs
        obtain ⟨early, late, hsplit, seen, hplay, hwallet⟩ := replayDustEvents_saved hL hc.dust.1
          hc.dust.2 (hstart.startsAfter (dustArgs L v _ start.dust.nextId _ _ _) rfl) hdust d hd
        refine ⟨early, late, hsplit, d, ?_, rfl⟩
        rw [finishPlayed_eq hparameters htime]
        unfold dustPlayed
        rw [hplay]
        simp only [bind, Except.bind, expectNoLater, hwallet]
      · obtain ⟨w, hassembled, rfl⟩ := mem_saveSynced hs
        exact ⟨todo, [], List.append_nil _,
          assembled_ok hL hc hdust hstart hparameters htime hassembled⟩

variable (block) in
/-- Uninterrupted, the end of a sync succeeds as its Dust stream does. -/
theorem finishSync_serveAll (hL : L.Lawful) (hc : c.WellFormed) (sync : SyncOptions)
    (stored : Option PendingReservations)
    (hstart : Resumes LedgerEvent.id start.dust.nextId c.dust done todo) :
    ∃ result, (finishSync L sync block start (c.serveAll stored)).2 = some result ∧
      Agree (result >>= fun w => .ok w.snapshot)
        (finishPlayed L block start.dust todo >>= fun d =>
          .ok (start.snapshot sync.chainPin d)) := by
  cases hparameters : decodeLedgerParameters L v block with
  | error e =>
    refine ⟨.error e, ?_, ?_⟩
    · unfold finishSync
      rw [hparameters]
    · unfold finishPlayed
      rw [hparameters]
      exact .of_error _ _
  | ok parameters =>
    cases htime : blockTime block with
    | error e =>
      refine ⟨.error e, ?_, ?_⟩
      · unfold finishSync
        rw [hparameters, htime]
      · unfold finishPlayed
        rw [hparameters, htime]
        exact .of_error _ _
    | ok time =>
      rw [finishSync_eq hparameters htime, finishPlayed_eq hparameters htime]
      obtain ⟨result, hresult, hagree⟩ := replayDustEvents_serveAll hL hc.dust.1 hc.dust.2
        (startWallet L parameters start.dust) (sync.hasStorage && sync.save)
        dustCheckpointInterval
        (hstart.startsAfter (dustArgs L v replayBatch start.dust.nextId _ _ _) rfl)
        (hstart.quiet.imp_left (fun hnext => decide_eq_true hnext))
      simp only
      rw [show (c.serveAll stored).dust = [Replay.serveAll c.dust] from rfl, hresult]
      unfold dustPlayed
      cases result with
      | error e =>
        refine ⟨.error e, rfl, ?_⟩
        cases hplay : playDust L v ⟨startWallet L parameters start.dust, none, []⟩
            (lastAppliedBefore start.dust.nextId) todo with
        | error e' => exact .of_error _ _
        | ok out =>
          have := (hagree out).mpr hplay
          cases this
      | ok dust =>
        rw [(hagree _).mp rfl]
        simp only [finishDust, andThen, bind, Except.bind]
        cases expectNoLater v dust.laterLedger with
        | error e => exact ⟨_, rfl, .of_error _ _⟩
        | ok u =>
          by_cases hsave : (sync.hasStorage && sync.save) = true
          · simp only [hsave, if_true, Chain.serveAll, saveSynced]
            exact ⟨_, rfl, .refl _⟩
          · simp only [hsave, saveSynced]
            exact ⟨_, rfl, .refl _⟩

end Finishing

end MidnightRs.ChainSync
