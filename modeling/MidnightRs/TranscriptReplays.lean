import MidnightRs.RunRecords
import MidnightRs.SkipMachines

/-!
The public transcript of a run, as the chain replays it. A run queries the ledger
machine once for each operation on the ledger, with fresh effects each time; the
chain runs the operations of all queries as one program, with the values that were
read filled in and without the operations that do nothing.
-/
namespace MidnightRs.Circuits

open MidnightRs.Compact Triples SkipMachines Results

section Machines

/-- The ledger machine, operation by operation, over the values of `base`. A query
starts with its context, the effects and the state on the stack. -/
structure StackMachine where
  base : Vm
  Effects : Type
  Stack : Type
  noEffects : Effects
  enter : base.CallContext → Effects → base.State → Stack
  leave : Stack → Except String (Effects × base.State)
  plain : Op base.State → Stack → Except String Stack
  popValue : Bool → Stack → Except String (AlignedValue × Stack)
  popCondition : Stack → Except String (Bool × Stack)
  popLog : Stack → Except String (base.Log × Stack)
  pastEnd : Stack → Except String Stack

/-- The most operations that an operation skips. -/
def Op.skipOf {State : Type} : Op State → ℕ
  | .branch skip => skip
  | .jmp skip => skip
  | _ => 0

def Op.isPopeq {State : Type} : Op State → Bool
  | .popeq _ => true
  | _ => false

/-- An operation with the value that it has to read. -/
inductive VerifyOp (State : Type) where
  | popeq (cached : Bool) (result : AlignedValue)
  | other (op : Op State)
deriving DecidableEq, Repr

def Op.translate {State : Type} (op : Op State) (result : AlignedValue) : VerifyOp State :=
  match op with
  | .popeq cached => .popeq cached result
  | op => .other op

def VerifyOp.skipOf {State : Type} : VerifyOp State → ℕ
  | .popeq _ _ => 0
  | .other op => op.skipOf

/-- The operations with what was read, and with the empty value once the reads run
out. -/
def publicTranscript {State : Type} : List (Op State) → List AlignedValue → List (VerifyOp State)
  | [], _ => []
  | op :: ops, reads =>
    op.translate (reads.headD .unit) ::
      publicTranscript ops (if op.isPopeq then reads.tail else reads)

/-- Whether the replay takes the operation over. -/
def VerifyOp.kept {State : Type} : VerifyOp State → Bool
  | .other (.idx _ _ path) => !path.isEmpty
  | .other (.ins _ n) => decide (n ≠ 0)
  | _ => true

namespace ExecutionResult

variable {vm : Vm}

def publicTranscript (ran : ExecutionResult vm) : List (VerifyOp vm.State) :=
  Circuits.publicTranscript ran.context.gatherOps ran.context.reads

/-- The program that the chain replays. -/
def verifyOps (ran : ExecutionResult vm) : List (VerifyOp vm.State) :=
  ran.publicTranscript.filter VerifyOp.kept

end ExecutionResult

namespace StackMachine

variable (M : StackMachine)

/-- One operation of a run, which reports what it reads. -/
def gatherStep (op : Op M.base.State) (s : M.Stack) :
    Except String (Move M.Stack (GatherEvent M.base.Log)) :=
  match op with
  | .popeq cached => (M.popValue cached s).map (fun r => ⟨r.2, [.read r.1], 0⟩)
  | .branch skip => (M.popCondition s).map (fun r => ⟨r.2, [], if r.1 then skip else 0⟩)
  | .jmp skip => .ok ⟨s, [], skip⟩
  | .log => (M.popLog s).map (fun r => ⟨r.2, [.log r.1], 0⟩)
  | op => (M.plain op s).map (fun s => ⟨s, [], 0⟩)

def gather : Machine (Op M.base.State) M.Stack (GatherEvent M.base.Log) String :=
  ⟨M.gatherStep, M.pastEnd⟩

/-- The machine as runs query it: the effects are fresh, and dropped. -/
abbrev vm : Vm where
  State := M.base.State
  Log := M.base.Log
  CallContext := M.base.CallContext
  null := M.base.null
  cell := M.base.cell
  array := M.base.array
  map := M.base.map
  blankMerkleTree := M.base.blankMerkleTree
  query callContext state ops := do
    let (events, s) ← M.gather.run 0 ops (M.enter callContext M.noEffects state)
    let (_, state) ← M.leave s
    pure (events, state)

/-- One operation of a replay, which refuses to read another value. -/
def verifyStep (op : VerifyOp M.base.State) (s : M.Stack) :
    Except String (Move M.Stack M.base.Log) :=
  match op with
  | .popeq cached result => (M.popValue cached s).bind (fun r =>
      if r.1 = result then .ok ⟨r.2, [], 0⟩ else .error "read mismatch")
  | .other op =>
      (M.gatherStep op s).map (fun move => ⟨move.state, @logsOf M.vm move.events, move.skip⟩)

def verify : Machine (VerifyOp M.base.State) M.Stack M.base.Log String :=
  ⟨M.verifyStep, M.pastEnd⟩

/-- An `idx` of an empty path and an `ins` of no levels leave the stack as it is. -/
structure Idles : Prop where
  idx : ∀ cached pushPath s s', M.plain (.idx cached pushPath []) s = .ok s' → s' = s
  ins : ∀ cached s s', M.plain (.ins cached 0) s = .ok s' → s' = s

/-- Whatever the effects so far, the query goes the same way, and it leaves its
context in place. -/
def Independent (callContext : M.base.CallContext) (ops : List (Op M.base.State)) : Prop :=
  ∀ state events state', M.vm.query callContext state ops = .ok (events, state') →
    ∀ effects, ∃ effects', M.gather.run 0 ops (M.enter callContext effects state) =
      .ok (events, M.enter callContext effects' state')

end StackMachine

/-- An operation that a skip may pass over: it reads nothing, and the replay takes
it over. -/
def Op.steady {State : Type} (op : Op State) : Bool := !op.isPopeq && (VerifyOp.other op).kept

/-- The skips stay inside the program, and pass over steady operations. -/
abbrev Tidy {State : Type} (ops : List (Op State)) : Prop := Guarded Op.skipOf Op.steady ops

end Machines

section Steps

variable {M : StackMachine}

theorem translate_popeq {State : Type} {op : Op State} (h : op.isPopeq = true) (av : AlignedValue) :
    ∃ cached, op = .popeq cached ∧ op.translate av = .popeq cached av := by
  cases op <;> first | exact ⟨_, rfl, rfl⟩ | cases h

theorem translate_other {State : Type} {op : Op State} (h : op.isPopeq = false)
    (av : AlignedValue) : op.translate av = .other op := by
  cases op <;> first | rfl | cases h

/-- What does not pop a value reads nothing. -/
theorem gatherStep_reads {op : Op M.base.State} (h : op.isPopeq = false) {s : M.Stack}
    {move : Move M.Stack (GatherEvent M.base.Log)} (hstep : M.gatherStep op s = .ok move) :
    @readsOf M.vm move.events = [] := by
  cases op with
  | popeq cached => cases h
  | branch skip =>
    obtain ⟨r, -, rfl⟩ := map_ok_iff.mp hstep
    rfl
  | jmp skip =>
    cases hstep
    rfl
  | log =>
    obtain ⟨r, -, rfl⟩ := map_ok_iff.mp hstep
    rfl
  | _ =>
    obtain ⟨r, -, rfl⟩ := map_ok_iff.mp hstep
    rfl

theorem gather_within : M.gather.Within Op.skipOf := by
  intro op s move hstep
  cases op with
  | branch skip =>
    obtain ⟨r, -, rfl⟩ := map_ok_iff.mp hstep
    simp only [Op.skipOf]
    split <;> omega
  | jmp skip =>
    cases hstep
    exact le_refl _
  | popeq cached =>
    obtain ⟨r, -, rfl⟩ := map_ok_iff.mp hstep
    exact le_refl _
  | log =>
    obtain ⟨r, -, rfl⟩ := map_ok_iff.mp hstep
    exact le_refl _
  | _ =>
    obtain ⟨r, -, rfl⟩ := map_ok_iff.mp hstep
    exact le_refl _

theorem verify_within : M.verify.Within VerifyOp.skipOf := by
  intro op s move hstep
  cases op with
  | popeq cached result =>
    obtain ⟨r, -, h⟩ := bind_ok_iff.mp hstep
    split at h
    · cases h
      exact le_refl _
    · cases h
  | other op =>
    obtain ⟨move', hmove', rfl⟩ := map_ok_iff.mp hstep
    exact gather_within op s move' hmove'

/-- What the replay leaves out does nothing. -/
theorem verify_idle (hidles : M.Idles) (op : VerifyOp M.base.State) (s : M.Stack)
    (move : Move M.Stack M.base.Log) (h : op.kept = false) (hstep : M.verify.step op s = .ok move) :
    move = ⟨s, [], 0⟩ := by
  cases op with
  | popeq cached result => cases h
  | other op =>
    obtain ⟨move', hmove', rfl⟩ := map_ok_iff.mp hstep
    cases op with
    | idx cached pushPath path =>
      obtain rfl : path = [] := by simpa [VerifyOp.kept] using h
      obtain ⟨s', hs', rfl⟩ := map_ok_iff.mp hmove'
      rw [hidles.idx cached pushPath s s' hs']
      rfl
    | ins cached n =>
      obtain rfl : n = 0 := by simpa [VerifyOp.kept] using h
      obtain ⟨s', hs', rfl⟩ := map_ok_iff.mp hmove'
      rw [hidles.ins cached s s' hs']
      rfl
    | _ => cases h

end Steps

section Replays

variable {M : StackMachine}

theorem publicTranscript_length {State : Type} (ops : List (Op State)) (reads : List AlignedValue) :
    (publicTranscript ops reads).length = ops.length := by
  induction ops generalizing reads with
  | nil => rfl
  | cons op ops ih => exact congrArg (· + 1) (ih _)

theorem translate_skipOf {State : Type} (op : Op State) (av : AlignedValue) :
    (op.translate av).skipOf = op.skipOf := by
  cases op <;> rfl

theorem translate_steady {State : Type} {op : Op State} (h : op.steady = true) (av : AlignedValue) :
    op.translate av = .other op ∧ (VerifyOp.other op).kept = true := by
  rw [Op.steady, Bool.and_eq_true, Bool.not_eq_true'] at h
  exact ⟨translate_other h.1 av, h.2⟩

theorem publicTranscript_take {State : Type} {ops : List (Op State)} {reads : List AlignedValue}
    {n : ℕ} (h : ∀ op ∈ ops.take n, op.steady = true) :
    ∀ op ∈ (publicTranscript ops reads).take n, op.kept = true := by
  induction ops generalizing reads n with
  | nil =>
    intro op hop
    rw [publicTranscript, List.take_nil] at hop
    cases hop
  | cons op ops ih =>
    cases n with
    | zero =>
      intro op' hop
      cases hop
    | succ n =>
      intro op' hop
      obtain ⟨htranslate, hkept⟩ := translate_steady (h op List.mem_cons_self) (reads.headD .unit)
      rcases List.mem_cons.mp hop with rfl | hop
      · rw [htranslate]
        exact hkept
      · exact ih (fun op' hop' => h op' (List.mem_cons_of_mem op hop')) op' hop

/-- The transcript skips where the program does. -/
theorem guarded_publicTranscript {State : Type} {ops : List (Op State)} (h : Tidy ops)
    (reads : List AlignedValue) :
    Guarded VerifyOp.skipOf VerifyOp.kept (publicTranscript ops reads) := by
  induction ops generalizing reads with
  | nil => trivial
  | cons op ops ih =>
    obtain ⟨hlength, hsteady, hrest⟩ := h
    rw [publicTranscript, Guarded, translate_skipOf, publicTranscript_length]
    exact ⟨hlength, publicTranscript_take hsteady, ih hrest _⟩

/-- A replay of a run's operations, with what the run read, goes as the run did. -/
theorem verify_of_gather {ops : List (Op M.base.State)} {n : ℕ} {s : M.Stack}
    {r : List (GatherEvent M.base.Log) × M.Stack} (h : Tidy ops) (hn : n ≤ ops.length)
    (hsteady : ∀ op ∈ ops.take n, op.steady = true) (hrun : M.gather.run n ops s = .ok r) :
    M.verify.run n (publicTranscript ops (@readsOf M.vm r.1)) s = .ok (@logsOf M.vm r.1, r.2) := by
  induction ops generalizing n s r with
  | nil =>
    obtain rfl : n = 0 := Nat.le_zero.mp hn
    obtain rfl := Except.ok.inj hrun
    rfl
  | cons op ops ih =>
    cases n with
    | succ n =>
      have hop : op.isPopeq = false := by
        have hop := hsteady op List.mem_cons_self
        rw [Op.steady, Bool.and_eq_true, Bool.not_eq_true'] at hop
        exact hop.1
      rw [publicTranscript, hop]
      exact ih h.2.2 (Nat.le_of_succ_le_succ hn)
        (fun op' hop' => hsteady op' (List.mem_cons_of_mem op hop')) hrun
    | zero =>
      obtain ⟨move, rest, hmove, hrest, rfl⟩ := (Machine.run_cons_iff _).mp hrun
      have hskip := gather_within op s move hmove
      have hreplay := ih h.2.2 (Nat.le_trans hskip h.1)
        (fun op' hop' => h.2.1 op' (List.take_subset_take_left ops hskip hop')) hrest
      refine (Machine.run_cons_iff _).mpr ⟨⟨move.state, @logsOf M.vm move.events, move.skip⟩,
        (@logsOf M.vm rest.1, rest.2), ?_, ?_, ?_⟩
      · cases hop : op.isPopeq with
        | true =>
          obtain ⟨cached, rfl, htranslate⟩ := translate_popeq hop
            ((@readsOf M.vm (move.events ++ rest.1)).headD .unit)
          rw [htranslate]
          obtain ⟨popped, hpopped, rfl⟩ := map_ok_iff.mp hmove
          exact bind_ok_iff.mpr ⟨popped, hpopped, if_pos rfl⟩
        | false =>
          rw [translate_other hop]
          exact map_ok_iff.mpr ⟨move, hmove, rfl⟩
      · cases hop : op.isPopeq with
        | true =>
          obtain ⟨cached, rfl, -⟩ := translate_popeq hop .unit
          obtain ⟨popped, -, rfl⟩ := map_ok_iff.mp hmove
          exact hreplay
        | false =>
          rw [readsOf_append, gatherStep_reads hop hmove]
          exact hreplay
      · rw [logsOf_append]

/-- The queries of a run, each on fresh effects, go the same way one after the other
on effects that accumulate. -/
theorem gather_queries {callContext : M.base.CallContext}
    {queries : List (List (Op M.base.State))} {state : M.base.State}
    {r : List (GatherEvent M.base.Log) × M.base.State}
    (htidy : ∀ ops ∈ queries, Tidy ops)
    (hindependent : ∀ ops ∈ queries, M.Independent callContext ops)
    (hruns : @runQueries M.vm callContext queries state = .ok r) (effects : M.Effects) :
    ∃ effects', M.gather.run 0 queries.flatten (M.enter callContext effects state) =
      .ok (r.1, M.enter callContext effects' r.2) := by
  induction queries generalizing state r effects with
  | nil =>
    obtain rfl := Except.ok.inj hruns
    exact ⟨effects, rfl⟩
  | cons ops queries ih =>
    obtain ⟨first, hfirst, hruns⟩ := exists_of_bind hruns
    obtain ⟨rest, hrest, hruns⟩ := exists_of_bind hruns
    obtain rfl := Except.ok.inj hruns
    obtain ⟨effects', hrun⟩ := hindependent ops List.mem_cons_self state first.1 first.2 hfirst
      effects
    obtain ⟨effects'', hrun'⟩ := ih (fun q hq => htidy q (List.mem_cons_of_mem ops hq))
      (fun q hq => hindependent q (List.mem_cons_of_mem ops hq)) hrest effects'
    exact ⟨effects'', run_append gather_within (htidy ops List.mem_cons_self) (Nat.zero_le _)
      hrun hrun'⟩

end Replays

section Executions

variable {c : Codecs} (crypto : Crypto c) {M : StackMachine} (program : Program) {env : Env M.vm}

/-- The chain replays what a run did. An execution is the replay of its requests; if
each of its queries is tidy and goes the same way whatever the effects so far, the
program of its transcript runs on one context from the state that the execution
began with, finds every value that was read, logs the same, and ends in the state
that the execution ended in. -/
theorem transcript_replays (hidles : M.Idles) {fuel : ℕ} {circuit : Circuit}
    {state : M.base.State} {privateState : Bytes} {args : List (String × Value)}
    {ran : ExecutionResult M.vm}
    (h : execute crypto program env fuel circuit state privateState args = .ok ran) :
    (∃ requests, replay env requests (@initialContext M.vm state privateState).record =
        some ran.context.record) ∧
      ∀ requests, replay env requests (@initialContext M.vm state privateState).record =
          some ran.context.record →
        (∀ ops ∈ queriesOf requests, Tidy ops ∧ M.Independent env.callContext ops) →
          ∃ effects, M.verify.run 0 ran.verifyOps (M.enter env.callContext M.noEffects state) =
            .ok (ran.context.logs, M.enter env.callContext effects ran.context.state) := by
  refine ⟨?_, fun requests hreplay hqueries => ?_⟩
  · unfold execute at h
    cases hrun : (runCircuit crypto program env fuel circuit args).run
        (@initialContext M.vm state privateState) with
    | error halt =>
      rw [hrun] at h
      cases h
    | ok r =>
      rw [hrun] at h
      cases h
      exact replays_runCircuit crypto program fuel circuit args _ _ _ hrun
  · obtain ⟨events, hruns, hops, hreads, hlogs⟩ := replay_public hreplay
    have htidy : Tidy (queriesOf requests).flatten :=
      Guarded.flatten fun ops hops => (hqueries ops hops).1
    obtain ⟨effects, hgather⟩ := gather_queries (fun ops hops => (hqueries ops hops).1)
      (fun ops hops => (hqueries ops hops).2) hruns M.noEffects
    have hverify := verify_of_gather htidy (Nat.zero_le _) (fun op hop => by cases hop) hgather
    refine ⟨effects, ?_⟩
    have hprogram : ran.verifyOps = (publicTranscript (queriesOf requests).flatten
        (readsOf events)).filter VerifyOp.kept :=
      congrArg₂ (fun ops reads => (publicTranscript ops reads).filter VerifyOp.kept) hops hreads
    have hlogs : ran.context.logs = logsOf events := hlogs
    rw [hprogram, hlogs]
    exact run_filter verify_within (verify_idle hidles) (guarded_publicTranscript htidy _)
      (Nat.zero_le _) (fun op hop => by cases hop) hverify

end Executions

section Tallies

/-- A machine over a number, whose effects count the additions. -/
def tallyMachine : StackMachine where
  base :=
    { State := ℕ
      Log := ℕ
      CallContext := Unit
      null := 0
      cell := fun av => ofLeBytes (av.value.headD [])
      array := fun _ => 0
      map := fun _ => 0
      blankMerkleTree := fun height => height
      query := fun _ _ _ => .error "" }
  Effects := ℕ
  Stack := ℕ × ℕ × List ℕ
  noEffects := 0
  enter _ effects state := (effects, state, [])
  leave s := if s.2.2.isEmpty then .ok (s.1, s.2.1) else .error "the stack is not empty"
  plain op s := match op with
    | .push _ value => .ok (s.1, s.2.1, value :: s.2.2)
    | .addi n => .ok (s.1 + 1, s.2.1 + n, s.2.2)
    | .dup _ => .ok (s.1, s.2.1, s.2.1 :: s.2.2)
    | .idx _ _ [] => .ok s
    | .ins _ 0 => .ok s
    | _ => .error "no such operation"
  popValue _ s := match s.2.2 with
    | [] => .error "the stack is empty"
    | n :: rest => .ok (.single (trim (toLeBytes 8 n)) (.bytes 8), s.1, s.2.1, rest)
  popCondition s := match s.2.2 with
    | [] => .error "the stack is empty"
    | n :: rest => .ok (decide (n ≠ 0), s.1, s.2.1, rest)
  popLog s := match s.2.2 with
    | [] => .error "the stack is empty"
    | n :: rest => .ok (n, s.1, s.2.1, rest)
  pastEnd _ := .error "past the end"

/-- Adds five to a tally of zero, then two, and reads it. -/
def tallyInstructions : List Instruction :=
  [.mk .idx [("path", .list [])], .mk .dup [("n", .int 0)], .mk .branch [("skip", .int 1)],
    .mk .addi [("immediate", .int 5)], .mk .addi [("immediate", .int 2)],
    .mk .dup [("n", .int 0)], .mk .popeq []]

def tallyOps : List (Op ℕ) :=
  [.idx false false [], .dup 0, .branch 1, .addi 5, .addi 2, .dup 0, .popeq false]

def tallyCircuit : Circuit :=
  booleanCircuit "%tally.1" (.seq [.publicLedger "%total.0" (.plain "update") [] "count"
    (.bytes 8) tallyInstructions [], .quote (.bool true)])

def tallyEnv : Env tallyMachine.vm where
  callWitness state _ _ := .ok (none, state)
  callContext := ()
  hasAddress := true
  coinPublicKey := none

theorem tallyMachine_idles : tallyMachine.Idles :=
  ⟨fun _ _ _ _ h => (Except.ok.inj h).symm, fun _ _ _ h => (Except.ok.inj h).symm⟩

theorem tallyOps_independent : tallyMachine.Independent () tallyOps := by
  intro state events state' h effects
  cases state with
  | zero =>
    cases h
    exact ⟨Nat.succ (Nat.succ effects), rfl⟩
  | succ n =>
    cases h
    exact ⟨Nat.succ effects, rfl⟩

theorem tallyOps_tidy : Tidy tallyOps := by decide

/-- Two additions on a tally of seven: the replay leaves the navigation out, takes
the branch and finds the tally of nine. -/
theorem transcript_replays_tally :
    ∃ ran, execute plainCrypto ⟨[], [], []⟩ tallyEnv 4 tallyCircuit (7 : ℕ) [] [] = .ok ran ∧
      ran.context.state = (9 : ℕ) ∧ ran.verifyOps.length = 6 ∧
      ∃ effects, tallyMachine.verify.run 0 ran.verifyOps (0, 7, []) = .ok ([], effects, 9, []) := by
  refine ⟨_, rfl, rfl, rfl, ?_⟩
  refine (transcript_replays plainCrypto ⟨[], [], []⟩ tallyMachine_idles
    (rfl : execute plainCrypto ⟨[], [], []⟩ tallyEnv 4 tallyCircuit (7 : ℕ) [] [] = .ok _)).2
    [.query tallyOps] rfl fun ops hops => ?_
  obtain rfl := List.mem_singleton.mp hops
  exact ⟨tallyOps_tidy, tallyOps_independent⟩

end Tallies

end MidnightRs.Circuits
