import MidnightRs.Submission
import MidnightRs.TransferBuilds
import Mathlib.Data.List.Nodup

/-!
Transactions of several parties. Each party proves its own transfer, and merging the
proven bytes gives one transaction, which leaves over in each token what the parties'
requests declare together. The ledger's proofs, encodings and merge are parameters.
-/
namespace MidnightRs.Settlements

open Results Reservations WalletBuilds TransferBuilds
open Submission (ProviderError)

/-- A proven transaction, and the inputs reserved for it. -/
structure TransferResult where
  txBytes : Bytes
  ledgerVersion : LedgerVersion
  spent : SpentInputs
  feeSpeck : ℕ
deriving DecidableEq, Repr

/-- A proof backend fails with a message of its own. -/
inductive BuildError where
  | proving (message : String)
  | wallet (e : WalletError)
deriving DecidableEq, Repr

/-- What a transaction moves: what it leaves over in each token, the segments of its
intents, and the inputs and the Dust it spends. -/
structure Contents where
  networkId : String
  segments : List ℕ
  delta : Token → ℤ
  coins : List Nullifier
  keys : List SpentUtxoKey
  dust : List DustNullifier

def contentsOf {I D : Type} (nullifier : I → Nullifier) (tx : UnprovenTx I D) : Contents where
  networkId := tx.networkId
  segments := tx.intents.map Prod.fst
  delta := net tx.entries
  coins := tx.spentCoins nullifier
  keys := tx.spentKeys
  dust := tx.spentDust

/-- One generation of the ledger, with what its proven transactions hold, the coins
that they create, and what their offers name. -/
structure Generation (I D T : Type) where
  nullifier : I → Nullifier
  prove : UnprovenTx I D → Except String T
  merge : T → T → Except String T
  fees : T → Except String ℕ
  serialize : T → Except String Bytes
  deserialize : Bytes → Except String T
  contents : T → Contents
  created : T → List Bytes
  names : T → List Bytes

/-- The generations that the SDK links, told apart by the tag of an encoding. -/
structure Generations (I D T : Type) where
  generation : LedgerVersion → Generation I D T
  ofTransaction : Bytes → Except String LedgerVersion

variable {I D T Z : Type}

/-- Proves a build and serializes it; it touches no wallet. -/
def provePrepared (G : Generation I D T) (v : LedgerVersion) (h : Helpers) (ctx : BuildContext)
    (p : Prepared I D) : Except BuildError TransferResult := do
  let finalized ← (G.prove p.tx).mapError BuildError.proving
  let bytes ← (G.serialize finalized).mapError (fun e => .wallet (.transfer s!"serialize: {e}"))
  let feeSpeck ← (G.fees finalized).mapError (fun e => .wallet (.transfer s!"fees: {e}"))
  .ok ⟨bytes, v, p.draft.spentInputs (ctx.block h).tblock, feeSpeck⟩

def nothingToMerge : ProviderError :=
  .transaction "merge_transactions requires at least one transaction"

namespace Generation

variable (G : Generation I D T)

def deserializeTransaction (bytes : Bytes) : Except ProviderError T :=
  (G.deserialize bytes).mapError (fun e => .transaction s!"deserialize transaction: {e}")

def mergeEach : T → List Bytes → Except ProviderError T
  | merged, [] => .ok merged
  | merged, bytes :: rest => do
    let other ← G.deserializeTransaction bytes
    let merged ← (G.merge merged other).mapError (fun e => .transaction s!"merge transactions: {e}")
    mergeEach merged rest

def mergeTransactions : List Bytes → Except ProviderError Bytes
  | [] => .error nothingToMerge
  | first :: rest => do
    let merged ← G.deserializeTransaction first
    let merged ← G.mergeEach merged rest
    (G.serialize merged).mapError (fun e => .transaction s!"serialize merged transaction: {e}")

end Generation

namespace Generations

variable (A : Generations I D T)

def transactionLedgerVersion (bytes : Bytes) : Except ProviderError LedgerVersion :=
  (A.ofTransaction bytes).mapError (fun e => .transaction s!"deserialize transaction: {e}")

def refuseOther (ledger : LedgerVersion) : List Bytes → Except ProviderError Unit
  | [] => .ok ()
  | bytes :: rest => do
    let other ← A.transactionLedgerVersion bytes
    if other ≠ ledger then
      .error (.transaction (s!"cannot merge a {ledger.display} transaction with " ++
        s!"a {other.display} transaction"))
    else refuseOther ledger rest

/-- Merges proven transactions of one generation. -/
def mergeTransactions : List Bytes → Except ProviderError Bytes
  | [] => .error nothingToMerge
  | first :: rest => do
    let ledger ← A.transactionLedgerVersion first
    A.refuseOther ledger rest
    (A.generation ledger).mergeTransactions (first :: rest)

end Generations

/-- What merging two transactions gives. -/
structure Merged (a b c : Contents) : Prop where
  networkId : c.networkId = a.networkId
  segments : c.segments.Perm (a.segments ++ b.segments)
  delta : ∀ token, c.delta token = a.delta token + b.delta token
  coins : c.coins.Perm (a.coins ++ b.coins)
  keys : c.keys.Perm (a.keys ++ b.keys)
  dust : c.dust.Perm (a.dust ++ b.dust)

/-- What a generation promises. A proof changes nothing that a transaction moves. A
merge succeeds on one network when neither an intent's segment nor what an offer names
repeats, and offers that share a name spend or create one coin. -/
structure Generation.Lawful (G : Generation I D T) : Prop where
  proves : ∀ {tx t}, G.prove tx = .ok t → G.contents t = contentsOf G.nullifier tx
  merge_iff : ∀ a b, (∃ c, G.merge a b = .ok c) ↔
    (G.contents a).networkId = (G.contents b).networkId ∧
      (G.contents a).segments.Disjoint (G.contents b).segments ∧ (G.names a).Disjoint (G.names b)
  merged : ∀ {a b c}, G.merge a b = .ok c → Merged (G.contents a) (G.contents b) (G.contents c) ∧
    (G.names c).Perm (G.names a ++ G.names b)
  names_shared : ∀ {a b}, (G.contents a).coins.Disjoint (G.contents b).coins →
    (G.created a).Disjoint (G.created b) → (G.names a).Disjoint (G.names b)
  serialize_total : ∀ t, ∃ bytes, G.serialize t = .ok bytes
  deserialize_serialize : ∀ {t bytes}, G.serialize t = .ok bytes → G.deserialize bytes = .ok t

structure Generations.Lawful (A : Generations I D T) : Prop where
  generation : ∀ v, (A.generation v).Lawful
  tagged : ∀ {v t bytes}, (A.generation v).serialize t = .ok bytes → A.ofTransaction bytes = .ok v

section Merging

variable {G : Generation I D T}

/-- Merges the transactions after the first into it. -/
def mergeAll (G : Generation I D T) : T → List T → Except String T
  | t, [] => .ok t
  | t, u :: us => do
    let merged ← G.merge t u
    mergeAll G merged us

/-- Lists of which no two share an element. -/
def Apart {α : Type} (f : T → List α) (ts : List T) : Prop :=
  ts.Pairwise (fun t u => (f t).Disjoint (f u))

/-- Joining two lists that share nothing keeps what is apart, and what is not. -/
theorem apart_merged {α : Type} {f : T → List α} {t u m : T} {us : List T}
    (hm : (f m).Perm (f t ++ f u)) (htu : (f t).Disjoint (f u)) :
    Apart f (m :: us) ↔ Apart f (t :: u :: us) := by
  have hd : ∀ x, (f m).Disjoint (f x) ↔ (f t).Disjoint (f x) ∧ (f u).Disjoint (f x) := by
    intro x
    rw [hm.disjoint_left, List.disjoint_append_left]
  simp only [Apart, List.pairwise_cons, List.forall_mem_cons, hd]
  constructor
  · rintro ⟨hall, hrest⟩
    exact ⟨⟨htu, fun x hx => (hall x hx).1⟩, fun x hx => (hall x hx).2, hrest⟩
  · rintro ⟨⟨-, ht⟩, hu, hrest⟩
    exact ⟨fun x hx => ⟨ht x hx, hu x hx⟩, hrest⟩

theorem Apart.head {α : Type} {f : T → List α} {t u : T} {us : List T}
    (h : Apart f (t :: u :: us)) : (f t).Disjoint (f u) :=
  (List.pairwise_cons.mp h).1 u List.mem_cons_self

def segmentsIn (G : Generation I D T) (t : T) : List ℕ := (G.contents t).segments

/-- Transactions of one network, with no coin in two of them, merge exactly when no
segment holds the intents of two. -/
theorem mergeAll_iff (hG : G.Lawful) {t : T} {us : List T}
    (hnet : ∀ u ∈ us, (G.contents u).networkId = (G.contents t).networkId)
    (hnames : Apart G.names (t :: us)) :
    (∃ m, mergeAll G t us = .ok m) ↔ Apart (segmentsIn G) (t :: us) := by
  induction us generalizing t with
  | nil => exact ⟨fun _ => List.pairwise_singleton _ _, fun _ => ⟨t, rfl⟩⟩
  | cons u us ih =>
    obtain ⟨hu, hus⟩ := List.forall_mem_cons.mp hnet
    have hrest : ∀ m, G.merge t u = .ok m →
        ((∃ m', mergeAll G m us = .ok m') ↔ Apart (segmentsIn G) (t :: u :: us)) := by
      intro m hm
      obtain ⟨-, hsegs, -⟩ := (hG.merge_iff t u).mp ⟨m, hm⟩
      obtain ⟨hmerged, hperm⟩ := hG.merged hm
      rw [ih (fun x hx => (hus x hx).trans hmerged.networkId.symm)
        ((apart_merged hperm hnames.head).mpr hnames)]
      exact apart_merged (f := segmentsIn G) hmerged.segments hsegs
    constructor
    · rintro ⟨m, hm⟩
      obtain ⟨m', hm', hm⟩ := exists_of_bind hm
      exact (hrest m' hm').mp ⟨m, hm⟩
    · intro hapart
      obtain ⟨m', hm'⟩ := (hG.merge_iff t u).mpr ⟨hu.symm, hapart.head, hnames.head⟩
      obtain ⟨m, hm⟩ := (hrest m' hm').mpr hapart
      refine ⟨m, ?_⟩
      rw [mergeAll, hm']
      exact hm

/-- A merge moves what its parts move. -/
theorem mergeAll_contents (hG : G.Lawful) {t m : T} {us : List T} (h : mergeAll G t us = .ok m) :
    (∀ token, (G.contents m).delta token =
      ((t :: us).map (fun u => (G.contents u).delta token)).sum) ∧
      (G.contents m).coins.Perm ((t :: us).flatMap (fun u => (G.contents u).coins)) ∧
      (G.contents m).keys.Perm ((t :: us).flatMap (fun u => (G.contents u).keys)) ∧
      (G.contents m).dust.Perm ((t :: us).flatMap (fun u => (G.contents u).dust)) := by
  induction us generalizing t with
  | nil =>
    cases h
    simp
  | cons u us ih =>
    obtain ⟨m', hm', h⟩ := exists_of_bind h
    obtain ⟨hdelta, hcoins, hkeys, hdust⟩ := ih h
    obtain ⟨hmerged, -⟩ := hG.merged hm'
    refine ⟨fun token => ?_, hcoins.trans ?_, hkeys.trans ?_, hdust.trans ?_⟩
    · rw [hdelta token]
      simp only [List.map_cons, List.sum_cons, hmerged.delta token]
      omega
    · simp only [List.flatMap_cons, ← List.append_assoc]
      exact hmerged.coins.append_right _
    · simp only [List.flatMap_cons, ← List.append_assoc]
      exact hmerged.keys.append_right _
    · simp only [List.flatMap_cons, ← List.append_assoc]
      exact hmerged.dust.append_right _

def mergeErr (e : String) : ProviderError := .transaction s!"merge transactions: {e}"

/-- The bytes of transactions merge as the transactions do. -/
theorem mergeEach_eq (hG : G.Lawful) {us : List T} {bs : List Bytes}
    (hbs : List.Forall₂ (fun u b => G.serialize u = .ok b) us bs) (t : T) :
    G.mergeEach t bs = (mergeAll G t us).mapError mergeErr := by
  induction hbs generalizing t with
  | nil => rfl
  | @cons u b us bs hb _ ih =>
    have hother : G.deserializeTransaction b = .ok u := by
      rw [Generation.deserializeTransaction, hG.deserialize_serialize hb]
      rfl
    have hstep : G.mergeEach t (b :: bs) = ((G.merge t u).mapError mergeErr).bind
        (fun merged => G.mergeEach merged bs) := by
      rw [Generation.mergeEach, hother]
      rfl
    rw [hstep, mergeAll]
    cases G.merge t u with
    | error e => rfl
    | ok merged => exact ih merged

theorem deserialize_eq (hG : G.Lawful) {t : T} {b : Bytes} (h : G.serialize t = .ok b) :
    G.deserializeTransaction b = .ok t := by
  rw [Generation.deserializeTransaction, hG.deserialize_serialize h]
  rfl

/-- Merging bytes gives the bytes of the merged transaction. -/
theorem mergeTransactions_ok_iff (hG : G.Lawful) {t : T} {us : List T} {b : Bytes}
    {bs : List Bytes} (hb : G.serialize t = .ok b)
    (hbs : List.Forall₂ (fun u b => G.serialize u = .ok b) us bs) (bytes : Bytes) :
    G.mergeTransactions (b :: bs) = .ok bytes ↔
      ∃ m, mergeAll G t us = .ok m ∧ G.serialize m = .ok bytes := by
  rw [Generation.mergeTransactions, deserialize_eq hG hb]
  constructor
  · intro h
    obtain ⟨m, hm, h⟩ := exists_of_bind (x := G.mergeEach t bs) h
    rw [mergeEach_eq hG hbs] at hm
    exact ⟨m, mapError_ok hm, mapError_ok h⟩
  · rintro ⟨m, hm, hbytes⟩
    have heach : G.mergeEach t bs = .ok m := by
      rw [mergeEach_eq hG hbs, hm]
      rfl
    simp only [bind, Except.bind, heach, hbytes]
    rfl

/-- Bytes of one generation are merged by it. -/
theorem Generations.mergeTransactions_eq {A : Generations I D T} (hA : A.Lawful) {v : LedgerVersion}
    {t : T} {us : List T} {b : Bytes} {bs : List Bytes}
    (hb : (A.generation v).serialize t = .ok b)
    (hbs : List.Forall₂ (fun u b => (A.generation v).serialize u = .ok b) us bs) :
    A.mergeTransactions (b :: bs) = (A.generation v).mergeTransactions (b :: bs) := by
  have hversion : ∀ {t b}, (A.generation v).serialize t = .ok b →
      A.transactionLedgerVersion b = .ok v := by
    intro t b h
    rw [Generations.transactionLedgerVersion, hA.tagged h]
    rfl
  have hsame : A.refuseOther v bs = .ok () := by
    induction hbs with
    | nil => rfl
    | @cons u b us bs hu _ ih =>
      rw [Generations.refuseOther, hversion hu]
      simpa [bind, Except.bind] using ih
  rw [Generations.mergeTransactions, hversion hb]
  simp only [bind, Except.bind, hsame]

end Merging

section Parts

variable (A : Generations I D T) (Z : Type) (v : LedgerVersion)

/-- One party's proven transfer: what it asked its own wallet for, and what it got. -/
structure Part where
  toolkit : Toolkit I D Z
  lawful : toolkit.Lawful
  nullifier : toolkit.nullifier = (A.generation v).nullifier
  helpers : Helpers
  dust : DustParameters
  wallet : Wallet
  ctx : BuildContext
  request : TransferRequest
  prepared : Prepared I D
  prepare : toolkit.prepare helpers ctx dust request wallet = .ok prepared
  tx : T
  prove : (A.generation v).prove prepared.tx = .ok tx
  result : TransferResult
  proven : provePrepared (A.generation v) v helpers ctx prepared = .ok result

variable {A Z v}

namespace Part

/-- A part has an intent if its inputs are unshielded or it draws Dust. -/
def carriesIntent (p : Part A Z v) : Bool :=
  p.request.kind.ownIntent || !p.prepared.dustSpends.isEmpty

theorem conserved (p : Part A Z v) : Conserved p.toolkit p.helpers p.ctx p.request.ttl
    p.request.kind.declared p.request.kind.ownIntent p.prepared :=
  (prepare_conserves p.lawful p.prepare).1

theorem contents (hA : A.Lawful) (p : Part A Z v) :
    (A.generation v).contents p.tx = contentsOf p.toolkit.nullifier p.prepared.tx := by
  rw [p.nullifier]
  exact (hA.generation v).proves p.prove

theorem segments (hA : A.Lawful) (p : Part A Z v) :
    segmentsIn (A.generation v) p.tx = if p.carriesIntent then [Segment.fallible] else [] := by
  rw [segmentsIn, p.contents hA]
  have hsegs := p.conserved.segments
  unfold contentsOf carriesIntent
  simp only
  rw [hsegs]
  cases p.request.kind.ownIntent <;> cases hd : p.prepared.dustSpends <;> simp

/-- What a part's result holds is what its build reserved. -/
theorem result_eq (p : Part A Z v) : (A.generation v).serialize p.tx = .ok p.result.txBytes ∧
    p.result.spent = p.prepared.draft.spentInputs (p.ctx.block p.helpers).tblock := by
  obtain ⟨tx, htx, hserialize⟩ := exists_of_bind p.proven
  obtain ⟨bytes, hbytes, hfees⟩ := exists_of_bind hserialize
  obtain ⟨fee, -, hresult⟩ := exists_of_bind hfees
  have heq : p.tx = tx := Except.ok.inj (p.prove.symm.trans (mapError_ok htx))
  rw [← Except.ok.inj hresult, heq]
  exact ⟨mapError_ok hbytes, rfl⟩

theorem delta (hA : A.Lawful) (p : Part A Z v) (token : Token) :
    ((A.generation v).contents p.tx).delta token = net p.request.kind.declared token := by
  rw [p.contents hA]
  exact p.conserved.balance token

theorem coins (hA : A.Lawful) (p : Part A Z v) : ((A.generation v).contents p.tx).coins =
    p.result.spent.shielded.map ReservedInput.input := by
  rw [p.contents hA, p.result_eq.2]
  simpa [contentsOf, Draft.spentInputs, SpentInputs.stamped, Function.comp_def] using
    p.conserved.shielded.symm

theorem keys (hA : A.Lawful) (p : Part A Z v) : ((A.generation v).contents p.tx).keys =
    p.result.spent.unshielded.map ReservedInput.input := by
  rw [p.contents hA, p.result_eq.2]
  simpa [contentsOf, Draft.spentInputs, SpentInputs.stamped, Function.comp_def] using
    p.conserved.unshielded.symm

theorem dust_eq (hA : A.Lawful) (p : Part A Z v) : ((A.generation v).contents p.tx).dust =
    p.result.spent.dust.map ReservedInput.input := by
  rw [p.contents hA, p.result_eq.2]
  have hdust := p.conserved.dust
  rw [Prepared.dustSpends, List.map_flatMap] at hdust
  simpa [contentsOf, Draft.spentInputs, SpentInputs.stamped, Function.comp_def] using hdust

/-- Parts that share neither a coin they spend nor one they create name nothing twice. -/
theorem names_apart (hA : A.Lawful) {parts : List (Part A Z v)}
    (hspent : Apart (fun p : Part A Z v => p.result.spent.shielded.map ReservedInput.input) parts)
    (hcreated : Apart (fun p : Part A Z v => (A.generation v).created p.tx) parts) :
    Apart (fun p : Part A Z v => (A.generation v).names p.tx) parts := by
  refine (hspent.and hcreated).imp ?_
  rintro p q ⟨hcoins, hnew⟩
  refine (hA.generation v).names_shared ?_ hnew
  rw [p.coins hA, q.coins hA]
  exact hcoins

end Part

theorem apart_map {α β : Type} {f : β → List α} {g : T → β} {ts : List T} :
    Apart f (ts.map g) ↔ Apart (fun t => f (g t)) ts :=
  List.pairwise_map

/-- Intents that stand at one segment are apart when there is at most one. -/
theorem apart_iff_length {α : Type} (f : α → List ℕ) (carries : α → Bool)
    (hf : ∀ a, f a = if carries a then [Segment.fallible] else []) (as : List α) :
    Apart f as ↔ (as.filter carries).length ≤ 1 := by
  induction as with
  | nil => simp [Apart]
  | cons a as ih =>
    rw [Apart, List.pairwise_cons, ← Apart, ih, hf a]
    cases ha : carries a with
    | false => simp [ha]
    | true =>
      have hall : (∀ b ∈ as, List.Disjoint [Segment.fallible] (f b)) ↔ as.filter carries = [] := by
        rw [List.filter_eq_nil_iff]
        refine forall₂_congr fun b _ => ?_
        rw [hf b]
        cases carries b <;> simp
      simp only [if_true, hall, List.filter_cons_of_pos ha, List.length_cons]
      constructor
      · rintro ⟨hnil, -⟩
        rw [hnil]
        exact Nat.le_refl 1
      · intro hlen
        have hnil : as.filter carries = [] := List.eq_nil_of_length_eq_zero (by omega)
        exact ⟨hnil, by omega⟩

/-- Proven transfers of one network, with no coin spent or created in two of them,
merge exactly when at most one carries an intent. The result leaves over what the
requests declare together, and it spends exactly what the parties reserved. -/
theorem merge_settles (hA : A.Lawful) (network : String) (first : Part A Z v)
    (parts : List (Part A Z v))
    (hnet : ∀ p ∈ first :: parts, p.toolkit.networkId = network)
    (hspent : Apart (fun p : Part A Z v => p.result.spent.shielded.map ReservedInput.input)
      (first :: parts))
    (hcreated : Apart (fun p : Part A Z v => (A.generation v).created p.tx) (first :: parts)) :
    ((∃ bytes, A.mergeTransactions ((first :: parts).map (fun p => p.result.txBytes)) =
      .ok bytes) ↔ ((first :: parts).filter Part.carriesIntent).length ≤ 1) ∧
    ∀ bytes, A.mergeTransactions ((first :: parts).map (fun p => p.result.txBytes)) = .ok bytes →
      ∃ t, (A.generation v).deserialize bytes = .ok t ∧
        (∀ token, ((A.generation v).contents t).delta token =
          ((first :: parts).map (fun p => net p.request.kind.declared token)).sum) ∧
        ((A.generation v).contents t).coins.Perm
          ((first :: parts).flatMap (fun p => p.result.spent.shielded.map ReservedInput.input)) ∧
        ((A.generation v).contents t).keys.Perm
          ((first :: parts).flatMap
            (fun p => p.result.spent.unshielded.map ReservedInput.input)) ∧
        ((A.generation v).contents t).dust.Perm
          ((first :: parts).flatMap (fun p => p.result.spent.dust.map ReservedInput.input)) := by
  have hG := hA.generation v
  have hbs : List.Forall₂ (fun u b => (A.generation v).serialize u = .ok b)
      (parts.map Part.tx) (parts.map (fun p => p.result.txBytes)) := by
    rw [List.forall₂_map_left_iff, List.forall₂_map_right_iff, List.forall₂_same]
    exact fun p _ => p.result_eq.1
  have hmerge := fun bytes =>
    (Generations.mergeTransactions_eq hA first.result_eq.1 hbs).symm ▸
      mergeTransactions_ok_iff hG first.result_eq.1 hbs bytes
  have hnetwork : ∀ p ∈ first :: parts, ((A.generation v).contents p.tx).networkId = network := by
    intro p hp
    rw [p.contents hA, ← hnet p hp]
    exact p.conserved.networkId
  have hiff : (∃ m, mergeAll (A.generation v) first.tx (parts.map Part.tx) = .ok m) ↔
      Apart (segmentsIn (A.generation v)) ((first :: parts).map Part.tx) := by
    refine mergeAll_iff hG ?_ (apart_map.mpr (Part.names_apart hA hspent hcreated))
    intro u hu
    obtain ⟨p, hp, rfl⟩ := List.mem_map.mp hu
    rw [hnetwork p (List.mem_cons_of_mem first hp), hnetwork first List.mem_cons_self]
  refine ⟨?_, fun bytes hbytes => ?_⟩
  · rw [← apart_iff_length (fun p : Part A Z v => segmentsIn (A.generation v) p.tx) _
      (fun p => p.segments hA), ← apart_map, ← hiff]
    constructor
    · rintro ⟨bytes, hbytes⟩
      obtain ⟨m, hm, -⟩ := (hmerge bytes).mp hbytes
      exact ⟨m, hm⟩
    · rintro ⟨m, hm⟩
      obtain ⟨bytes, hserialize⟩ := hG.serialize_total m
      exact ⟨bytes, (hmerge bytes).mpr ⟨m, hm, hserialize⟩⟩
  · obtain ⟨m, hm, hserialize⟩ := (hmerge bytes).mp hbytes
    obtain ⟨hdelta, hcoins, hkeys, hdust⟩ := mergeAll_contents hG hm
    rw [← List.map_cons, List.flatMap_map] at hcoins hkeys hdust
    refine ⟨m, hG.deserialize_serialize hserialize, fun token => ?_, ?_, ?_, ?_⟩
    · rw [hdelta token, ← List.map_cons, List.map_map]
      exact congrArg List.sum (List.map_congr_left fun p _ => p.delta hA token)
    · exact hcoins.trans (List.Perm.of_eq (List.flatMap_congr fun p _ => p.coins hA))
    · exact hkeys.trans (List.Perm.of_eq (List.flatMap_congr fun p _ => p.keys hA))
    · exact hdust.trans (List.Perm.of_eq (List.flatMap_congr fun p _ => p.dust_eq hA))

end Parts

section Plain

/-- What a wallet with the given coins prepares. -/
def preparedFrom (coins : List Coin) (request : TransferRequest) : Prepared Nullifier String :=
  ((plainToolkit.prepare plainSelection (holding coins) ⟨5, 1⟩ request plainWallet).toOption).getD
    ⟨⟨"undeployed", none, []⟩, ⟨[], [], [], []⟩⟩

def giverCoins : List Coin := [⟨[1], [7], 3⟩, ⟨[2], [7], 4⟩]

def takerCoins : List Coin := [⟨[3], [8], 9⟩]

def payerCoins : List Coin := [⟨[4], [7], 6⟩]

/-- A payment that pays its own fee. -/
def payment : TransferRequest := ⟨.shielded [7] 4 "recipient" true, .largestFirst, none⟩

def giving : Prepared Nullifier String := preparedFrom giverCoins (swapHalf [7] 5 [8] 6)

def taking : Prepared Nullifier String := preparedFrom takerCoins (swapHalf [8] 6 [7] 5)

def paying : Prepared Nullifier String := preparedFrom payerCoins payment

/-- The transaction that a code names. -/
def codedTx (code : UInt8) : UnprovenTx Nullifier String :=
  if code = 1 then giving.tx else if code = 2 then taking.tx else paying.tx

/-- A ledger whose transactions are lists of codes. -/
def plainGeneration (v : LedgerVersion) : Generation Nullifier String Bytes where
  nullifier := id
  prove := fun tx => if tx = giving.tx then .ok [1] else if tx = taking.tx then .ok [2]
    else if tx = paying.tx then .ok [3] else .error "unsupported"
  merge := fun a b => if (a.any fun x => b.contains x) = true ∨
      (a.flatMap fun x => (codedTx x).intents.map Prod.fst).any
        (fun x => (b.flatMap fun x => (codedTx x).intents.map Prod.fst).contains x) = true then
      .error "cannot merge"
    else .ok (a ++ b)
  fees := fun _ => .ok 0
  serialize := fun t => .ok (UInt8.ofNat v.rank :: t)
  deserialize := fun bytes => .ok bytes.tail
  contents := fun t =>
    { networkId := "undeployed"
      segments := t.flatMap (fun x => (codedTx x).intents.map Prod.fst)
      delta := fun token => (t.map (fun x => net (codedTx x).entries token)).sum
      coins := t.flatMap (fun x => (codedTx x).spentCoins id)
      keys := t.flatMap (fun x => (codedTx x).spentKeys)
      dust := t.flatMap (fun x => (codedTx x).spentDust) }
  created := fun t => t.map (fun x => [x])
  names := fun t => t.map (fun x => [x])

def plainGenerations : Generations Nullifier String Bytes where
  generation := plainGeneration
  ofTransaction := fun bytes => if bytes.head? = some 8 then .ok .V8 else .ok .V9

theorem disjoint_iff_any {α : Type} [DecidableEq α] (a b : List α) :
    (a.any fun x => b.contains x) = false ↔ a.Disjoint b := by
  rw [List.any_eq_false]
  simp [List.Disjoint]

/-- A transaction of one code moves what the build of that code moves. -/
theorem contents_plain (v : LedgerVersion) {code : UInt8}
    (h : (codedTx code).networkId = "undeployed") :
    (plainGeneration v).contents [code] = contentsOf id (codedTx code) := by
  simp [plainGeneration, contentsOf, h]

theorem plainGeneration_lawful (v : LedgerVersion) : (plainGeneration v).Lawful where
  proves := by
    intro tx t h
    simp only [plainGeneration] at h
    split_ifs at h with hgiving htaking hpaying <;> cases h
    · rw [hgiving]
      exact contents_plain v rfl
    · rw [htaking]
      exact contents_plain v rfl
    · rw [hpaying]
      exact contents_plain v rfl
  merge_iff := by
    intro a b
    have hnames : ((plainGeneration v).names a).Disjoint ((plainGeneration v).names b) ↔
        a.Disjoint b := by
      simp only [plainGeneration, List.Disjoint, List.mem_map]
      exact ⟨fun h x ha hb => h ⟨x, ha, rfl⟩ ⟨x, hb, rfl⟩, fun h n hna hnb => by
        obtain ⟨x, ha, rfl⟩ := hna
        obtain ⟨y, hb, heq⟩ := hnb
        exact h ha (List.singleton_inj.mp heq ▸ hb)⟩
    rw [hnames, ← disjoint_iff_any, ← disjoint_iff_any]
    simp only [plainGeneration, true_and]
    split
    · rename_i htaken
      constructor
      · rintro ⟨c, hc⟩
        cases hc
      · rintro ⟨hsegment, hname⟩
        rcases htaken with h | h
        · exact absurd (h.symm.trans hname) (by decide)
        · exact absurd (h.symm.trans hsegment) (by decide)
    · rename_i hfree
      obtain ⟨hname, hsegment⟩ := not_or.mp hfree
      exact ⟨fun _ => ⟨Bool.eq_false_iff.mpr hsegment, Bool.eq_false_iff.mpr hname⟩,
        fun _ => ⟨_, rfl⟩⟩
  merged := by
    intro a b c h
    simp only [plainGeneration] at h
    split at h
    · cases h
    · cases h
      exact ⟨⟨rfl, by simp [plainGeneration], fun token => by simp [plainGeneration],
        by simp [plainGeneration], by simp [plainGeneration], by simp [plainGeneration]⟩,
        by simp [plainGeneration]⟩
  names_shared := fun _ hcreated => hcreated
  serialize_total := fun t => ⟨_, rfl⟩
  deserialize_serialize := by
    intro t bytes h
    cases h
    rfl

theorem plainGenerations_lawful : plainGenerations.Lawful where
  generation := plainGeneration_lawful
  tagged := by
    intro v t bytes h
    cases h
    cases v <;> rfl

/-- A half that a wallet of its own prepared and proved. -/
def givingPart : Part plainGenerations (List Coin) .V9 where
  toolkit := plainToolkit
  lawful := plainToolkit_lawful
  nullifier := rfl
  helpers := plainSelection
  dust := ⟨5, 1⟩
  wallet := plainWallet
  ctx := holding giverCoins
  request := swapHalf [7] 5 [8] 6
  prepared := giving
  prepare := rfl
  tx := [1]
  prove := rfl
  result := ⟨[9, 1], .V9, giving.draft.spentInputs 0, 0⟩
  proven := rfl

def takingPart : Part plainGenerations (List Coin) .V9 where
  toolkit := plainToolkit
  lawful := plainToolkit_lawful
  nullifier := rfl
  helpers := plainSelection
  dust := ⟨5, 1⟩
  wallet := plainWallet
  ctx := holding takerCoins
  request := swapHalf [8] 6 [7] 5
  prepared := taking
  prepare := rfl
  tx := [2]
  prove := rfl
  result := ⟨[9, 2], .V9, taking.draft.spentInputs 0, 0⟩
  proven := rfl

/-- A payment with a fee of its own. -/
def payingPart : Part plainGenerations (List Coin) .V9 where
  toolkit := plainToolkit
  lawful := plainToolkit_lawful
  nullifier := rfl
  helpers := plainSelection
  dust := ⟨5, 1⟩
  wallet := plainWallet
  ctx := holding payerCoins
  request := payment
  prepared := paying
  prepare := rfl
  tx := [3]
  prove := rfl
  result := ⟨[9, 3], .V9, paying.draft.spentInputs 0, 0⟩
  proven := rfl

/-- Two halves that mirror each other merge with a payment that brings the fee, and
nothing but the Dust is left over. -/
theorem merge_settles_swap :
    ∃ bytes, plainGenerations.mergeTransactions [[9, 1], [9, 2], [9, 3]] = .ok bytes ∧
      ∃ t, (plainGeneration .V9).deserialize bytes = .ok t ∧
        ((plainGeneration .V9).contents t).delta = (fun _ => 0) ∧
        ((plainGeneration .V9).contents t).coins.Perm [[1], [2], [3], [4]] ∧
        ((plainGeneration .V9).contents t).dust.Perm [[5]] := by
  obtain ⟨hiff, hsettled⟩ := merge_settles plainGenerations_lawful "undeployed" givingPart
    [takingPart, payingPart] (by decide) (List.nodup_flatMap.mp (by decide)).2
    (List.nodup_flatMap.mp (by decide)).2
  obtain ⟨bytes, hbytes⟩ := hiff.mpr (by decide)
  obtain ⟨t, ht, hdelta, hcoins, -, hdust⟩ := hsettled bytes hbytes
  refine ⟨bytes, hbytes, t, ht, funext fun token => ?_, hcoins, hdust⟩
  refine (hdelta token).trans ?_
  simp only [givingPart, takingPart, payingPart, swapHalf, payment, TransferKind.declared,
    List.map_cons, List.map_nil, List.sum_cons, List.sum_nil, net_cons, net_nil]
  split_ifs <;> omega

end Plain

end MidnightRs.Settlements
