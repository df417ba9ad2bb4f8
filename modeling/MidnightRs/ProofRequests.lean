import MidnightRs.Errors
import Mathlib.Data.List.Basic

/-!
Requests to a proof server. A request has a deadline that its retries share; a transient
failure is retried after a pause that doubles, while the pause ends before the deadline.
The server and the clock are parameters, and times are nanoseconds.
-/
namespace MidnightRs.ProofRequests

section Model

/-- What the HTTP client says of a failure of its own. -/
structure ReqwestError where
  isTimeout : Bool
  isConnect : Bool
  isRequest : Bool
  message : String
deriving DecidableEq, Repr

inductive ProofError where
  | http (endpoint : String) (status : ℕ) (body : String)
  | unsupportedProofVersion (version : String)
  | reqwest (e : ReqwestError)
  | other (message : String)
deriving DecidableEq, Repr

/-- An answer's status, and its body as text and as bytes, which are read from the
connection. -/
structure Response where
  status : ℕ
  text : Option String
  bytes : Except ReqwestError Bytes
deriving DecidableEq

def isSuccess (status : ℕ) : Bool := decide (200 ≤ status ∧ status < 300)

/-- Whether a failure is worth a retry: an outage of the server, or a failed transport. -/
def isTransient : ProofError → Bool
  | .http _ status _ => decide (500 ≤ status ∧ status < 600)
  | .reqwest e => e.isTimeout || e.isConnect || e.isRequest
  | .unsupportedProofVersion _ => false
  | .other _ => false

def send (endpoint : String) (reply : Except ReqwestError Response) : Except ProofError Bytes :=
  match reply with
  | .error e => .error (.reqwest e)
  | .ok resp =>
    if isSuccess resp.status = false then
      .error (.http endpoint resp.status (resp.text.getD ""))
    else resp.bytes.mapError .reqwest

def second : ℕ := 10 ^ 9

def defaultTimeout : ℕ := 300 * second

def maxRetries : ℕ := 3

def initialBackoff : ℕ := second

/-- One attempt of a request: what it posted, when and with what timeout, and what came
of it. -/
structure Attempt where
  url : String
  body : Bytes
  start : ℕ
  timeout : ℕ
  ended : ℕ
  result : Except ProofError Bytes

/-- The client, the server and the clock: whether a request can be built for a URL, what an
attempt gives and when it ends, and when a pause is over. -/
structure World where
  build : String → Except ReqwestError Unit
  execute : ℕ → String → Bytes → ℕ → ℕ → Except ReqwestError Response × ℕ
  wake : ℕ → ℕ → ℕ → ℕ

variable (W : World) (endpoint url : String) (body : Bytes) (begun timeout : ℕ)

/-- The time left until the deadline. -/
def remaining (now : ℕ) : ℕ := timeout - (now - begun)

def attempt (n now : ℕ) : Attempt :=
  let reply := W.execute n url body now (remaining begun timeout now)
  ⟨url, body, now, remaining begun timeout now, reply.2, send endpoint reply.1⟩

/-- The attempts from one on, with the retries left and the pause before the next. -/
def attempts : ℕ → ℕ → ℕ → ℕ → List Attempt × Except ProofError Bytes
  | 0, _, n, now =>
    let a := attempt W endpoint url body begun timeout n now
    ([a], a.result)
  | retries + 1, delay, n, now =>
    let a := attempt W endpoint url body begun timeout n now
    match a.result with
    | .ok bytes => ([a], .ok bytes)
    | .error err =>
      if isTransient err = true ∧ delay < remaining begun timeout a.ended then
        let rest := attempts retries (2 * delay) (n + 1) (W.wake n a.ended delay)
        (a :: rest.1, rest.2)
      else ([a], .error err)

/-- Posts the body, and returns what the server answers. -/
def post (base : String) : List Attempt × Except ProofError Bytes :=
  match W.build (base ++ endpoint) with
  | .error e => ([], .error (.reqwest e))
  | .ok () => attempts W endpoint (base ++ endpoint) body begun timeout maxRetries initialBackoff 0
      begun

/-- What the clock promises: an attempt takes some time, and a pause lasts as long as it
is asked to. -/
structure World.Lawful : Prop where
  execute : ∀ n url body start timeout, start ≤ (W.execute n url body start timeout).2
  wake : ∀ n now delay, now + delay ≤ W.wake n now delay

/-- A client that keeps to its timeouts, on a clock that wakes on time. -/
structure World.Punctual : Prop where
  execute : ∀ n url body start timeout, (W.execute n url body start timeout).2 ≤ start + timeout
  wake : ∀ n now delay, W.wake n now delay = now + delay

end Model

section Retrying

/-- The pause before a retry. -/
def backoff (n : ℕ) : ℕ := 2 ^ n * initialBackoff

/-- What the attempts of a request are, from the `n`-th on. Each posts the same body with
the time that is left. A retry follows a transient failure, after its pause and only if
the pause ends before the deadline. The last attempt's result stands, and it is no failure
that could still be retried. -/
structure Retried (url : String) (body : Bytes) (begun timeout n now : ℕ)
    (as : List Attempt) (result : Except ProofError Bytes) : Prop where
  bounded : n + as.length ≤ maxRetries + 1
  first : ∀ a, as.head? = some a → now = a.start
  same : ∀ a ∈ as, a.url = url ∧ a.body = body ∧ a.timeout = remaining begun timeout a.start ∧
    a.start ≤ a.ended
  retried : ∀ i a b, as[i]? = some a → as[i + 1]? = some b → ∃ e, a.result = .error e ∧
    isTransient e = true ∧ backoff (n + i) < remaining begun timeout a.ended ∧
      a.ended + backoff (n + i) ≤ b.start
  last : ∃ a, as.getLast? = some a ∧ a.result = result ∧ ∀ e, result = .error e →
    isTransient e = false ∨ n + as.length = maxRetries + 1 ∨
      remaining begun timeout a.ended ≤ backoff (n + as.length - 1)

variable {W : World} {endpoint url : String} {body : Bytes} {begun timeout : ℕ}

theorem backoff_succ (n : ℕ) : 2 * backoff n = backoff (n + 1) := by
  rw [backoff, backoff, Nat.pow_succ, Nat.mul_comm (2 ^ n) 2, Nat.mul_assoc]

/-- An attempt after which nothing is retried. -/
theorem retried_single (hW : W.Lawful) {n now : ℕ} (hn : n ≤ maxRetries)
    (hlast : ∀ e, (attempt W endpoint url body begun timeout n now).result = .error e →
      isTransient e = false ∨ n = maxRetries ∨
        remaining begun timeout (attempt W endpoint url body begun timeout n now).ended ≤
          backoff n) :
    Retried url body begun timeout n now [attempt W endpoint url body begun timeout n now]
      (attempt W endpoint url body begun timeout n now).result where
  bounded := Nat.succ_le_succ hn
  first := fun a ha => by
    obtain rfl := Option.some.inj ha
    rfl
  same := List.forall_mem_singleton.mpr ⟨rfl, rfl, rfl, hW.execute n url body now _⟩
  retried := fun i a b _ hb => by cases i <;> cases hb
  last := ⟨_, rfl, rfl, fun e he => (hlast e he).imp_right (Or.imp_left fun h => by rw [h]; rfl)⟩

/-- A retry goes before the attempts that follow it. -/
theorem Retried.cons {n now next : ℕ} {as : List Attempt} {result : Except ProofError Bytes}
    (h : Retried url body begun timeout (n + 1) next as result) {a : Attempt} {e : ProofError}
    (hstart : now = a.start)
    (ha : a.url = url ∧ a.body = body ∧ a.timeout = remaining begun timeout a.start ∧
      a.start ≤ a.ended)
    (he : a.result = .error e) (htransient : isTransient e = true)
    (hbefore : backoff n < remaining begun timeout a.ended) (hwake : a.ended + backoff n ≤ next) :
    Retried url body begun timeout n now (a :: as) result where
  bounded := by
    have := h.bounded
    simp only [List.length_cons]
    omega
  first := fun b hb => by
    obtain rfl := Option.some.inj hb
    exact hstart
  same := List.forall_mem_cons.mpr ⟨ha, h.same⟩
  retried := by
    intro i b c hb hc
    cases i with
    | zero =>
      obtain rfl := Option.some.inj hb
      have hfirst := h.first c (by simpa [List.head?_eq_getElem?] using hc)
      exact ⟨e, he, htransient, hbefore, hfirst ▸ hwake⟩
    | succ i =>
      obtain ⟨e', hres, htr, hbe, hst⟩ := h.retried i b c hb hc
      rw [show n + 1 + i = n + (i + 1) by omega] at hbe hst
      exact ⟨e', hres, htr, hbe, hst⟩
  last := by
    obtain ⟨b, hb, hres, hlast⟩ := h.last
    have hne : as ≠ [] := by
      rintro rfl
      cases hb
    refine ⟨b, by rw [List.getLast?_cons_of_ne_nil hne, hb], hres, fun e' he' => ?_⟩
    simp only [List.length_cons]
    rw [show n + (as.length + 1) = n + 1 + as.length by omega]
    exact hlast e' he'

theorem attempts_retried (hW : W.Lawful) (retries n now : ℕ) (hn : n + retries = maxRetries) :
    Retried url body begun timeout n now
      (attempts W endpoint url body begun timeout retries (backoff n) n now).1
      (attempts W endpoint url body begun timeout retries (backoff n) n now).2 := by
  induction retries generalizing n now with
  | zero => exact retried_single hW (by omega) fun e _ => .inr (.inl (by omega))
  | succ retries ih =>
    rw [attempts]
    cases hres : (attempt W endpoint url body begun timeout n now).result with
    | ok bytes =>
      have h := @retried_single W endpoint url body begun timeout hW n now (by omega)
        (fun e he => by rw [hres] at he; cases he)
      rw [hres] at h
      exact h
    | error err =>
      simp only
      split
      · rename_i hretry
        rw [backoff_succ]
        exact (ih (n + 1) _ (by omega)).cons rfl ⟨rfl, rfl, rfl, hW.execute n url body now _⟩ hres
          hretry.1 hretry.2 (hW.wake n _ _)
      · rename_i hstop
        have h := @retried_single W endpoint url body begun timeout hW n now (by omega)
          (fun e he => by
            obtain rfl := Except.error.inj (hres.symm.trans he)
            rcases not_and_or.mp hstop with htr | hlate
            · exact .inl (Bool.eq_false_iff.mpr htr)
            · exact .inr (.inr (Nat.le_of_not_lt hlate)))
        rw [hres] at h
        exact h

/-- With a client and a clock that keep time, no attempt outlasts the deadline. -/
theorem attempts_punctual (hW : W.Punctual) (retries delay n now : ℕ)
    (hbegun : begun ≤ now) (hnow : now ≤ begun + timeout) (hlaw : W.Lawful) :
    ∀ a ∈ (attempts W endpoint url body begun timeout retries delay n now).1,
      a.ended ≤ begun + timeout := by
  have hended : ∀ n now, begun ≤ now → now ≤ begun + timeout →
      (attempt W endpoint url body begun timeout n now).ended ≤ begun + timeout := by
    intro n now hb hn
    have h := hW.execute n url body now (remaining begun timeout now)
    unfold attempt remaining at *
    simp only
    omega
  induction retries generalizing delay n now with
  | zero => exact List.forall_mem_singleton.mpr (hended n now hbegun hnow)
  | succ retries ih =>
    rw [attempts]
    cases hres : (attempt W endpoint url body begun timeout n now).result with
    | ok bytes => exact List.forall_mem_singleton.mpr (hended n now hbegun hnow)
    | error err =>
      simp only
      split
      · rename_i hretry
        have hstart := hlaw.execute n url body now (remaining begun timeout now)
        have hbefore := hretry.2
        refine List.forall_mem_cons.mpr ⟨hended n now hbegun hnow, ih _ _ _ ?_ ?_⟩
        · rw [hW.wake]
          unfold attempt at *
          simp only at *
          omega
        · rw [hW.wake]
          unfold remaining at hbefore
          unfold attempt at *
          simp only at *
          omega
      · exact List.forall_mem_singleton.mpr (hended n now hbegun hnow)

/-- Whatever the server answers, a request is either refused before it is sent, or its
attempts follow the retry rule; and with a client that keeps its timeouts it is over by
its deadline. -/
theorem post_follows_policy (hW : W.Lawful) (endpoint base : String) (body : Bytes)
    (begun timeout : ℕ) :
    (∃ e, W.build (base ++ endpoint) = .error e ∧
      post W endpoint body begun timeout base = ([], .error (.reqwest e))) ∨
    Retried (base ++ endpoint) body begun timeout 0 begun
      (post W endpoint body begun timeout base).1 (post W endpoint body begun timeout base).2 ∧
    (W.Punctual → ∀ a ∈ (post W endpoint body begun timeout base).1,
      a.ended ≤ begun + timeout) := by
  unfold post
  cases hbuild : W.build (base ++ endpoint) with
  | error e => exact .inl ⟨e, rfl, rfl⟩
  | ok u =>
    refine .inr ⟨?_, fun hp => attempts_punctual hp _ _ _ _ (Nat.le_refl _)
      (Nat.le_add_right _ _) hW⟩
    have h := @attempts_retried W endpoint (base ++ endpoint) body begun timeout hW maxRetries 0
      begun rfl
    simpa [backoff] using h

/-- A server that is down for two attempts, and then answers. -/
def recovering : World where
  build := fun _ => .ok ()
  execute := fun n _ _ start timeout =>
    (if n < 2 then .ok ⟨503, none, .ok []⟩ else .ok ⟨200, none, .ok [7]⟩, start + min 5 timeout)
  wake := fun _ now delay => now + delay

theorem post_follows_policy_recovering :
    (post recovering "/prove" [1] 0 defaultTimeout "http://prover").2 = .ok [7] ∧
    ((∃ e, recovering.build ("http://prover" ++ "/prove") = .error e ∧
      post recovering "/prove" [1] 0 defaultTimeout "http://prover" = ([], .error (.reqwest e))) ∨
    Retried ("http://prover" ++ "/prove") [1] 0 defaultTimeout 0 0
      (post recovering "/prove" [1] 0 defaultTimeout "http://prover").1
      (post recovering "/prove" [1] 0 defaultTimeout "http://prover").2 ∧
    (recovering.Punctual → ∀ a ∈ (post recovering "/prove" [1] 0 defaultTimeout "http://prover").1,
      a.ended ≤ 0 + defaultTimeout)) :=
  ⟨by decide, post_follows_policy ⟨fun _ _ _ _ _ => Nat.le_add_right _ _,
    fun _ _ _ => Nat.le_refl _⟩ "/prove" "http://prover" [1] 0 defaultTimeout⟩

end Retrying

end MidnightRs.ProofRequests
