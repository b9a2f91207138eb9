import Persista.Http.Entry
import Persista.Lib.Float64
import Mathlib.Data.Finset.Basic

/-!
# `send_request` and `send_request_async`

`http/httpx/method.py`. A request is sent again while its outcome is a transport error or a status
of `retry_status_codes`, up to `max_retries` times, with a delay before each retry: what the
`Retry-After` header says, or the next power of two. The two functions differ in the `sleep` they
call.

## When the delay is a problem

`float` reads more than the numbers of seconds a server may send: signs, `nan`, `inf` and exponents.
`sleep` raises on what is not a delay, and `float(2 ** (attempt - 1))` raises from the 1025th retry
on. Such an exception escapes, and nothing more is sent. `CanWait` says of an outcome that the delay
after it can be waited for, and the loop obeys its law if and only if this holds of every outcome
that is retried.

What `sleep` does is a parameter (`Clock`). Nothing is assumed of it.

## Main results

* `Http.Retry.loop_spec` — how the loop ends
* `Http.Retry.retry_law_iff` — when the functions obey the retry law
* `Http.Retry.delays_finite_iff` — when all delays are numbers, and no other exceptions escape
-/

namespace Persista

namespace Http

/-- `headers.get(name)`. -/
def Headers.get (headers : Headers) (name : String) : Option String :=
  if name ∈ headers.names then some (headers.getItem name) else none

namespace Retry

open Float64

variable {T : Type}

/-- What a request comes to: a response, or an `httpx.TransportError`. -/
inductive Outcome (T : Type)
  | response (r : Response)
  | transportError (e : T)

/-- A delay, as it is passed to `sleep`. -/
inductive Delay
  | int (n : ℕ)
  | float (x : Double)

/-- The number of seconds. -/
def Delay.val : Delay → Double
  | .int n => .finite n
  | .float x => x

/-- The exceptions that `sleep` and `float` raise. -/
inductive PyError
  | valueError
  | overflowError
  deriving DecidableEq

/-- What a call of `sleep` does. -/
inductive Slept
  | returns
  | raises (e : PyError)
  | never
  deriving DecidableEq

/-- The two functions that wait. -/
structure Clock where
  timeSleep : Delay → Slept
  asyncioSleep : Delay → Slept

/-- What `send_request` does: it sends a request, with a `timeout` argument or without one, waits,
or closes its client. -/
inductive Event
  | request (timeout : Option ℤ)
  | sleep (delay : Delay)
  | close

/-- How it ends. -/
inductive Ending (T : Type)
  | returned (r : Response)
  | httpStatusError (r : Response)
  | transportError (e : T)
  | raised (e : PyError)
  | never

/-- A run of `send_request`. -/
structure Run (T : Type) where
  events : List Event
  ending : Ending T

/-- `_get_retry_delay(response, attempt)`; `none` when it raises `OverflowError`. -/
def getRetryDelay (charset : Charset) (r : Response) (attempt : ℕ) : Option Double :=
  match r.headers.get "retry-after" with
  | none => ofNat (2 ^ (attempt - 1))
  | some retryAfter =>
    match ofText charset retryAfter.toList with
    | some delay => some delay
    | none => ofNat (2 ^ (attempt - 1))

/-- `response.raise_for_status()` and `return response`. -/
def raiseForStatus (r : Response) : Ending T :=
  if r.isSuccess then .returned r else .httpStatusError r

/-- One turn of the loop, up to `sleep`. -/
inductive Turn (T : Type)
  | ends (ending : Ending T)
  | waits (delay : Delay)

section Source

variable (charset : Charset) (maxRetries : ℤ) (retryStatusCodes : Finset ℤ)

/-- A turn, from the outcome of its request. -/
def turn (attempt : ℕ) : Outcome T → Turn T
  | .response r =>
    if (r.statusCode : ℤ) ∈ retryStatusCodes ∧ attempt < maxRetries then
      match getRetryDelay charset r (attempt + 1) with
      | none => .ends (.raised .overflowError)
      | some delay => .waits (.float delay)
    else .ends (raiseForStatus r)
  | .transportError e =>
    if maxRetries ≤ attempt then .ends (.transportError e)
    else .waits (.int (2 ^ attempt))

/-- Only a turn with retries left waits. -/
theorem lt_of_turn_eq_waits {charset : Charset} {maxRetries : ℤ} {retryStatusCodes : Finset ℤ}
    {attempt : ℕ} {o : Outcome T} {delay : Delay}
    (h : turn charset maxRetries retryStatusCodes attempt o = .waits delay) :
    attempt < maxRetries := by
  cases o with
  | response r =>
    rw [turn] at h
    split at h
    · next hretry => exact hretry.2
    · cases h
  | transportError e =>
    rw [turn] at h
    split at h
    · cases h
    · next hlt => exact not_le.mp hlt

/-- The loop, from the attempt and the outcomes that are to come. -/
def loop (sleep : Delay → Slept) (timeout : Option ℤ) (outcomes : ℕ → Outcome T) (attempt : ℕ) :
    Run T :=
  match _h : turn charset maxRetries retryStatusCodes attempt (outcomes 0) with
  | .ends ending => ⟨[.request timeout], ending⟩
  | .waits delay =>
    match sleep delay with
    | .raises e => ⟨[.request timeout, .sleep delay], .raised e⟩
    | .never => ⟨[.request timeout, .sleep delay], .never⟩
    | .returns =>
      let run := loop sleep timeout (fun i => outcomes (i + 1)) (attempt + 1)
      ⟨.request timeout :: .sleep delay :: run.events, run.ending⟩
termination_by (maxRetries - attempt).toNat
decreasing_by
  have hlt := lt_of_turn_eq_waits _h
  omega

/-- The whole function, for its `sleep`: a client that it creates is closed in the end. -/
def sendRequestWith (sleep : Delay → Slept) (timeout : ℤ) (ownClient : Bool)
    (outcomes : ℕ → Outcome T) : Run T :=
  let run := loop charset maxRetries retryStatusCodes sleep
    (if ownClient then some timeout else none) outcomes 0
  match run.ending with
  | .never => run
  | _ => if ownClient then ⟨run.events ++ [.close], run.ending⟩ else run

/-- `send_request`. -/
def sendRequest (clock : Clock) (timeout : ℤ) (ownClient : Bool) (outcomes : ℕ → Outcome T) :
    Run T :=
  sendRequestWith charset maxRetries retryStatusCodes clock.timeSleep timeout ownClient outcomes

/-- `send_request_async`. -/
def sendRequestAsync (clock : Clock) (timeout : ℤ) (ownClient : Bool) (outcomes : ℕ → Outcome T) :
    Run T :=
  sendRequestWith charset maxRetries retryStatusCodes clock.asyncioSleep timeout ownClient outcomes

end Source

/-! ### What a run shows -/

/-- The `timeout` arguments of the requests that were sent. -/
def Run.requests (run : Run T) : List (Option ℤ) :=
  run.events.filterMap fun
    | .request timeout => some timeout
    | _ => none

/-- The delays that were passed to `sleep`. -/
def Run.delays (run : Run T) : List Delay :=
  run.events.filterMap fun
    | .sleep delay => some delay
    | _ => none

/-- How many times the client was closed. -/
def Run.closes (run : Run T) : ℕ :=
  run.events.countP fun
    | .close => true
    | _ => false

/-! ### The law -/

section Law

variable (charset : Charset) (maxRetries : ℤ) (retryStatusCodes : Finset ℤ)

/-- The outcome is a transport error or a status of the set. -/
def Retryable : Outcome T → Prop
  | .response r => (r.statusCode : ℤ) ∈ retryStatusCodes
  | .transportError _ => True

instance (o : Outcome T) : Decidable (Retryable retryStatusCodes o) :=
  match o with
  | .response _ => inferInstanceAs (Decidable (_ ∈ retryStatusCodes))
  | .transportError _ => inferInstanceAs (Decidable True)

/-- How a run ends whose last outcome this is. -/
def finish : Outcome T → Ending T
  | .response r => raiseForStatus r
  | .transportError e => .transportError e

/-- The number that the `Retry-After` header says. -/
def retryAfter (r : Response) : Option Double :=
  (r.headers.get "retry-after").bind fun text => ofText charset text.toList

/-- The delay after an outcome, when `retry` retries came before. -/
def retryDelay (retry : ℕ) : Outcome T → Double
  | .response r => (retryAfter charset r).getD (.finite (2 ^ retry))
  | .transportError _ => .finite (2 ^ retry)

/-- This delay can be made, and `sleep` returns. -/
def CanWait (sleep : Delay → Slept) (retry : ℕ) : Outcome T → Prop
  | .response r =>
    match retryAfter charset r with
    | some delay => sleep (.float delay) = .returns
    | none => retry < 1024 ∧ sleep (.float (.finite (2 ^ retry))) = .returns
  | .transportError _ => sleep (.int (2 ^ retry)) = .returns

/-- So it is after every outcome that is retried. -/
def AllCanWait (sleep : Delay → Slept) (outcomes : ℕ → Outcome T) : Prop :=
  ∀ retry < maxRetries.toNat, (∀ i ≤ retry, Retryable retryStatusCodes (outcomes i)) →
    CanWait charset sleep retry (outcomes retry)

/-- The number of requests: up to the first outcome that is not retried, as far as there are
retries. -/
structure RetryCount (outcomes : ℕ → Outcome T) (run : Run T) : Prop where
  first : ∀ i, (∀ j < i, Retryable retryStatusCodes (outcomes j)) →
    ¬ Retryable retryStatusCodes (outcomes i) →
    run.requests.length = min (i + 1) (maxRetries.toNat + 1)
  none : (∀ i, Retryable retryStatusCodes (outcomes i)) →
    run.requests.length = maxRetries.toNat + 1

/-- The retry law. -/
structure RetryLaw (ownClient : Bool) (outcomes : ℕ → Outcome T) (run : Run T) : Prop where
  count : RetryCount maxRetries retryStatusCodes outcomes run
  ending : ∀ n, run.requests.length = n + 1 → run.ending = finish (outcomes n)
  delays : run.delays.map Delay.val =
    (List.range (run.requests.length - 1)).map fun i => retryDelay charset i (outcomes i)
  closes : run.closes = if ownClient then 1 else 0

end Law

/-! ### One turn -/

variable {charset : Charset} {maxRetries : ℤ} {retryStatusCodes : Finset ℤ} {sleep : Delay → Slept}
  {timeout : Option ℤ} {outcomes : ℕ → Outcome T} {attempt : ℕ} {o : Outcome T}

theorem getRetryDelay_eq (r : Response) (attempt : ℕ) :
    getRetryDelay charset r (attempt + 1) = (retryAfter charset r).or
      (if attempt < 1024 then some (.finite (2 ^ attempt)) else none) := by
  rw [getRetryDelay, retryAfter, Nat.add_sub_cancel, ofNat_two_pow]
  cases r.headers.get "retry-after" with
  | none => rfl
  | some text =>
    show (match ofText charset text.toList with
      | some delay => some delay
      | none => _) = (ofText charset text.toList).or _
    cases ofText charset text.toList <;> rfl

/-- What a turn does when it should wait. -/
theorem turn_of_retryable (charset : Charset) (h : Retryable retryStatusCodes o)
    (hlt : attempt < maxRetries) (sleep : Delay → Slept) :
    (∃ delay, turn charset maxRetries retryStatusCodes attempt o = .waits delay ∧
      delay.val = retryDelay charset attempt o ∧
      (CanWait charset sleep attempt o ↔ sleep delay = .returns)) ∨
    turn charset maxRetries retryStatusCodes attempt o = .ends (.raised .overflowError) ∧
      ¬ CanWait charset sleep attempt o := by
  cases o with
  | response r =>
    rw [turn, if_pos ⟨h, hlt⟩, getRetryDelay_eq, CanWait, retryDelay]
    cases retryAfter charset r with
    | some delay => exact .inl ⟨.float delay, rfl, rfl, Iff.rfl⟩
    | none =>
      by_cases hlarge : attempt < 1024
      · rw [if_pos hlarge]
        exact .inl ⟨.float (.finite (2 ^ attempt)), rfl, rfl, and_iff_right hlarge⟩
      · rw [if_neg hlarge]
        exact .inr ⟨rfl, fun hwait => hlarge hwait.1⟩
  | transportError e =>
    rw [turn, if_neg (not_le.mpr hlt)]
    refine .inl ⟨.int (2 ^ attempt), rfl, ?_, Iff.rfl⟩
    rw [Delay.val, retryDelay]
    push_cast
    rfl

/-- What it does otherwise. -/
theorem turn_of_not (h : ¬ (Retryable retryStatusCodes o ∧ attempt < maxRetries)) :
    turn charset maxRetries retryStatusCodes attempt o = .ends (finish o) := by
  cases o with
  | response r =>
    have h' : ¬ ((r.statusCode : ℤ) ∈ retryStatusCodes ∧ attempt < maxRetries) := h
    rw [turn, if_neg h', finish]
  | transportError e =>
    rw [turn, if_pos, finish]
    by_contra hlt
    exact h ⟨trivial, not_le.mp hlt⟩

theorem loop_of_ends {ending : Ending T}
    (h : turn charset maxRetries retryStatusCodes attempt (outcomes 0) = .ends ending) :
    loop charset maxRetries retryStatusCodes sleep timeout outcomes attempt =
      ⟨[.request timeout], ending⟩ := by
  rw [loop]
  split
  · next h' =>
    rw [h] at h'
    cases h'
    rfl
  · next h' =>
    rw [h] at h'
    cases h'

theorem loop_of_waits {delay : Delay}
    (h : turn charset maxRetries retryStatusCodes attempt (outcomes 0) = .waits delay) :
    loop charset maxRetries retryStatusCodes sleep timeout outcomes attempt =
      match sleep delay with
      | .raises e => ⟨[.request timeout, .sleep delay], .raised e⟩
      | .never => ⟨[.request timeout, .sleep delay], .never⟩
      | .returns =>
        let run := loop charset maxRetries retryStatusCodes sleep timeout
          (fun i => outcomes (i + 1)) (attempt + 1)
        ⟨.request timeout :: .sleep delay :: run.events, run.ending⟩ := by
  rw [loop]
  split
  · next h' =>
    rw [h] at h'
    cases h'
  · next h' =>
    rw [h] at h'
    cases h'
    rfl

/-! ### The loop -/

/-- A run of the loop that ends after `n` retries. -/
structure Ends (charset : Charset) (maxRetries : ℤ) (retryStatusCodes : Finset ℤ)
    (outcomes : ℕ → Outcome T) (attempt n : ℕ) (run : Run T) : Prop where
  last : attempt + n = maxRetries.toNat ∨ ¬ Retryable retryStatusCodes (outcomes n)
  ending : run.ending = finish (outcomes n)
  delays : run.delays.map Delay.val =
    (List.range n).map fun i => retryDelay charset (attempt + i) (outcomes i)

/-- A run of the loop that breaks after `n` retries. -/
structure Breaks (charset : Charset) (maxRetries : ℤ) (retryStatusCodes : Finset ℤ)
    (sleep : Delay → Slept) (outcomes : ℕ → Outcome T) (attempt n : ℕ) (run : Run T) : Prop where
  lt : attempt + n < maxRetries.toNat
  retryable : Retryable retryStatusCodes (outcomes n)
  cannotWait : ¬ CanWait charset sleep (attempt + n) (outcomes n)
  ending : run.ending = .never ∨ ∃ e, run.ending = .raised e

/-- A request and a delay, and the run that comes after. -/
theorem Ends.cons {outcomes : ℕ → Outcome T} {attempt n : ℕ} {run : Run T} {delay : Delay}
    (hdelay : delay.val = retryDelay charset attempt (outcomes 0))
    (h : Ends charset maxRetries retryStatusCodes (fun i => outcomes (i + 1)) (attempt + 1) n run) :
    Ends charset maxRetries retryStatusCodes outcomes attempt (n + 1)
      ⟨.request timeout :: .sleep delay :: run.events, run.ending⟩ := by
  obtain ⟨hlast, hending, hdelays⟩ := h
  refine ⟨?_, hending, ?_⟩
  · rcases hlast with hlast | hlast
    · exact .inl (by omega)
    · exact .inr hlast
  · show delay.val :: run.delays.map Delay.val = _
    rw [hdelays, hdelay, List.range_succ_eq_map, List.map_cons, List.map_map]
    refine congrArg _ (List.map_congr_left fun i _ => ?_)
    rw [Function.comp_apply, show attempt + 1 + i = attempt + i.succ by omega]

/-- The first delay is one that the loop cannot wait for. -/
theorem Breaks.first {sleep : Delay → Slept} {outcomes : ℕ → Outcome T} {attempt : ℕ} {run : Run T}
    (hlt : attempt < maxRetries.toNat) (hretry : Retryable retryStatusCodes (outcomes 0))
    (hcannot : ¬ CanWait charset sleep attempt (outcomes 0))
    (hending : run.ending = .never ∨ ∃ e, run.ending = .raised e) :
    Breaks charset maxRetries retryStatusCodes sleep outcomes attempt 0 run :=
  ⟨hlt, hretry, hcannot, hending⟩

theorem Breaks.cons {sleep : Delay → Slept} {outcomes : ℕ → Outcome T} {attempt n : ℕ} {run : Run T}
    {delay : Delay}
    (h : Breaks charset maxRetries retryStatusCodes sleep (fun i => outcomes (i + 1)) (attempt + 1)
      n run) :
    Breaks charset maxRetries retryStatusCodes sleep outcomes attempt (n + 1)
      ⟨.request timeout :: .sleep delay :: run.events, run.ending⟩ := by
  obtain ⟨hlt, hretry, hcannot, hending⟩ := h
  rw [show attempt + 1 + n = attempt + (n + 1) by omega] at hlt hcannot
  exact ⟨hlt, hretry, hcannot, hending⟩

/-- **The loop.** It sends a request after each outcome that is retried and waited for. It ends at
an outcome that is not retried, or when there are no retries left; or it breaks at a delay that it
cannot wait for. -/
theorem loop_spec (charset : Charset) (maxRetries : ℤ) (retryStatusCodes : Finset ℤ)
    (sleep : Delay → Slept) (timeout : Option ℤ) (outcomes : ℕ → Outcome T) (attempt : ℕ)
    (hle : attempt ≤ maxRetries.toNat) :
    ∃ n, attempt + n ≤ maxRetries.toNat ∧
      (∀ i < n, Retryable retryStatusCodes (outcomes i) ∧
        CanWait charset sleep (attempt + i) (outcomes i)) ∧
      (loop charset maxRetries retryStatusCodes sleep timeout outcomes attempt).requests =
        List.replicate (n + 1) timeout ∧
      (loop charset maxRetries retryStatusCodes sleep timeout outcomes attempt).closes = 0 ∧
      (Ends charset maxRetries retryStatusCodes outcomes attempt n
          (loop charset maxRetries retryStatusCodes sleep timeout outcomes attempt) ∨
        Breaks charset maxRetries retryStatusCodes sleep outcomes attempt n
          (loop charset maxRetries retryStatusCodes sleep timeout outcomes attempt)) := by
  induction hk : maxRetries.toNat - attempt generalizing outcomes attempt with
  | zero =>
    -- no retries are left
    have hnot : ¬ (Retryable retryStatusCodes (outcomes 0) ∧ attempt < maxRetries) := fun h => by
      have hlt := h.2
      omega
    rw [loop_of_ends (turn_of_not hnot)]
    exact ⟨0, by omega, fun i hi => absurd hi (Nat.not_lt_zero i), rfl, rfl,
      .inl ⟨.inl (by omega), rfl, rfl⟩⟩
  | succ k ih =>
    have hlt : attempt < maxRetries := by omega
    by_cases hretry : Retryable retryStatusCodes (outcomes 0)
    · obtain ⟨delay, hturn, hval, hcan⟩ | ⟨hturn, hcannot⟩ :=
        turn_of_retryable charset hretry hlt sleep
      · have hcannot (hsleep : sleep delay ≠ .returns) :
            ¬ CanWait charset sleep attempt (outcomes 0) := fun h => hsleep (hcan.mp h)
        rw [loop_of_waits hturn]
        cases hsleep : sleep delay with
        | returns =>
          obtain ⟨n, hn, hbefore, hrequests, hcloses, hend⟩ :=
            ih (fun i => outcomes (i + 1)) (attempt + 1) (by omega) (by omega)
          refine ⟨n + 1, by omega, fun i hi => ?_, ?_, ?_, ?_⟩
          · cases i with
            | zero => exact ⟨hretry, hcan.mpr hsleep⟩
            | succ i =>
              obtain ⟨h, h'⟩ := hbefore i (by omega)
              rw [show attempt + 1 + i = attempt + (i + 1) by omega] at h'
              exact ⟨h, h'⟩
          · exact congrArg (timeout :: ·) hrequests
          · simpa [Run.closes] using hcloses
          · exact hend.imp (Ends.cons hval) Breaks.cons
        | raises e =>
          rw [hsleep] at hcannot
          exact ⟨0, by omega, fun i hi => absurd hi (Nat.not_lt_zero i), rfl, rfl,
            .inr (.first (by omega) hretry (hcannot Slept.noConfusion) (.inr ⟨e, rfl⟩))⟩
        | never =>
          rw [hsleep] at hcannot
          exact ⟨0, by omega, fun i hi => absurd hi (Nat.not_lt_zero i), rfl, rfl,
            .inr (.first (by omega) hretry (hcannot Slept.noConfusion) (.inl rfl))⟩
      · rw [loop_of_ends hturn]
        exact ⟨0, by omega, fun i hi => absurd hi (Nat.not_lt_zero i), rfl, rfl,
          .inr (.first (by omega) hretry hcannot (.inr ⟨_, rfl⟩))⟩
    · rw [loop_of_ends (turn_of_not fun h => hretry h.1)]
      exact ⟨0, by omega, fun i hi => absurd hi (Nat.not_lt_zero i), rfl, rfl,
        .inl ⟨.inr hretry, rfl, rfl⟩⟩

/-! ### The functions -/

/-- What the function adds to the loop is a closing, on every exit. -/
theorem sendRequestWith_adds (charset : Charset) (maxRetries : ℤ) (retryStatusCodes : Finset ℤ)
    (sleep : Delay → Slept) (timeout : ℤ) (ownClient : Bool) (outcomes : ℕ → Outcome T) :
    let run := sendRequestWith charset maxRetries retryStatusCodes sleep timeout ownClient outcomes
    let inner := loop charset maxRetries retryStatusCodes sleep
      (if ownClient then some timeout else none) outcomes 0
    run.requests = inner.requests ∧ run.delays = inner.delays ∧ run.ending = inner.ending ∧
      (inner.ending ≠ .never → run.closes = inner.closes + if ownClient then 1 else 0) := by
  intro run inner
  have hrun : run = match inner.ending with
    | .never => inner
    | _ => if ownClient then ⟨inner.events ++ [.close], inner.ending⟩ else inner := rfl
  by_cases hnever : inner.ending = .never
  · rw [hrun, hnever]
    exact ⟨rfl, rfl, hnever, fun h => absurd rfl h⟩
  · have hclose : run = if ownClient then ⟨inner.events ++ [.close], inner.ending⟩ else inner := by
      rw [hrun]
      cases hend : inner.ending <;> first | rfl | exact absurd hend hnever
    rw [hclose]
    cases ownClient with
    | false => exact ⟨rfl, rfl, rfl, fun _ => rfl⟩
    | true =>
      rw [if_pos rfl]
      simp [Run.requests, Run.delays, Run.closes, List.filterMap_append]

/-- How the function ends, and its client is closed when it does. -/
theorem sendRequestWith_spec (charset : Charset) (maxRetries : ℤ) (retryStatusCodes : Finset ℤ)
    (sleep : Delay → Slept) (timeout : ℤ) (ownClient : Bool) (outcomes : ℕ → Outcome T) :
    ∃ n ≤ maxRetries.toNat,
      (∀ i < n, Retryable retryStatusCodes (outcomes i) ∧ CanWait charset sleep i (outcomes i)) ∧
      (sendRequestWith charset maxRetries retryStatusCodes sleep timeout ownClient
        outcomes).requests = List.replicate (n + 1) (if ownClient then some timeout else none) ∧
      ((sendRequestWith charset maxRetries retryStatusCodes sleep timeout ownClient
          outcomes).ending ≠ .never →
        (sendRequestWith charset maxRetries retryStatusCodes sleep timeout ownClient
          outcomes).closes = if ownClient then 1 else 0) ∧
      (Ends charset maxRetries retryStatusCodes outcomes 0 n
          (sendRequestWith charset maxRetries retryStatusCodes sleep timeout ownClient outcomes) ∨
        Breaks charset maxRetries retryStatusCodes sleep outcomes 0 n
          (sendRequestWith charset maxRetries retryStatusCodes sleep timeout ownClient
            outcomes)) := by
  obtain ⟨n, hn, hbefore, hrequests, hcloses, hend⟩ :=
    loop_spec charset maxRetries retryStatusCodes sleep (if ownClient then some timeout else none)
      outcomes 0 (Nat.zero_le _)
  obtain ⟨hrequests', hdelays', hending', hcloses'⟩ :=
    sendRequestWith_adds charset maxRetries retryStatusCodes sleep timeout ownClient outcomes
  refine ⟨n, by omega, ?_, hrequests'.trans hrequests, fun hnever => ?_, ?_⟩
  · simpa only [Nat.zero_add] using hbefore
  · rw [hcloses' (hending' ▸ hnever), hcloses, Nat.zero_add]
  · rcases hend with hend | hend
    · exact .inl ⟨hend.last, hending'.trans hend.ending, hdelays' ▸ hend.delays⟩
    · refine .inr ⟨hend.lt, hend.retryable, hend.cannotWait, ?_⟩
      rw [hending']
      exact hend.ending

/-- An outcome gives a response or one of the exceptions of `httpx`. -/
theorem finish_ne (o : Outcome T) : finish o ≠ .never ∧ ∀ e, finish o ≠ .raised e := by
  cases o with
  | response r =>
    rw [finish, raiseForStatus]
    split <;> simp
  | transportError e => simp [finish]

/-- A run that ends as the last outcome says has not broken. -/
theorem Breaks.ending_ne_finish {outcomes : ℕ → Outcome T} {n : ℕ} {run : Run T}
    (h : Breaks charset maxRetries retryStatusCodes sleep outcomes 0 n run) (o : Outcome T) :
    run.ending ≠ finish o := by
  intro hfinish
  rcases h.ending with hnever | ⟨e, hraised⟩
  · exact (finish_ne o).1 (hfinish.symm.trans hnever)
  · exact (finish_ne o).2 e (hfinish.symm.trans hraised)

/-- A run that broke sent fewer requests than it should have. -/
theorem Breaks.not_retryCount {outcomes : ℕ → Outcome T} {n : ℕ} {run : Run T}
    (h : Breaks charset maxRetries retryStatusCodes sleep outcomes 0 n run)
    (hbefore : ∀ i < n, Retryable retryStatusCodes (outcomes i))
    (hrequests : run.requests.length = n + 1) :
    ¬ RetryCount maxRetries retryStatusCodes outcomes run := by
  intro hcount
  have hlt := h.lt
  have hupto : ∀ i ≤ n, Retryable retryStatusCodes (outcomes i) := by
    intro i hi
    rcases hi.lt_or_eq with hi | rfl
    · exact hbefore i hi
    · exact h.retryable
  by_cases hall : ∀ i, Retryable retryStatusCodes (outcomes i)
  · have hlen := hcount.none hall
    omega
  · push Not at hall
    have hfirst := Nat.find_spec hall
    have hlen := hcount.first (Nat.find hall)
      (fun j hj => not_not.mp (Nat.find_min hall hj)) hfirst
    have hgt : n < Nat.find hall := by
      by_contra hle
      exact hfirst (hupto _ (not_lt.mp hle))
    omega

/-- A run that ends sent as many requests as it should have. -/
theorem Ends.retryCount {outcomes : ℕ → Outcome T} {n : ℕ} {run : Run T}
    (h : Ends charset maxRetries retryStatusCodes outcomes 0 n run) (hn : n ≤ maxRetries.toNat)
    (hbefore : ∀ i < n, Retryable retryStatusCodes (outcomes i))
    (hrequests : run.requests.length = n + 1) :
    RetryCount maxRetries retryStatusCodes outcomes run := by
  refine ⟨fun i hi hnot => ?_, fun hall => ?_⟩
  · have hge : n ≤ i := by
      by_contra hlt
      exact hnot (hbefore i (not_le.mp hlt))
    rcases h.last with hlast | hlast
    · omega
    · have hle : i ≤ n := by
        by_contra hlt
        exact hlast (hi n (not_le.mp hlt))
      omega
  · rcases h.last with hlast | hlast
    · omega
    · exact absurd (hall n) hlast

/-- The retries of a run that ends are the outcomes that should be retried. -/
theorem Ends.lt_of_retryable {outcomes : ℕ → Outcome T} {n retry : ℕ} {run : Run T}
    (h : Ends charset maxRetries retryStatusCodes outcomes 0 n run)
    (hlt : retry < maxRetries.toNat)
    (hupto : ∀ i ≤ retry, Retryable retryStatusCodes (outcomes i)) : retry < n := by
  rcases h.last with hlast | hlast
  · omega
  · by_contra hge
    exact hlast (hupto n (not_lt.mp hge))

/-- The number of requests is the right one when every delay can be waited for. -/
theorem retryCount_iff (charset : Charset) (maxRetries : ℤ) (retryStatusCodes : Finset ℤ)
    (sleep : Delay → Slept) (timeout : ℤ) (ownClient : Bool) (outcomes : ℕ → Outcome T) :
    RetryCount maxRetries retryStatusCodes outcomes (sendRequestWith charset maxRetries
      retryStatusCodes sleep timeout ownClient outcomes) ↔
      AllCanWait charset maxRetries retryStatusCodes sleep outcomes := by
  obtain ⟨n, hn, hbefore, hrequests, -, hend⟩ :=
    sendRequestWith_spec charset maxRetries retryStatusCodes sleep timeout ownClient outcomes
  have hlen := congrArg List.length hrequests
  rw [List.length_replicate] at hlen
  rcases hend with hend | hend
  · refine iff_of_true (hend.retryCount hn (fun i hi => (hbefore i hi).1) hlen) ?_
    intro retry hlt hupto
    exact (hbefore retry (hend.lt_of_retryable hlt hupto)).2
  · refine iff_of_false (hend.not_retryCount (fun i hi => (hbefore i hi).1) hlen) fun hall => ?_
    have hcannot := hend.cannotWait
    have hlt := hend.lt
    rw [Nat.zero_add] at hcannot hlt
    refine hcannot (hall n hlt fun i hi => ?_)
    rcases hi.lt_or_eq with hi | rfl
    · exact (hbefore i hi).1
    · exact hend.retryable

/-- And then the whole law holds. -/
theorem retryLaw_iff_allCanWait (charset : Charset) (maxRetries : ℤ) (retryStatusCodes : Finset ℤ)
    (sleep : Delay → Slept) (timeout : ℤ) (ownClient : Bool) (outcomes : ℕ → Outcome T) :
    RetryLaw charset maxRetries retryStatusCodes ownClient outcomes (sendRequestWith charset
      maxRetries retryStatusCodes sleep timeout ownClient outcomes) ↔
      AllCanWait charset maxRetries retryStatusCodes sleep outcomes := by
  rw [← retryCount_iff charset maxRetries retryStatusCodes sleep timeout ownClient outcomes]
  constructor
  · exact RetryLaw.count
  · intro hcount
    obtain ⟨n, hn, hbefore, hrequests, hcloses, hend⟩ :=
      sendRequestWith_spec charset maxRetries retryStatusCodes sleep timeout ownClient outcomes
    have hlen := congrArg List.length hrequests
    rw [List.length_replicate] at hlen
    have hend' := hend.resolve_right fun h =>
      h.not_retryCount (fun i hi => (hbefore i hi).1) hlen hcount
    refine ⟨hcount, fun k hk => ?_, ?_, ?_⟩
    · rw [hend'.ending, show k = n by omega]
    · rw [hlen, hend'.delays, Nat.add_sub_cancel]
      simp only [Nat.zero_add]
    · refine hcloses ?_
      rw [hend'.ending]
      exact (finish_ne _).1

/-- `send_request` and `send_request_async` obey the retry law if and only if, after every outcome
that is to be retried, the delay can be made and waited for. -/
theorem retry_law_iff (charset : Charset) (maxRetries : ℤ) (retryStatusCodes : Finset ℤ)
    (clock : Clock) (timeout : ℤ) (ownClient : Bool) (outcomes : ℕ → Outcome T) :
    (RetryLaw charset maxRetries retryStatusCodes ownClient outcomes (sendRequest charset
        maxRetries retryStatusCodes clock timeout ownClient outcomes) ↔
      AllCanWait charset maxRetries retryStatusCodes clock.timeSleep outcomes) ∧
    (RetryLaw charset maxRetries retryStatusCodes ownClient outcomes (sendRequestAsync charset
        maxRetries retryStatusCodes clock timeout ownClient outcomes) ↔
      AllCanWait charset maxRetries retryStatusCodes clock.asyncioSleep outcomes) :=
  ⟨retryLaw_iff_allCanWait charset maxRetries retryStatusCodes clock.timeSleep timeout ownClient
      outcomes,
    retryLaw_iff_allCanWait charset maxRetries retryStatusCodes clock.asyncioSleep timeout ownClient
      outcomes⟩

/-! ### Headers -/

/-- The header of each response is absent or a number that is not negative. -/
def HasPlainHeaders (charset : Charset) (outcomes : ℕ → Outcome T) : Prop :=
  ∀ i r, outcomes i = .response r → r.headers.get "retry-after" = none ∨
    ∃ delay, retryAfter charset r = some delay ∧ delay.IsNonneg

/-- Such headers are no problem for a `sleep` that takes every number, as long as the powers of two
are floats. -/
theorem allCanWait_of_plain {outcomes : ℕ → Outcome T} (hplain : HasPlainHeaders charset outcomes)
    (hsleep : ∀ delay : Delay, delay.val.IsNonneg → sleep delay = .returns)
    (hmax : maxRetries ≤ 1024) :
    AllCanWait charset maxRetries retryStatusCodes sleep outcomes := by
  intro retry hlt hupto
  have hpow : (0 : ℚ) ≤ 2 ^ retry := by positivity
  cases ho : outcomes retry with
  | transportError e =>
    refine hsleep (.int (2 ^ retry)) ?_
    show (0 : ℚ) ≤ ((2 ^ retry : ℕ) : ℚ)
    push_cast
    exact hpow
  | response r =>
    rw [CanWait]
    cases hr : retryAfter charset r with
    | none => exact ⟨by omega, hsleep (.float (.finite (2 ^ retry))) hpow⟩
    | some delay =>
      rcases hplain retry r ho with habsent | ⟨delay', hdelay, hnonneg⟩
      · rw [retryAfter, habsent] at hr
        cases hr
      · obtain rfl := Option.some.inj (hr.symm.trans hdelay)
        exact hsleep (.float delay) hnonneg

/-- Every delay is a number that is not negative, and the last outcome says how the run ends. -/
structure Unbroken (outcomes : ℕ → Outcome T) (run : Run T) : Prop where
  delays : ∀ delay ∈ run.delays, delay.val.IsNonneg
  ending : ∃ n, run.requests.length = n + 1 ∧ run.ending = finish (outcomes n)

/-- The delay after an outcome that is retried is such a number. -/
def AllNonneg (charset : Charset) (maxRetries : ℤ) (retryStatusCodes : Finset ℤ)
    (outcomes : ℕ → Outcome T) : Prop :=
  ∀ retry < maxRetries.toNat, (∀ i ≤ retry, Retryable retryStatusCodes (outcomes i)) →
    (retryDelay charset retry (outcomes retry)).IsNonneg

theorem unbroken_iff (charset : Charset) (maxRetries : ℤ) (retryStatusCodes : Finset ℤ)
    (sleep : Delay → Slept) (timeout : ℤ) (ownClient : Bool) (outcomes : ℕ → Outcome T) :
    Unbroken outcomes (sendRequestWith charset maxRetries retryStatusCodes sleep timeout ownClient
      outcomes) ↔
      AllNonneg charset maxRetries retryStatusCodes outcomes ∧
        AllCanWait charset maxRetries retryStatusCodes sleep outcomes := by
  rw [← retryCount_iff charset maxRetries retryStatusCodes sleep timeout ownClient outcomes]
  obtain ⟨n, hn, hbefore, hrequests, -, hend⟩ :=
    sendRequestWith_spec charset maxRetries retryStatusCodes sleep timeout ownClient outcomes
  have hlen := congrArg List.length hrequests
  rw [List.length_replicate] at hlen
  have hretryable : ∀ i < n, Retryable retryStatusCodes (outcomes i) := fun i hi => (hbefore i hi).1
  rcases hend with hend | hend
  · have hdelays := hend.delays
    simp only [Nat.zero_add] at hdelays
    refine ⟨fun h => ⟨fun retry hlt hupto => ?_, hend.retryCount hn hretryable hlen⟩,
      fun h => ⟨fun delay hdelay => ?_, n, hlen, hend.ending⟩⟩
    · have hmem : retryDelay charset retry (outcomes retry) ∈
          (List.range n).map fun i => retryDelay charset i (outcomes i) :=
        List.mem_map_of_mem (List.mem_range.mpr (hend.lt_of_retryable hlt hupto))
      rw [← hdelays] at hmem
      obtain ⟨delay, hdelay, heq⟩ := List.mem_map.mp hmem
      exact heq ▸ h.delays delay hdelay
    · have hmem := List.mem_map_of_mem (f := Delay.val) hdelay
      rw [hdelays] at hmem
      obtain ⟨i, hi, heq⟩ := List.mem_map.mp hmem
      have hin := List.mem_range.mp hi
      rw [← heq]
      exact h.1 i (by omega) fun k hk => hretryable k (by omega)
  · refine iff_of_false (fun h => ?_) fun h => hend.not_retryCount hretryable hlen h.2
    obtain ⟨k, -, hending⟩ := h.ending
    exact hend.ending_ne_finish _ hending

/-- All delays are numbers that are not negative, and no exceptions escape but those of the last
attempt, if and only if the delay after every outcome that is to be retried is such a number, and
can be made and waited for. -/
theorem delays_finite_iff (charset : Charset) (maxRetries : ℤ) (retryStatusCodes : Finset ℤ)
    (clock : Clock) (timeout : ℤ) (ownClient : Bool) (outcomes : ℕ → Outcome T) :
    (Unbroken outcomes (sendRequest charset maxRetries retryStatusCodes clock timeout ownClient
        outcomes) ↔
      AllNonneg charset maxRetries retryStatusCodes outcomes ∧
        AllCanWait charset maxRetries retryStatusCodes clock.timeSleep outcomes) ∧
    (Unbroken outcomes (sendRequestAsync charset maxRetries retryStatusCodes clock timeout ownClient
        outcomes) ↔
      AllNonneg charset maxRetries retryStatusCodes outcomes ∧
        AllCanWait charset maxRetries retryStatusCodes clock.asyncioSleep outcomes) :=
  ⟨unbroken_iff charset maxRetries retryStatusCodes clock.timeSleep timeout ownClient outcomes,
    unbroken_iff charset maxRetries retryStatusCodes clock.asyncioSleep timeout ownClient outcomes⟩

/-! ### Two streams -/

/-- CPython 3.11.10. `time.sleep` counts nanoseconds with 64 bits. `asyncio.sleep`, with no other
timer in its event loop, returns at once when the delay is not positive or not a number, and does
not return when it is infinite. -/
def cpython : Clock where
  timeSleep delay :=
    match delay.val with
    | .nan => .raises .valueError
    | .inf _ => .raises .overflowError
    | .finite x =>
      if 2 ^ 63 ≤ |x| * 10 ^ 9 then .raises .overflowError
      else if x < 0 then .raises .valueError
      else .returns
  asyncioSleep delay :=
    match delay.val with
    | .nan => .returns
    | .inf negative => if negative then .returns else .never
    | .finite _ => .returns

/-- A response of an overloaded server. -/
def unavailable (headers : Headers) : Outcome Unit := .response ⟨503, headers, []⟩

/-- 1024 retries at once, and one without a header. -/
def retryAtOnce (i : ℕ) : Outcome Unit :=
  unavailable (if i < 1024 then [("retry-after", "0")] else [])

/-- The delay before the last retry cannot be made. -/
theorem not_retry_law :
    ¬ ∀ outcomes : ℕ → Outcome Unit, HasPlainHeaders ascii outcomes →
      RetryLaw ascii 1025 {503} true outcomes
        (sendRequest ascii 1025 {503} cpython 30 true outcomes) := by
  intro h
  have hplain : HasPlainHeaders ascii retryAtOnce := by
    intro i r hr
    obtain rfl := (Outcome.response.inj hr).symm
    by_cases hi : i < 1024
    · rw [if_pos hi]
      exact .inr ⟨.finite 0, by decide +kernel, by decide⟩
    · rw [if_neg hi]
      exact .inl rfl
  have hall := (retryLaw_iff_allCanWait ascii 1025 {503} cpython.timeSleep 30 true retryAtOnce).mp
    (h retryAtOnce hplain)
  have hcan := hall 1024 (by decide) fun i _ => Finset.mem_singleton.mpr rfl
  exact absurd hcan.1 (lt_irrefl 1024)

/-- A header that is not a number. -/
def retryAfterNan (_ : ℕ) : Outcome Unit := unavailable [("retry-after", "nan")]

/-- It is passed to `sleep`, which raises. -/
theorem not_delays_finite :
    ¬ ∀ outcomes : ℕ → Outcome Unit,
      Unbroken outcomes (sendRequest ascii 3 {503} cpython 30 true outcomes) := by
  intro h
  obtain ⟨hnonneg, -⟩ :=
    (unbroken_iff ascii 3 {503} cpython.timeSleep 30 true retryAfterNan).mp (h retryAfterNan)
  have hdelay := hnonneg 0 (by decide) fun i _ => Finset.mem_singleton.mpr rfl
  have hnan : retryDelay ascii 0 (retryAfterNan 0) = .nan := by decide +kernel
  rw [hnan] at hdelay
  exact hdelay

end Retry

end Http

end Persista
