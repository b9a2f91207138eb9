import Persista.Http.Retry

/-!
# The settings of `HttpClient` and `AsyncHttpClient`

`http/httpx/client.py`. A request takes each of `timeout`, `max_retries` and `retry_status_codes`
from the call, or else from the constructor, and gives the three to `send_request` with the wrapped
client. With a client, `send_request` does not use its `timeout`: the wrapped client sends with its
own.

A response that comes from the cache is sent by no one. The cache is in `Http/Client.lean`; here a
call says what it finds.

## Main results

* `Http.client_settings_iff` — when the settings reach every request that is sent
-/

namespace Persista

namespace Http

open Float64 Retry

variable {T Tm : Type}

/-- An `HttpClient` or an `AsyncHttpClient`, with the timeout of the client it wraps. -/
structure HttpClient (Tm : Type) where
  wrappedTimeout : Tm
  timeout : ℤ
  maxRetries : ℤ
  retryStatusCodes : Finset ℤ

/-- The arguments of a call of `request`, and the response from the cache when there is one. -/
structure Call where
  timeout : Option ℤ
  maxRetries : Option ℤ
  retryStatusCodes : Option (Finset ℤ)
  cached : Option Response

namespace HttpClient

/-- `timeout if timeout is not None else self._timeout`. -/
def resolvedTimeout (client : HttpClient Tm) (call : Call) : ℤ := call.timeout.getD client.timeout

/-- `max_retries if max_retries is not None else self._max_retries`. -/
def resolvedMaxRetries (client : HttpClient Tm) (call : Call) : ℤ :=
  call.maxRetries.getD client.maxRetries

/-- `retry_status_codes if retry_status_codes is not None else self._retry_status_codes`. -/
def resolvedRetryStatusCodes (client : HttpClient Tm) (call : Call) : Finset ℤ :=
  call.retryStatusCodes.getD client.retryStatusCodes

section Source

variable (charset : Charset)

/-- `request`, for the `sleep` of the function that sends. -/
def requestWith (sleep : Delay → Slept) (client : HttpClient Tm) (call : Call)
    (outcomes : ℕ → Outcome T) : Run T :=
  match call.cached with
  | some response => ⟨[], .returned response⟩
  | none => sendRequestWith charset (client.resolvedMaxRetries call)
      (client.resolvedRetryStatusCodes call) sleep (client.resolvedTimeout call) false outcomes

/-- `HttpClient.request`. -/
def request (clock : Clock) (client : HttpClient Tm) (call : Call) (outcomes : ℕ → Outcome T) :
    Run T :=
  requestWith charset clock.timeSleep client call outcomes

/-- `AsyncHttpClient.request`. -/
def requestAsync (clock : Clock) (client : HttpClient Tm) (call : Call) (outcomes : ℕ → Outcome T) :
    Run T :=
  requestWith charset clock.asyncioSleep client call outcomes

end Source

/-- The timeout of a request on the wrapped client: its argument, or the client's own. -/
def wireTimeout (httpxTimeout : ℤ → Tm) (client : HttpClient Tm) : Option ℤ → Tm
  | some timeout => httpxTimeout timeout
  | none => client.wrappedTimeout

/-! ### Calls, one after the other -/

/-- The settings reach the requests of a call: each has the resolved timeout, and there are as many
as the resolved retries say. -/
structure Reaches (httpxTimeout : ℤ → Tm) (client : HttpClient Tm) (call : Call)
    (outcomes : ℕ → Outcome T) (run : Run T) : Prop where
  timeouts : ∀ timeout ∈ run.requests,
    client.wireTimeout httpxTimeout timeout = httpxTimeout (client.resolvedTimeout call)
  count : call.cached = none →
    RetryCount (client.resolvedMaxRetries call) (client.resolvedRetryStatusCodes call) outcomes run

/-- So they do in every call, where each call takes on the outcomes after the last one. -/
def AllReach (request : Call → (ℕ → Outcome T) → Run T) (httpxTimeout : ℤ → Tm)
    (client : HttpClient Tm) : List Call → (ℕ → Outcome T) → Prop
  | [], _ => True
  | call :: calls, outcomes =>
    client.Reaches httpxTimeout call outcomes (request call outcomes) ∧
      AllReach request httpxTimeout client calls
        fun i => outcomes ((request call outcomes).requests.length + i)

/-- How many of the first outcomes are to be retried. -/
def retries (retryStatusCodes : Finset ℤ) : ℕ → (ℕ → Outcome T) → ℕ
  | 0, _ => 0
  | n + 1, outcomes =>
    if Retryable retryStatusCodes (outcomes 0) then
      retries retryStatusCodes n (fun i => outcomes (i + 1)) + 1
    else 0

/-- How many outcomes a call should use up. -/
def attempts (client : HttpClient Tm) (call : Call) (outcomes : ℕ → Outcome T) : ℕ :=
  match call.cached with
  | some _ => 0
  | none => retries (client.resolvedRetryStatusCodes call) (client.resolvedMaxRetries call).toNat
      outcomes + 1

/-- The wrapped client has the resolved timeout already, and the delays can be waited for. -/
def Fits (charset : Charset) (sleep : Delay → Slept) (httpxTimeout : ℤ → Tm)
    (client : HttpClient Tm) (call : Call) (outcomes : ℕ → Outcome T) : Prop :=
  call.cached = none →
    client.wrappedTimeout = httpxTimeout (client.resolvedTimeout call) ∧
      AllCanWait charset (client.resolvedMaxRetries call) (client.resolvedRetryStatusCodes call)
        sleep outcomes

/-- So it is in every call. -/
def AllFit (charset : Charset) (sleep : Delay → Slept) (httpxTimeout : ℤ → Tm)
    (client : HttpClient Tm) : List Call → (ℕ → Outcome T) → Prop
  | [], _ => True
  | call :: calls, outcomes =>
    client.Fits charset sleep httpxTimeout call outcomes ∧
      AllFit charset sleep httpxTimeout client calls
        fun i => outcomes (client.attempts call outcomes + i)

variable {charset : Charset} {sleep : Delay → Slept} {httpxTimeout : ℤ → Tm}
  {client : HttpClient Tm} {call : Call} {outcomes : ℕ → Outcome T}

theorem retries_spec (retryStatusCodes : Finset ℤ) (n : ℕ) (outcomes : ℕ → Outcome T) :
    (∀ i < retries retryStatusCodes n outcomes, Retryable retryStatusCodes (outcomes i)) ∧
      (retries retryStatusCodes n outcomes = n ∨
        retries retryStatusCodes n outcomes < n ∧
          ¬ Retryable retryStatusCodes (outcomes (retries retryStatusCodes n outcomes))) := by
  induction n generalizing outcomes with
  | zero => exact ⟨fun i hi => absurd hi (Nat.not_lt_zero i), .inl rfl⟩
  | succ n ih =>
    obtain ⟨hbefore, hlast⟩ := ih fun i => outcomes (i + 1)
    rw [retries]
    split
    · next h =>
      refine ⟨fun i hi => ?_, ?_⟩
      · cases i with
        | zero => exact h
        | succ i => exact hbefore i (by omega)
      · rcases hlast with hlast | ⟨hlt, hnot⟩
        · exact .inl (by omega)
        · exact .inr ⟨by omega, hnot⟩
    · next h => exact ⟨fun i hi => absurd hi (Nat.not_lt_zero i), .inr ⟨by omega, h⟩⟩

/-- The right number of requests is the number of outcomes that should be used up. -/
theorem length_of_retryCount {maxRetries : ℤ} {retryStatusCodes : Finset ℤ} {run : Run T}
    (h : RetryCount maxRetries retryStatusCodes outcomes run) :
    run.requests.length = retries retryStatusCodes maxRetries.toNat outcomes + 1 := by
  obtain ⟨hbefore, hlast⟩ := retries_spec retryStatusCodes maxRetries.toNat outcomes
  by_cases hall : ∀ i, Retryable retryStatusCodes (outcomes i)
  · have hlen := h.none hall
    rcases hlast with hlast | ⟨-, hnot⟩
    · omega
    · exact absurd (hall _) hnot
  · push Not at hall
    have hfirst := Nat.find_spec hall
    have hfind : ∀ j < Nat.find hall, Retryable retryStatusCodes (outcomes j) :=
      fun j hj => not_not.mp (Nat.find_min hall hj)
    have hlen := h.first (Nat.find hall) hfind hfirst
    have hge : retries retryStatusCodes maxRetries.toNat outcomes ≤ Nat.find hall := by
      by_contra hlt
      exact hfirst (hbefore _ (not_le.mp hlt))
    rcases hlast with hlast | ⟨hlt, hnot⟩
    · omega
    · have hle : Nat.find hall ≤ retries retryStatusCodes maxRetries.toNat outcomes := by
        by_contra hlt
        exact hnot (hfind _ (not_le.mp hlt))
      omega

variable (charset sleep client outcomes) in
/-- The requests of a call have no `timeout` argument. -/
theorem requests_requestWith (hcached : call.cached = none) :
    ∃ n, (requestWith charset sleep client call outcomes).requests =
      List.replicate (n + 1) none := by
  obtain ⟨n, -, -, hrequests, -⟩ := sendRequestWith_spec charset (client.resolvedMaxRetries call)
    (client.resolvedRetryStatusCodes call) sleep (client.resolvedTimeout call) false outcomes
  refine ⟨n, ?_⟩
  rw [requestWith, hcached]
  exact hrequests

/-- **One call.** -/
theorem reaches_iff :
    client.Reaches httpxTimeout call outcomes (requestWith charset sleep client call outcomes) ↔
      client.Fits charset sleep httpxTimeout call outcomes := by
  cases hcached : call.cached with
  | some response =>
    have hrun : requestWith charset sleep client call outcomes = ⟨[], .returned response⟩ := by
      rw [requestWith, hcached]
    have hsome : ¬ call.cached = none := by
      rw [hcached]
      exact Option.some_ne_none response
    refine iff_of_true ⟨fun timeout hmem => ?_, fun h => absurd h hsome⟩ fun h => absurd h hsome
    rw [hrun] at hmem
    exact absurd hmem List.not_mem_nil
  | none =>
    obtain ⟨n, hrequests⟩ := requests_requestWith charset sleep client outcomes hcached
    have hmem : ∀ timeout, timeout ∈ (requestWith charset sleep client call outcomes).requests ↔
        timeout = none := by
      intro timeout
      rw [hrequests, List.mem_replicate]
      exact and_iff_right (Nat.succ_ne_zero n)
    have hcount := retryCount_iff charset (client.resolvedMaxRetries call)
      (client.resolvedRetryStatusCodes call) sleep (client.resolvedTimeout call) false outcomes
    have hrun : requestWith charset sleep client call outcomes =
        sendRequestWith charset (client.resolvedMaxRetries call)
          (client.resolvedRetryStatusCodes call) sleep (client.resolvedTimeout call) false
          outcomes := by
      rw [requestWith, hcached]
    rw [← hrun] at hcount
    constructor
    · intro h _
      exact ⟨h.timeouts none ((hmem none).mpr rfl), hcount.mp (h.count hcached)⟩
    · intro h
      obtain ⟨htimeout, hwait⟩ := h hcached
      refine ⟨fun timeout ht => ?_, fun _ => hcount.mpr hwait⟩
      rw [(hmem timeout).mp ht]
      exact htimeout

/-- A call that the settings reach uses up as many outcomes as it should. -/
theorem Reaches.length_requests
    (h : client.Reaches httpxTimeout call outcomes
      (requestWith charset sleep client call outcomes)) :
    (requestWith charset sleep client call outcomes).requests.length =
      client.attempts call outcomes := by
  rw [attempts]
  cases hcached : call.cached with
  | some response =>
    rw [requestWith, hcached]
    rfl
  | none => exact length_of_retryCount (h.count hcached)

theorem allReach_iff (calls : List Call) (outcomes : ℕ → Outcome T) :
    AllReach (requestWith charset sleep client) httpxTimeout client calls outcomes ↔
      AllFit charset sleep httpxTimeout client calls outcomes := by
  induction calls generalizing outcomes with
  | nil => exact Iff.rfl
  | cons call calls ih =>
    rw [AllReach, AllFit, ← reaches_iff]
    refine and_congr_right fun h => ?_
    rw [ih, h.length_requests]

end HttpClient

/-- The settings reach every request of every sequence of calls if and only if, in every call that
sends, the wrapped client's own timeout is the resolved one and the delays can be waited for. -/
theorem client_settings_iff (charset : Charset) (clock : Clock) (httpxTimeout : ℤ → Tm)
    (client : HttpClient Tm) (calls : List Call) (outcomes : ℕ → Outcome T) :
    (HttpClient.AllReach (client.request charset clock) httpxTimeout client calls outcomes ↔
      HttpClient.AllFit charset clock.timeSleep httpxTimeout client calls outcomes) ∧
    (HttpClient.AllReach (client.requestAsync charset clock) httpxTimeout client calls outcomes ↔
      HttpClient.AllFit charset clock.asyncioSleep httpxTimeout client calls outcomes) :=
  ⟨HttpClient.allReach_iff calls outcomes, HttpClient.allReach_iff calls outcomes⟩

/-- A client with a timeout of ten seconds, around one with five. -/
def tenAroundFive : HttpClient ℤ := ⟨5, 10, 3, {503}⟩

/-- It sends with a timeout of five seconds. -/
theorem not_client_settings :
    ¬ ∀ (calls : List Call) (outcomes : ℕ → Outcome Unit),
      HttpClient.AllReach (tenAroundFive.request ascii cpython) id tenAroundFive calls
        outcomes := by
  intro h
  have hfit := (HttpClient.allReach_iff _ _).mp
    (h [⟨none, none, none, none⟩] fun _ => .response ⟨200, [], []⟩)
  have htimeout : (5 : ℤ) = 10 := (hfit.1 rfl).1
  exact absurd htimeout (by decide)

end Http

end Persista
