import GrpcVault.Lib.EventSystem

/-!
# The gateway's circuit breaker

`Execute` runs a request between `beforeRequest`, which admits or refuses it, and
`afterRequest`, which records its outcome; each holds the breaker's lock. The counters are
32 bits wide and wrap. Times are in nanoseconds, `none` is the zero time. A function that
reads the clock twice takes both readings.

`step` interleaves the two halves of any number of requests under a clock that only moves
forward. It numbers the windows between two zeroings of the counters and remembers in which
window each request in flight was admitted. The numbers do not influence the breaker.
`Effect` lists everything a step can do.
-/

namespace GrpcVault.Gateway

open EventSystem

/-- The values of `float64`; a finite one is `mantissa * 2 ^ exponent`. -/
inductive Float64 where
  | nan
  | negInf
  | posInf
  | finite (mantissa exponent : ℤ)

namespace Float64

def ge : Float64 → Float64 → Bool
  | .nan, _ => false
  | _, .nan => false
  | _, .negInf => true
  | .negInf, _ => false
  | .posInf, _ => true
  | _, .posInf => false
  | .finite m e, .finite m' e' =>
      m' * 2 ^ (e' - min e e').toNat ≤ m * 2 ^ (e - min e e').toNat

/-- The integer nearest to `n / d`, the even one of two. -/
def roundHalfEven (n d : ℕ) : ℕ :=
  if 2 * (n % d) < d then n / d
  else if d < 2 * (n % d) then n / d + 1
  else n / d + n / d % 2

/-- The quotient of two 32-bit numbers, rounded to 53 bits. -/
def div (a b : UInt32) : Float64 :=
  let n := a.toNat
  let d := b.toNat
  if d = 0 then if n = 0 then .nan else .posInf
  else if n = 0 then .finite 0 0
  else
    let k := 53 + d.log2 - n.log2
    let k := if 2 ^ 53 ≤ n * 2 ^ k / d then k - 1 else k
    .finite (roundHalfEven (n * 2 ^ k) d) (-k)

end Float64

inductive State where
  | stateClosed
  | stateHalfOpen
  | stateOpen
  deriving DecidableEq

structure Counts where
  requests : UInt32
  totalSuccesses : UInt32
  totalFailures : UInt32
  consecutiveSuccesses : UInt32
  consecutiveFailures : UInt32
  deriving DecidableEq

def Counts.zero : Counts := ⟨0, 0, 0, 0, 0⟩

structure CircuitBreaker where
  maxRequests : UInt32
  interval : ℤ
  timeout : ℤ
  failureRatio : Float64
  state : State
  counts : Counts
  expiry : Option ℤ
  lastFailure : Option ℤ

inductive BreakerError where
  | circuitOpen
  deriving DecidableEq

def BreakerError.message : BreakerError → String
  | .circuitOpen => "circuit breaker is open"

def newCircuitBreaker (maxRequests : UInt32) (interval timeout : ℤ) (failureRatio : Float64) :
    CircuitBreaker where
  maxRequests := maxRequests
  interval := interval
  timeout := timeout
  failureRatio := failureRatio
  state := .stateClosed
  counts := .zero
  expiry := none
  lastFailure := none

namespace CircuitBreaker

variable (cb : CircuitBreaker)

/-- `cb.expiry.Before(now)`; the zero time is before every other. -/
def expiryBefore (now : ℤ) : Bool := cb.expiry.all fun expiry => expiry < now

def setState (state : State) (now : ℤ) : CircuitBreaker :=
  if cb.state = state then cb
  else
    match state with
    | .stateClosed => { cb with state, expiry := some (now + cb.interval), counts := .zero }
    | .stateOpen => { cb with state, expiry := some (now + cb.timeout) }
    | .stateHalfOpen => { cb with state, counts := .zero }

def reset (now : ℤ) : CircuitBreaker :=
  { cb with counts := .zero, expiry := some (now + cb.interval) }

def countRequest : CircuitBreaker :=
  { cb with counts := { cb.counts with requests := cb.counts.requests + 1 } }

def beforeRequest (now now' : ℤ) : CircuitBreaker × Option BreakerError :=
  match cb.state with
  | .stateClosed =>
      if cb.expiry.isSome && cb.expiryBefore now then ((cb.reset now').countRequest, none)
      else (cb.countRequest, none)
  | .stateOpen =>
      if cb.expiryBefore now then ((cb.setState .stateHalfOpen now').countRequest, none)
      else (cb, some .circuitOpen)
  | .stateHalfOpen =>
      if cb.maxRequests ≤ cb.counts.requests then (cb, some .circuitOpen)
      else (cb.countRequest, none)

def shouldTrip : Bool :=
  if cb.counts.requests < cb.maxRequests then false
  else (Float64.div cb.counts.totalFailures cb.counts.requests).ge cb.failureRatio

def countSuccess : CircuitBreaker :=
  { cb with counts := { cb.counts with
      totalSuccesses := cb.counts.totalSuccesses + 1
      consecutiveSuccesses := cb.counts.consecutiveSuccesses + 1
      consecutiveFailures := 0 } }

def onSuccess (now : ℤ) : CircuitBreaker :=
  let cb := cb.countSuccess
  match cb.state with
  | .stateHalfOpen =>
      if cb.maxRequests ≤ cb.counts.consecutiveSuccesses then cb.setState .stateClosed now else cb
  | _ => cb

def countFailure (now : ℤ) : CircuitBreaker :=
  { cb with
    counts := { cb.counts with
      totalFailures := cb.counts.totalFailures + 1
      consecutiveFailures := cb.counts.consecutiveFailures + 1
      consecutiveSuccesses := 0 }
    lastFailure := some now }

def onFailure (now now' : ℤ) : CircuitBreaker :=
  let cb := cb.countFailure now
  match cb.state with
  | .stateClosed => if cb.shouldTrip then cb.setState .stateOpen now' else cb
  | .stateHalfOpen => cb.setState .stateOpen now'
  | .stateOpen => cb

/-- `failed` tells whether the request's error is non-nil. -/
def afterRequest (failed : Bool) (now now' : ℤ) : CircuitBreaker :=
  if failed then cb.onFailure now now' else cb.onSuccess now'

/-- Admitting a request now zeroes the counters first. -/
def startsWindow (now : ℤ) : Bool :=
  match cb.state with
  | .stateClosed => cb.expiry.isSome && cb.expiryBefore now
  | .stateOpen => cb.expiryBefore now
  | .stateHalfOpen => false

end CircuitBreaker

/-- `inFlight` has the window of admission of every request that has not finished. -/
structure System where
  breaker : CircuitBreaker
  now : ℤ
  window : ℕ
  inFlight : List ℕ

def System.start (breaker : CircuitBreaker) (now : ℤ) : System where
  breaker := breaker
  now := now
  window := 0
  inFlight := []

/-- `delay` is the time between the two readings of the clock. Requests of one window
are interchangeable, so the one that finishes is told by its window. -/
inductive Event where
  | tick (d : ℕ)
  | beforeRequest (delay : ℕ)
  | afterRequest (window : ℕ) (failed : Bool) (delay : ℕ)

inductive Output where
  | done
  | admitted (window : ℕ)
  | refused
  | finished (window current : ℕ) (failed : Bool)
  deriving DecidableEq

abbrev Trace := List (Event × Output)

def step : Step System Event Output
  | s, .tick d => some ({ s with now := s.now + d }, .done)
  | s, .beforeRequest delay =>
      let window := if s.breaker.startsWindow s.now then s.window + 1 else s.window
      match s.breaker.beforeRequest s.now (s.now + delay) with
      | (breaker, none) => some
          ({ breaker, now := s.now + delay, window, inFlight := window :: s.inFlight },
            .admitted window)
      | (breaker, some _) => some ({ s with breaker, now := s.now + delay }, .refused)
  | s, .afterRequest window failed delay =>
      if window ∈ s.inFlight then
        let breaker := s.breaker.afterRequest failed s.now (s.now + delay)
        let closes := s.breaker.state = .stateHalfOpen ∧ breaker.state = .stateClosed
        some ({ breaker, now := s.now + delay
                window := if closes then s.window + 1 else s.window
                inFlight := s.inFlight.erase window },
          .finished window s.window failed)
      else none

inductive Effect (s : System) : Event → Output → System → Prop
  | tick {d : ℕ} : Effect s (.tick d) .done { s with now := s.now + d }
  | pass {delay : ℕ} (hstate : s.breaker.state = .stateClosed ∨
        s.breaker.state = .stateHalfOpen ∧ s.breaker.counts.requests < s.breaker.maxRequests) :
      Effect s (.beforeRequest delay) (.admitted s.window)
        { s with breaker := s.breaker.countRequest, now := s.now + delay
                 inFlight := s.window :: s.inFlight }
  | renew {delay : ℕ} (hstate : s.breaker.state = .stateClosed) :
      Effect s (.beforeRequest delay) (.admitted (s.window + 1))
        { breaker := (s.breaker.reset (s.now + delay)).countRequest, now := s.now + delay
          window := s.window + 1, inFlight := (s.window + 1) :: s.inFlight }
  | probe {delay : ℕ} (hstate : s.breaker.state = .stateOpen)
      (hexpiry : s.breaker.expiryBefore s.now = true) :
      Effect s (.beforeRequest delay) (.admitted (s.window + 1))
        { breaker := { s.breaker with state := .stateHalfOpen, counts := .zero }.countRequest
          now := s.now + delay, window := s.window + 1, inFlight := (s.window + 1) :: s.inFlight }
  | refuse {delay : ℕ} (hstate : s.breaker.state = .stateOpen ∨
        s.breaker.state = .stateHalfOpen ∧ s.breaker.maxRequests ≤ s.breaker.counts.requests) :
      Effect s (.beforeRequest delay) .refused { s with now := s.now + delay }
  | succeed {window delay : ℕ} (hmem : window ∈ s.inFlight)
      (hstate : s.breaker.state = .stateHalfOpen →
        s.breaker.counts.consecutiveSuccesses + 1 < s.breaker.maxRequests) :
      Effect s (.afterRequest window false delay) (.finished window s.window false)
        { s with breaker := s.breaker.countSuccess, now := s.now + delay
                 inFlight := s.inFlight.erase window }
  | close {window delay : ℕ} (hmem : window ∈ s.inFlight)
      (hstate : s.breaker.state = .stateHalfOpen)
      (hmax : s.breaker.maxRequests ≤ s.breaker.counts.consecutiveSuccesses + 1) :
      Effect s (.afterRequest window false delay) (.finished window s.window false)
        { breaker := { s.breaker with
            state := .stateClosed, counts := .zero
            expiry := some (s.now + delay + s.breaker.interval) }
          now := s.now + delay, window := s.window + 1, inFlight := s.inFlight.erase window }
  | fail {window delay : ℕ} (hmem : window ∈ s.inFlight)
      (hstate : s.breaker.state ≠ .stateHalfOpen) :
      Effect s (.afterRequest window true delay) (.finished window s.window true)
        { s with breaker := s.breaker.countFailure s.now, now := s.now + delay
                 inFlight := s.inFlight.erase window }
  | openUp {window delay : ℕ} (hmem : window ∈ s.inFlight)
      (hstate : s.breaker.state ≠ .stateOpen) :
      Effect s (.afterRequest window true delay) (.finished window s.window true)
        { s with
          breaker := { s.breaker.countFailure s.now with
            state := .stateOpen, expiry := some (s.now + delay + s.breaker.timeout) }
          now := s.now + delay, inFlight := s.inFlight.erase window }

variable {s s' : System}

theorem beforeRequest_effect {delay : ℕ} {o : Output}
    (h : step s (.beforeRequest delay) = some (s', o)) :
    Effect s (.beforeRequest delay) o s' := by
  unfold step CircuitBreaker.startsWindow CircuitBreaker.beforeRequest at h
  cases hs : s.breaker.state with
  | stateClosed =>
      by_cases he : (s.breaker.expiry.isSome && s.breaker.expiryBefore s.now) = true
      · simp only [hs, he, if_true, Option.some.injEq, Prod.mk.injEq] at h
        obtain ⟨rfl, rfl⟩ := h
        exact .renew hs
      · simp only [hs, he, if_false, Bool.false_eq_true, Option.some.injEq, Prod.mk.injEq] at h
        obtain ⟨rfl, rfl⟩ := h
        exact .pass (.inl hs)
  | stateOpen =>
      by_cases he : s.breaker.expiryBefore s.now = true
      · simp only [hs, he, if_true, CircuitBreaker.setState, reduceCtorEq, if_false,
          Option.some.injEq, Prod.mk.injEq] at h
        obtain ⟨rfl, rfl⟩ := h
        exact .probe hs he
      · simp only [hs, he, if_false, Bool.false_eq_true, Option.some.injEq, Prod.mk.injEq] at h
        obtain ⟨rfl, rfl⟩ := h
        exact .refuse (.inl hs)
  | stateHalfOpen =>
      by_cases hm : s.breaker.maxRequests ≤ s.breaker.counts.requests
      · simp only [hs, hm, if_true, Option.some.injEq, Prod.mk.injEq] at h
        obtain ⟨rfl, rfl⟩ := h
        exact .refuse (.inr ⟨hs, hm⟩)
      · simp only [hs, hm, if_false, Bool.false_eq_true, Option.some.injEq, Prod.mk.injEq] at h
        obtain ⟨rfl, rfl⟩ := h
        exact .pass (.inr ⟨hs, UInt32.not_le.mp hm⟩)

namespace CircuitBreaker

variable {cb : CircuitBreaker}

theorem onSuccess_cases (cb : CircuitBreaker) (now : ℤ) :
    (cb.onSuccess now = cb.countSuccess ∧ (cb.state = .stateHalfOpen →
        cb.counts.consecutiveSuccesses + 1 < cb.maxRequests)) ∨
      (cb.onSuccess now = { cb with
          state := .stateClosed, counts := .zero, expiry := some (now + cb.interval) } ∧
        cb.state = .stateHalfOpen ∧ cb.maxRequests ≤ cb.counts.consecutiveSuccesses + 1) := by
  unfold onSuccess
  have hstate : cb.countSuccess.state = cb.state := rfl
  cases hs : cb.state with
  | stateHalfOpen =>
      simp only [hstate, hs]
      by_cases hm : cb.maxRequests ≤ cb.counts.consecutiveSuccesses + 1
      · refine .inr ⟨?_, trivial, hm⟩
        rw [if_pos (show cb.countSuccess.maxRequests ≤ cb.countSuccess.counts.consecutiveSuccesses
          from hm), setState, if_neg (by simp [hstate, hs])]
        rfl
      · refine .inl ⟨?_, fun _ => UInt32.not_le.mp hm⟩
        rw [if_neg (show ¬ cb.countSuccess.maxRequests ≤
          cb.countSuccess.counts.consecutiveSuccesses from hm)]
  | stateClosed | stateOpen =>
      simp only [hstate, hs]
      exact .inl ⟨trivial, nofun⟩

theorem onFailure_cases (cb : CircuitBreaker) (now now' : ℤ) :
    (cb.onFailure now now' = cb.countFailure now ∧ cb.state ≠ .stateHalfOpen) ∨
      (cb.onFailure now now' = { cb.countFailure now with
          state := .stateOpen, expiry := some (now' + cb.timeout) } ∧ cb.state ≠ .stateOpen) := by
  unfold onFailure
  have hstate : (cb.countFailure now).state = cb.state := rfl
  cases hs : cb.state with
  | stateClosed =>
      simp only [hstate, hs]
      by_cases ht : (cb.countFailure now).shouldTrip = true
      · refine .inr ⟨?_, nofun⟩
        rw [if_pos ht, setState, if_neg (by simp [hstate, hs])]
        rfl
      · refine .inl ⟨?_, nofun⟩
        rw [if_neg ht]
  | stateHalfOpen =>
      simp only [hstate, hs]
      refine .inr ⟨?_, nofun⟩
      rw [setState, if_neg (by simp [hstate, hs])]
      rfl
  | stateOpen =>
      simp only [hstate, hs]
      exact .inl ⟨trivial, nofun⟩

end CircuitBreaker

theorem afterRequest_effect {window delay : ℕ} {failed : Bool} {o : Output}
    (h : step s (.afterRequest window failed delay) = some (s', o)) :
    Effect s (.afterRequest window failed delay) o s' := by
  unfold step at h
  by_cases hmem : window ∈ s.inFlight
  · simp only [if_pos hmem, Option.some.injEq, Prod.mk.injEq] at h
    obtain ⟨rfl, rfl⟩ := h
    cases failed with
    | false =>
        have hcb : s.breaker.afterRequest false s.now (s.now + delay) =
          s.breaker.onSuccess (s.now + delay) := rfl
        obtain ⟨he, hstate⟩ | ⟨he, hstate, hm⟩ := s.breaker.onSuccess_cases (s.now + delay)
        · have hno : ¬ (s.breaker.state = .stateHalfOpen ∧
              s.breaker.countSuccess.state = .stateClosed) := by
            rintro ⟨h₁, h₂⟩
            rw [show s.breaker.countSuccess.state = s.breaker.state from rfl, h₁] at h₂
            cases h₂
          rw [hcb, he, if_neg hno]
          exact .succeed hmem hstate
        · rw [hcb, he, if_pos ⟨hstate, rfl⟩]
          exact .close hmem hstate hm
    | true =>
        have hcb : s.breaker.afterRequest true s.now (s.now + delay) =
          s.breaker.onFailure s.now (s.now + delay) := rfl
        obtain ⟨he, hstate⟩ | ⟨he, hstate⟩ := s.breaker.onFailure_cases s.now (s.now + delay)
        · rw [hcb, he, if_neg (fun hc => hstate hc.1)]
          exact .fail hmem hstate
        · rw [hcb, he, if_neg (fun hc => by cases hc.2)]
          exact .openUp hmem hstate
  · simp only [if_neg hmem] at h
    cases h

theorem step_effect {e : Event} {o : Output} (h : step s e = some (s', o)) : Effect s e o s' := by
  cases e with
  | tick d =>
      cases h
      exact .tick
  | beforeRequest delay => exact beforeRequest_effect h
  | afterRequest window failed delay => exact afterRequest_effect h

end GrpcVault.Gateway
