import GrpcVault.BreakerAdmission

/-!
# To which period an outcome is attributed

An outcome is counted in the window in which the request finishes. As long as every request
finishes in the window that admitted it, the counters of a window count its own requests,
and a half-open period ends well only through its own successes. A result that comes in late
is counted in a window that knows nothing of the request.
-/

namespace GrpcVault.Gateway

open EventSystem

/-- Every request finishes in the window that admitted it, and no window has more requests
than the counter can hold. -/
structure Attributed (tr : Trace) : Prop where
  own : ∀ e window current failed,
    (e, Output.finished window current failed) ∈ tr → window = current
  fits : ∀ window, admissions window tr < 2 ^ 32

structure Counted (tr : Trace) (s : System) : Prop where
  requests : s.breaker.counts.requests.toNat = admissions s.window tr
  successes : s.breaker.counts.totalSuccesses.toNat = outcomes s.window false tr
  failures : s.breaker.counts.totalFailures.toNat = outcomes s.window true tr
  consecutive : s.breaker.counts.consecutiveSuccesses.toNat ≤
    s.breaker.counts.totalSuccesses.toNat

variable {s s' : System} {tr tr₁ tr₂ : Trace} {e : Event}

theorem Attributed.left (h : Attributed (tr₁ ++ tr₂)) : Attributed tr₁ where
  own e window current failed hmem :=
    h.own e window current failed (List.mem_append_left _ hmem)
  fits window := by
    have hfits := h.fits window
    unfold admissions at hfits ⊢
    rw [List.countP_append] at hfits
    omega

theorem Ledger.outcomes_le (h : Ledger tr s) (window : ℕ) :
    outcomes window false tr + outcomes window true tr ≤ admissions window tr := by
  have hb := h.balance window
  omega

theorem counted_new {window : ℕ} {requests : UInt32} (hw : s.window = window)
    (hc : s.breaker.counts = { Counts.zero with requests })
    (hadm : admissions window tr = requests.toNat) (hout : ∀ failed, outcomes window failed tr = 0) :
    Counted tr s := by
  subst hw
  refine ⟨?_, ?_, ?_, ?_⟩
  · rw [hadm, hc]
  · rw [hout, hc]
    rfl
  · rw [hout, hc]
    rfl
  · rw [hc]
    exact le_rfl

theorem Ledger.counted (h : Ledger tr s) (hw : s'.window = s.window + 1)
    (hc : s'.breaker.counts = { Counts.zero with requests := 1 }) :
    Counted (tr ++ [(e, .admitted (s.window + 1))]) s' :=
  counted_new hw hc (h.fresh e).1 (h.fresh e).2

theorem Ledger.counted_zero (h : Ledger tr s) (hw : s'.window = s.window + 1)
    (hc : s'.breaker.counts = Counts.zero) :
    Counted (tr ++ [(e, .finished s.window s.window false)]) s' := by
  refine counted_new hw hc ?_ ?_
  · rw [admissions_snoc, h.unused _ (Nat.lt_succ_self _)]
    rfl
  · intro failed
    rw [outcomes_snoc, h.outcomes_unused (Nat.lt_succ_self _)]
    simp [finishes]

theorem Counted.success (hc : Counted tr s) (hfits : outcomes s.window false tr + 1 < 2 ^ 32)
    (hw : s'.window = s.window) (hb : s'.breaker.counts = s.breaker.countSuccess.counts) :
    Counted (tr ++ [(e, .finished s.window s.window false)]) s' := by
  obtain ⟨hreq, hsucc, hfail, hcons⟩ := hc
  have hto : s.breaker.countSuccess.counts.totalSuccesses.toNat =
      s.breaker.counts.totalSuccesses.toNat + 1 := toNat_add_one (by omega)
  have hto' : s.breaker.countSuccess.counts.consecutiveSuccesses.toNat =
      s.breaker.counts.consecutiveSuccesses.toNat + 1 := toNat_add_one (by omega)
  refine ⟨?_, ?_, ?_, ?_⟩
  · rw [hb, hw, admissions_snoc]
    simpa [admits, CircuitBreaker.countSuccess] using hreq
  · rw [hb, hw, outcomes_snoc, hto, hsucc]
    simp [finishes]
  · rw [hb, hw, outcomes_snoc]
    simpa [finishes, CircuitBreaker.countSuccess] using hfail
  · rw [hb, hto, hto']
    omega

theorem Counted.failure (hc : Counted tr s) (hfits : outcomes s.window true tr + 1 < 2 ^ 32)
    {t : ℤ} (hw : s'.window = s.window)
    (hb : s'.breaker.counts = (s.breaker.countFailure t).counts) :
    Counted (tr ++ [(e, .finished s.window s.window true)]) s' := by
  obtain ⟨hreq, hsucc, hfail, hcons⟩ := hc
  have hto : (s.breaker.countFailure t).counts.totalFailures.toNat =
      s.breaker.counts.totalFailures.toNat + 1 := toNat_add_one (by omega)
  refine ⟨?_, ?_, ?_, ?_⟩
  · rw [hb, hw, admissions_snoc]
    simpa [admits, CircuitBreaker.countFailure] using hreq
  · rw [hb, hw, outcomes_snoc]
    simpa [finishes, CircuitBreaker.countFailure] using hsucc
  · rw [hb, hw, outcomes_snoc, hto, hfail]
    simp [finishes]
  · rw [hb]
    simp [CircuitBreaker.countFailure]

theorem outcomes_fit {failed : Bool}
    (hl : Ledger (tr ++ [(e, .finished s.window s.window failed)]) s')
    (ha : Attributed (tr ++ [(e, .finished s.window s.window failed)])) :
    outcomes s.window failed tr + 1 < 2 ^ 32 := by
  have hle := hl.outcomes_le s.window
  have hfits := ha.fits s.window
  rw [outcomes_snoc, outcomes_snoc] at hle
  cases failed <;> simp [finishes] at hle <;> omega

/-- One step keeps the counters true, if the request that finishes is of the current
window. -/
theorem step_counted {o : Output} (hl : Ledger tr s) (hc : Counted tr s)
    (ha : Attributed (tr ++ [(e, o)])) (hstep : step s e = some (s', o)) :
    Counted (tr ++ [(e, o)]) s' := by
  have hl' := step_ledger hl hstep
  have hown := ha.own e
  cases step_effect hstep with
  | tick | refuse =>
      refine ⟨?_, ?_, ?_, hc.consecutive⟩
      · simpa [admissions_snoc, admits] using hc.requests
      · simpa [outcomes_snoc, finishes] using hc.successes
      · simpa [outcomes_snoc, finishes] using hc.failures
  | pass =>
      have hreq := hc.requests
      have hfits := ha.fits s.window
      rw [admissions_snoc] at hfits
      simp only [admits, decide_true, if_true] at hfits
      have hto : s.breaker.countRequest.counts.requests.toNat =
          s.breaker.counts.requests.toNat + 1 := toNat_add_one (by omega)
      refine ⟨?_, ?_, ?_, hc.consecutive⟩
      · simp [admissions_snoc, admits, hto, hreq]
      · simpa [outcomes_snoc, finishes, CircuitBreaker.countRequest] using hc.successes
      · simpa [outcomes_snoc, finishes, CircuitBreaker.countRequest] using hc.failures
  | renew | probe => exact hl.counted rfl rfl
  | @succeed window =>
      obtain rfl := hown window s.window false (by simp)
      exact hc.success (outcomes_fit hl' ha) rfl rfl
  | @close window =>
      obtain rfl := hown window s.window false (by simp)
      exact hl.counted_zero rfl rfl
  | @fail window | @openUp window =>
      obtain rfl := hown window s.window true (by simp)
      exact hc.failure (t := s.now) (outcomes_fit hl' ha) rfl rfl

theorem Counted.closes {o : Output} (hc : Counted tr s) (ha : Attributed (tr ++ [(e, o)]))
    (hstep : step s e = some (s', o)) (hs : s.breaker.state = .stateHalfOpen)
    (hs' : s'.breaker.state = .stateClosed) :
    s.breaker.maxRequests.toNat ≤ outcomes s.window false (tr ++ [(e, o)]) := by
  have hown := ha.own e
  cases step_effect hstep with
  | @close window delay hmem hstate hmax =>
      obtain rfl := hown window s.window false (by simp)
      have hle := UInt32.le_iff_toNat_le.mp hmax
      rw [UInt32.toNat_add, UInt32.toNat_one] at hle
      have hmod := Nat.mod_le (s.breaker.counts.consecutiveSuccesses.toNat + 1) (2 ^ 32)
      have hcons := hc.consecutive
      have hsucc := hc.successes
      rw [outcomes_snoc]
      simp only [finishes, decide_true, Bool.and_self, if_true]
      omega
  | tick | refuse | pass | renew | succeed | fail =>
      rw [show s.breaker.state = .stateClosed from hs'] at hs
      cases hs
  | probe | openUp => cases hs'

section Runs

variable {maxRequests : UInt32} {interval timeout now : ℤ} {failureRatio : Float64}

theorem run_counted
    (h : Run step (System.start (newCircuitBreaker maxRequests interval timeout failureRatio) now)
      tr s) : Attributed tr → Counted tr s := by
  refine h.snocInduction (I := fun tr s => Attributed tr → Counted tr s) ?_ ?_
  · intro _
    exact ⟨rfl, rfl, rfl, le_rfl⟩
  · intro tr m e o m' hrun hm hstep ha
    exact step_counted (run_probing hrun).1 (hm ha.left) ha hstep

/-- In a run whose requests finish in the window that admitted them, outcomes never
outnumber requests, and a half-open breaker closes only after `maxRequests` successes of
requests that this period admitted. -/
theorem outcomes_attributed
    (h : Run step (System.start (newCircuitBreaker maxRequests interval timeout failureRatio) now)
      tr s) (ha : Attributed tr) :
    s.breaker.counts.totalSuccesses.toNat + s.breaker.counts.totalFailures.toNat ≤
      s.breaker.counts.requests.toNat ∧
    ∀ tr₁ e o tr₂ m m', tr = tr₁ ++ (e, o) :: tr₂ →
      Run step (System.start (newCircuitBreaker maxRequests interval timeout failureRatio) now)
        tr₁ m →
      step m e = some (m', o) → m.breaker.state = .stateHalfOpen →
      m'.breaker.state = .stateClosed →
      maxRequests.toNat ≤ outcomes m.window false (tr₁ ++ [(e, o)]) := by
  constructor
  · have hc := run_counted h ha
    rw [hc.requests, hc.successes, hc.failures]
    exact (run_probing h).1.outcomes_le s.window
  · intro tr₁ e o tr₂ m m' htr hm hstep hs hs'
    rw [htr, List.append_cons] at ha
    rw [← (run_config hm).1]
    exact (run_counted hm ha.left.left).closes ha.left hstep hs hs'

end Runs

/-- A request fails and opens the breaker; after the timeout the probe is admitted. -/
def probeTrace : Trace :=
  [(.beforeRequest 0, .admitted 0), (.afterRequest 0 true 0, .finished 0 0 true),
    (.tick 2, .done), (.beforeRequest 0, .admitted 1)]

/-- The probe itself closes the breaker. -/
theorem outcomes_attributed_probe : ∃ (tr₁ : Trace) (m m' : System),
    Run step (System.start (newCircuitBreaker 1 0 1 (.finite 0 0)) 0) tr₁ m ∧
    step m (.afterRequest 1 false 0) = some (m', .finished 1 1 false) ∧
    m.breaker.state = .stateHalfOpen ∧ m'.breaker.state = .stateClosed ∧
    Attributed (tr₁ ++ [(.afterRequest 1 false 0, .finished 1 1 false)]) ∧
    1 ≤ outcomes m.window false (tr₁ ++ [(.afterRequest 1 false 0, .finished 1 1 false)]) := by
  have h : ∃ (m m' : System),
      Run step (System.start (newCircuitBreaker 1 0 1 (.finite 0 0)) 0) probeTrace m ∧
      step m (.afterRequest 1 false 0) = some (m', .finished 1 1 false) ∧
      m.breaker.state = .stateHalfOpen ∧ m'.breaker.state = .stateClosed :=
    ⟨_, _, ⟨_, rfl, _, rfl, _, rfl, _, rfl, rfl⟩, rfl, rfl, rfl⟩
  obtain ⟨m, m', hm, hstep, hs, hs'⟩ := h
  have ha : Attributed (probeTrace ++ [(.afterRequest 1 false 0, .finished 1 1 false)]) := by
    constructor
    · intro e window current failed hmem
      simp only [probeTrace, List.cons_append, List.nil_append, List.mem_cons, Prod.mk.injEq,
        reduceCtorEq, and_false, false_or, List.not_mem_nil, or_false, Output.finished.injEq]
        at hmem
      omega
    · intro window
      exact lt_of_le_of_lt List.countP_le_length (by decide)
  exact ⟨_, m, m', hm, hstep, hs, hs', ha, (outcomes_attributed
    (run_snoc.mpr ⟨m, hm, hstep⟩) ha).2 _ _ _ [] m m' rfl hm hstep hs hs'⟩

/-- Two requests are admitted while the breaker is closed. The failure of one opens it, and
the other succeeds only after the probe of the half-open period was admitted: the breaker
closes without a success of that period, and the probe's failure is counted in a window
without requests. -/
theorem late_outcome_misattributed : ∃ (tr₁ : Trace) (m m' s : System),
    Run step (System.start (newCircuitBreaker 1 0 1 (.finite 0 0)) 0) tr₁ m ∧
    step m (.afterRequest 0 false 0) = some (m', .finished 0 1 false) ∧
    m.breaker.state = .stateHalfOpen ∧ m'.breaker.state = .stateClosed ∧
    outcomes m.window false (tr₁ ++ [(.afterRequest 0 false 0, .finished 0 1 false)]) = 0 ∧
    step m' (.afterRequest 1 true 0) = some (s, .finished 1 2 true) ∧
    s.breaker.counts.requests.toNat <
      s.breaker.counts.totalSuccesses.toNat + s.breaker.counts.totalFailures.toNat := by
  refine ⟨[(.beforeRequest 0, .admitted 0), (.beforeRequest 0, .admitted 0),
      (.afterRequest 0 true 0, .finished 0 0 true), (.tick 2, .done),
      (.beforeRequest 0, .admitted 1)], _, _, _, ⟨_, rfl, _, rfl, _, rfl, _, rfl, _, rfl, rfl⟩,
    rfl, rfl, rfl, rfl, rfl, ?_⟩
  decide

end GrpcVault.Gateway
