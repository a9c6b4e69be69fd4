import GrpcVault.CircuitBreaker

/-!
# What the circuit breaker admits

An open breaker admits nothing until its timeout has passed, whatever results arrive, and
a half-open period admits a bounded number of probes. `Probing` ties the counters of a
half-open period to the requests that were admitted in it: as long as the period lasts,
each of them has succeeded or is in flight. So a half-open breaker that refuses requests
is waiting for one of its own.
-/

namespace GrpcVault.Gateway

open EventSystem

def admits (window : ℕ) : Event × Output → Bool
  | (_, .admitted window') => window' = window
  | _ => false

/-- A request of the window finishes with this outcome, in whatever window. -/
def finishes (window : ℕ) (failed : Bool) : Event × Output → Bool
  | (_, .finished window' _ failed') => window' = window && failed' = failed
  | _ => false

def admissions (window : ℕ) (tr : Trace) : ℕ := tr.countP (admits window)

def outcomes (window : ℕ) (failed : Bool) (tr : Trace) : ℕ := tr.countP (finishes window failed)

variable {s s' : System} {tr : Trace}

theorem admissions_snoc (window : ℕ) (tr : Trace) (x : Event × Output) :
    admissions window (tr ++ [x]) = admissions window tr + if admits window x then 1 else 0 := by
  simp [admissions, List.countP_append, List.countP_singleton]

theorem outcomes_snoc (window : ℕ) (failed : Bool) (tr : Trace) (x : Event × Output) :
    outcomes window failed (tr ++ [x]) =
      outcomes window failed tr + if finishes window failed x then 1 else 0 := by
  simp [outcomes, List.countP_append, List.countP_singleton]

/-- Every request that was admitted has finished or is in flight, and no window later than
the current one has requests. -/
structure Ledger (tr : Trace) (s : System) : Prop where
  balance : ∀ window, admissions window tr =
    outcomes window false tr + outcomes window true tr + s.inFlight.count window
  unused : ∀ window, s.window < window → admissions window tr = 0

theorem ledger_start (breaker : CircuitBreaker) (now : ℤ) :
    Ledger [] (System.start breaker now) where
  balance _ := rfl
  unused _ _ := rfl

theorem Ledger.admitted (h : Ledger tr s) {window : ℕ} {e : Event} (hw : s.window ≤ window)
    (hin : s'.inFlight = window :: s.inFlight) (hwin : s'.window = window) :
    Ledger (tr ++ [(e, .admitted window)]) s' where
  balance w := by
    have hb := h.balance w
    rw [admissions_snoc, outcomes_snoc, outcomes_snoc, hin]
    by_cases hww : window = w
    · subst hww
      simp [admits, finishes]
      omega
    · simp [admits, finishes, hww]
      omega
  unused w hlt := by
    have hne : window ≠ w := by omega
    rw [admissions_snoc, h.unused w (by omega)]
    simp [admits, hne]

theorem Ledger.finished (h : Ledger tr s) {window current : ℕ} {failed : Bool} {e : Event}
    (hmem : window ∈ s.inFlight) (hin : s'.inFlight = s.inFlight.erase window)
    (hwin : s.window ≤ s'.window) : Ledger (tr ++ [(e, .finished window current failed)]) s' where
  balance w := by
    have hb := h.balance w
    rw [admissions_snoc, outcomes_snoc, outcomes_snoc, hin]
    by_cases hww : window = w
    · subst hww
      have hpos := List.count_pos_iff.mpr hmem
      rw [List.count_erase_self]
      cases failed <;> simp [admits, finishes] <;> omega
    · rw [List.count_erase_of_ne (Ne.symm hww)]
      cases failed <;> simp [admits, finishes, hww] <;> omega
  unused w hlt := by
    rw [admissions_snoc, h.unused w (by omega)]
    simp [admits]

theorem Ledger.idle (h : Ledger tr s) {e : Event} {o : Output} (ho : o = .done ∨ o = .refused)
    (hin : s'.inFlight = s.inFlight) (hwin : s'.window = s.window) :
    Ledger (tr ++ [(e, o)]) s' where
  balance w := by
    have hb := h.balance w
    rw [admissions_snoc, outcomes_snoc, outcomes_snoc, hin]
    rcases ho with rfl | rfl <;> simpa [admits, finishes] using hb
  unused w hlt := by
    rw [admissions_snoc, h.unused w (by omega)]
    rcases ho with rfl | rfl <;> rfl

theorem step_ledger {e : Event} {o : Output} (h : Ledger tr s) (hstep : step s e = some (s', o)) :
    Ledger (tr ++ [(e, o)]) s' := by
  cases step_effect hstep with
  | tick => exact h.idle (.inl rfl) rfl rfl
  | refuse => exact h.idle (.inr rfl) rfl rfl
  | pass => exact h.admitted le_rfl rfl rfl
  | renew | probe => exact h.admitted (Nat.le_succ _) rfl rfl
  | succeed hmem => exact h.finished hmem rfl le_rfl
  | close hmem => exact h.finished hmem rfl (Nat.le_succ _)
  | fail hmem => exact h.finished hmem rfl le_rfl
  | openUp hmem => exact h.finished hmem rfl le_rfl

/-- A half-open period: its counters count the requests of its window, one or more and not
above the bound, none of which has failed; and there have not been enough successes. -/
structure Probing (tr : Trace) (s : System) : Prop where
  requests : s.breaker.counts.requests.toNat = admissions s.window tr
  pos : 1 ≤ s.breaker.counts.requests.toNat
  bounded : s.breaker.counts.requests.toNat ≤ max 1 s.breaker.maxRequests.toNat
  successes : outcomes s.window false tr ≤ s.breaker.counts.consecutiveSuccesses.toNat
  failures : outcomes s.window true tr = 0
  below : s.breaker.counts.consecutiveSuccesses = 0 ∨
    s.breaker.counts.consecutiveSuccesses < s.breaker.maxRequests

theorem toNat_add_one {a : UInt32} (h : a.toNat + 1 < 2 ^ 32) : (a + 1).toNat = a.toNat + 1 := by
  rw [UInt32.toNat_add, UInt32.toNat_one, Nat.mod_eq_of_lt h]

theorem toNat_succ {a b : UInt32} (h : a < b) : (a + 1).toNat = a.toNat + 1 := by
  have hlt := UInt32.lt_iff_toNat_lt.mp h
  have hb := b.toNat_lt
  exact toNat_add_one (by omega)

theorem Ledger.outcomes_unused (h : Ledger tr s) {window : ℕ} (hw : s.window < window)
    (failed : Bool) : outcomes window failed tr = 0 := by
  have hb := h.balance window
  rw [h.unused window hw] at hb
  cases failed <;> omega

theorem Ledger.fresh (h : Ledger tr s) (e : Event) :
    admissions (s.window + 1) (tr ++ [(e, .admitted (s.window + 1))]) = 1 ∧
      ∀ failed, outcomes (s.window + 1) failed (tr ++ [(e, .admitted (s.window + 1))]) = 0 := by
  constructor
  · rw [admissions_snoc, h.unused _ (Nat.lt_succ_self _)]
    simp [admits]
  · intro failed
    rw [outcomes_snoc, h.outcomes_unused (Nat.lt_succ_self _)]
    simp [finishes]

theorem Ledger.probing (h : Ledger tr s) {e : Event} (hw : s'.window = s.window + 1)
    (hc : s'.breaker.counts = { Counts.zero with requests := 1 }) :
    Probing (tr ++ [(e, .admitted (s.window + 1))]) s' where
  requests := by
    rw [hw, (h.fresh e).1, hc]
    rfl
  pos := by simp [hc]
  bounded := by simp [hc]
  successes := by
    rw [hw, (h.fresh e).2]
    exact Nat.zero_le _
  failures := by rw [hw, (h.fresh e).2]
  below := by simp [hc, Counts.zero]

theorem step_probing {e : Event} {o : Output} (hl : Ledger tr s)
    (hp : s.breaker.state = .stateHalfOpen → Probing tr s) (hstep : step s e = some (s', o))
    (hs' : s'.breaker.state = .stateHalfOpen) : Probing (tr ++ [(e, o)]) s' := by
  cases step_effect hstep with
  | tick | refuse =>
      obtain ⟨hreq, hpos, hle, hsucc, hfail, hbelow⟩ := hp hs'
      refine ⟨?_, hpos, hle, ?_, ?_, hbelow⟩
      · simpa [admissions_snoc, admits] using hreq
      · simpa [outcomes_snoc, finishes] using hsucc
      · simpa [outcomes_snoc, finishes] using hfail
  | pass hstate =>
      obtain ⟨hreq, hpos, hle, hsucc, hfail, hbelow⟩ := hp hs'
      have hlt : s.breaker.counts.requests < s.breaker.maxRequests := by
        rcases hstate with hc | ⟨_, hlt⟩
        · rw [show s.breaker.state = .stateHalfOpen from hs'] at hc
          cases hc
        · exact hlt
      have hto : s.breaker.countRequest.counts.requests.toNat =
          s.breaker.counts.requests.toNat + 1 := toNat_succ hlt
      have hmax := UInt32.lt_iff_toNat_lt.mp hlt
      refine ⟨?_, ?_, ?_, ?_, ?_, hbelow⟩
      · simp [admissions_snoc, admits, hto, hreq]
      · simp [hto]
      · rw [hto]
        exact le_max_of_le_right hmax
      · simpa [outcomes_snoc, finishes, CircuitBreaker.countRequest] using hsucc
      · simpa [outcomes_snoc, finishes] using hfail
  | renew hstate =>
      rw [show s.breaker.state = .stateHalfOpen from hs'] at hstate
      cases hstate
  | probe => exact hl.probing rfl rfl
  | @succeed window delay hmem hstate =>
      obtain ⟨hreq, hpos, hle, hsucc, hfail, hbelow⟩ := hp hs'
      have hlt := hstate hs'
      have hto : s.breaker.countSuccess.counts.consecutiveSuccesses.toNat =
          s.breaker.counts.consecutiveSuccesses.toNat + 1 := by
        rcases hbelow with hzero | hbelow
        · simp [CircuitBreaker.countSuccess, hzero]
        · exact toNat_succ hbelow
      refine ⟨?_, hpos, hle, ?_, ?_, .inr hlt⟩
      · simpa [admissions_snoc, admits, CircuitBreaker.countSuccess] using hreq
      · simp only [outcomes_snoc, hto]
        split <;> omega
      · simpa [outcomes_snoc, finishes] using hfail
  | close => cases hs'
  | fail hmem hstate => exact absurd hs' hstate
  | openUp => cases hs'

section Runs

variable {maxRequests : UInt32} {interval timeout now : ℤ} {failureRatio : Float64}

theorem step_config {e : Event} {o : Output} (h : step s e = some (s', o)) :
    s'.breaker.maxRequests = s.breaker.maxRequests ∧ s'.breaker.timeout = s.breaker.timeout := by
  cases step_effect h with
  | _ => exact ⟨rfl, rfl⟩

theorem run_config
    (h : Run step (System.start (newCircuitBreaker maxRequests interval timeout failureRatio) now)
      tr s) : s.breaker.maxRequests = maxRequests ∧ s.breaker.timeout = timeout := by
  refine h.preserves
    (I := fun s => s.breaker.maxRequests = maxRequests ∧ s.breaker.timeout = timeout) ?_ ⟨rfl, rfl⟩
  intro m e o m' hm hstep
  obtain ⟨hmax, htimeout⟩ := step_config hstep
  exact ⟨hmax.trans hm.1, htimeout.trans hm.2⟩

/-- The ledger is kept in every run, and the counters of every half-open period. -/
theorem run_probing
    (h : Run step (System.start (newCircuitBreaker maxRequests interval timeout failureRatio) now)
      tr s) : Ledger tr s ∧ (s.breaker.state = .stateHalfOpen → Probing tr s) := by
  refine h.snocInduction
    (I := fun tr s => Ledger tr s ∧ (s.breaker.state = .stateHalfOpen → Probing tr s)) ?_ ?_
  · refine ⟨ledger_start _ now, ?_⟩
    intro hs
    cases hs
  · intro tr m e o m' _ hm hstep
    exact ⟨step_ledger hm.1 hstep, step_probing hm.1 hm.2 hstep⟩

/-- A half-open period that has used up its requests is waiting for one of them. -/
theorem Probing.mem_inFlight (hp : Probing tr s) (hl : Ledger tr s)
    (hmax : s.breaker.maxRequests ≤ s.breaker.counts.requests) : s.window ∈ s.inFlight := by
  have hbalance := hl.balance s.window
  have hle := UInt32.le_iff_toNat_le.mp hmax
  rw [← hp.requests, hp.failures] at hbalance
  apply List.count_pos_iff.mp
  have hsucc := hp.successes
  have hpos := hp.pos
  rcases hp.below with hzero | hbelow
  · rw [hzero, UInt32.toNat_zero] at hsucc
    omega
  · have hlt := UInt32.lt_iff_toNat_lt.mp hbelow
    omega

theorem beforeRequest_halfOpen (hs : s.breaker.state = .stateHalfOpen) (t t' : ℤ) :
    (s.breaker.beforeRequest t t').2 =
      if s.breaker.maxRequests ≤ s.breaker.counts.requests then some .circuitOpen else none := by
  rw [CircuitBreaker.beforeRequest, hs]
  simp only
  split_ifs <;> rfl

/-- A half-open breaker that refuses requests has one of the current period in flight. With
none in flight at all, the breaker is closed, open, or half-open and lets the next one pass. -/
theorem half_open_not_wedged
    (h : Run step (System.start (newCircuitBreaker maxRequests interval timeout failureRatio) now)
      tr s) :
    (s.breaker.state = .stateHalfOpen → ∀ t t',
      (s.breaker.beforeRequest t t').2 = some .circuitOpen → s.window ∈ s.inFlight) ∧
    (s.inFlight = [] → s.breaker.state = .stateClosed ∨ s.breaker.state = .stateOpen ∨
      s.breaker.state = .stateHalfOpen ∧ ∀ t t', (s.breaker.beforeRequest t t').2 = none) := by
  obtain ⟨hl, hp⟩ := run_probing h
  have hwait : s.breaker.state = .stateHalfOpen → ∀ t t',
      (s.breaker.beforeRequest t t').2 = some .circuitOpen → s.window ∈ s.inFlight := by
    intro hs t t' hrefused
    rw [beforeRequest_halfOpen hs] at hrefused
    by_cases hmax : s.breaker.maxRequests ≤ s.breaker.counts.requests
    · exact (hp hs).mem_inFlight hl hmax
    · rw [if_neg hmax] at hrefused
      cases hrefused
  refine ⟨hwait, ?_⟩
  intro hnone
  cases hs : s.breaker.state with
  | stateClosed => exact .inl rfl
  | stateOpen => exact .inr (.inl rfl)
  | stateHalfOpen =>
      refine .inr (.inr ⟨rfl, ?_⟩)
      intro t t'
      cases hbefore : (s.breaker.beforeRequest t t').2 with
      | none => rfl
      | some e =>
          cases e with
          | circuitOpen =>
              have hmem := hwait hs t t' hbefore
              rw [hnone] at hmem
              cases hmem

/-- One probe is admitted, and the breaker refuses the next request while it is in flight. -/
theorem half_open_not_wedged_probe : ∃ (tr : Trace) (s : System),
    Run step (System.start (newCircuitBreaker 1 0 1 (.finite 0 0)) 0) tr s ∧
    s.breaker.state = .stateHalfOpen ∧ (s.breaker.beforeRequest 2 2).2 = some .circuitOpen ∧
    s.window ∈ s.inFlight := by
  have h : ∃ (s : System), Run step (System.start (newCircuitBreaker 1 0 1 (.finite 0 0)) 0)
      [(.beforeRequest 0, .admitted 0), (.afterRequest 0 true 0, .finished 0 0 true),
        (.tick 2, .done), (.beforeRequest 0, .admitted 1)] s ∧
      s.breaker.state = .stateHalfOpen ∧ (s.breaker.beforeRequest 2 2).2 = some .circuitOpen :=
    ⟨_, ⟨_, rfl, _, rfl, _, rfl, _, rfl, rfl⟩, rfl, rfl⟩
  obtain ⟨s, h, hs, hrefused⟩ := h
  exact ⟨_, s, h, hs, hrefused, (half_open_not_wedged h).1 hs 2 2 hrefused⟩

/-- Since the breaker opened with this expiry, it is open with it still, or the expiry has
passed. -/
def Shut (expiry : ℤ) (s : System) : Prop :=
  (s.breaker.state = .stateOpen ∧ s.breaker.expiry = some expiry) ∨ expiry < s.now

theorem expiryBefore_some {cb : CircuitBreaker} {expiry t : ℤ} (h : cb.expiry = some expiry) :
    cb.expiryBefore t = true ↔ expiry < t := by
  simp [CircuitBreaker.expiryBefore, h]

/-- Results that arrive meanwhile do not reopen the breaker or move the expiry. -/
theorem step_shut {expiry : ℤ} {e : Event} {o : Output} (hs : Shut expiry s)
    (h : step s e = some (s', o)) : Shut expiry s' := by
  rcases hs with ⟨hopen, hexpiry⟩ | hpassed
  · cases step_effect h with
    | tick | refuse => exact .inl ⟨hopen, hexpiry⟩
    | pass hstate =>
        rw [hopen] at hstate
        simp at hstate
    | renew hstate | close _ hstate =>
        rw [hopen] at hstate
        cases hstate
    | probe _ hbefore =>
        have hlt := (expiryBefore_some hexpiry).mp hbefore
        refine .inr ?_
        simp only
        omega
    | succeed | fail => exact .inl ⟨hopen, hexpiry⟩
    | openUp _ hstate => exact absurd hopen hstate
  · refine .inr ?_
    cases step_effect h <;> simp only <;> omega

theorem run_shut {expiry : ℤ} (hs : Shut expiry s) (h : Run step s tr s') : Shut expiry s' :=
  h.preserves (fun _ _ _ _ hm hstep => step_shut hm hstep) hs

theorem Shut.admitted {expiry : ℤ} {delay window : ℕ} (hs : Shut expiry s)
    (h : step s (.beforeRequest delay) = some (s', .admitted window)) : expiry < s.now := by
  rcases hs with ⟨hopen, hexpiry⟩ | hpassed
  · cases step_effect h with
    | pass hstate =>
        rw [hopen] at hstate
        simp at hstate
    | renew hstate =>
        rw [hopen] at hstate
        cases hstate
    | probe _ hbefore => exact (expiryBefore_some hexpiry).mp hbefore
  · exact hpassed

theorem shut_of_opens {e : Event} {o : Output} (h : step s e = some (s', o))
    (hs : s.breaker.state ≠ .stateOpen) (hs' : s'.breaker.state = .stateOpen) :
    Shut (s'.now + s.breaker.timeout) s' := by
  cases step_effect h with
  | openUp => exact .inl ⟨rfl, rfl⟩
  | probe => cases hs'
  | close => cases hs'
  | tick | refuse | pass | renew | succeed | fail => exact absurd hs' hs

/-- A half-open period admits at most `max 1 maxRequests` requests. After the breaker has
opened, none is admitted until the timeout has passed. -/
theorem admission_bounds
    (h : Run step (System.start (newCircuitBreaker maxRequests interval timeout failureRatio) now)
      tr s) :
    (s.breaker.state = .stateHalfOpen → admissions s.window tr ≤ max 1 maxRequests.toNat) ∧
    ∀ e o s₁ tr₁ s₂ delay window s₃, step s e = some (s₁, o) → s.breaker.state ≠ .stateOpen →
      s₁.breaker.state = .stateOpen → Run step s₁ tr₁ s₂ →
      step s₂ (.beforeRequest delay) = some (s₃, .admitted window) → s₁.now + timeout < s₂.now := by
  obtain ⟨hmax, htimeout⟩ := run_config h
  constructor
  · intro hs
    have hp := (run_probing h).2 hs
    rw [← hp.requests, ← hmax]
    exact hp.bounded
  · intro e o s₁ tr₁ s₂ delay window s₃ hstep hs hs₁ hrun hadmitted
    have hshut := run_shut (shut_of_opens hstep hs hs₁) hrun
    rw [htimeout] at hshut
    exact hshut.admitted hadmitted

end Runs

/-- The breaker opens at time 0 with a timeout of 1; the probe comes at time 2. -/
theorem admission_bounds_probe : ∃ (tr tr₁ : Trace) (s s₁ s₂ s₃ : System),
    Run step (System.start (newCircuitBreaker 1 0 1 (.finite 0 0)) 0) tr s ∧
    step s (.afterRequest 0 true 0) = some (s₁, .finished 0 0 true) ∧
    s₁.breaker.state = .stateOpen ∧ Run step s₁ tr₁ s₂ ∧
    step s₂ (.beforeRequest 0) = some (s₃, .admitted 1) ∧ s₁.now + 1 < s₂.now := by
  have h : ∃ (s s₁ s₂ s₃ : System),
      Run step (System.start (newCircuitBreaker 1 0 1 (.finite 0 0)) 0)
        [(.beforeRequest 0, .admitted 0)] s ∧
      step s (.afterRequest 0 true 0) = some (s₁, .finished 0 0 true) ∧
      s.breaker.state ≠ .stateOpen ∧ s₁.breaker.state = .stateOpen ∧
      Run step s₁ [(.tick 2, .done)] s₂ ∧
      step s₂ (.beforeRequest 0) = some (s₃, .admitted 1) :=
    ⟨_, _, _, _, ⟨_, rfl, rfl⟩, rfl, nofun, rfl, ⟨_, rfl, rfl⟩, rfl⟩
  obtain ⟨s, s₁, s₂, s₃, h, hstep, hs, hs₁, hrun, hadmitted⟩ := h
  exact ⟨_, _, s, s₁, s₂, s₃, h, hstep, hs₁, hrun, hadmitted,
    (admission_bounds h).2 _ _ s₁ _ s₂ 0 1 s₃ hstep hs hs₁ hrun hadmitted⟩

end GrpcVault.Gateway
