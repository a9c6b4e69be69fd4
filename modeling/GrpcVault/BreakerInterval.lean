import GrpcVault.BreakerAdmission

/-!
# The interval of the closed state

The counters of the closed state are to cover one interval: a request that comes after the
expiry zeroes them. The expiry is set when the breaker closes and when it is reset, but not when
it is built, and without an expiry there is no reset. So the first window of a breaker lasts
until the breaker opens, however long that takes.
-/

namespace GrpcVault.Gateway

open EventSystem

variable {s s' : System} {tr : Trace}

/-- The last reading of the clock in a call that admits a request: that of the reset, if there
is one. -/
def System.admissionTime (s : System) (delay : ℕ) : ℤ :=
  if s.breaker.startsWindow s.now then s.now + delay else s.now

def AdmittedAt (start : System) (tr : Trace) (window : ℕ) (t : ℤ) : Prop :=
  Occurs step (fun m x => ∃ delay, x = (.beforeRequest delay, .admitted window) ∧
    t = m.admissionTime delay) start tr

def FirstAdmittedAt (start : System) (tr : Trace) (t : ℤ) : Prop :=
  ∃ tr₁ delay tr₂ m, tr = tr₁ ++ (.beforeRequest delay, .admitted 0) :: tr₂ ∧
    admissions 0 tr₁ = 0 ∧ Run step start tr₁ m ∧ t = m.admissionTime delay

theorem FirstAdmittedAt.admittedAt {start : System} {t : ℤ} (h : FirstAdmittedAt start tr t) :
    AdmittedAt start tr 0 t := by
  obtain ⟨tr₁, delay, tr₂, m, htr, _, hm, ht⟩ := h
  exact ⟨tr₁, _, tr₂, m, htr, hm, delay, rfl, ht⟩

theorem now_le_admissionTime (s : System) (delay : ℕ) : s.now ≤ s.admissionTime delay := by
  unfold System.admissionTime
  split_ifs <;> omega

theorem admissionTime_le (s : System) (delay : ℕ) : s.admissionTime delay ≤ s.now + delay := by
  unfold System.admissionTime
  split_ifs <;> omega

theorem step_now_le {e : Event} {o : Output} (h : step s e = some (s', o)) : s.now ≤ s'.now := by
  cases step_effect h <;> simp only <;> omega

theorem run_now_le (h : Run step s tr s') : s.now ≤ s'.now :=
  h.monotone (f := System.now) fun _ _ _ _ hstep => step_now_le hstep

theorem beforeRequest_now {delay : ℕ} {o : Output}
    (h : step s (.beforeRequest delay) = some (s', o)) : s'.now = s.now + delay := by
  cases step_effect h <;> rfl

/-- In the closed state a request is admitted to a new window exactly if the counters are
reset. -/
theorem closed_admits {delay window : ℕ} (hclosed : s.breaker.state = .stateClosed)
    (h : step s (.beforeRequest delay) = some (s', .admitted window)) :
    (s.breaker.startsWindow s.now = true ∧ window = s.window + 1) ∨
      (s.breaker.startsWindow s.now = false ∧ window = s.window) := by
  unfold step at h
  cases hstarts : s.breaker.startsWindow s.now with
  | true =>
      have hbefore := hstarts
      unfold CircuitBreaker.startsWindow at hbefore
      rw [hclosed] at hbefore
      simp only [CircuitBreaker.beforeRequest, hclosed, hbefore, hstarts, if_true,
        Option.some.injEq, Prod.mk.injEq, Output.admitted.injEq] at h
      exact .inl ⟨rfl, h.2.symm⟩
  | false =>
      have hbefore := hstarts
      unfold CircuitBreaker.startsWindow at hbefore
      rw [hclosed] at hbefore
      simp only [CircuitBreaker.beforeRequest, hclosed, hbefore, hstarts, Bool.false_eq_true,
        if_false, Option.some.injEq, Prod.mk.injEq, Output.admitted.injEq] at h
      exact .inr ⟨rfl, h.2.symm⟩

section Times

variable {start : System} {window : ℕ} {t : ℤ}

theorem admittedAt_snoc {x : Event × Output} (h : Run step start tr s) :
    AdmittedAt start (tr ++ [x]) window t ↔ AdmittedAt start tr window t ∨
      ∃ delay, x = (.beforeRequest delay, .admitted window) ∧ t = s.admissionTime delay :=
  occurs_snoc h

theorem AdmittedAt.le_now (h : Run step start tr s) (ht : AdmittedAt start tr window t) :
    t ≤ s.now := by
  obtain ⟨tr₁, x, tr₂, m, rfl, hm, delay, rfl, rfl⟩ := ht
  obtain ⟨m₁, m', hm₁, hstep, hrun⟩ := run_append_cons.mp h
  rw [hm.unique hm₁]
  calc
    m₁.admissionTime delay ≤ m₁.now + delay := admissionTime_le m₁ delay
    _ = m'.now := (beforeRequest_now hstep).symm
    _ ≤ s.now := run_now_le hrun

theorem exists_admittedAt_iff (h : Run step start tr s) :
    (∃ t, AdmittedAt start tr window t) ↔ 0 < admissions window tr := by
  rw [admissions, List.countP_pos_iff]
  constructor
  · rintro ⟨t, tr₁, x, tr₂, m, rfl, _, delay, rfl, _⟩
    exact ⟨_, List.mem_append_cons_self, by simp [admits]⟩
  · rintro ⟨⟨e, o⟩, hmem, hadmits⟩
    obtain ⟨tr₁, tr₂, rfl⟩ := List.append_of_mem hmem
    obtain ⟨m, m', hm, hstep, _⟩ := run_append_cons.mp h
    cases step_effect hstep with
    | @pass delay | @renew delay | @probe delay =>
        obtain rfl := of_decide_eq_true hadmits
        exact ⟨_, tr₁, _, tr₂, m, rfl, hm, delay, rfl, rfl⟩
    | tick | refuse | succeed | close | fail | openUp => cases hadmits

theorem Ledger.not_admittedAt (hl : Ledger tr s) (h : Run step start tr s)
    (hw : s.window < window) : ¬ AdmittedAt start tr window t := by
  intro ht
  have hpos := (exists_admittedAt_iff h).mp ⟨t, ht⟩
  rw [hl.unused window hw] at hpos
  exact lt_irrefl 0 hpos

theorem FirstAdmittedAt.snoc (h : FirstAdmittedAt start tr t) (x : Event × Output) :
    FirstAdmittedAt start (tr ++ [x]) t := by
  obtain ⟨tr₁, delay, tr₂, m, rfl, hnone, hm, ht⟩ := h
  exact ⟨tr₁, delay, tr₂ ++ [x], m, by rw [List.append_assoc, List.cons_append], hnone, hm, ht⟩

theorem exists_first_le (h : Run step start tr s) :
    ∀ t, AdmittedAt start tr 0 t → ∃ t₀ ≤ t, FirstAdmittedAt start tr t₀ := by
  refine h.snocInduction
    (I := fun tr _ => ∀ t, AdmittedAt start tr 0 t → ∃ t₀ ≤ t, FirstAdmittedAt start tr t₀) ?_ ?_
  · rintro t ⟨tr₁, x, tr₂, m, htr, _⟩
    simp at htr
  · intro tr m e o m' hrun ih _ t ht
    rcases (admittedAt_snoc hrun).mp ht with ht | ⟨delay, hx, rfl⟩
    · obtain ⟨t₀, hle, hfirst⟩ := ih t ht
      exact ⟨t₀, hle, hfirst.snoc _⟩
    · rw [hx]
      obtain hnone | hpos := Nat.eq_zero_or_pos (admissions 0 tr)
      · exact ⟨_, le_rfl, tr, delay, [], m, rfl, hnone, hrun, rfl⟩
      · obtain ⟨t₁, ht₁⟩ := (exists_admittedAt_iff hrun).mpr hpos
        obtain ⟨t₀, hle, hfirst⟩ := ih t₁ ht₁
        exact ⟨t₀, hle.trans ((ht₁.le_now hrun).trans (now_le_admissionTime m delay)),
          hfirst.snoc _⟩

end Times

/-! ## The windows of the closed state -/

section Windows

variable {start : System} {interval : ℤ} {e : Event} {o : Output}

/-- The first window of a closed breaker has no expiry; that of a later one is an interval after
its beginning. -/
structure Dated (interval : ℤ) (start : System) (tr : Trace) (s : System) : Prop where
  interval_eq : s.breaker.interval = interval
  closed : s.breaker.state = .stateClosed →
    (s.window = 0 ∧ s.breaker.expiry = none) ∨
    (s.window ≠ 0 ∧ ∃ begun, s.breaker.expiry = some (begun + interval) ∧ begun ≤ s.now ∧
      ∀ t, AdmittedAt start tr s.window t → begun ≤ t)

theorem Dated.keep (h : Dated interval start tr s) (hrun : Run step start tr s)
    (hinterval : s'.breaker.interval = s.breaker.interval)
    (hstate : s'.breaker.state = s.breaker.state) (hexpiry : s'.breaker.expiry = s.breaker.expiry)
    (hwindow : s'.window = s.window) (hnow : s.now ≤ s'.now) :
    Dated interval start (tr ++ [(e, o)]) s' := by
  refine ⟨hinterval.trans h.interval_eq, fun hclosed => ?_⟩
  rw [hwindow, hexpiry]
  rcases h.closed (hstate ▸ hclosed) with hfirst | ⟨hne, begun, hbegun, hle, htimes⟩
  · exact .inl hfirst
  · refine .inr ⟨hne, begun, hbegun, hle.trans hnow, fun t ht => ?_⟩
    rcases (admittedAt_snoc hrun).mp ht with ht | ⟨delay, _, rfl⟩
    · exact htimes t ht
    · exact hle.trans (now_le_admissionTime s delay)

theorem step_dated (h : Dated interval start tr s) (hl : Ledger tr s)
    (hrun : Run step start tr s) (hstep : step s e = some (s', o)) :
    Dated interval start (tr ++ [(e, o)]) s' := by
  have hnow := step_now_le hstep
  have hunused : ∀ t, ¬ AdmittedAt start tr (s.window + 1) t := fun t =>
    hl.not_admittedAt hrun (Nat.lt_succ_self _)
  cases step_effect hstep with
  | tick | refuse | pass | succeed | fail => exact h.keep hrun rfl rfl rfl rfl hnow
  | @renew delay hclosed =>
      have hstarts : s.breaker.startsWindow s.now = true := by
        rcases closed_admits hclosed hstep with ⟨hstarts, _⟩ | ⟨_, hwindow⟩
        · exact hstarts
        · exact absurd hwindow (Nat.succ_ne_self _)
      refine ⟨h.interval_eq, fun _ => .inr ⟨Nat.succ_ne_zero _, s.now + delay, ?_, le_rfl, ?_⟩⟩
      · exact congrArg (fun i => some (s.now + delay + i)) h.interval_eq
      · intro t ht
        rcases (admittedAt_snoc hrun).mp ht with ht | ⟨delay', hx, rfl⟩
        · exact absurd ht (hunused t)
        · cases hx
          rw [System.admissionTime, if_pos hstarts]
  | probe => exact ⟨h.interval_eq, nofun⟩
  | @close window delay =>
      refine ⟨h.interval_eq, fun _ => .inr ⟨Nat.succ_ne_zero _, s.now + delay, ?_, le_rfl, ?_⟩⟩
      · exact congrArg (fun i => some (s.now + delay + i)) h.interval_eq
      · intro t ht
        rcases (admittedAt_snoc hrun).mp ht with ht | ⟨_, hx, _⟩
        · exact absurd ht (hunused t)
        · cases hx
  | openUp => exact ⟨h.interval_eq, nofun⟩

theorem step_requests (hl : Ledger tr s)
    (h : s.breaker.counts.requests = UInt32.ofNat (admissions s.window tr))
    (hstep : step s e = some (s', o)) :
    s'.breaker.counts.requests = UInt32.ofNat (admissions s'.window (tr ++ [(e, o)])) := by
  cases step_effect hstep with
  | tick | refuse | succeed | fail | openUp =>
      rw [admissions_snoc]
      exact h
  | pass =>
      rw [admissions_snoc]
      simp only [CircuitBreaker.countRequest, admits, decide_true, if_true, UInt32.ofNat_add, h]
      rfl
  | renew | probe =>
      rw [(hl.fresh _).1]
      rfl
  | close =>
      rw [admissions_snoc, hl.unused _ (Nat.lt_succ_self _)]
      rfl

end Windows

section Runs

variable {maxRequests : UInt32} {interval timeout now : ℤ} {failureRatio : Float64}

theorem run_dated
    (h : Run step (System.start (newCircuitBreaker maxRequests interval timeout failureRatio) now)
      tr s) :
    Dated interval (System.start (newCircuitBreaker maxRequests interval timeout failureRatio) now)
      tr s ∧ s.breaker.counts.requests = UInt32.ofNat (admissions s.window tr) := by
  refine h.snocInduction (I := fun tr s => Dated interval _ tr s ∧
    s.breaker.counts.requests = UInt32.ofNat (admissions s.window tr)) ?_ ?_
  · exact ⟨⟨rfl, fun _ => .inl ⟨rfl, rfl⟩⟩, rfl⟩
  · intro tr m e o m' hrun hm hstep
    have hl := (run_probing hrun).1
    exact ⟨step_dated hm.1 hl hrun hstep, step_requests hl hm.2 hstep⟩

/-- A request that is not the first of its window in the closed state comes within an interval of
the beginning, if the window has an expiry. -/
theorem Dated.recent {start : System} {delay : ℕ} {t : ℤ} (h : Dated interval start tr s)
    (hclosed : s.breaker.state = .stateClosed)
    (hsame : s.breaker.startsWindow s.now = false) (hne : s.window ≠ 0)
    (ht : AdmittedAt start tr s.window t) : s.admissionTime delay - interval ≤ t := by
  rcases h.closed hclosed with ⟨hzero, _⟩ | ⟨_, begun, hbegun, _, htimes⟩
  · exact absurd hzero hne
  · have hbefore : ¬ s.breaker.expiryBefore s.now = true := by
      unfold CircuitBreaker.startsWindow at hsame
      rw [hclosed] at hsame
      simpa [hbegun] using hsame
    rw [expiryBefore_some hbegun, not_lt] at hbefore
    have hle := htimes t ht
    rw [System.admissionTime, hsame, if_neg Bool.false_ne_true]
    omega

/-- After a request is admitted in the closed state, the counter has the requests of its window.
All of them were admitted in the interval up to this request, if and only if it is not the first
window of the breaker or its first request was. -/
theorem counted_recent_iff {delay window : ℕ} (hinterval : 0 < interval)
    (h : Run step (System.start (newCircuitBreaker maxRequests interval timeout failureRatio) now)
      tr s) (hclosed : s.breaker.state = .stateClosed)
    (hstep : step s (.beforeRequest delay) = some (s', .admitted window)) :
    let start := System.start (newCircuitBreaker maxRequests interval timeout failureRatio) now
    let tr' := tr ++ [(.beforeRequest delay, .admitted window)]
    s'.breaker.counts.requests = UInt32.ofNat (admissions window tr') ∧
    ((∀ t, AdmittedAt start tr' window t → s.admissionTime delay - interval ≤ t) ↔
      (window = 0 → ∀ t, FirstAdmittedAt start tr' t → s.admissionTime delay - interval ≤ t)) := by
  intro start tr'
  have hrun' : Run step start tr' s' := run_snoc.mpr ⟨s, h, hstep⟩
  obtain ⟨hdated, _⟩ := run_dated h
  refine ⟨?_, ?_, ?_⟩
  · have hwindow : s'.window = window := by
      cases step_effect hstep <;> rfl
    rw [← hwindow]
    exact (run_dated hrun').2
  · rintro hrecent rfl t hfirst
    exact hrecent t hfirst.admittedAt
  · intro hfirst t ht
    by_cases hzero : window = 0
    · subst hzero
      obtain ⟨t₀, hle, ht₀⟩ := exists_first_le hrun' t ht
      exact (hfirst rfl t₀ ht₀).trans hle
    · rcases (admittedAt_snoc h).mp ht with ht | ⟨delay', hx, rfl⟩
      · rcases closed_admits hclosed hstep with ⟨_, rfl⟩ | ⟨hsame, rfl⟩
        · exact absurd ht ((run_probing h).1.not_admittedAt h (Nat.lt_succ_self _))
        · exact hdated.recent hclosed hsame hzero ht
      · cases hx
        omega

end Runs

/-- The breaker opens at time 0 and its probe closes it at time 2; one request is admitted then,
and a time unit passes. -/
def recoveredTrace : Trace :=
  [(.beforeRequest 0, .admitted 0), (.afterRequest 0 true 0, .finished 0 0 true),
    (.tick 2, .done), (.beforeRequest 0, .admitted 1),
    (.afterRequest 1 false 0, .finished 1 1 false), (.beforeRequest 0, .admitted 2),
    (.tick 1, .done)]

/-- The next request is counted with that of the unit before. -/
theorem counted_recent_recovered : ∃ s s' : System,
    Run step (System.start (newCircuitBreaker 1 1 1 (.finite 0 0)) 0) recoveredTrace s ∧
    s.breaker.state = .stateClosed ∧ step s (.beforeRequest 0) = some (s', .admitted 2) ∧
    s'.breaker.counts.requests = 2 ∧
    ∀ t, AdmittedAt (System.start (newCircuitBreaker 1 1 1 (.finite 0 0)) 0)
      (recoveredTrace ++ [(.beforeRequest 0, .admitted 2)]) 2 t → s.admissionTime 0 - 1 ≤ t := by
  have h : ∃ s s' : System,
      Run step (System.start (newCircuitBreaker 1 1 1 (.finite 0 0)) 0) recoveredTrace s ∧
      s.breaker.state = .stateClosed ∧ step s (.beforeRequest 0) = some (s', .admitted 2) ∧
      s'.breaker.counts.requests = 2 :=
    ⟨_, _, ⟨_, rfl, _, rfl, _, rfl, _, rfl, _, rfl, _, rfl, _, rfl, rfl⟩, rfl, rfl, rfl⟩
  obtain ⟨s, s', hrun, hclosed, hstep, hrequests⟩ := h
  refine ⟨s, s', hrun, hclosed, hstep, hrequests, ?_⟩
  exact (counted_recent_iff (by decide) hrun hclosed hstep).2.mpr nofun

/-- A breaker with an interval of 1 admits its first request at time 0, and counts it still when
it admits the next one at time 10. -/
theorem first_window_not_reset : ∃ s s' : System,
    Run step (System.start (newCircuitBreaker 5 1 1 (.finite 0 0)) 0)
      [(.beforeRequest 0, .admitted 0), (.tick 10, .done)] s ∧
    s.breaker.state = .stateClosed ∧
    step s (.beforeRequest 0) = some (s', .admitted 0) ∧ s'.breaker.counts.requests = 2 ∧
    s.admissionTime 0 = 10 ∧
    AdmittedAt (System.start (newCircuitBreaker 5 1 1 (.finite 0 0)) 0)
      [(.beforeRequest 0, .admitted 0), (.tick 10, .done), (.beforeRequest 0, .admitted 0)] 0
      0 := by
  refine ⟨_, _, ⟨_, rfl, _, rfl, rfl⟩, rfl, rfl, rfl, rfl, ?_⟩
  exact ⟨[], _, _, _, rfl, rfl, 0, rfl, rfl⟩

end GrpcVault.Gateway
