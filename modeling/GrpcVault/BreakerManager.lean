import GrpcVault.CircuitBreaker
import GrpcVault.Lib.GoText
import GrpcVault.Lib.Simulation

/-!
# The circuit breakers of the gateway's connections

`GetBreaker` finds the breaker of a target in a `sync.Map` or makes one: a load, and where it finds
nothing a new breaker and a `LoadOrStore`, which may find that another call has been faster.
`UnaryClientInterceptor` runs every call of a connection through the breaker of its target. The
calls take their steps in any order, and breakers are named by the order in which they are made.

For every target the calls of a run are those of one breaker that it has for itself: the others
only take time.
-/

namespace GrpcVault.Gateway

open EventSystem GoText

structure CircuitBreakerConfig where
  maxRequests : UInt32
  interval : ℤ
  timeout : ℤ
  failureRatio : Float64

def CircuitBreakerConfig.newBreaker (config : CircuitBreakerConfig) : CircuitBreaker :=
  newCircuitBreaker config.maxRequests config.interval config.timeout config.failureRatio

/-- An error of `Execute`: one that is `ErrCircuitOpen`, or another one of the call. -/
inductive CallError (E : Type) where
  | circuitOpen
  | other (e : E)

inductive Answer (E : Type) where
  | ok
  | unavailable (message : String)
  | failed (e : E)

def answer {E : Type} : Option (CallError E) → Answer E
  | none => .ok
  | some .circuitOpen => .unavailable "service temporarily unavailable"
  | some (.other e) => .failed e

section Alone

variable {s : System} {breaker : CircuitBreaker} {delay : ℕ}

theorem step_admitted (h : s.breaker.beforeRequest s.now (s.now + delay) = (breaker, none)) :
    ∃ w s', step s (.beforeRequest delay) = some (s', .admitted w) ∧ s'.breaker = breaker ∧
      s'.now = s.now + delay ∧ s'.inFlight = w :: s.inFlight := by
  simp only [step, h]
  exact ⟨_, _, rfl, rfl, rfl, rfl⟩

theorem step_refused {err : BreakerError}
    (h : s.breaker.beforeRequest s.now (s.now + delay) = (breaker, some err)) :
    step s (.beforeRequest delay) =
      some ({ s with breaker := breaker, now := s.now + delay }, .refused) := by
  simp only [step, h]

theorem step_finished {window : ℕ} (hmem : window ∈ s.inFlight) (failed : Bool) :
    ∃ o s', step s (.afterRequest window failed delay) = some (s', o) ∧
      s'.breaker = s.breaker.afterRequest failed s.now (s.now + delay) ∧
      s'.now = s.now + delay ∧ s'.inFlight = s.inFlight.erase window := by
  simp only [step, if_pos hmem]
  exact ⟨_, _, rfl, rfl, rfl, rfl⟩

end Alone

/-- Where a call is: before it, after a load that found nothing, with its breaker, or in the
invoker. -/
inductive Phase where
  | idle
  | missed (target : Str)
  | ready (target : Str) (cb : ℕ)
  | invoking (target : Str) (cb : ℕ)

/-- `CircuitBreakerManager`, the breakers it has made, and the calls. -/
structure Managed where
  config : CircuitBreakerConfig
  breakers : GoMap Str ℕ
  made : ℕ
  heap : ℕ → CircuitBreaker
  calls : ℕ → Phase
  now : ℤ

namespace Managed

def newCircuitBreakerManager (config : CircuitBreakerConfig) (now : ℤ) : Managed where
  config := config
  breakers := ∅
  made := 0
  heap _ := config.newBreaker
  calls _ := .idle
  now := now

inductive Event (E : Type) where
  | tick (d : ℕ)
  | load (id : ℕ) (target : Str)
  | loadOrStore (id : ℕ)
  | beforeRequest (id delay : ℕ)
  | afterRequest (id : ℕ) (err : Option (CallError E)) (delay : ℕ)

inductive Output (E : Type) where
  | done
  | admitted (target : Str)
  | refused (target : Str) (answer : Answer E)
  | finished (target : Str) (answer : Answer E)

variable {E : Type}

def step : Step Managed (Event E) (Output E)
  | m, .tick d => some ({ m with now := m.now + d }, .done)
  | m, .load id target =>
      match m.calls id with
      | .idle =>
          let phase := match m.breakers.lookup target with
            | some cb => .ready target cb
            | none => .missed target
          some ({ m with calls := Function.update m.calls id phase }, .done)
      | _ => none
  | m, .loadOrStore id =>
      match m.calls id with
      | .missed target =>
          let made : Managed :=
            { m with made := m.made + 1, heap := Function.update m.heap m.made m.config.newBreaker }
          match m.breakers.lookup target with
          | some cb =>
              some ({ made with calls := Function.update m.calls id (.ready target cb) }, .done)
          | none =>
              some ({ made with breakers := m.breakers.insert target m.made
                                calls := Function.update m.calls id (.ready target m.made) }, .done)
      | _ => none
  | m, .beforeRequest id delay =>
      match m.calls id with
      | .ready target cb =>
          match (m.heap cb).beforeRequest m.now (m.now + delay) with
          | (breaker, none) =>
              some ({ m with heap := Function.update m.heap cb breaker, now := m.now + delay
                             calls := Function.update m.calls id (.invoking target cb) },
                .admitted target)
          | (breaker, some .circuitOpen) =>
              some ({ m with heap := Function.update m.heap cb breaker, now := m.now + delay
                             calls := Function.update m.calls id .idle },
                .refused target (answer (some .circuitOpen)))
      | _ => none
  | m, .afterRequest id err delay =>
      match m.calls id with
      | .invoking target cb =>
          let breaker := (m.heap cb).afterRequest err.isSome m.now (m.now + delay)
          some ({ m with heap := Function.update m.heap cb breaker, now := m.now + delay
                         calls := Function.update m.calls id .idle },
            .finished target (answer err))
      | _ => none

inductive Seen where
  | elapsed (d : ℕ)
  | admitted (delay : ℕ)
  | refused (delay : ℕ)
  | finished (failed : Bool) (delay : ℕ)

/-- What the calls to one target are: of the others it sees the time they take. -/
def seenAt (target : Str) : Event E × Output E → List Seen
  | (.tick d, _) => [.elapsed d]
  | (.beforeRequest _ delay, .admitted t) =>
      [if t = target then .admitted delay else .elapsed delay]
  | (.beforeRequest _ delay, .refused t _) =>
      [if t = target then .refused delay else .elapsed delay]
  | (.afterRequest _ err delay, .finished t _) =>
      [if t = target then .finished err.isSome delay else .elapsed delay]
  | _ => []

def seen : Gateway.Event × Gateway.Output → List Seen
  | (.tick d, _) => [.elapsed d]
  | (.beforeRequest delay, .admitted _) => [.admitted delay]
  | (.beforeRequest delay, .refused) => [.refused delay]
  | (.afterRequest _ failed delay, _) => [.finished failed delay]
  | _ => []

inductive Effect (m : Managed) : Event E → Output E → Managed → Prop
  | tick {d : ℕ} : Effect m (.tick d) .done { m with now := m.now + d }
  | found {id cb : ℕ} {target : Str} (hcall : m.calls id = .idle)
      (hlookup : m.breakers.lookup target = some cb) :
      Effect m (.load id target) .done
        { m with calls := Function.update m.calls id (.ready target cb) }
  | missed {id : ℕ} {target : Str} (hcall : m.calls id = .idle) :
      Effect m (.load id target) .done
        { m with calls := Function.update m.calls id (.missed target) }
  | lost {id cb : ℕ} {target : Str} (hcall : m.calls id = .missed target)
      (hlookup : m.breakers.lookup target = some cb) :
      Effect m (.loadOrStore id) .done
        { m with made := m.made + 1, heap := Function.update m.heap m.made m.config.newBreaker
                 calls := Function.update m.calls id (.ready target cb) }
  | stored {id : ℕ} {target : Str} (hcall : m.calls id = .missed target)
      (hlookup : m.breakers.lookup target = none) :
      Effect m (.loadOrStore id) .done
        { m with made := m.made + 1, heap := Function.update m.heap m.made m.config.newBreaker
                 breakers := m.breakers.insert target m.made
                 calls := Function.update m.calls id (.ready target m.made) }
  | admitted {id delay cb : ℕ} {target : Str} {breaker : CircuitBreaker}
      (hcall : m.calls id = .ready target cb)
      (hbefore : (m.heap cb).beforeRequest m.now (m.now + delay) = (breaker, none)) :
      Effect m (.beforeRequest id delay) (.admitted target)
        { m with heap := Function.update m.heap cb breaker, now := m.now + delay
                 calls := Function.update m.calls id (.invoking target cb) }
  | refused {id delay cb : ℕ} {target : Str} {breaker : CircuitBreaker}
      (hcall : m.calls id = .ready target cb)
      (hbefore : (m.heap cb).beforeRequest m.now (m.now + delay) = (breaker, some .circuitOpen)) :
      Effect m (.beforeRequest id delay) (.refused target (answer (some .circuitOpen)))
        { m with heap := Function.update m.heap cb breaker, now := m.now + delay
                 calls := Function.update m.calls id .idle }
  | finished {id delay cb : ℕ} {target : Str} {err : Option (CallError E)}
      (hcall : m.calls id = .invoking target cb) :
      Effect m (.afterRequest id err delay) (.finished target (answer err))
        { m with heap := Function.update m.heap cb
                   ((m.heap cb).afterRequest err.isSome m.now (m.now + delay))
                 now := m.now + delay, calls := Function.update m.calls id .idle }

variable {m m' : Managed} {e : Event E} {o : Output E} {target : Str} {cb id : ℕ}

theorem step_effect (h : step m e = some (m', o)) : Effect m e o m' := by
  cases e with
  | tick d =>
      cases h
      exact .tick
  | load id target =>
      rw [step] at h
      split at h
      · rename_i hcall
        cases hlookup : m.breakers.lookup target with
        | some cb =>
            rw [hlookup] at h
            cases h
            exact .found hcall hlookup
        | none =>
            rw [hlookup] at h
            cases h
            exact .missed hcall
      · cases h
  | loadOrStore id =>
      rw [step] at h
      split at h
      · rename_i target hcall
        dsimp only at h
        split at h
        · cases h
          exact .lost hcall ‹_›
        · cases h
          exact .stored hcall ‹_›
      · cases h
  | beforeRequest id delay =>
      rw [step] at h
      split at h
      · split at h
        · cases h
          exact .admitted ‹_› ‹_›
        · cases h
          exact .refused ‹_› ‹_›
      · cases h
  | afterRequest id err delay =>
      rw [step] at h
      split at h
      · cases h
        exact .finished ‹_›
      · cases h

def Holds (phase : Phase) (target : Str) (cb : ℕ) : Prop :=
  phase = .ready target cb ∨ phase = .invoking target cb

/-- Every call has the breaker that the map has for its target, and no two targets share one. -/
structure Good (m : Managed) : Prop where
  own : ∀ id target cb, Holds (m.calls id) target cb → m.breakers.lookup target = some cb
  apart : ∀ target target' cb, m.breakers.lookup target = some cb →
    m.breakers.lookup target' = some cb → target = target'
  bound : ∀ target cb, m.breakers.lookup target = some cb → cb < m.made

theorem good_new (config : CircuitBreakerConfig) (now : ℤ) :
    (newCircuitBreakerManager config now).Good where
  own id target cb h := by cases h <;> contradiction
  apart target target' cb h := by cases h
  bound target cb h := by cases h

theorem Good.own_update {breakers : GoMap Str ℕ} {phase : Phase}
    (hold : ∀ id target cb, Holds (m.calls id) target cb → breakers.lookup target = some cb)
    (hphase : ∀ target cb, Holds phase target cb → breakers.lookup target = some cb) :
    ∀ id' target cb, Holds (Function.update m.calls id phase id') target cb →
      breakers.lookup target = some cb := by
  intro id' target cb h
  by_cases hid : id' = id
  · rw [hid, Function.update_self] at h
    exact hphase target cb h
  · rw [Function.update_of_ne hid] at h
    exact hold id' target cb h

theorem holds_ready {t : Str} {c : ℕ} (h : Holds (.ready t c) target cb) : t = target ∧ c = cb := by
  obtain h | h := h
  · cases h
    exact ⟨rfl, rfl⟩
  · cases h

theorem holds_invoking {t : Str} {c : ℕ} (h : Holds (.invoking t c) target cb) :
    t = target ∧ c = cb := by
  obtain h | h := h
  · cases h
  · cases h
    exact ⟨rfl, rfl⟩

theorem not_holds_idle : ¬ Holds .idle target cb := by
  rintro (h | h) <;> cases h

theorem not_holds_missed {t : Str} : ¬ Holds (.missed t) target cb := by
  rintro (h | h) <;> cases h

theorem good_step (hm : m.Good) (h : Effect m e o m') : m'.Good := by
  cases h with
  | tick => exact ⟨hm.own, hm.apart, hm.bound⟩
  | found hcall hlookup =>
      refine ⟨Good.own_update hm.own fun t c h => ?_, hm.apart, hm.bound⟩
      obtain ⟨rfl, rfl⟩ := holds_ready h
      exact hlookup
  | missed hcall =>
      exact ⟨Good.own_update hm.own fun t c h => absurd h not_holds_missed, hm.apart, hm.bound⟩
  | lost hcall hlookup =>
      refine ⟨Good.own_update hm.own fun t c h => ?_, hm.apart,
        fun t c h => Nat.lt_succ_of_lt (hm.bound t c h)⟩
      obtain ⟨rfl, rfl⟩ := holds_ready h
      exact hlookup
  | @stored id target hcall hlookup =>
      have hne : ∀ t c, m.breakers.lookup t = some c → t ≠ target := by
        rintro t c h rfl
        rw [hlookup] at h
        cases h
      refine ⟨Good.own_update (fun id t c h => ?_) fun t c h => ?_, fun t t' c h h' => ?_,
        fun t c h => ?_⟩
      · have hold := hm.own id t c h
        rw [Finmap.lookup_insert_of_ne _ (hne t c hold)]
        exact hold
      · obtain ⟨rfl, rfl⟩ := holds_ready h
        exact Finmap.lookup_insert _
      · obtain ⟨rfl, rfl⟩ | ⟨_, hold⟩ := GoMap.lookup_insert_cases h <;>
          obtain ⟨rfl, hc⟩ | ⟨_, hold'⟩ := GoMap.lookup_insert_cases h'
        · rfl
        · exact absurd (hm.bound t' _ hold') (lt_irrefl _)
        · exact absurd (hm.bound t _ hold) (hc ▸ lt_irrefl _)
        · exact hm.apart t t' c hold hold'
      · obtain ⟨_, rfl⟩ | ⟨_, hold⟩ := GoMap.lookup_insert_cases h
        · exact Nat.lt_succ_self _
        · exact Nat.lt_succ_of_lt (hm.bound t c hold)
  | admitted hcall hbefore =>
      refine ⟨Good.own_update hm.own fun t c h => ?_, hm.apart, hm.bound⟩
      obtain ⟨rfl, rfl⟩ := holds_invoking h
      exact hm.own _ _ _ (.inl hcall)
  | refused hcall hbefore =>
      exact ⟨Good.own_update hm.own fun t c h => absurd h not_holds_idle, hm.apart, hm.bound⟩
  | finished hcall =>
      exact ⟨Good.own_update hm.own fun t c h => absurd h not_holds_idle, hm.apart, hm.bound⟩

def breakerOf (m : Managed) (target : Str) : CircuitBreaker :=
  match m.breakers.lookup target with
  | some cb => m.heap cb
  | none => m.config.newBreaker

theorem breakerOf_of_lookup (h : m.breakers.lookup target = some cb) :
    m.breakerOf target = m.heap cb := by
  rw [breakerOf, h]

theorem Good.breakerOf_update (hm : m.Good) (h : m.breakers.lookup target = some cb)
    (breaker : CircuitBreaker) (now : ℤ) (calls : ℕ → Phase) (t : Str) :
    breakerOf { m with heap := Function.update m.heap cb breaker, now := now, calls := calls } t =
      if t = target then breaker else m.breakerOf t := by
  unfold breakerOf
  dsimp only
  split
  · rename_i c hlookup
    by_cases hc : c = cb
    · subst hc
      rw [hm.apart t target c hlookup h, if_pos rfl, Function.update_self]
    · have hne : t ≠ target := by
        rintro rfl
        rw [h] at hlookup
        exact hc (Option.some.inj hlookup).symm
      rw [Function.update_of_ne hc, if_neg hne]
  · rename_i hlookup
    rw [if_neg]
    rintro rfl
    rw [h] at hlookup
    cases hlookup

/-- A new breaker that is not put into the map is the one of no target. -/
theorem Good.breakerOf_lost (hm : m.Good) (calls : ℕ → Phase) (t : Str) :
    breakerOf { m with
      made := m.made + 1, heap := Function.update m.heap m.made m.config.newBreaker
      calls := calls } t = m.breakerOf t := by
  unfold breakerOf
  dsimp only
  split
  · rename_i c hlookup
    exact Function.update_of_ne (hm.bound t c hlookup).ne _ _
  · rfl

/-- One that is put into the map is as the target has been taken to have it before. -/
theorem Good.breakerOf_stored (hm : m.Good) (h : m.breakers.lookup target = none)
    (calls : ℕ → Phase) (t : Str) :
    breakerOf { m with
      made := m.made + 1, heap := Function.update m.heap m.made m.config.newBreaker
      breakers := m.breakers.insert target m.made, calls := calls } t = m.breakerOf t := by
  by_cases ht : t = target
  · subst ht
    rw [breakerOf_of_lookup (Finmap.lookup_insert _), breakerOf, h]
    exact Function.update_self _ _ _
  · rw [← hm.breakerOf_lost calls t, breakerOf, breakerOf]
    dsimp only
    rw [Finmap.lookup_insert_of_ne _ ht]

/-- The windows of the calls of a target that are in the invoker. -/
def InFlight (target : Str) (calls : ℕ → Phase) (windows : List ℕ) : Prop :=
  ∃ (ids : List ℕ) (window : ℕ → ℕ), ids.Nodup ∧
    (∀ id, id ∈ ids ↔ ∃ cb, calls id = .invoking target cb) ∧ windows.Perm (ids.map window)

variable {calls : ℕ → Phase} {windows : List ℕ} {phase : Phase}

theorem InFlight.update (h : InFlight target calls windows)
    (hphase : (∃ cb, phase = .invoking target cb) ↔ ∃ cb, calls id = .invoking target cb) :
    InFlight target (Function.update calls id phase) windows := by
  obtain ⟨ids, window, hnodup, hids, hperm⟩ := h
  refine ⟨ids, window, hnodup, fun id' => ?_, hperm⟩
  by_cases hid : id' = id
  · rw [hid, Function.update_self, hids, hphase]
  · rw [Function.update_of_ne hid, hids]

theorem InFlight.admit (h : InFlight target calls windows)
    (hcall : ∀ cb, calls id ≠ .invoking target cb) (w : ℕ) :
    InFlight target (Function.update calls id (.invoking target cb)) (w :: windows) := by
  obtain ⟨ids, window, hnodup, hids, hperm⟩ := h
  have hid : id ∉ ids := fun hid => by
    obtain ⟨cb, hcb⟩ := (hids id).mp hid
    exact hcall cb hcb
  refine ⟨id :: ids, Function.update window id w, List.nodup_cons.mpr ⟨hid, hnodup⟩,
    fun id' => ?_, ?_⟩
  · rw [List.mem_cons]
    by_cases hne : id' = id
    · rw [hne, Function.update_self]
      exact ⟨fun _ => ⟨cb, rfl⟩, fun _ => .inl rfl⟩
    · rw [Function.update_of_ne hne, ← hids]
      exact or_iff_right hne
  · have hrest : ids.map (Function.update window id w) = ids.map window :=
      List.map_congr_left fun id' hid' =>
        Function.update_of_ne (ne_of_mem_of_not_mem hid' hid) _ _
    rw [List.map_cons, Function.update_self, hrest]
    exact hperm.cons w

theorem InFlight.finish (h : InFlight target calls windows)
    (hcall : calls id = .invoking target cb) :
    ∃ w ∈ windows, InFlight target (Function.update calls id .idle) (windows.erase w) := by
  obtain ⟨ids, window, hnodup, hids, hperm⟩ := h
  have hid : id ∈ ids := (hids id).mpr ⟨cb, hcall⟩
  have hsplit : (ids.map window).Perm (window id :: (ids.erase id).map window) :=
    (List.perm_cons_erase hid).map window
  refine ⟨window id, hperm.mem_iff.mpr (List.mem_map_of_mem hid), ids.erase id, window,
    hnodup.erase id, fun id' => ?_, ?_⟩
  · rw [hnodup.mem_erase_iff]
    by_cases hne : id' = id
    · rw [hne, Function.update_self]
      simp
    · rw [Function.update_of_ne hne, ← hids]
      exact and_iff_right hne
  · have herase := (hperm.trans hsplit).erase (window id)
    rwa [List.erase_cons_head] at herase

/-- A breaker that a target has for itself stands for the one it has in the map. -/
structure Stands (target : Str) (m : Managed) (s : System) : Prop where
  good : m.Good
  breaker : s.breaker = m.breakerOf target
  now : s.now = m.now
  inFlight : InFlight target m.calls s.inFlight

theorem stands_new (config : CircuitBreakerConfig) (now : ℤ) (target : Str) :
    Stands target (newCircuitBreakerManager config now) (System.start config.newBreaker now) where
  good := good_new config now
  breaker := rfl
  now := rfl
  inFlight := ⟨[], fun _ => 0, List.nodup_nil, fun id => by simp [newCircuitBreakerManager], by
    simp [System.start]⟩

theorem Stands.keep {s : System} (h : Stands target m s) (hgood : m'.Good)
    (hbreaker : m'.breakerOf target = m.breakerOf target) (hnow : m'.now = m.now)
    (hcalls : m'.calls = Function.update m.calls id phase)
    (hphase : (∃ cb, phase = .invoking target cb) ↔ ∃ cb, m.calls id = .invoking target cb) :
    Stands target m' s where
  good := hgood
  breaker := h.breaker.trans hbreaker.symm
  now := h.now.trans hnow.symm
  inFlight := hcalls ▸ h.inFlight.update hphase

theorem Stands.tick {s : System} {delay : ℕ} (h : Stands target m s) (hgood : m'.Good)
    (hbreaker : m'.breakerOf target = m.breakerOf target) (hnow : m'.now = m.now + delay)
    (hcalls : InFlight target m'.calls s.inFlight) :
    Stands target m' { s with now := s.now + delay } where
  good := hgood
  breaker := h.breaker.trans hbreaker.symm
  now := by rw [hnow, ← h.now]
  inFlight := hcalls

theorem Stands.other {s : System} {t : Str} {delay : ℕ} {breaker : CircuitBreaker}
    (h : Stands target m s) (hlookup : m.breakers.lookup t = some cb) (hne : t ≠ target)
    (hgood : Good { m with
      heap := Function.update m.heap cb breaker, now := m.now + delay
      calls := Function.update m.calls id phase })
    (hphase : ∀ c, phase ≠ .invoking target c) (hcall : ∀ c, m.calls id ≠ .invoking target c) :
    ∃ tr s', Run Gateway.step s tr s' ∧ Stands target { m with
      heap := Function.update m.heap cb breaker, now := m.now + delay
      calls := Function.update m.calls id phase } s' ∧ tr.flatMap seen = [.elapsed delay] := by
  refine Run.answer (e := Gateway.Event.tick delay) rfl (h.tick hgood ?_ rfl ?_)
  · rw [h.good.breakerOf_update hlookup, if_neg hne.symm]
  · exact h.inFlight.update
      ⟨fun ⟨c, hc⟩ => absurd hc (hphase c), fun ⟨c, hc⟩ => absurd hc (hcall c)⟩

theorem stands_simulation (target : Str) :
    Simulation (step (E := E)) Gateway.step (Stands target) (seenAt target) seen := by
  intro m s e o m' h hs
  have heffect := step_effect hs
  have hgood := good_step h.good heffect
  cases heffect with
  | @tick d =>
      exact Run.answer (e := Gateway.Event.tick d) rfl (h.tick hgood rfl rfl h.inFlight)
  | found hcall hlookup =>
      refine Run.stutter (h.keep hgood rfl rfl rfl ?_)
      rw [hcall]
      simp
  | missed hcall =>
      refine Run.stutter (h.keep hgood rfl rfl rfl ?_)
      rw [hcall]
      simp
  | lost hcall hlookup =>
      refine Run.stutter (h.keep hgood (h.good.breakerOf_lost _ _) rfl rfl ?_)
      rw [hcall]
      simp
  | stored hcall hlookup =>
      refine Run.stutter (h.keep hgood (h.good.breakerOf_stored hlookup _ _) rfl rfl ?_)
      rw [hcall]
      simp
  | @admitted id delay cb t breaker hcall hbefore =>
      have hlookup := h.good.own id t cb (.inl hcall)
      have hidle : ∀ c, m.calls id ≠ .invoking target c := by simp [hcall]
      by_cases ht : t = target
      · subst ht
        rw [← breakerOf_of_lookup hlookup, ← h.breaker, ← h.now] at hbefore
        obtain ⟨w, s', hstep, hbreaker, hnow, hinFlight⟩ := step_admitted hbefore
        rw [show seenAt t _ = [Seen.admitted delay] by simp [seenAt]]
        refine Run.answer hstep ⟨hgood, ?_, hnow.trans (by rw [h.now]), ?_⟩
        · rw [h.good.breakerOf_update hlookup, if_pos rfl, hbreaker]
        · rw [hinFlight]
          exact h.inFlight.admit hidle w
      · rw [show seenAt target _ = [Seen.elapsed delay] by simp [seenAt, ht]]
        exact h.other hlookup ht hgood (by simp [ht]) hidle
  | @refused id delay cb t breaker hcall hbefore =>
      have hlookup := h.good.own id t cb (.inl hcall)
      have hidle : ∀ c, m.calls id ≠ .invoking target c := by simp [hcall]
      by_cases ht : t = target
      · subst ht
        rw [← breakerOf_of_lookup hlookup, ← h.breaker, ← h.now] at hbefore
        rw [show seenAt t _ = [Seen.refused delay] by simp [seenAt]]
        refine Run.answer (step_refused hbefore) ⟨hgood, ?_, by rw [h.now], ?_⟩
        · rw [h.good.breakerOf_update hlookup, if_pos rfl]
        · exact h.inFlight.update
            ⟨fun ⟨c, hc⟩ => absurd hc (by simp), fun ⟨c, hc⟩ => absurd hc (hidle c)⟩
      · rw [show seenAt target _ = [Seen.elapsed delay] by simp [seenAt, ht]]
        exact h.other hlookup ht hgood (by simp) hidle
  | @finished id delay cb t err hcall =>
      have hlookup := h.good.own id t cb (.inr hcall)
      by_cases ht : t = target
      · subst ht
        obtain ⟨w, hw, hrest⟩ := h.inFlight.finish hcall
        obtain ⟨o, s', hstep, hbreaker, hnow, hinFlight⟩ := step_finished hw err.isSome
        rw [show seenAt t _ = [Seen.finished err.isSome delay] by simp [seenAt]]
        refine Run.answer hstep ⟨hgood, ?_, hnow.trans (by rw [h.now]), ?_⟩
        · rw [h.good.breakerOf_update hlookup, if_pos rfl, hbreaker, h.breaker, h.now,
            breakerOf_of_lookup hlookup]
        · rw [hinFlight]
          exact hrest
      · rw [show seenAt target _ = [Seen.elapsed delay] by simp [seenAt, ht]]
        exact h.other hlookup ht hgood (by simp) (by simp [hcall, ht])

/-- In every interleaving the calls to a target are those of one breaker that the target has for
itself, and every call to it that has a breaker has that one. -/
theorem calls_refine_breaker {config : CircuitBreakerConfig} {now : ℤ}
    {tr : List (Event E × Output E)} (target : Str)
    (hrun : Run step (newCircuitBreakerManager config now) tr m) :
    (∃ tr' s, Run Gateway.step (System.start config.newBreaker now) tr' s ∧
      tr'.flatMap seen = tr.flatMap (seenAt target) ∧ s.breaker = m.breakerOf target ∧
      s.now = m.now) ∧
      ∀ id cb, Holds (m.calls id) target cb → m.heap cb = m.breakerOf target := by
  obtain ⟨tr', s, hrun', hstands, hseen⟩ :=
    (stands_simulation target).run hrun (stands_new config now target)
  refine ⟨⟨tr', s, hrun', hseen, hstands.breaker, hstands.now⟩, fun id cb h => ?_⟩
  rw [breakerOf_of_lookup (hstands.good.own id target cb h)]

def strictConfig : CircuitBreakerConfig where
  maxRequests := 1
  interval := 60
  timeout := 30
  failureRatio := .finite 1 0

/-- Two calls find no breaker; both get the one that the second has made. -/
def racingTrace : List (Event String × Output String) :=
  [(.load 0 ['a'], .done), (.load 1 ['a'], .done), (.loadOrStore 1, .done), (.loadOrStore 0, .done),
    (.beforeRequest 0 1, .admitted ['a']),
    (.afterRequest 0 (some (.other "timeout")) 1, .finished ['a'] (.failed "timeout")),
    (.beforeRequest 1 1, .refused ['a'] (.unavailable "service temporarily unavailable"))]

theorem calls_refine_breaker_racing :
    ∃ m, Run step (newCircuitBreakerManager strictConfig 0) racingTrace m ∧
      ∃ tr' s, Run Gateway.step (System.start strictConfig.newBreaker 0) tr' s ∧
        tr'.flatMap seen = racingTrace.flatMap (seenAt ['a']) ∧ s.breaker = m.breakerOf ['a'] := by
  have hrun : ∃ m, Run step (newCircuitBreakerManager strictConfig 0) racingTrace m :=
    ⟨_, _, rfl, _, rfl, _, rfl, _, rfl, _, rfl, _, rfl, _, rfl, rfl⟩
  obtain ⟨m, hm⟩ := hrun
  obtain ⟨⟨tr', s, hrun', hseen, hbreaker, _⟩, _⟩ := calls_refine_breaker ['a'] hm
  exact ⟨m, hm, tr', s, hrun', hseen, hbreaker⟩

theorem eq_of_finished_mem_seenAt {x : Event E × Output E} {failed : Bool} {delay : ℕ}
    (h : .finished failed delay ∈ seenAt target x) :
    ∃ id err ans, x = (.afterRequest id err delay, .finished target ans) ∧ err.isSome = failed := by
  unfold seenAt at h
  split at h
  · simp at h
  · split at h <;> simp at h
  · split at h <;> simp at h
  · rename_i id err delay' t ans
    split at h
    · rename_i ht
      obtain ⟨rfl, rfl⟩ : failed = err.isSome ∧ delay = delay' := by simpa using h
      exact ⟨id, err, ans, by rw [ht], rfl⟩
    · simp at h
  · cases h

theorem run_closed {s s' : System} {tr : Gateway.Trace} (hrun : Run Gateway.step s tr s')
    (hok : ∀ x ∈ tr, ∀ delay, .finished true delay ∉ seen x)
    (hs : s.breaker.state = .stateClosed) : s'.breaker.state = .stateClosed := by
  refine hrun.invariant (I := fun s => s.breaker.state = .stateClosed)
    (A := fun x => ∀ delay, .finished true delay ∉ seen x) ?_ hok hs
  intro m e o m' hA hm hstep
  cases Gateway.step_effect hstep with
  | tick => exact hm
  | pass => exact hm
  | renew => exact hm
  | probe hstate => exact absurd (hm.symm.trans hstate) (by decide)
  | refuse => exact hm
  | succeed => exact hm
  | close _ hstate => exact absurd (hm.symm.trans hstate) (by decide)
  | @fail window delay => exact absurd List.mem_cons_self (hA delay)
  | @openUp window delay => exact absurd List.mem_cons_self (hA delay)

theorem closed_not_refused {s s' : System} {e : Gateway.Event} {o : Gateway.Output} {delay : ℕ}
    (hs : s.breaker.state = .stateClosed) (hstep : Gateway.step s e = some (s', o)) :
    .refused delay ∉ seen (e, o) := by
  cases Gateway.step_effect hstep with
  | refuse hstate =>
      rw [hs] at hstate
      obtain h | ⟨h, _⟩ := hstate <;> cases h
  | _ => simp [seen]

/-- Calls to a target are not refused as long as none of them fails, however calls to other
targets fail. -/
theorem not_refused_without_failure {config : CircuitBreakerConfig} {now : ℤ}
    {tr : List (Event E × Output E)} {target : Str}
    (hrun : Run step (newCircuitBreakerManager config now) tr m)
    (hok : ∀ id err delay ans, (.afterRequest id err delay, .finished target ans) ∈ tr →
      err = none) :
    ∀ id delay ans, (.beforeRequest id delay, .refused target ans) ∉ tr := by
  intro id delay ans hmem
  obtain ⟨tr', s, hrun', _, hseen⟩ :=
    (stands_simulation target).run hrun (stands_new config now target)
  have hfailed : ∀ x ∈ tr', ∀ delay, .finished true delay ∉ seen x := by
    intro x hx d hd
    have hfail : .finished true d ∈ tr.flatMap (seenAt target) := by
      rw [← hseen]
      exact List.mem_flatMap.mpr ⟨x, hx, hd⟩
    obtain ⟨y, hy, hshown⟩ := List.mem_flatMap.mp hfail
    obtain ⟨id, err, ans, rfl, herr⟩ := eq_of_finished_mem_seenAt hshown
    rw [hok id err d ans hy] at herr
    cases herr
  have hrefused : .refused delay ∈ tr'.flatMap seen := by
    rw [hseen]
    exact List.mem_flatMap.mpr ⟨_, hmem, by simp [seenAt]⟩
  obtain ⟨⟨e, o⟩, hx, hshown⟩ := List.mem_flatMap.mp hrefused
  obtain ⟨tr₁, tr₂, rfl⟩ := List.append_of_mem hx
  obtain ⟨s₁, s₂, hbefore, hstep, _⟩ := run_append_cons.mp hrun'
  have hclosed := run_closed hbefore (fun x hx => hfailed x (List.mem_append_left _ hx)) rfl
  exact closed_not_refused hclosed hstep hshown

def otherFailsTrace : List (Event String × Output String) :=
  [(.load 0 ['b'], .done), (.loadOrStore 0, .done), (.beforeRequest 0 1, .admitted ['b']),
    (.afterRequest 0 (some (.other "timeout")) 1, .finished ['b'] (.failed "timeout")),
    (.load 0 ['b'], .done),
    (.beforeRequest 0 1, .refused ['b'] (.unavailable "service temporarily unavailable")),
    (.load 1 ['a'], .done), (.loadOrStore 1, .done), (.beforeRequest 1 1, .admitted ['a'])]

theorem not_refused_without_failure_other :
    (∃ m, Run step (newCircuitBreakerManager strictConfig 0) otherFailsTrace m) ∧
      ∀ id delay ans, (.beforeRequest id delay, .refused ['a'] ans) ∉ otherFailsTrace := by
  have hrun : ∃ m, Run step (newCircuitBreakerManager strictConfig 0) otherFailsTrace m :=
    ⟨_, _, rfl, _, rfl, _, rfl, _, rfl, _, rfl, _, rfl, _, rfl, _, rfl, _, rfl, rfl⟩
  refine ⟨hrun, ?_⟩
  obtain ⟨m, hm⟩ := hrun
  exact not_refused_without_failure hm (by simp [otherFailsTrace])

end Managed

end GrpcVault.Gateway
