import GrpcVault.Lib.EventSystem

/-!
# Batches over a read-through cache

The items of a batch run concurrently over one cache, in front of a store that stays as it is.
An item looks its request up; on a miss it waits for the store's answer, adds it to the cache
and is finished with it. Meanwhile entries may be evicted. `Obtains` collects the answers that
an item can be finished with, whatever the schedule: the entry that was there, the store's
answer to its own request, or the answer to another request under the same key.
`answers_iff` says that these are exactly the ones that occur.
-/

namespace CachedBatch

open EventSystem

/-- An item without a request is finished without an answer. -/
structure Batch (ι R K V : Type*) where
  request : ι → Option R
  keyOf : R → K
  fetch : R → Option V
  evictable : K → Bool

inductive Progress (V : Type*) where
  | idle
  | waiting
  | fetched (v : V)
  | finished (answer : Option V)

structure State (ι K V : Type*) where
  cache : K → Option V
  items : ι → Progress V

inductive Event (ι K : Type*) where
  | start (i : ι)
  | respond (i : ι)
  | fill (i : ι)
  | evict (k : K)

variable {ι R K V : Type*}

def State.init (ι : Type*) (cache : K → Option V) : State ι K V where
  cache := cache
  items := fun _ => .idle

def State.Complete (s : State ι K V) : Prop := ∀ i, ∃ answer, s.items i = .finished answer

variable [DecidableEq ι] [DecidableEq K]

def State.set (s : State ι K V) (i : ι) (p : Progress V) : State ι K V :=
  { s with items := Function.update s.items i p }

def State.put (s : State ι K V) (k : K) (entry : Option V) : State ι K V :=
  { s with cache := Function.update s.cache k entry }

omit [DecidableEq K] in
@[simp] theorem State.set_items_self (s : State ι K V) (i : ι) (p : Progress V) :
    (s.set i p).items i = p := Function.update_self _ _ _

omit [DecidableEq K] in
theorem State.set_items_of_ne {s : State ι K V} {i j : ι} {p : Progress V} (h : j ≠ i) :
    (s.set i p).items j = s.items j := Function.update_of_ne h _ _

omit [DecidableEq ι] in
@[simp] theorem State.put_cache_self (s : State ι K V) (k : K) (entry : Option V) :
    (s.put k entry).cache k = entry := Function.update_self _ _ _

omit [DecidableEq ι] in
theorem State.put_cache_of_ne {s : State ι K V} {k k' : K} {entry : Option V} (h : k' ≠ k) :
    (s.put k entry).cache k' = s.cache k' := Function.update_of_ne h _ _

namespace Batch

variable (b : Batch ι R K V)

def step : Step (State ι K V) (Event ι K) Unit
  | s, .start i =>
      match s.items i with
      | .idle =>
          match b.request i with
          | none => some (s.set i (.finished none), ())
          | some r =>
              match s.cache (b.keyOf r) with
              | some v => some (s.set i (.finished (some v)), ())
              | none => some (s.set i .waiting, ())
      | _ => none
  | s, .respond i =>
      match s.items i, b.request i with
      | .waiting, some r =>
          match b.fetch r with
          | some v => some (s.set i (.fetched v), ())
          | none => some (s.set i (.finished none), ())
      | _, _ => none
  | s, .fill i =>
      match s.items i, b.request i with
      | .fetched v, some r =>
          some ((s.put (b.keyOf r) (some v)).set i (.finished (some v)), ())
      | _, _ => none
  | s, .evict k =>
      if b.evictable k then some (s.put k none, ()) else none

inductive Effect (s : State ι K V) : Event ι K → State ι K V → Prop
  | unasked {i} (h : s.items i = .idle) (hr : b.request i = none) :
      Effect s (.start i) (s.set i (.finished none))
  | hit {i r v} (h : s.items i = .idle) (hr : b.request i = some r)
      (hc : s.cache (b.keyOf r) = some v) : Effect s (.start i) (s.set i (.finished (some v)))
  | miss {i r} (h : s.items i = .idle) (hr : b.request i = some r)
      (hc : s.cache (b.keyOf r) = none) : Effect s (.start i) (s.set i .waiting)
  | answer {i r v} (h : s.items i = .waiting) (hr : b.request i = some r)
      (hf : b.fetch r = some v) : Effect s (.respond i) (s.set i (.fetched v))
  | refuse {i r} (h : s.items i = .waiting) (hr : b.request i = some r)
      (hf : b.fetch r = none) : Effect s (.respond i) (s.set i (.finished none))
  | fill {i r v} (h : s.items i = .fetched v) (hr : b.request i = some r) :
      Effect s (.fill i) ((s.put (b.keyOf r) (some v)).set i (.finished (some v)))
  | evict {k} (h : b.evictable k = true) : Effect s (.evict k) (s.put k none)

variable {b} {s s' : State ι K V} {cache₀ : K → Option V} {i : ι}

theorem step_iff {e : Event ι K} {o : Unit} : b.step s e = some (s', o) ↔ b.Effect s e s' := by
  constructor
  · intro h
    cases e with
    | start i =>
        cases hi : s.items i with
        | idle =>
            cases hr : b.request i with
            | none =>
                simp only [step, hi, hr, Option.some.injEq, Prod.mk.injEq, and_true] at h
                exact h ▸ .unasked hi hr
            | some r =>
                cases hc : s.cache (b.keyOf r) with
                | none =>
                    simp only [step, hi, hr, hc, Option.some.injEq, Prod.mk.injEq, and_true] at h
                    exact h ▸ .miss hi hr hc
                | some v =>
                    simp only [step, hi, hr, hc, Option.some.injEq, Prod.mk.injEq, and_true] at h
                    exact h ▸ .hit hi hr hc
        | _ => simp [step, hi] at h
    | respond i =>
        cases hi : s.items i with
        | waiting =>
            cases hr : b.request i with
            | none => simp [step, hi, hr] at h
            | some r =>
                cases hf : b.fetch r with
                | none =>
                    simp only [step, hi, hr, hf, Option.some.injEq, Prod.mk.injEq, and_true] at h
                    exact h ▸ .refuse hi hr hf
                | some v =>
                    simp only [step, hi, hr, hf, Option.some.injEq, Prod.mk.injEq, and_true] at h
                    exact h ▸ .answer hi hr hf
        | _ => simp [step, hi] at h
    | fill i =>
        cases hi : s.items i with
        | fetched v =>
            cases hr : b.request i with
            | none => simp [step, hi, hr] at h
            | some r =>
                simp only [step, hi, hr, Option.some.injEq, Prod.mk.injEq, and_true] at h
                exact h ▸ .fill hi hr
        | _ => simp [step, hi] at h
    | evict k =>
        simp only [step] at h
        split_ifs at h with hk
        cases h
        exact .evict hk
  · intro h
    cases h with
    | unasked hi hr => simp only [step, hi, hr]
    | hit hi hr hc => simp only [step, hi, hr, hc]
    | miss hi hr hc => simp only [step, hi, hr, hc]
    | answer hi hr hf => simp only [step, hi, hr, hf]
    | refuse hi hr hf => simp only [step, hi, hr, hf]
    | fill hi hr => simp only [step, hi, hr]
    | evict hk => simp only [step, hk, if_true]

section Answers

variable (b) (cache₀)

/-- There is no entry at the start, or it may be evicted. -/
def Missing (k : K) : Prop := cache₀ k = none ∨ b.evictable k = true

/-- The answers that an item can be finished with. -/
inductive Obtains (i : ι) : Option V → Prop
  | unasked (h : b.request i = none) : Obtains i none
  | held {r v} (h : b.request i = some r) (hc : cache₀ (b.keyOf r) = some v) : Obtains i (some v)
  | own {r} (h : b.request i = some r) (hm : b.Missing cache₀ (b.keyOf r)) :
      Obtains i (b.fetch r)
  | other {r j r' v} (h : b.request i = some r) (hm : b.Missing cache₀ (b.keyOf r))
      (hj : b.request j = some r') (hk : b.keyOf r' = b.keyOf r) (hf : b.fetch r' = some v) :
      Obtains i (some v)

/-- The store's answer to a request of the batch, under a key that was missing. -/
def Added (k : K) (v : V) : Prop :=
  b.Missing cache₀ k ∧ ∃ j r, b.request j = some r ∧ b.keyOf r = k ∧ b.fetch r = some v

/-- What is known of an item from where it stands. -/
def Accounts (i : ι) : Progress V → Prop
  | .idle => True
  | .waiting => ∃ r, b.request i = some r ∧ b.Missing cache₀ (b.keyOf r)
  | .fetched v => ∃ r, b.request i = some r ∧ b.Missing cache₀ (b.keyOf r) ∧ b.fetch r = some v
  | .finished answer => b.Obtains cache₀ i answer

structure Traced (s : State ι K V) : Prop where
  cached : ∀ k v, s.cache k = some v → cache₀ k = some v ∨ b.Added cache₀ k v
  absent : ∀ k, s.cache k = none → b.Missing cache₀ k
  items : ∀ i, b.Accounts cache₀ i (s.items i)

end Answers

omit [DecidableEq ι] [DecidableEq K] in
theorem traced_init (b : Batch ι R K V) (cache₀ : K → Option V) :
    b.Traced cache₀ (State.init ι cache₀) where
  cached _ _ h := .inl h
  absent _ h := .inl h
  items _ := trivial

omit [DecidableEq K] in
theorem Traced.set {p : Progress V} (h : b.Traced cache₀ s) (hp : b.Accounts cache₀ i p) :
    b.Traced cache₀ (s.set i p) := by
  refine ⟨h.cached, h.absent, fun j => ?_⟩
  by_cases hj : j = i
  · subst hj
    rw [State.set_items_self]
    exact hp
  · rw [State.set_items_of_ne hj]
    exact h.items j

omit [DecidableEq ι] in
theorem Traced.put {k : K} {entry : Option V} (h : b.Traced cache₀ s)
    (hsome : ∀ v, entry = some v → b.Added cache₀ k v)
    (hnone : entry = none → b.Missing cache₀ k) : b.Traced cache₀ (s.put k entry) := by
  refine ⟨fun k' v hv => ?_, fun k' hk' => ?_, h.items⟩
  · by_cases hk : k' = k
    · subst hk
      rw [State.put_cache_self] at hv
      exact .inr (hsome v hv)
    · rw [State.put_cache_of_ne hk] at hv
      exact h.cached k' v hv
  · by_cases hk : k' = k
    · subst hk
      rw [State.put_cache_self] at hk'
      exact hnone hk'
    · rw [State.put_cache_of_ne hk] at hk'
      exact h.absent k' hk'

theorem Traced.effect {e : Event ι K} (h : b.Traced cache₀ s) (he : b.Effect s e s') :
    b.Traced cache₀ s' := by
  cases he with
  | unasked hi hr => exact h.set (.unasked hr)
  | hit hi hr hc =>
      rcases h.cached _ _ hc with hheld | ⟨hm, j, r', hj, hk, hf⟩
      · exact h.set (.held hr hheld)
      · exact h.set (.other hr hm hj hk hf)
  | miss hi hr hc => exact h.set ⟨_, hr, h.absent _ hc⟩
  | @answer i r v hi hr hf =>
      have hwaiting := h.items i
      rw [hi] at hwaiting
      obtain ⟨r', hr', hm⟩ := hwaiting
      obtain rfl : r = r' := Option.some.inj (hr.symm.trans hr')
      exact h.set ⟨r, hr, hm, hf⟩
  | @refuse i r hi hr hf =>
      have hwaiting := h.items i
      rw [hi] at hwaiting
      obtain ⟨r', hr', hm⟩ := hwaiting
      obtain rfl : r = r' := Option.some.inj (hr.symm.trans hr')
      exact h.set (hf ▸ .own hr hm)
  | @fill i r v hi hr =>
      have hfetched := h.items i
      rw [hi] at hfetched
      obtain ⟨r', hr', hm, hf⟩ := hfetched
      obtain rfl : r = r' := Option.some.inj (hr.symm.trans hr')
      have hfinished : b.Accounts cache₀ i (.finished (some v)) := hf ▸ .own hr hm
      refine Traced.set (h.put ?_ (by simp)) hfinished
      intro v' hv'
      cases hv'
      exact ⟨hm, i, r, hr, rfl, hf⟩
  | evict hk => exact h.put (by simp) fun _ => .inr hk

variable {tr : List (Event ι K × Unit)}

theorem run_traced (hrun : Run b.step (State.init ι cache₀) tr s) : b.Traced cache₀ s := by
  refine hrun.preserves (I := b.Traced cache₀) ?_ (traced_init b cache₀)
  intro m e o m' hm hstep
  exact hm.effect (step_iff.mp hstep)

section Schedules

variable (b) in
def alone (cache : K → Option V) (i : ι) : (K → Option V) × Option V :=
  match b.request i with
  | none => (cache, none)
  | some r =>
      match cache (b.keyOf r) with
      | some v => (cache, some v)
      | none =>
          match b.fetch r with
          | some v => (Function.update cache (b.keyOf r) (some v), some v)
          | none => (cache, none)

omit [DecidableEq ι] in
theorem alone_of_miss {cache : K → Option V} {r : R} (hr : b.request i = some r)
    (hc : cache (b.keyOf r) = none) : (b.alone cache i).2 = b.fetch r := by
  cases hf : b.fetch r with
  | none => simp [alone, hr, hc, hf]
  | some v => simp [alone, hr, hc, hf]

omit [DecidableEq ι] in
theorem alone_of_hit {cache : K → Option V} {r : R} {v : V} (hr : b.request i = some r)
    (hc : cache (b.keyOf r) = some v) : (b.alone cache i).2 = some v := by
  simp [alone, hr, hc]

variable (b) in
def finish (s : State ι K V) (i : ι) : State ι K V :=
  State.set { s with cache := (b.alone s.cache i).1 } i (.finished (b.alone s.cache i).2)

theorem finish_items_self (s : State ι K V) (i : ι) :
    (b.finish s i).items i = .finished (b.alone s.cache i).2 := State.set_items_self _ i _

theorem finish_items_of_ne {j : ι} (h : j ≠ i) : (b.finish s i).items j = s.items j :=
  State.set_items_of_ne h

theorem run_alone (hi : s.items i = .idle) : ∃ tr, Run b.step s tr (b.finish s i) := by
  cases hr : b.request i with
  | none =>
      refine ⟨[(.start i, ())], _, step_iff.mpr (.unasked hi hr), ?_⟩
      simp [finish, alone, hr]
  | some r =>
      cases hc : s.cache (b.keyOf r) with
      | some v =>
          refine ⟨[(.start i, ())], _, step_iff.mpr (.hit hi hr hc), ?_⟩
          simp [finish, alone, hr, hc]
      | none =>
          have hwaiting := s.set_items_self i .waiting
          cases hf : b.fetch r with
          | none =>
              refine ⟨[(.start i, ()), (.respond i, ())], _, step_iff.mpr (.miss hi hr hc), _,
                step_iff.mpr (.refuse hwaiting hr hf), ?_⟩
              simp [finish, alone, hr, hc, hf, State.set]
          | some v =>
              have hfetched := (s.set i .waiting).set_items_self i (.fetched v)
              refine ⟨[(.start i, ()), (.respond i, ()), (.fill i, ())], _,
                step_iff.mpr (.miss hi hr hc), _, step_iff.mpr (.answer hwaiting hr hf), _,
                step_iff.mpr (.fill hfetched hr), ?_⟩
              simp [finish, alone, hr, hc, hf, State.set, State.put]

theorem run_rest (s : State ι K V) (l : List ι) : ∃ tr s', Run b.step s tr s' ∧
    (∀ i ∈ l, s.items i = .idle → ∃ answer, s'.items i = .finished answer) ∧
    ∀ i, s.items i ≠ .idle → s'.items i = s.items i := by
  induction l generalizing s with
  | nil => exact ⟨[], s, rfl, by simp, fun _ _ => rfl⟩
  | cons j l ih =>
      by_cases hj : s.items j = .idle
      · obtain ⟨tr₁, h₁⟩ : ∃ tr, Run b.step s tr (b.finish s j) := run_alone hj
        obtain ⟨tr₂, s', h₂, hfinished, hkept⟩ := ih (b.finish s j)
        have hself := b.finish_items_self s j
        refine ⟨tr₁ ++ tr₂, s', run_append.mpr ⟨_, h₁, h₂⟩, fun i hi hidle => ?_, fun i hne => ?_⟩
        · by_cases hij : i = j
          · subst hij
            exact ⟨_, (hkept i (by simp [hself])).trans hself⟩
          · refine hfinished i ((List.mem_cons.mp hi).resolve_left hij) ?_
            rw [finish_items_of_ne hij, hidle]
        · have hij : i ≠ j := fun heq => hne (heq ▸ hj)
          have hsame : (b.finish s j).items i = s.items i := finish_items_of_ne hij
          rw [hkept i (hsame ▸ hne), hsame]
      · obtain ⟨tr, s', h, hfinished, hkept⟩ := ih s
        refine ⟨tr, s', h, fun i hi hidle => ?_, hkept⟩
        rcases List.mem_cons.mp hi with rfl | hi
        · exact absurd hidle hj
        · exact hfinished i hi hidle

def Settled (s : State ι K V) : Prop := ∀ i, s.items i = .idle ∨ ∃ a, s.items i = .finished a

omit [DecidableEq ι] [DecidableEq K] in
theorem settled_init (cache : K → Option V) : Settled (State.init ι cache) := fun _ => .inl rfl

theorem Settled.finish (h : Settled s) : Settled (b.finish s i) := by
  intro j
  by_cases hj : j = i
  · subst hj
    exact .inr ⟨_, b.finish_items_self s j⟩
  · rw [finish_items_of_ne hj]
    exact h j

theorem exists_complete [Fintype ι] {answer : Option V} {s₀ : State ι K V}
    (hrun : Run b.step s₀ tr s) (hsettled : Settled s) (hi : s.items i = .finished answer) :
    ∃ tr s', Run b.step s₀ tr s' ∧ s'.Complete ∧ s'.items i = .finished answer := by
  obtain ⟨tr', s', hrun', hfinished, hkept⟩ := b.run_rest s Finset.univ.toList
  refine ⟨tr ++ tr', s', run_append.mpr ⟨s, hrun, hrun'⟩, fun j => ?_, ?_⟩
  · rcases hsettled j with hj | ⟨a, hj⟩
    · exact hfinished j (by simp) hj
    · exact ⟨a, (hkept j (by simp [hj])).trans hj⟩
  · exact (hkept i (by simp [hi])).trans hi

theorem exists_missing {k : K} (h : b.Missing cache₀ k) : ∃ tr cache,
    Run b.step (State.init ι cache₀) tr (State.init ι cache) ∧ cache k = none := by
  rcases h with h | h
  · exact ⟨[], cache₀, rfl, h⟩
  · exact ⟨[(.evict k, ())], _, ⟨_, step_iff.mpr (.evict h), rfl⟩, Function.update_self _ _ _⟩

theorem exists_first [Fintype ι] {cache : K → Option V}
    (hrun : Run b.step (State.init ι cache₀) tr (State.init ι cache)) :
    ∃ tr s, Run b.step (State.init ι cache₀) tr s ∧ s.Complete ∧
      s.items i = .finished (b.alone cache i).2 := by
  obtain ⟨tr', hrun'⟩ : ∃ tr', Run b.step (State.init ι cache) tr' (b.finish _ i) := run_alone rfl
  exact exists_complete (run_append.mpr ⟨_, hrun, hrun'⟩) (settled_init cache).finish
    (b.finish_items_self _ i)

theorem exists_second [Fintype ι] {cache : K → Option V} {j : ι} (hne : i ≠ j)
    (hrun : Run b.step (State.init ι cache₀) tr (State.init ι cache)) :
    ∃ tr s, Run b.step (State.init ι cache₀) tr s ∧ s.Complete ∧
      s.items i = .finished (b.alone (b.alone cache j).1 i).2 := by
  obtain ⟨tr₁, h₁⟩ : ∃ tr₁, Run b.step (State.init ι cache) tr₁ (b.finish _ j) := run_alone rfl
  obtain ⟨tr₂, h₂⟩ : ∃ tr₂, Run b.step (b.finish (State.init ι cache) j) tr₂ (b.finish _ i) :=
    run_alone (finish_items_of_ne hne)
  exact exists_complete (run_append.mpr ⟨_, run_append.mpr ⟨_, hrun, h₁⟩, h₂⟩)
    (settled_init cache).finish.finish (b.finish_items_self _ i)

/-- Every answer that an item can obtain occurs under some schedule. -/
theorem Obtains.exists_schedule [Fintype ι] {answer : Option V} (h : b.Obtains cache₀ i answer) :
    ∃ tr s, Run b.step (State.init ι cache₀) tr s ∧ s.Complete ∧ s.items i = .finished answer := by
  cases h with
  | unasked h =>
      have halone : (b.alone cache₀ i).2 = none := by simp [alone, h]
      exact halone ▸ exists_first (run_nil.mpr rfl)
  | held h hc => exact alone_of_hit h hc ▸ exists_first (run_nil.mpr rfl)
  | own h hm =>
      obtain ⟨tr, cache, hrun, hnone⟩ := exists_missing hm
      exact alone_of_miss h hnone ▸ exists_first hrun
  | @other r j r' v h hm hj hk hf =>
      obtain ⟨tr, cache, hrun, hnone⟩ := exists_missing hm
      by_cases hij : i = j
      · subst hij
        obtain rfl : r = r' := Option.some.inj (h.symm.trans hj)
        rw [← hf, ← alone_of_miss h hnone]
        exact exists_first hrun
      · have hadded : (b.alone cache j).1 (b.keyOf r) = some v := by
          simp [alone, hj, hk, hnone, hf]
        exact alone_of_hit h hadded ▸ exists_second hij hrun

end Schedules

/-- What holds of the answers under every schedule is what holds of all that the items can
obtain. -/
theorem answers_iff [Fintype ι] {P : ι → Option V → Prop} :
    (∀ tr s, Run b.step (State.init ι cache₀) tr s → s.Complete →
      ∀ i answer, s.items i = .finished answer → P i answer) ↔
      ∀ i answer, b.Obtains cache₀ i answer → P i answer := by
  constructor
  · intro h i answer hobtains
    obtain ⟨tr, s, hrun, hcomplete, hi⟩ := hobtains.exists_schedule
    exact h tr s hrun hcomplete i answer hi
  · intro h tr s hrun _ i answer hi
    have haccounts := (run_traced hrun).items i
    rw [hi] at haccounts
    exact h i answer haccounts

end Batch
end CachedBatch
