import GrpcVault.Lib.EventSystem

/-!
# Read-through caches over a changing store

A service answers requests from a cache and, on a miss, from a store that other
parties change meanwhile. A call looks its request up, waits for the store's
answer, adds the answer to the cache and returns it. These steps interleave with
those of other calls, with evictions and restarts, and with the store's own
events.

`Sound` collects what makes the cache harmless for a notion `Ok` of acceptable
answers; `returned_ok` is the result. `call_returned` says where a call
that starts at some moment can have its answer from.
-/

namespace ReadThrough

open EventSystem

structure Service (S E O R K V : Type*) where
  keyOf : R → K
  fetch : S → R → Option V
  store : Step S E O

/-- What a call in flight is doing: waiting for the store's answer, or holding it. -/
inductive Stage (R V : Type*) where
  | waiting (r : R)
  | fetched (r : R) (v : V)

structure State (S R K V : Type*) where
  store : S
  cache : K → Option V
  calls : ℕ → Option (Stage R V)
  next : ℕ

inductive Event (E R K : Type*) where
  | start (r : R)
  | respond (id : ℕ)
  | fail (id : ℕ)
  | fill (id : ℕ)
  | evict (k : K)
  | restart
  | store (e : E)

inductive Output (O R V : Type*) where
  | missed (id : ℕ) (r : R)
  | answered (id : ℕ)
  | failed (id : ℕ) (r : R)
  | returned (id : ℕ) (r : R) (v : V)
  | done
  | store (o : O)

def State.init (S R K V : Type*) (store : S) : State S R K V :=
  { store, cache := fun _ => none, calls := fun _ => none, next := 0 }

variable {S E O R K V : Type*}

theorem update_forall {α β : Type*} [DecidableEq α] {f : α → Option β} {P : α → β → Prop}
    (h : ∀ i x, f i = some x → P i x) {a : α} {c : Option β} (hc : ∀ x, c = some x → P a x)
    (i : α) (x : β) (hi : Function.update f a c i = some x) : P i x := by
  by_cases he : i = a
  · subst he
    rw [Function.update_self] at hi
    exact hc x hi
  · rw [Function.update_of_ne he] at hi
    exact h i x hi

def Stage.Sat (Req : R → Prop) (Ok : R → V → Prop) : Stage R V → Prop
  | .waiting r => Req r
  | .fetched r v => Req r ∧ Ok r v

namespace Service

/-- Requests satisfy `Req` and the store's events with their outputs satisfy `A`. -/
def Permitted (Req : R → Prop) (A : E × O → Prop) : Event E R K × Output O R V → Prop
  | (.start r, _) => Req r
  | (.store e, .store o) => A (e, o)
  | _ => True

theorem permitted_of_mem {Req : R → Prop} {A : E × O → Prop}
    {tr : List (Event E R K × Output O R V)} (hreq : ∀ r o, (Event.start r, o) ∈ tr → Req r)
    (hstore : ∀ e o, (Event.store e, Output.store o) ∈ tr → A (e, o)) :
    ∀ x ∈ tr, Permitted Req A x := by
  intro x hx
  obtain ⟨e, o⟩ := x
  cases e with
  | start r => exact hreq r o hx
  | store e =>
      cases o with
      | store o => exact hstore e o hx
      | _ => trivial
  | _ => trivial

section
variable (svc : Service S E O R K V)

/-- The store keeps `Inv` and answers acceptably, an acceptable answer stays
acceptable, and requests that share a cache key accept the same answers. -/
structure Sound (Req : R → Prop) (A : E × O → Prop) (Inv : S → Prop) (Ok : S → R → V → Prop) :
    Prop where
  inv : ∀ {t e o t'}, A (e, o) → Inv t → svc.store t e = some (t', o) → Inv t'
  fetch_ok : ∀ {t r v}, Inv t → Req r → svc.fetch t r = some v → Ok t r v
  stable : ∀ {t e o t' r v}, A (e, o) → Inv t → svc.store t e = some (t', o) → Req r →
    Ok t r v → Ok t' r v
  agree : ∀ {t r r' v}, Req r → Req r' → svc.keyOf r = svc.keyOf r' → Ok t r v → Ok t r' v

structure Good (Req : R → Prop) (Inv : S → Prop) (Ok : S → R → V → Prop) (s : State S R K V) :
    Prop where
  inv : Inv s.store
  cached : ∀ k v, s.cache k = some v → ∃ r, Req r ∧ svc.keyOf r = k ∧ Ok s.store r v
  calls : ∀ i x, s.calls i = some x → x.Sat Req (Ok s.store)

end

section
variable {svc : Service S E O R K V} {s : State S R K V} {Req : R → Prop} {A : E × O → Prop}
  {Inv : S → Prop} {Ok : S → R → V → Prop}

theorem good_init {t : S} (h : Inv t) : svc.Good Req Inv Ok (State.init S R K V t) where
  inv := h
  cached _ _ h := by cases h
  calls _ _ h := by cases h

theorem Good.cached_ok (hs : svc.Sound Req A Inv Ok) (hg : svc.Good Req Inv Ok s) {r : R} {v : V}
    (hr : Req r) (hc : s.cache (svc.keyOf r) = some v) : Ok s.store r v := by
  obtain ⟨r', hr', hk, hok⟩ := hg.cached _ _ hc
  exact hs.agree hr' hr hk hok

end

def Fresh (s : State S R K V) : Prop := ∀ i x, s.calls i = some x → i < s.next

theorem fresh_init (t : S) : Fresh (State.init S R K V t) := fun _ _ h => by cases h

/-- From the state `s₀` on the store satisfies `J`, and the calls that start
there hold only answers the store gave under `J`. -/
structure After (s₀ : State S R K V) (J : S → Prop) (Q : R → V → Prop) (s : State S R K V) :
    Prop where
  fresh : Fresh s
  next_le : s₀.next ≤ s.next
  store : J s.store
  calls : ∀ i x, s.calls i = some x → s₀.next ≤ i → x.Sat (fun _ => True) Q

theorem after_start {s₀ : State S R K V} {J : S → Prop} {Q : R → V → Prop} (hf : Fresh s₀)
    (hJ : J s₀.store) : After s₀ J Q s₀ where
  fresh := hf
  next_le := le_rfl
  store := hJ
  calls i x h hi := absurd hi (not_le_of_gt (hf i x h))

variable [DecidableEq K] (svc : Service S E O R K V)

/-- A call takes the identifier `next`; a hit returns within the lookup. -/
def step : Step (State S R K V) (Event E R K) (Output O R V)
  | s, .start r =>
      match s.cache (svc.keyOf r) with
      | some v => some ({ s with next := s.next + 1 }, .returned s.next r v)
      | none => some ({ s with calls := Function.update s.calls s.next (some (.waiting r)),
                               next := s.next + 1 }, .missed s.next r)
  | s, .respond id =>
      match s.calls id with
      | some (.waiting r) =>
          match svc.fetch s.store r with
          | some v => some ({ s with calls := Function.update s.calls id (some (.fetched r v)) },
              .answered id)
          | none => some ({ s with calls := Function.update s.calls id none }, .failed id r)
      | _ => none
  | s, .fail id =>
      match s.calls id with
      | some (.waiting r) =>
          some ({ s with calls := Function.update s.calls id none }, .failed id r)
      | _ => none
  | s, .fill id =>
      match s.calls id with
      | some (.fetched r v) =>
          some ({ s with cache := Function.update s.cache (svc.keyOf r) (some v),
                         calls := Function.update s.calls id none }, .returned id r v)
      | _ => none
  | s, .evict k => some ({ s with cache := Function.update s.cache k none }, .done)
  | s, .restart => some ({ s with cache := fun _ => none, calls := fun _ => none }, .done)
  | s, .store e =>
      match svc.store s.store e with
      | some (t, o) => some ({ s with store := t }, .store o)
      | none => none

inductive Effect (s : State S R K V) : Event E R K → Output O R V → State S R K V → Prop
  | hit {r v} (h : s.cache (svc.keyOf r) = some v) :
      Effect s (.start r) (.returned s.next r v) { s with next := s.next + 1 }
  | miss {r} (h : s.cache (svc.keyOf r) = none) :
      Effect s (.start r) (.missed s.next r)
        { s with calls := Function.update s.calls s.next (some (.waiting r)), next := s.next + 1 }
  | answer {id r v} (h : s.calls id = some (.waiting r)) (hf : svc.fetch s.store r = some v) :
      Effect s (.respond id) (.answered id)
        { s with calls := Function.update s.calls id (some (.fetched r v)) }
  | refuse {id r} (h : s.calls id = some (.waiting r)) (hf : svc.fetch s.store r = none) :
      Effect s (.respond id) (.failed id r) { s with calls := Function.update s.calls id none }
  | fail {id r} (h : s.calls id = some (.waiting r)) :
      Effect s (.fail id) (.failed id r) { s with calls := Function.update s.calls id none }
  | fill {id r v} (h : s.calls id = some (.fetched r v)) :
      Effect s (.fill id) (.returned id r v)
        { s with cache := Function.update s.cache (svc.keyOf r) (some v),
                 calls := Function.update s.calls id none }
  | evict {k} : Effect s (.evict k) .done { s with cache := Function.update s.cache k none }
  | restart : Effect s .restart .done { s with cache := fun _ => none, calls := fun _ => none }
  | store {e t o} (h : svc.store s.store e = some (t, o)) :
      Effect s (.store e) (.store o) { s with store := t }

variable {svc} {s s' : State S R K V} {e : Event E R K} {o : Output O R V}

theorem step_effect (h : svc.step s e = some (s', o)) : svc.Effect s e o s' := by
  cases e with
  | start r =>
      cases hc : s.cache (svc.keyOf r) with
      | some v =>
          simp only [step, hc, Option.some.injEq, Prod.mk.injEq] at h
          obtain ⟨rfl, rfl⟩ := h
          exact .hit hc
      | none =>
          simp only [step, hc, Option.some.injEq, Prod.mk.injEq] at h
          obtain ⟨rfl, rfl⟩ := h
          exact .miss hc
  | respond id =>
      rcases hc : s.calls id with _ | ⟨r⟩ | ⟨r, v⟩
      · simp [step, hc] at h
      · cases hf : svc.fetch s.store r with
        | some v =>
            simp only [step, hc, hf, Option.some.injEq, Prod.mk.injEq] at h
            obtain ⟨rfl, rfl⟩ := h
            exact .answer hc hf
        | none =>
            simp only [step, hc, hf, Option.some.injEq, Prod.mk.injEq] at h
            obtain ⟨rfl, rfl⟩ := h
            exact .refuse hc hf
      · simp [step, hc] at h
  | fail id =>
      rcases hc : s.calls id with _ | ⟨r⟩ | ⟨r, v⟩
      · simp [step, hc] at h
      · simp only [step, hc, Option.some.injEq, Prod.mk.injEq] at h
        obtain ⟨rfl, rfl⟩ := h
        exact .fail hc
      · simp [step, hc] at h
  | fill id =>
      rcases hc : s.calls id with _ | ⟨r⟩ | ⟨r, v⟩
      · simp [step, hc] at h
      · simp [step, hc] at h
      · simp only [step, hc, Option.some.injEq, Prod.mk.injEq] at h
        obtain ⟨rfl, rfl⟩ := h
        exact .fill hc
  | evict k =>
      simp only [step, Option.some.injEq, Prod.mk.injEq] at h
      obtain ⟨rfl, rfl⟩ := h
      exact .evict
  | restart =>
      simp only [step, Option.some.injEq, Prod.mk.injEq] at h
      obtain ⟨rfl, rfl⟩ := h
      exact .restart
  | store e =>
      cases hs : svc.store s.store e with
      | none => simp [step, hs] at h
      | some p =>
          simp only [step, hs, Option.some.injEq, Prod.mk.injEq] at h
          obtain ⟨rfl, rfl⟩ := h
          exact .store hs

/-- A call that misses and runs by itself returns the store's answer and caches it. -/
theorem run_miss {r : R} {v : V} (hc : s.cache (svc.keyOf r) = none)
    (hf : svc.fetch s.store r = some v) :
    ∃ s', Run svc.step s [(.start r, .missed s.next r), (.respond s.next, .answered s.next),
        (.fill s.next, .returned s.next r v)] s' ∧
      s'.cache = Function.update s.cache (svc.keyOf r) (some v) ∧ s'.store = s.store := by
  let calls₁ := Function.update s.calls s.next (some (.waiting r))
  let calls₂ := Function.update calls₁ s.next (some (.fetched r v))
  have h₁ : svc.step s (.start r) =
      some ({ s with calls := calls₁, next := s.next + 1 }, .missed s.next r) := by
    simp only [step, hc, calls₁]
  have h₂ : svc.step { s with calls := calls₁, next := s.next + 1 } (.respond s.next) =
      some ({ s with calls := calls₂, next := s.next + 1 }, .answered s.next) := by
    simp only [step, calls₁, calls₂, Function.update_self, hf]
  have h₃ : svc.step { s with calls := calls₂, next := s.next + 1 } (.fill s.next) =
      some ({ s with cache := Function.update s.cache (svc.keyOf r) (some v)
                     calls := Function.update calls₂ s.next none, next := s.next + 1 },
        .returned s.next r v) := by
    simp only [step, calls₂, Function.update_self]
  exact ⟨_, ⟨_, h₁, _, h₂, _, h₃, rfl⟩, rfl, rfl⟩

theorem run_fill_hit {id : ℕ} {r : R} {v : V} (h : s.calls id = some (.fetched r v)) :
    ∃ s', Run svc.step s [(.fill id, .returned id r v), (.start r, .returned s.next r v)] s' := by
  let cache := Function.update s.cache (svc.keyOf r) (some v)
  let calls := Function.update s.calls id none
  have h₁ : svc.step s (.fill id) = some ({ s with cache, calls }, .returned id r v) := by
    simp only [step, h, cache, calls]
  have h₂ : svc.step { s with cache, calls } (.start r) =
      some ({ s with cache, calls, next := s.next + 1 }, .returned s.next r v) := by
    simp only [step, cache, Function.update_self]
  exact ⟨_, _, h₁, _, h₂, rfl⟩

variable (svc s) in
/-- The answer to a request made by itself, `none` if the store has none, and the cache
after it. -/
def answer (r : R) : (K → Option V) × Option V :=
  match s.cache (svc.keyOf r) with
  | some v => (s.cache, some v)
  | none =>
      match svc.fetch s.store r with
      | some v => (Function.update s.cache (svc.keyOf r) (some v), some v)
      | none => (s.cache, none)

variable {Req : R → Prop} {A : E × O → Prop} {Inv : S → Prop} {Ok : S → R → V → Prop}

theorem step_good (hs : svc.Sound Req A Inv Ok) (hp : Permitted Req A (e, o))
    (hg : svc.Good Req Inv Ok s) (h : svc.step s e = some (s', o)) :
    svc.Good Req Inv Ok s' := by
  cases step_effect h with
  | hit hc => exact ⟨hg.inv, hg.cached, hg.calls⟩
  | miss hc =>
      refine ⟨hg.inv, hg.cached, update_forall hg.calls ?_⟩
      rintro _ ⟨⟩
      exact hp
  | answer hc hf =>
      have hr : Req _ := hg.calls _ _ hc
      refine ⟨hg.inv, hg.cached, update_forall hg.calls ?_⟩
      rintro _ ⟨⟩
      exact ⟨hr, hs.fetch_ok hg.inv hr hf⟩
  | refuse hc hf => exact ⟨hg.inv, hg.cached, update_forall hg.calls (by rintro _ ⟨⟩)⟩
  | fail hc => exact ⟨hg.inv, hg.cached, update_forall hg.calls (by rintro _ ⟨⟩)⟩
  | fill hc =>
      obtain ⟨hr, hok⟩ := hg.calls _ _ hc
      refine ⟨hg.inv, update_forall hg.cached ?_, update_forall hg.calls (by rintro _ ⟨⟩)⟩
      rintro _ ⟨⟩
      exact ⟨_, hr, rfl, hok⟩
  | evict => exact ⟨hg.inv, update_forall hg.cached (by rintro _ ⟨⟩), hg.calls⟩
  | restart => exact ⟨hg.inv, fun _ _ h => (by cases h), fun _ _ h => (by cases h)⟩
  | store hc =>
      refine ⟨hs.inv hp hg.inv hc, ?_, ?_⟩
      · intro k v hk
        obtain ⟨r, hr, hkey, hok⟩ := hg.cached k v hk
        exact ⟨r, hr, hkey, hs.stable hp hg.inv hc hr hok⟩
      · intro i x hk
        have hx := hg.calls i x hk
        cases x with
        | waiting r => exact hx
        | fetched r v => exact ⟨hx.1, hs.stable hp hg.inv hc hx.1 hx.2⟩

theorem run_good (hs : svc.Sound Req A Inv Ok) {tr} (h : Run svc.step s tr s')
    (hp : ∀ x ∈ tr, Permitted Req A x) (hg : svc.Good Req Inv Ok s) : svc.Good Req Inv Ok s' :=
  h.invariant (fun _ _ _ _ hA hm hstep => step_good hs hA hm hstep) hp hg

/-- What the store's permitted events keep, the whole service keeps. -/
theorem run_store {I : S → Prop}
    (hI : ∀ {t e o t'}, A (e, o) → I t → svc.store t e = some (t', o) → I t') {tr}
    (h : Run svc.step s tr s') (hp : ∀ x ∈ tr, Permitted Req A x) (h0 : I s.store) :
    I s'.store := by
  refine h.invariant (I := fun s => I s.store) ?_ hp h0
  intro m e o m' hA hm hstep
  cases step_effect hstep with
  | store hc => exact hI hA hm hc
  | _ => exact hm

/-- Every answer a call returns is acceptable for its request at that moment. -/
theorem returned_ok (hs : svc.Sound Req A Inv Ok) (hp : Permitted Req A (e, o))
    (hg : svc.Good Req Inv Ok s) (h : svc.step s e = some (s', o)) {id : ℕ} {r : R} {v : V}
    (ho : o = .returned id r v) : Req r ∧ Ok s'.store r v := by
  cases step_effect h with
  | hit hc =>
      cases ho
      exact ⟨hp, hg.cached_ok hs hp hc⟩
  | fill hc =>
      cases ho
      exact hg.calls _ _ hc
  | _ => cases ho

/-- What a call of the run has returned is still acceptable at the end of the run. -/
theorem run_returned_ok (hs : svc.Sound Req A Inv Ok) {tr} (h : Run svc.step s tr s')
    (hp : ∀ x ∈ tr, Permitted Req A x) (hg : svc.Good Req Inv Ok s) {id : ℕ} {r : R} {v : V}
    (hmem : (e, .returned id r v) ∈ tr) : Req r ∧ Ok s'.store r v := by
  obtain ⟨tr₁, tr₂, rfl⟩ := List.append_of_mem hmem
  obtain ⟨m, m', hm, hstep, hrest⟩ := run_append_cons.mp h
  have hgm := run_good hs hm (fun x hx => hp x (List.mem_append_left _ hx)) hg
  have hgm' := step_good hs (hp _ hmem) hgm hstep
  obtain ⟨hr, hok⟩ := returned_ok hs (hp _ hmem) hgm hstep rfl
  refine ⟨hr, (run_store (I := fun t => Inv t ∧ Ok t r v) ?_ hrest
    (fun x hx => hp x (List.mem_append_right _ (List.mem_cons_of_mem _ hx))) ⟨hgm'.inv, hok⟩).2⟩
  intro t e o t' hA hI hstore
  exact ⟨hs.inv hA hI.1 hstore, hs.stable hA hI.1 hstore hr hI.2⟩

theorem Good.answer_ok (hs : svc.Sound Req A Inv Ok) (hg : svc.Good Req Inv Ok s) {r : R} {v : V}
    (hr : Req r) (h : (svc.answer s r).2 = some v) : Ok s.store r v := by
  unfold answer at h
  cases hc : s.cache (svc.keyOf r) with
  | some w =>
      simp only [hc] at h
      cases h
      exact hg.cached_ok hs hr hc
  | none =>
      cases hf : svc.fetch s.store r with
      | none =>
          simp only [hc, hf] at h
          cases h
      | some w =>
          simp only [hc, hf] at h
          cases h
          exact hs.fetch_ok hg.inv hr hf

theorem step_fresh (hf : Fresh s) (h : svc.step s e = some (s', o)) :
    Fresh s' ∧ s.next ≤ s'.next := by
  cases step_effect h with
  | hit hc => exact ⟨fun i x hi => Nat.lt_succ_of_lt (hf i x hi), Nat.le_succ _⟩
  | miss hc =>
      refine ⟨update_forall (fun i x hi => Nat.lt_succ_of_lt (hf i x hi)) ?_, Nat.le_succ _⟩
      rintro _ ⟨⟩
      exact Nat.lt_succ_self _
  | answer hc _ =>
      refine ⟨update_forall hf ?_, le_rfl⟩
      rintro _ ⟨⟩
      exact hf _ _ hc
  | refuse hc _ => exact ⟨update_forall hf (by rintro _ ⟨⟩), le_rfl⟩
  | fail hc => exact ⟨update_forall hf (by rintro _ ⟨⟩), le_rfl⟩
  | fill hc => exact ⟨update_forall hf (by rintro _ ⟨⟩), le_rfl⟩
  | evict => exact ⟨hf, le_rfl⟩
  | restart => exact ⟨fun _ _ h => (by cases h), le_rfl⟩
  | store hc => exact ⟨hf, le_rfl⟩

theorem run_fresh {tr} (h : Run svc.step s tr s') (hf : Fresh s) : Fresh s' :=
  h.preserves (fun _ _ _ _ hm hstep => (step_fresh hm hstep).1) hf

theorem run_next_le {tr} (h : Run svc.step s tr s') (hf : Fresh s) : s.next ≤ s'.next := by
  refine (h.preserves (I := fun m => Fresh m ∧ s.next ≤ m.next) ?_ ⟨hf, le_rfl⟩).2
  intro m e o m' hm hstep
  obtain ⟨hfresh, hle⟩ := step_fresh hm.1 hstep
  exact ⟨hfresh, hm.2.trans hle⟩

variable {s₀ : State S R K V} {J : S → Prop} {Q : R → V → Prop}

theorem step_after
    (hJ : ∀ {t e o t'}, A (e, o) → J t → svc.store t e = some (t', o) → J t')
    (hQ : ∀ {t r v}, J t → svc.fetch t r = some v → Q r v)
    (hp : Permitted Req A (e, o)) (ha : After s₀ J Q s) (h : svc.step s e = some (s', o)) :
    After s₀ J Q s' := by
  obtain ⟨hfresh, hle⟩ := step_fresh ha.fresh h
  have hnext := ha.next_le.trans hle
  cases step_effect h with
  | hit _ => exact ⟨hfresh, hnext, ha.store, ha.calls⟩
  | miss _ =>
      refine ⟨hfresh, hnext, ha.store, update_forall ha.calls ?_⟩
      rintro _ ⟨⟩ _
      exact trivial
  | answer _ hf =>
      refine ⟨hfresh, hnext, ha.store, update_forall ha.calls ?_⟩
      rintro _ ⟨⟩ _
      exact ⟨trivial, hQ ha.store hf⟩
  | refuse _ _ => exact ⟨hfresh, hnext, ha.store, update_forall ha.calls (by rintro _ ⟨⟩)⟩
  | fail _ => exact ⟨hfresh, hnext, ha.store, update_forall ha.calls (by rintro _ ⟨⟩)⟩
  | fill _ => exact ⟨hfresh, hnext, ha.store, update_forall ha.calls (by rintro _ ⟨⟩)⟩
  | evict => exact ⟨hfresh, hnext, ha.store, ha.calls⟩
  | restart => exact ⟨hfresh, hnext, ha.store, fun _ _ h => (by cases h)⟩
  | store hc => exact ⟨hfresh, hnext, hJ hp ha.store hc, ha.calls⟩

theorem run_after
    (hJ : ∀ {t e o t'}, A (e, o) → J t → svc.store t e = some (t', o) → J t')
    (hQ : ∀ {t r v}, J t → svc.fetch t r = some v → Q r v) {tr}
    (h : Run svc.step s tr s') (hp : ∀ x ∈ tr, Permitted Req A x) (ha : After s₀ J Q s) :
    After s₀ J Q s' :=
  h.invariant (fun _ _ _ _ hA hm hstep => step_after hJ hQ hA hm hstep) hp ha

/-- A call that starts in `s` has the identifier `s.next`. It returns what the cache held
in `s`, or an answer that the store gave since. -/
theorem call_returned
    (hJ : ∀ {t e o t'}, A (e, o) → J t → svc.store t e = some (t', o) → J t')
    (hQ : ∀ {t r v}, J t → svc.fetch t r = some v → Q r v) (hf : Fresh s) (hs : J s.store)
    {r : R} {o₀ : Output O R V} {tr} (h : Run svc.step s ((.start r, o₀) :: tr) s')
    (hp : ∀ x ∈ (.start r, o₀) :: tr, Permitted Req A x) {r' : R} {v : V}
    (hmem : (e, .returned s.next r' v) ∈ (.start r, o₀) :: tr) :
    (e = .start r' ∧ s.cache (svc.keyOf r') = some v) ∨ Q r' v := by
  obtain ⟨a, b, hab⟩ := List.append_of_mem hmem
  rw [hab] at h hp
  obtain ⟨m, m', hm, hstep, _⟩ := run_append_cons.mp h
  have ha : After s J Q m := run_after hJ hQ hm
    (fun x hx => hp x (List.mem_append_left _ hx)) (after_start hf hs)
  generalize ho : Output.returned s.next r' v = o at hstep
  cases step_effect hstep with
  | hit hc =>
      -- only the first event has this identifier: later ones find a larger `next`
      cases a with
      | nil =>
          cases hm
          obtain ⟨_, rfl, rfl⟩ := Output.returned.inj ho
          exact .inl ⟨rfl, hc⟩
      | cons x a =>
          cases hab
          obtain ⟨s₁, h₁, hrest⟩ := hm
          have hfresh := (step_fresh hf h₁).1
          have hnext : s₁.next = s.next + 1 := by
            cases step_effect h₁ <;> rfl
          have hle := run_next_le hrest hfresh
          have hid := (Output.returned.inj ho).1
          omega
  | fill hc =>
      cases ho
      exact .inr (ha.calls _ _ hc le_rfl).2
  | _ => cases ho

end Service
end ReadThrough
