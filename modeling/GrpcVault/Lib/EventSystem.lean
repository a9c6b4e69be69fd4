import Mathlib

/-!
# Runs of event systems

An event system is a partial step function: an event takes a state to the next
one and yields an output, or cannot happen there. A run is the list of its
events with their outputs. The rules below carry a property from the first
state of a run to the last: `Run.snocInduction` for a property of the trace and the
state, `Run.invariant` for a property of the state alone under a restriction on
the events, `Run.preserves` without one, `Run.monotone` for a quantity that never decreases,
`Run.invariantThroughout` where the restriction is on the events and the states in which they
happen. `Sometime` says that a state along the way has a property, `Occurs` that an event has one
in the state in which it happens, `Run.shown` that the trace shows what the last state has.
`run_map_iff` carries whole runs from one system to another, `Run.purge` takes events out of a
run that the others do not depend on, `run_accumulates_iff` describes the runs of a system whose
state is a function of what its events have added. `clock` and `collect` read a trace whose
events take time: when it ends, and what is to be seen along it with the time. `Since` is the
last event of a kind, given its time, with no event of another kind after it. `Handles` leaves
the outputs aside: a list of given events, and where it leads if no event is stuck.
-/

namespace EventSystem

variable {σ ε ω : Type*}

abbrev Step (σ ε ω : Type*) := σ → ε → Option (σ × ω)

def Run (step : Step σ ε ω) : σ → List (ε × ω) → σ → Prop
  | s, [], s' => s = s'
  | s, (e, o) :: tr, s' => ∃ s₁, step s e = some (s₁, o) ∧ Run step s₁ tr s'

variable {step : Step σ ε ω} {s s' : σ} {tr tr₁ tr₂ : List (ε × ω)}

@[simp] theorem run_nil : Run step s [] s' ↔ s = s' := Iff.rfl

theorem run_cons {e : ε} {o : ω} :
    Run step s ((e, o) :: tr) s' ↔ ∃ s₁, step s e = some (s₁, o) ∧ Run step s₁ tr s' := Iff.rfl

theorem run_append :
    Run step s (tr₁ ++ tr₂) s' ↔ ∃ m, Run step s tr₁ m ∧ Run step m tr₂ s' := by
  induction tr₁ generalizing s with
  | nil => simp
  | cons x tr₁ ih =>
      obtain ⟨e, o⟩ := x
      simp only [List.cons_append, run_cons, ih]
      constructor
      · rintro ⟨s₁, hs, m, hm, ht⟩
        exact ⟨m, ⟨s₁, hs, hm⟩, ht⟩
      · rintro ⟨m, ⟨s₁, hs, hm⟩, ht⟩
        exact ⟨s₁, hs, m, hm, ht⟩

theorem run_append_cons {e : ε} {o : ω} :
    Run step s (tr₁ ++ (e, o) :: tr₂) s' ↔
      ∃ m m', Run step s tr₁ m ∧ step m e = some (m', o) ∧ Run step m' tr₂ s' := by
  rw [run_append]
  constructor
  · rintro ⟨m, hm, m', hs, ht⟩
    exact ⟨m, m', hm, hs, ht⟩
  · rintro ⟨m, m', hm, hs, ht⟩
    exact ⟨m, hm, m', hs, ht⟩

theorem run_snoc {e : ε} {o : ω} :
    Run step s (tr ++ [(e, o)]) s' ↔ ∃ m, Run step s tr m ∧ step m e = some (s', o) := by
  rw [run_append_cons]
  constructor
  · rintro ⟨m, m', hm, hs, rfl⟩
    exact ⟨m, hm, hs⟩
  · rintro ⟨m, hm, hs⟩
    exact ⟨m, s', hm, hs, rfl⟩

theorem Run.unique {t t' : σ} (h : Run step s tr t) (h' : Run step s tr t') : t = t' := by
  induction tr generalizing s with
  | nil => exact h.symm.trans h'
  | cons x tr ih =>
      obtain ⟨m, hs, ht⟩ := h
      obtain ⟨m', hs', ht'⟩ := h'
      rw [hs] at hs'
      cases hs'
      exact ih ht ht'

theorem Run.outputs_unique {t t' : σ} {tr' : List (ε × ω)} (h : Run step s tr t)
    (h' : Run step s tr' t') (hevents : tr.map Prod.fst = tr'.map Prod.fst) : tr = tr' := by
  induction tr generalizing s tr' with
  | nil => exact (List.map_eq_nil_iff.mp hevents.symm).symm
  | cons x tr ih =>
      cases tr' with
      | nil => cases hevents
      | cons x' tr' =>
          obtain ⟨e, o⟩ := x
          obtain ⟨e', o'⟩ := x'
          obtain ⟨rfl, htail⟩ : e = e' ∧ tr.map Prod.fst = tr'.map Prod.fst := by
            simpa using hevents
          obtain ⟨m, hs, ht⟩ := h
          obtain ⟨m', hs', ht'⟩ := h'
          rw [hs] at hs'
          cases hs'
          rw [ih ht ht' htail]

/-- Where `R` relates states that the seen events cannot tell apart, and the others do not
leave it, a run without the others has the same outputs. -/
theorem Run.purge {R : σ → σ → Prop} {p : ε × ω → Bool}
    (hhidden : ∀ m n e o m', R m n → p (e, o) = false → step m e = some (m', o) → R m' n)
    (hseen : ∀ m n e o m', R m n → p (e, o) = true → step m e = some (m', o) →
      ∃ n', step n e = some (n', o) ∧ R m' n')
    (h : Run step s tr s') {t : σ} (h0 : R s t) : ∃ t', Run step t (tr.filter p) t' ∧ R s' t' := by
  induction tr generalizing s t with
  | nil => exact ⟨t, rfl, h ▸ h0⟩
  | cons x tr ih =>
      obtain ⟨s₁, hs, ht⟩ := h
      by_cases hx : p x = true
      · obtain ⟨t₁, ht₁, hR⟩ := hseen s t x.1 x.2 s₁ h0 hx hs
        obtain ⟨t', ht', hR'⟩ := ih ht hR
        rw [List.filter_cons_of_pos hx]
        exact ⟨t', ⟨t₁, ht₁, ht'⟩, hR'⟩
      · rw [List.filter_cons_of_neg hx]
        exact ih ht (hhidden s t x.1 x.2 s₁ h0 (Bool.of_not_eq_true hx) hs)

theorem Run.snocInduction {I : List (ε × ω) → σ → Prop} (h0 : I [] s)
    (hstep : ∀ tr m e o m', Run step s tr m → I tr m → step m e = some (m', o) →
      I (tr ++ [(e, o)]) m')
    (h : Run step s tr s') : I tr s' := by
  induction tr using List.reverseRecOn generalizing s' with
  | nil => exact h ▸ h0
  | append_singleton tr x ih =>
      obtain ⟨m, hm, hs⟩ := run_snoc.mp h
      exact hstep tr m x.1 x.2 s' hm (ih hm) hs

/-- A property kept by every permitted event holds at the end of every run of
permitted events that starts with it. -/
theorem Run.invariant {I : σ → Prop} {A : ε × ω → Prop}
    (hstep : ∀ m e o m', A (e, o) → I m → step m e = some (m', o) → I m')
    (h : Run step s tr s') (hA : ∀ x ∈ tr, A x) (h0 : I s) : I s' := by
  induction tr generalizing s with
  | nil => exact h ▸ h0
  | cons x tr ih =>
      obtain ⟨s₁, hs, ht⟩ := h
      exact ih ht (fun y hy => hA y (List.mem_cons_of_mem _ hy))
        (hstep s x.1 x.2 s₁ (hA x List.mem_cons_self) h0 hs)

theorem Run.preserves {I : σ → Prop} (hstep : ∀ m e o m', I m → step m e = some (m', o) → I m')
    (h : Run step s tr s') (h0 : I s) : I s' :=
  h.invariant (A := fun _ => True) (fun m e o m' _ => hstep m e o m') (fun _ _ => trivial) h0

theorem Run.monotone {α : Type*} [Preorder α] {f : σ → α}
    (hstep : ∀ m e o m', step m e = some (m', o) → f m ≤ f m') (h : Run step s tr s') :
    f s ≤ f s' :=
  h.preserves (I := fun m => f s ≤ f m) (fun m e o m' hm hs => hm.trans (hstep m e o m' hs)) le_rfl

section FilterMap

variable {α : Type*} {f : ε × ω → Option α} {a : α}

theorem filterMap_snoc (f : ε × ω → Option α) (tr : List (ε × ω)) (x : ε × ω) :
    (tr ++ [x]).filterMap f = tr.filterMap f ++ (f x).toList := by
  cases h : f x <;> simp [List.filterMap_append, h]

/-- If every event shows something else, none shows again what an earlier one has shown. -/
theorem not_shown_again (h : ((tr₁ ++ tr₂).filterMap f).Nodup) (ha : a ∈ tr₁.filterMap f) :
    ∀ x ∈ tr₂, f x ≠ some a := by
  intro x hx hfx
  rw [List.filterMap_append] at h
  exact (List.nodup_append.mp h).2.2 a ha a (List.mem_filterMap.mpr ⟨x, hx, hfx⟩) rfl

/-- If a state has nothing but what the events put there, and they show it, the trace shows
what the last state has. -/
theorem Run.shown {P : σ → α → Prop}
    (hstep : ∀ m e o m' a, step m e = some (m', o) → P m' a →
      P m a ∨ f (e, o) = some a)
    (h : Run step s tr s') (h0 : ∀ a, ¬ P s a) (ha : P s' a) : a ∈ tr.filterMap f := by
  refine h.snocInduction (I := fun tr m => ∀ a, P m a → a ∈ tr.filterMap f) ?_ ?_ a ha
  · intro a ha
    exact absurd ha (h0 a)
  · intro tr m e o m' _ ih hs a ha
    rw [filterMap_snoc, List.mem_append]
    obtain hold | hnew := hstep m e o m' a hs ha
    · exact .inl (ih a hold)
    · exact .inr (by rw [hnew]; exact List.mem_singleton_self a)

end FilterMap

/-- Where `f` takes each step of one system to the same step of another, from states with an
invariant, the two have the same runs. -/
theorem run_map_iff {τ : Type*} {step' : Step τ ε ω} {f : σ → τ} {I : σ → Prop} {t : τ}
    (hI : ∀ m e o m', I m → step m e = some (m', o) → I m')
    (hf : ∀ m e, I m → step' (f m) e = (step m e).map (Prod.map f id)) (h0 : I s) :
    Run step' (f s) tr t ↔ ∃ s', Run step s tr s' ∧ f s' = t := by
  induction tr generalizing s with
  | nil => simp
  | cons x tr ih =>
      obtain ⟨e, o⟩ := x
      simp only [run_cons, hf s e h0]
      constructor
      · rintro ⟨t₁, hstep, hrun⟩
        obtain ⟨⟨s₁, o'⟩, hs, heq⟩ := Option.map_eq_some_iff.mp hstep
        obtain ⟨rfl, rfl⟩ := Prod.mk.inj heq
        obtain ⟨s', hs', rfl⟩ := (ih (hI s e o' s₁ h0 hs)).mp hrun
        exact ⟨s', ⟨s₁, hs, hs'⟩, rfl⟩
      · rintro ⟨s', ⟨s₁, hs, hs'⟩, rfl⟩
        refine ⟨f s₁, ?_, (ih (hI s e o s₁ h0 hs)).mpr ⟨s', hs', rfl⟩⟩
        rw [hs]
        rfl

/-- If the state is given by a list, to which an event that yields `o` adds its part and which
it is possible for only under `A`, so are the runs in which every event yields `o`. -/
theorem run_accumulates_iff {α : Type*} (state : List α → σ) (A : ε → Prop) (part : ε → List α)
    {o : ω} (hstep : ∀ w e m', step (state w) e = some (m', o) ↔ A e ∧ m' = state (w ++ part e))
    {es : List ε} {w : List α} :
    Run step (state w) (es.map fun e => (e, o)) s' ↔
      (∀ e ∈ es, A e) ∧ s' = state (w ++ es.flatMap part) := by
  induction es generalizing w with
  | nil => simp [eq_comm]
  | cons e es ih =>
      rw [List.map_cons, run_cons, List.forall_mem_cons, List.flatMap_cons, ← List.append_assoc]
      constructor
      · rintro ⟨m, hm, hrun⟩
        obtain ⟨he, rfl⟩ := (hstep w e m).mp hm
        obtain ⟨hes, hs'⟩ := ih.mp hrun
        exact ⟨⟨he, hes⟩, hs'⟩
      · rintro ⟨⟨he, hes⟩, hs'⟩
        exact ⟨_, (hstep w e _).mpr ⟨he, rfl⟩, ih.mpr ⟨hes, hs'⟩⟩

/-- Every event of `tr` from `s` meets `P` in the state in which it happens. -/
def Throughout (step : Step σ ε ω) (P : σ → ε → Prop) : σ → List (ε × ω) → Prop
  | _, [] => True
  | s, (e, o) :: tr => P s e ∧ ∀ s₁, step s e = some (s₁, o) → Throughout step P s₁ tr

theorem Run.invariantThroughout {I : σ → Prop} {P : σ → ε → Prop}
    (hstep : ∀ m e o m', P m e → I m → step m e = some (m', o) → I m')
    (h : Run step s tr s') (hP : Throughout step P s tr) (h0 : I s) : I s' := by
  induction tr generalizing s with
  | nil => exact h ▸ h0
  | cons x tr ih =>
      obtain ⟨s₁, hs, ht⟩ := h
      obtain ⟨hP₀, hP₁⟩ := hP
      exact ih ht (hP₁ s₁ hs) (hstep s x.1 x.2 s₁ hP₀ h0 hs)

theorem throughout_snoc {P : σ → ε → Prop} {e : ε} {o : ω} {m : σ} (hrun : Run step s tr m)
    (h : Throughout step P s (tr ++ [(e, o)])) : Throughout step P s tr ∧ P m e := by
  induction tr generalizing s with
  | nil =>
      obtain rfl : s = m := hrun
      exact ⟨trivial, h.1⟩
  | cons x tr ih =>
      obtain ⟨s₁, hs, hrun⟩ := hrun
      obtain ⟨hP, hrest⟩ := h
      obtain ⟨htr, hm⟩ := ih hrun (hrest s₁ hs)
      refine ⟨⟨hP, fun s₂ hs₂ => ?_⟩, hm⟩
      rw [hs] at hs₂
      cases hs₂
      exact htr

/-- Some state along the run of `tr` from `s` satisfies `Q`. -/
def Sometime (step : Step σ ε ω) (Q : σ → Prop) (s : σ) (tr : List (ε × ω)) : Prop :=
  ∃ tr₁ m, tr₁ <+: tr ∧ Run step s tr₁ m ∧ Q m

variable {Q : σ → Prop}

theorem Run.sometime (h : Run step s tr s') (hQ : Q s') : Sometime step Q s tr :=
  ⟨tr, s', List.prefix_rfl, h, hQ⟩

theorem Sometime.append (h : Sometime step Q s tr₁) : Sometime step Q s (tr₁ ++ tr₂) := by
  obtain ⟨tr, m, hpre, hm, hQ⟩ := h
  exact ⟨tr, m, hpre.trans (List.prefix_append _ _), hm, hQ⟩

theorem Sometime.invariant {I : σ → Prop} {A : ε × ω → Prop}
    (hstep : ∀ m e o m', A (e, o) → I m → step m e = some (m', o) → I m')
    (h : Sometime step Q s tr) (hA : ∀ x ∈ tr, A x) (h0 : I s) : ∃ m, Q m ∧ I m := by
  obtain ⟨tr₁, m, hpre, hm, hQ⟩ := h
  exact ⟨m, hQ, hm.invariant hstep (fun x hx => hA x (hpre.subset hx)) h0⟩

section Occurs

/-- Some event of the run of `tr` from `s` meets `P` in the state in which it happens. -/
def Occurs (step : Step σ ε ω) (P : σ → ε × ω → Prop) (s : σ) (tr : List (ε × ω)) : Prop :=
  ∃ tr₁ x tr₂ m, tr = tr₁ ++ x :: tr₂ ∧ Run step s tr₁ m ∧ P m x

variable {P : σ → ε × ω → Prop}

theorem occurs_snoc {m : σ} {x : ε × ω} (hrun : Run step s tr m) :
    Occurs step P s (tr ++ [x]) ↔ Occurs step P s tr ∨ P m x := by
  constructor
  · rintro ⟨tr₁, y, tr₂, n, htr, hn, hP⟩
    obtain rfl | ⟨tr₂, z, rfl⟩ := tr₂.eq_nil_or_concat'
    · obtain ⟨rfl, hxy⟩ := List.append_inj' htr rfl
      rw [List.singleton_inj.mp hxy, hrun.unique hn]
      exact .inr hP
    · rw [← List.cons_append, ← List.append_assoc] at htr
      exact .inl ⟨tr₁, y, tr₂, n, (List.append_inj' htr rfl).1, hn, hP⟩
  · rintro (⟨tr₁, y, tr₂, n, rfl, hn, hP⟩ | hP)
    · exact ⟨tr₁, y, tr₂ ++ [x], n, by rw [List.append_assoc, List.cons_append], hn, hP⟩
    · exact ⟨tr, x, [], m, rfl, hrun, hP⟩

theorem occurs_cons {m : σ} {x : ε × ω} (hs : step s x.1 = some (m, x.2)) :
    Occurs step P s (x :: tr) ↔ P s x ∨ Occurs step P m tr := by
  constructor
  · rintro ⟨tr₁, y, tr₂, n, htr, hn, hP⟩
    cases tr₁ with
    | nil =>
        cases htr
        rw [← run_nil.mp hn] at hP
        exact .inl hP
    | cons z tr₁ =>
        cases htr
        obtain ⟨m', hs', hn⟩ := hn
        rw [hs] at hs'
        cases hs'
        exact .inr ⟨tr₁, y, tr₂, n, rfl, hn, hP⟩
  · rintro (hP | ⟨tr₁, y, tr₂, n, rfl, hn, hP⟩)
    · exact ⟨[], x, tr, s, rfl, rfl, hP⟩
    · exact ⟨x :: tr₁, y, tr₂, n, rfl, ⟨m, hs, hn⟩, hP⟩

theorem Occurs.of_isPrefix (h : Occurs step P s tr₁) (hpre : tr₁ <+: tr) : Occurs step P s tr := by
  obtain ⟨tr₂, x, tr₃, m, rfl, hm, hx⟩ := h
  obtain ⟨tr₄, rfl⟩ := hpre
  exact ⟨tr₂, x, tr₃ ++ tr₄, m, by rw [List.append_assoc, List.cons_append], hm, hx⟩

end Occurs

section Handles

/-- The events happen one after the other and lead from `s` to `s'`, whatever they yield. -/
def Handles (step : Step σ ε ω) : σ → List ε → σ → Prop
  | s, [], s' => s = s'
  | s, e :: es, s' => ∃ s₁ o, step s e = some (s₁, o) ∧ Handles step s₁ es s'

variable {es es₁ es₂ : List ε} {e : ε}

theorem handles_append :
    Handles step s (es₁ ++ es₂) s' ↔ ∃ m, Handles step s es₁ m ∧ Handles step m es₂ s' := by
  induction es₁ generalizing s with
  | nil => simp [Handles]
  | cons e es₁ ih =>
      simp only [List.cons_append, Handles, ih]
      constructor
      · rintro ⟨s₁, o, hs, m, hm, ht⟩
        exact ⟨m, ⟨s₁, o, hs, hm⟩, ht⟩
      · rintro ⟨m, ⟨s₁, o, hs, hm⟩, ht⟩
        exact ⟨s₁, o, hs, m, hm, ht⟩

theorem handles_snoc :
    Handles step s (es ++ [e]) s' ↔ ∃ m o, Handles step s es m ∧ step m e = some (s', o) := by
  rw [handles_append]
  constructor
  · rintro ⟨m, hm, s₁, o, hs, rfl⟩
    exact ⟨m, o, hm, hs⟩
  · rintro ⟨m, o, hm, hs⟩
    exact ⟨m, hm, s', o, hs, rfl⟩

theorem Handles.run (h : Handles step s es s') : ∃ tr, Run step s tr s' := by
  induction es generalizing s with
  | nil => exact ⟨[], h⟩
  | cons e es ih =>
      obtain ⟨s₁, o, hs, ht⟩ := h
      obtain ⟨tr, htr⟩ := ih ht
      exact ⟨(e, o) :: tr, s₁, hs, htr⟩

theorem Handles.unique {t t' : σ} (h : Handles step s es t) (h' : Handles step s es t') :
    t = t' := by
  induction es generalizing s with
  | nil => exact h.symm.trans h'
  | cons e es ih =>
      obtain ⟨m, o, hs, ht⟩ := h
      obtain ⟨m', o', hs', ht'⟩ := h'
      rw [hs] at hs'
      cases hs'
      exact ih ht ht'

theorem exists_handles_iff :
    (∃ s', Handles step s es s') ↔
      ∀ es₁ e es₂ m, es = es₁ ++ e :: es₂ → Handles step s es₁ m → step m e ≠ none := by
  constructor
  · rintro ⟨s', h⟩ es₁ e es₂ m rfl hm hnone
    obtain ⟨m', hm', s₁, o, hs, _⟩ := handles_append.mp h
    rw [← hm.unique hm', hnone] at hs
    cases hs
  · intro h
    induction es using List.reverseRecOn with
    | nil => exact ⟨s, rfl⟩
    | append_singleton es e ih =>
        obtain ⟨m, hm⟩ := ih fun es₁ e' es₂ m hes =>
          h es₁ e' (es₂ ++ [e]) m (by rw [hes, List.append_assoc, List.cons_append])
        obtain ⟨⟨s', o⟩, hs⟩ := Option.ne_none_iff_exists'.mp (h es e [] m rfl hm)
        exact ⟨s', handles_snoc.mpr ⟨m, o, hm, hs⟩⟩

end Handles

section Time

variable {α : Type*} (duration : ε → ℕ) (f : ℤ → ε × ω → Option α)

def clock : ℤ → List (ε × ω) → ℤ
  | now, [] => now
  | now, x :: tr => clock (now + duration x.1) tr

/-- What `f` finds in the events of a trace that starts at `now`, given the time of each. -/
def collect : ℤ → List (ε × ω) → List α
  | _, [] => []
  | now, x :: tr => (f now x).toList ++ collect (now + duration x.1) tr

theorem clock_snoc (now : ℤ) (tr : List (ε × ω)) (x : ε × ω) :
    clock duration now (tr ++ [x]) = clock duration now tr + duration x.1 := by
  induction tr generalizing now with
  | nil => rfl
  | cons y tr ih => exact ih (now + duration y.1)

theorem collect_snoc (now : ℤ) (tr : List (ε × ω)) (x : ε × ω) :
    collect duration f now (tr ++ [x]) =
      collect duration f now tr ++ (f (clock duration now tr) x).toList := by
  induction tr generalizing now with
  | nil => simp [collect, clock]
  | cons y tr ih =>
      rw [List.cons_append, collect, ih, collect, clock, List.append_assoc]

/-- An event of a trace that starts at `now` meets `P` at its time, and none after it meets `Q`. -/
def Since (P : ℤ → ε × ω → Prop) (Q : ε × ω → Prop) (now : ℤ) (tr : List (ε × ω)) : Prop :=
  ∃ tr₁ x tr₂, tr = tr₁ ++ x :: tr₂ ∧ P (clock duration now tr₁) x ∧ ∀ y ∈ tr₂, ¬ Q y

variable {duration} {P P' : ℤ → ε × ω → Prop} {Q Q' : ε × ω → Prop} {now : ℤ}

theorem not_since_nil : ¬ Since duration P Q now ([] : List (ε × ω)) := by
  rintro ⟨tr₁, x, tr₂, htr, _⟩
  exact List.append_ne_nil_of_right_ne_nil tr₁ (List.cons_ne_nil x tr₂) htr.symm

theorem since_snoc {x : ε × ω} :
    Since duration P Q now (tr ++ [x]) ↔
      P (clock duration now tr) x ∨ (Since duration P Q now tr ∧ ¬ Q x) := by
  constructor
  · rintro ⟨tr₁, y, tr₂, htr, hP, hQ⟩
    obtain rfl | ⟨tr₂, z, rfl⟩ := tr₂.eq_nil_or_concat'
    · obtain ⟨rfl, hxy⟩ := List.append_inj' htr rfl
      rw [List.singleton_inj.mp hxy]
      exact .inl hP
    · rw [← List.cons_append, ← List.append_assoc] at htr
      obtain ⟨htr, hxz⟩ := List.append_inj' htr rfl
      rw [List.singleton_inj.mp hxz]
      exact .inr ⟨⟨tr₁, y, tr₂, htr, hP, fun y hy => hQ y (List.mem_append_left _ hy)⟩,
        hQ z (List.mem_append_right _ (List.mem_singleton_self z))⟩
  · rintro (hP | ⟨⟨tr₁, y, tr₂, rfl, hP, hQ⟩, hx⟩)
    · exact ⟨tr, x, [], rfl, hP, by simp⟩
    · refine ⟨tr₁, y, tr₂ ++ [x], by rw [List.append_assoc, List.cons_append], hP, ?_⟩
      intro z hz
      obtain hz | hz := List.mem_append.mp hz
      · exact hQ z hz
      · exact List.mem_singleton.mp hz ▸ hx

theorem Since.mono (h : Since duration P Q now tr) (hQ : ∀ x, Q' x → Q x) :
    Since duration P Q' now tr := by
  obtain ⟨tr₁, x, tr₂, htr, hP, hlater⟩ := h
  exact ⟨tr₁, x, tr₂, htr, hP, fun y hy hy' => hlater y hy (hQ y hy')⟩

/-- Where the events that meet `P` or `P'` also meet `Q`, the last one of each kind since which
there is no `Q` is the same event. -/
theorem Since.and (h : Since duration P Q now tr) (h' : Since duration P' Q now tr)
    (hP : ∀ t x, P t x → Q x) (hP' : ∀ t x, P' t x → Q x) :
    Since duration (fun t x => P t x ∧ P' t x) Q now tr := by
  induction tr using List.reverseRecOn with
  | nil => exact absurd h not_since_nil
  | append_singleton tr x ih =>
      rw [since_snoc] at h h' ⊢
      obtain hx | ⟨h, hx⟩ := h <;> obtain hx' | ⟨h', hx'⟩ := h'
      · exact .inl ⟨hx, hx'⟩
      · exact absurd (hP _ _ hx) hx'
      · exact absurd (hP' _ _ hx') hx
      · exact .inr ⟨ih h h', hx⟩

end Time

end EventSystem
