import GrpcVault.Lib.EventSystem

/-!
# Tasks with slots of their own

A pool runs tasks in any interleaving. A task goes through states that only it sees and at
last writes a value to its own slot. Whatever the interleaving, the slots then hold what
the tasks yield by themselves, and every run can be completed if every task comes to an end.
-/

namespace WorkerPool

open EventSystem

/-- The first state of each task, and how a task goes on: to its next state, or to the value
for its slot. -/
structure Pool (ι τ α : Type*) where
  start : ι → τ
  advance : ι → τ → τ ⊕ α

inductive Job (τ : Type*) where
  | running (t : τ)
  | done

structure State (ι τ α : Type*) where
  jobs : ι → Job τ
  slots : ι → α

variable {ι τ α : Type*}

def State.Complete (s : State ι τ α) : Prop := ∀ i, s.jobs i = .done

namespace Pool

variable (p : Pool ι τ α)

def init (slots : ι → α) : State ι τ α where
  jobs i := .running (p.start i)
  slots := slots

inductive Yields (i : ι) : τ → α → Prop
  | last {t : τ} {a : α} (h : p.advance i t = .inr a) : Yields i t a
  | more {t t' : τ} {a : α} (h : p.advance i t = .inl t') (ht : Yields i t' a) : Yields i t a

variable [DecidableEq ι]

/-- The event is the task that takes its next step. -/
def step : Step (State ι τ α) ι Unit
  | s, i =>
      match s.jobs i with
      | .done => none
      | .running t =>
          match p.advance i t with
          | .inl t' => some ({ s with jobs := Function.update s.jobs i (.running t') }, ())
          | .inr a =>
              some ({ jobs := Function.update s.jobs i .done,
                      slots := Function.update s.slots i a }, ())

variable {p} {s s' : State ι τ α} {i : ι} {tr : List (ι × Unit)}

theorem step_inl {t t' : τ} (hi : s.jobs i = .running t) (h : p.advance i t = .inl t') :
    p.step s i = some ({ s with jobs := Function.update s.jobs i (.running t') }, ()) := by
  simp only [step, hi, h]

theorem step_inr {t : τ} {a : α} (hi : s.jobs i = .running t) (h : p.advance i t = .inr a) :
    p.step s i = some ({ jobs := Function.update s.jobs i .done,
                         slots := Function.update s.slots i a }, ()) := by
  simp only [step, hi, h]

theorem step_cases {o : Unit} (h : p.step s i = some (s', o)) :
    ∃ t, s.jobs i = .running t ∧
      ((∃ t', p.advance i t = .inl t' ∧
          s' = { s with jobs := Function.update s.jobs i (.running t') }) ∨
        ∃ a, p.advance i t = .inr a ∧
          s' = { jobs := Function.update s.jobs i .done,
                 slots := Function.update s.slots i a }) := by
  cases hi : s.jobs i with
  | done => simp [step, hi] at h
  | running t =>
      refine ⟨t, rfl, ?_⟩
      cases ha : p.advance i t with
      | inl t' =>
          rw [step_inl hi ha] at h
          cases h
          exact .inl ⟨t', rfl, rfl⟩
      | inr a =>
          rw [step_inr hi ha] at h
          cases h
          exact .inr ⟨a, rfl, rfl⟩

/-- What a task stands for: whatever it will yield, or has put in its slot, is what it yields
from its first state. -/
def Accounts (p : Pool ι τ α) (i : ι) (slot : α) : Job τ → Prop
  | .running t => ∀ a, p.Yields i t a → p.Yields i (p.start i) a
  | .done => p.Yields i (p.start i) slot

/-- No task has changed the outcome of another. -/
def Isolated (p : Pool ι τ α) (s : State ι τ α) : Prop :=
  ∀ i, p.Accounts i (s.slots i) (s.jobs i)

omit [DecidableEq ι] in
theorem isolated_init (slots : ι → α) : p.Isolated (p.init slots) := fun _ _ ha => ha

theorem step_isolated {o : Unit} (h : p.step s i = some (s', o)) (hs : p.Isolated s) :
    p.Isolated s' := by
  obtain ⟨t, hi, hcase⟩ := step_cases h
  have ht : ∀ a, p.Yields i t a → p.Yields i (p.start i) a := by
    have := hs i
    rwa [hi] at this
  intro j
  by_cases hj : j = i
  · subst hj
    obtain ⟨t', ha, rfl⟩ | ⟨a, ha, rfl⟩ := hcase
    · simp only [Function.update_self]
      exact fun a hya => ht a (.more ha hya)
    · simp only [Function.update_self]
      exact ht a (.last ha)
  · obtain ⟨t', ha, rfl⟩ | ⟨a, ha, rfl⟩ := hcase
    · simpa only [Function.update_of_ne hj] using hs j
    · simpa only [Function.update_of_ne hj] using hs j

/-- When all tasks are done, each slot holds what its task yields by itself. -/
theorem yields_of_complete {slots : ι → α} (hrun : Run p.step (p.init slots) tr s)
    (hc : s.Complete) (i : ι) : p.Yields i (p.start i) (s.slots i) := by
  have hs : p.Isolated s :=
    hrun.preserves (fun _ _ _ _ hm hstep => step_isolated hstep hm) (isolated_init slots)
  have hi := hs i
  rwa [hc i] at hi

theorem run_task {t : τ} {a : α} (h : p.Yields i t a) (hi : s.jobs i = .running t) :
    ∃ tr s', Run p.step s tr s' ∧ s'.jobs i = .done ∧ ∀ j, j ≠ i → s'.jobs j = s.jobs j := by
  induction h generalizing s with
  | last ha =>
      refine ⟨[(i, ())], _, ⟨_, step_inr hi ha, rfl⟩, Function.update_self _ _ _, ?_⟩
      intro j hj
      exact Function.update_of_ne hj _ _
  | more ha _ ih =>
      obtain ⟨tr, s', hrun, hdone, hothers⟩ := ih
        (s := { s with jobs := Function.update s.jobs i (.running _) }) (Function.update_self _ _ _)
      refine ⟨(i, ()) :: tr, s', ⟨_, step_inl hi ha, hrun⟩, hdone, ?_⟩
      intro j hj
      rw [hothers j hj]
      exact Function.update_of_ne hj _ _

theorem run_tasks (hends : ∀ i t, ∃ a, p.Yields i t a) (s : State ι τ α) (l : List ι) :
    ∃ tr s', Run p.step s tr s' ∧ ∀ i ∈ l, s'.jobs i = .done := by
  induction l with
  | nil => exact ⟨[], s, rfl, by simp⟩
  | cons j l ih =>
      obtain ⟨tr, m, hrun, hl⟩ := ih
      cases hj : m.jobs j with
      | done => exact ⟨tr, m, hrun, List.forall_mem_cons.mpr ⟨hj, hl⟩⟩
      | running t =>
          obtain ⟨a, ha⟩ := hends j t
          obtain ⟨tr', s', hrun', hdone, hothers⟩ := run_task ha hj
          refine ⟨tr ++ tr', s', run_append.mpr ⟨m, hrun, hrun'⟩, ?_⟩
          refine List.forall_mem_cons.mpr ⟨hdone, fun i hi => ?_⟩
          by_cases hij : i = j
          · exact hij ▸ hdone
          · exact (hothers i hij).trans (hl i hi)

theorem exists_complete [Fintype ι] (hends : ∀ i t, ∃ a, p.Yields i t a) (s : State ι τ α) :
    ∃ tr s', Run p.step s tr s' ∧ s'.Complete := by
  obtain ⟨tr, s', hrun, hall⟩ := run_tasks hends s Finset.univ.toList
  exact ⟨tr, s', hrun, fun i => hall i (by simp)⟩

end Pool

end WorkerPool
