import GrpcVault.PolicyService

/-!
# Repository and evaluator

The change of a policy that reached the repository last has to reach the evaluator last. The
two steps of a request are not joined by a lock, so a request can be overtaken between them;
then the evaluator keeps the rules of the older change for good.
-/

namespace GrpcVault.PolicyService

open EventSystem GoText Acl

def Agrees (s : System) : Prop :=
  ∀ name, enforcedRules s.evaluator name = s.repository.rules name

/-- The request with the latest change of a name does not overtake: when it changes the
evaluator, no earlier request on that name is between its two steps. -/
def InOrder (s : System) : Event → Prop
  | .enforce i =>
      match s.calls[i]? with
      | some call => (∃ c ∈ s.calls.take i, c.name = call.name) ∨
          ∀ c ∈ s.calls.drop (i + 1), c.name ≠ call.name
      | none => True
  | _ => True

/-- The latest request on a name carries the stored rules. Without one, they are enforced. -/
structure Settling (s : System) : Prop where
  pending : ∀ name call, s.calls.find? (fun c => c.name = name) = some call →
    call.rules = s.repository.rules name
  idle : ∀ name, (∀ c ∈ s.calls, c.name ≠ name) →
    enforcedRules s.evaluator name = s.repository.rules name

variable {s s' : System} {newer older : List Call} {call : Call}

theorem inOrder_enforce (hcalls : s.calls = newer ++ call :: older)
    (h : InOrder s (.enforce newer.length)) :
    (∃ c ∈ newer, c.name = call.name) ∨ ∀ c ∈ older, c.name ≠ call.name := by
  unfold InOrder at h
  simpa [hcalls] using h

theorem find?_enforced {name : Str} (hne : name ≠ call.name) :
    (newer ++ older).find? (fun c => c.name = name) =
      (newer ++ call :: older).find? (fun c => c.name = name) := by
  rw [List.find?_append, List.find?_append,
    List.find?_cons_of_neg (p := fun c : Call => c.name = name) (by simpa using hne.symm)]

theorem find?_eq_none {calls : List Call} {name : Str} :
    calls.find? (fun c => c.name = name) = none ↔ ∀ c ∈ calls, c.name ≠ name := by
  simp

theorem Settling.store {repository : MemoryPolicyRepository} (h : Settling s)
    (hrules : repository.rules call.name = call.rules)
    (hother : ∀ name, name ≠ call.name → repository.rules name = s.repository.rules name) :
    Settling { s with repository, calls := call :: s.calls } where
  pending name c hfind := by
    by_cases hname : call.name = name
    · subst hname
      rw [List.find?_cons_of_pos (by simp)] at hfind
      cases hfind
      exact hrules.symm
    · rw [List.find?_cons_of_neg (by simpa using hname)] at hfind
      rw [hother name (Ne.symm hname)]
      exact h.pending name c hfind
  idle name hidle := by
    obtain ⟨hne, hidle⟩ := List.forall_mem_cons.mp hidle
    rw [hother name (Ne.symm hne)]
    exact h.idle name hidle

section Enforce

variable (h : Settling s) (hcalls : s.calls = newer ++ call :: older)
include h hcalls

theorem Settling.pending_of_ne {name : Str} {c : Call} (hne : name ≠ call.name)
    (hfind : (newer ++ older).find? (fun c => c.name = name) = some c) :
    c.rules = s.repository.rules name := by
  apply h.pending name c
  rw [hcalls, ← find?_enforced hne]
  exact hfind

theorem Settling.idle_of_ne {name : Str} (hne : name ≠ call.name)
    (hidle : ∀ c ∈ newer ++ older, c.name ≠ name) :
    enforcedRules (call.apply s.evaluator) name = s.repository.rules name := by
  rw [apply_of_ne call s.evaluator hne]
  apply h.idle name
  rw [← find?_eq_none, hcalls, ← find?_enforced hne]
  exact find?_eq_none.mpr hidle

theorem Settling.pending_of_newer {c : Call} (hnewer : ∃ c ∈ newer, c.name = call.name)
    (hfind : (newer ++ older).find? (fun c => c.name = call.name) = some c) :
    c.rules = s.repository.rules call.name := by
  apply h.pending call.name c
  rw [hcalls]
  cases hfirst : newer.find? (fun c => c.name = call.name) with
  | none =>
      obtain ⟨d, hd, hname⟩ := hnewer
      exact absurd hname (find?_eq_none.mp hfirst d hd)
  | some d =>
      rw [List.find?_append, hfirst] at hfind ⊢
      exact hfind

theorem Settling.idle_of_latest (hnewer : ∀ c ∈ newer, c.name ≠ call.name) :
    enforcedRules (call.apply s.evaluator) call.name = s.repository.rules call.name := by
  rw [apply_self]
  apply h.pending call.name call
  rw [hcalls, List.find?_append, find?_eq_none.mpr hnewer, List.find?_cons_of_pos (by simp)]
  rfl

theorem Settling.enforce
    (horder : (∃ c ∈ newer, c.name = call.name) ∨ ∀ c ∈ older, c.name ≠ call.name) :
    Settling { s with evaluator := call.apply s.evaluator, calls := newer ++ older } where
  pending name c hfind := by
    by_cases hname : name = call.name
    · subst hname
      by_cases hnewer : ∃ c ∈ newer, c.name = call.name
      · exact h.pending_of_newer hcalls hnewer hfind
      · have hnone : ∀ c ∈ newer ++ older, c.name ≠ call.name := by
          intro d hd heq
          rcases List.mem_append.mp hd with hd | hd
          · exact hnewer ⟨d, hd, heq⟩
          · exact horder.resolve_left hnewer d hd heq
        rw [find?_eq_none.mpr hnone] at hfind
        cases hfind
    · exact h.pending_of_ne hcalls hname hfind
  idle name hidle := by
    by_cases hname : name = call.name
    · subst hname
      exact h.idle_of_latest hcalls (fun c hc => hidle c (List.mem_append_left _ hc))
    · exact h.idle_of_ne hcalls hname hidle

end Enforce

theorem step_settling {e : Event} {o : Output} (horder : InOrder s e) (h : Settling s)
    (hstep : step s e = some (s', o)) : Settling s' := by
  cases step_effect hstep with
  | store hrules hother => exact h.store hrules hother
  | fail => exact h
  | enforce hcalls => exact h.enforce hcalls (inOrder_enforce hcalls horder)

theorem newAuthService_of_ne {first second : StoredPolicy} {name : Str} (h₁ : name ≠ first.name)
    (h₂ : name ≠ second.name) (hdefault : name ≠ "default".toList) :
    enforcedRules (newAuthService [first, second]) name = none := by
  have hlookup : (newAuthService [first, second]).policies =
      ((Finmap.insert "default".toList defaultPolicy ∅).insert first.name
        { name := first.name, rules := first.rules, description := "" }).insert second.name
        { name := second.name, rules := second.rules, description := "" } := rfl
  rw [enforcedRules, hlookup, Finmap.lookup_insert_of_ne _ h₂, Finmap.lookup_insert_of_ne _ h₁,
    Finmap.lookup_insert_of_ne _ hdefault, Finmap.lookup_empty]
  rfl

theorem start_agrees (now : ℤ) (adminFirst : Bool) : Agrees (System.start now adminFirst) := by
  intro name
  by_cases hadmin : name = "admin".toList
  · subst hadmin
    cases adminFirst <;> rfl
  · by_cases hdefault : name = "default".toList
    · subst hdefault
      cases adminFirst <;> rfl
    · have hstored : (newMemoryPolicyRepository now).rules name = none := by
        rw [MemoryPolicyRepository.rules, newMemoryPolicyRepository,
          Finmap.lookup_insert_of_ne _ hadmin, Finmap.lookup_insert_of_ne _ hdefault,
          Finmap.lookup_empty]
        rfl
      cases adminFirst with
      | true => exact (newAuthService_of_ne hadmin hdefault hdefault).trans hstored.symm
      | false => exact (newAuthService_of_ne hdefault hadmin hdefault).trans hstored.symm

theorem evaluate_of_none {e : Evaluator} {name : Str} (h : enforcedRules e name = none)
    (resourcePath : Str) (capability : Capability) (context : GoMap Str Str) :
    (e.evaluate [name] resourcePath capability context).allowed = false := by
  have hlookup : e.policies.lookup name = none := Option.map_eq_none_iff.mp h
  simp [Evaluator.evaluate, hlookup]

/-- In a run in which no latest change of a name overtakes an earlier one, the evaluator has
the stored policies whenever no request is between its steps, and a policy that is not stored
grants nothing. -/
theorem repository_enforced {now : ℤ} {adminFirst : Bool} {tr : Trace}
    (h : Run step (System.start now adminFirst) tr s)
    (horder : Throughout step InOrder (System.start now adminFirst) tr) (hidle : s.calls = []) :
    Agrees s ∧ ∀ name, s.repository.rules name = none → ∀ resourcePath capability context,
      (s.evaluator.evaluate [name] resourcePath capability context).allowed = false := by
  have hstart : Settling (System.start now adminFirst) :=
    ⟨nofun, fun name _ => start_agrees now adminFirst name⟩
  have hs : Settling s := h.invariantThroughout
    (fun _ _ _ _ hP hm hstep => step_settling hP hm hstep) horder hstart
  have hagrees : Agrees s := by
    intro name
    apply hs.idle name
    rw [hidle]
    exact nofun
  refine ⟨hagrees, ?_⟩
  intro name hnone
  exact evaluate_of_none ((hagrees name).trans hnone)

/-- A policy is created and updated by two requests at a time, whose steps keep their order. -/
theorem repository_enforced_overlapping : ∃ (tr : Trace) (s : System),
    Run step (System.start 0 false) tr s ∧ s.calls = [] ∧ s.repository.rules ['p'] = some [] ∧
      Agrees s := by
  have h : ∃ (s₁ s₂ s₃ s₄ : System) (rule : Rule),
      step (System.start 0 false) (.createPolicy ['p'] "" [rule] 1) = some (s₁, .stored) ∧
      step s₁ (.updatePolicy ['p'] "" [] 2) = some (s₂, .stored) ∧
      step s₂ (.enforce 1) = some (s₃, .enforced) ∧ step s₃ (.enforce 0) = some (s₄, .enforced) ∧
      s₂.calls = [⟨['p'], some []⟩, ⟨['p'], some [rule]⟩] ∧ s₃.calls = [⟨['p'], some []⟩] ∧
      s₄.calls = [] ∧ s₄.repository.rules ['p'] = some [] :=
    ⟨_, _, _, _, { path := ['x'], capabilities := [capabilityRead], conditions := ∅ },
      rfl, rfl, rfl, rfl, rfl, rfl, rfl, rfl⟩
  obtain ⟨s₁, s₂, s₃, s₄, rule, h₁, h₂, h₃, h₄, hcalls₂, hcalls₃, hidle, hrules⟩ := h
  have horder : Throughout step InOrder (System.start 0 false)
      [(.createPolicy ['p'] "" [rule] 1, .stored), (.updatePolicy ['p'] "" [] 2, .stored),
        (.enforce 1, .enforced), (.enforce 0, .enforced)] := by
    simp only [Throughout, h₁, h₂, h₃, h₄, Option.some.injEq, Prod.mk.injEq, and_true,
      forall_eq', InOrder, hcalls₂, hcalls₃, true_and]
    simp
  have hrun : Run step (System.start 0 false)
      [(.createPolicy ['p'] "" [rule] 1, .stored), (.updatePolicy ['p'] "" [] 2, .stored),
        (.enforce 1, .enforced), (.enforce 0, .enforced)] s₄ :=
    ⟨s₁, h₁, s₂, h₂, s₃, h₃, s₄, h₄, rfl⟩
  exact ⟨_, s₄, hrun, hidle, hrules, (repository_enforced hrun horder hidle).1⟩

/-- The deletion overtakes an update: the deleted policy is back in the evaluator, where it
grants access to every path. -/
theorem deleted_policy_grants : ∃ (tr : Trace) (s : System),
    Run step (System.start 0 false) tr s ∧ s.calls = [] ∧ s.repository.rules ['p'] = none ∧
      (s.evaluator.evaluate [['p']] ['x'] capabilityRead ∅).allowed = true := by
  let rules : List Rule :=
    [{ path := "**".toList, capabilities := [capabilitySudo], conditions := ∅ }]
  exact ⟨[(.createPolicy ['p'] "" rules 1, .stored), (.enforce 0, .enforced),
      (.updatePolicy ['p'] "" rules 2, .stored), (.deletePolicy ['p'], .stored),
      (.enforce 0, .enforced), (.enforce 0, .enforced)], _,
    ⟨_, rfl, _, rfl, _, rfl, _, rfl, _, rfl, _, rfl, rfl⟩, rfl, rfl, rfl⟩

end GrpcVault.PolicyService
