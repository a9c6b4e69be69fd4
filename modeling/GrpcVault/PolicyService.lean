import GrpcVault.Policy
import GrpcVault.Lib.EventSystem

/-!
# Changes of policies

The auth service keeps every policy twice: in the repository, and in the evaluator that
decides requests. A request to create, update or delete a policy changes the repository
under one lock and the evaluator under another. Between the two steps other requests run.
-/

namespace GrpcVault.PolicyService

open EventSystem GoText Acl

/-- The zero time is `none`. -/
structure StoredPolicy where
  name : Str
  description : String
  rules : List Rule
  createdAt : Option ℤ := none
  updatedAt : Option ℤ := none

inductive RepositoryError where
  | policyNotFound
  | policyExists
  | builtinPolicy
  deriving DecidableEq

def RepositoryError.message : RepositoryError → String
  | .policyNotFound => "policy not found"
  | .policyExists => "policy already exists"
  | .builtinPolicy => "cannot delete built-in policy"

structure MemoryPolicyRepository where
  policies : GoMap Str StoredPolicy

def storedDefault (now : ℤ) : StoredPolicy where
  name := "default".toList
  description := "Default policy with basic self-service access"
  rules :=
    [{ path := "auth/token/lookup-self".toList, capabilities := [capabilityRead], conditions := ∅ },
     { path := "auth/token/renew-self".toList, capabilities := [capabilityUpdate], conditions := ∅ },
     { path := "auth/token/revoke-self".toList, capabilities := [capabilityUpdate],
       conditions := ∅ }]
  createdAt := some now
  updatedAt := some now

def storedAdmin (now : ℤ) : StoredPolicy where
  name := "admin".toList
  description := "Full administrative access"
  rules := [{ path := "**".toList, capabilities := [capabilitySudo], conditions := ∅ }]
  createdAt := some now
  updatedAt := some now

def newMemoryPolicyRepository (now : ℤ) : MemoryPolicyRepository where
  policies := (Finmap.insert "default".toList (storedDefault now) ∅).insert "admin".toList
    (storedAdmin now)

namespace MemoryPolicyRepository

variable (r : MemoryPolicyRepository)

def create (p : StoredPolicy) (now : ℤ) : Except RepositoryError MemoryPolicyRepository :=
  match r.policies.lookup p.name with
  | some _ => .error .policyExists
  | none =>
      let p := { p with createdAt := some now, updatedAt := some now }
      .ok { policies := r.policies.insert p.name p }

/-- The stored policy is replaced as a whole, its time of creation included. -/
def update (p : StoredPolicy) (now : ℤ) : Except RepositoryError MemoryPolicyRepository :=
  match r.policies.lookup p.name with
  | none => .error .policyNotFound
  | some _ =>
      let p := { p with updatedAt := some now }
      .ok { policies := r.policies.insert p.name p }

def delete (name : Str) : Except RepositoryError MemoryPolicyRepository :=
  match r.policies.lookup name with
  | none => .error .policyNotFound
  | some _ =>
      if name = "default".toList ∨ name = "admin".toList then .error .builtinPolicy
      else .ok { policies := r.policies.erase name }

/-- The stored policies in the order in which an iteration over the map met them. -/
def list (policies : List StoredPolicy) (limit offset : ℕ) : List StoredPolicy :=
  if policies.length ≤ offset then [] else (policies.drop offset).take limit

def rules (name : Str) : Option (List Rule) := (r.policies.lookup name).map StoredPolicy.rules

end MemoryPolicyRepository

def enforcedRules (e : Evaluator) (name : Str) : Option (List Rule) :=
  (e.policies.lookup name).map Policy.rules

/-- What a request has left to do after it changed the repository: add a policy with these
rules to the evaluator, or remove the policy from it. -/
structure Call where
  name : Str
  rules : Option (List Rule)

def Call.apply (call : Call) (e : Evaluator) : Evaluator :=
  match call.rules with
  | some rules => e.addPolicy { name := call.name, rules, description := "" }
  | none => (e.removePolicy call.name).1

/-- `calls` has the requests between their two steps, the latest change of the repository
first. -/
structure System where
  repository : MemoryPolicyRepository
  evaluator : Evaluator
  calls : List Call

/-- The stored policies are added to the evaluator one after the other. -/
def newAuthService (policies : List StoredPolicy) : Evaluator :=
  (MemoryPolicyRepository.list policies 1000 0).foldl
    (fun e p => e.addPolicy { name := p.name, rules := p.rules, description := "" }) newEvaluator

/-- The iteration over the two built-in policies has two orders. -/
def System.start (now : ℤ) (adminFirst : Bool) : System where
  repository := newMemoryPolicyRepository now
  evaluator := newAuthService
    (if adminFirst then [storedAdmin now, storedDefault now]
      else [storedDefault now, storedAdmin now])
  calls := []

inductive Event where
  | createPolicy (name : Str) (description : String) (rules : List Rule) (now : ℤ)
  | updatePolicy (name : Str) (description : String) (rules : List Rule) (now : ℤ)
  | deletePolicy (name : Str)
  /-- The request at this place of `calls` changes the evaluator. -/
  | enforce (i : ℕ)

inductive Output where
  | stored
  | failed (e : RepositoryError)
  | enforced

abbrev Trace := List (Event × Output)

/-- A request that the repository refuses returns its error and leaves no second step. -/
def System.stores (s : System) (call : Call) :
    Except RepositoryError MemoryPolicyRepository → System × Output
  | .ok repository => ({ s with repository, calls := call :: s.calls }, .stored)
  | .error e => (s, .failed e)

def step : Step System Event Output
  | s, .createPolicy name description rules now =>
      some (s.stores ⟨name, some rules⟩ (s.repository.create { name, description, rules } now))
  | s, .updatePolicy name description rules now =>
      some (s.stores ⟨name, some rules⟩ (s.repository.update { name, description, rules } now))
  | s, .deletePolicy name => some (s.stores ⟨name, none⟩ (s.repository.delete name))
  | s, .enforce i =>
      match s.calls[i]? with
      | some call =>
          some ({ s with evaluator := call.apply s.evaluator, calls := s.calls.eraseIdx i },
            .enforced)
      | none => none

inductive Effect (s : System) : Event → Output → System → Prop
  | store {e : Event} {repository : MemoryPolicyRepository} {call : Call}
      (hrules : repository.rules call.name = call.rules)
      (hother : ∀ name, name ≠ call.name → repository.rules name = s.repository.rules name) :
      Effect s e .stored { s with repository, calls := call :: s.calls }
  | fail {e : Event} {err : RepositoryError} : Effect s e (.failed err) s
  | enforce {newer older : List Call} {call : Call} (hcalls : s.calls = newer ++ call :: older) :
      Effect s (.enforce newer.length) .enforced
        { s with evaluator := call.apply s.evaluator, calls := newer ++ older }

variable {s s' : System} {r r' : MemoryPolicyRepository} {name : Str} {p : StoredPolicy} {now : ℤ}

theorem rules_insert (p : StoredPolicy) :
    MemoryPolicyRepository.rules { policies := r.policies.insert name p } name = some p.rules ∧
      ∀ name', name' ≠ name →
        MemoryPolicyRepository.rules { policies := r.policies.insert name p } name' =
          r.rules name' := by
  constructor
  · simp [MemoryPolicyRepository.rules]
  · intro name' hne
    simp [MemoryPolicyRepository.rules, Finmap.lookup_insert_of_ne _ hne]

theorem create_ok (h : r.create p now = .ok r') : r'.rules p.name = some p.rules ∧
    ∀ name, name ≠ p.name → r'.rules name = r.rules name := by
  unfold MemoryPolicyRepository.create at h
  cases hl : r.policies.lookup p.name with
  | some q => simp [hl] at h
  | none =>
      simp only [hl, Except.ok.injEq] at h
      subst h
      exact rules_insert { p with createdAt := some now, updatedAt := some now }

theorem update_ok (h : r.update p now = .ok r') : r'.rules p.name = some p.rules ∧
    ∀ name, name ≠ p.name → r'.rules name = r.rules name := by
  unfold MemoryPolicyRepository.update at h
  cases hl : r.policies.lookup p.name with
  | none => simp [hl] at h
  | some q =>
      simp only [hl, Except.ok.injEq] at h
      subst h
      exact rules_insert { p with updatedAt := some now }

theorem delete_ok (h : r.delete name = .ok r') :
    r'.rules name = none ∧ ∀ name', name' ≠ name → r'.rules name' = r.rules name' := by
  unfold MemoryPolicyRepository.delete at h
  cases hl : r.policies.lookup name with
  | none => simp [hl] at h
  | some p =>
      by_cases hbuiltin : name = "default".toList ∨ name = "admin".toList
      · simp only [hl, if_pos hbuiltin, reduceCtorEq] at h
      · simp only [hl, if_neg hbuiltin, Except.ok.injEq] at h
        subst h
        refine ⟨by simp [MemoryPolicyRepository.rules], fun name' hne => ?_⟩
        simp [MemoryPolicyRepository.rules, Finmap.lookup_erase_ne hne]

theorem apply_self (call : Call) (e : Evaluator) :
    enforcedRules (call.apply e) call.name = call.rules := by
  unfold Call.apply enforcedRules
  cases call.rules with
  | some rules => simp [Evaluator.addPolicy]
  | none =>
      simp only [Evaluator.removePolicy]
      cases hl : e.policies.lookup call.name with
      | none => simp [hl]
      | some p => simp

theorem apply_of_ne (call : Call) (e : Evaluator) (hne : name ≠ call.name) :
    enforcedRules (call.apply e) name = enforcedRules e name := by
  unfold Call.apply enforcedRules
  cases call.rules with
  | some rules => simp [Evaluator.addPolicy, Finmap.lookup_insert_of_ne _ hne]
  | none =>
      simp only [Evaluator.removePolicy]
      cases hl : e.policies.lookup call.name with
      | none => rfl
      | some p => simp [Finmap.lookup_erase_ne hne]

theorem stores_effect {e : Event} {o : Output} {call : Call}
    {result : Except RepositoryError MemoryPolicyRepository}
    (hok : ∀ r, result = .ok r → r.rules call.name = call.rules ∧
      ∀ name, name ≠ call.name → r.rules name = s.repository.rules name)
    (h : s.stores call result = (s', o)) : Effect s e o s' := by
  cases result with
  | ok repository =>
      cases h
      obtain ⟨hrules, hother⟩ := hok repository rfl
      exact .store hrules hother
  | error err =>
      cases h
      exact .fail

theorem step_effect {e : Event} {o : Output} (h : step s e = some (s', o)) : Effect s e o s' := by
  cases e with
  | createPolicy name description rules now =>
      exact stores_effect (fun r hr => create_ok hr) (Option.some.inj h)
  | updatePolicy name description rules now =>
      exact stores_effect (fun r hr => update_ok hr) (Option.some.inj h)
  | deletePolicy name => exact stores_effect (fun r hr => delete_ok hr) (Option.some.inj h)
  | enforce i =>
      unfold step at h
      cases hi : s.calls[i]? with
      | none => simp [hi] at h
      | some call =>
          simp only [hi, Option.some.injEq, Prod.mk.injEq] at h
          obtain ⟨rfl, rfl⟩ := h
          obtain ⟨hlt, hget⟩ := List.getElem?_eq_some_iff.mp hi
          have hsplit : s.calls = s.calls.take i ++ call :: s.calls.drop (i + 1) := by
            rw [← hget, List.cons_getElem_drop_succ, List.take_append_drop]
          have hlen : (s.calls.take i).length = i := by
            rw [List.length_take]
            omega
          have heffect := Effect.enforce hsplit
          rw [hlen] at heffect
          rw [List.eraseIdx_eq_take_drop_succ]
          exact heffect

end GrpcVault.PolicyService
