import GrpcVault.AuthService
import GrpcVault.PolicyOrder

/-!
# Conditions and the context of a request

A rule may carry conditions on the context of a request. More context only adds rules
that grant, and a denial does not look at it, so what is allowed stays allowed
(`context_monotone`). The conditions bind a plain capability only: `sudo` is root access and
grants whatever the conditions of its rule are (`allowed_iff_permits`).
-/

namespace GrpcVault.Acl

open GoText

def Met (conditions context : GoMap Str Str) : Prop :=
  ∀ key value, conditions.lookup key = some value → context.lookup key = some value

theorem checkConditions_iff {conditions context : GoMap Str Str} :
    checkConditions conditions context = true ↔ Met conditions context := by
  rw [checkConditions, decide_eq_true_iff]
  constructor
  · intro h key value hkey
    rw [h key (Finmap.mem_keys.mpr (Finmap.mem_of_lookup_eq_some hkey)), hkey]
  · intro h key hkey
    obtain ⟨value, hvalue⟩ := Finmap.mem_iff.mp (Finmap.mem_keys.mp hkey)
    rw [h key value hvalue, hvalue]

theorem Met.mono {conditions context context' : GoMap Str Str} (h : Met conditions context)
    (hsub : Met context context') : Met conditions context' :=
  fun key value hkey => hsub key value (h key value hkey)

theorem met_of_empty {conditions : GoMap Str Str} (h : conditions.keys.card = 0)
    (context : GoMap Str Str) : Met conditions context := by
  intro key value hkey
  have hmem : key ∈ conditions.keys := Finmap.mem_keys.mpr (Finmap.mem_of_lookup_eq_some hkey)
  simp [Finset.card_eq_zero.mp h] at hmem

/-- A rule by which a request passes with every condition met, those of `sudo` included. -/
structure Authorizes (resourcePath : Str) (capability : Capability) (context : GoMap Str Str)
    (rule : Rule) : Prop where
  path : pathMatches rule.path resourcePath
  capable : hasCapability rule.capabilities capabilitySudo ∨
    hasCapability rule.capabilities capability
  undenied : ¬ hasCapability rule.capabilities capabilityDeny
  met : Met rule.conditions context

/-- A rule by which a request passes: `sudo` is not bound to the conditions. -/
structure Permits (resourcePath : Str) (capability : Capability) (context : GoMap Str Str)
    (rule : Rule) : Prop where
  path : pathMatches rule.path resourcePath
  undenied : ¬ hasCapability rule.capabilities capabilityDeny
  capable : hasCapability rule.capabilities capabilitySudo ∨
    hasCapability rule.capabilities capability ∧ Met rule.conditions context

section Deciding

variable {resourcePath : Str} {capability : Capability} {context context' : GoMap Str Str}

theorem grants_iff_permits {rule : Rule} :
    Grants resourcePath capability context rule ↔ Permits resourcePath capability context rule := by
  constructor
  · rintro ⟨hpath, hdeny, hcapable⟩
    refine ⟨hpath, hdeny, hcapable.imp_right (And.imp_right ?_)⟩
    rintro (hempty | hcheck)
    · exact met_of_empty hempty context
    · exact checkConditions_iff.mp hcheck
  · rintro ⟨hpath, hdeny, hcapable⟩
    exact ⟨hpath, hdeny, hcapable.imp_right (And.imp_right fun hmet =>
      .inr (checkConditions_iff.mpr hmet))⟩

theorem Grants.mono {rule : Rule} (h : Grants resourcePath capability context rule)
    (hsub : Met context context') : Grants resourcePath capability context' rule := by
  obtain ⟨hpath, hdeny, hcapable⟩ := grants_iff_permits.mp h
  exact grants_iff_permits.mpr
    ⟨hpath, hdeny, hcapable.imp_right (And.imp_right fun hmet => hmet.mono hsub)⟩

/-- What is allowed is allowed by the first rule that decides. -/
theorem exists_deciding {rules : List Rule}
    (h : firstAllowed resourcePath capability context rules = true) :
    ∃ rules₁ rule rules₂, rules = rules₁ ++ rule :: rules₂ ∧
      (∀ r ∈ rules₁, ¬ Denies resourcePath r ∧ ¬ Grants resourcePath capability context r) ∧
      Grants resourcePath capability context rule := by
  induction rules with
  | nil => simp [firstAllowed] at h
  | cons rule rules ih =>
      obtain ⟨_, _, hf⟩ | ⟨hg, _, _⟩ | ⟨hd, hg, hf⟩ := firstAllowed_cons_cases rule rules
      · rw [hf] at h
        cases h
      · exact ⟨[], rule, rules, rfl, by simp, hg⟩
      · obtain ⟨rules₁, rule', rules₂, rfl, hbefore, hrule⟩ := ih (hf ▸ h)
        refine ⟨rule :: rules₁, rule', rules₂, rfl, ?_, hrule⟩
        exact List.forall_mem_cons.mpr ⟨⟨hd, hg⟩, hbefore⟩

theorem firstAllowed_of_reached {rules₁ : List Rule} {rule : Rule} (rules₂ : List Rule)
    (hbefore : ∀ r ∈ rules₁, ¬ Denies resourcePath r)
    (hg : Grants resourcePath capability context rule) :
    firstAllowed resourcePath capability context (rules₁ ++ rule :: rules₂) = true := by
  induction rules₁ with
  | nil =>
      obtain ⟨_, hng, _⟩ | ⟨_, _, hf⟩ | ⟨_, hng, _⟩ := firstAllowed_cons_cases rule rules₂
      · exact absurd hg hng
      · exact hf
      · exact absurd hg hng
  | cons r rules₁ ih =>
      obtain ⟨hr, hrest⟩ := List.forall_mem_cons.mp hbefore
      obtain ⟨hd, _⟩ | ⟨_, _, hf⟩ | ⟨_, _, hf⟩ :=
        firstAllowed_cons_cases r (rules₁ ++ rule :: rules₂)
      · exact absurd hd hr
      · exact hf
      · exact hf.trans (ih hrest)

end Deciding

theorem evaluate_mono (e : Evaluator) (policyNames : List Str) (resourcePath : Str)
    (capability : Capability) {context context' : GoMap Str Str} (hsub : Met context context')
    (h : (e.evaluate policyNames resourcePath capability context).allowed = true) :
    (e.evaluate policyNames resourcePath capability context').allowed = true := by
  rw [evaluate_allowed] at h ⊢
  obtain ⟨rules₁, rule, rules₂, hrules, hbefore, hg⟩ := exists_deciding h
  rw [hrules]
  exact firstAllowed_of_reached rules₂ (fun r hr => (hbefore r hr).1) (hg.mono hsub)

/-- A request is allowed exactly when some attached rule, with no denial before it, permits it:
by `sudo`, which bypasses conditions, or by the capability with every condition met. -/
theorem allowed_iff_permits (e : Evaluator) (policyNames : List Str) (resourcePath : Str)
    (capability : Capability) (context : GoMap Str Str) :
    (e.evaluate policyNames resourcePath capability context).allowed = true ↔
      ∃ rules₁ rule rules₂, e.attachedRules policyNames = rules₁ ++ rule :: rules₂ ∧
        (∀ r ∈ rules₁, ¬ Denies resourcePath r) ∧ Permits resourcePath capability context rule := by
  rw [evaluate_allowed]
  constructor
  · intro h
    obtain ⟨rules₁, rule, rules₂, hrules, hbefore, hg⟩ := exists_deciding h
    exact ⟨rules₁, rule, rules₂, hrules, fun r hr => (hbefore r hr).1, grants_iff_permits.mp hg⟩
  · rintro ⟨rules₁, rule, rules₂, hrules, hbefore, hp⟩
    rw [hrules]
    exact firstAllowed_of_reached rules₂ hbefore (grants_iff_permits.mpr hp)

section Example

def guardedPolicy (capability : Capability) : Policy where
  name := "guarded".toList
  rules := [{ path := "secret/**".toList, capabilities := [capability],
              conditions := Finmap.singleton "env".toList "prod".toList }]
  description := ""

/-- The one rule asks for `env = prod`, and the request comes without any context. -/
theorem sudo_ignores_conditions :
    let e := newEvaluator.addPolicy (guardedPolicy capabilitySudo)
    let names := ["guarded".toList]
    let path := "secret/data".toList
    (e.evaluate names path capabilityRead ∅).allowed = true ∧
      ∀ rule ∈ e.attachedRules names, ¬ Authorizes path capabilityRead ∅ rule := by
  refine ⟨rfl, ?_⟩
  intro rule hrule hauth
  obtain rfl : rule = _ := List.mem_singleton.mp hrule
  have hmet := hauth.met "env".toList "prod".toList rfl
  simp at hmet

end Example

end GrpcVault.Acl

namespace GrpcVault.Auth

open GoText Acl

inductive PolicyCheckError where
  | auth (e : AuthError)
  | permissionDenied
  deriving DecidableEq

def PolicyCheckError.message : PolicyCheckError → String
  | .auth e => e.message
  | .permissionDenied => "permission denied"

def validateTokenWithPolicy (toLower : Char → Char) (jwt : Jwt) (now : ℤ)
    (tokens : TokenRepository) (policyEvaluator : Evaluator) (cache : TokenCache)
    (token resource action : Str) : TokenCache × Except PolicyCheckError Claims :=
  match validateToken jwt now tokens cache token with
  | (cache, .error e) => (cache, .error (.auth e))
  | (cache, .ok claims) =>
      let capability := actionToCapability toLower action
      if !policyEvaluator.check claims.policies resource capability then
        (cache, .error .permissionDenied)
      else (cache, .ok claims)

def evaluatePolicy (toLower : Char → Char) (policyEvaluator : Evaluator) (policies : List Str)
    (resource action : Str) (context : GoMap Str Str) : EvaluationResult :=
  let capability := actionToCapability toLower action
  policyEvaluator.evaluate policies resource capability context

theorem validateTokenWithPolicy_eq_ok {toLower : Char → Char} {jwt : Jwt} {now : ℤ}
    {tokens : TokenRepository} {e : Evaluator} {cache cache' : TokenCache}
    {token resource action : Str} {claims : Claims}
    (h : validateTokenWithPolicy toLower jwt now tokens e cache token resource action =
      (cache', .ok claims)) :
    e.check claims.policies resource (actionToCapability toLower action) = true := by
  unfold validateTokenWithPolicy at h
  split at h
  · simp at h
  · rename_i claims' _
    cases hcheck : e.check claims'.policies resource (actionToCapability toLower action) with
    | false => simp [hcheck] at h
    | true =>
        obtain ⟨_, rfl⟩ : _ ∧ claims' = claims := by simpa [hcheck] using h
        exact hcheck

/-- With more context everything stays allowed; what a token is accepted for, without a
context, is allowed by its policies in every context. -/
theorem context_monotone (toLower : Char → Char) (e : Evaluator) :
    (∀ policyNames resourcePath capability (context context' : GoMap Str Str),
      (∀ key value, context.lookup key = some value → context'.lookup key = some value) →
      (e.evaluate policyNames resourcePath capability context).allowed = true →
      (e.evaluate policyNames resourcePath capability context').allowed = true) ∧
    ∀ jwt now tokens cache token resource action cache' claims,
      validateTokenWithPolicy toLower jwt now tokens e cache token resource action =
        (cache', .ok claims) →
      ∀ context,
        (evaluatePolicy toLower e claims.policies resource action context).allowed = true := by
  refine ⟨?_, ?_⟩
  · intro policyNames resourcePath capability context context' hsub h
    exact evaluate_mono e policyNames resourcePath capability hsub h
  · intro jwt now tokens cache token resource action cache' claims h context
    refine evaluate_mono e _ _ _ ?_ (validateTokenWithPolicy_eq_ok h)
    intro key value hkey
    simp at hkey

section Example

def guardedClaims : Claims where
  issuer := []
  audience := []
  subject := []
  expiresAt := none
  issuedAt := none
  notBefore := none
  identity := []
  tokenID := []
  policies := ["guarded".toList]
  metadata := ∅

def guardedJwt : Jwt where
  sign _ _ := none
  verify _ := some guardedClaims

theorem context_monotone_guarded :
    let e := newEvaluator.addPolicy (guardedPolicy capabilityRead)
    let prod : GoMap Str Str := Finmap.singleton "env".toList "prod".toList
    let context' := prod.insert "user".toList "a".toList
    let sudoer := newEvaluator.addPolicy (guardedPolicy capabilitySudo)
    (e.evaluate ["guarded".toList] "secret/data".toList capabilityRead ∅).allowed = false ∧
      (e.evaluate ["guarded".toList] "secret/data".toList capabilityRead context').allowed = true ∧
      ∀ context, (evaluatePolicy Char.toLower sudoer ["guarded".toList] "secret/data".toList
        "GET".toList context).allowed = true := by
  intro e prod context' sudoer
  refine ⟨rfl, ?_, ?_⟩
  · refine (context_monotone Char.toLower e).1 _ _ _ prod _ ?_ rfl
    intro key value hkey
    rw [Finmap.lookup_insert_of_ne]
    · exact hkey
    · rintro rfl
      cases hkey
  · exact (context_monotone Char.toLower sudoer).2 guardedJwt 0 ∅ (newLRUCacheWithTTL Str Claims 0)
      [] "secret/data".toList "GET".toList _ guardedClaims rfl

end Example

end GrpcVault.Auth
