import GrpcVault.Lib.GoPath

/-!
# Policies

Package `policy`: an evaluator holds policies by name, and a policy is a list of
rules for path patterns. The two nested loops of `evaluate` return at the first rule
that decides, which `List.findSome?` expresses.
-/

namespace GrpcVault.Acl

open GoText GoPath

abbrev Capability := Str

def capabilityCreate : Capability := "create".toList
def capabilityRead : Capability := "read".toList
def capabilityUpdate : Capability := "update".toList
def capabilityDelete : Capability := "delete".toList
def capabilityList : Capability := "list".toList
def capabilitySudo : Capability := "sudo".toList
def capabilityDeny : Capability := "deny".toList

inductive PolicyError where
  | policyNotFound
  deriving DecidableEq

def PolicyError.message : PolicyError → String
  | .policyNotFound => "policy not found"

structure Rule where
  path : Str
  capabilities : List Capability
  conditions : GoMap Str Str

structure Policy where
  name : Str
  rules : List Rule
  description : String

structure Evaluator where
  policies : GoMap Str Policy

structure EvaluationResult where
  allowed : Bool
  matchedRule : Str
  denialReason : String

/-- `*` stands for one segment, a final `**` for any rest. -/
def pathMatches (pattern target : Str) : Bool :=
  let pattern := trim '/' pattern
  let target := trim '/' target
  if "**".toList.isSuffixOf pattern then
    (trimSuffix (trimSuffix pattern "**".toList) ['/']).isPrefixOf target
  else if '*' ∈ pattern then
    let patternParts := split '/' pattern
    let targetParts := split '/' target
    if patternParts.length ≠ targetParts.length then false
    else (patternParts.zip targetParts).all fun (p, t) => p = ['*'] ∨ p = t
  else if pattern = target then true
  else pathMatch pattern target

def hasCapability (capabilities : List Capability) (target : Capability) : Bool :=
  capabilities.any fun c => c = target

def checkConditions (conditions context : GoMap Str Str) : Bool :=
  decide (∀ key ∈ conditions.keys, context.lookup key = conditions.lookup key)

/-- `toLower` is `unicode.ToLower`. -/
def actionToCapability (toLower : Char → Char) (action : Str) : Capability :=
  let lower := action.map toLower
  if lower = "create".toList ∨ lower = "post".toList then capabilityCreate
  else if lower = "read".toList ∨ lower = "get".toList then capabilityRead
  else if lower = "update".toList ∨ lower = "put".toList ∨ lower = "patch".toList then
    capabilityUpdate
  else if lower = "delete".toList then capabilityDelete
  else if lower = "list".toList then capabilityList
  else action

/-- What one rule decides, if it does. Conditions are looked at for a plain capability only. -/
def ruleVerdict (resourcePath : Str) (capability : Capability) (context : GoMap Str Str)
    (rule : Rule) : Option EvaluationResult :=
  if !pathMatches rule.path resourcePath then none
  else if hasCapability rule.capabilities capabilityDeny then
    some { allowed := false, matchedRule := rule.path,
           denialReason := "explicitly denied by policy" }
  else if hasCapability rule.capabilities capabilitySudo then
    some { allowed := true, matchedRule := rule.path, denialReason := "" }
  else if hasCapability rule.capabilities capability then
    if 0 < rule.conditions.keys.card ∧ !checkConditions rule.conditions context then none
    else some { allowed := true, matchedRule := rule.path, denialReason := "" }
  else none

namespace Evaluator

variable (e : Evaluator)

def addPolicy (policy : Policy) : Evaluator where
  policies := e.policies.insert policy.name policy

def getPolicy (name : Str) : Except PolicyError Policy :=
  match e.policies.lookup name with
  | none => .error .policyNotFound
  | some policy => .ok policy

def removePolicy (name : Str) : Evaluator × Option PolicyError :=
  match e.policies.lookup name with
  | none => (e, some .policyNotFound)
  | some _ => ({ policies := e.policies.erase name }, none)

def evaluate (policyNames : List Str) (resourcePath : Str) (capability : Capability)
    (context : GoMap Str Str) : EvaluationResult :=
  if policyNames.length = 0 then
    { allowed := false, matchedRule := [], denialReason := "no policies attached" }
  else
    let found := policyNames.findSome? fun policyName =>
      (e.policies.lookup policyName).bind fun policy =>
        policy.rules.findSome? (ruleVerdict resourcePath capability context)
    match found with
    | some result => result
    | none =>
        { allowed := false, matchedRule := [], denialReason := "no matching policy rule found" }

/-- Without a context. -/
def check (policyNames : List Str) (resourcePath : Str) (capability : Capability) : Bool :=
  (e.evaluate policyNames resourcePath capability ∅).allowed

end Evaluator

def defaultPolicy : Policy where
  name := "default".toList
  description := "Default policy with basic access"
  rules :=
    [{ path := "auth/token/lookup-self".toList, capabilities := [capabilityRead], conditions := ∅ },
     { path := "auth/token/renew-self".toList, capabilities := [capabilityUpdate], conditions := ∅ },
     { path := "auth/token/revoke-self".toList, capabilities := [capabilityUpdate],
       conditions := ∅ }]

def newEvaluator : Evaluator := Evaluator.addPolicy { policies := ∅ } defaultPolicy

end GrpcVault.Acl
