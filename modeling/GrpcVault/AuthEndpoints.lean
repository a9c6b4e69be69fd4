import GrpcVault.TokenLifetimes
import GrpcVault.PolicyContext
import GrpcVault.PolicyService
import GrpcVault.Lib.CallContracts

/-!
# The endpoints of the auth service

The handler's methods, and the methods of the service that they call, as programs over the
repositories, the token cache and the policy evaluator, each of which has a lock of its own. A
reading of the clock or of the random source by itself is an operation (`look`). The goroutines that
record when a token or a key was last used, and the evictions of the cache, are calls of their own,
which may come at any time.
-/

namespace GrpcVault.AuthRpc

open GoText EventSystem Calls Auth Acl ApiKeys PolicyService AuthHandler

/-- An order in which an iteration over the map of policies meets them. -/
def Iteration : Type :=
  { order : MemoryPolicyRepository → List StoredPolicy //
    ∀ r, (order r : Multiset StoredPolicy) = r.policies.entries.map fun entry => entry.2 }

/-- What the clock, the random sources and an iteration over a map give at an operation. -/
structure Input where
  now : ℤ
  tokenID : Str
  seed : ℕ
  keyBytes : RandRead 32
  idBytes : { b : Bytes // b.length = 16 }
  iteration : Iteration

structure Env where
  jwt : Jwt
  manager : Manager
  sha256 : Str → Bytes
  toLower : Char → Char

structure Memory where
  tokens : TokenRepository
  tokenCache : TokenCache
  apiKeys : MemoryAPIKeyRepository
  policies : MemoryPolicyRepository
  evaluator : Evaluator

inductive MemOp where
  | look (input : Input)
  | cachedClaims (token : Str) (now : ℤ)
  | cacheClaims (token : Str) (claims : Claims) (now : ℤ)
  | evict (token : Str)
  | parseToken (token : Str) (now : ℤ)
  | signToken (identity : Str) (policies : List Str) (ttl : ℤ) (metadata : GoMap Str Str)
      (now : ℤ) (tokenID : Str) (seed : ℕ)
  | findToken (tokenID : Str) (now : ℤ)
  | storeToken (token : Token)
  | revokeToken (tokenID : Str) (now : ℤ)
  | useToken (tokenID : Str) (now : ℤ)
  | findKey (keyHash : Str) (now : ℤ)
  | storeKey (key : APIKey)
  | revokeKey (keyID : Str) (now : ℤ)
  | useKey (keyID : Str) (now : ℤ)
  | findPolicy (name : Str)
  | createPolicy (policy : StoredPolicy) (now : ℤ)
  | updatePolicy (policy : StoredPolicy) (now : ℤ)
  | deletePolicy (name : Str)
  | listPolicies (limit offset : ℕ) (iteration : Iteration)
  | enforce (call : PolicyService.Call)
  | check (policies : List Str) (resource : Str) (capability : Capability)
  | evaluate (policies : List Str) (resource : Str) (capability : Capability)
      (context : GoMap Str Str)

inductive MemReply where
  | done
  | looked (input : Input)
  | cached (claims : Option Claims)
  | parsed (result : Except JwtError Claims)
  | signed (result : Except JwtError (Str × Str × ℤ))
  | token (result : Except Auth.RepositoryError Token)
  | tokenChanged (error : Option Auth.RepositoryError)
  | key (result : Except ApiKeys.RepositoryError APIKey)
  | keyChanged (error : Option ApiKeys.RepositoryError)
  | policy (result : Except PolicyService.RepositoryError StoredPolicy)
  | policyChanged (error : Option PolicyService.RepositoryError)
  | policies (policies : List StoredPolicy)
  | checked (allowed : Bool)
  | evaluated (result : EvaluationResult)

namespace Memory

/-- A service that has just started. The iteration over the two built-in policies has two orders. -/
def new (now cacheTTL : ℤ) (adminFirst : Bool) : Memory where
  tokens := ∅
  tokenCache := newLRUCacheWithTTL Str Claims cacheTTL
  apiKeys := newMemoryAPIKeyRepository
  policies := (System.start now adminFirst).repository
  evaluator := (System.start now adminFirst).evaluator

variable (m : Memory)

def changePolicies (result : Except PolicyService.RepositoryError MemoryPolicyRepository) :
    Memory × MemReply :=
  match result with
  | .ok policies => ({ m with policies }, .policyChanged none)
  | .error err => (m, .policyChanged (some err))

/-- `none` is a nil dereference. -/
def step (env : Env) : Step Memory MemOp MemReply
  | m, .look input => some (m, .looked input)
  | m, .cachedClaims token now =>
      some ({ m with tokenCache := (m.tokenCache.get now token).1 },
        .cached (m.tokenCache.get now token).2)
  | m, .cacheClaims token claims now =>
      some ({ m with tokenCache := m.tokenCache.set now token claims }, .done)
  | m, .evict token => some ({ m with tokenCache := m.tokenCache.remove token }, .done)
  | m, .parseToken token now => some (m, .parsed (validateJwt env.jwt now token))
  | m, .signToken identity policies ttl metadata now tokenID seed =>
      some (m, .signed
        (env.manager.createToken env.jwt identity policies ttl metadata now tokenID seed))
  | m, .findToken tokenID now => some (m, .token (TokenRepository.get m.tokens now tokenID))
  | m, .storeToken token =>
      some ({ m with tokens := TokenRepository.create m.tokens token }, .done)
  | m, .revokeToken tokenID now =>
      some ({ m with tokens := (TokenRepository.revoke m.tokens now tokenID).1 },
        .tokenChanged (TokenRepository.revoke m.tokens now tokenID).2)
  | m, .useToken tokenID now =>
      some ({ m with tokens := (TokenRepository.updateLastUsed m.tokens now tokenID).1 },
        .tokenChanged (TokenRepository.updateLastUsed m.tokens now tokenID).2)
  | m, .findKey keyHash now =>
      (m.apiKeys.getByHash now keyHash).map fun result => (m, .key result)
  | m, .storeKey key => some ({ m with apiKeys := m.apiKeys.create key }, .done)
  | m, .revokeKey keyID now =>
      some ({ m with apiKeys := (m.apiKeys.revoke now keyID).1 },
        .keyChanged (m.apiKeys.revoke now keyID).2)
  | m, .useKey keyID now =>
      some ({ m with apiKeys := (m.apiKeys.updateLastUsed now keyID).1 },
        .keyChanged (m.apiKeys.updateLastUsed now keyID).2)
  | m, .findPolicy name =>
      match m.policies.policies.lookup name with
      | none => some (m, .policy (.error .policyNotFound))
      | some policy => some (m, .policy (.ok policy))
  | m, .createPolicy policy now => some (m.changePolicies (m.policies.create policy now))
  | m, .updatePolicy policy now => some (m.changePolicies (m.policies.update policy now))
  | m, .deletePolicy name => some (m.changePolicies (m.policies.delete name))
  | m, .listPolicies limit offset iteration =>
      some (m, .policies (MemoryPolicyRepository.list (iteration.val m.policies) limit offset))
  | m, .enforce call => some ({ m with evaluator := call.apply m.evaluator }, .done)
  | m, .check policies resource capability =>
      some (m, .checked (m.evaluator.check policies resource capability))
  | m, .evaluate policies resource capability context =>
      some (m, .evaluated (m.evaluator.evaluate policies resource capability context))

end Memory

abbrev Handler := Proc Input MemOp MemReply

namespace Handler

/-- An operation, and what is read off its reply. -/
def ask {β : Type} (op : Input → MemOp) (result : MemReply → Option β) : Handler β :=
  .op op fun o =>
    match result o with
    | some b => .ret b
    | none => .panic

def look : Handler Input :=
  ask .look fun | .looked input => some input | _ => none

def cachedClaims (token : Str) : Handler (Option Claims) :=
  ask (fun input => .cachedClaims token input.now) fun | .cached claims => some claims | _ => none

def cacheClaims (token : Str) (claims : Claims) : Handler Unit :=
  ask (fun input => .cacheClaims token claims input.now) fun | .done => some () | _ => none

def evict (token : Str) : Handler Unit :=
  ask (fun _ => .evict token) fun | .done => some () | _ => none

def parseToken (token : Str) : Handler (Except JwtError Claims) :=
  ask (fun input => .parseToken token input.now) fun | .parsed result => some result | _ => none

def signToken (identity : Str) (policies : List Str) (ttl : ℤ) (metadata : GoMap Str Str) :
    Handler (Except JwtError (Str × Str × ℤ)) :=
  ask (fun input =>
      .signToken identity policies ttl metadata input.now input.tokenID input.seed) fun
    | .signed result => some result
    | _ => none

def findToken (tokenID : Str) : Handler (Except Auth.RepositoryError Token) :=
  ask (fun input => .findToken tokenID input.now) fun | .token result => some result | _ => none

def storeToken (token : ℤ → Token) : Handler Unit :=
  ask (fun input => .storeToken (token input.now)) fun | .done => some () | _ => none

def revokeToken (tokenID : Str) : Handler (Option Auth.RepositoryError) :=
  ask (fun input => .revokeToken tokenID input.now) fun
    | .tokenChanged error => some error
    | _ => none

def useToken (tokenID : Str) : Handler (Option Auth.RepositoryError) :=
  ask (fun input => .useToken tokenID input.now) fun
    | .tokenChanged error => some error
    | _ => none

def findKey (keyHash : Str) : Handler (Except ApiKeys.RepositoryError APIKey) :=
  ask (fun input => .findKey keyHash input.now) fun | .key result => some result | _ => none

def storeKey (key : ℤ → APIKey) : Handler Unit :=
  ask (fun input => .storeKey (key input.now)) fun | .done => some () | _ => none

def revokeKey (keyID : Str) : Handler (Option ApiKeys.RepositoryError) :=
  ask (fun input => .revokeKey keyID input.now) fun | .keyChanged error => some error | _ => none

def useKey (keyID : Str) : Handler (Option ApiKeys.RepositoryError) :=
  ask (fun input => .useKey keyID input.now) fun | .keyChanged error => some error | _ => none

def findPolicy (name : Str) : Handler (Except PolicyService.RepositoryError StoredPolicy) :=
  ask (fun _ => .findPolicy name) fun | .policy result => some result | _ => none

def changePolicies (op : ℤ → MemOp) : Handler (Option PolicyService.RepositoryError) :=
  ask (fun input => op input.now) fun | .policyChanged error => some error | _ => none

def listPolicies (limit offset : ℕ) : Handler (List StoredPolicy) :=
  ask (fun input => .listPolicies limit offset input.iteration) fun
    | .policies policies => some policies
    | _ => none

def enforce (call : PolicyService.Call) : Handler Unit :=
  ask (fun _ => .enforce call) fun | .done => some () | _ => none

def check (policies : List Str) (resource : Str) (capability : Capability) : Handler Bool :=
  ask (fun _ => .check policies resource capability) fun
    | .checked allowed => some allowed
    | _ => none

def evaluate (policies : List Str) (resource : Str) (capability : Capability)
    (context : GoMap Str Str) : Handler EvaluationResult :=
  ask (fun _ => .evaluate policies resource capability context) fun
    | .evaluated result => some result
    | _ => none

end Handler

open Handler

/-! ### The service -/

namespace Service

def createToken (identity : Str) (policies : List Str) (ttl : ℤ) (metadata : GoMap Str Str) :
    Handler (Except JwtError (Str × Str × ℤ)) := do
  let policies := withDefaultPolicy policies
  match ← signToken identity policies ttl metadata with
  | .error err => return .error err
  | .ok (token, id, expiresAt) =>
      storeToken fun now =>
        { id, identity, policies, metadata, expiresAt
          createdAt := now, revokedAt := none, lastUsedAt := none }
      return .ok (token, id, expiresAt)

def validateToken (token : Str) : Handler (Except Auth.AuthError Claims) := do
  match ← cachedClaims token with
  | some claims => return .ok claims
  | none =>
      match ← parseToken token with
      | .error err => return .error (.ofJwt err)
      | .ok claims =>
          match ← findToken claims.tokenID with
          | .error .tokenRevoked => return .error .invalidToken
          | _ =>
              cacheClaims token claims
              return .ok claims

variable (env : Env)

def validateTokenWithPolicy (token resource action : Str) :
    Handler (Except PolicyCheckError Claims) := do
  match ← validateToken token with
  | .error err => return .error (.auth err)
  | .ok claims =>
      if ← check claims.policies resource (actionToCapability env.toLower action) then
        return .ok claims
      else return .error .permissionDenied

/-- The key and its identifier, or `none` if the random source fails. -/
def createAPIKey (req : ApiKeys.Request) : Handler (Option (Str × Str)) := do
  match (← look).keyBytes with
  | none => return none
  | some keyBytes =>
      let apiKey := "vk_".toList ++ Base64.urlEncodeToString keyBytes.val
      let expiresAt := expiration (← look).now req.ttl
      let keyID := Base64.urlEncodeToString (← look).idBytes.val
      storeKey fun now =>
        { id := keyID, name := req.name, keyHash := hashAPIKey env.sha256 apiKey
          identity := req.identity, policies := req.policies, metadata := req.metadata
          createdAt := now, expiresAt, revokedAt := none, lastUsedAt := none }
      return some (apiKey, keyID)

def validateAPIKey (apiKey : Str) : Handler (Except ApiKeys.AuthError APIKey) := do
  match ← findKey (hashAPIKey env.sha256 apiKey) with
  | .error _ => return .error .invalidAPIKey
  | .ok key => return .ok key

def createPolicy (name : Str) (description : String) (rules : List Rule) :
    Handler (Option PolicyService.RepositoryError) := do
  match ← changePolicies (.createPolicy { name, description, rules }) with
  | some err => return some err
  | none =>
      enforce ⟨name, some rules⟩
      return none

def updatePolicy (name : Str) (description : String) (rules : List Rule) :
    Handler (Option PolicyService.RepositoryError) := do
  match ← changePolicies (.updatePolicy { name, description, rules }) with
  | some err => return some err
  | none =>
      enforce ⟨name, some rules⟩
      return none

def deletePolicy (name : Str) : Handler (Option PolicyService.RepositoryError) := do
  match ← changePolicies (fun _ => .deletePolicy name) with
  | some err => return some err
  | none =>
      enforce ⟨name, none⟩
      return none

end Service

/-! ### The handler -/

inductive Code where
  | invalidArgument
  | notFound
  | alreadyExists
  | internal
  deriving DecidableEq

structure Status where
  code : Code
  message : String
  deriving DecidableEq

structure ValidateTokenRequest where
  token : Str
  resource : Str
  action : Str

structure ValidateTokenResponse where
  valid : Bool
  identity : Str := []
  tokenId : Str := []
  policies : List Str := []
  metadata : GoMap Str Str := ∅
  expiresAt : ℤ := 0
  errorMessage : String := ""

structure RefreshTokenRequest where
  token : Str
  ttlSeconds : Int64

structure RefreshTokenResponse where
  token : Str
  tokenId : Str
  expiresAt : ℤ

structure ValidateAPIKeyResponse where
  valid : Bool
  identity : Str := []
  keyId : Str := []
  policies : List Str := []
  errorMessage : String := ""

structure PolicyRequest where
  name : Str
  description : String
  rules : List Rule

/-- A policy as it is reported. The zero time is long before 1970. -/
structure PolicyMessage where
  name : Str
  description : String
  rules : List Rule
  createdAt : ℤ
  updatedAt : ℤ

structure EvaluatePolicyRequest where
  policies : List Str
  resource : Str
  action : Str
  context : GoMap Str Str

inductive Request where
  | createToken (req : CreateTokenRequest)
  | validateToken (req : ValidateTokenRequest)
  | revokeToken (tokenId : Str)
  | refreshToken (req : RefreshTokenRequest)
  | listTokens
  | createAPIKey (req : CreateAPIKeyRequest)
  | validateAPIKey (apiKey : Str)
  | revokeAPIKey (keyId : Str)
  | listAPIKeys
  | createPolicy (req : PolicyRequest)
  | getPolicy (name : Str)
  | updatePolicy (req : PolicyRequest)
  | deletePolicy (name : Str)
  | listPolicies
  | evaluatePolicy (req : EvaluatePolicyRequest)
  /-- The calls that the service makes by itself. -/
  | useToken (tokenID : Str)
  | useKey (keyID : Str)
  | evict (token : Str)

inductive Response where
  | createToken (resp : CreateTokenResponse)
  | validateToken (resp : ValidateTokenResponse)
  | revokeToken
  | refreshToken (resp : RefreshTokenResponse)
  | listTokens (tokens : List Token)
  | createAPIKey (resp : CreateAPIKeyResponse)
  | validateAPIKey (resp : ValidateAPIKeyResponse)
  | revokeAPIKey
  | listAPIKeys (keys : List APIKey)
  | createPolicy (name : Str) (createdAt : ℤ)
  | getPolicy (policy : PolicyMessage)
  | updatePolicy (name : Str) (updatedAt : ℤ)
  | deletePolicy
  | listPolicies (policies : List PolicyMessage)
  | evaluatePolicy (result : EvaluationResult)
  | done

abbrev Answer := Except Status Response

def required (field : String) : Status := ⟨.invalidArgument, field ++ " is required"⟩

def createToken (req : CreateTokenRequest) : Handler Answer :=
  if req.identity = [] then return .error (required "identity")
  else do
    match ← Service.createToken req.identity req.policies (seconds req.ttlSeconds).toInt
        req.metadata with
    | .error _ => return .error ⟨.internal, "failed to create token"⟩
    | .ok (token, tokenId, expiresAt) =>
        return .ok (.createToken
          { token, tokenId, expiresAt := unix expiresAt, policies := req.policies })

/-- The methods of `*jwt.Claims`: those of the registered claims that it embeds. -/
def claimsMethods : List String :=
  ["GetExpirationTime", "GetNotBefore", "GetIssuedAt", "GetAudience", "GetIssuer", "GetSubject"]

/-- The interface that the handler asserts the claims to have. -/
def assertedMethods : List String :=
  ["GetIdentity", "GetTokenID", "GetPolicies", "GetMetadata", "GetExpiresAt"]

/-- The response to a token that is valid. A failed type assertion is a panic. -/
def validResponse (claims : Claims) : Handler Answer :=
  if ∀ method ∈ assertedMethods, method ∈ claimsMethods then
    return .ok (.validateToken
      { valid := true, identity := claims.identity, tokenId := claims.tokenID
        policies := claims.policies, metadata := claims.metadata
        expiresAt := claims.expiresAt.getD 0 })
  else .panic

def invalidResponse (message : String) : Handler Answer :=
  return .ok (.validateToken { valid := false, errorMessage := message })

def validateToken (env : Env) (req : ValidateTokenRequest) : Handler Answer :=
  if req.token = [] then return .error (required "token")
  else if req.resource ≠ [] ∧ req.action ≠ [] then do
    match ← Service.validateTokenWithPolicy env req.token req.resource req.action with
    | .error err => invalidResponse err.message
    | .ok claims => validResponse claims
  else do
    match ← Service.validateToken req.token with
    | .error err => invalidResponse err.message
    | .ok claims => validResponse claims

def revokeToken (tokenId : Str) : Handler Answer :=
  if tokenId = [] then return .error (required "token_id")
  else do
    match ← Handler.revokeToken tokenId with
    | some .tokenNotFound => return .error ⟨.notFound, "token not found"⟩
    | some _ => return .error ⟨.internal, "failed to revoke token"⟩
    | none => return .ok .revokeToken

/-- One hour unless asked otherwise. -/
def refreshTTL (ttlSeconds : Int64) : ℤ :=
  if (seconds ttlSeconds).toInt = 0 then 3600 * 10 ^ 9 else (seconds ttlSeconds).toInt

def refreshToken (req : RefreshTokenRequest) : Handler Answer :=
  if req.token = [] then return .error (required "token")
  else do
    match ← Service.validateToken req.token with
    | .error _ => return .error ⟨.invalidArgument, "invalid token"⟩
    | .ok claims =>
        match ← Service.createToken claims.identity claims.policies (refreshTTL req.ttlSeconds)
            claims.metadata with
        | .error _ => return .error ⟨.internal, "failed to refresh token"⟩
        | .ok (token, tokenId, expiresAt) =>
            return .ok (.refreshToken { token, tokenId, expiresAt := unix expiresAt })

def listTokens : Handler Answer := return .ok (.listTokens [])

def createAPIKey (env : Env) (req : CreateAPIKeyRequest) : Handler Answer :=
  if req.name = [] then return .error (required "name")
  else if req.identity = [] then return .error (required "identity")
  else do
    match ← Service.createAPIKey env
        { name := req.name, identity := req.identity, policies := req.policies
          ttl := (seconds req.ttlSeconds).toInt, metadata := req.metadata } with
    | none => return .error ⟨.internal, "failed to create API key"⟩
    | some (apiKey, keyId) => return .ok (.createAPIKey { apiKey, keyId })

def validateAPIKey (env : Env) (apiKey : Str) : Handler Answer :=
  if apiKey = [] then return .error (required "api_key")
  else do
    match ← Service.validateAPIKey env apiKey with
    | .error _ =>
        return .ok (.validateAPIKey { valid := false, errorMessage := "invalid API key" })
    | .ok key =>
        return .ok (.validateAPIKey
          { valid := true, identity := key.identity, keyId := key.id, policies := key.policies })

def revokeAPIKey (keyId : Str) : Handler Answer :=
  if keyId = [] then return .error (required "key_id")
  else do
    match ← Handler.revokeKey keyId with
    | some .apiKeyNotFound => return .error ⟨.notFound, "API key not found"⟩
    | some _ => return .error ⟨.internal, "failed to revoke API key"⟩
    | none => return .ok .revokeAPIKey

def listAPIKeys : Handler Answer := return .ok (.listAPIKeys [])

def createPolicy (req : PolicyRequest) : Handler Answer :=
  if req.name = [] then return .error (required "name")
  else do
    match ← Service.createPolicy req.name req.description req.rules with
    | some .policyExists => return .error ⟨.alreadyExists, "policy already exists"⟩
    | some _ => return .error ⟨.internal, "failed to create policy"⟩
    | none => return .ok (.createPolicy req.name (unix (← look).now))

def unixTime (time : Option ℤ) : ℤ := unix (time.getD zeroTime)

def policyMessage (p : StoredPolicy) : PolicyMessage where
  name := p.name
  description := p.description
  rules := p.rules
  createdAt := unixTime p.createdAt
  updatedAt := unixTime p.updatedAt

def getPolicy (name : Str) : Handler Answer :=
  if name = [] then return .error (required "name")
  else do
    match ← findPolicy name with
    | .error .policyNotFound => return .error ⟨.notFound, "policy not found"⟩
    | .error _ => return .error ⟨.internal, "failed to get policy"⟩
    | .ok p => return .ok (.getPolicy (policyMessage p))

def updatePolicy (req : PolicyRequest) : Handler Answer :=
  if req.name = [] then return .error (required "name")
  else do
    match ← Service.updatePolicy req.name req.description req.rules with
    | some .policyNotFound => return .error ⟨.notFound, "policy not found"⟩
    | some _ => return .error ⟨.internal, "failed to update policy"⟩
    | none => return .ok (.updatePolicy req.name (unix (← look).now))

def deletePolicy (name : Str) : Handler Answer :=
  if name = [] then return .error (required "name")
  else do
    match ← Service.deletePolicy name with
    | some .policyNotFound => return .error ⟨.notFound, "policy not found"⟩
    | some _ => return .error ⟨.internal, "failed to delete policy"⟩
    | none => return .ok .deletePolicy

def listPolicies : Handler Answer := do
  let policies ← Handler.listPolicies 1000 0
  return .ok (.listPolicies (policies.map policyMessage))

def evaluatePolicy (env : Env) (req : EvaluatePolicyRequest) : Handler Answer :=
  if req.policies = [] then return .error (required "policies")
  else if req.resource = [] then return .error (required "resource")
  else if req.action = [] then return .error (required "action")
  else do
    let result ← evaluate req.policies req.resource (actionToCapability env.toLower req.action)
      req.context
    return .ok (.evaluatePolicy result)

def handle (env : Env) : Request → Handler Answer
  | .createToken req => createToken req
  | .validateToken req => validateToken env req
  | .revokeToken tokenId => revokeToken tokenId
  | .refreshToken req => refreshToken req
  | .listTokens => listTokens
  | .createAPIKey req => createAPIKey env req
  | .validateAPIKey apiKey => validateAPIKey env apiKey
  | .revokeAPIKey keyId => revokeAPIKey keyId
  | .listAPIKeys => listAPIKeys
  | .createPolicy req => createPolicy req
  | .getPolicy name => getPolicy name
  | .updatePolicy req => updatePolicy req
  | .deletePolicy name => deletePolicy name
  | .listPolicies => listPolicies
  | .evaluatePolicy req => evaluatePolicy env req
  | .useToken tokenID => do
      let _ ← Handler.useToken tokenID
      return .ok .done
  | .useKey keyID => do
      let _ ← Handler.useKey keyID
      return .ok .done
  | .evict token => do
      Handler.evict token
      return .ok .done

abbrev Server := Pool Memory Input MemOp MemReply Request Answer

def Server.new (now cacheTTL : ℤ) (adminFirst : Bool) : Server :=
  .start (.new now cacheTTL adminFirst)

abbrev Trace := Calls.Trace Input MemOp MemReply Request Answer

def step (env : Env) : Step Server (Event Input Request) (Output MemOp MemReply Request Answer) :=
  Calls.step (Memory.step env) (handle env)

end GrpcVault.AuthRpc
