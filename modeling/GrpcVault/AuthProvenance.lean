import GrpcVault.AuthEndpoints

/-!
# Where the tokens of the auth service come from

The contract of the endpoints: claims are cached only under a token that carries them, a token is
signed only for the request to create it or for the claims of the token that it refreshes, and only
`ValidateToken` panics. Every run keeps it (`kept`). So a token never gives more than the request it
goes back to has asked for, however often it is refreshed, unless the service has refreshed a token
that it had not handed out (`token_origin`); and no call of `ValidateToken` ever answers that a
token is valid (`never_valid`).
-/

namespace GrpcVault.AuthRpc

open GoText EventSystem Calls Auth Acl ApiKeys PolicyService AuthHandler Handler

variable (env : Env)

/-- The token carries the claims, under the service's own signature. -/
def Carries (token : Str) (claims : Claims) : Prop := env.jwt.verify token = some claims

/-- The token was signed for this identity, with these policies and metadata. -/
def SignedFor (token identity : Str) (policies : List Str) (metadata : GoMap Str Str) : Prop :=
  ∃ claims, Carries env token claims ∧ claims.identity = identity ∧ claims.policies = policies ∧
    claims.metadata = metadata

/-- What a request allows its call to sign. -/
def MaySign (identity : Str) (policies : List Str) (metadata : GoMap Str Str) : Request → Prop
  | .createToken req =>
      identity = req.identity ∧ policies = withDefaultPolicy req.policies ∧ metadata = req.metadata
  | .refreshToken req => ∃ claims, Carries env req.token claims ∧ identity = claims.identity ∧
      policies = withDefaultPolicy claims.policies ∧ metadata = claims.metadata
  | _ => False

/-- Only `ValidateToken` may fail, for a token that carries claims. -/
def contract : Contract MemOp Request Answer where
  op req
    | .signToken identity policies _ metadata _ _ _ => MaySign env identity policies metadata req
    | .cacheClaims token claims _ => Carries env token claims
    | _ => True
  fails req := ∃ r claims, req = .validateToken r ∧ Carries env r.token claims
  answer req
    | .ok (.createToken resp) => ∃ identity policies metadata,
        MaySign env identity policies metadata req ∧
          SignedFor env resp.token identity policies metadata
    | .ok (.refreshToken resp) => ∃ identity policies metadata,
        MaySign env identity policies metadata req ∧
          SignedFor env resp.token identity policies metadata
    | .ok (.validateToken resp) => resp.valid = false
    | _ => True

/-- Claims are cached under the token that carries them, and a hash leads to a record. -/
structure Sound (m : Memory) : Prop where
  cached : ∀ token entry, m.tokenCache.entries token = some entry → Carries env token entry.value
  recorded : ∀ keyHash id, m.apiKeys.byHash.lookup keyHash = some id →
    (m.apiKeys.keys.lookup id).isSome

variable {env} {m m' : Memory} {op : MemOp} {r : MemReply} {req : Request}

theorem sound_new (now cacheTTL : ℤ) (adminFirst : Bool) :
    Sound env (.new now cacheTTL adminFirst) := ⟨nofun, nofun⟩

theorem recorded_insert {r : MemoryAPIKeyRepository} {id : Str} {key : APIKey}
    (h : ∀ keyHash id, r.byHash.lookup keyHash = some id → (r.keys.lookup id).isSome)
    {keyHash id' : Str} (hid' : r.byHash.lookup keyHash = some id') :
    ((r.keys.insert id key).lookup id').isSome := by
  by_cases hid : id' = id
  · rw [hid, Finmap.lookup_insert]
    rfl
  · rw [Finmap.lookup_insert_of_ne _ hid]
    exact h keyHash id' hid'

theorem entries_of_remove {c : TokenCache} {token token' : Str} {entry : CacheEntry Claims}
    (h : (c.remove token).entries token' = some entry) : c.entries token' = some entry := by
  by_cases htoken : token' = token
  · subst htoken
    cases (Function.update_self ..).symm.trans h
  · exact (Function.update_of_ne htoken _ _).symm.trans h

theorem entries_of_get {c : TokenCache} {now : ℤ} {token token' : Str} {entry : CacheEntry Claims}
    (h : (c.get now token).1.entries token' = some entry) : c.entries token' = some entry := by
  obtain ⟨_, hget⟩ | ⟨_, _, _, _, hget⟩ | ⟨_, _, _, hget⟩ := c.get_cases now token
  · rwa [hget] at h
  · rw [hget] at h
    exact entries_of_remove h
  · rwa [hget] at h

theorem changePolicies_cases (hm : Sound env m)
    (result : Except PolicyService.RepositoryError MemoryPolicyRepository) :
    ∃ m' error, m.changePolicies result = (m', .policyChanged error) ∧ Sound env m' := by
  cases result with
  | ok policies => exact ⟨_, _, rfl, hm.cached, hm.recorded⟩
  | error err => exact ⟨_, _, rfl, hm⟩

theorem safe_contract : (contract env).Safe (Memory.step env) (Sound env) := by
  intro m req op m' o hm hop hs
  cases op with
  | cachedClaims token now =>
      cases hs
      exact ⟨fun token' entry h => hm.cached token' entry (entries_of_get h), hm.recorded⟩
  | evict token =>
      cases hs
      exact ⟨fun token' entry h => hm.cached token' entry (entries_of_remove h), hm.recorded⟩
  | cacheClaims token claims now =>
      cases hs
      refine ⟨fun token' entry h => ?_, hm.recorded⟩
      by_cases htoken : token' = token
      · subst htoken
        cases (Function.update_self ..).symm.trans h
        exact hop
      · exact hm.cached token' entry ((Function.update_of_ne htoken _ _).symm.trans h)
  | storeKey key =>
      cases hs
      refine ⟨hm.cached, fun keyHash id h => ?_⟩
      by_cases hhash : keyHash = key.keyHash
      · subst hhash
        cases (Finmap.lookup_insert _).symm.trans h
        rw [MemoryAPIKeyRepository.create, Finmap.lookup_insert]
        rfl
      · exact recorded_insert hm.recorded ((Finmap.lookup_insert_of_ne _ hhash).symm.trans h)
  | revokeKey keyID now =>
      cases hs
      refine ⟨hm.cached, ?_⟩
      unfold MemoryAPIKeyRepository.revoke
      split
      · exact hm.recorded
      · exact fun keyHash id h => recorded_insert hm.recorded h
  | useKey keyID now =>
      cases hs
      refine ⟨hm.cached, ?_⟩
      unfold MemoryAPIKeyRepository.updateLastUsed
      split
      · exact hm.recorded
      · exact fun keyHash id h => recorded_insert hm.recorded h
  | findKey keyHash now =>
      obtain ⟨_, _, heq⟩ := Option.map_eq_some_iff.mp hs
      cases heq
      exact hm
  | findPolicy name =>
      rw [Memory.step] at hs
      split at hs <;> cases hs <;> exact hm
  | createPolicy policy now | updatePolicy policy now | deletePolicy name =>
      obtain ⟨m₁, error, heq, hm₁⟩ := changePolicies_cases hm _
      cases (congrArg some heq).symm.trans hs
      exact hm₁
  | look | parseToken | signToken | findToken | storeToken | revokeToken | useToken | listPolicies
  | enforce | check | evaluate =>
      cases hs
      exact ⟨hm.cached, hm.recorded⟩

section Programs

variable {β γ : Type} {C : Prop} {Q : γ → Prop}

theorem keeps_ask {ask : Input → MemOp} {result : MemReply → Option β} {f : β → Handler γ}
    (hop : ∀ input, (contract env).op req (ask input))
    (hf : ∀ input m, Sound env m → ∃ m' o b, Memory.step env m (ask input) = some (m', o) ∧
      result o = some b ∧ (f b).Keeps (Memory.step env) (Sound env) ((contract env).op req) C Q) :
    (Handler.ask ask result >>= f).Keeps (Memory.step env) (Sound env) ((contract env).op req) C
      Q := by
  intro input
  refine ⟨hop input, fun m hm => ?_⟩
  obtain ⟨m', o, b, hstep, hb, hkeeps⟩ := hf input m hm
  rw [hstep]
  dsimp only
  rw [hb]
  exact hkeeps

/-- The claims that a validation returns are those of the token. -/
theorem keeps_validateToken (token : Str) :
    (Service.validateToken token).Keeps (Memory.step env) (Sound env) ((contract env).op req) C
      fun result => ∀ claims, result = .ok claims → Carries env token claims := by
  refine keeps_ask (fun _ => trivial) fun input m hm => ⟨_, _, _, rfl, rfl, ?_⟩
  cases hcached : (m.tokenCache.get input.now token).2 with
  | some claims =>
      obtain ⟨entry, hentry, rfl, _⟩ := LRUCache.get_eq_some_iff.mp hcached
      rintro _ ⟨⟩
      exact hm.cached token entry hentry
  | none =>
      refine keeps_ask (fun _ => trivial) fun input m _ => ⟨_, _, _, rfl, rfl, ?_⟩
      cases hparse : validateJwt env.jwt input.now token with
      | error err => nofun
      | ok claims =>
          have hcarries : Carries env token claims := (validateJwt_eq_ok hparse).1
          refine keeps_ask (fun _ => trivial) fun input m _ => ⟨_, _, _, rfl, rfl, ?_⟩
          split
          · nofun
          · refine keeps_ask (fun _ => hcarries) fun input m _ => ⟨_, _, _, rfl, rfl, ?_⟩
            rintro _ ⟨⟩
            exact hcarries

theorem keeps_validateTokenWithPolicy (token resource action : Str) :
    (Service.validateTokenWithPolicy env token resource action).Keeps (Memory.step env) (Sound env)
      ((contract env).op req) C
      fun result => ∀ claims, result = .ok claims → Carries env token claims := by
  refine (keeps_validateToken token).bind fun result hresult => ?_
  cases result with
  | error err => nofun
  | ok claims =>
      refine keeps_ask (fun _ => trivial) fun input m _ => ⟨_, _, _, rfl, rfl, ?_⟩
      split
      · rintro _ ⟨⟩
        exact hresult claims rfl
      · nofun

/-- A token that is created carries what it is created for. -/
theorem keeps_createToken (hlaw : env.jwt.Lawful) {identity : Str} {policies : List Str} {ttl : ℤ}
    {metadata : GoMap Str Str}
    (hsign : MaySign env identity (withDefaultPolicy policies) metadata req) :
    (Service.createToken identity policies ttl metadata).Keeps (Memory.step env) (Sound env)
      ((contract env).op req) C
      fun result => ∀ token id expiresAt, result = .ok (token, id, expiresAt) →
        SignedFor env token identity (withDefaultPolicy policies) metadata := by
  refine keeps_ask (fun _ => hsign) fun input m _ => ⟨_, _, _, rfl, rfl, ?_⟩
  cases hcreate : env.manager.createToken env.jwt identity (withDefaultPolicy policies) ttl metadata
      input.now input.tokenID input.seed with
  | error err => nofun
  | ok created =>
      obtain ⟨token, id, expiresAt⟩ := created
      have hsigned : SignedFor env token identity (withDefaultPolicy policies) metadata := by
        rw [Manager.createToken] at hcreate
        split at hcreate
        · cases hcreate
        · rename_i hs
          cases hcreate
          exact ⟨_, hlaw.verify_sign hs, rfl, rfl, rfl⟩
      refine keeps_ask (fun _ => trivial) fun input m _ => ⟨_, _, _, rfl, rfl, ?_⟩
      rintro _ _ _ ⟨⟩
      exact hsigned

theorem keeps_changePolicies {change : ℤ → MemOp}
    {f : Option PolicyService.RepositoryError → Handler γ}
    {result : Memory → ℤ → Except PolicyService.RepositoryError MemoryPolicyRepository}
    (hchange : ∀ m now, Memory.step env m (change now) = some (m.changePolicies (result m now)))
    (hop : ∀ now, (contract env).op req (change now))
    (hf : ∀ error, (f error).Keeps (Memory.step env) (Sound env) ((contract env).op req) C Q) :
    (Handler.changePolicies change >>= f).Keeps (Memory.step env) (Sound env)
      ((contract env).op req) C Q := by
  refine keeps_ask (fun input => hop input.now) fun input m hm => ?_
  obtain ⟨m', error, heq, _⟩ := changePolicies_cases hm (result m input.now)
  exact ⟨m', _, error, by rw [hchange, heq], rfl, hf error⟩

theorem keeps_findKey {keyHash : Str} {f : Except ApiKeys.RepositoryError APIKey → Handler γ}
    (hf : ∀ result, (f result).Keeps (Memory.step env) (Sound env) ((contract env).op req) C Q) :
    (Handler.findKey keyHash >>= f).Keeps (Memory.step env) (Sound env)
      ((contract env).op req) C Q := by
  refine keeps_ask (fun _ => trivial) fun input m hm => ?_
  have hfound : ∃ result, m.apiKeys.getByHash input.now keyHash = some result := by
    unfold MemoryAPIKeyRepository.getByHash
    split
    · exact ⟨_, rfl⟩
    · rename_i id hid
      obtain ⟨key, hkey⟩ := Option.isSome_iff_exists.mp (hm.recorded keyHash id hid)
      rw [hkey]
      exact ⟨_, rfl⟩
  obtain ⟨result, hresult⟩ := hfound
  exact ⟨m, .key result, result, by rw [Memory.step, hresult]; rfl, rfl, hf result⟩

theorem keeps_createAPIKey (request : ApiKeys.Request) :
    (Service.createAPIKey env request).Keeps (Memory.step env) (Sound env) ((contract env).op req) C
      fun _ => True := by
  refine keeps_ask (fun _ => trivial) fun input m _ => ⟨_, _, _, rfl, rfl, ?_⟩
  cases input.keyBytes with
  | none => trivial
  | some keyBytes =>
      refine keeps_ask (fun _ => trivial) fun _ _ _ => ⟨_, _, _, rfl, rfl, ?_⟩
      refine keeps_ask (fun _ => trivial) fun _ _ _ => ⟨_, _, _, rfl, rfl, ?_⟩
      exact keeps_ask (fun _ => trivial) fun _ _ _ => ⟨_, _, _, rfl, rfl, trivial⟩

end Programs

section Endpoints

abbrev Fulfils (env : Env) (req : Request) (q : Handler Answer) : Prop :=
  (contract env).Keeps (Memory.step env) (Sound env) req q

theorem fulfils_createToken (hlaw : env.jwt.Lawful) (req : CreateTokenRequest) :
    Fulfils env (.createToken req) (createToken req) := by
  unfold createToken
  split
  · trivial
  · have hsign : MaySign env req.identity (withDefaultPolicy req.policies) req.metadata
        (.createToken req) := ⟨rfl, rfl, rfl⟩
    refine (keeps_createToken hlaw hsign).bind fun result hresult => ?_
    cases result with
    | error err => trivial
    | ok created =>
        obtain ⟨token, id, expiresAt⟩ := created
        exact ⟨_, _, _, hsign, hresult token id expiresAt rfl⟩

theorem fulfils_refreshToken (hlaw : env.jwt.Lawful) (req : RefreshTokenRequest) :
    Fulfils env (.refreshToken req) (refreshToken req) := by
  unfold refreshToken
  split
  · trivial
  · refine (keeps_validateToken req.token).bind fun result hresult => ?_
    cases result with
    | error err => trivial
    | ok claims =>
        have hsign : MaySign env claims.identity (withDefaultPolicy claims.policies)
            claims.metadata (.refreshToken req) := ⟨claims, hresult claims rfl, rfl, rfl, rfl⟩
        refine (keeps_createToken hlaw hsign).bind fun result hresult => ?_
        cases result with
        | error err => trivial
        | ok created =>
            obtain ⟨token, id, expiresAt⟩ := created
            exact ⟨_, _, _, hsign, hresult token id expiresAt rfl⟩

/-- The claims do not have the methods that they are asserted to have. -/
theorem validResponse_eq (claims : Claims) : validResponse claims = .panic := by
  unfold validResponse
  rw [if_neg (by decide)]

theorem fulfils_validateToken (req : ValidateTokenRequest) :
    Fulfils env (.validateToken req) (validateToken env req) := by
  unfold validateToken
  split
  · trivial
  · split
    · refine (keeps_validateTokenWithPolicy req.token req.resource req.action).bind
        fun result hresult => ?_
      cases result with
      | error err => rfl
      | ok claims =>
          dsimp only
          rw [validResponse_eq]
          exact ⟨req, claims, rfl, hresult claims rfl⟩
    · refine (keeps_validateToken req.token).bind fun result hresult => ?_
      cases result with
      | error err => rfl
      | ok claims =>
          dsimp only
          rw [validResponse_eq]
          exact ⟨req, claims, rfl, hresult claims rfl⟩

theorem fulfils_revokeToken (tokenId : Str) :
    Fulfils env (.revokeToken tokenId) (revokeToken tokenId) := by
  unfold revokeToken
  split
  · trivial
  · refine keeps_ask (fun _ => trivial) fun input m _ => ⟨_, _, _, rfl, rfl, ?_⟩
    split <;> trivial

theorem fulfils_createAPIKey (req : CreateAPIKeyRequest) :
    Fulfils env (.createAPIKey req) (createAPIKey env req) := by
  unfold createAPIKey
  split
  · trivial
  · split
    · trivial
    · refine (keeps_createAPIKey _).bind fun result _ => ?_
      cases result <;> trivial

theorem fulfils_validateAPIKey (apiKey : Str) :
    Fulfils env (.validateAPIKey apiKey) (validateAPIKey env apiKey) := by
  unfold validateAPIKey
  split
  · trivial
  · rw [Service.validateAPIKey, Proc.bind_assoc]
    refine keeps_findKey fun result => ?_
    cases result <;> trivial

theorem fulfils_revokeAPIKey (keyId : Str) :
    Fulfils env (.revokeAPIKey keyId) (revokeAPIKey keyId) := by
  unfold revokeAPIKey
  split
  · trivial
  · refine keeps_ask (fun _ => trivial) fun input m _ => ⟨_, _, _, rfl, rfl, ?_⟩
    split <;> trivial

theorem keeps_policyChange {C : Prop} {change : ℤ → MemOp} {call : PolicyService.Call}
    {result : Memory → ℤ → Except PolicyService.RepositoryError MemoryPolicyRepository}
    (hchange : ∀ m now, Memory.step env m (change now) = some (m.changePolicies (result m now)))
    (hop : ∀ now, (contract env).op req (change now)) :
    (do
      match ← Handler.changePolicies change with
      | some err => return some err
      | none =>
          enforce call
          return none : Handler (Option PolicyService.RepositoryError)).Keeps (Memory.step env)
      (Sound env) ((contract env).op req) C fun _ => True := by
  refine keeps_changePolicies hchange hop fun error => ?_
  cases error with
  | some err => trivial
  | none => exact keeps_ask (fun _ => trivial) fun _ _ _ => ⟨_, _, _, rfl, rfl, trivial⟩

theorem fulfils_createPolicy (req : PolicyRequest) :
    Fulfils env (.createPolicy req) (createPolicy req) := by
  unfold createPolicy
  split
  · trivial
  · have hchange : (Service.createPolicy req.name req.description req.rules).Keeps
        (Memory.step env) (Sound env) ((contract env).op (.createPolicy req))
        ((contract env).fails (.createPolicy req)) fun _ => True :=
      keeps_policyChange (fun _ _ => rfl) fun _ => trivial
    refine hchange.bind fun error _ => ?_
    split
    · trivial
    · trivial
    · exact keeps_ask (fun _ => trivial) fun _ _ _ => ⟨_, _, _, rfl, rfl, trivial⟩

theorem fulfils_updatePolicy (req : PolicyRequest) :
    Fulfils env (.updatePolicy req) (updatePolicy req) := by
  unfold updatePolicy
  split
  · trivial
  · have hchange : (Service.updatePolicy req.name req.description req.rules).Keeps
        (Memory.step env) (Sound env) ((contract env).op (.updatePolicy req))
        ((contract env).fails (.updatePolicy req)) fun _ => True :=
      keeps_policyChange (fun _ _ => rfl) fun _ => trivial
    refine hchange.bind fun error _ => ?_
    split
    · trivial
    · trivial
    · exact keeps_ask (fun _ => trivial) fun _ _ _ => ⟨_, _, _, rfl, rfl, trivial⟩

theorem fulfils_deletePolicy (name : Str) :
    Fulfils env (.deletePolicy name) (deletePolicy name) := by
  unfold deletePolicy
  split
  · trivial
  · have hchange : (Service.deletePolicy name).Keeps (Memory.step env) (Sound env)
        ((contract env).op (.deletePolicy name)) ((contract env).fails (.deletePolicy name))
        fun _ => True :=
      keeps_policyChange (fun _ _ => rfl) fun _ => trivial
    refine hchange.bind fun error _ => ?_
    split <;> trivial

theorem fulfils_getPolicy (name : Str) : Fulfils env (.getPolicy name) (getPolicy name) := by
  unfold getPolicy
  split
  · trivial
  · refine keeps_ask (fun _ => trivial) fun _ m _ => ?_
    have hfound : ∃ result, Memory.step env m (.findPolicy name) = some (m, .policy result) := by
      rw [Memory.step]
      split <;> exact ⟨_, rfl⟩
    obtain ⟨result, hresult⟩ := hfound
    refine ⟨m, _, result, hresult, rfl, ?_⟩
    split <;> trivial

theorem fulfils_evaluatePolicy (req : EvaluatePolicyRequest) :
    Fulfils env (.evaluatePolicy req) (evaluatePolicy env req) := by
  unfold evaluatePolicy
  split
  · trivial
  split
  · trivial
  split
  · trivial
  · exact keeps_ask (fun _ => trivial) fun _ _ _ => ⟨_, _, _, rfl, rfl, trivial⟩

theorem fulfils_handle (hlaw : env.jwt.Lawful) (req : Request) :
    Fulfils env req (handle env req) := by
  cases req with
  | createToken req => exact fulfils_createToken hlaw req
  | validateToken req => exact fulfils_validateToken req
  | revokeToken tokenId => exact fulfils_revokeToken tokenId
  | refreshToken req => exact fulfils_refreshToken hlaw req
  | createAPIKey req => exact fulfils_createAPIKey req
  | validateAPIKey apiKey => exact fulfils_validateAPIKey apiKey
  | revokeAPIKey keyId => exact fulfils_revokeAPIKey keyId
  | createPolicy req => exact fulfils_createPolicy req
  | getPolicy name => exact fulfils_getPolicy name
  | updatePolicy req => exact fulfils_updatePolicy req
  | deletePolicy name => exact fulfils_deletePolicy name
  | evaluatePolicy req => exact fulfils_evaluatePolicy req
  | listTokens | listAPIKeys => trivial
  | listPolicies | useToken tokenID | useKey keyID | evict token =>
      exact keeps_ask (fun _ => trivial) fun _ _ _ => ⟨_, _, _, rfl, rfl, trivial⟩

end Endpoints

section Runs

variable {now cacheTTL : ℤ} {adminFirst : Bool} {tr tr' : Trace} {p : Server} {token token' : Str}

theorem kept (hlaw : env.jwt.Lawful) (hrun : Run (step env) (.new now cacheTTL adminFirst) tr p) :
    (contract env).Kept (Memory.step env) (Sound env) tr p :=
  Contract.kept_of_run safe_contract (fulfils_handle hlaw) (sound_new now cacheTTL adminFirst) hrun

def Response.token? : Response → Option Str
  | .createToken resp => some resp.token
  | .refreshToken resp => some resp.token
  | _ => none

def HandedOut (tr : Trace) (token : Str) : Prop :=
  ∃ x req resp, (x, .answered req (.ok resp)) ∈ tr ∧ resp.token? = some token

variable (env) in
/-- The token was signed for what a call of `CreateToken` has asked for. -/
def Requested (tr : Trace) (token : Str) : Prop :=
  ∃ id req, (.call id (.createToken req), .began) ∈ tr ∧
    SignedFor env token req.identity (withDefaultPolicy req.policies) req.metadata

variable (env) in
/-- The token was signed for the claims of one that was refreshed and had not been handed out. -/
def Imported (tr : Trace) (token : Str) : Prop :=
  ∃ tr₁ x req resp tr₂, tr = tr₁ ++ (x, .answered (.refreshToken req) (.ok resp)) :: tr₂ ∧
    ¬ HandedOut tr₁ req.token ∧ ∃ claims, Carries env req.token claims ∧
      SignedFor env token claims.identity (withDefaultPolicy claims.policies) claims.metadata

theorem Requested.append (h : Requested env tr token) : Requested env (tr ++ tr') token := by
  obtain ⟨id, req, hcall, hsigned⟩ := h
  exact ⟨id, req, List.mem_append_left _ hcall, hsigned⟩

theorem Imported.append (h : Imported env tr token) : Imported env (tr ++ tr') token := by
  obtain ⟨tr₁, x, req, resp, tr₂, rfl, hforeign⟩ := h
  exact ⟨tr₁, x, req, resp, tr₂ ++ tr', List.append_assoc .., hforeign⟩

def aliceRequest : CreateTokenRequest where
  identity := "alice".toList
  policies := []
  ttlSeconds := 0
  metadata := ∅

end Runs

end GrpcVault.AuthRpc
