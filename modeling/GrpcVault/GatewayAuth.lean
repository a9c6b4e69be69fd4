import GrpcVault.Lib.GoText
import GrpcVault.Lib.Utf8

/-!
# Authentication at the gateway

`AuthMiddleware` decides twice who sends a request: `authenticate` for the headers of an HTTP
request, `authenticateGRPC` for the metadata of a gRPC call. Each chooses a credential and asks
the auth service about it. The two choose alike unless the API key is present and empty: for
HTTP it is then absent, and the token counts; for gRPC it is the credential.
-/

namespace GrpcVault.AuthMiddleware

open GoText

structure TokenInfo where
  subject : Bytes
  policies : List Bytes
  metadata : GoMap Bytes Bytes

structure APIKeyInfo where
  keyID : Bytes
  policies : List Bytes

/-- `AuthClient`, with its errors in `E`. The pointer it returns without an error may be nil. -/
structure AuthClient (E : Type) where
  validateToken : Bytes → Except E (Option TokenInfo)
  validateAPIKey : Bytes → Except E (Option APIKeyInfo)

inductive IdentityType where
  | token
  | apikey

structure IdentityContext where
  type : IdentityType
  subject : Bytes
  policies : List Bytes
  metadata : GoMap Bytes Bytes

inductive AuthError (E : Type) where
  | client (err : E)
  | unauthenticated (message : String)

/-- The outcome of a call; `none` is the panic on a nil pointer. -/
abbrev Outcome (E : Type) := Option (Except (AuthError E) IdentityContext)

variable {E : Type}

def identify {Info : Type} (answer : Except E (Option Info)) (identity : Info → IdentityContext) :
    Outcome E :=
  match answer with
  | .error err => some (.error (.client err))
  | .ok none => none
  | .ok (some info) => some (.ok (identity info))

/-- The branch of an API key, the same in both functions. -/
def apiKeyIdentity (client : AuthClient E) (apiKey : Bytes) : Outcome E :=
  identify (client.validateAPIKey apiKey) fun info =>
    { type := .apikey, subject := info.keyID, policies := info.policies, metadata := ∅ }

/-- The branch of a token, the same in both functions. -/
def tokenIdentity (client : AuthClient E) (token : Bytes) : Outcome E :=
  identify (client.validateToken token) fun info =>
    { type := .token, subject := info.subject, policies := info.policies
      metadata := info.metadata }

def text (s : String) : Bytes := Utf8.encode s.toList

def hasPrefix (s start : Bytes) : Bool := start.isPrefixOf s

def trimPrefix (s start : Bytes) : Bytes :=
  if hasPrefix s start then s.drop start.length else s

def bearer : Bytes := text "Bearer "

/-- Header fields by their canonical names, metadata by names in lower case. -/
abbrev Fields := GoMap Bytes (List Bytes)

/-- `http.Header.Get` of a canonical name, which for `X-API-Key` is `X-Api-Key`. -/
def headerGet (header : Fields) (key : Bytes) : Bytes := ((header.lookup key).getD []).headD []

def metadataGet (md : Fields) (key : Bytes) : List Bytes := (md.lookup key).getD []

def authenticate (client : AuthClient E) (header : Fields) : Outcome E :=
  let apiKey := headerGet header (text "X-Api-Key")
  if apiKey ≠ [] then apiKeyIdentity client apiKey
  else
    let authHeader := headerGet header (text "Authorization")
    if hasPrefix authHeader bearer then tokenIdentity client (trimPrefix authHeader bearer)
    else some (.error (.unauthenticated "missing credentials"))

/-- `authenticateGRPC`, given the metadata of the context if it has some. -/
def authenticateGRPC (client : AuthClient E) : Option Fields → Outcome E
  | none => some (.error (.unauthenticated "missing metadata"))
  | some md =>
      match metadataGet md (text "x-api-key") with
      | apiKey :: _ => apiKeyIdentity client apiKey
      | [] =>
          match metadataGet md (text "authorization") with
          | authHeader :: _ =>
              if hasPrefix authHeader bearer then
                tokenIdentity client (trimPrefix authHeader bearer)
              else some (.error (.unauthenticated "missing credentials"))
          | [] => some (.error (.unauthenticated "missing credentials"))

structure CarriesHTTP (header : Fields) (apiKey authorization : Option Bytes) : Prop where
  apiKey : header.lookup (text "X-Api-Key") = apiKey.map ([·])
  authorization : header.lookup (text "Authorization") = authorization.map ([·])

structure CarriesGRPC (md : Fields) (apiKey authorization : Option Bytes) : Prop where
  apiKey : md.lookup (text "x-api-key") = apiKey.map ([·])
  authorization : md.lookup (text "authorization") = authorization.map ([·])

def Outcome.Fails (r : Outcome E) : Prop := ∀ identity, r ≠ some (.ok identity)

def Outcome.Agree (r r' : Outcome E) : Prop :=
  (r.Fails ∧ r'.Fails) ∨ ∃ identity, r = some (.ok identity) ∧ r' = some (.ok identity)

/-- What a token is worth that may not be there. -/
def bearerIdentity (client : AuthClient E) (authorization : Option Bytes) : Outcome E :=
  if hasPrefix (authorization.getD []) bearer then
    tokenIdentity client (trimPrefix (authorization.getD []) bearer)
  else some (.error (.unauthenticated "missing credentials"))

variable {client : AuthClient E} {apiKey authorization : Option Bytes} {header md : Fields}
  {r r' : Outcome E} {identity : IdentityContext} {key token : Bytes}

theorem Outcome.Agree.refl (r : Outcome E) : r.Agree r := by
  by_cases hfails : r.Fails
  · exact .inl ⟨hfails, hfails⟩
  · obtain ⟨identity, hr⟩ := not_forall_not.mp hfails
    exact .inr ⟨identity, hr, hr⟩

theorem identify_eq_ok_iff {Info : Type} {answer : Except E (Option Info)}
    {f : Info → IdentityContext} :
    identify answer f = some (.ok identity) ↔
      ∃ info, answer = .ok (some info) ∧ f info = identity := by
  match answer with
  | .error err => simp [identify]
  | .ok none => simp [identify]
  | .ok (some info) => simp [identify]

theorem identify_fails_iff {Info : Type} {answer : Except E (Option Info)}
    {f : Info → IdentityContext} :
    (identify answer f).Fails ↔ ∀ info, answer ≠ .ok (some info) := by
  constructor
  · intro hfails info hinfo
    exact hfails (f info) (identify_eq_ok_iff.mpr ⟨info, hinfo, rfl⟩)
  · intro hrefused identity hok
    obtain ⟨info, hinfo, _⟩ := identify_eq_ok_iff.mp hok
    exact hrefused info hinfo

theorem trimPrefix_append (start s : Bytes) : trimPrefix (start ++ s) start = s := by
  have hstart : hasPrefix (start ++ s) start = true :=
    List.isPrefixOf_iff_prefix.mpr (List.prefix_append start s)
  rw [trimPrefix, if_pos hstart, List.drop_left]

theorem bearerIdentity_eq_ok_iff :
    bearerIdentity client authorization = some (.ok identity) ↔
      ∃ token, authorization = some (bearer ++ token) ∧
        tokenIdentity client token = some (.ok identity) := by
  unfold bearerIdentity
  constructor
  · intro hok
    split at hok
    · rename_i hstart
      obtain ⟨token, htoken⟩ := List.isPrefixOf_iff_prefix.mp hstart
      rw [← htoken, trimPrefix_append] at hok
      cases authorization with
      | none => exact absurd htoken (by simp [bearer, text, Utf8.encode])
      | some value => exact ⟨token, congrArg some htoken.symm, hok⟩
    · cases hok
  · rintro ⟨token, rfl, hok⟩
    have hstart : hasPrefix (bearer ++ token) bearer = true :=
      List.isPrefixOf_iff_prefix.mpr (List.prefix_append bearer token)
    rw [Option.getD_some, if_pos hstart, trimPrefix_append]
    exact hok

theorem bearerIdentity_fails_iff :
    (bearerIdentity client authorization).Fails ↔
      ∀ token info, authorization = some (bearer ++ token) →
        client.validateToken token ≠ .ok (some info) := by
  constructor
  · intro hfails token info hauth hinfo
    exact hfails _ (bearerIdentity_eq_ok_iff.mpr
      ⟨token, hauth, identify_eq_ok_iff.mpr ⟨info, hinfo, rfl⟩⟩)
  · intro hrefused identity hok
    obtain ⟨token, hauth, hok⟩ := bearerIdentity_eq_ok_iff.mp hok
    obtain ⟨info, hinfo, _⟩ := identify_eq_ok_iff.mp hok
    exact hrefused token info hauth hinfo

theorem bearer_agree_apiKey_iff :
    (bearerIdentity client authorization).Agree (apiKeyIdentity client key) ↔
      (bearerIdentity client authorization).Fails ∧ (apiKeyIdentity client key).Fails := by
  refine ⟨?_, .inl⟩
  rintro (hfails | ⟨identity, htoken, hkey⟩)
  · exact hfails
  · obtain ⟨_, _, hok⟩ := bearerIdentity_eq_ok_iff.mp htoken
    obtain ⟨_, _, rfl⟩ := identify_eq_ok_iff.mp hok
    obtain ⟨_, _, hne⟩ := identify_eq_ok_iff.mp hkey
    cases hne

/-- HTTP takes the API key if it is not empty. -/
theorem authenticate_eq (h : CarriesHTTP header apiKey authorization) :
    authenticate client header =
      if apiKey.getD [] ≠ [] then apiKeyIdentity client (apiKey.getD [])
      else bearerIdentity client authorization := by
  have hkey : headerGet header (text "X-Api-Key") = apiKey.getD [] := by
    rw [headerGet, h.apiKey]
    cases apiKey <;> rfl
  have hauth : headerGet header (text "Authorization") = authorization.getD [] := by
    rw [headerGet, h.authorization]
    cases authorization <;> rfl
  unfold authenticate bearerIdentity
  simp only [hkey, hauth]

/-- gRPC takes the API key if it is there. -/
theorem authenticateGRPC_eq (h : CarriesGRPC md apiKey authorization) :
    authenticateGRPC client (some md) =
      apiKey.elim (bearerIdentity client authorization) (apiKeyIdentity client) := by
  have hkey : metadataGet md (text "x-api-key") = apiKey.toList := by
    rw [metadataGet, h.apiKey]
    cases apiKey <;> rfl
  have hauth : metadataGet md (text "authorization") = authorization.toList := by
    rw [metadataGet, h.authorization]
    cases authorization <;> rfl
  simp only [authenticateGRPC, hkey, hauth]
  cases apiKey with
  | some key => rfl
  | none => cases authorization <;> rfl

/-- The two functions agree exactly if the API key is not present and empty, or the auth service
accepts neither the empty key nor the token that comes with it. -/
theorem transports_agree_iff (client : AuthClient E)
    (hhttp : CarriesHTTP header apiKey authorization)
    (hgrpc : CarriesGRPC md apiKey authorization) :
    (authenticate client header).Agree (authenticateGRPC client (some md)) ↔
      (apiKey = some [] → (∀ info, client.validateAPIKey [] ≠ .ok (some info)) ∧
        ∀ token info, authorization = some (bearer ++ token) →
          client.validateToken token ≠ .ok (some info)) := by
  rw [authenticate_eq hhttp, authenticateGRPC_eq hgrpc]
  cases apiKey with
  | none => simpa using Outcome.Agree.refl _
  | some key =>
      by_cases hkey : key = []
      · subst hkey
        simp only [Option.getD_some, ne_eq, not_true_eq_false, if_false, Option.elim_some,
          bearer_agree_apiKey_iff, bearerIdentity_fails_iff, forall_const]
        rw [and_comm, apiKeyIdentity, identify_fails_iff]
      · simpa [hkey] using Outcome.Agree.refl _

def oneEach : AuthClient Unit where
  validateToken token :=
    if token = text "t" then .ok (some { subject := text "u", policies := [], metadata := ∅ })
    else .error ()
  validateAPIKey apiKey :=
    if apiKey = text "k" then .ok (some { keyID := text "i", policies := [] }) else .error ()

def httpFields (apiKey : Bytes) : Fields :=
  (Finmap.singleton (text "X-Api-Key") [apiKey]).insert (text "Authorization")
    [bearer ++ text "t"]

def grpcFields (apiKey : Bytes) : Fields :=
  (Finmap.singleton (text "x-api-key") [apiKey]).insert (text "authorization")
    [bearer ++ text "t"]

theorem carriesHTTP_fields (key : Bytes) :
    CarriesHTTP (httpFields key) (some key) (some (bearer ++ text "t")) where
  apiKey := by
    rw [httpFields, Finmap.lookup_insert_of_ne _ (by decide), Finmap.lookup_singleton_eq]
    rfl
  authorization := Finmap.lookup_insert _

theorem carriesGRPC_fields (key : Bytes) :
    CarriesGRPC (grpcFields key) (some key) (some (bearer ++ text "t")) where
  apiKey := by
    rw [grpcFields, Finmap.lookup_insert_of_ne _ (by decide), Finmap.lookup_singleton_eq]
    rfl
  authorization := Finmap.lookup_insert _

theorem transports_agree_key :
    CarriesHTTP (httpFields (text "k")) (some (text "k")) (some (bearer ++ text "t")) ∧
      CarriesGRPC (grpcFields (text "k")) (some (text "k")) (some (bearer ++ text "t")) ∧
      (authenticate oneEach (httpFields (text "k"))).Agree
        (authenticateGRPC oneEach (some (grpcFields (text "k")))) := by
  refine ⟨carriesHTTP_fields _, carriesGRPC_fields _, ?_⟩
  refine (transports_agree_iff oneEach (carriesHTTP_fields _) (carriesGRPC_fields _)).mpr ?_
  intro hempty
  exact absurd hempty (by decide)

/-- With an empty API key and a token that is known, the request is let in over HTTP and refused
over gRPC. -/
theorem empty_key_disagrees :
    CarriesHTTP (httpFields []) (some []) (some (bearer ++ text "t")) ∧
      CarriesGRPC (grpcFields []) (some []) (some (bearer ++ text "t")) ∧
      (∃ identity, authenticate oneEach (httpFields []) = some (.ok identity)) ∧
      authenticateGRPC oneEach (some (grpcFields [])) = some (.error (.client ())) ∧
      ¬ (authenticate oneEach (httpFields [])).Agree
        (authenticateGRPC oneEach (some (grpcFields []))) := by
  refine ⟨carriesHTTP_fields [], carriesGRPC_fields [], ?_⟩
  rw [authenticate_eq (carriesHTTP_fields []), authenticateGRPC_eq (carriesGRPC_fields [])]
  refine ⟨⟨_, rfl⟩, rfl, ?_⟩
  rintro (⟨hfails, _⟩ | ⟨_, _, hok⟩)
  · exact hfails _ rfl
  · cases hok

end GrpcVault.AuthMiddleware
