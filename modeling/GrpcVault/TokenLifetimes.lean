import GrpcVault.ApiKeys
import GrpcVault.TokenExpiry

/-!
# Lifetimes of tokens and keys

A request asks for a lifetime in seconds, which the handler multiplies to nanoseconds in 64 bits
before anything is tested. What wraps around is taken for another lifetime: for none, where the
default or no expiry at all is used, or for a short one. A token is also refreshed from its
claims, and the claims are missing exactly for a token that has expired, which is let through.
-/

namespace GrpcVault

open GoText

namespace AuthHandler

inductive Code where
  | invalidArgument
  | internal
  deriving DecidableEq

structure Status where
  code : Code
  message : String
  deriving DecidableEq

structure CreateTokenRequest where
  identity : Str
  policies : List Str
  ttlSeconds : Int64
  metadata : GoMap Str Str

structure CreateTokenResponse where
  token : Str
  tokenId : Str
  expiresAt : ℤ
  policies : List Str

structure CreateAPIKeyRequest where
  name : Str
  identity : Str
  policies : List Str
  ttlSeconds : Int64
  metadata : GoMap Str Str

structure CreateAPIKeyResponse where
  apiKey : Str
  keyId : Str

/-- `time.Duration(n) * time.Second`. -/
def seconds (n : Int64) : Int64 := n * 1000000000

def unix (t : ℤ) : ℤ := t / 10 ^ 9

def createToken (env : Auth.Env) (s : Auth.State) (req : CreateTokenRequest) (tokenID : Str)
    (seed : ℕ) : Auth.State × Except Status CreateTokenResponse :=
  if req.identity = [] then (s, .error ⟨.invalidArgument, "identity is required"⟩)
  else
    let ttl := (seconds req.ttlSeconds).toInt
    match s.createToken env req.identity req.policies ttl req.metadata tokenID seed with
    | (s', .error _) => (s', .error ⟨.internal, "failed to create token"⟩)
    | (s', .ok (token, tokenId, expiresAt)) =>
        (s', .ok { token, tokenId, expiresAt := unix expiresAt, policies := req.policies })

def createAPIKey (sha256 : Str → Bytes) (s : ApiKeys.State) (req : CreateAPIKeyRequest)
    (keyBytes : RandRead 32) (idBytes : { b : Bytes // b.length = 16 }) (elapsed : ℕ) :
    ApiKeys.State × Except Status CreateAPIKeyResponse :=
  if req.name = [] then (s, .error ⟨.invalidArgument, "name is required"⟩)
  else if req.identity = [] then (s, .error ⟨.invalidArgument, "identity is required"⟩)
  else
    let ttl := (seconds req.ttlSeconds).toInt
    match s.createAPIKey sha256
        { name := req.name, identity := req.identity, policies := req.policies, ttl
          metadata := req.metadata } keyBytes idBytes elapsed with
    | (s', none) => (s', .error ⟨.internal, "failed to create API key"⟩)
    | (s', some (apiKey, keyId)) => (s', .ok { apiKey, keyId })

/-- The lifetime, in nanoseconds, that a token is to have for a number of seconds. -/
def lifetime (m : Auth.Manager) (n : ℤ) : ℤ :=
  if 0 < n then min (n * 10 ^ 9) m.maxTTL else min m.defaultTTL m.maxTTL

/-- The created token expires after the lifetime it is to have, in its record and, as a Unix
time, in the response. -/
def TokenHonoured (m : Auth.Manager) (now : ℤ) (req : CreateTokenRequest) (s' : Auth.State)
    (resp : CreateTokenResponse) : Prop :=
  ∃ record, s'.tokens.lookup resp.tokenId = some record ∧
    record.expiresAt = now + lifetime m req.ttlSeconds.toInt ∧
    resp.expiresAt = unix (now + lifetime m req.ttlSeconds.toInt)

/-- The created key has an expiry that is not later than asked for, and not earlier than that or
the longest duration. -/
def KeyHonoured (now : ℤ) (req : CreateAPIKeyRequest) (s' : ApiKeys.State)
    (resp : CreateAPIKeyResponse) : Prop :=
  ∃ record expiry, s'.apiKeyRepo.keys.lookup resp.keyId = some record ∧
    record.expiresAt = some expiry ∧
    now + min (req.ttlSeconds.toInt * 10 ^ 9) (2 ^ 63 - 1) ≤ expiry ∧
    expiry ≤ now + req.ttlSeconds.toInt * 10 ^ 9

section Durations

variable (n : Int64)

theorem toInt_seconds : (seconds n).toInt = (n.toInt * 1000000000).bmod (2 ^ 64) := by
  rw [seconds, Int64.toInt_mul]
  rfl

theorem toInt_seconds_of_lt (h₀ : -2 ^ 63 ≤ n.toInt * 10 ^ 9) (h : n.toInt * 10 ^ 9 < 2 ^ 63) :
    (seconds n).toInt = n.toInt * 10 ^ 9 := by
  rw [toInt_seconds]
  apply Int.bmod_eq_of_le <;> omega

/-- What wraps around is even, and so not the longest duration. -/
theorem toInt_seconds_even : (seconds n).toInt % 2 = 0 := by
  have hbmod := Int.bmod_eq_self_sub_mul_bdiv (n.toInt * 1000000000) (2 ^ 64)
  rw [← toInt_seconds] at hbmod
  push_cast at hbmod
  omega

variable {n}

theorem adjustTTL_eq (m : Auth.Manager) (ttl : ℤ) :
    m.adjustTTL ttl = min (if 0 < ttl then ttl else m.defaultTTL) m.maxTTL := by
  unfold Auth.Manager.adjustTTL
  simp only [← not_lt, ite_not]
  exact (min_def_lt' _ _).symm

theorem adjustTTL_seconds_iff {m : Auth.Manager} (hmax : m.maxTTL < 2 ^ 63) :
    m.adjustTTL (seconds n).toInt = lifetime m n.toInt ↔
      (0 < n.toInt ∧ (n.toInt * 10 ^ 9 < 2 ^ 63 ∨
        m.maxTTL ≤ if 0 < (seconds n).toInt then (seconds n).toInt else m.defaultTTL)) ∨
      (n.toInt ≤ 0 ∧ ((seconds n).toInt ≤ 0 ∨
        min (seconds n).toInt m.maxTTL = min m.defaultTTL m.maxTTL)) := by
  rw [adjustTTL_eq, lifetime]
  by_cases hpos : 0 < n.toInt
  · rw [if_pos hpos]
    by_cases hlt : n.toInt * 10 ^ 9 < 2 ^ 63
    · have hexact := toInt_seconds_of_lt n (by omega) hlt
      have hw : 0 < n.toInt * 10 ^ 9 := by omega
      simp only [hexact, hw, if_true, hpos, hlt, true_or, and_self]
    · -- Beyond the range the longest lifetime is asked for.
      have hmin : min (n.toInt * 10 ^ 9) m.maxTTL = m.maxTTL := min_eq_right (by omega)
      simp only [hmin, min_eq_right_iff, hpos, hlt, false_or, true_and, not_le.mpr hpos,
        false_and, or_false]
  · rw [if_neg hpos]
    by_cases hw : 0 < (seconds n).toInt
    · simp only [hw, if_true, hpos, false_and, false_or, not_lt.mp hpos, true_and, not_le.mpr hw]
    · simp only [hw, if_false, hpos, false_and, false_or, not_lt.mp hpos, true_and, not_lt.mp hw,
        true_or]

/-- A wrapped duration is not positive or not among the longest. -/
theorem expiration_seconds_iff (hpos : 0 < n.toInt) (now : ℤ) :
    (∃ expiry, ApiKeys.expiration now (seconds n).toInt = some expiry ∧
      now + min (n.toInt * 10 ^ 9) (2 ^ 63 - 1) ≤ expiry ∧ expiry ≤ now + n.toInt * 10 ^ 9) ↔
      n.toInt * 10 ^ 9 < 2 ^ 63 := by
  have hrange := (seconds n).toInt_lt
  have heven := toInt_seconds_even n
  unfold ApiKeys.expiration
  by_cases hlt : n.toInt * 10 ^ 9 < 2 ^ 63
  · have hexact := toInt_seconds_of_lt n (by omega) hlt
    have hw : 0 < n.toInt * 10 ^ 9 := by omega
    simp only [hlt, iff_true, hexact, hw, if_true]
    exact ⟨_, rfl, by omega, le_rfl⟩
  · simp only [hlt, iff_false]
    rintro ⟨expiry, hexpiry, hge, _⟩
    split_ifs at hexpiry with hw
    rw [← Option.some.inj hexpiry] at hge
    omega

end Durations

/-! ## The handlers -/

theorem createToken_ok {env : Auth.Env} {s s' : Auth.State} {req : CreateTokenRequest}
    {tokenID : Str} {seed : ℕ} {resp : CreateTokenResponse}
    (h : createToken env s req tokenID seed = (s', .ok resp)) :
    resp.expiresAt = unix (s.now + env.manager.adjustTTL (seconds req.ttlSeconds).toInt) ∧
    ∃ record, s'.tokens.lookup resp.tokenId = some record ∧
      record.expiresAt = s.now + env.manager.adjustTTL (seconds req.ttlSeconds).toInt := by
  unfold createToken at h
  split_ifs at h with hidentity
  · cases h
  · unfold Auth.State.createToken Auth.Manager.createToken at h
    cases hsign : env.jwt.sign (env.manager.claims req.identity
        (Auth.withDefaultPolicy req.policies) (seconds req.ttlSeconds).toInt req.metadata s.now
        tokenID) seed with
    | none =>
        simp only [hsign] at h
        cases h
    | some token =>
        simp only [hsign, Prod.mk.injEq, Except.ok.injEq] at h
        obtain ⟨rfl, rfl⟩ := h
        exact ⟨rfl, _, Finmap.lookup_insert _, rfl⟩

theorem createAPIKey_ok {sha256 : Str → Bytes} {s s' : ApiKeys.State} {req : CreateAPIKeyRequest}
    {keyBytes : RandRead 32} {idBytes : { b : Bytes // b.length = 16 }} {elapsed : ℕ}
    {resp : CreateAPIKeyResponse}
    (h : createAPIKey sha256 s req keyBytes idBytes elapsed = (s', .ok resp)) :
    ∃ record, s'.apiKeyRepo.keys.lookup resp.keyId = some record ∧
      record.expiresAt = ApiKeys.expiration (s.now - elapsed) (seconds req.ttlSeconds).toInt := by
  unfold createAPIKey at h
  split_ifs at h with hname hidentity
  · cases h
  · cases h
  · unfold ApiKeys.State.createAPIKey at h
    cases keyBytes with
    | none => cases h
    | some keyBytes =>
        simp only [Prod.mk.injEq, Except.ok.injEq] at h
        obtain ⟨rfl, rfl⟩ := h
        exact ⟨_, Finmap.lookup_insert _, rfl⟩

theorem tokenHonoured_iff {env : Auth.Env} {s s' : Auth.State} {req : CreateTokenRequest}
    {tokenID : Str} {seed : ℕ} {resp : CreateTokenResponse}
    (h : createToken env s req tokenID seed = (s', .ok resp)) :
    TokenHonoured env.manager s.now req s' resp ↔
      env.manager.adjustTTL (seconds req.ttlSeconds).toInt =
        lifetime env.manager req.ttlSeconds.toInt := by
  obtain ⟨hunix, record, hlookup, hexpires⟩ := createToken_ok h
  constructor
  · rintro ⟨record', hlookup', hexpires', _⟩
    obtain rfl : record = record' := Option.some.inj (hlookup.symm.trans hlookup')
    exact add_left_cancel (hexpires.symm.trans hexpires')
  · intro hsame
    rw [hsame] at hunix hexpires
    exact ⟨record, hlookup, hexpires, hunix⟩

/-- The lifetime of a token is the one asked for if and only if the multiplication does not wrap
around, or what is used in place of the wrapped product comes to the same; and that of a key, for
a positive number of seconds, if and only if the multiplication does not wrap around. The maximum
is a duration of 64 bits. -/
theorem lifetimes_honoured_iff (env : Auth.Env) (hrange : env.manager.maxTTL < 2 ^ 63) :
    (∀ s req tokenID seed s' resp, createToken env s req tokenID seed = (s', .ok resp) →
      (TokenHonoured env.manager s.now req s' resp ↔
        (0 < req.ttlSeconds.toInt ∧ (req.ttlSeconds.toInt * 10 ^ 9 < 2 ^ 63 ∨
          env.manager.maxTTL ≤ if 0 < (seconds req.ttlSeconds).toInt
            then (seconds req.ttlSeconds).toInt else env.manager.defaultTTL)) ∨
        (req.ttlSeconds.toInt ≤ 0 ∧ ((seconds req.ttlSeconds).toInt ≤ 0 ∨
          min (seconds req.ttlSeconds).toInt env.manager.maxTTL =
            min env.manager.defaultTTL env.manager.maxTTL)))) ∧
    (∀ sha256 s req keyBytes idBytes elapsed s' resp,
      createAPIKey sha256 s req keyBytes idBytes elapsed = (s', .ok resp) →
      0 < req.ttlSeconds.toInt →
      (KeyHonoured (s.now - elapsed) req s' resp ↔ req.ttlSeconds.toInt * 10 ^ 9 < 2 ^ 63)) := by
  constructor
  · intro s req tokenID seed s' resp h
    rw [tokenHonoured_iff h, adjustTTL_seconds_iff hrange]
  · intro sha256 s req keyBytes idBytes elapsed s' resp h hpos
    obtain ⟨record, hlookup, hexpires⟩ := createAPIKey_ok h
    rw [← expiration_seconds_iff hpos (s.now - elapsed), ← hexpires]
    constructor
    · rintro ⟨record', expiry, hlookup', hexpiry, hbounds⟩
      obtain rfl : record = record' := Option.some.inj (hlookup.symm.trans hlookup')
      exact ⟨expiry, hexpiry, hbounds⟩
    · rintro ⟨expiry, hexpiry, hbounds⟩
      exact ⟨record, expiry, hlookup, hexpiry, hbounds⟩

def aliceRequest (ttlSeconds : Int64) : CreateTokenRequest where
  identity := "alice".toList
  policies := []
  ttlSeconds := ttlSeconds
  metadata := ∅

def aliceKeyRequest (ttlSeconds : Int64) : CreateAPIKeyRequest where
  name := "key".toList
  identity := "alice".toList
  policies := []
  ttlSeconds := ttlSeconds
  metadata := ∅

/-- The library signs the claims of a token of `alice` with this time to live. -/
def signingEnv (ttl : ℤ) : Auth.Env where
  jwt := Auth.singleJwt (Auth.aliceManager.claims "alice".toList (Auth.withDefaultPolicy []) ttl ∅ 0
    "id".toList) "token".toList
  manager := Auth.aliceManager

/-- A token for a minute. -/
theorem lifetimes_honoured_minute : ∃ s' resp,
    createToken (signingEnv (60 * 10 ^ 9)) (Auth.State.init 0 0) (aliceRequest 60) "id".toList 0 =
      (s', .ok resp) ∧
    TokenHonoured Auth.aliceManager 0 (aliceRequest 60) s' resp := by
  have h : ∃ s' resp, createToken (signingEnv (60 * 10 ^ 9)) (Auth.State.init 0 0) (aliceRequest 60)
      "id".toList 0 = (s', .ok resp) := ⟨_, _, rfl⟩
  obtain ⟨s', resp, h⟩ := h
  exact ⟨s', resp, h, ((lifetimes_honoured_iff _ (by decide)).1 _ _ _ _ _ _ h).mpr
    (.inl ⟨by decide, .inl (by decide)⟩)⟩

/-- A token for more than five hundred years expires within a second, and a key for almost three
hundred years never does. -/
theorem wrapped_lifetimes :
    (∃ s' resp record,
      createToken (signingEnv 290448384) (Auth.State.init 0 0) (aliceRequest 18446744074)
        "id".toList 0 = (s', .ok resp) ∧
      s'.tokens.lookup resp.tokenId = some record ∧ record.expiresAt = 290448384 ∧
      lifetime Auth.aliceManager 18446744074 = 24 * 3600 * 10 ^ 9) ∧
    ∃ s' resp record,
      createAPIKey (fun _ => []) (ApiKeys.State.init 0) (aliceKeyRequest 9223372037)
        (some ⟨List.replicate 32 0, rfl⟩) ⟨List.replicate 16 0, rfl⟩ 0 = (s', .ok resp) ∧
      s'.apiKeyRepo.keys.lookup resp.keyId = some record ∧ record.expiresAt = none := by
  refine ⟨⟨_, _, _, rfl, rfl, rfl, rfl⟩, ⟨_, _, _, rfl, rfl, rfl⟩⟩

end AuthHandler

/-! ## Refreshing a token -/

namespace Auth

/-- `RefreshToken`, which creates the new token `elapsed` after it has checked the old one. The
claims of an expired token are nil: `none` is their use. -/
def Manager.refreshToken (m : Manager) (jwt : Jwt) (token : Str) (newTTL now : ℤ) (elapsed : ℕ)
    (tokenID : Str) (seed : ℕ) : Option (Except JwtError (Str × Str × ℤ)) :=
  match validateJwt jwt now token with
  | .error .expiredToken => none
  | .error err => some (.error err)
  | .ok claims =>
      some (m.createToken jwt claims.identity claims.policies newTTL claims.metadata (now + elapsed)
        tokenID seed)

variable {m : Manager} {jwt : Jwt} {token identity : Str} {policies : List Str}
  {metadata : GoMap Str Str} {ttl newTTL created now expiresAt : ℤ} {elapsed seed seed' : ℕ}
  {id tokenID : Str}

theorem refreshToken_isSome_iff :
    (m.refreshToken jwt token newTTL now elapsed tokenID seed).isSome = true ↔
      validateJwt jwt now token ≠ .error .expiredToken := by
  unfold Manager.refreshToken
  cases validateJwt jwt now token with
  | ok claims => simp
  | error err => cases err <;> simp

/-- A created token is valid from its creation to the second of its expiry. -/
theorem validateJwt_created (hlaw : jwt.Lawful)
    (h : m.createToken jwt identity policies ttl metadata created id seed =
      .ok (token, id, expiresAt))
    (hnow : created ≤ now) :
    validateJwt jwt now token =
      if numericDate expiresAt * 10 ^ 9 ≤ now then .error .expiredToken
      else .ok (m.claims identity policies ttl metadata created id) := by
  unfold Manager.createToken at h
  cases hsign : jwt.sign (m.claims identity policies ttl metadata created id) seed with
  | none => simp [hsign] at h
  | some signed =>
      simp only [hsign, Except.ok.injEq, Prod.mk.injEq, true_and] at h
      obtain ⟨rfl, rfl⟩ := h
      have hnbf : ¬ now < numericDate created * 10 ^ 9 :=
        not_lt.mpr ((numericDate_mul_le created).trans hnow)
      simp only [validateJwt, hlaw.verify_sign hsign, Manager.claims, Option.any_some,
        decide_eq_true_eq, hnbf, if_false]

/-- The new token has what the claims of the old one say, and the lifetime of a created token. -/
def Refreshed (m : Manager) (jwt : Jwt) (identity : Str) (policies : List Str)
    (metadata : GoMap Str Str) (newTTL created : ℤ) : Str × Str × ℤ → Prop
  | (token, tokenID, expiresAt) => ∃ claims, jwt.verify token = some claims ∧
      claims.identity = identity ∧ claims.policies = policies ∧ claims.metadata = metadata ∧
      claims.tokenID = tokenID ∧ claims.expiresAt = some (numericDate expiresAt) ∧
      expiresAt = created + m.adjustTTL newTTL

theorem refreshed_iff (hlaw : jwt.Lawful) (newTTL created : ℤ) :
    (∃ result,
      m.createToken jwt identity policies newTTL metadata created tokenID seed = .ok result ∧
      Refreshed m jwt identity policies metadata newTTL created result) ↔
      (jwt.sign (m.claims identity policies newTTL metadata created tokenID) seed).isSome =
        true := by
  unfold Manager.createToken
  cases hsign : jwt.sign (m.claims identity policies newTTL metadata created tokenID) seed with
  | none => simp
  | some signed =>
      simp only [Option.isSome_some, iff_true]
      exact ⟨_, rfl, _, hlaw.verify_sign hsign, rfl, rfl, rfl, rfl, rfl, rfl⟩

/-- A refresh returns if and only if the token is not an expired one; and a refresh of a token of
this manager returns a token like it if and only if the token has not expired, and the library
can sign the new one. -/
theorem refreshToken_returns_iff (hlaw : jwt.Lawful) (token : Str) (newTTL now : ℤ) (elapsed : ℕ)
    (tokenID : Str) (seed : ℕ) :
    ((m.refreshToken jwt token newTTL now elapsed tokenID seed).isSome = true ↔
      validateJwt jwt now token ≠ .error .expiredToken) ∧
    ∀ identity policies ttl metadata created id seed₀ expiresAt,
      m.createToken jwt identity policies ttl metadata created id seed₀ =
        .ok (token, id, expiresAt) →
      created ≤ now →
      ((∃ result,
          m.refreshToken jwt token newTTL now elapsed tokenID seed = some (.ok result) ∧
          Refreshed m jwt identity policies metadata newTTL (now + elapsed) result) ↔
        now < numericDate expiresAt * 10 ^ 9 ∧
          (jwt.sign (m.claims identity policies newTTL metadata (now + elapsed) tokenID)
            seed).isSome = true) := by
  refine ⟨refreshToken_isSome_iff, ?_⟩
  intro identity policies ttl metadata created id seed₀ expiresAt hcreated hnow
  rw [← refreshed_iff hlaw, Manager.refreshToken, validateJwt_created hlaw hcreated hnow]
  by_cases hexpired : numericDate expiresAt * 10 ^ 9 ≤ now
  · simp only [hexpired, if_true, not_lt.mpr hexpired, false_and, reduceCtorEq, exists_false]
  · simp only [hexpired, if_false, not_le.mp hexpired, true_and, Manager.claims, Option.some.injEq]

/-- A library that knows two sets of claims and a token for each. -/
def pairJwt (claims claims' : Claims) (token token' : Str) : Jwt where
  sign c _ := if c = claims then some token else if c = claims' then some token' else none
  verify t := if t = token then some claims else if t = token' then some claims' else none

theorem pairJwt_lawful {claims claims' : Claims} {token token' : Str} (hne : token' ≠ token) :
    (pairJwt claims claims' token token').Lawful := by
  constructor
  intro c seed t h
  simp only [pairJwt] at h ⊢
  split_ifs at h with hc hc'
  · rw [← Option.some.inj h, if_pos rfl, hc]
  · rw [← Option.some.inj h, if_neg hne, if_pos rfl, hc']

def refreshedClaims : Claims :=
  aliceManager.claims "alice".toList (withDefaultPolicy []) 0 ∅ (60 * 10 ^ 9) "new".toList

/-- A token with a lifetime of an hour is refreshed after a minute. -/
theorem refreshToken_returns_minute : ∃ result,
    aliceManager.refreshToken (pairJwt aliceClaims refreshedClaims "token".toList "next".toList)
      "token".toList 0 (60 * 10 ^ 9) 0 "new".toList 0 = some (.ok result) ∧
    Refreshed aliceManager (pairJwt aliceClaims refreshedClaims "token".toList "next".toList)
      "alice".toList (withDefaultPolicy []) ∅ 0 (60 * 10 ^ 9 + (0 : ℕ)) result :=
  ((refreshToken_returns_iff (pairJwt_lawful (by decide)) "token".toList 0 (60 * 10 ^ 9) 0
    "new".toList 0).2 "alice".toList (withDefaultPolicy []) 0 ∅ 0 "id".toList 0 (3600 * 10 ^ 9) rfl
    (by decide)).mpr ⟨by decide, rfl⟩

/-- The token is refreshed after its hour, and there are no claims. -/
theorem expired_token_not_refreshed :
    aliceManager.createToken aliceEnv.jwt "alice".toList (withDefaultPolicy []) 0 ∅ 0 "id".toList
      0 = .ok ("token".toList, "id".toList, 3600 * 10 ^ 9) ∧
    aliceManager.refreshToken aliceEnv.jwt "token".toList 0 (3600 * 10 ^ 9) 0 "new".toList 0 =
      none :=
  ⟨rfl, rfl⟩

end Auth

end GrpcVault
