import GrpcVault.LruCache
import GrpcVault.Lib.EventSystem

/-!
# Tokens in the auth service

Tokens are JWTs, recorded by their identifier in a repository and cached by
their text once they have been validated. The JWT library is the parameter
`Jwt`: it signs claims and verifies the signature of a token; the checks of its
times are in `validateToken` below, as the library makes them. `step` runs the
service with the four parts of a validation as separate steps: cache lookup, JWT
check, repository lookup, caching of the claims.
-/

namespace GrpcVault.Auth

open GoText EventSystem

/-- Times in claims are in seconds. -/
structure Claims where
  issuer : Str
  audience : List Str
  subject : Str
  expiresAt : Option ℤ
  issuedAt : Option ℤ
  notBefore : Option ℤ
  identity : Str
  tokenID : Str
  policies : List Str
  metadata : GoMap Str Str
  deriving DecidableEq

/-- Signing draws on a random source; the natural number stands for what it yields. -/
structure Jwt where
  sign : Claims → ℕ → Option Str
  verify : Str → Option Claims

structure Jwt.Lawful (jwt : Jwt) : Prop where
  verify_sign : ∀ {claims seed token}, jwt.sign claims seed = some token →
    jwt.verify token = some claims

inductive JwtError where
  | invalidToken
  | expiredToken
  | signing
  deriving DecidableEq

def JwtError.message : JwtError → String
  | .invalidToken => "invalid token"
  | .expiredToken => "token has expired"
  | .signing => ""

structure Manager where
  issuer : Str
  audience : Str
  defaultTTL : ℤ
  maxTTL : ℤ

def newManager (issuer audience : Str) (defaultTTL maxTTL : ℤ) : Manager where
  issuer := if issuer = [] then "vault-auth".toList else issuer
  audience := if audience = [] then "vault-platform".toList else audience
  defaultTTL := if defaultTTL = 0 then 3600 * 10 ^ 9 else defaultTTL
  maxTTL := if maxTTL = 0 then 24 * 3600 * 10 ^ 9 else maxTTL

/-- `jwt.NewNumericDate`: the time truncated to seconds. -/
def numericDate (time : ℤ) : ℤ := time / 10 ^ 9

namespace Manager

variable (m : Manager)

def adjustTTL (ttl : ℤ) : ℤ :=
  let ttl := if ttl ≤ 0 then m.defaultTTL else ttl
  if m.maxTTL < ttl then m.maxTTL else ttl

def claims (identity : Str) (policies : List Str) (ttl : ℤ) (metadata : GoMap Str Str)
    (now : ℤ) (tokenID : Str) : Claims where
  issuer := m.issuer
  audience := [m.audience]
  subject := identity
  expiresAt := some (numericDate (now + m.adjustTTL ttl))
  issuedAt := some (numericDate now)
  notBefore := some (numericDate now)
  identity := identity
  tokenID := tokenID
  policies := policies
  metadata := metadata

def createToken (jwt : Jwt) (identity : Str) (policies : List Str) (ttl : ℤ)
    (metadata : GoMap Str Str) (now : ℤ) (tokenID : Str) (seed : ℕ) :
    Except JwtError (Str × Str × ℤ) :=
  match jwt.sign (m.claims identity policies ttl metadata now tokenID) seed with
  | none => .error .signing
  | some token => .ok (token, tokenID, now + m.adjustTTL ttl)

end Manager

/-- A token is expired from the second of its `exp` claim on, and not valid before the
second of its `nbf` claim. -/
def validateJwt (jwt : Jwt) (now : ℤ) (token : Str) : Except JwtError Claims :=
  match jwt.verify token with
  | none => .error .invalidToken
  | some claims =>
      if claims.expiresAt.any fun exp => exp * 10 ^ 9 ≤ now then .error .expiredToken
      else if claims.notBefore.any fun nbf => now < nbf * 10 ^ 9 then .error .invalidToken
      else .ok claims

structure Token where
  id : Str
  identity : Str
  policies : List Str
  metadata : GoMap Str Str
  createdAt : ℤ
  expiresAt : ℤ
  revokedAt : Option ℤ
  lastUsedAt : Option ℤ

inductive RepositoryError where
  | tokenNotFound
  | tokenRevoked
  deriving DecidableEq

def RepositoryError.message : RepositoryError → String
  | .tokenNotFound => "token not found"
  | .tokenRevoked => "token has been revoked"

abbrev TokenRepository := GoMap Str Token

namespace TokenRepository

variable (tokens : TokenRepository)

def create (token : Token) : TokenRepository := tokens.insert token.id token

def get (now : ℤ) (id : Str) : Except RepositoryError Token :=
  match tokens.lookup id with
  | none => .error .tokenNotFound
  | some token =>
      if token.revokedAt.isSome then .error .tokenRevoked
      else if token.expiresAt < now then .error .tokenNotFound
      else .ok token

def revoke (now : ℤ) (id : Str) : TokenRepository × Option RepositoryError :=
  match tokens.lookup id with
  | none => (tokens, some .tokenNotFound)
  | some token => (tokens.insert id { token with revokedAt := some now }, none)

def updateLastUsed (now : ℤ) (id : Str) : TokenRepository × Option RepositoryError :=
  match tokens.lookup id with
  | none => (tokens, some .tokenNotFound)
  | some token => (tokens.insert id { token with lastUsedAt := some now }, none)

end TokenRepository

inductive AuthError where
  | invalidToken
  | tokenExpired
  deriving DecidableEq

def AuthError.message : AuthError → String
  | .invalidToken => "invalid token"
  | .tokenExpired => "token expired"

def AuthError.ofJwt : JwtError → AuthError
  | .expiredToken => .tokenExpired
  | _ => .invalidToken

abbrev TokenCache := LRUCache Str Claims

def withDefaultPolicy (policies : List Str) : List Str :=
  if "default".toList ∈ policies then policies else policies ++ ["default".toList]

/-- A validation by itself, at one moment. The update of the last use runs on its own. -/
def validateToken (jwt : Jwt) (now : ℤ) (tokens : TokenRepository) (cache : TokenCache)
    (token : Str) : TokenCache × Except AuthError Claims :=
  match cache.get now token with
  | (cache, some claims) => (cache, .ok claims)
  | (cache, none) =>
      match validateJwt jwt now token with
      | .error e => (cache, .error (.ofJwt e))
      | .ok claims =>
          match TokenRepository.get tokens now claims.tokenID with
          | .error .tokenRevoked => (cache, .error .invalidToken)
          | _ => (cache.set now token claims, .ok claims)

/-- How far a validation in flight has come. -/
inductive Stage where
  | lookedUp (token : Str)
  | parsed (token : Str) (claims : Claims)
  | checked (token : Str) (claims : Claims)

structure State where
  now : ℤ
  tokens : TokenRepository
  tokenCache : TokenCache
  calls : ℕ → Option Stage
  next : ℕ

def State.init (now cacheTTL : ℤ) : State where
  now := now
  tokens := ∅
  tokenCache := newLRUCacheWithTTL Str Claims cacheTTL
  calls := fun _ => none
  next := 0

inductive Event where
  | tick (d : ℕ)
  | createToken (identity : Str) (policies : List Str) (ttl : ℤ) (metadata : GoMap Str Str)
      (tokenID : Str) (seed : ℕ)
  | validateToken (token : Str)
  | parse (id : ℕ)
  | checkRevoked (id : ℕ)
  | cacheClaims (id : ℕ)
  | revokeToken (tokenID : Str)
  | updateLastUsed (tokenID : Str)
  | evict (token : Str)

inductive Output where
  | done
  | created (result : Except JwtError (Str × Str × ℤ))
  | continued (id : ℕ)
  | returned (id : ℕ) (token : Str) (result : Except AuthError Claims)
  | revoked (error : Option RepositoryError)

abbrev Trace := List (Event × Output)

structure Env where
  jwt : Jwt
  manager : Manager

namespace State

variable (s : State)

def createToken (env : Env) (identity : Str) (policies : List Str) (ttl : ℤ)
    (metadata : GoMap Str Str) (tokenID : Str) (seed : ℕ) :
    State × Except JwtError (Str × Str × ℤ) :=
  let policies := withDefaultPolicy policies
  match env.manager.createToken env.jwt identity policies ttl metadata s.now tokenID seed with
  | .error e => (s, .error e)
  | .ok (token, id, expiresAt) =>
      let record : Token :=
        { id, identity, policies, metadata, expiresAt
          createdAt := s.now, revokedAt := none, lastUsedAt := none }
      ({ s with tokens := TokenRepository.create s.tokens record }, .ok (token, id, expiresAt))

/-- The call takes the identifier `next`; a hit returns within the lookup. -/
def startValidation (token : Str) : State × Output :=
  match s.tokenCache.get s.now token with
  | (tokenCache, some claims) =>
      ({ s with tokenCache, next := s.next + 1 }, .returned s.next token (.ok claims))
  | (tokenCache, none) =>
      ({ s with tokenCache, calls := Function.update s.calls s.next (some (.lookedUp token)),
                next := s.next + 1 }, .continued s.next)

def finish (id : ℕ) (token : Str) (result : Except AuthError Claims) : State × Output :=
  ({ s with calls := Function.update s.calls id none }, .returned id token result)

end State

def step (env : Env) : Step State Event Output
  | s, .tick d => some ({ s with now := s.now + d }, .done)
  | s, .createToken identity policies ttl metadata tokenID seed =>
      let (s', r) := s.createToken env identity policies ttl metadata tokenID seed
      some (s', .created r)
  | s, .validateToken token => some (s.startValidation token)
  | s, .parse id =>
      match s.calls id with
      | some (.lookedUp token) =>
          match validateJwt env.jwt s.now token with
          | .error e => some (s.finish id token (.error (.ofJwt e)))
          | .ok claims =>
              some ({ s with calls := Function.update s.calls id (some (.parsed token claims)) },
                .continued id)
      | _ => none
  | s, .checkRevoked id =>
      match s.calls id with
      | some (.parsed token claims) =>
          match TokenRepository.get s.tokens s.now claims.tokenID with
          | .error .tokenRevoked => some (s.finish id token (.error .invalidToken))
          | _ =>
              some ({ s with calls := Function.update s.calls id (some (.checked token claims)) },
                .continued id)
      | _ => none
  | s, .cacheClaims id =>
      match s.calls id with
      | some (.checked token claims) =>
          some ({ s with tokenCache := s.tokenCache.set s.now token claims,
                         calls := Function.update s.calls id none }, .returned id token (.ok claims))
      | _ => none
  | s, .revokeToken tokenID =>
      let (tokens, error) := TokenRepository.revoke s.tokens s.now tokenID
      some ({ s with tokens }, .revoked error)
  | s, .updateLastUsed tokenID =>
      some ({ s with tokens := (TokenRepository.updateLastUsed s.tokens s.now tokenID).1 }, .done)
  | s, .evict token => some ({ s with tokenCache := s.tokenCache.remove token }, .done)

end GrpcVault.Auth
