import GrpcVault.AuthService

/-!
# Steps of the auth service

`step_effect` says what one event does, and `validateToken_run` that the steps of
one validation, taken together, compute `validateToken`.
-/

namespace GrpcVault.Auth

open GoText EventSystem

/-- The lookup takes an expired entry out. -/
def State.missed (s : State) (token : Str) : State :=
  { s with tokenCache := (s.tokenCache.get s.now token).1
           calls := Function.update s.calls s.next (some (.lookedUp token))
           next := s.next + 1 }

inductive Effect (env : Env) (s : State) : Event → Output → State → Prop
  | hit {token claims} (h : s.tokenCache.live s.now token = some claims) :
      Effect env s (.validateToken token) (.returned s.next token (.ok claims))
        { s with next := s.next + 1 }
  | miss {token} (h : s.tokenCache.live s.now token = none) :
      Effect env s (.validateToken token) (.continued s.next)
        (s.missed token)
  | parseFailed {id token e} (h : s.calls id = some (.lookedUp token))
      (hv : validateJwt env.jwt s.now token = .error e) :
      Effect env s (.parse id) (.returned id token (.error (.ofJwt e)))
        { s with calls := Function.update s.calls id none }
  | parsed {id token claims} (h : s.calls id = some (.lookedUp token))
      (hv : validateJwt env.jwt s.now token = .ok claims) :
      Effect env s (.parse id) (.continued id)
        { s with calls := Function.update s.calls id (some (.parsed token claims)) }
  | refused {id token claims} (h : s.calls id = some (.parsed token claims))
      (hr : TokenRepository.get s.tokens s.now claims.tokenID = .error .tokenRevoked) :
      Effect env s (.checkRevoked id) (.returned id token (.error .invalidToken))
        { s with calls := Function.update s.calls id none }
  | checked {id token claims} (h : s.calls id = some (.parsed token claims))
      (hr : TokenRepository.get s.tokens s.now claims.tokenID ≠ .error .tokenRevoked) :
      Effect env s (.checkRevoked id) (.continued id)
        { s with calls := Function.update s.calls id (some (.checked token claims)) }
  | cached {id token claims} (h : s.calls id = some (.checked token claims)) :
      Effect env s (.cacheClaims id) (.returned id token (.ok claims))
        { s with tokenCache := s.tokenCache.set s.now token claims
                 calls := Function.update s.calls id none }
  | tick {d} : Effect env s (.tick d) .done { s with now := s.now + d }
  | notCreated {identity policies ttl metadata tokenID seed e} :
      Effect env s (.createToken identity policies ttl metadata tokenID seed)
        (.created (.error e)) s
  | created {identity policies ttl metadata tokenID seed token record}
      (hsign : env.jwt.sign (env.manager.claims identity (withDefaultPolicy policies) ttl metadata
        s.now tokenID) seed = some token)
      (hexpires : record.expiresAt = s.now + env.manager.adjustTTL ttl) :
      Effect env s (.createToken identity policies ttl metadata tokenID seed)
        (.created (.ok (token, tokenID, s.now + env.manager.adjustTTL ttl)))
        { s with tokens := s.tokens.insert tokenID record }
  | notRevoked {tokenID} (h : s.tokens.lookup tokenID = none) :
      Effect env s (.revokeToken tokenID) (.revoked (some .tokenNotFound)) s
  | revoked {tokenID record} (h : s.tokens.lookup tokenID = some record) :
      Effect env s (.revokeToken tokenID) (.revoked none)
        { s with tokens := s.tokens.insert tokenID { record with revokedAt := some s.now } }
  | notUsed {tokenID} : Effect env s (.updateLastUsed tokenID) .done s
  | used {tokenID record} (h : s.tokens.lookup tokenID = some record) :
      Effect env s (.updateLastUsed tokenID) .done
        { s with tokens := s.tokens.insert tokenID { record with lastUsedAt := some s.now } }
  | evict {token} :
      Effect env s (.evict token) .done { s with tokenCache := s.tokenCache.remove token }

variable {env : Env} {s s' : State}

section Equations

variable {id : ℕ} {token : Str} {claims : Claims}

theorem step_hit (h : s.tokenCache.live s.now token = some claims) :
    step env s (.validateToken token) =
      some ({ s with next := s.next + 1 }, .returned s.next token (.ok claims)) := by
  simp only [step, State.startValidation, LRUCache.get_of_live h]

theorem step_miss (h : s.tokenCache.live s.now token = none) :
    step env s (.validateToken token) = some (s.missed token, .continued s.next) := by
  have hg : s.tokenCache.get s.now token = ((s.tokenCache.get s.now token).1, none) :=
    Prod.ext rfl h
  rw [step, State.startValidation, hg]
  rfl

theorem step_parse_error {e : JwtError} (h : s.calls id = some (.lookedUp token))
    (hv : validateJwt env.jwt s.now token = .error e) :
    step env s (.parse id) = some (s.finish id token (.error (.ofJwt e))) := by
  simp only [step, h, hv]

theorem step_parse_ok (h : s.calls id = some (.lookedUp token))
    (hv : validateJwt env.jwt s.now token = .ok claims) :
    step env s (.parse id) =
      some ({ s with calls := Function.update s.calls id (some (.parsed token claims)) },
        .continued id) := by
  simp only [step, h, hv]

theorem step_checkRevoked_error (h : s.calls id = some (.parsed token claims))
    (hr : TokenRepository.get s.tokens s.now claims.tokenID = .error .tokenRevoked) :
    step env s (.checkRevoked id) = some (s.finish id token (.error .invalidToken)) := by
  simp only [step, h, hr]

theorem step_checkRevoked_ok (h : s.calls id = some (.parsed token claims))
    (hr : TokenRepository.get s.tokens s.now claims.tokenID ≠ .error .tokenRevoked) :
    step env s (.checkRevoked id) =
      some ({ s with calls := Function.update s.calls id (some (.checked token claims)) },
        .continued id) := by
  simp only [step, h]

theorem step_cacheClaims (h : s.calls id = some (.checked token claims)) :
    step env s (.cacheClaims id) =
      some ({ s with tokenCache := s.tokenCache.set s.now token claims
                     calls := Function.update s.calls id none },
        .returned id token (.ok claims)) := by
  simp only [step, h]

end Equations

theorem createToken_effect (identity : Str) (policies : List Str) (ttl : ℤ)
    (metadata : GoMap Str Str) (tokenID : Str) (seed : ℕ) :
    Effect env s (.createToken identity policies ttl metadata tokenID seed)
      (.created (s.createToken env identity policies ttl metadata tokenID seed).2)
      (s.createToken env identity policies ttl metadata tokenID seed).1 := by
  cases h : env.jwt.sign (env.manager.claims identity (withDefaultPolicy policies) ttl metadata
      s.now tokenID) seed with
  | none =>
      simp only [State.createToken, Manager.createToken, h]
      exact .notCreated
  | some token =>
      simp only [State.createToken, Manager.createToken, h, TokenRepository.create]
      exact .created h rfl

theorem step_effect {e : Event} {o : Output} (h : step env s e = some (s', o)) :
    Effect env s e o s' := by
  cases e with
  | tick d =>
      cases h
      exact .tick
  | createToken identity policies ttl metadata tokenID seed =>
      cases h
      exact createToken_effect identity policies ttl metadata tokenID seed
  | validateToken token =>
      cases hl : s.tokenCache.live s.now token with
      | some claims =>
          rw [step_hit hl] at h
          cases h
          exact .hit hl
      | none =>
          rw [step_miss hl] at h
          cases h
          exact .miss hl
  | parse id =>
      rcases hc : s.calls id with _ | ⟨token⟩ | ⟨token, claims⟩ | ⟨token, claims⟩
      · simp [step, hc] at h
      · cases hv : validateJwt env.jwt s.now token with
        | error e =>
            rw [step_parse_error hc hv] at h
            cases h
            exact .parseFailed hc hv
        | ok claims =>
            rw [step_parse_ok hc hv] at h
            cases h
            exact .parsed hc hv
      · simp [step, hc] at h
      · simp [step, hc] at h
  | checkRevoked id =>
      rcases hc : s.calls id with _ | ⟨token⟩ | ⟨token, claims⟩ | ⟨token, claims⟩
      · simp [step, hc] at h
      · simp [step, hc] at h
      · by_cases hr : TokenRepository.get s.tokens s.now claims.tokenID = .error .tokenRevoked
        · rw [step_checkRevoked_error hc hr] at h
          cases h
          exact .refused hc hr
        · rw [step_checkRevoked_ok hc hr] at h
          cases h
          exact .checked hc hr
      · simp [step, hc] at h
  | cacheClaims id =>
      rcases hc : s.calls id with _ | ⟨token⟩ | ⟨token, claims⟩ | ⟨token, claims⟩
      · simp [step, hc] at h
      · simp [step, hc] at h
      · simp [step, hc] at h
      · rw [step_cacheClaims hc] at h
        cases h
        exact .cached hc
  | revokeToken tokenID =>
      cases hl : s.tokens.lookup tokenID with
      | none =>
          simp only [step, TokenRepository.revoke, hl] at h
          cases h
          exact .notRevoked hl
      | some record =>
          simp only [step, TokenRepository.revoke, hl] at h
          cases h
          exact .revoked hl
  | updateLastUsed tokenID =>
      cases hl : s.tokens.lookup tokenID with
      | none =>
          simp only [step, TokenRepository.updateLastUsed, hl] at h
          cases h
          exact .notUsed
      | some record =>
          simp only [step, TokenRepository.updateLastUsed, hl] at h
          cases h
          exact .used hl
  | evict token =>
      cases h
      exact .evict

theorem validateJwt_eq_ok {jwt : Jwt} {now : ℤ} {token : Str} {claims : Claims}
    (h : validateJwt jwt now token = .ok claims) :
    jwt.verify token = some claims ∧ ∀ exp ∈ claims.expiresAt, now < exp * 10 ^ 9 := by
  cases hv : jwt.verify token with
  | none => simp [validateJwt, hv] at h
  | some c =>
      by_cases hexp : c.expiresAt.any fun exp => exp * 10 ^ 9 ≤ now
      · simp only [validateJwt, hv, if_pos hexp] at h
        cases h
      · by_cases hnbf : c.notBefore.any fun nbf => now < nbf * 10 ^ 9
        · simp only [validateJwt, hv, if_neg hexp, if_pos hnbf] at h
          cases h
        · simp only [validateJwt, hv, if_neg hexp, if_neg hnbf, Except.ok.injEq] at h
          subst h
          refine ⟨rfl, ?_⟩
          intro exp he
          rw [he] at hexp
          simpa using hexp

variable (env s) in
/-- A validation by itself is a run of its steps. -/
theorem validateToken_run (token : Str) :
    ∃ (o : Output) (tr : Trace) (s' : State) (e : Event),
      Run (step env) s ((.validateToken token, o) :: tr) s' ∧
      (e, .returned s.next token (validateToken env.jwt s.now s.tokens s.tokenCache token).2) ∈
        (.validateToken token, o) :: tr ∧
      (∀ x ∈ tr, x.1 = .parse s.next ∨ x.1 = .checkRevoked s.next ∨ x.1 = .cacheClaims s.next) ∧
      s'.tokenCache = (validateToken env.jwt s.now s.tokens s.tokenCache token).1 ∧
      s'.tokens = s.tokens := by
  unfold validateToken
  cases hl : s.tokenCache.live s.now token with
  | some claims =>
      rw [LRUCache.get_of_live hl]
      exact ⟨_, [], _, _, ⟨_, step_hit hl, rfl⟩, List.mem_cons_self, by simp, rfl, rfl⟩
  | none =>
      have hg : s.tokenCache.get s.now token = ((s.missed token).tokenCache, none) :=
        Prod.ext rfl hl
      rw [hg]
      have hc₁ : (s.missed token).calls s.next = some (.lookedUp token) :=
        Function.update_self ..
      cases hv : validateJwt env.jwt s.now token with
      | error e =>
          exact ⟨_, [(.parse s.next, _)], _, .parse s.next,
            ⟨_, step_miss hl, _, step_parse_error hc₁ hv, rfl⟩, by simp, by simp, rfl, rfl⟩
      | ok claims =>
          let s₂ : State := { s.missed token with
            calls := Function.update (s.missed token).calls s.next (some (.parsed token claims)) }
          have hc₂ : s₂.calls s.next = some (.parsed token claims) := Function.update_self ..
          by_cases hr : TokenRepository.get s.tokens s.now claims.tokenID = .error .tokenRevoked
          · simp only [hr]
            exact ⟨_, [(.parse s.next, _), (.checkRevoked s.next, _)], _, .checkRevoked s.next,
              ⟨_, step_miss hl, _, step_parse_ok hc₁ hv, _,
                step_checkRevoked_error (s := s₂) hc₂ hr, rfl⟩, by simp, by simp, rfl, rfl⟩
          · let s₃ : State := { s₂ with
              calls := Function.update s₂.calls s.next (some (.checked token claims)) }
            have hc₃ : s₃.calls s.next = some (.checked token claims) := Function.update_self ..
            simp only
            exact ⟨_, [(.parse s.next, _), (.checkRevoked s.next, _), (.cacheClaims s.next, _)],
              _, .cacheClaims s.next, ⟨_, step_miss hl, _, step_parse_ok hc₁ hv, _,
                step_checkRevoked_ok (s := s₂) hc₂ hr, _, step_cacheClaims (s := s₃) hc₃, rfl⟩,
              by simp, by simp, rfl, rfl⟩

end GrpcVault.Auth
