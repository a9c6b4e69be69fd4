import GrpcVault.ValidationRuns

/-!
# Expiry

The check of the JWT refuses a token from the second of its `exp` claim on, which is
not after the expiry returned when the token was created. A cached entry lives by the
clock of the cache alone.
-/

namespace GrpcVault.Auth

open GoText EventSystem

variable {env : Env} {s s' : State} {token : Str} {claims : Claims} {tr : Trace} {e : Event}
  {o : Output}

theorem numericDate_mul_le (time : ℤ) : numericDate time * 10 ^ 9 ≤ time := by
  unfold numericDate
  omega

theorem run_now_le (h : Run (step env) s tr s') : s.now ≤ s'.now :=
  h.monotone (f := State.now) fun _ _ _ _ hs => step_now_le (step_effect hs)

theorem step_created (hlaw : env.jwt.Lawful) {tokenID : Str} {expiry : ℤ}
    (h : Effect env s e o s') (ho : o = .created (.ok (token, tokenID, expiry))) :
    ∃ c, env.jwt.verify token = some c ∧ c.expiresAt = some (numericDate expiry) := by
  cases h with
  | created hsign =>
      cases ho
      exact ⟨_, hlaw.verify_sign hsign, rfl⟩
  | _ => cases ho

theorem created_verify (hlaw : env.jwt.Lawful) {tokenID : Str} {expiry : ℤ} {s₀ : State}
    (hrun : Run (step env) s₀ tr s)
    (hmem : (e, .created (.ok (token, tokenID, expiry))) ∈ tr) :
    ∃ c, env.jwt.verify token = some c ∧ c.expiresAt = some (numericDate expiry) := by
  obtain ⟨tr₁, tr₂, rfl⟩ := List.append_of_mem hmem
  obtain ⟨m, m', _, hstep, _⟩ := run_append_cons.mp hrun
  exact step_created hlaw (step_effect hstep) rfl

/-- A validation of a created token, wherever its steps fall, succeeds only when started by
the expiry: so it is for exactly those starts that are in time or miss the cache. -/
theorem expiry_respected_iff {now ttl : ℤ} {tokenID : Str} {expiry : ℤ} (hlaw : env.jwt.Lawful)
    (hrun : Run (step env) (State.init now ttl) tr s)
    (hmem : (e, .created (.ok (token, tokenID, expiry))) ∈ tr) :
    (∀ tr' c, Answers env s token tr' (.ok c) → s.now ≤ expiry) ↔
      (s.now ≤ expiry ∨ s.tokenCache.live s.now token = none) := by
  constructor
  · intro hall
    cases hl : s.tokenCache.live s.now token with
    | none => exact .inr rfl
    | some c => exact .inl (hall _ c (answers_of_live hl))
  · intro hcond tr' c hans
    obtain ⟨o, tr₁, s', e', rfl, ⟨s₁, hstart, hrest⟩, hret⟩ := hans
    obtain hle | hl := hcond
    · exact hle
    · obtain hc | ⟨⟨tr₂, m, _, hm, hv⟩, _⟩ :=
        validateToken_succeeds (run_freshCalls hrun) hstart hrest hret
      · rw [hl] at hc
        cases hc
      · obtain ⟨hverify, hexp⟩ := validateJwt_eq_ok hv
        obtain ⟨c', hverify', hexp'⟩ := created_verify hlaw hrun hmem
        obtain rfl : c = c' := Option.some.inj (hverify.symm.trans hverify')
        calc s.now ≤ s₁.now := step_now_le (step_effect hstart)
          _ ≤ m.now := run_now_le hm
          _ ≤ numericDate expiry * 10 ^ 9 := (hexp _ hexp').le
          _ ≤ expiry := numericDate_mul_le expiry

/-- An hour has passed, and the cache has been empty all along. -/
theorem expiry_respected_uncached :
    ∃ (tr : Trace) (s : State), Run (step aliceEnv) (State.init 0 300000000000) tr s ∧
      s.now = 3601 * 10 ^ 9 ∧
      ∀ tr' c, Answers aliceEnv s "token".toList tr' (.ok c) → s.now ≤ 3600 * 10 ^ 9 := by
  have hrun : ∃ (r : Output) (s : State), Run (step aliceEnv) (State.init 0 300000000000)
      [(.createToken "alice".toList [] 0 ∅ "id".toList 0,
          .created (.ok ("token".toList, "id".toList, 3600 * 10 ^ 9))),
       (.tick (3601 * 10 ^ 9), r)] s ∧ s.now = 3601 * 10 ^ 9 ∧
      s.tokenCache.live s.now "token".toList = none :=
    ⟨_, _, ⟨_, rfl, _, rfl, rfl⟩, rfl, rfl⟩
  obtain ⟨r, s, hrun, hnow, hl⟩ := hrun
  exact ⟨_, s, hrun, hnow, (expiry_respected_iff (singleJwt_lawful aliceClaims "token".toList) hrun
    List.mem_cons_self).mpr (.inr hl)⟩

/-- A token validated a second before its expiry is accepted a second after it. -/
theorem expiry_ignored_by_cache :
    ∃ (tr : Trace) (s : State), aliceEnv.jwt.Lawful ∧
      Run (step aliceEnv) (State.init 0 300000000000) tr s ∧
      (.createToken "alice".toList [] 0 ∅ "id".toList 0,
        .created (.ok ("token".toList, "id".toList, 3600 * 10 ^ 9))) ∈ tr ∧
      ¬ ∀ tr' c, Answers aliceEnv s "token".toList tr' (.ok c) → s.now ≤ 3600 * 10 ^ 9 := by
  have hrun : ∃ (r₁ r₂ r₃ r₄ r₅ r₆ : Output) (s : State),
      Run (step aliceEnv) (State.init 0 300000000000)
        [(.createToken "alice".toList [] 0 ∅ "id".toList 0,
            .created (.ok ("token".toList, "id".toList, 3600 * 10 ^ 9))),
         (.tick (3599 * 10 ^ 9), r₁), (.validateToken "token".toList, r₂), (.parse 0, r₃),
         (.checkRevoked 0, r₄), (.cacheClaims 0, r₅), (.tick (2 * 10 ^ 9), r₆)] s ∧
      s.now = 3601 * 10 ^ 9 ∧ s.tokenCache.live s.now "token".toList = some aliceClaims :=
    ⟨_, _, _, _, _, _, _, ⟨_, rfl, _, rfl, _, rfl, _, rfl, _, rfl, _, rfl, _, rfl, rfl⟩, rfl, rfl⟩
  obtain ⟨r₁, r₂, r₃, r₄, r₅, r₆, s, hrun, hnow, hl⟩ := hrun
  refine ⟨_, s, singleJwt_lawful _ _, hrun, List.mem_cons_self, ?_⟩
  intro hall
  have hle := hall _ _ (answers_of_live hl)
  rw [hnow] at hle
  exact absurd hle (by decide)

end GrpcVault.Auth
