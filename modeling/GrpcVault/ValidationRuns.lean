import GrpcVault.AuthSteps

/-!
# Validations among other calls

A validation that succeeds either found claims in the cache when it started, or
passed the check of the JWT and that of the repository at moments after its start
(`validateToken_succeeds`). The proof follows one call by its identifier through the
steps of all the others.
-/

namespace GrpcVault.Auth

open GoText EventSystem

variable {env : Env} {s s₁ s' : State} {id : ℕ} {token : Str} {claims : Claims}
  {tr : Trace} {e : Event} {o : Output}

def FreshCalls (s : State) : Prop := ∀ id, s.next ≤ id → s.calls id = none

theorem step_next_le (h : Effect env s e o s') : s.next ≤ s'.next := by
  cases h <;> first | exact le_rfl | exact Nat.le_succ _

theorem step_now_le (h : Effect env s e o s') : s.now ≤ s'.now := by
  cases h with
  | tick => exact Int.le_add_of_nonneg_right (Int.natCast_nonneg _)
  | _ => exact le_rfl

theorem step_stage (h : Effect env s e o s') (hid : id < s.next) {stage : Stage}
    (hs : s'.calls id = some stage) :
    s.calls id = some stage ∨
    (∃ t c, stage = .parsed t c ∧ s.calls id = some (.lookedUp t) ∧
      validateJwt env.jwt s.now t = .ok c) ∨
    (∃ t c, stage = .checked t c ∧ s.calls id = some (.parsed t c) ∧
      TokenRepository.get s.tokens s.now c.tokenID ≠ .error .tokenRevoked) := by
  have hupd : ∀ {i : ℕ} {st : Option Stage}, Function.update s.calls i st id = some stage →
      id = i ∧ st = some stage ∨ s.calls id = some stage := by
    intro i st hu
    by_cases hi : id = i
    · subst hi
      exact .inl ⟨rfl, by simpa using hu⟩
    · exact .inr (by rwa [Function.update_of_ne hi] at hu)
  cases h with
  | miss =>
      obtain ⟨rfl, _⟩ | hk := hupd hs
      · exact absurd hid (lt_irrefl _)
      · exact .inl hk
  | parsed hc hv =>
      obtain ⟨rfl, hst⟩ | hk := hupd hs
      · exact .inr (.inl ⟨_, _, (Option.some.inj hst).symm, hc, hv⟩)
      · exact .inl hk
  | checked hc hr =>
      obtain ⟨rfl, hst⟩ | hk := hupd hs
      · exact .inr (.inr ⟨_, _, (Option.some.inj hst).symm, hc, hr⟩)
      · exact .inl hk
  | parseFailed | refused | cached =>
      obtain ⟨rfl, hst⟩ | hk := hupd hs
      · cases hst
      · exact .inl hk
  | _ => exact .inl hs

theorem step_freshCalls (h : Effect env s e o s') (hs : FreshCalls s) : FreshCalls s' := by
  intro i hi
  have hi' : s.next ≤ i := (step_next_le h).trans hi
  have hkeep : ∀ {j : ℕ} {st : Option Stage}, i ≠ j → Function.update s.calls j st i = none := by
    intro j st hne
    rw [Function.update_of_ne hne]
    exact hs i hi'
  have hused : ∀ {j : ℕ} {st : Stage}, s.calls j = some st → i ≠ j := by
    rintro j st hj rfl
    rw [hs i hi'] at hj
    cases hj
  cases h with
  | miss => exact hkeep (Nat.ne_of_gt hi)
  | parseFailed hc | parsed hc | refused hc | checked hc | cached hc => exact hkeep (hused hc)
  | _ => exact hs i hi'

theorem run_freshCalls {now ttl : ℤ} (h : Run (step env) (State.init now ttl) tr s) :
    FreshCalls s :=
  h.preserves (I := FreshCalls) (fun _ _ _ _ hm hs => step_freshCalls (step_effect hs) hm)
    fun _ _ => rfl

/-- What the events `tr`, run from `s₁`, must have shown about a validation of `token`
that is now at this stage. -/
def Reached (env : Env) (s₁ : State) (tr : Trace) (token : Str) : Stage → Prop
  | .lookedUp t => t = token
  | .parsed t c => t = token ∧
      Sometime (step env) (fun m => validateJwt env.jwt m.now token = .ok c) s₁ tr
  | .checked t c => t = token ∧
      Sometime (step env) (fun m => validateJwt env.jwt m.now token = .ok c) s₁ tr ∧
      Sometime (step env)
        (fun m => TokenRepository.get m.tokens m.now c.tokenID ≠ .error .tokenRevoked) s₁ tr

theorem Reached.append {stage : Stage} {tr' : Trace} (h : Reached env s₁ tr token stage) :
    Reached env s₁ (tr ++ tr') token stage := by
  cases stage with
  | lookedUp t => exact h
  | parsed t c => exact ⟨h.1, h.2.append⟩
  | checked t c => exact ⟨h.1, h.2.1.append, h.2.2.append⟩

structure Tracked (env : Env) (s₁ : State) (id : ℕ) (token : Str) (tr : Trace) (m : State) :
    Prop where
  lt_next : id < m.next
  reached : ∀ stage, m.calls id = some stage → Reached env s₁ tr token stage

theorem Tracked.step {m m' : State} (hm : Run (step env) s₁ tr m)
    (ht : Tracked env s₁ id token tr m) (h : step env m e = some (m', o)) :
    Tracked env s₁ id token (tr ++ [(e, o)]) m' := by
  have heff := step_effect h
  refine ⟨ht.lt_next.trans_le (step_next_le heff), ?_⟩
  intro stage hs
  obtain hk | ⟨t, c, rfl, hc, hv⟩ | ⟨t, c, rfl, hc, hr⟩ := step_stage heff ht.lt_next hs
  · exact (ht.reached stage hk).append
  · obtain rfl : t = token := ht.reached _ hc
    exact ⟨rfl, (Run.sometime hm hv).append⟩
  · obtain ⟨rfl, hp⟩ := ht.reached _ hc
    exact ⟨rfl, hp.append, (Run.sometime hm hr).append⟩

theorem returned_ok (h : Effect env s e o s') (ho : o = .returned id token (.ok claims)) :
    id = s.next ∧ s.tokenCache.live s.now token = some claims ∨
      s.calls id = some (.checked token claims) := by
  cases h with
  | hit hl =>
      cases ho
      exact .inl ⟨rfl, hl⟩
  | cached hc =>
      cases ho
      exact .inr hc
  | _ => cases ho

/-- A validation that starts at `s` and succeeds found its claims in the cache, or
has checked the JWT and the repository after its start. -/
theorem validateToken_succeeds (hs : FreshCalls s)
    (hstart : step env s (.validateToken token) = some (s₁, o)) (hrun : Run (step env) s₁ tr s')
    (hret : (e, .returned s.next token (.ok claims)) ∈ (.validateToken token, o) :: tr) :
    s.tokenCache.live s.now token = some claims ∨
    Sometime (step env) (fun m => validateJwt env.jwt m.now token = .ok claims) s₁ tr ∧
    Sometime (step env)
      (fun m => TokenRepository.get m.tokens m.now claims.tokenID ≠ .error .tokenRevoked) s₁ tr := by
  have htracked : Tracked env s₁ s.next token [] s₁ := by
    cases step_effect hstart with
    | hit hl =>
        refine ⟨Nat.lt_succ_self _, ?_⟩
        intro stage hst
        exact absurd hst (by simp [hs s.next le_rfl])
    | miss hl =>
        refine ⟨Nat.lt_succ_self _, ?_⟩
        intro stage hst
        obtain rfl : Stage.lookedUp token = stage := by simpa [State.missed] using hst
        exact rfl
  obtain hret | hret := List.mem_cons.mp hret
  · obtain ⟨_, hl⟩ | hc := returned_ok (step_effect hstart) (congrArg Prod.snd hret).symm
    · exact .inl hl
    · rw [hs s.next le_rfl] at hc
      cases hc
  · obtain ⟨tr₁, tr₂, rfl⟩ := List.append_of_mem hret
    obtain ⟨m, m', hm, hstep, _⟩ := run_append_cons.mp hrun
    have ht : Tracked env s₁ s.next token tr₁ m :=
      Run.snocInduction htracked (fun _ _ _ _ _ hr ht h => ht.step hr h) hm
    obtain ⟨hn, _⟩ | hc := returned_ok (step_effect hstep) rfl
    · exact absurd hn ht.lt_next.ne
    · obtain ⟨_, hp, hr⟩ := ht.reached _ hc
      exact .inr ⟨hp.append, hr.append⟩

/-- With the events `tr` from `s` on, the validation of `token` that the first of them
starts returns `r`. -/
def Answers (env : Env) (s : State) (token : Str) (tr : Trace) (r : Except AuthError Claims) :
    Prop :=
  ∃ (o : Output) (tr' : Trace) (s' : State) (e : Event), tr = (.validateToken token, o) :: tr' ∧
    Run (step env) s tr s' ∧ (e, .returned s.next token r) ∈ tr

theorem answers_of_live (h : s.tokenCache.live s.now token = some claims) :
    Answers env s token [(.validateToken token, .returned s.next token (.ok claims))]
      (.ok claims) :=
  ⟨_, [], _, _, rfl, ⟨_, step_hit h, rfl⟩, List.mem_singleton_self _⟩

/-- A library that knows one set of claims and the token for it. -/
def singleJwt (claims : Claims) (token : Str) : Jwt where
  sign c _ := if c = claims then some token else none
  verify t := if t = token then some claims else none

theorem singleJwt_lawful (claims : Claims) (token : Str) : (singleJwt claims token).Lawful := by
  constructor
  intro c seed t h
  by_cases hc : c = claims
  · simp only [singleJwt, if_pos hc, Option.some.injEq] at h
    simp only [singleJwt, if_pos h.symm, hc]
  · simp [singleJwt, hc] at h

def aliceManager : Manager := newManager [] [] 0 0

def aliceClaims : Claims :=
  aliceManager.claims "alice".toList (withDefaultPolicy []) 0 ∅ 0 "id".toList

def aliceEnv : Env where
  jwt := singleJwt aliceClaims "token".toList
  manager := aliceManager

end GrpcVault.Auth
