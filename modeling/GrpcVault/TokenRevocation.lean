import GrpcVault.ValidationRuns

/-!
# Revocation

A revocation marks the record of a token and stays (`run_revoked`), but leaves the
token cache as it is, and a validation that hits the cache does not look at the
records.
-/

namespace GrpcVault.Auth

open GoText EventSystem

variable {env : Env} {s s' : State} {token : Str} {claims : Claims} {tr : Trace} {e : Event}
  {o : Output}

def Event.createdID? : Event → Option Str
  | .createToken _ _ _ _ tokenID _ => some tokenID
  | _ => none

def createdIDs (tr : Trace) : List Str := tr.filterMap fun x => x.1.createdID?

def Revoked (tokenID : Str) (s : State) : Prop :=
  ∃ record, s.tokens.lookup tokenID = some record ∧ record.revokedAt.isSome = true

theorem get_of_revoked {tokenID : Str} (h : Revoked tokenID s) (now : ℤ) :
    TokenRepository.get s.tokens now tokenID = .error .tokenRevoked := by
  obtain ⟨record, hl, hr⟩ := h
  simp only [TokenRepository.get, hl, if_pos hr]

theorem Revoked.insert {tokenID i : Str} {record : Token} (h : Revoked tokenID s)
    (hrec : tokenID = i → record.revokedAt.isSome = true) :
    Revoked tokenID { s with tokens := s.tokens.insert i record } := by
  by_cases hi : tokenID = i
  · subst hi
    exact ⟨record, Finmap.lookup_insert _, hrec rfl⟩
  · obtain ⟨old, hl, hr⟩ := h
    exact ⟨old, (Finmap.lookup_insert_of_ne _ hi).trans hl, hr⟩

theorem step_revoked {tokenID : Str} (h : Effect env s e o s') (he : e.createdID? ≠ some tokenID)
    (hr : Revoked tokenID s) : Revoked tokenID s' := by
  cases h with
  | created =>
      apply hr.insert
      rintro rfl
      exact absurd rfl he
  | revoked => exact hr.insert fun _ => rfl
  | used hl =>
      apply hr.insert
      rintro rfl
      obtain ⟨old, hold, hmark⟩ := hr
      rw [hl] at hold
      cases hold
      exact hmark
  | _ => exact hr

theorem step_recorded {i : Str} (h : Effect env s e o s') (hi : i ∈ s'.tokens) :
    i ∈ s.tokens ∨ e.createdID? = some i := by
  cases h with
  | created =>
      obtain rfl | hi := Finmap.mem_insert.mp hi
      · exact .inr rfl
      · exact .inl hi
  | revoked hl | used hl =>
      obtain rfl | hi := Finmap.mem_insert.mp hi
      · exact .inl (Finmap.mem_of_lookup_eq_some hl)
      · exact .inl hi
  | _ => exact .inl hi

theorem createdIDs_append (tr₁ tr₂ : Trace) :
    createdIDs (tr₁ ++ tr₂) = createdIDs tr₁ ++ createdIDs tr₂ :=
  List.filterMap_append

theorem run_recorded {now ttl : ℤ} (h : Run (step env) (State.init now ttl) tr s) :
    ∀ i ∈ s.tokens, i ∈ createdIDs tr := fun _ hi =>
  h.shown (P := fun m i => i ∈ m.tokens)
    (fun _ _ _ _ _ hstep hi => step_recorded (step_effect hstep) hi)
    (fun _ => Finmap.notMem_empty) hi

theorem not_created_again {tokenID : Str} {tr' : Trace}
    (hnodup : (createdIDs (tr ++ tr')).Nodup) (hmem : tokenID ∈ createdIDs tr) :
    ∀ x ∈ tr', x.1.createdID? ≠ some tokenID :=
  not_shown_again hnodup hmem

theorem run_revoked {now ttl : ℤ} {tokenID : Str}
    (hrun : Run (step env) (State.init now ttl) tr s) (hids : (createdIDs tr).Nodup)
    (hrev : (.revokeToken tokenID, .revoked none) ∈ tr) :
    Revoked tokenID s ∧ tokenID ∈ createdIDs tr := by
  obtain ⟨tr₁, tr₂, rfl⟩ := List.append_of_mem hrev
  obtain ⟨m, m', hm, hstep, hrest⟩ := run_append_cons.mp hrun
  cases step_effect hstep with
  | revoked hl =>
      have hmem := run_recorded hm tokenID (Finmap.mem_of_lookup_eq_some hl)
      have hagain := not_created_again hids hmem
      refine ⟨?_, createdIDs_append _ _ ▸ List.mem_append_left _ hmem⟩
      refine hrest.invariant (A := fun x => x.1.createdID? ≠ some tokenID)
        (fun _ _ _ _ hA hI hs => step_revoked (step_effect hs) hA hI)
        (fun x hx => hagain x (List.mem_cons_of_mem _ hx)) ?_
      exact ⟨_, Finmap.lookup_insert _, rfl⟩

/-- After a revocation that returned without an error, a validation runs to its end, and
every way it can end is an error, exactly when the cache holds no live entry for the token
as it starts. The identifiers drawn for tokens are assumed distinct. -/
theorem revocation_effective_iff {now ttl : ℤ} (hrun : Run (step env) (State.init now ttl) tr s)
    (hids : (createdIDs tr).Nodup) (hverify : env.jwt.verify token = some claims)
    (hrev : (.revokeToken claims.tokenID, .revoked none) ∈ tr) :
    ((∃ tr' r, (createdIDs (tr ++ tr')).Nodup ∧ Answers env s token tr' r) ∧
      ∀ tr' r, (createdIDs (tr ++ tr')).Nodup → Answers env s token tr' r →
        ∃ err, r = .error err) ↔
    s.tokenCache.live s.now token = none := by
  obtain ⟨hrevoked, hmem⟩ := run_revoked hrun hids hrev
  constructor
  · rintro ⟨-, hall⟩
    cases hl : s.tokenCache.live s.now token with
    | none => rfl
    | some c =>
        have hnodup : (createdIDs
            (tr ++ [(.validateToken token, .returned s.next token (.ok c))])).Nodup := by
          rw [createdIDs_append]
          exact (List.append_nil (createdIDs tr)).symm ▸ hids
        obtain ⟨err, herr⟩ := hall _ _ hnodup (answers_of_live hl)
        cases herr
  · intro hl
    refine ⟨?_, ?_⟩
    · obtain ⟨o, tr', s', e, hr, hret, hev, -⟩ := validateToken_run env s token
      have hnil : createdIDs ((.validateToken token, o) :: tr') = [] := by
        rw [createdIDs, List.filterMap_eq_nil_iff]
        intro x hx
        obtain rfl | hx := List.mem_cons.mp hx
        · rfl
        · obtain h | h | h := hev x hx <;> rw [h] <;> rfl
      refine ⟨_, _, ?_, o, tr', s', e, rfl, hr, hret⟩
      rwa [createdIDs_append, hnil, List.append_nil]
    · intro tr' r hnodup hans
      obtain ⟨o, tr₁, s', e, rfl, ⟨s₁, hstart, hrest⟩, hret⟩ := hans
      cases r with
      | error err => exact ⟨err, rfl⟩
      | ok c =>
          obtain hc | ⟨hparsed, hget⟩ :=
            validateToken_succeeds (run_freshCalls hrun) hstart hrest hret
          · rw [hl] at hc
            cases hc
          · obtain ⟨_, _, _, _, hv⟩ := hparsed
            rw [(validateJwt_eq_ok hv).1] at hverify
            cases hverify
            have hagain := not_created_again hnodup hmem
            have hkept := step_revoked (step_effect hstart) (hagain _ List.mem_cons_self) hrevoked
            obtain ⟨m, hm, hrm⟩ := hget.invariant
              (A := fun x => x.1.createdID? ≠ some claims.tokenID)
              (fun _ _ _ _ hA hI hs => step_revoked (step_effect hs) hA hI)
              (fun x hx => hagain x (List.mem_cons_of_mem _ hx)) hkept
            exact absurd (get_of_revoked hrm m.now) hm

/-- The entry of an earlier validation has been evicted. -/
theorem revocation_effective_evicted :
    ∃ (tr : Trace) (s : State), Run (step aliceEnv) (State.init 0 300000000000) tr s ∧
      (.revokeToken "id".toList, .revoked none) ∈ tr ∧
      ∀ tr' r, (createdIDs (tr ++ tr')).Nodup → Answers aliceEnv s "token".toList tr' r →
        ∃ err, r = .error err := by
  have hrun : ∃ (r₁ r₂ r₃ r₄ r₅ r₆ : Output) (s : State),
      Run (step aliceEnv) (State.init 0 300000000000)
        [(.createToken "alice".toList [] 0 ∅ "id".toList 0, r₁),
         (.validateToken "token".toList, r₂), (.parse 0, r₃), (.checkRevoked 0, r₄),
         (.cacheClaims 0, r₅), (.revokeToken "id".toList, .revoked none),
         (.evict "token".toList, r₆)] s ∧ s.tokenCache.live s.now "token".toList = none :=
    ⟨_, _, _, _, _, _, _, ⟨_, rfl, _, rfl, _, rfl, _, rfl, _, rfl, _, rfl, _, rfl, rfl⟩, rfl⟩
  obtain ⟨r₁, r₂, r₃, r₄, r₅, r₆, s, hrun, hl⟩ := hrun
  have hrev : (Event.revokeToken aliceClaims.tokenID, Output.revoked none) ∈
      [(Event.createToken "alice".toList [] 0 ∅ "id".toList 0, r₁),
       (Event.validateToken "token".toList, r₂), (Event.parse 0, r₃), (Event.checkRevoked 0, r₄),
       (Event.cacheClaims 0, r₅), (Event.revokeToken "id".toList, Output.revoked none),
       (Event.evict "token".toList, r₆)] := by
    simp [aliceClaims, Manager.claims]
  exact ⟨_, s, hrun, hrev,
    ((revocation_effective_iff hrun (List.nodup_singleton _) rfl hrev).mpr hl).2⟩

/-- A token validated before its revocation is accepted after it. -/
theorem revocation_ignored_by_cache :
    ∃ (tr : Trace) (s : State), Run (step aliceEnv) (State.init 0 300000000000) tr s ∧
      (createdIDs tr).Nodup ∧ aliceEnv.jwt.verify "token".toList = some aliceClaims ∧
      (.revokeToken aliceClaims.tokenID, .revoked none) ∈ tr ∧
      ¬ ∀ tr' r, (createdIDs (tr ++ tr')).Nodup → Answers aliceEnv s "token".toList tr' r →
        ∃ err, r = .error err := by
  have hrun : ∃ (r₁ r₂ r₃ r₄ r₅ : Output) (s : State),
      Run (step aliceEnv) (State.init 0 300000000000)
        [(.createToken "alice".toList [] 0 ∅ "id".toList 0, r₁),
         (.validateToken "token".toList, r₂), (.parse 0, r₃), (.checkRevoked 0, r₄),
         (.cacheClaims 0, r₅), (.revokeToken aliceClaims.tokenID, .revoked none)] s ∧
      s.tokenCache.live s.now "token".toList = some aliceClaims :=
    ⟨_, _, _, _, _, _, ⟨_, rfl, _, rfl, _, rfl, _, rfl, _, rfl, _, rfl, rfl⟩, rfl⟩
  obtain ⟨r₁, r₂, r₃, r₄, r₅, s, hrun, hl⟩ := hrun
  refine ⟨_, s, hrun, List.nodup_singleton _, rfl, by simp, ?_⟩
  intro hall
  have hok := hall [(.validateToken "token".toList, .returned s.next "token".toList
    (.ok aliceClaims))] _ (List.nodup_singleton _) (answers_of_live hl)
  obtain ⟨err, herr⟩ := hok
  cases herr

end GrpcVault.Auth
