import GrpcVault.CredentialListing
import GrpcVault.TokenExpiry
import GrpcVault.TokenRevocation

/-!
# Deleting expired records

A validation that finds no record accepts the token, so the deletion of the record of a revoked
token could revive it. A record is deleted after its expiry, the `exp` claim is not after the
expiry, and from then on the check of the JWT refuses the token. But a validation holds no lock
between that check and the lookup of the record: a deletion that falls between the two lets the
revoked token through, and nothing else does (`revoked_refused_iff`). The events are those of
the auth service and the deletion.
-/

namespace GrpcVault.TokenCalls

open GoText EventSystem Auth

inductive Event where
  | auth (e : Auth.Event)
  | deleteExpired

inductive Output where
  | auth (o : Auth.Output)
  | deleted (count : ℕ)

abbrev Trace := List (Event × Output)

def step (env : Env) : Step State Event Output
  | s, .auth e => (Auth.step env s e).map (Prod.map id .auth)
  | s, .deleteExpired =>
      let (tokens, count) := TokenRepository.deleteExpired s.now s.tokens
      some ({ s with tokens }, .deleted count)

inductive Effect (env : Env) (s : State) : Event → Output → State → Prop
  | auth {e o s'} (h : Auth.Effect env s e o s') : Effect env s (.auth e) (.auth o) s'
  | deleted {count} :
      Effect env s .deleteExpired (.deleted count)
        { s with tokens := (TokenRepository.deleteExpired s.now s.tokens).1 }

variable {env : Env} {s s' : State} {e : Event} {o : Output} {tr : Trace}

theorem step_effect (h : step env s e = some (s', o)) : Effect env s e o s' := by
  cases e with
  | auth e =>
      obtain ⟨⟨m, o'⟩, hstep, heq⟩ := Option.map_eq_some_iff.mp h
      obtain ⟨rfl, rfl⟩ := Prod.mk.inj heq
      exact .auth (Auth.step_effect hstep)
  | deleteExpired =>
      cases h
      exact .deleted

theorem lookup_deleteExpired (now : ℤ) (tokens : TokenRepository) (tokenID : Str) :
    (TokenRepository.deleteExpired now tokens).1.lookup tokenID =
      (tokens.lookup tokenID).filter fun token => !decide (token.expiresAt < now) :=
  GoMap.lookup_filterValues _ _ _

/-! ## Records of a created token -/

def Event.createdID? : Event → Option Str
  | .auth e => e.createdID?
  | .deleteExpired => none

def createdIDs (tr : Trace) : List Str := tr.filterMap fun x => x.1.createdID?

/-- The record of the token is there with its expiry, and marked if the token is `revoked`; or it
is gone and the expiry has passed. -/
def Kept (revoked : Bool) (tokenID : Str) (expiry : ℤ) (s : State) : Prop :=
  (∃ record, s.tokens.lookup tokenID = some record ∧ record.expiresAt = expiry ∧
    (revoked = true → record.revokedAt.isSome = true)) ∨
  (s.tokens.lookup tokenID = none ∧ expiry < s.now)

section Kept

variable {revoked : Bool} {tokenID id : Str} {expiry : ℤ} {record : Token}

theorem Kept.insert (h : Kept revoked tokenID expiry s)
    (hrecord : tokenID = id → record.expiresAt = expiry ∧
      (revoked = true → record.revokedAt.isSome = true)) :
    Kept revoked tokenID expiry { s with tokens := s.tokens.insert id record } := by
  by_cases hid : tokenID = id
  · subst hid
    exact .inl ⟨record, Finmap.lookup_insert _, hrecord rfl⟩
  · unfold Kept
    simp only [Finmap.lookup_insert_of_ne _ hid]
    exact h

theorem Kept.of_lookup (h : Kept revoked tokenID expiry s)
    (hl : s.tokens.lookup tokenID = some record) :
    record.expiresAt = expiry ∧ (revoked = true → record.revokedAt.isSome = true) := by
  rcases h with ⟨record', hl', hkept⟩ | ⟨hnone, _⟩
  · obtain rfl : record = record' := Option.some.inj (hl.symm.trans hl')
    exact hkept
  · rw [hl] at hnone
    cases hnone

theorem Kept.revoked_of_le (h : Kept true tokenID expiry s) (hnow : s.now ≤ expiry) :
    Revoked tokenID s := by
  rcases h with ⟨record, hl, _, hmark⟩ | ⟨_, hpassed⟩
  · exact ⟨record, hl, hmark rfl⟩
  · exact absurd hpassed (not_lt.mpr hnow)

theorem Kept.deleteExpired (h : Kept revoked tokenID expiry s) :
    Kept revoked tokenID expiry
      { s with tokens := (TokenRepository.deleteExpired s.now s.tokens).1 } := by
  unfold Kept
  simp only [lookup_deleteExpired]
  rcases h with ⟨record, hl, rfl, hmark⟩ | ⟨hnone, hpassed⟩
  · rw [hl]
    -- the record is deleted exactly if its expiry has passed
    by_cases hexpired : record.expiresAt < s.now
    · exact .inr ⟨by simp [hexpired], hexpired⟩
    · exact .inl ⟨record, by simp [hexpired], rfl, hmark⟩
  · exact .inr ⟨by rw [hnone]; rfl, hpassed⟩

theorem Kept.lookup_deleted (h : Kept revoked tokenID expiry s) (hpassed : expiry < s.now) :
    (TokenRepository.deleteExpired s.now s.tokens).1.lookup tokenID = none := by
  rw [lookup_deleteExpired]
  rcases h with ⟨record, hl, rfl, _⟩ | ⟨hnone, _⟩
  · simp [hl, hpassed]
  · rw [hnone]
    rfl

theorem step_kept (hc : e.createdID? ≠ some tokenID) (h : Kept revoked tokenID expiry s)
    (hstep : Effect env s e o s') : Kept revoked tokenID expiry s' := by
  cases hstep with
  | deleted => exact h.deleteExpired
  | auth heffect =>
      cases heffect with
      | created =>
          apply h.insert
          rintro rfl
          exact absurd rfl hc
      | revoked hl =>
          apply h.insert
          rintro rfl
          exact ⟨(h.of_lookup hl).1, fun _ => rfl⟩
      | used hl =>
          apply h.insert
          rintro rfl
          obtain ⟨hexpires, hmark⟩ := h.of_lookup hl
          exact ⟨hexpires, hmark⟩
      | tick => exact h.imp_right fun ⟨hnone, hpassed⟩ => ⟨hnone, by simp only; omega⟩
      | _ => exact h

theorem run_kept (h : Run (step env) s tr s') (hc : ∀ x ∈ tr, x.1.createdID? ≠ some tokenID)
    (hs : Kept revoked tokenID expiry s) : Kept revoked tokenID expiry s' :=
  h.invariant (A := fun x => x.1.createdID? ≠ some tokenID)
    (fun _ _ _ _ hx hm hstep => step_kept hx hm (step_effect hstep)) hc hs

theorem Kept.revoke (h : Kept false tokenID expiry s)
    (hstep : Effect env s (.auth (.revokeToken tokenID)) (.auth (.revoked none)) s') :
    Kept true tokenID expiry s' := by
  cases hstep with
  | auth heffect =>
      cases heffect with
      | revoked hl => exact .inl ⟨_, Finmap.lookup_insert _, (h.of_lookup hl).1, fun _ => rfl⟩

end Kept

section Runs

variable {token tokenID : Str} {expiry : ℤ}

theorem step_created (hlaw : env.jwt.Lawful)
    (hstep : Effect env s e (.auth (.created (.ok (token, tokenID, expiry)))) s') :
    e.createdID? = some tokenID ∧ Kept false tokenID expiry s' ∧
      ∃ claims, env.jwt.verify token = some claims ∧ claims.tokenID = tokenID ∧
        claims.expiresAt = some (numericDate expiry) := by
  cases hstep with
  | auth heffect =>
      cases heffect with
      | created hsign hexpires =>
          exact ⟨rfl, .inl ⟨_, Finmap.lookup_insert _, hexpires, nofun⟩, _,
            hlaw.verify_sign hsign, rfl, rfl⟩

theorem step_recorded {id : Str} (hstep : Effect env s e o s') (hid : id ∈ s'.tokens) :
    id ∈ s.tokens ∨ e.createdID? = some id := by
  cases hstep with
  | auth heffect => exact Auth.step_recorded heffect hid
  | deleted =>
      rw [← Finmap.lookup_isSome, lookup_deleteExpired] at hid
      rw [← Finmap.lookup_isSome]
      exact .inl (Option.isSome_of_isSome_filter _ _ hid)

theorem not_created_elsewhere {tr₁ tr₂ : Trace} {x : Event × Output}
    (hids : (createdIDs (tr₁ ++ x :: tr₂)).Nodup) (hx : x.1.createdID? = some tokenID) :
    tokenID ∉ createdIDs tr₁ ∧ ∀ y ∈ tr₂, y.1.createdID? ≠ some tokenID := by
  constructor
  · intro hmem
    exact not_shown_again hids hmem x List.mem_cons_self hx
  · rw [List.append_cons] at hids
    refine not_shown_again hids (List.mem_filterMap.mpr ⟨x, ?_, hx⟩)
    exact List.mem_append_right _ List.mem_cons_self

/-- After a token has been created and revoked, its record is marked, or gone with its expiry
passed. -/
theorem run_revoked {now cacheTTL : ℤ} (hlaw : env.jwt.Lawful)
    (hrun : Run (step env) (State.init now cacheTTL) tr s) (hids : (createdIDs tr).Nodup)
    (hcreated : (e, .auth (.created (.ok (token, tokenID, expiry)))) ∈ tr)
    (hrevoked : (.auth (.revokeToken tokenID), .auth (.revoked none)) ∈ tr) :
    tokenID ∈ createdIDs tr ∧ Kept true tokenID expiry s ∧
      ∃ claims, env.jwt.verify token = some claims ∧ claims.tokenID = tokenID ∧
        claims.expiresAt = some (numericDate expiry) := by
  obtain ⟨tr₁, tr₂, rfl⟩ := List.append_of_mem hcreated
  obtain ⟨m, m', hm, hstep, hrest⟩ := run_append_cons.mp hrun
  obtain ⟨hid, hkept, hclaims⟩ := step_created hlaw (step_effect hstep)
  obtain ⟨hbefore, hafter⟩ := not_created_elsewhere hids hid
  refine ⟨List.mem_filterMap.mpr ⟨_, hcreated, hid⟩, ?_, hclaims⟩
  rcases List.mem_append.mp hrevoked with hearlier | hlater
  · -- a revocation before the creation finds no record
    obtain ⟨tr₃, tr₄, rfl⟩ := List.append_of_mem hearlier
    obtain ⟨n, n', hn, hrevoke, _⟩ := run_append_cons.mp hm
    cases step_effect hrevoke with
    | auth heffect =>
        cases heffect with
        | revoked hl =>
            have hmem : tokenID ∈ createdIDs tr₃ :=
              hn.shown (P := fun m id => id ∈ m.tokens)
                (fun _ _ _ _ _ hstep hid => step_recorded (step_effect hstep) hid)
                (fun _ => Finmap.notMem_empty) (Finmap.mem_of_lookup_eq_some hl)
            rw [createdIDs, List.filterMap_append] at hbefore
            exact absurd (List.mem_append_left _ hmem) hbefore
  · rcases List.mem_cons.mp hlater with heq | hlater
    · cases heq
    · obtain ⟨tr₃, tr₄, rfl⟩ := List.append_of_mem hlater
      obtain ⟨n, n', hn, hrevoke, hrest'⟩ := run_append_cons.mp hrest
      have hn' := run_kept hn (fun x hx => hafter x (List.mem_append_left _ hx)) hkept
      refine run_kept hrest' (fun x hx => hafter x ?_) (hn'.revoke (step_effect hrevoke))
      exact List.mem_append_right _ (List.mem_cons_of_mem _ hx)

end Runs

/-! ## A validation after a revocation -/

inductive CallEffect (env : Env) (s : State) (id : ℕ) (o : Auth.Output) (s' : State) : Prop
  | other (hcalls : s'.calls id = s.calls id) (ho : ∀ t r, o ≠ .returned id t r)
  | parseFailed {t err} (h : s.calls id = some (.lookedUp t)) (hcalls : s'.calls id = none)
      (ho : o = .returned id t (.error err))
  | parsed {t c} (h : s.calls id = some (.lookedUp t)) (hcalls : s'.calls id = some (.parsed t c))
      (hv : validateJwt env.jwt s.now t = .ok c) (ho : o = .continued id)
  | refused {t c err} (h : s.calls id = some (.parsed t c)) (hcalls : s'.calls id = none)
      (hr : TokenRepository.get s.tokens s.now c.tokenID = .error .tokenRevoked)
      (ho : o = .returned id t (.error err))
  | checked {t c} (h : s.calls id = some (.parsed t c)) (hcalls : s'.calls id = some (.checked t c))
      (hr : TokenRepository.get s.tokens s.now c.tokenID ≠ .error .tokenRevoked)
      (ho : o = .continued id)
  | cached {t c} (h : s.calls id = some (.checked t c)) (hcalls : s'.calls id = none)
      (ho : o = .returned id t (.ok c))

section Call

variable {id : ℕ} {token : Str} {claims : Claims} {expiry : ℤ} {s₀ : State}

theorem callEffect {e : Auth.Event} {o : Auth.Output} (h : Auth.Effect env s e o s')
    (hid : id < s.next) : CallEffect env s id o s' := by
  have hkeep : ∀ {i : ℕ} {stage : Option Stage}, i ≠ id →
      Function.update s.calls i stage id = s.calls id := fun hne =>
    Function.update_of_ne hne.symm _ _
  cases h with
  | hit => exact .other rfl fun t r ho => by cases ho; exact lt_irrefl _ hid
  | miss => exact .other (hkeep hid.ne') nofun
  | @parseFailed i t e hc hv =>
      by_cases hi : i = id
      · subst hi
        exact .parseFailed hc (Function.update_self ..) rfl
      · exact .other (hkeep hi) fun t r ho => hi (by cases ho; rfl)
  | @parsed i t c hc hv =>
      by_cases hi : i = id
      · subst hi
        exact .parsed hc (Function.update_self ..) hv rfl
      · exact .other (hkeep hi) nofun
  | @refused i t c hc hr =>
      by_cases hi : i = id
      · subst hi
        exact .refused hc (Function.update_self ..) hr rfl
      · exact .other (hkeep hi) fun t r ho => hi (by cases ho; rfl)
  | @checked i t c hc hr =>
      by_cases hi : i = id
      · subst hi
        exact .checked hc (Function.update_self ..) hr rfl
      · exact .other (hkeep hi) nofun
  | @cached i t c hc =>
      by_cases hi : i = id
      · subst hi
        exact .cached hc (Function.update_self ..) rfl
      · exact .other (hkeep hi) fun t r ho => hi (by cases ho; rfl)
  | _ => exact .other rfl nofun

/-- After the expiry, expired records are deleted while the call `id` has checked the JWT and
has not yet looked the record up. -/
def Overtaken (env : Env) (id : ℕ) (expiry : ℤ) (s : State) (tr : Trace) : Prop :=
  Occurs (step env) (fun m x => x.1 = .deleteExpired ∧ expiry < m.now ∧
    ∃ token claims, m.calls id = some (.parsed token claims)) s tr

/-- How far the validation `id` of a revoked token has come: as long as it has not been overtaken
the record is there for its lookup, afterwards there is none. -/
structure Followed (overtaken : Prop) (id : ℕ) (token : Str) (claims : Claims) (expiry : ℤ)
    (tr : Trace) (m : State) : Prop where
  lt_next : id < m.next
  kept : Kept true claims.tokenID expiry m
  lookedUp : ∀ t, m.calls id = some (.lookedUp t) → t = token ∧ ¬ overtaken
  parsed : ∀ t c, m.calls id = some (.parsed t c) → c = claims ∧
    (Revoked claims.tokenID m ∧ ¬ overtaken ∨
      m.tokens.lookup claims.tokenID = none ∧ overtaken)
  checked : ∀ t c, m.calls id = some (.checked t c) → overtaken
  returned : ∀ e t r, (e, .auth (.returned id t r)) ∈ tr → m.calls id = none ∧
    ((∃ err, r = .error err) ↔ ¬ overtaken)

variable {overtaken : Prop}

theorem Followed.not_returned (h : Followed overtaken id token claims expiry tr s) {stage : Stage}
    (hstage : s.calls id = some stage) (e : Event) (t : Str) (r : Except AuthError Claims) :
    (e, .auth (.returned id t r)) ∉ tr := by
  intro hr
  rw [(h.returned e t r hr).1] at hstage
  cases hstage

theorem returned_snoc {e e' : Event} {o : Auth.Output} {t : Str} {r : Except AuthError Claims}
    (h : (e', .auth (.returned id t r)) ∈ tr ++ [(e, .auth o)]) :
    (e', .auth (.returned id t r)) ∈ tr ∨ o = .returned id t r := by
  obtain h | h := List.mem_append.mp h
  · exact .inl h
  · cases List.mem_singleton.mp h
    exact .inr rfl

/-- A call that returns in this event was running before it. -/
theorem Followed.ends {e : Event} {stage : Stage} {t : Str} {r : Except AuthError Claims}
    (h : Followed overtaken id token claims expiry tr s) (hlt : id < s'.next)
    (hkept : Kept true claims.tokenID expiry s') (hstage : s.calls id = some stage)
    (hcalls : s'.calls id = none) (hiff : (∃ err, r = .error err) ↔ ¬ overtaken) :
    Followed overtaken id token claims expiry (tr ++ [(e, .auth (.returned id t r))]) s' := by
  refine ⟨hlt, hkept, by simp [hcalls], by simp [hcalls], by simp [hcalls], ?_⟩
  intro e' t' r' hr
  obtain hr | hr := returned_snoc hr
  · exact absurd hr (h.not_returned hstage e' t' r')
  · cases hr
    exact ⟨hcalls, hiff⟩

theorem Followed.not_returned_snoc {e : Event} {stage : Stage}
    (h : Followed overtaken id token claims expiry tr s) (hstage : s.calls id = some stage)
    (e' : Event) (t : Str) (r : Except AuthError Claims) :
    (e', .auth (.returned id t r)) ∉ tr ++ [(e, .auth (.continued id))] := by
  intro hr
  obtain hr | hr := returned_snoc hr
  · exact h.not_returned hstage e' t r hr
  · cases hr

theorem lookup_none_of_effect {e : Auth.Event} {o : Auth.Output} {tokenID : Str}
    (heffect : Auth.Effect env s e o s') (he : e.createdID? ≠ some tokenID)
    (h : s.tokens.lookup tokenID = none) : s'.tokens.lookup tokenID = none := by
  rw [Finmap.lookup_eq_none] at h ⊢
  intro hmem
  obtain hmem | hcreated := Auth.step_recorded heffect hmem
  · exact h hmem
  · exact he hcreated

theorem Followed.auth {e : Auth.Event} {o : Auth.Output}
    (hverify : env.jwt.verify token = some claims)
    (hexp : claims.expiresAt = some (numericDate expiry))
    (h : Followed overtaken id token claims expiry tr s)
    (he : e.createdID? ≠ some claims.tokenID) (heffect : Auth.Effect env s e o s') :
    Followed overtaken id token claims expiry (tr ++ [(.auth e, .auth o)]) s' := by
  have hlt := h.lt_next.trans_le (step_next_le heffect)
  have hkept := step_kept (e := .auth e) he h.kept (.auth heffect)
  have hrevoked : Revoked claims.tokenID s → Revoked claims.tokenID s' :=
    step_revoked heffect he
  cases callEffect heffect h.lt_next with
  | other hcalls ho =>
      refine ⟨hlt, hkept, hcalls ▸ h.lookedUp, ?_, hcalls ▸ h.checked, ?_⟩
      · intro t c hc
        obtain ⟨hclaims, hfound⟩ := h.parsed t c (hcalls ▸ hc)
        exact ⟨hclaims, hfound.imp (And.imp_left hrevoked)
          (And.imp_left (lookup_none_of_effect heffect he))⟩
      · intro e' t r hr
        obtain hr | hr := returned_snoc hr
        · exact hcalls ▸ h.returned e' t r hr
        · exact absurd hr (ho t r)
  | parseFailed hc hcalls ho =>
      subst ho
      exact h.ends hlt hkept hc hcalls (by simpa using (h.lookedUp _ hc).2)
  | @parsed t c hc hcalls hv ho =>
      subst ho
      obtain ⟨rfl, hnot⟩ := h.lookedUp _ hc
      obtain ⟨hverify', hvalid⟩ := validateJwt_eq_ok hv
      obtain rfl : claims = c := Option.some.inj (hverify.symm.trans hverify')
      have hnow : s.now ≤ expiry := (hvalid _ hexp).le.trans (numericDate_mul_le expiry)
      refine ⟨hlt, hkept, by simp [hcalls], ?_, by simp [hcalls],
        fun e' t' r' hr => absurd hr (h.not_returned_snoc hc e' t' r')⟩
      intro t' c' hc'
      rw [hcalls] at hc'
      cases hc'
      exact ⟨rfl, .inl ⟨hrevoked (h.kept.revoked_of_le hnow), hnot⟩⟩
  | refused hc hcalls hr ho =>
      subst ho
      obtain ⟨rfl, ⟨_, hnot⟩ | ⟨hnone, _⟩⟩ := h.parsed _ _ hc
      · exact h.ends hlt hkept hc hcalls (by simpa using hnot)
      · simp [TokenRepository.get, hnone] at hr
  | checked hc hcalls hr ho =>
      subst ho
      obtain ⟨rfl, ⟨hmark, _⟩ | ⟨_, hover⟩⟩ := h.parsed _ _ hc
      · exact absurd (get_of_revoked hmark _) hr
      · exact ⟨hlt, hkept, by simp [hcalls], by simp [hcalls], fun _ _ _ => hover,
          fun e' t' r' hr => absurd hr (h.not_returned_snoc hc e' t' r')⟩
  | cached hc hcalls ho =>
      subst ho
      exact h.ends hlt hkept hc hcalls (by simpa using h.checked _ _ hc)

theorem Followed.deleted {count : ℕ} (h : Followed overtaken id token claims expiry tr s) :
    Followed (overtaken ∨ expiry < s.now ∧ ∃ t c, s.calls id = some (.parsed t c)) id token claims
      expiry (tr ++ [(.deleteExpired, .deleted count)])
      { s with tokens := (TokenRepository.deleteExpired s.now s.tokens).1 } := by
  have hother : (¬ ∃ t c, s.calls id = some (.parsed t c)) →
      ((overtaken ∨ expiry < s.now ∧ ∃ t c, s.calls id = some (.parsed t c)) ↔ overtaken) :=
    fun hno => or_iff_left fun hp => hno hp.2
  refine ⟨h.lt_next, h.kept.deleteExpired, ?_, ?_, fun t c hc => .inl (h.checked t c hc), ?_⟩
  · intro t hc
    rw [hother (by simp [show s.calls id = _ from hc])]
    exact h.lookedUp t hc
  · intro t c hc
    obtain ⟨hclaims, hfound⟩ := h.parsed t c hc
    refine ⟨hclaims, ?_⟩
    by_cases hpassed : expiry < s.now
    · exact .inr ⟨h.kept.lookup_deleted hpassed, .inr ⟨hpassed, t, c, hc⟩⟩
    · have hsame : (overtaken ∨ expiry < s.now ∧ ∃ t c, s.calls id = some (.parsed t c)) ↔
          overtaken := or_iff_left fun hp => hpassed hp.1
      rw [hsame]
      refine hfound.imp (And.imp_left fun _ => ?_) (And.imp_left fun hnone => ?_)
      · exact h.kept.deleteExpired.revoked_of_le (not_lt.mp hpassed)
      · rw [lookup_deleteExpired, hnone]
        rfl
  · intro e t r hr
    have hr : (e, .auth (.returned id t r)) ∈ tr := by
      obtain hr | hr := List.mem_append.mp hr
      · exact hr
      · cases List.mem_singleton.mp hr
    obtain ⟨hcalls, hiff⟩ := h.returned e t r hr
    rw [hother (by simp [hcalls])]
    exact ⟨hcalls, hiff⟩

theorem overtaken_nil : Overtaken env id expiry s [] ↔ False := by
  refine iff_false_intro ?_
  rintro ⟨tr₁, x, tr₂, _, htr, _⟩
  simp at htr

theorem run_followed {m : State} (hverify : env.jwt.verify token = some claims)
    (hexp : claims.expiresAt = some (numericDate expiry))
    (hs : Followed False id token claims expiry [] s)
    (hc : ∀ x ∈ tr, x.1.createdID? ≠ some claims.tokenID) (hrun : Run (step env) s tr m) :
    Followed (Overtaken env id expiry s tr) id token claims expiry tr m := by
  refine hrun.snocInduction (I := fun tr m => (∀ x ∈ tr, x.1.createdID? ≠ some claims.tokenID) →
    Followed (Overtaken env id expiry s tr) id token claims expiry tr m) ?_ ?_ hc
  · intro _
    rwa [overtaken_nil]
  · intro tr m e o m' hm ih hstep hc
    obtain ⟨htr, hlast⟩ := List.forall_mem_append.mp hc
    have he := hlast _ (List.mem_singleton_self _)
    rw [Overtaken, occurs_snoc hm]
    cases step_effect hstep with
    | auth heffect =>
        rw [or_iff_left fun hx => nomatch hx.1]
        exact (ih htr).auth hverify hexp he heffect
    | deleted =>
        simp only [true_and]
        exact (ih htr).deleted

/-- The validation of `token` that the first event of `tr` starts at `s` returns `r`. -/
def Answers (env : Env) (s : State) (token : Str) (tr : Trace) (r : Except AuthError Claims) :
    Prop :=
  ∃ (o : Output) (tr' : Trace) (s' : State) (e : Event),
    tr = (.auth (.validateToken token), o) :: tr' ∧ Run (step env) s tr s' ∧
      (e, .auth (.returned s.next token r)) ∈ tr

/-- After a token has been created and revoked, a validation that misses the cache refuses it,
wherever its steps fall, exactly when no deletion of expired records that comes after the
expiry falls between its check of the JWT and its lookup. The identifiers drawn for tokens are
assumed distinct. -/
theorem revoked_refused_iff {now cacheTTL : ℤ} {tokenID : Str} {tr' : Trace}
    {r : Except AuthError Claims} (hlaw : env.jwt.Lawful)
    (hrun : Run (step env) (State.init now cacheTTL) tr s)
    (hcreated : (e, .auth (.created (.ok (token, tokenID, expiry)))) ∈ tr)
    (hrevoked : (.auth (.revokeToken tokenID), .auth (.revoked none)) ∈ tr)
    (hmiss : s.tokenCache.live s.now token = none) (hids : (createdIDs (tr ++ tr')).Nodup)
    (hanswers : Answers env s token tr' r) :
    (∃ err, r = .error err) ↔ ¬ Overtaken env s.next expiry s tr' := by
  have hids₁ : (createdIDs tr).Nodup := by
    rw [createdIDs, List.filterMap_append] at hids
    exact hids.of_append_left
  obtain ⟨hmem, hkept, claims, hverify, rfl, hexp⟩ := run_revoked hlaw hrun hids₁ hcreated hrevoked
  have hagain := not_shown_again hids hmem
  have hfresh : FreshCalls s := by
    refine hrun.preserves (I := FreshCalls) ?_ fun _ _ => rfl
    intro m e o m' hm hstep
    cases step_effect hstep with
    | auth heffect => exact step_freshCalls heffect hm
    | deleted => exact hm
  obtain ⟨o, tr₁, s', e', rfl, ⟨s₁, hstart, hrest⟩, hret⟩ := hanswers
  rw [step, step_miss hmiss] at hstart
  cases hstart
  have hcalls : (s.missed token).calls s.next = some (.lookedUp token) := Function.update_self ..
  have hfollowed : Followed False s.next token claims expiry [] (s.missed token) := by
    refine ⟨Nat.lt_succ_self _, hkept, ?_, by simp [hcalls], by simp [hcalls], by simp⟩
    intro t ht
    rw [hcalls] at ht
    cases ht
    exact ⟨rfl, not_false⟩
  have hlater := run_followed hverify hexp hfollowed
    (fun x hx => hagain x (List.mem_cons_of_mem _ hx)) hrest
  have hsame : Overtaken env s.next expiry s ((.auth (.validateToken token),
      .auth (.continued s.next)) :: tr₁) ↔ Overtaken env s.next expiry (s.missed token) tr₁ := by
    rw [Overtaken, occurs_cons (m := s.missed token) (by simp [step, step_miss hmiss])]
    exact or_iff_right fun hx => nomatch hx.1
  rw [hsame]
  obtain hret | hret := List.mem_cons.mp hret
  · cases hret
  · exact (hlater.returned _ _ _ hret).2

end Call

def revokedTrace : Trace :=
  [(.auth (.createToken "alice".toList [] 0 ∅ "id".toList 0),
      .auth (.created (.ok ("token".toList, "id".toList, 3600 * 10 ^ 9)))),
    (.auth (.revokeToken "id".toList), .auth (.revoked none))]

/-- The record is deleted after the hour, and a validation after that finds the JWT expired. -/
theorem revoked_refused_deleted : ∃ (s : State) (tr' : Trace) (r : Except AuthError Claims),
    Run (step aliceEnv) (State.init 0 300000000000) (revokedTrace ++
      [(.auth (.tick (3601 * 10 ^ 9)), .auth .done), (.deleteExpired, .deleted 1)]) s ∧
    s.tokens.lookup "id".toList = none ∧ Answers aliceEnv s "token".toList tr' r ∧
    ∃ err, r = .error err := by
  have h : ∃ (s s' : State) (r : Except AuthError Claims),
      Run (step aliceEnv) (State.init 0 300000000000) (revokedTrace ++
        [(.auth (.tick (3601 * 10 ^ 9)), .auth .done), (.deleteExpired, .deleted 1)]) s ∧
      s.tokens.lookup "id".toList = none ∧ s.next = 0 ∧
      s.tokenCache.live s.now "token".toList = none ∧
      Run (step aliceEnv) s [(.auth (.validateToken "token".toList), .auth (.continued 0)),
        (.auth (.parse 0), .auth (.returned 0 "token".toList r))] s' :=
    ⟨_, _, _, ⟨_, rfl, _, rfl, _, rfl, _, rfl, rfl⟩, rfl, rfl, rfl, ⟨_, rfl, _, rfl, rfl⟩⟩
  obtain ⟨s, s', r, hrun, hgone, hnext, hmiss, hvalidation⟩ := h
  have hanswers : Answers aliceEnv s "token".toList _ r :=
    ⟨_, _, s', .auth (.parse 0), rfl, hvalidation, by simp [hnext]⟩
  have hids : (createdIDs ((revokedTrace ++ [(.auth (.tick (3601 * 10 ^ 9)), .auth .done),
      (.deleteExpired, .deleted 1)]) ++ [(.auth (.validateToken "token".toList),
      .auth (.continued 0)), (.auth (.parse 0), .auth (.returned 0 "token".toList r))])).Nodup :=
    List.nodup_singleton "id".toList
  refine ⟨s, _, r, hrun, hgone, hanswers, (revoked_refused_iff
    (singleJwt_lawful aliceClaims "token".toList) hrun List.mem_cons_self
    (List.mem_cons_of_mem _ List.mem_cons_self) hmiss hids hanswers).mpr ?_⟩
  rintro ⟨tr₁, x, tr₂, m, htr, -, hx, -⟩
  have hmem : x ∈ tr₁ ++ x :: tr₂ := List.mem_append_right _ List.mem_cons_self
  rw [← htr] at hmem
  simp only [List.mem_cons, List.not_mem_nil, or_false] at hmem
  rcases hmem with rfl | rfl <;> cases hx

/-- The JWT is checked a second before the hour ends, and the record looked up a second after
it, with a deletion in between. -/
def acceptedTrace : Trace :=
  [(.auth (.validateToken "token".toList), .auth (.continued 0)),
    (.auth (.tick (3599 * 10 ^ 9)), .auth .done), (.auth (.parse 0), .auth (.continued 0)),
    (.auth (.tick (2 * 10 ^ 9)), .auth .done), (.deleteExpired, .deleted 1),
    (.auth (.checkRevoked 0), .auth (.continued 0)),
    (.auth (.cacheClaims 0), .auth (.returned 0 "token".toList (.ok aliceClaims)))]

theorem revoked_accepted_after_deletion : ∃ s : State,
    aliceEnv.jwt.Lawful ∧ Run (step aliceEnv) (State.init 0 300000000000) revokedTrace s ∧
    s.tokenCache.live s.now "token".toList = none ∧
    (createdIDs (revokedTrace ++ acceptedTrace)).Nodup ∧
    Answers aliceEnv s "token".toList acceptedTrace (.ok aliceClaims) := by
  have h : ∃ s s' : State, Run (step aliceEnv) (State.init 0 300000000000) revokedTrace s ∧
      s.next = 0 ∧ s.tokenCache.live s.now "token".toList = none ∧
      Run (step aliceEnv) s acceptedTrace s' :=
    ⟨_, _, ⟨_, rfl, _, rfl, rfl⟩, rfl, rfl,
      ⟨_, rfl, _, rfl, _, rfl, _, rfl, _, rfl, _, rfl, _, rfl, rfl⟩⟩
  obtain ⟨s, s', hrun, hnext, hmiss, hvalidation⟩ := h
  refine ⟨s, singleJwt_lawful _ _, hrun, hmiss, List.nodup_singleton "id".toList, _, _, s',
    .auth (.cacheClaims 0), rfl, hvalidation, ?_⟩
  simp [hnext, acceptedTrace]

end GrpcVault.TokenCalls
