import GrpcVault.LockPointers

/-!
# What the calls of the lock service answer

Each rule says how a part of an endpoint ends while the others do their operations: a call of the
service, a read through a pointer, the loop of `GetKeyVersions`. The endpoints whose answer is not
that of one operation have a lemma each (`ends_getKey`, `ends_getEncryptionKey`,
`ends_getKeyVersions`, `ends_unsealVault`, `ends_sealVault`).
-/

namespace GrpcVault.LockRpc

open GoText EventSystem Calls Memory

variable {t t' : Moment} {out : Option Answer} {name : Str}

theorem ends_service {β γ : Type} {op : Input → LockOp} {result : LockReply → Option β}
    {g : LockService → Input → β} {f : β → Handler γ} {out : Option γ}
    (h : Ends Memory.step (Handler.service op result >>= f) t out t')
    (hresult : ∀ s input, ∃ s' r, s.step (op input) = some (s', r) ∧ result r = some (g s input)) :
    ∃ t₁ input t₂ r, Reaches Memory.step t t₁ ∧
      Acts Memory.step t₁ (.service (op input)) (.service r) t₂ ∧
      result r = some (g t₁.state.service input) ∧
      Ends Memory.step (f (g t₁.state.service input)) t₂ out t' := by
  obtain ⟨t₁, input, ht₁, hop⟩ := h
  obtain ⟨s', r, hs, hr⟩ := hresult t₁.state.service input
  have hstep : Memory.step t₁.state (.service (op input)) =
      some (⟨s', t₁.state.droppedBy (op input) r⟩, .service r) := by
    rw [Memory.step, hs]
    rfl
  obtain ⟨t₂, o, hacts, hrest⟩ | ⟨hnone, _⟩ := hop
  · obtain rfl := (Prod.mk.inj (Option.some.inj (hstep.symm.trans hacts.step))).2
    dsimp only at hrest
    rw [hr] at hrest
    exact ⟨t₁, input, t₂, r, ht₁, hacts, hr, hrest⟩
  · cases hstep.symm.trans hnone

theorem ends_query {β γ : Type} {op : LockOp} {result : LockReply → Option β}
    {g : LockService → β} {f : β → Handler γ} {out : Option γ}
    (h : Ends Memory.step (Handler.service (fun _ => op) result >>= f) t out t')
    (hresult : ∀ s, ∃ r, s.step op = some (s, r) ∧ result r = some (g s)) (hop : op ≠ .sealVault) :
    ∃ t₁, Reaches Memory.step t t₁ ∧ Ends Memory.step (f (g t₁.state.service)) t₁ out t' := by
  obtain ⟨t₁, input, t₂, r, ht₁, hacts, _, hrest⟩ :=
    ends_service (g := fun s _ => g s) h fun s _ => ⟨s, hresult s⟩
  refine ⟨t₁, ht₁, hrest.of_reaches (.acts hacts ?_)⟩
  obtain ⟨r', hs, _⟩ := hresult t₁.state.service
  have hstep := hacts.step
  rw [Memory.step, hs] at hstep
  rw [← (Prod.mk.inj (Option.some.inj hstep)).1, droppedBy_of_ne hop]

theorem ends_read {γ : Type} {op : Input → MemOp} {k : MemReply → Handler γ} {out : Option γ}
    {o : Memory → Input → MemReply} (h : Ends Memory.step (.op op k) t out t')
    (hread : ∀ t₁ input, Reaches Memory.step t t₁ →
      Memory.step t₁.state (op input) = some (t₁.state, o t₁.state input)) :
    ∃ t₁ input, Reaches Memory.step t t₁ ∧ Ends Memory.step (k (o t₁.state input)) t₁ out t' := by
  obtain ⟨t₁, input, ht₁, ⟨t₂, o', hacts, hrest⟩ | ⟨hnone, _⟩⟩ := h
  · have heq := (hread t₁ input ht₁).symm.trans hacts.step
    obtain ⟨hsame, rfl⟩ := Prod.mk.inj (Option.some.inj heq)
    exact ⟨t₁, input, ht₁, hrest.of_reaches (.acts hacts hsame.symm)⟩
  · cases (hread t₁ input ht₁).symm.trans hnone

theorem ends_readPolicy {γ : Type} {f : KeyPolicy → Handler γ} {out : Option γ} {p : KeyPolicy}
    (hv : t.state.Valid) (hp : t.state.policy name = some p)
    (h : Ends Memory.step (Handler.readPolicy name >>= f) t out t') :
    ∃ t₁ p₁, Reaches Memory.step t t₁ ∧ t₁.state.policy name = some p₁ ∧
      p.latestVersion ≤ p₁.latestVersion ∧ Ends Memory.step (f p₁) t₁ out t' := by
  obtain ⟨t₁, _, ht₁, hrest⟩ := ends_read (o := fun m _ => .policy ((m.policy name).getD p)) h (by
    intro t₁ _ ht₁
    obtain ⟨p₁, hp₁, _⟩ := policy_of_reaches hv ht₁ hp
    rw [Memory.step, hp₁]
    rfl)
  obtain ⟨p₁, hp₁, hle, _⟩ := policy_of_reaches hv ht₁ hp
  rw [hp₁] at hrest
  exact ⟨t₁, p₁, ht₁, hp₁, hle, hrest⟩

theorem ends_unixNow {γ : Type} {f : ℤ → Handler γ} {out : Option γ}
    (h : Ends Memory.step (Handler.unixNow >>= f) t out t') :
    ∃ t₁ now, Reaches Memory.step t t₁ ∧ Ends Memory.step (f now) t₁ out t' := by
  obtain ⟨t₁, input, ht₁, hrest⟩ :=
    ends_read (o := fun _ input => .clock input.now) h fun _ _ _ => rfl
  exact ⟨t₁, _, ht₁, hrest⟩

theorem policy_of_getKey {m : Memory} {p : KeyPolicy} (hv : m.Valid)
    (h : m.service.getKey name = .ok p) : m.policy name = some p ∧ 1 ≤ p.latestVersion := by
  rw [LockService.getKey] at h
  split at h
  · cases h
  · rw [Keyring.getKey] at h
    split at h
    · cases h
    · rename_i hopen
      cases hp : m.service.keyring.policies.lookup name <;> rw [hp] at h <;> cases h
      rw [hv.policy_of_open (by simpa using hopen)]
      exact ⟨hp, (hv.service.wellFormed.numbered hp).2⟩

/-- The loop of `GetKeyVersions` fills the slots that are left with the versions that follow, and
fails if there are more versions than slots. -/
theorem ends_fillVersions {f : List (Option KeyVersion) → Handler Answer} {slots : ℕ}
    {filled : List KeyVersion} {p : KeyPolicy} (hv : t.state.Valid)
    (hp : t.state.policy name = some p)
    (hle : (filled.length : ℤ) + slots ≤ p.latestVersion)
    (h : Ends Memory.step (fillVersions name slots filled >>= f) t out t') :
    ∃ t₁ p₁, Reaches Memory.step t t₁ ∧ t₁.state.policy name = some p₁ ∧
      ((p₁.latestVersion = (filled.length : ℤ) + slots ∧ ∃ versions,
        versions.map KeyVersion.version =
          (List.range' (filled.length + 1) slots).map (fun i : ℕ => int32 i) ∧
        Ends Memory.step (f ((filled ++ versions).map some)) t₁ out t') ∨
      ((filled.length : ℤ) + slots < p₁.latestVersion ∧ out = none ∧
        Reaches Memory.step t₁ t')) := by
  induction slots generalizing t filled p with
  | zero =>
      rw [fillVersions, Proc.bind_assoc] at h
      obtain ⟨t₁, p₁, ht₁, hp₁, hle₁, h⟩ := ends_readPolicy hv hp h
      refine ⟨t₁, p₁, ht₁, hp₁, ?_⟩
      split at h
      · exact .inr ⟨by omega, h⟩
      · refine .inl ⟨by omega, [], rfl, ?_⟩
        rw [List.append_nil]
        exact h
  | succ slots ih =>
      rw [fillVersions, Proc.bind_assoc] at h
      obtain ⟨t₁, p₁, ht₁, hp₁, hle₁, h⟩ := ends_readPolicy hv hp h
      have hv₁ := hv.reaches ht₁
      rw [if_pos (by omega), Proc.bind_assoc] at h
      obtain ⟨t₂, createdAt, ht₂, h⟩ := ends_unixNow h
      obtain ⟨p₂, hp₂, hle₂, _⟩ := policy_of_reaches hv₁ ht₂ hp₁
      obtain ⟨t₃, p₃, ht₃, hp₃, hcases⟩ := ih (hv₁.reaches ht₂) hp₂ (by simp; omega) h
      refine ⟨t₃, p₃, (ht₁.trans ht₂).trans ht₃, hp₃, ?_⟩
      rw [List.length_append, List.length_singleton] at hcases
      obtain ⟨heq, versions, hversions, h⟩ | ⟨hlt, h⟩ := hcases
      · refine .inl ⟨by push_cast at heq ⊢; omega,
          ⟨int32 (filled.length + 1), createdAt⟩ :: versions, ?_, ?_⟩
        · rw [List.map_cons, hversions, List.range'_succ, List.map_cons, Nat.cast_add, Nat.cast_one]
        · rw [List.append_assoc] at h
          exact h
      · exact .inr ⟨by push_cast at hlt ⊢; omega, h⟩

/-- `GetKeyVersions` counts the versions at one moment and lists as many. If the key has been
rotated before it is through, it fails. -/
theorem ends_getKeyVersions (hv : t.state.Valid)
    (h : Ends Memory.step (getKeyVersions name) t out t') :
    (∃ err, out = some (.error (keyError err))) ∨
      ∃ t₁ t₂ p₁ p₂, Reaches Memory.step t t₁ ∧ Reaches Memory.step t₁ t₂ ∧
        Reaches Memory.step t₂ t' ∧
        t₁.state.policy name = some p₁ ∧ t₂.state.policy name = some p₂ ∧
        ((p₂.latestVersion = p₁.latestVersion ∧ ∃ versions : List KeyVersion,
          out = some (.ok (.getKeyVersions (versions.map some))) ∧
          versions.map KeyVersion.version =
            (List.range' 1 p₁.latestVersion.toNat).map (fun i : ℕ => int32 i)) ∨
        (p₁.latestVersion < p₂.latestVersion ∧ out = none)) := by
  obtain ⟨t₀, ht₀, h⟩ :=
    ends_query (g := fun s => s.getKey name) h (fun _ => ⟨_, rfl, rfl⟩) nofun
  cases hp : t₀.state.service.getKey name with
  | error err =>
      rw [hp] at h
      exact .inl ⟨err, h.1⟩
  | ok p =>
      rw [hp] at h
      have hv₀ := hv.reaches ht₀
      obtain ⟨hpolicy, hpos⟩ := policy_of_getKey hv₀ hp
      obtain ⟨t₁, p₁, ht₁, hp₁, hle, h⟩ := ends_readPolicy hv₀ hpolicy h
      rw [if_neg (by omega)] at h
      obtain ⟨t₂, p₂, ht₂, hp₂, hcases⟩ :=
        ends_fillVersions (hv₀.reaches ht₁) hp₁ (by simp; omega) h
      rw [List.length_nil, Int.natCast_zero, zero_add, Int.toNat_of_nonneg (by omega)] at hcases
      obtain ⟨heq, versions, hversions, h⟩ | ⟨hlt, hnone, h⟩ := hcases
      · exact .inr ⟨t₁, t₂, p₁, p₂, ht₀.trans ht₁, ht₂, h.2, hp₁, hp₂,
          .inl ⟨heq, versions, h.1, hversions⟩⟩
      · exact .inr ⟨t₁, t₂, p₁, p₂, ht₀.trans ht₁, ht₂, h, hp₁, hp₂, .inr ⟨hlt, hnone⟩⟩

theorem unsealVault_result {s s' : LockService} {key : Str} {unsealed : Bool} {progress : ℤ}
    {err : Option LockError} (h : s.unsealVault key = some (s', (unsealed, progress, err))) :
    (err = none ∧ s'.initialized = true ∧ unsealed = !s'.sealed ∧
      progress = if s'.sealed then (s'.unsealKeys.length : ℤ) else s'.threshold) ∨
    (err ≠ none ∧ s'.sealed = s.sealed) := by
  rw [LockService.unsealVault] at h
  split at h
  · cases h
    exact .inr ⟨nofun, rfl⟩
  · rename_i hi
    have hi : s.initialized = true := by simpa using hi
    split at h
    · rename_i hs
      have hs : s.sealed = false := by simpa using hs
      cases h
      exact .inl ⟨rfl, hi, by rw [hs]; rfl, by rw [hs]; rfl⟩
    · rename_i hs
      have hs : s.sealed = true := by simpa using hs
      split at h
      · cases h
        exact .inr ⟨nofun, rfl⟩
      · dsimp only at h
        split at h
        · obtain ⟨_, rfl, heq⟩ | ⟨_, rfl, heq⟩ := LockService.reconstruct_cases h
          · cases heq
            exact .inl ⟨rfl, hi, rfl, rfl⟩
          · cases heq
            exact .inr ⟨nofun, rfl⟩
        · cases h
          exact .inl ⟨rfl, hi, by rw [hs]; rfl, by rw [if_pos hs]⟩

theorem initialized_of_step {s s' : LockService} {op : LockOp} {r : LockReply}
    (h : s.step op = some (s', r)) (hi : s.initialized = true) :
    s'.initialized = true ∧ s'.threshold = s.threshold := by
  cases LockService.step_effect h with
  | initialized hi' => cases hi'.symm.trans hi
  | keep | ignored | share | refuse | unsealed | sealed | putSecret | deleteSecret | createKey
  | rotateKey => exact ⟨hi, rfl⟩

theorem initialized_of_reaches (h : Reaches Memory.step t t')
    (hi : t.state.service.initialized = true) :
    t'.state.service.initialized = true ∧
      t'.state.service.threshold = t.state.service.threshold := by
  refine h.invariant (I := fun m => m.service.initialized = true ∧
    m.service.threshold = t.state.service.threshold) ?_ ⟨hi, rfl⟩
  rintro m₁ op r m₂ _ ⟨hi₁, ht₁⟩ hs
  obtain rfl | ⟨op', r', rfl, rfl, hs, _⟩ := step_cases hs
  · exact ⟨hi₁, ht₁⟩
  · obtain ⟨hi₂, ht₂⟩ := initialized_of_step hs hi₁
    exact ⟨hi₂, ht₂.trans ht₁⟩

/-- The state of an initialized vault, with the progress that `Unseal` reports: the shares in hand,
or the whole threshold once the vault is open. -/
def statusAfter (s : LockService) : SealStatus :=
  ⟨s.sealed, true, int32 s.threshold,
    int32 (if s.sealed then s.unsealKeys.length else s.threshold)⟩

theorem ends_unsealVault {key : Str} {status : SealStatus}
    (h : Ends Memory.step (unsealVault key) t (some (.ok (.sealStatus status))) t') :
    ∃ t₁ t₂ r, Reaches Memory.step t t₁ ∧
      Acts Memory.step t₁ (.service (.unsealVault key)) r t₂ ∧ Reaches Memory.step t₂ t' ∧
      status = statusAfter t₂.state.service := by
  obtain ⟨t₁, _, ht₁, ⟨t₂, o, hacts, hrest⟩ | ⟨_, hout, _⟩⟩ := h
  · refine ⟨t₁, t₂, o, ht₁, hacts, ?_⟩
    obtain ⟨r, rfl, hs, _⟩ := step_service hacts.step
    obtain ⟨⟨s', unsealed, progress, err⟩, hunseal, heq⟩ := Option.map_eq_some_iff.mp hs
    obtain ⟨rfl, rfl⟩ := Prod.mk.inj heq
    cases err with
    | some err => cases err <;> cases hrest.1
    | none =>
        obtain ⟨_, hi₂, rfl, rfl⟩ | ⟨hne, _⟩ := unsealVault_result hunseal
        swap
        · exact absurd rfl hne
        obtain ⟨t₃, ht₃, hrest⟩ :=
          ends_query (g := fun s => s.getSealStatus) hrest (fun _ => ⟨_, rfl, rfl⟩) nofun
        obtain ⟨hi₃, hthreshold⟩ := initialized_of_reaches ht₃ hi₂
        refine ⟨ht₃.trans hrest.2, ?_⟩
        cases hrest.1
        rw [Bool.not_not, hi₃, hthreshold, statusAfter]
  · cases hout

end GrpcVault.LockRpc
