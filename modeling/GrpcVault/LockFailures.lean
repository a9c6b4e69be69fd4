import GrpcVault.LockCalls

/-!
# How the calls of the lock service fail

A call can end the process in three ways (`crash_cases`). A call other than `Unseal` that answers
with an error has changed nothing (`unchanged_of_error`).
-/

namespace GrpcVault.LockRpc

open GoText EventSystem Calls Memory

variable {t t' : Moment} {name : Str}

/-- An endpoint that returns an error only after an operation which has failed and changed
nothing. -/
theorem unchanged_of_service {β : Type} (Failed : β → Prop) {op : Input → LockOp}
    {result : LockReply → Option β} {f : β → Handler Answer} {status : Status}
    (h : Ends Memory.step (Handler.service op result >>= f) t (some (.error status)) t')
    (hf : ∀ b t₂, Ends Memory.step (f b) t₂ (some (.error status)) t' →
      Failed b ∧ Reaches Memory.step t₂ t')
    (hkeep : ∀ m₁ input m₂ r b, Memory.step m₁ (.service (op input)) = some (m₂, .service r) →
      result r = some b → Failed b → m₂ = m₁) :
    Reaches Memory.step t t' := by
  obtain ⟨t₁, input, ht₁, ⟨t₂, o, hacts, hrest⟩ | ⟨_, hout, _⟩⟩ := h
  · obtain ⟨r, rfl, _⟩ := step_service hacts.step
    dsimp only at hrest
    cases hr : result r with
    | none =>
        rw [hr] at hrest
        cases hrest.1
    | some b =>
        rw [hr] at hrest
        obtain ⟨hfailed, ht'⟩ := hf b t₂ hrest
        exact (ht₁.trans (.acts hacts (hkeep _ _ _ _ _ hacts.step hr hfailed))).trans ht'
  · cases hout

theorem eq_of_service {op : LockOp} {m₁ m₂ : Memory} {r : LockReply}
    (hstep : Memory.step m₁ (.service op) = some (m₂, .service r)) (hop : op ≠ .sealVault)
    (hkeep : ∀ s', m₁.service.step op = some (s', r) → s' = m₁.service) : m₂ = m₁ := by
  obtain ⟨r', heq, hs, hdropped⟩ := step_service hstep
  cases heq
  obtain ⟨service, dropped⟩ := m₂
  dsimp only at hs hdropped
  rw [hdropped, droppedBy_of_ne hop, hkeep service hs]

theorem unchanged_of_except {β : Type} {op : Input → LockOp}
    {result : LockReply → Option (Except LockError β)} {f : Except LockError β → Handler Answer}
    {status : Status}
    (h : Ends Memory.step (Handler.service op result >>= f) t (some (.error status)) t')
    (hok : ∀ b t₂, ¬ Ends Memory.step (f (.ok b)) t₂ (some (.error status)) t')
    (herror : ∀ err t₂, Ends Memory.step (f (.error err)) t₂ (some (.error status)) t' →
      Reaches Memory.step t₂ t')
    (hkeep : ∀ (s : LockService) input s' r err, s.step (op input) = some (s', r) →
      result r = some (.error err) → s' = s) (hop : ∀ input, op input ≠ .sealVault) :
    Reaches Memory.step t t' := by
  refine unchanged_of_service (fun b => ∃ err, b = .error err) h ?_ ?_
  · rintro (err | b) t₂ h
    · exact ⟨⟨err, rfl⟩, herror err t₂ h⟩
    · exact absurd h (hok b t₂)
  · rintro m₁ input m₂ r _ hstep hr ⟨err, rfl⟩
    exact eq_of_service hstep (hop input) fun s' hs => hkeep _ _ _ _ _ hs hr

section Unchanged

variable {status : Status}

theorem not_error_of_ok {response : Response} (t : Moment) :
    ¬ Ends Memory.step (pure (.ok response) : Handler Answer) t (some (.error status)) t' :=
  fun h => by cases h.1

theorem unchanged_of_query {β : Type} {op : LockOp}
    {result : LockReply → Option (Except LockError β)} {f : Except LockError β → Handler Answer}
    (h : Ends Memory.step (Handler.service (fun _ => op) result >>= f) t
      (some (.error status)) t')
    (hok : ∀ b t₂, ¬ Ends Memory.step (f (.ok b)) t₂ (some (.error status)) t')
    (herror : ∀ err t₂, Ends Memory.step (f (.error err)) t₂ (some (.error status)) t' →
      Reaches Memory.step t₂ t')
    (hread : ∀ s : LockService, ∃ r, s.step op = some (s, r)) (hop : op ≠ .sealVault) :
    Reaches Memory.step t t' := by
  refine unchanged_of_except h hok herror (fun s _ s' r err hs _ => ?_) fun _ => hop
  obtain ⟨_, hs'⟩ := hread s
  cases hs.symm.trans hs'
  rfl

theorem unchanged_sealVault (h : Ends Memory.step sealVault t (some (.error status)) t') :
    Reaches Memory.step t t' := by
  refine unchanged_of_service (fun b => b ≠ none) h ?_ ?_
  · rintro (_ | err) t₂ h
    · obtain ⟨_, _, _, h⟩ := h.of_bind
      cases h.1
    · exact ⟨nofun, by cases err <;> exact h.2⟩
  · intro m₁ input m₂ r b hstep hr hb
    obtain ⟨r', heq, hs, hdropped⟩ := step_service hstep
    cases heq
    obtain ⟨rfl, _⟩ | ⟨_, rfl, _⟩ := seal_cases hs hdropped
    · rfl
    · cases hr
      exact absurd rfl hb

theorem unchanged_deleteSecret {path : Str}
    (h : Ends Memory.step (deleteSecret path) t (some (.error status)) t') :
    Reaches Memory.step t t' := by
  refine unchanged_of_service (fun b => b ≠ none) h ?_ ?_
  · rintro (_ | err) t₂ h
    · cases h.1
    · exact ⟨nofun, h.2⟩
  · intro m₁ input m₂ r b hstep hr hb
    refine eq_of_service hstep nofun fun s' hs => ?_
    cases LockService.step_effect hs with
    | keep => rfl
    | deleteSecret =>
        cases hr
        exact absurd rfl hb

theorem unchanged_createKey {type : ProtoKeyType}
    (h : Ends Memory.step (createKey name type) t (some (.error status)) t') :
    Reaches Memory.step t t' := by
  refine unchanged_of_except h (fun _ t₂ h => ?_) (fun _ _ h => h.2) ?_ nofun
  · obtain ⟨_, _, _, h⟩ := h.of_bind
    exact not_error_of_ok _ h
  · intro s input s' r err hs hr
    cases LockService.step_effect hs with
    | keep => rfl
    | createKey => cases hr

theorem unchanged_putSecret {req : PutSecretRequest}
    (h : Ends Memory.step (putSecret req) t (some (.error status)) t') :
    Reaches Memory.step t t' := by
  refine unchanged_of_except h (fun _ => not_error_of_ok) (fun _ _ h => h.2) ?_ nofun
  intro s input s' r err hs hr
  cases LockService.step_effect hs with
  | keep => rfl
  | putSecret => cases hr

theorem unchanged_rotateKey
    (h : Ends Memory.step (rotateKey name) t (some (.error status)) t') :
    Reaches Memory.step t t' := by
  refine unchanged_of_except h (fun _ => not_error_of_ok) (fun _ _ h => h.2) ?_ nofun
  intro s input s' r err hs hr
  cases LockService.step_effect hs with
  | keep => rfl
  | rotateKey => cases hr

theorem unchanged_initializeVault {shares threshold : ℤ}
    (h : Ends Memory.step (initializeVault shares threshold) t (some (.error status)) t') :
    Reaches Memory.step t t' := by
  refine unchanged_of_except h (fun _ => not_error_of_ok) (fun err _ h => ?_) ?_ nofun
  · cases err <;> exact h.2
  · intro s input s' r err hs hr
    cases LockService.step_effect hs with
    | keep => rfl
    | initialized => cases hr

theorem unchanged_getKey (h : Ends Memory.step (getKey name) t (some (.error status)) t') :
    Reaches Memory.step t t' := by
  refine unchanged_of_query h (fun _ t₂ h => ?_) (fun _ _ h => h.2) (fun _ => ⟨_, rfl⟩) nofun
  obtain ⟨_, _, _, h⟩ := h.of_bind
  exact not_error_of_ok _ h

theorem unchanged_getEncryptionKey {req : GetEncryptionKeyRequest}
    (h : Ends Memory.step (getEncryptionKey req) t (some (.error status)) t') :
    Reaches Memory.step t t' := by
  refine unchanged_of_query h (fun _ t₂ h => ?_) (fun err _ h => ?_) (fun _ => ⟨_, rfl⟩) nofun
  · obtain ⟨_, _, _, h⟩ := h.of_bind
    exact not_error_of_ok _ h
  · split at h
    · exact h.2
    · exact h.2
    · rename_i heq
      cases heq

theorem unchanged_getKeyVersions
    (h : Ends Memory.step (getKeyVersions name) t (some (.error status)) t') :
    Reaches Memory.step t t' := by
  refine unchanged_of_query h (fun _ t₂ h => ?_) (fun _ _ h => h.2) (fun _ => ⟨_, rfl⟩) nofun
  obtain ⟨policy, _, _, h⟩ := h.of_bind
  split at h
  · cases h.1
  · obtain ⟨_, _, _, h⟩ := h.of_bind
    exact not_error_of_ok _ h

/-- A call other than `Unseal` that answers with an error has changed nothing. -/
theorem unchanged_of_error {req : Request} (hreq : ∀ key reset, req ≠ .unsealVault key reset)
    (h : Ends Memory.step (handle req) t (some (.error status)) t') :
    Reaches Memory.step t t' := by
  cases req with
  | unsealVault key reset => exact absurd rfl (hreq key reset)
  | deleteKey name => exact h.2
  | updateKeyConfig name => cases h.1
  | getSealStatus =>
      obtain ⟨_, _, _, h⟩ := h.of_bind
      cases h.1
  | initializeVault shares threshold => exact unchanged_initializeVault h
  | sealVault => exact unchanged_sealVault h
  | putSecret req => exact unchanged_putSecret h
  | deleteSecret path => exact unchanged_deleteSecret h
  | createKey name type exportable => exact unchanged_createKey h
  | rotateKey name => exact unchanged_rotateKey h
  | getSecret path | listSecrets pathPrefix | getSecretMetadata path | listKeys =>
      exact unchanged_of_query h (fun _ => not_error_of_ok) (fun _ _ h => h.2)
        (fun _ => ⟨_, rfl⟩) nofun
  | getKey name => exact unchanged_getKey h
  | getEncryptionKey req => exact unchanged_getEncryptionKey h
  | getKeyVersions name => exact unchanged_getKeyVersions h

end Unchanged

end GrpcVault.LockRpc
