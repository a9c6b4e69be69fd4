import GrpcVault.LockRuns

/-!
# The seal as a state machine

What the seal does over whole runs: an open vault is initialized and has no shares
pending, the shares pending stay below the threshold, and the setup of the seal is fixed
once the vault is initialized. A sealed vault answers every secret and key operation with
the same error and stays as it is.
-/

namespace GrpcVault.LockService

open GoText EventSystem

/-- The reply of a secret or key operation on a sealed vault, `none` for the operations
of the seal itself. -/
def sealedReply : LockOp → Option LockReply
  | .putSecret _ _ _ => some (.putSecret (.error .vaultSealed))
  | .getSecret _ => some (.getSecret (.error .vaultSealed))
  | .deleteSecret _ => some (.deleteSecret (some .vaultSealed))
  | .listSecrets _ => some (.listSecrets (.error .vaultSealed))
  | .createKey _ _ _ _ => some (.createKey (.error .vaultSealed))
  | .getKey _ => some (.getKey (.error .vaultSealed))
  | .getEncryptionKey _ _ => some (.getEncryptionKey (.error .vaultSealed))
  | .rotateKey _ _ _ => some (.rotateKey (.error .vaultSealed))
  | .listKeys => some (.listKeys (.error .vaultSealed))
  | .initializeVault _ _ _ | .unsealVault _ | .sealVault | .isSealed | .isInitialized
  | .getSealStatus => none

def Initializes : LockOp × LockReply → Prop
  | (_, .initializeVault (.ok _)) => True
  | _ => False

/-- What is fixed by the initialization: the flag, the master key, its shares and the
threshold. -/
structure SameSetup (s s' : LockService) : Prop where
  initialized : s'.initialized = true
  masterKey : s'.masterKey = s.masterKey
  shamirKeys : s'.shamirKeys = s.shamirKeys
  threshold : s'.threshold = s.threshold

/-- What the seal guarantees in one state: its own bookkeeping, and what the operations
do from there. -/
structure SealGuarantee (s : LockService) : Prop where
  opened : s.sealed = false → s.initialized = true ∧ s.unsealKeys = []
  pending : s.sealed = true → s.unsealKeys = [] ∨ (s.unsealKeys.length : ℤ) < s.threshold
  status : step s .getSealStatus =
    some (s, .getSealStatus (s.sealed, s.initialized, s.threshold, s.unsealKeys.length))
  refuses : s.sealed = true → ∀ op r, sealedReply op = some r → step s op = some (s, r)
  unsealVault : ∀ keyShare r s', step s (.unsealVault keyShare) = some (s', r) →
    s'.secrets = s.secrets ∧ s'.keyring = s.keyring

variable {s s' : LockService}

theorem step_sealed (hs : s.sealed = true) {op : LockOp} {r : LockReply}
    (hr : sealedReply op = some r) : step s op = some (s, r) := by
  cases op with
  | putSecret | getSecret | deleteSecret | listSecrets | createKey | getKey | getEncryptionKey
  | rotateKey | listKeys =>
      cases hr
      simp [step, putSecret, getSecret, deleteSecret, listSecrets, createKey, getKey,
        getEncryptionKey, rotateKey, listKeys, hs]
  | initializeVault | unsealVault | sealVault | isSealed | isInitialized | getSealStatus => cases hr

theorem step_setup {t : LockService} {op : LockOp} {r : LockReply}
    (h : step s op = some (s', r)) (ht : SameSetup t s) : SameSetup t s' := by
  cases step_effect h with
  | initialized hi =>
      rw [ht.initialized] at hi
      cases hi
  | keep | ignored | share | refuse | unsealed | sealed | putSecret | deleteSecret | createKey
  | rotateKey => exact ⟨ht.initialized, ht.masterKey, ht.shamirKeys, ht.threshold⟩

theorem run_setup {tr : List (LockOp × LockReply)} (h : Run step s tr s')
    (hi : s.initialized = true) : SameSetup s s' :=
  h.preserves (fun _ _ _ _ hm hs => step_setup hs hm) ⟨hi, rfl, rfl, rfl⟩

theorem step_initializes {op : LockOp} {r : LockReply} (h : step s op = some (s', r))
    (hi : Initializes (op, r)) : s'.initialized = true := by
  cases step_effect h with
  | initialized => rfl
  | keep _ hr =>
      cases r with
      | initializeVault result =>
          cases result with
          | ok => cases hr
          | error => cases hi
      | _ => cases hi
  | _ => cases hi

theorem run_initialized {t : LockService} {tr : List (LockOp × LockReply)} (h : Run step t tr s)
    (hx : ∃ x ∈ tr, Initializes x) : s.initialized = true := by
  obtain ⟨⟨op, r⟩, hmem, hi⟩ := hx
  obtain ⟨a, b, rfl⟩ := List.append_of_mem hmem
  obtain ⟨m, m', _, hstep, hb⟩ := run_append_cons.mp h
  exact (run_setup hb (step_initializes hstep hi)).initialized

theorem unsealVault_frame {keyShare : Str} {r : LockReply}
    (h : step s (.unsealVault keyShare) = some (s', r)) :
    s'.secrets = s.secrets ∧ s'.keyring = s.keyring := by
  cases step_effect h with
  | keep hop => exact absurd rfl (hop keyShare)
  | ignored | share | refuse | unsealed => exact ⟨rfl, rfl⟩

theorem Valid.sealGuarantee (hv : s.Valid) : s.SealGuarantee where
  opened := hv.opened
  pending _ := hv.pending
  status := rfl
  refuses hs _ _ hr := step_sealed hs hr
  unsealVault _ _ _ h := unsealVault_frame h

/-- In every state that the service reaches, the seal keeps its guarantees; and from a
successful initialization on, the vault stays initialized with the same setup. -/
theorem seal_state_machine {threshold : ℤ} {tr₁ tr₂ : List (LockOp × LockReply)}
    (h₁ : Run step (newLockService threshold) tr₁ s) (h₂ : Run step s tr₂ s') :
    s.SealGuarantee ∧ ((∃ x ∈ tr₁, Initializes x) → s.initialized = true) ∧
      (s.initialized = true → SameSetup s s') :=
  ⟨(run_valid h₁).sealGuarantee, run_initialized h₁, run_setup h₂⟩

/-- One of two shares is pending, the same one again opens the vault. -/
theorem seal_state_machine_pending : ∃ tr₁ tr₂ s s', Run step (newLockService 5) tr₁ s ∧
    Run step s tr₂ s' ∧ s.sealed = true ∧ s.unsealKeys.length = 1 ∧ s'.sealed = false ∧
    s.SealGuarantee ∧ SameSetup s s' := by
  have h : ∃ r₁ r₂ r₃ r₄ s s', Run step (newLockService 5)
      [(.initializeVault 2 2 ⟨zeroRead, zeroRead, zeroRead⟩, r₁), (.sealVault, r₂),
        (.unsealVault zeroShare, r₃)] s ∧ Run step s [(.unsealVault zeroShare, r₄)] s' ∧
      s.sealed = true ∧ s.unsealKeys.length = 1 ∧ s'.sealed = false ∧ s.initialized = true :=
    ⟨_, _, _, _, _, _, ⟨_, rfl, _, rfl, _, rfl, rfl⟩, ⟨_, rfl, rfl⟩, rfl, rfl, rfl, rfl⟩
  obtain ⟨r₁, r₂, r₃, r₄, s, s', h₁, h₂, hs, hlen, hs', hi⟩ := h
  obtain ⟨hguarantee, _, hsetup⟩ := seal_state_machine h₁ h₂
  exact ⟨_, _, s, s', h₁, h₂, hs, hlen, hs', hguarantee, hsetup hi⟩

end GrpcVault.LockService
