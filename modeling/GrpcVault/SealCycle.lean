import GrpcVault.LockRuns

/-!
# Sealing and unsealing

Sealing the vault closes and empties the keyring. Unsealing opens the vault and
leaves the keyring closed, so what an unsealed vault answers is the same before
and after such a cycle exactly if the keyring was closed already.
-/

namespace GrpcVault.LockService

open GoText EventSystem

structure SameObservations (s s' : LockService) : Prop where
  getSecret : ∀ path, s'.getSecret path = s.getSecret path
  listKeys : s'.listKeys = s.listKeys
  getKey : ∀ name, s'.getKey name = s.getKey name
  getEncryptionKey : ∀ name version,
    s'.getEncryptionKey name version = s.getEncryptionKey name version
  createKey : ∀ name keyType rand now,
    (s'.createKey name keyType rand now).2.isOk = (s.createKey name keyType rand now).2.isOk
  rotateKey : ∀ name rand now,
    (s'.rotateKey name rand now).2.isOk = (s.rotateKey name rand now).2.isOk

variable {s s' : LockService}

/-- Without a successful write the secrets stay, and the keyring stays or is closed. -/
theorem step_quiet {op : LockOp} {r : LockReply} (h : step s op = some (s', r))
    (hq : r.wrote = false) :
    s'.secrets = s.secrets ∧ (s'.keyring = s.keyring ∨ s'.keyring = s.keyring.sealKeyring) := by
  cases step_effect h with
  | keep | ignored | share | refuse | unsealed => exact ⟨rfl, .inl rfl⟩
  | sealed => exact ⟨rfl, .inr rfl⟩
  | initialized | putSecret | deleteSecret | createKey | rotateKey => cases hq

theorem run_after_seal {m : LockService} {tr : List (LockOp × LockReply)} (h : Run step m tr s')
    (hq : ∀ x ∈ tr, x.2.wrote = false)
    (hm : m.secrets = s.secrets ∧ m.keyring = s.keyring.sealKeyring) :
    s'.secrets = s.secrets ∧ s'.keyring = s.keyring.sealKeyring := by
  refine h.invariant (I := fun m => m.secrets = s.secrets ∧ m.keyring = s.keyring.sealKeyring)
    (A := fun x => x.2.wrote = false) ?_ hq hm
  intro m op r m' hr hI hs
  obtain ⟨hsec, hkey⟩ := step_quiet hs hr
  refine ⟨hsec.trans hI.1, ?_⟩
  cases hkey with
  | inl hkey => exact hkey.trans hI.2
  | inr hkey => exact hkey

theorem sealVault_of_open {m : LockService} {r : LockReply} (hv : s.Valid)
    (hopen : s.sealed = false) (h : step s .sealVault = some (m, r)) :
    m.secrets = s.secrets ∧ m.keyring = s.keyring.sealKeyring := by
  cases h
  rw [sealVault, if_neg (by simp [(hv.opened hopen).1]), if_neg (by simp [hopen])]
  exact ⟨rfl, rfl⟩

theorem sameObservations_of_eq (hs : s'.sealed = s.sealed) (hsec : s'.secrets = s.secrets)
    (hkey : s'.keyring = s.keyring) : SameObservations s s' where
  getSecret path := by rw [LockService.getSecret, LockService.getSecret, hs, hsec]
  listKeys := by rw [LockService.listKeys, LockService.listKeys, hs, hkey]
  getKey name := by rw [LockService.getKey, LockService.getKey, hs, hkey]
  getEncryptionKey name version := by
    rw [LockService.getEncryptionKey, LockService.getEncryptionKey, hs, hkey]
  createKey name keyType rand now := by
    rw [LockService.createKey, LockService.createKey, hs, hkey]
    split_ifs <;> rfl
  rotateKey name rand now := by
    rw [LockService.rotateKey, LockService.rotateKey, hs, hkey]
    split_ifs <;> rfl

theorem exists_createKey_ok (hopen : s.sealed = false) (hkey : s.keyring.sealed = false) :
    ∃ name keyType rand now, (s.createKey name keyType rand now).2.isOk = true := by
  obtain ⟨name, hname⟩ := Infinite.exists_notMem_finset s.keyring.policies.keys
  have hnone : s.keyring.policies.lookup name = none :=
    Finmap.lookup_eq_none.mpr (fun hmem => hname (Finmap.mem_keys.mpr hmem))
  refine ⟨name, .aes256GCM, some ⟨List.replicate 32 0, rfl⟩, 0, ?_⟩
  simp [createKey, hopen, Keyring.createKey, hkey, hnone, generateKeyVersion, liftKeyring,
    Except.map, Except.isOk, Except.toBool]

theorem createKey_closed (hkey : s.keyring.sealed = true) (name : Str) (keyType : KeyType)
    (rand : RandRead 32) (now : ℤ) : (s.createKey name keyType rand now).2.isOk = false := by
  unfold createKey
  split_ifs
  · rfl
  · rw [Keyring.createKey_of_sealed hkey]
    rfl

/-- A seal and everything up to a later open state, without a successful write in
between, leaves all observations as they were exactly if the keyring was closed to
begin with. -/
theorem seal_cycle_same_iff {threshold : ℤ} {tr₀ tr : List (LockOp × LockReply)} {r : LockReply}
    (h₀ : Run step (newLockService threshold) tr₀ s) (hopen : s.sealed = false)
    (h : Run step s ((.sealVault, r) :: tr) s') (hquiet : ∀ x ∈ tr, x.2.wrote = false)
    (hopen' : s'.sealed = false) : SameObservations s s' ↔ s.keyring.sealed = true := by
  have hv := run_valid h₀
  obtain ⟨m, hm, ht⟩ := h
  obtain ⟨hsec, hkey⟩ := run_after_seal ht hquiet (sealVault_of_open hv hopen hm)
  constructor
  · intro hsame
    by_contra hne
    obtain ⟨name, keyType, rand, now, hok⟩ := exists_createKey_ok hopen (by simpa using hne)
    rw [← hsame.createKey, createKey_closed (by rw [hkey]; rfl)] at hok
    cases hok
  · intro hsealed
    exact sameObservations_of_eq (hopen'.trans hopen.symm) hsec
      (hkey.trans (hv.cleared hsealed).symm)

/-- A second cycle finds the keyring closed and changes no observation. A secret stored before
the first is there after both. -/
theorem seal_cycle_twice : ∃ tr₀ tr r s s', Run step (newLockService 1) tr₀ s ∧
    Run step s ((.sealVault, r) :: tr) s' ∧ s.keyring.sealed = true ∧
    (s.getSecret ['p']).isOk = true ∧ SameObservations s s' := by
  have h₀ : ∃ r₁ r₂ r₃ r₄ s, Run step (newLockService 1)
      [(.initializeVault 1 1 ⟨zeroRead, zeroRead, zeroRead⟩, r₁),
        (.putSecret ['p'] (Finmap.singleton ['d'] [1]) 0, r₂), (.sealVault, r₃),
        (.unsealVault zeroShare, r₄)] s ∧ s.sealed = false ∧ s.keyring.sealed = true ∧
      (s.getSecret ['p']).isOk = true ∧
      ∃ r r' s', Run step s [(.sealVault, r), (.unsealVault zeroShare, r')] s' ∧
        r'.wrote = false ∧ s'.sealed = false :=
    ⟨_, _, _, _, _, ⟨_, rfl, _, rfl, _, rfl, _, rfl, rfl⟩, rfl, rfl, rfl, _, _, _,
      ⟨_, rfl, _, rfl, rfl⟩, rfl, rfl⟩
  obtain ⟨r₁, r₂, r₃, r₄, s, h₀, hopen, hkey, hsecret, r, r', s', h, hq, hopen'⟩ := h₀
  refine ⟨_, _, r, s, s', h₀, h, hkey, hsecret, ?_⟩
  exact (seal_cycle_same_iff h₀ hopen h (by simpa using hq) hopen').mpr hkey

/-- A key created before the cycle is gone after it. -/
theorem seal_cycle_loses_key : ∃ tr₀ tr r s s', Run step (newLockService 1) tr₀ s ∧
    s.sealed = false ∧ Run step s ((.sealVault, r) :: tr) s' ∧ (∀ x ∈ tr, x.2.wrote = false) ∧
    s'.sealed = false ∧ (s.getEncryptionKey ['k'] 1).isOk = true ∧
    s'.getEncryptionKey ['k'] 1 = .error (.keyring .keyringSealed) ∧ ¬ SameObservations s s' := by
  have h₀ : ∃ r₁ r₂ s, Run step (newLockService 1)
      [(.initializeVault 1 1 ⟨zeroRead, zeroRead, zeroRead⟩, r₁),
        (.createKey ['k'] .aes256GCM zeroRead 0, r₂)] s ∧ s.sealed = false ∧
      (s.getEncryptionKey ['k'] 1).isOk = true ∧
      ∃ r r' s', Run step s [(.sealVault, r), (.unsealVault zeroShare, r')] s' ∧
        r'.wrote = false ∧ s'.sealed = false ∧
        s'.getEncryptionKey ['k'] 1 = .error (.keyring .keyringSealed) :=
    ⟨_, _, _, ⟨_, rfl, _, rfl, rfl⟩, rfl, rfl, _, _, _, ⟨_, rfl, _, rfl, rfl⟩, rfl, rfl, rfl⟩
  obtain ⟨r₁, r₂, s, h₀, hopen, hok, r, r', s', h, hq, hopen', herr⟩ := h₀
  refine ⟨_, _, r, s, s', h₀, hopen, h, by simpa using hq, hopen', hok, herr, ?_⟩
  intro hsame
  rw [← hsame.getEncryptionKey, herr] at hok
  cases hok

end GrpcVault.LockService
