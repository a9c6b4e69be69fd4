import GrpcVault.KeyringVersions
import GrpcVault.Lib.EventSystem

/-!
# Runs of a keyring

The operations of package `keyring` as the events of one system, loading a stored keyring
included. `Change` lists what an operation can do to the keyring; one that fails does
nothing. From it follows the representation invariant: whatever is called on a new keyring,
failing calls included, the versions of every key are `1, 2, …, latestVersion` and
`GetKeyVersion` answers exactly for those that the minimum decryption version permits.
-/

namespace GrpcVault

open GoText EventSystem

/-- `Unmarshal`, from the policies that the JSON decoder yields, `none` where it fails. -/
def Keyring.unmarshal (kr : Keyring) : Option (GoMap Str KeyPolicy) → Keyring × Bool
  | none => (kr, false)
  | some policies => ({ policies, ciphers := ∅, sealed := false }, true)

inductive KeyringOp where
  | createKey (name : Str) (keyType : KeyType) (opts : List KeyOption) (rand : RandRead 32)
      (now : ℤ)
  | getKeyVersion (name : Str) (version : ℤ)
  | getCipher (name : Str) (version : ℤ)
  | rotateKey (name : Str) (rand : RandRead 32) (now : ℤ)
  | deleteKey (name : Str)
  | updateConfig (name : Str) (opts : List KeyOption) (now : ℤ)
  | sealKeyring
  | unmarshal (data : Option (GoMap Str KeyPolicy))

inductive KeyringReply where
  | policy (result : Except KeyringError KeyPolicy)
  | key (result : Except KeyringError Key)
  | cipher (result : Except KeyringError Aes.Cipher)
  | version (result : Except KeyringError ℤ)
  | done (result : Except KeyringError Unit)
  | loaded (ok : Bool)

abbrev KeyringTrace := List (KeyringOp × KeyringReply)

def KeyringReply.failed : KeyringReply → Bool
  | .policy (.error _) | .key (.error _) | .cipher (.error _) | .version (.error _)
  | .done (.error _) | .loaded false => true
  | _ => false

namespace Keyring

def cacheCipher (kr : Keyring) (name : Str) (version : ℤ) (c : Aes.Cipher) : Keyring :=
  let cipherMap := ((kr.ciphers.lookup name).getD ∅).insert version c
  { kr with ciphers := kr.ciphers.insert name cipherMap }

def putPolicy (kr : Keyring) (name : Str) (p : KeyPolicy) : Keyring :=
  { kr with policies := kr.policies.insert name p }

def step : Step Keyring KeyringOp KeyringReply
  | kr, .createKey name keyType opts rand now =>
      let (kr', result) := kr.createKey name keyType opts rand now
      some (kr', .policy result)
  | kr, .getKeyVersion name version => some (kr, .key (kr.getKeyVersion name version))
  | kr, .getCipher name version =>
      let (kr', result) := kr.getCipher name version
      some (kr', .cipher result)
  | kr, .rotateKey name rand now =>
      let (kr', result) := kr.rotateKey name rand now
      some (kr', .version result)
  | kr, .deleteKey name =>
      let (kr', result) := kr.deleteKey name
      some (kr', .done result)
  | kr, .updateConfig name opts now =>
      let (kr', result) := kr.updateConfig name opts now
      some (kr', .done result)
  | kr, .sealKeyring => some (kr.sealKeyring, .done (.ok ()))
  | kr, .unmarshal data =>
      let (kr', ok) := kr.unmarshal data
      some (kr', .loaded ok)

/-- What an operation that does not fail can do to the keyring. -/
inductive Change (kr : Keyring) : KeyringOp → Keyring → Prop
  | read {op} : Change kr op kr
  | created {name keyType opts rand now p} (hnone : kr.policies.lookup name = none)
      (hgen : generateKeyVersion (applyOptions opts (newPolicy name keyType now)) rand now = .ok p) :
      Change kr (.createKey name keyType opts rand now) (kr.putPolicy name p)
  | rotated {name rand now p p'} (hp : kr.policies.lookup name = some p)
      (hgen : generateKeyVersion p rand now = .ok p') :
      Change kr (.rotateKey name rand now) (kr.putPolicy name { p' with updatedAt := now })
  | configured {name opts now p} (hp : kr.policies.lookup name = some p) :
      Change kr (.updateConfig name opts now)
        (kr.putPolicy name { applyOptions opts p with updatedAt := now })
  | deleted {name} :
      Change kr (.deleteKey name)
        { kr with policies := kr.policies.erase name, ciphers := kr.ciphers.erase name }
  | cached {name version p key c} (hp : kr.policies.lookup name = some p)
      (hkey : findVersion p (resolveVersion p version) = some key)
      (hc : Aes.newCipher key.key key.version = .ok c) :
      Change kr (.getCipher name version) (kr.cacheCipher name (resolveVersion p version) c)
  | sealed : Change kr .sealKeyring (sealKeyring kr)
  | loaded {policies} :
      Change kr (.unmarshal (some policies)) { policies, ciphers := ∅, sealed := false }

variable {kr kr' : Keyring} {name : Str}

theorem updateConfig_eq_ok {opts : List KeyOption} {now : ℤ} {u : Unit}
    (h : kr.updateConfig name opts now = (kr', .ok u)) :
    ∃ p, kr.policies.lookup name = some p ∧
      kr' = kr.putPolicy name { applyOptions opts p with updatedAt := now } := by
  unfold updateConfig at h
  split at h
  · cases h
  · split at h
    · cases h
    · rename_i p hp
      cases h
      exact ⟨p, hp, rfl⟩

theorem updateConfig_error {opts : List KeyOption} {now : ℤ} {e : KeyringError}
    (h : kr.updateConfig name opts now = (kr', .error e)) : kr' = kr := by
  unfold updateConfig at h
  split at h
  · cases h; rfl
  · split at h <;> cases h
    rfl

theorem deleteKey_eq_ok {u : Unit} (h : kr.deleteKey name = (kr', .ok u)) :
    kr' = { kr with policies := kr.policies.erase name, ciphers := kr.ciphers.erase name } := by
  unfold deleteKey at h
  split at h
  · cases h
  · split at h
    · cases h
    · split at h <;> cases h
      rfl

theorem deleteKey_error {e : KeyringError} (h : kr.deleteKey name = (kr', .error e)) :
    kr' = kr := by
  unfold deleteKey at h
  split at h
  · cases h; rfl
  · split at h
    · cases h; rfl
    · split at h <;> cases h
      rfl

/-- A cipher comes from the cache, or is built from its key and cached. -/
theorem getCipher_eq_ok {version : ℤ} {c : Aes.Cipher}
    (h : kr.getCipher name version = (kr', .ok c)) :
    kr.sealed = false ∧ ∃ p, kr.policies.lookup name = some p ∧
      ((kr.cachedCipher name (resolveVersion p version) = some c ∧ kr' = kr) ∨
        ∃ key, findVersion p (resolveVersion p version) = some key ∧
          Aes.newCipher key.key key.version = .ok c ∧
          kr' = kr.cacheCipher name (resolveVersion p version) c) := by
  unfold getCipher at h
  split at h
  · cases h
  · rename_i hs
    split at h
    · cases h
    · rename_i p hp
      refine ⟨by simpa using hs, p, hp, ?_⟩
      dsimp only at h
      split at h
      · rename_i c' hc
        cases h
        exact .inl ⟨hc, rfl⟩
      · split at h
        · cases h
        · rename_i key hkey
          split at h
          · cases h
          · rename_i c' hc
            cases h
            exact .inr ⟨key, hkey, hc, rfl⟩

theorem getCipher_error {version : ℤ} {e : KeyringError}
    (h : kr.getCipher name version = (kr', .error e)) : kr' = kr := by
  unfold getCipher at h
  split at h
  · cases h; rfl
  · split at h
    · cases h; rfl
    · dsimp only at h
      split at h
      · cases h
      · split at h
        · cases h; rfl
        · split at h <;> cases h
          rfl

theorem outcome_cases {α : Type} {op : KeyringOp} {reply : KeyringReply}
    {r : Keyring × Except KeyringError α} {answer : Except KeyringError α → KeyringReply}
    (hfailed : ∀ result, (answer result).failed = !result.isOk)
    (herror : ∀ {kr₁ e}, r = (kr₁, .error e) → kr₁ = kr)
    (hok : ∀ {kr₁ a}, r = (kr₁, .ok a) → Change kr op kr₁)
    (h : some (r.1, answer r.2) = some (kr', reply)) :
    (reply.failed = true ∧ kr' = kr) ∨ (reply.failed = false ∧ Change kr op kr') := by
  obtain ⟨rfl, rfl⟩ := Prod.mk.inj (Option.some.inj h)
  obtain ⟨kr₁, result⟩ := r
  cases result with
  | error e => exact .inl ⟨hfailed _, herror rfl⟩
  | ok a => exact .inr ⟨hfailed _, hok rfl⟩

/-- A call fails and leaves the keyring as it was, or makes its change. -/
theorem step_cases {op : KeyringOp} {reply : KeyringReply} (h : step kr op = some (kr', reply)) :
    (reply.failed = true ∧ kr' = kr) ∨ (reply.failed = false ∧ Change kr op kr') := by
  cases op with
  | createKey name keyType opts rand now =>
      refine outcome_cases (by rintro (_ | _) <;> rfl) createKey_error (fun hc => ?_) h
      obtain ⟨_, hnone, hgen, rfl⟩ := createKey_eq_ok hc
      exact .created hnone hgen
  | getKeyVersion name version =>
      refine outcome_cases (r := (kr, kr.getKeyVersion name version)) (by rintro (_ | _) <;> rfl)
        (fun hc => (Prod.mk.inj hc).1.symm) (fun hc => ?_) h
      obtain ⟨rfl, _⟩ := Prod.mk.inj hc
      exact .read
  | getCipher name version =>
      refine outcome_cases (by rintro (_ | _) <;> rfl) getCipher_error (fun hc => ?_) h
      obtain ⟨_, p, hp, ⟨_, rfl⟩ | ⟨key, hkey, hnew, rfl⟩⟩ := getCipher_eq_ok hc
      · exact .read
      · exact .cached hp hkey hnew
  | rotateKey name rand now =>
      refine outcome_cases (by rintro (_ | _) <;> rfl) rotateKey_error (fun hc => ?_) h
      obtain ⟨_, p, p', hp, hgen, _, rfl⟩ := rotateKey_eq_ok hc
      exact .rotated hp hgen
  | deleteKey name =>
      refine outcome_cases (by rintro (_ | _) <;> rfl) deleteKey_error (fun hc => ?_) h
      obtain rfl := deleteKey_eq_ok hc
      exact .deleted
  | updateConfig name opts now =>
      refine outcome_cases (by rintro (_ | _) <;> rfl) updateConfig_error (fun hc => ?_) h
      obtain ⟨p, hp, rfl⟩ := updateConfig_eq_ok hc
      exact .configured hp
  | sealKeyring =>
      cases h
      exact .inr ⟨rfl, .sealed⟩
  | unmarshal data =>
      cases h
      cases data with
      | none => exact .inl ⟨rfl, rfl⟩
      | some policies => exact .inr ⟨rfl, .loaded⟩

theorem step_invariant {I : Keyring → Prop} {op : KeyringOp} {reply : KeyringReply} (hI : I kr)
    (hchange : Change kr op kr' → I kr') (h : step kr op = some (kr', reply)) : I kr' := by
  rcases step_cases h with ⟨_, rfl⟩ | ⟨_, hc⟩
  · exact hI
  · exact hchange hc

theorem step_failed {op : KeyringOp} {reply : KeyringReply} (h : step kr op = some (kr', reply))
    (hfail : reply.failed = true) : kr' = kr := by
  rcases step_cases h with ⟨_, rfl⟩ | ⟨hok, _⟩
  · rfl
  · rw [hfail] at hok
    cases hok

end Keyring

theorem applyOptions_versions (opts : List KeyOption) (p : KeyPolicy) :
    (applyOptions opts p).latestVersion = p.latestVersion ∧ (applyOptions opts p).keys = p.keys := by
  unfold applyOptions
  induction opts generalizing p with
  | nil => exact ⟨rfl, rfl⟩
  | cons opt opts ih =>
      obtain ⟨hlatest, hkeys⟩ := ih (opt.apply p)
      rw [List.foldl_cons, hlatest, hkeys]
      cases opt <;> exact ⟨rfl, rfl⟩

namespace KeyPolicy

variable {p p' : KeyPolicy}

theorem Numbered.of_versions (h : p.Numbered) (hlatest : p'.latestVersion = p.latestVersion)
    (hkeys : p'.keys = p.keys) : p'.Numbered where
  nonneg := hlatest ▸ h.nonneg
  versions := by rw [hlatest, hkeys, h.versions]
  material := hkeys ▸ h.material

theorem Numbered.findVersion_of_mem (h : p.Numbered) {version : ℤ} (hlo : 1 ≤ version)
    (hhi : version ≤ p.latestVersion) : ∃ key, Keyring.findVersion p version = some key := by
  have hmem : version ∈ p.keys.map Key.version := by
    rw [h.versions]
    refine List.mem_map.mpr ⟨(version - 1).toNat, List.mem_range.mpr (by omega), by omega⟩
  obtain ⟨key, hkey, rfl⟩ := List.mem_map.mp hmem
  apply Option.isSome_iff_exists.mp
  exact List.find?_isSome.mpr ⟨key, hkey, by simp⟩

end KeyPolicy

namespace Keyring

variable {kr kr' : Keyring} {name : Str}

theorem step_wellFormed {op : KeyringOp} {reply : KeyringReply} (hwf : kr.WellFormed)
    (hload : ∀ data, op ≠ .unmarshal data) (h : step kr op = some (kr', reply)) :
    kr'.WellFormed := by
  refine step_invariant hwf (fun hc => ?_) h
  cases hc with
  | read => exact hwf
  | @created name keyType opts rand now p _ hgen =>
      obtain ⟨hlatest, hkeys⟩ := applyOptions_versions opts (newPolicy name keyType now)
      have hnew := (KeyPolicy.numbered_newPolicy name keyType now).of_versions hlatest hkeys
      obtain ⟨hn, hl⟩ := hnew.generate hgen
      have hzero : (newPolicy name keyType now).latestVersion = 0 := rfl
      exact hwf.insert hn (by omega)
  | rotated hp hgen =>
      obtain ⟨hn, hpos⟩ := hwf.numbered hp
      obtain ⟨hn', hl⟩ := hn.generate hgen
      exact hwf.insert (hn'.of_versions rfl rfl) (by simp only; omega)
  | @configured name opts now p hp =>
      obtain ⟨hn, hpos⟩ := hwf.numbered hp
      obtain ⟨hlatest, hkeys⟩ := applyOptions_versions opts p
      exact hwf.insert (hn.of_versions hlatest hkeys) (by simp only; omega)
  | @deleted name =>
      exact ⟨fun hp => hwf.numbered (GoMap.lookup_of_lookup_erase hp)⟩
  | cached => exact ⟨hwf.numbered⟩
  | sealed => exact ⟨fun hp => by cases hp⟩
  | loaded => exact absurd rfl (hload _)

theorem run_wellFormed {tr : KeyringTrace} (hrun : Run step newKeyring tr kr)
    (hload : ∀ data reply, (KeyringOp.unmarshal data, reply) ∉ tr) : kr.WellFormed := by
  refine hrun.invariant (A := fun x => ∀ data, x.1 ≠ .unmarshal data) ?_ ?_ wellFormed_new
  · intro m op reply m' hop hm hstep
    exact step_wellFormed hm hop hstep
  · rintro ⟨op, reply⟩ hx data rfl
    exact hload data reply hx

/-- The versions that are handed out are those from the minimum to the latest. -/
theorem WellFormed.getKeyVersion_iff (hwf : kr.WellFormed) {version : ℤ} :
    (∃ key, kr.getKeyVersion name version = .ok key) ↔
      kr.sealed = false ∧ ∃ p, kr.policies.lookup name = some p ∧
        max 1 p.minDecryptionVersion ≤ resolveVersion p version ∧
        resolveVersion p version ≤ p.latestVersion := by
  simp only [getKeyVersion_eq_ok]
  constructor
  · rintro ⟨key, hs, p, hp, hmin, hkey⟩
    obtain ⟨hlo, hhi, _⟩ := (hwf.numbered hp).1.findVersion_mem hkey
    exact ⟨hs, p, hp, max_le hlo hmin, hhi⟩
  · rintro ⟨hs, p, hp, hlo, hhi⟩
    obtain ⟨h1, hmin⟩ := max_le_iff.mp hlo
    obtain ⟨key, hkey⟩ := (hwf.numbered hp).1.findVersion_of_mem h1 hhi
    exact ⟨key, hs, p, hp, hmin, hkey⟩

theorem getKeyVersion_mem {version : ℤ} {key : Key} {p : KeyPolicy}
    (h : kr.getKeyVersion name version = .ok key) (hp : kr.policies.lookup name = some p) :
    key ∈ p.keys ∧ key.version = resolveVersion p version := by
  obtain ⟨_, p', hp', _, hkey⟩ := getKeyVersion_eq_ok.mp h
  rw [hp] at hp'
  cases hp'
  exact ⟨List.mem_of_find?_eq_some hkey, findVersion_version hkey⟩

theorem rotateKey_next {rand : RandRead 32} {now version : ℤ}
    (h : kr.rotateKey name rand now = (kr', .ok version)) :
    (∃ p, kr.policies.lookup name = some p ∧ version = p.latestVersion + 1) ∧
      ∀ name' p, kr.policies.lookup name' = some p →
        ∃ p', kr'.policies.lookup name' = some p' ∧ p.keys <+: p'.keys := by
  constructor
  · obtain ⟨_, p, p', hp, hgen, rfl, _⟩ := rotateKey_eq_ok h
    obtain ⟨_, _, rfl⟩ := generateKeyVersion_eq_ok hgen
    exact ⟨p, hp, rfl⟩
  · intro name' p hp
    have hext : kr.Extends kr' := by
      have hrotate : kr.Extends (kr.rotateKey name rand now).1 := rotateKey_extends rand now
      rwa [h] at hrotate
    obtain ⟨p', hp', he⟩ := hext.2 name' p hp
    exact ⟨p', hp', he.keys⟩

/-- In every keyring that calls have made of a new one, failing calls included, the versions
of each key are numbered from 1 to the latest, those from the minimum on are handed out, a
rotation adds the next one, and a call that fails changes nothing. -/
theorem representation_invariant {tr : KeyringTrace} (hrun : Run step newKeyring tr kr)
    (hload : ∀ data reply, (KeyringOp.unmarshal data, reply) ∉ tr) :
    (∀ name p, kr.policies.lookup name = some p → 1 ≤ p.latestVersion ∧
      p.keys.map Key.version = (List.range p.latestVersion.toNat).map (fun i : ℕ => (i : ℤ) + 1) ∧
      ∀ key ∈ p.keys, key.key.length = 32) ∧
    (∀ name version, (∃ key, kr.getKeyVersion name version = .ok key) ↔
      kr.sealed = false ∧ ∃ p, kr.policies.lookup name = some p ∧
        max 1 p.minDecryptionVersion ≤ (if version = 0 then p.latestVersion else version) ∧
        (if version = 0 then p.latestVersion else version) ≤ p.latestVersion) ∧
    (∀ name version key p, kr.getKeyVersion name version = .ok key →
      kr.policies.lookup name = some p →
      key ∈ p.keys ∧ key.version = if version = 0 then p.latestVersion else version) ∧
    (∀ name rand now kr' version, kr.rotateKey name rand now = (kr', .ok version) →
      (∃ p, kr.policies.lookup name = some p ∧ version = p.latestVersion + 1) ∧
      ∀ name' p, kr.policies.lookup name' = some p →
        ∃ p', kr'.policies.lookup name' = some p' ∧ p.keys <+: p'.keys) ∧
    (∀ op kr' reply, step kr op = some (kr', reply) → reply.failed = true → kr' = kr) := by
  have hwf := run_wellFormed hrun hload
  refine ⟨?_, fun name version => hwf.getKeyVersion_iff, fun name version key p => getKeyVersion_mem,
    fun name rand now kr' version => rotateKey_next, fun op kr' reply => step_failed⟩
  intro name p hp
  obtain ⟨hn, hpos⟩ := hwf.numbered hp
  exact ⟨hpos, hn.versions, hn.material⟩

/-- A key with two versions, the second the least to decrypt with; one rotation has failed. -/
theorem representation_invariant_rotated : ∃ (tr : KeyringTrace) (kr : Keyring),
    Run step newKeyring tr kr ∧ (∃ key, kr.getKeyVersion ['k'] 2 = .ok key) ∧
      ¬ ∃ key, kr.getKeyVersion ['k'] 1 = .ok key := by
  have hrun : ∃ (r₁ r₂ r₃ r₄ : KeyringReply) (kr : Keyring) (p : KeyPolicy), Run step newKeyring
      [(.createKey ['k'] .aes256GCM [.withExportable true] (some ⟨List.replicate 32 0, rfl⟩) 0, r₁),
        (.rotateKey ['k'] (some ⟨List.replicate 32 1, rfl⟩) 1, r₂), (.rotateKey ['k'] none 2, r₃),
        (.updateConfig ['k'] [.withMinDecryptionVersion 2] 3, r₄)] kr ∧
      kr.sealed = false ∧ kr.policies.lookup ['k'] = some p ∧ p.minDecryptionVersion = 2 ∧
      p.latestVersion = 2 :=
    ⟨_, _, _, _, _, _, ⟨_, rfl, _, rfl, _, rfl, _, rfl, rfl⟩, rfl, rfl, rfl, rfl⟩
  obtain ⟨r₁, r₂, r₃, r₄, kr, p, hrun, hs, hp, hmin, hlatest⟩ := hrun
  have hinv := (representation_invariant hrun (by simp)).2.1
  refine ⟨_, kr, hrun, (hinv ['k'] 2).mpr ⟨hs, p, hp, ?_, ?_⟩, ?_⟩
  · simp [hmin]
  · simp [hlatest]
  · rw [hinv]
    rintro ⟨_, p', hp', hlo, _⟩
    rw [hp] at hp'
    cases hp'
    simp [hmin] at hlo

end Keyring
end GrpcVault
