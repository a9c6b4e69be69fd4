import GrpcVault.KeyringRuns

/-!
# The cipher cache of the keyring

`GetCipher` keeps the ciphers it builds, filed under name and version. What is in the cache
always belongs to the key that the policy has for that version, so a keyring that builds every
cipher anew gives the same answers. `GetCipher` does not look at the minimum decryption
version, with or without the cache: it goes beyond `GetKeyVersion` for exactly the versions
below the minimum.
-/

namespace GrpcVault.Keyring

open GoText EventSystem

def buildCipher (kr : Keyring) (name : Str) (version : ℤ) : Except KeyringError Aes.Cipher :=
  if kr.sealed then .error .keyringSealed
  else
    match kr.policies.lookup name with
    | none => .error .keyNotFound
    | some policy =>
        match findVersion policy (resolveVersion policy version) with
        | none => .error .versionNotFound
        | some key =>
            match Aes.newCipher key.key key.version with
            | .error e => .error (.cipher e)
            | .ok cipher => .ok cipher

/-- The operations of a keyring that never caches. -/
def uncachedStep : Step Keyring KeyringOp KeyringReply
  | kr, .getCipher name version => some (kr, .cipher (kr.buildCipher name version))
  | kr, op => step kr op

def uncached (kr : Keyring) : Keyring := { kr with ciphers := ∅ }

def Coherent (kr : Keyring) : Prop :=
  ∀ name version c, kr.cachedCipher name version = some c →
    ∃ p key, kr.policies.lookup name = some p ∧ findVersion p version = some key ∧
      Aes.newCipher key.key key.version = .ok c

variable {kr kr' : Keyring} {name name' : Str} {version version' : ℤ} {c : Aes.Cipher}

theorem coherent_new : newKeyring.Coherent := fun _ _ _ h => by cases h

/-- The entries that stay in the cache are right if their policies keep the versions. -/
theorem Coherent.of_policies (h : kr.Coherent)
    (hcached : ∀ name version c, kr'.cachedCipher name version = some c →
      kr.cachedCipher name version = some c)
    (hpolicy : ∀ name version p key, kr.policies.lookup name = some p →
      kr'.cachedCipher name version ≠ none → findVersion p version = some key →
      ∃ p', kr'.policies.lookup name = some p' ∧ findVersion p' version = some key) :
    kr'.Coherent := by
  intro name version c hc
  obtain ⟨p, key, hp, hkey, hnew⟩ := h name version c (hcached name version c hc)
  obtain ⟨p', hp', hkey'⟩ := hpolicy name version p key hp (by simp [hc]) hkey
  exact ⟨p', key, hp', hkey', hnew⟩

theorem Coherent.putPolicy (h : kr.Coherent) {p' : KeyPolicy}
    (hkeep : ∀ p version key, kr.policies.lookup name = some p →
      findVersion p version = some key → findVersion p' version = some key) :
    (kr.putPolicy name p').Coherent := by
  refine h.of_policies (fun name version c hc => hc) ?_
  intro name' version p key hp _ hkey
  by_cases hne : name' = name
  · subst hne
    exact ⟨p', Finmap.lookup_insert _, hkeep p version key hp hkey⟩
  · exact ⟨p, (Finmap.lookup_insert_of_ne _ hne).trans hp, hkey⟩

theorem cachedCipher_cacheCipher :
    (kr.cacheCipher name version c).cachedCipher name' version' =
      if name' = name ∧ version' = version then some c else kr.cachedCipher name' version' := by
  unfold cachedCipher cacheCipher
  by_cases hname : name' = name
  · subst hname
    rw [Finmap.lookup_insert]
    by_cases hversion : version' = version
    · subst hversion
      simp
    · cases kr.ciphers.lookup name' <;> simp [Finmap.lookup_insert_of_ne _ hversion, hversion]
  · simp [Finmap.lookup_insert_of_ne _ hname, hname]

theorem step_coherent {op : KeyringOp} {reply : KeyringReply} (h : kr.Coherent)
    (hstep : step kr op = some (kr', reply)) : kr'.Coherent := by
  refine step_invariant h (fun hc => ?_) hstep
  cases hc with
  | read => exact h
  | created hnone =>
      apply h.putPolicy
      intro p version key hp
      rw [hnone] at hp
      cases hp
  | @rotated name rand now p p' hp hgen =>
      apply h.putPolicy
      intro q version key hq hkey
      rw [hp] at hq
      cases hq
      exact (KeyPolicy.extends_generate hgen now).findVersion hkey
  | @configured name opts now p hp =>
      apply h.putPolicy
      intro q version key hq hkey
      rw [hp] at hq
      cases hq
      rw [← hkey, findVersion, findVersion, (applyOptions_versions opts p).2]
  | @deleted name =>
      apply h.of_policies
      · intro name' version c hc
        by_cases hne : name' = name
        · subst hne
          simp [cachedCipher, Finmap.lookup_erase] at hc
        · simpa [cachedCipher, Finmap.lookup_erase_ne hne] using hc
      · intro name' version p key hp hc hkey
        by_cases hne : name' = name
        · subst hne
          simp [cachedCipher, Finmap.lookup_erase] at hc
        · exact ⟨p, (Finmap.lookup_erase_ne hne).trans hp, hkey⟩
  | @cached name version p key c hp hkey hnew =>
      intro name' version' c' hc
      rw [cachedCipher_cacheCipher] at hc
      split at hc
      · rename_i heq
        obtain ⟨rfl, rfl⟩ := heq
        cases hc
        exact ⟨p, key, hp, hkey, hnew⟩
      · exact h name' version' c' hc
  | sealed => exact fun _ _ _ hc => by cases hc
  | loaded => exact fun _ _ _ hc => by cases hc

theorem run_coherent {tr : KeyringTrace} (hrun : Run step newKeyring tr kr) : kr.Coherent :=
  hrun.preserves (fun _ _ _ _ hm hstep => step_coherent hm hstep) coherent_new

theorem Coherent.getCipher_eq (h : kr.Coherent) (name : Str) (version : ℤ) :
    (kr.getCipher name version).2 = kr.buildCipher name version := by
  unfold getCipher buildCipher
  cases kr.sealed with
  | true => rfl
  | false =>
      cases hp : kr.policies.lookup name with
      | none => rfl
      | some p =>
          simp only [Bool.false_eq_true, if_false]
          cases hc : kr.cachedCipher name (resolveVersion p version) with
          | some c =>
              obtain ⟨q, key, hq, hkey, hnew⟩ := h _ _ _ hc
              rw [hp] at hq
              cases hq
              simp only [hkey, hnew]
          | none =>
              cases findVersion p (resolveVersion p version) with
              | none => rfl
              | some key => cases hnew : Aes.newCipher key.key key.version <;> simp only [hnew]

theorem getCipher_uncached (kr : Keyring) (name : Str) (version : ℤ) :
    (kr.getCipher name version).1.uncached = kr.uncached := by
  cases h : kr.getCipher name version with
  | mk kr₁ result =>
      cases result with
      | error e => rw [getCipher_error h]
      | ok c =>
          obtain ⟨_, p, _, ⟨_, rfl⟩ | ⟨_, _, _, rfl⟩⟩ := getCipher_eq_ok h <;> rfl

theorem step_uncached {op : KeyringOp} (hop : ∀ name version, op ≠ .getCipher name version) :
    step kr.uncached op = (step kr op).map (Prod.map uncached id) := by
  obtain ⟨policies, ciphers, sealed⟩ := kr
  cases op with
  | createKey name keyType opts rand now =>
      simp only [step, createKey, uncached]
      cases sealed with
      | true => rfl
      | false =>
          cases policies.lookup name with
          | some p => rfl
          | none =>
              cases generateKeyVersion (applyOptions opts (newPolicy name keyType now)) rand now <;>
                rfl
  | getKeyVersion name version => rfl
  | getCipher name version => exact absurd rfl (hop name version)
  | rotateKey name rand now =>
      simp only [step, rotateKey, uncached]
      cases sealed with
      | true => rfl
      | false =>
          cases policies.lookup name with
          | none => rfl
          | some p => cases hgen : generateKeyVersion p rand now <;> simp [hgen, uncached]
  | deleteKey name =>
      simp only [step, deleteKey, uncached]
      cases sealed with
      | true => rfl
      | false =>
          cases policies.lookup name with
          | none => rfl
          | some p =>
              have hempty : (∅ : GoMap Str (GoMap ℤ Aes.Cipher)).erase name = ∅ := rfl
              cases hd : p.deletionAllowed <;> simp [hd, uncached, hempty]
  | updateConfig name opts now =>
      simp only [step, updateConfig, uncached]
      cases sealed with
      | true => rfl
      | false => cases policies.lookup name <;> rfl
  | sealKeyring => rfl
  | unmarshal data => cases data <;> rfl

theorem Coherent.uncachedStep_eq (h : kr.Coherent) (op : KeyringOp) :
    uncachedStep kr.uncached op = (step kr op).map (Prod.map uncached id) := by
  by_cases hop : ∀ name version, op ≠ .getCipher name version
  · rw [← step_uncached hop]
    cases op with
    | getCipher name version => exact absurd rfl (hop name version)
    | _ => rfl
  · push Not at hop
    obtain ⟨name, version, rfl⟩ := hop
    simp only [uncachedStep, step, Option.map_some, Prod.map, id, getCipher_uncached,
      h.getCipher_eq]
    rfl

/-- Whatever is done to a keyring, one that never caches does the same and answers the same. -/
theorem cipher_cache_unobservable (tr : KeyringTrace) (kr' : Keyring) :
    Run uncachedStep newKeyring tr kr' ↔ ∃ kr, Run step newKeyring tr kr ∧ kr.uncached = kr' :=
  run_map_iff (f := uncached) (I := Coherent) (fun _ _ _ _ hm hstep => step_coherent hm hstep)
    (fun _ op hm => hm.uncachedStep_eq op) coherent_new

theorem buildCipher_eq_ok :
    kr.buildCipher name version = .ok c ↔
      kr.sealed = false ∧ ∃ p key, kr.policies.lookup name = some p ∧
        findVersion p (resolveVersion p version) = some key ∧
        Aes.newCipher key.key key.version = .ok c := by
  unfold buildCipher
  cases kr.sealed with
  | true => simp
  | false =>
      cases kr.policies.lookup name with
      | none => simp
      | some p =>
          cases hkey : findVersion p (resolveVersion p version) with
          | none => simp [hkey]
          | some key => cases hnew : Aes.newCipher key.key key.version <;> simp [hkey, hnew]

/-- `GetCipher` hands out the cipher of a key only where `GetKeyVersion` hands out that key. -/
def Enforced (kr : Keyring) (name : Str) (version : ℤ) : Prop :=
  ∀ c, (kr.getCipher name version).2 = .ok c →
    ∃ key, kr.getKeyVersion name version = .ok key ∧ c = { key := key.key, version := key.version }

/-- The version that is asked for is not one that the keyring holds below the minimum. -/
def Permitted (kr : Keyring) (name : Str) (version : ℤ) : Prop :=
  ∀ p key, kr.sealed = false → kr.policies.lookup name = some p →
    findVersion p (resolveVersion p version) = some key → Aes.validKeySize key.key →
    p.minDecryptionVersion ≤ resolveVersion p version

theorem Coherent.enforced_iff (h : kr.Coherent) :
    kr.Enforced name version ↔ kr.Permitted name version := by
  unfold Enforced
  simp only [h.getCipher_eq, buildCipher_eq_ok]
  constructor
  · intro henforced p key hs hp hkey hsize
    have hnew : Aes.newCipher key.key key.version = .ok ⟨key.key, key.version⟩ := if_pos hsize
    obtain ⟨key', hget, _⟩ := henforced _ ⟨hs, p, key, hp, hkey, hnew⟩
    obtain ⟨_, q, hq, hmin, _⟩ := getKeyVersion_eq_ok.mp hget
    rw [hp] at hq
    cases hq
    exact hmin
  · rintro hpermitted c ⟨hs, p, key, hp, hkey, hnew⟩
    obtain ⟨hsize, rfl⟩ := Aes.newCipher_eq_ok hnew
    exact ⟨key, getKeyVersion_eq_ok.mpr ⟨hs, p, hp, hpermitted p key hs hp hkey hsize, hkey⟩, rfl⟩

def Spares (name : Str) : KeyringOp → Prop
  | .updateConfig name' _ _ => name' ≠ name
  | .deleteKey name' => name' ≠ name
  | .sealKeyring | .unmarshal _ => False
  | _ => True

def HasMin (name : Str) (m : ℤ) (kr : Keyring) : Prop :=
  ∃ p, kr.policies.lookup name = some p ∧ p.minDecryptionVersion = m

theorem HasMin.putPolicy_ne {m : ℤ} (h : HasMin name m kr) (hne : name' ≠ name) (p : KeyPolicy) :
    HasMin name m (kr.putPolicy name' p) := by
  obtain ⟨q, hq, hm⟩ := h
  exact ⟨q, (Finmap.lookup_insert_of_ne _ hne.symm).trans hq, hm⟩

theorem step_hasMin {op : KeyringOp} {reply : KeyringReply} {m : ℤ} (hop : Spares name op)
    (h : HasMin name m kr) (hstep : step kr op = some (kr', reply)) : HasMin name m kr' := by
  refine step_invariant h (fun hc => ?_) hstep
  cases hc with
  | read => exact h
  | created hnone =>
      refine h.putPolicy_ne ?_ _
      rintro rfl
      obtain ⟨p, hp, _⟩ := h
      rw [hnone] at hp
      cases hp
  | @rotated name' rand now p p' hp hgen =>
      by_cases hne : name' = name
      · subst hne
        obtain ⟨q, hq, hm⟩ := h
        rw [hp] at hq
        cases hq
        exact ⟨_, Finmap.lookup_insert _, (KeyPolicy.extends_generate hgen now).min.trans hm⟩
      · exact h.putPolicy_ne hne _
  | configured => exact h.putPolicy_ne hop _
  | deleted =>
      obtain ⟨p, hp, hm⟩ := h
      exact ⟨p, (Finmap.lookup_erase_ne (Ne.symm hop)).trans hp, hm⟩
  | cached => exact h
  | sealed => exact hop.elim
  | loaded => exact hop.elim

theorem hasMin_of_updateConfig {m now : ℤ}
    (h : step kr (.updateConfig name [.withMinDecryptionVersion m] now) =
      some (kr', .done (.ok ()))) : HasMin name m kr' := by
  cases hc : kr.updateConfig name [.withMinDecryptionVersion m] now with
  | mk kr₁ result =>
      simp only [step, hc, Option.some.injEq, Prod.mk.injEq, KeyringReply.done.injEq] at h
      obtain ⟨rfl, rfl⟩ := h
      obtain ⟨p, _, rfl⟩ := updateConfig_eq_ok hc
      exact ⟨_, Finmap.lookup_insert _, rfl⟩

theorem HasMin.getKeyVersion_ge {m : ℤ} {key : Key} (h : HasMin name m kr)
    (hget : kr.getKeyVersion name version = .ok key) : m ≤ key.version := by
  obtain ⟨p, hp, rfl⟩ := h
  obtain ⟨_, q, hq, hmin, hkey⟩ := getKeyVersion_eq_ok.mp hget
  rw [hp] at hq
  cases hq
  rw [findVersion_version hkey]
  exact hmin

theorem HasMin.enforced_iff {m : ℤ} (h : HasMin name m kr) (hcoherent : kr.Coherent) :
    kr.Enforced name version ↔ ∀ c, (kr.getCipher name version).2 = .ok c → m ≤ c.version := by
  constructor
  · intro henforced c hc
    obtain ⟨key, hget, rfl⟩ := henforced c hc
    exact h.getKeyVersion_ge hget
  · intro hge
    rw [hcoherent.enforced_iff]
    intro p key hs hp hkey hsize
    obtain ⟨q, hq, rfl⟩ := h
    rw [hp] at hq
    cases hq
    have hnew : Aes.newCipher key.key key.version = .ok ⟨key.key, key.version⟩ := if_pos hsize
    have hc : kr.buildCipher name version = .ok ⟨key.key, key.version⟩ :=
      buildCipher_eq_ok.mpr ⟨hs, p, key, hp, hkey, hnew⟩
    rw [← findVersion_version hkey]
    exact hge _ ((hcoherent.getCipher_eq name version).trans hc)

/-- In every keyring that calls have made of a new one, `GetCipher` keeps to the keys that
`GetKeyVersion` hands out exactly where the version asked for is not held below the minimum.
After the minimum was set to `m`, and until the key is configured again or dropped,
`GetKeyVersion` hands out no version below `m`, and `GetCipher` neither where it keeps to
those keys. -/
theorem min_version_enforced_iff {tr : KeyringTrace} (hrun : Run step newKeyring tr kr)
    (name : Str) (version : ℤ) :
    (kr.Enforced name version ↔ kr.Permitted name version) ∧
    ∀ tr₁ tr₂ m now,
      tr = tr₁ ++ (.updateConfig name [.withMinDecryptionVersion m] now, .done (.ok ())) :: tr₂ →
      (∀ x ∈ tr₂, Spares name x.1) →
      (∀ key, kr.getKeyVersion name version = .ok key → m ≤ key.version) ∧
      (kr.Enforced name version ↔
        ∀ c, (kr.getCipher name version).2 = .ok c → m ≤ c.version) := by
  have hcoherent := run_coherent hrun
  refine ⟨hcoherent.enforced_iff, ?_⟩
  rintro tr₁ tr₂ m now rfl hspares
  obtain ⟨kr₁, kr₂, _, hconfig, hrest⟩ := run_append_cons.mp hrun
  have hmin : HasMin name m kr := hrest.invariant (A := fun x => Spares name x.1)
    (fun _ _ _ _ hop hm hstep => step_hasMin hop hm hstep) hspares (hasMin_of_updateConfig hconfig)
  exact ⟨fun key hget => hmin.getKeyVersion_ge hget, hmin.enforced_iff hcoherent⟩

def belowMinTrace (r₁ r₂ : KeyringReply) : KeyringTrace :=
  [(.createKey ['k'] .aes256GCM [] (some ⟨List.replicate 32 0, rfl⟩) 0, r₁),
    (.rotateKey ['k'] (some ⟨List.replicate 32 1, rfl⟩) 1, r₂)] ++
  [(.updateConfig ['k'] [.withMinDecryptionVersion 2] 2, .done (.ok ()))]

/-- Version 2 is not below the minimum 2. -/
theorem min_version_enforced_second : ∃ (tr : KeyringTrace) (kr : Keyring),
    Run step newKeyring tr kr ∧ kr.Enforced ['k'] 2 ∧
      ∀ c, (kr.getCipher ['k'] 2).2 = .ok c → 2 ≤ c.version := by
  have hrun : ∃ (r₁ r₂ : KeyringReply) (kr : Keyring) (p : KeyPolicy),
      Run step newKeyring (belowMinTrace r₁ r₂) kr ∧
      kr.policies.lookup ['k'] = some p ∧ p.minDecryptionVersion = 2 :=
    ⟨_, _, _, _, ⟨_, rfl, _, rfl, _, rfl, rfl⟩, rfl, rfl⟩
  obtain ⟨r₁, r₂, kr, p, hrun, hp, hmin⟩ := hrun
  obtain ⟨hiff, hset⟩ := min_version_enforced_iff hrun ['k'] 2
  have henforced : kr.Enforced ['k'] 2 := by
    refine hiff.mpr fun q key _ hq _ _ => ?_
    rw [hp] at hq
    cases hq
    simp [hmin, resolveVersion]
  exact ⟨_, kr, hrun, henforced, (hset _ [] 2 2 rfl (by simp)).2.mp henforced⟩

/-- `GetCipher` hands out version 1 after the minimum was set to 2. -/
theorem cipher_below_min : ∃ (r₁ r₂ : KeyringReply) (kr : Keyring) (c : Aes.Cipher),
    Run step newKeyring (belowMinTrace r₁ r₂) kr ∧ (kr.getCipher ['k'] 1).2 = .ok c ∧
      c.version = 1 ∧ kr.getKeyVersion ['k'] 1 = .error .versionBelowMin :=
  ⟨_, _, _, _, ⟨_, rfl, _, rfl, _, rfl, rfl⟩, rfl, rfl, rfl⟩

end GrpcVault.Keyring
