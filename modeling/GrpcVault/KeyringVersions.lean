import GrpcVault.Keyring

/-!
# Key versions over the life of a keyring

`KeyPolicy.Numbered` says that the versions of a policy are exactly
`1, 2, …, latestVersion` in that order, each with 32 bytes of material.
`Keyring.Extends` relates a keyring to a later one in which no policy was
dropped and no existing version changed: what `GetKeyVersion` hands out for a
version number stays what it is.
-/

namespace GrpcVault

open GoText

structure KeyPolicy.Numbered (p : KeyPolicy) : Prop where
  nonneg : 0 ≤ p.latestVersion
  versions : p.keys.map Key.version =
    (List.range p.latestVersion.toNat).map fun i : ℕ => (i : ℤ) + 1
  material : ∀ key ∈ p.keys, key.key.length = 32

namespace KeyPolicy

variable {p p' : KeyPolicy}

theorem Numbered.version_mem (h : p.Numbered) {key : Key} (hk : key ∈ p.keys) :
    1 ≤ key.version ∧ key.version ≤ p.latestVersion := by
  have hmem : key.version ∈ (List.range p.latestVersion.toNat).map fun i : ℕ => (i : ℤ) + 1 := by
    rw [← h.versions]
    exact List.mem_map_of_mem hk
  obtain ⟨i, hi, he⟩ := List.mem_map.mp hmem
  have hlt := List.mem_range.mp hi
  omega

theorem Numbered.findVersion_mem (h : p.Numbered) {version : ℤ} {key : Key}
    (hf : Keyring.findVersion p version = some key) :
    1 ≤ version ∧ version ≤ p.latestVersion ∧ key.key.length = 32 := by
  have hv := Keyring.findVersion_version hf
  have hk : key ∈ p.keys := List.mem_of_find?_eq_some hf
  have hm := h.version_mem hk
  exact ⟨by omega, by omega, h.material key hk⟩

theorem numbered_newPolicy (name : Str) (keyType : KeyType) (now : ℤ) :
    (newPolicy name keyType now).Numbered where
  nonneg := le_rfl
  versions := rfl
  material _ h := by cases h

theorem Numbered.generate (h : p.Numbered) {rand : RandRead 32} {now : ℤ}
    (hg : generateKeyVersion p rand now = .ok p') :
    p'.Numbered ∧ p'.latestVersion = p.latestVersion + 1 := by
  obtain ⟨keyBytes, _, rfl⟩ := generateKeyVersion_eq_ok hg
  have hn := h.nonneg
  refine ⟨⟨by simp only; omega, ?_, ?_⟩, rfl⟩
  · have hto : (p.latestVersion + 1).toNat = p.latestVersion.toNat + 1 := by omega
    have hcast : ((p.latestVersion.toNat : ℕ) : ℤ) = p.latestVersion := Int.toNat_of_nonneg hn
    simp only [List.map_append, h.versions, List.map_cons, List.map_nil, hto, List.range_succ,
      hcast]
  · intro key hk
    rcases List.mem_append.mp hk with hold | hnew
    · exact h.material key hold
    · rw [List.mem_singleton.mp hnew]
      exact keyBytes.property

/-- The version just generated is the one that `0` resolves to. -/
theorem Numbered.findVersion_generate (h : p.Numbered) {rand : RandRead 32} {now : ℤ}
    (hg : generateKeyVersion p rand now = .ok p') :
    ∃ keyBytes : { b : Bytes // b.length = 32 }, rand = some keyBytes ∧
      Keyring.findVersion p' p'.latestVersion =
        some { version := p'.latestVersion, key := keyBytes, type := p.type, createdAt := now } := by
  obtain ⟨keyBytes, hr, rfl⟩ := generateKeyVersion_eq_ok hg
  refine ⟨keyBytes, hr, ?_⟩
  have hnone : p.keys.find? (fun key => key.version = p.latestVersion + 1) = none := by
    apply List.find?_eq_none.mpr
    intro key hk
    have hm := (h.version_mem hk).2
    simp only [decide_eq_true_eq]
    omega
  simp only [Keyring.findVersion, List.find?_append, hnone, Option.none_or]
  simp

/-- The same name and minimum, at least as many versions, the old ones unchanged. -/
structure Extends (p p' : KeyPolicy) : Prop where
  min : p'.minDecryptionVersion = p.minDecryptionVersion
  latest : p.latestVersion ≤ p'.latestVersion
  keys : p.keys <+: p'.keys

theorem Extends.refl (p : KeyPolicy) : p.Extends p := ⟨rfl, le_rfl, List.prefix_rfl⟩

theorem extends_generate {rand : RandRead 32} {now : ℤ}
    (hg : generateKeyVersion p rand now = .ok p') (updated : ℤ) :
    p.Extends { p' with updatedAt := updated } := by
  obtain ⟨keyBytes, _, rfl⟩ := generateKeyVersion_eq_ok hg
  exact ⟨rfl, by simp only; omega, List.prefix_append _ _⟩

theorem Extends.findVersion (h : p.Extends p') {version : ℤ} {key : Key}
    (hf : Keyring.findVersion p version = some key) :
    Keyring.findVersion p' version = some key :=
  h.keys.find?_eq_some hf

end KeyPolicy

namespace Keyring

variable {kr kr' : Keyring} {name : Str}

structure WellFormed (kr : Keyring) : Prop where
  numbered : ∀ {name p}, kr.policies.lookup name = some p → p.Numbered ∧ 1 ≤ p.latestVersion

def DefaultMin (kr : Keyring) : Prop :=
  ∀ name p, kr.policies.lookup name = some p → p.minDecryptionVersion = 1

def Extends (kr kr' : Keyring) : Prop :=
  kr'.sealed = kr.sealed ∧ ∀ name p, kr.policies.lookup name = some p →
    ∃ p', kr'.policies.lookup name = some p' ∧ p.Extends p'

theorem extends_refl (kr : Keyring) : kr.Extends kr :=
  ⟨rfl, fun _ p h => ⟨p, h, KeyPolicy.Extends.refl p⟩⟩

theorem extends_insert {policy : KeyPolicy}
    (h : ∀ p, kr.policies.lookup name = some p → p.Extends policy) :
    kr.Extends { kr with policies := kr.policies.insert name policy } := by
  refine ⟨rfl, ?_⟩
  intro name' p hp
  by_cases he : name' = name
  · subst he
    exact ⟨policy, Finmap.lookup_insert _, h p hp⟩
  · exact ⟨p, by rw [Finmap.lookup_insert_of_ne _ he, hp], KeyPolicy.Extends.refl p⟩

theorem createKey_extends (keyType : KeyType) (opts : List KeyOption) (rand : RandRead 32)
    (now : ℤ) : kr.Extends (kr.createKey name keyType opts rand now).1 := by
  cases h : kr.createKey name keyType opts rand now with
  | mk kr' r =>
      cases r with
      | error e => exact createKey_error h ▸ extends_refl kr
      | ok policy =>
          obtain ⟨_, hnone, _, rfl⟩ := createKey_eq_ok h
          apply extends_insert
          intro p hp
          rw [hnone] at hp
          cases hp

theorem rotateKey_extends (rand : RandRead 32) (now : ℤ) :
    kr.Extends (kr.rotateKey name rand now).1 := by
  cases h : kr.rotateKey name rand now with
  | mk kr' r =>
      cases r with
      | error e => exact rotateKey_error h ▸ extends_refl kr
      | ok version =>
          obtain ⟨_, policy, policy', hl, hg, _, rfl⟩ := rotateKey_eq_ok h
          apply extends_insert
          intro p hp
          rw [hl] at hp
          cases hp
          exact KeyPolicy.extends_generate hg now

/-- Version numbers keep their key in every later keyring. -/
theorem Extends.getKeyVersion (h : kr.Extends kr') {version : ℤ} (hv : version ≠ 0) {key : Key}
    (hk : kr.getKeyVersion name version = .ok key) : kr'.getKeyVersion name version = .ok key := by
  obtain ⟨hs, p, hp, hm, hf⟩ := getKeyVersion_eq_ok.mp hk
  obtain ⟨p', hp', he⟩ := h.2 name p hp
  simp only [resolveVersion, if_neg hv] at hm hf
  apply getKeyVersion_eq_ok.mpr
  refine ⟨h.1.trans hs, p', hp', ?_, ?_⟩
  · simpa only [resolveVersion, if_neg hv, he.min] using hm
  · simpa only [resolveVersion, if_neg hv] using he.findVersion hf

theorem getKeyVersion_version {version : ℤ} {key : Key} (hmin : kr.DefaultMin)
    (hk : kr.getKeyVersion name version = .ok key) :
    1 ≤ key.version ∧ kr.getKeyVersion name key.version = .ok key ∧
      (version ≠ 0 → key.version = version) := by
  obtain ⟨hs, p, hp, hm, hf⟩ := getKeyVersion_eq_ok.mp hk
  have hv := findVersion_version hf
  rw [hmin name p hp] at hm
  have hne : key.version ≠ 0 := by omega
  refine ⟨by omega, getKeyVersion_eq_ok.mpr ⟨hs, p, hp, ?_, ?_⟩, ?_⟩
  · simp only [resolveVersion, if_neg hne, hmin name p hp]
    omega
  · rw [resolveVersion, if_neg hne, hv]
    exact hf
  · intro h0
    rw [hv, resolveVersion, if_neg h0]

theorem wellFormed_new : newKeyring.WellFormed := ⟨fun h => by cases h⟩

theorem WellFormed.insert (hwf : kr.WellFormed) {policy : KeyPolicy} (hn : policy.Numbered)
    (hpos : 1 ≤ policy.latestVersion) :
    WellFormed { kr with policies := kr.policies.insert name policy } := by
  refine ⟨fun h => ?_⟩
  rcases GoMap.lookup_insert_cases h with ⟨_, rfl⟩ | ⟨_, hold⟩
  · exact ⟨hn, hpos⟩
  · exact hwf.numbered hold

theorem DefaultMin.insert (hmin : kr.DefaultMin) {policy : KeyPolicy}
    (h1 : policy.minDecryptionVersion = 1) :
    DefaultMin { kr with policies := kr.policies.insert name policy } := by
  intro name' p h
  rcases GoMap.lookup_insert_cases h with ⟨_, rfl⟩ | ⟨_, hold⟩
  · exact h1
  · exact hmin name' p hold

theorem WellFormed.createKey (hwf : kr.WellFormed) (keyType : KeyType) (rand : RandRead 32)
    (now : ℤ) : (kr.createKey name keyType [] rand now).1.WellFormed := by
  cases h : kr.createKey name keyType [] rand now with
  | mk kr' r =>
      cases r with
      | error e => exact createKey_error h ▸ hwf
      | ok policy =>
          obtain ⟨_, _, hg, rfl⟩ := createKey_eq_ok h
          obtain ⟨hn, hl⟩ := (KeyPolicy.numbered_newPolicy name keyType now).generate hg
          exact hwf.insert hn (by simp only [hl, newPolicy]; omega)

theorem WellFormed.rotateKey (hwf : kr.WellFormed) (rand : RandRead 32) (now : ℤ) :
    (kr.rotateKey name rand now).1.WellFormed := by
  cases h : kr.rotateKey name rand now with
  | mk kr' r =>
      cases r with
      | error e => exact rotateKey_error h ▸ hwf
      | ok version =>
          obtain ⟨_, policy, policy', hl, hg, _, rfl⟩ := rotateKey_eq_ok h
          obtain ⟨hn, hpos⟩ := hwf.numbered hl
          obtain ⟨hn', hl'⟩ := hn.generate hg
          exact hwf.insert ⟨hn'.nonneg, hn'.versions, hn'.material⟩ (by simp only; omega)

theorem DefaultMin.createKey (hmin : kr.DefaultMin) (keyType : KeyType) (rand : RandRead 32)
    (now : ℤ) : (kr.createKey name keyType [] rand now).1.DefaultMin := by
  cases h : kr.createKey name keyType [] rand now with
  | mk kr' r =>
      cases r with
      | error e => exact createKey_error h ▸ hmin
      | ok policy =>
          obtain ⟨_, _, hg, rfl⟩ := createKey_eq_ok h
          obtain ⟨_, _, rfl⟩ := generateKeyVersion_eq_ok hg
          exact hmin.insert rfl

theorem DefaultMin.rotateKey (hmin : kr.DefaultMin) (rand : RandRead 32) (now : ℤ) :
    (kr.rotateKey name rand now).1.DefaultMin := by
  cases h : kr.rotateKey name rand now with
  | mk kr' r =>
      cases r with
      | error e => exact rotateKey_error h ▸ hmin
      | ok version =>
          obtain ⟨_, policy, policy', hl, hg, _, rfl⟩ := rotateKey_eq_ok h
          obtain ⟨_, _, rfl⟩ := generateKeyVersion_eq_ok hg
          exact hmin.insert (hmin name policy hl)

end Keyring
end GrpcVault
