import GrpcVault.AesEnvelope

/-!
# The keyring

Package `keyring`: named keys with numbered versions. Creating a key and
rotating it append a version with fresh material; sealing clears everything and
closes the keyring. Operations that change the keyring return it together with
their result, and leave it as it was when they fail.
-/

namespace GrpcVault

open GoText

inductive KeyType where
  | aes256GCM
  | chacha20Poly1305
  | rsa2048
  | rsa4096
  | ecdsaP256
  | ecdsaP384
  | ed25519
  | fpeFF1
  deriving DecidableEq

inductive KeyringError where
  | keyNotFound
  | versionNotFound
  | keyringSealed
  | versionBelowMin
  | keyExists
  | deletionNotAllowed
  | random
  | cipher (e : Aes.AesError)
  deriving DecidableEq

/-- The texts of the package's errors; a failing random source has its own. -/
def KeyringError.message : KeyringError → String
  | .keyNotFound => "key not found"
  | .versionNotFound => "key version not found"
  | .keyringSealed => "keyring is sealed"
  | .versionBelowMin => "key version below minimum allowed"
  | .keyExists => "key already exists"
  | .deletionNotAllowed => "deletion not allowed for this key"
  | .random => ""
  | .cipher e => e.message

structure Key where
  version : ℤ
  key : Bytes
  type : KeyType
  createdAt : ℤ
  deriving DecidableEq

structure KeyPolicy where
  name : Str
  type : KeyType
  latestVersion : ℤ
  minDecryptionVersion : ℤ
  minEncryptionVersion : ℤ
  exportable : Bool
  derived : Bool
  convergentEncryption : Bool
  autoRotatePeriod : ℤ
  deletionAllowed : Bool
  keys : List Key
  createdAt : ℤ
  updatedAt : ℤ
  deriving DecidableEq

/-- The `With…` functions of the package. -/
inductive KeyOption where
  | withExportable (exportable : Bool)
  | withDerived (derived : Bool)
  | withConvergentEncryption (convergent : Bool)
  | withMinDecryptionVersion (version : ℤ)
  | withMinEncryptionVersion (version : ℤ)
  | withAutoRotatePeriod (seconds : ℤ)
  | withDeletionAllowed (allowed : Bool)

def KeyOption.apply : KeyOption → KeyPolicy → KeyPolicy
  | .withExportable exportable, p => { p with exportable }
  | .withDerived derived, p => { p with derived }
  | .withConvergentEncryption convergent, p => { p with convergentEncryption := convergent }
  | .withMinDecryptionVersion version, p => { p with minDecryptionVersion := version }
  | .withMinEncryptionVersion version, p => { p with minEncryptionVersion := version }
  | .withAutoRotatePeriod seconds, p => { p with autoRotatePeriod := seconds }
  | .withDeletionAllowed allowed, p => { p with deletionAllowed := allowed }

def applyOptions (opts : List KeyOption) (policy : KeyPolicy) : KeyPolicy :=
  opts.foldl (fun p opt => opt.apply p) policy

/-- Every key type gets 32 bytes of material. -/
def generateKeyVersion (policy : KeyPolicy) (rand : RandRead 32) (now : ℤ) :
    Except KeyringError KeyPolicy :=
  match rand with
  | none => .error .random
  | some keyBytes =>
      let latest := policy.latestVersion + 1
      .ok { policy with
        latestVersion := latest
        keys := policy.keys ++
          [{ version := latest, key := keyBytes, type := policy.type, createdAt := now }] }

structure Keyring where
  policies : GoMap Str KeyPolicy
  ciphers : GoMap Str (GoMap ℤ Aes.Cipher)
  sealed : Bool

def newKeyring : Keyring := { policies := ∅, ciphers := ∅, sealed := false }

/-- The defaults of a new policy, before options and the first version. -/
def newPolicy (name : Str) (keyType : KeyType) (now : ℤ) : KeyPolicy where
  name := name
  type := keyType
  latestVersion := 0
  minDecryptionVersion := 1
  minEncryptionVersion := 0
  exportable := false
  derived := false
  convergentEncryption := false
  autoRotatePeriod := 0
  deletionAllowed := false
  keys := []
  createdAt := now
  updatedAt := now

namespace Keyring

variable (kr : Keyring)

def createKey (name : Str) (keyType : KeyType) (opts : List KeyOption) (rand : RandRead 32)
    (now : ℤ) : Keyring × Except KeyringError KeyPolicy :=
  if kr.sealed then (kr, .error .keyringSealed)
  else
    match kr.policies.lookup name with
    | some _ => (kr, .error .keyExists)
    | none =>
        match generateKeyVersion (applyOptions opts (newPolicy name keyType now)) rand now with
        | .error e => (kr, .error e)
        | .ok policy => ({ kr with policies := kr.policies.insert name policy }, .ok policy)

def getKey (name : Str) : Except KeyringError KeyPolicy :=
  if kr.sealed then .error .keyringSealed
  else
    match kr.policies.lookup name with
    | none => .error .keyNotFound
    | some policy => .ok policy

def findVersion (policy : KeyPolicy) (version : ℤ) : Option Key :=
  policy.keys.find? fun key => key.version = version

/-- Version 0 stands for the latest one. -/
def resolveVersion (policy : KeyPolicy) (version : ℤ) : ℤ :=
  if version = 0 then policy.latestVersion else version

def getKeyVersion (name : Str) (version : ℤ) : Except KeyringError Key :=
  if kr.sealed then .error .keyringSealed
  else
    match kr.policies.lookup name with
    | none => .error .keyNotFound
    | some policy =>
        if resolveVersion policy version < policy.minDecryptionVersion then
          .error .versionBelowMin
        else
          match findVersion policy (resolveVersion policy version) with
          | some key => .ok key
          | none => .error .versionNotFound

def cachedCipher (name : Str) (version : ℤ) : Option Aes.Cipher :=
  (kr.ciphers.lookup name).bind fun cipherMap => cipherMap.lookup version

def getCipher (name : Str) (version : ℤ) : Keyring × Except KeyringError Aes.Cipher :=
  if kr.sealed then (kr, .error .keyringSealed)
  else
    match kr.policies.lookup name with
    | none => (kr, .error .keyNotFound)
    | some policy =>
        let version := resolveVersion policy version
        match kr.cachedCipher name version with
        | some cipher => (kr, .ok cipher)
        | none =>
            match findVersion policy version with
            | none => (kr, .error .versionNotFound)
            | some key =>
                match Aes.newCipher key.key key.version with
                | .error e => (kr, .error (.cipher e))
                | .ok cipher =>
                    let cipherMap := ((kr.ciphers.lookup name).getD ∅).insert version cipher
                    ({ kr with ciphers := kr.ciphers.insert name cipherMap }, .ok cipher)

def rotateKey (name : Str) (rand : RandRead 32) (now : ℤ) : Keyring × Except KeyringError ℤ :=
  if kr.sealed then (kr, .error .keyringSealed)
  else
    match kr.policies.lookup name with
    | none => (kr, .error .keyNotFound)
    | some policy =>
        match generateKeyVersion policy rand now with
        | .error e => (kr, .error e)
        | .ok policy =>
            ({ kr with policies := kr.policies.insert name { policy with updatedAt := now } },
              .ok policy.latestVersion)

def deleteKey (name : Str) : Keyring × Except KeyringError Unit :=
  if kr.sealed then (kr, .error .keyringSealed)
  else
    match kr.policies.lookup name with
    | none => (kr, .error .keyNotFound)
    | some policy =>
        if !policy.deletionAllowed then (kr, .error .deletionNotAllowed)
        else ({ kr with policies := kr.policies.erase name, ciphers := kr.ciphers.erase name },
          .ok ())

/-- The names in the policy map, in no particular order; a sealed keyring answers too. -/
def listKeys : Finset Str := kr.policies.keys

def updateConfig (name : Str) (opts : List KeyOption) (now : ℤ) :
    Keyring × Except KeyringError Unit :=
  if kr.sealed then (kr, .error .keyringSealed)
  else
    match kr.policies.lookup name with
    | none => (kr, .error .keyNotFound)
    | some policy =>
        ({ kr with policies :=
            kr.policies.insert name { applyOptions opts policy with updatedAt := now } }, .ok ())

/-- The material is zeroed in place and then dropped with its map. -/
def sealKeyring (_kr : Keyring) : Keyring := { policies := ∅, ciphers := ∅, sealed := true }

end Keyring

theorem generateKeyVersion_eq_ok {policy policy' : KeyPolicy} {rand : RandRead 32} {now : ℤ}
    (h : generateKeyVersion policy rand now = .ok policy') :
    ∃ keyBytes : { b : Bytes // b.length = 32 }, rand = some keyBytes ∧
      policy' = { policy with
        latestVersion := policy.latestVersion + 1
        keys := policy.keys ++ [{ version := policy.latestVersion + 1, key := keyBytes,
                                  type := policy.type, createdAt := now }] } := by
  cases rand with
  | none => cases h
  | some keyBytes => exact ⟨keyBytes, rfl, (Except.ok.inj h).symm⟩

namespace Keyring

variable {kr kr' : Keyring} {name : Str}

theorem createKey_eq_ok {keyType : KeyType} {opts : List KeyOption} {rand : RandRead 32} {now : ℤ}
    {policy : KeyPolicy} (h : kr.createKey name keyType opts rand now = (kr', .ok policy)) :
    kr.sealed = false ∧ kr.policies.lookup name = none ∧
      generateKeyVersion (applyOptions opts (newPolicy name keyType now)) rand now = .ok policy ∧
      kr' = { kr with policies := kr.policies.insert name policy } := by
  unfold createKey at h
  split at h
  · cases h
  · rename_i hs
    split at h
    · cases h
    · rename_i hl
      split at h
      · cases h
      · rename_i p hp
        cases h
        exact ⟨by simpa using hs, hl, hp, rfl⟩

theorem rotateKey_eq_ok {rand : RandRead 32} {now version : ℤ}
    (h : kr.rotateKey name rand now = (kr', .ok version)) :
    kr.sealed = false ∧ ∃ policy policy', kr.policies.lookup name = some policy ∧
      generateKeyVersion policy rand now = .ok policy' ∧ version = policy'.latestVersion ∧
      kr' = { kr with policies := kr.policies.insert name { policy' with updatedAt := now } } := by
  unfold rotateKey at h
  split at h
  · cases h
  · rename_i hs
    split at h
    · cases h
    · rename_i p hl
      split at h
      · cases h
      · rename_i p' hp
        cases h
        exact ⟨by simpa using hs, p, p', hl, hp, rfl, rfl⟩

theorem createKey_error {keyType : KeyType} {opts : List KeyOption} {rand : RandRead 32} {now : ℤ}
    {e : KeyringError} (h : kr.createKey name keyType opts rand now = (kr', .error e)) :
    kr' = kr := by
  unfold createKey at h
  split at h
  · cases h; rfl
  · split at h
    · cases h; rfl
    · split at h
      · cases h; rfl
      · cases h

theorem rotateKey_error {rand : RandRead 32} {now : ℤ} {e : KeyringError}
    (h : kr.rotateKey name rand now = (kr', .error e)) : kr' = kr := by
  unfold rotateKey at h
  split at h
  · cases h; rfl
  · split at h
    · cases h; rfl
    · split at h
      · cases h; rfl
      · cases h

theorem createKey_of_sealed (h : kr.sealed = true) (keyType : KeyType) (opts : List KeyOption)
    (rand : RandRead 32) (now : ℤ) :
    kr.createKey name keyType opts rand now = (kr, .error .keyringSealed) := by
  rw [createKey, if_pos h]

theorem getKeyVersion_eq_ok {version : ℤ} {key : Key} :
    kr.getKeyVersion name version = .ok key ↔
      kr.sealed = false ∧ ∃ policy, kr.policies.lookup name = some policy ∧
        policy.minDecryptionVersion ≤ resolveVersion policy version ∧
        findVersion policy (resolveVersion policy version) = some key := by
  unfold getKeyVersion
  cases hs : kr.sealed with
  | true => simp
  | false =>
      cases hl : kr.policies.lookup name with
      | none => simp
      | some policy =>
          by_cases hm : resolveVersion policy version < policy.minDecryptionVersion
          · simp [hm]
          · cases hf : findVersion policy (resolveVersion policy version) with
            | none => simp [hm, hf]
            | some key' => simp [hm, hf, not_lt.mp hm]

theorem findVersion_version {policy : KeyPolicy} {version : ℤ} {key : Key}
    (h : findVersion policy version = some key) : key.version = version := by
  simpa using List.find?_some h

end Keyring
end GrpcVault
