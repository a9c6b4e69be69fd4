import GrpcVault.CryptoService
import GrpcVault.Fpe

/-!
# The tokenize service

`getKey` answers from the key cache, whose entries are filed under the key name, or
from the lock service, which it asks for the latest version. `fpeEncrypt` and `fpeDecrypt`
work with the key it returns; a token does not say which version made it.
`tokenizeService` is the service as a read-through cache over the lock service. Dropping
a key from the cache, by `invalidateKey` or by an eviction, is one event there.
-/

namespace GrpcVault.Tokenize

open GoText EventSystem ReadThrough Fpe

inductive TokenizeError where
  | keyNotFound
  | transformationNotFound
  | encryptionFailed
  | decryptionFailed
  | lockServiceRequired
  | fpe (e : FpeError)
  deriving DecidableEq

def TokenizeError.message : TokenizeError → String
  | .keyNotFound => "key not found"
  | .transformationNotFound => "transformation not found"
  | .encryptionFailed => "FPE encryption failed"
  | .decryptionFailed => "FPE decryption failed"
  | .lockServiceRequired => "lock service connection required"
  | .fpe e => e.message

structure KeyInfo where
  key : Bytes
  version : ℤ
  deriving DecidableEq

def KeyInfo.ofResponse (resp : GetEncryptionKeyResponse) : KeyInfo where
  key := resp.key
  version := resp.version

abbrev KeyCache := Str → Option KeyInfo

abbrev CustomTransformations := GoMap Str Transformation

def getKey (client : Option LockClient) (keyCache : KeyCache) (keyName : Str) :
    KeyCache × Except TokenizeError KeyInfo :=
  match keyCache keyName with
  | some cached => (keyCache, .ok cached)
  | none =>
      match client with
      | none => (keyCache, .error .lockServiceRequired)
      | some client =>
          match client { name := keyName, version := 0 } with
          | none => (keyCache, .error .keyNotFound)
          | some resp =>
              (Function.update keyCache keyName (some (.ofResponse resp)), .ok (.ofResponse resp))

def invalidateKey (keyCache : KeyCache) (keyName : Str) : KeyCache :=
  Function.update keyCache keyName none

def newCipher (ff1 : Ff1) (keyInfo : KeyInfo) (alphabet : Str) : Except FpeError Cipher :=
  Fpe.newCipher ff1 keyInfo.key alphabet

def getAlphabet (custom : CustomTransformations) (transformation customAlphabet : Str) :
    Except TokenizeError Str :=
  if customAlphabet ≠ [] then .ok customAlphabet
  else if transformation ≠ [] then
    match getTransformation transformation with
    | some t => .ok t.alphabet
    | none =>
        match custom.lookup transformation with
        | some t => .ok t.alphabet
        | none => .error .transformationNotFound
  else .ok alphabetNumeric

/-- The part of `FPEEncrypt` and `FPEDecrypt` after `getKey`. They differ in the cipher's
method and in the error when it fails. Without a tweak the source calls the methods
`Encrypt` and `Decrypt`, which pass on a nil one. -/
def fpeWith (ff1 : Ff1) (custom : CustomTransformations)
    (method : Cipher → Str → Option Bytes → Except FpeError Str) (failed : TokenizeError)
    (keyInfo : KeyInfo) (text transformation customAlphabet : Str) (tweak : Option Bytes) :
    Except TokenizeError (Str × ℤ) :=
  match getAlphabet custom transformation customAlphabet with
  | .error e => .error e
  | .ok alphabet =>
      match newCipher ff1 keyInfo alphabet with
      | .error e => .error (.fpe e)
      | .ok cipher =>
          match method cipher text tweak with
          | .error _ => .error failed
          | .ok result => .ok (result, keyInfo.version)

section

variable (ff1 : Ff1) (custom : CustomTransformations)

def fpeEncryptWith (keyInfo : KeyInfo) (plaintext transformation customAlphabet : Str)
    (tweak : Option Bytes) : Except TokenizeError (Str × ℤ) :=
  fpeWith ff1 custom (Cipher.encryptWithTweak ff1) .encryptionFailed keyInfo plaintext
    transformation customAlphabet tweak

def fpeDecryptWith (keyInfo : KeyInfo) (ciphertext transformation customAlphabet : Str)
    (tweak : Option Bytes) : Except TokenizeError (Str × ℤ) :=
  fpeWith ff1 custom (Cipher.decryptWithTweak ff1) .decryptionFailed keyInfo ciphertext
    transformation customAlphabet tweak

def fpeEncrypt (client : Option LockClient) (keyCache : KeyCache)
    (keyName plaintext transformation customAlphabet : Str) (tweak : Option Bytes) :
    KeyCache × Except TokenizeError (Str × ℤ) :=
  match getKey client keyCache keyName with
  | (keyCache, .error e) => (keyCache, .error e)
  | (keyCache, .ok keyInfo) =>
      (keyCache,
        fpeEncryptWith ff1 custom keyInfo plaintext transformation customAlphabet tweak)

def fpeDecrypt (client : Option LockClient) (keyCache : KeyCache)
    (keyName ciphertext transformation customAlphabet : Str) (tweak : Option Bytes) :
    KeyCache × Except TokenizeError (Str × ℤ) :=
  match getKey client keyCache keyName with
  | (keyCache, .error e) => (keyCache, .error e)
  | (keyCache, .ok keyInfo) =>
      (keyCache,
        fpeDecryptWith ff1 custom keyInfo ciphertext transformation customAlphabet tweak)

end

def tokenizeService : Service LockService LockOp LockReply Str Str KeyInfo where
  keyOf keyName := keyName
  fetch s keyName := (lockClient s { name := keyName, version := 0 }).map .ofResponse
  store := LockService.step

abbrev TokenizeState := State LockService Str Str KeyInfo
abbrev TokenizeEvent := Event LockOp Str Str
abbrev TokenizeOutput := Output LockReply Str KeyInfo
abbrev TokenizeTrace := List (TokenizeEvent × TokenizeOutput)

def TokenizeState.start (threshold : ℤ) : TokenizeState :=
  State.init LockService Str Str KeyInfo (newLockService threshold)

theorem fetch_eq_some {s : LockService} {keyName : Str} {v : KeyInfo} :
    tokenizeService.fetch s keyName = some v ↔
      s.sealed = false ∧ ∃ key, s.keyring.getKeyVersion keyName 0 = .ok key ∧
        v = { key := key.key, version := int32 key.version } :=
  map_lockClient_eq_some

/-- The key that the service would work with: the cached one, or else the latest version. -/
def inUse (s : TokenizeState) (keyName : Str) : Option KeyInfo :=
  match s.cache keyName with
  | some cached => some cached
  | none => tokenizeService.fetch s.store keyName

theorem evict_eq_invalidateKey (s : TokenizeState) (keyName : Str) :
    tokenizeService.step s (.evict keyName) =
      some ({ s with cache := invalidateKey s.cache keyName }, .done) := rfl

theorem answer_eq_inUse (s : TokenizeState) (keyName : Str) :
    (tokenizeService.answer s keyName).2 = inUse s keyName := by
  have hkey : tokenizeService.keyOf keyName = keyName := rfl
  rw [Service.answer, inUse, hkey]
  cases s.cache keyName with
  | some v => rfl
  | none => cases tokenizeService.fetch s.store keyName <;> rfl

theorem getKey_eq (s : TokenizeState) (keyName : Str) :
    getKey (some (lockClient s.store)) s.cache keyName =
      ((tokenizeService.answer s keyName).1,
        (inUse s keyName).elim (.error .keyNotFound) .ok) := by
  rw [← answer_eq_inUse]
  simp only [getKey, Service.answer, tokenizeService]
  cases s.cache keyName with
  | some v => rfl
  | none => cases lockClient s.store ⟨keyName, 0⟩ <;> rfl

end GrpcVault.Tokenize
