import GrpcVault.LockHandler
import GrpcVault.Lib.ReadThrough

/-!
# The crypto service

`getKey` answers from the key cache or from the lock service; `encrypt`,
`decrypt` and `encryptBatch` work with the key it returns. The functions below
run one call by itself. `cryptoService` is the same service as a read-through
cache over the lock service, where the steps of many calls interleave. The items
of a `DecryptBatch` are separate `decrypt` calls there.
-/

namespace GrpcVault

open GoText EventSystem

inductive CryptoError where
  | keyNotFound
  | decryptFailed
  | lockServiceRequired
  | aes (e : Aes.AesError)
  deriving DecidableEq

def CryptoError.message : CryptoError → String
  | .keyNotFound => "key not found"
  | .decryptFailed => "decryption failed"
  | .lockServiceRequired => "lock service connection required"
  | .aes e => e.message

structure KeyInfo where
  key : Bytes
  version : ℤ
  type : ℤ
  deriving DecidableEq

def KeyInfo.ofResponse (resp : GetEncryptionKeyResponse) : KeyInfo where
  key := resp.key
  version := resp.version
  type := resp.type.number

/-- An RPC to the lock service, `none` where it returns an error of any kind. -/
abbrev LockClient := GetEncryptionKeyRequest → Option GetEncryptionKeyResponse

def lockClient (s : LockService) : LockClient :=
  fun req => (LockHandler.getEncryptionKey s req).toOption

theorem lockClient_eq_some {s : LockService} {req : GetEncryptionKeyRequest}
    {resp : GetEncryptionKeyResponse} :
    lockClient s req = some resp ↔ LockHandler.getEncryptionKey s req = .ok resp := by
  unfold lockClient
  cases LockHandler.getEncryptionKey s req <;> simp [Except.toOption]

theorem map_lockClient_eq_some {α : Type*} {f : GetEncryptionKeyResponse → α} {s : LockService}
    {req : GetEncryptionKeyRequest} {v : α} :
    (lockClient s req).map f = some v ↔
      s.sealed = false ∧ ∃ key, s.keyring.getKeyVersion req.name req.version = .ok key ∧
        v = f { key := key.key, version := int32 key.version,
                type := keyringKeyTypeToProto key.type } := by
  simp only [Option.map_eq_some_iff, lockClient_eq_some, LockHandler.getEncryptionKey_eq_ok]
  constructor
  · rintro ⟨resp, ⟨hs, key, hkey, rfl⟩, rfl⟩
    exact ⟨hs, key, hkey, rfl⟩
  · rintro ⟨hs, key, hkey, rfl⟩
    exact ⟨_, ⟨hs, key, hkey, rfl⟩, rfl⟩

/-- The entries of the key cache; its bound shows as evictions. -/
abbrev KeyCache := Str → Option KeyInfo

structure BatchItem where
  plaintext : Bytes
  context : Bytes
  reference : Str

structure EncryptResult where
  ciphertext : Str
  keyVersion : ℤ
  reference : Str
  error : Option CryptoError

namespace CryptoService

def cacheKey (keyName : Str) (version : ℤ) : Str :=
  if 0 < version then keyName ++ ':' :: itoa version else keyName

def getKey (client : Option LockClient) (keyCache : KeyCache) (keyName : Str) (version : ℤ) :
    KeyCache × Except CryptoError KeyInfo :=
  match keyCache (cacheKey keyName version) with
  | some cached => (keyCache, .ok cached)
  | none =>
      match client with
      | none => (keyCache, .error .lockServiceRequired)
      | some client =>
          match client { name := keyName, version := int32 version } with
          | none => (keyCache, .error .keyNotFound)
          | some resp =>
              (Function.update keyCache (cacheKey keyName version) (some (.ofResponse resp)),
                .ok (.ofResponse resp))

def newCipher (keyInfo : KeyInfo) : Except Aes.AesError Aes.Cipher :=
  Aes.newCipher keyInfo.key keyInfo.version

variable (g : Aes.Gcm)

def encryptWith (keyInfo : KeyInfo) (plaintext aad : Bytes) (rand : RandRead Aes.nonceSize) :
    Except CryptoError (Str × ℤ) :=
  match newCipher keyInfo with
  | .error e => .error (.aes e)
  | .ok cipher =>
      match cipher.encrypt g plaintext aad rand with
      | .error e => .error (.aes e)
      | .ok ciphertext => .ok (ciphertext, keyInfo.version)

def encrypt (client : Option LockClient) (keyCache : KeyCache) (keyName : Str)
    (plaintext aad : Bytes) (rand : RandRead Aes.nonceSize) :
    KeyCache × Except CryptoError (Str × ℤ) :=
  match getKey client keyCache keyName 0 with
  | (keyCache, .error e) => (keyCache, .error e)
  | (keyCache, .ok keyInfo) => (keyCache, encryptWith g keyInfo plaintext aad rand)

def decryptWith (keyInfo : KeyInfo) (ciphertext : Str) (aad : Bytes) :
    Except CryptoError (Bytes × ℤ) :=
  match newCipher keyInfo with
  | .error e => .error (.aes e)
  | .ok cipher =>
      match cipher.decrypt g ciphertext aad with
      | .error _ => .error .decryptFailed
      | .ok result => .ok result

def decrypt (client : Option LockClient) (keyCache : KeyCache) (keyName ciphertext : Str)
    (aad : Bytes) : KeyCache × Except CryptoError (Bytes × ℤ) :=
  match Aes.parseCiphertext ciphertext with
  | .error e => (keyCache, .error (.aes e))
  | .ok (version, _) =>
      match getKey client keyCache keyName version with
      | (keyCache, .error e) => (keyCache, .error e)
      | (keyCache, .ok keyInfo) => (keyCache, decryptWith g keyInfo ciphertext aad)

/-- One item of a batch, under the key that the batch has fetched. -/
def encryptItem (keyInfo : KeyInfo) (item : BatchItem) (rand : RandRead Aes.nonceSize) :
    EncryptResult :=
  match newCipher keyInfo with
  | .error e =>
      { ciphertext := [], keyVersion := 0, reference := item.reference, error := some (.aes e) }
  | .ok cipher =>
      match cipher.encrypt g item.plaintext item.context rand with
      | .error e =>
          { ciphertext := [], keyVersion := keyInfo.version, reference := item.reference
            error := some (.aes e) }
      | .ok ciphertext =>
          { ciphertext, keyVersion := keyInfo.version, reference := item.reference, error := none }

/-- The part of `EncryptBatch` after `getKey`; every item has its own nonce. -/
def encryptBatchWith (keyInfo : KeyInfo) (items : List BatchItem)
    (rand : ℕ → RandRead Aes.nonceSize) : List EncryptResult :=
  items.mapIdx fun i item => encryptItem g keyInfo item (rand i)

def encryptBatch (client : Option LockClient) (keyCache : KeyCache) (keyName : Str)
    (items : List BatchItem) (rand : ℕ → RandRead Aes.nonceSize) :
    KeyCache × List EncryptResult :=
  match getKey client keyCache keyName 0 with
  | (keyCache, .error e) =>
      (keyCache, items.map fun item =>
        { ciphertext := [], keyVersion := 0, reference := item.reference, error := some e })
  | (keyCache, .ok keyInfo) => (keyCache, encryptBatchWith g keyInfo items rand)

end CryptoService

inductive CryptoCall where
  | encrypt (keyName : Str) (plaintext aad : Bytes)
  | encryptBatch (keyName : Str) (items : List BatchItem)
  | decrypt (keyName ciphertext : Str) (aad : Bytes)

namespace CryptoCall

def keyName : CryptoCall → Str
  | .encrypt keyName _ _ => keyName
  | .encryptBatch keyName _ => keyName
  | .decrypt keyName _ _ => keyName

/-- The version that the call asks for; 0 is the latest. -/
def version : CryptoCall → Except Aes.AesError ℤ
  | .decrypt _ ciphertext _ => (Aes.parseCiphertext ciphertext).map Prod.fst
  | _ => .ok 0

end CryptoCall

structure KeyRequest where
  call : CryptoCall
  version : ℤ
  parsed : call.version = .ok version

namespace KeyRequest

def keyName (r : KeyRequest) : Str := r.call.keyName

def encrypt (keyName : Str) (plaintext aad : Bytes) : KeyRequest :=
  ⟨.encrypt keyName plaintext aad, 0, rfl⟩

def encryptBatch (keyName : Str) (items : List BatchItem) : KeyRequest :=
  ⟨.encryptBatch keyName items, 0, rfl⟩

end KeyRequest

open ReadThrough

def cryptoService : Service LockService LockOp LockReply KeyRequest Str KeyInfo where
  keyOf r := CryptoService.cacheKey r.keyName r.version
  fetch s r := (lockClient s { name := r.keyName, version := int32 r.version }).map .ofResponse
  store := LockService.step

abbrev CryptoState := State LockService KeyRequest Str KeyInfo
abbrev CryptoEvent := Event LockOp KeyRequest Str
abbrev CryptoOutput := Output LockReply KeyRequest KeyInfo
abbrev CryptoTrace := List (CryptoEvent × CryptoOutput)

def CryptoState.start (threshold : ℤ) : CryptoState :=
  State.init LockService KeyRequest Str KeyInfo (newLockService threshold)

namespace CryptoService

/-- What the lock service hands out for a key, as the cache holds it. -/
def keyInfoOf (key : Key) : KeyInfo where
  key := key.key
  version := int32 key.version
  type := (keyringKeyTypeToProto key.type).number

theorem fetch_eq_some {s : LockService} {r : KeyRequest} {v : KeyInfo} :
    cryptoService.fetch s r = some v ↔
      s.sealed = false ∧ ∃ key,
        s.keyring.getKeyVersion r.keyName (int32 r.version) = .ok key ∧ v = keyInfoOf key :=
  map_lockClient_eq_some

/-- A call of `getKey` by itself, against the lock service as it stands. -/
theorem getKey_eq (s : CryptoState) (r : KeyRequest) :
    getKey (some (lockClient s.store)) s.cache r.keyName r.version =
      ((cryptoService.answer s r).1,
        (cryptoService.answer s r).2.elim (.error .keyNotFound) .ok) := by
  simp only [getKey, Service.answer, cryptoService]
  cases s.cache (cacheKey r.keyName r.version) with
  | some v => rfl
  | none => cases lockClient s.store ⟨r.keyName, int32 r.version⟩ <;> rfl

end CryptoService
end GrpcVault
