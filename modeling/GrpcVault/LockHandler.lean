import GrpcVault.LockRuns

/-!
# The lock handler

`GetEncryptionKey` as the other services call it, and the endpoints that read and write a
secret. Version numbers travel as `int32`, times as seconds, and the service's errors
become status codes.
-/

namespace GrpcVault

open GoText

inductive Code where
  | failedPrecondition
  | notFound
  | internal
  deriving DecidableEq

structure Status where
  code : Code
  message : String
  deriving DecidableEq

/-- The key types of the wire format. -/
inductive ProtoKeyType where
  | unspecified
  | aes256GCM
  | chacha20Poly1305
  | rsa2048
  | rsa4096
  | ecdsaP256
  | ecdsaP384
  | ed25519
  | fpeFF1
  deriving DecidableEq

def ProtoKeyType.number : ProtoKeyType → ℤ
  | .unspecified => 0
  | .aes256GCM => 1
  | .chacha20Poly1305 => 2
  | .rsa2048 => 3
  | .rsa4096 => 4
  | .ecdsaP256 => 5
  | .ecdsaP384 => 6
  | .ed25519 => 7
  | .fpeFF1 => 8

/-- Key types without a case of their own are reported as AES. -/
def keyringKeyTypeToProto : KeyType → ProtoKeyType
  | .aes256GCM => .aes256GCM
  | .chacha20Poly1305 => .chacha20Poly1305
  | .rsa2048 => .rsa2048
  | .rsa4096 => .rsa4096
  | .ecdsaP256 => .ecdsaP256
  | .ed25519 => .ed25519
  | _ => .aes256GCM

structure GetEncryptionKeyRequest where
  name : Str
  version : ℤ

structure GetEncryptionKeyResponse where
  key : Bytes
  version : ℤ
  type : ProtoKeyType
  deriving DecidableEq

/-- `cas` asks for the write to happen at this version only. -/
structure PutSecretRequest where
  path : Str
  data : GoMap Str Bytes
  cas : ℤ

structure PutSecretResponse where
  version : ℤ

structure SecretMetadata where
  path : Str
  version : ℤ
  currentVersion : ℤ
  createdAt : ℤ
  updatedAt : ℤ

structure GetSecretResponse where
  data : GoMap Str Bytes
  metadata : SecretMetadata

namespace LockHandler

def getSecret (s : LockService) (path : Str) : Except Status GetSecretResponse :=
  match s.getSecret path with
  | .ok secret => .ok
      { data := secret.data
        metadata :=
          { path
            version := int32 secret.version
            currentVersion := int32 secret.version
            createdAt := secret.createdAt / 10 ^ 9
            updatedAt := secret.updatedAt / 10 ^ 9 } }
  | .error .vaultSealed => .error ⟨.failedPrecondition, "vault is sealed"⟩
  | .error .secretNotFound => .error ⟨.notFound, "secret not found"⟩
  | .error e => .error ⟨.internal, e.message⟩

def putSecret (s : LockService) (req : PutSecretRequest) (now : ℤ) :
    LockService × Except Status PutSecretResponse :=
  match s.putSecret req.path req.data now with
  | (s', .ok version) => (s', .ok { version := int32 version })
  | (s', .error .vaultSealed) => (s', .error ⟨.failedPrecondition, "vault is sealed"⟩)
  | (s', .error e) => (s', .error ⟨.internal, e.message⟩)

def getEncryptionKey (s : LockService) (req : GetEncryptionKeyRequest) :
    Except Status GetEncryptionKeyResponse :=
  match s.getEncryptionKey req.name req.version with
  | .ok key => .ok
      { key := key.key, version := int32 key.version, type := keyringKeyTypeToProto key.type }
  | .error .vaultSealed => .error ⟨.failedPrecondition, "vault is sealed"⟩
  | .error (.keyring .keyNotFound) => .error ⟨.notFound, "key not found"⟩
  | .error (.keyring .versionNotFound) => .error ⟨.notFound, "key not found"⟩
  | .error e => .error ⟨.internal, e.message⟩

theorem getEncryptionKey_eq_ok {s : LockService} {req : GetEncryptionKeyRequest}
    {resp : GetEncryptionKeyResponse} :
    getEncryptionKey s req = .ok resp ↔
      s.sealed = false ∧ ∃ key, s.keyring.getKeyVersion req.name req.version = .ok key ∧
        resp = { key := key.key, version := int32 key.version,
                 type := keyringKeyTypeToProto key.type } := by
  unfold getEncryptionKey LockService.getEncryptionKey
  cases hs : s.sealed with
  | true => simp
  | false =>
      cases hk : s.keyring.getKeyVersion req.name req.version with
      | ok key => simp [LockService.liftKeyring, eq_comm]
      | error e => cases e <;> simp [LockService.liftKeyring]

end LockHandler
end GrpcVault
