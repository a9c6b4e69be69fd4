import GrpcVault.LockHandler
import GrpcVault.Lib.Calls

/-!
# The endpoints of the lock service

The handler's methods as programs over the service. A call of the service is one operation, under
the service's lock; what the handler does with the reply, it does without the lock. `GetKey` and
`GetEncryptionKey` of the service return pointers, and the handler reads a policy or the bytes of a
key through them later, so such a read is an operation of its own. Meanwhile `RotateKey` may have
changed the policy, and `Seal` may have overwritten the bytes with zeros.
-/

namespace GrpcVault

open GoText EventSystem Calls

/-- `Seal` overwrites the key material in place. -/
def KeyPolicy.zeroed (p : KeyPolicy) : KeyPolicy :=
  { p with keys := p.keys.map fun key => { key with key := List.replicate key.key.length 0 } }

namespace LockRpc

structure Input where
  now : ℤ
  rand : RandRead 32
  init : InitRand

/-- The service, and the policies that `Seal` has dropped from the keyring. Calls that have looked
one up before still point to it. -/
structure Memory where
  service : LockService
  dropped : Str → Option KeyPolicy

inductive MemOp where
  | service (op : LockOp)
  | policy (name : Str)
  | key (name : Str) (version : ℤ)
  | clock (now : ℤ)

inductive MemReply where
  | service (r : LockReply)
  | policy (policy : KeyPolicy)
  | key (key : Key)
  | clock (now : ℤ)

namespace Memory

def new (threshold : ℤ) : Memory := ⟨newLockService threshold, fun _ => none⟩

variable (m : Memory)

/-- The policy that a pointer to it leads to. A keyring that has dropped its policies takes no new
ones, so the name tells which policy it is. -/
def policy (name : Str) : Option KeyPolicy :=
  (m.service.keyring.policies.lookup name).or (m.dropped name)

def key (name : Str) (version : ℤ) : Option Key :=
  (m.policy name).bind fun policy => Keyring.findVersion policy version

def droppedBy : LockOp → LockReply → Str → Option KeyPolicy
  | .sealVault, .sealVault none => fun name =>
      ((m.service.keyring.policies.lookup name).map KeyPolicy.zeroed).or (m.dropped name)
  | _, _ => m.dropped

def step : Step Memory MemOp MemReply
  | m, .service op => (m.service.step op).map fun (service, r) =>
      ({ service, dropped := m.droppedBy op r }, .service r)
  | m, .policy name => (m.policy name).map fun policy => (m, .policy policy)
  | m, .key name version => (m.key name version).map fun key => (m, .key key)
  | m, .clock now => some (m, .clock now)

end Memory

inductive Code where
  | failedPrecondition
  | notFound
  | alreadyExists
  | invalidArgument
  | unimplemented
  | internal
  deriving DecidableEq

structure Status where
  code : Code
  message : String
  deriving DecidableEq

structure SealStatus where
  sealed : Bool
  initialized : Bool
  threshold : ℤ
  progress : ℤ

structure CreateKeyResponse where
  name : Str
  type : ProtoKeyType
  latestVersion : ℤ
  createdAt : ℤ

structure GetKeyResponse where
  name : Str
  type : ProtoKeyType
  latestVersion : ℤ
  minDecryptionVersion : ℤ
  minEncryptionVersion : ℤ
  exportable : Bool

structure KeyVersion where
  version : ℤ
  createdAt : ℤ

inductive Request where
  | getSealStatus
  | initializeVault (secretShares secretThreshold : ℤ)
  | unsealVault (key : Str) (reset : Bool)
  | sealVault
  | getSecret (path : Str)
  | putSecret (req : PutSecretRequest)
  | deleteSecret (path : Str)
  | listSecrets (pathPrefix : Str)
  | getSecretMetadata (path : Str)
  | createKey (name : Str) (type : ProtoKeyType) (exportable : Bool)
  | getKey (name : Str)
  | deleteKey (name : Str)
  | getEncryptionKey (req : GetEncryptionKeyRequest)
  | rotateKey (name : Str)
  | listKeys
  | updateKeyConfig (name : Str)
  | getKeyVersions (name : Str)

/-- A slot of `getKeyVersions` that has not been filled is `nil`. -/
inductive Response where
  | sealStatus (status : SealStatus)
  | initializeVault (keys rootTokens : List Str)
  | getSecret (secret : GetSecretResponse)
  | putSecret (version : PutSecretResponse)
  | deleteSecret
  | listSecrets (keys : Finset Str)
  | getSecretMetadata (metadata : SecretMetadata)
  | createKey (key : CreateKeyResponse)
  | getKey (key : GetKeyResponse)
  | getEncryptionKey (key : GetEncryptionKeyResponse)
  | rotateKey (newVersion : ℤ)
  | listKeys (keys : Finset Str)
  | updateKeyConfig
  | getKeyVersions (versions : List (Option KeyVersion))

abbrev Answer := Except Status Response

abbrev Handler := Proc Input MemOp MemReply

namespace Handler

def service {β : Type} (op : Input → LockOp) (result : LockReply → Option β) : Handler β :=
  .op (fun input => .service (op input)) fun
    | .service r =>
        match result r with
        | some b => .ret b
        | none => .panic
    | _ => .panic

def initVault (shares threshold : ℤ) : Handler (Except LockError (List Str × Str)) :=
  service (fun input => .initializeVault shares threshold input.init) fun
    | .initializeVault r => some r
    | _ => none

def offerShare (keyShare : Str) : Handler (Bool × ℤ × Option LockError) :=
  service (fun _ => .unsealVault keyShare) fun
    | .unsealVault r => some r
    | _ => none

def closeVault : Handler (Option LockError) :=
  service (fun _ => .sealVault) fun
    | .sealVault r => some r
    | _ => none

def sealStatus : Handler (Bool × Bool × ℤ × ℤ) :=
  service (fun _ => .getSealStatus) fun
    | .getSealStatus r => some r
    | _ => none

def findSecret (path : Str) : Handler (Except LockError Secret) :=
  service (fun _ => .getSecret path) fun
    | .getSecret r => some r
    | _ => none

def storeSecret (path : Str) (data : GoMap Str Bytes) : Handler (Except LockError ℤ) :=
  service (fun input => .putSecret path data input.now) fun
    | .putSecret r => some r
    | _ => none

def removeSecret (path : Str) : Handler (Option LockError) :=
  service (fun _ => .deleteSecret path) fun
    | .deleteSecret r => some r
    | _ => none

def secretPaths (pathPrefix : Str) : Handler (Except LockError (Finset Str)) :=
  service (fun _ => .listSecrets pathPrefix) fun
    | .listSecrets r => some r
    | _ => none

def addKey (name : Str) (keyType : KeyType) : Handler (Except LockError Unit) :=
  service (fun input => .createKey name keyType input.rand input.now) fun
    | .createKey r => some r
    | _ => none

def findPolicy (name : Str) : Handler (Except LockError KeyPolicy) :=
  service (fun _ => .getKey name) fun
    | .getKey r => some r
    | _ => none

def findKey (name : Str) (version : ℤ) : Handler (Except LockError Key) :=
  service (fun _ => .getEncryptionKey name version) fun
    | .getEncryptionKey r => some r
    | _ => none

def addVersion (name : Str) : Handler (Except LockError ℤ) :=
  service (fun input => .rotateKey name input.rand input.now) fun
    | .rotateKey r => some r
    | _ => none

def keyNames : Handler (Except LockError (Finset Str)) :=
  service (fun _ => .listKeys) fun
    | .listKeys r => some r
    | _ => none

def readPolicy (name : Str) : Handler KeyPolicy :=
  .op (fun _ => .policy name) fun
    | .policy policy => .ret policy
    | _ => .panic

/-- The bytes of a key, read through the pointer. -/
def readKey (name : Str) (version : ℤ) : Handler Key :=
  .op (fun _ => .key name version) fun
    | .key key => .ret key
    | _ => .panic

/-- `time.Now().Unix()` -/
def unixNow : Handler ℤ :=
  .op (fun input => .clock input.now) fun
    | .clock now => .ret (now / 10 ^ 9)
    | _ => .panic

end Handler

open Handler

def vaultIsSealed : Status := ⟨.failedPrecondition, "vault is sealed"⟩

def notInitialized : Status := ⟨.failedPrecondition, "vault not initialized"⟩

def secretNotFound : Status := ⟨.notFound, "secret not found"⟩

def keyNotFound : Status := ⟨.notFound, "key not found"⟩

def internal (err : LockError) : Status := ⟨.internal, err.message⟩

def getSealStatus : Handler Answer := do
  let (sealed, initialized, threshold, progress) ← sealStatus
  return .ok (.sealStatus ⟨sealed, initialized, int32 threshold, int32 progress⟩)

def initializeVault (secretShares secretThreshold : ℤ) : Handler Answer := do
  match ← initVault secretShares secretThreshold with
  | .error .alreadyInitialized => return .error ⟨.alreadyExists, "vault already initialized"⟩
  | .error err => return .error (internal err)
  | .ok (keys, rootToken) => return .ok (.initializeVault keys [rootToken])

/-- Whether to reset the shares is not asked. -/
def unsealVault (key : Str) : Handler Answer := do
  let (unsealed, progress, err) ← offerShare key
  match err with
  | some .notInitialized => return .error notInitialized
  | some .invalidKey => return .error ⟨.invalidArgument, "invalid unseal key"⟩
  | some err => return .error (internal err)
  | none =>
      let (_, initialized, threshold, _) ← sealStatus
      return .ok (.sealStatus ⟨!unsealed, initialized, int32 threshold, int32 progress⟩)

def sealVault : Handler Answer := do
  match ← closeVault with
  | some .notInitialized => return .error notInitialized
  | some err => return .error (internal err)
  | none => getSealStatus

def secretMetadata (path : Str) (secret : Secret) : SecretMetadata where
  path := path
  version := int32 secret.version
  currentVersion := int32 secret.version
  createdAt := secret.createdAt / 10 ^ 9
  updatedAt := secret.updatedAt / 10 ^ 9

def secretError : LockError → Status
  | .vaultSealed => vaultIsSealed
  | .secretNotFound => secretNotFound
  | err => internal err

def getSecret (path : Str) : Handler Answer := do
  match ← findSecret path with
  | .error err => return .error (secretError err)
  | .ok secret => return .ok (.getSecret ⟨secret.data, secretMetadata path secret⟩)

def openError : LockError → Status
  | .vaultSealed => vaultIsSealed
  | err => internal err

/-- The version to write at is not asked. -/
def putSecret (req : PutSecretRequest) : Handler Answer := do
  match ← storeSecret req.path req.data with
  | .error err => return .error (openError err)
  | .ok version => return .ok (.putSecret ⟨int32 version⟩)

def deleteSecret (path : Str) : Handler Answer := do
  match ← removeSecret path with
  | some err => return .error (secretError err)
  | none => return .ok .deleteSecret

def listSecrets (pathPrefix : Str) : Handler Answer := do
  match ← secretPaths pathPrefix with
  | .error err => return .error (openError err)
  | .ok keys => return .ok (.listSecrets keys)

def getSecretMetadata (path : Str) : Handler Answer := do
  match ← findSecret path with
  | .error err => return .error (secretError err)
  | .ok secret => return .ok (.getSecretMetadata (secretMetadata path secret))

/-- Types without a case of their own become AES. -/
def protoKeyTypeToKeyring : ProtoKeyType → KeyType
  | .aes256GCM => .aes256GCM
  | .chacha20Poly1305 => .chacha20Poly1305
  | .rsa2048 => .rsa2048
  | .rsa4096 => .rsa4096
  | .ecdsaP256 => .ecdsaP256
  | .ed25519 => .ed25519
  | _ => .aes256GCM

/-- The answer repeats the type of the request; whether the key is exportable is not asked. -/
def createKey (name : Str) (type : ProtoKeyType) : Handler Answer := do
  match ← addKey name (protoKeyTypeToKeyring type) with
  | .error err => return .error (openError err)
  | .ok _ =>
      let createdAt ← unixNow
      return .ok (.createKey ⟨name, type, 1, createdAt⟩)

def keyError : LockError → Status
  | .vaultSealed => vaultIsSealed
  | .keyring .keyNotFound => keyNotFound
  | err => internal err

def getKey (name : Str) : Handler Answer := do
  match ← findPolicy name with
  | .error err => return .error (keyError err)
  | .ok _ =>
      let policy ← readPolicy name
      return .ok (.getKey
        { name := policy.name
          type := keyringKeyTypeToProto policy.type
          latestVersion := int32 policy.latestVersion
          minDecryptionVersion := int32 policy.minDecryptionVersion
          minEncryptionVersion := int32 policy.minEncryptionVersion
          exportable := policy.exportable })

def deleteKey : Handler Answer :=
  return .error ⟨.unimplemented, "key deletion not supported"⟩

/-- The bytes are read when the response is written to the wire. -/
def getEncryptionKey (req : GetEncryptionKeyRequest) : Handler Answer := do
  match ← findKey req.name req.version with
  | .error (.keyring .versionNotFound) => return .error keyNotFound
  | .error err => return .error (keyError err)
  | .ok key =>
      let key ← readKey req.name key.version
      return .ok (.getEncryptionKey ⟨key.key, int32 key.version, keyringKeyTypeToProto key.type⟩)

def rotateKey (name : Str) : Handler Answer := do
  match ← addVersion name with
  | .error err => return .error (keyError err)
  | .ok version => return .ok (.rotateKey (int32 version))

def listKeys : Handler Answer := do
  match ← keyNames with
  | .error err => return .error (openError err)
  | .ok keys => return .ok (.listKeys keys)

def updateKeyConfig : Handler Answer :=
  return .ok .updateKeyConfig

/-- The loop of `GetKeyVersions`, with the versions it has filled in and the slots that are left.
The bound is read through the pointer each time. -/
def fillVersions (name : Str) : ℕ → List KeyVersion → Handler (List (Option KeyVersion))
  | 0, filled => do
      let policy ← readPolicy name
      if (filled.length : ℤ) + 1 ≤ policy.latestVersion then .panic
      else return filled.map some
  | slots + 1, filled => do
      let policy ← readPolicy name
      if (filled.length : ℤ) + 1 ≤ policy.latestVersion then
        let createdAt ← unixNow
        fillVersions name slots (filled ++ [⟨int32 (filled.length + 1), createdAt⟩])
      else return filled.map some ++ List.replicate (slots + 1) none

def getKeyVersions (name : Str) : Handler Answer := do
  match ← findPolicy name with
  | .error err => return .error (keyError err)
  | .ok _ =>
      let policy ← readPolicy name
      if policy.latestVersion < 0 then .panic
      else
        let versions ← fillVersions name policy.latestVersion.toNat []
        return .ok (.getKeyVersions versions)

def handle : Request → Handler Answer
  | .getSealStatus => getSealStatus
  | .initializeVault secretShares secretThreshold => initializeVault secretShares secretThreshold
  | .unsealVault key _ => unsealVault key
  | .sealVault => sealVault
  | .getSecret path => getSecret path
  | .putSecret req => putSecret req
  | .deleteSecret path => deleteSecret path
  | .listSecrets pathPrefix => listSecrets pathPrefix
  | .getSecretMetadata path => getSecretMetadata path
  | .createKey name type _ => createKey name type
  | .getKey name => getKey name
  | .deleteKey _ => deleteKey
  | .getEncryptionKey req => getEncryptionKey req
  | .rotateKey name => rotateKey name
  | .listKeys => listKeys
  | .updateKeyConfig _ => updateKeyConfig
  | .getKeyVersions name => getKeyVersions name

abbrev Server := Pool Memory Input MemOp MemReply Request Answer

def Server.new (threshold : ℤ) : Server := .start (.new threshold)

abbrev Trace := Calls.Trace Input MemOp MemReply Request Answer

abbrev Moment := Calls.Moment Memory MemOp MemReply

def step : Step Server (Event Input Request) (Output MemOp MemReply Request Answer) :=
  Calls.step Memory.step handle

end LockRpc

end GrpcVault
