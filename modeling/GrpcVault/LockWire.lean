import GrpcVault.Lib.WireNested

/-!
# The messages of the lock service

What `lock.v1` sends and receives for secrets, keys and the seal, field by field with the numbers
and names of the generated code. Texts are byte strings, as nothing checks that a `string` is
UTF-8, enumerations are their numbers, and a message keeps the bytes of fields it does not know.
The messages of the cluster endpoints, which no service implements, are left out.
-/

namespace GrpcVault.Wire

open GoText Proto

section Common

structure PaginationRequest where
  pageSize : Int32
  pageToken : Bytes
  unknownFields : Bytes

def paginationRequest : Message PaginationRequest :=
  .ofRecord "PaginationRequest" [⟨_, int32Kind 1 "PageSize"⟩, ⟨_, bytesKind 2 "PageToken"⟩]
    (fun m => ((m.pageSize, m.pageToken, ()), m.unknownFields))
    (fun ((pageSize, pageToken, _), unknownFields) => ⟨pageSize, pageToken, unknownFields⟩)

structure PaginationResponse where
  nextPageToken : Bytes
  totalCount : Int32
  unknownFields : Bytes

def paginationResponse : Message PaginationResponse :=
  .ofRecord "PaginationResponse" [⟨_, bytesKind 1 "NextPageToken"⟩, ⟨_, int32Kind 2 "TotalCount"⟩]
    (fun m => ((m.nextPageToken, m.totalCount, ()), m.unknownFields))
    (fun ((nextPageToken, totalCount, _), unknownFields) =>
      ⟨nextPageToken, totalCount, unknownFields⟩)

structure SuccessResponse where
  success : Bool
  unknownFields : Bytes

/-- The messages that hold `bool success = 1`. -/
def successResponse (name : String) : Message SuccessResponse :=
  .ofRecord name [⟨_, boolKind 1 "Success"⟩] (fun m => ((m.success, ()), m.unknownFields))
    (fun ((success, _), unknownFields) => ⟨success, unknownFields⟩)

structure EmptyRequest where
  unknownFields : Bytes

/-- The messages without fields. -/
def emptyRequest (name : String) : Message EmptyRequest :=
  .ofRecord name [] (fun m => ((), m.unknownFields)) (fun (_, unknownFields) => ⟨unknownFields⟩)

end Common

section Secrets

structure GetSecretRequest where
  path : Bytes
  version : Int32
  unknownFields : Bytes

def getSecretRequest : Message GetSecretRequest :=
  .ofRecord "GetSecretRequest" [⟨_, bytesKind 1 "Path"⟩, ⟨_, int32Kind 2 "Version"⟩]
    (fun m => ((m.path, m.version, ()), m.unknownFields))
    (fun ((path, version, _), unknownFields) => ⟨path, version, unknownFields⟩)

structure SecretMetadata where
  path : Bytes
  version : Int32
  currentVersion : Int32
  oldestVersion : Int32
  createdAt : Int64
  updatedAt : Int64
  deletedAt : Int64
  destroyed : Bool
  customMetadata : GoMap Bytes Bytes
  unknownFields : Bytes

def secretMetadata : Message SecretMetadata :=
  .ofRecord "SecretMetadata"
    [⟨_, bytesKind 1 "Path"⟩, ⟨_, int32Kind 2 "Version"⟩, ⟨_, int32Kind 3 "CurrentVersion"⟩,
      ⟨_, int32Kind 4 "OldestVersion"⟩, ⟨_, int64Kind 5 "CreatedAt"⟩, ⟨_, int64Kind 6 "UpdatedAt"⟩,
      ⟨_, int64Kind 7 "DeletedAt"⟩, ⟨_, boolKind 8 "Destroyed"⟩, ⟨_, mapKind 9 "CustomMetadata"⟩]
    (fun m => ((m.path, m.version, m.currentVersion, m.oldestVersion, m.createdAt, m.updatedAt,
      m.deletedAt, m.destroyed, m.customMetadata, ()), m.unknownFields))
    (fun ((path, version, currentVersion, oldestVersion, createdAt, updatedAt, deletedAt, destroyed,
      customMetadata, _), unknownFields) =>
      ⟨path, version, currentVersion, oldestVersion, createdAt, updatedAt, deletedAt, destroyed,
        customMetadata, unknownFields⟩)

structure GetSecretResponse where
  data : GoMap Bytes Bytes
  metadata : Option SecretMetadata
  unknownFields : Bytes

def getSecretResponse : Message GetSecretResponse :=
  .ofRecord "GetSecretResponse"
    [⟨_, mapKind 1 "Data"⟩, ⟨_, messageKind secretMetadata 2 "Metadata"⟩]
    (fun m => ((m.data, m.metadata, ()), m.unknownFields))
    (fun ((data, metadata, _), unknownFields) => ⟨data, metadata, unknownFields⟩)

structure PutSecretRequest where
  path : Bytes
  data : GoMap Bytes Bytes
  cas : Int32
  customMetadata : GoMap Bytes Bytes
  unknownFields : Bytes

def putSecretRequest : Message PutSecretRequest :=
  .ofRecord "PutSecretRequest"
    [⟨_, bytesKind 1 "Path"⟩, ⟨_, mapKind 2 "Data"⟩, ⟨_, int32Kind 3 "Cas"⟩,
      ⟨_, mapKind 4 "CustomMetadata"⟩]
    (fun m => ((m.path, m.data, m.cas, m.customMetadata, ()), m.unknownFields))
    (fun ((path, data, cas, customMetadata, _), unknownFields) =>
      ⟨path, data, cas, customMetadata, unknownFields⟩)

structure PutSecretResponse where
  version : Int32
  createdAt : Int64
  unknownFields : Bytes

def putSecretResponse : Message PutSecretResponse :=
  .ofRecord "PutSecretResponse" [⟨_, int32Kind 1 "Version"⟩, ⟨_, int64Kind 2 "CreatedAt"⟩]
    (fun m => ((m.version, m.createdAt, ()), m.unknownFields))
    (fun ((version, createdAt, _), unknownFields) => ⟨version, createdAt, unknownFields⟩)

structure DeleteSecretRequest where
  path : Bytes
  versions : List Int32
  permanent : Bool
  unknownFields : Bytes

def deleteSecretRequest : Message DeleteSecretRequest :=
  .ofRecord "DeleteSecretRequest"
    [⟨_, bytesKind 1 "Path"⟩, ⟨_, packedInt32Kind 2 "Versions"⟩, ⟨_, boolKind 3 "Permanent"⟩]
    (fun m => ((m.path, m.versions, m.permanent, ()), m.unknownFields))
    (fun ((path, versions, permanent, _), unknownFields) =>
      ⟨path, versions, permanent, unknownFields⟩)

structure ListSecretsRequest where
  pathPrefix : Bytes
  pagination : Option PaginationRequest
  unknownFields : Bytes

def listSecretsRequest : Message ListSecretsRequest :=
  .ofRecord "ListSecretsRequest"
    [⟨_, bytesKind 1 "PathPrefix"⟩, ⟨_, messageKind paginationRequest 2 "Pagination"⟩]
    (fun m => ((m.pathPrefix, m.pagination, ()), m.unknownFields))
    (fun ((pathPrefix, pagination, _), unknownFields) => ⟨pathPrefix, pagination, unknownFields⟩)

structure ListSecretsResponse where
  keys : List Bytes
  pagination : Option PaginationResponse
  unknownFields : Bytes

def listSecretsResponse : Message ListSecretsResponse :=
  .ofRecord "ListSecretsResponse"
    [⟨_, repeatedBytesKind 1 "Keys"⟩, ⟨_, messageKind paginationResponse 2 "Pagination"⟩]
    (fun m => ((m.keys, m.pagination, ()), m.unknownFields))
    (fun ((keys, pagination, _), unknownFields) => ⟨keys, pagination, unknownFields⟩)

structure GetSecretMetadataRequest where
  path : Bytes
  unknownFields : Bytes

def getSecretMetadataRequest : Message GetSecretMetadataRequest :=
  .ofRecord "GetSecretMetadataRequest" [⟨_, bytesKind 1 "Path"⟩]
    (fun m => ((m.path, ()), m.unknownFields))
    (fun ((path, _), unknownFields) => ⟨path, unknownFields⟩)

structure SecretVersionMetadata where
  version : Int32
  createdAt : Int64
  deletedAt : Int64
  destroyed : Bool
  unknownFields : Bytes

def secretVersionMetadata : Message SecretVersionMetadata :=
  .ofRecord "SecretVersionMetadata"
    [⟨_, int32Kind 1 "Version"⟩, ⟨_, int64Kind 2 "CreatedAt"⟩, ⟨_, int64Kind 3 "DeletedAt"⟩,
      ⟨_, boolKind 4 "Destroyed"⟩]
    (fun m => ((m.version, m.createdAt, m.deletedAt, m.destroyed, ()), m.unknownFields))
    (fun ((version, createdAt, deletedAt, destroyed, _), unknownFields) =>
      ⟨version, createdAt, deletedAt, destroyed, unknownFields⟩)

structure GetSecretMetadataResponse where
  metadata : Option SecretMetadata
  versions : List SecretVersionMetadata
  unknownFields : Bytes

def getSecretMetadataResponse : Message GetSecretMetadataResponse :=
  .ofRecord "GetSecretMetadataResponse"
    [⟨_, messageKind secretMetadata 1 "Metadata"⟩,
      ⟨_, repeatedMessageKind secretVersionMetadata 2 "Versions"⟩]
    (fun m => ((m.metadata, m.versions, ()), m.unknownFields))
    (fun ((metadata, versions, _), unknownFields) => ⟨metadata, versions, unknownFields⟩)

def deleteSecretResponse : Message SuccessResponse := successResponse "DeleteSecretResponse"

end Secrets

section Keys

structure KeyNameRequest where
  name : Bytes
  unknownFields : Bytes

/-- The messages that hold `string name = 1`. -/
def keyNameRequest (name : String) : Message KeyNameRequest :=
  .ofRecord name [⟨_, bytesKind 1 "Name"⟩] (fun m => ((m.name, ()), m.unknownFields))
    (fun ((name, _), unknownFields) => ⟨name, unknownFields⟩)

def getKeyRequest : Message KeyNameRequest := keyNameRequest "GetKeyRequest"

def deleteKeyRequest : Message KeyNameRequest := keyNameRequest "DeleteKeyRequest"

def deleteKeyResponse : Message SuccessResponse := successResponse "DeleteKeyResponse"

def rotateKeyRequest : Message KeyNameRequest := keyNameRequest "RotateKeyRequest"

def getKeyVersionsRequest : Message KeyNameRequest := keyNameRequest "GetKeyVersionsRequest"

def updateKeyConfigResponse : Message SuccessResponse := successResponse "UpdateKeyConfigResponse"

structure CreateKeyRequest where
  name : Bytes
  type : Int32
  exportable : Bool
  allowPlaintextBackup : Bool
  derived : Bool
  convergentEncryption : Bool
  minDecryptionVersion : Int32
  minEncryptionVersion : Int32
  autoRotatePeriod : Int64
  unknownFields : Bytes

def createKeyRequest : Message CreateKeyRequest :=
  .ofRecord "CreateKeyRequest"
    [⟨_, bytesKind 1 "Name"⟩, ⟨_, int32Kind 2 "Type"⟩, ⟨_, boolKind 3 "Exportable"⟩,
      ⟨_, boolKind 4 "AllowPlaintextBackup"⟩, ⟨_, boolKind 5 "Derived"⟩,
      ⟨_, boolKind 6 "ConvergentEncryption"⟩, ⟨_, int32Kind 7 "MinDecryptionVersion"⟩,
      ⟨_, int32Kind 8 "MinEncryptionVersion"⟩, ⟨_, int64Kind 9 "AutoRotatePeriod"⟩]
    (fun m => ((m.name, m.type, m.exportable, m.allowPlaintextBackup, m.derived,
      m.convergentEncryption, m.minDecryptionVersion, m.minEncryptionVersion, m.autoRotatePeriod,
      ()), m.unknownFields))
    (fun ((name, type, exportable, allowPlaintextBackup, derived, convergentEncryption,
      minDecryptionVersion, minEncryptionVersion, autoRotatePeriod, _), unknownFields) =>
      ⟨name, type, exportable, allowPlaintextBackup, derived, convergentEncryption,
        minDecryptionVersion, minEncryptionVersion, autoRotatePeriod, unknownFields⟩)

structure CreateKeyResponse where
  name : Bytes
  type : Int32
  latestVersion : Int32
  createdAt : Int64
  unknownFields : Bytes

def createKeyResponse : Message CreateKeyResponse :=
  .ofRecord "CreateKeyResponse"
    [⟨_, bytesKind 1 "Name"⟩, ⟨_, int32Kind 2 "Type"⟩, ⟨_, int32Kind 3 "LatestVersion"⟩,
      ⟨_, int64Kind 4 "CreatedAt"⟩]
    (fun m => ((m.name, m.type, m.latestVersion, m.createdAt, ()), m.unknownFields))
    (fun ((name, type, latestVersion, createdAt, _), unknownFields) =>
      ⟨name, type, latestVersion, createdAt, unknownFields⟩)

structure GetKeyResponse where
  name : Bytes
  type : Int32
  latestVersion : Int32
  minDecryptionVersion : Int32
  minEncryptionVersion : Int32
  exportable : Bool
  derived : Bool
  convergentEncryption : Bool
  autoRotatePeriod : Int64
  createdAt : Int64
  updatedAt : Int64
  unknownFields : Bytes

def getKeyResponse : Message GetKeyResponse :=
  .ofRecord "GetKeyResponse"
    [⟨_, bytesKind 1 "Name"⟩, ⟨_, int32Kind 2 "Type"⟩, ⟨_, int32Kind 3 "LatestVersion"⟩,
      ⟨_, int32Kind 4 "MinDecryptionVersion"⟩, ⟨_, int32Kind 5 "MinEncryptionVersion"⟩,
      ⟨_, boolKind 6 "Exportable"⟩, ⟨_, boolKind 7 "Derived"⟩,
      ⟨_, boolKind 8 "ConvergentEncryption"⟩, ⟨_, int64Kind 9 "AutoRotatePeriod"⟩,
      ⟨_, int64Kind 10 "CreatedAt"⟩, ⟨_, int64Kind 11 "UpdatedAt"⟩]
    (fun m => ((m.name, m.type, m.latestVersion, m.minDecryptionVersion, m.minEncryptionVersion,
      m.exportable, m.derived, m.convergentEncryption, m.autoRotatePeriod, m.createdAt, m.updatedAt,
      ()), m.unknownFields))
    (fun ((name, type, latestVersion, minDecryptionVersion, minEncryptionVersion, exportable,
      derived, convergentEncryption, autoRotatePeriod, createdAt, updatedAt, _), unknownFields) =>
      ⟨name, type, latestVersion, minDecryptionVersion, minEncryptionVersion, exportable, derived,
        convergentEncryption, autoRotatePeriod, createdAt, updatedAt, unknownFields⟩)

structure ListKeysRequest where
  pagination : Option PaginationRequest
  unknownFields : Bytes

def listKeysRequest : Message ListKeysRequest :=
  .ofRecord "ListKeysRequest" [⟨_, messageKind paginationRequest 1 "Pagination"⟩]
    (fun m => ((m.pagination, ()), m.unknownFields))
    (fun ((pagination, _), unknownFields) => ⟨pagination, unknownFields⟩)

structure ListKeysResponse where
  keys : List Bytes
  pagination : Option PaginationResponse
  unknownFields : Bytes

def listKeysResponse : Message ListKeysResponse :=
  .ofRecord "ListKeysResponse"
    [⟨_, repeatedBytesKind 1 "Keys"⟩, ⟨_, messageKind paginationResponse 2 "Pagination"⟩]
    (fun m => ((m.keys, m.pagination, ()), m.unknownFields))
    (fun ((keys, pagination, _), unknownFields) => ⟨keys, pagination, unknownFields⟩)

structure RotateKeyResponse where
  newVersion : Int32
  rotatedAt : Int64
  unknownFields : Bytes

def rotateKeyResponse : Message RotateKeyResponse :=
  .ofRecord "RotateKeyResponse" [⟨_, int32Kind 1 "NewVersion"⟩, ⟨_, int64Kind 2 "RotatedAt"⟩]
    (fun m => ((m.newVersion, m.rotatedAt, ()), m.unknownFields))
    (fun ((newVersion, rotatedAt, _), unknownFields) => ⟨newVersion, rotatedAt, unknownFields⟩)

structure UpdateKeyConfigRequest where
  name : Bytes
  minDecryptionVersion : Int32
  minEncryptionVersion : Int32
  deletionAllowed : Bool
  exportable : Bool
  autoRotatePeriod : Int64
  unknownFields : Bytes

def updateKeyConfigRequest : Message UpdateKeyConfigRequest :=
  .ofRecord "UpdateKeyConfigRequest"
    [⟨_, bytesKind 1 "Name"⟩, ⟨_, int32Kind 2 "MinDecryptionVersion"⟩,
      ⟨_, int32Kind 3 "MinEncryptionVersion"⟩, ⟨_, boolKind 4 "DeletionAllowed"⟩,
      ⟨_, boolKind 5 "Exportable"⟩, ⟨_, int64Kind 6 "AutoRotatePeriod"⟩]
    (fun m => ((m.name, m.minDecryptionVersion, m.minEncryptionVersion, m.deletionAllowed,
      m.exportable, m.autoRotatePeriod, ()), m.unknownFields))
    (fun ((name, minDecryptionVersion, minEncryptionVersion, deletionAllowed, exportable,
      autoRotatePeriod, _), unknownFields) =>
      ⟨name, minDecryptionVersion, minEncryptionVersion, deletionAllowed, exportable,
        autoRotatePeriod, unknownFields⟩)

structure KeyVersion where
  version : Int32
  createdAt : Int64
  publicKey : Bytes
  unknownFields : Bytes

def keyVersion : Message KeyVersion :=
  .ofRecord "KeyVersion"
    [⟨_, int32Kind 1 "Version"⟩, ⟨_, int64Kind 2 "CreatedAt"⟩, ⟨_, bytesKind 3 "PublicKey"⟩]
    (fun m => ((m.version, m.createdAt, m.publicKey, ()), m.unknownFields))
    (fun ((version, createdAt, publicKey, _), unknownFields) =>
      ⟨version, createdAt, publicKey, unknownFields⟩)

structure GetKeyVersionsResponse where
  name : Bytes
  type : Int32
  versions : List KeyVersion
  unknownFields : Bytes

def getKeyVersionsResponse : Message GetKeyVersionsResponse :=
  .ofRecord "GetKeyVersionsResponse"
    [⟨_, bytesKind 1 "Name"⟩, ⟨_, int32Kind 2 "Type"⟩,
      ⟨_, repeatedMessageKind keyVersion 3 "Versions"⟩]
    (fun m => ((m.name, m.type, m.versions, ()), m.unknownFields))
    (fun ((name, type, versions, _), unknownFields) => ⟨name, type, versions, unknownFields⟩)

structure GetEncryptionKeyRequest where
  name : Bytes
  version : Int32
  unknownFields : Bytes

def getEncryptionKeyRequest : Message GetEncryptionKeyRequest :=
  .ofRecord "GetEncryptionKeyRequest" [⟨_, bytesKind 1 "Name"⟩, ⟨_, int32Kind 2 "Version"⟩]
    (fun m => ((m.name, m.version, ()), m.unknownFields))
    (fun ((name, version, _), unknownFields) => ⟨name, version, unknownFields⟩)

structure GetEncryptionKeyResponse where
  key : Bytes
  version : Int32
  type : Int32
  publicKey : Bytes
  unknownFields : Bytes

def getEncryptionKeyResponse : Message GetEncryptionKeyResponse :=
  .ofRecord "GetEncryptionKeyResponse"
    [⟨_, bytesKind 1 "Key"⟩, ⟨_, int32Kind 2 "Version"⟩, ⟨_, int32Kind 3 "Type"⟩,
      ⟨_, bytesKind 4 "PublicKey"⟩]
    (fun m => ((m.key, m.version, m.type, m.publicKey, ()), m.unknownFields))
    (fun ((key, version, type, publicKey, _), unknownFields) =>
      ⟨key, version, type, publicKey, unknownFields⟩)

end Keys

section Seal

structure SealStatus where
  sealed : Bool
  initialized : Bool
  threshold : Int32
  shares : Int32
  progress : Int32
  sealType : Bytes
  clusterId : Bytes
  clusterName : Bytes
  version : Bytes
  unknownFields : Bytes

def sealStatus : Message SealStatus :=
  .ofRecord "SealStatus"
    [⟨_, boolKind 1 "Sealed"⟩, ⟨_, boolKind 2 "Initialized"⟩, ⟨_, int32Kind 3 "Threshold"⟩,
      ⟨_, int32Kind 4 "Shares"⟩, ⟨_, int32Kind 5 "Progress"⟩, ⟨_, bytesKind 6 "SealType"⟩,
      ⟨_, bytesKind 7 "ClusterId"⟩, ⟨_, bytesKind 8 "ClusterName"⟩, ⟨_, bytesKind 9 "Version"⟩]
    (fun m => ((m.sealed, m.initialized, m.threshold, m.shares, m.progress, m.sealType, m.clusterId,
      m.clusterName, m.version, ()), m.unknownFields))
    (fun ((sealed, initialized, threshold, shares, progress, sealType, clusterId, clusterName,
      version, _), unknownFields) =>
      ⟨sealed, initialized, threshold, shares, progress, sealType, clusterId, clusterName, version,
        unknownFields⟩)

structure InitializeRequest where
  secretShares : Int32
  secretThreshold : Int32
  pgpKeys : List Bytes
  rootTokenPgpKey : Bytes
  recoveryKeys : List Bytes
  recoveryShares : Int32
  recoveryThreshold : Int32
  unknownFields : Bytes

def initializeRequest : Message InitializeRequest :=
  .ofRecord "InitializeRequest"
    [⟨_, int32Kind 1 "SecretShares"⟩, ⟨_, int32Kind 2 "SecretThreshold"⟩,
      ⟨_, repeatedBytesKind 3 "PgpKeys"⟩, ⟨_, bytesKind 4 "RootTokenPgpKey"⟩,
      ⟨_, repeatedBytesKind 5 "RecoveryKeys"⟩, ⟨_, int32Kind 6 "RecoveryShares"⟩,
      ⟨_, int32Kind 7 "RecoveryThreshold"⟩]
    (fun m => ((m.secretShares, m.secretThreshold, m.pgpKeys, m.rootTokenPgpKey, m.recoveryKeys,
      m.recoveryShares, m.recoveryThreshold, ()), m.unknownFields))
    (fun ((secretShares, secretThreshold, pgpKeys, rootTokenPgpKey, recoveryKeys, recoveryShares,
      recoveryThreshold, _), unknownFields) =>
      ⟨secretShares, secretThreshold, pgpKeys, rootTokenPgpKey, recoveryKeys, recoveryShares,
        recoveryThreshold, unknownFields⟩)

structure InitializeResponse where
  keys : List Bytes
  keysBase64 : List Bytes
  rootTokens : List Bytes
  recoveryKeys : List Bytes
  recoveryKeysBase64 : List Bytes
  unknownFields : Bytes

def initializeResponse : Message InitializeResponse :=
  .ofRecord "InitializeResponse"
    [⟨_, repeatedBytesKind 1 "Keys"⟩, ⟨_, repeatedBytesKind 2 "KeysBase64"⟩,
      ⟨_, repeatedBytesKind 3 "RootTokens"⟩, ⟨_, repeatedBytesKind 4 "RecoveryKeys"⟩,
      ⟨_, repeatedBytesKind 5 "RecoveryKeysBase64"⟩]
    (fun m => ((m.keys, m.keysBase64, m.rootTokens, m.recoveryKeys, m.recoveryKeysBase64,
      ()), m.unknownFields))
    (fun ((keys, keysBase64, rootTokens, recoveryKeys, recoveryKeysBase64, _), unknownFields) =>
      ⟨keys, keysBase64, rootTokens, recoveryKeys, recoveryKeysBase64, unknownFields⟩)

structure UnsealRequest where
  key : Bytes
  reset : Bool
  unknownFields : Bytes

def unsealRequest : Message UnsealRequest :=
  .ofRecord "UnsealRequest" [⟨_, bytesKind 1 "Key"⟩, ⟨_, boolKind 2 "Reset_"⟩]
    (fun m => ((m.key, m.reset, ()), m.unknownFields))
    (fun ((key, reset, _), unknownFields) => ⟨key, reset, unknownFields⟩)

def getSealStatusRequest : Message EmptyRequest := emptyRequest "GetSealStatusRequest"

def sealRequest : Message EmptyRequest := emptyRequest "SealRequest"

end Seal

end GrpcVault.Wire
