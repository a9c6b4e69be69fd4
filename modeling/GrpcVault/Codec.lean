import GrpcVault.LockWire

/-!
# The codec

Every service registers this codec for its calls: a message that knows how to marshal itself is
marshalled and unmarshalled by its own generated functions. A text it has written is read back as
the same message whatever the orders in which the maps were written, and what it accepts keeps its
meaning when it is written again. Messages of other packages, for which `proto.Marshal` and
`proto.Unmarshal` would be called, are left out.
-/

namespace GrpcVault

open GoText Proto

inductive MessageType where
  | getSecretRequest
  | getSecretResponse
  | putSecretRequest
  | putSecretResponse
  | deleteSecretRequest
  | listSecretsRequest
  | listSecretsResponse
  | getSecretMetadataRequest
  | getSecretMetadataResponse
  | deleteSecretResponse
  | getKeyRequest
  | deleteKeyRequest
  | deleteKeyResponse
  | rotateKeyRequest
  | getKeyVersionsRequest
  | updateKeyConfigResponse
  | createKeyRequest
  | createKeyResponse
  | getKeyResponse
  | listKeysRequest
  | listKeysResponse
  | rotateKeyResponse
  | updateKeyConfigRequest
  | getKeyVersionsResponse
  | getEncryptionKeyRequest
  | getEncryptionKeyResponse
  | sealStatus
  | initializeRequest
  | initializeResponse
  | unsealRequest
  | getSealStatusRequest
  | sealRequest

namespace MessageType

def Value : MessageType → Type
  | .getSecretRequest => Wire.GetSecretRequest
  | .getSecretResponse => Wire.GetSecretResponse
  | .putSecretRequest => Wire.PutSecretRequest
  | .putSecretResponse => Wire.PutSecretResponse
  | .deleteSecretRequest => Wire.DeleteSecretRequest
  | .listSecretsRequest => Wire.ListSecretsRequest
  | .listSecretsResponse => Wire.ListSecretsResponse
  | .getSecretMetadataRequest => Wire.GetSecretMetadataRequest
  | .getSecretMetadataResponse => Wire.GetSecretMetadataResponse
  | .deleteSecretResponse | .deleteKeyResponse | .updateKeyConfigResponse => Wire.SuccessResponse
  | .getKeyRequest | .deleteKeyRequest | .rotateKeyRequest | .getKeyVersionsRequest =>
      Wire.KeyNameRequest
  | .createKeyRequest => Wire.CreateKeyRequest
  | .createKeyResponse => Wire.CreateKeyResponse
  | .getKeyResponse => Wire.GetKeyResponse
  | .listKeysRequest => Wire.ListKeysRequest
  | .listKeysResponse => Wire.ListKeysResponse
  | .rotateKeyResponse => Wire.RotateKeyResponse
  | .updateKeyConfigRequest => Wire.UpdateKeyConfigRequest
  | .getKeyVersionsResponse => Wire.GetKeyVersionsResponse
  | .getEncryptionKeyRequest => Wire.GetEncryptionKeyRequest
  | .getEncryptionKeyResponse => Wire.GetEncryptionKeyResponse
  | .sealStatus => Wire.SealStatus
  | .initializeRequest => Wire.InitializeRequest
  | .initializeResponse => Wire.InitializeResponse
  | .unsealRequest => Wire.UnsealRequest
  | .getSealStatusRequest | .sealRequest => Wire.EmptyRequest

def message : (t : MessageType) → Message t.Value
  | .getSecretRequest => Wire.getSecretRequest
  | .getSecretResponse => Wire.getSecretResponse
  | .putSecretRequest => Wire.putSecretRequest
  | .putSecretResponse => Wire.putSecretResponse
  | .deleteSecretRequest => Wire.deleteSecretRequest
  | .listSecretsRequest => Wire.listSecretsRequest
  | .listSecretsResponse => Wire.listSecretsResponse
  | .getSecretMetadataRequest => Wire.getSecretMetadataRequest
  | .getSecretMetadataResponse => Wire.getSecretMetadataResponse
  | .deleteSecretResponse => Wire.deleteSecretResponse
  | .getKeyRequest => Wire.getKeyRequest
  | .deleteKeyRequest => Wire.deleteKeyRequest
  | .deleteKeyResponse => Wire.deleteKeyResponse
  | .rotateKeyRequest => Wire.rotateKeyRequest
  | .getKeyVersionsRequest => Wire.getKeyVersionsRequest
  | .updateKeyConfigResponse => Wire.updateKeyConfigResponse
  | .createKeyRequest => Wire.createKeyRequest
  | .createKeyResponse => Wire.createKeyResponse
  | .getKeyResponse => Wire.getKeyResponse
  | .listKeysRequest => Wire.listKeysRequest
  | .listKeysResponse => Wire.listKeysResponse
  | .rotateKeyResponse => Wire.rotateKeyResponse
  | .updateKeyConfigRequest => Wire.updateKeyConfigRequest
  | .getKeyVersionsResponse => Wire.getKeyVersionsResponse
  | .getEncryptionKeyRequest => Wire.getEncryptionKeyRequest
  | .getEncryptionKeyResponse => Wire.getEncryptionKeyResponse
  | .sealStatus => Wire.sealStatus
  | .initializeRequest => Wire.initializeRequest
  | .initializeResponse => Wire.initializeResponse
  | .unsealRequest => Wire.unsealRequest
  | .getSealStatusRequest => Wire.getSealStatusRequest
  | .sealRequest => Wire.sealRequest

end MessageType

namespace Codec

variable {t : MessageType}

/-- `Marshal`; `none` is the panic of a write that leaves the buffer. -/
def marshal (o : MapOrder) (t : MessageType) (v : t.Value) : Option Bytes := t.message.marshalVT o v

def unmarshal (t : MessageType) (data : Bytes) (v : t.Value) : Decode t.Value :=
  t.message.unmarshalVT v data

/-- The message that a call makes for what it receives. -/
def new (t : MessageType) : t.Value := t.message.zero

end Codec

end GrpcVault
