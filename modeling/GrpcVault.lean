import GrpcVault.SealCycle
import GrpcVault.ThresholdUnseal
import GrpcVault.SealState
import GrpcVault.SecretStore
import GrpcVault.CheckAndSet
import GrpcVault.KeyIsolation
import GrpcVault.RotationEffect
import GrpcVault.DecryptBinding
import GrpcVault.TokenRevocation
import GrpcVault.TokenExpiry
import GrpcVault.PolicyOrder
import GrpcVault.PolicyAgreement
import GrpcVault.KeyInvalidation
import GrpcVault.BreakerAttribution
import GrpcVault.AuditDelivery
import GrpcVault.CipherCache
import GrpcVault.Transformations
import GrpcVault.ApiKeys
import GrpcVault.AuditStorage
import GrpcVault.Lib.TokenBucket
import GrpcVault.RateBound
import GrpcVault.ClientIsolation
import GrpcVault.DecryptBatch
import GrpcVault.PathPatterns
import GrpcVault.EnvelopeRoundTrip
import GrpcVault.PolicyContext
import GrpcVault.Lib.WorkerPool
import GrpcVault.ShareSubmission
import GrpcVault.AuditRetention
import GrpcVault.AuditWindows
import GrpcVault.FpeBatch
import GrpcVault.AuditPaging
import GrpcVault.Lib.Utf8
import GrpcVault.Masking
import GrpcVault.BreakerInterval
import GrpcVault.CredentialListing
import GrpcVault.TokenLifetimes
import GrpcVault.ExpiredRecords
import GrpcVault.GatewayAuth
import GrpcVault.CacheExpiry
import GrpcVault.Lib.Resources
import GrpcVault.ConnectionPool
import GrpcVault.Codec
import GrpcVault.BreakerManager
import GrpcVault.ConnectionCalls
import GrpcVault.LockInterleaving
import GrpcVault.AuthEndpoints
import GrpcVault.AuthProvenance
