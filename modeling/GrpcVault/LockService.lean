import GrpcVault.KeyringVersions
import GrpcVault.Lib.EventSystem

/-!
# The lock service

The vault with its seal, its secrets and its keyring. Each operation of
`LockService` is a function of the state; `LockService.step` runs one operation
and is `none` where the process panics: a negative number of shares, or an empty
first share when the threshold is reached. `Effect` lists everything an
operation can do to the state.
-/

namespace GrpcVault

open GoText EventSystem

inductive LockError where
  | vaultSealed
  | notSealed
  | notInitialized
  | alreadyInitialized
  | invalidKey
  | secretNotFound
  | noShares
  | random
  | keyring (e : KeyringError)
  deriving DecidableEq

/-- The texts of the service's errors; a failing random source has its own. -/
def LockError.message : LockError → String
  | .vaultSealed => "vault is sealed"
  | .notSealed => "vault is not sealed"
  | .notInitialized => "vault is not initialized"
  | .alreadyInitialized => "vault is already initialized"
  | .invalidKey => "invalid unseal key"
  | .secretNotFound => "secret not found"
  | .noShares => "no shares provided"
  | .random => ""
  | .keyring e => e.message

structure Secret where
  data : GoMap Str Bytes
  version : ℤ
  createdAt : ℤ
  updatedAt : ℤ

structure LockService where
  initialized : Bool
  sealed : Bool
  masterKey : Bytes
  shamirKeys : List Bytes
  threshold : ℤ
  unsealKeys : List Bytes
  secrets : GoMap Str Secret
  keyring : Keyring
  barrierKey : Bytes

/-- `threshold` is the configured one, in force until the vault is initialized. -/
def newLockService (threshold : ℤ) : LockService where
  initialized := false
  sealed := true
  masterKey := []
  shamirKeys := []
  threshold := threshold
  unsealKeys := []
  secrets := ∅
  keyring := newKeyring
  barrierKey := []

/-- The placeholder split: every share is the whole secret behind an index byte.
`none` is the panic of `make` on a negative length. -/
def shamirSplit (secret : Bytes) (shares _threshold : ℤ) : Option (List Bytes) :=
  if shares < 0 then none
  else some ((List.range shares.toNat).map fun i => UInt8.ofNat (i + 1) :: secret)

/-- The placeholder reconstruction looks at the first share only, without its
index byte. `none` is the panic of the slice expression on an empty share. -/
def shamirCombine : List Bytes → Option (Except LockError Bytes)
  | [] => some (.error .noShares)
  | [] :: _ => none
  | (_ :: secret) :: _ => some (.ok secret)

def bytesEqual (a b : Bytes) : Bool :=
  if a.length ≠ b.length then false
  else (a.zip b).all fun (x, y) => x = y

def constRead (b : UInt8) : RandRead 32 := some ⟨List.replicate 32 b, rfl⟩

def zeroRead : RandRead 32 := constRead 0

/-- The only share of a vault initialized with `zeroRead` and one share. -/
def zeroShare : Str := Base64.encodeToString (1 :: List.replicate 32 0)

structure InitRand where
  masterKey : RandRead 32
  barrierKey : RandRead 32
  rootToken : RandRead 32

namespace LockService

variable (s : LockService)

def initializeVault (shares threshold : ℤ) (rand : InitRand) :
    Option (LockService × Except LockError (List Str × Str)) :=
  if s.initialized then some (s, .error .alreadyInitialized)
  else
    match rand.masterKey with
    | none => some (s, .error .random)
    | some masterKey =>
        match shamirSplit masterKey shares threshold with
        | none => none
        | some shamirKeys =>
            match rand.barrierKey, rand.rootToken with
            | some barrierKey, some rootToken =>
                some ({ s with
                  masterKey, shamirKeys, barrierKey, threshold
                  initialized := true
                  sealed := false },
                  .ok (shamirKeys.map Base64.encodeToString, Base64.encodeToString rootToken))
            | _, _ => some (s, .error .random)

def reconstruct (unsealKeys : List Bytes) :
    Option (LockService × (Bool × ℤ × Option LockError)) :=
  match shamirCombine unsealKeys with
  | none => none
  | some (.error _) => some ({ s with unsealKeys := [] }, (false, 0, some .invalidKey))
  | some (.ok reconstructed) =>
      if !bytesEqual reconstructed s.masterKey then
        some ({ s with unsealKeys := [] }, (false, 0, some .invalidKey))
      else some ({ s with sealed := false, unsealKeys := [] }, (true, s.threshold, none))

def unsealVault (keyShare : Str) : Option (LockService × (Bool × ℤ × Option LockError)) :=
  if !s.initialized then some (s, (false, 0, some .notInitialized))
  else if !s.sealed then some (s, (true, s.threshold, none))
  else
    match Base64.decodeString keyShare with
    | none => some (s, (false, s.unsealKeys.length, some .invalidKey))
    | some keyBytes =>
        let unsealKeys := s.unsealKeys ++ [keyBytes]
        if s.threshold ≤ unsealKeys.length then s.reconstruct unsealKeys
        else some ({ s with unsealKeys }, (false, unsealKeys.length, none))

def sealVault : LockService × Option LockError :=
  if !s.initialized then (s, some .notInitialized)
  else if s.sealed then (s, some .notSealed)
  else ({ s with keyring := s.keyring.sealKeyring, unsealKeys := [], sealed := true }, none)

def isSealed : Bool := s.sealed

def isInitialized : Bool := s.initialized

def getSealStatus : Bool × Bool × ℤ × ℤ :=
  (s.sealed, s.initialized, s.threshold, s.unsealKeys.length)

def putSecret (path : Str) (data : GoMap Str Bytes) (now : ℤ) : LockService × Except LockError ℤ :=
  if s.sealed then (s, .error .vaultSealed)
  else
    let version :=
      match s.secrets.lookup path with
      | some existing => existing.version + 1
      | none => 1
    ({ s with secrets :=
        s.secrets.insert path { data, version, createdAt := now, updatedAt := now } }, .ok version)

def getSecret (path : Str) : Except LockError Secret :=
  if s.sealed then .error .vaultSealed
  else
    match s.secrets.lookup path with
    | none => .error .secretNotFound
    | some secret => .ok secret

def deleteSecret (path : Str) : LockService × Option LockError :=
  if s.sealed then (s, some .vaultSealed)
  else
    match s.secrets.lookup path with
    | none => (s, some .secretNotFound)
    | some _ => ({ s with secrets := s.secrets.erase path }, none)

/-- The listed paths, in no particular order. -/
def listSecrets (pathPrefix : Str) : Except LockError (Finset Str) :=
  if s.sealed then .error .vaultSealed
  else .ok (s.secrets.keys.filter fun path => pathPrefix <+: path)

def liftKeyring {α : Type} : Except KeyringError α → Except LockError α
  | .ok a => .ok a
  | .error e => .error (.keyring e)

def createKey (name : Str) (keyType : KeyType) (rand : RandRead 32) (now : ℤ) :
    LockService × Except LockError Unit :=
  if s.sealed then (s, .error .vaultSealed)
  else
    let (keyring, result) := s.keyring.createKey name keyType [] rand now
    ({ s with keyring }, (liftKeyring result).map fun _ => ())

def getKey (name : Str) : Except LockError KeyPolicy :=
  if s.sealed then .error .vaultSealed else liftKeyring (s.keyring.getKey name)

def getEncryptionKey (name : Str) (version : ℤ) : Except LockError Key :=
  if s.sealed then .error .vaultSealed else liftKeyring (s.keyring.getKeyVersion name version)

def rotateKey (name : Str) (rand : RandRead 32) (now : ℤ) : LockService × Except LockError ℤ :=
  if s.sealed then (s, .error .vaultSealed)
  else
    let (keyring, result) := s.keyring.rotateKey name rand now
    ({ s with keyring }, liftKeyring result)

def listKeys : Except LockError (Finset Str) :=
  if s.sealed then .error .vaultSealed else .ok s.keyring.listKeys

end LockService

inductive LockOp where
  | initializeVault (shares threshold : ℤ) (rand : InitRand)
  | unsealVault (keyShare : Str)
  | sealVault
  | isSealed
  | isInitialized
  | getSealStatus
  | putSecret (path : Str) (data : GoMap Str Bytes) (now : ℤ)
  | getSecret (path : Str)
  | deleteSecret (path : Str)
  | listSecrets (pathPrefix : Str)
  | createKey (name : Str) (keyType : KeyType) (rand : RandRead 32) (now : ℤ)
  | getKey (name : Str)
  | getEncryptionKey (name : Str) (version : ℤ)
  | rotateKey (name : Str) (rand : RandRead 32) (now : ℤ)
  | listKeys

inductive LockReply where
  | initializeVault (result : Except LockError (List Str × Str))
  | unsealVault (result : Bool × ℤ × Option LockError)
  | sealVault (error : Option LockError)
  | isSealed (result : Bool)
  | isInitialized (result : Bool)
  | getSealStatus (status : Bool × Bool × ℤ × ℤ)
  | putSecret (result : Except LockError ℤ)
  | getSecret (result : Except LockError Secret)
  | deleteSecret (error : Option LockError)
  | listSecrets (result : Except LockError (Finset Str))
  | createKey (result : Except LockError Unit)
  | getKey (result : Except LockError KeyPolicy)
  | getEncryptionKey (result : Except LockError Key)
  | rotateKey (result : Except LockError ℤ)
  | listKeys (result : Except LockError (Finset Str))

/-- The reply tells that the operation changed secrets, keys or the seal's setup. -/
def LockReply.wrote : LockReply → Bool
  | .initializeVault (.ok _) => true
  | .putSecret (.ok _) => true
  | .deleteSecret none => true
  | .createKey (.ok _) => true
  | .rotateKey (.ok _) => true
  | _ => false

namespace LockService

/-- One operation under the service's lock; `none` where the process panics. -/
def step : Step LockService LockOp LockReply
  | s, .initializeVault shares threshold rand =>
      (s.initializeVault shares threshold rand).map fun (s', r) => (s', .initializeVault r)
  | s, .unsealVault keyShare => (s.unsealVault keyShare).map fun (s', r) => (s', .unsealVault r)
  | s, .sealVault => some (s.sealVault.1, .sealVault s.sealVault.2)
  | s, .isSealed => some (s, .isSealed s.isSealed)
  | s, .isInitialized => some (s, .isInitialized s.isInitialized)
  | s, .getSealStatus => some (s, .getSealStatus s.getSealStatus)
  | s, .putSecret path data now =>
      some ((s.putSecret path data now).1, .putSecret (s.putSecret path data now).2)
  | s, .getSecret path => some (s, .getSecret (s.getSecret path))
  | s, .deleteSecret path => some ((s.deleteSecret path).1, .deleteSecret (s.deleteSecret path).2)
  | s, .listSecrets pathPrefix => some (s, .listSecrets (s.listSecrets pathPrefix))
  | s, .createKey name keyType rand now =>
      some ((s.createKey name keyType rand now).1, .createKey (s.createKey name keyType rand now).2)
  | s, .getKey name => some (s, .getKey (s.getKey name))
  | s, .getEncryptionKey name version =>
      some (s, .getEncryptionKey (s.getEncryptionKey name version))
  | s, .rotateKey name rand now =>
      some ((s.rotateKey name rand now).1, .rotateKey (s.rotateKey name rand now).2)
  | s, .listKeys => some (s, .listKeys s.listKeys)

/-- The shares in hand reconstruct the master key: the first one carries it. -/
def Carries (s : LockService) (unsealKeys : List Bytes) : Prop :=
  ∃ index rest, unsealKeys = (index :: s.masterKey) :: rest

inductive Effect (s : LockService) : LockOp → LockReply → LockService → Prop
  | keep {op r} (hop : ∀ keyShare, op ≠ .unsealVault keyShare) (hr : r.wrote = false) :
      Effect s op r s
  | ignored {keyShare r}
      (hd : s.initialized = true → s.sealed = true → Base64.decodeString keyShare = none) :
      Effect s (.unsealVault keyShare) (.unsealVault r) s
  | initialized {shares threshold : ℤ} {rand : InitRand} {rootToken : Str}
      {masterKey barrierKey : { b : Bytes // b.length = 32 }} {shamirKeys : List Bytes}
      (hi : s.initialized = false) (hm : rand.masterKey = some masterKey)
      (hb : rand.barrierKey = some barrierKey)
      (hsplit : shamirSplit masterKey shares threshold = some shamirKeys) :
      Effect s (.initializeVault shares threshold rand)
        (.initializeVault (.ok (shamirKeys.map Base64.encodeToString, rootToken)))
        { s with
          masterKey := masterKey, barrierKey := barrierKey
          shamirKeys, threshold, initialized := true, sealed := false }
  | share {keyShare keyBytes r} (hi : s.initialized = true) (hs : s.sealed = true)
      (hd : Base64.decodeString keyShare = some keyBytes)
      (ht : ((s.unsealKeys ++ [keyBytes]).length : ℤ) < s.threshold) :
      Effect s (.unsealVault keyShare) (.unsealVault r)
        { s with unsealKeys := s.unsealKeys ++ [keyBytes] }
  | refuse {keyShare keyBytes r} (hi : s.initialized = true) (hs : s.sealed = true)
      (hd : Base64.decodeString keyShare = some keyBytes)
      (ht : s.threshold ≤ (s.unsealKeys ++ [keyBytes]).length)
      (hc : ¬ s.Carries (s.unsealKeys ++ [keyBytes])) :
      Effect s (.unsealVault keyShare) (.unsealVault r) { s with unsealKeys := [] }
  | unsealed {keyShare keyBytes r} (hi : s.initialized = true) (hs : s.sealed = true)
      (hd : Base64.decodeString keyShare = some keyBytes)
      (ht : s.threshold ≤ (s.unsealKeys ++ [keyBytes]).length)
      (hc : s.Carries (s.unsealKeys ++ [keyBytes])) :
      Effect s (.unsealVault keyShare) (.unsealVault r) { s with sealed := false, unsealKeys := [] }
  | sealed (hi : s.initialized = true) (hs : s.sealed = false) :
      Effect s .sealVault (.sealVault none)
        { s with keyring := s.keyring.sealKeyring, unsealKeys := [], sealed := true }
  | putSecret {path data now version secrets} (hs : s.sealed = false) :
      Effect s (.putSecret path data now) (.putSecret (.ok version)) { s with secrets }
  | deleteSecret {path secrets} (hs : s.sealed = false) :
      Effect s (.deleteSecret path) (.deleteSecret none) { s with secrets }
  | createKey {name keyType rand now keyring policy} (hs : s.sealed = false)
      (hk : s.keyring.createKey name keyType [] rand now = (keyring, .ok policy)) :
      Effect s (.createKey name keyType rand now) (.createKey (.ok ())) { s with keyring }
  | rotateKey {name rand now keyring version} (hs : s.sealed = false)
      (hk : s.keyring.rotateKey name rand now = (keyring, .ok version)) :
      Effect s (.rotateKey name rand now) (.rotateKey (.ok version)) { s with keyring }

theorem bytesEqual_eq_true {a b : Bytes} : bytesEqual a b = true ↔ a = b := by
  induction a generalizing b with
  | nil => cases b <;> simp [bytesEqual]
  | cons x a ih =>
      cases b with
      | nil => simp [bytesEqual]
      | cons y b =>
          have h := @ih b
          by_cases hl : a.length = b.length
          · simp_all [bytesEqual]
          · have hab : a ≠ b := fun hab => hl (congrArg List.length hab)
            simp [bytesEqual, hl, hab]

variable {s s' : LockService}

/-- Once the threshold is reached, either the first share carries the master key and
the vault opens, or the shares are dropped. -/
theorem reconstruct_cases {unsealKeys : List Bytes} {r : Bool × ℤ × Option LockError}
    (h : s.reconstruct unsealKeys = some (s', r)) :
    (s.Carries unsealKeys ∧ s' = { s with sealed := false, unsealKeys := [] } ∧
        r = (true, s.threshold, none)) ∨
      (¬ s.Carries unsealKeys ∧ s' = { s with unsealKeys := [] } ∧
        r = (false, 0, some .invalidKey)) := by
  cases unsealKeys with
  | nil =>
      cases h
      exact .inr ⟨by simp [Carries], rfl, rfl⟩
  | cons share rest =>
      cases share with
      | nil => cases h
      | cons index secret =>
          simp only [reconstruct, shamirCombine] at h
          by_cases hb : bytesEqual secret s.masterKey = true
          · rw [if_neg (by simp [hb])] at h
            cases h
            rw [bytesEqual_eq_true] at hb
            exact .inl ⟨⟨index, rest, by rw [hb]⟩, rfl, rfl⟩
          · rw [if_pos (by simpa using hb)] at h
            cases h
            rw [bytesEqual_eq_true] at hb
            refine .inr ⟨?_, rfl, rfl⟩
            intro hc
            obtain ⟨i, t, ht⟩ := hc
            exact hb (List.cons.inj (List.cons.inj ht).1).2

theorem initializeVault_effect {shares threshold : ℤ} {rand : InitRand}
    {r : Except LockError (List Str × Str)}
    (h : s.initializeVault shares threshold rand = some (s', r)) :
    Effect s (.initializeVault shares threshold rand) (.initializeVault r) s' := by
  unfold initializeVault at h
  split at h
  · cases h
    exact .keep nofun rfl
  · rename_i hi
    split at h
    · cases h
      exact .keep nofun rfl
    · rename_i masterKey hm
      split at h
      · cases h
      · rename_i shamirKeys hsplit
        split at h
        · rename_i barrierKey rootToken hb _
          cases h
          exact .initialized (by simpa using hi) hm hb hsplit
        · cases h
          exact .keep nofun rfl

theorem unsealVault_effect {keyShare : Str} {r : Bool × ℤ × Option LockError}
    (h : s.unsealVault keyShare = some (s', r)) :
    Effect s (.unsealVault keyShare) (.unsealVault r) s' := by
  unfold unsealVault at h
  split at h
  · rename_i hi
    cases h
    exact .ignored (fun ht => by simp [ht] at hi)
  · rename_i hi
    split at h
    · rename_i hs
      cases h
      exact .ignored (fun _ ht => by simp [ht] at hs)
    · rename_i hs
      split at h
      · rename_i hd
        cases h
        exact .ignored (fun _ _ => hd)
      · rename_i keyBytes hd
        simp only [Bool.not_eq_true', Bool.not_eq_false] at hi hs
        by_cases ht : s.threshold ≤ (s.unsealKeys ++ [keyBytes]).length
        · rw [if_pos ht] at h
          obtain ⟨hc, rfl, _⟩ | ⟨hc, rfl, _⟩ := reconstruct_cases h
          · exact .unsealed hi hs hd ht hc
          · exact .refuse hi hs hd ht hc
        · rw [if_neg ht] at h
          cases h
          exact .share hi hs hd (not_le.mp ht)

theorem sealVault_effect : Effect s .sealVault (.sealVault s.sealVault.2) s.sealVault.1 := by
  unfold sealVault
  split_ifs with hi hs
  · exact .keep nofun rfl
  · exact .keep nofun rfl
  · exact .sealed (by simpa using hi) (by simpa using hs)

theorem putSecret_effect {path : Str} {data : GoMap Str Bytes} {now : ℤ} :
    Effect s (.putSecret path data now) (.putSecret (s.putSecret path data now).2)
      (s.putSecret path data now).1 := by
  unfold putSecret
  split_ifs with hs
  · exact .keep nofun rfl
  · exact .putSecret (by simpa using hs)

theorem deleteSecret_effect {path : Str} :
    Effect s (.deleteSecret path) (.deleteSecret (s.deleteSecret path).2)
      (s.deleteSecret path).1 := by
  unfold deleteSecret
  split_ifs with hs
  · exact .keep nofun rfl
  · split
    · exact .keep nofun rfl
    · exact .deleteSecret (by simpa using hs)

theorem createKey_effect {name : Str} {keyType : KeyType} {rand : RandRead 32} {now : ℤ} :
    Effect s (.createKey name keyType rand now) (.createKey (s.createKey name keyType rand now).2)
      (s.createKey name keyType rand now).1 := by
  unfold createKey
  split_ifs with hs
  · exact .keep nofun rfl
  · cases hk : s.keyring.createKey name keyType [] rand now with
    | mk keyring result =>
        cases result with
        | ok policy => exact .createKey (by simpa using hs) hk
        | error e =>
            rw [Keyring.createKey_error hk]
            exact .keep nofun rfl

theorem rotateKey_effect {name : Str} {rand : RandRead 32} {now : ℤ} :
    Effect s (.rotateKey name rand now) (.rotateKey (s.rotateKey name rand now).2)
      (s.rotateKey name rand now).1 := by
  unfold rotateKey
  split_ifs with hs
  · exact .keep nofun rfl
  · cases hk : s.keyring.rotateKey name rand now with
    | mk keyring result =>
        cases result with
        | ok version => exact .rotateKey (by simpa using hs) hk
        | error e =>
            rw [Keyring.rotateKey_error hk]
            exact .keep nofun rfl

theorem step_effect {op : LockOp} {r : LockReply} (h : step s op = some (s', r)) :
    Effect s op r s' := by
  cases op with
  | initializeVault shares threshold rand =>
      obtain ⟨⟨t, q⟩, ht, he⟩ := Option.map_eq_some_iff.mp h
      cases he
      exact initializeVault_effect ht
  | unsealVault keyShare =>
      obtain ⟨⟨t, q⟩, ht, he⟩ := Option.map_eq_some_iff.mp h
      cases he
      exact unsealVault_effect ht
  | sealVault =>
      cases h
      exact sealVault_effect
  | putSecret path data now =>
      cases h
      exact putSecret_effect
  | deleteSecret path =>
      cases h
      exact deleteSecret_effect
  | createKey name keyType rand now =>
      cases h
      exact createKey_effect
  | rotateKey name rand now =>
      cases h
      exact rotateKey_effect
  | isSealed | isInitialized | getSealStatus | getSecret | listSecrets | getKey
  | getEncryptionKey | listKeys =>
      cases h
      exact .keep nofun rfl

end LockService
end GrpcVault
