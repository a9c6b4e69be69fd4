import GrpcVault.Lib.Base64
import GrpcVault.Lib.EventSystem

/-!
# API keys in the auth service

A key is returned once, by its creation; the repository keeps its hash, in a map from hashes
to identifiers next to the map from identifiers to records. What a run has issued is read off
its trace (`issued`), and `Recorded` says how the two maps hold it: every issued key has its
record, and a hash leads to the last key that was issued with it. From this follows when a
validation succeeds, and that the identifier it finds always has a record.
-/

namespace GrpcVault.ApiKeys

open GoText EventSystem

structure APIKey where
  id : Str
  name : Str
  keyHash : Str
  identity : Str
  policies : List Str
  metadata : GoMap Str Str
  createdAt : ℤ
  expiresAt : Option ℤ
  revokedAt : Option ℤ
  lastUsedAt : Option ℤ

inductive RepositoryError where
  | apiKeyNotFound
  | apiKeyRevoked
  deriving DecidableEq

def RepositoryError.message : RepositoryError → String
  | .apiKeyNotFound => "API key not found"
  | .apiKeyRevoked => "API key has been revoked"

structure MemoryAPIKeyRepository where
  keys : GoMap Str APIKey
  byHash : GoMap Str Str

def newMemoryAPIKeyRepository : MemoryAPIKeyRepository := { keys := ∅, byHash := ∅ }

namespace MemoryAPIKeyRepository

variable (r : MemoryAPIKeyRepository)

def create (apiKey : APIKey) : MemoryAPIKeyRepository where
  keys := r.keys.insert apiKey.id apiKey
  byHash := r.byHash.insert apiKey.keyHash apiKey.id

/-- The lookup of a record without checking for it: `none` is a nil dereference. -/
def getByHash (now : ℤ) (keyHash : Str) : Option (Except RepositoryError APIKey) :=
  match r.byHash.lookup keyHash with
  | none => some (.error .apiKeyNotFound)
  | some id =>
      (r.keys.lookup id).map fun apiKey =>
        if apiKey.revokedAt.isSome then .error .apiKeyRevoked
        else if apiKey.expiresAt.any (· < now) then .error .apiKeyNotFound
        else .ok apiKey

def revoke (now : ℤ) (id : Str) : MemoryAPIKeyRepository × Option RepositoryError :=
  match r.keys.lookup id with
  | none => (r, some .apiKeyNotFound)
  | some apiKey =>
      ({ r with keys := r.keys.insert id { apiKey with revokedAt := some now } }, none)

def updateLastUsed (now : ℤ) (id : Str) : MemoryAPIKeyRepository × Option RepositoryError :=
  match r.keys.lookup id with
  | none => (r, some .apiKeyNotFound)
  | some apiKey =>
      ({ r with keys := r.keys.insert id { apiKey with lastUsedAt := some now } }, none)

end MemoryAPIKeyRepository

inductive AuthError where
  | invalidAPIKey
  deriving DecidableEq

def AuthError.message : AuthError → String
  | .invalidAPIKey => "invalid API key"

structure Request where
  name : Str
  identity : Str
  policies : List Str
  ttl : ℤ
  metadata : GoMap Str Str

/-- The calls of `UpdateLastUsed` that validations have started and that have not run yet are
`pending`. -/
structure State where
  now : ℤ
  apiKeyRepo : MemoryAPIKeyRepository
  pending : List Str

def State.init (now : ℤ) : State where
  now := now
  apiKeyRepo := newMemoryAPIKeyRepository
  pending := []

/-- A creation takes effect when it stores the record, `elapsed` after it has computed the
expiration. A failure to read the bytes of the identifier goes unnoticed. -/
inductive Event where
  | tick (d : ℕ)
  | createAPIKey (request : Request) (keyBytes : RandRead 32)
      (idBytes : { b : Bytes // b.length = 16 }) (elapsed : ℕ)
  | validateAPIKey (apiKey : Str)
  | revokeAPIKey (keyID : Str)
  | updateLastUsed (keyID : Str)

inductive Output where
  | done
  | created (result : Option (Str × Str))
  | validated (result : Except AuthError APIKey)
  | revoked (error : Option RepositoryError)

abbrev Trace := List (Event × Output)

def expiration (now ttl : ℤ) : Option ℤ := if 0 < ttl then some (now + ttl) else none

variable (sha256 : Str → Bytes)

def hashAPIKey (key : Str) : Str := hexEncodeToString (sha256 key)

namespace State

variable (s : State)

/-- The key and its identifier, or `none` if the random source fails. -/
def createAPIKey (request : Request) (keyBytes : RandRead 32)
    (idBytes : { b : Bytes // b.length = 16 }) (elapsed : ℕ) : State × Option (Str × Str) :=
  match keyBytes with
  | none => (s, none)
  | some keyBytes =>
      let apiKey := "vk_".toList ++ Base64.urlEncodeToString keyBytes.val
      let keyID := Base64.urlEncodeToString idBytes.val
      let record : APIKey :=
        { id := keyID, name := request.name, keyHash := hashAPIKey sha256 apiKey
          identity := request.identity, policies := request.policies
          metadata := request.metadata, createdAt := s.now
          expiresAt := expiration (s.now - elapsed) request.ttl
          revokedAt := none, lastUsedAt := none }
      ({ s with apiKeyRepo := s.apiKeyRepo.create record }, some (apiKey, keyID))

def validateAPIKey (apiKey : Str) : Option (State × Except AuthError APIKey) :=
  match s.apiKeyRepo.getByHash s.now (hashAPIKey sha256 apiKey) with
  | none => none
  | some (.error _) => some (s, .error .invalidAPIKey)
  | some (.ok key) => some ({ s with pending := s.pending ++ [key.id] }, .ok key)

end State

def step : Step State Event Output
  | s, .tick d => some ({ s with now := s.now + d }, .done)
  | s, .createAPIKey request keyBytes idBytes elapsed =>
      let (s', result) := s.createAPIKey sha256 request keyBytes idBytes elapsed
      some (s', .created result)
  | s, .validateAPIKey apiKey =>
      (s.validateAPIKey sha256 apiKey).map fun (s', result) => (s', .validated result)
  | s, .revokeAPIKey keyID =>
      let (apiKeyRepo, error) := s.apiKeyRepo.revoke s.now keyID
      some ({ s with apiKeyRepo }, .revoked error)
  | s, .updateLastUsed keyID =>
      if s.pending.contains keyID then
        some ({ s with apiKeyRepo := (s.apiKeyRepo.updateLastUsed s.now keyID).1
                       pending := s.pending.erase keyID }, .done)
      else none

structure Issue where
  apiKey : Str
  keyID : Str
  request : Request
  expiresAt : Option ℤ

def Event.duration : Event → ℕ
  | .tick d => d
  | _ => 0

def issue (now : ℤ) : Event × Output → Option Issue
  | (.createAPIKey request _ _ elapsed, .created (some (apiKey, keyID))) =>
      some { apiKey, keyID, request, expiresAt := expiration (now - elapsed) request.ttl }
  | _ => none

def issued (now : ℤ) (tr : Trace) : List Issue := collect Event.duration issue now tr

theorem issued_snoc (now : ℤ) (tr : Trace) (x : Event × Output) :
    issued now (tr ++ [x]) = issued now tr ++ (issue (clock Event.duration now tr) x).toList :=
  collect_snoc _ _ now tr x

/-- What the record keeps of the issue, whatever happens to it. -/
structure Describes (record : APIKey) (i : Issue) : Prop where
  id : record.id = i.keyID
  keyHash : record.keyHash = hashAPIKey sha256 i.apiKey
  identity : record.identity = i.request.identity
  policies : record.policies = i.request.policies
  expiresAt : record.expiresAt = i.expiresAt

def Revoked (tr : Trace) (keyID : Str) : Prop := (.revokeAPIKey keyID, .revoked none) ∈ tr

/-- How the repository holds what the run `tr` from time `now` has issued and revoked. -/
structure Recorded (now : ℤ) (tr : Trace) (s : State) : Prop where
  time : s.now = clock Event.duration now tr
  record : ∀ i ∈ issued now tr, ∃ record, s.apiKeyRepo.keys.lookup i.keyID = some record ∧
    Describes sha256 record i ∧ (record.revokedAt.isSome ↔ Revoked tr i.keyID)
  known : ∀ id record, s.apiKeyRepo.keys.lookup id = some record →
    ∃ i ∈ issued now tr, i.keyID = id
  revoked : ∀ id, Revoked tr id → ∃ i ∈ issued now tr, i.keyID = id
  byHash : ∀ hash, s.apiKeyRepo.byHash.lookup hash =
    ((issued now tr).reverse.find? fun i => hashAPIKey sha256 i.apiKey = hash).map Issue.keyID

variable {sha256} {now : ℤ} {tr : Trace} {s s' : State}

theorem Recorded.init (now : ℤ) : Recorded sha256 now [] (State.init now) := by
  constructor
  · rfl
  · simp [issued, collect]
  · intro id record h
    simp [State.init, newMemoryAPIKeyRepository] at h
  · simp [Revoked]
  · simp [State.init, newMemoryAPIKeyRepository, issued, collect]

/-- A record after a step that does not create it: of what describes an issue only the time
of the revocation may change. -/
structure Touched (x : Event × Output) (keyID : Str) (old new : APIKey) : Prop where
  id : new.id = old.id
  keyHash : new.keyHash = old.keyHash
  identity : new.identity = old.identity
  policies : new.policies = old.policies
  expiresAt : new.expiresAt = old.expiresAt
  revokedAt : new.revokedAt.isSome ↔
    old.revokedAt.isSome ∨ x = (.revokeAPIKey keyID, .revoked none)

theorem Describes.touched {old new : APIKey} {i : Issue} {x : Event × Output} {keyID : Str}
    (h : Describes sha256 old i) (ht : Touched x keyID old new) : Describes sha256 new i where
  id := ht.id.trans h.id
  keyHash := ht.keyHash.trans h.keyHash
  identity := ht.identity.trans h.identity
  policies := ht.policies.trans h.policies
  expiresAt := ht.expiresAt.trans h.expiresAt

theorem Touched.refl {x : Event × Output} {keyID : Str} (record : APIKey)
    (hx : x ≠ (.revokeAPIKey keyID, .revoked none)) : Touched x keyID record record :=
  ⟨rfl, rfl, rfl, rfl, rfl, by simp [hx]⟩

/-- The same identifiers have records before and after, each of them touched at most. -/
def Touches (x : Event × Output) (keys keys' : GoMap Str APIKey) : Prop :=
  ∀ keyID, keys.lookup keyID = none ∧ keys'.lookup keyID = none ∨
    ∃ old new, keys.lookup keyID = some old ∧ keys'.lookup keyID = some new ∧
      Touched x keyID old new

theorem Touches.refl {x : Event × Output} (keys : GoMap Str APIKey)
    (hx : ∀ keyID, x = (.revokeAPIKey keyID, .revoked none) → keys.lookup keyID = none) :
    Touches x keys keys := by
  intro keyID
  cases hlookup : keys.lookup keyID with
  | none => exact .inl ⟨rfl, rfl⟩
  | some record =>
      refine .inr ⟨record, record, rfl, rfl, .refl record fun hrevoke => ?_⟩
      rw [hx keyID hrevoke] at hlookup
      cases hlookup

theorem Touches.insert {x : Event × Output} {keys : GoMap Str APIKey} {keyID : Str}
    {old new : APIKey} (hold : keys.lookup keyID = some old) (hnew : Touched x keyID old new)
    (hx : ∀ id ≠ keyID, x ≠ (.revokeAPIKey id, .revoked none)) :
    Touches x keys (keys.insert keyID new) := by
  intro id
  by_cases hid : id = keyID
  · subst hid
    exact .inr ⟨old, new, hold, Finmap.lookup_insert _, hnew⟩
  · rw [Finmap.lookup_insert_of_ne _ hid]
    cases hlookup : keys.lookup id with
    | none => exact .inl ⟨rfl, rfl⟩
    | some record => exact .inr ⟨record, record, rfl, rfl, .refl record (hx id hid)⟩

theorem Recorded.touch {x : Event × Output} (h : Recorded sha256 now tr s)
    (hissue : issue s.now x = none) (htime : s'.now = s.now + x.1.duration)
    (hindex : s'.apiKeyRepo.byHash = s.apiKeyRepo.byHash)
    (hkeys : Touches x s.apiKeyRepo.keys s'.apiKeyRepo.keys)
    (hrevoked : ∀ keyID, x = (.revokeAPIKey keyID, .revoked none) →
      ∃ record, s.apiKeyRepo.keys.lookup keyID = some record) :
    Recorded sha256 now (tr ++ [x]) s' := by
  have hissued : issued now (tr ++ [x]) = issued now tr := by
    rw [issued_snoc, ← h.time, hissue]
    simp
  have hrev : ∀ keyID, Revoked (tr ++ [x]) keyID ↔
      Revoked tr keyID ∨ x = (.revokeAPIKey keyID, .revoked none) := by
    intro keyID
    simp only [Revoked, List.mem_append, List.mem_singleton, eq_comm]
  refine ⟨?_, ?_, ?_, ?_, ?_⟩
  · rw [htime, clock_snoc, h.time]
  · intro i hi
    rw [hissued] at hi
    obtain ⟨record, hlookup, hdesc, hiff⟩ := h.record i hi
    obtain ⟨hnone, -⟩ | ⟨old, new, hold, hnew, ht⟩ := hkeys i.keyID
    · rw [hnone] at hlookup
      cases hlookup
    · obtain rfl : old = record := Option.some.inj (hold.symm.trans hlookup)
      refine ⟨new, hnew, hdesc.touched ht, ?_⟩
      rw [ht.revokedAt, hiff, hrev]
  · intro keyID record hlookup
    rw [hissued]
    obtain ⟨-, hnone⟩ | ⟨old, -, hold, -, -⟩ := hkeys keyID
    · rw [hnone] at hlookup
      cases hlookup
    · exact h.known keyID old hold
  · intro keyID hid
    rw [hissued]
    rcases (hrev keyID).mp hid with hbefore | hx
    · exact h.revoked keyID hbefore
    · obtain ⟨record, hlookup⟩ := hrevoked keyID hx
      exact h.known keyID record hlookup
  · intro hash
    rw [hindex, hissued]
    exact h.byHash hash

theorem Recorded.frame {x : Event × Output} (h : Recorded sha256 now tr s)
    (hissue : issue s.now x = none) (htime : s'.now = s.now + x.1.duration)
    (hrepo : s'.apiKeyRepo = s.apiKeyRepo)
    (hx : ∀ keyID, x ≠ (.revokeAPIKey keyID, .revoked none)) :
    Recorded sha256 now (tr ++ [x]) s' := by
  refine h.touch hissue htime (by rw [hrepo]) ?_ fun keyID heq => absurd heq (hx keyID)
  rw [hrepo]
  exact .refl _ fun keyID heq => absurd heq (hx keyID)

theorem Recorded.create {x : Event × Output} {i : Issue} {record : APIKey}
    (h : Recorded sha256 now tr s) (hissue : issue s.now x = some i)
    (hx : ∀ keyID, x ≠ (.revokeAPIKey keyID, .revoked none)) (hd : x.1.duration = 0)
    (hdesc : Describes sha256 record i) (hrevokedAt : record.revokedAt = none)
    (hfresh : ∀ j ∈ issued now tr, j.keyID ≠ i.keyID) :
    Recorded sha256 now (tr ++ [x]) { s with apiKeyRepo := s.apiKeyRepo.create record } := by
  have hissued : issued now (tr ++ [x]) = issued now tr ++ [i] := by
    rw [issued_snoc, ← h.time, hissue]
    rfl
  have hrev : ∀ keyID, Revoked (tr ++ [x]) keyID ↔ Revoked tr keyID := by
    intro keyID
    simp [Revoked, (hx keyID).symm]
  have hid : record.id = i.keyID := hdesc.id
  refine ⟨?_, ?_, ?_, ?_, ?_⟩
  · rw [clock_snoc, hd, ← h.time]
    simp
  · intro j hj
    simp only [MemoryAPIKeyRepository.create, hid, hrev]
    rw [hissued, List.mem_append, List.mem_singleton] at hj
    rcases hj with hj | rfl
    · rw [Finmap.lookup_insert_of_ne _ (hfresh j hj)]
      exact h.record j hj
    · refine ⟨record, Finmap.lookup_insert _, hdesc, ?_⟩
      rw [hrevokedAt]
      refine iff_of_false (by simp) fun hrevoked => ?_
      obtain ⟨k, hk, heq⟩ := h.revoked _ hrevoked
      exact hfresh k hk heq
  · intro keyID record' hlookup
    rw [hissued]
    by_cases hkey : keyID = i.keyID
    · exact ⟨i, by simp, hkey.symm⟩
    · simp only [MemoryAPIKeyRepository.create, hid] at hlookup
      rw [Finmap.lookup_insert_of_ne _ hkey] at hlookup
      obtain ⟨j, hj, hjid⟩ := h.known keyID record' hlookup
      exact ⟨j, List.mem_append_left _ hj, hjid⟩
  · intro keyID hrevoked
    obtain ⟨j, hj, hjid⟩ := h.revoked keyID ((hrev keyID).mp hrevoked)
    rw [hissued]
    exact ⟨j, List.mem_append_left _ hj, hjid⟩
  · intro hash
    simp only [MemoryAPIKeyRepository.create, hissued, hid, hdesc.keyHash]
    rw [List.reverse_append, List.reverse_singleton, List.singleton_append, List.find?_cons]
    by_cases hhash : hash = hashAPIKey sha256 i.apiKey
    · rw [hhash, Finmap.lookup_insert]
      simp
    · rw [Finmap.lookup_insert_of_ne _ hhash, h.byHash hash]
      simp [Ne.symm hhash]

theorem validateAPIKey_frame {apiKey : Str} {result : Except AuthError APIKey}
    (h : s.validateAPIKey sha256 apiKey = some (s', result)) :
    s'.apiKeyRepo = s.apiKeyRepo ∧ s'.now = s.now := by
  unfold State.validateAPIKey at h
  split at h
  · cases h
  · cases h
    exact ⟨rfl, rfl⟩
  · cases h
    exact ⟨rfl, rfl⟩

theorem Recorded.step {e : Event} {o : Output} (h : Recorded sha256 now tr s)
    (hstep : step sha256 s e = some (s', o))
    (hfresh : ((issued now (tr ++ [(e, o)])).map Issue.keyID).Nodup) :
    Recorded sha256 now (tr ++ [(e, o)]) s' := by
  cases e with
  | tick d =>
      cases hstep
      exact h.frame rfl rfl rfl (by simp)
  | createAPIKey request keyBytes idBytes elapsed =>
      cases keyBytes with
      | none =>
          cases hstep
          exact h.frame rfl (by simp [Event.duration]) rfl (by simp)
      | some keyBytes =>
          cases hstep
          refine h.create rfl (by simp) rfl ⟨rfl, rfl, rfl, rfl, rfl⟩ rfl ?_
          rw [issued_snoc, ← h.time] at hfresh
          intro j hj heq
          have hdisjoint := (List.nodup_append.mp (List.map_append ▸ hfresh)).2.2
          exact hdisjoint _ (List.mem_map_of_mem hj) _ (by simp [issue]) heq
  | validateAPIKey apiKey =>
      obtain ⟨⟨_, result⟩, hvalidate, heq⟩ := Option.map_eq_some_iff.mp hstep
      cases heq
      obtain ⟨hrepo, hnow⟩ := validateAPIKey_frame hvalidate
      exact h.frame rfl (by simp [hnow, Event.duration]) hrepo (by simp)
  | revokeAPIKey keyID =>
      simp only [ApiKeys.step, MemoryAPIKeyRepository.revoke] at hstep
      cases hlookup : s.apiKeyRepo.keys.lookup keyID with
      | none =>
          simp only [hlookup] at hstep
          cases hstep
          exact h.frame rfl (by simp [Event.duration]) rfl (by simp)
      | some record =>
          simp only [hlookup] at hstep
          cases hstep
          refine h.touch rfl (by simp [Event.duration]) rfl (.insert hlookup ?_ ?_) ?_
          · exact ⟨rfl, rfl, rfl, rfl, rfl, by simp⟩
          · intro id hne heq
            cases heq
            exact hne rfl
          · intro id heq
            cases heq
            exact ⟨record, hlookup⟩
  | updateLastUsed keyID =>
      simp only [ApiKeys.step, MemoryAPIKeyRepository.updateLastUsed] at hstep
      split_ifs at hstep
      cases hlookup : s.apiKeyRepo.keys.lookup keyID with
      | none =>
          simp only [hlookup] at hstep
          cases hstep
          exact h.frame rfl (by simp [Event.duration]) rfl (by simp)
      | some record =>
          simp only [hlookup] at hstep
          cases hstep
          refine h.touch rfl (by simp [Event.duration]) rfl (.insert hlookup ?_ (by simp)) (by simp)
          exact ⟨rfl, rfl, rfl, rfl, rfl, by simp⟩

theorem run_recorded (hrun : Run (step sha256) (State.init now) tr s)
    (hfresh : ((issued now tr).map Issue.keyID).Nodup) : Recorded sha256 now tr s := by
  refine Run.snocInduction
    (I := fun tr s => ((issued now tr).map Issue.keyID).Nodup → Recorded sha256 now tr s)
    (fun _ => .init now) ?_ hrun hfresh
  intro tr m e o m' _ ih hstep hfresh
  refine (ih ?_).step hstep hfresh
  rw [issued_snoc, List.map_append] at hfresh
  exact (List.nodup_append.mp hfresh).1

theorem Recorded.indexed (h : Recorded sha256 now tr s) {hash keyID : Str}
    (hindex : s.apiKeyRepo.byHash.lookup hash = some keyID) :
    ∃ record, s.apiKeyRepo.keys.lookup keyID = some record ∧ record.keyHash = hash := by
  rw [h.byHash] at hindex
  obtain ⟨i, hfind, rfl⟩ := Option.map_eq_some_iff.mp hindex
  have hmem : i ∈ issued now tr := List.mem_reverse.mp (List.mem_of_find?_eq_some hfind)
  obtain ⟨record, hlookup, hdesc, -⟩ := h.record i hmem
  have hhash := List.find?_some hfind
  exact ⟨record, hlookup, hdesc.keyHash.trans (of_decide_eq_true hhash)⟩

def lastIssue (now : ℤ) (tr : Trace) (apiKey : Str) : Option Issue :=
  (issued now tr).reverse.find? fun i => i.apiKey = apiKey

/-- Without collisions the index leads to the last creation of the key. -/
theorem Recorded.byHash_lastIssue (h : Recorded sha256 now tr s) {apiKey : Str}
    (hsha : ∀ i ∈ issued now tr, sha256 i.apiKey = sha256 apiKey → i.apiKey = apiKey) :
    s.apiKeyRepo.byHash.lookup (hashAPIKey sha256 apiKey) =
      (lastIssue now tr apiKey).map Issue.keyID := by
  rw [h.byHash, lastIssue]
  congr 1
  apply List.find?_congr
  intro i hi
  rw [decide_eq_decide]
  constructor
  · intro heq
    exact hsha i (List.mem_reverse.mp hi) (hexEncodeToString_injective heq)
  · intro heq
    rw [heq]

theorem validateAPIKey_unknown {apiKey : Str}
    (hindex : s.apiKeyRepo.byHash.lookup (hashAPIKey sha256 apiKey) = none) :
    s.validateAPIKey sha256 apiKey = some (s, .error .invalidAPIKey) := by
  simp [State.validateAPIKey, MemoryAPIKeyRepository.getByHash, hindex]

theorem validateAPIKey_known {apiKey keyID : Str} {record : APIKey}
    (hindex : s.apiKeyRepo.byHash.lookup (hashAPIKey sha256 apiKey) = some keyID)
    (hlookup : s.apiKeyRepo.keys.lookup keyID = some record) :
    s.validateAPIKey sha256 apiKey =
      if record.revokedAt.isSome ∨ record.expiresAt.any (· < s.now) then
        some (s, .error .invalidAPIKey)
      else some ({ s with pending := s.pending ++ [record.id] }, .ok record) := by
  simp only [State.validateAPIKey, MemoryAPIKeyRepository.getByHash, hindex, hlookup,
    Option.map_some]
  by_cases hrevoked : record.revokedAt.isSome
  · simp [hrevoked]
  · by_cases hexpired : record.expiresAt.any (· < s.now) = true
    · simp [hrevoked, hexpired]
    · simp [hrevoked, hexpired]

/-- The life of a key: it is accepted from its creation on, until it is revoked and while it
is not past its expiration, with what the creation was asked for. If two creations return the
same key, the later one counts. -/
theorem api_key_lifecycle (hrun : Run (step sha256) (State.init now) tr s)
    (hfresh : ((issued now tr).map Issue.keyID).Nodup) (apiKey : Str)
    (hsha : ∀ i ∈ issued now tr, sha256 i.apiKey = sha256 apiKey → i.apiKey = apiKey) :
    (s.validateAPIKey sha256 apiKey).isSome ∧
    ((∃ s' record, s.validateAPIKey sha256 apiKey = some (s', .ok record)) ↔
      ∃ i, lastIssue now tr apiKey = some i ∧ ¬ Revoked tr i.keyID ∧
        ∀ t ∈ i.expiresAt, s.now ≤ t) ∧
    (∀ s' record, s.validateAPIKey sha256 apiKey = some (s', .ok record) →
      ∃ i, lastIssue now tr apiKey = some i ∧ record.id = i.keyID ∧
        record.identity = i.request.identity ∧ record.policies = i.request.policies) ∧
    ∀ hash keyID, s.apiKeyRepo.byHash.lookup hash = some keyID →
      ∃ record, s.apiKeyRepo.keys.lookup keyID = some record ∧ record.keyHash = hash := by
  have h := run_recorded hrun hfresh
  refine and_assoc.mp (and_assoc.mp ⟨?_, fun _ _ => h.indexed⟩)
  have hindex := h.byHash_lastIssue hsha
  cases hlast : lastIssue now tr apiKey with
  | none =>
      rw [hlast] at hindex
      simp [validateAPIKey_unknown hindex]
  | some i =>
      rw [hlast] at hindex
      have hmem : i ∈ issued now tr := List.mem_reverse.mp (List.mem_of_find?_eq_some hlast)
      obtain ⟨record, hlookup, hdesc, hrevoked⟩ := h.record i hmem
      have hexpired : record.expiresAt.any (· < s.now) = true ↔ ∃ t ∈ i.expiresAt, t < s.now := by
        rw [hdesc.expiresAt, Option.any_eq_true]
        simp
      rw [validateAPIKey_known hindex hlookup]
      split_ifs with hrefused
      · refine ⟨⟨rfl, iff_of_false (by simp) ?_⟩, by simp⟩
        rintro ⟨j, hj, hvalid, hexpiry⟩
        cases hj
        rcases hrefused with hrefused | hrefused
        · exact hvalid (hrevoked.mp hrefused)
        · obtain ⟨t, ht, hlt⟩ := hexpired.mp hrefused
          exact absurd (hexpiry t ht) (not_le.mpr hlt)
      · refine ⟨⟨rfl, iff_of_true ⟨_, _, rfl⟩ ⟨i, rfl, ?_, ?_⟩⟩, ?_⟩
        · exact fun hr => hrefused (.inl (hrevoked.mpr hr))
        · intro t ht
          exact not_lt.mp fun hlt => hrefused (.inr (hexpired.mpr ⟨t, ht, hlt⟩))
        · intro s' record' heq
          cases heq
          exact ⟨i, rfl, hdesc.id, hdesc.identity, hdesc.policies⟩

def shortRequest : Request :=
  { name := ['n'], identity := ['i'], policies := [['p']], ttl := 10, metadata := ∅ }

def zeroBytes (n : ℕ) : { b : Bytes // b.length = n } := ⟨List.replicate n 0, List.length_replicate⟩

def zeroKey : Str := "vk_".toList ++ Base64.urlEncodeToString (zeroBytes 32).val

def shortTrace : Trace :=
  [(.createAPIKey shortRequest (some (zeroBytes 32)) (zeroBytes 16) 0,
      .created (some (zeroKey, Base64.urlEncodeToString (zeroBytes 16).val))),
    (.tick 10, .done)]

/-- The key is still accepted at the time of its expiration. -/
theorem api_key_lifecycle_short : ∃ s,
    Run (step fun key => key.map fun c => UInt8.ofNat c.toNat) (State.init 0) shortTrace s ∧
    ∃ s' record, s.validateAPIKey (fun key => key.map fun c => UInt8.ofNat c.toNat) zeroKey =
      some (s', .ok record) := by
  have hrun : ∃ s, Run (step fun key => key.map fun c => UInt8.ofNat c.toNat) (State.init 0)
      shortTrace s ∧ s.now = 10 := ⟨_, ⟨_, rfl, _, rfl, rfl⟩, rfl⟩
  obtain ⟨s, hrun, hnow⟩ := hrun
  have hlife := api_key_lifecycle hrun (by simp [shortTrace, issued, collect, issue]) zeroKey
    (by simp [shortTrace, issued, collect, issue])
  refine ⟨s, hrun, hlife.2.1.mpr ⟨_, rfl, ?_, ?_⟩⟩
  · simp [Revoked, shortTrace]
  · intro t ht
    cases ht
    rw [hnow]
    decide

end GrpcVault.ApiKeys
