import GrpcVault.LockHandler
import GrpcVault.SecretStore

/-!
# Check-and-set

Clients read and write one path of an open vault through the handler. A write may carry
the version that it expects, a positive number, which neither the handler nor the service looks
at: the write succeeds anyway. It is guarded exactly when the path happens to be at that version.
-/

namespace GrpcVault.CheckAndSet

open GoText EventSystem

inductive Event where
  | get (client : ℕ)
  | put (client : ℕ) (data : GoMap Str Bytes) (cas : ℤ) (now : ℤ)

inductive Output where
  | got (result : Except Status GetSecretResponse)
  | stored (result : Except Status PutSecretResponse)

abbrev Trace := List (Event × Output)

def step (path : Str) : Step LockService Event Output
  | s, .get _ => some (s, .got (LockHandler.getSecret s path))
  | s, .put _ data cas now =>
      some ((LockHandler.putSecret s { path, data, cas } now).1,
        .stored (LockHandler.putSecret s { path, data, cas } now).2)

def version (s : LockService) (path : Str) : ℤ :=
  match s.secrets.lookup path with
  | some secret => secret.version
  | none => 0

def readVersion (client : ℕ) : Event × Output → Option ℤ
  | (.get client', .got (.ok resp)) =>
      if client' = client then some resp.metadata.version else none
  | _ => none

def stores : Event × Output → Bool
  | (.put _ _ _ _, .stored (.ok _)) => true
  | _ => false

def lastRead (client : ℕ) (tr : Trace) : Option ℤ := tr.reverse.findSome? (readVersion client)

/-- The client has read the secret since it was last written. -/
def HasRead (client : ℕ) (tr : Trace) : Prop :=
  ∃ x ∈ tr.reverse.takeWhile fun x => !stores x, (readVersion client x).isSome

/-- What check-and-set promises for one write after the trace `tr`, where it expects a version:
it succeeds at that version only and is otherwise rejected, and a client that expects the
version it read last overwrites only what it has read. -/
structure Guards (tr : Trace) (s : LockService) (client : ℕ) (req : PutSecretRequest)
    (now : ℤ) : Prop where
  matched : 0 < req.cas → (∃ resp, (LockHandler.putSecret s req now).2 = .ok resp) →
    version s req.path = req.cas
  rejected : 0 < req.cas → version s req.path ≠ req.cas →
    (∃ status, (LockHandler.putSecret s req now).2 = .error status) ∧
      (LockHandler.putSecret s req now).1 = s
  noLostUpdate : 0 < req.cas → lastRead client tr = some req.cas →
    (∃ resp, (LockHandler.putSecret s req now).2 = .ok resp) → HasRead client tr

variable {s s' : LockService} {path : Str}

/-- The vault is open, and the versions of the secret at the path start with 1. -/
structure Ready (path : Str) (s : LockService) : Prop where
  unsealed : s.sealed = false
  positive : ∀ secret, s.secrets.lookup path = some secret → 1 ≤ secret.version

theorem ready_of_run {threshold : ℤ} {tr : List (LockOp × LockReply)}
    (h : Run LockService.step (newLockService threshold) tr s) (hs : s.sealed = false) :
    Ready path s := by
  refine ⟨hs, ?_⟩
  intro secret hl
  rw [LockService.run_refines h path] at hl
  cases hw : LockService.writes tr path with
  | nil =>
      rw [hw] at hl
      cases hl
  | cons w earlier =>
      rw [hw] at hl
      cases hl
      simp

theorem Ready.version_nonneg (hr : Ready path s) : 0 ≤ version s path := by
  unfold version
  cases hl : s.secrets.lookup path with
  | none => exact le_rfl
  | some secret =>
      have hpos := hr.positive secret hl
      simp only
      omega

theorem putSecret_eq (hr : Ready path s) (data : GoMap Str Bytes) (cas now : ℤ) :
    ∃ s', LockHandler.putSecret s { path, data, cas } now =
        (s', .ok { version := int32 (version s path + 1) }) ∧
      version s' path = version s path + 1 ∧ Ready path s' := by
  let secret : Secret :=
    { data, version := version s path + 1, createdAt := now, updatedAt := now }
  have hput : s.putSecret path data now =
      ({ s with secrets := s.secrets.insert path secret }, .ok (version s path + 1)) := by
    rw [LockService.putSecret, if_neg (by simp [hr.unsealed])]
    simp only [secret, version]
    cases s.secrets.lookup path <;> rfl
  refine ⟨{ s with secrets := s.secrets.insert path secret }, ?_, ?_, hr.unsealed, ?_⟩
  · rw [LockHandler.putSecret, hput]
  · simp [version, secret]
  · intro secret' hl
    rw [Finmap.lookup_insert] at hl
    cases hl
    have hnonneg := hr.version_nonneg
    change 1 ≤ version s path + 1
    omega

theorem getSecret_eq_ok (hr : Ready path s) {resp : GetSecretResponse}
    (h : LockHandler.getSecret s path = .ok resp) :
    resp.metadata.version = int32 (version s path) ∧ 1 ≤ version s path := by
  unfold LockHandler.getSecret LockService.getSecret at h
  rw [if_neg (by simp [hr.unsealed])] at h
  cases hl : s.secrets.lookup path with
  | none =>
      rw [hl] at h
      cases h
  | some secret =>
      rw [hl] at h
      cases h
      rw [version, hl]
      exact ⟨rfl, hr.positive secret hl⟩

/-- What is known of a client's last read: the version it saw, as sent, is not newer than
the current one, and is the current one only if nothing was stored since. -/
def Seen (path : Str) (client : ℕ) (tr : Trace) (s : LockService) : Prop :=
  ∀ v, lastRead client tr = some v → ∃ n, v = int32 n ∧ 1 ≤ n ∧ n ≤ version s path ∧
    (n = version s path → HasRead client tr)

theorem lastRead_snoc (client : ℕ) (tr : Trace) (x : Event × Output) :
    lastRead client (tr ++ [x]) = (readVersion client x).or (lastRead client tr) := by
  unfold lastRead
  rw [List.reverse_append, List.reverse_singleton, List.singleton_append, List.findSome?_cons]
  cases readVersion client x <;> rfl

theorem hasRead_snoc {client : ℕ} {tr : Trace} {x : Event × Output} (hx : stores x = false) :
    HasRead client (tr ++ [x]) ↔ (readVersion client x).isSome ∨ HasRead client tr := by
  unfold HasRead
  rw [List.reverse_append, List.reverse_singleton, List.singleton_append,
    List.takeWhile_cons_of_pos (by simp [hx])]
  simp

/-- One request keeps the vault ready and what is known of every client's last read. -/
theorem step_seen {e : Event} {o : Output} {client : ℕ} {tr : Trace} (hr : Ready path s)
    (hseen : Seen path client tr s) (h : step path s e = some (s', o)) :
    Ready path s' ∧ Seen path client (tr ++ [(e, o)]) s' := by
  cases e with
  | get client' =>
      cases h
      refine ⟨hr, ?_⟩
      intro v hv
      rw [lastRead_snoc] at hv
      rw [hasRead_snoc rfl]
      cases hread : readVersion client (.get client', .got (LockHandler.getSecret s path)) with
      | none =>
          rw [hread] at hv
          obtain ⟨n, hn, hpos, hle, hcur⟩ := hseen v hv
          exact ⟨n, hn, hpos, hle, fun he => .inr (hcur he)⟩
      | some v' =>
          rw [hread] at hv
          cases hv
          cases hget : LockHandler.getSecret s path with
          | error status =>
              rw [hget] at hread
              cases hread
          | ok resp =>
              obtain ⟨hversion, hpos⟩ := getSecret_eq_ok hr hget
              rw [hget] at hread
              simp only [readVersion, Option.ite_none_right_eq_some, Option.some.injEq] at hread
              exact ⟨version s path, by rw [← hread.2, hversion], hpos, le_rfl, fun _ => .inl rfl⟩
  | put client' data cas now =>
      obtain ⟨t, hput, hversion, hready⟩ := putSecret_eq hr data cas now
      simp only [step, hput, Option.some.injEq, Prod.mk.injEq] at h
      obtain ⟨rfl, rfl⟩ := h
      refine ⟨hready, ?_⟩
      intro v hv
      rw [lastRead_snoc] at hv
      obtain ⟨n, hn, hpos, hle, _⟩ := hseen v hv
      exact ⟨n, hn, hpos, by omega, fun he => by omega⟩

theorem run_seen {tr : Trace} (hr : Ready path s) (h : Run (step path) s tr s') (client : ℕ) :
    Ready path s' ∧ Seen path client tr s' := by
  refine h.snocInduction (I := fun tr m => Ready path m ∧ Seen path client tr m) ?_ ?_
  · refine ⟨hr, ?_⟩
    intro v hv
    cases hv
  · intro tr m e o m' _ hm hstep
    exact step_seen hm.1 hm.2 hstep

/-- At every point of every interleaving of clients on an open vault, a write is guarded
exactly if the path is at the version it expects, where it expects one. -/
theorem cas_guards_iff {threshold : ℤ} {tr₀ : List (LockOp × LockReply)} {s₀ : LockService}
    (h₀ : Run LockService.step (newLockService threshold) tr₀ s₀) (hopen : s₀.sealed = false)
    {tr : Trace} (h : Run (step path) s₀ tr s) (client : ℕ) (data : GoMap Str Bytes)
    (cas now : ℤ) :
    Guards tr s client { path, data, cas } now ↔ (0 < cas → version s path = cas) := by
  obtain ⟨hr, hseen⟩ := run_seen (ready_of_run h₀ hopen) h client
  obtain ⟨s', hput, -, -⟩ := putSecret_eq hr data cas now
  constructor
  · intro hguards hcas
    exact hguards.matched hcas ⟨_, by rw [hput]⟩
  · intro hversion
    refine ⟨fun hcas _ => hversion hcas, fun hcas hne => absurd (hversion hcas) hne, ?_⟩
    intro hcas hlast _
    obtain ⟨n, hn, hpos, hle, hcur⟩ := hseen cas hlast
    have hcurrent : version s path = cas := hversion hcas
    -- the read was of a version up to the current one, so it fits and was sent as it is
    have hlt := int32_lt n
    have hself : int32 n = n := int32_eq_self (by omega) (by omega)
    exact hcur (by omega)

/-- A client creates a secret, reads it and writes it again, alone. -/
theorem cas_guards_single : ∃ (tr₀ : List (LockOp × LockReply)) (s₀ s : LockService) (tr : Trace),
    Run LockService.step (newLockService 1) tr₀ s₀ ∧ Run (step ['p']) s₀ tr s ∧
    version s ['p'] = 1 ∧ lastRead 1 tr = some 1 ∧
    Guards tr s 1 { path := ['p'], data := ∅, cas := 1 } 0 := by
  have h : ∃ (r : LockReply) (o₁ o₂ : Output) (s₀ s : LockService),
      Run LockService.step (newLockService 1)
        [(.initializeVault 1 1 ⟨zeroRead, zeroRead, zeroRead⟩, r)] s₀ ∧ s₀.sealed = false ∧
      Run (step ['p']) s₀ [(.put 1 ∅ 0 0, o₁), (.get 1, o₂)] s ∧ version s ['p'] = 1 ∧
      lastRead 1 [(.put 1 ∅ 0 0, o₁), (.get 1, o₂)] = some 1 :=
    ⟨_, _, _, _, _, ⟨_, rfl, rfl⟩, rfl, ⟨_, rfl, _, rfl, rfl⟩, rfl, rfl⟩
  obtain ⟨r, o₁, o₂, s₀, s, h₀, hopen, h, hversion, hlast⟩ := h
  exact ⟨_, s₀, s, _, h₀, h, hversion, hlast, 
    (cas_guards_iff h₀ hopen h 1 ∅ 1 0).mpr fun _ => hversion⟩

/-- Two clients read version 1 and both write expecting it. The second write succeeds and
overwrites the first, which its client has not read. -/
theorem cas_ignored_by_handler : ∃ (tr₀ : List (LockOp × LockReply)) (s₀ s : LockService)
    (tr : Trace), Run LockService.step (newLockService 1) tr₀ s₀ ∧ s₀.sealed = false ∧
    Run (step ['p']) s₀ tr s ∧ lastRead 2 tr = some 1 ∧ version s ['p'] = 2 ∧
    (∃ resp, (LockHandler.putSecret s { path := ['p'], data := ∅, cas := 1 } 0).2 = .ok resp) ∧
    ¬ HasRead 2 tr ∧ ¬ Guards tr s 2 { path := ['p'], data := ∅, cas := 1 } 0 := by
  have h : ∃ (r : LockReply) (resp : PutSecretResponse) (o₁ o₂ o₃ : Output) (s₀ s : LockService),
      Run LockService.step (newLockService 1)
        [(.initializeVault 1 1 ⟨zeroRead, zeroRead, zeroRead⟩, r)] s₀ ∧ s₀.sealed = false ∧
      Run (step ['p']) s₀ [(.put 1 ∅ 0 0, o₁), (.get 1, o₂), (.get 2, o₃),
        (.put 1 ∅ 1 0, .stored (.ok resp))] s ∧
      lastRead 2 [(.put 1 ∅ 0 0, o₁), (.get 1, o₂), (.get 2, o₃),
        (.put 1 ∅ 1 0, .stored (.ok resp))] = some 1 ∧ version s ['p'] = 2 ∧
      ∃ resp', (LockHandler.putSecret s { path := ['p'], data := ∅, cas := 1 } 0).2 = .ok resp' :=
    ⟨_, _, _, _, _, _, _, ⟨_, rfl, rfl⟩, rfl, ⟨_, rfl, _, rfl, _, rfl, _, rfl, rfl⟩, rfl, rfl,
      _, rfl⟩
  obtain ⟨r, resp, o₁, o₂, o₃, s₀, s, h₀, hopen, h, hlast, hversion, hok⟩ := h
  refine ⟨_, s₀, s, _, h₀, hopen, h, hlast, hversion, hok, ?_, ?_⟩
  · simp [HasRead, stores]
  · intro hguards
    have hmatched := hguards.matched zero_lt_one hok
    change version s ['p'] = 1 at hmatched
    omega

end GrpcVault.CheckAndSet
