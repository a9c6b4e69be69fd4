import GrpcVault.LockRuns

/-!
# The secrets as a history of writes

What the secret operations are for: every path has the writes since it was last deleted,
and the stored secret is the newest of them, numbered by how many there are. `writes` reads
that history off a trace. `step_refines` carries the stored secrets along with the history
through every operation, `run_refines` through whole runs, seals included.
-/

namespace GrpcVault.LockService

open GoText EventSystem

structure Written where
  data : GoMap Str Bytes
  now : ℤ

def deletes (path : Str) : LockOp × LockReply → Bool
  | (.deleteSecret path', .deleteSecret none) => path' = path
  | _ => false

def written (path : Str) : LockOp × LockReply → Option Written
  | (.putSecret path' data now, .putSecret (.ok _)) =>
      if path' = path then some { data, now } else none
  | _ => none

/-- The successful writes to a path since it was last deleted, the newest first. -/
def writes (tr : List (LockOp × LockReply)) (path : Str) : List Written :=
  (tr.reverse.takeWhile fun x => !deletes path x).filterMap (written path)

/-- The secret that stands for a history: its newest write, numbered. -/
def current : List Written → Option Secret
  | [] => none
  | w :: earlier => some
      { data := w.data, version := earlier.length + 1, createdAt := w.now, updatedAt := w.now }

def Refines (s : LockService) (history : Str → List Written) : Prop :=
  ∀ path, s.secrets.lookup path = current (history path)

def changedPath : LockOp → Option Str
  | .putSecret path _ _ => some path
  | .deleteSecret path => some path
  | _ => none

theorem writes_snoc (tr : List (LockOp × LockReply)) (x : LockOp × LockReply) (path : Str) :
    writes (tr ++ [x]) path =
      if deletes path x then [] else (written path x).toList ++ writes tr path := by
  unfold writes
  rw [List.reverse_append, List.reverse_singleton, List.singleton_append, List.takeWhile_cons]
  cases deletes path x with
  | true => rfl
  | false => cases hw : written path x <;> simp [hw]

variable {s s' : LockService}

theorem step_putSecret {path : Str} {data : GoMap Str Bytes} {now : ℤ} {r : LockReply}
    (h : step s (.putSecret path data now) = some (s', r)) :
    (s' = s ∧ r = .putSecret (.error .vaultSealed)) ∨
      ∃ version, r = .putSecret (.ok version) ∧
        version = (match s.secrets.lookup path with
          | some existing => existing.version + 1
          | none => 1) ∧
        s' = { s with secrets :=
          s.secrets.insert path { data, version, createdAt := now, updatedAt := now } } := by
  cases h
  unfold putSecret
  split_ifs
  · exact .inl ⟨rfl, rfl⟩
  · exact .inr ⟨_, rfl, rfl, rfl⟩

theorem step_deleteSecret {path : Str} {r : LockReply}
    (h : step s (.deleteSecret path) = some (s', r)) :
    (s' = s ∧ ∃ e, r = .deleteSecret (some e)) ∨
      (r = .deleteSecret none ∧ s' = { s with secrets := s.secrets.erase path }) := by
  cases h
  unfold deleteSecret
  split_ifs
  · exact .inl ⟨rfl, _, rfl⟩
  · split
    · exact .inl ⟨rfl, _, rfl⟩
    · exact .inr ⟨rfl, rfl⟩

theorem current_cons (w : Written) (earlier : List Written) :
    current (w :: earlier) = some
      { data := w.data, createdAt := w.now, updatedAt := w.now
        version := match current earlier with
          | some existing => existing.version + 1
          | none => 1 } := by
  cases earlier with
  | nil => rfl
  | cons w' earlier => simp [current]

theorem step_secrets {op : LockOp} {r : LockReply} (h : step s op = some (s', r))
    (hop : changedPath op = none) : s'.secrets = s.secrets := by
  cases step_effect h with
  | putSecret | deleteSecret => cases hop
  | keep | ignored | initialized | share | refuse | unsealed | sealed | createKey | rotateKey => rfl

theorem step_lookup_of_ne {op : LockOp} {r : LockReply} (h : step s op = some (s', r)) {path : Str}
    (hop : changedPath op ≠ some path) : s'.secrets.lookup path = s.secrets.lookup path := by
  cases op with
  | putSecret path' data now =>
      have hne : path ≠ path' := fun he => hop (by rw [he]; rfl)
      obtain ⟨rfl, _⟩ | ⟨_, _, _, rfl⟩ := step_putSecret h
      · rfl
      · exact Finmap.lookup_insert_of_ne _ hne
  | deleteSecret path' =>
      have hne : path ≠ path' := fun he => hop (by rw [he]; rfl)
      obtain ⟨rfl, _⟩ | ⟨_, rfl⟩ := step_deleteSecret h
      · rfl
      · exact Finmap.lookup_erase_ne hne
  | _ => rw [step_secrets h rfl]

theorem not_recorded_of_ne {op : LockOp} (r : LockReply) {path : Str}
    (hop : changedPath op ≠ some path) :
    deletes path (op, r) = false ∧ written path (op, r) = none := by
  cases op with
  | putSecret path' data now =>
      have hne : path' ≠ path := fun he => hop (by rw [he]; rfl)
      refine ⟨rfl, ?_⟩
      unfold written
      split <;> simp_all
  | deleteSecret path' =>
      have hne : path' ≠ path := fun he => hop (by rw [he]; rfl)
      refine ⟨?_, rfl⟩
      unfold deletes
      split <;> simp_all
  | _ => exact ⟨rfl, rfl⟩

/-- One operation of the service is one step of the history of a path. -/
theorem step_refines {op : LockOp} {r : LockReply} (h : step s op = some (s', r)) {path : Str}
    {ws : List Written} (hs : s.secrets.lookup path = current ws) :
    s'.secrets.lookup path =
      current (if deletes path (op, r) then [] else (written path (op, r)).toList ++ ws) := by
  by_cases hop : changedPath op = some path
  · cases op with
    | putSecret path' data now =>
        cases hop
        obtain ⟨rfl, rfl⟩ | ⟨version, rfl, hversion, rfl⟩ := step_putSecret h
        · simpa [deletes, written] using hs
        · rw [hs] at hversion
          have hnew : (s.secrets.insert path
              { data, version, createdAt := now, updatedAt := now }).lookup path =
                current ({ data, now } :: ws) := by
            rw [Finmap.lookup_insert, current_cons, hversion]
          simpa [deletes, written] using hnew
    | deleteSecret path' =>
        cases hop
        obtain ⟨rfl, e, rfl⟩ | ⟨rfl, rfl⟩ := step_deleteSecret h
        · simpa [deletes, written] using hs
        · simp [deletes, current]
    | _ => cases hop
  · obtain ⟨hd, hw⟩ := not_recorded_of_ne r hop
    rw [step_lookup_of_ne h hop, hs]
    simp [hd, hw]

theorem run_refines {threshold : ℤ} {tr : List (LockOp × LockReply)}
    (h : Run step (newLockService threshold) tr s) : s.Refines (writes tr) := by
  refine h.snocInduction (I := fun tr s => s.Refines (writes tr)) ?_ ?_
  · intro path
    rfl
  · intro tr m op r m' _ hm hstep path
    rw [writes_snoc]
    exact step_refines hstep (hm path)

theorem Refines.getSecret {history : Str → List Written} (h : s.Refines history)
    (hs : s.sealed = false) (path : Str) :
    s.getSecret path =
      match current (history path) with
      | none => .error .secretNotFound
      | some secret => .ok secret := by
  have hpath := h path
  unfold LockService.getSecret
  cases hc : current (history path) with
  | none => simp [hs, hpath, hc]
  | some secret => simp [hs, hpath, hc]

theorem Refines.listSecrets {history : Str → List Written} (h : s.Refines history)
    (hs : s.sealed = false) (pathPrefix : Str) :
    ∃ paths, s.listSecrets pathPrefix = .ok paths ∧
      ∀ path, path ∈ paths ↔ history path ≠ [] ∧ pathPrefix <+: path := by
  refine ⟨_, by rw [LockService.listSecrets, if_neg (by simp [hs])], ?_⟩
  intro path
  have hlive : path ∈ s.secrets ↔ history path ≠ [] := by
    rw [← Finmap.lookup_isSome, h path]
    cases history path <;> simp [current]
  rw [Finset.mem_filter, Finmap.mem_keys, hlive]

/-- At every open point of every run: a path holds its newest write since its last deletion,
numbered by the writes since then; the listed paths are those that hold one; and what is
done to other paths does not show. -/
theorem secret_store_refines {threshold : ℤ} {tr : List (LockOp × LockReply)}
    (h : Run step (newLockService threshold) tr s) (hs : s.sealed = false) :
    (∀ path, s.getSecret path =
      match writes tr path with
      | [] => .error .secretNotFound
      | w :: earlier => .ok
          { data := w.data, version := earlier.length + 1, createdAt := w.now, updatedAt := w.now }) ∧
    (∀ pathPrefix, ∃ paths, s.listSecrets pathPrefix = .ok paths ∧
      ∀ path, path ∈ paths ↔ writes tr path ≠ [] ∧ pathPrefix <+: path) ∧
    ∀ path op r s', step s op = some (s', r) → changedPath op ≠ some path → s'.sealed = false →
      s'.getSecret path = s.getSecret path := by
  have hr := run_refines h
  refine ⟨?_, hr.listSecrets hs, ?_⟩
  · intro path
    rw [hr.getSecret hs]
    cases writes tr path with
    | nil => rfl
    | cons w earlier => rfl
  · intro path op r s' hstep hop hs'
    rw [LockService.getSecret, LockService.getSecret, step_lookup_of_ne hstep hop, hs, hs']

/-- Two writes, a seal cycle, a refused write and one to another path in between. -/
theorem secret_store_refines_cycle : ∃ tr s, Run step (newLockService 1) tr s ∧
    s.sealed = false ∧ s.getSecret ['p'] =
      .ok { data := ∅, version := 2, createdAt := 7, updatedAt := 7 } := by
  have h : ∃ r₁ r₂ r₃ s, Run step (newLockService 1)
      [(.initializeVault 1 1 ⟨zeroRead, zeroRead, zeroRead⟩, r₁),
        (.putSecret ['p'] ∅ 5, .putSecret (.ok 1)), (.sealVault, r₂),
        (.putSecret ['p'] ∅ 6, .putSecret (.error .vaultSealed)), (.unsealVault zeroShare, r₃),
        (.putSecret ['q'] ∅ 6, .putSecret (.ok 1)), (.putSecret ['p'] ∅ 7, .putSecret (.ok 2))] s ∧
      s.sealed = false :=
    ⟨_, _, _, _, ⟨_, rfl, _, rfl, _, rfl, _, rfl, _, rfl, _, rfl, _, rfl, rfl⟩, rfl⟩
  obtain ⟨r₁, r₂, r₃, s, h, hs⟩ := h
  exact ⟨_, s, h, hs, (secret_store_refines h hs).1 ['p']⟩

end GrpcVault.LockService
