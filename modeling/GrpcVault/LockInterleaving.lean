import GrpcVault.LockFailures

/-!
# Calls of the lock service at the same time

Whatever the calls of the endpoints do, they do it to the vault as one sequence of operations of
the service (`run_service`). What an endpoint answers holds at a moment of its call, with two
exceptions: a key whose vault is sealed before it is sent (`key_sent`), and a vault that is unsealed
again before `Seal` asks for its state (`seal_describes`).
-/

namespace GrpcVault.LockRpc

open GoText EventSystem Calls Memory

variable {threshold : ℤ} {tr : Trace} {c : Server} {id : ℕ} {input : Input} {req : Request}

theorem valid_of_began {t : Moment} (h : Began Memory.step handle (.new threshold) tr id req t) :
    t.state.Valid := by
  obtain ⟨ops, hrun⟩ := h.run
  exact hrun.preserves (fun _ _ _ _ hv hs => hv.step hs) (valid_new threshold)

def constInput (b : UInt8) : Input := ⟨5, constRead b, ⟨zeroRead, zeroRead, zeroRead⟩⟩

/-- `GetKeyVersions` lists as many versions as the key has at some moment of the call. -/
theorem versions_listed {name : Str} {versions : List (Option KeyVersion)}
    (hrun : Run step (.new threshold) (tr ++ [(.advance id input,
      .answered (.getKeyVersions name) (.ok (.getKeyVersions versions)))]) c) :
    ∃ m p, During Memory.step handle (.new threshold) tr id (.getKeyVersions name) m ∧
      m.policy name = some p ∧
      versions.map (Option.map KeyVersion.version) =
        (List.range' 1 p.latestVersion.toNat).map (fun i : ℕ => some (int32 i)) := by
  obtain ⟨t, hbegan, hends⟩ := exists_ends hrun rfl
  have hv := valid_of_began hbegan
  obtain ⟨_, hout⟩ | ⟨t₁, _, p, _, ht₁, _, _, hp, _, ⟨_, versions', hout, hversions⟩ | ⟨_, hout⟩⟩ :=
    ends_getKeyVersions hv hends
  · cases hout
  · cases hout
    refine ⟨t₁.state, p, hbegan.during ht₁.later, hp, ?_⟩
    calc (versions'.map some).map (Option.map KeyVersion.version)
        = (versions'.map KeyVersion.version).map some := by simp
      _ = (List.range' 1 p.latestVersion.toNat).map (fun i : ℕ => some (int32 i)) := by
          rw [hversions, List.map_map]
          rfl
  · cases hout

/-- A key that is rotated before its versions are counted. -/
theorem exists_run_listed : ∃ tr c, Run step (.new 1) (tr ++ [(.advance 1 (constInput 0),
    .answered (.getKeyVersions ['k']) (.ok (.getKeyVersions [some ⟨1, 0⟩, some ⟨2, 0⟩])))]) c :=
  ⟨[(.call 0 (.initializeVault 1 1), _), (.advance 0 (constInput 0), _),
    (.advance 0 (constInput 0), _), (.call 0 (.createKey ['k'] .aes256GCM false), _),
    (.advance 0 (constInput 1), _), (.call 1 (.getKeyVersions ['k']), _),
    (.advance 1 (constInput 0), _), (.call 2 (.rotateKey ['k']), _),
    (.advance 2 (constInput 2), _), (.advance 1 (constInput 0), _), (.advance 1 (constInput 0), _),
    (.advance 1 (constInput 0), _), (.advance 1 (constInput 0), _), (.advance 1 (constInput 0), _),
    (.advance 1 (constInput 0), _)], _,
    _, rfl, _, rfl, _, rfl, _, rfl, _, rfl, _, rfl, _, rfl, _, rfl, _, rfl, _, rfl, _, rfl,
    _, rfl, _, rfl, _, rfl, _, rfl, _, rfl, rfl⟩

theorem versions_listed_rotated : ∃ tr c m p, Run step (.new 1)
      (tr ++ [(.advance 1 (constInput 0), .answered (.getKeyVersions ['k'])
        (.ok (.getKeyVersions [some ⟨1, 0⟩, some ⟨2, 0⟩])))]) c ∧
    During Memory.step handle (.new 1) tr 1 (.getKeyVersions ['k']) m ∧ m.policy ['k'] = some p ∧
    p.latestVersion.toNat = 2 := by
  obtain ⟨tr, c, hrun⟩ := exists_run_listed
  obtain ⟨m, p, hm, hp, hversions⟩ := versions_listed hrun
  refine ⟨tr, c, m, p, hrun, hm, hp, ?_⟩
  simpa using (congrArg List.length hversions).symm

/-- `Unseal` describes the vault as its own operation has left it. -/
theorem unseal_describes {key : Str} {reset : Bool} {status : SealStatus}
    (hrun : Run step (.new threshold) (tr ++ [(.advance id input,
      .answered (.unsealVault key reset) (.ok (.sealStatus status)))]) c) :
    ∃ m r m', Acted Memory.step handle (.new threshold) tr id (.unsealVault key reset)
        m (.service (.unsealVault key)) r m' ∧
      status = statusAfter m'.service := by
  obtain ⟨t, hbegan, hends⟩ := exists_ends hrun rfl
  obtain ⟨t₁, t₂, r, ht₁, hacts, _, hstatus⟩ := ends_unsealVault hends
  exact ⟨t₁.state, r, t₂.state, hbegan.acted ht₁.later hacts, hstatus⟩

/-- A vault that is sealed again before the call which unseals it asks for the state. -/
theorem exists_run_resealed : ∃ tr c, Run step (.new 1) (tr ++ [(.advance 1 (constInput 0),
    .answered (.unsealVault zeroShare false) (.ok (.sealStatus ⟨false, true, 1, 1⟩)))]) c :=
  ⟨[(.call 0 (.initializeVault 1 1), _), (.advance 0 (constInput 0), _),
    (.advance 0 (constInput 0), _), (.call 0 .sealVault, _), (.advance 0 (constInput 0), _),
    (.call 1 (.unsealVault zeroShare false), _), (.advance 1 (constInput 0), _),
    (.call 2 .sealVault, _), (.advance 2 (constInput 0), _), (.advance 1 (constInput 0), _)], _,
    _, rfl, _, rfl, _, rfl, _, rfl, _, rfl, _, rfl, _, rfl, _, rfl, _, rfl, _, rfl, _, rfl, rfl⟩

theorem unseal_describes_resealed : ∃ tr c m r m', Run step (.new 1)
      (tr ++ [(.advance 1 (constInput 0), .answered (.unsealVault zeroShare false)
        (.ok (.sealStatus ⟨false, true, 1, 1⟩)))]) c ∧
    Acted Memory.step handle (.new 1) tr 1 (.unsealVault zeroShare false)
      m (.service (.unsealVault zeroShare)) r m' ∧ m'.service.sealed = false := by
  obtain ⟨tr, c, hrun⟩ := exists_run_resealed
  obtain ⟨m, r, m', hacted, hstatus⟩ := unseal_describes hrun
  exact ⟨tr, c, m, r, m', hrun, hacted, (congrArg SealStatus.sealed hstatus).symm⟩

/-- A call other than `Unseal` that is answered with an error has changed nothing: the operations
of the others alone lead from the state in which it began to the state in which it ends. -/
theorem error_changes_nothing {status : Status} (hreq : ∀ key reset, req ≠ .unsealVault key reset)
    (hrun : Run step (.new threshold) (tr ++ [(.advance id input,
      .answered req (.error status))]) c) :
    ∃ tr₁ tr₂ c₀, tr = tr₁ ++ (.call id req, .began) :: tr₂ ∧ NoCall id tr₂ ∧
      Run step (.new threshold) tr₁ c₀ ∧
      Run Memory.step c₀.shared (others id tr₂) c.shared := by
  obtain ⟨t, hbegan, hends⟩ := exists_ends hrun rfl
  exact hbegan.others (unchanged_of_error hreq hends)

/-- A secret that is asked for before the vault is sealed and looked up after. -/
theorem exists_run_refused : ∃ tr c, Run step (.new 1) (tr ++ [(.advance 1 (constInput 0),
    .answered (.getSecret ['p']) (.error vaultIsSealed))]) c :=
  ⟨[(.call 0 (.initializeVault 1 1), _), (.advance 0 (constInput 0), _),
    (.advance 0 (constInput 0), _), (.call 1 (.getSecret ['p']), _), (.call 2 .sealVault, _),
    (.advance 2 (constInput 0), _), (.advance 1 (constInput 0), _)], _,
    _, rfl, _, rfl, _, rfl, _, rfl, _, rfl, _, rfl, _, rfl, _, rfl, rfl⟩

theorem error_changes_nothing_refused : ∃ tr c tr₁ tr₂ c₀, Run step (.new 1)
      (tr ++ [(.advance 1 (constInput 0), .answered (.getSecret ['p']) (.error vaultIsSealed))]) c ∧
    tr = tr₁ ++ (.call 1 (.getSecret ['p']), .began) :: tr₂ ∧ NoCall 1 tr₂ ∧
    Run step (.new 1) tr₁ c₀ ∧ Run Memory.step c₀.shared (others 1 tr₂) c.shared := by
  obtain ⟨tr, c, hrun⟩ := exists_run_refused
  obtain ⟨tr₁, tr₂, c₀, hrest⟩ := error_changes_nothing (by nofun) hrun
  exact ⟨tr, c, tr₁, tr₂, c₀, hrun, hrest⟩

end GrpcVault.LockRpc
