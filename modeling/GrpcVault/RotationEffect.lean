import GrpcVault.CiphertextDurability

/-!
# When a rotation takes effect

A rotation changes the keyring and leaves the key cache of the crypto service as
it is. An encryption that starts after it uses the new version exactly if the
cache has no older entry for the key by then. What counts as the material of a
version is read off the trace: it is what the creation or the rotation that
reported the version got from the random source.
-/

namespace GrpcVault.CryptoService

open GoText EventSystem ReadThrough

def MakesVersion (k : Str) (version : ℤ) (material : Bytes) : CryptoEvent × CryptoOutput → Prop
  | (.store (.createKey name _ (some b) _), .store (.createKey (.ok _))) =>
      name = k ∧ version = 1 ∧ material = b.val
  | (.store (.rotateKey name (some b) _), .store (.rotateKey (.ok n))) =>
      name = k ∧ version = n ∧ material = b.val
  | _ => False

def Made (tr : CryptoTrace) (k : Str) (version : ℤ) (material : Bytes) : Prop :=
  ∃ x ∈ tr, MakesVersion k version material x

/-- The key is a version of `k` not older than `n`, under that version's number. -/
def Current (tr : CryptoTrace) (k : Str) (n : ℤ) (v : KeyInfo) : Prop :=
  n ≤ v.version ∧ Made tr k v.version v.key

/-- The ciphertext is sealed with the material of a version of `k` and names that version. -/
def SealedUnder (g : Aes.Gcm) (tr : CryptoTrace) (k : Str) (version : ℤ) (ct : Str)
    (plaintext aad : Bytes) : Prop :=
  ∃ material nonce, Made tr k version material ∧ ct = Aes.envelope version
    (Base64.encodeToString (nonce ++ g.aeadSeal material nonce plaintext aad))

/-- Whatever the call encrypts with the key is reported with a version not older than `n`
and sealed under it. -/
def EncryptsUnder (g : Aes.Gcm) (tr : CryptoTrace) (k : Str) (n : ℤ) (v : KeyInfo) :
    CryptoCall → Prop
  | .encrypt _ plaintext aad => ∀ rand ct version,
      encryptWith g v plaintext aad rand = .ok (ct, version) →
        n ≤ version ∧ SealedUnder g tr k version ct plaintext aad
  | .encryptBatch _ items => ∀ rand, ∀ result ∈ encryptBatchWith g v items rand,
      result.error = none → n ≤ result.keyVersion ∧ ∃ item ∈ items,
        SealedUnder g tr k result.keyVersion result.ciphertext item.plaintext item.context
  | .decrypt _ _ _ => True

def EncryptsWith (k : Str) (r : KeyRequest) : Prop :=
  (∃ plaintext aad, r = .encrypt k plaintext aad) ∨ ∃ items, r = .encryptBatch k items

def SmallVersions (tr : CryptoTrace) (k : Str) : Prop :=
  ∀ rand now n, (Event.store (.rotateKey k rand now), Output.store (.rotateKey (.ok n))) ∈ tr →
    n < 2 ^ 31

theorem Made.mono {tr tr' : CryptoTrace} {k : Str} {version : ℤ} {material : Bytes}
    (h : Made tr k version material) (hsub : tr ⊆ tr') : Made tr' k version material := by
  obtain ⟨x, hx, hm⟩ := h
  exact ⟨x, hsub hx, hm⟩

theorem encryptItem_eq {g : Aes.Gcm} {v : KeyInfo} {item : BatchItem}
    {rand : RandRead Aes.nonceSize} (h : (encryptItem g v item rand).error = none) :
    encryptWith g v item.plaintext item.context rand =
      .ok ((encryptItem g v item rand).ciphertext, (encryptItem g v item rand).keyVersion) := by
  unfold encryptItem encryptWith at *
  cases hc : newCipher v with
  | error e => simp [hc] at h
  | ok cipher =>
      cases he : cipher.encrypt g item.plaintext item.context rand with
      | error e => simp [hc, he] at h
      | ok ct => simp [he]

theorem Current.encryptWith {g : Aes.Gcm} {tr : CryptoTrace} {k : Str} {n : ℤ} {v : KeyInfo}
    (hcur : Current tr k n v) {plaintext aad : Bytes} {rand : RandRead Aes.nonceSize} {ct : Str}
    {version : ℤ} (h : encryptWith g v plaintext aad rand = .ok (ct, version)) :
    n ≤ version ∧ SealedUnder g tr k version ct plaintext aad := by
  obtain ⟨_, rfl, nonce, _, hct⟩ := encryptWith_eq_ok h
  exact ⟨hcur.1, v.key, nonce, hcur.2, hct⟩

theorem Current.encryptsUnder {tr : CryptoTrace} {k : Str} {n : ℤ} {v : KeyInfo}
    (hcur : Current tr k n v) (g : Aes.Gcm) (call : CryptoCall) :
    EncryptsUnder g tr k n v call := by
  cases call with
  | encrypt name plaintext aad => exact fun rand ct version h => hcur.encryptWith h
  | encryptBatch name items =>
      intro rand result hmem herr
      obtain ⟨i, hi, rfl⟩ := List.mem_mapIdx.mp hmem
      obtain ⟨hle, hsealed⟩ := hcur.encryptWith (encryptItem_eq herr)
      exact ⟨hle, items[i], List.getElem_mem hi, hsealed⟩
  | decrypt name ct aad => trivial

def Occurs (T : CryptoTrace) (x : LockOp × LockReply) : Prop :=
  (Event.store x.1, Output.store x.2) ∈ T

/-- The versions of the key are those that the trace made, with numbers that fit. -/
structure Documented (T : CryptoTrace) (k : Str) (t : LockService) : Prop where
  valid : t.Valid
  small : t.latest k < 2 ^ 31
  made : ∀ p, t.keyring.policies.lookup k = some p → ∀ key ∈ p.keys,
    Made T k key.version key.key

theorem documented_new (T : CryptoTrace) (k : Str) (threshold : ℤ) :
    Documented T k (newLockService threshold) where
  valid := LockService.valid_new threshold
  small := by
    change (0 : ℤ) < 2 ^ 31
    norm_num
  made _ h := by cases h

theorem Documented.step {T : CryptoTrace} {k : Str} (hsmall : SmallVersions T k)
    {t t' : LockService} {op : LockOp} {reply : LockReply} (hA : Occurs T (op, reply))
    (hd : Documented T k t) (h : LockService.step t op = some (t', reply)) :
    Documented T k t' := by
  have hv := LockService.step_valid h hd.valid
  have hlt : t'.latest k < 2 ^ 31 := by
    refine LockService.step_latest_lt h (by norm_num) ?_ hd.small
    rintro rand now n rfl rfl
    exact hsmall rand now n hA
  refine ⟨hv, hlt, ?_⟩
  cases LockService.step_effect h with
  | keep | ignored | initialized | share | refuse | unsealed | putSecret | deleteSecret =>
      exact hd.made
  | sealed =>
      intro p hp
      cases hp
  | @createKey name keyType rand now keyring policy hs hk =>
      obtain ⟨_, _, hg, rfl⟩ := Keyring.createKey_eq_ok hk
      obtain ⟨b, rfl, rfl⟩ := generateKeyVersion_eq_ok hg
      intro p hp key hmem
      rcases GoMap.lookup_insert_cases hp with ⟨rfl, rfl⟩ | ⟨_, hold⟩
      · cases List.mem_singleton.mp hmem
        exact ⟨_, hA, rfl, rfl, rfl⟩
      · exact hd.made p hold key hmem
  | @rotateKey name rand now keyring version hs hk =>
      obtain ⟨_, policy, policy', hl, hg, rfl, rfl⟩ := Keyring.rotateKey_eq_ok hk
      obtain ⟨b, rfl, rfl⟩ := generateKeyVersion_eq_ok hg
      intro p hp key hmem
      rcases GoMap.lookup_insert_cases hp with ⟨rfl, rfl⟩ | ⟨_, hold⟩
      · rcases List.mem_append.mp hmem with hmem | hnew
        · exact hd.made policy hl key hmem
        · cases List.mem_singleton.mp hnew
          exact ⟨_, hA, rfl, rfl, rfl⟩
      · exact hd.made p hold key hmem

/-- From a rotation that returned `n` on, the keyring is closed or has at least `n` versions. -/
structure RotatedTo (T : CryptoTrace) (k : Str) (n : ℤ) (t : LockService) : Prop where
  documented : Documented T k t
  latest : t.keyring.sealed = true ∨ n ≤ t.latest k

theorem RotatedTo.step {T : CryptoTrace} {k : Str} {n : ℤ} (hsmall : SmallVersions T k)
    {t t' : LockService} {op : LockOp} {reply : LockReply} (hA : Occurs T (op, reply))
    (hr : RotatedTo T k n t) (h : LockService.step t op = some (t', reply)) :
    RotatedTo T k n t' := by
  exact ⟨hr.documented.step hsmall hA h,
    LockService.step_latest_ge hr.documented.valid h hr.latest⟩

theorem rotatedTo_of_rotate {T : CryptoTrace} {k : Str} {n : ℤ} {t t' : LockService}
    {rand : RandRead 32} {now : ℤ} (hd : Documented T k t')
    (h : LockService.step t (.rotateKey k rand now) = some (t', .rotateKey (.ok n))) :
    RotatedTo T k n t' :=
  ⟨hd, .inr (LockService.latest_of_rotate h).ge⟩

theorem RotatedTo.fetch {T : CryptoTrace} {k : Str} {n : ℤ} {t : LockService}
    (hr : RotatedTo T k n t) {r : KeyRequest} {v : KeyInfo}
    (hf : cryptoService.fetch t r = some v) (hname : r.keyName = k) (hver : r.version = 0) :
    Current T k n v := by
  obtain ⟨_, key, hk, rfl⟩ := fetch_eq_some.mp hf
  have hle := hr.documented.valid.getKeyVersion_le hk
  obtain ⟨hopen, p, hp, _, hfind⟩ := Keyring.getKeyVersion_eq_ok.mp hk
  rw [hname] at hp hle
  have hzero : int32 r.version = 0 := by rw [hver]; rfl
  rw [hname, hzero] at hk
  have hlatest := (LockService.latest_of_getKeyVersion hk).2
  have hsmall := hr.documented.small
  have hself : int32 key.version = key.version := int32_eq_self (by omega) (by omega)
  have hn : n ≤ t.latest k := by
    rcases hr.latest with hs | hn
    · rw [hopen] at hs
      cases hs
    · exact hn
  have hmade := hr.documented.made p hp key (List.mem_of_find?_eq_some hfind)
  constructor
  · change n ≤ int32 key.version
    omega
  · change Made T k (int32 key.version) key.key
    rwa [hself]

theorem run_rotatedTo {threshold : ℤ} {tr T : CryptoTrace} {s : CryptoState} {k : Str} {n : ℤ}
    {rand : RandRead 32} {now : ℤ}
    (hrun : Run cryptoService.step (CryptoState.start threshold) tr s) (hsub : tr ⊆ T)
    (hsmall : SmallVersions T k)
    (hrot : (Event.store (.rotateKey k rand now), Output.store (.rotateKey (.ok n))) ∈ tr) :
    RotatedTo T k n s.store := by
  have hperm : ∀ x ∈ tr, Service.Permitted (fun _ => True) (Occurs T) x :=
    Service.permitted_of_mem (fun _ _ _ => trivial) (fun _ _ hx => hsub hx)
  obtain ⟨a, b, rfl⟩ := List.append_of_mem hrot
  obtain ⟨m, m', hm, hstep, hb⟩ := run_append_cons.mp hrun
  have hd : Documented T k m.store :=
    Service.run_store (fun hA hd hs => hd.step hsmall hA hs) hm
      (fun x hx => hperm x (List.mem_append_left _ hx)) (documented_new T k threshold)
  cases Service.step_effect hstep with
  | store hc =>
      have hr := rotatedTo_of_rotate (hd.step hsmall (hsub hrot) hc) hc
      exact Service.run_store (fun hA hr hs => hr.step hsmall hA hs) hb
        (fun x hx => hperm x (List.mem_append_right _ (List.mem_cons_of_mem _ hx))) hr

theorem Made.of_start {tr : CryptoTrace} {k : Str} {version : ℤ} {material : Bytes}
    {r : KeyRequest} {o : CryptoOutput} (h : Made (tr ++ [(.start r, o)]) k version material) :
    Made tr k version material := by
  obtain ⟨x, hx, hm⟩ := h
  rcases List.mem_append.mp hx with hx | hx
  · exact ⟨x, hx, hm⟩
  · rw [List.mem_singleton.mp hx] at hm
    exact absurd hm (by simp [MakesVersion])

theorem EncryptsWith.keyOf {k : Str} {r : KeyRequest} (h : EncryptsWith k r) :
    r.keyName = k ∧ r.version = 0 ∧ cryptoService.keyOf r = k := by
  rcases h with ⟨plaintext, aad, rfl⟩ | ⟨items, rfl⟩
  · exact ⟨rfl, rfl, rfl⟩
  · exact ⟨rfl, rfl, rfl⟩

/-- After a rotation of `k` that returned `n`, an encryption under `k` starts. Whenever it
returns, it has worked under a version not older than `n`: exactly if the cache entry for `k`
at its start, where there is one, is such a version. -/
theorem rotation_effective_iff (g : Aes.Gcm) {threshold : ℤ} {tr : CryptoTrace} {s : CryptoState}
    (hrun : Run cryptoService.step (CryptoState.start threshold) tr s) {k : Str} {n : ℤ}
    {rand : RandRead 32} {now : ℤ}
    (hrot : (Event.store (.rotateKey k rand now), Output.store (.rotateKey (.ok n))) ∈ tr)
    (hsmall : SmallVersions tr k) {r : KeyRequest} (hr : EncryptsWith k r) :
    (∀ o tr' s', Run cryptoService.step s ((.start r, o) :: tr') s' → SmallVersions tr' k →
        ∀ e v, (e, Output.returned s.next r v) ∈ (Event.start r, o) :: tr' →
          Current (tr ++ (Event.start r, o) :: tr') k n v ∧
            EncryptsUnder g (tr ++ (Event.start r, o) :: tr') k n v r.call) ↔
      ∀ v, s.cache k = some v → Current tr k n v := by
  obtain ⟨hname, hver, hkey⟩ := hr.keyOf
  constructor
  · intro hall v hc
    have hstep : cryptoService.step s (.start r) =
        some ({ s with next := s.next + 1 }, .returned s.next r v) := by
      simp only [Service.step, hkey, hc]
    have hcur := (hall _ [] _ ⟨_, hstep, rfl⟩ (by intro _ _ _ h; cases h) _ v
      List.mem_cons_self).1
    exact ⟨hcur.1, hcur.2.of_start⟩
  · intro hcache o tr' s' hrun' hsmall' e v hmem
    have hsmallT : SmallVersions (tr ++ (Event.start r, o) :: tr') k := by
      intro rand now n' hx
      rcases List.mem_append.mp hx with hx | hx
      · exact hsmall rand now n' hx
      · rcases List.mem_cons.mp hx with hx | hx
        · cases hx
        · exact hsmall' rand now n' hx
    have hrot' := run_rotatedTo hrun (List.subset_append_left _ _) hsmallT hrot
    have hperm : ∀ x ∈ (Event.start r, o) :: tr', Service.Permitted (fun _ => True)
        (Occurs (tr ++ (Event.start r, o) :: tr')) x :=
      Service.permitted_of_mem (fun _ _ _ => trivial)
        (fun _ _ hx => List.mem_append_right _ hx)
    have hfresh := Service.run_fresh hrun (Service.fresh_init _)
    have hcur : Current (tr ++ (Event.start r, o) :: tr') k n v := by
      rcases Service.call_returned
        (Q := fun q w => q.keyName = k → q.version = 0 →
          Current (tr ++ (Event.start r, o) :: tr') k n w)
        (fun hA hJ hs => hJ.step hsmallT hA hs) (fun hJ hf => hJ.fetch hf) hfresh hrot' hrun'
        hperm hmem with ⟨_, hc⟩ | hQ
      · rw [hkey] at hc
        obtain ⟨hle, hmade⟩ := hcache v hc
        exact ⟨hle, hmade.mono (List.subset_append_left _ _)⟩
      · exact hQ hname hver
    exact ⟨hcur, hcur.encryptsUnder g r.call⟩

/-- A rotation before the first encryption: the cache is empty when the call starts. -/
theorem rotation_effective_cold : ∃ (tr : CryptoTrace) (s s' : CryptoState) (o : CryptoOutput)
    (tr' : CryptoTrace) (e : CryptoEvent) (v : KeyInfo),
    Run cryptoService.step (CryptoState.start 1) tr s ∧
    Run cryptoService.step s ((.start (.encrypt ['k'] [1] []), o) :: tr') s' ∧
    (e, Output.returned s.next (.encrypt ['k'] [1] []) v) ∈
      (Event.start (.encrypt ['k'] [1] []), o) :: tr' ∧
    Current (tr ++ (Event.start (.encrypt ['k'] [1] []), o) :: tr') ['k'] 2 v := by
  have hrun : ∃ r₁ r₂ v s s', Run cryptoService.step (CryptoState.start 1)
      [(.store (.initializeVault 1 1 ⟨zeroRead, zeroRead, zeroRead⟩), .store r₁),
        (.store (.createKey ['k'] .aes256GCM zeroRead 0), .store r₂),
        (.store (.rotateKey ['k'] (constRead 1) 0), .store (.rotateKey (.ok 2)))] s ∧
      s.next = 0 ∧ s.cache = (fun _ => none) ∧
      Run cryptoService.step s
      [(.start (.encrypt ['k'] [1] []), .missed 0 (.encrypt ['k'] [1] [])),
        (.respond 0, .answered 0), (.fill 0, .returned 0 (.encrypt ['k'] [1] []) v)] s' :=
    ⟨_, _, _, _, _, ⟨_, rfl, _, rfl, _, rfl, rfl⟩, rfl, rfl, ⟨_, rfl, _, rfl, _, rfl, rfl⟩⟩
  obtain ⟨r₁, r₂, v, s, s', hrun, hnext, hcache, hrun'⟩ := hrun
  have hmem : (Event.fill 0, Output.returned s.next (.encrypt ['k'] [1] []) v) ∈
      ([(.start (.encrypt ['k'] [1] []), .missed 0 (.encrypt ['k'] [1] [])),
        (.respond 0, .answered 0),
        (.fill 0, .returned 0 (.encrypt ['k'] [1] []) v)] : CryptoTrace) := by
    rw [hnext]
    simp
  refine ⟨_, s, s', _, _, _, v, hrun, hrun', hmem, ?_⟩
  refine ((rotation_effective_iff tagGcm hrun (List.mem_cons_of_mem _ (List.mem_cons_of_mem _
    List.mem_cons_self)) ?_ (.inl ⟨_, _, rfl⟩)).mpr ?_ _ _ _ hrun' ?_ _ v hmem).1
  · intro rand now n hx
    simp at hx
    omega
  · intro v hc
    rw [hcache] at hc
    cases hc
  · intro rand now n hx
    simp at hx

/-- An encryption before the rotation leaves version 1 in the cache for the one after it. -/
theorem rotation_ignored_by_cache : ∃ (tr : CryptoTrace) (s s' : CryptoState) (v : KeyInfo),
    Run cryptoService.step (CryptoState.start 1) tr s ∧
    (Event.store (.rotateKey ['k'] (constRead 1) 0), Output.store (.rotateKey (.ok 2))) ∈ tr ∧
    cryptoService.step s (.start (.encrypt ['k'] [1] [])) =
      some (s', .returned s.next (.encrypt ['k'] [1] []) v) ∧
    v.version = 1 ∧ ∃ ct, encryptWith tagGcm v [1] [] (some ⟨List.replicate 12 0, rfl⟩) =
      .ok (ct, 1) := by
  have hrun : ∃ r₁ r₂ v s s', Run cryptoService.step (CryptoState.start 1)
      [(.store (.initializeVault 1 1 ⟨zeroRead, zeroRead, zeroRead⟩), .store r₁),
        (.store (.createKey ['k'] .aes256GCM zeroRead 0), .store r₂),
        (.start (.encrypt ['k'] [1] []), .missed 0 (.encrypt ['k'] [1] [])),
        (.respond 0, .answered 0), (.fill 0, .returned 0 (.encrypt ['k'] [1] []) v),
        (.store (.rotateKey ['k'] (constRead 1) 0), .store (.rotateKey (.ok 2)))] s ∧
      cryptoService.step s (.start (.encrypt ['k'] [1] [])) =
        some (s', .returned s.next (.encrypt ['k'] [1] []) v) ∧
      v.version = 1 ∧ ∃ ct, encryptWith tagGcm v [1] [] (some ⟨List.replicate 12 0, rfl⟩) =
        .ok (ct, 1) :=
    ⟨_, _, _, _, _, ⟨_, rfl, _, rfl, _, rfl, _, rfl, _, rfl, _, rfl, rfl⟩, rfl, rfl, _, rfl⟩
  obtain ⟨r₁, r₂, v, s, s', hrun, hstep, hv, hct⟩ := hrun
  exact ⟨_, s, s', v, hrun, by simp, hstep, hv, hct⟩

end GrpcVault.CryptoService
