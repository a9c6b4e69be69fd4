import GrpcVault.FpeTokens

/-!
# Invalidation against fetches in flight

`invalidateKey` empties the cache entry of a key. A call that has its answer from the lock
service but has yet to add it to the cache is not affected and puts the old version back. So
the invalidation lasts exactly if no call in flight holds an older version at that moment.
-/

namespace GrpcVault.Tokenize

open GoText EventSystem ReadThrough Fpe

def SmallRotation (k : Str) (x : LockOp × LockReply) : Prop :=
  ∀ rand now n, x.1 = .rotateKey k rand now → x.2 = .rotateKey (.ok n) → n < 2 ^ 31

def SmallVersions (tr : TokenizeTrace) (k : Str) : Prop :=
  ∀ op reply, (Event.store op, Output.store reply) ∈ tr → SmallRotation k (op, reply)

/-- Every encryption under `k` that starts in `s` or later reports a version not older
than `n`. -/
def EncryptsFrom (s : TokenizeState) (k : Str) (n : ℤ) : Prop :=
  ∀ tr last, Run tokenizeService.step s tr last → SmallVersions tr k →
    ∀ e id v, (e, Output.returned id k v) ∈ tr → s.next ≤ id →
      ∀ (ff1 : Ff1) custom plaintext transformation customAlphabet tweak token version,
        fpeEncryptWith ff1 custom v plaintext transformation customAlphabet tweak =
          .ok (token, version) → n ≤ version

/-- Versions are numbered within range, and the keyring is closed or has at least `n`. -/
structure Stocked (k : Str) (n : ℤ) (t : LockService) : Prop where
  valid : t.Valid
  small : t.latest k < 2 ^ 31
  latest : t.keyring.sealed = true ∨ n ≤ t.latest k

variable {k : Str} {n : ℤ} {t t' : LockService} {op : LockOp} {reply : LockReply}

theorem small_step (hA : SmallRotation k (op, reply)) (hsmall : t.latest k < 2 ^ 31)
    (h : LockService.step t op = some (t', reply)) : t'.latest k < 2 ^ 31 :=
  LockService.step_latest_lt h (by norm_num) hA hsmall

theorem Stocked.step (hA : SmallRotation k (op, reply)) (hs : Stocked k n t)
    (h : LockService.step t op = some (t', reply)) : Stocked k n t' where
  valid := LockService.step_valid h hs.valid
  small := small_step hA hs.small h
  latest := LockService.step_latest_ge hs.valid h hs.latest

theorem Stocked.fetch (hs : Stocked k n t) {v : KeyInfo}
    (hf : tokenizeService.fetch t k = some v) : n ≤ v.version := by
  obtain ⟨_, key, hk, rfl⟩ := fetch_eq_some.mp hf
  obtain ⟨hopen, hlatest⟩ := LockService.latest_of_getKeyVersion hk
  have hpos := (hs.valid.getKeyVersion_le hk).1
  have hsmall := hs.small
  have hself : int32 key.version = key.version := int32_eq_self (by omega) (by omega)
  rcases hs.latest with hclosed | hle
  · rw [hopen] at hclosed
    cases hclosed
  · change n ≤ int32 key.version
    omega

/-- What is cached or held under `k` is not older than `n`. -/
theorem stocked_sound (k : Str) (n : ℤ) :
    tokenizeService.Sound (fun _ => True) (SmallRotation k) (Stocked k n)
      (fun _ r v => r = k → n ≤ v.version) where
  inv hA hs h := hs.step hA h
  fetch_ok hs _ hf := by
    rintro rfl
    exact hs.fetch hf
  stable _ _ _ _ hok := hok
  agree := by
    rintro t r r' v _ _ rfl hok
    exact hok

theorem permitted_small {tr : TokenizeTrace} (h : SmallVersions tr k) :
    ∀ x ∈ tr, Service.Permitted (fun _ => True) (SmallRotation k) x :=
  Service.permitted_of_mem (fun _ _ _ => trivial) h

theorem run_stocked {threshold : ℤ} {tr : TokenizeTrace} {m : TokenizeState}
    (h : Run tokenizeService.step (TokenizeState.start threshold) tr m)
    (hsmall : SmallVersions tr k) : Stocked k (m.store.latest k) m.store := by
  have hstart : Stocked k 0 (TokenizeState.start threshold).store :=
    ⟨LockService.valid_new threshold, by change (0 : ℤ) < 2 ^ 31; norm_num, .inr le_rfl⟩
  have hs : Stocked k 0 m.store :=
    Service.run_store (fun hA hs hstep => hs.step hA hstep) h (permitted_small hsmall) hstart
  exact ⟨hs.valid, hs.small, .inr le_rfl⟩

theorem exists_encryption {v : KeyInfo} (hv : v.key.length = 32) :
    ∃ ff1 : Ff1, ff1.Spec ∧ ∃ token,
      fpeEncryptWith ff1 ∅ v "00".toList "numeric".toList [] none = .ok (token, v.version) := by
  have hσ : ∀ (radix : ℕ) (key : Bytes) (ch : Char),
      (1 : Equiv.Perm Char) ch ∈ digits radix ↔ ch ∈ digits radix := fun _ _ _ => Iff.rfl
  obtain ⟨hin, hover, hlen⟩ := zeros_numeric
  exact ⟨_, substitution_spec hσ, _, fpeWith_substitution hσ (.inr (.inr hv))
    (getAlphabet_numeric ∅) (by rw [byteLen_numeric]; omega) (by rw [byteLen_numeric]; omega)
    (by simp) hin hlen (substitutionCipher_encrypt hover hlen)⟩

/-- Once an invalidation of `k` has completed, every encryption under `k` that starts reports
a version not older than the latest of that moment: exactly if no call in flight held an
older one. -/
theorem invalidation_lasts_iff {threshold : ℤ} {tr : TokenizeTrace} {m m' : TokenizeState}
    (hrun : Run tokenizeService.step (TokenizeState.start threshold) tr m)
    (hsmall : SmallVersions tr k) (hevict : tokenizeService.step m (.evict k) = some (m', .done)) :
    EncryptsFrom m' k (m.store.latest k) ↔
      ∀ id v, m.calls id = some (.fetched k v) → m.store.latest k ≤ v.version := by
  have hevict' := hevict
  rw [evict_eq_invalidateKey] at hevict
  obtain ⟨rfl, -⟩ := Prod.mk.inj (Option.some.inj hevict)
  constructor
  · -- a call that holds an older version adds it, and the next call works with it
    intro hall id v hcall
    obtain ⟨last, hfill⟩ : ∃ last, Run tokenizeService.step
        { m with cache := invalidateKey m.cache k }
        [(.fill id, .returned id k v), (.start k, .returned m.next k v)] last :=
      Service.run_fill_hit hcall
    obtain ⟨m₁, hstep, hrest⟩ := run_cons.mp hfill
    have hkey : v.key.length = 32 := run_material
      (run_append_cons.mpr ⟨_, m₁, run_snoc.mpr ⟨m, hrun, hevict'⟩, hstep, hrest⟩)
    obtain ⟨ff1, -, token, henc⟩ := exists_encryption hkey
    exact hall _ last hfill (by simp [SmallVersions]) _ m.next v
      (List.mem_cons_of_mem _ List.mem_cons_self) le_rfl ff1 _ _ _ _ _ token _ henc
  · intro hcalls tr' last hrun' hsmall' e id v hmem _ ff1 custom plaintext transformation
      customAlphabet tweak token version henc
    have hgood : tokenizeService.Good (fun _ => True) (Stocked k (m.store.latest k))
        (fun _ r v => r = k → m.store.latest k ≤ v.version)
        { m with cache := invalidateKey m.cache k } := by
      refine ⟨run_stocked hrun hsmall, ?_, ?_⟩
      · intro k' v hc
        refine ⟨k', trivial, rfl, ?_⟩
        rintro rfl
        simp [invalidateKey] at hc
      · intro i x hi
        cases x with
        | waiting r => trivial
        | fetched r w =>
            refine ⟨trivial, ?_⟩
            rintro rfl
            exact hcalls i w hi
    have hok := Service.run_returned_ok (stocked_sound k _) hrun' (permitted_small hsmall') hgood
      hmem
    obtain ⟨_, _, _, _, _, rfl⟩ := fpeWith_eq_ok.mp henc
    exact hok.2 rfl

/-- A call whose answer came after the rotation is in flight: the invalidation lasts. -/
theorem invalidation_lasts_answered : ∃ (tr : TokenizeTrace) (m m' : TokenizeState) (v : KeyInfo),
    Run tokenizeService.step (TokenizeState.start 1) tr m ∧ m.store.latest ['k'] = 2 ∧
    m.calls 0 = some (.fetched ['k'] v) ∧
    tokenizeService.step m (.evict ['k']) = some (m', .done) ∧ EncryptsFrom m' ['k'] 2 := by
  have hrun : ∃ (r₁ r₂ : LockReply) (v : KeyInfo) (m m' : TokenizeState),
      Run tokenizeService.step (TokenizeState.start 1)
      [(.store (.initializeVault 1 1 ⟨zeroRead, zeroRead, zeroRead⟩), .store r₁),
        (.store (.createKey ['k'] .aes256GCM zeroRead 0), .store r₂),
        (.start ['k'], .missed 0 ['k']),
        (.store (.rotateKey ['k'] (constRead 1) 0), .store (.rotateKey (.ok 2))),
        (.respond 0, .answered 0)] m ∧
      m.store.latest ['k'] = 2 ∧ m.calls 0 = some (.fetched ['k'] v) ∧
      (∀ id, id ≠ 0 → m.calls id = none) ∧ v.version = 2 ∧
      tokenizeService.step m (.evict ['k']) = some (m', .done) := by
    refine ⟨_, _, _, _, _, ⟨_, rfl, _, rfl, _, rfl, _, rfl, _, rfl, rfl⟩, rfl, rfl, ?_, rfl, rfl⟩
    intro id hid
    exact (Function.update_of_ne hid _ _).trans (Function.update_of_ne hid _ _)
  obtain ⟨r₁, r₂, v, m, m', hrun, hlatest, hcall, hother, hversion, hevict⟩ := hrun
  have hsmall : SmallVersions [(.store (.initializeVault 1 1 ⟨zeroRead, zeroRead, zeroRead⟩),
      .store r₁), (.store (.createKey ['k'] .aes256GCM zeroRead 0), .store r₂),
      (.start ['k'], .missed 0 ['k']),
      (.store (.rotateKey ['k'] (constRead 1) 0), .store (.rotateKey (.ok 2))),
      (.respond 0, .answered 0)] ['k'] := by
    rintro op reply hmem rand now n rfl rfl
    simp at hmem
    omega
  refine ⟨_, m, m', v, hrun, hlatest, hcall, hevict, ?_⟩
  have hiff := invalidation_lasts_iff hrun hsmall hevict
  rw [hlatest] at hiff
  refine hiff.mpr ?_
  intro id w hid
  by_cases hzero : id = 0
  · subst hzero
    rw [hcall] at hid
    cases hid
    exact hversion.ge
  · rw [hother id hzero] at hid
    cases hid

/-- The answer comes before the rotation and is added to the cache after the invalidation:
an encryption that starts then reports version 1. -/
theorem invalidation_undone : ∃ (ff1 : Ff1) (r₁ r₂ : LockReply) (v : KeyInfo)
    (m last : TokenizeState) (token : Str), ff1.Spec ∧
    Run tokenizeService.step (TokenizeState.start 1)
      [(.store (.initializeVault 1 1 ⟨zeroRead, zeroRead, zeroRead⟩), .store r₁),
        (.store (.createKey ['k'] .aes256GCM zeroRead 0), .store r₂),
        (.start ['k'], .missed 0 ['k']), (.respond 0, .answered 0),
        (.store (.rotateKey ['k'] (constRead 1) 0), .store (.rotateKey (.ok 2)))] m ∧
    m.store.latest ['k'] = 2 ∧
    Run tokenizeService.step m [(.evict ['k'], .done), (.fill 0, .returned 0 ['k'] v),
      (.start ['k'], .returned 1 ['k'] v)] last ∧
    fpeEncryptWith ff1 ∅ v "00".toList "numeric".toList [] none = .ok (token, 1) := by
  have hrun : ∃ (r₁ r₂ : LockReply) (v : KeyInfo) (m last : TokenizeState),
      Run tokenizeService.step (TokenizeState.start 1)
      [(.store (.initializeVault 1 1 ⟨zeroRead, zeroRead, zeroRead⟩), .store r₁),
        (.store (.createKey ['k'] .aes256GCM zeroRead 0), .store r₂),
        (.start ['k'], .missed 0 ['k']), (.respond 0, .answered 0),
        (.store (.rotateKey ['k'] (constRead 1) 0), .store (.rotateKey (.ok 2)))] m ∧
      m.store.latest ['k'] = 2 ∧
      Run tokenizeService.step m [(.evict ['k'], .done), (.fill 0, .returned 0 ['k'] v),
        (.start ['k'], .returned 1 ['k'] v)] last ∧ v.version = 1 ∧ v.key.length = 32 :=
    ⟨_, _, _, _, _, ⟨_, rfl, _, rfl, _, rfl, _, rfl, _, rfl, rfl⟩, rfl,
      ⟨_, rfl, _, rfl, _, rfl, rfl⟩, rfl, rfl⟩
  obtain ⟨r₁, r₂, v, m, last, hrun, hlatest, hrun', hversion, hkey⟩ := hrun
  obtain ⟨ff1, hspec, token, henc⟩ := exists_encryption hkey
  rw [hversion] at henc
  exact ⟨ff1, r₁, r₂, v, m, last, token, hspec, hrun, hlatest, hrun', henc⟩

end GrpcVault.Tokenize
