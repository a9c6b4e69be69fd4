import GrpcVault.CiphertextDurability

/-!
# The version that a decryption reports

`Decrypt` reports the version that it read in the text, and decrypts with the key that it was
given for it. For a version that a key can have, in a run in which no cache entry is shared
by accident and no key is dropped, the two belong together. A text that names version 0, or a
negative one, is decrypted with the latest version and reported under the number in the text.
-/

namespace GrpcVault.CryptoService

open GoText EventSystem ReadThrough

/-- The lock service holds version `version` of the key, which opens the text's payload. -/
def Bound (g : Aes.Gcm) (t : LockService) (k ct : Str) (aad plaintext : Bytes) (version : ℤ) :
    Prop :=
  1 ≤ version ∧ ∃ key encoded decoded, t.keyring.getKeyVersion k version = .ok key ∧
    key.version = version ∧ Aes.parseCiphertext ct = .ok (version, encoded) ∧
    Base64.decodeString encoded = some decoded ∧
    g.aeadOpen key.key (decoded.take Aes.nonceSize) (decoded.drop Aes.nonceSize) aad =
      some plaintext

/-- A version that is named in the text is one that a key can have and `int32` can hold. -/
def NamesVersion (ct : Str) : Prop :=
  ∀ version encoded, Aes.parseCiphertext ct = .ok (version, encoded) →
    1 ≤ version ∧ version < 2 ^ 31

/-- The requests of the run, and those to decrypt this text. -/
def Involved (tr : CryptoTrace) (k ct : Str) (aad : Bytes) (r : KeyRequest) : Prop :=
  Asked tr r ∨ r.call = .decrypt k ct aad

variable {g : Aes.Gcm} {t : LockService} {k ct : Str} {aad plaintext : Bytes} {version : ℤ}
  {v : KeyInfo} {r : KeyRequest}

theorem decryptWith_eq_ok (h : decryptWith g v ct aad = .ok (plaintext, version)) :
    ∃ encoded decoded, Aes.parseCiphertext ct = .ok (version, encoded) ∧
      Base64.decodeString encoded = some decoded ∧
      g.aeadOpen v.key (decoded.take Aes.nonceSize) (decoded.drop Aes.nonceSize) aad =
        some plaintext := by
  unfold decryptWith at h
  cases hc : newCipher v with
  | error e => simp [hc] at h
  | ok cipher =>
      obtain ⟨_, rfl⟩ := Aes.newCipher_eq_ok hc
      cases hd : Aes.Cipher.decrypt g { key := v.key, version := v.version } ct aad with
      | error e => simp [hc, hd] at h
      | ok result =>
          simp only [hc, hd, Except.ok.injEq] at h
          subst h
          exact Aes.Cipher.decrypt_eq_ok hd

theorem decrypt_eq_ok {s : CryptoState}
    (h : (decrypt g (some (lockClient s.store)) s.cache k ct aad).2 = .ok (plaintext, version)) :
    ∃ (r : KeyRequest) (v : KeyInfo), r.call = .decrypt k ct aad ∧
      (cryptoService.answer s r).2 = some v ∧
      decryptWith g v ct aad = .ok (plaintext, version) := by
  cases hparse : Aes.parseCiphertext ct with
  | error e => simp [decrypt, hparse] at h
  | ok parsed =>
      obtain ⟨version', encoded⟩ := parsed
      have hcall : (CryptoCall.decrypt k ct aad).version = .ok version' := by
        rw [CryptoCall.version, hparse]
        rfl
      have hget := getKey_eq s ⟨.decrypt k ct aad, version', hcall⟩
      change getKey (some (lockClient s.store)) s.cache k version' = _ at hget
      cases ha : (cryptoService.answer s ⟨.decrypt k ct aad, version', hcall⟩).2 with
      | none =>
          rw [ha] at hget
          simp [decrypt, hparse, hget] at h
      | some v =>
          rw [ha] at hget
          exact ⟨_, v, rfl, ha, (decrypt_eq_decryptWith hparse hget).symm.trans h⟩

theorem Held.bound (hheld : Held t r v) (hcall : r.call = .decrypt k ct aad)
    (hct : NamesVersion ct) (h : decryptWith g v ct aad = .ok (plaintext, version)) :
    Bound g t k ct aad plaintext version := by
  obtain ⟨encoded, decoded, hparse, hdecode, hopen⟩ := decryptWith_eq_ok h
  obtain ⟨hlo, hhi⟩ := hct version encoded hparse
  have hversion := version_of_parsed hcall hparse
  have hname : r.keyName = k := congrArg CryptoCall.keyName hcall
  obtain ⟨key, hkey, rfl, hver⟩ := hheld
  have hkv : key.version = version := by
    rw [hver (by omega) (by omega), hversion]
  rw [hname, hkv] at hkey
  exact ⟨hlo, key, encoded, decoded, hkey, hkv, hparse, hdecode, hopen⟩

/-- In a run without a seal in which no two requests collide, a text that names a version in
range decrypts, by itself or in a call among others, only with that version of the key, which
the lock service holds. -/
theorem decrypt_version_bound {threshold : ℤ} {tr : CryptoTrace} {s : CryptoState}
    (hrun : Run cryptoService.step (CryptoState.start threshold) tr s)
    (hseal : ∀ op reply, (Event.store op, Output.store reply) ∈ tr → op ≠ .sealVault)
    (hreq : ∀ r r', Involved tr k ct aad r → Involved tr k ct aad r' → ¬ Collides r r')
    (hct : NamesVersion ct) :
    (∀ plaintext version, (decrypt g (some (lockClient s.store)) s.cache k ct aad).2 =
        .ok (plaintext, version) → Bound g s.store k ct aad plaintext version) ∧
      ∀ e id r v, (e, Output.returned id r v) ∈ tr → r.call = .decrypt k ct aad →
        ∀ plaintext version, decryptWith g v ct aad = .ok (plaintext, version) →
          Bound g s.store k ct aad plaintext version := by
  have hsound := sound_of_no_collision hreq
  have hperm : ∀ x ∈ tr, Service.Permitted (Involved tr k ct aad) NoSeal x :=
    Service.permitted_of_mem (fun r o hx => .inl ⟨o, hx⟩) hseal
  have hstart : cryptoService.Good (Involved tr k ct aad) LockService.Valid Held
      (CryptoState.start threshold) := Service.good_init (LockService.valid_new threshold)
  constructor
  · intro plaintext version hdec
    obtain ⟨r, v, hcall, hanswer, hwith⟩ := decrypt_eq_ok hdec
    have hgood := Service.run_good hsound hrun hperm hstart
    have hheld := hgood.answer_ok hsound (.inr hcall) hanswer
    exact hheld.bound hcall hct hwith
  · intro e id r v hmem hcall plaintext version hwith
    have hheld := (Service.run_returned_ok hsound hrun hperm hstart hmem).2
    exact hheld.bound hcall hct hwith

def onePayload : Str :=
  Base64.encodeToString (List.replicate 12 0 ++
    tagGcm.aeadSeal (List.replicate 32 0) (List.replicate 12 0) [1] [])

theorem parse_onePayload {version : ℤ} (hlo : -2 ^ 63 ≤ version) (hhi : version < 2 ^ 63) :
    Aes.parseCiphertext (Aes.envelope version onePayload) = .ok (version, onePayload) :=
  Aes.parseCiphertext_envelope hlo hhi (Base64.colon_notMem_encodeToString _)

theorem decrypt_onePayload {client : Option LockClient} {cache cache' : KeyCache} {v : KeyInfo}
    (hlo : -2 ^ 63 ≤ version) (hhi : version < 2 ^ 63) (hv : v.key = List.replicate 32 0)
    (hget : getKey client cache k version = (cache', .ok v)) :
    (decrypt tagGcm client cache k (Aes.envelope version onePayload) []).2 =
      .ok ([1], version) := by
  rw [decrypt_eq_decryptWith (parse_onePayload hlo hhi) hget]
  have hsize : Aes.validKeySize v.key := .inr (.inr (by rw [hv, List.length_replicate]))
  have hdec : decryptWith tagGcm v (Aes.envelope version (Base64.encodeToString
      (List.replicate 12 0 ++ tagGcm.aeadSeal v.key (List.replicate 12 0) [1] []))) [] =
      .ok ([1], version) :=
    decryptWith_envelope tagGcm_lawful hsize hlo hhi (List.length_replicate ..) (by simp)
  rw [hv] at hdec
  exact hdec

/-- A text that names version 1 is decrypted with it. -/
theorem decrypt_version_bound_one : ∃ (tr : CryptoTrace) (s : CryptoState),
    Run cryptoService.step (CryptoState.start 1) tr s ∧
    (decrypt tagGcm (some (lockClient s.store)) s.cache ['k'] (Aes.envelope 1 onePayload) []).2 =
      .ok ([1], 1) ∧
    Bound tagGcm s.store ['k'] (Aes.envelope 1 onePayload) [] [1] 1 := by
  have hrun : ∃ (r₁ r₂ : LockReply) (s : CryptoState) (cache : KeyCache) (v : KeyInfo),
      Run cryptoService.step (CryptoState.start 1)
      [(.store (.initializeVault 1 1 ⟨zeroRead, zeroRead, zeroRead⟩), .store r₁),
        (.store (.createKey ['k'] .aes256GCM zeroRead 0), .store r₂)] s ∧
      getKey (some (lockClient s.store)) s.cache ['k'] 1 = (cache, .ok v) ∧
      v.key = List.replicate 32 0 :=
    ⟨_, _, _, _, _, ⟨_, rfl, _, rfl, rfl⟩, rfl, rfl⟩
  obtain ⟨r₁, r₂, s, cache, v, hrun, hget, hv⟩ := hrun
  have hdec := decrypt_onePayload (by norm_num) (by norm_num) hv hget
  refine ⟨_, s, hrun, hdec, (decrypt_version_bound hrun ?_ ?_ ?_).1 [1] 1 hdec⟩
  · intro op reply hx
    simp only [List.mem_cons, Prod.mk.injEq, Event.store.injEq, List.not_mem_nil, or_false] at hx
    rcases hx with ⟨rfl, _⟩ | ⟨rfl, _⟩
    · exact nofun
    · exact nofun
  · intro r r' hr hr'
    have hname : ∀ r, Involved [(.store (.initializeVault 1 1 ⟨zeroRead, zeroRead, zeroRead⟩),
        .store r₁), (.store (.createKey ['k'] .aes256GCM zeroRead 0), .store r₂)] ['k']
        (Aes.envelope 1 onePayload) [] r → r.keyName = ['k'] := by
      rintro r (⟨o, hx⟩ | hcall)
      · simp at hx
      · exact congrArg CryptoCall.keyName hcall
    exact not_collides_of_name (hname r hr) (hname r' hr')
  · intro version encoded hparse
    rw [parse_onePayload (by norm_num) (by norm_num)] at hparse
    cases hparse
    norm_num

/-- A text that names version 0 is decrypted with the latest version and reported as
version 0. -/
theorem decrypt_reports_zero : ∃ (tr : CryptoTrace) (s : CryptoState),
    Run cryptoService.step (CryptoState.start 1) tr s ∧
    (decrypt tagGcm (some (lockClient s.store)) s.cache ['k'] (Aes.envelope 0 onePayload) []).2 =
      .ok ([1], 0) ∧
    ¬ Bound tagGcm s.store ['k'] (Aes.envelope 0 onePayload) [] [1] 0 := by
  have hrun : ∃ (r₁ r₂ : LockReply) (s : CryptoState) (cache : KeyCache) (v : KeyInfo),
      Run cryptoService.step (CryptoState.start 1)
      [(.store (.initializeVault 1 1 ⟨zeroRead, zeroRead, zeroRead⟩), .store r₁),
        (.store (.createKey ['k'] .aes256GCM zeroRead 0), .store r₂)] s ∧
      getKey (some (lockClient s.store)) s.cache ['k'] 0 = (cache, .ok v) ∧
      v.key = List.replicate 32 0 :=
    ⟨_, _, _, _, _, ⟨_, rfl, _, rfl, rfl⟩, rfl, rfl⟩
  obtain ⟨r₁, r₂, s, cache, v, hrun, hget, hv⟩ := hrun
  refine ⟨_, s, hrun, decrypt_onePayload (by norm_num) (by norm_num) hv hget, ?_⟩
  rintro ⟨hpos, _⟩
  exact absurd hpos (by norm_num)

end GrpcVault.CryptoService
