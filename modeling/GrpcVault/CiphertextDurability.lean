import GrpcVault.KeyIsolation

/-!
# Ciphertexts survive rotation

A ciphertext names the version that it was made under. As long as the numbers of
the versions fit into the `int32` of the wire format, that version stays in the
keyring, and whatever the key cache holds by then for a decryption is that
version's material.
-/

namespace GrpcVault.CryptoService

open GoText EventSystem ReadThrough

def rotation (k : Str) : CryptoEvent × CryptoOutput → Bool
  | (.store op, .store reply) => LockService.rotates k op reply
  | _ => false

def rotations (k : Str) (tr : CryptoTrace) : ℕ := tr.countP (rotation k)

theorem run_latest {threshold : ℤ} {tr : CryptoTrace} {s : CryptoState} (k : Str)
    (h : Run cryptoService.step (CryptoState.start threshold) tr s) :
    s.store.latest k ≤ 1 + rotations k tr := by
  refine h.snocInduction
    (I := fun (tr : CryptoTrace) (s : CryptoState) => s.store.latest k ≤ 1 + (rotations k tr : ℤ))
    ?_ ?_
  · change (0 : ℤ) ≤ 1 + 0
    omega
  · intro tr m e o m' _ ih hstep
    rw [rotations, List.countP_append, List.countP_singleton, ← rotations]
    cases Service.step_effect hstep with
    | @store op t reply hc =>
        have hl := LockService.step_latest hc k
        change t.latest k ≤ _
        change _ ≤ 1 + ((rotations k tr + if LockService.rotates k op reply then 1 else 0 : ℕ) : ℤ)
        split_ifs at hl ⊢ <;> omega
    | _ =>
        refine le_trans ih ?_
        split_ifs <;> omega

section
variable {g : Aes.Gcm} {v : KeyInfo} {plaintext aad : Bytes} {ct : Str} {version : ℤ}

theorem encryptWith_eq_ok {rand : RandRead Aes.nonceSize}
    (h : encryptWith g v plaintext aad rand = .ok (ct, version)) :
    Aes.validKeySize v.key ∧ version = v.version ∧ ∃ nonce : Bytes,
      nonce.length = Aes.nonceSize ∧ ct = Aes.envelope v.version
        (Base64.encodeToString (nonce ++ g.aeadSeal v.key nonce plaintext aad)) := by
  unfold encryptWith at h
  split at h
  · cases h
  · rename_i cipher hc
    obtain ⟨hsize, rfl⟩ := Aes.newCipher_eq_ok hc
    split at h
    · cases h
    · rename_i ciphertext he
      cases h
      exact ⟨hsize, rfl, Aes.Cipher.encrypt_eq_ok he⟩

theorem decryptWith_envelope (hg : g.Lawful) (hsize : Aes.validKeySize v.key)
    (hlo : -2 ^ 63 ≤ version) (hhi : version < 2 ^ 63) {nonce : Bytes}
    (hn : nonce.length = Aes.nonceSize) (hp : plaintext ≠ []) :
    decryptWith g v (Aes.envelope version
      (Base64.encodeToString (nonce ++ g.aeadSeal v.key nonce plaintext aad))) aad =
      .ok (plaintext, version) := by
  have hd : Aes.Cipher.decrypt g { key := v.key, version := v.version } (Aes.envelope version
      (Base64.encodeToString (nonce ++ g.aeadSeal v.key nonce plaintext aad))) aad =
      .ok (plaintext, version) := Aes.Cipher.decrypt_envelope hg hsize hlo hhi hn hp
  simp only [decryptWith, newCipher, Aes.newCipher, if_pos hsize, hd]

end

theorem Held.eq_keyInfoOf {t : LockService} {r : KeyRequest} {v : KeyInfo} {key : Key}
    (h : Held t r v) (hk : t.keyring.getKeyVersion r.keyName key.version = .ok key)
    (hver : r.version = key.version) (hlo : 1 ≤ key.version) (hhi : key.version < 2 ^ 31) :
    v = keyInfoOf key := by
  obtain ⟨key', hk', rfl, hver'⟩ := h
  have he : key'.version = key.version := by
    rw [hver' (by omega) (by omega), hver]
  rw [he, hk] at hk'
  rw [Except.ok.inj hk']

theorem not_collides_of_name {k : Str} {r r' : KeyRequest} (hr : r.keyName = k)
    (hr' : r'.keyName = k) : ¬ Collides r r' := by
  intro hc
  have hlen := congrArg List.length hc.2.2
  rw [hr, hr', List.length_append, List.length_cons] at hlen
  omega

theorem decrypt_eq_decryptWith {g : Aes.Gcm} {client : Option LockClient} {cache cache' : KeyCache}
    {k ct encoded : Str} {aad : Bytes} {version : ℤ} {v : KeyInfo}
    (hparse : Aes.parseCiphertext ct = .ok (version, encoded))
    (hget : getKey client cache k version = (cache', .ok v)) :
    (decrypt g client cache k ct aad).2 = decryptWith g v ct aad := by
  simp only [decrypt, hparse, hget]

theorem getKey_held {s : CryptoState} {Req : KeyRequest → Prop} {A : LockOp × LockReply → Prop}
    (hsound : cryptoService.Sound Req A LockService.Valid Held)
    (hgood : cryptoService.Good Req LockService.Valid Held s) {r : KeyRequest} (hr : Req r)
    {key : Key} (hk : s.store.keyring.getKeyVersion r.keyName key.version = .ok key)
    (hver : r.version = key.version) (hlo : 1 ≤ key.version) (hhi : key.version < 2 ^ 31)
    (hopen : s.store.sealed = false) :
    ∃ cache, getKey (some (lockClient s.store)) s.cache r.keyName r.version =
      (cache, .ok (keyInfoOf key)) := by
  rw [getKey_eq, Service.answer]
  cases hc : s.cache (cryptoService.keyOf r) with
  | some v =>
      have hheld := hgood.cached_ok hsound hr hc
      rw [hheld.eq_keyInfoOf hk hver hlo hhi]
      exact ⟨_, rfl⟩
  | none =>
      have hself : int32 r.version = key.version := by
        rw [hver]
        exact int32_eq_self (by omega) hhi
      have hf : cryptoService.fetch s.store r = some (keyInfoOf key) := by
        apply fetch_eq_some.mpr
        exact ⟨hopen, key, by rw [hself, hk], rfl⟩
      rw [hf]
      exact ⟨_, rfl⟩

theorem run_keyed {threshold : ℤ} {tr : CryptoTrace} {s : CryptoState} {Req : KeyRequest → Prop}
    {k : Str} (h : Run cryptoService.step (CryptoState.start threshold) tr s)
    (hp : ∀ x ∈ tr, Service.Permitted Req NoSeal x) (hpos : 0 < s.store.latest k) :
    s.store.sealed = false := by
  refine Service.run_store (I := fun t => 0 < t.latest k → t.sealed = false) ?_ h hp ?_ hpos
  · intro t op reply t' hA hI hs
    exact LockService.step_keyed hs hA hI
  · intro hlt
    exact absurd hlt (lt_irrefl 0)

theorem version_of_parsed {r : KeyRequest} {k : Str} {ct : Str} {aad : Bytes} {version : ℤ}
    {encoded : Str} (hcall : r.call = .decrypt k ct aad)
    (hparse : Aes.parseCiphertext ct = .ok (version, encoded)) : r.version = version := by
  have hp := r.parsed
  rw [hcall, CryptoCall.version, hparse] at hp
  exact (Except.ok.inj hp).symm

/-- Fewer than `2 ^ 31 - 1` rotations: every ciphertext decrypts later on, by itself or in
a call among others, to its plaintext with the version that was reported for it. -/
theorem ciphertext_durable {g : Aes.Gcm} (hg : g.Lawful) {threshold : ℤ} {k : Str}
    {tr : CryptoTrace} {last : CryptoState}
    (hrun : Run cryptoService.step (CryptoState.start threshold) tr last)
    (hseal : ∀ op reply, (Event.store op, Output.store reply) ∈ tr → op ≠ .sealVault)
    (hname : ∀ r, Asked tr r → r.keyName = k) (hrot : rotations k tr < 2 ^ 31 - 1)
    {tr₁ tr₂ : CryptoTrace} {e : CryptoEvent} {id : ℕ} {plaintext aad : Bytes} {v : KeyInfo}
    (htr : tr = tr₁ ++ (e, Output.returned id (.encrypt k plaintext aad) v) :: tr₂)
    (hp : plaintext ≠ []) {rand : RandRead Aes.nonceSize} {ct : Str} {version : ℤ}
    (henc : encryptWith g v plaintext aad rand = .ok (ct, version)) :
    (decrypt g (some (lockClient last.store)) last.cache k ct aad).2 = .ok (plaintext, version) ∧
      ∀ e' id' r' v', (e', Output.returned id' r' v') ∈ tr₂ → r'.call = .decrypt k ct aad →
        decryptWith g v' ct aad = .ok (plaintext, version) := by
  have hsound : cryptoService.Sound (fun r => r.keyName = k) NoSeal LockService.Valid Held :=
    sound_of_no_collision (fun r r' hr hr' => not_collides_of_name hr hr')
  have hperm : ∀ x ∈ tr, Service.Permitted (fun r => r.keyName = k) NoSeal x :=
    Service.permitted_of_mem (fun r o hx => hname r ⟨o, hx⟩) hseal
  have hstart : cryptoService.Good (fun r => r.keyName = k) LockService.Valid Held
      (CryptoState.start threshold) := Service.good_init (LockService.valid_new threshold)
  have hgood := Service.run_good hsound hrun hperm hstart
  -- the key that encrypted, which the lock service still holds at the end, and its number
  have hmem : (e, Output.returned id (.encrypt k plaintext aad) v) ∈ tr := by simp [htr]
  obtain ⟨key, hkey, rfl, _⟩ := (Service.run_returned_ok hsound hrun hperm hstart hmem).2
  change last.store.keyring.getKeyVersion k key.version = .ok key at hkey
  obtain ⟨hlo, hle, hlen⟩ := hgood.inv.getKeyVersion_le hkey
  have hlatest := run_latest k hrun
  have hhi : key.version < 2 ^ 31 := by omega
  have hself : int32 key.version = key.version := int32_eq_self (by omega) hhi
  obtain ⟨hsize, hver, nonce, hn, hct⟩ := encryptWith_eq_ok henc
  have hversion : version = key.version := hver.trans hself
  obtain ⟨encoded, hparse⟩ : ∃ encoded, Aes.parseCiphertext ct = .ok (version, encoded) := by
    rw [hct, ← hver]
    exact ⟨_, Aes.parseCiphertext_envelope (by omega) (by omega)
      (Base64.colon_notMem_encodeToString _)⟩
  have hdec : decryptWith g (keyInfoOf key) ct aad = .ok (plaintext, version) := by
    rw [hct, ← hver]
    exact decryptWith_envelope hg hsize (by omega) (by omega) hn hp
  constructor
  · have hopen := run_keyed (k := k) hrun hperm (by omega)
    have hcall : (CryptoCall.decrypt k ct aad).version = .ok version := by
      rw [CryptoCall.version, hparse]
      rfl
    obtain ⟨cache, hget⟩ := getKey_held (r := ⟨.decrypt k ct aad, version, hcall⟩) hsound hgood
      rfl hkey hversion hlo hhi hopen
    exact (decrypt_eq_decryptWith hparse hget).trans hdec
  · intro e' id' r' v' hmem' hcall
    have hmem : (e', Output.returned id' r' v') ∈ tr := by simp [htr, hmem']
    have hheld := (Service.run_returned_ok hsound hrun hperm hstart hmem).2
    have hname' : r'.keyName = k := congrArg CryptoCall.keyName hcall
    have hve : r'.version = key.version := (version_of_parsed hcall hparse).trans hversion
    rw [hheld.eq_keyInfoOf (hname' ▸ hkey) hve hlo hhi]
    exact hdec

/-- A stand-in for AES-GCM whose tag is the head of the key. -/
def tagGcm : Aes.Gcm where
  aeadSeal key _ plaintext _ := plaintext ++ key.take 16
  aeadOpen key _ ciphertext _ :=
    if ciphertext.drop (ciphertext.length - 16) = key.take 16 then
      some (ciphertext.take (ciphertext.length - 16))
    else none

theorem tagGcm_lawful : tagGcm.Lawful := by
  have hlen : ∀ key, Aes.validKeySize key → (key.take 16).length = 16 := by
    intro key hk
    rw [List.length_take]
    rcases hk with hk | hk | hk <;> omega
  constructor
  · intro key nonce plaintext aad hk _
    simp only [tagGcm, List.length_append, hlen key hk, Aes.Gcm.overhead]
  · intro key nonce plaintext aad hk _
    have hsub : (plaintext ++ key.take 16).length - 16 = plaintext.length := by
      rw [List.length_append, hlen key hk]
      omega
    simp only [tagGcm, hsub, List.drop_left, List.take_left, if_true]

/-- After the encryption the key is rotated, its cache entry evicted, and another text encrypted
under version 2. -/
theorem ciphertext_durable_rotated : ∃ (tr₁ tr₂ : CryptoTrace) (v w : KeyInfo) (ct : Str)
    (last : CryptoState),
    Run cryptoService.step (CryptoState.start 1)
      (tr₁ ++ (.fill 0, .returned 0 (.encrypt ['k'] [1] []) v) :: tr₂) last ∧
    (.store (.rotateKey ['k'] (constRead 1) 0), .store (.rotateKey (.ok 2))) ∈ tr₂ ∧
    (.evict ['k'], .done) ∈ tr₂ ∧
    (.fill 1, .returned 1 (.encrypt ['k'] [2] []) w) ∈ tr₂ ∧ w.version = 2 ∧
    encryptWith tagGcm v [1] [] (some ⟨List.replicate 12 0, rfl⟩) = .ok (ct, 1) ∧
    (decrypt tagGcm (some (lockClient last.store)) last.cache ['k'] ct []).2 = .ok ([1], 1) := by
  have hrun : ∃ r₁ r₂ v w last, Run cryptoService.step (CryptoState.start 1)
      (([(.store (.initializeVault 1 1 ⟨zeroRead, zeroRead, zeroRead⟩), .store r₁),
        (.store (.createKey ['k'] .aes256GCM zeroRead 0), .store r₂),
        (.start (.encrypt ['k'] [1] []), .missed 0 (.encrypt ['k'] [1] [])),
        (.respond 0, .answered 0)] : CryptoTrace) ++
        (.fill 0, .returned 0 (.encrypt ['k'] [1] []) v) ::
        [(.store (.rotateKey ['k'] (constRead 1) 0), .store (.rotateKey (.ok 2))),
          (.evict ['k'], .done),
          (.start (.encrypt ['k'] [2] []), .missed 1 (.encrypt ['k'] [2] [])),
          (.respond 1, .answered 1), (.fill 1, .returned 1 (.encrypt ['k'] [2] []) w)]) last ∧
      w.version = 2 ∧
      ∃ ct, encryptWith tagGcm v [1] [] (some ⟨List.replicate 12 0, rfl⟩) = .ok (ct, 1) :=
    ⟨_, _, _, _, _, ⟨_, rfl, _, rfl, _, rfl, _, rfl, _, rfl, _, rfl, _, rfl, _, rfl, _, rfl, _, rfl,
      rfl⟩, rfl, _, rfl⟩
  obtain ⟨r₁, r₂, v, w, last, hrun, hversion, ct, henc⟩ := hrun
  refine ⟨_, _, v, w, ct, last, hrun, by simp, by simp, by simp, hversion, henc, ?_⟩
  refine (ciphertext_durable tagGcm_lawful hrun ?_ ?_ ?_ rfl (by simp) henc).1
  · intro op reply hx
    simp only [List.cons_append, List.nil_append, List.mem_cons, Prod.mk.injEq, Event.store.injEq,
      reduceCtorEq, false_and, false_or, or_false, List.not_mem_nil] at hx
    rcases hx with ⟨rfl, _⟩ | ⟨rfl, _⟩ | ⟨rfl, _⟩ <;> simp
  · intro r hr
    obtain ⟨o, hx⟩ := hr
    simp at hx
    rcases hx with ⟨rfl, _⟩ | ⟨rfl, _⟩ <;> rfl
  · simp [rotations, rotation, LockService.rotates]

def versionKey (version : ℤ) (b : UInt8) : Key :=
  { version, key := List.replicate 32 b, type := .aes256GCM, createdAt := 0 }

/-- A key rotated `n` times, before any request. -/
structure Rotated (n : ℕ) (tr : CryptoTrace) (s : CryptoState) : Prop where
  run : Run cryptoService.step (CryptoState.start 1) tr s
  cache : s.cache = fun _ => none
  sealed : s.store.sealed = false
  keyring : s.store.keyring.sealed = false
  noSeal : ∀ op reply, (Event.store op, Output.store reply) ∈ tr → op ≠ .sealVault
  noRequest : ∀ r, ¬ Asked tr r
  rotations : rotations ['k'] tr = n
  policy : ∃ p, s.store.keyring.policies.lookup ['k'] = some p ∧ p.Numbered ∧
    p.minDecryptionVersion = 1 ∧ p.type = .aes256GCM ∧ p.latestVersion = n + 1 ∧
    Keyring.findVersion p 1 = some (versionKey 1 0) ∧
    (n ≠ 0 → Keyring.findVersion p (n + 1) = some (versionKey (n + 1) 1))

theorem rotated_zero : ∃ tr s, Rotated 0 tr s := by
  have hrun : ∃ r₁ r₂ s, Run cryptoService.step (CryptoState.start 1)
      [(.store (.initializeVault 1 1 ⟨zeroRead, zeroRead, zeroRead⟩), .store r₁),
        (.store (.createKey ['k'] .aes256GCM zeroRead 0), .store r₂)] s ∧
      s.cache = (fun _ => none) ∧ s.store.sealed = false ∧ s.store.keyring.sealed = false ∧
      ∃ p, s.store.keyring.policies.lookup ['k'] = some p ∧
        generateKeyVersion (newPolicy ['k'] .aes256GCM 0) zeroRead 0 = .ok p :=
    ⟨_, _, _, ⟨_, rfl, _, rfl, rfl⟩, rfl, rfl, rfl, _, rfl, rfl⟩
  obtain ⟨r₁, r₂, s, hrun, hc, hs, hk, p, hp, hg⟩ := hrun
  refine ⟨_, s, hrun, hc, hs, hk, ?_, ?_, by simp [CryptoService.rotations, rotation,
    LockService.rotates], p, hp, ?_⟩
  · intro op reply hx
    simp only [List.mem_cons, Prod.mk.injEq, Event.store.injEq, List.not_mem_nil, or_false] at hx
    rcases hx with ⟨rfl, _⟩ | ⟨rfl, _⟩
    · simp
    · simp
  · intro r hr
    obtain ⟨o, hx⟩ := hr
    simp at hx
  · have hn := (KeyPolicy.numbered_newPolicy ['k'] .aes256GCM 0).generate hg
    cases hg
    exact ⟨hn.1, rfl, rfl, rfl, rfl, fun h => absurd rfl h⟩

theorem rotateKey_of_open {t : LockService} {name : Str} {p p' : KeyPolicy} {rand : RandRead 32}
    {now : ℤ} (hs : t.sealed = false) (hk : t.keyring.sealed = false)
    (hp : t.keyring.policies.lookup name = some p) (hg : generateKeyVersion p rand now = .ok p') :
    ∃ t', LockService.step t (.rotateKey name rand now) =
        some (t', .rotateKey (.ok p'.latestVersion)) ∧
      t'.sealed = false ∧ t'.keyring.sealed = false ∧
      t'.keyring.policies.lookup name = some { p' with updatedAt := now } := by
  have hr : t.keyring.rotateKey name rand now = ({ t.keyring with
      policies := t.keyring.policies.insert name { p' with updatedAt := now } },
      .ok p'.latestVersion) := by
    simp only [Keyring.rotateKey, hk, hp, hg, Bool.false_eq_true, if_false]
  refine ⟨(t.rotateKey name rand now).1, ?_, ?_, ?_, ?_⟩ <;>
    simp [LockService.step, LockService.rotateKey, hs, hr, hk, LockService.liftKeyring,
      Finmap.lookup_insert]

theorem Rotated.next {n : ℕ} {tr : CryptoTrace} {s : CryptoState} (h : Rotated n tr s) :
    ∃ tr' s', Rotated (n + 1) tr' s' := by
  obtain ⟨p, hp, hnum, hmin, htype, hlatest, hfirst, _⟩ := h.policy
  obtain ⟨p', hg⟩ : ∃ p', generateKeyVersion p (constRead 1) 0 = .ok p' := ⟨_, rfl⟩
  obtain ⟨hnum', hlatest'⟩ := hnum.generate hg
  obtain ⟨keyBytes, hb, hfind⟩ := hnum.findVersion_generate hg
  cases hb
  have hext := KeyPolicy.extends_generate hg 0
  have hver : p'.latestVersion = ((n + 1 : ℕ) : ℤ) + 1 := by
    rw [hlatest', hlatest]
    push_cast
    ring
  obtain ⟨t, ht, hsealed, hkeyring, hlookup⟩ := rotateKey_of_open h.sealed h.keyring hp hg
  have hstep : cryptoService.step s (.store (.rotateKey ['k'] (constRead 1) 0)) =
      some ({ s with store := t }, .store (.rotateKey (.ok p'.latestVersion))) := by
    have hstore : cryptoService.store s.store (.rotateKey ['k'] (constRead 1) 0) = some (t, _) := ht
    simp only [Service.step, hstore]
  refine ⟨_, _, run_snoc.mpr ⟨s, h.run, hstep⟩, h.cache, hsealed, hkeyring, ?_, ?_, ?_, _,
    hlookup, ⟨hnum'.nonneg, hnum'.versions, hnum'.material⟩, hext.min.trans hmin, ?_, hver,
    hext.findVersion hfirst, ?_⟩
  · intro op reply hx
    rcases List.mem_append.mp hx with hx | hx
    · exact h.noSeal op reply hx
    · cases List.mem_singleton.mp hx
      simp
  · intro r hr
    obtain ⟨o, hx⟩ := hr
    rcases List.mem_append.mp hx with hx | hx
    · exact h.noRequest r ⟨o, hx⟩
    · cases List.mem_singleton.mp hx
  · rw [CryptoService.rotations, List.countP_append, ← CryptoService.rotations, h.rotations]
    rfl
  · cases hg
    exact htype
  · intro _
    rw [hver, htype] at hfind
    exact hfind

theorem exists_rotated (n : ℕ) : ∃ tr s, Rotated n tr s := by
  induction n with
  | zero => exact rotated_zero
  | succ n ih =>
      obtain ⟨tr, s, h⟩ := ih
      exact h.next

/-- Version 2147483648 is reported as -2147483648, which names no entry of its own. -/
def wrapCiphertext : Str :=
  Aes.envelope (-2147483648) (Base64.encodeToString
    (List.replicate 12 0 ++ ([1] ++ List.replicate 16 1)))

def aliasRequest : KeyRequest :=
  ⟨.decrypt ['k'] "vault:v-4294967295:".toList [], -4294967295, by rfl⟩

/-- After `2 ^ 31 - 1` rotations the newest version has no number of its own on the wire, and
a ciphertext under it is lost although the lock service answers. -/
theorem ciphertext_lost_at_wrap :
    ∃ (tr₁ tr₂ : CryptoTrace) (e : CryptoEvent) (id : ℕ) (v : KeyInfo) (last : CryptoState),
      Run cryptoService.step (CryptoState.start 1)
        (tr₁ ++ (e, Output.returned id (.encrypt ['k'] [1] []) v) :: tr₂) last ∧
      (∀ op reply, (Event.store op, Output.store reply) ∈
        tr₁ ++ (e, Output.returned id (.encrypt ['k'] [1] []) v) :: tr₂ → op ≠ .sealVault) ∧
      (∀ r, Asked (tr₁ ++ (e, Output.returned id (.encrypt ['k'] [1] []) v) :: tr₂) r →
        r.keyName = ['k']) ∧
      rotations ['k'] (tr₁ ++ (e, Output.returned id (.encrypt ['k'] [1] []) v) :: tr₂) < 2 ^ 31 ∧
      tagGcm.Lawful ∧
      encryptWith tagGcm v [1] [] (some ⟨List.replicate 12 0, rfl⟩) =
        .ok (wrapCiphertext, -2147483648) ∧
      (decrypt tagGcm (some (lockClient last.store)) last.cache ['k'] wrapCiphertext []).2 =
        .error .decryptFailed := by
  obtain ⟨tr, s, h⟩ := exists_rotated (2 ^ 31 - 1)
  obtain ⟨p, hp, hnum, hmin, htype, hlatest, hfirst, hlast⟩ := h.policy
  have hnew : s.store.keyring.getKeyVersion ['k'] 0 = .ok (versionKey 2147483648 1) := by
    apply Keyring.getKeyVersion_eq_ok.mpr
    refine ⟨h.keyring, p, hp, ?_, ?_⟩
    · rw [Keyring.resolveVersion, if_pos rfl, hmin, hlatest]
      norm_num
    · rw [Keyring.resolveVersion, if_pos rfl, hlatest]
      exact hlast (by norm_num)
  have hold : s.store.keyring.getKeyVersion ['k'] 1 = .ok (versionKey 1 0) := by
    apply Keyring.getKeyVersion_eq_ok.mpr
    exact ⟨h.keyring, p, hp, by rw [hmin]; exact le_rfl, hfirst⟩
  have hf₁ : cryptoService.fetch s.store (.encrypt ['k'] [1] []) =
      some (keyInfoOf (versionKey 2147483648 1)) :=
    fetch_eq_some.mpr ⟨h.sealed, _, hnew, rfl⟩
  obtain ⟨s₁, hrun₁, hcache₁, hstore₁⟩ :=
    Service.run_miss (s := s) (r := .encrypt ['k'] [1] []) (by rw [h.cache]) hf₁
  let s₂ : CryptoState := { s₁ with cache := Function.update s₁.cache ['k'] none }
  have hf₂ : cryptoService.fetch s₂.store aliasRequest = some (keyInfoOf (versionKey 1 0)) := by
    apply fetch_eq_some.mpr
    change s₁.store.sealed = false ∧ _
    rw [hstore₁]
    exact ⟨h.sealed, _, hold, rfl⟩
  obtain ⟨s₃, hrun₃, hcache₃, hstore₃⟩ :=
    Service.run_miss (s := s₂) (r := aliasRequest) (Function.update_self ['k'] none s₁.cache) hf₂
  have hcache : s₃.cache ['k'] = some (keyInfoOf (versionKey 1 0)) := by
    rw [hcache₃]
    exact Function.update_self ['k'] _ _
  let v := keyInfoOf (versionKey 2147483648 1)
  let during : CryptoTrace := [(.start (.encrypt ['k'] [1] []), .missed s.next
    (.encrypt ['k'] [1] [])), (.respond s.next, .answered s.next)]
  let after : CryptoTrace := [(.evict ['k'], .done), (.start aliasRequest,
    .missed s₂.next aliasRequest), (.respond s₂.next, .answered s₂.next),
    (.fill s₂.next, .returned s₂.next aliasRequest (keyInfoOf (versionKey 1 0)))]
  have hrun : Run cryptoService.step (CryptoState.start 1) ((tr ++ during) ++
      (.fill s.next, Output.returned s.next (.encrypt ['k'] [1] []) v) :: after) s₃ := by
    rw [List.append_assoc]
    have hrun₂ : Run cryptoService.step s₁ after s₃ := ⟨s₂, rfl, hrun₃⟩
    have hrest := run_append.mpr ⟨s₁, hrun₁, hrun₂⟩
    exact run_append.mpr ⟨s, h.run, hrest⟩
  refine ⟨tr ++ during, after, _, _, v, s₃, hrun, ?_, ?_, ?_, tagGcm_lawful, rfl, ?_⟩
  · intro op reply hx
    simp only [during, after, List.mem_append, List.mem_cons, List.not_mem_nil, Prod.mk.injEq,
      reduceCtorEq, false_and, or_false] at hx
    exact h.noSeal op reply hx
  · intro r hr
    obtain ⟨o, hx⟩ := hr
    simp only [during, after, List.mem_append, List.mem_cons, List.not_mem_nil, Prod.mk.injEq,
      Event.start.injEq, reduceCtorEq, false_and, false_or, or_false] at hx
    rcases hx with (hx | ⟨rfl, _⟩) | ⟨rfl, _⟩
    · exact absurd ⟨o, hx⟩ (h.noRequest r)
    · rfl
    · rfl
  · have hcount : rotations ['k'] (tr ++ during ++ (.fill s.next,
        Output.returned s.next (.encrypt ['k'] [1] []) v) :: after) = rotations ['k'] tr := by
      simp [rotations, during, after, rotation]
    rw [hcount, h.rotations]
    norm_num
  · have hparse : Aes.parseCiphertext wrapCiphertext = .ok (-2147483648, _) :=
      Aes.parseCiphertext_envelope (by norm_num) (by norm_num)
        (Base64.colon_notMem_encodeToString _)
    have hget : getKey (some (lockClient s₃.store)) s₃.cache ['k'] (-2147483648) =
        (s₃.cache, .ok (keyInfoOf (versionKey 1 0))) := by
      have hkey : cacheKey ['k'] (-2147483648) = ['k'] := rfl
      simp only [getKey, hkey, hcache]
    rw [decrypt_eq_decryptWith hparse hget]
    rfl

end GrpcVault.CryptoService
