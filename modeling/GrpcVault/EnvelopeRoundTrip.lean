import GrpcVault.CiphertextDurability

/-!
# What an envelope gives back

Encrypting under a cipher and decrypting under the same one gives the plaintext back, for
every version number, with one exception: both decryptions ask for a byte between nonce
and tag, so the envelope of an empty plaintext is too short for them.
-/

namespace GrpcVault.Aes

open GoText

/-- The cipher for a key and a version encrypts the plaintext to an envelope from which both
ways of decrypting get it back, with the version. -/
def RoundTrips (g : Gcm) (key : Bytes) (version : ℤ) (plaintext aad nonce : Bytes) : Prop :=
  ∃ c ct payload, newCipher key version = .ok c ∧
    c.encryptWithNonce g plaintext aad nonce = .ok ct ∧
    c.decrypt g ct aad = .ok (plaintext, version) ∧
    parseCiphertext ct = .ok (version, payload) ∧
    c.decryptRaw g payload aad = .ok plaintext

theorem newCipher_of_valid {key : Bytes} (hk : validKeySize key) (version : ℤ) :
    newCipher key version = .ok { key, version } :=
  if_pos hk

theorem Cipher.encryptWithNonce_of_length (g : Gcm) (c : Cipher) (plaintext aad : Bytes)
    {nonce : Bytes} (hn : nonce.length = nonceSize) :
    c.encryptWithNonce g plaintext aad nonce = .ok (envelope c.version
      (Base64.encodeToString (nonce ++ g.aeadSeal c.key nonce plaintext aad))) :=
  if_neg (not_not.mpr hn)

theorem Cipher.decryptPayload_seal_empty {g : Gcm} (hg : g.Lawful) {c : Cipher}
    (hk : validKeySize c.key) {aad nonce : Bytes} (hn : nonce.length = nonceSize)
    (decodeError : AesError) :
    c.decryptPayload g decodeError
      (Base64.encodeToString (nonce ++ g.aeadSeal c.key nonce [] aad)) aad =
      .error .ciphertextTooShort := by
  have hlen : (nonce ++ g.aeadSeal c.key nonce [] aad).length < nonceSize + Gcm.overhead + 1 := by
    rw [List.length_append, hn, hg.length_seal hk hn, List.length_nil]
    omega
  unfold decryptPayload
  rw [Base64.decodeString_encodeToString]
  exact if_pos hlen

/-- The round trip succeeds for the non-empty plaintexts, whatever the key, the version, the
additional data and the nonce. -/
theorem envelope_round_trip_iff {g : Gcm} (hg : g.Lawful) {key : Bytes} (hk : validKeySize key)
    {version : ℤ} (hlo : -2 ^ 63 ≤ version) (hhi : version < 2 ^ 63) (plaintext aad : Bytes)
    {nonce : Bytes} (hn : nonce.length = nonceSize) :
    RoundTrips g key version plaintext aad nonce ↔ plaintext ≠ [] := by
  have hcipher := newCipher_of_valid hk version
  have hencrypt := Cipher.encryptWithNonce_of_length g { key, version } plaintext aad hn
  constructor
  · rintro ⟨c, ct, payload, hc, hct, _, hparse, hraw⟩ rfl
    obtain rfl := Except.ok.inj (hcipher.symm.trans hc)
    obtain rfl := Except.ok.inj (hencrypt.symm.trans hct)
    rw [parseCiphertext_envelope hlo hhi (Base64.colon_notMem_encodeToString _)] at hparse
    obtain ⟨_, rfl⟩ := Prod.mk.inj (Except.ok.inj hparse)
    rw [Cipher.decryptRaw, Cipher.decryptPayload_seal_empty hg hk hn] at hraw
    cases hraw
  · intro hp
    exact ⟨_, _, _, hcipher, hencrypt, Cipher.decrypt_envelope hg hk hlo hhi hn hp,
      parseCiphertext_envelope hlo hhi (Base64.colon_notMem_encodeToString _),
      Cipher.decryptPayload_seal hg hk hn hp _⟩

theorem envelope_round_trip_negative :
    RoundTrips CryptoService.tagGcm (List.replicate 16 0) (-1) [7] [] (List.replicate 12 0) :=
  (envelope_round_trip_iff CryptoService.tagGcm_lawful (.inl rfl) (by norm_num) (by norm_num) [7] []
    rfl).mpr (by simp)

/-- The empty plaintext is encrypted, but its envelope is refused. -/
theorem empty_plaintext_refused :
    ∃ c ct, newCipher (List.replicate 32 0) 1 = .ok c ∧
      c.encryptWithNonce CryptoService.tagGcm [] [] (List.replicate 12 0) = .ok ct ∧
      c.decrypt CryptoService.tagGcm ct [] = .error .ciphertextTooShort :=
  ⟨_, _, rfl, rfl, by decide⟩

end GrpcVault.Aes
