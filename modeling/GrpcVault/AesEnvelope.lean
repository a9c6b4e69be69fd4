import GrpcVault.Lib.Base64

/-!
# The AES-GCM envelope

Package `aes`: a cipher seals a plaintext under its key and wraps nonce,
ciphertext and tag as `vault:v{version}:{base64}`; the parser reads version and
payload back. AES-GCM itself is the parameter `Gcm`, with the two laws of
`Gcm.Lawful` where a result needs them.
-/

namespace GrpcVault.Aes

open GoText

def nonceSize : ℕ := 12

def ciphertextPrefix : Str := "vault".toList

def validKeySize (key : Bytes) : Prop := key.length = 16 ∨ key.length = 24 ∨ key.length = 32

instance (key : Bytes) : Decidable (validKeySize key) :=
  inferInstanceAs (Decidable (_ ∨ _ ∨ _))

/-- The AEAD that `cipher.NewGCM` builds over a key: `aeadSeal` yields ciphertext and
tag, `aeadOpen` checks the tag and yields the plaintext. -/
structure Gcm where
  aeadSeal : (key nonce plaintext aad : Bytes) → Bytes
  aeadOpen : (key nonce ciphertext aad : Bytes) → Option Bytes

namespace Gcm

def overhead : ℕ := 16

structure Lawful (g : Gcm) : Prop where
  length_seal : ∀ {key nonce plaintext aad}, validKeySize key → nonce.length = nonceSize →
    (g.aeadSeal key nonce plaintext aad).length = plaintext.length + overhead
  open_seal : ∀ {key nonce plaintext aad}, validKeySize key → nonce.length = nonceSize →
    g.aeadOpen key nonce (g.aeadSeal key nonce plaintext aad) aad = some plaintext

end Gcm

inductive AesError where
  | invalidKeySize
  | invalidCiphertext
  | decryptionFailed
  | invalidNonceSize
  | ciphertextTooShort
  | nonceGeneration
  | decodingCiphertext
  | decoding
  deriving DecidableEq

/-- The texts of the package's errors; the last three are followed by the cause's own text. -/
def AesError.message : AesError → String
  | .invalidKeySize => "invalid key size: must be 16, 24, or 32 bytes"
  | .invalidCiphertext => "invalid ciphertext format"
  | .decryptionFailed => "decryption failed: authentication error"
  | .invalidNonceSize => "invalid nonce size"
  | .ciphertextTooShort => "ciphertext too short"
  | .nonceGeneration => "failed to generate nonce: "
  | .decodingCiphertext => "failed to decode ciphertext: "
  | .decoding => "failed to decode: "

structure Cipher where
  key : Bytes
  version : ℤ
  deriving DecidableEq

def newCipher (key : Bytes) (version : ℤ) : Except AesError Cipher :=
  if validKeySize key then .ok { key, version } else .error .invalidKeySize

/-- `fmt.Sprintf("%s:v%d:%s", CiphertextPrefix, version, encoded)`. -/
def envelope (version : ℤ) (encoded : Str) : Str :=
  ciphertextPrefix ++ ':' :: ('v' :: itoa version) ++ ':' :: encoded

def parseCiphertext (ciphertext : Str) : Except AesError (ℤ × Str) :=
  match ciphertext.splitOn ':' with
  | [part₀, part₁, part₂] =>
      if part₀ ≠ ciphertextPrefix then .error .invalidCiphertext
      else if byteLen part₁ < 2 ∨ part₁.head? ≠ some 'v' then .error .invalidCiphertext
      else
        match atoi part₁.tail with
        | some version => .ok (version, part₂)
        | none => .error .invalidCiphertext
  | _ => .error .invalidCiphertext

namespace Cipher

variable (g : Gcm) (c : Cipher)

def encryptWithNonce (plaintext aad nonce : Bytes) : Except AesError Str :=
  if nonce.length ≠ nonceSize then .error .invalidNonceSize
  else .ok (envelope c.version (Base64.encodeToString (nonce ++ g.aeadSeal c.key nonce plaintext aad)))

def encrypt (plaintext aad : Bytes) (rand : RandRead nonceSize) : Except AesError Str :=
  match rand with
  | none => .error .nonceGeneration
  | some nonce => c.encryptWithNonce g plaintext aad nonce

/-- Decoding, length check and opening of a base64 payload, shared by `decrypt`
and `decryptRaw`, which differ in the text of a decoding error. -/
def decryptPayload (decodeError : AesError) (encoded : Str) (aad : Bytes) :
    Except AesError Bytes :=
  match Base64.decodeString encoded with
  | none => .error decodeError
  | some decoded =>
      if decoded.length < nonceSize + Gcm.overhead + 1 then .error .ciphertextTooShort
      else
        match g.aeadOpen c.key (decoded.take nonceSize) (decoded.drop nonceSize) aad with
        | none => .error .decryptionFailed
        | some plaintext => .ok plaintext

def decrypt (ciphertext : Str) (aad : Bytes) : Except AesError (Bytes × ℤ) :=
  match parseCiphertext ciphertext with
  | .error e => .error e
  | .ok (version, data) =>
      match c.decryptPayload g .decodingCiphertext data aad with
      | .error e => .error e
      | .ok plaintext => .ok (plaintext, version)

def decryptRaw (encoded : Str) (aad : Bytes) : Except AesError Bytes :=
  c.decryptPayload g .decoding encoded aad

end Cipher

theorem newCipher_eq_ok {key : Bytes} {version : ℤ} {c : Cipher}
    (h : newCipher key version = .ok c) :
    validKeySize key ∧ c = { key, version } := by
  unfold newCipher at h
  split at h
  · exact ⟨‹_›, (Except.ok.inj h).symm⟩
  · cases h

theorem two_le_byteLen_version (version : ℤ) : ¬ byteLen ('v' :: itoa version) < 2 := by
  obtain ⟨c, ds, h⟩ := List.exists_cons_of_ne_nil (itoa_ne_nil version)
  have hc := Char.utf8Size_pos c
  have hv : Char.utf8Size 'v' = 1 := by decide
  rw [h]
  simp only [byteLen, List.map_cons, List.sum_cons, hv]
  omega

theorem splitOn_envelope (version : ℤ) {encoded : Str} (hc : ':' ∉ encoded) :
    (envelope version encoded).splitOn ':' =
      [ciphertextPrefix, 'v' :: itoa version, encoded] := by
  have hparts : ∀ part ∈ [ciphertextPrefix, 'v' :: itoa version, encoded], ':' ∉ part := by
    intro part hpart
    simp only [List.mem_cons, List.not_mem_nil, or_false] at hpart
    rcases hpart with rfl | rfl | rfl
    · decide
    · simpa using colon_notMem_itoa version
    · exact hc
  rw [← List.splitOn_intercalate ':' hparts (by simp)]
  congr 1
  simp [envelope, List.intercalate, List.intersperse]

theorem parseCiphertext_envelope {version : ℤ} {encoded : Str} (hlo : -2 ^ 63 ≤ version)
    (hhi : version < 2 ^ 63) (hc : ':' ∉ encoded) :
    parseCiphertext (envelope version encoded) = .ok (version, encoded) := by
  have hlen := two_le_byteLen_version version
  have hhead : ¬ (byteLen ('v' :: itoa version) < 2 ∨ ('v' :: itoa version).head? ≠ some 'v') := by
    simp [hlen]
  unfold parseCiphertext
  rw [splitOn_envelope version hc]
  simp only [ne_eq, not_true_eq_false, if_false, if_neg hhead, List.tail_cons,
    atoi_itoa hlo hhi]

theorem Cipher.encryptWithNonce_eq_ok {g : Gcm} {c : Cipher} {plaintext aad nonce : Bytes}
    {ct : Str} (h : c.encryptWithNonce g plaintext aad nonce = .ok ct) :
    nonce.length = nonceSize ∧ ct = envelope c.version
      (Base64.encodeToString (nonce ++ g.aeadSeal c.key nonce plaintext aad)) := by
  unfold encryptWithNonce at h
  split at h
  · cases h
  · exact ⟨not_not.mp ‹_›, (Except.ok.inj h).symm⟩

theorem Cipher.encrypt_eq_ok {g : Gcm} {c : Cipher} {plaintext aad : Bytes}
    {rand : RandRead nonceSize} {ct : Str} (h : c.encrypt g plaintext aad rand = .ok ct) :
    ∃ nonce : Bytes, nonce.length = nonceSize ∧ ct = envelope c.version
      (Base64.encodeToString (nonce ++ g.aeadSeal c.key nonce plaintext aad)) := by
  cases rand with
  | none => cases h
  | some nonce => exact ⟨nonce, encryptWithNonce_eq_ok h⟩

/-- What a successful `Decrypt` says about the text: its version is the one reported, and the
key opens its payload. -/
theorem Cipher.decrypt_eq_ok {g : Gcm} {c : Cipher} {ct : Str} {plaintext aad : Bytes}
    {version : ℤ} (h : c.decrypt g ct aad = .ok (plaintext, version)) :
    ∃ encoded decoded, parseCiphertext ct = .ok (version, encoded) ∧
      Base64.decodeString encoded = some decoded ∧
      g.aeadOpen c.key (decoded.take nonceSize) (decoded.drop nonceSize) aad = some plaintext := by
  unfold decrypt decryptPayload at h
  cases hparse : parseCiphertext ct with
  | error e => simp [hparse] at h
  | ok parsed =>
      obtain ⟨version', encoded⟩ := parsed
      cases hdecode : Base64.decodeString encoded with
      | none => simp [hparse, hdecode] at h
      | some decoded =>
          by_cases hlen : decoded.length < nonceSize + Gcm.overhead + 1
          · simp [hparse, hdecode, hlen] at h
          · cases hopen : g.aeadOpen c.key (decoded.take nonceSize) (decoded.drop nonceSize) aad with
            | none => simp [hparse, hdecode, hlen, hopen] at h
            | some opened =>
                simp only [hparse, hdecode, hlen, hopen, if_false, Except.ok.injEq,
                  Prod.mk.injEq] at h
                obtain ⟨rfl, rfl⟩ := h
                exact ⟨encoded, decoded, rfl, hdecode, hopen⟩

theorem Cipher.decryptPayload_seal {g : Gcm} (hg : g.Lawful) {c : Cipher}
    (hk : validKeySize c.key) {plaintext aad nonce : Bytes} (hn : nonce.length = nonceSize)
    (hp : plaintext ≠ []) (decodeError : AesError) :
    c.decryptPayload g decodeError
      (Base64.encodeToString (nonce ++ g.aeadSeal c.key nonce plaintext aad)) aad =
      .ok plaintext := by
  have hlen : ¬ (nonce ++ g.aeadSeal c.key nonce plaintext aad).length <
      nonceSize + Gcm.overhead + 1 := by
    have hpos := List.length_pos_iff.mpr hp
    rw [List.length_append, hn, hg.length_seal hk hn]
    omega
  unfold decryptPayload
  rw [Base64.decodeString_encodeToString]
  simp only [if_neg hlen]
  rw [← hn, List.take_left, List.drop_left, hg.open_seal hk hn]

theorem Cipher.decrypt_envelope {g : Gcm} (hg : g.Lawful) {c : Cipher} (hk : validKeySize c.key)
    {version : ℤ} (hlo : -2 ^ 63 ≤ version) (hhi : version < 2 ^ 63)
    {plaintext aad nonce : Bytes} (hn : nonce.length = nonceSize) (hp : plaintext ≠ []) :
    c.decrypt g (envelope version
      (Base64.encodeToString (nonce ++ g.aeadSeal c.key nonce plaintext aad))) aad =
      .ok (plaintext, version) := by
  unfold decrypt
  rw [parseCiphertext_envelope hlo hhi (Base64.colon_notMem_encodeToString _)]
  simp only [decryptPayload_seal hg hk hn hp]

end GrpcVault.Aes
