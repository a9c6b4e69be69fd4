import GrpcVault.Fpe

/-!
# When the format is preserved

The wrapper's characters and the library's digits have to be the same set. Then a
text over the alphabet is encrypted to such a text and comes back
(`encrypt_round_trip`). An alphabet with a foreign character has texts that the library
refuses, and one that lacks a digit of its radix has texts that leave it.
-/

namespace GrpcVault.Fpe

open GoText

variable {ff1 : Ff1} {key : Bytes} {alphabet : Str} {c : Cipher} {tweak : Option Bytes}

theorem newCipher_eq_ok (h : newCipher ff1 key alphabet = .ok c) :
    ValidKeySize key ∧ 2 ≤ byteLen alphabet ∧ c.key = key ∧ c.alphabet = alphabet ∧
      c.radix = byteLen alphabet ∧ ff1 (byteLen alphabet) 256 key [] = some c.cipher := by
  by_cases hk : key.length ≠ 16 ∧ key.length ≠ 24 ∧ key.length ≠ 32
  · rw [newCipher, if_pos hk] at h
    cases h
  · by_cases ha : byteLen alphabet < 2
    · rw [newCipher, if_neg hk, if_pos ha] at h
      cases h
    · rw [newCipher, if_neg hk, if_neg ha] at h
      cases hf : ff1 (byteLen alphabet) 256 key [] with
      | none =>
          simp only [hf] at h
          cases h
      | some cipher =>
          simp only [hf] at h
          cases h
          refine ⟨?_, by omega, rfl, rfl, rfl, rfl⟩
          unfold ValidKeySize
          omega

theorem ValidKeySize.not_invalid (hk : ValidKeySize key) :
    ¬ (key.length ≠ 16 ∧ key.length ≠ 24 ∧ key.length ≠ 32) := by
  unfold ValidKeySize at hk
  omega

/-- The library sees the number of bytes of the alphabet only. -/
theorem newCipher_of_byteLen {alphabet' : Str} (h : newCipher ff1 key alphabet = .ok c)
    (hlen : byteLen alphabet' = byteLen alphabet) :
    newCipher ff1 key alphabet' = .ok { c with alphabet := alphabet' } := by
  obtain ⟨hk, h₂, hkey, -, hradix, hnil⟩ := newCipher_eq_ok h
  rw [newCipher, if_neg hk.not_invalid, hlen, if_neg (by omega), hnil]
  simp only [hkey, hradix]

theorem validateString_iff {s : Str} : c.validateString s = true ↔ ∀ ch ∈ s, ch ∈ c.alphabet := by
  simp [Cipher.validateString, List.all_eq_true]

theorem Ff1.Spec.inverts (hspec : ff1.Spec) : ff1.Inverts := by
  intro radix maxTLen key tweak c x y hc hx hy
  by_cases hlen : minLen radix ≤ byteLen x
  · obtain ⟨y', hy', hover, hsame, hback⟩ := hspec.encrypt_digits hc hx hlen
    rw [hy] at hy'
    cases hy'
    exact ⟨hover, hsame, hback⟩
  · rw [hspec.encrypt_other hc fun h => hlen h.2] at hy
    cases hy

theorem withTweak_eq_some (hspec : ff1.Spec) (hc : newCipher ff1 key alphabet = .ok c)
    (htweak : ∀ t ∈ tweak, t.length ≤ 256) :
    ∃ cipher t, c.withTweak ff1 tweak = some cipher ∧
      ff1 (byteLen alphabet) 256 key t = some cipher := by
  obtain ⟨hk, _, hkey, _, hradix, hnil⟩ := newCipher_eq_ok hc
  cases tweak with
  | none => exact ⟨c.cipher, [], rfl, hnil⟩
  | some t =>
      have hr := (hspec.isSome_iff.mp (Option.isSome_of_eq_some hnil)).1
      have hsome := hspec.isSome_iff.mpr ⟨hr, hk, htweak t rfl⟩
      obtain ⟨cipher, hcipher⟩ := Option.isSome_iff_exists.mp hsome
      refine ⟨cipher, t, ?_, hcipher⟩
      rw [Cipher.withTweak, hradix, hkey, hcipher]

theorem withTweak_inv {cipher : Ff1Cipher} (hc : newCipher ff1 key alphabet = .ok c)
    (hw : c.withTweak ff1 tweak = some cipher) :
    ∃ t, ff1 (byteLen alphabet) 256 key t = some cipher ∧ ∀ t' ∈ tweak, t' = t := by
  obtain ⟨_, _, hkey, _, hradix, hnil⟩ := newCipher_eq_ok hc
  cases tweak with
  | none =>
      cases hw
      exact ⟨[], hnil, by simp⟩
  | some t =>
      rw [Cipher.withTweak, hradix, hkey] at hw
      exact ⟨t, hw, fun t' ht => (Option.some.inj ht).symm⟩

theorem transform_eq {method : Ff1Cipher → Str → Option Str} {cipher : Ff1Cipher} {text : Str}
    (hlen : 2 ≤ byteLen text) (hvalid : ∀ ch ∈ text, ch ∈ c.alphabet)
    (hcipher : c.withTweak ff1 tweak = some cipher) :
    c.transform ff1 method text tweak =
      match method cipher text with
      | none => .error .library
      | some result => .ok result := by
  have hv := validateString_iff.mpr hvalid
  rw [Cipher.transform, if_neg (by omega), hv, if_neg (by simp)]
  cases hm : method cipher text with
  | none => simp only [hcipher, hm]
  | some result => simp only [hcipher, hm]

theorem transform_eq_ok {method : Ff1Cipher → Str → Option Str} {text result : Str} :
    c.transform ff1 method text tweak = .ok result ↔
      2 ≤ byteLen text ∧ (∀ ch ∈ text, ch ∈ c.alphabet) ∧
        ∃ cipher, c.withTweak ff1 tweak = some cipher ∧ method cipher text = some result := by
  constructor
  · intro h
    by_cases hlen : byteLen text < 2
    · rw [Cipher.transform, if_pos hlen] at h
      cases h
    · cases hv : c.validateString text with
      | false =>
          rw [Cipher.transform, if_neg hlen, hv, if_pos (by simp)] at h
          cases h
      | true =>
          cases hw : c.withTweak ff1 tweak with
          | none =>
              rw [Cipher.transform, if_neg hlen, hv, if_neg (by simp), hw] at h
              cases h
          | some cipher =>
              have hvalid := validateString_iff.mp hv
              rw [transform_eq (by omega) hvalid hw] at h
              cases hm : method cipher text with
              | none =>
                  rw [hm] at h
                  cases h
              | some y =>
                  rw [hm] at h
                  cases h
                  exact ⟨by omega, hvalid, cipher, rfl, hm⟩
  · rintro ⟨hlen, hvalid, cipher, hw, hm⟩
    rw [transform_eq hlen hvalid hw, hm]

theorem two_le_minLen {radix : ℕ} (h₂ : 2 ≤ radix) (h₆₂ : radix ≤ 62) : 2 ≤ minLen radix := by
  have hlt : 1 < Nat.clog radix 100 := by
    rw [Nat.lt_clog_iff_pow_lt (by omega), pow_one]
    omega
  exact hlt

/-- With the library's digits for an alphabet, a text is encrypted within the alphabet
and comes back. -/
theorem encrypt_round_trip (hspec : ff1.Spec) (hc : newCipher ff1 key alphabet = .ok c)
    (htweak : ∀ t ∈ tweak, t.length ≤ 256)
    (hdigits : ∀ ch, ch ∈ alphabet ↔ ch ∈ digits (byteLen alphabet)) {plaintext : Str}
    (hvalid : c.validateString plaintext = true) (hlen : minLen c.radix ≤ byteLen plaintext) :
    ∃ ciphertext, c.encryptWithTweak ff1 plaintext tweak = .ok ciphertext ∧
      byteLen ciphertext = byteLen plaintext ∧ (∀ ch ∈ ciphertext, ch ∈ alphabet) ∧
      c.decryptWithTweak ff1 ciphertext tweak = .ok plaintext := by
  obtain ⟨_, _, _, halph, hradix, hnil⟩ := newCipher_eq_ok hc
  obtain ⟨cipher, t, hcipher, hff1⟩ := withTweak_eq_some hspec hc htweak
  obtain ⟨⟨h₂, h₆₂⟩, -⟩ := hspec.isSome_iff.mp (Option.isSome_of_eq_some hnil)
  rw [hradix] at hlen
  have hmin := (two_le_minLen h₂ h₆₂).trans hlen
  have hover : ∀ ch ∈ plaintext, ch ∈ alphabet := halph ▸ validateString_iff.mp hvalid
  obtain ⟨y, hy, hyd, hyl, hback⟩ :=
    hspec.encrypt_digits hff1 (fun ch hch => (hdigits ch).mp (hover ch hch)) hlen
  have hyA : ∀ ch ∈ y, ch ∈ alphabet := fun ch hch => (hdigits ch).mpr (hyd ch hch)
  refine ⟨y, ?_, hyl, hyA, ?_⟩
  · rw [Cipher.encryptWithTweak, transform_eq hmin (halph ▸ hover) hcipher, hy]
  · rw [Cipher.decryptWithTweak, transform_eq (hyl ▸ hmin) (halph ▸ hyA) hcipher, hback]

theorem utf8Size_of_mem_digits {radix : ℕ} {ch : Char} (h : ch ∈ digits radix) :
    ch.utf8Size = 1 := by
  have hall : ("0123456789".toList ++ "abcdefghijklmnopqrstuvwxyz".toList ++
      "ABCDEFGHIJKLMNOPQRSTUVWXYZ".toList).all (fun d => d.val ≤ 127) = true := rfl
  have hval := List.all_eq_true.mp hall ch (List.mem_of_mem_take h)
  exact Char.utf8Size_eq_one_iff.mpr (of_decide_eq_true hval)

theorem byteLen_of_overDigits {radix : ℕ} {s : Str} (h : OverDigits radix s) :
    byteLen s = s.length := by
  have hmap : s.map Char.utf8Size = s.map fun _ => 1 :=
    List.map_congr_left fun ch hch => utf8Size_of_mem_digits (h ch hch)
  simp [byteLen, hmap]

def substitutionCipher (radix : ℕ) (σ : Equiv.Perm Char) : Ff1Cipher where
  encrypt x := if OverDigits radix x ∧ minLen radix ≤ byteLen x then some (x.map σ) else none
  decrypt y := if OverDigits radix y ∧ minLen radix ≤ byteLen y then some (y.map σ.symm) else none

/-- A library that substitutes characters, by a permutation for each radix and key. -/
def substitution (σ : ℕ → Bytes → Equiv.Perm Char) : Ff1 := fun radix maxTLen key tweak =>
  if (2 ≤ radix ∧ radix ≤ 62) ∧ ValidKeySize key ∧ tweak.length ≤ maxTLen then
    some (substitutionCipher radix (σ radix key))
  else none

section Substitution

theorem substitutionCipher_encrypt {radix : ℕ} {σ : Equiv.Perm Char} {x : Str}
    (hx : OverDigits radix x) (hlen : minLen radix ≤ byteLen x) :
    (substitutionCipher radix σ).encrypt x = some (x.map σ) := by
  simp only [substitutionCipher, hx, hlen, and_self, if_true]

theorem substitutionCipher_decrypt {radix : ℕ} {σ : Equiv.Perm Char} {y : Str}
    (hy : OverDigits radix y) (hlen : minLen radix ≤ byteLen y) :
    (substitutionCipher radix σ).decrypt y = some (y.map σ.symm) := by
  simp only [substitutionCipher, hy, hlen, and_self, if_true]

theorem substitutionCipher_encrypt_other {radix : ℕ} {σ : Equiv.Perm Char} {x : Str}
    (hx : ¬ OverDigits radix x) : (substitutionCipher radix σ).encrypt x = none := by
  simp only [substitutionCipher, hx, false_and, if_false]

variable {σ : ℕ → Bytes → Equiv.Perm Char} {radix maxTLen : ℕ} {t : Bytes} {cipher : Ff1Cipher}

theorem substitution_eq_some (h : substitution σ radix maxTLen key t = some cipher) :
    cipher = substitutionCipher radix (σ radix key) := by
  unfold substitution at h
  split at h
  · exact (Option.some.inj h).symm
  · cases h

theorem OverDigits.map {f : Char → Char} {s : Str}
    (hf : ∀ ch, ch ∈ digits radix → f ch ∈ digits radix) (h : OverDigits radix s) :
    OverDigits radix (s.map f) ∧ byteLen (s.map f) = byteLen s := by
  have hmap : OverDigits radix (s.map f) := by
    intro ch hch
    obtain ⟨d, hd, rfl⟩ := List.mem_map.mp hch
    exact hf d (h d hd)
  exact ⟨hmap, by rw [byteLen_of_overDigits hmap, byteLen_of_overDigits h, List.length_map]⟩

theorem substitution_spec
    (hσ : ∀ radix key ch, σ radix key ch ∈ digits radix ↔ ch ∈ digits radix) :
    (substitution σ).Spec := by
  have hinv : ∀ radix key ch, ch ∈ digits radix → (σ radix key).symm ch ∈ digits radix := by
    intro radix key ch hch
    rw [← hσ radix key, Equiv.apply_symm_apply]
    exact hch
  refine ⟨?_, ?_, ?_, ?_, ?_⟩
  · intro radix maxTLen key tweak
    unfold substitution
    split <;> simp [*]
  · intro radix maxTLen key tweak c x h hx hlen
    obtain rfl := substitution_eq_some h
    obtain ⟨hy, hyl⟩ := hx.map fun ch => (hσ radix key ch).mpr
    refine ⟨_, substitutionCipher_encrypt hx hlen, hy, hyl, ?_⟩
    rw [substitutionCipher_decrypt hy (hyl ▸ hlen)]
    simp [Function.comp_def]
  · intro radix maxTLen key tweak c y h hy hlen
    obtain rfl := substitution_eq_some h
    obtain ⟨hx, hxl⟩ := hy.map (hinv radix key)
    refine ⟨_, substitutionCipher_decrypt hy hlen, hx, hxl, ?_⟩
    rw [substitutionCipher_encrypt hx (hxl ▸ hlen)]
    simp [Function.comp_def]
  · intro radix maxTLen key tweak c x h hx
    obtain rfl := substitution_eq_some h
    simp only [substitutionCipher, if_neg hx]
  · intro radix maxTLen key tweak c y h hy
    obtain rfl := substitution_eq_some h
    simp only [substitutionCipher, if_neg hy]

theorem swap_mem_iff {s : Str} {a b ch : Char} (hab : a ∈ s ↔ b ∈ s) :
    Equiv.swap a b ch ∈ s ↔ ch ∈ s := by
  by_cases hca : ch = a
  · subst hca
    simp [hab]
  · by_cases hcb : ch = b
    · subst hcb
      simp [hab]
    · rw [Equiv.swap_apply_of_ne_of_ne hca hcb]

/-- Two characters exchanged at one radix, for the keys that `p` selects. -/
def swapAt (r : ℕ) (a b : Char) (p : Bytes → Bool) : ℕ → Bytes → Equiv.Perm Char :=
  fun radix key => if radix = r ∧ p key then Equiv.swap a b else 1

theorem swapAt_mem_iff {r : ℕ} {a b : Char} {p : Bytes → Bool}
    (hab : a ∈ digits r ↔ b ∈ digits r) (radix : ℕ) (key : Bytes) (ch : Char) :
    swapAt r a b p radix key ch ∈ digits radix ↔ ch ∈ digits radix := by
  unfold swapAt
  split
  · rename_i h
    rw [h.1]
    exact swap_mem_iff hab
  · rfl

theorem swapAt_mem {r : ℕ} {a b : Char} {p : Bytes → Bool} (ha : a ∈ digits r)
    (hb : b ∈ digits r) (radix : ℕ) (key : Bytes) (ch : Char) :
    swapAt r a b p radix key ch ∈ digits radix ↔ ch ∈ digits radix :=
  swapAt_mem_iff (iff_of_true ha hb) radix key ch

theorem newCipher_substitution (hk : ValidKeySize key) (h₂ : 2 ≤ byteLen alphabet)
    (h₆₂ : byteLen alphabet ≤ 62) :
    ∃ c, newCipher (substitution σ) key alphabet = .ok c ∧ c.alphabet = alphabet ∧
      c.radix = byteLen alphabet ∧
      c.cipher = substitutionCipher (byteLen alphabet) (σ (byteLen alphabet) key) := by
  refine ⟨.mk key alphabet (byteLen alphabet)
    (substitutionCipher (byteLen alphabet) (σ (byteLen alphabet) key)), ?_, rfl, rfl, rfl⟩
  rw [newCipher, if_neg hk.not_invalid, if_neg (by omega), substitution,
    if_pos ⟨⟨h₂, h₆₂⟩, hk, Nat.zero_le _⟩]

theorem withTweak_substitution
    (hσ : ∀ radix key ch, σ radix key ch ∈ digits radix ↔ ch ∈ digits radix)
    (hc : newCipher (substitution σ) key alphabet = .ok c)
    (htweak : ∀ t ∈ tweak, t.length ≤ 256) :
    c.withTweak (substitution σ) tweak =
      some (substitutionCipher (byteLen alphabet) (σ (byteLen alphabet) key)) := by
  obtain ⟨cipher, t, hw, hff1⟩ := withTweak_eq_some (substitution_spec hσ) hc htweak
  rw [hw, substitution_eq_some hff1]

end Substitution

section Converse

/-- What the wrapper promises of an alphabet, over every library as assumed. -/
def Preserves (alphabet : Str) : Prop :=
  ∀ ff1 : Ff1, ff1.Spec → ∀ (key : Bytes) (c : Cipher), newCipher ff1 key alphabet = .ok c →
    ∀ (tweak : Option Bytes) (plaintext : Str), (∀ t ∈ tweak, t.length ≤ 256) →
      c.validateString plaintext = true → minLen c.radix ≤ byteLen plaintext →
      ∃ ciphertext, c.encryptWithTweak ff1 plaintext tweak = .ok ciphertext ∧
        byteLen ciphertext = byteLen plaintext ∧ (∀ ch ∈ ciphertext, ch ∈ alphabet) ∧
        c.decryptWithTweak ff1 ciphertext tweak = .ok plaintext

theorem le_byteLen_replicate (n : ℕ) (ch : Char) : n ≤ byteLen (List.replicate n ch) := by
  have h := length_le_byteLen (List.replicate n ch)
  rwa [List.length_replicate] at h

theorem Preserves.text (h : Preserves alphabet) (h₂ : 2 ≤ byteLen alphabet)
    (h₆₂ : byteLen alphabet ≤ 62) {σ : ℕ → Bytes → Equiv.Perm Char}
    (hσ : ∀ radix key ch, σ radix key ch ∈ digits radix ↔ ch ∈ digits radix)
    (hk : ValidKeySize key) {text : Str} (hin : ∀ ch ∈ text, ch ∈ alphabet)
    (hlen : minLen (byteLen alphabet) ≤ byteLen text) :
    OverDigits (byteLen alphabet) text ∧ ∀ ch ∈ text, σ (byteLen alphabet) key ch ∈ alphabet := by
  obtain ⟨c, hc, halph, hradix, hcipher⟩ := newCipher_substitution (σ := σ) hk h₂ h₆₂
  have hin' : ∀ ch ∈ text, ch ∈ c.alphabet := halph ▸ hin
  obtain ⟨y, hy, -, hyA, -⟩ := h _ (substitution_spec hσ) key c hc none text (by simp)
    (validateString_iff.mpr hin') (hradix ▸ hlen)
  have hw : c.withTweak (substitution σ) none = some c.cipher := rfl
  rw [Cipher.encryptWithTweak, transform_eq ((two_le_minLen h₂ h₆₂).trans hlen) hin' hw,
    hcipher] at hy
  by_cases hd : OverDigits (byteLen alphabet) text
  · rw [substitutionCipher_encrypt hd hlen] at hy
    cases hy
    exact ⟨hd, fun ch hch => hyA _ (List.mem_map_of_mem hch)⟩
  · rw [substitutionCipher_encrypt_other hd] at hy
    cases hy

/-- A character of the alphabet is a digit, and a library that substitutes keeps it within
the alphabet. -/
theorem Preserves.char (h : Preserves alphabet) (h₂ : 2 ≤ byteLen alphabet)
    (h₆₂ : byteLen alphabet ≤ 62) {σ : ℕ → Bytes → Equiv.Perm Char}
    (hσ : ∀ radix key ch, σ radix key ch ∈ digits radix ↔ ch ∈ digits radix)
    (hk : ValidKeySize key) {ch : Char} (hch : ch ∈ alphabet) :
    ch ∈ digits (byteLen alphabet) ∧ σ (byteLen alphabet) key ch ∈ alphabet := by
  have hmin := two_le_minLen h₂ h₆₂
  have hmem : ch ∈ List.replicate (minLen (byteLen alphabet)) ch :=
    List.mem_replicate.mpr ⟨by omega, rfl⟩
  obtain ⟨hd, hs⟩ := h.text h₂ h₆₂ hσ hk
    (fun d hd => List.eq_of_mem_replicate hd ▸ hch) (le_byteLen_replicate _ ch)
  exact ⟨hd ch hmem, hs ch hmem⟩

/-- The format is preserved and texts come back, for every alphabet that makes a cipher,
exactly when its characters are the library's digits for its number of bytes. -/
theorem format_preserved_iff (alphabet : Str) :
    Preserves alphabet ↔ (2 ≤ byteLen alphabet → byteLen alphabet ≤ 62 →
      ∀ ch, ch ∈ alphabet ↔ ch ∈ digits (byteLen alphabet)) := by
  constructor
  · intro h h₂ h₆₂
    have hkey : ValidKeySize (List.replicate 16 0) := .inl (List.length_replicate ..)
    have hsub : ∀ ch ∈ alphabet, ch ∈ digits (byteLen alphabet) := fun ch hch =>
      (h.char h₂ h₆₂ (σ := fun _ _ => 1) (fun _ _ _ => Iff.rfl) hkey hch).1
    intro b
    refine ⟨hsub b, ?_⟩
    intro hb
    obtain ⟨a, ha⟩ : ∃ a, a ∈ alphabet := by
      apply List.exists_mem_of_ne_nil
      rintro rfl
      simp [byteLen] at h₂
    -- exchanging the digit with a character of the alphabet must stay in the alphabet
    have hswap := (h.char h₂ h₆₂ (swapAt_mem (p := fun _ => true) (hsub a ha) hb) hkey ha).2
    simpa [swapAt] using hswap
  · intro h ff1 hspec key c hc tweak plaintext htweak hvalid hlen
    obtain ⟨_, h₂, _, _, _, hnil⟩ := newCipher_eq_ok hc
    have h₆₂ := (hspec.isSome_iff.mp (Option.isSome_of_eq_some hnil)).1.2
    exact encrypt_round_trip hspec hc htweak (h h₂ h₆₂) hvalid hlen

end Converse

theorem byteLen_alphaLower : byteLen alphabetAlphaLower = 26 := by
  unfold byteLen alphabetAlphaLower
  simp [Char.utf8Size]

/-- Lower-case letters alone: the library's digits for radix 26 end with `p`. -/
theorem format_lost_for_letters :
    ∃ (ff1 : Ff1) (key : Bytes) (c : Cipher), ff1.Spec ∧
      newCipher ff1 key alphabetAlphaLower = .ok c ∧ c.validateString "zebra".toList = true ∧
      minLen c.radix ≤ byteLen "zebra".toList ∧
      c.encryptWithTweak ff1 "zebra".toList none = .error .library := by
  have hspec : (substitution fun _ _ => 1).Spec := substitution_spec fun _ _ _ => Iff.rfl
  have hz : byteLen "zebra".toList = 5 := by
    unfold byteLen
    simp [Char.utf8Size]
  have hmin : minLen 26 ≤ 5 := by
    unfold minLen
    exact Nat.clog_le_of_le_pow (by norm_num)
  have hkey : ValidKeySize (List.replicate 16 0) := .inl (List.length_replicate ..)
  have hex : ∃ c, newCipher (substitution fun _ _ => 1) (List.replicate 16 0) alphabetAlphaLower =
      .ok c ∧ c.alphabet = alphabetAlphaLower ∧ c.radix = byteLen alphabetAlphaLower ∧ _ :=
    newCipher_substitution hkey (by rw [byteLen_alphaLower]; omega)
      (by rw [byteLen_alphaLower]; omega)
  obtain ⟨c, hc, halph, hradix, -⟩ := hex
  have hin : ∀ ch ∈ "zebra".toList, ch ∈ c.alphabet := by
    rw [halph]
    unfold alphabetAlphaLower
    simp
  have hnot : ¬ OverDigits (byteLen alphabetAlphaLower) "zebra".toList := by
    rw [byteLen_alphaLower]
    intro h
    have hzd := h 'z' (by simp)
    unfold digits at hzd
    simp at hzd
  refine ⟨_, _, c, hspec, hc, validateString_iff.mpr hin, ?_, ?_⟩
  · rwa [hradix, byteLen_alphaLower, hz]
  · have hnone : ∀ t ∈ (none : Option Bytes), t.length ≤ 256 := by simp
    obtain ⟨cipher, t, hcipher, hff1⟩ := withTweak_eq_some hspec hc hnone
    have htwo : 2 ≤ byteLen "zebra".toList := by
      rw [hz]
      omega
    rw [Cipher.encryptWithTweak, transform_eq htwo hin hcipher,
      hspec.encrypt_other hff1 fun h => hnot h.1]

end GrpcVault.Fpe
