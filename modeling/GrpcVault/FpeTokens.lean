import GrpcVault.TokenizeService
import GrpcVault.FpeFormat

/-!
# Tokens across rotations

A token is decrypted with whatever version of the key is in use at that moment: the
cached one, or the latest if none is cached. Where the library is known only to invert texts
over its digits, it comes back for certain exactly when that version has the material that
made the token and the alphabet consists of the digits.
-/

namespace GrpcVault.Tokenize

open GoText EventSystem ReadThrough Fpe

variable {ff1 : Ff1} {custom custom' : CustomTransformations} {v : KeyInfo}
  {text result transformation customAlphabet alphabet : Str} {tweak : Option Bytes} {version : ℤ}

theorem fpeWith_eq_ok {method : Cipher → Str → Option Bytes → Except FpeError Str}
    {failed : TokenizeError} :
    fpeWith ff1 custom method failed v text transformation customAlphabet tweak =
        .ok (result, version) ↔
      ∃ alphabet c, getAlphabet custom transformation customAlphabet = .ok alphabet ∧
        Fpe.newCipher ff1 v.key alphabet = .ok c ∧ method c text tweak = .ok result ∧
        version = v.version := by
  unfold fpeWith newCipher
  cases getAlphabet custom transformation customAlphabet with
  | error e => simp
  | ok alphabet =>
      cases hc : Fpe.newCipher ff1 v.key alphabet with
      | error e => simp [hc]
      | ok c =>
          cases hm : method c text tweak with
          | error e => simp [hc, hm]
          | ok y => simp [hc, hm, eq_comm]

theorem fpeDecrypt_eq_ok {s : TokenizeState} {keyName : Str} :
    (fpeDecrypt ff1 custom (some (lockClient s.store)) s.cache keyName text transformation
        customAlphabet tweak).2 = .ok (result, version) ↔
      ∃ w, inUse s keyName = some w ∧ fpeDecryptWith ff1 custom w text transformation
        customAlphabet tweak = .ok (result, version) := by
  unfold fpeDecrypt
  rw [getKey_eq]
  cases inUse s keyName with
  | none => simp
  | some w => simp

section

variable (ff1 custom custom')

/-- Every token that is made with the key `v` comes back from a decryption at `s`. The users'
transformations are `custom` then and `custom'` at the decryption. -/
def Decodes (s : TokenizeState) (keyName : Str) (v : KeyInfo)
    (transformation customAlphabet : Str) (tweak : Option Bytes) : Prop :=
  ∀ plaintext token version,
    fpeEncryptWith ff1 custom v plaintext transformation customAlphabet tweak =
      .ok (token, version) →
    ∃ version', (fpeDecrypt ff1 custom' (some (lockClient s.store)) s.cache keyName token
      transformation customAlphabet tweak).2 = .ok (plaintext, version')

end

/-- The same material, and an alphabet with every digit of the same radix, bring a text over
the digits back. -/
theorem fpeDecryptWith_of_key {w : KeyInfo} {alphabet' : Str} (hff1 : ff1.Inverts)
    (h : fpeEncryptWith ff1 custom v text transformation customAlphabet tweak =
      .ok (result, version))
    (ha : getAlphabet custom transformation customAlphabet = .ok alphabet)
    (ha' : getAlphabet custom' transformation customAlphabet = .ok alphabet')
    (hlen : byteLen alphabet' = byteLen alphabet)
    (hdigits : ∀ ch ∈ alphabet, ch ∈ digits (byteLen alphabet))
    (hdigits' : ∀ ch ∈ digits (byteLen alphabet), ch ∈ alphabet') (hkey : w.key = v.key) :
    fpeDecryptWith ff1 custom' w result transformation customAlphabet tweak =
      .ok (text, w.version) := by
  obtain ⟨A, c, hA, hc, hm, -⟩ := fpeWith_eq_ok.mp h
  rw [ha] at hA
  cases hA
  obtain ⟨htwo, hvalid, cipher, hw, henc⟩ := transform_eq_ok.mp hm
  obtain ⟨t, hcipher, -⟩ := withTweak_inv hc hw
  rw [(newCipher_eq_ok hc).2.2.2.1] at hvalid
  have hover : OverDigits (byteLen alphabet) text := fun ch hch => hdigits ch (hvalid ch hch)
  obtain ⟨hover', hsame, hback⟩ := hff1 hcipher hover henc
  have hin : ∀ ch ∈ result, ch ∈ alphabet' := fun ch hch => hdigits' ch (hover' ch hch)
  exact fpeWith_eq_ok.mpr ⟨alphabet', { c with alphabet := alphabet' }, ha',
    hkey ▸ newCipher_of_byteLen hc hlen,
    transform_eq_ok.mpr ⟨hsame ▸ htwo, hin, cipher, hw, hback⟩, rfl⟩

theorem fpeWith_substitution {σ : ℕ → Bytes → Equiv.Perm Char}
    {method : Ff1Cipher → Str → Option Str} {failed : TokenizeError}
    (hσ : ∀ radix key ch, σ radix key ch ∈ digits radix ↔ ch ∈ digits radix)
    (hk : ValidKeySize v.key) (ha : getAlphabet custom transformation customAlphabet = .ok alphabet)
    (h₂ : 2 ≤ byteLen alphabet) (h₆₂ : byteLen alphabet ≤ 62)
    (htweak : ∀ t ∈ tweak, t.length ≤ 256) (hin : ∀ ch ∈ text, ch ∈ alphabet)
    (hlen : minLen (byteLen alphabet) ≤ byteLen text)
    (hm : method (substitutionCipher (byteLen alphabet) (σ (byteLen alphabet) v.key)) text =
      some result) :
    fpeWith (substitution σ) custom (fun c => c.transform (substitution σ) method) failed v text
      transformation customAlphabet tweak = .ok (result, v.version) := by
  have hmin := (two_le_minLen h₂ h₆₂).trans hlen
  obtain ⟨c, hc, halph, -⟩ := newCipher_substitution (σ := σ) hk h₂ h₆₂
  exact fpeWith_eq_ok.mpr ⟨alphabet, c, ha, hc, transform_eq_ok.mpr ⟨hmin, halph ▸ hin, _,
    withTweak_substitution hσ hc htweak, hm⟩, rfl⟩

section Reading

def readingCipher (radix : ℕ) (σ : Equiv.Perm Char) : Ff1Cipher where
  encrypt x := some (x.map σ)
  decrypt y := if OverDigits radix y then some (y.map σ.symm) else none

/-- A library that reads every text, for every radix, key and tweak. -/
def reading (σ : ℕ → Bytes → Equiv.Perm Char) : Ff1 := fun radix _ key _ =>
  some (readingCipher radix (σ radix key))

variable {σ : ℕ → Bytes → Equiv.Perm Char} {s : TokenizeState} {keyName : Str}

theorem readingCipher_decrypt_inv {radix : ℕ} {σ : Equiv.Perm Char} {y x : Str}
    (h : (readingCipher radix σ).decrypt y = some x) :
    OverDigits radix y ∧ y.map σ.symm = x := by
  by_cases hy : OverDigits radix y
  · simp only [readingCipher, if_pos hy, Option.some.injEq] at h
    exact ⟨hy, h⟩
  · simp only [readingCipher, if_neg hy] at h
    cases h

theorem reading_inverts
    (hσ : ∀ radix key ch, σ radix key ch ∈ digits radix ↔ ch ∈ digits radix) :
    (reading σ).Inverts := by
  intro radix maxTLen key tweak c x y hc hx hy
  cases hc
  cases hy
  obtain ⟨hover, hlen⟩ := hx.map fun ch => (hσ radix key ch).mpr
  refine ⟨hover, hlen, ?_⟩
  simp [readingCipher, hover, Function.comp_def]

theorem fpeEncryptWith_reading (hk : ValidKeySize v.key)
    (ha : getAlphabet custom transformation customAlphabet = .ok alphabet)
    (h₂ : 2 ≤ byteLen alphabet) (hin : ∀ ch ∈ text, ch ∈ alphabet) (hlen : 2 ≤ byteLen text) :
    fpeEncryptWith (reading σ) custom v text transformation customAlphabet tweak =
      .ok (text.map (σ (byteLen alphabet) v.key), v.version) := by
  let cipher := readingCipher (byteLen alphabet) (σ (byteLen alphabet) v.key)
  let c : Cipher := .mk v.key alphabet (byteLen alphabet) cipher
  have hc : Fpe.newCipher (reading σ) v.key alphabet = .ok c := by
    rw [Fpe.newCipher, if_neg hk.not_invalid, if_neg (by omega)]
    rfl
  have hw : c.withTweak (reading σ) tweak = some cipher := by
    cases tweak <;> rfl
  exact fpeWith_eq_ok.mpr ⟨alphabet, c, ha, hc,
    transform_eq_ok.mpr ⟨hlen, hin, cipher, hw, rfl⟩, rfl⟩

/-- A character of the alphabet, twice as the text, comes back only if it is substituted within
the decryption's alphabet and digits and the key in use undoes the substitution. -/
theorem Decodes.char
    (h : Decodes (reading σ) custom custom' s keyName v transformation customAlphabet tweak)
    (hk : ValidKeySize v.key) (ha : getAlphabet custom transformation customAlphabet = .ok alphabet)
    (h₂ : 2 ≤ byteLen alphabet) {ch : Char} (hch : ch ∈ alphabet) :
    ∃ w alphabet', inUse s keyName = some w ∧
      getAlphabet custom' transformation customAlphabet = .ok alphabet' ∧
      σ (byteLen alphabet) v.key ch ∈ alphabet' ∧
      σ (byteLen alphabet) v.key ch ∈ digits (byteLen alphabet') ∧
      σ (byteLen alphabet') w.key ch = σ (byteLen alphabet) v.key ch := by
  obtain ⟨version', hdec⟩ := h _ _ _ (fpeEncryptWith_reading hk ha h₂
    (fun d hd => List.eq_of_mem_replicate hd ▸ hch) (le_byteLen_replicate 2 ch))
  obtain ⟨w, hw, hdec⟩ := fpeDecrypt_eq_ok.mp hdec
  obtain ⟨alphabet', c', ha', hc', hm, -⟩ := fpeWith_eq_ok.mp hdec
  obtain ⟨-, hvalid, cipher, hcipher, hback⟩ := transform_eq_ok.mp hm
  obtain ⟨t, hlibrary, -⟩ := withTweak_inv hc' hcipher
  cases hlibrary
  rw [(newCipher_eq_ok hc').2.2.2.1] at hvalid
  obtain ⟨hover, hback⟩ := readingCipher_decrypt_inv hback
  have hmem : σ (byteLen alphabet) v.key ch ∈
      (List.replicate 2 ch).map (σ (byteLen alphabet) v.key) :=
    List.mem_map_of_mem (List.mem_replicate.mpr ⟨two_ne_zero, rfl⟩)
  refine ⟨w, alphabet', hw, ha', hvalid _ hmem, hover _ hmem, ?_⟩
  rw [List.map_map, List.map_replicate, List.replicate_inj] at hback
  obtain ⟨-, hzero | heq⟩ := hback
  · cases hzero
  · exact ((Equiv.symm_apply_eq _).mp heq).symm

end Reading

theorem star_notMem_digits {radix : ℕ} : '*' ∉ digits radix := by
  intro h
  have hmem := List.mem_of_mem_take h
  revert hmem
  decide

theorem exists_other_digit {radix : ℕ} (h₂ : 2 ≤ radix) (a : Char) :
    ∃ b ∈ digits radix, b ≠ a := by
  have hmem : ∀ b ∈ ['0', '1'], b ∈ digits radix := by
    obtain ⟨n, rfl⟩ := Nat.exists_eq_add_of_le' h₂
    simp [digits]
  by_cases ha : a = '0'
  · exact ⟨'1', hmem _ (by simp), by rw [ha]; decide⟩
  · exact ⟨'0', hmem _ (by simp), Ne.symm ha⟩

section Converse

variable {s : TokenizeState} {keyName : Str}

/-- A library may take a text over other characters out of the digits of every radix. -/
theorem digits_of_decodes (h : ∀ ff1 : Ff1, ff1.Inverts →
      Decodes ff1 custom custom' s keyName v transformation customAlphabet tweak)
    (hk : ValidKeySize v.key) (ha : getAlphabet custom transformation customAlphabet = .ok alphabet)
    (h₂ : 2 ≤ byteLen alphabet) : ∀ ch ∈ alphabet, ch ∈ digits (byteLen alphabet) := by
  intro ch hch
  by_contra hnot
  have hσ := swapAt_mem_iff (p := fun _ => true) (iff_of_false hnot star_notMem_digits)
  obtain ⟨_, _, _, _, _, hstar, _⟩ := (h _ (reading_inverts hσ)).char hk ha h₂ hch
  simp [swapAt] at hstar
  exact star_notMem_digits hstar

theorem key_of_decodes (h : ∀ ff1 : Ff1, ff1.Inverts →
      Decodes ff1 custom custom' s keyName v transformation customAlphabet tweak)
    (hk : ValidKeySize v.key) (ha : getAlphabet custom transformation customAlphabet = .ok alphabet)
    (h₂ : 2 ≤ byteLen alphabet) :
    ∃ alphabet' w, getAlphabet custom' transformation customAlphabet = .ok alphabet' ∧
      byteLen alphabet' = byteLen alphabet ∧
      (∀ ch ∈ digits (byteLen alphabet), ch ∈ alphabet') ∧
      inUse s keyName = some w ∧ w.key = v.key := by
  obtain ⟨a, haA⟩ : ∃ a, a ∈ alphabet := by
    apply List.exists_mem_of_ne_nil
    rintro rfl
    simp [byteLen] at h₂
  have haD := digits_of_decodes h hk ha h₂ a haA
  obtain ⟨b, hb, hne⟩ := exists_other_digit h₂ a
  -- a library that exchanges two digits under every other key tells the keys apart
  have hσ := swapAt_mem (p := fun key => key ≠ v.key) haD hb
  obtain ⟨w, alphabet', hw, ha', -, -, hback⟩ := (h _ (reading_inverts hσ)).char hk ha h₂ haA
  -- one that exchanges a digit of the alphabet with any other shows that digit to be in
  -- the decryption's alphabet, and the radix to be the same
  have hswap : ∀ d ∈ digits (byteLen alphabet), d ∈ alphabet' ∧
      swapAt (byteLen alphabet) a d (fun _ => true) (byteLen alphabet') w.key a = d := by
    intro d hd
    have hσ := swapAt_mem (p := fun _ => true) haD hd
    obtain ⟨w', A, hw', hA, hin, -, hsame⟩ := (h _ (reading_inverts hσ)).char hk ha h₂ haA
    rw [ha'] at hA
    cases hA
    rw [hw] at hw'
    cases hw'
    simpa [swapAt] using And.intro hin hsame
  have hlen : byteLen alphabet' = byteLen alphabet := by
    by_contra hdiff
    have hab := (hswap b hb).2
    simp [swapAt, hdiff] at hab
    exact hne hab.symm
  refine ⟨alphabet', w, ha', hlen, fun d hd => (hswap d hd).1, hw, ?_⟩
  by_contra hkey
  simp [swapAt, hkey, hlen] at hback
  exact hne hback

end Converse

theorem run_material {threshold : ℤ} {tr₁ tr₂ : TokenizeTrace} {e : TokenizeEvent} {id : ℕ}
    {keyName : Str} {last : TokenizeState}
    (h : Run tokenizeService.step (TokenizeState.start threshold)
      (tr₁ ++ (e, .returned id keyName v) :: tr₂) last) : v.key.length = 32 := by
  have hsound : tokenizeService.Sound (fun _ => True) (fun _ => True) LockService.Valid
      (fun _ _ v => v.key.length = 32) :=
    { inv := fun _ hv hs => LockService.step_valid hs hv
      fetch_ok := by
        intro t r v hv _ hf
        obtain ⟨_, key, hk, rfl⟩ := fetch_eq_some.mp hf
        exact (hv.getKeyVersion_le hk).2.2
      stable := fun _ _ _ _ hok => hok
      agree := fun _ _ _ hok => hok }
  have hperm : ∀ x : TokenizeEvent × TokenizeOutput,
      Service.Permitted (fun _ => True) (fun _ => True) x := fun x =>
    Service.permitted_of_mem (fun _ _ _ => trivial) (fun _ _ _ => trivial) x
      (List.mem_singleton_self x)
  exact (Service.run_returned_ok hsound h (fun x _ => hperm x)
    (Service.good_init (LockService.valid_new threshold))
    (List.mem_append_right _ List.mem_cons_self)).2

/-- At any later point, every token that a call has made comes back, whatever the library does
beyond inverting texts over its digits, exactly when the alphabet has digits of its radix only,
the decryption's alphabet has them all, for the same radix, and the key then in use has the
material of the call's key. -/
theorem fpe_token_decodes_iff {threshold : ℤ} {tr₁ tr₂ : TokenizeTrace} {e : TokenizeEvent}
    {id : ℕ} {keyName : Str} {last : TokenizeState}
    (hrun : Run tokenizeService.step (TokenizeState.start threshold)
      (tr₁ ++ (e, .returned id keyName v) :: tr₂) last)
    (custom custom' : CustomTransformations) (transformation customAlphabet : Str)
    (tweak : Option Bytes) :
    (∀ ff1 : Ff1, ff1.Inverts →
      Decodes ff1 custom custom' last keyName v transformation customAlphabet tweak) ↔
    ∀ alphabet, getAlphabet custom transformation customAlphabet = .ok alphabet →
      2 ≤ byteLen alphabet →
      (∀ ch ∈ alphabet, ch ∈ digits (byteLen alphabet)) ∧
      ∃ alphabet' w, getAlphabet custom' transformation customAlphabet = .ok alphabet' ∧
        byteLen alphabet' = byteLen alphabet ∧
        (∀ ch ∈ digits (byteLen alphabet), ch ∈ alphabet') ∧
        inUse last keyName = some w ∧ w.key = v.key := by
  have hk : ValidKeySize v.key := .inr (.inr (run_material hrun))
  constructor
  · intro h alphabet ha h₂
    exact ⟨digits_of_decodes h hk ha h₂, key_of_decodes h hk ha h₂⟩
  · intro h ff1 hff1 plaintext token version henc
    obtain ⟨alphabet, c, ha, hc, -⟩ := fpeWith_eq_ok.mp henc
    obtain ⟨hdigits, alphabet', w, ha', hlen, hdigits', hw, hkey⟩ :=
      h alphabet ha (newCipher_eq_ok hc).2.1
    exact ⟨w.version, fpeDecrypt_eq_ok.mpr ⟨w, hw,
      fpeDecryptWith_of_key hff1 henc ha ha' hlen hdigits hdigits' hkey⟩⟩

theorem byteLen_numeric : byteLen alphabetNumeric = 10 := by
  unfold byteLen alphabetNumeric
  simp [Char.utf8Size]

theorem digits_numeric : digits (byteLen alphabetNumeric) = alphabetNumeric := by
  rw [byteLen_numeric]
  rfl

theorem zeros_numeric : (∀ ch ∈ "00".toList, ch ∈ alphabetNumeric) ∧
    OverDigits (byteLen alphabetNumeric) "00".toList ∧
    minLen (byteLen alphabetNumeric) ≤ byteLen "00".toList := by
  have h₀ : '0' ∈ alphabetNumeric := List.mem_cons_self
  have hin : ∀ ch ∈ "00".toList, ch ∈ alphabetNumeric := by simp [h₀]
  have hover : OverDigits (byteLen alphabetNumeric) "00".toList := by
    rwa [OverDigits, digits_numeric]
  refine ⟨hin, hover, ?_⟩
  rw [byteLen_numeric, byteLen_of_overDigits hover]
  exact Nat.clog_le_of_le_pow (by simp)

theorem getAlphabet_numeric (custom : CustomTransformations) :
    getAlphabet custom "numeric".toList [] = .ok alphabetNumeric := rfl

/-- Numeric tokens of a key that has not been rotated come back with a cache that has been
emptied since. -/
theorem fpe_token_decodes_unrotated : ∃ (tr₁ tr₂ : TokenizeTrace) (v : KeyInfo)
    (last : TokenizeState),
    Run tokenizeService.step (TokenizeState.start 1)
      (tr₁ ++ (.fill 0, .returned 0 ['k'] v) :: tr₂) last ∧ last.cache ['k'] = none ∧
    ∀ (ff1 : Ff1) (tweak : Option Bytes), ff1.Inverts →
      Decodes ff1 ∅ ∅ last ['k'] v "numeric".toList [] tweak := by
  have hrun : ∃ (r₁ r₂ : LockReply) (v : KeyInfo) (last : TokenizeState),
      Run tokenizeService.step (TokenizeState.start 1)
      (([(.store (.initializeVault 1 1 ⟨zeroRead, zeroRead, zeroRead⟩), .store r₁),
        (.store (.createKey ['k'] .aes256GCM zeroRead 0), .store r₂),
        (.start ['k'], .missed 0 ['k']), (.respond 0, .answered 0)] : TokenizeTrace) ++
        (.fill 0, .returned 0 ['k'] v) :: [(.evict ['k'], .done)]) last ∧
      last.cache ['k'] = none ∧ inUse last ['k'] = some v :=
    ⟨_, _, _, _, ⟨_, rfl, _, rfl, _, rfl, _, rfl, _, rfl, _, rfl, rfl⟩, rfl, rfl⟩
  obtain ⟨r₁, r₂, v, last, hrun, hcache, hinUse⟩ := hrun
  refine ⟨_, _, v, last, hrun, hcache, ?_⟩
  intro ff1 tweak hff1
  refine (fpe_token_decodes_iff hrun ∅ ∅ "numeric".toList [] tweak).mpr ?_ ff1 hff1
  intro alphabet ha _
  rw [getAlphabet_numeric] at ha
  cases ha
  rw [digits_numeric]
  exact ⟨fun _ hch => hch, alphabetNumeric, v, getAlphabet_numeric ∅, rfl, fun _ hch => hch,
    hinUse, rfl⟩

/-- A rotation, and the invalidation that is meant to follow it, between the two calls: the
token of version 1 is decrypted with version 2. -/
theorem fpe_token_lost_by_rotation : ∃ (ff1 : Ff1) (r₁ r₂ : LockReply) (v : KeyInfo)
    (last : TokenizeState), ff1.Spec ∧ ff1.Inverts ∧
    Run tokenizeService.step (TokenizeState.start 1)
      [(.store (.initializeVault 1 1 ⟨zeroRead, zeroRead, zeroRead⟩), .store r₁),
        (.store (.createKey ['k'] .aes256GCM zeroRead 0), .store r₂),
        (.start ['k'], .missed 0 ['k']), (.respond 0, .answered 0),
        (.fill 0, .returned 0 ['k'] v),
        (.store (.rotateKey ['k'] (constRead 1) 0), .store (.rotateKey (.ok 2))),
        (.evict ['k'], .done)] last ∧
    fpeEncryptWith ff1 ∅ v "00".toList "numeric".toList [] none = .ok ("00".toList, 1) ∧
    (fpeDecrypt ff1 ∅ (some (lockClient last.store)) last.cache ['k'] "00".toList
      "numeric".toList [] none).2 = .ok ("11".toList, 2) := by
  have hrun : ∃ (r₁ r₂ : LockReply) (v w : KeyInfo) (last : TokenizeState),
      Run tokenizeService.step (TokenizeState.start 1)
      [(.store (.initializeVault 1 1 ⟨zeroRead, zeroRead, zeroRead⟩), .store r₁),
        (.store (.createKey ['k'] .aes256GCM zeroRead 0), .store r₂),
        (.start ['k'], .missed 0 ['k']), (.respond 0, .answered 0),
        (.fill 0, .returned 0 ['k'] v),
        (.store (.rotateKey ['k'] (constRead 1) 0), .store (.rotateKey (.ok 2))),
        (.evict ['k'], .done)] last ∧
      inUse last ['k'] = some w ∧ v.version = 1 ∧ w.version = 2 ∧ v.key.length = 32 ∧
      w.key.length = 32 ∧ w.key ≠ v.key :=
    ⟨_, _, _, _, _, ⟨_, rfl, _, rfl, _, rfl, _, rfl, _, rfl, _, rfl, _, rfl, rfl⟩, rfl, rfl, rfl,
      rfl, rfl, by decide⟩
  obtain ⟨r₁, r₂, v, w, last, hrun, hinUse, hv, hw, hvl, hwl, hne⟩ := hrun
  have h₀ : '0' ∈ digits (byteLen alphabetNumeric) := digits_numeric ▸ List.mem_cons_self
  have h₁ : '1' ∈ digits (byteLen alphabetNumeric) :=
    digits_numeric ▸ List.mem_cons_of_mem _ List.mem_cons_self
  have hσ := swapAt_mem (p := fun key => key ≠ v.key) h₀ h₁
  have h₂ : 2 ≤ byteLen alphabetNumeric := by rw [byteLen_numeric]; omega
  have h₆₂ : byteLen alphabetNumeric ≤ 62 := by rw [byteLen_numeric]; omega
  obtain ⟨hin, hover, hlen⟩ := zeros_numeric
  refine ⟨_, r₁, r₂, v, last, substitution_spec hσ, (substitution_spec hσ).inverts, hrun, ?_, ?_⟩
  · rw [← hv]
    refine fpeWith_substitution hσ (.inr (.inr hvl)) (getAlphabet_numeric ∅) h₂ h₆₂ (by simp)
      hin hlen ?_
    rw [substitutionCipher_encrypt hover hlen]
    simp [swapAt]
  · rw [← hw]
    refine fpeDecrypt_eq_ok.mpr ⟨w, hinUse, fpeWith_substitution hσ (.inr (.inr hwl))
      (getAlphabet_numeric ∅) h₂ h₆₂ (by simp) hin hlen ?_⟩
    rw [substitutionCipher_decrypt hover hlen]
    simp [swapAt, hne]

end GrpcVault.Tokenize
