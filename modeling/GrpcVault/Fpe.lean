import GrpcVault.Lib.GoText

/-!
# Format-preserving encryption

Package `fpe`, a wrapper of the FF1 library. A cipher has an alphabet, whose number of
bytes is the radix, and checks texts against it; the library is handed the text itself
and reads it as digits of its own, the first of `0-9a-zA-Z`. The library is the
parameter `Ff1`, and `Ff1.Spec` what is assumed of it.
-/

namespace GrpcVault.Fpe

open GoText

def alphabetNumeric : Str := "0123456789".toList
def alphabetAlphaLower : Str := "abcdefghijklmnopqrstuvwxyz".toList
def alphabetAlphaUpper : Str := "ABCDEFGHIJKLMNOPQRSTUVWXYZ".toList
def alphabetAlphanumeric : Str := alphabetNumeric ++ alphabetAlphaLower ++ alphabetAlphaUpper

inductive FpeError where
  | invalidAlphabet
  | invalidPlaintext
  | plaintextTooShort
  | invalidKeySize
  | library
  deriving DecidableEq

def FpeError.message : FpeError → String
  | .invalidAlphabet => "invalid alphabet: must have at least 2 characters"
  | .invalidPlaintext => "plaintext contains characters not in alphabet"
  | .plaintextTooShort => "plaintext too short: minimum 2 characters"
  | .invalidKeySize => "invalid key size: must be 16, 24, or 32 bytes"
  | .library => ""

structure Transformation where
  name : Str
  alphabet : Str

def builtInTransformations : List Transformation :=
  [{ name := "credit-card".toList, alphabet := alphabetNumeric },
   { name := "ssn".toList, alphabet := alphabetNumeric },
   { name := "phone".toList, alphabet := alphabetNumeric },
   { name := "numeric".toList, alphabet := alphabetNumeric },
   { name := "alpha-lower".toList, alphabet := alphabetAlphaLower },
   { name := "alpha-upper".toList, alphabet := alphabetAlphaUpper },
   { name := "alphanumeric".toList, alphabet := alphabetAlphanumeric }]

def getTransformation (name : Str) : Option Transformation :=
  builtInTransformations.find? fun t => t.name = name

structure Ff1Cipher where
  encrypt : Str → Option Str
  decrypt : Str → Option Str

abbrev Ff1 := ℕ → ℕ → Bytes → Bytes → Option Ff1Cipher

/-- The digits of package `math/big` for a radix. -/
def digits (radix : ℕ) : Str :=
  ("0123456789".toList ++ "abcdefghijklmnopqrstuvwxyz".toList ++
    "ABCDEFGHIJKLMNOPQRSTUVWXYZ".toList).take radix

/-- The library requires that there be at least 100 texts of the shortest length. -/
def minLen (radix : ℕ) : ℕ := Nat.clog radix 100

def ValidKeySize (key : Bytes) : Prop := key.length = 16 ∨ key.length = 24 ∨ key.length = 32

instance (key : Bytes) : Decidable (ValidKeySize key) :=
  inferInstanceAs (Decidable (_ ∨ _ ∨ _))

def OverDigits (radix : ℕ) (s : Str) : Prop := ∀ ch ∈ s, ch ∈ digits radix

instance (radix : ℕ) (s : Str) : Decidable (OverDigits radix s) :=
  inferInstanceAs (Decidable (∀ ch ∈ s, ch ∈ digits radix))

/-- A length-preserving bijection on the texts over the digits of the radix that are long
enough, and an error on any other text. -/
structure Ff1.Spec (ff1 : Ff1) : Prop where
  isSome_iff : ∀ {radix maxTLen key tweak}, (ff1 radix maxTLen key tweak).isSome ↔
    (2 ≤ radix ∧ radix ≤ 62) ∧ ValidKeySize key ∧ tweak.length ≤ maxTLen
  encrypt_digits : ∀ {radix maxTLen key tweak c x}, ff1 radix maxTLen key tweak = some c →
    OverDigits radix x → minLen radix ≤ byteLen x →
    ∃ y, c.encrypt x = some y ∧ OverDigits radix y ∧ byteLen y = byteLen x ∧ c.decrypt y = some x
  decrypt_digits : ∀ {radix maxTLen key tweak c y}, ff1 radix maxTLen key tweak = some c →
    OverDigits radix y → minLen radix ≤ byteLen y →
    ∃ x, c.decrypt y = some x ∧ OverDigits radix x ∧ byteLen x = byteLen y ∧ c.encrypt x = some y
  encrypt_other : ∀ {radix maxTLen key tweak c x}, ff1 radix maxTLen key tweak = some c →
    ¬ (OverDigits radix x ∧ minLen radix ≤ byteLen x) → c.encrypt x = none
  decrypt_other : ∀ {radix maxTLen key tweak c y}, ff1 radix maxTLen key tweak = some c →
    ¬ (OverDigits radix y ∧ minLen radix ≤ byteLen y) → c.decrypt y = none

/-- On texts over the digits of the radix, where it encrypts at all, decryption undoes it.
Nothing is said of other texts, which the library may read as well as refuse. -/
def Ff1.Inverts (ff1 : Ff1) : Prop :=
  ∀ {radix maxTLen key tweak c x y}, ff1 radix maxTLen key tweak = some c →
    OverDigits radix x → c.encrypt x = some y →
    OverDigits radix y ∧ byteLen y = byteLen x ∧ c.decrypt y = some x

structure Cipher where
  key : Bytes
  alphabet : Str
  radix : ℕ
  cipher : Ff1Cipher

/-- A cipher without a tweak is made for the calls that bring none. -/
def newCipher (ff1 : Ff1) (key : Bytes) (alphabet : Str) : Except FpeError Cipher :=
  if key.length ≠ 16 ∧ key.length ≠ 24 ∧ key.length ≠ 32 then .error .invalidKeySize
  else if byteLen alphabet < 2 then .error .invalidAlphabet
  else
    match ff1 (byteLen alphabet) 256 key [] with
    | none => .error .library
    | some cipher => .ok { key, alphabet, radix := byteLen alphabet, cipher }

namespace Cipher

variable (ff1 : Ff1) (c : Cipher)

def validateString (s : Str) : Bool := s.all fun ch => ch ∈ c.alphabet

/-- The library's cipher for a tweak; `none` is the nil slice. -/
def withTweak : Option Bytes → Option Ff1Cipher
  | some tweak => ff1 c.radix 256 c.key tweak
  | none => some c.cipher

/-- Encryption and decryption make the same checks and differ in the library's method. -/
def transform (method : Ff1Cipher → Str → Option Str) (text : Str) (tweak : Option Bytes) :
    Except FpeError Str :=
  if byteLen text < 2 then .error .plaintextTooShort
  else if !c.validateString text then .error .invalidPlaintext
  else
    match c.withTweak ff1 tweak with
    | none => .error .library
    | some cipher =>
        match method cipher text with
        | none => .error .library
        | some result => .ok result

def encryptWithTweak (plaintext : Str) (tweak : Option Bytes) : Except FpeError Str :=
  c.transform ff1 Ff1Cipher.encrypt plaintext tweak

def decryptWithTweak (ciphertext : Str) (tweak : Option Bytes) : Except FpeError Str :=
  c.transform ff1 Ff1Cipher.decrypt ciphertext tweak

def encrypt (plaintext : Str) : Except FpeError Str := c.encryptWithTweak ff1 plaintext none

def decrypt (ciphertext : Str) : Except FpeError Str := c.decryptWithTweak ff1 ciphertext none

end Cipher

end GrpcVault.Fpe
