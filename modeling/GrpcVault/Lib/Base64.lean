import GrpcVault.Lib.GoText

/-!
# Standard base64

The encoding of byte strings with the standard alphabet and padding, and the
decoder that goes with it. The decoder skips line breaks wherever they stand,
requires complete padded quanta and accepts nothing after the padding; the bits
that padding cuts off are not checked.
-/

namespace Base64

open GoText

/-- The character of a six-bit digit; `'='` outside the range. -/
def encodeDigit (n : ℕ) : Char :=
  if n < 26 then Char.ofNat (65 + n)
  else if n < 52 then Char.ofNat (97 + (n - 26))
  else if n < 62 then Char.ofNat (48 + (n - 52))
  else if n = 62 then '+'
  else if n = 63 then '/'
  else '='

def decodeDigit (c : Char) : Option ℕ :=
  if 65 ≤ c.toNat ∧ c.toNat ≤ 90 then some (c.toNat - 65)
  else if 97 ≤ c.toNat ∧ c.toNat ≤ 122 then some (c.toNat - 97 + 26)
  else if 48 ≤ c.toNat ∧ c.toNat ≤ 57 then some (c.toNat - 48 + 52)
  else if c = '+' then some 62
  else if c = '/' then some 63
  else none

/-- `StdEncoding.EncodeToString`. -/
def encodeToString : Bytes → Str
  | [] => []
  | [a] => [encodeDigit (a.toNat / 4), encodeDigit (a.toNat % 4 * 16), '=', '=']
  | [a, b] => [encodeDigit (a.toNat / 4), encodeDigit (a.toNat % 4 * 16 + b.toNat / 16),
      encodeDigit (b.toNat % 16 * 4), '=']
  | a :: b :: c :: rest =>
      encodeDigit (a.toNat / 4) :: encodeDigit (a.toNat % 4 * 16 + b.toNat / 16) ::
        encodeDigit (b.toNat % 16 * 4 + c.toNat / 64) :: encodeDigit (c.toNat % 64) ::
          encodeToString rest

/-- `URLEncoding.EncodeToString`. -/
def urlEncodeToString (bs : Bytes) : Str :=
  (encodeToString bs).map fun c => if c = '+' then '-' else if c = '/' then '_' else c

def decodeQuanta : Str → Option Bytes
  | [] => some []
  | [a, b, '=', '='] => do
      let x ← decodeDigit a
      let y ← decodeDigit b
      return [UInt8.ofNat (x * 4 + y / 16)]
  | [a, b, c, '='] => do
      let x ← decodeDigit a
      let y ← decodeDigit b
      let z ← decodeDigit c
      return [UInt8.ofNat (x * 4 + y / 16), UInt8.ofNat (y % 16 * 16 + z / 4)]
  | a :: b :: c :: d :: rest => do
      let x ← decodeDigit a
      let y ← decodeDigit b
      let z ← decodeDigit c
      let w ← decodeDigit d
      let bytes ← decodeQuanta rest
      return UInt8.ofNat (x * 4 + y / 16) :: UInt8.ofNat (y % 16 * 16 + z / 4) ::
        UInt8.ofNat (z % 4 * 64 + w) :: bytes
  | _ => none

/-- `StdEncoding.DecodeString`. -/
def decodeString (s : Str) : Option Bytes :=
  decodeQuanta (s.filter fun c => c ≠ '\n' ∧ c ≠ '\r')

theorem decodeDigit_encodeDigit {n : ℕ} (hn : n < 64) : decodeDigit (encodeDigit n) = some n := by
  have h : ∀ n : Fin 64, decodeDigit (encodeDigit n) = some n.val := by decide
  exact h ⟨n, hn⟩

theorem encodeDigit_plain {n : ℕ} (hn : n < 64) :
    encodeDigit n ≠ '=' ∧ encodeDigit n ≠ '\n' ∧ encodeDigit n ≠ '\r' ∧ encodeDigit n ≠ ':' := by
  have h : ∀ n : Fin 64, encodeDigit n ≠ '=' ∧ encodeDigit n ≠ '\n' ∧ encodeDigit n ≠ '\r' ∧
      encodeDigit n ≠ ':' := by decide
  exact h ⟨n, hn⟩

theorem ofNat_eq {a : UInt8} {n : ℕ} (h : n = a.toNat) : UInt8.ofNat n = a := by
  subst h
  simp

theorem mem_encodeToString {bs : Bytes} {c : Char} (hc : c ∈ encodeToString bs) :
    (∃ n < 64, c = encodeDigit n) ∨ c = '=' := by
  induction bs using encodeToString.induct with
  | case1 => simp [encodeToString] at hc
  | case2 a =>
      have ha := a.toNat_lt
      simp only [encodeToString, List.mem_cons, List.not_mem_nil, or_false] at hc
      rcases hc with rfl | rfl | rfl | rfl
      · exact Or.inl ⟨_, by omega, rfl⟩
      · exact Or.inl ⟨_, by omega, rfl⟩
      · exact Or.inr rfl
      · exact Or.inr rfl
  | case3 a b =>
      have ha := a.toNat_lt
      have hb := b.toNat_lt
      simp only [encodeToString, List.mem_cons, List.not_mem_nil, or_false] at hc
      rcases hc with rfl | rfl | rfl | rfl
      · exact Or.inl ⟨_, by omega, rfl⟩
      · exact Or.inl ⟨_, by omega, rfl⟩
      · exact Or.inl ⟨_, by omega, rfl⟩
      · exact Or.inr rfl
  | case4 a b d rest ih =>
      have ha := a.toNat_lt
      have hb := b.toNat_lt
      have hd := d.toNat_lt
      simp only [encodeToString, List.mem_cons] at hc
      rcases hc with rfl | rfl | rfl | rfl | hc
      · exact Or.inl ⟨_, by omega, rfl⟩
      · exact Or.inl ⟨_, by omega, rfl⟩
      · exact Or.inl ⟨_, by omega, rfl⟩
      · exact Or.inl ⟨_, by omega, rfl⟩
      · exact ih hc

theorem colon_notMem_encodeToString (bs : Bytes) : ':' ∉ encodeToString bs := by
  intro hc
  rcases mem_encodeToString hc with ⟨n, hn, he⟩ | he
  · exact (encodeDigit_plain hn).2.2.2 he.symm
  · exact absurd he (by decide)

/-- The decoder drops nothing of an encoding, which holds no line break. -/
theorem filter_encodeToString (bs : Bytes) :
    (encodeToString bs).filter (fun c => c ≠ '\n' ∧ c ≠ '\r') = encodeToString bs := by
  apply List.filter_eq_self.mpr
  intro c hc
  rcases mem_encodeToString hc with ⟨n, hn, rfl⟩ | rfl
  · simp [encodeDigit_plain hn]
  · decide

theorem decodeQuanta_cons {a b c d : Char} {x y z w : ℕ} (rest : Str)
    (ha : decodeDigit a = some x) (hb : decodeDigit b = some y) (hc : decodeDigit c = some z)
    (hd : decodeDigit d = some w) :
    decodeQuanta (a :: b :: c :: d :: rest) = (decodeQuanta rest).map fun bytes =>
      UInt8.ofNat (x * 4 + y / 16) :: UInt8.ofNat (y % 16 * 16 + z / 4) ::
        UInt8.ofNat (z % 4 * 64 + w) :: bytes := by
  -- a decodable last character is not padding, so neither padded shape applies
  have hpad : d ≠ '=' := by
    rintro rfl
    have hn : decodeDigit '=' = none := by decide
    rw [hn] at hd
    cases hd
  rw [decodeQuanta]
  · simp only [ha, hb, hc, hd, Option.bind_eq_bind, Option.bind_some]
    cases decodeQuanta rest <;> rfl
  · exact fun _ h => absurd h hpad
  · exact fun h => absurd h hpad

theorem decodeQuanta_encodeToString (bs : Bytes) :
    decodeQuanta (encodeToString bs) = some bs := by
  induction bs using encodeToString.induct with
  | case1 => rfl
  | case2 a =>
      have ha := a.toNat_lt
      have hx := decodeDigit_encodeDigit (n := a.toNat / 4) (by omega)
      have hy := decodeDigit_encodeDigit (n := a.toNat % 4 * 16) (by omega)
      simp only [encodeToString, decodeQuanta, hx, hy, Option.bind_eq_bind, Option.bind_some]
      rw [ofNat_eq (a := a) (by omega)]
      rfl
  | case3 a b =>
      have ha := a.toNat_lt
      have hb := b.toNat_lt
      have hx := decodeDigit_encodeDigit (n := a.toNat / 4) (by omega)
      have hy := decodeDigit_encodeDigit (n := a.toNat % 4 * 16 + b.toNat / 16) (by omega)
      have hz := decodeDigit_encodeDigit (n := b.toNat % 16 * 4) (by omega)
      have hp := (encodeDigit_plain (n := b.toNat % 16 * 4) (by omega)).1
      rw [encodeToString, decodeQuanta]
      · simp only [hx, hy, hz, Option.bind_eq_bind, Option.bind_some]
        rw [ofNat_eq (a := a) (by omega), ofNat_eq (a := b) (by omega)]
        rfl
      · exact fun h => hp h
  | case4 a b c rest ih =>
      have ha := a.toNat_lt
      have hb := b.toNat_lt
      have hc := c.toNat_lt
      rw [encodeToString, decodeQuanta_cons _ (decodeDigit_encodeDigit (by omega))
        (decodeDigit_encodeDigit (by omega)) (decodeDigit_encodeDigit (by omega))
        (decodeDigit_encodeDigit (by omega)), ih, Option.map_some,
        ofNat_eq (a := a) (by omega), ofNat_eq (a := b) (by omega), ofNat_eq (a := c) (by omega)]

theorem decodeString_encodeToString (bs : Bytes) :
    decodeString (encodeToString bs) = some bs := by
  rw [decodeString, filter_encodeToString, decodeQuanta_encodeToString]

end Base64
