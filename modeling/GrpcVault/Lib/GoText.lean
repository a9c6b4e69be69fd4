import Mathlib

/-!
# Text, maps and machine integers

A string of valid UTF-8 is the list of its runes. This module gives the decimal
text of an integer, the parser that reads it back with the range check of a
64-bit `int`, the truncation of an `int` to 32 bits, and the hexadecimal text of
bytes.
-/

namespace GoText

/-- A string of valid UTF-8, as the sequence of its runes. -/
abbrev Str := List Char

abbrev Bytes := List UInt8

/-- A map value; the order of its entries is not observable. -/
abbrev GoMap (K V : Type*) := Finmap (fun _ : K => V)

namespace GoMap

variable {K V W : Type*}

def mapValues (f : V → W) (m : GoMap K V) : GoMap K W where
  entries := m.entries.map (Sigma.map id fun _ => f)
  nodupKeys := by
    induction m using Finmap.induction_on with
    | H m => exact m.nodupKeys.map₂ (fun _ => f) m.entries

theorem lookup_mapValues [DecidableEq K] (f : V → W) (m : GoMap K V) (key : K) :
    (mapValues f m).lookup key = (m.lookup key).map f := by
  induction m using Finmap.induction_on with
  | H m => exact List.dlookup_map₂ key

def values (m : GoMap K V) : Multiset V := m.entries.map Sigma.snd

theorem mem_values [DecidableEq K] {m : GoMap K V} {value : V} :
    value ∈ values m ↔ ∃ key, m.lookup key = some value := by
  simp only [values, Multiset.mem_map, Finmap.lookup_eq_some_iff]
  constructor
  · rintro ⟨⟨key, _⟩, he, rfl⟩
    exact ⟨key, he⟩
  · rintro ⟨key, he⟩
    exact ⟨⟨key, value⟩, he, rfl⟩

theorem map_values [DecidableEq K] {m : GoMap K V} {g : V → K}
    (h : ∀ key value, m.lookup key = some value → g value = key) :
    (values m).map g = m.keys.val := by
  rw [values, Multiset.map_map]
  apply Multiset.map_congr rfl
  rintro ⟨key, value⟩ he
  exact h key value (Finmap.lookup_eq_some_iff.mpr he)

theorem nodup_values [DecidableEq K] {m : GoMap K V} {g : V → K}
    (h : ∀ key value, m.lookup key = some value → g value = key) : (values m).Nodup := by
  have hkeys := m.keys.nodup
  rw [← map_values h] at hkeys
  exact Multiset.Nodup.of_map g hkeys

theorem lookup_insert_cases [DecidableEq K] {m : GoMap K V} {key key' : K} {value value' : V}
    (h : (m.insert key value).lookup key' = some value') :
    (key' = key ∧ value' = value) ∨ (key' ≠ key ∧ m.lookup key' = some value') := by
  by_cases heq : key' = key
  · subst heq
    rw [Finmap.lookup_insert] at h
    exact .inl ⟨rfl, (Option.some.inj h).symm⟩
  · rw [Finmap.lookup_insert_of_ne _ heq] at h
    exact .inr ⟨heq, h⟩

theorem lookup_of_lookup_erase [DecidableEq K] {m : GoMap K V} {key key' : K} {value : V}
    (h : (m.erase key).lookup key' = some value) : m.lookup key' = some value := by
  by_cases heq : key' = key
  · subst heq
    rw [Finmap.lookup_erase] at h
    cases h
  · rw [Finmap.lookup_erase_ne heq] at h
    exact h

theorem names_insert [DecidableEq K] {m : GoMap K V} {g : V → K} {key : K} {value : V}
    (h : ∀ key value, m.lookup key = some value → g value = key) (hkey : g value = key) :
    ∀ key' value', (m.insert key value).lookup key' = some value' → g value' = key' := by
  intro key' value' hlookup
  obtain ⟨rfl, rfl⟩ | ⟨_, hold⟩ := lookup_insert_cases hlookup
  · exact hkey
  · exact h key' value' hold

def filterValues (p : V → Bool) (m : GoMap K V) : GoMap K V where
  entries := m.entries.filter fun e => p e.2
  nodupKeys := by
    rw [← Multiset.nodup_keys]
    exact Multiset.nodup_of_le (Multiset.map_le_map (Multiset.filter_le _ _))
      (Multiset.nodup_keys.mpr m.nodupKeys)

theorem lookup_filterValues [DecidableEq K] (p : V → Bool) (m : GoMap K V) (key : K) :
    (filterValues p m).lookup key = (m.lookup key).filter p := by
  ext value
  simp only [Finmap.lookup_eq_some_iff, Option.filter_eq_some_iff, filterValues,
    Multiset.mem_filter]

end GoMap

/-- The outcome of filling a fresh buffer of `n` bytes from the random source. -/
abbrev RandRead (n : ℕ) := Option { b : Bytes // b.length = n }

def byteLen (s : Str) : ℕ := (s.map Char.utf8Size).sum

theorem length_le_byteLen (s : Str) : s.length ≤ byteLen s := by
  unfold byteLen
  induction s with
  | nil => exact le_rfl
  | cons ch s ih =>
      have hpos := Char.utf8Size_pos ch
      simp only [List.length_cons, List.map_cons, List.sum_cons]
      omega

def hexDigit (n : ℕ) : Char :=
  if n < 10 then Char.ofNat (48 + n) else Char.ofNat (87 + n)

/-- `hex.EncodeToString`. -/
def hexEncodeToString : Bytes → Str
  | [] => []
  | b :: bs => hexDigit (b.toNat / 16) :: hexDigit (b.toNat % 16) :: hexEncodeToString bs

theorem hexDigit_inj {m n : ℕ} (hm : m < 16) (hn : n < 16) (h : hexDigit m = hexDigit n) :
    m = n := by
  have hinj : ∀ m n : Fin 16, hexDigit m = hexDigit n → m = n := by decide
  exact congrArg Fin.val (hinj ⟨m, hm⟩ ⟨n, hn⟩ h)

theorem hexEncodeToString_injective : Function.Injective hexEncodeToString := by
  intro a b h
  induction a generalizing b with
  | nil =>
      cases b with
      | nil => rfl
      | cons y b => simp [hexEncodeToString] at h
  | cons x a ih =>
      cases b with
      | nil => simp [hexEncodeToString] at h
      | cons y b =>
          obtain ⟨hhigh, hlow, hrest⟩ : hexDigit (x.toNat / 16) = hexDigit (y.toNat / 16) ∧
              hexDigit (x.toNat % 16) = hexDigit (y.toNat % 16) ∧
              hexEncodeToString a = hexEncodeToString b := by
            simpa [hexEncodeToString] using h
          have hx := x.toNat_lt
          have hy := y.toNat_lt
          have h₁ := hexDigit_inj (by omega) (by omega) hhigh
          have h₂ := hexDigit_inj (by omega) (by omega) hlow
          have hxy : x = y := UInt8.toNat_inj.mp (by omega)
          rw [hxy, ih hrest]

/-- `fmt.Sprintf("%d", n)`. -/
def itoa : ℤ → Str
  | .ofNat n => Nat.toDigits 10 n
  | .negSucc n => '-' :: Nat.toDigits 10 (n + 1)

def digitsValue (s : Str) : Option ℕ :=
  if s ≠ [] ∧ s.all Char.isDigit then some (Nat.ofDigitChars 10 s 0) else none

/-- `strconv.Atoi` with a 64-bit `int`: an optional sign, at least one decimal
digit, nothing else, and an error when the value is out of range. -/
def atoi : Str → Option ℤ
  | '-' :: ds => (digitsValue ds).bind fun n => if n ≤ 2 ^ 63 then some (-(n : ℤ)) else none
  | '+' :: ds => (digitsValue ds).bind fun n => if n < 2 ^ 63 then some (n : ℤ) else none
  | ds => (digitsValue ds).bind fun n => if n < 2 ^ 63 then some (n : ℤ) else none

/-- The conversion `int32(n)`. -/
def int32 (n : ℤ) : ℤ := n.bmod (2 ^ 32)

theorem int32_eq_self {n : ℤ} (hlo : -2 ^ 31 ≤ n) (hhi : n < 2 ^ 31) : int32 n = n := by
  unfold int32
  apply Int.bmod_eq_of_le_mul_two <;> omega

theorem int32_lt (n : ℤ) : int32 n < 2 ^ 31 := by
  have h : n.bmod (2 ^ 32) < ((2 ^ 32 : ℕ) + 1) / 2 := Int.bmod_lt (by norm_num)
  unfold int32
  omega

theorem isDigit_of_mem_digits {n : ℕ} {c : Char} (hc : c ∈ Nat.toDigits 10 n) : c.isDigit = true :=
  Nat.isDigit_of_mem_toDigits (by decide) (by decide) hc

theorem digitsValue_toDigits (n : ℕ) : digitsValue (Nat.toDigits 10 n) = some n := by
  have hall : (Nat.toDigits 10 n).all Char.isDigit = true :=
    List.all_eq_true.mpr fun _ hc => isDigit_of_mem_digits hc
  rw [digitsValue, if_pos ⟨Nat.toDigits_ne_nil, hall⟩, Nat.ofDigitChars_ten_toDigits]

/-- A decimal text of a natural number starts with a digit, never with a sign. -/
theorem toDigits_eq_cons (n : ℕ) :
    ∃ c ds, Nat.toDigits 10 n = c :: ds ∧ c ≠ '-' ∧ c ≠ '+' := by
  cases h : Nat.toDigits 10 n with
  | nil => exact absurd h Nat.toDigits_ne_nil
  | cons c ds =>
      have hd : c.isDigit = true := isDigit_of_mem_digits (n := n) (by rw [h]; simp)
      refine ⟨c, ds, rfl, ?_, ?_⟩
      · rintro rfl
        exact absurd hd (by decide)
      · rintro rfl
        exact absurd hd (by decide)

theorem atoi_toDigits {n : ℕ} (hn : n < 2 ^ 63) : atoi (Nat.toDigits 10 n) = some (n : ℤ) := by
  obtain ⟨c, ds, h, hm, hp⟩ := toDigits_eq_cons n
  have ha : atoi (c :: ds) =
      (digitsValue (c :: ds)).bind fun n => if n < 2 ^ 63 then some (n : ℤ) else none := by
    unfold atoi
    split
    · rename_i heq
      exact absurd (List.cons.inj heq).1 hm
    · rename_i heq
      exact absurd (List.cons.inj heq).1 hp
    · rfl
  rw [h, ha, ← h, digitsValue_toDigits, Option.bind_some, if_pos hn]

theorem atoi_itoa {n : ℤ} (hlo : -2 ^ 63 ≤ n) (hhi : n < 2 ^ 63) : atoi (itoa n) = some n := by
  cases n with
  | ofNat n => exact atoi_toDigits (by simp at hhi; omega)
  | negSucc n =>
      have hn : n + 1 ≤ 2 ^ 63 := by omega
      simp only [itoa, atoi, digitsValue_toDigits, Option.bind_some, if_pos hn]
      rfl

theorem toDigits_injective : Function.Injective (Nat.toDigits 10) := by
  intro m n h
  have := congrArg (fun ds => Nat.ofDigitChars 10 ds 0) h
  simpa using this

theorem itoa_injective : Function.Injective itoa := by
  intro m n h
  cases m with
  | ofNat m =>
      cases n with
      | ofNat n => exact congrArg Int.ofNat (toDigits_injective h)
      | negSucc n =>
          obtain ⟨c, ds, hc, hm, _⟩ := toDigits_eq_cons m
          simp only [itoa, hc] at h
          exact absurd (List.cons.inj h).1 hm
  | negSucc m =>
      cases n with
      | ofNat n =>
          obtain ⟨c, ds, hc, hm, _⟩ := toDigits_eq_cons n
          simp only [itoa, hc] at h
          exact absurd (List.cons.inj h).1.symm hm
      | negSucc n =>
          have hd := toDigits_injective (List.cons.inj h).2
          exact congrArg Int.negSucc (Nat.succ.inj hd)

theorem colon_notMem_itoa (n : ℤ) : ':' ∉ itoa n := by
  have hd : ∀ m : ℕ, ':' ∉ Nat.toDigits 10 m := fun m hm =>
    absurd (isDigit_of_mem_digits hm) (by decide)
  cases n with
  | ofNat n => exact hd n
  | negSucc n => simpa [itoa] using hd (n + 1)

theorem itoa_ne_nil (n : ℤ) : itoa n ≠ [] := by
  cases n with
  | ofNat n => exact Nat.toDigits_ne_nil
  | negSucc n => simp [itoa]

/-- The text after the last separator decides where the text before it ends. -/
theorem append_sep_inj {sep : Char} {a b x y : Str} (hx : sep ∉ x) (hy : sep ∉ y)
    (h : a ++ sep :: x = b ++ sep :: y) : a = b ∧ x = y := by
  induction a generalizing b with
  | nil =>
      cases b with
      | nil => exact ⟨rfl, (List.cons.inj h).2⟩
      | cons c b =>
          have hxy : x = b ++ sep :: y := (List.cons.inj h).2
          exact absurd (hxy ▸ by simp) hx
  | cons c a ih =>
      cases b with
      | nil =>
          have hxy : a ++ sep :: x = y := (List.cons.inj h).2
          exact absurd (hxy ▸ by simp) hy
      | cons d b =>
          obtain ⟨rfl, ht⟩ := List.cons.inj h
          obtain ⟨rfl, rfl⟩ := ih ht
          exact ⟨rfl, rfl⟩

end GoText
