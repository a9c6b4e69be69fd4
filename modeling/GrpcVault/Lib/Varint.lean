import GrpcVault.Lib.GoText

/-!
# Varints

A number is written as its digits to the base 128, low ones first, with the high bit set on all
digits but the last. The reader shifts seven bits of each byte into an accumulator of its own
width and gives up after the tenth byte: bits beyond the width are lost, so that the 32-bit reader
of a 64-bit number yields its low half.
-/

namespace Proto

open GoText

inductive DecodeError where
  | intOverflow
  | unexpectedEOF
  | invalidLength
  | unexpectedEndOfGroup
  | illegalWireType (wireType : ℕ)
  | endGroup (message : String)
  | illegalTag (message : String) (fieldNum : ℤ) (wire : ℕ)
  | wrongWireType (wireType : ℕ) (field : String)
  deriving DecidableEq

abbrev Decode (α : Type) := Except DecodeError α

/-- The digits of a number to the base 128. -/
def varint (v : ℕ) : Bytes :=
  if v < 128 then [UInt8.ofNat v] else UInt8.ofNat (v % 128 + 128) :: varint (v / 128)
termination_by v
decreasing_by omega

theorem varint_of_lt {v : ℕ} (h : v < 128) : varint v = [UInt8.ofNat v] := by
  rw [varint, if_pos h]

theorem varint_of_ge {v : ℕ} (h : 128 ≤ v) :
    varint v = UInt8.ofNat (v % 128 + 128) :: varint (v / 128) := by
  rw [varint, if_neg (by omega)]

theorem varint_ne_nil (v : ℕ) : varint v ≠ [] := by
  rw [varint]
  split <;> simp

/-- `SizeOfVarint`. -/
def sizeOfVarint (v : ℕ) : ℕ := (Nat.size (v ||| 1) + 6) / 7

theorem size_or_one {v : ℕ} (hv : v ≠ 0) : Nat.size (v ||| 1) = Nat.size v := by
  apply le_antisymm
  · rw [Nat.size_le]
    exact Nat.or_lt_two_pow (Nat.lt_size_self v)
      (Nat.one_lt_two_pow (Nat.size_pos.mpr (Nat.pos_of_ne_zero hv)).ne')
  · exact Nat.size_le_size Nat.left_le_or

theorem size_eq_of_ge {v : ℕ} (hv : 128 ≤ v) : Nat.size v = Nat.size (v / 128) + 7 := by
  have hdiv : v / 128 ≠ 0 := by omega
  have hshift : Nat.size ((v / 128) <<< 7) = Nat.size (v / 128) + 7 := Nat.size_shiftLeft hdiv 7
  rw [← hshift, Nat.shiftLeft_eq]
  apply le_antisymm
  · rw [Nat.size_le]
    have hlt : v / 128 < 2 ^ Nat.size (v / 128) := Nat.lt_size_self _
    have hsize : Nat.size (v / 128 * 2 ^ 7) = Nat.size (v / 128) + 7 := by
      rw [← Nat.shiftLeft_eq, hshift]
    rw [hsize, pow_add]
    omega
  · exact Nat.size_le_size (by omega)

theorem length_varint (v : ℕ) : (varint v).length = sizeOfVarint v := by
  induction v using Nat.strongRecOn with
  | ind v ih =>
      by_cases h : v < 128
      · rw [varint_of_lt h]
        have hsmall : ∀ u : Fin 128, 1 = sizeOfVarint u := by decide
        exact hsmall ⟨v, h⟩
      · have hge : 128 ≤ v := by omega
        rw [varint_of_ge hge, List.length_cons, ih (v / 128) (by omega), sizeOfVarint,
          sizeOfVarint, size_or_one (by omega), size_or_one (by omega), size_eq_of_ge hge]
        omega

section Read

variable {w : ℕ}

/-- The loop that reads a varint, with `n` shifts below 64 left. -/
def readVarintLoop (dAtA : Bytes) : ℕ → ℕ → BitVec w → ℕ → Decode (BitVec w × ℕ)
  | 0, _, _, _ => .error .intOverflow
  | n + 1, shift, acc, iNdEx =>
      match dAtA[iNdEx]? with
      | none => .error .unexpectedEOF
      | some b =>
          let acc := acc ||| BitVec.ofNat w (b.toNat % 128) <<< shift
          if b.toNat < 128 then .ok (acc, iNdEx + 1)
          else readVarintLoop dAtA n (shift + 7) acc (iNdEx + 1)

/-- The shifts are 0, 7, …, 63. -/
def readVarint (w : ℕ) (dAtA : Bytes) (iNdEx : ℕ) : Decode (BitVec w × ℕ) :=
  readVarintLoop dAtA 10 0 0#w iNdEx

theorem ofNat_add_shift (a b s : ℕ) (ha : a < 2 ^ s) :
    BitVec.ofNat w (a + b * 2 ^ s) = BitVec.ofNat w a ||| BitVec.ofNat w b <<< s := by
  have hor : b * 2 ^ s + a = b <<< s ||| a := by
    rw [Nat.shiftLeft_eq, Nat.mul_comm]
    exact Nat.two_pow_add_eq_or_of_lt ha b
  rw [Nat.add_comm, hor, BitVec.ofNat_or, BitVec.or_comm]
  congr 1
  apply BitVec.eq_of_toNat_eq
  simp [Nat.shiftLeft_eq]

variable {dAtA dAtA' : Bytes} {n shift i j : ℕ} {acc v : BitVec w}

theorem readVarintLoop_progress (h : readVarintLoop dAtA n shift acc i = .ok (v, j)) :
    i < j ∧ j ≤ dAtA.length := by
  induction n generalizing shift acc i with
  | zero => cases h
  | succ n ih =>
      rw [readVarintLoop] at h
      split at h
      · cases h
      · rename_i b hb
        have hi : i < dAtA.length := (List.getElem?_eq_some_iff.mp hb).1
        dsimp only at h
        split at h
        · cases h
          omega
        · have := ih h
          omega

theorem readVarint_progress (h : readVarint w dAtA i = .ok (v, j)) : i < j ∧ j ≤ dAtA.length :=
  readVarintLoop_progress h

/-- Only the bytes that are consumed matter, not where they are. -/
theorem readVarintLoop_congr {i' : ℕ} (h : readVarintLoop dAtA n shift acc i = .ok (v, j))
    (hsame : ∀ k, i + k < j → dAtA'[i' + k]? = dAtA[i + k]?) :
    readVarintLoop dAtA' n shift acc i' = .ok (v, i' + (j - i)) := by
  induction n generalizing shift acc i i' with
  | zero => cases h
  | succ n ih =>
      have hij := (readVarintLoop_progress h).1
      have hfirst : dAtA'[i']? = dAtA[i]? := hsame 0 hij
      rw [readVarintLoop] at h ⊢
      rw [hfirst]
      split at h
      · cases h
      · dsimp only at h ⊢
        split at h
        · cases h
          rw [if_pos ‹_›, Nat.add_sub_cancel_left]
        · have hlt := (readVarintLoop_progress h).1
          have hnext : ∀ k, i + 1 + k < j → dAtA'[i' + 1 + k]? = dAtA[i + 1 + k]? := by
            intro k hk
            rw [Nat.add_assoc, Nat.add_assoc]
            exact hsame (1 + k) (by omega)
          have hindex : i' + 1 + (j - (i + 1)) = i' + (j - i) := by omega
          rw [if_neg ‹_›, ih h hnext, hindex]

theorem readVarint_congr {i' : ℕ} (h : readVarint w dAtA i = .ok (v, j))
    (hsame : ∀ k, i + k < j → dAtA'[i' + k]? = dAtA[i + k]?) :
    readVarint w dAtA' i' = .ok (v, i' + (j - i)) :=
  readVarintLoop_congr h hsame

/-- With `a` read so far, the digits of `u` add `u * 2 ^ shift`. -/
theorem readVarintLoop_varint (pre : Bytes) {a u : ℕ} (hshift : shift + 7 * n = 63)
    (ha : a < 2 ^ shift) (hu : a + u * 2 ^ shift < 2 ^ 64) :
    readVarintLoop (pre ++ varint u) (n + 1) shift (BitVec.ofNat w a) pre.length =
      .ok (BitVec.ofNat w (a + u * 2 ^ shift), (pre ++ varint u).length) := by
  induction n generalizing pre a u shift with
  | zero =>
      -- the shift is 63, so that only the digits 0 and 1 are left
      obtain rfl : shift = 63 := by omega
      have hlt : u < 128 := by omega
      have hmod : (UInt8.ofNat u).toNat = u := by
        rw [UInt8.toNat_ofNat']
        omega
      rw [varint_of_lt hlt, readVarintLoop, List.getElem?_concat_length]
      simp only [hmod, if_pos hlt, Nat.mod_eq_of_lt hlt, ← ofNat_add_shift a u 63 ha,
        List.length_append, List.length_singleton]
  | succ n ih =>
      by_cases hlt : u < 128
      · have hmod : (UInt8.ofNat u).toNat = u := by
          rw [UInt8.toNat_ofNat']
          omega
        rw [varint_of_lt hlt, readVarintLoop, List.getElem?_concat_length]
        simp only [hmod, if_pos hlt, Nat.mod_eq_of_lt hlt, ← ofNat_add_shift a u shift ha,
          List.length_append, List.length_singleton]
      · have hmod : (UInt8.ofNat (u % 128 + 128)).toNat = u % 128 + 128 := by
          rw [UInt8.toNat_ofNat']
          omega
        have hdigit : (u % 128 + 128) % 128 = u % 128 := by omega
        have hpow : 2 ^ (shift + 7) = 2 ^ shift * 128 := pow_add 2 shift 7
        have hsplit : a + u * 2 ^ shift = a + u % 128 * 2 ^ shift + u / 128 * 2 ^ (shift + 7) := by
          rw [hpow]
          have hu' := Nat.div_add_mod u 128
          calc a + u * 2 ^ shift = a + (128 * (u / 128) + u % 128) * 2 ^ shift := by rw [hu']
            _ = a + u % 128 * 2 ^ shift + u / 128 * (2 ^ shift * 128) := by ring
        have hlow : a + u % 128 * 2 ^ shift < 2 ^ (shift + 7) := by
          rw [hpow]
          nlinarith [Nat.mod_lt u (show 0 < 128 by norm_num)]
        rw [varint_of_ge (by omega), readVarintLoop,
          List.getElem?_append_right le_rfl, Nat.sub_self, List.getElem?_cons_zero]
        simp only [hmod, hdigit, if_neg (show ¬ u % 128 + 128 < 128 by omega),
          ← ofNat_add_shift a (u % 128) shift ha]
        have hrest := ih (pre ++ [UInt8.ofNat (u % 128 + 128)]) (by omega)
          hlow (hsplit ▸ hu)
        rw [hsplit]
        simpa [List.append_assoc] using hrest

/-- A reader of any width reads back the low bits of what was written. -/
theorem readVarint_varint {u : ℕ} (hu : u < 2 ^ 64) :
    readVarint w (varint u) 0 = .ok (BitVec.ofNat w u, (varint u).length) := by
  have h : readVarintLoop ([] ++ varint u) 10 0 (BitVec.ofNat w 0) 0 =
      .ok (BitVec.ofNat w (0 + u * 2 ^ 0), ([] ++ varint u).length) :=
    readVarintLoop_varint [] rfl (by norm_num) (by simpa using hu)
  simpa [readVarint] using h

end Read
end Proto
