import Mathlib

/-!
# The bytes of a text

A text is a list of characters and `encode` its bytes in UTF-8. A cut at a number of bytes is
the cut at as many characters if all characters are ASCII (`take_encode`, `drop_encode`), and a
text has as many bytes as characters only then (`length_encode_eq_iff`).
-/

namespace Utf8

def encode (s : List Char) : List UInt8 := s.flatMap String.utf8EncodeChar

def Valid (bs : List UInt8) : Prop := ∃ s, encode s = bs

def Ascii (s : List Char) : Prop := ∀ c ∈ s, c.val ≤ 127

variable {s t : List Char} {bs cs : List UInt8}

@[simp] theorem encode_nil : encode [] = [] := rfl

theorem encode_cons (c : Char) (s : List Char) :
    encode (c :: s) = String.utf8EncodeChar c ++ encode s := List.flatMap_cons

theorem encode_append (s t : List Char) : encode (s ++ t) = encode s ++ encode t :=
  List.flatMap_append

theorem valid_encode (s : List Char) : Valid (encode s) := ⟨s, rfl⟩

theorem Valid.append (hbs : Valid bs) (hcs : Valid cs) : Valid (bs ++ cs) := by
  obtain ⟨s, rfl⟩ := hbs
  obtain ⟨t, rfl⟩ := hcs
  exact ⟨s ++ t, encode_append s t⟩

theorem Valid.flatten_replicate (h : Valid bs) (k : ℕ) : Valid (List.replicate k bs).flatten := by
  induction k with
  | zero => exact valid_encode []
  | succ k ih =>
      rw [List.replicate_succ, List.flatten_cons]
      exact h.append ih

theorem Ascii.take (h : Ascii s) (k : ℕ) : Ascii (s.take k) :=
  fun c hc => h c (List.mem_of_mem_take hc)

theorem length_encodeChar_pos (c : Char) : 0 < (String.utf8EncodeChar c).length := by
  rw [String.length_utf8EncodeChar]
  exact c.utf8Size_pos

theorem length_le_length_encode (s : List Char) : s.length ≤ (encode s).length := by
  induction s with
  | nil => exact le_rfl
  | cons c s ih =>
      have hpos := length_encodeChar_pos c
      rw [encode_cons, List.length_append, List.length_cons]
      omega

theorem encode_eq_nil_iff : encode s = [] ↔ s = [] := by
  constructor
  · intro h
    have hle := length_le_length_encode s
    rw [h, List.length_nil] at hle
    exact List.length_eq_zero_iff.mp (Nat.le_zero.mp hle)
  · rintro rfl
    rfl

/-- Only ASCII text has as many bytes as characters. -/
theorem length_encode_eq_iff : (encode s).length = s.length ↔ Ascii s := by
  unfold Ascii
  induction s with
  | nil => simp
  | cons c s ih =>
      have hpos := length_encodeChar_pos c
      have hle := length_le_length_encode s
      have hsize := @Char.utf8Size_eq_one_iff c
      rw [← String.length_utf8EncodeChar] at hsize
      rw [List.forall_mem_cons, ← ih, ← hsize, encode_cons, List.length_append, List.length_cons]
      omega

theorem take_encode (h : Ascii s) (k : ℕ) : (encode s).take k = encode (s.take k) := by
  have hlength : (encode (s.take k)).length = (s.take k).length :=
    length_encode_eq_iff.mpr (h.take k)
  by_cases hk : k ≤ s.length
  · rw [List.length_take, min_eq_left hk] at hlength
    nth_rewrite 1 [← List.take_append_drop k s]
    rw [encode_append]
    exact List.take_left' hlength
  · rw [List.take_of_length_le (not_le.mp hk).le, List.take_of_length_le]
    rw [length_encode_eq_iff.mpr h]
    exact (not_le.mp hk).le

theorem drop_encode (h : Ascii s) (k : ℕ) : (encode s).drop k = encode (s.drop k) := by
  have hparts : encode (s.take k) ++ (encode s).drop k =
      encode (s.take k) ++ encode (s.drop k) := by
    rw [← take_encode h, List.take_append_drop, take_encode h, ← encode_append,
      List.take_append_drop]
  exact List.append_cancel_left hparts

theorem high_continuation (n : ℕ) : 128 ≤ UInt8.ofNat (n % 64 + 128) := by
  rw [UInt8.le_iff_toNat_le, UInt8.toNat_ofNat']
  have hlt : n % 64 + 128 < 2 ^ 8 := by omega
  rw [Nat.mod_eq_of_lt hlt]
  exact Nat.le_add_left _ _

/-- In the bytes of a text, a byte above the ASCII range at its start is followed by another. -/
theorem Valid.high_of_lead {b c : UInt8} (h : Valid (b :: c :: bs)) (hb : 128 ≤ b) : 128 ≤ c := by
  obtain ⟨s, hs⟩ := h
  cases s with
  | nil => cases hs
  | cons ch s =>
      rw [encode_cons, String.utf8EncodeChar] at hs
      split_ifs at hs with h₁ h₂ h₃
      · obtain ⟨rfl, _⟩ := List.cons.inj hs
        rw [UInt8.le_iff_toNat_le, UInt8.toNat_ofNat', Nat.mod_eq_of_lt (by omega)] at hb
        exact absurd (hb.trans h₁) (by decide)
      -- A longer character has its continuation byte in the second place.
      · obtain ⟨rfl, _⟩ := List.cons.inj (List.cons.inj hs).2
        exact high_continuation _
      · obtain ⟨rfl, _⟩ := List.cons.inj (List.cons.inj hs).2
        exact high_continuation _
      · obtain ⟨rfl, _⟩ := List.cons.inj (List.cons.inj hs).2
        exact high_continuation _

end Utf8
