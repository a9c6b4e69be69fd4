import GrpcVault.Lib.WireRead

/-!
# Writing from the end to the front

A buffer of the exact size is filled from its end. `Writes` states what a piece of such code does:
it puts given bytes right before the index, moves the index there, and touches nothing else. What
is written later stands before.
-/

namespace Proto

open GoText

/-- A buffer that is filled from its end: the bytes from `i` on are written. -/
structure Buffer where
  dAtA : Bytes
  i : ℕ

/-- `dAtA[i] = b`; `none` is the panic of an index out of range. -/
def store (dAtA : Bytes) (i : ℕ) (b : UInt8) : Option Bytes :=
  if i < dAtA.length then some (dAtA.set i b) else none

/-- The digits of `v` from `offset` on, and the offset after them. -/
def storeVarint : ℕ → Bytes → ℕ → ℕ → Option (Bytes × ℕ)
  | 0, dAtA, offset, v => (store dAtA offset (UInt8.ofNat v)).map fun dAtA => (dAtA, offset + 1)
  | n + 1, dAtA, offset, v =>
      if v < 128 then (store dAtA offset (UInt8.ofNat v)).map fun dAtA => (dAtA, offset + 1)
      else (store dAtA offset (UInt8.ofNat (v % 128 + 128))).bind fun dAtA =>
        storeVarint n dAtA (offset + 1) (v / 128)

namespace Buffer

def copyBack (v : Bytes) (buf : Buffer) : Option Buffer :=
  if v.length ≤ buf.i then
    let i := buf.i - v.length
    some ⟨buf.dAtA.take i ++ v.take (buf.dAtA.length - i) ++ buf.dAtA.drop (i + v.length), i⟩
  else none

def putByte (b : UInt8) (buf : Buffer) : Option Buffer :=
  if 0 < buf.i then (store buf.dAtA (buf.i - 1) b).map fun dAtA => ⟨dAtA, buf.i - 1⟩ else none

def encodeVarint (v : ℕ) (buf : Buffer) : Option Buffer :=
  if sizeOfVarint v ≤ buf.i then
    let base := buf.i - sizeOfVarint v
    (storeVarint v buf.dAtA base v).map fun (dAtA, _) => ⟨dAtA, base⟩
  else none

/-- A text, before it its length and the byte `t`. -/
def putDelimited (t : UInt8) (v : Bytes) (buf : Buffer) : Option Buffer :=
  ((buf.copyBack v).bind (encodeVarint v.length)).bind (putByte t)

def forEach {α : Type*} (write : α → Buffer → Option Buffer) : List α → Buffer → Option Buffer
  | [], buf => some buf
  | x :: xs, buf => (write x buf).bind (forEach write xs)

end Buffer

/-- `write` puts the bytes right before the index and moves the index there. -/
def Writes (write : Buffer → Option Buffer) (bytes : Bytes) : Prop :=
  ∀ pre gap post, gap.length = bytes.length →
    write ⟨pre ++ gap ++ post, (pre ++ gap).length⟩ = some ⟨pre ++ bytes ++ post, pre.length⟩

theorem writes_nil : Writes some [] := by
  intro pre gap post hgap
  rw [List.length_eq_zero_iff.mp hgap, List.append_nil]

theorem exists_append_of_length {gap a b : Bytes} (h : gap.length = (a ++ b).length) :
    ∃ g g', gap = g ++ g' ∧ g.length = a.length ∧ g'.length = b.length := by
  rw [List.length_append] at h
  refine ⟨gap.take a.length, gap.drop a.length, (List.take_append_drop _ _).symm,
    List.length_take_of_le (by omega), ?_⟩
  rw [List.length_drop]
  omega

theorem Writes.comp {write write' : Buffer → Option Buffer} {bytes bytes' : Bytes}
    (h : Writes write bytes) (h' : Writes write' bytes') :
    Writes (fun buf => (write buf).bind write') (bytes' ++ bytes) := by
  intro pre gap post hgap
  obtain ⟨gap', gap, rfl, hlen', hlen⟩ := exists_append_of_length hgap
  have hfirst := h (pre ++ gap') gap post hlen
  have hsecond := h' pre gap' (bytes ++ post) hlen'
  simp only [← List.append_assoc] at hfirst hsecond ⊢
  rw [hfirst, Option.bind_some]
  exact hsecond

theorem writes_forEach {α : Type*} {write : α → Buffer → Option Buffer} {bytes : α → Bytes}
    (h : ∀ x, Writes (write x) (bytes x)) (xs : List α) :
    Writes (Buffer.forEach write xs) (xs.reverse.flatMap bytes) := by
  induction xs with
  | nil => exact writes_nil
  | cons x xs ih =>
      rw [List.reverse_cons, List.flatMap_append, List.flatMap_singleton]
      exact (h x).comp ih

theorem writes_copyBack (v : Bytes) : Writes (Buffer.copyBack v) v := by
  intro pre gap post hgap
  have hi : (pre ++ gap).length - v.length = pre.length := by
    rw [List.length_append]
    omega
  have htake : (pre ++ gap ++ post).take pre.length = pre := by
    rw [List.append_assoc, List.take_left]
  have hdrop : (pre ++ gap ++ post).drop (pre.length + v.length) = post := by
    rw [← hgap, ← List.length_append, List.drop_left]
  have hfits : v.take ((pre ++ gap ++ post).length - pre.length) = v := by
    apply List.take_of_length_le
    simp only [List.length_append]
    omega
  unfold Buffer.copyBack
  simp only [hi, htake, hdrop, hfits]
  rw [if_pos]
  rw [List.length_append]
  omega

theorem store_middle (pre post : Bytes) (old b : UInt8) :
    store (pre ++ old :: post) pre.length b = some (pre ++ b :: post) := by
  rw [store, if_pos (by simp), List.set_append_right _ _ le_rfl, Nat.sub_self, List.set_cons_zero]

theorem writes_putByte (b : UInt8) : Writes (Buffer.putByte b) [b] := by
  intro pre gap post hgap
  obtain ⟨old, rfl⟩ := List.length_eq_one_iff.mp hgap
  have hi : (pre ++ [old]).length - 1 = pre.length := by simp
  unfold Buffer.putByte
  simp only [hi, List.append_assoc, List.singleton_append, store_middle]
  simp

theorem storeVarint_eq {n v : ℕ} (hn : v ≤ n) (pre gap post : Bytes)
    (hgap : gap.length = (varint v).length) :
    storeVarint n (pre ++ gap ++ post) pre.length v =
      some (pre ++ varint v ++ post, (pre ++ varint v).length) := by
  induction n generalizing v pre gap with
  | zero =>
      obtain rfl : v = 0 := Nat.le_zero.mp hn
      rw [varint_of_lt (by norm_num)] at hgap ⊢
      obtain ⟨old, rfl⟩ := List.length_eq_one_iff.mp hgap
      rw [storeVarint, List.append_assoc, List.singleton_append, store_middle]
      simp
  | succ n ih =>
      by_cases hv : v < 128
      · rw [varint_of_lt hv] at hgap ⊢
        obtain ⟨old, rfl⟩ := List.length_eq_one_iff.mp hgap
        rw [storeVarint, if_pos hv, List.append_assoc, List.singleton_append, store_middle]
        simp
      · rw [varint_of_ge (by omega)] at hgap ⊢
        cases gap with
        | nil => simp at hgap
        | cons old gap =>
            rw [storeVarint, if_neg hv, List.append_assoc, List.cons_append, store_middle,
              Option.bind_some]
            have hrest := ih (v := v / 128) (by omega) (pre ++ [UInt8.ofNat (v % 128 + 128)]) gap
              (by simpa using hgap)
            simpa [List.append_assoc] using hrest

theorem writes_encodeVarint (v : ℕ) : Writes (Buffer.encodeVarint v) (varint v) := by
  intro pre gap post hgap
  have hi : (pre ++ gap).length - sizeOfVarint v = pre.length := by
    rw [List.length_append, hgap, length_varint]
    omega
  unfold Buffer.encodeVarint
  simp only [hi, storeVarint_eq le_rfl pre gap post hgap, Option.map_some]
  rw [if_pos]
  rw [List.length_append, hgap, length_varint]
  omega

end Proto
