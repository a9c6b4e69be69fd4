import GrpcVault.Lib.Varint

/-!
# Reading tagged fields

A decoder walks over a buffer with an index. `readLen` reads the length of what follows and where
it ends, `skip` finds the end of a field it knows nothing about, nested groups included, and
`loopBelow` is the loop that goes on while the index is below a limit. Indices are 64-bit `int`s:
a sum that leaves the range is found as a negative number. What a reader has accepted it accepts
in any larger buffer, at the place where the bytes are then.
-/

namespace Proto

open GoText

theorem bind_eq_ok {α β : Type} {x : Decode α} {f : α → Decode β} {b : β} :
    (x >>= f) = .ok b ↔ ∃ a, x = .ok a ∧ f a = .ok b := by
  constructor
  · intro h
    cases x with
    | error e => cases h
    | ok a => exact ⟨a, rfl, h⟩
  · rintro ⟨a, rfl, h⟩
    exact h

def slice (dAtA : Bytes) (i j : ℕ) : Bytes := (dAtA.drop i).take (j - i)

theorem getElem?_frame {b : Bytes} {k : ℕ} (pre post : Bytes) (hk : k < b.length) :
    (pre ++ b ++ post)[pre.length + k]? = b[k]? := by
  rw [List.append_assoc, List.getElem?_append_right (by omega), Nat.add_sub_cancel_left,
    List.getElem?_append_left hk]

theorem drop_frame {b : Bytes} {i : ℕ} (pre post : Bytes) (hi : i ≤ b.length) :
    (pre ++ b ++ post).drop (pre.length + i) = b.drop i ++ post := by
  rw [List.append_assoc, List.drop_length_add_append, List.drop_append_of_le_length hi]

theorem slice_frame {b : Bytes} {i j : ℕ} (pre post : Bytes) (hij : i ≤ j) (hj : j ≤ b.length) :
    slice (pre ++ b ++ post) (pre.length + i) (pre.length + j) = slice b i j := by
  rw [slice, slice, drop_frame pre post (hij.trans hj), Nat.add_sub_add_left,
    List.take_append_of_le_length]
  rw [List.length_drop]
  omega

/-- The index after the length, and the index at which what it counts ends. -/
def readLen (dAtA : Bytes) (iNdEx : ℕ) : Decode (ℕ × ℕ) := do
  let (len, iNdEx) ← readVarint 64 dAtA iNdEx
  let postIndex := iNdEx + len.toNat
  if 2 ^ 63 ≤ len.toNat then .error .invalidLength
  else if 2 ^ 63 ≤ postIndex then .error .invalidLength
  else if dAtA.length < postIndex then .error .unexpectedEOF
  else .ok (iNdEx, postIndex)

theorem readLen_inv {dAtA : Bytes} {i j k : ℕ} (h : readLen dAtA i = .ok (j, k)) :
    ∃ len, readVarint 64 dAtA i = .ok (len, j) ∧ k = j + len.toNat ∧ k ≤ dAtA.length := by
  obtain ⟨⟨len, j'⟩, hread, h⟩ := bind_eq_ok.mp h
  dsimp only at h
  split at h
  · cases h
  · split at h
    · cases h
    · split at h
      · cases h
      · cases h
        exact ⟨len, hread, rfl, by omega⟩

theorem readLen_eq_ok {dAtA : Bytes} {i j : ℕ} {len : BitVec 64} (hsize : dAtA.length < 2 ^ 63)
    (hread : readVarint 64 dAtA i = .ok (len, j)) (hlen : j + len.toNat ≤ dAtA.length) :
    readLen dAtA i = .ok (j, j + len.toNat) := by
  refine bind_eq_ok.mpr ⟨(len, j), hread, ?_⟩
  dsimp only
  rw [if_neg (by omega), if_neg (by omega), if_neg (by omega)]

theorem readLen_progress {dAtA : Bytes} {i j k : ℕ} (h : readLen dAtA i = .ok (j, k)) :
    i < j ∧ j ≤ k ∧ k ≤ dAtA.length := by
  obtain ⟨len, hread, rfl, hk⟩ := readLen_inv h
  exact ⟨(readVarint_progress hread).1, by omega, hk⟩

theorem readVarint_frame {w : ℕ} {b : Bytes} {i j : ℕ} {v : BitVec w} (pre post : Bytes)
    (h : readVarint w b i = .ok (v, j)) :
    readVarint w (pre ++ b ++ post) (pre.length + i) = .ok (v, pre.length + j) := by
  obtain ⟨hij, hj⟩ := readVarint_progress h
  rw [readVarint_congr h fun k hk => ?_]
  · rw [Nat.add_assoc, Nat.add_sub_of_le hij.le]
  · rw [Nat.add_assoc]
    exact getElem?_frame pre post (by omega)

theorem readLen_frame {b : Bytes} {i j k : ℕ} (pre post : Bytes)
    (hsize : (pre ++ b ++ post).length < 2 ^ 63) (h : readLen b i = .ok (j, k)) :
    readLen (pre ++ b ++ post) (pre.length + i) = .ok (pre.length + j, pre.length + k) := by
  obtain ⟨len, hread, rfl, hk⟩ := readLen_inv h
  rw [← Nat.add_assoc]
  apply readLen_eq_ok hsize (readVarint_frame pre post hread)
  simp only [List.length_append]
  omega

theorem readLen_varint {v : Bytes} (hsize : (varint v.length ++ v).length < 2 ^ 63) :
    readLen (varint v.length ++ v) 0 =
      .ok ((varint v.length).length, (varint v.length ++ v).length) := by
  have hlen : v.length < 2 ^ 63 := by
    rw [List.length_append] at hsize
    omega
  have hread := readVarint_frame [] v (readVarint_varint (w := 64) (u := v.length) (by omega))
  have htoNat : (BitVec.ofNat 64 v.length).toNat = v.length := by
    rw [BitVec.toNat_ofNat]
    omega
  have h := readLen_eq_ok (j := (varint v.length).length) hsize (by simpa using hread)
    (by rw [htoNat, List.length_append])
  rw [h, htoNat, List.length_append]

section Loop

variable {σ : Type}

def forBelow (limit : ℕ) (body : σ → ℕ → Decode (σ × ℕ)) : ℕ → σ → ℕ → Decode (σ × ℕ)
  | 0, s, iNdEx => .ok (s, iNdEx)
  | n + 1, s, iNdEx =>
      if iNdEx < limit then do
        let (s, iNdEx) ← body s iNdEx
        forBelow limit body n s iNdEx
      else .ok (s, iNdEx)

/-- `for iNdEx < limit`, with a body that moves the index forward. -/
def loopBelow (limit : ℕ) (body : σ → ℕ → Decode (σ × ℕ)) (s : σ) (iNdEx : ℕ) : Decode (σ × ℕ) :=
  forBelow limit body (limit - iNdEx) s iNdEx

def Advances (body : σ → ℕ → Decode (σ × ℕ)) : Prop :=
  ∀ s i s' j, body s i = .ok (s', j) → i < j

variable {limit limit' : ℕ} {body body' : σ → ℕ → Decode (σ × ℕ)} {s s' : σ} {i j d n : ℕ}

/-- A round for each index is enough. -/
theorem forBelow_eq (hadv : Advances body) (hn : limit - i ≤ n) :
    forBelow limit body n s i = loopBelow limit body s i := by
  induction n using Nat.strongRecOn generalizing s i with
  | ind n ih =>
      unfold loopBelow
      cases n with
      | zero => rw [Nat.le_zero.mp hn]
      | succ n =>
          cases hm : limit - i with
          | zero =>
              rw [forBelow, forBelow, if_neg (by omega)]
          | succ m =>
              rw [forBelow, forBelow]
              congr 1
              cases hb : body s i with
              | error e => rfl
              | ok x =>
                  have hx := hadv s i x.1 x.2 hb
                  change forBelow limit body n x.1 x.2 = forBelow limit body m x.1 x.2
                  rw [ih n (by omega) (by omega)]
                  by_cases hmn : m = n
                  · rw [hmn, ih n (by omega) (by omega)]
                  · rw [ih m (by omega) (by omega)]

theorem loopBelow_of_lt (hadv : Advances body) (hi : i < limit) :
    loopBelow limit body s i = body s i >>= fun x => loopBelow limit body x.1 x.2 := by
  unfold loopBelow
  obtain ⟨m, hm⟩ : ∃ m, limit - i = m + 1 := ⟨limit - i - 1, by omega⟩
  rw [hm, forBelow, if_pos hi]
  cases hb : body s i with
  | error e => rfl
  | ok x =>
      have hx := hadv s i x.1 x.2 hb
      exact forBelow_eq hadv (by omega)

theorem loopBelow_of_ge (hi : limit ≤ i) : loopBelow limit body s i = .ok (s, i) := by
  rw [loopBelow, Nat.sub_eq_zero_of_le hi, forBelow]

theorem loopBelow_invariant {P : σ → ℕ → Prop} (hadv : Advances body)
    (hstep : ∀ s i s' j, i < limit → P s i → body s i = .ok (s', j) → P s' j)
    (h : loopBelow limit body s i = .ok (s', j)) (h0 : P s i) : P s' j ∧ limit ≤ j := by
  induction hm : limit - i using Nat.strongRecOn generalizing s i with
  | ind m ih =>
      by_cases hi : i < limit
      · rw [loopBelow_of_lt hadv hi, bind_eq_ok] at h
        obtain ⟨⟨s₁, i₁⟩, hb, hrest⟩ := h
        have hlt := hadv s i s₁ i₁ hb
        exact ih (limit - i₁) (by omega) hrest (hstep s i s₁ i₁ hi h0 hb) rfl
      · rw [loopBelow_of_ge (by omega)] at h
        cases h
        exact ⟨h0, by omega⟩

/-- A loop whose rounds another loop makes `d` further on leads that loop as far. -/
theorem loopBelow_continue (hadv : Advances body) (hadv' : Advances body')
    (hlimit : d + limit ≤ limit')
    (hstep : ∀ s i s' j, i < limit → body s i = .ok (s', j) → body' s (d + i) = .ok (s', d + j))
    (h : loopBelow limit body s i = .ok (s', j)) :
    loopBelow limit' body' s (d + i) = loopBelow limit' body' s' (d + j) := by
  induction hm : limit - i using Nat.strongRecOn generalizing s i with
  | ind m ih =>
      by_cases hi : i < limit
      · rw [loopBelow_of_lt hadv hi, bind_eq_ok] at h
        obtain ⟨⟨s₁, i₁⟩, hb, hrest⟩ := h
        have hlt := hadv s i s₁ i₁ hb
        rw [loopBelow_of_lt hadv' (by omega), hstep s i s₁ i₁ hi hb]
        exact ih (limit - i₁) (by omega) hrest rfl
      · rw [loopBelow_of_ge (by omega)] at h
        cases h
        rfl

theorem loopBelow_shift (hadv : Advances body) (hadv' : Advances body')
    (hstep : ∀ s i s' j, i < limit → body s i = .ok (s', j) → body' s (d + i) = .ok (s', d + j))
    (h : loopBelow limit body s i = .ok (s', j)) :
    loopBelow (d + limit) body' s (d + i) = .ok (s', d + j) := by
  have hj : limit ≤ j := (loopBelow_invariant (P := fun _ _ => True) hadv
    (fun _ _ _ _ _ _ _ => trivial) h trivial).2
  rw [loopBelow_continue hadv hadv' le_rfl hstep h, loopBelow_of_ge (by omega)]

end Loop

section Skip

/-- What follows a tag of the given type, by `Skip`: the depth of groups and the next index. -/
def skipPayload (dAtA : Bytes) (wireType depth iNdEx : ℕ) : Decode (ℕ × ℕ) :=
  match wireType with
  | 0 => do
      let (_, iNdEx) ← readVarint 64 dAtA iNdEx
      .ok (depth, iNdEx)
  | 1 => .ok (depth, iNdEx + 8)
  | 2 => do
      let (length, iNdEx) ← readVarint 64 dAtA iNdEx
      if 2 ^ 63 ≤ length.toNat then .error .invalidLength
      else .ok (depth, iNdEx + length.toNat)
  | 3 => .ok (depth + 1, iNdEx)
  | 4 => if depth = 0 then .error .unexpectedEndOfGroup else .ok (depth - 1, iNdEx)
  | 5 => .ok (depth, iNdEx + 4)
  | wireType => .error (.illegalWireType wireType)

def skipRound (dAtA : Bytes) (depth iNdEx : ℕ) : Decode (ℕ × ℕ) := do
  let (wire, iNdEx) ← readVarint 64 dAtA iNdEx
  skipPayload dAtA (wire.toNat % 8) depth iNdEx

/-- Both buffers have the same bytes from `i` to `j`. -/
def Agree (dAtA dAtA' : Bytes) (i j : ℕ) : Prop := ∀ k, i ≤ k → k < j → dAtA'[k]? = dAtA[k]?

theorem readVarint_agree {w : ℕ} {dAtA dAtA' : Bytes} {v : BitVec w} {i j : ℕ}
    (h : readVarint w dAtA i = .ok (v, j)) (hsame : Agree dAtA dAtA' i j) :
    readVarint w dAtA' i = .ok (v, j) := by
  have hij := (readVarint_progress h).1
  rw [readVarint_congr h fun k hk => hsame (i + k) (by omega) hk, Nat.add_sub_of_le hij.le]

/-- `Skip` looks only at bytes that it passes over. -/
theorem skipPayload_effect {dAtA : Bytes} {wireType depth depth' i j : ℕ}
    (h : skipPayload dAtA wireType depth i = .ok (depth', j)) :
    i ≤ j ∧ ∀ dAtA', Agree dAtA dAtA' i j →
      skipPayload dAtA' wireType depth i = .ok (depth', j) := by
  unfold skipPayload at h ⊢
  split at h
  · obtain ⟨⟨v, i₁⟩, hread, h⟩ := bind_eq_ok.mp h
    cases h
    refine ⟨(readVarint_progress hread).1.le, fun dAtA' hsame => ?_⟩
    exact bind_eq_ok.mpr ⟨_, readVarint_agree hread hsame, rfl⟩
  · cases h
    exact ⟨by omega, fun _ _ => rfl⟩
  · obtain ⟨⟨length, i₁⟩, hread, h⟩ := bind_eq_ok.mp h
    have hlt := (readVarint_progress hread).1
    dsimp only at h
    split at h
    · cases h
    · cases h
      refine ⟨by omega, fun dAtA' hsame => ?_⟩
      refine bind_eq_ok.mpr ⟨_, readVarint_agree hread fun k hk hkj => hsame k hk (by omega), ?_⟩
      exact if_neg ‹_›
  · cases h
    exact ⟨le_rfl, fun _ _ => rfl⟩
  · split at h
    · cases h
    · cases h
      exact ⟨le_rfl, fun _ _ => if_neg ‹_›⟩
  · cases h
    exact ⟨by omega, fun _ _ => rfl⟩
  · cases h

theorem skipRound_effect {dAtA : Bytes} {depth depth' i j : ℕ}
    (h : skipRound dAtA depth i = .ok (depth', j)) :
    i < j ∧ ∀ dAtA', Agree dAtA dAtA' i j → skipRound dAtA' depth i = .ok (depth', j) := by
  obtain ⟨⟨wire, i₁⟩, hread, h⟩ := bind_eq_ok.mp h
  obtain ⟨hle, hcongr⟩ := skipPayload_effect h
  have hlt := (readVarint_progress hread).1
  refine ⟨hlt.trans_le hle, fun dAtA' hsame => bind_eq_ok.mpr ⟨(wire, i₁), ?_, ?_⟩⟩
  · exact readVarint_agree hread fun k hk hki => hsame k hk (by omega)
  · exact hcongr dAtA' fun k hk hkj => hsame k (by omega) hkj

def skipLoop (dAtA : Bytes) : ℕ → ℕ → ℕ → Decode ℕ
  | 0, _, _ => .error .unexpectedEOF
  | n + 1, depth, iNdEx =>
      if iNdEx < dAtA.length then do
        let (depth, iNdEx) ← skipRound dAtA depth iNdEx
        if 2 ^ 63 ≤ iNdEx then .error .invalidLength
        else if depth = 0 then .ok iNdEx
        else skipLoop dAtA n depth iNdEx
      else .error .unexpectedEOF

/-- `Skip`: the number of bytes of the first field. It may exceed what the buffer holds. -/
def skip (dAtA : Bytes) : Decode ℕ := skipLoop dAtA dAtA.length 0 0

/-- The index after the unknown field at `iNdEx`, which has to end at `limit` or before. -/
def skipField (dAtA : Bytes) (limit iNdEx : ℕ) : Decode ℕ := do
  let skippy ← skip (dAtA.drop iNdEx)
  if 2 ^ 63 ≤ iNdEx + skippy then .error .invalidLength
  else if limit < iNdEx + skippy then .error .unexpectedEOF
  else .ok (iNdEx + skippy)

theorem skipLoop_progress {dAtA : Bytes} {n depth i j : ℕ}
    (h : skipLoop dAtA n depth i = .ok j) : i < j := by
  induction n generalizing depth i with
  | zero => cases h
  | succ n ih =>
      rw [skipLoop] at h
      split at h
      · obtain ⟨⟨depth', i₁⟩, hround, h⟩ := bind_eq_ok.mp h
        have hlt := (skipRound_effect hround).1
        dsimp only at h
        split at h
        · cases h
        · split at h
          · cases h
            exact hlt
          · exact hlt.trans (ih h)
      · cases h

theorem skip_tag {b : Bytes} {n : ℕ} (h : skip b = .ok n) :
    ∃ wire i, readVarint 64 b 0 = .ok (wire, i) ∧ i ≤ n := by
  rw [skip] at h
  cases hlen : b.length with
  | zero =>
      rw [hlen] at h
      cases h
  | succ l =>
      rw [hlen, skipLoop, if_pos (by omega)] at h
      obtain ⟨⟨depth, j⟩, hround, h⟩ := bind_eq_ok.mp h
      obtain ⟨⟨wire, i⟩, hread, hpayload⟩ := bind_eq_ok.mp hround
      have hij := (skipPayload_effect hpayload).1
      refine ⟨wire, i, hread, hij.trans ?_⟩
      dsimp only at h
      split at h
      · cases h
      · split at h
        · cases h
          exact le_rfl
        · exact (skipLoop_progress h).le

theorem skipLoop_agree {dAtA dAtA' : Bytes} {n n' depth i j : ℕ}
    (h : skipLoop dAtA n depth i = .ok j) (hn : j - i ≤ n') (hj : j ≤ dAtA'.length)
    (hsame : Agree dAtA dAtA' i j) : skipLoop dAtA' n' depth i = .ok j := by
  induction n generalizing n' depth i with
  | zero => cases h
  | succ n ih =>
      have hij := skipLoop_progress h
      obtain ⟨n', rfl⟩ : ∃ m, n' = m + 1 := ⟨n' - 1, by omega⟩
      rw [skipLoop] at h ⊢
      rw [if_pos (by omega)]
      split at h
      · obtain ⟨⟨depth', i₁⟩, hround, h⟩ := bind_eq_ok.mp h
        obtain ⟨hlt, hcongr⟩ := skipRound_effect hround
        have hi₁ : i₁ ≤ j := by
          dsimp only at h
          split at h
          · cases h
          · split at h
            · cases h
              exact le_rfl
            · exact (skipLoop_progress h).le
        refine bind_eq_ok.mpr ⟨(depth', i₁),
          hcongr dAtA' fun k hk hki => hsame k hk (by omega), ?_⟩
        dsimp only at h ⊢
        split at h
        · cases h
        · split at h
          · rw [if_neg ‹_›, if_pos ‹_›]
            exact h
          · rw [if_neg ‹_›, if_neg ‹_›]
            exact ih h (by omega) fun k hk hkj => hsame k (by omega) hkj
      · cases h

/-- A field that ends inside the buffer is skipped alike if other bytes follow it. -/
theorem skip_append {b : Bytes} {n : ℕ} (post : Bytes) (h : skip b = .ok n) (hn : n ≤ b.length) :
    skip (b ++ post) = .ok n := by
  apply skipLoop_agree h
  · rw [List.length_append]
    omega
  · rw [List.length_append]
    omega
  · intro k _ hk
    exact List.getElem?_append_left (by omega)

theorem skip_take {b : Bytes} {n : ℕ} (h : skip b = .ok n) (hn : n ≤ b.length) :
    skip (b.take n) = .ok n := by
  have hlen : (b.take n).length = n := List.length_take_of_le hn
  apply skipLoop_agree h
  · omega
  · omega
  · intro k _ hk
    exact List.getElem?_take_of_lt hk

theorem skipField_inv {dAtA : Bytes} {limit i j : ℕ} (h : skipField dAtA limit i = .ok j) :
    ∃ n, skip (dAtA.drop i) = .ok n ∧ j = i + n ∧ j ≤ limit := by
  obtain ⟨n, hskip, h⟩ := bind_eq_ok.mp h
  split at h
  · cases h
  · split at h
    · cases h
    · cases h
      exact ⟨n, hskip, rfl, by omega⟩

theorem skipField_eq_ok {dAtA : Bytes} {limit i n : ℕ} (hsize : limit < 2 ^ 63)
    (hskip : skip (dAtA.drop i) = .ok n) (hlimit : i + n ≤ limit) :
    skipField dAtA limit i = .ok (i + n) := by
  refine bind_eq_ok.mpr ⟨n, hskip, ?_⟩
  rw [if_neg (by omega), if_neg (by omega)]

theorem skipField_progress {dAtA : Bytes} {limit i j : ℕ} (h : skipField dAtA limit i = .ok j) :
    i < j ∧ j ≤ limit := by
  obtain ⟨n, hskip, rfl, hj⟩ := skipField_inv h
  have := skipLoop_progress hskip
  omega

theorem skipField_frame {b : Bytes} {limit limit' i j : ℕ} (pre post : Bytes)
    (hlimit : limit ≤ b.length) (hlimit' : pre.length + limit ≤ limit') (hsize : limit' < 2 ^ 63)
    (h : skipField b limit i = .ok j) :
    skipField (pre ++ b ++ post) limit' (pre.length + i) = .ok (pre.length + j) := by
  obtain ⟨n, hskip, rfl, hj⟩ := skipField_inv h
  rw [← Nat.add_assoc]
  refine skipField_eq_ok hsize ?_ (by omega)
  rw [drop_frame pre post (by omega)]
  apply skip_append post hskip
  rw [List.length_drop]
  omega

end Skip

end Proto
