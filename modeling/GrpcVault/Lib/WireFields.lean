import GrpcVault.Lib.WireMessage

/-!
# Kinds of fields

The code that is generated for a field depends on its type only: numbers and flags, texts, nested
messages, and repeated fields and maps of these.
-/

namespace Proto

open GoText

theorem flatMap_record (num wireType : ℕ) (payload : Bytes) :
    [((wireType, payload) : Record)].flatMap (recordBytes num) = tag num wireType :: payload := by
  simp [recordBytes]

def lenPrefixed (v : Bytes) : Bytes := varint v.length ++ v

theorem length_lenPrefixed (v : Bytes) :
    (lenPrefixed v).length = v.length + sizeOfVarint v.length := by
  rw [lenPrefixed, List.length_append, length_varint, Nat.add_comm]

theorem length_cons_lenPrefixed (t : UInt8) (v : Bytes) :
    (t :: lenPrefixed v).length = 1 + v.length + sizeOfVarint v.length := by
  rw [List.length_cons, length_lenPrefixed]
  omega

theorem writes_putDelimited (t : UInt8) (v : Bytes) :
    Writes (Buffer.putDelimited t v) (t :: lenPrefixed v) :=
  ((writes_copyBack v).comp (writes_encodeVarint v.length)).comp (writes_putByte t)

theorem readLen_lenPrefixed {v : Bytes} (hsize : (lenPrefixed v).length < 2 ^ 63) :
    readLen (lenPrefixed v) 0 = .ok ((varint v.length).length, (lenPrefixed v).length) :=
  readLen_varint hsize

theorem slice_lenPrefixed (v : Bytes) :
    slice (lenPrefixed v) (varint v.length).length (lenPrefixed v).length = v := by
  rw [slice, lenPrefixed, List.drop_left, List.length_append, Nat.add_sub_cancel_left,
    List.take_length]

section Number

variable {α : Type}

/-- A record of a number, read with `w` bits. -/
def readNumber (name : String) {w : ℕ} (ofBits : BitVec w → α) (wireType : ℕ) (dAtA : Bytes)
    (iNdEx : ℕ) : Decode (α × ℕ) :=
  if wireType ≠ 0 then .error (.wrongWireType wireType name)
  else do
    let (v, iNdEx) ← readVarint w dAtA iNdEx
    .ok (ofBits v, iNdEx)

theorem readNumber_eq_ok {name : String} {w : ℕ} {ofBits : BitVec w → α} {v : α}
    {wireType i j : ℕ} {b : Bytes} :
    readNumber name ofBits wireType b i = .ok (v, j) ↔
      wireType = 0 ∧ ∃ bits, readVarint w b i = .ok (bits, j) ∧ v = ofBits bits := by
  unfold readNumber
  split
  · rename_i h
    simp [h]
  · rename_i h
    rw [bind_eq_ok]
    constructor
    · rintro ⟨⟨bits, j'⟩, hread, h'⟩
      cases h'
      exact ⟨by omega, bits, hread, rfl⟩
    · rintro ⟨_, bits, hread, rfl⟩
      exact ⟨(bits, j), hread, rfl⟩

theorem readNumber_progress {name : String} {w : ℕ} {ofBits : BitVec w → α} {v : α}
    {wireType i j : ℕ} {b : Bytes} (h : readNumber name ofBits wireType b i = .ok (v, j)) :
    i ≤ j ∧ j ≤ b.length := by
  obtain ⟨_, bits, hread, _⟩ := readNumber_eq_ok.mp h
  have := readVarint_progress hread
  omega

theorem readNumber_frame {name : String} {w : ℕ} {ofBits : BitVec w → α} {v : α}
    {wireType i j : ℕ} {b : Bytes} (pre post : Bytes)
    (h : readNumber name ofBits wireType b i = .ok (v, j)) :
    readNumber name ofBits wireType (pre ++ b ++ post) (pre.length + i) =
      .ok (v, pre.length + j) := by
  obtain ⟨hwire, bits, hread, hv⟩ := readNumber_eq_ok.mp h
  exact readNumber_eq_ok.mpr ⟨hwire, bits, readVarint_frame pre post hread, hv⟩

/-- A number, left out where it is zero. `uint64` is the conversion for writing. -/
def numberKind [DecidableEq α] (num : ℕ) (name : String) (zero : α) (uint64 : α → ℕ) {w : ℕ}
    (ofBits : BitVec w → α) (hlt : ∀ v, uint64 v < 2 ^ 64)
    (hbits : ∀ v, ofBits (BitVec.ofNat w (uint64 v)) = v) : Kind α where
  num := num
  zero := zero
  merge cur v := if v ≠ zero then v else cur
  size v := if v ≠ zero then 1 + sizeOfVarint (uint64 v) else 0
  write _ v buf :=
    if v ≠ zero then (buf.encodeVarint (uint64 v)).bind (Buffer.putByte (tag num 0)) else some buf
  read _ := readNumber name ofBits
  records _ v := if v ≠ zero then [(0, varint (uint64 v))] else []
  Valid _ := True
  wireTypes _ v r hr := by
    split at hr
    · rw [List.mem_singleton.mp hr]
      exact .inl rfl
    · cases hr
  size_eq _ v := by
    split
    · rw [flatMap_record, List.length_cons, length_varint, Nat.add_comm]
    · rfl
  writes _ v := by
    split
    · rw [flatMap_record]
      exact (writes_encodeVarint _).comp (writes_putByte _)
    · exact writes_nil
  readsTo _ cur v _ _ := by
    split
    · exact ⟨v, readNumber_eq_ok.mpr ⟨rfl, _, readVarint_varint (hlt v), (hbits v).symm⟩, rfl⟩
    · rfl
  merge_zero v := by
    split
    · rfl
    · rename_i h
      exact (not_not.mp h).symm
  progress := readNumber_progress
  frame pre post _ := readNumber_frame pre post
  valid_zero := trivial
  valid_of_read _ _ := trivial

theorem setWidth_signExtend (x : BitVec 32) : (x.signExtend 64).setWidth 32 = x := by
  apply BitVec.eq_of_getLsbD_eq
  intro i hi
  rw [BitVec.getLsbD_setWidth, BitVec.getLsbD_signExtend]
  simp [hi, show i < 64 by omega]

/-- `uint64(v)`, which keeps the sign. -/
def uint64OfInt32 (v : Int32) : ℕ := (v.toBitVec.signExtend 64).toNat

theorem uint64OfInt32_lt (v : Int32) : uint64OfInt32 v < 2 ^ 64 := (v.toBitVec.signExtend 64).isLt

theorem ofBitVec_uint64OfInt32 (v : Int32) :
    Int32.ofBitVec (BitVec.ofNat 32 (uint64OfInt32 v)) = v := by
  rw [uint64OfInt32, BitVec.ofNat_toNat, setWidth_signExtend, Int32.ofBitVec_toBitVec]

def int32Kind (num : ℕ) (name : String) : Kind Int32 :=
  numberKind num name 0 uint64OfInt32 Int32.ofBitVec uint64OfInt32_lt ofBitVec_uint64OfInt32

def int64Kind (num : ℕ) (name : String) : Kind Int64 :=
  numberKind num name 0 (fun v => v.toBitVec.toNat) Int64.ofBitVec (fun v => v.toBitVec.isLt)
    (fun v => by rw [BitVec.ofNat_toNat, BitVec.setWidth_eq, Int64.ofBitVec_toBitVec])

/-- A flag: any number but zero is read as set. -/
def boolKind (num : ℕ) (name : String) : Kind Bool where
  num := num
  zero := false
  merge cur v := if v then v else cur
  size v := if v then 2 else 0
  write _ v buf := if v then (buf.putByte 1).bind (Buffer.putByte (tag num 0)) else some buf
  read _ := readNumber name fun v : BitVec 64 => decide (v ≠ 0)
  records _ v := if v then [(0, [1])] else []
  Valid _ := True
  wireTypes _ v r hr := by
    split at hr
    · rw [List.mem_singleton.mp hr]
      exact .inl rfl
    · cases hr
  size_eq _ v := by split <;> rfl
  writes _ v := by
    split
    · rw [flatMap_record]
      exact (writes_putByte 1).comp (writes_putByte _)
    · exact writes_nil
  readsTo _ cur v _ _ := by
    have hone : readVarint 64 [1] 0 = .ok (1#64, 1) := by decide
    cases v with
    | false => rfl
    | true => exact ⟨true, readNumber_eq_ok.mpr ⟨rfl, _, hone, rfl⟩, rfl⟩
  merge_zero v := by cases v <;> rfl
  progress := readNumber_progress
  frame pre post _ := readNumber_frame pre post
  valid_zero := trivial
  valid_of_read _ _ := trivial

end Number

section Delimited

variable {α : Type}

/-- A record with a length. What it holds is handed to `parse` together with the whole buffer. -/
def readDelimited (name : String) (parse : Bytes → ℕ → ℕ → Decode α) (wireType : ℕ) (dAtA : Bytes)
    (iNdEx : ℕ) : Decode (α × ℕ) :=
  if wireType ≠ 2 then .error (.wrongWireType wireType name)
  else do
    let (iNdEx, postIndex) ← readLen dAtA iNdEx
    let v ← parse dAtA iNdEx postIndex
    .ok (v, postIndex)

variable {name : String} {parse : Bytes → ℕ → ℕ → Decode α} {v : α} {wireType i j : ℕ} {b : Bytes}

theorem readDelimited_eq_ok :
    readDelimited name parse wireType b i = .ok (v, j) ↔
      wireType = 2 ∧ ∃ k, readLen b i = .ok (k, j) ∧ parse b k j = .ok v := by
  unfold readDelimited
  split
  · rename_i h
    simp [h]
  · rename_i h
    rw [bind_eq_ok]
    constructor
    · rintro ⟨⟨k, j'⟩, hread, h'⟩
      obtain ⟨v', hparse, h'⟩ := bind_eq_ok.mp h'
      cases h'
      exact ⟨by omega, k, hread, hparse⟩
    · rintro ⟨_, k, hread, hparse⟩
      exact ⟨(k, j), hread, bind_eq_ok.mpr ⟨v, hparse, rfl⟩⟩

theorem readDelimited_progress (h : readDelimited name parse wireType b i = .ok (v, j)) :
    i ≤ j ∧ j ≤ b.length := by
  obtain ⟨_, k, hread, _⟩ := readDelimited_eq_ok.mp h
  have := readLen_progress hread
  omega

theorem readDelimited_frame (pre post : Bytes) (hsize : (pre ++ b ++ post).length < 2 ^ 63)
    (hparse : ∀ k j v, k ≤ j → j ≤ b.length → parse b k j = .ok v →
      parse (pre ++ b ++ post) (pre.length + k) (pre.length + j) = .ok v)
    (h : readDelimited name parse wireType b i = .ok (v, j)) :
    readDelimited name parse wireType (pre ++ b ++ post) (pre.length + i) =
      .ok (v, pre.length + j) := by
  obtain ⟨hwire, k, hread, hv⟩ := readDelimited_eq_ok.mp h
  obtain ⟨_, hk, hj⟩ := readLen_progress hread
  exact readDelimited_eq_ok.mpr
    ⟨hwire, _, readLen_frame pre post hsize hread, hparse k j v hk hj hv⟩

theorem readDelimited_lenPrefixed {text : Bytes} (hsize : (lenPrefixed text).length < 2 ^ 63)
    (hparse : parse (lenPrefixed text) (varint text.length).length (lenPrefixed text).length =
      .ok v) :
    readDelimited name parse 2 (lenPrefixed text) 0 = .ok (v, (lenPrefixed text).length) :=
  readDelimited_eq_ok.mpr ⟨rfl, _, readLen_lenPrefixed hsize, hparse⟩

def parseSlice (f : Bytes → Decode α) (dAtA : Bytes) (iNdEx postIndex : ℕ) : Decode α :=
  f (slice dAtA iNdEx postIndex)

theorem parseSlice_frame {f : Bytes → Decode α} (pre post : Bytes) {k : ℕ} (hk : k ≤ j)
    (hj : j ≤ b.length) (h : parseSlice f b k j = .ok v) :
    parseSlice f (pre ++ b ++ post) (pre.length + k) (pre.length + j) = .ok v := by
  rw [parseSlice, slice_frame pre post hk hj]
  exact h

theorem parseSlice_lenPrefixed {f : Bytes → Decode α} {text : Bytes} :
    parseSlice f (lenPrefixed text) (varint text.length).length (lenPrefixed text).length =
      f text := by
  rw [parseSlice, slice_lenPrefixed]

/-- A `string` or `bytes` field. -/
def bytesKind (num : ℕ) (name : String) : Kind Bytes where
  num := num
  zero := []
  merge cur v := if 0 < v.length then v else cur
  size v := if 0 < v.length then 1 + v.length + sizeOfVarint v.length else 0
  write _ v buf := if 0 < v.length then buf.putDelimited (tag num 2) v else some buf
  read _ := readDelimited name (parseSlice .ok)
  records _ v := if 0 < v.length then [(2, lenPrefixed v)] else []
  Valid _ := True
  wireTypes _ v r hr := by
    split at hr
    · rw [List.mem_singleton.mp hr]
      exact .inr rfl
    · cases hr
  size_eq _ v := by
    split
    · rw [flatMap_record, length_cons_lenPrefixed]
    · rfl
  writes _ v := by
    split
    · rw [flatMap_record]
      exact writes_putDelimited _ _
    · exact writes_nil
  readsTo _ cur v _ hsize := by
    split at hsize
    · rename_i h
      rw [flatMap_record, List.length_cons] at hsize
      rw [if_pos h, if_pos h]
      exact ⟨v, readDelimited_lenPrefixed (Nat.lt_of_succ_lt hsize) parseSlice_lenPrefixed, rfl⟩
    · rename_i h
      rw [if_neg h, if_neg h]
      rfl
  merge_zero v := by
    split
    · rfl
    · exact (List.length_eq_zero_iff.mp (Nat.eq_zero_of_not_pos ‹_›)).symm
  progress := readDelimited_progress
  frame pre post hsize := readDelimited_frame pre post hsize fun _ _ _ => parseSlice_frame pre post
  valid_zero := trivial
  valid_of_read _ _ := trivial

end Delimited

section Repeated

variable {α : Type}

def listRecords (text : MapOrder → α → Bytes) (o : MapOrder) (vs : List α) : List Record :=
  vs.zipIdx.map fun (v, i) => (2, lenPrefixed (text (o.sub i) v))

theorem length_of_mem_records {num : ℕ} {records : List Record} {text : Bytes}
    (hmem : ((2, lenPrefixed text) : Record) ∈ records)
    (hlen : (records.flatMap (recordBytes num)).length < 2 ^ 63) :
    (lenPrefixed text).length < 2 ^ 63 ∧ text.length < 2 ^ 63 := by
  have hrecord : (recordBytes num (2, lenPrefixed text)).length ≤
      (records.flatMap (recordBytes num)).length := by
    rw [List.length_flatMap]
    exact List.le_sum_of_mem (List.mem_map_of_mem hmem)
  rw [recordBytes, List.length_cons] at hrecord
  have htext := length_lenPrefixed text
  dsimp only at hrecord
  omega

theorem readsTo_foldl {β : Type} {read : α → ℕ → Bytes → ℕ → Decode (α × ℕ)} (record : β → Record)
    {step : α → β → α} {xs : List β} (v : α)
    (h : ∀ v, ∀ x ∈ xs, read v (record x).1 (record x).2 0 = .ok (step v x, (record x).2.length)) :
    ReadsTo read v (xs.map record) (xs.foldl step v) := by
  induction xs generalizing v with
  | nil => rfl
  | cons x xs ih =>
      exact ⟨step v x, h v x List.mem_cons_self,
        ih _ fun v y hy => h v y (List.mem_cons_of_mem _ hy)⟩

theorem foldl_append_fst (xs : List (α × ℕ)) (vs : List α) :
    xs.foldl (fun vs x => vs ++ [x.1]) vs = vs ++ xs.map Prod.fst := by
  induction xs generalizing vs with
  | nil => exact (List.append_nil vs).symm
  | cons x xs ih =>
      rw [List.foldl_cons, ih, List.map_cons, List.append_assoc, List.singleton_append]

theorem readsTo_listRecords {text : MapOrder → α → Bytes} {o : MapOrder} {cur vs : List α}
    {read : List α → ℕ → Bytes → ℕ → Decode (List α × ℕ)}
    (h : ∀ vs', ∀ x ∈ vs.zipIdx, read vs' 2 (lenPrefixed (text (o.sub x.2) x.1)) 0 =
      .ok (vs' ++ [x.1], (lenPrefixed (text (o.sub x.2) x.1)).length)) :
    ReadsTo read cur (listRecords text o vs) (cur ++ vs) := by
  have hreads := readsTo_foldl
    (fun x : α × ℕ => ((2, lenPrefixed (text (o.sub x.2) x.1)) : Record)) cur h
  rw [foldl_append_fst, List.zipIdx_map_fst] at hreads
  exact hreads

/-- A repeated field of texts or messages. The elements are written from the last to the first and
each is appended where it is read. -/
def repeatedKind (num : ℕ) (name : String) (elemSize : α → ℕ)
    (writeElem : MapOrder → α → Buffer → Option Buffer) (parse : Bytes → Decode α)
    (text : MapOrder → α → Bytes) (ElemValid : α → Prop)
    (hsize : ∀ o v, elemSize v = (text o v).length)
    (hwrites : ∀ o v, Writes (writeElem o v) (tag num 2 :: lenPrefixed (text o v)))
    (hparse : ∀ o v, ElemValid v → (text o v).length < 2 ^ 63 → parse (text o v) = .ok v)
    (hvalid : ∀ b v, parse b = .ok v → ElemValid v) : Kind (List α) where
  num := num
  zero := []
  merge cur vs := cur ++ vs
  size vs := (vs.map fun v => 1 + elemSize v + sizeOfVarint (elemSize v)).sum
  write o vs buf := buf.forEach (fun (v, i) => writeElem (o.sub i) v) vs.zipIdx.reverse
  read vs wireType dAtA iNdEx := do
    let (v, iNdEx) ← readDelimited name (parseSlice parse) wireType dAtA iNdEx
    .ok (vs ++ [v], iNdEx)
  records := listRecords text
  Valid vs := ∀ v ∈ vs, ElemValid v
  wireTypes o vs r hr := by
    obtain ⟨x, _, rfl⟩ := List.mem_map.mp hr
    exact .inr rfl
  size_eq o vs := by
    have hrecord : ∀ x : α × ℕ,
        (recordBytes num (2, lenPrefixed (text (o.sub x.2) x.1))).length =
          1 + elemSize x.1 + sizeOfVarint (elemSize x.1) := by
      intro x
      rw [recordBytes, length_cons_lenPrefixed, ← hsize]
    rw [listRecords, List.flatMap_map, List.length_flatMap,
      List.map_congr_left fun x _ => hrecord x, ← List.zipIdx_map_fst 0 vs, List.map_map,
      List.zipIdx_map_fst]
    rfl
  writes o vs := by
    have h := writes_forEach (fun x : α × ℕ => hwrites (o.sub x.2) x.1) vs.zipIdx.reverse
    rw [List.reverse_reverse] at h
    rw [listRecords, List.flatMap_map]
    exact h
  readsTo o cur vs hvs hlen := by
    apply readsTo_listRecords
    intro vs' x hx
    obtain ⟨hpayload, htext⟩ := length_of_mem_records
      (show (2, lenPrefixed (text (o.sub x.2) x.1)) ∈ listRecords text o vs from
        List.mem_map_of_mem hx) hlen
    have hread := hparse _ x.1 (hvs x.1 (List.fst_mem_of_mem_zipIdx hx)) htext
    exact bind_eq_ok.mpr ⟨_,
      readDelimited_lenPrefixed hpayload (parseSlice_lenPrefixed.trans hread), rfl⟩
  merge_zero := List.nil_append
  progress h := by
    obtain ⟨⟨v, j⟩, hread, h⟩ := bind_eq_ok.mp h
    cases h
    exact readDelimited_progress hread
  frame pre post hlen h := by
    obtain ⟨⟨v, j⟩, hread, h⟩ := bind_eq_ok.mp h
    cases h
    exact bind_eq_ok.mpr ⟨_, readDelimited_frame pre post hlen
      (fun _ _ _ => parseSlice_frame pre post) hread, rfl⟩
  valid_zero := List.forall_mem_nil ElemValid
  valid_of_read hvs h := by
    obtain ⟨⟨v, j⟩, hread, h⟩ := bind_eq_ok.mp h
    cases h
    obtain ⟨_, k, _, hv⟩ := readDelimited_eq_ok.mp hread
    intro x hx
    obtain hx | hx := List.mem_append.mp hx
    · exact hvs x hx
    · rw [List.mem_singleton.mp hx]
      exact hvalid _ _ hv

def repeatedBytesKind (num : ℕ) (name : String) : Kind (List Bytes) :=
  repeatedKind num name List.length (fun _ => Buffer.putDelimited (tag num 2)) .ok (fun _ v => v)
    (fun _ => True) (fun _ _ => rfl) (fun _ => writes_putDelimited _) (fun _ _ _ _ => rfl)
    (fun _ _ _ => trivial)

end Repeated

end Proto
