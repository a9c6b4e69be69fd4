import GrpcVault.Lib.WireFields

/-!
# Messages, maps and packed numbers inside a message

A message inside a message is written into the part of the buffer that is still free, and read
into the one that is there already. The entries of a map are messages of two fields that are read
by a loop of their own. Packed numbers are the only field that is written forwards.
-/

namespace Proto

open GoText

theorem writes_lengthAndTag (num n : ℕ) :
    Writes (fun buf => (buf.encodeVarint n).bind (Buffer.putByte (tag num 2)))
      (tag num 2 :: varint n) :=
  (writes_encodeVarint n).comp (writes_putByte _)

section Nested

variable {M : Type} (N : Message M)

def writeMessage (num : ℕ) (o : MapOrder) (m : M) (buf : Buffer) : Option Buffer := do
  let (dAtA, size) ← N.marshalToSizedBufferVT o m (buf.dAtA.take buf.i)
  let buf : Buffer := ⟨dAtA ++ buf.dAtA.drop buf.i, buf.i - size⟩
  let buf ← buf.encodeVarint size
  buf.putByte (tag num 2)

theorem writes_writeMessage (num : ℕ) (o : MapOrder) (m : M) :
    Writes (writeMessage N num o m) (tag num 2 :: lenPrefixed (N.bytes o m)) := by
  intro pre gap post hgap
  change gap.length = ((tag num 2 :: varint (N.bytes o m).length) ++ N.bytes o m).length at hgap
  obtain ⟨gap', gap, rfl, hlen', hlen⟩ := exists_append_of_length hgap
  have hnested := N.marshalToSizedBufferVT_eq o m (pre ++ gap') gap hlen
  have hbefore := writes_lengthAndTag num (N.bytes o m).length pre gap' (N.bytes o m ++ post) hlen'
  have hi : (pre ++ gap' ++ gap).length - (N.bytes o m).length = (pre ++ gap').length := by
    rw [List.length_append, hlen, Nat.add_sub_cancel]
  unfold writeMessage
  simp only [← List.append_assoc] at hbefore ⊢
  rw [List.take_left, hnested]
  simp only [Option.bind_eq_bind, Option.bind_some, List.drop_left, hlen]
  rw [hi, lenPrefixed, ← List.cons_append, ← List.append_assoc pre]
  exact hbefore

theorem valid_none : ∀ m ∈ (none : Option M), N.Valid m :=
  fun _ hm => absurd hm (Option.not_mem_none _)

/-- A nested message; one that is there already is merged into. -/
def messageKind (num : ℕ) (name : String) : Kind (Option M) where
  num := num
  zero := none
  merge
    | cur, none => cur
    | cur, some m => some (N.merge (cur.getD N.zero) m)
  size
    | none => 0
    | some m => 1 + N.sizeVT m + sizeOfVarint (N.sizeVT m)
  write o
    | none => some
    | some m => writeMessage N num o m
  read m wireType dAtA iNdEx := do
    let (m, iNdEx) ←
      readDelimited name (parseSlice (N.unmarshalVT (m.getD N.zero))) wireType dAtA iNdEx
    .ok (some m, iNdEx)
  records o
    | none => []
    | some m => [(2, lenPrefixed (N.bytes o m))]
  Valid v := ∀ m ∈ v, N.Valid m
  wireTypes o v r hr := by
    cases v with
    | none => cases hr
    | some m =>
        rw [List.mem_singleton.mp hr]
        exact .inr rfl
  size_eq o v := by
    cases v with
    | none => rfl
    | some m =>
        rw [flatMap_record, length_cons_lenPrefixed, ← N.sizeVT_eq]
  writes o v := by
    cases v with
    | none => exact writes_nil
    | some m =>
        rw [flatMap_record]
        exact writes_writeMessage N num o m
  readsTo o cur v hvalid hsize := by
    cases v with
    | none => rfl
    | some m =>
        obtain ⟨hpayload, htext⟩ := length_of_mem_records (List.mem_singleton_self _) hsize
        have hread := N.unmarshalVT_bytes_into (o := o) (cur.getD N.zero) (hvalid m rfl) htext
        exact ⟨_, bind_eq_ok.mpr ⟨_, readDelimited_lenPrefixed hpayload
          (parseSlice_lenPrefixed.trans hread), rfl⟩, rfl⟩
  merge_zero v := by
    cases v with
    | none => rfl
    | some m => exact congrArg some (N.merge_zero m)
  progress h := by
    obtain ⟨⟨m, j⟩, hread, h⟩ := bind_eq_ok.mp h
    cases h
    exact readDelimited_progress hread
  frame pre post hsize h := by
    obtain ⟨⟨m, j⟩, hread, h⟩ := bind_eq_ok.mp h
    cases h
    exact bind_eq_ok.mpr ⟨_, readDelimited_frame pre post hsize
      (fun _ _ _ => parseSlice_frame pre post) hread, rfl⟩
  valid_zero := valid_none N
  valid_of_read {v} _ _ _ _ _ hvalid h := by
    obtain ⟨⟨m, j⟩, hread, h⟩ := bind_eq_ok.mp h
    cases h
    obtain ⟨_, k, _, hm⟩ := readDelimited_eq_ok.mp hread
    have hcur : N.Valid (v.getD N.zero) := by
      cases v with
      | none => exact N.valid_zero
      | some m => exact hvalid m rfl
    intro m' hm'
    cases hm'
    exact N.valid_of_unmarshalVT hcur hm

def repeatedMessageKind (num : ℕ) (name : String) : Kind (List M) :=
  repeatedKind num name N.sizeVT (writeMessage N num) (N.unmarshalVT N.zero) N.bytes N.Valid
    N.sizeVT_eq (writes_writeMessage N num) (fun _ _ => N.unmarshalVT_bytes)
    (fun _ _ => N.valid_of_unmarshalVT N.valid_zero)

end Nested

section Map

def entryBytes (e : Bytes × Bytes) : Bytes :=
  recordBytes 1 (2, lenPrefixed e.1) ++ recordBytes 2 (2, lenPrefixed e.2)

/-- The value is written first. The length is what the index has moved by. -/
def writeEntry (num : ℕ) (e : Bytes × Bytes) (buf : Buffer) : Option Buffer := do
  let baseI := buf.i
  let buf ← buf.putDelimited (tag 2 2) e.2
  let buf ← buf.putDelimited (tag 1 2) e.1
  let buf ← buf.encodeVarint (baseI - buf.i)
  buf.putByte (tag num 2)

theorem writes_writeEntry (num : ℕ) (e : Bytes × Bytes) :
    Writes (writeEntry num e) (tag num 2 :: lenPrefixed (entryBytes e)) := by
  intro pre gap post hgap
  change gap.length = ((tag num 2 :: varint (entryBytes e).length) ++ entryBytes e).length at hgap
  obtain ⟨gap', gap, rfl, hlen', hlen⟩ := exists_append_of_length hgap
  have hentry : Writes (fun buf => (buf.putDelimited (tag 2 2) e.2).bind
      (Buffer.putDelimited (tag 1 2) e.1)) (entryBytes e) :=
    (writes_putDelimited _ _).comp (writes_putDelimited _ _)
  have hnested := hentry (pre ++ gap') gap post hlen
  have hbefore :=
    writes_lengthAndTag num (entryBytes e).length pre gap' (entryBytes e ++ post) hlen'
  have hi : (pre ++ gap' ++ gap).length - (pre ++ gap').length = (entryBytes e).length := by
    rw [List.length_append, Nat.add_sub_cancel_left, hlen]
  have hbind : ∀ buf, writeEntry num e buf =
      (((buf.putDelimited (tag 2 2) e.2).bind (Buffer.putDelimited (tag 1 2) e.1)).bind fun buf' =>
        (buf'.encodeVarint (buf.i - buf'.i)).bind (Buffer.putByte (tag num 2))) := by
    intro buf
    rw [Option.bind_assoc]
    rfl
  dsimp only at hnested
  simp only [← List.append_assoc] at hnested hbefore ⊢
  rw [hbind, hnested, Option.bind_some]
  dsimp only
  rw [hi, lenPrefixed, ← List.cons_append, ← List.append_assoc pre]
  exact hbefore

/-- One round of the loop over an entry. The key and the value are read as far as the whole buffer
goes, only an unknown field has to end in the entry. -/
def entryRound (dAtA : Bytes) (postIndex : ℕ) (e : Bytes × Bytes) (iNdEx : ℕ) :
    Decode ((Bytes × Bytes) × ℕ) := do
  let entryPreIndex := iNdEx
  let (wire, iNdEx) ← readVarint 64 dAtA iNdEx
  let fieldNum := ((wire >>> 3).setWidth 32).toInt
  if fieldNum = 1 then do
    let (iNdEx, postStringIndex) ← readLen dAtA iNdEx
    .ok ((slice dAtA iNdEx postStringIndex, e.2), postStringIndex)
  else if fieldNum = 2 then do
    let (iNdEx, postStringIndex) ← readLen dAtA iNdEx
    .ok ((e.1, slice dAtA iNdEx postStringIndex), postStringIndex)
  else do
    let iNdEx ← skipField dAtA postIndex entryPreIndex
    .ok (e, iNdEx)

theorem entryRound_cases {dAtA : Bytes} {limit : ℕ} {e e' : Bytes × Bytes} {i j : ℕ}
    (h : entryRound dAtA limit e i = .ok (e', j)) :
    ∃ wire i₁, readVarint 64 dAtA i = .ok (wire, i₁) ∧
      ((((wire >>> 3).setWidth 32).toInt = 1 ∧
          ∃ k, readLen dAtA i₁ = .ok (k, j) ∧ e' = (slice dAtA k j, e.2)) ∨
        (((wire >>> 3).setWidth 32).toInt = 2 ∧
          ∃ k, readLen dAtA i₁ = .ok (k, j) ∧ e' = (e.1, slice dAtA k j)) ∨
        (((wire >>> 3).setWidth 32).toInt ≠ 1 ∧ ((wire >>> 3).setWidth 32).toInt ≠ 2 ∧
          skipField dAtA limit i = .ok j ∧ e' = e)) := by
  obtain ⟨⟨wire, i₁⟩, hread, h⟩ := bind_eq_ok.mp h
  refine ⟨wire, i₁, hread, ?_⟩
  dsimp only at h
  split at h
  · obtain ⟨⟨k, j'⟩, hlen, h⟩ := bind_eq_ok.mp h
    cases h
    exact .inl ⟨‹_›, k, hlen, rfl⟩
  · split at h
    · obtain ⟨⟨k, j'⟩, hlen, h⟩ := bind_eq_ok.mp h
      cases h
      exact .inr (.inl ⟨‹_›, k, hlen, rfl⟩)
    · obtain ⟨j', hskip, h⟩ := bind_eq_ok.mp h
      cases h
      exact .inr (.inr ⟨‹_›, ‹_›, hskip, rfl⟩)

theorem entryRound_advances (dAtA : Bytes) (limit : ℕ) : Advances (entryRound dAtA limit) := by
  intro e i e' j h
  obtain ⟨wire, i₁, hread, ⟨_, k, hlen, _⟩ | ⟨_, k, hlen, _⟩ | ⟨_, _, hskip, _⟩⟩ :=
    entryRound_cases h
  · have := readVarint_progress hread
    have := readLen_progress hlen
    omega
  · have := readVarint_progress hread
    have := readLen_progress hlen
    omega
  · exact (skipField_progress hskip).1

theorem entryRound_frame {b : Bytes} {limit limit' : ℕ} {e e' : Bytes × Bytes} {i j : ℕ}
    (pre post : Bytes) (hsize : (pre ++ b ++ post).length < 2 ^ 63) (hlimit : limit ≤ b.length)
    (hlimit' : pre.length + limit ≤ limit') (hpost : limit' ≤ (pre ++ b ++ post).length)
    (h : entryRound b limit e i = .ok (e', j)) :
    entryRound (pre ++ b ++ post) limit' e (pre.length + i) = .ok (e', pre.length + j) := by
  obtain ⟨wire, i₁, hread, hcases⟩ := entryRound_cases h
  refine bind_eq_ok.mpr ⟨(wire, pre.length + i₁), readVarint_frame pre post hread, ?_⟩
  dsimp only
  obtain ⟨hnum, k, hlen, rfl⟩ | ⟨hnum, k, hlen, rfl⟩ | ⟨hkey, hvalue, hskip, rfl⟩ := hcases
  · obtain ⟨_, hk, hj⟩ := readLen_progress hlen
    rw [if_pos hnum]
    refine bind_eq_ok.mpr ⟨_, readLen_frame pre post hsize hlen, ?_⟩
    dsimp only
    rw [slice_frame pre post hk hj]
  · obtain ⟨_, hk, hj⟩ := readLen_progress hlen
    rw [if_neg (by omega), if_pos hnum]
    refine bind_eq_ok.mpr ⟨_, readLen_frame pre post hsize hlen, ?_⟩
    dsimp only
    rw [slice_frame pre post hk hj]
  · rw [if_neg hkey, if_neg hvalue]
    exact bind_eq_ok.mpr
      ⟨_, skipField_frame pre post hlimit hlimit' (by omega) hskip, rfl⟩

/-- The key and the value of an entry, both empty where they are missing. -/
def parseEntry (dAtA : Bytes) (iNdEx postIndex : ℕ) : Decode (Bytes × Bytes) := do
  let (e, _) ← loopBelow postIndex (entryRound dAtA postIndex) ([], []) iNdEx
  .ok e

theorem parseEntry_frame {b : Bytes} {i j : ℕ} {e : Bytes × Bytes} (pre post : Bytes)
    (hsize : (pre ++ b ++ post).length < 2 ^ 63) (hj : j ≤ b.length)
    (h : parseEntry b i j = .ok e) :
    parseEntry (pre ++ b ++ post) (pre.length + i) (pre.length + j) = .ok e := by
  obtain ⟨⟨e', k⟩, hloop, h⟩ := bind_eq_ok.mp h
  cases h
  refine bind_eq_ok.mpr ⟨(e, pre.length + k), ?_, rfl⟩
  refine loopBelow_shift (entryRound_advances _ _) (entryRound_advances _ _) ?_ hloop
  intro e i e' k _ hround
  refine entryRound_frame pre post hsize hj le_rfl ?_ hround
  simp only [List.length_append]
  omega

theorem readLen_record {num : ℕ} {v : Bytes}
    (hsize : (recordBytes num (2, lenPrefixed v)).length < 2 ^ 63) :
    ∃ k, readLen (recordBytes num (2, lenPrefixed v)) 1 =
        .ok (k, (recordBytes num (2, lenPrefixed v)).length) ∧
      slice (recordBytes num (2, lenPrefixed v)) k (recordBytes num (2, lenPrefixed v)).length =
        v := by
  have hlen : (recordBytes num (2, lenPrefixed v)).length = 1 + (lenPrefixed v).length := by
    rw [recordBytes, List.length_cons, Nat.add_comm]
  have hread := readLen_frame [tag num 2] [] (by simpa [recordBytes] using hsize)
    (readLen_lenPrefixed (v := v) (by omega))
  have hslice := slice_frame [tag num 2] [] (b := lenPrefixed v)
    (i := (varint v.length).length) (j := (lenPrefixed v).length)
    (by rw [lenPrefixed, List.length_append]; omega) le_rfl
  rw [slice_lenPrefixed] at hslice
  rw [List.append_nil, List.length_singleton, Nat.add_zero] at hread
  rw [List.append_nil, List.length_singleton] at hslice
  rw [hlen]
  exact ⟨_, hread, hslice⟩

theorem entryRound_key {limit : ℕ} {e : Bytes × Bytes} {k : Bytes}
    (hsize : (recordBytes 1 (2, lenPrefixed k)).length < 2 ^ 63) :
    entryRound (recordBytes 1 (2, lenPrefixed k)) limit e 0 =
      .ok ((k, e.2), (recordBytes 1 (2, lenPrefixed k)).length) := by
  obtain ⟨wire, htag, _, hnum⟩ :=
    Message.read_tag (lenPrefixed k) (show 1 < 16 by norm_num) (show 2 < 8 by norm_num)
  obtain ⟨i, hread, hslice⟩ := readLen_record hsize
  refine bind_eq_ok.mpr ⟨(wire, 1), htag, ?_⟩
  dsimp only
  rw [if_pos (by exact_mod_cast hnum)]
  refine bind_eq_ok.mpr ⟨_, hread, ?_⟩
  dsimp only
  rw [hslice]

theorem entryRound_value {limit : ℕ} {e : Bytes × Bytes} {v : Bytes}
    (hsize : (recordBytes 2 (2, lenPrefixed v)).length < 2 ^ 63) :
    entryRound (recordBytes 2 (2, lenPrefixed v)) limit e 0 =
      .ok ((e.1, v), (recordBytes 2 (2, lenPrefixed v)).length) := by
  obtain ⟨wire, htag, _, hnum⟩ :=
    Message.read_tag (lenPrefixed v) (show 2 < 16 by norm_num) (show 2 < 8 by norm_num)
  obtain ⟨i, hread, hslice⟩ := readLen_record hsize
  refine bind_eq_ok.mpr ⟨(wire, 1), htag, ?_⟩
  dsimp only
  rw [if_neg (by omega), if_pos (by exact_mod_cast hnum)]
  refine bind_eq_ok.mpr ⟨_, hread, ?_⟩
  dsimp only
  rw [hslice]

theorem parseEntry_entryBytes {e : Bytes × Bytes} (hsize : (entryBytes e).length < 2 ^ 63) :
    parseEntry (entryBytes e) 0 (entryBytes e).length = .ok e := by
  have hlen : (entryBytes e).length = (recordBytes 1 (2, lenPrefixed e.1)).length +
      (recordBytes 2 (2, lenPrefixed e.2)).length := List.length_append
  have hadv := entryRound_advances (entryBytes e) (entryBytes e).length
  have hpos : 0 < (recordBytes 1 (2, lenPrefixed e.1)).length ∧
      0 < (recordBytes 2 (2, lenPrefixed e.2)).length := ⟨Nat.succ_pos _, Nat.succ_pos _⟩
  have hkey : entryRound (entryBytes e) (entryBytes e).length ([], []) 0 =
      .ok ((e.1, []), (recordBytes 1 (2, lenPrefixed e.1)).length) := by
    have h := entryRound_frame [] (recordBytes 2 (2, lenPrefixed e.2)) hsize (Nat.zero_le _)
      (Nat.zero_le _) le_rfl (entryRound_key (e := ([], [])) (k := e.1) (by omega))
    rwa [List.length_nil, Nat.zero_add, Nat.zero_add] at h
  have hvalue : entryRound (entryBytes e) (entryBytes e).length (e.1, [])
      (recordBytes 1 (2, lenPrefixed e.1)).length = .ok (e, (entryBytes e).length) := by
    have hwhole : recordBytes 1 (2, lenPrefixed e.1) ++ recordBytes 2 (2, lenPrefixed e.2) ++ [] =
        entryBytes e := List.append_nil _
    have hlimit : (recordBytes 1 (2, lenPrefixed e.1)).length + 0 ≤ (entryBytes e).length := by
      omega
    have h := entryRound_frame (recordBytes 1 (2, lenPrefixed e.1)) [] (by rwa [hwhole])
      (Nat.zero_le _) hlimit (by rw [hwhole])
      (entryRound_value (e := (e.1, [])) (v := e.2) (by omega))
    rwa [hwhole, Nat.add_zero, ← hlen] at h
  refine bind_eq_ok.mpr ⟨(e, (entryBytes e).length), ?_, rfl⟩
  rw [loopBelow_of_lt hadv (by omega), hkey]
  change loopBelow _ _ _ (recordBytes 1 (2, lenPrefixed e.1)).length = _
  rw [loopBelow_of_lt hadv (by omega), hvalue]
  exact loopBelow_of_ge le_rfl

theorem lookup_foldr_insert (m : GoMap Bytes Bytes) (key : Bytes) (entries : List (Bytes × Bytes)) :
    (entries.foldr (fun e m => m.insert e.1 e.2) m).lookup key =
      ((entries.map entry).dlookup key).or (m.lookup key) := by
  induction entries with
  | nil => rfl
  | cons e entries ih =>
      rw [List.foldr_cons, List.map_cons, entry]
      by_cases hkey : key = e.1
      · rw [hkey, Finmap.lookup_insert, List.dlookup_cons_eq]
        rfl
      · rw [Finmap.lookup_insert_of_ne _ hkey, List.dlookup_cons_ne _ _ hkey, ih]

theorem foldr_insert_eq {cur m : GoMap Bytes Bytes} {entries : List (Bytes × Bytes)}
    (hcovers : (entries.map entry : Multiset (Σ _ : Bytes, Bytes)) = m.entries) :
    entries.foldr (fun e m => m.insert e.1 e.2) cur = m ∪ cur := by
  have hnodup : (entries.map entry).NodupKeys := by
    rw [← Multiset.coe_nodupKeys, hcovers]
    exact m.nodupKeys
  have hm : m = AList.toFinmap ⟨entries.map entry, hnodup⟩ := Finmap.ext hcovers.symm
  apply Finmap.ext_lookup
  intro key
  have hlookup : m.lookup key = (entries.map entry).dlookup key := by
    rw [hm, Finmap.lookup_toFinmap]
    rfl
  rw [lookup_foldr_insert, ← hlookup]
  by_cases hkey : key ∈ m
  · rw [Finmap.lookup_union_left hkey]
    obtain ⟨value, hvalue⟩ := Finmap.mem_iff.mp hkey
    rw [hvalue]
    rfl
  · rw [Finmap.lookup_union_right hkey, Finmap.lookup_eq_none.mpr hkey]
    rfl

/-- The records of a map: what is written last is read first. -/
def mapRecords (o : MapOrder) (m : GoMap Bytes Bytes) : List Record :=
  (o.order [] m).reverse.map fun e => (2, lenPrefixed (entryBytes e))

theorem readsTo_mapRecords {o : MapOrder} {cur m : GoMap Bytes Bytes}
    {read : GoMap Bytes Bytes → ℕ → Bytes → ℕ → Decode (GoMap Bytes Bytes × ℕ)}
    (h : ∀ m', ∀ e ∈ o.order [] m, read m' 2 (lenPrefixed (entryBytes e)) 0 =
      .ok (m'.insert e.1 e.2, (lenPrefixed (entryBytes e)).length)) :
    ReadsTo read cur (mapRecords o m) (m ∪ cur) := by
  have hreads := readsTo_foldl
    (fun e : Bytes × Bytes => ((2, lenPrefixed (entryBytes e)) : Record)) cur
    fun m' e he => h m' e (List.mem_reverse.mp he)
  rw [List.foldl_reverse, foldr_insert_eq (o.covers [] m)] at hreads
  exact hreads

def mapEntrySize (e : Bytes × Bytes) : ℕ :=
  1 + e.1.length + sizeOfVarint e.1.length + (1 + e.2.length + sizeOfVarint e.2.length)

theorem mapEntrySize_eq (e : Bytes × Bytes) : mapEntrySize e = (entryBytes e).length := by
  rw [entryBytes, List.length_append, recordBytes, recordBytes, length_cons_lenPrefixed,
    length_cons_lenPrefixed, mapEntrySize]

def mapKind (num : ℕ) (name : String) : Kind (GoMap Bytes Bytes) where
  num := num
  zero := ∅
  merge cur m := m ∪ cur
  size m := (m.entries.map fun e =>
    mapEntrySize (e.1, e.2) + 1 + sizeOfVarint (mapEntrySize (e.1, e.2))).sum
  write o m := Buffer.forEach (writeEntry num) (o.order [] m)
  read m wireType dAtA iNdEx := do
    let (e, iNdEx) ← readDelimited name parseEntry wireType dAtA iNdEx
    .ok (m.insert e.1 e.2, iNdEx)
  records := mapRecords
  Valid _ := True
  wireTypes o m r hr := by
    obtain ⟨e, _, rfl⟩ := List.mem_map.mp hr
    exact .inr rfl
  size_eq o m := by
    have hrecord : ∀ e : Bytes × Bytes, (recordBytes num (2, lenPrefixed (entryBytes e))).length =
        mapEntrySize e + 1 + sizeOfVarint (mapEntrySize e) := by
      intro e
      rw [recordBytes, length_cons_lenPrefixed, mapEntrySize_eq, Nat.add_comm 1]
    rw [mapRecords, List.flatMap_map, List.length_flatMap, List.map_congr_left fun e _ => hrecord e,
      List.map_reverse, List.sum_reverse, ← o.covers [] m, Multiset.map_coe, Multiset.sum_coe,
      List.map_map]
    rfl
  writes o m := by
    have h := writes_forEach (writes_writeEntry num) (o.order [] m)
    rw [mapRecords, List.flatMap_map]
    exact h
  readsTo o cur m _ hlen := by
    apply readsTo_mapRecords
    intro m' e he
    obtain ⟨hpayload, htext⟩ := length_of_mem_records
      (show (2, lenPrefixed (entryBytes e)) ∈ mapRecords o m from
        List.mem_map_of_mem (List.mem_reverse.mpr he)) hlen
    have hparse := parseEntry_frame (varint (entryBytes e).length) []
      (by rw [List.append_nil]; exact hpayload) le_rfl (parseEntry_entryBytes htext)
    rw [List.append_nil, Nat.add_zero, ← List.length_append] at hparse
    exact bind_eq_ok.mpr ⟨_, readDelimited_lenPrefixed hpayload hparse, rfl⟩
  merge_zero m := Finmap.union_empty
  progress h := by
    obtain ⟨⟨e, j⟩, hread, h⟩ := bind_eq_ok.mp h
    cases h
    exact readDelimited_progress hread
  frame pre post hsize h := by
    obtain ⟨⟨e, j⟩, hread, h⟩ := bind_eq_ok.mp h
    cases h
    exact bind_eq_ok.mpr ⟨_, readDelimited_frame pre post hsize
      (fun _ _ _ _ hj => parseEntry_frame pre post hsize hj) hread, rfl⟩
  valid_zero := trivial
  valid_of_read _ _ := trivial

end Map

section Packed

variable {α : Type}

/-- The numbers one after the other from `offset` on, and the offset after them. -/
def storeVarints (dAtA : Bytes) (offset : ℕ) : List ℕ → Option (Bytes × ℕ)
  | [] => some (dAtA, offset)
  | v :: vs => (storeVarint v dAtA offset v).bind fun (dAtA, offset) => storeVarints dAtA offset vs

theorem storeVarints_eq (vs : List ℕ) (pre gap post : Bytes)
    (hgap : gap.length = (vs.flatMap varint).length) :
    storeVarints (pre ++ gap ++ post) pre.length vs =
      some (pre ++ vs.flatMap varint ++ post, (pre ++ vs.flatMap varint).length) := by
  induction vs generalizing pre gap with
  | nil =>
      rw [List.length_eq_zero_iff.mp hgap]
      rw [storeVarints, List.flatMap_nil, List.append_nil]
  | cons v vs ih =>
      rw [List.flatMap_cons] at hgap
      obtain ⟨gap, gap', rfl, hlen, hlen'⟩ := exists_append_of_length hgap
      have hfirst := storeVarint_eq (v := v) le_rfl pre gap (gap' ++ post) hlen
      have hrest := ih (pre ++ varint v) gap' hlen'
      simp only [← List.append_assoc] at hfirst hrest ⊢
      rw [storeVarints, hfirst, Option.bind_some]
      dsimp only
      rw [hrest, List.flatMap_cons]
      simp only [List.append_assoc]

/-- `i -= pksize`, and the numbers forwards from there. -/
def Buffer.putPacked (vs : List ℕ) (buf : Buffer) : Option Buffer :=
  let pksize := (vs.map sizeOfVarint).sum
  if pksize ≤ buf.i then
    (storeVarints buf.dAtA (buf.i - pksize) vs).map fun (dAtA, _) => ⟨dAtA, buf.i - pksize⟩
  else none

theorem sum_sizeOfVarint (vs : List ℕ) :
    (vs.map sizeOfVarint).sum = (vs.flatMap varint).length := by
  rw [List.length_flatMap]
  exact congrArg List.sum (List.map_congr_left fun v _ => (length_varint v).symm)

theorem writes_putPacked (vs : List ℕ) : Writes (Buffer.putPacked vs) (vs.flatMap varint) := by
  intro pre gap post hgap
  have hi : (pre ++ gap).length - (vs.flatMap varint).length = pre.length := by
    rw [List.length_append]
    omega
  unfold Buffer.putPacked
  simp only [sum_sizeOfVarint, hi, storeVarints_eq vs pre gap post hgap, Option.map_some]
  rw [if_pos]
  rw [List.length_append]
  omega

def packedRound {w : ℕ} (ofBits : BitVec w → α) (dAtA : Bytes) (vs : List α) (iNdEx : ℕ) :
    Decode (List α × ℕ) := do
  let (v, iNdEx) ← readVarint w dAtA iNdEx
  .ok (vs ++ [ofBits v], iNdEx)

theorem packedRound_eq_ok {w : ℕ} {ofBits : BitVec w → α} {dAtA : Bytes} {vs vs' : List α}
    {i j : ℕ} :
    packedRound ofBits dAtA vs i = .ok (vs', j) ↔
      ∃ v, readVarint w dAtA i = .ok (v, j) ∧ vs' = vs ++ [ofBits v] := by
  unfold packedRound
  rw [bind_eq_ok]
  constructor
  · rintro ⟨⟨v, j'⟩, hread, h⟩
    cases h
    exact ⟨v, hread, rfl⟩
  · rintro ⟨v, hread, rfl⟩
    exact ⟨(v, j), hread, rfl⟩

theorem packedRound_progress {w : ℕ} {ofBits : BitVec w → α} {dAtA : Bytes} {vs vs' : List α}
    {i j : ℕ} (h : packedRound ofBits dAtA vs i = .ok (vs', j)) : i < j ∧ j ≤ dAtA.length := by
  obtain ⟨v, hread, _⟩ := packedRound_eq_ok.mp h
  exact readVarint_progress hread

theorem packedRound_advances {w : ℕ} (ofBits : BitVec w → α) (dAtA : Bytes) :
    Advances (packedRound ofBits dAtA) :=
  fun _ _ _ _ h => (packedRound_progress h).1

theorem packedRound_frame {w : ℕ} {ofBits : BitVec w → α} {b : Bytes} {vs vs' : List α} {i j : ℕ}
    (pre post : Bytes) (h : packedRound ofBits b vs i = .ok (vs', j)) :
    packedRound ofBits (pre ++ b ++ post) vs (pre.length + i) = .ok (vs', pre.length + j) := by
  obtain ⟨v, hread, hv⟩ := packedRound_eq_ok.mp h
  exact packedRound_eq_ok.mpr ⟨v, readVarint_frame pre post hread, hv⟩

/-- The loop over packed numbers. It may end after `postIndex`, in the middle of what follows. -/
def readPacked {w : ℕ} (ofBits : BitVec w → α) (vs : List α) (dAtA : Bytes) (iNdEx : ℕ) :
    Decode (List α × ℕ) := do
  let (iNdEx, postIndex) ← readLen dAtA iNdEx
  loopBelow postIndex (packedRound ofBits dAtA) vs iNdEx

theorem readPacked_progress {w : ℕ} {ofBits : BitVec w → α} {dAtA : Bytes} {vs vs' : List α}
    {i j : ℕ} (h : readPacked ofBits vs dAtA i = .ok (vs', j)) : i ≤ j ∧ j ≤ dAtA.length := by
  obtain ⟨⟨k, post⟩, hlen, hloop⟩ := bind_eq_ok.mp h
  obtain ⟨hk, hkpost, hpost⟩ := readLen_progress hlen
  have hend := (loopBelow_invariant (P := fun _ j => k ≤ j ∧ j ≤ dAtA.length)
    (packedRound_advances ofBits dAtA)
    (fun _ _ _ _ _ hi hround => ⟨hi.1.trans (packedRound_progress hround).1.le,
      (packedRound_progress hround).2⟩) hloop ⟨le_rfl, hkpost.trans hpost⟩).1
  omega

theorem readPacked_frame {w : ℕ} {ofBits : BitVec w → α} {b : Bytes} {vs vs' : List α} {i j : ℕ}
    (pre post : Bytes) (hsize : (pre ++ b ++ post).length < 2 ^ 63)
    (h : readPacked ofBits vs b i = .ok (vs', j)) :
    readPacked ofBits vs (pre ++ b ++ post) (pre.length + i) = .ok (vs', pre.length + j) := by
  obtain ⟨⟨k, postIndex⟩, hlen, hloop⟩ := bind_eq_ok.mp h
  refine bind_eq_ok.mpr ⟨_, readLen_frame pre post hsize hlen, ?_⟩
  exact loopBelow_shift (packedRound_advances _ _) (packedRound_advances _ _)
    (fun _ _ _ _ _ => packedRound_frame pre post) hloop

theorem loopBelow_packed {w : ℕ} {ofBits : BitVec w → α} {uint64 : α → ℕ}
    (hlt : ∀ v, uint64 v < 2 ^ 64) (hbits : ∀ v, ofBits (BitVec.ofNat w (uint64 v)) = v)
    (vs acc : List α) :
    loopBelow ((vs.map uint64).flatMap varint).length
        (packedRound ofBits ((vs.map uint64).flatMap varint)) acc 0 =
      .ok (acc ++ vs, ((vs.map uint64).flatMap varint).length) := by
  induction vs generalizing acc with
  | nil =>
      rw [List.append_nil]
      exact loopBelow_of_ge le_rfl
  | cons v vs ih =>
      rw [List.map_cons, List.flatMap_cons]
      have hpos : 0 < (varint (uint64 v)).length := by
        rw [List.length_pos_iff]
        exact varint_ne_nil _
      have hfirst : packedRound ofBits (varint (uint64 v) ++ (vs.map uint64).flatMap varint) acc 0 =
          .ok (acc ++ [v], (varint (uint64 v)).length) := by
        have hread := readVarint_frame [] ((vs.map uint64).flatMap varint)
          (readVarint_varint (w := w) (hlt v))
        refine packedRound_eq_ok.mpr ⟨_, by simpa using hread, ?_⟩
        rw [hbits]
      have hrest : loopBelow ((varint (uint64 v)).length + ((vs.map uint64).flatMap varint).length)
          (packedRound ofBits (varint (uint64 v) ++ (vs.map uint64).flatMap varint)) (acc ++ [v])
          ((varint (uint64 v)).length + 0) =
            .ok (acc ++ [v] ++ vs,
              (varint (uint64 v)).length + ((vs.map uint64).flatMap varint).length) := by
        refine loopBelow_shift (packedRound_advances _ _) (packedRound_advances _ _) ?_
          (ih (acc ++ [v]))
        intro s i s' j _ hround
        simpa using packedRound_frame (varint (uint64 v)) [] hround
      rw [loopBelow_of_lt (packedRound_advances _ _) (by rw [List.length_append]; omega), hfirst,
        List.length_append]
      rw [List.append_assoc, List.singleton_append] at hrest
      exact hrest

theorem readPacked_lenPrefixed {w : ℕ} {ofBits : BitVec w → α} {uint64 : α → ℕ}
    (hlt : ∀ v, uint64 v < 2 ^ 64) (hbits : ∀ v, ofBits (BitVec.ofNat w (uint64 v)) = v)
    (cur vs : List α) (hsize : (lenPrefixed ((vs.map uint64).flatMap varint)).length < 2 ^ 63) :
    readPacked ofBits cur (lenPrefixed ((vs.map uint64).flatMap varint)) 0 =
      .ok (cur ++ vs, (lenPrefixed ((vs.map uint64).flatMap varint)).length) := by
  refine bind_eq_ok.mpr ⟨_, readLen_lenPrefixed hsize, ?_⟩
  have hloop := loopBelow_packed hlt hbits vs cur
  generalize (vs.map uint64).flatMap varint = text at hloop
  have hshift := loopBelow_shift (d := (varint text.length).length) (packedRound_advances _ _)
    (packedRound_advances ofBits (lenPrefixed text)) ?_ hloop
  · rw [← List.length_append] at hshift
    exact hshift
  · intro s i s' j _ hround
    simpa [lenPrefixed] using packedRound_frame (varint text.length) [] hround

/-- A repeated number. It is written packed; one that is not is read as well. -/
def packedKind (num : ℕ) (name : String) (uint64 : α → ℕ) {w : ℕ} (ofBits : BitVec w → α)
    (hlt : ∀ v, uint64 v < 2 ^ 64) (hbits : ∀ v, ofBits (BitVec.ofNat w (uint64 v)) = v) :
    Kind (List α) where
  num := num
  zero := []
  merge cur vs := cur ++ vs
  size vs :=
    if 0 < vs.length then
      let l := ((vs.map uint64).map sizeOfVarint).sum
      1 + sizeOfVarint l + l
    else 0
  write _ vs buf :=
    if 0 < vs.length then do
      let pksize := ((vs.map uint64).map sizeOfVarint).sum
      let buf ← buf.putPacked (vs.map uint64)
      let buf ← buf.encodeVarint pksize
      buf.putByte (tag num 2)
    else some buf
  read vs wireType dAtA iNdEx :=
    if wireType = 0 then packedRound ofBits dAtA vs iNdEx
    else if wireType = 2 then readPacked ofBits vs dAtA iNdEx
    else .error (.wrongWireType wireType name)
  records _ vs := if 0 < vs.length then [(2, lenPrefixed ((vs.map uint64).flatMap varint))] else []
  Valid _ := True
  wireTypes _ vs r hr := by
    split at hr
    · rw [List.mem_singleton.mp hr]
      exact .inr rfl
    · cases hr
  size_eq _ vs := by
    split
    · rw [flatMap_record, length_cons_lenPrefixed, sum_sizeOfVarint]
      exact Nat.add_right_comm _ _ _
    · rfl
  writes _ vs := by
    split
    · rw [flatMap_record, sum_sizeOfVarint]
      exact (writes_putPacked _).comp (writes_lengthAndTag num _)
    · exact writes_nil
  readsTo _ cur vs _ hlen := by
    split at hlen
    · rename_i hvs
      rw [flatMap_record, List.length_cons] at hlen
      rw [if_pos hvs]
      exact ⟨_, readPacked_lenPrefixed hlt hbits cur vs (Nat.lt_of_succ_lt hlen), rfl⟩
    · rename_i hvs
      obtain rfl := List.length_eq_zero_iff.mp (Nat.eq_zero_of_not_pos hvs)
      exact (List.append_nil cur).symm
  merge_zero := List.nil_append
  progress h := by
    split at h
    · obtain ⟨hlt, hle⟩ := packedRound_progress h
      exact ⟨hlt.le, hle⟩
    · split at h
      · exact readPacked_progress h
      · cases h
  frame pre post hsize h := by
    split at h
    · rename_i hwire
      rw [if_pos hwire]
      exact packedRound_frame pre post h
    · split at h
      · rename_i hnum hwire
        rw [if_neg hnum, if_pos hwire]
        exact readPacked_frame pre post hsize h
      · cases h
  valid_zero := trivial
  valid_of_read _ _ := trivial

def packedInt32Kind (num : ℕ) (name : String) : Kind (List Int32) :=
  packedKind num name uint64OfInt32 Int32.ofBitVec uint64OfInt32_lt ofBitVec_uint64OfInt32

end Packed

end Proto
