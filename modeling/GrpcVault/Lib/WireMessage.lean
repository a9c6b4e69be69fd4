import GrpcVault.Lib.WireWrite

/-!
# Messages

A message is written into a buffer of its exact size, from the end to the front, and read back
field by field. A `Field` is the part of the three functions of a message that belongs to one of
its fields, together with the records it stands for on the wire and the laws that tie the code to
them; a `Message` is a list of fields that do not touch one another. For every message follow
that marshalling fills the buffer exactly (`marshalVT_eq`), that the concatenation of two accepted
texts is read as one after the other (`unmarshalVT_append`), that a message is read back as it was
(`unmarshalVT_bytes`), and that what is read is a message to which this applies
(`valid_of_unmarshalVT`).
-/

namespace Proto

open GoText

structure Lens (M α : Type) where
  get : M → α
  set : M → α → M
  get_set : ∀ m v, get (set m v) = v := by intros; rfl
  set_get : ∀ m, set m (get m) = m := by intros; rfl
  set_set : ∀ m v v', set (set m v) v' = set m v' := by intros; rfl

def entry (e : Bytes × Bytes) : Σ _ : Bytes, Bytes := ⟨e.1, e.2⟩

/-- The orders in which the loops over the maps of a message go. A map is told by the field
numbers and positions that lead to it. -/
structure MapOrder where
  order : List ℕ → GoMap Bytes Bytes → List (Bytes × Bytes)
  covers : ∀ path m, ((order path m).map entry : Multiset (Σ _ : Bytes, Bytes)) = m.entries

noncomputable instance : Inhabited MapOrder where
  default :=
    { order := fun _ m => m.entries.toList.map fun e => (e.1, e.2)
      covers := fun _ m => by
        rw [List.map_map, show entry ∘ (fun e => (e.1, e.2)) = id from rfl, List.map_id,
          Multiset.coe_toList] }

/-- The orders inside the part that `num` leads to. -/
def MapOrder.sub (o : MapOrder) (num : ℕ) : MapOrder where
  order path := o.order (num :: path)
  covers path := o.covers (num :: path)

/-- The tag of a field with a number below 16. -/
def tag (num wireType : ℕ) : UInt8 := UInt8.ofNat (num * 8 + wireType)

/-- A record on the wire: the wire type, and the bytes after the tag. -/
abbrev Record := ℕ × Bytes

def recordBytes (num : ℕ) (r : Record) : Bytes := tag num r.1 :: r.2

/-- Reading the records one after the other leads from one value to the other. -/
def ReadsTo {α : Type} (read : α → ℕ → Bytes → ℕ → Decode (α × ℕ)) : α → List Record → α → Prop
  | v, [], v' => v = v'
  | v, r :: records, v' =>
      ∃ v₁, read v r.1 r.2 0 = .ok (v₁, r.2.length) ∧ ReadsTo read v₁ records v'

/-- What the functions of a message do for one field, as it depends on the value of the field
alone: its share of the size, how it is written, and how a record with its number is read into
what the field holds already. Beside it the records it stands for, what comes of two values of
which the second is read into the first, the values that can be read back, and the laws that tie
the code to these. -/
structure Kind (α : Type) where
  num : ℕ
  zero : α
  merge : α → α → α
  size : α → ℕ
  write : MapOrder → α → Buffer → Option Buffer
  read : α → ℕ → Bytes → ℕ → Decode (α × ℕ)
  records : MapOrder → α → List Record
  Valid : α → Prop
  wireTypes : ∀ o v, ∀ r ∈ records o v, r.1 = 0 ∨ r.1 = 2
  size_eq : ∀ o v, size v = ((records o v).flatMap (recordBytes num)).length
  writes : ∀ o v, Writes (write o v) ((records o v).flatMap (recordBytes num))
  readsTo : ∀ o cur v, Valid v → ((records o v).flatMap (recordBytes num)).length < 2 ^ 63 →
    ReadsTo read cur (records o v) (merge cur v)
  merge_zero : ∀ v, merge zero v = v
  progress : ∀ {v wireType b i v' j}, read v wireType b i = .ok (v', j) → i ≤ j ∧ j ≤ b.length
  frame : ∀ {v wireType b i v' j} (pre post : Bytes), (pre ++ b ++ post).length < 2 ^ 63 →
    read v wireType b i = .ok (v', j) →
    read v wireType (pre ++ b ++ post) (pre.length + i) = .ok (v', pre.length + j)
  valid_zero : Valid zero
  valid_of_read : ∀ {v wireType b i v' j}, Valid v → read v wireType b i = .ok (v', j) → Valid v'

structure Field (M : Type) where
  α : Type
  lens : Lens M α
  kind : Kind α

namespace Field

variable {M : Type} (f g : Field M)

def num : ℕ := f.kind.num

def size (m : M) : ℕ := f.kind.size (f.lens.get m)

def write (o : MapOrder) (m : M) : Buffer → Option Buffer :=
  f.kind.write (o.sub f.num) (f.lens.get m)

def read (m : M) (wireType : ℕ) (dAtA : Bytes) (iNdEx : ℕ) : Decode (M × ℕ) := do
  let (v, iNdEx) ← f.kind.read (f.lens.get m) wireType dAtA iNdEx
  .ok (f.lens.set m v, iNdEx)

def bytes (o : MapOrder) (m : M) : Bytes :=
  (f.kind.records (o.sub f.num) (f.lens.get m)).flatMap (recordBytes f.num)

def copy (acc m : M) : M := f.lens.set acc (f.lens.get m)

def merge (acc m : M) : M := f.lens.set acc (f.kind.merge (f.lens.get acc) (f.lens.get m))

/-- Setting `f` does not touch `g`. -/
def Apart : Prop := ∀ m v, g.lens.get (f.lens.set m v) = g.lens.get m

variable {f}

theorem read_eq_ok {m m' : M} {wireType i j : ℕ} {b : Bytes} :
    f.read m wireType b i = .ok (m', j) ↔
      ∃ v, f.kind.read (f.lens.get m) wireType b i = .ok (v, j) ∧ m' = f.lens.set m v := by
  unfold read
  rw [bind_eq_ok]
  constructor
  · rintro ⟨⟨v, j'⟩, hread, h⟩
    cases h
    exact ⟨v, hread, rfl⟩
  · rintro ⟨v, hread, rfl⟩
    exact ⟨(v, j), hread, rfl⟩

end Field

/-- A message type: its fields in the order of their numbers, and the place for the bytes of
fields it does not know. -/
structure Message (M : Type) where
  name : String
  zero : M
  fields : List (Field M)
  unknownFields : Lens M Bytes
  num_range : ∀ f ∈ fields, 0 < f.num ∧ f.num < 16
  apart : fields.Pairwise fun f g => f.num ≠ g.num ∧ f.Apart g ∧ g.Apart f
  keeps_unknown : ∀ f ∈ fields, ∀ m v, unknownFields.get (f.lens.set m v) = unknownFields.get m
  unknown_keeps : ∀ f ∈ fields, ∀ m v, f.lens.get (unknownFields.set m v) = f.lens.get m
  get_zero : ∀ f ∈ fields, f.lens.get zero = f.kind.zero
  unknown_zero : unknownFields.get zero = []
  complete : ∀ m, unknownFields.set (fields.foldl (fun acc f => f.copy acc m) zero)
    (unknownFields.get m) = m

section Record

def Tuple : List (Σ α, Kind α) → Type
  | [] => Unit
  | kind :: kinds => kind.1 × Tuple kinds

def Tuple.zero : (kinds : List (Σ α, Kind α)) → Tuple kinds
  | [] => ()
  | kind :: kinds => (kind.2.zero, zero kinds)

variable {M α β : Type}

def Lens.fst (l : Lens M (α × β)) : Lens M α where
  get m := (l.get m).1
  set m v := l.set m (v, (l.get m).2)
  get_set m v := by rw [l.get_set]
  set_get m := l.set_get m
  set_set m v v' := by rw [l.set_set, l.get_set]

def Lens.snd (l : Lens M (α × β)) : Lens M β where
  get m := (l.get m).2
  set m v := l.set m ((l.get m).1, v)
  get_set m v := by rw [l.get_set]
  set_get m := l.set_get m
  set_set m v v' := by rw [l.set_set, l.get_set]

theorem Lens.snd_fst (l : Lens M (α × β)) (m : M) (v : α) :
    l.snd.get (l.fst.set m v) = l.snd.get m := by
  rw [Lens.snd, Lens.fst]
  dsimp only
  rw [l.get_set]

theorem Lens.fst_snd (l : Lens M (α × β)) (m : M) (v : β) :
    l.fst.get (l.snd.set m v) = l.fst.get m := by
  rw [Lens.snd, Lens.fst]
  dsimp only
  rw [l.get_set]

theorem Lens.set_parts (l : Lens M (α × β)) (acc m : M) :
    l.snd.set (l.fst.set acc (l.fst.get m)) (l.snd.get m) = l.set acc (l.get m) := by
  rw [Lens.fst, Lens.snd]
  dsimp only
  rw [l.set_set, l.get_set]

/-- The fields of a record, told by where their values are in it. -/
def fieldsOf : (kinds : List (Σ α, Kind α)) → Lens M (Tuple kinds) → List (Field M)
  | [], _ => []
  | kind :: kinds, l => ⟨kind.1, l.fst, kind.2⟩ :: fieldsOf kinds l.snd

theorem nums_fieldsOf (kinds : List (Σ α, Kind α)) (l : Lens M (Tuple kinds)) :
    (fieldsOf kinds l).map Field.num = kinds.map fun kind => kind.2.num := by
  induction kinds with
  | nil => rfl
  | cons kind kinds ih => exact congrArg (kind.2.num :: ·) (ih l.snd)

theorem fieldsOf_apart {kinds : List (Σ α, Kind α)} {l : Lens M (Tuple kinds)} {g : Lens M α}
    (hg : ∀ m v, l.get (g.set m v) = l.get m) (hl : ∀ m v, g.get (l.set m v) = g.get m) :
    ∀ f ∈ fieldsOf kinds l, (∀ m v, f.lens.get (g.set m v) = f.lens.get m) ∧
      ∀ m v, g.get (f.lens.set m v) = g.get m := by
  induction kinds with
  | nil => exact fun f hf => absurd hf List.not_mem_nil
  | cons kind kinds ih =>
      intro f hf
      obtain rfl | hf := List.mem_cons.mp hf
      · exact ⟨fun m v => congrArg Prod.fst (hg m v), fun m v => hl m _⟩
      · exact ih (fun m v => congrArg Prod.snd (hg m v)) (fun m v => hl m _) f hf

theorem fieldsOf_pairwise {kinds : List (Σ α, Kind α)} (l : Lens M (Tuple kinds)) :
    (fieldsOf kinds l).Pairwise fun f g => f.Apart g ∧ g.Apart f := by
  induction kinds with
  | nil => exact .nil
  | cons kind kinds ih =>
      refine .cons (fun g hg => ?_) (ih l.snd)
      exact fieldsOf_apart (Lens.snd_fst l) (Lens.fst_snd l) g hg

theorem foldl_copy_fieldsOf {kinds : List (Σ α, Kind α)} (l : Lens M (Tuple kinds)) (acc m : M) :
    (fieldsOf kinds l).foldl (fun acc f => f.copy acc m) acc = l.set acc (l.get m) := by
  induction kinds generalizing acc with
  | nil => exact (l.set_get acc).symm
  | cons kind kinds ih =>
      rw [fieldsOf, List.foldl_cons, ih l.snd]
      exact Lens.set_parts l acc m

theorem get_zero_fieldsOf {kinds : List (Σ α, Kind α)} {l : Lens M (Tuple kinds)} {zero : M}
    (hzero : l.get zero = Tuple.zero kinds) :
    ∀ f ∈ fieldsOf kinds l, f.lens.get zero = f.kind.zero := by
  induction kinds with
  | nil => exact fun f hf => absurd hf List.not_mem_nil
  | cons kind kinds ih =>
      intro f hf
      obtain rfl | hf := List.mem_cons.mp hf
      · exact congrArg Prod.fst hzero
      · exact ih (congrArg Prod.snd hzero) f hf

/-- A record as a message, by the values of its fields. -/
def Message.ofRecord (name : String) (kinds : List (Σ α, Kind α)) (get : M → Tuple kinds × Bytes)
    (make : Tuple kinds × Bytes → M) (make_get : ∀ m, make (get m) = m := by intro; rfl)
    (get_make : ∀ x, get (make x) = x := by intro; rfl)
    (hrange : ∀ num ∈ kinds.map fun kind => kind.2.num, 0 < num ∧ num < 16 := by decide)
    (hnodup : (kinds.map fun kind => kind.2.num).Nodup := by decide) : Message M :=
  let whole : Lens M (Tuple kinds × Bytes) :=
    { get := get
      set := fun _ => make
      get_set := fun _ => get_make
      set_get := make_get }
  { name := name
    zero := make (Tuple.zero kinds, [])
    fields := fieldsOf kinds whole.fst
    unknownFields := whole.snd
    num_range := fun f hf => hrange _ (nums_fieldsOf kinds whole.fst ▸ List.mem_map_of_mem hf)
    apart := by
      refine List.Pairwise.and ?_ (fieldsOf_pairwise _)
      rw [← nums_fieldsOf kinds whole.fst] at hnodup
      exact List.pairwise_map.mp hnodup
    keeps_unknown := fun f hf =>
      (fieldsOf_apart (Lens.fst_snd whole) (Lens.snd_fst whole) f hf).2
    unknown_keeps := fun f hf =>
      (fieldsOf_apart (Lens.fst_snd whole) (Lens.snd_fst whole) f hf).1
    get_zero := get_zero_fieldsOf (congrArg Prod.fst (get_make _))
    unknown_zero := congrArg Prod.snd (get_make _)
    complete := fun m => by
      rw [foldl_copy_fieldsOf, whole.set_parts]
      exact make_get m }

end Record

namespace Message

variable {M : Type} (N : Message M)

def sizeVT (m : M) : ℕ := (N.fields.map fun f => f.size m).sum + (N.unknownFields.get m).length

/-- The buffer, and the number of bytes written at its end. The fields are written from the last
to the first. -/
def marshalToSizedBufferVT (o : MapOrder) (m : M) (dAtA : Bytes) : Option (Bytes × ℕ) :=
  ((Buffer.copyBack (N.unknownFields.get m) ⟨dAtA, dAtA.length⟩).bind
    (Buffer.forEach (fun f => f.write o m) N.fields.reverse)).map
      fun buf => (buf.dAtA, dAtA.length - buf.i)

def marshalVT (o : MapOrder) (m : M) : Option Bytes :=
  (N.marshalToSizedBufferVT o m (List.replicate (N.sizeVT m) 0)).map fun (dAtA, n) => dAtA.take n

/-- One round of the decoder: the field at `iNdEx`. -/
def round (dAtA : Bytes) (m : M) (iNdEx : ℕ) : Decode (M × ℕ) := do
  let preIndex := iNdEx
  let (wire, iNdEx) ← readVarint 64 dAtA iNdEx
  let fieldNum := ((wire >>> 3).setWidth 32).toInt
  let wireType := wire.toNat % 8
  if wireType = 4 then .error (.endGroup N.name)
  else if fieldNum ≤ 0 then .error (.illegalTag N.name fieldNum wire.toNat)
  else
    match N.fields.find? fun f => (f.num : ℤ) = fieldNum with
    | some f => f.read m wireType dAtA iNdEx
    | none => do
        let iNdEx ← skipField dAtA dAtA.length preIndex
        .ok (N.unknownFields.set m (N.unknownFields.get m ++ slice dAtA preIndex iNdEx), iNdEx)

/-- Reads into `m` what the buffer holds. -/
def unmarshalVT (m : M) (dAtA : Bytes) : Decode M := do
  let (m, iNdEx) ← loopBelow dAtA.length (N.round dAtA) m 0
  if dAtA.length < iNdEx then .error .unexpectedEOF else .ok m

def merge (acc m : M) : M :=
  let acc := N.fields.foldl (fun acc f => f.merge acc m) acc
  N.unknownFields.set acc (N.unknownFields.get acc ++ N.unknownFields.get m)

def bytes (o : MapOrder) (m : M) : Bytes :=
  (N.fields.flatMap fun f => f.bytes o m) ++ N.unknownFields.get m

theorem sizeVT_eq (o : MapOrder) (m : M) : N.sizeVT m = (N.bytes o m).length := by
  have hfields : (N.fields.map fun f => f.size m) = N.fields.map fun f => (f.bytes o m).length :=
    List.map_congr_left fun f _ => f.kind.size_eq (o.sub f.num) (f.lens.get m)
  rw [sizeVT, bytes, List.length_append, List.length_flatMap, hfields]

theorem marshalToSizedBufferVT_eq (o : MapOrder) (m : M) (pre gap : Bytes)
    (hgap : gap.length = (N.bytes o m).length) :
    N.marshalToSizedBufferVT o m (pre ++ gap) = some (pre ++ N.bytes o m, gap.length) := by
  have hfields : Writes (Buffer.forEach (fun f : Field M => f.write o m) N.fields.reverse)
      (N.fields.flatMap fun f => f.bytes o m) := by
    have h := writes_forEach (fun f : Field M => f.kind.writes (o.sub f.num) (f.lens.get m))
      N.fields.reverse
    rw [List.reverse_reverse] at h
    exact h
  have hwrites := ((writes_copyBack (N.unknownFields.get m)).comp hfields) pre gap [] hgap
  rw [List.append_nil, List.append_nil] at hwrites
  dsimp only at hwrites
  rw [marshalToSizedBufferVT, hwrites, Option.map_some, List.length_append,
    Nat.add_sub_cancel_left]
  rfl

/-- What a round does: it reads a field it knows, or keeps the bytes of one it does not know. -/
theorem round_cases {dAtA : Bytes} {m m' : M} {i j : ℕ} (h : N.round dAtA m i = .ok (m', j)) :
    ∃ wire i₁, readVarint 64 dAtA i = .ok (wire, i₁) ∧ wire.toNat % 8 ≠ 4 ∧
      0 < ((wire >>> 3).setWidth 32).toInt ∧
      ((∃ f ∈ N.fields, N.fields.find? (fun f => (f.num : ℤ) = ((wire >>> 3).setWidth 32).toInt) =
          some f ∧ f.read m (wire.toNat % 8) dAtA i₁ = .ok (m', j)) ∨
        (N.fields.find? (fun f => (f.num : ℤ) = ((wire >>> 3).setWidth 32).toInt) = none ∧
          skipField dAtA dAtA.length i = .ok j ∧
          m' = N.unknownFields.set m (N.unknownFields.get m ++ slice dAtA i j))) := by
  obtain ⟨⟨wire, i₁⟩, hread, h⟩ := bind_eq_ok.mp h
  dsimp only at h
  split at h
  · cases h
  · split at h
    · cases h
    · refine ⟨wire, i₁, hread, ‹_›, by omega, ?_⟩
      split at h
      · rename_i f hf
        exact .inl ⟨f, List.mem_of_find?_eq_some hf, hf, h⟩
      · rename_i hf
        obtain ⟨k, hskip, h⟩ := bind_eq_ok.mp h
        cases h
        exact .inr ⟨hf, hskip, rfl⟩

theorem round_progress {dAtA : Bytes} {m m' : M} {i j : ℕ} (h : N.round dAtA m i = .ok (m', j)) :
    i < j ∧ j ≤ dAtA.length := by
  obtain ⟨wire, i₁, hread, _, _, ⟨f, _, _, hf⟩ | ⟨_, hskip, _⟩⟩ := N.round_cases h
  · obtain ⟨v, hv, _⟩ := Field.read_eq_ok.mp hf
    have hlt := (readVarint_progress hread).1
    have hle := f.kind.progress hv
    omega
  · exact skipField_progress hskip

theorem round_advances (dAtA : Bytes) : Advances (N.round dAtA) :=
  fun _ _ _ _ h => (N.round_progress h).1

theorem round_frame {b : Bytes} {m m' : M} {i j : ℕ} (pre post : Bytes)
    (hsize : (pre ++ b ++ post).length < 2 ^ 63) (h : N.round b m i = .ok (m', j)) :
    N.round (pre ++ b ++ post) m (pre.length + i) = .ok (m', pre.length + j) := by
  obtain ⟨wire, i₁, hread, hgroup, hnum, hcases⟩ := N.round_cases h
  refine bind_eq_ok.mpr ⟨(wire, pre.length + i₁), readVarint_frame pre post hread, ?_⟩
  dsimp only
  rw [if_neg hgroup, if_neg (by omega)]
  obtain ⟨f, _, hfind, hf⟩ | ⟨hfind, hskip, rfl⟩ := hcases
  · rw [hfind]
    obtain ⟨v, hv, hm⟩ := Field.read_eq_ok.mp hf
    exact Field.read_eq_ok.mpr ⟨v, f.kind.frame pre post hsize hv, hm⟩
  · rw [hfind]
    have hj := skipField_progress hskip
    refine bind_eq_ok.mpr ⟨pre.length + j, ?_, ?_⟩
    · refine skipField_frame pre post le_rfl ?_ hsize hskip
      simp only [List.length_append]
      omega
    · rw [slice_frame pre post hj.1.le hj.2]

theorem unmarshalVT_eq_ok {m m' : M} {dAtA : Bytes} :
    N.unmarshalVT m dAtA = .ok m' ↔
      loopBelow dAtA.length (N.round dAtA) m 0 = .ok (m', dAtA.length) := by
  unfold unmarshalVT
  rw [bind_eq_ok]
  constructor
  · rintro ⟨⟨m₁, j⟩, hloop, h⟩
    obtain ⟨hle, hge⟩ := loopBelow_invariant (P := fun _ i => i ≤ dAtA.length)
      (N.round_advances dAtA) (fun _ _ _ _ _ _ hr => (N.round_progress hr).2) hloop (Nat.zero_le _)
    dsimp only at h
    rw [if_neg (by omega)] at h
    cases h
    rw [hloop, le_antisymm hle hge]
  · intro hloop
    exact ⟨_, hloop, if_neg (lt_irrefl _)⟩

/-- A text after an accepted one is read into what that one has given. -/
theorem unmarshalVT_append {m m' m'' : M} {a b : Bytes} (hsize : (a ++ b).length < 2 ^ 63)
    (ha : N.unmarshalVT m a = .ok m') (hb : N.unmarshalVT m' b = .ok m'') :
    N.unmarshalVT m (a ++ b) = .ok m'' := by
  rw [unmarshalVT_eq_ok] at ha hb ⊢
  have hfirst : loopBelow (a ++ b).length (N.round (a ++ b)) m (0 + 0) =
      loopBelow (a ++ b).length (N.round (a ++ b)) m' (0 + a.length) := by
    apply loopBelow_continue (N.round_advances a) (N.round_advances _) _ _ ha
    · rw [List.length_append]
      omega
    · intro s i s' j _ h
      exact N.round_frame [] b hsize h
  have hsecond : loopBelow (a.length + b.length) (N.round (a ++ b)) m' (a.length + 0) =
      .ok (m'', a.length + b.length) := by
    apply loopBelow_shift (N.round_advances b) (N.round_advances _) _ hb
    intro s i s' j _ h
    simpa using N.round_frame a [] (by simpa using hsize) h
  rw [← List.length_append, Nat.add_zero] at hsecond
  rw [Nat.zero_add, Nat.zero_add] at hfirst
  rw [hfirst, hsecond]

theorem unmarshalVT_nil (m : M) : N.unmarshalVT m [] = .ok m := by
  rw [unmarshalVT_eq_ok]
  exact loopBelow_of_ge (Nat.zero_le 0)

theorem unmarshalVT_of_round {m m' : M} {b : Bytes} (h : N.round b m 0 = .ok (m', b.length)) :
    N.unmarshalVT m b = .ok m' := by
  have hpos := (N.round_progress h).1
  rw [unmarshalVT_eq_ok, loopBelow_of_lt (N.round_advances b) hpos, h]
  exact loopBelow_of_ge le_rfl

theorem find?_num {f : Field M} (hf : f ∈ N.fields) :
    N.fields.find? (fun g => (g.num : ℤ) = f.num) = some f := by
  have hapart := N.apart
  generalize N.fields = fields at hf hapart
  induction fields with
  | nil => cases hf
  | cons g fields ih =>
      rw [List.pairwise_cons] at hapart
      obtain rfl | hf := List.mem_cons.mp hf
      · rw [List.find?_cons_of_pos (by simp)]
      · have hne : g.num ≠ f.num := (hapart.1 f hf).1
        rw [List.find?_cons_of_neg (by simpa using hne)]
        exact ih hf hapart.2

theorem apart_of_ne {f g : Field M} (hf : f ∈ N.fields) (hg : g ∈ N.fields)
    (hne : f.num ≠ g.num) : f.Apart g := by
  have hsymm : Std.Symm fun f g : Field M => f.num ≠ g.num ∧ f.Apart g ∧ g.Apart f :=
    ⟨fun f g h => ⟨h.1.symm, h.2.2, h.2.1⟩⟩
  exact (N.apart.forall hf hg fun h => hne (congrArg (fun f : Field M => f.num) h)).2.1

theorem read_tag {num wireType : ℕ} (payload : Bytes) (hnum : num < 16) (hwire : wireType < 8) :
    ∃ wire, readVarint 64 (tag num wireType :: payload) 0 = .ok (wire, 1) ∧
      wire.toNat % 8 = wireType ∧ ((wire >>> 3).setWidth 32).toInt = num := by
  have hsmall : num * 8 + wireType < 128 := by omega
  have hread := readVarint_frame [] payload
    (readVarint_varint (w := 64) (u := num * 8 + wireType) (by omega))
  rw [varint_of_lt hsmall] at hread
  have htoNat : (BitVec.ofNat 64 (num * 8 + wireType)).toNat = num * 8 + wireType := by
    rw [BitVec.toNat_ofNat]
    omega
  have hshift : ((BitVec.ofNat 64 (num * 8 + wireType) >>> 3).setWidth 32).toNat = num := by
    rw [BitVec.toNat_setWidth, BitVec.toNat_ushiftRight, htoNat, Nat.shiftRight_eq_div_pow]
    omega
  refine ⟨_, hread, by rw [htoNat]; omega, ?_⟩
  rw [BitVec.toInt_eq_toNat_of_lt (by rw [hshift]; omega), hshift]

theorem unmarshalVT_record {f : Field M} (hf : f ∈ N.fields) {r : Record} {acc : M} {v : f.α}
    (hwire : r.1 = 0 ∨ r.1 = 2) (hsize : (recordBytes f.num r).length < 2 ^ 63)
    (hread : f.kind.read (f.lens.get acc) r.1 r.2 0 = .ok (v, r.2.length)) :
    N.unmarshalVT acc (recordBytes f.num r) = .ok (f.lens.set acc v) := by
  obtain ⟨hpos, hlt⟩ := N.num_range f hf
  obtain ⟨wire, htag, hwireType, hnum⟩ := read_tag r.2 hlt (show r.1 < 8 by omega)
  apply N.unmarshalVT_of_round
  refine bind_eq_ok.mpr ⟨(wire, 1), htag, ?_⟩
  dsimp only
  rw [hwireType, hnum, if_neg (by omega), if_neg (by omega), N.find?_num hf]
  have hframe := f.kind.frame [tag f.num r.1] [] (by simpa [recordBytes] using hsize) hread
  refine Field.read_eq_ok.mpr ⟨v, ?_, rfl⟩
  simpa [recordBytes, Nat.add_comm] using hframe

theorem unmarshalVT_records {f : Field M} (hf : f ∈ N.fields) {records : List Record} {acc : M}
    {v : f.α} (hwire : ∀ r ∈ records, r.1 = 0 ∨ r.1 = 2)
    (hsize : (records.flatMap (recordBytes f.num)).length < 2 ^ 63)
    (hreads : ReadsTo f.kind.read (f.lens.get acc) records v) :
    N.unmarshalVT acc (records.flatMap (recordBytes f.num)) = .ok (f.lens.set acc v) := by
  induction records generalizing acc with
  | nil =>
      obtain rfl : f.lens.get acc = v := hreads
      rw [f.lens.set_get]
      exact N.unmarshalVT_nil acc
  | cons r records ih =>
      obtain ⟨v₁, hread, hrest⟩ := hreads
      rw [List.flatMap_cons] at hsize ⊢
      have hlen := hsize
      rw [List.length_append] at hlen
      rw [← f.lens.get_set acc v₁] at hrest
      have hlater := ih (fun r hr => hwire r (List.mem_cons_of_mem _ hr)) (by omega) hrest
      rw [f.lens.set_set] at hlater
      refine N.unmarshalVT_append hsize ?_ hlater
      exact N.unmarshalVT_record hf (hwire r List.mem_cons_self) (by omega) hread

theorem unmarshalVT_fields {o : MapOrder} {m acc : M} {fields : List (Field M)}
    (hsub : ∀ f ∈ fields, f ∈ N.fields) (hvalid : ∀ f ∈ fields, f.kind.Valid (f.lens.get m))
    (hsize : (fields.flatMap fun f => f.bytes o m).length < 2 ^ 63) :
    N.unmarshalVT acc (fields.flatMap fun f => f.bytes o m) =
      .ok (fields.foldl (fun acc f => f.merge acc m) acc) := by
  induction fields generalizing acc with
  | nil => exact N.unmarshalVT_nil acc
  | cons f fields ih =>
      rw [List.flatMap_cons] at hsize ⊢
      have hlen := hsize
      rw [List.length_append] at hlen
      have hf : N.unmarshalVT acc (f.bytes o m) = .ok (f.merge acc m) := by
        have hreads := f.kind.readsTo (o.sub f.num) (f.lens.get acc) (f.lens.get m)
          (hvalid f List.mem_cons_self) (show (f.bytes o m).length < 2 ^ 63 by omega)
        exact N.unmarshalVT_records (hsub f List.mem_cons_self) (f.kind.wireTypes _ _)
          (show (f.bytes o m).length < 2 ^ 63 by omega) hreads
      refine N.unmarshalVT_append hsize hf (ih ?_ ?_ (by omega))
      · exact fun g hg => hsub g (List.mem_cons_of_mem _ hg)
      · exact fun g hg => hvalid g (List.mem_cons_of_mem _ hg)

theorem foldl_merge {m acc : M} {fields : List (Field M)}
    (hapart : fields.Pairwise fun f g => f.num ≠ g.num ∧ f.Apart g ∧ g.Apart f)
    (hzero : ∀ f ∈ fields, f.lens.get acc = f.kind.zero) :
    fields.foldl (fun acc f => f.merge acc m) acc =
      fields.foldl (fun acc f => f.copy acc m) acc := by
  induction fields generalizing acc with
  | nil => rfl
  | cons f fields ih =>
      rw [List.pairwise_cons] at hapart
      have hf : f.merge acc m = f.copy acc m := by
        rw [Field.merge, hzero f List.mem_cons_self, f.kind.merge_zero, Field.copy]
      rw [List.foldl_cons, List.foldl_cons, hf]
      refine ih hapart.2 fun g hg => ?_
      rw [Field.copy, (hapart.1 g hg).2.1]
      exact hzero g (List.mem_cons_of_mem _ hg)

theorem unknownFields_foldl_copy {m acc : M} {fields : List (Field M)}
    (hsub : ∀ f ∈ fields, f ∈ N.fields) :
    N.unknownFields.get (fields.foldl (fun acc f => f.copy acc m) acc) =
      N.unknownFields.get acc := by
  induction fields generalizing acc with
  | nil => rfl
  | cons f fields ih =>
      rw [List.foldl_cons, ih (fun g hg => hsub g (List.mem_cons_of_mem _ hg))]
      exact N.keeps_unknown f (hsub f List.mem_cons_self) acc _

theorem merge_zero (m : M) : N.merge N.zero m = m := by
  rw [merge, foldl_merge N.apart N.get_zero, N.unknownFields_foldl_copy fun f hf => hf,
    N.unknown_zero, List.nil_append, N.complete]

/-- The bytes of one field that the message does not know. -/
def Foreign (b : Bytes) : Prop :=
  ∃ wire i, readVarint 64 b 0 = .ok (wire, i) ∧ wire.toNat % 8 ≠ 4 ∧
    0 < ((wire >>> 3).setWidth 32).toInt ∧
    N.fields.find? (fun f => (f.num : ℤ) = ((wire >>> 3).setWidth 32).toInt) = none ∧
    skip b = .ok b.length

/-- The values of a message that can be read back: its fields are, and what it keeps of other
fields is whole. -/
def Valid (m : M) : Prop :=
  (∀ f ∈ N.fields, f.kind.Valid (f.lens.get m)) ∧
    ∃ parts : List Bytes, N.unknownFields.get m = parts.flatten ∧ ∀ b ∈ parts, N.Foreign b

theorem unmarshalVT_foreign {b : Bytes} {acc : M} (hb : N.Foreign b) (hsize : b.length < 2 ^ 63) :
    N.unmarshalVT acc b = .ok (N.unknownFields.set acc (N.unknownFields.get acc ++ b)) := by
  obtain ⟨wire, i, hread, hgroup, hnum, hfind, hskip⟩ := hb
  apply N.unmarshalVT_of_round
  refine bind_eq_ok.mpr ⟨(wire, i), hread, ?_⟩
  dsimp only
  rw [if_neg hgroup, if_neg (by omega), hfind]
  refine bind_eq_ok.mpr ⟨b.length, ?_, ?_⟩
  · have hskip' := skipField_eq_ok (i := 0) hsize (by simpa using hskip) (by omega)
    simpa using hskip'
  · rw [slice, List.drop_zero, Nat.sub_zero, List.take_length]

theorem unmarshalVT_foreigns {parts : List Bytes} {acc : M} (hparts : ∀ b ∈ parts, N.Foreign b)
    (hsize : parts.flatten.length < 2 ^ 63) :
    N.unmarshalVT acc parts.flatten =
      .ok (N.unknownFields.set acc (N.unknownFields.get acc ++ parts.flatten)) := by
  induction parts generalizing acc with
  | nil =>
      rw [List.flatten_nil, List.append_nil, N.unknownFields.set_get]
      exact N.unmarshalVT_nil acc
  | cons b parts ih =>
      rw [List.flatten_cons] at hsize ⊢
      have hlen := hsize
      rw [List.length_append] at hlen
      refine N.unmarshalVT_append hsize
        (N.unmarshalVT_foreign (hparts b List.mem_cons_self) (by omega)) ?_
      rw [ih (fun c hc => hparts c (List.mem_cons_of_mem _ hc)) (by omega),
        N.unknownFields.get_set, N.unknownFields.set_set, List.append_assoc]

/-- The text of a message, whatever the orders in which its maps were written, merges it into the
one it is read into. -/
theorem unmarshalVT_bytes_into {o : MapOrder} {m : M} (acc : M) (hvalid : N.Valid m)
    (hsize : (N.bytes o m).length < 2 ^ 63) :
    N.unmarshalVT acc (N.bytes o m) = .ok (N.merge acc m) := by
  obtain ⟨hfields, parts, hparts, hforeign⟩ := hvalid
  have hlen := hsize
  rw [bytes, List.length_append] at hlen
  refine N.unmarshalVT_append hsize
    (N.unmarshalVT_fields (fun f hf => hf) hfields (by omega)) ?_
  rw [merge, hparts]
  exact N.unmarshalVT_foreigns hforeign (by rw [← hparts]; omega)

theorem unmarshalVT_bytes {o : MapOrder} {m : M} (hvalid : N.Valid m)
    (hsize : (N.bytes o m).length < 2 ^ 63) : N.unmarshalVT N.zero (N.bytes o m) = .ok m := by
  rw [N.unmarshalVT_bytes_into N.zero hvalid hsize, N.merge_zero]

theorem valid_zero : N.Valid N.zero :=
  ⟨fun f hf => (N.get_zero f hf).symm ▸ f.kind.valid_zero, [], N.unknown_zero, by simp⟩

theorem foreign_slice {dAtA : Bytes} {wire : BitVec 64} {i i₁ n : ℕ}
    (hread : readVarint 64 dAtA i = .ok (wire, i₁)) (hgroup : wire.toNat % 8 ≠ 4)
    (hnum : 0 < ((wire >>> 3).setWidth 32).toInt)
    (hfind : N.fields.find? (fun f => (f.num : ℤ) = ((wire >>> 3).setWidth 32).toInt) = none)
    (hskip : skip (dAtA.drop i) = .ok n) (hn : i + n ≤ dAtA.length) :
    N.Foreign (slice dAtA i (i + n)) := by
  have hlen : n ≤ (dAtA.drop i).length := by
    rw [List.length_drop]
    omega
  have hslice : slice dAtA i (i + n) = (dAtA.drop i).take n := by
    rw [slice, Nat.add_sub_cancel_left]
  have htag : readVarint 64 (dAtA.drop i) 0 = .ok (wire, 0 + (i₁ - i)) :=
    readVarint_congr hread fun k _ => by rw [List.getElem?_drop, Nat.zero_add]
  have hinside : 0 + (i₁ - i) ≤ n := by
    obtain ⟨wire', i', hread', hi'⟩ := skip_tag hskip
    rw [htag] at hread'
    cases hread'
    exact hi'
  rw [hslice]
  refine ⟨wire, 0 + (i₁ - i), ?_, hgroup, hnum, hfind, ?_⟩
  · exact readVarint_agree htag fun k _ hk => List.getElem?_take_of_lt (by omega)
  · rw [skip_take hskip hlen, List.length_take_of_le hlen]

theorem valid_of_round {dAtA : Bytes} {m m' : M} {i j : ℕ} (hvalid : N.Valid m)
    (h : N.round dAtA m i = .ok (m', j)) : N.Valid m' := by
  obtain ⟨hfields, parts, hparts, hforeign⟩ := hvalid
  obtain ⟨wire, i₁, hread, hgroup, hnum, ⟨f, hf, _, hfread⟩ | ⟨hfind, hskip, rfl⟩⟩ :=
    N.round_cases h
  · obtain ⟨v, hv, rfl⟩ := Field.read_eq_ok.mp hfread
    refine ⟨fun g hg => ?_, parts, ?_, hforeign⟩
    · by_cases hnum : f.num = g.num
      · have hfg : g = f := by
          have hgf := N.find?_num hg
          rw [← hnum, N.find?_num hf] at hgf
          exact (Option.some.inj hgf).symm
        subst hfg
        rw [g.lens.get_set]
        exact g.kind.valid_of_read (hfields g hg) hv
      · rw [N.apart_of_ne hf hg hnum]
        exact hfields g hg
    · rw [N.keeps_unknown f hf, hparts]
  · obtain ⟨n, hrest, rfl, hj⟩ := skipField_inv hskip
    refine ⟨fun g hg => (N.unknown_keeps g hg _ _).symm ▸ hfields g hg,
      parts ++ [slice dAtA i (i + n)], ?_, ?_⟩
    · rw [N.unknownFields.get_set, hparts, List.flatten_append, List.flatten_singleton]
    · intro b hb
      obtain hb | hb := List.mem_append.mp hb
      · exact hforeign b hb
      · obtain rfl := List.mem_singleton.mp hb
        exact N.foreign_slice hread hgroup hnum hfind hrest hj

theorem valid_of_unmarshalVT {dAtA : Bytes} {m m' : M} (hvalid : N.Valid m)
    (h : N.unmarshalVT m dAtA = .ok m') : N.Valid m' := by
  rw [unmarshalVT_eq_ok] at h
  exact (loopBelow_invariant (P := fun m _ => N.Valid m) (N.round_advances dAtA)
    (fun _ _ _ _ _ hm hround => N.valid_of_round hm hround) h hvalid).1

end Message

end Proto
