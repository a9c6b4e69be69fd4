import GrpcVault.Lib.GoText
import GrpcVault.Lib.Utf8

/-!
# Masking

`Mask` keeps some bytes at the start and at the end of a value and writes a mask over the rest.
Its only guard is on the sum of the two numbers: a number that is larger than the value, with a
negative one beside it, takes a slice out of range. And the numbers are meant for characters:
where one of them has more than one byte, the mask is too long and the slices cut it.
-/

namespace GrpcVault

open GoText Utf8

namespace Tokenize

inductive MaskError where
  | invalidInput
  deriving DecidableEq

def MaskError.message : MaskError → String
  | .invalidInput => "invalid input"

/-- `s[:n]`; `none` is the panic of a bound out of range. -/
def sliceTo (s : Bytes) (n : ℤ) : Option Bytes :=
  if 0 ≤ n ∧ n ≤ s.length then some (s.take n.toNat) else none

def sliceFrom (s : Bytes) (n : ℤ) : Option Bytes :=
  if 0 ≤ n ∧ n ≤ s.length then some (s.drop n.toNat) else none

def keepFirst (value : Bytes) (n : ℤ) : Option Bytes := if 0 < n then sliceTo value n else some []

def keepLast (value : Bytes) (n : ℤ) : Option Bytes :=
  if 0 < n then sliceFrom value (value.length - n) else some []

def star : Bytes := encode ['*']

/-- `Mask`, on the bytes of the value and of the mask character. The sum of the two numbers is
taken of 32-bit integers in a 64-bit `int`, which holds it. -/
def mask (value : Bytes) (preserveFirst preserveLast : ℤ) (maskChar : Bytes) :
    Option (Except MaskError Bytes) :=
  if value.length = 0 then some (.error .invalidInput)
  else
    let maskChar := if maskChar = [] then star else maskChar
    let totalPreserve := preserveFirst + preserveLast
    if value.length ≤ totalPreserve then some (.ok value)
    else do
      let first ← keepFirst value preserveFirst
      let maskLen := value.length - totalPreserve
      let middle := (List.replicate maskLen.toNat maskChar).flatten
      let last ← keepLast value preserveLast
      return .ok (first ++ middle ++ last)

end Tokenize

namespace TokenizeHandler

open Tokenize

inductive Code where
  | invalidArgument
  | internal
  deriving DecidableEq

structure Status where
  code : Code
  message : String
  deriving DecidableEq

structure MaskPattern where
  preserveFirst : Int32
  preserveLast : Int32
  maskChar : Bytes

structure MaskRequest where
  value : Bytes
  pattern : Option MaskPattern

structure MaskBatchItem where
  value : Bytes
  reference : Bytes

structure MaskBatchRequest where
  pattern : Option MaskPattern
  items : List MaskBatchItem

structure MaskBatchResult where
  maskedValue : Bytes
  reference : Bytes
  error : String

/-- The pattern that both handlers read from a request. -/
def readPattern : Option MaskPattern → MaskPattern
  | none => { preserveFirst := 0, preserveLast := 0, maskChar := star }
  | some pattern =>
      { pattern with maskChar := if pattern.maskChar ≠ [] then pattern.maskChar else star }

def callMask (pattern : MaskPattern) (value : Bytes) : Option (Except MaskError Bytes) :=
  Tokenize.mask value pattern.preserveFirst.toInt pattern.preserveLast.toInt pattern.maskChar

/-- `none` is a panic of the service, which nothing recovers. -/
def mask (req : MaskRequest) : Option (Except Status Bytes) :=
  if req.value = [] then some (.error ⟨.invalidArgument, "value is required"⟩)
  else
    (callMask (readPattern req.pattern) req.value).map fun
      | .ok masked => .ok masked
      | .error err => .error ⟨.internal, err.message⟩

def maskItem (pattern : MaskPattern) (item : MaskBatchItem) : Option MaskBatchResult :=
  (callMask pattern item.value).map fun
    | .ok maskedValue => { maskedValue, reference := item.reference, error := "" }
    | .error err => { maskedValue := [], reference := item.reference, error := err.message }

def maskBatch (req : MaskBatchRequest) : Option (Except Status (List MaskBatchResult)) :=
  if req.items = [] then some (.error ⟨.invalidArgument, "items is required"⟩)
  else (req.items.mapM (maskItem (readPattern req.pattern))).map .ok

end TokenizeHandler

/-! ## Slices out of range -/

namespace Tokenize

variable {value : Bytes} {preserveFirst preserveLast : ℤ} {maskChar : Bytes}

theorem keepFirst_eq (value : Bytes) (n : ℤ) :
    keepFirst value n = if n ≤ value.length then some (value.take n.toNat) else none := by
  unfold keepFirst sliceTo
  by_cases hpos : 0 < n
  · simp [hpos, hpos.le]
  · have hle : n ≤ value.length := by omega
    have hzero : n.toNat = 0 := by omega
    simp [hpos, hle, hzero]

theorem keepLast_eq (value : Bytes) (n : ℤ) :
    keepLast value n =
      if n ≤ value.length then some (value.drop (value.length - n.toNat)) else none := by
  unfold keepLast sliceFrom
  by_cases hpos : 0 < n
  · have hto : (value.length - n : ℤ).toNat = value.length - n.toNat := by omega
    have hrange : (0 ≤ (value.length - n : ℤ) ∧ (value.length - n : ℤ) ≤ value.length) ↔
        n ≤ value.length := by omega
    simp only [hpos, if_true, hto, hrange]
  · have hle : n ≤ value.length := by omega
    have hzero : n.toNat = 0 := by omega
    simp [hpos, hle, hzero]

def maskText (maskChar : Bytes) : Bytes := if maskChar = [] then star else maskChar

theorem mask_eq (hmiddle : preserveFirst + preserveLast < value.length) (hvalue : value ≠ []) :
    mask value preserveFirst preserveLast maskChar =
      if preserveFirst ≤ value.length ∧ preserveLast ≤ value.length then
        some (.ok (value.take preserveFirst.toNat ++
          (List.replicate (value.length - (preserveFirst + preserveLast)).toNat
            (maskText maskChar)).flatten ++
          value.drop (value.length - preserveLast.toNat)))
      else none := by
  have hlength : ¬ value.length = 0 := fun h => hvalue (List.length_eq_zero_iff.mp h)
  unfold mask
  rw [if_neg hlength]
  simp only [not_le.mpr hmiddle, if_false, keepFirst_eq, keepLast_eq]
  by_cases hfirst : preserveFirst ≤ value.length
  · by_cases hlast : preserveLast ≤ value.length
    · simp only [hfirst, hlast, if_true, and_self]
      rfl
    · simp [hfirst, hlast]
  · simp [hfirst]

/-- Either nothing is masked, or each number by itself is within the value. -/
def InRange (value : Bytes) (preserveFirst preserveLast : ℤ) : Prop :=
  value.length ≤ preserveFirst + preserveLast ∨
    preserveFirst ≤ value.length ∧ preserveLast ≤ value.length

theorem mask_isSome_iff (hvalue : value ≠ []) (maskChar : Bytes) :
    (mask value preserveFirst preserveLast maskChar).isSome = true ↔
      InRange value preserveFirst preserveLast := by
  unfold InRange
  by_cases hall : value.length ≤ preserveFirst + preserveLast
  · have hlength : ¬ value.length = 0 := fun h => hvalue (List.length_eq_zero_iff.mp h)
    simp [mask, hlength, hall]
  · rw [mask_eq (not_le.mp hall) hvalue]
    split_ifs with hrange
    · simp [hrange]
    · simp [hrange, hall]

end Tokenize

namespace TokenizeHandler

open Tokenize

def MaskPattern.InRange (pattern : MaskPattern) (value : Bytes) : Prop :=
  Tokenize.InRange value pattern.preserveFirst.toInt pattern.preserveLast.toInt

theorem maskItem_isSome_iff (pattern : MaskPattern) (item : MaskBatchItem) :
    (maskItem pattern item).isSome = true ↔ (item.value ≠ [] → pattern.InRange item.value) := by
  rw [maskItem, Option.isSome_map, callMask]
  by_cases hvalue : item.value = []
  · simp [hvalue, Tokenize.mask]
  · rw [mask_isSome_iff hvalue]
    simp [hvalue, MaskPattern.InRange]

theorem mapM_isSome_iff {α β : Type} (f : α → Option β) (l : List α) :
    (l.mapM f).isSome = true ↔ ∀ x ∈ l, (f x).isSome = true := by
  induction l with
  | nil => simp
  | cons x l ih =>
      rw [List.mapM_cons, List.forall_mem_cons, ← ih]
      cases f x with
      | none => simp
      | some y => cases l.mapM f <;> simp

/-- The service, the handler and the batch handler return for a pattern of any two 32-bit
numbers if and only if the numbers are in range for the value, in a batch for all of them. -/
theorem mask_returns_iff (pattern : Option MaskPattern) (value : Bytes) (hvalue : value ≠ []) :
    ((callMask (readPattern pattern) value).isSome = true ↔
      (readPattern pattern).InRange value) ∧
    ((mask { value, pattern }).isSome = true ↔ (readPattern pattern).InRange value) ∧
    ∀ items : List MaskBatchItem, (maskBatch { pattern, items }).isSome = true ↔
      ∀ item ∈ items, item.value ≠ [] → (readPattern pattern).InRange item.value := by
  have hcall : (callMask (readPattern pattern) value).isSome = true ↔
      (readPattern pattern).InRange value := mask_isSome_iff hvalue _
  refine ⟨hcall, ?_, ?_⟩
  · rw [mask, if_neg hvalue, Option.isSome_map]
    exact hcall
  · intro items
    by_cases hitems : items = []
    · simp [maskBatch, hitems]
    · rw [maskBatch, if_neg hitems, Option.isSome_map, mapM_isSome_iff]
      simp only [maskItem_isSome_iff]

/-- The last four characters of a card number. -/
theorem mask_returns_card :
    (mask { value := encode ['1', '2', '3', '4', '5', '6'], pattern := some ⟨0, 4, []⟩ }).isSome =
      true :=
  (mask_returns_iff (some ⟨0, 4, []⟩) (encode ['1', '2', '3', '4', '5', '6'])
    (by decide)).2.1.mpr (.inr (by decide))

/-- Five characters of three are to be kept, with a negative number at the other end. -/
theorem mask_out_of_range :
    mask { value := encode ['a', 'b', 'c'], pattern := some ⟨5, -3, []⟩ } = none ∧
    mask { value := encode ['a', 'b', 'c'], pattern := some ⟨-3, 5, []⟩ } = none ∧
    maskBatch { pattern := some ⟨5, -3, []⟩, items := [⟨encode ['a', 'b', 'c'], []⟩] } = none :=
  ⟨rfl, rfl, rfl⟩

end TokenizeHandler

/-! ## Characters and bytes -/

namespace Tokenize

/-- What `Mask` is for: the first and the last characters of a text with the mask between. -/
def maskedText (text : Str) (first last : ℕ) (maskChar : Bytes) : Bytes :=
  encode (text.take first) ++
    (List.replicate (text.length - first - last) (maskText maskChar)).flatten ++
    encode (text.drop (text.length - last))

/-- `Mask` hides the middle characters of a text, and returns a text if the mask character is
one. -/
def HidesMiddle (text : Str) : Prop :=
  ∀ (maskChar : Bytes) (first last : ℕ), first + last < text.length →
    mask (encode text) first last maskChar = some (.ok (maskedText text first last maskChar)) ∧
      (Valid maskChar → Valid (maskedText text first last maskChar))

/-- Two texts that differ in the middle characters only are masked alike. -/
def MaskedAlike (text text' : Str) : Prop :=
  ∀ (maskChar : Bytes) (first last : ℕ), first + last < text.length →
    text.length = text'.length → text.take first = text'.take first →
    text.drop (text.length - last) = text'.drop (text.length - last) →
      mask (encode text) first last maskChar = mask (encode text') first last maskChar

variable {text text' : Str} {first last : ℕ}

theorem valid_maskText {maskChar : Bytes} (h : Valid maskChar) : Valid (maskText maskChar) := by
  unfold maskText
  split_ifs
  · exact valid_encode ['*']
  · exact h

theorem valid_maskedText {maskChar : Bytes} (h : Valid maskChar) (text : Str) (first last : ℕ) :
    Valid (maskedText text first last maskChar) :=
  ((valid_encode _).append ((valid_maskText h).flatten_replicate _)).append (valid_encode _)

theorem mask_ascii (h : Ascii text) (hmiddle : first + last < text.length) (maskChar : Bytes) :
    mask (encode text) first last maskChar = some (.ok (maskedText text first last maskChar)) := by
  have hlength : (encode text).length = text.length := length_encode_eq_iff.mpr h
  have hvalue : encode text ≠ [] := by
    rw [Ne, encode_eq_nil_iff, ← List.length_eq_zero_iff]
    omega
  have hcount : ((text.length : ℤ) - ((first : ℤ) + last)).toNat = text.length - first - last := by
    omega
  rw [mask_eq (by omega) hvalue, if_pos (by omega), take_encode h, drop_encode h, hlength, hcount]
  rfl

theorem mask_whole {value : Bytes} (hvalue : value ≠ []) :
    mask value 0 0 [] = some (.ok (List.replicate value.length star).flatten) := by
  have hpos : 0 < value.length := List.length_pos_iff.mpr hvalue
  rw [mask_eq (by omega) hvalue, if_pos (by omega)]
  simp [maskText]

theorem length_stars (k : ℕ) : (List.replicate k star).flatten.length = k := by
  have hstar : star.length = 1 := rfl
  rw [List.length_flatten, List.map_replicate, hstar, List.sum_replicate, smul_eq_mul, mul_one]

/-- If the masked text has one mask character for each character, every character is one byte. -/
theorem HidesMiddle.ascii (h : HidesMiddle text) : Ascii text := by
  by_cases htext : text = []
  · rw [htext]
    exact nofun
  · obtain ⟨hmask, _⟩ := h [] 0 0 (List.length_pos_iff.mpr htext)
    have hstars : (List.replicate (encode text).length star).flatten =
        (List.replicate text.length star).flatten := by
      have hwhole := (mask_whole (mt encode_eq_nil_iff.mp htext)).symm.trans hmask
      simpa [maskedText, maskText] using hwhole
    rw [← length_encode_eq_iff, ← length_stars (encode text).length, hstars, length_stars]

/-- The middle characters of two texts are hidden, and the texts are masked alike where they
agree on the others, if and only if all their characters are ASCII. -/
theorem middle_hidden_iff (text text' : Str) :
    (HidesMiddle text ∧ HidesMiddle text' ∧ MaskedAlike text text') ↔ Ascii text ∧ Ascii text' := by
  constructor
  · rintro ⟨h, h', _⟩
    exact ⟨h.ascii, h'.ascii⟩
  · rintro ⟨h, h'⟩
    refine ⟨?_, ?_, ?_⟩
    · intro maskChar first last hmiddle
      exact ⟨mask_ascii h hmiddle maskChar, fun hm => valid_maskedText hm text first last⟩
    · intro maskChar first last hmiddle
      exact ⟨mask_ascii h' hmiddle maskChar, fun hm => valid_maskedText hm text' first last⟩
    · intro maskChar first last hmiddle hlength hfirst hlast
      rw [mask_ascii h hmiddle, mask_ascii h' (hlength ▸ hmiddle), maskedText, maskedText, hfirst,
        hlast, hlength]

/-- One character of two bytes is masked by two stars, which tells it from a character of one
byte; and a cut inside it leaves bytes that are no text. -/
theorem mask_counts_bytes :
    mask (encode ['é']) 0 0 [] = some (.ok (encode ['*', '*'])) ∧
    mask (encode ['e']) 0 0 [] = some (.ok (encode ['*'])) ∧
    ∃ masked, mask (encode ['é', 'a']) 1 0 [] = some (.ok masked) ∧ ¬ Valid masked := by
  refine ⟨rfl, rfl, [195, 42, 42], rfl, ?_⟩
  intro hvalid
  exact absurd (hvalid.high_of_lead (by decide)) (by decide)

end Tokenize

end GrpcVault
