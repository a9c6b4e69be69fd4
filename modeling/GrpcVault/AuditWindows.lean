import GrpcVault.AuditStorage

/-!
# Time windows of audit queries

A query names its first and its last second, a response reports the second of every entry, and
the storages compare instants. The start of a window is the first instant of its first second,
but its end is the first instant of its last second: an entry later in that second is not
returned, though the second reported for it is the last of the window, and the window that
begins with the next second has it neither. Seconds near the end of 64 bits overflow in
`time.Unix`, and a window that reaches them is empty or lies long before the year 1.
-/

namespace GrpcVault

open GoText

variable {δ : Type}

namespace Audit

inductive Storage (δ : Type) where
  | file (s : FileStorage δ)
  | memory (s : MemoryStorage δ)

namespace Storage

def entries : Storage δ → List (AuditEntry δ)
  | .file s => s.entries
  | .memory s => s.entries

def query : Storage δ → QueryOptions → List (AuditEntry δ)
  | .file s => s.query
  | .memory s => s.query

def count : Storage δ → QueryOptions → ℕ
  | .file s => s.count
  | .memory s => s.count

end Storage

def AuditService.query (storage : Storage δ) (opts : QueryOptions) : List (AuditEntry δ) × ℕ :=
  (storage.query opts, storage.count opts)

end Audit

namespace AuditHandler

open Audit

structure QueryRequest where
  startTime : ℤ := 0
  endTime : ℤ := 0
  type : Str := []
  path : Str := []
  operation : Str := []
  clientToken : Str := []
  limit : ℤ := 0
  offset : ℤ := 0

structure RequestInfo where
  id : Str
  operation : Str
  path : Str
  remoteAddr : Str

structure AuditEntry where
  id : Str
  timestamp : ℤ
  type : Str
  auth : AuthInfo
  request : RequestInfo
  response : Option ResponseInfo
  error : Str
  metadata : GoMap Str Str

structure QueryResponse where
  entries : List AuditEntry
  total : ℕ

def second : ℤ := 1000000000

/-- `time.Unix(sec, 0)`. The seconds are counted from the year 1 in 64 bits. -/
def unixTime (sec : ℤ) : ℤ := (Int.bmod (sec + 62135596800) (2 ^ 64) - 62135596800) * second

/-- The seconds that `unixTime` takes to their first instant without an overflow end here. -/
def maxUnixTime : ℤ := 2 ^ 63 - 62135596800

def QueryRequest.input (req : QueryRequest) : QueryOptions where
  startTime := if 0 < req.startTime then unixTime req.startTime else zeroTime
  endTime := if 0 < req.endTime then unixTime req.endTime else zeroTime
  type := req.type
  path := req.path
  operation := req.operation
  clientToken := req.clientToken
  limit := req.limit
  offset := req.offset

/-- The logged data is not shown, and of the time only the second. -/
def convertToResponse (entry : Audit.AuditEntry δ) : AuditEntry where
  id := entry.id
  timestamp := entry.timestamp / second
  type := entry.type.text
  auth := entry.auth
  request :=
    { id := entry.request.id, operation := entry.request.operation, path := entry.request.path
      remoteAddr := entry.request.remoteAddr }
  response := entry.response
  error := entry.error
  metadata := entry.metadata

def query (storage : Storage δ) (req : QueryRequest) : QueryResponse :=
  let (entries, total) := AuditService.query storage req.input
  { entries := entries.map convertToResponse, total }

/-- The request for the seconds from `a` to `b`, without another filter and without a limit. -/
def window (a b : ℤ) : QueryRequest := { startTime := a, endTime := b }

section Windows

variable {entry : Audit.AuditEntry δ} {a b c : ℤ}

/-- The entry is between the instants that stand for the seconds `a` and `b`. -/
def Selected (a b : ℤ) (entry : Audit.AuditEntry δ) : Prop :=
  unixTime a ≤ entry.timestamp ∧ entry.timestamp ≤ unixTime b

def Within (a b : ℤ) (entry : Audit.AuditEntry δ) : Prop :=
  a * second ≤ entry.timestamp ∧ entry.timestamp ≤ b * second

/-- The entry is inside the second `b`, after its first instant. -/
def Inside (b : ℤ) (entry : Audit.AuditEntry δ) : Prop :=
  b * second < entry.timestamp ∧ entry.timestamp < (b + 1) * second

def Reported (a b : ℤ) (entry : Audit.AuditEntry δ) : Prop :=
  a ≤ (convertToResponse entry).timestamp ∧ (convertToResponse entry).timestamp ≤ b

instance (a b : ℤ) (entry : Audit.AuditEntry δ) : Decidable (Selected a b entry) :=
  inferInstanceAs (Decidable (_ ∧ _))

instance (a b : ℤ) (entry : Audit.AuditEntry δ) : Decidable (Within a b entry) :=
  inferInstanceAs (Decidable (_ ∧ _))

instance (b : ℤ) (entry : Audit.AuditEntry δ) : Decidable (Inside b entry) :=
  inferInstanceAs (Decidable (_ ∧ _))

theorem unixTime_eq {sec : ℤ} (h0 : 0 < sec) (h : sec < maxUnixTime) :
    unixTime sec = sec * second := by
  have hbmod : Int.bmod (sec + 62135596800) (2 ^ 64) = sec + 62135596800 := by
    unfold maxUnixTime at h
    apply Int.bmod_eq_of_le <;> omega
  rw [unixTime, hbmod, add_sub_cancel_right]

/-- From `maxUnixTime` on the instant is one long before the year 1. -/
theorem unixTime_eq_sub {sec : ℤ} (h : maxUnixTime ≤ sec) (h63 : sec < 2 ^ 63) :
    unixTime sec = (sec - 2 ^ 64) * second := by
  have hbmod : Int.bmod (sec + 62135596800) (2 ^ 64) = sec + 62135596800 - 2 ^ 64 := by
    unfold maxUnixTime at h
    rw [← Int.sub_bmod_right, Nat.cast_pow, Nat.cast_ofNat]
    apply Int.bmod_eq_of_le <;> omega
  rw [unixTime, hbmod]
  ring

theorem unixTime_ne_zeroTime {sec : ℤ} (h0 : 0 < sec) (h63 : sec < 2 ^ 63) :
    unixTime sec ≠ zeroTime := by
  by_cases h : sec < maxUnixTime
  · rw [unixTime_eq h0 h, zeroTime, second]
    omega
  · rw [unixTime_eq_sub (not_lt.mp h) h63, zeroTime, second]
    omega

theorem window_selects_iff (ha : 0 < a) (hab : a ≤ b) (hb : b < 2 ^ 63) :
    (window a b).input.Selects entry ↔ Selected a b entry := by
  have hb0 : 0 < b := ha.trans_le hab
  have hstart : (window a b).input.startTime = unixTime a := if_pos ha
  have hend : (window a b).input.endTime = unixTime b := if_pos hb0
  constructor
  · intro h
    have h₁ := h.startTime (hstart ▸ unixTime_ne_zeroTime ha (hab.trans_lt hb))
    have h₂ := h.endTime (hend ▸ unixTime_ne_zeroTime hb0 hb)
    exact ⟨hstart ▸ h₁, hend ▸ h₂⟩
  · rintro ⟨h₁, h₂⟩
    exact ⟨fun _ => hstart ▸ h₁, fun _ => hend ▸ h₂, fun h => absurd rfl h, fun h => absurd rfl h,
      fun h => absurd rfl h⟩

theorem window_satisfied_iff (ha : 0 < a) (hab : a ≤ b) (hb : b < 2 ^ 63) :
    (window a b).input.Satisfied entry ↔ Selected a b entry := by
  rw [← window_selects_iff ha hab hb]
  exact ⟨fun h => h.toSelects, fun h => ⟨h, fun htoken => absurd rfl htoken⟩⟩

theorem query_window_perm (storage : Storage δ) (ha : 0 < a) (hab : a ≤ b) (hb : b < 2 ^ 63) :
    (storage.query (window a b).input).Perm (storage.entries.filter (Selected a b ·)) := by
  cases storage with
  | file s =>
      have hfilter :
          (s.entries.filter fun entry => FileStorage.matchesQuery entry (window a b).input) =
            s.entries.filter (Selected a b ·) := by
        refine List.filter_congr fun entry _ => ?_
        rw [Bool.eq_iff_iff, FileStorage.matchesQuery_iff, window_satisfied_iff ha hab hb,
          decide_eq_true_iff]
      rw [Storage.query, FileStorage.query_unpaged s rfl rfl, hfilter]
      rfl
  | memory s =>
      have hfilter :
          (s.entries.filter fun entry => MemoryStorage.matchesQuery entry (window a b).input) =
            s.entries.filter (Selected a b ·) := by
        refine List.filter_congr fun entry _ => ?_
        rw [Bool.eq_iff_iff, MemoryStorage.matchesQuery_iff, window_selects_iff ha hab hb,
          decide_eq_true_iff]
      rw [Storage.query, MemoryStorage.query_unpaged s rfl rfl, hfilter]
      exact List.reverse_perm _

theorem mem_query_window_iff (storage : Storage δ) (ha : 0 < a) (hab : a ≤ b) (hb : b < 2 ^ 63)
    (hmem : entry ∈ storage.entries) :
    entry ∈ storage.query (window a b).input ↔ Selected a b entry := by
  rw [(query_window_perm storage ha hab hb).mem_iff, List.mem_filter, decide_eq_true_iff]
  exact and_iff_right hmem

theorem query_entries_perm (storage : Storage δ) (ha : 0 < a) (hab : a ≤ b) (hb : b < 2 ^ 63) :
    (query storage (window a b)).entries.Perm
      ((storage.entries.filter (Selected a b ·)).map convertToResponse) :=
  (query_window_perm storage ha hab hb).map convertToResponse

/-! The seconds of a window are in order below the overflow and above it. -/

theorem selected_iff_within (ha : 0 < a) (hab : a ≤ b) (hb : b < maxUnixTime) :
    Selected a b entry ↔ Within a b entry := by
  rw [Selected, Within, unixTime_eq ha (hab.trans_lt hb), unixTime_eq (ha.trans_le hab) hb]

theorem selected_iff_within_sub (ha : maxUnixTime ≤ a) (hab : a ≤ b) (hb : b < 2 ^ 63) :
    Selected a b entry ↔ Within (a - 2 ^ 64) (b - 2 ^ 64) entry := by
  rw [Selected, Within, unixTime_eq_sub ha (hab.trans_lt hb), unixTime_eq_sub (ha.trans hab) hb]

/-- A window across the overflow ends before it begins. -/
theorem not_selected (ha : 0 < a) (ha' : a < maxUnixTime) (hb : maxUnixTime ≤ b)
    (hb' : b < 2 ^ 63) : ¬ Selected a b entry := by
  rw [Selected, unixTime_eq ha ha', unixTime_eq_sub hb hb', second]
  omega

theorem filter_perm_append {α : Type*} {p q r : α → Prop} [DecidablePred p] [DecidablePred q]
    [DecidablePred r] (hr : ∀ x, r x ↔ p x ∨ q x) (hpq : ∀ x, p x → ¬ q x) (l : List α) :
    (l.filter (r ·)).Perm (l.filter (p ·) ++ l.filter (q ·)) := by
  have hp : (l.filter (r ·)).filter (p ·) = l.filter (p ·) := by
    rw [List.filter_filter]
    refine List.filter_congr fun x _ => ?_
    simp only [hr, ← Bool.decide_and, decide_eq_decide]
    exact and_iff_left_of_imp Or.inl
  have hq : (l.filter (r ·)).filter (fun x => !decide (p x)) = l.filter (q ·) := by
    rw [List.filter_filter]
    refine List.filter_congr fun x _ => ?_
    simp only [hr, ← decide_not, ← Bool.decide_and, decide_eq_decide]
    exact ⟨fun h => h.2.resolve_left h.1, fun h => ⟨fun hx => hpq x hx h, .inr h⟩⟩
  have hsplit := List.filter_append_perm (fun x => decide (p x)) (l.filter (r ·))
  rw [hp, hq] at hsplit
  exact hsplit.symm

/-- The entries of a window are those of its first part, those inside the last second of that
part, and those of the rest. -/
theorem filter_within_perm (entries : List (Audit.AuditEntry δ)) (hab : a ≤ b) (hbc : b < c) :
    (entries.filter (Within a c ·)).Perm
      (entries.filter (Within a b ·) ++ entries.filter (Within (b + 1) c ·) ++
        entries.filter (Inside b ·)) := by
  have hfirst : ∀ entry : Audit.AuditEntry δ,
      Within a c entry ↔ Within a b entry ∨ Within (b + 1) c entry ∨ Inside b entry := by
    intro entry
    unfold Within Inside second
    omega
  have hrest := filter_perm_append (r := fun entry => Within (b + 1) c entry ∨ Inside b entry)
    (fun _ => Iff.rfl) (fun entry h hin => by unfold Within Inside second at *; omega) entries
  refine (filter_perm_append hfirst ?_ entries).trans ?_
  · intro entry h hout
    unfold Within Inside second at *
    omega
  · rw [List.append_assoc]
    exact hrest.append_left _

theorem within_iff_reported_iff (hab : a ≤ b) :
    (Within a b entry ↔ Reported a b entry) ↔ ¬ Inside b entry := by
  have hreported : (convertToResponse entry).timestamp = entry.timestamp / second := rfl
  rw [Reported, hreported]
  unfold Within Inside second
  omega

theorem perm_append_self_iff {α : Type*} {l l' : List α} : l.Perm (l ++ l') ↔ l' = [] := by
  have h : (l ++ []).Perm (l ++ l') ↔ [].Perm l' := List.perm_append_left_iff l
  rwa [List.append_nil, List.nil_perm] at h

/-- The windows from `a` to `b` and from `b + 1` to `c` return what the one from `a` to `c`
does. -/
def Tile (storage : Storage δ) (a b c : ℤ) : Prop :=
  ((query storage (window a b)).entries ++ (query storage (window (b + 1) c)).entries).Perm
    (query storage (window a c)).entries

theorem tile_iff_filter (storage : Storage δ) (ha : 0 < a) (hab : a ≤ b) (hbc : b < c)
    (hc : c < 2 ^ 63) :
    Tile storage a b c ↔
      ((storage.entries.filter (Selected a b ·) ++
          storage.entries.filter (Selected (b + 1) c ·)).map convertToResponse).Perm
        ((storage.entries.filter (Selected a c ·)).map convertToResponse) := by
  have hfirst := query_entries_perm storage ha hab (hbc.trans hc)
  have hrest := query_entries_perm storage (a := b + 1) (by omega) hbc hc
  have hall := query_entries_perm storage ha (hab.trans hbc.le) hc
  rw [Tile, (hfirst.append hrest).congr_left, hall.congr_right, List.map_append]

theorem tile_iff_of_within (storage : Storage δ) (ha : 0 < a) (hab : a ≤ b) (hbc : b < c)
    (hc : c < 2 ^ 63) {d : ℤ}
    (hselected : ∀ x y (entry : Audit.AuditEntry δ), a ≤ x → x ≤ y → y ≤ c →
      (Selected x y entry ↔ Within (x - d) (y - d) entry)) :
    Tile storage a b c ↔ ∀ entry ∈ storage.entries, ¬ Inside (b - d) entry := by
  have hfilter : ∀ x y, a ≤ x → x ≤ y → y ≤ c → storage.entries.filter (Selected x y ·) =
      storage.entries.filter (Within (x - d) (y - d) ·) := fun x y hx hxy hy =>
    List.filter_congr fun entry _ => by rw [decide_eq_decide]; exact hselected x y entry hx hxy hy
  have hsplit := (filter_within_perm storage.entries (sub_le_sub_right hab d)
    (sub_lt_sub_right hbc d)).map convertToResponse
  rw [List.map_append] at hsplit
  rw [tile_iff_filter storage ha hab hbc hc, hfilter a b le_rfl hab hbc.le,
    hfilter (b + 1) c (by omega) hbc le_rfl, hfilter a c le_rfl (by omega) le_rfl,
    show b + 1 - d = b - d + 1 by ring, hsplit.congr_right, perm_append_self_iff,
    List.map_eq_nil_iff, List.filter_eq_nil_iff]
  simp only [decide_eq_true_iff]

/-- The entries for which consecutive windows do not tile: below the overflow those inside the
last second of the first window; across it, where the whole window is empty, those that a part
of it has; above it again those inside a second. -/
def Missed (a b c : ℤ) (entry : Audit.AuditEntry δ) : Prop :=
  if c < maxUnixTime then Inside b entry
  else if a < maxUnixTime then Selected a b entry ∨ Selected (b + 1) c entry
  else Inside (b - 2 ^ 64) entry

/-- The entries that a window has, or has not, against the second reported for them. -/
def Misreported (a b : ℤ) (entry : Audit.AuditEntry δ) : Prop :=
  if b < maxUnixTime then Inside b entry else Selected a b entry ∨ Reported a b entry

theorem tile_iff (storage : Storage δ) (ha : 0 < a) (hab : a ≤ b) (hbc : b < c)
    (hc : c < 2 ^ 63) :
    Tile storage a b c ↔ ∀ entry ∈ storage.entries, ¬ Missed a b c entry := by
  unfold Missed
  by_cases hlow : c < maxUnixTime
  · simp only [if_pos hlow]
    have hiff := tile_iff_of_within storage ha hab hbc hc (d := 0) fun x y entry hx hxy hy => by
      rw [sub_zero, sub_zero]
      exact selected_iff_within (ha.trans_le hx) hxy (hy.trans_lt hlow)
    rwa [sub_zero] at hiff
  · simp only [if_neg hlow]
    by_cases hacross : a < maxUnixTime
    · simp only [if_pos hacross]
      have hempty : storage.entries.filter (Selected a c ·) = [] :=
        List.filter_eq_nil_iff.mpr fun entry _ => by
          simpa using not_selected ha hacross (not_lt.mp hlow) hc
      rw [tile_iff_filter storage ha hab hbc hc, hempty, List.map_nil, List.perm_nil,
        List.map_eq_nil_iff, List.append_eq_nil_iff, List.filter_eq_nil_iff,
        List.filter_eq_nil_iff, ← forall₂_and]
      simp only [decide_eq_true_iff, not_or]
    · simp only [if_neg hacross]
      exact tile_iff_of_within storage ha hab hbc hc fun x y entry hx hxy hy =>
        selected_iff_within_sub ((not_lt.mp hacross).trans hx) hxy (hy.trans_lt hc)

theorem reported_iff (ha : 0 < a) (hab : a ≤ b) (hb : b < 2 ^ 63) :
    (Selected a b entry ↔ Reported a b entry) ↔ ¬ Misreported a b entry := by
  unfold Misreported
  by_cases hlow : b < maxUnixTime
  · rw [if_pos hlow, selected_iff_within ha hab hlow, within_iff_reported_iff hab]
  · rw [if_neg hlow]
    -- the instants of the window are all before the seconds that it names
    have hdisjoint : Selected a b entry → ¬ Reported a b entry := by
      intro hsel hrep
      have hend := hsel.2
      have hstart : a ≤ entry.timestamp / second := hrep.1
      rw [unixTime_eq_sub (not_lt.mp hlow) hb] at hend
      unfold second at *
      omega
    tauto

/-- For all seconds that a request can name, consecutive windows tile, and a window has the
entries that are reported with one of its seconds, exactly if no entry is one of these
exceptions: below the overflow of `time.Unix`, the entries inside the last second of the first
window. -/
theorem windows_tile_iff (storage : Storage δ) (ha : 0 < a) (hab : a ≤ b) (hbc : b < c)
    (hc : c < 2 ^ 63) :
    (((query storage (window a b)).entries ++ (query storage (window (b + 1) c)).entries).Perm
        (query storage (window a c)).entries ↔
      ∀ entry ∈ storage.entries, ¬ Missed a b c entry) ∧
    ((∀ entry ∈ storage.entries, entry ∈ storage.query (window a b).input ↔
        a ≤ (convertToResponse entry).timestamp ∧ (convertToResponse entry).timestamp ≤ b) ↔
      ∀ entry ∈ storage.entries, ¬ Misreported a b entry) := by
  refine ⟨tile_iff storage ha hab hbc hc, forall₂_congr fun entry hmem => ?_⟩
  rw [mem_query_window_iff storage ha hab (hbc.trans hc) hmem]
  exact reported_iff ha hab (hbc.trans hc)

def lateEntry (sec : ℤ) : Audit.AuditEntry Unit :=
  { clientEntry with timestamp := sec * second + 500000000 }

/-- Two windows of which the first has no entry in its last second. -/
theorem windows_tile_apart :
    ((query (.file { entries := [lateEntry 1, lateEntry 3], maxSize := 10000 })
        (window 1 2)).entries ++
      (query (.file { entries := [lateEntry 1, lateEntry 3], maxSize := 10000 })
        (window 3 4)).entries).Perm
    (query (.file { entries := [lateEntry 1, lateEntry 3], maxSize := 10000 })
      (window 1 4)).entries := by
  refine (windows_tile_iff (.file { entries := [lateEntry 1, lateEntry 3], maxSize := 10000 })
    (a := 1) (b := 2) (c := 4) (by decide) (by decide) (by decide) (by decide)).1.mpr ?_
  intro entry hmem
  obtain rfl | rfl : entry = lateEntry 1 ∨ entry = lateEntry 3 := by
    simpa [Storage.entries] using hmem
  · rw [Missed, if_pos (by decide)]
    decide
  · rw [Missed, if_pos (by decide)]
    decide

/-- The entry is reported with the second 2, but neither the window that ends with it nor the
next has it. -/
theorem entry_between_windows : ∃ s : FileStorage Unit,
    newFileStorage.write reliableDisk (lateEntry 2) = (s, .ok ()) ∧
    (query (.file s) (window 1 2)).entries = [] ∧
    (query (.file s) (window 3 4)).entries = [] ∧
    (query (.file s) (window 1 4)).entries = [convertToResponse (lateEntry 2)] ∧
    (convertToResponse (lateEntry 2)).timestamp = 2 :=
  ⟨_, rfl, rfl, rfl, rfl, rfl⟩

end Windows

end AuditHandler

end GrpcVault
