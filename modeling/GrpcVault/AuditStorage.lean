import GrpcVault.AuditService
import GrpcVault.LruCache

/-!
# The two audit storages

Package `storage`: entries go to a file and to an index in memory, or to the memory alone,
and queries read the index, of which only the newest `maxSize` entries are kept. The two
implementations keep the same entries. Their queries run in opposite directions through the
same loop, `queryLoop`, but the filter of the one in memory leaves out the client token.
-/

namespace GrpcVault.Audit

open GoText EventSystem

variable {δ : Type}

def EntryType.text : EntryType → Str
  | .request => "request".toList
  | .response => "response".toList
  | .error => "error".toList

structure QueryOptions where
  startTime : ℤ := zeroTime
  endTime : ℤ := zeroTime
  type : Str := []
  path : Str := []
  operation : Str := []
  clientToken : Str := []
  limit : ℤ := 0
  offset : ℤ := 0

/-- `entries[len(entries)-maxSize:]` if there are more; the bounds check fails for a negative
`maxSize`. -/
def trim {α : Type} (maxSize : ℤ) (entries : List α) : Option (List α) :=
  if maxSize < entries.length then
    if 0 ≤ maxSize then some (entries.drop (entries.length - maxSize.toNat)) else none
  else some entries

/-- `entries[1:]` if there are more than `maxSize`. -/
def dropOldest {α : Type} (maxSize : ℤ) (entries : List α) : List α :=
  if maxSize < entries.length then entries.drop 1 else entries

/-- The loop of both `Query` functions, over the entries in the order of the visits. -/
def queryLoop (matching : AuditEntry δ → Bool) (opts : QueryOptions) :
    List (AuditEntry δ) → (skipped : ℤ) → (results : List (AuditEntry δ)) → List (AuditEntry δ)
  | [], _, results => results
  | entry :: entries, skipped, results =>
      if !matching entry then queryLoop matching opts entries skipped results
      else if skipped < opts.offset then queryLoop matching opts entries (skipped + 1) results
      else
        let results := results ++ [entry]
        if 0 < opts.limit ∧ opts.limit ≤ results.length then results
        else queryLoop matching opts entries skipped results

inductive StorageError where
  | marshal
  | write
  | flush
  deriving DecidableEq

/-- What the encoder and the file do in one call: which entries have a JSON text, which of the
call's lines the writer takes, and whether it is flushed. -/
structure Disk (δ : Type) where
  marshals : AuditEntry δ → Bool
  writes : ℕ → Bool
  flushes : Bool

structure FileStorage (δ : Type) where
  entries : List (AuditEntry δ)
  maxSize : ℤ

def newFileStorage : FileStorage δ := { entries := [], maxSize := 10000 }

namespace FileStorage

variable (s : FileStorage δ)

def write (disk : Disk δ) (entry : AuditEntry δ) : FileStorage δ × Except StorageError Unit :=
  if !disk.marshals entry then (s, .error .marshal)
  else if !disk.writes 0 then (s, .error .write)
  else if !disk.flushes then (s, .error .flush)
  else ({ s with entries := dropOldest s.maxSize (s.entries ++ [entry]) }, .ok ())

/-- The loop of `WriteBatch`. What precedes the entry that fails stays in the index. -/
def writeLoop (disk : Disk δ) :
    (i : ℕ) → (index batch : List (AuditEntry δ)) → List (AuditEntry δ) × Except StorageError Unit
  | _, index, [] => (index, .ok ())
  | i, index, entry :: batch =>
      if !disk.marshals entry then (index, .error .marshal)
      else if !disk.writes i then (index, .error .write)
      else writeLoop disk (i + 1) (index ++ [entry]) batch

def writeBatch (disk : Disk δ) (batch : List (AuditEntry δ)) :
    Option (FileStorage δ × Except StorageError Unit) :=
  match writeLoop disk 0 s.entries batch with
  | (entries, .error e) => some ({ s with entries }, .error e)
  | (entries, .ok ()) =>
      if !disk.flushes then some ({ s with entries }, .error .flush)
      else
        match trim s.maxSize entries with
        | none => none
        | some entries => some ({ s with entries }, .ok ())

def matchesQuery (entry : AuditEntry δ) (opts : QueryOptions) : Bool :=
  if opts.startTime ≠ zeroTime ∧ entry.timestamp < opts.startTime then false
  else if opts.endTime ≠ zeroTime ∧ opts.endTime < entry.timestamp then false
  else if opts.type ≠ [] ∧ entry.type.text ≠ opts.type then false
  else if opts.path ≠ [] ∧ entry.request.path ≠ opts.path then false
  else if opts.operation ≠ [] ∧ entry.request.operation ≠ opts.operation then false
  else if opts.clientToken ≠ [] ∧ entry.auth.clientToken ≠ opts.clientToken then false
  else true

/-- Oldest entries first. -/
def query (opts : QueryOptions) : List (AuditEntry δ) :=
  queryLoop (fun entry => matchesQuery entry opts) opts s.entries 0 []

def count (opts : QueryOptions) : ℕ := s.entries.countP fun entry => matchesQuery entry opts

end FileStorage

structure MemoryStorage (δ : Type) where
  entries : List (AuditEntry δ)
  maxSize : ℤ

def newMemoryStorage (maxSize : ℤ) : MemoryStorage δ := { entries := [], maxSize }

namespace MemoryStorage

variable (s : MemoryStorage δ)

def write (entry : AuditEntry δ) : MemoryStorage δ :=
  { s with entries := dropOldest s.maxSize (s.entries ++ [entry]) }

def writeBatch (batch : List (AuditEntry δ)) : Option (MemoryStorage δ) :=
  match trim s.maxSize (s.entries ++ batch) with
  | none => none
  | some entries => some { s with entries }

/-- There is no filter for the client token. -/
def matchesQuery (entry : AuditEntry δ) (opts : QueryOptions) : Bool :=
  if opts.startTime ≠ zeroTime ∧ entry.timestamp < opts.startTime then false
  else if opts.endTime ≠ zeroTime ∧ opts.endTime < entry.timestamp then false
  else if opts.type ≠ [] ∧ entry.type.text ≠ opts.type then false
  else if opts.path ≠ [] ∧ entry.request.path ≠ opts.path then false
  else if opts.operation ≠ [] ∧ entry.request.operation ≠ opts.operation then false
  else true

/-- Newest entries first. -/
def query (opts : QueryOptions) : List (AuditEntry δ) :=
  queryLoop (fun entry => matchesQuery entry opts) opts s.entries.reverse 0 []

def count (opts : QueryOptions) : ℕ := s.entries.countP fun entry => matchesQuery entry opts

end MemoryStorage

inductive Call (δ : Type) where
  | write (entry : AuditEntry δ)
  | writeBatch (batch : List (AuditEntry δ))

def FileStorage.step : Step (FileStorage δ) (Disk δ × Call δ) (Except StorageError Unit)
  | s, (disk, .write entry) => some (s.write disk entry)
  | s, (disk, .writeBatch batch) => s.writeBatch disk batch

def MemoryStorage.step : Step (MemoryStorage δ) (Call δ) Unit
  | s, .write entry => some (s.write entry, ())
  | s, .writeBatch batch => (s.writeBatch batch).map fun s => (s, ())

/-- What a page shows of the entries that match: `offset` of them are passed over, and then
at most `limit` are shown, or all if the limit is not positive. -/
def page (opts : QueryOptions) (found : List (AuditEntry δ)) : List (AuditEntry δ) :=
  if 0 < opts.limit then (found.drop opts.offset.toNat).take opts.limit.toNat
  else found.drop opts.offset.toNat

section Query

variable {matching : AuditEntry δ → Bool} {opts : QueryOptions} {entries results : List (AuditEntry δ)}
  {skipped : ℤ}

theorem queryLoop_unlimited (hlimit : opts.limit ≤ 0) :
    queryLoop matching opts entries skipped results =
      results ++ (entries.filter matching).drop (opts.offset - skipped).toNat := by
  induction entries generalizing skipped results with
  | nil => simp [queryLoop]
  | cons entry entries ih =>
      rw [queryLoop]
      by_cases hmatch : matching entry = true
      · by_cases hskip : skipped < opts.offset
        · have hto : (opts.offset - skipped).toNat = (opts.offset - (skipped + 1)).toNat + 1 := by
            omega
          simp [hmatch, hskip, ih, hto]
        · have hto : (opts.offset - skipped).toNat = 0 := by omega
          simp [hmatch, hskip, ih, hto, not_lt.mpr hlimit]
      · simp [hmatch, ih]

theorem queryLoop_limited (hlimit : results.length < opts.limit) :
    queryLoop matching opts entries skipped results =
      results ++ ((entries.filter matching).drop (opts.offset - skipped).toNat).take
        (opts.limit.toNat - results.length) := by
  induction entries generalizing skipped results with
  | nil => simp [queryLoop]
  | cons entry entries ih =>
      rw [queryLoop]
      by_cases hmatch : matching entry = true
      · by_cases hskip : skipped < opts.offset
        · have hto : (opts.offset - skipped).toNat = (opts.offset - (skipped + 1)).toNat + 1 := by
            omega
          simp [hmatch, hskip, ih hlimit, hto]
        · have hto : (opts.offset - skipped).toNat = 0 := by omega
          have hpos : 0 < opts.limit := by omega
          by_cases hlast : opts.limit ≤ (results ++ [entry]).length
          · have hone : opts.limit.toNat - results.length = 1 := by
              simp only [List.length_append, List.length_singleton] at hlast
              omega
            simp only [hmatch, hskip, hpos, hlast, hto, hone, Bool.not_true, Bool.false_eq_true,
              if_false, if_true, and_self, List.filter_cons_of_pos, List.drop_zero, List.take_one,
              List.head?_cons, Option.toList_some]
          · have hnext : opts.limit.toNat - results.length =
                opts.limit.toNat - (results ++ [entry]).length + 1 := by
              simp only [List.length_append, List.length_singleton] at hlast ⊢
              omega
            simp only [hmatch, hskip, hpos, hlast, Bool.not_true, Bool.false_eq_true, if_false,
              and_false]
            rw [ih (not_le.mp hlast), hto, hnext, List.filter_cons_of_pos hmatch]
            simp
      · simp [hmatch, ih hlimit]

/-- The loop shows the page of the matching entries, in the order of its visits. -/
theorem queryLoop_eq_page (matching : AuditEntry δ → Bool) (opts : QueryOptions)
    (entries : List (AuditEntry δ)) :
    queryLoop matching opts entries 0 [] = page opts (entries.filter matching) := by
  unfold page
  by_cases hlimit : 0 < opts.limit
  · rw [queryLoop_limited (by simpa using hlimit), if_pos hlimit]
    simp
  · rw [queryLoop_unlimited (not_lt.mp hlimit), if_neg hlimit]
    simp

end Query

/-- The entry passes every filter but that for the client token. -/
structure QueryOptions.Selects (opts : QueryOptions) (entry : AuditEntry δ) : Prop where
  startTime : opts.startTime ≠ zeroTime → opts.startTime ≤ entry.timestamp
  endTime : opts.endTime ≠ zeroTime → entry.timestamp ≤ opts.endTime
  type : opts.type ≠ [] → entry.type.text = opts.type
  path : opts.path ≠ [] → entry.request.path = opts.path
  operation : opts.operation ≠ [] → entry.request.operation = opts.operation

structure QueryOptions.Satisfied (opts : QueryOptions) (entry : AuditEntry δ) : Prop extends
    opts.Selects entry where
  clientToken : opts.clientToken ≠ [] → entry.auth.clientToken = opts.clientToken

variable {entry : AuditEntry δ} {opts : QueryOptions}

theorem MemoryStorage.matchesQuery_iff : matchesQuery entry opts = true ↔ opts.Selects entry := by
  unfold matchesQuery
  constructor
  · intro h
    split_ifs at h with h₁ h₂ h₃ h₄ h₅
    constructor
    · exact fun hset => not_lt.mp fun hlt => h₁ ⟨hset, hlt⟩
    · exact fun hset => not_lt.mp fun hlt => h₂ ⟨hset, hlt⟩
    · exact fun hset => not_not.mp fun hne => h₃ ⟨hset, hne⟩
    · exact fun hset => not_not.mp fun hne => h₄ ⟨hset, hne⟩
    · exact fun hset => not_not.mp fun hne => h₅ ⟨hset, hne⟩
  · rintro ⟨h₁, h₂, h₃, h₄, h₅⟩
    rw [if_neg fun h => not_lt.mpr (h₁ h.1) h.2, if_neg fun h => not_lt.mpr (h₂ h.1) h.2,
      if_neg fun h => h.2 (h₃ h.1), if_neg fun h => h.2 (h₄ h.1), if_neg fun h => h.2 (h₅ h.1)]

theorem ite_false_and {c : Prop} [Decidable c] (x y : Bool) :
    (if c then false else x && y) = ((if c then false else x) && y) := by
  split_ifs
  · rfl
  · rfl

theorem FileStorage.matchesQuery_eq (entry : AuditEntry δ) (opts : QueryOptions) :
    matchesQuery entry opts = (MemoryStorage.matchesQuery entry opts &&
      decide (opts.clientToken ≠ [] → entry.auth.clientToken = opts.clientToken)) := by
  have hlast : (if opts.clientToken ≠ [] ∧ entry.auth.clientToken ≠ opts.clientToken then false
      else true) =
        (true && decide (opts.clientToken ≠ [] → entry.auth.clientToken = opts.clientToken)) := by
    split_ifs with h
    · rw [decide_eq_false fun himp => h.2 (himp h.1)]
      rfl
    · rw [decide_eq_true fun hset => not_not.mp fun hne => h ⟨hset, hne⟩]
      rfl
  unfold matchesQuery MemoryStorage.matchesQuery
  rw [hlast]
  simp only [ite_false_and]

theorem FileStorage.matchesQuery_iff : matchesQuery entry opts = true ↔ opts.Satisfied entry := by
  rw [matchesQuery_eq, Bool.and_eq_true, MemoryStorage.matchesQuery_iff, decide_eq_true_iff]
  exact ⟨fun h => ⟨h.1, h.2⟩, fun h => ⟨h.toSelects, h.clientToken⟩⟩

theorem FileStorage.query_unpaged (s : FileStorage δ) (hlimit : opts.limit = 0)
    (hoffset : opts.offset = 0) :
    s.query opts = s.entries.filter fun entry => matchesQuery entry opts := by
  rw [query, queryLoop_eq_page]
  simp [page, hlimit, hoffset]

theorem MemoryStorage.query_unpaged (s : MemoryStorage δ) (hlimit : opts.limit = 0)
    (hoffset : opts.offset = 0) :
    s.query opts = (s.entries.filter fun entry => matchesQuery entry opts).reverse := by
  rw [query, queryLoop_eq_page]
  simp [page, hlimit, hoffset]

theorem FileStorage.writeLoop_eq_ok {disk : Disk δ} {i : ℕ} {index index' batch : List (AuditEntry δ)}
    (h : writeLoop disk i index batch = (index', .ok ())) : index' = index ++ batch := by
  induction batch generalizing i index with
  | nil =>
      cases h
      simp
  | cons entry batch ih =>
      rw [writeLoop] at h
      split_ifs at h
      · cases h
      · cases h
      · rw [ih h]
        simp

theorem FileStorage.write_eq_ok {s s' : FileStorage δ} {disk : Disk δ}
    (h : s.write disk entry = (s', .ok ())) :
    s' = { s with entries := dropOldest s.maxSize (s.entries ++ [entry]) } := by
  unfold write at h
  split_ifs at h <;> cases h
  rfl

theorem FileStorage.writeBatch_eq_ok {s s' : FileStorage δ} {disk : Disk δ}
    {batch : List (AuditEntry δ)} (h : s.writeBatch disk batch = some (s', .ok ())) :
    ∃ entries, trim s.maxSize (s.entries ++ batch) = some entries ∧ s' = { s with entries } := by
  unfold writeBatch at h
  cases hloop : writeLoop disk 0 s.entries batch with
  | mk index result =>
      cases result with
      | error e => simp [hloop] at h
      | ok u =>
          obtain rfl := writeLoop_eq_ok hloop
          simp only [hloop] at h
          split_ifs at h
          · cases h
          · cases htrim : trim s.maxSize (s.entries ++ batch) with
            | none => simp [htrim] at h
            | some entries =>
                simp only [htrim, Option.some.injEq, Prod.mk.injEq, and_true] at h
                exact ⟨entries, rfl, h.symm⟩

def Alike (file : FileStorage δ) (memory : MemoryStorage δ) : Prop :=
  file.entries = memory.entries ∧ file.maxSize = memory.maxSize

theorem Alike.step {file file' : FileStorage δ} {memory memory' : MemoryStorage δ}
    {disk : Disk δ} {call : Call δ} (h : Alike file memory)
    (hfile : FileStorage.step file (disk, call) = some (file', .ok ()))
    (hmemory : MemoryStorage.step memory call = some (memory', ())) : Alike file' memory' := by
  obtain ⟨hentries, hsize⟩ := h
  cases call with
  | write entry =>
      obtain rfl := FileStorage.write_eq_ok (Option.some.inj hfile)
      cases hmemory
      exact ⟨by rw [MemoryStorage.write, hentries, hsize], hsize⟩
  | writeBatch batch =>
      obtain ⟨entries, htrim, rfl⟩ := FileStorage.writeBatch_eq_ok hfile
      rw [hentries, hsize] at htrim
      simp only [MemoryStorage.step, MemoryStorage.writeBatch, htrim, Option.map_some,
        Option.some.injEq, Prod.mk.injEq, and_true] at hmemory
      subst hmemory
      exact ⟨rfl, hsize⟩

theorem Alike.run {file file' : FileStorage δ} {memory memory' : MemoryStorage δ}
    {calls : List (Disk δ × Call δ)} (h : Alike file memory)
    (hfile : Run FileStorage.step file (calls.map fun c => (c, .ok ())) file')
    (hmemory : Run MemoryStorage.step memory (calls.map fun c => (c.2, ())) memory') :
    Alike file' memory' := by
  induction calls generalizing file memory with
  | nil =>
      cases hfile
      cases hmemory
      exact h
  | cons c calls ih =>
      obtain ⟨file₁, hf, hfile⟩ := hfile
      obtain ⟨memory₁, hm, hmemory⟩ := hmemory
      exact ih (h.step hf hm) hfile hmemory

/-- After the same successful calls on a file storage and a storage in memory of the same
size, a query without paging finds the same entries in both, as many as are counted, and only
such as it asks for, if and only if the entries that it would select for any token all have
the token that it asks for. -/
theorem storages_agree_iff {maxSize : ℤ} {calls : List (Disk δ × Call δ)} {file : FileStorage δ}
    {memory : MemoryStorage δ}
    (hfile : Run FileStorage.step { entries := [], maxSize } (calls.map fun c => (c, .ok ())) file)
    (hmemory : Run MemoryStorage.step (newMemoryStorage maxSize) (calls.map fun c => (c.2, ()))
      memory) (opts : QueryOptions) (hlimit : opts.limit = 0) (hoffset : opts.offset = 0) :
    ((file.query opts).Perm (memory.query opts) ∧ file.count opts = memory.count opts ∧
      (∀ entry ∈ file.query opts, opts.Satisfied entry) ∧
      ∀ entry ∈ memory.query opts, opts.Satisfied entry) ↔
    (opts.clientToken ≠ [] → ∀ entry ∈ memory.entries, opts.Selects entry →
      entry.auth.clientToken = opts.clientToken) := by
  have halike : Alike file memory := Alike.run ⟨rfl, rfl⟩ hfile hmemory
  constructor
  · rintro ⟨_, _, _, hsatisfied⟩ htoken entry hmem hselects
    rw [memory.query_unpaged hlimit hoffset] at hsatisfied
    have hquery : entry ∈ (memory.entries.filter fun entry =>
        MemoryStorage.matchesQuery entry opts).reverse := by
      rw [List.mem_reverse, List.mem_filter]
      exact ⟨hmem, MemoryStorage.matchesQuery_iff.mpr hselects⟩
    exact (hsatisfied entry hquery).clientToken htoken
  · intro htoken
    have hmatches : ∀ entry ∈ memory.entries,
        FileStorage.matchesQuery entry opts = MemoryStorage.matchesQuery entry opts := by
      intro entry hmem
      rw [FileStorage.matchesQuery_eq, Bool.and_eq_left_iff_imp, decide_eq_true_iff]
      intro hm hset
      exact htoken hset entry hmem (MemoryStorage.matchesQuery_iff.mp hm)
    have hfilter := List.filter_congr hmatches
    rw [file.query_unpaged hlimit hoffset, memory.query_unpaged hlimit hoffset, halike.1, hfilter]
    have hsatisfied : ∀ entry ∈ memory.entries.filter
        (fun entry => MemoryStorage.matchesQuery entry opts), opts.Satisfied entry := by
      intro entry hmem
      obtain ⟨hentry, hm⟩ := List.mem_filter.mp hmem
      exact FileStorage.matchesQuery_iff.mp ((hmatches entry hentry).trans hm)
    refine ⟨(List.reverse_perm _).symm, ?_, hsatisfied, ?_⟩
    · rw [FileStorage.count, MemoryStorage.count, halike.1]
      exact List.countP_congr fun entry hmem => by rw [hmatches entry hmem]
    · intro entry hmem
      exact hsatisfied entry (List.mem_reverse.mp hmem)

def reliableDisk : Disk δ := { marshals := fun _ => true, writes := fun _ => true, flushes := true }

def clientEntry : AuditEntry Unit :=
  logError ['1'] 0 ⟨['r'], ['t'], ['a'], [], ['g'], ['p'], ['e'], ∅⟩

def clientCalls : List (Disk Unit × Call Unit) :=
  [(reliableDisk, .write clientEntry), (reliableDisk, .writeBatch [clientEntry])]

/-- A query for the entries of the only client. -/
theorem storages_agree_single : ∃ (file : FileStorage Unit) (memory : MemoryStorage Unit),
    Run FileStorage.step { entries := [], maxSize := 1 } (clientCalls.map fun c => (c, .ok ()))
      file ∧
    Run MemoryStorage.step (newMemoryStorage 1) (clientCalls.map fun c => (c.2, ())) memory ∧
    (file.query { clientToken := ['t'] }).Perm (memory.query { clientToken := ['t'] }) := by
  have hfile : Run FileStorage.step { entries := [], maxSize := 1 }
      (clientCalls.map fun c => (c, .ok ())) { entries := [clientEntry], maxSize := 1 } :=
    ⟨_, rfl, _, rfl, rfl⟩
  have hmemory : Run MemoryStorage.step (newMemoryStorage 1) (clientCalls.map fun c => (c.2, ()))
      { entries := [clientEntry], maxSize := 1 } := ⟨_, rfl, _, rfl, rfl⟩
  refine ⟨_, _, hfile, hmemory, ((storages_agree_iff hfile hmemory _ rfl rfl).mpr ?_).1⟩
  intro _ entry hmem _
  rw [List.mem_singleton.mp hmem]
  rfl

/-- A query for another client finds nothing in the file storage, and in memory the entry of
the client with the token `t`. -/
theorem memory_ignores_token : ∃ (file : FileStorage Unit) (memory : MemoryStorage Unit),
    Run FileStorage.step newFileStorage [((reliableDisk, .write clientEntry), .ok ())] file ∧
    Run MemoryStorage.step (newMemoryStorage 10000) [(.write clientEntry, ())] memory ∧
    file.query { clientToken := ['u'] } = [] ∧
    memory.query { clientToken := ['u'] } = [clientEntry] ∧
    file.count { clientToken := ['u'] } = 0 ∧ memory.count { clientToken := ['u'] } = 1 :=
  ⟨_, _, ⟨_, rfl, rfl⟩, ⟨_, rfl, rfl⟩, rfl, rfl, rfl, rfl⟩

end GrpcVault.Audit
