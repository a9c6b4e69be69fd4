import GrpcVault.AuditStorage

/-!
# What the storages retain

A single write drops one entry too many, a batch cuts the index once. As long as every call
succeeds, both leave the last `maxSize` of all entries written so far, and a batch comes to the
same as its entries written one by one. The file behind a file storage is followed beside it:
every entry is a line of JSON text, held in the writer until it is flushed. A batch that fails
leaves the entries before its failure in the index and does not cut it.
-/

namespace GrpcVault.Audit

open GoText EventSystem

variable {δ : Type}

/-- The file, and what the buffered writer in front of it holds back. -/
structure LogFile where
  content : Str
  buffered : Str

namespace LogFile

def writeLine (log : LogFile) (line : Str) : LogFile :=
  { log with buffered := log.buffered ++ line ++ ['\n'] }

def flush (log : LogFile) : LogFile where
  content := log.content ++ log.buffered
  buffered := []

end LogFile

namespace FileStorage

variable (json : AuditEntry δ → Str) (disk : Disk δ)

/-- What `Write` does to the file. What the writer takes of a line that fails is left out. -/
def writeLog (log : LogFile) (entry : AuditEntry δ) : LogFile :=
  if !disk.marshals entry then log
  else if !disk.writes 0 then log
  else
    let log := log.writeLine (json entry)
    if !disk.flushes then log else log.flush

/-- What `WriteBatch` does to the file. The loop writes the line of an entry and then puts it
into the index, so the entries that it adds are the ones whose lines have been written. -/
def writeBatchLog (log : LogFile) (batch : List (AuditEntry δ)) : LogFile :=
  let (added, result) := writeLoop disk 0 [] batch
  let log := added.foldl (fun log entry => log.writeLine (json entry)) log
  match result with
  | .error _ => log
  | .ok () => if !disk.flushes then log else log.flush

def callLog (log : LogFile) : Disk δ × Call δ → LogFile
  | (disk, .write entry) => writeLog json disk log entry
  | (disk, .writeBatch batch) => writeBatchLog json disk log batch

def logAfter (content : Str) (calls : List (Disk δ × Call δ)) : LogFile :=
  calls.foldl (callLog json) { content, buffered := [] }

end FileStorage

/-- Nothing fails in a call with these entries: each has a JSON text, the writer takes every
line and is flushed. -/
structure Disk.Succeeds (disk : Disk δ) (entries : List (AuditEntry δ)) : Prop where
  marshals : ∀ entry ∈ entries, disk.marshals entry = true
  writes : ∀ i < entries.length, disk.writes i = true
  flushes : disk.flushes = true

namespace Call

def entries : Call δ → List (AuditEntry δ)
  | .write entry => [entry]
  | .writeBatch batch => batch

def index (maxSize : ℤ) (index : List (AuditEntry δ)) : Call δ → Option (List (AuditEntry δ))
  | .write entry => some (dropOldest maxSize (index ++ [entry]))
  | .writeBatch batch => trim maxSize (index ++ batch)

end Call

def written (calls : List (Call δ)) : List (AuditEntry δ) := calls.flatMap Call.entries

section Index

variable {maxSize : ℤ}

/-- To extend a list and keep its last `n`, the last `n` of it are enough. -/
theorem rtake_rtake_append {α : Type*} (l m : List α) (n : ℕ) :
    (l.rtake n ++ m).rtake n = (l ++ m).rtake n := by
  unfold List.rtake
  rw [← List.drop_append_of_le_length (Nat.sub_le _ _), List.drop_drop]
  congr 1
  rw [List.length_drop, List.length_append]
  omega

theorem trim_eq {l : List (AuditEntry δ)} (hsize : 0 ≤ maxSize) :
    trim maxSize l = some (l.rtake maxSize.toNat) := by
  unfold trim List.rtake
  split_ifs with hlt
  · rfl
  · have hzero : l.length - maxSize.toNat = 0 := by omega
    rw [hzero, List.drop_zero]

theorem dropOldest_eq {l : List (AuditEntry δ)} (hsize : 0 ≤ maxSize)
    (hl : l.length ≤ maxSize.toNat + 1) : dropOldest maxSize l = l.rtake maxSize.toNat := by
  unfold dropOldest List.rtake
  split_ifs with hlt
  · have hone : l.length - maxSize.toNat = 1 := by omega
    rw [hone]
  · have hzero : l.length - maxSize.toNat = 0 := by omega
    rw [hzero, List.drop_zero]

/-- From the last `maxSize` of the entries `w`, a call goes on to the last `maxSize` of them
and its own. -/
theorem Call.index_retained (hsize : 0 ≤ maxSize) (w : List (AuditEntry δ)) (call : Call δ) :
    call.index maxSize (w.rtake maxSize.toNat) =
      some ((w ++ call.entries).rtake maxSize.toNat) := by
  cases call with
  | write entry =>
      have hl : (w.rtake maxSize.toNat ++ [entry]).length ≤ maxSize.toNat + 1 := by
        rw [List.length_append, List.length_singleton, List.rtake, List.length_drop]
        omega
      rw [index, dropOldest_eq hsize hl, rtake_rtake_append]
      rfl
  | writeBatch batch =>
      rw [index, trim_eq hsize, rtake_rtake_append]
      rfl

end Index

namespace FileStorage

variable {s s' : FileStorage δ} {disk : Disk δ}

theorem writeLoop_ok_iff (disk : Disk δ) (i : ℕ) (index batch : List (AuditEntry δ)) :
    (writeLoop disk i index batch).2 = .ok () ↔
      (∀ entry ∈ batch, disk.marshals entry = true) ∧
        ∀ j < batch.length, disk.writes (i + j) = true := by
  induction batch generalizing i index with
  | nil => simp [writeLoop]
  | cons entry batch ih =>
      rw [writeLoop, List.forall_mem_cons, List.length_cons, Nat.forall_lt_succ_left]
      by_cases hm : disk.marshals entry = true
      · by_cases hw : disk.writes i = true
        · simp [hm, hw, ih, Nat.add_right_comm, ← Nat.add_assoc]
        · simp [hm, hw]
      · simp [hm]

theorem write_ok_iff {entry : AuditEntry δ} :
    s.write disk entry = (s', .ok ()) ↔
      disk.Succeeds [entry] ∧
        s' = { s with entries := dropOldest s.maxSize (s.entries ++ [entry]) } := by
  constructor
  · intro h
    refine ⟨?_, write_eq_ok h⟩
    unfold write at h
    split_ifs at h with hm hw hf
    · cases h
    · cases h
    · cases h
    · exact ⟨by simpa using hm, by simpa using hw, by simpa using hf⟩
  · rintro ⟨hd, rfl⟩
    have hm := hd.marshals entry List.mem_cons_self
    have hw := hd.writes 0 Nat.one_pos
    simp [write, hm, hw, hd.flushes]

theorem writeBatch_ok_iff {batch : List (AuditEntry δ)} :
    s.writeBatch disk batch = some (s', .ok ()) ↔
      disk.Succeeds batch ∧
        ∃ entries, trim s.maxSize (s.entries ++ batch) = some entries ∧
          s' = { s with entries } := by
  have hloop_iff := writeLoop_ok_iff disk 0 s.entries batch
  simp only [Nat.zero_add] at hloop_iff
  cases hloop : writeLoop disk 0 s.entries batch with
  | mk index result =>
      rw [hloop] at hloop_iff
      constructor
      · intro h
        refine ⟨?_, writeBatch_eq_ok h⟩
        rw [writeBatch, hloop] at h
        cases result with
        | error e => simp at h
        | ok u =>
            obtain ⟨hm, hw⟩ := hloop_iff.mp rfl
            refine ⟨hm, hw, ?_⟩
            by_contra hf
            simp [Bool.of_not_eq_true hf] at h
      · rintro ⟨hd, entries, htrim, rfl⟩
        obtain rfl : result = .ok () := hloop_iff.mpr ⟨hd.marshals, hd.writes⟩
        obtain rfl := writeLoop_eq_ok hloop
        simp [writeBatch, hloop, hd.flushes, htrim]

theorem step_ok_iff {call : Call δ} :
    step s (disk, call) = some (s', .ok ()) ↔
      disk.Succeeds call.entries ∧
        ∃ entries, call.index s.maxSize s.entries = some entries ∧ s' = { s with entries } := by
  cases call with
  | write entry => simp [step, Call.entries, Call.index, write_ok_iff]
  | writeBatch batch => exact writeBatch_ok_iff

end FileStorage

theorem MemoryStorage.step_iff {s s' : MemoryStorage δ} {call : Call δ} :
    step s call = some (s', ()) ↔
      ∃ entries, call.index s.maxSize s.entries = some entries ∧ s' = { s with entries } := by
  cases call with
  | write entry => simp [step, write, Call.index, eq_comm]
  | writeBatch batch =>
      simp only [step, writeBatch, Call.index]
      cases trim s.maxSize (s.entries ++ batch) <;> simp [eq_comm]

section Runs

variable {maxSize : ℤ} {w : List (AuditEntry δ)}

def FileStorage.newest (maxSize : ℤ) (w : List (AuditEntry δ)) : FileStorage δ where
  entries := w.rtake maxSize.toNat
  maxSize := maxSize

def MemoryStorage.newest (maxSize : ℤ) (w : List (AuditEntry δ)) : MemoryStorage δ where
  entries := w.rtake maxSize.toNat
  maxSize := maxSize

theorem FileStorage.newest_nil (maxSize : ℤ) :
    newest maxSize ([] : List (AuditEntry δ)) = { entries := [], maxSize } := by
  rw [newest, List.rtake_nil]

theorem MemoryStorage.newest_nil (maxSize : ℤ) :
    newest maxSize ([] : List (AuditEntry δ)) = newMemoryStorage maxSize := by
  rw [newest, List.rtake_nil, newMemoryStorage]

theorem FileStorage.step_newest_iff (hsize : 0 ≤ maxSize) (w : List (AuditEntry δ))
    (c : Disk δ × Call δ) (file : FileStorage δ) :
    step (newest maxSize w) c = some (file, .ok ()) ↔
      c.1.Succeeds c.2.entries ∧ file = newest maxSize (w ++ c.2.entries) := by
  rw [step_ok_iff, newest, Call.index_retained hsize]
  simp [newest]

theorem MemoryStorage.step_newest_iff (hsize : 0 ≤ maxSize) (w : List (AuditEntry δ))
    (call : Call δ) (memory : MemoryStorage δ) :
    step (newest maxSize w) call = some (memory, ()) ↔
      True ∧ memory = newest maxSize (w ++ call.entries) := by
  rw [step_iff, newest, Call.index_retained hsize]
  simp [newest]

theorem FileStorage.run_ok_iff (hsize : 0 ≤ maxSize) (calls : List (Disk δ × Call δ))
    {file : FileStorage δ} :
    Run step (newest maxSize w) (calls.map fun c => (c, .ok ())) file ↔
      (∀ c ∈ calls, c.1.Succeeds c.2.entries) ∧
        file = newest maxSize (w ++ written (calls.map Prod.snd)) := by
  rw [written, List.flatMap_map]
  exact run_accumulates_iff _ _ _ (step_newest_iff hsize)

theorem MemoryStorage.run_iff (hsize : 0 ≤ maxSize) (calls : List (Call δ))
    {memory : MemoryStorage δ} :
    Run step (newest maxSize w) (calls.map fun c => (c, ())) memory ↔
      memory = newest maxSize (w ++ written calls) := by
  rw [run_accumulates_iff _ _ _ (step_newest_iff hsize)]
  exact and_iff_right fun _ _ => trivial

end Runs

section Lines

variable (json : AuditEntry δ → Str)

def lines (entries : List (AuditEntry δ)) : Str := entries.flatMap fun entry => json entry ++ ['\n']

namespace FileStorage

variable {disk : Disk δ} {json}

theorem writeLog_of_succeeds {content : Str} {entry : AuditEntry δ} (hd : disk.Succeeds [entry]) :
    writeLog json disk { content, buffered := [] } entry =
      { content := content ++ lines json [entry], buffered := [] } := by
  have hm := hd.marshals entry List.mem_cons_self
  have hw := hd.writes 0 Nat.one_pos
  simp [writeLog, hm, hw, hd.flushes, LogFile.writeLine, LogFile.flush, lines]

theorem foldl_writeLine (log : LogFile) (entries : List (AuditEntry δ)) :
    entries.foldl (fun log entry => log.writeLine (json entry)) log =
      { log with buffered := log.buffered ++ lines json entries } := by
  induction entries generalizing log with
  | nil => simp [lines]
  | cons entry entries ih =>
      rw [List.foldl_cons, ih]
      simp [LogFile.writeLine, lines]

theorem writeBatchLog_of_succeeds {content : Str} {batch : List (AuditEntry δ)}
    (hd : disk.Succeeds batch) :
    writeBatchLog json disk { content, buffered := [] } batch =
      { content := content ++ lines json batch, buffered := [] } := by
  have hw : ∀ j < batch.length, disk.writes (0 + j) = true := by
    simpa only [Nat.zero_add] using hd.writes
  have hloop : writeLoop disk 0 [] batch = (batch, .ok ()) := by
    have hok := (writeLoop_ok_iff disk 0 [] batch).mpr ⟨hd.marshals, hw⟩
    exact Prod.ext (writeLoop_eq_ok (Prod.ext rfl hok)) hok
  simp only [writeBatchLog, hloop, foldl_writeLine]
  simp [hd.flushes, LogFile.flush]

/-- A call that succeeds appends the lines of its entries, and none stays in the writer. -/
theorem callLog_of_succeeds {content : Str} {call : Call δ} (hd : disk.Succeeds call.entries) :
    callLog json { content, buffered := [] } (disk, call) =
      { content := content ++ lines json call.entries, buffered := [] } := by
  cases call with
  | write entry => exact writeLog_of_succeeds hd
  | writeBatch batch => exact writeBatchLog_of_succeeds hd

theorem foldl_callLog {content : Str} {calls : List (Disk δ × Call δ)}
    (h : ∀ c ∈ calls, c.1.Succeeds c.2.entries) :
    calls.foldl (callLog json) { content, buffered := [] } =
      { content := content ++ lines json (written (calls.map Prod.snd)), buffered := [] } := by
  induction calls generalizing content with
  | nil => simp [lines, written]
  | cons c calls ih =>
      rw [List.forall_mem_cons] at h
      rw [List.foldl_cons, callLog_of_succeeds h.1, ih h.2]
      simp [lines, written]

end FileStorage

end Lines

/-! ## Batches and single writes -/

section Batches

variable {maxSize : ℤ}

def singleWrites (singles : List (Disk δ × AuditEntry δ)) : List (Disk δ × Call δ) :=
  singles.map fun x => (x.1, .write x.2)

/-- A batch leaves the storage and its file as the writes of its entries do, if nothing fails
in either. -/
def FileStorage.BatchIsWrites (json : AuditEntry δ → Str) (s : FileStorage δ) (log : LogFile) :
    Prop :=
  ∀ (disk : Disk δ) (singles : List (Disk δ × AuditEntry δ)),
    disk.Succeeds (singles.map Prod.snd) → (∀ x ∈ singles, x.1.Succeeds [x.2]) →
      ∃ s', s.writeBatch disk (singles.map Prod.snd) = some (s', .ok ()) ∧
        Run FileStorage.step s ((singleWrites singles).map fun c => (c, .ok ())) s' ∧
        writeBatchLog json disk log (singles.map Prod.snd) =
          (singleWrites singles).foldl (callLog json) log

def MemoryStorage.BatchIsWrites (s : MemoryStorage δ) : Prop :=
  ∀ es : List (AuditEntry δ), ∃ s', s.writeBatch es = some s' ∧
    Run MemoryStorage.step s ((es.map Call.write).map fun c => (c, ())) s'

theorem written_map_write (es : List (AuditEntry δ)) : written (es.map Call.write) = es := by
  induction es with
  | nil => rfl
  | cons entry es ih => exact congrArg (entry :: ·) ih

theorem written_singleWrites (singles : List (Disk δ × AuditEntry δ)) :
    written ((singleWrites singles).map Prod.snd) = singles.map Prod.snd := by
  have hcalls : (singleWrites singles).map Prod.snd = (singles.map Prod.snd).map Call.write := by
    simp [singleWrites]
  rw [hcalls, written_map_write]

theorem FileStorage.batchIsWrites (hsize : 0 ≤ maxSize) (json : AuditEntry δ → Str)
    (w : List (AuditEntry δ)) (content : Str) :
    BatchIsWrites json (newest maxSize w) { content, buffered := [] } := by
  intro disk singles hd hsingles
  have hcalls : ∀ c ∈ singleWrites singles, c.1.Succeeds c.2.entries := by
    intro c hc
    obtain ⟨x, hx, rfl⟩ := List.mem_map.mp hc
    exact hsingles x hx
  refine ⟨newest maxSize (w ++ singles.map Prod.snd), ?_, ?_, ?_⟩
  · exact (step_newest_iff hsize w (disk, .writeBatch _) _).mpr ⟨hd, rfl⟩
  · rw [run_ok_iff hsize, written_singleWrites]
    exact ⟨hcalls, rfl⟩
  · rw [writeBatchLog_of_succeeds hd, foldl_callLog hcalls, written_singleWrites]

theorem MemoryStorage.batchIsWrites (hsize : 0 ≤ maxSize) (w : List (AuditEntry δ)) :
    (newest maxSize w).BatchIsWrites := by
  intro es
  refine ⟨newest maxSize (w ++ es), ?_, ?_⟩
  · have hstep := (step_newest_iff hsize w (.writeBatch es) _).mpr ⟨trivial, rfl⟩
    simpa [step, Call.entries] using hstep
  · rw [run_iff hsize, written_map_write]

theorem rtake_min_length {α : Type*} (l : List α) (n : ℕ) :
    l.rtake (min n l.length) = l.rtake n := by
  unfold List.rtake
  congr 1
  omega

/-- Calls that all succeed go through. They leave the last `maxSize` of the entries written, or
all if there are fewer, and there a batch comes to the same as its entries written one by one. -/
theorem newest_retained (maxSize : ℤ) (hsize : 0 ≤ maxSize) (json : AuditEntry δ → Str)
    (content : Str) (calls : List (Disk δ × Call δ))
    (hcalls : ∀ c ∈ calls, c.1.Succeeds c.2.entries) :
    (∃ file : FileStorage δ,
      Run FileStorage.step { entries := [], maxSize } (calls.map fun c => (c, .ok ())) file ∧
      file.entries = (written (calls.map Prod.snd)).rtake
        (min maxSize.toNat (written (calls.map Prod.snd)).length) ∧
      file.BatchIsWrites json (FileStorage.logAfter json content calls)) ∧
    ∀ calls' : List (Call δ), ∃ memory : MemoryStorage δ,
      Run MemoryStorage.step (newMemoryStorage maxSize) (calls'.map fun c => (c, ())) memory ∧
      memory.entries = (written calls').rtake (min maxSize.toNat (written calls').length) ∧
      memory.BatchIsWrites := by
  constructor
  · have hrun := (FileStorage.run_ok_iff hsize calls (w := [])).mpr ⟨hcalls, rfl⟩
    rw [FileStorage.newest_nil, List.nil_append] at hrun
    refine ⟨_, hrun, (rtake_min_length _ _).symm, ?_⟩
    rw [FileStorage.logAfter, FileStorage.foldl_callLog hcalls]
    exact FileStorage.batchIsWrites hsize json _ _
  · intro calls'
    have hrun := (MemoryStorage.run_iff hsize calls' (w := [])).mpr rfl
    rw [MemoryStorage.newest_nil, List.nil_append] at hrun
    exact ⟨_, hrun, (rtake_min_length _ _).symm, MemoryStorage.batchIsWrites hsize _⟩

theorem reliableDisk_succeeds (entries : List (AuditEntry δ)) : reliableDisk.Succeeds entries :=
  ⟨fun _ _ => rfl, fun _ _ => rfl, rfl⟩

def nextEntry : AuditEntry Unit := { clientEntry with id := ['2'] }

/-- With room for two entries, a batch that follows a write drops the entry of the write. -/
theorem newest_retained_two : ∃ file : FileStorage Unit,
    Run FileStorage.step { entries := [], maxSize := 2 }
      [((reliableDisk, .write clientEntry), .ok ()),
        ((reliableDisk, .writeBatch [nextEntry, clientEntry]), .ok ())] file ∧
    file.entries = [nextEntry, clientEntry] ∧
    file.BatchIsWrites (fun entry => entry.id)
      { content := ['1', '\n', '2', '\n', '1', '\n'], buffered := [] } := by
  obtain ⟨⟨file, hrun, hentries, hbatch⟩, _⟩ := newest_retained 2 (by decide)
    (fun entry : AuditEntry Unit => entry.id) []
    [(reliableDisk, .write clientEntry), (reliableDisk, .writeBatch [nextEntry, clientEntry])]
    (fun c hc => by
      obtain rfl | rfl := by simpa using hc
      · exact reliableDisk_succeeds _
      · exact reliableDisk_succeeds _)
  exact ⟨file, hrun, hentries, hbatch⟩

end Batches

/-! ## Failed calls -/

/-- The entries of a batch up to the first that has no JSON text or whose line is not taken. -/
def Disk.accepted (disk : Disk δ) : (i : ℕ) → List (AuditEntry δ) → List (AuditEntry δ)
  | _, [] => []
  | i, entry :: batch =>
      if disk.marshals entry && disk.writes i then entry :: disk.accepted (i + 1) batch else []

/-- What a call that fails has put into the index before. -/
def Call.leftBehind (disk : Disk δ) : Call δ → List (AuditEntry δ)
  | .write _ => []
  | .writeBatch batch => disk.accepted 0 batch

namespace FileStorage

variable {s s' : FileStorage δ} {disk : Disk δ} {maxSize : ℤ}

theorem writeLoop_index (disk : Disk δ) (i : ℕ) (index batch : List (AuditEntry δ)) :
    (writeLoop disk i index batch).1 = index ++ disk.accepted i batch := by
  induction batch generalizing i index with
  | nil => simp [writeLoop, Disk.accepted]
  | cons entry batch ih =>
      rw [writeLoop, Disk.accepted]
      by_cases hm : disk.marshals entry = true
      · by_cases hw : disk.writes i = true
        · simp [hm, hw, ih]
        · simp [hm, hw]
      · simp [hm]

theorem writeBatch_error {batch : List (AuditEntry δ)} {err : StorageError}
    (h : s.writeBatch disk batch = some (s', .error err)) :
    s' = { s with entries := s.entries ++ disk.accepted 0 batch } := by
  have hindex := writeLoop_index disk 0 s.entries batch
  unfold writeBatch at h
  cases hloop : writeLoop disk 0 s.entries batch with
  | mk index result =>
      rw [hloop] at h hindex
      obtain rfl : index = s.entries ++ disk.accepted 0 batch := hindex
      cases result with
      | error e =>
          cases h
          rfl
      | ok u =>
          by_cases hf : disk.flushes = true
          · cases htrim : trim s.maxSize (s.entries ++ disk.accepted 0 batch) <;>
              simp [hf, htrim] at h
          · simp only [Bool.of_not_eq_true hf, Bool.not_false, if_true, Option.some.injEq,
              Prod.mk.injEq] at h
            exact h.1.symm

theorem step_error {call : Call δ} {err : StorageError}
    (h : step s (disk, call) = some (s', .error err)) :
    s' = { s with entries := s.entries ++ call.leftBehind disk } := by
  cases call with
  | write entry =>
      simp only [step, write, Option.some.injEq] at h
      rw [Call.leftBehind, List.append_nil]
      split_ifs at h <;> cases h <;> rfl
  | writeBatch batch => exact writeBatch_error h

structure Bounded (maxSize : ℤ) (s : FileStorage δ) : Prop where
  maxSize_eq : s.maxSize = maxSize
  length_le : (s.entries.length : ℤ) ≤ maxSize

theorem length_rtake_le (hsize : 0 ≤ maxSize) (l : List (AuditEntry δ)) :
    ((l.rtake maxSize.toNat).length : ℤ) ≤ maxSize := by
  rw [List.rtake, List.length_drop]
  omega

/-- A call that succeeds keeps to the bound, and one that fails does if it leaves nothing
behind. -/
theorem step_bounded (hsize : 0 ≤ maxSize) {c : Disk δ × Call δ} {o : Except StorageError Unit}
    (hnone : ∀ err, o = .error err → c.2.leftBehind c.1 = []) (h : Bounded maxSize s)
    (hstep : step s c = some (s', o)) : Bounded maxSize s' := by
  obtain ⟨disk, call⟩ := c
  obtain ⟨rfl, hlength⟩ := h
  cases o with
  | error err =>
      rw [step_error hstep, hnone err rfl, List.append_nil]
      exact ⟨rfl, hlength⟩
  | ok u =>
      obtain ⟨_, entries, hindex, rfl⟩ := step_ok_iff.mp hstep
      refine ⟨rfl, ?_⟩
      cases call with
      | write entry =>
          have hl : (s.entries ++ [entry]).length ≤ s.maxSize.toNat + 1 := by
            rw [List.length_append, List.length_singleton]
            omega
          rw [Call.index, dropOldest_eq hsize hl, Option.some.injEq] at hindex
          rw [← hindex]
          exact length_rtake_le hsize _
      | writeBatch batch =>
          rw [Call.index, trim_eq hsize, Option.some.injEq] at hindex
          rw [← hindex]
          exact length_rtake_le hsize _

/-- Along a run from an empty index, every failed call leaves the index as it was, and the index
keeps to its bound, if and only if no batch has failed behind an entry that it had accepted. -/
theorem failures_intact_iff (hsize : 0 ≤ maxSize)
    {tr : List ((Disk δ × Call δ) × Except StorageError Unit)}
    (h : Run step { entries := [], maxSize } tr s) :
    ((∀ tr₁ c err tr₂ m m', tr = tr₁ ++ (c, .error err) :: tr₂ →
        Run step { entries := [], maxSize } tr₁ m → step m c = some (m', .error err) →
        m'.entries = m.entries) ∧
      ∀ tr₁ m, tr₁ <+: tr → Run step { entries := [], maxSize } tr₁ m →
        (m.entries.length : ℤ) ≤ maxSize) ↔
      ∀ c err, (c, .error err) ∈ tr → c.2.leftBehind c.1 = [] := by
  constructor
  · rintro ⟨hintact, _⟩ c err hmem
    obtain ⟨tr₁, tr₂, rfl⟩ := List.append_of_mem hmem
    obtain ⟨m, m', hm, hstep, _⟩ := run_append_cons.mp h
    have hsame := hintact tr₁ c err tr₂ m m' rfl hm hstep
    rw [step_error hstep] at hsame
    exact List.append_right_eq_self.mp hsame
  · intro hnone
    constructor
    · rintro tr₁ c err tr₂ m m' rfl _ hstep
      rw [step_error hstep, hnone c err List.mem_append_cons_self, List.append_nil]
    · intro tr₁ m hinit hm
      have hbounded : Bounded maxSize m := by
        refine hm.invariant
          (A := fun x => ∀ err, x.2 = .error err → x.1.2.leftBehind x.1.1 = [])
          (fun _ _ _ _ hx hb hstep => step_bounded hsize hx hb hstep) ?_ ⟨rfl, hsize⟩
        rintro ⟨c, o⟩ hx err rfl
        exact hnone c err (hinit.subset hx)
      exact hbounded.length_le

end FileStorage

def fullDisk : Disk δ := { marshals := fun _ => true, writes := fun _ => false, flushes := true }

def unflushedDisk : Disk δ :=
  { marshals := fun _ => true, writes := fun _ => true, flushes := false }

/-- A batch whose first line is not taken leaves the entry of the write before it alone. -/
theorem failures_intact_first : ∃ s : FileStorage Unit,
    Run FileStorage.step { entries := [], maxSize := 1 }
      [((reliableDisk, .write clientEntry), .ok ()),
        ((fullDisk, .writeBatch [nextEntry, clientEntry]), .error .write)] s ∧
    (s.entries.length : ℤ) ≤ 1 := by
  have hrun : Run FileStorage.step { entries := [], maxSize := 1 }
      [((reliableDisk, .write clientEntry), .ok ()),
        ((fullDisk, .writeBatch [nextEntry, clientEntry]), .error .write)]
      { entries := [clientEntry], maxSize := 1 } := ⟨_, rfl, _, rfl, rfl⟩
  refine ⟨_, hrun, ((FileStorage.failures_intact_iff (by decide) hrun).mpr ?_).2 _ _
    (List.prefix_refl _) hrun⟩
  intro c err hmem
  simp only [List.mem_cons, Prod.mk.injEq, reduceCtorEq, and_false, List.not_mem_nil, or_false,
    false_or] at hmem
  rw [hmem.1]
  rfl

theorem writeLoop_unflushedDisk (i : ℕ) (index batch : List (AuditEntry δ)) :
    FileStorage.writeLoop unflushedDisk i index batch = (index ++ batch, .ok ()) := by
  induction batch generalizing i index with
  | nil => rw [FileStorage.writeLoop, List.append_nil]
  | cons entry batch ih =>
      have htail := ih (i + 1) (index ++ [entry])
      rwa [List.append_assoc] at htail

theorem writeBatch_unflushedDisk (s : FileStorage δ) (batch : List (AuditEntry δ)) :
    s.writeBatch unflushedDisk batch =
      some ({ s with entries := s.entries ++ batch }, .error .flush) := by
  rw [FileStorage.writeBatch, writeLoop_unflushedDisk]
  rfl

/-- A batch whose flush fails is reported as an error, and all its entries are in the index,
more than a new storage is to hold. -/
theorem unflushed_batch_indexed : ∃ (batch : List (AuditEntry Unit)) (s : FileStorage Unit),
    Run FileStorage.step newFileStorage
      [((unflushedDisk, .writeBatch batch), .error .flush)] s ∧
    s.entries ≠ [] ∧ (10000 : ℤ) < s.entries.length := by
  obtain ⟨batch, hlength⟩ : ∃ batch : List (AuditEntry Unit), batch.length = 10001 :=
    ⟨List.replicate 10001 clientEntry, List.length_replicate⟩
  refine ⟨batch, _, ⟨_, writeBatch_unflushedDisk _ _, rfl⟩, ?_, ?_⟩
  · exact List.ne_nil_of_length_pos (hlength.symm ▸ Nat.succ_pos _)
  · rw [newFileStorage, List.nil_append, hlength]
    decide

end GrpcVault.Audit
