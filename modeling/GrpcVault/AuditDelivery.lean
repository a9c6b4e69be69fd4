import GrpcVault.AuditService

/-!
# Every audit entry is written once and in order

What has been written, what the worker has taken and what is in the buffer make up the
sequence of the appended entries, between any two steps, as long as the storage writes every
batch; a batch that it fails to write is gone. The last flush of a shutdown finds the buffer
as the callers left it, so a `Close` that no call overlaps leaves nothing behind. A signal that
finds the channel full is dropped, and yet no full buffer is left without a flush to come.
-/

namespace GrpcVault.Audit

open EventSystem GoText

variable {δ : Type}

def appendedEntry : Event δ × Output δ → Option (AuditEntry δ)
  | (_, .appended entry) => some entry
  | _ => none

def writtenBatch : Event δ × Output δ → Option (List (AuditEntry δ))
  | (_, .written entries false) => some entries
  | _ => none

def attemptedBatch : Event δ × Output δ → Option (List (AuditEntry δ))
  | (_, .written entries _) => some entries
  | _ => none

def appended (tr : Trace δ) : List (AuditEntry δ) := tr.filterMap appendedEntry

def batches (tr : Trace δ) : List (List (AuditEntry δ)) := tr.filterMap writtenBatch

def attempts (tr : Trace δ) : List (List (AuditEntry δ)) := tr.filterMap attemptedBatch

def Stored (tr : Trace δ) : Prop :=
  ∀ e entries failed, (e, Output.written entries failed) ∈ tr → failed = false

def Worker.taken : Worker δ → List (AuditEntry δ)
  | .writing entries _ => entries
  | _ => []

/-- The worker is in the flush of the shutdown, or has returned. -/
def Worker.last : Worker δ → Bool
  | .selecting => false
  | .flushing last => last
  | .writing _ last => last
  | .stopped => true

def Conserved (tr : Trace δ) (s : System δ) : Prop :=
  (batches tr).flatten ++ s.worker.taken ++ s.service.buffer = appended tr

/-- As `Conserved`, with the batches whose write failed, which are gone. -/
def Accounted (tr : Trace δ) (s : System δ) : Prop :=
  (attempts tr).flatten ++ s.worker.taken ++ s.service.buffer = appended tr

variable {s s' : System δ} {tr tr₁ tr₂ : Trace δ} {e : Event δ} {o : Output δ}

theorem appended_snoc (tr : Trace δ) (x : Event δ × Output δ) :
    appended (tr ++ [x]) = appended tr ++ (appendedEntry x).toList :=
  filterMap_snoc appendedEntry tr x

theorem attempts_snoc (tr : Trace δ) (x : Event δ × Output δ) :
    attempts (tr ++ [x]) = attempts tr ++ (attemptedBatch x).toList :=
  filterMap_snoc attemptedBatch tr x

theorem Stored.attempts_eq (h : Stored tr) : attempts tr = batches tr := by
  apply List.filterMap_congr
  rintro ⟨e, o⟩ hx
  cases o with
  | done | appended => rfl
  | written entries failed =>
      obtain rfl := h e entries failed hx
      rfl

@[simp] theorem taken_selecting : (Worker.selecting : Worker δ).taken = [] := rfl

@[simp] theorem taken_flushing (last : Bool) : (Worker.flushing last : Worker δ).taken = [] := rfl

@[simp] theorem taken_writing (entries : List (AuditEntry δ)) (last : Bool) :
    (Worker.writing entries last).taken = entries := rfl

@[simp] theorem taken_stopped : (Worker.stopped : Worker δ).taken = [] := rfl

@[simp] theorem taken_afterFlush (last : Bool) : (Worker.afterFlush last : Worker δ).taken = [] := by
  cases last <;> rfl

@[simp] theorem last_flushing (last : Bool) : (Worker.flushing last : Worker δ).last = last := rfl

@[simp] theorem last_writing (entries : List (AuditEntry δ)) (last : Bool) :
    (Worker.writing entries last).last = last := rfl

@[simp] theorem last_afterFlush (last : Bool) : (Worker.afterFlush last : Worker δ).last = last := by
  cases last <;> rfl

theorem receive_buffer (service : AuditService δ) (branch : Branch) :
    (service.receive branch).1.buffer = service.buffer := by
  cases branch <;> rfl

theorem receive_taken (service : AuditService δ) (branch : Branch) :
    (service.receive branch).2.taken = [] := by
  cases branch <;> rfl

theorem Accounted.idle (h : Accounted tr s) (happended : appendedEntry (e, o) = none)
    (hattempt : attemptedBatch (e, o) = none)
    (hkept : s'.worker.taken ++ s'.service.buffer = s.worker.taken ++ s.service.buffer) :
    Accounted (tr ++ [(e, o)]) s' := by
  unfold Accounted at h ⊢
  rw [appended_snoc, attempts_snoc, happended, hattempt, List.append_assoc, hkept]
  simpa using h

theorem step_accounted (hc : Accounted tr s) (hstep : step s e = some (s', o)) :
    Accounted (tr ++ [(e, o)]) s' := by
  cases step_effect hstep with
  | @log id now call =>
      unfold Accounted at hc ⊢
      rw [appended_snoc, attempts_snoc, ← hc]
      simp [appendedEntry, attemptedBatch, AuditService.writeEntry]
  | signal => exact hc.idle rfl rfl rfl
  | @select branch hworker =>
      apply hc.idle rfl rfl
      simp only [receive_buffer, receive_taken, hworker, taken_selecting]
  | take hworker =>
      apply hc.idle rfl rfl
      simp only [hworker, taken_flushing, taken_writing, List.append_nil, List.nil_append]
  | skip hworker =>
      apply hc.idle rfl rfl
      simp only [hworker, taken_afterFlush, taken_flushing]
  | @write failed last entries hworker =>
      unfold Accounted at hc ⊢
      rw [appended_snoc, attempts_snoc, ← hc]
      simp [appendedEntry, attemptedBatch, hworker]
  | close => exact hc.idle rfl rfl rfl
  | closeReturns => exact hc.idle rfl rfl rfl

theorem run_accounted {size : ℕ} (h : Run step (System.start size) tr s) : Accounted tr s := by
  refine h.snocInduction (I := Accounted) ?_ ?_
  · rfl
  · intro tr m e o m' _ hm hstep
    exact step_accounted hm hstep

theorem run_conserved {size : ℕ} (h : Run step (System.start size) tr s) (hs : Stored tr) :
    Conserved tr s := by
  have ha := run_accounted h
  rwa [Accounted, hs.attempts_eq] at ha

/-- The worker's last flush follows the call of `Close`, whose return follows the worker's. -/
structure Ordered (s : System δ) : Prop where
  last : s.worker.last = true → s.service.closeChan = true
  closed : s.closed = true → s.worker = .stopped

theorem step_ordered (h : Ordered s) (hstep : step s e = some (s', o)) : Ordered s' := by
  obtain ⟨hlast, hclosed⟩ := h
  cases step_effect hstep with
  | log | signal => exact ⟨hlast, hclosed⟩
  | @select branch hworker hready =>
      rw [hworker] at hclosed
      refine ⟨?_, fun hc => nomatch hclosed hc⟩
      cases branch with
      | ticker | flushChan => exact nofun
      | closeChan => exact fun _ => hready
  | take hworker =>
      rw [hworker] at hlast hclosed
      exact ⟨hlast, fun hc => nomatch hclosed hc⟩
  | skip hworker | write hworker =>
      rw [hworker] at hlast hclosed
      refine ⟨?_, fun hc => nomatch hclosed hc⟩
      simpa using hlast
  | close => exact ⟨fun _ => rfl, hclosed⟩
  | closeReturns hworker hclose => exact ⟨fun _ => hclose, fun _ => hworker⟩

theorem run_ordered {size : ℕ} (h : Run step (System.start size) tr s) : Ordered s :=
  h.preserves (fun _ _ _ _ hm hstep => step_ordered hm hstep) ⟨nofun, nofun⟩

def Drained (s : System δ) : Prop :=
  s.worker.last = true → (∃ last, s.worker = .flushing last) ∨ s.service.buffer = []

theorem step_drained (h : Drained s) (hnone : appendedEntry (e, o) = none)
    (hstep : step s e = some (s', o)) : Drained s' := by
  cases step_effect hstep with
  | log => cases hnone
  | signal | close | closeReturns => exact h
  | @select branch =>
      intro _
      cases branch <;> exact .inl ⟨_, rfl⟩
  | take => exact fun _ => .inr rfl
  | skip _ hbuffer => exact fun _ => .inr hbuffer
  | write hworker =>
      intro hlast
      rw [last_afterFlush] at hlast
      have hs := h (by rw [hworker]; exact hlast)
      rw [hworker] at hs
      refine .inr ?_
      simpa using hs

theorem run_drained (h : Run step s tr s') (hnone : appended tr = []) (hs : Drained s) :
    Drained s' := by
  refine h.invariant (A := fun x => appendedEntry x = none)
    (fun _ _ _ _ hx hm hstep => step_drained hm hx hstep) ?_ hs
  exact List.filterMap_eq_nil_iff.mp hnone

/-- `Close` can still return, by steps of the worker alone and without a failed write. -/
def Returns (s : System δ) : Prop :=
  ∃ tr s', Run step s tr s' ∧ Stored tr ∧ appended tr = [] ∧ s'.closed = true

theorem Returns.cons (hstep : step s e = some (s', o)) (hs : Stored [(e, o)])
    (hnone : appendedEntry (e, o) = none) (h : Returns s') : Returns s := by
  obtain ⟨tr, s₁, hrun, hstored, happended, hclosed⟩ := h
  refine ⟨(e, o) :: tr, s₁, ⟨s', hstep, hrun⟩, ?_, ?_, hclosed⟩
  · intro e' entries failed hmem
    rcases List.mem_cons.mp hmem with heq | hmem
    · exact hs e' entries failed (heq ▸ List.mem_singleton_self _)
    · exact hstored e' entries failed hmem
  · rw [appended, List.filterMap_cons_none hnone]
    exact happended

theorem stored_done (e : Event δ) : Stored [(e, .done)] := by
  intro e' entries failed hmem
  cases List.mem_singleton.mp hmem

theorem stored_written (e : Event δ) (entries : List (AuditEntry δ)) :
    Stored [(e, .written entries false)] := by
  intro e' entries' failed hmem
  cases List.mem_singleton.mp hmem
  rfl

structure Waiting (s : System δ) : Prop where
  closeChan : s.service.closeChan = true
  closed : s.closed = false

theorem Waiting.returns_of_stopped (h : Waiting s) (hworker : s.worker = .stopped) :
    Returns s := by
  have hstep : step s .closeReturns = some ({ s with closed := true }, .done) := by
    simp [step, hworker, h.closeChan, h.closed]
  exact Returns.cons hstep (stored_done _) rfl ⟨[], _, rfl, nofun, rfl, rfl⟩

theorem Waiting.returns_of_writing (h : Waiting s) {entries : List (AuditEntry δ)} {last : Bool}
    (hnext : ∀ s : System δ, Waiting s → s.worker = .afterFlush last → Returns s)
    (hworker : s.worker = .writing entries last) : Returns s := by
  have hstep : step s (.writeBatch false) =
      some ({ s with worker := .afterFlush last }, .written entries false) := by
    simp [step, hworker]
  apply Returns.cons hstep (stored_written _ _) rfl
  exact hnext _ ⟨h.closeChan, h.closed⟩ rfl

theorem Waiting.returns_of_flushing (h : Waiting s) {last : Bool}
    (hnext : ∀ s : System δ, Waiting s → s.worker = .afterFlush last → Returns s)
    (hworker : s.worker = .flushing last) : Returns s := by
  cases hbuffer : s.service.buffer with
  | nil =>
      have hstep : step s .takeBuffer = some ({ s with worker := .afterFlush last }, .done) := by
        simp [step, hworker, AuditService.takeBuffer, hbuffer]
      apply Returns.cons hstep (stored_done _) rfl
      exact hnext _ ⟨h.closeChan, h.closed⟩ rfl
  | cons entry entries =>
      have hstep : step s .takeBuffer = some ({ s with
          service := { s.service with buffer := [] }
          worker := .writing (entry :: entries) last }, .done) := by
        simp [step, hworker, AuditService.takeBuffer, hbuffer]
      apply Returns.cons hstep (stored_done _) rfl
      exact Waiting.returns_of_writing ⟨h.closeChan, h.closed⟩ hnext rfl

theorem Waiting.returns_of_selecting (h : Waiting s) (hworker : s.worker = .selecting) :
    Returns s := by
  have hstep : step s (.select .closeChan) = some ({ s with worker := .flushing true }, .done) := by
    simp [step, hworker, AuditService.ready, AuditService.receive, h.closeChan]
  have hnext : ∀ s : System δ, Waiting s → s.worker = .afterFlush true → Returns s :=
    fun _ hs hstopped => hs.returns_of_stopped hstopped
  apply Returns.cons hstep (stored_done _) rfl
  exact Waiting.returns_of_flushing ⟨h.closeChan, h.closed⟩ hnext rfl

theorem Waiting.returns_of_afterFlush (h : Waiting s) {last : Bool}
    (hworker : s.worker = .afterFlush last) : Returns s := by
  cases last with
  | true => exact h.returns_of_stopped hworker
  | false => exact h.returns_of_selecting hworker

/-- Wherever the worker stands, it can come to its last flush and return. -/
theorem Waiting.returns (h : Waiting s) : Returns s := by
  cases hworker : s.worker with
  | selecting => exact h.returns_of_selecting hworker
  | flushing last =>
      exact h.returns_of_flushing (fun s hs hnext => hs.returns_of_afterFlush hnext) hworker
  | writing entries last =>
      exact h.returns_of_writing (fun s hs hnext => hs.returns_of_afterFlush hnext) hworker
  | stopped => exact h.returns_of_stopped hworker

/-- With every batch stored, the batches, the batch in hand and the buffer are the appended
entries, in every state. When a `Close` that no append follows has returned, every entry has
been written, once and in order; and a `Close` that waits can return. -/
theorem entries_written_once {size : ℕ} (h : Run step (System.start size) tr s)
    (hs : Stored tr) :
    (batches tr).flatten ++ s.worker.taken ++ s.service.buffer = appended tr ∧
    (∀ tr₁ tr₂, tr = tr₁ ++ (.close, .done) :: tr₂ → appended tr₂ = [] → s.closed = true →
      (batches tr).flatten = appended tr) ∧
    (s.service.closeChan = true → s.closed = false → Returns s) := by
  have hc : Conserved tr s := run_conserved h hs
  refine ⟨hc, ?_, fun hclose hclosed => Waiting.returns ⟨hclose, hclosed⟩⟩
  intro tr₁ tr₂ htr hnone hclosed
  rw [htr] at h
  obtain ⟨m, m', hm, hstep, hrun⟩ := run_append_cons.mp h
  have hstopped := (run_ordered h).closed hclosed
  have hdrained : Drained m' := by
    cases step_effect hstep with
    | close hopen =>
        intro hlast
        rw [(run_ordered hm).last hlast] at hopen
        cases hopen
  have hbuffer : s.service.buffer = [] := by
    have hs' := run_drained hrun hnone hdrained (by rw [hstopped]; rfl)
    rw [hstopped] at hs'
    simpa using hs'
  rw [← hc, hstopped, hbuffer]
  simp

def oneCall : LogCall Unit := .logError ⟨['r'], ['t'], ['a'], [], ['g'], ['p'], ['e'], ∅⟩

/-- The second entry is appended while the first is being written; `Close` writes it. -/
theorem entries_written_once_overlapping : ∃ (first second : LogCall Unit) (tr : Trace Unit)
    (s : System Unit), Run step (System.start 1) tr s ∧ Stored tr ∧ s.closed = true ∧
      appended tr = [first.entry ['1'] 0, second.entry ['2'] 1] ∧
      (batches tr).flatten = appended tr := by
  have h : ∃ (tr₁ tr₂ : Trace Unit) (s : System Unit),
      Run step (System.start 1) (tr₁ ++ (.close, .done) :: tr₂) s ∧
      Stored (tr₁ ++ (.close, .done) :: tr₂) ∧ appended tr₂ = [] ∧ s.closed = true ∧
      appended (tr₁ ++ (.close, .done) :: tr₂) =
        [oneCall.entry ['1'] 0, oneCall.entry ['2'] 1] := by
    refine ⟨[(.log ['1'] 0 oneCall, .appended (oneCall.entry ['1'] 0)), (.signal, .done),
        (.select .flushChan, .done), (.takeBuffer, .done),
        (.log ['2'] 1 oneCall, .appended (oneCall.entry ['2'] 1)), (.signal, .done),
        (.writeBatch false, .written [oneCall.entry ['1'] 0] false)],
      [(.select .closeChan, .done), (.takeBuffer, .done),
        (.writeBatch false, .written [oneCall.entry ['2'] 1] false), (.closeReturns, .done)],
      _, ⟨_, rfl, _, rfl, _, rfl, _, rfl, _, rfl, _, rfl, _, rfl, _, rfl, _, rfl, _, rfl, _, rfl,
        _, rfl, rfl⟩, ?_, rfl, rfl, rfl⟩
    intro e entries failed hmem
    simp only [List.cons_append, List.nil_append, List.mem_cons, Prod.mk.injEq, reduceCtorEq,
      and_false, false_or, or_false, Output.written.injEq, List.not_mem_nil] at hmem
    tauto
  obtain ⟨tr₁, tr₂, s, hrun, hs, hnone, hclosed, happended⟩ := h
  exact ⟨oneCall, oneCall, _, s, hrun, hs, hclosed, happended,
    (entries_written_once hrun hs).2.1 tr₁ tr₂ rfl hnone hclosed⟩

def Laden (s : System δ) : Prop := ∀ entries last, s.worker = .writing entries last → entries ≠ []

theorem step_laden (h : Laden s) (hstep : step s e = some (s', o)) : Laden s' := by
  have htake : ∀ last, s.worker = .flushing last → e = .takeBuffer → Laden s' := by
    rintro last hworker rfl entries last' hwriting rfl
    unfold step AuditService.takeBuffer at hstep
    cases hbuffer : s.service.buffer with
    | nil =>
        simp only [hworker, hbuffer, Option.some.injEq, Prod.mk.injEq] at hstep
        rw [← hstep.1] at hwriting
        cases last <;> cases hwriting
    | cons entry entries =>
        simp only [hworker, hbuffer, Option.some.injEq, Prod.mk.injEq] at hstep
        rw [← hstep.1] at hwriting
        cases hwriting
  cases step_effect hstep with
  | log | signal | close | closeReturns => exact h
  | @select branch =>
      intro entries last hwriting
      cases branch <;> cases hwriting
  | take hworker => exact htake _ hworker rfl
  | skip hworker => exact htake _ hworker rfl
  | @write failed last _ _ =>
      intro entries last' hwriting
      cases last <;> cases hwriting

theorem run_laden {size : ℕ} (h : Run step (System.start size) tr s) : Laden s :=
  h.preserves (fun _ _ _ _ hm hstep => step_laden hm hstep)
    (fun _ _ hwriting => by cases hwriting)

theorem attempts_ne_nil {size : ℕ} (h : Run step (System.start size) tr s) :
    ∀ entries ∈ attempts tr, entries ≠ [] := by
  intro entries hmem
  obtain ⟨⟨e, o⟩, hx, hattempt⟩ := List.mem_filterMap.mp hmem
  obtain ⟨tr₁, tr₂, rfl⟩ := List.append_of_mem hx
  obtain ⟨m, m', hm, hstep, _⟩ := run_append_cons.mp h
  cases step_effect hstep with
  | write hworker =>
      cases hattempt
      exact run_laden hm _ _ hworker
  | _ => cases hattempt

theorem batches_sublist (tr : Trace δ) : (batches tr).Sublist (attempts tr) := by
  induction tr with
  | nil => exact List.Sublist.refl []
  | cons x tr ih =>
      obtain ⟨e, o⟩ := x
      cases o with
      | done | appended => exact ih
      | written entries failed =>
          cases failed with
          | false => exact ih.cons_cons entries
          | true => exact ih.cons entries

theorem length_batches_le (tr : Trace δ) :
    (batches tr).flatten.length ≤ (attempts tr).flatten.length :=
  (batches_sublist tr).flatten.length_le

theorem length_batches_lt (hne : ∀ entries ∈ attempts tr, entries ≠ []) (hs : ¬ Stored tr) :
    (batches tr).flatten.length < (attempts tr).flatten.length := by
  obtain ⟨e, entries, hmem⟩ : ∃ e entries, (e, Output.written entries true) ∈ tr := by
    unfold Stored at hs
    push Not at hs
    obtain ⟨e, entries, failed, hmem, hfailed⟩ := hs
    exact ⟨e, entries, Bool.of_not_eq_false hfailed ▸ hmem⟩
  have hpos : 0 < entries.length :=
    List.length_pos_iff.mpr (hne entries (List.mem_filterMap.mpr ⟨_, hmem, rfl⟩))
  obtain ⟨tr₁, tr₂, rfl⟩ := List.append_of_mem hmem
  have hb : batches (tr₁ ++ (e, .written entries true) :: tr₂) = batches tr₁ ++ batches tr₂ :=
    List.filterMap_append
  have ha : attempts (tr₁ ++ (e, .written entries true) :: tr₂) =
      attempts tr₁ ++ entries :: attempts tr₂ := List.filterMap_append
  have h₁ := length_batches_le tr₁
  have h₂ := length_batches_le tr₂
  simp only [hb, ha, List.flatten_append, List.flatten_cons, List.length_append]
  omega

/-- Every appended entry is in the buffer, in the batch in hand or in a batch that reached the
storage, if and only if no write of a batch has failed. -/
theorem entries_kept_iff {size : ℕ} (h : Run step (System.start size) tr s) :
    (appended tr).Subperm ((batches tr).flatten ++ s.worker.taken ++ s.service.buffer) ↔
      Stored tr := by
  constructor
  · intro hkept
    by_contra hs
    have hlt := length_batches_lt (attempts_ne_nil h) hs
    have hle := hkept.length_le
    rw [← run_accounted h] at hle
    simp only [List.length_append] at hle
    omega
  · intro hs
    rw [← run_conserved h hs]

/-- Two batches reach the storage; the third entry is still in the buffer. -/
theorem entries_kept_buffered : ∃ (tr : Trace Unit) (s : System Unit),
    Run step (System.start 1) tr s ∧ (appended tr).length = 3 ∧
      (appended tr).Subperm ((batches tr).flatten ++ s.worker.taken ++ s.service.buffer) := by
  let entry : AuditEntry Unit := oneCall.entry ['1'] 0
  have h : ∃ (tr : Trace Unit) (s : System Unit), Run step (System.start 1) tr s ∧
      (appended tr).length = 3 ∧ Stored tr := by
    refine ⟨[(.log ['1'] 0 oneCall, .appended entry), (.select .ticker, .done),
        (.takeBuffer, .done), (.writeBatch false, .written [entry] false),
        (.log ['1'] 0 oneCall, .appended entry), (.select .ticker, .done), (.takeBuffer, .done),
        (.log ['1'] 0 oneCall, .appended entry), (.writeBatch false, .written [entry] false)],
      _, ⟨_, rfl, _, rfl, _, rfl, _, rfl, _, rfl, _, rfl, _, rfl, _, rfl, _, rfl, rfl⟩, rfl, ?_⟩
    intro e entries failed hmem
    simp only [List.mem_cons, Prod.mk.injEq, reduceCtorEq, and_false, false_or, or_false,
      Output.written.injEq, List.not_mem_nil] at hmem
    tauto
  obtain ⟨tr, s, hrun, hlength, hs⟩ := h
  exact ⟨tr, s, hrun, hlength, (entries_kept_iff hrun).mpr hs⟩

/-- An entry whose call has returned is in a batch that the storage fails to write, and is
nowhere afterwards. -/
theorem failed_batch_dropped : ∃ (entry : AuditEntry Unit) (tr : Trace Unit) (s : System Unit),
    Run step (System.start 2) tr s ∧ s.senders = 0 ∧ appended tr = [entry] ∧
      (batches tr).flatten = [] ∧ s.worker.taken = [] ∧ s.service.buffer = [] := by
  let entry : AuditEntry Unit := oneCall.entry ['1'] 0
  exact ⟨entry, [(.log ['1'] 0 oneCall, .appended entry), (.select .ticker, .done),
      (.takeBuffer, .done), (.writeBatch true, .written [entry] true)],
    _, ⟨_, rfl, _, rfl, _, rfl, _, rfl, rfl⟩, rfl, rfl, rfl, rfl, rfl⟩

/-! ## Full buffers -/

/-- A full buffer has a flush to come: its signal is in the channel, the worker is about to take
the buffer, or a call has yet to send its signal. -/
structure Awake (size : ℕ) (s : System δ) : Prop where
  size_eq : s.service.size = size
  flush : size ≤ s.service.buffer.length →
    s.service.flushChan = true ∨ (∃ last, s.worker = .flushing last) ∨ 0 < s.senders

theorem step_awake {size : ℕ} (hsize : 1 ≤ size) (h : Awake size s)
    (hstep : step s e = some (s', o)) : Awake size s' := by
  obtain ⟨hsize_eq, hflush⟩ := h
  cases step_effect hstep with
  | @log id now call =>
      refine ⟨hsize_eq, fun hfull => .inr (.inr ?_)⟩
      -- The call that fills the buffer, or finds it full, is the one to signal.
      have hshould : (s.service.writeEntry (call.entry id now)).2 = true := by
        rw [AuditService.writeEntry, hsize_eq]
        exact decide_eq_true hfull
      simp [hshould]
  | signal => exact ⟨hsize_eq, fun _ => .inl rfl⟩
  | @select branch =>
      cases branch with
      | ticker | flushChan | closeChan => exact ⟨hsize_eq, fun _ => .inr (.inl ⟨_, rfl⟩)⟩
  | take =>
      refine ⟨hsize_eq, fun hfull => ?_⟩
      simp only [List.length_nil] at hfull
      omega
  | skip _ hbuffer =>
      refine ⟨hsize_eq, fun hfull => ?_⟩
      simp only [hbuffer, List.length_nil] at hfull
      omega
  | write hworker =>
      refine ⟨hsize_eq, fun hfull => ?_⟩
      rcases hflush hfull with hchan | ⟨last, hflushing⟩ | hsenders
      · exact .inl hchan
      · rw [hworker] at hflushing
        cases hflushing
      · exact .inr (.inr hsenders)
  | close | closeReturns => exact ⟨hsize_eq, hflush⟩

/-- Whenever the buffer is full, a signal is pending, the worker has been woken and is yet to
take the buffer, or some call has appended and is yet to send. -/
theorem full_buffer_flushed {size : ℕ} (hsize : 1 ≤ size) (h : Run step (System.start size) tr s)
    (hfull : size ≤ s.service.buffer.length) :
    s.service.flushChan = true ∨ (∃ last, s.worker = .flushing last) ∨ 0 < s.senders := by
  have hawake : Awake size s := by
    refine h.preserves (fun _ _ _ _ hm hstep => step_awake hsize hm hstep) ⟨rfl, fun hfull => ?_⟩
    exact absurd hfull (Nat.not_le.mpr hsize)
  exact hawake.flush hfull

/-- The worker has received the signal and taken the buffer; a call that fills it again has yet
to send. -/
theorem full_buffer_flushed_two : ∃ (tr : Trace Unit) (s : System Unit),
    Run step (System.start 1) tr s ∧ 1 ≤ s.service.buffer.length ∧ s.service.flushChan = false ∧
      (s.service.flushChan = true ∨ (∃ last, s.worker = .flushing last) ∨ 0 < s.senders) := by
  let entry : AuditEntry Unit := oneCall.entry ['1'] 0
  have h : ∃ (tr : Trace Unit) (s : System Unit), Run step (System.start 1) tr s ∧
      1 ≤ s.service.buffer.length ∧ s.service.flushChan = false :=
    ⟨[(.log ['1'] 0 oneCall, .appended entry), (.log ['1'] 0 oneCall, .appended entry),
      (.signal, .done), (.select .flushChan, .done), (.takeBuffer, .done),
      (.log ['1'] 0 oneCall, .appended entry)],
      _, ⟨_, rfl, _, rfl, _, rfl, _, rfl, _, rfl, _, rfl, rfl⟩, le_rfl, rfl⟩
  obtain ⟨tr, s, hrun, hfull, hchan⟩ := h
  exact ⟨tr, s, hrun, hfull, hchan, full_buffer_flushed le_rfl hrun hfull⟩

end GrpcVault.Audit
