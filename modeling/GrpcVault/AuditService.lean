import GrpcVault.Lib.EventSystem
import GrpcVault.Lib.GoText

/-!
# The audit service

Calls that log an entry append it to a buffer, and one background worker writes the buffer
to the storage in batches. A call appends under the lock and then, if the buffer is full,
signals the worker without blocking. The worker waits for its ticker, for that signal or for
the shutdown; it takes the buffer under the lock and writes the batch afterwards. `Close`
waits for the worker's last flush.
-/

namespace GrpcVault.Audit

open EventSystem GoText

-- The values of type `interface{}` in the logged data.
variable {δ : Type}

inductive EntryType where
  | request
  | response
  | error
  deriving DecidableEq

structure AuthInfo where
  clientToken : Str
  accessor : Str
  displayName : Str := []
  policies : List Str := []
  entityID : Str := []
  remoteAddr : Str := []

structure RequestInfo (δ : Type) where
  id : Str
  operation : Str
  path : Str
  data : GoMap Str δ := ∅
  remoteAddr : Str := []

structure ResponseInfo where
  mountPoint : Str
  mountType : Str
  mountAccessor : Str
  warnings : List Str

/-- An entry as the three calls that log build it: they always set `auth` and `request`, which are
pointers in the source. -/
structure AuditEntry (δ : Type) where
  id : Str
  timestamp : ℤ
  type : EntryType
  auth : AuthInfo
  request : RequestInfo δ
  response : Option ResponseInfo := none
  error : Str := []
  metadata : GoMap Str Str

structure LogRequestInput (δ : Type) where
  requestID : Str
  clientToken : Str
  accessor : Str
  displayName : Str
  policies : List Str
  entityID : Str
  remoteAddr : Str
  operation : Str
  path : Str
  data : GoMap Str δ
  metadata : GoMap Str Str

structure LogResponseInput where
  requestID : Str
  clientToken : Str
  accessor : Str
  displayName : Str
  policies : List Str
  operation : Str
  path : Str
  mountPoint : Str
  mountType : Str
  mountAccessor : Str
  warnings : List Str
  metadata : GoMap Str Str

structure LogErrorInput where
  requestID : Str
  clientToken : Str
  accessor : Str
  remoteAddr : Str
  operation : Str
  path : Str
  error : Str
  metadata : GoMap Str Str

def logRequest (id : Str) (now : ℤ) (req : LogRequestInput δ) : AuditEntry δ where
  id := id
  timestamp := now
  type := .request
  auth :=
    { clientToken := req.clientToken, accessor := req.accessor, displayName := req.displayName
      policies := req.policies, entityID := req.entityID, remoteAddr := req.remoteAddr }
  request :=
    { id := req.requestID, operation := req.operation, path := req.path, data := req.data
      remoteAddr := req.remoteAddr }
  metadata := req.metadata

def logResponse (id : Str) (now : ℤ) (resp : LogResponseInput) : AuditEntry δ where
  id := id
  timestamp := now
  type := .response
  auth :=
    { clientToken := resp.clientToken, accessor := resp.accessor
      displayName := resp.displayName, policies := resp.policies }
  request := { id := resp.requestID, operation := resp.operation, path := resp.path }
  response := some
    { mountPoint := resp.mountPoint, mountType := resp.mountType
      mountAccessor := resp.mountAccessor, warnings := resp.warnings }
  metadata := resp.metadata

def logError (id : Str) (now : ℤ) (errInput : LogErrorInput) : AuditEntry δ where
  id := id
  timestamp := now
  type := .error
  auth :=
    { clientToken := errInput.clientToken, accessor := errInput.accessor
      remoteAddr := errInput.remoteAddr }
  request := { id := errInput.requestID, operation := errInput.operation, path := errInput.path }
  error := errInput.error
  metadata := errInput.metadata

inductive LogCall (δ : Type) where
  | logRequest (req : LogRequestInput δ)
  | logResponse (resp : LogResponseInput)
  | logError (errInput : LogErrorInput)

def LogCall.entry (id : Str) (now : ℤ) : LogCall δ → AuditEntry δ
  | .logRequest req => Audit.logRequest id now req
  | .logResponse resp => Audit.logResponse id now resp
  | .logError errInput => Audit.logError id now errInput

/-- `flushChan` tells whether the signal in the channel of capacity one is set, `closeChan`
whether the channel is closed. -/
structure AuditService (δ : Type) where
  size : ℕ
  buffer : List (AuditEntry δ)
  flushChan : Bool
  closeChan : Bool

def newAuditService (size : ℕ) : AuditService δ where
  size := size
  buffer := []
  flushChan := false
  closeChan := false

namespace AuditService

variable (service : AuditService δ)

/-- The part of `writeEntry` under the lock, with `shouldFlush`. -/
def writeEntry (entry : AuditEntry δ) : AuditService δ × Bool :=
  let buffer := service.buffer ++ [entry]
  ({ service with buffer }, service.size ≤ buffer.length)

/-- The send that gives up on a full channel: the signal is set afterwards either way. -/
def signalFlush : AuditService δ := { service with flushChan := true }

/-- The part of `flush` under the lock; an empty buffer is left alone. -/
def takeBuffer : AuditService δ × Option (List (AuditEntry δ)) :=
  match service.buffer with
  | [] => (service, none)
  | entry :: entries => ({ service with buffer := [] }, some (entry :: entries))

end AuditService

/-- Where the worker stands. `last` tells that the flush is that of the shutdown. -/
inductive Worker (δ : Type) where
  | selecting
  | flushing (last : Bool)
  | writing (entries : List (AuditEntry δ)) (last : Bool)
  | stopped

def Worker.afterFlush (last : Bool) : Worker δ := if last then .stopped else .selecting

/-- `senders` counts the calls that have appended and have yet to signal. -/
structure System (δ : Type) where
  service : AuditService δ
  worker : Worker δ
  senders : ℕ
  closed : Bool

def System.start (size : ℕ) : System δ where
  service := newAuditService size
  worker := .selecting
  senders := 0
  closed := false

inductive Branch where
  | ticker
  | flushChan
  | closeChan

inductive Event (δ : Type) where
  | log (id : Str) (now : ℤ) (call : LogCall δ)
  | signal
  | select (branch : Branch)
  | takeBuffer
  | writeBatch (failed : Bool)
  | close
  | closeReturns

inductive Output (δ : Type) where
  | done
  | appended (entry : AuditEntry δ)
  | written (entries : List (AuditEntry δ)) (failed : Bool)

abbrev Trace (δ : Type) := List (Event δ × Output δ)

/-- A channel can be received from: a tick may come at any time, a closed channel is always
ready. -/
def AuditService.ready (service : AuditService δ) : Branch → Bool
  | .ticker => true
  | .flushChan => service.flushChan
  | .closeChan => service.closeChan

/-- The branch of the `select` statement up to its flush; receiving takes the signal away. -/
def AuditService.receive (service : AuditService δ) : Branch → AuditService δ × Worker δ
  | .ticker => (service, .flushing false)
  | .flushChan => ({ service with flushChan := false }, .flushing false)
  | .closeChan => (service, .flushing true)

def step : Step (System δ) (Event δ) (Output δ)
  | s, .log id now call =>
      let (service, shouldFlush) := s.service.writeEntry (call.entry id now)
      some ({ s with service, senders := if shouldFlush then s.senders + 1 else s.senders },
        .appended (call.entry id now))
  | s, .signal =>
      if 0 < s.senders then
        some ({ s with service := s.service.signalFlush, senders := s.senders - 1 }, .done)
      else none
  | s, .select branch =>
      match s.worker with
      | .selecting =>
          if s.service.ready branch then
            let (service, worker) := s.service.receive branch
            some ({ s with service, worker }, .done)
          else none
      | _ => none
  | s, .takeBuffer =>
      match s.worker with
      | .flushing last =>
          match s.service.takeBuffer with
          | (service, some entries) =>
              some ({ s with service, worker := .writing entries last }, .done)
          | (service, none) => some ({ s with service, worker := .afterFlush last }, .done)
      | _ => none
  | s, .writeBatch failed =>
      match s.worker with
      -- An error is logged and the batch is gone.
      | .writing entries last =>
          some ({ s with worker := .afterFlush last }, .written entries failed)
      | _ => none
  | s, .close =>
      -- Closing a closed channel panics.
      if s.service.closeChan then none
      else some ({ s with service := { s.service with closeChan := true } }, .done)
  | s, .closeReturns =>
      match s.worker with
      | .stopped =>
          if s.service.closeChan && !s.closed then some ({ s with closed := true }, .done)
          else none
      | _ => none

inductive Effect (s : System δ) : Event δ → Output δ → System δ → Prop
  | log {id : Str} {now : ℤ} {call : LogCall δ} :
      Effect s (.log id now call) (.appended (call.entry id now))
        { s with
          service := (s.service.writeEntry (call.entry id now)).1
          senders := if (s.service.writeEntry (call.entry id now)).2 then s.senders + 1
            else s.senders }
  | signal (hpos : 0 < s.senders) :
      Effect s .signal .done
        { s with service := s.service.signalFlush, senders := s.senders - 1 }
  | select {branch : Branch} (hworker : s.worker = .selecting)
      (hready : s.service.ready branch = true) :
      Effect s (.select branch) .done
        { s with service := (s.service.receive branch).1, worker := (s.service.receive branch).2 }
  | take {last : Bool} (hworker : s.worker = .flushing last) :
      Effect s .takeBuffer .done
        { s with service := { s.service with buffer := [] }
                 worker := .writing s.service.buffer last }
  | skip {last : Bool} (hworker : s.worker = .flushing last) (hbuffer : s.service.buffer = []) :
      Effect s .takeBuffer .done { s with worker := .afterFlush last }
  | write {failed last : Bool} {entries : List (AuditEntry δ)}
      (hworker : s.worker = .writing entries last) :
      Effect s (.writeBatch failed) (.written entries failed) { s with worker := .afterFlush last }
  | close (hopen : s.service.closeChan = false) :
      Effect s .close .done { s with service := { s.service with closeChan := true } }
  | closeReturns (hworker : s.worker = .stopped) (hclose : s.service.closeChan = true) :
      Effect s .closeReturns .done { s with closed := true }

variable {s s' : System δ} {o : Output δ}

theorem select_effect {branch : Branch} (h : step s (.select branch) = some (s', o)) :
    Effect s (.select branch) o s' := by
  unfold step at h
  cases hworker : s.worker with
  | selecting =>
      by_cases hready : s.service.ready branch = true
      · simp only [hworker, hready, if_true, Option.some.injEq, Prod.mk.injEq] at h
        obtain ⟨rfl, rfl⟩ := h
        exact .select hworker hready
      · simp [hworker, hready] at h
  | flushing | writing | stopped => simp [hworker] at h

theorem takeBuffer_effect (h : step s .takeBuffer = some (s', o)) :
    Effect s .takeBuffer o s' := by
  unfold step AuditService.takeBuffer at h
  cases hworker : s.worker with
  | flushing last =>
      cases hbuffer : s.service.buffer with
      | nil =>
          simp only [hworker, hbuffer, Option.some.injEq, Prod.mk.injEq] at h
          obtain ⟨rfl, rfl⟩ := h
          exact .skip hworker hbuffer
      | cons entry entries =>
          simp only [hworker, hbuffer, Option.some.injEq, Prod.mk.injEq] at h
          obtain ⟨rfl, rfl⟩ := h
          rw [← hbuffer]
          exact .take hworker
  | selecting | writing | stopped => simp [hworker] at h

theorem step_effect {e : Event δ} (h : step s e = some (s', o)) : Effect s e o s' := by
  cases e with
  | log id now call =>
      cases h
      exact .log
  | signal =>
      unfold step at h
      by_cases hpos : 0 < s.senders
      · simp only [hpos, if_true, Option.some.injEq, Prod.mk.injEq] at h
        obtain ⟨rfl, rfl⟩ := h
        exact .signal hpos
      · simp [hpos] at h
  | select branch => exact select_effect h
  | takeBuffer => exact takeBuffer_effect h
  | writeBatch failed =>
      unfold step at h
      cases hworker : s.worker with
      | writing entries last =>
          simp only [hworker, Option.some.injEq, Prod.mk.injEq] at h
          obtain ⟨rfl, rfl⟩ := h
          exact .write hworker
      | selecting | flushing | stopped => simp [hworker] at h
  | close =>
      unfold step at h
      cases hopen : s.service.closeChan with
      | true => simp [hopen] at h
      | false =>
          simp only [hopen, Bool.false_eq_true, if_false, Option.some.injEq, Prod.mk.injEq] at h
          obtain ⟨rfl, rfl⟩ := h
          exact .close hopen
  | closeReturns =>
      unfold step at h
      cases hworker : s.worker with
      | stopped =>
          by_cases hwait : (s.service.closeChan && !s.closed) = true
          · simp only [hworker, hwait, if_true, Option.some.injEq, Prod.mk.injEq] at h
            obtain ⟨rfl, rfl⟩ := h
            rw [← hworker]
            exact .closeReturns hworker (Bool.and_eq_true_iff.mp hwait).1
          · simp [hworker, hwait] at h
      | selecting | flushing | writing => simp [hworker] at h

end GrpcVault.Audit
