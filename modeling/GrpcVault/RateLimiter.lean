import GrpcVault.Lib.EventSystem
import GrpcVault.Lib.TokenBucket

/-!
# The gateway's rate limiter

Each client ID has a limiter, created by the first request that does not find one and removed
by the cleanup after some idle time. The limiters come from a library, the parameter `lib`.
The parts of a call of `Allow` are separate steps: loading the entry, noting the time in it or
storing a fresh one, asking the limiter. So are the two parts of a cleanup: the visit of an
entry and its deletion. Different client IDs share nothing but the clock.
-/

namespace GrpcVault.RateLimit

open EventSystem TokenBucket

structure RateLimiter where
  r : ℕ
  b : ℕ
  cleanup : ℤ

def newRateLimiter (requestsPerSecond burstSize : ℕ) (cleanupInterval : ℤ) : RateLimiter where
  r := requestsPerSecond
  b := burstSize
  cleanup := cleanupInterval

/-- `rl.cleanup*3`, a product of 64 bits. -/
def RateLimiter.idle (rl : RateLimiter) : ℤ := (rl.cleanup * 3).bmod (2 ^ 64)

structure Client (L : Type) where
  limiter : L
  lastSeen : ℤ

/-- Where a call of `Allow` stands. It refers to a client by its number. -/
inductive Stage where
  | loaded (client : ℕ)
  | missed
  | holding (client : ℕ)
  deriving DecidableEq

/-- What there is for one client ID: the clients made for it, numbered in the order of their
creation, the one the map leads to, and the calls in flight. After a visit of the cleanup that
found it idle the entry is `doomed`. -/
structure Slot (L : Type) where
  clients : ℕ → Option (Client L)
  created : ℕ
  entry : Option ℕ
  calls : ℕ → Option Stage
  next : ℕ
  doomed : Bool

def Slot.empty (L : Type) : Slot L where
  clients := fun _ => none
  created := 0
  entry := none
  calls := fun _ => none
  next := 0
  doomed := false

inductive CallStep where
  | load
  | touch (call : ℕ)
  | store (call : ℕ)
  | allow (call : ℕ)

inductive SweepStep where
  | visit
  | delete

inductive Output where
  | done
  | started (call : ℕ)
  | allowed (ok : Bool)
  deriving DecidableEq

namespace Slot

variable {L : Type} (lib : Limiter L) (rl : RateLimiter) (now : ℤ) (s : Slot L)

/-- The steps of `getLimiter` and `Allow`. A call takes the number `next`. -/
def call : CallStep → Option (Slot L × Output)
  | .load =>
      let stage := match s.entry with
        | some i => Stage.loaded i
        | none => .missed
      some ({ s with calls := Function.update s.calls s.next (some stage)
                     next := s.next + 1 }, .started s.next)
  | .touch call =>
      match s.calls call with
      | some (.loaded i) =>
          (s.clients i).map fun c =>
            ({ s with clients := Function.update s.clients i (some { c with lastSeen := now })
                      calls := Function.update s.calls call (some (.holding i)) }, .done)
      | _ => none
  | .store call =>
      match s.calls call with
      | some .missed =>
          let client : Client L := { limiter := lib.newLimiter rl.r rl.b, lastSeen := now }
          some ({ s with clients := Function.update s.clients s.created (some client)
                         created := s.created + 1
                         entry := some s.created
                         calls := Function.update s.calls call (some (.holding s.created)) },
            .done)
      | _ => none
  | .allow call =>
      match s.calls call with
      | some (.holding i) =>
          (s.clients i).map fun c =>
            let (limiter, ok) := lib.allow c.limiter now
            ({ s with clients := Function.update s.clients i (some { c with limiter })
                      calls := Function.update s.calls call none }, .allowed ok)
      | _ => none

def sweep : SweepStep → Option (Slot L × Output)
  | .visit =>
      if s.doomed then none
      else
        match s.entry with
        | none => none
        | some i =>
            (s.clients i).map fun c =>
              ({ s with doomed := decide (rl.idle < now - c.lastSeen) }, .done)
  | .delete => if s.doomed then some ({ s with entry := none, doomed := false }, .done) else none

section Effects

variable {lib rl now s} {s' : Slot L} {o : Output} {call : ℕ}

theorem touch_effect (h : s.call lib rl now (.touch call) = some (s', o)) :
    ∃ i c, s.calls call = some (.loaded i) ∧ s.clients i = some c ∧ o = .done ∧
      s' = { s with clients := Function.update s.clients i (some { c with lastSeen := now })
                    calls := Function.update s.calls call (some (.holding i)) } := by
  simp only [Slot.call] at h
  split at h
  case h_2 => cases h
  case h_1 i hcall =>
    obtain ⟨c, hc, heq⟩ := Option.map_eq_some_iff.mp h
    obtain ⟨rfl, rfl⟩ := Prod.mk.inj heq
    exact ⟨i, c, hcall, hc, rfl, rfl⟩

theorem store_effect (h : s.call lib rl now (.store call) = some (s', o)) :
    s.calls call = some .missed ∧ o = .done ∧
      s' = { s with
        clients := Function.update s.clients s.created
          (some { limiter := lib.newLimiter rl.r rl.b, lastSeen := now })
        created := s.created + 1
        entry := some s.created
        calls := Function.update s.calls call (some (.holding s.created)) } := by
  simp only [Slot.call] at h
  split at h
  case h_2 => cases h
  case h_1 hcall =>
    obtain ⟨rfl, rfl⟩ := Prod.mk.inj (Option.some.inj h)
    exact ⟨hcall, rfl, rfl⟩

theorem allow_effect (h : s.call lib rl now (.allow call) = some (s', o)) :
    ∃ i c, s.calls call = some (.holding i) ∧ s.clients i = some c ∧
      o = .allowed (lib.allow c.limiter now).2 ∧
      s' = { s with
        clients := Function.update s.clients i (some { c with limiter := (lib.allow c.limiter now).1 })
        calls := Function.update s.calls call none } := by
  simp only [Slot.call] at h
  split at h
  case h_2 => cases h
  case h_1 i hcall =>
    obtain ⟨c, hc, heq⟩ := Option.map_eq_some_iff.mp h
    obtain ⟨rfl, rfl⟩ := Prod.mk.inj heq
    exact ⟨i, c, hcall, hc, rfl, rfl⟩

theorem visit_effect (h : s.sweep rl now .visit = some (s', o)) :
    ∃ i c, s.entry = some i ∧ s.clients i = some c ∧
      s' = { s with doomed := decide (rl.idle < now - c.lastSeen) } := by
  simp only [sweep] at h
  split_ifs at h
  split at h
  case h_1 => cases h
  case h_2 i hentry =>
    obtain ⟨c, hc, heq⟩ := Option.map_eq_some_iff.mp h
    obtain ⟨rfl, -⟩ := Prod.mk.inj heq
    exact ⟨i, c, hentry, hc, rfl⟩

theorem delete_effect (h : s.sweep rl now .delete = some (s', o)) :
    s.doomed = true ∧ s' = { s with entry := none, doomed := false } := by
  simp only [sweep] at h
  split_ifs at h with hdoomed
  obtain ⟨rfl, -⟩ := Prod.mk.inj (Option.some.inj h)
  exact ⟨hdoomed, rfl⟩

end Effects

end Slot

structure State (κ L : Type) where
  now : ℤ
  slots : κ → Slot L

def State.init (κ L : Type) (now : ℤ) : State κ L where
  now := now
  slots := fun _ => .empty L

inductive Event (κ : Type) where
  | tick (d : ℕ)
  | call (clientID : κ) (e : CallStep)
  | sweep (clientID : κ) (e : SweepStep)

abbrev Trace (κ : Type) := List (Event κ × Output)

variable {κ L : Type} [DecidableEq κ]

def State.put (s : State κ L) (clientID : κ) (slot : Slot L) : State κ L :=
  { s with slots := Function.update s.slots clientID slot }

def step (lib : Limiter L) (rl : RateLimiter) : Step (State κ L) (Event κ) Output
  | s, .tick d => some ({ s with now := s.now + d }, .done)
  | s, .call clientID e =>
      ((s.slots clientID).call lib rl s.now e).map fun (slot, o) => (s.put clientID slot, o)
  | s, .sweep clientID e =>
      ((s.slots clientID).sweep rl s.now e).map fun (slot, o) => (s.put clientID slot, o)

variable {lib : Limiter L} {rl : RateLimiter} {clientID : κ} {s s' : State κ L}

@[simp] theorem State.put_now (s : State κ L) (clientID : κ) (slot : Slot L) :
    (s.put clientID slot).now = s.now := rfl

@[simp] theorem State.put_slots_self (s : State κ L) (clientID : κ) (slot : Slot L) :
    (s.put clientID slot).slots clientID = slot := Function.update_self _ _ _

theorem State.put_slots_of_ne {id : κ} {slot : Slot L} (h : clientID ≠ id) :
    (s.put id slot).slots clientID = s.slots clientID := Function.update_of_ne h _ _

theorem step_call {id : κ} {e : CallStep} {o : Output}
    (h : step lib rl s (.call id e) = some (s', o)) :
    ∃ slot, (s.slots id).call lib rl s.now e = some (slot, o) ∧ s' = s.put id slot := by
  obtain ⟨⟨slot, o'⟩, hslot, heq⟩ := Option.map_eq_some_iff.mp h
  obtain ⟨rfl, rfl⟩ := Prod.mk.inj heq
  exact ⟨slot, hslot, rfl⟩

theorem step_sweep {id : κ} {e : SweepStep} {o : Output}
    (h : step lib rl s (.sweep id e) = some (s', o)) :
    ∃ slot, (s.slots id).sweep rl s.now e = some (slot, o) ∧ s' = s.put id slot := by
  obtain ⟨⟨slot, o'⟩, hslot, heq⟩ := Option.map_eq_some_iff.mp h
  obtain ⟨rfl, rfl⟩ := Prod.mk.inj heq
  exact ⟨slot, hslot, rfl⟩

end GrpcVault.RateLimit
