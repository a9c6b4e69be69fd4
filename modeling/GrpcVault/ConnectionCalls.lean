import GrpcVault.ConnectionPool
import GrpcVault.Lib.Simulation

/-!
# Calls for connections at the same time

`GetConnection` looks for the pool of a service under the read lock. Where it finds none it takes
the write lock and looks again before it dials, since another call may have been there in between.
What a call does under a lock is one step, and the calls take their steps in any order.

The answers are those of the calls one after the other (`run_sequential`). While every service
keeps its address and can be reached, a service is dialled once, however many calls find no pool
at first, and its answers go round its pool.
-/

namespace GrpcVault

open GoText EventSystem Resources

/-- The proxy, and the calls that have found no pool under the read lock. -/
structure ProxyCalls where
  proxy : GRPCProxy
  waiting : ℕ → Option (Str × Str)

namespace ProxyCalls

open GRPCProxy (Dials ProxyError poolSize allDials)

def start : ProxyCalls := ⟨newGRPCProxy, fun _ => none⟩

/-- The next connection of a pool; `none` is an index out of range. -/
def nextConn (p : GRPCProxy) (service : Str) (svc : ServiceConnection) : Option (GRPCProxy × ℕ) :=
  let svc := { svc with counter := svc.counter + 1 }
  svc.conns[svc.counter.toNat % svc.conns.length]?.map fun conn =>
    ({ p with connections := p.connections.insert service svc }, conn)

/-- `id` is the call; `write` is the part under the write lock. -/
inductive Event where
  | read (id : ℕ) (service address : Str)
  | write (id : ℕ) (dials : Dials)
  | close

inductive Output where
  | waits
  | answered (service address : Str) (result : Except ProxyError ℕ)
  | closed

abbrev Trace := List (Event × Output)

def step : Step ProxyCalls Event Output
  | c, .read id service address =>
      match c.waiting id with
      | some _ => none
      | none =>
          match c.proxy.pooled service address with
          | some svc => (nextConn c.proxy service svc).map fun (proxy, conn) =>
              ({ c with proxy }, .answered service address (.ok conn))
          | none => some
              ({ c with waiting := Function.update c.waiting id (some (service, address)) }, .waits)
  | c, .write id dials =>
      match c.waiting id with
      | some (service, address) =>
          (c.proxy.getConnection service address dials).map fun (proxy, result) =>
            ({ proxy, waiting := Function.update c.waiting id none },
              .answered service address result)
      | none => none
  | c, .close => some ({ c with proxy := c.proxy.close }, .closed)

/-- The calls in the order in which they are decided. -/
def sequential : Event × Output → GRPCProxy.Trace
  | (.read _ _ _, .answered service address result) =>
      [(.getConnection service address (allDials true), .connection result)]
  | (.write _ dials, .answered service address result) =>
      [(.getConnection service address dials, .connection result)]
  | (.close, _) => [(.close, .closed)]
  | _ => []

inductive Effect (c : ProxyCalls) : Event → Output → ProxyCalls → Prop
  | served {id : ℕ} {service address : Str} {proxy : GRPCProxy} {conn : ℕ}
      (hget : ∀ dials, c.proxy.getConnection service address dials = some (proxy, .ok conn)) :
      Effect c (.read id service address) (.answered service address (.ok conn)) { c with proxy }
  | waits {id : ℕ} {service address : Str} (hid : c.waiting id = none) :
      Effect c (.read id service address) .waits
        { c with waiting := Function.update c.waiting id (some (service, address)) }
  | written {id : ℕ} {service address : Str} {dials : Dials} {proxy : GRPCProxy}
      {result : Except ProxyError ℕ} (hid : c.waiting id = some (service, address))
      (hget : c.proxy.getConnection service address dials = some (proxy, result)) :
      Effect c (.write id dials) (.answered service address result)
        { proxy, waiting := Function.update c.waiting id none }
  | closed : Effect c .close .closed { c with proxy := c.proxy.close }

variable {c c' : ProxyCalls} {e : Event} {o : Output} {tr : Trace} {service address : Str}

theorem getConnection_of_pooled {p p' : GRPCProxy} {svc : ServiceConnection} {conn : ℕ}
    (hpool : p.pooled service address = some svc) (hnext : nextConn p service svc = some (p', conn))
    (dials : Dials) : p.getConnection service address dials = some (p', .ok conn) := by
  obtain ⟨conn', hconn, heq⟩ := Option.map_eq_some_iff.mp hnext
  cases heq
  simp only [GRPCProxy.getConnection, hpool, hconn, Option.map_some]

theorem step_effect (h : step c e = some (c', o)) : Effect c e o c' := by
  cases e with
  | read id service address =>
      rw [step] at h
      split at h
      · cases h
      · split at h
        · rename_i svc hpool
          obtain ⟨⟨proxy, conn⟩, hnext, heq⟩ := Option.map_eq_some_iff.mp h
          cases heq
          exact .served (getConnection_of_pooled hpool hnext)
        · cases h
          exact .waits ‹_›
  | write id dials =>
      rw [step] at h
      split at h
      · obtain ⟨⟨proxy, result⟩, hget, heq⟩ := Option.map_eq_some_iff.mp h
        cases heq
        exact .written ‹_› hget
      · cases h
  | close =>
      cases h
      exact .closed

theorem sequential_simulation :
    Simulation step GRPCProxy.step (fun c p => p = c.proxy) sequential fun x => [x] := by
  rintro c p e o c' rfl h
  cases step_effect h with
  | served hget =>
      refine ⟨[(.getConnection _ _ (allDials true), _)], _, ⟨_, ?_, rfl⟩, rfl, rfl⟩
      rw [GRPCProxy.step, hget]
      rfl
  | waits => exact ⟨[], _, rfl, rfl, rfl⟩
  | written _ hget =>
      refine ⟨[(.getConnection _ _ _, _)], _, ⟨_, ?_, rfl⟩, rfl, rfl⟩
      rw [GRPCProxy.step, hget]
      rfl
  | closed => exact ⟨[(.close, .closed)], _, ⟨_, rfl, rfl⟩, rfl, rfl⟩

/-- Calls at the same time are answered as calls one after the other. -/
theorem run_sequential (hrun : Run step start tr c) :
    Run GRPCProxy.step newGRPCProxy (tr.flatMap sequential) c.proxy := by
  obtain ⟨tr', p, hrun', rfl, hview⟩ := sequential_simulation.run hrun rfl
  rw [← hview, List.flatMap_singleton']
  exact hrun'

/-- Two calls find no pool; one dials it, and the other takes its next connection. -/
def racingTrace : Trace :=
  [(.read 0 ['a'] ['x'], .waits), (.read 1 ['a'] ['x'], .waits),
    (.write 1 (allDials true), .answered ['a'] ['x'] (.ok 0)),
    (.write 0 (allDials true), .answered ['a'] ['x'] (.ok 1))]

theorem exists_run_racingTrace : ∃ c, Run step start racingTrace c :=
  ⟨_, _, rfl, _, rfl, _, rfl, _, rfl, rfl⟩

theorem run_sequential_racing :
    ∃ c, Run step start racingTrace c ∧ Run GRPCProxy.step newGRPCProxy
      [(.getConnection ['a'] ['x'] (allDials true), .connection (.ok 0)),
        (.getConnection ['a'] ['x'] (allDials true), .connection (.ok 1))] c.proxy := by
  obtain ⟨c, hrun⟩ := exists_run_racingTrace
  exact ⟨c, hrun, run_sequential hrun⟩

section Steady

/-- Every service is asked for at its address, every dial succeeds, and the proxy stays open. -/
def Steady (addr : Str → Str) : Event → Prop
  | .read _ service address => address = addr service
  | .write _ dials => dials = allDials true
  | .close => False

def answer (service : Str) : Event × Output → Option ℕ
  | (_, .answered s _ (.ok conn)) => if s = service then some conn else none
  | _ => none

def answers (service : Str) (tr : Trace) : List ℕ := tr.filterMap (answer service)

def Succeeds : Output → Prop
  | .answered _ _ result => result.isOk
  | _ => True

/-- The first `n` connections that a pool hands out. The counter is 64 bits wide. -/
def rounds (first n : ℕ) : List ℕ := (List.range n).map fun k => first + k % 2 ^ 64 % poolSize

/-- A service that has not been asked for, or one with a pool that has handed out `n + 1`
connections. -/
def Served (addr : Str → Str) (p : GRPCProxy) (service : Str) (given : List ℕ) : Prop :=
  (p.connections.lookup service = none ∧ given = []) ∨
    ∃ first n, p.connections.lookup service =
        some ⟨List.range' first poolSize, addr service, UInt64.ofNat n⟩ ∧
      given = rounds first (n + 1)

/-- All services are served, each with a pool of its own and nothing beside the pools. -/
structure Even (addr : Str → Str) (p : GRPCProxy) (given : Str → List ℕ) : Prop where
  served : ∀ service, Served addr p service (given service)
  opened : p.world.opened = poolSize * p.connections.keys.card
  closed : p.world.closed = ∅

variable {addr : Str → Str} {p p' : GRPCProxy} {given : Str → List ℕ}

theorem rounds_succ (first n : ℕ) :
    rounds first (n + 1) = rounds first n ++ [first + n % 2 ^ 64 % poolSize] := by
  rw [rounds, List.range_succ, List.map_append, List.map_singleton, rounds]

theorem dialLoop_succeeds (w : World) :
    GRPCProxy.dialLoop (allDials true).1 w [] =
      (w.acquire poolSize, some (List.range' w.opened poolSize)) := by
  obtain ⟨_, hall⟩ | ⟨hfails, _⟩ := GRPCProxy.dialLoop_cases (allDials true).1 w []
  · rw [hall, (allDials true).2, List.nil_append]
  · exact absurd hfails (by simp [allDials])

theorem keys_insert (m : GoMap Str ServiceConnection) (svc : ServiceConnection) :
    (m.insert service svc).keys = insert service m.keys := by
  ext s
  rw [Finmap.mem_keys, Finmap.mem_insert, Finset.mem_insert, Finmap.mem_keys]

theorem served_insert (h : ∀ s, Served addr p s (given s)) {svc : ServiceConnection} {w : World}
    {list : List ℕ}
    (hservice : Served addr ⟨p.connections.insert service svc, w⟩ service list) (s : Str) :
    Served addr ⟨p.connections.insert service svc, w⟩ s (Function.update given service list s) := by
  by_cases hs : s = service
  · subst hs
    rwa [Function.update_self]
  · rw [Function.update_of_ne hs]
    unfold Served
    dsimp only
    rw [Finmap.lookup_insert_of_ne _ hs]
    exact h s

theorem Even.dial (h : Even addr p given) (hnone : p.connections.lookup service = none)
    (hgiven : given service = []) :
    p.getConnection service (addr service) (allDials true) =
        some (⟨p.connections.insert service
          ⟨List.range' p.world.opened poolSize, addr service, 0⟩, p.world.acquire poolSize⟩,
            .ok p.world.opened) ∧
      Even addr ⟨p.connections.insert service
        ⟨List.range' p.world.opened poolSize, addr service, 0⟩, p.world.acquire poolSize⟩
        (Function.update given service (given service ++ [p.world.opened])) := by
  have hpool : p.pooled service (addr service) = none := by
    rw [GRPCProxy.pooled, hnone]
    rfl
  constructor
  · simp only [GRPCProxy.getConnection, hpool, hnone, dialLoop_succeeds]
    rfl
  · refine ⟨served_insert h.served (.inr ⟨p.world.opened, 0, Finmap.lookup_insert _, ?_⟩), ?_,
      h.closed⟩
    · rw [hgiven]
      rfl
    · have hnew : service ∉ p.connections.keys := by
        rw [Finmap.mem_keys]
        exact Finmap.lookup_eq_none.mp hnone
      rw [keys_insert, Finset.card_insert_of_notMem hnew, World.acquire, h.opened]
      ring

theorem Even.take (h : Even addr p given) {first n : ℕ}
    (hsome : p.connections.lookup service =
      some ⟨List.range' first poolSize, addr service, UInt64.ofNat n⟩)
    (hgiven : given service = rounds first (n + 1)) :
    p.getConnection service (addr service) (allDials true) =
        some (⟨p.connections.insert service
          ⟨List.range' first poolSize, addr service, UInt64.ofNat (n + 1)⟩, p.world⟩,
            .ok (first + (n + 1) % 2 ^ 64 % poolSize)) ∧
      Even addr ⟨p.connections.insert service
          ⟨List.range' first poolSize, addr service, UInt64.ofNat (n + 1)⟩, p.world⟩
        (Function.update given service
          (given service ++ [first + (n + 1) % 2 ^ 64 % poolSize])) := by
  have hpool : p.pooled service (addr service) =
      some ⟨List.range' first poolSize, addr service, UInt64.ofNat n⟩ := by
    rw [GRPCProxy.pooled, hsome]
    simp [poolSize]
  have hcounter : UInt64.ofNat n + 1 = UInt64.ofNat (n + 1) := by
    rw [UInt64.ofNat_add]
    rfl
  have hindex : (List.range' first poolSize)[(UInt64.ofNat (n + 1)).toNat % poolSize]? =
      some (first + (n + 1) % 2 ^ 64 % poolSize) := by
    rw [UInt64.toNat_ofNat', List.getElem?_range' (Nat.mod_lt _ (by decide)), Nat.one_mul]
  constructor
  · simp only [GRPCProxy.getConnection, hpool, List.length_range', hcounter, hindex,
      Option.map_some]
  · refine ⟨served_insert h.served (.inr ⟨first, n + 1, Finmap.lookup_insert _, ?_⟩), ?_, h.closed⟩
    · rw [hgiven, rounds_succ first (n + 1)]
    · have hold : service ∈ p.connections.keys := by
        rw [Finmap.mem_keys]
        exact Finmap.mem_of_lookup_eq_some hsome
      rw [keys_insert, Finset.insert_eq_of_mem hold, h.opened]

/-- A call of a service that stays where it is, however it is made. -/
theorem Even.getConnection (h : Even addr p given) {result : Except ProxyError ℕ}
    (hget : p.getConnection service (addr service) (allDials true) = some (p', result)) :
    ∃ conn, result = .ok conn ∧
      Even addr p' (Function.update given service (given service ++ [conn])) := by
  obtain ⟨hnone, hgiven⟩ | ⟨first, n, hsome, hgiven⟩ := h.served service
  · obtain ⟨heq, heven⟩ := h.dial hnone hgiven
    rw [heq] at hget
    cases hget
    exact ⟨_, rfl, heven⟩
  · obtain ⟨heq, heven⟩ := h.take hsome hgiven
    rw [heq] at hget
    cases hget
    exact ⟨_, rfl, heven⟩

theorem answers_snoc (tr : Trace) (e : Event) (address : Str) (conn : ℕ) :
    (fun s => answers s (tr ++ [(e, .answered service address (.ok conn))])) =
      Function.update (fun s => answers s tr) service (answers service tr ++ [conn]) := by
  funext s
  rw [answers, filterMap_snoc, answer]
  by_cases hs : s = service
  · subst hs
    rw [if_pos rfl, Function.update_self]
    rfl
  · rw [if_neg (Ne.symm hs), Function.update_of_ne hs, Option.toList_none, List.append_nil]
    rfl

/-- The pools are even, no call has failed, and the calls that wait ask for the services at their
addresses. -/
structure SteadyState (addr : Str → Str) (tr : Trace) (c : ProxyCalls) : Prop where
  even : Even addr c.proxy fun s => answers s tr
  succeeds : ∀ x ∈ tr, Succeeds x.2
  waiting : ∀ id s a, c.waiting id = some (s, a) → a = addr s

theorem Even.answered {result : Except ProxyError ℕ} (h : Even addr p fun s => answers s tr)
    (hget : p.getConnection service (addr service) (allDials true) = some (p', result)) (e : Event)
    (address : Str) :
    Even addr p' (fun s => answers s (tr ++ [(e, .answered service address result)])) ∧
      Succeeds (.answered service address result) := by
  obtain ⟨conn, rfl, h'⟩ := h.getConnection hget
  rw [answers_snoc]
  exact ⟨h', rfl⟩

theorem SteadyState.step (h : SteadyState addr tr c) (he : Steady addr e)
    (hs : ProxyCalls.step c e = some (c', o)) : SteadyState addr (tr ++ [(e, o)]) c' := by
  have hsucceeds (ho : Succeeds o) : ∀ x ∈ tr ++ [(e, o)], Succeeds x.2 :=
    List.forall_mem_append.mpr ⟨h.succeeds, List.forall_mem_singleton.mpr ho⟩
  cases step_effect hs with
  | served hget =>
      cases (he : _ = _)
      obtain ⟨heven, ho⟩ := h.even.answered (hget _) _ _
      exact ⟨heven, hsucceeds ho, h.waiting⟩
  | waits =>
      refine ⟨?_, hsucceeds trivial, fun id s a hid => ?_⟩
      · simpa only [answers, filterMap_snoc, answer, Option.toList_none, List.append_nil]
          using h.even
      · dsimp only at hid
        rw [Function.update_apply] at hid
        split at hid
        · cases hid
          exact he
        · exact h.waiting id s a hid
  | written hid hget =>
      cases (he : _ = _)
      cases h.waiting _ _ _ hid
      obtain ⟨heven, ho⟩ := h.even.answered hget _ _
      refine ⟨heven, hsucceeds ho, fun id s a hid => ?_⟩
      dsimp only at hid
      rw [Function.update_apply] at hid
      split at hid
      · cases hid
      · exact h.waiting id s a hid
  | closed => exact he.elim

end Steady

end ProxyCalls

end GrpcVault
