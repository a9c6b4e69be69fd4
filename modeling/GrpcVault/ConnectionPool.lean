import GrpcVault.Lib.Resources
import GrpcVault.Lib.GoText
import GrpcVault.Lib.EventSystem

/-!
# The connection pools of the gateway

Package `proxy`: one pool of connections for each service, built when a service is asked for or
when its address changes. The calls follow one another. A connection is named by the order in
which it is dialled, and the world has which of them have been closed.

A pool that cannot be replaced stays in the map after its connections have been closed. That is
the only way for a closed connection to be in a pool, to be handed out, or to be closed by a call
that fails without having dialled it.
-/

namespace GrpcVault

open GoText EventSystem Resources

structure ServiceConnection where
  conns : List ℕ
  address : Str
  counter : UInt64

structure GRPCProxy where
  connections : GoMap Str ServiceConnection
  world : World

def newGRPCProxy : GRPCProxy where
  connections := ∅
  world := World.new

namespace GRPCProxy

def poolSize : ℕ := 10

abbrev Dials := { outcomes : List Bool // outcomes.length = poolSize }

inductive ProxyError where
  | unavailable (service : Str)

def ProxyError.message : ProxyError → Str
  | .unavailable service => "failed to connect to ".toList ++ service

variable (p : GRPCProxy)

/-- The pool of the service, if it can serve the address. -/
def pooled (service address : Str) : Option ServiceConnection :=
  (p.connections.lookup service).filter fun svc => svc.address = address ∧ 0 < svc.conns.length

/-- The loop that fills a pool. A dial that fails closes the connections dialled before it. -/
def dialLoop : List Bool → World → List ℕ → World × Option (List ℕ)
  | [], w, conns => (w, some conns)
  | true :: dials, w, conns => dialLoop dials (w.acquire 1) (conns ++ [w.opened])
  | false :: _, w, conns => (w.close conns.toFinset, none)

/-- `GetConnection`; `none` is an index out of range. -/
def getConnection (service address : Str) (dials : Dials) :
    Option (GRPCProxy × Except ProxyError ℕ) :=
  match p.pooled service address with
  | some svc =>
      let svc := { svc with counter := svc.counter + 1 }
      svc.conns[svc.counter.toNat % svc.conns.length]?.map fun conn =>
        ({ p with connections := p.connections.insert service svc }, .ok conn)
  | none =>
      -- the check under the write lock finds no other pool: no call has run since the first one
      let world := match p.connections.lookup service with
        | some svc => p.world.close svc.conns.toFinset
        | none => p.world
      match dialLoop dials.1 world [] with
      | (world, none) => some ({ p with world }, .error (.unavailable service))
      | (world, some conns) =>
          conns[0]?.map fun conn =>
            ({ connections := p.connections.insert service { conns, address, counter := 0 }
               world }, .ok conn)

def close : GRPCProxy where
  connections := ∅
  world := p.world.close
    ((GoMap.values p.connections).bind fun svc => (svc.conns : Multiset ℕ)).toFinset

inductive Event where
  | getConnection (service address : Str) (dials : Dials)
  | close

inductive Output where
  | connection (result : Except ProxyError ℕ)
  | closed

abbrev Trace := List (Event × Output)

def step : Step GRPCProxy Event Output
  | p, .getConnection service address dials =>
      (p.getConnection service address dials).map fun r => (r.1, .connection r.2)
  | p, .close => some (p.close, .closed)

def held (service : Str) : Finset ℕ :=
  match p.connections.lookup service with
  | some svc => svc.conns.toFinset
  | none => ∅

variable {p} {p' : GRPCProxy} {service address : Str} {dials : Dials} {e : Event} {o : Output}
  {svc : ServiceConnection} {tr : Trace}

theorem dialLoop_cases (dials : List Bool) (w : World) (conns : List ℕ) :
    (false ∉ dials ∧ dialLoop dials w conns =
        (w.acquire dials.length, some (conns ++ List.range' w.opened dials.length))) ∨
      (false ∈ dials ∧ ∃ n < dials.length, dialLoop dials w conns =
        ((w.acquire n).close (conns ++ List.range' w.opened n).toFinset, none)) := by
  induction dials generalizing w conns with
  | nil => exact .inl ⟨List.not_mem_nil, by simp [dialLoop, World.acquire]⟩
  | cons outcome dials ih =>
      cases outcome with
      | false => exact .inr ⟨List.mem_cons_self, 0, by simp, by simp [dialLoop, World.acquire]⟩
      | true =>
          -- the names of the remaining dials start after the one that has succeeded
          have hnames : ∀ n, (conns ++ [w.opened]) ++ List.range' (w.acquire 1).opened n =
              conns ++ List.range' w.opened (n + 1) := by
            intro n
            rw [List.range'_succ, List.append_assoc, List.singleton_append]
            rfl
          have hacquire : ∀ n, (w.acquire 1).acquire n = w.acquire (n + 1) := by
            intro n
            simp [World.acquire, add_comm, add_left_comm]
          obtain ⟨hdials, hall⟩ | ⟨hdials, n, hn, hfail⟩ := ih (w.acquire 1) (conns ++ [w.opened])
          · rw [hnames, hacquire] at hall
            exact .inl ⟨by simpa using hdials, hall⟩
          · rw [hnames, hacquire] at hfail
            exact .inr ⟨List.mem_cons_of_mem _ hdials, n + 1, Nat.succ_lt_succ hn, hfail⟩

inductive Effect (p : GRPCProxy) : Event → Output → GRPCProxy → Prop
  | served {service address : Str} {dials : Dials} {svc : ServiceConnection} {conn : ℕ}
      (hlookup : p.connections.lookup service = some svc) (haddress : svc.address = address)
      (hconn : conn ∈ svc.conns) :
      Effect p (.getConnection service address dials) (.connection (.ok conn))
        { p with
          connections := p.connections.insert service { svc with counter := svc.counter + 1 } }
  | connected {service address : Str} {dials : Dials} (hdials : false ∉ dials.1) :
      Effect p (.getConnection service address dials) (.connection (.ok p.world.opened))
        { connections := p.connections.insert service
            { conns := List.range' p.world.opened poolSize, address, counter := 0 }
          world := (p.world.close (p.held service)).acquire poolSize }
  | failed {service address : Str} {dials : Dials} {n : ℕ} (hdials : false ∈ dials.1)
      (hpool : p.pooled service address = none) :
      Effect p (.getConnection service address dials)
        (.connection (.error (.unavailable service)))
        { p with
          world := ((p.world.close (p.held service)).acquire n).close (p.world.fresh n) }
  | closed : Effect p .close .closed p.close

theorem toFinset_names (w : World) (n : ℕ) :
    (List.range' w.opened n).toFinset = w.fresh n := List.toFinset_range'_1 _ _

theorem closeOld_eq :
    (match p.connections.lookup service with
      | some svc => p.world.close svc.conns.toFinset
      | none => p.world) = p.world.close (p.held service) := by
  unfold held
  cases p.connections.lookup service with
  | some svc => rfl
  | none => simp [World.close]

theorem getConnection_effect (p : GRPCProxy) (service address : Str) (dials : Dials) :
    ∃ p' result, p.getConnection service address dials = some (p', result) ∧
      Effect p (.getConnection service address dials) (.connection result) p' := by
  cases hpool : p.pooled service address with
  | some svc =>
      obtain ⟨hlookup, hserves⟩ := Option.filter_eq_some_iff.mp hpool
      obtain ⟨haddress, hpos⟩ := of_decide_eq_true hserves
      have hindex := List.getElem?_eq_getElem (Nat.mod_lt (svc.counter + 1).toNat hpos)
      refine ⟨_, .ok _, ?_, .served hlookup haddress (List.mem_of_getElem? hindex)⟩
      simp only [getConnection, hpool, hindex, Option.map_some]
  | none =>
      obtain ⟨hdials, hall⟩ | ⟨hdials, n, _, hfail⟩ :=
        dialLoop_cases dials.1 (p.world.close (p.held service)) []
      · refine ⟨_, _, ?_, .connected hdials⟩
        simp only [getConnection, hpool, closeOld_eq, hall, dials.2]
        rfl
      · refine ⟨_, _, ?_, .failed (n := n) hdials hpool⟩
        simp only [getConnection, hpool, closeOld_eq, hfail, List.nil_append]
        rw [← toFinset_names]
        rfl

theorem step_effect (h : step p e = some (p', o)) : Effect p e o p' := by
  cases e with
  | close =>
      cases h
      exact .closed
  | getConnection service address dials =>
      obtain ⟨q, result, hget, heffect⟩ := getConnection_effect p service address dials
      rw [step, hget] at h
      cases h
      exact heffect

theorem held_of_lookup (h : p.connections.lookup service = some svc) :
    p.held service = svc.conns.toFinset := by
  unfold held
  rw [h]

theorem mem_held {conn : ℕ} (h : p.connections.lookup service = some svc)
    (hconn : conn ∈ svc.conns) : conn ∈ p.held service := by
  rw [held_of_lookup h]
  exact List.mem_toFinset.mpr hconn

theorem held_of_lookup_none (h : p.connections.lookup service = none) : p.held service = ∅ := by
  unfold held
  rw [h]

theorem held_insert (w : World) :
    held ⟨p.connections.insert service svc, w⟩ =
      Function.update p.held service svc.conns.toFinset := by
  funext service'
  by_cases hservice : service' = service
  · subst hservice
    rw [Function.update_self]
    exact held_of_lookup (Finmap.lookup_insert _)
  · rw [Function.update_of_ne hservice]
    unfold held
    rw [Finmap.lookup_insert_of_ne _ hservice]

/-- No two pools have a connection in common, and every pool has connections. -/
structure Valid (p : GRPCProxy) : Prop where
  owned : Owned p.world p.held
  filled : ∀ service svc, p.connections.lookup service = some svc → svc.conns ≠ []

theorem valid_new : newGRPCProxy.Valid where
  owned := owned_new
  filled _ _ h := by cases h

/-- The pool of the service has another address, and a dial of the new one fails. -/
def FailsToReplace (p : GRPCProxy) : Event → Prop
  | .getConnection service address dials =>
      (∃ svc, p.connections.lookup service = some svc ∧ svc.address ≠ address) ∧ false ∈ dials.1
  | .close => False

theorem filled_insert (h : ∀ service svc, p.connections.lookup service = some svc → svc.conns ≠ [])
    (hsvc : svc.conns ≠ []) :
    ∀ service' svc', (p.connections.insert service svc).lookup service' = some svc' →
      svc'.conns ≠ [] := by
  intro service' svc' hlookup
  obtain ⟨_, rfl⟩ | ⟨_, hold⟩ := GoMap.lookup_insert_cases hlookup
  · exact hsvc
  · exact h service' svc' hold

theorem mem_held_of_mem_values {conn : ℕ}
    (h : conn ∈ ((GoMap.values p.connections).bind fun svc => (svc.conns : Multiset ℕ)).toFinset) :
    ∃ service, conn ∈ p.held service := by
  rw [Multiset.mem_toFinset, Multiset.mem_bind] at h
  obtain ⟨svc, hsvc, hconn⟩ := h
  obtain ⟨service, hlookup⟩ := GoMap.mem_values.mp hsvc
  exact ⟨service, mem_held hlookup hconn⟩

theorem held_served (h : p.connections.lookup service = some svc) :
    held { p with
      connections := p.connections.insert service { svc with counter := svc.counter + 1 } } =
      p.held := by
  rw [held_insert, ← held_of_lookup h, Function.update_eq_self]

theorem held_connected (w : World) :
    held ⟨p.connections.insert service
      { conns := List.range' p.world.opened poolSize, address, counter := 0 }, w⟩ =
      Function.update p.held service (p.world.fresh poolSize) := by
  rw [held_insert, toFinset_names]

theorem step_valid (hp : p.Valid) (h : step p e = some (p', o)) : p'.Valid := by
  cases step_effect h with
  | served hlookup _ hconn =>
      refine ⟨?_, filled_insert hp.filled (List.ne_nil_of_mem hconn)⟩
      rw [held_served hlookup]
      exact hp.owned
  | connected =>
      refine ⟨?_, filled_insert hp.filled (by simp [poolSize])⟩
      rw [held_connected]
      exact hp.owned.renew _ _
  | failed => exact ⟨hp.owned.abandon _ _, hp.filled⟩
  | closed => exact ⟨hp.owned.drop fun _ => mem_held_of_mem_values, fun _ _ h => by cases h⟩

/-- A call that has to dial, and fails, fails to replace a pool exactly if there is one. -/
theorem Valid.failsToReplace_iff (hp : p.Valid) (hdials : false ∈ dials.1)
    (hpool : p.pooled service address = none) :
    FailsToReplace p (.getConnection service address dials) ↔
      p.connections.lookup service ≠ none := by
  constructor
  · rintro ⟨⟨svc, hlookup, _⟩, _⟩ hnone
    rw [hnone] at hlookup
    cases hlookup
  · intro hsome
    obtain ⟨svc, hlookup⟩ := Option.ne_none_iff_exists'.mp hsome
    refine ⟨⟨svc, hlookup, ?_⟩, hdials⟩
    -- the pool has connections, so it does not serve the call because of its address
    intro haddress
    have hlength := List.length_pos_of_ne_nil (hp.filled service svc hlookup)
    rw [pooled, hlookup, Option.filter_some, if_pos (by simp [haddress, hlength])] at hpool
    cases hpool

theorem step_live (hp : p.Valid) (hlive : Live p.world p.held) (h : step p e = some (p', o))
    (hok : ¬ FailsToReplace p e) : Live p'.world p'.held := by
  cases step_effect h with
  | served hlookup =>
      rw [held_served hlookup]
      exact hlive
  | connected =>
      rw [held_connected]
      exact hp.owned.live_renew hlive _ _
  | failed hdials hpool =>
      have hnone := not_not.mp (mt (hp.failsToReplace_iff hdials hpool).mpr hok)
      exact hp.owned.live_abandon hlive (held_of_lookup_none hnone) _
  | closed => exact fun _ => Finset.disjoint_empty_left _

theorem run_valid (hrun : Run step newGRPCProxy tr p) : p.Valid :=
  hrun.preserves (fun _ _ _ _ hp h => step_valid hp h) valid_new

theorem run_live (hrun : Run step newGRPCProxy tr p)
    (hok : ¬ Occurs step (fun p x => FailsToReplace p x.1) newGRPCProxy tr) :
    Live p.world p.held := by
  refine hrun.snocInduction (I := fun tr p =>
    ¬ Occurs step (fun p x => FailsToReplace p x.1) newGRPCProxy tr → Live p.world p.held) ?_ ?_ hok
  · exact fun _ => live_new
  · intro tr m e o m' hm ih hs hok
    rw [occurs_snoc hm] at hok
    obtain ⟨hok, hlast⟩ := not_or.mp hok
    exact step_live (run_valid hm) (ih hok) hs hlast

/-- What the pools are for, along a run: no connection in a pool has been closed, none that is
handed out has been, and a call that fails closes the connections that it has dialled. -/
structure HandsOutOpen (tr : Trace) : Prop where
  pools : ∀ tr₁ p, tr₁ <+: tr → Run step newGRPCProxy tr₁ p →
    ∀ service svc, p.connections.lookup service = some svc →
      ∀ conn ∈ svc.conns, conn ∉ p.world.closed
  returned : ∀ tr₁ e conn p, tr₁ ++ [(e, .connection (.ok conn))] <+: tr →
    Run step newGRPCProxy (tr₁ ++ [(e, .connection (.ok conn))]) p → conn ∉ p.world.closed
  failures : ∀ tr₁ e err p p', tr₁ ++ [(e, .connection (.error err))] <+: tr →
    Run step newGRPCProxy tr₁ p → step p e = some (p', .connection (.error err)) →
      p'.world.closed = p.world.closed ∪ Finset.Ico p.world.opened p'.world.opened

theorem step_returned {conn : ℕ} (h : step p e = some (p', .connection (.ok conn))) :
    ∃ service, conn ∈ p'.held service := by
  generalize ho : Output.connection (.ok conn) = o at h
  cases step_effect h with
  | @served service _ _ svc conn' hlookup _ hconn =>
      cases ho
      refine ⟨service, ?_⟩
      rw [held_served hlookup]
      exact mem_held hlookup hconn
  | @connected service address _ _ =>
      cases ho
      refine ⟨service, ?_⟩
      rw [held_connected, Function.update_self]
      exact Finset.mem_Ico.mpr ⟨le_rfl, Nat.lt_add_of_pos_right (by decide)⟩
  | failed => cases ho
  | closed => cases ho

/-- A call that fails closes the pool of its service and the connections it has dialled. -/
theorem step_failed {err : ProxyError} (hp : p.Valid)
    (h : step p e = some (p', .connection (.error err))) :
    ∃ service, p'.connections = p.connections ∧
      (FailsToReplace p e ↔ p.connections.lookup service ≠ none) ∧
      p'.world.closed =
        (p.world.closed ∪ p.held service) ∪ Finset.Ico p.world.opened p'.world.opened := by
  generalize ho : Output.connection (.error err) = o at h
  cases step_effect h with
  | served => cases ho
  | connected => cases ho
  | @failed service _ _ n hdials hpool =>
      cases ho
      exact ⟨service, rfl, hp.failsToReplace_iff hdials hpool, rfl⟩
  | closed => cases ho

theorem FailsToReplace.output (hfails : FailsToReplace p e) (h : step p e = some (p', o)) :
    ∃ err, o = .connection (.error err) := by
  cases step_effect h with
  | served hlookup haddress =>
      obtain ⟨⟨svc, hlookup', hother⟩, _⟩ := hfails
      rw [hlookup] at hlookup'
      cases hlookup'
      exact absurd haddress hother
  | connected hdials => exact absurd hfails.2 hdials
  | failed => exact ⟨_, rfl⟩
  | closed => exact absurd hfails id

/-- No connection that is closed is in a pool or handed out along a run, and its failing calls
close what they have dialled and nothing else, exactly if no call of the run comes with a failing
dial for a service whose pool has another address. -/
theorem pool_open_iff (hrun : Run step newGRPCProxy tr p) :
    HandsOutOpen tr ↔ ¬ Occurs step (fun p x => FailsToReplace p x.1) newGRPCProxy tr := by
  constructor
  · rintro hopen ⟨tr₁, ⟨e, o⟩, tr₂, m, rfl, hm, hfails⟩
    obtain ⟨n, m', hn, hs, _⟩ := run_append_cons.mp hrun
    obtain rfl := hm.unique hn
    obtain ⟨err, rfl⟩ := FailsToReplace.output hfails hs
    -- the pool stays in the map, and the call has closed it
    obtain ⟨service, hsame, hfails_iff, hclosed⟩ := step_failed (run_valid hm) hs
    obtain ⟨svc, hlookup⟩ := Option.ne_none_iff_exists'.mp (hfails_iff.mp hfails)
    obtain ⟨conn, hconn⟩ := List.exists_mem_of_ne_nil _ ((run_valid hm).filled service svc hlookup)
    refine hopen.pools (tr₁ ++ [(e, .connection (.error err))]) m' (by simp)
      (run_snoc.mpr ⟨m, hm, hs⟩) service svc (hsame ▸ hlookup) conn hconn ?_
    rw [hclosed]
    exact Finset.mem_union_left _ (Finset.mem_union_right _ (mem_held hlookup hconn))
  · intro hok
    have hlive : ∀ tr₁ p, tr₁ <+: tr → Run step newGRPCProxy tr₁ p → Live p.world p.held :=
      fun tr₁ p hpre hp => run_live hp fun h => hok (h.of_isPrefix hpre)
    refine ⟨?_, ?_, ?_⟩
    · intro tr₁ p hpre hp service svc hlookup conn hconn
      exact Finset.disjoint_left.mp (hlive tr₁ p hpre hp service) (mem_held hlookup hconn)
    · intro tr₁ e conn p hpre hp
      obtain ⟨m, _, hs⟩ := run_snoc.mp hp
      obtain ⟨service, hheld⟩ := step_returned hs
      exact Finset.disjoint_left.mp (hlive _ p hpre hp service) hheld
    · intro tr₁ e err p p' hpre hp hs
      obtain ⟨service, _, hfails_iff, hclosed⟩ := step_failed (run_valid hp) hs
      have hnot : ¬ FailsToReplace p e := by
        intro hfails
        obtain ⟨tr₂, rfl⟩ := hpre
        exact hok ⟨tr₁, (e, _), tr₂, p, List.append_assoc .., hp, hfails⟩
      have hnone := not_not.mp (mt hfails_iff.mpr hnot)
      rw [hclosed, held_of_lookup_none hnone, Finset.union_empty]

def allDials (outcome : Bool) : Dials := ⟨List.replicate poolSize outcome, List.length_replicate⟩

def servedTrace : Trace :=
  [(.getConnection ['a'] ['x'] (allDials true), .connection (.ok 0)),
    (.getConnection ['a'] ['x'] (allDials true), .connection (.ok 1))]

def failedCall : Event × Output :=
  (.getConnection ['b'] ['y'] (allDials false), .connection (.error (.unavailable ['b'])))

/-- A call for another service fails after `servedTrace`. -/
theorem pool_open_other :
    (∃ p, Run step newGRPCProxy (servedTrace ++ [failedCall]) p) ∧
      HandsOutOpen (servedTrace ++ [failedCall]) := by
  have hrun : ∃ p, Run step newGRPCProxy (servedTrace ++ [failedCall]) p :=
    ⟨_, _, rfl, _, rfl, _, rfl, rfl⟩
  refine ⟨hrun, ?_⟩
  obtain ⟨p, hp⟩ := hrun
  refine (pool_open_iff hp).mpr ?_
  have hserved : Run step newGRPCProxy servedTrace _ := ⟨_, rfl, _, rfl, rfl⟩
  rw [occurs_snoc hserved]
  rintro (⟨tr₁, x, tr₂, m, htr, _, hfails⟩ | hfails)
  · have hx : x ∈ servedTrace := by simp [htr]
    simp [servedTrace] at hx
    obtain rfl | rfl := hx <;> exact absurd hfails.2 (by simp [allDials])
  · obtain ⟨⟨svc, hlookup, _⟩, _⟩ := hfails
    cases hlookup

/-- The address of a service changes, the new one cannot be reached, and the old one is asked for
again: the call returns a connection that has been closed. -/
theorem closed_connection_returned :
    ∃ tr p, tr = [(.getConnection ['a'] ['x'] (allDials true), .connection (.ok 0)),
        (.getConnection ['a'] ['y'] (allDials false),
          .connection (.error (.unavailable ['a']))),
        (.getConnection ['a'] ['x'] (allDials true), .connection (.ok 1))] ∧
      Run step newGRPCProxy tr p ∧ 1 ∈ p.world.closed ∧ ¬ HandsOutOpen tr := by
  refine ⟨_, _, rfl, ⟨_, rfl, _, rfl, _, rfl, rfl⟩, by decide, ?_⟩
  intro hopen
  refine hopen.returned [_, _] _ 1 _ List.prefix_rfl ⟨_, rfl, _, rfl, _, rfl, rfl⟩ ?_
  decide

end GRPCProxy
end GrpcVault
