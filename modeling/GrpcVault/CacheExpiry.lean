import GrpcVault.LruCache
import GrpcVault.Lib.EventSystem

/-!
# Expiry in runs of the cache

The calls on one cache as events, with the evictions that its bound causes and the clock. What
a lookup may serve is said on the trace: the last write of the key, with the moment at which it
expires. With a positive time to live the cache serves nothing else. Without one it does not
look at the expiry of an entry at all, so that of `SetWithTTL` is ignored.
-/

namespace GrpcVault.LRUCache

open EventSystem

variable {K V : Type}

inductive Event (K V : Type) where
  | set (key : K) (value : V)
  | setWithTTL (key : K) (value : V) (ttl : ℤ)
  | get (key : K)
  | contains (key : K)
  | delete (key : K)
  | clear
  | evict (key : K)
  | tick (d : ℕ)

inductive Output (V : Type) where
  | done
  | value (result : Option V)
  | answer (result : Bool)

abbrev Trace (K V : Type) := List (Event K V × Output V)

structure System (K V : Type) where
  cache : LRUCache K V
  now : ℤ

def System.new (K V : Type) (ttl now : ℤ) : System K V where
  cache := newLRUCacheWithTTL K V ttl
  now := now

def Event.duration : Event K V → ℕ
  | .tick d => d
  | _ => 0

variable [DecidableEq K]

def step : Step (System K V) (Event K V) (Output V)
  | s, .set key value => some ({ s with cache := s.cache.set s.now key value }, .done)
  | s, .setWithTTL key value ttl =>
      some ({ s with cache := s.cache.setWithTTL s.now key value ttl }, .done)
  | s, .get key =>
      some ({ s with cache := (s.cache.get s.now key).1 }, .value (s.cache.get s.now key).2)
  | s, .contains key => some (s, .answer (s.cache.contains s.now key))
  | s, .delete key =>
      some ({ s with cache := (s.cache.delete key).1 }, .answer (s.cache.delete key).2)
  | s, .clear => some ({ s with cache := s.cache.clear }, .done)
  | s, .evict key => some ({ s with cache := s.cache.remove key }, .done)
  | s, .tick d => some ({ s with now := s.now + d }, .done)

/-- What an event at `now` writes under the key in a cache with the time to live `ttl`: the value
and its expiry, if it has one. -/
def Event.writes (ttl : ℤ) (key : K) (now : ℤ) : Event K V → Option (V × Option ℤ)
  | .set key' value =>
      if key' = key then some (value, if 0 < ttl then some (now + ttl) else none) else none
  | .setWithTTL key' value d => if key' = key then some (value, some (now + d)) else none
  | _ => none

@[simp] def Event.Changes (key : K) : Event K V → Prop
  | .set key' _ => key' = key
  | .setWithTTL key' _ _ => key' = key
  | .delete key' => key' = key
  | .clear => True
  | _ => False

@[simp] def Event.Displaces (key : K) (e : Event K V) : Prop := e.Changes key ∨ e = .evict key

/-- The last write of the key, if it has not been deleted or cleared since. -/
def LastWrite (ttl now : ℤ) (tr : Trace K V) (key : K) (value : V) (expiry : Option ℤ) : Prop :=
  Since Event.duration (fun t x => x.1.writes ttl key t = some (value, expiry))
    (fun x => x.1.Changes key) now tr

/-- The last write of the key, if it has not been evicted since either. -/
def Held (ttl now : ℤ) (tr : Trace K V) (key : K) (value : V) (expiry : Option ℤ) : Prop :=
  Since Event.duration (fun t x => x.1.writes ttl key t = some (value, expiry))
    (fun x => x.1.Displaces key) now tr

variable {ttl now start : ℤ} {tr : Trace K V} {s s' : System K V} {e : Event K V} {o : Output V}
  {key : K} {value : V} {expiry : Option ℤ}

theorem Event.changes_of_writes (h : e.writes ttl key now = some (value, expiry)) :
    e.Changes key := by
  cases e with
  | set key' _ | setWithTTL key' _ _ =>
      by_contra hne
      rw [writes, if_neg (show ¬ key' = key from hne)] at h
      cases h
  | get | contains | delete | clear | evict | tick => cases h

theorem Held.lastWrite (h : Held ttl start tr key value expiry) :
    LastWrite ttl start tr key value expiry :=
  h.mono fun _ hx => .inl hx

theorem LastWrite.unique {value' : V} {expiry' : Option ℤ}
    (h : LastWrite ttl start tr key value expiry)
    (h' : LastWrite ttl start tr key value' expiry') : value = value' ∧ expiry = expiry' := by
  obtain ⟨_, _, _, _, ⟨hw, hw'⟩, _⟩ :=
    Since.and h h' (fun _ _ => Event.changes_of_writes) (fun _ _ => Event.changes_of_writes)
  rw [hw] at hw'
  cases hw'
  exact ⟨rfl, rfl⟩

/-- What an event does to the entry of a key: it writes it, it takes it out, it finds it expired,
or it leaves it alone. -/
inductive EntryEffect (s : System K V) (key : K) : Event K V → Option (CacheEntry V) → Prop
  | written {e : Event K V} {value : V} {expiry : Option ℤ} {expiresAt : ℤ}
      (hwrites : e.writes s.cache.ttl key s.now = some (value, expiry))
      (hexpiry : 0 < s.cache.ttl → expiry = some expiresAt) :
      EntryEffect s key e (some { value, expiresAt })
  | removed {e : Event K V} (hwrites : e.writes s.cache.ttl key s.now = none)
      (hdisplaces : e.Displaces key) : EntryEffect s key e none
  | expired {e : Event K V} (httl : 0 < s.cache.ttl)
      (hdisplaces : ¬ e.Displaces key) : EntryEffect s key e none
  | kept {e : Event K V} (hdisplaces : ¬ e.Displaces key) :
      EntryEffect s key e (s.cache.entries key)

theorem get_entries (c : LRUCache K V) (now : ℤ) (key' key : K) :
    (c.get now key').1.ttl = c.ttl ∧
      ((c.get now key').1.entries key = c.entries key ∨
        (0 < c.ttl ∧ (c.get now key').1.entries key = none)) := by
  obtain ⟨_, hget⟩ | ⟨entry, _, httl, _, hget⟩ | ⟨entry, _, _, hget⟩ := c.get_cases now key'
  · rw [hget]
    exact ⟨rfl, .inl rfl⟩
  · rw [hget]
    refine ⟨rfl, ?_⟩
    by_cases hkey : key = key'
    · subst hkey
      exact .inr ⟨httl, Function.update_self ..⟩
    · exact .inl (Function.update_of_ne hkey ..)
  · rw [hget]
    exact ⟨rfl, .inl rfl⟩

theorem entryEffect_update {key' : K} {entry : CacheEntry V}
    (hwrites : key' = key → ∃ expiry, e.writes s.cache.ttl key s.now = some (entry.value, expiry) ∧
      (0 < s.cache.ttl → expiry = some entry.expiresAt))
    (hother : key' ≠ key → ¬ e.Displaces key) :
    EntryEffect s key e (Function.update s.cache.entries key' (some entry) key) := by
  by_cases hkey : key' = key
  · obtain ⟨expiry, hwritten, hexpiry⟩ := hwrites hkey
    rw [← hkey, Function.update_self]
    exact .written (hkey ▸ hwritten) hexpiry
  · rw [Function.update_of_ne (Ne.symm hkey)]
    exact .kept (hother hkey)

theorem entryEffect_remove {key' : K} (hwrites : e.writes s.cache.ttl key s.now = none)
    (hdisplaces : e.Displaces key ↔ key' = key) :
    EntryEffect s key e ((s.cache.remove key').entries key) := by
  unfold remove
  by_cases hkey : key' = key
  · subst hkey
    simp only [Function.update_self]
    exact .removed hwrites (hdisplaces.mpr rfl)
  · simp only [Function.update_of_ne (Ne.symm hkey)]
    exact .kept (mt hdisplaces.mp hkey)

theorem step_effect (h : step s e = some (s', o)) :
    s'.cache.ttl = s.cache.ttl ∧ s'.now = s.now + e.duration ∧
      ∀ key, EntryEffect s key e (s'.cache.entries key) := by
  cases e with
  | set key' value =>
      cases h
      refine ⟨rfl, (add_zero _).symm, fun key => entryEffect_update ?_ ?_⟩
      · intro hkey
        refine ⟨_, if_pos hkey, ?_⟩
        intro httl
        simp only [if_pos httl]
      · simp
  | setWithTTL key' value ttl =>
      cases h
      refine ⟨rfl, (add_zero _).symm, fun key => entryEffect_update ?_ ?_⟩
      · intro hkey
        exact ⟨_, if_pos hkey, fun _ => rfl⟩
      · simp
  | get key' =>
      cases h
      refine ⟨(get_entries s.cache s.now key' key').1, (add_zero _).symm, fun key => ?_⟩
      have hdisplaces : ¬ (Event.get key' : Event K V).Displaces key := by
        simp
      change EntryEffect s key (.get key') ((s.cache.get s.now key').1.entries key)
      obtain hkept | ⟨httl, hnone⟩ := (get_entries s.cache s.now key' key).2
      · rw [hkept]
        exact .kept hdisplaces
      · rw [hnone]
        exact .expired httl hdisplaces
  | contains key' =>
      cases h
      exact ⟨rfl, (add_zero _).symm, fun key => .kept (by simp)⟩
  | delete key' =>
      cases h
      refine ⟨rfl, (add_zero _).symm, fun key => entryEffect_remove rfl ?_⟩
      simp
  | clear =>
      cases h
      exact ⟨rfl, (add_zero _).symm, fun key => .removed rfl (.inl trivial)⟩
  | evict key' =>
      cases h
      refine ⟨rfl, (add_zero _).symm, fun key => entryEffect_remove rfl ?_⟩
      simp
  | tick d =>
      cases h
      exact ⟨rfl, rfl, fun key => .kept (by simp)⟩

/-- The cache has the writes of the trace: what is in it is the last write of its key, with its
expiry where the cache looks at it, and where it does not, nothing is missing but evictions. -/
structure Recorded (ttl start : ℤ) (tr : Trace K V) (s : System K V) : Prop where
  lifetime : s.cache.ttl = ttl
  time : s.now = clock Event.duration start tr
  held : ∀ key entry, s.cache.entries key = some entry →
    ∃ expiry, Held ttl start tr key entry.value expiry ∧
      (0 < ttl → expiry = some entry.expiresAt)
  stored : ¬ 0 < ttl → ∀ key value expiry, Held ttl start tr key value expiry →
    ∃ entry, s.cache.entries key = some entry ∧ entry.value = value

theorem Recorded.new : Recorded ttl start [] (System.new K V ttl start) where
  lifetime := rfl
  time := rfl
  held _ _ h := by cases h
  stored _ _ _ _ h := absurd h not_since_nil

theorem Recorded.step (h : Recorded ttl start tr s) (hs : step s e = some (s', o)) :
    Recorded ttl start (tr ++ [(e, o)]) s' := by
  obtain ⟨httl, htime, heffect⟩ := step_effect hs
  refine ⟨httl.trans h.lifetime, ?_, ?_, ?_⟩
  · rw [htime, clock_snoc, h.time]
  · intro key entry hentry
    have hkey := heffect key
    rw [hentry] at hkey
    generalize hsome : some entry = found at hkey
    cases hkey with
    | written hwrites hexpiry =>
        cases hsome
        rw [h.lifetime, h.time] at hwrites
        exact ⟨_, since_snoc.mpr (.inl hwrites), h.lifetime ▸ hexpiry⟩
    | removed | expired => cases hsome
    | kept hdisplaces =>
        obtain ⟨expiry, hheld, hexpiry⟩ := h.held key entry hsome.symm
        exact ⟨expiry, since_snoc.mpr (.inr ⟨hheld, hdisplaces⟩), hexpiry⟩
  · intro hpos key value expiry hheld
    have hkey := heffect key
    generalize s'.cache.entries key = found at hkey
    obtain hwrites' | ⟨hheld, hnot⟩ := since_snoc.mp hheld
    · rw [← h.time, ← h.lifetime] at hwrites'
      have hdisplaces' := Event.changes_of_writes hwrites'
      cases hkey with
      | written hwrites =>
          rw [hwrites] at hwrites'
          cases hwrites'
          exact ⟨_, rfl, rfl⟩
      | removed hwrites =>
          rw [hwrites] at hwrites'
          cases hwrites'
      | expired _ hdisplaces | kept hdisplaces => exact absurd (.inl hdisplaces') hdisplaces
    · cases hkey with
      | written hwrites => exact absurd (.inl (Event.changes_of_writes hwrites)) hnot
      | removed _ hdisplaces => exact absurd hdisplaces hnot
      | expired hpos' => exact absurd (h.lifetime ▸ hpos') hpos
      | kept => exact h.stored hpos key value expiry hheld

theorem run_recorded (hrun : Run step (System.new K V ttl start) tr s) :
    Recorded ttl start tr s :=
  hrun.snocInduction Recorded.new fun _ _ _ _ _ _ h hs => h.step hs

/-- A lookup serves nothing but the last write of its key, and not after its expiry, and
`Contains` agrees with it, exactly if the cache has a time to live or no expired entry of
`SetWithTTL` has been left in it under the key. -/
theorem expired_not_served_iff (hrun : Run step (System.new K V ttl start) tr s) (key : K) :
    ((∀ value, (s.cache.get s.now key).2 = some value →
        ∃ expiry, LastWrite ttl start tr key value expiry ∧ ∀ t ∈ expiry, s.now ≤ t) ∧
      (s.cache.contains s.now key = true ↔ ∃ value, (s.cache.get s.now key).2 = some value)) ↔
      0 < ttl ∨ ∀ value expiry, Held ttl start tr key value (some expiry) → s.now ≤ expiry := by
  have hrec := run_recorded hrun
  constructor
  · rintro ⟨hserved, _⟩
    by_contra hnot
    obtain ⟨httl, hnot⟩ := not_or.mp hnot
    refine hnot fun value expiry hheld => ?_
    obtain ⟨entry, hentry, hvalue⟩ := hrec.stored httl key value _ hheld
    obtain ⟨expiry', hlast, hlive⟩ := hserved value
      (get_eq_some_iff.mpr ⟨entry, hentry, hvalue, fun hpos => absurd (hrec.lifetime ▸ hpos) httl⟩)
    obtain ⟨_, hexpiry⟩ := hheld.lastWrite.unique hlast
    exact hlive expiry (hexpiry ▸ rfl)
  · intro hcond
    refine ⟨?_, by rw [contains_eq_isSome_get, Option.isSome_iff_exists]⟩
    intro value hget
    obtain ⟨entry, hentry, rfl, hlive⟩ := get_eq_some_iff.mp hget
    obtain ⟨expiry, hheld, hexpiry⟩ := hrec.held key entry hentry
    refine ⟨expiry, hheld.lastWrite, ?_⟩
    rintro t rfl
    obtain hpos | hcond := hcond
    · cases hexpiry hpos
      exact hlive (hrec.lifetime.symm ▸ hpos)
    · exact hcond _ t hheld

def timelyTrace : Trace ℕ ℕ :=
  [(.setWithTTL 0 7 1, .done), (.tick 1, .done), (.get 0, .value (some 7))]

theorem expired_not_served_in_time :
    ∃ s, Run step (System.new ℕ ℕ 10 0) timelyTrace s ∧
      (∀ value, (s.cache.get s.now 0).2 = some value →
        ∃ expiry, LastWrite 10 0 timelyTrace 0 value expiry ∧ ∀ t ∈ expiry, s.now ≤ t) ∧
      (s.cache.contains s.now 0 = true ↔ ∃ value, (s.cache.get s.now 0).2 = some value) := by
  have hrun : Run step (System.new ℕ ℕ 10 0) timelyTrace
      ⟨(newLRUCacheWithTTL ℕ ℕ 10).setWithTTL 0 0 7 1, 1⟩ := ⟨_, rfl, _, rfl, _, rfl, rfl⟩
  exact ⟨_, hrun, (expired_not_served_iff hrun 0).mpr (.inl (by decide))⟩

def lateTrace : Trace ℕ ℕ := [(.setWithTTL 0 7 1, .done), (.tick 2, .done)]

/-- A cache of `NewLRUCache` serves the value at 2 that was to expire at 1. -/
theorem expired_served_without_ttl :
    ∃ s, Run step ⟨newLRUCache ℕ ℕ, 0⟩ lateTrace s ∧ (s.cache.get s.now 0).2 = some 7 ∧
      LastWrite 0 0 lateTrace 0 7 (some 1) ∧ s.now = 2 ∧
      ¬ ∃ expiry, LastWrite 0 0 lateTrace 0 7 expiry ∧ ∀ t ∈ expiry, s.now ≤ t := by
  have hlast : LastWrite 0 0 lateTrace 0 7 (some 1) :=
    ⟨[], _, _, rfl, rfl, by simp⟩
  refine ⟨⟨(newLRUCache ℕ ℕ).setWithTTL 0 0 7 1, 2⟩, ⟨_, rfl, _, rfl, rfl⟩, rfl, hlast, rfl, ?_⟩
  rintro ⟨expiry, hlast', hlive⟩
  obtain ⟨_, rfl⟩ := hlast.unique hlast'
  exact absurd (hlive 1 rfl) (by decide)

end GrpcVault.LRUCache
