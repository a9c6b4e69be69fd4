import GrpcVault.Lib.GoText

/-!
# The cache with a time to live

Package `cache`: a bounded map whose entries expire when the cache has a positive
time to live. The bound shows as removals, which may happen at any moment. Times
and durations are in nanoseconds.
-/

namespace GrpcVault

/-- The zero value of `time.Time`, January 1 of year 1. -/
def zeroTime : ℤ := -62135596800000000000

structure CacheEntry (V : Type) where
  value : V
  expiresAt : ℤ

structure LRUCache (K V : Type) where
  entries : K → Option (CacheEntry V)
  ttl : ℤ

def newLRUCacheWithTTL (K V : Type) (ttl : ℤ) : LRUCache K V := { entries := fun _ => none, ttl }

def newLRUCache (K V : Type) : LRUCache K V := newLRUCacheWithTTL K V 0

namespace LRUCache

variable {K V : Type} [DecidableEq K] (c : LRUCache K V)

def remove (key : K) : LRUCache K V := { c with entries := Function.update c.entries key none }

def expired (now : ℤ) (entry : CacheEntry V) : Bool := 0 < c.ttl ∧ entry.expiresAt < now

def get (now : ℤ) (key : K) : LRUCache K V × Option V :=
  match c.entries key with
  | none => (c, none)
  | some entry => if c.expired now entry then (c.remove key, none) else (c, some entry.value)

def set (now : ℤ) (key : K) (value : V) : LRUCache K V :=
  let expiresAt := if 0 < c.ttl then now + c.ttl else zeroTime
  { c with entries := Function.update c.entries key (some { value, expiresAt }) }

def setWithTTL (now : ℤ) (key : K) (value : V) (ttl : ℤ) : LRUCache K V :=
  { c with entries := Function.update c.entries key (some { value, expiresAt := now + ttl }) }

def delete (key : K) : LRUCache K V × Bool := (c.remove key, (c.entries key).isSome)

def clear : LRUCache K V := { c with entries := fun _ => none }

def contains (now : ℤ) (key : K) : Bool :=
  match c.entries key with
  | none => false
  | some entry => if c.expired now entry then false else true

/-- The value that a lookup would find. -/
def live (now : ℤ) (key : K) : Option V := (c.get now key).2

variable {c} {now : ℤ} {key : K}

theorem get_cases (c : LRUCache K V) (now : ℤ) (key : K) :
    (c.entries key = none ∧ c.get now key = (c, none)) ∨
      (∃ entry, c.entries key = some entry ∧ 0 < c.ttl ∧ entry.expiresAt < now ∧
        c.get now key = (c.remove key, none)) ∨
      ∃ entry, c.entries key = some entry ∧ (0 < c.ttl → now ≤ entry.expiresAt) ∧
        c.get now key = (c, some entry.value) := by
  cases hentry : c.entries key with
  | none => exact .inl ⟨rfl, by simp only [get, hentry]⟩
  | some entry =>
      by_cases hexp : c.expired now entry = true
      · obtain ⟨httl, hlt⟩ := of_decide_eq_true hexp
        exact .inr (.inl ⟨entry, rfl, httl, hlt, by simp only [get, hentry, if_pos hexp]⟩)
      · refine .inr (.inr ⟨entry, rfl, ?_, by simp only [get, hentry, if_neg hexp]⟩)
        intro httl
        by_contra hlt
        exact hexp (decide_eq_true ⟨httl, not_le.mp hlt⟩)

theorem get_eq_some_iff {value : V} :
    (c.get now key).2 = some value ↔
      ∃ entry, c.entries key = some entry ∧ entry.value = value ∧
        (0 < c.ttl → now ≤ entry.expiresAt) := by
  obtain ⟨hnone, hget⟩ | ⟨entry, hentry, httl, hexp, hget⟩ | ⟨entry, hentry, hlive, hget⟩ :=
    c.get_cases now key
  · simp [hget, hnone]
  · simp [hget, hentry, httl, hexp]
  · rw [hget, hentry]
    constructor
    · intro hvalue
      exact ⟨entry, rfl, Option.some.inj hvalue, hlive⟩
    · rintro ⟨entry', hentry', rfl, _⟩
      cases hentry'
      rfl

theorem get_of_live {value : V} (h : c.live now key = some value) :
    c.get now key = (c, some value) := by
  unfold live at h
  obtain ⟨_, hget⟩ | ⟨_, _, _, _, hget⟩ | ⟨entry, _, _, hget⟩ := c.get_cases now key
  · rw [hget] at h
    cases h
  · rw [hget] at h
    cases h
  · rw [hget] at h ⊢
    cases h
    rfl

/-- `Contains` makes the decision of `Get`. -/
theorem contains_eq_isSome_get : c.contains now key = (c.get now key).2.isSome := by
  unfold contains get
  cases c.entries key with
  | none => rfl
  | some entry => cases hexp : c.expired now entry <;> simp [hexp]

end LRUCache
end GrpcVault
