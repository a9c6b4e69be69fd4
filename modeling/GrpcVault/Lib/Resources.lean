import Mathlib

/-!
# Resources that are opened and closed

Resources are named in the order in which they are opened, so that a new one is none of those
before it. `World` has how many have been opened and which have been closed. `Owned` says of a
table of owners that no two hold the same resource, `Live` that no owner holds a closed one. The
rules say what becomes of both when an owner gets new resources for its old ones, when resources
are opened and closed again at once, and when all owners give up theirs.
-/

namespace Resources

structure World where
  opened : ℕ
  closed : Finset ℕ

namespace World

def new : World := ⟨0, ∅⟩

def acquire (w : World) (n : ℕ) : World := { w with opened := w.opened + n }

def close (w : World) (rs : Finset ℕ) : World := { w with closed := w.closed ∪ rs }

def fresh (w : World) (n : ℕ) : Finset ℕ := Finset.Ico w.opened (w.opened + n)

end World

variable {κ : Type*} {w : World} {held : κ → Finset ℕ} {rs : Finset ℕ} {n : ℕ}

structure Owned (w : World) (held : κ → Finset ℕ) : Prop where
  opened : ∀ k, ∀ r ∈ held k, r < w.opened
  apart : ∀ k k', k ≠ k' → Disjoint (held k) (held k')
  past : ∀ r ∈ w.closed, r < w.opened

def Live (w : World) (held : κ → Finset ℕ) : Prop := ∀ k, Disjoint (held k) w.closed

theorem owned_new : Owned World.new fun _ : κ => ∅ where
  opened _ _ h := absurd h (Finset.notMem_empty _)
  apart _ _ _ := Finset.disjoint_empty_left _
  past _ h := absurd h (Finset.notMem_empty _)

theorem live_new : Live World.new fun _ : κ => ∅ := fun _ => Finset.disjoint_empty_left _

theorem disjoint_fresh (h : ∀ r ∈ rs, r < w.opened) : Disjoint rs (w.fresh n) := by
  rw [Finset.disjoint_left]
  intro r hr hfresh
  have hlt := h r hr
  have hle := (Finset.mem_Ico.mp hfresh).1
  omega

section Renew

variable [DecidableEq κ] {k : κ}

theorem Owned.renew (h : Owned w held) (k : κ) (n : ℕ) :
    Owned ((w.close (held k)).acquire n) (Function.update held k (w.fresh n)) where
  opened k' r hr := by
    by_cases hk : k' = k
    · subst hk
      rw [Function.update_self] at hr
      exact (Finset.mem_Ico.mp hr).2
    · rw [Function.update_of_ne hk] at hr
      exact Nat.lt_add_right n (h.opened k' r hr)
  apart k₁ k₂ hne := by
    by_cases h₁ : k₁ = k
    · subst h₁
      rw [Function.update_self, Function.update_of_ne hne.symm]
      exact (disjoint_fresh (h.opened k₂)).symm
    · rw [Function.update_of_ne h₁]
      by_cases h₂ : k₂ = k
      · subst h₂
        rw [Function.update_self]
        exact disjoint_fresh (h.opened k₁)
      · rw [Function.update_of_ne h₂]
        exact h.apart k₁ k₂ hne
  past r hr := by
    obtain hr | hr := Finset.mem_union.mp hr
    · exact Nat.lt_add_right n (h.past r hr)
    · exact Nat.lt_add_right n (h.opened k r hr)

theorem Owned.live_renew (h : Owned w held) (hlive : Live w held) (k : κ) (n : ℕ) :
    Live ((w.close (held k)).acquire n) (Function.update held k (w.fresh n)) := by
  intro k'
  refine Finset.disjoint_union_right.mpr ?_
  by_cases hk : k' = k
  · subst hk
    rw [Function.update_self]
    exact ⟨(disjoint_fresh h.past).symm, (disjoint_fresh (h.opened k')).symm⟩
  · rw [Function.update_of_ne hk]
    exact ⟨hlive k', h.apart k' k hk⟩

end Renew

theorem Owned.abandon (h : Owned w held) (k : κ) (n : ℕ) :
    Owned (((w.close (held k)).acquire n).close (w.fresh n)) held where
  opened k' r hr := Nat.lt_add_right n (h.opened k' r hr)
  apart := h.apart
  past r hr := by
    obtain hr | hr := Finset.mem_union.mp hr
    · obtain hr | hr := Finset.mem_union.mp hr
      · exact Nat.lt_add_right n (h.past r hr)
      · exact Nat.lt_add_right n (h.opened k r hr)
    · exact (Finset.mem_Ico.mp hr).2

theorem Owned.live_abandon {k : κ} (h : Owned w held) (hlive : Live w held) (hk : held k = ∅)
    (n : ℕ) : Live (((w.close (held k)).acquire n).close (w.fresh n)) held := by
  intro k'
  refine Finset.disjoint_union_right.mpr ⟨?_, disjoint_fresh (h.opened k')⟩
  refine Finset.disjoint_union_right.mpr ⟨hlive k', ?_⟩
  rw [hk]
  exact Finset.disjoint_empty_right _

theorem Owned.drop (h : Owned w held) (hrs : ∀ r ∈ rs, ∃ k, r ∈ held k) :
    Owned (w.close rs) fun _ : κ => ∅ where
  opened _ _ hr := absurd hr (Finset.notMem_empty _)
  apart _ _ _ := Finset.disjoint_empty_left _
  past r hr := by
    obtain hr | hr := Finset.mem_union.mp hr
    · exact h.past r hr
    · obtain ⟨k, hk⟩ := hrs r hr
      exact h.opened k r hk

end Resources
