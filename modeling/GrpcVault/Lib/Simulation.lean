import GrpcVault.Lib.EventSystem

/-!
# Simulation of one event system by another

What an event shows is a list. One system simulates another along a relation if every step of the
other, from related states, is answered by a run that leads to related states and shows the same.
Then every run of the other has one beside it that shows the same (`Simulation.run`), and what no
run of the simulating system shows is not shown by the other.
-/

namespace EventSystem

variable {σ ε ω τ ε' ω' α : Type*}

def Simulation (step : Step σ ε ω) (step' : Step τ ε' ω') (R : σ → τ → Prop)
    (view : ε × ω → List α) (view' : ε' × ω' → List α) : Prop :=
  ∀ m t e o m', R m t → step m e = some (m', o) →
    ∃ tr t', Run step' t tr t' ∧ R m' t' ∧ tr.flatMap view' = view (e, o)

variable {step : Step σ ε ω} {step' : Step τ ε' ω'} {R : σ → τ → Prop} {view : ε × ω → List α}
  {view' : ε' × ω' → List α} {s s' : σ} {t : τ} {tr : List (ε × ω)}

theorem Simulation.run (h : Simulation step step' R view view') (hrun : Run step s tr s')
    (h0 : R s t) :
    ∃ tr' t', Run step' t tr' t' ∧ R s' t' ∧ tr'.flatMap view' = tr.flatMap view := by
  induction tr generalizing s t with
  | nil =>
      obtain rfl : s = s' := hrun
      exact ⟨[], t, rfl, h0, rfl⟩
  | cons x tr ih =>
      obtain ⟨s₁, hs, hrun⟩ := hrun
      obtain ⟨tr₁, t₁, hrun₁, hR₁, hview₁⟩ := h s t x.1 x.2 s₁ h0 hs
      obtain ⟨tr₂, t₂, hrun₂, hR₂, hview₂⟩ := ih hrun hR₁
      refine ⟨tr₁ ++ tr₂, t₂, run_append.mpr ⟨t₁, hrun₁, hrun₂⟩, hR₂, ?_⟩
      rw [List.flatMap_append, hview₁, hview₂, List.flatMap_cons]

theorem Run.answer {e : ε'} {o : ω'} {t t' : τ} {m : σ} (hs : step' t e = some (t', o))
    (hR : R m t') :
    ∃ tr t₁, Run step' t tr t₁ ∧ R m t₁ ∧ tr.flatMap view' = view' (e, o) :=
  ⟨[(e, o)], t', ⟨t', hs, rfl⟩, hR, List.flatMap_singleton ..⟩

/-- A step that shows nothing and stays in the relation. -/
theorem Run.stutter {t : τ} {m : σ} (hR : R m t) :
    ∃ tr t₁, Run step' t tr t₁ ∧ R m t₁ ∧ tr.flatMap view' = [] :=
  ⟨[], t, rfl, hR, rfl⟩

end EventSystem
