import GrpcVault.Lib.Calls

/-!
# Contracts for calls

A contract says, for every request, which operations the call may ask for, what it may answer and
whether it may fail. A program keeps it if it does so whatever the operations reply in states that
have an invariant (`Proc.Keeps`). Handlers whose programs keep the contract keep it in every run, in
whatever order the calls take their turns (`Contract.kept_of_run`).
-/

namespace Calls

open EventSystem

variable {σ ι ε ω ρ α β : Type}

namespace Proc

variable (opStep : Step σ ε ω) (I : σ → Prop) (G : ε → Prop) (C : Prop)

/-- The program asks only for operations in `G`, its answer is in `Q`, and it fails only if `C`,
as long as it runs in states that are in `I`. -/
def Keeps (Q : α → Prop) : Proc ι ε ω α → Prop
  | .ret a => Q a
  | .panic => C
  | .op e k => ∀ input, G (e input) ∧ ∀ s, I s → match opStep s (e input) with
      | none => C
      | some (_, o) => (k o).Keeps Q

variable {opStep I G C} {Q : α → Prop} {Q' : β → Prop} {q : Proc ι ε ω α} {f : α → Proc ι ε ω β}

theorem Keeps.bind (h : q.Keeps opStep I G C Q) (hf : ∀ a, Q a → (f a).Keeps opStep I G C Q') :
    (q >>= f).Keeps opStep I G C Q' := by
  induction q with
  | ret a => exact hf a h
  | panic => exact h
  | op e k ih =>
      intro input
      obtain ⟨hasks, hgoes⟩ := h input
      refine ⟨hasks, fun s hs => ?_⟩
      have hnext := hgoes s hs
      cases hop : opStep s (e input) with
      | none =>
          rw [hop] at hnext
          exact hnext
      | some x =>
          rw [hop] at hnext
          exact ih x.2 hnext

end Proc

structure Contract (ε ρ α : Type) where
  op : ρ → ε → Prop
  fails : ρ → Prop
  answer : ρ → α → Prop

namespace Contract

variable (c : Contract ε ρ α) (opStep : Step σ ε ω) (I : σ → Prop)

def Keeps (req : ρ) (q : Proc ι ε ω α) : Prop :=
  q.Keeps opStep I (c.op req) (c.fails req) (c.answer req)

/-- The operations that the contract allows keep the invariant. -/
def Safe : Prop :=
  ∀ ⦃s req e s' o⦄, I s → c.op req e → opStep s e = some (s', o) → I s'

/-- What the events of a run have shown, and what the calls under way still keep. -/
structure Kept (tr : Trace ι ε ω ρ α) (p : Pool σ ι ε ω ρ α) : Prop where
  state : I p.shared
  calls : ∀ {id req q}, p.calls id = some (req, q) →
    (.call id req, .began) ∈ tr ∧ c.Keeps opStep I req q
  operations : ∀ {x e o}, (x, .did e o) ∈ tr → ∃ req, (.call x.caller req, .began) ∈ tr ∧ c.op req e
  answers : ∀ {x req a}, (x, .answered req a) ∈ tr →
    (.call x.caller req, .began) ∈ tr ∧ c.answer req a
  crashes : ∀ {x req}, (x, .crashed req) ∈ tr → c.fails req

variable {c opStep I} {handler : ρ → Proc ι ε ω α} {tr : Trace ι ε ω ρ α}
  {p p' : Pool σ ι ε ω ρ α} {x : Event ι ρ} {o : Output ε ω ρ α}

theorem Kept.extend (h : c.Kept opStep I tr p) (hstate : I p'.shared)
    (hcalls : ∀ {id req q}, p'.calls id = some (req, q) →
      (.call id req, .began) ∈ tr ++ [(x, o)] ∧ c.Keeps opStep I req q)
    (hop : ∀ {e r}, o = .did e r → ∃ req, (.call x.caller req, .began) ∈ tr ∧ c.op req e)
    (hanswer : ∀ {req a}, o = .answered req a →
      (.call x.caller req, .began) ∈ tr ∧ c.answer req a)
    (hcrash : ∀ {req}, o = .crashed req → c.fails req) :
    c.Kept opStep I (tr ++ [(x, o)]) p' := by
  have hold {y : Event ι ρ × Output ε ω ρ α} (hy : y ∈ tr) : y ∈ tr ++ [(x, o)] :=
    List.mem_append_left _ hy
  refine ⟨hstate, hcalls, fun hy => ?_, fun hy => ?_, fun hy => ?_⟩
  · obtain hy | hy := List.mem_append.mp hy
    · obtain ⟨req, hcall, hasks⟩ := h.operations hy
      exact ⟨req, hold hcall, hasks⟩
    · cases List.mem_singleton.mp hy
      obtain ⟨req, hcall, hasks⟩ := hop rfl
      exact ⟨req, hold hcall, hasks⟩
  · obtain hy | hy := List.mem_append.mp hy
    · exact (h.answers hy).imp_left hold
    · cases List.mem_singleton.mp hy
      exact (hanswer rfl).imp_left hold
  · obtain hy | hy := List.mem_append.mp hy
    · exact h.crashes hy
    · cases List.mem_singleton.mp hy
      exact hcrash rfl

theorem Kept.snoc (h : c.Kept opStep I tr p) (hsafe : c.Safe opStep I)
    (hhandler : ∀ req, c.Keeps opStep I req (handler req))
    (hs : step opStep handler p x = some (p', o)) : c.Kept opStep I (tr ++ [(x, o)]) p' := by
  -- a call other than the one whose event it is stays as it was
  have hcalls {id : ℕ} {req : ρ} {q : Proc ι ε ω α}
      (hown : id = x.caller → p'.calls id = some (req, q) →
        (.call id req, .began) ∈ tr ++ [(x, o)] ∧ c.Keeps opStep I req q)
      (hq : p'.calls id = some (req, q)) :
      (.call id req, .began) ∈ tr ++ [(x, o)] ∧ c.Keeps opStep I req q := by
    by_cases hid : id = x.caller
    · exact hown hid hq
    · rw [(step_other hs (Ne.symm hid)).1] at hq
      exact (h.calls hq).imp_left (List.mem_append_left _)
  cases step_effect hs with
  | @began id req _ =>
      refine h.extend h.state (hcalls ?_) nofun nofun nofun
      rintro rfl hq
      cases (Function.update_self ..).symm.trans hq
      exact ⟨List.mem_append_right _ (List.mem_singleton_self _), hhandler req⟩
  | @did id input req e k s r hid hop =>
      obtain ⟨hcall, hkeeps⟩ := h.calls hid
      obtain ⟨hasks, hgoes⟩ := hkeeps input
      have hnext := hgoes p.shared h.state
      rw [hop] at hnext
      refine h.extend (hsafe h.state hasks hop) (hcalls ?_) ?_ nofun nofun
      · rintro rfl hq
        cases (Function.update_self ..).symm.trans hq
        exact ⟨List.mem_append_left _ hcall, hnext⟩
      · intro e' r' heq
        cases heq
        exact ⟨req, hcall, hasks⟩
  | @answered id input req a hid =>
      obtain ⟨hcall, hkeeps⟩ := h.calls hid
      refine h.extend h.state (hcalls ?_) nofun ?_ nofun
      · rintro rfl hq
        cases (Function.update_self ..).symm.trans hq
      · intro req' a' heq
        cases heq
        exact ⟨hcall, hkeeps⟩
  | @panicked id input req hid =>
      refine h.extend h.state (fun hq => (h.calls hq).imp_left (List.mem_append_left _)) nofun nofun
        fun heq => ?_
      cases heq
      exact (h.calls hid).2
  | @failed id input req e k hid hop =>
      refine h.extend h.state (fun hq => (h.calls hq).imp_left (List.mem_append_left _)) nofun nofun
        fun heq => ?_
      cases heq
      have hnext := ((h.calls hid).2 input).2 p.shared h.state
      rwa [hop] at hnext

/-- Every run keeps the contract. -/
theorem kept_of_run {s : σ} (hsafe : c.Safe opStep I)
    (hhandler : ∀ req, c.Keeps opStep I req (handler req)) (h0 : I s)
    (hrun : Run (step opStep handler) (.start s) tr p) : c.Kept opStep I tr p := by
  refine hrun.snocInduction (s := .start s) (I := fun tr p => c.Kept opStep I tr p) ?_ ?_
  · exact ⟨h0, nofun, nofun, nofun, nofun⟩
  · intro tr p x o p' _ ih hs
    exact ih.snoc hsafe hhandler hs

end Contract

end Calls
