import GrpcVault.Lib.EventSystem

/-!
# Calls that take turns on a shared state

A call is a program that asks for one operation on the shared state after the other. Between two
of its operations, and before its first and after its last one, the other calls take theirs, in any
order. `step` lets one call go on; a panic in one of them ends the process.

What the calls do to the shared state is a run of its operations (`run_operations`). What one call
does and answers is told by `Ends`, from one moment of the call to another: its own operations, with
operations of the others in between (`exists_ends`). A moment knows the operations still to come,
so it has its place in the run (`Began.during`, `Began.acted`).
-/

namespace Calls

open EventSystem

/-- A program. The operation it asks for may depend on an input, such as the clock. -/
inductive Proc (ι ε ω α : Type)
  | ret (a : α)
  | panic
  | op (e : ι → ε) (k : ω → Proc ι ε ω α)

namespace Proc

variable {ι ε ω α β : Type}

def bind : Proc ι ε ω α → (α → Proc ι ε ω β) → Proc ι ε ω β
  | .ret a, f => f a
  | .panic, _ => .panic
  | .op e k, f => .op e fun o => (k o).bind f

instance : Monad (Proc ι ε ω) where
  pure := .ret
  bind := .bind

@[simp] theorem pure_eq (a : α) : (pure a : Proc ι ε ω α) = .ret a := rfl

@[simp] theorem ret_bind (a : α) (f : α → Proc ι ε ω β) : (.ret a : Proc ι ε ω α) >>= f = f a := rfl

@[simp] theorem panic_bind (f : α → Proc ι ε ω β) : (.panic : Proc ι ε ω α) >>= f = .panic := rfl

@[simp] theorem op_bind (e : ι → ε) (k : ω → Proc ι ε ω α) (f : α → Proc ι ε ω β) :
    .op e k >>= f = .op e fun o => k o >>= f := rfl

theorem bind_assoc {γ : Type} (q : Proc ι ε ω α) (f : α → Proc ι ε ω β) (g : β → Proc ι ε ω γ) :
    q >>= f >>= g = q >>= fun a => f a >>= g := by
  induction q with
  | ret a => rfl
  | panic => rfl
  | op e k ih =>
      rw [op_bind, op_bind, op_bind]
      exact congrArg (op e) (funext ih)

end Proc

/-- The shared state and the calls under way, each with its request. -/
structure Pool (σ ι ε ω ρ α : Type) where
  shared : σ
  calls : ℕ → Option (ρ × Proc ι ε ω α)
  down : Bool

inductive Event (ι ρ : Type)
  | call (id : ℕ) (req : ρ)
  | advance (id : ℕ) (input : ι)

inductive Output (ε ω ρ α : Type)
  | began
  | did (e : ε) (o : ω)
  | answered (req : ρ) (a : α)
  | crashed (req : ρ)

variable {σ ι ε ω ρ α : Type}

def Event.caller : Event ι ρ → ℕ
  | .call id _ => id
  | .advance id _ => id

def Output.outcome : Output ε ω ρ α → Option (ρ × Option α)
  | .answered req a => some (req, some a)
  | .crashed req => some (req, none)
  | _ => none

def Pool.start (s : σ) : Pool σ ι ε ω ρ α := ⟨s, fun _ => none, false⟩

/-- The calls of a process whose requests are handled by `handler`. An operation without a result
is a panic. -/
def step (opStep : Step σ ε ω) (handler : ρ → Proc ι ε ω α) :
    Step (Pool σ ι ε ω ρ α) (Event ι ρ) (Output ε ω ρ α)
  | p, .call id req =>
      if p.down then none
      else match p.calls id with
        | some _ => none
        | none => some ({ p with calls := Function.update p.calls id (some (req, handler req)) },
            .began)
  | p, .advance id input =>
      if p.down then none
      else match p.calls id with
        | none => none
        | some (req, .ret a) =>
            some ({ p with calls := Function.update p.calls id none }, .answered req a)
        | some (req, .panic) => some ({ p with down := true }, .crashed req)
        | some (req, .op e k) =>
            match opStep p.shared (e input) with
            | none => some ({ p with down := true }, .crashed req)
            | some (s, o) =>
                some ({ p with shared := s, calls := Function.update p.calls id (some (req, k o)) },
                  .did (e input) o)

abbrev Trace (ι ε ω ρ α : Type) := List (Event ι ρ × Output ε ω ρ α)

section Steps

variable {opStep : Step σ ε ω} {handler : ρ → Proc ι ε ω α} {p p' : Pool σ ι ε ω ρ α}
  {x : Event ι ρ} {o : Output ε ω ρ α}

inductive Effect (opStep : Step σ ε ω) (handler : ρ → Proc ι ε ω α) (p : Pool σ ι ε ω ρ α) :
    Event ι ρ → Output ε ω ρ α → Pool σ ι ε ω ρ α → Prop
  | began {id : ℕ} {req : ρ} (hid : p.calls id = none) :
      Effect opStep handler p (.call id req) .began
        { p with calls := Function.update p.calls id (some (req, handler req)) }
  | did {id : ℕ} {input : ι} {req : ρ} {e : ι → ε} {k : ω → Proc ι ε ω α} {s : σ} {o : ω}
      (hid : p.calls id = some (req, .op e k)) (hop : opStep p.shared (e input) = some (s, o)) :
      Effect opStep handler p (.advance id input) (.did (e input) o)
        { p with shared := s, calls := Function.update p.calls id (some (req, k o)) }
  | answered {id : ℕ} {input : ι} {req : ρ} {a : α} (hid : p.calls id = some (req, .ret a)) :
      Effect opStep handler p (.advance id input) (.answered req a)
        { p with calls := Function.update p.calls id none }
  | panicked {id : ℕ} {input : ι} {req : ρ} (hid : p.calls id = some (req, .panic)) :
      Effect opStep handler p (.advance id input) (.crashed req) { p with down := true }
  | failed {id : ℕ} {input : ι} {req : ρ} {e : ι → ε} {k : ω → Proc ι ε ω α}
      (hid : p.calls id = some (req, .op e k)) (hop : opStep p.shared (e input) = none) :
      Effect opStep handler p (.advance id input) (.crashed req) { p with down := true }

theorem step_effect (h : step opStep handler p x = some (p', o)) :
    Effect opStep handler p x o p' := by
  cases x with
  | call id req =>
      rw [step] at h
      split at h
      · cases h
      · split at h
        · cases h
        · cases h
          exact .began ‹_›
  | advance id input =>
      rw [step] at h
      split at h
      · cases h
      · split at h
        · cases h
        · cases h
          exact .answered ‹_›
        · cases h
          exact .panicked ‹_›
        · split at h
          · cases h
            exact .failed ‹_› ‹_›
          · cases h
            exact .did ‹_› ‹_›

def operation : Event ι ρ × Output ε ω ρ α → Option (ε × ω)
  | (_, .did e o) => some (e, o)
  | _ => none

/-- What the calls do to the shared state is a run of its operations. -/
theorem run_operations {tr : Trace ι ε ω ρ α} (h : Run (step opStep handler) p tr p') :
    Run opStep p.shared (tr.filterMap operation) p'.shared := by
  refine h.snocInduction (s := p)
    (I := fun tr q => Run opStep p.shared (tr.filterMap operation) q.shared) rfl ?_
  intro tr q x o q' _ ih hs
  rw [filterMap_snoc]
  cases step_effect hs with
  | did _ hop => exact run_snoc.mpr ⟨_, ih, hop⟩
  | began | answered | panicked | failed => simpa [operation] using ih

end Steps

section Moments

/-- A moment of a call: the shared state, and the operations to come until the call ends, each with
whether it is the call's own. -/
structure Moment (σ ε ω : Type) where
  state : σ
  rest : List (Bool × ε × ω)

variable (opStep : Step σ ε ω)

/-- From one moment to a later one, where the call itself does nothing that changes the state. -/
inductive Reaches : Moment σ ε ω → Moment σ ε ω → Prop
  | refl (t : Moment σ ε ω) : Reaches t t
  | other {s s₁ : σ} {e : ε} {o : ω} {rest : List (Bool × ε × ω)} {t' : Moment σ ε ω}
      (hop : opStep s e = some (s₁, o)) (h : Reaches ⟨s₁, rest⟩ t') :
      Reaches ⟨s, (false, e, o) :: rest⟩ t'
  | own {s : σ} {e : ε} {o : ω} {rest : List (Bool × ε × ω)} {t' : Moment σ ε ω}
      (hop : opStep s e = some (s, o)) (h : Reaches ⟨s, rest⟩ t') :
      Reaches ⟨s, (true, e, o) :: rest⟩ t'

structure Acts (t : Moment σ ε ω) (e : ε) (o : ω) (t' : Moment σ ε ω) : Prop where
  rest : t.rest = (true, e, o) :: t'.rest
  step : opStep t.state e = some (t'.state, o)

def Later (t t' : Moment σ ε ω) : Prop :=
  ∃ ops, t.rest = ops ++ t'.rest ∧ Run opStep t.state (ops.map Prod.snd) t'.state

def ofOther (x : Bool × ε × ω) : Option (ε × ω) := if x.1 then none else some x.2

variable {opStep} {t t₁ t' : Moment σ ε ω}

namespace Reaches

theorem trans (h : Reaches opStep t t₁) (h' : Reaches opStep t₁ t') : Reaches opStep t t' := by
  induction h with
  | refl => exact h'
  | other hop _ ih => exact .other hop (ih h')
  | own hop _ ih => exact .own hop (ih h')

theorem acts {e : ε} {o : ω} (h : Acts opStep t e o t') (hsame : t'.state = t.state) :
    Reaches opStep t t' := by
  obtain ⟨hrest, hstep⟩ := h
  obtain ⟨s, rest⟩ := t
  obtain ⟨s', rest'⟩ := t'
  obtain rfl : s' = s := hsame
  obtain rfl : rest = (true, e, o) :: rest' := hrest
  exact .own hstep (.refl _)

theorem later (h : Reaches opStep t t') : Later opStep t t' := by
  induction h with
  | refl t => exact ⟨[], rfl, rfl⟩
  | @other s s₁ e o rest t' hop _ ih =>
      obtain ⟨ops, hrest, hrun⟩ := ih
      exact ⟨(false, e, o) :: ops, congrArg _ hrest, s₁, hop, hrun⟩
  | @own s e o rest t' hop _ ih =>
      obtain ⟨ops, hrest, hrun⟩ := ih
      exact ⟨(true, e, o) :: ops, congrArg _ hrest, s, hop, hrun⟩

/-- The operations of the others alone lead from the one state to the other. -/
theorem others (h : Reaches opStep t t') :
    ∃ ops, t.rest = ops ++ t'.rest ∧ Run opStep t.state (ops.filterMap ofOther) t'.state := by
  induction h with
  | refl t => exact ⟨[], rfl, rfl⟩
  | @other s s₁ e o rest t' hop _ ih =>
      obtain ⟨ops, hrest, hrun⟩ := ih
      exact ⟨(false, e, o) :: ops, congrArg _ hrest, s₁, hop, hrun⟩
  | @own s e o rest t' _ _ ih =>
      obtain ⟨ops, hrest, hrun⟩ := ih
      exact ⟨(true, e, o) :: ops, congrArg _ hrest, hrun⟩

theorem invariant {I : σ → Prop} (h : Reaches opStep t t')
    (hstep : ∀ m e o m', (false, e, o) ∈ t.rest → I m → opStep m e = some (m', o) → I m')
    (h0 : I t.state) : I t'.state := by
  induction h with
  | refl => exact h0
  | other hop _ ih =>
      refine ih (fun m e o m' hmem => ?_) (hstep _ _ _ _ List.mem_cons_self h0 hop)
      exact hstep m e o m' (List.mem_cons_of_mem _ hmem)
  | own hop _ ih =>
      refine ih (fun m e o m' hmem => ?_) h0
      exact hstep m e o m' (List.mem_cons_of_mem _ hmem)

end Reaches

variable (opStep)

/-- The program, begun at `t`, ends with an answer or (`none`) with a panic at `t'`. -/
def Ends : Proc ι ε ω α → Moment σ ε ω → Option α → Moment σ ε ω → Prop
  | .ret a, t, out, t' => out = some a ∧ Reaches opStep t t'
  | .panic, t, out, t' => out = none ∧ Reaches opStep t t'
  | .op e k, t, out, t' => ∃ t₁ input, Reaches opStep t t₁ ∧
      ((∃ t₂ o, Acts opStep t₁ (e input) o t₂ ∧ Ends (k o) t₂ out t') ∨
        (opStep t₁.state (e input) = none ∧ out = none ∧ t' = t₁))

variable {opStep} {q : Proc ι ε ω α} {out : Option α}

theorem Ends.of_reaches (h : Reaches opStep t t₁) (hends : Ends opStep q t₁ out t') :
    Ends opStep q t out t' := by
  cases q with
  | ret a => exact ⟨hends.1, h.trans hends.2⟩
  | panic => exact ⟨hends.1, h.trans hends.2⟩
  | op e k =>
      obtain ⟨t₂, input, ht₂, hrest⟩ := hends
      exact ⟨t₂, input, h.trans ht₂, hrest⟩

theorem Ends.of_bind {β : Type} {f : α → Proc ι ε ω β} {b : β}
    (h : Ends opStep (q >>= f) t (some b) t') :
    ∃ a t₁, Ends opStep q t (some a) t₁ ∧ Ends opStep (f a) t₁ (some b) t' := by
  induction q generalizing t with
  | ret a => exact ⟨a, t, ⟨rfl, .refl t⟩, h⟩
  | panic => cases h.1
  | op e k ih =>
      obtain ⟨t₁, input, ht₁, ⟨t₂, o, hacts, hrest⟩ | ⟨_, hout, _⟩⟩ := h
      · obtain ⟨a, t₃, hfirst, hrest⟩ := ih o hrest
        exact ⟨a, t₃, ⟨t₁, input, ht₁, .inl ⟨t₂, o, hacts, hfirst⟩⟩, hrest⟩
      · cases hout

end Moments

section Runs

variable {opStep : Step σ ε ω} {handler : ρ → Proc ι ε ω α} {p p' : Pool σ ι ε ω ρ α} {id : ℕ}
  {req : ρ} {q : Proc ι ε ω α} {tr : Trace ι ε ω ρ α} {x : Event ι ρ} {o : Output ε ω ρ α}

theorem step_other (h : step opStep handler p x = some (p', o)) (hid : x.caller ≠ id) :
    p'.calls id = p.calls id ∧ ((operation (x, o) = none ∧ p'.shared = p.shared) ∨
      ∃ y, operation (x, o) = some y ∧ opStep p.shared y.1 = some (p'.shared, y.2)) := by
  cases step_effect h with
  | began => exact ⟨Function.update_of_ne hid.symm _ _, .inl ⟨rfl, rfl⟩⟩
  | did _ hop => exact ⟨Function.update_of_ne hid.symm _ _, .inr ⟨_, rfl, hop⟩⟩
  | answered => exact ⟨Function.update_of_ne hid.symm _ _, .inl ⟨rfl, rfl⟩⟩
  | panicked | failed => exact ⟨rfl, .inl ⟨rfl, rfl⟩⟩

theorem not_down_of_run (hrun : Run (step opStep handler) p tr p') (htr : tr ≠ []) :
    p.down = false := by
  cases tr with
  | nil => exact absurd rfl htr
  | cons y tr =>
      obtain ⟨e, o⟩ := y
      obtain ⟨m, hs, _⟩ := hrun
      cases hdown : p.down with
      | false => rfl
      | true => cases e <;> simp [step, hdown] at hs

def NoCall (id : ℕ) (tr : Trace ι ε ω ρ α) : Prop := ∀ y ∈ tr, ∀ req, y.1 ≠ .call id req

theorem calls_of_run {input : ι}
    (hrun : Run (step opStep handler) p (tr ++ [(.advance id input, o)]) p')
    (hcall : NoCall id tr) : p.calls id ≠ none := by
  induction tr generalizing p with
  | nil =>
      intro hnone
      obtain ⟨_, hs, _⟩ := hrun
      cases step_effect hs <;> simp_all
  | cons y tr ih =>
      obtain ⟨e, o'⟩ := y
      obtain ⟨m, hs, hrun⟩ := hrun
      obtain ⟨hy, hcall⟩ := List.forall_mem_cons.mp hcall
      intro hnone
      by_cases hid : e.caller = id
      · cases e with
        | call id' req => exact hy req (by rw [← hid]; rfl)
        | advance id' input' =>
            obtain rfl : id' = id := hid
            cases step_effect hs <;> simp_all
      · exact ih hrun hcall ((step_other hs hid).1.trans hnone)

/-- The operation that an event carries out, with whether it is the call's own. -/
def tagged (id : ℕ) (y : Event ι ρ × Output ε ω ρ α) : Option (Bool × ε × ω) :=
  (operation y).map fun op => (decide (y.1.caller = id), op)

theorem tagged_own {input : ι} {e : ε} {o : ω} :
    tagged id ((.advance id input, .did e o) : Event ι ρ × Output ε ω ρ α) = some (true, e, o) := by
  simp [tagged, operation, Event.caller]

theorem eq_of_tagged {y : Event ι ρ × Output ε ω ρ α} {e : ε} {o : ω}
    (h : tagged id y = some (true, e, o)) (hy : ∀ req, y.1 ≠ .call id req) :
    ∃ input, y = (.advance id input, .did e o) := by
  obtain ⟨⟨e', o'⟩, hop, heq⟩ := Option.map_eq_some_iff.mp h
  obtain ⟨hid, rfl, rfl⟩ : y.1.caller = id ∧ e' = e ∧ o' = o := by simpa using heq
  obtain ⟨x, out⟩ := y
  cases out <;> cases hop
  cases x with
  | call id' req => exact absurd (by rw [← hid]; rfl) (hy req)
  | advance id' input =>
      obtain rfl : id' = id := hid
      exact ⟨input, rfl⟩

def others (id : ℕ) (tr : Trace ι ε ω ρ α) : List (ε × ω) :=
  tr.filterMap fun y => if y.1.caller = id then none else operation y

theorem ends_of_run {input : ι} {out : Option α} (hid : p.calls id = some (req, q))
    (hrun : Run (step opStep handler) p (tr ++ [(.advance id input, o)]) p')
    (ho : o.outcome = some (req, out)) (hcall : NoCall id tr) :
    Ends opStep q ⟨p.shared, tr.filterMap (tagged id)⟩ out ⟨p'.shared, []⟩ := by
  induction tr generalizing p q with
  | nil =>
      obtain ⟨_, hs, rfl⟩ := hrun
      cases step_effect hs with
      | did => cases ho
      | answered hid' =>
          cases hid.symm.trans hid'
          cases ho
          exact ⟨rfl, .refl _⟩
      | panicked hid' =>
          cases hid.symm.trans hid'
          cases ho
          exact ⟨rfl, .refl _⟩
      | failed hid' hop =>
          cases hid.symm.trans hid'
          cases ho
          exact ⟨_, _, .refl _, .inr ⟨hop, rfl, rfl⟩⟩
  | cons y tr ih =>
      obtain ⟨e, o'⟩ := y
      obtain ⟨m, hs, hrun⟩ := hrun
      obtain ⟨hy, hcalls⟩ := List.forall_mem_cons.mp hcall
      by_cases he : e.caller = id
      · cases e with
        | call id' req => exact absurd (by rw [← he]; rfl) (hy req)
        | advance id' input' =>
            obtain rfl : id' = id := he
            -- the call's own event: an operation, since the call goes on afterwards
            have hdown := not_down_of_run hrun (by simp)
            have hgoes := calls_of_run hrun hcalls
            cases step_effect hs with
            | did hid' hop =>
                cases hid.symm.trans hid'
                have hrest := ih (Function.update_self ..) hrun hcalls
                exact ⟨_, input', .refl _,
                  .inl ⟨_, _, ⟨List.filterMap_cons_some tagged_own, hop⟩, hrest⟩⟩
            | answered => exact absurd (Function.update_self ..) hgoes
            | panicked | failed => cases hdown
      · obtain ⟨hsame, hshared⟩ := step_other hs he
        have hrest := ih (hsame.trans hid) hrun hcalls
        obtain ⟨hnone, heq⟩ | ⟨z, hz, hop⟩ := hshared
        · rw [heq] at hrest
          rwa [List.filterMap_cons_none (by rw [tagged, hnone]; rfl)]
        · rw [List.filterMap_cons_some (b := (false, z)) (by simp [tagged, hz, he])]
          exact hrest.of_reaches (.other hop (.refl _))

/-- Every call under way has begun with its handler's program. -/
theorem exists_call {s : σ} (hrun : Run (step opStep handler) (.start s) tr p)
    (hid : p.calls id = some (req, q)) :
    ∃ tr₁ tr₂ m, tr = tr₁ ++ (.call id req, .began) :: tr₂ ∧
      Run (step opStep handler) (.start s) tr₁ m ∧ NoCall id tr₂ := by
  induction tr using List.reverseRecOn generalizing p q with
  | nil =>
      obtain rfl : Pool.start s = p := hrun
      cases hid
  | append_singleton tr y ih =>
      obtain ⟨e, o⟩ := y
      obtain ⟨m, hm, hs⟩ := run_snoc.mp hrun
      have hlater (he : ∀ req, e ≠ .call id req) {q : Proc ι ε ω α}
          (hq : m.calls id = some (req, q)) :
          ∃ tr₁ tr₂ n, tr ++ [(e, o)] = tr₁ ++ (.call id req, .began) :: tr₂ ∧
            Run (step opStep handler) (.start s) tr₁ n ∧ NoCall id tr₂ := by
        obtain ⟨tr₁, tr₂, n, rfl, hn, hcall⟩ := ih hm hq
        refine ⟨tr₁, tr₂ ++ [(e, o)], n, by simp, hn, ?_⟩
        exact List.forall_mem_append.mpr ⟨hcall, List.forall_mem_singleton.mpr he⟩
      by_cases he : e.caller = id
      · subst he
        cases step_effect hs with
        | began =>
            cases (Function.update_self ..).symm.trans hid
            exact ⟨tr, [], m, rfl, hm, List.forall_mem_nil _⟩
        | did hq =>
            cases (Function.update_self ..).symm.trans hid
            exact hlater nofun hq
        | answered => cases (Function.update_self ..).symm.trans hid
        | panicked | failed => exact hlater nofun hid
      · exact hlater (fun req h => he (by rw [h]; rfl)) ((step_other hs he).1.symm.trans hid)

theorem map_tagged (id : ℕ) (tr : Trace ι ε ω ρ α) :
    (tr.filterMap (tagged id)).map Prod.snd = tr.filterMap operation := by
  rw [List.map_filterMap]
  refine congrArg (fun f => tr.filterMap f) (funext fun y => ?_)
  rw [tagged, Option.map_map]
  exact Option.map_id'

theorem ofOther_tagged (id : ℕ) (tr : Trace ι ε ω ρ α) :
    (tr.filterMap (tagged id)).filterMap ofOther = others id tr := by
  rw [List.filterMap_filterMap]
  refine congrArg (fun f => tr.filterMap f) (funext fun y => ?_)
  rw [tagged]
  cases hop : operation y with
  | none => simp
  | some op => by_cases hid : y.1.caller = id <;> simp [ofOther, hid]

theorem mem_of_tagged {op : ε × ω} (h : (false, op) ∈ tr.filterMap (tagged id)) :
    ∃ y ∈ tr, y.1.caller ≠ id ∧ operation y = some op := by
  obtain ⟨y, hy, htag⟩ := List.mem_filterMap.mp h
  obtain ⟨op', hop, heq⟩ := Option.map_eq_some_iff.mp htag
  obtain ⟨hid, rfl⟩ : ¬ y.1.caller = id ∧ op' = op := by simpa using heq
  exact ⟨y, hy, hid, hop⟩

/-- The shared state is `m` at some moment of the call that is under way at the end. -/
def During (opStep : Step σ ε ω) (handler : ρ → Proc ι ε ω α) (s : σ) (tr : Trace ι ε ω ρ α)
    (id : ℕ) (req : ρ) (m : σ) : Prop :=
  ∃ tr₁ tr₂ tr₃ p, tr = tr₁ ++ (.call id req, .began) :: (tr₂ ++ tr₃) ∧ NoCall id (tr₂ ++ tr₃) ∧
    Run (step opStep handler) (.start s) (tr₁ ++ (.call id req, .began) :: tr₂) p ∧ p.shared = m

/-- The call carries out an operation, which takes the shared state from `m` to `m'`. -/
def Acted (opStep : Step σ ε ω) (handler : ρ → Proc ι ε ω α) (s : σ) (tr : Trace ι ε ω ρ α)
    (id : ℕ) (req : ρ) (m : σ) (e : ε) (o : ω) (m' : σ) : Prop :=
  ∃ tr₁ tr₂ tr₃ input p p',
    tr = tr₁ ++ (.call id req, .began) :: (tr₂ ++ (.advance id input, .did e o) :: tr₃) ∧
    NoCall id (tr₂ ++ (.advance id input, .did e o) :: tr₃) ∧
    Run (step opStep handler) (.start s) (tr₁ ++ (.call id req, .began) :: tr₂) p ∧
    step opStep handler p (.advance id input) = some (p', .did e o) ∧
    p.shared = m ∧ p'.shared = m'

def Began (opStep : Step σ ε ω) (handler : ρ → Proc ι ε ω α) (s : σ) (tr : Trace ι ε ω ρ α)
    (id : ℕ) (req : ρ) (t : Moment σ ε ω) : Prop :=
  ∃ tr₁ tr₂ n p, tr = tr₁ ++ (.call id req, .began) :: tr₂ ∧ NoCall id tr₂ ∧
    Run (step opStep handler) (.start s) tr₁ n ∧ Run (step opStep handler) (.start s) tr p ∧
    t = ⟨n.shared, tr₂.filterMap (tagged id)⟩

namespace Began

variable {s s' : σ} {t t₁ t' : Moment σ ε ω} {op : ε × ω}

theorem run (h : Began opStep handler s tr id req t) : ∃ ops, Run opStep s ops t.state := by
  obtain ⟨tr₁, tr₂, n, p, rfl, _, hn, _, rfl⟩ := h
  exact ⟨_, run_operations hn⟩

theorem mem (h : Began opStep handler s tr id req t) (hop : (false, op) ∈ t.rest) :
    ∃ tr₁ tr₂, tr = tr₁ ++ (.call id req, .began) :: tr₂ ∧ NoCall id tr₂ ∧
      ∃ y ∈ tr₂, y.1.caller ≠ id ∧ operation y = some op := by
  obtain ⟨tr₁, tr₂, n, p, rfl, hcall, _, _, rfl⟩ := h
  exact ⟨tr₁, tr₂, rfl, hcall, mem_of_tagged hop⟩

theorem others (h : Began opStep handler s tr id req t) (ht : Reaches opStep t ⟨s', []⟩) :
    ∃ tr₁ tr₂ n, tr = tr₁ ++ (.call id req, .began) :: tr₂ ∧ NoCall id tr₂ ∧
      Run (step opStep handler) (.start s) tr₁ n ∧
      Run opStep n.shared (Calls.others id tr₂) s' := by
  obtain ⟨tr₁, tr₂, n, p, rfl, hcall, hn, _, rfl⟩ := h
  obtain ⟨ops, hrest, hrun⟩ := ht.others
  rw [List.append_nil] at hrest
  subst hrest
  rw [ofOther_tagged] at hrun
  exact ⟨tr₁, tr₂, n, rfl, hcall, hn, hrun⟩

theorem shared_of_run {tr₁ tr₂ : Trace ι ε ω ρ α} {n p : Pool σ ι ε ω ρ α}
    (hn : Run (step opStep handler) (.start s) tr₁ n)
    (hrun : Run (step opStep handler) (.start s) (tr₁ ++ (.call id req, .began) :: tr₂) p) :
    Run opStep n.shared (tr₂.filterMap operation) p.shared := by
  obtain ⟨n', hn', hrun⟩ := run_append.mp hrun
  obtain rfl := hn.unique hn'
  have hops : Run opStep n.shared
      (List.filterMap operation ((.call id req, .began) :: tr₂)) p.shared := run_operations hrun
  exact hops

theorem during (h : Began opStep handler s tr id req t) (ht : Later opStep t t') :
    During opStep handler s tr id req t'.state := by
  obtain ⟨tr₁, tr₂, n, p, rfl, hcall, hn, hrun, rfl⟩ := h
  obtain ⟨ops, hrest, hops⟩ := ht
  obtain ⟨tr₃, tr₄, rfl, rfl, _⟩ := List.filterMap_eq_append_iff.mp hrest
  rw [map_tagged] at hops
  rw [← List.cons_append, ← List.append_assoc] at hrun
  obtain ⟨m, hm, _⟩ := run_append.mp hrun
  exact ⟨tr₁, tr₃, tr₄, m, rfl, hcall, hm, (shared_of_run hn hm).unique hops⟩

theorem acted {e : ε} {o : ω} (h : Began opStep handler s tr id req t) (ht : Later opStep t t₁)
    (hacts : Acts opStep t₁ e o t') :
    Acted opStep handler s tr id req t₁.state e o t'.state := by
  obtain ⟨tr₁, tr₂, n, p, rfl, hcall, hn, hrun, rfl⟩ := h
  obtain ⟨ops, hrest, hops⟩ := ht
  obtain ⟨tr₃, tr₄, rfl, rfl, hrest'⟩ := List.filterMap_eq_append_iff.mp hrest
  rw [hacts.rest] at hrest'
  obtain ⟨tr₅, y, tr₆, rfl, hnone, hy, _⟩ := List.filterMap_eq_cons_iff.mp hrest'
  obtain ⟨input, rfl⟩ := eq_of_tagged hy (hcall y (by simp))
  have hsame : (tr₃ ++ tr₅).filterMap operation = (tr₃.filterMap (tagged id)).map Prod.snd := by
    rw [map_tagged, List.filterMap_append, ← map_tagged id tr₅,
      List.filterMap_eq_nil_iff.mpr hnone, List.map_nil, List.append_nil]
  rw [← List.append_assoc] at hrun hcall ⊢
  rw [← List.cons_append, ← List.append_assoc] at hrun
  obtain ⟨m, hm, m', hs, _⟩ := run_append.mp hrun
  have hshared : m.shared = t₁.state := by
    have hm' := shared_of_run hn hm
    rw [hsame] at hm'
    exact hm'.unique hops
  refine ⟨tr₁, tr₃ ++ tr₅, tr₆, input, m, m', rfl, hcall, hm, hs, hshared, ?_⟩
  cases step_effect hs with
  | did _ hop =>
      rw [hshared] at hop
      cases hop.symm.trans hacts.step
      rfl

end Began

/-- Every call that has ended has begun, and in between it has done what its handler's program
says. -/
theorem exists_ends {s : σ} {input : ι} {out : Option α}
    (hrun : Run (step opStep handler) (.start s) (tr ++ [(.advance id input, o)]) p')
    (ho : o.outcome = some (req, out)) :
    ∃ t, Began opStep handler s tr id req t ∧
      Ends opStep (handler req) t out ⟨p'.shared, []⟩ := by
  obtain ⟨m, hm, hs⟩ := run_snoc.mp hrun
  have hid : ∃ q, m.calls id = some (req, q) := by
    cases step_effect hs with
    | did => cases ho
    | answered hid | panicked hid | failed hid =>
        cases ho
        exact ⟨_, hid⟩
  obtain ⟨q, hid⟩ := hid
  obtain ⟨tr₁, tr₂, n, rfl, hn, hcall⟩ := exists_call hm hid
  refine ⟨_, ⟨tr₁, tr₂, n, m, rfl, hcall, hn, hm, rfl⟩, ?_⟩
  rw [List.append_assoc] at hrun
  obtain ⟨n', hn', n₁, hs, hrun⟩ := run_append.mp hrun
  obtain rfl := hn.unique hn'
  cases step_effect hs with
  | began =>
      refine (ends_of_run ?_ hrun ho hcall :)
      exact Function.update_self ..

end Runs

end Calls
