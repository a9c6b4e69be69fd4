import GrpcVault.Policy

/-!
# The order of rules

The loops of `evaluate` look at the rules of the attached policies one after the other
(`evaluate_allowed`), and the first that denies or grants decides. So a denial holds
whatever the order only if no matching rule grants.
-/

namespace GrpcVault.Acl

open GoText

/-- The rules of the attached policies that exist, in the order of the loops. -/
def Evaluator.attachedRules (e : Evaluator) (policyNames : List Str) : List Rule :=
  policyNames.flatMap fun name => ((e.policies.lookup name).map Policy.rules).getD []

theorem attachedRules_cons (e : Evaluator) (name : Str) (names : List Str) :
    e.attachedRules (name :: names) =
      ((e.policies.lookup name).map Policy.rules).getD [] ++ e.attachedRules names :=
  List.flatMap_cons ..

section Verdict

variable (resourcePath : Str) (capability : Capability) (context : GoMap Str Str)

def firstAllowed (rules : List Rule) : Bool :=
  ((rules.findSome? (ruleVerdict resourcePath capability context)).map
    EvaluationResult.allowed).getD false

def Denies (rule : Rule) : Prop :=
  pathMatches rule.path resourcePath ∧ hasCapability rule.capabilities capabilityDeny

def Grants (rule : Rule) : Prop :=
  pathMatches rule.path resourcePath ∧ ¬ hasCapability rule.capabilities capabilityDeny ∧
    (hasCapability rule.capabilities capabilitySudo ∨
      hasCapability rule.capabilities capability ∧
        (rule.conditions.keys.card = 0 ∨ checkConditions rule.conditions context))

theorem evaluate_allowed (e : Evaluator) (policyNames : List Str) :
    (e.evaluate policyNames resourcePath capability context).allowed =
      firstAllowed resourcePath capability context (e.attachedRules policyNames) := by
  have hfound : (policyNames.findSome? fun policyName =>
      (e.policies.lookup policyName).bind fun policy =>
        policy.rules.findSome? (ruleVerdict resourcePath capability context)) =
      (e.attachedRules policyNames).findSome? (ruleVerdict resourcePath capability context) := by
    induction policyNames with
    | nil => rfl
    | cons name names ih =>
        rw [List.findSome?_cons, ih, attachedRules_cons, List.findSome?_append]
        cases e.policies.lookup name with
        | none => rfl
        | some policy =>
            simp only [Option.bind_some, Option.map_some, Option.getD_some]
            cases policy.rules.findSome? (ruleVerdict resourcePath capability context) <;> rfl
  cases policyNames with
  | nil => rfl
  | cons name names =>
      rw [Evaluator.evaluate, if_neg (by simp), hfound, firstAllowed]
      cases List.findSome? (ruleVerdict resourcePath capability context)
        (e.attachedRules (name :: names)) <;> rfl

variable {resourcePath capability context}

theorem firstAllowed_cons_cases (rule : Rule) (rules : List Rule) :
    Denies resourcePath rule ∧ ¬ Grants resourcePath capability context rule ∧
      firstAllowed resourcePath capability context (rule :: rules) = false ∨
    Grants resourcePath capability context rule ∧ ¬ Denies resourcePath rule ∧
      firstAllowed resourcePath capability context (rule :: rules) = true ∨
    ¬ Denies resourcePath rule ∧ ¬ Grants resourcePath capability context rule ∧
      firstAllowed resourcePath capability context (rule :: rules) =
        firstAllowed resourcePath capability context rules := by
  unfold Denies Grants firstAllowed
  rw [List.findSome?_cons, ruleVerdict]
  by_cases hm : pathMatches rule.path resourcePath = true
  · by_cases hd : hasCapability rule.capabilities capabilityDeny = true
    · simp [hm, hd]
    · by_cases hs : hasCapability rule.capabilities capabilitySudo = true
      · simp [hm, hd, hs]
      · by_cases hc : hasCapability rule.capabilities capability = true
        · by_cases hk : rule.conditions.keys.card = 0
          · simp [hm, hd, hs, hc, hk]
          · have hpos : 0 < rule.conditions.keys.card := Nat.pos_of_ne_zero hk
            cases hcheck : checkConditions rule.conditions context <;>
              simp [hm, hd, hs, hc, hk, hpos]
        · simp [hm, hd, hs, hc]
  · simp [hm]

theorem firstAllowed_of_no_grants {rules : List Rule}
    (h : ∀ rule ∈ rules, ¬ Grants resourcePath capability context rule) :
    firstAllowed resourcePath capability context rules = false := by
  induction rules with
  | nil => rfl
  | cons rule rules ih =>
      obtain ⟨_, _, hf⟩ | ⟨hg, _⟩ | ⟨_, _, hf⟩ := firstAllowed_cons_cases rule rules
      · exact hf
      · exact absurd hg (h rule List.mem_cons_self)
      · exact hf.trans (ih fun r hr => h r (List.mem_cons_of_mem _ hr))

theorem firstAllowed_of_no_denies {rules : List Rule}
    (h : ∀ rule ∈ rules, ¬ Denies resourcePath rule) :
    firstAllowed resourcePath capability context rules = true ↔
      ∃ rule ∈ rules, Grants resourcePath capability context rule := by
  induction rules with
  | nil => simp [firstAllowed]
  | cons rule rules ih =>
      simp only [List.mem_cons, exists_eq_or_imp]
      obtain ⟨hd, _⟩ | ⟨hg, _, hf⟩ | ⟨_, hg, hf⟩ := firstAllowed_cons_cases rule rules
      · exact absurd hd (h rule List.mem_cons_self)
      · exact iff_of_true hf (.inl hg)
      · rw [hf, ih fun r hr => h r (List.mem_cons_of_mem _ hr)]
        exact (or_iff_right hg).symm

theorem firstAllowed_perm {rules rules' : List Rule} (hp : rules.Perm rules')
    (h : (∀ rule ∈ rules, ¬ Denies resourcePath rule) ∨
      ∀ rule ∈ rules, ¬ Grants resourcePath capability context rule) :
    firstAllowed resourcePath capability context rules' =
      firstAllowed resourcePath capability context rules := by
  obtain hd | hg := h
  · have hd' : ∀ rule ∈ rules', ¬ Denies resourcePath rule := fun r hr => hd r (hp.mem_iff.mpr hr)
    rw [Bool.eq_iff_iff, firstAllowed_of_no_denies hd, firstAllowed_of_no_denies hd']
    simp only [hp.mem_iff]
  · rw [firstAllowed_of_no_grants hg,
      firstAllowed_of_no_grants fun r hr => hg r (hp.mem_iff.mpr hr)]

end Verdict

/-- The same policies, each with its rules in some order. -/
def Evaluator.Reordered (e e' : Evaluator) : Prop :=
  ∀ name, Option.Rel (fun p p' => p.rules.Perm p'.rules) (e.policies.lookup name)
    (e'.policies.lookup name)

theorem attachedRules_perm {e e' : Evaluator} {names names' : List Str} (hn : names.Perm names')
    (he : e.Reordered e') : (e.attachedRules names).Perm (e'.attachedRules names') := by
  have hrules : ∀ name, (((e.policies.lookup name).map Policy.rules).getD []).Perm
      (((e'.policies.lookup name).map Policy.rules).getD []) := by
    intro name
    have hrel := he name
    generalize e.policies.lookup name = p at hrel ⊢
    generalize e'.policies.lookup name = p' at hrel ⊢
    cases hrel with
    | some hp => exact hp
    | none => exact List.Perm.refl _
  exact hn.flatMap fun name _ => hrules name

theorem exists_reordered_first {e : Evaluator} {names : List Str} {rule : Rule}
    (h : rule ∈ e.attachedRules names) :
    ∃ names' e' rules, names.Perm names' ∧ e.Reordered e' ∧
      e'.attachedRules names' = rule :: rules := by
  obtain ⟨name, hname, hrule⟩ := List.mem_flatMap.mp h
  cases hl : e.policies.lookup name with
  | none => simp [hl] at hrule
  | some policy =>
      simp only [hl, Option.map_some, Option.getD_some] at hrule
      obtain ⟨names₁, names₂, rfl⟩ := List.append_of_mem hname
      obtain ⟨rules₁, rules₂, hrules⟩ := List.append_of_mem hrule
      let policy' : Policy := { policy with rules := rule :: (rules₁ ++ rules₂) }
      let e' : Evaluator := { policies := e.policies.insert name policy' }
      refine ⟨name :: (names₁ ++ names₂), e', rules₁ ++ rules₂ ++ e'.attachedRules (names₁ ++ names₂),
        List.perm_middle, ?_, ?_⟩
      · intro n
        by_cases hn : n = name
        · subst hn
          rw [hl, Finmap.lookup_insert]
          refine .some ?_
          rw [hrules]
          exact List.perm_middle
        · rw [Finmap.lookup_insert_of_ne _ hn]
          cases e.policies.lookup n with
          | none => exact .none
          | some p => exact .some (List.Perm.refl _)
      · rw [attachedRules_cons, Finmap.lookup_insert]
        rfl

/-- A matching denial prevails and the answer is free of the order, both together, exactly
when no matching denial stands beside a rule that grants. -/
theorem deny_prevails_iff (e : Evaluator) (policyNames : List Str) (resourcePath : Str)
    (capability : Capability) (context : GoMap Str Str) :
    (((∃ rule ∈ e.attachedRules policyNames, Denies resourcePath rule) →
        (e.evaluate policyNames resourcePath capability context).allowed = false) ∧
      ∀ policyNames' e', policyNames.Perm policyNames' → e.Reordered e' →
        (e'.evaluate policyNames' resourcePath capability context).allowed =
          (e.evaluate policyNames resourcePath capability context).allowed) ↔
    ¬ ((∃ rule ∈ e.attachedRules policyNames, Denies resourcePath rule) ∧
      ∃ rule ∈ e.attachedRules policyNames, Grants resourcePath capability context rule) := by
  simp only [evaluate_allowed]
  constructor
  · intro ⟨hdeny, horder⟩ ⟨hd, rule, hmem, hg⟩
    obtain ⟨names', e', rules, hn, he, hfirst⟩ := exists_reordered_first hmem
    have hsame := horder names' e' hn he
    rw [hdeny hd, hfirst] at hsame
    obtain ⟨_, hng, _⟩ | ⟨_, _, hf⟩ | ⟨_, hng, _⟩ := firstAllowed_cons_cases rule rules
    · exact hng hg
    · rw [hf] at hsame
      cases hsame
    · exact hng hg
  · intro hnot
    have hagree : (∀ rule ∈ e.attachedRules policyNames, ¬ Denies resourcePath rule) ∨
        ∀ rule ∈ e.attachedRules policyNames, ¬ Grants resourcePath capability context rule := by
      by_contra hcon
      push Not at hcon
      exact hnot hcon
    refine ⟨?_, ?_⟩
    · rintro ⟨rule, hmem, hd⟩
      obtain hnd | hng := hagree
      · exact absurd hd (hnd rule hmem)
      · exact firstAllowed_of_no_grants hng
    · intro names' e' hn he
      exact firstAllowed_perm (attachedRules_perm hn he) hagree

section Example

def readerPolicy : Policy where
  name := "reader".toList
  rules := [{ path := "secret/data".toList, capabilities := [capabilityRead], conditions := ∅ }]
  description := ""

def blockedPolicy : Policy where
  name := "blocked".toList
  rules := [{ path := "secret/data".toList, capabilities := [capabilityDeny], conditions := ∅ }]
  description := ""

/-- The denial of the second policy is not reached, and it is when the names are swapped. -/
theorem deny_masked_by_earlier_grant :
    let e := (newEvaluator.addPolicy readerPolicy).addPolicy blockedPolicy
    let names := ["reader".toList, "blocked".toList]
    let path := "secret/data".toList
    (∃ rule ∈ e.attachedRules names, Denies path rule) ∧
      (e.evaluate names path capabilityRead ∅).allowed = true ∧
      (e.evaluate names.reverse path capabilityRead ∅).allowed = false := by
  refine ⟨⟨_, List.mem_cons_of_mem _ List.mem_cons_self, ?_⟩, ?_, ?_⟩
  · exact ⟨rfl, rfl⟩
  · rfl
  · rfl

end Example

end GrpcVault.Acl
