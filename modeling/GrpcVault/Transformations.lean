import GrpcVault.TokenizeService

/-!
# Transformations by name

The tokenize service resolves a transformation's name in the built-in table and then in the
map of the transformations that users have added. Three functions do so, each in its own way,
and they always agree. Adding a transformation under a name that is taken replaces the one
that is there, so a name keeps its alphabet exactly as long as nothing else is added under it.
-/

namespace GrpcVault.Fpe

open GoText

structure BuiltIn extends Transformation where
  pattern : Str
  description : Str

def builtIns : List BuiltIn :=
  [{ name := "credit-card".toList, alphabet := alphabetNumeric
     pattern := "^[0-9]\x7b13,19\x7d$".toList
     description := "Credit card numbers (13-19 digits)".toList },
   { name := "ssn".toList, alphabet := alphabetNumeric
     pattern := "^[0-9]\x7b9\x7d$".toList
     description := "Social Security Number (9 digits)".toList },
   { name := "phone".toList, alphabet := alphabetNumeric
     pattern := "^[0-9]\x7b10,15\x7d$".toList
     description := "Phone numbers (10-15 digits)".toList },
   { name := "numeric".toList, alphabet := alphabetNumeric
     pattern := "^[0-9]+$".toList
     description := "Any numeric string".toList },
   { name := "alpha-lower".toList, alphabet := alphabetAlphaLower
     pattern := "^[a-z]+$".toList
     description := "Lowercase letters only".toList },
   { name := "alpha-upper".toList, alphabet := alphabetAlphaUpper
     pattern := "^[A-Z]+$".toList
     description := "Uppercase letters only".toList },
   { name := "alphanumeric".toList, alphabet := alphabetAlphanumeric
     pattern := "^[a-zA-Z0-9]+$".toList
     description := "Letters and numbers".toList }]

/-- `fpe.GetTransformation`, with all that it returns. -/
def findBuiltIn (name : Str) : Option BuiltIn := builtIns.find? fun t => t.name = name

theorem getTransformation_eq (name : Str) :
    getTransformation name = (findBuiltIn name).map BuiltIn.toTransformation := by
  have htable : builtInTransformations = builtIns.map BuiltIn.toTransformation := rfl
  rw [getTransformation, htable, List.find?_map]
  rfl

theorem nodup_builtIns : (builtIns.map fun t => t.name).Nodup := by
  decide +kernel

theorem name_ne_nil_of_builtIn : ∀ t ∈ builtIns, t.name ≠ [] := by
  decide +kernel

theorem findBuiltIn_eq_some {name : Str} {t : BuiltIn} :
    findBuiltIn name = some t ↔ t ∈ builtIns ∧ t.name = name := by
  constructor
  · intro h
    exact ⟨List.mem_of_find?_eq_some h, by simpa using List.find?_some h⟩
  · rintro ⟨hmem, rfl⟩
    cases h : findBuiltIn t.name with
    | none =>
        have hne := List.find?_eq_none.mp h t hmem
        simp at hne
    | some u =>
        have hname : u.name = t.name := by simpa using List.find?_some h
        rw [List.inj_on_of_nodup_map nodup_builtIns (List.mem_of_find?_eq_some h) hmem hname]

end GrpcVault.Fpe

namespace GrpcVault.Tokenize

open GoText EventSystem Fpe

/-- What the service returns of a transformation, and keeps of one that a user has added. -/
structure TransformationInfo where
  name : Str
  alphabet : Str
  pattern : Str
  description : Str
  builtIn : Bool

def TransformationInfo.ofBuiltIn (t : BuiltIn) : TransformationInfo where
  name := t.name
  alphabet := t.alphabet
  pattern := t.pattern
  description := t.description
  builtIn := true

inductive TransformationError where
  | invalidInput
  | overrideBuiltIn
  | deleteBuiltIn
  | transformationNotFound
  deriving DecidableEq

def TransformationError.message : TransformationError → String
  | .invalidInput => "invalid input"
  | .overrideBuiltIn => "cannot override built-in transformation"
  | .deleteBuiltIn => "cannot delete built-in transformation"
  | .transformationNotFound => "transformation not found"

abbrev Registry := GoMap Str TransformationInfo

namespace Registry

variable (r : Registry)

/-- What `getAlphabet` reads of the map. -/
def alphabets : CustomTransformations :=
  GoMap.mapValues (fun t => { name := t.name, alphabet := t.alphabet }) r

/-- All transformations, in no particular order. -/
def listTransformations : Multiset TransformationInfo :=
  (builtIns.map TransformationInfo.ofBuiltIn : Multiset TransformationInfo) + GoMap.values r

def createTransformation (name alphabet pattern description : Str) :
    Registry × Except TransformationError TransformationInfo :=
  if name = [] ∨ alphabet = [] then (r, .error .invalidInput)
  else
    match findBuiltIn name with
    | some _ => (r, .error .overrideBuiltIn)
    | none =>
        let t := { name, alphabet, pattern, description, builtIn := false }
        (r.insert name t, .ok t)

def getTransformation (name : Str) : Except TransformationError TransformationInfo :=
  match findBuiltIn name with
  | some t => .ok (.ofBuiltIn t)
  | none =>
      match r.lookup name with
      | some t => .ok t
      | none => .error .transformationNotFound

def deleteTransformation (name : Str) : Registry × Option TransformationError :=
  match findBuiltIn name with
  | some _ => (r, some .deleteBuiltIn)
  | none =>
      match r.lookup name with
      | none => (r, some .transformationNotFound)
      | some _ => (r.erase name, none)

inductive Event where
  | create (name alphabet pattern description : Str)
  | delete (name : Str)

inductive Output where
  | created (result : Except TransformationError TransformationInfo)
  | deleted (error : Option TransformationError)

abbrev Trace := List (Event × Output)

def step : Step Registry Event Output
  | r, .create name alphabet pattern description =>
      let (r', result) := createTransformation r name alphabet pattern description
      some (r', .created result)
  | r, .delete name =>
      let (r', error) := deleteTransformation r name
      some (r', .deleted error)

inductive Effect (r : Registry) : Event → Output → Registry → Prop
  | failed {e o} (hcreated : ∀ t, o ≠ .created (.ok t)) (hdeleted : o ≠ .deleted none) :
      Effect r e o r
  | created {name alphabet pattern description t} (hname : name ≠ []) (halphabet : alphabet ≠ [])
      (hbuiltIn : findBuiltIn name = none)
      (ht : t = { name, alphabet, pattern, description, builtIn := false }) :
      Effect r (.create name alphabet pattern description) (.created (.ok t)) (r.insert name t)
  | deleted {name} : Effect r (.delete name) (.deleted none) (r.erase name)

variable {r} {r' : Registry} {e : Event} {o : Output} {name alphabet : Str}

theorem step_effect (h : step r e = some (r', o)) : Effect r e o r' := by
  cases e with
  | create name alphabet pattern description =>
      unfold step createTransformation at h
      by_cases hempty : name = [] ∨ alphabet = []
      · simp only [hempty, if_true, Option.some.injEq, Prod.mk.injEq] at h
        obtain ⟨rfl, rfl⟩ := h
        exact .failed (by simp) (by simp)
      · obtain ⟨hname, halphabet⟩ := not_or.mp hempty
        cases hb : findBuiltIn name with
        | some t =>
            simp only [hempty, if_false, hb, Option.some.injEq, Prod.mk.injEq] at h
            obtain ⟨rfl, rfl⟩ := h
            exact .failed (by simp) (by simp)
        | none =>
            simp only [hempty, if_false, hb, Option.some.injEq, Prod.mk.injEq] at h
            obtain ⟨rfl, rfl⟩ := h
            exact .created hname halphabet hb rfl
  | delete name =>
      unfold step deleteTransformation at h
      cases hb : findBuiltIn name with
      | some t =>
          simp only [hb, Option.some.injEq, Prod.mk.injEq] at h
          obtain ⟨rfl, rfl⟩ := h
          exact .failed (by simp) (by simp)
      | none =>
          cases hl : r.lookup name with
          | none =>
              simp only [hb, hl, Option.some.injEq, Prod.mk.injEq] at h
              obtain ⟨rfl, rfl⟩ := h
              exact .failed (by simp) (by simp)
          | some t =>
              simp only [hb, hl, Option.some.injEq, Prod.mk.injEq] at h
              obtain ⟨rfl, rfl⟩ := h
              exact .deleted

/-- Transformations are filed under their own name, which is not a built-in one. -/
def Filed (r : Registry) : Prop :=
  ∀ name t, r.lookup name = some t → t.name = name ∧ findBuiltIn name = none

theorem step_filed (hf : Filed r) (h : step r e = some (r', o)) : Filed r' := by
  cases step_effect h with
  | failed => exact hf
  | @created name alphabet pattern description t _ _ hbuiltIn ht =>
      intro name' t' ht'
      obtain ⟨rfl, rfl⟩ | ⟨_, hold⟩ := GoMap.lookup_insert_cases ht'
      · exact ⟨ht ▸ rfl, hbuiltIn⟩
      · exact hf name' t' hold
  | deleted =>
      intro name' t' ht'
      exact hf name' t' (GoMap.lookup_of_lookup_erase ht')

theorem run_filed {tr : Trace} (h : Run step (∅ : Registry) tr r) : Filed r :=
  h.preserves (fun _ _ _ _ hm hstep => step_filed hm hstep) (fun _ _ ht => by cases ht)

theorem getTransformation_eq_ok {t : TransformationInfo} :
    getTransformation r name = .ok t ↔
      (∃ b, findBuiltIn name = some b ∧ t = .ofBuiltIn b) ∨
        (findBuiltIn name = none ∧ r.lookup name = some t) := by
  unfold getTransformation
  cases findBuiltIn name with
  | some b => simp [eq_comm]
  | none => cases r.lookup name <;> simp

theorem getAlphabet_eq_ok (hname : name ≠ []) :
    getAlphabet (alphabets r) name [] = .ok alphabet ↔
      ∃ t, getTransformation r name = .ok t ∧ t.alphabet = alphabet := by
  unfold getAlphabet getTransformation
  rw [Fpe.getTransformation_eq, alphabets, GoMap.lookup_mapValues]
  cases findBuiltIn name with
  | some b => simp [hname, TransformationInfo.ofBuiltIn]
  | none => cases r.lookup name <;> simp [hname]

theorem Filed.mem_listTransformations (hf : Filed r) {t : TransformationInfo} :
    t ∈ listTransformations r ↔ getTransformation r t.name = .ok t := by
  rw [listTransformations, Multiset.mem_add, GoMap.mem_values, getTransformation_eq_ok,
    Multiset.mem_coe, List.mem_map]
  constructor
  · rintro (⟨b, hb, rfl⟩ | ⟨name, ht⟩)
    · exact .inl ⟨b, findBuiltIn_eq_some.mpr ⟨hb, rfl⟩, rfl⟩
    · obtain ⟨rfl, hnone⟩ := hf name t ht
      exact .inr ⟨hnone, ht⟩
  · rintro (⟨b, hb, ht⟩ | ⟨_, ht⟩)
    · exact .inl ⟨b, (findBuiltIn_eq_some.mp hb).1, ht.symm⟩
    · exact .inr ⟨t.name, ht⟩

theorem Filed.name_eq (hf : Filed r) {t : TransformationInfo}
    (h : getTransformation r name = .ok t) : t.name = name := by
  rcases getTransformation_eq_ok.mp h with ⟨b, hb, rfl⟩ | ⟨_, ht⟩
  · exact (findBuiltIn_eq_some.mp hb).2
  · exact (hf name t ht).1

theorem Filed.nodup_listTransformations (hf : Filed r) :
    ((listTransformations r).map TransformationInfo.name).Nodup := by
  have hcustom : (GoMap.values r).map TransformationInfo.name = r.keys.val :=
    GoMap.map_values fun name t ht => (hf name t ht).1
  rw [listTransformations, Multiset.map_add, hcustom, Multiset.map_coe, List.map_map,
    Multiset.nodup_add]
  refine ⟨Multiset.coe_nodup.mpr nodup_builtIns, r.keys.nodup, ?_⟩
  rw [Multiset.disjoint_left]
  intro name hbuiltIn hkey
  obtain ⟨b, hb, rfl⟩ := List.mem_map.mp (Multiset.mem_coe.mp hbuiltIn)
  obtain ⟨t, ht⟩ := Finmap.mem_iff.mp (Finmap.mem_keys.mp (Finset.mem_val.mp hkey))
  have hfind : findBuiltIn b.name = some b := findBuiltIn_eq_some.mpr ⟨hb, rfl⟩
  have hnone : findBuiltIn b.name = none := (hf _ t ht).2
  rw [hfind] at hnone
  cases hnone

/-- The name is one that a user has added, and resolves to `alphabet`. -/
def Resolves (name alphabet : Str) (r : Registry) : Prop :=
  findBuiltIn name = none ∧ ∃ t, r.lookup name = some t ∧ t.alphabet = alphabet

theorem Resolves.getAlphabet_eq (h : Resolves name alphabet r) (hname : name ≠ []) :
    getAlphabet (alphabets r) name [] = .ok alphabet := by
  obtain ⟨hbuiltIn, t, ht, halphabet⟩ := h
  exact (getAlphabet_eq_ok hname).mpr ⟨t, getTransformation_eq_ok.mpr (.inr ⟨hbuiltIn, ht⟩), halphabet⟩

/-- A call that does not delete the name, and adds nothing else under it. -/
def Keeps (name alphabet : Str) (x : Event × Output) : Prop :=
  x ≠ (.delete name, .deleted none) ∧
    ∀ alphabet' pattern description t,
      x = (.create name alphabet' pattern description, .created (.ok t)) → alphabet' = alphabet

theorem step_resolves (hx : Keeps name alphabet (e, o)) (h : Resolves name alphabet r)
    (hstep : step r e = some (r', o)) : Resolves name alphabet r' := by
  obtain ⟨hbuiltIn, t, ht, halphabet⟩ := h
  cases step_effect hstep with
  | failed => exact ⟨hbuiltIn, t, ht, halphabet⟩
  | @created name' alphabet' pattern description t' _ _ _ ht' =>
      by_cases hne : name = name'
      · subst hne
        refine ⟨hbuiltIn, t', Finmap.lookup_insert _, ?_⟩
        rw [ht']
        exact hx.2 alphabet' pattern description t' rfl
      · exact ⟨hbuiltIn, t, (Finmap.lookup_insert_of_ne _ hne).trans ht, halphabet⟩
  | @deleted name' =>
      by_cases hne : name = name'
      · subst hne
        exact absurd rfl hx.1
      · exact ⟨hbuiltIn, t, (Finmap.lookup_erase_ne hne).trans ht, halphabet⟩

theorem resolves_of_create {pattern description : Str} {t : TransformationInfo}
    (h : step r (.create name alphabet pattern description) = some (r', .created (.ok t))) :
    name ≠ [] ∧ Resolves name alphabet r' := by
  generalize ho : Output.created (.ok t) = o at h
  cases step_effect h with
  | failed hcreated => exact absurd ho.symm (hcreated t)
  | created hname _ hbuiltIn ht =>
      exact ⟨hname, hbuiltIn, _, Finmap.lookup_insert _, ht ▸ rfl⟩

/-- The three lookups agree on every name at every moment, list no name twice and resolve
built-in names to their alphabets. From a successful creation until the name is deleted, it
resolves to that alphabet in every state if and only if no creation gives it another. -/
theorem transformation_names_stable_iff {tr : Trace} (hrun : Run step (∅ : Registry) tr r) :
    (∀ name alphabet, name ≠ [] →
      (getAlphabet (alphabets r) name [] = .ok alphabet ↔
        ∃ t, getTransformation r name = .ok t ∧ t.alphabet = alphabet) ∧
      (getAlphabet (alphabets r) name [] = .ok alphabet ↔
        ∃ t ∈ listTransformations r, t.name = name ∧ t.alphabet = alphabet)) ∧
    ((listTransformations r).map TransformationInfo.name).Nodup ∧
    (∀ b ∈ builtIns, getAlphabet (alphabets r) b.name [] = .ok b.alphabet) ∧
    ∀ tr₁ tr₂ name alphabet pattern description t,
      tr = tr₁ ++ (.create name alphabet pattern description, .created (.ok t)) :: tr₂ →
      (.delete name, .deleted none) ∉ tr₂ →
      ((∀ tr₃ m, tr₃ <+: tr₂ →
          Run step ∅ (tr₁ ++ (.create name alphabet pattern description, .created (.ok t)) :: tr₃) m →
          getAlphabet (alphabets m) name [] = .ok alphabet) ↔
        ∀ alphabet' pattern' description' t',
          (.create name alphabet' pattern' description', .created (.ok t')) ∈ tr₂ →
          alphabet' = alphabet) := by
  have hf := run_filed hrun
  refine ⟨?_, hf.nodup_listTransformations, ?_, ?_⟩
  · intro name alphabet hname
    have hget : getAlphabet (alphabets r) name [] = .ok alphabet ↔
        ∃ t, getTransformation r name = .ok t ∧ t.alphabet = alphabet := getAlphabet_eq_ok hname
    refine ⟨hget, hget.trans ⟨?_, ?_⟩⟩
    · rintro ⟨t, ht, rfl⟩
      obtain rfl := hf.name_eq ht
      exact ⟨t, hf.mem_listTransformations.mpr ht, rfl, rfl⟩
    · rintro ⟨t, hmem, rfl, rfl⟩
      exact ⟨t, hf.mem_listTransformations.mp hmem, rfl⟩
  · intro b hb
    apply (getAlphabet_eq_ok (name_ne_nil_of_builtIn b hb)).mpr
    have hfind : findBuiltIn b.name = some b := findBuiltIn_eq_some.mpr ⟨hb, rfl⟩
    exact ⟨_, getTransformation_eq_ok.mpr (.inl ⟨b, hfind, rfl⟩), rfl⟩
  · rintro tr₁ tr₂ name alphabet pattern description t rfl hdelete
    constructor
    · intro hstable alphabet' pattern' description' t' hmem
      obtain ⟨a, b, rfl⟩ := List.append_of_mem hmem
      -- the state right after the later creation is one of those that resolve the name
      have hrun' := hrun
      rw [← List.cons_append, ← List.append_assoc] at hrun'
      obtain ⟨m, m', hm, hcreate, _⟩ := run_append_cons.mp hrun'
      obtain ⟨hname, hresolves⟩ := resolves_of_create hcreate
      have hrun₃ := run_snoc.mpr ⟨m, hm, hcreate⟩
      rw [List.append_assoc, List.cons_append] at hrun₃
      have halphabet := hstable (a ++ [_]) m' (by simp) hrun₃
      rw [hresolves.getAlphabet_eq hname] at halphabet
      exact Except.ok.inj halphabet
    · intro hsame tr₃ m hpre hm
      obtain ⟨m₁, m₂, _, hcreate, hrest⟩ := run_append_cons.mp hm
      obtain ⟨hname, hresolves⟩ := resolves_of_create hcreate
      refine Resolves.getAlphabet_eq ?_ hname
      refine hrest.invariant (A := Keeps name alphabet)
        (fun _ _ _ _ hx hr hstep => step_resolves hx hr hstep) ?_ hresolves
      intro x hx
      have hx₂ := hpre.subset hx
      refine ⟨fun heq => hdelete (heq ▸ hx₂), ?_⟩
      intro alphabet' pattern' description' t' heq
      exact hsame alphabet' pattern' description' t' (heq ▸ hx₂)

/-- Another name is added and deleted meanwhile. -/
theorem transformation_names_stable_other : ∃ (tr : Trace) (r : Registry),
    Run step (∅ : Registry) tr r ∧ getAlphabet (alphabets r) ['x'] [] = .ok ['a', 'b'] := by
  have hrun : ∃ (t t' : TransformationInfo) (r : Registry), Run step (∅ : Registry)
      [(.create ['x'] ['a', 'b'] [] [], .created (.ok t)),
        (.create ['y'] ['c', 'd'] [] [], .created (.ok t')), (.delete ['y'], .deleted none)] r :=
    ⟨_, _, _, _, rfl, _, rfl, _, rfl, rfl⟩
  obtain ⟨t, t', r, hrun⟩ := hrun
  refine ⟨_, r, hrun, ?_⟩
  have hstable := (transformation_names_stable_iff hrun).2.2.2 [] _ _ _ _ _ _ rfl (by simp)
  refine hstable.mpr ?_ _ r List.prefix_rfl hrun
  intro alphabet' pattern' description' t'' hmem
  simp at hmem

/-- A second transformation under the name of the first replaces it. -/
theorem transformation_replaced : ∃ (t t' : TransformationInfo) (m r : Registry),
    Run step (∅ : Registry) [(.create ['x'] ['a', 'b'] [] [], .created (.ok t))] m ∧
    getAlphabet (alphabets m) ['x'] [] = .ok ['a', 'b'] ∧
    Run step m [(.create ['x'] ['c', 'd'] [] [], .created (.ok t'))] r ∧
    getAlphabet (alphabets r) ['x'] [] = .ok ['c', 'd'] :=
  ⟨_, _, _, _, ⟨_, rfl, rfl⟩, rfl, ⟨_, rfl, rfl⟩, rfl⟩

end Registry
end GrpcVault.Tokenize
