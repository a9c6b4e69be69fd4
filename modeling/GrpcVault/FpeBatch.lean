import GrpcVault.TokenizeService
import GrpcVault.Lib.WorkerPool

/-!
# Batches of format-preserving encryption

A batch resolves key and alphabet once and hands every item to the worker pool as a task of
its own, which makes its cipher, runs it and writes the result to the item's slot. In every
interleaving the results are those of the single calls.
-/

namespace GrpcVault.Tokenize

open GoText EventSystem Fpe WorkerPool

structure FPEBatchItem where
  value : Str
  tweak : Option Bytes
  reference : Str

/-- The defaults are the zero values. -/
structure FPEResult where
  value : Str := []
  keyVersion : ℤ := 0
  reference : Str := []
  error : Option TokenizeError := none

inductive FpeTask where
  | submitted
  | ciphered (cipher : Cipher)
  | transformed (result : Except FpeError Str)

/-- The result that a task writes for its cipher's answer, which reports the error as it is. -/
def transformedResult (keyInfo : KeyInfo) (item : FPEBatchItem) :
    Except FpeError Str → FPEResult
  | .error e =>
      { keyVersion := keyInfo.version, reference := item.reference, error := some (.fpe e) }
  | .ok value => { value, keyVersion := keyInfo.version, reference := item.reference }

def failedResults (items : List FPEBatchItem) (e : TokenizeError) : List FPEResult :=
  items.map fun item => { reference := item.reference, error := some e }

section Batch

variable (ff1 : Ff1) (custom : CustomTransformations)
  (method : Cipher → Str → Option Bytes → Except FpeError Str)

def batchPool (keyInfo : KeyInfo) (alphabet : Str) (items : List FPEBatchItem) :
    Pool (Fin items.length) FpeTask FPEResult where
  start _ := .submitted
  advance i
    | .submitted =>
        match newCipher ff1 keyInfo alphabet with
        | .error e => .inr { reference := (items.get i).reference, error := some (.fpe e) }
        | .ok cipher => .inl (.ciphered cipher)
    | .ciphered cipher =>
        .inl (.transformed (method cipher (items.get i).value (items.get i).tweak))
    | .transformed result => .inr (transformedResult keyInfo (items.get i) result)

/-- What `FPEEncryptBatch` and `FPEDecryptBatch` can return, for some order of the tasks' steps,
with the key cache they leave. They differ in the cipher's method. -/
def FPEBatch (client : Option LockClient) (keyCache : KeyCache)
    (keyName transformation customAlphabet : Str) (items : List FPEBatchItem)
    (keyCache' : KeyCache) (results : List FPEResult) : Prop :=
  match getKey client keyCache keyName with
  | (keyCache, .error e) => keyCache' = keyCache ∧ results = failedResults items e
  | (keyCache, .ok keyInfo) =>
      keyCache' = keyCache ∧
        match getAlphabet custom transformation customAlphabet with
        | .error e => results = failedResults items e
        | .ok alphabet =>
            let pool := batchPool ff1 method keyInfo alphabet items
            ∃ tr s, Run pool.step (pool.init fun _ => {}) tr s ∧ s.Complete ∧
              results = List.ofFn s.slots

def FPEEncryptBatch (client : Option LockClient) (keyCache : KeyCache)
    (keyName transformation customAlphabet : Str) (items : List FPEBatchItem)
    (keyCache' : KeyCache) (results : List FPEResult) : Prop :=
  FPEBatch ff1 custom (Cipher.encryptWithTweak ff1) client keyCache keyName transformation
    customAlphabet items keyCache' results

def FPEDecryptBatch (client : Option LockClient) (keyCache : KeyCache)
    (keyName transformation customAlphabet : Str) (items : List FPEBatchItem)
    (keyCache' : KeyCache) (results : List FPEResult) : Prop :=
  FPEBatch ff1 custom (Cipher.decryptWithTweak ff1) client keyCache keyName transformation
    customAlphabet items keyCache' results

/-- The result of an item whose task runs by itself. -/
def itemResult (keyInfo : KeyInfo) (alphabet : Str) (item : FPEBatchItem) : FPEResult :=
  match newCipher ff1 keyInfo alphabet with
  | .error e => { reference := item.reference, error := some (.fpe e) }
  | .ok cipher => transformedResult keyInfo item (method cipher item.value item.tweak)

variable {ff1 custom method} {keyInfo : KeyInfo} {alphabet : Str} {items : List FPEBatchItem}

theorem batchPool_yields (i : Fin items.length) {result : FPEResult}
    (h : (batchPool ff1 method keyInfo alphabet items).Yields i .submitted result) :
    result = itemResult ff1 method keyInfo alphabet (items.get i) := by
  unfold itemResult
  cases hc : newCipher ff1 keyInfo alphabet with
  | error e =>
      cases h with
      | last h => simpa [batchPool, hc] using h.symm
      | more h => simp [batchPool, hc] at h
  | ok cipher =>
      cases h with
      | last h => simp [batchPool, hc] at h
      | more h h₁ =>
          obtain rfl : FpeTask.ciphered cipher = _ := by simpa [batchPool, hc] using h
          cases h₁ with
          | last h => cases h
          | more h h₂ =>
              cases h
              cases h₂ with
              | last h => exact (Sum.inr.inj h).symm
              | more h => cases h

theorem batchPool_ends (i : Fin items.length) (t : FpeTask) :
    ∃ result, (batchPool ff1 method keyInfo alphabet items).Yields i t result := by
  have htransformed : ∀ r, ∃ result,
      (batchPool ff1 method keyInfo alphabet items).Yields i (.transformed r) result :=
    fun r => ⟨_, .last rfl⟩
  have hciphered : ∀ cipher, ∃ result,
      (batchPool ff1 method keyInfo alphabet items).Yields i (.ciphered cipher) result := by
    intro cipher
    obtain ⟨result, h⟩ := htransformed (method cipher (items.get i).value (items.get i).tweak)
    exact ⟨result, .more rfl h⟩
  cases t with
  | transformed r => exact htransformed r
  | ciphered cipher => exact hciphered cipher
  | submitted =>
      cases hc : newCipher ff1 keyInfo alphabet with
      | error e =>
          exact ⟨{ reference := (items.get i).reference, error := some (.fpe e) },
            .last (by simp [batchPool, hc])⟩
      | ok cipher =>
          obtain ⟨result, h⟩ := hciphered cipher
          exact ⟨result, .more (by simp [batchPool, hc]) h⟩

/-- The order of the tasks' steps does not matter. -/
theorem slots_eq {tr : List (Fin items.length × Unit)}
    {s : State (Fin items.length) FpeTask FPEResult} {slots : Fin items.length → FPEResult}
    (hrun : Run (batchPool ff1 method keyInfo alphabet items).step
      ((batchPool ff1 method keyInfo alphabet items).init slots) tr s) (hc : s.Complete) :
    List.ofFn s.slots = items.map (itemResult ff1 method keyInfo alphabet) := by
  have hslots : s.slots = fun i => itemResult ff1 method keyInfo alphabet (items.get i) :=
    funext fun i => batchPool_yields i (Pool.yields_of_complete hrun hc i)
  rw [hslots]
  conv_rhs => rw [← List.ofFn_get items, List.map_ofFn]
  rfl

/-- The result of an item in a batch against that of a single call: `key` and `alphabet` are
what the batch has resolved, `single` is the call with a key. -/
structure Agrees (key : Except TokenizeError KeyInfo) (alphabet : Except TokenizeError Str)
    (single : KeyInfo → FPEBatchItem → Except TokenizeError (Str × ℤ))
    (item : FPEBatchItem) (result : FPEResult) : Prop where
  reference : result.reference = item.reference
  keyError : ∀ e, key = .error e → result.error = some e
  alphabetError : ∀ keyInfo e, key = .ok keyInfo → alphabet = .error e → result.error = some e
  succeeds : ∀ keyInfo, key = .ok keyInfo → (result.error = none ↔ ∃ r, single keyInfo item = .ok r)
  value : ∀ keyInfo value version, key = .ok keyInfo → single keyInfo item = .ok (value, version) →
    result.value = value ∧ result.keyVersion = version

theorem itemResult_reference (item : FPEBatchItem) :
    (itemResult ff1 method keyInfo alphabet item).reference = item.reference := by
  unfold itemResult
  cases newCipher ff1 keyInfo alphabet with
  | error e => rfl
  | ok cipher =>
      change (transformedResult keyInfo item (method cipher item.value item.tweak)).reference = _
      cases method cipher item.value item.tweak <;> rfl

variable {failed : TokenizeError} {transformation customAlphabet : Str}

variable (ff1 method keyInfo failed) in
/-- The task of an item and the single call go through the same steps: both fail, or both
have the same value. -/
theorem itemResult_cases
    (halphabet : getAlphabet custom transformation customAlphabet = .ok alphabet)
    (item : FPEBatchItem) :
    (∃ e e', fpeWith ff1 custom method failed keyInfo item.value transformation customAlphabet
        item.tweak = .error e ∧ (itemResult ff1 method keyInfo alphabet item).error = some e') ∨
      ∃ value, fpeWith ff1 custom method failed keyInfo item.value transformation customAlphabet
        item.tweak = .ok (value, keyInfo.version) ∧
        itemResult ff1 method keyInfo alphabet item =
          { value, keyVersion := keyInfo.version, reference := item.reference } := by
  cases hc : newCipher ff1 keyInfo alphabet with
  | error e =>
      left
      exact ⟨.fpe e, .fpe e, by simp [fpeWith, halphabet, hc], by simp [itemResult, hc]⟩
  | ok cipher =>
      cases hm : method cipher item.value item.tweak with
      | error e =>
          left
          exact ⟨failed, .fpe e, by simp [fpeWith, halphabet, hc, hm],
            by simp [itemResult, transformedResult, hc, hm]⟩
      | ok value =>
          right
          exact ⟨value, by simp [fpeWith, halphabet, hc, hm],
            by simp [itemResult, transformedResult, hc, hm]⟩

theorem itemResult_agrees
    (halphabet : getAlphabet custom transformation customAlphabet = .ok alphabet)
    (item : FPEBatchItem) :
    Agrees (.ok keyInfo) (getAlphabet custom transformation customAlphabet)
      (fun keyInfo item => fpeWith ff1 custom method failed keyInfo item.value transformation
        customAlphabet item.tweak) item (itemResult ff1 method keyInfo alphabet item) := by
  have hcases := itemResult_cases ff1 method keyInfo failed halphabet item
  refine ⟨itemResult_reference item, ?_, ?_, ?_, ?_⟩
  · intro e hkey
    cases hkey
  · intro keyInfo e _ herror
    rw [halphabet] at herror
    cases herror
  · rintro _ ⟨⟩
    obtain ⟨e, e', hsingle, herror⟩ | ⟨value, hsingle, hresult⟩ := hcases
    · simp [hsingle, herror]
    · simp [hsingle, hresult]
  · rintro _ value version ⟨⟩ hvalue
    obtain ⟨e, e', hsingle, herror⟩ | ⟨value', hsingle, hresult⟩ := hcases
    · rw [hsingle] at hvalue
      cases hvalue
    · rw [hsingle] at hvalue
      cases hvalue
      simp [hresult]

theorem failedResults_agree {key : Except TokenizeError KeyInfo}
    {resolved : Except TokenizeError Str} {e : TokenizeError}
    {single : KeyInfo → FPEBatchItem → Except TokenizeError (Str × ℤ)}
    (hkey : ∀ e', key = .error e' → e' = e)
    (hresolved : ∀ keyInfo e', key = .ok keyInfo → resolved = .error e' → e' = e)
    (hsingle : ∀ keyInfo item, key = .ok keyInfo → ∃ e', single keyInfo item = .error e') :
    List.Forall₂ (Agrees key resolved single) items (failedResults items e) := by
  rw [failedResults, List.forall₂_map_right_iff, List.forall₂_same]
  intro item _
  refine ⟨rfl, ?_, ?_, ?_, ?_⟩
  · intro e' he
    rw [hkey e' he]
  · intro keyInfo e' hk he
    rw [hresolved keyInfo e' hk he]
  · intro keyInfo hk
    obtain ⟨e', he⟩ := hsingle keyInfo item hk
    simp [he]
  · intro keyInfo value version hk hvalue
    obtain ⟨e', he⟩ := hsingle keyInfo item hk
    rw [he] at hvalue
    cases hvalue

variable {client : Option LockClient} {keyCache keyCache' : KeyCache} {keyName : Str}

theorem FPEBatch.agrees {results : List FPEResult}
    (h : FPEBatch ff1 custom method client keyCache keyName transformation customAlphabet items
      keyCache' results) :
    List.Forall₂ (Agrees (getKey client keyCache keyName).2
      (getAlphabet custom transformation customAlphabet)
      fun keyInfo item => fpeWith ff1 custom method failed keyInfo item.value transformation
        customAlphabet item.tweak) items results := by
  unfold FPEBatch at h
  generalize getKey client keyCache keyName = found at h ⊢
  obtain ⟨cache, key⟩ := found
  cases key with
  | error e =>
      obtain ⟨_, rfl⟩ := h
      refine failedResults_agree ?_ ?_ ?_
      · intro e' he
        exact (Except.error.inj he).symm
      · intro keyInfo e' hk
        cases hk
      · intro keyInfo item hk
        cases hk
  | ok keyInfo =>
      obtain ⟨_, h⟩ := h
      cases halphabet : getAlphabet custom transformation customAlphabet with
      | error e =>
          rw [halphabet] at h
          obtain rfl : results = failedResults items e := h
          refine failedResults_agree ?_ ?_ ?_
          · intro e' he
            cases he
          · intro keyInfo' e' _ he
            exact (Except.error.inj he).symm
          · intro keyInfo' item _
            exact ⟨e, by simp [fpeWith, halphabet]⟩
      | ok alphabet =>
          rw [halphabet] at h
          obtain ⟨tr, s, hrun, hc, rfl⟩ := h
          rw [slots_eq hrun hc, List.forall₂_map_right_iff, List.forall₂_same, ← halphabet]
          intro item _
          exact itemResult_agrees halphabet item

variable (ff1 custom method client keyCache keyName transformation customAlphabet items)

theorem FPEBatch.returns : ∃ keyCache' results, FPEBatch ff1 custom method client keyCache keyName
    transformation customAlphabet items keyCache' results := by
  unfold FPEBatch
  obtain ⟨cache, key⟩ := getKey client keyCache keyName
  cases key with
  | error e => exact ⟨_, _, rfl, rfl⟩
  | ok keyInfo =>
      cases getAlphabet custom transformation customAlphabet with
      | error e => exact ⟨_, _, rfl, rfl⟩
      | ok alphabet =>
          obtain ⟨tr, s, hrun, hc⟩ := Pool.exists_complete batchPool_ends
            ((batchPool ff1 method keyInfo alphabet items).init fun _ => {})
          exact ⟨_, _, rfl, tr, s, hrun, hc, rfl⟩

end Batch

/-- A batch returns, and in every order of its tasks' steps each item has the result of the
single call with the same key, or the error that kept the batch from starting. -/
theorem fpe_batch_eq_single (ff1 : Ff1) (custom : CustomTransformations)
    (client : Option LockClient) (keyCache : KeyCache)
    (keyName transformation customAlphabet : Str) (items : List FPEBatchItem) :
    ((∃ keyCache' results, FPEEncryptBatch ff1 custom client keyCache keyName transformation
        customAlphabet items keyCache' results) ∧
      ∀ keyCache' results, FPEEncryptBatch ff1 custom client keyCache keyName transformation
        customAlphabet items keyCache' results →
        List.Forall₂ (Agrees (getKey client keyCache keyName).2
          (getAlphabet custom transformation customAlphabet)
          fun keyInfo item => fpeEncryptWith ff1 custom keyInfo item.value transformation
            customAlphabet item.tweak) items results) ∧
    (∃ keyCache' results, FPEDecryptBatch ff1 custom client keyCache keyName transformation
        customAlphabet items keyCache' results) ∧
      ∀ keyCache' results, FPEDecryptBatch ff1 custom client keyCache keyName transformation
        customAlphabet items keyCache' results →
        List.Forall₂ (Agrees (getKey client keyCache keyName).2
          (getAlphabet custom transformation customAlphabet)
          fun keyInfo item => fpeDecryptWith ff1 custom keyInfo item.value transformation
            customAlphabet item.tweak) items results := by
  refine ⟨⟨?_, ?_⟩, ?_, ?_⟩
  · exact FPEBatch.returns ..
  · exact fun _ _ h => h.agrees
  · exact FPEBatch.returns ..
  · exact fun _ _ h => h.agrees

def plainFf1 : Ff1 := fun _ _ _ _ => some { encrypt := some, decrypt := some }

theorem fpe_batch_eq_single_one :
    let keyCache : KeyCache := fun _ => some { key := List.replicate 16 0, version := 3 }
    let item : FPEBatchItem := { value := "12".toList, tweak := none, reference := "a".toList }
    ∃ keyCache' result,
      FPEEncryptBatch plainFf1 ∅ none keyCache [] [] [] [item] keyCache' [result] ∧
      result.error = none ∧ result.value = "12".toList ∧ result.keyVersion = 3 ∧
      result.reference = "a".toList := by
  intro keyCache item
  obtain ⟨⟨⟨keyCache', results, hbatch⟩, hagree⟩, _⟩ :=
    fpe_batch_eq_single plainFf1 ∅ none keyCache [] [] [] [item]
  obtain ⟨result, _, hresult, hrest, rfl⟩ :=
    List.forall₂_cons_left_iff.mp (hagree keyCache' results hbatch)
  obtain rfl := List.forall₂_nil_left_iff.mp hrest
  have hvalue := hresult.value { key := List.replicate 16 0, version := 3 } "12".toList 3 rfl rfl
  exact ⟨keyCache', result, hbatch, (hresult.succeeds _ rfl).mpr ⟨_, rfl⟩, hvalue.1, hvalue.2,
    hresult.reference⟩

end GrpcVault.Tokenize
