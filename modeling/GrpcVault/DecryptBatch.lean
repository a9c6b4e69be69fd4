import GrpcVault.DecryptBinding
import GrpcVault.Lib.CachedBatch

/-!
# Batches of decryptions

`DecryptBatch` hands its items to the worker pool, where they run as calls of `Decrypt` over
the one key cache. An item can be decrypted with a key that the cache held for it, that the
lock service hands out for it, or that another item has left in the cache. The last is what
makes the result depend on the schedule: texts that name version 0 or a negative one share
the entry of the key's name, whatever the lock service answers to each.
-/

namespace GrpcVault

open GoText EventSystem CachedBatch

structure BatchDecryptItem where
  ciphertext : Str
  context : Bytes
  reference : Str

structure DecryptResult where
  plaintext : Bytes := []
  keyVersion : ℤ := 0
  reference : Str := []
  error : Option CryptoError := none
  deriving DecidableEq

namespace CryptoService

def decryptResult (item : BatchDecryptItem) : Except CryptoError (Bytes × ℤ) → DecryptResult
  | .error e => { reference := item.reference, error := some e }
  | .ok (plaintext, keyVersion) => { plaintext, keyVersion, reference := item.reference }

/-- The version that the item asks for, if its text can be read. -/
def itemVersion (item : BatchDecryptItem) : Option ℤ :=
  (Aes.parseCiphertext item.ciphertext).toOption.map Prod.fst

def handedOut (t : LockService) (keyName : Str) (version : ℤ) : Option KeyInfo :=
  (lockClient t { name := keyName, version := int32 version }).map .ofResponse

/-- The items as they share the cache. Its bound shows as evictions of `evictable` entries;
there are none while there is room. -/
def decryptBatch (t : LockService) (keyName : Str) (items : List BatchDecryptItem)
    (evictable : Str → Bool) : Batch (Fin items.length) ℤ Str KeyInfo where
  request i := itemVersion (items.get i)
  keyOf := cacheKey keyName
  fetch := handedOut t keyName
  evictable := evictable

variable (g : Aes.Gcm)

def decryptAnswered (item : BatchDecryptItem) (answer : Option KeyInfo) :
    Except CryptoError (Bytes × ℤ) :=
  match Aes.parseCiphertext item.ciphertext with
  | .error e => .error (.aes e)
  | .ok _ =>
      match answer with
      | none => .error .keyNotFound
      | some keyInfo => decryptWith g keyInfo item.ciphertext item.context

/-- The list that `DecryptBatch` returns once all items are finished. -/
def batchResults (items : List BatchDecryptItem)
    (s : CachedBatch.State (Fin items.length) Str KeyInfo) : List DecryptResult :=
  List.ofFn fun i =>
    match s.items i with
    | .finished answer => decryptResult (items.get i) (decryptAnswered g (items.get i) answer)
    | _ => {}

def decryptAlone (t : LockService) (cache : KeyCache) (keyName : Str) (item : BatchDecryptItem) :
    DecryptResult :=
  decryptResult item (decrypt g (some (lockClient t)) cache keyName item.ciphertext item.context).2

variable {g} {t : LockService} {cache : KeyCache} {keyName : Str} {items : List BatchDecryptItem}
  {evictable : Str → Bool}

theorem itemVersion_eq_some {item : BatchDecryptItem} {version : ℤ} :
    itemVersion item = some version ↔
      ∃ encoded, Aes.parseCiphertext item.ciphertext = .ok (version, encoded) := by
  unfold itemVersion
  cases Aes.parseCiphertext item.ciphertext with
  | error e => simp [Except.toOption]
  | ok parsed => simp [Except.toOption, Prod.ext_iff]

theorem decrypt_eq_answered {item : BatchDecryptItem} {answer : Option KeyInfo}
    (h : ∀ version, itemVersion item = some version →
      (getKey (some (lockClient t)) cache keyName version).2 =
        answer.elim (.error .keyNotFound) .ok) :
    (decrypt g (some (lockClient t)) cache keyName item.ciphertext item.context).2 =
      decryptAnswered g item answer := by
  cases hparse : Aes.parseCiphertext item.ciphertext with
  | error e => simp [decrypt, decryptAnswered, hparse]
  | ok parsed =>
      have hget := h parsed.1 (itemVersion_eq_some.mpr ⟨parsed.2, hparse⟩)
      simp only [decrypt, decryptAnswered, hparse]
      cases hkey : getKey (some (lockClient t)) cache keyName parsed.1 with
      | mk cache' result =>
          rw [hkey] at hget
          cases answer with
          | none =>
              obtain rfl : result = .error .keyNotFound := hget
              rfl
          | some v =>
              obtain rfl : result = .ok v := hget
              rfl

theorem getKey_handedOut (version : ℤ) :
    (getKey (some (lockClient t)) cache keyName version).2 =
      ((cache (cacheKey keyName version)).or (handedOut t keyName version)).elim
        (.error .keyNotFound) .ok := by
  cases hcache : cache (cacheKey keyName version) with
  | some v => simp [getKey, hcache]
  | none =>
      cases hclient : lockClient t { name := keyName, version := int32 version } with
      | none => simp [getKey, handedOut, hcache, hclient]
      | some resp => simp [getKey, handedOut, hcache, hclient]

theorem decryptAlone_eq (evictable : Str → Bool) (i : Fin items.length) :
    decryptAlone g t cache keyName (items.get i) = decryptResult (items.get i)
      (decryptAnswered g (items.get i)
        ((decryptBatch t keyName items evictable).alone cache i).2) := by
  unfold decryptAlone
  congr 1
  apply decrypt_eq_answered
  intro version hversion
  have hrequest : (decryptBatch t keyName items evictable).request i = some version := hversion
  rw [getKey_handedOut]
  congr 1
  cases hcache : cache (cacheKey keyName version) with
  | some v => exact (Batch.alone_of_hit hrequest hcache).symm
  | none => exact (Batch.alone_of_miss hrequest hcache).symm

variable (g t cache keyName items evictable) in
/-- Every schedule of the batch gives the same list, which has for each item what `Decrypt`
returns for it alone. -/
structure ScheduleFree : Prop where
  same : ∀ tr s tr' s',
    Run (decryptBatch t keyName items evictable).step (.init _ cache) tr s → s.Complete →
    Run (decryptBatch t keyName items evictable).step (.init _ cache) tr' s' → s'.Complete →
    batchResults g items s = batchResults g items s'
  alone : ∀ tr s,
    Run (decryptBatch t keyName items evictable).step (.init _ cache) tr s → s.Complete →
    batchResults g items s = items.map (decryptAlone g t cache keyName)

theorem batchResults_finished {s : CachedBatch.State (Fin items.length) Str KeyInfo}
    {i : Fin items.length} {answer : Option KeyInfo} (hi : s.items i = .finished answer) :
    (batchResults g items s)[i.val]? =
      some (decryptResult (items.get i) (decryptAnswered g (items.get i) answer)) := by
  simp [batchResults, hi]

theorem scheduleFree_iff : ScheduleFree g t cache keyName items evictable ↔
    ∀ i answer, (decryptBatch t keyName items evictable).Obtains cache i answer →
      decryptResult (items.get i) (decryptAnswered g (items.get i) answer) =
        decryptAlone g t cache keyName (items.get i) := by
  rw [← Batch.answers_iff]
  constructor
  · intro h tr s hrun hcomplete i answer hi
    have hresult := batchResults_finished (g := g) hi
    rw [h.alone tr s hrun hcomplete] at hresult
    simpa using hresult.symm
  · intro h
    have halone : ∀ tr s,
        Run (decryptBatch t keyName items evictable).step (.init _ cache) tr s → s.Complete →
        batchResults g items s = items.map (decryptAlone g t cache keyName) := by
      intro tr s hrun hcomplete
      refine List.ext_getElem? fun n => ?_
      rcases lt_or_ge n items.length with hlt | hge
      · obtain ⟨answer, hi⟩ := hcomplete ⟨n, hlt⟩
        have hresult := h tr s hrun hcomplete ⟨n, hlt⟩ answer hi
        rw [batchResults_finished hi, hresult]
        simp [hlt]
      · rw [List.getElem?_eq_none (by simpa [batchResults] using hge),
          List.getElem?_eq_none (by simpa using hge)]
    refine ⟨fun tr s tr' s' hrun hcomplete hrun' hcomplete' => ?_, halone⟩
    rw [halone tr s hrun hcomplete, halone tr' s' hrun' hcomplete']

/-- Where the cache has room and no text names version 0 or less, nothing depends on the
schedule. -/
theorem schedule_free_of_positive (hroom : ∀ key, evictable key = false)
    (hpos : ∀ item ∈ items, ∀ version, itemVersion item = some version → 0 < version) :
    ScheduleFree g t cache keyName items evictable := by
  rw [scheduleFree_iff]
  intro i answer hobtains
  rw [decryptAlone_eq evictable]
  have habsent : ∀ {key}, (decryptBatch t keyName items evictable).Missing cache key →
      cache key = none := fun hm => hm.resolve_right (by simp [decryptBatch, hroom])
  cases hobtains with
  | unasked hnone => simp [Batch.alone, hnone]
  | held hversion hcache => rw [Batch.alone_of_hit hversion hcache]
  | own hversion hmiss => rw [Batch.alone_of_miss hversion (habsent hmiss)]
  | @other version j version' keyInfo hversion hmiss hversion' hkey hout =>
      have hlt := hpos _ (List.get_mem items i) _ hversion
      have hlt' := hpos _ (List.get_mem items j) _ hversion'
      obtain rfl : version' = version := (cacheKey_pos_inj hlt' hlt hkey).2
      rw [Batch.alone_of_miss hversion (habsent hmiss), hout]

/-- The entry for the version is missing at the start, or can go missing. -/
def CanMiss (cache : KeyCache) (evictable : Str → Bool) (keyName : Str) (version : ℤ) : Prop :=
  cache (cacheKey keyName version) = none ∨ evictable (cacheKey keyName version) = true

/-- The result of a batch does not depend on the schedule if and only if, wherever an item can
find no entry in the cache, what the lock service answers to it, and every key that the lock
service hands out to an item with the same entry, makes of it what it is alone. -/
theorem decrypt_batch_schedule_free_iff (g : Aes.Gcm) (t : LockService) (cache : KeyCache)
    (keyName : Str) (items : List BatchDecryptItem) (evictable : Str → Bool) :
    ScheduleFree g t cache keyName items evictable ↔
      ∀ item ∈ items, ∀ version, itemVersion item = some version →
        CanMiss cache evictable keyName version →
        decryptResult item (decryptAnswered g item (handedOut t keyName version)) =
          decryptAlone g t cache keyName item ∧
        ∀ item' ∈ items, ∀ version', itemVersion item' = some version' →
          cacheKey keyName version' = cacheKey keyName version →
          ∀ keyInfo, handedOut t keyName version' = some keyInfo →
            decryptResult item (decryptAnswered g item (some keyInfo)) =
              decryptAlone g t cache keyName item := by
  rw [scheduleFree_iff]
  constructor
  · intro h item hitem version hversion hmiss
    obtain ⟨i, rfl⟩ := List.get_of_mem hitem
    refine ⟨h i _ (.own hversion hmiss), fun item' hitem' version' hversion' hkey keyInfo hout => ?_⟩
    obtain ⟨j, rfl⟩ := List.get_of_mem hitem'
    exact h i _ (.other hversion hmiss hversion' hkey hout)
  · intro h i answer hobtains
    cases hobtains with
    | unasked hnone =>
        rw [decryptAlone_eq evictable]
        simp [Batch.alone, hnone]
    | held hversion hcache =>
        rw [decryptAlone_eq evictable, Batch.alone_of_hit hversion hcache]
    | own hversion hmiss => exact (h _ (List.get_mem items i) _ hversion hmiss).1
    | @other version j version' keyInfo hversion hmiss hversion' hkey hout =>
        exact (h _ (List.get_mem items i) _ hversion hmiss).2 _ (List.get_mem items j) _ hversion'
          hkey keyInfo hout

def oneItem (version : ℤ) : BatchDecryptItem :=
  { ciphertext := Aes.envelope version onePayload, context := [], reference := itoa version }

theorem itemVersion_oneItem {version : ℤ} (hlo : -2 ^ 63 ≤ version) (hhi : version < 2 ^ 63) :
    itemVersion (oneItem version) = some version :=
  itemVersion_eq_some.mpr ⟨onePayload, parse_onePayload hlo hhi⟩

theorem decryptAnswered_oneItem {version : ℤ} {v : KeyInfo} (hlo : -2 ^ 63 ≤ version)
    (hhi : version < 2 ^ 63) (hv : v.key = List.replicate 32 0) :
    decryptAnswered tagGcm (oneItem version) (some v) = .ok ([1], version) := by
  have hget : getKey none (fun _ => some v) ['k'] version = (fun _ => some v, .ok v) := rfl
  have hdec := decrypt_onePayload hlo hhi hv hget
  rw [decrypt_eq_decryptWith (parse_onePayload hlo hhi) hget] at hdec
  simp only [decryptAnswered, oneItem, parse_onePayload hlo hhi]
  exact hdec

/-- A text that names version -1 is refused, or decrypted with the latest version that a text
with version 0 has left in the cache, depending on which runs first. -/
theorem decrypt_batch_depends_on_order : ∃ (tr : CryptoTrace) (s : CryptoState),
    Run cryptoService.step (CryptoState.start 1) tr s ∧
    ∃ tr₁ s₁ tr₂ s₂,
      Run (decryptBatch s.store ['k'] [oneItem 0, oneItem (-1)] fun _ => false).step
        (.init _ s.cache) tr₁ s₁ ∧ s₁.Complete ∧
      Run (decryptBatch s.store ['k'] [oneItem 0, oneItem (-1)] fun _ => false).step
        (.init _ s.cache) tr₂ s₂ ∧ s₂.Complete ∧
      (batchResults tagGcm [oneItem 0, oneItem (-1)] s₁)[1]? =
        some { reference := itoa (-1), error := some .keyNotFound } ∧
      (batchResults tagGcm [oneItem 0, oneItem (-1)] s₂)[1]? =
        some { plaintext := [1], keyVersion := -1, reference := itoa (-1) } := by
  have hrun : ∃ (r₁ r₂ : LockReply) (s : CryptoState) (v : KeyInfo),
      Run cryptoService.step (CryptoState.start 1)
      [(.store (.initializeVault 1 1 ⟨zeroRead, zeroRead, zeroRead⟩), .store r₁),
        (.store (.createKey ['k'] .aes256GCM zeroRead 0), .store r₂)] s ∧
      s.cache = (fun _ => none) ∧ handedOut s.store ['k'] (-1) = none ∧
      handedOut s.store ['k'] 0 = some v ∧ v.key = List.replicate 32 0 :=
    ⟨_, _, _, _, ⟨_, rfl, _, rfl, rfl⟩, rfl, rfl, rfl, rfl⟩
  obtain ⟨r₁, r₂, s, v, hrun, hcache, hbelow, hlatest, hv⟩ := hrun
  let b := decryptBatch s.store ['k'] [oneItem 0, oneItem (-1)] fun _ => false
  have hzero : itemVersion (oneItem 0) = some 0 :=
    itemVersion_oneItem (by norm_num) (by norm_num)
  have hminus : itemVersion (oneItem (-1)) = some (-1) :=
    itemVersion_oneItem (by norm_num) (by norm_num)
  have hrequest : b.request ⟨0, by simp⟩ = some 0 := hzero
  have hrequest' : b.request ⟨1, by simp⟩ = some (-1) := hminus
  have hmiss : b.Missing s.cache (b.keyOf (-1)) := .inl (by rw [hcache])
  have hfetch : b.fetch (-1) = none := hbelow
  have hfirst : b.Obtains s.cache ⟨1, by simp⟩ none := hfetch ▸ .own hrequest' hmiss
  have hsecond : b.Obtains s.cache ⟨1, by simp⟩ (some v) :=
    .other hrequest' hmiss hrequest rfl hlatest
  obtain ⟨tr₁, s₁, h₁, hc₁, hi₁⟩ := hfirst.exists_schedule
  obtain ⟨tr₂, s₂, h₂, hc₂, hi₂⟩ := hsecond.exists_schedule
  have hdec : decryptAnswered tagGcm (oneItem (-1)) (some v) = .ok ([1], -1) :=
    decryptAnswered_oneItem (by norm_num) (by norm_num) hv
  have hrefused : decryptAnswered tagGcm (oneItem (-1)) none = .error .keyNotFound := by
    obtain ⟨encoded, hparse⟩ := itemVersion_eq_some.mp hminus
    simp [decryptAnswered, hparse]
  have hres₁ : (batchResults tagGcm [oneItem 0, oneItem (-1)] s₁)[1]? =
      some (decryptResult (oneItem (-1)) (decryptAnswered tagGcm (oneItem (-1)) none)) :=
    batchResults_finished hi₁
  have hres₂ : (batchResults tagGcm [oneItem 0, oneItem (-1)] s₂)[1]? =
      some (decryptResult (oneItem (-1)) (decryptAnswered tagGcm (oneItem (-1)) (some v))) :=
    batchResults_finished hi₂
  rw [hrefused] at hres₁
  rw [hdec] at hres₂
  exact ⟨_, s, hrun, tr₁, s₁, tr₂, s₂, h₁, hc₁, h₂, hc₂, hres₁, hres₂⟩

end CryptoService
end GrpcVault
