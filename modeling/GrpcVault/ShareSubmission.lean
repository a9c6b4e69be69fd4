import GrpcVault.ThresholdUnseal
import GrpcVault.SealState

/-!
# Submitting shares

What the strings given to `Unseal` one after the other lead to. A string that decodes to
no bytes is accepted as a share like any other; if it is the first one in hand when the
threshold is reached, taking the index byte off it panics, and nothing else can
(`unseal_safe_iff`). The shares of an initialization open the vault as they should if its
parameters make sense, which nothing checks (`shares_usable_iff`).
-/

namespace GrpcVault.LockService

open GoText EventSystem

variable {s s' : LockService}

section Panics

/-- The loop of `bytesEqual` from index `i` on, with `n` rounds to go; `none` is an index
out of range. -/
def bytesEqualLoop (a b : Bytes) : ℕ → ℕ → Option Bool
  | _, 0 => some true
  | i, n + 1 =>
      match a[i]?, b[i]? with
      | some x, some y => if x ≠ y then some false else bytesEqualLoop a b (i + 1) n
      | _, _ => none

def bytesEqualChecked (a b : Bytes) : Option Bool :=
  if a.length ≠ b.length then some false else bytesEqualLoop a b 0 a.length

theorem bytesEqualLoop_eq {a b : Bytes} (hlength : a.length = b.length) {i n : ℕ}
    (hi : i + n = a.length) :
    bytesEqualLoop a b i n = some (decide (a.drop i = b.drop i)) := by
  induction n generalizing i with
  | zero =>
      have ha : a.drop i = [] := List.drop_eq_nil_of_le (by omega)
      have hb : b.drop i = [] := List.drop_eq_nil_of_le (by omega)
      simp [bytesEqualLoop, ha, hb]
  | succ n ih =>
      have hia : i < a.length := by omega
      have hib : i < b.length := by omega
      have hcons : a.drop i = b.drop i ↔ a[i] = b[i] ∧ a.drop (i + 1) = b.drop (i + 1) := by
        rw [List.drop_eq_getElem_cons hia, List.drop_eq_getElem_cons hib, List.cons.injEq]
      rw [bytesEqualLoop, List.getElem?_eq_getElem hia, List.getElem?_eq_getElem hib]
      by_cases hx : a[i] = b[i]
      · simp only [hx, ne_eq, not_true_eq_false, if_false, hcons, true_and]
        exact ih (by omega)
      · simp [hx, hcons]

theorem bytesEqualChecked_eq (a b : Bytes) : bytesEqualChecked a b = some (bytesEqual a b) := by
  unfold bytesEqualChecked
  by_cases hlength : a.length = b.length
  · rw [if_neg (not_not.mpr hlength), bytesEqualLoop_eq hlength (by omega)]
    rw [Option.some.injEq, Bool.eq_iff_iff, bytesEqual_eq_true, decide_eq_true_iff]
    simp
  · rw [if_pos hlength, bytesEqual, if_pos hlength]

/-- With this string the threshold is reached, and the first of the accumulated shares has
no bytes. -/
def CompletesEmpty (s : LockService) (keyShare : Str) : Prop :=
  s.initialized = true ∧ s.sealed = true ∧ ∃ keyBytes,
    Base64.decodeString keyShare = some keyBytes ∧
      s.threshold ≤ (s.unsealKeys ++ [keyBytes]).length ∧
      (s.unsealKeys ++ [keyBytes]).head? = some []

theorem reconstruct_eq_none_iff {unsealKeys : List Bytes} :
    s.reconstruct unsealKeys = none ↔ unsealKeys.head? = some [] := by
  cases unsealKeys with
  | nil => simp [reconstruct, shamirCombine]
  | cons share rest =>
      cases share with
      | nil => simp [reconstruct, shamirCombine]
      | cons index secret =>
          simp only [reconstruct, shamirCombine]
          split <;> simp

theorem unsealVault_of_decodes {keyShare : Str} {keyBytes : Bytes} (hi : s.initialized = true)
    (hs : s.sealed = true) (hd : Base64.decodeString keyShare = some keyBytes) :
    s.unsealVault keyShare =
      if s.threshold ≤ (s.unsealKeys ++ [keyBytes]).length then
        s.reconstruct (s.unsealKeys ++ [keyBytes])
      else some ({ s with unsealKeys := s.unsealKeys ++ [keyBytes] },
        (false, (s.unsealKeys ++ [keyBytes]).length, none)) := by
  rw [unsealVault, if_neg (by simp [hi]), if_neg (by simp [hs])]
  simp only [hd]

/-- The one way for a call to panic. -/
theorem unsealVault_eq_none_iff {keyShare : Str} :
    step s (.unsealVault keyShare) = none ↔ s.CompletesEmpty keyShare := by
  rw [step, Option.map_eq_none_iff]
  cases hi : s.initialized with
  | false => simp [unsealVault, CompletesEmpty, hi]
  | true =>
      cases hs : s.sealed with
      | false => simp [unsealVault, CompletesEmpty, hi, hs]
      | true =>
          cases hd : Base64.decodeString keyShare with
          | none => simp [unsealVault, CompletesEmpty, hi, hs, hd]
          | some keyBytes =>
              rw [unsealVault_of_decodes hi hs hd]
              split
              · rename_i ht
                simp only [reconstruct_eq_none_iff, CompletesEmpty, hi, hs, hd, Option.some.injEq,
                  exists_eq_left', ht, true_and]
              · rename_i ht
                simp only [reduceCtorEq, CompletesEmpty, hi, hs, hd, Option.some.injEq,
                  exists_eq_left', ht, false_and, and_false]

theorem unsealVault_reply {keyShare : Str} {r : LockReply} (hi : s.initialized = true)
    (hs : s.sealed = true) (h : step s (.unsealVault keyShare) = some (s', r))
    (hc : ∀ keyBytes, ¬ s.Completes keyShare keyBytes) :
    (∃ n, r = .unsealVault (false, n, some .invalidKey)) ∨
      r = .unsealVault (false, s'.unsealKeys.length, none) := by
  obtain ⟨⟨t, q⟩, ht, he⟩ := Option.map_eq_some_iff.mp h
  cases he
  cases hd : Base64.decodeString keyShare with
  | none =>
      simp only [unsealVault, hi, hs, hd, Bool.not_true, Bool.false_eq_true, if_false,
        Option.some.injEq, Prod.mk.injEq] at ht
      exact .inl ⟨_, by rw [← ht.2]⟩
  | some keyBytes =>
      rw [unsealVault_of_decodes hi hs hd] at ht
      split at ht
      · rename_i hle
        obtain ⟨hcarries, _, _⟩ | ⟨_, _, rfl⟩ := reconstruct_cases ht
        · exact absurd ⟨hi, hs, hd, hle, hcarries⟩ (hc keyBytes)
        · exact .inl ⟨0, rfl⟩
      · cases ht
        exact .inr rfl

/-- The calls with these strings, one after the other, all return, and each that does not
complete a proper reconstruction returns the error for it or the number of shares in hand. -/
structure UnsealSafe (s : LockService) (keyShares : List Str) : Prop where
  returns : ∃ s', Handles step s (keyShares.map .unsealVault) s'
  replies : ∀ before keyShare after m m' r, keyShares = before ++ keyShare :: after →
    Handles step s (before.map .unsealVault) m → step m (.unsealVault keyShare) = some (m', r) →
    m.sealed = true → (∀ keyBytes, ¬ m.Completes keyShare keyBytes) →
    (∃ n, r = .unsealVault (false, n, some .invalidKey)) ∨
      r = .unsealVault (false, m'.unsealKeys.length, none)

theorem handles_returns_iff (keyShares : List Str) :
    (∃ s', Handles step s (keyShares.map .unsealVault) s') ↔
      ∀ before keyShare after m, keyShares = before ++ keyShare :: after →
        Handles step s (before.map .unsealVault) m → ¬ m.CompletesEmpty keyShare := by
  rw [exists_handles_iff]
  constructor
  · rintro h before keyShare after m rfl hm hempty
    exact h (before.map .unsealVault) (.unsealVault keyShare) (after.map .unsealVault) m
      (by simp) hm (unsealVault_eq_none_iff.mpr hempty)
  · intro h es₁ op es₂ m hes hm hnone
    obtain ⟨before, rest, rfl, rfl, hrest⟩ := List.map_eq_append_iff.mp hes
    obtain ⟨keyShare, after, rfl, rfl, rfl⟩ := List.map_eq_cons_iff.mp hrest
    exact h before keyShare after m rfl hm (unsealVault_eq_none_iff.mp hnone)

/-- Strings of any kind are safe to submit unless a call reaches the threshold with an empty
share as the first in hand; the comparison of the keys never runs out of range. -/
theorem unseal_safe_iff (hi : s.initialized = true) (keyShares : List Str) :
    (∀ a b, bytesEqualChecked a b = some (bytesEqual a b)) ∧
    (s.UnsealSafe keyShares ↔
      ∀ before keyShare after m, keyShares = before ++ keyShare :: after →
        Handles step s (before.map .unsealVault) m → ¬ m.CompletesEmpty keyShare) := by
  refine ⟨bytesEqualChecked_eq, ?_⟩
  rw [← handles_returns_iff]
  constructor
  · exact fun h => h.returns
  · intro h
    refine ⟨h, ?_⟩
    intro before keyShare after m m' r _ hm hstep hs hc
    obtain ⟨tr, hrun⟩ := hm.run
    exact unsealVault_reply (run_setup hrun hi).initialized hs hstep hc

theorem unseal_safe_garbage : ∃ tr s, Run step (newLockService 1) tr s ∧ s.initialized = true ∧
    s.sealed = true ∧ s.UnsealSafe ["!".toList] := by
  have h : ∃ r₁ r₂ s, Run step (newLockService 1)
      [(.initializeVault 1 1 ⟨zeroRead, zeroRead, zeroRead⟩, r₁), (.sealVault, r₂)] s ∧
      s.initialized = true ∧ s.sealed = true :=
    ⟨_, _, _, ⟨_, rfl, _, rfl, rfl⟩, rfl, rfl⟩
  obtain ⟨r₁, r₂, s, hrun, hi, hs⟩ := h
  refine ⟨_, s, hrun, hi, hs, (unseal_safe_iff hi _).2.mpr ?_⟩
  intro before keyShare after m hsplit hm hempty
  obtain ⟨_, _, keyBytes, hd, _⟩ := hempty
  rcases before with _ | ⟨x, before⟩
  · cases hsplit
    cases hd
  · simp at hsplit

/-- After `Initialize(1, 1)` and `Seal`, the empty string ends the process. -/
theorem unseal_empty_share_panics : ∃ r₁ r₂ s, Run step (newLockService 1)
    [(.initializeVault 1 1 ⟨zeroRead, zeroRead, zeroRead⟩, r₁), (.sealVault, r₂)] s ∧
    s.initialized = true ∧ s.sealed = true ∧ step s (.unsealVault []) = none :=
  ⟨_, _, _, ⟨_, rfl, _, rfl, rfl⟩, rfl, rfl, rfl⟩

end Panics

section Usable

theorem shamirSplit_eq_some {secret : Bytes} {shares threshold : ℤ} {shamirKeys : List Bytes} :
    shamirSplit secret shares threshold = some shamirKeys ↔
      0 ≤ shares ∧
        shamirKeys = (List.range shares.toNat).map fun i => UInt8.ofNat (i + 1) :: secret := by
  unfold shamirSplit
  split
  · rename_i h
    simp [not_le.mpr h]
  · rename_i h
    simp [not_lt.mp h, eq_comm]

/-- The index byte tells 256 shares apart. -/
theorem nodup_indexed_iff (secret : Bytes) (n : ℕ) :
    ((List.range n).map fun i => UInt8.ofNat (i + 1) :: secret).Nodup ↔ n ≤ 256 := by
  constructor
  · intro h
    by_contra hn
    have hinj := List.inj_on_of_nodup_map h (List.mem_range.mpr (show 0 < n by omega))
      (List.mem_range.mpr (show 256 < n by omega)) rfl
    omega
  · intro hn
    refine List.nodup_range.map_on ?_
    intro i hi j hj hij
    rw [List.mem_range] at hi hj
    have hbyte : (UInt8.ofNat (i + 1)).toNat = (UInt8.ofNat (j + 1)).toNat :=
      congrArg UInt8.toNat (List.cons.inj hij).1
    rw [UInt8.toNat_ofNat', UInt8.toNat_ofNat'] at hbyte
    omega

theorem encodeToString_injective : Function.Injective Base64.encodeToString := by
  intro a b h
  have hd := congrArg Base64.decodeString h
  rw [Base64.decodeString_encodeToString, Base64.decodeString_encodeToString] at hd
  exact Option.some.inj hd

theorem step_unsealVault_below {keyShare : Str} {keyBytes : Bytes} (hi : s.initialized = true)
    (hs : s.sealed = true) (hd : Base64.decodeString keyShare = some keyBytes)
    (ht : ((s.unsealKeys ++ [keyBytes]).length : ℤ) < s.threshold) :
    step s (.unsealVault keyShare) = some ({ s with unsealKeys := s.unsealKeys ++ [keyBytes] },
      .unsealVault (false, (s.unsealKeys ++ [keyBytes]).length, none)) := by
  rw [step, unsealVault_of_decodes hi hs hd, if_neg (not_le.mpr ht)]
  rfl

theorem handles_below (hi : s.initialized = true) (hs : s.sealed = true) {shares : List Bytes}
    (ht : ((s.unsealKeys ++ shares).length : ℤ) < s.threshold) :
    Handles step s ((shares.map Base64.encodeToString).map .unsealVault)
      { s with unsealKeys := s.unsealKeys ++ shares } := by
  induction shares using List.reverseRecOn with
  | nil => simp [Handles]
  | append_singleton shares share ih =>
      rw [← List.append_assoc] at ht ⊢
      have hbefore : ((s.unsealKeys ++ shares).length : ℤ) < s.threshold := by
        rw [List.length_append, List.length_singleton] at ht
        omega
      simp only [List.map_append, List.map_cons, List.map_nil]
      exact handles_snoc.mpr ⟨_, _, ih hbefore, step_unsealVault_below
        (s := { s with unsealKeys := s.unsealKeys ++ shares }) hi hs
        (Base64.decodeString_encodeToString share) ht⟩

theorem handles_opens (hi : s.initialized = true) (hs : s.sealed = true)
    (hnone : s.unsealKeys = []) (hpos : 1 ≤ s.threshold) {shares : List Bytes}
    (hcarry : ∀ share ∈ shares, ∃ index, share = index :: s.masterKey)
    (hlength : (shares.length : ℤ) = s.threshold) :
    ∃ s', Handles step s ((shares.map Base64.encodeToString).map .unsealVault) s' ∧
      s'.sealed = false := by
  have hcarries : s.Carries shares := by
    cases shares with
    | nil =>
        rw [List.length_nil] at hlength
        omega
    | cons share rest =>
        obtain ⟨index, rfl⟩ := hcarry share List.mem_cons_self
        exact ⟨index, rest, rfl⟩
  obtain rfl | ⟨before, last, rfl⟩ := shares.eq_nil_or_concat'
  · obtain ⟨_, _, h⟩ := hcarries
    cases h
  · have hbelow : ((s.unsealKeys ++ before).length : ℤ) < s.threshold := by
      rw [← hlength, hnone, List.nil_append, List.length_append, List.length_singleton]
      omega
    have hcompletes : Completes { s with unsealKeys := s.unsealKeys ++ before }
        (Base64.encodeToString last) last := by
      refine ⟨hi, hs, Base64.decodeString_encodeToString last, ?_, ?_⟩
      · rw [hnone, List.nil_append]
        exact hlength.ge
      · rw [hnone, List.nil_append]
        exact hcarries
    simp only [List.map_append, List.map_cons, List.map_nil]
    exact ⟨_, handles_snoc.mpr ⟨_, _, handles_below hi hs hbelow,
      unsealVault_of_completes hcompletes⟩, rfl⟩

theorem exists_shares {shamirKeys : List Bytes} {chosen : List Str}
    (h : ∀ key ∈ chosen, key ∈ shamirKeys.map Base64.encodeToString) :
    ∃ shares : List Bytes, chosen = shares.map Base64.encodeToString ∧
      ∀ share ∈ shares, share ∈ shamirKeys := by
  induction chosen with
  | nil => exact ⟨[], rfl, by simp⟩
  | cons key chosen ih =>
      obtain ⟨hkey, hrest⟩ := List.forall_mem_cons.mp h
      obtain ⟨share, hshare, rfl⟩ := List.mem_map.mp hkey
      obtain ⟨shares, rfl, hshares⟩ := ih hrest
      exact ⟨share :: shares, rfl, List.forall_mem_cons.mpr ⟨hshare, hshares⟩⟩

/-- The strings of an initialization are as many as asked for and all different, and any
`threshold` of them open the vault again, the last one and not before. -/
structure Usable (s : LockService) (shares threshold : ℤ) (keys : List Str) : Prop where
  positive : 1 ≤ threshold
  enough : threshold ≤ shares
  count : (keys.length : ℤ) = shares
  distinct : keys.Nodup
  opens : ∀ tr m, Run step s tr m → m.sealed = true → m.unsealKeys = [] →
    ∀ chosen : List Str, chosen.Nodup → (∀ key ∈ chosen, key ∈ keys) →
      (chosen.length : ℤ) = threshold →
      (∃ m', Handles step m (chosen.map .unsealVault) m' ∧ m'.sealed = false) ∧
      ∀ before after m', chosen = before ++ after → after ≠ [] →
        Handles step m (before.map .unsealVault) m' → m'.sealed = true

theorem initializeVault_eq_ok {shares threshold : ℤ} {rand : InitRand} {keys : List Str}
    {rootToken : Str}
    (h : step s (.initializeVault shares threshold rand) =
      some (s', .initializeVault (.ok (keys, rootToken)))) :
    0 ≤ shares ∧ s'.initialized = true ∧ s'.threshold = threshold ∧
      keys = ((List.range shares.toNat).map fun i => UInt8.ofNat (i + 1) :: s'.masterKey).map
        Base64.encodeToString := by
  cases step_effect h with
  | keep _ hr => cases hr
  | initialized _ _ _ hsplit =>
      obtain ⟨hshares, rfl⟩ := shamirSplit_eq_some.mp hsplit
      exact ⟨hshares, rfl, rfl, rfl⟩

/-- The strings are usable for parameters that make sense and at most 256 shares. -/
theorem shares_usable_iff {shares threshold : ℤ} {rand : InitRand} {keys : List Str}
    {rootToken : Str}
    (h : step s (.initializeVault shares threshold rand) =
      some (s', .initializeVault (.ok (keys, rootToken)))) :
    s'.Usable shares threshold keys ↔ 1 ≤ threshold ∧ threshold ≤ shares ∧ shares ≤ 256 := by
  obtain ⟨hshares, hi, hthreshold, hkeys⟩ := initializeVault_eq_ok h
  have hnodup : keys.Nodup ↔ shares ≤ 256 := by
    rw [hkeys, List.nodup_map_iff encodeToString_injective, nodup_indexed_iff]
    omega
  constructor
  · intro hu
    exact ⟨hu.positive, hu.enough, hnodup.mp hu.distinct⟩
  · rintro ⟨hpos, hle, hbyte⟩
    refine ⟨hpos, hle, ?_, hnodup.mpr hbyte, ?_⟩
    · rw [hkeys]
      simp [hshares]
    · intro tr m hrun hsealed hnone chosen _ hmem hlength
      have hsetup := run_setup hrun hi
      rw [hkeys] at hmem
      obtain ⟨picked, rfl, hpicked⟩ := exists_shares hmem
      have hcarry : ∀ share ∈ picked, ∃ index, share = index :: m.masterKey := by
        intro share hshare
        obtain ⟨i, _, rfl⟩ := List.mem_map.mp (hpicked share hshare)
        exact ⟨_, by rw [hsetup.masterKey]⟩
      have hcount : (picked.length : ℤ) = m.threshold := by
        rw [hsetup.threshold, hthreshold, ← hlength, List.length_map]
      refine ⟨handles_opens hsetup.initialized hsealed hnone ?_ hcarry hcount, ?_⟩
      · rw [hsetup.threshold, hthreshold]
        exact hpos
      · intro before after m' hchosen hafter hbefore
        obtain ⟨picked₁, picked₂, rfl, rfl, rfl⟩ := List.map_eq_append_iff.mp hchosen
        have hbelow : ((m.unsealKeys ++ picked₁).length : ℤ) < m.threshold := by
          have hpos₂ : 0 < picked₂.length :=
            List.length_pos_iff.mpr fun hnil => hafter (by rw [hnil, List.map_nil])
          rw [← hcount, hnone, List.nil_append, List.length_append]
          omega
        rw [hbefore.unique (handles_below hsetup.initialized hsealed hbelow)]
        exact hsealed

theorem shares_usable_two : ∃ s' keys rootToken,
    step (newLockService 0) (.initializeVault 3 2 ⟨zeroRead, zeroRead, zeroRead⟩) =
      some (s', .initializeVault (.ok (keys, rootToken))) ∧ s'.Usable 3 2 keys := by
  have h : ∃ s' keys rootToken,
      step (newLockService 0) (.initializeVault 3 2 ⟨zeroRead, zeroRead, zeroRead⟩) =
        some (s', .initializeVault (.ok (keys, rootToken))) := ⟨_, _, _, rfl⟩
  obtain ⟨s', keys, rootToken, h⟩ := h
  exact ⟨s', keys, rootToken, h, (shares_usable_iff h).mpr (by decide)⟩

/-- One share for a threshold of two is handed out without an error. -/
theorem too_few_shares_issued : ∃ s' keys rootToken,
    step (newLockService 0) (.initializeVault 1 2 ⟨zeroRead, zeroRead, zeroRead⟩) =
      some (s', .initializeVault (.ok (keys, rootToken))) ∧
      s'.threshold = 2 ∧ keys = [zeroShare] :=
  ⟨_, _, _, rfl, rfl, rfl⟩

end Usable

end GrpcVault.LockService
