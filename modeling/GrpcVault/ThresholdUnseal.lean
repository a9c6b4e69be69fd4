import GrpcVault.LockRuns

/-!
# Unsealing against the threshold

A history beside the service's state records the shares that `Initialize` handed
out and the strings submitted since the unseal progress was last empty, as an
observer of the calls sees them. The service counts the entries it has
accumulated and looks at the first one only. So an unsealing call has `threshold`
distinct issued shares behind it exactly if the accumulated shares are all
issued ones and no two of them are equal, or if the threshold is not positive.
-/

namespace GrpcVault.LockService

open GoText EventSystem

structure History where
  issued : List Str
  submitted : List Str

def History.empty : History := { issued := [], submitted := [] }

/-- What an observer of an operation in state `s` adds to the history. -/
def History.record (h : History) (s : LockService) (op : LockOp) (r : LockReply) : History where
  issued :=
    match r with
    | .initializeVault (.ok (keys, _)) => keys
    | _ => h.issued
  submitted :=
    (if s.unsealKeys = [] then [] else h.submitted) ++
      match op with
      | .unsealVault keyShare => [keyShare]
      | _ => []

def shareBytes (keyShares : List Str) : List Bytes := keyShares.filterMap Base64.decodeString

/-- The number of pairwise distinct issued shares among the submitted ones. -/
def History.distinctIssued (h : History) : ℕ :=
  ((shareBytes h.submitted).toFinset ∩ (shareBytes h.issued).toFinset).card

def trackedStep : Step (LockService × History) LockOp LockReply
  | (s, h), op => (step s op).map fun (s', r) => ((s', h.record s op r), r)

variable {s s' : LockService} {h h' : History}

theorem trackedStep_eq_some {op : LockOp} {r : LockReply} :
    trackedStep (s, h) op = some ((s', h'), r) ↔
      step s op = some (s', r) ∧ h' = h.record s op r := by
  simp only [trackedStep, Option.map_eq_some_iff, Prod.exists, Prod.mk.injEq]
  constructor
  · rintro ⟨t, q, ht, ⟨rfl, rfl⟩, rfl⟩
    exact ⟨ht, rfl⟩
  · rintro ⟨ht, rfl⟩
    exact ⟨s', r, ht, ⟨rfl, rfl⟩, rfl⟩

theorem shareBytes_append (a b : List Str) : shareBytes (a ++ b) = shareBytes a ++ shareBytes b :=
  List.filterMap_append

theorem shareBytes_map_encode (keys : List Bytes) :
    shareBytes (keys.map Base64.encodeToString) = keys := by
  induction keys with
  | nil => rfl
  | cons key keys ih =>
      rw [List.map_cons, shareBytes, List.filterMap_cons,
        Base64.decodeString_encodeToString]
      exact congrArg (key :: ·) ih

/-- The state agrees with what was observed. -/
structure Recorded (s : LockService) (h : History) : Prop where
  valid : s.Valid
  issued : s.initialized = true → shareBytes h.issued = s.shamirKeys
  submitted : s.unsealKeys ≠ [] → shareBytes h.submitted = s.unsealKeys

theorem recorded_new (threshold : ℤ) : Recorded (newLockService threshold) .empty where
  valid := valid_new threshold
  issued h := by cases h
  submitted h := absurd rfl h

theorem Recorded.before (hr : Recorded s h) :
    shareBytes (if s.unsealKeys = [] then [] else h.submitted) = s.unsealKeys := by
  split_ifs with hnil
  · exact hnil.symm
  · exact hr.submitted hnil

theorem Recorded.submit (hr : Recorded s h) {keyShare : Str} {keyBytes : Bytes}
    (hd : Base64.decodeString keyShare = some keyBytes) (r : LockReply) :
    shareBytes (h.record s (.unsealVault keyShare) r).submitted = s.unsealKeys ++ [keyBytes] := by
  simp only [History.record, shareBytes_append, hr.before]
  simp [shareBytes, hd]

theorem record_issued {op : LockOp} {r : LockReply}
    (hr : ∀ keys rootToken, r ≠ .initializeVault (.ok (keys, rootToken))) :
    (h.record s op r).issued = h.issued := by
  simp only [History.record]

theorem record_submitted {op : LockOp} (r : LockReply)
    (hop : ∀ keyShare, op ≠ .unsealVault keyShare) (hnil : s.unsealKeys ≠ []) :
    (h.record s op r).submitted = h.submitted := by
  simp only [History.record, if_neg hnil]
  exact List.append_nil _

theorem Effect.recorded {op : LockOp} {r : LockReply} (he : Effect s op r s')
    (hr : Recorded s h) : Recorded s' (h.record s op r) := by
  refine ⟨he.valid hr.valid, ?_, ?_⟩
  · cases he with
    | keep hop hw =>
        rw [record_issued (by intro keys rootToken hk; rw [hk] at hw; cases hw)]
        exact hr.issued
    | initialized => exact fun _ => shareBytes_map_encode _
    | ignored | share | refuse | unsealed | sealed | putSecret | deleteSecret | createKey
        | rotateKey => exact hr.issued
  · cases he with
    | keep hop hw =>
        intro hnil
        rw [record_submitted r hop hnil, hr.submitted hnil]
    | @ignored keyShare q hd =>
        intro hnil
        -- shares are pending only in a sealed vault, so the string did not decode
        have hi : s.initialized = true := by
          by_contra hi
          exact hnil (hr.valid.fresh (by simpa using hi))
        have hs : s.sealed = true := by
          by_contra hs
          exact hnil (hr.valid.opened (by simpa using hs)).2
        simp only [History.record, shareBytes_append, hr.before]
        simp [shareBytes, hd hi hs]
    | initialized hi hm hb hsplit => exact fun hnil => absurd (hr.valid.fresh hi) hnil
    | share hi hs hd ht => exact fun _ => hr.submit hd _
    | refuse | unsealed | sealed => exact fun hnil => absurd rfl hnil
    | putSecret hs | deleteSecret hs | createKey hs hk | rotateKey hs hk =>
        exact fun hnil => absurd (hr.valid.opened hs).2 hnil

theorem run_recorded {threshold : ℤ} {tr : List (LockOp × LockReply)}
    (hrun : Run trackedStep (newLockService threshold, .empty) tr (s, h)) : Recorded s h := by
  refine hrun.preserves (I := fun x => Recorded x.1 x.2) ?_ (recorded_new threshold)
  intro m op r m' hm hs
  obtain ⟨hs, hh⟩ := trackedStep_eq_some.mp hs
  rw [hh]
  exact (step_effect hs).recorded hm

def Opens (s : LockService) (op : LockOp) (s' : LockService) : Prop :=
  (∃ keyShare, op = .unsealVault keyShare) ∧ s.sealed = true ∧ s'.sealed = false

/-- With this string the accumulated shares are as many as the threshold asks for, and
the first of them carries the master key. -/
def Completes (s : LockService) (keyShare : Str) (keyBytes : Bytes) : Prop :=
  s.initialized = true ∧ s.sealed = true ∧ Base64.decodeString keyShare = some keyBytes ∧
    s.threshold ≤ (s.unsealKeys ++ [keyBytes]).length ∧ s.Carries (s.unsealKeys ++ [keyBytes])

/-- The accumulated shares are pairwise distinct issued ones, or none is asked for. -/
def ProperShares (s : LockService) (keyBytes : Bytes) : Prop :=
  s.threshold ≤ 0 ∨
    (s.unsealKeys ++ [keyBytes]).Nodup ∧ ∀ share ∈ s.unsealKeys ++ [keyBytes], share ∈ s.shamirKeys

theorem unsealVault_of_completes {keyShare : Str} {keyBytes : Bytes}
    (hc : s.Completes keyShare keyBytes) :
    step s (.unsealVault keyShare) = some ({ s with sealed := false, unsealKeys := [] },
      .unsealVault (true, s.threshold, none)) := by
  obtain ⟨hi, hs, hd, ht, index, rest, hshares⟩ := hc
  rw [step, unsealVault, if_neg (by simp [hi]), if_neg (by simp [hs])]
  rw [hshares] at ht
  simp only [hd, hshares, if_pos ht, reconstruct, shamirCombine, bytesEqual_eq_true.mpr rfl,
    Bool.not_true, Bool.false_eq_true, if_false, Option.map_some]

theorem completes_of_opens {op : LockOp} {r : LockReply} (hs : step s op = some (s', r))
    (ho : Opens s op s') :
    ∃ keyShare keyBytes, op = .unsealVault keyShare ∧ s.Completes keyShare keyBytes := by
  obtain ⟨⟨keyShare, rfl⟩, hsealed, hopen⟩ := ho
  cases step_effect hs with
  | unsealed hi _ hd ht hc => exact ⟨keyShare, _, rfl, hi, hsealed, hd, ht, hc⟩
  | keep hop => exact absurd rfl (hop keyShare)
  | ignored | share | refuse =>
      exact absurd hopen (by simp [hsealed])

/-- Counting: a list no longer than the bound has that many distinct members of a set
exactly if it repeats nothing and stays inside the set. -/
theorem le_card_inter_iff {α : Type} [DecidableEq α] {l : List α} {t : Finset α} {n : ℤ}
    (hn : n = l.length) : n ≤ (l.toFinset ∩ t).card ↔ l.Nodup ∧ ∀ a ∈ l, a ∈ t := by
  have hle : (l.toFinset ∩ t).card ≤ l.toFinset.card :=
    Finset.card_le_card Finset.inter_subset_left
  have hlen := List.toFinset_card_le l
  constructor
  · intro h
    have hnodup : l.Nodup := by
      rw [← Multiset.coe_nodup]
      apply Multiset.toFinset_card_eq_card_iff_nodup.mp
      change l.toFinset.card = l.length
      omega
    have heq : l.toFinset ∩ t = l.toFinset :=
      Finset.eq_of_subset_of_card_le Finset.inter_subset_left (by omega)
    refine ⟨hnodup, ?_⟩
    intro a ha
    exact Finset.mem_of_mem_inter_right (heq.symm ▸ List.mem_toFinset.mpr ha)
  · intro h
    have heq : l.toFinset ∩ t = l.toFinset :=
      Finset.inter_eq_left.mpr (fun a ha => h.2 a (List.mem_toFinset.mp ha))
    rw [heq, List.toFinset_card_of_nodup h.1, hn]

theorem distinctIssued_iff (hr : Recorded s h) {keyShare : Str} {keyBytes : Bytes}
    (hc : s.Completes keyShare keyBytes) (r : Bool × ℤ × Option LockError) :
    s.threshold ≤ (h.record s (.unsealVault keyShare) (.unsealVault r)).distinctIssued ↔
      s.ProperShares keyBytes := by
  obtain ⟨hi, hs, hd, ht, _⟩ := hc
  have hissued : shareBytes (h.record s (.unsealVault keyShare) (.unsealVault r)).issued =
      s.shamirKeys := hr.issued hi
  rw [History.distinctIssued, hr.submit hd, hissued, ProperShares]
  by_cases hpos : s.threshold ≤ 0
  · simp only [hpos, true_or, iff_true]
    omega
  · -- fewer shares than the threshold were pending, so now there are exactly as many
    have hlen : s.threshold = (s.unsealKeys ++ [keyBytes]).length := by
      have hp := hr.valid.pending
      simp only [List.length_append, List.length_singleton] at ht ⊢
      rcases hp with hnil | hlt
      · simp only [hnil, List.length_nil] at ht ⊢
        omega
      · omega
    rw [le_card_inter_iff hlen]
    simp only [hpos, false_or, List.mem_toFinset]

/-- In every run, the calls that open the vault all have `threshold` distinct issued
shares behind them exactly if every call that completes the accumulated shares does so
with pairwise distinct issued ones. -/
theorem unseal_threshold_iff {threshold : ℤ} {tr : List (LockOp × LockReply)}
    {last : LockService × History}
    (hrun : Run trackedStep (newLockService threshold, .empty) tr last) :
    (∀ tr₁ tr₂ op r s h s' h', tr = tr₁ ++ (op, r) :: tr₂ →
        Run trackedStep (newLockService threshold, .empty) tr₁ (s, h) →
        trackedStep (s, h) op = some ((s', h'), r) → Opens s op s' →
        s.threshold ≤ h'.distinctIssued) ↔
      ∀ tr₁ tr₂ keyShare keyBytes r s h, tr = tr₁ ++ (.unsealVault keyShare, r) :: tr₂ →
        Run trackedStep (newLockService threshold, .empty) tr₁ (s, h) →
        s.Completes keyShare keyBytes → s.ProperShares keyBytes := by
  constructor
  · intro hall tr₁ tr₂ keyShare keyBytes r s h htr hpre hc
    rw [htr] at hrun
    obtain ⟨m, m', hm, hstep, _⟩ := run_append_cons.mp hrun
    rw [hm.unique hpre] at hstep
    obtain ⟨hs, hh⟩ := trackedStep_eq_some.mp hstep
    have hreply := unsealVault_of_completes hc
    rw [hs] at hreply
    have hr : r = .unsealVault (true, s.threshold, none) := congrArg Prod.snd (Option.some.inj hreply)
    have hopen : m'.1.sealed = false := by
      rw [congrArg Prod.fst (Option.some.inj hreply)]
    have hge := hall tr₁ tr₂ _ r s h m'.1 m'.2 htr hpre hstep ⟨⟨keyShare, rfl⟩, hc.2.1, hopen⟩
    rw [hh, hr] at hge
    exact (distinctIssued_iff (run_recorded hpre) hc _).mp hge
  · intro hall tr₁ tr₂ op r s h s' h' htr hpre hstep ho
    obtain ⟨hs, rfl⟩ := trackedStep_eq_some.mp hstep
    obtain ⟨keyShare, keyBytes, rfl, hc⟩ := completes_of_opens hs ho
    have hreply := unsealVault_of_completes hc
    rw [hs] at hreply
    cases hreply
    exact (distinctIssued_iff (run_recorded hpre) hc _).mpr
      (hall tr₁ tr₂ keyShare keyBytes _ s h htr hpre hc)

/-- Both shares of a vault that asks for two, submitted once each. -/
theorem unseal_threshold_two_shares : ∃ tr s h s' h' r,
    Run trackedStep (newLockService 3, .empty) tr (s, h) ∧
      trackedStep (s, h) (.unsealVault zeroShare) = some ((s', h'), r) ∧
      Opens s (.unsealVault zeroShare) s' ∧ s.threshold ≤ h'.distinctIssued := by
  have hrun : ∃ r₁ r₂ r₃ r s₀ h₀ s h s' h', Run trackedStep (newLockService 3, .empty)
      [(.initializeVault 2 2 ⟨zeroRead, zeroRead, zeroRead⟩, r₁), (.sealVault, r₂)] (s₀, h₀) ∧
      s₀.threshold = 2 ∧ s₀.unsealKeys = [] ∧ Run trackedStep (newLockService 3, .empty)
      [(.initializeVault 2 2 ⟨zeroRead, zeroRead, zeroRead⟩, r₁), (.sealVault, r₂),
        (.unsealVault (Base64.encodeToString (2 :: List.replicate 32 0)), r₃)] (s, h) ∧
      trackedStep (s, h) (.unsealVault zeroShare) = some ((s', h'), r) ∧
      Opens s (.unsealVault zeroShare) s' ∧ s.unsealKeys = [2 :: List.replicate 32 0] ∧
      s.shamirKeys = [1 :: List.replicate 32 0, 2 :: List.replicate 32 0] :=
    ⟨_, _, _, _, _, _, _, _, _, _, ⟨_, rfl, _, rfl, rfl⟩, rfl, rfl, ⟨_, rfl, _, rfl, _, rfl, rfl⟩,
      rfl, ⟨⟨_, rfl⟩, rfl, rfl⟩, rfl, rfl⟩
  obtain ⟨r₁, r₂, r₃, r, s₀, h₀, s, h, s', h', hpre₀, ht₀, hu₀, hpre, hstep, ho, hu, hk⟩ := hrun
  refine ⟨_, s, h, s', h', r, hpre, hstep, ho, ?_⟩
  apply (unseal_threshold_iff (run_snoc.mpr ⟨_, hpre, hstep⟩)).mpr _ _ [] _ r s h s' h' rfl hpre
    hstep ho
  intro tr₁ tr₂ keyShare keyBytes q m g htr hm hc
  -- the last call is the only one with a share already pending
  rcases tr₁ with _ | ⟨x, _ | ⟨y, _ | ⟨z, _ | ⟨w, tr₁⟩⟩⟩⟩
  · cases htr
  · cases htr
  · cases htr
    cases hpre₀.unique hm
    have hle := hc.2.2.2.1
    rw [ht₀, hu₀] at hle
    simp at hle
  · cases htr
    cases hpre.unique hm
    right
    have hd : keyBytes = 1 :: List.replicate 32 0 := Option.some.inj (hc.2.2.1.symm.trans rfl)
    rw [hu, hk, hd]
    decide
  · simp at htr

/-- One share submitted twice opens a vault that asks for two. -/
theorem unseal_repeated_share : ∃ tr s h s' h' r,
    Run trackedStep (newLockService 2, .empty) tr (s, h) ∧
      trackedStep (s, h) (.unsealVault zeroShare) = some ((s', h'), r) ∧
      Opens s (.unsealVault zeroShare) s' ∧ h'.distinctIssued < s.threshold := by
  refine ⟨[(.initializeVault 2 2 ⟨zeroRead, zeroRead, zeroRead⟩, _), (.sealVault, _),
    (.unsealVault zeroShare, _)], _, _, _, _, _, ⟨_, rfl, _, rfl, _, rfl, rfl⟩, rfl,
    ⟨⟨_, rfl⟩, rfl, rfl⟩, ?_⟩
  decide

end GrpcVault.LockService
