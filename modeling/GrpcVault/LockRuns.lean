import GrpcVault.LockService

/-!
# The lock service over whole runs

`Valid` collects what holds of the service in every state it can reach: an open
vault has been initialized and has no shares pending, the shares pending are
fewer than the threshold, a closed keyring is empty, and the versions of every
key are numbered from 1 without gaps.
-/

namespace GrpcVault.LockService

open GoText EventSystem

structure Valid (s : LockService) : Prop where
  opened : s.sealed = false → s.initialized = true ∧ s.unsealKeys = []
  fresh : s.initialized = false → s.unsealKeys = []
  pending : s.unsealKeys = [] ∨ (s.unsealKeys.length : ℤ) < s.threshold
  cleared : s.keyring.sealed = true → s.keyring = s.keyring.sealKeyring
  wellFormed : s.keyring.WellFormed
  defaultMin : s.keyring.DefaultMin

variable {s s' : LockService}

theorem valid_new (threshold : ℤ) : (newLockService threshold).Valid where
  opened h := by cases h
  fresh _ := rfl
  pending := .inl rfl
  cleared h := by cases h
  wellFormed := Keyring.wellFormed_new
  defaultMin _ _ h := by cases h

theorem Effect.valid {op : LockOp} {r : LockReply} (h : Effect s op r s') (hv : s.Valid) : s'.Valid := by
  cases h with
  | keep | ignored => exact hv
  | initialized hi hm hb hsplit =>
      have hnil := hv.fresh hi
      exact ⟨fun _ => ⟨rfl, hnil⟩, fun _ => hnil, .inl hnil, hv.cleared, hv.wellFormed,
        hv.defaultMin⟩
  | share hi hs hd ht =>
      refine ⟨?_, ?_, .inr ht, hv.cleared, hv.wellFormed, hv.defaultMin⟩
      · intro ho
        rw [hs] at ho
        cases ho
      · intro hf
        rw [hi] at hf
        cases hf
  | refuse hi hs hd ht hc =>
      refine ⟨?_, fun _ => rfl, .inl rfl, hv.cleared, hv.wellFormed, hv.defaultMin⟩
      intro ho
      rw [hs] at ho
      cases ho
  | unsealed hi hs hd ht hc =>
      exact ⟨fun _ => ⟨hi, rfl⟩, fun _ => rfl, .inl rfl, hv.cleared, hv.wellFormed, hv.defaultMin⟩
  | sealed hi hs =>
      refine ⟨?_, fun _ => rfl, .inl rfl, fun _ => rfl, ⟨?_⟩, ?_⟩
      · intro ho
        cases ho
      · intro name p hp
        cases hp
      · intro name p hp
        cases hp
  | putSecret hs | deleteSecret hs =>
      exact ⟨hv.opened, hv.fresh, hv.pending, hv.cleared, hv.wellFormed, hv.defaultMin⟩
  | @createKey name keyType rand now keyring policy hs hk =>
      obtain ⟨hopen, _, _, rfl⟩ := Keyring.createKey_eq_ok hk
      have hwf : (s.keyring.createKey name keyType [] rand now).1.WellFormed :=
        hv.wellFormed.createKey keyType rand now
      have hmin : (s.keyring.createKey name keyType [] rand now).1.DefaultMin :=
        hv.defaultMin.createKey keyType rand now
      rw [hk] at hwf hmin
      refine ⟨hv.opened, hv.fresh, hv.pending, ?_, hwf, hmin⟩
      intro hc
      exact absurd hopen (by simpa using hc)
  | @rotateKey name rand now keyring version hs hk =>
      obtain ⟨hopen, _, _, _, _, _, rfl⟩ := Keyring.rotateKey_eq_ok hk
      have hwf : (s.keyring.rotateKey name rand now).1.WellFormed :=
        hv.wellFormed.rotateKey rand now
      have hmin : (s.keyring.rotateKey name rand now).1.DefaultMin :=
        hv.defaultMin.rotateKey rand now
      rw [hk] at hwf hmin
      refine ⟨hv.opened, hv.fresh, hv.pending, ?_, hwf, hmin⟩
      intro hc
      exact absurd hopen (by simpa using hc)

theorem step_valid {op : LockOp} {r : LockReply} (h : step s op = some (s', r)) (hv : s.Valid) :
    s'.Valid :=
  (step_effect h).valid hv

/-- Unless the vault is sealed, no version of a key is lost or changed. -/
theorem step_extends {op : LockOp} {r : LockReply} (h : step s op = some (s', r))
    (hop : op ≠ .sealVault) : s.keyring.Extends s'.keyring := by
  cases step_effect h with
  | sealed => exact absurd rfl hop
  | @createKey name keyType rand now keyring policy hs hk =>
      have he : s.keyring.Extends (s.keyring.createKey name keyType [] rand now).1 :=
        Keyring.createKey_extends keyType [] rand now
      rwa [hk] at he
  | @rotateKey name rand now keyring version hs hk =>
      have he : s.keyring.Extends (s.keyring.rotateKey name rand now).1 :=
        Keyring.rotateKey_extends rand now
      rwa [hk] at he
  | keep | ignored | initialized | share | refuse | unsealed | putSecret | deleteSecret =>
      exact Keyring.extends_refl _

def latest (s : LockService) (name : Str) : ℤ :=
  match s.keyring.policies.lookup name with
  | some p => p.latestVersion
  | none => 0

theorem latest_of_lookup {name : Str} {p : KeyPolicy}
    (h : s.keyring.policies.lookup name = some p) : s.latest name = p.latestVersion := by
  rw [latest, h]

def rotates (name : Str) : LockOp → LockReply → Bool
  | .rotateKey name' _ _, .rotateKey (.ok _) => name' = name
  | _, _ => false

/-- Only a rotation adds to the versions of an existing key, and it adds one. -/
theorem step_latest {op : LockOp} {r : LockReply} (h : step s op = some (s', r)) (name : Str) :
    s'.latest name ≤ max 1 (s.latest name + if rotates name op r then 1 else 0) := by
  have hsame : s'.keyring.policies.lookup name = s.keyring.policies.lookup name →
      s'.latest name ≤ max 1 (s.latest name + if rotates name op r then 1 else 0) := by
    intro he
    have hl : s'.latest name = s.latest name := by rw [latest, latest, he]
    split_ifs <;> omega
  cases step_effect h with
  | keep | ignored | initialized | share | refuse | unsealed | putSecret | deleteSecret =>
      exact hsame rfl
  | sealed => exact le_max_of_le_left (by simp [latest, Keyring.sealKeyring])
  | @createKey name' keyType rand now keyring policy hs hk =>
      obtain ⟨_, _, hg, rfl⟩ := Keyring.createKey_eq_ok hk
      by_cases hn : name = name'
      · subst hn
        obtain ⟨_, _, rfl⟩ := generateKeyVersion_eq_ok hg
        rw [latest_of_lookup (Finmap.lookup_insert _)]
        exact le_max_left _ _
      · exact hsame (Finmap.lookup_insert_of_ne _ hn)
  | @rotateKey name' rand now keyring version hs hk =>
      obtain ⟨_, policy, policy', hl, hg, rfl, rfl⟩ := Keyring.rotateKey_eq_ok hk
      by_cases hn : name = name'
      · subst hn
        obtain ⟨_, _, rfl⟩ := generateKeyVersion_eq_ok hg
        rw [latest_of_lookup (Finmap.lookup_insert _), latest_of_lookup hl]
        simp [rotates]
      · exact hsame (Finmap.lookup_insert_of_ne _ hn)

theorem latest_of_rotate {name : Str} {rand : RandRead 32} {now n : ℤ}
    (h : step s (.rotateKey name rand now) = some (s', .rotateKey (.ok n))) :
    s'.latest name = n := by
  cases step_effect h with
  | keep _ hw => cases hw
  | rotateKey hs hk =>
      obtain ⟨_, policy, policy', _, _, rfl, rfl⟩ := Keyring.rotateKey_eq_ok hk
      rw [latest_of_lookup (Finmap.lookup_insert _)]

theorem step_latest_lt {op : LockOp} {r : LockReply} {name : Str} {b : ℤ}
    (h : step s op = some (s', r)) (hb : 1 < b)
    (hrotate : ∀ rand now n, op = .rotateKey name rand now → r = .rotateKey (.ok n) → n < b)
    (hs : s.latest name < b) : s'.latest name < b := by
  by_cases hr : rotates name op r = true
  · cases op with
    | rotateKey name' rand now =>
        cases r with
        | rotateKey result =>
            cases result with
            | ok n =>
                obtain rfl : name' = name := of_decide_eq_true hr
                rw [latest_of_rotate h]
                exact hrotate rand now n rfl rfl
            | error e => cases hr
        | _ => cases hr
    | _ => cases hr
  · have hle := step_latest h name
    rw [if_neg hr] at hle
    omega

theorem latest_of_getKeyVersion {name : Str} {key : Key}
    (hk : s.keyring.getKeyVersion name 0 = .ok key) :
    s.keyring.sealed = false ∧ key.version = s.latest name := by
  obtain ⟨hopen, p, hp, _, hfind⟩ := Keyring.getKeyVersion_eq_ok.mp hk
  rw [Keyring.resolveVersion, if_pos rfl] at hfind
  exact ⟨hopen, by rw [Keyring.findVersion_version hfind, latest_of_lookup hp]⟩

theorem Valid.getKeyVersion_le (hv : s.Valid) {name : Str} {version : ℤ} {key : Key}
    (hk : s.keyring.getKeyVersion name version = .ok key) :
    1 ≤ key.version ∧ key.version ≤ s.latest name ∧ key.key.length = 32 := by
  obtain ⟨_, p, hp, _, hf⟩ := Keyring.getKeyVersion_eq_ok.mp hk
  obtain ⟨hlo, hhi, hlen⟩ := (hv.wellFormed.numbered hp).1.findVersion_mem hf
  rw [latest_of_lookup hp, Keyring.findVersion_version hf]
  exact ⟨hlo, hhi, hlen⟩

theorem Valid.latest_mono (hv' : s'.Valid) (he : s.keyring.Extends s'.keyring) (name : Str) :
    s.latest name ≤ s'.latest name := by
  cases hp : s.keyring.policies.lookup name with
  | none =>
      have hzero : s.latest name = 0 := by rw [latest, hp]
      rw [hzero, latest]
      split
      · rename_i p hp'
        exact (hv'.wellFormed.numbered hp').1.nonneg
      · exact le_rfl
  | some p =>
      obtain ⟨p', hp', hext⟩ := he.2 name p hp
      rw [latest_of_lookup hp, latest_of_lookup hp']
      exact hext.latest

theorem step_latest_ge {op : LockOp} {r : LockReply} {name : Str} {n : ℤ} (hv : s.Valid)
    (h : step s op = some (s', r)) (hs : s.keyring.sealed = true ∨ n ≤ s.latest name) :
    s'.keyring.sealed = true ∨ n ≤ s'.latest name := by
  by_cases hop : op = .sealVault
  · subst hop
    cases step_effect h with
    | keep => exact hs
    | sealed => exact .inl rfl
  · have he := step_extends h hop
    rcases hs with hclosed | hle
    · exact .inl (he.1.trans hclosed)
    · exact .inr (hle.trans ((step_valid h hv).latest_mono he name))

theorem step_keyed {op : LockOp} {r : LockReply} (h : step s op = some (s', r))
    (hop : op ≠ .sealVault) {name : Str} (hs : 0 < s.latest name → s.sealed = false) :
    0 < s'.latest name → s'.sealed = false := by
  cases step_effect h with
  | sealed => exact absurd rfl hop
  | initialized | unsealed => exact fun _ => rfl
  | keep | ignored | share | refuse => exact hs
  | putSecret ho | deleteSecret ho | createKey ho | rotateKey ho => exact fun _ => ho

theorem run_valid {threshold : ℤ} {tr : List (LockOp × LockReply)}
    (h : Run step (newLockService threshold) tr s) : s.Valid :=
  h.preserves (fun _ _ _ _ hv hs => step_valid hs hv) (valid_new threshold)

end GrpcVault.LockService
