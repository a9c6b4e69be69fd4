import GrpcVault.CryptoService

/-!
# Key isolation of the key cache

An entry of the key cache is found under the key name alone, or under
`name:version`. As names may contain colons, the entry for version 1 of a key
`k` and the entry for the latest version of a key named `k:1` are one. Apart
from such a pair the encoding is injective, and every answer is material that
the lock service holds under the name of the request.
-/

namespace GrpcVault.CryptoService

open GoText EventSystem ReadThrough

/-- The lock service holds this material under the request's name, as the very
version that the request asks for if it names one. -/
def Held (t : LockService) (r : KeyRequest) (v : KeyInfo) : Prop :=
  ∃ key, t.keyring.getKeyVersion r.keyName key.version = .ok key ∧ v = keyInfoOf key ∧
    (0 < r.version → r.version < 2 ^ 31 → key.version = r.version)

/-- The cache entry of one request is the entry of the other for another reason: it
is filed under the name alone here and under name and version there. -/
def Collides (r r' : KeyRequest) : Prop :=
  0 < r.version ∧ r'.version ≤ 0 ∧ r'.keyName = r.keyName ++ ':' :: itoa r.version

def NoSeal (x : LockOp × LockReply) : Prop := x.1 ≠ .sealVault

theorem cacheKey_pos_inj {n n' : Str} {v v' : ℤ} (hv : 0 < v) (hv' : 0 < v')
    (h : cacheKey n v = cacheKey n' v') : n = n' ∧ v = v' := by
  rw [cacheKey, cacheKey, if_pos hv, if_pos hv'] at h
  obtain ⟨hn, hi⟩ := append_sep_inj (colon_notMem_itoa v) (colon_notMem_itoa v') h
  exact ⟨hn, itoa_injective hi⟩

/-- Requests without a collision that share an entry want the same material. -/
theorem same_entry {r r' : KeyRequest} (hc : ¬ Collides r r') (hc' : ¬ Collides r' r)
    (h : cryptoService.keyOf r = cryptoService.keyOf r') :
    r.keyName = r'.keyName ∧ (0 < r'.version → r.version = r'.version) := by
  change cacheKey r.keyName r.version = cacheKey r'.keyName r'.version at h
  by_cases hv : 0 < r.version
  · by_cases hv' : 0 < r'.version
    · obtain ⟨hn, he⟩ := cacheKey_pos_inj hv hv' h
      exact ⟨hn, fun _ => he⟩
    · rw [cacheKey, cacheKey, if_pos hv, if_neg hv'] at h
      exact absurd ⟨hv, not_lt.mp hv', h.symm⟩ hc
  · by_cases hv' : 0 < r'.version
    · rw [cacheKey, cacheKey, if_neg hv, if_pos hv'] at h
      exact absurd ⟨hv', not_lt.mp hv, h⟩ hc'
    · rw [cacheKey, cacheKey, if_neg hv, if_neg hv'] at h
      exact ⟨h, fun hpos => absurd hpos hv'⟩

theorem held_of_fetch {t : LockService} (ht : t.Valid) {r : KeyRequest} {v : KeyInfo}
    (h : cryptoService.fetch t r = some v) : Held t r v := by
  obtain ⟨_, key, hk, rfl⟩ := fetch_eq_some.mp h
  obtain ⟨_, hkey, hver⟩ := Keyring.getKeyVersion_version ht.defaultMin hk
  refine ⟨key, hkey, rfl, ?_⟩
  intro hlo hhi
  have hself : int32 r.version = r.version := int32_eq_self (by omega) hhi
  rw [hself] at hver
  exact hver (by omega)

theorem Held.extends {t t' : LockService} {r : KeyRequest} {v : KeyInfo} (ht : t.Valid)
    (he : t.keyring.Extends t'.keyring) (h : Held t r v) : Held t' r v := by
  obtain ⟨key, hk, hv, hver⟩ := h
  have hpos := (Keyring.getKeyVersion_version ht.defaultMin hk).1
  exact ⟨key, he.getKeyVersion (by omega) hk, hv, hver⟩

theorem sound_of_no_collision {Req : KeyRequest → Prop}
    (hreq : ∀ r r', Req r → Req r' → ¬ Collides r r') :
    cryptoService.Sound Req NoSeal LockService.Valid Held where
  inv _ hv hs := LockService.step_valid hs hv
  fetch_ok hv _ hf := held_of_fetch hv hf
  stable hA hv hs _ hok := hok.extends hv (LockService.step_extends hs hA)
  agree := by
    intro t r r' v hr hr' hk hok
    obtain ⟨hn, hver⟩ := same_entry (hreq r r' hr hr') (hreq r' r hr' hr) hk
    obtain ⟨key, hkey, hv, hversion⟩ := hok
    refine ⟨key, hn ▸ hkey, hv, ?_⟩
    intro hlo hhi
    have he := hver hlo
    rw [hversion (by omega) (by omega), he]

def Asked (tr : CryptoTrace) (r : KeyRequest) : Prop :=
  ∃ o, (Event.start r, o) ∈ tr

/-- In every run without a seal in which no two requests collide, each key that a call
obtains is held by the lock service under the name that the call gave. -/
theorem getKey_isolated {threshold : ℤ} {tr : CryptoTrace}
    {last : CryptoState} (hrun : Run cryptoService.step (CryptoState.start threshold) tr last)
    (hseal : ∀ op reply, (Event.store op, Output.store reply) ∈ tr → op ≠ .sealVault)
    (hreq : ∀ r r', Asked tr r → Asked tr r' → ¬ Collides r r')
    {tr₁ tr₂ : CryptoTrace} {e : CryptoEvent} {id : ℕ} {r : KeyRequest}
    {v : KeyInfo} (htr : tr = tr₁ ++ (e, Output.returned id r v) :: tr₂) :
    ∃ s, Run cryptoService.step (CryptoState.start threshold)
        (tr₁ ++ [(e, Output.returned id r v)]) s ∧
      Held s.store r v := by
  have hsound := sound_of_no_collision hreq
  have hperm : ∀ x ∈ tr, Service.Permitted (Asked tr) NoSeal x :=
    Service.permitted_of_mem (fun r o hx => ⟨o, hx⟩) hseal
  rw [htr] at hrun
  obtain ⟨m, m', hm, hs, _⟩ := run_append_cons.mp hrun
  have hgood : cryptoService.Good (Asked tr) LockService.Valid Held m :=
    Service.run_good hsound hm (fun x hx => hperm x (by simp [htr, hx]))
      (Service.good_init (LockService.valid_new threshold))
  refine ⟨m', run_snoc.mpr ⟨m, hm, hs⟩, ?_⟩
  exact (Service.returned_ok hsound (hperm _ (by simp [htr])) hgood hs rfl).2

def decryptVersionOne : KeyRequest := ⟨.decrypt ['k'] "vault:v1:".toList [], 1, by rfl⟩

/-- Two keys of different material: after both have been asked for, the second request for
version 1 of `k` is answered from the cache, with the material of `k`. -/
theorem getKey_isolated_hit : ∃ (tr : CryptoTrace) (v w : KeyInfo) (s : CryptoState),
    Run cryptoService.step (CryptoState.start 1)
      (tr ++ [(.start decryptVersionOne, .returned 2 decryptVersionOne v)]) s ∧
    (.fill 0, .returned 0 (.encrypt ['l'] [1] []) w) ∈ tr ∧ w.key ≠ v.key ∧
    Held s.store decryptVersionOne v := by
  have hrun : ∃ r₁ r₂ r₃ v w s, Run cryptoService.step (CryptoState.start 1)
      (([(.store (.initializeVault 1 1 ⟨zeroRead, zeroRead, zeroRead⟩), .store r₁),
        (.store (.createKey ['k'] .aes256GCM zeroRead 0), .store r₂),
        (.store (.createKey ['l'] .aes256GCM (constRead 1) 0), .store r₃),
        (.start (.encrypt ['l'] [1] []), .missed 0 (.encrypt ['l'] [1] [])),
        (.respond 0, .answered 0), (.fill 0, .returned 0 (.encrypt ['l'] [1] []) w),
        (.start decryptVersionOne, .missed 1 decryptVersionOne), (.respond 1, .answered 1),
        (.fill 1, .returned 1 decryptVersionOne v)] : CryptoTrace) ++
        ([(.start decryptVersionOne, .returned 2 decryptVersionOne v)] : CryptoTrace)) s ∧
      w.key ≠ v.key :=
    ⟨_, _, _, _, _, _, ⟨_, rfl, _, rfl, _, rfl, _, rfl, _, rfl, _, rfl, _, rfl, _, rfl, _, rfl, _,
      rfl, rfl⟩, by decide⟩
  obtain ⟨r₁, r₂, r₃, v, w, last, hrun, hne⟩ := hrun
  have hheld := getKey_isolated hrun ?_ ?_ rfl
  · obtain ⟨s, hs, hheld⟩ := hheld
    exact ⟨_, v, w, s, hs, by simp, hne, hheld⟩
  · intro op reply hx
    simp only [List.cons_append, List.nil_append, List.mem_cons, Prod.mk.injEq, Event.store.injEq,
      reduceCtorEq, false_and, or_false, List.not_mem_nil] at hx
    rcases hx with ⟨rfl, _⟩ | ⟨rfl, _⟩ | ⟨rfl, _⟩ <;> exact nofun
  · rintro r r' ⟨o, hx⟩ ⟨o', hx'⟩ ⟨hpos, hnonpos, hname⟩
    simp at hx hx'
    -- the request for the latest version is for a name without a colon
    rcases hx' with ⟨rfl, _⟩ | ⟨rfl, _⟩ | ⟨rfl, _⟩
    · change ['l'] = _ at hname
      have hcolon : ':' ∈ ['l'] := by simp [hname]
      simp at hcolon
    · exact absurd hnonpos (by decide)
    · exact absurd hnonpos (by decide)

theorem Held.material {t : LockService} {r : KeyRequest} {v : KeyInfo} (h : Held t r v) :
    ∃ p, t.keyring.policies.lookup r.keyName = some p ∧ v.key ∈ p.keys.map Key.key := by
  obtain ⟨key, hk, rfl, _⟩ := h
  obtain ⟨_, p, hp, _, hf⟩ := Keyring.getKeyVersion_eq_ok.mp hk
  exact ⟨p, hp, List.mem_map_of_mem (List.mem_of_find?_eq_some hf)⟩

/-- Version 1 of the key `k` is asked for after the key `k:1` has been used. -/
theorem getKey_colliding_names :
    ∃ (tr : CryptoTrace) (e : CryptoEvent) (id : ℕ) (v : KeyInfo)
      (s : CryptoState),
    Run cryptoService.step (CryptoState.start 1)
      (tr ++ [(e, Output.returned id decryptVersionOne v)]) s ∧
    (∀ op reply, (Event.store op, Output.store reply) ∈ tr → op ≠ LockOp.sealVault) ∧
    ¬ Held s.store decryptVersionOne v := by
  have hrun : ∃ r₁ r₂ r₃ v s, Run cryptoService.step (CryptoState.start 1)
      (([(.store (.initializeVault 1 1 ⟨zeroRead, zeroRead, zeroRead⟩), .store r₁),
        (.store (.createKey ['k'] .aes256GCM zeroRead 0), .store r₂),
        (.store (.createKey ['k', ':', '1'] .aes256GCM (constRead 1) 0), .store r₃),
        (.start (.encrypt ['k', ':', '1'] [1] []), .missed 0 (.encrypt ['k', ':', '1'] [1] [])),
        (.respond 0, .answered 0),
        (.fill 0, .returned 0 (.encrypt ['k', ':', '1'] [1] []) v)] : CryptoTrace) ++
        ([(.start decryptVersionOne, .returned 1 decryptVersionOne v)] : CryptoTrace)) s ∧
      v.key = List.replicate 32 1 ∧
      (s.store.keyring.policies.lookup ['k']).map (fun p => p.keys.map Key.key) =
        some [List.replicate 32 0] :=
    ⟨_, _, _, _, _, ⟨_, rfl, _, rfl, _, rfl, _, rfl, _, rfl, _, rfl, _, rfl, rfl⟩, rfl, rfl⟩
  obtain ⟨r₁, r₂, r₃, v, s, hrun, hv, hkeys⟩ := hrun
  refine ⟨_, _, _, v, s, hrun, ?_, ?_⟩
  · intro op reply hx
    simp only [List.mem_cons, Prod.mk.injEq, Event.store.injEq, reduceCtorEq, false_and, or_false,
      List.not_mem_nil] at hx
    rcases hx with ⟨rfl, _⟩ | ⟨rfl, _⟩ | ⟨rfl, _⟩
    · exact nofun
    · exact nofun
    · exact nofun
  · intro hheld
    obtain ⟨p, hp, hmem⟩ := hheld.material
    change s.store.keyring.policies.lookup ['k'] = some p at hp
    rw [hp, Option.map_some, Option.some.injEq] at hkeys
    rw [hkeys, hv] at hmem
    exact absurd hmem (by decide)

end GrpcVault.CryptoService
