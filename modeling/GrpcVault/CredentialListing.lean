import GrpcVault.AuthService
import GrpcVault.ApiKeys
import GrpcVault.Lib.Paging

/-!
# Listing credentials

`ListByIdentity` filters the records of a map in the order of the iteration, which Go leaves
open, and cuts a page from the result. Its filter leaves out revoked records; `Get` and
`GetByHash` also refuse expired ones. So the pages of a listing are the accepted credentials, in
every order of every call, only if there is one page and no record has expired.
-/

namespace GrpcVault

open GoText

/-- `ListByIdentity` of either repository, over the records in the order of the iteration; `none`
is the panic of a slice out of range. The sum of limit and offset is below `2 ^ 63` for an offset
below the total. -/
def listPage {α : Type} (listed : α → Bool) (order : List α) (limit offset : ℤ) :
    Option (List α × ℕ) :=
  let filtered := order.filter listed
  let total := filtered.length
  if filtered.length ≤ offset then some ([], total)
  else
    let stop : ℤ := if filtered.length < offset + limit then filtered.length else offset + limit
    if 0 ≤ offset ∧ offset ≤ stop then
      some ((filtered.drop offset.toNat).take (stop - offset).toNat, total)
    else none

/-- Whatever order each call iterates in, the pages below the total together are the accepted
records, each once, and the total is their number. -/
def PagedExactly {α : Type} (list : (order : List α) → (limit offset : ℤ) → Option (List α × ℕ))
    (Accepts : α → Prop) (records : Multiset α) (limit : ℕ) : Prop :=
  ∀ orders : ℕ → List α, (∀ i, (orders i : Multiset α) = records) →
    ∃ (pages : ℕ → List α) (total : ℕ),
      (∀ i, list (orders i) limit (i * limit : ℕ) = some (pages i, total)) ∧
      ((List.range (Paging.pageCount total limit)).flatMap pages).Nodup ∧
      (∀ x, x ∈ (List.range (Paging.pageCount total limit)).flatMap pages ↔
        x ∈ records ∧ Accepts x) ∧
      total = ((List.range (Paging.pageCount total limit)).flatMap pages).length

section Pages

variable {α : Type} {listed : α → Bool} {Accepts : α → Prop} {records : Multiset α} {limit : ℕ}

theorem listPage_eq (listed : α → Bool) (order : List α) (limit offset : ℕ) :
    listPage listed order limit offset =
      some (Paging.page limit offset (order.filter listed), (order.filter listed).length) := by
  unfold listPage
  generalize order.filter listed = filtered
  by_cases hoffset : filtered.length ≤ offset
  · simp [Paging.page, hoffset, List.drop_eq_nil_of_le hoffset]
  · have hlt : ¬ (filtered.length : ℤ) ≤ offset := by omega
    by_cases hstop : filtered.length < offset + limit
    · have hstop' : (filtered.length : ℤ) < offset + limit := by omega
      have hall : (filtered.drop offset).length ≤ limit := by
        rw [List.length_drop]
        omega
      have hrest : (filtered.drop offset).length ≤ ((filtered.length : ℤ) - offset).toNat := by
        rw [List.length_drop]
        omega
      have hin : (0 : ℤ) ≤ offset ∧ (offset : ℤ) ≤ filtered.length := by omega
      simp only [hlt, if_false, hstop', if_true, hin, and_self, Int.toNat_natCast, Paging.page,
        List.take_of_length_le hall, List.take_of_length_le hrest]
    · have hstop' : ¬ (filtered.length : ℤ) < offset + limit := by omega
      have hin : (0 : ℤ) ≤ offset ∧ (offset : ℤ) ≤ offset + limit := by omega
      have hlimit : ((offset : ℤ) + limit - offset).toNat = limit := by omega
      simp only [hlt, if_false, hstop', if_true, hin, and_self, Int.toNat_natCast, Paging.page,
        hlimit]

/-- An accepted record is listed, and there are as many on the pages as are listed: so the pages
have what is listed. -/
theorem pages_perm_listed {l pages : List α}
    (hlisted : ∀ x ∈ l, Accepts x → listed x = true) (hpages : pages.Nodup)
    (hmem : ∀ x, x ∈ pages ↔ x ∈ l ∧ Accepts x)
    (hlength : (l.filter listed).length = pages.length) : pages.Perm (l.filter listed) := by
  have hsub : pages ⊆ l.filter listed := by
    intro x hx
    obtain ⟨hx, haccepts⟩ := (hmem x).mp hx
    exact List.mem_filter.mpr ⟨hx, hlisted x hx haccepts⟩
  exact (hpages.subperm hsub).perm_of_length_le hlength.le

/-- The listings are exact if and only if there is not more than one page and every record that
is listed is accepted. -/
theorem pagedExactly_iff (hrecords : records.Nodup)
    (hlisted : ∀ x ∈ records, Accepts x → listed x = true) (hlimit : 1 ≤ limit) :
    PagedExactly (listPage listed) Accepts records limit ↔
      (records.filter fun x => listed x = true).card ≤ limit ∧
        ∀ x ∈ records, listed x = true → Accepts x := by
  obtain ⟨l, rfl⟩ : ∃ l : List α, (l : Multiset α) = records := Quot.exists_rep records
  rw [Multiset.coe_nodup] at hrecords
  simp only [Multiset.mem_coe] at hlisted
  have hfilter : (Multiset.filter (fun x => listed x = true) (l : Multiset α)).card =
      (l.filter listed).length := by simp
  have hlengths : ∀ order : List α, (order : Multiset α) = l →
      (order.filter listed).length = (l.filter listed).length := fun order horder =>
    ((Multiset.coe_eq_coe.mp horder).filter listed).length_eq
  have hnodup := hrecords.filter listed
  rw [hfilter, ← Paging.pages_of_orders_iff hnodup hlimit]
  constructor
  · intro h
    have hall : ∀ orders : ℕ → List α, (∀ i, (orders i : Multiset α) = l) →
        ((List.range (Paging.pageCount (l.filter listed).length limit)).flatMap fun i =>
          Paging.page limit (i * limit) ((orders i).filter listed)).Perm (l.filter listed) ∧
        ∀ x ∈ l.filter listed, Accepts x := by
      intro orders horders
      obtain ⟨pages, total, hpages, hdistinct, hmem, htotal⟩ := h orders horders
      have hpage : ∀ i, Paging.page limit (i * limit) ((orders i).filter listed) = pages i ∧
          (l.filter listed).length = total := by
        intro i
        have hi := hpages i
        rw [listPage_eq, hlengths _ (horders i)] at hi
        simpa using hi
      rw [← (hpage 0).2] at htotal hmem hdistinct
      have hperm := pages_perm_listed hlisted hdistinct hmem htotal
      simp only [fun i => (hpage i).1]
      exact ⟨hperm, fun x hx => ((hmem x).mp (hperm.mem_iff.mpr hx)).2⟩
    refine ⟨fun orders horders => ?_, fun x hx hxl => ?_⟩
    · -- Every order of what is listed comes from an order of all records.
      choose full hfull hshown using fun i => Paging.exists_perm_filter (horders i)
      have hperm := (hall full fun i => Multiset.coe_eq_coe.mpr (hfull i)).1
      simpa only [hshown] using hperm
    · exact (hall (fun _ => l) fun _ => rfl).2 x (List.mem_filter.mpr ⟨hx, hxl⟩)
  · rintro ⟨hpages, haccepts⟩ orders horders
    have hall := hpages (fun i => (orders i).filter listed) fun i =>
      (Multiset.coe_eq_coe.mp (horders i)).filter listed
    refine ⟨fun i => Paging.page limit (i * limit) ((orders i).filter listed),
      (l.filter listed).length, ?_, hall.nodup_iff.mpr hnodup, ?_, hall.length_eq.symm⟩
    · intro i
      rw [listPage_eq, hlengths _ (horders i)]
    · intro x
      rw [hall.mem_iff, List.mem_filter]
      exact ⟨fun h => ⟨h.1, haccepts x h.1 h.2⟩, fun h => ⟨h.1, hlisted x h.1 h.2⟩⟩

end Pages

namespace Auth

namespace TokenRepository

def listByIdentity (identity : Str) : (order : List Token) → (limit offset : ℤ) →
    Option (List Token × ℕ) :=
  listPage fun token => token.identity = identity ∧ token.revokedAt.isNone

def deleteExpired (now : ℤ) (tokens : TokenRepository) : TokenRepository × ℕ :=
  (GoMap.filterValues (fun token => !decide (token.expiresAt < now)) tokens,
    (GoMap.values tokens).countP fun token => token.expiresAt < now)

inductive Reachable : TokenRepository → Prop
  | new : Reachable ∅
  | create {tokens : TokenRepository} (token : Token) :
      Reachable tokens → Reachable (create tokens token)
  | revoke {tokens : TokenRepository} (now : ℤ) (id : Str) :
      Reachable tokens → Reachable (revoke tokens now id).1
  | updateLastUsed {tokens : TokenRepository} (now : ℤ) (id : Str) :
      Reachable tokens → Reachable (updateLastUsed tokens now id).1
  | deleteExpired {tokens : TokenRepository} (now : ℤ) :
      Reachable tokens → Reachable (deleteExpired now tokens).1

def Accepts (tokens : TokenRepository) (identity : Str) (now : ℤ) (token : Token) : Prop :=
  token.identity = identity ∧ get tokens now token.id = .ok token

variable {tokens : TokenRepository} {token : Token} {id : Str} {now : ℤ}

theorem Reachable.id_eq (h : Reachable tokens) :
    ∀ id token, tokens.lookup id = some token → token.id = id := by
  induction h with
  | new => exact fun id token hlookup => by simp at hlookup
  | create token _ ih => exact GoMap.names_insert ih rfl
  | @revoke tokens now id _ ih =>
      rw [TokenRepository.revoke]
      cases hid : tokens.lookup id with
      | none => exact ih
      | some token => exact GoMap.names_insert ih (ih id token hid)
  | @updateLastUsed tokens now id _ ih =>
      rw [TokenRepository.updateLastUsed]
      cases hid : tokens.lookup id with
      | none => exact ih
      | some token => exact GoMap.names_insert ih (ih id token hid)
  | deleteExpired now _ ih =>
      intro id token hlookup
      rw [TokenRepository.deleteExpired, GoMap.lookup_filterValues,
        Option.filter_eq_some_iff] at hlookup
      exact ih id token hlookup.1

theorem get_eq_ok (hlookup : tokens.lookup id = some token) :
    get tokens now id = .ok token ↔ token.revokedAt = none ∧ now ≤ token.expiresAt := by
  unfold get
  cases hrevoked : token.revokedAt with
  | none =>
      by_cases hexpired : token.expiresAt < now
      · simp [hlookup, hrevoked, hexpired]
      · simp [hlookup, hrevoked, hexpired, not_lt.mp hexpired]
  | some t => simp [hlookup, hrevoked]

/-- Listed tokens are accepted while they have not expired. -/
theorem Reachable.pagedExactly_iff (h : Reachable tokens) (identity : Str) (now : ℤ) {limit : ℕ}
    (hlimit : 1 ≤ limit) :
    PagedExactly (listByIdentity identity) (Accepts tokens identity now) (GoMap.values tokens)
        limit ↔
      ((GoMap.values tokens).filter fun token =>
        token.identity = identity ∧ token.revokedAt.isNone).card ≤ limit ∧
      ∀ token ∈ GoMap.values tokens, token.identity = identity → token.revokedAt = none →
        now ≤ token.expiresAt := by
  have hget : ∀ token ∈ GoMap.values tokens, get tokens now token.id = .ok token ↔
      token.revokedAt = none ∧ now ≤ token.expiresAt := by
    intro token hmem
    obtain ⟨id, hlookup⟩ := GoMap.mem_values.mp hmem
    rw [h.id_eq id token hlookup]
    exact get_eq_ok hlookup
  rw [listByIdentity, GrpcVault.pagedExactly_iff (GoMap.nodup_values h.id_eq) ?_ hlimit]
  · simp only [decide_eq_true_eq]
    refine and_congr_right fun _ => forall₂_congr fun token hmem => ?_
    simp only [Accepts, hget token hmem, Option.isNone_iff_eq_none]
    tauto
  · rintro token hmem ⟨hidentity, hok⟩
    simp [hidentity, ((hget token hmem).mp hok).1]

end TokenRepository

end Auth

namespace ApiKeys

namespace MemoryAPIKeyRepository

def listByIdentity (identity : Str) : (order : List APIKey) → (limit offset : ℤ) →
    Option (List APIKey × ℕ) :=
  listPage fun apiKey => apiKey.identity = identity ∧ apiKey.revokedAt.isNone

inductive Reachable : MemoryAPIKeyRepository → Prop
  | new : Reachable newMemoryAPIKeyRepository
  | create {r : MemoryAPIKeyRepository} (apiKey : APIKey) :
      Reachable r → Reachable (r.create apiKey)
  | revoke {r : MemoryAPIKeyRepository} (now : ℤ) (id : Str) :
      Reachable r → Reachable (r.revoke now id).1
  | updateLastUsed {r : MemoryAPIKeyRepository} (now : ℤ) (id : Str) :
      Reachable r → Reachable (r.updateLastUsed now id).1

def Accepts (r : MemoryAPIKeyRepository) (identity : Str) (now : ℤ) (apiKey : APIKey) : Prop :=
  apiKey.identity = identity ∧ r.getByHash now apiKey.keyHash = some (.ok apiKey)

variable {r : MemoryAPIKeyRepository} {apiKey : APIKey} {id : Str} {now : ℤ}

theorem Reachable.id_eq (h : Reachable r) :
    ∀ id apiKey, r.keys.lookup id = some apiKey → apiKey.id = id := by
  induction h with
  | new => exact fun id apiKey hlookup => by simp [newMemoryAPIKeyRepository] at hlookup
  | create apiKey _ ih => exact GoMap.names_insert ih rfl
  | @revoke r now id _ ih =>
      rw [MemoryAPIKeyRepository.revoke]
      cases hid : r.keys.lookup id with
      | none => exact ih
      | some apiKey => exact GoMap.names_insert ih (ih id apiKey hid)
  | @updateLastUsed r now id _ ih =>
      rw [MemoryAPIKeyRepository.updateLastUsed]
      cases hid : r.keys.lookup id with
      | none => exact ih
      | some apiKey => exact GoMap.names_insert ih (ih id apiKey hid)

theorem Reachable.getByHash_eq_ok (h : Reachable r) (hlookup : r.keys.lookup id = some apiKey) :
    r.getByHash now apiKey.keyHash = some (.ok apiKey) ↔
      r.byHash.lookup apiKey.keyHash = some apiKey.id ∧ apiKey.revokedAt = none ∧
        apiKey.expiresAt.all (now ≤ ·) = true := by
  obtain rfl := h.id_eq id apiKey hlookup
  have hcheck : (if apiKey.revokedAt.isSome then Except.error RepositoryError.apiKeyRevoked
      else if apiKey.expiresAt.any (· < now) then .error .apiKeyNotFound
      else .ok apiKey) = .ok apiKey ↔
      apiKey.revokedAt = none ∧ apiKey.expiresAt.all (now ≤ ·) = true := by
    cases hrevoked : apiKey.revokedAt <;> cases hexpires : apiKey.expiresAt <;> simp
  rw [← hcheck]
  constructor
  · intro hok
    unfold getByHash at hok
    cases hhash : r.byHash.lookup apiKey.keyHash with
    | none => simp [hhash] at hok
    | some id' =>
        simp only [hhash] at hok
        obtain ⟨apiKey', hlookup', hresult⟩ := Option.map_eq_some_iff.mp hok
        have hsame : apiKey' = apiKey := by
          split_ifs at hresult
          exact Except.ok.inj hresult
        rw [hsame] at hlookup' hresult
        rw [h.id_eq id' apiKey hlookup']
        exact ⟨rfl, hresult⟩
  · rintro ⟨hhash, hresult⟩
    simp [getByHash, hhash, hlookup, hresult]

theorem Reachable.pagedExactly_iff (h : Reachable r) (identity : Str) (now : ℤ) {limit : ℕ}
    (hlimit : 1 ≤ limit) :
    PagedExactly (listByIdentity identity) (r.Accepts identity now) (GoMap.values r.keys) limit ↔
      ((GoMap.values r.keys).filter fun apiKey =>
        apiKey.identity = identity ∧ apiKey.revokedAt.isNone).card ≤ limit ∧
      ∀ apiKey ∈ GoMap.values r.keys, apiKey.identity = identity → apiKey.revokedAt = none →
        apiKey.expiresAt.all (now ≤ ·) = true ∧
          r.byHash.lookup apiKey.keyHash = some apiKey.id := by
  have hget : ∀ apiKey ∈ GoMap.values r.keys,
      r.getByHash now apiKey.keyHash = some (.ok apiKey) ↔
        r.byHash.lookup apiKey.keyHash = some apiKey.id ∧ apiKey.revokedAt = none ∧
          apiKey.expiresAt.all (now ≤ ·) = true := by
    intro apiKey hmem
    obtain ⟨id, hlookup⟩ := GoMap.mem_values.mp hmem
    exact h.getByHash_eq_ok hlookup
  rw [listByIdentity, GrpcVault.pagedExactly_iff (GoMap.nodup_values h.id_eq) ?_ hlimit]
  · simp only [decide_eq_true_eq]
    refine and_congr_right fun _ => forall₂_congr fun apiKey hmem => ?_
    simp only [Accepts, hget apiKey hmem, Option.isNone_iff_eq_none]
    tauto
  · rintro apiKey hmem ⟨hidentity, hok⟩
    simp [hidentity, ((hget apiKey hmem).mp hok).2.1]

end MemoryAPIKeyRepository

end ApiKeys

open Auth ApiKeys in
/-- The pages of both listings are the credentials that a lookup accepts, whatever the orders of
the iterations, if and only if there is at most one page and no unrevoked record of the identity
has expired or, for a key, lost its hash to another. -/
theorem credentials_paged_iff {tokens : TokenRepository} (htokens : tokens.Reachable)
    {r : MemoryAPIKeyRepository} (hr : r.Reachable) (identity : Str) (now : ℤ) {limit : ℕ}
    (hlimit : 1 ≤ limit) :
    (PagedExactly (TokenRepository.listByIdentity identity)
        (TokenRepository.Accepts tokens identity now) (GoMap.values tokens) limit ↔
      ((GoMap.values tokens).filter fun token =>
        token.identity = identity ∧ token.revokedAt.isNone).card ≤ limit ∧
      ∀ token ∈ GoMap.values tokens, token.identity = identity → token.revokedAt = none →
        now ≤ token.expiresAt) ∧
    (PagedExactly (MemoryAPIKeyRepository.listByIdentity identity) (r.Accepts identity now)
        (GoMap.values r.keys) limit ↔
      ((GoMap.values r.keys).filter fun apiKey =>
        apiKey.identity = identity ∧ apiKey.revokedAt.isNone).card ≤ limit ∧
      ∀ apiKey ∈ GoMap.values r.keys, apiKey.identity = identity → apiKey.revokedAt = none →
        apiKey.expiresAt.all (now ≤ ·) = true ∧
          r.byHash.lookup apiKey.keyHash = some apiKey.id) :=
  ⟨htokens.pagedExactly_iff identity now hlimit, hr.pagedExactly_iff identity now hlimit⟩

namespace Auth

def issuedToken (id : Str) : Token where
  id := id
  identity := ['i']
  policies := []
  metadata := ∅
  createdAt := 0
  expiresAt := 5
  revokedAt := none
  lastUsedAt := none

def twoTokens : TokenRepository :=
  TokenRepository.create (TokenRepository.create ∅ (issuedToken ['2'])) (issuedToken ['1'])

theorem values_twoTokens :
    GoMap.values twoTokens = ([issuedToken ['1'], issuedToken ['2']] : Multiset Token) := rfl

/-- A page for two is enough for both, as long as they have not expired. -/
theorem credentials_paged_two : PagedExactly (TokenRepository.listByIdentity ['i'])
    (TokenRepository.Accepts twoTokens ['i'] 5) (GoMap.values twoTokens) 2 := by
  have htwo : TokenRepository.Reachable twoTokens := .create _ (.create _ .new)
  refine (credentials_paged_iff htwo .new ['i'] 5 (by decide)).1.mpr ⟨?_, ?_⟩
  · rw [values_twoTokens]
    exact le_rfl
  · intro token hmem _ _
    rw [values_twoTokens] at hmem
    obtain rfl | rfl : token = issuedToken ['1'] ∨ token = issuedToken ['2'] := by simpa using hmem
    · exact le_rfl
    · exact le_rfl

/-- Both orders of the two tokens are orders of the map. With pages of one, the first token is on
both pages and the second on none; and when both have expired, they are listed still. -/
theorem listing_repeats_and_keeps_expired :
    (([issuedToken ['1'], issuedToken ['2']] : List Token) : Multiset Token) =
      GoMap.values twoTokens ∧
    (([issuedToken ['2'], issuedToken ['1']] : List Token) : Multiset Token) =
      GoMap.values twoTokens ∧
    TokenRepository.listByIdentity ['i'] [issuedToken ['1'], issuedToken ['2']] 1 0 =
      some ([issuedToken ['1']], 2) ∧
    TokenRepository.listByIdentity ['i'] [issuedToken ['2'], issuedToken ['1']] 1 1 =
      some ([issuedToken ['1']], 2) ∧
    TokenRepository.get twoTokens 6 ['1'] = .error .tokenNotFound ∧
    TokenRepository.get twoTokens 6 ['2'] = .error .tokenNotFound := by
  refine ⟨rfl, ?_, rfl, rfl, rfl, rfl⟩
  exact Multiset.coe_eq_coe.mpr (List.Perm.swap _ _ _)

end Auth

end GrpcVault
