import GrpcVault.AuditWindows
import GrpcVault.Lib.Paging

/-!
# Pages of audit queries

The query loop shows the page of the matching entries that its options ask for
(`queryLoop_eq_page`), the file storage from the oldest on and the memory storage from the
newest. The count leaves the page aside. As the pages of one list are put together to the list,
so are the answers to queries that go on from one offset to the next.
-/

namespace GrpcVault.Audit

variable {δ : Type}

def Storage.matching : Storage δ → QueryOptions → List (AuditEntry δ)
  | .file s, opts => s.entries.filter fun entry => FileStorage.matchesQuery entry opts
  | .memory s, opts =>
      (s.entries.filter fun entry => MemoryStorage.matchesQuery entry opts).reverse

def QueryOptions.atPage (opts : QueryOptions) (i : ℕ) : QueryOptions :=
  { opts with offset := i * opts.limit }

namespace Storage

variable (storage : Storage δ) (opts : QueryOptions)

theorem query_eq_page : storage.query opts = page opts (storage.matching opts) := by
  cases storage with
  | file s => exact queryLoop_eq_page _ opts s.entries
  | memory s =>
      rw [matching, ← List.filter_reverse]
      exact queryLoop_eq_page _ opts s.entries.reverse

theorem count_eq_length : storage.count opts = (storage.matching opts).length := by
  cases storage with
  | file s => exact List.countP_eq_length_filter
  | memory s =>
      rw [matching, List.length_reverse]
      exact List.countP_eq_length_filter

theorem matching_with_page (limit offset : ℤ) :
    storage.matching { opts with limit, offset } = storage.matching opts := by
  cases storage <;> rfl

theorem query_atPage (hlimit : 0 < opts.limit) (i : ℕ) :
    storage.query (opts.atPage i) =
      Paging.page opts.limit.toNat (i * opts.limit.toNat) (storage.matching opts) := by
  have hmatching : storage.matching (opts.atPage i) = storage.matching opts :=
    storage.matching_with_page opts _ _
  have hoffset : (opts.atPage i).offset.toNat = i * opts.limit.toNat := by
    rw [QueryOptions.atPage, Int.toNat_mul (Int.natCast_nonneg i) hlimit.le, Int.toNat_natCast]
  rw [query_eq_page, hmatching, page, hoffset]
  exact if_pos hlimit

end Storage

/-- The service answers with the matching entries from the offset on, as many as the limit
allows, and with the number of all that match, whatever limit and offset are. The answers at
the offsets `0`, `limit`, `2 * limit` and so on, up to that number, put together are the list of
all entries that match. -/
theorem pages_complete (storage : Storage δ) (opts : QueryOptions) :
    (AuditService.query storage opts).1 = page opts (storage.matching opts) ∧
    (∀ limit offset, (AuditService.query storage { opts with limit, offset }).2 =
      (storage.matching opts).length) ∧
    (0 < opts.limit →
      ((List.range ((AuditService.query storage opts).2 / opts.limit.toNat + 1)).flatMap fun i =>
        (AuditService.query storage (opts.atPage i)).1) = storage.matching opts) := by
  refine ⟨storage.query_eq_page opts, ?_, ?_⟩
  · intro limit offset
    rw [← storage.matching_with_page opts limit offset]
    exact storage.count_eq_length _
  · intro hlimit
    have hpos : 0 < opts.limit.toNat := Int.lt_toNat.mpr hlimit
    have hcover : (storage.matching opts).length ≤
        (storage.count opts / opts.limit.toNat + 1) * opts.limit.toNat := by
      rw [storage.count_eq_length]
      exact (Nat.lt_div_mul_add hpos).le.trans_eq (Nat.succ_mul _ _).symm
    calc
      _ = (List.range (storage.count opts / opts.limit.toNat + 1)).flatMap fun i =>
            Paging.page opts.limit.toNat (i * opts.limit.toNat) (storage.matching opts) := by
        simp only [AuditService.query, storage.query_atPage opts hlimit]
      _ = storage.matching opts := Paging.flatMap_page_of_le hcover

def threeEntries : Storage Unit :=
  .memory { entries := [clientEntry, { clientEntry with id := ['2'] }, clientEntry], maxSize := 5 }

/-- Three entries come in pages of two, from the newest on. -/
theorem pages_complete_three :
    (AuditService.query threeEntries (QueryOptions.atPage { limit := 2 } 0)).1 ++
        (AuditService.query threeEntries (QueryOptions.atPage { limit := 2 } 1)).1 =
      [clientEntry, { clientEntry with id := ['2'] }, clientEntry] := by
  have hpages := (pages_complete threeEntries { limit := 2 }).2.2 (by decide)
  have hcount : (AuditService.query threeEntries { limit := 2 }).2 / (2 : ℤ).toNat + 1 = 2 := by
    decide
  rw [hcount] at hpages
  exact hpages

end GrpcVault.Audit
