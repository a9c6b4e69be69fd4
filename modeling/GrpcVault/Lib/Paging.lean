import Mathlib

/-!
# Pages of a list

A list read page by page, `limit` elements at a time. The pages of one list put together are
the list (`flatMap_page_of_le`). If every page is cut from an order of its own, the pages have
every element once for all choices of the orders only if there is no second page
(`pages_of_orders_iff`).
-/

namespace Paging

variable {α : Type*} {limit : ℕ}

def page (limit offset : ℕ) (l : List α) : List α := (l.drop offset).take limit

def pageCount (n limit : ℕ) : ℕ := (n + limit - 1) / limit

theorem flatMap_page (limit k : ℕ) (l : List α) :
    ((List.range k).flatMap fun i => page limit (i * limit) l) = l.take (k * limit) := by
  induction k with
  | zero => simp
  | succ k ih =>
      rw [List.range_succ, List.flatMap_append, ih, List.flatMap_singleton, page,
        Nat.succ_mul, List.take_add]

theorem flatMap_page_of_le {k : ℕ} {l : List α} (h : l.length ≤ k * limit) :
    ((List.range k).flatMap fun i => page limit (i * limit) l) = l := by
  rw [flatMap_page, List.take_of_length_le h]

theorem lt_pageCount_iff {i n : ℕ} (hlimit : 0 < limit) :
    i < pageCount n limit ↔ i * limit < n := by
  rw [pageCount, ← Nat.succ_le_iff, Nat.le_div_iff_mul_le hlimit, Nat.succ_mul]
  omega

/-- A choice of some elements, in any order, is what an order of all of them shows of it. -/
theorem exists_perm_filter {p : α → Bool} {l f : List α} (h : f.Perm (l.filter p)) :
    ∃ l' : List α, l'.Perm l ∧ l'.filter p = f := by
  refine ⟨f ++ l.filter (fun x => !p x), ?_, ?_⟩
  · exact (h.append_right _).trans (List.filter_append_perm p l)
  · have hf : ∀ x ∈ f, p x = true := fun x hx => (List.mem_filter.mp (h.mem_iff.mp hx)).2
    have hrest : (l.filter fun x => !p x).filter p = [] := by
      rw [List.filter_filter, List.filter_eq_nil_iff]
      simp
    rw [List.filter_append, List.filter_eq_self.mpr hf, hrest, List.append_nil]

theorem exists_order_repeating {x : α} {f : List α} (h : limit ≤ f.length) (hlimit : 0 < limit) :
    ∃ f' : List α, f'.Perm (x :: f) ∧ x ∈ page limit limit f' := by
  refine ⟨f.take limit ++ x :: f.drop limit, ?_, ?_⟩
  · refine List.perm_middle.trans ?_
    rw [List.take_append_drop]
  · have hlength : (f.take limit).length = limit := by rw [List.length_take, min_eq_left h]
    have hdrop : (f.take limit ++ x :: f.drop limit).drop limit = x :: f.drop limit :=
      List.drop_left' hlength
    rw [page, hdrop, List.mem_take_iff_getElem]
    exact ⟨0, by simpa using hlimit, rfl⟩

theorem not_nodup_pages {k : ℕ} (pages : ℕ → List α) {x : α} (hk : 2 ≤ k) (h₀ : x ∈ pages 0)
    (h₁ : x ∈ pages 1) : ¬ ((List.range k).flatMap pages).Nodup := by
  obtain ⟨k, rfl⟩ := Nat.exists_eq_add_of_le' hk
  rw [List.range_succ_eq_map, List.flatMap_cons, List.nodup_append]
  rintro ⟨_, _, hdisjoint⟩
  refine hdisjoint x h₀ x ?_ rfl
  rw [List.mem_flatMap]
  exact ⟨1, List.mem_map.mpr ⟨0, by simp, rfl⟩, h₁⟩

/-- Pages cut from orders of their own, each of the same elements, have every element once
whatever the orders are exactly if there is no second page. -/
theorem pages_of_orders_iff {f : List α} (hf : f.Nodup) (hlimit : 0 < limit) :
    (∀ orders : ℕ → List α, (∀ i, (orders i).Perm f) →
      ((List.range (pageCount f.length limit)).flatMap fun i =>
        page limit (i * limit) (orders i)).Perm f) ↔
      f.length ≤ limit := by
  constructor
  · intro h
    by_contra hlong
    obtain ⟨x, rest, rfl⟩ := List.exists_cons_of_ne_nil
      (List.ne_nil_of_length_pos (l := f) (by omega))
    rw [not_le, List.length_cons] at hlong
    obtain ⟨f', hperm, hagain⟩ := exists_order_repeating (x := x) (Nat.lt_succ_iff.mp hlong) hlimit
    have hpages := h (fun i => if i = 1 then f' else x :: rest) (by
      intro i
      split_ifs
      · exact hperm
      · exact List.Perm.refl _)
    have hcount : 2 ≤ pageCount (x :: rest).length limit := by
      rw [Nat.succ_le_iff, lt_pageCount_iff hlimit, List.length_cons]
      omega
    refine not_nodup_pages _ hcount (x := x) ?_ ?_ (hpages.nodup_iff.mpr hf)
    · obtain ⟨m, rfl⟩ := Nat.exists_eq_add_of_lt hlimit
      simp [page]
    · simpa using hagain
  · intro h orders horders
    obtain hnil | hpos := Nat.eq_zero_or_pos f.length
    · have hcount : pageCount f.length limit = 0 := by
        rw [hnil, pageCount, Nat.zero_add, Nat.div_eq_of_lt (by omega)]
      rw [hcount, List.length_eq_zero_iff.mp hnil]
      exact List.Perm.refl _
    · have hcount : pageCount f.length limit = 1 := by
        have hone : 0 < pageCount f.length limit := by
          rwa [lt_pageCount_iff hlimit, Nat.zero_mul]
        have htwo : ¬ 1 < pageCount f.length limit := by
          rw [lt_pageCount_iff hlimit]
          omega
        omega
      rw [hcount, List.range_one, List.flatMap_singleton, Nat.zero_mul, page, List.drop_zero,
        List.take_of_length_le ((horders 0).length_eq.trans_le h)]
      exact horders 0

end Paging
