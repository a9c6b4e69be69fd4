import GrpcVault.Policy

/-!
# Patterns and segments

A pattern is meant to be read segment by segment. For patterns without `**` the three
ways of `pathMatches` to compare come to that. A final `**` is compared as text: a target
that only extends the last segment of the pattern's stem matches as well.
-/

namespace GrpcVault.Acl

open GoText GoPath

def segments (path : Str) : List Str := split '/' (trim '/' path)

section Segmentwise

def SegmentMatches (p t : Str) : Prop := p = ['*'] ∨ p = t

theorem pathMatches_pad (pattern target : Str) (m n m' n' : ℕ) :
    pathMatches (List.replicate m '/' ++ pattern ++ List.replicate n '/')
      (List.replicate m' '/' ++ target ++ List.replicate n' '/') =
        pathMatches pattern target := by
  unfold pathMatches
  rw [trim_pad, trim_pad]

theorem forall₂_segmentMatches_of_no_star {pattern target : Str} (hstar : '*' ∉ pattern) :
    List.Forall₂ SegmentMatches (split '/' pattern) (split '/' target) ↔ pattern = target := by
  have hsegment : ∀ p ∈ split '/' pattern, ∀ t, SegmentMatches p t ↔ p = t := by
    intro p hp t
    refine or_iff_right ?_
    rintro rfl
    exact hstar (mem_of_mem_split hp List.mem_cons_self)
  constructor
  · intro h
    obtain ⟨hlength, hzip⟩ := List.forall₂_iff_zip.mp h
    have heq : List.Forall₂ Eq (split '/' pattern) (split '/' target) :=
      List.forall₂_iff_zip.mpr ⟨hlength, fun hmem =>
        (hsegment _ (List.of_mem_zip hmem).1 _).mp (hzip hmem)⟩
    rw [List.forall₂_eq_eq_eq] at heq
    exact split_injective '/' heq
  · rintro rfl
    exact List.forall₂_same.mpr fun p _ => .inr rfl

theorem pathMatches_iff_forall₂ {pattern : Str} (hglob : ¬ "**".toList <:+: pattern)
    (hany : '?' ∉ pattern) (hclass : '[' ∉ pattern) (hesc : '\\' ∉ pattern) (target : Str) :
    pathMatches pattern target = true ↔
      List.Forall₂ SegmentMatches (segments pattern) (segments target) := by
  have hsub := trim_infix '/' pattern
  have hsuffix : ¬ "**".toList <:+ trim '/' pattern := fun h => hglob (h.isInfix.trans hsub)
  unfold pathMatches segments
  simp only [List.isSuffixOf_iff_suffix]
  rw [if_neg hsuffix]
  by_cases hstar : '*' ∈ trim '/' pattern
  · rw [if_pos hstar, List.forall₂_iff_zip]
    by_cases hlength : (split '/' (trim '/' pattern)).length = (split '/' (trim '/' target)).length
    · simp only [hlength, ne_eq, not_true_eq_false, if_false, true_and, List.all_eq_true,
        Prod.forall, decide_eq_true_eq, SegmentMatches]
    · simp [hlength]
  · rw [if_neg hstar, forall₂_segmentMatches_of_no_star hstar]
    have hliteral := pathMatch_literal hstar (fun h => hany (hsub.mem h))
      (fun h => hclass (hsub.mem h)) (fun h => hesc (hsub.mem h)) (trim '/' target)
    by_cases heq : trim '/' pattern = trim '/' target
    · simp [heq]
    · rw [if_neg heq, hliteral]

/-- A pattern without `**` is compared segment by segment, and slashes at the ends of the
pattern or of the target do not matter. -/
theorem pathMatches_segmentwise (pattern : Str) (hglob : ¬ "**".toList <:+: pattern)
    (hany : '?' ∉ pattern) (hclass : '[' ∉ pattern) (hesc : '\\' ∉ pattern) (target : Str) :
    (pathMatches pattern target = true ↔
      List.Forall₂ SegmentMatches (segments pattern) (segments target)) ∧
    ∀ m n m' n', pathMatches (List.replicate m '/' ++ pattern ++ List.replicate n '/')
      (List.replicate m' '/' ++ target ++ List.replicate n' '/') = pathMatches pattern target :=
  ⟨pathMatches_iff_forall₂ hglob hany hclass hesc target, pathMatches_pad pattern target⟩

theorem pathMatches_segmentwise_doubled :
    pathMatches "secret/*//x".toList "/secret/a//x/".toList = true :=
  (pathMatches_segmentwise "secret/*//x".toList (by decide) (by decide) (by decide) (by decide)
    "/secret/a//x/".toList).1.mpr
      (.cons (.inr rfl) (.cons (.inl rfl) (.cons (.inr rfl) (.cons (.inr rfl) .nil))))

end Segmentwise

section Globstar

/-- What stands before the final `/**` of a pattern. -/
structure PathStem where
  parts : List Str
  nonempty : parts ≠ []
  proper : ∀ part ∈ parts, part ≠ [] ∧ '/' ∉ part

namespace PathStem

variable (stem : PathStem)

def text : Str := ['/'].intercalate stem.parts

def pattern : Str := stem.text ++ "/**".toList

theorem text_head : ∃ c rest, stem.text = c :: rest ∧ c ≠ '/' := by
  obtain ⟨part, parts, hparts⟩ := List.exists_cons_of_ne_nil stem.nonempty
  obtain ⟨hne, hslash⟩ := stem.proper part (hparts ▸ List.mem_cons_self)
  obtain ⟨c, rest, rfl⟩ := List.exists_cons_of_ne_nil hne
  have hc : c ≠ '/' := fun h => hslash (h ▸ List.mem_cons_self)
  unfold text
  rw [hparts]
  by_cases h : parts = []
  · exact ⟨c, rest, by rw [h, List.intercalate_singleton], hc⟩
  · exact ⟨c, _, by rw [List.intercalate_cons_of_ne_nil h]; rfl, hc⟩

theorem trim_pattern : trim '/' stem.pattern = stem.pattern := by
  obtain ⟨c, rest, htext, hc⟩ := stem.text_head
  have hpattern : stem.pattern = (stem.text ++ "/*".toList) ++ ['*'] := by
    simp [pattern]
  rw [hpattern]
  refine trim_eq_self ?_ (by decide)
  simpa [htext] using hc

theorem pathMatches_pattern (target : Str) :
    pathMatches stem.pattern target = true ↔ stem.text <+: trim '/' target := by
  have hcut : trimSuffix stem.pattern "**".toList = stem.text ++ ['/'] := by
    have hpattern : stem.pattern = (stem.text ++ ['/']) ++ "**".toList := by
      simp [pattern]
    rw [hpattern, trimSuffix_append]
  have hsuffix : "**".toList.isSuffixOf stem.pattern = true := by
    rw [List.isSuffixOf_iff_suffix]
    exact (List.suffix_append ['/'] "**".toList).trans (List.suffix_append stem.text _)
  unfold pathMatches
  simp only [stem.trim_pattern, hsuffix, if_true, hcut, trimSuffix_append]
  exact List.isPrefixOf_iff_prefix

theorem prefix_segments_iff (target : Str) :
    stem.parts <+: segments target ↔
      trim '/' target = stem.text ∨ ∃ rest, trim '/' target = stem.text ++ '/' :: rest :=
  prefix_split_iff stem.nonempty (fun part h => (stem.proper part h).2) _

end PathStem

/-- A stem followed by `/**` matches exactly the targets that are the stem or lie below it,
unless the target goes on after the text of the stem with something other than a slash. -/
theorem globstar_segmentwise_iff (stem : PathStem) (target : Str) :
    (pathMatches stem.pattern target = true ↔ stem.parts <+: segments target) ↔
      ∀ c rest, trim '/' target = stem.text ++ c :: rest → c = '/' := by
  rw [stem.pathMatches_pattern, stem.prefix_segments_iff]
  constructor
  · intro h c rest htarget
    obtain heq | ⟨rest', heq⟩ := h.mp ⟨c :: rest, htarget.symm⟩
    · simp [htarget] at heq
    · rw [htarget, List.append_cancel_left_eq] at heq
      exact List.head_eq_of_cons_eq heq
  · intro h
    constructor
    · rintro ⟨tail, htail⟩
      cases tail with
      | nil => exact .inl (by simpa using htail.symm)
      | cons c rest =>
          obtain rfl := h c rest htail.symm
          exact .inr ⟨rest, htail.symm⟩
    · rintro (heq | ⟨rest, heq⟩)
      · exact heq ▸ List.prefix_refl _
      · exact heq ▸ List.prefix_append _ _

def appStem : PathStem where
  parts := ["secret".toList, "app".toList]
  nonempty := by decide
  proper := by decide

/-- The sibling `secret/apple` passes for something below `secret/app`. -/
theorem globstar_crosses_segment :
    appStem.pattern = "secret/app/**".toList ∧
      pathMatches appStem.pattern "secret/apple".toList = true ∧
      ¬ appStem.parts <+: segments "secret/apple".toList := by
  decide

end Globstar

end GrpcVault.Acl
