import GrpcVault.Lib.GoText

/-!
# Paths and their patterns

Trimming and splitting of slash-separated paths as in package `strings`, and the
matching of shell patterns as in `path.Match`: `*` stands for any run of characters
other than a slash, `?` for one such character, a class in brackets for one character
of the class, and a backslash takes the next character literally. A malformed
pattern matches nothing.
-/

namespace GoPath

open GoText

def trim (c : Char) (s : Str) : Str := (s.dropWhile (· == c)).rdropWhile (· == c)

@[simp] theorem trim_cons_self (c : Char) (s : Str) : trim c (c :: s) = trim c s := by
  simp [trim]

@[simp] theorem trim_concat_self (c : Char) (s : Str) : trim c (s ++ [c]) = trim c s := by
  unfold trim
  rw [List.dropWhile_append]
  split
  · rename_i h
    have hnil : s.dropWhile (· == c) = [] := List.isEmpty_iff.mp h
    simp [hnil]
  · exact List.rdropWhile_concat_pos _ _ _ (beq_self_eq_true c)

theorem trim_pad (c : Char) (s : Str) (m n : ℕ) :
    trim c (List.replicate m c ++ s ++ List.replicate n c) = trim c s := by
  induction m with
  | zero =>
      induction n with
      | zero => simp
      | succ n ih => rw [List.replicate_succ', ← List.append_assoc, trim_concat_self, ih]
  | succ m ih => simpa [List.replicate_succ] using ih

theorem trim_infix (c : Char) (s : Str) : trim c s <:+: s :=
  (List.rdropWhile_prefix _ _).isInfix.trans (List.dropWhile_suffix _).isInfix

theorem trim_eq_self {c d : Char} {s : Str} (hc : (s ++ [d]).head? ≠ some c) (hd : d ≠ c) :
    trim c (s ++ [d]) = s ++ [d] := by
  have hdrop : (s ++ [d]).dropWhile (· == c) = s ++ [d] := by
    cases s with
    | nil => simp [hd]
    | cons a s =>
        have ha : a ≠ c := by simpa using hc
        simp [ha]
  rw [trim, hdrop]
  exact List.rdropWhile_concat_neg _ _ _ (by simpa using hd)

def trimSuffix (s suffix : Str) : Str :=
  if suffix.isSuffixOf s then s.take (s.length - suffix.length) else s

@[simp] theorem trimSuffix_append (s suffix : Str) : trimSuffix (s ++ suffix) suffix = s := by
  simp [trimSuffix]

def split (sep : Char) (s : Str) : List Str := s.splitOn sep

theorem join_split (sep : Char) (s : Str) : [sep].intercalate (split sep s) = s :=
  List.intercalate_splitOn sep

theorem split_injective (sep : Char) : Function.Injective (split sep) :=
  Function.LeftInverse.injective (join_split sep)

theorem split_ne_nil (sep : Char) (s : Str) : split sep s ≠ [] :=
  List.splitOnP_ne_nil _ s

theorem join_append (sep : Char) {l₁ l₂ : List Str} (h₁ : l₁ ≠ []) (h₂ : l₂ ≠ []) :
    [sep].intercalate (l₁ ++ l₂) = [sep].intercalate l₁ ++ sep :: [sep].intercalate l₂ := by
  induction l₁ with
  | nil => contradiction
  | cons s l₁ ih =>
      by_cases hl : l₁ = []
      · rw [hl, List.singleton_append, List.intercalate_cons_of_ne_nil h₂]
        simp
      · rw [List.cons_append, List.intercalate_cons_of_ne_nil (by simp [hl]), ih hl,
          List.intercalate_cons_of_ne_nil hl]
        simp

theorem split_cons (sep c : Char) (s : Str) :
    split sep (c :: s) =
      if c = sep then [] :: split sep s else (split sep s).modifyHead (c :: ·) := by
  simp [split, List.splitOn, List.splitOnP_cons_eq_if_modifyHead]

theorem mem_of_mem_split {sep c : Char} {s seg : Str} (hseg : seg ∈ split sep s) (hc : c ∈ seg) :
    c ∈ s := by
  induction s generalizing seg with
  | nil =>
      have : seg = [] := by simpa [split] using hseg
      simp [this] at hc
  | cons d s ih =>
      rw [split_cons] at hseg
      split at hseg
      · obtain rfl | hseg := List.mem_cons.mp hseg
        · simp at hc
        · exact List.mem_cons_of_mem _ (ih hseg hc)
      · obtain ⟨first, rest, hs⟩ := List.exists_cons_of_ne_nil (split_ne_nil sep s)
        rw [hs, List.modifyHead_cons] at hseg
        obtain rfl | hseg := List.mem_cons.mp hseg
        · obtain rfl | hc := List.mem_cons.mp hc
          · exact List.mem_cons_self
          · exact List.mem_cons_of_mem _ (ih (hs ▸ List.mem_cons_self) hc)
        · exact List.mem_cons_of_mem _ (ih (hs ▸ List.mem_cons_of_mem _ hseg) hc)

theorem prefix_split_iff {sep : Char} {l : List Str} (hne : l ≠ []) (hl : ∀ seg ∈ l, sep ∉ seg)
    (s : Str) :
    l <+: split sep s ↔
      s = [sep].intercalate l ∨ ∃ rest, s = [sep].intercalate l ++ sep :: rest := by
  constructor
  · rintro ⟨l', hl'⟩
    rw [← join_split sep s, ← hl']
    by_cases h : l' = []
    · left
      rw [h, List.append_nil]
    · right
      exact ⟨_, join_append sep hne h⟩
  · rintro (rfl | ⟨rest, rfl⟩)
    · rw [split, List.splitOn_intercalate sep hl hne]
    · rw [split, List.splitOn_append_cons_self, List.splitOn_intercalate sep hl hne]
      exact List.prefix_append _ _

/-- One end of a range in a character class. Text has to follow it. -/
def getEsc : (s : Str) → Option (Char × { rest : Str // rest.length < s.length })
  | [] => none
  | [_] => none
  | c :: d :: rest =>
      if c = '-' ∨ c = ']' then none
      else if c = '\\' then
        if rest = [] then none else some (d, ⟨rest, by simp⟩)
      else some (c, ⟨d :: rest, by simp⟩)

/-- A range of a character class; a single character is a range of its own. -/
def getRange (s : Str) : Option ((Char × Char) × { rest : Str // rest.length < s.length }) :=
  match getEsc s with
  | none => none
  | some (lo, rest) =>
      if rest.1.head? = some '-' then
        (getEsc rest.1.tail).map fun (hi, rest') =>
          ((lo, hi), ⟨rest'.1, by have := rest'.2; have := rest.2; simp at *; omega⟩)
      else some ((lo, lo), rest)

/-- The ranges of a class up to its closing bracket, which closes only a class that has a
range already. -/
def classRanges (s : Str) (started : Bool) :
    Option (List (Char × Char) × { rest : Str // rest.length < s.length }) :=
  match s, started with
  | ']' :: rest, true => some ([], ⟨rest, by simp⟩)
  | s, _ =>
      match getRange s with
      | none => none
      | some (range, ⟨rest, h⟩) =>
          (classRanges rest true).map fun (ranges, rest') =>
            (range :: ranges, ⟨rest'.1, rest'.2.trans h⟩)
termination_by s.length

/-- A class after its opening bracket: whether it is negated, its ranges, and the rest. -/
def charClass (s : Str) :
    Option (Bool × List (Char × Char) × { rest : Str // rest.length < s.length }) :=
  match s with
  | '^' :: s =>
      (classRanges s false).map fun (ranges, rest) =>
        (true, ranges, ⟨rest.1, by have := rest.2; simp; omega⟩)
  | s => (classRanges s false).map fun (ranges, rest) => (false, ranges, rest)

def pathMatch (pattern name : Str) : Bool :=
  match pattern, name with
  | [], name => name.isEmpty
  | '*' :: pattern, [] => pathMatch pattern []
  | '*' :: pattern, c :: name =>
      pathMatch pattern (c :: name) || (c != '/' && pathMatch ('*' :: pattern) name)
  | _ :: _, [] => false
  | '?' :: pattern, c :: name => c != '/' && pathMatch pattern name
  | '[' :: pattern, c :: name =>
      match charClass pattern with
      | none => false
      | some (negated, ranges, ⟨rest, _⟩) =>
          (ranges.any fun (lo, hi) => lo ≤ c && c ≤ hi) != negated && pathMatch rest name
  | ['\\'], _ :: _ => false
  | '\\' :: d :: pattern, c :: name => d == c && pathMatch pattern name
  | d :: pattern, c :: name => d == c && pathMatch pattern name
termination_by pattern.length + name.length
decreasing_by all_goals (simp; try omega)

theorem pathMatch_literal {pattern : Str} (hstar : '*' ∉ pattern) (hany : '?' ∉ pattern)
    (hclass : '[' ∉ pattern) (hesc : '\\' ∉ pattern) (name : Str) :
    pathMatch pattern name = true ↔ pattern = name := by
  induction pattern generalizing name with
  | nil => rw [pathMatch, List.isEmpty_iff, eq_comm]
  | cons d pattern ih =>
      simp only [List.mem_cons, not_or] at hstar hany hclass hesc
      cases name with
      | nil =>
          rw [pathMatch]
          · simp
          · exact fun h => hstar.1 h.symm
      | cons c name =>
          rw [pathMatch]
          · simp [ih hstar.2 hany.2 hclass.2 hesc.2 name]
          all_goals grind

end GoPath
