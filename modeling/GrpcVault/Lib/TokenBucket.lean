import Mathlib

/-!
# Admissions in windows of time

A limiter with a rate and a burst is to admit at most `burst + rate * T` requests in any
window of `T` seconds: `Within`, for times in nanoseconds. `Within.append` puts two lists of
admissions together, where the first leaves nothing to be refilled (`Refilled`) at the time
that separates them. `bucket`, a token bucket that counts in billionths of a token, is a
limiter with this property.
-/

namespace TokenBucket

def second : ℤ := 10 ^ 9

variable {rate burst : ℕ} {times earlier later : List ℤ} {u v cut : ℤ}

def countIn (u v : ℤ) (times : List ℤ) : ℕ := times.countP fun t => u ≤ t ∧ t ≤ v

@[simp] theorem countIn_nil : countIn u v [] = 0 := rfl

theorem countIn_append : countIn u v (earlier ++ later) = countIn u v earlier + countIn u v later :=
  List.countP_append

theorem countIn_cons {t : ℤ} :
    countIn u v (t :: times) = countIn u v times + if u ≤ t ∧ t ≤ v then 1 else 0 := by
  simp [countIn, List.countP_cons]

theorem countIn_congr {u' v' : ℤ} (h : ∀ t ∈ times, u ≤ t ∧ t ≤ v ↔ u' ≤ t ∧ t ≤ v') :
    countIn u v times = countIn u' v' times :=
  List.countP_congr fun t ht => by simpa using h t ht

theorem countIn_eq_zero (h : ∀ t ∈ times, ¬(u ≤ t ∧ t ≤ v)) : countIn u v times = 0 :=
  List.countP_eq_zero.mpr fun t ht => by simpa using h t ht

/-- At most `burst + rate * T` of the times in any window of `T` seconds. -/
def Within (rate burst : ℕ) (times : List ℤ) : Prop :=
  ∀ u v, u ≤ v → second * countIn u v times ≤ second * burst + rate * (v - u)

/-- What has been taken at the times is refilled at `cut`. -/
def Refilled (rate : ℕ) (times : List ℤ) (cut : ℤ) : Prop :=
  ∀ u ≤ cut, second * countIn u cut times ≤ rate * (cut - u)

theorem within_nil : Within rate burst [] := by
  intro u v huv
  have hb : 0 ≤ second * burst := by unfold second; positivity
  have hr : 0 ≤ rate * (v - u) := mul_nonneg (by positivity) (by omega)
  simp only [countIn_nil, Nat.cast_zero, mul_zero]
  omega

theorem refilled_nil : Refilled rate [] cut := by
  intro u hu
  have hr : 0 ≤ rate * (cut - u) := mul_nonneg (by positivity) (by omega)
  simpa using hr

/-- A bucket that starts full at `cut` adds nothing to what is refilled by then. -/
theorem Within.append (hearlier : Within rate burst earlier) (hlater : Within rate burst later)
    (hle : ∀ t ∈ earlier, t ≤ cut) (hge : ∀ t ∈ later, cut ≤ t)
    (hrefilled : Refilled rate earlier cut) : Within rate burst (earlier ++ later) := by
  intro u v huv
  rw [countIn_append]
  rcases lt_or_ge v cut with hv | hv
  · have hzero : countIn u v later = 0 := countIn_eq_zero fun t ht h => by
      have := hge t ht
      omega
    simpa [hzero] using hearlier u v huv
  rcases lt_or_ge cut u with hu | hu
  · have hzero : countIn u v earlier = 0 := countIn_eq_zero fun t ht h => by
      have := hle t ht
      omega
    simpa [hzero] using hlater u v huv
  have hfirst : countIn u v earlier = countIn u cut earlier := countIn_congr fun t ht => by
    have := hle t ht
    omega
  have hsecond : countIn u v later = countIn cut v later := countIn_congr fun t ht => by
    have := hge t ht
    omega
  have hbefore := hrefilled u hu
  have hafter := hlater cut v hv
  have hsplit : (rate : ℤ) * (v - u) = rate * (cut - u) + rate * (v - cut) := by ring
  rw [hfirst, hsecond, Nat.cast_add, mul_add, hsplit]
  omega

theorem Refilled.mono {cut' : ℤ} (h : Refilled rate times cut) (hle : ∀ t ∈ times, t ≤ cut)
    (hcut : cut ≤ cut') : Refilled rate times cut' := by
  intro u hu
  rcases lt_or_ge cut u with hlt | hge
  · have hzero : countIn u cut' times = 0 := countIn_eq_zero fun t ht h => by
      have := hle t ht
      omega
    have hr : 0 ≤ rate * (cut' - u) := mul_nonneg (by positivity) (by omega)
    simpa [hzero] using hr
  · have hcount : countIn u cut' times = countIn u cut times := countIn_congr fun t ht => by
      have := hle t ht
      omega
    have hmono : (rate : ℤ) * (cut - u) ≤ rate * (cut' - u) :=
      mul_le_mul_of_nonneg_left (by omega) (by positivity)
    rw [hcount]
    exact (h u hge).trans hmono

theorem Within.refilled {idle last : ℤ} (h : Within rate burst times) (hle : ∀ t ∈ times, t ≤ last)
    (hidle : second * burst ≤ rate * idle) (hnonneg : 0 ≤ idle) (hcut : last + idle ≤ cut) :
    Refilled rate times cut := by
  have hbase : Refilled rate times (last + idle) := by
    intro u hu
    rcases lt_or_ge last u with hlt | hge
    · have hzero : countIn u (last + idle) times = 0 := countIn_eq_zero fun t ht h => by
        have := hle t ht
        omega
      have hr : 0 ≤ rate * (last + idle - u) := mul_nonneg (by positivity) (by omega)
      simpa [hzero] using hr
    · have hcount : countIn u (last + idle) times = countIn u last times :=
        countIn_congr fun t ht => by
          have := hle t ht
          omega
      have hsplit : (rate : ℤ) * (last + idle - u) = rate * idle + rate * (last - u) := by ring
      have hwindow := h u last hge
      rw [hcount, hsplit]
      omega
  refine hbase.mono (fun t ht => ?_) hcut
  have := hle t ht
  omega

/-- A limiter as its users see it: created with its parameters, then asked at given times. -/
structure Limiter (L : Type*) where
  newLimiter : (rate burst : ℕ) → L
  allow : L → ℤ → L × Bool

namespace Limiter

variable {L : Type*} (lib : Limiter L)

def after (l : L) (attempts : List ℤ) : L := attempts.foldl (fun l t => (lib.allow l t).1) l

def admitted : L → List ℤ → List ℤ
  | _, [] => []
  | l, t :: ts => (if (lib.allow l t).2 then [t] else []) ++ admitted (lib.allow l t).1 ts

def Lawful : Prop := ∀ rate burst attempts, attempts.Pairwise (· ≤ ·) →
  Within rate burst (lib.admitted (lib.newLimiter rate burst) attempts)

theorem after_snoc (l : L) (attempts : List ℤ) (t : ℤ) :
    lib.after l (attempts ++ [t]) = (lib.allow (lib.after l attempts) t).1 := by
  simp [after]

theorem admitted_snoc (l : L) (attempts : List ℤ) (t : ℤ) :
    lib.admitted l (attempts ++ [t]) =
      lib.admitted l attempts ++ if (lib.allow (lib.after l attempts) t).2 then [t] else [] := by
  induction attempts generalizing l with
  | nil => exact List.append_nil _
  | cons t' ts ih =>
      rw [List.cons_append, admitted, ih, admitted, List.append_assoc]
      rfl

theorem mem_of_mem_admitted {l : L} {attempts : List ℤ} {t : ℤ} (h : t ∈ lib.admitted l attempts) :
    t ∈ attempts := by
  induction attempts generalizing l with
  | nil => exact h
  | cons t' ts ih =>
      rw [admitted, List.mem_append] at h
      rcases h with h | h
      · split_ifs at h
        · exact List.mem_cons.mpr (.inl (List.mem_singleton.mp h))
        · exact absurd h List.not_mem_nil
      · exact List.mem_cons_of_mem _ (ih h)

end Limiter

/-- A token bucket. The level counts billionths of a token; a bucket that has never been asked
is full. -/
structure Bucket where
  rate : ℕ
  burst : ℕ
  level : ℤ
  last : Option ℤ
  deriving DecidableEq

namespace Bucket

/-- The level at time `t`, after the refill since the last request. -/
def levelAt (b : Bucket) (t : ℤ) : ℤ :=
  match b.last with
  | none => b.level
  | some last => min (second * b.burst) (b.level + b.rate * max 0 (t - last))

def allow (b : Bucket) (t : ℤ) : Bucket × Bool :=
  if second ≤ b.levelAt t then
    ({ b with level := b.levelAt t - second, last := some t }, true)
  else ({ b with level := b.levelAt t, last := some t }, false)

end Bucket

def bucket : Limiter Bucket where
  newLimiter rate burst := { rate, burst, level := second * burst, last := none }
  allow := Bucket.allow

/-- The bucket holds no more than it can, and no request has come after `t`. -/
structure Bucket.Sound (b : Bucket) (t : ℤ) : Prop where
  nonneg : 0 ≤ b.level
  le : b.level ≤ second * b.burst
  last : ∀ last ∈ b.last, last ≤ t

variable {b : Bucket} {t : ℤ}

theorem Bucket.Sound.mono {t' : ℤ} (h : b.Sound t) (ht : t ≤ t') : b.Sound t' :=
  ⟨h.nonneg, h.le, fun last hlast => (h.last last hlast).trans ht⟩

theorem Bucket.Sound.levelAt_le (h : b.Sound t) : b.levelAt t ≤ second * b.burst := by
  unfold levelAt
  cases b.last with
  | none => exact h.le
  | some last => exact min_le_left _ _

theorem Bucket.Sound.levelAt_nonneg (h : b.Sound t) : 0 ≤ b.levelAt t := by
  have hrefill : ∀ last, 0 ≤ b.rate * max 0 (t - last) := fun last =>
    mul_nonneg (by positivity) (le_max_left _ _)
  unfold levelAt
  cases b.last with
  | none => exact h.nonneg
  | some last => exact le_min (h.nonneg.trans h.le) (add_nonneg h.nonneg (hrefill last))

theorem Bucket.Sound.levelAt_later {t' : ℤ} (h : b.Sound t) (ht : t ≤ t') :
    b.levelAt t' ≤ b.levelAt t + b.rate * (t' - t) := by
  have hrefill : 0 ≤ b.rate * (t' - t) := mul_nonneg (by positivity) (by omega)
  unfold levelAt
  cases hlast : b.last with
  | none => simpa using hrefill
  | some last =>
      have hle : last ≤ t := h.last last hlast
      have hmax : max 0 (t' - last) = max 0 (t - last) + (t' - t) := by omega
      simp only [hmax, mul_add]
      omega

theorem Bucket.allow_level (b : Bucket) (t : ℤ) :
    second * (if (b.allow t).2 then 1 else 0) + (b.allow t).1.level = b.levelAt t := by
  unfold allow
  by_cases h : second ≤ b.levelAt t
  · simp [h]
  · simp [h]

@[simp] theorem Bucket.allow_rate (b : Bucket) (t : ℤ) : (b.allow t).1.rate = b.rate := by
  unfold allow
  split_ifs <;> rfl

@[simp] theorem Bucket.allow_burst (b : Bucket) (t : ℤ) : (b.allow t).1.burst = b.burst := by
  unfold allow
  split_ifs <;> rfl

theorem Bucket.allow_last (b : Bucket) (t : ℤ) : (b.allow t).1.last = some t := by
  unfold allow
  split_ifs <;> rfl

theorem Bucket.Sound.allow (h : b.Sound t) : (b.allow t).1.Sound t := by
  have hnonneg := h.levelAt_nonneg
  have hle := h.levelAt_le
  have hlevel := b.allow_level t
  refine ⟨?_, ?_, ?_⟩
  · unfold Bucket.allow
    split_ifs with hfull
    · exact sub_nonneg.mpr hfull
    · exact hnonneg
  · rw [b.allow_burst]
    have hsecond : 0 ≤ second := by decide
    split_ifs at hlevel <;> omega
  · rw [b.allow_last]
    intro last hlast
    exact le_of_eq (Option.some.inj hlast).symm

theorem Bucket.levelAt_allow (b : Bucket) (t : ℤ) : (b.allow t).1.levelAt t ≤ (b.allow t).1.level := by
  simp [levelAt, b.allow_last]

theorem countIn_admitted_cons (b : Bucket) (t : ℤ) (ts : List ℤ) :
    countIn u v (bucket.admitted b (t :: ts)) =
      (if (b.allow t).2 ∧ u ≤ t ∧ t ≤ v then 1 else 0) +
        countIn u v (bucket.admitted (b.allow t).1 ts) := by
  rw [Limiter.admitted, countIn_append]
  congr 1
  by_cases hok : (b.allow t).2 = true
  · simp [bucket, hok, countIn_cons]
  · simp [bucket, hok]

theorem countIn_admitted_late {attempts : List ℤ} (h : ∀ x ∈ attempts, v < x) :
    countIn u v (bucket.admitted b attempts) = 0 := by
  refine countIn_eq_zero fun x hx hin => ?_
  have hlate := h x (bucket.mem_of_mem_admitted hx)
  omega

/-- From `t` on a bucket admits what it holds at `t` and what is refilled since. -/
theorem Bucket.Sound.countIn_le {attempts : List ℤ} (h : b.Sound t)
    (hsorted : attempts.Pairwise (· ≤ ·)) (hge : ∀ x ∈ attempts, t ≤ x) (htv : t ≤ v) :
    second * countIn u v (bucket.admitted b attempts) ≤ b.levelAt t + b.rate * (v - t) := by
  have hnonneg : ∀ {b : Bucket} {t : ℤ}, b.Sound t → t ≤ v → 0 ≤ b.levelAt t + b.rate * (v - t) :=
    fun h htv => add_nonneg h.levelAt_nonneg (mul_nonneg (by positivity) (by omega))
  induction attempts generalizing b t with
  | nil => simpa [Limiter.admitted] using hnonneg h htv
  | cons t' ts ih =>
      obtain ⟨hfirst, hsorted⟩ := List.pairwise_cons.mp hsorted
      have ht : t ≤ t' := hge t' List.mem_cons_self
      rcases lt_or_ge v t' with hlate | hle
      · have hzero : countIn u v (bucket.admitted b (t' :: ts)) = 0 := by
          refine countIn_admitted_late fun x hx => ?_
          rcases List.mem_cons.mp hx with rfl | hx
          · exact hlate
          · exact hlate.trans_le (hfirst x hx)
        simpa [hzero] using hnonneg h htv
      · -- The request takes its token out of what there is at `t'`; the rest is the induction.
        have hrest := ih (h.mono ht).allow hsorted hfirst hle
        have hlater := h.levelAt_later ht
        have hlevel := b.allow_level t'
        have hleft := b.levelAt_allow t'
        have hsplit : (b.rate : ℤ) * (v - t) = b.rate * (t' - t) + b.rate * (v - t') := by ring
        rw [b.allow_rate] at hrest
        rw [countIn_admitted_cons, Nat.cast_add, mul_add]
        have hone : second * ((if (b.allow t').2 ∧ u ≤ t' ∧ t' ≤ v then 1 else 0 : ℕ) : ℤ) ≤
            second * (if (b.allow t').2 then 1 else 0) := by
          by_cases hok : (b.allow t').2 = true
          · by_cases hin : u ≤ t' ∧ t' ≤ v
            · simp [hok, hin]
            · simp [hok, hin, second]
          · simp [hok]
        omega

theorem Bucket.Sound.within {attempts : List ℤ} (h : b.Sound t)
    (hsorted : attempts.Pairwise (· ≤ ·)) (hge : ∀ x ∈ attempts, t ≤ x) :
    Within b.rate b.burst (bucket.admitted b attempts) := by
  induction attempts generalizing b t with
  | nil => exact within_nil
  | cons t' ts ih =>
      have hsound := h.mono (hge t' List.mem_cons_self)
      intro u v huv
      rcases lt_or_ge t' u with hearly | hafter
      · -- The first request is before the window.
        obtain ⟨hfirst, hsorted⟩ := List.pairwise_cons.mp hsorted
        have hrest := ih hsound.allow hsorted hfirst u v huv
        rw [countIn_admitted_cons, if_neg (by omega), zero_add]
        simpa using hrest
      have hall : ∀ x ∈ t' :: ts, t' ≤ x := by
        intro x hx
        rcases List.mem_cons.mp hx with rfl | hx
        · exact le_rfl
        · exact (List.pairwise_cons.mp hsorted).1 x hx
      rcases lt_or_ge v t' with hlate | hle
      · have hzero : countIn u v (bucket.admitted b (t' :: ts)) = 0 :=
          countIn_admitted_late fun x hx => hlate.trans_le (hall x hx)
        have hempty : second * countIn u v [] ≤ second * b.burst + b.rate * (v - u) :=
          within_nil u v huv
        rw [hzero]
        exact hempty
      · have hadmitted : second * countIn u v (bucket.admitted b (t' :: ts)) ≤
            b.levelAt t' + b.rate * (v - t') := hsound.countIn_le hsorted hall hle
        have hmono : (b.rate : ℤ) * (v - t') ≤ b.rate * (v - u) :=
          mul_le_mul_of_nonneg_left (by omega) (by positivity)
        have hfull := hsound.levelAt_le
        omega

theorem bucket_lawful : bucket.Lawful := by
  intro rate burst attempts hsorted
  cases attempts with
  | nil => exact within_nil
  | cons t ts =>
      have hsound : (bucket.newLimiter rate burst).Sound t := by
        refine ⟨?_, le_rfl, by simp [bucket]⟩
        exact mul_nonneg (by decide) (by positivity)
      refine hsound.within hsorted fun x hx => ?_
      rcases List.mem_cons.mp hx with rfl | hx
      · exact le_rfl
      · exact (List.pairwise_cons.mp hsorted).1 x hx

end TokenBucket
