import GrpcVault.RateLimiter

/-!
# The rate of a client

A limiter bounds what it admits itself. That bounds what the client is admitted as long as a
fresh limiter only replaces one that no call uses any more and that would be full again
(`Separated`). `Metered` says how the client's admissions come about in such runs. Two first
requests that store a limiter each are admitted twice the burst. Runs in which the client's
calls are not interleaved with each other nor with a cleanup of its entry are `Separated`, if
the burst is refilled in the idle time after which entries are removed.
-/

namespace GrpcVault.RateLimit

open EventSystem TokenBucket

variable {κ L : Type} [DecidableEq κ]

def Event.duration : Event κ → ℕ
  | .tick d => d
  | _ => 0

/-- The time, if the event is an answer that lets a request of the client pass. -/
def admission (clientID : κ) (now : ℤ) : Event κ × Output → Option ℤ
  | (.call id (.allow _), .allowed true) => if id = clientID then some now else none
  | _ => none

def admissions (clientID : κ) (now : ℤ) (tr : Trace κ) : List ℤ :=
  collect Event.duration (admission clientID) now tr

/-- Nothing but calls that have found no entry is in flight besides `call`. -/
def Slot.Quiet (s : Slot L) (call : ℕ) : Prop :=
  ∀ other stage, other ≠ call → s.calls other = some stage → stage = .missed

/-- Whenever a fresh limiter is stored for the client, no other call is about to use an
earlier one, and what the client has been admitted is refilled. -/
def Separated (lib : Limiter L) (rl : RateLimiter) (clientID : κ) (now : ℤ) (tr : Trace κ) :
    Prop :=
  ∀ tr₁ tr₂ call m, tr = tr₁ ++ (.call clientID (.store call), .done) :: tr₂ →
    Run (step lib rl) (State.init κ L now) tr₁ m →
    (m.slots clientID).Quiet call ∧ Refilled rl.r (admissions clientID now tr₁) m.now

section Slots

variable {lib : Limiter L} {rl : RateLimiter} {now : ℤ} {s s' : Slot L} {o : Output}
  {attempts : List ℤ}

def Slot.Refers (s : Slot L) (i : ℕ) : Prop :=
  s.entry = some i ∨ ∃ call, s.calls call = some (.loaded i) ∨ s.calls call = some (.holding i)

/-- Only the client created last is referred to, and its limiter has been asked at the times
`attempts`. -/
structure Slot.Current (lib : Limiter L) (rl : RateLimiter) (s : Slot L) (attempts : List ℤ) :
    Prop where
  last : ∀ i, s.Refers i → i + 1 = s.created
  limiter : ∀ i c, i + 1 = s.created → s.clients i = some c →
    c.limiter = lib.after (lib.newLimiter rl.r rl.b) attempts

theorem refers_update {calls : ℕ → Option Stage} {call : ℕ} {stage : Option Stage} {i : ℕ}
    (h : ∃ c, Function.update calls call stage c = some (.loaded i) ∨
      Function.update calls call stage c = some (.holding i)) :
    (stage = some (.loaded i) ∨ stage = some (.holding i)) ∨
      ∃ c ≠ call, calls c = some (.loaded i) ∨ calls c = some (.holding i) := by
  obtain ⟨c, hc⟩ := h
  by_cases heq : c = call
  · subst heq
    rw [Function.update_self] at hc
    exact .inl hc
  · rw [Function.update_of_ne heq] at hc
    exact .inr ⟨c, heq, hc⟩

theorem Slot.Current.load (h : s.Current lib rl attempts)
    (hstep : s.call lib rl now .load = some (s', o)) : s'.Current lib rl attempts := by
  cases hstep
  refine ⟨?_, h.limiter⟩
  rintro i (hentry | hcalls)
  · exact h.last i (.inl hentry)
  · rcases refers_update hcalls with hnew | ⟨c, -, hc⟩
    · cases hentry : s.entry with
      | none => simp [hentry] at hnew
      | some j =>
          simp only [hentry, Option.some.injEq, Stage.loaded.injEq, reduceCtorEq, or_false] at hnew
          exact h.last i (.inl (hentry.trans (congrArg some hnew)))
    · exact h.last i (.inr ⟨c, hc⟩)

theorem Slot.Current.touch {call : ℕ} (h : s.Current lib rl attempts)
    (hstep : s.call lib rl now (.touch call) = some (s', o)) : s'.Current lib rl attempts := by
  obtain ⟨i, c, hcall, hc, -, rfl⟩ := Slot.touch_effect hstep
  refine ⟨?_, ?_⟩
  · rintro j (hentry | hcalls)
    · exact h.last j (.inl hentry)
    · rcases refers_update hcalls with hnew | ⟨c', -, hc'⟩
      · simp only [Option.some.injEq, reduceCtorEq, Stage.holding.injEq, false_or] at hnew
        subst hnew
        exact h.last i (.inr ⟨call, .inl hcall⟩)
      · exact h.last j (.inr ⟨c', hc'⟩)
  · intro j c' hj (hc' : Function.update s.clients i _ j = some c')
    by_cases hji : j = i
    · subst hji
      rw [Function.update_self] at hc'
      cases hc'
      exact h.limiter j c hj hc
    · rw [Function.update_of_ne hji] at hc'
      exact h.limiter j c' hj hc'

theorem Slot.Current.store {call : ℕ} (hquiet : s.Quiet call)
    (hstep : s.call lib rl now (.store call) = some (s', o)) : s'.Current lib rl [] := by
  obtain ⟨-, -, rfl⟩ := Slot.store_effect hstep
  refine ⟨?_, ?_⟩
  · rintro j (hentry | hcalls)
    · exact congrArg (· + 1) (Option.some.inj hentry).symm
    · rcases refers_update hcalls with hnew | ⟨c', hne, hc'⟩
      · simp only [Option.some.injEq, reduceCtorEq, Stage.holding.injEq, false_or] at hnew
        exact congrArg (· + 1) hnew.symm
      · rcases hc' with hc' | hc'
        · exact absurd (hquiet c' _ hne hc') (by simp)
        · exact absurd (hquiet c' _ hne hc') (by simp)
  · intro j c' hj (hc' : Function.update s.clients s.created _ j = some c')
    obtain rfl : j = s.created := Nat.succ.inj hj
    rw [Function.update_self] at hc'
    cases hc'
    rfl

theorem Slot.Current.allow {call : ℕ} (h : s.Current lib rl attempts)
    (hstep : s.call lib rl now (.allow call) = some (s', o)) :
    s'.Current lib rl (attempts ++ [now]) ∧
      o = .allowed (lib.allow (lib.after (lib.newLimiter rl.r rl.b) attempts) now).2 := by
  obtain ⟨i, c, hcall, hc, rfl, rfl⟩ := Slot.allow_effect hstep
  have hlast := h.last i (.inr ⟨call, .inr hcall⟩)
  have hlimiter := h.limiter i c hlast hc
  refine ⟨⟨?_, ?_⟩, by rw [hlimiter]⟩
  · rintro j (hentry | hcalls)
    · exact h.last j (.inl hentry)
    · rcases refers_update hcalls with hnew | ⟨c', -, hc'⟩
      · simp at hnew
      · exact h.last j (.inr ⟨c', hc'⟩)
  · intro j c' hj (hc' : Function.update s.clients i _ j = some c')
    obtain rfl : j = i := Nat.succ.inj (hj.trans hlast.symm)
    rw [Function.update_self] at hc'
    cases hc'
    rw [lib.after_snoc, hlimiter]

theorem Slot.Current.sweep {e : SweepStep} (h : s.Current lib rl attempts)
    (hstep : s.sweep rl now e = some (s', o)) : s'.Current lib rl attempts := by
  cases e with
  | visit =>
      obtain ⟨i, c, -, -, rfl⟩ := Slot.visit_effect hstep
      exact ⟨h.last, h.limiter⟩
  | delete =>
      obtain ⟨-, rfl⟩ := Slot.delete_effect hstep
      refine ⟨?_, h.limiter⟩
      rintro i (hentry | hcalls)
      · cases hentry
      · exact h.last i (.inr hcalls)

end Slots

variable {lib : Limiter L} {rl : RateLimiter} {now : ℤ} {clientID : κ} {s s' : State κ L}
  {tr : Trace κ}

theorem admissions_snoc (clientID : κ) (now : ℤ) (tr : Trace κ) (x : Event κ × Output) :
    admissions clientID now (tr ++ [x]) = admissions clientID now tr ++
      (admission clientID (clock Event.duration now tr) x).toList :=
  collect_snoc _ _ now tr x

theorem Separated.before {x : Event κ × Output} (h : Separated lib rl clientID now (tr ++ [x])) :
    Separated lib rl clientID now tr := by
  intro tr₁ tr₂ call m htr hm
  refine h tr₁ (tr₂ ++ [x]) call m ?_ hm
  rw [htr]
  simp

/-- How the client's admissions come about: those by the limiter created last, at `attempts`,
follow others that are refilled at the time `cut` of its creation. -/
structure Metered (lib : Limiter L) (rl : RateLimiter) (clientID : κ) (now : ℤ) (tr : Trace κ)
    (s : State κ L) (earlier attempts : List ℤ) (cut : ℤ) : Prop where
  time : s.now = clock Event.duration now tr
  current : (s.slots clientID).Current lib rl attempts
  admissions_eq : admissions clientID now tr =
    earlier ++ lib.admitted (lib.newLimiter rl.r rl.b) attempts
  sorted : attempts.Pairwise (· ≤ ·)
  since : ∀ t ∈ attempts, cut ≤ t ∧ t ≤ s.now
  cut_le : cut ≤ s.now
  earlier_within : Within rl.r rl.b earlier
  earlier_le : ∀ t ∈ earlier, t ≤ cut
  refilled : Refilled rl.r earlier cut

variable {earlier attempts : List ℤ} {cut : ℤ}

theorem Metered.init (lib : Limiter L) (rl : RateLimiter) (clientID : κ) (now : ℤ) :
    Metered lib rl clientID now [] (State.init κ L now) [] [] now := by
  constructor
  · rfl
  · constructor
    · rintro i (hentry | ⟨call, hcall | hcall⟩)
      · cases hentry
      · cases hcall
      · cases hcall
    · intro i c hi hc
      cases hc
  · rfl
  · exact List.Pairwise.nil
  · simp
  · exact le_rfl
  · exact within_nil
  · simp
  · exact refilled_nil

theorem Metered.within (h : Metered lib rl clientID now tr s earlier attempts cut)
    (hlaw : lib.Lawful) : Within rl.r rl.b (admissions clientID now tr) := by
  rw [h.admissions_eq]
  apply h.earlier_within.append (hlaw _ _ _ h.sorted) h.earlier_le _ h.refilled
  intro t ht
  exact (h.since t (lib.mem_of_mem_admitted ht)).1

theorem Metered.admissions_le (h : Metered lib rl clientID now tr s earlier attempts cut) :
    ∀ t ∈ admissions clientID now tr, t ≤ s.now := by
  intro t ht
  rw [h.admissions_eq, List.mem_append] at ht
  rcases ht with ht | ht
  · exact (h.earlier_le t ht).trans h.cut_le
  · exact (h.since t (lib.mem_of_mem_admitted ht)).2

theorem Metered.keep {x : Event κ × Output}
    (h : Metered lib rl clientID now tr s earlier attempts cut)
    (htime : s'.now = s.now + x.1.duration)
    (hcurrent : (s'.slots clientID).Current lib rl attempts)
    (hadmission : admission clientID s.now x = none) :
    Metered lib rl clientID now (tr ++ [x]) s' earlier attempts cut := by
  have hle : s.now ≤ s'.now := by omega
  refine { h with time := ?_, current := hcurrent, admissions_eq := ?_, since := ?_, cut_le := ?_ }
  · rw [htime, clock_snoc, h.time]
  · rw [admissions_snoc, ← h.time, hadmission, h.admissions_eq]
    simp
  · exact fun t ht => ⟨(h.since t ht).1, (h.since t ht).2.trans hle⟩
  · exact h.cut_le.trans hle

theorem Metered.renew {x : Event κ × Output}
    (h : Metered lib rl clientID now tr s earlier attempts cut) (hlaw : lib.Lawful)
    (htime : s'.now = s.now) (hduration : x.1.duration = 0)
    (hcurrent : (s'.slots clientID).Current lib rl [])
    (hadmission : admission clientID s.now x = none)
    (hrefilled : Refilled rl.r (admissions clientID now tr) s.now) :
    Metered lib rl clientID now (tr ++ [x]) s' (admissions clientID now tr) [] s'.now := by
  rw [← htime] at hrefilled
  refine ⟨?_, hcurrent, ?_, List.Pairwise.nil, by simp, le_rfl, h.within hlaw, ?_, hrefilled⟩
  · rw [htime, clock_snoc, h.time, hduration]
    simp
  · rw [admissions_snoc, ← h.time, hadmission]
    simp [Limiter.admitted]
  · rw [htime]
    exact h.admissions_le

theorem Metered.ask {call : ℕ} {o : Output}
    (h : Metered lib rl clientID now tr s earlier attempts cut) (htime : s'.now = s.now)
    (hcurrent : (s'.slots clientID).Current lib rl (attempts ++ [s.now]))
    (ho : o = .allowed (lib.allow (lib.after (lib.newLimiter rl.r rl.b) attempts) s.now).2) :
    Metered lib rl clientID now (tr ++ [(.call clientID (.allow call), o)]) s' earlier
      (attempts ++ [s.now]) cut := by
  refine { h with time := ?_, current := hcurrent, admissions_eq := ?_, sorted := ?_,
                  since := ?_, cut_le := ?_ }
  · rw [htime, clock_snoc, h.time]
    simp [Event.duration]
  · rw [admissions_snoc, ← h.time, h.admissions_eq, lib.admitted_snoc, List.append_assoc, ho]
    cases (lib.allow (lib.after (lib.newLimiter rl.r rl.b) attempts) s.now).2 with
    | false => rfl
    | true => simp [admission]
  · rw [List.pairwise_append]
    refine ⟨h.sorted, List.pairwise_singleton _ _, fun t ht t' ht' => ?_⟩
    rw [List.mem_singleton.mp ht']
    exact (h.since t ht).2
  · intro t ht
    rw [htime]
    rcases List.mem_append.mp ht with ht | ht
    · exact h.since t ht
    · rw [List.mem_singleton.mp ht]
      exact ⟨h.cut_le, le_rfl⟩
  · rw [htime]
    exact h.cut_le

theorem Metered.other {x : Event κ × Output} {id : κ} {slot : Slot L}
    (h : Metered lib rl clientID now tr s earlier attempts cut) (hid : id ≠ clientID)
    (hduration : x.1.duration = 0) (hadmission : admission clientID s.now x = none) :
    Metered lib rl clientID now (tr ++ [x]) (s.put id slot) earlier attempts cut := by
  refine h.keep ?_ ?_ hadmission
  · simp [hduration]
  · rw [State.put_slots_of_ne hid.symm]
    exact h.current

theorem admission_of_ne {id : κ} {e : CallStep} {o : Output} {time : ℤ} (hid : id ≠ clientID) :
    admission clientID time (.call id e, o) = none := by
  unfold admission
  split
  case h_1 heq =>
    cases heq
    exact if_neg hid
  case h_2 => rfl

theorem eq_of_admission {x : Event κ × Output} {time t : ℤ}
    (h : t ∈ admission clientID time x) : t = time := by
  unfold admission at h
  split at h
  · split_ifs at h
    · exact (Option.some.inj h).symm
    · cases h
  · cases h

theorem step_metered {e : Event κ} {o : Output} (hlaw : lib.Lawful)
    (hrun : Run (step lib rl) (State.init κ L now) tr s)
    (h : Metered lib rl clientID now tr s earlier attempts cut)
    (hstep : step lib rl s e = some (s', o))
    (hsep : Separated lib rl clientID now (tr ++ [(e, o)])) :
    ∃ earlier attempts cut,
      Metered lib rl clientID now (tr ++ [(e, o)]) s' earlier attempts cut := by
  cases e with
  | tick d =>
      cases hstep
      exact ⟨_, _, _, h.keep rfl h.current rfl⟩
  | sweep id e =>
      obtain ⟨slot, hslot, rfl⟩ := step_sweep hstep
      by_cases hid : id = clientID
      · subst hid
        refine ⟨_, _, _, h.keep (by simp [Event.duration]) ?_ rfl⟩
        simpa using h.current.sweep hslot
      · exact ⟨_, _, _, h.other hid rfl rfl⟩
  | call id e =>
      obtain ⟨slot, hslot, rfl⟩ := step_call hstep
      by_cases hid : id = clientID
      · subst hid
        cases e with
        | load =>
            refine ⟨_, _, _, h.keep (by simp [Event.duration]) ?_ rfl⟩
            simpa using h.current.load hslot
        | touch call =>
            refine ⟨_, _, _, h.keep (by simp [Event.duration]) ?_ rfl⟩
            simpa using h.current.touch hslot
        | store call =>
            obtain rfl := (Slot.store_effect hslot).2.1
            obtain ⟨hquiet, hrefilled⟩ := hsep tr [] call s rfl hrun
            refine ⟨_, _, _, h.renew hlaw (by simp) rfl ?_ rfl hrefilled⟩
            simpa using Slot.Current.store hquiet hslot
        | allow call =>
            obtain ⟨hcurrent, ho⟩ := h.current.allow hslot
            refine ⟨_, _, _, h.ask (by simp) ?_ ho⟩
            simpa using hcurrent
      · exact ⟨_, _, _, h.other hid rfl (admission_of_ne hid)⟩

theorem run_metered (hlaw : lib.Lawful) (hrun : Run (step lib rl) (State.init κ L now) tr s)
    (hsep : Separated lib rl clientID now tr) :
    ∃ earlier attempts cut, Metered lib rl clientID now tr s earlier attempts cut := by
  refine Run.snocInduction
    (I := fun tr s => Separated lib rl clientID now tr →
      ∃ earlier attempts cut, Metered lib rl clientID now tr s earlier attempts cut)
    (fun _ => ⟨_, _, _, .init lib rl clientID now⟩) ?_ hrun hsep
  intro tr m e o m' hm ih hstep hsep
  obtain ⟨earlier, attempts, cut, h⟩ := ih hsep.before
  exact step_metered hlaw hm h hstep hsep

def Slot.Idle (s : Slot L) : Prop := ∀ call, s.calls call = none

/-- The calls of the client take no time, come one after the other, and the cleanup of its
entry does not come in between, nor they in between the visit of the entry and its deletion. -/
def Undisturbed (clientID : κ) (s : State κ L) : Event κ → Prop
  | .tick d => 0 < d → (s.slots clientID).Idle
  | .call id .load => id = clientID → (s.slots clientID).Idle ∧ (s.slots clientID).doomed = false
  | .call _ _ => True
  | .sweep id _ => id = clientID → (s.slots clientID).Idle

/-- What is known of a slot in such runs, when requests of the client were admitted at `times`:
where its only call stands (`stage`), that the entry was last seen at the last of the times, and
that they are refilled when there is no entry. -/
structure Slot.Calm (rl : RateLimiter) (s : Slot L) (now : ℤ) (times : List ℤ) (call : ℕ)
    (stage : Option Stage) : Prop where
  calls : s.calls = Function.update (fun _ => none) call stage
  loaded : ∀ i, stage = some (.loaded i) → s.entry = some i
  missed : stage = some .missed → s.entry = none
  holding : ∀ i, stage = some (.holding i) →
    s.entry = some i ∧ ∀ c, s.clients i = some c → c.lastSeen = now
  times_le : ∀ t ∈ times, t ≤ now
  seen : ∀ i c, s.entry = some i → s.clients i = some c → ∀ t ∈ times, t ≤ c.lastSeen
  doomed : s.doomed = true → stage = none ∧ ∀ t ∈ times, t + rl.idle ≤ now
  refilled : s.entry = none → Refilled rl.r times now

section Calm

variable {slot slot' : Slot L} {times : List ℤ} {call : ℕ} {stage : Option Stage} {o : Output}

theorem Slot.Calm.call_eq {c : ℕ} {st : Stage} (h : slot.Calm rl now times call stage)
    (hc : slot.calls c = some st) : c = call ∧ stage = some st := by
  rw [h.calls] at hc
  by_cases heq : c = call
  · subst heq
    rw [Function.update_self] at hc
    exact ⟨rfl, hc⟩
  · rw [Function.update_of_ne heq] at hc
    cases hc

theorem Slot.Calm.calls_update {c : ℕ} {st : Stage} {next : Option Stage}
    (h : slot.Calm rl now times call stage) (hc : slot.calls c = some st) :
    Function.update slot.calls c next = Function.update (fun _ => none) call next := by
  rw [(h.call_eq hc).1, h.calls, Function.update_idem]

theorem Slot.Calm.stage_of_idle (h : slot.Calm rl now times call stage) (hidle : slot.Idle) :
    stage = none := by
  have hcall := hidle call
  rwa [h.calls, Function.update_self] at hcall

theorem Slot.Calm.quiet {c : ℕ} {st : Stage} (h : slot.Calm rl now times call stage)
    (hc : slot.calls c = some st) : slot.Quiet c := by
  intro other stage' hne hother
  exact absurd ((h.call_eq hother).1.trans (h.call_eq hc).1.symm) hne

theorem Slot.Calm.tick {d : ℕ} (h : slot.Calm rl now times call stage)
    (hidle : 0 < d → slot.Idle) : slot.Calm rl (now + d) times call stage := by
  have hle : now ≤ now + d := by omega
  refine { h with holding := ?_, times_le := ?_, doomed := ?_, refilled := ?_ }
  · intro i hi
    rcases Nat.eq_zero_or_pos d with rfl | hd
    · simpa using h.holding i hi
    · rw [h.stage_of_idle (hidle hd)] at hi
      cases hi
  · exact fun t ht => (h.times_le t ht).trans hle
  · intro hdoomed
    obtain ⟨hstage, htimes⟩ := h.doomed hdoomed
    exact ⟨hstage, fun t ht => (htimes t ht).trans hle⟩
  · exact fun hentry => (h.refilled hentry).mono h.times_le hle

theorem Slot.Calm.not_doomed {c : ℕ} {st : Stage} (h : slot.Calm rl now times call stage)
    (hc : slot.calls c = some st) : slot.doomed ≠ true := by
  intro hdoomed
  have hstage := (h.call_eq hc).2
  rw [(h.doomed hdoomed).1] at hstage
  cases hstage

theorem Slot.Calm.load (h : slot.Calm rl now times call stage) (hidle : slot.Idle)
    (hdoomed : slot.doomed = false) (hstep : slot.call lib rl now .load = some (slot', o)) :
    ∃ call stage, slot'.Calm rl now times call stage := by
  have hcalls : slot.calls = fun _ => none := funext hidle
  cases hstep
  refine ⟨slot.next, _, by rw [hcalls], ?_, ?_, ?_, h.times_le, h.seen, by simp [hdoomed],
    h.refilled⟩
  · intro i hi
    cases hentry : slot.entry with
    | none => simp [hentry] at hi
    | some j => simpa [hentry] using hi
  · intro hmissed
    cases hentry : slot.entry with
    | none => rfl
    | some j => simp [hentry] at hmissed
  · intro i hi
    cases hentry : slot.entry with
    | none => simp [hentry] at hi
    | some j => simp [hentry] at hi

theorem Slot.Calm.touch {c : ℕ} (h : slot.Calm rl now times call stage)
    (hstep : slot.call lib rl now (.touch c) = some (slot', o)) :
    ∃ stage, slot'.Calm rl now times call stage := by
  obtain ⟨i, cl, hcall, hcl, -, rfl⟩ := Slot.touch_effect hstep
  have hentry := h.loaded i (h.call_eq hcall).2
  refine ⟨some (.holding i), h.calls_update hcall, by simp, by simp, ?_, h.times_le, ?_,
    fun hdoomed => absurd hdoomed (h.not_doomed hcall), ?_⟩
  · intro j hj
    cases hj
    refine ⟨hentry, fun c' (hc' : Function.update slot.clients i _ i = some c') => ?_⟩
    rw [Function.update_self] at hc'
    cases hc'
    rfl
  · intro j c' hj (hc' : Function.update slot.clients i _ j = some c') t ht
    obtain rfl : i = j := Option.some.inj (hentry.symm.trans hj)
    rw [Function.update_self] at hc'
    cases hc'
    exact h.times_le t ht
  · intro hnone
    exact absurd (hentry.symm.trans hnone) (by simp)

theorem Slot.Calm.store {c : ℕ} (h : slot.Calm rl now times call stage)
    (hstep : slot.call lib rl now (.store c) = some (slot', o)) :
    (slot.Quiet c ∧ Refilled rl.r times now) ∧ ∃ stage, slot'.Calm rl now times call stage := by
  obtain ⟨hcall, -, rfl⟩ := Slot.store_effect hstep
  have hentry := h.missed (h.call_eq hcall).2
  refine ⟨⟨h.quiet hcall, h.refilled hentry⟩, some (.holding slot.created),
    h.calls_update hcall, by simp, by simp, ?_, h.times_le, ?_,
    fun hdoomed => absurd hdoomed (h.not_doomed hcall), by simp⟩
  · intro j hj
    cases hj
    refine ⟨rfl, fun c' (hc' : Function.update slot.clients slot.created _ _ = some c') => ?_⟩
    rw [Function.update_self] at hc'
    cases hc'
    rfl
  · intro j c' hj (hc' : Function.update slot.clients slot.created _ j = some c') t ht
    obtain rfl : slot.created = j := Option.some.inj hj
    rw [Function.update_self] at hc'
    cases hc'
    exact h.times_le t ht

theorem Slot.Calm.allow {c : ℕ} {times' : List ℤ} (h : slot.Calm rl now times call stage)
    (hstep : slot.call lib rl now (.allow c) = some (slot', o))
    (htimes : ∀ t ∈ times', t ∈ times ∨ t = now) :
    ∃ stage, slot'.Calm rl now times' call stage := by
  obtain ⟨i, cl, hcall, hcl, -, rfl⟩ := Slot.allow_effect hstep
  obtain ⟨hentry, hseen⟩ := h.holding i (h.call_eq hcall).2
  refine ⟨none, h.calls_update hcall, by simp, by simp, by simp, ?_, ?_,
    fun hdoomed => absurd hdoomed (h.not_doomed hcall), ?_⟩
  · intro t ht
    rcases htimes t ht with ht | rfl
    · exact h.times_le t ht
    · exact le_rfl
  · intro j c' hj (hc' : Function.update slot.clients i _ j = some c') t ht
    obtain rfl : i = j := Option.some.inj (hentry.symm.trans hj)
    rw [Function.update_self] at hc'
    cases hc'
    rcases htimes t ht with ht | rfl
    · exact h.seen i cl hj hcl t ht
    · exact (hseen cl hcl).ge
  · intro hnone
    exact absurd (hentry.symm.trans hnone) (by simp)

/-- An entry is removed when it was not seen for the idle time, in which all is refilled. -/
theorem Slot.Calm.sweep {e : SweepStep} (h : slot.Calm rl now times call stage)
    (hidle : slot.Idle) (hrefill : (∀ t ∈ times, t + rl.idle ≤ now) → Refilled rl.r times now)
    (hstep : slot.sweep rl now e = some (slot', o)) : slot'.Calm rl now times call stage := by
  have hstage := h.stage_of_idle hidle
  cases e with
  | visit =>
      obtain ⟨i, cl, hentry, hcl, rfl⟩ := Slot.visit_effect hstep
      refine { h with doomed := fun hdoomed => ⟨hstage, fun t ht => ?_⟩ }
      have hlate : rl.idle < now - cl.lastSeen := of_decide_eq_true hdoomed
      have hseen := h.seen i cl hentry hcl t ht
      omega
  | delete =>
      obtain ⟨hdoomed, rfl⟩ := Slot.delete_effect hstep
      refine ⟨h.calls, by simp [hstage], fun _ => rfl, by simp [hstage], h.times_le, by simp,
        by simp, fun _ => hrefill (h.doomed hdoomed).2⟩

end Calm

def Unmixed (lib : Limiter L) (rl : RateLimiter) (clientID : κ) (now : ℤ) (tr : Trace κ)
    (s : State κ L) : Prop :=
  Separated lib rl clientID now tr ∧
    ∃ call stage, (s.slots clientID).Calm rl s.now (admissions clientID now tr) call stage

theorem Separated.snoc {x : Event κ × Output} (h : Separated lib rl clientID now tr)
    (hrun : Run (step lib rl) (State.init κ L now) tr s)
    (hx : ∀ call, x = (.call clientID (.store call), .done) →
      (s.slots clientID).Quiet call ∧ Refilled rl.r (admissions clientID now tr) s.now) :
    Separated lib rl clientID now (tr ++ [x]) := by
  intro tr₁ tr₂ call m htr hm
  rcases List.eq_nil_or_concat tr₂ with rfl | ⟨tr₂, y, rfl⟩
  · obtain ⟨rfl, hlast⟩ := List.append_inj' htr rfl
    obtain rfl : s = m := hrun.unique hm
    exact hx call (List.singleton_inj.mp hlast)
  · rw [List.concat_eq_append, ← List.cons_append, ← List.append_assoc] at htr
    obtain ⟨rfl, -⟩ := List.append_inj' htr rfl
    exact h tr₁ tr₂ call m rfl hm

theorem Unmixed.refill (h : Unmixed lib rl clientID now tr s) (hlaw : lib.Lawful)
    (hrun : Run (step lib rl) (State.init κ L now) tr s) (hidle : 0 ≤ rl.idle)
    (hburst : second * rl.b ≤ rl.r * rl.idle)
    (hle : ∀ t ∈ admissions clientID now tr, t + rl.idle ≤ s.now) :
    Refilled rl.r (admissions clientID now tr) s.now := by
  obtain ⟨earlier, attempts, cut, hmetered⟩ := run_metered hlaw hrun h.1
  have hlast : ∀ t ∈ admissions clientID now tr, t ≤ s.now - rl.idle := by
    intro t ht
    have := hle t ht
    omega
  apply (hmetered.within hlaw).refilled hlast hburst hidle
  omega

theorem Unmixed.time (h : Unmixed lib rl clientID now tr s) (hlaw : lib.Lawful)
    (hrun : Run (step lib rl) (State.init κ L now) tr s) :
    s.now = clock Event.duration now tr := by
  obtain ⟨earlier, attempts, cut, hmetered⟩ := run_metered hlaw hrun h.1
  exact hmetered.time

theorem Unmixed.keep {x : Event κ × Output} (h : Unmixed lib rl clientID now tr s)
    (hlaw : lib.Lawful) (hrun : Run (step lib rl) (State.init κ L now) tr s)
    (hstore : ∀ call, x = (.call clientID (.store call), .done) →
      (s.slots clientID).Quiet call ∧ Refilled rl.r (admissions clientID now tr) s.now)
    (hadmission : admission clientID s.now x = none)
    (hcalm : ∃ call stage,
      (s'.slots clientID).Calm rl s'.now (admissions clientID now tr) call stage) :
    Unmixed lib rl clientID now (tr ++ [x]) s' := by
  refine ⟨h.1.snoc hrun hstore, ?_⟩
  rw [admissions_snoc, ← h.time hlaw hrun, hadmission]
  simpa using hcalm

theorem Unmixed.call {e : CallStep} {slot : Slot L} {o : Output}
    (h : Unmixed lib rl clientID now tr s) (hlaw : lib.Lawful)
    (hrun : Run (step lib rl) (State.init κ L now) tr s)
    (hund : Undisturbed clientID s (.call clientID e))
    (hslot : (s.slots clientID).call lib rl s.now e = some (slot, o)) :
    Unmixed lib rl clientID now (tr ++ [(.call clientID e, o)]) (s.put clientID slot) := by
  obtain ⟨call, stage, hcalm⟩ := h.2
  cases e with
  | load =>
      obtain ⟨hquiet, hdoomed⟩ := hund rfl
      refine h.keep hlaw hrun (by simp) rfl ?_
      simpa using hcalm.load hquiet hdoomed hslot
  | touch c =>
      refine h.keep hlaw hrun (by simp) rfl ⟨call, ?_⟩
      simpa using hcalm.touch hslot
  | store c =>
      obtain ⟨hready, hnext⟩ := hcalm.store hslot
      refine h.keep hlaw hrun (fun c' hc' => ?_) rfl ⟨call, ?_⟩
      · cases hc'
        exact hready
      · simpa using hnext
  | allow c =>
      have htimes : ∀ t ∈ admissions clientID now (tr ++ [(.call clientID (.allow c), o)]),
          t ∈ admissions clientID now tr ∨ t = s.now := by
        intro t ht
        rw [admissions_snoc, ← h.time hlaw hrun, List.mem_append, Option.mem_toList] at ht
        exact ht.imp_right eq_of_admission
      refine ⟨h.1.snoc hrun (by simp), call, ?_⟩
      simpa using hcalm.allow hslot htimes

theorem step_unmixed {e : Event κ} {o : Output} (hlaw : lib.Lawful) (hidle : 0 ≤ rl.idle)
    (hburst : second * rl.b ≤ rl.r * rl.idle)
    (hrun : Run (step lib rl) (State.init κ L now) tr s) (h : Unmixed lib rl clientID now tr s)
    (hund : Undisturbed clientID s e) (hstep : step lib rl s e = some (s', o)) :
    Unmixed lib rl clientID now (tr ++ [(e, o)]) s' := by
  obtain ⟨call, stage, hcalm⟩ := h.2
  cases e with
  | tick d =>
      cases hstep
      exact h.keep hlaw hrun (by simp) rfl ⟨call, stage, hcalm.tick hund⟩
  | sweep id e =>
      obtain ⟨slot, hslot, rfl⟩ := step_sweep hstep
      refine h.keep hlaw hrun (by simp) rfl ⟨call, stage, ?_⟩
      by_cases hid : id = clientID
      · subst hid
        simpa using hcalm.sweep (hund rfl) (h.refill hlaw hrun hidle hburst) hslot
      · rw [State.put_slots_of_ne (Ne.symm hid)]
        exact hcalm
  | call id e =>
      obtain ⟨slot, hslot, rfl⟩ := step_call hstep
      by_cases hid : id = clientID
      · subst hid
        exact h.call hlaw hrun hund hslot
      · refine h.keep hlaw hrun (fun c hc => ?_) (admission_of_ne hid) ⟨call, stage, ?_⟩
        · simp only [Prod.mk.injEq, Event.call.injEq] at hc
          exact absurd hc.1.1 hid
        · rw [State.put_slots_of_ne (Ne.symm hid)]
          exact hcalm

/-- Undisturbed calls are safe, if the whole burst is refilled in the idle time after which
an entry is removed. -/
theorem separated_of_undisturbed (hlaw : lib.Lawful) (hidle : 0 ≤ rl.idle)
    (hburst : second * rl.b ≤ rl.r * rl.idle)
    (hrun : Run (step lib rl) (State.init κ L now) tr s)
    (hund : Throughout (step lib rl) (Undisturbed clientID) (State.init κ L now) tr) :
    Separated lib rl clientID now tr := by
  have hunmixed : Unmixed lib rl clientID now tr s := by
    refine Run.snocInduction
      (I := fun tr s => Throughout (step lib rl) (Undisturbed clientID) (State.init κ L now) tr →
        Unmixed lib rl clientID now tr s) ?_ ?_ hrun hund
    · intro _
      refine ⟨?_, 0, none, ?_⟩
      · intro tr₁ tr₂ call m htr
        simp at htr
      · refine ⟨?_, by simp, by simp, by simp, by simp [admissions, collect], ?_, ?_, ?_⟩
        · exact (Function.update_eq_self 0 _).symm
        · simp [State.init, Slot.empty]
        · simp [State.init, Slot.empty]
        · exact fun _ => refilled_nil
    · intro tr m e o m' hm ih hstep hthrough
      obtain ⟨hbefore, hlast⟩ := throughout_snoc hm hthrough
      exact step_unmixed hlaw hidle hburst hm (ih hbefore) hlast hstep
  exact hunmixed.1

/-- The gateway's default configuration refills its burst in time. -/
example : second * (newRateLimiter 1000 2000 (60 * second)).b ≤
    (newRateLimiter 1000 2000 (60 * second)).r * (newRateLimiter 1000 2000 (60 * second)).idle := by
  decide

/-- In any window of `T` seconds at most `b + r * T` requests of a client are allowed, if
fresh limiters are stored for it only while no call uses an earlier one and when all that it
was allowed before is refilled. -/
theorem client_rate_bounded (hlaw : lib.Lawful)
    (hrun : Run (step lib rl) (State.init κ L now) tr s)
    (hsep : Separated lib rl clientID now tr) :
    ∀ u v, u ≤ v →
      second * countIn u v (admissions clientID now tr) ≤ second * rl.b + rl.r * (v - u) := by
  obtain ⟨earlier, attempts, cut, h⟩ := run_metered hlaw hrun hsep
  exact h.within hlaw

def oneLimiter : RateLimiter := newRateLimiter 1 1 second

def oneTrace : Trace Unit :=
  [(.call () .load, .started 0), (.call () (.store 0), .done), (.call () (.allow 0), .allowed true),
    (.call () .load, .started 1), (.call () (.touch 1), .done),
    (.call () (.allow 1), .allowed false)]

theorem client_rate_bounded_one : ∃ s,
    Run (step bucket oneLimiter) (State.init Unit Bucket 0) oneTrace s ∧
    second * countIn 0 0 (admissions () 0 oneTrace) ≤ second * 1 + 1 * (0 - 0) := by
  obtain ⟨s₁, h₁, s₂, h₂, s₃, h₃, hidle, s₄, h₄, s₅, h₅, s₆, h₆⟩ : ∃ s₁,
      step bucket oneLimiter (State.init Unit Bucket 0) (.call () .load) = some (s₁, .started 0) ∧
      ∃ s₂, step bucket oneLimiter s₁ (.call () (.store 0)) = some (s₂, .done) ∧
      ∃ s₃, step bucket oneLimiter s₂ (.call () (.allow 0)) = some (s₃, .allowed true) ∧
      ((s₃.slots ()).Idle ∧ (s₃.slots ()).doomed = false) ∧
      ∃ s₄, step bucket oneLimiter s₃ (.call () .load) = some (s₄, .started 1) ∧
      ∃ s₅, step bucket oneLimiter s₄ (.call () (.touch 1)) = some (s₅, .done) ∧
      ∃ s₆, step bucket oneLimiter s₅ (.call () (.allow 1)) = some (s₆, .allowed false) := by
    refine ⟨_, rfl, _, rfl, _, rfl, ⟨fun call => ?_, rfl⟩, _, rfl, _, rfl, _, rfl⟩
    simp [State.put, State.init, Slot.empty, Function.update]
  have hrun : Run (step bucket oneLimiter) (State.init Unit Bucket 0) oneTrace s₆ :=
    ⟨s₁, h₁, s₂, h₂, s₃, h₃, s₄, h₄, s₅, h₅, s₆, h₆, rfl⟩
  have hund : Throughout (step bucket oneLimiter) (Undisturbed ()) (State.init Unit Bucket 0)
      oneTrace := by
    simp only [oneTrace, Throughout, h₁, h₂, h₃, Undisturbed, Option.some.injEq,
      Prod.mk.injEq, and_true, forall_eq', implies_true, true_and, forall_const]
    exact ⟨⟨fun _ => rfl, rfl⟩, hidle⟩
  have hsep := separated_of_undisturbed bucket_lawful (by decide) (by decide) hrun hund
  exact ⟨s₆, hrun, client_rate_bounded bucket_lawful hrun hsep 0 0 le_rfl⟩

/-- Two first requests, neither of which finds the limiter of the other. -/
def firstTrace : Trace Unit :=
  [(.call () .load, .started 0), (.call () .load, .started 1), (.call () (.store 0), .done),
    (.call () (.store 1), .done), (.call () (.allow 0), .allowed true),
    (.call () (.allow 1), .allowed true)]

/-- Both are allowed in one moment, where the burst is one request. -/
theorem first_requests_exceed_burst : (∃ s,
    Run (step bucket oneLimiter) (State.init Unit Bucket 0) firstTrace s) ∧
    oneLimiter.b = 1 ∧ countIn 0 0 (admissions () 0 firstTrace) = 2 :=
  ⟨⟨_, _, rfl, _, rfl, _, rfl, _, rfl, _, rfl, _, rfl, rfl⟩, rfl, by decide⟩

end GrpcVault.RateLimit
