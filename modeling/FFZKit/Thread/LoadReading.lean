import FFZKit.Thread.LoadRange
import Mathlib.Data.List.Infix

/-!
# Reading the load does not change it

`load` takes out of the list what lies before the time window, and the records
that it took out would also be taken out by every later `load`. The run with
the other loads is carried along the run without them: the list of the latter
is the list of the former behind some records that have expired.

## Implementation notes

The hundredfold of the time run may wrap around here. It is computed from the
same totals in both runs.
-/

namespace FFZKit.Thread.LoadCounter

open FFZKit.Foundations FFZKit.Foundations.Transition

/-- The time of some records, slept or run. -/
def spanOf (timeList : List TimeRecord) : Nat := (timeList.map TimeRecord.time).sum

@[simp] theorem spanOf_nil : spanOf [] = 0 := rfl

@[simp] theorem spanOf_cons (rcd : TimeRecord) (rest : List TimeRecord) :
    spanOf (rcd :: rest) = rcd.time + spanOf rest := by
  simp only [spanOf, List.map_cons, List.sum_cons]

@[simp] theorem spanOf_append (front back : List TimeRecord) :
    spanOf (front ++ back) = spanOf front + spanOf back := by
  simp only [spanOf, List.map_append, List.sum_append]

theorem timeOf_add_timeOf (timeList : List TimeRecord) :
    timeOf false timeList + timeOf true timeList = spanOf timeList := by
  induction timeList with
  | nil => rfl
  | cons rcd rest ih =>
      rw [timeOf_cons, timeOf_cons, spanOf_cons, ← ih]
      cases hkind : rcd.sleep with
      | true =>
          simp only [Bool.true_eq_false, if_false, if_true]
          omega
      | false =>
          simp only [Bool.false_eq_true, if_false, if_true]
          omega

/-- Exact totals of a list of records and of what has been slept and run since. -/
structure Measures (slept ran : Nat) (timeList : List TimeRecord) (t : Totals) : Prop where
  sleep : t.totalSleepTime = timeOf true timeList + slept
  run : t.totalRunTime = timeOf false timeList + ran
  time : t.totalTime = t.totalRunTime + t.totalSleepTime
  fits : t.totalTime < 2 ^ 64

namespace Measures

variable {slept ran : Nat} {t t' : Totals} {rcd : TimeRecord} {rest timeList : List TimeRecord}

theorem totalTime_eq (h : Measures slept ran timeList t) :
    t.totalTime = spanOf timeList + (slept + ran) := by
  have hspan := timeOf_add_timeOf timeList
  have hsleep := h.sleep
  have hrun := h.run
  have htime := h.time
  omega

theorem drop (h : Measures slept ran (rcd :: rest) t) : Measures slept ran rest (t.drop rcd) := by
  obtain ⟨hsleep, hrun, htime, hfits⟩ := h
  rw [timeOf_cons] at hsleep hrun
  rw [Totals.drop]
  cases hkind : rcd.sleep with
  | true =>
      rw [hkind, if_pos rfl] at hsleep
      rw [hkind, if_neg (by decide)] at hrun
      rw [if_pos rfl, sub64_of_le (by omega) (by omega), sub64_of_le (by omega) hfits]
      constructor <;> simp only <;> omega
  | false =>
      rw [hkind, if_neg (by decide)] at hsleep
      rw [hkind, if_pos rfl] at hrun
      rw [if_neg (by decide), sub64_of_le (by omega) (by omega), sub64_of_le (by omega) hfits]
      constructor <;> simp only <;> omega

/-- The value of `load` depends on the records alone. -/
theorem percent_eq (h : Measures slept ran timeList t) (h' : Measures slept ran timeList t') :
    ThreadLoadCounter.percent t = ThreadLoadCounter.percent t' := by
  have hrun : t.totalRunTime = t'.totalRunTime := h.run.trans h'.run.symm
  have htime : t.totalTime = t'.totalTime := h.totalTime_eq.trans h'.totalTime_eq.symm
  rw [ThreadLoadCounter.percent, ThreadLoadCounter.percent, hrun, htime]

/-- What the loop takes out depends on the records alone. -/
theorem prune_eq (maxSize maxUsec : Nat) (h : Measures slept ran timeList t)
    (h' : Measures slept ran timeList t') :
    ThreadLoadCounter.percent (prune maxSize maxUsec timeList t).2 =
      ThreadLoadCounter.percent (prune maxSize maxUsec timeList t').2 := by
  induction timeList generalizing t t' with
  | nil => exact h.percent_eq h'
  | cons rcd rest ih =>
      have htime : t.totalTime = t'.totalTime := h.totalTime_eq.trans h'.totalTime_eq.symm
      rw [prune, prune, htime]
      by_cases hmore : maxUsec < t'.totalTime ∨ maxSize < (rcd :: rest).length
      · rw [if_pos hmore, if_pos hmore]
        exact ih h.drop h'.drop
      · rw [if_neg hmore, if_neg hmore]
        exact h.percent_eq h'

end Measures

/-- Records that reach too far back, each with those after it, the records that
are kept and the time since. -/
def Expired (maxUsec since : Nat) (discarded kept : List TimeRecord) : Prop :=
  ∀ back, back <:+ discarded → back ≠ [] → maxUsec < spanOf back + spanOf kept + since

namespace Expired

variable {maxUsec since : Nat} {discarded kept rest : List TimeRecord} {rcd : TimeRecord}

theorem nil : Expired maxUsec since [] kept :=
  fun _ hback hne => absurd (List.suffix_nil.mp hback) hne

/-- As time goes on, what has expired stays expired. -/
theorem mono {later : Nat} (h : Expired maxUsec since discarded kept) (hlater : since ≤ later) :
    Expired maxUsec later discarded kept :=
  fun back hback hne => (h back hback hne).trans_le (Nat.add_le_add_left hlater _)

/-- A new record is at least as long as the time it takes the place of. -/
theorem append (h : Expired maxUsec since discarded kept) (hrcd : since ≤ rcd.time) :
    Expired maxUsec 0 discarded (kept ++ [rcd]) := by
  intro back hback hne
  have hbound := h back hback hne
  rw [spanOf_append, spanOf_cons, spanOf_nil]
  omega

theorem tail (h : Expired maxUsec since discarded kept) :
    Expired maxUsec since discarded.tail kept :=
  fun back hback hne => h back (hback.trans (List.tail_suffix discarded)) hne

/-- A record that is taken out because the list reaches too far back has expired,
and with it all those before. -/
theorem concat (hmore : maxUsec < spanOf (rcd :: rest) + since) :
    Expired maxUsec since (discarded ++ [rcd]) rest := by
  intro back hback hne
  rcases List.suffix_concat_iff.mp hback with rfl | ⟨front, rfl, hfront⟩
  · exact absurd rfl hne
  · rw [spanOf_cons] at hmore
    rw [spanOf_append, spanOf_cons, spanOf_nil]
    omega

end Expired

variable {slept ran maxSize maxUsec : Nat} {t : Totals} {discarded timeList : List TimeRecord}

/-- The loop of `load` takes out expired records only, as the list keeps to its size. -/
theorem expired_prune (hlength : timeList.length ≤ maxSize) (h : Measures slept ran timeList t)
    (hexpired : Expired maxUsec (slept + ran) discarded timeList) :
    ∃ discarded', discarded ++ timeList = discarded' ++ (prune maxSize maxUsec timeList t).1 ∧
      Expired maxUsec (slept + ran) discarded' (prune maxSize maxUsec timeList t).1 := by
  induction timeList generalizing t discarded with
  | nil => exact ⟨discarded, rfl, hexpired⟩
  | cons rcd rest ih =>
      rw [prune]
      by_cases hmore : maxUsec < t.totalTime ∨ maxSize < (rcd :: rest).length
      · have htime : maxUsec < spanOf (rcd :: rest) + (slept + ran) := by
          have htotal := h.totalTime_eq
          omega
        have hconcat : Expired maxUsec (slept + ran) (discarded ++ [rcd]) rest :=
          Expired.concat htime
        rw [if_pos hmore]
        obtain ⟨discarded', hlist, hexpired'⟩ :=
          ih ((Nat.le_succ _).trans hlength) h.drop hconcat
        refine ⟨discarded', ?_, hexpired'⟩
        rw [← hlist, List.append_assoc, List.singleton_append]
      · rw [if_neg hmore]
        exact ⟨discarded, rfl, hexpired⟩

/-- Every `load` takes out the records that have expired. -/
theorem prune_expired (maxSize : Nat) (h : Measures slept ran (discarded ++ timeList) t)
    (hexpired : Expired maxUsec (slept + ran) discarded timeList) :
    ∃ t', Measures slept ran timeList t' ∧
      prune maxSize maxUsec (discarded ++ timeList) t = prune maxSize maxUsec timeList t' := by
  induction discarded generalizing t with
  | nil => exact ⟨t, h, rfl⟩
  | cons rcd rest ih =>
      have htime : maxUsec < t.totalTime := by
        have hbound := hexpired (rcd :: rest) List.suffix_rfl (List.cons_ne_nil _ _)
        have htotal := h.totalTime_eq
        rw [spanOf_append] at htotal
        omega
      obtain ⟨t', hmeasures, hprune⟩ := ih h.drop hexpired.tail
      refine ⟨t', hmeasures, ?_⟩
      rw [List.cons_append, prune, if_pos (Or.inl htime), hprune]

namespace ThreadLoadCounter

/-- The time since the last stamp. -/
def since (s : ThreadLoadCounter) (now : Nat) : Nat :=
  if s.sleeping then now - s.lastSleepTime else now - s.lastWakeTime

/-- The time slept since the last stamp. -/
def sleptSince (s : ThreadLoadCounter) (now : Nat) : Nat :=
  if s.sleeping then now - s.lastSleepTime else 0

/-- The time run since the last stamp. -/
def ranSince (s : ThreadLoadCounter) (now : Nat) : Nat :=
  if s.sleeping then 0 else now - s.lastWakeTime

theorem sleptSince_add_ranSince (s : ThreadLoadCounter) (now : Nat) :
    s.sleptSince now + s.ranSince now = s.since now := by
  rw [sleptSince, ranSince, since]
  split
  · exact Nat.add_zero _
  · exact Nat.zero_add _

/-- The clock reads a `uint64_t` not before its last reading, and the totals of
`load` are in range. -/
def InRange (s : ThreadLoadCounter) : Action → Prop
  | .startSleep now => s.clock ≤ now ∧ now < 2 ^ 64
  | .sleepWakeUp now => s.clock ≤ now ∧ now < 2 ^ 64
  | .load now => s.clock ≤ now ∧ now < 2 ^ 64 ∧ s.runTime now + s.sleepTime now < 2 ^ 64

/-- The stamps lie in the past, the one of the present state last. -/
structure Paced (s : ThreadLoadCounter) : Prop where
  slept : s.lastSleepTime ≤ s.clock
  woke : s.lastWakeTime ≤ s.clock
  asleep : s.sleeping = true → s.lastWakeTime ≤ s.lastSleepTime
  awake : s.sleeping = false → s.lastSleepTime ≤ s.lastWakeTime
  length : s.timeList.length ≤ s.maxSize

theorem paced_init (maxSize maxUsec now : Nat) : Paced (init maxSize maxUsec now) where
  slept := le_rfl
  woke := le_rfl
  asleep := fun _ => le_rfl
  awake := fun _ => le_rfl
  length := Nat.zero_le _

theorem record_length_le {s : ThreadLoadCounter} (hlength : s.timeList.length ≤ s.maxSize)
    (rcd : TimeRecord) : (s.record rcd).timeList.length ≤ s.maxSize := by
  simp only [record]
  split
  · simpa using hlength
  · omega

namespace Paced

variable {s : ThreadLoadCounter} {now : Nat}

theorem startSleep (h : Paced s) (hnow : s.clock ≤ now) : Paced (s.startSleep now) where
  slept := le_rfl
  woke := h.woke.trans hnow
  asleep := fun _ => h.woke.trans hnow
  awake := fun hawake => Bool.noConfusion hawake
  length := record_length_le h.length _

theorem sleepWakeUp (h : Paced s) (hnow : s.clock ≤ now) : Paced (s.sleepWakeUp now) where
  slept := h.slept.trans hnow
  woke := le_rfl
  asleep := fun hasleep => Bool.noConfusion hasleep
  awake := fun _ => h.slept.trans hnow
  length := record_length_le h.length _

theorem load (h : Paced s) (hnow : s.clock ≤ now) : Paced (s.load now) where
  slept := h.slept.trans hnow
  woke := h.woke.trans hnow
  asleep := h.asleep
  awake := h.awake
  length := (prune_length_le _ _ _ _).trans h.length

/-- The time since the last stamp is not more than what the next record takes. -/
theorem since_le_run (h : Paced s) (hnow : s.clock ≤ now) :
    s.since s.clock ≤ now - s.lastWakeTime := by
  rw [since]
  split
  · next hasleep =>
      have hstamps := h.asleep hasleep
      omega
  · omega

theorem since_le_sleep (h : Paced s) (hnow : s.clock ≤ now) :
    s.since s.clock ≤ now - s.lastSleepTime := by
  rw [since]
  split
  · omega
  · next hawake =>
      have hstamps := h.awake (Bool.eq_false_iff.mpr hawake)
      omega

/-- The totals of `load` are the exact sums. -/
theorem measures_totals (h : Paced s) (hfits : InRange s (.load now)) :
    Measures (s.sleptSince now) (s.ranSince now) s.timeList (s.totals now) := by
  obtain ⟨hnow, hword, hsum⟩ := hfits
  have hslept := h.slept.trans hnow
  have hwoke := h.woke.trans hnow
  rw [runTime, sleepTime] at hsum
  rw [totals, sleptSince, ranSince, foldl_add (by simp only; omega) (by simp only; omega)]
  cases hsleeping : s.sleeping with
  | true =>
      simp only [hsleeping, if_true, Nat.zero_add, Nat.add_zero] at hsum ⊢
      rw [sub64_of_le hslept hword, add64_of_lt (by omega), add64_of_lt (by omega)]
      exact ⟨rfl, rfl, rfl, hsum⟩
  | false =>
      simp only [hsleeping, Bool.false_eq_true, if_false, Nat.zero_add, Nat.add_zero] at hsum ⊢
      rw [sub64_of_le hwoke hword, add64_of_lt (by omega), add64_of_lt hsum]
      exact ⟨rfl, rfl, rfl, hsum⟩

end Paced

/-- The counter `s` of a run and the counter `t` of the run without its loads. -/
structure Quiet (s t : ThreadLoadCounter) : Prop where
  sleeping : t.sleeping = s.sleeping
  lastSleepTime : t.lastSleepTime = s.lastSleepTime
  lastWakeTime : t.lastWakeTime = s.lastWakeTime
  maxSize : t.maxSize = s.maxSize
  maxUsec : t.maxUsec = s.maxUsec
  clock : t.clock ≤ s.clock
  discarded : ∃ discarded, t.timeList = discarded ++ s.timeList ∧
    Expired s.maxUsec (s.since s.clock) discarded s.timeList

namespace Quiet

variable {s t : ThreadLoadCounter} {now : Nat}

theorem refl (s : ThreadLoadCounter) : Quiet s s where
  sleeping := rfl
  lastSleepTime := rfl
  lastWakeTime := rfl
  maxSize := rfl
  maxUsec := rfl
  clock := le_rfl
  discarded := ⟨[], rfl, Expired.nil⟩

/-- A new record pushes the same record out of both lists, or one that has expired
out of the longer one. -/
theorem discarded_record {rcd : TimeRecord} {maxUsec since : Nat} {discarded : List TimeRecord}
    (hsize : t.maxSize = s.maxSize) (hlength : t.timeList.length ≤ t.maxSize)
    (hlist : t.timeList = discarded ++ s.timeList)
    (hexpired : Expired maxUsec since discarded s.timeList) (hsince : since ≤ rcd.time) :
    ∃ discarded', (t.record rcd).timeList = discarded' ++ (s.record rcd).timeList ∧
      Expired maxUsec 0 discarded' (s.record rcd).timeList := by
  have happend := hexpired.append hsince
  simp only [record, hlist, hsize] at hlength ⊢
  cases discarded with
  | nil => exact ⟨[], rfl, Expired.nil⟩
  | cons first rest =>
      have hshort : ¬ s.maxSize < (s.timeList ++ [rcd]).length := by
        simp only [List.length_append, List.length_cons, List.length_nil] at hlength ⊢
        omega
      rw [if_neg hshort]
      by_cases hmore : s.maxSize < (first :: rest ++ s.timeList ++ [rcd]).length
      · rw [if_pos hmore]
        exact ⟨rest, List.append_assoc rest _ _, happend.tail⟩
      · rw [if_neg hmore]
        exact ⟨first :: rest, List.append_assoc _ _ _, happend⟩

theorem startSleep (h : Quiet s t) (hs : Paced s) (ht : Paced t) (hnow : s.clock ≤ now)
    (hword : now < 2 ^ 64) : Quiet (s.startSleep now) (t.startSleep now) := by
  obtain ⟨discarded, hlist, hexpired⟩ := h.discarded
  have hsince : s.since s.clock ≤ sub64 now s.lastWakeTime :=
    sub64_of_le (hs.woke.trans hnow) hword ▸ hs.since_le_run hnow
  refine ⟨rfl, rfl, h.lastWakeTime, h.maxSize, h.maxUsec, le_rfl, ?_⟩
  rw [show (s.startSleep now).since (s.startSleep now).clock = 0 from Nat.sub_self now,
    ThreadLoadCounter.startSleep, h.lastWakeTime]
  exact discarded_record h.maxSize ht.length hlist hexpired hsince

theorem sleepWakeUp (h : Quiet s t) (hs : Paced s) (ht : Paced t) (hnow : s.clock ≤ now)
    (hword : now < 2 ^ 64) : Quiet (s.sleepWakeUp now) (t.sleepWakeUp now) := by
  obtain ⟨discarded, hlist, hexpired⟩ := h.discarded
  have hsince : s.since s.clock ≤ sub64 now s.lastSleepTime :=
    sub64_of_le (hs.slept.trans hnow) hword ▸ hs.since_le_sleep hnow
  refine ⟨rfl, h.lastSleepTime, rfl, h.maxSize, h.maxUsec, le_rfl, ?_⟩
  rw [show (s.sleepWakeUp now).since (s.sleepWakeUp now).clock = 0 from Nat.sub_self now,
    ThreadLoadCounter.sleepWakeUp, h.lastSleepTime]
  exact discarded_record h.maxSize ht.length hlist hexpired hsince

/-- As the clock goes on, the time since the last stamp grows. -/
theorem since_mono (hnow : s.clock ≤ now) : s.since s.clock ≤ s.since now := by
  rw [since, since]
  split
  · exact Nat.sub_le_sub_right hnow _
  · exact Nat.sub_le_sub_right hnow _

/-- A `load` that is left out of the other run. -/
theorem load_left (h : Quiet s t) (hs : Paced s) (hfits : InRange s (.load now)) :
    Quiet (s.load now) t := by
  obtain ⟨discarded, hlist, hexpired⟩ := h.discarded
  have hsince := s.sleptSince_add_ranSince now
  have hlater : Expired s.maxUsec (s.sleptSince now + s.ranSince now) discarded s.timeList :=
    hexpired.mono (hsince ▸ since_mono hfits.1)
  obtain ⟨discarded', hlist', hexpired'⟩ :=
    expired_prune hs.length (hs.measures_totals hfits) hlater
  exact ⟨h.sleeping, h.lastSleepTime, h.lastWakeTime, h.maxSize, h.maxUsec,
    h.clock.trans hfits.1, discarded', hlist.trans hlist', hsince ▸ hexpired'⟩

/-- A `load` of both runs returns the same. -/
theorem percent_eq (h : Quiet s t) (hs : Paced s) (ht : Paced t) (hfits : InRange s (.load now))
    (hfits' : InRange t (.load now)) :
    percent (prune t.maxSize t.maxUsec t.timeList (t.totals now)).2 =
      percent (prune s.maxSize s.maxUsec s.timeList (s.totals now)).2 := by
  obtain ⟨discarded, hlist, hexpired⟩ := h.discarded
  have hsince := s.sleptSince_add_ranSince now
  have hmeasures := ht.measures_totals hfits'
  rw [sleptSince, ranSince, h.sleeping, h.lastSleepTime, h.lastWakeTime, ← sleptSince,
    ← ranSince, hlist] at hmeasures
  obtain ⟨totals', hmeasures', hprune⟩ :=
    prune_expired s.maxSize hmeasures (hexpired.mono (hsince ▸ since_mono hfits.1))
  rw [h.maxSize, h.maxUsec, hlist, hprune]
  exact hmeasures'.prune_eq _ _ (hs.measures_totals hfits)

end Quiet

/-- The calls of `load`. -/
def Action.isLoad : Action → Bool
  | .load _ => true
  | _ => false

/-- The calls other than those of `load`. -/
def withoutLoads (as : List Action) : List Action := as.filter fun a => !a.isLoad

/-- Every `load` adds what it returns behind the others. -/
theorem loads_run {guard : ThreadLoadCounter → Action → Prop} {s s' : ThreadLoadCounter}
    {as : List Action} (run : Run step guard s as s') :
    ∃ later, s'.loads = s.loads ++ later ∧ later.length = (as.filter Action.isLoad).length := by
  induction run with
  | halt => exact ⟨[], by simp, rfl⟩
  | @next s a t as u _ moves _ ih =>
      obtain ⟨later, hloads, hlength⟩ := ih
      cases a with
      | startSleep now =>
          obtain rfl := Option.some.inj moves
          exact ⟨later, hloads, hlength⟩
      | sleepWakeUp now =>
          obtain rfl := Option.some.inj moves
          exact ⟨later, hloads, hlength⟩
      | load now =>
          obtain rfl := Option.some.inj moves
          rw [load, List.append_assoc] at hloads
          rw [List.filter_cons_of_pos rfl]
          exact ⟨_, hloads, congrArg (· + 1) hlength⟩

/-- Without its loads a run returns none. -/
theorem loads_withoutLoads {guard : ThreadLoadCounter → Action → Prop}
    {s s' : ThreadLoadCounter} {as : List Action} (run : Run step guard s (withoutLoads as) s') :
    s'.loads = s.loads := by
  obtain ⟨later, hloads, hlength⟩ := loads_run run
  have hnone : (withoutLoads as).filter Action.isLoad = [] := by
    apply List.filter_eq_nil_iff.mpr
    intro a ha
    simpa using (List.mem_filter.mp ha).2
  rw [hnone] at hlength
  rw [hloads, List.length_eq_zero_iff.mp hlength, List.append_nil]

/-- The run without the loads keeps up with the run. -/
theorem quiet_run {s t s' t' : ThreadLoadCounter} {as : List Action}
    (run : Run step InRange s as s') (quiet : Run step InRange t (withoutLoads as) t')
    (h : Quiet s t) (hs : Paced s) (ht : Paced t) : Quiet s' t' ∧ Paced s' ∧ Paced t' := by
  induction run generalizing t with
  | halt =>
      cases quiet
      exact ⟨h, hs, ht⟩
  | @next s a u as v meets moves tail ih =>
      cases a with
      | startSleep now =>
          obtain rfl := Option.some.inj moves
          cases quiet with
          | next meets' moves' tail' =>
              obtain rfl := Option.some.inj moves'
              exact ih tail' (h.startSleep hs ht meets.1 meets.2) (hs.startSleep meets.1)
                (ht.startSleep meets'.1)
      | sleepWakeUp now =>
          obtain rfl := Option.some.inj moves
          cases quiet with
          | next meets' moves' tail' =>
              obtain rfl := Option.some.inj moves'
              exact ih tail' (h.sleepWakeUp hs ht meets.1 meets.2) (hs.sleepWakeUp meets.1)
                (ht.sleepWakeUp meets'.1)
      | load now =>
          obtain rfl := Option.some.inj moves
          exact ih quiet (h.load_left hs meets) (hs.load meets.1) ht

/-- Each `load` of a run returns what it returns in the run without the others. -/
theorem load_undisturbed {maxSize maxUsec start now : Nat} {front back : List Action}
    {s t : ThreadLoadCounter}
    (run : Run step InRange (init maxSize maxUsec start) (front ++ .load now :: back) s)
    (quiet : Run step InRange (init maxSize maxUsec start)
      (withoutLoads front ++ .load now :: withoutLoads back) t) :
    ∃ percent, t.loads = [percent] ∧
      s.loads[(front.filter Action.isLoad).length]? = some percent := by
  obtain ⟨s₁, hfront, hrest⟩ := run.split
  obtain ⟨t₁, hfront', hrest'⟩ := quiet.split
  obtain ⟨hquiet, hs, ht⟩ := quiet_run hfront hfront' (Quiet.refl _) (paced_init _ _ _)
    (paced_init _ _ _)
  cases hrest with
  | next meets moves hback =>
      obtain rfl := Option.some.inj moves
      cases hrest' with
      | next meets' moves' hback' =>
          obtain rfl := Option.some.inj moves'
          obtain ⟨early, hearly, hlength⟩ := loads_run hfront
          obtain ⟨later, hlater, -⟩ := loads_run hback
          have hreturned : t.loads = [percent
              (prune s₁.maxSize s₁.maxUsec s₁.timeList (s₁.totals now)).2] := by
            rw [loads_withoutLoads hback', load, loads_withoutLoads hfront',
              hquiet.percent_eq hs ht meets meets']
            rfl
          refine ⟨_, hreturned, ?_⟩
          rw [hlater, load, hearly, ← hlength, List.append_assoc, List.append_assoc]
          simp [init]

/-- The first load takes out the record of the first time run, which the second
load would also take out. -/
theorem load_undisturbed_pruned : ∃ s t : ThreadLoadCounter,
    s.loads = [20, 33] ∧ ∃ percent, t.loads = [percent] ∧ s.loads[1]? = some percent := by
  have run : Run step InRange (init 4 30 0)
      ([.startSleep 10, .sleepWakeUp 30, .load 35] ++ .load 40 :: [.startSleep 45]) _ :=
    Run.next ⟨by decide, by decide⟩ rfl <| Run.next ⟨by decide, by decide⟩ rfl <|
      Run.next ⟨by decide, by decide, by decide⟩ rfl <|
        Run.next ⟨by decide, by decide, by decide⟩ rfl <|
          Run.next ⟨by decide, by decide⟩ rfl Run.halt
  have quiet : Run step InRange (init 4 30 0)
      (withoutLoads [.startSleep 10, .sleepWakeUp 30, .load 35] ++
        .load 40 :: withoutLoads [.startSleep 45]) _ :=
    Run.next ⟨by decide, by decide⟩ rfl <| Run.next ⟨by decide, by decide⟩ rfl <|
      Run.next ⟨by decide, by decide, by decide⟩ rfl <|
        Run.next ⟨by decide, by decide⟩ rfl Run.halt
  exact ⟨_, _, rfl, load_undisturbed run quiet⟩

end ThreadLoadCounter

end FFZKit.Thread.LoadCounter
