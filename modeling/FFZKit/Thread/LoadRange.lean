import FFZKit.Thread.ThreadLoadCounter

/-!
# The load is a percentage

The stamps never pass the clock, so the times recorded are differences that do
not underflow. The totals of `load` cover the records that are still in the
list, so taking records out does not underflow either, and the time run stays a
part of the total time.
-/

namespace FFZKit.Thread.LoadCounter

open FFZKit.Foundations FFZKit.Foundations.Transition

/-- The time slept, or run, of some records. -/
def timeOf (sleep : Bool) (timeList : List TimeRecord) : Nat :=
  (timeList.map fun rcd => if rcd.sleep = sleep then rcd.time else 0).sum

@[simp] theorem timeOf_cons (sleep : Bool) (rcd : TimeRecord) (rest : List TimeRecord) :
    timeOf sleep (rcd :: rest) =
      (if rcd.sleep = sleep then rcd.time else 0) + timeOf sleep rest := by
  simp only [timeOf, List.map_cons, List.sum_cons]

/-- Totals that cover the records of a list, and are themselves in range. -/
structure Covers (timeList : List TimeRecord) (t : Totals) : Prop where
  sleep : timeOf true timeList ≤ t.totalSleepTime
  run : timeOf false timeList ≤ t.totalRunTime
  time : t.totalTime = t.totalRunTime + t.totalSleepTime
  fits : t.totalTime < 2 ^ 64
  hundredfold : t.totalRunTime * 100 < 2 ^ 64
  subtractions : ∀ p ∈ t.subtractions, p.2 ≤ p.1

namespace Covers

variable {t : Totals} {rcd : TimeRecord} {rest timeList : List TimeRecord}

/-- Taking out the first record subtracts what the totals contain. -/
theorem drop (h : Covers (rcd :: rest) t) : Covers rest (t.drop rcd) := by
  obtain ⟨hsleep, hrun, htime, hfits, hhundred, hsubs⟩ := h
  rw [timeOf_cons] at hsleep hrun
  rw [Totals.drop]
  cases hkind : rcd.sleep with
  | true =>
      rw [hkind, if_pos rfl] at hsleep
      rw [hkind, if_neg (by decide)] at hrun
      have hpart : rcd.time ≤ t.totalSleepTime := by omega
      have htotal : rcd.time ≤ t.totalTime := by omega
      rw [if_pos rfl, sub64_of_le hpart (by omega), sub64_of_le htotal hfits]
      refine ⟨by simp only; omega, by simp only; omega, by simp only; omega, by simp only; omega,
        hhundred, ?_⟩
      intro p hp
      rcases List.mem_append.mp hp with hp | hp
      · exact hsubs p hp
      · rcases List.mem_pair.mp hp with rfl | rfl
        · exact hpart
        · exact htotal
  | false =>
      rw [hkind, if_neg (by decide)] at hsleep
      rw [hkind, if_pos rfl] at hrun
      have hpart : rcd.time ≤ t.totalRunTime := by omega
      have htotal : rcd.time ≤ t.totalTime := by omega
      rw [if_neg (by decide), sub64_of_le hpart (by omega), sub64_of_le htotal hfits]
      refine ⟨by simp only; omega, by simp only; omega, by simp only; omega, by simp only; omega,
        by simp only; omega, ?_⟩
      intro p hp
      rcases List.mem_append.mp hp with hp | hp
      · exact hsubs p hp
      · rcases List.mem_pair.mp hp with rfl | rfl
        · exact hpart
        · exact htotal

/-- Whatever records the loop takes out, the totals cover the others. -/
theorem prune (maxSize maxUsec : Nat) (h : Covers timeList t) :
    Covers (prune maxSize maxUsec timeList t).1 (prune maxSize maxUsec timeList t).2 := by
  induction timeList generalizing t with
  | nil => exact h
  | cons rcd rest ih =>
      rw [LoadCounter.prune]
      by_cases hmore : maxUsec < t.totalTime ∨ maxSize < (rcd :: rest).length
      · rw [if_pos hmore]
        exact ih h.drop
      · rw [if_neg hmore]
        exact h

/-- The time run is at most the total time. -/
theorem percent_range (h : Covers timeList t) :
    0 ≤ ThreadLoadCounter.percent t ∧ ThreadLoadCounter.percent t ≤ 100 := by
  rw [ThreadLoadCounter.percent]
  by_cases hzero : t.totalTime = 0
  · rw [if_pos hzero]
    decide
  · have hpart : t.totalRunTime ≤ t.totalTime := h.time ▸ Nat.le_add_right _ _
    have hquotient : t.totalRunTime * 100 / t.totalTime ≤ 100 :=
      Nat.div_le_of_le_mul (Nat.mul_le_mul_right 100 hpart)
    rw [if_neg hzero, mul64_of_lt h.hundredfold]
    generalize t.totalRunTime * 100 / t.totalTime = quotient at hquotient
    rw [toInt32_of_lt (by omega)]
    omega

end Covers

theorem prune_length_le (maxSize maxUsec : Nat) (timeList : List TimeRecord) (t : Totals) :
    (prune maxSize maxUsec timeList t).1.length ≤ timeList.length := by
  induction timeList generalizing t with
  | nil => exact le_rfl
  | cons rcd rest ih =>
      rw [prune]
      split
      · exact (ih _).trans (Nat.le_succ _)
      · exact le_rfl

/-- The sums over the records do not wrap around when they fit. -/
theorem foldl_add {timeList : List TimeRecord} {t : Totals}
    (hsleep : t.totalSleepTime + timeOf true timeList < 2 ^ 64)
    (hrun : t.totalRunTime + timeOf false timeList < 2 ^ 64) :
    timeList.foldl Totals.add t =
      { t with
        totalSleepTime := t.totalSleepTime + timeOf true timeList
        totalRunTime := t.totalRunTime + timeOf false timeList } := by
  induction timeList generalizing t with
  | nil => rfl
  | cons rcd rest ih =>
      rw [timeOf_cons] at hsleep hrun
      cases hkind : rcd.sleep with
      | true =>
          rw [hkind, if_pos rfl] at hsleep
          rw [hkind, if_neg (by decide)] at hrun
          have hadd : t.add rcd =
              { t with totalSleepTime := t.totalSleepTime + rcd.time } := by
            rw [Totals.add, hkind, if_pos rfl, add64_of_lt (by omega)]
          rw [List.foldl_cons, hadd, ih (by simp only; omega) (by simp only; omega)]
          simp [hkind, Nat.add_assoc]
      | false =>
          rw [hkind, if_neg (by decide)] at hsleep
          rw [hkind, if_pos rfl] at hrun
          have hadd : t.add rcd = { t with totalRunTime := t.totalRunTime + rcd.time } := by
            rw [Totals.add, hkind, if_neg (by decide), add64_of_lt (by omega)]
          rw [List.foldl_cons, hadd, ih (by simp only; omega) (by simp only; omega)]
          simp [hkind, Nat.add_assoc]

namespace ThreadLoadCounter

/-- The time slept that `load` sums up. -/
def sleepTime (s : ThreadLoadCounter) (now : Nat) : Nat :=
  timeOf true s.timeList + if s.sleeping then now - s.lastSleepTime else 0

/-- The time run that `load` sums up. -/
def runTime (s : ThreadLoadCounter) (now : Nat) : Nat :=
  timeOf false s.timeList + if s.sleeping then 0 else now - s.lastWakeTime

/-- The clock reads a `uint64_t` not before its last reading, and the sums of
`load` and the hundredfold of the time run are in range. -/
def Fits (s : ThreadLoadCounter) : Action → Prop
  | .startSleep now => s.clock ≤ now ∧ now < 2 ^ 64
  | .sleepWakeUp now => s.clock ≤ now ∧ now < 2 ^ 64
  | .load now => s.clock ≤ now ∧ now < 2 ^ 64 ∧
      s.runTime now + s.sleepTime now < 2 ^ 64 ∧ s.runTime now * 100 < 2 ^ 64

/-- The invariant of the counter. -/
structure Sound (s : ThreadLoadCounter) : Prop where
  slept : s.lastSleepTime ≤ s.clock
  woke : s.lastWakeTime ≤ s.clock
  length : s.timeList.length ≤ s.maxSize
  subtractions : ∀ p ∈ s.subtractions, p.2 ≤ p.1
  loads : ∀ percent ∈ s.loads, 0 ≤ percent ∧ percent ≤ 100

theorem sound_init (maxSize maxUsec now : Nat) : Sound (init maxSize maxUsec now) where
  slept := le_rfl
  woke := le_rfl
  length := Nat.zero_le _
  subtractions := by simp [init]
  loads := by simp [init]

/-- A new record takes the place of the oldest when the list is full. -/
theorem Sound.record {s : ThreadLoadCounter} (h : Sound s) (rcd : TimeRecord) :
    Sound (s.record rcd) := by
  refine ⟨h.slept, h.woke, ?_, h.subtractions, h.loads⟩
  have hlength := h.length
  simp only [ThreadLoadCounter.record]
  split
  · simpa using hlength
  · omega

namespace Sound

variable {s : ThreadLoadCounter} {now : Nat}

theorem startSleep (h : Sound s) (hnow : s.clock ≤ now) : Sound (s.startSleep now) := by
  apply Sound.record
  refine ⟨le_rfl, h.woke.trans hnow, h.length, ?_, h.loads⟩
  intro p hp
  rcases List.mem_append.mp hp with hp | hp
  · exact h.subtractions p hp
  · obtain rfl := List.mem_singleton.mp hp
    exact h.woke.trans hnow

theorem sleepWakeUp (h : Sound s) (hnow : s.clock ≤ now) : Sound (s.sleepWakeUp now) := by
  apply Sound.record
  refine ⟨h.slept.trans hnow, le_rfl, h.length, ?_, h.loads⟩
  intro p hp
  rcases List.mem_append.mp hp with hp | hp
  · exact h.subtractions p hp
  · obtain rfl := List.mem_singleton.mp hp
    exact h.slept.trans hnow

/-- The totals of `load` are the exact sums. -/
theorem covers_totals (h : Sound s) (hfits : Fits s (.load now)) :
    Covers s.timeList (s.totals now) := by
  obtain ⟨hnow, hword, hsum, hhundred⟩ := hfits
  have hslept := h.slept.trans hnow
  have hwoke := h.woke.trans hnow
  rw [totals]
  rw [runTime, sleepTime] at hsum
  rw [runTime] at hhundred
  rw [foldl_add (by simp only; omega) (by simp only; omega)]
  cases hsleeping : s.sleeping with
  | true =>
      simp only [hsleeping, if_true, Nat.zero_add, Nat.add_zero] at hsum hhundred ⊢
      rw [sub64_of_le hslept hword, add64_of_lt (by omega), add64_of_lt (by omega)]
      exact ⟨Nat.le_add_right _ _, le_rfl, rfl, hsum, hhundred, by simpa using hslept⟩
  | false =>
      simp only [hsleeping, Bool.false_eq_true, if_false, Nat.zero_add, Nat.add_zero]
        at hsum hhundred ⊢
      rw [sub64_of_le hwoke hword, add64_of_lt (by omega), add64_of_lt hsum]
      exact ⟨le_rfl, Nat.le_add_right _ _, rfl, hsum, hhundred, by simpa using hwoke⟩

theorem load (h : Sound s) (hfits : Fits s (.load now)) : Sound (s.load now) := by
  have hcovers := (h.covers_totals hfits).prune s.maxSize s.maxUsec
  refine ⟨h.slept.trans hfits.1, h.woke.trans hfits.1,
    (prune_length_le _ _ _ _).trans h.length, ?_, ?_⟩
  · intro p hp
    rcases List.mem_append.mp hp with hp | hp
    · exact h.subtractions p hp
    · exact hcovers.subtractions p hp
  · intro percent hpercent
    rcases List.mem_append.mp hpercent with hpercent | hpercent
    · exact h.loads percent hpercent
    · obtain rfl := List.mem_singleton.mp hpercent
      exact hcovers.percent_range

end Sound

theorem sound_step {s t : ThreadLoadCounter} {a : Action} (hfits : Fits s a)
    (moves : step s a = some t) (h : Sound s) : Sound t := by
  cases a with
  | startSleep now =>
      obtain rfl := Option.some.inj moves
      exact h.startSleep hfits.1
  | sleepWakeUp now =>
      obtain rfl := Option.some.inj moves
      exact h.sleepWakeUp hfits.1
  | load now =>
      obtain rfl := Option.some.inj moves
      exact h.load hfits

/-- No call changes `_max_size`. -/
theorem step_maxSize {s t : ThreadLoadCounter} {a : Action} (moves : step s a = some t) :
    t.maxSize = s.maxSize := by
  cases a with
  | startSleep now => exact Option.some.inj moves ▸ rfl
  | sleepWakeUp now => exact Option.some.inj moves ▸ rfl
  | load now => exact Option.some.inj moves ▸ rfl

/-- In every run no subtraction underflows, the list keeps to its size, and each
load is a percentage. -/
theorem load_in_range {maxSize maxUsec now : Nat} {as : List Action} {s : ThreadLoadCounter}
    (run : Run step Fits (init maxSize maxUsec now) as s) :
    (∀ p ∈ s.subtractions, p.2 ≤ p.1) ∧ s.timeList.length ≤ maxSize ∧
      ∀ percent ∈ s.loads, 0 ≤ percent ∧ percent ≤ 100 := by
  have h : Sound s :=
    run.invariant (fun _ _ _ hfits moves => sound_step hfits moves) (sound_init _ _ _)
  have hsize : s.maxSize = maxSize :=
    run.invariant (P := fun s => s.maxSize = maxSize)
      (fun _ _ _ _ moves hsize => (step_maxSize moves).trans hsize) rfl
  exact ⟨h.subtractions, hsize ▸ h.length, h.loads⟩

/-- Two threads fall asleep one after the other, and the load is taken later. -/
theorem load_in_range_shared : ∃ s : ThreadLoadCounter,
    s.loads = [71] ∧ (∀ p ∈ s.subtractions, p.2 ≤ p.1) ∧ s.timeList.length ≤ 2 ∧
      ∀ percent ∈ s.loads, 0 ≤ percent ∧ percent ≤ 100 := by
  have run : Run step Fits (init 2 40 0)
      [.startSleep 10, .startSleep 20, .sleepWakeUp 30, .load 35] _ :=
    Run.next ⟨by decide, by decide⟩ rfl <| Run.next ⟨by decide, by decide⟩ rfl <|
      Run.next ⟨by decide, by decide⟩ rfl <|
        Run.next ⟨by decide, by decide, by decide, by decide⟩ rfl Run.halt
  exact ⟨_, by decide, load_in_range run⟩

end ThreadLoadCounter

end FFZKit.Thread.LoadCounter
