import FFZKit.Util.LogFileName

/-!
# `getLocalTime`

`no_locks_localtime` counts the years and the months off from the day since
1970. The offset of the time zone and the daylight flag are read once, by
`local_time_init`. `getGMTOff` reports the offset without the daylight hour.

## Implementation notes

Seconds and years do not reach the ends of their types. The daylight flag is
`tm_isdst` as `localtime` returns it.
-/

namespace FFZKit.Util

/-- The variables that `local_time_init` sets. -/
structure LocalClock where
  currentTimezone : Int
  daylightActive : Int
  flag : -1 ≤ daylightActive ∧ daylightActive ≤ 1

/-- `struct tm` -/
structure Tm where
  sec : Int
  min : Int
  hour : Int
  mday : Int
  mon : Int
  year : Int
  wday : Int
  yday : Int
  isdst : Int
  gmtoff : Int
  deriving DecidableEq, Repr

/-- `is_leap_year` -/
def isLeapYear (year : Int) : Int :=
  if year.tmod 4 ≠ 0 then 0
  else if year.tmod 100 ≠ 0 then 1
  else if year.tmod 400 ≠ 0 then 0
  else 1

theorem isLeapYear_mem (year : Int) : isLeapYear year = 0 ∨ isLeapYear year = 1 := by
  unfold isLeapYear
  repeat' split
  all_goals simp

/-- The loop of `no_locks_localtime` over the years. -/
def skipYears (year days : Int) : Int × Int :=
  let days_this_year := 365 + isLeapYear year
  if days_this_year > days then (year, days)
  else skipYears (year + 1) (days - days_this_year)
termination_by days.toNat
decreasing_by have := isLeapYear_mem year; omega

/-- `mdays` -/
def mdays (year : Int) : List Int :=
  [31, 28 + isLeapYear year, 31, 30, 31, 30, 31, 31, 30, 31, 30, 31]

/-- The loop of `no_locks_localtime` over the months. -/
def skipMonths (mon : Int) : List Int → Int → Int × Int
  | [], days => (mon, days)
  | length :: lengths, days =>
      if days ≥ length then skipMonths (mon + 1) lengths (days - length) else (mon, days)

namespace LocalClock

/-- The seconds since 1970 on the local clock. -/
def localSecond (clock : LocalClock) (t : Int) : Int :=
  t - clock.currentTimezone + 3600 * clock.daylightActive

/-- The days since 1970 that `no_locks_localtime` begins with. -/
def localDay (clock : LocalClock) (t : Int) : Int := (clock.localSecond t).tdiv secondPerDay

/-- `getLocalTime`, which is `no_locks_localtime`. -/
def getLocalTime (clock : LocalClock) (t : Int) : Tm :=
  let days := clock.localDay t
  let seconds := (clock.localSecond t).tmod secondPerDay
  let (year, yday) := skipYears 1970 days
  let (mon, mday) := skipMonths 0 (mdays year) yday
  { sec := (seconds.tmod 3600).tmod 60
    min := (seconds.tmod 3600).tdiv 60
    hour := seconds.tdiv 3600
    mday := mday + 1
    mon := mon
    year := year - 1900
    wday := (days + 4).tmod 7
    yday := yday
    isdst := clock.daylightActive
    gmtoff := -clock.currentTimezone }

/-- `getGMTOff`, which is set from the time of the start. -/
def getGMTOff (clock : LocalClock) (startTime : Int) : Int :=
  (clock.getLocalTime startTime).gmtoff

/-- What `FileChannel` uses of the local time. -/
def zone (clock : LocalClock) (startTime : Int) (threadName : String) : Zone where
  gmtoff := clock.getGMTOff startTime
  localDate second :=
    let tm := clock.getLocalTime second
    (1900 + tm.year, 1 + tm.mon, tm.mday)
  threadName := threadName

end LocalClock

/-! ## The loops -/

theorem skipYears_of_lt {year days : Int} (h : days < 365 + isLeapYear year) :
    skipYears year days = (year, days) := by
  rw [skipYears]
  exact if_pos h

theorem skipYears_of_le {year days : Int} (h : 365 + isLeapYear year ≤ days) :
    skipYears year days = skipYears (year + 1) (days - (365 + isLeapYear year)) := by
  rw [skipYears]
  exact if_neg (by omega)

theorem le_skipYears (year days : Int) : year ≤ (skipYears year days).1 := by
  fun_induction skipYears year days with
  | case1 => exact Int.le_refl _
  | case2 year days length _ ih => omega

theorem skipYears_succ_ne (year days days' : Int) : skipYears (year + 1) days ≠ (year, days') := by
  intro heq
  have hle := le_skipYears (year + 1) days
  rw [heq] at hle
  omega

/-- The days left over are those of the year in which the loop stops. -/
theorem skipYears_mem (year : Int) {days : Int} (h : 0 ≤ days) :
    0 ≤ (skipYears year days).2 ∧
      (skipYears year days).2 < 365 + isLeapYear (skipYears year days).1 := by
  fun_induction skipYears year days with
  | case1 => exact ⟨h, by assumption⟩
  | case2 year days length hle ih => exact ih (by omega)

/-- Different days are not the same day of the same year. -/
theorem skipYears_inj {year days days' : Int} (h : skipYears year days = skipYears year days') :
    days = days' := by
  fun_induction skipYears year days generalizing days' with
  | case1 year days =>
      by_cases hlt : days' < 365 + isLeapYear year
      · rw [skipYears_of_lt hlt] at h
        exact (Prod.mk.inj h).2
      · rw [skipYears_of_le (Int.not_lt.mp hlt)] at h
        exact (skipYears_succ_ne _ _ _ h.symm).elim
  | case2 year days length =>
      rename_i ih
      by_cases hlt : days' < 365 + isLeapYear year
      · rw [skipYears_of_lt hlt] at h
        exact (skipYears_succ_ne _ _ _ h).elim
      · rw [skipYears_of_le (Int.not_lt.mp hlt)] at h
        have := ih h
        omega

/-- The loop stops at a month before the end of the year. -/
theorem skipMonths_mem (mon : Int) {lengths : List Int} {days : Int} (h0 : 0 ≤ days)
    (hsum : days < lengths.sum) (hle : ∀ length ∈ lengths, length ≤ 31) :
    mon ≤ (skipMonths mon lengths days).1 ∧
      (skipMonths mon lengths days).1 < mon + lengths.length ∧
      0 ≤ (skipMonths mon lengths days).2 ∧ (skipMonths mon lengths days).2 < 31 := by
  induction lengths generalizing mon days with
  | nil =>
      rw [List.sum_nil] at hsum
      omega
  | cons length lengths ih =>
      obtain ⟨hlength, hrest⟩ := List.forall_mem_cons.mp hle
      rw [List.sum_cons] at hsum
      rw [skipMonths, List.length_cons]
      split
      · have hih := ih (mon + 1) (Int.sub_nonneg_of_le (by assumption)) (by omega) hrest
        refine ⟨?_, ?_, hih.2.2⟩ <;> omega
      · refine ⟨?_, ?_, h0, ?_⟩ <;> simp only [] <;> omega

theorem le_skipMonths (mon : Int) (lengths : List Int) (days : Int) :
    mon ≤ (skipMonths mon lengths days).1 := by
  induction lengths generalizing mon days with
  | nil => exact Int.le_refl _
  | cons length lengths ih =>
      rw [skipMonths]
      split
      · have := ih (mon + 1) (days - length)
        omega
      · exact Int.le_refl _

theorem skipMonths_inj {lengths : List Int} {mon days days' : Int}
    (h : skipMonths mon lengths days = skipMonths mon lengths days') : days = days' := by
  induction lengths generalizing mon days days' with
  | nil => exact (Prod.mk.inj h).2
  | cons length lengths ih =>
      have hlater : ∀ d d' : Int, skipMonths (mon + 1) lengths d ≠ (mon, d') := by
        intro d d' heq
        have hle := le_skipMonths (mon + 1) lengths d
        rw [heq] at hle
        omega
      rw [skipMonths, skipMonths] at h
      split at h <;> split at h
      · have := ih h
        omega
      · exact (hlater _ _ h).elim
      · exact (hlater _ _ h.symm).elim
      · exact (Prod.mk.inj h).2

theorem sum_mdays (year : Int) : (mdays year).sum = 365 + isLeapYear year := by
  simp only [mdays, List.sum_cons, List.sum_nil]
  omega

namespace LocalClock

variable {clock : LocalClock} {startTime : Int} {threadName : String}

theorem localDate_eq (t : Int) :
    (clock.zone startTime threadName).localDate t =
      let (year, yday) := skipYears 1970 (clock.localDay t)
      let (mon, mday) := skipMonths 0 (mdays year) yday
      (year, 1 + mon, mday + 1) := by
  simp only [zone, getLocalTime]
  congr 1
  omega

/-- From 1970 on the local date is a date of the calendar. -/
theorem exists_date (startTime : Int) (threadName : String) {t : Int}
    (h : 0 ≤ clock.localSecond t) :
    ∃ date : Date, (clock.zone startTime threadName).localDate t = date.toTuple := by
  have hday : 0 ≤ clock.localDay t := Int.tdiv_nonneg h (by decide)
  have hyear := le_skipYears 1970 (clock.localDay t)
  have hyday := skipYears_mem 1970 hday
  rw [localDate_eq]
  generalize skipYears 1970 (clock.localDay t) = found at hyear hyday ⊢
  obtain ⟨year, yday⟩ := found
  have hlengths : ∀ length ∈ mdays year, length ≤ 31 := by
    have := isLeapYear_mem year
    simp only [mdays, List.forall_mem_cons]
    simp
    omega
  have hmonth := skipMonths_mem 0 hyday.1 (sum_mdays year ▸ hyday.2) hlengths
  simp only [] at hmonth ⊢
  generalize skipMonths 0 (mdays year) yday = month at hmonth ⊢
  obtain ⟨mon, mday⟩ := month
  simp only [mdays, List.length_cons, List.length_nil] at hmonth hyear
  refine ⟨⟨year.toNat, (1 + mon).toNat, (mday + 1).toNat, by omega, by omega⟩, ?_⟩
  simp only [Date.toTuple, Prod.mk.injEq]
  omega

/-- The local date tells the day. -/
theorem localDay_eq_of_localDate {t t' : Int}
    (h : (clock.zone startTime threadName).localDate t =
      (clock.zone startTime threadName).localDate t') : clock.localDay t = clock.localDay t' := by
  rw [localDate_eq, localDate_eq] at h
  refine skipYears_inj (?_ : skipYears 1970 _ = skipYears 1970 _)
  generalize skipYears 1970 (clock.localDay t) = found at h ⊢
  generalize skipYears 1970 (clock.localDay t') = found' at h ⊢
  obtain ⟨year, yday⟩ := found
  obtain ⟨year', yday'⟩ := found'
  simp only [Prod.mk.injEq] at h ⊢
  obtain ⟨rfl, hmon, hmday⟩ := h
  have hmonth : skipMonths 0 (mdays year) yday = skipMonths 0 (mdays year) yday' :=
    Prod.ext (by omega) (by omega)
  exact ⟨rfl, skipMonths_inj hmonth⟩

theorem localDate_congr {t t' : Int} (h : clock.localDay t = clock.localDay t') :
    (clock.zone startTime threadName).localDate t =
      (clock.zone startTime threadName).localDate t' := by
  rw [localDate_eq, localDate_eq, h]

end LocalClock

end FFZKit.Util
