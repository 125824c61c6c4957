import FFZKit.Util.LocalTime
import Mathlib.Data.List.DropRight
import Mathlib.Algebra.Order.BigOperators.Group.List
import Mathlib.Algebra.Order.Ring.Int
import Mathlib.Tactic.Ring

/-!
# The time that a log file is taken for

`getLogFileTime` reads the date at the front of the name of a file, and takes
the first second of the day. A name without a date is as old as 1970.

## Implementation notes

`strptime` is that of the C library, which skips white space before a number, or
that of this repository, which does not. `mktime` counts days over the end of a
month on, and there is no daylight saving.
-/

namespace FFZKit.Util

open FFZKit.Foundations

/-- `getFileName` -/
def getFileName (file : List Char) : List Char := file.rtakeWhile (· ≠ '/')

section Parse

/-- The loop of `strptime` over the digits of a number, of which there are at
most `width`, and no more than `hi` allows. -/
def readDigits (hi : Nat) : Nat → Nat → List Char → Nat × List Char
  | width + 1, val, c :: s =>
      if c.isDigit ∧ val * 10 ≤ hi then
        readDigits hi width (val * 10 + (c.toNat - '0'.toNat)) s
      else (val, c :: s)
  | _, val, s => (val, s)

/-- `isspace` in the C locale. -/
def isspace (c : Char) : Bool := c = ' ' || ('\t' ≤ c && c ≤ '\x0d')

/-- A number of `strptime`, from `lo` to `hi`. -/
def getNumber (blanks : Bool) (lo hi width : Nat) (s : List Char) : Option (Nat × List Char) :=
  let s := if blanks then s.dropWhile isspace else s
  if s.head?.any Char.isDigit then
    let (val, s) := readDigits hi width 0 s
    if lo ≤ val ∧ val ≤ hi then some (val, s) else none
  else none

/-- `strptime(name, "%Y-%m-%d", &tm)`: the year, the month and the day. -/
def strptime (blanks : Bool) (name : List Char) : Option (Nat × Nat × Nat) :=
  match getNumber blanks 0 9999 4 name with
  | some (year, '-' :: s) =>
      match getNumber blanks 1 12 2 s with
      | some (month, '-' :: s) =>
          match getNumber blanks 1 31 2 s with
          | some (day, _) => some (year, month, day)
          | none => none
      | _ => none
  | _ => none

theorem numeral_succ (w n : Nat) :
    numeral (w + 1) n = (n / 10 ^ w % 10).digitChar :: numeral w n := by
  rw [Nat.add_comm, numeral_add]
  rfl

/-- A number of a fixed width is read to its end. -/
theorem readDigits_numeral {hi w n val : Nat} (hle : val * 10 ^ w + n % 10 ^ w ≤ hi)
    (rest : List Char) :
    readDigits hi w val (numeral w n ++ rest) = (val * 10 ^ w + n % 10 ^ w, rest) := by
  induction w generalizing val with
  | zero =>
      rw [numeral, List.nil_append, pow_zero, Nat.mul_one, Nat.mod_one, Nat.add_zero]
      cases rest <;> rfl
  | succ w ih =>
      have hdigit : n / 10 ^ w % 10 < 10 := Nat.mod_lt _ (by decide)
      have hvalue : ∀ a < 10, a.digitChar.toNat - '0'.toNat = a := by decide
      have hsum : (val * 10 + n / 10 ^ w % 10) * 10 ^ w + n % 10 ^ w =
          val * 10 ^ (w + 1) + n % 10 ^ (w + 1) := by
        rw [Nat.mod_pow_succ, pow_succ']
        ring
      have hfront : val * 10 ≤ hi := by
        have hpos : 1 ≤ 10 ^ w := Nat.one_le_pow _ _ (by decide)
        calc
          val * 10 ≤ val * 10 * 10 ^ w := Nat.le_mul_of_pos_right _ hpos
          _ = val * 10 ^ (w + 1) := by rw [pow_succ', Nat.mul_assoc]
          _ ≤ hi := (Nat.le_add_right _ _).trans hle
      rw [numeral_succ, List.cons_append, readDigits,
        if_pos ⟨isDigit_digitChar hdigit, hfront⟩, hvalue _ hdigit, ih (hsum ▸ hle), hsum]

theorem getNumber_numeral (blanks : Bool) {lo hi w n : Nat} (hw : 0 < w) (hn : n < 10 ^ w)
    (hlo : lo ≤ n) (hhi : n ≤ hi) (rest : List Char) :
    getNumber blanks lo hi w (numeral w n ++ rest) = some (n, rest) := by
  obtain ⟨w, rfl⟩ := Nat.exists_eq_add_of_le' hw
  have hdigit : n / 10 ^ w % 10 < 10 := Nat.mod_lt _ (by decide)
  have hblank : isspace (n / 10 ^ w % 10).digitChar = false := by
    have hnot : ∀ a < 10, isspace a.digitChar = false := by decide
    exact hnot _ hdigit
  have hskip : (if blanks = true then (numeral (w + 1) n ++ rest).dropWhile isspace
      else numeral (w + 1) n ++ rest) = numeral (w + 1) n ++ rest := by
    split
    · rw [numeral_succ, List.cons_append, List.dropWhile_cons_of_neg]
      rw [hblank]
      exact Bool.false_ne_true
    · rfl
  have hhead : (numeral (w + 1) n ++ rest).head?.any Char.isDigit = true := by
    rw [numeral_succ, List.cons_append, List.head?_cons, Option.any_some]
    exact isDigit_digitChar hdigit
  have hread : readDigits hi (w + 1) 0 (numeral (w + 1) n ++ rest) = (n, rest) := by
    have hle : 0 * 10 ^ (w + 1) + n % 10 ^ (w + 1) ≤ hi := by
      rwa [Nat.mod_eq_of_lt hn, Nat.zero_mul, Nat.zero_add]
    have h := readDigits_numeral hle rest
    rwa [Nat.mod_eq_of_lt hn, Nat.zero_mul, Nat.zero_add] at h
  simp only [getNumber, hskip, hhead, hread, if_true, if_pos (And.intro hlo hhi)]

/-- `strptime` reads what `getLogFilePath` writes. -/
theorem strptime_numeral (blanks : Bool) {year month day : Nat} (hyear : year ≤ 9999)
    (hmonth : 1 ≤ month ∧ month ≤ 12) (hday : 1 ≤ day ∧ day ≤ 31) (rest : List Char) :
    strptime blanks (numeral 4 year ++ '-' :: (numeral 2 month ++ '-' :: (numeral 2 day ++ rest))) =
      some (year, month, day) := by
  rw [strptime, getNumber_numeral blanks (by decide) (by omega) (Nat.zero_le _) hyear]
  simp only [
    getNumber_numeral blanks (w := 2) (n := month) (by decide) (by omega) hmonth.1 hmonth.2,
    getNumber_numeral blanks (w := 2) (n := day) (by decide) (by omega) hday.1 hday.2]

end Parse

section Days

/-- The leap days before a year. -/
def leapsBefore (year : Int) : Int := (year - 1) / 4 - (year - 1) / 100 + (year - 1) / 400

/-- The days from 1970 to the first day of a year. -/
def daysBefore (year : Int) : Int :=
  365 * (year - 1970) + leapsBefore year - leapsBefore 1970

/-- The days from 1970 to a date, where the day may be over the end of the month. -/
def civilDay (year : Int) (month : Nat) (day : Int) : Int :=
  daysBefore year + ((mdays year).take (month - 1)).sum + (day - 1)

theorem daysBefore_succ {year : Int} (h : 0 ≤ year) :
    daysBefore (year + 1) = daysBefore year + (365 + isLeapYear year) := by
  simp only [isLeapYear, Int.tmod_eq_emod_of_nonneg h, daysBefore, leapsBefore]
  split
  · omega
  · split
    · omega
    · split
      · omega
      · omega

theorem daysBefore_mono {year year' : Nat} (h : year ≤ year') :
    daysBefore year ≤ daysBefore year' := by
  induction year', h using Nat.le_induction with
  | base => exact le_rfl
  | succ year' _ ih =>
      have hsucc := daysBefore_succ (Int.natCast_nonneg year')
      have hleap := isLeapYear_mem year'
      rw [Nat.cast_succ]
      omega

/-- The loop over the years keeps the day. -/
theorem skipYears_days {year days : Int} (h : 0 ≤ year) :
    daysBefore (skipYears year days).1 + (skipYears year days).2 = daysBefore year + days := by
  fun_induction skipYears year days with
  | case1 => rfl
  | case2 year days length _ ih =>
      rw [ih (by omega), daysBefore_succ h]
      omega

/-- The loop over the months keeps the day, and stops in a month that holds it. -/
theorem skipMonths_days {mon : Int} {lengths : List Int} {days : Int} (hsum : days < lengths.sum) :
    (lengths.take ((skipMonths mon lengths days).1 - mon).toNat).sum +
        (skipMonths mon lengths days).2 = days ∧
      (skipMonths mon lengths days).2 <
        lengths.getD ((skipMonths mon lengths days).1 - mon).toNat 0 := by
  induction lengths generalizing mon days with
  | nil =>
      rw [skipMonths, Int.sub_self]
      exact ⟨Int.zero_add _, hsum⟩
  | cons length lengths ih =>
      rw [List.sum_cons] at hsum
      rw [skipMonths]
      split
      · obtain ⟨hdays, hlast⟩ := @ih (mon + 1) (days - length) (by omega)
        have hmon := le_skipMonths (mon + 1) lengths (days - length)
        generalize skipMonths (mon + 1) lengths (days - length) = found at hdays hlast hmon ⊢
        have hnext : (found.1 - mon).toNat = (found.1 - (mon + 1)).toNat + 1 := by omega
        rw [hnext, List.take_succ_cons, List.sum_cons, List.getD_cons_succ]
        exact ⟨by omega, hlast⟩
      · rw [Int.sub_self]
        exact ⟨Int.zero_add _, by simpa using Int.not_le.mp (by assumption)⟩

/-- The day of a date. -/
def Date.civilDay (date : Date) : Int := FFZKit.Util.civilDay date.year date.month date.day

/-- The day is in its month. -/
def Date.Valid (date : Date) : Prop :=
  date.day ≤ (mdays date.year).getD (date.month - 1) 0

instance (date : Date) : Decidable date.Valid := inferInstanceAs (Decidable (_ ≤ _))

/-- `getLocalTime` and `mktime` count the days alike. -/
theorem LocalClock.civilDay_of_localDate {clock : LocalClock} {startTime : Int}
    {threadName : String} {t : Int} {date : Date} (h : 0 ≤ clock.localSecond t)
    (hdate : (clock.zone startTime threadName).localDate t = date.toTuple) :
    date.civilDay = clock.localDay t ∧ date.Valid := by
  rw [localDate_eq] at hdate
  have hday : 0 ≤ clock.localDay t := Int.tdiv_nonneg h (by decide)
  have hyear := @skipYears_days 1970 (clock.localDay t) (by decide)
  have hyday := skipYears_mem 1970 hday
  generalize skipYears 1970 (clock.localDay t) = found at hyear hyday hdate
  obtain ⟨year, yday⟩ := found
  have hmonth := @skipMonths_days 0 (mdays year) yday (sum_mdays year ▸ hyday.2)
  have hmon := le_skipMonths 0 (mdays year) yday
  simp only [] at hyear hmonth hmon hdate
  generalize skipMonths 0 (mdays year) yday = found at hmonth hmon hdate
  obtain ⟨mon, mday⟩ := found
  simp only [Date.toTuple, Prod.mk.injEq] at hdate
  obtain ⟨rfl, hmon', hmday⟩ := hdate
  have hindex : (mon - 0).toNat = date.month - 1 := by omega
  rw [hindex] at hmonth
  have hzero : daysBefore 1970 = 0 := by decide
  refine ⟨?_, ?_⟩
  · rw [Date.civilDay, FFZKit.Util.civilDay]
    omega
  · rw [Date.Valid]
    omega

theorem sum_take_mono {lengths : List Int} (h : ∀ length ∈ lengths, 0 ≤ length) {k k' : Nat}
    (hle : k ≤ k') : (lengths.take k).sum ≤ (lengths.take k').sum := by
  obtain ⟨j, rfl⟩ := Nat.exists_eq_add_of_le hle
  rw [List.take_add, List.sum_append]
  have hrest : 0 ≤ ((lengths.drop k).take j).sum :=
    List.sum_nonneg fun length hmem => h length (List.mem_of_mem_drop (List.mem_of_mem_take hmem))
  omega

theorem sum_take_succ (lengths : List Int) (k : Nat) :
    (lengths.take (k + 1)).sum = (lengths.take k).sum + lengths.getD k 0 := by
  rw [List.take_add_one, List.sum_append, List.getD_eq_getElem?_getD]
  cases lengths[k]? <;> simp

/-- Of two dates the earlier one has the smaller day. -/
theorem Date.civilDay_lt {a b : Date} (hvalid : a.Valid) (h : a.Before b) :
    a.civilDay < b.civilDay := by
  have hnonneg : ∀ year : Int, ∀ length ∈ mdays year, 0 ≤ length := by
    intro year
    have hleap := isLeapYear_mem year
    simp only [mdays, List.forall_mem_cons]
    simp
    omega
  -- the date is before the end of its month
  have hend : a.civilDay < daysBefore a.year + ((mdays a.year).take a.month).sum := by
    have hsum := sum_take_succ (mdays a.year) (a.month - 1)
    rw [Nat.sub_add_cancel a.month_mem.1] at hsum
    rw [Valid] at hvalid
    rw [civilDay, FFZKit.Util.civilDay]
    omega
  have hbegin : daysBefore b.year + ((mdays b.year).take (b.month - 1)).sum ≤ b.civilDay := by
    have hday := b.day_mem.1
    rw [civilDay, FFZKit.Util.civilDay]
    omega
  rcases h with hyear | ⟨hyear, hmonth | ⟨hmonth, hday⟩⟩
  · have hmono := daysBefore_mono (Nat.succ_le_of_lt hyear)
    have hsucc := daysBefore_succ (Int.natCast_nonneg a.year)
    have hwhole := sum_take_mono (hnonneg a.year) (a.month_mem.2 : a.month ≤ 12)
    have hall : ((mdays a.year).take 12).sum = 365 + isLeapYear a.year := sum_mdays a.year
    have hpast := sum_take_mono (hnonneg b.year) (Nat.zero_le (b.month - 1))
    rw [List.take_zero, List.sum_nil] at hpast
    rw [Nat.cast_succ] at hmono
    omega
  · have hpast := sum_take_mono (hnonneg b.year) (Nat.le_sub_one_of_lt hmonth)
    rw [hyear] at hend
    omega
  · rw [civilDay, civilDay, FFZKit.Util.civilDay, FFZKit.Util.civilDay, hyear, hmonth]
    omega

end Days

/-- `mktime` of the first second of a day, for a time zone of `gmtoff`. -/
def mktime (gmtoff : Int) (year month day : Nat) : Int :=
  civilDay year month day * secondPerDay - gmtoff

/-- `getLogFileTime` -/
def getLogFileTime (blanks : Bool) (gmtoff : Int) (fullPath : String) : Int :=
  match strptime blanks (getFileName fullPath.toList) with
  | none => 0
  | some (year, month, day) => mktime gmtoff year month day

end FFZKit.Util
