import FFZKit.Util.LogFileTime
import FFZKit.Util.LogRetentionOrder

/-!
# Which log files are too old

The first loop of `clean` stops at the first file that it does not take for
older than the days to keep. For a file of the channel this is the truth, and
the names of these files are in the order of their days. A file that the
channel has not named may be taken for what it is not.
-/

namespace FFZKit.Util

open FFZKit.Foundations

/-- `YYYY-MM-DD` -/
def Date.digits (date : Date) : List Char :=
  numeral 4 date.year ++ '-' :: (numeral 2 date.month ++ '-' :: numeral 2 date.day)

namespace FileRetention

section Expired

/-- The name of the file begins with a valid date, `days` days or more before `today`. -/
def CarriesExpired (today : Int) (days : Nat) (file : String) : Prop :=
  ∃ date : Date, date.Valid ∧ date.year ≤ 9999 ∧ date.civilDay + days ≤ today ∧
    date.digits <+: getFileName file.toList

variable (blanks : Bool) (zone : Zone)

/-- The day of the local clock. -/
def today (now : Int) : Int := (now + zone.gmtoff) / secondPerDay

/-- The channel may have named the file. -/
def Own (s : FileRetention) (file : String) : Prop :=
  ∃ second index, file = getLogFilePath zone s.chn.dir second index

/-- The test at which the first loop of `clean` stops. -/
def Fresh (s : FileRetention) (now : Int) (file : String) : Prop :=
  s.Young zone (getLogFileTime blanks zone.gmtoff) now file

/-- The first loop of `clean` deletes only files with an expired date, and of
the files that the channel has named it deletes all with an expired date. -/
structure ExpiresExactly (s : FileRetention) (now : Int) : Prop where
  only : ∀ file ∈ s.logFileMap,
    file ∉ s.expire zone (getLogFileTime blanks zone.gmtoff) now →
      CarriesExpired (today zone now) s.maxDay file
  all : ∀ file ∈ s.logFileMap, s.Own zone file →
    CarriesExpired (today zone now) s.maxDay file →
      file ∉ s.expire zone (getLogFileTime blanks zone.gmtoff) now

end Expired

section Names

theorem slash_notMem_repr (n : Nat) : '/' ∉ (toString n).toList := by
  have hdigits : (toString n).toList = Nat.toDigits 10 n := Nat.toList_repr
  rw [hdigits]
  exact notMem_of_isDigit (fun _ => Nat.isDigit_of_mem_toDigits (by decide) (by decide)) rfl

theorem slash_notMem_toString (v : Int) : '/' ∉ (toString v).toList := by
  cases v with
  | ofNat n => exact slash_notMem_repr n
  | negSucc n =>
      have hneg : toString (Int.negSucc n) = "-" ++ toString (n + 1) := rfl
      rw [hneg, String.toList_append, List.mem_append, not_or]
      exact ⟨by decide, slash_notMem_repr (n + 1)⟩

theorem slash_notMem_padded (w : Nat) (v : Int) : '/' ∉ (padded w v).toList := by
  have hdigits := slash_notMem_repr v.natAbs
  simp only [padded, String.toList_append, String.toList_ofList, List.mem_append, not_or]
  refine ⟨⟨?_, ?_⟩, hdigits⟩
  · split
    · decide
    · decide
  · intro hmem
    exact absurd (List.eq_of_mem_replicate hmem) (by decide)

theorem getFileName_append {dir name : List Char} (hdir : dir.getLast? = some '/')
    (hname : '/' ∉ name) : getFileName (dir ++ name) = name := by
  obtain ⟨front, rfl⟩ := List.getLast?_eq_some_iff.mp hdir
  rw [getFileName]
  induction name using List.reverseRecOn with
  | nil => rw [List.append_nil, List.rtakeWhile_concat_neg _ _ _ (by decide)]
  | append_singleton name c ih =>
      rw [List.mem_append, List.mem_singleton, not_or] at hname
      rw [← List.append_assoc, List.rtakeWhile_concat_pos _ _ _ (by simpa using Ne.symm hname.2),
        ih hname.1]

/-- The name of a file of the channel comes behind the directory. -/
theorem exists_name {zone : Zone} {s : FileRetention} {file : String} (h : s.Own zone file) :
    ∃ name, '/' ∉ name ∧ file.toList = s.chn.dir.toList ++ name := by
  obtain ⟨second, index, rfl⟩ := h
  simp only [getLogFilePath, String.toList_append, List.append_assoc]
  refine ⟨_, ?_, rfl⟩
  simp only [List.mem_append, not_or]
  refine ⟨slash_notMem_toString _, by decide, slash_notMem_padded _ _, by decide,
    slash_notMem_padded _ _, by decide, slash_notMem_padded _ _, by decide⟩

/-- Files of one directory are in the order of their dates. -/
theorem lt_of_digits {a b : Date} (ha : a.year ≤ 9999) (hb : b.year ≤ 9999) (h : a.Before b)
    {dir s t : List Char} (hs : a.digits <+: s) (ht : b.digits <+: t) : dir ++ s < dir ++ t := by
  obtain ⟨s, rfl⟩ := hs
  obtain ⟨t, rfl⟩ := ht
  rw [append_lt_append_iff, Date.digits, Date.digits]
  simp only [List.append_assoc, List.cons_append]
  rw [numeral_append_lt_iff (by omega) (by omega), List.cons_lt_cons_self,
    numeral_append_lt_iff a.month_lt b.month_lt, List.cons_lt_cons_self,
    numeral_append_lt_iff a.day_lt b.day_lt]
  rcases h with hyear | ⟨hyear, hmonth | ⟨hmonth, hday⟩⟩
  · exact Or.inl hyear
  · exact Or.inr ⟨hyear, Or.inl hmonth⟩
  · exact Or.inr ⟨hyear, Or.inr ⟨hmonth, Or.inl hday⟩⟩

/-- A name that begins with a date begins with a digit. -/
theorem isDigit_of_digits {date : Date} {c : Char} {rest : List Char}
    (h : date.digits <+: c :: rest) : c.isDigit = true := by
  obtain ⟨back, hback⟩ := h
  rw [Date.digits, numeral_succ] at hback
  rw [← (List.cons.inj hback).1]
  exact isDigit_digitChar (Nat.mod_lt _ (by decide))

end Names

section Regular

/-- The channel has named the file for a day from 1970 to 9999, and neither that
day with the days to keep nor the day of `now` leaves the 64 bits. -/
def Regular (zone : Zone) (s : FileRetention) (now : Int) (file : String) : Prop :=
  (0 ≤ today zone now ∧ today zone now < 2 ^ 64) ∧
    ∃ second index, ∃ date : Date, 0 ≤ second + zone.gmtoff ∧
      zone.localDate second = date.toTuple ∧ date.year ≤ 9999 ∧
      date.civilDay + s.maxDay < 2 ^ 64 ∧ file = getLogFilePath zone s.chn.dir second index

variable {clock : LocalClock} {startTime : Int} {threadName : String} {zone : Zone}
  {s : FileRetention} {now : Int} {file : String} {blanks : Bool}

theorem gmtoff_zone (clock : LocalClock) (startTime : Int) (threadName : String) :
    (clock.zone startTime threadName).gmtoff = -clock.currentTimezone := by
  simp only [LocalClock.zone, LocalClock.getGMTOff, LocalClock.getLocalTime]

theorem dayNumber_eq {zone : Zone} {second day : Int} (h : getDay zone second = day)
    (hday : 0 ≤ day ∧ day < 2 ^ 64) : (dayNumber zone second : Int) = day := by
  rw [dayNumber, h]
  omega

/-- The name of a file of the channel begins with its date. -/
theorem digits_front (hzone : zone = clock.zone startTime threadName)
    (hdir : s.chn.dir.toList.getLast? = some '/') (index : Int) {second : Int} {date : Date}
    (hdate : zone.localDate second = date.toTuple) (hyear : date.year ≤ 9999) :
    date.digits <+: getFileName (getLogFilePath zone s.chn.dir second index).toList := by
  obtain ⟨name, hslash, hname⟩ := exists_name (s := s) ⟨second, index, rfl⟩
  rw [hname, getFileName_append hdir hslash]
  rw [toList_getLogFilePath hdate] at hname
  have hfirst : 1970 ≤ date.year := by
    have hle := le_skipYears 1970 (clock.localDay second)
    rw [hzone, LocalClock.localDate_eq] at hdate
    simp only [Date.toTuple, Prod.mk.injEq] at hdate
    omega
  rw [← List.append_cancel_left hname, Date.text, toDigits_year ⟨by omega, hyear⟩]
  exact ⟨'_' :: indexText index, by simp [Date.digits]⟩

/-- The day that the first loop of `clean` finds in a name that begins with a date. -/
theorem getDay_getLogFileTime (blanks : Bool) (zone : Zone) {date : Date}
    (hyear : date.year ≤ 9999) (hdigits : date.digits <+: getFileName file.toList) :
    getDay zone (getLogFileTime blanks zone.gmtoff file) = date.civilDay := by
  obtain ⟨rest, hrest⟩ := hdigits
  rw [Date.digits, List.append_assoc, List.cons_append, List.append_assoc, List.cons_append]
    at hrest
  rw [getLogFileTime, ← hrest, strptime_numeral blanks hyear date.month_mem date.day_mem]
  simp only [mktime, getDay, Int.sub_add_cancel]
  exact Int.mul_tdiv_cancel _ (by decide)

/-- A regular file is fresh exactly when its date is not expired. -/
theorem Regular.fresh_iff (h : s.Regular zone now file)
    (hzone : zone = clock.zone startTime threadName) (hdst : clock.daylightActive = 0)
    (hdir : s.chn.dir.toList.getLast? = some '/') (blanks : Bool) :
    ∃ date : Date, date.Valid ∧ date.year ≤ 9999 ∧
      date.digits <+: getFileName file.toList ∧
      (s.Fresh blanks zone now file ↔ today zone now < date.civilDay + s.maxDay) := by
  obtain ⟨hnow, second, index, date, hsecond, hdate, hyear, hkeep, rfl⟩ := h
  have hlocal : 0 ≤ clock.localSecond second := by
    rw [hzone, gmtoff_zone] at hsecond
    rw [LocalClock.localSecond, hdst]
    omega
  obtain ⟨hday, hvalid⟩ := LocalClock.civilDay_of_localDate hlocal (hzone ▸ hdate)
  have hnonneg : 0 ≤ date.civilDay := hday ▸ Int.tdiv_nonneg hlocal (by decide)
  have hdigits := digits_front hzone hdir index hdate hyear
  refine ⟨date, hvalid, hyear, hdigits, ?_⟩
  have htoday : getDay zone now = today zone now := by
    have hpos : 0 ≤ now + zone.gmtoff := by
      have hfloor := hnow.1
      rw [today, secondPerDay] at hfloor
      omega
    rw [getDay, today, Int.tdiv_eq_ediv_of_nonneg hpos]
  have hleft := dayNumber_eq htoday hnow
  have hright := dayNumber_eq (getDay_getLogFileTime blanks zone hyear hdigits)
    ⟨hnonneg, by omega⟩
  rw [Fresh, Young]
  omega

theorem before_of_civilDay_lt {a b : Date} (hvalid : b.Valid) (h : a.civilDay < b.civilDay) :
    a.Before b := by
  have htotal : a.Before b ∨ a = b ∨ b.Before a := by
    rw [Date.ext_iff]
    simp only [Date.Before]
    omega
  rcases htotal with hbefore | rfl | hafter
  · exact hbefore
  · exact absurd h (lt_irrefl _)
  · exact absurd (Date.civilDay_lt hvalid hafter) h.asymm

theorem Regular.own (h : s.Regular zone now file) : s.Own zone file := by
  obtain ⟨-, second, index, _, -, -, -, -, hname⟩ := h
  exact ⟨second, index, hname⟩

/-- An own file with an expired date comes before a regular file that is young. -/
theorem lt_of_expired_of_young (hzone : zone = clock.zone startTime threadName)
    (hdst : clock.daylightActive = 0) (hdir : s.chn.dir.toList.getLast? = some '/')
    {old young : String} (hold : s.Own zone old)
    (hexpired : CarriesExpired (today zone now) s.maxDay old)
    (hregular : s.Regular zone now young) (hyoung : s.Fresh blanks zone now young) :
    old < young := by
  obtain ⟨a, havalid, hayear, hless, hadigits⟩ := hexpired
  obtain ⟨b, hbvalid, hbyear, hbdigits, hiff⟩ := hregular.fresh_iff hzone hdst hdir blanks
  have hmore := hiff.mp hyoung
  have hbefore : a.Before b := before_of_civilDay_lt hbvalid (by omega)
  obtain ⟨aname, haslash, hafile⟩ := exists_name hold
  obtain ⟨bname, hbslash, hbfile⟩ := exists_name hregular.own
  rw [hafile, getFileName_append hdir haslash] at hadigits
  rw [hbfile, getFileName_append hdir hbslash] at hbdigits
  rw [String.lt_iff_toList_lt, hafile, hbfile]
  exact lt_of_digits hayear hbyear hbefore hadigits hbdigits

theorem mem_expire_iff (blanks : Bool) {file : String} (hfile : file ∈ s.logFileMap) :
    file ∈ s.expire zone (getLogFileTime blanks zone.gmtoff) now ↔
      ∃ g ∈ s.logFileMap, g ≤ file ∧ s.Fresh blanks zone now g := by
  rw [expire_eq, unexpired, Finset.mem_filter]
  exact and_iff_right hfile

/-- A regular file that is deleted has an expired date. -/
theorem Regular.expired_of_dropped (h : s.Regular zone now file)
    (hzone : zone = clock.zone startTime threadName) (hdst : clock.daylightActive = 0)
    (hdir : s.chn.dir.toList.getLast? = some '/') (hfile : file ∈ s.logFileMap)
    (hdropped : file ∉ s.expire zone (getLogFileTime blanks zone.gmtoff) now) :
    CarriesExpired (today zone now) s.maxDay file := by
  obtain ⟨date, hvalid, hyear, hdigits, hiff⟩ := h.fresh_iff hzone hdst hdir blanks
  refine ⟨date, hvalid, hyear, ?_, hdigits⟩
  by_contra hnot
  exact hdropped ((mem_expire_iff blanks hfile).mpr
    ⟨file, hfile, le_refl file, hiff.mpr (not_le.mp hnot)⟩)

/-- Among regular files, those with an expired date are deleted, and no others. -/
theorem notMem_expire_iff (hzone : zone = clock.zone startTime threadName)
    (hdst : clock.daylightActive = 0) (hdir : s.chn.dir.toList.getLast? = some '/')
    (hregular : ∀ g ∈ s.logFileMap, s.Regular zone now g) (blanks : Bool)
    (hfile : file ∈ s.logFileMap) :
    file ∉ s.expire zone (getLogFileTime blanks zone.gmtoff) now ↔
      CarriesExpired (today zone now) s.maxDay file := by
  constructor
  · exact (hregular file hfile).expired_of_dropped hzone hdst hdir hfile
  · intro hexpired hkept
    obtain ⟨g, hg, hle, hfresh⟩ := (mem_expire_iff blanks hfile).mp hkept
    have hlt := lt_of_expired_of_young hzone hdst hdir (hregular file hfile).own hexpired
      (hregular g hg) hfresh
    exact absurd hlt hle.not_gt

/-- The first loop of `clean` deletes what is expired exactly when every
recorded file that is not regular has an expired date or a fresh file at or
before it, and comes behind all expired files of the channel if it is fresh. -/
theorem expires_exactly_iff (hzone : zone = clock.zone startTime threadName)
    (hdst : clock.daylightActive = 0) (hdir : s.chn.dir.toList.getLast? = some '/')
    (blanks : Bool) :
    s.ExpiresExactly blanks zone now ↔
      ∀ file ∈ s.logFileMap, s.Regular zone now file ∨
        (CarriesExpired (today zone now) s.maxDay file ∨
          ∃ g ∈ s.logFileMap, g ≤ file ∧ s.Fresh blanks zone now g) ∧
        (s.Fresh blanks zone now file → ∀ old ∈ s.logFileMap, s.Own zone old →
          CarriesExpired (today zone now) s.maxDay old → old < file) := by
  constructor
  · intro hexact file hfile
    refine Or.inr ⟨?_, fun hfresh old hold hown hexpired => ?_⟩
    · by_cases hkept : file ∈ s.expire zone (getLogFileTime blanks zone.gmtoff) now
      · exact Or.inr ((mem_expire_iff blanks hfile).mp hkept)
      · exact Or.inl (hexact.only file hfile hkept)
    · by_contra hnot
      exact hexact.all old hold hown hexpired
        ((mem_expire_iff blanks hold).mpr ⟨file, hfile, not_lt.mp hnot, hfresh⟩)
  · intro hcond
    refine ⟨fun file hfile hdropped => ?_, fun file hfile hown hexpired hkept => ?_⟩
    · rcases hcond file hfile with hregular | ⟨hexpired | hkept, -⟩
      · exact hregular.expired_of_dropped hzone hdst hdir hfile hdropped
      · exact hexpired
      · exact absurd ((mem_expire_iff blanks hfile).mpr hkept) hdropped
    · obtain ⟨g, hg, hle, hfresh⟩ := (mem_expire_iff blanks hfile).mp hkept
      rcases hcond g hg with hregular | ⟨-, hbehind⟩
      · exact absurd (lt_of_expired_of_young hzone hdst hdir hown hexpired hregular hfresh)
          hle.not_gt
      · exact absurd (hbehind hfresh file hfile hown hexpired) hle.not_gt

end Regular

/-- A channel that has recorded some files, and keeps them for 30 days. -/
def recorded (files : Finset String) : FileRetention :=
  { twoSlices with
    chn := { FileChannel.new .LTrace "log" 0 with dir := "log/" }
    logFileMap := files }

theorem dir_recorded (files : Finset String) :
    (recorded files).chn.dir.toList.getLast? = some '/' := by
  change "log/".toList.getLast? = some '/'
  decide

theorem greenwich_eq : greenwich = LocalClock.zone ⟨0, 0, by decide⟩ 0 "main" := rfl

theorem gmtoff_greenwich : greenwich.gmtoff = 0 := gmtoff_zone _ _ _

theorem today_greenwich (day : Int) : today greenwich (day * secondPerDay) = day := by
  rw [today, gmtoff_greenwich, Int.add_zero]
  exact Int.mul_ediv_cancel _ (by decide)

/-- Three weeks into 1970. -/
def laterDay : Date := { firstDay with day := 21, day_mem := by decide }

theorem localDate_laterDay : greenwich.localDate (20 * secondPerDay) = laterDay.toTuple := by
  rw [greenwich, LocalClock.localDate_eq, skipYears_of_lt (by decide)]
  decide

theorem expires_exactly_two_files :
    (recorded {getLogFilePath greenwich "log/" 0 0,
      getLogFilePath greenwich "log/" (20 * secondPerDay) 0}).ExpiresExactly true greenwich
        (40 * secondPerDay) := by
  have hnow : 0 ≤ today greenwich (40 * secondPerDay) ∧
      today greenwich (40 * secondPerDay) < 2 ^ 64 := by
    rw [today_greenwich]
    decide
  refine (expires_exactly_iff greenwich_eq rfl (dir_recorded _) true).mpr fun file hfile =>
    Or.inl ⟨hnow, ?_⟩
  rcases Finset.mem_insert.mp hfile with rfl | hfile
  · refine ⟨0, 0, firstDay, ?_, localDate_greenwich, by decide, by decide, rfl⟩
    rw [gmtoff_greenwich]
    decide
  · obtain rfl := Finset.mem_singleton.mp hfile
    refine ⟨20 * secondPerDay, 0, laterDay, ?_, localDate_laterDay, by decide, by decide, rfl⟩
    rw [gmtoff_greenwich]
    decide

theorem getDay_greenwich (day : Int) : getDay greenwich (day * secondPerDay) = day := by
  rw [getDay, gmtoff_greenwich, Int.add_zero]
  exact Int.mul_tdiv_cancel _ (by decide)

/-- A year before 1970. -/
def earlyDay : Date := { firstDay with year := 1969 }

theorem earlyDay_front : earlyDay.digits <+: "1969-01-01.log".toList :=
  ⟨".log".toList, by decide⟩

theorem getFileName_early : getFileName "log/1969-01-01.log".toList = "1969-01-01.log".toList := by
  decide

theorem getFileName_undated : getFileName "log/app.log".toList = "app.log".toList := by
  decide

/-- A file without a date is as old as 1970. -/
theorem not_fresh_undated (files : Finset String) :
    ¬ (recorded files).Fresh true greenwich (40 * secondPerDay) "log/app.log" := by
  have htime : getLogFileTime true greenwich.gmtoff "log/app.log" = 0 := by
    rw [getLogFileTime, getFileName_undated]
    decide
  have hday := dayNumber_eq (getDay_greenwich 0) (by decide)
  have hnow := dayNumber_eq (getDay_greenwich 40) (by decide)
  rw [Int.zero_mul] at hday
  rw [Fresh, Young, htime]
  change ¬ _ < (_ + 30) % 2 ^ 64
  omega

/-- The day of a file from before 1970 wraps around, and the file passes for fresh. -/
theorem fresh_early (files : Finset String) :
    (recorded files).Fresh true greenwich (40 * secondPerDay) "log/1969-01-01.log" := by
  have htime := getDay_getLogFileTime true greenwich (by decide)
    (getFileName_early ▸ earlyDay_front)
  have hday : dayNumber greenwich (getLogFileTime true greenwich.gmtoff
      "log/1969-01-01.log") = 2 ^ 64 - 365 := by
    rw [dayNumber, htime]
    decide
  have hnow := dayNumber_eq (getDay_greenwich 40) (by decide)
  rw [Fresh, Young, hday]
  change _ < (2 ^ 64 - 365 + 30) % 2 ^ 64
  omega

/-- A file without a date is deleted, and a file with a date long before 1970
keeps an expired file of the channel from being deleted. -/
theorem not_expires_exactly :
    ¬ (recorded {"log/app.log"}).ExpiresExactly true greenwich (40 * secondPerDay) ∧
      ¬ (recorded {"log/1969-01-01.log", getLogFilePath greenwich "log/" 0 0}).ExpiresExactly
        true greenwich (40 * secondPerDay) := by
  constructor
  · intro hexact
    have hdropped : "log/app.log" ∉ (recorded {"log/app.log"}).expire greenwich
        (getLogFileTime true greenwich.gmtoff) (40 * secondPerDay) := by
      rw [mem_expire_iff true (Finset.mem_singleton_self _)]
      rintro ⟨g, hg, -, hfresh⟩
      obtain rfl := Finset.mem_singleton.mp hg
      exact not_fresh_undated _ hfresh
    obtain ⟨date, -, -, -, hdigits⟩ := hexact.only _ (Finset.mem_singleton_self _) hdropped
    rw [getFileName_undated] at hdigits
    have hdigit : 'a'.isDigit = true := isDigit_of_digits hdigits
    cases hdigit
  · intro hexact
    have hown : (recorded {"log/1969-01-01.log", getLogFilePath greenwich "log/" 0 0}).Own
        greenwich (getLogFilePath greenwich "log/" 0 0) := ⟨0, 0, rfl⟩
    have hmem : getLogFilePath greenwich "log/" 0 0 ∈
        (recorded {"log/1969-01-01.log", getLogFilePath greenwich "log/" 0 0}).logFileMap :=
      Finset.mem_insert_of_mem (Finset.mem_singleton_self _)
    have hdigits : firstDay.digits <+: getFileName (getLogFilePath greenwich "log/" 0 0).toList :=
      digits_front greenwich_eq (dir_recorded ∅) 0 localDate_greenwich (by decide)
    have hexpired : CarriesExpired (today greenwich (40 * secondPerDay)) 30
        (getLogFilePath greenwich "log/" 0 0) := by
      rw [today_greenwich]
      exact ⟨firstDay, by decide, by decide, by decide, hdigits⟩
    refine hexact.all _ hmem hown hexpired ((mem_expire_iff true hmem).mpr
      ⟨"log/1969-01-01.log", Finset.mem_insert_self _ _, le_of_lt ?_, ?_⟩)
    · obtain ⟨name, hslash, hname⟩ := exists_name hown
      have hearly : "log/1969-01-01.log".toList =
          (recorded ∅).chn.dir.toList ++ "1969-01-01.log".toList := by decide
      rw [hname, getFileName_append (dir_recorded _) hslash] at hdigits
      rw [String.lt_iff_toList_lt, hname, hearly]
      exact lt_of_digits (by decide) (by decide) (by decide : earlyDay.Before firstDay)
        earlyDay_front hdigits
    · exact fresh_early _

end FileRetention

end FFZKit.Util
