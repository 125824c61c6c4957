import FFZKit.Util.LocalTime
import Mathlib.Data.List.Induction

/-!
# The dates of log files

`FileChannel::write` begins a new file when `getDay` changes, and names it by
the local date. The daylight hour counts for the date alone, so in the last
hour of a day of `getDay` a message may find the file of the date before.
-/

namespace FFZKit.Util

namespace FileChannel

variable (zone : Zone) (sizes : Nat → Nat)

/-- `changeFile` when the file opens -/
def reopened (chn : FileChannel) (second : Int) : FileChannel :=
  { chn with index := (chn.index + 1) % 2 ^ 64 }.setPath
    (getLogFilePath zone chn.dir second (Int.bmod chn.index (2 ^ 32))) true

/-- `checkSize` when the file opens -/
def sizeChecked (chn : FileChannel) (second : Int) : FileChannel :=
  if 60 < second - chn.lastCheckTime then
    let asked := { chn with queries := chn.queries + 1 }
    let next :=
      if chn.limit < chn.size (sizes chn.queries) then asked.reopened zone second else asked
    { next with lastCheckTime := second }
  else chn

/-- The channel that `write` hands the message to when the file opens. -/
def turned (chn : FileChannel) (second : Int) : FileChannel :=
  let day := getDay zone second
  if day ≠ chn.lastDay then
    { chn with index := if chn.lastDay ≠ -1 then 0 else chn.index, lastDay := day }.reopened
      zone second
  else chn.sizeChecked zone sizes second

/-- `write` when every file opens -/
def written (chn : FileChannel) (ctx : LogContext) : FileChannel :=
  let chn := chn.turned zone sizes ctx.tv.sec
  if chn.canWrite then chn.record ctx else chn

/-- The record is in a file whose name has its local date. -/
def Dated (dir : String) (record : String × LogContext) : Prop :=
  ∃ index : Int, record.1 = getLogFilePath zone dir record.2.tv.sec index

/-- What a channel has after some messages: the first message of its day gave
the file its name. -/
structure Follows (chn₀ : FileChannel) (done : List LogContext) (chn : FileChannel) : Prop where
  dir : chn.dir = chn₀.dir
  level : chn.level = chn₀.level
  file : done = [] ∧ chn.lastDay = -1 ∨ chn.canWrite = true ∧ ∃ first ∈ done,
    chn.lastDay = getDay zone first.tv.sec ∧ Dated zone chn.dir (chn.path, first)

section Turn

variable {zone sizes} {chn : FileChannel} {second : Int}

@[simp] theorem dir_turned : (chn.turned zone sizes second).dir = chn.dir := by
  simp only [turned, sizeChecked, reopened, setPath]
  repeat' split
  all_goals rfl

@[simp] theorem level_turned : (chn.turned zone sizes second).level = chn.level := by
  simp only [turned, sizeChecked, reopened, setPath]
  repeat' split
  all_goals rfl

@[simp] theorem records_turned : (chn.turned zone sizes second).records = chn.records := by
  simp only [turned, sizeChecked, reopened, setPath]
  repeat' split
  all_goals rfl

theorem lastDay_turned : (chn.turned zone sizes second).lastDay = getDay zone second := by
  simp only [turned, sizeChecked, reopened, setPath]
  repeat' split
  all_goals first | rfl | (symm; exact not_not.mp (by assumption))

/-- The channel has opened a file of the second, or has kept the file of the day. -/
theorem turned_cases (zone : Zone) (sizes : Nat → Nat) (chn : FileChannel) (second : Int) :
    ((chn.turned zone sizes second).canWrite = true ∧
      ∃ index : Int, (chn.turned zone sizes second).path =
        getLogFilePath zone chn.dir second index) ∨
    chn.lastDay = getDay zone second ∧
      (chn.turned zone sizes second).canWrite = chn.canWrite ∧
      (chn.turned zone sizes second).path = chn.path := by
  simp only [turned, sizeChecked]
  split
  · exact Or.inl ⟨rfl, _, rfl⟩
  · rename_i hday
    have hday := (not_not.mp hday).symm
    split
    · split
      · exact Or.inl ⟨rfl, _, rfl⟩
      · exact Or.inr ⟨hday, rfl, rfl⟩
    · exact Or.inr ⟨hday, rfl, rfl⟩

/-- An open file that is not too large is kept for the whole day. -/
theorem path_turned_of_small (hsmall : ∀ k, sizes k = 0) (hopen : chn.canWrite = true)
    (hday : chn.lastDay = getDay zone second) :
    (chn.turned zone sizes second).path = chn.path := by
  have hlimit : ¬ chn.limit < chn.size (sizes chn.queries) := by
    rw [size, if_pos (chn.writable hopen), hsmall]
    exact Nat.not_lt_zero _
  simp only [turned, sizeChecked]
  rw [if_neg (not_not.mpr hday.symm), if_neg hlimit]
  split <;> rfl

/-- The record of a message changes nothing else. -/
theorem exists_written_eq (zone : Zone) (sizes : Nat → Nat) (chn : FileChannel)
    (ctx : LogContext) :
    ∃ records, chn.written zone sizes ctx =
      { chn.turned zone sizes ctx.tv.sec with records := records } := by
  simp only [written, record]
  repeat' split
  all_goals exact ⟨_, rfl⟩

theorem records_written_of_loud {ctx : LogContext}
    (hopen : (chn.turned zone sizes ctx.tv.sec).canWrite = true)
    (hlevel : chn.level.toNat ≤ ctx.level.toNat) :
    (chn.written zone sizes ctx).records =
      chn.records ++ [((chn.turned zone sizes ctx.tv.sec).path, ctx)] := by
  have hloud : ¬ ctx.level.toNat < (chn.turned zone sizes ctx.tv.sec).level.toNat := by
    rw [level_turned]
    exact Nat.not_lt.mpr hlevel
  simp only [written, record, if_pos hopen, if_neg hloud, records_turned]

theorem records_written (zone : Zone) (sizes : Nat → Nat) (chn : FileChannel) (ctx : LogContext) :
    (chn.written zone sizes ctx).records = chn.records ∨
      chn.level.toNat ≤ ctx.level.toNat ∧ (chn.written zone sizes ctx).records =
        chn.records ++ [((chn.turned zone sizes ctx.tv.sec).path, ctx)] := by
  simp only [written, record]
  split
  · split
    · exact Or.inl records_turned
    · rename_i hlevel
      rw [level_turned] at hlevel
      exact Or.inr ⟨Nat.not_lt.mp hlevel, by simp⟩
  · exact Or.inl records_turned

end Turn

section Follow

variable {zone sizes} {chn₀ chn : FileChannel} {done : List LogContext} {ctx : LogContext}

theorem Follows.written (h : Follows zone chn₀ done chn) (hday : getDay zone ctx.tv.sec ≠ -1) :
    Follows zone chn₀ (done ++ [ctx]) (chn.written zone sizes ctx) := by
  obtain ⟨records, heq⟩ := exists_written_eq zone sizes chn ctx
  rw [heq]
  refine ⟨dir_turned.trans h.dir, level_turned.trans h.level, Or.inr ?_⟩
  rcases turned_cases zone sizes chn ctx.tv.sec with ⟨hopen, index, hpath⟩ | ⟨hkept, hopen, hpath⟩
  · refine ⟨hopen, ctx, by simp, lastDay_turned, index, ?_⟩
    rw [dir_turned, hpath]
  · rcases h.file with ⟨-, hfresh⟩ | ⟨hcan, first, hfirst, hfile, hdated⟩
    · exact absurd (hkept.symm.trans hfresh) hday
    · refine ⟨hopen.trans hcan, first, List.mem_append_left _ hfirst, ?_, ?_⟩
      · rw [lastDay_turned, ← hkept, hfile]
      · rwa [dir_turned, hpath]

/-- A message of the date of its day's first message goes to a file of its date. -/
theorem Follows.dated_written (h : Follows zone chn₀ done chn)
    (hday : getDay zone ctx.tv.sec ≠ -1)
    (hdate : ∀ first ∈ done, chn₀.level.toNat ≤ ctx.level.toNat →
      getDay zone first.tv.sec = getDay zone ctx.tv.sec →
      zone.localDate first.tv.sec = zone.localDate ctx.tv.sec)
    (hdated : ∀ record ∈ chn.records, Dated zone chn₀.dir record) :
    ∀ record ∈ (chn.written zone sizes ctx).records, Dated zone chn₀.dir record := by
  rcases records_written zone sizes chn ctx with
    hsame | ⟨hlevel, hnew⟩
  · rwa [hsame]
  · rw [hnew]
    intro record hrecord
    rcases List.mem_append.mp hrecord with hrecord | hrecord
    · exact hdated record hrecord
    · obtain rfl := List.mem_singleton.mp hrecord
      rcases turned_cases zone sizes chn ctx.tv.sec with ⟨-, index, hpath⟩ | ⟨hkept, -, hpath⟩
      · exact ⟨index, hpath.trans (by rw [h.dir])⟩
      · rcases h.file with ⟨-, hfresh⟩ | ⟨-, first, hfirst, hfile, index, hname⟩
        · exact absurd (hkept.symm.trans hfresh) hday
        · refine ⟨index, ?_⟩
          have hsame := hdate first hfirst (h.level ▸ hlevel) (hfile.symm.trans hkept)
          simp only [hpath] at hname ⊢
          rw [hname, h.dir, getLogFilePath, hsame, getLogFilePath]

/-- The first message of the day named the file, and no file was too large. -/
structure Leads (zone : Zone) (chn₀ : FileChannel) (done : List LogContext) (chn : FileChannel)
    (first : LogContext) : Prop where
  dir : chn.dir = chn₀.dir
  level : chn.level = chn₀.level
  canWrite : chn.canWrite = true
  mem : first ∈ done
  day : chn.lastDay = getDay zone first.tv.sec
  dated : Dated zone chn₀.dir (chn.path, first)
  least : ∀ a ∈ done, getDay zone a.tv.sec = chn.lastDay → first.tv.sec ≤ a.tv.sec
  latest : ∀ a ∈ done, getDay zone a.tv.sec ≤ chn.lastDay

theorem getDay_mono (zone : Zone) {a b : Int} (h : a ≤ b) : getDay zone a ≤ getDay zone b :=
  Int.tdiv_le_tdiv (by decide) (by omega)

/-- The first message of a day leads it. -/
theorem leads_of_newDay (hdir : chn.dir = chn₀.dir) (hlevel : chn.level = chn₀.level)
    (hday : chn.lastDay ≠ getDay zone ctx.tv.sec)
    (hdone : ∀ a ∈ done, getDay zone a.tv.sec < getDay zone ctx.tv.sec) :
    Leads zone chn₀ (done ++ [ctx]) (chn.written zone sizes ctx) ctx := by
  obtain ⟨records, heq⟩ := exists_written_eq zone sizes chn ctx
  rcases turned_cases zone sizes chn ctx.tv.sec with ⟨hopen, index, hpath⟩ | ⟨hkept, -, -⟩
  · rw [heq]
    refine ⟨dir_turned.trans hdir, level_turned.trans hlevel, hopen, by simp, lastDay_turned,
      ⟨index, hpath.trans (by rw [hdir])⟩, fun a ha hsame => ?_, fun a ha => ?_⟩
    · rcases List.mem_append.mp ha with ha | ha
      · have hlt := hdone a ha
        rw [hsame, lastDay_turned] at hlt
        exact absurd hlt (Int.lt_irrefl _)
      · rw [List.mem_singleton.mp ha]
    · rw [lastDay_turned]
      rcases List.mem_append.mp ha with ha | ha
      · exact Int.le_of_lt (hdone a ha)
      · rw [List.mem_singleton.mp ha]
  · exact absurd hkept hday

variable {first : LogContext}

theorem Leads.written (h : Leads zone chn₀ done chn first) (hsmall : ∀ k, sizes k = 0)
    (hlater : ∀ a ∈ done, a.tv.sec ≤ ctx.tv.sec) :
    ∃ first', Leads zone chn₀ (done ++ [ctx]) (chn.written zone sizes ctx) first' := by
  by_cases hday : chn.lastDay = getDay zone ctx.tv.sec
  · obtain ⟨records, heq⟩ := exists_written_eq zone sizes chn ctx
    have hpath := path_turned_of_small hsmall h.canWrite hday
    refine ⟨first, ?_⟩
    rw [heq]
    refine ⟨dir_turned.trans h.dir, level_turned.trans h.level, ?_, List.mem_append_left _ h.mem,
      ?_, ?_, fun a ha hsame => ?_, fun a ha => ?_⟩
    · rcases turned_cases zone sizes chn ctx.tv.sec with ⟨hopen, -⟩ | ⟨-, hopen, -⟩
      · exact hopen
      · exact hopen.trans h.canWrite
    · rw [lastDay_turned, ← hday, h.day]
    · rw [hpath]
      exact h.dated
    · rw [lastDay_turned, ← hday] at hsame
      rcases List.mem_append.mp ha with ha | ha
      · exact h.least a ha hsame
      · rw [List.mem_singleton.mp ha]
        exact hlater first h.mem
    · rw [lastDay_turned, ← hday]
      rcases List.mem_append.mp ha with ha | ha
      · exact h.latest a ha
      · rw [List.mem_singleton.mp ha, hday]
  · refine ⟨ctx, leads_of_newDay h.dir h.level hday fun a ha => ?_⟩
    have hfirst := getDay_mono zone (hlater first h.mem)
    have hlatest := h.latest a ha
    rw [← h.day] at hfirst
    omega

/-- While the day lasts, a message that is dated has the date of the first one. -/
theorem Leads.dated_first (h : Leads zone chn₀ done chn first) (hsmall : ∀ k, sizes k = 0)
    (hday : chn.lastDay = getDay zone ctx.tv.sec) (hlevel : chn₀.level.toNat ≤ ctx.level.toNat)
    (hdated : ∀ record ∈ (chn.written zone sizes ctx).records, Dated zone chn₀.dir record) :
    Dated zone chn₀.dir (chn.path, ctx) := by
  have hpath := path_turned_of_small hsmall h.canWrite hday
  have hopen : (chn.turned zone sizes ctx.tv.sec).canWrite = true := by
    rcases turned_cases zone sizes chn ctx.tv.sec with ⟨hopen, -⟩ | ⟨-, hopen, -⟩
    · exact hopen
    · exact hopen.trans h.canWrite
  rw [records_written_of_loud hopen (h.level ▸ hlevel), hpath] at hdated
  exact hdated _ (by simp)

end Follow

end FileChannel

namespace Logger

variable {n : Nat} {Silent : Type*} (zone : Zone) (env : Env n)
  (nested : Logger n (Channel Silent) → Nat → Option (Logger n (Channel Silent)))
  (put : Silent → LogContext → Silent)

/-- The messages at the addresses are written to one channel. -/
def deliverAll (S : Logger n (Channel Silent)) (i : Option (Fin n)) (ps : List Nat) :
    Option (Logger n (Channel Silent)) :=
  ps.foldlM (fun S p => deliver zone env nested put S i (.ptr p)) S

variable {zone env nested put} {S : Logger n (Channel Silent)} {i : Option (Fin n)}
  {chn : FileChannel}

theorem changeFile_opens (hopens : ∀ j k, env.opens j k = true) (second : Int) :
    changeFile zone env nested S i chn second =
      some (S.setChannel i (.file (chn.reopened zone second))) := by
  simp [changeFile, hopens, FileChannel.reopened]

theorem modifyFile_setChannel (f : FileChannel → FileChannel) :
    (S.setChannel i (.file chn)).modifyFile i f = S.setChannel i (.file (f chn)) := by
  rw [modifyFile_eq (channels_setChannel_self S i _), setChannel_setChannel]

theorem writeFile_opens (hopens : ∀ j k, env.opens j k = true) (hchn : S.channels i = .file chn)
    (ref : Ref) :
    writeFile zone env nested S i chn ref =
      some (S.setChannel i (.file (chn.written zone (env.sizes i) (S.deref ref)))) := by
  have hcheck : ∀ second, checkSize zone env nested S i chn second =
      some (S.setChannel i (.file (chn.sizeChecked zone (env.sizes i) second))) := by
    intro second
    rw [checkSize, FileChannel.sizeChecked]
    split
    · dsimp only
      split
      · rw [changeFile_opens hopens, Option.map_some, modifyFile_setChannel]
      · rw [Option.map_some, modifyFile_setChannel]
    · rw [setChannel_eq_self hchn]
  rw [writeFile, FileChannel.written, FileChannel.turned]
  split
  · rw [changeFile_opens hopens, Option.map_some, modifyFile_setChannel]
    rfl
  · rw [hcheck, Option.map_some, modifyFile_setChannel]
    rfl

/-- The writing of messages changes the one channel. -/
theorem deliverAll_opens (hopens : ∀ j k, env.opens j k = true) (hchn : S.channels i = .file chn)
    (ps : List Nat) :
    deliverAll zone env nested put S i ps =
      some (S.setChannel i (.file ((ps.map S.heap).foldl (FileChannel.written zone (env.sizes i))
        chn))) := by
  induction ps generalizing S chn with
  | nil => exact congrArg some (setChannel_eq_self hchn).symm
  | cons p ps ih =>
      have hfirst : deliver zone env nested put S i (.ptr p) =
          some (S.setChannel i (.file (chn.written zone (env.sizes i) (S.heap p)))) := by
        simp only [deliver, hchn]
        exact writeFile_opens hopens hchn (.ptr p)
      have hrest := ih (S := S.setChannel i (.file (chn.written zone (env.sizes i) (S.heap p))))
        (channels_setChannel_self S i _)
      rw [setChannel_setChannel] at hrest
      rw [deliverAll, List.foldlM_cons, hfirst]
      exact hrest

end Logger

namespace LocalClock

variable (clock : LocalClock) (startTime : Int) (threadName : String)

/-- The messages that are written on one day of `getDay` have one local day. -/
def OneDate (level : LogLevel) (ctxs : List LogContext) : Prop :=
  ctxs.Pairwise fun a b => level.toNat ≤ b.level.toNat →
    getDay (clock.zone startTime threadName) a.tv.sec =
      getDay (clock.zone startTime threadName) b.tv.sec →
    clock.localDay a.tv.sec = clock.localDay b.tv.sec

/-- Without the daylight hour there is one count of days. -/
theorem oneDate_of_standard (h : clock.daylightActive = 0) (level : LogLevel)
    (ctxs : List LogContext) : clock.OneDate startTime threadName level ctxs := by
  have hday : ∀ t, getDay (clock.zone startTime threadName) t = clock.localDay t := by
    intro t
    simp only [getDay, zone, getGMTOff, getLocalTime, localDay, localSecond, h]
    congr 1
    omega
  apply List.pairwise_of_forall
  intro a b _ hsame
  rwa [hday, hday] at hsame

variable {clock startTime threadName}

theorem getDay_ne_fresh (startTime : Int) (threadName : String) {t : Int}
    (h : 0 ≤ clock.localSecond t) :
    getDay (clock.zone startTime threadName) t ≠ -1 := by
  have hflag := clock.flag.2
  have hle : -3600 ≤ t + (clock.zone startTime threadName).gmtoff := by
    simp only [localSecond, zone, getGMTOff, getLocalTime] at h ⊢
    omega
  have hmono := Int.tdiv_le_tdiv (show 0 < secondPerDay by decide) hle
  have hzero : (-3600 : Int).tdiv secondPerDay = 0 := by decide
  rw [getDay]
  omega

theorem localDay_mono (clock : LocalClock) {t t' : Int} (h : t ≤ t') :
    clock.localDay t ≤ clock.localDay t' :=
  Int.tdiv_le_tdiv (by decide) (by simp only [localSecond]; omega)

variable {sizes : Nat → Nat} {chn₀ : FileChannel} {ctxs : List LogContext}

theorem dated_of_oneDate (hday : chn₀.lastDay = -1) (hrecords : chn₀.records = [])
    (h1970 : ∀ ctx ∈ ctxs, 0 ≤ clock.localSecond ctx.tv.sec)
    (hdate : clock.OneDate startTime threadName chn₀.level ctxs) :
    FileChannel.Follows (clock.zone startTime threadName) chn₀ ctxs
      (ctxs.foldl (FileChannel.written (clock.zone startTime threadName) sizes) chn₀) ∧
    ∀ record ∈ (ctxs.foldl (FileChannel.written (clock.zone startTime threadName) sizes)
      chn₀).records, FileChannel.Dated (clock.zone startTime threadName) chn₀.dir record := by
  induction ctxs using List.reverseRecOn with
  | nil => exact ⟨⟨rfl, rfl, Or.inl ⟨rfl, hday⟩⟩, by simp [hrecords]⟩
  | append_singleton done ctx ih =>
      rw [List.forall_mem_append] at h1970
      obtain ⟨hdone, -, hlast⟩ := List.pairwise_append.mp hdate
      obtain ⟨follows, hdated⟩ := ih h1970.1 hdone
      have hne := getDay_ne_fresh startTime threadName
        (h1970.2 ctx (by simp))
      rw [List.foldl_append, List.foldl_cons, List.foldl_nil]
      refine ⟨follows.written hne, follows.dated_written hne ?_ hdated⟩
      intro first hfirst hlevel hsame
      exact localDate_congr (hlast first hfirst ctx (by simp) hlevel hsame)

/-- Two messages that are dated in one file have one local day. -/
theorem localDay_eq_of_dated {dir path : String} {a b : LogContext}
    (ha : 0 ≤ clock.localSecond a.tv.sec) (hb : 0 ≤ clock.localSecond b.tv.sec)
    (hdateda : FileChannel.Dated (clock.zone startTime threadName) dir (path, a))
    (hdatedb : FileChannel.Dated (clock.zone startTime threadName) dir (path, b)) :
    clock.localDay a.tv.sec = clock.localDay b.tv.sec := by
  obtain ⟨index, hfile⟩ := hdateda
  obtain ⟨index', hfile'⟩ := hdatedb
  obtain ⟨date, hdate⟩ := exists_date startTime threadName ha
  obtain ⟨date', hdate'⟩ := exists_date startTime threadName hb
  exact localDay_eq_of_localDate
    (localDate_eq_of_getLogFilePath hdate hdate' (hfile.symm.trans hfile'))

/-- When no file is too large, dated messages have one local day where they
have one day of `getDay`. -/
theorem oneDate_of_dated (hday : chn₀.lastDay = -1) (hsmall : ∀ k, sizes k = 0)
    (hmono : ctxs.Pairwise fun a b => a.tv.sec ≤ b.tv.sec)
    (h1970 : ∀ ctx ∈ ctxs, 0 ≤ clock.localSecond ctx.tv.sec)
    (hdated : ∀ record ∈ (ctxs.foldl (FileChannel.written (clock.zone startTime threadName) sizes)
      chn₀).records, FileChannel.Dated (clock.zone startTime threadName) chn₀.dir record) :
    clock.OneDate startTime threadName chn₀.level ctxs ∧ (ctxs = [] ∨ ∃ first,
      FileChannel.Leads (clock.zone startTime threadName) chn₀ ctxs
        (ctxs.foldl (FileChannel.written (clock.zone startTime threadName) sizes) chn₀)
        first) := by
  induction ctxs using List.reverseRecOn with
  | nil => exact ⟨List.Pairwise.nil, Or.inl rfl⟩
  | append_singleton done ctx ih =>
      rw [List.forall_mem_append] at h1970
      obtain ⟨hdone, -, hlater⟩ := List.pairwise_append.mp hmono
      have hlater : ∀ a ∈ done, a.tv.sec ≤ ctx.tv.sec := fun a ha => hlater a ha ctx (by simp)
      rw [List.foldl_append, List.foldl_cons, List.foldl_nil] at hdated ⊢
      obtain ⟨hdates, hfirst⟩ := ih hdone h1970.1 fun record hrecord => by
        apply hdated
        rcases FileChannel.records_written _ _ _ ctx with hsame | ⟨-, hnew⟩
        · rwa [hsame]
        · rw [hnew]
          exact List.mem_append_left _ hrecord
      rcases hfirst with rfl | ⟨first, leads⟩
      · refine ⟨List.pairwise_singleton _ _, Or.inr ⟨ctx, ?_⟩⟩
        apply FileChannel.leads_of_newDay rfl rfl _ (by simp)
        rw [hday]
        exact (getDay_ne_fresh startTime threadName (h1970.2 ctx (by simp))).symm
      · refine ⟨List.pairwise_append.mpr ⟨hdates, List.pairwise_singleton _ _, ?_⟩,
          Or.inr (leads.written hsmall hlater)⟩
        intro a ha b hb hlevel hsame
        obtain rfl := List.mem_singleton.mp hb
        -- the day of `b` is the day that lasts, since `a` is not before its first message
        have hmin := FileChannel.getDay_mono (clock.zone startTime threadName)
          (hlater first leads.mem)
        rw [← leads.day, ← hsame] at hmin
        have hlasts := Int.le_antisymm hmin (leads.latest a ha)
        have hdatedb := leads.dated_first hsmall (hlasts.trans hsame) hlevel hdated
        have heq := localDay_eq_of_dated (h1970.1 first leads.mem) (h1970.2 b (by simp))
          leads.dated hdatedb
        have hle := clock.localDay_mono (leads.least a ha hlasts.symm)
        have hge := clock.localDay_mono (hlater a ha)
        omega

end LocalClock

namespace Logger

variable {n : Nat} {Silent : Type*} {clock : LocalClock} {startTime : Int} {threadName : String}
  {nested : Logger n (Channel Silent) → Nat → Option (Logger n (Channel Silent))}
  {put : Silent → LogContext → Silent} {S : Logger n (Channel Silent)} {i : Option (Fin n)}
  {ps : List Nat} {level : LogLevel} {dir : String} {index maxSize : Nat}

/-- Dated whatever the sizes, the written messages of a day of `getDay` have one
local day. -/
theorem oneDate_of_writes
    (hchn : S.channels i = .file { FileChannel.new level dir index with maxSize := maxSize })
    (hmono : ps.Pairwise fun p q => (S.heap p).tv.sec ≤ (S.heap q).tv.sec)
    (h1970 : ∀ p ∈ ps, 0 ≤ clock.localSecond (S.heap p).tv.sec)
    (hall : ∀ env : Env n, (∀ j k, env.opens j k = true) → ∃ S' chn,
      deliverAll (clock.zone startTime threadName) env nested put S i ps = some S' ∧
      S'.channels i = .file chn ∧
      ∀ record ∈ chn.records, FileChannel.Dated (clock.zone startTime threadName)
        (FileChannel.new level dir index).dir record) :
    clock.OneDate startTime threadName level (ps.map S.heap) := by
  let env : Env n := ⟨fun _ _ => true, fun _ _ => 0, fun _ => ⟨0, 0⟩, fun _ _ _ => Int.le_refl 0⟩
  obtain ⟨S', chn, hrun, hchn', hdated⟩ := hall env fun _ _ => rfl
  rw [deliverAll_opens (fun _ _ => rfl) hchn] at hrun
  obtain rfl := Option.some.inj hrun
  rw [channels_setChannel_self] at hchn'
  obtain rfl := Channel.file.inj hchn'
  exact (LocalClock.oneDate_of_dated rfl (fun _ => rfl) (List.pairwise_map.mpr hmono)
    (List.forall_mem_map.mpr h1970) hdated).1

/-- However large the files become, the messages go to files of their local
dates, if and only if the written ones of a day of `getDay` have one date. -/
theorem writes_dated_iff
    (hchn : S.channels i = .file { FileChannel.new level dir index with maxSize := maxSize })
    (hmono : ps.Pairwise fun p q => (S.heap p).tv.sec ≤ (S.heap q).tv.sec)
    (h1970 : ∀ p ∈ ps, 0 ≤ clock.localSecond (S.heap p).tv.sec) :
    (∀ env : Env n, (∀ j k, env.opens j k = true) → ∃ S' chn,
      deliverAll (clock.zone startTime threadName) env nested put S i ps = some S' ∧
      S'.channels i = .file chn ∧
      ∀ record ∈ chn.records, FileChannel.Dated (clock.zone startTime threadName)
        (FileChannel.new level dir index).dir record) ↔
    clock.OneDate startTime threadName level (ps.map S.heap) := by
  constructor
  · exact oneDate_of_writes hchn hmono h1970
  · intro hdates env hopens
    refine ⟨_, _, deliverAll_opens hopens hchn ps, channels_setChannel_self _ _ _, ?_⟩
    exact (LocalClock.dated_of_oneDate rfl rfl (List.forall_mem_map.mpr h1970) hdates).2

def messageAt (second : Int) : LogContext where
  level := .LInfo
  line := 1
  repeat_ := 0
  file := "main.cpp"
  function := "main"
  flag := ""
  threadName := "main"
  tv := ⟨second, 0⟩
  content := "tick"

/-- A new `FileChannel` and two messages. -/
def twoMessages (first second : Int) : Logger 0 (Channel Unit) where
  name := "logger"
  heap p := messageAt (if p = 0 then first else second)
  next := 2
  lastLog := 0
  channels _ := .file (FileChannel.new .LTrace "log" 0)
  written := []

/-- Eight hours east of Greenwich, before and after midnight. -/
theorem writes_dated_iff_midnight :
    (∀ env : Env 0, (∀ j k, env.opens j k = true) → ∃ S' chn,
      deliverAll (LocalClock.zone ⟨-28800, 0, by decide⟩ 0 "main") env (fun _ _ => none)
        (fun _ _ => ()) (twoMessages 57599 57600) none [0, 1] = some S' ∧
      S'.channels none = .file chn ∧
      ∀ record ∈ chn.records, FileChannel.Dated (LocalClock.zone ⟨-28800, 0, by decide⟩ 0 "main")
        (FileChannel.new .LTrace "log" 0).dir record) ↔
    LocalClock.OneDate ⟨-28800, 0, by decide⟩ 0 "main" .LTrace
      ([0, 1].map (twoMessages 57599 57600).heap) :=
  writes_dated_iff rfl (by decide) (by decide)

/-- With the daylight hour the second message is after midnight, and goes to
the file of the first. -/
theorem writes_undated_daylight :
    ¬ ∀ env : Env 0, (∀ j k, env.opens j k = true) → ∃ S' chn,
      deliverAll (LocalClock.zone ⟨0, 1, by decide⟩ 0 "main") env (fun _ _ => none)
        (fun _ _ => ()) (twoMessages 82799 82800) none [0, 1] = some S' ∧
      S'.channels none = .file chn ∧
      ∀ record ∈ chn.records, FileChannel.Dated (LocalClock.zone ⟨0, 1, by decide⟩ 0 "main")
        (FileChannel.new .LTrace "log" 0).dir record := by
  intro hall
  have hdates := oneDate_of_writes rfl (by decide) (by decide) hall
  have hpair := (List.pairwise_cons.mp hdates).1 (messageAt 82800) (by simp [twoMessages])
  exact absurd (hpair (by decide) rfl) (by decide)

end Logger

end FFZKit.Util
