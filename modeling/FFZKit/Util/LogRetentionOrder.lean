import FFZKit.Util.LogDates
import FFZKit.Util.LogRetention
import Mathlib.Data.Finset.Filter

/-!
# Which log files `clean` deletes

`clean` deletes the files with the smallest names. These are the oldest ones
unless the indices of one day have different numbers of digits. The first loop
may delete the open file too, when it is dated long before the time of `clean`.
-/

namespace FFZKit.Util.FileRetention

open FFZKit.Foundations FFZKit.Foundations.Transition

variable {zone : Zone} {fileTime : String → Int}

/-- The files are slices that the channel names. -/
def Named (s : FileRetention) : Prop :=
  ∀ file ∈ s.logFileMap, ∃ a : Slice, file = a.name s.chn.dir

/-- The slices that are opened have years of four digits, and their indices do
not leave `int32_t`. -/
def Sliced (zone : Zone) (s : FileRetention) : Action → Prop
  | .write ctx _ _ =>
      s.chn.index < 2 ^ 31 ∧ ∃ date : Date, zone.localDate ctx.tv.sec = date.toTuple ∧
        1000 ≤ date.year ∧ date.year ≤ 9999
  | _ => True

/-- The files from the first one on that is not too old. -/
def unexpired (zone : Zone) (fileTime : String → Int) (s : FileRetention) (now : Int) :
    Finset String :=
  s.logFileMap.filter fun file => ∃ g ∈ s.logFileMap, g ≤ file ∧ s.Young zone fileTime now g

/-- The files that `clean` deletes to satisfy the limit are older than those it
keeps, the open file among them, and the limit is satisfied. -/
def OldestFirst (zone : Zone) (fileTime : String → Int) (s : FileRetention) :
    Action → FileRetention → Prop
  | .clean now, t =>
      s.chn.path ∈ t.logFileMap ∧ t.logFileMap.card ≤ s.maxCount ∧
        ∀ a b : Slice, a.name s.chn.dir ∈ s.expire zone fileTime now →
          a.name s.chn.dir ∉ t.logFileMap → b.name s.chn.dir ∈ t.logFileMap → a.Older b
  | _, _ => True

/-- The open file is not too old. If there are more files than the limit, it is
one of as many newest files, and no index among these begins with a smaller
number than an index of an older file of the same day. -/
def InOrder (zone : Zone) (fileTime : String → Int) (s : FileRetention) : Action → Prop
  | .clean now =>
      let files := s.unexpired zone fileTime now
      s.chn.path ∈ files ∧ (s.maxCount < files.card →
        ∃ newest ⊆ files, newest.card = s.maxCount ∧ s.chn.path ∈ newest ∧
          ∀ a b : Slice, a.name s.chn.dir ∈ files → a.name s.chn.dir ∉ newest →
            b.name s.chn.dir ∈ newest →
            a.Older b ∧ (a.date = b.date → InTextOrder a.index b.index))
  | _ => True

theorem expire_eq (s : FileRetention) (now : Int) :
    s.expire zone fileTime now = s.unexpired zone fileTime now := by
  apply dropLeast_eq
  · exact Finset.filter_subset _ _
  · intro a ha hold b hb
    obtain ⟨-, g, hg, hle, hyoung⟩ := Finset.mem_filter.mp hb
    by_contra hlt
    exact hold (Finset.mem_filter.mpr ⟨ha, g, hg, hle.trans (not_lt.mp hlt), hyoung⟩)
  · intro u _ hu a ha hold hyoung
    exact hold (Finset.mem_filter.mpr ⟨hu ha, a, hu ha, le_refl a, hyoung⟩)
  · intro a ha hleast
    obtain ⟨-, g, hg, hle, hyoung⟩ := Finset.mem_filter.mp ha
    have hmem : g ∈ s.unexpired zone fileTime now :=
      Finset.mem_filter.mpr ⟨hg, g, hg, le_refl g, hyoung⟩
    rwa [le_antisymm (hleast g hmem) hle]

theorem expire_subset (s : FileRetention) (now : Int) :
    s.expire zone fileTime now ⊆ s.logFileMap :=
  dropLeast_subset

section Clean

variable {s t : FileRetention} {now : Int}

theorem logFileMap_clean (h : s.step zone fileTime (.clean now) = some t) :
    t.logFileMap = dropLeast s.Enough (s.expire zone fileTime now) := by
  simp only [step] at h
  split at h
  · cases h
  · cases h
    rfl

/-- The second loop keeps the files that are to be kept. -/
theorem clean_keeps {newest : Finset String} (hsub : newest ⊆ s.expire zone fileTime now)
    (hcard : newest.card ≤ s.maxCount)
    (hgo : ∀ u, newest ⊆ u → u ⊆ s.expire zone fileTime now → u ≠ newest → s.maxCount < u.card)
    (hpath : s.chn.path ∈ newest)
    (hlt : ∀ a ∈ s.expire zone fileTime now, a ∉ newest → ∀ b ∈ newest, a < b) :
    dropLeast s.Enough (s.expire zone fileTime now) = newest := by
  apply dropLeast_eq hsub hlt
  · rintro u hnewest hu a ha hnot (hfew | rfl)
    · have hmore := hgo u hnewest hu (fun heq => hnot (heq ▸ ha))
      omega
    · exact hnot hpath
  · exact fun _ _ _ => Or.inl hcard

theorem oldestFirst_clean_iff (named : Named s)
    (h : s.step zone fileTime (.clean now) = some t) :
    OldestFirst zone fileTime s (.clean now) t ↔ InOrder zone fileTime s (.clean now) := by
  have hnamed : ∀ f ∈ s.expire zone fileTime now, ∃ a : Slice, f = a.name s.chn.dir :=
    fun f hf => named f (expire_subset s now hf)
  simp only [OldestFirst, InOrder, ← expire_eq, logFileMap_clean h]
  constructor
  · rintro ⟨hpath, hcard, holder⟩
    refine ⟨dropLeast_subset hpath, fun hmany => ?_⟩
    refine ⟨_, dropLeast_subset, le_antisymm hcard ?_, hpath, fun a b ha hdropped hb => ?_⟩
    · exact le_card_dropLeast (fun u hu _ => Or.inl hu) hmany.le
    · have hab := holder a b ha hdropped hb
      exact ⟨hab, (Slice.name_lt_iff_of_older hab).mp (lt_of_dropped ha hdropped hb)⟩
  · rintro ⟨hpath, hnewest⟩
    by_cases hmany : s.maxCount < (s.expire zone fileTime now).card
    · obtain ⟨newest, hsub, hcard, hopen, horder⟩ := hnewest hmany
      rw [clean_keeps hsub hcard.le _ hopen]
      · exact ⟨hopen, hcard.le, fun a b ha hdropped hb => (horder a b ha hdropped hb).1⟩
      · intro f hf hdropped g hg
        obtain ⟨a, rfl⟩ := hnamed f hf
        obtain ⟨b, rfl⟩ := hnamed g (hsub hg)
        obtain ⟨hab, htext⟩ := horder a b hf hdropped hg
        exact (Slice.name_lt_iff_of_older hab).mpr htext
      · intro u hnu _ hne
        rw [← hcard]
        exact Finset.card_lt_card (Finset.ssubset_iff_subset_ne.mpr ⟨hnu, hne.symm⟩)
    · rw [clean_keeps (Finset.Subset.refl _) (Nat.not_lt.mp hmany) _ hpath]
      · exact ⟨hpath, Nat.not_lt.mp hmany, fun a b ha hdropped _ => absurd ha hdropped⟩
      · exact fun a ha hnot => absurd ha hnot
      · exact fun u hu hsub hne => absurd (Finset.Subset.antisymm hsub hu) hne

end Clean

/-- The file of a guarded write is a slice. -/
theorem named_write {s : FileRetention} (named : Named s) {ctx : LogContext}
    {answer : Nat} {ok : Bool} (hsliced : Sliced zone s (.write ctx answer ok)) :
    Named (s.write zone ctx answer ok) := by
  obtain ⟨hindex, date, hdate, hyear⟩ := hsliced
  obtain ⟨hdir, hsame | ⟨index, hlast, hnew⟩⟩ := write_cases zone s ctx answer ok
  · rw [Named, hdir, hsame]
    exact named
  · rw [Named, hdir, hnew]
    intro file hfile
    rcases Finset.mem_insert.mp hfile with rfl | hfile
    · have hlt : index < 2 ^ 31 := by
        rcases hlast with rfl | rfl
        · exact hindex
        · decide
      have hbmod : Int.bmod index (2 ^ 32) = index :=
        Int.bmod_eq_of_le (by omega) (by omega)
      rw [hbmod]
      let a : Slice := ⟨date, index, hyear, hlt⟩
      have hname : getLogFilePath zone s.chn.dir ctx.tv.sec a.index = a.name s.chn.dir :=
        getLogFilePath_eq_name hdate _
      exact ⟨a, hname⟩
    · exact named file hfile

theorem named_step {s t : FileRetention} {a : Action} (named : Named s) (hsliced : Sliced zone s a)
    (h : s.step zone fileTime a = some t) : Named t := by
  cases a with
  | write ctx answer ok =>
      simp only [step] at h
      split at h
      · cases h
      · cases h
        exact named_write named hsliced
  | clean now =>
      have hmap := logFileMap_clean h
      have hdir : t.chn.dir = s.chn.dir := by
        simp only [step] at h
        split at h
        · cases h
        · cases h
          simp [clean]
      intro file hfile
      rw [hdir]
      rw [hmap] at hfile
      exact named file (expire_subset s now (dropLeast_subset hfile))
  | setMaxDay max_day =>
      cases h
      exact named
  | setFileMaxSize max_size =>
      cases h
      exact named
  | setFileMaxCount max_count =>
      cases h
      exact named

theorem named_new (level : LogLevel) (dir : String) (slices : Finset Slice)
    (today : Int × Int × Int) : Named (new level dir slices today) := by
  intro file hfile
  obtain ⟨a, -, rfl⟩ := Finset.mem_image.mp hfile
  exact ⟨a, rfl⟩

/-- Every `clean` of a run deletes the oldest files exactly when every `clean`
finds the names in order. -/
theorem retention_iff (zone : Zone) (fileTime : String → Int) (level : LogLevel) (dir : String)
    (slices : Finset Slice) (today : Int × Int × Int) (as : List Action) (s : FileRetention) :
    Run (step zone fileTime) (fun s a => Sliced zone s a ∧
        stepsWith (step zone fileTime) (OldestFirst zone fileTime) s a)
      (new level dir slices today) as s ↔
    Run (step zone fileTime) (fun s a => Sliced zone s a ∧ InOrder zone fileTime s a)
      (new level dir slices today) as s := by
  refine Run.congr (P := Named) ?_ ?_ (named_new level dir slices today)
  · intro s a t guarded hstep named
    exact named_step named guarded.1 hstep
  · intro s a t named hstep
    apply and_congr_right
    intro _
    cases a with
    | clean now =>
        constructor
        · intro holds
          exact (oldestFirst_clean_iff named hstep).mp (holds t hstep)
        · intro inOrder u hu
          exact (oldestFirst_clean_iff named hu).mpr inOrder
    | _ => exact iff_of_true (fun _ _ => trivial) trivial

/-- The first day of 1970, by a clock in Greenwich. -/
def firstDay : Date := ⟨1970, 1, 1, by decide, by decide⟩

def greenwich : Zone := LocalClock.zone ⟨0, 0, by decide⟩ 0 "main"

def slice99 : Slice := ⟨firstDay, 99, by decide, by decide⟩

def slice100 : Slice := ⟨firstDay, 100, by decide, by decide⟩

theorem localDate_greenwich : greenwich.localDate 0 = firstDay.toTuple := by
  rw [greenwich, LocalClock.localDate_eq, skipYears_of_lt (by decide)]
  decide

/-- A channel in a directory with two slices of the day. -/
def twoSlices : FileRetention := new .LTrace "log" {slice99, slice100} firstDay.toTuple

/-- One file is to be kept, and the channel has opened slice 100 again. -/
def crowded : FileRetention :=
  { twoSlices with maxCount := 1, maxCount_pos := by decide }.write greenwich
    (Logger.messageAt 0) 0 true

theorem path_crowded : crowded.chn.path = slice100.name crowded.chn.dir := by
  have hindex : Int.bmod twoSlices.chn.index (2 ^ 32) = slice100.index := by decide
  change getLogFilePath greenwich _ 0 (Int.bmod twoSlices.chn.index (2 ^ 32)) = _
  rw [hindex]
  exact getLogFilePath_eq_name localDate_greenwich _

theorem slice99_unexpired :
    slice99.name crowded.chn.dir ∈ crowded.unexpired greenwich (fun _ => 0) 0 := by
  have hmem : slice99.name crowded.chn.dir ∈ crowded.logFileMap :=
    Finset.mem_insert_of_mem (Finset.mem_image_of_mem _ (by decide))
  exact Finset.mem_filter.mpr ⟨hmem, _, hmem, le_refl _, by decide⟩

/-- The name of slice 100 is smaller than that of slice 99, and stops the
deletion while both are there. -/
theorem retention_keepsTwo_slice100 :
    ¬ ∀ (as : List Action) (s : FileRetention),
      Run (step greenwich fun _ => 0) (Sliced greenwich) twoSlices as s →
      Run (step greenwich fun _ => 0) (fun s a => Sliced greenwich s a ∧
          stepsWith (step greenwich fun _ => 0) (OldestFirst greenwich fun _ => 0) s a)
        twoSlices as s := by
  intro h
  have front : Run (step greenwich fun _ => 0) (Sliced greenwich) twoSlices
      [.setFileMaxCount 1, .write (Logger.messageAt 0) 0 true] crowded :=
    .next trivial rfl <| .next ⟨by decide, firstDay, localDate_greenwich, by decide, by decide⟩ rfl
      .halt
  have named : Named crowded := front.invariant
    (fun _ _ _ sliced hstep named => named_step named sliced hstep) (named_new _ _ _ _)
  have last : Run (step greenwich fun _ => 0) (Sliced greenwich) crowded [.clean 0] _ :=
    .single trivial rfl
  obtain ⟨s, front', last'⟩ := (h _ _ (front.append last)).split
  obtain rfl := front'.deterministic front
  cases last' with
  | next meets moves _ =>
      obtain ⟨hpath, hmany⟩ := (oldestFirst_clean_iff named rfl).mp (meets.2 _ rfl)
      have hne : slice99.name crowded.chn.dir ≠ crowded.chn.path := by
        rw [path_crowded]
        exact fun heq => absurd (Slice.name_inj heq) (by decide)
      obtain ⟨newest, -, hcard, hopen, horder⟩ :=
        hmany (Finset.one_lt_card.mpr ⟨_, slice99_unexpired, _, hpath, hne⟩)
      obtain ⟨file, rfl⟩ := Finset.card_eq_one.mp hcard
      obtain rfl := Finset.mem_singleton.mp hopen
      have htext := (horder slice99 slice100 slice99_unexpired (by simpa using hne)
        (by simp [path_crowded])).2 rfl
      exact absurd htext (by decide)

end FFZKit.Util.FileRetention
