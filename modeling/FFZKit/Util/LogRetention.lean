import FFZKit.Foundations.DropLeast
import FFZKit.Foundations.Transition
import FFZKit.Util.LogFileName
import Mathlib.Data.Finset.Image
import Mathlib.Data.Finset.Lattice.Fold
import Mathlib.Order.Lattice.Nat

/-!
# The log files of a `FileChannel`

`_log_file_map` holds the names of the log files in the order of their bytes.
When `changeFile` has opened a file, `clean` deletes files that are too old, and
then the first ones while there are too many.

## Implementation notes

A call of `write` is cut where `changeFile` calls `clean`, since the error of a
file that does not open may write to the channel in between. The calls that
wait for their `clean` are in `calls`, the last one first. `getLogFileTime` is
a parameter, and the directory holds no files of others.
-/

namespace FFZKit.Util

open FFZKit.Foundations FFZKit.Foundations.Transition

/-- A call of `write` that is inside `changeFile`, for a new day or for the size. -/
structure OpeningCall where
  ctx : LogContext
  opened : Bool
  sizeCheck : Bool

/-- A `FileChannel` with its log files. -/
structure FileRetention where
  chn : FileChannel
  logFileMap : Finset String
  maxDay : Nat
  maxCount : Nat
  calls : List OpeningCall
  maxCount_pos : 0 < maxCount

namespace FileRetention

/-- The constructor, in a directory that holds the slices. -/
def new (level : LogLevel) (dir : String) (slices : Finset Slice) (today : Int × Int × Int) :
    FileRetention :=
  let chn := FileChannel.new level dir
    ((slices.filter fun a => a.date.toTuple = today).sup Slice.index)
  { chn := chn
    logFileMap := slices.image (Slice.name chn.dir)
    maxDay := 30
    maxCount := 30
    calls := []
    maxCount_pos := by decide }

inductive Action
  | write (ctx : LogContext) (answer : Nat) (ok : Bool)
  | clean (now : Int)
  | setMaxDay (max_day : Nat)
  | setFileMaxSize (max_size : Nat)
  | setFileMaxCount (max_count : Nat)

variable (zone : Zone) (fileTime : String → Int)

/-- `changeFile` up to the call of `clean`. The file opens when `ok` holds. -/
def changeFile (s : FileRetention) (call : OpeningCall) : FileRetention :=
  let log_file := getLogFilePath zone s.chn.dir call.ctx.tv.sec (Int.bmod s.chn.index (2 ^ 32))
  let chn := { s.chn with index := (s.chn.index + 1) % 2 ^ 64 }
  { s with
    chn := chn.setPath log_file call.opened
    logFileMap := insert log_file s.logFileMap
    calls := call :: s.calls }

/-- The end of `write` -/
def record (s : FileRetention) (ctx : LogContext) : FileRetention :=
  { s with chn := if s.chn.canWrite then s.chn.record ctx else s.chn }

/-- `write`, up to the call of `clean` if it changes the file -/
def write (s : FileRetention) (ctx : LogContext) (answer : Nat) (ok : Bool) : FileRetention :=
  let second := ctx.tv.sec
  let day := getDay zone second
  if day ≠ s.chn.lastDay then
    { s with
      chn := { s.chn with
        index := if s.chn.lastDay ≠ -1 then 0 else s.chn.index
        lastDay := day } }.changeFile zone ⟨ctx, ok, false⟩
  else if 60 < second - s.chn.lastCheckTime then
    if s.chn.limit < s.chn.size answer then s.changeFile zone ⟨ctx, ok, true⟩
    else { s with chn := { s.chn with lastCheckTime := second } }.record ctx
  else s.record ctx

/-- `getDay` as the `uint64_t` that `clean` compares -/
def dayNumber (second : Int) : Nat := (getDay zone second % 2 ^ 64).toNat

/-- The file is not older than the days to keep. -/
def Young (s : FileRetention) (now : Int) (file : String) : Prop :=
  dayNumber zone now < (dayNumber zone (fileTime file) + s.maxDay) % 2 ^ 64

instance (s : FileRetention) (now : Int) (file : String) :
    Decidable (s.Young zone fileTime now file) := inferInstanceAs (Decidable (_ < _))

/-- The first loop of `clean` -/
def expire (s : FileRetention) (now : Int) : Finset String :=
  dropLeast (fun _ file => s.Young zone fileTime now file) s.logFileMap

/-- The second loop of `clean` stops at few files and at the open one. -/
def Enough (s : FileRetention) (files : Finset String) (file : String) : Prop :=
  files.card ≤ s.maxCount ∨ file = s.chn.path

instance (s : FileRetention) (files : Finset String) (file : String) :
    Decidable (s.Enough files file) := inferInstanceAs (Decidable (_ ∨ _))

/-- `clean` -/
def clean (s : FileRetention) (now : Int) : FileRetention :=
  { s with logFileMap := dropLeast s.Enough (s.expire zone fileTime now) }

/-- What follows `clean` in the call. -/
def finish (s : FileRetention) (call : OpeningCall) : FileRetention :=
  { s with
    chn := if call.sizeCheck then { s.chn with lastCheckTime := call.ctx.tv.sec } else s.chn
    calls := s.calls.tail }.record call.ctx

def step (s : FileRetention) : Action → Option FileRetention
  | .write ctx answer ok =>
      if s.calls.head?.any OpeningCall.opened then none else some (s.write zone ctx answer ok)
  | .clean now =>
      match s.calls with
      | [] => none
      | call :: _ => some ((s.clean zone fileTime now).finish call)
  | .setMaxDay max_day => some { s with maxDay := if max_day > 1 then max_day else 1 }
  | .setFileMaxSize max_size =>
      some { s with chn := { s.chn with maxSize := if max_size > 1 then max_size else 1 } }
  | .setFileMaxCount max_count =>
      some { s with
        maxCount := if max_count > 1 then max_count else 1
        maxCount_pos := by split <;> omega }

@[simp] theorem dir_record (s : FileRetention) (ctx : LogContext) :
    (s.record ctx).chn.dir = s.chn.dir := by
  simp only [record, FileChannel.record]
  split
  · split <;> rfl
  · rfl

@[simp] theorem dir_finish (s : FileRetention) (call : OpeningCall) :
    (s.finish call).chn.dir = s.chn.dir := by
  simp only [finish, dir_record]
  split <;> rfl

/-- `write` keeps the files, or adds the one it opens. -/
theorem write_cases (s : FileRetention) (ctx : LogContext) (answer : Nat) (ok : Bool) :
    (s.write zone ctx answer ok).chn.dir = s.chn.dir ∧
      ((s.write zone ctx answer ok).logFileMap = s.logFileMap ∨
        ∃ index : Nat, (index = s.chn.index ∨ index = 0) ∧
          (s.write zone ctx answer ok).logFileMap =
            insert (getLogFilePath zone s.chn.dir ctx.tv.sec (Int.bmod index (2 ^ 32)))
              s.logFileMap) := by
  simp only [write]
  split
  · refine ⟨rfl, Or.inr ⟨if s.chn.lastDay ≠ -1 then 0 else s.chn.index, ?_, rfl⟩⟩
    split
    · exact Or.inr rfl
    · exact Or.inl rfl
  · split
    · split
      · exact ⟨rfl, Or.inr ⟨s.chn.index, Or.inl rfl, rfl⟩⟩
      · exact ⟨dir_record _ _, Or.inl rfl⟩
    · exact ⟨dir_record _ _, Or.inl rfl⟩

end FileRetention

end FFZKit.Util
