import FFZKit.Util.Trim
import Mathlib.Data.List.TakeDrop
import Mathlib.Logic.Function.Basic

/-!
# `File::saveFile` and `File::loadFile`

`saveFile` returns true once the file is open. What `fwrite` and `fclose` return is
not looked at, so data that a full device does not take are missing without notice.

## Implementation notes

The outcomes of the calls are parameters. `fwrite` takes some of the data into the
stream, of which some reach the file at once; `fclose` writes some of the others.
Nobody else writes the file.
-/

namespace FFZKit.Util.SaveFile

/-- The files and what they hold. -/
abbrev Files := Bytes → Option Bytes

/-- A `FILE` that is being written, with the bytes that have not reached the file. -/
structure Stream where
  path : Bytes
  buffer : Bytes

/-- How the calls of `saveFile` end: whether the file opens, how many bytes `fwrite`
takes and how many of them it passes on, and how many `fclose` passes on. -/
structure SaveOutcome where
  opens : Bool
  accepted : Nat
  drained : Nat
  flushed : Nat

/-- How the calls of `loadFile` end. -/
structure LoadOutcome where
  opens : Bool
  seeksEnd : Bool
  tells : Bool
  seeksSet : Bool
  read : Nat

/-- `fopen(path, "wb")` -/
def fopen (succeeds : Bool) (files : Files) (path : Bytes) : Option (Stream × Files) :=
  if succeeds then some (⟨path, []⟩, Function.update files path (some [])) else none

/-- Bytes that reach the file of a stream. -/
def Stream.write (fp : Stream) (files : Files) (bytes : Bytes) : Files :=
  Function.update files fp.path (some ((files fp.path).getD [] ++ bytes))

/-- `fwrite(data.data(), data.size(), 1, fp)`: the number of items is 1 or 0. -/
def fwrite (accepted drained : Nat) (data : Bytes) (fp : Stream) (files : Files) :
    Nat × Stream × Files :=
  let pending := fp.buffer ++ data.take accepted
  (if data ≠ [] ∧ data.length ≤ accepted then 1 else 0,
    { fp with buffer := pending.drop drained }, fp.write files (pending.take drained))

/-- `fclose(fp)`: 0, or `EOF` when not all is written. -/
def fclose (flushed : Nat) (fp : Stream) (files : Files) : Int × Files :=
  (if fp.buffer.length ≤ flushed then 0 else -1, fp.write files (fp.buffer.take flushed))

/-- `saveFile` -/
def saveFile (o : SaveOutcome) (files : Files) (data path : Bytes) : Bool × Files :=
  match fopen o.opens files path with
  | none => (false, files)
  | some (fp, files) =>
      let wrote := fwrite o.accepted o.drained data fp files
      let closed := fclose o.flushed wrote.2.1 wrote.2.2
      (true, closed.2)

/-- `loadFile`; there is no result where the length `-1` makes the string throw. -/
def loadFile (o : LoadOutcome) (files : Files) (path : Bytes) : Option Bytes :=
  match files path with
  | none => some []
  | some content =>
      if o.opens then
        let len := if o.seeksEnd then content.length else 0
        let position := if o.seeksSet then 0 else len
        if o.tells then
          let got := (content.drop position).take (min len o.read)
          some (got ++ List.replicate (len - got.length) 0)
        else none
      else some []

/-- All calls of `loadFile` succeed. -/
structure LoadOutcome.Succeeds (o : LoadOutcome) (files : Files) (path : Bytes) : Prop where
  opens : o.opens = true
  seeksEnd : o.seeksEnd = true
  tells : o.tells = true
  seeksSet : o.seeksSet = true
  read : ∀ content, files path = some content → content.length ≤ o.read

/-- If `saveFile` returns true the file holds the data, and `loadFile` gives them
back. -/
def Reported (o : SaveOutcome) (files : Files) (data path : Bytes) : Prop :=
  (saveFile o files data path).1 = true →
    (saveFile o files data path).2 path = some data ∧
      ∀ l : LoadOutcome, l.Succeeds (saveFile o files data path).2 path →
        loadFile l (saveFile o files data path).2 path = some data

variable {o : SaveOutcome} {files : Files} {data path : Bytes}

/-- A file that opens holds the bytes that were taken and passed on. -/
theorem saveFile_of_opens (hopens : o.opens = true) (files : Files) (data path : Bytes) :
    saveFile o files data path = (true, Function.update files path
      (some ((data.take o.accepted).take (o.drained + o.flushed)))) := by
  rw [saveFile, fopen, if_pos hopens]
  simp only [fwrite, fclose, Stream.write, List.nil_append, Function.update_self,
    Function.update_idem, Option.getD_some, Prod.mk.injEq, true_and]
  rw [List.take_add]

/-- Without the file nothing changes. -/
theorem saveFile_of_not_opens (hopens : o.opens = false) (files : Files) (data path : Bytes) :
    saveFile o files data path = (false, files) := by
  rw [saveFile, fopen, hopens]
  rfl

/-- `saveFile` touches no other file. -/
theorem saveFile_other {other : Bytes} (hother : other ≠ path) :
    (saveFile o files data path).2 other = files other := by
  cases hopens : o.opens with
  | true =>
      rw [saveFile_of_opens hopens]
      exact Function.update_of_ne hother _ _
  | false => rw [saveFile_of_not_opens hopens]

/-- A `loadFile` whose calls succeed returns what the file holds. -/
theorem loadFile_of_succeeds {l : LoadOutcome} {content : Bytes} (hfile : files path = some content)
    (h : l.Succeeds files path) : loadFile l files path = some content := by
  have hread : content.take (min content.length l.read) = content :=
    List.take_of_length_le (Nat.le_min.mpr ⟨Nat.le_refl _, h.read content hfile⟩)
  simp only [loadFile, hfile, h.opens, h.seeksEnd, h.tells, h.seeksSet, if_true, List.drop_zero,
    hread, Nat.sub_self, List.replicate_zero, List.append_nil]

/-- `saveFile` reports what it did exactly when the file does not open, or when all
data are taken by `fwrite` and have reached the file once it is closed. -/
theorem reported_iff (o : SaveOutcome) (files : Files) (data path : Bytes) :
    Reported o files data path ↔
      (o.opens = true → data.length ≤ o.accepted ∧ data.length ≤ o.drained + o.flushed) := by
  cases hopens : o.opens with
  | false =>
      refine iff_of_true ?_ nofun
      rw [Reported, saveFile_of_not_opens hopens]
      exact nofun
  | true =>
      have hall : (data.take o.accepted).take (o.drained + o.flushed) = data ↔
          data.length ≤ o.accepted ∧ data.length ≤ o.drained + o.flushed := by
        rw [List.take_take, List.take_eq_self_iff, Nat.le_min, and_comm]
      have hfile : (saveFile o files data path).2 path = some data ↔
          data.length ≤ o.accepted ∧ data.length ≤ o.drained + o.flushed := by
        rw [saveFile_of_opens hopens]
        simp only [Function.update_self, Option.some.injEq, hall]
      have hreturns : (saveFile o files data path).1 = true := by
        rw [saveFile_of_opens hopens]
      constructor
      · intro h _
        exact hfile.mp (h hreturns).1
      · intro h _
        have hholds := hfile.mpr (h rfl)
        exact ⟨hholds, fun l hl => loadFile_of_succeeds hholds hl⟩

/-- The device takes one byte of three, and `fclose` fails. -/
theorem not_reported : ∃ o : SaveOutcome,
    (saveFile o (fun _ => none) (ascii "a=1") (ascii "c.ini")).1 = true ∧
      (saveFile o (fun _ => none) (ascii "a=1") (ascii "c.ini")).2 (ascii "c.ini") =
        some (ascii "a") ∧
      ¬ Reported o (fun _ => none) (ascii "a=1") (ascii "c.ini") := by
  refine ⟨⟨true, 3, 0, 1⟩, rfl, by decide, ?_⟩
  intro h
  exact absurd (h rfl).1 (by decide)

end FFZKit.Util.SaveFile
