import FFZKit.Foundations.Transition
import FFZKit.Foundations.Word
import Mathlib.Algebra.BigOperators.Group.List.Basic

/-!
# `ThreadLoadCounter`

The counter keeps a list of times slept and times run. `load` sums them up with
the time since the last stamp, and takes the oldest records out again as long
as the sums reach too far back.

## Implementation notes

All times are `uint64_t`, and the operations on them are those that wrap around.
`subtractions`, `loads` and `clock` are histories that no step reads: what was
subtracted from what, what `load` returned, and the last reading of the clock.
-/

namespace FFZKit.Thread.LoadCounter

open FFZKit.Foundations FFZKit.Foundations.Transition

/-- `TimeRecord` -/
structure TimeRecord where
  time : Nat
  sleep : Bool
  deriving DecidableEq, Repr

/-- A subtraction: from what, and what. -/
abbrev Subtraction := Nat × Nat

structure ThreadLoadCounter where
  sleeping : Bool
  lastSleepTime : Nat
  lastWakeTime : Nat
  maxSize : Nat
  maxUsec : Nat
  timeList : List TimeRecord
  clock : Nat
  subtractions : List Subtraction
  loads : List Int
  deriving DecidableEq, Repr

/-- The local variables of `load`. -/
structure Totals where
  totalSleepTime : Nat
  totalRunTime : Nat
  totalTime : Nat
  subtractions : List Subtraction

namespace Totals

/-- The body of the loop of `load` over the records. -/
def add (t : Totals) (rcd : TimeRecord) : Totals :=
  if rcd.sleep then { t with totalSleepTime := add64 t.totalSleepTime rcd.time }
  else { t with totalRunTime := add64 t.totalRunTime rcd.time }

/-- The body of the loop of `load` that takes out the first record. -/
def drop (t : Totals) (rcd : TimeRecord) : Totals :=
  if rcd.sleep then
    { t with
      totalSleepTime := sub64 t.totalSleepTime rcd.time
      totalTime := sub64 t.totalTime rcd.time
      subtractions := t.subtractions ++ [(t.totalSleepTime, rcd.time), (t.totalTime, rcd.time)] }
  else
    { t with
      totalRunTime := sub64 t.totalRunTime rcd.time
      totalTime := sub64 t.totalTime rcd.time
      subtractions := t.subtractions ++ [(t.totalRunTime, rcd.time), (t.totalTime, rcd.time)] }

end Totals

/-- The loop of `load` that takes out records. -/
def prune (maxSize maxUsec : Nat) : List TimeRecord → Totals → List TimeRecord × Totals
  | [], t => ([], t)
  | rcd :: rest, t =>
      if maxUsec < t.totalTime ∨ maxSize < (rcd :: rest).length then
        prune maxSize maxUsec rest (t.drop rcd)
      else (rcd :: rest, t)

namespace ThreadLoadCounter

/-- The constructor. -/
def init (maxSize maxUsec now : Nat) : ThreadLoadCounter where
  sleeping := true
  lastSleepTime := now
  lastWakeTime := now
  maxSize := maxSize
  maxUsec := maxUsec
  timeList := []
  clock := now
  subtractions := []
  loads := []

/-- `emplace_back` of a record, and `pop_front` when there are too many. -/
def record (s : ThreadLoadCounter) (rcd : TimeRecord) : ThreadLoadCounter :=
  let timeList := s.timeList ++ [rcd]
  { s with timeList := if s.maxSize < timeList.length then timeList.tail else timeList }

def startSleep (s : ThreadLoadCounter) (now : Nat) : ThreadLoadCounter :=
  record
    { s with
      sleeping := true
      lastSleepTime := now
      clock := now
      subtractions := s.subtractions ++ [(now, s.lastWakeTime)] }
    ⟨sub64 now s.lastWakeTime, false⟩

def sleepWakeUp (s : ThreadLoadCounter) (now : Nat) : ThreadLoadCounter :=
  record
    { s with
      sleeping := false
      lastWakeTime := now
      clock := now
      subtractions := s.subtractions ++ [(now, s.lastSleepTime)] }
    ⟨sub64 now s.lastSleepTime, true⟩

/-- The totals of `load` before any record is taken out. -/
def totals (s : ThreadLoadCounter) (now : Nat) : Totals :=
  let t := s.timeList.foldl Totals.add ⟨0, 0, 0, []⟩
  let t :=
    if s.sleeping then
      { t with
        totalSleepTime := add64 t.totalSleepTime (sub64 now s.lastSleepTime)
        subtractions := [(now, s.lastSleepTime)] }
    else
      { t with
        totalRunTime := add64 t.totalRunTime (sub64 now s.lastWakeTime)
        subtractions := [(now, s.lastWakeTime)] }
  { t with totalTime := add64 t.totalRunTime t.totalSleepTime }

/-- The value that `load` returns. -/
def percent (t : Totals) : Int :=
  if t.totalTime = 0 then 0 else toInt32 (mul64 t.totalRunTime 100 / t.totalTime)

def load (s : ThreadLoadCounter) (now : Nat) : ThreadLoadCounter :=
  let pruned := prune s.maxSize s.maxUsec s.timeList (s.totals now)
  { s with
    timeList := pruned.1
    clock := now
    subtractions := s.subtractions ++ pruned.2.subtractions
    loads := s.loads ++ [percent pruned.2] }

/-- A call, with what the clock reads in it. -/
inductive Action
  | startSleep (now : Nat)
  | sleepWakeUp (now : Nat)
  | load (now : Nat)

def step (s : ThreadLoadCounter) : Action → Option ThreadLoadCounter
  | .startSleep now => some (s.startSleep now)
  | .sleepWakeUp now => some (s.sleepWakeUp now)
  | .load now => some (s.load now)

end ThreadLoadCounter

end FFZKit.Thread.LoadCounter
