import FFZKit.Foundations.Multimap
import Mathlib.Algebra.Group.Nat.Defs
import Mathlib.Data.Finset.Insert
import Mathlib.Order.Basic

/-!
# Delay tasks of the poller

`doDelayTask`, `flushDelayTask` and `getMinDelay` as the poller's own thread
runs them. The expired tasks are taken out of a copy of the map while the tasks
themselves insert into the live map, and then the two are merged.

## Implementation notes

A `DelayTask` is the number of tasks made before it. What a task does is a
script: it makes delay tasks and cancels some, and then returns or throws. A
flush calls a task once at most, so every script is one that some task with
state follows. A task made from an empty function behaves as one that was
cancelled before. `trace` is a history that no step reads.
-/

namespace FFZKit.Poller.DelayTask

open FFZKit.Foundations

/-- One action of a task: `doDelayTask(delay)` when `getCurrentMillisecond()` is
`clock`, or `cancel()` of a task. -/
inductive Op
  | doDelayTask (clock delay : Nat)
  | cancel (task : Nat)
  deriving DecidableEq, Repr

/-- How a task ends. -/
inductive Outcome
  | returns (delay : Nat)
  | throws
  deriving DecidableEq, Repr

/-- What a task does when it is called. -/
structure Script where
  ops : List Op
  outcome : Outcome
  deriving DecidableEq, Repr

/-- What happened to the tasks. -/
inductive TimerEvent
  | scheduled (deadline task : Nat)
  | cancelled (task : Nat)
  | called (task : Nat)
  | skipped (task : Nat)
  | ended (task : Nat) (outcome : Outcome)
  deriving DecidableEq, Repr

/-- `delay_task_map_`, and the tasks whose `_strongTask` is null. -/
structure Timers where
  delayTaskMap : Multimap Nat Nat
  cancelled : Finset Nat
  created : Nat
  trace : List TimerEvent

namespace Timers

/-- `doDelayTask` -/
def doDelayTask (s : Timers) (clock delay : Nat) : Timers :=
  let timeLine := (clock + delay) % 2 ^ 64
  { s with
    delayTaskMap := s.delayTaskMap.emplace timeLine s.created
    created := s.created + 1
    trace := s.trace ++ [.scheduled timeLine s.created] }

/-- `TaskCancelableImp::cancel` -/
def cancel (s : Timers) (task : Nat) : Timers :=
  { s with cancelled := insert task s.cancelled, trace := s.trace ++ [.cancelled task] }

def perform (s : Timers) : Op → Timers
  | .doDelayTask clock delay => s.doDelayTask clock delay
  | .cancel task => s.cancel task

/-- `TaskCancelableImp::operator()`: a cancelled task does nothing and answers 0. -/
def call (script : Nat → Script) (s : Timers) (task : Nat) : Timers × Outcome :=
  if task ∈ s.cancelled then ({ s with trace := s.trace ++ [.skipped task] }, .returns 0)
  else
    let called := { s with trace := s.trace ++ [.called task] }
    let done := (script task).ops.foldl perform called
    ({ done with trace := done.trace ++ [.ended task (script task).outcome] },
      (script task).outcome)

/-- The body of the loop in `flushDelayTask`: a task that asks for another delay
goes into the live map again, one that throws does not. -/
def expire (script : Nat → Script) (nowTime : Nat) (s : Timers) (task : Nat) : Timers :=
  match s.call script task with
  | (s', .returns nextDelay) =>
      if nextDelay = 0 then s'
      else { s' with
        delayTaskMap := s'.delayTaskMap.emplace ((nextDelay + nowTime) % 2 ^ 64) task }
  | (s', .throws) => s'

end Timers

/-- The difference of two `uint64_t`, as `int64_t`. -/
def difference (deadline nowTime : Nat) : Int :=
  (BitVec.ofNat 64 deadline - BitVec.ofNat 64 nowTime).toInt

/-- The delay until the first task of the map. -/
def firstDelay (delayTaskMap : Multimap Nat Nat) (nowTime : Nat) : Int :=
  match delayTaskMap.entries with
  | [] => -1
  | (deadline, _) :: _ => difference deadline nowTime

namespace Timers

/-- `flushDelayTask` -/
def flushDelayTask (script : Nat → Script) (nowTime : Nat) (s : Timers) : Timers × Int :=
  let taskCopy := s.delayTaskMap
  let expired := (taskCopy.upTo nowTime).map Prod.snd
  let live := expired.foldl (expire script nowTime) { s with delayTaskMap := .empty }
  let merged := (taskCopy.above nowTime).insertAll live.delayTaskMap.entries
  ({ live with delayTaskMap := merged }, firstDelay merged nowTime)

/-- `getMinDelay` when `getCurrentMillisecond()` is `now`. -/
def getMinDelay (script : Nat → Script) (now : Nat) (s : Timers) : Timers × Int :=
  match s.delayTaskMap.entries with
  | [] => (s, -1)
  | (deadline, _) :: _ =>
      if now < deadline then (s, difference deadline now) else s.flushDelayTask script now

end Timers

end FFZKit.Poller.DelayTask
