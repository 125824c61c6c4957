import FFZKit.Foundations.Transition
import Mathlib.Data.Finset.Insert
import Std.Data.ExtTreeMap.Lemmas

/-!
# Event registration in the `select` backend

`addEvent`, `delEvent` and `modifyEvent` as the poller's own thread runs them.
The last two call a completion callback, which may call all three again and may
throw, so such a call is two steps: up to the callback, and from its end on.
The calls that have not returned are the frames of a stack.

## Implementation notes

A `Poll_Record` is a value with the number of records made before it. The map
and the list of a poll round share it in the source, but the list reads only
what nobody writes while the list lives. An empty completion callback is one
that returns at once. A callback that catches what a nested call throws ends
without throwing itself. `unrefreshed` is a history: whether a fd was erased
since `fd_count_` was last assigned. No step of the code reads it.
-/

namespace FFZKit.Poller.SelectPoller

open FFZKit.Foundations.Transition
open Std (ExtTreeMap)

/-- `Poll_Record`, with the number of records made before it. -/
structure PollRecord (Callback : Type*) where
  serial : Nat
  fd : Int
  event : BitVec 32
  attach : BitVec 32
  callBack : Callback
  deriving DecidableEq, Repr

/-- A call that waits for the end of its completion callback, with what it
returns then. -/
inductive Frame
  | delEvent (ret : Int)
  | modifyEvent (ret : Int)
  deriving DecidableEq, Repr

structure EventPoller (Callback : Type*) where
  eventMap : ExtTreeMap Int (PollRecord Callback) compare
  eventCacheExpired : Finset Int
  fdCount : Nat
  frames : List Frame
  created : Nat
  unrefreshed : Bool

variable {Callback : Type*}

def init (Callback : Type*) : EventPoller Callback where
  eventMap := ∅
  eventCacheExpired := ∅
  fdCount := 0
  frames := []
  created := 0
  unrefreshed := false

/-- `FD_SETSIZE` -/
def fdSetSize : Int := 1024

namespace EventPoller

/-- `addEvent`, with its return value. `emplace` keeps a record that is there. -/
def addEvent (s : EventPoller Callback) (fd : Int) (event : BitVec 32) (cb : Option Callback) :
    EventPoller Callback × Int :=
  match cb with
  | none => (s, -1)
  | some cb =>
      if fdSetSize ≤ fd then (s, -1)
      else
        let record := { serial := s.created, fd := fd, event := event, attach := 0, callBack := cb }
        let eventMap := s.eventMap.insertIfNew fd record
        ({ s with
          eventMap := eventMap
          fdCount := eventMap.size
          created := s.created + 1
          unrefreshed := false }, 0)

/-- `delEvent` up to its completion callback. -/
def delEvent (s : EventPoller Callback) (fd : Int) : EventPoller Callback :=
  if fd ∈ s.eventMap then
    { s with
      eventMap := s.eventMap.erase fd
      eventCacheExpired := insert fd s.eventCacheExpired
      frames := .delEvent 0 :: s.frames
      unrefreshed := true }
  else { s with frames := .delEvent (-1) :: s.frames }

/-- `modifyEvent` up to its completion callback. -/
def modifyEvent (s : EventPoller Callback) (fd : Int) (event : BitVec 32) :
    EventPoller Callback :=
  match s.eventMap[fd]? with
  | some record =>
      { s with
        eventMap := s.eventMap.insert fd { record with event := event }
        frames := .modifyEvent 0 :: s.frames }
  | none => { s with frames := .modifyEvent (-1) :: s.frames }

/-- The completion callback of the innermost call has returned or thrown; the
call returns, or lets the exception pass before it can assign `fd_count_`. -/
def complete (s : EventPoller Callback) (threw : Bool) : Option (EventPoller Callback) :=
  match s.frames with
  | [] => none
  | .delEvent _ :: frames =>
      if threw then some { s with frames := frames }
      else some { s with frames := frames, fdCount := s.eventMap.size, unrefreshed := false }
  | .modifyEvent _ :: frames => some { s with frames := frames }

end EventPoller

/-- What the poller's thread does next: a call, or the end of the completion
callback that it is in. -/
inductive Call (Callback : Type*)
  | addEvent (fd : Int) (event : BitVec 32) (cb : Option Callback)
  | delEvent (fd : Int)
  | modifyEvent (fd : Int) (event : BitVec 32)
  | complete (threw : Bool)

def step (s : EventPoller Callback) : Call Callback → Option (EventPoller Callback)
  | .addEvent fd event cb => some (s.addEvent fd event cb).1
  | .delEvent fd => some (s.delEvent fd)
  | .modifyEvent fd event => some (s.modifyEvent fd event)
  | .complete threw => s.complete threw

end FFZKit.Poller.SelectPoller
