import FFZKit.Poller.PollRound
import Mathlib.Data.Finset.Erase

/-!
# The `epoll` backend

`addEvent`, `delEvent` and `modifyEvent` as the poller's own thread runs them
with the `epoll` of Linux, and the rounds of `runLoop`. The kernel keeps the
interest list of `event_fd_` by itself: `epoll_ctl` may fail, and the list forgets
a descriptor when it is closed.

## Implementation notes

The masks are those of Linux's `sys/epoll.h`; the one for Windows in `win32/sys`
defines `EPOLLET` as 0. The calls are split at their completion callback as in the
`select` backend. A descriptor is the only one of its file (no `dup`, no `fork`), and
`event_fd_` and descriptors that cannot be polled are not among the open ones. An
event comes from the interest list, with events that were asked for, or an error or
a hang-up, which are always reported. `asked`, `registered`, `masks`, `reported` and
`trace` are histories: the masks that the interest list was given, and how a round
began and went on. No step reads them.
-/

namespace FFZKit.Poller.EpollPoller

open FFZKit.Foundations.Transition
open FFZKit.Poller.SelectPoller (Frame)
open FFZKit.Poller.PollRound (eventRead eventWrite eventError)
open Std (ExtTreeMap)

def epollIn : BitVec 32 := 0x1#32
def epollOut : BitVec 32 := 0x4#32
def epollErr : BitVec 32 := 0x8#32
def epollHup : BitVec 32 := 0x10#32
def epollRdNorm : BitVec 32 := 0x40#32
def epollWrNorm : BitVec 32 := 0x100#32
def epollEt : BitVec 32 := 0x80000000#32

/-- `Event_LT` -/
def eventLT : BitVec 32 := 8#32

def toEpoll (event : BitVec 32) : BitVec 32 :=
  (if event &&& eventRead ≠ 0 then epollIn else 0) |||
    (if event &&& eventWrite ≠ 0 then epollOut else 0) |||
      (if event &&& eventError ≠ 0 then epollHup ||| epollErr else 0) |||
        (if event &&& eventLT ≠ 0 then 0 else epollEt)

def toPoller (epollEvent : BitVec 32) : BitVec 32 :=
  (if epollEvent &&& (epollIn ||| epollRdNorm ||| epollHup) ≠ 0 then eventRead else 0) |||
    (if epollEvent &&& (epollOut ||| epollWrNorm) ≠ 0 then eventWrite else 0) |||
      (if epollEvent &&& epollHup ≠ 0 then eventError else 0) |||
        (if epollEvent &&& epollErr ≠ 0 then eventError else 0)

/-- The open descriptors, and the interest list with its masks. -/
structure Kernel where
  opened : Finset Int
  interest : ExtTreeMap Int (BitVec 32) compare

namespace Kernel

/-- `EPOLL_CTL_ADD`, which is refused without memory. -/
def add (s : Kernel) (fd : Int) (events : BitVec 32) (refused : Bool) : Kernel × Int :=
  if fd ∉ s.opened ∨ fd ∈ s.interest ∨ refused = true then (s, -1)
  else ({ s with interest := s.interest.insert fd events }, 0)

/-- `EPOLL_CTL_MOD` -/
def mod (s : Kernel) (fd : Int) (events : BitVec 32) : Kernel × Int :=
  if fd ∈ s.interest then ({ s with interest := s.interest.insert fd events }, 0) else (s, -1)

/-- `EPOLL_CTL_DEL` -/
def del (s : Kernel) (fd : Int) : Kernel × Int :=
  if fd ∈ s.interest then ({ s with interest := s.interest.erase fd }, 0) else (s, -1)

def open_ (s : Kernel) (fd : Int) : Kernel := { s with opened := insert fd s.opened }

def close (s : Kernel) (fd : Int) : Kernel :=
  { s with opened := s.opened.erase fd, interest := s.interest.erase fd }

end Kernel

/-- A `PollEventCB` behind its pointer, with the number of those made before it. -/
structure EventCallback (Callback : Type*) where
  serial : Nat
  callBack : Callback
  deriving DecidableEq, Repr

structure EventPoller (Callback : Type*) where
  kernel : Kernel
  eventMap : ExtTreeMap Int (EventCallback Callback) compare
  eventCacheExpired : Finset Int
  fdCount : Nat
  frames : List Frame
  created : Nat
  asked : ExtTreeMap Int (BitVec 32) compare

variable {Callback : Type*}

/-- A poller whose kernel has these descriptors open. -/
def init (Callback : Type*) (opened : Finset Int) : EventPoller Callback where
  kernel := ⟨opened, ∅⟩
  eventMap := ∅
  eventCacheExpired := ∅
  fdCount := 0
  frames := []
  created := 0
  asked := ∅

namespace EventPoller

/-- `addEvent`, with its return value. `emplace` keeps a callback that is there. -/
def addEvent (s : EventPoller Callback) (fd : Int) (event : BitVec 32) (cb : Option Callback)
    (refused : Bool) : EventPoller Callback × Int :=
  match cb with
  | none => (s, -1)
  | some cb =>
      match s.kernel.add fd (toEpoll event) refused with
      | (kernel, ret) =>
          if ret ≠ -1 then
            let eventMap := s.eventMap.insertIfNew fd ⟨s.created, cb⟩
            ({ s with
              kernel := kernel
              eventMap := eventMap
              fdCount := eventMap.size
              created := s.created + 1
              asked := s.asked.insert fd event }, ret)
          else ({ s with kernel := kernel, fdCount := s.eventMap.size }, ret)

/-- `delEvent` up to its completion callback. -/
def delEvent (s : EventPoller Callback) (fd : Int) : EventPoller Callback :=
  if fd ∈ s.eventMap then
    match s.kernel.del fd with
    | (kernel, ret) =>
        { s with
          kernel := kernel
          eventMap := s.eventMap.erase fd
          eventCacheExpired := insert fd s.eventCacheExpired
          frames := .delEvent ret :: s.frames
          asked := s.asked.erase fd }
  else { s with frames := .delEvent (-1) :: s.frames }

/-- `modifyEvent` up to its completion callback. -/
def modifyEvent (s : EventPoller Callback) (fd : Int) (event : BitVec 32) :
    EventPoller Callback :=
  match s.kernel.mod fd (toEpoll event) with
  | (kernel, ret) =>
      { s with
        kernel := kernel
        frames := .modifyEvent ret :: s.frames
        asked := if ret ≠ -1 then s.asked.insert fd event else s.asked }

/-- The end of the completion callback of the innermost call, as in the other
backend. -/
def complete (s : EventPoller Callback) (threw : Bool) : Option (EventPoller Callback) :=
  match s.frames with
  | [] => none
  | .delEvent _ :: frames =>
      if threw then some { s with frames := frames }
      else some { s with frames := frames, fdCount := s.eventMap.size }
  | .modifyEvent _ :: frames => some { s with frames := frames }

end EventPoller

/-- What the poller's thread does next, or the program with its descriptors. -/
inductive Call (Callback : Type*)
  | addEvent (fd : Int) (event : BitVec 32) (cb : Option Callback) (refused : Bool)
  | delEvent (fd : Int)
  | modifyEvent (fd : Int) (event : BitVec 32)
  | complete (threw : Bool)
  | opens (fd : Int)
  | closes (fd : Int)

def step (s : EventPoller Callback) : Call Callback → Option (EventPoller Callback)
  | .addEvent fd event cb refused => some (s.addEvent fd event cb refused).1
  | .delEvent fd => some (s.delEvent fd)
  | .modifyEvent fd event => some (s.modifyEvent fd event)
  | .complete threw => s.complete threw
  | .opens fd => some { s with kernel := s.kernel.open_ fd }
  | .closes fd => some { s with kernel := s.kernel.close fd, asked := s.asked.erase fd }

/-- `struct epoll_event` -/
structure EpollEvent where
  fd : Int
  events : BitVec 32
  deriving DecidableEq, Repr

/-- `EPOLL_SIZE` -/
def epollSize : Nat := 1024

/-- What the kernel may report of a mask: whatever it asks for, and errors. -/
def reportable (mask : BitVec 32) : BitVec 32 :=
  (mask &&& ~~~epollEt) ||| epollErr ||| epollHup

/-- The kernel may report the event. -/
def Kernel.mayReport (s : Kernel) (ev : EpollEvent) : Bool :=
  ev.events ≠ 0 && s.interest[ev.fd]?.any fun mask => ev.events &&& ~~~reportable mask = 0

/-- What `epoll_wait` may store in `events`. -/
def Kernel.Reports (s : Kernel) (events : List EpollEvent) : Prop :=
  events.length ≤ epollSize ∧ (events.map EpollEvent.fd).Nodup ∧
    ∀ ev ∈ events, s.mayReport ev = true

instance (s : Kernel) (events : List EpollEvent) : Decidable (s.Reports events) :=
  inferInstanceAs (Decidable (_ ∧ _ ∧ _))

/-- Where the poller's thread is: inside `getMinDelay`, at the next event, or
inside the callback of an event. -/
inductive LoopPhase (Callback : Type*)
  | timers
  | dispatching
  | running (ev : EpollEvent) (cb : EventCallback Callback)

/-- What happened in a round: `delEvent` erased a fd, and what became of an event,
which is `removed` when there is no callback for it. -/
inductive RoundEvent (Callback : Type*)
  | deleted (fd : Int)
  | invoked (ev : EpollEvent) (cb : EventCallback Callback)
  | skipped (ev : EpollEvent)
  | removed (ev : EpollEvent)
  deriving DecidableEq

/-- The loop, with what is left of `events`. `registered`, `masks` and `reported` are
`event_map_`, `asked` and `events` as the round began. -/
structure Loop (Callback : Type*) where
  poller : EventPoller Callback
  events : List EpollEvent
  phase : LoopPhase Callback
  registered : ExtTreeMap Int (EventCallback Callback) compare
  masks : ExtTreeMap Int (BitVec 32) compare
  reported : List EpollEvent
  trace : List (RoundEvent Callback)

/-- The loop of a poller before a round. -/
def Loop.enter (poller : EventPoller Callback) : Loop Callback where
  poller := poller
  events := []
  phase := .timers
  registered := ∅
  masks := ∅
  reported := []
  trace := []

namespace Loop

/-- `epoll_wait` returns events, and the expired fds of the last round are forgotten. -/
def wait (s : Loop Callback) (events : List EpollEvent) : Loop Callback :=
  { s with
    poller := { s.poller with eventCacheExpired := ∅ }
    events := events
    phase := .dispatching
    registered := s.poller.eventMap
    masks := s.poller.asked
    reported := events
    trace := [] }

/-- The next event, or the end of the round. -/
def dispatch (s : Loop Callback) : Loop Callback :=
  match s.events with
  | [] => { s with phase := .timers }
  | ev :: rest =>
      if ev.fd ∈ s.poller.eventCacheExpired then
        { s with events := rest, trace := s.trace ++ [.skipped ev] }
      else
        match s.poller.eventMap[ev.fd]? with
        | none =>
            { s with
              poller := { s.poller with kernel := (s.poller.kernel.del ev.fd).1 }
              events := rest
              trace := s.trace ++ [.removed ev] }
        | some cb =>
            { s with
              events := rest
              phase := .running ev cb
              trace := s.trace ++ [.invoked ev cb] }

/-- What a call does to the registrations that a round has begun with. -/
def noted (s : EventPoller Callback) : Call Callback → List (RoundEvent Callback)
  | .delEvent fd => if fd ∈ s.eventMap then [.deleted fd] else []
  | _ => []

def called (s : Loop Callback) (c : Call Callback) (poller : EventPoller Callback) :
    Loop Callback :=
  { s with poller := poller, trace := s.trace ++ noted s.poller c }

end Loop

/-- The steps of the loop: a call made by a timer or by a callback, something that
happens to a descriptor, the return of `epoll_wait` (negative without events), the
next event, and the end of its callback. -/
inductive Action (Callback : Type*)
  | call (c : Call Callback)
  | wait (events : Option (List EpollEvent))
  | dispatch
  | finish (threw : Bool)

/-- One step. A callback, or `getMinDelay`, ends when its calls have; what it
throws is logged and changes nothing. Another thread may open and close descriptors
at any time. -/
def loopStep (s : Loop Callback) : Action Callback → Option (Loop Callback)
  | .call c =>
      match s.phase, c with
      | .dispatching, .opens _ => (step s.poller c).map (s.called c)
      | .dispatching, .closes _ => (step s.poller c).map (s.called c)
      | .dispatching, _ => none
      | _, _ => (step s.poller c).map (s.called c)
  | .wait events =>
      match s.phase, s.poller.frames, events with
      | .timers, [], none => some s
      | .timers, [], some events =>
          if s.poller.kernel.Reports events then some (s.wait events) else none
      | _, _, _ => none
  | .dispatch =>
      match s.phase with
      | .dispatching => some s.dispatch
      | _ => none
  | .finish _ =>
      match s.phase, s.poller.frames with
      | .running _ _, [] => some { s with phase := .dispatching }
      | _, _ => none

end FFZKit.Poller.EpollPoller
