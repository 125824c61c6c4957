import FFZKit.Poller.SelectPoller
import Mathlib.Data.List.Perm.Basic
import Mathlib.Data.Finset.Dedup
import Mathlib.Data.Finset.Filter

/-!
# One round of `runLoop` in the `select` backend

A round reads the sets of ready fds, collects the records that have an event in
a list, and walks the list while the callbacks change the registrations.

## Implementation notes

`event_map_` is an unordered map, so a round comes with the order in which the
map is walked. The sets are built, passed to `fz_select` and read again without
any callback in between, which makes that one step; its answer may be any part
of the sets asked for. What `getMinDelay` runs belongs to no round. `registered`,
`ready`, `fresh` and `trace` are histories of the round. No step reads them.
-/

namespace FFZKit.Poller.PollRound

open FFZKit.Foundations.Transition
open FFZKit.Poller.SelectPoller
open Std (ExtTreeMap)

/-- `set_read`, `set_write` and `set_err`. -/
structure FdSets where
  read : Finset Int
  write : Finset Int
  err : Finset Int

/-- `Event_Read`, `Event_Write` and `Event_Error` -/
def eventRead : BitVec 32 := 1#32
def eventWrite : BitVec 32 := 2#32
def eventError : BitVec 32 := 4#32

variable {Callback : Type*}

/-- The fds whose record asks for `event`. -/
def requestedFds (eventMap : ExtTreeMap Int (PollRecord Callback) compare)
    (event : BitVec 32) : Finset Int :=
  ((eventMap.toList.filter fun pr => pr.2.event &&& event ≠ 0).map Prod.fst).toFinset

/-- The sets that a round passes to `fz_select`. -/
def requested (eventMap : ExtTreeMap Int (PollRecord Callback) compare) : FdSets where
  read := requestedFds eventMap eventRead
  write := requestedFds eventMap eventWrite
  err := requestedFds eventMap eventError

namespace FdSets

def empty : FdSets := ⟨∅, ∅, ∅⟩

def Subset (a b : FdSets) : Prop :=
  a.read ⊆ b.read ∧ a.write ⊆ b.write ∧ a.err ⊆ b.err

instance (a b : FdSets) : Decidable (a.Subset b) :=
  inferInstanceAs (Decidable (_ ∧ _ ∧ _))

/-- The events for which `fd` is in the sets. -/
def mask (sets : FdSets) (fd : Int) : BitVec 32 :=
  (if fd ∈ sets.read then eventRead else 0) |||
    (if fd ∈ sets.write then eventWrite else 0) |||
      (if fd ∈ sets.err then eventError else 0)

end FdSets

/-- The second loop over `event_map_`: a record with a ready event notes its
mask and joins `callback_list`. -/
def collect (ready : FdSets) :
    List Int → ExtTreeMap Int (PollRecord Callback) compare → List (PollRecord Callback) →
      ExtTreeMap Int (PollRecord Callback) compare × List (PollRecord Callback)
  | [], eventMap, callbackList => (eventMap, callbackList)
  | fd :: order, eventMap, callbackList =>
      match eventMap[fd]? with
      | none => collect ready order eventMap callbackList
      | some record =>
          if ready.mask fd = 0#32 then collect ready order eventMap callbackList
          else
            let record := { record with attach := ready.mask fd }
            collect ready order (eventMap.insert fd record) (callbackList ++ [record])

/-- Where the poller's thread is: inside `getMinDelay`, at the next record of
`callback_list`, or inside the callback of a record. -/
inductive LoopPhase (Callback : Type*)
  | timers
  | dispatching
  | running (record : PollRecord Callback)

/-- What happened in a round: `delEvent` erased a fd, `addEvent` registered the
record with a serial number, and what became of a collected record. -/
inductive RoundEvent (Callback : Type*)
  | deleted (fd : Int)
  | added (serial : Nat)
  | invoked (record : PollRecord Callback)
  | skipped (record : PollRecord Callback)
  deriving DecidableEq

/-- The loop, with what is left of `callback_list`. `registered` and `ready`
are `event_map_` and the sets as the round read them, and `fresh` is the number
of records made until then. -/
structure Loop (Callback : Type*) where
  poller : EventPoller Callback
  callbackList : List (PollRecord Callback)
  phase : LoopPhase Callback
  registered : ExtTreeMap Int (PollRecord Callback) compare
  ready : FdSets
  fresh : Nat
  trace : List (RoundEvent Callback)

/-- The loop of a poller before a round. -/
def Loop.enter (poller : EventPoller Callback) : Loop Callback where
  poller := poller
  callbackList := []
  phase := .timers
  registered := ∅
  ready := .empty
  fresh := 0
  trace := []

/-- What a call does to the registrations. -/
def noted (s : EventPoller Callback) : Call Callback → List (RoundEvent Callback)
  | .addEvent fd _ (some _) =>
      if fdSetSize ≤ fd ∨ fd ∈ s.eventMap then [] else [.added s.created]
  | .delEvent fd => if fd ∈ s.eventMap then [.deleted fd] else []
  | _ => []

namespace Loop

/-- The sets are read, after which the expired fds of the last round are
forgotten and the records with an event collected. -/
def select (s : Loop Callback) (ready : FdSets) (order : List Int) : Loop Callback :=
  let (eventMap, callbackList) := collect ready order s.poller.eventMap s.callbackList
  { s with
    poller := { s.poller with eventMap := eventMap, eventCacheExpired := ∅ }
    callbackList := callbackList
    phase := .dispatching
    registered := s.poller.eventMap
    ready := ready
    fresh := s.poller.created
    trace := [] }

/-- The next record of `callback_list`, or the end of the round. -/
def dispatch (s : Loop Callback) : Loop Callback :=
  match s.callbackList with
  | [] => { s with phase := .timers }
  | record :: rest =>
      if record.fd ∈ s.poller.eventCacheExpired then
        { s with callbackList := rest, trace := s.trace ++ [.skipped record] }
      else
        { s with
          callbackList := rest
          phase := .running record
          trace := s.trace ++ [.invoked record] }

def called (s : Loop Callback) (c : Call Callback) (poller : EventPoller Callback) :
    Loop Callback :=
  { s with poller := poller, trace := s.trace ++ noted s.poller c }

end Loop

/-- The steps of the poller's thread: a call made by a timer or by a callback,
the return of `fz_select` (negative without sets), the next record of the list,
and the end of its callback. -/
inductive Action (Callback : Type*)
  | call (c : Call Callback)
  | select (ready : Option FdSets) (order : List Int)
  | dispatch
  | finish (threw : Bool)

/-- One step. A callback, or `getMinDelay`, ends when its calls have; what it
throws is logged and changes nothing. -/
def step (s : Loop Callback) : Action Callback → Option (Loop Callback)
  | .call c =>
      match s.phase with
      | .dispatching => none
      | _ => (SelectPoller.step s.poller c).map (s.called c)
  | .select ready order =>
      match s.phase, s.poller.frames, ready with
      | .timers, [], none => some s
      | .timers, [], some ready =>
          if ready.Subset (requested s.poller.eventMap) ∧ order.Perm s.poller.eventMap.keys then
            some (s.select ready order)
          else none
      | _, _, _ => none
  | .dispatch =>
      match s.phase with
      | .dispatching => some s.dispatch
      | _ => none
  | .finish _ =>
      match s.phase, s.poller.frames with
      | .running _, [] => some { s with phase := .dispatching }
      | _, _ => none

end FFZKit.Poller.PollRound
