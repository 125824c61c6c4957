import FFZKit.Foundations.Transition
import Mathlib.Logic.Function.Basic
import Mathlib.Tactic.Common

/-!
# `NoticeCenter` and `EventDispatcher` under concurrent calls

The center maps each event to a dispatcher, and a dispatcher maps tags to
listeners; each map has its own mutex. `addListener` and `emitEvent` take the
two locks one after the other, `delListener` takes the center's lock twice.
Each locked section is one step, so two calls can interleave between them.

## Implementation notes

A dispatcher is identified by the number of dispatchers created before it.
The caller holds a shared pointer, so the object outlives its entry in the
center and its address is not reused. `clock` counts the steps taken; it and
the lists `added`, `deleted`, `emissions` are histories, as are the times in
the program counters. No step of the code reads them.
-/

namespace FFZKit.Util.NoticeCenter

/-- An element of `EventDispatcher::_mapListener`, with the time at which the
call of `addListener` that made it began. -/
structure Listener (Tag Func : Type*) where
  tag : Tag
  func : Func
  began : Nat
  deriving DecidableEq

/-- The program counter of one thread between two locked sections. -/
inductive Phase (Event Tag Func : Type*)
  | idle
  | adding (event : Event) (tag : Tag) (func : Func) (dispatcher began : Nat)
  | deleting (event : Event) (tag : Tag) (dispatcher began : Nat)
  | unlinking (event : Event) (dispatcher : Nat)
  | emitting (event : Event) (dispatcher began : Nat)

/-- A call of `addListener` that has returned. -/
structure Registration (Event Tag Func : Type*) where
  event : Event
  tag : Tag
  func : Func
  began : Nat
  returned : Nat
  deriving DecidableEq

/-- A call of `delListener` that has started. -/
structure Deletion (Event Tag : Type*) where
  event : Event
  tag : Tag
  began : Nat
  deriving DecidableEq

/-- A call of `emitEvent` that has taken the listeners it invokes. -/
structure Emission (Event Tag Func : Type*) where
  event : Event
  began : Nat
  ended : Nat
  snapshot : List (Tag × Func)
  deriving DecidableEq

/-- All dispatchers, linked in the center or only held by a running call, and
the threads. `eventOf` records for which event a dispatcher was created. -/
structure State (Event Tag Func Thread : Type*) where
  mapListener : Event → Option Nat
  dispatchers : Nat → List (Listener Tag Func)
  created : Nat
  threads : Thread → Phase Event Tag Func
  clock : Nat
  eventOf : Nat → Option Event
  added : List (Registration Event Tag Func)
  deleted : List (Deletion Event Tag)
  emissions : List (Emission Event Tag Func)

variable {Event Tag Func Thread : Type*}

def init : State Event Tag Func Thread where
  mapListener := fun _ => none
  dispatchers := fun _ => []
  created := 0
  threads := fun _ => .idle
  clock := 0
  eventOf := fun _ => none
  added := []
  deleted := []
  emissions := []

/-- The locked sections. Each call begins with its `Lookup`. -/
inductive Action (Event Tag Func Thread : Type*)
  | addLookup (t : Thread) (event : Event) (tag : Tag) (func : Func)
  | addInsert (t : Thread)
  | delLookup (t : Thread) (event : Event) (tag : Tag)
  | delErase (t : Thread)
  | delUnlink (t : Thread)
  | emitLookup (t : Thread) (event : Event)
  | emitSnapshot (t : Thread)

namespace State

variable [DecidableEq Event] [DecidableEq Tag] [DecidableEq Thread]

/-- The thread's next program counter; the step takes one tick. -/
def goto (s : State Event Tag Func Thread) (t : Thread) (p : Phase Event Tag Func) :
    State Event Tag Func Thread :=
  { s with threads := Function.update s.threads t p, clock := s.clock + 1 }

/-- `getDispatcher(event, true)` on an event without a dispatcher: a new
object is created and emplaced. -/
def createDispatcher (s : State Event Tag Func Thread) (event : Event) :
    State Event Tag Func Thread :=
  { s with
    mapListener := Function.update s.mapListener event (some s.created)
    dispatchers := Function.update s.dispatchers s.created []
    created := s.created + 1
    eventOf := Function.update s.eventOf s.created (some event) }

/-- `EventDispatcher::addListener`: emplace under the dispatcher's mutex. -/
def insertListener (s : State Event Tag Func Thread) (dispatcher : Nat)
    (l : Listener Tag Func) : State Event Tag Func Thread :=
  { s with
    dispatchers := Function.update s.dispatchers dispatcher (s.dispatchers dispatcher ++ [l]) }

/-- `_mapListener.erase(tag)` in `EventDispatcher::delListener`. -/
def eraseTag (s : State Event Tag Func Thread) (dispatcher : Nat) (tag : Tag) :
    State Event Tag Func Thread :=
  { s with
    dispatchers := Function.update s.dispatchers dispatcher
      ((s.dispatchers dispatcher).filter (fun l => l.tag ≠ tag)) }

/-- `NoticeCenter::delListener` goes on to `delDispatcher` when the locked
erase left the dispatcher without listeners. -/
def afterErase (s : State Event Tag Func Thread) (event : Event) (dispatcher : Nat) :
    Phase Event Tag Func :=
  if (s.dispatchers dispatcher).isEmpty then .unlinking event dispatcher else .idle

/-- `delDispatcher`: erase the event if it still maps to this dispatcher. -/
def delDispatcher (s : State Event Tag Func Thread) (event : Event) (dispatcher : Nat) :
    State Event Tag Func Thread :=
  if s.mapListener event = some dispatcher then
    { s with mapListener := Function.update s.mapListener event none }
  else s

def logAdded (s : State Event Tag Func Thread) (r : Registration Event Tag Func) :
    State Event Tag Func Thread :=
  { s with added := s.added ++ [r] }

def logDeleted (s : State Event Tag Func Thread) (d : Deletion Event Tag) :
    State Event Tag Func Thread :=
  { s with deleted := s.deleted ++ [d] }

def logEmission (s : State Event Tag Func Thread) (e : Emission Event Tag Func) :
    State Event Tag Func Thread :=
  { s with emissions := s.emissions ++ [e] }

end State

variable [DecidableEq Event] [DecidableEq Tag] [DecidableEq Thread]

/-- One locked section of one thread. -/
def step (s : State Event Tag Func Thread) :
    Action Event Tag Func Thread → Option (State Event Tag Func Thread)
  | .addLookup t event tag func =>
      match s.threads t with
      | .idle =>
          match s.mapListener event with
          | some d => some (s.goto t (.adding event tag func d s.clock))
          | none =>
              some ((s.createDispatcher event).goto t (.adding event tag func s.created s.clock))
      | _ => none
  | .addInsert t =>
      match s.threads t with
      | .adding event tag func d began =>
          some (((s.insertListener d ⟨tag, func, began⟩).logAdded
            ⟨event, tag, func, began, s.clock⟩).goto t .idle)
      | _ => none
  | .delLookup t event tag =>
      match s.threads t with
      | .idle =>
          match s.mapListener event with
          | some d =>
              some ((s.logDeleted ⟨event, tag, s.clock⟩).goto t (.deleting event tag d s.clock))
          | none => some ((s.logDeleted ⟨event, tag, s.clock⟩).goto t .idle)
      | _ => none
  | .delErase t =>
      match s.threads t with
      | .deleting event tag d _ =>
          some ((s.eraseTag d tag).goto t ((s.eraseTag d tag).afterErase event d))
      | _ => none
  | .delUnlink t =>
      match s.threads t with
      | .unlinking event d => some ((s.delDispatcher event d).goto t .idle)
      | _ => none
  | .emitLookup t event =>
      match s.threads t with
      | .idle =>
          match s.mapListener event with
          | some d => some (s.goto t (.emitting event d s.clock))
          | none => some ((s.logEmission ⟨event, s.clock, s.clock, []⟩).goto t .idle)
      | _ => none
  | .emitSnapshot t =>
      match s.threads t with
      | .emitting event d began =>
          some ((s.logEmission ⟨event, began, s.clock,
            (s.dispatchers d).map fun l => (l.tag, l.func)⟩).goto t .idle)
      | _ => none

/-- Everything one locked section can do. -/
inductive Moves : State Event Tag Func Thread → Action Event Tag Func Thread →
    State Event Tag Func Thread → Prop
  | addFound {s t event tag func d} (hidle : s.threads t = .idle)
      (hmap : s.mapListener event = some d) :
      Moves s (.addLookup t event tag func) (s.goto t (.adding event tag func d s.clock))
  | addCreated {s t event tag func} (hidle : s.threads t = .idle)
      (hmap : s.mapListener event = none) :
      Moves s (.addLookup t event tag func)
        ((s.createDispatcher event).goto t (.adding event tag func s.created s.clock))
  | addInsert {s t event tag func d began}
      (hphase : s.threads t = .adding event tag func d began) :
      Moves s (.addInsert t) (((s.insertListener d ⟨tag, func, began⟩).logAdded
        ⟨event, tag, func, began, s.clock⟩).goto t .idle)
  | delFound {s t event tag d} (hidle : s.threads t = .idle)
      (hmap : s.mapListener event = some d) :
      Moves s (.delLookup t event tag)
        ((s.logDeleted ⟨event, tag, s.clock⟩).goto t (.deleting event tag d s.clock))
  | delMissing {s t event tag} (hidle : s.threads t = .idle)
      (hmap : s.mapListener event = none) :
      Moves s (.delLookup t event tag) ((s.logDeleted ⟨event, tag, s.clock⟩).goto t .idle)
  | delErase {s t event tag d began} (hphase : s.threads t = .deleting event tag d began) :
      Moves s (.delErase t)
        ((s.eraseTag d tag).goto t ((s.eraseTag d tag).afterErase event d))
  | delUnlink {s t event d} (hphase : s.threads t = .unlinking event d) :
      Moves s (.delUnlink t) ((s.delDispatcher event d).goto t .idle)
  | emitFound {s t event d} (hidle : s.threads t = .idle)
      (hmap : s.mapListener event = some d) :
      Moves s (.emitLookup t event) (s.goto t (.emitting event d s.clock))
  | emitMissing {s t event} (hidle : s.threads t = .idle) (hmap : s.mapListener event = none) :
      Moves s (.emitLookup t event)
        ((s.logEmission ⟨event, s.clock, s.clock, []⟩).goto t .idle)
  | emitSnapshot {s t event d began} (hphase : s.threads t = .emitting event d began) :
      Moves s (.emitSnapshot t) ((s.logEmission ⟨event, began, s.clock,
        (s.dispatchers d).map fun l => (l.tag, l.func)⟩).goto t .idle)

theorem step_moves {s s' : State Event Tag Func Thread} {a : Action Event Tag Func Thread}
    (h : step s a = some s') : Moves s a s' := by
  cases a with
  | addLookup t event tag func =>
      simp only [step] at h
      split at h
      · rename_i hidle
        split at h <;> rename_i hmap <;> cases h
        · exact .addFound hidle hmap
        · exact .addCreated hidle hmap
      · cases h
  | addInsert t =>
      simp only [step] at h
      split at h
      · rename_i hphase
        cases h
        exact .addInsert hphase
      · cases h
  | delLookup t event tag =>
      simp only [step] at h
      split at h
      · rename_i hidle
        split at h <;> rename_i hmap <;> cases h
        · exact .delFound hidle hmap
        · exact .delMissing hidle hmap
      · cases h
  | delErase t =>
      simp only [step] at h
      split at h
      · rename_i hphase
        cases h
        exact .delErase hphase
      · cases h
  | delUnlink t =>
      simp only [step] at h
      split at h
      · rename_i hphase
        cases h
        exact .delUnlink hphase
      · cases h
  | emitLookup t event =>
      simp only [step] at h
      split at h
      · rename_i hidle
        split at h <;> rename_i hmap <;> cases h
        · exact .emitFound hidle hmap
        · exact .emitMissing hidle hmap
      · cases h
  | emitSnapshot t =>
      simp only [step] at h
      split at h
      · rename_i hphase
        cases h
        exact .emitSnapshot hphase
      · cases h

end FFZKit.Util.NoticeCenter
