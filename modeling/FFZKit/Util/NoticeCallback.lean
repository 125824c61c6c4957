import FFZKit.Util.NoticeCenter
import FFZKit.Foundations.Settles

/-!
# Listeners that call the `NoticeCenter` back

On one thread each call runs to its end, except that an emission runs the bodies
of the listeners it has copied, and these may call any operation of the center,
and emit in turn.

## Implementation notes

A body is a script of the calls it makes. What it does besides is a change of the
program's memory, on which its further calls may depend. The scripts of the
listeners are given by `body`, so a listener may register itself again. All
listeners of an event take the arguments that it is emitted with; of two
listeners that take different ones, `Args` is the sum.

`walk n` is the order in which the emission with number `n` visits its copy,
which an `unordered_multimap` leaves open. The number of emissions and the trace
are histories that no call reads.
-/

namespace FFZKit.Util.NoticeCenter

variable {Event Tag Func Thread Args Memory : Type*}

/-- A call that changes what is registered. -/
inductive Operation (Event Tag Func : Type*)
  | addListener (event : Event) (tag : Tag) (func : Func)
  | delListener (event : Event) (tag : Tag)
  | clearAll
  deriving DecidableEq

/-- The calls that a body makes. -/
inductive Script (Event Tag Func Args Memory : Type*)
  | done
  | operate (operation : Operation Event Tag Func) (next : Script Event Tag Func Args Memory)
  | emitEvent (event : Event) (args : Args) (next : Nat → Script Event Tag Func Args Memory)
  | access (write : Memory → Memory) (next : Memory → Script Event Tag Func Args Memory)

/-- What is recorded of a run: the operations, and the invocations of listeners
with the number of the emission. -/
inductive Happening (Event Tag Func : Type*)
  | performed (operation : Operation Event Tag Func)
  | invoked (emission : Nat) (listener : Tag × Func)
  deriving DecidableEq

namespace State

/-- The listeners that an emission of the event takes. -/
def listeners (s : State Event Tag Func Thread) (event : Event) : List (Tag × Func) :=
  match s.mapListener event with
  | none => []
  | some dispatcher => (s.dispatchers dispatcher).map fun l => (l.tag, l.func)

variable [DecidableEq Event] [DecidableEq Tag]

/-- `addListener`, with `getDispatcher(event, true)`. -/
def addListener (s : State Event Tag Func Thread) (event : Event) (tag : Tag) (func : Func) :
    State Event Tag Func Thread :=
  match s.mapListener event with
  | some dispatcher => s.insertListener dispatcher ⟨tag, func, s.clock⟩
  | none => (s.createDispatcher event).insertListener s.created ⟨tag, func, s.clock⟩

/-- `delListener`, with `getDispatcher(event, false)`. -/
def delListener (s : State Event Tag Func Thread) (event : Event) (tag : Tag) :
    State Event Tag Func Thread :=
  match s.mapListener event with
  | none => s
  | some dispatcher =>
      let s := s.eraseTag dispatcher tag
      if (s.dispatchers dispatcher).isEmpty then s.delDispatcher event dispatcher else s

def clearAll (s : State Event Tag Func Thread) : State Event Tag Func Thread :=
  { s with mapListener := fun _ => none }

def operate (s : State Event Tag Func Thread) :
    Operation Event Tag Func → State Event Tag Func Thread
  | .addListener event tag func => s.addListener event tag func
  | .delListener event tag => s.delListener event tag
  | .clearAll => s.clearAll

end State

/-- The center, the memory of the program, and the histories. -/
structure Program (Event Tag Func Thread Memory : Type*) where
  center : State Event Tag Func Thread
  memory : Memory
  emissions : Nat
  trace : List (Happening Event Tag Func)

section uninterrupted

open FFZKit.Foundations.Transition

variable [DecidableEq Event] [DecidableEq Tag] [DecidableEq Thread]

/-- Two states with the same maps. -/
structure SameMaps (s s' : State Event Tag Func Thread) : Prop where
  mapListener : s'.mapListener = s.mapListener
  dispatchers : s'.dispatchers = s.dispatchers
  created : s'.created = s.created

variable {s : State Event Tag Func Thread} {t : Thread} {event : Event} {tag : Tag} {func : Func}

theorem step_addInsert {dispatcher began : Nat}
    (h : s.threads t = .adding event tag func dispatcher began) :
    step s (.addInsert t) = some (((s.insertListener dispatcher ⟨tag, func, began⟩).logAdded
      ⟨event, tag, func, began, s.clock⟩).goto t .idle) := by
  simp only [step, h]

theorem step_delErase {dispatcher began : Nat}
    (h : s.threads t = .deleting event tag dispatcher began) :
    step s (.delErase t) = some ((s.eraseTag dispatcher tag).goto t
      ((s.eraseTag dispatcher tag).afterErase event dispatcher)) := by
  simp only [step, h]

theorem step_delUnlink {dispatcher : Nat} (h : s.threads t = .unlinking event dispatcher) :
    step s (.delUnlink t) = some ((s.delDispatcher event dispatcher).goto t .idle) := by
  simp only [step, h]

theorem step_emitSnapshot {dispatcher began : Nat}
    (h : s.threads t = .emitting event dispatcher began) :
    step s (.emitSnapshot t) = some ((s.logEmission ⟨event, began, s.clock,
      (s.dispatchers dispatcher).map fun l => (l.tag, l.func)⟩).goto t .idle) := by
  simp only [step, h]

/-- `addListener` is its two locked sections when nothing comes between them. -/
theorem addListener_uninterrupted (hidle : s.threads t = .idle) :
    ∃ s', Run step anyStep s [.addLookup t event tag func, .addInsert t] s' ∧
      SameMaps (s.addListener event tag func) s' := by
  rw [State.addListener]
  cases hmap : s.mapListener event with
  | none =>
      have hlookup : step s (.addLookup t event tag func) = some ((s.createDispatcher event).goto t
          (.adding event tag func s.created s.clock)) := by
        simp only [step, hidle, hmap]
      have hinsert := step_addInsert (s := (s.createDispatcher event).goto t
        (.adding event tag func s.created s.clock)) (Function.update_self t _ _)
      exact ⟨_, Run.next trivial hlookup (Run.single trivial hinsert), rfl, rfl, rfl⟩
  | some dispatcher =>
      have hlookup : step s (.addLookup t event tag func) =
          some (s.goto t (.adding event tag func dispatcher s.clock)) := by
        simp only [step, hidle, hmap]
      have hinsert := step_addInsert (s := s.goto t
        (.adding event tag func dispatcher s.clock)) (Function.update_self t _ _)
      exact ⟨_, Run.next trivial hlookup (Run.single trivial hinsert), rfl, rfl, rfl⟩

/-- `delListener` is its locked sections when nothing comes between them. -/
theorem delListener_uninterrupted (hidle : s.threads t = .idle) :
    ∃ as s', Run step anyStep s (.delLookup t event tag :: as) s' ∧
      SameMaps (s.delListener event tag) s' := by
  rw [State.delListener]
  cases hmap : s.mapListener event with
  | none =>
      have hlookup : step s (.delLookup t event tag) =
          some ((s.logDeleted ⟨event, tag, s.clock⟩).goto t .idle) := by
        simp only [step, hidle, hmap]
      exact ⟨[], _, Run.single trivial hlookup, rfl, rfl, rfl⟩
  | some dispatcher =>
      let deleting : State Event Tag Func Thread :=
        (s.logDeleted ⟨event, tag, s.clock⟩).goto t (.deleting event tag dispatcher s.clock)
      let erased := deleting.eraseTag dispatcher tag
      have hlookup : step s (.delLookup t event tag) = some deleting := by
        simp only [step, hidle, hmap, deleting]
      have herase : step deleting (.delErase t) =
          some (erased.goto t (erased.afterErase event dispatcher)) :=
        step_delErase (Function.update_self t _ _)
      by_cases hempty : ((s.eraseTag dispatcher tag).dispatchers dispatcher).isEmpty
      · have hafter : erased.afterErase event dispatcher = .unlinking event dispatcher :=
          if_pos hempty
        rw [hafter] at herase
        have hlinked : (s.eraseTag dispatcher tag).mapListener event = some dispatcher := hmap
        have hlinked' : (erased.goto t (.unlinking event dispatcher)).mapListener event =
            some dispatcher := hmap
        refine ⟨_, _, Run.next trivial hlookup (Run.next trivial herase (Run.single trivial
          (step_delUnlink (Function.update_self t _ _)))), ?_⟩
        simp only [hempty, if_true, State.delDispatcher, if_pos hlinked, if_pos hlinked']
        exact ⟨rfl, rfl, rfl⟩
      · refine ⟨_, _, Run.next trivial hlookup (Run.single trivial herase), ?_⟩
        simp only [hempty]
        exact ⟨rfl, rfl, rfl⟩

/-- `emitEvent` takes the listeners of the event when nothing comes between. -/
theorem emitEvent_uninterrupted (hidle : s.threads t = .idle) :
    ∃ as s' began ended, Run step anyStep s (.emitLookup t event :: as) s' ∧ SameMaps s s' ∧
      s'.emissions = s.emissions ++ [⟨event, began, ended, s.listeners event⟩] := by
  rw [State.listeners]
  cases hmap : s.mapListener event with
  | none =>
      have hlookup : step s (.emitLookup t event) =
          some ((s.logEmission ⟨event, s.clock, s.clock, []⟩).goto t .idle) := by
        simp only [step, hidle, hmap]
      exact ⟨[], _, _, _, Run.single trivial hlookup, ⟨rfl, rfl, rfl⟩, rfl⟩
  | some dispatcher =>
      have hlookup : step s (.emitLookup t event) =
          some (s.goto t (.emitting event dispatcher s.clock)) := by
        simp only [step, hidle, hmap]
      have hsnapshot := step_emitSnapshot
        (s := s.goto t (.emitting event dispatcher s.clock)) (Function.update_self t _ _)
      exact ⟨_, _, _, _, Run.next trivial hlookup (Run.single trivial hsnapshot),
        ⟨rfl, rfl, rfl⟩, rfl⟩

end uninterrupted

namespace Program

variable [DecidableEq Event] [DecidableEq Tag]

def start (memory : Memory) : Program Event Tag Func Thread Memory where
  center := init
  memory := memory
  emissions := 0
  trace := []

def operate (s : Program Event Tag Func Thread Memory) (operation : Operation Event Tag Func) :
    Program Event Tag Func Thread Memory :=
  { s with
    center := s.center.operate operation
    trace := s.trace ++ [.performed operation] }

/-- An emission that begins. -/
def begin (s : Program Event Tag Func Thread Memory) : Program Event Tag Func Thread Memory :=
  { s with emissions := s.emissions + 1 }

def invoke (s : Program Event Tag Func Thread Memory) (emission : Nat)
    (listener : Tag × Func) : Program Event Tag Func Thread Memory :=
  { s with trace := s.trace ++ [.invoked emission listener] }

/-- Run a script, given what the emissions in it do. -/
def perform (emit : Event → Args → Program Event Tag Func Thread Memory →
      Option (Nat × Program Event Tag Func Thread Memory)) :
    Script Event Tag Func Args Memory → Program Event Tag Func Thread Memory →
      Option (Program Event Tag Func Thread Memory)
  | .done, s => some s
  | .operate operation next, s => perform emit next (s.operate operation)
  | .emitEvent event args next, s =>
      match emit event args s with
      | none => none
      | some (ret, t) => perform emit (next ret) t
  | .access write next, s => perform emit (next s.memory) { s with memory := write s.memory }

/-- The loop of `EventDispatcher::emitEvent` over the copy. -/
def visit (emit : Event → Args → Program Event Tag Func Thread Memory →
      Option (Nat × Program Event Tag Func Thread Memory))
    (body : Func → Args → Script Event Tag Func Args Memory) (args : Args) (emission : Nat) :
    List (Tag × Func) → Nat → Program Event Tag Func Thread Memory →
      Option (Nat × Program Event Tag Func Thread Memory)
  | [], ret, s => some (ret, s)
  | listener :: rest, ret, s =>
      match perform emit (body listener.2 args) (s.invoke emission listener) with
      | none => none
      | some t => visit emit body args emission rest (ret + 1) t

/-- `emitEvent`, where emissions nest up to a depth. -/
def emitEvent (body : Func → Args → Script Event Tag Func Args Memory)
    (walk : Nat → List (Tag × Func) → List (Tag × Func)) :
    Nat → Event → Args → Program Event Tag Func Thread Memory →
      Option (Nat × Program Event Tag Func Thread Memory)
  | 0, _, _, _ => none
  | depth + 1, event, args, s =>
      match s.center.mapListener event with
      | none => some (0, s.begin)
      | some dispatcher =>
          let copy := walk s.emissions
            ((s.center.dispatchers dispatcher).map fun l => (l.tag, l.func))
          visit (emitEvent body walk depth) body args s.emissions copy 0 s.begin

end Program

end FFZKit.Util.NoticeCenter
