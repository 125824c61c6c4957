import FFZKit.Foundations.Transition
import Mathlib.Data.List.Perm.Basic
import Mathlib.Tactic.Common

/-!
# The task list, the wake-up pipe and the destructor of `EventPoller`

Every thread may hand a task over: it pushes under `mtx_task_` and then
writes one byte into the non-blocking pipe, as two separate steps. The loop
thread calls `onPipeEvent` when the pipe is readable: it reads until EAGAIN,
swaps `list_task_` out and calls the tasks one by one. The destructor posts
the exit task at the front, joins the loop and calls `onPipeEvent(true)`.

## Implementation notes

A running task may itself call `async`. Its push is a push by the thread that
runs it, so the body of a task needs no program of its own: any thread, the
loop's and the destructor's included, may push between any two steps.
The lists `pushed`, `accepted`, `batches` and `ran` are histories. No step
of the code reads them.
-/

namespace FFZKit.Poller.TaskHandover

/-- One entry of `list_task_`. `serial` counts the pushes made before it,
`first` says that `async_first` pushed it, and `exits` marks the lambda of
`shutdown`, whose body throws `ExitException`. -/
structure Task where
  serial : Nat
  first : Bool
  exits : Bool
  deriving DecidableEq, Repr

/-- How the body of an ordinary task ends. -/
inductive Outcome
  | returns
  | throws
  deriving DecidableEq, Repr

/-- The program counter inside `onPipeEvent`. `draining` is reached with the
first read that took bytes and `drained` with the read that found none. -/
inductive PipeEvent
  | entered
  | draining
  | drained
  | batch (rest : List Task)
  | running (task : Task) (rest : List Task)
  deriving DecidableEq, Repr

/-- The loop thread is inside `runLoop` until `exit_flag_` ends its loop. -/
inductive LoopPhase
  | polling
  | inPipeEvent (event : PipeEvent)
  | exited
  deriving DecidableEq, Repr

/-- The destructor: `joining` follows the push of the exit task, `joined`
the deletion of `loop_thread_`. -/
inductive DtorPhase (Thread : Type*)
  | alive
  | joining (by_ : Thread)
  | joined
  | flushing (event : PipeEvent)
  | returned
  deriving DecidableEq

/-- `onPipeEvent` is run by the loop, and once more by the destructor. -/
inductive Runner
  | loop
  | dtor
  deriving DecidableEq, Repr

/-- The fields of `EventPoller` that hand-over and shutdown use. `posting`
holds the calls of `async_I` between their push and their pipe write. -/
structure EventPoller (Thread : Type*) where
  pipe : Nat
  listTask : List Task
  loopThread : Option Thread
  exitFlag : Bool
  loop : LoopPhase
  dtor : DtorPhase Thread
  posting : List (Thread × Task)
  pushed : List Task
  accepted : List Task
  batches : List (List Task)
  ran : List Task

variable {Thread : Type*}

/-- A poller whose `runLoop(false, _)` has returned: the loop polls. -/
def init (loopThread : Thread) : EventPoller Thread where
  pipe := 0
  listTask := []
  loopThread := some loopThread
  exitFlag := false
  loop := .polling
  dtor := .alive
  posting := []
  pushed := []
  accepted := []
  batches := []
  ran := []

/-- The tasks of a batch that have not been called yet. -/
def PipeEvent.todo : PipeEvent → List Task
  | .entered => []
  | .draining => []
  | .drained => []
  | .batch rest => rest
  | .running _ rest => rest

def LoopPhase.event : LoopPhase → Option PipeEvent
  | .polling => none
  | .inPipeEvent event => some event
  | .exited => none

def DtorPhase.event : DtorPhase Thread → Option PipeEvent
  | .alive => none
  | .joining _ => none
  | .joined => none
  | .flushing event => some event
  | .returned => none

namespace EventPoller

/-- The call of `onPipeEvent` in progress on one side. -/
def event (s : EventPoller Thread) : Runner → Option PipeEvent
  | .loop => s.loop.event
  | .dtor => s.dtor.event

def setEvent (s : EventPoller Thread) (event : PipeEvent) : Runner → EventPoller Thread
  | .loop => { s with loop := .inPipeEvent event }
  | .dtor => { s with dtor := .flushing event }

/-- The tasks swapped out by either side and not called yet. -/
def todo (s : EventPoller Thread) : List Task :=
  (s.loop.event.elim [] PipeEvent.todo) ++ (s.dtor.event.elim [] PipeEvent.todo)

/-- The loop has begun to drain the pipe and has not swapped the list yet. -/
def betweenDrainAndSwap (s : EventPoller Thread) : Prop :=
  s.loop = .inPipeEvent .draining ∨ s.loop = .inPipeEvent .drained

variable [DecidableEq Thread]

/-- `EventPoller::isCurrentThread`: also true when there is no loop thread. -/
def isCurrentThread (s : EventPoller Thread) (t : Thread) : Bool :=
  s.loopThread.isNone || s.loopThread = some t

/-- The locked section of `async_I`: `emplace_front` or `emplace_back`. -/
def push (s : EventPoller Thread) (t : Thread) (first exits : Bool) : EventPoller Thread :=
  let task : Task := ⟨s.pushed.length, first, exits⟩
  { s with
    listTask := if first then task :: s.listTask else s.listTask ++ [task]
    posting := (t, task) :: s.posting
    pushed := s.pushed ++ [task] }

/-- `pipe_.write("", 1)` on a non-blocking pipe of `cap` bytes, after which
`async_I` returns the task. A full pipe makes the write fail, which the code
ignores. -/
def written (cap : Nat) (s : EventPoller Thread) (t : Thread) (task : Task) : EventPoller Thread :=
  { s with
    pipe := if s.pipe < cap then s.pipe + 1 else s.pipe
    posting := s.posting.erase (t, task)
    accepted := s.accepted ++ [task] }

/-- One `pipe_.read(buf, sizeof(buf))` that finds bytes. -/
def readSome (s : EventPoller Thread) : EventPoller Thread :=
  { s with pipe := s.pipe - min 1024 s.pipe, loop := .inPipeEvent .draining }

/-- `list_swap_.swap(list_task_)` under `mtx_task_`. -/
def swap (s : EventPoller Thread) (r : Runner) : EventPoller Thread :=
  { s.setEvent (.batch s.listTask) r with
    listTask := []
    batches := s.batches ++ [s.listTask] }

/-- The loop of `for_each` calls `(*task)()`. -/
def begin (s : EventPoller Thread) (r : Runner) (task : Task) (rest : List Task) :
    EventPoller Thread :=
  { s.setEvent (.running task rest) r with ran := s.ran ++ [task] }

/-- The call ends. `ExitException` sets `exit_flag_`; any other
`std::exception` is only logged. -/
def finish (s : EventPoller Thread) (r : Runner) (task : Task) (rest : List Task) :
    EventPoller Thread :=
  { s.setEvent (.batch rest) r with exitFlag := s.exitFlag || task.exits }

/-- `onPipeEvent` returns to `runLoop`, or to the destructor. -/
def leaveEvent (s : EventPoller Thread) : Runner → EventPoller Thread
  | .loop => { s with loop := .polling }
  | .dtor => { s with dtor := .returned }

end EventPoller

/-- The steps of all threads. `call` is `async` or `async_first` up to the
end of its locked section, `write` its pipe write and return. -/
inductive Action (Thread : Type*)
  | call (t : Thread) (maySync first : Bool)
  | write (t : Thread)
  | wake
  | read
  | swap (r : Runner)
  | begin (r : Runner)
  | finish (r : Runner) (outcome : Outcome)
  | leaveEvent (r : Runner)
  | exitLoop
  | shutdown (t : Thread)
  | join
  | flush

variable [DecidableEq Thread]

/-- One step of the poller. After the destructor has returned there is no
object left, so nothing is allowed. -/
def step (cap : Nat) (s : EventPoller Thread) (a : Action Thread) : Option (EventPoller Thread) :=
  if s.dtor = .returned then none else
  match a with
  | .call t maySync first =>
      if maySync && s.isCurrentThread t then some s
      else if (s.posting.lookup t).isSome then none
      else some (s.push t first false)
  | .write t =>
      match s.posting.lookup t with
      | none => none
      | some task => some (s.written cap t task)
  | .wake =>
      if s.loop = .polling ∧ s.exitFlag = false ∧ 0 < s.pipe then
        some { s with loop := .inPipeEvent .entered }
      else none
  | .read =>
      if s.loop = .inPipeEvent .entered ∨ s.loop = .inPipeEvent .draining then
        if 0 < s.pipe then some s.readSome
        else some { s with loop := .inPipeEvent .drained }
      else none
  | .swap r => if s.event r = some .drained then some (s.swap r) else none
  | .begin r =>
      match s.event r with
      | some (.batch (task :: rest)) => some (s.begin r task rest)
      | _ => none
  | .finish r _ =>
      match s.event r with
      | some (.running task rest) => some (s.finish r task rest)
      | _ => none
  | .leaveEvent r => if s.event r = some (.batch []) then some (s.leaveEvent r) else none
  | .exitLoop =>
      if s.loop = .polling ∧ s.exitFlag = true then some { s with loop := .exited } else none
  | .shutdown t =>
      if s.dtor = .alive ∧ (s.posting.lookup t).isNone then
        some { s.push t true true with dtor := .joining t }
      else none
  | .join =>
      match s.dtor with
      | .joining t =>
          if s.loop = .exited ∧ (s.posting.lookup t).isNone then
            some { s with dtor := .joined, loopThread := none }
          else none
      | _ => none
  | .flush => if s.dtor = .joined then some { s with dtor := .flushing .drained } else none

/-- Everything one step can do, with the guard under which it does it. -/
inductive Moves (cap : Nat) : EventPoller Thread → Action Thread → EventPoller Thread → Prop
  | sync {s t first} (h : s.isCurrentThread t = true) : Moves cap s (.call t true first) s
  | push {s t maySync first} (h : (maySync && s.isCurrentThread t) = false)
      (hidle : s.posting.lookup t = none) :
      Moves cap s (.call t maySync first) (s.push t first false)
  | write {s t task} (h : s.posting.lookup t = some task) :
      Moves cap s (.write t) (s.written cap t task)
  | wake {s} (hloop : s.loop = .polling) (hexit : s.exitFlag = false) (hpipe : 0 < s.pipe) :
      Moves cap s .wake { s with loop := .inPipeEvent .entered }
  | readSome {s} (hloop : s.loop = .inPipeEvent .entered ∨ s.loop = .inPipeEvent .draining)
      (hpipe : 0 < s.pipe) : Moves cap s .read s.readSome
  | readAgain {s} (hloop : s.loop = .inPipeEvent .entered ∨ s.loop = .inPipeEvent .draining)
      (hpipe : s.pipe = 0) : Moves cap s .read { s with loop := .inPipeEvent .drained }
  | swap {s r} (h : s.event r = some .drained) : Moves cap s (.swap r) (s.swap r)
  | begin {s r task rest} (h : s.event r = some (.batch (task :: rest))) :
      Moves cap s (.begin r) (s.begin r task rest)
  | finish {s r outcome task rest} (h : s.event r = some (.running task rest)) :
      Moves cap s (.finish r outcome) (s.finish r task rest)
  | leaveEvent {s r} (h : s.event r = some (.batch [])) :
      Moves cap s (.leaveEvent r) (s.leaveEvent r)
  | exitLoop {s} (hloop : s.loop = .polling) (hexit : s.exitFlag = true) :
      Moves cap s .exitLoop { s with loop := .exited }
  | shutdown {s t} (h : s.dtor = .alive) (hidle : s.posting.lookup t = none) :
      Moves cap s (.shutdown t) { s.push t true true with dtor := .joining t }
  | join {s t} (h : s.dtor = .joining t) (hloop : s.loop = .exited)
      (hidle : s.posting.lookup t = none) :
      Moves cap s .join { s with dtor := .joined, loopThread := none }
  | flush {s} (h : s.dtor = .joined) : Moves cap s .flush { s with dtor := .flushing .drained }

/-- A step is one of the listed moves, and the object still exists before it. -/
theorem step_moves {cap : Nat} {s s' : EventPoller Thread} {a : Action Thread}
    (h : step cap s a = some s') : s.dtor ≠ .returned ∧ Moves cap s a s' := by
  unfold step at h
  split at h
  · cases h
  · rename_i hlive
    refine ⟨hlive, ?_⟩
    cases a with
    | call t maySync first =>
        simp only at h
        split at h
        · rename_i hsync
          simp only [Bool.and_eq_true] at hsync
          cases h
          rw [hsync.1]
          exact .sync hsync.2
        · rename_i hsync
          split at h
          · cases h
          · rename_i hidle
            cases h
            exact .push (Bool.eq_false_iff.mpr hsync) (Option.not_isSome_iff_eq_none.mp hidle)
    | write t =>
        simp only at h
        split at h
        · cases h
        · rename_i hpost
          cases h
          exact .write hpost
    | wake =>
        simp only [Option.ite_none_right_eq_some, Option.some.injEq] at h
        obtain ⟨⟨hloop, hexit, hpipe⟩, rfl⟩ := h
        exact .wake hloop hexit hpipe
    | read =>
        simp only [Option.ite_none_right_eq_some] at h
        obtain ⟨hloop, h⟩ := h
        split at h
        · rename_i hpipe
          cases h
          exact .readSome hloop hpipe
        · rename_i hpipe
          cases h
          exact .readAgain hloop (by omega)
    | swap r =>
        simp only [Option.ite_none_right_eq_some, Option.some.injEq] at h
        obtain ⟨hevent, rfl⟩ := h
        exact .swap hevent
    | begin r =>
        simp only at h
        split at h
        · rename_i hevent
          cases h
          exact .begin hevent
        · cases h
    | finish r outcome =>
        simp only at h
        split at h
        · rename_i hevent
          cases h
          exact .finish hevent
        · cases h
    | leaveEvent r =>
        simp only [Option.ite_none_right_eq_some, Option.some.injEq] at h
        obtain ⟨hevent, rfl⟩ := h
        exact .leaveEvent hevent
    | exitLoop =>
        simp only [Option.ite_none_right_eq_some, Option.some.injEq] at h
        obtain ⟨⟨hloop, hexit⟩, rfl⟩ := h
        exact .exitLoop hloop hexit
    | shutdown t =>
        simp only [Option.ite_none_right_eq_some, Option.some.injEq, Option.isNone_iff_eq_none]
          at h
        obtain ⟨⟨hdtor, hidle⟩, rfl⟩ := h
        exact .shutdown hdtor hidle
    | join =>
        simp only at h
        split at h
        · rename_i hdtor
          simp only [Option.ite_none_right_eq_some, Option.some.injEq,
            Option.isNone_iff_eq_none] at h
          obtain ⟨⟨hloop, hidle⟩, rfl⟩ := h
          exact .join hdtor hloop hidle
        · cases h
    | flush =>
        simp only [Option.ite_none_right_eq_some, Option.some.injEq] at h
        obtain ⟨hdtor, rfl⟩ := h
        exact .flush hdtor

end FFZKit.Poller.TaskHandover
