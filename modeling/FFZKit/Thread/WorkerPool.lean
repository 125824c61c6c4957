import FFZKit.Foundations.Transition
import FFZKit.Thread.Semaphore
import Mathlib.Logic.Function.Basic

/-!
# `ThreadPool` and its `TaskQueue`

A pool whose `n` workers run `ThreadPool::run`. A push into the task queue is
two steps: the locked section that links the task and the `post` of the
semaphore. A worker waits for the semaphore, then pops under the mutex, and
exits when there is nothing to pop.

## Implementation notes

A running task may call `async` any number of times before it ends, so the
body of a task needs no program of its own. An exception thrown by a task is
logged by the worker, which goes on as after a normal return. The lists
`pushed` and `ran` are histories. No step of the code reads them.
-/

namespace FFZKit.Thread.WorkerPool

/-- One entry of `queue_`. `serial` counts the pushes made before it. -/
structure Task where
  serial : Nat
  deriving DecidableEq, Repr

/-- How a task ends. -/
inductive Outcome
  | returns
  | throws
  deriving DecidableEq, Repr

/-- The program counter of `ThreadPool::run`: inside `sem_.wait()`, between
`wait` and the locked section of `get_task`, inside `(*task)()`, or past the
loop because `get_task` returned false. -/
inductive WorkerPhase
  | waiting
  | popping
  | running (task : Task)
  | exited
  deriving DecidableEq, Repr

/-- Who calls `async`: a thread outside the pool, or the task that a worker runs. -/
inductive Caller (Producer : Type*) (n : Nat)
  | producer (p : Producer)
  | worker (w : Fin n)
  deriving DecidableEq

/-- The pool with its task queue. `posting` holds the calls of `push_task`
and `push_task_first` between their locked section and their post, and
`exitPosted` says that the destructor has called `push_exit`. -/
structure ThreadPool (Producer : Type*) (n : Nat) where
  queue : List Task
  sem : Semaphore (Fin n)
  worker : Fin n → WorkerPhase
  posting : List (Caller Producer n)
  exitPosted : Bool
  pushed : List Task
  ran : List (Task × Fin n)

variable {Producer : Type*} {n : Nat}

/-- The pool after `start`: every worker is about to wait for a task. -/
def init (Producer : Type*) (n : Nat) : ThreadPool Producer n where
  queue := []
  sem := Semaphore.init
  worker := fun _ => .waiting
  posting := []
  exitPosted := false
  pushed := []
  ran := []

namespace ThreadPool

/-- The locked section of `push_task` or `push_task_first`. -/
def push (s : ThreadPool Producer n) (c : Caller Producer n) (first : Bool) :
    ThreadPool Producer n :=
  let task : Task := ⟨s.pushed.length⟩
  { s with
    queue := if first then task :: s.queue else s.queue ++ [task]
    posting := c :: s.posting
    pushed := s.pushed ++ [task] }

def setWorker (s : ThreadPool Producer n) (w : Fin n) (phase : WorkerPhase) :
    ThreadPool Producer n :=
  { s with worker := Function.update s.worker w phase }

/-- `sem_.post()` of a call whose task is already linked. -/
def posted [DecidableEq Producer] (s : ThreadPool Producer n) (c : Caller Producer n)
    (sem : Semaphore (Fin n)) : ThreadPool Producer n :=
  { s with sem := sem, posting := s.posting.erase c }

/-- One pass through the loop of `sem_.wait()`. -/
def wait (s : ThreadPool Producer n) (w : Fin n) : ThreadPool Producer n :=
  if s.sem.count = 0 then { s with sem := s.sem.block w }
  else { s.setWorker w .popping with sem := s.sem.take w }

/-- The locked section of `get_task`, after which the worker calls the task it
was given, or leaves its loop when there was none. -/
def pop (s : ThreadPool Producer n) (w : Fin n) : ThreadPool Producer n :=
  match s.queue with
  | [] => s.setWorker w .exited
  | task :: rest =>
      { s.setWorker w (.running task) with queue := rest, ran := s.ran ++ [(task, w)] }

end ThreadPool

/-- The steps of all threads. `call` is `async` or `async_first` up to the end
of its locked section and `post` its post. `shutdown` is `push_exit(n)`. A
post comes with the worker that `notify_one` chooses. -/
inductive Action (Producer : Type*) (n : Nat)
  | call (c : Caller Producer n) (maySync first : Bool)
  | post (c : Caller Producer n) (choice : Option (Fin n))
  | shutdown (choice : Option (Fin n))
  | wait (w : Fin n)
  | wakeSpuriously (w : Fin n)
  | pop (w : Fin n)
  | finish (w : Fin n) (outcome : Outcome)

/-- A thread outside the pool calls `async` before the destructor, and a worker
calls it from the task it runs. -/
def mayCall (s : ThreadPool Producer n) : Caller Producer n → Bool
  | .producer _ => !s.exitPosted
  | .worker w =>
      match s.worker w with
      | .running _ => true
      | _ => false

/-- `thread_group_.is_this_thread_in()` -/
def Caller.inGroup : Caller Producer n → Bool
  | .producer _ => false
  | .worker _ => true

variable [DecidableEq Producer]

/-- One step of the pool. -/
def step (s : ThreadPool Producer n) (a : Action Producer n) : Option (ThreadPool Producer n) :=
  match a with
  | .call c maySync first =>
      if mayCall s c = true ∧ c ∉ s.posting then
        if maySync && c.inGroup then some s
        else some (s.push c first)
      else none
  | .post c choice =>
      if c ∈ s.posting then (s.sem.post 1 choice).map (s.posted c) else none
  | .shutdown choice =>
      if s.exitPosted then none
      else (s.sem.post n choice).map fun sem => { s with sem := sem, exitPosted := true }
  | .wait w =>
      if s.worker w = .waiting ∧ w ∉ s.sem.blocked then some (s.wait w) else none
  | .wakeSpuriously w =>
      if w ∈ s.sem.blocked then some { s with sem := s.sem.wake w } else none
  | .pop w => if s.worker w = .popping then some (s.pop w) else none
  | .finish w _ =>
      match s.worker w with
      | .running _ => if .worker w ∈ s.posting then none else some (s.setWorker w .waiting)
      | _ => none

/-- Everything one step can do, with the guard under which it does it. -/
inductive Moves : ThreadPool Producer n → Action Producer n → ThreadPool Producer n → Prop
  | sync {s c first} (hcall : mayCall s c = true) (hgroup : c.inGroup = true) :
      Moves s (.call c true first) s
  | push {s c maySync first} (hcall : mayCall s c = true) (hidle : c ∉ s.posting) :
      Moves s (.call c maySync first) (s.push c first)
  | post {s c choice sem} (hpost : c ∈ s.posting) (hsem : s.sem.post 1 choice = some sem) :
      Moves s (.post c choice) (s.posted c sem)
  | shutdown {s choice sem} (hfirst : s.exitPosted = false)
      (hsem : s.sem.post n choice = some sem) :
      Moves s (.shutdown choice) { s with sem := sem, exitPosted := true }
  | block {s w} (hworker : s.worker w = .waiting) (hawake : w ∉ s.sem.blocked)
      (hcount : s.sem.count = 0) : Moves s (.wait w) { s with sem := s.sem.block w }
  | take {s w} (hworker : s.worker w = .waiting) (hawake : w ∉ s.sem.blocked)
      (hcount : 0 < s.sem.count) :
      Moves s (.wait w) { s.setWorker w .popping with sem := s.sem.take w }
  | wakeSpuriously {s w} (hblocked : w ∈ s.sem.blocked) :
      Moves s (.wakeSpuriously w) { s with sem := s.sem.wake w }
  | popNone {s w} (hworker : s.worker w = .popping) (hqueue : s.queue = []) :
      Moves s (.pop w) (s.setWorker w .exited)
  | popSome {s w task rest} (hworker : s.worker w = .popping) (hqueue : s.queue = task :: rest) :
      Moves s (.pop w)
        { s.setWorker w (.running task) with queue := rest, ran := s.ran ++ [(task, w)] }
  | finish {s w outcome task} (hworker : s.worker w = .running task)
      (hidle : .worker w ∉ s.posting) :
      Moves s (.finish w outcome) (s.setWorker w .waiting)

/-- A step is one of the listed moves. -/
theorem step_moves {s s' : ThreadPool Producer n} {a : Action Producer n}
    (h : step s a = some s') : Moves s a s' := by
  cases a with
  | call c maySync first =>
      simp only [step, Option.ite_none_right_eq_some] at h
      obtain ⟨⟨hcall, hidle⟩, h⟩ := h
      split at h
      · rename_i hsync
        rw [Bool.and_eq_true] at hsync
        cases h
        rw [hsync.1]
        exact .sync hcall hsync.2
      · cases h
        exact .push hcall hidle
  | post c choice =>
      simp only [step, Option.ite_none_right_eq_some, Option.map_eq_some_iff] at h
      obtain ⟨hpost, sem, hsem, rfl⟩ := h
      exact .post hpost hsem
  | shutdown choice =>
      simp only [step, Option.ite_none_left_eq_some, Option.map_eq_some_iff,
        Bool.not_eq_true] at h
      obtain ⟨hfirst, sem, hsem, rfl⟩ := h
      exact .shutdown hfirst hsem
  | wait w =>
      simp only [step, Option.ite_none_right_eq_some, Option.some.injEq] at h
      obtain ⟨⟨hworker, hawake⟩, rfl⟩ := h
      unfold ThreadPool.wait
      split
      · rename_i hcount
        exact .block hworker hawake hcount
      · rename_i hcount
        exact .take hworker hawake (Nat.pos_of_ne_zero hcount)
  | wakeSpuriously w =>
      simp only [step, Option.ite_none_right_eq_some, Option.some.injEq] at h
      obtain ⟨hblocked, rfl⟩ := h
      exact .wakeSpuriously hblocked
  | pop w =>
      simp only [step, Option.ite_none_right_eq_some, Option.some.injEq] at h
      obtain ⟨hworker, rfl⟩ := h
      unfold ThreadPool.pop
      split
      · rename_i hqueue
        exact .popNone hworker hqueue
      · rename_i task rest hqueue
        exact .popSome hworker hqueue
  | finish w outcome =>
      simp only [step] at h
      split at h
      · rename_i task hworker
        simp only [Option.ite_none_left_eq_some, Option.some.injEq] at h
        obtain ⟨hidle, rfl⟩ := h
        exact .finish hworker hidle
      · cases h

end FFZKit.Thread.WorkerPool
