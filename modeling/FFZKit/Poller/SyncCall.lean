import FFZKit.Poller.RunningLoop
import FFZKit.Poller.Shutdown
import FFZKit.Thread.Semaphore

/-!
# `sync` and `sync_first`

A thread that is not the loop's hands a lambda over and waits on a semaphore
of its own frame. The lambda runs the task and posts when it is left, by return
or by exception, since the post is in the destructor of a token. Both the task
and the semaphore are captured by reference, so nothing may call the lambda,
or post, once the call has returned.

## Implementation notes

The poller takes its own steps, so `sync` is the call of `async` with a frame
beside it. In the loop thread `async` runs the lambda in place and returns no
task: the call is over at once, there is nothing to wait for, and it leaves no
frame here. The test for this is outside the lock, so it is a step of its own: a
thread that has found itself outside the loop may be late with its push.
-/

namespace FFZKit.Poller.SyncCall

open FFZKit.Foundations.Transition FFZKit.Thread
open FFZKit.Poller.TaskHandover (EventPoller Task PipeEvent Runner Ledger)

/-- The frame of one call. `posted` says that the body of its lambda is over. -/
structure Frame (Thread : Type*) where
  thread : Thread
  task : Task
  sem : Semaphore Thread
  posted : Bool
  returned : Bool

/-- The poller with the calls of `sync` and `sync_first` by other threads: those
between the test of `isCurrentThread` and the push, with the end of the list that
they push at, and those that handed their lambda over. -/
structure Callers (Thread : Type*) where
  poller : EventPoller Thread
  entering : List (Thread × Bool)
  calls : List (Frame Thread)

/-- The steps of the poller and its posters; a call of `sync`, or of `sync_first`,
up to the test of `isCurrentThread`; its push; the end of the body of a lambda,
with the thread that `notify_one` chooses; the next section of the `wait` of a
call; its spurious wake-up. -/
inductive Action (Thread : Type*)
  | poller (a : TaskHandover.Action Thread)
  | sync (t : Thread) (first : Bool)
  | handOver (t : Thread)
  | post (i : Nat) (choice : Option Thread)
  | wait (i : Nat)
  | wakeSpuriously (i : Nat)

variable {Thread : Type*}

def init (loopThread : Thread) : Callers Thread where
  poller := TaskHandover.init loopThread
  entering := []
  calls := []

/-- The task whose call is in progress. -/
def current : Option PipeEvent → Option Task
  | some (.running task _) => some task
  | _ => none

/-- Either side is inside the call of the task. -/
def isRunning (p : EventPoller Thread) (x : Task) : Bool :=
  current (p.event .loop) = some x || current (p.event .dtor) = some x

/-- The lambda of every call that the runner is in has posted. -/
def bodyOver (s : Callers Thread) (r : Runner) : Bool :=
  s.calls.all fun c => c.posted || current (s.poller.event r) ≠ some c.task

namespace Frame

/-- The frame at the time `async` hands the lambda over. -/
def start (thread : Thread) (task : Task) : Frame Thread where
  thread := thread
  task := task
  sem := Semaphore.init
  posted := false
  returned := false

end Frame

/-- Something happens in the frame of call `i` only. -/
def Callers.setFrame (s : Callers Thread) (i : Nat) (c : Frame Thread) : Callers Thread :=
  { s with calls := s.calls.set i c }

variable [DecidableEq Thread]

/-- The thread is inside a call of `sync`. -/
def inSync (s : Callers Thread) (t : Thread) : Bool :=
  (s.entering.lookup t).isSome || s.calls.any fun c => c.thread = t && !c.returned

/-- What a thread inside `sync` cannot do, and where a lambda cannot end yet. -/
def admits (s : Callers Thread) : TaskHandover.Action Thread → Bool
  | .call t _ _ => !inSync s t
  | .shutdown t => !inSync s t
  | .finish r _ => bodyOver s r
  | _ => true

namespace Frame

/-- `sem.post()` in the destructor of the token. -/
def post (c : Frame Thread) (choice : Option Thread) : Option (Frame Thread) :=
  (c.sem.post 1 choice).map fun sem => { c with sem := sem, posted := true }

/-- One section of `sem.wait()`, after which the call may have returned. -/
def wait (c : Frame Thread) : Frame Thread :=
  if c.sem.count = 0 then { c with sem := c.sem.block c.thread }
  else { c with sem := c.sem.take c.thread, returned := true }

end Frame

/-- One step of the poller or of one call. -/
def step (cap : Nat) (s : Callers Thread) : Action Thread → Option (Callers Thread)
  | .poller a =>
      if admits s a then
        (TaskHandover.step cap s.poller a).map fun p => { s with poller := p }
      else none
  | .sync t first =>
      if s.poller.dtor = .returned ∨ inSync s t ∨ (s.poller.posting.lookup t).isSome then none
      else if s.poller.isCurrentThread t then some s
      else some { s with entering := (t, first) :: s.entering }
  | .handOver t =>
      match s.entering.lookup t with
      | none => none
      | some first =>
          (TaskHandover.step cap s.poller (.call t false first)).map fun p =>
            { poller := p
              entering := s.entering.erase (t, first)
              calls := s.calls ++ [.start t ⟨s.poller.pushed.length, first, false⟩] }
  | .post i choice =>
      match s.calls[i]? with
      | none => none
      | some c =>
          if c.posted = false ∧ isRunning s.poller c.task then
            (c.post choice).map (s.setFrame i)
          else none
  | .wait i =>
      match s.calls[i]? with
      | none => none
      | some c =>
          if c.returned = false ∧ (c.thread, c.task) ∉ s.poller.posting ∧
              c.thread ∉ c.sem.blocked then
            some (s.setFrame i c.wait)
          else none
  | .wakeSpuriously i =>
      match s.calls[i]? with
      | none => none
      | some c =>
          if c.thread ∈ c.sem.blocked then
            some (s.setFrame i { c with sem := c.sem.wake c.thread })
          else none

/-- Everything one step can do, with the guard under which it does it. -/
inductive Moves (cap : Nat) : Callers Thread → Action Thread → Callers Thread → Prop
  | poller {s a p} (hadmits : admits s a = true)
      (h : TaskHandover.step cap s.poller a = some p) :
      Moves cap s (.poller a) { s with poller := p }
  | inPlace {s t first} (h : s.poller.isCurrentThread t = true) : Moves cap s (.sync t first) s
  | enter {s t first} (hfree : inSync s t = false) (hidle : s.poller.posting.lookup t = none) :
      Moves cap s (.sync t first) { s with entering := (t, first) :: s.entering }
  | handOver {s t first} (hentering : s.entering.lookup t = some first)
      (hpush : TaskHandover.step cap s.poller (.call t false first) =
        some (s.poller.push t first false)) :
      Moves cap s (.handOver t)
        { poller := s.poller.push t first false
          entering := s.entering.erase (t, first)
          calls := s.calls ++ [.start t ⟨s.poller.pushed.length, first, false⟩] }
  | post {s i c choice sem} (hc : s.calls[i]? = some c) (hposted : c.posted = false)
      (hrunning : isRunning s.poller c.task = true) (hsem : c.sem.post 1 choice = some sem) :
      Moves cap s (.post i choice) (s.setFrame i { c with sem := sem, posted := true })
  | block {s i c} (hc : s.calls[i]? = some c) (hreturned : c.returned = false)
      (hawake : c.thread ∉ c.sem.blocked) (hzero : c.sem.count = 0) :
      Moves cap s (.wait i) (s.setFrame i { c with sem := c.sem.block c.thread })
  | take {s i c} (hc : s.calls[i]? = some c) (hreturned : c.returned = false)
      (hpos : c.sem.count ≠ 0) :
      Moves cap s (.wait i)
        (s.setFrame i { c with sem := c.sem.take c.thread, returned := true })
  | wakeSpuriously {s i c} (hc : s.calls[i]? = some c) :
      Moves cap s (.wakeSpuriously i) (s.setFrame i { c with sem := c.sem.wake c.thread })

theorem step_moves {cap : Nat} {s s' : Callers Thread} {a : Action Thread}
    (h : step cap s a = some s') : Moves cap s a s' := by
  cases a with
  | poller a =>
      simp only [step, Option.ite_none_right_eq_some, Option.map_eq_some_iff] at h
      obtain ⟨hadmits, p, hp, rfl⟩ := h
      exact .poller hadmits hp
  | sync t first =>
      simp only [step, Option.ite_none_left_eq_some, not_or, Bool.not_eq_true,
        Option.isSome_eq_false_iff, Option.isNone_iff_eq_none] at h
      obtain ⟨⟨_, hfree, hidle⟩, h⟩ := h
      split at h
      · rename_i hcurrent
        cases h
        exact .inPlace hcurrent
      · cases h
        exact .enter hfree hidle
  | handOver t =>
      simp only [step] at h
      split at h
      · cases h
      · rename_i first hentering
        obtain ⟨p, hp, rfl⟩ := Option.map_eq_some_iff.mp h
        obtain rfl : p = s.poller.push t first false := by
          cases (TaskHandover.step_moves hp).2 with
          | push => rfl
        exact .handOver hentering hp
  | post i choice =>
      simp only [step] at h
      split at h
      · cases h
      · rename_i c hc
        simp only [Option.ite_none_right_eq_some, Frame.post, Option.map_map,
          Option.map_eq_some_iff] at h
        obtain ⟨⟨hposted, hrunning⟩, sem, hsem, rfl⟩ := h
        exact .post hc hposted hrunning hsem
  | wait i =>
      simp only [step] at h
      split at h
      · cases h
      · rename_i c hc
        simp only [Option.ite_none_right_eq_some, Option.some.injEq, Frame.wait] at h
        obtain ⟨⟨hreturned, _, hawake⟩, rfl⟩ := h
        split
        · rename_i hzero
          exact .block hc hreturned hawake hzero
        · rename_i hpos
          exact .take hc hreturned hpos
  | wakeSpuriously i =>
      simp only [step] at h
      split at h
      · cases h
      · rename_i c hc
        simp only [Option.ite_none_right_eq_some, Option.some.injEq] at h
        obtain ⟨_, rfl⟩ := h
        exact .wakeSpuriously hc

end FFZKit.Poller.SyncCall
