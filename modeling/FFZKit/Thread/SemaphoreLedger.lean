import FFZKit.Foundations.Transition
import FFZKit.Thread.Semaphore
import Mathlib.Algebra.Group.Nat.Defs

/-!
# Threads that share one `semaphore`

Any number of threads call `post` and `wait` on one semaphore. A step is one
locked section, one return from the condition variable without a notification,
or nothing else: the test of `_count` at the head of the loop in `wait` belongs
to the section in which the thread blocks or takes one.

## Implementation notes

A thread that is notified has left the condition variable and waits for the
mutex, so its next section is the same as that of a thread that has just called
`wait`. `posted` and `completed` are histories that no step reads.
-/

namespace FFZKit.Thread.SemaphoreLedger

open FFZKit.Foundations.Transition

/-- A semaphore with the total that was posted and the threads whose `wait`
has returned, oldest first. -/
structure Ledger (Thread : Type*) where
  sem : Semaphore Thread
  posted : Nat
  completed : List Thread

variable {Thread : Type*}

def init (Thread : Type*) : Ledger Thread where
  sem := Semaphore.init
  posted := 0
  completed := []

/-- `post(n)` by thread `t`, with the thread that `notify_one` chooses; the next
section of `wait` in thread `t`; a spurious wake-up of thread `t`. -/
inductive Action (Thread : Type*)
  | post (t : Thread) (n : Nat) (choice : Option Thread)
  | wait (t : Thread)
  | wakeSpuriously (t : Thread)

/-- Every unit posted is in `_count` or was taken by a completed wait, and no
thread is blocked beside a count that nobody is about to take. -/
structure Balanced (s : Ledger Thread) : Prop where
  conserved : s.sem.count + s.completed.length = s.posted
  wellPosted : s.sem.WellPosted

variable [DecidableEq Thread]

/-- One step of one thread. A thread that is inside `wait` cannot call `post`,
and one that is blocked runs no section. -/
def step (s : Ledger Thread) : Action Thread → Option (Ledger Thread)
  | .post t n choice =>
      if t ∈ s.sem.blocked ∪ s.sem.notified then none
      else (s.sem.post n choice).map fun sem => { s with sem := sem, posted := s.posted + n }
  | .wait t =>
      if t ∈ s.sem.blocked then none
      else if s.sem.count = 0 then some { s with sem := s.sem.block t }
      else some { s with sem := s.sem.take t, completed := s.completed ++ [t] }
  | .wakeSpuriously t =>
      if t ∈ s.sem.blocked then some { s with sem := s.sem.wake t } else none

/-- A post keeps `_count` within `size_t`. -/
def fits (s : Ledger Thread) : Action Thread → Prop
  | .post _ n _ => s.sem.count + n < 2 ^ 64
  | _ => True

end FFZKit.Thread.SemaphoreLedger
