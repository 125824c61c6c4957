import FFZKit.Foundations.Transition
import FFZKit.Thread.Semaphore
import Mathlib.Data.List.Range
import Mathlib.Data.List.Infix
import Mathlib.Logic.Function.Basic

/-!
# `AsyncLogWriter`

A call of `write` is two steps: the locked section that links the context into
`_pending` and the post of the semaphore. The flush thread tests `_exit_flag`,
waits and flushes; the destructor sets the flag, posts, joins the flush thread
and flushes once more itself.

## Implementation notes

`flushAll` is one small program that both consumers run: its locked section
takes the whole of `_pending`, and then every `writeChannels` is a step. A
channel that writes from inside `writeChannels` calls `write` on the consumer's
thread; such a call is that of a writer of its own, which acts between two
deliveries. `_exit_flag` is read and written in one step each. `pushed`,
`returned` and `written` are histories that no step reads.
-/

namespace FFZKit.Util.AsyncLog

open FFZKit.Foundations.Transition
open FFZKit.Thread (Semaphore)

/-- One entry of `_pending`: a context and its logger. `serial` counts the
pushes made before it. -/
structure Entry (Message : Type*) where
  serial : Nat
  message : Message
  deriving DecidableEq, Repr

/-- A call of `flushAll`: before its locked section, or with the entries of
`tmp` that are still to be given to `writeChannels`. -/
inductive Flush (Message : Type*)
  | swapping
  | delivering (tmp : List (Entry Message))

/-- The program counter of `run`: at the test of `_exit_flag`, inside
`_sem.wait()`, inside `flushAll`, or past the loop. -/
inductive ThreadPhase (Message : Type*)
  | checking
  | waiting
  | flushing (flush : Flush Message)
  | exited

/-- The program counter of the destructor: before it, between the write of
`_exit_flag` and the post, inside `join`, inside `flushAll`, or past it. -/
inductive DestructorPhase (Message : Type*)
  | notBegun
  | posting
  | joining
  | flushing (flush : Flush Message)
  | returned

/-- The writer. `call w` is the entry of a call of `write` by `w` whose post is
still to come. `returned` holds the entries whose `write` returned before the
destructor began and `written` those given to `writeChannels`. -/
structure AsyncLogWriter (Thread Message : Type*) where
  exitFlag : Bool
  sem : Semaphore Unit
  pending : List (Entry Message)
  call : Thread → Option (Entry Message)
  thread : ThreadPhase Message
  destructor : DestructorPhase Message
  pushed : List (Entry Message)
  returned : List (Entry Message)
  written : List (Entry Message)

variable {Thread Message : Type*}

/-- The writer after its constructor: the flush thread is about to run. -/
def init (Thread Message : Type*) : AsyncLogWriter Thread Message where
  exitFlag := false
  sem := Semaphore.init
  pending := []
  call := fun _ => none
  thread := .checking
  destructor := .notBegun
  pushed := []
  returned := []
  written := []

/-- The entries that the call of `flushAll` has taken and not yet delivered. -/
def Flush.tmp : Flush Message → List (Entry Message)
  | .swapping => []
  | .delivering tmp => tmp

def ThreadPhase.tmp : ThreadPhase Message → List (Entry Message)
  | .flushing flush => flush.tmp
  | _ => []

def DestructorPhase.tmp : DestructorPhase Message → List (Entry Message)
  | .flushing flush => flush.tmp
  | _ => []

namespace AsyncLogWriter

/-- One step of `flushAll`, and what is left of the call afterwards. -/
def flushAll (s : AsyncLogWriter Thread Message) :
    Flush Message → AsyncLogWriter Thread Message × Option (Flush Message)
  | .swapping => ({ s with pending := [] }, some (.delivering s.pending))
  | .delivering [] => (s, none)
  | .delivering (entry :: rest) =>
      ({ s with written := s.written ++ [entry] }, some (.delivering rest))

/-- The locked section of `write`. -/
def push [DecidableEq Thread] (s : AsyncLogWriter Thread Message) (w : Thread)
    (message : Message) : AsyncLogWriter Thread Message :=
  let entry : Entry Message := ⟨s.pushed.length, message⟩
  { s with
    pending := s.pending ++ [entry]
    call := Function.update s.call w (some entry)
    pushed := s.pushed ++ [entry] }

/-- The post of `write`, after which the call returns. -/
def post [DecidableEq Thread] (s : AsyncLogWriter Thread Message) (w : Thread)
    (entry : Entry Message) (sem : Semaphore Unit) : AsyncLogWriter Thread Message :=
  { s with
    sem := sem
    call := Function.update s.call w none
    returned := match s.destructor with
      | .notBegun => s.returned ++ [entry]
      | _ => s.returned }

/-- The flush thread returns from `flushAll` to the head of its loop. -/
def flushThread (s : AsyncLogWriter Thread Message) (flush : Flush Message) :
    AsyncLogWriter Thread Message :=
  match s.flushAll flush with
  | (s', some flush') => { s' with thread := .flushing flush' }
  | (s', none) => { s' with thread := .checking }

/-- The destructor returns when its `flushAll` does. -/
def flushDestructor (s : AsyncLogWriter Thread Message) (flush : Flush Message) :
    AsyncLogWriter Thread Message :=
  match s.flushAll flush with
  | (s', some flush') => { s' with destructor := .flushing flush' }
  | (s', none) => { s' with destructor := .returned }

end AsyncLogWriter

/-- The steps of all threads. `push` and `post` are the two steps of `write`;
`check`, `wait`, `wakeSpuriously` and `flush` are the flush thread's; the last
four are the destructor's. A post comes with the thread that `notify_one`
chooses. -/
inductive Action (Thread Message : Type*)
  | push (w : Thread) (message : Message)
  | post (w : Thread) (choice : Option Unit)
  | check
  | wait
  | wakeSpuriously
  | flush
  | setExitFlag
  | postExit (choice : Option Unit)
  | join
  | finalFlush

variable [DecidableEq Thread]

/-- One step of one thread. Nobody calls `write` on a destroyed writer. -/
def step (s : AsyncLogWriter Thread Message) :
    Action Thread Message → Option (AsyncLogWriter Thread Message)
  | .push w message =>
      match s.call w, s.destructor with
      | some _, _ => none
      | none, .returned => none
      | none, _ => some (s.push w message)
  | .post w choice =>
      match s.call w with
      | none => none
      | some entry => (s.sem.post 1 choice).map (s.post w entry)
  | .check =>
      match s.thread with
      | .checking =>
          if s.exitFlag then some { s with thread := .exited }
          else some { s with thread := .waiting }
      | _ => none
  | .wait =>
      match s.thread with
      | .waiting =>
          if () ∈ s.sem.blocked then none
          else if s.sem.count = 0 then some { s with sem := s.sem.block () }
          else some { s with sem := s.sem.take (), thread := .flushing .swapping }
      | _ => none
  | .wakeSpuriously =>
      if () ∈ s.sem.blocked then some { s with sem := s.sem.wake () } else none
  | .flush =>
      match s.thread with
      | .flushing flush => some (s.flushThread flush)
      | _ => none
  | .setExitFlag =>
      match s.destructor with
      | .notBegun => some { s with exitFlag := true, destructor := .posting }
      | _ => none
  | .postExit choice =>
      match s.destructor with
      | .posting => (s.sem.post 1 choice).map fun sem =>
          { s with sem := sem, destructor := .joining }
      | _ => none
  | .join =>
      match s.destructor, s.thread with
      | .joining, .exited => some { s with destructor := .flushing .swapping }
      | _, _ => none
  | .finalFlush =>
      match s.destructor with
      | .flushing flush => some (s.flushDestructor flush)
      | _ => none

/-- Everything one step can do, with the guard under which it does it. -/
inductive Moves : AsyncLogWriter Thread Message → Action Thread Message →
    AsyncLogWriter Thread Message → Prop
  | push {s w message} (hidle : s.call w = none) (halive : s.destructor ≠ .returned) :
      Moves s (.push w message) (s.push w message)
  | post {s w choice entry sem} (hcall : s.call w = some entry)
      (hsem : s.sem.post 1 choice = some sem) : Moves s (.post w choice) (s.post w entry sem)
  | leave {s} (hthread : s.thread = .checking) (hflag : s.exitFlag = true) :
      Moves s .check { s with thread := .exited }
  | enter {s} (hthread : s.thread = .checking) (hflag : s.exitFlag = false) :
      Moves s .check { s with thread := .waiting }
  | block {s} (hthread : s.thread = .waiting) (hcount : s.sem.count = 0) :
      Moves s .wait { s with sem := s.sem.block () }
  | take {s} (hthread : s.thread = .waiting) (hcount : 0 < s.sem.count) :
      Moves s .wait { s with sem := s.sem.take (), thread := .flushing .swapping }
  | wakeSpuriously {s} (hblocked : () ∈ s.sem.blocked) :
      Moves s .wakeSpuriously { s with sem := s.sem.wake () }
  | flush {s flush} (hthread : s.thread = .flushing flush) : Moves s .flush (s.flushThread flush)
  | setExitFlag {s} (hfirst : s.destructor = .notBegun) :
      Moves s .setExitFlag { s with exitFlag := true, destructor := .posting }
  | postExit {s choice sem} (hposting : s.destructor = .posting)
      (hsem : s.sem.post 1 choice = some sem) :
      Moves s (.postExit choice) { s with sem := sem, destructor := .joining }
  | join {s} (hjoining : s.destructor = .joining) (hthread : s.thread = .exited) :
      Moves s .join { s with destructor := .flushing .swapping }
  | finalFlush {s flush} (hflushing : s.destructor = .flushing flush) :
      Moves s .finalFlush (s.flushDestructor flush)

/-- A step is one of the listed moves. -/
theorem step_moves {s s' : AsyncLogWriter Thread Message} {a : Action Thread Message}
    (h : step s a = some s') : Moves s a s' := by
  cases a with
  | push w message =>
      simp only [step] at h
      split at h
      · cases h
      · cases h
      · rename_i hidle halive
        cases h
        exact .push hidle halive
  | post w choice =>
      simp only [step] at h
      split at h
      · cases h
      · rename_i entry hcall
        obtain ⟨sem, hsem, rfl⟩ := Option.map_eq_some_iff.mp h
        exact .post hcall hsem
  | check =>
      simp only [step] at h
      split at h
      · rename_i hthread
        split at h
        · rename_i hflag
          cases h
          exact .leave hthread hflag
        · rename_i hflag
          cases h
          exact .enter hthread (by simpa using hflag)
      · cases h
  | wait =>
      simp only [step] at h
      split at h
      · rename_i hthread
        split at h
        · cases h
        · split at h
          · rename_i hcount
            cases h
            exact .block hthread hcount
          · rename_i hcount
            cases h
            exact .take hthread (Nat.pos_of_ne_zero hcount)
      · cases h
  | wakeSpuriously =>
      simp only [step, Option.ite_none_right_eq_some, Option.some.injEq] at h
      obtain ⟨hblocked, rfl⟩ := h
      exact .wakeSpuriously hblocked
  | flush =>
      simp only [step] at h
      split at h
      · rename_i hthread
        cases h
        exact .flush hthread
      · cases h
  | setExitFlag =>
      simp only [step] at h
      split at h
      · rename_i hfirst
        cases h
        exact .setExitFlag hfirst
      · cases h
  | postExit choice =>
      simp only [step] at h
      split at h
      · rename_i hposting
        obtain ⟨sem, hsem, rfl⟩ := Option.map_eq_some_iff.mp h
        exact .postExit hposting hsem
      · cases h
  | join =>
      simp only [step] at h
      split at h
      · rename_i hjoining hthread
        cases h
        exact .join hjoining hthread
      · cases h
  | finalFlush =>
      simp only [step] at h
      split at h
      · rename_i hflushing
        cases h
        exact .finalFlush hflushing
      · cases h

end FFZKit.Util.AsyncLog
