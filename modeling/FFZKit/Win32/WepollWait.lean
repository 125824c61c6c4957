import FFZKit.Foundations.Lockstep
import FFZKit.Win32.WepollPort

/-!
# Threads at a wepoll port

Any number of threads call `epoll_ctl` and `epoll_wait` on one port, and the AFD
driver completes polls at any time. A call holds the lock of the port in sections.
`epoll_wait` leaves the lock while it waits for packets, so other threads may
change and remove sockets whose packets it is about to get.

## Implementation notes

A section is one step. The driver writes into the `sock_state_t` of a poll when it
completes it, and its packet is in the completion port from then on. How long a
thread waits is not told: a wait may end without a packet at any time. What
`epoll_wait` returns is the list of its events; when that is empty the return value
is 0 or -1 by the last error of the system, which is left out.
-/

namespace FFZKit.Win32.Wepoll

open FFZKit.Foundations.Transition

/-- How far a call of `port_wait` has come: it is in `GetQueuedCompletionStatusEx`,
or this has returned packets, or has failed, and the lock is not taken yet. -/
inductive Phase
  | blocked
  | woken (packets : List Nat)
  | failed
  deriving DecidableEq, Repr

/-- One call of `port_wait`: the length of the caller's array of events, and that of its
own array of packets. -/
structure Waiter where
  maxEvents : Nat
  capacity : Nat
  phase : Phase
  deriving DecidableEq, Repr

/-- The packets that a call has got and not looked at yet. -/
def Waiter.packets (w : Waiter) : List Nat :=
  match w.phase with
  | .woken packets => packets
  | _ => []

/-- A port, the packets in its completion port, and the calls of `port_wait`. -/
structure Epoll where
  port : Port
  completions : List Nat
  waiters : List Waiter

/-- What a call shows to its caller. -/
inductive Output
  | control (op : Ctl) (result : Except Error Unit)
  | events (evs : List EpollEvent)

/-- A call of `epoll_ctl`; the first section of `epoll_wait`, and whether memory for
the packets was got; the driver completes a poll; a call takes `n` packets; its wait
ends without any; its next section, and whether it is due by now. A section that may
update the sockets twice has the answers for both times. -/
inductive Action
  | ctl (op : Ctl) (ans : Answers)
  | wait (maxevents : Int) (allocated : Bool) (ans again : Answers)
  | complete (a : Nat) (status : IoStatus) (numberOfHandles : Nat) (afdEvents : UInt32)
  | dequeue (i n : Nat)
  | expire (i : Nat)
  | resume (i : Nat) (due : Bool) (ans again : Answers)

/-- `PORT__MAX_ON_STACK_COMPLETIONS`. -/
def maxOnStackCompletions : Nat := 256

/-- A call begins to wait. Its array of packets is on the stack when it is small or no
memory could be got. -/
def Waiter.start (maxevents : Nat) (allocated : Bool) : Waiter where
  maxEvents := maxevents
  capacity :=
    if maxevents ≤ maxOnStackCompletions ∨ allocated then maxevents else maxOnStackCompletions
  phase := .blocked

namespace Port

/-- A thread begins to wait, or ends it. -/
def enter (p : Port) : Port := { p with activePollCount := p.activePollCount + 1 }

def leave (p : Port) : Port := { p with activePollCount := p.activePollCount - 1 }

/-- `port__poll` up to the wait, and the end of `port_wait` where it fails. Tells
whether the thread waits. -/
def pollBegin (ans again : Answers) (p : Port) : Option (Port × Bool) :=
  match p.updateEvents ans with
  | none => none
  | some (p, true) => some (p.enter, true)
  | some (p, false) => (p.updateEventsIfPolling again).map fun p => (p, false)

/-- `port_wait` after the wait: it returns events, or waits again. -/
def pollEnd (due : Bool) (ans again : Answers) (p : Port) :
    Phase → Option (Port × Option (List EpollEvent))
  | .blocked => none
  | .failed => (p.leave.updateEventsIfPolling again).map fun p => (p, some [])
  | .woken packets => do
      let (p, evs) ← p.leave.feedEvents ans packets
      if evs ≠ [] ∨ due then
        (p.updateEventsIfPolling again).map fun p => (p, some evs)
      else
        (p.pollBegin ans again).map fun (p, waits) => (p, if waits then none else some [])

/-- The driver writes what it tells of a poll, which is outstanding no more. -/
def driverWrites (p : Port) (a : Nat) (status : IoStatus) (numberOfHandles : Nat)
    (afdEvents : UInt32) : Option Port :=
  (p.socks.get? a).map fun c =>
    { p with
      socks := p.socks.write a
        { c with ioStatus := status, numberOfHandles := numberOfHandles, afdEvents := afdEvents }
      submitted := p.submitted.erase a }

end Port

namespace Epoll

def init : Epoll where
  port := .init
  completions := []
  waiters := []

/-- One step of a thread or of the driver, with what a call shows that it ends. -/
def run (s : Epoll) : Action → Option (Epoll × List Output)
  | .ctl op ans =>
      (s.port.ctlOp ans op).map fun (p, r) => ({ s with port := p }, [.control op r])
  | .wait maxevents allocated ans again =>
      if maxevents ≤ 0 then some (s, [.events []])
      else
        (s.port.pollBegin ans again).map fun (p, waits) =>
          if waits then
            ({ s with
              port := p
              waiters := s.waiters ++ [.start maxevents.toNat allocated] }, [])
          else ({ s with port := p }, [.events []])
  | .complete a status numberOfHandles afdEvents =>
      (s.port.driverWrites a status numberOfHandles afdEvents).map fun p =>
        ({ s with port := p, completions := s.completions ++ [a] }, [])
  | .dequeue i n =>
      (s.waiters[i]?).map fun w =>
        ({ s with
          completions := s.completions.drop n
          waiters := s.waiters.set i { w with phase := .woken (s.completions.take n) } }, [])
  | .expire i =>
      (s.waiters[i]?).map fun w =>
        ({ s with waiters := s.waiters.set i { w with phase := .failed } }, [])
  | .resume i due ans again =>
      (s.waiters[i]?).bind fun w =>
        (s.port.pollEnd due ans again w.phase).map fun (p, evs) =>
          match evs with
          | none =>
              ({ s with port := p, waiters := s.waiters.set i { w with phase := .blocked } }, [])
          | some evs => ({ s with port := p, waiters := s.waiters.eraseIdx i }, [.events evs])

/-- One step. No state is returned where an assertion fails or the code or the driver
touches memory that is not allocated. -/
def step (s : Epoll) (a : Action) : Option Epoll := (s.run a).map Prod.fst

/-- What a step shows. -/
def shown (s : Epoll) (a : Action) : List Output := ((s.run a).map Prod.snd).getD []

end Epoll

/-- The addresses that the system gives out are not in use. -/
def Port.Fresh (p : Port) (ans : Answers) : Prop :=
  (∀ a ∈ ans.newSock, p.socks.get? a = none) ∧
    ∀ g ∈ ans.newGroup.toOption, g ∉ p.pollGroupQueue.map PollGroup.address

instance (p : Port) (ans : Answers) : Decidable (p.Fresh ans) :=
  inferInstanceAs (Decidable ((∀ a ∈ ans.newSock, p.socks.get? a = none) ∧
    ∀ g ∈ ans.newGroup.toOption, g ∉ p.pollGroupQueue.map PollGroup.address))

namespace Epoll

/-- When a step can be taken: memory is new when it is given out, the driver completes
the polls that it has, and a call goes on where it stands, with as many packets as there
are and as it has place for. -/
def Allowed (s : Epoll) : Action → Prop
  | .ctl _ ans => s.port.Fresh ans
  | .wait _ _ _ _ => True
  | .complete a status _ _ => a ∈ s.port.submitted ∧ status ≠ .pending
  | .dequeue i n =>
      0 < n ∧ n ≤ s.completions.length ∧
        ∃ w ∈ s.waiters[i]?, w.phase = .blocked ∧ n ≤ w.capacity
  | .expire i => ∃ w ∈ s.waiters[i]?, w.phase = .blocked
  | .resume i _ _ _ => ∃ w ∈ s.waiters[i]?, w.phase ≠ .blocked

instance : ∀ (s : Epoll) (a : Action), Decidable (s.Allowed a)
  | s, .ctl _ ans => inferInstanceAs (Decidable (s.port.Fresh ans))
  | _, .wait _ _ _ _ => inferInstanceAs (Decidable True)
  | s, .complete a status _ _ =>
      inferInstanceAs (Decidable (a ∈ s.port.submitted ∧ status ≠ .pending))
  | s, .dequeue i n => inferInstanceAs (Decidable (0 < n ∧ n ≤ s.completions.length ∧
      ∃ w ∈ s.waiters[i]?, w.phase = .blocked ∧ n ≤ w.capacity))
  | s, .expire i => inferInstanceAs (Decidable (∃ w ∈ s.waiters[i]?, w.phase = .blocked))
  | s, .resume i _ _ _ => inferInstanceAs (Decidable (∃ w ∈ s.waiters[i]?, w.phase ≠ .blocked))

end Epoll

end FFZKit.Win32.Wepoll
