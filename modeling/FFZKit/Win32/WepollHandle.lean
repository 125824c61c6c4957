import FFZKit.Foundations.Heap
import FFZKit.Foundations.Tally
import FFZKit.Foundations.Transition

/-!
# The handle of a wepoll port

All threads look handles up in one tree. `epoll_ctl` and `epoll_wait` count themselves
in the port that they find. `epoll_close` takes the port out of the tree, waits until
nobody is in it any more, and frees it. This is about the counter and the tree only.

## Implementation notes

A section under the exclusive lock of the tree is one step. The lock is shared by the
threads that have found a port and not counted themselves yet. A `long` has 32 bits and
is read without a sign. `NtReleaseKeyedEvent` and `NtWaitForKeyedEvent` return together,
in two threads that call them with one address. Nothing but `epoll_close` closes the
handle, and the system gives a port a handle that is not open.

What `port_ctl` and `port_wait` do inside a port is one step that needs the port to be
there. Left out is that `port__poll` reads `iocp_handle` without the lock of the port: when
the handle was closed meanwhile and its value is that of another port, the thread takes
packets of that one. Left out are the sockets and poll groups too, and so the assertions
of `port_delete` about them.
-/

namespace FFZKit.Win32.EpollHandle

open FFZKit.Foundations FFZKit.Foundations.Transition

def REFLOCK_REF : Nat := 0x00000001
def REFLOCK_REF_MASK : Nat := 0x0fffffff
def REFLOCK_DESTROY : Nat := 0x10000000
def REFLOCK_DESTROY_MASK : Nat := 0xf0000000
def REFLOCK_POISON : Nat := 0x300dead0

/-- `InterlockedAdd` -/
def interlockedAdd (state amount : Nat) : Nat := (state + amount) % 0x100000000

/-- `reflock_ref`, unless its assertion fails. -/
def reflockRef (state : Nat) : Option Nat :=
  let state := interlockedAdd state REFLOCK_REF
  if state &&& REFLOCK_DESTROY_MASK = 0 then some state else none

/-- `reflock_unref` up to the signal, where `-REFLOCK_REF` is added. -/
def reflockUnref (state : Nat) : Option Nat :=
  let state := interlockedAdd state (0x100000000 - REFLOCK_REF)
  if state &&& (REFLOCK_DESTROY_MASK - REFLOCK_DESTROY) = 0 then some state else none

/-- `reflock_unref_and_destroy` up to the wait. -/
def reflockUnrefAndDestroy (state : Nat) : Option Nat :=
  let state := interlockedAdd state (REFLOCK_DESTROY - REFLOCK_REF)
  if state &&& REFLOCK_DESTROY_MASK = REFLOCK_DESTROY then some state else none

/-- The end of `reflock_unref_and_destroy`. -/
def reflockPoison (state : Nat) : Option Nat :=
  if state = REFLOCK_DESTROY then some REFLOCK_POISON else none

/-- `handle_tree_node` of a `port_state_t`, with its key, and whether `iocp_handle` is set. -/
structure PortState where
  handle : Nat
  iocpOpen : Bool
  reflock : Nat
  deriving DecidableEq, Repr

/-- Where a thread is with a port: between `port_new` and `ts_tree_add`; between the
lookup and `reflock_ref`; in `port_ctl` or `port_wait`; before `port_close`; before
`ts_tree_node_unref_and_destroy`; in `reflock__await_event`; behind it; before
`port_delete`; in `reflock__signal_event`. -/
inductive Role
  | creating
  | locating
  | using
  | removing
  | closing
  | awaiting
  | poisoning
  | deleting
  | signalling
  deriving DecidableEq, Repr

/-- A thread is in none of the calls, or it is with the port at an address. -/
inductive Phase
  | idle
  | busy (role : Role) (a : Nat)
  deriving DecidableEq, Repr

/-- The lock of the tree is shared between the lookup and `reflock_ref`. -/
def Phase.sharesLock : Phase → Bool
  | .busy .locating _ => true
  | _ => false

/-- The threads, the ports by their addresses, `epoll__handle_tree`, and whether a call
through the handle has met a port that had been freed, or an assertion of `reflock`, the
one about `iocp_handle` or `ts_tree_add` has failed. -/
structure Handles (ι : Type*) where
  phases : ι → Phase
  ports : Heap PortState
  tree : Nat → Option Nat
  broken : Bool

/-- The steps of the calls, each by a thread. The system gives an address and a handle to
a port that is created. The last two threads of `signal` are the one that signals and the
one that awaits it. -/
inductive Action (ι : Type*)
  | create (i : ι) (a h : Nat)
  | add (i : ι)
  | lookup (i : ι) (h : Nat)
  | ref (i : ι)
  | use (i : ι)
  | unref (i : ι)
  | remove (i : ι) (h : Nat)
  | close (i : ι)
  | destroy (i : ι)
  | signal (i j : ι)
  | poison (i : ι)
  | delete (i : ι)

namespace Handles

variable {ι : Type*} [DecidableEq ι]

def init : Handles ι where
  phases := fun _ => .idle
  ports := .empty
  tree := fun _ => none
  broken := false

def goto (s : Handles ι) (i : ι) (phase : Phase) : Handles ι :=
  { s with phases := Function.update s.phases i phase }

def writePort (s : Handles ι) (a : Nat) (p : PortState) : Handles ι :=
  { s with ports := s.ports.write a p }

def freePort (s : Handles ι) (a : Nat) : Handles ι := { s with ports := s.ports.free a }

def setTree (s : Handles ι) (h : Nat) (found : Option Nat) : Handles ι :=
  { s with tree := Function.update s.tree h found }

def break_ (s : Handles ι) : Handles ι := { s with broken := true }

/-- An operation on the port at an address, and what the thread does next. -/
def access (s : Handles ι) (i : ι) (a : Nat) (f : PortState → Option (PortState × Phase)) :
    Handles ι :=
  match (s.ports.get? a).bind f with
  | none => s.break_
  | some (p, phase) => (s.writePort a p).goto i phase

/-- An operation on the reference counter. -/
def onReflock (op : Nat → Option Nat) (next : Nat → Phase) (p : PortState) :
    Option (PortState × Phase) :=
  (op p.reflock).map fun state => ({ p with reflock := state }, next state)

/-- `ts_tree_add` of a port at an address. Where the handle is in the tree already,
`port_delete` finds that `iocp_handle` is set. -/
def treeAdd (s : Handles ι) (i : ι) (a : Nat) : Handles ι :=
  match s.ports.get? a with
  | none => s.break_
  | some p =>
      if (s.tree p.handle).isSome then s.break_
      else (s.setTree p.handle (some a)).goto i .idle

/-- `ts_tree_del_and_ref` of a handle that is found. -/
def treeDelAndRef (s : Handles ι) (i : ι) (h a : Nat) : Handles ι :=
  (s.setTree h none).access i a (onReflock reflockRef fun _ => .busy .removing a)

/-- `port_delete` with its first assertion, `iocp_handle == NULL`. -/
def portDelete (s : Handles ι) (i : ι) (a : Nat) : Handles ι :=
  match s.ports.get? a with
  | none => s.break_
  | some p =>
      if p.iocpOpen then s.break_ else (s.freePort a).goto i .idle

/-- The phase of a thread that `reflock_unref` has made. -/
def afterUnref (a state : Nat) : Phase :=
  if state = REFLOCK_DESTROY then .busy .signalling a else .idle

/-- The phase of a thread that `reflock_unref_and_destroy` has made. -/
def afterDestroy (a state : Nat) : Phase :=
  if state &&& REFLOCK_REF_MASK ≠ 0 then .busy .awaiting a else .busy .poisoning a

/-- A step of a thread in a role, at the address that it is with. -/
def inRole (s : Handles ι) (i : ι) (role : Role) (f : Nat → Handles ι) : Option (Handles ι) :=
  match s.phases i with
  | .idle => none
  | .busy r a => if r = role then some (f a) else none

/-- A thread in no call looks a handle up, and its call fails where there is none. -/
def found (s : Handles ι) (i : ι) (h : Nat) (f : Nat → Handles ι) : Option (Handles ι) :=
  if s.phases i = .idle then
    match s.tree h with
    | none => some s
    | some a => some (f a)
  else none

/-- `NtReleaseKeyedEvent` of one thread lets `NtWaitForKeyedEvent` of the other return. -/
def signal (s : Handles ι) (i j : ι) : Option (Handles ι) :=
  match s.phases i, s.phases j with
  | .busy .signalling a, .busy .awaiting b =>
      if a = b then some ((s.goto i .idle).goto j (.busy .poisoning b)) else none
  | _, _ => none

/-- The number of ports that have a handle open. -/
def opened (s : Handles ι) (h : Nat) : Nat := s.ports.count fun p => p.iocpOpen && p.handle = h

variable [Fintype ι]

/-- Nobody shares the lock of the tree. -/
def Unlocked (s : Handles ι) : Prop := ∀ i, (s.phases i).sharesLock = false

instance (s : Handles ι) : Decidable s.Unlocked := inferInstanceAs (Decidable (∀ _, _))

def step (s : Handles ι) : Action ι → Option (Handles ι)
  | .create i a h =>
      if s.phases i = .idle ∧ s.ports.get? a = none ∧ s.opened h = 0 then
        some ((s.writePort a ⟨h, true, 0⟩).goto i (.busy .creating a))
      else none
  | .add i => if s.Unlocked then s.inRole i .creating (s.treeAdd i) else none
  | .lookup i h => s.found i h fun a => s.goto i (.busy .locating a)
  | .ref i =>
      s.inRole i .locating fun a => s.access i a (onReflock reflockRef fun _ => .busy .using a)
  | .use i => s.inRole i .using fun a => s.access i a fun p => some (p, .busy .using a)
  | .unref i => s.inRole i .using fun a => s.access i a (onReflock reflockUnref (afterUnref a))
  | .remove i h => if s.Unlocked then s.found i h (s.treeDelAndRef i h) else none
  | .close i =>
      s.inRole i .removing fun a =>
        s.access i a fun p => some ({ p with iocpOpen := false }, .busy .closing a)
  | .destroy i =>
      s.inRole i .closing fun a =>
        s.access i a (onReflock reflockUnrefAndDestroy (afterDestroy a))
  | .signal i j => s.signal i j
  | .poison i =>
      s.inRole i .poisoning fun a =>
        s.access i a (onReflock reflockPoison fun _ => .busy .deleting a)
  | .delete i => s.inRole i .deleting (s.portDelete i)

end Handles

end FFZKit.Win32.EpollHandle
