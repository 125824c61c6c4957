import FFZKit.Foundations.Heap

/-!
# The sockets of a wepoll port

Each socket that is watched has a `sock_state_t`, into which the AFD driver
writes the outcome of the poll that is outstanding for it. A poll cannot be
changed, only cancelled, and its packet still comes. So a socket whose poll no
longer fits is put on the update queue, and one that was removed while its poll
is outstanding is kept on the deleted queue until the packet has come.

## Implementation notes

A `sock_state_t` and a poll group are known by their addresses. An address that
was freed may be given out again. No value is returned where the code touches
memory that is not allocated, or where an assertion fails. What the system calls
answer is given as a parameter, for one locked section.
-/

namespace FFZKit.Win32.Wepoll

open FFZKit.Foundations

def EPOLLIN : UInt32 := 0x1
def EPOLLPRI : UInt32 := 0x2
def EPOLLOUT : UInt32 := 0x4
def EPOLLERR : UInt32 := 0x8
def EPOLLHUP : UInt32 := 0x10
def EPOLLRDNORM : UInt32 := 0x40
def EPOLLRDBAND : UInt32 := 0x80
def EPOLLWRNORM : UInt32 := 0x100
def EPOLLWRBAND : UInt32 := 0x200
def EPOLLMSG : UInt32 := 0x400
def EPOLLRDHUP : UInt32 := 0x2000
def EPOLLONESHOT : UInt32 := 0x80000000

def AFD_POLL_RECEIVE : UInt32 := 0x1
def AFD_POLL_RECEIVE_EXPEDITED : UInt32 := 0x2
def AFD_POLL_SEND : UInt32 := 0x4
def AFD_POLL_DISCONNECT : UInt32 := 0x8
def AFD_POLL_ABORT : UInt32 := 0x10
def AFD_POLL_LOCAL_CLOSE : UInt32 := 0x20
def AFD_POLL_ACCEPT : UInt32 := 0x80
def AFD_POLL_CONNECT_FAIL : UInt32 := 0x100

/-- `SOCK__KNOWN_EPOLL_EVENTS`. -/
def knownEpollEvents : UInt32 :=
  EPOLLIN ||| EPOLLPRI ||| EPOLLOUT ||| EPOLLERR ||| EPOLLHUP ||| EPOLLRDNORM ||| EPOLLRDBAND |||
    EPOLLWRNORM ||| EPOLLWRBAND ||| EPOLLMSG ||| EPOLLRDHUP

/-- One line of the two translations: what is added when a mask has an event in common. -/
def translate (mask events added : UInt32) : UInt32 := if mask &&& events ≠ 0 then added else 0

/-- `sock__epoll_events_to_afd_events`. -/
def epollEventsToAfdEvents (epollEvents : UInt32) : UInt32 :=
  AFD_POLL_LOCAL_CLOSE |||
    translate epollEvents (EPOLLIN ||| EPOLLRDNORM) (AFD_POLL_RECEIVE ||| AFD_POLL_ACCEPT) |||
    translate epollEvents (EPOLLPRI ||| EPOLLRDBAND) AFD_POLL_RECEIVE_EXPEDITED |||
    translate epollEvents (EPOLLOUT ||| EPOLLWRNORM ||| EPOLLWRBAND) AFD_POLL_SEND |||
    translate epollEvents (EPOLLIN ||| EPOLLRDNORM ||| EPOLLRDHUP) AFD_POLL_DISCONNECT |||
    translate epollEvents EPOLLHUP AFD_POLL_ABORT |||
    translate epollEvents EPOLLERR AFD_POLL_CONNECT_FAIL

/-- `sock__afd_events_to_epoll_events`. -/
def afdEventsToEpollEvents (afdEvents : UInt32) : UInt32 :=
  translate afdEvents (AFD_POLL_RECEIVE ||| AFD_POLL_ACCEPT) (EPOLLIN ||| EPOLLRDNORM) |||
    translate afdEvents AFD_POLL_RECEIVE_EXPEDITED (EPOLLPRI ||| EPOLLRDBAND) |||
    translate afdEvents AFD_POLL_SEND (EPOLLOUT ||| EPOLLWRNORM ||| EPOLLWRBAND) |||
    translate afdEvents AFD_POLL_DISCONNECT (EPOLLIN ||| EPOLLRDNORM ||| EPOLLRDHUP) |||
    translate afdEvents AFD_POLL_ABORT EPOLLHUP |||
    translate afdEvents AFD_POLL_CONNECT_FAIL
      (EPOLLIN ||| EPOLLOUT ||| EPOLLERR ||| EPOLLRDNORM ||| EPOLLWRNORM ||| EPOLLRDHUP)

/-- `sock__poll_status_t`. -/
inductive PollStatus
  | idle
  | pending
  | cancelled
  deriving DecidableEq, Repr

/-- What `io_status_block.Status` tells: `STATUS_PENDING`, `STATUS_CANCELLED`,
another failure, or success. -/
inductive IoStatus
  | pending
  | cancelled
  | failed
  | success
  deriving DecidableEq, Repr

/-- `struct epoll_event`. -/
structure EpollEvent where
  events : UInt32
  data : Nat
  deriving DecidableEq, Repr

/-- `sock_state_t`. `key` is that of its tree node, `numberOfHandles` and
`afdEvents` are fields of its `poll_info`. -/
structure SockState where
  key : Nat
  ioStatus : IoStatus
  numberOfHandles : Nat
  afdEvents : UInt32
  pollGroup : Nat
  baseSocket : Nat
  userData : Nat
  userEvents : UInt32
  pendingEvents : UInt32
  pollStatus : PollStatus
  deletePending : Bool
  deriving Repr

/-- `sock__cancel_poll`, whose callers have seen that the poll is pending: nothing
when it fails. `afd_cancel_poll` succeeds when the poll was completed already, and
else if `NtCancelIoFileEx` does. -/
def SockState.cancelPoll (cancelIo : Bool) (c : SockState) : Option SockState :=
  if c.ioStatus = .pending ∧ cancelIo = false then none
  else some { c with pollStatus := .cancelled, pendingEvents := 0 }

/-- A new `sock_state_t`, of zeros but for what `sock_new` sets. -/
def SockState.new (key baseSocket pollGroup : Nat) : SockState where
  key := key
  ioStatus := .success
  numberOfHandles := 0
  afdEvents := 0
  pollGroup := pollGroup
  baseSocket := baseSocket
  userData := 0
  userEvents := 0
  pendingEvents := 0
  pollStatus := .idle
  deletePending := false

/-- The fields that `afd_poll` reads and sets are filled. -/
def SockState.asking (c : SockState) : SockState :=
  { c with
    ioStatus := .pending
    numberOfHandles := 1
    afdEvents := epollEventsToAfdEvents c.userEvents }

/-- The poll request was submitted. -/
def SockState.polled (c : SockState) : SockState :=
  { c with pollStatus := .pending, pendingEvents := c.userEvents }

/-- The packet of the poll has come. -/
def SockState.completed (c : SockState) : SockState :=
  { c with pollStatus := .idle, pendingEvents := 0 }

/-- `poll_group_t`, one AFD device handle. -/
structure PollGroup where
  address : Nat
  groupSize : Nat
  deriving DecidableEq, Repr

/-- `port_state_t`, with the polls that the AFD driver has not completed. -/
structure Port where
  socks : Heap SockState
  sockTree : List (Nat × Nat)
  sockUpdateQueue : List Nat
  sockDeletedQueue : List Nat
  pollGroupQueue : List PollGroup
  activePollCount : Nat
  submitted : List Nat

/-- How `afd_poll` ends: with a packet to come, with `ERROR_INVALID_HANDLE`
since the socket is closed, or with another error. -/
inductive Submission
  | started
  | closed
  | failed
  deriving DecidableEq, Repr

/-- Why a call fails. -/
inductive Error
  | invalidHandle
  | invalidParameter
  | alreadyExists
  | notFound
  | notEnoughMemory
  | system
  deriving DecidableEq, Repr

/-- What `port_ctl` is asked for: `EPOLL_CTL_ADD`, `EPOLL_CTL_MOD`, `EPOLL_CTL_DEL`,
or an operation that there is not. -/
inductive Ctl
  | add (socket : Nat) (ev : EpollEvent)
  | mod (socket : Nat) (ev : EpollEvent)
  | del (socket : Nat)
  | other
  deriving DecidableEq, Repr

/-- The answers of the system in one section: `ws_get_base_socket`, the address of
a new poll group and of a new `sock_state_t`, `afd_poll` and `NtCancelIoFileEx` for
the `sock_state_t` at an address. -/
structure Answers where
  baseSocket : Option Nat
  newGroup : Except Error Nat
  newSock : Option Nat
  afdPoll : Nat → Submission
  cancelIo : Nat → Bool

/-- `POLL_GROUP__MAX_GROUP_SIZE`. -/
def maxGroupSize : Nat := 32

/-- `INVALID_SOCKET`, of 64 bits. -/
def invalidSocket : Nat := 0xFFFFFFFFFFFFFFFF

/-- The group that `poll_group_acquire` takes, beside the others: the last one, or
a new one when there is none or the last is full. -/
def chosenGroup (newGroup : Except Error Nat) (groups : List PollGroup) :
    Except Error (List PollGroup × PollGroup) :=
  match groups.getLast? with
  | some g =>
      if maxGroupSize ≤ g.groupSize then newGroup.map fun a => (groups, ⟨a, 0⟩)
      else .ok (groups.dropLast, g)
  | none => newGroup.map fun a => (groups, ⟨a, 0⟩)

/-- Where a group of the given size stands: first when it is full, else last. -/
def placeGroup (others : List PollGroup) (g : PollGroup) (size : Nat) : List PollGroup :=
  if size = maxGroupSize then { g with groupSize := size } :: others
  else others ++ [{ g with groupSize := size }]

/-- `poll_group_acquire`, with the address of the group. -/
def pollGroupAcquire (newGroup : Except Error Nat) (groups : List PollGroup) :
    Except Error (List PollGroup × Nat) :=
  (chosenGroup newGroup groups).map fun (others, g) =>
    (placeGroup others g (g.groupSize + 1), g.address)

/-- `poll_group_release`: the group comes last. A group without members would
wrap to a size that the assertion refuses. -/
def pollGroupRelease (address : Nat) (groups : List PollGroup) : Option (List PollGroup) :=
  match groups.find? (·.address = address) with
  | none => none
  | some g =>
      if g.groupSize = 0 ∨ maxGroupSize ≤ g.groupSize - 1 then none
      else some (groups.erase g ++ [{ g with groupSize := g.groupSize - 1 }])

namespace Port

/-- `port_new`. -/
def init : Port where
  socks := Heap.empty
  sockTree := []
  sockUpdateQueue := []
  sockDeletedQueue := []
  pollGroupQueue := []
  activePollCount := 0
  submitted := []

/-- `queue_is_enqueued`: a node is in one of the two queues or in none. -/
def isEnqueued (p : Port) (a : Nat) : Bool :=
  p.sockUpdateQueue.contains a || p.sockDeletedQueue.contains a

/-- `queue_remove` takes the node out of the queue that it is in. -/
def queueRemove (p : Port) (a : Nat) : Port :=
  { p with
    sockUpdateQueue := p.sockUpdateQueue.erase a
    sockDeletedQueue := p.sockDeletedQueue.erase a }

/-- `port_request_socket_update`. -/
def requestSocketUpdate (p : Port) (a : Nat) : Port :=
  if p.isEnqueued a then p else { p with sockUpdateQueue := p.sockUpdateQueue ++ [a] }

/-- `port_cancel_socket_update`. -/
def cancelSocketUpdate (p : Port) (a : Nat) : Port :=
  if p.isEnqueued a then p.queueRemove a else p

/-- `port_add_deleted_socket`. -/
def addDeletedSocket (p : Port) (a : Nat) : Port :=
  if p.isEnqueued a then p else { p with sockDeletedQueue := p.sockDeletedQueue ++ [a] }

/-- `port_remove_deleted_socket`. -/
def removeDeletedSocket (p : Port) (a : Nat) : Port :=
  if p.isEnqueued a then p.queueRemove a else p

/-- `port_unregister_socket`, for a node that is in the tree. -/
def unregisterSocket (p : Port) (key a : Nat) : Option Port :=
  if p.sockTree.contains (key, a) then some { p with sockTree := p.sockTree.erase (key, a) }
  else none

/-- `port_find_socket`. -/
def findSocket (p : Port) (key : Nat) : Option Nat := p.sockTree.lookup key

def store (p : Port) (a : Nat) (c : SockState) : Port := { p with socks := p.socks.write a c }

/-- The end of `sock__delete`, for a `sock_state_t` whose `delete_pending` is set. -/
def freeOrKeep (p : Port) (a : Nat) (force : Bool) : Option Port :=
  match p.socks.get? a with
  | none => none
  | some c =>
      if force ∨ c.pollStatus = .idle then
        let p := p.removeDeletedSocket a
        (pollGroupRelease c.pollGroup p.pollGroupQueue).map fun groups =>
          { p with pollGroupQueue := groups, socks := p.socks.free a }
      else some (p.addDeletedSocket a)

/-- `sock__delete`. That the poll could not be cancelled is not looked at. -/
def sockDelete (ans : Answers) (p : Port) (a : Nat) (force : Bool) : Option Port :=
  match p.socks.get? a with
  | none => none
  | some c =>
      if c.deletePending then p.freeOrKeep a force
      else
        let c :=
          if c.pollStatus = .pending then (c.cancelPoll (ans.cancelIo a)).getD c else c
        ((p.cancelSocketUpdate a).unregisterSocket c.key a).bind fun p =>
          (p.store a { c with deletePending := true }).freeOrKeep a force

/-- `sock_set_event`. -/
def sockSetEvent (p : Port) (a : Nat) (ev : EpollEvent) : Option Port :=
  match p.socks.get? a with
  | none => none
  | some c =>
      let events := ev.events ||| EPOLLERR ||| EPOLLHUP
      let p := p.store a { c with userEvents := events, userData := ev.data }
      if events &&& knownEpollEvents &&& ~~~c.pendingEvents ≠ 0 then some (p.requestSocketUpdate a)
      else some p

/-- The driver has a poll for the `sock_state_t` at an address. -/
def submit (p : Port) (a : Nat) (c : SockState) : Port :=
  { p with socks := p.socks.write a c, submitted := a :: p.submitted }

/-- `sock_update` where no poll is outstanding, and whether it succeeded. -/
def startPoll (ans : Answers) (p : Port) (a : Nat) (c : SockState) : Option (Port × Bool) :=
  match ans.afdPoll a with
  | .closed => ((p.store a c.asking).sockDelete ans a false).map fun p => (p, true)
  | .failed => some (p.store a c.asking, false)
  | .started => some ((p.submit a c.asking.polled).cancelSocketUpdate a, true)

/-- `sock_update`, and whether it succeeded. -/
def sockUpdate (ans : Answers) (p : Port) (a : Nat) : Option (Port × Bool) :=
  match p.socks.get? a with
  | none => none
  | some c =>
      if c.deletePending then none
      else
        match c.pollStatus with
        | .pending =>
            if c.userEvents &&& knownEpollEvents &&& ~~~c.pendingEvents = 0 then
              some (p.cancelSocketUpdate a, true)
            else
              match c.cancelPoll (ans.cancelIo a) with
              | none => some (p, false)
              | some c => some ((p.store a c).cancelSocketUpdate a, true)
        | .cancelled => some (p.cancelSocketUpdate a, true)
        | .idle => p.startPoll ans a c

/-- The events that a completed poll tells of, as `sock_feed_event` reads them;
none when the socket was closed. -/
def completedEvents (c : SockState) : Option UInt32 :=
  match c.ioStatus with
  | .cancelled => some 0
  | .failed => some EPOLLERR
  | _ =>
      if c.numberOfHandles < 1 then some 0
      else if c.afdEvents &&& AFD_POLL_LOCAL_CLOSE ≠ 0 then none
      else some (afdEventsToEpollEvents c.afdEvents)

/-- The end of `sock_feed_event`: what the user asked for is reported, and nothing
more is watched when it was to be reported once. -/
def report (p : Port) (a : Nat) (c : SockState) (epollEvents : UInt32) :
    Port × Option EpollEvent :=
  if epollEvents &&& c.userEvents = 0 then (p, none)
  else if c.userEvents &&& EPOLLONESHOT ≠ 0 then
    (p.store a { c with userEvents := 0 }, some ⟨epollEvents &&& c.userEvents, c.userData⟩)
  else (p, some ⟨epollEvents &&& c.userEvents, c.userData⟩)

/-- `sock_feed_event`, with the event that it reports. -/
def sockFeedEvent (ans : Answers) (p : Port) (a : Nat) : Option (Port × Option EpollEvent) :=
  match p.socks.get? a with
  | none => none
  | some c =>
      let p := p.store a c.completed
      if c.deletePending then (p.sockDelete ans a false).map fun p => (p, none)
      else
        match completedEvents c with
        | none => (p.sockDelete ans a false).map fun p => (p, none)
        | some epollEvents => some ((p.requestSocketUpdate a).report a c.completed epollEvents)

/-- The loop of `port__update_events`, with a bound on its turns. -/
def updateEventsLoop (ans : Answers) : Nat → Port → Option (Port × Bool)
  | 0, p => some (p, true)
  | turns + 1, p =>
      match p.sockUpdateQueue with
      | [] => some (p, true)
      | a :: _ =>
          match p.sockUpdate ans a with
          | none => none
          | some (p, false) => some (p, false)
          | some (p, true) => updateEventsLoop ans turns p

/-- `port__update_events`. A turn takes a socket off the queue. -/
def updateEvents (ans : Answers) (p : Port) : Option (Port × Bool) :=
  p.updateEventsLoop ans p.sockUpdateQueue.length

/-- `port__update_events_if_polling`. The result is not looked at. -/
def updateEventsIfPolling (ans : Answers) (p : Port) : Option Port :=
  if 0 < p.activePollCount then (p.updateEvents ans).map Prod.fst else some p

/-- The end of `sock_new`: the `sock_state_t` is in the tree. -/
def register (p : Port) (a : Nat) (c : SockState) (groups : List PollGroup) : Port :=
  { p with
    socks := p.socks.write a c
    sockTree := (c.key, a) :: p.sockTree
    pollGroupQueue := groups }

/-- `sock_new`, with the address of the new `sock_state_t`. -/
def sockNew (ans : Answers) (p : Port) (socket : Nat) : Option (Port × Except Error Nat) :=
  if socket = 0 ∨ socket = invalidSocket then some (p, .error .invalidHandle)
  else
    match ans.baseSocket with
    | none => some (p, .error .system)
    | some baseSocket =>
        match pollGroupAcquire ans.newGroup p.pollGroupQueue with
        | .error e => some (p, .error e)
        | .ok (groups, group) =>
            let released (e : Error) : Option (Port × Except Error Nat) :=
              (pollGroupRelease group groups).map fun groups =>
                ({ p with pollGroupQueue := groups }, .error e)
            match ans.newSock with
            | none => released .notEnoughMemory
            | some a =>
                if (p.sockTree.lookup socket).isSome then released .alreadyExists
                else
                  some (p.register a (.new socket baseSocket group) groups, .ok a)

/-- `port__ctl_add`. -/
def ctlAdd (ans : Answers) (p : Port) (socket : Nat) (ev : EpollEvent) :
    Option (Port × Except Error Unit) := do
  let (p, new) ← p.sockNew ans socket
  match new with
  | .error e => some (p, .error e)
  | .ok a =>
      let p ← p.sockSetEvent a ev
      let p ← p.updateEventsIfPolling ans
      some (p, .ok ())

/-- `port__ctl_mod`. -/
def ctlMod (ans : Answers) (p : Port) (socket : Nat) (ev : EpollEvent) :
    Option (Port × Except Error Unit) :=
  match p.findSocket socket with
  | none => some (p, .error .notFound)
  | some a => do
      let p ← p.sockSetEvent a ev
      let p ← p.updateEventsIfPolling ans
      some (p, .ok ())

/-- `port__ctl_del`. -/
def ctlDel (ans : Answers) (p : Port) (socket : Nat) : Option (Port × Except Error Unit) :=
  match p.findSocket socket with
  | none => some (p, .error .notFound)
  | some a => (p.sockDelete ans a false).map fun p => (p, .ok ())

/-- `port__ctl_op`. -/
def ctlOp (ans : Answers) (p : Port) : Ctl → Option (Port × Except Error Unit)
  | .add socket ev => p.ctlAdd ans socket ev
  | .mod socket ev => p.ctlMod ans socket ev
  | .del socket => p.ctlDel ans socket
  | .other => some (p, .error .invalidParameter)

/-- `port__feed_events`, with the events that it puts into the array of the caller. -/
def feedEvents (ans : Answers) : List Nat → Port → Option (Port × List EpollEvent)
  | [], p => some (p, [])
  | a :: packets, p => do
      let (p, ev) ← p.sockFeedEvent ans a
      let (p, evs) ← feedEvents ans packets p
      some (p, ev.toList ++ evs)

end Port

end FFZKit.Win32.Wepoll
