import FFZKit.Network.SockUtil
import Mathlib.Data.Finset.Lattice.Fold
import Mathlib.Order.Lattice.Nat

/-!
# `PipeWrap::reOpen`

On Windows a pipe is made of a listening socket, a socket that connects to it, and
the one that is accepted. When the connection fails the listening socket stays open.

## Implementation notes

`reOpen` changes the object also when it throws; the text of the error is the part
before the message of the system. The macro `checkFD` is a function of what follows it.
-/

namespace FFZKit.Poller.PipeDescriptors

open FFZKit.Foundations FFZKit.Network.SockUtil

/-- `_pipe_fd` -/
structure PipeWrap where
  fd0 : Int
  fd1 : Int
  deriving DecidableEq, Repr

/-- The object after `reOpen`, and the error if it throws. -/
structure Reopened where
  pipe : PipeWrap
  error : Option String
  deriving DecidableEq, Repr

/-- `closeFD`: the new value of the variable. -/
def closeFD (fd : Int) : Sys Int :=
  if fd = -1 then pure fd
  else do
    close fd
    pure (-1)

def clearFD (p : PipeWrap) : Sys PipeWrap := do
  let fd0 ← closeFD p.fd0
  let fd1 ← closeFD p.fd1
  pure ⟨fd0, fd1⟩

def checkFD (fd : Int) (p : PipeWrap) (rest : Sys Reopened) : Sys Reopened :=
  if fd = -1 then do
    let p ← clearFD p
    pure ⟨p, some "Create windows pipe failed: "⟩
  else rest

variable (sys : System)

/-- `pipe(_pipe_fd)`, which leaves the array alone when it fails. -/
def pipe (p : PipeWrap) : Sys (Int × PipeWrap) := do
  let reply ← call sys
  if reply.succeeds then do
    let fd0 ← openDescriptor sys
    let fd1 ← openDescriptor sys
    pure (0, ⟨fd0, fd1⟩)
  else pure (-1, p)

def accept (_listener_fd : Int) : Sys Int := acquire sys

/-- The end of `reOpen`. -/
def finish (p : PipeWrap) : Sys Reopened := do
  let _ ← setNoBlocked sys p.fd0
  let _ ← setNoBlocked sys p.fd1
  let _ ← setCloExec sys p.fd0
  let _ ← setCloExec sys p.fd1
  pure ⟨p, none⟩

/-- The Windows branch with both ends. -/
def completePipe (listener_fd : Int) (p : PipeWrap) : Sys Reopened := do
  let _ ← setNoDelay sys p.fd0
  let _ ← setNoDelay sys p.fd1
  close listener_fd
  finish sys p

/-- The Windows branch from `accept` on. -/
def acceptPipe (listener_fd : Int) (p : PipeWrap) : Sys Reopened := do
  let fd0 ← accept sys listener_fd
  let p := { p with fd0 := fd0 }
  checkFD p.fd0 p (completePipe sys listener_fd p)

/-- A socket that connects to the listening socket. -/
def connectLocal (listener_fd : Int) : Sys Int := do
  let _ ← setNoBlocked sys listener_fd
  let _ ← get_local_port sys listener_fd
  connect sys "127.0.0.1" false

/-- The Windows branch with a listening socket. -/
def connectPipe (listener_fd : Int) (p : PipeWrap) : Sys Reopened := do
  let fd1 ← connectLocal sys listener_fd
  let p := { p with fd1 := fd1 }
  checkFD p.fd1 p (acceptPipe sys listener_fd p)

def openWindows (p : PipeWrap) : Sys Reopened := do
  let listener_fd ← listen sys "127.0.0.1"
  checkFD listener_fd p (connectPipe sys listener_fd p)

def openPosix (p : PipeWrap) : Sys Reopened := do
  let made ← pipe sys p
  if made.1 = -1 then pure ⟨made.2, some "Create posix pipe failed: "⟩
  else finish sys made.2

def reOpen (p : PipeWrap) : Sys Reopened := do
  let p ← clearFD p
  if sys.platform = .windows then openWindows sys p else openPosix sys p

/-- Two new descriptors, and the object holds them. -/
structure Opened (others : Finset Int) (r : Reopened) (descriptors : Finset Int) : Prop where
  error : r.error = none
  fd0 : r.pipe.fd0 ≠ -1 ∧ r.pipe.fd0 ∉ others
  fd1 : r.pipe.fd1 ≠ -1 ∧ r.pipe.fd1 ∉ others
  distinct : r.pipe.fd0 ≠ r.pipe.fd1
  descriptors : descriptors = insert r.pipe.fd0 (insert r.pipe.fd1 others)

/-- An error, no new descriptor, and the object holds none. -/
structure Refused (others : Finset Int) (r : Reopened) (descriptors : Finset Int) : Prop where
  error : r.error ≠ none
  pipe : r.pipe = ⟨-1, -1⟩
  descriptors : descriptors = others

/-- An error, and one descriptor more that the object does not hold. -/
structure Leaked (others : Finset Int) (r : Reopened) (descriptors : Finset Int) : Prop where
  error : r.error ≠ none
  descriptors : ∃ fd ∉ others, descriptors = insert fd others

variable {sys}

theorem Leaked.not_exact {others descriptors : Finset Int} {r : Reopened}
    (h : Leaked others r descriptors) :
    ¬ (Opened others r descriptors ∨ Refused others r descriptors) := by
  obtain ⟨fd, hfd, hdescriptors⟩ := h.descriptors
  rintro (hopened | hrefused)
  · exact h.error hopened.error
  · exact hfd (hrefused.descriptors ▸ hdescriptors ▸ Finset.mem_insert_self fd others)

/-- The descriptors that an object holds. -/
def PipeWrap.held (p : PipeWrap) : Finset Int := ({p.fd0, p.fd1} : Finset Int).erase (-1)

theorem run_clearFD (p : PipeWrap) (w : World) :
    ((clearFD p).run w).1 = ⟨-1, -1⟩ ∧
      ((clearFD p).run w).2.descriptors = w.descriptors \ p.held := by
  have hclose : ∀ fd (w : World), ((closeFD fd).run w).1 = -1 ∧
      ((closeFD fd).run w).2.descriptors = w.descriptors \ ({fd} : Finset Int).erase (-1) := by
    intro fd w
    rw [closeFD]
    by_cases hfd : fd = -1
    · rw [if_pos hfd]
      refine ⟨hfd, ?_⟩
      rw [hfd, Finset.erase_singleton, Finset.sdiff_empty]
      rfl
    · rw [if_neg hfd]
      refine ⟨rfl, ?_⟩
      rw [Finset.erase_eq_of_notMem (by simpa using Ne.symm hfd), Finset.sdiff_singleton_eq_erase]
      rfl
  obtain ⟨hfd0, hfirst⟩ := hclose p.fd0 w
  obtain ⟨hfd1, hsecond⟩ := hclose p.fd1 ((closeFD p.fd0).run w).2
  have hrun : (clearFD p).run w = (⟨((closeFD p.fd0).run w).1,
      ((closeFD p.fd1).run ((closeFD p.fd0).run w).2).1⟩,
      ((closeFD p.fd1).run ((closeFD p.fd0).run w).2).2) := rfl
  rw [hrun, hfd0, hfd1]
  refine ⟨rfl, ?_⟩
  rw [hsecond, hfirst]
  ext fd
  simp only [PipeWrap.held, Finset.mem_sdiff, Finset.mem_erase, Finset.mem_insert,
    Finset.mem_singleton]
  tauto

theorem held_lost : PipeWrap.held ⟨-1, -1⟩ = ∅ := by decide

theorem held_fd1 {fd1 : Int} (hfd1 : fd1 ≠ -1) : PipeWrap.held ⟨-1, fd1⟩ = {fd1} :=
  Finset.erase_insert (by simpa using Ne.symm hfd1)

theorem run_finish (sys : System) (p : PipeWrap) (w : World) :
    ((finish sys p).run w).1 = ⟨p, none⟩ ∧
      ((finish sys p).run w).2.descriptors = w.descriptors := by
  have hneutral : Neutral (finish sys p) :=
    (neutral_attempt sys).bind fun _ => (neutral_attempt sys).bind fun _ =>
      (neutral_setCloExec sys p.fd0).bind fun _ => (neutral_setCloExec sys p.fd1).bind fun _ =>
        conserves_pure _
  exact ⟨rfl, hneutral w⟩

/-- What happens where `checkFD` finds no descriptor. -/
theorem run_checkFD_lost (p : PipeWrap) (rest : Sys Reopened) (w : World) :
    ((checkFD (-1) p rest).run w).1.error ≠ none ∧
      ((checkFD (-1) p rest).run w).1.pipe = ⟨-1, -1⟩ ∧
      ((checkFD (-1) p rest).run w).2.descriptors = w.descriptors \ p.held := by
  obtain ⟨hpipe, hdescriptors⟩ := run_clearFD p w
  exact ⟨Option.some_ne_none _, hpipe, hdescriptors⟩

section windows

variable {others : Finset Int} {listener_fd fd0 fd1 : Int} {w : World}

theorem run_completePipe (sys : System) (listener_fd : Int) (p : PipeWrap) (w : World) :
    ((completePipe sys listener_fd p).run w).1 = ⟨p, none⟩ ∧
      ((completePipe sys listener_fd p).run w).2.descriptors =
        w.descriptors.erase listener_fd := by
  refine ⟨rfl, ?_⟩
  have hprepare : Neutral (setNoDelay sys p.fd0 >>= fun _ => setNoDelay sys p.fd1) :=
    (neutral_attempt sys).bind fun _ => neutral_attempt sys
  rw [← hprepare w]
  exact (run_finish sys p _).2

/-- The pair without the listening socket. -/
theorem erase_listener (hlistener : listener_fd ∉ others)
    (hfd1 : fd1 ∉ insert listener_fd others)
    (hfd0 : fd0 ∉ insert fd1 (insert listener_fd others)) :
    (insert fd0 (insert fd1 (insert listener_fd others))).erase listener_fd =
      insert fd0 (insert fd1 others) := by
  simp only [Finset.mem_insert, not_or] at hfd1 hfd0
  rw [Finset.erase_insert_of_ne hfd0.2.1, Finset.erase_insert_of_ne hfd1.1,
    Finset.erase_insert hlistener]

/-- `accept` completes the pair, or the listening socket stays open. -/
theorem run_acceptPipe (sys : System) (hlistener : listener_fd ∉ others) (hlost : fd1 ≠ -1)
    (hfd1 : fd1 ∉ insert listener_fd others)
    (hw : w.descriptors = insert fd1 (insert listener_fd others)) :
    let r := (acceptPipe sys listener_fd ⟨-1, fd1⟩).run w
    if ((accept sys listener_fd).run w).1 = -1 then Leaked others r.1 r.2.descriptors
    else Opened others r.1 r.2.descriptors := by
  intro r
  have hrun : r = (checkFD ((acquire sys).run w).1 ⟨((acquire sys).run w).1, fd1⟩
      (completePipe sys listener_fd ⟨((acquire sys).run w).1, fd1⟩)).run
        ((acquire sys).run w).2 := rfl
  have haccept := acquires_acquire sys w
  rw [hrun, accept]
  generalize (acquire sys).run w = accepted at haccept
  obtain ⟨fd0, u⟩ := accepted
  rcases haccept with ⟨rfl, hsame⟩ | ⟨hfd0, hnew, hdescriptors⟩
  · obtain ⟨herror, -, hclosed⟩ :=
      run_checkFD_lost ⟨-1, fd1⟩ (completePipe sys listener_fd ⟨-1, fd1⟩) u
    rw [if_pos rfl]
    refine ⟨herror, listener_fd, hlistener, ?_⟩
    rw [hclosed, hsame, hw, held_fd1 hlost, Finset.sdiff_singleton_eq_erase,
      Finset.erase_insert hfd1]
  · obtain ⟨hresult, herased⟩ := run_completePipe sys listener_fd ⟨fd0, fd1⟩ u
    rw [hw] at hnew hdescriptors
    have hpair := erase_listener hlistener hfd1 hnew
    rw [if_neg hfd0, checkFD, if_neg hfd0, hresult, herased, hdescriptors, hpair]
    simp only [Finset.mem_insert, not_or] at hfd1 hnew
    exact ⟨rfl, ⟨hfd0, hnew.2.2⟩, ⟨hlost, hfd1.2⟩, hnew.1, rfl⟩

theorem acquires_connectLocal (sys : System) (listener_fd : Int) :
    Acquires World.descriptors (-1) (connectLocal sys listener_fd) :=
  (neutral_attempt sys).bind_acquires fun _ =>
    (neutral_attempt sys).bind_acquires fun _ => acquires_connect sys _ _

/-- The pair is complete when `connect` and `accept` succeed; otherwise the listening
socket stays open. -/
theorem run_connectPipe (sys : System) (hlistener : listener_fd ∉ others)
    (hw : w.descriptors = insert listener_fd others) :
    let r := (connectPipe sys listener_fd ⟨-1, -1⟩).run w
    let connected := (connectLocal sys listener_fd).run w
    if connected.1 ≠ -1 ∧ ((accept sys listener_fd).run connected.2).1 ≠ -1 then
      Opened others r.1 r.2.descriptors
    else Leaked others r.1 r.2.descriptors := by
  intro r connected
  have hrun : r = (checkFD connected.1 ⟨-1, connected.1⟩
      (acceptPipe sys listener_fd ⟨-1, connected.1⟩)).run connected.2 := rfl
  have hconnect : connected.1 = -1 ∧ connected.2.descriptors = w.descriptors ∨
      connected.1 ≠ -1 ∧ connected.1 ∉ w.descriptors ∧
        connected.2.descriptors = insert connected.1 w.descriptors :=
    acquires_connectLocal sys listener_fd w
  rw [hrun]
  generalize connected = c at hconnect
  obtain ⟨fd1, u⟩ := c
  rcases hconnect with ⟨rfl, hsame⟩ | ⟨hfd1, hnew, hdescriptors⟩
  · obtain ⟨herror, -, hclosed⟩ :=
      run_checkFD_lost ⟨-1, -1⟩ (acceptPipe sys listener_fd ⟨-1, -1⟩) u
    rw [if_neg fun h => h.1 rfl]
    refine ⟨herror, listener_fd, hlistener, ?_⟩
    rw [hclosed, held_lost, Finset.sdiff_empty]
    exact hsame.trans hw
  · rw [hw] at hnew hdescriptors
    have haccept := run_acceptPipe sys hlistener hfd1 hnew hdescriptors
    rw [checkFD, if_neg hfd1]
    by_cases haccepted : ((accept sys listener_fd).run u).1 = -1
    · rw [if_pos haccepted] at haccept
      rw [if_neg fun h => h.2 haccepted]
      exact haccept
    · rw [if_neg haccepted] at haccept
      rw [if_pos ⟨hfd1, haccepted⟩]
      exact haccept

end windows

/-- The Windows branch gets its three sockets, or not the first. -/
def Connects (sys : System) (p : PipeWrap) (w : World) : Prop :=
  let listened := (listen sys "127.0.0.1").run ((clearFD p).run w).2
  let connected := (connectLocal sys listened.1).run listened.2
  listened.1 = -1 ∨
    connected.1 ≠ -1 ∧ ((accept sys listened.1).run connected.2).1 ≠ -1

/-- `reOpen` has closed what the object held, and has opened two descriptors or
throws and has opened none. -/
def ReopensExactly (sys : System) (p : PipeWrap) (w : World) : Prop :=
  Opened (w.descriptors \ p.held) ((reOpen sys p).run w).1 ((reOpen sys p).run w).2.descriptors ∨
    Refused (w.descriptors \ p.held) ((reOpen sys p).run w).1 ((reOpen sys p).run w).2.descriptors

theorem run_reOpen (p : PipeWrap) (w : World) : (reOpen sys p).run w =
    (if sys.platform = .windows then openWindows sys ⟨-1, -1⟩ else openPosix sys ⟨-1, -1⟩ :
      Sys Reopened).run ((clearFD p).run w).2 := by
  rw [← (run_clearFD p w).1]
  rfl

theorem reopensExactly_windows (hwindows : sys.platform = .windows) (p : PipeWrap) (w : World) :
    ReopensExactly sys p w ↔ Connects sys p w := by
  have hothers := (run_clearFD p w).2
  rw [ReopensExactly, run_reOpen, if_pos hwindows, Connects, ← hothers]
  generalize ((clearFD p).run w).2 = v
  have hrun : (openWindows sys ⟨-1, -1⟩).run v =
      (checkFD ((listen sys "127.0.0.1").run v).1 ⟨-1, -1⟩
        (connectPipe sys ((listen sys "127.0.0.1").run v).1 ⟨-1, -1⟩)).run
          ((listen sys "127.0.0.1").run v).2 := rfl
  have hlisten := acquires_listen sys "127.0.0.1" v
  rw [hrun]
  generalize (listen sys "127.0.0.1").run v = listened at hlisten
  obtain ⟨listener_fd, u⟩ := listened
  rcases hlisten with ⟨rfl, hsame⟩ | ⟨hlistener, hnew, hdescriptors⟩
  · obtain ⟨herror, hpipe, hclosed⟩ :=
      run_checkFD_lost ⟨-1, -1⟩ (connectPipe sys (-1) ⟨-1, -1⟩) u
    rw [held_lost, Finset.sdiff_empty] at hclosed
    exact iff_of_true (Or.inr ⟨herror, hpipe, hclosed.trans hsame⟩) (Or.inl rfl)
  · have hconnect := run_connectPipe sys hnew hdescriptors
    rw [checkFD, if_neg hlistener]
    simp only [hlistener, false_or]
    by_cases hboth : ((connectLocal sys listener_fd).run u).1 ≠ -1 ∧
        ((accept sys listener_fd).run ((connectLocal sys listener_fd).run u).2).1 ≠ -1
    · rw [if_pos hboth] at hconnect
      exact iff_of_true (Or.inl hconnect) hboth
    · rw [if_neg hboth] at hconnect
      exact iff_of_false hconnect.not_exact hboth

/-- `pipe` opens both ends or none. -/
theorem run_pipe (sys : System) (p : PipeWrap) (w : World) :
    let r := (pipe sys p).run w
    r.1 = (-1, p) ∧ r.2.descriptors = w.descriptors ∨
      r.1.1 = 0 ∧ r.1.2.fd0 ∉ w.descriptors ∧ r.1.2.fd1 ∉ insert r.1.2.fd0 w.descriptors ∧
        0 ≤ r.1.2.fd0 ∧ 0 ≤ r.1.2.fd1 ∧
        r.2.descriptors = insert r.1.2.fd1 (insert r.1.2.fd0 w.descriptors) := by
  intro r
  have hrun : r = (if (sys.reply w.calls).succeeds then do
      let fd0 ← openDescriptor sys
      let fd1 ← openDescriptor sys
      pure (0, ⟨fd0, fd1⟩)
    else pure (-1, p) : Sys (Int × PipeWrap)).run { w with calls := w.calls + 1 } := rfl
  rw [hrun]
  split
  · exact Or.inr ⟨rfl, sys.fresh_notMem _ _, sys.fresh_notMem _ _, sys.fresh_nonneg _ _,
      sys.fresh_nonneg _ _, rfl⟩
  · exact Or.inl ⟨rfl, rfl⟩

/-- On the other platforms `reOpen` is exact. -/
theorem reopensExactly_posix (hposix : sys.platform ≠ .windows) (p : PipeWrap) (w : World) :
    ReopensExactly sys p w := by
  have hothers := (run_clearFD p w).2
  rw [ReopensExactly, run_reOpen, if_neg hposix, ← hothers]
  generalize ((clearFD p).run w).2 = v
  have hrun : (openPosix sys ⟨-1, -1⟩).run v =
      (if ((pipe sys ⟨-1, -1⟩).run v).1.1 = -1 then
        pure ⟨((pipe sys ⟨-1, -1⟩).run v).1.2, some "Create posix pipe failed: "⟩
      else finish sys ((pipe sys ⟨-1, -1⟩).run v).1.2 : Sys Reopened).run
        ((pipe sys ⟨-1, -1⟩).run v).2 := rfl
  have hpipe := run_pipe sys ⟨-1, -1⟩ v
  rw [hrun]
  generalize (pipe sys ⟨-1, -1⟩).run v = made at hpipe
  obtain ⟨⟨ret, q⟩, u⟩ := made
  rcases hpipe with ⟨hmade, hsame⟩ | ⟨hret, hfd0, hfd1, hpos0, hpos1, hdescriptors⟩
  · obtain ⟨rfl, rfl⟩ := Prod.ext_iff.mp hmade
    exact Or.inr ⟨Option.some_ne_none _, rfl, hsame⟩
  · have hok : ¬ ret = -1 := by
      intro hret'
      exact absurd (hret.symm.trans hret') (by decide)
    obtain ⟨hresult, hkept⟩ := run_finish sys q u
    simp only [Finset.mem_insert, not_or] at hfd0 hfd1 hdescriptors
    left
    rw [if_neg hok, hresult, hkept]
    have hne : ∀ fd : Int, 0 ≤ fd → fd ≠ -1 := fun fd hfd => by omega
    refine ⟨rfl, ⟨hne _ hpos0, hfd0⟩, ⟨hne _ hpos1, hfd1.2⟩, Ne.symm hfd1.1, ?_⟩
    rw [hdescriptors, Finset.insert_comm]

/-- A call of one of the functions that open descriptors. -/
inductive Call
  | connect (host : String) (async : Bool)
  | listen (local_ip : String)
  | bindUdpSock (local_ip : String) (enable_reuse : Bool)
  | reOpen (p : PipeWrap)

/-- The computation returns -1 and the descriptors are as before, or it returns a
descriptor and exactly this one was added. -/
def OpensExactly (m : Sys Int) (w : World) : Prop :=
  ((m.run w).1 = -1 → (m.run w).2.descriptors = w.descriptors) ∧
    ((m.run w).1 ≠ -1 → (m.run w).1 ∉ w.descriptors ∧
      (m.run w).2.descriptors = insert (m.run w).1 w.descriptors)

/-- The call leaves no descriptor open that it does not return. -/
def NoLeak (sys : System) (w : World) : Call → Prop
  | .connect host async => OpensExactly (connect sys host async) w
  | .listen local_ip => OpensExactly (listen sys local_ip) w
  | .bindUdpSock local_ip enable_reuse => OpensExactly (bindUdpSock sys local_ip enable_reuse) w
  | .reOpen p => ReopensExactly sys p w

theorem opensExactly_of_acquires {m : Sys Int} (h : Acquires World.descriptors (-1) m)
    (w : World) : OpensExactly m w := by
  rcases h w with ⟨hlost, hsame⟩ | ⟨hne, hnew, hdescriptors⟩
  · exact ⟨fun _ => hsame, fun hne => absurd hlost hne⟩
  · exact ⟨fun hlost => absurd hlost hne, fun _ => ⟨hnew, hdescriptors⟩⟩

/-- However the calls of the system end, no call leaks a descriptor, except that
`reOpen` does on Windows when it can listen but not connect or accept. -/
theorem no_leak_iff (sys : System) (w : World) (c : Call) :
    NoLeak sys w c ↔ ∀ p, c = .reOpen p → sys.platform = .windows → Connects sys p w := by
  cases c with
  | connect host async =>
      exact iff_of_true (opensExactly_of_acquires (acquires_connect sys host async) w) nofun
  | listen local_ip =>
      exact iff_of_true (opensExactly_of_acquires (acquires_listen sys local_ip) w) nofun
  | bindUdpSock local_ip enable_reuse =>
      exact iff_of_true
        (opensExactly_of_acquires (acquires_bindUdpSock sys local_ip enable_reuse) w) nofun
  | reOpen p =>
      rw [NoLeak]
      by_cases hwindows : sys.platform = .windows
      · rw [reopensExactly_windows hwindows]
        constructor
        · rintro h _ ⟨⟩ -
          exact h
        · intro h
          exact h p rfl hwindows
      · exact iff_of_true (reopensExactly_posix hwindows p w) fun _ _ h => absurd h hwindows

/-- A Windows system on which the call number `refused` fails. -/
def refusing (refused : Nat) : System where
  platform := .windows
  is_ipv4 := fun _ => true
  reply := fun n => ⟨n ≠ refused, false, .inet⟩
  fresh := fun _ s => s.sup Int.toNat + 1
  fresh_notMem := by
    intro _ s hmem
    have hle : ((s.sup Int.toNat : Nat) + 1 : Int).toNat ≤ s.sup Int.toNat :=
      Finset.le_sup hmem
    omega
  fresh_nonneg := fun _ s => by omega

/-- The call number 17 is the one that connects: the listening socket stays open. -/
theorem not_no_leak : ∃ (sys : System) (w : World) (p : PipeWrap),
    w.descriptors = ∅ ∧ p = ⟨-1, -1⟩ ∧ ((reOpen sys p).run w).1.error ≠ none ∧
      ((reOpen sys p).run w).2.descriptors = {1} ∧ ¬ NoLeak sys w (.reOpen p) := by
  have herror : ((reOpen (refusing 17) ⟨-1, -1⟩).run ⟨∅, 0, none⟩).1.error ≠ none := by decide
  have hleft : ((reOpen (refusing 17) ⟨-1, -1⟩).run ⟨∅, 0, none⟩).2.descriptors = {1} := by decide
  refine ⟨refusing 17, ⟨∅, 0, none⟩, ⟨-1, -1⟩, rfl, rfl, herror, hleft, ?_⟩
  rintro (hopened | hrefused)
  · exact herror hopened.error
  · have hnone := hrefused.descriptors
    rw [hleft] at hnone
    exact absurd hnone (by decide)

end FFZKit.Poller.PipeDescriptors
