import FFZKit.Foundations.Holding

/-!
# Sockets and the descriptors they hold

`SockUtil::connect`, `SockUtil::listen` and `SockUtil::bindUdpSock` open a socket,
set its options, bind it and go on with it; each call of the system may fail.

## Implementation notes

The system decides how each call ends, counted over all calls, and which descriptor a
call opens. What becomes of an option that is set is left out, and so are addresses
and ports: of an address only the family matters. A host that is an address itself,
or is found in the cache, is one whose resolution succeeds.
-/

namespace FFZKit.Network.SockUtil

open FFZKit.Foundations

inductive Platform
  | posix
  | windows
  deriving DecidableEq, Repr

/-- `ss_family` -/
inductive Family
  | inet
  | inet6
  | other
  deriving DecidableEq, Repr

/-- How a call of the system ends: whether it succeeds, whether the error is
`UV_EAGAIN`, and of which family the address is that was resolved. -/
structure Reply where
  succeeds : Bool
  again : Bool
  family : Family

/-- The platform, the reply to each call, and the descriptors it opens. -/
structure System where
  platform : Platform
  is_ipv4 : String → Bool
  reply : Nat → Reply
  fresh : Nat → Finset Int → Int
  fresh_notMem : ∀ n s, fresh n s ∉ s
  fresh_nonneg : ∀ n s, 0 ≤ fresh n s

/-- The descriptors that are open, the number of calls so far, and the flag of
`support_ipv6`. -/
structure World where
  descriptors : Finset Int
  calls : Nat
  ipv6 : Option Bool

abbrev Sys := StateM World

variable (sys : System)

/-- A call of the system. -/
def call : Sys Reply := fun w => (sys.reply w.calls, { w with calls := w.calls + 1 })

/-- A call that returns 0 or -1. -/
def attempt : Sys Int := do
  let reply ← call sys
  pure (if reply.succeeds then 0 else -1)

/-- A descriptor that was not open. -/
def openDescriptor : Sys Int := fun w =>
  let fd := sys.fresh w.calls w.descriptors
  (fd, { w with descriptors := insert fd w.descriptors })

/-- A call that returns a descriptor or -1. -/
def acquire : Sys Int := do
  let reply ← call sys
  if reply.succeeds then openDescriptor sys else pure (-1)

def socket (_family : Family) : Sys Int := acquire sys

def close (fd : Int) : Sys Unit := fun w =>
  ((), { w with descriptors := w.descriptors.erase fd })

def setNoDelay (_fd : Int) : Sys Int := attempt sys

/-- `setReuseable`, with `SO_REUSEPORT` where it is defined. -/
def setReuseable (_fd : Int) (reuse_port : Bool) : Sys Int := do
  let ret ← attempt sys
  if ret = -1 then pure ret
  else if sys.platform = .posix ∧ reuse_port then attempt sys
  else pure ret

/-- `setCloExec`: `fcntl` twice, unless the first fails. -/
def setCloExec (_fd : Int) : Sys Int :=
  if sys.platform = .posix then do
    let flags ← attempt sys
    if flags = -1 then pure (-1) else attempt sys
  else pure (-1)

/-- `SO_NOSIGPIPE` is defined neither on Linux nor on Windows. -/
def setNoSigpipe (_fd : Int) : Sys Int := pure (-1)

def setNoBlocked (_fd : Int) : Sys Int := attempt sys

def setRecvBuf (_fd : Int) : Sys Int := attempt sys

def setSendBuf (_fd : Int) : Sys Int := attempt sys

def setCloseWait (_fd : Int) : Sys Int := attempt sys

def set_ipv6_only (_fd : Int) : Sys Int := attempt sys

/-- `get_local_port`: 0 where `getsockname` fails. -/
def get_local_port (_fd : Int) : Sys Int := attempt sys

def support_ipv6_l : Sys Bool := do
  let fd ← socket sys .inet6
  if fd = -1 then pure false
  else do
    close fd
    pure true

/-- `support_ipv6`: the flag is static, so it is computed once. -/
def support_ipv6 : Sys Bool := fun w =>
  match w.ipv6 with
  | some flag => (flag, w)
  | none =>
      let probed := (support_ipv6_l sys).run w
      (probed.1, { probed.2 with ipv6 := some probed.1 })

def bind_sock4 (_fd : Int) : Sys Int := attempt sys

def bind_sock6 (fd : Int) : Sys Int := do
  let _ ← set_ipv6_only sys fd
  attempt sys

def bind_sock (fd : Int) (family : Family) : Sys Int :=
  match family with
  | .inet => bind_sock4 sys fd
  | .inet6 => bind_sock6 sys fd
  | .other => pure (-1)

/-- The family of the address of a host, unless the resolution fails. -/
def getDomainIP (_host : String) : Sys (Option Family) := do
  let reply ← call sys
  pure (if reply.succeeds then some reply.family else none)

/-- The family that a local address is bound with. -/
def localFamily (local_ip : String) : Sys Family := do
  let ipv6 ← support_ipv6 sys
  pure (if ipv6 then if sys.is_ipv4 local_ip then .inet else .inet6 else .inet)

def connect (host : String) (async : Bool) : Sys Int := do
  let addr ← getDomainIP sys host
  match addr with
  | none => pure (-1)
  | some family => do
      let sockfd ← socket sys family
      if sockfd < 0 then pure (-1)
      else do
        let _ ← setReuseable sys sockfd true
        let _ ← setNoSigpipe sockfd
        let _ ← setNoBlocked sys sockfd
        let _ ← setNoDelay sys sockfd
        let _ ← setSendBuf sys sockfd
        let _ ← setRecvBuf sys sockfd
        let _ ← setCloseWait sys sockfd
        let _ ← setCloExec sys sockfd
        let bound ← bind_sock sys sockfd family
        if bound = -1 then do
          close sockfd
          pure (-1)
        else do
          let connected ← call sys
          if connected.succeeds then pure sockfd
          else if async ∧ connected.again then pure sockfd
          else do
            close sockfd
            pure (-1)

def listen (local_ip : String) : Sys Int := do
  let family ← localFamily sys local_ip
  let fd ← socket sys family
  if fd = -1 then pure (-1)
  else do
    let _ ← setReuseable sys fd false
    let _ ← setNoBlocked sys fd
    let _ ← setCloExec sys fd
    let bound ← bind_sock sys fd family
    if bound = -1 then do
      close fd
      pure (-1)
    else do
      let listening ← attempt sys
      if listening = -1 then do
        close fd
        pure (-1)
      else pure fd

def bindUdpSock (local_ip : String) (enable_reuse : Bool) : Sys Int := do
  let family ← localFamily sys local_ip
  let fd ← socket sys family
  if fd = -1 then pure (-1)
  else do
    let _ ← (if enable_reuse then setReuseable sys fd true else pure 0 : Sys Int)
    let _ ← setNoSigpipe fd
    let _ ← setNoBlocked sys fd
    let _ ← setSendBuf sys fd
    let _ ← setRecvBuf sys fd
    let _ ← setCloseWait sys fd
    let _ ← setCloExec sys fd
    let bound ← bind_sock sys fd family
    if bound = -1 then do
      close fd
      pure (-1)
    else pure fd

/-- The computation opens and closes nothing, on balance. -/
abbrev Neutral {α : Type} (m : Sys α) : Prop := Conserves World.descriptors m

section neutral

theorem neutral_call : Neutral (call sys) := fun _ => rfl

theorem neutral_attempt : Neutral (attempt sys) :=
  (neutral_call sys).bind fun _ => conserves_pure _

theorem neutral_setReuseable (fd : Int) (reuse_port : Bool) :
    Neutral (setReuseable sys fd reuse_port) :=
  (neutral_attempt sys).bind fun _ =>
    (conserves_pure _).ite ((neutral_attempt sys).ite (conserves_pure _))

theorem neutral_setCloExec (fd : Int) : Neutral (setCloExec sys fd) :=
  ((neutral_attempt sys).bind fun _ => (conserves_pure _).ite (neutral_attempt sys)).ite
    (conserves_pure _)

theorem neutral_setNoSigpipe (fd : Int) : Neutral (setNoSigpipe fd) := conserves_pure _

theorem neutral_bind_sock (fd : Int) (family : Family) : Neutral (bind_sock sys fd family) := by
  cases family with
  | inet => exact neutral_attempt sys
  | inet6 => exact (neutral_attempt sys).bind fun _ => neutral_attempt sys
  | other => exact conserves_pure _

theorem neutral_getDomainIP (host : String) : Neutral (getDomainIP sys host) :=
  (neutral_call sys).bind fun _ => conserves_pure _

end neutral

/-- A call that opens a descriptor, or returns -1. -/
theorem acquires_acquire : Acquires World.descriptors (-1) (acquire sys) := by
  intro w
  have hrun : (acquire sys).run w = (if (sys.reply w.calls).succeeds then openDescriptor sys
      else pure (-1) : Sys Int).run { w with calls := w.calls + 1 } := rfl
  rw [hrun]
  split
  · have hnonneg := sys.fresh_nonneg (w.calls + 1) w.descriptors
    refine Or.inr ⟨?_, sys.fresh_notMem _ _, rfl⟩
    intro hlost
    have hfd : sys.fresh (w.calls + 1) w.descriptors = -1 := hlost
    omega
  · exact Or.inl ⟨rfl, rfl⟩

/-- A descriptor is not negative. -/
theorem acquire_lt_iff (w : World) :
    ((acquire sys).run w).1 < 0 ↔ ((acquire sys).run w).1 = -1 := by
  have hrun : (acquire sys).run w = (if (sys.reply w.calls).succeeds then openDescriptor sys
      else pure (-1) : Sys Int).run { w with calls := w.calls + 1 } := rfl
  rw [hrun]
  split
  · have hnonneg : 0 ≤ ((openDescriptor sys).run { w with calls := w.calls + 1 }).1 :=
      sys.fresh_nonneg _ _
    omega
  · exact iff_of_true (show (-1 : Int) < 0 by decide) rfl

theorem handsOn_close (fd : Int) :
    HandsOn World.descriptors (-1) fd (close fd >>= fun _ => pure (-1)) :=
  handsOn_release fun _ => rfl

theorem neutral_support_ipv6 : Neutral (support_ipv6 sys) := by
  have hprobe : Neutral (support_ipv6_l sys) :=
    (acquires_acquire sys).bind_release (conserves_pure _) fun _ _ => rfl
  intro w
  cases hflag : w.ipv6 with
  | some flag =>
      have hrun : (support_ipv6 sys).run w = (flag, w) := by
        simp only [StateT.run, support_ipv6, hflag]
      rw [hrun]
  | none =>
      have hrun : ((support_ipv6 sys).run w).2.descriptors =
          ((support_ipv6_l sys).run w).2.descriptors := by
        simp only [StateT.run, support_ipv6, hflag]
      exact hrun.trans (hprobe w)

theorem neutral_localFamily (local_ip : String) : Neutral (localFamily sys local_ip) :=
  (neutral_support_ipv6 sys).bind fun _ => conserves_pure _

/-- `connect` returns a descriptor that it has opened, or -1 and has opened none. -/
theorem acquires_connect (host : String) (async : Bool) :
    Acquires World.descriptors (-1) (connect sys host async) := by
  refine (neutral_getDomainIP sys host).bind_acquires fun addr => ?_
  cases addr with
  | none => exact acquires_lost
  | some family =>
      refine (acquires_acquire sys).bind_handsOn (acquire_lt_iff sys) fun fd => ?_
      refine (neutral_setReuseable sys fd true).bind_handsOn fun _ => ?_
      refine (neutral_setNoSigpipe fd).bind_handsOn fun _ => ?_
      refine (neutral_attempt sys).bind_handsOn fun _ => ?_
      refine (neutral_attempt sys).bind_handsOn fun _ => ?_
      refine (neutral_attempt sys).bind_handsOn fun _ => ?_
      refine (neutral_attempt sys).bind_handsOn fun _ => ?_
      refine (neutral_attempt sys).bind_handsOn fun _ => ?_
      refine (neutral_setCloExec sys fd).bind_handsOn fun _ => ?_
      refine (neutral_bind_sock sys fd family).bind_handsOn fun _ => (handsOn_close fd).ite ?_
      refine (neutral_call sys).bind_handsOn fun _ => (handsOn_pure fd).ite ?_
      exact (handsOn_pure fd).ite (handsOn_close fd)

/-- `listen` returns a descriptor that it has opened, or -1 and has opened none. -/
theorem acquires_listen (local_ip : String) :
    Acquires World.descriptors (-1) (listen sys local_ip) := by
  refine (neutral_localFamily sys local_ip).bind_acquires fun family => ?_
  refine (acquires_acquire sys).bind_handsOn (fun _ => Iff.rfl) fun fd => ?_
  refine (neutral_setReuseable sys fd false).bind_handsOn fun _ => ?_
  refine (neutral_attempt sys).bind_handsOn fun _ => ?_
  refine (neutral_setCloExec sys fd).bind_handsOn fun _ => ?_
  refine (neutral_bind_sock sys fd family).bind_handsOn fun _ => (handsOn_close fd).ite ?_
  exact (neutral_attempt sys).bind_handsOn fun _ => (handsOn_close fd).ite (handsOn_pure fd)

/-- `bindUdpSock` returns a descriptor that it has opened, or -1 and has opened none. -/
theorem acquires_bindUdpSock (local_ip : String) (enable_reuse : Bool) :
    Acquires World.descriptors (-1) (bindUdpSock sys local_ip enable_reuse) := by
  refine (neutral_localFamily sys local_ip).bind_acquires fun family => ?_
  refine (acquires_acquire sys).bind_handsOn (fun _ => Iff.rfl) fun fd => ?_
  have hreuse : Neutral (if enable_reuse = true then setReuseable sys fd true else pure 0) :=
    (neutral_setReuseable sys fd true).ite (conserves_pure 0)
  refine hreuse.bind_handsOn fun _ => ?_
  refine (neutral_setNoSigpipe fd).bind_handsOn fun _ => ?_
  refine (neutral_attempt sys).bind_handsOn fun _ => ?_
  refine (neutral_attempt sys).bind_handsOn fun _ => ?_
  refine (neutral_attempt sys).bind_handsOn fun _ => ?_
  refine (neutral_attempt sys).bind_handsOn fun _ => ?_
  refine (neutral_setCloExec sys fd).bind_handsOn fun _ => ?_
  exact (neutral_bind_sock sys fd family).bind_handsOn fun _ =>
    (handsOn_close fd).ite (handsOn_pure fd)

end FFZKit.Network.SockUtil
