import FFZKit.Foundations.Mask
import FFZKit.Win32.WepollInterest

/-!
# Waking the threads of a wepoll port

A thread that waits for packets sleeps until the driver completes a poll. So while
one waits there must be, for every socket that is watched, a poll that asks for all
that is watched, or a packet under way after which a new poll is submitted. The driver
knows other events than the user, so this rests on the two translations.
-/

namespace FFZKit.Win32.Wepoll

open FFZKit.Foundations FFZKit.Foundations.Transition

section Masks

variable {user pending events afdEvents added mask : UInt32}

theorem meets_translate :
    Meets mask (translate user events added) ↔ Meets user events ∧ Meets mask added := by
  unfold translate
  split
  · rename_i h
    exact (and_iff_right h).symm
  · rename_i h
    exact iff_of_false (not_meets_zero _) fun hboth => h hboth.1

theorem translate_within (h : Meets user events → Meets pending events) :
    Within (translate user events added) (translate pending events added) := by
  unfold translate
  split
  · rename_i huser
    have hpending : pending &&& events ≠ 0 := h huser
    rw [if_pos hpending]
    exact Within.refl added
  · exact zero_within _

/-- A poll that covers what the user watches asks for as much as one that was made for it. -/
theorem asks_within (h : user &&& knownEpollEvents &&& ~~~pending = 0) :
    Within (epollEventsToAfdEvents user) (epollEventsToAfdEvents pending) := by
  have hline : ∀ {events : UInt32}, Within events knownEpollEvents →
      Meets user events → Meets pending events := by
    intro events hknown hmeets
    obtain ⟨i, huser, hevents⟩ := meets_iff.mp hmeets
    have hboth : (user &&& knownEpollEvents).toBitVec.getLsbD i = true := by
      simp [huser, within_iff.mp hknown i hevents]
    exact meets_iff.mpr ⟨i, within_iff.mp (within_of_and_not h) i hboth, hevents⟩
  unfold epollEventsToAfdEvents
  refine (((((Within.or (Within.refl _) ?_).or ?_).or ?_).or ?_).or ?_).or ?_
  all_goals exact translate_within (hline (by decide))

/-- Whatever the driver was asked for is an event that the user watches. -/
theorem told_of_asked (hopen : ¬ Meets afdEvents AFD_POLL_LOCAL_CLOSE)
    (hasked : Meets afdEvents (epollEventsToAfdEvents events)) :
    Meets events (afdEventsToEpollEvents afdEvents) := by
  unfold epollEventsToAfdEvents at hasked
  unfold afdEventsToEpollEvents
  simp only [meets_or, meets_translate] at hasked ⊢
  -- Each line of the one translation has a line in the other.
  rcases hasked with (((((hclosed | h) | h) | h) | h) | h) | ⟨herr, hfailed⟩
  · exact absurd hclosed hopen
  · exact Or.inl (Or.inl (Or.inl (Or.inl (Or.inl h.symm))))
  · exact Or.inl (Or.inl (Or.inl (Or.inl (Or.inr h.symm))))
  · exact Or.inl (Or.inl (Or.inl (Or.inr h.symm)))
  · exact Or.inl (Or.inl (Or.inr h.symm))
  · exact Or.inl (Or.inr h.symm)
  · exact Or.inr ⟨hfailed, Or.inl (Or.inl (Or.inl (Or.inr herr)))⟩

end Masks

namespace Epoll

variable {s s' : Epoll} {a : Nat} {c : SockState} {ev : EpollEvent}

/-- The driver is asked for all that is watched, so any of it completes the poll with a
packet that tells of it. -/
structure Asked (s : Epoll) (a : Nat) (ev : EpollEvent) : Prop where
  outstanding : a ∈ s.port.submitted
  asks : ∃ c, s.port.socks.get? a = some c ∧
    Within (epollEventsToAfdEvents ev.events) c.afdEvents
  tells : ∀ n afdEvents, 0 < n → ¬ Meets afdEvents AFD_POLL_LOCAL_CLOSE →
    Meets afdEvents (epollEventsToAfdEvents ev.events) →
    ∃ s', s.step (.complete a .success n afdEvents) = some s' ∧
      s'.port.tells a = some ⟨afdEventsToEpollEvents afdEvents &&& ev.events, ev.data⟩

/-- Something will happen for a socket: its packet is under way, or will be since its
poll was cancelled, or its poll asks for what is watched. -/
inductive Awaited (s : Epoll) (a : Nat) (ev : EpollEvent) : Prop
  | underWay (packet : a ∈ s.packets)
  | cancelled (outstanding : a ∈ s.port.submitted) (c : SockState)
      (sock : s.port.socks.get? a = some c) (status : c.pollStatus = .cancelled)
  | asked (asked : Asked s a ev)

/-- What a completed poll tells of. -/
theorem tells_of_completed {status : IoStatus} {n : Nat} {afdEvents : UInt32}
    (hkept : c.deletePending = false) (hn : 0 < n) (hsuccess : status = .success)
    (hopen : ¬ Meets afdEvents AFD_POLL_LOCAL_CLOSE)
    (htold : Meets c.userEvents (afdEventsToEpollEvents afdEvents)) :
    { c with ioStatus := status, numberOfHandles := n, afdEvents := afdEvents }.tells =
      some ⟨afdEventsToEpollEvents afdEvents &&& c.userEvents, c.userData⟩ := by
  have hone : ¬ n < 1 := by omega
  have hclose : ¬ afdEvents &&& AFD_POLL_LOCAL_CLOSE ≠ 0 := hopen
  have hne : ¬ afdEventsToEpollEvents afdEvents &&& c.userEvents = 0 := meets_comm.mp htold
  simp only [SockState.tells, hkept, Bool.false_eq_true, if_false, Port.completedEvents, hsuccess,
    if_neg hone, if_neg hclose, Option.bind_some, if_neg hne]

theorem Safe.asked (h : Safe s) (hc : s.port.socks.get? a = some c)
    (hkept : c.deletePending = false) (hsubmitted : a ∈ s.port.submitted)
    (hpending : c.pollStatus = .pending)
    (hcovers : c.userEvents &&& knownEpollEvents &&& ~~~c.pendingEvents = 0) :
    Asked s a ⟨c.userEvents, c.userData⟩ where
  outstanding := hsubmitted
  asks := ⟨c, hc, by
    rw [h.sound.asks hc hkept hsubmitted hpending]
    exact asks_within hcovers⟩
  tells := by
    intro n afdEvents hn hopen hasked
    have htells := tells_of_completed hkept hn rfl hopen (told_of_asked hopen hasked)
    refine ⟨_, by rw [Epoll.step, Epoll.run, Port.driverWrites, hc]; rfl, ?_⟩
    simp only [Port.tells, Heap.get?_write_self, Option.bind_some]
    exact htells

/-- A covered socket is awaited. -/
theorem Safe.awaited (h : Safe s) (hc : s.port.socks.get? a = some c)
    (hkept : c.deletePending = false) (hcovered : c.Covered) :
    Awaited s a ⟨c.userEvents, c.userData⟩ := by
  have hbusy := (h.sound.live hc hkept).1
  rcases hcovered with hcancelled | ⟨hpending, hcovers⟩
  · rcases List.mem_append.mp (hbusy.mpr (by simp [hcancelled])) with hsubmitted | hpacket
    · exact .cancelled hsubmitted c hc hcancelled
    · exact .underWay hpacket
  · rcases List.mem_append.mp (hbusy.mpr (by simp [hpending])) with hsubmitted | hpacket
    · exact .asked (h.asked hc hkept hsubmitted hpending hcovers)
    · exact .underWay hpacket

/-- Where the system refuses nothing, no socket is left for a later update while a thread waits. -/
theorem drained_of_run {as : List Action}
    (run : Run Epoll.step (fun s a => s.Allowed a ∧ a.Able) init as s) :
    Safe s ∧ s.port.Drained := by
  apply run.invariant (P := fun s => Safe s ∧ s.port.Drained)
  · rintro s a t ⟨hallowed, hable⟩ hstep ⟨h, hdrained⟩
    have hsteps := h.step hallowed hstep
    exact ⟨hsteps.safe, hsteps.drained hable hdrained⟩
  · exact ⟨safe_init, fun hpos => absurd hpos (Nat.lt_irrefl 0)⟩

/-- While a thread waits, every watched socket is awaited with all the events that are
watched, whatever was added, changed and removed meanwhile. -/
theorem awaited_while_waiting (as : List Action) (s : Epoll)
    (run : Run Epoll.step (fun s a => s.Allowed a ∧ a.Able) init as s) (waiting : s.waiters ≠ [])
    (k : Nat) (ev : EpollEvent) (watched : s.port.interest k = some ev) :
    ∃ a, s.port.findSocket k = some a ∧ Awaited s a ev := by
  obtain ⟨h, hdrained⟩ := drained_of_run run
  have hempty : s.port.sockUpdateQueue = [] := by
    apply hdrained
    rw [h.active]
    exact List.length_pos_iff.mpr waiting
  obtain ⟨w, hw, rfl⟩ := Option.map_eq_some_iff.mp watched
  obtain ⟨a, hfind, hwatch⟩ := Option.bind_eq_some_iff.mp hw
  obtain ⟨c, hc, hkept, hkey⟩ := h.sound.exists_of_find hfind
  rw [Port.watch_of_kept hc hkept] at hwatch
  obtain rfl := Option.some.inj hwatch
  refine ⟨a, hfind, h.awaited hc hkept ?_⟩
  rcases h.covers a c (by simp) hc hkept with hcovered | hqueued
  · exact hcovered
  · rw [hempty] at hqueued
    cases hqueued

theorem able_granting (sock group : Nat) : Port.Able (granting sock group) :=
  fun _ => ⟨by simp [granting], rfl⟩

theorem awaited_while_waiting_reportedOnce :
    ∃ s, exec (checked Epoll.step Allowed) init (reportedOnce.take 2) = some s ∧
      ∃ a, s.port.findSocket 5 = some a ∧
        Awaited s a ⟨EPOLLIN ||| EPOLLONESHOT ||| EPOLLERR ||| EPOLLHUP, 50⟩ := by
  obtain ⟨s, hs⟩ := Option.isSome_iff_exists.mp
    (show (exec (checked Epoll.step Allowed) init (reportedOnce.take 2)).isSome = true by decide)
  have hshown : (exec (checked Epoll.step Allowed) init (reportedOnce.take 2)).map
      (fun s => (s.waiters.isEmpty, s.port.interest 5)) =
        some (false, some ⟨EPOLLIN ||| EPOLLONESHOT ||| EPOLLERR ||| EPOLLHUP, 50⟩) := by decide
  rw [hs] at hshown
  obtain ⟨hwaiting, hinterest⟩ := Prod.mk.inj (Option.some.inj hshown)
  have hable : ∀ a ∈ reportedOnce.take 2, a.Able := by
    simp [reportedOnce, Action.Able, Action.answers, able_granting]
  exact ⟨s, hs, awaited_while_waiting _ s ((run_of_checked hs).and_mem hable)
    (List.isEmpty_eq_false_iff.mp hwaiting) 5 _ hinterest⟩

/-- The packet of a registered socket tells of the events that the driver has told and the
user watches, if there are any. -/
theorem tells_iff (h : Safe s) (a : Nat) (report : EpollEvent) :
    s.port.tells a = some report ↔
      ∃ k ev c told, s.port.findSocket k = some a ∧ s.port.interest k = some ev ∧
        s.port.socks.get? a = some c ∧ Port.completedEvents c = some told ∧
        Meets told ev.events ∧ report = ⟨told &&& ev.events, ev.data⟩ := by
  constructor
  · intro htells
    obtain ⟨c, hc, htells⟩ := Option.bind_eq_some_iff.mp htells
    cases hkept : c.deletePending with
    | true => simp [SockState.tells, hkept] at htells
    | false =>
        simp only [SockState.tells, hkept, Bool.false_eq_true, if_false] at htells
        obtain ⟨told, htold, hreport⟩ := Option.bind_eq_some_iff.mp htells
        obtain ⟨hne, hreport⟩ := Option.ite_none_left_eq_some.mp hreport
        have hwatch := Port.watch_of_kept hc hkept
        exact ⟨c.key, ⟨c.userEvents, c.userData⟩, c, told,
          h.sound.findSocket_iff.mpr ⟨_, hwatch, rfl⟩, Port.interest_of_watch h.sound hwatch, hc,
          htold, hne, (Option.some.inj hreport).symm⟩
  · rintro ⟨k, ev, c, told, hfind, hinterest, hc, htold, hmeets, rfl⟩
    obtain ⟨d, hd, hkept, rfl⟩ := h.sound.exists_of_find hfind
    obtain rfl := Option.some.inj (hc.symm.trans hd)
    rw [Port.interest_of_find hfind (Port.watch_of_kept hc hkept)] at hinterest
    obtain rfl := Option.some.inj hinterest
    have hne : ¬ told &&& c.userEvents = 0 := hmeets
    simp only [Port.tells, hc, Option.bind_some, SockState.tells, hkept, Bool.false_eq_true,
      if_false, htold, if_neg hne]

/-- A call that has got packets returns one event for each packet that tells of something
watched, and it returns none only if none does. Then it waits again unless it is due. -/
theorem reports_exactly (as : List Action) (s : Epoll) (run : Run Epoll.step Allowed init as s)
    (i : Nat) (w : Waiter) (here : s.waiters[i]? = some w) (woken : w.phase ≠ .blocked)
    (due : Bool) (ans again : Answers) :
    (s.shown (.resume i due ans again) = [.events (w.packets.filterMap s.port.tells)] ∨
      (s.shown (.resume i due ans again) = [] ∧ due = false ∧
        w.packets.filterMap s.port.tells = [])) ∧
    ∀ a report, s.port.tells a = some report ↔
      ∃ k ev c told, s.port.findSocket k = some a ∧ s.port.interest k = some ev ∧
        s.port.socks.get? a = some c ∧ Port.completedEvents c = some told ∧
        Meets told ev.events ∧ report = ⟨told &&& ev.events, ev.data⟩ := by
  have h := safe_of_run run fun _ _ hallowed => hallowed
  refine ⟨?_, tells_iff h⟩
  obtain ⟨p', evs, hend, hends⟩ := h.pollEnd here woken due ans again
  have hexact := hends.exactly
  rw [shown, Epoll.run, here, Option.bind_some, hend]
  cases evs with
  | none => exact Or.inr ⟨rfl, hends.stays rfl, hexact.symm⟩
  | some evs =>
      left
      rw [← hexact]
      rfl

theorem reports_exactly_reportedOnce :
    ∃ s, exec (checked Epoll.step Allowed) init (reportedOnce.take 4) = some s ∧
      s.shown (.resume 0 false (granting 0 0) (granting 0 0)) = [.events [⟨EPOLLIN, 50⟩]] := by
  obtain ⟨s, hs⟩ := Option.isSome_iff_exists.mp
    (show (exec (checked Epoll.step Allowed) init (reportedOnce.take 4)).isSome = true by decide)
  have hshown : (exec (checked Epoll.step Allowed) init (reportedOnce.take 4)).map
      (fun s => (s.waiters[0]?, [100].filterMap s.port.tells)) =
        some (some ⟨8, 8, .woken [100]⟩, [⟨EPOLLIN, 50⟩]) := by decide
  rw [hs] at hshown
  obtain ⟨hwaiter, htells⟩ := Prod.mk.inj (Option.some.inj hshown)
  have hreports := reports_exactly _ s (run_of_checked hs) 0 ⟨8, 8, .woken [100]⟩ hwaiter
    (by decide) false (granting 0 0) (granting 0 0)
  refine ⟨s, hs, ?_⟩
  rcases hreports.1 with hevents | ⟨-, -, hnone⟩
  · rw [hevents]
    exact congrArg (fun evs => [Output.events evs]) htells
  · rw [show Waiter.packets ⟨8, 8, .woken [100]⟩ = [100] from rfl, htells] at hnone
    cases hnone

end Epoll

end FFZKit.Win32.Wepoll
