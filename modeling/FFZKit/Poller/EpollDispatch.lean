import FFZKit.Foundations.History
import FFZKit.Poller.EpollRegistration

/-!
# Which callbacks an `epoll` round invokes

Each reported event has its turn once and in order. Its callback is the one that
was registered when the round began, and is passed over exactly when the fd was
deleted before its turn. The branch of `runLoop` that removes a fd without a
callback is never taken.
-/

namespace FFZKit.Poller.EpollPoller

open FFZKit.Foundations.History FFZKit.Foundations.Transition
open FFZKit.Poller.PollRound (eventRead eventWrite eventError)
open Std (ExtTreeMap)

variable {Callback : Type*}

section Masks

variable {x y z event mask : BitVec 32}

theorem and_of_within (h : x &&& ~~~y = 0#32) : x &&& y = x := by
  have hsplit : x = (x &&& y) ||| (x &&& ~~~y) := by
    rw [← BitVec.and_or_distrib_left, BitVec.or_not_self, BitVec.and_allOnes]
  rw [h, BitVec.or_zero] at hsplit
  exact hsplit.symm

/-- Bits within a mask do not meet what the mask does not meet. -/
theorem and_eq_zero_of_within (h : x &&& y = x) (hyz : y &&& z = 0#32) : x &&& z = 0#32 := by
  rw [← h, BitVec.and_assoc, hyz, BitVec.and_zero]

theorem toPoller_read_iff : toPoller event &&& eventRead ≠ 0 ↔
    event &&& (epollIn ||| epollRdNorm ||| epollHup) ≠ 0 := by
  unfold toPoller
  split
  · rename_i hread
    exact iff_of_true (by split <;> split <;> split <;> decide) hread
  · rename_i hread
    exact iff_of_false (by split <;> split <;> split <;> decide) hread

theorem toPoller_write_iff : toPoller event &&& eventWrite ≠ 0 ↔
    event &&& (epollOut ||| epollWrNorm) ≠ 0 := by
  unfold toPoller
  by_cases hwrite : event &&& (epollOut ||| epollWrNorm) ≠ 0
  · rw [if_pos hwrite]
    exact iff_of_true (by split <;> split <;> split <;> decide) hwrite
  · rw [if_neg hwrite]
    exact iff_of_false (by split <;> split <;> split <;> decide) hwrite

theorem toPoller_error_iff : toPoller event &&& eventError ≠ 0 ↔
    event &&& epollHup ≠ 0 ∨ event &&& epollErr ≠ 0 := by
  unfold toPoller
  by_cases hhup : event &&& epollHup ≠ 0
  · rw [if_pos hhup]
    exact iff_of_true (by split <;> split <;> split <;> decide) (Or.inl hhup)
  · rw [if_neg hhup]
    by_cases herr : event &&& epollErr ≠ 0
    · rw [if_pos herr]
      exact iff_of_true (by split <;> split <;> decide) (Or.inr herr)
    · rw [if_neg herr]
      exact iff_of_false (by split <;> split <;> decide) (fun h => h.elim hhup herr)

/-- What may be reported for a mask is within what is translated. -/
theorem reportable_toEpoll (mask : BitVec 32) :
    reportable (toEpoll mask) &&&
        (epollIn ||| epollRdNorm ||| epollHup ||| (epollOut ||| epollWrNorm) ||| epollErr) =
          reportable (toEpoll mask) ∧
      (mask &&& eventWrite = 0 →
        reportable (toEpoll mask) &&& (epollOut ||| epollWrNorm) = 0) ∧
      (mask &&& eventRead = 0 → reportable (toEpoll mask) &&& (epollIn ||| epollRdNorm) = 0) := by
  unfold toEpoll
  by_cases hread : mask &&& eventRead = 0 <;> by_cases hwrite : mask &&& eventWrite = 0 <;>
    by_cases herror : mask &&& eventError = 0 <;> by_cases hlevel : mask &&& eventLT = 0 <;>
      simp only [hread, hwrite, herror, hlevel, ne_eq, not_true_eq_false, not_false_eq_true,
        if_true, if_false] <;> decide

/-- What a callback that asked for a mask is called with: something, writing only if it
asked for it, and reading only if it did or there was a hang-up. -/
structure Meaningful (mask : BitVec 32) (ev : EpollEvent) : Prop where
  nonempty : toPoller ev.events ≠ 0
  write : toPoller ev.events &&& eventWrite ≠ 0 → mask &&& eventWrite ≠ 0
  read : toPoller ev.events &&& eventRead ≠ 0 →
    mask &&& eventRead ≠ 0 ∨ ev.events &&& epollHup ≠ 0

theorem meaningful_of_reportable {ev : EpollEvent} (hne : ev.events ≠ 0)
    (h : ev.events &&& ~~~reportable (toEpoll mask) = 0) : Meaningful mask ev := by
  obtain ⟨hall, hwrite, hread⟩ := reportable_toEpoll mask
  have hwithin := and_of_within h
  have hcase : ∀ bit, toPoller ev.events &&& bit ≠ 0 → toPoller ev.events ≠ 0 := by
    intro bit hbit hzero
    rw [hzero] at hbit
    exact hbit BitVec.zero_and
  constructor
  · by_cases hin : ev.events &&& (epollIn ||| epollRdNorm ||| epollHup) ≠ 0
    · exact hcase _ (toPoller_read_iff.mpr hin)
    · by_cases hout : ev.events &&& (epollOut ||| epollWrNorm) ≠ 0
      · exact hcase _ (toPoller_write_iff.mpr hout)
      · by_cases herr : ev.events &&& epollErr ≠ 0
        · exact hcase _ (toPoller_error_iff.mpr (Or.inr herr))
        · rw [not_not] at hin hout herr
          refine absurd ?_ hne
          calc
            ev.events = ev.events &&& reportable (toEpoll mask) := hwithin.symm
            _ = ev.events &&& reportable (toEpoll mask) &&& (epollIn ||| epollRdNorm |||
                epollHup ||| (epollOut ||| epollWrNorm) ||| epollErr) := by
              rw [BitVec.and_assoc, hall]
            _ = ev.events &&& (epollIn ||| epollRdNorm ||| epollHup |||
                (epollOut ||| epollWrNorm) ||| epollErr) := by rw [hwithin]
            _ = 0 := by
              rw [BitVec.and_or_distrib_left, BitVec.and_or_distrib_left, hin, hout, herr]
              rfl
  · intro hcalled hasked
    exact toPoller_write_iff.mp hcalled (and_eq_zero_of_within hwithin (hwrite hasked))
  · intro hcalled
    by_contra hneither
    obtain ⟨hasked, hhup⟩ := not_or.mp hneither
    rw [not_not] at hasked hhup
    apply toPoller_read_iff.mp hcalled
    rw [BitVec.and_or_distrib_left, and_eq_zero_of_within hwithin (hread hasked), hhup]
    rfl

end Masks

/-- The event of a turn. -/
def RoundEvent.turn? : RoundEvent Callback → Option EpollEvent
  | .deleted _ => none
  | .invoked ev _ => some ev
  | .skipped ev => some ev
  | .removed ev => some ev

/-- The fate of an event is right after what happened before its turn. -/
def Fated (registered : ExtTreeMap Int (EventCallback Callback) compare)
    (front : List (RoundEvent Callback)) : RoundEvent Callback → Prop
  | .deleted _ => True
  | .invoked ev cb => .deleted ev.fd ∉ front ∧ registered[ev.fd]? = some cb
  | .skipped ev => .deleted ev.fd ∈ front
  | .removed _ => False

/-- What holds of the round that a loop is in. -/
structure Dispatched (s : Loop Callback) : Prop where
  turns : s.trace.filterMap RoundEvent.turn? ++ s.events = s.reported
  distinct : (s.reported.map EpollEvent.fd).Nodup
  asked : ∀ ev ∈ s.reported, ∃ mask, s.masks[ev.fd]? = some mask ∧ Meaningful mask ev
  fated : Throughout (Fated s.registered) s.trace

/-- With what the next steps need. -/
structure RoundInv (s : Loop Callback) : Prop extends Dispatched s where
  watched : Watched s.poller
  hasCallback : ∀ ev ∈ s.reported, ev.fd ∈ s.registered
  expired : s.phase ≠ .timers →
    ∀ fd, fd ∈ s.poller.eventCacheExpired ↔ .deleted fd ∈ s.trace
  kept : s.phase ≠ .timers → ∀ fd : Int, .deleted fd ∉ s.trace → fd ∈ s.registered →
    s.poller.eventMap[fd]? = s.registered[fd]?
  idle : s.phase = .timers → s.events = []

theorem roundInv_enter (opened : Finset Int) :
    RoundInv (Loop.enter (init Callback opened)) where
  turns := rfl
  distinct := List.nodup_nil
  asked := nofun
  fated := throughout_nil
  watched := watched_init opened
  hasCallback := nofun
  expired hphase := (hphase rfl).elim
  kept hphase := (hphase rfl).elim
  idle _ := rfl

section Steps

variable {s : Loop Callback} {t : EventPoller Callback} {c : Call Callback}

/-- A call expires the fds that it erases, and keeps the callbacks of the others. -/
theorem call_effect (h : step s.poller c = some t) :
    (∀ fd, fd ∈ t.eventCacheExpired ↔
      fd ∈ s.poller.eventCacheExpired ∨ .deleted fd ∈ Loop.noted s.poller c) ∧
    ∀ fd : Int, .deleted fd ∉ Loop.noted s.poller c → fd ∈ s.poller.eventMap →
      t.eventMap[fd]? = s.poller.eventMap[fd]? := by
  cases c with
  | addEvent fd event cb refused =>
      cases h
      cases cb with
      | none => simp [EventPoller.addEvent, Loop.noted]
      | some cb =>
          by_cases hrefused : fd ∉ s.poller.kernel.opened ∨ fd ∈ s.poller.kernel.interest ∨
              refused = true
          · rw [addEvent_refused hrefused]
            simp [Loop.noted]
          · push Not at hrefused
            obtain ⟨hopened, hnew, hfalse⟩ := hrefused
            obtain rfl : refused = false := by simpa using hfalse
            rw [addEvent_accepted hopened hnew]
            refine ⟨by simp [Loop.noted], fun other _ hother => ?_⟩
            simp only
            rw [ExtTreeMap.getElem?_insertIfNew, if_neg]
            rintro ⟨heq, hfree⟩
            exact hfree (Std.LawfulEqCmp.eq_of_compare heq ▸ hother)
  | delEvent fd =>
      cases h
      by_cases hfd : fd ∈ s.poller.eventMap
      · rw [delEvent_registered hfd]
        simp only [Loop.noted, if_pos hfd, List.mem_singleton, RoundEvent.deleted.injEq,
          Finset.mem_insert]
        refine ⟨fun other => or_comm, fun other hne _ => ?_⟩
        rw [ExtTreeMap.getElem?_erase, if_neg]
        intro heq
        exact hne (Std.LawfulEqCmp.eq_of_compare heq).symm
      · simp [EventPoller.delEvent, Loop.noted, hfd]
  | modifyEvent fd event =>
      cases h
      by_cases hfd : fd ∈ s.poller.kernel.interest
      · rw [modifyEvent_watched hfd]
        simp [Loop.noted]
      · rw [modifyEvent_unwatched hfd]
        simp [Loop.noted]
  | complete threw =>
      simp only [step, EventPoller.complete] at h
      split at h
      · cases h
      · split at h <;> cases h <;> simp [Loop.noted]
      · cases h
        simp [Loop.noted]
  | opens fd => cases h; simp [Loop.noted]
  | closes fd => cases h; simp [Loop.noted]

/-- A call is about no event. -/
theorem noted_quiet {p : EventPoller Callback} : ∀ event ∈ Loop.noted p c,
    event.turn? = none ∧ ∀ registered front, Fated registered front event := by
  intro event hevent
  unfold Loop.noted at hevent
  split at hevent
  · split at hevent
    · obtain rfl := List.mem_singleton.mp hevent
      exact ⟨rfl, fun _ _ => trivial⟩
    · cases hevent
  · cases hevent

theorem RoundInv.called (h : RoundInv s) (hstep : step s.poller c = some t) :
    RoundInv (s.called c t) := by
  obtain ⟨hexpired, hkept⟩ := call_effect hstep
  have hquiet : (Loop.noted s.poller c).filterMap RoundEvent.turn? = [] := by
    rw [List.filterMap_eq_nil_iff]
    exact fun event hevent => (noted_quiet event hevent).1
  refine ⟨⟨?_, h.distinct, h.asked, ?_⟩, h.watched.step hstep, h.hasCallback, ?_, ?_, h.idle⟩
  · simpa only [Loop.called, List.filterMap_append, hquiet, List.append_nil] using h.turns
  · exact h.fated.append fun event hevent => (noted_quiet event hevent).2 _
  · intro hphase fd
    simp only [Loop.called, List.mem_append]
    rw [hexpired, h.expired hphase]
  · intro hphase fd hdeleted hfd
    simp only [Loop.called, List.mem_append, not_or] at hdeleted
    have hold := h.kept hphase fd hdeleted.1 hfd
    have hmem : fd ∈ s.poller.eventMap := by
      rw [ExtTreeMap.mem_iff_isSome_getElem?, hold, ← ExtTreeMap.mem_iff_isSome_getElem?]
      exact hfd
    exact (hkept fd hdeleted.2 hmem).trans hold

theorem RoundInv.wait (h : RoundInv s) {events : List EpollEvent}
    (reports : s.poller.kernel.Reports events) : RoundInv (s.wait events) := by
  obtain ⟨-, hnodup, hreported⟩ := reports
  have hask : ∀ ev ∈ events, ∃ mask, s.poller.asked[ev.fd]? = some mask ∧
      Meaningful mask ev := by
    intro ev hev
    have hmay := hreported ev hev
    rw [Kernel.mayReport, Bool.and_eq_true, h.watched.masks, Option.any_eq_true] at hmay
    obtain ⟨hne, events, hmask, hwithin⟩ := hmay
    obtain ⟨mask, hasked, rfl⟩ := Option.map_eq_some_iff.mp hmask
    exact ⟨mask, hasked,
      meaningful_of_reportable (of_decide_eq_true hne) (of_decide_eq_true hwithin)⟩
  refine ⟨⟨rfl, hnodup, hask, throughout_nil⟩, ⟨h.watched.masks, h.watched.called⟩, ?_, ?_, ?_,
    nofun⟩
  · intro ev hev
    obtain ⟨mask, hasked, _⟩ := hask ev hev
    apply h.watched.called
    rw [ExtTreeMap.mem_iff_isSome_getElem?, hasked]
    rfl
  · intro _ fd
    simp [Loop.wait]
  · intro _ fd _ _
    rfl

theorem RoundInv.dispatch (h : RoundInv s) (hphase : s.phase = .dispatching) :
    RoundInv s.dispatch := by
  have hactive : s.phase ≠ .timers := by rw [hphase]; nofun
  have hturns := h.turns
  unfold Loop.dispatch
  split
  · rename_i hnone
    exact ⟨⟨h.turns, h.distinct, h.asked, h.fated⟩, h.watched, h.hasCallback,
      fun hne => (hne rfl).elim, fun hne => (hne rfl).elim, fun _ => hnone⟩
  · rename_i ev rest hevents
    rw [hevents] at hturns
    have hmem : ev ∈ s.reported := by
      rw [← hturns]
      simp
    split
    · rename_i hfd
      refine ⟨⟨?_, h.distinct, h.asked, h.fated.snoc ((h.expired hactive _).mp hfd)⟩, h.watched,
        h.hasCallback, fun _ fd => ?_, fun _ fd hdeleted => ?_,
        fun hidle => (hactive hidle).elim⟩
      · simpa [RoundEvent.turn?] using hturns
      · simpa using h.expired hactive fd
      · exact h.kept hactive fd (by simpa using hdeleted)
    · rename_i hfd
      have hdeleted : .deleted ev.fd ∉ s.trace := fun hmem => hfd ((h.expired hactive _).mpr hmem)
      have hkept := h.kept hactive ev.fd hdeleted (h.hasCallback ev hmem)
      obtain ⟨cb, hcb⟩ := Option.isSome_iff_exists.mp
        (ExtTreeMap.mem_iff_isSome_getElem?.mp (h.hasCallback ev hmem))
      simp only [hkept, hcb]
      refine ⟨⟨?_, h.distinct, h.asked, h.fated.snoc ⟨hdeleted, hcb⟩⟩, h.watched,
        h.hasCallback, fun _ fd => ?_, fun _ fd hdeleted => ?_, nofun⟩
      · simpa [RoundEvent.turn?] using hturns
      · simpa using h.expired hactive fd
      · exact h.kept hactive fd (by simpa using hdeleted)

theorem roundInv_step {s u : Loop Callback} {a : Action Callback} (hstep : loopStep s a = some u)
    (h : RoundInv s) : RoundInv u := by
  cases a with
  | call c =>
      have hcalled : (step s.poller c).map (s.called c) = some u → RoundInv u := by
        intro hmap
        obtain ⟨poller, hpoller, rfl⟩ := Option.map_eq_some_iff.mp hmap
        exact h.called hpoller
      simp only [loopStep] at hstep
      split at hstep
      · exact hcalled hstep
      · exact hcalled hstep
      · cases hstep
      · exact hcalled hstep
  | wait events =>
      simp only [loopStep] at hstep
      split at hstep
      · cases hstep
        exact h
      · rw [Option.ite_none_right_eq_some, Option.some.injEq] at hstep
        obtain ⟨reports, rfl⟩ := hstep
        exact h.wait reports
      · cases hstep
  | dispatch =>
      simp only [loopStep] at hstep
      split at hstep
      · rename_i hphase
        cases hstep
        exact h.dispatch hphase
      · cases hstep
  | finish threw =>
      simp only [loopStep] at hstep
      split at hstep
      · rename_i hphase _
        cases hstep
        have hactive : s.phase ≠ .timers := by rw [hphase]; nofun
        exact ⟨⟨h.turns, h.distinct, h.asked, h.fated⟩, h.watched, h.hasCallback,
          fun _ => h.expired hactive, fun _ => h.kept hactive, nofun⟩
      · cases hstep

end Steps

/-- In every run the events of a round have their turns in order, each fd has one at
most, and all have had theirs when the round is over. A turn calls the callback that
was registered when the round began, with a mask that means something to it, unless
the fd was deleted before. -/
theorem round_dispatches (opened : Finset Int) (as : List (Action Callback)) (s : Loop Callback)
    (run : Run loopStep anyStep (Loop.enter (init Callback opened)) as s) :
    Dispatched s ∧ (s.phase = .timers → s.trace.filterMap RoundEvent.turn? = s.reported) := by
  have h : RoundInv s := run.invariant (fun _ _ _ _ hstep h => roundInv_step hstep h)
    (roundInv_enter opened)
  refine ⟨h.toDispatched, fun hphase => ?_⟩
  have hturns := h.turns
  rwa [h.idle hphase, List.append_nil] at hturns

/-- The first callback deletes the second descriptor and adds it again. -/
def deletedInRound : List (Action Nat) :=
  [.call (.addEvent 3 1 (some 0) false), .call (.addEvent 4 3 (some 1) false),
    .wait (some [⟨3, epollIn⟩, ⟨4, epollOut⟩]), .dispatch, .call (.delEvent 4),
    .call (.complete false), .call (.addEvent 4 3 (some 2) false), .finish true, .dispatch,
    .dispatch]

theorem round_dispatches_deletedInRound :
    ∃ s, exec loopStep (Loop.enter (init Nat {3, 4})) deletedInRound = some s ∧ Dispatched s ∧
      s.trace = [.invoked ⟨3, epollIn⟩ ⟨0, 0⟩, .deleted 4, .skipped ⟨4, epollOut⟩] := by
  refine ⟨_, rfl, (round_dispatches {3, 4} deletedInRound _ (run_of_exec rfl ?_)).1, rfl⟩
  exact fun _ _ _ => trivial

end FFZKit.Poller.EpollPoller
