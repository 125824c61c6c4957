import FFZKit.Foundations.Lockstep
import FFZKit.Foundations.MapList
import FFZKit.Poller.EpollPoller

/-!
# The two backends register alike

The interest list is part of `event_map_` in every run, with the masks that were
asked for last. As long as no registered descriptor is closed the two have the same
descriptors, and then nobody can tell the `epoll` backend from the `select` backend
by what the calls return or report to their completion callbacks.
-/

namespace FFZKit.Poller.EpollPoller

open FFZKit.Foundations FFZKit.Foundations.Transition
open FFZKit.Poller.SelectPoller (Frame PollRecord fdSetSize)
open Std (ExtTreeMap)

variable {Callback : Type*}

/-- The interest list has the masks that were asked for, of fds with a callback. -/
structure Watched (s : EventPoller Callback) : Prop where
  masks : ∀ fd : Int, s.kernel.interest[fd]? = (s.asked[fd]?).map toEpoll
  called : ∀ fd : Int, fd ∈ s.asked → fd ∈ s.eventMap

theorem watched_init (opened : Finset Int) : Watched (init Callback opened) where
  masks := by simp [init]
  called := by simp [init]

theorem Watched.mem_interest {s : EventPoller Callback} (h : Watched s) {fd : Int} :
    fd ∈ s.kernel.interest ↔ fd ∈ s.asked := by
  rw [ExtTreeMap.mem_iff_isSome_getElem?, ExtTreeMap.mem_iff_isSome_getElem?, h.masks,
    Option.isSome_map]

section Calls

variable {s t : EventPoller Callback} {fd : Int} {event : BitVec 32} {cb : Callback}
  {refused : Bool}

/-- An `addEvent` that the kernel accepts. -/
theorem addEvent_accepted (hopened : fd ∈ s.kernel.opened) (hnew : fd ∉ s.kernel.interest) :
    s.addEvent fd event (some cb) false =
      ({ s with
        kernel := { s.kernel with interest := s.kernel.interest.insert fd (toEpoll event) }
        eventMap := s.eventMap.insertIfNew fd ⟨s.created, cb⟩
        fdCount := (s.eventMap.insertIfNew fd ⟨s.created, cb⟩).size
        created := s.created + 1
        asked := s.asked.insert fd event }, 0) := by
  simp [EventPoller.addEvent, Kernel.add, hopened, hnew]

theorem addEvent_refused (h : fd ∉ s.kernel.opened ∨ fd ∈ s.kernel.interest ∨ refused = true) :
    s.addEvent fd event (some cb) refused = ({ s with fdCount := s.eventMap.size }, -1) := by
  simp only [EventPoller.addEvent, Kernel.add, if_pos h]
  rfl

theorem Watched.addEvent (h : Watched s) (cb : Option Callback) :
    Watched (s.addEvent fd event cb refused).1 := by
  cases cb with
  | none => exact h
  | some cb =>
      by_cases hrefused : fd ∉ s.kernel.opened ∨ fd ∈ s.kernel.interest ∨ refused = true
      · rw [addEvent_refused hrefused]
        exact ⟨h.masks, h.called⟩
      · push Not at hrefused
        obtain ⟨hopened, hnew, hfalse⟩ := hrefused
        obtain rfl : refused = false := by simpa using hfalse
        rw [addEvent_accepted hopened hnew]
        constructor
        · intro other
          simp only [ExtTreeMap.getElem?_insert]
          split
          · rfl
          · exact h.masks other
        · intro other hother
          rw [ExtTreeMap.mem_insertIfNew]
          rcases ExtTreeMap.mem_insert.mp hother with heq | hold
          · exact Or.inl heq
          · exact Or.inr (h.called other hold)

/-- What `delEvent` does to the interest list, with the mask that was asked for. -/
theorem delEvent_registered (hfd : fd ∈ s.eventMap) :
    s.delEvent fd =
      { s with
        kernel := (s.kernel.del fd).1
        eventMap := s.eventMap.erase fd
        eventCacheExpired := insert fd s.eventCacheExpired
        frames := .delEvent (s.kernel.del fd).2 :: s.frames
        asked := s.asked.erase fd } := by
  simp only [EventPoller.delEvent, if_pos hfd]

theorem interest_del (k : Kernel) (fd other : Int) :
    (k.del fd).1.interest[other]? = if fd = other then none else k.interest[other]? := by
  unfold Kernel.del
  split
  · simp only [ExtTreeMap.getElem?_erase, Std.LawfulEqCmp.compare_eq_iff_eq]
  · rename_i hfd
    split
    · rename_i heq
      exact heq ▸ ExtTreeMap.getElem?_eq_none hfd
    · rfl

theorem Watched.delEvent (h : Watched s) (fd : Int) : Watched (s.delEvent fd) := by
  by_cases hfd : fd ∈ s.eventMap
  · rw [delEvent_registered hfd]
    constructor
    · intro other
      simp only [interest_del, ExtTreeMap.getElem?_erase, Std.LawfulEqCmp.compare_eq_iff_eq]
      split
      · rfl
      · exact h.masks other
    · intro other hother
      obtain ⟨hne, hold⟩ := ExtTreeMap.mem_erase.mp hother
      exact ExtTreeMap.mem_erase.mpr ⟨hne, h.called other hold⟩
  · simp only [EventPoller.delEvent, if_neg hfd]
    exact ⟨h.masks, h.called⟩

/-- `modifyEvent` of a descriptor in the interest list, and of another one. -/
theorem modifyEvent_watched (hfd : fd ∈ s.kernel.interest) :
    s.modifyEvent fd event =
      { s with
        kernel := { s.kernel with interest := s.kernel.interest.insert fd (toEpoll event) }
        frames := .modifyEvent 0 :: s.frames
        asked := s.asked.insert fd event } := by
  simp only [EventPoller.modifyEvent, Kernel.mod, if_pos hfd]
  rfl

theorem modifyEvent_unwatched (hfd : fd ∉ s.kernel.interest) :
    s.modifyEvent fd event = { s with frames := .modifyEvent (-1) :: s.frames } := by
  simp only [EventPoller.modifyEvent, Kernel.mod, if_neg hfd]
  rfl

theorem Watched.modifyEvent (h : Watched s) (fd : Int) (event : BitVec 32) :
    Watched (s.modifyEvent fd event) := by
  by_cases hfd : fd ∈ s.kernel.interest
  · rw [modifyEvent_watched hfd]
    constructor
    · intro other
      simp only [ExtTreeMap.getElem?_insert]
      split
      · rfl
      · exact h.masks other
    · intro other hother
      rcases ExtTreeMap.mem_insert.mp hother with heq | hold
      · obtain rfl := Std.LawfulEqCmp.eq_of_compare heq
        exact h.called fd (h.mem_interest.mp hfd)
      · exact h.called other hold
  · rw [modifyEvent_unwatched hfd]
    exact ⟨h.masks, h.called⟩

theorem Watched.closes (h : Watched s) (fd : Int) :
    Watched { s with kernel := s.kernel.close fd, asked := s.asked.erase fd } := by
  constructor
  · intro other
    simp only [Kernel.close, ExtTreeMap.getElem?_erase]
    split
    · rfl
    · exact h.masks other
  · exact fun other hother => h.called other (ExtTreeMap.mem_of_mem_erase hother)

theorem Watched.step {c : Call Callback} (hstep : step s c = some t) (h : Watched s) :
    Watched t := by
  cases c with
  | addEvent fd event cb refused => cases hstep; exact h.addEvent cb
  | delEvent fd => cases hstep; exact h.delEvent fd
  | modifyEvent fd event => cases hstep; exact h.modifyEvent fd event
  | complete threw =>
      simp only [EpollPoller.step, EventPoller.complete] at hstep
      split at hstep
      · cases hstep
      · split at hstep <;> cases hstep <;> exact ⟨h.masks, h.called⟩
      · cases hstep
        exact ⟨h.masks, h.called⟩
  | opens fd => cases hstep; exact ⟨h.masks, h.called⟩
  | closes fd => cases hstep; exact h.closes fd

end Calls

section Agreement

/-- The result that a call waits with. -/
def Frame.ret : Frame → Int
  | .delEvent ret => ret
  | .modifyEvent ret => ret

/-- What the innermost call reports to its completion callback and returns. -/
def reported (frames : List Frame) : List Int := (frames.head?.map Frame.ret).toList

/-- What a step of the `epoll` backend returns or reports. -/
def returned (s : EventPoller Callback) : Call Callback → List Int
  | .addEvent fd event cb refused => [(s.addEvent fd event cb refused).2]
  | .delEvent fd => reported (s.delEvent fd).frames
  | .modifyEvent fd event => reported (s.modifyEvent fd event).frames
  | .complete threw => if threw then [] else reported s.frames
  | .opens _ => []
  | .closes _ => []

/-- What a step of the `select` backend returns or reports. -/
def returnedSelect (s : SelectPoller.EventPoller Callback) :
    SelectPoller.Call Callback → List Int
  | .addEvent fd event cb => [(s.addEvent fd event cb).2]
  | .delEvent fd => reported (s.delEvent fd).frames
  | .modifyEvent fd event => reported (s.modifyEvent fd event).frames
  | .complete threw => if threw then [] else reported s.frames

/-- The call in the other backend, which knows nothing of opening and closing. -/
def Call.select? : Call Callback → Option (SelectPoller.Call Callback)
  | .addEvent fd event cb _ => some (.addEvent fd event cb)
  | .delEvent fd => some (.delEvent fd)
  | .modifyEvent fd event => some (.modifyEvent fd event)
  | .complete threw => some (.complete threw)
  | .opens _ => none
  | .closes _ => none

/-- A registration is of an open descriptor that is new and within the range of
`select`, and no registered descriptor is closed. -/
def Common (s : EventPoller Callback) : Call Callback → Prop
  | .addEvent fd _ (some _) refused =>
      refused = false ∧ fd ∈ s.kernel.opened ∧ fd < fdSetSize ∧ fd ∉ s.eventMap
  | .closes fd => fd ∉ s.eventMap
  | _ => True

instance (s : EventPoller Callback) (c : Call Callback) : Decidable (Common s c) :=
  match c with
  | .addEvent fd _ (some _) refused =>
      inferInstanceAs (Decidable (refused = false ∧ fd ∈ s.kernel.opened ∧ fd < fdSetSize ∧
        fd ∉ s.eventMap))
  | .addEvent _ _ none _ => isTrue trivial
  | .delEvent _ => isTrue trivial
  | .modifyEvent _ _ => isTrue trivial
  | .complete _ => isTrue trivial
  | .opens _ => isTrue trivial
  | .closes fd => inferInstanceAs (Decidable (fd ∉ s.eventMap))

/-- The backends hold the same registrations, and wait in the same calls. -/
structure Agree (e : EventPoller Callback) (s : SelectPoller.EventPoller Callback) : Prop where
  callBack : ∀ fd : Int,
    (e.eventMap[fd]?).map EventCallback.callBack = (s.eventMap[fd]?).map PollRecord.callBack
  asked : ∀ fd : Int, e.asked[fd]? = (s.eventMap[fd]?).map PollRecord.event
  expired : e.eventCacheExpired = s.eventCacheExpired
  fdCount : e.fdCount = s.fdCount
  frames : e.frames = s.frames

variable {e e' : EventPoller Callback} {s : SelectPoller.EventPoller Callback} {fd : Int}
  {event : BitVec 32}

theorem Agree.mem_iff (h : Agree e s) (fd : Int) : fd ∈ e.eventMap ↔ fd ∈ s.eventMap := by
  have hmap := congrArg Option.isSome (h.callBack fd)
  rw [Option.isSome_map, Option.isSome_map] at hmap
  rw [ExtTreeMap.mem_iff_isSome_getElem?, ExtTreeMap.mem_iff_isSome_getElem?, hmap]

theorem Agree.size_eq (h : Agree e s) : e.eventMap.size = s.eventMap.size :=
  size_eq_of_mem_iff h.mem_iff

/-- A descriptor is in the interest list when it has a callback. -/
theorem Agree.mem_interest (h : Agree e s) (watched : Watched e) (fd : Int) :
    fd ∈ e.kernel.interest ↔ fd ∈ s.eventMap := by
  rw [watched.mem_interest, ExtTreeMap.mem_iff_isSome_getElem?, h.asked, Option.isSome_map,
    ← ExtTreeMap.mem_iff_isSome_getElem?]

theorem Agree.addEvent (h : Agree e s) (watched : Watched e) {cb : Callback}
    (hopened : fd ∈ e.kernel.opened) (hrange : fd < fdSetSize) (hnew : fd ∉ e.eventMap) :
    Agree (e.addEvent fd event (some cb) false).1 (s.addEvent fd event (some cb)).1 ∧
      (e.addEvent fd event (some cb) false).2 = (s.addEvent fd event (some cb)).2 := by
  have hfree : fd ∉ s.eventMap := fun hmem => hnew ((h.mem_iff fd).mpr hmem)
  have hinterest : fd ∉ e.kernel.interest := fun hmem => hfree ((h.mem_interest watched fd).mp hmem)
  rw [addEvent_accepted hopened hinterest]
  simp only [SelectPoller.EventPoller.addEvent, if_neg (Int.not_le.mpr hrange)]
  have hcallBack : ∀ other : Int,
      ((e.eventMap.insertIfNew fd ⟨e.created, cb⟩)[other]?).map EventCallback.callBack =
        ((s.eventMap.insertIfNew fd ⟨s.created, fd, event, 0, cb⟩)[other]?).map
          PollRecord.callBack := by
    intro other
    rw [ExtTreeMap.getElem?_insertIfNew, ExtTreeMap.getElem?_insertIfNew]
    by_cases heq : compare fd other = .eq
    · rw [if_pos ⟨heq, hnew⟩, if_pos ⟨heq, hfree⟩]
      rfl
    · rw [if_neg fun hboth => heq hboth.1, if_neg fun hboth => heq hboth.1]
      exact h.callBack other
  refine ⟨⟨hcallBack, fun other => ?_, h.expired, ?_, h.frames⟩, trivial⟩
  · rw [ExtTreeMap.getElem?_insert, ExtTreeMap.getElem?_insertIfNew]
    by_cases heq : compare fd other = .eq
    · rw [if_pos heq, if_pos ⟨heq, hfree⟩]
      rfl
    · rw [if_neg heq, if_neg fun hboth => heq hboth.1]
      exact h.asked other
  · apply size_eq_of_mem_iff
    intro other
    rw [ExtTreeMap.mem_insertIfNew, ExtTreeMap.mem_insertIfNew, h.mem_iff other]

theorem Agree.delEvent (h : Agree e s) (watched : Watched e) (fd : Int) :
    Agree (e.delEvent fd) (s.delEvent fd) := by
  by_cases hfd : fd ∈ e.eventMap
  · have hmem := (h.mem_iff fd).mp hfd
    have hret : (e.kernel.del fd).2 = 0 := by
      rw [Kernel.del, if_pos ((h.mem_interest watched fd).mpr hmem)]
    rw [delEvent_registered hfd, hret]
    simp only [SelectPoller.EventPoller.delEvent, if_pos hmem]
    refine ⟨fun other => ?_, fun other => ?_, ?_, h.fdCount, ?_⟩
    · simp only [ExtTreeMap.getElem?_erase]
      split
      · rfl
      · exact h.callBack other
    · simp only [ExtTreeMap.getElem?_erase]
      split
      · rfl
      · exact h.asked other
    · rw [h.expired]
    · rw [h.frames]
  · have hnot : fd ∉ s.eventMap := fun hmem => hfd ((h.mem_iff fd).mpr hmem)
    simp only [EventPoller.delEvent, if_neg hfd, SelectPoller.EventPoller.delEvent, if_neg hnot]
    exact ⟨h.callBack, h.asked, h.expired, h.fdCount, by rw [h.frames]⟩

theorem Agree.modifyEvent (h : Agree e s) (watched : Watched e) (fd : Int) (event : BitVec 32) :
    Agree (e.modifyEvent fd event) (s.modifyEvent fd event) := by
  by_cases hfd : fd ∈ e.kernel.interest
  · obtain ⟨record, hrecord⟩ := ExtTreeMap.mem_iff_isSome_getElem?.mp
      ((h.mem_interest watched fd).mp hfd) |> Option.isSome_iff_exists.mp
    rw [modifyEvent_watched hfd]
    simp only [SelectPoller.EventPoller.modifyEvent, hrecord]
    refine ⟨fun other => ?_, fun other => ?_, h.expired, h.fdCount, by rw [h.frames]⟩
    · rw [h.callBack other, ExtTreeMap.getElem?_insert]
      split
      · rename_i heq
        obtain rfl := Std.LawfulEqCmp.eq_of_compare heq
        rw [hrecord]
        rfl
      · rfl
    · simp only [ExtTreeMap.getElem?_insert]
      split
      · rfl
      · exact h.asked other
  · have hnone : s.eventMap[fd]? = none :=
      ExtTreeMap.getElem?_eq_none fun hmem => hfd ((h.mem_interest watched fd).mpr hmem)
    rw [modifyEvent_unwatched hfd]
    simp only [SelectPoller.EventPoller.modifyEvent, hnone]
    exact ⟨h.callBack, h.asked, h.expired, h.fdCount, by rw [h.frames]⟩

/-- A common step of the one backend is followed by the other, with the same results. -/
theorem agree_step {c : Call Callback} (common : Common e c) (hstep : step e c = some e')
    (watched : Watched e) (h : Agree e s) :
    Followed SelectPoller.step returnedSelect Agree e' (returned e c) s c.select? := by
  cases c with
  | addEvent fd event cb refused =>
      cases hstep
      cases cb with
      | none => exact ⟨s, rfl, h, rfl⟩
      | some cb =>
          obtain ⟨rfl, hopened, hrange, hnew⟩ := common
          obtain ⟨hagree, hret⟩ := @Agree.addEvent _ _ _ _ event h watched cb hopened hrange hnew
          exact ⟨_, rfl, hagree, by simp only [returned, returnedSelect, hret]⟩
  | delEvent fd =>
      cases hstep
      have hagree := h.delEvent watched fd
      exact ⟨_, rfl, hagree, by simp only [returned, returnedSelect, hagree.frames]⟩
  | modifyEvent fd event =>
      cases hstep
      have hagree := h.modifyEvent watched fd event
      exact ⟨_, rfl, hagree, by simp only [returned, returnedSelect, hagree.frames]⟩
  | complete threw =>
      have hshown : returned e (.complete threw) = returnedSelect s (.complete threw) := by
        simp only [returned, returnedSelect, h.frames]
      simp only [step, EventPoller.complete] at hstep
      cases hframes : e.frames with
      | nil => simp [hframes] at hstep
      | cons frame frames =>
          have hframes' : s.frames = frame :: frames := h.frames.symm.trans hframes
          simp only [hframes] at hstep
          simp only [Call.select?, Followed, SelectPoller.step, SelectPoller.EventPoller.complete,
            hframes']
          cases frame with
          | modifyEvent ret =>
              cases hstep
              exact ⟨_, rfl, ⟨h.callBack, h.asked, h.expired, h.fdCount, rfl⟩, hshown⟩
          | delEvent ret =>
              cases threw with
              | true =>
                  cases hstep
                  exact ⟨_, rfl, ⟨h.callBack, h.asked, h.expired, h.fdCount, rfl⟩, hshown⟩
              | false =>
                  cases hstep
                  exact ⟨_, rfl, ⟨h.callBack, h.asked, h.expired, h.size_eq, rfl⟩, hshown⟩
  | opens fd =>
      cases hstep
      exact ⟨⟨h.callBack, h.asked, h.expired, h.fdCount, h.frames⟩, rfl⟩
  | closes fd =>
      cases hstep
      refine ⟨⟨h.callBack, fun other => ?_, h.expired, h.fdCount, h.frames⟩, rfl⟩
      simp only [ExtTreeMap.getElem?_erase, Std.LawfulEqCmp.compare_eq_iff_eq]
      split
      · rename_i heq
        obtain rfl := heq
        rw [ExtTreeMap.getElem?_eq_none fun hmem => common ((h.mem_iff fd).mpr hmem)]
        rfl
      · exact h.asked other

theorem agree_init (opened : Finset Int) :
    Agree (init Callback opened) (SelectPoller.init Callback) where
  callBack := by simp [init, SelectPoller.init]
  asked := by simp [init, SelectPoller.init]
  expired := rfl
  fdCount := rfl
  frames := rfl

/-- Whatever the poller's thread calls, in completion callbacks too, the two backends
return and report the same and end with the same registrations, those of the kernel
included. -/
theorem backends_agree (opened : Finset Int) (cs : List (Call Callback))
    (e : EventPoller Callback) (run : Run step Common (init Callback opened) cs e) :
    ∃ s, Run SelectPoller.step anyStep (SelectPoller.init Callback)
        (cs.filterMap Call.select?) s ∧ Agree e s ∧
      (∀ fd : Int, e.kernel.interest[fd]? =
        (s.eventMap[fd]?).map fun record => toEpoll record.event) ∧
      outputs step returned (init Callback opened) cs =
        outputs SelectPoller.step returnedSelect (SelectPoller.init Callback)
          (cs.filterMap Call.select?) := by
  obtain ⟨s, hrun, ⟨watched, hagree⟩, houtputs⟩ := run.lockstep
    (R := fun e s => Watched e ∧ Agree e s)
    (fun _ _ _ _ common hstep h =>
      (agree_step common hstep h.1 h.2).imp fun _ hagree => ⟨h.1.step hstep, hagree⟩)
    ⟨watched_init opened, agree_init opened⟩
  refine ⟨s, hrun, hagree, fun fd => ?_, houtputs⟩
  rw [watched.masks, hagree.asked, Option.map_map]
  rfl

/-- A descriptor is watched for reading, then for writing, and no longer. -/
def watchedTwice : List (Call Nat) :=
  [.addEvent 3 1 (some 0) false, .modifyEvent 3 2, .complete false, .delEvent 3, .complete true,
    .closes 3]

theorem backends_agree_watchedTwice :
    ∃ e s, Run step Common (init Nat {3}) watchedTwice e ∧ Agree e s ∧
      outputs SelectPoller.step returnedSelect (SelectPoller.init Nat)
        (watchedTwice.filterMap Call.select?) = [0, 0, 0, 0] := by
  have run : Run step Common (init Nat {3}) watchedTwice _ :=
    Run.next (by decide) rfl <| Run.next trivial rfl <| Run.next trivial rfl <|
      Run.next trivial rfl <| Run.next trivial rfl <| Run.next (by decide) rfl Run.halt
  obtain ⟨s, _, hagree, _, houtputs⟩ := backends_agree {3} watchedTwice _ run
  exact ⟨_, s, run, hagree, houtputs.symm.trans (by decide)⟩

end Agreement

end FFZKit.Poller.EpollPoller
