import FFZKit.Foundations.History
import FFZKit.Foundations.MapList
import FFZKit.Poller.PollRound

/-!
# Which records a round invokes

The list that a round walks holds one record for each fd that was ready when
the sets were read. `event_cache_expired_` holds the fds that were deleted since
then, so a record is passed over exactly when its fd was deleted before its
turn. A record made during the round is never in the list.
-/

namespace FFZKit.Poller.PollRound

open FFZKit.Foundations.History FFZKit.Foundations.Transition
open FFZKit.Poller.SelectPoller
open Std (ExtTreeMap)

variable {Callback : Type*}

/-- The record of `fd` as it joins `callback_list`, if `fd` has a ready event. -/
def readyRecord (ready : FdSets) (eventMap : ExtTreeMap Int (PollRecord Callback) compare)
    (fd : Int) : Option (PollRecord Callback) :=
  match eventMap[fd]? with
  | none => none
  | some record =>
      if ready.mask fd = 0#32 then none else some { record with attach := ready.mask fd }

theorem readyRecord_eq_some {ready : FdSets}
    {eventMap : ExtTreeMap Int (PollRecord Callback) compare} {fd : Int}
    {record : PollRecord Callback} :
    readyRecord ready eventMap fd = some record ↔
      ready.mask fd ≠ 0#32 ∧ ∃ old, eventMap[fd]? = some old ∧
        record = { old with attach := ready.mask fd } := by
  unfold readyRecord
  cases eventMap[fd]? with
  | none => simp
  | some old =>
      by_cases hmask : ready.mask fd = 0#32
      · simp [hmask]
      · simp [hmask, eq_comm]

/-- Walking the map in an order without repetitions collects the ready record
of every fd of the order. -/
theorem collect_callbackList (ready : FdSets) {order : List Int} (hnodup : order.Nodup)
    (eventMap : ExtTreeMap Int (PollRecord Callback) compare)
    (callbackList : List (PollRecord Callback)) :
    (collect ready order eventMap callbackList).2 =
      callbackList ++ order.filterMap (readyRecord ready eventMap) := by
  induction order generalizing eventMap callbackList with
  | nil => simp [collect]
  | cons fd order ih =>
      obtain ⟨hfd, hnodup⟩ := List.nodup_cons.mp hnodup
      cases hrecord : eventMap[fd]? with
      | none => simp [collect, readyRecord, hrecord, ih hnodup]
      | some record =>
          by_cases hmask : ready.mask fd = 0#32
          · simp [collect, readyRecord, hrecord, hmask, ih hnodup]
          · have hrest : order.filterMap (readyRecord ready
                (eventMap.insert fd { record with attach := ready.mask fd })) =
                  order.filterMap (readyRecord ready eventMap) := by
              apply List.filterMap_congr
              intro other hother
              have hne : ¬ compare fd other = .eq := by
                intro heq
                exact hfd (Std.LawfulEqCmp.eq_of_compare heq ▸ hother)
              simp only [readyRecord, ExtTreeMap.getElem?_insert, if_neg hne]
            simp [collect, readyRecord, hrecord, hmask, ih hnodup, hrest]

/-- Collecting changes nothing of a record but the mask it notes. -/
theorem collect_eventMap {ready : FdSets} {order : List Int}
    {eventMap : ExtTreeMap Int (PollRecord Callback) compare}
    {callbackList : List (PollRecord Callback)} {fd : Int} {record : PollRecord Callback}
    (h : (collect ready order eventMap callbackList).1[fd]? = some record) :
    ∃ old, eventMap[fd]? = some old ∧ record.fd = old.fd ∧ record.serial = old.serial := by
  induction order generalizing eventMap callbackList with
  | nil => exact ⟨record, h, rfl, rfl⟩
  | cons other order ih =>
      simp only [collect] at h
      split at h
      · exact ih h
      · rename_i found hfound
        split at h
        · exact ih h
        · obtain ⟨old, hold, hfd, hserial⟩ := ih h
          rw [ExtTreeMap.getElem?_insert] at hold
          split at hold
          · rename_i heq
            obtain rfl := Std.LawfulEqCmp.eq_of_compare heq
            cases hold
            exact ⟨found, hfound, hfd, hserial⟩
          · exact ⟨old, hold, hfd, hserial⟩

/-- What `addEvent` keeps of the map: a record is under its own fd, and was made
before the next one. -/
structure WellFormed (s : EventPoller Callback) : Prop where
  fd : ∀ (fd : Int) (record : PollRecord Callback),
    s.eventMap[fd]? = some record → record.fd = fd
  serial : ∀ (fd : Int) (record : PollRecord Callback),
    s.eventMap[fd]? = some record → record.serial < s.created

theorem wellFormed_init : WellFormed (SelectPoller.init Callback) where
  fd := by simp [SelectPoller.init]
  serial := by simp [SelectPoller.init]

theorem WellFormed.addEvent {s : EventPoller Callback} (h : WellFormed s) (fd : Int)
    (event : BitVec 32) (cb : Option Callback) : WellFormed (s.addEvent fd event cb).1 := by
  unfold EventPoller.addEvent
  split
  · exact h
  · split
    · exact h
    · constructor
      · intro other record hrecord
        rw [ExtTreeMap.getElem?_insertIfNew] at hrecord
        split at hrecord
        · rename_i heq
          cases hrecord
          exact Std.LawfulEqCmp.eq_of_compare heq.1
        · exact h.fd other record hrecord
      · intro other record hrecord
        rw [ExtTreeMap.getElem?_insertIfNew] at hrecord
        split at hrecord
        · cases hrecord
          exact Nat.lt_succ_self _
        · exact (h.serial other record hrecord).trans (Nat.lt_succ_self _)

theorem WellFormed.delEvent {s : EventPoller Callback} (h : WellFormed s) (fd : Int) :
    WellFormed (s.delEvent fd) := by
  unfold EventPoller.delEvent
  split
  · have hold : ∀ (other : Int) (record : PollRecord Callback),
        (s.eventMap.erase fd)[other]? = some record →
        s.eventMap[other]? = some record := by
      intro other record hrecord
      rw [ExtTreeMap.getElem?_erase] at hrecord
      split at hrecord
      · cases hrecord
      · exact hrecord
    exact ⟨fun other record hrecord => h.fd other record (hold other record hrecord),
      fun other record hrecord => h.serial other record (hold other record hrecord)⟩
  · exact ⟨h.fd, h.serial⟩

theorem WellFormed.modifyEvent {s : EventPoller Callback} (h : WellFormed s) (fd : Int)
    (event : BitVec 32) : WellFormed (s.modifyEvent fd event) := by
  unfold EventPoller.modifyEvent
  split
  · rename_i found hfound
    have hold : ∀ (other : Int) (record : PollRecord Callback),
        (s.eventMap.insert fd { found with event := event })[other]? = some record →
          ∃ old, s.eventMap[other]? = some old ∧ record.fd = old.fd ∧
            record.serial = old.serial := by
      intro other record hrecord
      rw [ExtTreeMap.getElem?_insert] at hrecord
      split at hrecord
      · rename_i heq
        obtain rfl := Std.LawfulEqCmp.eq_of_compare heq
        cases hrecord
        exact ⟨found, hfound, rfl, rfl⟩
      · exact ⟨record, hrecord, rfl, rfl⟩
    constructor
    · intro other record hrecord
      obtain ⟨old, hget, hfd, _⟩ := hold other record hrecord
      exact hfd.trans (h.fd other old hget)
    · intro other record hrecord
      obtain ⟨old, hget, _, hserial⟩ := hold other record hrecord
      exact hserial.trans_lt (h.serial other old hget)
  · exact ⟨h.fd, h.serial⟩

theorem WellFormed.step {s t : EventPoller Callback} {c : Call Callback} (h : WellFormed s)
    (hstep : SelectPoller.step s c = some t) : WellFormed t := by
  cases c with
  | addEvent fd event cb => cases hstep; exact h.addEvent fd event cb
  | delEvent fd => cases hstep; exact h.delEvent fd
  | modifyEvent fd event => cases hstep; exact h.modifyEvent fd event
  | complete threw =>
      simp only [SelectPoller.step, EventPoller.complete] at hstep
      split at hstep
      · cases hstep
      · split at hstep <;> cases hstep <;> exact ⟨h.fd, h.serial⟩
      · cases hstep
        exact ⟨h.fd, h.serial⟩

/-- A call expires the fds it erases and gives a new record the next number. -/
theorem call_effect {s t : EventPoller Callback} {c : Call Callback}
    (h : SelectPoller.step s c = some t) :
    (∀ fd, fd ∈ t.eventCacheExpired ↔ fd ∈ s.eventCacheExpired ∨ .deleted fd ∈ noted s c) ∧
      s.created ≤ t.created ∧ ∀ n, .added n ∈ noted s c → n = s.created := by
  cases c with
  | addEvent fd event cb =>
      cases h
      cases cb with
      | none => simp [EventPoller.addEvent, noted]
      | some cb =>
          by_cases hlarge : fdSetSize ≤ fd
          · simp [EventPoller.addEvent, noted, hlarge]
          · by_cases hfd : fd ∈ s.eventMap <;> simp [EventPoller.addEvent, noted, hlarge, hfd]
  | delEvent fd =>
      cases h
      by_cases hfd : fd ∈ s.eventMap
      · simp [EventPoller.delEvent, noted, hfd, or_comm]
      · simp [EventPoller.delEvent, noted, hfd]
  | modifyEvent fd event =>
      cases h
      unfold EventPoller.modifyEvent
      split <;> simp [noted]
  | complete threw =>
      simp only [SelectPoller.step, EventPoller.complete] at h
      split at h
      · cases h
      · split at h <;> cases h <;> simp [noted]
      · cases h
        simp [noted]

/-- The records that were invoked or passed over, in the order of their turns. -/
def dispatched (trace : List (RoundEvent Callback)) : List (PollRecord Callback) :=
  trace.filterMap fun
    | .invoked record => some record
    | .skipped record => some record
    | _ => none

@[simp] theorem dispatched_append (front back : List (RoundEvent Callback)) :
    dispatched (front ++ back) = dispatched front ++ dispatched back := by
  simp [dispatched]

@[simp] theorem dispatched_noted (s : EventPoller Callback) (c : Call Callback) :
    dispatched (noted s c) = [] := by
  unfold noted
  split
  · split <;> rfl
  · split <;> rfl
  · rfl

/-- The fate of a record is right after the events before its turn. -/
def Fated (front : List (RoundEvent Callback)) : RoundEvent Callback → Prop
  | .invoked record => .deleted record.fd ∉ front
  | .skipped record => .deleted record.fd ∈ front
  | _ => True

/-- A call decides about no record. -/
theorem fated_noted {s : EventPoller Callback} {c : Call Callback} :
    ∀ event ∈ noted s c, ∀ front, Fated front event := by
  intro event hevent front
  unfold noted at hevent
  split at hevent
  · split at hevent
    · cases hevent
    · cases List.mem_singleton.mp hevent
      trivial
  · split at hevent
    · cases List.mem_singleton.mp hevent
      trivial
    · cases hevent
  · cases hevent

/-- What holds in a round. The dispatched records and the rest of the list are
the ready records of the map as the round found it. -/
structure RoundInv (s : Loop Callback) : Prop where
  wellFormed : WellFormed s.poller
  old : ∀ (fd : Int) (record : PollRecord Callback),
    s.registered[fd]? = some record → record.fd = fd ∧ record.serial < s.fresh
  collected : ∃ order : List Int, order.Perm s.registered.keys ∧
    dispatched s.trace ++ s.callbackList = order.filterMap (readyRecord s.ready s.registered)
  expired : s.phase ≠ .timers →
    ∀ fd, fd ∈ s.poller.eventCacheExpired ↔ .deleted fd ∈ s.trace
  decided : Throughout Fated s.trace
  created : s.fresh ≤ s.poller.created
  fresh : ∀ n, .added n ∈ s.trace → s.fresh ≤ n
  idle : s.phase = .timers → s.callbackList = []

theorem roundInv_enter {poller : EventPoller Callback} (h : WellFormed poller) :
    RoundInv (Loop.enter poller) where
  wellFormed := h
  old := by simp [Loop.enter]
  collected := ⟨[], by simp [Loop.enter], by simp [Loop.enter, dispatched]⟩
  expired := fun hphase => (hphase rfl).elim
  decided := throughout_nil
  created := Nat.zero_le _
  fresh := by simp [Loop.enter]
  idle := fun _ => rfl

theorem RoundInv.called {s : Loop Callback} (h : RoundInv s) {c : Call Callback}
    {t : EventPoller Callback} (hstep : SelectPoller.step s.poller c = some t) :
    RoundInv (s.called c t) := by
  obtain ⟨hexpired, hcreated, hadded⟩ := call_effect hstep
  refine ⟨h.wellFormed.step hstep, h.old, ?_, fun hphase fd => ?_, h.decided.append fated_noted,
    h.created.trans hcreated, fun n hn => ?_, h.idle⟩
  · simpa [Loop.called] using h.collected
  · simp only [Loop.called, List.mem_append]
    rw [hexpired, h.expired hphase]
  · rcases List.mem_append.mp hn with hold | hnew
    · exact h.fresh n hold
    · exact hadded n hnew ▸ h.created

theorem RoundInv.select {s : Loop Callback} (h : RoundInv s) (hphase : s.phase = .timers)
    {ready : FdSets} {order : List Int} (horder : order.Perm s.poller.eventMap.keys) :
    RoundInv (s.select ready order) := by
  have hnodup : order.Nodup := horder.nodup_iff.mpr ExtTreeMap.nodup_keys
  have hlist := collect_callbackList ready hnodup s.poller.eventMap s.callbackList
  rw [h.idle hphase, List.nil_append] at hlist
  refine ⟨⟨fun fd record hrecord => ?_, fun fd record hrecord => ?_⟩, fun fd record hrecord => ?_,
    ⟨order, horder, ?_⟩, fun _ fd => ?_, throughout_nil, le_rfl, nofun, nofun⟩
  · obtain ⟨old, hold, hfd, _⟩ := collect_eventMap hrecord
    exact hfd.trans (h.wellFormed.fd fd old hold)
  · obtain ⟨old, hold, _, hserial⟩ := collect_eventMap hrecord
    exact hserial.trans_lt (h.wellFormed.serial fd old hold)
  · exact ⟨h.wellFormed.fd fd record hrecord, h.wellFormed.serial fd record hrecord⟩
  · simpa [Loop.select, dispatched, h.idle hphase] using hlist
  · simp [Loop.select]

theorem RoundInv.dispatch {s : Loop Callback} (h : RoundInv s) (hphase : s.phase = .dispatching) :
    RoundInv s.dispatch := by
  have hexpired := h.expired (by rw [hphase]; nofun)
  unfold Loop.dispatch
  split
  · rename_i hnone
    exact ⟨h.wellFormed, h.old, h.collected, fun hne => (hne rfl).elim, h.decided, h.created,
      h.fresh, fun _ => hnone⟩
  · rename_i record rest hlist
    have hcollected := h.collected
    rw [hlist] at hcollected
    split
    · rename_i hfd
      refine ⟨h.wellFormed, h.old, ?_, fun _ fd => ?_, h.decided.snoc ((hexpired _).mp hfd),
        h.created, fun n hn => ?_, fun hidle => ?_⟩
      · simpa [dispatched] using hcollected
      · simpa using hexpired fd
      · exact h.fresh n (by simpa using hn)
      · rw [hphase] at hidle
        cases hidle
    · rename_i hfd
      refine ⟨h.wellFormed, h.old, ?_, fun _ fd => ?_,
        h.decided.snoc fun hdeleted => hfd ((hexpired _).mpr hdeleted),
        h.created, fun n hn => ?_, nofun⟩
      · simpa [dispatched] using hcollected
      · simpa using hexpired fd
      · exact h.fresh n (by simpa using hn)

theorem roundInv_step {s t : Loop Callback} {a : Action Callback} (hstep : step s a = some t)
    (h : RoundInv s) : RoundInv t := by
  cases a with
  | call c =>
      simp only [step] at hstep
      split at hstep
      · cases hstep
      · obtain ⟨poller, hpoller, rfl⟩ := Option.map_eq_some_iff.mp hstep
        exact h.called hpoller
  | select ready order =>
      simp only [step] at hstep
      split at hstep
      · cases hstep
        exact h
      · rename_i hphase _
        simp only [Option.ite_none_right_eq_some, Option.some.injEq] at hstep
        obtain ⟨⟨_, horder⟩, rfl⟩ := hstep
        exact h.select hphase horder
      · cases hstep
  | dispatch =>
      simp only [step] at hstep
      split at hstep
      · rename_i hphase
        cases hstep
        exact h.dispatch hphase
      · cases hstep
  | finish threw =>
      simp only [step] at hstep
      split at hstep
      · rename_i hphase _
        cases hstep
        exact ⟨h.wellFormed, h.old, h.collected, fun _ => h.expired (by rw [hphase]; nofun),
          h.decided, h.created, h.fresh, nofun⟩
      · cases hstep

/-- What a round owes the records, in terms of its events in order. A record
carries the mask that its callback is given. -/
structure RoundCorrect (s : Loop Callback) : Prop where
  invoked : ∀ front record back, s.trace = front ++ .invoked record :: back →
    .deleted record.fd ∉ front
  skipped : ∀ front record back, s.trace = front ++ .skipped record :: back →
    .deleted record.fd ∈ front
  ready : ∀ record ∈ dispatched s.trace,
    (∃ old, s.registered[record.fd]? = some old ∧
      record = { old with attach := s.ready.mask record.fd }) ∧
    s.ready.mask record.fd ≠ 0#32
  once : ((dispatched s.trace).map PollRecord.fd).Nodup
  added : ∀ n, .added n ∈ s.trace → ∀ record ∈ dispatched s.trace, record.serial ≠ n
  all : s.phase = .timers → ∀ fd ∈ s.registered, s.ready.mask fd ≠ 0#32 →
    ∃ record ∈ dispatched s.trace, record.fd = fd

/-- The fds of the collected records stand in the order of the walk. -/
theorem map_fd_sublist {ready : FdSets} {eventMap : ExtTreeMap Int (PollRecord Callback) compare}
    (h : ∀ (fd : Int) (record : PollRecord Callback),
      eventMap[fd]? = some record → record.fd = fd) (order : List Int) :
    ((order.filterMap (readyRecord ready eventMap)).map PollRecord.fd).Sublist order := by
  induction order with
  | nil => exact List.Sublist.refl _
  | cons fd order ih =>
      rw [List.filterMap_cons]
      split
      · exact ih.cons fd
      · rename_i record hrecord
        obtain ⟨_, old, hold, rfl⟩ := readyRecord_eq_some.mp hrecord
        rw [List.map_cons]
        simp only [h fd old hold]
        exact ih.cons_cons fd

theorem RoundInv.correct {s : Loop Callback} (h : RoundInv s) : RoundCorrect s := by
  obtain ⟨order, horder, hcollected⟩ := h.collected
  have hfd : ∀ (fd : Int) (record : PollRecord Callback),
      s.registered[fd]? = some record → record.fd = fd :=
    fun fd record hrecord => (h.old fd record hrecord).1
  have hready : ∀ record ∈ dispatched s.trace, s.ready.mask record.fd ≠ 0#32 ∧
      ∃ old, s.registered[record.fd]? = some old ∧
        record = { old with attach := s.ready.mask record.fd } := by
    intro record hrecord
    have hmem : record ∈ order.filterMap (readyRecord s.ready s.registered) := by
      rw [← hcollected]
      exact List.mem_append_left _ hrecord
    obtain ⟨fd, _, hsome⟩ := List.mem_filterMap.mp hmem
    obtain ⟨hmask, old, hold, rfl⟩ := readyRecord_eq_some.mp hsome
    obtain rfl := hfd fd old hold
    exact ⟨hmask, old, hold, rfl⟩
  refine ⟨fun front record back => h.decided front _ back,
    fun front record back => h.decided front _ back,
    fun record hrecord => (hready record hrecord).symm, ?_, fun n hn record hrecord => ?_,
    fun hphase fd hmem hmask => ?_⟩
  · have hall : ((dispatched s.trace ++ s.callbackList).map PollRecord.fd).Nodup := by
      rw [hcollected]
      exact (map_fd_sublist hfd order).nodup (horder.nodup_iff.mpr ExtTreeMap.nodup_keys)
    rw [List.map_append] at hall
    exact (List.nodup_append.mp hall).1
  · obtain ⟨_, old, hold, hrecord⟩ := hready record hrecord
    have hserial : record.serial = old.serial := by rw [hrecord]
    have hlt := (h.old record.fd old hold).2
    have hle := h.fresh n hn
    omega
  · rw [h.idle hphase, List.append_nil] at hcollected
    obtain ⟨old, hold⟩ := Option.isSome_iff_exists.mp (ExtTreeMap.mem_iff_isSome_getElem?.mp hmem)
    refine ⟨{ old with attach := s.ready.mask fd }, ?_, hfd fd old hold⟩
    rw [hcollected]
    apply List.mem_filterMap.mpr
    exact ⟨fd, horder.mem_iff.mpr (ExtTreeMap.mem_keys.mpr hmem),
      readyRecord_eq_some.mpr ⟨hmask, old, hold, rfl⟩⟩

/-- In every round, whatever the callbacks do, a record is invoked at most once,
with the mask of its ready events, if it was registered and ready when the sets
were read, and passed over instead exactly when its fd was deleted earlier in
the round; a record made in the round is not invoked, and at the end of the
round every ready record has had its turn. -/
theorem round_correct {poller : EventPoller Callback} (h : WellFormed poller)
    {as : List (Action Callback)} {s : Loop Callback}
    (run : Run step anyStep (Loop.enter poller) as s) : RoundCorrect s :=
  (run.invariant (fun _ _ _ _ hstep => roundInv_step hstep) (roundInv_enter h)).correct

/-- Three fds are ready. The callback of fd 5 deletes fd 3 and registers it
again, and throws; then the old record of fd 3 has its turn. -/
def reusedFd : List (Action Nat) :=
  [.call (.addEvent 3 1 (some 0)), .call (.addEvent 4 3 (some 1)),
    .call (.addEvent 5 1 (some 2)), .select (some ⟨{3, 4, 5}, {4}, ∅⟩) [5, 3, 4], .dispatch,
    .call (.delEvent 3), .call (.complete false), .call (.addEvent 3 1 (some 3)), .finish true,
    .dispatch, .dispatch, .finish false, .dispatch]

theorem round_correct_reusedFd :
    ∃ s, exec step (Loop.enter (SelectPoller.init Nat)) reusedFd = some s ∧
      s.trace = [.invoked ⟨2, 5, 1, 1, 2⟩, .deleted 3, .added 3, .skipped ⟨0, 3, 1, 1, 0⟩,
        .invoked ⟨1, 4, 3, 3, 1⟩] ∧ RoundCorrect s := by
  refine ⟨_, rfl, by decide, ?_⟩
  have run : Run step anyStep (Loop.enter (SelectPoller.init Nat)) reusedFd _ :=
    run_of_exec rfl fun _ _ _ => trivial
  exact round_correct wellFormed_init run

end FFZKit.Poller.PollRound
