import FFZKit.Foundations.MapList
import FFZKit.Win32.WepollSound

/-!
# What the sections of a port keep

Each function of a port is defined on every sound port, so it fails no assertion
and touches no memory that is not allocated, and it leaves a sound port whose
registered sockets are covered or on the update queue. What the user watches
changes only where the user changes it or a socket was closed.
-/

namespace FFZKit.Win32.Wepoll

open FFZKit.Foundations

/-- What the user watches at an address: the socket, its events and its data. -/
structure Watch where
  key : Nat
  events : UInt32
  data : Nat
  deriving DecidableEq, Repr

/-- The event tells of something that is watched, with the data of the user. -/
def Tells (w : Watch) (ev : EpollEvent) : Prop :=
  ev.data = w.data ∧ ev.events ≠ 0 ∧ ev.events &&& w.events = ev.events

/-- What is watched after a report: nothing when it was to be reported once. -/
def Watch.reported (w : Watch) : Watch :=
  if w.events &&& EPOLLONESHOT ≠ 0 then { w with events := 0 } else w

def SockState.watch (c : SockState) : Option Watch :=
  if c.deletePending then none else some ⟨c.key, c.userEvents, c.userData⟩

/-- The event that a `sock_state_t` tells of when its packet is looked at. -/
def SockState.tells (c : SockState) : Option EpollEvent :=
  if c.deletePending then none
  else
    (Port.completedEvents c).bind fun epollEvents =>
      if epollEvents &&& c.userEvents = 0 then none
      else some ⟨epollEvents &&& c.userEvents, c.userData⟩

namespace Port

variable {p p' p'' : Port} {packets : List Nat} {a b : Nat} {c c' : SockState} {ans : Answers}

def watch (p : Port) (a : Nat) : Option Watch := (p.socks.get? a).bind SockState.watch

def tells (p : Port) (a : Nat) : Option EpollEvent := (p.socks.get? a).bind SockState.tells

theorem watch_of_kept (hc : p.socks.get? a = some c) (hkept : c.deletePending = false) :
    p.watch a = some ⟨c.key, c.userEvents, c.userData⟩ := by
  simp only [watch, hc, Option.bind_some, SockState.watch, hkept, Bool.false_eq_true, if_false]

/-- Nothing else is watched than before, and what is watched no more was closed. -/
def Loses (closed : Nat → Prop) (p p' : Port) : Prop :=
  ∀ a, p'.watch a = p.watch a ∨ (p'.watch a = none ∧ closed a)

theorem Loses.refl (closed : Nat → Prop) (p : Port) : Loses closed p p := fun _ => Or.inl rfl

theorem Loses.trans {closed : Nat → Prop} (h : Loses closed p p') (h' : Loses closed p' p'') :
    Loses closed p p'' := by
  intro a
  rcases h' a with hsame | hlost
  · rcases h a with hsame' | ⟨hnone, hclosed⟩
    · exact Or.inl (hsame.trans hsame')
    · exact Or.inr ⟨hsame.trans hnone, hclosed⟩
  · exact Or.inr hlost

theorem Loses.imp {closed closed' : Nat → Prop} (h : Loses closed p p')
    (himp : ∀ a, closed a → closed' a) : Loses closed' p p' :=
  fun a => (h a).imp_right fun hlost => ⟨hlost.1, himp a hlost.2⟩

theorem watch_store_of_ne (p : Port) (c : SockState) (hb : b ≠ a) :
    (p.store a c).watch b = p.watch b := by
  simp only [watch, Port.store, Heap.get?_write_of_ne _ hb]

theorem watch_store_self (p : Port) (a : Nat) (c : SockState) :
    (p.store a c).watch a = c.watch := by
  simp only [watch, Port.store, Heap.get?_write_self, Option.bind_some]

/-- Writing a `sock_state_t` that is watched alike changes nothing for the user. -/
theorem watch_store (hc : p.socks.get? a = some c) (hwatch : c'.watch = c.watch) (b : Nat) :
    (p.store a c').watch b = p.watch b := by
  by_cases hb : b = a
  · subst hb
    rw [watch_store_self, hwatch]
    simp only [watch, hc, Option.bind_some]
  · exact watch_store_of_ne p c' hb

theorem Removes.watch_of_ne {key : Nat} (h : Removes p p' a key) (hb : b ≠ a) :
    p'.watch b = p.watch b := by
  simp only [watch, h.others b hb]

theorem Removes.watch_self {key : Nat} (h : Removes p p' a key) : p'.watch a = none := by
  unfold watch
  cases hc : p'.socks.get? a with
  | none => rfl
  | some c => simp [SockState.watch, h.here c hc]

theorem Removes.loses {key : Nat} (h : Removes p p' a key) : Loses (fun b => b = a) p p' := by
  intro b
  by_cases hb : b = a
  · exact Or.inr ⟨hb ▸ h.watch_self, hb⟩
  · exact Or.inl (h.watch_of_ne hb)

@[simp] theorem cancelSocketUpdate_socks (p : Port) (a : Nat) :
    (p.cancelSocketUpdate a).socks = p.socks := by
  rw [cancelSocketUpdate_eq]
  rfl

@[simp] theorem cancelSocketUpdate_active (p : Port) (a : Nat) :
    (p.cancelSocketUpdate a).activePollCount = p.activePollCount := by
  rw [cancelSocketUpdate_eq]
  rfl

theorem cancelSocketUpdate_head {rest : List Nat} (hqueue : p.sockUpdateQueue = a :: rest) :
    (p.cancelSocketUpdate a).sockUpdateQueue = rest := by
  rw [cancelSocketUpdate_eq, queueRemove]
  simp only [hqueue, List.erase_cons_head]

@[simp] theorem requestSocketUpdate_socks (p : Port) (a : Nat) :
    (p.requestSocketUpdate a).socks = p.socks := by
  unfold requestSocketUpdate
  split <;> rfl

@[simp] theorem requestSocketUpdate_active (p : Port) (a : Nat) :
    (p.requestSocketUpdate a).activePollCount = p.activePollCount := by
  unfold requestSocketUpdate
  split <;> rfl

theorem CoversBut.weaken (h : CoversBut none p) (x : Option Nat) : CoversBut x p :=
  fun a c _ hc hkept => h a c (by simp) hc hkept

/-- Only the socket at one address may be uncovered by writing there. -/
theorem CoversBut.store (h : CoversBut (some a) p) (c' : SockState) :
    CoversBut (some a) (p.store a c') := by
  intro b d hb hd hkept
  have hne : b ≠ a := fun heq => hb (heq ▸ rfl)
  rw [Port.store, Heap.get?_write_of_ne _ hne] at hd
  exact h b d hb hd hkept

/-- One that is on the update queue is not missing. -/
theorem CoversBut.of_queued (h : CoversBut (some a) p) (hqueued : a ∈ p.sockUpdateQueue) :
    CoversBut none p := by
  intro b d _ hd hkept
  by_cases hb : b = a
  · exact Or.inr (hb ▸ hqueued)
  · exact h b d (by simpa using Ne.symm hb) hd hkept

/-- A poll is submitted for a registered socket that has none. -/
theorem Sound.submit (h : Sound p packets) (hc : p.socks.get? a = some c)
    (hkept : c.deletePending = false) (hidle : c.pollStatus = .idle)
    (hkey : c'.key = c.key) (hgroup : c'.pollGroup = c.pollGroup)
    (hkept' : c'.deletePending = false) (hbusy : c'.pollStatus ≠ .idle) (hasks : c'.Asks) :
    Sound (p.submit a c') packets := by
  obtain ⟨busy, tree, deleted⟩ := h.live hc hkept
  have hfresh : a ∉ p.submitted ++ packets := fun hmem => busy.mp hmem hidle
  refine ⟨List.nodup_cons.mpr ⟨hfresh, h.outstanding⟩, h.keys, h.updating, h.deleted, ?_,
    h.fits_of_onlyAt (a := a) ?_ ?_⟩
  · have heq : load (p.socks.write a c') = load p.socks := funext (load_write p.socks hc hgroup)
    simp only [Port.submit]
    rw [heq]
    exact h.groups
  · intro b hb
    exact ⟨Heap.get?_write_of_ne _ hb, by simp [Port.submit, hb], by simp [Port.submit, hb],
      fun _ => Iff.rfl, Iff.rfl, Iff.rfl⟩
  · refine .live c' (Heap.get?_write_self _ _ _) hkept' ?_ ?_ deleted fun _ => hasks
    · simp [Port.submit, hbusy]
    · intro k
      rw [hkey]
      exact tree k

/-- The system refuses neither a poll nor the cancelling of one. -/
def Able (ans : Answers) : Prop := ∀ a, ans.afdPoll a ≠ .failed ∧ ans.cancelIo a = true

/-- What updates leave: a socket is lost only when its poll finds it closed. -/
structure Updated (ans : Answers) (packets : List Nat) (p p' : Port) : Prop where
  sound : Sound p' packets
  covers : CoversBut none p'
  active : p'.activePollCount = p.activePollCount
  loses : Loses (fun b => ans.afdPoll b = .closed) p p'

theorem Updated.refl (h : Sound p packets) (hcovers : CoversBut none p) (ans : Answers) :
    Updated ans packets p p :=
  ⟨h, hcovers, rfl, Loses.refl _ p⟩

theorem Updated.trans (h : Updated ans packets p p') (h' : Updated ans packets p' p'') :
    Updated ans packets p p'' :=
  ⟨h'.sound, h'.covers, h'.active.trans h.active, h.loses.trans h'.loses⟩

/-- A socket that is covered now leaves the queue. -/
theorem Sound.unqueue_updated (h : Sound p' packets) (hcovers : CoversBut (some a) p')
    (hc : p'.socks.get? a = some c) (hkept : c.deletePending = false) (hcovered : c.Covered)
    (hactive : p'.activePollCount = p.activePollCount) (hwatch : ∀ b, p'.watch b = p.watch b) :
    Updated ans packets p (p'.cancelSocketUpdate a) where
  sound := h.unqueue hc hkept
  covers := hcovers.unqueue hc hcovered
  active := by rw [cancelSocketUpdate_active, hactive]
  loses := by
    intro b
    left
    rw [← hwatch b]
    simp only [watch, cancelSocketUpdate_socks]

theorem covered_polled (c : SockState) : c.polled.Covered := by
  refine Or.inr ⟨rfl, ?_⟩
  simp only [SockState.polled]
  rw [UInt32.and_assoc, UInt32.and_comm knownEpollEvents, ← UInt32.and_assoc]
  simp

/-- A poll is started for the first socket of the queue. -/
theorem Sound.startPoll (h : Sound p packets) (hcovers : CoversBut none p) {rest : List Nat}
    (hqueue : p.sockUpdateQueue = a :: rest) (hc : p.socks.get? a = some c)
    (hkept : c.deletePending = false) (hidle : c.pollStatus = .idle) (ans : Answers) :
    ∃ p' ok, p.startPoll ans a c = some (p', ok) ∧ Updated ans packets p p' ∧
      (ok = true → p'.sockUpdateQueue = rest) ∧ (Able ans → ok = true) := by
  have hbut := hcovers.weaken (some a)
  have hasking : Sound (p.store a c.asking) packets :=
    h.store hc rfl rfl rfl Iff.rfl fun _ hpending => by
      rw [SockState.asking, hidle] at hpending
      cases hpending
  have hwatch : ∀ b, (p.store a c.asking).watch b = p.watch b := watch_store hc rfl
  have hget : (p.store a c.asking).socks.get? a = some c.asking := Heap.get?_write_self _ _ _
  have hhead : (p.store a c.asking).sockUpdateQueue = a :: rest := hqueue
  unfold Port.startPoll
  cases hpoll : ans.afdPoll a with
  | started =>
      refine ⟨_, true, rfl, ?_, fun _ => cancelSocketUpdate_head hqueue, fun _ => rfl⟩
      have hsubmit : Sound (p.submit a c.asking.polled) packets :=
        h.submit hc hkept hidle rfl rfl hkept (by simp [SockState.polled]) fun _ => rfl
      apply hsubmit.unqueue_updated (hbut.store _) (Heap.get?_write_self _ _ _) hkept
      · exact covered_polled c.asking
      · rfl
      · exact watch_store hc rfl
  | closed =>
      obtain ⟨p', hdelete, hsound, hremoves⟩ := hasking.sockDelete hget hkept ans
      refine ⟨p', true, by simp only [hdelete, Option.map_some], ?_, fun _ => ?_, fun _ => rfl⟩
      · refine ⟨hsound, hremoves.covers (hbut.store _), hremoves.active, fun b => ?_⟩
        rw [← hwatch b]
        rcases hremoves.loses b with hsame | ⟨hnone, rfl⟩
        · exact Or.inl hsame
        · exact Or.inr ⟨hnone, hpoll⟩
      · rw [hremoves.updating, hhead, List.erase_cons_head]
  | failed =>
      refine ⟨p.store a c.asking, false, rfl, ⟨hasking, ?_, rfl, fun b => Or.inl (hwatch b)⟩,
        by simp, fun hable => absurd hpoll (hable a).1⟩
      exact (hbut.store c.asking).of_queued (by simp [hhead])

theorem cancelPoll_eq {cancelIo : Bool} (h : c.cancelPoll cancelIo = some c') :
    c' = { c with pollStatus := .cancelled, pendingEvents := 0 } := by
  unfold SockState.cancelPoll at h
  split at h
  · cases h
  · exact (Option.some.inj h).symm

/-- `sock_update` for the first socket of the queue. -/
theorem Sound.sockUpdate (h : Sound p packets) (hcovers : CoversBut none p) {rest : List Nat}
    (hqueue : p.sockUpdateQueue = a :: rest) (ans : Answers) :
    ∃ p' ok, p.sockUpdate ans a = some (p', ok) ∧ Updated ans packets p p' ∧
      (ok = true → p'.sockUpdateQueue = rest) ∧ (Able ans → ok = true) := by
  have hqueued : a ∈ p.sockUpdateQueue := by simp [hqueue]
  obtain ⟨c, hc, hkept⟩ := h.kept_of_updating hqueued
  have hbut := hcovers.weaken (some a)
  unfold Port.sockUpdate
  simp only [hc, hkept, Bool.false_eq_true, if_false]
  cases hstatus : c.pollStatus with
  | idle => exact h.startPoll hcovers hqueue hc hkept hstatus ans
  | cancelled =>
      refine ⟨_, true, rfl, ?_, fun _ => cancelSocketUpdate_head hqueue, fun _ => rfl⟩
      exact h.unqueue_updated hbut hc hkept (Or.inl hstatus) rfl fun _ => rfl
  | pending =>
      by_cases hasks : c.userEvents &&& knownEpollEvents &&& ~~~c.pendingEvents = 0
      · refine ⟨p.cancelSocketUpdate a, true, by simp only [if_pos hasks], ?_,
          fun _ => cancelSocketUpdate_head hqueue, fun _ => rfl⟩
        exact h.unqueue_updated hbut hc hkept (Or.inr ⟨hstatus, hasks⟩) rfl fun _ => rfl
      · simp only [if_neg hasks]
        cases hcancel : c.cancelPoll (ans.cancelIo a) with
        | none =>
            refine ⟨p, false, rfl, .refl h hcovers ans, by simp, fun hable => ?_⟩
            simp [SockState.cancelPoll, (hable a).2] at hcancel
        | some d =>
            obtain rfl := cancelPoll_eq hcancel
            refine ⟨_, true, rfl, ?_, fun _ => cancelSocketUpdate_head hqueue, fun _ => rfl⟩
            let cancelled : SockState := { c with pollStatus := .cancelled, pendingEvents := 0 }
            have hstore : Sound (p.store a cancelled) packets :=
              h.store hc rfl rfl rfl (by simp [cancelled, hstatus]) fun _ hpending => by
                cases hpending
            apply hstore.unqueue_updated (hbut.store _) (Heap.get?_write_self _ _ _) hkept
            · exact Or.inl rfl
            · rfl
            · exact watch_store hc rfl

/-- The loop of `port__update_events` with enough turns empties the queue, or fails. -/
theorem Sound.updateEventsLoop (h : Sound p packets) (hcovers : CoversBut none p) (ans : Answers)
    {turns : Nat} (hturns : p.sockUpdateQueue.length ≤ turns) :
    ∃ p' ok, p.updateEventsLoop ans turns = some (p', ok) ∧ Updated ans packets p p' ∧
      (ok = true → p'.sockUpdateQueue = []) ∧ (Able ans → ok = true) := by
  induction turns generalizing p with
  | zero =>
      have hempty : p.sockUpdateQueue = [] := List.length_eq_zero_iff.mp (by omega)
      exact ⟨p, true, rfl, .refl h hcovers ans, fun _ => hempty, fun _ => rfl⟩
  | succ turns ih =>
      cases hqueue : p.sockUpdateQueue with
      | nil =>
          refine ⟨p, true, ?_, .refl h hcovers ans, fun _ => hqueue, fun _ => rfl⟩
          simp only [Port.updateEventsLoop, hqueue]
      | cons a rest =>
          obtain ⟨q, ok, hupdate, hupdated, hrest, hable⟩ := h.sockUpdate hcovers hqueue ans
          cases ok with
          | false =>
              refine ⟨q, false, ?_, hupdated, by simp, hable⟩
              simp only [Port.updateEventsLoop, hqueue, hupdate]
          | true =>
              have hlength : q.sockUpdateQueue.length ≤ turns := by
                rw [hrest rfl]
                rw [hqueue, List.length_cons] at hturns
                omega
              obtain ⟨p', ok, hloop, hlater, hdone⟩ :=
                ih hupdated.sound hupdated.covers hlength
              refine ⟨p', ok, ?_, hupdated.trans hlater, hdone⟩
              simp only [Port.updateEventsLoop, hqueue, hupdate, hloop]

theorem Sound.updateEvents (h : Sound p packets) (hcovers : CoversBut none p) (ans : Answers) :
    ∃ p' ok, p.updateEvents ans = some (p', ok) ∧ Updated ans packets p p' ∧
      (ok = true → p'.sockUpdateQueue = []) ∧ (Able ans → ok = true) :=
  h.updateEventsLoop hcovers ans (Nat.le_refl _)

/-- While a thread waits, no socket is left for a later update. -/
def Drained (p : Port) : Prop := 0 < p.activePollCount → p.sockUpdateQueue = []

/-- `port__update_events_if_polling`. -/
theorem Sound.updateEventsIfPolling (h : Sound p packets) (hcovers : CoversBut none p)
    (ans : Answers) :
    ∃ p', p.updateEventsIfPolling ans = some p' ∧ Updated ans packets p p' ∧
      (Able ans → Drained p') := by
  unfold Port.updateEventsIfPolling
  split
  · obtain ⟨p', ok, hupdate, hupdated, hempty, hable⟩ := h.updateEvents hcovers ans
    exact ⟨p', by rw [hupdate]; rfl, hupdated, fun able _ => hempty (hable able)⟩
  · rename_i hnone
    exact ⟨p, rfl, .refl h hcovers ans, fun _ hpos => absurd hpos hnone⟩

/-- The packet of a registered socket has come. -/
theorem Sound.complete (h : Sound p (a :: packets)) (hc : p.socks.get? a = some c)
    (hkept : c.deletePending = false) : Sound (p.store a c.completed) packets := by
  obtain ⟨_, tree, deleted⟩ := h.live hc hkept
  have hcons := (List.perm_middle (a := a)).nodup_iff.mp h.outstanding
  obtain ⟨hfresh, hnodup⟩ := List.nodup_cons.mp hcons
  refine ⟨hnodup, h.keys, h.updating, h.deleted, ?_, h.fits_of_onlyAt (a := a) ?_ ?_⟩
  · have heq : load (p.socks.write a c.completed) = load p.socks :=
      funext (load_write p.socks hc rfl)
    simp only [Port.store]
    rw [heq]
    exact h.groups
  · intro b hb
    exact ⟨Heap.get?_write_of_ne _ hb, Iff.rfl, by simp [Port.store, hb], fun _ => Iff.rfl, Iff.rfl,
      Iff.rfl⟩
  · refine .live c.completed (Heap.get?_write_self _ _ _) hkept ?_ tree deleted ?_
    · simpa [Port.store, SockState.completed] using hfresh
    · intro _ hpending
      cases hpending

/-- The packet of a socket that was removed has come, so its `sock_state_t` is freed. -/
theorem Sound.feed_dying (h : Sound p (a :: packets)) (hc : p.socks.get? a = some c)
    (hremoved : c.deletePending = true) (ans : Answers) :
    ∃ p', (p.store a c.completed).sockDelete ans a false = some p' ∧ Sound p' packets ∧
      Removes p p' a c.key := by
  obtain ⟨_, tree, _, _⟩ := h.dying hc hremoved
  obtain ⟨groups, hrelease, hgroups⟩ :=
    h.groups.release (load_pos p.socks hc) (load_free p.socks hc)
  have hcons := (List.perm_middle (a := a)).nodup_iff.mp h.outstanding
  obtain ⟨hfresh, hnodup⟩ := List.nodup_cons.mp hcons
  refine ⟨p.dropped a c.key groups, ?_, ?_, removes_dropped p a c.key groups⟩
  · have hget : (p.store a c.completed).socks.get? a = some c.completed :=
      Heap.get?_write_self _ _ _
    have hdying : c.completed.deletePending = true := hremoved
    rw [Port.sockDelete, hget]
    simp only [hdying, if_true]
    rw [freeOrKeep_idle hget rfl hrelease]
    simp only [queueRemove, Port.store, Heap.free_write, dropped,
      List.erase_of_not_mem (tree c.key)]
  · apply h.drop hc hgroups hnodup
    intro b
    by_cases hb : b = a
    · subst hb
      simpa using hfresh
    · simp [hb]

/-- The driver has found the socket of an outstanding poll closed. -/
def FoundClosed (p : Port) (a : Nat) : Prop :=
  ∃ c, p.socks.get? a = some c ∧ completedEvents c = none

/-- What a packet does for the user, at the address of its `sock_state_t`. -/
inductive Feeds (p p' : Port) (a : Nat) : Option EpollEvent → Prop
  | quiet (same : p'.watch a = p.watch a) : Feeds p p' a none
  | closed (gone : p'.watch a = none) (found : FoundClosed p a) : Feeds p p' a none
  | told (w : Watch) (watched : p.watch a = some w) (after : p'.watch a = some w.reported)
      (ev : EpollEvent) (tells : Tells w ev) : Feeds p p' a (some ev)

theorem Feeds.of_watch {ev : Option EpollEvent} (h : Feeds p p' a ev)
    (hwatch : p.watch a = p''.watch a) (hfound : FoundClosed p a → FoundClosed p'' a) :
    Feeds p'' p' a ev := by
  cases h with
  | quiet same => exact .quiet (same.trans hwatch)
  | closed gone found => exact .closed gone (hfound found)
  | told w watched after ev tells => exact .told w (hwatch.symm.trans watched) after ev tells

/-- The other addresses hold what they held. -/
def SameElse (p p' : Port) (a : Nat) : Prop := ∀ b, b ≠ a → p'.socks.get? b = p.socks.get? b

theorem SameElse.watch (h : SameElse p p' a) (hb : b ≠ a) : p'.watch b = p.watch b := by
  simp only [Port.watch, h b hb]

theorem SameElse.tells (h : SameElse p p' a) (hb : b ≠ a) : p'.tells b = p.tells b := by
  simp only [Port.tells, h b hb]

theorem SameElse.foundClosed (h : SameElse p p' a) (hb : b ≠ a) (hfound : FoundClosed p' b) :
    FoundClosed p b := by
  obtain ⟨c, hc, hclosed⟩ := hfound
  exact ⟨c, (h b hb).symm.trans hc, hclosed⟩

theorem mem_requestSocketUpdate (hdeleted : a ∉ p.sockDeletedQueue) :
    a ∈ (p.requestSocketUpdate a).sockUpdateQueue := by
  rw [requestSocketUpdate_eq hdeleted]
  dsimp only
  split
  · assumption
  · simp

theorem watch_request (p : Port) (a b : Nat) : (p.requestSocketUpdate a).watch b = p.watch b := by
  simp only [watch, requestSocketUpdate_socks]

/-- The end of `sock_feed_event`. -/
theorem Sound.report (h : Sound p packets) (hcovers : CoversBut none p)
    (hc : p.socks.get? a = some c) (hkept : c.deletePending = false)
    (hqueued : a ∈ p.sockUpdateQueue) (epollEvents : UInt32) :
    Sound (p.report a c epollEvents).1 packets ∧ CoversBut none (p.report a c epollEvents).1 ∧
      (p.report a c epollEvents).1.activePollCount = p.activePollCount ∧
      SameElse p (p.report a c epollEvents).1 a ∧
      Feeds p (p.report a c epollEvents).1 a (p.report a c epollEvents).2 := by
  have hwatched := watch_of_kept hc hkept
  have htells : epollEvents &&& c.userEvents ≠ 0 →
      Tells ⟨c.key, c.userEvents, c.userData⟩ ⟨epollEvents &&& c.userEvents, c.userData⟩ := by
    intro hne
    refine ⟨rfl, hne, ?_⟩
    simp only [UInt32.and_assoc, UInt32.and_self]
  unfold Port.report
  by_cases hnone : epollEvents &&& c.userEvents = 0
  · simp only [if_pos hnone]
    exact ⟨h, hcovers, trivial, fun _ _ => rfl, .quiet rfl⟩
  · simp only [if_neg hnone]
    by_cases honce : c.userEvents &&& EPOLLONESHOT ≠ 0
    · simp only [if_pos honce]
      have hbut := (hcovers.weaken (some a)).store { c with userEvents := 0 }
      refine ⟨h.store hc rfl rfl rfl Iff.rfl id, hbut.of_queued hqueued, rfl,
        fun b hb => Heap.get?_write_of_ne _ hb, .told _ hwatched ?_ _ (htells hnone)⟩
      rw [watch_store_self, Watch.reported, if_pos honce]
      simp only [SockState.watch, hkept, Bool.false_eq_true, if_false]
    · simp only [if_neg honce]
      refine ⟨h, hcovers, trivial, fun _ _ => rfl, .told _ hwatched ?_ _ (htells hnone)⟩
      rw [hwatched, Watch.reported, if_neg honce]

theorem report_snd (p : Port) (a : Nat) (c : SockState) (epollEvents : UInt32) :
    (p.report a c epollEvents).2 =
      if epollEvents &&& c.userEvents = 0 then none
      else some ⟨epollEvents &&& c.userEvents, c.userData⟩ := by
  unfold Port.report
  split
  · rfl
  · split <;> rfl

/-- `sock_feed_event`. -/
theorem Sound.sockFeedEvent (h : Sound p (a :: packets)) (hcovers : CoversBut none p)
    (ans : Answers) :
    ∃ p' ev, p.sockFeedEvent ans a = some (p', ev) ∧ Sound p' packets ∧ CoversBut none p' ∧
      p'.activePollCount = p.activePollCount ∧ SameElse p p' a ∧ Feeds p p' a ev ∧
      ev = p.tells a := by
  obtain ⟨c, hc⟩ := h.exists_sock (a := a) (Or.inl (by simp))
  have hbut := (hcovers.weaken (some a)).store c.completed
  have hget : (p.store a c.completed).socks.get? a = some c.completed := Heap.get?_write_self _ _ _
  have htells : p.tells a = c.tells := by simp only [Port.tells, hc, Option.bind_some]
  rw [htells]
  unfold Port.sockFeedEvent SockState.tells
  simp only [hc]
  cases hdelete : c.deletePending with
  | true =>
      obtain ⟨p', hdeleted, hsound, hremoves⟩ := h.feed_dying hc hdelete ans
      refine ⟨p', none, by simp only [hdeleted, if_true, Option.map_some], hsound,
        hremoves.covers (hcovers.weaken (some a)), hremoves.active, hremoves.others, .quiet ?_,
        by simp⟩
      rw [hremoves.watch_self]
      simp only [watch, hc, Option.bind_some, SockState.watch, hdelete, if_true]
  | false =>
      have hcomplete := h.complete hc hdelete
      have hlike : c.completed.watch = c.watch := rfl
      have hwatch := watch_store hc hlike a
      have hstore : SameElse p (p.store a c.completed) a := fun b hb => Heap.get?_write_of_ne _ hb
      cases hevents : completedEvents c with
      | none =>
          obtain ⟨p', hdeleted, hsound, hremoves⟩ := hcomplete.sockDelete hget hdelete ans
          exact ⟨p', none, by simp [hdeleted], hsound, hremoves.covers hbut, hremoves.active,
            fun b hb => (hremoves.others b hb).trans (hstore b hb),
            .closed hremoves.watch_self ⟨c, hc, hevents⟩, by simp⟩
      | some epollEvents =>
          have hrequest := hcomplete.request hget hdelete
          have hall := hbut.request hcomplete hget hdelete
          have hqueued := mem_requestSocketUpdate (hcomplete.live hget hdelete).2.2
          have hrequested : ((p.store a c.completed).requestSocketUpdate a).socks.get? a =
              some c.completed := by
            rw [requestSocketUpdate_socks, hget]
          obtain ⟨hsound, hcovered, hactive, hothers, hfeeds⟩ :=
            hrequest.report hall hrequested hdelete hqueued epollEvents
          refine ⟨_, _, by simp, hsound, hcovered, ?_, fun b hb => ?_, hfeeds.of_watch ?_ ?_, ?_⟩
          · rw [hactive, requestSocketUpdate_active]
            rfl
          · rw [hothers b hb, requestSocketUpdate_socks, hstore b hb]
          · rw [watch_request, hwatch]
          · rintro ⟨d, hd, hclosed⟩
            obtain rfl := Option.some.inj (hrequested.symm.trans hd)
            exact ⟨c, hc, hclosed⟩
          · simp [report_snd, SockState.completed]

/-- What the packets of one round do for the user. Each `sock_state_t` that is told
of has its packet among them, and has it once. -/
structure FeedsAll (p p' : Port) (fed : List Nat) (told : List (Nat × EpollEvent)) : Prop where
  once : (told.map Prod.fst).Sublist fed
  tells : ∀ x ∈ told, ∃ w, p.watch x.1 = some w ∧ Tells w x.2
  after : ∀ b, p'.watch b =
      (if b ∈ told.map Prod.fst then (p.watch b).map Watch.reported else p.watch b) ∨
    (p'.watch b = none ∧ b ∈ fed ∧ FoundClosed p b)
  others : ∀ b, b ∉ fed → p'.socks.get? b = p.socks.get? b

theorem feedsAll_nil (p : Port) : FeedsAll p p [] [] where
  once := List.Sublist.refl _
  tells := by simp
  after := fun b => Or.inl (by simp)
  others := fun _ _ => rfl

/-- One more packet in front. -/
theorem FeedsAll.cons {fed : List Nat} {told : List (Nat × EpollEvent)} {ev : Option EpollEvent}
    (hfresh : a ∉ fed) (hothers : SameElse p p'' a) (hfeeds : Feeds p p'' a ev)
    (h : FeedsAll p'' p' fed told) :
    FeedsAll p p' (a :: fed) ((ev.toList.map fun e => (a, e)) ++ told) := by
  have hrest : a ∉ told.map Prod.fst := fun hmem => hfresh (h.once.subset hmem)
  have hlater : p'.watch a = p''.watch a := by
    rcases h.after a with hsame | ⟨_, hmem, _⟩
    · rw [hsame, if_neg hrest]
    · exact absurd hmem hfresh
  have hmem : ∀ b, b ≠ a → (b ∈ ((ev.toList.map fun e => (a, e)) ++ told).map Prod.fst ↔
      b ∈ told.map Prod.fst) := by
    intro b hb
    cases ev <;> simp [hb]
  constructor
  · cases ev with
    | none => exact h.once.cons a
    | some e => exact h.once.cons_cons a
  · intro x hx
    rcases List.mem_append.mp hx with hnew | hold
    · cases hfeeds with
      | quiet => simp at hnew
      | closed => simp at hnew
      | told w watched _ e tells =>
          obtain rfl : x = (a, e) := by simpa using hnew
          exact ⟨w, watched, tells⟩
    · obtain ⟨w, hw, htells⟩ := h.tells x hold
      have hx : x.1 ≠ a := fun heq => hrest (heq ▸ List.mem_map_of_mem hold)
      exact ⟨w, (hothers.watch hx).symm.trans hw, htells⟩
  · intro b
    by_cases hb : b = a
    · subst hb
      rw [hlater]
      cases hfeeds with
      | quiet same => exact Or.inl (by rw [same]; simp [hrest])
      | closed gone found => exact Or.inr ⟨gone, List.mem_cons_self, found⟩
      | told w watched after => exact Or.inl (by rw [after, watched]; simp)
    · rw [if_congr (hmem b hb) rfl rfl, ← hothers.watch hb]
      exact (h.after b).imp_right fun hlost =>
        ⟨hlost.1, List.mem_cons_of_mem a hlost.2.1, hothers.foundClosed hb hlost.2.2⟩
  · intro b hb
    rw [List.mem_cons, not_or] at hb
    rw [h.others b hb.2, hothers b hb.1]

/-- `port__feed_events` for packets that were taken from the completion port. -/
theorem Sound.feedEvents {fed : List Nat} (h : Sound p (fed ++ packets))
    (hcovers : CoversBut none p) (ans : Answers) :
    ∃ p' told, p.feedEvents ans fed = some (p', told.map Prod.snd) ∧ Sound p' packets ∧
      CoversBut none p' ∧ p'.activePollCount = p.activePollCount ∧ FeedsAll p p' fed told ∧
      told.map Prod.snd = fed.filterMap p.tells := by
  induction fed generalizing p with
  | nil => exact ⟨p, [], rfl, h, hcovers, rfl, feedsAll_nil p, rfl⟩
  | cons a fed ih =>
      have hfresh : a ∉ fed := by
        have hnodup := (List.nodup_append.mp h.outstanding).2.1
        exact fun hmem => (List.nodup_cons.mp hnodup).1 (List.mem_append_left _ hmem)
      obtain ⟨q, ev, hfeed, hsound, hall, hactive, hothers, hfeeds, hev⟩ :=
        h.sockFeedEvent hcovers ans
      obtain ⟨p', told, hfeeds', hsound', hall', hactive', htold, htells⟩ := ih hsound hall
      refine ⟨p', _, ?_, hsound', hall', hactive'.trans hactive, htold.cons hfresh hothers hfeeds,
        ?_⟩
      · simp only [Port.feedEvents, hfeed, hfeeds', Option.bind_eq_bind, Option.bind_some]
        cases ev <;> simp
      · have hsame : fed.filterMap q.tells = fed.filterMap p.tells :=
          List.filterMap_congr fun b hb => hothers.tells fun heq => hfresh (heq ▸ hb)
        rw [List.map_append, htells, hsame, List.filterMap_cons, ← hev]
        cases ev <;> simp

/-- A socket is found exactly when it is watched. -/
theorem Sound.findSocket_iff (h : Sound p packets) {key : Nat} :
    p.findSocket key = some a ↔ ∃ w, p.watch a = some w ∧ w.key = key := by
  rw [findSocket, lookup_eq_some_iff_mem h.keys]
  cases h.fits a with
  | absent sock _ tree => simp [tree key, watch, sock]
  | live c sock kept _ tree =>
      rw [tree key, watch_of_kept sock kept]
      constructor
      · rintro rfl
        exact ⟨_, rfl, rfl⟩
      · rintro ⟨w, hw, rfl⟩
        rw [← Option.some.inj hw]
  | dying c sock removed _ _ tree => simp [tree key, watch, sock, SockState.watch, removed]

theorem mem_known_of_required (events : UInt32) :
    (events ||| EPOLLERR ||| EPOLLHUP) &&& knownEpollEvents &&& ~~~(0 : UInt32) ≠ 0 := by
  intro hzero
  have hbit := congrArg (fun mask : UInt32 => mask.toBitVec.getLsbD 3) hzero
  simp [EPOLLERR, EPOLLHUP, knownEpollEvents] at hbit

/-- `sock_set_event`, where no poll is outstanding only for a socket that is on the
update queue or new. -/
theorem Sound.sockSetEvent (h : Sound p packets) (hcovers : CoversBut (some a) p)
    (hc : p.socks.get? a = some c) (hkept : c.deletePending = false)
    (hidle : c.pollStatus = .idle → a ∈ p.sockUpdateQueue ∨ c.pendingEvents = 0)
    (ev : EpollEvent) :
    ∃ p', p.sockSetEvent a ev = some p' ∧ Sound p' packets ∧ CoversBut none p' ∧
      p'.activePollCount = p.activePollCount ∧ SameElse p p' a ∧
      p'.watch a = some ⟨c.key, ev.events ||| EPOLLERR ||| EPOLLHUP, ev.data⟩ := by
  let asked : SockState :=
    { c with userEvents := ev.events ||| EPOLLERR ||| EPOLLHUP, userData := ev.data }
  have hstore : Sound (p.store a asked) packets := h.store hc rfl rfl rfl Iff.rfl id
  have hget : (p.store a asked).socks.get? a = some asked := Heap.get?_write_self _ _ _
  have hbut := hcovers.store asked
  have helse : SameElse p (p.store a asked) a := fun b hb => Heap.get?_write_of_ne _ hb
  have hwatch : (p.store a asked).watch a =
      some ⟨c.key, ev.events ||| EPOLLERR ||| EPOLLHUP, ev.data⟩ := watch_of_kept hget hkept
  unfold Port.sockSetEvent
  simp only [hc]
  by_cases hnew : (ev.events ||| EPOLLERR ||| EPOLLHUP) &&& knownEpollEvents &&&
      ~~~c.pendingEvents ≠ 0
  · rw [if_pos hnew]
    refine ⟨_, rfl, hstore.request hget hkept, hbut.request hstore hget hkept, ?_, ?_, ?_⟩
    · rw [requestSocketUpdate_active]
      rfl
    · intro b hb
      rw [requestSocketUpdate_socks]
      exact helse b hb
    · rw [watch_request]
      exact hwatch
  · rw [if_neg hnew]
    refine ⟨_, rfl, hstore, ?_, rfl, helse, hwatch⟩
    have hcovered : asked.Covered ∨ a ∈ (p.store a asked).sockUpdateQueue := by
      cases hstatus : c.pollStatus with
      | pending => exact Or.inl (Or.inr ⟨hstatus, not_not.mp hnew⟩)
      | cancelled => exact Or.inl (Or.inl hstatus)
      | idle =>
          right
          rcases hidle hstatus with hqueued | hzero
          · exact hqueued
          · rw [hzero] at hnew
            exact absurd (mem_known_of_required ev.events) hnew
    intro b d _ hd hdkept
    by_cases hb : b = a
    · subst hb
      obtain rfl := Option.some.inj (hget.symm.trans hd)
      exact hcovered
    · exact hbut b d (by simpa using Ne.symm hb) hd hdkept

end Port

end FFZKit.Win32.Wepoll
