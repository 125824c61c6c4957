import FFZKit.Win32.WepollControl
import Mathlib.Data.List.Perm.Basic

/-!
# Runs of a wepoll port

Whatever the threads and the driver do, and in whatever order, no assertion fails
and nobody touches memory that was freed. Every poll that is outstanding belongs to
a `sock_state_t` that knows it, every packet finds the one it was sent for, and the
count of waiting threads is right.
-/

namespace FFZKit.Win32.Wepoll

open FFZKit.Foundations FFZKit.Foundations.Transition

/-- One of the answers says that the socket at an address is closed. -/
def ToldClosed (answers : List Answers) (b : Nat) : Prop :=
  ∃ ans ∈ answers, ans.afdPoll b = .closed

namespace Port

variable {p p' q : Port} {packets packets' : List Nat} {a b : Nat} {c : SockState}
  {ans again : Answers}

/-- The order in which packets come does not matter. -/
theorem Sound.perm (h : Sound p packets) (hperm : packets.Perm packets') : Sound p packets' where
  outstanding := (hperm.append_left _).nodup_iff.mp h.outstanding
  keys := h.keys
  updating := h.updating
  deleted := h.deleted
  groups := h.groups
  fits := fun a => (h.fits a).of_same
    ⟨rfl, Iff.rfl, (hperm.append_left _).symm.mem_iff, fun _ => Iff.rfl, Iff.rfl, Iff.rfl⟩

/-- Another number of waiting threads. -/
theorem Sound.recount (h : Sound p packets) (n : Nat) :
    Sound { p with activePollCount := n } packets where
  outstanding := h.outstanding
  keys := h.keys
  updating := h.updating
  deleted := h.deleted
  groups := h.groups
  fits := fun a =>
    (h.fits a).of_same ⟨rfl, Iff.rfl, Iff.rfl, fun _ => Iff.rfl, Iff.rfl, Iff.rfl⟩

theorem Loses.told {answers : List Answers} (h : Loses (fun b => ans.afdPoll b = .closed) p p')
    (hmem : ans ∈ answers) : Loses (ToldClosed answers) p p' :=
  h.imp fun _ hclosed => ⟨ans, hmem, hclosed⟩

/-- The section in which a thread begins to wait. -/
theorem Sound.pollBegin (h : Sound p packets) (hcovers : CoversBut none p)
    (ans again : Answers) :
    ∃ p' waits, p.pollBegin ans again = some (p', waits) ∧ Sound p' packets ∧
      CoversBut none p' ∧ p'.activePollCount = p.activePollCount + (if waits then 1 else 0) ∧
      Loses (ToldClosed [ans, again]) p p' ∧ (Able ans → Drained p') := by
  obtain ⟨q, ok, hupdate, hupdated, hempty, hable⟩ := h.updateEvents hcovers ans
  have hlost : Loses (ToldClosed [ans, again]) p q := hupdated.loses.told (by simp)
  unfold Port.pollBegin
  cases ok with
  | true =>
      refine ⟨q.enter, true, by rw [hupdate], hupdated.sound.recount _, hupdated.covers, ?_, hlost,
        fun _ _ => hempty rfl⟩
      simp only [enter, hupdated.active, if_true]
  | false =>
      obtain ⟨p', hagain, hlater, _⟩ :=
        hupdated.sound.updateEventsIfPolling hupdated.covers again
      refine ⟨p', false, by simp only [hupdate, hagain, Option.map_some], hlater.sound,
        hlater.covers, ?_, hlost.trans (hlater.loses.told (by simp)), fun able => ?_⟩
      · simp [hlater.active, hupdated.active]
      · cases hable able

/-- The section after the wait. -/
structure Ends (due : Bool) (ans again : Answers) (packets : List Nat) (p p' : Port)
    (fed : List Nat) (evs : Option (List EpollEvent)) : Prop where
  sound : Sound p' packets
  covers : CoversBut none p'
  active : p'.activePollCount = p.activePollCount - (if evs.isSome then 1 else 0)
  drained : Able ans → Able again → Drained p'
  tells : ∃ q told, FeedsAll p q fed told ∧ Sound q packets ∧
    Loses (ToldClosed [ans, again]) q p' ∧ evs.getD [] = told.map Prod.snd
  exactly : evs.getD [] = fed.filterMap p.tells
  stays : evs = none → due = false

theorem Sound.pollEnd_failed (h : Sound p packets) (hcovers : CoversBut none p) (due : Bool)
    (ans again : Answers) :
    ∃ p' evs, p.pollEnd due ans again .failed = some (p', evs) ∧
      Ends due ans again packets p p' [] evs := by
  have hleave : Sound p.leave packets := h.recount _
  obtain ⟨p', hupdate, hupdated, hdrained⟩ := hleave.updateEventsIfPolling hcovers again
  refine ⟨p', some [], by rw [Port.pollEnd, hupdate]; rfl, hupdated.sound, hupdated.covers,
    hupdated.active, fun _ able => hdrained able, ⟨p, [], feedsAll_nil p, h, ?_, rfl⟩, rfl, by simp⟩
  exact hupdated.loses.told (by simp)

theorem Sound.pollEnd_woken {fed : List Nat} (h : Sound p (fed ++ packets))
    (hcovers : CoversBut none p) (hpos : 0 < p.activePollCount) (due : Bool)
    (ans again : Answers) :
    ∃ p' evs, p.pollEnd due ans again (.woken fed) = some (p', evs) ∧
      Ends due ans again packets p p' fed evs := by
  have hleave : Sound p.leave (fed ++ packets) := h.recount _
  obtain ⟨q, told, hfeed, hsound, hall, hactive, htold, hexact⟩ := hleave.feedEvents hcovers ans
  have hfeeds : FeedsAll p q fed told := ⟨htold.once, htold.tells, htold.after, htold.others⟩
  by_cases hreturn : told.map Prod.snd ≠ [] ∨ due = true
  · obtain ⟨p', hupdate, hupdated, hdrained⟩ := hsound.updateEventsIfPolling hall again
    refine ⟨p', some (told.map Prod.snd), ?_, hupdated.sound, hupdated.covers,
      hupdated.active.trans hactive, fun _ able => hdrained able,
      ⟨q, told, hfeeds, hsound, hupdated.loses.told (by simp), rfl⟩, hexact, by simp⟩
    simp only [Port.pollEnd, hfeed, Option.bind_eq_bind, Option.bind_some, if_pos hreturn, hupdate,
      Option.map_some]
  · obtain ⟨p', waits, hbegin, hsound', hcovers', hcount, hlost, hdrained⟩ :=
      hsound.pollBegin hall ans again
    have hnone : told.map Prod.snd = [] := by
      by_contra hne
      exact hreturn (Or.inl hne)
    refine ⟨p', if waits then none else some [], ?_, hsound', hcovers', ?_,
      fun able _ => hdrained able, ⟨q, told, hfeeds, hsound, hlost, ?_⟩, ?_,
      fun _ => by simpa using fun hdue => hreturn (Or.inr hdue)⟩
    · simp only [Port.pollEnd, hfeed, Option.bind_eq_bind, Option.bind_some, if_neg hreturn, hbegin,
        Option.map_some]
    · rw [hcount, hactive]
      simp only [leave]
      cases waits with
      | true => simp; omega
      | false => simp
    · rw [hnone]
      cases waits <;> rfl
    · rw [hnone] at hexact
      refine Eq.trans ?_ hexact
      cases waits <;> rfl

/-- The driver completes a poll. -/
theorem Sound.driverWrites (h : Sound p packets) (hcovers : CoversBut none p)
    (ha : a ∈ p.submitted) (status : IoStatus) (numberOfHandles : Nat) (afdEvents : UInt32) :
    ∃ p', p.driverWrites a status numberOfHandles afdEvents = some p' ∧ Sound p' (a :: packets) ∧
      CoversBut none p' ∧ p'.activePollCount = p.activePollCount ∧
      p'.sockUpdateQueue = p.sockUpdateQueue ∧ ∀ b, p'.watch b = p.watch b := by
  obtain ⟨c, hc⟩ := h.exists_sock (a := a) (Or.inl (List.mem_append_left _ ha))
  let told : SockState :=
    { c with ioStatus := status, numberOfHandles := numberOfHandles, afdEvents := afdEvents }
  have hwatch : ∀ b, (p.store a told).watch b = p.watch b := watch_store hc rfl
  have hmoved : (p.submitted ++ packets).Perm (p.submitted.erase a ++ a :: packets) :=
    ((List.perm_cons_erase ha).append_right packets).trans List.perm_middle.symm
  have hnodup := (List.nodup_append.mp h.outstanding).1
  refine ⟨{ p with socks := p.socks.write a told, submitted := p.submitted.erase a },
    by rw [Port.driverWrites, hc]; rfl, ?_, ?_, rfl, rfl, hwatch⟩
  · refine ⟨hmoved.nodup_iff.mp h.outstanding, h.keys, h.updating, h.deleted, ?_,
      h.fits_of_onlyAt (a := a) ?_ ?_⟩
    · have heq : load (p.socks.write a told) = load p.socks := funext (load_write p.socks hc rfl)
      dsimp only
      rw [heq]
      exact h.groups
    · intro b hb
      exact ⟨Heap.get?_write_of_ne _ hb, List.mem_erase_of_ne hb, hmoved.symm.mem_iff,
        fun _ => Iff.rfl, Iff.rfl, Iff.rfl⟩
    · have hsock : (p.socks.write a told).get? a = some told := Heap.get?_write_self _ _ _
      cases h.fits a with
      | absent sock => rw [sock] at hc; cases hc
      | live d sock kept busy tree deleted =>
          obtain rfl := Option.some.inj (sock.symm.trans hc)
          exact .live told hsock kept (hmoved.symm.mem_iff.trans busy) tree deleted
            fun hmem => absurd hmem hnodup.not_mem_erase
      | dying d sock removed busy waiting tree updating deleted =>
          obtain rfl := Option.some.inj (sock.symm.trans hc)
          exact .dying told hsock removed (hmoved.mem_iff.mp busy) waiting tree updating deleted
  · intro b d _ hd hkept
    by_cases hb : b = a
    · subst hb
      obtain rfl := Option.some.inj ((Heap.get?_write_self _ _ _).symm.trans hd)
      exact hcovers b c (by simp) hc hkept
    · rw [Heap.get?_write_of_ne _ hb] at hd
      exact hcovers b d (by simp) hd hkept

end Port

/-- The answers that are given to a section. -/
def Action.answers : Action → List Answers
  | .ctl _ ans => [ans]
  | .wait _ _ ans again => [ans, again]
  | .resume _ _ ans again => [ans, again]
  | _ => []

/-- The system refuses nothing in this section. -/
def Action.Able (a : Action) : Prop := ∀ ans ∈ a.answers, Port.Able ans

/-- A call has no more packets than it has place for, and no more than its caller has. -/
structure Waiter.Places (w : Waiter) : Prop where
  packets : w.packets.length ≤ w.capacity
  events : w.capacity ≤ w.maxEvents

theorem Waiter.places_start (maxevents : Nat) (allocated : Bool) :
    (Waiter.start maxevents allocated).Places where
  packets := Nat.zero_le _
  events := by
    simp only [start]
    split
    · exact Nat.le_refl _
    · omega

/-- A call that has got no packets. -/
theorem Waiter.Places.ended {w : Waiter} (h : w.Places) {phase : Phase}
    (hnone : phase = .blocked ∨ phase = .failed) : { w with phase := phase }.Places where
  packets := by rcases hnone with rfl | rfl <;> exact Nat.zero_le _
  events := h.events

namespace Epoll

variable {s s' : Epoll} {w w' : Waiter} {i : Nat}

/-- The packets that are not looked at yet. -/
def packets (s : Epoll) : List Nat := s.completions ++ s.waiters.flatMap Waiter.packets

/-- What holds whenever the lock of the port is free. -/
structure Safe (s : Epoll) : Prop where
  sound : s.port.Sound s.packets
  covers : Port.CoversBut none s.port
  active : s.port.activePollCount = s.waiters.length
  places : ∀ w ∈ s.waiters, w.Places

theorem safe_init : Safe init where
  sound := Port.sound_init
  covers := Port.coversBut_init none
  active := rfl
  places := by simp [init]

/-- What a step does for the users of the port. -/
inductive Does (s s' : Epoll) : Action → List Output → Prop
  | control (op : Ctl) (ans : Answers) (r : Except Error Unit)
      (controls : s.port.Controls ans s.packets s'.port op r) :
      Does s s' (.ctl op ans) [.control op r]
  | quiet (a : Action) (same : ∀ b, s'.port.watch b = s.port.watch b) : Does s s' a []
  | reports (a : Action) (out : List Output) (fed : List Nat) (told : List (Nat × EpollEvent))
      (q : Port) (held : fed ⊆ s.packets) (once : fed.Nodup) (feeds : s.port.FeedsAll q fed told)
      (sound : q.Sound s'.packets) (lost : q.Loses (ToldClosed a.answers) s'.port)
      (shown : (out = [] ∧ told = []) ∨ out = [.events (told.map Prod.snd)]) : Does s s' a out

/-- Every step can be taken, and keeps what holds while the lock is free. -/
structure Steps (s : Epoll) (a : Action) (s' : Epoll) (out : List Output) : Prop where
  safe : Safe s'
  does : Does s s' a out
  drained : a.Able → s.port.Drained → s'.port.Drained

theorem perm_of_waiter (hw : s.waiters[i]? = some w) :
    s.packets.Perm
      (w.packets ++ (s.completions ++ (s.waiters.eraseIdx i).flatMap Waiter.packets)) := by
  obtain ⟨hi, rfl⟩ := List.getElem?_eq_some_iff.mp hw
  have hheld := (List.getElem_cons_eraseIdx_perm hi).symm.flatMap_right Waiter.packets
  rw [List.flatMap_cons] at hheld
  exact (hheld.append_left _).trans (List.perm_append_comm_assoc _ _ _)

theorem perm_of_set (hw : s.waiters[i]? = some w) (w' : Waiter) :
    ((s.waiters.set i w').flatMap Waiter.packets).Perm
      (w'.packets ++ (s.waiters.eraseIdx i).flatMap Waiter.packets) := by
  obtain ⟨hi, _⟩ := List.getElem?_eq_some_iff.mp hw
  have hheld := (List.set_perm_cons_eraseIdx hi w').flatMap_right Waiter.packets
  rw [List.flatMap_cons] at hheld
  exact hheld

theorem packets_of_blocked (hblocked : w.phase = .blocked) : w.packets = [] := by
  simp only [Waiter.packets, hblocked]

/-- A step without packets may find sockets closed, and reports nothing. -/
theorem does_update {a : Action} {out : List Output} (hsound : s.port.Sound s'.packets)
    (hlost : s.port.Loses (ToldClosed a.answers) s'.port)
    (hshown : out = [] ∨ out = [.events []]) : Does s s' a out :=
  .reports a out [] [] s.port (List.nil_subset _) List.nodup_nil (Port.feedsAll_nil _) hsound hlost
    (hshown.imp_left fun h => ⟨h, rfl⟩)

/-- A step of a call on its own packets leaves the port alone. -/
theorem Safe.rearrange (h : Safe s) {a : Action} (hport : s'.port = s.port)
    (hperm : s.packets.Perm s'.packets) (hlength : s'.waiters.length = s.waiters.length)
    (hplaces : ∀ w ∈ s'.waiters, w.Places) : Steps s a s' [] := by
  have hsound : s.port.Sound s'.packets := h.sound.perm hperm
  refine ⟨⟨hport ▸ hsound, hport ▸ h.covers, ?_, hplaces⟩,
    .quiet a fun b => by rw [hport], fun _ hdrained => hport ▸ hdrained⟩
  rw [hport, hlength]
  exact h.active

theorem Safe.ctl (h : Safe s) {op : Ctl} {ans : Answers} (hfresh : s.port.Fresh ans) :
    ∃ s' out, s.run (.ctl op ans) = some (s', out) ∧ Steps s (.ctl op ans) s' out := by
  obtain ⟨p', r, hctl, hserves, hcontrols⟩ := h.sound.ctlOp h.covers hfresh op
  refine ⟨{ s with port := p' }, _, by rw [run, hctl]; rfl,
    ⟨hserves.sound, hserves.covers, hserves.active.trans h.active, h.places⟩,
    .control op ans r hcontrols, fun able => hserves.drained (able ans (by simp [Action.answers]))⟩

theorem Safe.wait (h : Safe s) (maxevents : Int) (allocated : Bool) (ans again : Answers) :
    ∃ s' out, s.run (.wait maxevents allocated ans again) = some (s', out) ∧
      Steps s (.wait maxevents allocated ans again) s' out := by
  simp only [run]
  by_cases hpos : maxevents ≤ 0
  · refine ⟨s, _, by rw [if_pos hpos], h, ?_, fun _ hdrained => hdrained⟩
    exact does_update h.sound (Port.Loses.refl _ _) (Or.inr rfl)
  · rw [if_neg hpos]
    obtain ⟨p', waits, hbegin, hsound, hcovers, hactive, hlost, hdrained⟩ :=
      h.sound.pollBegin h.covers ans again
    rw [hbegin]
    have hable : (Action.wait maxevents allocated ans again).Able → s.port.Drained → p'.Drained :=
      fun able _ => hdrained (able ans (by simp [Action.answers]))
    cases waits with
    | true =>
        refine ⟨_, [], rfl, ⟨?_, hcovers, ?_, ?_⟩, ?_, hable⟩
        · simpa [packets, Waiter.packets, Waiter.start] using hsound
        · simpa [h.active] using hactive
        · rw [List.forall_mem_append]
          exact ⟨h.places, by simpa using Waiter.places_start maxevents.toNat allocated⟩
        · refine does_update ?_ hlost (Or.inl rfl)
          simpa [packets, Waiter.packets, Waiter.start] using h.sound
    | false =>
        refine ⟨{ s with port := p' }, _, rfl, ⟨hsound, hcovers, ?_, h.places⟩, ?_, hable⟩
        · simpa [h.active] using hactive
        · exact does_update h.sound hlost (Or.inr rfl)

theorem Safe.complete (h : Safe s) {a : Nat} (ha : a ∈ s.port.submitted) (status : IoStatus)
    (numberOfHandles : Nat) (afdEvents : UInt32) :
    ∃ s' out, s.run (.complete a status numberOfHandles afdEvents) = some (s', out) ∧
      Steps s (.complete a status numberOfHandles afdEvents) s' out := by
  obtain ⟨p', hwrites, hsound, hcovers, hactive, hqueue, hwatch⟩ :=
    h.sound.driverWrites h.covers ha status numberOfHandles afdEvents
  have hperm : (a :: s.packets).Perm
      ((s.completions ++ [a]) ++ s.waiters.flatMap Waiter.packets) := by
    rw [List.append_assoc, List.singleton_append]
    exact List.perm_middle.symm
  refine ⟨{ s with port := p', completions := s.completions ++ [a] }, [],
    by rw [run, hwrites]; rfl, ⟨hsound.perm hperm, hcovers, hactive.trans h.active, h.places⟩,
    .quiet _ hwatch, fun _ hdrained => ?_⟩
  simpa only [Port.Drained, hactive, hqueue] using hdrained

theorem Safe.dequeue (h : Safe s) {n : Nat} (hw : s.waiters[i]? = some w)
    (hblocked : w.phase = .blocked) (hn : n ≤ w.capacity) :
    ∃ s' out, s.run (.dequeue i n) = some (s', out) ∧ Steps s (.dequeue i n) s' out := by
  refine ⟨{ s with
    completions := s.completions.drop n
    waiters := s.waiters.set i { w with phase := .woken (s.completions.take n) } }, [],
    by rw [run, hw]; rfl, h.rearrange rfl ?_ List.length_set ?_⟩
  · have hset := perm_of_set hw { w with phase := .woken (s.completions.take n) }
    have hheld := perm_of_waiter hw
    rw [packets_of_blocked hblocked, List.nil_append] at hheld
    refine hheld.trans (List.Perm.trans ?_ (hset.symm.append_left _))
    refine List.Perm.trans ?_ (List.perm_append_comm_assoc _ _ _)
    rw [← List.append_assoc]
    exact (List.take_append_drop n s.completions).symm ▸ List.Perm.refl _
  · intro v hv
    rcases List.mem_or_eq_of_mem_set hv with hold | rfl
    · exact h.places v hold
    · exact ⟨Nat.le_trans (List.length_take_le n s.completions) hn,
        (h.places w (List.mem_of_getElem? hw)).events⟩

theorem Safe.expire (h : Safe s) (hw : s.waiters[i]? = some w) (hblocked : w.phase = .blocked) :
    ∃ s' out, s.run (.expire i) = some (s', out) ∧ Steps s (.expire i) s' out := by
  refine ⟨{ s with waiters := s.waiters.set i { w with phase := .failed } }, [],
    by rw [run, hw]; rfl, h.rearrange rfl ?_ List.length_set ?_⟩
  · have hset := perm_of_set hw { w with phase := .failed }
    have hheld := perm_of_waiter hw
    rw [packets_of_blocked hblocked, List.nil_append] at hheld
    exact hheld.trans (hset.symm.append_left _)
  · intro v hv
    rcases List.mem_or_eq_of_mem_set hv with hold | rfl
    · exact h.places v hold
    · exact (h.places w (List.mem_of_getElem? hw)).ended (Or.inr rfl)

/-- The section after the wait of a call that holds the lock again. -/
theorem Safe.pollEnd (h : Safe s) (hw : s.waiters[i]? = some w) (hwoken : w.phase ≠ .blocked)
    (due : Bool) (ans again : Answers) :
    ∃ p' evs, s.port.pollEnd due ans again w.phase = some (p', evs) ∧
      Port.Ends due ans again (s.completions ++ (s.waiters.eraseIdx i).flatMap Waiter.packets)
        s.port p' w.packets evs := by
  have hsound := h.sound.perm (perm_of_waiter hw)
  have hpos : 0 < s.port.activePollCount := by
    obtain ⟨hi, _⟩ := List.getElem?_eq_some_iff.mp hw
    rw [h.active]
    omega
  unfold Waiter.packets at hsound ⊢
  cases hphase : w.phase with
  | blocked => exact absurd hphase hwoken
  | failed =>
      rw [hphase] at hsound
      exact hsound.pollEnd_failed h.covers due ans again
  | woken fed =>
      rw [hphase] at hsound
      exact hsound.pollEnd_woken h.covers hpos due ans again

theorem Safe.resume (h : Safe s) (hw : s.waiters[i]? = some w) (hwoken : w.phase ≠ .blocked)
    (due : Bool) (ans again : Answers) :
    ∃ s' out, s.run (.resume i due ans again) = some (s', out) ∧
      Steps s (.resume i due ans again) s' out := by
  obtain ⟨p', evs, hend, hends⟩ := h.pollEnd hw hwoken due ans again
  obtain ⟨hi, _⟩ := List.getElem?_eq_some_iff.mp hw
  obtain ⟨q, told, hfeeds, hqsound, hlost, htold⟩ := hends.tells
  have hmine : w.packets ⊆ s.packets := fun x hx =>
    (perm_of_waiter hw).symm.subset (List.mem_append_left _ hx)
  have honce : w.packets.Nodup := by
    have hnodup := (h.sound.perm (perm_of_waiter hw)).outstanding
    exact (List.nodup_append.mp (List.nodup_append.mp hnodup).2.1).1
  have hable : (Action.resume i due ans again).Able → s.port.Drained → p'.Drained :=
    fun able _ => hends.drained (able ans (by simp [Action.answers]))
      (able again (by simp [Action.answers]))
  have hactive := hends.active
  cases evs with
  | none =>
      have hset : (s.completions ++ (s.waiters.eraseIdx i).flatMap Waiter.packets).Perm
          (s.completions ++
            (s.waiters.set i { w with phase := .blocked }).flatMap Waiter.packets) :=
        (perm_of_set hw { w with phase := .blocked }).symm.append_left _
      refine ⟨_, [], by rw [run, hw, Option.bind_some, hend]; rfl,
        ⟨hends.sound.perm hset, hends.covers, ?_, ?_⟩, ?_, hable⟩
      · simpa [h.active] using hactive
      · intro v hv
        rcases List.mem_or_eq_of_mem_set hv with hold | rfl
        · exact h.places v hold
        · exact (h.places w (List.mem_of_getElem? hw)).ended (Or.inl rfl)
      · exact .reports _ _ w.packets told q hmine honce hfeeds (hqsound.perm hset) hlost
          (Or.inl ⟨rfl, List.map_eq_nil_iff.mp htold.symm⟩)
  | some evs =>
      refine ⟨_, [.events evs], by rw [run, hw, Option.bind_some, hend]; rfl,
        ⟨hends.sound, hends.covers, ?_, ?_⟩, ?_, hable⟩
      · rw [List.length_eraseIdx_of_lt hi, ← h.active]
        exact hactive
      · exact fun v hv => h.places v (List.mem_of_mem_eraseIdx hv)
      · refine .reports _ _ w.packets told q hmine honce hfeeds hqsound hlost (Or.inr ?_)
        rw [← htold]
        rfl

/-- A call shows at most as many events as its caller has place for. -/
theorem Safe.length_events_le (h : Safe s) (hw : s.waiters[i]? = some w)
    (hwoken : w.phase ≠ .blocked) (due : Bool) (ans again : Answers) {evs : List EpollEvent}
    (hmem : .events evs ∈ s.shown (.resume i due ans again)) : evs.length ≤ w.maxEvents := by
  obtain ⟨p', ended, hend, hends⟩ := h.pollEnd hw hwoken due ans again
  obtain ⟨q, told, hfeeds, _, _, htold⟩ := hends.tells
  rw [shown, run, hw, Option.bind_some, hend] at hmem
  cases ended with
  | none => cases hmem
  | some shown =>
      obtain rfl : evs = shown := by simpa using hmem
      have hplaces := h.places w (List.mem_of_getElem? hw)
      calc evs.length = told.length := by
            rw [← List.length_map Prod.snd, ← htold]
            rfl
        _ = (told.map Prod.fst).length := (List.length_map _).symm
        _ ≤ w.packets.length := hfeeds.once.length_le
        _ ≤ w.maxEvents := Nat.le_trans hplaces.packets hplaces.events

/-- Every step that the system allows can be taken. -/
theorem Safe.run (h : Safe s) {a : Action} (hallowed : s.Allowed a) :
    ∃ s' out, s.run a = some (s', out) ∧ Steps s a s' out := by
  cases a with
  | ctl op ans => exact h.ctl hallowed
  | wait maxevents allocated ans again => exact h.wait maxevents allocated ans again
  | complete a status numberOfHandles afdEvents =>
      exact h.complete hallowed.1 status numberOfHandles afdEvents
  | dequeue i n =>
      obtain ⟨_, _, w, hw, hblocked, hn⟩ := hallowed
      exact h.dequeue hw hblocked hn
  | expire i =>
      obtain ⟨w, hw, hblocked⟩ := hallowed
      exact h.expire hw hblocked
  | resume i due ans again =>
      obtain ⟨w, hw, hwoken⟩ := hallowed
      exact h.resume hw hwoken due ans again

theorem Safe.step (h : Safe s) {a : Action} (hallowed : s.Allowed a)
    (hstep : s.step a = some s') : Steps s a s' (s.shown a) := by
  obtain ⟨t, out, hrun, hsteps⟩ := h.run hallowed
  rw [Epoll.step, hrun] at hstep
  obtain rfl := Option.some.inj hstep
  rw [shown, hrun]
  exact hsteps

theorem safe_of_run {guard : Epoll → Action → Prop} {as : List Action}
    (run : Run Epoll.step guard init as s) (allowed : ∀ s a, guard s a → s.Allowed a) : Safe s :=
  run.invariant (fun _ _ _ hguard hstep h => (h.step (allowed _ _ hguard) hstep).safe) safe_init

/-- In every run of threads and driver each step that the system allows can be taken: no
assertion fails, and neither the code nor the driver touches memory that is not allocated.
A poll is outstanding, or its packet under way, exactly for the `sock_state_t` that know
of it, and for each one once. Every registered socket is covered or on the update queue,
every removed one still waits for its packet. The waiting threads and the members of the
poll groups are counted right, and no caller gets more events than it has place for. -/
theorem never_faults (as : List Action) (s : Epoll) (run : Run Epoll.step Allowed init as s) :
    (∀ a, s.Allowed a → ∃ s', s.step a = some s') ∧
    (s.port.submitted ++ s.packets).Nodup ∧
    (∀ a, a ∈ s.port.submitted ++ s.packets ↔
      ∃ c, s.port.socks.get? a = some c ∧ c.pollStatus ≠ .idle) ∧
    (∀ a c, s.port.socks.get? a = some c →
      if c.deletePending then a ∈ s.port.submitted ++ s.packets
      else c.Covered ∨ a ∈ s.port.sockUpdateQueue) ∧
    s.port.activePollCount = s.waiters.length ∧
    (∀ g ∈ s.port.pollGroupQueue,
      g.groupSize = load s.port.socks g.address ∧ g.groupSize ≤ maxGroupSize) ∧
    ∀ i w due ans again evs, s.waiters[i]? = some w → w.phase ≠ .blocked →
      .events evs ∈ s.shown (.resume i due ans again) → evs.length ≤ w.maxEvents := by
  have h := safe_of_run run fun _ _ hallowed => hallowed
  refine ⟨fun a hallowed => ?_, h.sound.outstanding, fun a => ?_, fun a c hc => ?_, h.active,
    fun g hg => ⟨h.sound.groups.sizes g hg, h.sound.groups.bound g hg⟩,
    fun i w due ans again evs hw hwoken hmem => h.length_events_le hw hwoken due ans again hmem⟩
  · obtain ⟨s', out, hrun, _⟩ := h.run hallowed
    exact ⟨s', by rw [Epoll.step, hrun]; rfl⟩
  · constructor
    · intro hbusy
      cases h.sound.fits a with
      | absent _ busy => exact absurd hbusy busy
      | live c sock _ busy => exact ⟨c, sock, busy.mp hbusy⟩
      | dying c sock _ _ waiting => exact ⟨c, sock, waiting⟩
    · rintro ⟨c, hc, hwaiting⟩
      cases hremoved : c.deletePending with
      | false => exact (h.sound.live hc hremoved).1.mpr hwaiting
      | true => exact (h.sound.dying hc hremoved).1
  · cases hremoved : c.deletePending with
    | false => simpa using h.covers a c (by simp) hc hremoved
    | true => simpa using (h.sound.dying hc hremoved).1

/-- What the system answers when it refuses nothing. -/
def granting (sock group : Nat) : Answers where
  baseSocket := some 7
  newGroup := .ok group
  newSock := some sock
  afdPoll := fun _ => .started
  cancelIo := fun _ => true

/-- A socket is removed while its poll is outstanding, and added again before the packet
of that poll is looked at. -/
def removedWhilePolled : List Action :=
  [.ctl (.add 5 ⟨EPOLLIN, 50⟩) (granting 100 10),
    .wait 8 true (granting 0 0) (granting 0 0),
    .ctl (.del 5) (granting 0 0),
    .complete 100 .cancelled 0 0,
    .dequeue 0 1,
    .ctl (.add 5 ⟨EPOLLOUT, 51⟩) (granting 200 20)]

theorem never_faults_removedWhilePolled :
    ∃ s, Run Epoll.step Allowed init removedWhilePolled s ∧
      ∃ s', s.step (.resume 0 false (granting 0 0) (granting 0 0)) = some s' := by
  obtain ⟨s, hs⟩ := Option.isSome_iff_exists.mp
    (show (exec (checked Epoll.step Allowed) init removedWhilePolled).isSome = true by decide)
  refine ⟨s, run_of_checked hs, (never_faults _ s (run_of_checked hs)).1 _ ?_⟩
  have hallowed : ((exec (checked Epoll.step Allowed) init removedWhilePolled).any fun s =>
      s.Allowed (.resume 0 false (granting 0 0) (granting 0 0))) = true := by decide
  simpa [hs] using hallowed

end Epoll

end FFZKit.Win32.Wepoll
