import FFZKit.Foundations.Accepts
import FFZKit.Win32.WepollRuns

/-!
# The interest list of a wepoll port

To its users a port is a list of the sockets that are watched, each with its events
and data. This says what every call does to that list and what it may report. The
`sock_state_t`, the groups, the polls and their packets are not seen.
-/

namespace FFZKit.Win32.Wepoll

open FFZKit.Foundations.Transition

/-- The sockets that are watched, with their events and data. -/
abbrev Interest : Type := Nat → Option EpollEvent

/-- Errors and hang-ups are always watched for. -/
def EpollEvent.required (ev : EpollEvent) : EpollEvent :=
  { ev with events := ev.events ||| EPOLLERR ||| EPOLLHUP }

/-- After a report nothing more is watched where one report was asked for. -/
def EpollEvent.reported (ev : EpollEvent) : EpollEvent :=
  if ev.events &&& EPOLLONESHOT ≠ 0 then { ev with events := 0 } else ev

namespace Interest

variable {closed : Nat → Prop} {i i' i'' : Interest}

/-- Some sockets that were closed are watched no more. -/
def Drops (closed : Nat → Prop) (i i' : Interest) : Prop :=
  ∀ k, i' k = i k ∨ (i' k = none ∧ closed k)

theorem Drops.refl (closed : Nat → Prop) (i : Interest) : Drops closed i i := fun _ => Or.inl rfl

theorem Drops.trans (h : Drops closed i i') (h' : Drops closed i' i'') : Drops closed i i'' := by
  intro k
  rcases h' k with hsame | hlost
  · rw [hsame]
    exact h k
  · exact Or.inr hlost

theorem Drops.imp {closed' : Nat → Prop} (h : Drops closed i i')
    (himp : ∀ k, closed k → closed' k) : Drops closed' i i' :=
  fun k => (h k).imp_right fun hlost => ⟨hlost.1, himp k hlost.2⟩

/-- The report tells of a watched event, with the data of its socket. -/
def Watched (i : Interest) (k : Nat) (report : EpollEvent) : Prop :=
  ∃ ev, i k = some ev ∧ report.data = ev.data ∧ report.events ≠ 0 ∧
    report.events &&& ev.events = report.events

/-- The list after a report of each of the given sockets. -/
def reported (i : Interest) (told : List Nat) : Interest :=
  fun k => if k ∈ told then (i k).map EpollEvent.reported else i k

/-- What may be seen of one step. A call fails without any effect. A socket is added
only if it is not watched, changed or removed only if it is. Each report is of another
watched socket. Nothing is removed otherwise, unless it was closed. -/
inductive Acts (closed : Nat → Prop) : Interest → List Output → Interest → Prop
  | refused (i : Interest) (op : Ctl) (e : Error)
      (missing : ∀ k ev, op = .mod k ev ∨ op = .del k → e = .notFound ∧ i k = none) :
      Acts closed i [.control op (.error e)] i
  | added (i i' : Interest) (k : Nat) (ev : EpollEvent) (unwatched : i k = none)
      (drops : Drops closed (Function.update i k (some ev.required)) i') :
      Acts closed i [.control (.add k ev) (.ok ())] i'
  | modified (i i' : Interest) (k : Nat) (ev : EpollEvent) (watched : i k ≠ none)
      (drops : Drops closed (Function.update i k (some ev.required)) i') :
      Acts closed i [.control (.mod k ev) (.ok ())] i'
  | removed (i : Interest) (k : Nat) (watched : i k ≠ none) :
      Acts closed i [.control (.del k) (.ok ())] (Function.update i k none)
  | silent (i i' : Interest) (drops : Drops closed i i') : Acts closed i [] i'
  | returned (i i' : Interest) (told : List (Nat × EpollEvent))
      (distinct : (told.map Prod.fst).Nodup) (watched : ∀ x ∈ told, Watched i x.1 x.2)
      (drops : Drops closed (i.reported (told.map Prod.fst)) i') :
      Acts closed i [.events (told.map Prod.snd)] i'

end Interest

/-- What is seen of a step, and the sockets that the system has told to be closed in it. -/
structure Observation where
  shown : List Output
  closed : Nat → Prop

/-- The interest list of a port. -/
def Port.interest (p : Port) : Interest := fun k =>
  ((p.findSocket k).bind p.watch).map fun w => ⟨w.events, w.data⟩

/-- The address that a call of `epoll_ctl` may give to a new socket. -/
def Action.newSock : Action → Option Nat
  | .ctl _ ans => ans.newSock
  | _ => none

namespace Epoll

/-- The address of a socket, which it has or gets in this step. -/
def home (s : Epoll) (a : Action) (k : Nat) : Option Nat := (s.port.findSocket k).or a.newSock

/-- A poll of the socket was refused since it is closed, or the packet of one says so. -/
def Closed (s : Epoll) (a : Action) (k : Nat) : Prop :=
  ∃ b, s.home a k = some b ∧
    (ToldClosed a.answers b ∨ (b ∈ s.packets ∧ s.port.FoundClosed b))

def observe (s : Epoll) (a : Action) : Observation := ⟨s.shown a, s.Closed a⟩

end Epoll

namespace Port

variable {p p' q : Port} {packets packets' : List Nat} {a b k : Nat} {w : Watch}

theorem interest_of_watch (h : Sound p packets) (hw : p.watch a = some w) :
    p.interest w.key = some ⟨w.events, w.data⟩ := by
  rw [interest, h.findSocket_iff.mpr ⟨w, hw, rfl⟩, Option.bind_some, hw, Option.map_some]

theorem interest_of_none (hfind : p.findSocket k = none) : p.interest k = none := by
  rw [interest, hfind, Option.bind_none, Option.map_none]

theorem interest_of_find (hfind : p.findSocket k = some a) (hw : p.watch a = some w) :
    p.interest k = some ⟨w.events, w.data⟩ := by
  rw [interest, hfind, Option.bind_some, hw, Option.map_some]

/-- Who is watched later was watched before, at the same address. -/
def Keeps (p q : Port) : Prop :=
  ∀ b w, q.watch b = some w → ∃ w', p.watch b = some w' ∧ w'.key = w.key

theorem Keeps.findSocket (hkeeps : Keeps p q) (h : Sound p packets) (h' : Sound q packets')
    (hfind : q.findSocket k = some b) : p.findSocket k = some b := by
  obtain ⟨w, hw, hkey⟩ := h'.findSocket_iff.mp hfind
  obtain ⟨w', hw', hkey'⟩ := hkeeps b w hw
  exact h.findSocket_iff.mpr ⟨w', hw', hkey'.trans hkey⟩

theorem Loses.keeps {closed : Nat → Prop} (h : Loses closed p q) : Keeps p q := by
  intro b w hw
  rcases h b with hsame | ⟨hnone, _⟩
  · exact ⟨w, hsame.symm.trans hw, rfl⟩
  · rw [hnone] at hw
    cases hw

/-- What is lost at an address is lost for the socket that is there. -/
theorem Keeps.drops {closed : Nat → Prop} {i : Interest} (hkeeps : Keeps p q)
    (h : Sound p packets) (h' : Sound q packets') (hnone : ∀ k, p.findSocket k = none → i k = none)
    (hsome : ∀ k b, p.findSocket k = some b →
      q.interest k = i k ∨ (q.watch b = none ∧ closed b)) :
    Interest.Drops (fun k => ∃ b, p.findSocket k = some b ∧ closed b) i q.interest := by
  intro k
  cases hfind : p.findSocket k with
  | none =>
      left
      rw [hnone k hfind]
      apply interest_of_none
      cases hlater : q.findSocket k with
      | none => rfl
      | some b =>
          rw [hkeeps.findSocket h h' hlater] at hfind
          cases hfind
  | some b =>
      rcases hsome k b hfind with hsame | ⟨hlost, hclosed⟩
      · exact Or.inl hsame
      · refine Or.inr ⟨?_, b, hfind, hclosed⟩
        cases hlater : q.findSocket k with
        | none => exact interest_of_none hlater
        | some b' =>
            obtain rfl : b = b' :=
              Option.some.inj (hfind.symm.trans (hkeeps.findSocket h h' hlater))
            rw [interest, hlater, Option.bind_some, hlost, Option.map_none]

theorem Loses.drops {closed : Nat → Prop} (hloses : Loses closed p q) (h : Sound p packets)
    (h' : Sound q packets') :
    Interest.Drops (fun k => ∃ b, p.findSocket k = some b ∧ closed b) p.interest q.interest := by
  apply hloses.keeps.drops h h' fun k => interest_of_none
  intro k b hfind
  rcases hloses b with hsame | hlost
  · left
    obtain ⟨w, hw, rfl⟩ := h.findSocket_iff.mp hfind
    rw [interest_of_watch h' (hsame.trans hw), interest_of_watch h hw]
  · exact Or.inr hlost

/-- What is set at the address of a socket is set for the socket only. -/
theorem Sets.interest {new : Option Watch} (hsets : Sets p q a new) (h : Sound p packets)
    (h' : Sound q packets') (hhere : ∀ w, p.watch a = some w → w.key = k)
    (hnew : ∀ w, new = some w → w.key = k)
    (honly : ∀ b w, p.watch b = some w → w.key = k → b = a) :
    q.interest = Function.update p.interest k (new.map fun w => ⟨w.events, w.data⟩) := by
  have hother : ∀ k', k' ≠ k → ∀ b w, w.key = k' → (q.watch b = some w ↔ p.watch b = some w) := by
    rintro _ hne b w rfl
    by_cases hb : b = a
    · subst hb
      refine ⟨fun hw => absurd (hnew w (hsets.here.symm.trans hw)) hne, fun hw => ?_⟩
      exact absurd (hhere w hw) hne
    · rw [hsets.others b hb]
  funext k'
  by_cases hk : k' = k
  · subst hk
    rw [Function.update_self]
    cases hset : new with
    | some w =>
        obtain rfl := hnew w hset
        exact interest_of_watch h' (hsets.here.trans hset)
    | none =>
        apply interest_of_none
        rw [h'.unwatched_iff]
        intro b w hw hkey
        by_cases hb : b = a
        · rw [hb, hsets.here, hset] at hw
          cases hw
        · exact hb (honly b w ((hsets.others b hb).symm.trans hw) hkey)
  · rw [Function.update_of_ne hk]
    have hfind : q.findSocket k' = p.findSocket k' := by
      ext b
      rw [h'.findSocket_iff, h.findSocket_iff]
      constructor
      · rintro ⟨w, hw, hkey⟩
        exact ⟨w, (hother k' hk b w hkey).mp hw, hkey⟩
      · rintro ⟨w, hw, hkey⟩
        exact ⟨w, (hother k' hk b w hkey).mpr hw, hkey⟩
    cases hp : p.findSocket k' with
    | none => rw [interest_of_none hp, interest_of_none (hfind.trans hp)]
    | some b =>
        obtain ⟨w, hw, hkey⟩ := h.findSocket_iff.mp hp
        rw [interest_of_find hp hw,
          interest_of_find (hfind.trans hp) ((hother k' hk b w hkey).mpr hw)]

/-- The socket at an address. -/
def keyAt (p : Port) (b : Nat) : Nat := ((p.watch b).map Watch.key).getD 0

theorem keyAt_of_watch (hw : p.watch b = some w) : p.keyAt b = w.key := by
  rw [keyAt, hw, Option.map_some, Option.getD_some]

/-- Different addresses are those of different sockets. -/
theorem Sound.keyAt_injective (h : Sound p packets) {w' : Watch} (hw : p.watch a = some w)
    (hw' : p.watch b = some w') (hsame : p.keyAt a = p.keyAt b) : a = b := by
  rw [keyAt_of_watch hw, keyAt_of_watch hw'] at hsame
  have hfind : p.findSocket w.key = some a := h.findSocket_iff.mpr ⟨w, hw, rfl⟩
  have hfind' : p.findSocket w.key = some b := h.findSocket_iff.mpr ⟨w', hw', hsame.symm⟩
  exact Option.some.inj (hfind.symm.trans hfind')

/-- The reports with the sockets that they are of. -/
def reports (p : Port) (told : List (Nat × EpollEvent)) : List (Nat × EpollEvent) :=
  told.map fun x => (p.keyAt x.1, x.2)

variable {fed : List Nat} {told : List (Nat × EpollEvent)}

theorem FeedsAll.keeps (h : FeedsAll p q fed told) : Keeps p q := by
  intro b w hw
  rcases h.after b with hsame | ⟨hnone, _⟩
  · rw [hsame] at hw
    split at hw
    · obtain ⟨w', hw', rfl⟩ := Option.map_eq_some_iff.mp hw
      refine ⟨w', hw', ?_⟩
      unfold Watch.reported
      split <;> rfl
    · exact ⟨w, hw, rfl⟩
  · rw [hnone] at hw
    cases hw

theorem FeedsAll.distinct (hfeeds : FeedsAll p q fed told) (h : Sound p packets)
    (honce : fed.Nodup) : ((p.reports told).map Prod.fst).Nodup := by
  have hkeys : (p.reports told).map Prod.fst = (told.map Prod.fst).map p.keyAt := by
    simp only [reports, List.map_map, Function.comp_def]
  rw [hkeys]
  apply List.Nodup.map_on _ (honce.sublist hfeeds.once)
  intro a ha b hb hsame
  obtain ⟨x, hx, rfl⟩ := List.mem_map.mp ha
  obtain ⟨y, hy, rfl⟩ := List.mem_map.mp hb
  obtain ⟨w, hw, _⟩ := hfeeds.tells x hx
  obtain ⟨w', hw', _⟩ := hfeeds.tells y hy
  exact h.keyAt_injective hw hw' hsame

theorem FeedsAll.watched (hfeeds : FeedsAll p q fed told) (h : Sound p packets) :
    ∀ x ∈ p.reports told, p.interest.Watched x.1 x.2 := by
  intro x hx
  obtain ⟨y, hy, rfl⟩ := List.mem_map.mp hx
  obtain ⟨w, hw, hdata, hne, hevents⟩ := hfeeds.tells y hy
  refine ⟨⟨w.events, w.data⟩, ?_, hdata, hne, hevents⟩
  rw [keyAt_of_watch hw]
  exact interest_of_watch h hw

/-- A socket is reported exactly when its address is. -/
theorem FeedsAll.mem_reports (hfeeds : FeedsAll p q fed told) (h : Sound p packets)
    (hw : p.watch b = some w) :
    w.key ∈ (p.reports told).map Prod.fst ↔ b ∈ told.map Prod.fst := by
  simp only [reports, List.map_map, List.mem_map, Function.comp_apply]
  constructor
  · rintro ⟨x, hx, hkey⟩
    obtain ⟨w', hw', _⟩ := hfeeds.tells x hx
    rw [← keyAt_of_watch hw] at hkey
    exact ⟨x, hx, h.keyAt_injective hw' hw hkey⟩
  · rintro ⟨x, hx, rfl⟩
    exact ⟨x, hx, keyAt_of_watch hw⟩

theorem interest_reported (w : Watch) :
    (⟨w.reported.events, w.reported.data⟩ : EpollEvent) =
      EpollEvent.reported ⟨w.events, w.data⟩ := by
  unfold Watch.reported EpollEvent.reported
  split <;> rfl

theorem FeedsAll.drops (hfeeds : FeedsAll p q fed told) (h : Sound p packets)
    (h' : Sound q packets') :
    Interest.Drops (fun k => ∃ b, p.findSocket k = some b ∧ b ∈ fed ∧ FoundClosed p b)
      (p.interest.reported ((p.reports told).map Prod.fst)) q.interest := by
  apply hfeeds.keeps.drops h h'
  · intro k hfind
    simp only [Interest.reported, interest_of_none hfind, Option.map_none, ite_self]
  · intro k b hfind
    obtain ⟨w, hw, rfl⟩ := h.findSocket_iff.mp hfind
    apply (hfeeds.after b).imp_left
    intro hafter
    rw [Interest.reported, if_congr (hfeeds.mem_reports h hw) rfl rfl, interest_of_watch h hw]
    rw [hw] at hafter
    by_cases htold : b ∈ told.map Prod.fst
    · rw [if_pos htold] at hafter ⊢
      have hkey : w.reported.key = w.key := by
        unfold Watch.reported
        split <;> rfl
      rw [← hkey, interest_of_watch h' hafter, interest_reported, Option.map_some]
    · rw [if_neg htold] at hafter ⊢
      exact interest_of_watch h' hafter

/-- Ports that watch alike have one interest list. -/
theorem interest_congr {p q : Port} {packets packets' : List Nat} (h : Sound p packets)
    (h' : Sound q packets') (hwatch : ∀ b, q.watch b = p.watch b) : q.interest = p.interest := by
  have hloses : Loses (fun _ => False) p q := fun b => Or.inl (hwatch b)
  funext k
  rcases hloses.drops h h' k with hsame | ⟨_, _, _, hfalse⟩
  · exact hsame
  · exact hfalse.elim

theorem only_of_watch (hw : p.watch a = some w) : ∀ w', p.watch a = some w' → w'.key = w.key := by
  intro w' hw'
  rw [Option.some.inj (hw'.symm.trans hw)]

/-- A socket is watched at one address only. -/
theorem Sound.only_at (h : Sound p packets) (hw : p.watch a = some w) :
    ∀ b w', p.watch b = some w' → w'.key = w.key → b = a := by
  intro b w' hw' hkey
  have hfind : p.findSocket w.key = some b := h.findSocket_iff.mpr ⟨w', hw', hkey⟩
  exact Option.some.inj (hfind.symm.trans (h.findSocket_iff.mpr ⟨w, hw, rfl⟩))

theorem acts_of_controls {p p' : Port} {packets packets' : List Nat} {op : Ctl} {ans : Answers}
    {r : Except Error Unit} {closed : Nat → Prop} (h : Sound p packets) (h' : Sound p' packets')
    (hclosed : ∀ k b, (p.findSocket k).or ans.newSock = some b → ans.afdPoll b = .closed →
      closed k) (hcontrols : Controls ans packets p p' op r) :
    Interest.Acts closed p.interest [.control op r] p'.interest := by
  cases hcontrols with
  | refused op e same missing =>
      rw [interest_congr h h' same]
      refine .refused _ op e fun k ev hop => ?_
      obtain ⟨herror, hunwatched⟩ := missing k ev hop
      exact ⟨herror, interest_of_none (h.unwatched_iff.mpr hunwatched)⟩
  | added socket ev a q home fresh unwatched sound sets lost =>
      have hfind := h.unwatched_iff.mpr unwatched
      have hinterest := sets.interest (k := socket) h sound (by simp [fresh])
        (by rintro w ⟨⟩; rfl) fun b w hw hkey => absurd hkey (unwatched b w hw)
      refine .added _ _ socket ev (interest_of_none hfind) ?_
      have hdrops := lost.drops sound h'
      rw [hinterest] at hdrops
      apply hdrops.imp
      rintro k ⟨b, hb, hpoll⟩
      refine hclosed k b ?_ hpoll
      obtain ⟨w, hw, rfl⟩ := sound.findSocket_iff.mp hb
      by_cases hba : b = a
      · subst hba
        obtain rfl := Option.some.inj (sets.here.symm.trans hw)
        exact (congrArg (Option.or · ans.newSock) hfind).trans home
      · rw [h.findSocket_iff.mpr ⟨w, (sets.others b hba).symm.trans hw, rfl⟩]
        rfl
  | modified socket ev a q found sound sets lost =>
      obtain ⟨w, hw, rfl⟩ := h.findSocket_iff.mp found
      have hinterest := sets.interest (k := w.key) h sound (only_of_watch hw)
        (by rintro w ⟨⟩; rfl) (h.only_at hw)
      refine .modified _ _ w.key ev (by simp [interest_of_watch h hw]) ?_
      have hdrops := lost.drops sound h'
      rw [hinterest] at hdrops
      apply hdrops.imp
      rintro k ⟨b, hb, hpoll⟩
      have hkeeps : Keeps p q := by
        intro b w' hw'
        by_cases hba : b = a
        · subst hba
          obtain rfl := Option.some.inj (sets.here.symm.trans hw')
          exact ⟨w, hw, rfl⟩
        · exact ⟨w', (sets.others b hba).symm.trans hw', rfl⟩
      refine hclosed k b ?_ hpoll
      rw [hkeeps.findSocket h sound hb]
      rfl
  | removed socket a found sets =>
      obtain ⟨w, hw, rfl⟩ := h.findSocket_iff.mp found
      rw [sets.interest (k := w.key) h h' (only_of_watch hw) (by simp) (h.only_at hw)]
      exact .removed _ w.key (by simp [interest_of_watch h hw])

theorem acts_of_does {s s' : Epoll} {a : Action} {out : List Output} (h : s.Safe) (h' : s'.Safe)
    (hdoes : s.Does s' a out) :
    Interest.Acts (s.Closed a) s.port.interest out s'.port.interest := by
  cases hdoes with
  | control op ans r controls =>
      apply acts_of_controls h.sound h'.sound _ controls
      intro k b hhome hpoll
      exact ⟨b, hhome, Or.inl ⟨ans, by simp [Action.answers], hpoll⟩⟩
  | quiet a same =>
      rw [interest_congr h.sound h'.sound same]
      exact .silent _ _ (Interest.Drops.refl _ _)
  | reports a out fed told q held once feeds sound lost shown =>
      have hfed : Interest.Drops (s.Closed a)
          (s.port.interest.reported ((s.port.reports told).map Prod.fst)) q.interest := by
        apply (feeds.drops h.sound sound).imp
        rintro k ⟨b, hfind, hmem, hfound⟩
        exact ⟨b, by rw [Epoll.home, hfind]; rfl, Or.inr ⟨held hmem, hfound⟩⟩
      have hupdated : Interest.Drops (s.Closed a) q.interest s'.port.interest := by
        apply (lost.drops sound h'.sound).imp
        rintro k ⟨b, hfind, htold⟩
        have hold := feeds.keeps.findSocket h.sound sound hfind
        exact ⟨b, by rw [Epoll.home, hold]; rfl, Or.inl htold⟩
      have hdrops := hfed.trans hupdated
      rcases shown with ⟨rfl, rfl⟩ | rfl
      · exact .silent _ _ hdrops
      · have hshown : (s.port.reports told).map Prod.snd = told.map Prod.snd := by
          simp only [reports, List.map_map, Function.comp_def]
        rw [← hshown]
        exact .returned _ _ _ (feeds.distinct h.sound once) (feeds.watched h.sound) hdrops

end Port

/-- To its users a port is its interest list: whatever the threads and the driver do, what
the calls return is what the list and the closed sockets allow, and each call acts on the
list as it says. -/
theorem run_interest (as : List Action) (s : Epoll)
    (run : Run Epoll.step Epoll.Allowed Epoll.init as s) :
    Accepts (fun i (o : Observation) i' => Interest.Acts o.closed i o.shown i') (fun _ => none)
      (outputs Epoll.step (fun s a => [s.observe a]) Epoll.init as) s.port.interest := by
  have hinit : Epoll.init.port.interest = fun _ => none := rfl
  rw [← hinit]
  apply run.accepted (P := Epoll.Safe) (v := fun s => s.port.interest)
  · exact fun s a t hallowed hstep h => (h.step hallowed hstep).safe
  · intro s a t hallowed hstep h
    have hsteps := h.step hallowed hstep
    exact Port.acts_of_does h hsteps.safe hsteps.does
  · exact Epoll.safe_init

/-- A socket is watched for one report, which a waiting thread returns. -/
def reportedOnce : List Action :=
  [.ctl (.add 5 ⟨EPOLLIN ||| EPOLLONESHOT, 50⟩) (Epoll.granting 100 10),
    .wait 8 true (Epoll.granting 0 0) (Epoll.granting 0 0),
    .complete 100 .success 1 AFD_POLL_RECEIVE,
    .dequeue 0 1,
    .resume 0 false (Epoll.granting 0 0) (Epoll.granting 0 0)]

theorem run_interest_reportedOnce :
    ∃ s, exec (checked Epoll.step Epoll.Allowed) Epoll.init reportedOnce = some s ∧
      s.port.interest 5 = some ⟨0, 50⟩ ∧
      Accepts (fun i (o : Observation) i' => Interest.Acts o.closed i o.shown i') (fun _ => none)
        (outputs Epoll.step (fun s a => [s.observe a]) Epoll.init reportedOnce)
        s.port.interest := by
  obtain ⟨s, hs⟩ := Option.isSome_iff_exists.mp
    (show (exec (checked Epoll.step Epoll.Allowed) Epoll.init reportedOnce).isSome = true by decide)
  refine ⟨s, hs, ?_, run_interest reportedOnce s (run_of_checked hs)⟩
  have hinterest : (exec (checked Epoll.step Epoll.Allowed) Epoll.init reportedOnce).map
      (fun s => s.port.interest 5) = some (some ⟨0, 50⟩) := by decide
  rw [hs] at hinterest
  exact Option.some.inj hinterest

end FFZKit.Win32.Wepoll
