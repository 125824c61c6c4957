import FFZKit.Poller.SyncCall

/-!
# What a call of `sync` finds when it returns

The frame of a call shows how far its lambda has come: nothing is posted before
the task has run, one unit is posted when it has, and the wait that takes it is
the return. So after the return nobody holds the lambda any more. A lambda that
the destructor's flush misses is never run, and its call never returns.
-/

namespace FFZKit.Poller.SyncCall

open FFZKit.Foundations.Transition FFZKit.Thread
open FFZKit.Poller.TaskHandover (EventPoller Task PipeEvent Runner Ledger)

variable {Thread : Type*}

section Poller

variable {p p' : EventPoller Thread} {x : Task}

theorem isRunning_iff : isRunning p x = true ↔ ∃ r, current (p.event r) = some x := by
  simp only [isRunning, Bool.or_eq_true, decide_eq_true_eq]
  constructor
  · rintro (h | h)
    · exact ⟨.loop, h⟩
    · exact ⟨.dtor, h⟩
  · rintro ⟨r, h⟩
    cases r with
    | loop => exact Or.inl h
    | dtor => exact Or.inr h

theorem event_setEvent_of_ne (p : EventPoller Thread) (e : PipeEvent) {r r' : Runner}
    (h : r ≠ r') : (p.setEvent e r').event r = p.event r := by
  cases r <;> cases r' <;> first | exact absurd rfl h | rfl

/-- What a step does to one runner when it is not the end of a task: nothing, or
the runner comes from outside a task and a task that it goes into has been called. -/
def GoesOn (p p' : EventPoller Thread) (r : Runner) : Prop :=
  p'.event r = p.event r ∨
    (current (p.event r) = none ∧ ∀ x, current (p'.event r) = some x → x ∈ p'.ran)

/-- The runner that moves goes on by its own event, and the other stays. -/
theorem GoesOn.of_event {e e' : PipeEvent} {r' : Runner} (he : p.event r' = some e)
    (he' : p'.event r' = some e') (hother : ∀ r, r ≠ r' → p'.event r = p.event r)
    (hidle : current (some e) = none) (hcalled : ∀ x, current (some e') = some x → x ∈ p'.ran)
    {r : Runner} : GoesOn p p' r := by
  by_cases hsame : r = r'
  · subst hsame
    rw [GoesOn, he, he']
    exact Or.inr ⟨hidle, hcalled⟩
  · exact Or.inl (hother r hsame)

/-- A step that changes the phase of the loop only, to one outside a task. -/
theorem GoesOn.of_loop (hidle : current (p.event .loop) = none)
    (hidle' : current (p'.event .loop) = none) (hdtor : p'.dtor = p.dtor) {r : Runner} :
    GoesOn p p' r := by
  cases r with
  | loop => exact Or.inr ⟨hidle, by simp [hidle']⟩
  | dtor => exact Or.inl (by simp only [EventPoller.event, hdtor])

/-- A step that changes the phase of the destructor only, to one outside a task. -/
theorem GoesOn.of_dtor (hidle : current (p.event .dtor) = none)
    (hidle' : current (p'.event .dtor) = none) (hloop : p'.loop = p.loop) {r : Runner} :
    GoesOn p p' r := by
  cases r with
  | loop => exact Or.inl (by simp only [EventPoller.event, hloop])
  | dtor => exact Or.inr ⟨hidle, by simp [hidle']⟩

theorem current_loop_of_polling (h : p.loop = .polling) : current (p.event .loop) = none := by
  simp [EventPoller.event, h, TaskHandover.LoopPhase.event, current]

theorem current_loop_of_inPipeEvent {e : PipeEvent} (h : p.loop = .inPipeEvent e)
    (hidle : current (some e) = none) : current (p.event .loop) = none := by
  rw [TaskHandover.EventPoller.event_loop_iff.mpr h, hidle]

theorem current_dtor_of_event (h : p.dtor.event = none) : current (p.event .dtor) = none := by
  simp only [EventPoller.event, h, current]

section Step

variable [DecidableEq Thread]

/-- A runner that is inside a task stays there until its own `finish`. -/
theorem event_step {cap : Nat} {a : TaskHandover.Action Thread}
    (hstep : TaskHandover.step cap p a = some p') (r : Runner) :
    GoesOn p p' r ∨ ∃ outcome, a = .finish r outcome ∧ current (p'.event r) = none := by
  cases (TaskHandover.step_moves hstep).2 with
  | sync => exact Or.inl (Or.inl rfl)
  | push => exact Or.inl (Or.inl rfl)
  | write => exact Or.inl (Or.inl rfl)
  | wake hloop =>
      left
      apply GoesOn.of_loop (current_loop_of_polling hloop)
      · rfl
      · rfl
  | readSome hloop =>
      left
      apply GoesOn.of_loop
      · rcases hloop with hloop | hloop <;> exact current_loop_of_inPipeEvent hloop rfl
      · rfl
      · rfl
  | readAgain hloop =>
      left
      apply GoesOn.of_loop
      · rcases hloop with hloop | hloop <;> exact current_loop_of_inPipeEvent hloop rfl
      · rfl
      · rfl
  | @swap r' h =>
      left
      apply GoesOn.of_event h (TaskHandover.EventPoller.setEvent_event _ _ _)
      · exact fun _ hne => event_setEvent_of_ne p _ hne
      · rfl
      · simp [current]
  | @begin r' task rest h =>
      left
      have hevent : (p.begin r' task rest).event r' = some (.running task rest) :=
        TaskHandover.EventPoller.setEvent_event p (.running task rest) r'
      apply GoesOn.of_event h hevent
      · exact fun _ hne => event_setEvent_of_ne p _ hne
      · rfl
      · simp [current, EventPoller.begin]
  | @finish r' outcome task rest h =>
      by_cases hsame : r = r'
      · subst hsame
        have hevent : (p.finish r task rest).event r = some (.batch rest) :=
          TaskHandover.EventPoller.setEvent_event _ _ _
        exact Or.inr ⟨outcome, rfl, by rw [hevent]; rfl⟩
      · exact Or.inl (Or.inl (event_setEvent_of_ne p _ hsame))
  | @leaveEvent r' h =>
      left
      cases r' with
      | loop =>
          apply GoesOn.of_loop
          · rw [h]
            rfl
          · rfl
          · rfl
      | dtor =>
          apply GoesOn.of_dtor
          · rw [h]
            rfl
          · rfl
          · rfl
  | exitLoop hloop =>
      left
      apply GoesOn.of_loop (current_loop_of_polling hloop)
      · rfl
      · rfl
  | shutdown hdtor =>
      left
      apply GoesOn.of_dtor (current_dtor_of_event (by rw [hdtor]; rfl))
      · rfl
      · rfl
  | join hdtor =>
      left
      apply GoesOn.of_dtor (current_dtor_of_event (by rw [hdtor]; rfl))
      · rfl
      · rfl
  | flush hdtor =>
      left
      apply GoesOn.of_dtor (current_dtor_of_event (by rw [hdtor]; rfl))
      · rfl
      · rfl

/-- A call in progress ends with its own `finish` only. -/
theorem isRunning_step {cap : Nat} {a : TaskHandover.Action Thread}
    (hstep : TaskHandover.step cap p a = some p') (hrunning : isRunning p x = true) :
    isRunning p' x = true ∨
      ∃ r outcome, a = .finish r outcome ∧ current (p.event r) = some x := by
  obtain ⟨r, hr⟩ := isRunning_iff.mp hrunning
  rcases event_step hstep r with (hsame | ⟨hnone, _⟩) | ⟨outcome, hfinish, _⟩
  · exact Or.inl (isRunning_iff.mpr ⟨r, by rw [hsame, hr]⟩)
  · rw [hnone] at hr
    cases hr
  · exact Or.inr ⟨r, outcome, hfinish, hr⟩

/-- The histories only grow. -/
theorem histories_step {cap : Nat} {a : TaskHandover.Action Thread}
    (hstep : TaskHandover.step cap p a = some p') : p.pushed ⊆ p'.pushed ∧ p.ran ⊆ p'.ran := by
  cases (TaskHandover.step_moves hstep).2 with
  | push => exact ⟨List.subset_append_left _ _, List.Subset.refl _⟩
  | shutdown => exact ⟨List.subset_append_left _ _, List.Subset.refl _⟩
  | begin => simp [EventPoller.begin]
  | swap => simp [EventPoller.swap]
  | finish => simp [EventPoller.finish]
  | @leaveEvent r => cases r <;> exact ⟨List.Subset.refl _, List.Subset.refl _⟩
  | _ => exact ⟨List.Subset.refl _, List.Subset.refl _⟩

/-- A task that is running has been called. -/
theorem running_called {cap : Nat} {a : TaskHandover.Action Thread}
    (hstep : TaskHandover.step cap p a = some p')
    (h : ∀ x, isRunning p x = true → x ∈ p.ran) : ∀ x, isRunning p' x = true → x ∈ p'.ran := by
  intro x hx
  obtain ⟨r, hr⟩ := isRunning_iff.mp hx
  rcases event_step hstep r with (hsame | ⟨_, hcalled⟩) | ⟨_, _, hnone⟩
  · rw [hsame] at hr
    exact (histories_step hstep).2 (h x (isRunning_iff.mpr ⟨r, hr⟩))
  · exact hcalled x hr
  · rw [hnone] at hr
    cases hr

/-- A task is newly called when it is running. -/
theorem running_of_newly_called {cap : Nat} {a : TaskHandover.Action Thread}
    (hstep : TaskHandover.step cap p a = some p') (hx : x ∈ p'.ran) :
    x ∈ p.ran ∨ isRunning p' x = true := by
  cases (TaskHandover.step_moves hstep).2 with
  | @begin r task rest h =>
      rcases List.mem_append.mp hx with hold | hnew
      · exact Or.inl (by simpa using hold)
      · right
        obtain rfl := List.mem_singleton.mp hnew
        have hevent : (p.begin r x rest).event r = some (.running x rest) :=
          TaskHandover.EventPoller.setEvent_event p (.running x rest) r
        exact isRunning_iff.mpr ⟨r, by rw [hevent]; rfl⟩
  | swap => exact Or.inl (by simpa [EventPoller.swap] using hx)
  | finish => exact Or.inl (by simpa [EventPoller.finish] using hx)
  | @leaveEvent r => cases r <;> exact Or.inl hx
  | _ => exact Or.inl hx

end Step

end Poller

/-- How far a call and its lambda have come, as its frame shows it. -/
structure Frame.Sound (p : EventPoller Thread) (c : Frame Thread) : Prop where
  pushed : c.task ∈ p.pushed
  called : c.posted = true → c.task ∈ p.ran
  running : c.posted = false → c.task ∈ p.ran → isRunning p c.task = true
  silent : c.posted = false → c.sem.count = 0 ∧ c.returned = false
  ready : c.posted = true → c.returned = false → c.sem.count = 1 ∧ c.sem.blocked = ∅
  only : c.sem.blocked ⊆ {c.thread}

/-- The poller has its ledger, and every frame shows where its lambda is. -/
structure Sound (s : Callers Thread) : Prop where
  ledger : Ledger s.poller
  called : ∀ x, isRunning s.poller x = true → x ∈ s.poller.ran
  frames : ∀ c ∈ s.calls, c.Sound s.poller

theorem sound_init (loopThread : Thread) : Sound (init loopThread) where
  ledger := TaskHandover.ledger_init loopThread
  called := by
    simp [isRunning, init, TaskHandover.init, EventPoller.event, TaskHandover.LoopPhase.event,
      TaskHandover.DtorPhase.event, current]
  frames := by simp [init]

/-- A fresh serial has not been called. -/
theorem Frame.sound_start {p : EventPoller Thread} (hl : Ledger p) (t : Thread) (first : Bool) :
    (Frame.start t ⟨p.pushed.length, first, false⟩).Sound (p.push t first false) where
  pushed := by simp [EventPoller.push, Frame.start]
  called := by simp [Frame.start]
  running := by
    intro _ hcalled
    have hmem : (⟨p.pushed.length, first, false⟩ : Task) ∈ p.pushed := by
      apply hl.placed.subset
      rw [← hl.called]
      exact List.mem_append_left _ (List.mem_append_left _ hcalled)
    exact absurd (hl.serial_lt hmem) (Nat.lt_irrefl _)
  silent := by simp [Frame.start, Semaphore.init]
  ready := by simp [Frame.start]
  only := by simp [Frame.start, Semaphore.init]

/-- A change in one frame keeps what all of them show when it keeps what this one shows. -/
theorem Sound.setFrame {s : Callers Thread} (h : Sound s) {i : Nat} {c : Frame Thread}
    (hc : c.Sound s.poller) : Sound (s.setFrame i c) where
  ledger := h.ledger
  called := h.called
  frames := by
    intro d hd
    rcases List.mem_or_eq_of_mem_set hd with hold | rfl
    · exact h.frames d hold
    · exact hc

variable [DecidableEq Thread]

namespace Frame

variable {p p' : EventPoller Thread} {c : Frame Thread}

/-- A step of the poller keeps what a frame shows, unless it ends a lambda
that has not posted. -/
theorem Sound.poller_step {cap : Nat} {a : TaskHandover.Action Thread} (h : c.Sound p)
    (hstep : TaskHandover.step cap p a = some p')
    (hover : ∀ r outcome, a = .finish r outcome →
      c.posted = true ∨ current (p.event r) ≠ some c.task) : c.Sound p' := by
  obtain ⟨hpushed, hran⟩ := histories_step hstep
  refine ⟨hpushed h.pushed, fun hposted => hran (h.called hposted), fun hposted hcalled => ?_,
    h.silent, h.ready, h.only⟩
  rcases running_of_newly_called hstep hcalled with hold | hrunning
  · rcases isRunning_step hstep (h.running hposted hold) with hkept | ⟨r, outcome, hfinish, hr⟩
    · exact hkept
    · rcases hover r outcome hfinish with hyes | hnot
      · simp [hposted] at hyes
      · exact absurd hr hnot
  · exact hrunning

theorem Sound.post (h : c.Sound p) {choice : Option Thread} {sem : Semaphore Thread}
    (hposted : c.posted = false) (hcalled : c.task ∈ p.ran)
    (hsem : c.sem.post 1 choice = some sem) :
    ({ c with sem := sem, posted := true } : Frame Thread).Sound p := by
  obtain ⟨hcount, hblocked⟩ := Semaphore.post_eq hsem
  have hempty : sem.blocked = ∅ := by
    rcases hblocked with ⟨_, hb, _⟩ | ⟨t, ht, _, hb, _⟩ | ⟨hone, _⟩
    · exact hb
    · obtain rfl := Finset.mem_singleton.mp (h.only ht)
      rw [hb, Finset.erase_eq_empty_iff]
      exact Finset.subset_singleton_iff.mp h.only
    · exact absurd rfl hone
  have hzero := (h.silent hposted).1
  refine ⟨h.pushed, fun _ => hcalled, by simp, by simp, fun _ _ => ⟨?_, hempty⟩, ?_⟩
  · rw [hcount, hzero]
  · simp [hempty]

theorem Sound.block (h : c.Sound p) (hzero : c.sem.count = 0) :
    ({ c with sem := c.sem.block c.thread } : Frame Thread).Sound p := by
  refine ⟨h.pushed, h.called, h.running, fun hposted => ⟨hzero, (h.silent hposted).2⟩,
    fun hposted hreturned => ?_, ?_⟩
  · have hone := (h.ready hposted hreturned).1
    omega
  · intro t ht
    rcases Finset.mem_insert.mp ht with rfl | hin
    · exact Finset.mem_singleton_self _
    · exact h.only hin

theorem Sound.take (h : c.Sound p) (hpos : c.sem.count ≠ 0) :
    ({ c with sem := c.sem.take c.thread, returned := true } : Frame Thread).Sound p := by
  refine ⟨h.pushed, h.called, h.running, fun hposted => ?_, by simp, h.only⟩
  exact absurd (h.silent hposted).1 hpos

theorem Sound.wake (h : c.Sound p) :
    ({ c with sem := c.sem.wake c.thread } : Frame Thread).Sound p := by
  refine ⟨h.pushed, h.called, h.running, h.silent, fun hposted hreturned => ?_, ?_⟩
  · obtain ⟨hone, hempty⟩ := h.ready hposted hreturned
    exact ⟨hone, by simp [Semaphore.wake, hempty]⟩
  · exact (Finset.erase_subset _ _).trans h.only

end Frame

theorem sound_step {cap : Nat} {s s' : Callers Thread} {a : Action Thread}
    (hstep : step cap s a = some s') (h : Sound s) : Sound s' := by
  cases step_moves hstep with
  | @poller a p hadmits hp =>
      refine ⟨TaskHandover.ledger_step hp h.ledger, running_called hp h.called, fun c hc => ?_⟩
      apply (h.frames c hc).poller_step hp
      rintro r outcome rfl
      have hover := List.all_eq_true.mp hadmits c hc
      simpa using hover
  | inPlace => exact h
  | enter => exact ⟨h.ledger, h.called, h.frames⟩
  | @handOver t first _ hpush =>
      refine ⟨TaskHandover.ledger_step hpush h.ledger, running_called hpush h.called,
        fun c hc => ?_⟩
      rcases List.mem_append.mp hc with hold | hnew
      · exact (h.frames c hold).poller_step hpush (by simp)
      · obtain rfl := List.mem_singleton.mp hnew
        exact Frame.sound_start h.ledger t first
  | post hc hposted hrunning hsem =>
      have hsound := h.frames _ (List.mem_of_getElem? hc)
      exact h.setFrame (hsound.post hposted (h.called _ hrunning) hsem)
  | block hc _ _ hzero => exact h.setFrame ((h.frames _ (List.mem_of_getElem? hc)).block hzero)
  | take hc _ hpos => exact h.setFrame ((h.frames _ (List.mem_of_getElem? hc)).take hpos)
  | wakeSpuriously hc => exact h.setFrame (h.frames _ (List.mem_of_getElem? hc)).wake

theorem sound_of_run {cap : Nat} {guard : Callers Thread → Action Thread → Prop}
    {loopThread : Thread} {as : List (Action Thread)} {s : Callers Thread}
    (run : Run (step cap) guard (init loopThread) as s) : Sound s :=
  run.invariant (fun _ _ _ _ hstep => sound_step hstep) (sound_init loopThread)

omit [DecidableEq Thread] in
/-- A call of a task takes it out of the list and of the batch for good. -/
theorem not_held_of_ran {p : EventPoller Thread} (hl : Ledger p) {x : Task} (hx : x ∈ p.ran) :
    x ∉ p.listTask ∧ x ∉ p.todo := by
  have hplaced : (p.ran ++ p.todo ++ p.listTask).Nodup := by
    rw [hl.called]
    exact hl.placed.nodup_iff.mpr hl.nodup
  rw [List.append_assoc, List.nodup_append] at hplaced
  constructor
  · intro hlist
    exact hplaced.2.2 x hx x (List.mem_append_right _ hlist) rfl
  · intro htodo
    exact hplaced.2.2 x hx x (List.mem_append_left _ htodo) rfl

omit [DecidableEq Thread] in
theorem Frame.Sound.posted_of_returned {p : EventPoller Thread} {c : Frame Thread}
    (h : c.Sound p) (hreturned : c.returned = true) : c.posted = true := by
  by_contra hnot
  have hsilent := h.silent (Bool.eq_false_iff.mpr hnot)
  simp [hreturned] at hsilent

/-- A frame stays where it is, with its task. -/
theorem frame_step {cap : Nat} {s s' : Callers Thread} {a : Action Thread}
    (hstep : step cap s a = some s') {i : Nat} {c : Frame Thread} (hc : s.calls[i]? = some c) :
    ∃ c', s'.calls[i]? = some c' ∧ c'.task = c.task := by
  have inFrame : ∀ {j : Nat} {d d' : Frame Thread}, s.calls[j]? = some d → d'.task = d.task →
      ∃ c', (s.setFrame j d').calls[i]? = some c' ∧ c'.task = c.task := by
    intro j d d' hd htask
    by_cases hij : j = i
    · subst hij
      obtain rfl := Option.some.inj (hd.symm.trans hc)
      obtain ⟨hlt, _⟩ := List.getElem?_eq_some_iff.mp hd
      exact ⟨d', List.getElem?_set_self hlt, htask⟩
    · exact ⟨c, by simp [Callers.setFrame, List.getElem?_set_ne hij, hc], rfl⟩
  cases step_moves hstep with
  | poller => exact ⟨c, hc, rfl⟩
  | inPlace => exact ⟨c, hc, rfl⟩
  | enter => exact ⟨c, hc, rfl⟩
  | handOver =>
      obtain ⟨hlt, _⟩ := List.getElem?_eq_some_iff.mp hc
      exact ⟨c, (List.getElem?_append_left hlt).trans hc, rfl⟩
  | post hd => exact inFrame hd rfl
  | block hd => exact inFrame hd rfl
  | take hd => exact inFrame hd rfl
  | wakeSpuriously hd => exact inFrame hd rfl

/-- A task that the last swap has missed stays missed. -/
theorem lost_step {cap : Nat} {s s' : Callers Thread} {a : Action Thread}
    (hstep : step cap s a = some s') (h : Sound s) {x : Task}
    (hlost : TaskHandover.Lost x s.poller) : TaskHandover.Lost x s'.poller := by
  cases step_moves hstep with
  | poller _ hp => exact TaskHandover.lost_step hp h.ledger hlost
  | handOver _ hpush => exact TaskHandover.lost_step hpush h.ledger hlost
  | inPlace => exact hlost
  | enter => exact hlost
  | post => exact hlost
  | block => exact hlost
  | take => exact hlost
  | wakeSpuriously => exact hlost

/-- In every run of any number of callers outside the loop thread, the loop and the
destructor: a call that has returned finds its task run once and its lambda neither
in the list nor among the tasks of a batch that are still to be called, the lambda
posts into the frame of a call that has not returned, and a call whose lambda the
destructor's last swap has missed never returns. -/
theorem sync_returns_after_task {cap : Nat} {loopThread : Thread} {as : List (Action Thread)}
    {s : Callers Thread} (run : Run (step cap) anyStep (init loopThread) as s) :
    (∀ c ∈ s.calls, c.returned = true → c.posted = true ∧ s.poller.ran.count c.task = 1 ∧
      c.task ∉ s.poller.listTask ∧ c.task ∉ s.poller.todo) ∧
    (∀ i choice s', step cap s (.post i choice) = some s' →
      ∃ c : Frame Thread, s.calls[i]? = some c ∧ c.returned = false) ∧
    ∀ (i : Nat) (c : Frame Thread), s.calls[i]? = some c → TaskHandover.Lost c.task s.poller →
      ∀ bs t, Run (step cap) anyStep s bs t →
        ∃ c' : Frame Thread, t.calls[i]? = some c' ∧ c'.task = c.task ∧ c'.returned = false := by
  have hs := sound_of_run run
  refine ⟨fun c hc hreturned => ?_, fun i choice s' hpost => ?_, fun i c hc hlost bs t tail => ?_⟩
  · have hsound := hs.frames c hc
    have hposted := hsound.posted_of_returned hreturned
    have hran := hsound.called hposted
    have hone : 0 < s.poller.ran.count c.task := List.count_pos_iff.mpr hran
    have hle := hs.ledger.count_le c.task
    exact ⟨hposted, by omega, not_held_of_ran hs.ledger hran⟩
  · cases step_moves hpost with
    | @post _ c _ _ hc hposted =>
        exact ⟨c, hc, ((hs.frames c (List.mem_of_getElem? hc)).silent hposted).2⟩
  · have hend : Sound t ∧ TaskHandover.Lost c.task t.poller ∧
        ∃ c' : Frame Thread, t.calls[i]? = some c' ∧ c'.task = c.task := by
      apply tail.invariant (P := fun t => Sound t ∧ TaskHandover.Lost c.task t.poller ∧
        ∃ c' : Frame Thread, t.calls[i]? = some c' ∧ c'.task = c.task)
      · rintro u a v _ hstep ⟨hu, hlostu, d, hd, htask⟩
        obtain ⟨d', hd', htask'⟩ := frame_step hstep hd
        exact ⟨sound_step hstep hu, lost_step hstep hu hlostu, d', hd', htask'.trans htask⟩
      · exact ⟨hs, hlost, c, hc, rfl⟩
    obtain ⟨ht, ⟨_, _, hlist⟩, c', hc', htask⟩ := hend
    refine ⟨c', hc', htask, ?_⟩
    by_contra hnot
    have hsound := ht.frames c' (List.mem_of_getElem? hc')
    have hran := hsound.called (hsound.posted_of_returned (by simpa using hnot))
    rw [htask] at hran
    exact (not_held_of_ran ht.ledger hran).1 hlist

/-- Thread 1 calls `sync` and returns. After the last swap of the destructor in
thread 9, thread 2 calls `sync_first`, and waits. -/
def missedCall : List (Action Nat) :=
  [.sync 1 false, .handOver 1, .poller (.write 1), .wait 0, .poller .wake, .poller .read,
    .poller .read, .poller (.swap .loop), .poller (.begin .loop), .post 0 (some 1),
    .poller (.finish .loop .returns), .wait 0, .poller (.leaveEvent .loop), .sync 2 true,
    .poller (.shutdown 9), .poller (.write 9), .poller .wake, .poller .read, .poller .read,
    .poller (.swap .loop), .poller (.begin .loop), .poller (.finish .loop .throws),
    .poller (.leaveEvent .loop), .poller .exitLoop, .poller .join, .poller .flush,
    .poller (.swap .dtor), .handOver 2, .poller (.write 2), .wait 1]

theorem sync_returns_after_task_missedCall :
    ∃ s : Callers Nat, exec (step 1) (init 0) missedCall = some s ∧
      (∀ c ∈ s.calls, c.returned = true → s.poller.ran.count c.task = 1) ∧
      s.calls.map Frame.returned = [true, false] ∧
      ∀ bs t, Run (step 1) anyStep s bs t →
        ∃ c' : Frame Nat, t.calls[1]? = some c' ∧ c'.returned = false := by
  have run : Run (step 1) anyStep (init 0) missedCall _ :=
    run_of_exec rfl (fun _ _ _ => trivial)
  obtain ⟨hafter, _, hmissed⟩ := sync_returns_after_task run
  refine ⟨_, rfl, fun c hc hreturned => (hafter c hc hreturned).2.1, rfl, fun bs t tail => ?_⟩
  obtain ⟨c', hc', _, hwaits⟩ := hmissed 1 _ rfl
    ⟨Or.inr ⟨.batch [], rfl, by simp⟩, by decide, by decide⟩ bs t tail
  exact ⟨c', hc', hwaits⟩

end FFZKit.Poller.SyncCall
