import FFZKit.Poller.TaskHandover
import Mathlib.Data.List.Nodup

/-!
# What every step keeps: the ledger of pushed tasks

Each pushed task is in exactly one place: still in `list_task_`, or in one
batch, and there already called or still to be called. The ledger is stated
with the histories and is preserved by every step, in whatever order the
threads take them. `Signalled` says that a task in the list has a byte in
the pipe, or a write about to happen, or a loop about to swap.
-/

namespace FFZKit.Poller.TaskHandover

open FFZKit.Foundations.Transition

variable {Thread : Type*}

namespace EventPoller

@[simp] theorem setEvent_pipe (s : EventPoller Thread) (p : PipeEvent) (r : Runner) :
    (s.setEvent p r).pipe = s.pipe := by cases r <;> rfl

@[simp] theorem setEvent_exitFlag (s : EventPoller Thread) (p : PipeEvent) (r : Runner) :
    (s.setEvent p r).exitFlag = s.exitFlag := by cases r <;> rfl

@[simp] theorem setEvent_posting (s : EventPoller Thread) (p : PipeEvent) (r : Runner) :
    (s.setEvent p r).posting = s.posting := by cases r <;> rfl

@[simp] theorem setEvent_pushed (s : EventPoller Thread) (p : PipeEvent) (r : Runner) :
    (s.setEvent p r).pushed = s.pushed := by cases r <;> rfl

@[simp] theorem setEvent_accepted (s : EventPoller Thread) (p : PipeEvent) (r : Runner) :
    (s.setEvent p r).accepted = s.accepted := by cases r <;> rfl

@[simp] theorem setEvent_listTask (s : EventPoller Thread) (p : PipeEvent) (r : Runner) :
    (s.setEvent p r).listTask = s.listTask := by cases r <;> rfl

@[simp] theorem setEvent_batches (s : EventPoller Thread) (p : PipeEvent) (r : Runner) :
    (s.setEvent p r).batches = s.batches := by cases r <;> rfl

@[simp] theorem setEvent_ran (s : EventPoller Thread) (p : PipeEvent) (r : Runner) :
    (s.setEvent p r).ran = s.ran := by cases r <;> rfl

theorem event_loop_iff {s : EventPoller Thread} {p : PipeEvent} :
    s.event .loop = some p ↔ s.loop = .inPipeEvent p := by
  cases h : s.loop <;> simp [event, h, LoopPhase.event]

theorem event_dtor_iff {s : EventPoller Thread} {p : PipeEvent} :
    s.event .dtor = some p ↔ s.dtor = .flushing p := by
  cases h : s.dtor <;> simp [event, h, DtorPhase.event]

/-- The destructor has passed the join, so the loop is over. -/
def Exclusive (s : EventPoller Thread) : Prop :=
  s.loop = .exited ∨ s.dtor = .alive ∨ ∃ t, s.dtor = .joining t

theorem Exclusive.todo_eq {s : EventPoller Thread} (h : s.Exclusive) {r : Runner} {p : PipeEvent}
    (hp : s.event r = some p) : s.todo = p.todo := by
  cases r with
  | loop =>
      have hloop : s.loop.event = some p := hp
      have hdtor : s.dtor.event = none := by
        rcases h with hl | hd | ⟨t, hd⟩
        · simp [hl, LoopPhase.event] at hloop
        · simp [hd, DtorPhase.event]
        · simp [hd, DtorPhase.event]
      simp [todo, hloop, hdtor]
  | dtor =>
      have hdtor : s.dtor.event = some p := hp
      have hloop : s.loop = .exited := by
        rcases h with hl | hd | ⟨t, hd⟩
        · exact hl
        · simp [hd, DtorPhase.event] at hdtor
        · simp [hd, DtorPhase.event] at hdtor
      simp [todo, hloop, hdtor, LoopPhase.event]

theorem Exclusive.setEvent {s : EventPoller Thread} (h : s.Exclusive) {r : Runner}
    {p : PipeEvent} (hp : s.event r = some p) (p' : PipeEvent) :
    (s.setEvent p' r).Exclusive := by
  cases r with
  | loop =>
      have hloop : s.loop.event = some p := hp
      rcases h with hl | hd
      · simp [hl, LoopPhase.event] at hloop
      · exact Or.inr hd
  | dtor =>
      have hdtor : s.dtor.event = some p := hp
      rcases h with hl | hd | ⟨t, hd⟩
      · exact Or.inl hl
      · simp [hd, DtorPhase.event] at hdtor
      · simp [hd, DtorPhase.event] at hdtor

@[simp] theorem setEvent_event (s : EventPoller Thread) (p : PipeEvent) (r : Runner) :
    (s.setEvent p r).event r = some p := by cases r <;> rfl

end EventPoller

open EventPoller

/-- Every pushed task is in the list or in exactly one batch, and the calls
made so far are the batches in order up to the tasks still to be called. -/
structure Ledger (s : EventPoller Thread) : Prop where
  serials : s.pushed.map Task.serial = List.range s.pushed.length
  placed : (s.batches.flatten ++ s.listTask).Perm s.pushed
  called : s.ran ++ s.todo = s.batches.flatten
  backOrder : (s.batches.flatten ++ s.listTask).filter (!·.first) = s.pushed.filter (!·.first)
  posting : ∀ p ∈ s.posting, p.2 ∈ s.pushed
  accepted : ∀ x ∈ s.accepted, x ∈ s.pushed
  exclusive : s.Exclusive

theorem ledger_init (loopThread : Thread) : Ledger (init loopThread) where
  serials := rfl
  placed := List.Perm.refl _
  called := rfl
  backOrder := rfl
  posting := by simp [init]
  accepted := by simp [init]
  exclusive := Or.inr (Or.inl rfl)

theorem Ledger.nodup {s : EventPoller Thread} (h : Ledger s) : s.pushed.Nodup := by
  apply List.Nodup.of_map Task.serial
  rw [h.serials]
  exact List.nodup_range

/-- A task occurs at most once in all batches together, and is called at most
as often as it occurs there. -/
theorem Ledger.count_le {s : EventPoller Thread} (h : Ledger s) (x : Task) :
    s.ran.count x ≤ s.batches.flatten.count x ∧ s.batches.flatten.count x ≤ 1 := by
  constructor
  · rw [← h.called, List.count_append]
    omega
  · have hperm := h.placed.count_eq x
    have hnodup := List.nodup_iff_count_le_one.mp h.nodup x
    rw [List.count_append] at hperm
    omega

/-- The calls made so far, restricted to tasks pushed by `async`, are the
first of the pushes by `async`, in order. -/
theorem Ledger.back_prefix {s : EventPoller Thread} (h : Ledger s) :
    s.ran.filter (!·.first) <+: s.pushed.filter (!·.first) := by
  rw [← h.backOrder, ← h.called]
  simp only [List.filter_append, List.append_assoc]
  exact List.prefix_append _ _

/-- The ledger reads only the histories, the list and the tasks to be called. -/
theorem Ledger.of_eq {s t : EventPoller Thread} (h : Ledger s) (hpushed : t.pushed = s.pushed)
    (hbatches : t.batches = s.batches) (hlist : t.listTask = s.listTask)
    (hcalled : t.ran ++ t.todo = s.ran ++ s.todo) (hposting : t.posting ⊆ s.posting)
    (haccepted : ∀ x ∈ t.accepted, x ∈ s.pushed) (hexcl : t.Exclusive) : Ledger t where
  serials := by rw [hpushed]; exact h.serials
  placed := by rw [hpushed, hbatches, hlist]; exact h.placed
  called := by rw [hcalled, hbatches]; exact h.called
  backOrder := by rw [hpushed, hbatches, hlist]; exact h.backOrder
  posting := by rw [hpushed]; exact fun p hp => h.posting p (hposting hp)
  accepted := by rw [hpushed]; exact haccepted
  exclusive := hexcl

/-- A push adds the task to the list and to the history, at the end of both
when it was pushed at the back. -/
theorem Ledger.push {s : EventPoller Thread} (h : Ledger s) (t : Thread) (first exits : Bool) :
    Ledger (s.push t first exits) where
  serials := by simp [EventPoller.push, h.serials, List.range_succ]
  placed := by
    cases first with
    | true =>
        simp only [EventPoller.push, if_true]
        refine List.perm_middle.trans ((h.placed.cons _).trans ?_)
        exact (List.perm_append_singleton _ _).symm
    | false =>
        simp only [EventPoller.push, Bool.false_eq_true, if_false, ← List.append_assoc]
        exact h.placed.append_right _
  called := h.called
  backOrder := by
    have hback := h.backOrder
    cases first with
    | true => simpa [EventPoller.push] using hback
    | false =>
        simp only [EventPoller.push, Bool.false_eq_true, if_false, ← List.append_assoc]
        rw [List.filter_append, hback, List.filter_append]
  posting := by
    intro p hp
    rcases List.mem_cons.mp hp with rfl | hp
    · simp [EventPoller.push]
    · exact List.mem_append_left _ (h.posting p hp)
  accepted := fun x hx => List.mem_append_left _ (h.accepted x hx)
  exclusive := h.exclusive

/-- The swap moves the whole list into one new batch. -/
theorem Ledger.swap {s : EventPoller Thread} (h : Ledger s) {r : Runner}
    (hr : s.event r = some .drained) : Ledger (s.swap r) where
  serials := by simpa [EventPoller.swap] using h.serials
  placed := by simpa [EventPoller.swap] using h.placed
  called := by
    have hexcl := h.exclusive.setEvent hr (.batch s.listTask)
    have htodo : (s.swap r).todo = s.listTask := hexcl.todo_eq (setEvent_event _ _ _)
    have hcalled := h.called
    rw [h.exclusive.todo_eq hr] at hcalled
    simp only [PipeEvent.todo, List.append_nil] at hcalled
    rw [htodo]
    simp [EventPoller.swap, hcalled]
  backOrder := by simpa [EventPoller.swap] using h.backOrder
  posting := by simpa [EventPoller.swap] using h.posting
  accepted := by simpa [EventPoller.swap] using h.accepted
  exclusive := h.exclusive.setEvent hr (.batch s.listTask)

/-- Calling a task moves it from the tasks to be called to the calls made. -/
theorem Ledger.begin {s : EventPoller Thread} (h : Ledger s) {r : Runner} {task : Task}
    {rest : List Task} (hr : s.event r = some (.batch (task :: rest))) :
    Ledger (s.begin r task rest) := by
  have hexcl := h.exclusive.setEvent hr (.running task rest)
  have htodo : (s.begin r task rest).todo = rest := hexcl.todo_eq (setEvent_event _ _ _)
  refine h.of_eq (by simp [EventPoller.begin]) (by simp [EventPoller.begin])
    (by simp [EventPoller.begin]) ?_ (by simp [EventPoller.begin])
    (by simpa [EventPoller.begin] using h.accepted) hexcl
  rw [htodo, h.exclusive.todo_eq hr]
  simp [EventPoller.begin, PipeEvent.todo]

/-- The end of a call, by return or by exception, leaves the ledger alone. -/
theorem Ledger.finish {s : EventPoller Thread} (h : Ledger s) {r : Runner} {task : Task}
    {rest : List Task} (hr : s.event r = some (.running task rest)) :
    Ledger (s.finish r task rest) := by
  have hexcl := h.exclusive.setEvent hr (.batch rest)
  have htodo : (s.finish r task rest).todo = rest := hexcl.todo_eq (setEvent_event _ _ _)
  refine h.of_eq (by simp [EventPoller.finish]) (by simp [EventPoller.finish])
    (by simp [EventPoller.finish]) ?_ (by simp [EventPoller.finish])
    (by simpa [EventPoller.finish] using h.accepted) hexcl
  rw [htodo, h.exclusive.todo_eq hr]
  simp [EventPoller.finish, PipeEvent.todo]

theorem Ledger.leaveEvent {s : EventPoller Thread} (h : Ledger s) {r : Runner}
    (hr : s.event r = some (.batch [])) : Ledger (s.leaveEvent r) := by
  have htodo := h.exclusive.todo_eq hr
  cases r with
  | loop =>
      have hloop : s.loop.event = some (.batch []) := hr
      refine h.of_eq rfl rfl rfl ?_ (List.Subset.refl _) h.accepted ?_
      · rw [htodo]
        have hdtor : s.dtor.event.elim [] PipeEvent.todo = [] := by
          simpa [todo, hloop, PipeEvent.todo] using htodo
        simp [EventPoller.leaveEvent, todo, LoopPhase.event, hdtor, PipeEvent.todo]
      · rcases h.exclusive with hl | hd
        · simp [hl, LoopPhase.event] at hloop
        · exact Or.inr hd
  | dtor =>
      have hdtor : s.dtor.event = some (.batch []) := hr
      have hloop : s.loop = .exited := by
        rcases h.exclusive with hl | hd | ⟨t, hd⟩
        · exact hl
        · simp [hd, DtorPhase.event] at hdtor
        · simp [hd, DtorPhase.event] at hdtor
      refine h.of_eq rfl rfl rfl ?_ (List.Subset.refl _) h.accepted (Or.inl hloop)
      rw [htodo]
      simp [EventPoller.leaveEvent, todo, hloop, LoopPhase.event, DtorPhase.event, PipeEvent.todo]

/-- A task in the list is announced: by a byte in the pipe, by a write that is
about to happen, or by a loop that has drained the pipe and will swap. -/
def Signalled (s : EventPoller Thread) : Prop :=
  s.listTask ≠ [] → s.betweenDrainAndSwap ∨ 0 < s.pipe ∨ s.posting ≠ []

theorem signalled_init (loopThread : Thread) : Signalled (init loopThread) := by
  intro h
  simp [init] at h

/-- A step outside the loop's drain keeps the announcement when it changes
neither the list, the pipe nor the calls in progress. -/
theorem Signalled.of_eq {s t : EventPoller Thread} (h : Signalled s)
    (hlist : t.listTask = s.listTask) (hpipe : t.pipe = s.pipe) (hposting : t.posting = s.posting)
    (hdrain : s.betweenDrainAndSwap → t.betweenDrainAndSwap) : Signalled t := by
  intro hne
  rw [hlist] at hne
  rw [hpipe, hposting]
  exact (h hne).imp_left hdrain

variable [DecidableEq Thread]

theorem Ledger.written {s : EventPoller Thread} (h : Ledger s) (cap : Nat) {t : Thread}
    {task : Task} (hpost : s.posting.lookup t = some task) : Ledger (s.written cap t task) := by
  refine h.of_eq rfl rfl rfl rfl List.erase_subset ?_ h.exclusive
  intro x hx
  rcases List.mem_append.mp hx with hx | hx
  · exact h.accepted x hx
  · obtain rfl := List.mem_singleton.mp hx
    obtain ⟨front, back, hsplit, _⟩ := List.lookup_eq_some_iff.mp hpost
    exact h.posting (t, x) (by simp [hsplit])

/-- Every step of every thread keeps the ledger. -/
theorem ledger_step {cap : Nat} {s s' : EventPoller Thread} {a : Action Thread}
    (hstep : step cap s a = some s') (h : Ledger s) : Ledger s' := by
  cases (step_moves hstep).2 with
  | sync => exact h
  | push => exact h.push _ _ _
  | write hpost => exact h.written cap hpost
  | wake hloop =>
      refine h.of_eq rfl rfl rfl ?_ (List.Subset.refl _) h.accepted ?_
      · simp [todo, hloop, LoopPhase.event, PipeEvent.todo]
      · exact h.exclusive.imp_left (by simp [hloop])
  | readSome hloop =>
      refine h.of_eq rfl rfl rfl ?_ (List.Subset.refl _) h.accepted ?_
      · rcases hloop with hloop | hloop <;>
          simp [readSome, todo, hloop, LoopPhase.event, PipeEvent.todo]
      · exact h.exclusive.imp_left (by rcases hloop with hloop | hloop <;> simp [hloop])
  | readAgain hloop =>
      refine h.of_eq rfl rfl rfl ?_ (List.Subset.refl _) h.accepted ?_
      · rcases hloop with hloop | hloop <;> simp [todo, hloop, LoopPhase.event, PipeEvent.todo]
      · exact h.exclusive.imp_left (by rcases hloop with hloop | hloop <;> simp [hloop])
  | swap hr => exact h.swap hr
  | begin hr => exact h.begin hr
  | finish hr => exact h.finish hr
  | leaveEvent hr => exact h.leaveEvent hr
  | exitLoop hloop =>
      refine h.of_eq rfl rfl rfl ?_ (List.Subset.refl _) h.accepted (Or.inl rfl)
      simp [todo, hloop, LoopPhase.event]
  | @shutdown t hdtor =>
      have hpush := h.push t true true
      refine hpush.of_eq rfl rfl rfl ?_ (List.Subset.refl _) hpush.accepted
        (Or.inr (Or.inr ⟨t, rfl⟩))
      simp [todo, hdtor, EventPoller.push, DtorPhase.event]
  | join hdtor hloop =>
      refine h.of_eq rfl rfl rfl ?_ (List.Subset.refl _) h.accepted (Or.inl hloop)
      simp [todo, hdtor, DtorPhase.event]
  | flush hdtor =>
      refine h.of_eq rfl rfl rfl ?_ (List.Subset.refl _) h.accepted (Or.inl ?_)
      · simp [todo, hdtor, DtorPhase.event, PipeEvent.todo]
      · simpa [Exclusive, hdtor] using h.exclusive

/-- With room for one byte a write never leaves the pipe empty. -/
theorem written_pipe_pos {cap : Nat} (hcap : 0 < cap) (s : EventPoller Thread) (t : Thread)
    (task : Task) : 0 < (s.written cap t task).pipe := by
  simp only [EventPoller.written]
  split
  · omega
  · omega

theorem signalled_step {cap : Nat} (hcap : 0 < cap) {s s' : EventPoller Thread}
    {a : Action Thread} (hstep : step cap s a = some s') (h : Signalled s) : Signalled s' := by
  cases (step_moves hstep).2 with
  | sync => exact h
  | push => exact fun _ => Or.inr (Or.inr (by simp [EventPoller.push]))
  | write => exact fun _ => Or.inr (Or.inl (written_pipe_pos hcap _ _ _))
  | wake hloop => exact h.of_eq rfl rfl rfl (by simp [betweenDrainAndSwap, hloop])
  | readSome => exact fun _ => Or.inl (Or.inl rfl)
  | readAgain => exact fun _ => Or.inl (Or.inr rfl)
  | swap => exact fun hne => absurd rfl hne
  | @begin r _ _ hr =>
      refine h.of_eq (by simp [EventPoller.begin]) (by simp [EventPoller.begin])
        (by simp [EventPoller.begin]) ?_
      cases r with
      | loop => rintro (hd | hd) <;> simp [event, hd, LoopPhase.event] at hr
      | dtor => exact id
  | @finish r _ _ _ hr =>
      refine h.of_eq (by simp [EventPoller.finish]) (by simp [EventPoller.finish])
        (by simp [EventPoller.finish]) ?_
      cases r with
      | loop => rintro (hd | hd) <;> simp [event, hd, LoopPhase.event] at hr
      | dtor => exact id
  | @leaveEvent r hr =>
      cases r with
      | loop =>
          refine h.of_eq rfl rfl rfl ?_
          rintro (hd | hd) <;> simp [event, hd, LoopPhase.event] at hr
      | dtor => exact h.of_eq rfl rfl rfl id
  | exitLoop hloop => exact h.of_eq rfl rfl rfl (by simp [betweenDrainAndSwap, hloop])
  | shutdown => exact fun _ => Or.inr (Or.inr (by simp [EventPoller.push]))
  | join => exact h.of_eq rfl rfl rfl id
  | flush => exact h.of_eq rfl rfl rfl id

/-- Every reachable state has the ledger. -/
theorem ledger_of_run {cap : Nat} {guard : EventPoller Thread → Action Thread → Prop}
    {loopThread : Thread} {as : List (Action Thread)} {s : EventPoller Thread}
    (run : Run (step cap) guard (init loopThread) as s) : Ledger s :=
  run.invariant (fun _ _ _ _ hstep => ledger_step hstep) (ledger_init loopThread)

/-- In every reachable state a task in the list is announced. -/
theorem signalled_of_run {cap : Nat} (hcap : 0 < cap)
    {guard : EventPoller Thread → Action Thread → Prop} {loopThread : Thread}
    {as : List (Action Thread)} {s : EventPoller Thread}
    (run : Run (step cap) guard (init loopThread) as s) : Signalled s :=
  run.invariant (fun _ _ _ _ hstep => signalled_step hcap hstep) (signalled_init loopThread)

end FFZKit.Poller.TaskHandover
