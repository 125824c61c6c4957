import FFZKit.Poller.HandoverLedger

/-!
# Hand-over while the loop runs

Before the destructor starts, no task waits in the list without a wake-up,
no task is called twice, and once posting stops the loop calls every task.
The work left is measured by weights: a write that is about to happen weighs
more than the byte it adds, a byte more than the round of `onPipeEvent` it
can cause, and a task in the list more than a task in a batch.
-/

namespace FFZKit.Poller.TaskHandover

open FFZKit.Foundations.Transition EventPoller

variable {Thread : Type*}

/-- The destructor does not start. -/
def NoShutdown (_ : EventPoller Thread) (a : Action Thread) : Prop :=
  ∀ t, a ≠ .shutdown t

/-- Neither does a thread call `async`; calls in progress may still write. -/
def Serving (_ : EventPoller Thread) (a : Action Thread) : Prop :=
  (∀ t, a ≠ .shutdown t) ∧ ∀ t maySync first, a ≠ .call t maySync first

/-- The state of the loop before any exit task exists. -/
structure Alive (s : EventPoller Thread) : Prop where
  dtor : s.dtor = .alive
  exitFlag : s.exitFlag = false
  loop : s.loop ≠ .exited
  ordinary : ∀ x ∈ s.pushed, x.exits = false
  running : ∀ task rest, s.loop = .inPipeEvent (.running task rest) → task.exits = false
  woken : s.loop = .inPipeEvent .entered → 0 < s.pipe

theorem alive_init (loopThread : Thread) : Alive (init loopThread) where
  dtor := rfl
  exitFlag := rfl
  loop := by simp [init]
  ordinary := by simp [init]
  running := by simp [init]
  woken := by simp [init]

/-- Every task still to be called has been pushed. -/
theorem Ledger.mem_pushed_of_todo {s : EventPoller Thread} (h : Ledger s) {x : Task}
    (hx : x ∈ s.todo) : x ∈ s.pushed := by
  apply h.placed.subset
  rw [← h.called]
  simp [hx]

/-- Before the destructor starts, `onPipeEvent` is run by the loop only. -/
theorem Alive.event_eq {s : EventPoller Thread} (h : Alive s) {r : Runner} {p : PipeEvent}
    (hr : s.event r = some p) : r = .loop ∧ s.loop = .inPipeEvent p := by
  cases r with
  | dtor => simp [event_dtor_iff, h.dtor] at hr
  | loop => exact ⟨rfl, event_loop_iff.mp hr⟩

/-- The weight of what the loop still does in its round. -/
def LoopPhase.work : LoopPhase → Nat
  | .polling => 1
  | .inPipeEvent .entered => 0
  | .inPipeEvent .draining => 6
  | .inPipeEvent .drained => 5
  | .inPipeEvent (.batch rest) => 4 + 2 * rest.length
  | .inPipeEvent (.running _ rest) => 5 + 2 * rest.length
  | .exited => 0

/-- The weight of everything that is left to do when nobody posts. -/
def EventPoller.work (s : EventPoller Thread) : Nat :=
  8 * s.posting.length + 7 * s.pipe + 3 * s.listTask.length + s.loop.work

variable [DecidableEq Thread]

theorem alive_step {cap : Nat} {s s' : EventPoller Thread} {a : Action Thread}
    (hguard : NoShutdown s a) (hstep : step cap s a = some s') (hl : Ledger s)
    (h : Alive s) : Alive s' := by
  cases (step_moves hstep).2 with
  | sync => exact h
  | push =>
      refine ⟨h.dtor, h.exitFlag, h.loop, ?_, h.running, h.woken⟩
      intro x hx
      rcases List.mem_append.mp hx with hx | hx
      · exact h.ordinary x hx
      · rw [List.mem_singleton.mp hx]
  | write =>
      refine ⟨h.dtor, h.exitFlag, h.loop, h.ordinary, h.running, fun hloop => ?_⟩
      have hpos := h.woken hloop
      simp only [written]
      split
      · omega
      · exact hpos
  | wake _ _ hpipe =>
      exact ⟨h.dtor, h.exitFlag, by simp, h.ordinary, by simp, fun _ => hpipe⟩
  | readSome =>
      exact ⟨h.dtor, h.exitFlag, by simp [readSome], h.ordinary, by simp [readSome],
        by simp [readSome]⟩
  | readAgain => exact ⟨h.dtor, h.exitFlag, by simp, h.ordinary, by simp, by simp⟩
  | swap hr =>
      obtain ⟨rfl, _⟩ := h.event_eq hr
      exact ⟨h.dtor, h.exitFlag, by simp [EventPoller.swap, setEvent], h.ordinary,
        by simp [EventPoller.swap, setEvent], by simp [EventPoller.swap, setEvent]⟩
  | begin hr =>
      obtain ⟨rfl, _⟩ := h.event_eq hr
      refine ⟨h.dtor, h.exitFlag, by simp [EventPoller.begin, setEvent], h.ordinary, ?_,
        by simp [EventPoller.begin, setEvent]⟩
      intro task rest hloop
      have htask : task ∈ s.todo := by
        rw [hl.exclusive.todo_eq hr]
        simp only [EventPoller.begin, setEvent, LoopPhase.inPipeEvent.injEq,
          PipeEvent.running.injEq] at hloop
        simp [PipeEvent.todo, hloop.1]
      exact h.ordinary task (hl.mem_pushed_of_todo htask)
  | finish hr =>
      obtain ⟨rfl, hloop⟩ := h.event_eq hr
      refine ⟨h.dtor, ?_, by simp [EventPoller.finish, setEvent], h.ordinary,
        by simp [EventPoller.finish, setEvent], by simp [EventPoller.finish, setEvent]⟩
      simp [EventPoller.finish, h.exitFlag, h.running _ _ hloop]
  | leaveEvent hr =>
      obtain ⟨rfl, _⟩ := h.event_eq hr
      exact ⟨h.dtor, h.exitFlag, by simp [EventPoller.leaveEvent], h.ordinary,
        by simp [EventPoller.leaveEvent], by simp [EventPoller.leaveEvent]⟩
  | exitLoop _ hexit => simp [h.exitFlag] at hexit
  | @shutdown t => exact absurd rfl (hguard t)
  | join hdtor => simp [h.dtor] at hdtor
  | flush hdtor => simp [h.dtor] at hdtor

/-- A call that is about to write is found among the calls in progress. -/
theorem mem_of_lookup {posting : List (Thread × Task)} {t : Thread} {x : Task}
    (h : posting.lookup t = some x) : (t, x) ∈ posting := by
  obtain ⟨front, back, hsplit, _⟩ := List.lookup_eq_some_iff.mp h
  simp [hsplit]

/-- Without new calls every step reduces the work that is left. -/
theorem work_lt {cap : Nat} {s s' : EventPoller Thread} {a : Action Thread}
    (hguard : Serving s a) (hstep : step cap s a = some s') (h : Alive s) :
    s'.work < s.work := by
  cases (step_moves hstep).2 with
  | sync => exact absurd rfl (hguard.2 _ _ _)
  | push => exact absurd rfl (hguard.2 _ _ _)
  | @write t task hpost =>
      have hmem := mem_of_lookup hpost
      have hlen := List.length_erase_of_mem hmem
      have hpos := List.length_pos_of_mem hmem
      simp only [EventPoller.work, written, hlen]
      split <;> omega
  | wake hloop => simp [EventPoller.work, hloop, LoopPhase.work]
  | readSome hloop hpipe =>
      have hmin : 0 < min 1024 s.pipe := by omega
      rcases hloop with hloop | hloop <;>
        simp only [EventPoller.work, readSome, hloop, LoopPhase.work] <;> omega
  | readAgain hloop hpipe =>
      rcases hloop with hloop | hloop
      · have := h.woken hloop
        omega
      · simp [EventPoller.work, hloop, LoopPhase.work]
  | swap hr =>
      obtain ⟨rfl, hloop⟩ := h.event_eq hr
      simp only [EventPoller.work, EventPoller.swap, setEvent, hloop, LoopPhase.work,
        List.length_nil]
      omega
  | begin hr =>
      obtain ⟨rfl, hloop⟩ := h.event_eq hr
      simp only [EventPoller.work, EventPoller.begin, setEvent, hloop, LoopPhase.work,
        List.length_cons]
      omega
  | finish hr =>
      obtain ⟨rfl, hloop⟩ := h.event_eq hr
      simp only [EventPoller.work, EventPoller.finish, setEvent, hloop, LoopPhase.work]
      omega
  | leaveEvent hr =>
      obtain ⟨rfl, hloop⟩ := h.event_eq hr
      simp only [EventPoller.work, EventPoller.leaveEvent, hloop, LoopPhase.work,
        List.length_nil]
      omega
  | exitLoop _ hexit => simp [h.exitFlag] at hexit
  | @shutdown t => exact absurd rfl (hguard.1 t)
  | join hdtor => simp [h.dtor] at hdtor
  | flush hdtor => simp [h.dtor] at hdtor

/-- A loop that is in the pipe event can go on. -/
theorem exists_step_inPipeEvent (cap : Nat) {s : EventPoller Thread} (h : Alive s) {p : PipeEvent}
    (hloop : s.loop = .inPipeEvent p) : ∃ a t, Serving s a ∧ step cap s a = some t := by
  have hlive : s.dtor ≠ .returned := by simp [h.dtor]
  have hevent : s.event .loop = some p := event_loop_iff.mpr hloop
  cases p with
  | entered =>
      refine ⟨.read, s.readSome, by simp [Serving], ?_⟩
      simp [step, hlive, hloop, h.woken hloop]
  | draining =>
      by_cases hpos : 0 < s.pipe
      · exact ⟨.read, s.readSome, by simp [Serving], by simp [step, hlive, hloop, hpos]⟩
      · exact ⟨.read, { s with loop := .inPipeEvent .drained }, by simp [Serving],
          by simp [step, hlive, hloop, hpos]⟩
  | drained =>
      exact ⟨.swap .loop, s.swap .loop, by simp [Serving], by simp [step, hlive, hevent]⟩
  | batch rest =>
      cases rest with
      | nil =>
          exact ⟨.leaveEvent .loop, s.leaveEvent .loop, by simp [Serving],
            by simp [step, hlive, hevent]⟩
      | cons task rest =>
          exact ⟨.begin .loop, s.begin .loop task rest, by simp [Serving],
            by simp [step, hlive, hevent]⟩
  | running task rest =>
      exact ⟨.finish .loop .returns, s.finish .loop task rest, by simp [Serving],
        by simp [step, hlive, hevent]⟩

/-- Where no step is left but new calls, the loop polls an empty pipe, no
call is in progress, and every pushed task has been called. -/
theorem idle_of_stuck {cap : Nat} {s : EventPoller Thread} (hl : Ledger s) (hsig : Signalled s)
    (h : Alive s) (hstuck : ∀ a, Serving s a → step cap s a = none) :
    s.listTask = [] ∧ s.ran = s.batches.flatten := by
  have hlive : s.dtor ≠ .returned := by simp [h.dtor]
  have blocked : ∀ a, Serving s a → ∀ t, step cap s a ≠ some t := by
    intro a ha t hsome
    simp [hstuck a ha] at hsome
  have hposting : s.posting = [] := by
    rcases hp : s.posting with _ | ⟨⟨t, x⟩, rest⟩
    · rfl
    · refine absurd ?_ (blocked (.write t) (by simp [Serving]) (s.written cap t x))
      simp [step, hlive, hp]
  have hpolling : s.loop = .polling ∧ s.pipe = 0 := by
    cases hloop : s.loop with
    | polling =>
        refine ⟨rfl, ?_⟩
        by_contra hne
        have hpos : 0 < s.pipe := by omega
        refine blocked .wake (by simp [Serving]) { s with loop := .inPipeEvent .entered } ?_
        simp [step, hlive, hloop, h.exitFlag, hpos]
    | exited => exact absurd hloop h.loop
    | inPipeEvent p =>
        obtain ⟨a, t, hserving, hsome⟩ := exists_step_inPipeEvent cap h hloop
        exact absurd hsome (blocked a hserving t)
  have hlist : s.listTask = [] := by
    by_contra hne
    rcases hsig hne with (hd | hd) | hpos | hpost
    · simp [hpolling.1] at hd
    · simp [hpolling.1] at hd
    · omega
    · exact hpost hposting
  refine ⟨hlist, ?_⟩
  have hcalled := hl.called
  have htodo : s.todo = [] := by
    simp [todo, hpolling.1, h.dtor, LoopPhase.event, DtorPhase.event]
  simpa [htodo] using hcalled

/-- Hand-over between any number of posters and the running loop. A waiting
task is announced; every task is put in one batch and called once, by a
bounded number of steps after the last call of `async`; and the tasks pushed
by `async` are called in the order of their pushes. -/
theorem task_handover {cap : Nat} (hcap : 0 < cap) {loopThread : Thread}
    {as : List (Action Thread)} {s : EventPoller Thread}
    (run : Run (step cap) NoShutdown (init loopThread) as s) :
    (s.listTask ≠ [] → ¬ s.betweenDrainAndSwap → 0 < s.pipe ∨ s.posting ≠ []) ∧
    (s.pushed.Nodup ∧ (s.batches.flatten ++ s.listTask).Perm s.pushed ∧
      (∀ x, s.ran.count x ≤ s.batches.flatten.count x ∧ s.batches.flatten.count x ≤ 1) ∧
      (∀ bs t, Run (step cap) Serving s bs t → bs.length ≤ s.work) ∧
      ((∀ a, Serving s a → step cap s a = none) →
        ∀ x ∈ s.pushed, s.batches.flatten.count x = 1 ∧ s.ran.count x = 1)) ∧
    s.ran.filter (!·.first) <+: s.pushed.filter (!·.first) := by
  have hl := ledger_of_run run
  have hsig := signalled_of_run hcap run
  have halive : Ledger s ∧ Alive s :=
    run.invariant (P := fun s => Ledger s ∧ Alive s)
      (fun _ _ _ hg hstep h => ⟨ledger_step hstep h.1, alive_step hg hstep h.1 h.2⟩)
      ⟨ledger_init loopThread, alive_init loopThread⟩
  refine ⟨fun hne hdrain => (hsig hne).resolve_left hdrain, ⟨hl.nodup, hl.placed, hl.count_le,
    fun bs t serving => ?_, fun hstuck x hx => ?_⟩, hl.back_prefix⟩
  · have hlen := serving.length_add_le (P := fun s => Ledger s ∧ Alive s) (μ := EventPoller.work)
      (fun _ _ _ hg hstep h => ⟨ledger_step hstep h.1, alive_step hg.1 hstep h.1 h.2⟩)
      (fun _ _ _ hg hstep h => work_lt hg hstep h.2) halive
    omega
  · obtain ⟨hlist, hran⟩ := idle_of_stuck hl hsig halive.2 hstuck
    have hperm := hl.placed.count_eq x
    rw [hlist, List.append_nil, List.count_eq_one_of_mem hl.nodup hx] at hperm
    rw [hran]
    exact ⟨hperm, hperm⟩

/-- A poster at the back and one at the front on a pipe of one byte. The
second write fails, one batch holds both tasks, and the first call throws. -/
def twoPosters : List (Action Nat) :=
  [.call 1 false false, .call 2 false true, .write 1, .write 2, .wake, .read, .read,
    .swap .loop, .begin .loop, .finish .loop .throws, .begin .loop, .finish .loop .returns,
    .leaveEvent .loop]

theorem task_handover_twoPosters :
    ∃ s, exec (step 1) (init 0) twoPosters = some s ∧ s.accepted.length = 2 ∧
      (∀ x ∈ s.pushed, s.batches.flatten.count x = 1 ∧ s.ran.count x = 1) ∧
      s.ran.filter (!·.first) <+: s.pushed.filter (!·.first) := by
  refine ⟨_, rfl, rfl, ?_⟩
  have run : Run (step 1) NoShutdown (init 0) twoPosters _ :=
    run_of_exec rfl (by simp [twoPosters, NoShutdown])
  have h := task_handover (by decide) run
  refine ⟨h.2.1.2.2.2.2 ?_, h.2.2⟩
  rintro a ⟨hshutdown, hcall⟩
  cases a with
  | call t maySync first => exact absurd rfl (hcall t maySync first)
  | shutdown t => exact absurd rfl (hshutdown t)
  | swap r => cases r <;> rfl
  | begin r => cases r <;> rfl
  | finish r => cases r <;> rfl
  | leaveEvent r => cases r <;> rfl
  | write => rfl
  | wake => rfl
  | read => rfl
  | exitLoop => rfl
  | join => rfl
  | flush => rfl

end FFZKit.Poller.TaskHandover
