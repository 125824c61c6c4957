import FFZKit.Poller.HandoverLedger

/-!
# Shutdown: which accepted tasks the destructor's flush can miss

The destructor swaps the list once, after the loop has been joined. A task
that is pushed after this swap, by a task that the flush runs or by another
thread, stays in the list and is never called, although its `async` returned
it to the caller. This is the only way to lose a task.
-/

namespace FFZKit.Poller.TaskHandover

open FFZKit.Foundations.Transition EventPoller

variable {Thread : Type*}

/-- The destructor has swapped the list for the last time. -/
def AfterLastSwap (s : EventPoller Thread) : Prop :=
  s.dtor = .returned ∨ ∃ event, s.dtor = .flushing event ∧ event ≠ .drained

/-- Every accepted task has been called exactly once. -/
def LosesNone (s : EventPoller Thread) : Prop :=
  ∀ x ∈ s.accepted, s.ran.count x = 1

instance (s : EventPoller Thread) : Decidable (LosesNone s) :=
  inferInstanceAs (Decidable (∀ x ∈ s.accepted, s.ran.count x = 1))

/-- After the last swap no accepted task is in the list. -/
def Flushed (s : EventPoller Thread) : Prop :=
  AfterLastSwap s → ∀ x ∈ s.accepted, x ∉ s.listTask

/-- A new task has a serial that no pushed task has. -/
theorem Ledger.serial_lt {s : EventPoller Thread} (h : Ledger s) {x : Task}
    (hx : x ∈ s.pushed) : x.serial < s.pushed.length := by
  have hmem : x.serial ∈ s.pushed.map Task.serial := List.mem_map_of_mem hx
  rw [h.serials] at hmem
  exact List.mem_range.mp hmem

/-- A destructor that has returned leaves the tasks in the list uncalled, and
has called every other pushed task exactly once. -/
theorem Ledger.losesNone_iff {s : EventPoller Thread} (h : Ledger s)
    (hdtor : s.dtor = .returned) : LosesNone s ↔ ∀ x ∈ s.accepted, x ∉ s.listTask := by
  have hloop : s.loop = .exited := by simpa [Exclusive, hdtor] using h.exclusive
  have htodo : s.todo = [] := by simp [todo, hloop, hdtor, LoopPhase.event, DtorPhase.event]
  have hran : s.ran = s.batches.flatten := by simpa [htodo] using h.called
  have hcount : ∀ x ∈ s.accepted, s.ran.count x + s.listTask.count x = 1 := by
    intro x hx
    have hperm := h.placed.count_eq x
    rw [List.count_append, List.count_eq_one_of_mem h.nodup (h.accepted x hx)] at hperm
    rw [hran]
    exact hperm
  constructor
  · intro hnone x hx hmem
    have hlist := List.count_pos_iff.mpr hmem
    have hsum := hcount x hx
    have hone := hnone x hx
    omega
  · intro hnot x hx
    have hsum := hcount x hx
    rw [List.count_eq_zero_of_not_mem (hnot x hx)] at hsum
    omega

/-- Pushing never puts an accepted task back into the list. -/
theorem Ledger.not_mem_push {s : EventPoller Thread} (h : Ledger s) {x : Task}
    (hx : x ∈ s.accepted) (hlist : x ∉ s.listTask) (t : Thread) (first exits : Bool) :
    x ∉ (s.push t first exits).listTask := by
  have hlt := h.serial_lt (h.accepted x hx)
  have hne : x ≠ ⟨s.pushed.length, first, exits⟩ := by
    rintro rfl
    exact absurd hlt (Nat.lt_irrefl _)
  cases first with
  | true => simp [EventPoller.push, hne, hlist]
  | false => simp [EventPoller.push, hne, hlist]

theorem mem_push (s : EventPoller Thread) {x : Task} (hx : x ∈ s.listTask) (t : Thread)
    (first exits : Bool) : x ∈ (s.push t first exits).listTask := by
  cases first with
  | true => simp [EventPoller.push, hx]
  | false => simp [EventPoller.push, hx]

variable [DecidableEq Thread]

/-- After the last swap, no call of `async` returns a task that is still in
the list. -/
def Timely (s : EventPoller Thread) (a : Action Thread) : Prop :=
  ∀ t x, a = .write t → s.posting.lookup t = some x → AfterLastSwap s → x ∉ s.listTask

/-- A timely step keeps the accepted tasks out of the list after the last swap. -/
theorem flushed_step {cap : Nat} {s s' : EventPoller Thread} {a : Action Thread}
    (htimely : Timely s a) (hstep : step cap s a = some s') (hl : Ledger s)
    (h : Flushed s) : Flushed s' := by
  have hlive := (step_moves hstep).1
  cases (step_moves hstep).2 with
  | sync => exact h
  | push => exact fun hlast x hx => hl.not_mem_push hx (h hlast x hx) _ _ _
  | @write t task hpost =>
      intro hlast x hx
      rcases List.mem_append.mp hx with hx | hx
      · exact h hlast x hx
      · obtain rfl := List.mem_singleton.mp hx
        exact htimely t x rfl hpost hlast
  | wake => exact h
  | readSome => exact h
  | readAgain => exact h
  | swap => exact fun _ x _ => List.not_mem_nil
  | @begin r task rest hr =>
      cases r with
      | loop => exact h
      | dtor =>
          intro _ x hx
          refine h (Or.inr ⟨.batch (task :: rest), ?_, by simp⟩) x hx
          exact event_dtor_iff.mp hr
  | @finish r _ task rest hr =>
      cases r with
      | loop => exact h
      | dtor =>
          intro _ x hx
          refine h (Or.inr ⟨.running task rest, ?_, by simp⟩) x hx
          exact event_dtor_iff.mp hr
  | @leaveEvent r hr =>
      cases r with
      | loop => exact h
      | dtor =>
          intro _ x hx
          refine h (Or.inr ⟨.batch [], ?_, by simp⟩) x hx
          exact event_dtor_iff.mp hr
  | exitLoop => exact h
  | shutdown => exact fun hlast => by simp [AfterLastSwap] at hlast
  | join => exact fun hlast => by simp [AfterLastSwap] at hlast
  | flush => exact fun hlast => by simp [AfterLastSwap] at hlast

/-- A task that `async` has returned and that no swap will take any more. -/
def Lost (x : Task) (s : EventPoller Thread) : Prop :=
  AfterLastSwap s ∧ x ∈ s.accepted ∧ x ∈ s.listTask

/-- The step after which the loss is certain: an untimely write. -/
theorem lost_of_untimely {cap : Nat} {s s' : EventPoller Thread} {a : Action Thread}
    (huntimely : ¬ Timely s a) (hstep : step cap s a = some s') : ∃ x, Lost x s' := by
  simp only [Timely, not_forall, not_not] at huntimely
  obtain ⟨t, x, rfl, hpost, hlast, hmem⟩ := huntimely
  refine ⟨x, ?_⟩
  cases (step_moves hstep).2 with
  | write hpost' =>
      obtain rfl := Option.some.inj (hpost.symm.trans hpost')
      exact ⟨hlast, by simp [written], hmem⟩

/-- A lost task stays lost. -/
theorem lost_step {cap : Nat} {s s' : EventPoller Thread} {a : Action Thread}
    (hstep : step cap s a = some s') (hl : Ledger s) {x : Task} (h : Lost x s) : Lost x s' := by
  obtain ⟨hlast, hacc, hmem⟩ := h
  obtain ⟨hlive, hmoves⟩ := step_moves hstep
  obtain ⟨p, hdtor, hp⟩ := hlast.resolve_left hlive
  have hloop : s.loop = .exited := by simpa [Exclusive, hdtor] using hl.exclusive
  have hlast' : AfterLastSwap s := Or.inr ⟨p, hdtor, hp⟩
  cases hmoves with
  | sync => exact ⟨hlast', hacc, hmem⟩
  | push => exact ⟨hlast', hacc, mem_push s hmem _ _ _⟩
  | write => exact ⟨hlast', List.mem_append_left _ hacc, hmem⟩
  | wake hl' => simp [hloop] at hl'
  | readSome hl' => simp [hloop] at hl'
  | readAgain hl' => simp [hloop] at hl'
  | @swap r hr =>
      cases r with
      | loop => simp [event_loop_iff, hloop] at hr
      | dtor =>
          rw [event_dtor_iff, hdtor, DtorPhase.flushing.injEq] at hr
          exact absurd hr hp
  | @begin r task rest hr =>
      cases r with
      | loop => simp [event_loop_iff, hloop] at hr
      | dtor => exact ⟨Or.inr ⟨.running task rest, rfl, by simp⟩, hacc, hmem⟩
  | @finish r _ task rest hr =>
      cases r with
      | loop => simp [event_loop_iff, hloop] at hr
      | dtor => exact ⟨Or.inr ⟨.batch rest, rfl, by simp⟩, hacc, hmem⟩
  | @leaveEvent r hr =>
      cases r with
      | loop => simp [event_loop_iff, hloop] at hr
      | dtor => exact ⟨Or.inl rfl, hacc, hmem⟩
  | exitLoop hl' => simp [hloop] at hl'
  | shutdown hd => simp [hdtor] at hd
  | join hd => simp [hdtor] at hd
  | flush hd => simp [hdtor] at hd

/-- When the destructor returns, every task that `async` returned has been
called exactly once if and only if every step of the run was timely. -/
theorem shutdown_losesNone_iff {cap : Nat} {loopThread : Thread} {as : List (Action Thread)}
    {s : EventPoller Thread} (run : Run (step cap) anyStep (init loopThread) as s)
    (hdtor : s.dtor = .returned) :
    LosesNone s ↔ Run (step cap) Timely (init loopThread) as s := by
  have hl := ledger_of_run run
  rw [hl.losesNone_iff hdtor]
  constructor
  · intro hnot
    rcases run.guarded_or_broken  with timely |
      ⟨front, a, back, u, u', rfl, hfront, huntimely, hstep, hback⟩
    · exact timely
    · obtain ⟨x, hlost⟩ := lost_of_untimely huntimely hstep
      have hend : Ledger s ∧ Lost x s :=
        hback.invariant (P := fun s => Ledger s ∧ Lost x s)
          (fun _ _ _ _ hstep h => ⟨ledger_step hstep h.1, lost_step hstep h.1 h.2⟩)
          ⟨ledger_step hstep (ledger_of_run hfront), hlost⟩
      exact absurd hend.2.2.2 (hnot x hend.2.2.1)
  · intro timely
    have hend : Ledger s ∧ Flushed s :=
      timely.invariant (P := fun s => Ledger s ∧ Flushed s)
        (fun _ _ _ hg hstep h => ⟨ledger_step hstep h.1, flushed_step hg hstep h.1 h.2⟩)
        ⟨ledger_init loopThread, fun hlast => by simp [AfterLastSwap, init] at hlast⟩
    exact hend.2 (Or.inl hdtor)

/-- Thread 1 posts a task, which in the batch of the exit task posts another. -/
def exitBatch : List (Action Nat) :=
  [.call 1 false false, .write 1, .wake, .read, .read, .shutdown 9, .write 9,
    .swap .loop, .begin .loop, .finish .loop .returns, .begin .loop, .call 0 false false,
    .write 0, .finish .loop .returns, .leaveEvent .loop, .exitLoop, .join, .flush,
    .swap .dtor, .begin .dtor]

/-- The final flush runs the second task to its end. -/
def quietFlush : List (Action Nat) :=
  exitBatch ++ [.finish .dtor .returns, .leaveEvent .dtor]

/-- In the final flush the second task posts a third one. -/
def repostingFlush : List (Action Nat) :=
  exitBatch ++ [.call 9 false false, .write 9, .finish .dtor .returns, .leaveEvent .dtor]

theorem shutdown_losesNone_iff_quietFlush :
    ∃ s, exec (step 1) (init 0) quietFlush = some s ∧ LosesNone s ∧
      Run (step 1) Timely (init 0) quietFlush s := by
  refine ⟨_, rfl, by decide, ?_⟩
  exact (shutdown_losesNone_iff (run_of_exec rfl (fun _ _ _ => trivial)) rfl).mp (by decide)

/-- The third task was returned by `async` and is never called. -/
theorem shutdown_loses_reposted :
    ¬ ∀ (as : List (Action Nat)) (s : EventPoller Nat),
      Run (step 1) anyStep (init 0) as s → s.dtor = .returned → LosesNone s := by
  intro h
  have hnone := h repostingFlush _ (run_of_exec rfl (fun _ _ _ => trivial)) rfl
  exact absurd hnone (by decide)

end FFZKit.Poller.TaskHandover
