import FFZKit.Util.AsyncLog

/-!
# What an `AsyncLogWriter` delivers

Every entry pushed is delivered, taken by one of the two consumers, or
pending, in the order of the pushes. The flush thread has left its loop before
the destructor takes over, so only one consumer holds entries. What was pushed
before the destructor's locked section is delivered when the destructor
returns, and the destructor does return: its own post lets the flush thread out
of `_sem.wait()`.
-/

namespace FFZKit.Util.AsyncLog

open FFZKit.Foundations.Transition
open FFZKit.Thread (Semaphore)

variable {Thread Message : Type*}

/-- The destructor has joined the flush thread. -/
def DestructorPhase.Joined : DestructorPhase Message → Prop
  | .flushing _ => True
  | .returned => True
  | _ => False

/-- The destructor is past the locked section of its `flushAll`. -/
def DestructorPhase.Swapped : DestructorPhase Message → Prop
  | .flushing (.delivering _) => True
  | .returned => True
  | _ => False

/-- Where the entries are. -/
structure Ordered (s : AsyncLogWriter Thread Message) : Prop where
  placed : s.written ++ s.thread.tmp ++ s.destructor.tmp ++ s.pending = s.pushed
  serials : s.pushed.map Entry.serial = List.range s.pushed.length
  retired : s.destructor.Joined → s.thread = .exited
  calls : ∀ w entry, s.call w = some entry → entry ∈ s.pushed
  returned : ∀ entry ∈ s.returned, entry ∈ s.pushed
  taken : s.destructor.Swapped → ∀ entry ∈ s.returned, entry ∈ s.written ++ s.destructor.tmp

theorem ordered_init : Ordered (init Thread Message) where
  placed := rfl
  serials := rfl
  retired := False.elim
  calls := by simp [init]
  returned := by simp [init]
  taken := False.elim

variable [DecidableEq Thread]

/-- A push appends an entry with the next serial number. -/
theorem Ordered.push {s : AsyncLogWriter Thread Message} (h : Ordered s) (w : Thread)
    (message : Message) : Ordered (s.push w message) where
  placed := by
    simp only [AsyncLogWriter.push, ← h.placed, List.append_assoc]
  serials := by
    simp only [AsyncLogWriter.push, List.map_append, h.serials, List.map_cons, List.map_nil,
      List.length_append, List.length_singleton, List.range_succ]
  retired := h.retired
  calls := by
    intro v entry hcall
    simp only [AsyncLogWriter.push, List.mem_append, List.mem_singleton] at hcall ⊢
    by_cases hv : v = w
    · subst hv
      rw [Function.update_self, Option.some.injEq] at hcall
      exact Or.inr hcall.symm
    · rw [Function.update_of_ne hv] at hcall
      exact Or.inl (h.calls v entry hcall)
  returned := fun entry hentry => List.mem_append_left _ (h.returned entry hentry)
  taken := h.taken

/-- A post returns an entry that was pushed. -/
theorem Ordered.post {s : AsyncLogWriter Thread Message} (h : Ordered s) {w : Thread}
    {entry : Entry Message} (hcall : s.call w = some entry) (sem : Semaphore Unit) :
    Ordered (s.post w entry sem) where
  placed := h.placed
  serials := h.serials
  retired := h.retired
  calls := by
    intro v other hother
    simp only [AsyncLogWriter.post] at hother ⊢
    by_cases hv : v = w
    · subst hv
      rw [Function.update_self] at hother
      cases hother
    · rw [Function.update_of_ne hv] at hother
      exact h.calls v other hother
  returned := by
    intro other hother
    simp only [AsyncLogWriter.post] at hother ⊢
    split at hother
    · rcases List.mem_append.mp hother with hold | hnew
      · exact h.returned other hold
      · rw [List.mem_singleton.mp hnew]
        exact h.calls w entry hcall
    · exact h.returned other hother
  taken := by
    intro hswapped other hother
    simp only [AsyncLogWriter.post] at hswapped hother ⊢
    split at hother
    · rename_i hfirst
      rw [hfirst] at hswapped
      exact hswapped.elim
    · exact h.taken hswapped other hother

omit [DecidableEq Thread] in
/-- While the flush thread runs, the destructor has taken nothing. -/
theorem Ordered.flushing_alone {s : AsyncLogWriter Thread Message} (h : Ordered s)
    {flush : Flush Message} (hthread : s.thread = .flushing flush) :
    ¬ s.destructor.Swapped ∧ ¬ s.destructor.Joined ∧ s.destructor.tmp = [] := by
  have halone : ¬ s.destructor.Joined := by
    intro hjoined
    rw [h.retired hjoined] at hthread
    cases hthread
  cases hdestructor : s.destructor with
  | flushing flush => exact (halone (by rw [hdestructor]; trivial)).elim
  | returned => exact (halone (by rw [hdestructor]; trivial)).elim
  | _ => exact ⟨id, id, rfl⟩

omit [DecidableEq Thread] in
/-- A step of the flush thread's `flushAll` moves entries from `_pending` to
`tmp` or from `tmp` to the channels. -/
theorem Ordered.flushThread {s : AsyncLogWriter Thread Message} (h : Ordered s)
    {flush : Flush Message} (hthread : s.thread = .flushing flush) :
    Ordered (s.flushThread flush) := by
  obtain ⟨hswapped, hjoined, htmp⟩ := h.flushing_alone hthread
  have hplaced := h.placed
  rw [hthread, htmp, List.append_nil] at hplaced
  cases flush with
  | swapping =>
      refine ⟨?_, h.serials, fun hj => (hjoined hj).elim, h.calls, h.returned,
        fun hs => (hswapped hs).elim⟩
      simpa [AsyncLogWriter.flushThread, AsyncLogWriter.flushAll, ThreadPhase.tmp, Flush.tmp, htmp]
        using hplaced
  | delivering tmp =>
      cases tmp with
      | nil =>
          refine ⟨?_, h.serials, fun hj => (hjoined hj).elim, h.calls, h.returned,
            fun hs => (hswapped hs).elim⟩
          simpa [AsyncLogWriter.flushThread, AsyncLogWriter.flushAll, ThreadPhase.tmp, Flush.tmp,
            htmp] using hplaced
      | cons entry rest =>
          refine ⟨?_, h.serials, fun hj => (hjoined hj).elim, h.calls, h.returned,
            fun hs => (hswapped hs).elim⟩
          simpa [AsyncLogWriter.flushThread, AsyncLogWriter.flushAll, ThreadPhase.tmp, Flush.tmp,
            htmp] using hplaced

omit [DecidableEq Thread] in
/-- The same of the destructor's, whose locked section takes whatever `write`
returned for. -/
theorem Ordered.flushDestructor {s : AsyncLogWriter Thread Message} (h : Ordered s)
    {flush : Flush Message} (hdestructor : s.destructor = .flushing flush) :
    Ordered (s.flushDestructor flush) := by
  have hthread : s.thread = .exited := h.retired (by rw [hdestructor]; trivial)
  have hplaced := h.placed
  have htaken := h.taken
  rw [hthread, hdestructor] at hplaced
  rw [hdestructor] at htaken
  cases flush with
  | swapping =>
      have hmoved : s.written ++ s.pending = s.pushed := by
        simpa [ThreadPhase.tmp, DestructorPhase.tmp, Flush.tmp] using hplaced
      refine ⟨?_, h.serials, fun _ => hthread, h.calls, h.returned, fun _ entry hentry => ?_⟩
      · simpa [AsyncLogWriter.flushDestructor, AsyncLogWriter.flushAll, hthread, ThreadPhase.tmp,
          DestructorPhase.tmp, Flush.tmp] using hmoved
      · show entry ∈ s.written ++ s.pending
        rw [hmoved]
        exact h.returned entry hentry
  | delivering tmp =>
      have htaken := htaken trivial
      cases tmp with
      | nil =>
          refine ⟨?_, h.serials, fun _ => hthread, h.calls, h.returned, fun _ => htaken⟩
          simpa [AsyncLogWriter.flushDestructor, AsyncLogWriter.flushAll, hthread,
            ThreadPhase.tmp, DestructorPhase.tmp, Flush.tmp] using hplaced
      | cons entry rest =>
          refine ⟨?_, h.serials, fun _ => hthread, h.calls, h.returned, fun _ other hother => ?_⟩
          · simpa [AsyncLogWriter.flushDestructor, AsyncLogWriter.flushAll, hthread,
              ThreadPhase.tmp, DestructorPhase.tmp, Flush.tmp] using hplaced
          · simpa [AsyncLogWriter.flushDestructor, AsyncLogWriter.flushAll, DestructorPhase.tmp,
              Flush.tmp] using htaken other hother

theorem ordered_step {s t : AsyncLogWriter Thread Message} {a : Action Thread Message}
    (moves : Moves s a t) (h : Ordered s) : Ordered t := by
  have hplaced := h.placed
  cases moves with
  | push => exact h.push _ _
  | post hcall => exact h.post hcall _
  | leave hthread =>
      rw [hthread] at hplaced
      exact ⟨hplaced, h.serials, fun _ => rfl, h.calls, h.returned, h.taken⟩
  | enter hthread hflag =>
      rw [hthread] at hplaced
      refine ⟨hplaced, h.serials, fun hjoined => ?_, h.calls, h.returned, h.taken⟩
      have hexited := h.retired hjoined
      rw [hthread] at hexited
      cases hexited
  | block => exact ⟨hplaced, h.serials, h.retired, h.calls, h.returned, h.taken⟩
  | take hthread =>
      rw [hthread] at hplaced
      refine ⟨hplaced, h.serials, fun hjoined => ?_, h.calls, h.returned, h.taken⟩
      have hexited := h.retired hjoined
      rw [hthread] at hexited
      cases hexited
  | wakeSpuriously => exact ⟨hplaced, h.serials, h.retired, h.calls, h.returned, h.taken⟩
  | flush hthread => exact h.flushThread hthread
  | setExitFlag hfirst =>
      rw [hfirst] at hplaced
      exact ⟨hplaced, h.serials, False.elim, h.calls, h.returned, False.elim⟩
  | postExit hposting =>
      rw [hposting] at hplaced
      exact ⟨hplaced, h.serials, False.elim, h.calls, h.returned, False.elim⟩
  | join hjoining hthread =>
      rw [hjoining] at hplaced
      exact ⟨hplaced, h.serials, fun _ => hthread, h.calls, h.returned, False.elim⟩
  | finalFlush hflushing => exact h.flushDestructor hflushing

theorem ordered_of_run {as : List (Action Thread Message)} {s : AsyncLogWriter Thread Message}
    (run : Run step anyStep (init Thread Message) as s) : Ordered s :=
  run.invariant (fun _ _ _ _ moves => ordered_step (step_moves moves)) ordered_init

/-- Who is awake: `_exit_flag` tells whether the destructor has begun, and the
flush thread finds a count once the destructor has posted. -/
structure Awake (s : AsyncLogWriter Thread Message) : Prop where
  wellPosted : s.sem.WellPosted
  flag : s.exitFlag = false ↔ s.destructor = .notBegun
  posted : s.destructor = .joining → s.thread = .waiting → 0 < s.sem.count

omit [DecidableEq Thread] in
theorem awake_init : Awake (init Thread Message) where
  wellPosted := Semaphore.wellPosted_init
  flag := by simp [init]
  posted := by simp [init]

omit [DecidableEq Thread] in
theorem Awake.flushThread {s : AsyncLogWriter Thread Message} (h : Awake s)
    (flush : Flush Message) : Awake (s.flushThread flush) := by
  rcases flush with _ | ⟨_ | ⟨entry, rest⟩⟩ <;>
    exact ⟨h.wellPosted, h.flag, fun _ hwaiting => nomatch hwaiting⟩

omit [DecidableEq Thread] in
theorem Awake.flushDestructor {s : AsyncLogWriter Thread Message} (h : Awake s)
    {flush : Flush Message} (hdestructor : s.destructor = .flushing flush) :
    Awake (s.flushDestructor flush) := by
  have hflag : ¬ s.exitFlag = false := by
    rw [h.flag, hdestructor]
    exact nofun
  rcases flush with _ | ⟨_ | ⟨entry, rest⟩⟩ <;>
    exact ⟨h.wellPosted, iff_of_false hflag nofun, fun hjoining => nomatch hjoining⟩

theorem awake_step {s t : AsyncLogWriter Thread Message} {a : Action Thread Message}
    (moves : Moves s a t) (h : Awake s) : Awake t := by
  cases moves with
  | push => exact ⟨h.wellPosted, h.flag, h.posted⟩
  | post hcall hsem =>
      have hcount := (Semaphore.post_eq hsem).1
      refine ⟨h.wellPosted.post hsem, h.flag, fun _ _ => ?_⟩
      simp only [AsyncLogWriter.post]
      omega
  | leave => exact ⟨h.wellPosted, h.flag, fun _ hwaiting => nomatch hwaiting⟩
  | enter _ hflag =>
      refine ⟨h.wellPosted, h.flag, fun hjoining _ => ?_⟩
      have hfirst := h.flag.mp hflag
      rw [hfirst] at hjoining
      cases hjoining
  | block hthread hcount =>
      refine ⟨h.wellPosted.block () hcount, h.flag, fun hjoining _ => ?_⟩
      exact h.posted hjoining hthread
  | take => exact ⟨h.wellPosted.take (), h.flag, fun _ hwaiting => nomatch hwaiting⟩
  | wakeSpuriously hblocked => exact ⟨h.wellPosted.wake hblocked, h.flag, h.posted⟩
  | flush => exact h.flushThread _
  | setExitFlag => exact ⟨h.wellPosted, by simp, fun hjoining => nomatch hjoining⟩
  | postExit hposting hsem =>
      have hcount := (Semaphore.post_eq hsem).1
      have hflag : ¬ s.exitFlag = false := by
        rw [h.flag, hposting]
        exact nofun
      refine ⟨h.wellPosted.post hsem, iff_of_false hflag nofun, fun _ _ => ?_⟩
      simp only
      omega
  | join hjoining =>
      have hflag : ¬ s.exitFlag = false := by
        rw [h.flag, hjoining]
        exact nofun
      exact ⟨h.wellPosted, iff_of_false hflag nofun, fun hjoining => nomatch hjoining⟩
  | finalFlush hflushing => exact h.flushDestructor hflushing

theorem awake_of_run {as : List (Action Thread Message)} {s : AsyncLogWriter Thread Message}
    (run : Run step anyStep (init Thread Message) as s) : Awake s :=
  run.invariant (fun _ _ _ _ moves => awake_step (step_moves moves)) awake_init

/-- The steps of the flush thread and of the destructor. -/
def Consumes : AsyncLogWriter Thread Message → Action Thread Message → Prop
  | _, .push _ _ => False
  | _, .post _ _ => False
  | _, .wakeSpuriously => False
  | _, _ => True

/-- Steps left of a call of `flushAll` while `n` entries are pending. -/
def Flush.work (n : Nat) : Flush Message → Nat
  | .swapping => 2 + n
  | .delivering tmp => 1 + tmp.length

def ThreadPhase.work (n : Nat) : ThreadPhase Message → Nat
  | .exited => 0
  | .checking => 1
  | .flushing flush => 1 + flush.work n
  | .waiting => 4 + n

def DestructorPhase.work (n : Nat) : DestructorPhase Message → Nat
  | .returned => 0
  | .flushing flush => flush.work n
  | .joining => 3 + n
  | .posting => 4 + n
  | .notBegun => 5 + n

/-- The steps that the two consumers have left once the destructor has begun,
provided that nothing more is pushed. -/
def AsyncLogWriter.work (s : AsyncLogWriter Thread Message) : Nat :=
  s.thread.work s.pending.length + s.destructor.work s.pending.length

omit [DecidableEq Thread] in
theorem work_flushThread {s : AsyncLogWriter Thread Message} {flush : Flush Message}
    (hthread : s.thread = .flushing flush) (hdestructor : s.destructor = .joining) :
    (s.flushThread flush).work < s.work := by
  rcases flush with _ | ⟨_ | ⟨entry, rest⟩⟩ <;>
    simp only [AsyncLogWriter.work, AsyncLogWriter.flushThread, AsyncLogWriter.flushAll,
      ThreadPhase.work, DestructorPhase.work, Flush.work, hthread, hdestructor,
      List.length_nil, List.length_cons] <;>
    omega

omit [DecidableEq Thread] in
theorem work_flushDestructor {s : AsyncLogWriter Thread Message} {flush : Flush Message}
    (hthread : s.thread = .exited) (hdestructor : s.destructor = .flushing flush) :
    (s.flushDestructor flush).work < s.work := by
  rcases flush with _ | ⟨_ | ⟨entry, rest⟩⟩ <;>
    simp [AsyncLogWriter.work, AsyncLogWriter.flushDestructor, AsyncLogWriter.flushAll,
      ThreadPhase.work, DestructorPhase.work, Flush.work, hthread, hdestructor]

/-- While the destructor waits in `join`, the flush thread can step. -/
theorem exists_step_joining {s : AsyncLogWriter Thread Message} (awake : Awake s)
    (hjoining : s.destructor = .joining) (hrunning : s.thread ≠ .exited) :
    ∃ a t, Consumes s a ∧ step s a = some t ∧ t.work < s.work := by
  have hflag : s.exitFlag = true := by
    rw [← Bool.not_eq_false, awake.flag, hjoining]
    exact nofun
  cases hthread : s.thread with
  | checking =>
      refine ⟨.check, { s with thread := .exited }, trivial, by simp [step, hthread, hflag], ?_⟩
      simp [AsyncLogWriter.work, ThreadPhase.work, hthread]
  | waiting =>
      have hcount := awake.posted hjoining hthread
      have hawake : () ∉ s.sem.blocked := by
        intro hblocked
        have hle := awake.wellPosted.claimed ⟨(), hblocked⟩
        have hnotified : 0 < s.sem.notified.card := hcount.trans_le hle
        obtain ⟨⟨⟩, hother⟩ := Finset.card_pos.mp hnotified
        exact Finset.disjoint_left.mp awake.wellPosted.disjoint hblocked hother
      refine ⟨.wait, { s with sem := s.sem.take (), thread := .flushing .swapping }, trivial,
        by simp [step, hthread, hawake, hcount.ne'], ?_⟩
      simp [AsyncLogWriter.work, ThreadPhase.work, Flush.work, hthread]
      omega
  | flushing flush =>
      exact ⟨.flush, s.flushThread flush, trivial, by simp only [step, hthread],
        work_flushThread hthread hjoining⟩
  | exited => exact (hrunning hthread).elim

/-- Once the destructor has begun, a consumer can step until it has returned. -/
theorem exists_step_begun {s : AsyncLogWriter Thread Message} (ordered : Ordered s)
    (awake : Awake s) (hbegun : s.destructor ≠ .notBegun) (hlive : s.destructor ≠ .returned) :
    ∃ a t, Consumes s a ∧ step s a = some t ∧ t.work < s.work := by
  cases hdestructor : s.destructor with
  | notBegun => exact (hbegun hdestructor).elim
  | posting =>
      obtain ⟨choice, hpost⟩ := Semaphore.exists_post s.sem 1
      obtain ⟨sem, hsem⟩ := Option.isSome_iff_exists.mp hpost
      refine ⟨.postExit choice, { s with sem := sem, destructor := .joining }, trivial,
        by simp [step, hdestructor, hsem], ?_⟩
      simp [AsyncLogWriter.work, DestructorPhase.work, hdestructor]
  | joining =>
      by_cases hexited : s.thread = .exited
      · refine ⟨.join, { s with destructor := .flushing .swapping }, trivial,
          by simp [step, hdestructor, hexited], ?_⟩
        simp [AsyncLogWriter.work, DestructorPhase.work, Flush.work, hdestructor]
      · exact exists_step_joining awake hdestructor hexited
  | flushing flush =>
      have hthread := ordered.retired (by rw [hdestructor]; trivial)
      exact ⟨.finalFlush, s.flushDestructor flush, trivial, by simp only [step, hdestructor],
        work_flushDestructor hthread hdestructor⟩
  | returned => exact (hlive hdestructor).elim

theorem begun_step {s t : AsyncLogWriter Thread Message} {a : Action Thread Message}
    (moves : Moves s a t) (hbegun : s.destructor ≠ .notBegun) : t.destructor ≠ .notBegun := by
  cases moves with
  | flush => rename_i flush _; rcases flush with _ | ⟨_ | ⟨entry, rest⟩⟩ <;> exact hbegun
  | finalFlush => rename_i flush _; rcases flush with _ | ⟨_ | ⟨entry, rest⟩⟩ <;> exact nofun
  | _ => first | exact hbegun | exact nofun

/-- Once begun, the destructor returns after finitely many steps of the flush
thread and itself. -/
theorem destructor_returns {s : AsyncLogWriter Thread Message} (ordered : Ordered s)
    (awake : Awake s) (hbegun : s.destructor ≠ .notBegun) :
    ∃ as t, Run step Consumes s as t ∧ t.destructor = .returned := by
  induction hwork : s.work using Nat.strong_induction_on generalizing s with
  | _ n ih =>
      by_cases hreturned : s.destructor = .returned
      · exact ⟨[], s, .halt, hreturned⟩
      · obtain ⟨a, t, hconsumes, hstep, hlt⟩ :=
          exists_step_begun ordered awake hbegun hreturned
        have moves := step_moves hstep
        obtain ⟨as, u, tail, hu⟩ := ih t.work (hwork ▸ hlt) (ordered_step moves ordered)
          (awake_step moves awake) (begun_step moves hbegun) rfl
        exact ⟨a :: as, u, .next hconsumes hstep tail, hu⟩

/-- Everything is delivered once and in order. In every run the contexts given
to `writeChannels` are the first ones pushed, each once and in the order of the
pushes. When the destructor has returned they include every context whose
`write` returned before it began, and once begun the destructor does return. -/
theorem asyncLogWriter_delivers {as : List (Action Thread Message)}
    {s : AsyncLogWriter Thread Message} (run : Run step anyStep (init Thread Message) as s) :
    s.written <+: s.pushed ∧ s.pushed.Nodup ∧
      (s.destructor = .returned → ∀ entry ∈ s.returned, entry ∈ s.written) ∧
      (s.destructor ≠ .notBegun →
        ∃ bs t, Run step Consumes s bs t ∧ t.destructor = .returned) := by
  have ordered := ordered_of_run run
  refine ⟨?_, ?_, fun hreturned entry hentry => ?_, destructor_returns ordered (awake_of_run run)⟩
  · rw [← ordered.placed]
    simp only [List.append_assoc]
    exact List.prefix_append _ _
  · apply List.Nodup.of_map Entry.serial
    rw [ordered.serials]
    exact List.nodup_range
  · have htaken := ordered.taken (by rw [hreturned]; trivial) entry hentry
    rw [hreturned] at htaken
    simpa [DestructorPhase.tmp] using htaken

/-- Thread 0 returns from `write` before the destructor begins; the flush thread
has already tested `_exit_flag` and takes the post of thread 0, while thread 1 is
between its locked section and its post. -/
def lateExit : List (Action Nat Nat) :=
  [.check, .wait, .push 0 7, .post 0 (some ()), .push 1 8, .setExitFlag, .wait, .flush,
    .flush, .postExit none, .flush, .flush, .check, .push 0 9, .join, .finalFlush,
    .finalFlush, .finalFlush]

theorem asyncLogWriter_delivers_lateExit :
    ∃ s, exec step (init Nat Nat) lateExit = some s ∧ s.returned.map Entry.message = [7] ∧
      s.written.map Entry.message = [7, 8, 9] ∧ s.pushed.Nodup ∧
      ∀ entry ∈ s.returned, entry ∈ s.written := by
  refine ⟨_, rfl, rfl, rfl, ?_⟩
  have run : Run step anyStep (init Nat Nat) lateExit _ := run_of_exec rfl fun _ _ _ => trivial
  have delivers := asyncLogWriter_delivers run
  exact ⟨delivers.2.1, delivers.2.2.1 rfl⟩

end FFZKit.Util.AsyncLog
