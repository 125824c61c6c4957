import FFZKit.Poller.SyncRuns
import Mathlib.Algebra.Ring.Nat

/-!
# Every call of `sync` returns while the poller is served

Before the destructor starts, and without new calls, the poller, the lambdas
and the waits have a bounded number of steps left. When none of them can take
a step, every call has returned. So a thread that waits in `sync` is never
left behind, whatever order the steps are taken in.
-/

namespace FFZKit.Poller.SyncCall

open FFZKit.Foundations.Transition FFZKit.Thread
open FFZKit.Poller.TaskHandover (EventPoller Task PipeEvent Runner Ledger Alive Signalled)

variable {Thread : Type*}

/-- The destructor does not start. -/
def NoShutdown (_ : Callers Thread) (a : Action Thread) : Prop :=
  ∀ t, a ≠ .poller (.shutdown t)

/-- Neither does a thread call `async`, `sync` or `sync_first`, and the condition
variables wake nobody by themselves. -/
def Serving (_ : Callers Thread) : Action Thread → Prop
  | .poller a => (∀ t, a ≠ .shutdown t) ∧ ∀ t maySync first, a ≠ .call t maySync first
  | .sync _ _ => False
  | .handOver _ => True
  | .post _ _ => True
  | .wait _ => True
  | .wakeSpuriously _ => False

variable [DecidableEq Thread]

/-- The weight of what is left of one call. -/
def Frame.work (c : Frame Thread) : Nat :=
  if c.returned then 0
  else if c.posted then 1
  else if c.thread ∈ c.sem.blocked then 2
  else 3

/-- A push that is still to come weighs more than what it leaves to do. -/
def Callers.work (s : Callers Thread) : Nat :=
  s.poller.work + 15 * s.entering.length + (s.calls.map Frame.work).sum

/-- Replacing one entry of a list exchanges what the two entries weigh. -/
theorem sum_map_set {α : Type*} (f : α → Nat) {l : List α} {i : Nat} {c : α}
    (h : l[i]? = some c) (d : α) : ((l.set i d).map f).sum + f c = (l.map f).sum + f d := by
  induction l generalizing i with
  | nil => simp at h
  | cons a l ih =>
      cases i with
      | zero =>
          obtain rfl : a = c := by simpa using h
          simp only [List.set_cons_zero, List.map_cons, List.sum_cons]
          omega
      | succ i =>
          have htail := ih (by simpa using h)
          simp only [List.set_cons_succ, List.map_cons, List.sum_cons]
          omega

theorem work_setFrame {s : Callers Thread} {i : Nat} {c d : Frame Thread}
    (hc : s.calls[i]? = some c) (hlt : d.work < c.work) : (s.setFrame i d).work < s.work := by
  have hsum := sum_map_set Frame.work hc d
  simp only [Callers.work, Callers.setFrame]
  omega

/-- A thread that is about to push is about to push once, and has no other call
of `async` in progress. -/
structure Entering (s : Callers Thread) : Prop where
  keys : (s.entering.map Prod.fst).Nodup
  idle : ∀ e ∈ s.entering, s.poller.posting.lookup e.1 = none

theorem lookup_isSome_of_mem {α : Type*} {l : List (Thread × α)} {e : Thread × α}
    (h : e ∈ l) : (l.lookup e.1).isSome = true := by
  rw [List.lookup_isSome_iff]
  exact ⟨e, h, by simp⟩

/-- What a step of the poller does to the calls of `async` in progress. -/
theorem posting_step {cap : Nat} {p p' : EventPoller Thread} {a : TaskHandover.Action Thread}
    (hstep : TaskHandover.step cap p a = some p') :
    p'.posting ⊆ p.posting ∨ ∃ t x, p'.posting = (t, x) :: p.posting ∧
      ((∃ maySync first, a = .call t maySync first) ∨ a = .shutdown t) := by
  cases (TaskHandover.step_moves hstep).2 with
  | @push t maySync first => exact Or.inr ⟨t, _, rfl, Or.inl ⟨maySync, first, rfl⟩⟩
  | @shutdown t => exact Or.inr ⟨t, _, rfl, Or.inr rfl⟩
  | write => exact Or.inl List.erase_subset
  | begin => exact Or.inl (by simp [EventPoller.begin])
  | swap => exact Or.inl (by simp [EventPoller.swap])
  | finish => exact Or.inl (by simp [EventPoller.finish])
  | @leaveEvent r => cases r <;> exact Or.inl (List.Subset.refl _)
  | _ => exact Or.inl (List.Subset.refl _)

theorem lookup_none_of_subset {α : Type*} {l l' : List (Thread × α)} {t : Thread}
    (h : l.lookup t = none) (hsub : l' ⊆ l) : l'.lookup t = none := by
  rw [List.lookup_eq_none_iff] at h ⊢
  exact fun q hq => h q (hsub hq)

theorem not_mem_entering {s : Callers Thread} {t : Thread} (h : inSync s t = false) :
    t ∉ s.entering.map Prod.fst := by
  intro hmem
  obtain ⟨e, he, rfl⟩ := List.mem_map.mp hmem
  simp [inSync, lookup_isSome_of_mem he] at h

/-- A call of `async` by a thread leaves the others where they are. -/
theorem lookup_cons_of_not_mem {l : List (Thread × Bool)} {t : Thread}
    (hfree : t ∉ l.map Prod.fst) {e : Thread × Bool} (he : e ∈ l) (x : Task)
    (posting : List (Thread × Task)) :
    ((t, x) :: posting).lookup e.1 = posting.lookup e.1 := by
  have hne : e.1 ≠ t := by
    rintro rfl
    exact hfree (List.mem_map_of_mem he)
  rw [List.lookup_cons, beq_false_of_ne hne]

/-- The thread that pushes is then among the entering ones no more. -/
theorem Entering.erase {s : Callers Thread} (h : Entering s) {t : Thread} {first : Bool}
    (hentering : s.entering.lookup t = some first) :
    (s.entering.erase (t, first)).length + 1 = s.entering.length ∧
      t ∉ (s.entering.erase (t, first)).map Prod.fst ∧
      ((s.entering.erase (t, first)).map Prod.fst).Nodup := by
  obtain ⟨front, back, hsplit, hfront⟩ := List.lookup_eq_some_iff.mp hentering
  have herase : s.entering.erase (t, first) = front ++ back := by
    rw [hsplit, List.erase_append_right, List.erase_cons_head]
    intro hmem
    simpa using hfront _ hmem
  have hkeys := h.keys
  rw [hsplit, List.map_append, List.map_cons, List.nodup_middle, List.nodup_cons] at hkeys
  rw [herase, List.map_append]
  refine ⟨?_, hkeys⟩
  rw [hsplit]
  simp only [List.length_append, List.length_cons]
  omega

theorem entering_step {cap : Nat} {s s' : Callers Thread} {a : Action Thread}
    (hstep : step cap s a = some s') (h : Entering s) : Entering s' := by
  cases step_moves hstep with
  | @poller a p hadmits hp =>
      refine ⟨h.keys, fun e he => ?_⟩
      rcases posting_step hp with hsub | ⟨t, x, hposting, hcalls⟩
      · exact lookup_none_of_subset (h.idle e he) hsub
      · have hfree : inSync s t = false := by
          rcases hcalls with ⟨_, _, rfl⟩ | rfl
          · simpa [admits] using hadmits
          · simpa [admits] using hadmits
        rw [hposting, lookup_cons_of_not_mem (not_mem_entering hfree) he]
        exact h.idle e he
  | inPlace => exact h
  | @enter t first hfree hidle =>
      constructor
      · exact List.nodup_cons.mpr ⟨not_mem_entering hfree, h.keys⟩
      · intro e he
        rcases List.mem_cons.mp he with rfl | hold
        · exact hidle
        · exact h.idle e hold
  | @handOver t first hentering _ =>
      obtain ⟨_, hfree, hkeys⟩ := h.erase hentering
      refine ⟨hkeys, fun e he => ?_⟩
      rw [EventPoller.push, lookup_cons_of_not_mem hfree he]
      exact h.idle e (List.erase_subset he)
  | post => exact ⟨h.keys, h.idle⟩
  | block => exact ⟨h.keys, h.idle⟩
  | take => exact ⟨h.keys, h.idle⟩
  | wakeSpuriously => exact ⟨h.keys, h.idle⟩

/-- What holds in every run before the destructor starts. -/
structure Served (s : Callers Thread) : Prop where
  sound : Sound s
  alive : Alive s.poller
  signalled : Signalled s.poller
  entering : Entering s

theorem served_init (loopThread : Thread) : Served (init loopThread) where
  sound := sound_init loopThread
  alive := TaskHandover.alive_init loopThread
  signalled := TaskHandover.signalled_init loopThread
  entering := ⟨by simp [init], by simp [init]⟩

theorem served_step {cap : Nat} (hcap : 0 < cap) {s s' : Callers Thread} {a : Action Thread}
    (hguard : NoShutdown s a) (hstep : step cap s a = some s') (h : Served s) : Served s' := by
  refine ⟨sound_step hstep h.sound, ?_, ?_, entering_step hstep h.entering⟩
  · cases step_moves hstep with
    | @poller a p _ hp =>
        apply TaskHandover.alive_step _ hp h.sound.ledger h.alive
        rintro t rfl
        exact hguard t rfl
    | handOver _ hpush =>
        exact TaskHandover.alive_step (by simp [TaskHandover.NoShutdown]) hpush h.sound.ledger
          h.alive
    | _ => exact h.alive
  · cases step_moves hstep with
    | poller _ hp => exact TaskHandover.signalled_step hcap hp h.signalled
    | handOver _ hpush => exact TaskHandover.signalled_step hcap hpush h.signalled
    | _ => exact h.signalled

/-- Without new calls every step reduces the work that is left. -/
theorem work_lt {cap : Nat} {s s' : Callers Thread} {a : Action Thread} (hguard : Serving s a)
    (hstep : step cap s a = some s') (h : Served s) : s'.work < s.work := by
  cases step_moves hstep with
  | poller _ hp =>
      have hless := TaskHandover.work_lt hguard hp h.alive
      simp only [Callers.work]
      omega
  | inPlace => exact hguard.elim
  | enter => exact hguard.elim
  | @handOver t first hentering hpush =>
      obtain ⟨hlength, _⟩ := h.entering.erase hentering
      have hlist : (s.poller.push t first false).listTask.length =
          s.poller.listTask.length + 1 := by
        cases first <;> simp [EventPoller.push]
      have hframe : (Frame.start t ⟨s.poller.pushed.length, first, false⟩).work = 3 := by
        simp [Frame.work, Frame.start, Semaphore.init]
      have hpoller : (s.poller.push t first false).work = s.poller.work + 11 := by
        simp only [EventPoller.work, hlist]
        simp only [EventPoller.push, List.length_cons]
        omega
      simp only [Callers.work, hpoller, List.map_append, List.map_singleton, List.sum_append,
        List.sum_singleton, hframe]
      omega
  | @post i c choice sem hc hposted _ hsem =>
      have hframe := (h.sound.frames c (List.mem_of_getElem? hc)).silent hposted
      apply work_setFrame hc
      simp only [Frame.work, hposted, hframe.2, Bool.false_eq_true, if_false, if_true]
      split <;> omega
  | @block i c hc hreturned hawake hzero =>
      have hframe := h.sound.frames c (List.mem_of_getElem? hc)
      have hposted : c.posted = false := by
        by_contra hnot
        have hone := (hframe.ready (by simpa using hnot) hreturned).1
        omega
      apply work_setFrame hc
      simp [Frame.work, hposted, hreturned, hawake, Semaphore.block]
  | @take i c hc hreturned hpos =>
      apply work_setFrame hc
      simp only [Frame.work, hreturned, Bool.false_eq_true, if_false, if_true]
      split
      · omega
      · split <;> omega
  | wakeSpuriously => exact hguard.elim

/-- A lambda that is running and has not posted can post. -/
theorem exists_post_step (cap : Nat) {s : Callers Thread} {c : Frame Thread} (hc : c ∈ s.calls)
    (hposted : c.posted = false) (hrunning : isRunning s.poller c.task = true) :
    ∃ i choice s', step cap s (.post i choice) = some s' := by
  obtain ⟨i, hlt, rfl⟩ := List.getElem_of_mem hc
  obtain ⟨choice, hsome⟩ := Semaphore.exists_post s.calls[i].sem 1
  obtain ⟨sem, hsem⟩ := Option.isSome_iff_exists.mp hsome
  refine ⟨i, choice, s.setFrame i { s.calls[i] with sem := sem, posted := true }, ?_⟩
  simp [step, List.getElem?_eq_getElem hlt, hposted, hrunning, Frame.post, hsem]

/-- Where no lambda can post, only new calls are closed to the poller. -/
theorem exists_poller_step (cap : Nat) {s : Callers Thread}
    (hnopost : ∀ i choice, step cap s (.post i choice) = none)
    {a : TaskHandover.Action Thread} (ha : TaskHandover.Serving s.poller a)
    {p : EventPoller Thread} (hp : TaskHandover.step cap s.poller a = some p) :
    step cap s (.poller a) = some { s with poller := p } := by
  have hadmits : admits s a = true := by
    cases a with
    | call t maySync first => exact absurd rfl (ha.2 t maySync first)
    | shutdown t => exact absurd rfl (ha.1 t)
    | finish r outcome =>
        apply List.all_eq_true.mpr
        intro c hc
        by_contra hnot
        simp only [Bool.or_eq_true, decide_eq_true_eq, not_or, Bool.not_eq_true, not_not] at hnot
        obtain ⟨i, choice, s', hpost⟩ :=
          exists_post_step cap hc hnot.1 (isRunning_iff.mpr ⟨r, hnot.2⟩)
        simp [hnopost i choice] at hpost
    | _ => rfl
  simp [step, hadmits, hp]

/-- Where nothing can take a step but new calls, every call has returned. -/
theorem returned_of_stuck {cap : Nat} {s : Callers Thread} (h : Served s)
    (hstuck : ∀ a, Serving s a → step cap s a = none) : ∀ c ∈ s.calls, c.returned = true := by
  have hlive : s.poller.dtor ≠ .returned := by simp [h.alive.dtor]
  have hpoller : ∀ a, TaskHandover.Serving s.poller a →
      TaskHandover.step cap s.poller a = none := by
    intro a ha
    by_contra hne
    obtain ⟨p, hp⟩ := Option.ne_none_iff_exists'.mp hne
    have hstep := exists_poller_step cap (fun i choice => hstuck _ trivial) ha hp
    simp [hstuck (.poller a) ha] at hstep
  obtain ⟨hlist, hran⟩ :=
    TaskHandover.idle_of_stuck h.sound.ledger h.signalled h.alive hpoller
  have hposting : s.poller.posting = [] := by
    rcases hp : s.poller.posting with _ | ⟨⟨t, x⟩, rest⟩
    · rfl
    · have hwrite := hpoller (.write t) (by simp [TaskHandover.Serving])
      simp [TaskHandover.step, hlive, hp] at hwrite
  intro c hc
  have hframe := h.sound.frames c hc
  have hcalled : c.task ∈ s.poller.ran := by
    have hpushed := h.sound.ledger.placed.symm.subset hframe.pushed
    rwa [hlist, List.append_nil, ← hran] at hpushed
  have hposted : c.posted = true := by
    by_contra hnot
    have hsilent : c.posted = false := by simpa using hnot
    obtain ⟨i, choice, s', hpost⟩ :=
      exists_post_step cap hc hsilent (hframe.running hsilent hcalled)
    simp [hstuck (.post i choice) trivial] at hpost
  by_contra hnot
  have hwaits : c.returned = false := by simpa using hnot
  obtain ⟨hone, hblocked⟩ := hframe.ready hposted hwaits
  obtain ⟨i, hlt, rfl⟩ := List.getElem_of_mem hc
  have hwait := hstuck (.wait i) trivial
  simp [step, List.getElem?_eq_getElem hlt, hwaits, hposting, hblocked] at hwait

/-- A thread that is about to push can push. -/
theorem entering_of_stuck {cap : Nat} {s : Callers Thread} (h : Served s)
    (hstuck : ∀ a, Serving s a → step cap s a = none) : s.entering = [] := by
  have hlive : s.poller.dtor ≠ .returned := by simp [h.alive.dtor]
  rcases hentering : s.entering with _ | ⟨⟨t, first⟩, rest⟩
  · rfl
  · have hidle := h.entering.idle (t, first) (by simp [hentering])
    have hpush := hstuck (.handOver t) trivial
    simp [step, hentering, TaskHandover.step, hlive, hidle] at hpush

theorem served_of_run {cap : Nat} (hcap : 0 < cap) {loopThread : Thread}
    {as : List (Action Thread)} {s : Callers Thread}
    (run : Run (step cap) NoShutdown (init loopThread) as s) : Served s :=
  run.invariant (fun _ _ _ hguard hstep => served_step hcap hguard hstep)
    (served_init loopThread)

/-- In every run before the destructor starts: what is left to do without new
calls takes a bounded number of steps, in every order, and where nothing is left
nobody is inside `sync`, and the task of every call has been run once. -/
theorem sync_returns {cap : Nat} (hcap : 0 < cap) {loopThread : Thread}
    {as : List (Action Thread)} {s : Callers Thread}
    (run : Run (step cap) NoShutdown (init loopThread) as s) :
    (∀ bs t, Run (step cap) Serving s bs t → bs.length ≤ s.work) ∧
      ((∀ a, Serving s a → step cap s a = none) →
        (∀ t, inSync s t = false) ∧ ∀ c ∈ s.calls, s.poller.ran.count c.task = 1) := by
  have hserved := served_of_run hcap run
  refine ⟨fun bs t tail => ?_, fun hstuck => ?_⟩
  · have hlength := tail.length_add_le (P := Served) (μ := Callers.work)
      (fun _ a _ hguard hstep h => served_step hcap (by rintro t rfl; exact hguard.1 t rfl) hstep h)
      (fun _ _ _ hguard hstep h => work_lt hguard hstep h) hserved
    omega
  · have hreturned := returned_of_stuck hserved hstuck
    constructor
    · intro t
      simp only [inSync, entering_of_stuck hserved hstuck, List.lookup_nil, Option.isSome_none,
        Bool.false_or, List.any_eq_false]
      intro c hc
      simp [hreturned c hc]
    · intro c hc
      have hframe := hserved.sound.frames c hc
      have hran := hframe.called (hframe.posted_of_returned (hreturned c hc))
      have hone : 0 < s.poller.ran.count c.task := List.count_pos_iff.mpr hran
      have hle := hserved.sound.ledger.count_le c.task
      omega

/-- Two calls at both ends of the list. Thread 1 blocks, thread 2 finds its unit. -/
def twoCalls : List (Action Nat) :=
  [.sync 1 false, .sync 2 true, .handOver 1, .handOver 2, .poller (.write 1), .wait 0,
    .poller .wake, .poller .read, .poller .read, .poller (.swap .loop),
    .poller (.begin .loop), .post 1 none, .poller (.finish .loop .throws),
    .poller (.begin .loop), .post 0 (some 1), .poller (.finish .loop .returns),
    .poller (.leaveEvent .loop), .wait 0, .poller (.write 2), .wait 1, .poller .wake,
    .poller .read, .poller .read, .poller (.swap .loop), .poller (.leaveEvent .loop)]

theorem sync_returns_twoCalls :
    ∃ s : Callers Nat, exec (step 1) (init 0) twoCalls = some s ∧ s.calls.length = 2 ∧
      (∀ t, inSync s t = false) ∧ ∀ c ∈ s.calls, s.poller.ran.count c.task = 1 := by
  refine ⟨_, rfl, rfl, ?_⟩
  have run : Run (step 1) NoShutdown (init 0) twoCalls _ :=
    run_of_exec rfl (by simp [twoCalls, NoShutdown])
  apply (sync_returns (by decide) run).2
  intro a ha
  cases a with
  | poller a =>
      cases a with
      | call t maySync first => exact absurd rfl (ha.2 t maySync first)
      | shutdown t => exact absurd rfl (ha.1 t)
      | swap r => cases r <;> rfl
      | begin r => cases r <;> rfl
      | finish r => cases r <;> rfl
      | leaveEvent r => cases r <;> rfl
      | write => rfl
      | wake => rfl
      | read => rfl
      | exitLoop => rfl
      | join => rfl
      | flush => rfl
  | sync => exact ha.elim
  | handOver => rfl
  | post i => rcases i with _ | _ | i <;> rfl
  | wait i => rcases i with _ | _ | i <;> rfl
  | wakeSpuriously => exact ha.elim

end FFZKit.Poller.SyncCall
