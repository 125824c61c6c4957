import FFZKit.Foundations.Tally
import FFZKit.Thread.WorkerPool
import Mathlib.Data.List.Nodup
import Mathlib.Data.List.Perm.Basic
import Mathlib.Data.Fintype.Pi

/-!
# A `ThreadPool` drains on shutdown

Exit tokens and task tokens are the same semaphore counts, so a worker may
pass the semaphore on an exit token and pop a task, or the reverse. Every
token is somewhere: in the count, with a worker about to pop, owed by a push
that has not posted, or spent by an exited worker. Together they are as many
as the linked tasks and the posted exits.
-/

namespace FFZKit.Thread.WorkerPool

open FFZKit.Foundations FFZKit.Foundations.Transition ThreadPool

variable {Producer : Type*} {n : Nat}

/-- The worker is inside `sem_.wait()`. -/
def WorkerPhase.isWaiting : WorkerPhase → Bool
  | .waiting => true
  | _ => false

/-- The worker has passed the semaphore and has not popped yet. -/
def WorkerPhase.isPopping : WorkerPhase → Bool
  | .popping => true
  | _ => false

def WorkerPhase.isRunning : WorkerPhase → Bool
  | .running _ => true
  | _ => false

/-- The worker's `get_task` has returned false. -/
def WorkerPhase.isExited : WorkerPhase → Bool
  | .exited => true
  | _ => false

theorem WorkerPhase.eq_exited {p : WorkerPhase} (h : p.isExited = true) : p = .exited := by
  cases p with
  | exited => rfl
  | waiting => cases h
  | popping => cases h
  | running task => cases h

/-- The tokens that `push_exit(n)` has posted. -/
def exitTokens (n : Nat) : Bool → Nat
  | false => 0
  | true => n

@[simp] theorem exitTokens_false (n : Nat) : exitTokens n false = 0 := rfl

@[simp] theorem exitTokens_true (n : Nat) : exitTokens n true = n := rfl

/-- Where the tokens are, and who may be inside the condition variable. -/
structure Tokens (s : ThreadPool Producer n) : Prop where
  balance : s.sem.count + tally WorkerPhase.isPopping s.worker + s.posting.length +
    tally WorkerPhase.isExited s.worker = s.queue.length + exitTokens n s.exitPosted
  wellPosted : s.sem.WellPosted
  blocked : ∀ w ∈ s.sem.blocked, s.worker w = .waiting
  notified : ∀ w ∈ s.sem.notified, s.worker w = .waiting
  exited : ∀ w, s.worker w = .exited → s.exitPosted = true
  drained : 0 < n → (∀ w, s.worker w = .exited) → s.queue = []

/-- The account of the tasks: linked or handed to a worker, once. -/
structure Ledger (s : ThreadPool Producer n) : Prop where
  placed : (s.queue ++ s.ran.map Prod.fst).Perm s.pushed
  serials : s.pushed.map Task.serial = List.range s.pushed.length
  running : ∀ w task, s.worker w = .running task → (task, w) ∈ s.ran

/-- The weight of what one worker still does with the token it has or may get. -/
def WorkerPhase.work : WorkerPhase → Nat
  | .waiting => 1
  | .popping => 1
  | .running _ => 2
  | .exited => 0

/-- The weight of what the workers still do. -/
def ThreadPool.phaseWork (s : ThreadPool Producer n) : Nat :=
  tally WorkerPhase.isWaiting s.worker + tally WorkerPhase.isPopping s.worker +
    2 * tally WorkerPhase.isRunning s.worker

theorem tokens_init : Tokens (init Producer n) where
  balance := by
    have hp : tally WorkerPhase.isPopping (init Producer n).worker = 0 :=
      tally_eq_zero_iff.mpr fun _ => rfl
    have he : tally WorkerPhase.isExited (init Producer n).worker = 0 :=
      tally_eq_zero_iff.mpr fun _ => rfl
    rw [hp, he]
    rfl
  wellPosted := Semaphore.wellPosted_init
  blocked := by simp [init, Semaphore.init]
  notified := by simp [init, Semaphore.init]
  exited := by simp [init]
  drained := by simp [init]

theorem ledger_init : Ledger (init Producer n) where
  placed := by simp [init]
  serials := by simp [init]
  running := by simp [init]

/-- No task is linked or called twice. -/
theorem Ledger.nodup {s : ThreadPool Producer n} (h : Ledger s) :
    (s.queue ++ s.ran.map Prod.fst).Nodup := by
  apply h.placed.nodup_iff.mpr
  apply List.Nodup.of_map Task.serial
  rw [h.serials]
  exact List.nodup_range

/-- A call of a task is a call by one worker. -/
theorem Ledger.worker_unique {s : ThreadPool Producer n} (h : Ledger s) {x : Task} {v w : Fin n}
    (hv : (x, v) ∈ s.ran) (hw : (x, w) ∈ s.ran) : v = w := by
  have hnodup : (s.ran.map Prod.fst).Nodup := (List.nodup_append.mp h.nodup).2.1
  have hsame := List.inj_on_of_nodup_map hnodup hv hw rfl
  exact congrArg Prod.snd hsame

/-- With an empty list every pushed task has been called. -/
theorem Ledger.called {s : ThreadPool Producer n} (h : Ledger s) (hqueue : s.queue = [])
    {x : Task} (hx : x ∈ s.pushed) :
    (s.ran.map Prod.fst).count x = 1 ∧ ∃! w, (x, w) ∈ s.ran := by
  have hmem : x ∈ s.ran.map Prod.fst := by
    have hplaced := h.placed.mem_iff.mpr hx
    rwa [hqueue, List.nil_append] at hplaced
  constructor
  · exact List.count_eq_one_of_mem (List.nodup_append.mp h.nodup).2.1 hmem
  · obtain ⟨⟨_, w⟩, hw, rfl⟩ := List.mem_map.mp hmem
    exact ⟨w, hw, fun v hv => h.worker_unique hv hw⟩

/-- Some worker still has to exit, or none has tasks left. -/
theorem Tokens.caller_alive {s : ThreadPool Producer n} (h : Tokens s) (hn : 0 < n)
    {c : Caller Producer n} (hcall : mayCall s c = true) : ¬ ∀ w, s.worker w = .exited := by
  intro hall
  cases c with
  | producer p =>
      have hposted := h.exited ⟨0, hn⟩ (hall _)
      simp [mayCall, hposted] at hcall
  | worker w => simp [mayCall, hall w] at hcall

/-- The effect on a tally of a worker that moves on. -/
theorem tally_setWorker (p : WorkerPhase → Bool) (s : ThreadPool Producer n) (w : Fin n)
    {old : WorkerPhase} (new : WorkerPhase) (hold : s.worker w = old) :
    tally p (s.setWorker w new).worker + (p old).toNat = tally p s.worker + (p new).toNat := by
  rw [← hold]
  exact tally_update p s.worker w new

@[simp] theorem setWorker_worker_self (s : ThreadPool Producer n) (w : Fin n)
    (phase : WorkerPhase) : (s.setWorker w phase).worker w = phase :=
  Function.update_self ..

theorem setWorker_worker_of_ne (s : ThreadPool Producer n) {w v : Fin n} (phase : WorkerPhase)
    (h : v ≠ w) : (s.setWorker w phase).worker v = s.worker v :=
  Function.update_of_ne h ..

theorem phaseWork_setWorker (s : ThreadPool Producer n) (w : Fin n) {old : WorkerPhase}
    (new : WorkerPhase) (hold : s.worker w = old) :
    (s.setWorker w new).phaseWork + old.work = s.phaseWork + new.work := by
  have hbits : ∀ p : WorkerPhase,
      p.work = p.isWaiting.toNat + p.isPopping.toNat + 2 * p.isRunning.toNat := by
    intro p
    cases p <;> rfl
  have hw := tally_setWorker WorkerPhase.isWaiting s w new hold
  have hp := tally_setWorker WorkerPhase.isPopping s w new hold
  have hr := tally_setWorker WorkerPhase.isRunning s w new hold
  rw [hbits old, hbits new]
  simp only [phaseWork]
  omega

/-- A worker outside the condition variable may change its phase. -/
theorem setWorker_waiting {s : ThreadPool Producer n} {w : Fin n} {phase : WorkerPhase}
    {members : Finset (Fin n)} (h : ∀ v ∈ members, s.worker v = .waiting) (hw : w ∉ members) :
    ∀ v ∈ members, (s.setWorker w phase).worker v = .waiting := by
  intro v hv
  rw [setWorker_worker_of_ne s phase (ne_of_mem_of_not_mem hv hw)]
  exact h v hv

/-- A worker whose phase is not `waiting` is not in a set of waiting workers. -/
theorem notMem_of_phase {s : ThreadPool Producer n} {w : Fin n} {members : Finset (Fin n)}
    (h : ∀ v ∈ members, s.worker v = .waiting) (hw : s.worker w ≠ .waiting) : w ∉ members :=
  fun hmem => hw (h w hmem)

/-- Moving on to one phase puts no worker newly into another. -/
theorem setWorker_other {s : ThreadPool Producer n} {w v : Fin n} {phase other : WorkerPhase}
    (hphase : phase ≠ other) (h : (s.setWorker w phase).worker v = other) :
    s.worker v = other := by
  by_cases hv : v = w
  · rw [hv, setWorker_worker_self] at h
    exact absurd h hphase
  · rwa [setWorker_worker_of_ne s phase hv] at h

/-- The effect on the tokens in use of a worker that moves on. -/
theorem spent_setWorker (s : ThreadPool Producer n) (w : Fin n) {old : WorkerPhase}
    (new : WorkerPhase) (hold : s.worker w = old) :
    tally WorkerPhase.isPopping (s.setWorker w new).worker +
        tally WorkerPhase.isExited (s.setWorker w new).worker +
        (old.isPopping.toNat + old.isExited.toNat) =
      tally WorkerPhase.isPopping s.worker + tally WorkerPhase.isExited s.worker +
        (new.isPopping.toNat + new.isExited.toNat) := by
  have hp := tally_setWorker WorkerPhase.isPopping s w new hold
  have he := tally_setWorker WorkerPhase.isExited s w new hold
  omega

/-- A worker that moves on to anything but its exit has not exited. -/
theorem not_all_exited {s : ThreadPool Producer n} {w : Fin n} {phase : WorkerPhase}
    (hphase : phase ≠ .exited) : ¬ ∀ v, (s.setWorker w phase).worker v = .exited := by
  intro hall
  have hw := hall w
  rw [setWorker_worker_self] at hw
  exact hphase hw

/-- A worker that is not waiting moves on without entering the condition variable. -/
theorem Tokens.moveOn {s : ThreadPool Producer n} (h : Tokens s) {w : Fin n} {old : WorkerPhase}
    (new : WorkerPhase) (hworker : s.worker w = old) (hold : old ≠ .waiting) :
    (∀ v ∈ s.sem.blocked, (s.setWorker w new).worker v = .waiting) ∧
      ∀ v ∈ s.sem.notified, (s.setWorker w new).worker v = .waiting := by
  have hw : s.worker w ≠ .waiting := by rwa [hworker]
  exact ⟨setWorker_waiting h.blocked (notMem_of_phase h.blocked hw),
    setWorker_waiting h.notified (notMem_of_phase h.notified hw)⟩

/-- After a post the same workers are inside the condition variable. -/
theorem post_waiting {s : ThreadPool Producer n} (h : Tokens s) {k : Nat}
    {choice : Option (Fin n)} {sem : Semaphore (Fin n)} (hsem : s.sem.post k choice = some sem) :
    (∀ w ∈ sem.blocked, s.worker w = .waiting) ∧ ∀ w ∈ sem.notified, s.worker w = .waiting := by
  obtain ⟨-, ⟨-, hb, hn⟩ | ⟨t, ht, -, hb, hn⟩ | ⟨-, hb, hn⟩⟩ := Semaphore.post_eq hsem
  · exact ⟨by simp [hb], by rw [hn]; exact h.notified⟩
  · rw [hb, hn]
    constructor
    · intro w hw
      exact h.blocked w (Finset.mem_of_mem_erase hw)
    · intro w hw
      rcases Finset.mem_insert.mp hw with rfl | hw
      · exact h.blocked _ ht
      · exact h.notified w hw
  · rw [hb, hn]
    constructor
    · simp
    · intro w hw
      rcases Finset.mem_union.mp hw with hw | hw
      · exact h.notified w hw
      · exact h.blocked w hw

/-- The new task is linked at either end. -/
theorem push_placed {s : ThreadPool Producer n} (h : Ledger s) (c : Caller Producer n)
    (first : Bool) :
    ((s.push c first).queue ++ s.ran.map Prod.fst).Perm (s.push c first).pushed := by
  have hplaced := h.placed.append_right [(⟨s.pushed.length⟩ : Task)]
  cases first with
  | true =>
      refine List.Perm.trans ?_ hplaced
      exact (List.perm_append_singleton _ _).symm
  | false =>
      refine List.Perm.trans ?_ hplaced
      simp only [ThreadPool.push, Bool.false_eq_true, if_false, List.append_assoc]
      exact List.perm_append_comm.append_left s.queue

/-- One token more wakes at most one worker. -/
theorem post_one {s : ThreadPool Producer n} {choice : Option (Fin n)}
    {sem : Semaphore (Fin n)} (hsem : s.sem.post 1 choice = some sem) :
    sem.count = s.sem.count + 1 ∧ s.sem.blocked.card ≤ sem.blocked.card + 1 := by
  obtain ⟨hcount, ⟨hold, hb, -⟩ | ⟨t, ht, -, hb, -⟩ | ⟨hk, -⟩⟩ := Semaphore.post_eq hsem
  · exact ⟨hcount, by rw [hold]; simp⟩
  · exact ⟨hcount, by rw [hb, Finset.card_erase_of_mem ht]; omega⟩
  · exact absurd rfl hk

variable [DecidableEq Producer]

theorem tokens_step {s s' : ThreadPool Producer n} {a : Action Producer n}
    (hstep : step s a = some s') (h : Tokens s) : Tokens s' := by
  have hbalance := h.balance
  cases step_moves hstep with
  | sync => exact h
  | @push c maySync first hcall hidle =>
      refine ⟨?_, h.wellPosted, h.blocked, h.notified, h.exited, fun hn hall => ?_⟩
      · simp only [ThreadPool.push, List.length_cons] at hbalance ⊢
        split <;> simp only [List.length_cons, List.length_append, List.length_nil] <;> omega
      · exact absurd hall (h.caller_alive hn hcall)
  | @post c choice sem hpost hsem =>
      obtain ⟨hblocked, hnotified⟩ := post_waiting h hsem
      refine ⟨?_, h.wellPosted.post hsem, hblocked, hnotified, h.exited, h.drained⟩
      have hcount := (Semaphore.post_eq hsem).1
      have hlen := List.length_erase_of_mem hpost
      have hpos := List.length_pos_of_mem hpost
      simp only [posted]
      omega
  | @shutdown choice sem hfirst hsem =>
      obtain ⟨hblocked, hnotified⟩ := post_waiting h hsem
      refine ⟨?_, h.wellPosted.post hsem, hblocked, hnotified, fun _ _ => rfl, h.drained⟩
      have hcount := (Semaphore.post_eq hsem).1
      simp only [hfirst, exitTokens_false, exitTokens_true] at hbalance ⊢
      omega
  | @block w hworker hawake hcount =>
      refine ⟨hbalance, h.wellPosted.block w hcount, ?_, ?_, h.exited, h.drained⟩
      · intro v hv
        rcases Finset.mem_insert.mp hv with rfl | hv
        · exact hworker
        · exact h.blocked v hv
      · intro v hv
        exact h.notified v (Finset.mem_of_mem_erase hv)
  | @take w hworker hawake hcount =>
      refine ⟨?_, h.wellPosted.take w, setWorker_waiting h.blocked hawake, ?_, ?_,
        fun _ hall => absurd hall (not_all_exited (by simp))⟩
      · have hspent := spent_setWorker s w .popping hworker
        simp only [WorkerPhase.isPopping, WorkerPhase.isExited, Bool.toNat_false,
          Bool.toNat_true] at hspent
        simp only [Semaphore.take, setWorker] at hspent ⊢
        omega
      · apply setWorker_waiting _ (Finset.notMem_erase w s.sem.notified)
        intro v hv
        exact h.notified v (Finset.mem_of_mem_erase hv)
      · intro v hv
        exact h.exited v (setWorker_other (by simp) hv)
  | @wakeSpuriously w hblocked =>
      refine ⟨hbalance, h.wellPosted.wake hblocked, ?_, ?_, h.exited, h.drained⟩
      · intro v hv
        exact h.blocked v (Finset.mem_of_mem_erase hv)
      · intro v hv
        rcases Finset.mem_insert.mp hv with rfl | hv
        · exact h.blocked _ hblocked
        · exact h.notified v hv
  | @popNone w hworker hqueue =>
      have hpopping : 0 < tally WorkerPhase.isPopping s.worker :=
        tally_pos (i := w) (by simp [hworker, WorkerPhase.isPopping])
      have hposted : s.exitPosted = true := by
        by_contra hnot
        rw [Bool.not_eq_true] at hnot
        simp only [hqueue, hnot, List.length_nil, exitTokens_false] at hbalance
        omega
      obtain ⟨hblocked, hnotified⟩ := h.moveOn .exited hworker (by simp)
      refine ⟨?_, h.wellPosted, hblocked, hnotified, fun _ _ => hposted, fun _ _ => hqueue⟩
      have hspent := spent_setWorker s w .exited hworker
      simp only [WorkerPhase.isPopping, WorkerPhase.isExited, Bool.toNat_false,
        Bool.toNat_true] at hspent
      simp only [setWorker] at hspent ⊢
      omega
  | @popSome w task rest hworker hqueue =>
      obtain ⟨hblocked, hnotified⟩ := h.moveOn (.running task) hworker (by simp)
      refine ⟨?_, h.wellPosted, hblocked, hnotified, ?_,
        fun _ hall => absurd hall (not_all_exited (by simp))⟩
      · have hspent := spent_setWorker s w (.running task) hworker
        simp only [WorkerPhase.isPopping, WorkerPhase.isExited, Bool.toNat_false,
          Bool.toNat_true] at hspent
        simp only [setWorker, hqueue, List.length_cons] at hbalance hspent ⊢
        omega
      · intro v hv
        exact h.exited v (setWorker_other (by simp) hv)
  | @finish w outcome task hworker hidle =>
      obtain ⟨hblocked, hnotified⟩ := h.moveOn .waiting hworker (by simp)
      refine ⟨?_, h.wellPosted, hblocked, hnotified, ?_,
        fun _ hall => absurd hall (not_all_exited (by simp))⟩
      · have hspent := spent_setWorker s w .waiting hworker
        simp only [WorkerPhase.isPopping, WorkerPhase.isExited, Bool.toNat_false] at hspent
        simp only [setWorker] at hspent ⊢
        omega
      · intro v hv
        exact h.exited v (setWorker_other (by simp) hv)

theorem ledger_step {s s' : ThreadPool Producer n} {a : Action Producer n}
    (hstep : step s a = some s') (h : Ledger s) : Ledger s' := by
  cases step_moves hstep with
  | sync => exact h
  | @push c maySync first hcall hidle =>
      refine ⟨push_placed h c first, ?_, h.running⟩
      simp only [ThreadPool.push, List.map_append, List.map_cons, List.map_nil,
        List.length_append, List.length_cons, List.length_nil, h.serials]
      exact List.range_succ.symm
  | post => exact ⟨h.placed, h.serials, h.running⟩
  | shutdown => exact ⟨h.placed, h.serials, h.running⟩
  | block => exact ⟨h.placed, h.serials, h.running⟩
  | @take w =>
      refine ⟨h.placed, h.serials, fun v task hv => ?_⟩
      exact h.running v task (setWorker_other (by simp) hv)
  | wakeSpuriously => exact ⟨h.placed, h.serials, h.running⟩
  | @popNone w =>
      refine ⟨h.placed, h.serials, fun v task hv => ?_⟩
      exact h.running v task (setWorker_other (by simp) hv)
  | @popSome w task rest hworker hqueue =>
      refine ⟨?_, h.serials, fun v other hv => ?_⟩
      · apply List.Perm.trans _ h.placed
        simp only [hqueue, List.map_append, List.map_cons, List.map_nil, ← List.append_assoc]
        exact List.perm_append_singleton _ _
      · by_cases hvw : v = w
        · rw [hvw] at hv ⊢
          have hsame : WorkerPhase.running task = .running other :=
            (setWorker_worker_self s w _).symm.trans hv
          cases hsame
          simp
        · have hold := (setWorker_worker_of_ne s _ hvw).symm.trans hv
          exact List.mem_append_left _ (h.running v other hold)
  | @finish w =>
      refine ⟨h.placed, h.serials, fun v task hv => ?_⟩
      exact h.running v task (setWorker_other (by simp) hv)

theorem tokens_of_run {guard : ThreadPool Producer n → Action Producer n → Prop}
    {as : List (Action Producer n)} {s t : ThreadPool Producer n} (run : Run step guard s as t)
    (h : Tokens s) : Tokens t :=
  run.invariant (fun _ _ _ _ hstep hs => tokens_step hstep hs) h

theorem ledger_of_run {guard : ThreadPool Producer n → Action Producer n → Prop}
    {as : List (Action Producer n)} {s t : ThreadPool Producer n} (run : Run step guard s as t)
    (h : Ledger s) : Ledger t :=
  run.invariant (fun _ _ _ _ hstep hs => ledger_step hstep hs) h

/-- No thread can take a step. A spurious wake-up is not a step of a thread. -/
def Stuck (s : ThreadPool Producer n) : Prop :=
  ∀ a, (∀ w, a ≠ .wakeSpuriously w) → step s a = none

/-- A pool that has posted everything and whose workers have exited is stuck. -/
theorem stuck_of_exited {s : ThreadPool Producer n} (hposted : s.exitPosted = true)
    (hposting : s.posting = []) (hexited : ∀ w, s.worker w = .exited) : Stuck s := by
  intro a ha
  cases a with
  | call c maySync first =>
      cases c with
      | producer p => simp [step, mayCall, hposted]
      | worker w => simp [step, mayCall, hexited]
  | post c choice => simp [step, hposting]
  | shutdown choice => simp [step, hposted]
  | wait w => simp [step, hexited]
  | wakeSpuriously w => exact absurd rfl (ha w)
  | pop w => simp [step, hexited]
  | finish w outcome => simp [step, hexited]

/-- A stuck pool has posted its exits and everything else that was owed. -/
theorem Stuck.posted {s : ThreadPool Producer n} (h : Stuck s) :
    s.exitPosted = true ∧ s.posting = [] := by
  constructor
  · by_contra hnot
    obtain ⟨choice, hsome⟩ := s.sem.exists_post n
    have hstep := h (.shutdown choice) (by simp)
    simp only [step, hnot, if_false, Option.map_eq_none_iff] at hstep
    simp [hstep] at hsome
  · cases hposting : s.posting with
    | nil => rfl
    | cons c rest =>
        obtain ⟨choice, hsome⟩ := s.sem.exists_post 1
        have hstep := h (.post c choice) (by simp)
        simp only [step, hposting, List.mem_cons, true_or, if_true, Option.map_eq_none_iff] at hstep
        simp [hstep] at hsome

/-- In a stuck pool a worker is blocked in the semaphore or has exited. -/
theorem Stuck.worker {s : ThreadPool Producer n} (h : Stuck s) (w : Fin n) :
    (s.worker w = .waiting ∧ w ∈ s.sem.blocked) ∨ s.worker w = .exited := by
  cases hworker : s.worker w with
  | exited => exact Or.inr rfl
  | waiting =>
      have hstep := h (.wait w) (by simp)
      simp only [step, hworker, true_and, ite_not, ite_eq_left_iff, reduceCtorEq,
        imp_false, not_not] at hstep
      exact Or.inl ⟨rfl, hstep⟩
  | popping =>
      have hstep := h (.pop w) (by simp)
      simp [step, hworker] at hstep
  | running task =>
      have hstep := h (.finish w .returns) (by simp)
      simp [step, hworker, h.posted.2] at hstep

/-- A stuck pool has no worker left inside the semaphore. -/
theorem Stuck.exited {s : ThreadPool Producer n} (h : Stuck s) (tokens : Tokens s) (w : Fin n) :
    s.worker w = .exited := by
  obtain ⟨hposted, hposting⟩ := h.posted
  have hbalance := tokens.balance
  rw [hposted, hposting, exitTokens_true, List.length_nil] at hbalance
  have hpopping : tally WorkerPhase.isPopping s.worker = 0 := by
    rw [tally_eq_zero_iff]
    intro v
    rcases h.worker v with ⟨hv, -⟩ | hv <;> simp [hv, WorkerPhase.isPopping]
  rcases h.worker w with ⟨-, hblocked⟩ | hexited
  · -- A blocked worker leaves no count unclaimed, so all tokens are spent by exited workers.
    have hclaimed := tokens.wellPosted.claimed ⟨w, hblocked⟩
    have hnone : s.sem.notified = ∅ := by
      rw [Finset.eq_empty_iff_forall_notMem]
      intro v hv
      have hwaiting := tokens.notified v hv
      rcases h.worker v with ⟨-, hv'⟩ | hv'
      · exact Finset.disjoint_left.mp tokens.wellPosted.disjoint hv' hv
      · rw [hwaiting] at hv'
        cases hv'
    rw [hnone, Finset.card_empty] at hclaimed
    have hle := tally_le_card WorkerPhase.isExited s.worker
    rw [Fintype.card_fin] at hle
    have hall : tally WorkerPhase.isExited s.worker = Fintype.card (Fin n) := by
      rw [Fintype.card_fin]
      omega
    exact WorkerPhase.eq_exited (tally_eq_card_iff.mp hall w)
  · exact hexited

/-- The weight of everything the pool still does when nobody calls `async`. -/
def ThreadPool.work (s : ThreadPool Producer n) : Nat :=
  3 * s.posting.length + s.sem.count + 2 * s.queue.length + (n - s.sem.blocked.card) +
    s.phaseWork + exitTokens (2 * n + 1) !s.exitPosted

/-- Nobody calls `async` any more and no wake-up is spurious. -/
def Draining (_ : ThreadPool Producer n) (a : Action Producer n) : Prop :=
  (∀ c maySync first, a ≠ .call c maySync first) ∧ ∀ w, a ≠ .wakeSpuriously w

theorem work_step {s s' : ThreadPool Producer n} {a : Action Producer n}
    (hguard : Draining s a) (hstep : step s a = some s') : s'.work < s.work := by
  have hle : s'.sem.blocked.card ≤ n := by
    simpa using Finset.card_le_univ s'.sem.blocked
  cases step_moves hstep with
  | sync => exact absurd rfl (hguard.1 _ _ _)
  | push => exact absurd rfl (hguard.1 _ _ _)
  | wakeSpuriously => exact absurd rfl (hguard.2 _)
  | @post c choice sem hpost hsem =>
      have hlen := List.length_erase_of_mem hpost
      have hpos := List.length_pos_of_mem hpost
      have hphases : (s.posted c sem).phaseWork = s.phaseWork := rfl
      obtain ⟨hcount, hawake⟩ := post_one hsem
      simp only [work, hphases]
      simp only [posted]
      omega
  | @shutdown choice sem hfirst hsem =>
      have hcount := (Semaphore.post_eq hsem).1
      simp only [work, phaseWork, hfirst, Bool.not_false, Bool.not_true, exitTokens_false,
        exitTokens_true]
      omega
  | @block w hworker hawake hcount =>
      have hcard : (insert w s.sem.blocked).card = s.sem.blocked.card + 1 :=
        Finset.card_insert_of_notMem hawake
      simp only [work, phaseWork, Semaphore.block, hcard] at hle ⊢
      omega
  | @take w hworker hawake hcount =>
      have hphases := phaseWork_setWorker s w .popping hworker
      simp only [WorkerPhase.work] at hphases
      simp only [work, phaseWork, Semaphore.take, setWorker] at hphases ⊢
      omega
  | @popNone w hworker hqueue =>
      have hphases := phaseWork_setWorker s w .exited hworker
      simp only [WorkerPhase.work] at hphases
      simp only [work, phaseWork, setWorker] at hphases ⊢
      omega
  | @popSome w task rest hworker hqueue =>
      have hphases := phaseWork_setWorker s w (.running task) hworker
      simp only [WorkerPhase.work] at hphases
      simp only [work, phaseWork, setWorker, hqueue, List.length_cons] at hphases ⊢
      omega
  | @finish w outcome task hworker hidle =>
      have hphases := phaseWork_setWorker s w .waiting hworker
      simp only [WorkerPhase.work] at hphases
      simp only [work, phaseWork, setWorker] at hphases ⊢
      omega

/-- A pool with workers drains. No worker's `get_task` returns false before
`push_exit`; a task is never called twice or by two workers; and a state in
which no thread can step has an empty queue and only exited workers, so every
pushed task has been called exactly once by exactly one of them. Once nobody
calls `async` such a state is reached within a bounded number of steps. -/
theorem threadPool_drains (hn : 0 < n) {as : List (Action Producer n)}
    {s : ThreadPool Producer n} (run : Run step anyStep (init Producer n) as s) :
    (∀ w, s.worker w = .exited → s.exitPosted = true) ∧
      (∀ x ∈ s.ran.map Prod.fst, x ∈ s.pushed ∧ (s.ran.map Prod.fst).count x = 1 ∧
        ∃! w, (x, w) ∈ s.ran) ∧
      (Stuck s → s.queue = [] ∧ (∀ w, s.worker w = .exited) ∧
        ∀ x ∈ s.pushed, (s.ran.map Prod.fst).count x = 1 ∧ ∃! w, (x, w) ∈ s.ran) ∧
      ∀ bs t, Run step Draining s bs t → bs.length ≤ s.work := by
  have tokens := tokens_of_run run tokens_init
  have ledger := ledger_of_run run ledger_init
  refine ⟨tokens.exited, fun x hx => ?_, fun hstuck => ?_, fun bs t tail => ?_⟩
  · refine ⟨ledger.placed.subset (List.mem_append_right _ hx), ?_, ?_⟩
    · exact List.count_eq_one_of_mem (List.nodup_append.mp ledger.nodup).2.1 hx
    · obtain ⟨⟨_, w⟩, hw, rfl⟩ := List.mem_map.mp hx
      exact ⟨w, hw, fun v hv => ledger.worker_unique hv hw⟩
  · have hexited := hstuck.exited tokens
    have hqueue := tokens.drained hn hexited
    exact ⟨hqueue, hexited, fun x hx => ledger.called hqueue hx⟩
  · have hbound := tail.length_add_le (P := fun _ => True) (fun _ _ _ _ _ _ => trivial)
      (fun _ _ _ hguard hstep _ => work_step hguard hstep) trivial
    omega

/-- Two workers; a task posts another one in the presence of the exit tokens,
and worker 1 takes an exit token that pops it. -/
def exitRace : List (Action Unit 2) :=
  [.wait 1, .call (.producer ()) true false, .post (.producer ()) (some 1), .wait 0, .pop 0,
    .shutdown none, .call (.worker 0) false true, .wait 1, .pop 1, .post (.worker 0) none,
    .finish 1 .throws, .wait 1, .pop 1, .finish 0 .returns, .wait 0, .pop 0]

theorem threadPool_drains_exitRace :
    ∃ s, exec step (init Unit 2) exitRace = some s ∧ s.pushed.length = 2 ∧
      ∀ x ∈ s.pushed, (s.ran.map Prod.fst).count x = 1 ∧ ∃! w, (x, w) ∈ s.ran := by
  refine ⟨_, rfl, rfl, ?_⟩
  have run : Run step anyStep (init Unit 2) exitRace _ :=
    run_of_exec rfl fun _ _ _ => trivial
  exact ((threadPool_drains (by decide) run).2.2.1 (stuck_of_exited rfl rfl (by decide))).2.2

end FFZKit.Thread.WorkerPool
