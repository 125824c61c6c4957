import FFZKit.Foundations.History
import FFZKit.Foundations.Transition
import FFZKit.Poller.DelayTaskFlush

/-!
# Timers over the whole life of a loop

Any thread may call `doDelayTask` at any time: the deadline is fixed there, and the
timer joins the map when the loop runs the posted task. Between two waits the loop
calls `getMinDelay`, which may flush. Other threads go on during a flush, and the
bodies of timers make and cancel timers.

## Implementation notes

The clock does not go back, and posted tasks are run in any order. `registered` holds
every entry with the deadline that was meant, `turns` every entry taken by a flush with
the time of the flush, and `trace` the cancellations and what became of the turns. These
are histories that no step reads.
-/

namespace FFZKit.Poller.TimerRuns

open FFZKit.Foundations FFZKit.Foundations.History FFZKit.Foundations.Transition
open FFZKit.Poller.DelayTask (difference firstDelay difference_eq)

/-- A deadline with the number of its `DelayTask`. -/
abbrev Entry := Nat × Nat

/-- Where the loop is: running events and posted tasks, in a flush that began at a time
with what is left of `task_copy`, in the body of a timer, or waiting. -/
inductive Phase
  | serving
  | flushing (nowTime : Nat) (taskCopy : Multimap Nat Nat)
  | calling (nowTime : Nat) (task : Nat) (taskCopy : Multimap Nat Nat)
  | asleep (now : Nat) (minDelay : Int)

/-- A timer was cancelled, or called or passed over in its turn. -/
inductive TimerEvent
  | cancelled (task : Nat)
  | called (task : Nat)
  | skipped (task : Nat)
  deriving DecidableEq, Repr

def TimerEvent.turn? : TimerEvent → Option Nat
  | .cancelled _ => none
  | .called task => some task
  | .skipped task => some task

structure Turn where
  time : Nat
  entry : Entry
  deriving DecidableEq, Repr

structure TimerLoop where
  clock : Nat
  delayTaskMap : Multimap Nat Nat
  phase : Phase
  posted : List Entry
  cancelled : Finset Nat
  created : Nat
  registered : List Entry
  turns : List Turn
  trace : List TimerEvent

def init (clock : Nat) : TimerLoop where
  clock := clock
  delayTaskMap := .empty
  phase := .serving
  posted := []
  cancelled := ∅
  created := 0
  registered := []
  turns := []
  trace := []

/-- The loop's thread runs code of the program. -/
def Phase.Running : Phase → Prop
  | .serving => True
  | .calling _ _ _ => True
  | _ => False

instance (phase : Phase) : Decidable phase.Running :=
  match phase with
  | .serving => isTrue trivial
  | .flushing _ _ => isFalse id
  | .calling _ _ _ => isTrue trivial
  | .asleep _ _ => isFalse id

/-- What is left of `task_copy`. -/
def Phase.taskCopy : Phase → List Entry
  | .flushing _ taskCopy => taskCopy.entries
  | .calling _ _ taskCopy => taskCopy.entries
  | _ => []

inductive Action
  | tick (now : Nat)
  | post (delay : Nat)
  | doDelayTask (delay : Nat)
  | insert (entry : Entry)
  | cancel (task : Nat)
  | getMinDelay
  | turn
  | returns (nextDelay : Nat)
  | throws
  | wake
  deriving DecidableEq, Repr

namespace TimerLoop

/-- `task_copy.insert(..)` and `task_copy.swap(delay_task_map_)`, and the answer. -/
def merge (s : TimerLoop) (nowTime : Nat) (taskCopy : Multimap Nat Nat) : TimerLoop :=
  let merged := taskCopy.insertAll s.delayTaskMap.entries
  { s with delayTaskMap := merged, phase := .asleep nowTime (firstDelay merged nowTime) }

/-- The first entry of `task_copy` has its turn, unless it has not expired. -/
def takeTurn (s : TimerLoop) (nowTime : Nat) (taskCopy : Multimap Nat Nat) : TimerLoop :=
  match taskCopy.entries with
  | [] => s.merge nowTime taskCopy
  | (deadline, task) :: _ =>
      if deadline ≤ nowTime then
        let rest := ⟨taskCopy.entries.tail, taskCopy.sorted.tail⟩
        let turns := s.turns ++ [⟨nowTime, (deadline, task)⟩]
        if task ∈ s.cancelled then
          { s with
            phase := .flushing nowTime rest
            turns := turns
            trace := s.trace ++ [.skipped task] }
        else
          { s with
            phase := .calling nowTime task rest
            turns := turns
            trace := s.trace ++ [.called task] }
      else s.merge nowTime taskCopy

end TimerLoop

def step (s : TimerLoop) : Action → Option TimerLoop
  | .tick now => if s.clock ≤ now then some { s with clock := now } else none
  | .post delay =>
      some { s with
        posted := s.posted ++ [((s.clock + delay) % 2 ^ 64, s.created)]
        created := s.created + 1
        registered := s.registered ++ [(s.clock + delay, s.created)] }
  | .doDelayTask delay =>
      if s.phase.Running then
        some { s with
          delayTaskMap := s.delayTaskMap.emplace ((s.clock + delay) % 2 ^ 64) s.created
          created := s.created + 1
          registered := s.registered ++ [(s.clock + delay, s.created)] }
      else none
  | .insert entry =>
      match s.phase with
      | .serving =>
          if entry ∈ s.posted then
            some { s with
              delayTaskMap := s.delayTaskMap.emplace entry.1 entry.2
              posted := s.posted.erase entry }
          else none
      | _ => none
  | .cancel task =>
      some { s with
        cancelled := insert task s.cancelled
        trace := s.trace ++ [.cancelled task] }
  | .getMinDelay =>
      match s.phase with
      | .serving =>
          match s.delayTaskMap.entries with
          | [] => some { s with phase := .asleep s.clock (-1) }
          | (deadline, _) :: _ =>
              if s.clock < deadline then
                some { s with phase := .asleep s.clock (difference deadline s.clock) }
              else
                some { s with
                  delayTaskMap := .empty
                  phase := .flushing s.clock s.delayTaskMap }
      | _ => none
  | .turn =>
      match s.phase with
      | .flushing nowTime taskCopy => some (s.takeTurn nowTime taskCopy)
      | _ => none
  | .returns nextDelay =>
      match s.phase with
      | .calling nowTime task taskCopy =>
          if nextDelay = 0 then some { s with phase := .flushing nowTime taskCopy }
          else
            some { s with
              delayTaskMap := s.delayTaskMap.emplace ((nextDelay + nowTime) % 2 ^ 64) task
              phase := .flushing nowTime taskCopy
              registered := s.registered ++ [(nextDelay + nowTime, task)] }
      | _ => none
  | .throws =>
      match s.phase with
      | .calling nowTime _ taskCopy => some { s with phase := .flushing nowTime taskCopy }
      | _ => none
  | .wake =>
      match s.phase with
      | .asleep _ _ => some { s with phase := .serving }
      | _ => none

/-- The entries that wait for their turn. -/
def TimerLoop.pending (s : TimerLoop) : List Entry :=
  s.posted ++ s.delayTaskMap.entries ++ s.phase.taskCopy

/-- A deadline that is asked for fits an `int64_t`. -/
def Fits (s : TimerLoop) : Action → Prop
  | .post delay => s.clock + delay < 2 ^ 63
  | .doDelayTask delay => s.clock + delay < 2 ^ 63
  | .returns nextDelay => nextDelay + s.clock < 2 ^ 63
  | _ => True

instance (s : TimerLoop) (a : Action) : Decidable (Fits s a) :=
  match a with
  | .post delay => inferInstanceAs (Decidable (s.clock + delay < 2 ^ 63))
  | .doDelayTask delay => inferInstanceAs (Decidable (s.clock + delay < 2 ^ 63))
  | .returns nextDelay => inferInstanceAs (Decidable (nextDelay + s.clock < 2 ^ 63))
  | .tick _ => isTrue trivial
  | .insert _ => isTrue trivial
  | .cancel _ => isTrue trivial
  | .getMinDelay => isTrue trivial
  | .turn => isTrue trivial
  | .throws => isTrue trivial
  | .wake => isTrue trivial

/-- A turn calls its timer unless that was cancelled before. -/
def Obedient (front : List TimerEvent) : TimerEvent → Prop
  | .cancelled _ => True
  | .called task => .cancelled task ∉ front
  | .skipped task => .cancelled task ∈ front

/-- From the time `now` on, the wait is as long as no entry expires, and without end when
there is none. -/
def Awaits (entries : List Entry) (now : Nat) (minDelay : Int) : Prop :=
  (minDelay = -1 ∧ entries = []) ∨
    0 ≤ minDelay ∧ (∃ e ∈ entries, (e.1 : Int) = now + minDelay) ∧
      ∀ e ∈ entries, now + minDelay ≤ e.1

/-- What holds of the timers of a loop. The wait is counted from the reading of the clock
that `getMinDelay` took, which is older than what the bodies of its flush took. -/
structure Kept (s : TimerLoop) : Prop where
  conserved : (s.turns.map Turn.entry ++ s.pending).Perm s.registered
  timely : ∀ turn ∈ s.turns, turn.entry.1 ≤ turn.time ∧ turn.time ≤ s.clock
  taken : s.trace.filterMap TimerEvent.turn? = s.turns.map fun turn => turn.entry.2
  obedient : Throughout Obedient s.trace
  awaits : ∀ now minDelay, s.phase = .asleep now minDelay →
    now ≤ s.clock ∧ Awaits s.delayTaskMap.entries now minDelay

/-- A flush began at a time that has come, and what the live map has since then is not
older. -/
def Phase.Ready (entries : List Entry) (clock : Nat) : Phase → Prop
  | .serving => True
  | .flushing nowTime _ => nowTime ≤ clock ∧ ∀ e ∈ entries, nowTime ≤ e.1
  | .calling nowTime _ _ => nowTime ≤ clock ∧ ∀ e ∈ entries, nowTime ≤ e.1
  | .asleep now minDelay => now ≤ clock ∧ Awaits entries now minDelay

/-- The account of the timers, with what the next steps need. -/
structure Ledger (s : TimerLoop) : Prop where
  conserved : (s.turns.map Turn.entry ++ s.pending).Perm s.registered
  timely : ∀ turn ∈ s.turns, turn.entry.1 ≤ turn.time ∧ turn.time ≤ s.clock
  taken : s.trace.filterMap TimerEvent.turn? = s.turns.map fun turn => turn.entry.2
  known : ∀ task, task ∈ s.cancelled ↔ .cancelled task ∈ s.trace
  obedient : Throughout Obedient s.trace
  fits : ∀ e ∈ s.pending, e.1 < 2 ^ 63
  ready : s.phase.Ready s.delayTaskMap.entries s.clock

theorem Ledger.kept {s : TimerLoop} (h : Ledger s) : Kept s where
  conserved := h.conserved
  timely := h.timely
  taken := h.taken
  obedient := h.obedient
  awaits now minDelay hphase := by
    have hready := h.ready
    rwa [hphase] at hready

theorem ledger_init (clock : Nat) : Ledger (init clock) where
  conserved := .refl _
  timely := by simp [init]
  taken := rfl
  known := by simp [init]
  obedient := throughout_nil
  fits := by simp [init, TimerLoop.pending, Multimap.empty, Phase.taskCopy]
  ready := trivial

theorem Phase.Ready.mono {entries : List Entry} {clock now : Nat} {phase : Phase}
    (h : phase.Ready entries clock) (hle : clock ≤ now) : phase.Ready entries now := by
  cases phase with
  | serving => trivial
  | flushing nowTime taskCopy => exact ⟨h.1.trans hle, h.2⟩
  | calling nowTime task taskCopy => exact ⟨h.1.trans hle, h.2⟩
  | asleep now minDelay => exact ⟨h.1.trans hle, h.2⟩

/-- The answer for a map whose entries have not expired. -/
theorem awaits_firstDelay {m : Multimap Nat Nat} {nowTime : Nat}
    (h : ∀ e ∈ m.entries, nowTime ≤ e.1 ∧ e.1 < 2 ^ 63) :
    Awaits m.entries nowTime (firstDelay m nowTime) := by
  unfold firstDelay
  split
  · rename_i hempty
    exact Or.inl ⟨rfl, hempty⟩
  · rename_i deadline task rest hfirst
    have hmem : (deadline, task) ∈ m.entries := by
      rw [hfirst]
      exact List.mem_cons_self
    obtain ⟨hnow, hlt⟩ := h _ hmem
    have hexact := difference_eq hnow (hlt.trans (by decide)) (by omega)
    rw [hexact]
    refine Or.inr ⟨by omega, ⟨_, hmem, by omega⟩, fun e he => ?_⟩
    have hle := Multimap.first_le hfirst he
    omega

section Steps

variable {s t : TimerLoop} {nowTime : Nat} {taskCopy : Multimap Nat Nat}

/-- A deadline within the bound is stored as it is meant. -/
theorem stored_eq {deadline : Nat} (h : deadline < 2 ^ 63) : deadline % 2 ^ 64 = deadline :=
  Nat.mod_eq_of_lt (h.trans (by decide))

theorem Ledger.post (h : Ledger s) {delay : Nat} (fits : s.clock + delay < 2 ^ 63)
    (hstep : step s (.post delay) = some t) : Ledger t := by
  cases hstep
  refine ⟨?_, h.timely, h.taken, h.known, h.obedient, fun e he => ?_, h.ready⟩
  · rw [stored_eq fits]
    have hcount := List.perm_iff_count.mp h.conserved
    rw [List.perm_iff_count]
    intro e
    have he := hcount e
    simp only [TimerLoop.pending, List.count_append] at he ⊢
    omega
  · simp only [TimerLoop.pending, List.mem_append, List.mem_singleton, stored_eq fits] at he
    rcases he with ((hold | rfl) | hlive) | hcopy
    · exact h.fits e (by simp [TimerLoop.pending, hold])
    · exact fits
    · exact h.fits e (by simp [TimerLoop.pending, hlive])
    · exact h.fits e (by simp [TimerLoop.pending, hcopy])

/-- An entry joins the live map. -/
theorem Ledger.emplace (h : Ledger s) {e : Entry} {posted : List Entry} {phase : Phase}
    {registered : List Entry} {created : Nat} (hfits : e.1 < 2 ^ 63)
    (hcopy : phase.taskCopy = s.phase.taskCopy)
    (hready : phase.Ready (s.delayTaskMap.emplace e.1 e.2).entries s.clock)
    (hmoves : ∀ x, posted.count x + [e].count x + s.registered.count x =
      s.posted.count x + registered.count x)
    (hposted : ∀ x ∈ posted, x ∈ s.posted) :
    Ledger { s with
      delayTaskMap := s.delayTaskMap.emplace e.1 e.2
      posted := posted
      phase := phase
      created := created
      registered := registered } := by
  refine ⟨?_, h.timely, h.taken, h.known, h.obedient, fun x hx => ?_, hready⟩
  · have hcount := List.perm_iff_count.mp h.conserved
    rw [List.perm_iff_count]
    intro x
    have hx := hcount x
    have hlive : (s.delayTaskMap.emplace e.1 e.2).entries.count x =
        ([e] ++ s.delayTaskMap.entries).count x :=
      (s.delayTaskMap.perm_emplace e.1 e.2).count_eq x
    rw [List.count_append] at hlive
    have hmove := hmoves x
    simp only [TimerLoop.pending, List.count_append, hcopy] at hx ⊢
    omega
  · simp only [TimerLoop.pending, List.mem_append, hcopy] at hx
    rcases hx with (hold | hlive) | hrest
    · exact h.fits x (by simp [TimerLoop.pending, hposted x hold])
    · rcases Multimap.mem_emplace.mp hlive with rfl | hlive
      · exact hfits
      · exact h.fits x (by simp [TimerLoop.pending, hlive])
    · exact h.fits x (by simp [TimerLoop.pending, hrest])

/-- The code of the program makes a timer. -/
theorem Ledger.doDelayTask (h : Ledger s) {delay : Nat} (fits : s.clock + delay < 2 ^ 63)
    (hstep : step s (.doDelayTask delay) = some t) : Ledger t := by
  rw [step, Option.ite_none_right_eq_some, stored_eq fits] at hstep
  obtain ⟨hrunning, hstep⟩ := hstep
  cases hstep
  refine h.emplace (e := (s.clock + delay, s.created)) fits rfl ?_ (fun x => ?_) fun _ => id
  · have hready := h.ready
    cases hphase : s.phase with
    | serving => trivial
    | calling nowTime task taskCopy =>
        rw [hphase] at hready
        refine ⟨hready.1, fun e he => ?_⟩
        rcases Multimap.mem_emplace.mp he with rfl | he
        · exact hready.1.trans (Nat.le_add_right _ _)
        · exact hready.2 e he
    | flushing nowTime taskCopy =>
        rw [hphase] at hrunning
        exact hrunning.elim
    | asleep now minDelay =>
        rw [hphase] at hrunning
        exact hrunning.elim
  · rw [List.count_append]
    omega

/-- A posted task is run. -/
theorem Ledger.insert (h : Ledger s) {entry : Entry} (hstep : step s (.insert entry) = some t) :
    Ledger t := by
  simp only [step] at hstep
  split at hstep
  · rename_i hphase
    rw [Option.ite_none_right_eq_some] at hstep
    obtain ⟨hmem, hstep⟩ := hstep
    cases hstep
    refine h.emplace (e := entry) (h.fits entry (by simp [TimerLoop.pending, hmem])) rfl ?_
      (fun x => ?_) fun _ => List.mem_of_mem_erase
    · rw [hphase]
      trivial
    · have hcount := (List.perm_cons_erase hmem).count_eq x
      rw [← List.singleton_append, List.count_append] at hcount
      omega
  · cases hstep

theorem Ledger.cancel (h : Ledger s) {task : Nat} (hstep : step s (.cancel task) = some t) :
    Ledger t := by
  cases hstep
  refine ⟨h.conserved, h.timely, ?_, fun other => ?_, h.obedient.snoc trivial, h.fits, h.ready⟩
  · rw [List.filterMap_append, h.taken]
    exact List.append_nil _
  · simp only [Finset.mem_insert, List.mem_append, List.mem_singleton, h.known,
      TimerEvent.cancelled.injEq]
    exact or_comm

/-- The flush ends with the entries that have not expired and those that were made. -/
theorem Ledger.merge (h : Ledger s) (hphase : s.phase = .flushing nowTime taskCopy)
    (hfuture : ∀ e ∈ taskCopy.entries, nowTime ≤ e.1) : Ledger (s.merge nowTime taskCopy) := by
  have hready := h.ready
  rw [hphase] at hready
  have hperm := taskCopy.perm_insertAll s.delayTaskMap.entries
  have hpending : ∀ e, e ∈ taskCopy.entries ∨ e ∈ s.delayTaskMap.entries → e ∈ s.pending := by
    intro e he
    rw [TimerLoop.pending, hphase]
    rcases he with he | he <;> simp [Phase.taskCopy, he]
  have hmerged : ∀ e ∈ (taskCopy.insertAll s.delayTaskMap.entries).entries,
      nowTime ≤ e.1 ∧ e.1 < 2 ^ 63 := by
    intro e he
    rw [Multimap.mem_insertAll] at he
    exact ⟨he.elim (hfuture e) (hready.2 e), h.fits e (hpending e he)⟩
  refine ⟨?_, h.timely, h.taken, h.known, h.obedient, fun e he => ?_,
    ⟨hready.1, awaits_firstDelay hmerged⟩⟩
  · have hcount := List.perm_iff_count.mp h.conserved
    rw [List.perm_iff_count]
    intro e
    have he := hcount e
    have hmerge := hperm.count_eq e
    simp only [TimerLoop.pending, TimerLoop.merge, hphase, Phase.taskCopy, List.count_append,
      List.count_nil] at he hmerge ⊢
    omega
  · simp only [TimerLoop.pending, TimerLoop.merge, Phase.taskCopy, List.append_nil,
      List.mem_append] at he
    rcases he with hposted | hmap
    · exact h.fits e (by simp [TimerLoop.pending, hposted])
    · exact (hmerged e hmap).2

/-- The first entry that has expired has its turn. -/
theorem Ledger.takeTurn (h : Ledger s) (hphase : s.phase = .flushing nowTime taskCopy) :
    Ledger (s.takeTurn nowTime taskCopy) := by
  have hready := h.ready
  rw [hphase] at hready
  unfold TimerLoop.takeTurn
  split
  · rename_i hempty
    apply h.merge hphase
    simp [hempty]
  · rename_i deadline task rest hentries
    have hcopy : taskCopy.entries.tail = rest := by rw [hentries]; rfl
    let turn : Turn := ⟨nowTime, (deadline, task)⟩
    have hconserved : ((s.turns ++ [turn]).map Turn.entry ++
        (s.posted ++ s.delayTaskMap.entries ++ taskCopy.entries.tail)).Perm s.registered := by
      have hcount := List.perm_iff_count.mp h.conserved
      rw [hcopy, List.perm_iff_count]
      intro e
      have he := hcount e
      simp only [TimerLoop.pending, hphase, Phase.taskCopy, hentries, turn, List.map_append,
        List.map_cons, List.map_nil, List.count_append, List.count_cons, List.count_nil] at he ⊢
      omega
    have hfits : ∀ e ∈ s.posted ++ s.delayTaskMap.entries ++ taskCopy.entries.tail,
        e.1 < 2 ^ 63 := by
      intro e he
      apply h.fits
      rw [hcopy] at he
      rw [TimerLoop.pending, hphase]
      simp only [Phase.taskCopy, hentries, List.mem_append, List.mem_cons] at he ⊢
      tauto
    split
    · rename_i hexpired
      have htimely : ∀ other ∈ s.turns ++ [turn],
          other.entry.1 ≤ other.time ∧ other.time ≤ s.clock := by
        intro other hother
        rcases List.mem_append.mp hother with hold | hnew
        · exact h.timely other hold
        · rw [List.mem_singleton.mp hnew]
          exact ⟨hexpired, hready.1⟩
      have htaken : ∀ event : TimerEvent, event.turn? = some task →
          (s.trace ++ [event]).filterMap TimerEvent.turn? =
            (s.turns ++ [turn]).map fun turn => turn.entry.2 := by
        intro event hevent
        rw [List.filterMap_append, List.map_append, h.taken, List.filterMap_cons_some hevent]
        rfl
      simp only
      split
      · rename_i hcancelled
        refine ⟨hconserved, htimely, htaken _ rfl, fun other => ?_,
          h.obedient.snoc ((h.known task).mp hcancelled), hfits, hready⟩
        simp [h.known]
      · rename_i hnot
        refine ⟨hconserved, htimely, htaken _ rfl, fun other => ?_, h.obedient.snoc ?_, hfits,
          hready⟩
        · simp [h.known]
        · exact fun hmem => hnot ((h.known task).mpr hmem)
    · rename_i hfuture
      apply h.merge hphase
      intro e he
      have hle := Multimap.first_le hentries he
      simp only at hle
      omega

/-- The body of a timer has returned or thrown. -/
theorem Ledger.ends (h : Ledger s) {task : Nat}
    (hphase : s.phase = .calling nowTime task taskCopy) :
    Ledger { s with phase := .flushing nowTime taskCopy } := by
  have hready := h.ready
  rw [hphase] at hready
  have hconserved := h.conserved
  have hfits := h.fits
  simp only [TimerLoop.pending, hphase] at hconserved hfits
  exact ⟨hconserved, h.timely, h.taken, h.known, h.obedient, hfits, hready⟩

theorem Ledger.getMinDelay (h : Ledger s) (hstep : step s .getMinDelay = some t) : Ledger t := by
  simp only [step] at hstep
  split at hstep
  · rename_i hphase
    have hconserved := h.conserved
    have hfits := h.fits
    simp only [TimerLoop.pending, hphase, Phase.taskCopy] at hconserved hfits
    split at hstep
    · rename_i hempty
      cases hstep
      exact ⟨hconserved, h.timely, h.taken, h.known, h.obedient, hfits, le_rfl,
        Or.inl ⟨rfl, hempty⟩⟩
    · rename_i deadline task rest hentries
      split at hstep
      · rename_i hfuture
        cases hstep
        refine ⟨hconserved, h.timely, h.taken, h.known, h.obedient, hfits, le_rfl, ?_⟩
        have hfirst : firstDelay s.delayTaskMap s.clock = difference deadline s.clock := by
          rw [firstDelay, hentries]
        rw [← hfirst]
        apply awaits_firstDelay
        intro e he
        exact ⟨hfuture.le.trans (Multimap.first_le hentries he), hfits e (by simp [he])⟩
      · cases hstep
        refine ⟨?_, h.timely, h.taken, h.known, h.obedient, ?_, le_rfl, by simp [Multimap.empty]⟩
        · simpa [TimerLoop.pending, Phase.taskCopy, Multimap.empty] using hconserved
        · simpa [TimerLoop.pending, Phase.taskCopy, Multimap.empty] using hfits
  · cases hstep

theorem Ledger.returns (h : Ledger s) {nextDelay : Nat} (fits : nextDelay + s.clock < 2 ^ 63)
    (hstep : step s (.returns nextDelay) = some t) : Ledger t := by
  simp only [step] at hstep
  split at hstep
  · rename_i nowTime task taskCopy hphase
    split at hstep
    · cases hstep
      exact h.ends hphase
    · have hready := h.ready
      rw [hphase] at hready
      have hfits : nextDelay + nowTime < 2 ^ 63 := by
        have hle := hready.1
        omega
      rw [stored_eq hfits] at hstep
      cases hstep
      refine h.emplace (e := (nextDelay + nowTime, task)) hfits (by rw [hphase]; rfl)
        ⟨hready.1, fun e he => ?_⟩ (fun x => ?_) fun _ => id
      · rcases Multimap.mem_emplace.mp he with rfl | he
        · exact Nat.le_add_left _ _
        · exact hready.2 e he
      · rw [List.count_append]
        omega
  · cases hstep

theorem ledger_step {a : Action} (fits : Fits s a) (hstep : step s a = some t) (h : Ledger s) :
    Ledger t := by
  cases a with
  | tick now =>
      rw [step, Option.ite_none_right_eq_some] at hstep
      obtain ⟨hle, hstep⟩ := hstep
      cases hstep
      exact ⟨h.conserved, fun turn hturn => ⟨(h.timely turn hturn).1,
        (h.timely turn hturn).2.trans hle⟩, h.taken, h.known, h.obedient, h.fits, h.ready.mono hle⟩
  | post delay => exact h.post fits hstep
  | doDelayTask delay => exact h.doDelayTask fits hstep
  | insert entry => exact h.insert hstep
  | cancel task => exact h.cancel hstep
  | getMinDelay => exact h.getMinDelay hstep
  | turn =>
      simp only [step] at hstep
      split at hstep
      · rename_i hphase
        cases hstep
        exact h.takeTurn hphase
      · cases hstep
  | returns nextDelay => exact h.returns fits hstep
  | throws =>
      simp only [step] at hstep
      split at hstep
      · rename_i hphase
        cases hstep
        exact h.ends hphase
      · cases hstep
  | wake =>
      simp only [step] at hstep
      split at hstep
      · rename_i hphase
        cases hstep
        have hconserved := h.conserved
        have hfits := h.fits
        simp only [TimerLoop.pending, hphase] at hconserved hfits
        exact ⟨hconserved, h.timely, h.taken, h.known, h.obedient, hfits, trivial⟩
      · cases hstep

end Steps

end FFZKit.Poller.TimerRuns
