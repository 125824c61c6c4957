import FFZKit.Foundations.History
import FFZKit.Poller.DelayTask

/-!
# What a flush of the delay tasks does

Every expired entry has one turn, in the order of the map. A task is called
unless it was cancelled before its turn, and the map ends with the entries that
had not expired, those that tasks scheduled, and one for every call that asked
for another delay. The answer is the delay until the first of them, as long as
that fits an `int64_t`.
-/

namespace FFZKit.Poller.DelayTask

open FFZKit.Foundations FFZKit.Foundations.History

/-- The tasks that were called or passed over, in the order of their turns. -/
def turns (trace : List TimerEvent) : List Nat :=
  trace.filterMap fun
    | .called task => some task
    | .skipped task => some task
    | _ => none

def calls (trace : List TimerEvent) : List Nat :=
  trace.filterMap fun
    | .called task => some task
    | _ => none

/-- The tasks whose call has returned or thrown. -/
def answers (trace : List TimerEvent) : List Nat :=
  trace.filterMap fun
    | .ended task _ => some task
    | _ => none

/-- The entries made during a flush: what the tasks scheduled, and one for each
call that returned another delay. -/
def additions (nowTime : Nat) (trace : List TimerEvent) : List (Nat × Nat) :=
  trace.filterMap fun
    | .scheduled deadline task => some (deadline, task)
    | .ended task (.returns delay) => if delay = 0 then none else some (nowTime + delay, task)
    | _ => none

/-- A task is called exactly when it was not cancelled before its turn, and a
call ends as the task does. -/
def Fated (script : Nat → Script) (cancelled : Finset Nat) (front : List TimerEvent) :
    TimerEvent → Prop
  | .called task => task ∉ cancelled ∧ .cancelled task ∉ front
  | .skipped task => task ∈ cancelled ∨ .cancelled task ∈ front
  | .ended task outcome => .called task ∈ front ∧ outcome = (script task).outcome
  | _ => True

/-- The tasks that were made, in the order of their making. -/
def made (trace : List TimerEvent) : List Nat :=
  trace.filterMap fun
    | .scheduled _ task => some task
    | _ => none

/-- What an action of a task is seen to do. -/
inductive Op.Leaves : Op → TimerEvent → Prop
  | doDelayTask {clock delay task : Nat} :
      Leaves (.doDelayTask clock delay) (.scheduled (clock + delay) task)
  | cancel {task : Nat} : Leaves (.cancel task) (.cancelled task)

/-- The events of a turn: the task is passed over, or it is called, does one after the
other what its script says, and ends as its script says. -/
inductive TurnEvents (script : Nat → Script) (task : Nat) : List TimerEvent → Prop
  | skipped : TurnEvents script task [.skipped task]
  | called {events : List TimerEvent} (hops : List.Forall₂ Op.Leaves (script task).ops events) :
      TurnEvents script task (.called task :: (events ++ [.ended task (script task).outcome]))

/-- What a flush from `s` has done in `t`. -/
structure Flushed (script : Nat → Script) (nowTime : Nat) (s t : Timers) : Prop where
  turns : turns t.trace = (s.delayTaskMap.entries.filter fun e => e.1 ≤ nowTime).map Prod.snd
  bodies : ∃ parts, t.trace = parts.flatten ∧ List.Forall₂ (TurnEvents script)
    ((s.delayTaskMap.entries.filter fun e => e.1 ≤ nowTime).map Prod.snd) parts
  fresh : made t.trace = List.range' s.created (made t.trace).length
  fated : Throughout (Fated script s.cancelled) t.trace
  answered : answers t.trace = calls t.trace
  holds : ∀ deadline, t.delayTaskMap.equalRange deadline =
    (((s.delayTaskMap.entries.filter fun e => nowTime < e.1) ++
      additions nowTime t.trace).filter fun e => e.1 = deadline).map Prod.snd

/-- The clock does not go back behind `nowTime`, and no sum overflows. -/
structure Admissible (script : Nat → Script) (nowTime : Nat) (s : Timers) : Prop where
  now : nowTime < 2 ^ 64
  deadlines : ∀ e ∈ s.delayTaskMap.entries, e.1 < 2 ^ 64
  scheduled : ∀ task clock delay, .doDelayTask clock delay ∈ (script task).ops →
    nowTime ≤ clock ∧ clock + delay < 2 ^ 64
  returned : ∀ task delay, (script task).outcome = .returns delay → delay + nowTime < 2 ^ 64

/-- The live map and the cancelled tasks in terms of the events so far. -/
structure Live (script : Nat → Script) (nowTime : Nat) (start s : Timers) : Prop where
  fated : Throughout (Fated script start.cancelled) s.trace
  cancelled : ∀ task, task ∈ s.cancelled ↔ task ∈ start.cancelled ∨ .cancelled task ∈ s.trace
  holds : ∀ deadline, s.delayTaskMap.equalRange deadline =
    ((additions nowTime s.trace).filter fun e => e.1 = deadline).map Prod.snd
  due : ∀ e ∈ s.delayTaskMap.entries, nowTime ≤ e.1 ∧ e.1 < 2 ^ 64
  fresh : ∃ n, s.created = start.created + n ∧ made s.trace = List.range' start.created n

variable {script : Nat → Script} {nowTime : Nat} {start s : Timers}

/-- The sums that a script stores fit. -/
def Op.Fits (nowTime : Nat) : Op → Prop
  | .doDelayTask clock delay => nowTime ≤ clock ∧ clock + delay < 2 ^ 64
  | .cancel _ => True

theorem Admissible.fits (h : Admissible script nowTime s) (task : Nat) :
    ∀ op ∈ (script task).ops, op.Fits nowTime := by
  rintro (⟨clock, delay⟩ | _) hop
  · exact h.scheduled task clock delay hop
  · trivial

theorem perform_trace (s : Timers) {op : Op} (hop : op.Fits nowTime) :
    ∃ event, op.Leaves event ∧ (s.perform op).trace = s.trace ++ [event] := by
  cases op with
  | doDelayTask clock delay =>
      have hline : (clock + delay) % 2 ^ 64 = clock + delay := Nat.mod_eq_of_lt hop.2
      refine ⟨.scheduled (clock + delay) s.created, .doDelayTask, ?_⟩
      simp only [Timers.perform, Timers.doDelayTask, hline]
  | cancel task => exact ⟨.cancelled task, .cancel, rfl⟩

theorem performAll_trace (ops : List Op) (s : Timers) (hops : ∀ op ∈ ops, op.Fits nowTime) :
    ∃ events, List.Forall₂ Op.Leaves ops events ∧
      (ops.foldl Timers.perform s).trace = s.trace ++ events := by
  induction ops generalizing s with
  | nil => exact ⟨[], .nil, by simp⟩
  | cons op ops ih =>
      obtain ⟨hfirst, hrest⟩ := List.forall_mem_cons.mp hops
      obtain ⟨event, hleaves, hevent⟩ := perform_trace s hfirst
      obtain ⟨events, hevents, htrace⟩ := ih (s.perform op) hrest
      refine ⟨event :: events, .cons hleaves hevents, ?_⟩
      rw [List.foldl_cons, htrace, hevent, List.append_assoc, List.singleton_append]

theorem made_append (front back : List TimerEvent) :
    made (front ++ back) = made front ++ made back :=
  List.filterMap_append

theorem Live.perform (h : Live script nowTime start s) {op : Op} (hop : op.Fits nowTime) :
    Live script nowTime start (s.perform op) := by
  obtain ⟨n, hcreated, hmade⟩ := h.fresh
  cases op with
  | doDelayTask clock delay =>
      obtain ⟨hclock, hfits⟩ := hop
      have hline : (clock + delay) % 2 ^ 64 = clock + delay := Nat.mod_eq_of_lt hfits
      refine ⟨h.fated.snoc trivial, fun task => ?_, fun deadline => ?_, fun e he => ?_,
        n + 1, congrArg Nat.succ hcreated, ?_⟩
      · simpa [Timers.perform, Timers.doDelayTask] using h.cancelled task
      · simp only [Timers.perform, Timers.doDelayTask, Multimap.equalRange_emplace, h.holds,
          additions, List.filterMap_append, List.filter_append, List.map_append]
        rfl
      · rcases Multimap.mem_emplace.mp he with rfl | he
        · simp only [hline]
          omega
        · exact h.due e he
      · rw [List.range'_concat, ← hmade, Nat.one_mul, ← hcreated]
        exact made_append _ _
  | cancel task =>
      refine ⟨h.fated.snoc trivial, fun other => ?_, fun deadline => ?_, h.due, n, hcreated, ?_⟩
      · simp only [Timers.perform, Timers.cancel, Finset.mem_insert, h.cancelled, List.mem_append,
          List.mem_singleton, TimerEvent.cancelled.injEq]
        tauto
      · simpa [Timers.perform, Timers.cancel, additions] using h.holds deadline
      · rw [← hmade, ← List.append_nil (made s.trace)]
        exact made_append _ _

theorem Live.performAll {ops : List Op} (h : Live script nowTime start s)
    (hops : ∀ op ∈ ops, op.Fits nowTime) :
    Live script nowTime start (ops.foldl Timers.perform s) := by
  induction ops generalizing s with
  | nil => exact h
  | cons op ops ih =>
      obtain ⟨hfirst, hrest⟩ := List.forall_mem_cons.mp hops
      exact ih (h.perform hfirst) hrest

/-- An event that changes neither the map nor the cancelled tasks is noted. -/
theorem Live.snoc (h : Live script nowTime start s) {event : TimerEvent}
    (hfated : Fated script start.cancelled s.trace event)
    (hcancelled : ∀ task, event ≠ .cancelled task) (hadded : additions nowTime [event] = [])
    (hmade : made [event] = []) :
    Live script nowTime start { s with trace := s.trace ++ [event] } := by
  obtain ⟨n, hcreated, hfresh⟩ := h.fresh
  refine ⟨h.fated.snoc hfated, fun task => ?_, fun deadline => ?_, h.due, n, hcreated, ?_⟩
  · rw [h.cancelled, List.mem_append, List.mem_singleton, or_iff_left (hcancelled task).symm]
  · have happend : additions nowTime (s.trace ++ [event]) = additions nowTime s.trace := by
      rw [additions, List.filterMap_append]
      exact (congrArg _ hadded).trans (List.append_nil _)
    rw [happend]
    exact h.holds deadline
  · rw [made_append, hmade, List.append_nil, hfresh]

/-- A call that asks for another delay has its entry in the live map. -/
theorem Live.reschedule (h : Live script nowTime start s) {task delay : Nat}
    (hcalled : .called task ∈ s.trace) (houtcome : (script task).outcome = .returns delay)
    (hdelay : delay ≠ 0) (hfits : delay + nowTime < 2 ^ 64) :
    Live script nowTime start { s with
      delayTaskMap := s.delayTaskMap.emplace ((delay + nowTime) % 2 ^ 64) task
      trace := s.trace ++ [.ended task (.returns delay)] } := by
  have hline : (delay + nowTime) % 2 ^ 64 = nowTime + delay := by
    rw [Nat.mod_eq_of_lt hfits, Nat.add_comm]
  have hadded : additions nowTime [.ended task (.returns delay)] = [(nowTime + delay, task)] := by
    simp [additions, hdelay]
  obtain ⟨n, hcreated, hfresh⟩ := h.fresh
  refine ⟨h.fated.snoc ⟨hcalled, houtcome.symm⟩, fun other => ?_, fun deadline => ?_,
    fun e he => ?_, n, hcreated, ?_⟩
  · simpa using h.cancelled other
  · have happend : additions nowTime (s.trace ++ [.ended task (.returns delay)]) =
        additions nowTime s.trace ++ [(nowTime + delay, task)] := by
      rw [additions, List.filterMap_append]
      exact congrArg _ hadded
    rw [Multimap.equalRange_emplace, happend, List.filter_append, List.map_append, hline,
      h.holds deadline]
  · rcases Multimap.mem_emplace.mp he with rfl | he
    · simp only [hline]
      omega
    · exact h.due e he
  · rw [made_append, hfresh]
    exact List.append_nil _

/-- A cancelled task is passed over. -/
theorem expire_cancelled {task : Nat} (htask : task ∈ s.cancelled) :
    s.expire script nowTime task = { s with trace := s.trace ++ [.skipped task] } := by
  simp only [Timers.expire, Timers.call, if_pos htask, if_true]

/-- A task that is called does what its script says, and is entered again when it asks for
another delay. -/
theorem expire_called {task : Nat} (htask : task ∉ s.cancelled) :
    s.expire script nowTime task =
      let called := { s with trace := s.trace ++ [.called task] }
      let done := (script task).ops.foldl Timers.perform called
      let ended := { done with trace := done.trace ++ [.ended task (script task).outcome] }
      match (script task).outcome with
      | .returns nextDelay =>
          if nextDelay = 0 then ended
          else { ended with
            delayTaskMap := ended.delayTaskMap.emplace ((nextDelay + nowTime) % 2 ^ 64) task }
      | .throws => ended := by
  rw [Timers.expire, Timers.call, if_neg htask]
  cases (script task).outcome <;> rfl

/-- The events of a turn. -/
theorem expire_trace (s : Timers) {task : Nat} (hops : ∀ op ∈ (script task).ops, op.Fits nowTime) :
    ∃ events, TurnEvents script task events ∧
      (s.expire script nowTime task).trace = s.trace ++ events := by
  by_cases htask : task ∈ s.cancelled
  · exact ⟨_, .skipped, by rw [expire_cancelled htask]⟩
  · obtain ⟨events, hleaves, htrace⟩ := performAll_trace (script task).ops
      { s with trace := s.trace ++ [.called task] } hops
    refine ⟨_, .called hleaves, ?_⟩
    have hended : ∀ outcome, s.trace ++ [.called task] ++ events ++ [.ended task outcome] =
        s.trace ++ .called task :: (events ++ [.ended task outcome]) := by
      intro outcome
      simp only [List.append_assoc, List.cons_append, List.nil_append]
    rw [expire_called htask, ← hended, ← htrace]
    cases (script task).outcome with
    | returns nextDelay => exact (apply_ite Timers.trace (nextDelay = 0) _ _).trans (ite_self _)
    | throws => rfl

/-- What a task does of its own begins and ends no turn. -/
theorem filterMap_leaves {γ : Type*} {f : TimerEvent → Option γ}
    (hscheduled : ∀ deadline task, f (.scheduled deadline task) = none)
    (hcancelled : ∀ task, f (.cancelled task) = none) {ops : List Op} {events : List TimerEvent}
    (h : List.Forall₂ Op.Leaves ops events) : events.filterMap f = [] := by
  induction h with
  | nil => rfl
  | cons hleaves _ ih =>
      cases hleaves with
      | doDelayTask => rw [List.filterMap_cons, hscheduled]; exact ih
      | cancel => rw [List.filterMap_cons, hcancelled]; exact ih

theorem turns_of_turnEvents {task : Nat} {events : List TimerEvent}
    (h : TurnEvents script task events) : turns events = [task] := by
  cases h with
  | skipped => rfl
  | @called events hops =>
      have hnone : turns events = [] := filterMap_leaves (fun _ _ => rfl) (fun _ => rfl) hops
      simp only [turns] at hnone ⊢
      simp [hnone]

/-- A call that begins in a turn has ended by its end. -/
theorem answers_of_turnEvents {task : Nat} {events : List TimerEvent}
    (h : TurnEvents script task events) : answers events = calls events := by
  cases h with
  | skipped => rfl
  | @called events hops =>
      have hcalls : calls events = [] := filterMap_leaves (fun _ _ => rfl) (fun _ => rfl) hops
      have hanswers : answers events = [] := filterMap_leaves (fun _ _ => rfl) (fun _ => rfl) hops
      simp only [calls, answers] at hcalls hanswers ⊢
      simp [hcalls, hanswers]

theorem turns_flatten {tasks : List Nat} {parts : List (List TimerEvent)}
    (h : List.Forall₂ (TurnEvents script) tasks parts) :
    turns parts.flatten = tasks ∧ answers parts.flatten = calls parts.flatten := by
  induction h with
  | nil => exact ⟨rfl, rfl⟩
  | cons hevents _ ih =>
      obtain ⟨hturns, hanswers⟩ := ih
      have hfirst := turns_of_turnEvents hevents
      have hends := answers_of_turnEvents hevents
      simp only [turns, answers, calls, List.flatten_cons, List.filterMap_append] at *
      rw [hfirst, hturns, hends, hanswers]
      exact ⟨rfl, rfl⟩

/-- A turn keeps the account of the live map. -/
theorem Live.expire (h : Live script nowTime start s) {task : Nat}
    (hops : ∀ op ∈ (script task).ops, op.Fits nowTime)
    (hreturned : ∀ delay, (script task).outcome = .returns delay → delay + nowTime < 2 ^ 64) :
    Live script nowTime start (s.expire script nowTime task) := by
  by_cases htask : task ∈ s.cancelled
  · rw [expire_cancelled htask]
    exact h.snoc ((h.cancelled task).mp htask) nofun rfl rfl
  · have hcalled : Live script nowTime start { s with trace := s.trace ++ [.called task] } :=
      h.snoc (not_or.mp ((h.cancelled task).not.mp htask)) nofun rfl rfl
    have hdone := hcalled.performAll hops
    obtain ⟨events, _, htrace⟩ := performAll_trace (script task).ops
      { s with trace := s.trace ++ [.called task] } hops
    rw [expire_called htask]
    set done := (script task).ops.foldl Timers.perform
      { s with trace := s.trace ++ [.called task] }
    have hmem : .called task ∈ done.trace := by simp [htrace]
    cases houtcome : (script task).outcome with
    | returns delay =>
        by_cases hdelay : delay = 0
        · simp only [hdelay, if_true]
          exact hdone.snoc ⟨hmem, by rw [houtcome, hdelay]⟩ nofun rfl rfl
        · simp only [hdelay, if_false]
          exact hdone.reschedule hmem houtcome hdelay (hreturned delay houtcome)
    | throws => exact hdone.snoc ⟨hmem, houtcome.symm⟩ nofun rfl rfl

/-- What the loop over the expired tasks has done. -/
theorem live_expireAll (admissible : Admissible script nowTime start) (tasks : List Nat)
    (h : Live script nowTime start s) :
    Live script nowTime start (tasks.foldl (Timers.expire script nowTime) s) ∧
      ∃ parts, List.Forall₂ (TurnEvents script) tasks parts ∧
        (tasks.foldl (Timers.expire script nowTime) s).trace = s.trace ++ parts.flatten := by
  induction tasks generalizing s with
  | nil => exact ⟨h, [], .nil, by simp⟩
  | cons task tasks ih =>
      have hops := admissible.fits task
      obtain ⟨events, hevents, htrace⟩ := expire_trace s hops
      obtain ⟨hlive, parts, hparts, hrest⟩ := ih (h.expire hops (admissible.returned task))
      refine ⟨hlive, events :: parts, .cons hevents hparts, ?_⟩
      rw [List.foldl_cons, hrest, htrace, List.append_assoc, List.flatten_cons]

/-- A difference that fits an `int64_t` is exact. -/
theorem difference_eq {deadline nowTime : Nat} (hnow : nowTime ≤ deadline)
    (hdeadline : deadline < 2 ^ 64) (hfits : deadline - nowTime < 2 ^ 63) :
    difference deadline nowTime = deadline - nowTime := by
  have hmod : (deadline - nowTime) % 2 ^ 64 = deadline - nowTime := Nat.mod_eq_of_lt (by omega)
  rw [difference, BitVec.ofNat_sub_ofNat_of_le _ _ (by omega) hnow,
    BitVec.toInt_eq_toNat_of_lt (by rw [BitVec.toNat_ofNat, hmod]; omega), BitVec.toNat_ofNat,
    hmod]
  omega

/-- The answer of a flush: the delay until the first task if that fits. -/
structure Answered (nowTime : Nat) (t : Timers) (result : Int) : Prop where
  empty : t.delayTaskMap.entries = [] → result = -1
  due : ∀ e ∈ t.delayTaskMap.entries, nowTime ≤ e.1
  first : ∀ first rest, t.delayTaskMap.entries = first :: rest →
    (∀ e ∈ t.delayTaskMap.entries, first.1 ≤ e.1) ∧
      (first.1 - nowTime < 2 ^ 63 → result = first.1 - nowTime ∧ 0 ≤ result)

theorem answered_firstDelay {t : Timers}
    (h : ∀ e ∈ t.delayTaskMap.entries, nowTime ≤ e.1 ∧ e.1 < 2 ^ 64) :
    Answered nowTime t (firstDelay t.delayTaskMap nowTime) := by
  refine ⟨fun hempty => ?_, fun e he => (h e he).1, fun first rest hfirst => ⟨fun e he => ?_,
    fun hfits => ?_⟩⟩
  · rw [firstDelay, hempty]
  · exact Multimap.first_le hfirst he
  · obtain ⟨hnow, hlt⟩ := h first (by rw [hfirst]; exact List.mem_cons_self)
    have hresult : firstDelay t.delayTaskMap nowTime = first.1 - nowTime := by
      rw [firstDelay, hfirst]
      exact difference_eq hnow hlt hfits
    exact ⟨hresult, by omega⟩

/-- The merged map is the unexpired entries followed by the live ones. -/
theorem mem_merged (admissible : Admissible script nowTime start)
    (h : Live script nowTime start s) {e : Nat × Nat}
    (he : e ∈ ((start.delayTaskMap.above nowTime).insertAll s.delayTaskMap.entries).entries) :
    nowTime ≤ e.1 ∧ e.1 < 2 ^ 64 := by
  rw [Multimap.mem_insertAll, Multimap.above_eq_filter] at he
  rcases he with hold | hlive
  · obtain ⟨hmem, hlt⟩ := List.mem_filter.mp hold
    exact ⟨(of_decide_eq_true hlt).le, admissible.deadlines e hmem⟩
  · exact h.due e hlive

/-- A flush gives every expired entry its turn, calls the tasks that were not
cancelled before it, which do what their scripts say, leaves the unexpired entries,
those that tasks scheduled and one for each call that asked for another delay, and
answers with the delay until the first of them. -/
theorem flushDelayTask_flushed (admissible : Admissible script nowTime s) (htrace : s.trace = []) :
    Flushed script nowTime s (s.flushDelayTask script nowTime).1 ∧
      Answered nowTime (s.flushDelayTask script nowTime).1
        (s.flushDelayTask script nowTime).2 := by
  have hstart : Live script nowTime s { s with delayTaskMap := .empty } := by
    refine ⟨?_, ?_, ?_, ?_, 0, rfl, ?_⟩
    · simpa only [htrace] using throughout_nil
    · simp [htrace]
    · simp [htrace, additions, Multimap.equalRange, Multimap.empty]
    · simp [Multimap.empty]
    · simp [htrace, made]
  obtain ⟨hlive, parts, hparts, hbodies⟩ := live_expireAll admissible
    ((s.delayTaskMap.upTo nowTime).map Prod.snd) hstart
  have hflush : (s.flushDelayTask script nowTime).1.trace = parts.flatten :=
    hbodies.trans (by simp [htrace])
  obtain ⟨hturns, hanswers⟩ := turns_flatten hparts
  rw [← hflush] at hturns hanswers
  rw [Multimap.upTo_eq_filter] at hturns hparts
  obtain ⟨n, -, hfresh⟩ := hlive.fresh
  have hmade : made (s.flushDelayTask script nowTime).1.trace = List.range' s.created n := hfresh
  refine ⟨⟨hturns, ⟨parts, hflush, hparts⟩, ?_, hlive.fated, hanswers, fun deadline => ?_⟩,
    answered_firstDelay fun e he => mem_merged admissible hlive he⟩
  · rw [hmade, List.length_range']
  · rw [← Multimap.above_eq_filter, List.filter_append, List.map_append]
    exact (Multimap.equalRange_insertAll _ _ deadline).trans
      (congrArg _ (hlive.holds deadline))

/-- `getMinDelay` answers alike, whether it flushes or not. -/
theorem getMinDelay_answered (admissible : Admissible script nowTime s) (htrace : s.trace = []) :
    Answered nowTime (s.getMinDelay script nowTime).1 (s.getMinDelay script nowTime).2 := by
  unfold Timers.getMinDelay
  split
  · rename_i hempty
    exact ⟨fun _ => rfl, by simp [hempty], by simp [hempty]⟩
  · rename_i deadline task rest hfirst
    split
    · rename_i hnow
      have hanswer : difference deadline nowTime = firstDelay s.delayTaskMap nowTime := by
        rw [firstDelay, hfirst]
      rw [hanswer]
      apply answered_firstDelay
      intro e he
      exact ⟨hnow.le.trans (Multimap.first_le hfirst he), admissible.deadlines e he⟩
    · exact (flushDelayTask_flushed admissible htrace).2

/-- Two tasks expire and one does not. The first cancels the second, and
schedules a task; the second is passed over. -/
def cancelling : Nat → Script
  | 0 => ⟨[.cancel 1, .doDelayTask 10 5], .returns 20⟩
  | _ => ⟨[], .throws⟩

def threeTasks : Timers where
  delayTaskMap := Multimap.empty.insertAll [(4, 0), (40, 2), (9, 1)]
  cancelled := ∅
  created := 3
  trace := []

theorem flushDelayTask_flushed_cancelling :
    (threeTasks.flushDelayTask cancelling 10).1.delayTaskMap.entries = [(15, 3), (30, 0), (40, 2)] ∧
      Flushed cancelling 10 threeTasks (threeTasks.flushDelayTask cancelling 10).1 := by
  refine ⟨by decide, (flushDelayTask_flushed ⟨by decide, by decide, ?_, ?_⟩ rfl).1⟩
  · rintro (_ | task) clock delay hop
    · obtain ⟨rfl, rfl⟩ : clock = 10 ∧ delay = 5 := by simpa [cancelling] using hop
      decide
    · simp [cancelling] at hop
  · rintro (_ | task) delay houtcome
    · obtain rfl : 20 = delay := by simpa [cancelling] using houtcome
      decide
    · simp [cancelling] at houtcome

/-- A task that cancels itself and asks for a delay that no `int64_t` holds. -/
def selfCancelling : Nat → Script
  | 0 => ⟨[.cancel 0], .returns (2 ^ 63)⟩
  | _ => ⟨[], .throws⟩

def oneTask : Timers where
  delayTaskMap := Multimap.empty.emplace 0 0
  cancelled := ∅
  created := 1
  trace := []

theorem admissible_selfCancelling : Admissible selfCancelling 0 oneTask := by
  refine ⟨by decide, by decide, ?_, ?_⟩
  · rintro (_ | task) clock delay hop <;> simp [selfCancelling] at hop
  · rintro (_ | task) delay houtcome
    · obtain rfl : 2 ^ 63 = delay := by simpa [selfCancelling] using houtcome
      decide
    · simp [selfCancelling] at houtcome

/-- The map is not empty and the answer is negative, and the cancelled task has
an entry. -/
theorem flushDelayTask_selfCancelling :
    ¬ (∀ (script : Nat → Script) (nowTime : Nat) (s : Timers),
        Admissible script nowTime s → s.trace = [] →
          (s.flushDelayTask script nowTime).1.delayTaskMap.entries = [] ∨
            0 ≤ (s.flushDelayTask script nowTime).2) ∧
      ¬ ∀ (script : Nat → Script) (nowTime : Nat) (s : Timers),
        Admissible script nowTime s → s.trace = [] →
          ∀ task ∈ turns (s.flushDelayTask script nowTime).1.trace,
            task ∈ (s.flushDelayTask script nowTime).1.cancelled →
              ∀ e ∈ (s.flushDelayTask script nowTime).1.delayTaskMap.entries, e.2 ≠ task := by
  constructor
  · intro h
    have hresult := h selfCancelling 0 oneTask admissible_selfCancelling rfl
    revert hresult
    decide
  · intro h
    have hgone := h selfCancelling 0 oneTask admissible_selfCancelling rfl 0
    revert hgone
    decide

end FFZKit.Poller.DelayTask
