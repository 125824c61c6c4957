import FFZKit.Poller.TimerWait

/-!
# The arithmetic of timers

A deadline is stored as a sum of two `uint64_t`, and the time left to it is a
difference that becomes an `int64_t`. What a call of `getMinDelay` leaves
pending is told from the state before it: the entries that have not expired,
and the requests of the tasks that are called.
-/

namespace FFZKit.Poller.DelayTask

open FFZKit.Foundations

/-- The tasks cancelled after some actions. -/
def cancelledBy (ops : List Op) (cancelled : Finset Nat) : Finset Nat :=
  ops.foldl (fun cancelled op =>
    match op with
    | .doDelayTask _ _ => cancelled
    | .cancel task => insert task cancelled) cancelled

/-- The delays asked for by the actions of a task, each with the time of its request. -/
def asked (ops : List Op) : List (Nat × Nat) :=
  ops.filterMap fun
    | .doDelayTask clock delay => some (clock, delay)
    | .cancel _ => none

/-- The delay asked for by the end of a task. -/
def askedAgain (nowTime : Nat) : Outcome → List (Nat × Nat)
  | .returns nextDelay => if nextDelay = 0 then [] else [(nowTime, nextDelay)]
  | .throws => []

/-- The requests of the tasks of a flush, which passes over those that are
cancelled before their turn. -/
def requests (script : Nat → Script) (nowTime : Nat) : Finset Nat → List Nat → List (Nat × Nat)
  | _, [] => []
  | cancelled, task :: tasks =>
      if task ∈ cancelled then requests script nowTime cancelled tasks
      else asked (script task).ops ++ askedAgain nowTime (script task).outcome ++
        requests script nowTime (cancelledBy (script task).ops cancelled) tasks

/-- The deadline that a request stores. -/
def stored (request : Nat × Nat) : Nat := (request.1 + request.2) % 2 ^ 64

/-- The deadlines in a map. -/
def Pending (m : Multimap Nat Nat) (deadline : Nat) : Prop := deadline ∈ m.entries.map Prod.fst

/-- What is pending after `getMinDelay`: what has not expired, and what the
expired tasks ask for. -/
def PendingAfter (script : Nat → Script) (nowTime : Nat) (s : Timers) (deadline : Nat) : Prop :=
  (nowTime < deadline ∧ Pending s.delayTaskMap deadline) ∨
    ∃ request ∈ requests script nowTime s.cancelled
      ((s.delayTaskMap.upTo nowTime).map Prod.snd), deadline = stored request

section Flush

variable {script : Nat → Script} {nowTime : Nat}

theorem pending_emplace {m : Multimap Nat Nat} {k v deadline : Nat} :
    Pending (m.emplace k v) deadline ↔ deadline = k ∨ Pending m deadline := by
  simp only [Pending, List.mem_map, Multimap.mem_emplace]
  constructor
  · rintro ⟨e, rfl | he, rfl⟩
    · exact Or.inl rfl
    · exact Or.inr ⟨e, he, rfl⟩
  · rintro (rfl | ⟨e, he, rfl⟩)
    · exact ⟨(deadline, v), Or.inl rfl, rfl⟩
    · exact ⟨e, Or.inr he, rfl⟩

theorem pending_insertAll {m : Multimap Nat Nat} {l : List (Nat × Nat)} {deadline : Nat} :
    Pending (m.insertAll l) deadline ↔ Pending m deadline ∨ deadline ∈ l.map Prod.fst := by
  simp only [Pending, List.mem_map, Multimap.mem_insertAll]
  constructor
  · rintro ⟨e, he | he, rfl⟩
    · exact Or.inl ⟨e, he, rfl⟩
    · exact Or.inr ⟨e, he, rfl⟩
  · rintro (⟨e, he, rfl⟩ | ⟨e, he, rfl⟩)
    · exact ⟨e, Or.inl he, rfl⟩
    · exact ⟨e, Or.inr he, rfl⟩

theorem exists_stored_append {front back : List (Nat × Nat)} {deadline : Nat} :
    (∃ request ∈ front ++ back, deadline = stored request) ↔
      (∃ request ∈ front, deadline = stored request) ∨
        ∃ request ∈ back, deadline = stored request := by
  simp only [List.mem_append, or_and_right, exists_or]

/-- The actions of a task store what they ask for. -/
theorem performAll_pending (ops : List Op) (s : Timers) :
    (ops.foldl Timers.perform s).cancelled = cancelledBy ops s.cancelled ∧
      ∀ deadline, Pending (ops.foldl Timers.perform s).delayTaskMap deadline ↔
        Pending s.delayTaskMap deadline ∨ ∃ request ∈ asked ops, deadline = stored request := by
  induction ops generalizing s with
  | nil => exact ⟨rfl, fun deadline => by simp [asked]⟩
  | cons op ops ih =>
      obtain ⟨hcancelled, hpending⟩ := ih (s.perform op)
      cases op with
      | doDelayTask clock delay =>
          refine ⟨hcancelled, fun deadline => ?_⟩
          rw [List.foldl_cons, hpending deadline]
          simp only [Timers.perform, Timers.doDelayTask, pending_emplace, asked,
            List.filterMap_cons, List.exists_mem_cons_iff, stored]
          tauto
      | cancel task =>
          refine ⟨hcancelled, fun deadline => ?_⟩
          rw [List.foldl_cons, hpending deadline]
          simp only [Timers.perform, Timers.cancel, asked, List.filterMap_cons]

/-- The turn of a task stores what it asks for. -/
theorem expire_pending {s : Timers} {task : Nat} (htask : task ∉ s.cancelled) :
    (s.expire script nowTime task).cancelled = cancelledBy (script task).ops s.cancelled ∧
      ∀ deadline, Pending (s.expire script nowTime task).delayTaskMap deadline ↔
        Pending s.delayTaskMap deadline ∨
          ∃ request ∈ asked (script task).ops ++ askedAgain nowTime (script task).outcome,
            deadline = stored request := by
  obtain ⟨hcancelled, hpending⟩ := performAll_pending (script task).ops
    { s with trace := s.trace ++ [.called task] }
  rw [expire_called htask]
  set done := (script task).ops.foldl Timers.perform { s with trace := s.trace ++ [.called task] }
  cases houtcome : (script task).outcome with
  | throws =>
      rw [askedAgain, List.append_nil]
      exact ⟨hcancelled, hpending⟩
  | returns nextDelay =>
      by_cases hdelay : nextDelay = 0
      · simp only [hdelay, if_true, askedAgain, List.append_nil]
        exact ⟨hcancelled, hpending⟩
      · simp only [hdelay, if_false, askedAgain]
        refine ⟨hcancelled, fun deadline => ?_⟩
        have hsum : (nextDelay + nowTime) % 2 ^ 64 = stored (nowTime, nextDelay) := by
          rw [stored, Nat.add_comm]
        have hlast : (∃ request ∈ [(nowTime, nextDelay)], deadline = stored request) ↔
            deadline = stored (nowTime, nextDelay) := by
          simp only [List.mem_singleton, exists_eq_left]
        rw [pending_emplace, hpending deadline, hsum, exists_stored_append, hlast, or_comm,
          or_assoc]

/-- The loop over the expired tasks stores their requests. -/
theorem expireAll_pending (tasks : List Nat) (s : Timers) (deadline : Nat) :
    Pending (tasks.foldl (Timers.expire script nowTime) s).delayTaskMap deadline ↔
      Pending s.delayTaskMap deadline ∨
        ∃ request ∈ requests script nowTime s.cancelled tasks, deadline = stored request := by
  induction tasks generalizing s with
  | nil => simp [requests]
  | cons task tasks ih =>
      rw [List.foldl_cons, ih, requests]
      by_cases htask : task ∈ s.cancelled
      · rw [expire_cancelled htask, if_pos htask]
      · obtain ⟨hcancelled, hpending⟩ := @expire_pending script nowTime s task htask
        rw [if_neg htask, hpending deadline, hcancelled, or_assoc, ← exists_stored_append]

theorem flushDelayTask_pending (s : Timers) (deadline : Nat) :
    Pending (s.flushDelayTask script nowTime).1.delayTaskMap deadline ↔
      PendingAfter script nowTime s deadline := by
  simp only [Timers.flushDelayTask, pending_insertAll]
  refine or_congr ?_ ((expireAll_pending _ _ _).trans (or_iff_right ?_))
  · rw [Pending, Multimap.above_eq_filter]
    simp only [Pending, List.mem_map, List.mem_filter, decide_eq_true_eq]
    constructor
    · rintro ⟨e, ⟨he, hlt⟩, rfl⟩
      exact ⟨hlt, e, he, rfl⟩
    · rintro ⟨hlt, e, he, rfl⟩
      exact ⟨e, ⟨he, hlt⟩, rfl⟩
  · exact List.not_mem_nil

/-- What `getMinDelay` leaves pending. -/
theorem getMinDelay_pending (s : Timers) (deadline : Nat) :
    Pending (s.getMinDelay script nowTime).1.delayTaskMap deadline ↔
      PendingAfter script nowTime s deadline := by
  rw [Timers.getMinDelay]
  split
  · rename_i hempty
    have hnone : s.delayTaskMap.upTo nowTime = [] := by rw [Multimap.upTo, hempty]; rfl
    simp [PendingAfter, Pending, hempty, hnone, requests]
  · rename_i first task rest hfirst
    split
    · rename_i hlater
      have hnone : s.delayTaskMap.upTo nowTime = [] := by
        rw [Multimap.upTo, hfirst, List.takeWhile_cons_of_neg (by simpa using hlater)]
      simp only [PendingAfter, hnone, List.map_nil, requests, List.not_mem_nil, false_and,
        exists_false, or_false]
      refine (and_iff_right_of_imp ?_).symm
      rintro hpending
      obtain ⟨e, he, rfl⟩ := List.mem_map.mp hpending
      exact hlater.trans_le (Multimap.first_le hfirst he)
    · exact flushDelayTask_pending s deadline

/-- `getMinDelay` answers with the delay until the first task that it leaves. -/
theorem getMinDelay_result (s : Timers) :
    (s.getMinDelay script nowTime).2 =
      firstDelay (s.getMinDelay script nowTime).1.delayTaskMap nowTime := by
  rw [Timers.getMinDelay]
  split
  · rename_i hempty
    rw [firstDelay, hempty]
  · rename_i first task rest hfirst
    split
    · rw [firstDelay, hfirst]
    · rfl

end Flush

/-- The earliest deadline that meets a condition. -/
def Earliest (P : Nat → Prop) (deadline : Nat) : Prop :=
  P deadline ∧ ∀ other, P other → deadline ≤ other

/-- The answer for a map is about its earliest deadline. -/
theorem firstDelay_of_earliest {m : Multimap Nat Nat} {deadline : Nat}
    (h : Earliest (Pending m) deadline) (nowTime : Nat) :
    firstDelay m nowTime = difference deadline nowTime := by
  obtain ⟨hpending, hleast⟩ := h
  obtain ⟨e, he, rfl⟩ := List.mem_map.mp hpending
  rw [firstDelay]
  split
  · rename_i hempty
    rw [hempty] at he
    cases he
  · rename_i first task rest hfirst
    have hle : first ≤ e.1 := Multimap.first_le hfirst he
    have hge : e.1 ≤ first := hleast first (List.mem_map.mpr ⟨(first, task), by simp [hfirst], rfl⟩)
    rw [le_antisymm hle hge]

/-- A call that computes with times: `doDelayTask`, the turn of a task that returns at a
time in a flush, or `getMinDelay` before a wait, which ends at a time. The bodies of
tasks take as long as they like. -/
inductive TimerCall
  | doDelayTask (clock delay : Nat)
  | turn (nowTime task returned : Nat)
  | getMinDelay (backend : Backend) (nowTime ended : Nat)

/-- No deadline is earlier than was asked for, and a wait is in time for the
earliest one. -/
def Sound (script : Nat → Script) (s : Timers) : TimerCall → Prop
  | .doDelayTask clock delay => ∃ deadline, clock + delay ≤ deadline ∧
      (s.doDelayTask clock delay).delayTaskMap = s.delayTaskMap.emplace deadline s.created
  | .turn nowTime task returned => ∀ nextDelay, (s.call script task).2 = .returns nextDelay →
      nextDelay ≠ 0 → ∃ deadline, returned + nextDelay ≤ deadline ∧
        (s.expire script nowTime task).delayTaskMap =
          (s.call script task).1.delayTaskMap.emplace deadline task
  | .getMinDelay backend nowTime ended => ∀ deadline,
      Earliest (Pending (s.getMinDelay script nowTime).1.delayTaskMap) deadline →
        InTime (s.getMinDelay script nowTime).2 (timeLeft deadline ended) ∧
          Handed backend (s.getMinDelay script nowTime).2 (timeLeft deadline ended)

/-- No sum of a time and a delay reaches 2^64, a body that asks for another delay has taken
no time, the earliest deadline has not passed and no time has passed since, and the delay
until it survives the conversions. -/
def Fits (script : Nat → Script) (s : Timers) : TimerCall → Prop
  | .doDelayTask clock delay => clock + delay < 2 ^ 64
  | .turn nowTime task returned => task ∉ s.cancelled → ∀ nextDelay,
      (script task).outcome = .returns nextDelay → nextDelay ≠ 0 →
        nowTime + nextDelay < 2 ^ 64 ∧ returned ≤ nowTime
  | .getMinDelay backend nowTime ended => ∀ deadline,
      Earliest (PendingAfter script nowTime s) deadline →
        Timely deadline nowTime ended ∧ Waitable backend (deadline - nowTime)

/-- The readings of the clock and the deadlines are `uint64_t`. -/
def Words (s : Timers) : TimerCall → Prop
  | .doDelayTask clock delay => clock < 2 ^ 64 ∧ delay < 2 ^ 64
  | .turn nowTime _ _ => nowTime < 2 ^ 64
  | .getMinDelay _ nowTime _ => nowTime < 2 ^ 64 ∧ ∀ e ∈ s.delayTaskMap.entries, e.1 < 2 ^ 64

section Calls

variable {script : Nat → Script} {s : Timers}

/-- The sum of a reading and a delay is no less than that of a later time and the delay
exactly when it is a word and the time is no later. -/
theorem le_stored_iff (m : Multimap Nat Nat) {reading : Nat} (hreading : reading < 2 ^ 64)
    (time delay task : Nat) :
    (∃ deadline, time + delay ≤ deadline ∧
        m.emplace ((reading + delay) % 2 ^ 64) task = m.emplace deadline task) ↔
      reading + delay < 2 ^ 64 ∧ time ≤ reading := by
  constructor
  · rintro ⟨deadline, hle, heq⟩
    rw [← Multimap.emplace_key_injective heq] at hle
    have hlt := Nat.mod_lt (reading + delay) (Nat.two_pow_pos 64)
    rcases Nat.lt_or_ge (reading + delay) (2 ^ 64) with hword | hwraps
    · rw [Nat.mod_eq_of_lt hword] at hle
      exact ⟨hword, by omega⟩
    · omega
  · rintro ⟨hword, htime⟩
    exact ⟨reading + delay, by omega, by rw [Nat.mod_eq_of_lt hword]⟩

theorem doDelayTask_sound_iff {clock delay : Nat} (hclock : clock < 2 ^ 64) :
    Sound script s (.doDelayTask clock delay) ↔ Fits script s (.doDelayTask clock delay) :=
  (le_stored_iff s.delayTaskMap hclock clock delay s.created).trans (and_iff_left le_rfl)

theorem turn_sound_iff {nowTime task returned : Nat} (hnow : nowTime < 2 ^ 64) :
    Sound script s (.turn nowTime task returned) ↔
      Fits script s (.turn nowTime task returned) := by
  by_cases htask : task ∈ s.cancelled
  · have hcall : (s.call script task).2 = .returns 0 := by rw [Timers.call, if_pos htask]
    refine iff_of_true (fun nextDelay hreturns hdelay => ?_) fun hnot => absurd htask hnot
    rw [hcall, Outcome.returns.injEq] at hreturns
    exact absurd hreturns.symm hdelay
  · have hcall : (s.call script task).2 = (script task).outcome := by rw [Timers.call, if_neg htask]
    rw [Sound, Fits, hcall, imp_iff_right htask]
    refine forall_congr' fun nextDelay => imp_congr_right fun hreturns =>
      imp_congr_right fun hdelay => ?_
    have hmap : (s.expire script nowTime task).delayTaskMap =
        (s.call script task).1.delayTaskMap.emplace ((nowTime + nextDelay) % 2 ^ 64) task := by
      unfold Timers.expire
      rw [hreturns] at hcall
      rw [Nat.add_comm nowTime]
      split
      · rename_i heq
        rw [heq, Outcome.returns.injEq] at hcall
        rw [if_neg (by rw [hcall]; exact hdelay), heq, hcall]
      · rename_i heq
        rw [heq] at hcall
        cases hcall
    rw [hmap]
    exact le_stored_iff _ hnow _ _ _

theorem getMinDelay_sound_iff {backend : Backend} {nowTime ended : Nat} (hnow : nowTime < 2 ^ 64)
    (hwords : ∀ e ∈ s.delayTaskMap.entries, e.1 < 2 ^ 64) :
    Sound script s (.getMinDelay backend nowTime ended) ↔
      Fits script s (.getMinDelay backend nowTime ended) := by
  have hearliest : ∀ deadline,
      Earliest (Pending (s.getMinDelay script nowTime).1.delayTaskMap) deadline ↔
        Earliest (PendingAfter script nowTime s) deadline := by
    intro deadline
    simp only [Earliest, getMinDelay_pending]
  refine forall_congr' fun deadline => ?_
  rw [hearliest]
  refine imp_congr_right fun hleast => ?_
  have hdeadline : deadline < 2 ^ 64 := by
    rcases hleast.1 with ⟨-, hpending⟩ | ⟨request, -, rfl⟩
    · obtain ⟨e, he, rfl⟩ := List.mem_map.mp hpending
      exact hwords e he
    · exact Nat.mod_lt _ (Nat.two_pow_pos 64)
  rw [getMinDelay_result, firstDelay_of_earliest ((hearliest deadline).mpr hleast)]
  exact wait_sound_iff backend hdeadline hnow

end Calls

/-- Timer arithmetic is sound in a call exactly when its sums fit, the time left to the
earliest deadline does, and bodies take no time. -/
theorem timer_arithmetic_iff (script : Nat → Script) (s : Timers) (call : TimerCall)
    (hwords : Words s call) : Sound script s call ↔ Fits script s call := by
  cases call with
  | doDelayTask clock delay => exact doDelayTask_sound_iff hwords.1
  | turn nowTime task returned => exact turn_sound_iff hwords
  | getMinDelay backend nowTime ended => exact getMinDelay_sound_iff hwords.1 hwords.2

/-- A task that makes another one at a time, and asks for a delay of its own. -/
def repeating (clock : Nat) : Nat → Script
  | 0 => ⟨[.doDelayTask clock 10], .returns 20⟩
  | _ => ⟨[], .returns 0⟩

/-- One task with a deadline. -/
def onlyTask (deadline : Nat) : Timers := ⟨Multimap.empty.emplace deadline 0, ∅, 1, []⟩

theorem pendingAfter_repeating {clock deadline : Nat}
    (h : PendingAfter (repeating clock) 1000 (onlyTask 1000) deadline) :
    deadline = (clock + 10) % 2 ^ 64 ∨ deadline = 1020 := by
  rcases h with ⟨hlater, hpending⟩ | ⟨request, hrequest, rfl⟩
  · obtain ⟨e, he, rfl⟩ := List.mem_map.mp hpending
    obtain rfl := List.mem_singleton.mp he
    omega
  · have hrequests : request ∈ [(clock, 10), (1000, 20)] := hrequest
    simp only [List.mem_cons, List.not_mem_nil, or_false] at hrequests
    rcases hrequests with rfl | rfl
    · exact Or.inl rfl
    · exact Or.inr rfl

/-- A call of `doDelayTask`, and a flush whose body takes no time. -/
theorem timer_arithmetic_second :
    Sound (repeating 1000) (onlyTask 1000) (.doDelayTask 5 1000) ∧
      Sound (repeating 1000) (onlyTask 1000) (.turn 1000 0 1000) ∧
      Sound (repeating 1000) (onlyTask 1000) (.getMinDelay .epoll 1000 1000) ∧
      ((onlyTask 1000).getMinDelay (repeating 1000) 1000).2 = 10 := by
  refine ⟨?_, ?_, ?_, by decide⟩
  · exact (timer_arithmetic_iff _ _ (.doDelayTask 5 1000) ⟨by decide, by decide⟩).mpr
      (show 5 + 1000 < 2 ^ 64 by decide)
  · refine (timer_arithmetic_iff _ _ (.turn 1000 0 1000) (show 1000 < 2 ^ 64 by decide)).mpr ?_
    rintro - nextDelay hreturns -
    obtain rfl : 20 = nextDelay := Outcome.returns.inj hreturns
    decide
  · refine (timer_arithmetic_iff _ _ (.getMinDelay .epoll 1000 1000)
      ⟨by decide, by decide⟩).mpr fun deadline hleast => ?_
    rcases pendingAfter_repeating hleast.1 with rfl | rfl <;> decide

theorem earliest_onlyTask (deadline : Nat) :
    Earliest (Pending (onlyTask deadline).delayTaskMap) deadline := by
  refine ⟨pending_emplace.mpr (Or.inl rfl), fun other hother => ?_⟩
  rcases pending_emplace.mp hother with rfl | hnone
  · exact le_rfl
  · cases hnone

/-- A delay that wraps around is due at once. One of 2^32 milliseconds makes `epoll_wait`
return at once, and one of 1000 times as much makes `select` when `tv_sec` has 32 bits.
After a body that took 50 milliseconds the wait is 20, and the deadline has passed. -/
theorem timer_arithmetic_overflow :
    ¬ Sound (repeating 0) (onlyTask 0) (.doDelayTask 1 (2 ^ 64 - 1)) ∧
    ¬ Sound (repeating 0) (onlyTask (2 ^ 32)) (.getMinDelay .epoll 0 0) ∧
    ¬ Sound (repeating 0) (onlyTask (1000 * 2 ^ 32)) (.getMinDelay (.select 32) 0 0) ∧
    ¬ Sound (repeating 1050) (onlyTask 1000) (.getMinDelay .epoll 1000 1050) := by
  refine ⟨fun hsound => ?_, fun hsound => ?_, fun hsound => ?_, fun hsound => ?_⟩
  · have hfits := (le_stored_iff (onlyTask 0).delayTaskMap (show 1 < 2 ^ 64 by decide) 1
      (2 ^ 64 - 1) 1).mp hsound
    exact absurd hfits.1 (by decide)
  · have hzero := (hsound (2 ^ 32) (earliest_onlyTask _)).2.zero (by decide)
    exact absurd hzero (by decide)
  · obtain ⟨tv, htv, -, -, hwait⟩ := (hsound (1000 * 2 ^ 32) (earliest_onlyTask _)).2
    obtain rfl : ⟨0, 0⟩ = tv := Option.some.inj htv
    exact absurd (hwait.zero (by decide)) (by decide)
  · have hentries : ((onlyTask 1000).getMinDelay (repeating 1050) 1000).1.delayTaskMap.entries =
        [(1020, 0), (1060, 1)] := by decide
    have hearliest : Earliest
        (Pending ((onlyTask 1000).getMinDelay (repeating 1050) 1000).1.delayTaskMap) 1020 := by
      simp [Earliest, Pending, hentries]
    exact absurd (hsound 1020 hearliest).1.le (by decide)

end FFZKit.Poller.DelayTask
