import FFZKit.Foundations.Transition
import Mathlib.Data.Finset.Basic

/-!
# `ThreadGroup`

The group keeps its threads in a map from their ids, and beside it the id of the
thread that it created last. Nothing resets that id when the thread leaves the map,
and the system gives the ids of joined threads out again.

## Implementation notes

A `std::thread` that was joined or detached has the default id, which is no id of a
thread; `objects` gives the ids of the threads that the group has created. The ids
in use are those of the threads that are neither joined nor, once detached or outside
the group, ended. A thread removed while it can be joined makes the process
terminate, so there is no step. Whether the entry of the thread created last was
removed since, and the answers, are histories.
-/

namespace FFZKit.Thread.ThreadGroup

open FFZKit.Foundations.Transition

/-- A call of `is_this_thread_in`: by which thread, what it answered, whether the id
of the thread was a key, and whether `join_all` threw because of it. -/
structure Answer where
  caller : Nat
  isIn : Bool
  isKey : Bool
  throws : Bool
  deriving DecidableEq, Repr

/-- `is_this_thread_in` answers whether the id is a key, and `join_all` throws only
for a member. -/
def Answer.Exact (a : Answer) : Prop :=
  (a.isIn = true ↔ a.isKey = true) ∧ (a.throws = true → a.isKey = true)

instance (a : Answer) : Decidable a.Exact := inferInstanceAs (Decidable (_ ∧ _))

structure Group where
  thread_id_ : Option Nat
  threads_ : List (Nat × Nat)
  objects : Nat → Option Nat
  created : Nat
  running : Finset Nat
  removed : Bool
  answers : List Answer

namespace Group

def init : Group where
  thread_id_ := none
  threads_ := []
  objects := fun _ => none
  created := 0
  running := ∅
  removed := false
  answers := []

/-- `threads_.find(id) != threads_.end()` -/
def isKey (s : Group) (id : Nat) : Bool := (s.threads_.map Prod.fst).contains id

/-- `is_this_thread_in` -/
def is_this_thread_in (s : Group) (caller : Nat) : Bool :=
  if s.thread_id_ = some caller then true else s.isKey caller

/-- `create_thread`, where the system gives the thread an id. -/
def create_thread (s : Group) (id : Nat) : Group :=
  { s with
    thread_id_ := some id
    threads_ := (id, s.created) :: s.threads_.filter fun e => e.1 ≠ id
    objects := fun n => if n = s.created then some id else s.objects n
    created := s.created + 1
    running := insert id s.running
    removed := false }

/-- `remove_thread` of a thread with this `get_id()`. -/
def remove_thread (s : Group) (get_id : Option Nat) : Option Group :=
  match get_id with
  | none => some s
  | some id =>
      match s.threads_.lookup id with
      | none => some s
      | some n =>
          if (s.objects n).isSome then none
          else some { s with
            threads_ := s.threads_.filter fun e => e.1 ≠ id
            removed := s.removed || s.thread_id_ = some id }

/-- The loop of `join_all`, and `threads_.clear()`. -/
def joinThreads (s : Group) : Group :=
  { s with
    threads_ := []
    objects := fun n => if n ∈ s.threads_.map Prod.snd then none else s.objects n
    running := s.running.filter fun id => ∀ e ∈ s.threads_, s.objects e.2 ≠ some id
    removed := true }

/-- What `is_this_thread_in` answers is recorded. -/
def answer (s : Group) (caller : Nat) (throws : Bool) : Group :=
  { s with
    answers := s.answers ++ [⟨caller, s.is_this_thread_in caller, s.isKey caller, throws⟩] }

/-- `join_all` -/
def join_all (s : Group) (caller : Nat) : Group :=
  if s.is_this_thread_in caller then s.answer caller true
  else (s.answer caller false).joinThreads

/-- What happens to the group and to the threads of the process. -/
inductive Action
  | create_thread (id : Nat)
  | remove_thread (get_id : Option Nat)
  | join_all (caller : Nat)
  | is_this_thread_in (caller : Nat)
  | start (id : Nat)
  | stop (id : Nat)
  | join (n : Nat)
  | detach (n : Nat)

def step (s : Group) : Action → Option Group
  | .create_thread id => if id ∈ s.running then none else some (s.create_thread id)
  | .remove_thread get_id => s.remove_thread get_id
  | .join_all caller => if caller ∈ s.running then some (s.join_all caller) else none
  | .is_this_thread_in caller => if caller ∈ s.running then some (s.answer caller false) else none
  | .start id => if id ∈ s.running then none else some { s with running := insert id s.running }
  | .stop id =>
      if id ∈ s.running ∧ ∀ n < s.created, s.objects n ≠ some id then
        some { s with running := s.running.erase id }
      else none
  | .join n =>
      match s.objects n with
      | none => none
      | some id => some { s with
          objects := fun m => if m = n then none else s.objects m
          running := s.running.erase id }
  | .detach n =>
      match s.objects n with
      | none => none
      | some _ => some { s with objects := fun m => if m = n then none else s.objects m }

/-- The thread that calls `is_this_thread_in`, by itself or by `join_all`. -/
def Action.asks : Action → Option Nat
  | .join_all caller => some caller
  | .is_this_thread_in caller => some caller
  | _ => none

/-- The thread that asks does not have the id of the thread created last, or that
thread has not left the map since. -/
def Current (s : Group) (a : Action) : Prop :=
  ∀ caller, a.asks = some caller → s.thread_id_ = some caller → s.removed = false

/-- The entry of the thread created last is in the map until it is removed. -/
def Sound (s : Group) : Prop :=
  ∀ id, s.thread_id_ = some id → (s.isKey id = true ↔ s.removed = false)

theorem sound_init : Sound init := nofun

variable {s t : Group} {a : Action}

/-- Everything but the map, the id and the flag may change without breaking the
invariant. -/
theorem Sound.congr (h : Sound s) (hid : t.thread_id_ = s.thread_id_)
    (hthreads : t.threads_ = s.threads_) (hremoved : t.removed = s.removed) : Sound t := by
  intro id hlast
  rw [isKey, hthreads, hremoved]
  exact h id (hid ▸ hlast)

theorem isKey_create_thread (s : Group) (id : Nat) : (s.create_thread id).isKey id = true := by
  simp [isKey, create_thread]

/-- The keys that are left when one is erased. -/
theorem isKey_erase (s : Group) (id c : Nat) :
    ((s.threads_.filter fun e => e.1 ≠ id).map Prod.fst).contains c =
      (s.isKey c && decide (c ≠ id)) := by
  rw [isKey, Bool.eq_iff_iff]
  simp only [List.contains_iff_mem, List.mem_map, List.mem_filter, Bool.and_eq_true,
    decide_eq_true_eq]
  constructor
  · rintro ⟨e, ⟨he, hne⟩, rfl⟩
    exact ⟨⟨e, he, rfl⟩, hne⟩
  · rintro ⟨⟨e, he, rfl⟩, hne⟩
    exact ⟨e, ⟨he, hne⟩, rfl⟩

theorem sound_create_thread (s : Group) (id : Nat) : Sound (s.create_thread id) := by
  intro last hlast
  obtain rfl := Option.some.inj hlast
  exact iff_of_true (isKey_create_thread s id) rfl

theorem sound_remove_thread {get_id : Option Nat} (h : Sound s)
    (hremove : s.remove_thread get_id = some t) : Sound t := by
  cases get_id with
  | none => exact Option.some.inj hremove ▸ h
  | some id =>
      simp only [remove_thread] at hremove
      cases hlookup : s.threads_.lookup id with
      | none =>
          rw [hlookup] at hremove
          exact Option.some.inj hremove ▸ h
      | some n =>
          simp only [hlookup] at hremove
          by_cases hjoinable : (s.objects n).isSome
          · rw [if_pos hjoinable] at hremove
            cases hremove
          · rw [if_neg hjoinable] at hremove
            obtain rfl := Option.some.inj hremove
            intro last hlast
            have hbefore := h last hlast
            rw [isKey, isKey_erase]
            rw [show s.thread_id_ = some last from hlast]
            by_cases hid : last = id
            · simp [hid]
            · simpa [hid] using hbefore

theorem sound_join_all (h : Sound s) (caller : Nat) : Sound (s.join_all caller) := by
  rw [join_all]
  split
  · exact h.congr rfl rfl rfl
  · intro last _
    exact iff_of_false Bool.false_ne_true (by simp [joinThreads])

/-- The group is as it was, but for its objects and the threads of the process. -/
structure Undisturbed (s t : Group) : Prop where
  thread_id_ : t.thread_id_ = s.thread_id_
  threads_ : t.threads_ = s.threads_
  removed : t.removed = s.removed
  answers : t.answers = s.answers

/-- What a step does: a call on the group, or something that leaves it alone. -/
theorem step_moves (moves : step s a = some t) :
    (∃ id, a = .create_thread id ∧ t = s.create_thread id) ∨
      (∃ get_id, a = .remove_thread get_id ∧ s.remove_thread get_id = some t) ∨
      (∃ caller, a = .join_all caller ∧ t = s.join_all caller) ∨
      (∃ caller, a = .is_this_thread_in caller ∧ t = s.answer caller false) ∨
      a.asks = none ∧ Undisturbed s t := by
  cases a with
  | create_thread id =>
      left
      simp only [step, Option.ite_none_left_eq_some, Option.some.injEq] at moves
      exact ⟨id, rfl, moves.2.symm⟩
  | remove_thread get_id => exact Or.inr <| Or.inl ⟨get_id, rfl, moves⟩
  | join_all caller =>
      right; right; left
      simp only [step, Option.ite_none_right_eq_some, Option.some.injEq] at moves
      exact ⟨caller, rfl, moves.2.symm⟩
  | is_this_thread_in caller =>
      right; right; right; left
      simp only [step, Option.ite_none_right_eq_some, Option.some.injEq] at moves
      exact ⟨caller, rfl, moves.2.symm⟩
  | start id =>
      right; right; right; right
      simp only [step, Option.ite_none_left_eq_some, Option.some.injEq] at moves
      obtain ⟨-, rfl⟩ := moves
      exact ⟨rfl, rfl, rfl, rfl, rfl⟩
  | stop id =>
      right; right; right; right
      simp only [step, Option.ite_none_right_eq_some, Option.some.injEq] at moves
      obtain ⟨-, rfl⟩ := moves
      exact ⟨rfl, rfl, rfl, rfl, rfl⟩
  | join n =>
      right; right; right; right
      simp only [step] at moves
      split at moves
      · cases moves
      · obtain rfl := Option.some.inj moves
        exact ⟨rfl, rfl, rfl, rfl, rfl⟩
  | detach n =>
      right; right; right; right
      simp only [step] at moves
      split at moves
      · cases moves
      · obtain rfl := Option.some.inj moves
        exact ⟨rfl, rfl, rfl, rfl, rfl⟩

theorem sound_step (moves : step s a = some t) (h : Sound s) : Sound t := by
  obtain ⟨id, -, rfl⟩ | ⟨get_id, -, hremove⟩ | ⟨caller, -, rfl⟩ | ⟨caller, -, rfl⟩ | ⟨-, hsame⟩ :=
    step_moves moves
  · exact sound_create_thread s id
  · exact sound_remove_thread h hremove
  · exact sound_join_all h caller
  · exact h.congr rfl rfl rfl
  · exact h.congr hsame.thread_id_ hsame.threads_ hsame.removed

/-- An answer is exact when the thread that asks is not taken for the one created
last, or that one is still a key. -/
theorem exact_answer_iff (h : Sound s) (caller : Nat) {throws : Bool}
    (hthrows : throws = true → s.is_this_thread_in caller = true) :
    Answer.Exact ⟨caller, s.is_this_thread_in caller, s.isKey caller, throws⟩ ↔
      (s.thread_id_ = some caller → s.removed = false) := by
  rw [Answer.Exact]
  simp only
  by_cases hlast : s.thread_id_ = some caller
  · have hin : s.is_this_thread_in caller = true := if_pos hlast
    have hkey := h caller hlast
    rw [hin] at hthrows ⊢
    constructor
    · intro hexact _
      exact hkey.mp (hexact.1.mp rfl)
    · intro hcurrent
      have hmember := hkey.mpr (hcurrent hlast)
      exact ⟨iff_of_true rfl hmember, fun _ => hmember⟩
  · have hin : s.is_this_thread_in caller = s.isKey caller := if_neg hlast
    rw [hin] at hthrows ⊢
    exact iff_of_true ⟨Iff.rfl, hthrows⟩ fun hsame => absurd hsame hlast

theorem answers_remove_thread {get_id : Option Nat} (hremove : s.remove_thread get_id = some t) :
    t.answers = s.answers := by
  simp only [remove_thread] at hremove
  split at hremove
  · exact Option.some.inj hremove ▸ rfl
  · split at hremove
    · exact Option.some.inj hremove ▸ rfl
    · split at hremove
      · cases hremove
      · exact Option.some.inj hremove ▸ rfl

/-- `join_all` throws for a thread that it takes for a member. -/
theorem answers_join_all (s : Group) (caller : Nat) : (s.join_all caller).answers =
    (s.answer caller (s.is_this_thread_in caller)).answers := by
  rw [join_all]
  split
  · next hin => rw [hin]
  · next hin => rw [Bool.eq_false_iff.mpr hin, joinThreads]

/-- A step records the answer to the thread that asks. -/
theorem answers_step (moves : step s a = some t) :
    a.asks = none ∧ t.answers = s.answers ∨
      ∃ caller throws, a.asks = some caller ∧
        (throws = true → s.is_this_thread_in caller = true) ∧
        t.answers =
          s.answers ++ [⟨caller, s.is_this_thread_in caller, s.isKey caller, throws⟩] := by
  obtain ⟨id, rfl, rfl⟩ | ⟨get_id, rfl, hremove⟩ | ⟨caller, rfl, rfl⟩ | ⟨caller, rfl, rfl⟩ |
    ⟨hnone, hsame⟩ := step_moves moves
  · exact Or.inl ⟨rfl, rfl⟩
  · exact Or.inl ⟨rfl, answers_remove_thread hremove⟩
  · exact Or.inr ⟨caller, _, rfl, id, answers_join_all s caller⟩
  · exact Or.inr ⟨caller, false, rfl, nofun, rfl⟩
  · exact Or.inl ⟨hnone, hsame.answers⟩

/-- Every answer so far was exact. -/
def AllExact (s : Group) : Prop := ∀ a ∈ s.answers, a.Exact

/-- One step leaves all answers exact when they were and the step is current. -/
theorem allExact_step_iff (h : Sound s) (moves : step s a = some t) :
    AllExact t ↔ AllExact s ∧ Current s a := by
  rcases answers_step moves with ⟨hnone, hsame⟩ | ⟨caller, throws, hasks, hthrows, hanswers⟩
  · have hcurrent : Current s a := fun caller hcaller => by
      rw [hnone] at hcaller
      cases hcaller
    rw [AllExact, hsame, and_iff_left hcurrent, AllExact]
  · have hcurrent : Current s a ↔ (s.thread_id_ = some caller → s.removed = false) := by
      constructor
      · exact fun hcurrent => hcurrent caller hasks
      · intro hlast other hother
        obtain rfl := Option.some.inj (hasks.symm.trans hother)
        exact hlast
    rw [hcurrent, ← exact_answer_iff h caller hthrows, AllExact, hanswers, AllExact]
    simp only [List.mem_append, List.mem_singleton, or_imp, forall_and, forall_eq]

/-- In a history every answer is exact, and `join_all` throws only for members,
exactly when no thread ever asks with the id of the thread created last after that
one has left the map. -/
theorem membership_exact_iff {as : List Action} (run : Run step anyStep init as s) :
    AllExact s ↔ Run step Current init as s := by
  rw [run.iff_guarded (fun _ _ _ => sound_step) (fun _ _ _ h moves => allExact_step_iff h moves)
    sound_init]
  exact and_iff_right nofun

/-- A group with one thread, which asks itself. -/
theorem membership_exact_iff_member : ∃ s : Group, s.answers = [⟨1, true, true, false⟩] ∧
    (AllExact s ↔ Run step Current init
      [.start 0, .create_thread 1, .is_this_thread_in 1] s) := by
  have run : Run step anyStep init [.start 0, .create_thread 1, .is_this_thread_in 1] _ :=
    Run.next trivial rfl <| Run.next trivial rfl <| Run.next trivial rfl Run.halt
  exact ⟨_, rfl, membership_exact_iff run⟩

/-- The group is joined, and the system gives the id of its thread to another one:
that thread is taken for a member, and `join_all` throws although the group is
empty. -/
theorem not_membership_exact : ∃ (as : List Action) (s : Group), Run step anyStep init as s ∧
    s.threads_ = [] ∧
    s.answers = [⟨0, false, false, false⟩, ⟨1, true, false, false⟩, ⟨1, true, false, true⟩] ∧
    ¬ AllExact s := by
  have run : Run step anyStep init [.start 0, .create_thread 1, .join_all 0, .start 1,
      .is_this_thread_in 1, .join_all 1] _ :=
    Run.next trivial rfl <| Run.next trivial rfl <| Run.next trivial rfl <|
      Run.next trivial rfl <| Run.next trivial rfl <| Run.next trivial rfl Run.halt
  refine ⟨_, _, run, rfl, rfl, ?_⟩
  intro hall
  have hasked := hall ⟨1, true, false, false⟩ (List.mem_cons_of_mem _ List.mem_cons_self)
  exact absurd hasked (by decide)

end Group

end FFZKit.Thread.ThreadGroup
