import Mathlib.Data.Finset.Card
import Mathlib.Tactic.Common

/-!
# `semaphore`

Every locked section is one operation. A thread inside `wait` that found
`_count` at zero is `blocked` in the condition variable until a notification,
or a spurious wake-up, makes it `notified`: it will lock the mutex and test
`_count` again.
-/

namespace FFZKit.Thread

/-- `_count` and the threads inside `_condition.wait`. -/
structure Semaphore (Thread : Type*) where
  count : Nat
  blocked : Finset Thread
  notified : Finset Thread

namespace Semaphore

variable {Thread : Type*}

def init : Semaphore Thread := ⟨0, ∅, ∅⟩

/-- No thread is blocked beside a count that nobody is about to take. -/
structure WellPosted (s : Semaphore Thread) : Prop where
  disjoint : Disjoint s.blocked s.notified
  claimed : s.blocked.Nonempty → s.count ≤ s.notified.card

theorem wellPosted_init : WellPosted (init : Semaphore Thread) where
  disjoint := by simp [init]
  claimed := by simp [init]

variable [DecidableEq Thread]

/-- The thread is put back to the mutex of `wait`. -/
def wake (s : Semaphore Thread) (t : Thread) : Semaphore Thread :=
  { s with blocked := s.blocked.erase t, notified := insert t s.notified }

/-- `notify_one` wakes the chosen blocked thread, and nothing when there is none. -/
def notifyOne (s : Semaphore Thread) (choice : Option Thread) : Option (Semaphore Thread) :=
  match choice with
  | none => if s.blocked = ∅ then some s else none
  | some t => if t ∈ s.blocked then some (s.wake t) else none

def notifyAll (s : Semaphore Thread) : Semaphore Thread :=
  { s with blocked := ∅, notified := s.notified ∪ s.blocked }

/-- `post(n)`: the locked section, with the thread that `notify_one` chooses. -/
def post (s : Semaphore Thread) (n : Nat) (choice : Option Thread) :
    Option (Semaphore Thread) :=
  if n = 1 then ({ s with count := s.count + n } : Semaphore Thread).notifyOne choice
  else some ({ s with count := s.count + n } : Semaphore Thread).notifyAll

/-- One pass through the loop of `wait` under the mutex: block when `_count`
is zero, else take one. -/
def block (s : Semaphore Thread) (t : Thread) : Semaphore Thread :=
  { s with blocked := insert t s.blocked, notified := s.notified.erase t }

def take (s : Semaphore Thread) (t : Thread) : Semaphore Thread :=
  { s with count := s.count - 1, notified := s.notified.erase t }

/-- A post can always choose a thread to notify. -/
theorem exists_post (s : Semaphore Thread) (n : Nat) :
    ∃ choice, (s.post n choice).isSome := by
  by_cases hn : n = 1
  · rcases s.blocked.eq_empty_or_nonempty with hempty | ⟨t, ht⟩
    · exact ⟨none, by simp [post, notifyOne, hn, hempty]⟩
    · exact ⟨some t, by simp [post, notifyOne, hn, ht]⟩
  · exact ⟨none, by simp [post, hn]⟩

/-- What a post does: the count grows by `n`, and blocked threads become
notified, one if `n` is one and there is one, all of them otherwise. -/
theorem post_eq {s s' : Semaphore Thread} {n : Nat} {choice : Option Thread}
    (h : s.post n choice = some s') : s'.count = s.count + n ∧
      ((s.blocked = ∅ ∧ s'.blocked = ∅ ∧ s'.notified = s.notified) ∨
        (∃ t ∈ s.blocked, n = 1 ∧ s'.blocked = s.blocked.erase t ∧
          s'.notified = insert t s.notified) ∨
        (n ≠ 1 ∧ s'.blocked = ∅ ∧ s'.notified = s.notified ∪ s.blocked)) := by
  unfold post at h
  split at h
  · rename_i hn
    cases choice with
    | none =>
        simp only [notifyOne, Option.ite_none_right_eq_some, Option.some.injEq] at h
        obtain ⟨hempty, rfl⟩ := h
        exact ⟨rfl, Or.inl ⟨hempty, hempty, rfl⟩⟩
    | some t =>
        simp only [notifyOne, Option.ite_none_right_eq_some, Option.some.injEq] at h
        obtain ⟨ht, rfl⟩ := h
        exact ⟨rfl, Or.inr (Or.inl ⟨t, ht, hn, rfl, rfl⟩)⟩
  · rename_i hn
    cases h
    exact ⟨rfl, Or.inr (Or.inr ⟨hn, rfl, rfl⟩)⟩

theorem WellPosted.post {s s' : Semaphore Thread} (h : s.WellPosted) {n : Nat}
    {choice : Option Thread} (hpost : s.post n choice = some s') : s'.WellPosted := by
  obtain ⟨hcount, ⟨_, hb, hn⟩ | ⟨t, ht, hone, hb, hn⟩ | ⟨_, hb, hn⟩⟩ := post_eq hpost
  · exact ⟨by simp [hb], by simp [hb]⟩
  · have hfresh : t ∉ s.notified := Finset.disjoint_left.mp h.disjoint ht
    constructor
    · rw [hb, hn, Finset.disjoint_insert_right]
      exact ⟨by simp, h.disjoint.mono_left (Finset.erase_subset _ _)⟩
    · intro _
      have hle := h.claimed ⟨t, ht⟩
      rw [hcount, hn, Finset.card_insert_of_notMem hfresh]
      omega
  · exact ⟨by simp [hb], by simp [hb]⟩

theorem WellPosted.wake {s : Semaphore Thread} (h : s.WellPosted) {t : Thread}
    (ht : t ∈ s.blocked) : (s.wake t).WellPosted := by
  have hfresh : t ∉ s.notified := Finset.disjoint_left.mp h.disjoint ht
  constructor
  · simp only [Semaphore.wake, Finset.disjoint_insert_right]
    exact ⟨by simp, h.disjoint.mono_left (Finset.erase_subset _ _)⟩
  · intro _
    have hle := h.claimed ⟨t, ht⟩
    simp only [Semaphore.wake, Finset.card_insert_of_notMem hfresh]
    omega

theorem WellPosted.block {s : Semaphore Thread} (h : s.WellPosted) (t : Thread)
    (hzero : s.count = 0) : (s.block t).WellPosted := by
  constructor
  · simp only [Semaphore.block, Finset.disjoint_insert_left]
    exact ⟨by simp, h.disjoint.mono_right (Finset.erase_subset _ _)⟩
  · intro _
    simp [Semaphore.block, hzero]

/-- A thread that takes one was notified, or never blocked; either way the
others still have theirs. -/
theorem WellPosted.take {s : Semaphore Thread} (h : s.WellPosted) (t : Thread) :
    (s.take t).WellPosted := by
  refine ⟨h.disjoint.mono_right (Finset.erase_subset _ _), fun hne => ?_⟩
  have hle := h.claimed hne
  have hcard : s.notified.card - 1 ≤ (s.notified.erase t).card := Finset.pred_card_le_card_erase
  simp only [Semaphore.take]
  omega

end Semaphore

end FFZKit.Thread
