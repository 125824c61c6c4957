import Mathlib.Data.List.Induction

/-!
# Conditions on the events of a history

A condition on every event of a list may speak of the events before it. It is
kept when an event is appended that meets the condition after the whole list.
-/

namespace FFZKit.Foundations.History

variable {ε : Type*} {P : List ε → ε → Prop} {trace : List ε}

/-- Every event meets the condition after the events before it. -/
def Throughout (P : List ε → ε → Prop) (trace : List ε) : Prop :=
  ∀ front event back, trace = front ++ event :: back → P front event

theorem throughout_nil : Throughout P [] := by
  intro front event back h
  simp at h

theorem Throughout.snoc (h : Throughout P trace) {event : ε} (hevent : P trace event) :
    Throughout P (trace ++ [event]) := by
  intro front other back heq
  induction back using List.reverseRecOn with
  | nil =>
      obtain ⟨rfl, hlast⟩ := List.append_inj' heq rfl
      cases hlast
      exact hevent
  | append_singleton back last _ =>
      rw [← List.cons_append, ← List.append_assoc] at heq
      exact h front other back (List.append_inj_left' heq rfl)

/-- Events that meet the condition after any history may be appended together. -/
theorem Throughout.append (h : Throughout P trace) {events : List ε}
    (hevents : ∀ event ∈ events, ∀ front, P front event) : Throughout P (trace ++ events) := by
  induction events using List.reverseRecOn with
  | nil => simpa using h
  | append_singleton events last ih =>
      rw [← List.append_assoc]
      apply Throughout.snoc
      · exact ih fun event hevent => hevents event (List.mem_append_left _ hevent)
      · exact hevents last (by simp) _

end FFZKit.Foundations.History
