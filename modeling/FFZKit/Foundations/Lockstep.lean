import FFZKit.Foundations.Transition

/-!
# Two systems in lockstep

A system is followed by another when each of its steps is hidden from it or is
also a step of it, from related states and with the same output. Then runs of
the one are runs of the other, and nobody can tell them apart by their outputs.
-/

namespace FFZKit.Foundations.Transition

variable {σ τ α β ω : Type*} {step : σ → α → Option σ} {step' : τ → β → Option τ}
  {guard : σ → α → Prop} {out : σ → α → List ω} {out' : τ → β → List ω}
  {view : α → Option β} {R : σ → τ → Prop}

/-- The outputs of a list of actions, up to the first one that is not allowed. -/
def outputs (step : σ → α → Option σ) (out : σ → α → List ω) : σ → List α → List ω
  | _, [] => []
  | s, a :: as =>
      match step s a with
      | none => []
      | some t => out s a ++ outputs step out t as

/-- Nothing is shown. -/
def silent {σ α : Type*} (_ : σ) (_ : α) : List Unit := []

/-- How a step is followed: not at all when it is hidden, and else by one step. -/
def Followed (step' : τ → β → Option τ) (out' : τ → β → List ω) (R : σ → τ → Prop)
    (s' : σ) (shown : List ω) (t : τ) : Option β → Prop
  | none => R s' t ∧ shown = []
  | some b => ∃ t', step' t b = some t' ∧ R s' t' ∧ shown = out' t b

theorem Followed.imp {R' : σ → τ → Prop} {s' : σ} {shown : List ω} {t : τ} {b : Option β}
    (h : Followed step' out' R s' shown t b) (imp : ∀ t', R s' t' → R' s' t') :
    Followed step' out' R' s' shown t b := by
  cases b with
  | none => exact ⟨imp t h.1, h.2⟩
  | some b =>
      obtain ⟨t', hmoves, hrelated, hshown⟩ := h
      exact ⟨t', hmoves, imp t' hrelated, hshown⟩

/-- A run is followed when each of its steps is. -/
theorem Run.lockstep {s s' : σ} {as : List α} (run : Run step guard s as s')
    (follow : ∀ s a s' t, guard s a → step s a = some s' → R s t →
      Followed step' out' R s' (out s a) t (view a)) {t : τ} (related : R s t) :
    ∃ t', Run step' anyStep t (as.filterMap view) t' ∧ R s' t' ∧
      outputs step out s as = outputs step' out' t (as.filterMap view) := by
  induction run generalizing t with
  | halt => exact ⟨t, Run.halt, related, rfl⟩
  | @next s a u as v meets moves tail ih =>
      have hfollow := follow s a u t meets moves related
      cases hview : view a with
      | none =>
          rw [hview] at hfollow
          obtain ⟨hrelated, hshown⟩ := hfollow
          obtain ⟨t', hrun, hend, houtputs⟩ := ih hrelated
          rw [List.filterMap_cons_none hview]
          refine ⟨t', hrun, hend, ?_⟩
          rw [← houtputs, outputs, moves, hshown]
          rfl
      | some b =>
          rw [hview] at hfollow
          obtain ⟨u', hmoves, hrelated, hshown⟩ := hfollow
          obtain ⟨t', hrun, hend, houtputs⟩ := ih hrelated
          rw [List.filterMap_cons_some hview]
          refine ⟨t', Run.next trivial hmoves hrun, hend, ?_⟩
          rw [outputs, outputs, moves, hmoves, hshown]
          simp only [houtputs]

end FFZKit.Foundations.Transition
