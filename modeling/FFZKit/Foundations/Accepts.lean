import FFZKit.Foundations.Lockstep

/-!
# Specifications of what is observed

A specification says which observations may take a state to which other, and may
leave the next state open. A system is seen through a view of its states. When each
of its steps is observed as the specification allows, so is the whole of every run.
-/

namespace FFZKit.Foundations.Transition

variable {σ τ α ω : Type*} {step : σ → α → Option σ} {guard : σ → α → Prop}
  {spec : τ → ω → τ → Prop} {v : σ → τ} {observe : σ → α → ω}

/-- The specification allows a list of observations between two states. -/
inductive Accepts (spec : τ → ω → τ → Prop) : τ → List ω → τ → Prop
  | nil (t : τ) : Accepts spec t [] t
  | cons {t u t' : τ} {w : ω} {ws : List ω} (head : spec t w u) (tail : Accepts spec u ws t') :
      Accepts spec t (w :: ws) t'

/-- A run is accepted when its steps are, from states in which an invariant holds. -/
theorem Run.accepted {P : σ → Prop} {s s' : σ} {as : List α} (run : Run step guard s as s')
    (preserved : ∀ s a t, guard s a → step s a = some t → P s → P t)
    (meets : ∀ s a t, guard s a → step s a = some t → P s → spec (v s) (observe s a) (v t))
    (hs : P s) :
    Accepts spec (v s) (outputs step (fun s a => [observe s a]) s as) (v s') := by
  induction run with
  | halt => exact Accepts.nil _
  | @next s a t as u hguard moves _ ih =>
      rw [outputs, moves]
      exact Accepts.cons (meets s a t hguard moves hs) (ih (preserved s a t hguard moves hs))

end FFZKit.Foundations.Transition
