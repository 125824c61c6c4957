import Mathlib.Data.List.Basic

/-!
# Runs of a partial step function

A component is given by a step function that returns no state for an action
it does not allow. Nondeterminism is the choice of the action, so a run is
the list of actions taken. A run may be restricted to steps that meet a
condition on the state before the step and the action.
-/

namespace FFZKit.Foundations.Transition

variable {σ α : Type*}

/-- A run from the first state to the last whose every step meets `guard`. -/
inductive Run (step : σ → α → Option σ) (guard : σ → α → Prop) :
    σ → List α → σ → Prop
  | halt {s} : Run step guard s [] s
  | next {s a t as u} (meets : guard s a) (moves : step s a = some t)
      (tail : Run step guard t as u) : Run step guard s (a :: as) u

/-- The condition met by every step. -/
def anyStep : σ → α → Prop := fun _ _ => True

/-- The condition met by the steps that have the property `P`. -/
def stepsWith (step : σ → α → Option σ) (P : σ → α → σ → Prop) : σ → α → Prop :=
  fun s a => ∀ t, step s a = some t → P s a t

/-- Follow a list of actions, stopping at the first one that is not allowed. -/
def exec (step : σ → α → Option σ) : σ → List α → Option σ
  | s, [] => some s
  | s, a :: as =>
      match step s a with
      | none => none
      | some t => exec step t as

variable {step : σ → α → Option σ} {guard other : σ → α → Prop}

/-- Executing a list of actions that are allowed in every state produces the
run with exactly these actions. -/
theorem run_of_exec {s t : σ} {as : List α} (h : exec step s as = some t)
    (meets : ∀ a ∈ as, ∀ s, guard s a) : Run step guard s as t := by
  induction as generalizing s with
  | nil =>
      obtain rfl : s = t := by simpa [exec] using h
      exact Run.halt
  | cons a as ih =>
      cases hs : step s a with
      | none => simp [exec, hs] at h
      | some u =>
          refine Run.next (meets a (by simp) s) hs (ih ?_ ?_)
          · simpa [exec, hs] using h
          · exact fun b hb => meets b (by simp [hb])

/-- The steps that meet a condition. -/
def checked (step : σ → α → Option σ) (guard : σ → α → Prop) [∀ s a, Decidable (guard s a)]
    (s : σ) (a : α) : Option σ :=
  if guard s a then step s a else none

/-- A condition may be checked while a list of actions is executed. -/
theorem run_of_checked [∀ s a, Decidable (guard s a)] {s t : σ} {as : List α}
    (h : exec (checked step guard) s as = some t) : Run step guard s as t := by
  induction as generalizing s with
  | nil =>
      obtain rfl : s = t := by simpa [exec] using h
      exact Run.halt
  | cons a as ih =>
      rw [exec] at h
      cases hs : checked step guard s a with
      | none => simp [hs] at h
      | some u =>
          rw [hs] at h
          simp only [checked, Option.ite_none_right_eq_some] at hs
          exact Run.next hs.1 hs.2 (ih h)

/-- A list of actions leads to at most one state. -/
theorem Run.deterministic {s t t' : σ} {as : List α} (run : Run step guard s as t)
    (run' : Run step other s as t') : t = t' := by
  induction run with
  | halt => cases run'; rfl
  | next _ moves _ ih =>
      cases run' with
      | next _ moves' tail' =>
          obtain rfl := Option.some.inj (moves.symm.trans moves')
          exact ih tail'

theorem Run.append {s t u : σ} {as bs : List α} (run : Run step guard s as t)
    (tail : Run step guard t bs u) : Run step guard s (as ++ bs) u := by
  induction run with
  | halt => exact tail
  | next meets moves _ ih => exact Run.next meets moves (ih tail)

theorem Run.single {s t : σ} {a : α} (meets : guard s a) (moves : step s a = some t) :
    Run step guard s [a] t :=
  Run.next meets moves Run.halt

/-- A run of a concatenation passes through a state between its two parts. -/
theorem Run.split {s u : σ} {as bs : List α} (run : Run step guard s (as ++ bs) u) :
    ∃ t, Run step guard s as t ∧ Run step guard t bs u := by
  induction as generalizing s with
  | nil => exact ⟨s, Run.halt, run⟩
  | cons a as ih =>
      cases run with
      | next meets moves tail =>
          obtain ⟨t, hfront, hback⟩ := ih tail
          exact ⟨t, Run.next meets moves hfront, hback⟩

/-- A run meets the condition throughout, or some step of it breaks it. -/
theorem Run.guarded_or_broken {s t : σ} {as : List α} (run : Run step other s as t) :
    Run step guard s as t ∨
      ∃ front a back u u', as = front ++ a :: back ∧ Run step other s front u ∧
        ¬ guard u a ∧ step u a = some u' ∧ Run step other u' back t := by
  induction run with
  | halt => exact Or.inl Run.halt
  | @next s a t as u meets moves tail ih =>
      by_cases hguard : guard s a
      · rcases ih with guarded | ⟨front, b, back, v, v', rfl, hfront, hbreak⟩
        · exact Or.inl (Run.next hguard moves guarded)
        · exact Or.inr ⟨a :: front, b, back, v, v', rfl, Run.next meets moves hfront, hbreak⟩
      · exact Or.inr ⟨[], a, as, s, t, rfl, Run.halt, hguard, moves, tail⟩

/-- A property that every allowed step preserves holds at the end of a run. -/
theorem Run.invariant {P : σ → Prop} {s t : σ} {as : List α}
    (run : Run step guard s as t)
    (preserved : ∀ s a t, guard s a → step s a = some t → P s → P t)
    (hs : P s) : P t := by
  induction run with
  | halt => exact hs
  | next meets moves _ ih => exact ih (preserved _ _ _ meets moves hs)

/-- A run keeps its invariant, and the invariant lets it meet another condition. -/
theorem Run.imp {P : σ → Prop} {s t : σ} {as : List α} (run : Run step guard s as t)
    (preserved : ∀ s a t, guard s a → step s a = some t → P s → P t)
    (imp : ∀ s a t, P s → step s a = some t → guard s a → other s a)
    (hs : P s) : Run step other s as t := by
  induction run with
  | halt => exact Run.halt
  | next meets moves _ ih =>
      exact Run.next (imp _ _ _ hs moves meets) moves (ih (preserved _ _ _ meets moves hs))

/-- What holds of every action of a run may be taken into its condition. -/
theorem Run.and_mem {P : α → Prop} {s t : σ} {as : List α} (run : Run step guard s as t)
    (h : ∀ a ∈ as, P a) : Run step (fun s a => guard s a ∧ P a) s as t := by
  induction run with
  | halt => exact Run.halt
  | next meets moves _ ih =>
      obtain ⟨hfirst, hrest⟩ := List.forall_mem_cons.mp h
      exact Run.next ⟨meets, hfirst⟩ moves (ih hrest)

/-- A view that hidden actions do not change and the others act on makes the
same run without the hidden actions. -/
theorem Run.erase {view : σ → σ} {hidden : α → Prop} [DecidablePred hidden] {s t : σ}
    {as : List α} (run : Run step guard s as t)
    (hide : ∀ s a t, guard s a → step s a = some t → hidden a → view t = view s)
    (keep : ∀ s a t, guard s a → step s a = some t → ¬ hidden a →
      other (view s) a ∧ step (view s) a = some (view t)) :
    Run step other (view s) (as.filter fun a => ¬ hidden a) (view t) := by
  induction run with
  | halt => exact Run.halt
  | @next s a t as u meets moves _ ih =>
      by_cases hhidden : hidden a
      · rw [List.filter_cons_of_neg (by simpa using hhidden), ← hide s a t meets moves hhidden]
        exact ih
      · rw [List.filter_cons_of_pos (by simpa using hhidden)]
        obtain ⟨hmeets, hmoves⟩ := keep s a t meets moves hhidden
        exact Run.next hmeets hmoves ih

/-- Two conditions that agree wherever a common invariant holds restrict runs alike. -/
theorem Run.congr {P : σ → Prop} {s t : σ} {as : List α}
    (preserved : ∀ s a t, guard s a → step s a = some t → P s → P t)
    (agree : ∀ s a t, P s → step s a = some t → (guard s a ↔ other s a))
    (hs : P s) : Run step guard s as t ↔ Run step other s as t := by
  constructor
  · intro run
    exact run.imp preserved (fun s a t hs moves => (agree s a t hs moves).mp) hs
  · intro run
    apply run.imp (P := P) _ (fun s a t hs moves => (agree s a t hs moves).mpr) hs
    intro s a t meets moves hs
    exact preserved s a t ((agree s a t hs moves).mpr meets) moves hs

/-- A property that a step keeps exactly when it meets a condition holds at the end of
a run exactly when it holds at the start and every step meets the condition. -/
theorem Run.iff_guarded {I P : σ → Prop} {s t : σ} {as : List α} (run : Run step other s as t)
    (preserved : ∀ s a t, step s a = some t → I s → I t)
    (keeps : ∀ s a t, I s → step s a = some t → (P t ↔ P s ∧ guard s a))
    (hs : I s) : P t ↔ P s ∧ Run step guard s as t := by
  induction run with
  | halt => exact (and_iff_left Run.halt).symm
  | @next s a t as u _ moves tail ih =>
      rw [ih (preserved s a t moves hs), keeps s a t hs moves, and_assoc]
      apply and_congr_right
      intro _
      constructor
      · rintro ⟨meets, guarded⟩
        exact Run.next meets moves guarded
      · intro guarded
        cases guarded with
        | next meets moves' tail' =>
            obtain rfl := Option.some.inj (moves.symm.trans moves')
            exact ⟨meets, tail'⟩

/-- A measure that every allowed step decreases bounds the length of a run.
The invariant `P` may be used to show the decrease. -/
theorem Run.length_add_le {P : σ → Prop} {μ : σ → Nat} {s t : σ} {as : List α}
    (run : Run step guard s as t)
    (preserved : ∀ s a t, guard s a → step s a = some t → P s → P t)
    (decreases : ∀ s a t, guard s a → step s a = some t → P s → μ t < μ s)
    (hs : P s) : as.length + μ t ≤ μ s := by
  induction run with
  | halt => simp
  | next meets moves _ ih =>
      have htail := ih (preserved _ _ _ meets moves hs)
      have hlt := decreases _ _ _ meets moves hs
      simp only [List.length_cons]
      omega

end FFZKit.Foundations.Transition
