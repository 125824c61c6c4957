import Mathlib.Data.List.Basic

/-!
# Evaluation with a bound on the depth of the recursion

A function that may recur without end is evaluated with a bound on the depth,
and has no value where the bound is reached. It returns when from some bound
on it has the same value. The rules compose computations that return.
-/

namespace FFZKit.Foundations

variable {σ τ ι : Type*}

/-- From some bound on the value is `x`. -/
def Settles (F : Nat → Option σ) (x : σ) : Prop :=
  ∃ k₀, ∀ k, k₀ ≤ k → F k = some x

theorem settles_const (x : σ) : Settles (fun _ => some x) x :=
  ⟨0, fun _ _ => rfl⟩

theorem Settles.unique {F : Nat → Option σ} {x y : σ} (h : Settles F x) (h' : Settles F y) :
    x = y := by
  obtain ⟨k₁, hx⟩ := h
  obtain ⟨k₂, hy⟩ := h'
  have hsome := (hx _ (Nat.le_max_left k₁ k₂)).symm.trans (hy _ (Nat.le_max_right k₁ k₂))
  exact Option.some.inj hsome

theorem Settles.bind {F : Nat → Option σ} {G : Nat → σ → Option τ} {x : σ} {y : τ}
    (h : Settles F x) (h' : Settles (fun k => G k x) y) :
    Settles (fun k => (F k).bind (G k)) y := by
  obtain ⟨k₁, hF⟩ := h
  obtain ⟨k₂, hG⟩ := h'
  refine ⟨max k₁ k₂, fun k hk => ?_⟩
  have hF' : F k = some x := hF k (Nat.le_trans (Nat.le_max_left k₁ k₂) hk)
  have hG' : G k x = some y := hG k (Nat.le_trans (Nat.le_max_right k₁ k₂) hk)
  exact Option.bind_eq_some_iff.mpr ⟨x, hF', hG'⟩

theorem Settles.map {F : Nat → Option σ} {x : σ} (h : Settles F x) (f : σ → τ) :
    Settles (fun k => (F k).map f) (f x) := by
  obtain ⟨k₀, hF⟩ := h
  exact ⟨k₀, fun k hk => Option.map_eq_some_iff.mpr ⟨x, hF k hk, rfl⟩⟩

/-- A loop returns when its body does, in every state that an invariant admits. -/
theorem Settles.foldlM {f : Nat → σ → ι → Option σ} {P : σ → Prop} (l : List ι) {s : σ}
    (body : ∀ i ∈ l, ∀ s, P s → ∃ t, Settles (fun k => f k s i) t ∧ P t) (hs : P s) :
    ∃ t, Settles (fun k => l.foldlM (f k) s) t ∧ P t := by
  induction l generalizing s with
  | nil => exact ⟨s, settles_const s, hs⟩
  | cons i l ih =>
      obtain ⟨t, hbody, ht⟩ := body i List.mem_cons_self s hs
      obtain ⟨u, hrest, hu⟩ := ih (fun j hj => body j (List.mem_cons_of_mem i hj)) ht
      refine ⟨u, ?_, hu⟩
      simp only [List.foldlM_cons]
      exact hbody.bind hrest

/-- One more level of recursion does not change whether a function returns. -/
theorem Settles.succ {F G : Nat → Option σ} {x : σ} (h : Settles F x)
    (unfold : ∀ k, G (k + 1) = F k) : Settles G x := by
  obtain ⟨k₀, hF⟩ := h
  refine ⟨k₀ + 1, fun k hk => ?_⟩
  obtain ⟨j, rfl⟩ := Nat.exists_eq_add_of_le' hk
  rw [← Nat.add_assoc, unfold, hF (j + k₀) (Nat.le_add_left k₀ j)]

theorem not_settles_of_none {F : Nat → Option σ} (h : ∀ k, F k = none) (x : σ) :
    ¬ Settles F x := by
  rintro ⟨k₀, hF⟩
  have hk := hF k₀ (Nat.le_refl k₀)
  rw [h k₀] at hk
  cases hk

end FFZKit.Foundations
