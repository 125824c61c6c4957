import Mathlib.Data.Finset.Card
import Mathlib.Data.Finset.Max

/-!
# Dropping the least elements of a finite set

The least element is taken away again and again, until a condition on it and on
the set that is left holds. What is dropped is below what is kept.
-/

namespace FFZKit.Foundations

variable {α : Type*} [LinearOrder α]

def dropLeast (stop : Finset α → α → Prop) [∀ s a, Decidable (stop s a)] (s : Finset α) :
    Finset α :=
  if h : s.Nonempty then
    if stop s (s.min' h) then s else dropLeast stop (s.erase (s.min' h))
  else s
termination_by s.card
decreasing_by exact Finset.card_erase_lt_of_mem (Finset.min'_mem s h)

variable {stop : Finset α → α → Prop} [∀ s a, Decidable (stop s a)] {s t : Finset α} {c : Nat}

theorem dropLeast_subset : dropLeast stop s ⊆ s := by
  fun_induction dropLeast stop s with
  | case1 => exact Finset.Subset.refl _
  | case2 s h _ ih => exact ih.trans (Finset.erase_subset _ _)
  | case3 => exact Finset.Subset.refl _

theorem lt_of_dropped {a b : α} (ha : a ∈ s) (hdropped : a ∉ dropLeast stop s)
    (hb : b ∈ dropLeast stop s) : a < b := by
  fun_induction dropLeast stop s with
  | case1 => exact absurd ha hdropped
  | case2 s h _ ih =>
      by_cases hmin : a = s.min' h
      · subst hmin
        have hmem := Finset.mem_erase.mp (dropLeast_subset hb)
        exact (Finset.min'_le s b hmem.2).lt_of_ne (Ne.symm hmem.1)
      · exact ih (Finset.mem_erase.mpr ⟨hmin, ha⟩) hdropped hb
  | case3 => exact absurd ha hdropped

/-- No more elements are dropped than a condition on the number allows. -/
theorem le_card_dropLeast (hstop : ∀ u : Finset α, u.card ≤ c → ∀ a, stop u a)
    (h : c ≤ s.card) : c ≤ (dropLeast stop s).card := by
  fun_induction dropLeast stop s with
  | case1 => exact h
  | case2 s hs hgo ih =>
      have hlt : c < s.card := by
        by_contra hle
        exact hgo (hstop s (Nat.not_lt.mp hle) _)
      apply ih
      rw [Finset.card_erase_of_mem (Finset.min'_mem s hs)]
      omega
  | case3 => exact h

/-- A set that is above the rest and has the least element is everything. -/
theorem eq_of_min'_mem (hsub : t ⊆ s) (hlt : ∀ a ∈ s, a ∉ t → ∀ b ∈ t, a < b)
    (h : s.Nonempty) (hmin : s.min' h ∈ t) : s = t := by
  refine Finset.Subset.antisymm (fun a ha => ?_) hsub
  by_contra hnot
  exact absurd (hlt a ha hnot _ hmin) (Finset.min'_le s a ha).not_gt

/-- The set that is kept: it is above the rest, the rest does not stop the
dropping, and its own least element does. -/
theorem dropLeast_eq (hsub : t ⊆ s) (hlt : ∀ a ∈ s, a ∉ t → ∀ b ∈ t, a < b)
    (hgo : ∀ u, t ⊆ u → u ⊆ s → ∀ a ∈ u, a ∉ t → ¬ stop u a)
    (hstop : ∀ a ∈ t, (∀ b ∈ t, a ≤ b) → stop t a) : dropLeast stop s = t := by
  fun_induction dropLeast stop s with
  | case1 s h hstopped =>
      apply eq_of_min'_mem hsub hlt h
      by_contra hnot
      exact hgo s hsub (Finset.Subset.refl s) _ (Finset.min'_mem s h) hnot hstopped
  | case2 s h hgoes ih =>
      have hnot : s.min' h ∉ t := by
        intro hmin
        obtain rfl := eq_of_min'_mem hsub hlt h hmin
        exact hgoes (hstop _ hmin fun b hb => Finset.min'_le s b hb)
      exact ih (Finset.subset_erase.mpr ⟨hsub, hnot⟩)
        (fun a ha => hlt a (Finset.mem_of_mem_erase ha))
        fun u htu hu => hgo u htu (hu.trans (Finset.erase_subset _ _))
  | case3 s h =>
      rw [Finset.not_nonempty_iff_eq_empty.mp h] at hsub ⊢
      exact (Finset.subset_empty.mp hsub).symm

end FFZKit.Foundations
