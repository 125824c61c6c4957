import Mathlib.Data.Fintype.Card
import Mathlib.Data.Finset.Card
import Mathlib.Data.Fintype.Basic

/-!
# Counting the members of a finite family that are in a given condition

A system of finitely many parties keeps one value per party. `tally p f`
counts the parties whose value satisfies `p`. Changing the value of a single
party changes the tally by what that party contributed before and after.
-/

namespace FFZKit.Foundations

variable {ι β : Type*} [Fintype ι]

/-- The number of members whose value satisfies `p`. -/
def tally (p : β → Bool) (f : ι → β) : Nat :=
  (Finset.univ.filter fun i => p (f i) = true).card

theorem tally_le_card (p : β → Bool) (f : ι → β) : tally p f ≤ Fintype.card ι :=
  Finset.card_le_univ _

theorem tally_eq_zero_iff {p : β → Bool} {f : ι → β} :
    tally p f = 0 ↔ ∀ i, p (f i) = false := by
  simp [tally, Finset.filter_eq_empty_iff]

theorem tally_eq_card_iff {p : β → Bool} {f : ι → β} :
    tally p f = Fintype.card ι ↔ ∀ i, p (f i) = true := by
  rw [tally, Finset.card_eq_iff_eq_univ, Finset.filter_eq_self]
  simp

theorem tally_pos {p : β → Bool} {f : ι → β} {i : ι} (h : p (f i) = true) : 0 < tally p f :=
  Finset.card_pos.mpr ⟨i, by simp [h]⟩

theorem exists_of_tally_pos {p : β → Bool} {f : ι → β} (h : 0 < tally p f) :
    ∃ i, p (f i) = true := by
  obtain ⟨i, hi⟩ := Finset.card_pos.mp h
  exact ⟨i, (Finset.mem_filter.mp hi).2⟩

/-- Two members are counted twice. -/
theorem two_le_tally {p : β → Bool} {f : ι → β} {i j : ι} (hne : i ≠ j) (hi : p (f i) = true)
    (hj : p (f j) = true) : 2 ≤ tally p f :=
  Finset.one_lt_card.mpr ⟨i, by simp [hi], j, by simp [hj], hne⟩

/-- Changing one member replaces its contribution to the tally. -/
theorem tally_update [DecidableEq ι] (p : β → Bool) (f : ι → β) (i : ι) (b : β) :
    tally p (Function.update f i b) + (p (f i)).toNat = tally p f + (p b).toNat := by
  have hrest : ∀ g : ι → β, tally p g =
      ((Finset.univ.erase i).filter fun j => p (g j) = true).card + (p (g i)).toNat := by
    intro g
    rw [tally, ← Finset.insert_erase (Finset.mem_univ i), Finset.filter_insert]
    cases hg : p (g i) with
    | false => simp
    | true => simp [Finset.card_insert_of_notMem]
  have hsame : ((Finset.univ.erase i).filter fun j => p (Function.update f i b j) = true) =
      (Finset.univ.erase i).filter fun j => p (f j) = true := by
    apply Finset.filter_congr
    intro j hj
    rw [Function.update_of_ne (Finset.ne_of_mem_erase hj)]
  rw [hrest (Function.update f i b), hrest f, hsame, Function.update_self]
  omega

end FFZKit.Foundations
