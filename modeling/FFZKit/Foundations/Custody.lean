import Mathlib.Logic.Function.Basic
import Mathlib.Tactic.Common

/-!
# Objects with exactly one place

Objects are numbered in the order of their creation. A relation says which
places hold which objects. It is a custody when a function from objects to
places describes it, on the objects created so far. A custody survives when
an object moves, when one is created, and when a place is emptied.
-/

namespace FFZKit.Foundations

variable {Place : Type*}

/-- The first `n` objects are where `holder` says, and no other object is anywhere. -/
def Custody (at_ : Nat → Place → Prop) (n : Nat) : Prop :=
  ∃ holder : Nat → Place, ∀ o p, at_ o p ↔ o < n ∧ holder o = p

variable {at_ at_' : Nat → Place → Prop} {n : Nat}

theorem Custody.existsUnique (h : Custody at_ n) {o : Nat} (ho : o < n) : ∃! p, at_ o p := by
  obtain ⟨holder, hholder⟩ := h
  exact ⟨holder o, (hholder o _).mpr ⟨ho, rfl⟩, fun p hp => ((hholder o p).mp hp).2.symm⟩

theorem Custody.lt (h : Custody at_ n) {o : Nat} {p : Place} (hp : at_ o p) : o < n := by
  obtain ⟨holder, hholder⟩ := h
  exact ((hholder o p).mp hp).1

theorem Custody.unique (h : Custody at_ n) {o : Nat} {p q : Place} (hp : at_ o p) (hq : at_ o q) :
    p = q :=
  (h.existsUnique (h.lt hp)).unique hp hq

theorem Custody.congr (h : Custody at_ n) (hsame : ∀ o p, at_' o p ↔ at_ o p) :
    Custody at_' n := by
  obtain ⟨holder, hholder⟩ := h
  exact ⟨holder, fun o p => (hsame o p).trans (hholder o p)⟩

/-- An object leaves the place `p` for the place `q`. -/
theorem Custody.move (h : Custody at_ n) {o : Nat} {p q : Place} (hp : at_ o p)
    (hfrom : ∀ x, at_' x p ↔ at_ x p ∧ x ≠ o) (hto : ∀ x, at_' x q ↔ at_ x q ∨ x = o)
    (hrest : ∀ x r, r ≠ p → r ≠ q → (at_' x r ↔ at_ x r)) : Custody at_' n := by
  have ho := h.lt hp
  have honly : ∀ r, at_ o r → r = p := fun r hr => h.unique hr hp
  obtain ⟨holder, hholder⟩ := h
  refine ⟨Function.update holder o q, fun x r => ?_⟩
  by_cases hx : x = o
  · rw [hx, Function.update_self]
    constructor
    · intro hr
      by_cases hrq : r = q
      · exact ⟨ho, hrq.symm⟩
      · by_cases hrp : r = p
        · rw [hrp, hfrom] at hr
          exact absurd rfl hr.2
        · exact absurd (honly r ((hrest o r hrp hrq).mp hr)) hrp
    · rintro ⟨-, rfl⟩
      exact (hto o).mpr (Or.inr rfl)
  · rw [Function.update_of_ne hx, ← hholder]
    by_cases hrq : r = q
    · rw [hrq, hto]
      exact or_iff_left hx
    · by_cases hrp : r = p
      · rw [hrp, hfrom]
        exact and_iff_left hx
      · exact hrest x r hrp hrq

/-- The next object is created in the place `q`. -/
theorem Custody.create (h : Custody at_ n) {q : Place} (hto : ∀ x, at_' x q ↔ at_ x q ∨ x = n)
    (hrest : ∀ x r, r ≠ q → (at_' x r ↔ at_ x r)) : Custody at_' (n + 1) := by
  have hnone : ∀ r, ¬ at_ n r := fun r hr => absurd (h.lt hr) (Nat.lt_irrefl n)
  obtain ⟨holder, hholder⟩ := h
  refine ⟨Function.update holder n q, fun x r => ?_⟩
  by_cases hx : x = n
  · rw [hx, Function.update_self]
    constructor
    · intro hr
      by_cases hrq : r = q
      · exact ⟨Nat.lt_succ_self n, hrq.symm⟩
      · exact absurd ((hrest n r hrq).mp hr) (hnone r)
    · rintro ⟨-, rfl⟩
      exact (hto n).mpr (Or.inr rfl)
  · have hlt : x < n + 1 ↔ x < n := by omega
    rw [Function.update_of_ne hx, hlt, ← hholder]
    by_cases hrq : r = q
    · rw [hrq, hto]
      exact or_iff_left hx
    · exact hrest x r hrq

/-- All objects of the place `p` leave it for the place `q`. -/
theorem Custody.empty [DecidableEq Place] (h : Custody at_ n) {p q : Place} (hpq : p ≠ q)
    (hfrom : ∀ x, ¬ at_' x p) (hto : ∀ x, at_' x q ↔ at_ x q ∨ at_ x p)
    (hrest : ∀ x r, r ≠ p → r ≠ q → (at_' x r ↔ at_ x r)) : Custody at_' n := by
  obtain ⟨holder, hholder⟩ := h
  refine ⟨fun x => if holder x = p then q else holder x, fun x r => ?_⟩
  by_cases hrp : r = p
  · rw [hrp]
    refine iff_of_false (hfrom x) ?_
    rintro ⟨-, heq⟩
    simp only at heq
    split at heq
    · exact hpq heq.symm
    · rename_i hnot
      exact hnot heq
  · by_cases hrq : r = q
    · rw [hrq, hto, hholder, hholder]
      by_cases hx : holder x = p
      · simp only [hx, if_true, and_true]
        exact or_iff_right_of_imp And.left
      · simp [hx]
    · rw [hrest x r hrp hrq, hholder]
      by_cases hx : holder x = p
      · simp [hx, Ne.symm hrp, Ne.symm hrq]
      · simp [hx]

end FFZKit.Foundations
