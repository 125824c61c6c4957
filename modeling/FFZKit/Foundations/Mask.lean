import Mathlib.Tactic.Common

/-!
# Masks

A mask is a set of flags, each a bit of a word. Two masks meet when they have a flag
in common, and one is within another when it has no flag that the other lacks.
-/

namespace FFZKit.Foundations

variable {x y z : UInt32}

def Meets (x y : UInt32) : Prop := x &&& y ≠ 0

def Within (x y : UInt32) : Prop := x &&& y = x

instance (x y : UInt32) : Decidable (Within x y) := inferInstanceAs (Decidable (x &&& y = x))

theorem mask_ext (h : ∀ i, x.toBitVec.getLsbD i = y.toBitVec.getLsbD i) : x = y :=
  UInt32.eq_of_toBitVec_eq (BitVec.eq_of_getLsbD_eq fun i _ => h i)

theorem within_iff : Within x y ↔
    ∀ i, x.toBitVec.getLsbD i = true → y.toBitVec.getLsbD i = true := by
  constructor
  · intro h i hx
    have hbit := congrArg (fun mask : UInt32 => mask.toBitVec.getLsbD i) h
    simpa [hx] using hbit
  · intro h
    apply mask_ext
    intro i
    cases hx : x.toBitVec.getLsbD i with
    | false => simp [hx]
    | true => simp [hx, h i hx]

theorem meets_iff : Meets x y ↔
    ∃ i, x.toBitVec.getLsbD i = true ∧ y.toBitVec.getLsbD i = true := by
  constructor
  · intro h
    by_contra hnone
    apply h
    apply mask_ext
    intro i
    cases hx : x.toBitVec.getLsbD i with
    | false => simp [hx]
    | true =>
        have hy : y.toBitVec.getLsbD i = false := by
          cases hy : y.toBitVec.getLsbD i with
          | false => rfl
          | true => exact absurd ⟨i, hx, hy⟩ hnone
        simp [hy]
  · rintro ⟨i, hx, hy⟩ hzero
    have hbit := congrArg (fun mask : UInt32 => mask.toBitVec.getLsbD i) hzero
    simp [hx, hy] at hbit

theorem meets_comm : Meets x y ↔ Meets y x := by
  rw [Meets, Meets, UInt32.and_comm]

theorem meets_or : Meets x (y ||| z) ↔ Meets x y ∨ Meets x z := by
  simp only [meets_iff, UInt32.toBitVec_or, BitVec.getLsbD_or, Bool.or_eq_true, and_or_left,
    exists_or]

theorem not_meets_zero (x : UInt32) : ¬ Meets x 0 := by
  simp [Meets]

theorem Within.refl (x : UInt32) : Within x x := UInt32.and_self

theorem zero_within (x : UInt32) : Within 0 x := UInt32.zero_and

/-- Masks are joined side by side. -/
theorem Within.or {x' y' : UInt32} (h : Within x y) (h' : Within x' y') :
    Within (x ||| x') (y ||| y') := by
  rw [within_iff] at h h' ⊢
  intro i
  simp only [UInt32.toBitVec_or, BitVec.getLsbD_or, Bool.or_eq_true]
  exact Or.imp (h i) (h' i)

/-- A mask without a flag that the other lacks is within it. -/
theorem within_of_and_not (h : x &&& ~~~y = 0) : Within x y := by
  rw [within_iff]
  intro i hx
  have hlt : i < 32 := BitVec.lt_of_getLsbD hx
  have hbit := congrArg (fun mask : UInt32 => mask.toBitVec.getLsbD i) h
  rw [BitVec.getLsbD_eq_getElem hlt]
  simpa [hx, hlt] using hbit

end FFZKit.Foundations
