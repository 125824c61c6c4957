import Mathlib.Data.List.Nodup
import Mathlib.Tactic.Common

/-!
# A heap of objects

Objects of one type live at addresses. No address holds two objects, so a heap
is a list of cells with different addresses. An address that was freed may be
used again. Objects may be counted by a property.
-/

namespace FFZKit.Foundations

universe u

/-- The allocated cells. -/
structure Heap (β : Type u) where
  cells : List (Nat × β)
  nodup : (cells.map Prod.fst).Nodup

namespace Heap

variable {β : Type u} {h : Heap β} {a b : Nat} {v : β}

def empty : Heap β := ⟨[], List.nodup_nil⟩

/-- What is at an address. -/
def get? (h : Heap β) (a : Nat) : Option β := h.cells.lookup a

/-- The cells at the other addresses. -/
def free (h : Heap β) (a : Nat) : Heap β where
  cells := h.cells.filter fun c => c.1 ≠ a
  nodup := h.nodup.sublist (List.filter_sublist.map _)

theorem notMem_free (h : Heap β) (a : Nat) : a ∉ (h.free a).cells.map Prod.fst := by
  intro hmem
  obtain ⟨c, hc, hkey⟩ := List.mem_map.mp hmem
  simpa [hkey] using (List.mem_filter.mp hc).2

/-- An object is put at an address, in the place of what is there. -/
def write (h : Heap β) (a : Nat) (v : β) : Heap β where
  cells := (a, v) :: (h.free a).cells
  nodup := List.nodup_cons.mpr ⟨h.notMem_free a, (h.free a).nodup⟩

/-- The number of objects that have a property. -/
def count (h : Heap β) (p : β → Bool) : Nat := h.cells.countP fun c => p c.2

@[simp] theorem get?_free_self (h : Heap β) (a : Nat) : (h.free a).get? a = none := by
  rw [get?, List.lookup_eq_none_iff]
  intro c hc
  apply bne_iff_ne.mpr
  rintro rfl
  exact h.notMem_free c.1 (List.mem_map_of_mem hc)

theorem get?_free_of_ne (h : Heap β) (hne : b ≠ a) : (h.free a).get? b = h.get? b := by
  obtain ⟨cells, nodup⟩ := h
  induction cells with
  | nil => rfl
  | cons c cells ih =>
      have htail := ih (List.nodup_cons.mp nodup).2
      simp only [get?, free] at htail ⊢
      by_cases hc : c.1 = a
      · have hother : b ≠ c.1 := fun h => hne (h.trans hc)
        rw [List.filter_cons_of_neg (by simpa using hc), htail, List.lookup_cons,
          beq_false_of_ne hother]
      · rw [List.filter_cons_of_pos (by simpa using hc), List.lookup_cons, List.lookup_cons, htail]

@[simp] theorem get?_write_self (h : Heap β) (a : Nat) (v : β) : (h.write a v).get? a = some v := by
  simp [get?, write]

theorem get?_write_of_ne (h : Heap β) (hne : b ≠ a) : (h.write a v).get? b = h.get? b := by
  rw [← get?_free_of_ne h hne]
  simp only [get?, write, List.lookup_cons, beq_false_of_ne hne]

theorem get?_write (h : Heap β) (a b : Nat) (v : β) :
    (h.write a v).get? b = if b = a then some v else h.get? b := by
  by_cases hb : b = a
  · rw [if_pos hb, hb, get?_write_self]
  · rw [if_neg hb, get?_write_of_ne h hb]

theorem free_write (h : Heap β) (a : Nat) (v : β) : (h.write a v).free a = h.free a := by
  simp only [free, write, mk.injEq]
  rw [List.filter_cons_of_neg (by simp), List.filter_filter]
  simp only [Bool.and_self]

/-- What the object at an address, if any, adds to a count. -/
def weight (p : β → Bool) : Option β → Nat
  | none => 0
  | some v => (p v).toNat

/-- A count is that of the other addresses and the weight of this one. -/
theorem count_eq_free_add (h : Heap β) (a : Nat) (p : β → Bool) :
    h.count p = (h.free a).count p + weight p (h.get? a) := by
  obtain ⟨cells, nodup⟩ := h
  induction cells with
  | nil => rfl
  | cons c cells ih =>
      obtain ⟨hfresh, hrest⟩ := List.nodup_cons.mp nodup
      have htail := ih hrest
      simp only [count, free, get?] at htail ⊢
      rw [List.countP_cons, htail, List.lookup_cons]
      by_cases hc : c.1 = a
      · have hnone : cells.lookup a = none := by
          rw [List.lookup_eq_none_iff]
          intro d hd
          have hne : a ≠ d.1 := by
            rintro rfl
            exact hfresh (hc ▸ List.mem_map_of_mem hd)
          simpa using hne
        rw [List.filter_cons_of_neg (by simpa using hc), hnone, hc, beq_self_eq_true]
        cases hp : p c.2 <;> simp [weight, hp]
      · rw [List.filter_cons_of_pos (by simpa using hc), List.countP_cons,
          beq_false_of_ne (Ne.symm hc)]
        exact Nat.add_right_comm _ _ _

theorem count_write (h : Heap β) (a : Nat) (v : β) (p : β → Bool) :
    (h.write a v).count p + weight p (h.get? a) = h.count p + (p v).toNat := by
  rw [count_eq_free_add h a p]
  have hwrite : (h.write a v).count p = (h.free a).count p + (p v).toNat := by
    cases hp : p v <;> simp [count, write, hp]
  omega

theorem count_free (h : Heap β) (a : Nat) (p : β → Bool) :
    (h.free a).count p + weight p (h.get? a) = h.count p :=
  (count_eq_free_add h a p).symm

end Heap

end FFZKit.Foundations
