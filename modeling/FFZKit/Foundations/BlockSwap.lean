import Mathlib.Data.List.Induction

/-!
# Exchanging adjacent blocks in place

A block of a list is reversed by exchanging its ends and moving inwards. Three
reversals exchange two adjacent blocks and keep the order inside each of them.
-/

namespace FFZKit.Foundations

variable {α : Type*}

/-- Exchange the elements at two indices. -/
def exchangeAt (l : List α) (i j : Nat) : List α :=
  match l[i]?, l[j]? with
  | some a, some b => (l.set i b).set j a
  | _, _ => l

/-- Exchange the ends of the block from `first` to `last`, and move inwards. -/
def reverseBetween (l : List α) (first last : Nat) : List α :=
  if first < last then reverseBetween (exchangeAt l first last) (first + 1) (last - 1) else l
termination_by last - first

/-- Reverse the whole of two adjacent blocks, of which the second one ends at `last` and
will begin at `first`, then each of them. -/
def swapBlocks (l : List α) (first middle last : Nat) : List α :=
  reverseBetween (reverseBetween (reverseBetween l first last) first (middle - 1)) middle last

variable {front mid back : List α} {first last : Nat}

theorem exchangeAt_append (a b : α) (hfirst : front.length = first)
    (hlast : first + mid.length + 1 = last) :
    exchangeAt (front ++ a :: (mid ++ b :: back)) first last =
      front ++ b :: (mid ++ a :: back) := by
  have hfst : (front ++ a :: (mid ++ b :: back))[first]? = some a := by
    rw [← hfirst, List.getElem?_append_right (Nat.le_refl _), Nat.sub_self]
    rfl
  have hoffset : last - front.length = mid.length + 1 := by omega
  have hlst : (front ++ a :: (mid ++ b :: back))[last]? = some b := by
    rw [List.getElem?_append_right (by omega), hoffset, List.getElem?_cons_succ,
      List.getElem?_append_right (Nat.le_refl _), Nat.sub_self]
    rfl
  have hset : (front ++ a :: (mid ++ b :: back)).set first b =
      front ++ b :: (mid ++ b :: back) := by
    rw [← hfirst, List.set_append_right _ _ (Nat.le_refl _), Nat.sub_self]
    rfl
  simp only [exchangeAt, hfst, hlst, hset]
  rw [List.set_append_right _ _ (by omega), hoffset, List.set_cons_succ,
    List.set_append_right _ _ (Nat.le_refl _), Nat.sub_self]
  rfl

/-- The loop reverses the block between its ends, and touches nothing else. -/
theorem reverseBetween_append (hfirst : front.length = first)
    (hlast : first + mid.length = last + 1) :
    reverseBetween (front ++ (mid ++ back)) first last = front ++ (mid.reverse ++ back) := by
  induction mid using List.bidirectionalRec generalizing front back first last with
  | nil =>
      rw [List.length_nil] at hlast
      rw [reverseBetween, if_neg (by omega), List.reverse_nil]
  | singleton a =>
      rw [List.length_singleton] at hlast
      rw [reverseBetween, if_neg (by omega), List.reverse_singleton]
  | cons_append a mid b ih =>
      simp only [List.length_cons, List.length_append, List.length_nil] at hlast
      have hsides : front ++ (a :: (mid ++ [b]) ++ back) = front ++ a :: (mid ++ b :: back) := by
        simp
      have hinner : front ++ b :: (mid ++ a :: back) = (front ++ [b]) ++ (mid ++ a :: back) := by
        simp
      rw [hsides, reverseBetween, if_pos (by omega),
        exchangeAt_append a b hfirst (by omega), hinner, ih (by simp [hfirst]) (by omega)]
      simp

/-- Three reversals exchange two adjacent blocks. -/
theorem swapBlocks_append {a b : List α} {middle : Nat} (hfirst : front.length = first)
    (hpos : 0 < first) (hmiddle : first + b.length = middle)
    (hlast : middle + a.length = last + 1) :
    swapBlocks (front ++ (a ++ (b ++ back))) first middle last = front ++ (b ++ (a ++ back)) := by
  have hwhole : reverseBetween (front ++ (a ++ (b ++ back))) first last =
      front ++ (b.reverse ++ (a.reverse ++ back)) := by
    rw [← List.append_assoc a, reverseBetween_append hfirst (by rw [List.length_append]; omega),
      List.reverse_append, List.append_assoc]
  have hfront : reverseBetween (front ++ (b.reverse ++ (a.reverse ++ back))) first (middle - 1) =
      front ++ (b ++ (a.reverse ++ back)) := by
    rw [reverseBetween_append hfirst (by rw [List.length_reverse]; omega), List.reverse_reverse]
  rw [swapBlocks, hwhole, hfront, ← List.append_assoc front,
    reverseBetween_append (by rw [List.length_append]; omega)
      (by rw [List.length_reverse]; omega),
    List.reverse_reverse, List.append_assoc]

end FFZKit.Foundations
