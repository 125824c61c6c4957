import Mathlib.Order.Lattice
import Mathlib.Data.List.Basic

/-!
# The first least element of a list

A scan that keeps the element seen so far whose value is least, and of equals
the first, is described by what it has seen.
-/

namespace FFZKit.Foundations

variable {α β : Type*} [LinearOrder β] {f : α → β} {l seen : List α} {a b : α}

/-- No value of the list is less than that of `a`, and those before `a` are greater. -/
def FirstLeast (f : α → β) (l : List α) (a : α) : Prop :=
  ∃ front back, l = front ++ a :: back ∧ (∀ b ∈ front, f a < f b) ∧ ∀ b ∈ back, f a ≤ f b

namespace FirstLeast

theorem singleton (f : α → β) (a : α) : FirstLeast f [a] a :=
  ⟨[], [], rfl, by simp, by simp⟩

theorem le (h : FirstLeast f l a) (hb : b ∈ l) : f a ≤ f b := by
  obtain ⟨front, back, rfl, hfront, hback⟩ := h
  rcases List.mem_append.mp hb with hb | hb
  · exact (hfront b hb).le
  · rcases List.mem_cons.mp hb with rfl | hb
    · exact le_rfl
    · exact hback b hb

/-- Elements that are not less do not change what is found. -/
theorem append (h : FirstLeast f l a) (hle : ∀ b ∈ seen, f a ≤ f b) :
    FirstLeast f (l ++ seen) a := by
  obtain ⟨front, back, rfl, hfront, hback⟩ := h
  refine ⟨front, back ++ seen, by simp, hfront, ?_⟩
  intro b hb
  rcases List.mem_append.mp hb with hb | hb
  · exact hback b hb
  · exact hle b hb

/-- One more element takes the place of the one found so far if it is less. -/
theorem concat (h : FirstLeast f l a) (b : α) :
    FirstLeast f (l ++ [b]) (if f b < f a then b else a) := by
  by_cases hlt : f b < f a
  · rw [if_pos hlt]
    exact ⟨l, [], rfl, fun _ hc => hlt.trans_le (h.le hc), by simp⟩
  · rw [if_neg hlt]
    exact h.append fun c hc => List.mem_singleton.mp hc ▸ not_lt.mp hlt

/-- Reading the first element again at the end changes nothing. -/
theorem of_reread (h : FirstLeast f (a :: l ++ [a]) b) : FirstLeast f (a :: l) b := by
  obtain ⟨front, back, hlist, hfront, hback⟩ := h
  rcases List.eq_nil_or_concat back with rfl | ⟨back, c, rfl⟩
  · obtain ⟨rfl, hlast⟩ := List.append_inj' hlist rfl
    obtain rfl := List.singleton_inj.mp hlast
    exact absurd (hfront a List.mem_cons_self) (lt_irrefl _)
  · rw [List.concat_eq_append, ← List.cons_append, ← List.append_assoc] at hlist
    obtain ⟨hlist, -⟩ := List.append_inj' hlist rfl
    exact ⟨front, back, hlist, hfront, fun c hc => hback c (by simp [hc])⟩

end FirstLeast

end FFZKit.Foundations
