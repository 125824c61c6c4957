import Mathlib.Data.List.Infix
import Mathlib.Tactic.Common

/-!
# The pieces between the occurrences of a separator

The occurrences are found from left to right: each is the first one after the
end of the one before, so that no two overlap.
-/

namespace FFZKit.Foundations

variable {α : Type*} {sep s : List α} {pieces : List (List α)}

/-- `pieces` are what successive leftmost occurrences of `sep` leave of a list. -/
inductive Pieces (sep : List α) : List α → List (List α) → Prop
  | last {rest : List α} (absent : ¬ sep <:+: rest) : Pieces sep rest [rest]
  | cut {piece rest : List α} {pieces : List (List α)}
      (first : ∀ i < piece.length, ¬ sep <+: (piece ++ sep ++ rest).drop i)
      (tail : Pieces sep rest pieces) : Pieces sep (piece ++ sep ++ rest) (piece :: pieces)

/-- The separator is in no piece. -/
theorem Pieces.absent (h : Pieces sep s pieces) (hsep : sep ≠ []) :
    ∀ piece ∈ pieces, ¬ sep <:+: piece := by
  induction h with
  | last absent =>
      intro piece hpiece
      rw [List.mem_singleton.mp hpiece]
      exact absent
  | @cut piece rest pieces first tail ih =>
      rw [List.forall_mem_cons]
      refine ⟨?_, ih⟩
      -- an occurrence inside the piece would have been found before
      rintro ⟨front, back, rfl⟩
      apply first front.length
      · have hpos := List.length_pos_of_ne_nil hsep
        simp only [List.length_append]
        omega
      · refine ⟨back ++ sep ++ rest, ?_⟩
        simp only [List.append_assoc, List.drop_left]

/-- An occurrence after `piece` is not before the first one. -/
theorem length_le_of_first {piece rest piece' rest' : List α}
    (first : ∀ i < piece'.length, ¬ sep <+: (piece' ++ sep ++ rest').drop i)
    (heq : piece ++ sep ++ rest = piece' ++ sep ++ rest') : piece'.length ≤ piece.length := by
  by_contra hlt
  apply first piece.length (by omega)
  refine ⟨rest, ?_⟩
  rw [← heq, List.append_assoc, List.drop_left]

/-- A list has at most one division into pieces. -/
theorem Pieces.unique {pieces' : List (List α)} (h : Pieces sep s pieces)
    (h' : Pieces sep s pieces') : pieces = pieces' := by
  induction h generalizing pieces' with
  | last absent =>
      cases h' with
      | last => rfl
      | @cut piece rest => exact absurd ⟨piece, rest, rfl⟩ absent
  | @cut piece rest pieces first tail ih =>
      generalize heq : piece ++ sep ++ rest = whole at h'
      cases h' with
      | last absent => exact absurd ⟨piece, rest, heq⟩ absent
      | @cut piece' rest' pieces' first' tail' =>
          have hlen : piece.length = piece'.length :=
            Nat.le_antisymm (length_le_of_first first heq.symm) (length_le_of_first first' heq)
          rw [List.append_assoc, List.append_assoc] at heq
          obtain ⟨rfl, hrest⟩ := List.append_inj heq hlen
          rw [ih (List.append_cancel_left hrest ▸ tail')]

/-- With one element for a separator the pieces are those of `List.splitOn`. -/
theorem pieces_splitOn [DecidableEq α] (c : α) (s : List α) : Pieces [c] s (s.splitOn c) := by
  induction hn : s.length using Nat.strong_induction_on generalizing s with
  | h n ih =>
      by_cases hmem : c ∈ s
      · obtain ⟨front, back, rfl, hfront⟩ := List.eq_append_cons_of_mem hmem
        have hlen : back.length < n := by
          rw [← hn, List.length_append, List.length_cons]
          omega
        have hfirst : ∀ i < front.length, ¬ [c] <+: (front ++ [c] ++ back).drop i := by
          intro i hi hpre
          rw [List.append_assoc, List.drop_append_of_le_length hi.le,
            List.drop_eq_getElem_cons hi] at hpre
          obtain ⟨rest, hrest⟩ := hpre
          simp only [List.cons_append, List.cons.injEq] at hrest
          exact hfront (hrest.1 ▸ List.getElem_mem hi)
        have hcut := Pieces.cut hfirst (ih back.length hlen back rfl)
        rw [List.splitOn_append_cons_self_of_not_mem hfront]
        simpa using hcut
      · rw [List.splitOn_eq_singleton hmem]
        exact Pieces.last fun h => hmem ((List.singleton_infix_iff c s).mp h)

end FFZKit.Foundations
