import Mathlib.Data.List.TakeWhile

/-!
# Maximal runs

The maximal stretches of a list on which a predicate holds, by the places
where they start.
-/

namespace FFZKit.Foundations

variable {α : Type*} {p : α → Bool} {s : List α} {i : Nat}

/-- The predicate holds at `i` and not just before. -/
def startsRun (p : α → Bool) (s : List α) (i : Nat) : Bool :=
  s[i]?.any p && (i == 0 || !s[i - 1]?.any p)

/-- The places where a run starts, in order. -/
def runStarts (p : α → Bool) (s : List α) : List Nat :=
  (List.range s.length).filter (startsRun p s)

/-- The run that starts at `i`. -/
def runFrom (p : α → Bool) (s : List α) (i : Nat) : List α := (s.drop i).takeWhile p

/-- The maximal runs, in order. -/
def runs (p : α → Bool) (s : List α) : List (List α) := (runStarts p s).map (runFrom p s)

theorem startsRun_succ :
    startsRun p s (i + 1) = (s[i + 1]?.any p && !s[i]?.any p) := by
  simp [startsRun]

/-- The starts below `i + 1` are those below `i`, and `i` itself when a run starts there. -/
theorem filter_startsRun_succ :
    (List.range (i + 1)).filter (startsRun p s) =
      (List.range i).filter (startsRun p s) ++ if startsRun p s i then [i] else [] := by
  rw [List.range_succ, List.filter_append]
  by_cases hstart : startsRun p s i = true
  · rw [if_pos hstart, List.filter_cons_of_pos hstart, List.filter_nil]
  · rw [if_neg hstart, List.filter_cons_of_neg hstart, List.filter_nil]

/-- A list on which the predicate holds throughout is its only run. -/
theorem runs_of_forall (h : ∀ c ∈ s, p c = true) (hne : s ≠ []) : runs p s = [s] := by
  have hstarts : ∀ k, k + 1 ≤ s.length →
      (List.range (k + 1)).filter (startsRun p s) = [0] := by
    intro k
    induction k with
    | zero =>
        intro hlen
        have hzero : startsRun p s 0 = true := by
          have hfirst : p s[0] = true := h _ (List.getElem_mem hlen)
          simp only [startsRun, List.getElem?_eq_getElem hlen, Option.any_some, hfirst,
            beq_self_eq_true, Bool.true_or, Bool.and_self]
        simp [hzero]
    | succ k ih =>
        intro hlen
        have hlt : k < s.length := by omega
        have hlater : startsRun p s (k + 1) = false := by
          simp [startsRun_succ, hlt, h _ (List.getElem_mem hlt)]
        rw [filter_startsRun_succ, ih (by omega), hlater]
        rfl
  have hpos : 0 < s.length := List.length_pos_iff.mpr hne
  have hall := hstarts (s.length - 1) (by omega)
  rw [Nat.sub_add_cancel hpos] at hall
  rw [runs, runStarts, hall, List.map_singleton, runFrom, List.drop_zero,
    List.takeWhile_eq_self_iff.mpr h]

end FFZKit.Foundations
