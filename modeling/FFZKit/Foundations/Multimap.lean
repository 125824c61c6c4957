import Mathlib.Data.List.Sort

/-!
# Multimaps that keep the order of insertion

Entries stand in the order of their keys, and entries of one key in the order
in which they were inserted. An insertion goes behind all entries whose key is
not greater.
-/

namespace FFZKit.Foundations

/-- A list of entries with nondecreasing keys. -/
structure Multimap (κ β : Type*) [LinearOrder κ] where
  entries : List (κ × β)
  sorted : entries.Pairwise fun a b => a.1 ≤ b.1

namespace Multimap

variable {κ β : Type*} [LinearOrder κ] {m : Multimap κ β}

def empty : Multimap κ β := ⟨[], List.Pairwise.nil⟩

/-- The values of one key, oldest first. -/
def equalRange (m : Multimap κ β) (k : κ) : List β :=
  (m.entries.filter fun e => e.1 = k).map Prod.snd

/-- The entries behind the key `k`. -/
def above (m : Multimap κ β) (k : κ) : Multimap κ β :=
  ⟨m.entries.dropWhile fun e => e.1 ≤ k, m.sorted.sublist (List.dropWhile_sublist _)⟩

/-- The entries up to the key `k`. -/
def upTo (m : Multimap κ β) (k : κ) : List (κ × β) :=
  m.entries.takeWhile fun e => e.1 ≤ k

theorem pairwise_orderedInsert {l : List (κ × β)} (h : l.Pairwise fun a b => a.1 ≤ b.1)
    (e : κ × β) : (l.orderedInsert (fun a b => a.1 < b.1) e).Pairwise fun a b => a.1 ≤ b.1 := by
  induction l with
  | nil => simp
  | cons head tail ih =>
      obtain ⟨hhead, htail⟩ := List.pairwise_cons.mp h
      rw [List.orderedInsert_cons]
      split
      · rename_i hlt
        refine List.pairwise_cons.mpr ⟨fun other hother => ?_, h⟩
        rcases List.mem_cons.mp hother with rfl | hother
        · exact hlt.le
        · exact hlt.le.trans (hhead other hother)
      · rename_i hle
        refine List.pairwise_cons.mpr ⟨fun other hother => ?_, ih htail⟩
        rcases (List.mem_orderedInsert _).mp hother with rfl | hother
        · exact not_lt.mp hle
        · exact hhead other hother

/-- `emplace` at the upper bound of its key. -/
def emplace (m : Multimap κ β) (k : κ) (v : β) : Multimap κ β :=
  ⟨m.entries.orderedInsert (fun a b => a.1 < b.1) (k, v), pairwise_orderedInsert m.sorted (k, v)⟩

/-- `insert` of a range. -/
def insertAll (m : Multimap κ β) (l : List (κ × β)) : Multimap κ β :=
  l.foldl (fun m e => m.emplace e.1 e.2) m

theorem filter_orderedInsert {l : List (κ × β)} (h : l.Pairwise fun a b => a.1 ≤ b.1)
    (e : κ × β) (k : κ) :
    ((l.orderedInsert (fun a b => a.1 < b.1) e).filter fun a => a.1 = k) =
      l.filter (fun a => a.1 = k) ++ if e.1 = k then [e] else [] := by
  induction l with
  | nil => by_cases he : e.1 = k <;> simp [he]
  | cons head tail ih =>
      obtain ⟨hhead, htail⟩ := List.pairwise_cons.mp h
      rw [List.orderedInsert_cons]
      split
      · rename_i hlt
        by_cases he : e.1 = k
        · have hnone : (head :: tail).filter (fun a => a.1 = k) = [] := by
            rw [List.filter_eq_nil_iff]
            intro other hother
            have hle : head.1 ≤ other.1 := by
              rcases List.mem_cons.mp hother with rfl | hother
              · exact le_rfl
              · exact hhead other hother
            simpa using (he ▸ hlt.trans_le hle).ne'
          rw [List.filter_cons_of_pos (by simpa using he), hnone, if_pos he, List.nil_append]
        · rw [List.filter_cons_of_neg (by simpa using he), if_neg he, List.append_nil]
      · by_cases hk : head.1 = k
        · rw [List.filter_cons_of_pos (by simpa using hk), ih htail,
            List.filter_cons_of_pos (by simpa using hk), List.cons_append]
        · rw [List.filter_cons_of_neg (by simpa using hk), ih htail,
            List.filter_cons_of_neg (by simpa using hk)]

/-- A value joins its key as the youngest. -/
theorem equalRange_emplace (m : Multimap κ β) (j : κ) (v : β) (k : κ) :
    (m.emplace j v).equalRange k =
      m.equalRange k ++ ([(j, v)].filter fun e => e.1 = k).map Prod.snd := by
  rw [equalRange, emplace, filter_orderedInsert m.sorted, List.map_append]
  by_cases hj : j = k <;> simp [hj, equalRange]

theorem equalRange_insertAll (m : Multimap κ β) (l : List (κ × β)) (k : κ) :
    (m.insertAll l).equalRange k =
      m.equalRange k ++ (l.filter fun e => e.1 = k).map Prod.snd := by
  induction l generalizing m with
  | nil => simp [insertAll]
  | cons e l ih =>
      have hstep : m.insertAll (e :: l) = (m.emplace e.1 e.2).insertAll l := rfl
      rw [hstep, ih, equalRange_emplace, List.append_assoc, ← List.map_append,
        ← List.filter_append, List.singleton_append]

/-- The key of an insertion can be told from the map after it. -/
theorem emplace_key_injective {j k : κ} {v : β} (h : m.emplace j v = m.emplace k v) : j = k := by
  have hrange := congrArg (fun m => (m.equalRange j).length) h
  simp only [equalRange_emplace, List.length_append, Nat.add_left_cancel_iff] at hrange
  by_contra hne
  simp [Ne.symm hne] at hrange

theorem perm_emplace (m : Multimap κ β) (k : κ) (v : β) :
    (m.emplace k v).entries.Perm ((k, v) :: m.entries) :=
  List.perm_orderedInsert _ _ _

theorem perm_insertAll (m : Multimap κ β) (l : List (κ × β)) :
    (m.insertAll l).entries.Perm (m.entries ++ l) := by
  induction l generalizing m with
  | nil => simp [insertAll]
  | cons e l ih =>
      have hfirst : ((m.emplace e.1 e.2).entries ++ l).Perm (e :: m.entries ++ l) :=
        (m.perm_emplace e.1 e.2).append_right l
      exact (ih _).trans (hfirst.trans List.perm_middle.symm)

theorem mem_emplace {j : κ} {v : β} {e : κ × β} :
    e ∈ (m.emplace j v).entries ↔ e = (j, v) ∨ e ∈ m.entries :=
  List.mem_orderedInsert _

theorem mem_insertAll {l : List (κ × β)} {e : κ × β} :
    e ∈ (m.insertAll l).entries ↔ e ∈ m.entries ∨ e ∈ l := by
  induction l generalizing m with
  | nil => simp [insertAll]
  | cons head l ih =>
      have hstep : m.insertAll (head :: l) = (m.emplace head.1 head.2).insertAll l := rfl
      rw [hstep, ih, mem_emplace, List.mem_cons]
      tauto

theorem upTo_eq_filter (m : Multimap κ β) (k : κ) :
    m.upTo k = m.entries.filter fun e => e.1 ≤ k := by
  obtain ⟨l, h⟩ := m
  simp only [upTo]
  induction l with
  | nil => rfl
  | cons head tail ih =>
      obtain ⟨hhead, htail⟩ := List.pairwise_cons.mp h
      by_cases hk : head.1 ≤ k
      · rw [List.takeWhile_cons_of_pos (by simpa using hk),
          List.filter_cons_of_pos (by simpa using hk), ih htail]
      · rw [List.takeWhile_cons_of_neg (by simpa using hk), eq_comm, List.filter_eq_nil_iff]
        intro other hother
        rcases List.mem_cons.mp hother with rfl | hother
        · simpa using hk
        · simpa using (not_le.mp hk).trans_le (hhead other hother)

theorem above_eq_filter (m : Multimap κ β) (k : κ) :
    (m.above k).entries = m.entries.filter fun e => k < e.1 := by
  obtain ⟨l, h⟩ := m
  simp only [above]
  induction l with
  | nil => rfl
  | cons head tail ih =>
      obtain ⟨hhead, htail⟩ := List.pairwise_cons.mp h
      by_cases hk : head.1 ≤ k
      · rw [List.dropWhile_cons_of_pos (by simpa using hk),
          List.filter_cons_of_neg (by simpa using hk), ih htail]
      · rw [List.dropWhile_cons_of_neg (by simpa using hk), eq_comm, List.filter_eq_self]
        intro other hother
        rcases List.mem_cons.mp hother with rfl | hother
        · simpa using hk
        · simpa using (not_le.mp hk).trans_le (hhead other hother)

/-- No key is smaller than the first. -/
theorem first_le {first : κ × β} {rest : List (κ × β)} (h : m.entries = first :: rest)
    {e : κ × β} (he : e ∈ m.entries) : first.1 ≤ e.1 := by
  have hsorted := m.sorted
  rw [h] at he hsorted
  rcases List.mem_cons.mp he with rfl | he
  · exact le_rfl
  · exact (List.pairwise_cons.mp hsorted).1 e he

end Multimap

end FFZKit.Foundations
