import Std.Data.ExtTreeMap.Lemmas
import Mathlib.Data.List.Induction
import Mathlib.Data.List.Nodup

/-!
# Maps built from lists of pairs

Inserting the pairs of a list one after the other leaves, for every key, the
value of its last pair. Without repeated keys the order does not matter.
-/

namespace FFZKit.Foundations

open Std

variable {κ β : Type*} {cmp : κ → κ → Ordering} [TransCmp cmp] [LawfulEqCmp cmp]
  {m : ExtTreeMap κ β cmp} {l : List (κ × β)} {k : κ} {v : β}

theorem insertMany_of_notMem [DecidableEq κ] (h : ∀ v, (k, v) ∉ l) :
    (m.insertMany l)[k]? = m[k]? := by
  apply ExtTreeMap.getElem?_insertMany_list_of_contains_eq_false
  rw [List.contains_eq_mem, decide_eq_false_iff_not]
  intro hmem
  obtain ⟨⟨_, v⟩, hv, rfl⟩ := List.mem_map.mp hmem
  exact h v hv

/-- The last pair of a key decides its value. -/
theorem insertMany_last [DecidableEq κ] {front back : List (κ × β)} (h : ∀ w, (k, w) ∉ back) :
    (m.insertMany (front ++ (k, v) :: back))[k]? = some v := by
  rw [ExtTreeMap.insertMany_append, ExtTreeMap.insertMany_cons, insertMany_of_notMem h,
    ExtTreeMap.getElem?_insert_self]

/-- A value found in a map built from a list comes from the last pair of its key. -/
theorem exists_last_of_insertMany [DecidableEq κ]
    (h : ((∅ : ExtTreeMap κ β cmp).insertMany l)[k]? = some v) :
    ∃ front back, l = front ++ (k, v) :: back ∧ ∀ w, (k, w) ∉ back := by
  induction l using List.reverseRecOn with
  | nil => simp at h
  | append_singleton l p ih =>
      obtain ⟨j, w⟩ := p
      rw [ExtTreeMap.insertMany_append, ExtTreeMap.insertMany_list_singleton] at h
      by_cases hj : j = k
      · rw [hj, ExtTreeMap.getElem?_insert_self, Option.some.injEq] at h
        exact ⟨l, [], by rw [hj, h], by simp⟩
      · rw [ExtTreeMap.getElem?_insert, if_neg (by simpa using hj)] at h
        obtain ⟨front, back, rfl, hlast⟩ := ih h
        refine ⟨front, back ++ [(j, w)], by simp, fun u hu => ?_⟩
        rcases List.mem_append.mp hu with hu | hu
        · exact hlast u hu
        · exact hj (congrArg Prod.fst (List.mem_singleton.mp hu)).symm

/-- Without repeated keys the map holds exactly the pairs of the list. -/
theorem getElem?_insertMany_iff [DecidableEq κ] (h : (l.map Prod.fst).Nodup) :
    ((∅ : ExtTreeMap κ β cmp).insertMany l)[k]? = some v ↔ (k, v) ∈ l := by
  constructor
  · intro hget
    obtain ⟨front, back, rfl, -⟩ := exists_last_of_insertMany hget
    simp
  · intro hmem
    obtain ⟨front, back, rfl⟩ := List.append_of_mem hmem
    apply insertMany_last
    intro w hw
    rw [List.map_append, List.map_cons, List.nodup_append] at h
    exact (List.nodup_cons.mp h.2.1).1 (List.mem_map.mpr ⟨(k, w), hw, rfl⟩)

omit [LawfulEqCmp cmp] in
/-- Erasing a key that is there makes the map smaller by one. -/
theorem size_erase_add_one (h : k ∈ m) : (m.erase k).size + 1 = m.size := by
  have hsize : m.size ≠ 0 := by
    intro hzero
    have hempty : m = ∅ := by
      rw [← ExtTreeMap.isEmpty_iff, ExtTreeMap.isEmpty_eq_size_beq_zero, hzero, beq_self_eq_true]
    rw [hempty] at h
    exact ExtTreeMap.not_mem_empty h
  rw [ExtTreeMap.size_erase, if_pos (ExtTreeMap.mem_iff_contains.mp h)]
  omega

/-- Maps with the same keys have the same size. -/
theorem size_eq_of_mem_iff {γ : Type*} {n : ExtTreeMap κ γ cmp} (h : ∀ k, k ∈ m ↔ k ∈ n) :
    m.size = n.size := by
  rw [← ExtTreeMap.length_keys, ← ExtTreeMap.length_keys]
  apply List.Perm.length_eq
  rw [List.perm_ext_iff_of_nodup ExtTreeMap.nodup_keys ExtTreeMap.nodup_keys]
  simpa only [ExtTreeMap.mem_keys] using h

/-- The keys of a map as a list do not repeat. -/
theorem nodup_keys_toList : (m.toList.map Prod.fst).Nodup := by
  rw [List.Nodup, List.pairwise_map]
  apply ExtTreeMap.distinct_keys_toList.imp
  intro a b hne heq
  exact hne (heq ▸ ReflCmp.compare_self)

/-- Inserting at a key that may be there keeps the value that is there. -/
theorem getElem?_insertIfNew_eq_or [DecidableEq κ] (m : ExtTreeMap κ β cmp) (k key : κ) (v : β) :
    (m.insertIfNew k v)[key]? = (m[key]?).or (if k = key then some v else none) := by
  rw [ExtTreeMap.getElem?_insertIfNew]
  by_cases hkey : k = key
  · subst hkey
    by_cases hmem : k ∈ m
    · obtain ⟨given, hgiven⟩ :=
        Option.isSome_iff_exists.mp (ExtTreeMap.mem_iff_isSome_getElem?.mp hmem)
      rw [if_neg fun h => h.2 hmem, hgiven, Option.some_or]
    · rw [if_pos ⟨Std.ReflCmp.compare_self, hmem⟩, ExtTreeMap.getElem?_eq_none hmem,
        Option.none_or, if_pos rfl]
  · rw [if_neg fun h => hkey (Std.LawfulEqCmp.compare_eq_iff_eq.mp h.1), if_neg hkey,
      Option.or_none]

/-- A list with distinct keys holds what is looked up in it. -/
theorem lookup_eq_some_iff_mem [BEq κ] [LawfulBEq κ] {l : List (κ × β)}
    (h : (l.map Prod.fst).Nodup) {k : κ} {v : β} : l.lookup k = some v ↔ (k, v) ∈ l := by
  rw [List.lookup_eq_some_iff]
  constructor
  · rintro ⟨front, back, rfl, -⟩
    exact List.mem_append_right _ List.mem_cons_self
  · intro hmem
    obtain ⟨front, back, rfl⟩ := List.append_of_mem hmem
    refine ⟨front, back, rfl, fun p hp => bne_iff_ne.mpr fun heq => ?_⟩
    rw [List.map_append, List.map_cons, List.nodup_append] at h
    exact h.2.2 _ (List.mem_map_of_mem hp) _ List.mem_cons_self heq.symm

end FFZKit.Foundations
