import Mathlib.Data.List.Infix

/-!
# Visits that can be stopped

A list is visited in order, with a callback that is told what was visited
before and says whether to go on.
-/

namespace FFZKit.Foundations

variable {α : Type*} {goOn : List α → α → Bool} {calls front back items : List α}

/-- The calls made by the end of the visit. -/
def visit (goOn : List α → α → Bool) : List α → List α → List α
  | calls, [] => calls
  | calls, item :: items =>
      if goOn calls item then visit goOn (calls ++ [item]) items else calls ++ [item]

/-- No item stops the visit. -/
def visitsAll (goOn : List α → α → Bool) : List α → List α → Bool
  | _, [] => true
  | calls, item :: items => goOn calls item && visitsAll goOn (calls ++ [item]) items

theorem visit_of_visitsAll (h : visitsAll goOn calls items = true) :
    visit goOn calls items = calls ++ items := by
  induction items generalizing calls with
  | nil => rw [visit, List.append_nil]
  | cons item items ih =>
      rw [visitsAll, Bool.and_eq_true] at h
      rw [visit, if_pos h.1, ih h.2, List.append_assoc, List.singleton_append]

theorem visitsAll_append (goOn : List α → α → Bool) (calls front back : List α) :
    visitsAll goOn calls (front ++ back) =
      (visitsAll goOn calls front && visitsAll goOn (calls ++ front) back) := by
  induction front generalizing calls with
  | nil => rw [List.nil_append, visitsAll, Bool.true_and, List.append_nil]
  | cons item front ih =>
      rw [List.cons_append, visitsAll, visitsAll, ih, Bool.and_assoc, List.append_assoc,
        List.singleton_append]

/-- A visit goes on behind a part that does not stop it. -/
theorem visit_append_of_visitsAll (h : visitsAll goOn calls front = true) (back : List α) :
    visit goOn calls (front ++ back) = visit goOn (calls ++ front) back := by
  induction front generalizing calls with
  | nil => rw [List.nil_append, List.append_nil]
  | cons item front ih =>
      rw [visitsAll, Bool.and_eq_true] at h
      rw [List.cons_append, visit, if_pos h.1, ih h.2, List.append_assoc, List.singleton_append]

/-- What is behind a part that stops the visit is not visited. -/
theorem visit_append_of_stopped (h : visitsAll goOn calls front = false) (back : List α) :
    visit goOn calls (front ++ back) = visit goOn calls front := by
  induction front generalizing calls with
  | nil => cases h
  | cons item front ih =>
      rw [visitsAll] at h
      rw [List.cons_append, visit, visit]
      cases hitem : goOn calls item with
      | true =>
          rw [hitem, Bool.true_and] at h
          rw [if_pos rfl, if_pos rfl, ih h]
      | false => rw [if_neg Bool.false_ne_true, if_neg Bool.false_ne_true]

theorem prefix_visit (goOn : List α → α → Bool) (calls items : List α) :
    calls <+: visit goOn calls items := by
  induction items generalizing calls with
  | nil => exact List.prefix_rfl
  | cons item items ih =>
      rw [visit]
      split
      · exact (List.prefix_append _ _).trans (ih _)
      · exact List.prefix_append _ _

theorem visit_eq_nil_iff : visit goOn [] items = [] ↔ items = [] := by
  constructor
  · intro h
    cases items with
    | nil => rfl
    | cons item items =>
        have hfront : [item] <+: visit goOn [] (item :: items) := by
          rw [visit]
          split
          · exact prefix_visit _ _ _
          · exact List.prefix_rfl
        rw [h] at hfront
        exact absurd (List.prefix_nil.mp hfront) (List.cons_ne_nil _ _)
  · rintro rfl
    rfl

/-- The visit is a part of a longer one from there, and its end when it is stopped. -/
structure VisitedIn (goOn : List α → α → Bool) (calls items final : List α) : Prop where
  isPrefix : visit goOn calls items <+: final
  ends : visitsAll goOn calls items = false → visit goOn calls items = final

namespace VisitedIn

variable {final : List α} {item : α}

theorem cons_of_goOn (h : VisitedIn goOn calls (item :: items) final)
    (hgo : goOn calls item = true) : VisitedIn goOn (calls ++ [item]) items final := by
  obtain ⟨hfront, hends⟩ := h
  rw [visit, if_pos hgo] at hfront hends
  rw [visitsAll, hgo, Bool.true_and] at hends
  exact ⟨hfront, hends⟩

theorem cons_of_stop (h : VisitedIn goOn calls (item :: items) final)
    (hgo : goOn calls item = false) : calls ++ [item] = final := by
  have hends := h.ends
  rw [visit, visitsAll, hgo] at hends
  exact hends rfl

theorem mem (h : VisitedIn goOn calls (item :: items) final) : item ∈ final := by
  refine h.isPrefix.subset ?_
  rw [visit]
  split
  · exact (prefix_visit _ _ _).subset (List.mem_append_right _ (List.mem_singleton_self _))
  · exact List.mem_append_right _ (List.mem_singleton_self _)

theorem append_left (h : VisitedIn goOn calls (front ++ back) final) :
    VisitedIn goOn calls front final := by
  obtain ⟨hfront, hends⟩ := h
  rw [visitsAll_append] at hends
  cases hall : visitsAll goOn calls front with
  | true =>
      rw [visit_append_of_visitsAll hall] at hfront
      refine ⟨?_, fun hstop => absurd (hstop.symm.trans hall) Bool.false_ne_true⟩
      rw [visit_of_visitsAll hall]
      exact (prefix_visit _ _ _).trans hfront
  | false =>
      rw [visit_append_of_stopped hall] at hfront hends
      rw [hall] at hends
      exact ⟨hfront, fun _ => hends rfl⟩

theorem append_right (h : VisitedIn goOn calls (front ++ back) final)
    (hall : visitsAll goOn calls front = true) :
    VisitedIn goOn (calls ++ front) back final := by
  obtain ⟨hfront, hends⟩ := h
  rw [visit_append_of_visitsAll hall] at hfront hends
  rw [visitsAll_append, hall, Bool.true_and] at hends
  exact ⟨hfront, hends⟩

end VisitedIn

end FFZKit.Foundations
