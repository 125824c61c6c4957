import Mathlib.Data.List.DropRight

/-!
# Stripping and cutting texts

A text is a list. `strip p s` drops the elements that satisfy `p` from the
back of `s` and then from its front. A list is `Bare` when there is nothing
to drop at either end. `before` and `after` are the two sides of the first
occurrence of an element.
-/

namespace FFZKit.Foundations

variable {α : Type*} {p : α → Bool} {s t : List α}

def strip (p : α → Bool) (s : List α) : List α := (s.rdropWhile p).dropWhile p

/-- Neither end satisfies `p`. -/
structure Bare (p : α → Bool) (s : List α) : Prop where
  front : ∀ c ∈ s.head?, p c = false
  back : ∀ c ∈ s.getLast?, p c = false

instance : Decidable (Bare p s) :=
  decidable_of_iff ((s.head?.all fun c => !p c) = true ∧ (s.getLast?.all fun c => !p c) = true)
    ⟨fun h => ⟨by simpa [Option.all_eq_true] using h.1, by simpa [Option.all_eq_true] using h.2⟩,
      fun h => ⟨by simpa [Option.all_eq_true] using h.front,
        by simpa [Option.all_eq_true] using h.back⟩⟩

theorem bare_nil : Bare p [] where
  front := by simp
  back := by simp

theorem dropWhile_of_front (h : ∀ c ∈ s.head?, p c = false) : s.dropWhile p = s := by
  cases s with
  | nil => rfl
  | cons c s => simp [h c rfl]

theorem rdropWhile_of_back (h : ∀ c ∈ s.getLast?, p c = false) : s.rdropWhile p = s := by
  rw [List.rdropWhile_eq_self_iff]
  intro hs
  simp [h _ (List.getLast?_eq_some_getLast hs)]

theorem dropWhile_front : ∀ c ∈ (s.dropWhile p).head?, p c = false := by
  intro c hc
  have hnot := List.head?_dropWhile_not p s
  rw [Option.mem_def] at hc
  rw [hc] at hnot
  exact hnot

theorem rdropWhile_back : ∀ c ∈ (s.rdropWhile p).getLast?, p c = false := by
  rw [List.rdropWhile, List.getLast?_reverse]
  exact dropWhile_front

theorem strip_of_bare (h : Bare p s) : strip p s = s := by
  rw [strip, rdropWhile_of_back h.back, dropWhile_of_front h.front]

/-- Dropping from the front keeps the last element when it is not dropped. -/
theorem getLast?_dropWhile (h : ∀ c ∈ s.getLast?, p c = false) :
    (s.dropWhile p).getLast? = s.getLast? := by
  rcases List.eq_nil_or_concat s with rfl | ⟨front, c, rfl⟩
  · rfl
  · have hc : p c = false := h c (by simp)
    have hdrop : (front ++ [c]).dropWhile p = front.dropWhile p ++ [c] := by
      rw [List.dropWhile_append]
      split
      · rename_i hempty
        rw [List.isEmpty_iff.mp hempty]
        simp [hc]
      · rfl
    simp [hdrop]

theorem getLast?_strip : (strip p s).getLast? = (s.rdropWhile p).getLast? :=
  getLast?_dropWhile rdropWhile_back

theorem getLast?_strip_of_back (h : ∀ c ∈ s.getLast?, p c = false) :
    (strip p s).getLast? = s.getLast? := by
  rw [getLast?_strip, rdropWhile_of_back h]

theorem bare_strip : Bare p (strip p s) where
  front := dropWhile_front
  back := by
    rw [getLast?_strip]
    exact rdropWhile_back

/-- What is dropped at the back may as well be absent. -/
theorem strip_append_of_all (h : ∀ c ∈ t, p c = true) : strip p (s ++ t) = strip p s := by
  have hback : (s ++ t).rdropWhile p = s.rdropWhile p := by
    rw [List.rdropWhile, List.reverse_append, List.dropWhile_append_of_pos, List.rdropWhile]
    intro c hc
    exact h c (List.mem_reverse.mp hc)
  rw [strip, hback, strip]

/-- `t` is what is left of `s` without the longest prefix and the longest suffix
that satisfy `p`. -/
def Stripped (p : α → Bool) (s t : List α) : Prop :=
  ∃ front back, s = front ++ t ++ back ∧ (∀ c ∈ front, p c = true) ∧
    (∀ c ∈ back, p c = true) ∧ Bare p t

theorem stripped_strip : Stripped p s (strip p s) := by
  have hfront := List.takeWhile_append_dropWhile (p := p) (l := s.rdropWhile p)
  refine ⟨(s.rdropWhile p).takeWhile p, s.rtakeWhile p, ?_, ?_, ?_, bare_strip⟩
  · rw [strip, hfront, List.rdropWhile_append_rtakeWhile]
  · intro c hc
    exact List.mem_takeWhile_imp hc
  · intro c hc
    exact List.mem_rtakeWhile_imp hc

theorem strip_append_of_bare (hs : ∀ c ∈ s, p c = true) (ht : Bare p t) :
    strip p (s ++ t) = t := by
  rcases List.eq_nil_or_concat t with rfl | ⟨front, c, rfl⟩
  · have hall := strip_append_of_all (s := []) hs
    rw [List.append_nil]
    exact hall.trans (strip_of_bare bare_nil)
  · have hback : (s ++ front.concat c).rdropWhile p = s ++ front.concat c := by
      apply rdropWhile_of_back
      simpa using ht.back
    rw [strip, hback, List.dropWhile_append_of_pos hs, dropWhile_of_front ht.front]

/-- What is left is determined. -/
theorem stripped_iff : Stripped p s t ↔ t = strip p s := by
  constructor
  · rintro ⟨front, back, rfl, hfront, hback, hbare⟩
    rw [strip_append_of_all hback, strip_append_of_bare hfront hbare]
  · rintro rfl
    exact stripped_strip

theorem Stripped.reverse (h : Stripped p s t) : Stripped p s.reverse t.reverse := by
  obtain ⟨front, back, rfl, hfront, hback, hbare⟩ := h
  refine ⟨back.reverse, front.reverse, by simp, ?_, ?_, ?_, ?_⟩
  · exact fun c hc => hback c (List.mem_reverse.mp hc)
  · exact fun c hc => hfront c (List.mem_reverse.mp hc)
  · rw [List.head?_reverse]
    exact hbare.back
  · rw [List.getLast?_reverse]
    exact hbare.front

/-- The first element that stays is the first one that does not satisfy `p`. -/
theorem Stripped.find? (h : Stripped p s t) : s.find? (fun c => !p c) = t.head? := by
  obtain ⟨front, back, rfl, hfront, hback, hbare⟩ := h
  have hnone : ∀ u : List α, (∀ c ∈ u, p c = true) → u.find? (fun c => !p c) = none := by
    intro u hu
    rw [List.find?_eq_none]
    intro c hc
    simp [hu c hc]
  rw [List.find?_append, List.find?_append, hnone front hfront, hnone back hback,
    Option.none_or, Option.or_none]
  cases t with
  | nil => rfl
  | cons c t =>
      have hc : p c = false := hbare.front c rfl
      simp [hc]

theorem Stripped.findRev? (h : Stripped p s t) : s.findRev? (fun c => !p c) = t.getLast? := by
  rw [List.findRev?_eq_find?_reverse, h.reverse.find?, List.head?_reverse]

/-- What the front part ends with stops the stripping at the back. -/
theorem rdropWhile_append_of_back (h : ∀ c ∈ s.getLast?, p c = false) :
    (s ++ t).rdropWhile p = s ++ t.rdropWhile p := by
  have hkept : s.reverse.dropWhile p = s.reverse := by
    apply dropWhile_of_front
    rwa [List.head?_reverse]
  rw [List.rdropWhile, List.reverse_append, List.dropWhile_append, List.rdropWhile]
  split
  · rename_i hempty
    rw [hkept, List.isEmpty_iff.mp hempty]
    simp
  · simp

theorem mem_of_mem_strip {c : α} (h : c ∈ strip p s) : c ∈ s :=
  (List.rdropWhile_prefix p s).subset ((List.dropWhile_suffix p).subset h)

/-- A list that begins with something to keep is only stripped at the back. -/
theorem strip_of_front (h : ∀ c ∈ s.head?, p c = false) : strip p s = s.rdropWhile p := by
  apply dropWhile_of_front
  intro c hc
  obtain ⟨rest, hrest⟩ := List.rdropWhile_prefix p s
  apply h
  rw [← hrest, List.head?_append, hc]
  rfl

theorem head?_strip_of_front (h : ∀ c ∈ s.head?, p c = false) :
    (strip p s).head? = s.head? := by
  cases s with
  | nil => rfl
  | cons c s =>
      have hc : p c = false := h c rfl
      rw [strip_of_front h]
      obtain ⟨rest, hrest⟩ := List.rdropWhile_prefix p (c :: s)
      cases hkept : (c :: s).rdropWhile p with
      | nil =>
          have hall := List.rdropWhile_eq_nil_iff.mp hkept c (by simp)
          rw [hc] at hall
          cases hall
      | cons d kept =>
          rw [hkept, List.cons_append, List.cons.injEq] at hrest
          rw [hrest.1]
          rfl

section Cut

variable [DecidableEq α] {c : α}

/-- The part of a text before the first `c`, or all of it. -/
def before (c : α) (s : List α) : List α := s.takeWhile (· ≠ c)

/-- The part of a text after the first `c`. -/
def after (c : α) (s : List α) : List α := (s.dropWhile (· ≠ c)).drop 1

theorem before_of_notMem (h : c ∉ s) : before c s = s := by
  apply List.takeWhile_eq_self_iff.mpr
  intro d hd
  simpa using ne_of_mem_of_not_mem hd h

theorem after_of_notMem (h : c ∉ s) : after c s = [] := by
  have hall : s.dropWhile (· ≠ c) = [] := by
    apply List.dropWhile_eq_nil_iff.mpr
    intro d hd
    simpa using ne_of_mem_of_not_mem hd h
  rw [after, hall, List.drop_nil]

theorem before_append_cons (h : c ∉ s) : before c (s ++ c :: t) = s := by
  rw [before, List.takeWhile_append_of_pos]
  · simp
  · intro d hd
    simpa using ne_of_mem_of_not_mem hd h

theorem after_append_cons (h : c ∉ s) : after c (s ++ c :: t) = t := by
  rw [after, List.dropWhile_append_of_pos]
  · simp
  · intro d hd
    simpa using ne_of_mem_of_not_mem hd h

theorem notMem_before : c ∉ before c s := by
  intro h
  simpa using List.mem_takeWhile_imp h

/-- A text is cut at its first `c`. -/
theorem before_append_after (h : c ∈ s) : before c s ++ c :: after c s = s := by
  obtain ⟨front, back, rfl, hfirst⟩ := List.eq_append_cons_of_mem h
  rw [before_append_cons hfirst, after_append_cons hfirst]

/-- What is left before the cut begins like the text. -/
theorem head?_before {d : α} (h : (before c s).head? = some d) : s.head? = some d := by
  cases s with
  | nil => cases h
  | cons e s =>
      rw [before, List.takeWhile_cons] at h
      split at h
      · simpa using h
      · cases h

/-- What is left after the cut ends like the text. -/
theorem getLast?_after (h : after c s ≠ []) : (after c s).getLast? = s.getLast? := by
  by_cases hmem : c ∈ s
  · obtain ⟨front, back, rfl, hfirst⟩ := List.eq_append_cons_of_mem hmem
    rw [after_append_cons hfirst] at h ⊢
    rw [List.getLast?_append_cons, List.getLast?_cons, List.getLast?_eq_some_getLast h]
    rfl
  · exact absurd (after_of_notMem hmem) h

theorem mem_of_mem_before {d : α} (h : d ∈ before c s) : d ∈ s :=
  (List.takeWhile_prefix _).subset h

theorem mem_of_mem_after {d : α} (h : d ∈ after c s) : d ∈ s :=
  (List.dropWhile_suffix _).subset (List.mem_of_mem_drop h)

theorem idxOf?_eq (c : α) (s : List α) :
    s.idxOf? c = if c ∈ s then some (before c s).length else none := by
  split
  · rename_i h
    obtain ⟨front, back, rfl, hfirst⟩ := List.eq_append_cons_of_mem h
    rw [before_append_cons hfirst, List.idxOf?_eq_some_iff]
    refine ⟨by simp, by simp, fun j hj => ?_⟩
    rw [List.getElem_append_left hj]
    exact ne_of_mem_of_not_mem (List.getElem_mem hj) hfirst
  · rename_i h
    exact List.idxOf?_eq_none_iff.mpr h

theorem take_before (h : c ∈ s) : s.take (before c s).length = before c s := by
  obtain ⟨front, back, rfl, hfirst⟩ := List.eq_append_cons_of_mem h
  rw [before_append_cons hfirst, List.take_left]

theorem drop_before (h : c ∈ s) : s.drop ((before c s).length + 1) = after c s := by
  obtain ⟨front, back, rfl, hfirst⟩ := List.eq_append_cons_of_mem h
  rw [before_append_cons hfirst, after_append_cons hfirst, ← List.drop_drop, List.drop_left]
  rfl

end Cut

end FFZKit.Foundations
