import FFZKit.Foundations.Pieces
import FFZKit.Util.Trim

/-!
# `File::absolutePath`

A relative path is taken from a current directory one component at a time. The
caller says whether `..` may lead above the current directory.

## Implementation notes

Paths are the bytes of a `std::string`, and `exeDir` is a parameter. There is
no result where the source takes `back` of an empty string or calls itself
without end, which it does when both directories begin with a dot.
-/

namespace FFZKit.Util

open FFZKit.Foundations

/-- `s.find(delim)` -/
def find (delim s : Bytes) : Option Nat :=
  s.tails.findIdx? fun rest => delim.isPrefixOf rest

theorem find_eq_none {delim s : Bytes} (h : find delim s = none) : ¬ delim <:+: s := by
  rw [find, List.findIdx?_eq_none_iff] at h
  rintro ⟨front, back, rfl⟩
  have hpre := h (delim ++ back) ((List.mem_tails _ _).mpr ⟨front, by simp⟩)
  rw [List.isPrefixOf_iff_prefix.mpr (List.prefix_append delim back)] at hpre
  cases hpre

/-- The delimiter is found at its first place. -/
theorem find_eq_some {delim s : Bytes} {index : Nat} (h : find delim s = some index) :
    delim <+: s.drop index ∧ ∀ j < index, ¬ delim <+: s.drop j := by
  rw [find, List.findIdx?_eq_some_iff_getElem] at h
  obtain ⟨hlt, hfound, hfirst⟩ := h
  rw [List.getElem_tails] at hfound
  refine ⟨List.isPrefixOf_iff_prefix.mp hfound, fun j hj hpre => ?_⟩
  have hnot := hfirst j hj
  rw [List.getElem_tails] at hnot
  exact hnot (List.isPrefixOf_iff_prefix.mpr hpre)

theorem find_of_absent {delim s : Bytes} (h : ¬ delim <:+: s) : find delim s = none := by
  rw [find, List.findIdx?_eq_none_iff]
  intro rest hrest
  rw [Bool.eq_false_iff, ne_eq, List.isPrefixOf_iff_prefix]
  exact fun hpre => h (hpre.isInfix.trans ((List.mem_tails _ _).mp hrest).isInfix)

theorem find_of_first {delim s : Bytes} {index : Nat} (hindex : index ≤ s.length)
    (hfound : delim <+: s.drop index) (hfirst : ∀ j < index, ¬ delim <+: s.drop j) :
    find delim s = some index := by
  rw [find, List.findIdx?_eq_some_iff_getElem]
  refine ⟨by simpa using Nat.lt_succ_of_le hindex, ?_, ?_⟩
  · rw [List.getElem_tails]
    exact List.isPrefixOf_iff_prefix.mpr hfound
  · intro j hj
    rw [List.getElem_tails, List.isPrefixOf_iff_prefix]
    exact hfirst j hj

theorem add_length_le_of_find {delim s : Bytes} {index : Nat} (h : find delim s = some index)
    (hdelim : delim ≠ []) : index + delim.length ≤ s.length := by
  have hlen := (find_eq_some h).1.length_le
  have hpos := List.length_pos_of_ne_nil hdelim
  rw [List.length_drop] at hlen
  omega

/-- The loop of `split` on what follows `last`. -/
def splitFrom (delim : Bytes) (hdelim : delim ≠ []) (rest : Bytes) : List Bytes :=
  match h : find delim rest with
  | none => if rest ≠ [] then [rest] else []
  | some index =>
      have := add_length_le_of_find h hdelim
      have := List.length_pos_of_ne_nil hdelim
      let pieces := splitFrom delim hdelim (rest.drop (index + delim.length))
      if 0 < index then rest.take index :: pieces else pieces
termination_by rest.length
decreasing_by rw [List.length_drop]; omega

/-- `split(s, delim)`, which does not return for an empty delimiter. -/
def split (s delim : Bytes) (hdelim : delim ≠ []) : List Bytes :=
  if s = [] then [s] else splitFrom delim hdelim s

theorem splitFrom_of_none {delim rest : Bytes} (hdelim : delim ≠ [])
    (h : find delim rest = none) : splitFrom delim hdelim rest = [rest].filter (· ≠ []) := by
  rw [splitFrom]
  split
  · by_cases hrest : rest = []
    · simp [hrest]
    · simp [hrest]
  · rename_i index hsome
    rw [h] at hsome
    cases hsome

theorem splitFrom_of_some {delim rest : Bytes} (hdelim : delim ≠ []) {index : Nat}
    (h : find delim rest = some index) : splitFrom delim hdelim rest =
      [rest.take index].filter (· ≠ []) ++
        splitFrom delim hdelim (rest.drop (index + delim.length)) := by
  have hle := add_length_le_of_find h hdelim
  have hpos := List.length_pos_of_ne_nil hdelim
  rw [splitFrom]
  split
  · rename_i hnone
    rw [h] at hnone
    cases hnone
  · rename_i index' hsome
    obtain rfl : index = index' := Option.some.inj (h.symm.trans hsome)
    have hrest : rest ≠ [] := List.ne_nil_of_length_pos (by omega)
    by_cases hindex : 0 < index
    · simp [hindex, hindex.ne', hrest]
    · simp [Nat.eq_zero_of_not_pos hindex]

/-- `split` keeps the pieces that are not empty. -/
theorem pieces_splitFrom {delim : Bytes} (hdelim : delim ≠ []) (rest : Bytes) :
    ∃ pieces, Pieces delim rest pieces ∧
      splitFrom delim hdelim rest = pieces.filter (· ≠ []) := by
  induction hn : rest.length using Nat.strong_induction_on generalizing rest with
  | h n ih =>
      cases hfind : find delim rest with
      | none =>
          exact ⟨[rest], .last (find_eq_none hfind), splitFrom_of_none hdelim hfind⟩
      | some index =>
          have hle := add_length_le_of_find hfind hdelim
          have hpos := List.length_pos_of_ne_nil hdelim
          obtain ⟨⟨back, hback⟩, hfirst⟩ := find_eq_some hfind
          have hdrop : rest.drop (index + delim.length) = back := by
            rw [← List.drop_drop, ← hback, List.drop_left]
          have hwhole : rest.take index ++ delim ++ back = rest := by
            rw [List.append_assoc, hback, List.take_append_drop]
          obtain ⟨pieces, hpieces, hsplit⟩ :=
            ih back.length (by rw [← hn, ← hdrop, List.length_drop]; omega) back rfl
          have hcut : Pieces delim (rest.take index ++ delim ++ back)
              (rest.take index :: pieces) := by
            apply Pieces.cut _ hpieces
            intro i hi
            rw [hwhole]
            exact hfirst i (Nat.lt_of_lt_of_le hi (List.length_take_le _ _))
          refine ⟨rest.take index :: pieces, ?_, ?_⟩
          · rwa [hwhole] at hcut
          · rw [splitFrom_of_some hdelim hfind, hdrop, hsplit, ← List.filter_append,
              List.singleton_append]

/-- A piece is not empty and the delimiter is not in it. -/
theorem mem_splitFrom {delim : Bytes} (hdelim : delim ≠ []) {rest piece : Bytes}
    (h : piece ∈ splitFrom delim hdelim rest) : piece ≠ [] ∧ ¬ delim <:+: piece := by
  obtain ⟨pieces, hpieces, hsplit⟩ := pieces_splitFrom hdelim rest
  rw [hsplit, List.mem_filter] at h
  exact ⟨by simpa using h.2, hpieces.absent hdelim piece h.1⟩

namespace File

abbrev slash : UInt8 := '/'.toUInt8

/-- `"."` -/
abbrev thisDir : Bytes := ascii "."

/-- `".."` -/
abbrev upperDir : Bytes := ascii ".."

/-- `parentDir(path)` -/
def parentDir (path : Bytes) : Option Bytes :=
  match path.getLast? with
  | none => none
  | some back =>
      let parent_dir := if back = slash then path.dropLast else path
      some (if slash ∈ parent_dir then parent_dir.rdropWhile (· ≠ slash) else parent_dir)

/-- The end of `absolutePath`: a path that does not end with a slash is a file. -/
def trimSlash (path currentPath : Bytes) : Option Bytes :=
  if path.getLast? = some slash then some currentPath
  else
    match currentPath.getLast? with
    | none => none
    | some back => some (if back = slash then currentPath.dropLast else currentPath)

/-- The loop of `absolutePath` over the components, and what follows it. -/
def enterDirs (path rootPath : Bytes) (canAccessParent : Bool) :
    Bytes → List Bytes → Option Bytes
  | currentPath, [] => trimSlash path currentPath
  | currentPath, dir :: dir_vec =>
      if dir = [] ∨ dir = thisDir then
        enterDirs path rootPath canAccessParent currentPath dir_vec
      else if dir = upperDir then
        if !canAccessParent ∧ currentPath.length ≤ rootPath.length then some rootPath
        else
          match parentDir currentPath with
          | none => none
          | some parent => enterDirs path rootPath canAccessParent parent dir_vec
      else enterDirs path rootPath canAccessParent (currentPath ++ dir ++ [slash]) dir_vec

/-- `absolutePath` once `currentPath` is known. -/
def absoluteFrom (path currentPath : Bytes) (canAccessParent : Bool) : Option Bytes :=
  if path = [] then some currentPath
  else
    match currentPath.getLast? with
    | none => none
    | some back =>
        let rootPath := if back ≠ slash then currentPath ++ [slash] else currentPath
        enterDirs path rootPath canAccessParent rootPath (split path [slash] (by decide))

/-- `absolutePath(path, current_path, can_access_parent)` -/
def absolutePath (exeDir path current_path : Bytes) (canAccessParent : Bool) : Option Bytes :=
  match current_path.head? with
  | none => absoluteFrom path exeDir canAccessParent
  | some front =>
      if front = dot then
        -- the call from here takes `exeDir` for its current directory
        if exeDir.head? = some dot then none
        else
          match absoluteFrom current_path exeDir true with
          | none => none
          | some currentPath => absoluteFrom path currentPath canAccessParent
      else absoluteFrom path current_path canAccessParent
where
  dot : UInt8 := '.'.toUInt8

end File

end FFZKit.Util
