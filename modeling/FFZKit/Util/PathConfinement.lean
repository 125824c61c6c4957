import FFZKit.Util.FilePath

/-!
# A path that may not leave its root

Without access to parents, `absolutePath` keeps the root and the names entered
below it. The length of the current path tells whether a name is left, and
`parentDir` takes the last one away.
-/

namespace FFZKit.Util.File

/-- The name of a directory or a file. -/
structure Component (name : Bytes) : Prop where
  nonempty : name ≠ []
  notThis : name ≠ thisDir
  notUpper : name ≠ upperDir
  noSlash : slash ∉ name

instance (name : Bytes) : Decidable (Component name) :=
  decidable_of_iff (name ≠ [] ∧ name ≠ thisDir ∧ name ≠ upperDir ∧ slash ∉ name)
    ⟨fun h => ⟨h.1, h.2.1, h.2.2.1, h.2.2.2⟩,
      fun h => ⟨h.nonempty, h.notThis, h.notUpper, h.noSlash⟩⟩

/-- The directory that is reached from `root` by entering the names. -/
def dirPath (root : Bytes) (names : List Bytes) : Bytes :=
  root ++ names.flatMap (· ++ [slash])

/-- The current directory with a slash at its end. -/
def rootOf (currentPath : Bytes) : Bytes :=
  if currentPath.getLast? ≠ some slash then currentPath ++ [slash] else currentPath

/-- The path is a directory below `root`, or a file in one. -/
def Below (root r : Bytes) : Prop :=
  ∃ names : List Bytes, (∀ name ∈ names, Component name) ∧
    (r = dirPath root names ∨ r ++ [slash] = dirPath root names)

/-- The names entered below a root, and none when `..` is met at the root. -/
def descend : List Bytes → List Bytes → Option (List Bytes)
  | names, [] => some names
  | names, dir :: dirs =>
      if dir = thisDir then descend names dirs
      else if dir = upperDir then if names = [] then none else descend names.dropLast dirs
      else descend (names ++ [dir]) dirs

theorem getLast?_rootOf (currentPath : Bytes) :
    (rootOf currentPath).getLast? = some slash := by
  rw [rootOf]
  split
  · rw [List.getLast?_append_cons]
    rfl
  · rename_i h
    exact not_not.mp h

section Root

variable {root : Bytes}

theorem dirPath_nil : dirPath root [] = root := by simp [dirPath]

theorem dirPath_snoc (names : List Bytes) (name : Bytes) :
    dirPath root (names ++ [name]) = dirPath root names ++ name ++ [slash] := by
  simp [dirPath]

/-- A directory below the root is longer than the root. -/
theorem length_dirPath_le_iff {names : List Bytes} :
    (dirPath root names).length ≤ root.length ↔ names = [] := by
  constructor
  · intro hle
    cases names with
    | nil => rfl
    | cons name names =>
        simp only [dirPath, List.length_append, List.flatMap_cons, List.length_singleton] at hle
        omega
  · rintro rfl
    rw [dirPath_nil]

variable (hroot : root.getLast? = some slash)
include hroot

theorem getLast?_dirPath (names : List Bytes) :
    (dirPath root names).getLast? = some slash := by
  rcases List.eq_nil_or_concat names with rfl | ⟨names, name, rfl⟩
  · rwa [dirPath_nil]
  · rw [List.concat_eq_append, dirPath_snoc, List.getLast?_append_cons]
    rfl

/-- `parentDir` takes the last name away. -/
theorem parentDir_dirPath {names : List Bytes} {name : Bytes} (h : slash ∉ name) :
    parentDir (dirPath root (names ++ [name])) = some (dirPath root names) := by
  have hupper := getLast?_dirPath hroot names
  have hkept : (dirPath root names ++ name).rdropWhile (· ≠ slash) = dirPath root names := by
    rw [List.rdropWhile, List.reverse_append, List.dropWhile_append_of_pos, ← List.rdropWhile]
    · apply FFZKit.Foundations.rdropWhile_of_back
      intro c hc
      rw [hupper, Option.mem_def, Option.some.injEq] at hc
      simp [hc]
    · intro c hc
      simpa using ne_of_mem_of_not_mem (List.mem_reverse.mp hc) h
  have hmem : slash ∈ dirPath root names ++ name :=
    List.mem_append_left _ (List.mem_of_getLast? hupper)
  rw [parentDir, dirPath_snoc, List.getLast?_concat]
  simp only [if_true, List.dropLast_concat, if_pos hmem, hkept]

/-- A path to a file is that of a directory without its last slash. -/
theorem trimSlash_dirPath (path : Bytes) (names : List Bytes) :
    ∃ r, trimSlash path (dirPath root names) = some r ∧
      (r = dirPath root names ∨ r ++ [slash] = dirPath root names) := by
  have hlast := getLast?_dirPath hroot names
  rw [trimSlash]
  split
  · exact ⟨_, rfl, Or.inl rfl⟩
  · simp only [hlast, if_pos]
    exact ⟨_, rfl, Or.inr (List.dropLast_append_getLast? _ hlast)⟩

/-- The loop walks below the root as `descend` does, and returns the root when
that leaves it. -/
theorem enterDirs_eq (path : Bytes) {dirs names : List Bytes}
    (hdirs : ∀ dir ∈ dirs, dir ≠ [] ∧ slash ∉ dir) (hnames : ∀ name ∈ names, Component name) :
    enterDirs path root false (dirPath root names) dirs =
      match descend names dirs with
      | none => some root
      | some entered => trimSlash path (dirPath root entered) := by
  induction dirs generalizing names with
  | nil => rfl
  | cons dir dirs ih =>
      obtain ⟨hdir, hrest⟩ := List.forall_mem_cons.mp hdirs
      rw [enterDirs, descend]
      by_cases hthis : dir = thisDir
      · rw [if_pos (Or.inr hthis), if_pos hthis]
        exact ih hrest hnames
      · rw [if_neg (by simp [hdir.1, hthis]), if_neg hthis]
        by_cases hupper : dir = upperDir
        · rw [if_pos hupper, if_pos hupper]
          by_cases hempty : names = []
          · rw [if_pos ⟨rfl, length_dirPath_le_iff.mpr hempty⟩, if_pos hempty]
          · rw [if_neg fun h => hempty (length_dirPath_le_iff.mp h.2), if_neg hempty]
            rcases List.eq_nil_or_concat names with rfl | ⟨front, name, rfl⟩
            · exact absurd rfl hempty
            · rw [List.concat_eq_append] at hnames ⊢
              obtain ⟨hfront, hname⟩ := List.forall_mem_append.mp hnames
              rw [parentDir_dirPath hroot (hname name (by simp)).noSlash, List.dropLast_concat]
              exact ih hrest hfront
        · rw [if_neg hupper, if_neg hupper, ← dirPath_snoc]
          apply ih hrest
          intro name hname
          rcases List.mem_append.mp hname with hname | hname
          · exact hnames name hname
          · obtain rfl := List.mem_singleton.mp hname
            exact ⟨hdir.1, hthis, hupper, hdir.2⟩

end Root

/-- Only names are entered. -/
theorem descend_components {dirs names entered : List Bytes} (h : descend names dirs = some entered)
    (hdirs : ∀ dir ∈ dirs, dir ≠ [] ∧ slash ∉ dir) (hnames : ∀ name ∈ names, Component name) :
    ∀ name ∈ entered, Component name := by
  induction dirs generalizing names with
  | nil =>
      obtain rfl := Option.some.inj h
      exact hnames
  | cons dir dirs ih =>
      obtain ⟨hdir, hrest⟩ := List.forall_mem_cons.mp hdirs
      rw [descend] at h
      split at h
      · exact ih h hrest hnames
      · rename_i hthis
        split at h
        · split at h
          · cases h
          · exact ih h hrest fun name hname => hnames name (List.mem_of_mem_dropLast hname)
        · rename_i hupper
          refine ih h hrest fun name hname => ?_
          rcases List.mem_append.mp hname with hname | hname
          · exact hnames name hname
          · obtain rfl := List.mem_singleton.mp hname
            exact ⟨hdir.1, hthis, hupper, hdir.2⟩

theorem mem_split_slash {path dir : Bytes} (hpath : path ≠ [])
    (h : dir ∈ split path [slash] (by decide)) : dir ≠ [] ∧ slash ∉ dir := by
  rw [split, if_neg hpath] at h
  obtain ⟨hdir, hinfix⟩ := mem_splitFrom _ h
  refine ⟨hdir, fun hmem => hinfix ?_⟩
  obtain ⟨front, back, rfl⟩ := List.append_of_mem hmem
  exact ⟨front, back, by simp⟩

theorem absolutePath_of_slash (exeDir path : Bytes) {currentPath : Bytes}
    (h : currentPath.head? = some slash) (canAccessParent : Bool) :
    absolutePath exeDir path currentPath canAccessParent =
      absoluteFrom path currentPath canAccessParent := by
  have hslash : slash ≠ absolutePath.dot := by decide
  simp only [absolutePath, h, if_neg hslash]

/-- From an absolute directory, `absolutePath` is the walk of `descend` below it. -/
theorem absolutePath_eq (exeDir : Bytes) {path currentPath : Bytes} (hpath : path ≠ [])
    (h : currentPath.head? = some slash) :
    absolutePath exeDir path currentPath false =
      match descend [] (split path [slash] (by decide)) with
      | none => some (rootOf currentPath)
      | some entered => trimSlash path (dirPath (rootOf currentPath) entered) := by
  rw [absolutePath_of_slash exeDir path h,
    ← enterDirs_eq (getLast?_rootOf currentPath) path (fun dir => mem_split_slash hpath)
    (List.forall_mem_nil _), dirPath_nil]
  cases hback : currentPath.getLast? with
  | none =>
      rw [List.getLast?_eq_none_iff.mp hback] at h
      cases h
  | some back =>
      simp [absoluteFrom, hpath, hback, rootOf]

/-- Without access to parents the result is below the current directory. -/
theorem absolutePath_confined (exeDir path currentPath : Bytes)
    (h : currentPath.head? = some slash) :
    ∃ r, absolutePath exeDir path currentPath false = some r ∧ Below (rootOf currentPath) r := by
  by_cases hpath : path = []
  · refine ⟨currentPath, ?_, [], List.forall_mem_nil _, ?_⟩
    · rw [absolutePath_of_slash exeDir path h, absoluteFrom, if_pos hpath]
    rw [dirPath_nil, rootOf]
    split
    · exact Or.inr rfl
    · exact Or.inl rfl
  · rw [absolutePath_eq exeDir hpath h]
    cases hwalk : descend [] (split path [slash] (by decide)) with
    | none => exact ⟨_, rfl, [], by simp, Or.inl dirPath_nil.symm⟩
    | some entered =>
        obtain ⟨r, hr, hbelow⟩ := trimSlash_dirPath (getLast?_rootOf currentPath) path entered
        refine ⟨r, hr, entered, ?_, hbelow⟩
        exact descend_components hwalk (fun dir => mem_split_slash hpath) (by simp)

theorem absolutePath_confined_escaping :
    ∃ r, absolutePath (ascii "/opt/") (ascii "a//./../../../etc/passwd") (ascii "/srv/www") false =
        some r ∧ Below (rootOf (ascii "/srv/www")) r :=
  absolutePath_confined _ _ _ rfl

end FFZKit.Util.File
