import FFZKit.Util.PathConfinement

/-!
# A path that may leave its root

With access to parents, `absolutePath` folds the components of a path over
those of the current directory. It keeps the slash in front as long as no `..`
is met at the root of the file system: there `parentDir` leaves the empty text,
and no slash comes back to the front afterwards. A path that is no directory
loses its last slash, also when that is the one in front.
-/

namespace FFZKit.Util.File

open FFZKit.Foundations

/-- The components of a path that are not empty. -/
def components (path : Bytes) : List Bytes := (path.splitOn slash).filter (· ≠ [])

/-- `.` changes nothing, and `..` drops the last component, if there is one. -/
def enter (names : List Bytes) (dir : Bytes) : List Bytes :=
  if dir = thisDir then names else if dir = upperDir then names.dropLast else names ++ [dir]

/-- The components that are reached from those of the current directory. -/
def resolve (names dirs : List Bytes) : List Bytes := dirs.foldl enter names

/-- The text of the normalised path: a slash, the components with a slash
between them, and another at the end of a directory. -/
def normalPath (path : Bytes) (names : List Bytes) : Bytes :=
  [slash] ++ [slash].intercalate names ++
    if names ≠ [] ∧ path.getLast? = some slash then [slash] else []

/-- No `..` is met at the root. -/
def StaysBelow (names dirs : List Bytes) : Prop :=
  ∀ front back, dirs = front ++ upperDir :: back → resolve names front ≠ []

section Components

theorem splitFrom_slash (rest : Bytes) :
    splitFrom [slash] (by decide) rest = components rest := by
  obtain ⟨pieces, hpieces, hsplit⟩ := pieces_splitFrom (List.cons_ne_nil slash []) rest
  rw [hsplit, hpieces.unique (pieces_splitOn slash rest), components]

/-- `split` cuts out the components. -/
theorem split_slash {path : Bytes} (hpath : path ≠ []) :
    split path [slash] (by decide) = components path := by
  rw [split, if_neg hpath, splitFrom_slash]

theorem components_append (front back : Bytes) :
    components (front ++ slash :: back) = components front ++ components back := by
  rw [components, List.splitOn_append_cons_self, List.filter_append]
  rfl

theorem components_of_notMem {name : Bytes} (hne : name ≠ []) (hslash : slash ∉ name) :
    components name = [name] := by
  rw [components, List.splitOn_eq_singleton hslash, List.filter_cons_of_pos (by simpa using hne),
    List.filter_nil]

end Components

theorem resolve_cons (names : List Bytes) (dir : Bytes) (dirs : List Bytes) :
    resolve names (dir :: dirs) = resolve (enter names dir) dirs := rfl

/-- What stays below the root does so after its first component. -/
theorem staysBelow_cons {names dirs : List Bytes} {dir : Bytes} :
    StaysBelow names (dir :: dirs) ↔
      (dir = upperDir → names ≠ []) ∧ StaysBelow (enter names dir) dirs := by
  constructor
  · intro h
    refine ⟨fun hdir => h [] dirs (by rw [hdir, List.nil_append]), fun front back hdirs => ?_⟩
    exact h (dir :: front) back (by rw [hdirs, List.cons_append])
  · rintro ⟨hfirst, hrest⟩ front back hdirs
    cases front with
    | nil =>
        rw [List.nil_append, List.cons.injEq] at hdirs
        exact hfirst hdirs.1
    | cons first front =>
        rw [List.cons_append, List.cons.injEq] at hdirs
        obtain ⟨rfl, rfl⟩ := hdirs
        exact hrest front back rfl

instance decidableStaysBelow : (names dirs : List Bytes) → Decidable (StaysBelow names dirs)
  | _, [] => isTrue fun _ _ hdirs => absurd hdirs (by simp)
  | names, dir :: dirs =>
      have := decidableStaysBelow (enter names dir) dirs
      decidable_of_iff _ staysBelow_cons.symm

section Inside

/-- Names with a slash after each are names with a slash between them, and a last one. -/
theorem flatMap_slash {names : List Bytes} (h : names ≠ []) :
    names.flatMap (· ++ [slash]) = [slash].intercalate names ++ [slash] := by
  induction names with
  | nil => exact absurd rfl h
  | cons name names ih =>
      cases names with
      | nil => rw [List.flatMap_singleton, List.intercalate_singleton]
      | cons next names =>
          rw [List.flatMap_cons, ih (List.cons_ne_nil _ _), List.intercalate_cons_cons]
          simp only [List.append_assoc]

/-- The end of `absolutePath` gives the normalised path, but not at the root
for a path that is no directory. -/
theorem trimSlash_dirPath_iff {path : Bytes} {names : List Bytes} :
    trimSlash path (dirPath [slash] names) = some (normalPath path names) ↔
      names ≠ [] ∨ path.getLast? = some slash := by
  rw [trimSlash, getLast?_dirPath rfl, normalPath]
  by_cases hpath : path.getLast? = some slash
  · rw [if_pos hpath]
    refine iff_of_true ?_ (Or.inr hpath)
    by_cases hnames : names = []
    · rw [hnames, if_neg fun h => h.1 rfl]
      rfl
    · rw [if_pos ⟨hnames, hpath⟩, dirPath, flatMap_slash hnames, List.append_assoc]
  · rw [if_neg hpath, if_neg fun h => hpath h.2, or_iff_left hpath, List.append_nil]
    simp only [if_true, Option.some.injEq]
    by_cases hnames : names = []
    · rw [hnames]
      decide
    · refine iff_of_true ?_ hnames
      rw [dirPath, flatMap_slash hnames, ← List.append_assoc, List.dropLast_concat]

theorem notMem_enter {names : List Bytes} {dir : Bytes} (hdir : slash ∉ dir)
    (hnames : ∀ name ∈ names, slash ∉ name) : ∀ name ∈ enter names dir, slash ∉ name := by
  intro name hname
  rw [enter] at hname
  split at hname
  · exact hnames name hname
  · split at hname
    · exact hnames name (List.mem_of_mem_dropLast hname)
    · rcases List.mem_append.mp hname with hname | hname
      · exact hnames name hname
      · exact List.mem_singleton.mp hname ▸ hdir

/-- One turn of the loop enters a component, unless it is a `..` at the root. -/
theorem enterDirs_enter (path rootPath : Bytes) {dir : Bytes} {names : List Bytes}
    (hdir : dir ≠ [] ∧ slash ∉ dir) (hnames : ∀ name ∈ names, slash ∉ name)
    (hinside : dir = upperDir → names ≠ []) (dirs : List Bytes) :
    enterDirs path rootPath true (dirPath [slash] names) (dir :: dirs) =
      enterDirs path rootPath true (dirPath [slash] (enter names dir)) dirs := by
  rw [enterDirs, enter]
  by_cases hthis : dir = thisDir
  · rw [if_pos (Or.inr hthis), if_pos hthis]
  · rw [if_neg (by simp [hdir.1, hthis]), if_neg hthis]
    by_cases hupper : dir = upperDir
    · rw [if_pos hupper, if_pos hupper, if_neg (by simp)]
      rcases List.eq_nil_or_concat names with rfl | ⟨front, name, rfl⟩
      · exact absurd rfl (hinside hupper)
      · rw [List.concat_eq_append] at hnames ⊢
        rw [parentDir_dirPath rfl (hnames name (by simp)), List.dropLast_concat]
    · rw [if_neg hupper, if_neg hupper, dirPath_snoc]

/-- As long as no `..` is met at the root, the loop folds the components. -/
theorem enterDirs_resolve (path : Bytes) {dirs names : List Bytes}
    (hdirs : ∀ dir ∈ dirs, dir ≠ [] ∧ slash ∉ dir) (hnames : ∀ name ∈ names, slash ∉ name)
    (hstays : StaysBelow names dirs) (rootPath : Bytes) :
    enterDirs path rootPath true (dirPath [slash] names) dirs =
      trimSlash path (dirPath [slash] (resolve names dirs)) := by
  induction dirs generalizing names with
  | nil => rfl
  | cons dir dirs ih =>
      obtain ⟨hdir, hrest⟩ := List.forall_mem_cons.mp hdirs
      obtain ⟨hfirst, hafter⟩ := staysBelow_cons.mp hstays
      rw [enterDirs_enter path rootPath hdir hnames hfirst, resolve_cons]
      exact ih hrest (notMem_enter hdir.2 hnames) hafter

end Inside

section Outside

/-- A part at the front of a text without a slash in front has none either. -/
theorem head?_of_front {front s : Bytes} (hfront : front <+: s) (h : s.head? ≠ some slash) :
    front.head? ≠ some slash := by
  obtain ⟨back, rfl⟩ := hfront
  cases front with
  | nil => nofun
  | cons c front => exact h

theorem parentDir_front {path parent : Bytes} (h : parentDir path = some parent) :
    parent <+: path := by
  rw [parentDir] at h
  split at h
  · cases h
  · rename_i back _
    obtain rfl := Option.some.inj h
    have hcut : (if back = slash then path.dropLast else path) <+: path := by
      split
      · exact List.dropLast_prefix path
      · exact List.prefix_rfl
    generalize (if back = slash then path.dropLast else path) = cut at hcut
    split
    · exact (List.rdropWhile_prefix _ _).trans hcut
    · exact hcut

theorem trimSlash_front {path currentPath r : Bytes} (h : trimSlash path currentPath = some r) :
    r <+: currentPath := by
  rw [trimSlash] at h
  split at h
  · exact Option.some.inj h ▸ List.prefix_rfl
  · split at h
    · cases h
    · rename_i back _
      obtain rfl := Option.some.inj h
      split
      · exact List.dropLast_prefix currentPath
      · exact List.prefix_rfl

/-- No slash comes back to the front. -/
theorem enterDirs_outside {path rootPath currentPath r : Bytes} {dirs : List Bytes}
    (hdirs : ∀ dir ∈ dirs, dir ≠ [] ∧ slash ∉ dir) (hcurrent : currentPath.head? ≠ some slash)
    (h : enterDirs path rootPath true currentPath dirs = some r) : r.head? ≠ some slash := by
  induction dirs generalizing currentPath with
  | nil => exact head?_of_front (trimSlash_front h) hcurrent
  | cons dir dirs ih =>
      obtain ⟨hdir, hrest⟩ := List.forall_mem_cons.mp hdirs
      rw [enterDirs] at h
      split at h
      · exact ih hrest hcurrent h
      · split at h
        · rw [if_neg (by simp)] at h
          split at h
          · cases h
          · rename_i parent hparent
            exact ih hrest (head?_of_front (parentDir_front hparent) hcurrent) h
        · refine ih hrest ?_ h
          cases currentPath with
          | nil =>
              cases dir with
              | nil => exact absurd rfl hdir.1
              | cons c dir =>
                  intro hslash
                  exact hdir.2 (List.mem_cons.mpr (Or.inl (Option.some.inj hslash).symm))
          | cons c currentPath => exact hcurrent

/-- A `..` at the root takes the slash in front away. -/
theorem enterDirs_leaves {path rootPath r : Bytes} {dirs names : List Bytes}
    (hdirs : ∀ dir ∈ dirs, dir ≠ [] ∧ slash ∉ dir) (hnames : ∀ name ∈ names, slash ∉ name)
    (hleaves : ¬ StaysBelow names dirs)
    (h : enterDirs path rootPath true (dirPath [slash] names) dirs = some r) :
    r.head? ≠ some slash := by
  induction dirs generalizing names with
  | nil => exact absurd (fun front back hdirs => absurd hdirs (by simp)) hleaves
  | cons dir dirs ih =>
      obtain ⟨hdir, hrest⟩ := List.forall_mem_cons.mp hdirs
      by_cases hinside : dir = upperDir → names ≠ []
      · rw [enterDirs_enter path rootPath hdir hnames hinside] at h
        exact ih hrest (notMem_enter hdir.2 hnames)
          (fun hstays => hleaves (staysBelow_cons.mpr ⟨hinside, hstays⟩)) h
      · rw [Classical.not_imp, not_not] at hinside
        obtain ⟨rfl, rfl⟩ := hinside
        have hroot : parentDir (dirPath [slash] []) = some [] := by decide
        rw [enterDirs, if_neg (by decide), if_pos rfl, if_neg (by simp), hroot] at h
        exact enterDirs_outside hrest (by simp) h

end Outside

/-- From an absolute directory, `absolutePath` enters the components of the path. -/
theorem absolutePath_eq_enterDirs (exeDir : Bytes) {path currentPath : Bytes} (hpath : path ≠ [])
    (hfront : currentPath.head? = some slash) :
    absolutePath exeDir path currentPath true =
      enterDirs path (rootOf currentPath) true (rootOf currentPath) (components path) := by
  rw [absolutePath_of_slash exeDir path hfront, absoluteFrom, if_neg hpath]
  cases hback : currentPath.getLast? with
  | none =>
      rw [List.getLast?_eq_none_iff.mp hback] at hfront
      cases hfront
  | some back =>
      simp only [← split_slash hpath, rootOf, hback, ne_eq, Option.some.injEq]

/-- With access to parents, the result is the normalised path exactly when no
`..` is met at the root, and a path that ends there is that of a directory. -/
theorem absolutePath_normal_iff (exeDir : Bytes) {path currentPath : Bytes} {names : List Bytes}
    (hpath : path ≠ []) (hfront : currentPath.head? = some slash)
    (hcurrent : rootOf currentPath = dirPath [slash] names)
    (hnames : ∀ name ∈ names, Component name) :
    absolutePath exeDir path currentPath true =
        some (normalPath path (resolve names (components path))) ↔
      StaysBelow names (components path) ∧
        (resolve names (components path) ≠ [] ∨ path.getLast? = some slash) := by
  have hdirs : ∀ dir ∈ components path, dir ≠ [] ∧ slash ∉ dir := by
    rw [← split_slash hpath]
    exact fun dir => mem_split_slash hpath
  have hslash : ∀ name ∈ names, slash ∉ name := fun name hname => (hnames name hname).noSlash
  rw [absolutePath_eq_enterDirs exeDir hpath hfront, hcurrent]
  by_cases hstays : StaysBelow names (components path)
  · rw [enterDirs_resolve path hdirs hslash hstays, trimSlash_dirPath_iff, and_iff_right hstays]
  · refine iff_of_false (fun h => ?_) fun h => hstays h.1
    exact enterDirs_leaves hdirs hslash hstays h rfl

theorem absolutePath_normal_mixed :
    absolutePath (ascii "/opt/") (ascii "b/.././c//..") (ascii "/srv/a") true =
      some (normalPath (ascii "b/.././c//..")
        (resolve [ascii "srv", ascii "a"] (components (ascii "b/.././c//..")))) := by
  refine (absolutePath_normal_iff _ (by decide) rfl (by decide) ?_).mpr
    ⟨by decide, Or.inl (by decide)⟩
  intro name hname
  rcases List.mem_pair.mp hname with rfl | rfl
  · exact ⟨by decide, by decide, by decide, by decide⟩
  · exact ⟨by decide, by decide, by decide, by decide⟩

/-- The parent of a directory below the root comes out as the empty text. -/
theorem absolutePath_parent_of_top :
    absolutePath (ascii "/opt/") (ascii "..") (ascii "/a") true = some [] ∧
      absolutePath (ascii "/opt/") (ascii "..") (ascii "/a") true ≠
        some (normalPath (ascii "..") (resolve [ascii "a"] (components (ascii "..")))) := by
  rw [absolutePath_eq_enterDirs _ (by decide) rfl]
  exact ⟨by decide, by decide⟩

end FFZKit.Util.File
