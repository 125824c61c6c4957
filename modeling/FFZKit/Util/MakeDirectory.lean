import FFZKit.Util.FileTree

/-!
# `mkdir` on a file system with symbolic links

A directory is made below one that exists, under a name that nothing has. A path
that leads to a directory leads to the same one afterwards.
-/

namespace FFZKit.Util.File.FileTree

section Insertion

variable (s : FileTree) {dir : Loc} {name : Bytes}

/-- The tree with a directory more. -/
def insertDir (hdir : s.kind dir = some .dir) (hname : Component name)
    (hfree : s.kind (dir ++ [name]) = none) : FileTree where
  entries := s.entries ++ [(dir ++ [name], .dir)]
  distinct := by
    have hnew : dir ++ [name] ∉ s.entries.map Prod.fst := by
      intro hmem
      obtain ⟨⟨loc, k⟩, hentry, rfl⟩ := List.mem_map.mp hmem
      rw [kind_eq_some.mpr (Or.inr hentry)] at hfree
      cases hfree
    rw [List.map_append, List.map_singleton, ← List.concat_eq_append]
    exact s.distinct.concat hnew
  named := by
    intro entry hentry
    rcases List.mem_append.mp hentry with hold | hnew
    · exact s.named entry hold
    · rw [List.mem_singleton.mp hnew]
      have hnames : ∀ other ∈ dir, Component other := by
        rcases kind_eq_some.mp hdir with ⟨rfl, -⟩ | hmem
        · simp
        · exact (s.named _ hmem).2
      simpa [or_imp, forall_and] using ⟨hnames, hname⟩
  parents := by
    intro entry hentry
    rcases List.mem_append.mp hentry with hold | hnew
    · exact (s.parents entry hold).imp_right (List.mem_append_left _)
    · rw [List.mem_singleton.mp hnew, List.dropLast_concat]
      exact (kind_eq_some.mp hdir).imp And.left (List.mem_append_left _)

variable {s}

theorem kind_insertDir (hdir : s.kind dir = some .dir) (hname : Component name)
    (hfree : s.kind (dir ++ [name]) = none) (other : Loc) :
    (s.insertDir hdir hname hfree).kind other =
      if other = dir ++ [name] then some .dir else s.kind other := by
  apply Option.ext
  intro k
  rw [kind_eq_some]
  simp only [insertDir, List.mem_append, List.mem_singleton, Prod.mk.injEq]
  split
  · rename_i heq
    subst heq
    have hnot : (dir ++ [name], k) ∉ s.entries := fun hmem => by
      rw [kind_eq_some.mpr (Or.inr hmem)] at hfree
      cases hfree
    rw [Option.some.injEq]
    constructor
    · rintro (⟨hnil, -⟩ | hmem | ⟨-, rfl⟩)
      · exact absurd hnil (List.append_ne_nil_of_right_ne_nil dir (List.cons_ne_nil name []))
      · exact absurd hmem hnot
      · rfl
    · rintro rfl
      exact Or.inr (Or.inr ⟨rfl, rfl⟩)
  · rename_i hne
    simp [hne, kind_eq_some]

end Insertion

section Calls

variable (s : FileTree) (linkMax : Nat) (cwd : Loc)

/-- Makes a directory. A link that the path ends with is not followed. -/
def mkdir (path : Bytes) : FileTree × Bool :=
  match (components path).getLast?,
      s.walk linkMax (startOf cwd path) (components path).dropLast with
  | some name, some (dir, _) =>
      if h : s.kind dir = some .dir ∧ Component name ∧ s.kind (dir ++ [name]) = none then
        (s.insertDir h.1 h.2.1 h.2.2, true)
      else (s, false)
  | _, _ => (s, false)

variable {s linkMax cwd} {path : Bytes}

/-- A way over some names goes on with others. -/
theorem Walks.append {links between left : Nat} {here mid last : Loc} {front back : List Bytes}
    (h : Walks s links here front mid between) (h' : Walks s between mid back last left) :
    Walks s links here (front ++ back) last left := by
  induction h with
  | done => exact h'
  | this rest ih => exact .this (ih h')
  | upper rest ih => exact .upper (ih h')
  | dir hname hkind rest ih => exact .dir hname hkind (ih h')
  | link hname hkind htarget rest ih =>
      apply Walks.link hname hkind htarget
      have hrest := ih h'
      rwa [List.append_assoc] at hrest

/-- `mkdir` fails, or makes a directory that the path leads to. -/
theorem mkdir_moves (s : FileTree) (linkMax : Nat) (cwd : Loc) (path : Bytes) :
    s.mkdir linkMax cwd path = (s, false) ∨
      ∃ (names : List Bytes) (dir : Loc) (name : Bytes) (left : Nat)
        (hdir : s.kind dir = some .dir) (hname : Component name)
        (hfree : s.kind (dir ++ [name]) = none),
        components path = names ++ [name] ∧
          Walks s linkMax (startOf cwd path) names dir left ∧
          s.mkdir linkMax cwd path = (s.insertDir hdir hname hfree, true) := by
  rcases List.eq_nil_or_concat (components path) with hnil | ⟨names, name, hnames⟩
  · left
    rw [mkdir, hnil]
    rfl
  · rw [List.concat_eq_append] at hnames
    cases hwalk : s.walk linkMax (startOf cwd path) names with
    | none =>
        left
        simp [mkdir, hnames, hwalk]
    | some r =>
        obtain ⟨dir, left⟩ := r
        by_cases h : s.kind dir = some .dir ∧ Component name ∧ s.kind (dir ++ [name]) = none
        · right
          refine ⟨names, dir, name, left, h.1, h.2.1, h.2.2, hnames, walks_of_walk hwalk, ?_⟩
          simp [mkdir, hnames, hwalk, h]
        · left
          simp only [mkdir, hnames, List.getLast?_concat, List.dropLast_concat, hwalk, dif_neg h]

/-- What there is stays. -/
theorem kind_mkdir {loc : Loc} {k : Kind} (h : s.kind loc = some k) :
    (s.mkdir linkMax cwd path).1.kind loc = some k := by
  rcases mkdir_moves s linkMax cwd path with hsame |
    ⟨-, dir, name, -, hdir, hname, hfree, -, -, hmade⟩
  · rw [hsame]
    exact h
  · rw [hmade, kind_insertDir, if_neg, h]
    rintro rfl
    rw [h] at hfree
    cases hfree

/-- The path leads to a directory at a place, by the last link as well. -/
structure Leads (s : FileTree) (linkMax : Nat) (cwd : Loc) (path : Bytes) (loc : Loc) : Prop where
  nonempty : path ≠ []
  way : ∃ left, Walks s linkMax (startOf cwd path) (components path) loc left
  kind : s.kind loc = some .dir

theorem isDir_iff :
    isDir (s.opendir linkMax cwd) path = true ↔ ∃ loc, s.Leads linkMax cwd path loc := by
  rw [isDir, Option.isSome_iff_exists]
  constructor
  · rintro ⟨names, hopen⟩
    obtain ⟨hpath, loc, left, hway, hkind, -⟩ := opendir_eq_some.mp hopen
    exact ⟨loc, hpath, ⟨left, hway⟩, hkind⟩
  · rintro ⟨loc, hpath, ⟨left, hway⟩, hkind⟩
    exact ⟨_, opendir_eq_some.mpr ⟨hpath, loc, left, hway, hkind, rfl⟩⟩

/-- A path leads where it led before. -/
theorem Leads.mkdir {other : Bytes} {loc : Loc} (h : s.Leads linkMax cwd other loc) :
    (s.mkdir linkMax cwd path).1.Leads linkMax cwd other loc where
  nonempty := h.nonempty
  way := h.way.imp fun _ hway => hway.mono fun _ _ hkind => kind_mkdir hkind
  kind := kind_mkdir h.kind

/-- A `mkdir` that succeeds makes the directory that the path then leads to, and
nothing else. -/
theorem mkdir_made (h : (s.mkdir linkMax cwd path).2 = true) :
    ∃ loc, (s.mkdir linkMax cwd path).1.Leads linkMax cwd path loc ∧
      ∀ other ≠ loc, (s.mkdir linkMax cwd path).1.kind other = s.kind other := by
  rcases mkdir_moves s linkMax cwd path with hsame |
    ⟨names, dir, name, left, hdir, hname, hfree, hnames, hway, hmade⟩
  · rw [hsame] at h
    cases h
  · have hkind : (s.mkdir linkMax cwd path).1.kind (dir ++ [name]) = some .dir := by
      rw [hmade, kind_insertDir, if_pos rfl]
    have hfront : (s.mkdir linkMax cwd path).1.Walks linkMax (startOf cwd path) names dir left :=
      hway.mono fun _ _ => kind_mkdir
    refine ⟨dir ++ [name], ⟨?_, ⟨left, ?_⟩, hkind⟩, ?_⟩
    · rintro rfl
      simp [components] at hnames
    · rw [hnames]
      exact hfront.append (.dir ⟨hname.notThis, hname.notUpper⟩ hkind .done)
    · intro other hother
      rw [hmade, kind_insertDir, if_neg hother]

theorem mkdir_failed (h : (s.mkdir linkMax cwd path).2 = false) :
    (s.mkdir linkMax cwd path).1 = s := by
  rcases mkdir_moves s linkMax cwd path with hsame |
    ⟨-, dir, name, -, hdir, hname, hfree, -, -, hmade⟩
  · rw [hsame]
  · rw [hmade] at h
    cases h

end Calls

end FFZKit.Util.File.FileTree
