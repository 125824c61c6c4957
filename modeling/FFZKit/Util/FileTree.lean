import FFZKit.Foundations.MapList
import FFZKit.Util.DirectoryWalk
import FFZKit.Util.PathNormal

/-!
# A file system with symbolic links

Regular files, directories and symbolic links, each at the place that the names
on the way from the root give, and the calls of POSIX on them.

## Implementation notes

The resolution of a path follows the links on its way, at most `linkMax` in one
path. A relative path starts at `cwd`. Paths hold no NUL, and permissions are
not modelled: a call fails only for the form of the tree.
-/

namespace FFZKit.Util.File

open FFZKit.Foundations

/-- The names on the way from the root. -/
abbrev Loc := List Bytes

inductive Kind
  | file
  | dir
  | link (target : Bytes)
deriving DecidableEq

/-- The entries of a file system below its root, in the order of `readdir`. -/
structure FileTree where
  entries : List (Loc × Kind)
  distinct : (entries.map Prod.fst).Nodup
  named : ∀ entry ∈ entries, entry.1 ≠ [] ∧ ∀ name ∈ entry.1, Component name
  parents : ∀ entry ∈ entries,
    entry.1.dropLast = [] ∨ (entry.1.dropLast, Kind.dir) ∈ entries

namespace FileTree

variable (s : FileTree)

/-- What is at a place. -/
def kind (loc : Loc) : Option Kind := if loc = [] then some .dir else s.entries.lookup loc

/-- The names that `readdir` finds in a directory, itself and its parent left out. -/
def children (dir : Loc) : List Bytes :=
  s.entries.filterMap fun entry => if entry.1.dropLast = dir then entry.1.getLast? else none

theorem mem_children {dir : Loc} {name : Bytes} :
    name ∈ s.children dir ↔ ∃ kind, (dir ++ [name], kind) ∈ s.entries := by
  rw [children, List.mem_filterMap]
  constructor
  · rintro ⟨⟨loc, kind⟩, hmem, hname⟩
    split at hname
    · rename_i hdir
      refine ⟨kind, ?_⟩
      rwa [← hdir, List.dropLast_append_getLast? name hname]
    · cases hname
  · rintro ⟨kind, hmem⟩
    exact ⟨_, hmem, by rw [List.dropLast_concat, if_pos rfl, List.getLast?_concat]⟩

/-- The tree without an entry that has none below it. -/
def erase (loc : Loc) (h : s.children loc = []) : FileTree where
  entries := s.entries.filter (·.1 ≠ loc)
  distinct := s.distinct.sublist (List.filter_sublist.map _)
  named entry hentry := s.named entry (List.mem_of_mem_filter hentry)
  parents entry hentry := by
    have hmem := List.mem_of_mem_filter hentry
    refine (s.parents entry hmem).imp_right fun hparent => List.mem_filter.mpr ⟨hparent, ?_⟩
    rw [decide_eq_true_iff]
    rintro rfl
    have hlast := List.dropLast_append_getLast (s.named entry hmem).1
    have hchild : entry.1.getLast (s.named entry hmem).1 ∈ s.children entry.1.dropLast :=
      s.mem_children.mpr ⟨entry.2, by rwa [hlast]⟩
    rw [h] at hchild
    cases hchild

section Entries

variable {s}

theorem kind_eq_some {loc : Loc} {k : Kind} :
    s.kind loc = some k ↔ loc = [] ∧ k = .dir ∨ (loc, k) ∈ s.entries := by
  rw [kind]
  split
  · rename_i hroot
    have hnot : (loc, k) ∉ s.entries := fun hmem => (s.named _ hmem).1 hroot
    simp [hroot ▸ hnot, hroot, eq_comm]
  · rename_i hloc
    rw [lookup_eq_some_iff_mem s.distinct]
    simp [hloc]

theorem kind_erase {loc : Loc} (hloc : loc ≠ []) (h : s.children loc = []) (other : Loc) :
    (s.erase loc h).kind other = if other = loc then none else s.kind other := by
  apply Option.ext
  intro k
  rw [kind_eq_some]
  simp only [erase, List.mem_filter, decide_eq_true_iff]
  split
  · rename_i heq
    simp [heq, hloc]
  · rename_i hne
    simp [hne, kind_eq_some]

end Entries

section Resolution

/-- Where a path starts. -/
def startOf (here : Loc) (path : Bytes) : Loc := if path.head? = some slash then [] else here

/-- Enters directories by name up to a link, where `follow` goes on. -/
def walkNames (follow : Loc → List Bytes → Option (Loc × Nat)) (links : Nat) :
    Loc → List Bytes → Option (Loc × Nat)
  | here, [] => some (here, links)
  | here, name :: names =>
      if name = thisDir then walkNames follow links here names
      else if name = upperDir then walkNames follow links here.dropLast names
      else
        match s.kind (here ++ [name]) with
        | some .dir => walkNames follow links (here ++ [name]) names
        | some (.link target) =>
            if target = [] then none
            else follow (startOf here target) (components target ++ names)
        | _ => none

/-- Enters directories by name, with the number of links that may still be followed. -/
def walk : Nat → Loc → List Bytes → Option (Loc × Nat)
  | 0 => s.walkNames (fun _ _ => none) 0
  | links + 1 => s.walkNames (walk links) (links + 1)

variable (linkMax : Nat) (cwd : Loc)

/-- The directory that a path leads to, by the last link as well. -/
def dirOf (path : Bytes) : Option Loc :=
  if path = [] then none else (s.walk linkMax (startOf cwd path) (components path)).map Prod.fst

/-- The place of the entry that a path names, whether or not there is one. The
last link is not followed. -/
def entryOf (path : Bytes) : Option Loc :=
  if path = [] then none
  else
    match (components path).getLast? with
    | none => some (startOf cwd path)
    | some name =>
        match s.walk linkMax (startOf cwd path) (components path).dropLast with
        | none => none
        | some (dir, _) =>
            some (if name = thisDir then dir
              else if name = upperDir then dir.dropLast else dir ++ [name])

/-- The last name of a path that can be deleted: neither the root, nor the
directory itself, nor its parent. -/
def deletable (path : Bytes) : Bool :=
  match (components path).getLast? with
  | none => false
  | some name => !isSpecialDir name

end Resolution

section Calls

variable (linkMax : Nat) (cwd : Loc)

def opendir (path : Bytes) : Option (List Bytes) :=
  match s.dirOf linkMax cwd path with
  | none => none
  | some dir =>
      if s.kind dir = some .dir then some (thisDir :: upperDir :: s.children dir) else none

/-- Removes an empty directory, not a link to one. -/
def rmdir (path : Bytes) : FileTree × Bool :=
  match s.entryOf linkMax cwd path with
  | none => (s, false)
  | some loc =>
      if h : deletable path ∧ s.kind loc = some .dir ∧ s.children loc = [] then
        (s.erase loc h.2.2, true)
      else (s, false)

/-- Removes a file or a link, which a path with a slash at its end does not name. -/
def unlink (path : Bytes) : FileTree × Bool :=
  match s.entryOf linkMax cwd path with
  | none => (s, false)
  | some loc =>
      if h : deletable path ∧ path.getLast? ≠ some slash ∧
          (s.kind loc).any (· ≠ .dir) ∧ s.children loc = [] then
        (s.erase loc h.2.2.2, true)
      else (s, false)

/-- `unlink`, or `rmdir` for a directory. -/
def remove (path : Bytes) : FileTree × Bool :=
  match s.unlink linkMax cwd path with
  | (s', true) => (s', true)
  | (s', false) => s'.rmdir linkMax cwd path

/-- The calls of the file system. -/
def ops : FileOps FileTree where
  opendir s path := s.opendir linkMax cwd path
  rmdir s path := s.rmdir linkMax cwd path
  remove s path := s.remove linkMax cwd path
  unlink s path := s.unlink linkMax cwd path

end Calls

section Walks

/-- The ways that `walk` finds. -/
inductive Walks (s : FileTree) : Nat → Loc → List Bytes → Loc → Nat → Prop
  | done {links here} : Walks s links here [] here links
  | this {links here names last left} (rest : Walks s links here names last left) :
      Walks s links here (thisDir :: names) last left
  | upper {links here names last left} (rest : Walks s links here.dropLast names last left) :
      Walks s links here (upperDir :: names) last left
  | dir {links here name names last left} (hname : name ≠ thisDir ∧ name ≠ upperDir)
      (hkind : s.kind (here ++ [name]) = some .dir)
      (rest : Walks s links (here ++ [name]) names last left) :
      Walks s links here (name :: names) last left
  | link {links here name names last left target} (hname : name ≠ thisDir ∧ name ≠ upperDir)
      (hkind : s.kind (here ++ [name]) = some (.link target)) (htarget : target ≠ [])
      (rest : Walks s links (startOf here target) (components target ++ names) last left) :
      Walks s (links + 1) here (name :: names) last left

variable {s}

theorem walk_cons (links : Nat) (here : Loc) (name : Bytes) (names : List Bytes) :
    s.walk links here (name :: names) =
      if name = thisDir then s.walk links here names
      else if name = upperDir then s.walk links here.dropLast names
      else
        match s.kind (here ++ [name]) with
        | some .dir => s.walk links (here ++ [name]) names
        | some (.link target) =>
            if target = [] then none
            else
              match links with
              | 0 => none
              | links + 1 => s.walk links (startOf here target) (components target ++ names)
        | _ => none := by
  cases links with
  | zero => rfl
  | succ links => rfl

theorem walk_nil (links : Nat) (here : Loc) : s.walk links here [] = some (here, links) := by
  cases links <;> rfl

theorem walks_of_walk {links left : Nat} {here last : Loc} {names : List Bytes}
    (h : s.walk links here names = some (last, left)) : Walks s links here names last left := by
  -- the links bound what is followed, between two of them the names get fewer
  induction links using Nat.strong_induction_on generalizing here names with
  | h links ihlinks =>
      induction names generalizing here with
      | nil =>
          rw [walk_nil, Option.some.injEq, Prod.mk.injEq] at h
          obtain ⟨rfl, rfl⟩ := h
          exact .done
      | cons name names ih =>
          rw [walk_cons] at h
          split at h
          · rename_i hthis
            exact hthis ▸ .this (ih h)
          · rename_i hthis
            split at h
            · rename_i hupper
              exact hupper ▸ .upper (ih h)
            · rename_i hupper
              split at h
              · rename_i hkind
                exact .dir ⟨hthis, hupper⟩ hkind (ih h)
              · rename_i target hkind
                split at h
                · cases h
                · rename_i htarget
                  cases links with
                  | zero => cases h
                  | succ links =>
                      exact .link ⟨hthis, hupper⟩ hkind htarget
                        (ihlinks links (Nat.lt_succ_self links) h)
              · cases h

theorem Walks.walk {links left : Nat} {here last : Loc} {names : List Bytes}
    (h : Walks s links here names last left) : s.walk links here names = some (last, left) := by
  induction h with
  | done => exact walk_nil _ _
  | this rest ih => rw [walk_cons, if_pos rfl, ih]
  | upper rest ih => rw [walk_cons, if_neg (by decide), if_pos rfl, ih]
  | dir hname hkind rest ih => rw [walk_cons, if_neg hname.1, if_neg hname.2, hkind, ih]
  | link hname hkind htarget rest ih =>
      rw [walk_cons, if_neg hname.1, if_neg hname.2, hkind]
      simpa [htarget] using ih

/-- What a smaller tree resolves, a larger one resolves to the same. -/
theorem Walks.mono {s' : FileTree} (hsub : ∀ loc k, s'.kind loc = some k → s.kind loc = some k)
    {links left : Nat} {here last : Loc} {names : List Bytes}
    (h : Walks s' links here names last left) : Walks s links here names last left := by
  induction h with
  | done => exact .done
  | this rest ih => exact .this ih
  | upper rest ih => exact .upper ih
  | dir hname hkind rest ih => exact .dir hname (hsub _ _ hkind) ih
  | link hname hkind htarget rest ih => exact .link hname (hsub _ _ hkind) htarget ih

/-- More links may be followed than are. -/
theorem Walks.more {links left : Nat} {here last : Loc} {names : List Bytes}
    (h : Walks s links here names last left) (k : Nat) :
    Walks s (links + k) here names last (left + k) := by
  induction h with
  | done => exact .done
  | this rest ih => exact .this ih
  | upper rest ih => exact .upper ih
  | dir hname hkind rest ih => exact .dir hname hkind ih
  | link hname hkind htarget rest ih =>
      rw [Nat.add_right_comm]
      exact .link hname hkind htarget ih

theorem Walks.left_le {links left : Nat} {here last : Loc} {names : List Bytes}
    (h : Walks s links here names last left) : left ≤ links := by
  induction h with
  | done => exact le_rfl
  | this rest ih => exact ih
  | upper rest ih => exact ih
  | dir hname hkind rest ih => exact ih
  | link hname hkind htarget rest ih => exact Nat.le_succ_of_le ih

/-- A way over some names and then others passes a place between them. -/
theorem Walks.split {links left : Nat} {here last : Loc} {front back : List Bytes}
    (h : Walks s links here (front ++ back) last left) :
    ∃ between mid, Walks s links here front mid between ∧
      Walks s between mid back last left := by
  generalize hnames : front ++ back = names at h
  induction h generalizing front with
  | done =>
      obtain ⟨rfl, rfl⟩ := List.append_eq_nil_iff.mp hnames
      exact ⟨_, _, .done, .done⟩
  | this rest ih =>
      rcases List.append_eq_cons_iff.mp hnames with ⟨rfl, rfl⟩ | ⟨front, rfl, rfl⟩
      · exact ⟨_, _, .done, .this rest⟩
      · obtain ⟨between, mid, hfront, hback⟩ := ih rfl
        exact ⟨between, mid, .this hfront, hback⟩
  | upper rest ih =>
      rcases List.append_eq_cons_iff.mp hnames with ⟨rfl, rfl⟩ | ⟨front, rfl, rfl⟩
      · exact ⟨_, _, .done, .upper rest⟩
      · obtain ⟨between, mid, hfront, hback⟩ := ih rfl
        exact ⟨between, mid, .upper hfront, hback⟩
  | dir hname hkind rest ih =>
      rcases List.append_eq_cons_iff.mp hnames with ⟨rfl, rfl⟩ | ⟨front, rfl, rfl⟩
      · exact ⟨_, _, .done, .dir hname hkind rest⟩
      · obtain ⟨between, mid, hfront, hback⟩ := ih rfl
        exact ⟨between, mid, .dir hname hkind hfront, hback⟩
  | link hname hkind htarget rest ih =>
      rcases List.append_eq_cons_iff.mp hnames with ⟨rfl, rfl⟩ | ⟨front, rfl, rfl⟩
      · exact ⟨_, _, .done, .link hname hkind htarget rest⟩
      · obtain ⟨between, mid, hfront, hback⟩ := ih (List.append_assoc _ _ _)
        exact ⟨between, mid, .link hname hkind htarget hfront, hback⟩

end Walks

section Paths

theorem components_popSlash (path : Bytes) : components (popSlash path) = components path := by
  rw [popSlash]
  split
  · rename_i hlast
    obtain ⟨front, rfl⟩ := List.getLast?_eq_some_iff.mp hlast
    rw [List.dropLast_concat, components_append]
    exact (List.append_nil _).symm
  · rfl

theorem components_childPath {path name : Bytes} (hname : Component name) :
    components (childPath path name) = components path ++ [name] := by
  rw [childPath, List.append_assoc, List.singleton_append, components_append,
    components_of_notMem hname.nonempty hname.noSlash]

theorem startOf_childPath {path : Bytes} (hpath : path ≠ []) (cwd : Loc) (name : Bytes) :
    startOf cwd (childPath path name) = startOf cwd path := by
  rw [startOf, startOf, childPath, List.append_assoc, List.head?_append_of_ne_nil _ hpath]

variable {s : FileTree} {linkMax : Nat} {cwd : Loc}

theorem opendir_eq_some {path : Bytes} {names : List Bytes} :
    s.opendir linkMax cwd path = some names ↔ path ≠ [] ∧ ∃ dir left,
      Walks s linkMax (startOf cwd path) (components path) dir left ∧
        s.kind dir = some .dir ∧ names = thisDir :: upperDir :: s.children dir := by
  rw [opendir, dirOf]
  by_cases hpath : path = []
  · simp [hpath]
  · rw [if_neg hpath]
    cases hwalk : s.walk linkMax (startOf cwd path) (components path) with
    | none =>
        simp only [Option.map_none, reduceCtorEq, false_iff, not_and, not_exists]
        intro _ dir left hway
        rw [hway.walk] at hwalk
        cases hwalk
    | some r =>
        obtain ⟨dir, left⟩ := r
        simp only [Option.map_some, Option.ite_none_right_eq_some, Option.some.injEq]
        constructor
        · rintro ⟨hkind, rfl⟩
          exact ⟨hpath, dir, left, walks_of_walk hwalk, hkind, rfl⟩
        · rintro ⟨-, dir', left', hway, hkind, rfl⟩
          rw [hway.walk, Option.some.injEq, Prod.mk.injEq] at hwalk
          obtain ⟨rfl, rfl⟩ := hwalk
          exact ⟨hkind, rfl⟩

theorem entryOf_snoc {path name : Bytes} {names : List Bytes} (hpath : path ≠ [])
    (hnames : components path = names ++ [name]) {dir : Loc} {left : Nat}
    (hwalk : Walks s linkMax (startOf cwd path) names dir left) :
    s.entryOf linkMax cwd path =
      some (if name = thisDir then dir
        else if name = upperDir then dir.dropLast else dir ++ [name]) := by
  rw [entryOf, if_neg hpath, hnames, List.getLast?_concat, List.dropLast_concat,
    hwalk.walk]

/-- A smaller tree has the entry of a path at no other place. -/
theorem entryOf_mono {s' : FileTree} (hsub : ∀ loc k, s'.kind loc = some k → s.kind loc = some k)
    {path : Bytes} {loc : Loc} (h : s'.entryOf linkMax cwd path = some loc) :
    s.entryOf linkMax cwd path = some loc := by
  rw [entryOf] at h ⊢
  split at h
  · cases h
  · rename_i hpath
    rw [if_neg hpath]
    split at h
    · exact h
    · split at h
      · cases h
      · rename_i dir left hwalk
        rw [((walks_of_walk hwalk).mono hsub).walk]
        exact h

end Paths

section Removal

variable {s : FileTree} {linkMax : Nat} {cwd : Loc}

/-- What a call that deletes does: nothing, or the entry that the path names is gone. -/
def Removal (s : FileTree) (linkMax : Nat) (cwd : Loc) (path : Bytes) (r : FileTree × Bool) :
    Prop :=
  r = (s, false) ∨ ∃ loc, ∃ h : s.children loc = [], loc ≠ [] ∧
    s.entryOf linkMax cwd path = some loc ∧ r = (s.erase loc h, true)

theorem ne_nil_of_deletable {path : Bytes} {loc : Loc} (hdeletable : deletable path = true)
    (h : s.entryOf linkMax cwd path = some loc) : loc ≠ [] := by
  rw [deletable] at hdeletable
  rw [entryOf] at h
  split at h
  · cases h
  · split at h
    · rename_i hlast
      rw [hlast] at hdeletable
      cases hdeletable
    · rename_i name hlast
      rw [hlast] at hdeletable
      simp only [isSpecialDir, Bool.not_or, Bool.and_eq_true, Bool.not_eq_true',
        beq_eq_false_iff_ne] at hdeletable
      split at h
      · cases h
      · rw [if_neg hdeletable.1, if_neg hdeletable.2, Option.some.injEq] at h
        rw [← h]
        exact List.concat_ne_nil _ _

theorem rmdir_removal (s : FileTree) (linkMax : Nat) (cwd : Loc) (path : Bytes) :
    Removal s linkMax cwd path (s.rmdir linkMax cwd path) := by
  rw [rmdir]
  split
  · exact Or.inl rfl
  · rename_i loc hentry
    split
    · rename_i h
      exact Or.inr ⟨loc, h.2.2, ne_nil_of_deletable h.1 hentry, hentry, rfl⟩
    · exact Or.inl rfl

theorem unlink_removal (s : FileTree) (linkMax : Nat) (cwd : Loc) (path : Bytes) :
    Removal s linkMax cwd path (s.unlink linkMax cwd path) := by
  rw [unlink]
  split
  · exact Or.inl rfl
  · rename_i loc hentry
    split
    · rename_i h
      exact Or.inr ⟨loc, h.2.2.2, ne_nil_of_deletable h.1 hentry, hentry, rfl⟩
    · exact Or.inl rfl

theorem remove_removal (s : FileTree) (linkMax : Nat) (cwd : Loc) (path : Bytes) :
    Removal s linkMax cwd path (s.remove linkMax cwd path) := by
  rw [remove]
  split
  · rename_i s' hunlink
    exact hunlink ▸ unlink_removal s linkMax cwd path
  · rename_i s' hunlink
    rcases unlink_removal s linkMax cwd path with hsame | ⟨loc, h, -, -, hdone⟩
    · rw [hunlink, Prod.mk.injEq] at hsame
      rw [hsame.1]
      exact rmdir_removal s linkMax cwd path
    · rw [hunlink] at hdone
      cases hdone

end Removal

end FileTree

end FFZKit.Util.File
