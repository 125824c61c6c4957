import FFZKit.Foundations.Settles
import FFZKit.Util.DirectoryTree
import FFZKit.Util.FileTree
import Mathlib.Data.List.MinMax

/-!
# What a deletion can reach

`delete_file` asks `opendir` whether a path is a directory, and `opendir`
follows a link. What it removes is reached from the entry of the path when every
link is entered like a directory.
-/

namespace FFZKit.Util.File

open FFZKit.Foundations

namespace FileTree

section Reached

variable (s : FileTree) (linkMax : Nat)

/-- The directory that `opendir` opens for an entry. -/
def opensAs (loc : Loc) : Option Loc :=
  match loc.getLast? with
  | none => some []
  | some name => (s.walk linkMax loc.dropLast [name]).map Prod.fst

/-- The entries met on the way down from one, links followed. -/
inductive Reached (origin : Loc) : Loc → Prop
  | origin : Reached origin origin
  | inside {loc dir : Loc} {name : Bytes} (hloc : Reached origin loc)
      (hdir : s.opensAs linkMax loc = some dir) (hname : s.kind (dir ++ [name]) ≠ none) :
      Reached origin (dir ++ [name])

variable {s linkMax} {cwd : Loc}

theorem Reached.trans {origin loc last : Loc} (h : s.Reached linkMax origin loc)
    (h' : s.Reached linkMax loc last) : s.Reached linkMax origin last := by
  induction h' with
  | origin => exact h
  | inside _ hdir hname ih => exact .inside ih hdir hname

theorem opensAs_snoc {front : Loc} {name : Bytes} {dir : Loc} {left : Nat}
    (hway : s.Walks linkMax front [name] dir left) :
    s.opensAs linkMax (front ++ [name]) = some dir := by
  rw [opensAs, List.getLast?_concat, List.dropLast_concat]
  simp only [hway.walk, Option.map_some]

/-- A directory opens as itself. -/
theorem opensAs_self {loc : Loc} (h : s.kind loc = some .dir) :
    s.opensAs linkMax loc = some loc := by
  rcases List.eq_nil_or_concat loc with rfl | ⟨front, name, rfl⟩
  · rfl
  · rw [List.concat_eq_append] at h ⊢
    rcases kind_eq_some.mp h with ⟨hroot, -⟩ | hmem
    · exact absurd hroot (List.concat_ne_nil _ _)
    · have hname := (s.named _ hmem).2 name (by simp)
      have hway : s.Walks linkMax front [name] (front ++ [name]) linkMax :=
        .dir ⟨hname.notThis, hname.notUpper⟩ h .done
      exact opensAs_snoc hway

/-- The entry of a path that opens is the directory that is opened, or a link to it. -/
theorem entryOf_opened {path : Bytes} (hpath : path ≠ []) {dir : Loc} {left : Nat}
    (hway : s.Walks linkMax (startOf cwd path) (components path) dir left) :
    ∃ loc, s.entryOf linkMax cwd path = some loc ∧
      (loc = dir ∨ (∃ target, s.kind loc = some (.link target)) ∧
        s.opensAs linkMax loc = some dir) := by
  rcases List.eq_nil_or_concat (components path) with hnil | ⟨names, name, hnames⟩
  · rw [hnil] at hway
    cases hway with
    | done => exact ⟨_, by rw [entryOf, if_neg hpath, hnil]; rfl, Or.inl rfl⟩
  · rw [List.concat_eq_append] at hnames
    rw [hnames] at hway
    obtain ⟨between, mid, hfront, hlast⟩ := hway.split
    refine ⟨_, entryOf_snoc hpath hnames hfront, ?_⟩
    obtain ⟨k, hk⟩ := Nat.exists_eq_add_of_le hfront.left_le
    cases hlast with
    | this rest =>
        cases rest with
        | done => exact Or.inl (if_pos rfl)
    | upper rest =>
        cases rest with
        | done =>
            rw [if_neg (by decide), if_pos rfl]
            exact Or.inl rfl
    | dir hname hmid rest =>
        cases rest with
        | done =>
            rw [if_neg hname.1, if_neg hname.2]
            exact Or.inl rfl
    | link hname hmid htarget rest =>
        rw [if_neg hname.1, if_neg hname.2]
        have hmore := (Walks.link hname hmid htarget rest).more k
        rw [← hk] at hmore
        exact Or.inr ⟨⟨_, hmid⟩, opensAs_snoc hmore⟩

/-- The entry of a path that opens leads to the directory that is opened. -/
theorem entryOf_of_walks {path : Bytes} (hpath : path ≠ []) {dir : Loc} {left : Nat}
    (hway : s.Walks linkMax (startOf cwd path) (components path) dir left)
    (hkind : s.kind dir = some .dir) :
    ∃ loc, s.entryOf linkMax cwd path = some loc ∧ s.opensAs linkMax loc = some dir := by
  obtain ⟨loc, hentry, rfl | ⟨-, hopens⟩⟩ := entryOf_opened hpath hway
  · exact ⟨loc, hentry, opensAs_self hkind⟩
  · exact ⟨loc, hentry, hopens⟩

end Reached

section Pruned

/-- A tree from which only such entries are gone. -/
structure Pruned (P : Loc → Prop) (s s' : FileTree) : Prop where
  sub : ∀ loc k, s'.kind loc = some k → s.kind loc = some k
  gone : ∀ loc, s.kind loc ≠ none → s'.kind loc = none → P loc

variable {P Q : Loc → Prop} {s s' s'' : FileTree} {linkMax : Nat} {cwd : Loc}

theorem Pruned.refl (P : Loc → Prop) (s : FileTree) : Pruned P s s where
  sub _ _ h := h
  gone _ hne heq := absurd heq hne

theorem Pruned.trans (h : Pruned P s s') (h' : Pruned P s' s'') : Pruned P s s'' where
  sub loc k hkind := h.sub loc k (h'.sub loc k hkind)
  gone loc hne heq := by
    by_cases hmid : s'.kind loc = none
    · exact h.gone loc hne hmid
    · exact h'.gone loc hmid heq

theorem Pruned.imp (h : Pruned P s s') (himp : ∀ loc, P loc → Q loc) : Pruned Q s s' where
  sub := h.sub
  gone loc hne heq := himp loc (h.gone loc hne heq)

theorem Removal.pruned {path : Bytes} {r : FileTree × Bool} (h : Removal s linkMax cwd path r) :
    Pruned (fun loc => s.entryOf linkMax cwd path = some loc) s r.1 := by
  rcases h with rfl | ⟨loc, h, hne, hentry, rfl⟩
  · exact .refl _ s
  · constructor
    · intro other k hkind
      rw [kind_erase hne] at hkind
      split at hkind
      · cases hkind
      · exact hkind
    · intro other hkind hgone
      rw [kind_erase hne] at hgone
      split at hgone
      · rename_i heq
        rw [heq]
        exact hentry
      · exact absurd hgone hkind

/-- What was removed is not found again. -/
theorem Removal.gone {path : Bytes} {r : FileTree × Bool} (h : Removal s linkMax cwd path r)
    (hdone : r.2 = true) {loc : Loc} (hentry : r.1.entryOf linkMax cwd path = some loc) :
    r.1.kind loc = none := by
  have hbefore := entryOf_mono h.pruned.sub hentry
  rcases h with rfl | ⟨loc', h, hne, hentry', rfl⟩
  · cases hdone
  · rw [hbefore, Option.some.injEq] at hentry'
    rw [kind_erase hne, if_pos hentry']

end Pruned

section Safety

variable {s s' t : FileTree} {linkMax : Nat} {cwd : Loc}

/-- What `readdir` returns besides the directory itself and its parent is there. -/
theorem mem_of_readdir {dir : Loc} {name : Bytes}
    (h : name ∈ thisDir :: upperDir :: s.children dir) (hspecial : isSpecialDir name = false) :
    Component name ∧ ∃ k, s.kind (dir ++ [name]) = some k := by
  have hchild : name ∈ s.children dir := by
    rcases List.mem_cons.mp h with rfl | h
    · exact absurd hspecial (by decide)
    · rcases List.mem_cons.mp h with rfl | h
      · exact absurd hspecial (by decide)
      · exact h
  obtain ⟨k, hmem⟩ := s.mem_children.mp hchild
  exact ⟨(s.named _ hmem).2 name (List.mem_append_right _ (List.mem_singleton_self name)), k,
    kind_eq_some.mpr (Or.inr hmem)⟩

theorem entryOf_childPath {path name : Bytes} (hpath : path ≠ []) (hname : Component name)
    {dir : Loc} {left : Nat}
    (hway : s.Walks linkMax (startOf cwd path) (components path) dir left) :
    s.entryOf linkMax cwd (childPath path name) = some (dir ++ [name]) := by
  have hchild : childPath path name ≠ [] := by simp [childPath]
  rw [← startOf_childPath hpath cwd name] at hway
  rw [entryOf_snoc hchild (components_childPath hname) hway, if_neg hname.notThis,
    if_neg hname.notUpper]

/-- The loop over a directory removes what the calls for its entries remove. -/
theorem deleteNames_pruned {P : Loc → Prop} {recur : FileTree → Bytes → Option (FileTree × Bool)}
    {path : Bytes} {names : List Bytes}
    (hrecur : ∀ name ∈ names, isSpecialDir name = false → ∀ u u' ret, Pruned P t u →
      recur u (childPath path name) = some (u', ret) → Pruned P u u')
    (hpruned : Pruned P t s) (h : FileOps.deleteNames recur path names s = some s') :
    Pruned P t s' := by
  induction names generalizing s with
  | nil => exact Option.some.inj h ▸ hpruned
  | cons name names ih =>
      obtain ⟨hfirst, hrest⟩ := List.forall_mem_cons.mp hrecur
      rw [FileOps.deleteNames] at h
      split at h
      · exact ih hrest hpruned h
      · rename_i hspecial
        split at h
        · cases h
        · rename_i u ret hcall
          have hcalled := hfirst (Bool.eq_false_iff.mpr hspecial) s u ret hpruned hcall
          exact ih hrest (hpruned.trans hcalled) h

/-- A deletion at a path, where `t` is the tree of the first call: what is gone is
reached from the entry of the path, which is gone when the deletion worked. -/
structure Deleted (t : FileTree) (linkMax : Nat) (cwd : Loc) (path : Bytes) (s s' : FileTree)
    (ret : Bool) : Prop where
  pruned : Pruned (fun x => ∃ loc, t.entryOf linkMax cwd path = some loc ∧
    t.Reached linkMax loc x) s s'
  gone : ret = true → ∀ loc, s'.entryOf linkMax cwd path = some loc → s'.kind loc = none
  found : ret = true → t.entryOf linkMax cwd path ≠ none

theorem Removal.deleted {path : Bytes} {r : FileTree × Bool} {ret : Bool}
    (h : Removal s linkMax cwd path r) (hr : r = (s', ret))
    (hsub : ∀ loc k, s.kind loc = some k → t.kind loc = some k) :
    Deleted t linkMax cwd path s s' ret := by
  subst hr
  refine ⟨h.pruned.imp fun loc hentry => ⟨loc, entryOf_mono hsub hentry, .origin⟩,
    fun hdone _ hentry => h.gone hdone hentry, fun hdone => ?_⟩
  rcases h with hsame | ⟨loc, h, -, hentry, -⟩
  · rw [Prod.mk.injEq] at hsame
    rw [hsame.2] at hdone
    cases hdone
  · rw [entryOf_mono hsub hentry]
    exact Option.some_ne_none loc

/-- What the call for an entry of the opened directory removes is reached from
the entry of the directory. -/
theorem Deleted.child {path name : Bytes} {names : List Bytes} {ret : Bool} {u u' : FileTree}
    (hsub : ∀ loc k, s.kind loc = some k → t.kind loc = some k)
    (hopen : s.opendir linkMax cwd path = some names) (hmem : name ∈ names)
    (hspecial : isSpecialDir name = false)
    (h : Deleted t linkMax cwd (popSlash (childPath path name)) u u' ret) :
    Pruned (fun x => ∃ loc, t.entryOf linkMax cwd path = some loc ∧
      t.Reached linkMax loc x) u u' := by
  obtain ⟨hpath, dir, left, hway, hkind, rfl⟩ := opendir_eq_some.mp hopen
  have hway := hway.mono hsub
  obtain ⟨hname, k, hthere⟩ := mem_of_readdir hmem hspecial
  obtain ⟨loc, hentry, hleads⟩ := entryOf_of_walks hpath hway (hsub _ _ hkind)
  refine h.pruned.imp fun x ⟨loc', hentry', hreached⟩ => ⟨loc, hentry, ?_⟩
  rw [hname.popSlash_childPath, entryOf_childPath hpath hname hway, Option.some.injEq] at hentry'
  subst hentry'
  refine Reached.trans (.inside .origin hleads ?_) hreached
  rw [hsub _ _ hthere]
  exact Option.some_ne_none k

/-- A deletion goes over the directory that it opens and ends with `rmdir`, or else it is
`remove`, and `unlink` where that fails. -/
theorem deleteFileL_cases {fuel : Nat} {path : Bytes} {r : FileTree × Bool}
    (h : (ops linkMax cwd).deleteFileL (fuel + 1) s path = some r) :
    (∃ names u, s.opendir linkMax cwd (popSlash path) = some names ∧
      FileOps.deleteNames ((ops linkMax cwd).deleteFileL fuel) (popSlash path) names s = some u ∧
      u.rmdir linkMax cwd (popSlash path) = r) ∨
    s.opendir linkMax cwd (popSlash path) = none ∧
      (s.remove linkMax cwd (popSlash path) = r ∨
        ∃ u, s.remove linkMax cwd (popSlash path) = (u, false) ∧
          u.unlink linkMax cwd (popSlash path) = r) := by
  rw [FileOps.deleteFileL] at h
  split at h
  · rename_i hdir
    split at h
    · rename_i hopen
      rw [isDir, hopen] at hdir
      cases hdir
    · rename_i names hopen
      split at h
      · cases h
      · rename_i u hnames
        exact Or.inl ⟨names, u, hopen, hnames, Option.some.inj h⟩
  · rename_i hdir
    refine Or.inr ⟨Option.not_isSome_iff_eq_none.mp hdir, ?_⟩
    split at h
    · rename_i u hremove
      exact Or.inl (hremove.trans (Option.some.inj h))
    · rename_i u hremove
      exact Or.inr ⟨u, hremove, Option.some.inj h⟩

/-- `delete_file` removes only what is reached from the entry of its path, and
that entry is gone when it returns 0. -/
theorem deleteFileL_deleted {fuel : Nat} {path : Bytes} {ret : Bool}
    (hsub : ∀ loc k, s.kind loc = some k → t.kind loc = some k)
    (h : (ops linkMax cwd).deleteFileL fuel s path = some (s', ret)) :
    Deleted t linkMax cwd (popSlash path) s s' ret := by
  induction fuel generalizing s s' path ret with
  | zero => cases h
  | succ fuel ih =>
      rcases deleteFileL_cases h with ⟨names, u, hopen, hnames, hlast⟩ |
        ⟨-, hremove | ⟨u, hremove, hlast⟩⟩
      · have hloop := deleteNames_pruned (fun name hmem hspecial v v' ret hv hcall =>
          Deleted.child hsub hopen hmem hspecial
            (ih (fun loc k hkind => hsub loc k (hv.sub loc k hkind)) hcall))
          (.refl _ s) hnames
        have hlast := (rmdir_removal u linkMax cwd (popSlash path)).deleted hlast
          fun loc k hkind => hsub loc k (hloop.sub loc k hkind)
        exact ⟨hloop.trans hlast.pruned, hlast.gone, hlast.found⟩
      · exact (remove_removal s linkMax cwd (popSlash path)).deleted hremove hsub
      · have hfirst := (remove_removal s linkMax cwd (popSlash path)).deleted hremove hsub
        have hlast := (unlink_removal u linkMax cwd (popSlash path)).deleted hlast
          fun loc k hkind => hsub loc k (hfirst.pruned.sub loc k hkind)
        exact ⟨hfirst.pruned.trans hlast.pruned, hlast.gone, hlast.found⟩

end Safety

section Termination

variable {s u : FileTree} {linkMax : Nat} {cwd : Loc}

/-- The number of names to the deepest entry. -/
def height (s : FileTree) : Nat := (s.entries.map fun entry => entry.1.length).foldr max 0

theorem length_le_height {loc : Loc} {k : Kind} (h : s.kind loc = some k) :
    loc.length ≤ s.height := by
  rcases kind_eq_some.mp h with ⟨rfl, -⟩ | hmem
  · exact Nat.zero_le _
  · exact List.le_max_of_le' 0 (List.mem_map.mpr ⟨(loc, k), hmem, rfl⟩) (Nat.le_refl _)

theorem Walks.unique {links left left' : Nat} {here last last' : Loc} {names : List Bytes}
    (h : Walks s links here names last left) (h' : Walks s links here names last' left') :
    last = last' ∧ left = left' := by
  have heq := h.walk.symm.trans h'.walk
  exact Prod.mk.inj (Option.some.inj heq)

/-- What the depth of the deletion of an opened directory is bounded by: an entry
is deeper in the tree, or one link less may be followed for it. -/
def stepsLeft (height : Nat) (dir : Loc) (left : Nat) : Nat :=
  left * (height + 1) + (height - dir.length)

theorem stepsLeft_child {height left left' : Nat} {dir dir' : Loc} {name : Bytes}
    (hname : Component name) (hheight : dir.length + 1 ≤ height)
    (hway : Walks s left dir [name] dir' left') :
    stepsLeft height dir' left' < stepsLeft height dir left := by
  rw [stepsLeft, stepsLeft]
  cases hway with
  | this rest => exact absurd rfl hname.notThis
  | upper rest => exact absurd rfl hname.notUpper
  | dir _ hkind rest =>
      cases rest with
      | done =>
          rw [List.length_append, List.length_singleton]
          omega
  | link _ hkind htarget rest =>
      have hless := Nat.mul_le_mul_right (height + 1) rest.left_le
      rw [Nat.succ_mul]
      omega

/-- More depth does not change what the loop does. -/
theorem deleteNames_congr {recur recur' : FileTree → Bytes → Option (FileTree × Bool)}
    (hrecur : ∀ s path r, recur s path = some r → recur' s path = some r) {path : Bytes}
    {names : List Bytes} (h : FileOps.deleteNames recur path names s = some u) :
    FileOps.deleteNames recur' path names s = some u := by
  induction names generalizing s with
  | nil => exact h
  | cons name names ih =>
      rw [FileOps.deleteNames] at h ⊢
      split at h
      · rename_i hspecial
        rw [if_pos hspecial]
        exact ih h
      · rename_i hspecial
        rw [if_neg hspecial]
        split at h
        · cases h
        · rename_i s' ret hcall
          rw [hrecur _ _ _ hcall]
          exact ih h

theorem deleteFileL_succ {fuel : Nat} {path : Bytes} {r : FileTree × Bool}
    (h : (ops linkMax cwd).deleteFileL fuel s path = some r) :
    (ops linkMax cwd).deleteFileL (fuel + 1) s path = some r := by
  induction fuel generalizing s path r with
  | zero => cases h
  | succ fuel ih =>
      rw [FileOps.deleteFileL] at h ⊢
      split at h
      · rename_i hdir
        rw [if_pos hdir]
        split at h
        · exact h
        · split at h
          · cases h
          · rename_i s' hnames
            rw [deleteNames_congr (fun _ _ _ => ih) hnames]
            exact h
      · rename_i hdir
        rw [if_neg hdir]
        exact h

/-- With its default arguments `delete_file` returns when `delete_file_l` does. -/
theorem settles_deleteFile {n : Nat} {path : Bytes} {r : FileTree × Bool}
    (h : (ops linkMax cwd).deleteFileL n s path = some r) :
    Settles (fun fuel => (ops linkMax cwd).deleteFile fuel s path false true) r := by
  refine ⟨n, fun fuel hfuel => ?_⟩
  have hlast : (ops linkMax cwd).deleteFileL fuel s path = some r := by
    induction fuel, hfuel using Nat.le_induction with
    | base => exact h
    | succ fuel _ ih => exact deleteFileL_succ ih
  simp only [FileOps.deleteFile, hlast, Bool.and_false, Bool.false_eq_true, if_false]

theorem deleteNames_returns {recur : FileTree → Bytes → Option (FileTree × Bool)}
    {path : Bytes} {names : List Bytes} (hrecur : ∀ name ∈ names, isSpecialDir name = false →
      ∀ u, (∀ loc k, u.kind loc = some k → s.kind loc = some k) →
        ∃ u' ret, recur u (childPath path name) = some (u', ret) ∧
          ∀ loc k, u'.kind loc = some k → u.kind loc = some k)
    (hsub : ∀ loc k, u.kind loc = some k → s.kind loc = some k) :
    ∃ u', FileOps.deleteNames recur path names u = some u' := by
  induction names generalizing u with
  | nil => exact ⟨u, rfl⟩
  | cons name names ih =>
      obtain ⟨hfirst, hrest⟩ := List.forall_mem_cons.mp hrecur
      rw [FileOps.deleteNames]
      split
      · exact ih hrest hsub
      · rename_i hspecial
        obtain ⟨u', ret, hcall, hless⟩ := hfirst (Bool.eq_false_iff.mpr hspecial) u hsub
        rw [hcall]
        exact ih hrest fun loc k hkind => hsub loc k (hless loc k hkind)

/-- Every way to an entry of an opened directory has fewer steps left than the
way to the directory. -/
theorem stepsLeft_childPath {height fuel left : Nat} {dir : Loc} {path name : Bytes}
    (hpath : popSlash path ≠ []) (hname : Component name) (hheight : dir.length + 1 ≤ height)
    (hway : Walks s linkMax (startOf cwd (popSlash path)) (components path) dir left)
    (hsteps : stepsLeft height dir left < fuel + 1)
    (hsub : ∀ loc k, u.kind loc = some k → s.kind loc = some k) {dir' : Loc} {left' : Nat}
    (hchild : Walks u linkMax (startOf cwd (popSlash (childPath (popSlash path) name)))
      (components (childPath (popSlash path) name)) dir' left') :
    stepsLeft height dir' left' < fuel := by
  rw [hname.popSlash_childPath, startOf_childPath hpath, components_childPath hname,
    components_popSlash] at hchild
  obtain ⟨between, mid, hfront, hlast⟩ := (hchild.mono hsub).split
  obtain ⟨rfl, rfl⟩ := hway.unique hfront
  have hstep := stepsLeft_child hname hheight hlast
  omega

theorem deleteFileL_returns {height fuel : Nat} {path : Bytes}
    (hheight : ∀ loc k, s.kind loc = some k → loc.length ≤ height) (hfuel : 0 < fuel)
    (hsteps : ∀ dir left, Walks s linkMax (startOf cwd (popSlash path)) (components path) dir left →
      stepsLeft height dir left < fuel) :
    ∃ r, (ops linkMax cwd).deleteFileL fuel s path = some r := by
  induction fuel generalizing s path with
  | zero => cases hfuel
  | succ fuel ih =>
      rw [FileOps.deleteFileL]
      split
      · split
        · exact ⟨_, rfl⟩
        · rename_i names hopen
          obtain ⟨hpath, dir, left, hway, hkind, rfl⟩ := opendir_eq_some.mp hopen
          rw [components_popSlash] at hway
          have hbound := hsteps _ _ hway
          have hloop : ∃ u', FileOps.deleteNames ((ops linkMax cwd).deleteFileL fuel)
              (popSlash path) (thisDir :: upperDir :: s.children dir) s = some u' := by
            apply deleteNames_returns _ fun _ _ h => h
            intro name hmem hspecial u hsub
            obtain ⟨hname, k, hthere⟩ := mem_of_readdir hmem hspecial
            have hlength := hheight _ _ hthere
            rw [List.length_append, List.length_singleton] at hlength
            have hpos : 0 < fuel := by
              rw [stepsLeft] at hbound
              omega
            obtain ⟨⟨u', ret⟩, hcall⟩ :=
              ih (fun loc k hkind => hheight loc k (hsub loc k hkind)) hpos
              fun _ _ hchild => stepsLeft_childPath hpath hname hlength hway hbound hsub hchild
            exact ⟨u', ret, hcall, (deleteFileL_deleted (fun _ _ h => h) hcall).pruned.sub⟩
          obtain ⟨u', hloop⟩ := hloop
          rw [hloop]
          exact ⟨_, rfl⟩
      · split
        · exact ⟨_, rfl⟩
        · exact ⟨_, rfl⟩

/-- A depth that is enough for every deletion. -/
def deletionDepth (s : FileTree) (linkMax : Nat) : Nat :=
  linkMax * (s.height + 1) + s.height + 1

theorem deleteFileL_deletionDepth (s : FileTree) (linkMax : Nat) (cwd : Loc) (path : Bytes) :
    ∃ r, (ops linkMax cwd).deleteFileL (s.deletionDepth linkMax) s path = some r := by
  have hpos : 0 < s.deletionDepth linkMax := Nat.succ_pos _
  apply deleteFileL_returns (fun _ _ => length_le_height) hpos
  intro dir left hway
  have hle := Nat.mul_le_mul_right (s.height + 1) hway.left_le
  rw [stepsLeft, deletionDepth]
  omega

end Termination

end FileTree

end FFZKit.Util.File
