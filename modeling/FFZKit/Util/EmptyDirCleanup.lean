import FFZKit.Util.DirectoryWalk
import FFZKit.Util.PathNormal
import Mathlib.Data.Nat.Find

/-!
# When the clean-up of empty directories ends

`deleteEmptyDir` goes on to the parent whether or not the deletion worked. An
absolute path gets shorter until it is empty, which is no directory. A relative
one gets shorter until no slash is left, and is then its own parent: the same
directory is tried for ever, as long as it is there, empty, and not removed.
-/

namespace FFZKit.Util.File

open FFZKit.Foundations

section EmptyDir

variable {opendir : Bytes → Option (List Bytes)}

theorem scanNames_false (recur : Bytes → ScanCalls → Option ScanCalls) (path : Bytes)
    (names : List Bytes) :
    scanNames opendir (fun _ _ => false) true recur path true names [] = some [] ↔
      ∀ name ∈ names, isSpecialDir name = true := by
  induction names with
  | nil => simp [scanNames]
  | cons name names ih =>
      rw [scanNames, List.forall_mem_cons]
      cases hspecial : isSpecialDir name with
      | true => simp [ih]
      | false => simp

/-- A directory is empty when there is nothing but itself and its parent, or
when it cannot be opened without its last slash. -/
theorem isEmptyDir_iff (path : Bytes) : isEmptyDir opendir path = true ↔
    ∀ names, opendir (popSlash path) = some names →
      ∀ name ∈ names, isSpecialDir name = true := by
  rw [isEmptyDir, beq_iff_eq, scanDir]
  cases hopen : opendir (popSlash path) with
  | none => simp
  | some names => simpa using scanNames_false _ _ names

end EmptyDir

section Parent

/-- A path with a slash is longer than its parent. -/
theorem length_parentDir_lt {path parent : Bytes} (hslash : slash ∈ path)
    (h : parentDir path = some parent) : parent.length < path.length := by
  rw [parentDir] at h
  cases hback : path.getLast? with
  | none => rw [hback] at h; cases h
  | some back =>
      rw [hback] at h
      obtain ⟨front, rfl⟩ := List.getLast?_eq_some_iff.mp hback
      simp only [List.dropLast_concat, Option.some.injEq] at h
      by_cases hlast : back = slash
      · rw [if_pos hlast] at h
        have hle : parent.length ≤ front.length := by
          rw [← h]
          split
          · exact (List.rdropWhile_prefix _ _).length_le
          · exact le_rfl
        rw [List.length_append, List.length_singleton]
        omega
      · rw [if_neg hlast, if_pos hslash,
          List.rdropWhile_concat_pos _ _ _ (by simpa using hlast)] at h
        rw [← h, List.length_append, List.length_singleton]
        exact Nat.lt_succ_of_le (List.rdropWhile_prefix _ _).length_le

/-- A path without a slash is its own parent. -/
theorem parentDir_of_notMem {path : Bytes} (hne : path ≠ []) (hslash : slash ∉ path) :
    parentDir path = some path := by
  rw [parentDir]
  cases hback : path.getLast? with
  | none => exact absurd (List.getLast?_eq_none_iff.mp hback) hne
  | some back =>
      have hlast : back ≠ slash := fun heq => hslash (heq ▸ List.mem_of_getLast? hback)
      simp only [if_neg hlast, if_neg hslash]

theorem popSlash_of_notMem {path : Bytes} (hslash : slash ∉ path) : popSlash path = path := by
  rw [popSlash, if_neg fun hlast => hslash (List.mem_of_getLast? hlast)]

/-- The parent of a path that is not empty. -/
def parentOf (path : Bytes) : Bytes := (parentDir path).getD []

theorem parentDir_eq_parentOf {path : Bytes} (hne : path ≠ []) :
    parentDir path = some (parentOf path) := by
  rw [parentOf]
  cases hparent : parentDir path with
  | some parent => rfl
  | none =>
      rw [parentDir] at hparent
      cases hback : path.getLast? with
      | none => exact absurd (List.getLast?_eq_none_iff.mp hback) hne
      | some back => rw [hback] at hparent; cases hparent

theorem parentOf_of_notMem {path : Bytes} (hslash : slash ∉ path) : parentOf path = path := by
  by_cases hne : path = []
  · rw [hne]
    rfl
  · rw [parentOf, parentDir_of_notMem hne hslash, Option.getD_some]

theorem parentOf_front (path : Bytes) : parentOf path <+: path := by
  by_cases hne : path = []
  · rw [hne]
    exact List.prefix_rfl
  · exact parentDir_front (parentDir_eq_parentOf hne)

/-- Going up often enough leaves no slash. -/
theorem notMem_iterate_parentOf {path : Bytes} {k : Nat} (hk : path.length ≤ k) :
    slash ∉ parentOf^[k] path := by
  induction k generalizing path with
  | zero =>
      rw [List.length_eq_zero_iff.mp (Nat.le_zero.mp hk)]
      exact List.not_mem_nil
  | succ k ih =>
      rw [Function.iterate_succ_apply]
      by_cases hslash : slash ∈ path
      · have hne : path ≠ [] := List.ne_nil_of_mem hslash
        have hlt := length_parentDir_lt hslash (parentDir_eq_parentOf hne)
        exact ih (by omega)
      · rw [parentOf_of_notMem hslash]
        have hfixed : parentOf^[k] path = path :=
          Function.iterate_fixed (parentOf_of_notMem hslash) k
        rwa [hfixed]

theorem iterate_parentOf_front (k : Nat) (path : Bytes) : parentOf^[k] path <+: path := by
  induction k with
  | zero => exact List.prefix_rfl
  | succ k ih =>
      rw [Function.iterate_succ_apply']
      exact (parentOf_front _).trans ih

end Parent

section Turns

variable {σ : Type*} (fs : FileOps σ)

/-- What the file system promises: the empty path is no directory, one that
`rmdir` removed is gone, and a `rmdir` that fails changes no directory. -/
structure Posix (fs : FileOps σ) : Prop where
  opendir_nil : ∀ s, fs.opendir s [] = none
  rmdir_done : ∀ s path, (fs.rmdir s path).2 = true →
    fs.opendir (fs.rmdir s path).1 path = none
  rmdir_failed : ∀ s path, (fs.rmdir s path).2 = false →
    fs.opendir (fs.rmdir s path).1 = fs.opendir s

/-- `deleteEmptyDir` goes on from here. -/
def GoesOn (turn : σ × Bytes) : Prop :=
  isDir (fs.opendir turn.1) turn.2 = true ∧ isEmptyDir (fs.opendir turn.1) turn.2 = true

/-- The next turn: after the deletion, at the parent. -/
def nextTurn (turn : σ × Bytes) : σ × Bytes :=
  (((fs.deleteFileL 1 turn.1 turn.2).map Prod.fst).getD turn.1, parentOf turn.2)

/-- The turns of `deleteEmptyDir(dir, true)` as long as it goes on: the state of
the file system, and the directory. -/
def turn (s : σ) (dir : Bytes) (k : Nat) : σ × Bytes := (nextTurn fs)^[k] (s, dir)

variable {fs}

theorem turn_succ (s : σ) (dir : Bytes) (k : Nat) :
    turn fs s dir (k + 1) = nextTurn fs (turn fs s dir k) := Function.iterate_succ_apply' ..

theorem turn_succ' (s : σ) (dir : Bytes) (k : Nat) :
    turn fs s dir (k + 1) = turn fs (nextTurn fs (s, dir)).1 (nextTurn fs (s, dir)).2 k :=
  Function.iterate_succ_apply ..

theorem turn_snd (s : σ) (dir : Bytes) (k : Nat) : (turn fs s dir k).2 = parentOf^[k] dir := by
  induction k with
  | zero => rfl
  | succ k ih => rw [turn_succ, Function.iterate_succ_apply', ← ih, nextTurn]

/-- Nothing but itself and its parent is in a directory to be deleted. -/
theorem deleteNames_of_special {recur : σ → Bytes → Option (σ × Bool)} {path : Bytes}
    {names : List Bytes} (h : ∀ name ∈ names, isSpecialDir name = true) (s : σ) :
    FileOps.deleteNames recur path names s = some s := by
  induction names with
  | nil => rfl
  | cons name names ih =>
      obtain ⟨hname, hnames⟩ := List.forall_mem_cons.mp h
      rw [FileOps.deleteNames, if_pos hname]
      exact ih hnames

/-- The deletion of an empty directory does not go into depth. -/
theorem deleteFileL_of_empty {s : σ} {dir : Bytes} (hempty : isEmptyDir (fs.opendir s) dir = true)
    (fuel : Nat) : ∃ r, fs.deleteFileL (fuel + 1) s dir = some r ∧ fs.deleteFileL 1 s dir = some r ∧
      ∀ names, fs.opendir s (popSlash dir) = some names → r = fs.rmdir s (popSlash dir) := by
  rw [isEmptyDir_iff] at hempty
  rw [FileOps.deleteFileL, FileOps.deleteFileL]
  cases hopen : fs.opendir s (popSlash dir) with
  | none =>
      simp only [isDir, hopen, Option.isSome_none, Bool.false_eq_true, if_false]
      split
      · exact ⟨_, rfl, rfl, nofun⟩
      · exact ⟨_, rfl, rfl, nofun⟩
  | some names =>
      simp only [isDir, hopen, Option.isSome_some, if_true,
        deleteNames_of_special (hempty names hopen)]
      exact ⟨_, rfl, rfl, fun _ _ => rfl⟩

theorem deleteEmptyDir_of_goesOn (posix : Posix fs) {s : σ} {dir : Bytes}
    (h : GoesOn fs (s, dir)) (fuel : Nat) :
    fs.deleteEmptyDir true (fuel + 1) s dir =
      fs.deleteEmptyDir true fuel (nextTurn fs (s, dir)).1 (nextTurn fs (s, dir)).2 := by
  obtain ⟨hdir, hempty⟩ := h
  have hne : dir ≠ [] := by
    rintro rfl
    rw [isDir, posix.opendir_nil] at hdir
    cases hdir
  obtain ⟨r, hdelete, hone, -⟩ := deleteFileL_of_empty hempty fuel
  rw [FileOps.deleteEmptyDir, hdir, hempty, if_neg (by decide), hdelete]
  simp only [if_true, parentDir_eq_parentOf hne, nextTurn, hone, Option.map_some, Option.getD_some]

theorem deleteEmptyDir_of_not_goesOn {s : σ} {dir : Bytes} (h : ¬ GoesOn fs (s, dir))
    (fuel : Nat) : fs.deleteEmptyDir true (fuel + 1) s dir = some s := by
  rw [FileOps.deleteEmptyDir, if_pos]
  rw [GoesOn, not_and_or, Bool.not_eq_true, Bool.not_eq_true] at h
  rcases h with h | h
  · rw [h]
    rfl
  · rw [h, Bool.not_false, Bool.or_true]

/-- The recursion ends when it does not go on at some turn. -/
theorem deleteEmptyDir_ends_iff_turn (posix : Posix fs) (s : σ) (dir : Bytes) :
    (∃ fuel t, fs.deleteEmptyDir true fuel s dir = some t) ↔
      ∃ k, ¬ GoesOn fs (turn fs s dir k) := by
  constructor
  · rintro ⟨fuel, t, hends⟩
    induction fuel generalizing s dir with
    | zero => cases hends
    | succ fuel ih =>
        by_cases hgoes : GoesOn fs (s, dir)
        · rw [deleteEmptyDir_of_goesOn posix hgoes] at hends
          obtain ⟨k, hk⟩ := ih _ _ hends
          exact ⟨k + 1, by rwa [turn_succ']⟩
        · exact ⟨0, hgoes⟩
  · rintro ⟨k, hk⟩
    induction k generalizing s dir with
    | zero => exact ⟨1, s, deleteEmptyDir_of_not_goesOn hk 0⟩
    | succ k ih =>
        by_cases hgoes : GoesOn fs (s, dir)
        · rw [turn_succ'] at hk
          obtain ⟨fuel, t, hends⟩ := ih _ _ hk
          exact ⟨fuel + 1, t, (deleteEmptyDir_of_goesOn posix hgoes fuel).trans hends⟩
        · exact ⟨1, s, deleteEmptyDir_of_not_goesOn hgoes 0⟩

end Turns

section Ends

variable {σ : Type*} {fs : FileOps σ}

/-- The turn of a path without a slash deletes it by `rmdir`. -/
theorem nextTurn_of_notMem {turn : σ × Bytes} (hslash : slash ∉ turn.2)
    (hgoes : GoesOn fs turn) : nextTurn fs turn = ((fs.rmdir turn.1 turn.2).1, turn.2) := by
  obtain ⟨hdir, hempty⟩ := hgoes
  obtain ⟨names, hopen⟩ := Option.isSome_iff_exists.mp hdir
  have hpop := popSlash_of_notMem hslash
  obtain ⟨r, -, hone, hr⟩ := deleteFileL_of_empty hempty 0
  rw [hpop] at hr
  rw [nextTurn, hone, hr names hopen, parentOf_of_notMem hslash, Option.map_some,
    Option.getD_some]

/-- An absolute path comes to the empty one. -/
theorem absolute_stops (posix : Posix fs) {s : σ} {dir : Bytes} (hfront : dir.head? = some slash) :
    ∃ k, ¬ GoesOn fs (turn fs s dir k) := by
  refine ⟨dir.length, fun hgoes => ?_⟩
  have hslash := @notMem_iterate_parentOf dir dir.length le_rfl
  have hnil : parentOf^[dir.length] dir = [] := by
    obtain ⟨back, hback⟩ := iterate_parentOf_front dir.length dir
    cases hpath : parentOf^[dir.length] dir with
    | nil => rfl
    | cons c path =>
        rw [hpath] at hslash hback
        rw [← hback, List.cons_append, List.head?_cons, Option.some.injEq] at hfront
        exact absurd (hfront ▸ List.mem_cons_self) hslash
  have hopen := hgoes.1
  rw [turn_snd, hnil, isDir, posix.opendir_nil] at hopen
  cases hopen

/-- A first component that is removed is not tried again. -/
theorem removed_stops (posix : Posix fs) {s : σ} {dir : Bytes} {k : Nat}
    (hslash : slash ∉ (turn fs s dir k).2)
    (hremoved : (fs.rmdir (turn fs s dir k).1 (turn fs s dir k).2).2 = true) :
    ∃ k, ¬ GoesOn fs (turn fs s dir k) := by
  by_cases hgoes : GoesOn fs (turn fs s dir k)
  · refine ⟨k + 1, fun hnext => ?_⟩
    have hopen := hnext.1
    rw [turn_succ, nextTurn_of_notMem hslash hgoes, isDir, posix.rmdir_done _ _ hremoved] at hopen
    cases hopen
  · exact ⟨k, hgoes⟩

/-- A first component that stays is tried again. -/
theorem goesOn_succ (posix : Posix fs) {s : σ} {dir : Bytes} {k : Nat}
    (hslash : slash ∉ (turn fs s dir k).2) (hgoes : GoesOn fs (turn fs s dir k))
    (hstays : (fs.rmdir (turn fs s dir k).1 (turn fs s dir k).2).2 = false) :
    GoesOn fs (turn fs s dir (k + 1)) := by
  rw [turn_succ, nextTurn_of_notMem hslash hgoes, GoesOn]
  simp only [posix.rmdir_failed _ _ hstays]
  exact hgoes

/-- `deleteEmptyDir(dir, true)` ends exactly when the path is absolute, or some
directory up to its first component is not an empty directory at its turn, or
some `rmdir` of the first component succeeds. -/
theorem deleteEmptyDir_ends_iff (posix : Posix fs) (s : σ) (dir : Bytes) :
    (∃ fuel t, fs.deleteEmptyDir true fuel s dir = some t) ↔
      dir.head? = some slash ∨ (∃ k ≤ dir.length, ¬ GoesOn fs (turn fs s dir k)) ∨
        ∃ k, slash ∉ (turn fs s dir k).2 ∧
          (fs.rmdir (turn fs s dir k).1 (turn fs s dir k).2).2 = true := by
  rw [deleteEmptyDir_ends_iff_turn posix]
  constructor
  · intro hstops
    classical
    have hleast := Nat.find_spec hstops
    have hbefore : ∀ k < Nat.find hstops, GoesOn fs (turn fs s dir k) :=
      fun k hk => not_not.mp (Nat.find_min hstops hk)
    generalize Nat.find hstops = k at hleast hbefore
    by_cases hk : k ≤ dir.length
    · exact Or.inr (Or.inl ⟨k, hk, hleast⟩)
    · obtain ⟨j, rfl⟩ := Nat.exists_eq_succ_of_ne_zero (n := k) (by omega)
      have hslash : slash ∉ (turn fs s dir j).2 := by
        rw [turn_snd]
        exact notMem_iterate_parentOf (by omega)
      refine Or.inr (Or.inr ⟨j, hslash, ?_⟩)
      by_contra hstays
      exact hleast (goesOn_succ posix hslash (hbefore j (Nat.lt_succ_self j))
        (Bool.eq_false_iff.mpr hstays))
  · rintro (hfront | ⟨k, -, hstops⟩ | ⟨k, hslash, hremoved⟩)
    · exact absolute_stops posix hfront
    · exact ⟨k, hstops⟩
    · exact removed_stops posix hslash hremoved

end Ends

/-- A directory `a` that is empty, and that `rmdir` removes. -/
def emptyBelow : FileOps Bool where
  opendir s path :=
    if s = true ∧ (path = ascii "a" ∨ path = ascii "a/") then some [thisDir, upperDir] else none
  rmdir s path := if s = true ∧ path = ascii "a" then (false, true) else (s, false)
  remove s _ := (s, false)
  unlink s _ := (s, false)

theorem posix_emptyBelow : Posix emptyBelow where
  opendir_nil s := by simp [emptyBelow, ascii]
  rmdir_done s path h := by
    by_cases hpath : s = true ∧ path = ascii "a"
    · simp [emptyBelow, hpath]
    · simp [emptyBelow, hpath] at h
  rmdir_failed s path h := by
    by_cases hpath : s = true ∧ path = ascii "a"
    · simp [emptyBelow, hpath] at h
    · simp [emptyBelow, hpath]

theorem deleteEmptyDir_ends_below :
    ∃ fuel t, emptyBelow.deleteEmptyDir true fuel true (ascii "a/") = some t := by
  refine (deleteEmptyDir_ends_iff posix_emptyBelow true (ascii "a/")).mpr
    (Or.inr (Or.inl ⟨1, by decide, fun hgoes => ?_⟩))
  exact absurd hgoes.1 (by decide)

/-- A working directory that is empty, and that `rmdir` does not remove. -/
def emptyHere : FileOps Unit where
  opendir _ path := if path = ascii "." ∨ path = ascii "./" then some [thisDir, upperDir] else none
  rmdir s _ := (s, false)
  remove s _ := (s, false)
  unlink s _ := (s, false)

theorem posix_emptyHere : Posix emptyHere where
  opendir_nil _ := rfl
  rmdir_done _ _ h := by cases h
  rmdir_failed _ _ _ := rfl

/-- The clean-up of the working directory never ends. -/
theorem deleteEmptyDir_never_ends :
    ¬ ∃ fuel t, emptyHere.deleteEmptyDir true fuel () (ascii "./") = some t := by
  rw [deleteEmptyDir_ends_iff_turn posix_emptyHere]
  rintro ⟨k, hstops⟩
  have hpath : ∀ path, path = ascii "./" ∨ path = ascii "." →
      parentOf path = ascii "." ∧ GoesOn emptyHere ((), path) := by
    rintro path (rfl | rfl)
    · exact ⟨by decide, by decide, by decide⟩
    · exact ⟨by decide, by decide, by decide⟩
  have hturn : (turn emptyHere () (ascii "./") k).2 = ascii "./" ∨
      (turn emptyHere () (ascii "./") k).2 = ascii "." := by
    clear hstops
    induction k with
    | zero => exact Or.inl rfl
    | succ k ih =>
        rw [turn_succ]
        exact Or.inr (hpath _ ih).1
  exact hstops (hpath _ hturn).2

end FFZKit.Util.File
