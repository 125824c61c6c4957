import FFZKit.Foundations.Visit
import FFZKit.Util.DirectoryWalk
import FFZKit.Util.PathConfinement

/-!
# Scanning a directory tree

A finite tree of directories, as `opendir` and `readdir` show it, and what
`scanDir` does on it, entry by entry.
-/

namespace FFZKit.Util.File

/-- The entries of a directory, in the order of `readdir`. -/
inductive Entries
  | nil
  | file (name : Bytes) (rest : Entries)
  | dir (name : Bytes) (sub rest : Entries)

namespace Entries

/-- The direct children alone. -/
def shallow : Entries → Entries
  | nil => nil
  | file name rest => file name rest.shallow
  | dir name _ rest => dir name nil rest.shallow

/-- The entries below a directory that a scan is asked for. -/
def reached (enterSubdirectory : Bool) (tree : Entries) : Entries :=
  if enterSubdirectory then tree else tree.shallow

@[simp] theorem reached_nil (enterSubdirectory : Bool) : nil.reached enterSubdirectory = nil := by
  cases enterSubdirectory <;> rfl

@[simp] theorem reached_file (enterSubdirectory : Bool) (name : Bytes) (rest : Entries) :
    (file name rest).reached enterSubdirectory = file name (rest.reached enterSubdirectory) := by
  cases enterSubdirectory <;> rfl

@[simp] theorem reached_dir (enterSubdirectory : Bool) (name : Bytes) (sub rest : Entries) :
    (dir name sub rest).reached enterSubdirectory =
      dir name (if enterSubdirectory then sub else nil) (rest.reached enterSubdirectory) := by
  cases enterSubdirectory <;> rfl

/-- The length of the longest way down. -/
def depth : Entries → Nat
  | nil => 0
  | file _ rest => rest.depth
  | dir _ sub rest => max (sub.depth + 1) rest.depth

/-- An entry is shown when hidden ones are, or when it is not hidden. -/
def shown (view : Bool) (name : Bytes) : Bool := view || !isHidden name

/-- All entries below `base` that are to be visited, depth first. -/
def listing (showHiddenFile : Bool) : Bytes → Entries → ScanCalls
  | _, nil => []
  | base, file name rest =>
      if shown showHiddenFile name then
        (childPath base name, false) :: listing showHiddenFile base rest
      else listing showHiddenFile base rest
  | base, dir name sub rest =>
      if shown showHiddenFile name then
        (childPath base name, true) ::
          (listing showHiddenFile (childPath base name) sub ++ listing showHiddenFile base rest)
      else listing showHiddenFile base rest

/-- An entry in front of the others: a directory with what is in it, or a file. -/
def entry (name : Bytes) : Option Entries → Entries → Entries
  | none, rest => file name rest
  | some sub, rest => dir name sub rest

/-- Induction entry by entry. A file has nothing below it. -/
@[elab_as_elim]
theorem entry_induction {motive : Entries → Prop} (nil : motive nil)
    (entry : ∀ name inner rest, motive (inner.getD Entries.nil) → motive rest →
      motive (entry name inner rest)) (tree : Entries) : motive tree := by
  induction tree with
  | nil => exact nil
  | file name rest ih => exact entry name none rest nil ih
  | dir name sub rest ihsub ih => exact entry name (some sub) rest ihsub ih

theorem listing_entry (showHiddenFile : Bool) (base name : Bytes) (inner : Option Entries)
    (rest : Entries) :
    listing showHiddenFile base (entry name inner rest) =
      if shown showHiddenFile name then
        (childPath base name, inner.isSome) ::
          (listing showHiddenFile (childPath base name) (inner.getD nil) ++
            listing showHiddenFile base rest)
      else listing showHiddenFile base rest := by
  cases inner <;> rfl

end Entries

/-- What `readdir` returns for the directory `base` are the entries of a tree.
A file is what cannot be opened as a directory. -/
inductive Reads (opendir : Bytes → Option (List Bytes)) : Bytes → List Bytes → Entries → Prop
  | nil {base} : Reads opendir base [] .nil
  | special {base name names tree} (hspecial : isSpecialDir name = true)
      (hrest : Reads opendir base names tree) : Reads opendir base (name :: names) tree
  | file {base name names rest} (hname : Component name)
      (hopen : opendir (childPath base name) = none) (hrest : Reads opendir base names rest) :
      Reads opendir base (name :: names) (.file name rest)
  | dir {base name names inner sub rest} (hname : Component name)
      (hopen : opendir (childPath base name) = some inner)
      (hsub : Reads opendir (childPath base name) inner sub)
      (hrest : Reads opendir base names rest) :
      Reads opendir base (name :: names) (.dir name sub rest)

/-- A directory that can be opened under a path, and all that is below it.
Slashes at the end of a path do not matter, but the empty path is nothing. -/
structure TreeAt (opendir : Bytes → Option (List Bytes)) (path : Bytes) (tree : Entries) :
    Prop where
  nonempty : path ≠ []
  opendir_nil : opendir [] = none
  opendir_slash : ∀ p, p ≠ [] → opendir (p ++ [slash]) = opendir p
  reads : ∃ names, opendir path = some names ∧ Reads opendir (popSlash path) names tree

section ScanTree

variable (cb : ScanCallback)

/-- What `scanDir` does below `base`: a false answer ends the loop over one
directory, and hidden files are shown in the first directory only. -/
def scanTree : Bool → Bytes → Entries → ScanCalls → ScanCalls
  | _, _, .nil, calls => calls
  | view, base, .file name rest, calls =>
      if Entries.shown view name then
        if cb calls (childPath base name, false) then
          scanTree view base rest (calls ++ [(childPath base name, false)])
        else calls ++ [(childPath base name, false)]
      else scanTree view base rest calls
  | view, base, .dir name sub rest, calls =>
      if Entries.shown view name then
        if cb calls (childPath base name, true) then
          scanTree view base rest
            (scanTree false (childPath base name) sub (calls ++ [(childPath base name, true)]))
        else calls ++ [(childPath base name, true)]
      else scanTree view base rest calls

theorem scanTree_entry (view : Bool) (base name : Bytes) (inner : Option Entries)
    (rest : Entries) (calls : ScanCalls) :
    scanTree cb view base (.entry name inner rest) calls =
      if Entries.shown view name then
        if cb calls (childPath base name, inner.isSome) then
          scanTree cb view base rest (scanTree cb false (childPath base name) (inner.getD .nil)
            (calls ++ [(childPath base name, inner.isSome)]))
        else calls ++ [(childPath base name, inner.isSome)]
      else scanTree cb view base rest calls := by
  cases inner <;> rfl

variable {cb} {opendir : Bytes → Option (List Bytes)} {enterSubdirectory : Bool}

theorem Component.not_special {name : Bytes} (h : Component name) : isSpecialDir name = false := by
  simp only [isSpecialDir, Bool.or_eq_false_iff, beq_eq_false_iff_ne]
  exact ⟨h.notThis, h.notUpper⟩

theorem Component.popSlash_childPath {name : Bytes} (h : Component name) (base : Bytes) :
    popSlash (childPath base name) = childPath base name := by
  rw [popSlash, if_neg]
  rw [childPath, List.getLast?_append_of_ne_nil _ h.nonempty]
  exact fun hlast => h.noSlash (List.mem_of_getLast? hlast)

theorem Entries.shown_eq (view : Bool) (name : Bytes) :
    Entries.shown view name = !(!view && isHidden name) := by
  rw [Entries.shown, Bool.not_and, Bool.not_not]

/-- The loop over the entries of a directory, with enough depth for what is below it. -/
theorem scanNames_eq_scanTree {fuel : Nat} {view : Bool} {base : Bytes} {names : List Bytes}
    {tree : Entries} (hreads : Reads opendir base names tree) (hfuel : tree.depth ≤ fuel)
    (calls : ScanCalls) :
    scanNames opendir cb enterSubdirectory
        (fun path => scanDir opendir cb enterSubdirectory fuel path false) base view names calls =
      some (scanTree cb view base (tree.reached enterSubdirectory) calls) := by
  induction hreads generalizing fuel view calls with
  | nil => rw [Entries.reached_nil, scanNames, scanTree]
  | special hspecial hrest ih =>
      rw [scanNames, if_pos hspecial]
      exact ih hfuel calls
  | @file base name names rest hname hopen hrest ih =>
      rw [scanNames, hname.not_special, if_neg Bool.false_ne_true, Entries.reached_file, scanTree,
        Entries.shown_eq, isDir, hopen]
      cases !view && isHidden name with
      | true => exact ih hfuel calls
      | false =>
          cases hgo : cb calls (childPath base name, false) with
          | true => simpa [hgo] using ih hfuel _
          | false => simp [hgo]
  | @dir base name names inner sub rest hname hopen hsub hrest ihsub ih =>
      have hdepth := Nat.max_le.mp hfuel
      have hinner : ∀ calls,
          scanDir opendir cb enterSubdirectory fuel (childPath base name) false calls =
            some (scanTree cb false (childPath base name) (sub.reached enterSubdirectory)
              calls) := by
        intro calls
        obtain ⟨fuel, rfl⟩ := Nat.exists_eq_add_of_le' (Nat.le_of_add_left_le hdepth.1)
        rw [scanDir, hname.popSlash_childPath, hopen]
        exact ihsub (Nat.le_of_succ_le_succ hdepth.1) calls
      rw [scanNames, hname.not_special, if_neg Bool.false_ne_true, Entries.reached_dir, scanTree,
        Entries.shown_eq, isDir, hopen]
      cases !view && isHidden name with
      | true => exact ih hdepth.2 calls
      | false =>
          cases hgo : cb calls (childPath base name, true) with
          | false => simp [hgo]
          | true =>
              cases enterSubdirectory with
              | false => simpa [hgo, scanTree] using ih hdepth.2 _
              | true => simpa [hgo, hinner, Entries.reached] using ih hdepth.2 _

/-- With enough depth `scanDir` does what it does on the tree. The path `/`
becomes empty, and then nothing is scanned. -/
theorem scanDir_eq_scanTree {path : Bytes} {tree : Entries} (hat : TreeAt opendir path tree)
    {fuel : Nat} (hfuel : tree.depth < fuel) (view : Bool) :
    scanDir opendir cb enterSubdirectory fuel path view [] =
      some (if path = [slash] then []
        else scanTree cb view (popSlash path) (tree.reached enterSubdirectory) []) := by
  obtain ⟨fuel, rfl⟩ := Nat.exists_eq_add_of_le' (Nat.lt_of_le_of_lt (Nat.zero_le _) hfuel)
  obtain ⟨names, hopen, hreads⟩ := hat.reads
  rw [scanDir]
  by_cases hroot : path = [slash]
  · have hpop : popSlash path = [] := by
      rw [hroot]
      rfl
    rw [hpop, hat.opendir_nil, if_pos hroot]
  · have hpop : opendir (popSlash path) = some names := by
      rw [popSlash]
      split
      · rename_i hlast
        obtain ⟨front, rfl⟩ := List.getLast?_eq_some_iff.mp hlast
        have hfront : front ≠ [] := by
          rintro rfl
          exact hroot rfl
        rw [List.dropLast_concat, ← hat.opendir_slash front hfront, hopen]
      · exact hopen
    rw [hpop, if_neg hroot]
    exact scanNames_eq_scanTree hreads (Nat.le_of_lt_succ hfuel) []

end ScanTree

section Paths

/-- The path of an entry from the names on the way to it. -/
def pathBelow (base : Bytes) (names : List Bytes) : Bytes := base ++ names.flatMap (slash :: ·)

theorem childPath_eq_pathBelow (base name : Bytes) :
    childPath base name = pathBelow base [name] := by
  simp [childPath, pathBelow]

theorem pathBelow_childPath (base name : Bytes) (names : List Bytes) :
    pathBelow (childPath base name) names = pathBelow base (name :: names) := by
  simp [childPath, pathBelow]

theorem takeWhile_first {name : Bytes} (hname : slash ∉ name) (names : List Bytes) :
    (name ++ names.flatMap (slash :: ·)).takeWhile (· ≠ slash) = name := by
  have hall : ∀ c ∈ name, decide (c ≠ slash) = true := by
    intro c hc
    rw [decide_eq_true_iff]
    rintro rfl
    exact hname hc
  rw [List.takeWhile_append_of_pos hall]
  cases names with
  | nil => simp
  | cons name' names => simp

/-- The names can be told from the path. -/
theorem pathBelow_injective {base : Bytes} {names names' : List Bytes}
    (hnames : ∀ name ∈ names, slash ∉ name) (hnames' : ∀ name ∈ names', slash ∉ name)
    (h : pathBelow base names = pathBelow base names') : names = names' := by
  have hback := List.append_cancel_left h
  clear h
  induction names generalizing names' with
  | nil =>
      cases names' with
      | nil => rfl
      | cons name' names' => simp at hback
  | cons name names ih =>
      cases names' with
      | nil => simp at hback
      | cons name' names' =>
          obtain ⟨hname, hrest⟩ := List.forall_mem_cons.mp hnames
          obtain ⟨hname', hrest'⟩ := List.forall_mem_cons.mp hnames'
          simp only [List.flatMap_cons, List.cons_append, List.cons.injEq, true_and] at hback
          obtain rfl : name = name' := by
            rw [← takeWhile_first hname names, hback, takeWhile_first hname' names']
          rw [ih hrest hrest' (List.append_cancel_left hback)]

end Paths

end FFZKit.Util.File
