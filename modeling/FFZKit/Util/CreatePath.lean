import FFZKit.Foundations.Sweep
import FFZKit.Util.MakeDirectory
import FFZKit.Util.SplitLoop

/-!
# `File::create_path`

The loop goes from slash to slash and makes each directory on the way that is
missing. It ends where `find` finds no more slash: `npos + 1` is 0, and the
prefix of that length is empty.

## Implementation notes

`mkdir` may also fail where the tree allows it; `refuse` tells which of the calls
do, permissions and a full device included. The calls are a history, in which
each comes with whether its path existed. Every prefix that is tried ends with a
slash, so that `access` finds it when it leads to a directory. Paths hold no NUL.
-/

namespace FFZKit.Util.File

open FFZKit.Foundations

/-- A call of `mkdir`, whether the path existed then, and whether it succeeded. -/
structure MkdirCall where
  dir : Bytes
  mode : UInt32
  existed : Bool
  made : Bool

/-- The file system and the calls of `mkdir` so far. -/
structure Disk where
  tree : FileTree
  calls : List MkdirCall

section Calls

variable (refuse : Nat → Bool) (linkMax : Nat) (cwd : Loc)

/-- `access(dir, 0)` of a path with a slash at its end -/
def access (w : Disk) (dir : Bytes) : Int :=
  if isDir (w.tree.opendir linkMax cwd) dir then 0 else -1

/-- `mkdir(dir, mode)` -/
def mkdir (w : Disk) (dir : Bytes) (mode : UInt32) : Int × Disk :=
  let r := if refuse w.calls.length then (w.tree, false) else w.tree.mkdir linkMax cwd dir
  let call := ⟨dir, mode, isDir (w.tree.opendir linkMax cwd) dir, r.2⟩
  (if r.2 then 0 else -1, ⟨r.1, w.calls ++ [call]⟩)

/-- `path.find('/', index) + 1`, where `npos + 1` is 0 -/
def afterSlash (path : Bytes) (index : Nat) : Nat :=
  match findFrom [slash] path index with
  | none => 0
  | some found => found + 1

/-- The loop of `create_path` and `create_file`: whether it comes to its end. -/
def createLoop (path : Bytes) (mod : UInt32) : Nat → Nat → Disk → Option (Bool × Disk)
  | 0, _, _ => none
  | turns + 1, index, w =>
      let index := afterSlash path index
      let dir := path.take index
      if dir.length = 0 then some (true, w)
      else if access linkMax cwd w dir = -1 then
        let r := mkdir refuse linkMax cwd w dir mod
        if r.1 = -1 then some (false, r.2) else createLoop path mod turns index r.2
      else createLoop path mod turns index w

/-- `create_path(file, mod)` -/
def create_path (turns : Nat) (file : Bytes) (mod : UInt32) (w : Disk) : Option (Bool × Disk) :=
  createLoop refuse linkMax cwd file mod turns 1 w

/-- `create_file(file, mode)`: whether a file is returned. The source reads outside
of a path that is empty. -/
def create_file (fopen : Disk → Bytes → Bytes → Bool × Disk) (turns : Nat) (file mode : Bytes)
    (w : Disk) : Option (Option (Bool × Disk)) :=
  (createLoop refuse linkMax cwd file 0o777 turns 1 w).map (openFile fopen file mode)
where
  /-- What follows the loop. -/
  openFile (fopen : Disk → Bytes → Bytes → Bool × Disk) (file mode : Bytes) (r : Bool × Disk) :
      Option (Bool × Disk) :=
    if !r.1 then some (false, r.2)
    else
      match file.getLast? with
      | none => none
      | some back => if back ≠ slash then some (fopen r.2 file mode) else some (false, r.2)

/-- `FileChannelBase::open` with the path of the channel. -/
def openChannel (fstream : Disk → Bytes → Bool × Disk) (turns : Nat) (_path : Bytes)
    (w : Disk) : Option (Except String Bool × Disk) :=
  if _path = [] then some (.error "Log file path must be set", w)
  else
    (create_path refuse linkMax cwd turns _path 0o777 w).map fun r =>
      ((fstream r.2 _path).map .ok id)

end Calls

/-- A prefix of the path that ends with a slash, not with the one at index 0. -/
def IsAncestor (path p : Bytes) : Prop :=
  ∃ i, 1 ≤ i ∧ path[i]? = some slash ∧ p = path.take (i + 1)

/-- The prefixes that end with a slash at `index` or later, from the shortest to the longest. -/
def ancestorsFrom (path : Bytes) (index : Nat) : List Bytes :=
  ((List.range' index (path.length - index)).filter fun i => path[i]? = some slash).map
    fun i => path.take (i + 1)

theorem mem_ancestorsFrom {path p : Bytes} {index : Nat} :
    p ∈ ancestorsFrom path index ↔
      ∃ i, index ≤ i ∧ path[i]? = some slash ∧ p = path.take (i + 1) := by
  simp only [ancestorsFrom, List.mem_map, List.mem_filter, List.mem_range'_1, decide_eq_true_eq]
  constructor
  · rintro ⟨i, ⟨⟨hle, -⟩, hslash⟩, rfl⟩
    exact ⟨i, hle, hslash, rfl⟩
  · rintro ⟨i, hle, hslash, rfl⟩
    have hlt : i < path.length := (List.getElem?_eq_some_iff.mp hslash).1
    exact ⟨i, ⟨⟨hle, by omega⟩, hslash⟩, rfl⟩

/-- The prefixes get longer. -/
theorem pairwise_ancestorsFrom (path : Bytes) (index : Nat) :
    (ancestorsFrom path index).Pairwise fun p q => p.length < q.length := by
  rw [ancestorsFrom, List.pairwise_map]
  have hsorted := (List.pairwise_lt_range' (s := index) (n := path.length - index)).filter
    (fun i => path[i]? = some slash)
  apply hsorted.imp_of_mem
  intro i j hi hj hlt
  have hj' := (List.mem_filter.mp hj).2
  have hlen : j < path.length := (List.getElem?_eq_some_iff.mp (by simpa using hj')).1
  rw [List.length_take, List.length_take]
  omega

theorem findFrom_slash_none {path : Bytes} {index : Nat}
    (h : findFrom [slash] path index = none) : ∀ i, index ≤ i → path[i]? ≠ some slash := by
  intro i hi hslash
  have hlt : i < path.length := (List.getElem?_eq_some_iff.mp hslash).1
  rw [findFrom, if_pos (by omega), Option.map_eq_none_iff] at h
  apply find_eq_none h
  rw [List.singleton_infix_iff, List.mem_iff_getElem?]
  exact ⟨i - index, by rw [List.getElem?_drop, Nat.add_sub_cancel' hi, hslash]⟩

theorem findFrom_slash_some {path : Bytes} {index i : Nat}
    (h : findFrom [slash] path index = some i) : index ≤ i ∧ path[i]? = some slash ∧
      ∀ j, index ≤ j → j < i → path[j]? ≠ some slash := by
  have hprefix : ∀ k, [slash] <+: path.drop k ↔ path[k]? = some slash := by
    intro k
    rw [← List.head?_drop]
    cases path.drop k with
    | nil => simp
    | cons c rest => simp [eq_comm]
  rw [findFrom] at h
  split at h
  · obtain ⟨k, hfind, rfl⟩ := Option.map_eq_some_iff.mp h
    obtain ⟨hfound, hfirst⟩ := find_eq_some hfind
    rw [List.drop_drop, hprefix] at hfound
    refine ⟨Nat.le_add_right index k, hfound, fun j hj hlt hslash => ?_⟩
    apply hfirst (j - index) (by omega)
    rw [List.drop_drop, Nat.add_sub_cancel' hj, hprefix]
    exact hslash
  · cases h

theorem ancestorsFrom_of_none {path : Bytes} {index : Nat}
    (h : findFrom [slash] path index = none) : ancestorsFrom path index = [] := by
  rw [List.eq_nil_iff_forall_not_mem]
  intro p hp
  obtain ⟨i, hi, hslash, -⟩ := mem_ancestorsFrom.mp hp
  exact findFrom_slash_none h i hi hslash

theorem ancestorsFrom_of_some {path : Bytes} {index i : Nat}
    (h : findFrom [slash] path index = some i) :
    ancestorsFrom path index = path.take (i + 1) :: ancestorsFrom path (i + 1) := by
  obtain ⟨hle, hslash, hfirst⟩ := findFrom_slash_some h
  have hlt : i < path.length := (List.getElem?_eq_some_iff.mp hslash).1
  have hrange : List.range' index (path.length - index) =
      List.range' index (i - index) ++ i :: List.range' (i + 1) (path.length - (i + 1)) := by
    rw [← List.range'_succ, ← Nat.add_sub_cancel' hle]
    simp only [Nat.add_sub_cancel_left]
    rw [List.range'_append_1]
    congr 1
    omega
  have hnone : (List.range' index (i - index)).filter (fun j => path[j]? = some slash) = [] := by
    rw [List.filter_eq_nil_iff]
    intro j hj
    obtain ⟨hlow, hhigh⟩ := List.mem_range'_1.mp hj
    simpa using hfirst j hlow (by omega)
  rw [ancestorsFrom, hrange, List.filter_append, hnone, List.nil_append,
    List.filter_cons_of_pos (by simpa using hslash), List.map_cons, ancestorsFrom]

section Maker

variable (refuse : Nat → Bool) (linkMax : Nat) (cwd : Loc)

/-- `mkdir` fails and leaves the tree alone, or makes the directory. -/
theorem mkdir_cases (w : Disk) (dir : Bytes) (mode : UInt32) :
    let existed := isDir (w.tree.opendir linkMax cwd) dir
    mkdir refuse linkMax cwd w dir mode =
        (-1, ⟨w.tree, w.calls ++ [⟨dir, mode, existed, false⟩]⟩) ∨
      (w.tree.mkdir linkMax cwd dir).2 = true ∧ mkdir refuse linkMax cwd w dir mode =
        (0, ⟨(w.tree.mkdir linkMax cwd dir).1, w.calls ++ [⟨dir, mode, existed, true⟩]⟩) := by
  by_cases hrefuse : refuse w.calls.length = true
  · left
    simp [mkdir, hrefuse]
  · cases hmade : (w.tree.mkdir linkMax cwd dir).2 with
    | false =>
        left
        simp [mkdir, hrefuse, hmade, FileTree.mkdir_failed hmade]
    | true =>
        right
        simp [mkdir, hrefuse, hmade]

variable {refuse linkMax cwd}

/-- A path leads where it led before. -/
theorem leads_mkdir {w : Disk} {dir other : Bytes} {mode : UInt32} {loc : Loc}
    (h : w.tree.Leads linkMax cwd other loc) :
    (mkdir refuse linkMax cwd w dir mode).2.tree.Leads linkMax cwd other loc := by
  rcases mkdir_cases refuse linkMax cwd w dir mode with hfailed | ⟨-, hmade⟩
  · rw [hfailed]
    exact h
  · rw [hmade]
    exact h.mkdir

/-- A directory that is made is the only change, and its path leads to it. -/
theorem mkdir_zero {w : Disk} {dir : Bytes} {mode : UInt32}
    (h : (mkdir refuse linkMax cwd w dir mode).1 = 0) :
    ∃ loc, (mkdir refuse linkMax cwd w dir mode).2.tree.Leads linkMax cwd dir loc ∧
      ∀ other ≠ loc,
        (mkdir refuse linkMax cwd w dir mode).2.tree.kind other = w.tree.kind other := by
  rcases mkdir_cases refuse linkMax cwd w dir mode with hfailed | ⟨htree, hmade⟩
  · rw [hfailed] at h
    cases h
  · rw [hmade]
    exact FileTree.mkdir_made htree

/-- A `mkdir` that fails changes nothing but the history. -/
theorem mkdir_ne_zero {w : Disk} {dir : Bytes} {mode : UInt32}
    (h : (mkdir refuse linkMax cwd w dir mode).1 ≠ 0) :
    (mkdir refuse linkMax cwd w dir mode).2.tree = w.tree := by
  rcases mkdir_cases refuse linkMax cwd w dir mode with hfailed | ⟨-, hmade⟩
  · rw [hfailed]
  · rw [hmade] at h
    exact absurd rfl h

/-- What the history of a path that was missing says. -/
theorem calls_mkdir (refuse : Nat → Bool) (mode : UInt32) {w : Disk} {dir : Bytes}
    (missing : ¬ isDir (w.tree.opendir linkMax cwd) dir = true) :
    (mkdir refuse linkMax cwd w dir mode).2.calls = w.calls ++
      [⟨dir, mode, false, (mkdir refuse linkMax cwd w dir mode).1 = 0⟩] := by
  rcases mkdir_cases refuse linkMax cwd w dir mode with hfailed | ⟨-, hmade⟩
  · rw [hfailed, Bool.eq_false_iff.mpr missing]
    rfl
  · rw [hmade, Bool.eq_false_iff.mpr missing]
    rfl

/-- Directories are made where `access` finds none. -/
def maker (refuse : Nat → Bool) (linkMax : Nat) (cwd : Loc) (mode : UInt32) :
    Maker Disk Bytes where
  has w dir := isDir (w.tree.opendir linkMax cwd) dir = true
  make w dir :=
    ((mkdir refuse linkMax cwd w dir mode).2, (mkdir refuse linkMax cwd w dir mode).1 = 0)
  keeps h := by
    obtain ⟨loc, hleads⟩ := FileTree.isDir_iff.mp h
    exact FileTree.isDir_iff.mpr ⟨loc, leads_mkdir hleads⟩
  makes h := by
    obtain ⟨loc, hleads, -⟩ := mkdir_zero (of_decide_eq_true h)
    exact FileTree.isDir_iff.mpr ⟨loc, hleads⟩

end Maker

section Loop

variable {refuse : Nat → Bool} {linkMax : Nat} {cwd : Loc} {path : Bytes} {mod : UInt32}
  {index : Nat} {w : Disk}

theorem createLoop_of_none (h : findFrom [slash] path index = none) (turns : Nat) :
    createLoop refuse linkMax cwd path mod (turns + 1) index w = some (true, w) := by
  simp [createLoop, afterSlash, h]

theorem createLoop_of_some {i : Nat} (h : findFrom [slash] path index = some i) (turns : Nat) :
    createLoop refuse linkMax cwd path mod (turns + 1) index w =
      let dir := path.take (i + 1)
      let r := mkdir refuse linkMax cwd w dir mod
      if isDir (w.tree.opendir linkMax cwd) dir then
        createLoop refuse linkMax cwd path mod turns (i + 1) w
      else if r.1 = -1 then some (false, r.2)
      else createLoop refuse linkMax cwd path mod turns (i + 1) r.2 := by
  have hlt : i < path.length :=
    (List.getElem?_eq_some_iff.mp (findFrom_slash_some h).2.1).1
  have hdir : (path.take (i + 1)).length ≠ 0 := by
    rw [List.length_take]
    omega
  simp only [createLoop, afterSlash, h, if_neg hdir, access]
  cases isDir (w.tree.opendir linkMax cwd) (path.take (i + 1)) with
  | true => simp
  | false => simp

/-- The loop ends, and is a sweep over the prefixes that are left. -/
theorem settles_createLoop (refuse : Nat → Bool) (linkMax : Nat) (cwd : Loc) (path : Bytes)
    (mod : UInt32) (index : Nat) (w : Disk) :
    ∃ tried w' ok,
      Sweep (maker refuse linkMax cwd mod) (ancestorsFrom path index) w tried w' ok ∧
        Settles (fun turns => createLoop refuse linkMax cwd path mod turns index w) (ok, w') := by
  induction hn : path.length - index using Nat.strong_induction_on generalizing index w with
  | h n ih =>
      cases hfind : findFrom [slash] path index with
      | none =>
          refine ⟨[], w, true, ?_, (settles_const _).succ fun _ => createLoop_of_none hfind _⟩
          rw [ancestorsFrom_of_none hfind]
          exact .done
      | some i =>
          obtain ⟨hle, hslash, -⟩ := findFrom_slash_some hfind
          have hlt : i < path.length := (List.getElem?_eq_some_iff.mp hslash).1
          have hrest : ∀ u : Disk, ∃ tried w' ok, Sweep (maker refuse linkMax cwd mod)
              (ancestorsFrom path (i + 1)) u tried w' ok ∧
                Settles (fun turns =>
                  createLoop refuse linkMax cwd path mod turns (i + 1) u) (ok, w') :=
            fun u => ih (path.length - (i + 1)) (by omega) (i + 1) u rfl
          rw [ancestorsFrom_of_some hfind]
          by_cases hthere : isDir (w.tree.opendir linkMax cwd) (path.take (i + 1)) = true
          · obtain ⟨tried, w', ok, hsweep, hsettles⟩ := hrest w
            refine ⟨tried, w', ok, .skip hthere hsweep, hsettles.succ fun turns => ?_⟩
            simp only [createLoop_of_some hfind, hthere, if_true]
          · rcases mkdir_cases refuse linkMax cwd w (path.take (i + 1)) mod with
              hfailed | ⟨-, hmade⟩
            · have hret : (mkdir refuse linkMax cwd w (path.take (i + 1)) mod).1 = -1 := by
                rw [hfailed]
              refine ⟨_, _, false, .fail hthere (by simp [maker, hret]),
                (settles_const _).succ fun turns => ?_⟩
              simp only [createLoop_of_some hfind, hthere, hret, if_true, maker]
              rfl
            · have hret : (mkdir refuse linkMax cwd w (path.take (i + 1)) mod).1 = 0 := by
                rw [hmade]
              obtain ⟨tried, w', ok, hsweep, hsettles⟩ :=
                hrest (mkdir refuse linkMax cwd w (path.take (i + 1)) mod).2
              refine ⟨_, w', ok, .make hthere (by simp [maker, hret]) hsweep,
                hsettles.succ fun turns => ?_⟩
              simp [createLoop_of_some hfind, hthere, hret]

/-- All calls succeed, or the last one fails. -/
def Outcome : Bool → List MkdirCall → Prop
  | true, calls => ∀ call ∈ calls, call.made = true
  | false, calls => ∃ front last, calls = front ++ [last] ∧ last.made = false ∧
      ∀ call ∈ front, call.made = true

theorem Outcome.cons {ok : Bool} {call : MkdirCall} {calls : List MkdirCall}
    (h : Outcome ok calls) (hcall : call.made = true) : Outcome ok (call :: calls) := by
  cases ok with
  | true => exact List.forall_mem_cons.mpr ⟨hcall, h⟩
  | false =>
      obtain ⟨front, last, rfl, hlast, hfront⟩ := h
      exact ⟨call :: front, last, rfl, hlast, List.forall_mem_cons.mpr ⟨hcall, hfront⟩⟩

/-- What a sweep calls `mkdir` with, and what it changes. -/
structure Swept (linkMax : Nat) (cwd : Loc) (mod : UInt32) (w : Disk) (tried : List Bytes)
    (w' : Disk) (ok : Bool) (calls : List MkdirCall) : Prop where
  history : w'.calls = w.calls ++ calls
  dirs : calls.map MkdirCall.dir = tried
  modes : ∀ call ∈ calls, call.mode = mod
  missing : ∀ call ∈ calls, call.existed = false
  outcome : Outcome ok calls
  only : ∀ loc, w'.tree.kind loc ≠ w.tree.kind loc →
    ∃ call ∈ calls, call.made = true ∧ w'.tree.Leads linkMax cwd call.dir loc

theorem leads_sweep {keys tried : List Bytes} {w' : Disk} {ok : Bool} {dir : Bytes} {loc : Loc}
    (h : Sweep (maker refuse linkMax cwd mod) keys w tried w' ok)
    (hleads : w.tree.Leads linkMax cwd dir loc) : w'.tree.Leads linkMax cwd dir loc := by
  induction h with
  | done => exact hleads
  | skip there rest ih => exact ih hleads
  | make missing made rest ih => exact ih (leads_mkdir hleads)
  | fail missing failed => exact leads_mkdir hleads

theorem exists_swept {keys tried : List Bytes} {w' : Disk} {ok : Bool}
    (h : Sweep (maker refuse linkMax cwd mod) keys w tried w' ok) :
    ∃ calls, Swept linkMax cwd mod w tried w' ok calls := by
  induction h with
  | @done w => exact ⟨[], by simp, rfl, by simp, by simp, by simp [Outcome], by simp⟩
  | skip there rest ih => exact ih
  | @make dir keys w tried w' ok missing made rest ih =>
      obtain ⟨calls, hswept⟩ := ih
      obtain ⟨place, hplace, hothers⟩ := mkdir_zero (of_decide_eq_true made)
      have hcalls := calls_mkdir refuse mod missing
      rw [show decide _ = true from made] at hcalls
      have hhistory : w'.calls =
          (mkdir refuse linkMax cwd w dir mod).2.calls ++ calls := hswept.history
      refine ⟨⟨dir, mod, false, true⟩ :: calls, ?_, ?_, ?_, ?_, hswept.outcome.cons rfl, ?_⟩
      · rw [hhistory, hcalls, List.append_assoc, List.singleton_append]
      · rw [List.map_cons, hswept.dirs]
      · exact List.forall_mem_cons.mpr ⟨rfl, hswept.modes⟩
      · exact List.forall_mem_cons.mpr ⟨rfl, hswept.missing⟩
      · intro loc hloc
        by_cases hlater : w'.tree.kind loc =
            (mkdir refuse linkMax cwd w dir mod).2.tree.kind loc
        · have heq : loc = place := by
            by_contra hne
            exact hloc (hlater.trans (hothers loc hne))
          exact ⟨_, List.mem_cons_self, rfl, heq ▸ leads_sweep rest hplace⟩
        · obtain ⟨call, hcall, hleads⟩ := hswept.only loc hlater
          exact ⟨call, List.mem_cons_of_mem _ hcall, hleads⟩
  | @fail dir keys w missing failed =>
      have hcalls := calls_mkdir refuse mod missing
      rw [show decide _ = false from failed] at hcalls
      refine ⟨[⟨dir, mod, false, false⟩], hcalls, rfl, by simp, by simp,
        ⟨[], _, rfl, rfl, by simp⟩, ?_⟩
      intro loc hloc
      have hsame := mkdir_ne_zero (of_decide_eq_false failed)
      exact absurd (congrArg (fun tree => FileTree.kind tree loc) hsame) hloc

end Loop

/-- What a call of `create_path` does: it ends in `w'` with the answer `ret`, after
the calls of `mkdir` in `calls`. -/
structure MakesMissing (refuse : Nat → Bool) (linkMax : Nat) (cwd : Loc) (file : Bytes)
    (mod : UInt32) (w : Disk) (ret : Bool) (w' : Disk) (calls : List MkdirCall) : Prop where
  ends : Settles (fun turns => create_path refuse linkMax cwd turns file mod w) (ret, w')
  history : w'.calls = w.calls ++ calls
  ancestors : ∀ call ∈ calls, IsAncestor file call.dir ∧ call.mode = mod
  missing : ∀ call ∈ calls, call.existed = false ∧ access linkMax cwd w call.dir = -1
  ordered : calls.Pairwise fun c d => c.dir.length < d.dir.length
  complete : ret = true → (∀ call ∈ calls, call.made = true) ∧
    ∀ p, IsAncestor file p → access linkMax cwd w' p = 0
  stopped : ret = false → ∃ front last, calls = front ++ [last] ∧ last.made = false ∧
    (∀ call ∈ front, call.made = true) ∧
    ∀ p, IsAncestor file p → p.length < last.dir.length → access linkMax cwd w' p = 0
  only : ∀ loc, w'.tree.kind loc ≠ w.tree.kind loc →
    ∃ call ∈ calls, call.made = true ∧ w'.tree.Leads linkMax cwd call.dir loc
  again : ret = true → ∀ mod',
    Settles (fun turns => create_path refuse linkMax cwd turns file mod' w') (true, w')

section Answers

variable {refuse : Nat → Bool} {linkMax : Nat} {cwd : Loc} {file dir : Bytes} {mod : UInt32}
  {w w' : Disk} {tried : List Bytes} {ret : Bool} {calls : List MkdirCall}

theorem access_eq_zero (h : isDir (w.tree.opendir linkMax cwd) dir = true) :
    access linkMax cwd w dir = 0 := if_pos h

theorem access_eq_neg_one (h : ¬ isDir (w.tree.opendir linkMax cwd) dir = true) :
    access linkMax cwd w dir = -1 := if_neg h

theorem isAncestor_iff {p : Bytes} : IsAncestor file p ↔ p ∈ ancestorsFrom file 1 :=
  mem_ancestorsFrom.symm

/-- Where the loop comes to its end, every prefix exists. -/
theorem access_of_complete
    (h : Sweep (maker refuse linkMax cwd mod) (ancestorsFrom file 1) w tried w' ret)
    (hret : ret = true) (p : Bytes) (hp : IsAncestor file p) : access linkMax cwd w' p = 0 := by
  subst hret
  exact access_eq_zero (h.complete p (isAncestor_iff.mp hp))

theorem mem_tried (h : Swept linkMax cwd mod w tried w' ret calls) {call : MkdirCall}
    (hcall : call ∈ calls) : call.dir ∈ tried := by
  rw [← h.dirs]
  exact List.mem_map_of_mem hcall

/-- The prefixes shorter than the one that the loop stops at exist. -/
theorem access_of_shorter
    (h : Sweep (maker refuse linkMax cwd mod) (ancestorsFrom file 1) w tried w' false)
    {last : Bytes} (hlast : tried.getLast? = some last) {p : Bytes} (hp : IsAncestor file p)
    (hlt : p.length < last.length) : access linkMax cwd w' p = 0 := by
  obtain ⟨front, last', back, hkeys, hlast', hfront⟩ := h.stopped
  obtain rfl : last = last' := Option.some.inj (hlast.symm.trans hlast')
  have hsorted := pairwise_ancestorsFrom file 1
  rw [hkeys] at hsorted
  rw [isAncestor_iff, hkeys, List.mem_append] at hp
  rcases hp with hp | hp
  · exact access_eq_zero (hfront p hp)
  · have hafter := (List.pairwise_append.mp hsorted).2.1
    rcases List.mem_cons.mp hp with rfl | hp
    · exact absurd hlt (lt_irrefl _)
    · exact absurd hlt (List.rel_of_pairwise_cons hafter hp).asymm

/-- Where every prefix exists, the loop makes no call. -/
theorem settles_again (h : ∀ p, IsAncestor file p → isDir (w.tree.opendir linkMax cwd) p = true)
    (mod : UInt32) :
    Settles (fun turns => create_path refuse linkMax cwd turns file mod w) (true, w) := by
  obtain ⟨tried, w', ret, hsweep, hsettles⟩ := settles_createLoop refuse linkMax cwd file mod 1 w
  obtain ⟨-, rfl, rfl⟩ := hsweep.idle fun p hp => h p (isAncestor_iff.mpr hp)
  exact hsettles

/-- `create_path` makes the directories on the way to the file that are missing,
and no others, whatever the file system and the failures of `mkdir`. -/
theorem create_path_makes_missing (refuse : Nat → Bool) (linkMax : Nat) (cwd : Loc)
    (file : Bytes) (mod : UInt32) (w : Disk) :
    ∃ ret w' calls, MakesMissing refuse linkMax cwd file mod w ret w' calls := by
  obtain ⟨tried, w', ret, hsweep, hsettles⟩ := settles_createLoop refuse linkMax cwd file mod 1 w
  obtain ⟨calls, hswept⟩ := exists_swept hsweep
  have hexist : ret = true → ∀ p, IsAncestor file p →
      isDir (w'.tree.opendir linkMax cwd) p = true := by
    rintro rfl p hp
    exact hsweep.complete p (isAncestor_iff.mp hp)
  refine ⟨ret, w', calls, hsettles, hswept.history, ?_, ?_, ?_, ?_, ?_, hswept.only, ?_⟩
  · intro call hcall
    have hmem := hsweep.sublist.subset (mem_tried hswept hcall)
    exact ⟨isAncestor_iff.mpr hmem, hswept.modes call hcall⟩
  · intro call hcall
    have hmissing := hsweep.missing call.dir (mem_tried hswept hcall)
    exact ⟨hswept.missing call hcall, access_eq_neg_one hmissing⟩
  · have hsorted := (pairwise_ancestorsFrom file 1).sublist hsweep.sublist
    rwa [← hswept.dirs, List.pairwise_map] at hsorted
  · intro hret
    have houtcome := hswept.outcome
    rw [hret] at houtcome
    exact ⟨houtcome, access_of_complete hsweep hret⟩
  · rintro rfl
    obtain ⟨front, last, hcalls, hlast, hfront⟩ := hswept.outcome
    refine ⟨front, last, hcalls, hlast, hfront, fun p hp hlt => ?_⟩
    refine access_of_shorter hsweep ?_ hp hlt
    rw [← hswept.dirs, hcalls, List.map_append, List.map_singleton, List.getLast?_concat]
  · exact fun hret => settles_again (hexist hret)

/-- A doubled slash gives a prefix that exists once the one before it does. -/
example : (create_path (fun _ => false) 8 [] 6 (ascii "a//b/c") 0o777
      ⟨⟨[], by simp, by simp, by simp⟩, []⟩).map
        (fun r => (r.1, r.2.calls.map MkdirCall.dir)) =
    some (true, [ascii "a/", ascii "a//b/"]) := by
  decide +kernel

/-- `create_file` opens the file when every directory on the way to it exists, and
the path does not end with a slash. -/
theorem create_file_opens (fopen : Disk → Bytes → Bytes → Bool × Disk) (hfile : file ≠ [])
    (mode : Bytes) (w : Disk) : ∃ made w',
      (made = true → ∀ p, IsAncestor file p → access linkMax cwd w' p = 0) ∧
      Settles (fun turns => create_file refuse linkMax cwd fopen turns file mode w)
        (some (if made = true ∧ file.getLast? ≠ some slash then fopen w' file mode
          else (false, w'))) := by
  obtain ⟨tried, w', made, hsweep, hsettles⟩ :=
    settles_createLoop refuse linkMax cwd file 0o777 1 w
  refine ⟨made, w', access_of_complete hsweep, ?_⟩
  have hopen : create_file.openFile fopen file mode (made, w') =
      some (if made = true ∧ file.getLast? ≠ some slash then fopen w' file mode
        else (false, w')) := by
    obtain ⟨back, hback⟩ := Option.isSome_iff_exists.mp (List.getLast?_isSome.mpr hfile)
    cases made with
    | true => by_cases hslash : back = slash <;> simp [create_file.openFile, hback, hslash]
    | false => simp [create_file.openFile]
  rw [← hopen]
  exact hsettles.map (create_file.openFile fopen file mode)

/-- A channel is opened after an attempt to make the directories, whatever came of it. -/
theorem openChannel_creates (fstream : Disk → Bytes → Bool × Disk) (hfile : file ≠ [])
    (w : Disk) : ∃ made w',
      (made = true → ∀ p, IsAncestor file p → access linkMax cwd w' p = 0) ∧
      Settles (fun turns => openChannel refuse linkMax cwd fstream turns file w)
        ((fstream w' file).map .ok id) := by
  obtain ⟨tried, w', made, hsweep, hsettles⟩ :=
    settles_createLoop refuse linkMax cwd file 0o777 1 w
  refine ⟨made, w', access_of_complete hsweep, ?_⟩
  simp only [openChannel, if_neg hfile]
  exact hsettles.map fun r => (fstream r.2 file).map (Except.ok (ε := String)) id

end Answers

end FFZKit.Util.File
