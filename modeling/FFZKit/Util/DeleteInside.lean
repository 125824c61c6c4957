import FFZKit.Util.DeleteReach

/-!
# What a deletion removes

The calls of `delete_file_l` in a deletion are followed, each with the tree that
it meets. As long as none of them meets a symbolic link that `opendir` resolves,
only the entry of the path and what is in it is removed.
-/

namespace FFZKit.Util.File

open FFZKit.Foundations

namespace FileTree

section Calls

variable (linkMax : Nat) (cwd : Loc)

/-- The path names a symbolic link, and `opendir` resolves it. -/
def findsLink (s : FileTree) (path : Bytes) : Bool :=
  match (s.entryOf linkMax cwd path).bind s.kind with
  | some (.link _) => isDir (s.opendir linkMax cwd) path
  | _ => false

/-- The calls in the loop over a directory, given what a call does and which calls it makes. -/
def loopCalls (recur : FileTree → Bytes → Option (FileTree × Bool))
    (calls : FileTree → Bytes → List (FileTree × Bytes)) (path : Bytes) :
    List Bytes → FileTree → List (FileTree × Bytes)
  | [], _ => []
  | name :: names, s =>
      if isSpecialDir name then loopCalls recur calls path names s
      else
        calls s (childPath path name) ++
          match recur s (childPath path name) with
          | none => []
          | some (s', _) => loopCalls recur calls path names s'

/-- The calls of `delete_file_l(path)`, itself the first, each with the tree before it. -/
def deleteCalls : Nat → FileTree → Bytes → List (FileTree × Bytes)
  | 0, _, _ => []
  | fuel + 1, s, path =>
      (s, path) ::
        match s.opendir linkMax cwd (popSlash path) with
        | none => []
        | some names =>
            loopCalls ((ops linkMax cwd).deleteFileL fuel) (deleteCalls fuel) (popSlash path)
              names s

/-- No call of the deletion finds a link that `opendir` resolves. -/
def EntersNoLink (s : FileTree) (linkMax : Nat) (cwd : Loc) (path : Bytes) : Prop :=
  ∀ call ∈ deleteCalls linkMax cwd (s.deletionDepth linkMax) s path,
    call.1.findsLink linkMax cwd (popSlash call.2) = false

instance (s : FileTree) (linkMax : Nat) (cwd : Loc) (path : Bytes) :
    Decidable (s.EntersNoLink linkMax cwd path) :=
  inferInstanceAs (Decidable (∀ _ ∈ _, _))

end Calls

section Loop

variable {s s' u : FileTree} {linkMax : Nat} {cwd : Loc} {path : Bytes}

/-- The directory that a path opens is its entry, unless that is a link. -/
theorem entryOf_of_not_findsLink (hlink : s.findsLink linkMax cwd path = false) {dir : Loc}
    {left : Nat} (hpath : path ≠ []) (hkind : s.kind dir = some .dir)
    (hway : s.Walks linkMax (startOf cwd path) (components path) dir left) :
    s.entryOf linkMax cwd path = some dir := by
  obtain ⟨loc, hentry, rfl | ⟨⟨target, htarget⟩, -⟩⟩ := entryOf_opened hpath hway
  · exact hentry
  · have hopen := opendir_eq_some.mpr ⟨hpath, dir, left, hway, hkind, rfl⟩
    simp [findsLink, hentry, htarget, isDir, hopen] at hlink

/-- The loop over a directory removes what its calls remove. -/
theorem deleteNames_inside {P : Loc → Prop} {recur : FileTree → Bytes → Option (FileTree × Bool)}
    {calls : FileTree → Bytes → List (FileTree × Bytes)} {names : List Bytes}
    {Q : FileTree × Bytes → Prop}
    (hrecur : ∀ name ∈ names, isSpecialDir name = false → ∀ v v' ret, Pruned P s v →
      (∀ call ∈ calls v (childPath path name), Q call) →
        recur v (childPath path name) = some (v', ret) → Pruned P v v')
    (hcalls : ∀ call ∈ loopCalls recur calls path names u, Q call) (hpruned : Pruned P s u)
    (h : FileOps.deleteNames recur path names u = some s') : Pruned P s s' := by
  induction names generalizing u with
  | nil => exact Option.some.inj h ▸ hpruned
  | cons name names ih =>
      obtain ⟨hfirst, hrest⟩ := List.forall_mem_cons.mp hrecur
      rw [FileOps.deleteNames] at h
      rw [loopCalls] at hcalls
      split at h
      · rename_i hspecial
        rw [if_pos hspecial] at hcalls
        exact ih hrest hcalls hpruned h
      · rename_i hspecial
        rw [if_neg hspecial] at hcalls
        split at h
        · cases h
        · rename_i v ret hcall
          rw [hcall] at hcalls
          obtain ⟨hbelow, hlater⟩ := List.forall_mem_append.mp hcalls
          have hcalled := hfirst (Bool.eq_false_iff.mpr hspecial) u v ret hpruned hbelow hcall
          exact ih hrest hlater (hpruned.trans hcalled) h

/-- The entry of a path, or what is in it. -/
def InEntry (s : FileTree) (linkMax : Nat) (cwd : Loc) (path : Bytes) (x : Loc) : Prop :=
  ∃ loc, s.entryOf linkMax cwd path = some loc ∧ loc <+: x

theorem Removal.inEntry {r : FileTree × Bool} (h : Removal u linkMax cwd path r)
    (hsub : ∀ loc k, u.kind loc = some k → s.kind loc = some k) :
    Pruned (s.InEntry linkMax cwd path) u r.1 :=
  h.pruned.imp fun loc hloc => ⟨loc, entryOf_mono hsub hloc, List.prefix_rfl⟩

/-- What the call for an entry of an opened directory removes is in the directory's entry. -/
theorem Pruned.child {name : Bytes} {names : List Bytes} {v v' : FileTree}
    (hhere : s.findsLink linkMax cwd path = false)
    (hopen : s.opendir linkMax cwd path = some names) (hmem : name ∈ names)
    (hspecial : isSpecialDir name = false)
    (hsub : ∀ loc k, v.kind loc = some k → s.kind loc = some k)
    (h : Pruned (v.InEntry linkMax cwd (popSlash (childPath path name))) v v') :
    Pruned (s.InEntry linkMax cwd path) v v' := by
  obtain ⟨hpath, dir, left, hway, hkind, rfl⟩ := opendir_eq_some.mp hopen
  obtain ⟨hname, -⟩ := mem_of_readdir hmem hspecial
  apply h.imp
  rintro x ⟨loc, hloc, hx⟩
  refine ⟨dir, entryOf_of_not_findsLink hhere hpath hkind hway, ?_⟩
  have hloc := entryOf_mono hsub hloc
  rw [hname.popSlash_childPath, entryOf_childPath hpath hname hway, Option.some.injEq] at hloc
  exact (List.prefix_append dir [name]).trans (hloc ▸ hx)

/-- A deletion that enters no link removes the entry of the path and what is in it. -/
theorem deleteFileL_inside {fuel : Nat} {r : FileTree × Bool}
    (hlinks : ∀ call ∈ deleteCalls linkMax cwd fuel s path,
      call.1.findsLink linkMax cwd (popSlash call.2) = false)
    (h : (ops linkMax cwd).deleteFileL fuel s path = some r) :
    Pruned (s.InEntry linkMax cwd (popSlash path)) s r.1 := by
  induction fuel generalizing s path r with
  | zero => cases h
  | succ fuel ih =>
      obtain ⟨hhere, hbelow⟩ := List.forall_mem_cons.mp hlinks
      have hsame : ∀ loc k, s.kind loc = some k → s.kind loc = some k := fun _ _ hk => hk
      rcases deleteFileL_cases h with ⟨names, u, hopen, hnames, rfl⟩ |
        ⟨-, rfl | ⟨u, hremove, rfl⟩⟩
      · rw [hopen] at hbelow
        have hloop := deleteNames_inside (fun name hmem hspecial v v' ret hv hcalls hcall =>
          Pruned.child hhere hopen hmem hspecial hv.sub (ih hcalls hcall)) hbelow (.refl _ s) hnames
        exact hloop.trans ((rmdir_removal u linkMax cwd (popSlash path)).inEntry hloop.sub)
      · exact (remove_removal s linkMax cwd (popSlash path)).inEntry hsame
      · have hfirst := (remove_removal s linkMax cwd (popSlash path)).inEntry hsame
        rw [hremove] at hfirst
        exact hfirst.trans ((unlink_removal u linkMax cwd (popSlash path)).inEntry hfirst.sub)

end Loop

section Inside

variable {s s' : FileTree} {linkMax : Nat} {cwd : Loc} {path : Bytes}

/-- From one tree to another only the entry of a path is removed, and what is in
it when it is a directory. When the removal worked, the entry is gone. -/
structure RemovedInside (linkMax : Nat) (cwd : Loc) (path : Bytes) (s s' : FileTree)
    (ret : Bool) : Prop where
  sub : ∀ loc k, s'.kind loc = some k → s.kind loc = some k
  removed : ∀ x, s.kind x ≠ none → s'.kind x = none →
    ∃ loc, s.entryOf linkMax cwd path = some loc ∧
      (x = loc ∨ s.kind loc = some .dir ∧ loc <+: x)
  gone : ret = true → ∀ loc, s'.entryOf linkMax cwd path = some loc → s'.kind loc = none

/-- An entry is in directories only. -/
theorem kind_of_front {loc x : Loc} (habove : loc <+: x) (hne : x ≠ loc)
    (hx : s.kind x ≠ none) : s.kind loc = some .dir := by
  induction x using List.reverseRecOn with
  | nil => exact absurd (List.prefix_nil.mp habove).symm hne
  | append_singleton front name ih =>
      obtain ⟨k, hk⟩ := Option.ne_none_iff_exists'.mp hx
      have hfront : s.kind front = some .dir := by
        rcases kind_eq_some.mp hk with ⟨hroot, -⟩ | hmem
        · exact absurd hroot (List.concat_ne_nil _ _)
        · have hparent := s.parents _ hmem
          rw [List.dropLast_concat] at hparent
          exact kind_eq_some.mpr (hparent.imp_left fun hroot => ⟨hroot, rfl⟩)
      rcases List.prefix_concat_iff.mp habove with heq | habove
      · exact absurd heq.symm hne
      · by_cases heq : front = loc
        · exact heq ▸ hfront
        · refine ih habove heq ?_
          rw [hfront]
          exact Option.some_ne_none _

theorem entryOf_nil : s.entryOf linkMax cwd [] = none := rfl

/-- A slash at the end makes no difference to the entry, except for the root. -/
theorem entryOf_popSlash (h : popSlash path ≠ []) :
    s.entryOf linkMax cwd (popSlash path) = s.entryOf linkMax cwd path := by
  have hpath : path ≠ [] := by
    rintro rfl
    exact h rfl
  have hstart : startOf cwd (popSlash path) = startOf cwd path := by
    rw [popSlash] at h ⊢
    split
    · rename_i hlast
      obtain ⟨front, rfl⟩ := List.getLast?_eq_some_iff.mp hlast
      rw [if_pos hlast, List.dropLast_concat] at h
      rw [List.dropLast_concat, startOf, startOf, List.head?_append_of_ne_nil _ h]
    · rfl
  rw [entryOf, entryOf, if_neg h, if_neg hpath, components_popSlash, hstart]

/-- What is removed in the entry of the path is removed inside. -/
theorem Deleted.removedInside {ret : Bool}
    (hinside : Pruned (s.InEntry linkMax cwd (popSlash path)) s s')
    (h : Deleted s linkMax cwd (popSlash path) s s' ret) :
    RemovedInside linkMax cwd path s s' ret where
  sub := hinside.sub
  removed x hx hgone := by
    obtain ⟨loc, hentry, hfront⟩ := hinside.gone x hx hgone
    have hpop : popSlash path ≠ [] := by
      intro hnil
      rw [hnil, entryOf_nil] at hentry
      cases hentry
    rw [entryOf_popSlash hpop] at hentry
    refine ⟨loc, hentry, ?_⟩
    by_cases heq : x = loc
    · exact Or.inl heq
    · exact Or.inr ⟨kind_of_front hfront heq hx, hfront⟩
  gone hdone loc hentry := by
    have hpop : popSlash path ≠ [] := by
      intro hnil
      have hfound := h.found hdone
      rw [hnil] at hfound
      exact hfound entryOf_nil
    rw [← entryOf_popSlash hpop] at hentry
    exact h.gone hdone loc hentry

/-- When no call of the deletion finds a link that `opendir` resolves, `delete_file`
returns, and removes only the entry of the path and what is in it. When it returns 0
the entry is gone. -/
theorem deleteFile_removes_inside (s : FileTree) (linkMax : Nat) (cwd : Loc) (path : Bytes)
    (hlinks : s.EntersNoLink linkMax cwd path) :
    ∃ s' ret, Settles (fun fuel => (ops linkMax cwd).deleteFile fuel s path false true) (s', ret) ∧
      RemovedInside linkMax cwd path s s' ret := by
  obtain ⟨⟨s', ret⟩, hdeletes⟩ := deleteFileL_deletionDepth s linkMax cwd path
  have hdeleted := deleteFileL_deleted (fun _ _ h => h) hdeletes
  exact ⟨s', ret, settles_deleteFile hdeletes,
    hdeleted.removedInside (deleteFileL_inside hlinks hdeletes)⟩

/-- The calls of a loop that keeps to a smaller tree are those that its calls make. -/
theorem loopCalls_forall {recur : FileTree → Bytes → Option (FileTree × Bool)}
    {calls : FileTree → Bytes → List (FileTree × Bytes)} {names : List Bytes}
    {P : FileTree → Prop} {Q : FileTree × Bytes → Prop}
    (hrecur : ∀ v v' p ret, P v → recur v p = some (v', ret) → P v')
    (hcalls : ∀ name ∈ names, isSpecialDir name = false → ∀ v, P v →
      ∀ call ∈ calls v (childPath path name), Q call) (hu : P u) :
    ∀ call ∈ loopCalls recur calls path names u, Q call := by
  induction names generalizing u with
  | nil => exact fun _ hcall => (List.not_mem_nil hcall).elim
  | cons name names ih =>
      obtain ⟨hfirst, hrest⟩ := List.forall_mem_cons.mp hcalls
      rw [loopCalls]
      split
      · exact ih hrest hu
      · rename_i hspecial
        rw [List.forall_mem_append]
        refine ⟨hfirst (Bool.eq_false_iff.mpr hspecial) u hu, ?_⟩
        split
        · exact fun _ hcall => (List.not_mem_nil hcall).elim
        · rename_i v ret hcall
          exact ih hrest (hrecur _ _ _ _ hu hcall)

/-- It is enough that no link at the entry of the path or below it leads to a directory. -/
theorem entersNoLink_of_links {origin : Loc}
    (horigin : s.entryOf linkMax cwd (popSlash path) = some origin)
    (hlinks : ∀ loc target, origin <+: loc → s.kind loc = some (.link target) →
      s.opensAs linkMax loc = none) :
    s.EntersNoLink linkMax cwd path := by
  -- every call has its entry at the origin or below, and the directory that it opens is the entry
  suffices hbelow : ∀ fuel u path loc, (∀ x k, u.kind x = some k → s.kind x = some k) →
      s.entryOf linkMax cwd (popSlash path) = some loc → origin <+: loc →
        ∀ call ∈ deleteCalls linkMax cwd fuel u path,
          call.1.findsLink linkMax cwd (popSlash call.2) = false from
    hbelow _ s path origin (fun _ _ hk => hk) horigin List.prefix_rfl
  intro fuel
  induction fuel with
  | zero => exact fun _ _ _ _ _ _ _ hcall => (List.not_mem_nil hcall).elim
  | succ fuel ih =>
      intro u path loc hsub hentry hfront
      have hopened : ∀ names, u.opendir linkMax cwd (popSlash path) = some names →
          names = thisDir :: upperDir :: u.children loc ∧ s.kind loc = some .dir ∧
            ∃ left, u.Walks linkMax (startOf cwd (popSlash path)) (components (popSlash path))
              loc left := by
        intro names hopen
        obtain ⟨hpath, dir, left, hway, hkind, rfl⟩ := opendir_eq_some.mp hopen
        obtain ⟨loc', hentry', hdir⟩ := entryOf_opened hpath (hway.mono hsub)
        obtain rfl := Option.some.inj (hentry.symm.trans hentry')
        rcases hdir with rfl | ⟨⟨target, htarget⟩, hopens⟩
        · exact ⟨rfl, hsub _ _ hkind, left, hway⟩
        · rw [hlinks loc target hfront htarget] at hopens
          cases hopens
      rw [deleteCalls, List.forall_mem_cons]
      constructor
      · cases hopen : u.opendir linkMax cwd (popSlash path) with
        | none => simp only [findsLink, isDir, hopen]; split <;> rfl
        | some names =>
            obtain ⟨-, hkind, -⟩ := hopened names hopen
            rw [findsLink]
            split
            · rename_i target htarget
              obtain ⟨loc', hloc', hlink⟩ := Option.bind_eq_some_iff.mp htarget
              obtain rfl := Option.some.inj (hentry.symm.trans (entryOf_mono hsub hloc'))
              rw [hsub _ _ hlink] at hkind
              cases hkind
            · rfl
      · split
        · exact fun _ hcall => (List.not_mem_nil hcall).elim
        · rename_i names hopen
          obtain ⟨rfl, -, left, hway⟩ := hopened names hopen
          have hpath := (opendir_eq_some.mp hopen).1
          refine loopCalls_forall (P := fun v => ∀ x k, v.kind x = some k → s.kind x = some k)
            (Q := fun call => call.1.findsLink linkMax cwd (popSlash call.2) = false)
            (fun v v' p ret hv hcall x k hk => ?_) (fun name hmem hspecial v hv => ?_) hsub
          · exact hv x k ((deleteFileL_deleted (fun _ _ h => h) hcall).pruned.sub x k hk)
          · obtain ⟨hname, -⟩ := mem_of_readdir hmem hspecial
            apply ih v _ (loc ++ [name]) hv
            · rw [hname.popSlash_childPath, entryOf_childPath hpath hname (hway.mono hsub)]
            · exact hfront.trans (List.prefix_append _ _)

end Inside

/-- A directory `d` that holds a file, a link to a file, a link to nothing, and an empty
directory `b` before a link that leads through it to `e`. Beside it a link to `d`. -/
def linkedTree : FileTree where
  entries := [([ascii "d"], .dir), ([ascii "d", ascii "f"], .file),
    ([ascii "d", ascii "g"], .link (ascii "../h")), ([ascii "d", ascii "i"], .link (ascii "j")),
    ([ascii "d", ascii "b"], .dir), ([ascii "d", ascii "z"], .link (ascii "b/../../e")),
    ([ascii "h"], .file), ([ascii "e"], .dir), ([ascii "e", ascii "f"], .file),
    ([ascii "l"], .link (ascii "d/."))]
  distinct := by decide
  named := by decide
  parents := by decide

/-- The link to `e` resolves before the deletion, but not when its turn comes. -/
theorem deleteFile_removes_inside_linked :
    ∃ s' ret, Settles (fun fuel => (ops 8 []).deleteFile fuel linkedTree (ascii "d/") false true)
        (s', ret) ∧ RemovedInside 8 [] (ascii "d/") linkedTree s' ret :=
  deleteFile_removes_inside linkedTree 8 [] (ascii "d/") (by decide +kernel)

/-- The link to the directory is not removed, but the files behind it are. -/
theorem deleteFile_not_inside :
    ¬ ∃ s' ret, Settles (fun fuel => (ops 8 []).deleteFile fuel linkedTree (ascii "l") false true)
        (s', ret) ∧ RemovedInside 8 [] (ascii "l") linkedTree s' ret := by
  rintro ⟨s', ret, hsettles, hinside⟩
  have hthree : ∃ r, (ops 8 []).deleteFileL 3 linkedTree (ascii "l") = some r ∧
      r.1.kind [ascii "d", ascii "f"] = none :=
    ⟨_, rfl, by decide⟩
  obtain ⟨r, hdeleted, hgone⟩ := hthree
  rw [(settles_deleteFile hdeleted).unique hsettles] at hgone
  obtain ⟨loc, hentry, hloc⟩ := hinside.removed [ascii "d", ascii "f"] (by decide) hgone
  have hlink : some [ascii "l"] = some loc := hentry
  obtain rfl := Option.some.inj hlink
  exact absurd hloc (by decide)

end FileTree

end FFZKit.Util.File
