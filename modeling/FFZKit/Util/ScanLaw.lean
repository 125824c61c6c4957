import FFZKit.Foundations.Settles
import FFZKit.Util.DirectoryTree

/-!
# What a scan leaves out

`scanDir` does not hand down whether hidden files are shown, and it does not
hand up that the callback has answered false. Each entry that is to be visited
is marked with what follows from this, and a scan is right exactly when no mark
matters on it.
-/

namespace FFZKit.Util.File

open FFZKit.Foundations

/-- An entry that is to be visited. -/
structure Mark where
  entry : Bytes × Bool
  /-- It is hidden, and so is not visited below the first directory. -/
  dropped : Bool
  /-- In a directory around its own something follows that is visited, even when
  the callback answers false here. -/
  followed : Bool

namespace Entries

/-- Some entry of the directory is shown. -/
def anyShown (view : Bool) : Entries → Bool
  | nil => false
  | file name rest => shown view name || rest.anyShown view
  | dir name _ rest => shown view name || rest.anyShown view

/-- The marks of the entries to be visited. In the first directory `view` is
`showHiddenFile`, below it false. -/
def marks (showHiddenFile : Bool) : Bool → Bool → Bytes → Entries → List Mark
  | _, _, _, nil => []
  | view, followed, base, file name rest =>
      if shown showHiddenFile name then
        ⟨(childPath base name, false), !shown view name, followed⟩ ::
          marks showHiddenFile view followed base rest
      else marks showHiddenFile view followed base rest
  | view, followed, base, dir name sub rest =>
      if shown showHiddenFile name then
        ⟨(childPath base name, true), !shown view name, followed⟩ ::
          (marks showHiddenFile false (followed || rest.anyShown view) (childPath base name) sub ++
            marks showHiddenFile view followed base rest)
      else marks showHiddenFile view followed base rest

theorem anyShown_entry (view : Bool) (name : Bytes) (inner : Option Entries) (rest : Entries) :
    (entry name inner rest).anyShown view = (shown view name || rest.anyShown view) := by
  cases inner <;> rfl

theorem marks_entry (showHiddenFile view followed : Bool) (base name : Bytes)
    (inner : Option Entries) (rest : Entries) :
    (entry name inner rest).marks showHiddenFile view followed base =
      if shown showHiddenFile name then
        ⟨(childPath base name, inner.isSome), !shown view name, followed⟩ ::
          ((inner.getD nil).marks showHiddenFile false (followed || rest.anyShown view)
            (childPath base name) ++ rest.marks showHiddenFile view followed base)
      else rest.marks showHiddenFile view followed base := by
  cases inner <;> rfl

theorem map_entry_marks (showHiddenFile view followed : Bool) (base : Bytes) (tree : Entries) :
    (tree.marks showHiddenFile view followed base).map Mark.entry =
      tree.listing showHiddenFile base := by
  induction tree using entry_induction generalizing view followed base with
  | nil => rfl
  | entry name inner rest ihinner ih =>
      rw [marks_entry, listing_entry]
      split
      · rw [List.map_cons, List.map_append, ihinner, ih]
      · exact ih _ _ _

end Entries

/-- On the way of a visit no entry is dropped, and none with a false answer is followed. -/
def Unharmed (cb : ScanCallback) : ScanCalls → List Mark → Prop
  | _, [] => True
  | calls, mark :: marks =>
      mark.dropped = false ∧
        if cb calls mark.entry then Unharmed cb (calls ++ [mark.entry]) marks
        else mark.followed = false

instance decidableUnharmed (cb : ScanCallback) (calls : ScanCalls) :
    (marks : List Mark) → Decidable (Unharmed cb calls marks)
  | [] => isTrue trivial
  | mark :: marks =>
      have := decidableUnharmed cb (calls ++ [mark.entry]) marks
      inferInstanceAs (Decidable (mark.dropped = false ∧
        if cb calls mark.entry then Unharmed cb (calls ++ [mark.entry]) marks
        else mark.followed = false))

section Visits

variable {cb : ScanCallback}

theorem unharmed_append {calls : ScanCalls} {front back : List Mark} :
    Unharmed cb calls (front ++ back) ↔ Unharmed cb calls front ∧
      (visitsAll cb calls (front.map Mark.entry) = true →
        Unharmed cb (calls ++ front.map Mark.entry) back) := by
  induction front generalizing calls with
  | nil => simp [Unharmed, visitsAll]
  | cons mark front ih =>
      rw [List.cons_append, Unharmed, Unharmed, List.map_cons, visitsAll]
      cases hgo : cb calls mark.entry with
      | false => simp
      | true => simp [ih, and_assoc]

theorem prefix_scanTree (view : Bool) (base : Bytes) (tree : Entries) (calls : ScanCalls) :
    calls <+: scanTree cb view base tree calls := by
  induction tree using Entries.entry_induction generalizing view base calls with
  | nil => exact List.prefix_rfl
  | entry name inner rest ihinner ih =>
      rw [scanTree_entry]
      split
      · split
        · exact (List.prefix_append _ _).trans ((ihinner _ _ _).trans (ih _ _ _))
        · exact List.prefix_append _ _
      · exact ih _ _ _

/-- A directory in which nothing is shown is passed over, any other one is not. -/
theorem scanTree_eq_self_iff (view : Bool) (base : Bytes) (tree : Entries) (calls : ScanCalls) :
    scanTree cb view base tree calls = calls ↔ tree.anyShown view = false := by
  induction tree using Entries.entry_induction with
  | nil => exact iff_of_true rfl rfl
  | entry name inner rest _ ih =>
      rw [scanTree_entry, Entries.anyShown_entry]
      cases Entries.shown view name with
      | false => simpa using ih
      | true =>
          refine iff_of_false (fun heq => ?_) (by simp)
          have hcalled : calls ++ [(childPath base name, inner.isSome)] <+: calls := by
            rw [if_pos rfl] at heq
            nth_rewrite 2 [← heq]
            split
            · exact (prefix_scanTree _ _ _ _).trans (prefix_scanTree _ _ _ _)
            · exact List.prefix_rfl
          have hlength := hcalled.length_le
          rw [List.length_append, List.length_singleton] at hlength
          omega

theorem Entries.shown_of_view {showHiddenFile view : Bool}
    (hview : view = true → showHiddenFile = true) {name : Bytes}
    (h : Entries.shown showHiddenFile name = false) :
    Entries.shown view name = false := by
  rw [Entries.shown, Bool.or_eq_false_iff] at h ⊢
  refine ⟨?_, h.2⟩
  cases view with
  | false => rfl
  | true => rw [hview rfl] at h; exact h.1

variable {showHiddenFile view followed : Bool} {base : Bytes} {tree : Entries} {calls : ScanCalls}

/-- Where no mark matters the scan is the visit of the listing, and when the
visit was stopped, nothing follows. -/
theorem scanTree_of_unharmed (hview : view = true → showHiddenFile = true)
    (h : Unharmed cb calls (tree.marks showHiddenFile view followed base)) :
    scanTree cb view base tree calls = visit cb calls (tree.listing showHiddenFile base) ∧
      (visitsAll cb calls (tree.listing showHiddenFile base) = true ∨ followed = false) := by
  induction tree using Entries.entry_induction generalizing view followed base calls with
  | nil => exact ⟨rfl, Or.inl rfl⟩
  | entry name inner rest ihinner ih =>
      rw [Entries.marks_entry] at h
      rw [scanTree_entry, Entries.listing_entry]
      cases hshown : Entries.shown showHiddenFile name with
      | false =>
          rw [hshown] at h
          rw [Entries.shown_of_view hview hshown]
          exact ih hview h
      | true =>
          rw [hshown, if_pos rfl, Unharmed] at h
          obtain ⟨hkept, hrest⟩ := h
          have hseen : Entries.shown view name = true := by simpa using hkept
          rw [hseen, if_pos rfl, if_pos rfl, visit, visitsAll]
          cases hgo : cb calls (childPath base name, inner.isSome) with
          | false =>
              rw [hgo] at hrest
              exact ⟨rfl, Or.inr hrest⟩
          | true =>
              rw [hgo, if_pos rfl, unharmed_append, Entries.map_entry_marks] at hrest
              obtain ⟨hbelow, hbehind⟩ := hrest
              obtain ⟨hscan, hstop⟩ := ihinner (fun hview => absurd hview Bool.false_ne_true) hbelow
              rw [if_pos rfl, if_pos rfl, Bool.true_and, hscan, visitsAll_append]
              cases hall : visitsAll cb (calls ++ [(childPath base name, inner.isSome)])
                  ((inner.getD .nil).listing showHiddenFile (childPath base name)) with
              | true =>
                  rw [visit_of_visitsAll hall, visit_append_of_visitsAll hall, Bool.true_and]
                  exact ih hview (hbehind hall)
              | false =>
                  -- the loop goes on, but there is nothing for it to call
                  rw [hall, Bool.or_eq_false_iff] at hstop
                  obtain ⟨hfollowed, hnone⟩ := hstop.resolve_left Bool.false_ne_true
                  rw [visit_append_of_stopped hall, (scanTree_eq_self_iff _ _ _ _).mpr hnone]
                  exact ⟨rfl, Or.inr hfollowed⟩

/-- When the calls of a directory are the last ones and something is shown
behind it, it would be called behind the last call. -/
theorem not_followed_of_scanTree {final : ScanCalls}
    (hscan : scanTree cb view base tree final <+: final)
    (hfollowed : followed = true → scanTree cb view base tree final ≠ final) :
    (followed || tree.anyShown view) = false := by
  have hself : scanTree cb view base tree final = final :=
    hscan.eq_of_length_le (prefix_scanTree _ _ _ _).length_le
  rw [(scanTree_eq_self_iff _ _ _ _).mp hself, Bool.or_false, Bool.eq_false_iff]
  exact fun htrue => hfollowed htrue hself

/-- When a whole scan makes exactly the calls of the visit, no mark matters in
any of its directories. -/
theorem unharmed_of_scanTree {final : ScanCalls} (hview : view = true → showHiddenFile = true)
    (hdropped : ∀ mark ∈ tree.marks showHiddenFile view followed base,
      mark.dropped = true → mark.entry ∉ final)
    (hscan : scanTree cb view base tree calls <+: final)
    (hfollowed : followed = true → scanTree cb view base tree calls ≠ final)
    (hvisit : VisitedIn cb calls (tree.listing showHiddenFile base) final) :
    Unharmed cb calls (tree.marks showHiddenFile view followed base) := by
  induction tree using Entries.entry_induction generalizing view followed base calls with
  | nil => exact trivial
  | entry name inner rest ihinner ih =>
      rw [Entries.marks_entry] at hdropped ⊢
      rw [scanTree_entry] at hscan hfollowed
      rw [Entries.listing_entry] at hvisit
      cases hshown : Entries.shown showHiddenFile name with
      | false =>
          rw [hshown] at hdropped hvisit
          rw [Entries.shown_of_view hview hshown] at hscan hfollowed
          exact ih hview hdropped hscan hfollowed hvisit
      | true =>
          rw [hshown, if_pos rfl] at hdropped hvisit
          obtain ⟨hkept, hdropped⟩ := List.forall_mem_cons.mp hdropped
          obtain ⟨hbelow, hbehind⟩ := List.forall_mem_append.mp hdropped
          have hseen : Entries.shown view name = true := by
            by_contra hnot
            exact hkept (by simpa using hnot) hvisit.mem
          rw [hseen, if_pos rfl] at hscan hfollowed
          rw [if_pos rfl, Unharmed, hseen]
          refine ⟨rfl, ?_⟩
          cases hgo : cb calls (childPath base name, inner.isSome) with
          | false =>
              rw [hgo] at hfollowed
              exact Bool.eq_false_iff.mpr fun htrue => hfollowed htrue (hvisit.cons_of_stop hgo)
          | true =>
              rw [hgo, if_pos rfl] at hscan hfollowed
              have hvisit := hvisit.cons_of_goOn hgo
              have hlower : false = true → showHiddenFile = true := fun h =>
                absurd h Bool.false_ne_true
              have hinner : Unharmed cb (calls ++ [(childPath base name, inner.isSome)])
                  ((inner.getD .nil).marks showHiddenFile false (followed || rest.anyShown view)
                    (childPath base name)) := by
                refine ihinner hlower hbelow ((prefix_scanTree _ _ _ _).trans hscan)
                  (fun hlater heq => ?_) hvisit.append_left
                rw [heq] at hscan hfollowed
                rw [not_followed_of_scanTree hscan hfollowed] at hlater
                cases hlater
              have hscanned := (scanTree_of_unharmed hlower hinner).1
              rw [if_pos rfl, unharmed_append, Entries.map_entry_marks]
              refine ⟨hinner, fun hall => ?_⟩
              rw [visit_of_visitsAll hall] at hscanned
              rw [hscanned] at hscan hfollowed
              exact ih hview hbehind hscan hfollowed (hvisit.append_right hall)

end Visits

section Dropped

/-- No name holds a slash. -/
def Entries.Named : Entries → Prop
  | nil => True
  | file name rest => slash ∉ name ∧ rest.Named
  | dir name sub rest => slash ∉ name ∧ sub.Named ∧ rest.Named

theorem Entries.named_entry {name : Bytes} {inner : Option Entries} {rest : Entries} :
    (entry name inner rest).Named ↔ slash ∉ name ∧ (inner.getD nil).Named ∧ rest.Named := by
  cases inner <;> simp [entry, Named]

theorem Reads.named {opendir : Bytes → Option (List Bytes)} {base : Bytes} {names : List Bytes}
    {tree : Entries} (h : Reads opendir base names tree) : tree.Named := by
  induction h with
  | nil => exact trivial
  | special hspecial hrest ih => exact ih
  | file hname hopen hrest ih => exact ⟨hname.noSlash, ih⟩
  | dir hname hopen hsub hrest ihsub ih => exact ⟨hname.noSlash, ihsub, ih⟩

theorem Entries.Named.reached {tree : Entries} (h : tree.Named) (enterSubdirectory : Bool) :
    (tree.reached enterSubdirectory).Named := by
  induction tree with
  | nil =>
      rw [Entries.reached_nil]
      exact trivial
  | file name rest ih =>
      rw [Entries.reached_file]
      exact ⟨h.1, ih h.2⟩
  | dir name sub rest ihsub ih =>
      rw [Entries.reached_dir]
      refine ⟨h.1, ?_, ih h.2.2⟩
      split
      · exact h.2.1
      · exact trivial

/-- A hidden name is among those on the way, the first one not counted when
hidden entries are shown there. -/
def hiddenOnWay (view : Bool) : List Bytes → Bool
  | [] => false
  | name :: names => !Entries.shown view name || names.any isHidden

theorem hiddenOnWay_false (names : List Bytes) : hiddenOnWay false names = names.any isHidden := by
  cases names with
  | nil => rfl
  | cons name names => simp [hiddenOnWay, Entries.shown]

/-- A path below `base` with or without a hidden name on the way. -/
def OnWay (view hidden : Bool) (base path : Bytes) : Prop :=
  ∃ names, (∀ name ∈ names, slash ∉ name) ∧ hiddenOnWay view names = hidden ∧
    path = pathBelow base names

theorem onWay_child {view hidden : Bool} {base name : Bytes} (hname : slash ∉ name)
    (h : (!Entries.shown view name) = hidden) : OnWay view hidden base (childPath base name) :=
  ⟨[name], by simpa using hname, by simpa [hiddenOnWay] using h, childPath_eq_pathBelow base name⟩

theorem OnWay.below {view hidden hidden' : Bool} {base name path : Bytes}
    (h : OnWay false hidden (childPath base name) path) (hname : slash ∉ name)
    (hor : (!Entries.shown view name || hidden) = hidden') : OnWay view hidden' base path := by
  obtain ⟨names, hnames, hhidden, rfl⟩ := h
  refine ⟨name :: names, List.forall_mem_cons.mpr ⟨hname, hnames⟩, ?_, pathBelow_childPath ..⟩
  rw [hiddenOnWay, ← hiddenOnWay_false, hhidden, hor]

theorem not_onWay_both {view : Bool} {base path : Bytes} (h : OnWay view true base path) :
    ¬ OnWay view false base path := by
  rintro ⟨names', hnames', hhidden', heq⟩
  obtain ⟨names, hnames, hhidden, rfl⟩ := h
  rw [pathBelow_injective hnames hnames' heq, hhidden'] at hhidden
  cases hhidden

variable {cb : ScanCallback} {showHiddenFile : Bool}

/-- A dropped entry has a hidden name on its way. -/
theorem onWay_of_dropped {view followed : Bool} {base : Bytes} {tree : Entries}
    (hnamed : tree.Named) {mark : Mark}
    (hmark : mark ∈ tree.marks showHiddenFile view followed base)
    (hdropped : mark.dropped = true) : OnWay view true base mark.entry.1 := by
  induction tree using Entries.entry_induction generalizing view followed base with
  | nil => cases hmark
  | entry name inner rest ihinner ih =>
      obtain ⟨hname, hsub, hrest⟩ := Entries.named_entry.mp hnamed
      rw [Entries.marks_entry] at hmark
      split at hmark
      · rcases List.mem_cons.mp hmark with rfl | hmark
        · exact onWay_child hname hdropped
        · rcases List.mem_append.mp hmark with hmark | hmark
          · exact (ihinner hsub hmark).below hname (Bool.or_true _)
          · exact ih hrest hmark
      · exact ih hrest hmark

theorem onWay_of_call {view flag : Bool} {base name : Bytes} {calls : ScanCalls}
    (hname : slash ∉ name) (hshown : Entries.shown view name = true) {entry : Bytes × Bool}
    (hentry : entry ∈ calls ++ [(childPath base name, flag)]) :
    entry ∈ calls ∨ OnWay view false base entry.1 := by
  rcases List.mem_append.mp hentry with hentry | hentry
  · exact Or.inl hentry
  · rw [List.mem_singleton.mp hentry]
    exact Or.inr (onWay_child hname (by rw [hshown, Bool.not_true]))

/-- No call of the scan has a hidden name on its way. -/
theorem onWay_of_scanTree {view : Bool} {base : Bytes} {tree : Entries} {calls : ScanCalls}
    (hnamed : tree.Named) {entry : Bytes × Bool}
    (hentry : entry ∈ scanTree cb view base tree calls) :
    entry ∈ calls ∨ OnWay view false base entry.1 := by
  induction tree using Entries.entry_induction generalizing view base calls with
  | nil => exact Or.inl hentry
  | entry name inner rest ihinner ih =>
      obtain ⟨hname, hsub, hrest⟩ := Entries.named_entry.mp hnamed
      rw [scanTree_entry] at hentry
      split at hentry
      · rename_i hshown
        split at hentry
        · rcases ih hrest hentry with hentry | hentry
          · rcases ihinner hsub hentry with hentry | hentry
            · exact onWay_of_call hname hshown hentry
            · exact Or.inr (hentry.below hname (by rw [hshown]; rfl))
          · exact Or.inr hentry
        · exact onWay_of_call hname hshown hentry
      · exact ih hrest hentry

end Dropped

section Law

variable {opendir : Bytes → Option (List Bytes)} {path : Bytes} {tree : Entries}

/-- A scan of the tree calls what is to be visited exactly when no mark matters. -/
theorem scanTree_eq_visit_iff (hnamed : tree.Named) (cb : ScanCallback) (view : Bool)
    (base : Bytes) :
    scanTree cb view base tree [] = visit cb [] (tree.listing view base) ↔
      Unharmed cb [] (tree.marks view view false base) := by
  refine ⟨fun h => ?_, fun h => (scanTree_of_unharmed id h).1⟩
  refine unharmed_of_scanTree id (fun mark hmark hdropped hmem => ?_) List.prefix_rfl nofun
    ⟨h ▸ List.prefix_rfl, fun _ => h.symm⟩
  rcases onWay_of_scanTree hnamed hmem with hcalled | hcalled
  · cases hcalled
  · exact not_onWay_both (onWay_of_dropped hnamed hmark hdropped) hcalled

/-- The calls of `scanDir` with enough depth. -/
theorem scanDir_ends_iff (hat : TreeAt opendir path tree) {cb : ScanCallback}
    {enterSubdirectory view : Bool} {calls : ScanCalls} :
    Settles (fun fuel => scanDir opendir cb enterSubdirectory fuel path view []) calls ↔
      (if path = [slash] then []
        else scanTree cb view (popSlash path) (tree.reached enterSubdirectory) []) = calls := by
  constructor
  · rintro ⟨n, hn⟩
    have hlast := hn (max n (tree.depth + 1)) (Nat.le_max_left _ _)
    simp only at hlast
    rw [scanDir_eq_scanTree hat (Nat.le_max_right _ _)] at hlast
    exact Option.some.inj hlast
  · intro heq
    refine ⟨tree.depth + 1, fun fuel hfuel => ?_⟩
    simp only
    rw [scanDir_eq_scanTree hat hfuel, heq]

/-- `scanDir` visits all entries below the path, depth first, up to the first
false answer, exactly when no visited entry is a hidden one in a subdirectory,
none in a subdirectory with a false answer is followed by a shown entry in the
directories around it, and nothing is to be visited below the path `/`. -/
theorem scanDir_visits_iff (hat : TreeAt opendir path tree) (cb : ScanCallback)
    (enterSubdirectory showHiddenFile : Bool) :
    Settles (fun fuel => scanDir opendir cb enterSubdirectory fuel path showHiddenFile [])
      (visit cb [] ((tree.reached enterSubdirectory).listing showHiddenFile (popSlash path))) ↔
    (path = [slash] → (tree.reached enterSubdirectory).listing showHiddenFile [] = []) ∧
      Unharmed cb [] ((tree.reached enterSubdirectory).marks showHiddenFile showHiddenFile false
        (popSlash path)) := by
  obtain ⟨names, hopen, hreads⟩ := hat.reads
  have hnamed := hreads.named.reached enterSubdirectory
  rw [scanDir_ends_iff hat]
  by_cases hroot : path = [slash]
  · subst hroot
    have hpop : popSlash [slash] = [] := by decide
    rw [if_pos rfl, hpop, eq_comm, visit_eq_nil_iff]
    refine ⟨fun hnil => ⟨fun _ => hnil, ?_⟩, fun h => h.1 rfl⟩
    rw [← Entries.map_entry_marks showHiddenFile showHiddenFile false] at hnil
    rw [List.map_eq_nil_iff.mp hnil]
    exact trivial
  · rw [if_neg hroot, scanTree_eq_visit_iff hnamed]
    exact ⟨fun h => ⟨fun heq => absurd heq hroot, h⟩, And.right⟩

end Law

/-- A directory `a` that holds a directory `b` and two files. -/
def sampleDirs (path : Bytes) : Option (List Bytes) :=
  if path.rdropWhile (· = slash) = ascii "a" then
    some [thisDir, upperDir, ascii "b", ascii ".c", ascii "d", ascii "g"]
  else if path.rdropWhile (· = slash) = ascii "a/b" then
    some [ascii ".e", thisDir, ascii "f", upperDir]
  else none

def sampleTree : Entries :=
  .dir (ascii "b") (.file (ascii ".e") (.file (ascii "f") .nil))
    (.file (ascii ".c") (.file (ascii "d") (.file (ascii "g") .nil)))

theorem treeAt_sample : TreeAt sampleDirs (ascii "a/") sampleTree where
  nonempty := by decide
  opendir_nil := by decide
  opendir_slash p _ := by
    have hslash : (p ++ [slash]).rdropWhile (· = slash) = p.rdropWhile (· = slash) :=
      List.rdropWhile_concat_pos _ _ _ (by decide)
    rw [sampleDirs, sampleDirs, hslash]
  reads := by
    refine ⟨_, rfl, .special rfl (.special rfl (.dir (by decide) rfl ?_ ?_))⟩
    · exact .file (by decide) (by decide)
        (.special rfl (.file (by decide) (by decide) (.special rfl .nil)))
    · exact .file (by decide) (by decide)
        (.file (by decide) (by decide)
          (.file (by decide) (by decide) .nil))

theorem scanDir_visits_sample :
    Settles (fun fuel => scanDir sampleDirs (fun _ entry => entry.1 ≠ ascii "a/d") true fuel
      (ascii "a/") false [])
      [(ascii "a/b", true), (ascii "a/b/f", false), (ascii "a/d", false)] := by
  have hvisits := (scanDir_visits_iff treeAt_sample (fun _ entry => entry.1 ≠ ascii "a/d")
    true false).mpr ⟨by decide, by decide⟩
  exact hvisits

/-- With hidden files shown, the one in the subdirectory is left out. A false
answer in the subdirectory does not end the scan. -/
theorem scanDir_not_visits :
    (¬ Settles (fun fuel => scanDir sampleDirs (fun _ _ => true) true fuel (ascii "a/") true [])
      (visit (fun _ _ => true) []
        ((sampleTree.reached true).listing true (popSlash (ascii "a/"))))) ∧
    ¬ Settles (fun fuel =>
        scanDir sampleDirs (fun _ entry => entry.2) true fuel (ascii "a/") false [])
      (visit (fun _ entry => entry.2) []
        ((sampleTree.reached true).listing false (popSlash (ascii "a/")))) := by
  rw [scanDir_ends_iff treeAt_sample, scanDir_ends_iff treeAt_sample]
  decide

end FFZKit.Util.File
