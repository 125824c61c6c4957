import FFZKit.Win32.GetoptReading

/-!
# Where a scan of `argv` is

Between two elements `argv` holds the options that were moved to the front, the
elements that were skipped, the options since, and what is unread. The exchange
moves the options since to the front, and skipping takes more of what is unread.
-/

namespace FFZKit.Win32

open FFZKit.Foundations

namespace Getopt

/-- Where the scan is: behind the program's name there are the options before the
elements that were skipped, these, the options since, and what is unread. -/
structure Layout (s : Getopt) (name : CString) (before skipped since unread : List CString) :
    Prop where
  argv : s.argv = name :: (before ++ (skipped ++ (since ++ unread)))
  first : s.firstNonopt = 1 + before.length
  last : s.lastNonopt = 1 + before.length + skipped.length
  optind : s.optind = 1 + before.length + skipped.length + since.length

/-- The scan is between two elements. -/
structure Between (posixlyCorrect : Bool) (s : Getopt) (name : CString)
    (before skipped since unread : List CString) : Prop
    extends Layout s name before skipped since unread where
  nextchar : s.nextchar.all List.isEmpty = true
  ordering : s.ordering = if posixlyCorrect then .requireOrder else .permute
  unmoved : posixlyCorrect = true → skipped = []

/-- Everything was skipped that is to be skipped, so the options are in one block. -/
structure Ready (posixlyCorrect : Bool) (s : Getopt) (name : CString)
    (options skipped unread : List CString) : Prop where
  layout : ∃ before since, before ++ since = options ∧ (skipped = [] ∨ since = []) ∧
    Layout s name before skipped since unread
  ordering : s.ordering = if posixlyCorrect then .requireOrder else .permute
  unmoved : posixlyCorrect = true → skipped = []
  stopped : posixlyCorrect = false → ∀ element ∈ unread.head?, isNonOption element = false

/-- The scan has ended. -/
structure Finished (s : Getopt) (name : CString) (options others : List CString) : Prop where
  argv : s.argv = name :: (options ++ others)
  optind : s.optind = 1 + options.length

section Layout

variable {s : Getopt} {name : CString} {before skipped since unread : List CString}

theorem Layout.drop_optind (h : Layout s name before skipped since unread) :
    s.argv.drop s.optind = unread := by
  have hfront : s.argv = (name :: (before ++ (skipped ++ since))) ++ unread := by
    rw [h.argv]
    simp
  have hlength : s.optind = (name :: (before ++ (skipped ++ since))).length := by
    rw [h.optind]
    simp only [List.length_cons, List.length_append]
    omega
  rw [hfront, hlength, List.drop_left]

theorem Layout.getElem?_optind (h : Layout s name before skipped since unread) :
    s.argv[s.optind]? = unread.head? := by
  rw [← h.drop_optind, List.head?_drop]

theorem Layout.length_argv (h : Layout s name before skipped since unread) :
    s.argv.length = s.optind + unread.length := by
  rw [h.argv, h.optind]
  simp only [List.length_cons, List.length_append]
  omega

/-- The exchange moves the options since in front of what was skipped. -/
theorem Layout.exchange (h : Layout s name before skipped since unread) :
    Layout s.exchange name (before ++ since) skipped [] unread := by
  have hfirst : s.firstNonopt + (s.optind - s.lastNonopt) = 1 + (before ++ since).length := by
    rw [h.first, h.last, h.optind, List.length_append]
    omega
  have hargv : s.exchange.argv =
      swapBlocks s.argv s.firstNonopt (s.firstNonopt + (s.optind - s.lastNonopt)) (s.optind - 1) :=
    rfl
  refine ⟨?_, hfirst, ?_, ?_⟩
  · rw [hargv, hfirst, h.argv, ← List.cons_append,
      swapBlocks_append (b := since)]
    · simp
    · rw [h.first, List.length_cons, Nat.add_comm]
    · rw [h.first]
      omega
    · rw [h.first, List.length_append]
      omega
    · rw [h.optind, List.length_append]
      omega
  · change s.optind = _
    rw [h.optind, List.length_append]
    omega
  · change s.optind = _
    rw [h.optind, List.length_append, List.length_nil]
    omega

theorem Layout.exchangeSkipped (h : Layout s name before skipped since unread) :
    Layout { s.exchangeSkipped with lastNonopt := s.exchangeSkipped.optind } name
      (before ++ since) skipped [] unread := by
  have hfirst := h.first
  have hlast := h.last
  have hoptind := h.optind
  unfold Getopt.exchangeSkipped
  split
  · exact h.exchange
  · rename_i hstay
    -- one of the two blocks is empty, so they need not be exchanged
    have hempty : skipped = [] ∨ since = [] := by
      rw [← List.length_eq_zero_iff, ← List.length_eq_zero_iff]
      omega
    have hargv : s.argv = name :: ((before ++ since) ++ (skipped ++ unread)) := by
      rw [h.argv]
      rcases hempty with rfl | rfl <;> simp
    have hbefore : (before ++ since).length = before.length + since.length := List.length_append
    split
    · rename_i hsince
      refine ⟨hargv, ?_, ?_, ?_⟩
      · change s.optind = _
        rcases hempty with rfl | rfl
        · rw [hbefore, hoptind, List.length_nil]
          omega
        · rw [List.length_nil] at hoptind
          omega
      · change s.optind = _
        rw [hbefore]
        omega
      · change s.optind = _
        rw [hbefore, List.length_nil]
        omega
    · have hnil : since.length = 0 := by omega
      refine ⟨hargv, ?_, ?_, ?_⟩
      · change s.firstNonopt = _
        rw [hbefore]
        omega
      · change s.optind = _
        rw [hbefore]
        omega
      · change s.optind = _
        rw [hbefore, List.length_nil]
        omega

/-- Skipping leaves the options in front of everything that was skipped. -/
theorem Layout.skip (h : Layout s name before skipped since unread) :
    Layout s.skip name (before ++ since) (skipped ++ unread.takeWhile isNonOption) []
      (unread.dropWhile isNonOption) := by
  have hmoved := h.exchangeSkipped
  have hunread : s.exchangeSkipped.argv.drop s.exchangeSkipped.optind = unread :=
    hmoved.drop_optind
  have hoptind : s.exchangeSkipped.optind = _ := hmoved.optind
  rw [List.length_nil] at hoptind
  unfold Getopt.skip
  simp only [hunread]
  refine ⟨?_, hmoved.first, ?_, ?_⟩
  · rw [hmoved.argv, List.nil_append, List.nil_append, List.append_assoc skipped,
      List.takeWhile_append_dropWhile]
  · change s.exchangeSkipped.optind + _ = _
    rw [hoptind, @List.length_append _ skipped]
    omega
  · change s.exchangeSkipped.optind + _ = _
    rw [hoptind, @List.length_append _ skipped, List.length_nil]
    omega

@[simp] theorem exchangeSkipped_ordering (s : Getopt) :
    s.exchangeSkipped.ordering = s.ordering := by
  unfold Getopt.exchangeSkipped
  split
  · rfl
  · split <;> rfl

@[simp] theorem exchangeSkipped_optarg (s : Getopt) : s.exchangeSkipped.optarg = s.optarg := by
  unfold Getopt.exchangeSkipped
  split
  · rfl
  · split <;> rfl

@[simp] theorem skip_ordering (s : Getopt) : s.skip.ordering = s.ordering := by simp [Getopt.skip]

@[simp] theorem skip_optarg (s : Getopt) : s.skip.optarg = s.optarg := by simp [Getopt.skip]

/-- What a call finds when it has skipped what it has to. -/
theorem Between.ready {posixlyCorrect : Bool}
    (h : Between posixlyCorrect s name before skipped since unread) :
    Ready posixlyCorrect (if s.ordering = .permute then s.skip else s) name (before ++ since)
      (skipped ++ passed posixlyCorrect unread) (pending posixlyCorrect unread) := by
  have hordering := h.ordering
  cases posixlyCorrect with
  | true =>
      have hnil := h.unmoved rfl
      rw [if_pos rfl] at hordering
      rw [if_neg (by rw [hordering]; decide)]
      subst hnil
      exact ⟨⟨before, since, rfl, Or.inl rfl, h.toLayout⟩, hordering, fun _ => rfl, nofun⟩
  | false =>
      rw [if_neg Bool.false_ne_true] at hordering
      rw [if_pos hordering]
      refine ⟨⟨before ++ since, [], List.append_nil _, Or.inr rfl, h.toLayout.skip⟩, ?_, nofun,
        fun _ element helement => ?_⟩
      · rw [skip_ordering, hordering, if_neg Bool.false_ne_true]
      · have hnot := List.head?_dropWhile_not isNonOption unread
        rw [show (unread.dropWhile isNonOption).head? = some element from helement] at hnot
        simpa using hnot

section Ready

variable {posixlyCorrect : Bool} {options words : List CString} {element : CString}

theorem Ready.argv (h : Ready posixlyCorrect s name options skipped unread) :
    s.argv = name :: (options ++ (skipped ++ unread)) := by
  obtain ⟨before, since, rfl, hempty, hlayout⟩ := h.layout
  rw [hlayout.argv]
  rcases hempty with rfl | rfl <;> simp

theorem Ready.optind (h : Ready posixlyCorrect s name options skipped unread) :
    s.optind = 1 + options.length + skipped.length := by
  obtain ⟨before, since, rfl, _, hlayout⟩ := h.layout
  rw [hlayout.optind, List.length_append]
  omega

theorem Ready.getElem?_optind (h : Ready posixlyCorrect s name options skipped unread) :
    s.argv[s.optind]? = unread.head? := by
  obtain ⟨_, _, _, _, hlayout⟩ := h.layout
  exact hlayout.getElem?_optind

theorem Ready.getElem?_succ
    (h : Ready posixlyCorrect s name options skipped (element :: words)) :
    s.argv[s.optind + 1]? = words.head? := by
  obtain ⟨_, _, _, _, hlayout⟩ := h.layout
  rw [← List.head?_drop, ← List.drop_drop, hlayout.drop_optind]
  rfl

theorem Ready.length_argv (h : Ready posixlyCorrect s name options skipped unread) :
    s.argv.length = s.optind + unread.length := by
  obtain ⟨_, _, _, _, hlayout⟩ := h.layout
  exact hlayout.length_argv

/-- Where the elements begin that were skipped, if there are any. -/
theorem Ready.first (h : Ready posixlyCorrect s name options skipped unread) :
    (s.firstNonopt = s.lastNonopt ↔ skipped = []) ∧
      (skipped ≠ [] → s.firstNonopt = 1 + options.length ∧ s.lastNonopt = s.optind) := by
  obtain ⟨before, since, rfl, hempty, hlayout⟩ := h.layout
  have hfirst := hlayout.first
  have hlast := hlayout.last
  have hoptind := hlayout.optind
  constructor
  · rw [← List.length_eq_zero_iff]
    omega
  · intro hne
    obtain rfl := hempty.resolve_left hne
    rw [List.length_nil] at hoptind
    rw [List.append_nil]
    omega

/-- At the end of `argv` the scan goes back to what was skipped. -/
theorem Ready.scanNext_nil (longopts : Option (List LongOpt))
    (h : Ready posixlyCorrect s name options skipped []) :
    ∃ t, s.scanNext longopts = .returns t eof ∧ Finished t name options skipped := by
  have hargv := h.argv
  have hlength := h.length_argv
  rw [List.append_nil] at hargv
  rw [List.length_nil, Nat.add_zero] at hlength
  have hhead := h.getElem?_optind
  rw [List.head?_nil] at hhead
  unfold Getopt.scanNext
  simp only [hhead, reduceCtorEq, if_false, hlength, if_true]
  obtain ⟨hiff, hfirst⟩ := h.first
  split
  · rename_i hne
    refine ⟨_, rfl, hargv, (hfirst ?_).1⟩
    exact fun hnil => hne (hiff.mpr hnil)
  · rename_i heq
    have hnil := hiff.mp (not_not.mp heq)
    refine ⟨_, rfl, hargv, ?_⟩
    rw [h.optind, hnil, List.length_nil, Nat.add_zero]

/-- The element `--` is the last of the options. -/
theorem Ready.stop (h : Ready posixlyCorrect s name options skipped (endOfOptions :: words)) :
    s.stop.argv = name :: ((options ++ [endOfOptions]) ++ (skipped ++ words)) ∧
      s.stop.firstNonopt = 1 + (options ++ [endOfOptions]).length ∧
      s.stop.lastNonopt = s.stop.argv.length ∧ s.stop.optind = s.stop.argv.length := by
  obtain ⟨hiff, hfirst⟩ := h.first
  obtain ⟨before, since, rfl, hempty, hlayout⟩ := h.layout
  have hoptind := hlayout.optind
  have hnext : Layout { s with optind := s.optind + 1 } name before skipped
      (since ++ [endOfOptions]) words := by
    refine ⟨?_, hlayout.first, hlayout.last, ?_⟩
    · rw [hlayout.argv]
      simp
    · rw [List.length_append, List.length_singleton]
      change s.optind + 1 = _
      omega
  by_cases hskipped : skipped = []
  · have heq : s.firstNonopt = s.lastNonopt := hiff.mpr hskipped
    subst hskipped
    rw [List.length_nil] at hoptind
    have hstop : s.stop = { s with
        firstNonopt := s.optind + 1, lastNonopt := s.argv.length, optind := s.argv.length } := by
      simp [Getopt.stop, heq]
    rw [hstop]
    refine ⟨?_, ?_, rfl, rfl⟩
    · change s.argv = _
      rw [hlayout.argv]
      simp
    · simp only [List.length_append, List.length_singleton]
      omega
  · obtain ⟨_, hlast⟩ := hfirst hskipped
    have hne : s.firstNonopt ≠ s.lastNonopt := fun heq => hskipped (hiff.mp heq)
    obtain rfl := hempty.resolve_left hskipped
    have hexchange := hnext.exchange
    have hstop : s.stop = { { s with optind := s.optind + 1 }.exchange with
        lastNonopt := { s with optind := s.optind + 1 }.exchange.argv.length
        optind := { s with optind := s.optind + 1 }.exchange.argv.length } := by
      rw [Getopt.stop]
      simp only []
      rw [if_pos ⟨hne, by omega⟩]
    rw [hstop]
    refine ⟨?_, ?_, rfl, rfl⟩
    · rw [hexchange.argv]
      simp
    · rw [hexchange.first]
      simp

/-- After `--` nothing is an option. -/
theorem Ready.scanNext_end (longopts : Option (List LongOpt))
    (h : Ready posixlyCorrect s name options skipped (endOfOptions :: words)) :
    ∃ t, s.scanNext longopts = .returns t eof ∧
      Finished t name (options ++ [endOfOptions]) (skipped ++ words) := by
  obtain ⟨hargv, hfirst, hlast, hoptind⟩ := h.stop
  have hhead := h.getElem?_optind
  rw [List.head?_cons] at hhead
  unfold Getopt.scanNext
  simp only [hhead, hoptind, if_true]
  split
  · exact ⟨_, rfl, hargv, hfirst⟩
  · rename_i heq
    refine ⟨_, rfl, hargv, ?_⟩
    rw [← hfirst, not_not.mp heq, hlast, hoptind]

/-- An element that is not an option and was not skipped ends the options. -/
theorem Ready.scanNext_other (longopts : Option (List LongOpt))
    (h : Ready posixlyCorrect s name options skipped (element :: words))
    (hend : element ≠ endOfOptions) (hother : isNonOption element = true) :
    posixlyCorrect = true ∧ ∃ t, s.scanNext longopts = .returns t eof ∧
      Finished t name options (skipped ++ element :: words) := by
  have hposix : posixlyCorrect = true := by
    by_contra hfalse
    have hstopped := h.stopped (Bool.eq_false_iff.mpr hfalse) element rfl
    rw [hother] at hstopped
    cases hstopped
  refine ⟨hposix, s, ?_, h.argv, ?_⟩
  · have hhead := h.getElem?_optind
    have hlength := h.length_argv
    have hordering := h.ordering
    rw [List.head?_cons] at hhead
    rw [List.length_cons] at hlength
    rw [hposix, if_pos rfl] at hordering
    have hinside : ¬ s.optind = s.argv.length := by omega
    unfold Getopt.scanNext
    simp only [hhead, Option.some.injEq, hend, hinside, if_false, hother, hordering, if_true]
  · rw [h.optind, h.unmoved hposix, List.length_nil, Nat.add_zero]

/-- At an option the scan goes on with its first character. -/
theorem Ready.scanNext_option (longopts : Option (List LongOpt))
    (h : Ready posixlyCorrect s name options skipped (element :: words))
    (hend : element ≠ endOfOptions) (hoption : isNonOption element = false) :
    s.scanNext longopts =
      .goesOn { s with
        nextchar := some (element.drop
          (if longopts.isSome ∧ element[1]? = some dash then 2 else 1)) } := by
  have hhead := h.getElem?_optind
  have hlength := h.length_argv
  rw [List.head?_cons] at hhead
  rw [List.length_cons] at hlength
  have hinside : ¬ s.optind = s.argv.length := by omega
  unfold Getopt.scanNext
  simp only [hhead, Option.some.injEq, hend, hinside, if_false, hoption, Bool.false_eq_true]
  split <;> rfl

end Ready

end Layout

end Getopt

end FFZKit.Win32
