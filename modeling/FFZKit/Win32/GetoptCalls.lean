import FFZKit.Win32.GetoptLayout

/-!
# What repeated calls of `getopt_long` return

The calls up to the first `EOF` return the options of the command line from left
to right. Then `argv` holds these with their arguments first and everything else
behind them, each in the order of the command line, and `optind` is where the
second part begins.
-/

namespace FFZKit.Win32

open FFZKit.Util (ArgType)

namespace Getopt

/-- The outcome of a call, and those of the calls after it, return `results`, none
of which is the end. -/
inductive Emits (call : Getopt → Outcome) : Outcome → List Returned → Getopt → Prop
  | last {t ret} (h : ret ≠ eof) : Emits call (.returns t ret) [(ret, t.optarg)] t
  | more {t ret results u} (h : ret ≠ eof) (tail : Emits call (call t) results u) :
      Emits call (.returns t ret) ((ret, t.optarg) :: results) u

/-- The scan is between two elements, with all options in one list. -/
def AtElement (posixlyCorrect : Bool) (s : Getopt) (name : CString)
    (options skipped unread : List CString) : Prop :=
  ∃ before since, before ++ since = options ∧
    Between posixlyCorrect s name before skipped since unread

section Element

variable {posixlyCorrect : Bool} {optstring : CString} {longopts : List LongOpt} {s t : Getopt}
  {name element : CString} {options skipped words taken : List CString} {c : UInt8} {rest : CString}

/-- A step that only concerns the current option. -/
structure Kept (s t : Getopt) : Prop where
  argv : t.argv = s.argv
  first : t.firstNonopt = s.firstNonopt
  last : t.lastNonopt = s.lastNonopt
  ordering : t.ordering = s.ordering

theorem Ready.congr (h : Ready posixlyCorrect s name options skipped words) (kept : Kept s t)
    (hoptind : t.optind = s.optind) : Ready posixlyCorrect t name options skipped words := by
  obtain ⟨before, since, hoptions, hempty, hlayout⟩ := h.layout
  refine ⟨⟨before, since, hoptions, hempty, ?_⟩, kept.ordering.trans h.ordering, h.unmoved,
    h.stopped⟩
  exact ⟨kept.argv.trans hlayout.argv, kept.first.trans hlayout.first,
    kept.last.trans hlayout.last, hoptind.trans hlayout.optind⟩

/-- Elements that belong to an option are taken into the options. -/
theorem Ready.take (h : Ready posixlyCorrect s name options skipped (taken ++ words))
    (kept : Kept s t) (hoptind : t.optind = s.optind + taken.length)
    (hnext : t.nextchar.all List.isEmpty = true) :
    AtElement posixlyCorrect t name (options ++ taken) skipped words := by
  obtain ⟨before, since, rfl, _, hlayout⟩ := h.layout
  refine ⟨before, since ++ taken, (List.append_assoc _ _ _).symm, ⟨⟨?_, ?_, ?_, ?_⟩, hnext, ?_,
    h.unmoved⟩⟩
  · rw [kept.argv, hlayout.argv]
    simp
  · rw [kept.first, hlayout.first]
  · rw [kept.last, hlayout.last]
  · rw [hoptind, hlayout.optind, List.length_append]
    omega
  · rw [kept.ordering, h.ordering]

/-- An element is taken, with the next one when that is its argument. -/
theorem Ready.takeElement (h : Ready posixlyCorrect s name options skipped (element :: words))
    (kept : Kept s t) {takesNext : Bool} (hwords : takesNext = true → words ≠ [])
    (hoptind : t.optind = s.optind + 1 + takesNext.toNat)
    (hnext : t.nextchar.all List.isEmpty = true) :
    AtElement posixlyCorrect t name (options ++ element :: words.take takesNext.toNat) skipped
      (words.drop takesNext.toNat) := by
  have hlength : (words.take takesNext.toNat).length = takesNext.toNat := by
    rw [List.length_take]
    cases takesNext with
    | false => rfl
    | true =>
        have hpos := List.length_pos_of_ne_nil (hwords rfl)
        simp only [Bool.toNat_true]
        omega
  have hready : Ready posixlyCorrect s name options skipped
      ((element :: words.take takesNext.toNat) ++ words.drop takesNext.toNat) := by
    rwa [List.cons_append, List.take_append_drop]
  apply hready.take kept _ hnext
  rw [hoptind, List.length_cons, hlength]
  omega

/-- A call in the middle of an element with short options goes on with these. -/
theorem getoptLong_inside (h : Ready posixlyCorrect s name options skipped (element :: words))
    (hnext : s.nextchar = some (c :: rest)) (hshort : element[1]? ≠ some dash) :
    s.getoptLong posixlyCorrect optstring longopts =
      { s with optarg := none }.shortOption optstring c rest := by
  have hhead := h.getElem?_optind
  have hpos : s.optind ≠ 0 := by
    rw [h.optind]
    omega
  rw [List.head?_cons] at hhead
  simp only [Getopt.getoptLong, Getopt.getoptInternal, hpos, if_false, hnext, Option.all_some,
    List.isEmpty_cons, Bool.false_eq_true, Getopt.decode, hhead, hshort, and_false]

theorem charCode_ne_eof (h : letter optstring c ≠ .unknown) (hff : (0xFF : UInt8) ∉ optstring) :
    charCode c ≠ eof := by
  have hmem : c ∈ optstring := by
    by_contra hnot
    apply h
    have hnil : optstring.dropWhile (· ≠ c) = [] := by
      rw [List.dropWhile_eq_nil_iff]
      intro x hx
      simpa using fun heq : x = c => hnot (heq ▸ hx)
    rw [letter, hnil]
  intro heof
  have hlast : c.toInt8 = (0xFF : UInt8).toInt8 := Int8.toInt_inj.mp heof
  have hback := congrArg Int8.toUInt8 hlast
  rw [UInt8.toUInt8_toInt8, UInt8.toUInt8_toInt8] at hback
  exact hff (hback ▸ hmem)

theorem missingArgument_ne_eof (optstring : CString) : missingArgument optstring ≠ eof := by
  rw [missingArgument]
  split <;> decide

/-- What a call does with a character, by what the option string says about it. -/
theorem shortOption_eq (optstring : CString) (c : UInt8) (rest : CString) (s : Getopt) :
    s.shortOption optstring c rest =
      let s := { s with
        nextchar := some rest
        optind := if rest.isEmpty then s.optind + 1 else s.optind }
      match letter optstring c with
      | .unknown => .returns { s with optopt := c } badOption
      | .flag => .returns s (charCode c)
      | .optional =>
          if rest.isEmpty then .returns { s with optarg := none, nextchar := none } (charCode c)
          else
            .returns { s with optarg := some rest, optind := s.optind + 1, nextchar := none }
              (charCode c)
      | .required =>
          if !rest.isEmpty then
            .returns { s with optarg := some rest, optind := s.optind + 1, nextchar := none }
              (charCode c)
          else if s.optind = s.argv.length then
            .returns { s with optopt := c, nextchar := none } (missingArgument optstring)
          else
            match s.argv[s.optind]? with
            | none => .outside
            | some element =>
                .returns { s with optarg := some element, optind := s.optind + 1, nextchar := none }
                  (charCode c) := by
  unfold Getopt.shortOption letter
  cases optstring.dropWhile (· ≠ c) with
  | nil => rfl
  | cons _ after =>
      by_cases hcolon : c = colon
      · simp [hcolon]
      · by_cases hfirst : after.head? = some colon
        · by_cases hsecond : after[1]? = some colon
          · simp [hcolon, hfirst, hsecond]
          · cases rest with
            | nil =>
                cases hargument : s.argv[s.optind + 1]? <;>
                  simp [hcolon, hfirst, hsecond, hargument]
            | cons d rest => simp [hcolon, hfirst, hsecond]
        · simp [hcolon, hfirst]

/-- A character without an argument. -/
theorem shortOption_char (hff : (0xFF : UInt8) ∉ optstring) (next : Option CString)
    (hletter : letter optstring c = .unknown ∨ letter optstring c = .flag) (rest : CString)
    (s : Getopt) :
    ∃ t ret, s.shortOption optstring c rest = .returns t ret ∧ ret ≠ eof ∧ Kept s t ∧
      t.nextchar = some rest ∧ t.optarg = s.optarg ∧
      t.optind = (if rest.isEmpty then s.optind + 1 else s.optind) ∧
      readShort optstring next (c :: rest) =
        ((ret, none) :: (readShort optstring next rest).1, (readShort optstring next rest).2) := by
  rw [shortOption_eq]
  rcases hletter with hletter | hletter
  · simp only [hletter, readShort]
    exact ⟨_, _, rfl, by decide, ⟨rfl, rfl, rfl, rfl⟩, rfl, rfl, rfl, rfl⟩
  · have hne := charCode_ne_eof (by rw [hletter]; decide) hff
    simp only [hletter, readShort]
    exact ⟨_, _, rfl, hne, ⟨rfl, rfl, rfl, rfl⟩, rfl, rfl, rfl, rfl⟩

/-- A character with an argument ends the element. -/
theorem shortOption_argument (hff : (0xFF : UInt8) ∉ optstring)
    (hletter : letter optstring c = .optional ∨ letter optstring c = .required) (rest : CString)
    (h : Ready posixlyCorrect s name options skipped (element :: words))
    (hoptarg : s.optarg = none) :
    ∃ t ret takesNext, s.shortOption optstring c rest = .returns t ret ∧ ret ≠ eof ∧ Kept s t ∧
      t.nextchar = none ∧ t.optind = s.optind + 1 + takesNext.toNat ∧
      (takesNext = true → words ≠ []) ∧
      readShort optstring words.head? (c :: rest) = ([(ret, t.optarg)], takesNext) := by
  have hne : charCode c ≠ eof := by
    apply charCode_ne_eof _ hff
    rcases hletter with hletter | hletter <;> rw [hletter] <;> decide
  have hlength := h.length_argv
  have hhead := h.getElem?_succ
  rw [List.length_cons] at hlength
  rw [shortOption_eq]
  rcases hletter with hletter | hletter
  · cases rest with
    | nil =>
        simp only [hletter, readShort]
        exact ⟨_, _, false, rfl, hne, ⟨rfl, rfl, rfl, rfl⟩, rfl, rfl, by simp, rfl⟩
    | cons d rest =>
        simp only [hletter, readShort]
        exact ⟨_, _, false, rfl, hne, ⟨rfl, rfl, rfl, rfl⟩, rfl, rfl, by simp, rfl⟩
  · cases rest with
    | nil =>
        cases words with
        | nil =>
            have hlast : s.optind + 1 = s.argv.length := by
              rw [hlength]
              rfl
            simp only [hletter, readShort, List.isEmpty_nil, Bool.not_true, Bool.false_eq_true,
              if_false, if_true, hlast, List.head?_nil]
            have hne := missingArgument_ne_eof optstring
            exact ⟨_, _, false, rfl, hne, ⟨rfl, rfl, rfl, rfl⟩, rfl, rfl, by simp, by rw [hoptarg]⟩
        | cons argument words =>
            have hmore : ¬ s.optind + 1 = s.argv.length := by
              rw [hlength, List.length_cons]
              omega
            simp only [hletter, readShort, List.isEmpty_nil, Bool.not_true, Bool.false_eq_true,
              if_false, if_true, hmore, hhead, List.head?_cons]
            exact ⟨_, _, true, rfl, hne, ⟨rfl, rfl, rfl, rfl⟩, rfl, rfl, by simp, rfl⟩
    | cons d rest =>
        simp only [hletter, readShort]
        exact ⟨_, _, false, rfl, hne, ⟨rfl, rfl, rfl, rfl⟩, rfl, rfl, by simp, rfl⟩

/-- The short options of an element are returned one by one. -/
theorem emits_shortOption (longopts : List LongOpt) (hff : (0xFF : UInt8) ∉ optstring)
    (h : Ready posixlyCorrect s name options skipped (element :: words))
    (hshort : element[1]? ≠ some dash) (hoptarg : s.optarg = none) :
    ∃ t, Emits (Getopt.getoptLong posixlyCorrect optstring longopts)
        (s.shortOption optstring c rest) (readShort optstring words.head? (c :: rest)).1 t ∧
      AtElement posixlyCorrect t name
        (options ++ element ::
          words.take (readShort optstring words.head? (c :: rest)).2.toNat) skipped
        (words.drop (readShort optstring words.head? (c :: rest)).2.toNat) := by
  induction rest generalizing c s with
  | nil =>
      by_cases hletter : letter optstring c = .unknown ∨ letter optstring c = .flag
      · obtain ⟨t, ret, hcall, hne, kept, hnext, harg, hoptind, hread⟩ :=
          shortOption_char hff words.head? hletter [] s
        rw [hcall, hread, ← hoptarg, ← harg]
        have hnone : false = true → words ≠ [] := fun hfalse => absurd hfalse Bool.false_ne_true
        exact ⟨t, Emits.last hne, h.takeElement kept hnone hoptind (by rw [hnext]; rfl)⟩
      · have hletter' : letter optstring c = .optional ∨ letter optstring c = .required := by
          cases hcase : letter optstring c <;> simp_all
        obtain ⟨t, ret, takesNext, hcall, hne, kept, hnext, hoptind, hwords, hread⟩ :=
          shortOption_argument hff hletter' [] h hoptarg
        rw [hcall, hread]
        exact ⟨t, Emits.last hne, h.takeElement kept hwords hoptind (by rw [hnext]; rfl)⟩
  | cons d rest ih =>
      by_cases hletter : letter optstring c = .unknown ∨ letter optstring c = .flag
      · obtain ⟨t, ret, hcall, hne, kept, hnext, harg, hoptind, hread⟩ :=
          shortOption_char hff words.head? hletter (d :: rest) s
        have hready : Ready posixlyCorrect t name options skipped (element :: words) :=
          h.congr kept hoptind
        obtain ⟨u, hemits, hat⟩ := ih (c := d) (s := { t with optarg := none })
          (hready.congr ⟨rfl, rfl, rfl, rfl⟩ rfl) rfl
        rw [hcall, hread, ← hoptarg, ← harg]
        refine ⟨u, Emits.more hne ?_, hat⟩
        rwa [getoptLong_inside hready hnext hshort]
      · have hletter' : letter optstring c = .optional ∨ letter optstring c = .required := by
          cases hcase : letter optstring c <;> simp_all
        obtain ⟨t, ret, takesNext, hcall, hne, kept, hnext, hoptind, hwords, hread⟩ :=
          shortOption_argument hff hletter' (d :: rest) h hoptarg
        rw [hcall, hread]
        exact ⟨t, Emits.last hne, h.takeElement kept hwords hoptind (by rw [hnext]; rfl)⟩

/-- A name that is not that of an option, but its front, is shorter. -/
theorem length_ne_of_front {name full : CString} (hfront : name.isPrefixOf full = true)
    (hne : full ≠ name) : ¬ name.length = full.length := by
  intro heq
  exact hne ((List.isPrefixOf_iff_prefix.mp hfront).eq_of_length heq).symm

/-- The loop over the long options ends at the first one that has the name. -/
theorem matchLong_exact {p : LongOpt} {name : CString} (found : LongMatch)
    (hexact : longopts.find? (·.name = name) = some p) :
    (matchLong name longopts found).pfound = some p ∧
      (matchLong name longopts found).exact = true := by
  induction longopts generalizing found with
  | nil => cases hexact
  | cons q longopts ih =>
      rw [List.find?_cons] at hexact
      split at hexact
      · rename_i hname
        obtain rfl := Option.some.inj hexact
        rw [matchLong, if_pos (by simp [of_decide_eq_true hname]),
          if_pos (by rw [of_decide_eq_true hname])]
        exact ⟨rfl, rfl⟩
      · rename_i hname
        rw [matchLong]
        split
        · rename_i hfront
          rw [if_neg (length_ne_of_front hfront (of_decide_eq_false hname))]
          split <;> exact ih _ hexact
        · exact ih _ hexact

/-- When none has the name, the loop finds the first one that begins with it, and whether
there are more. -/
theorem matchLong_front {name : CString} {pfound : Option LongOpt} {ambig : Bool}
    (hnone : ∀ p ∈ longopts, p.name ≠ name) :
    matchLong name longopts ⟨pfound, false, ambig⟩ =
      ⟨(pfound.toList ++ beginningWith longopts name).head?, false,
        ambig || decide (1 < (pfound.toList ++ beginningWith longopts name).length)⟩ := by
  induction longopts generalizing pfound ambig with
  | nil => cases pfound <;> simp [matchLong, beginningWith]
  | cons q longopts ih =>
      obtain ⟨hname, hrest⟩ := List.forall_mem_cons.mp hnone
      rw [matchLong]
      by_cases hfront : name.isPrefixOf q.name = true
      · have hlength := length_ne_of_front hfront hname
        have hcons : beginningWith (q :: longopts) name = q :: beginningWith longopts name :=
          List.filter_cons_of_pos hfront
        rw [if_pos hfront, if_neg hlength, hcons]
        cases pfound with
        | none => exact ih hrest
        | some first =>
            refine (ih hrest).trans ?_
            simp
      · have hcons : beginningWith (q :: longopts) name = beginningWith longopts name :=
          List.filter_cons_of_neg hfront
        rw [if_neg hfront, hcons, ih hrest]

/-- What the loop over the long options finds is the option that the name stands for. -/
theorem matchLong_eq_longOptionOf (name : CString) (longopts : List LongOpt) :
    (let found := matchLong name longopts ⟨none, false, false⟩
      if found.ambig && !found.exact then none else found.pfound) =
      longOptionOf longopts name := by
  rw [longOptionOf]
  cases hfind : longopts.find? (·.name = name) with
  | some p =>
      obtain ⟨hfound, hexact⟩ := matchLong_exact ⟨none, false, false⟩ hfind
      simp only [hexact, Bool.not_true, Bool.and_false, Bool.false_eq_true, if_false, hfound]
  | none =>
      have hnone : ∀ p ∈ longopts, p.name ≠ name := by simpa using hfind
      simp only [matchLong_front hnone, Option.toList_none, List.nil_append]
      cases beginningWith longopts name with
      | nil => rfl
      | cons p fronts => cases fronts <;> simp

theorem mem_of_longOptionOf {p : LongOpt} {name : CString}
    (h : longOptionOf longopts name = some p) : p ∈ longopts := by
  rw [longOptionOf] at h
  split at h
  · rename_i hfind
    exact Option.some.inj h ▸ List.mem_of_find?_eq_some hfind
  · rename_i hfronts
    obtain rfl := Option.some.inj h
    exact List.mem_of_mem_filter (hfronts ▸ List.mem_singleton_self _)
  · cases h

/-- What a call does with a long option, by the option that the name stands for. -/
theorem longOption_eq (optstring : CString) (longopts : List LongOpt) (text : CString)
    (s : Getopt) :
    s.longOption optstring longopts text =
      let s := { s with nextchar := some [], optind := s.optind + 1 }
      match longOptionOf longopts (text.takeWhile (· ≠ equals)) with
      | none => .returns s badOption
      | some p =>
          match text.dropWhile (· ≠ equals) with
          | _ :: value =>
              if p.hasArg ≠ .argNone then .returns { s with optarg := some value } p.val
              else .returns s badOption
          | [] =>
              if p.hasArg = .argRequired then
                if s.optind < s.argv.length then
                  match s.argv[s.optind]? with
                  | none => .outside
                  | some element =>
                      .returns { s with optarg := some element, optind := s.optind + 1 } p.val
                else .returns s (missingArgument optstring)
              else .returns s p.val := by
  rw [← matchLong_eq_longOptionOf]
  unfold Getopt.longOption
  simp only []
  split <;> rfl

/-- A long option takes its element, and the next one where its argument is there. -/
theorem longOption_returns (optstring : CString) (hval : ∀ p ∈ longopts, p.val ≠ eof)
    (text : CString)
    (h : Ready posixlyCorrect s name options skipped (element :: words))
    (hoptarg : s.optarg = none) :
    ∃ t ret takesNext, s.longOption optstring longopts text = .returns t ret ∧ ret ≠ eof ∧
      Kept s t ∧ t.nextchar = some [] ∧ t.optind = s.optind + 1 + takesNext.toNat ∧
      (takesNext = true → words ≠ []) ∧
      readLong optstring longopts words.head? text = ((ret, t.optarg), takesNext) := by
  have hlength := h.length_argv
  have hhead := h.getElem?_succ
  rw [List.length_cons] at hlength
  rw [longOption_eq, readLong]
  cases hfound : longOptionOf longopts (text.takeWhile (· ≠ equals)) with
  | none =>
      exact ⟨_, _, false, rfl, by decide, ⟨rfl, rfl, rfl, rfl⟩, rfl, rfl, by simp, by rw [hoptarg]⟩
  | some p =>
      have hne := hval p (mem_of_longOptionOf hfound)
      cases text.dropWhile (· ≠ equals) with
      | cons _ value =>
          simp only []
          split
          · exact ⟨_, _, false, rfl, hne, ⟨rfl, rfl, rfl, rfl⟩, rfl, rfl, by simp, rfl⟩
          · exact ⟨_, _, false, rfl, by decide, ⟨rfl, rfl, rfl, rfl⟩, rfl, rfl, by simp,
              by rw [hoptarg]⟩
      | nil =>
          simp only []
          split
          · cases words with
            | nil =>
                have hlast : ¬ s.optind + 1 < s.argv.length := by
                  rw [hlength, List.length_nil]
                  omega
                rw [if_neg hlast]
                exact ⟨_, _, false, rfl, missingArgument_ne_eof _, ⟨rfl, rfl, rfl, rfl⟩, rfl, rfl,
                  by simp, by simp only [List.head?_nil, hoptarg]⟩
            | cons argument words =>
                have hmore : s.optind + 1 < s.argv.length := by
                  rw [hlength, List.length_cons]
                  omega
                rw [if_pos hmore]
                simp only [hhead, List.head?_cons]
                exact ⟨_, _, true, rfl, hne, ⟨rfl, rfl, rfl, rfl⟩, rfl, rfl, by simp, rfl⟩
          · exact ⟨_, _, false, rfl, hne, ⟨rfl, rfl, rfl, rfl⟩, rfl, rfl, by simp, by rw [hoptarg]⟩

/-- A call between two elements skips what is not an option first. -/
theorem getoptLong_between (optstring : CString) (longopts : List LongOpt)
    {before since unread : List CString}
    (h : Between posixlyCorrect s name before skipped since unread) :
    ∃ r, Ready posixlyCorrect r name (before ++ since)
        (skipped ++ passed posixlyCorrect unread) (pending posixlyCorrect unread) ∧
      r.optarg = none ∧
      s.getoptLong posixlyCorrect optstring longopts =
        match r.scanNext (some longopts) with
        | .goesOn s => s.decode optstring (some longopts)
        | outcome => outcome := by
  have hclear : Between posixlyCorrect { s with optarg := none } name before skipped since unread :=
    ⟨⟨h.argv, h.first, h.last, h.optind⟩, h.nextchar, h.ordering, h.unmoved⟩
  have hpos : s.optind ≠ 0 := by
    rw [h.optind]
    omega
  refine ⟨_, hclear.ready, ?_, ?_⟩
  · split
    · rw [skip_optarg]
    · rfl
  · generalize hscan : Getopt.scanNext _ _ = outcome
    cases outcome <;>
      simp only [Getopt.getoptLong, Getopt.getoptInternal, hpos, if_false, h.nextchar, if_true,
        Getopt.advance, hscan]

/-- An option begins with a dash that is not its last character. -/
theorem exists_of_isNonOption (h : isNonOption element = false) :
    ∃ c rest, element = dash :: c :: rest := by
  match element with
  | [] => cases h
  | [d] => simp [isNonOption] at h
  | d :: c :: rest =>
      have hdash : d = dash := by simpa [isNonOption] using h
      exact ⟨c, rest, hdash ▸ rfl⟩

/-- The options of an element are returned one by one. -/
theorem emits_element (hff : (0xFF : UInt8) ∉ optstring) (hval : ∀ p ∈ longopts, p.val ≠ eof)
    (h : Ready posixlyCorrect s name options skipped (element :: words))
    (hend : element ≠ endOfOptions) (hoption : isNonOption element = false)
    (hoptarg : s.optarg = none) :
    ∃ t, Emits (Getopt.getoptLong posixlyCorrect optstring longopts)
        (match s.scanNext (some longopts) with
          | .goesOn s => s.decode optstring (some longopts)
          | outcome => outcome)
        (readElement optstring longopts words.head? element).1 t ∧
      AtElement posixlyCorrect t name
        (options ++ element ::
          words.take (readElement optstring longopts words.head? element).2.toNat) skipped
        (words.drop (readElement optstring longopts words.head? element).2.toNat) := by
  have hhead := h.getElem?_optind
  rw [List.head?_cons] at hhead
  obtain ⟨c, rest, rfl⟩ := exists_of_isNonOption hoption
  rw [h.scanNext_option _ hend hoption]
  by_cases hlong : c = dash
  · subst hlong
    have hready : Ready posixlyCorrect { s with nextchar := some rest } name options skipped
        ((dash :: dash :: rest) :: words) := h.congr ⟨rfl, rfl, rfl, rfl⟩ rfl
    obtain ⟨t, ret, takesNext, hcall, hne, kept, hnext, hoptind, hwords, hread⟩ :=
      longOption_returns optstring hval rest hready hoptarg
    have helement : readElement optstring longopts words.head? (dash :: dash :: rest) =
        ([(ret, t.optarg)], takesNext) := by
      simp [readElement, hread]
    have hdecode : ({ s with nextchar := some rest } : Getopt).decode optstring (some longopts) =
        .returns t ret := by
      simp [Getopt.decode, hhead, hcall]
    rw [helement]
    refine ⟨t, ?_, hready.takeElement kept hwords hoptind (by rw [hnext]; rfl)⟩
    simpa [hdecode] using Emits.last hne
  · have hsecond : (dash :: c :: rest)[1]? ≠ some dash := by simpa using hlong
    have hready : Ready posixlyCorrect { s with nextchar := some (c :: rest) } name options skipped
        ((dash :: c :: rest) :: words) := h.congr ⟨rfl, rfl, rfl, rfl⟩ rfl
    have helement : readElement optstring longopts words.head? (dash :: c :: rest) =
        readShort optstring words.head? (c :: rest) := by
      simp [readElement, hlong]
    have hdecode : ({ s with nextchar := some (c :: rest) } : Getopt).decode optstring
        (some longopts) =
          { s with nextchar := some (c :: rest) }.shortOption optstring c rest := by
      simp [Getopt.decode, hhead, hlong]
    obtain ⟨t, hemits, hat⟩ := emits_shortOption (c := c) longopts hff hready hsecond hoptarg
    rw [helement]
    refine ⟨t, ?_, hat⟩
    simpa [hlong, hdecode] using hemits

end Element

section Calls

variable {posixlyCorrect : Bool} {optstring : CString} {longopts : List LongOpt} {s t : Getopt}
  {name : CString} {options skipped words unread : List CString}

theorem calls_of_emits {call : Getopt → Outcome} {results : List Returned}
    (h : Emits call (call s) results t) (fuel : Nat) :
    calls call (results.length + fuel) s =
      (calls call fuel t).map fun rest => (results ++ rest.1, rest.2) := by
  generalize hcall : call s = outcome at h
  induction h generalizing s with
  | last hne =>
      rw [List.length_singleton, Nat.add_comm, calls, hcall]
      simp only [hne, if_false, List.singleton_append]
  | @more t ret results u hne tail ih =>
      rw [List.length_cons, Nat.succ_add, calls, hcall]
      simp only [hne, if_false, ih rfl, Option.map_map]
      rfl

/-- More calls than are needed are not made. -/
theorem calls_mono {call : Getopt → Outcome} {fuel more : Nat} {answer : List Returned × Getopt}
    (h : calls call fuel s = some answer) (hle : fuel ≤ more) :
    calls call more s = some answer := by
  induction fuel generalizing s more answer with
  | zero => cases h
  | succ fuel ih =>
      obtain ⟨more, rfl⟩ := Nat.exists_eq_add_of_le' hle
      rw [← Nat.add_assoc] at hle ⊢
      rw [calls] at h ⊢
      split at h
      · split at h
        · rename_i heof
          rw [if_pos heof]
          exact h
        · rename_i hne
          obtain ⟨rest, hrest, rfl⟩ := Option.map_eq_some_iff.mp h
          rw [if_neg hne, ih hrest (by omega)]
          rfl
      · cases h

/-- The calls from between two elements on are those that the reading returns. -/
theorem calls_between (hff : (0xFF : UInt8) ∉ optstring) (hval : ∀ p ∈ longopts, p.val ≠ eof)
    (h : AtElement posixlyCorrect s name options skipped unread) :
    ∃ t, calls (getoptLong posixlyCorrect optstring longopts)
          ((read posixlyCorrect optstring longopts false unread).results.length + 1) s =
        some ((read posixlyCorrect optstring longopts false unread).results, t) ∧
      Finished t name (options ++ (read posixlyCorrect optstring longopts false unread).options)
        (skipped ++ (read posixlyCorrect optstring longopts false unread).others) := by
  induction hn : unread.length using Nat.strong_induction_on generalizing s options skipped unread
    with
  | h n ih =>
      subst hn
      obtain ⟨before, since, rfl, hbetween⟩ := h
      obtain ⟨r, hready, hoptarg, hcall⟩ :=
        getoptLong_between optstring longopts hbetween
      have hle := length_pending_le posixlyCorrect unread
      rw [read_pending]
      simp only [← List.append_assoc]
      generalize skipped ++ passed posixlyCorrect unread = skipped at hready ⊢
      generalize pending posixlyCorrect unread = unread' at hready hle ⊢
      have hends : ∀ t : Getopt, r.scanNext (some longopts) = .returns t eof →
          calls (getoptLong posixlyCorrect optstring longopts) 1 s = some ([], t) := by
        intro t hscan
        rw [calls, hcall, hscan]
        rfl
      cases unread' with
      | nil =>
          obtain ⟨t, hscan, hfinished⟩ := hready.scanNext_nil (some longopts)
          refine ⟨t, hends t hscan, ?_⟩
          simpa [read] using hfinished
      | cons element words =>
          by_cases hend : element = endOfOptions
          · subst hend
            obtain ⟨t, hscan, hfinished⟩ := hready.scanNext_end (some longopts)
            refine ⟨t, ?_, ?_⟩
            · simpa [read] using hends t hscan
            · simpa [read] using hfinished
          · by_cases hother : isNonOption element = true
            · obtain ⟨hposix, t, hscan, hfinished⟩ :=
                hready.scanNext_other (some longopts) hend hother
              refine ⟨t, ?_, ?_⟩
              · simpa [read, hend, hother, hposix] using hends t hscan
              · simpa [read, hend, hother, hposix] using hfinished
            · obtain ⟨u, hemits, hat⟩ :=
                emits_element hff hval hready hend (Bool.eq_false_iff.mpr hother) hoptarg
              rw [← hcall] at hemits
              have hread : read posixlyCorrect optstring longopts false (element :: words) =
                  let found := readElement optstring longopts words.head? element
                  let back := read posixlyCorrect optstring longopts found.2 words
                  { back with
                    results := found.1 ++ back.results
                    options := element :: back.options } := by
                rw [read, if_neg hend, if_neg hother]
              rw [hread]
              simp only []
              rw [read_takesNext]
              generalize readElement optstring longopts words.head? element = found at hemits hat ⊢
              obtain ⟨t, hcalls, hfinished⟩ := ih (words.drop found.2.toNat).length
                (by rw [List.length_cons] at hle; rw [List.length_drop]; omega) hat rfl
              refine ⟨t, ?_, ?_⟩
              · rw [List.length_append, Nat.add_assoc, calls_of_emits hemits, hcalls]
                rfl
              · simpa using hfinished

/-- The first call sets the variables, and goes on like a call between two elements. -/
theorem getoptLong_fresh (posixlyCorrect : Bool) (longopts : List LongOpt) (name : CString)
    (words : List CString) (old : Getopt)
    (hfirst : ∀ c ∈ optstring.head?, c ≠ dash ∧ c ≠ plus) :
    ∃ s, AtElement posixlyCorrect s name [] [] words ∧
      (fresh (name :: words) old).getoptLong posixlyCorrect optstring longopts =
        s.getoptLong posixlyCorrect optstring longopts := by
  let s : Getopt := { old with
    argv := name :: words, firstNonopt := 1, lastNonopt := 1, optind := 1, nextchar := none
    ordering := if posixlyCorrect then .requireOrder else .permute }
  have hset : ({ old with argv := name :: words, optind := 0, optarg := none } : Getopt).first
      posixlyCorrect optstring = ({ s with optarg := none }, optstring) := by
    cases optstring with
    | nil => cases posixlyCorrect <;> rfl
    | cons c rest =>
        obtain ⟨hdash, hplus⟩ := hfirst c rfl
        cases posixlyCorrect <;> simp [Getopt.first, hdash, hplus, s]
  refine ⟨s, ⟨[], [], rfl, ⟨rfl, rfl, rfl, rfl⟩, rfl, rfl, fun _ => rfl⟩, ?_⟩
  simp only [Getopt.getoptLong, Getopt.getoptInternal, fresh, if_true, hset]
  rfl

/-- The calls from the first one on are those that the reading returns. -/
theorem calls_fresh (hff : (0xFF : UInt8) ∉ optstring)
    (hfirst : ∀ c ∈ optstring.head?, c ≠ dash ∧ c ≠ plus) (hval : ∀ p ∈ longopts, p.val ≠ eof)
    (posixlyCorrect : Bool) (name : CString) (words : List CString) (old : Getopt) :
    ∃ t, (∀ fuel, (words.map List.length).sum < fuel →
        calls (getoptLong posixlyCorrect optstring longopts) fuel (fresh (name :: words) old) =
          some ((read posixlyCorrect optstring longopts false words).results, t)) ∧
      Finished t name (read posixlyCorrect optstring longopts false words).options
        (read posixlyCorrect optstring longopts false words).others := by
  obtain ⟨s, hat, hcall⟩ := getoptLong_fresh posixlyCorrect longopts name words old hfirst
  obtain ⟨t, hcalls, hfinished⟩ := calls_between hff hval hat
  refine ⟨t, fun fuel hfuel => ?_, hfinished⟩
  have hle := length_results_le posixlyCorrect optstring longopts false words
  refine calls_mono ?_ (Nat.succ_le_of_lt (Nat.lt_of_le_of_lt hle hfuel))
  rw [← hcalls, calls, calls, hcall]

/-- Up to the first `EOF` the calls return the options from left to right, and leave
`argv` with the options in front of the other elements, where `optind` is. There are
no more calls than characters, and none reads outside of `argv`. -/
theorem calls_getoptLong (hff : (0xFF : UInt8) ∉ optstring)
    (hfirst : ∀ c ∈ optstring.head?, c ≠ dash ∧ c ≠ plus) (hval : ∀ p ∈ longopts, p.val ≠ eof)
    (posixlyCorrect : Bool) (name : CString) (words : List CString) (old : Getopt) :
    let reading := read posixlyCorrect optstring longopts false words
    (∃ t, (∀ fuel, (words.map List.length).sum < fuel →
        calls (getoptLong posixlyCorrect optstring longopts) fuel (fresh (name :: words) old) =
          some (reading.results, t)) ∧
      t.argv = name :: (reading.options ++ reading.others) ∧
      t.optind = 1 + reading.options.length) ∧
    (reading.options ++ reading.others).Perm words ∧ reading.options.Sublist words ∧
      reading.others.Sublist words := by
  refine ⟨?_, read_divides posixlyCorrect optstring longopts false words⟩
  obtain ⟨t, hcalls, hfinished⟩ := calls_fresh hff hfirst hval posixlyCorrect name words old
  exact ⟨t, hcalls, hfinished.argv, hfinished.optind⟩

section Interspersed

/-- `"hn:"` -/
def twoLetters : CString := [104, 110, colon]

/-- `--name` and `--names`, of which the first one needs an argument. -/
def twoNames : List LongOpt :=
  [⟨[110, 97, 109, 101], .argRequired, 256⟩, ⟨[110, 97, 109, 101, 115], .argOptional, 257⟩]

/-- `a -hn b c --name=d --na -- -h` -/
def interspersed : List CString :=
  [[97], [dash, 104, 110], [98], [99], [dash, dash, 110, 97, 109, 101, equals, 100],
    [dash, dash, 110, 97], endOfOptions, [dash, 104]]

/-- The argument of the second letter is the next element; the front of both names is
ambiguous; and behind `--` there is no option. -/
theorem calls_getoptLong_interspersed :
    ∃ t, calls (getoptLong false twoLetters twoNames) 30 (fresh ([112] :: interspersed) atStart) =
        some ([(104, none), (110, some [98]), (256, some [100]), (badOption, none)], t) ∧
      t.argv = [[112], [dash, 104, 110], [98], [dash, dash, 110, 97, 109, 101, equals, 100],
        [dash, dash, 110, 97], endOfOptions, [97], [99], [dash, 104]] ∧ t.optind = 6 := by
  obtain ⟨⟨t, hcalls, hargv, hoptind⟩, -⟩ := @calls_getoptLong twoLetters twoNames
    (by decide) (by rintro c ⟨rfl⟩; decide) (by decide) false [112] interspersed atStart
  exact ⟨t, hcalls 30 (by decide), hargv, hoptind⟩

end Interspersed

end Calls

end Getopt

end FFZKit.Win32
