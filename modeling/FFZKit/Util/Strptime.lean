import FFZKit.Util.LogFileTime

/-!
# `strptime` of the Windows build

`strptime` walks over a format and a text side by side. A conversion of the format
reads a number or a name from the text into a field of `tm`, and some conversions
stand for a format of their own. It returns the rest of the text, or fails.

## Implementation notes

The texts are those of C, so they hold no zero character. The text is not restored
where it fails, but what was read stays in `tm`. A conversion that stands for a format
calls the function again, to a depth that is given: a depth of two is enough, and more
changes nothing.
-/

namespace FFZKit.Util.Strptime

/-- `struct tm` -/
structure Tm where
  sec : Int
  min : Int
  hour : Int
  mday : Int
  mon : Int
  year : Int
  wday : Int
  yday : Int
  deriving DecidableEq, Repr

/-- The flag of `alt_format`. -/
inductive Alt
  | E
  | O
  deriving DecidableEq, Repr

/-- The local variables of one call, and `tm`. -/
structure State where
  bp : List Char
  tm : Tm
  splitYear : Bool
  deriving DecidableEq, Repr

/-- What a conversion does: `strptime` returns, or it goes on. -/
inductive Outcome
  | fails (tm : Tm)
  | goes (st : State)
  deriving DecidableEq, Repr

/-- The rest of the text, unless it fails, and `tm`. -/
abbrev Result : Type := Option (List Char) × Tm

/-- Full and abbreviated names of the days. -/
def dayNames : List (List Char × List Char) :=
  [("Sunday".toList, "Sun".toList), ("Monday".toList, "Mon".toList),
    ("Tuesday".toList, "Tue".toList), ("Wednesday".toList, "Wed".toList),
    ("Thursday".toList, "Thu".toList), ("Friday".toList, "Fri".toList),
    ("Saturday".toList, "Sat".toList)]

/-- Full and abbreviated names of the months. -/
def monNames : List (List Char × List Char) :=
  [("January".toList, "Jan".toList), ("February".toList, "Feb".toList),
    ("March".toList, "Mar".toList), ("April".toList, "Apr".toList), ("May".toList, "May".toList),
    ("June".toList, "Jun".toList), ("July".toList, "Jul".toList), ("August".toList, "Aug".toList),
    ("September".toList, "Sep".toList), ("October".toList, "Oct".toList),
    ("November".toList, "Nov".toList), ("December".toList, "Dec".toList)]

/-- `TM_YEAR_BASE` -/
def tmYearBase : Int := 1900

/-- `*bp++` is the character. -/
def literal (c : Char) (st : State) : Outcome :=
  match st.bp with
  | d :: bp => if c = d then .goes { st with bp := bp } else .fails st.tm
  | [] => .fails st.tm

/-- The loop of `conv_num`, from the place of a digit on. -/
def convLoop (ulim : Nat) : List Char → Nat → Nat → Nat × List Char
  | [], _, result => (result, [])
  | c :: s, rulim, result =>
      let result := result * 10 + (c.toNat - '0'.toNat)
      let rulim := rulim / 10
      if result * 10 ≤ ulim ∧ rulim ≠ 0 ∧ s.head?.any Char.isDigit then
        convLoop ulim s rulim result
      else (result, s)

/-- `conv_num` -/
def convNum (llim ulim : Nat) (bp : List Char) : Option (Nat × List Char) :=
  if bp.head?.any Char.isDigit then
    let (result, bp) := convLoop ulim bp ulim 0
    if result < llim ∨ ulim < result then none else some (result, bp)
  else none

/-- A number from `llim` to `ulim` is read into `tm`. -/
def number (llim ulim : Nat) (set : Nat → Tm → Tm) (st : State) : Outcome :=
  match convNum llim ulim st.bp with
  | none => .fails st.tm
  | some (n, bp) => .goes { st with bp := bp, tm := set n st.tm }

/-- The number of the first name that the text begins with, and the text behind it. -/
def findName : List (List Char × List Char) → List Char → Option (Nat × List Char)
  | [], _ => none
  | (full, abbr) :: names, bp =>
      if full.isPrefixOf bp then some (0, bp.drop full.length)
      else if abbr.isPrefixOf bp then some (0, bp.drop abbr.length)
      else (findName names bp).map fun (i, rest) => (i + 1, rest)

/-- A name is read into `tm`. -/
def name (names : List (List Char × List Char)) (set : Nat → Tm → Tm) (st : State) : Outcome :=
  match findName names st.bp with
  | none => .fails st.tm
  | some (i, bp) => .goes { st with bp := bp, tm := set i st.tm }

/-- `LEGAL_ALT` before a conversion. -/
def legalAlt (allowed : List Alt) (alt : Option Alt) (conv : State → Outcome) (st : State) :
    Outcome :=
  if alt.all allowed.contains then conv st else .fails st.tm

/-- A conversion that stands for a format. -/
def complex (nested : List Char → List Char → Tm → Result) (fmt : String) (st : State) : Outcome :=
  match nested fmt.toList st.bp st.tm with
  | (none, tm) => .fails tm
  | (some bp, tm) => .goes { st with bp := bp, tm := tm }

/-- `%C` -/
def century (st : State) : Outcome :=
  match convNum 0 99 st.bp with
  | none => .fails st.tm
  | some (i, bp) =>
      if st.splitYear then
        .goes { st with bp := bp, tm := { st.tm with year := st.tm.year.tmod 100 + i * 100 } }
      else .goes { bp := bp, tm := { st.tm with year := i * 100 }, splitYear := true }

/-- `%y` -/
def yearInCentury (st : State) : Outcome :=
  match convNum 0 99 st.bp with
  | none => .fails st.tm
  | some (i, bp) =>
      if st.splitYear then
        .goes { st with bp := bp, tm := { st.tm with year := st.tm.year.tdiv 100 * 100 + i } }
      else
        .goes
          { bp := bp
            tm := { st.tm with
              year := if i ≤ 68 then i + 2000 - tmYearBase else i + 1900 - tmYearBase }
            splitYear := true }

/-- `%p`, for which the text must end behind `AM` or `PM`. -/
def amPm (st : State) : Outcome :=
  if st.bp = "AM".toList then
    if 11 < st.tm.hour then .fails st.tm else .goes { st with bp := [] }
  else if st.bp = "PM".toList then
    if 11 < st.tm.hour then .fails st.tm
    else .goes { st with bp := [], tm := { st.tm with hour := st.tm.hour + 12 } }
  else .fails st.tm

/-- White space of the text is skipped. -/
def skip (st : State) : Outcome := .goes { st with bp := st.bp.dropWhile isspace }

/-- The conversion of a character behind `%` and its modifiers. -/
def conversion (nested : List Char → List Char → Tm → Result) (alt : Option Alt) :
    Char → State → Outcome
  | '%' => literal '%'
  | 'c' => legalAlt [.E] alt (complex nested "%x %X")
  | 'D' => legalAlt [] alt (complex nested "%m/%d/%y")
  | 'R' => legalAlt [] alt (complex nested "%H:%M")
  | 'r' => legalAlt [] alt (complex nested "%I:%M:%S %p")
  | 'T' => legalAlt [] alt (complex nested "%H:%M:%S")
  | 'X' => legalAlt [.E] alt (complex nested "%H:%M:%S")
  | 'x' => legalAlt [.E] alt (complex nested "%m/%d/%y")
  | 'A' | 'a' => legalAlt [] alt (name dayNames fun i tm => { tm with wday := i })
  | 'B' | 'b' | 'h' => legalAlt [] alt (name monNames fun i tm => { tm with mon := i })
  | 'C' => legalAlt [.E] alt century
  | 'd' | 'e' => legalAlt [.O] alt (number 1 31 fun i tm => { tm with mday := i })
  | 'k' =>
      legalAlt [] alt (legalAlt [.O] alt (number 0 23 fun i tm => { tm with hour := i }))
  | 'H' => legalAlt [.O] alt (number 0 23 fun i tm => { tm with hour := i })
  | 'l' =>
      legalAlt [] alt
        (legalAlt [.O] alt (number 1 12 fun i tm => { tm with hour := if i = 12 then 0 else i }))
  | 'I' =>
      legalAlt [.O] alt (number 1 12 fun i tm => { tm with hour := if i = 12 then 0 else i })
  | 'j' => legalAlt [] alt (number 1 366 fun i tm => { tm with yday := i - 1 })
  | 'M' => legalAlt [.O] alt (number 0 59 fun i tm => { tm with min := i })
  | 'm' => legalAlt [.O] alt (number 1 12 fun i tm => { tm with mon := i - 1 })
  | 'p' => legalAlt [] alt amPm
  | 'S' => legalAlt [.O] alt (number 0 61 fun i tm => { tm with sec := i })
  | 'U' | 'W' => legalAlt [.O] alt (number 0 53 fun _ tm => tm)
  | 'w' => legalAlt [.O] alt (number 0 6 fun i tm => { tm with wday := i })
  | 'Y' => legalAlt [.E] alt (number 0 9999 fun i tm => { tm with year := i - tmYearBase })
  | 'y' => legalAlt [.E, .O] alt yearInCentury
  | 'n' | 't' => legalAlt [] alt skip
  | _ => fun st => .fails st.tm

/-- Where the loop over the format is: before an item, or behind `%` and a modifier. -/
inductive Mode
  | item
  | behindPercent (alt : Option Alt)
  deriving DecidableEq, Repr

/-- The loop over the format. -/
def walk (nested : List Char → List Char → Tm → Result) : Mode → List Char → State → Result
  | .item, [], st => (some st.bp, st.tm)
  | .behindPercent _, [], st => (none, st.tm)
  | .item, c :: fmt, st =>
      if isspace c then walk nested .item fmt { st with bp := st.bp.dropWhile isspace }
      else if c = '%' then walk nested (.behindPercent none) fmt st
      else
        match literal c st with
        | .fails tm => (none, tm)
        | .goes st => walk nested .item fmt st
  | .behindPercent alt, c :: fmt, st =>
      if c = 'E' ∨ c = 'O' then
        if alt.isSome then (none, st.tm)
        else walk nested (.behindPercent (some (if c = 'E' then .E else .O))) fmt st
      else
        match conversion nested alt c st with
        | .fails tm => (none, tm)
        | .goes st => walk nested .item fmt st

/-- `strptime` with conversions nested to a depth. -/
def strptimeTo : Nat → List Char → List Char → Tm → Result
  | 0, fmt, buf, tm => walk (fun _ _ tm => (none, tm)) .item fmt ⟨buf, tm, false⟩
  | depth + 1, fmt, buf, tm => walk (strptimeTo depth) .item fmt ⟨buf, tm, false⟩

/-- `strptime` -/
def strptime (buf fmt : List Char) (tm : Tm) : Result := strptimeTo 2 fmt buf tm

section Depth

variable {nested nested' : List Char → List Char → Tm → Result}

/-- The format that a conversion stands for. -/
def expansion : Char → Option String
  | 'c' => some "%x %X"
  | 'D' | 'x' => some "%m/%d/%y"
  | 'R' => some "%H:%M"
  | 'r' => some "%I:%M:%S %p"
  | 'T' | 'X' => some "%H:%M:%S"
  | _ => none

/-- Two callees agree on what the conversions of a format stand for. -/
def Agree (nested nested' : List Char → List Char → Tm → Result) (fmt : List Char) : Prop :=
  ∀ c ∈ fmt, ∀ inner ∈ expansion c, ∀ buf tm,
    nested inner.toList buf tm = nested' inner.toList buf tm

theorem conversion_congr {c : Char}
    (h : ∀ inner ∈ expansion c, ∀ buf tm, nested inner.toList buf tm = nested' inner.toList buf tm)
    (alt : Option Alt) (st : State) :
    conversion nested alt c st = conversion nested' alt c st := by
  have hcomplex : ∀ inner ∈ expansion c, complex nested inner = complex nested' inner := by
    intro inner hinner
    funext st
    rw [complex, complex, h inner hinner]
  unfold conversion
  split
  case h_2 | h_3 | h_4 | h_5 | h_6 | h_7 | h_8 => rw [hcomplex _ rfl]
  all_goals rfl

theorem walk_congr {fmt : List Char} (h : Agree nested nested' fmt) (mode : Mode) (st : State) :
    walk nested mode fmt st = walk nested' mode fmt st := by
  induction fmt generalizing mode st with
  | nil => cases mode <;> rfl
  | cons c fmt ih =>
      have hrest : Agree nested nested' fmt := fun d hd => h d (List.mem_cons_of_mem c hd)
      cases mode with
      | item => simp only [walk, ih hrest]
      | behindPercent alt =>
          simp only [walk, ih hrest, conversion_congr (h c List.mem_cons_self)]

/-- At every depth a format is walked over with the callee of the depth below. -/
theorem strptimeTo_congr {depth depth' : Nat} {fmt : List Char}
    (h : ∀ nested nested', Agree nested nested' fmt) (buf : List Char) (tm : Tm) :
    strptimeTo depth fmt buf tm = strptimeTo depth' fmt buf tm := by
  cases depth <;> cases depth' <;> exact walk_congr (h _ _) _ _

/-- A format of numbers and names needs no callee. -/
theorem agree_of_simple {fmt : List Char} (h : ∀ c ∈ fmt, expansion c = none) :
    Agree nested nested' fmt := by
  intro c hc inner hinner
  rw [h c hc] at hinner
  cases hinner

/-- What a conversion stands for is made of numbers, or of the date and the time. -/
theorem expansion_cases {c : Char} {inner : String} (h : expansion c = some inner) :
    inner = "%x %X" ∨ ∀ c ∈ inner.toList, expansion c = none := by
  unfold expansion at h
  split at h <;> cases h
  · exact Or.inl rfl
  all_goals exact Or.inr (by simp [expansion])

/-- The format of the date and the time does not stand for itself again. -/
theorem expansion_ne : ∀ c ∈ "%x %X".toList, expansion c ≠ some "%x %X" := by
  simp [expansion]

/-- A depth of two is enough: the function calls itself no deeper. -/
theorem strptimeTo_eq (depth : Nat) (fmt buf : List Char) (tm : Tm) :
    strptimeTo (depth + 2) fmt buf tm = strptime buf fmt tm := by
  apply walk_congr
  intro c _ inner hinner buf tm
  rcases expansion_cases hinner with rfl | hsimple
  · apply walk_congr
    intro d hd inner' hinner' buf tm
    have hsimple : ∀ c ∈ inner'.toList, expansion c = none := by
      rcases expansion_cases hinner' with rfl | hsimple
      · exact absurd hinner' (expansion_ne d hd)
      · exact hsimple
    exact strptimeTo_congr (fun _ _ => agree_of_simple hsimple) buf tm
  · exact strptimeTo_congr (fun _ _ => agree_of_simple hsimple) buf tm

end Depth

section Range

/-- Every field is in the range of its conversions, or still zero. -/
structure Tm.InRange (tm : Tm) : Prop where
  sec : 0 ≤ tm.sec ∧ tm.sec ≤ 61
  min : 0 ≤ tm.min ∧ tm.min ≤ 59
  hour : 0 ≤ tm.hour ∧ tm.hour ≤ 23
  mday : 0 ≤ tm.mday ∧ tm.mday ≤ 31
  mon : 0 ≤ tm.mon ∧ tm.mon ≤ 11
  year : -1900 ≤ tm.year ∧ tm.year ≤ 9999
  wday : 0 ≤ tm.wday ∧ tm.wday ≤ 6
  yday : 0 ≤ tm.yday ∧ tm.yday ≤ 365

/-- What a conversion leaves: fields in range, and an end of the text. -/
def Outcome.Sound (st : State) : Outcome → Prop
  | .fails tm => tm.InRange
  | .goes st' => st'.tm.InRange ∧ st'.bp <:+ st.bp

/-- What a call leaves of a text. -/
def Result.Sound (buf : List Char) (r : Result) : Prop :=
  r.2.InRange ∧ ∀ rest, r.1 = some rest → rest <:+ buf

variable {nested : List Char → List Char → Tm → Result} {st : State}

theorem convLoop_suffix (ulim : Nat) (s : List Char) (rulim result : Nat) :
    (convLoop ulim s rulim result).2 <:+ s := by
  induction s generalizing rulim result with
  | nil => exact List.suffix_refl _
  | cons c s ih =>
      simp only [convLoop]
      split
      · exact (ih _ _).trans (List.suffix_cons c s)
      · exact List.suffix_cons c s

theorem convNum_spec {llim ulim n : Nat} {bp rest : List Char}
    (h : convNum llim ulim bp = some (n, rest)) : llim ≤ n ∧ n ≤ ulim ∧ rest <:+ bp := by
  unfold convNum at h
  split at h
  · dsimp only at h
    split at h
    · cases h
    · rename_i hrange
      obtain ⟨rfl, rfl⟩ := Prod.mk.inj (Option.some.inj h)
      rw [not_or, Nat.not_lt, Nat.not_lt] at hrange
      exact ⟨hrange.1, hrange.2, convLoop_suffix _ _ _ _⟩
  · cases h

theorem findName_spec {names : List (List Char × List Char)} {bp rest : List Char} {i : Nat}
    (h : findName names bp = some (i, rest)) : i < names.length ∧ rest <:+ bp := by
  induction names generalizing i with
  | nil => cases h
  | cons name names ih =>
      simp only [findName] at h
      split at h
      · obtain ⟨rfl, rfl⟩ := Prod.mk.inj (Option.some.inj h)
        exact ⟨Nat.zero_lt_succ _, List.drop_suffix _ _⟩
      · split at h
        · obtain ⟨rfl, rfl⟩ := Prod.mk.inj (Option.some.inj h)
          exact ⟨Nat.zero_lt_succ _, List.drop_suffix _ _⟩
        · obtain ⟨⟨j, rest'⟩, hfind, heq⟩ := Option.map_eq_some_iff.mp h
          obtain ⟨rfl, rfl⟩ := Prod.mk.inj heq
          exact ⟨Nat.succ_lt_succ (ih hfind).1, (ih hfind).2⟩

theorem number_sound (h : st.tm.InRange) {llim ulim : Nat} {set : Nat → Tm → Tm}
    (hset : ∀ n, llim ≤ n → n ≤ ulim → (set n st.tm).InRange) :
    (number llim ulim set st).Sound st := by
  unfold number
  split
  · exact h
  · rename_i n rest hnum
    obtain ⟨hlow, hhigh, hsuffix⟩ := convNum_spec hnum
    exact ⟨hset n hlow hhigh, hsuffix⟩

theorem name_sound (h : st.tm.InRange) {names : List (List Char × List Char)}
    {set : Nat → Tm → Tm} (hset : ∀ i, i < names.length → (set i st.tm).InRange) :
    (name names set st).Sound st := by
  unfold name
  split
  · exact h
  · rename_i i rest hfind
    obtain ⟨hlt, hsuffix⟩ := findName_spec hfind
    exact ⟨hset i hlt, hsuffix⟩

theorem legalAlt_sound (h : st.tm.InRange) {conv : State → Outcome} (hconv : (conv st).Sound st)
    (allowed : List Alt) (alt : Option Alt) : (legalAlt allowed alt conv st).Sound st := by
  unfold legalAlt
  split
  · exact hconv
  · exact h

theorem complex_sound (h : st.tm.InRange)
    (hnested : ∀ fmt buf tm, tm.InRange → (nested fmt buf tm).Sound buf) (fmt : String) :
    (complex nested fmt st).Sound st := by
  have hcall := hnested fmt.toList st.bp st.tm h
  unfold complex
  split
  · rename_i tm heq
    rw [heq] at hcall
    exact hcall.1
  · rename_i rest tm heq
    rw [heq] at hcall
    exact ⟨hcall.1, hcall.2 rest rfl⟩

theorem literal_sound (h : st.tm.InRange) (c : Char) : (literal c st).Sound st := by
  unfold literal
  split
  · rename_i d bp hbp
    split
    · exact ⟨h, hbp ▸ List.suffix_cons d bp⟩
    · exact h
  · exact h

theorem century_sound (h : st.tm.InRange) : (century st).Sound st := by
  unfold century
  split
  · exact h
  · rename_i i rest hnum
    obtain ⟨_, hhigh, hsuffix⟩ := convNum_spec hnum
    have hlow : -100 < st.tm.year.tmod 100 := Int.lt_tmod_of_pos _ (by decide)
    have hmod : st.tm.year.tmod 100 < 100 := Int.tmod_lt_of_pos _ (by decide)
    split
    · exact ⟨{ h with year := by dsimp only; omega }, hsuffix⟩
    · exact ⟨{ h with year := by dsimp only; omega }, hsuffix⟩

theorem yearInCentury_sound (h : st.tm.InRange) : (yearInCentury st).Sound st := by
  unfold yearInCentury
  split
  · exact h
  · rename_i i rest hnum
    obtain ⟨_, hhigh, hsuffix⟩ := convNum_spec hnum
    have hyear := h.year
    split
    · have hsplit := Int.mul_tdiv_add_tmod st.tm.year 100
      have hlow : -100 < st.tm.year.tmod 100 := Int.lt_tmod_of_pos _ (by decide)
      have hmod : st.tm.year.tmod 100 < 100 := Int.tmod_lt_of_pos _ (by decide)
      refine ⟨{ h with year := ?_ }, hsuffix⟩
      dsimp only
      by_cases hsign : 0 ≤ st.tm.year
      · have hpos : 0 ≤ st.tm.year.tmod 100 := Int.tmod_nonneg _ hsign
        omega
      · omega
    · refine ⟨{ h with year := ?_ }, hsuffix⟩
      unfold tmYearBase
      dsimp only
      split <;> omega

theorem Tm.InRange.hour12 {tm : Tm} (h : tm.InRange) {n : Nat} (hn : n ≤ 12) :
    { tm with hour := if n = 12 then 0 else (n : Int) }.InRange := by
  refine { h with hour := ?_ }
  dsimp only
  split <;> omega

theorem amPm_sound (h : st.tm.InRange) : (amPm st).Sound st := by
  unfold amPm
  split
  · split
    · exact h
    · exact ⟨h, List.nil_suffix⟩
  · split
    · split
      · exact h
      · have hhour := h.hour
        exact ⟨{ h with hour := by dsimp only; omega }, List.nil_suffix⟩
    · exact h

theorem skip_sound (h : st.tm.InRange) : (skip st).Sound st :=
  ⟨h, List.dropWhile_suffix _⟩

theorem conversion_sound (h : st.tm.InRange)
    (hnested : ∀ fmt buf tm, tm.InRange → (nested fmt buf tm).Sound buf) (alt : Option Alt)
    (c : Char) : (conversion nested alt c st).Sound st := by
  have hnumber : ∀ {llim ulim set}, (∀ n, llim ≤ n → n ≤ ulim → (set n st.tm).InRange) →
      ∀ allowed, (legalAlt allowed alt (number llim ulim set) st).Sound st :=
    fun hset allowed => legalAlt_sound h (number_sound h hset) allowed alt
  unfold conversion
  split
  case h_1 => exact literal_sound h '%'
  case h_2 | h_3 | h_4 | h_5 | h_6 | h_7 | h_8 =>
    exact legalAlt_sound h (complex_sound h hnested _) _ alt
  case h_9 | h_10 =>
    refine legalAlt_sound h (name_sound h fun i hi => { h with wday := ?_ }) _ alt
    have hdays : i < 7 := hi
    dsimp only
    omega
  case h_11 | h_12 | h_13 =>
    refine legalAlt_sound h (name_sound h fun i hi => { h with mon := ?_ }) _ alt
    have hmonths : i < 12 := hi
    dsimp only
    omega
  case h_14 => exact legalAlt_sound h (century_sound h) _ alt
  case h_15 | h_16 =>
    exact hnumber (fun n _ hn => { h with mday := by dsimp only; omega }) _
  case h_17 =>
    exact legalAlt_sound h (hnumber (fun n _ hn => { h with hour := by dsimp only; omega }) _) _ alt
  case h_18 => exact hnumber (fun n _ hn => { h with hour := by dsimp only; omega }) _
  case h_19 =>
    exact legalAlt_sound h (hnumber (fun n _ hn => h.hour12 hn) _) _ alt
  case h_20 => exact hnumber (fun n _ hn => h.hour12 hn) _
  case h_21 => exact hnumber (fun n _ hn => { h with yday := by dsimp only; omega }) _
  case h_22 => exact hnumber (fun n _ hn => { h with min := by dsimp only; omega }) _
  case h_23 => exact hnumber (fun n _ hn => { h with mon := by dsimp only; omega }) _
  case h_24 => exact legalAlt_sound h (amPm_sound h) _ alt
  case h_25 => exact hnumber (fun n _ hn => { h with sec := by dsimp only; omega }) _
  case h_26 | h_27 => exact hnumber (fun _ _ _ => h) _
  case h_28 => exact hnumber (fun n _ hn => { h with wday := by dsimp only; omega }) _
  case h_29 =>
    exact hnumber (fun n _ hn => { h with year := by dsimp only [tmYearBase]; omega }) _
  case h_30 => exact legalAlt_sound h (yearInCentury_sound h) _ alt
  case h_31 | h_32 => exact legalAlt_sound h (skip_sound h) _ alt
  case h_33 => exact h

theorem walk_sound (st : State) (h : st.tm.InRange)
    (hnested : ∀ fmt buf tm, tm.InRange → (nested fmt buf tm).Sound buf) (mode : Mode)
    (fmt : List Char) : (walk nested mode fmt st).Sound st.bp := by
  induction fmt generalizing mode st with
  | nil =>
      cases mode with
      | item => exact ⟨h, fun rest hrest => Option.some.inj hrest ▸ List.suffix_refl _⟩
      | behindPercent alt => exact ⟨h, fun rest hrest => by cases hrest⟩
  | cons c fmt ih =>
      have hgo : ∀ outcome : Outcome, outcome.Sound st → Result.Sound st.bp
          (match outcome with
            | .fails tm => (none, tm)
            | .goes st => walk nested .item fmt st) := by
        intro outcome houtcome
        cases outcome with
        | fails tm => exact ⟨houtcome, fun rest hrest => by cases hrest⟩
        | goes st' =>
            obtain ⟨hrange, hrest⟩ := ih st' houtcome.1 .item
            exact ⟨hrange, fun rest hsome => (hrest rest hsome).trans houtcome.2⟩
      cases mode with
      | item =>
          simp only [walk]
          split
          · obtain ⟨hrange, hrest⟩ := ih { st with bp := st.bp.dropWhile isspace } h .item
            exact ⟨hrange, fun rest hsome =>
              (hrest rest hsome).trans (List.dropWhile_suffix _)⟩
          · split
            · exact ih st h _
            · exact hgo _ (literal_sound h c)
      | behindPercent alt =>
          simp only [walk]
          split
          · split
            · exact ⟨h, fun rest hrest => by cases hrest⟩
            · exact ih st h _
          · exact hgo _ (conversion_sound h hnested alt c)

theorem strptimeTo_sound (depth : Nat) (fmt buf : List Char) (tm : Tm) (h : tm.InRange) :
    (strptimeTo depth fmt buf tm).Sound buf := by
  induction depth generalizing fmt buf tm with
  | zero =>
      exact walk_sound ⟨buf, tm, false⟩ h
        (fun _ _ _ h => ⟨h, fun rest hrest => by cases hrest⟩) .item fmt
  | succ depth ih => exact walk_sound ⟨buf, tm, false⟩ h ih .item fmt

/-- Whatever the text and the format are, and also where it fails, `strptime` leaves fields
that are in range, and returns an end of the text. The function calls itself to a depth of
two at most. -/
theorem strptime_sound (buf fmt : List Char) (tm : Tm) (h : tm.InRange) :
    (strptime buf fmt tm).2.InRange ∧
      (∀ rest, (strptime buf fmt tm).1 = some rest → rest <:+ buf) ∧
      ∀ depth, strptimeTo (depth + 2) fmt buf tm = strptime buf fmt tm := by
  obtain ⟨hrange, hrest⟩ := strptimeTo_sound 2 fmt buf tm h
  exact ⟨hrange, hrest, fun depth => strptimeTo_eq depth fmt buf tm⟩

/-- `memset(&tm, 0, sizeof(tm))` -/
def Tm.zero : Tm := ⟨0, 0, 0, 0, 0, 0, 0, 0⟩

theorem Tm.inRange_zero : Tm.zero.InRange := by
  constructor <;> decide

/-- The day is refused, and the month that was read before stays. -/
theorem strptime_sound_refused :
    strptime "02-32".toList "%m-%d".toList Tm.zero = (none, { Tm.zero with mon := 1 }) ∧
      (strptime "02-32".toList "%m-%d".toList Tm.zero).2.InRange :=
  ⟨by decide, (strptime_sound _ _ _ Tm.inRange_zero).1⟩

end Range

end FFZKit.Util.Strptime
