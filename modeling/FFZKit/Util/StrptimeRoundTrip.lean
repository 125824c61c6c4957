import FFZKit.Util.Strptime

/-!
# `strptime` reads what `strftime` writes

A format is made of characters, blanks, and conversions of numbers and of names, or of
conversions that stand for such formats. What `strftime` writes for a time is read back
into the same fields.
-/

namespace FFZKit.Util.Strptime

open FFZKit.Foundations

section Numbers

/-- The loop of `conv_num` reads a number to its end, and stops there. -/
theorem convLoop_numeral {ulim w n rulim result : Nat}
    (hle : result * 10 ^ (w + 1) + n % 10 ^ (w + 1) ≤ ulim) (hlow : 10 ^ w ≤ rulim)
    (hhigh : rulim < 10 ^ (w + 1)) (rest : List Char) :
    convLoop ulim (numeral (w + 1) n ++ rest) rulim result =
      (result * 10 ^ (w + 1) + n % 10 ^ (w + 1), rest) := by
  have hvalue : ∀ a < 10, a.digitChar.toNat - '0'.toNat = a := by decide
  induction w generalizing rulim result with
  | zero =>
      have hstop : rulim / 10 = 0 := Nat.div_eq_of_lt (by simpa using hhigh)
      have hdigit : n / 10 ^ 0 % 10 < 10 := Nat.mod_lt _ (by decide)
      rw [numeral_succ, List.cons_append, convLoop, hvalue _ hdigit,
        if_neg (fun h => h.2.1 hstop)]
      simp [numeral]
  | succ w ih =>
      have hdigit : n / 10 ^ (w + 1) % 10 < 10 := Nat.mod_lt _ (by decide)
      have hsum : (result * 10 + n / 10 ^ (w + 1) % 10) * 10 ^ (w + 1) + n % 10 ^ (w + 1) =
          result * 10 ^ (w + 2) + n % 10 ^ (w + 2) := by
        have hmod : n % 10 ^ (w + 2) =
            n % 10 ^ (w + 1) + 10 ^ (w + 1) * (n / 10 ^ (w + 1) % 10) := Nat.mod_pow_succ
        rw [hmod, pow_succ' 10 (w + 1)]
        ring
      have hmore : (result * 10 + n / 10 ^ (w + 1) % 10) * 10 ≤ ulim := by
        have hpos : 1 ≤ 10 ^ w := Nat.one_le_pow _ _ (by decide)
        calc
          (result * 10 + n / 10 ^ (w + 1) % 10) * 10 ≤
              (result * 10 + n / 10 ^ (w + 1) % 10) * 10 * 10 ^ w :=
            Nat.le_mul_of_pos_right _ hpos
          _ = (result * 10 + n / 10 ^ (w + 1) % 10) * 10 ^ (w + 1) := by
            rw [pow_succ' 10 w, Nat.mul_assoc]
          _ ≤ ulim := (Nat.le_add_right _ _).trans (hsum ▸ hle)
      have hrulim : 10 ^ w ≤ rulim / 10 ∧ rulim / 10 < 10 ^ (w + 1) := by
        rw [pow_succ] at hlow hhigh
        exact ⟨(Nat.le_div_iff_mul_le (by decide)).mpr hlow,
          Nat.div_lt_of_lt_mul (by rwa [Nat.mul_comm])⟩
      have hgoes : rulim / 10 ≠ 0 :=
        (Nat.lt_of_lt_of_le (Nat.pow_pos (by decide)) hrulim.1).ne'
      have hnext : ((numeral (w + 1) n ++ rest).head?.any Char.isDigit) = true := by
        rw [numeral_succ, List.cons_append, List.head?_cons, Option.any_some]
        exact isDigit_digitChar (Nat.mod_lt _ (by decide))
      rw [numeral_succ, List.cons_append, convLoop, hvalue _ hdigit,
        if_pos ⟨hmore, hgoes, hnext⟩, ih (hsum ▸ hle) hrulim.1 hrulim.2, hsum]

theorem convNum_numeral {llim ulim w n : Nat} (hlow : 10 ^ w ≤ ulim) (hhigh : ulim < 10 ^ (w + 1))
    (hl : llim ≤ n) (hu : n ≤ ulim) (rest : List Char) :
    convNum llim ulim (numeral (w + 1) n ++ rest) = some (n, rest) := by
  have hmod : n % 10 ^ (w + 1) = n := Nat.mod_eq_of_lt (Nat.lt_of_le_of_lt hu hhigh)
  have hread := @convLoop_numeral ulim w n ulim 0 (by omega) hlow hhigh rest
  rw [hmod, Nat.zero_mul, Nat.zero_add] at hread
  have hhead : ((numeral (w + 1) n ++ rest).head?.any Char.isDigit) = true := by
    rw [numeral_succ, List.cons_append, List.head?_cons, Option.any_some]
    exact isDigit_digitChar (Nat.mod_lt _ (by decide))
  rw [convNum, if_pos hhead, hread]
  simp [Nat.not_lt.mpr hl, Nat.not_lt.mpr hu]

end Numbers

section Names

/-- The abbreviations are the first three letters of the names, and differ. -/
structure Distinct (names : List (List Char × List Char)) : Prop where
  abbr : ∀ x ∈ names, x.2 = x.1.take 3 ∧ x.2.length = 3
  nodup : (names.map Prod.snd).Nodup

theorem distinct_dayNames : Distinct dayNames := ⟨by decide, by decide⟩

theorem distinct_monNames : Distinct monNames := ⟨by decide, by decide⟩

/-- A text that begins with a name or its abbreviation is found under the number of the name. -/
theorem findName_eq {names : List (List Char × List Char)} (h : Distinct names) {i : Nat}
    {x : List Char × List Char} (hx : names[i]? = some x) {bp : List Char} (hbp : x.2 <+: bp) :
    findName names bp = some (i, bp.drop (if x.1 <+: bp then x.1.length else x.2.length)) := by
  induction names generalizing i with
  | nil => cases hx
  | cons name names ih =>
      cases i with
      | zero =>
          obtain rfl : name = x := by simpa using hx
          by_cases hfull : name.1 <+: bp
          · simp [findName, hfull]
          · simp [findName, hfull, hbp]
      | succ i =>
          have hmem : x ∈ names := List.mem_of_getElem? hx
          obtain ⟨hfresh, hnodup⟩ := List.nodup_cons.mp h.nodup
          have hne : name.2 ≠ x.2 := fun heq => hfresh (heq ▸ List.mem_map_of_mem hmem)
          obtain ⟨htake, hlen⟩ := h.abbr name List.mem_cons_self
          have hlen' := (h.abbr x (List.mem_cons_of_mem _ hmem)).2
          have habbr : ¬ name.2 <+: bp := by
            intro hname
            have hstart := List.prefix_of_prefix_length_le hname hbp (by omega)
            exact hne (hstart.eq_of_length (by omega))
          have hfull : ¬ name.1 <+: bp := by
            intro hname
            exact habbr ((htake ▸ List.take_prefix 3 name.1).trans hname)
          have hrest := ih ⟨fun y hy => h.abbr y (List.mem_cons_of_mem _ hy), hnodup⟩ hx
          simp [findName, hfull, habbr, hrest]

end Names

section Written

/-- A date, with a year of four digits. -/
structure Tm.Dated (tm : Tm) : Prop extends tm.InRange where
  day : 1 ≤ tm.mday
  fourDigits : tm.year ≤ 8099

/-- The conversions of numbers of a fixed width. -/
inductive Number
  | year
  | month
  | day
  | hour
  | minute
  | second
  | dayOfYear
  | weekday
  | sundayWeek
  | mondayWeek
  deriving DecidableEq, Repr

namespace Number

def letter : Number → Char
  | year => 'Y'
  | month => 'm'
  | day => 'd'
  | hour => 'H'
  | minute => 'M'
  | second => 'S'
  | dayOfYear => 'j'
  | weekday => 'w'
  | sundayWeek => 'U'
  | mondayWeek => 'W'

/-- The place of the first digit. -/
def place : Number → Nat
  | year => 3
  | dayOfYear => 2
  | weekday => 0
  | _ => 1

def low : Number → Nat
  | month | day | dayOfYear => 1
  | _ => 0

def high : Number → Nat
  | year => 9999
  | month => 12
  | day => 31
  | hour => 23
  | minute => 59
  | second => 61
  | dayOfYear => 366
  | weekday => 6
  | sundayWeek | mondayWeek => 53

/-- What the conversion does with a number that it has read. -/
def store (n : Nat) (tm : Tm) : Number → Tm
  | year => { tm with year := n - tmYearBase }
  | month => { tm with mon := n - 1 }
  | day => { tm with mday := n }
  | hour => { tm with hour := n }
  | minute => { tm with min := n }
  | second => { tm with sec := n }
  | dayOfYear => { tm with yday := n - 1 }
  | weekday => { tm with wday := n }
  | sundayWeek | mondayWeek => tm

/-- The number that `strftime` writes. -/
def value (src : Tm) : Number → Nat
  | year => (src.year + tmYearBase).toNat
  | month => (src.mon + 1).toNat
  | day => src.mday.toNat
  | hour => src.hour.toNat
  | minute => src.min.toNat
  | second => src.sec.toNat
  | dayOfYear => (src.yday + 1).toNat
  | weekday => src.wday.toNat
  | sundayWeek => ((src.yday + 7 - src.wday) / 7).toNat
  | mondayWeek => ((src.yday + 7 - (src.wday + 6) % 7) / 7).toNat

/-- The field of the number comes back. -/
def copy (src tm : Tm) : Number → Tm
  | year => { tm with year := src.year }
  | month => { tm with mon := src.mon }
  | day => { tm with mday := src.mday }
  | hour => { tm with hour := src.hour }
  | minute => { tm with min := src.min }
  | second => { tm with sec := src.sec }
  | dayOfYear => { tm with yday := src.yday }
  | weekday => { tm with wday := src.wday }
  | sundayWeek | mondayWeek => tm

end Number

variable {nested : List Char → List Char → Tm → Result} {src tm : Tm} {rest : List Char}
  {split : Bool}

theorem conversion_letter (n : Number) (st : State) :
    conversion nested none n.letter st = number n.low n.high (fun i tm => n.store i tm) st := by
  cases n <;> rfl

theorem Number.high_mem (n : Number) : 10 ^ n.place ≤ n.high ∧ n.high < 10 ^ (n.place + 1) := by
  cases n <;> decide

theorem Number.value_mem (h : src.Dated) (n : Number) :
    n.low ≤ n.value src ∧ n.value src ≤ n.high := by
  obtain ⟨⟨hsec, hmin, hhour, hmday, hmon, hyear, hwday, hyday⟩, hday, hdigits⟩ := h
  cases n <;> simp only [low, high, value, tmYearBase] <;> omega

theorem Number.store_value (h : src.Dated) (n : Number) (tm : Tm) :
    n.store (n.value src) tm = n.copy src tm := by
  obtain ⟨⟨hsec, hmin, hhour, hmday, hmon, hyear, hwday, hyday⟩, hday, hdigits⟩ := h
  cases n <;> simp only [store, value, copy, tmYearBase, Tm.mk.injEq, true_and, and_true] <;> omega

/-- A number is read back. -/
theorem conversion_number (h : src.Dated) (n : Number) :
    conversion nested none n.letter ⟨numeral (n.place + 1) (n.value src) ++ rest, tm, split⟩ =
      .goes ⟨rest, n.copy src tm, split⟩ := by
  obtain ⟨hlow, hhigh⟩ := n.high_mem
  obtain ⟨hl, hu⟩ := n.value_mem h
  simp only [conversion_letter, number, convNum_numeral hlow hhigh hl hu, n.store_value h]

/-- The conversions of names. -/
inductive Name
  | day
  | dayAbbr
  | month
  | monthAbbr
  deriving DecidableEq, Repr

namespace Name

def letter : Name → Char
  | day => 'A'
  | dayAbbr => 'a'
  | month => 'B'
  | monthAbbr => 'b'

def table : Name → List (List Char × List Char)
  | day | dayAbbr => dayNames
  | month | monthAbbr => monNames

def index (src : Tm) : Name → Nat
  | day | dayAbbr => src.wday.toNat
  | month | monthAbbr => src.mon.toNat

/-- What the conversion does with the number of a name that it has found. -/
def store (i : Nat) (tm : Tm) : Name → Tm
  | day | dayAbbr => { tm with wday := i }
  | month | monthAbbr => { tm with mon := i }

/-- The name with its abbreviation. -/
def entry (src : Tm) (n : Name) : List Char × List Char := n.table.getD (n.index src) ([], [])

/-- What `strftime` writes. -/
def text (src : Tm) (n : Name) : List Char :=
  match n with
  | day | month => (n.entry src).1
  | dayAbbr | monthAbbr => (n.entry src).2

/-- What follows an abbreviation does not make it the whole name. -/
def Ends (src : Tm) (rest : List Char) (n : Name) : Prop :=
  n.text src = (n.entry src).1 ∨ ¬ (n.entry src).1 <+: n.text src ++ rest

def copy (src tm : Tm) : Name → Tm
  | day | dayAbbr => { tm with wday := src.wday }
  | month | monthAbbr => { tm with mon := src.mon }

end Name

theorem conversion_nameLetter (n : Name) (st : State) :
    conversion nested none n.letter st = name n.table (fun i tm => n.store i tm) st := by
  cases n <;> rfl

theorem Name.distinct_table (n : Name) : Distinct n.table := by
  cases n
  case day | dayAbbr => exact distinct_dayNames
  case month | monthAbbr => exact distinct_monNames

theorem Name.getElem?_index (h : src.Dated) (n : Name) :
    n.table[n.index src]? = some (n.entry src) := by
  have hmon := h.mon
  have hwday := h.wday
  have hlt : n.index src < n.table.length := by
    cases n
    case day | dayAbbr =>
      change src.wday.toNat < 7
      omega
    case month | monthAbbr =>
      change src.mon.toNat < 12
      omega
  rw [entry, List.getD_eq_getElem?_getD, List.getElem?_eq_getElem hlt, Option.getD_some]

theorem Name.store_index (h : src.Dated) (n : Name) (tm : Tm) :
    n.store (n.index src) tm = n.copy src tm := by
  have hmon := h.mon
  have hwday := h.wday
  cases n <;> simp only [store, index, copy, Tm.mk.injEq, true_and, and_true] <;> omega

/-- The name that the text begins with is found to its end. -/
theorem Name.findName_text (h : src.Dated) (n : Name) (hends : n.Ends src rest) :
    findName n.table (n.text src ++ rest) = some (n.index src, rest) := by
  have hentry := n.getElem?_index h
  have htext : n.text src = (n.entry src).1 ∨ n.text src = (n.entry src).2 := by
    cases n
    case day | month => exact Or.inl rfl
    case dayAbbr | monthAbbr => exact Or.inr rfl
  obtain ⟨htake, _⟩ := n.distinct_table.abbr _ (List.mem_of_getElem? hentry)
  have habbr : (n.entry src).2 <+: (n.entry src).1 := htake ▸ List.take_prefix 3 _
  rw [Ends] at hends
  generalize n.text src = text at hends htext ⊢
  generalize n.entry src = x at hends htext habbr hentry
  have hstart : x.2 <+: text ++ rest := by
    rcases htext with rfl | rfl
    · exact habbr.trans (List.prefix_append _ _)
    · exact List.prefix_append _ _
  rw [findName_eq n.distinct_table hentry hstart]
  by_cases hfull : x.1 <+: text ++ rest
  · obtain rfl := hends.resolve_right (not_not_intro hfull)
    rw [if_pos hfull, List.drop_left]
  · obtain rfl : text = x.2 := by
      rcases htext with rfl | rfl
      · exact absurd (List.prefix_append _ _) hfull
      · rfl
    rw [if_neg hfull, List.drop_left]

/-- A name is read back. -/
theorem conversion_name (h : src.Dated) (n : Name) (hends : n.Ends src rest) :
    conversion nested none n.letter ⟨n.text src ++ rest, tm, split⟩ =
      .goes ⟨rest, n.copy src tm, split⟩ := by
  simp only [conversion_nameLetter, name, n.findName_text h hends, n.store_index h]

/-- The year within the century, which is that of the years that POSIX takes. -/
def shortYear (src : Tm) : Nat := (src.year + tmYearBase).toNat % 100

/-- The year of two digits is read back, also where it is read again. -/
theorem conversion_shortYear (hyear : 69 ≤ src.year ∧ src.year ≤ 168)
    (hsplit : split = true → tm.year = src.year) :
    conversion nested none 'y' ⟨numeral 2 (shortYear src) ++ rest, tm, split⟩ =
      .goes ⟨rest, { tm with year := src.year }, true⟩ := by
  have hbase : tmYearBase = 1900 := rfl
  have hvalue : shortYear src = (src.year + 1900).toNat % 100 := rfl
  have hlt : shortYear src ≤ 99 := by omega
  have hread : convNum 0 99 (numeral 2 (shortYear src) ++ rest) = some (shortYear src, rest) :=
    convNum_numeral (w := 1) (by decide) (by decide) (Nat.zero_le _) hlt rest
  have hconv : ∀ st, conversion nested none 'y' st = yearInCentury st := fun _ => rfl
  rw [hconv, yearInCentury]
  simp only [hread]
  cases split with
  | true =>
      have hsame : tm.year = src.year := hsplit rfl
      have hdiv : src.year.tdiv 100 = src.year / 100 := Int.tdiv_eq_ediv_of_nonneg (by omega)
      simp only [if_true, hsame, hdiv, Outcome.goes.injEq, State.mk.injEq, Tm.mk.injEq, true_and,
        and_true]
      omega
  | false =>
      simp only [Bool.false_eq_true, if_false, Outcome.goes.injEq, State.mk.injEq, Tm.mk.injEq,
        true_and, and_true]
      by_cases hfirst : shortYear src ≤ 68
      · rw [if_pos hfirst]
        omega
      · rw [if_neg hfirst]
        omega

end Written

section Format

variable {nested : List Char → List Char → Tm → Result} {src tm : Tm} {rest : List Char}
  {split : Bool}

/-- A piece of a format that stands for no other format. -/
inductive Simple
  | char (c : Char)
  | percent
  | blank (c : Char)
  | number (n : Number)
  | name (n : Name)
  | shortYear
  deriving DecidableEq, Repr

namespace Simple

def fmt : Simple → List Char
  | char c | blank c => [c]
  | percent => ['%', '%']
  | number n => ['%', n.letter]
  | name n => ['%', n.letter]
  | shortYear => ['%', 'y']

/-- What `strftime` writes. -/
def text (src : Tm) : Simple → List Char
  | char c | blank c => [c]
  | percent => ['%']
  | number n => numeral (n.place + 1) (n.value src)
  | name n => n.text src
  | shortYear => numeral 2 (Strptime.shortYear src)

/-- The piece is one of its kind, and is read before the rest of a text: behind a blank there
is no other one, an abbreviation ends, and two digits tell the year. -/
def Fits (src : Tm) (rest : List Char) : Simple → Prop
  | char c => c ≠ '%' ∧ isspace c = false
  | blank c => isspace c = true ∧ rest.head?.any isspace = false
  | name n => n.Ends src rest
  | shortYear => 69 ≤ src.year ∧ src.year ≤ 168
  | percent | number _ => True

def copy (src tm : Tm) : Simple → Tm
  | number n => n.copy src tm
  | name n => n.copy src tm
  | shortYear => { tm with year := src.year }
  | char _ | percent | blank _ => tm

/-- A year that was read stays. -/
theorem copy_year (p : Simple) (h : tm.year = src.year) : (p.copy src tm).year = src.year := by
  cases p with
  | number n => cases n <;> first | exact h | rfl
  | name n => cases n <;> exact h
  | shortYear => rfl
  | char | percent | blank => exact h

end Simple

theorem walk_conversion {c : Char} {st st' : State} (hmodifier : c ≠ 'E' ∧ c ≠ 'O')
    (h : conversion nested none c st = .goes st') (fmt : List Char) :
    walk nested .item ('%' :: c :: fmt) st = walk nested .item fmt st' := by
  have hblank : isspace '%' = false := by decide
  simp [walk, hblank, hmodifier, h]

theorem walk_char {c : Char} (hpercent : c ≠ '%') (hblank : isspace c = false)
    (fmt : List Char) : walk nested .item (c :: fmt) ⟨c :: rest, tm, split⟩ =
      walk nested .item fmt ⟨rest, tm, split⟩ := by
  simp [walk, hpercent, hblank, literal]

theorem walk_blank {c : Char} (hblank : isspace c = true) (hrest : rest.head?.any isspace = false)
    (fmt : List Char) : walk nested .item (c :: fmt) ⟨c :: rest, tm, split⟩ =
      walk nested .item fmt ⟨rest, tm, split⟩ := by
  have hskip : rest.dropWhile isspace = rest := by
    cases rest with
    | nil => rfl
    | cons d rest => exact List.dropWhile_cons_of_neg (by simpa using hrest)
  simp [walk, hblank, hskip]

/-- A piece is read back. -/
theorem walk_simple (h : src.Dated) (p : Simple) (hfits : p.Fits src rest)
    (hsplit : split = true → tm.year = src.year) (fmt : List Char) :
    ∃ split', walk nested .item (p.fmt ++ fmt) ⟨p.text src ++ rest, tm, split⟩ =
        walk nested .item fmt ⟨rest, p.copy src tm, split'⟩ ∧
      (split' = true → (p.copy src tm).year = src.year) := by
  have hkeep : split = true → (p.copy src tm).year = src.year := fun hs => p.copy_year (hsplit hs)
  cases p with
  | char c => exact ⟨split, walk_char hfits.1 hfits.2 fmt, hkeep⟩
  | blank c => exact ⟨split, walk_blank hfits.1 hfits.2 fmt, hkeep⟩
  | percent => exact ⟨split, walk_conversion (c := '%') (by decide) rfl fmt, hkeep⟩
  | number n =>
      have hletter : n.letter ≠ 'E' ∧ n.letter ≠ 'O' := by cases n <;> decide
      exact ⟨split, walk_conversion hletter (conversion_number h n) fmt, hkeep⟩
  | name n =>
      have hletter : n.letter ≠ 'E' ∧ n.letter ≠ 'O' := by cases n <;> decide
      exact ⟨split, walk_conversion hletter (conversion_name h n hfits) fmt, hkeep⟩
  | shortYear =>
      exact ⟨true, walk_conversion (c := 'y') (by decide) (conversion_shortYear hfits hsplit) fmt,
        fun _ => rfl⟩

/-- Pieces of a format: what each is in the format and in the text, before which rest of a
text it is read, and what it sets. -/
structure Pieces (π : Type) where
  fmt : π → List Char
  text : π → List Char
  Fits : List Char → π → Prop
  copy : Tm → π → Tm

namespace Pieces

variable {π : Type}

def fmts (k : Pieces π) (ps : List π) : List Char := ps.flatMap k.fmt

def texts (k : Pieces π) (ps : List π) : List Char := ps.flatMap k.text

def copies (k : Pieces π) (ps : List π) (tm : Tm) : Tm := ps.foldl k.copy tm

/-- Every piece is read before the texts of those behind it. -/
def FitsAll (k : Pieces π) (rest : List Char) : List π → Prop
  | [] => True
  | p :: ps => k.Fits (k.texts ps ++ rest) p ∧ k.FitsAll rest ps

/-- The loop reads a piece back, and a year of two digits has been read only where the year
is set. -/
def Reads (k : Pieces π) (nested : List Char → List Char → Tm → Result) (src : Tm) : Prop :=
  ∀ (p : π) (rest : List Char) (tm : Tm) (split : Bool) (fmt : List Char), k.Fits rest p →
    (split = true → tm.year = src.year) →
    ∃ split', walk nested .item (k.fmt p ++ fmt) ⟨k.text p ++ rest, tm, split⟩ =
        walk nested .item fmt ⟨rest, k.copy tm p, split'⟩ ∧
      (split' = true → (k.copy tm p).year = src.year)

theorem Reads.walk_all {k : Pieces π} (h : k.Reads nested src) {ps : List π}
    (hfits : k.FitsAll rest ps) (hsplit : split = true → tm.year = src.year) :
    walk nested .item (k.fmts ps) ⟨k.texts ps ++ rest, tm, split⟩ =
      (some rest, k.copies ps tm) := by
  induction ps generalizing tm split with
  | nil => rfl
  | cons p ps ih =>
      obtain ⟨hfirst, hrest⟩ := hfits
      obtain ⟨split', hwalk, hsplit'⟩ :=
        h p (k.texts ps ++ rest) tm split (k.fmts ps) hfirst hsplit
      have hfmts : k.fmts (p :: ps) = k.fmt p ++ k.fmts ps := List.flatMap_cons
      have htexts : k.texts (p :: ps) ++ rest = k.text p ++ (k.texts ps ++ rest) := by
        rw [texts, List.flatMap_cons, List.append_assoc]
        rfl
      rw [hfmts, htexts, hwalk, ih hrest hsplit']
      rfl

end Pieces

def simples (src : Tm) : Pieces Simple where
  fmt := Simple.fmt
  text := Simple.text src
  Fits := Simple.Fits src
  copy := fun tm p => p.copy src tm

theorem reads_simples (h : src.Dated) : (simples src).Reads nested src :=
  fun p _ _ _ fmt hfits hsplit => walk_simple h p hfits hsplit fmt

/-- The conversions that stand for a format of simple pieces. -/
inductive Complex
  | D
  | R
  | T
  | X
  | x
  deriving DecidableEq, Repr

namespace Complex

def letter : Complex → Char
  | D => 'D'
  | R => 'R'
  | T => 'T'
  | X => 'X'
  | x => 'x'

def format : Complex → String
  | D | x => "%m/%d/%y"
  | R => "%H:%M"
  | T | X => "%H:%M:%S"

def simples : Complex → List Simple
  | D | x => [.number .month, .char '/', .number .day, .char '/', .shortYear]
  | R => [.number .hour, .char ':', .number .minute]
  | T | X => [.number .hour, .char ':', .number .minute, .char ':', .number .second]

theorem format_eq (c : Complex) (src : Tm) :
    c.format.toList = (Strptime.simples src).fmts c.simples := by
  cases c <;> rfl

end Complex

/-- A piece of a format. -/
inductive Piece
  | simple (p : Simple)
  | complex (c : Complex)
  deriving DecidableEq, Repr

def pieces (src : Tm) : Pieces Piece where
  fmt
    | .simple p => p.fmt
    | .complex c => ['%', c.letter]
  text
    | .simple p => p.text src
    | .complex c => (simples src).texts c.simples
  Fits rest
    | .simple p => p.Fits src rest
    | .complex c => (simples src).FitsAll rest c.simples
  copy tm
    | .simple p => p.copy src tm
    | .complex c => (simples src).copies c.simples tm

theorem conversion_complex (c : Complex) (st : State) :
    conversion nested none c.letter st = complex nested c.format st := by
  cases c <;> rfl

/-- A year that was read stays. -/
theorem copies_year (ps : List Simple) (h : tm.year = src.year) :
    ((simples src).copies ps tm).year = src.year := by
  induction ps generalizing tm with
  | nil => exact h
  | cons p ps ih => exact ih (p.copy_year h)

/-- A call for the format of a conversion reads it back. -/
theorem strptimeTo_simples (h : src.Dated) (depth : Nat) {ps : List Simple}
    (hfits : (simples src).FitsAll rest ps) :
    strptimeTo depth ((simples src).fmts ps) ((simples src).texts ps ++ rest) tm =
      (some rest, (simples src).copies ps tm) := by
  cases depth with
  | zero => exact (reads_simples h).walk_all hfits (fun hs => nomatch hs)
  | succ depth => exact (reads_simples h).walk_all hfits (fun hs => nomatch hs)

theorem reads_pieces (h : src.Dated) (depth : Nat) :
    (pieces src).Reads (strptimeTo depth) src := by
  intro p rest tm split fmt hfits hsplit
  cases p with
  | simple p => exact walk_simple h p hfits hsplit fmt
  | complex c =>
      have hletter : c.letter ≠ 'E' ∧ c.letter ≠ 'O' := by cases c <;> decide
      have hconv : conversion (strptimeTo depth) none c.letter
          ⟨(simples src).texts c.simples ++ rest, tm, split⟩ =
            .goes ⟨rest, (simples src).copies c.simples tm, split⟩ := by
        simp only [conversion_complex, complex, c.format_eq src, strptimeTo_simples h depth hfits]
      exact ⟨split, walk_conversion hletter hconv fmt, fun hs => copies_year _ (hsplit hs)⟩

/-- What `strftime` writes for a time, with any text behind it, is read back into the fields
that the conversions of the format tell. -/
theorem strptime_strftime (h : src.Dated) (ps : List Piece) (hfits : (pieces src).FitsAll rest ps)
    (tm : Tm) :
    strptime ((pieces src).texts ps ++ rest) ((pieces src).fmts ps) tm =
      (some rest, (pieces src).copies ps tm) :=
  (reads_pieces h 1).walk_all hfits (fun hs => nomatch hs)

/-- Saturday, the second day of 2021. -/
def saturday : Tm := ⟨5, 4, 13, 2, 0, 121, 6, 1⟩

/-- `%a, %d %b %Y %T` -/
def dated : List Piece :=
  [.simple (.name .dayAbbr), .simple (.char ','), .simple (.blank ' '), .simple (.number .day),
    .simple (.blank ' '), .simple (.name .monthAbbr), .simple (.blank ' '),
    .simple (.number .year), .simple (.blank ' '), .complex .T]

theorem strptime_strftime_saturday :
    strptime "Sat, 02 Jan 2021 13:04:05 GMT".toList "%a, %d %b %Y %T".toList Tm.zero =
      (some " GMT".toList, { saturday with yday := 0 }) := by
  have hdated : saturday.Dated := ⟨by constructor <;> decide, by decide, by decide⟩
  have hfits : (pieces saturday).FitsAll " GMT".toList dated := by
    refine ⟨Or.inr (by decide), ⟨by decide, rfl⟩, ⟨rfl, rfl⟩, trivial, ⟨rfl, rfl⟩,
      Or.inr (by decide), ⟨rfl, rfl⟩, trivial, ⟨rfl, rfl⟩, ?_, trivial⟩
    exact ⟨trivial, ⟨by decide, rfl⟩, trivial, ⟨by decide, rfl⟩, trivial, trivial⟩
  exact strptime_strftime hdated dated hfits Tm.zero

end Format

end FFZKit.Util.Strptime
