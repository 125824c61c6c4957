import FFZKit.Util.OptionCompletion
import FFZKit.Util.OptionRegistry
import FFZKit.Win32.GetoptCalls

/-!
# Options written on a command line come back

A command line is written from options of a parser, each by its long name or its
short character, with its argument in the same element or in the next one, and
other elements may stand anywhere between them. `OptionParser::operator()` on top
of `getopt_long` calls the handlers of the options that are read, and stores the
first argument that was written for each name. When `POSIXLY_CORRECT` is set, the
options up to the first other element are read.

## Implementation notes

Names and arguments are texts in UTF-8, and elements of `argv` are bytes.
-/

namespace FFZKit.Win32

open FFZKit.Foundations.Transition
open FFZKit.Util
open Std (ExtTreeMap)

def bytesOf (text : String) : CString := text.toByteArray.data.toList

def textOf (bytes : CString) : Option String := String.fromUTF8? ⟨bytes.toArray⟩

@[simp] theorem textOf_bytesOf (text : String) : textOf (bytesOf text) = some text := by
  rw [textOf, bytesOf, String.fromUTF8?, dif_pos text.isValidUTF8]
  rfl

theorem bytesOf_inj {a b : String} (h : bytesOf a = bytesOf b) : a = b := by
  have htext := congrArg textOf h
  rw [textOf_bytesOf, textOf_bytesOf] at htext
  exact Option.some.inj htext

/-- An entry of `vec_long_opt`. -/
def LongOpt.ofOption (option : LongOption) : LongOpt :=
  ⟨bytesOf option.name, option.hasArg, option.val⟩

/-- What a call returns, as `operator()` takes it: a number below `0xFF` is looked up
as a `char`. -/
def resultOf (returned : Returned) : GetoptResult where
  index := (if returned.1 < 0 then returned.1 % 256 else returned.1).toNat
  optarg := returned.2.map fun bytes => (textOf bytes).getD ""

/-- The results of `getopt_long` in the loop of `operator()`. -/
def getoptResults (posixlyCorrect : Bool) (argv : List CString) (old : Getopt)
    (optstring : List UInt8) (longopts : List LongOption) : List GetoptResult :=
  match Getopt.calls (Getopt.getoptLong posixlyCorrect optstring (longopts.map .ofOption))
    ((argv.map List.length).sum + 1) (Getopt.fresh argv old) with
  | none => []
  | some (results, _) => results.map resultOf

variable {Cb : Type*}

/-- How the argument of an option is written. -/
inductive Argument
  | absent
  | joined (value : String)
  | apart (value : String)

def Argument.value : Argument → Option String
  | .absent => none
  | .joined value => some value
  | .apart value => some value

/-- An option with its index, the name that is used, and its argument. -/
structure GivenOption (Cb : Type*) where
  index : Nat
  option : CmdOption (OptionBody Cb)
  short : Bool
  argument : Argument

inductive Item (Cb : Type*)
  | option (given : GivenOption Cb)
  | other (element : CString)

namespace GivenOption

/-- The elements that an option is written as. -/
def elements (given : GivenOption Cb) : List CString :=
  let name :=
    if given.short then [dash, given.option.shortOpt]
    else dash :: dash :: bytesOf given.option.longOpt
  match given.argument with
  | .absent => [name]
  | .joined value => [name ++ (if given.short then [] else [equals]) ++ bytesOf value]
  | .apart value => [name, bytesOf value]

/-- The option may be written like this. -/
structure Fits (s : CommandParser Cb) (given : GivenOption Cb) : Prop where
  registered : s.registry.mapOptions[given.index]? = some given.option
  letter : given.short = true → given.option.shortOpt ≠ 0
  absent : given.argument = .absent → given.option.cb.argType ≠ .argRequired
  joined : ∀ value, given.argument = .joined value →
    given.option.cb.argType ≠ .argNone ∧ (given.short = true → value ≠ "")
  apart : ∀ value, given.argument = .apart value → given.option.cb.argType = .argRequired

/-- What `getopt_long` has to return for it. -/
def returned (given : GivenOption Cb) : Returned :=
  (if given.short then charCode given.option.shortOpt else given.index,
    given.argument.value.map bytesOf)

def result (given : GivenOption Cb) : GetoptResult where
  index := if given.short then given.option.shortOpt.toNat else given.index
  optarg := given.argument.value

end GivenOption

namespace Item

def elements : Item Cb → List CString
  | .option given => given.elements
  | .other element => [element]

def Fits (s : CommandParser Cb) : Item Cb → Prop
  | .option given => given.Fits s
  | .other element => isNonOption element = true

def given? : Item Cb → Option (GivenOption Cb)
  | .option given => some given
  | .other _ => none

/-- The argument that is written for a long name. -/
def valueOf (key : String) : Item Cb → Option String
  | .option given =>
      if given.option.longOpt = key then some (given.argument.value.getD "") else none
  | .other _ => none

end Item

/-- The items that are read. -/
def itemsRead (posixlyCorrect : Bool) (items : List (Item Cb)) : List (Item Cb) :=
  if posixlyCorrect then items.takeWhile (·.given?.isSome) else items

/-- The text for a name when some options have been read: the first argument of them. -/
def argumentOf (givens : List (GivenOption Cb)) (key : String) : String :=
  ((givens.map Item.option).findSome? (Item.valueOf key)).getD ""

/-- The calls of the handlers of options, after other options. -/
def handlerCalls : List (GivenOption Cb) → List (GivenOption Cb) → List (HandlerCall Cb)
  | _, [] => []
  | before, given :: givens =>
      (given.option, argumentOf (before ++ [given]) given.option.longOpt) ::
        handlerCalls (before ++ [given]) givens

/-- Every handler returned true, after the calls before it. -/
def AllReturnTrue (answer : Answer Cb) (calls : List (HandlerCall Cb)) : Prop :=
  ∀ front call back, calls = front ++ call :: back →
    call.1.invoke answer front call.2 = .returns true

/-- The registry was built with distinct names, no index used twice and no character
of a deleted option shared; and the names and characters can be told apart by
`getopt_long`. -/
structure Usable (s : CommandParser Cb) : Prop where
  built : ∃ help as, Run OptionParser.step
    (fun s a => OptionParser.Distinct s a ∧ OptionParser.Careful s a) (OptionParser.init help) as
    s.registry
  letters : ∀ option ∈ s.options, option.shortOpt < 128 ∧ option.shortOpt ≠ colon ∧
    option.shortOpt ≠ dash ∧ option.shortOpt ≠ plus
  distinct : ∀ (i j : Nat) (a b : CmdOption (OptionBody Cb)),
    s.registry.mapOptions[i]? = some a → s.registry.mapOptions[j]? = some b →
      a.shortOpt ≠ 0 → a.shortOpt = b.shortOpt → i = j
  names : ∀ option ∈ s.options, option.longOpt ≠ "" ∧ equals ∉ bytesOf option.longOpt

section Tables

variable {s : CommandParser Cb} {c : UInt8} {optstring front back : CString}

/-- What an option adds to `str_short_opt`. -/
def optionLetters (option : CmdOption (OptionBody Cb)) : CString :=
  if option.shortOpt = 0 then []
  else option.shortOpt ::
    match option.cb.argType with
    | .argNone => []
    | .argRequired => [colon]
    | .argOptional => [colon, colon]

theorem shortOptions_eq (s : CommandParser Cb) :
    s.shortOptions = s.options.flatMap optionLetters := rfl

/-- What the option string has to say about the character of an option. -/
def kindOf : ArgType → Letter
  | .argNone => .flag
  | .argRequired => .required
  | .argOptional => .optional

theorem mem_optionLetters {option : CmdOption (OptionBody Cb)} (h : c ∈ optionLetters option) :
    c = colon ∨ c = option.shortOpt := by
  rw [optionLetters] at h
  split at h
  · cases h
  · cases htype : option.cb.argType <;> simp [htype] at h <;> tauto

/-- Characters that are not looked for are passed over. -/
theorem letter_append (h : c ∉ front) : letter (front ++ optstring) c = letter optstring c := by
  have hdrop : (front ++ optstring).dropWhile (· ≠ c) = optstring.dropWhile (· ≠ c) := by
    apply List.dropWhile_append_of_pos
    intro x hx
    simpa using fun heq : x = c => h (heq ▸ hx)
  rw [letter, hdrop, letter]

theorem letter_optionLetters {option : CmdOption (OptionBody Cb)} (hshort : option.shortOpt ≠ 0)
    (hcolon : option.shortOpt ≠ colon) (hback : back.head? ≠ some colon) :
    letter (optionLetters option ++ back) option.shortOpt = kindOf option.cb.argType := by
  rw [optionLetters, if_neg hshort]
  cases htype : option.cb.argType with
  | argNone => simp [letter, hcolon, hback, kindOf]
  | argRequired =>
      have hnext : back[0]? ≠ some colon := by rwa [← List.head?_eq_getElem?]
      simp [letter, hcolon, hnext, kindOf]
  | argOptional => simp [letter, hcolon, kindOf]

/-- The letters of options begin with a character. -/
theorem head?_flatMap {options : List (CmdOption (OptionBody Cb))}
    (h : c ∈ (options.flatMap optionLetters).head?) : ∃ option ∈ options, option.shortOpt = c := by
  induction options with
  | nil => cases h
  | cons option options ih =>
      rw [List.flatMap_cons] at h
      by_cases hshort : option.shortOpt = 0
      · rw [optionLetters, if_pos hshort, List.nil_append] at h
        obtain ⟨other, hother, hchar⟩ := ih h
        exact ⟨other, List.mem_cons_of_mem _ hother, hchar⟩
      · rw [optionLetters, if_neg hshort] at h
        exact ⟨option, List.mem_cons_self, Option.some.inj h⟩

/-- The option string says of each character what its option says. -/
theorem letter_flatMap {options : List (CmdOption (OptionBody Cb))}
    {option : CmdOption (OptionBody Cb)} (hmem : option ∈ options) (hshort : option.shortOpt ≠ 0)
    (hcolon : ∀ other ∈ options, other.shortOpt ≠ colon)
    (hdistinct : ∀ other ∈ options, other.shortOpt = option.shortOpt → other = option) :
    letter (options.flatMap optionLetters) option.shortOpt = kindOf option.cb.argType := by
  induction options with
  | nil => cases hmem
  | cons first options ih =>
      rw [List.flatMap_cons]
      by_cases hsame : first.shortOpt = option.shortOpt
      · obtain rfl := hdistinct first List.mem_cons_self hsame
        apply letter_optionLetters hshort (hcolon first List.mem_cons_self)
        intro hhead
        obtain ⟨other, hother, hchar⟩ := head?_flatMap hhead
        exact hcolon other (List.mem_cons_of_mem _ hother) hchar
      · have hne : option ≠ first := fun heq => hsame (heq ▸ rfl)
        rw [letter_append]
        · exact ih ((List.mem_cons.mp hmem).resolve_left hne)
            (fun other hother => hcolon other (List.mem_cons_of_mem _ hother))
            (fun other hother => hdistinct other (List.mem_cons_of_mem _ hother))
        · intro hchar
          rcases mem_optionLetters hchar with heq | heq
          · exact hcolon option hmem heq
          · exact hsame heq.symm

/-- The name of an option finds it, whichever names begin with it. -/
theorem longOptionOf_name {longopts : List LongOpt} {p : LongOpt} (hmem : p ∈ longopts)
    (hdistinct : ∀ q ∈ longopts, q.name = p.name → q = p) :
    longOptionOf longopts p.name = some p := by
  have hfound : (longopts.find? (·.name = p.name)).isSome := by
    rw [List.find?_isSome]
    exact ⟨p, hmem, decide_eq_true rfl⟩
  obtain ⟨q, hq⟩ := Option.isSome_iff_exists.mp hfound
  have hname : q.name = p.name := by simpa using List.find?_some hq
  rw [longOptionOf, hq, hdistinct q (List.mem_of_find?_eq_some hq) hname]

end Tables

section Usable

variable {s : CommandParser Cb}

/-- Indices begin at `0xFF`. -/
theorem index_of_run {help : OptionBody Cb} {as : List (OptionParser.Action (OptionBody Cb))}
    {guard} {registry : OptionParser (OptionBody Cb)}
    (run : Run OptionParser.step guard (OptionParser.init help) as registry) :
    ∀ (index : Nat) (option : CmdOption (OptionBody Cb)),
      registry.mapOptions[index]? = some option → 0xFF ≤ index := by
  have hadd : ∀ (registry : OptionParser (OptionBody Cb)) (new : CmdOption (OptionBody Cb)),
      (∀ (index : Nat) (option : CmdOption (OptionBody Cb)),
        registry.mapOptions[index]? = some option → 0xFF ≤ index) →
      ∀ (index : Nat) (option : CmdOption (OptionBody Cb)),
        (registry.add new).mapOptions[index]? = some option → 0xFF ≤ index := by
    intro registry new hold index option hindex
    simp only [OptionParser.add, ExtTreeMap.getElem?_insertIfNew] at hindex
    split at hindex
    · rename_i hnew
      have heq := Std.LawfulEqCmp.eq_of_compare hnew.1
      omega
    · exact hold index option hindex
  refine run.invariant (P := fun registry => ∀ (index : Nat) (option : CmdOption (OptionBody Cb)),
    registry.mapOptions[index]? = some option → 0xFF ≤ index) ?_ ?_
  · intro registry a t _ hstep hold
    cases a with
    | add option =>
        cases hstep
        exact hadd registry option hold
    | delOption key =>
        cases hstep
        intro index option hindex
        rcases OptionParser.delOption_cases registry key with ⟨_, hoptions, _⟩ |
          ⟨_, _, _, _, hoptions, _⟩
        · rw [hoptions] at hindex
          exact hold index option hindex
        · rw [hoptions] at hindex
          exact hold index option (OptionParser.getElem?_erase_eq_some.mp hindex).2
  · exact hadd _ _ (by simp)

theorem Usable.tidy (usable : Usable s) : OptionParser.Tidy s.registry := by
  obtain ⟨help, as, run⟩ := usable.built
  exact run.invariant (fun _ _ _ guarded hstep tidy =>
    OptionParser.tidy_step tidy guarded.1 guarded.2 hstep) (OptionParser.tidy_init help)

theorem Usable.index (usable : Usable s) {index : Nat} {option : CmdOption (OptionBody Cb)}
    (h : s.registry.mapOptions[index]? = some option) : 0xFF ≤ index := by
  obtain ⟨help, as, run⟩ := usable.built
  exact index_of_run run index option h

/-- A short character stands for its option in the table. -/
theorem Usable.letter_shortOptions (usable : Usable s) {index : Nat}
    {option : CmdOption (OptionBody Cb)} (hoption : s.registry.mapOptions[index]? = some option)
    (hshort : option.shortOpt ≠ 0) :
    letter s.shortOptions option.shortOpt = kindOf option.cb.argType := by
  rw [shortOptions_eq]
  apply letter_flatMap (CommandParser.mem_options.mpr ⟨index, hoption⟩) hshort
  · exact fun other hother => (usable.letters other hother).2.1
  · intro other hother hsame
    obtain ⟨index', hother⟩ := CommandParser.mem_options.mp hother
    obtain rfl := usable.distinct index' index other option hother hoption
      (hsame ▸ hshort) hsame
    exact Option.some.inj (hother.symm.trans hoption)

/-- A long name stands for its option in the table. -/
theorem Usable.longOptionOf_longOptions (usable : Usable s) {index : Nat}
    {option : CmdOption (OptionBody Cb)} (hoption : s.registry.mapOptions[index]? = some option) :
    longOptionOf (s.longOptions.map .ofOption) (bytesOf option.longOpt) =
      some ⟨bytesOf option.longOpt, option.cb.argType, index⟩ := by
  have hentry : ∀ q ∈ s.longOptions.map LongOpt.ofOption, ∃ (i : Nat)
      (other : CmdOption (OptionBody Cb)), s.registry.mapOptions[i]? = some other ∧
        q = ⟨bytesOf other.longOpt, other.cb.argType, i⟩ := by
    intro q hq
    simp only [CommandParser.longOptions, List.map_map, List.mem_map, Prod.exists,
      ExtTreeMap.mem_toList_iff_getElem?_eq_some] at hq
    obtain ⟨i, other, hother, rfl⟩ := hq
    exact ⟨i, other, hother, rfl⟩
  apply longOptionOf_name (p := ⟨bytesOf option.longOpt, option.cb.argType, index⟩)
  · simp only [CommandParser.longOptions, List.map_map, List.mem_map, Prod.exists,
      ExtTreeMap.mem_toList_iff_getElem?_eq_some]
    exact ⟨index, option, hoption, rfl⟩
  · intro q hq hname
    obtain ⟨i, other, hother, rfl⟩ := hentry q hq
    obtain rfl := usable.tidy.named i index other option hother hoption (bytesOf_inj hname)
    obtain rfl := Option.some.inj (hother.symm.trans hoption)
    rfl

/-- What `getopt_long` needs to know about the two tables. -/
theorem Usable.tables (usable : Usable s) :
    (0xFF : UInt8) ∉ s.shortOptions ∧ (∀ c ∈ s.shortOptions.head?, c ≠ dash ∧ c ≠ plus) ∧
      ∀ p ∈ s.longOptions.map LongOpt.ofOption, p.val ≠ eof := by
  rw [shortOptions_eq]
  refine ⟨fun hmem => ?_, fun c hc => ?_, fun p hp => ?_⟩
  · obtain ⟨option, hoption, hchar⟩ := List.mem_flatMap.mp hmem
    rcases mem_optionLetters hchar with heq | heq
    · revert heq
      decide
    · have hlt := (usable.letters option hoption).1
      rw [← heq] at hlt
      revert hlt
      decide
  · obtain ⟨option, hoption, rfl⟩ := head?_flatMap hc
    exact (usable.letters option hoption).2.2
  · obtain ⟨option, _, rfl⟩ := List.mem_map.mp hp
    simp only [LongOpt.ofOption, eof]
    omega

end Usable

section Reading

variable {s : CommandParser Cb} {given : GivenOption Cb}

theorem takeWhile_name {name : CString} (h : equals ∉ name) (rest : CString) :
    (name ++ equals :: rest).takeWhile (· ≠ equals) = name ∧
      (name ++ equals :: rest).dropWhile (· ≠ equals) = equals :: rest := by
  have hname : ∀ x ∈ name, decide (x ≠ equals) = true := by
    intro x hx
    simpa using fun heq : x = equals => h (heq ▸ hx)
  constructor
  · rw [List.takeWhile_append_of_pos hname]
    simp
  · rw [List.dropWhile_append_of_pos hname]
    simp

theorem takeWhile_bare {name : CString} (h : equals ∉ name) :
    name.takeWhile (· ≠ equals) = name ∧ name.dropWhile (· ≠ equals) = [] := by
  have hname : ∀ x ∈ name, decide (x ≠ equals) = true := by
    intro x hx
    simpa using fun heq : x = equals => h (heq ▸ hx)
  exact ⟨List.takeWhile_eq_self_iff.mpr hname, List.dropWhile_eq_nil_iff.mpr hname⟩

theorem bytesOf_ne_nil {text : String} (h : text ≠ "") : bytesOf text ≠ [] := by
  intro hnil
  exact h (bytesOf_inj (hnil.trans rfl))

/-- A long option is read with its argument. -/
theorem readLong_given (usable : Usable s) (fits : given.Fits s) (next : Option CString)
    (hshort : given.short = false) :
    (given.argument = .absent → readLong s.shortOptions (s.longOptions.map .ofOption) next
        (bytesOf given.option.longOpt) = (given.returned, false)) ∧
    (∀ value, given.argument = .joined value →
      readLong s.shortOptions (s.longOptions.map .ofOption) next
        (bytesOf given.option.longOpt ++ equals :: bytesOf value) = (given.returned, false)) ∧
    (∀ value, given.argument = .apart value →
      readLong s.shortOptions (s.longOptions.map .ofOption) (some (bytesOf value))
        (bytesOf given.option.longOpt) = (given.returned, true)) := by
  have hname := (usable.names given.option
    (CommandParser.mem_options.mpr ⟨_, fits.registered⟩)).2
  have hfound := usable.longOptionOf_longOptions fits.registered
  refine ⟨fun harg => ?_, fun value harg => ?_, fun value harg => ?_⟩
  · obtain ⟨htake, hdrop⟩ := takeWhile_bare hname
    rw [readLong, htake, hdrop, hfound]
    simp only [if_neg (fits.absent harg)]
    simp [GivenOption.returned, hshort, harg, Argument.value]
  · obtain ⟨htake, hdrop⟩ := takeWhile_name hname (bytesOf value)
    rw [readLong, htake, hdrop, hfound]
    simp only [if_pos (fits.joined value harg).1]
    simp [GivenOption.returned, hshort, harg, Argument.value]
  · obtain ⟨htake, hdrop⟩ := takeWhile_bare hname
    rw [readLong, htake, hdrop, hfound]
    simp only [if_pos (fits.apart value harg)]
    simp [GivenOption.returned, hshort, harg, Argument.value]

/-- A short option is read with its argument. -/
theorem readShort_given (usable : Usable s) (fits : given.Fits s) (next : Option CString)
    (hshort : given.short = true) :
    (given.argument = .absent →
      readShort s.shortOptions next [given.option.shortOpt] = ([given.returned], false)) ∧
    (∀ value, given.argument = .joined value →
      readShort s.shortOptions next (given.option.shortOpt :: bytesOf value) =
        ([given.returned], false)) ∧
    (∀ value, given.argument = .apart value →
      readShort s.shortOptions (some (bytesOf value)) [given.option.shortOpt] =
        ([given.returned], true)) := by
  have hletter := usable.letter_shortOptions fits.registered (fits.letter hshort)
  refine ⟨fun harg => ?_, fun value harg => ?_, fun value harg => ?_⟩
  · have htype := fits.absent harg
    unfold readShort
    rw [hletter]
    cases hcase : given.option.cb.argType with
    | argNone =>
        simp [kindOf, readShort, GivenOption.returned, hshort, harg, Argument.value]
    | argRequired => exact (htype hcase).elim
    | argOptional => simp [kindOf, GivenOption.returned, hshort, harg, Argument.value]
  · obtain ⟨htype, hvalue⟩ := fits.joined value harg
    have hne := bytesOf_ne_nil (hvalue hshort)
    unfold readShort
    rw [hletter]
    cases hcase : given.option.cb.argType with
    | argNone => exact (htype hcase).elim
    | argRequired => simp [kindOf, hne, GivenOption.returned, hshort, harg, Argument.value]
    | argOptional => simp [kindOf, hne, GivenOption.returned, hshort, harg, Argument.value]
  · unfold readShort
    rw [hletter, fits.apart value harg]
    simp [kindOf, GivenOption.returned, hshort, harg, Argument.value]

variable {optstring text : CString} {longopts : List LongOpt} {words : List CString}
  {posixlyCorrect takesNext : Bool}

/-- An element that begins with `--` is read as a long option. -/
theorem results_read_long {option : Returned} (htext : text ≠ [])
    (h : readLong optstring longopts words.head? text = (option, takesNext)) :
    (read posixlyCorrect optstring longopts false ((dash :: dash :: text) :: words)).results =
      option ::
        (read posixlyCorrect optstring longopts false (words.drop takesNext.toNat)).results := by
  have hend : dash :: dash :: text ≠ endOfOptions := by
    intro heq
    exact htext (List.cons.inj (List.cons.inj heq).2).2
  have helement : readElement optstring longopts words.head? (dash :: dash :: text) =
      ([option], takesNext) := by
    rw [readElement, if_pos (by rfl), List.drop_succ_cons, List.drop_succ_cons, List.drop_zero, h]
  rw [read, if_neg hend, if_neg (by exact Bool.false_ne_true)]
  simp only [helement]
  rw [read_takesNext]
  rfl

/-- An element that begins with one dash is read as short options. -/
theorem results_read_short {c : UInt8} {options : List Returned} (hc : c ≠ dash)
    (h : readShort optstring words.head? (c :: text) = (options, takesNext)) :
    (read posixlyCorrect optstring longopts false ((dash :: c :: text) :: words)).results =
      options ++
        (read posixlyCorrect optstring longopts false (words.drop takesNext.toNat)).results := by
  have hend : dash :: c :: text ≠ endOfOptions := by
    intro heq
    exact hc (List.cons.inj (List.cons.inj heq).2).1
  have helement : readElement optstring longopts words.head? (dash :: c :: text) =
      (options, takesNext) := by
    rw [readElement, if_neg (by simpa using hc), List.drop_succ_cons, List.drop_zero, h]
  rw [read, if_neg hend, if_neg (by exact Bool.false_ne_true)]
  simp only [helement]
  rw [read_takesNext]

/-- The elements of an option are read as that option, whatever follows. -/
theorem results_read_given (usable : Usable s) (fits : given.Fits s) (words : List CString) :
    (read posixlyCorrect s.shortOptions (s.longOptions.map .ofOption) false
        (given.elements ++ words)).results =
      given.returned ::
        (read posixlyCorrect s.shortOptions (s.longOptions.map .ofOption) false
          words).results := by
  have hmem := CommandParser.mem_options.mpr ⟨_, fits.registered⟩
  cases hshort : given.short with
  | false =>
      have hname := bytesOf_ne_nil (usable.names _ hmem).1
      obtain ⟨habsent, hjoined, hapart⟩ := readLong_given usable fits words.head? hshort
      cases harg : given.argument with
      | absent =>
          have helements : given.elements = [dash :: dash :: bytesOf given.option.longOpt] := by
            simp [GivenOption.elements, hshort, harg]
          rw [helements]
          exact results_read_long hname (habsent harg)
      | joined value =>
          have helements : given.elements =
              [dash :: dash :: (bytesOf given.option.longOpt ++ equals :: bytesOf value)] := by
            simp [GivenOption.elements, hshort, harg]
          rw [helements]
          exact results_read_long (by simp) (hjoined value harg)
      | apart value =>
          have helements : given.elements =
              [dash :: dash :: bytesOf given.option.longOpt, bytesOf value] := by
            simp [GivenOption.elements, hshort, harg]
          rw [helements]
          exact @results_read_long _ _ _ (bytesOf value :: words) _ _ _ hname (hapart value harg)
  | true =>
      have hdash := (usable.letters _ hmem).2.2.1
      obtain ⟨habsent, hjoined, hapart⟩ := readShort_given usable fits words.head? hshort
      cases harg : given.argument with
      | absent =>
          have helements : given.elements = [[dash, given.option.shortOpt]] := by
            simp [GivenOption.elements, hshort, harg]
          rw [helements]
          exact results_read_short hdash (habsent harg)
      | joined value =>
          have helements : given.elements = [dash :: given.option.shortOpt :: bytesOf value] := by
            simp [GivenOption.elements, hshort, harg]
          rw [helements]
          exact results_read_short hdash (hjoined value harg)
      | apart value =>
          have helements : given.elements = [[dash, given.option.shortOpt], bytesOf value] := by
            simp [GivenOption.elements, hshort, harg]
          rw [helements]
          exact @results_read_short _ _ _ (bytesOf value :: words) _ _ _ _ hdash (hapart value harg)

/-- The options of a command line are read in the order in which they are written. -/
theorem results_read_items (usable : Usable s) {items : List (Item Cb)}
    (fits : ∀ item ∈ items, item.Fits s) :
    (read posixlyCorrect s.shortOptions (s.longOptions.map .ofOption) false
        (items.flatMap Item.elements)).results =
      ((itemsRead posixlyCorrect items).filterMap Item.given?).map GivenOption.returned := by
  induction items with
  | nil => cases posixlyCorrect <;> rfl
  | cons item items ih =>
      have hitem := fits item List.mem_cons_self
      have hitems := ih fun other hother => fits other (List.mem_cons_of_mem _ hother)
      rw [List.flatMap_cons]
      cases item with
      | option given =>
          have hread : itemsRead posixlyCorrect (.option given :: items) =
              .option given :: itemsRead posixlyCorrect items := by
            cases posixlyCorrect <;> rfl
          change (read _ _ _ _ (given.elements ++ _)).results = _
          rw [results_read_given usable hitem, hitems, hread]
          rfl
      | other element =>
          change isNonOption element = true at hitem
          have hend : element ≠ endOfOptions := by
            rintro rfl
            revert hitem
            decide
          change (read _ _ _ _ (element :: _)).results = _
          rw [read, if_neg hend, if_pos hitem]
          cases posixlyCorrect with
          | false => exact hitems
          | true => rfl

end Reading

section Parser

variable {s : CommandParser Cb} {answer : Answer Cb}

/-- A character below 128 is returned as its number. -/
theorem charCode_of_lt {c : UInt8} (h : c < 128) : charCode c = c.toNat := by
  have hlt : c.toNat < 128 := h
  have hbits : 2 * c.toBitVec.toNat < 2 ^ 8 := by
    rw [UInt8.toNat_toBitVec]
    omega
  exact BitVec.toInt_eq_toNat_of_lt hbits

theorem resultOf_returned (usable : Usable s) {given : GivenOption Cb} (fits : given.Fits s) :
    resultOf given.returned = given.result := by
  have hletter := (usable.letters _ (CommandParser.mem_options.mpr ⟨_, fits.registered⟩)).1
  have harg : (given.argument.value.map bytesOf).map (fun bytes => (textOf bytes).getD "") =
      given.argument.value := by
    cases given.argument.value <;> simp
  have hindex : ∀ n : Nat, (if (n : Int) < 0 then (n : Int) % 256 else n).toNat = n := by
    intro n
    rw [if_neg (by omega), Int.toNat_natCast]
  cases hshort : given.short with
  | false =>
      simp only [resultOf, GivenOption.returned, GivenOption.result, hshort, harg, hindex,
        Bool.false_eq_true, if_false]
  | true =>
      simp only [resultOf, GivenOption.returned, GivenOption.result, hshort, harg, hindex,
        charCode_of_lt hletter, if_true]

theorem fits_itemsRead {items : List (Item Cb)} (fits : ∀ item ∈ items, item.Fits s)
    (posixlyCorrect : Bool) : ∀ item ∈ itemsRead posixlyCorrect items, item.Fits s := by
  intro item hitem
  apply fits item
  rw [itemsRead] at hitem
  split at hitem
  · exact (List.takeWhile_sublist _).mem hitem
  · exact hitem

/-- The options among items that may be written. -/
theorem fits_given {items : List (Item Cb)} (fits : ∀ item ∈ items, item.Fits s) :
    ∀ given ∈ items.filterMap Item.given?, given.Fits s := by
  intro given hgiven
  obtain ⟨item, hitem, heq⟩ := List.mem_filterMap.mp hgiven
  cases item with
  | other element => cases heq
  | option written =>
      obtain rfl := Option.some.inj heq
      exact fits _ hitem

/-- `getopt_long` gives the parser the options that are written. -/
theorem getoptResults_items (usable : Usable s) {items : List (Item Cb)}
    (fits : ∀ item ∈ items, item.Fits s) (posixlyCorrect : Bool) (name : CString)
    (old : Getopt) :
    getoptResults posixlyCorrect (name :: items.flatMap Item.elements) old s.shortOptions
        s.longOptions =
      ((itemsRead posixlyCorrect items).filterMap Item.given?).map GivenOption.result := by
  obtain ⟨hff, hfirst, hval⟩ := usable.tables
  obtain ⟨t, hcalls, -⟩ :=
    Getopt.calls_fresh hff hfirst hval posixlyCorrect name (items.flatMap Item.elements) old
  have hfuel : ((items.flatMap Item.elements).map List.length).sum <
      ((name :: items.flatMap Item.elements).map List.length).sum + 1 := by
    simp only [List.map_cons, List.sum_cons]
    omega
  rw [getoptResults, hcalls _ hfuel, results_read_items usable fits]
  simp only [List.map_map]
  apply List.map_congr_left
  intro given hgiven
  exact resultOf_returned usable (fits_given (fits_itemsRead fits posixlyCorrect) given hgiven)

/-- The parser finds the option that is written. -/
theorem lookup_result (usable : Usable s) {given : GivenOption Cb} (fits : given.Fits s) :
    s.registry.lookup given.result.index = some given.option := by
  have hindex := usable.index fits.registered
  cases hshort : given.short with
  | false =>
      simp only [GivenOption.result, hshort, Bool.false_eq_true, if_false]
      rw [OptionParser.lookup, if_neg (by omega), fits.registered]
  | true =>
      have hletter := usable.letters _ (CommandParser.mem_options.mpr ⟨_, fits.registered⟩)
      obtain ⟨found, hfound, hsame⟩ := usable.tidy.consistent.lookup_short fits.registered
        (fits.letter hshort) (fun heq => absurd hletter.1 (by rw [heq]; decide))
      simp only [GivenOption.result, hshort, if_true]
      rw [hfound]
      obtain ⟨index, hmem⟩ := CommandParser.mem_options.mp (CommandParser.lookup_mem_options hfound)
      obtain rfl := usable.distinct index given.index found given.option hmem fits.registered
        (hsame ▸ fits.letter hshort) hsame
      exact hmem.symm.trans fits.registered

/-- What an option gives for a name is what is written. -/
theorem argFor_result (usable : Usable s) {given : GivenOption Cb} (fits : given.Fits s)
    (key : String) : s.argFor key given.result = (Item.option given).valueOf key := by
  rw [CommandParser.argFor, lookup_result usable fits, Option.bind_some]
  rfl

/-- The first argument of a name is the first one that is written for it. -/
theorem firstArg_items (usable : Usable s) {items : List (Item Cb)}
    (fits : ∀ item ∈ items, item.Fits s) (key : String) :
    s.firstArg ((items.filterMap Item.given?).map GivenOption.result) key =
      items.findSome? (Item.valueOf key) := by
  induction items with
  | nil => rfl
  | cons item items ih =>
      have hitems := ih fun other hother => fits other (List.mem_cons_of_mem _ hother)
      rw [List.findSome?_cons]
      cases item with
      | option given =>
          rw [← argFor_result usable (fits _ List.mem_cons_self), ← hitems]
          exact List.findSome?_cons
      | other element => exact hitems

/-- The text that a handler gets is the first one written so far. -/
theorem firstArg_givens (usable : Usable s) {givens : List (GivenOption Cb)}
    (fits : ∀ given ∈ givens, given.Fits s) (key : String) :
    (s.firstArg (givens.map GivenOption.result) key).getD "" = argumentOf givens key := by
  have hgivens : (givens.map Item.option).filterMap Item.given? = givens := by
    rw [List.filterMap_map]
    exact List.filterMap_some
  have hfits : ∀ item ∈ givens.map Item.option, item.Fits s := by
    simpa [Item.Fits] using fits
  have hitems := firstArg_items usable hfits key
  rw [hgivens] at hitems
  rw [hitems, argumentOf]

theorem handlerCalls_concat (before givens : List (GivenOption Cb)) (given : GivenOption Cb) :
    handlerCalls before (givens ++ [given]) = handlerCalls before givens ++
      [(given.option, argumentOf (before ++ givens ++ [given]) given.option.longOpt)] := by
  induction givens generalizing before with
  | nil => simp [handlerCalls]
  | cons first givens ih => simp [handlerCalls, ih]

theorem AllReturnTrue.concat {calls : List (HandlerCall Cb)} {call : HandlerCall Cb}
    (h : AllReturnTrue answer calls)
    (hlast : call.1.invoke answer calls call.2 = .returns true) :
    AllReturnTrue answer (calls ++ [call]) := by
  intro front other back heq
  rcases List.eq_nil_or_concat back with rfl | ⟨back, last, rfl⟩
  · obtain ⟨rfl, hsame⟩ := List.append_inj' heq rfl
    obtain rfl := List.singleton_inj.mp hsame
    exact hlast
  · apply h front other back
    have heq' : calls ++ [call] = (front ++ other :: back) ++ [last] := by
      rw [heq, List.concat_eq_append, List.append_assoc, List.cons_append]
    exact (List.append_inj' heq' rfl).1

/-- The loop stopped at a handler that did not return true, when all before it did. -/
def StopsAt (answer : Answer Cb) (givens : List (GivenOption Cb))
    (stop : ParseState Cb × ParseEnd) : Prop :=
  ∃ front given back, givens = front ++ given :: back ∧
    stop.1.calls = handlerCalls [] (front ++ [given]) ∧
    AllReturnTrue answer (handlerCalls [] front) ∧
    match given.option.invoke answer (handlerCalls [] front)
        (argumentOf (front ++ [given]) given.option.longOpt) with
    | .returns true => False
    | .returns false => stop.2 = .stopped
    | .throws => stop.2 = .handlerThrows

theorem StopsAt.append {givens : List (GivenOption Cb)} {stop : ParseState Cb × ParseEnd}
    (h : StopsAt answer givens stop) (back : List (GivenOption Cb)) :
    StopsAt answer (givens ++ back) stop := by
  obtain ⟨front, given, rest, rfl, hstop⟩ := h
  exact ⟨front, given, rest ++ back, by simp, hstop⟩

/-- The loop goes through the written options, or stops at a handler. -/
theorem loop_items (usable : Usable s) {givens : List (GivenOption Cb)}
    (fits : ∀ given ∈ givens, given.Fits s) :
    (s.Accepts answer (givens.map GivenOption.result) (handlerCalls [] givens) ∧
      AllReturnTrue answer (handlerCalls [] givens)) ∨
    ∃ stop, (givens.map GivenOption.result).foldlM (s.turn answer) ⟨∅, []⟩ = .error stop ∧
      StopsAt answer givens stop := by
  induction givens using List.reverseRecOn with
  | nil => exact Or.inl ⟨.nil, fun front call back heq => by simp [handlerCalls] at heq⟩
  | append_singleton givens given ih =>
      have hfront := ih fun other hother => fits other (List.mem_append_left _ hother)
      have hfound := lookup_result usable (fits given (by simp))
      have harg : (s.firstArg (givens.map GivenOption.result ++ [given.result])
          given.option.longOpt).getD "" =
            argumentOf (givens ++ [given]) given.option.longOpt := by
        rw [← firstArg_givens usable fits, List.map_append, List.map_singleton]
      have hcalls : handlerCalls [] (givens ++ [given]) = handlerCalls [] givens ++
          [(given.option, argumentOf (givens ++ [given]) given.option.longOpt)] :=
        handlerCalls_concat [] givens given
      rw [List.map_append]
      rcases hfront with ⟨haccepts, htrue⟩ | ⟨stop, hloop, hstop⟩
      · obtain ⟨st, hloop, hmade⟩ := haccepts.loop
        have hturn := @CommandParser.turn_of_lookup _ _ answer _ _
          (CommandParser.loop_ok _ hloop).2 _ _ hfound
        rw [hmade, harg] at hturn
        have hlast : ∀ stop, s.turn answer st given.result = .error stop →
            (givens.map GivenOption.result ++ [given].map GivenOption.result).foldlM
              (s.turn answer) ⟨∅, []⟩ = .error stop := by
          intro stop hstop
          rw [List.foldlM_append, hloop]
          change (s.turn answer st given.result >>= pure) = _
          rw [hstop]
          rfl
        cases hinvoke : given.option.invoke answer (handlerCalls [] givens)
            (argumentOf (givens ++ [given]) given.option.longOpt) with
        | throws =>
            simp only [hinvoke] at hturn
            exact Or.inr ⟨_, hlast _ hturn, givens, given, [], rfl, hcalls.symm, htrue,
              by rw [hinvoke]⟩
        | returns more =>
            cases more with
            | true =>
                rw [hcalls]
                refine Or.inl ⟨?_, htrue.concat hinvoke⟩
                rw [← harg] at hinvoke ⊢
                exact haccepts.snoc hfound hinvoke
            | false =>
                simp only [hinvoke] at hturn
                exact Or.inr ⟨_, hlast _ hturn, givens, given, [], rfl, hcalls.symm, htrue,
                  by rw [hinvoke]⟩
      · refine Or.inr ⟨stop, ?_, hstop.append [given]⟩
        rw [List.foldlM_append, hloop]
        rfl

/-- The handlers of the options that are read are called in their order, each with the
first argument written so far for its name, up to the first one that does not return true.
When all do, the parser ends for each name with the first argument that is written for it,
or with its default. -/
theorem run_commandLine (usable : Usable s) (answer : Answer Cb) {items : List (Item Cb)}
    (fits : ∀ item ∈ items, item.Fits s) (posixlyCorrect : Bool) (name : CString)
    (old : Getopt) :
    let out := s.run (getoptResults posixlyCorrect (name :: items.flatMap Item.elements) old) answer
    let written := itemsRead posixlyCorrect items
    let givens := written.filterMap Item.given?
    StopsAt answer givens out ∨
    out.1.calls = handlerCalls [] givens ∧ AllReturnTrue answer out.1.calls ∧
      (∀ key : String, out.1.allArgs[key]? =
        (written.findSome? (Item.valueOf key)).or (s.defaultOf key)) ∧
      out.2 = s.finish out.1.allArgs := by
  have hwritten := fits_itemsRead fits posixlyCorrect
  have hresults := getoptResults_items usable fits posixlyCorrect name old
  rcases @loop_items _ _ answer usable _ (fits_given hwritten) with
    ⟨haccepts, htrue⟩ | ⟨stop, hloop, hstop⟩
  · obtain ⟨st, hloop, hmade⟩ := haccepts.loop
    obtain ⟨-, hholds⟩ := CommandParser.loop_ok _ hloop
    rw [← hresults] at hloop
    rw [CommandParser.run_of_loop hloop]
    refine Or.inr ⟨hmade, hmade ▸ htrue, fun key => ?_, rfl⟩
    rw [CommandParser.getElem?_addDefaults, hholds key, firstArg_items usable hwritten]
  · rw [← hresults] at hloop
    rw [CommandParser.run_of_stop hloop]
    exact Or.inl hstop

def helpOption : CmdOption (OptionBody Unit) :=
  ⟨'h'.toUInt8, "help", ⟨false, .argNone, "", none, none⟩⟩

def hostOption : CmdOption (OptionBody Unit) :=
  makeOption 'a'.toUInt8 "host" .argRequired (some "any") false "" (some ())

/-- The option for help, and a host that has a default. -/
def hostParser : CommandParser Unit where
  registry := (OptionParser.init helpOption.cb).add hostOption
  enableEmptyArgs := true
  hasOnCompleted := true

theorem getElem?_hostParser {index : Nat} {option : CmdOption (OptionBody Unit)}
    (h : hostParser.registry.mapOptions[index]? = some option) :
    index = 255 ∧ option = helpOption ∨ index = 256 ∧ option = hostOption := by
  have hlist : hostParser.registry.mapOptions.toList = [(255, helpOption), (256, hostOption)] := rfl
  rw [← ExtTreeMap.mem_toList_iff_getElem?_eq_some, hlist] at h
  simpa using h

theorem usable_hostParser : Usable hostParser where
  built := by
    have hfree : 0xFF + (OptionParser.init helpOption.cb).mapOptions.size ∉
        (OptionParser.init helpOption.cb).mapOptions := by decide
    exact ⟨helpOption.cb, [.add hostOption], Run.next ⟨by decide, hfree⟩ rfl Run.halt⟩
  letters option hmem := by
    obtain ⟨index, hindex⟩ := CommandParser.mem_options.mp hmem
    rcases getElem?_hostParser hindex with ⟨-, rfl⟩ | ⟨-, rfl⟩ <;> decide
  distinct i j a b ha hb _ hsame := by
    rcases getElem?_hostParser ha with ⟨rfl, rfl⟩ | ⟨rfl, rfl⟩ <;>
      rcases getElem?_hostParser hb with ⟨rfl, rfl⟩ | ⟨rfl, rfl⟩ <;>
      first | rfl | exact absurd hsame (by decide)
  names option hmem := by
    obtain ⟨index, hindex⟩ := CommandParser.mem_options.mp hmem
    rcases getElem?_hostParser hindex with ⟨-, rfl⟩ | ⟨-, rfl⟩ <;> decide

/-- `x -a here --host=there` -/
def hostItems : List (Item Unit) :=
  [.other [120], .option ⟨256, hostOption, true, .apart "here"⟩,
    .option ⟨256, hostOption, false, .joined "there"⟩]

theorem fits_hostItems : ∀ item ∈ hostItems, item.Fits hostParser := by
  intro item hitem
  simp only [hostItems, List.mem_cons, List.not_mem_nil, or_false] at hitem
  rcases hitem with rfl | rfl | rfl
  · exact rfl
  · exact ⟨rfl, fun _ => by decide, by simp, by simp, fun _ _ => rfl⟩
  · exact ⟨rfl, by simp, by simp, fun _ _ => ⟨by decide, by simp⟩, by simp⟩

/-- The first host that is written is taken, and not the default. With `POSIXLY_CORRECT`
nothing is read behind the other element, so the default is. -/
theorem run_commandLine_host :
    (hostParser.run (getoptResults false ([112] :: hostItems.flatMap Item.elements) .atStart)
      fun _ _ _ => .returns true).1.allArgs["host"]? = some "here" ∧
    (hostParser.run (getoptResults true ([112] :: hostItems.flatMap Item.elements) .atStart)
      fun _ _ _ => .returns true).1.allArgs["host"]? = some "any" := by
  have hgoes : ∀ (givens : List (GivenOption Unit)) stop,
      ¬ StopsAt (fun _ _ _ => .returns true) givens stop := by
    rintro givens stop ⟨front, given, back, -, -, -, hanswer⟩
    have htrue : ∀ (option : CmdOption (OptionBody Unit)) calls arg,
        option.invoke (fun _ _ _ => .returns true) calls arg = .returns true := by
      intro option calls arg
      rw [CmdOption.invoke]
      split <;> rfl
    rwa [htrue] at hanswer
  constructor
  · obtain ⟨-, -, hvalues, -⟩ := (run_commandLine usable_hostParser (fun _ _ _ => .returns true)
      fits_hostItems false [112] .atStart).resolve_left (hgoes _ _)
    rw [hvalues "host"]
    rfl
  · obtain ⟨-, -, hvalues, -⟩ := (run_commandLine usable_hostParser (fun _ _ _ => .returns true)
      fits_hostItems true [112] .atStart).resolve_left (hgoes _ _)
    rw [hvalues "host"]
    rfl

end Parser

end FFZKit.Win32
