import FFZKit.Foundations.BlockSwap
import FFZKit.Util.OptionParse

/-!
# `getopt_long`

Every call of `_getopt_internal` returns the next option of `argv`, or `EOF`.
The elements that are not options are moved behind the options that follow them,
which happens at the call after these.

## Implementation notes

A string is the list of its bytes before the NUL, and `nextchar` the rest of the
element that it points into. A read outside of `argv`, or behind the NUL of an
element, has no value. Callers pass `argc` as the length of `argv`, `opterr` as 0,
options whose `flag` is null, and no place for `longind`.
-/

namespace FFZKit.Win32

open FFZKit.Foundations
open FFZKit.Util (ArgType)

abbrev CString := List UInt8

/-- `struct option` -/
structure LongOpt where
  name : CString
  hasArg : ArgType
  val : Int
  deriving DecidableEq, Repr

/-- `ordering` -/
inductive ScanOrder
  | requireOrder
  | permute
  | returnInOrder
  deriving DecidableEq, Repr

/-- The variables of `getopt` that live from one call to the next, with `argv`. -/
structure Getopt where
  argv : List CString
  optind : Nat
  nextchar : Option CString
  firstNonopt : Nat
  lastNonopt : Nat
  ordering : ScanOrder
  optarg : Option CString
  optopt : UInt8
  deriving DecidableEq, Repr

/-- The variables when the program starts. -/
def Getopt.atStart : Getopt := ⟨[], 0, none, 0, 0, .requireOrder, none, 0⟩

/-- How a part of a call ends. -/
inductive Outcome
  | goesOn (s : Getopt)
  | returns (s : Getopt) (ret : Int)
  | outside
  deriving DecidableEq, Repr

def dash : UInt8 := 45
def colon : UInt8 := 58
def equals : UInt8 := 61
def plus : UInt8 := 43

/-- `"--"` -/
def endOfOptions : CString := [dash, dash]

/-- `EOF` -/
def eof : Int := -1

/-- `BAD_OPTION` -/
def badOption : Int := 0

/-- A `char` that is returned as an `int`. -/
def charCode (c : UInt8) : Int := c.toInt8.toInt

/-- `argv[optind][0] != '-' || argv[optind][1] == '\0'` -/
def isNonOption : CString → Bool
  | [] => true
  | c :: rest => c ≠ dash || rest.isEmpty

/-- `optstring[0] == ':' ? ':' : BAD_OPTION` -/
def missingArgument (optstring : CString) : Int :=
  if optstring.head? = some colon then charCode colon else badOption

namespace Getopt

/-- `exchange` -/
def exchange (s : Getopt) : Getopt :=
  let argv := reverseBetween s.argv s.firstNonopt (s.optind - 1)
  let firstNonopt := s.firstNonopt + (s.optind - s.lastNonopt)
  let argv := reverseBetween argv s.firstNonopt (firstNonopt - 1)
  let argv := reverseBetween argv firstNonopt (s.optind - 1)
  { s with argv := argv, firstNonopt := firstNonopt, lastNonopt := s.optind }

/-- What the first call does, with the option string that it goes on with. -/
def first (posixlyCorrect : Bool) (optstring : CString) (s : Getopt) : Getopt × CString :=
  let s := { s with firstNonopt := 1, lastNonopt := 1, optind := 1, nextchar := none }
  match optstring with
  | c :: rest =>
      if c = dash then ({ s with ordering := .returnInOrder }, rest)
      else if c = plus then ({ s with ordering := .requireOrder }, rest)
      else if posixlyCorrect then ({ s with ordering := .requireOrder }, optstring)
      else ({ s with ordering := .permute }, optstring)
  | [] =>
      if posixlyCorrect then ({ s with ordering := .requireOrder }, optstring)
      else ({ s with ordering := .permute }, optstring)

/-- The options since the elements that were skipped come in front of these. -/
def exchangeSkipped (s : Getopt) : Getopt :=
  if s.firstNonopt ≠ s.lastNonopt ∧ s.lastNonopt ≠ s.optind then s.exchange
  else if s.lastNonopt ≠ s.optind then { s with firstNonopt := s.optind }
  else s

/-- What comes next and is not an option is skipped too. -/
def skip (s : Getopt) : Getopt :=
  let s := s.exchangeSkipped
  let optind := s.optind + ((s.argv.drop s.optind).takeWhile isNonOption).length
  { s with optind := optind, lastNonopt := optind }

/-- The element `--` ends the options. -/
def stop (s : Getopt) : Getopt :=
  let s := { s with optind := s.optind + 1 }
  let s :=
    if s.firstNonopt ≠ s.lastNonopt ∧ s.lastNonopt ≠ s.optind then s.exchange
    else if s.firstNonopt = s.lastNonopt then { s with firstNonopt := s.optind }
    else s
  { s with lastNonopt := s.argv.length, optind := s.argv.length }

/-- What `optind` is at: the end, another element, or the first character of an option. -/
def scanNext (longopts : Option (List LongOpt)) (s : Getopt) : Outcome :=
  let s := if s.argv[s.optind]? = some endOfOptions then s.stop else s
  if s.optind = s.argv.length then
    if s.firstNonopt ≠ s.lastNonopt then .returns { s with optind := s.firstNonopt } eof
    else .returns s eof
  else
    match s.argv[s.optind]? with
    | none => .outside
    | some element =>
        if isNonOption element then
          if s.ordering = .requireOrder then .returns s eof
          else .returns { s with optarg := some element, optind := s.optind + 1 } 1
        else if longopts.isSome ∧ element[1]? = some dash then
          .goesOn { s with nextchar := some (element.drop 2) }
        else .goesOn { s with nextchar := some (element.drop 1) }

/-- The start of the next element, when the last one is used up. -/
def advance (longopts : Option (List LongOpt)) (s : Getopt) : Outcome :=
  (if s.ordering = .permute then s.skip else s).scanNext longopts

end Getopt

/-- `pfound`, `exact` and `ambig` -/
structure LongMatch where
  pfound : Option LongOpt
  exact : Bool
  ambig : Bool
  deriving DecidableEq, Repr

/-- The loop over the long options, which stops at an exact match. -/
def matchLong (name : CString) : List LongOpt → LongMatch → LongMatch
  | [], found => found
  | p :: longopts, found =>
      if name.isPrefixOf p.name then
        if name.length = p.name.length then { found with pfound := some p, exact := true }
        else if found.pfound.isNone then matchLong name longopts { found with pfound := some p }
        else matchLong name longopts { found with ambig := true }
      else matchLong name longopts found

namespace Getopt

/-- The element is a long option, of which `text` is left. -/
def longOption (optstring : CString) (longopts : List LongOpt) (text : CString) (s : Getopt) :
    Outcome :=
  let found := matchLong (text.takeWhile (· ≠ equals)) longopts ⟨none, false, false⟩
  let s := { s with nextchar := some [], optind := s.optind + 1 }
  if found.ambig && !found.exact then .returns s badOption
  else
    match found.pfound with
    | none => .returns s badOption
    | some p =>
        match text.dropWhile (· ≠ equals) with
        | _ :: value =>
            if p.hasArg ≠ .argNone then .returns { s with optarg := some value } p.val
            else .returns s badOption
        | [] =>
            if p.hasArg = .argRequired then
              if s.optind < s.argv.length then
                match s.argv[s.optind]? with
                | none => .outside
                | some element =>
                    .returns { s with optarg := some element, optind := s.optind + 1 } p.val
              else .returns s (missingArgument optstring)
            else .returns s p.val

/-- The character `c` of an element that holds short options, with `rest` behind it. -/
def shortOption (optstring : CString) (c : UInt8) (rest : CString) (s : Getopt) : Outcome :=
  let s := { s with
    nextchar := some rest
    optind := if rest.isEmpty then s.optind + 1 else s.optind }
  match optstring.dropWhile (· ≠ c) with
  | [] => .returns { s with optopt := c } badOption
  | _ :: after =>
      if c = colon then .returns { s with optopt := c } badOption
      else if after.head? = some colon then
        if after[1]? = some colon then
          if rest.isEmpty then .returns { s with optarg := none, nextchar := none } (charCode c)
          else
            .returns { s with optarg := some rest, optind := s.optind + 1, nextchar := none }
              (charCode c)
        else if !rest.isEmpty then
          .returns { s with optarg := some rest, optind := s.optind + 1, nextchar := none }
            (charCode c)
        else if s.optind = s.argv.length then
          .returns { s with optopt := c, nextchar := none } (missingArgument optstring)
        else
          match s.argv[s.optind]? with
          | none => .outside
          | some element =>
              .returns { s with optarg := some element, optind := s.optind + 1, nextchar := none }
                (charCode c)
      else .returns s (charCode c)

/-- The option that `nextchar` is at. -/
def decode (optstring : CString) (longopts : Option (List LongOpt)) (s : Getopt) : Outcome :=
  match s.nextchar, longopts with
  | none, _ => .outside
  | some text, some longopts =>
      match s.argv[s.optind]? with
      | none => .outside
      | some element =>
          if element.head? = some dash ∧ element[1]? = some dash then
            s.longOption optstring longopts text
          else
            match text with
            | [] => .outside
            | c :: rest => s.shortOption optstring c rest
  | some [], none => .outside
  | some (c :: rest), none => s.shortOption optstring c rest

/-- `_getopt_internal`. The variable `POSIXLY_CORRECT` is looked up by the first call. -/
def getoptInternal (posixlyCorrect : Bool) (optstring : CString)
    (longopts : Option (List LongOpt)) (s : Getopt) : Outcome :=
  let s := { s with optarg := none }
  let (s, optstring) := if s.optind = 0 then s.first posixlyCorrect optstring else (s, optstring)
  match if s.nextchar.all List.isEmpty then s.advance longopts else .goesOn s with
  | .goesOn s => s.decode optstring longopts
  | outcome => outcome

/-- `getopt_long` -/
def getoptLong (posixlyCorrect : Bool) (optstring : CString) (longopts : List LongOpt)
    (s : Getopt) : Outcome :=
  s.getoptInternal posixlyCorrect optstring (some longopts)

/-- The variables before the first call, for which the caller has set `optind` to 0. -/
def fresh (argv : List CString) (old : Getopt) : Getopt := { old with argv := argv, optind := 0 }

/-- What calls return up to the first `EOF`, each with `optarg`; and the variables then. At
most `fuel` calls are made. -/
def calls (call : Getopt → Outcome) : Nat → Getopt →
    Option (List (Int × Option CString) × Getopt)
  | 0, _ => none
  | fuel + 1, s =>
      match call s with
      | .returns s ret =>
          if ret = eof then some ([], s)
          else (calls call fuel s).map fun rest => ((ret, s.optarg) :: rest.1, rest.2)
      | _ => none

end Getopt

end FFZKit.Win32
