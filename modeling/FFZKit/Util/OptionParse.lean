import FFZKit.Util.OptionParser

/-!
# `OptionParser::operator()`

The results of `getopt_long` are taken one after the other: the first argument
of an option is stored under its long name, and its handler is called with what
is stored. Then come the defaults, the check of the options that must exist, the
help when nothing was given, and the callback `_on_completed`.

## Implementation notes

`getopt_long` is a parameter: it reads the tables and answers any list of
results. A handler is called with the calls before it, on which its answer may
depend. Texts are compared as strings; their sizes are those of their bytes.
-/

namespace FFZKit.Util

open Std (ExtTreeMap)

/-- `Option::ArgType` -/
inductive ArgType
  | argNone
  | argRequired
  | argOptional
  deriving DecidableEq, Repr

/-- The members of an `Option` that the parser reads beyond its names. -/
structure OptionBody (Cb : Type*) where
  mustExist : Bool
  argType : ArgType
  des : String
  cb : Option Cb
  defaultValue : Option String
  deriving DecidableEq

/-- `Option::Option`: only an option with an argument has a default or must exist. -/
def makeOption {Cb : Type*} (shortOpt : UInt8) (longOpt : String) (argType : ArgType)
    (defaultValue : Option String) (mustExist : Bool) (des : String) (cb : Option Cb) :
    CmdOption (OptionBody Cb) :=
  let default := if argType = .argNone then none else defaultValue
  { shortOpt := shortOpt
    longOpt := longOpt
    cb :=
      { mustExist := argType ≠ .argNone && default.isNone && mustExist
        argType := argType
        des := des
        cb := cb
        defaultValue := default } }

/-- What `getopt_long` returns, and `optarg`. -/
structure GetoptResult where
  index : Nat
  optarg : Option String
  deriving DecidableEq, Repr

/-- How a handler ends. -/
inductive HandlerEnd
  | returns (more : Bool)
  | throws
  deriving DecidableEq, Repr

/-- A call of an option with the text stored for it. -/
abbrev HandlerCall (Cb : Type*) := CmdOption (OptionBody Cb) × String

/-- What a handler does after the calls made so far. -/
abbrev Answer (Cb : Type*) := List (HandlerCall Cb) → Cb → String → HandlerEnd

/-- `Option::operator()` -/
def CmdOption.invoke {Cb : Type*} (answer : Answer Cb) (calls : List (HandlerCall Cb))
    (option : CmdOption (OptionBody Cb)) (arg : String) : HandlerEnd :=
  match option.cb.cb with
  | none => .returns true
  | some cb => answer calls cb arg

/-- How the parser ends. -/
inductive ParseEnd
  | throws (what : String)
  | handlerThrows
  | stopped
  | done
  | completed (allArgs : ExtTreeMap String String compare)

/-- `all_args`, and the calls of handlers so far. -/
structure ParseState (Cb : Type*) where
  allArgs : ExtTreeMap String String compare
  calls : List (HandlerCall Cb)

/-- An entry of the table of long options. -/
structure LongOption where
  name : String
  hasArg : ArgType
  val : Nat

structure CommandParser (Cb : Type*) where
  registry : OptionParser (OptionBody Cb)
  enableEmptyArgs : Bool
  hasOnCompleted : Bool

namespace CommandParser

variable {Cb : Type*} (s : CommandParser Cb)

/-- The options in the order of their indices. -/
def options : List (CmdOption (OptionBody Cb)) := s.registry.mapOptions.toList.map Prod.snd

/-- `vec_long_opt`, less the entry that ends it. -/
def longOptions : List LongOption :=
  s.registry.mapOptions.toList.map fun pr => ⟨pr.2.longOpt, pr.2.cb.argType, pr.1⟩

/-- `str_short_opt` -/
def shortOptions : List UInt8 :=
  s.options.flatMap fun option =>
    if option.shortOpt = 0 then []
    else option.shortOpt ::
      match option.cb.argType with
      | .argNone => []
      | .argRequired => [':'.toUInt8]
      | .argOptional => [':'.toUInt8, ':'.toUInt8]

def unrecognizedOption : String := "  unrecognized option, print \"-h\" for help"

def mustProvide (longOpt : String) : String :=
  "  parameter\"" ++ longOpt ++ "\"must provide, print \"-h\" for help"

def argsType : ArgType → String
  | .argNone => "ArgNone"
  | .argRequired => "ArgRequired"
  | .argOptional => "ArgOptional"

/-- `for (i = 0; i < width - text.size(); ++i) printer << " "` -/
def padding (width : Nat) (text : String) : String :=
  String.ofList (List.replicate (width - text.utf8ByteSize) ' ')

/-- The line of the help about an option. -/
def helpLine (longWidth defaultWidth : Nat) (option : CmdOption (OptionBody Cb)) : String :=
  let default := option.cb.defaultValue.getD "null"
  (if option.shortOpt ≠ 0 then "  -" ++ String.singleton (Char.ofNat option.shortOpt.toNat)
    else "    ") ++ "  --" ++ option.longOpt ++ padding longWidth option.longOpt ++
    "  " ++ argsType option.cb.argType ++ "  default:" ++ default ++
    padding defaultWidth default ++ "  " ++ (if option.cb.mustExist then "must" else "optional") ++
    "  " ++ option.cb.des ++ "\n"

/-- The text that the help throws. -/
def helpText : String :=
  let longWidth := s.options.foldl (fun width option => max width option.longOpt.utf8ByteSize) 0
  let defaultWidth := s.options.foldl
    (fun width option => max width (option.cb.defaultValue.getD "").utf8ByteSize)
    "null".utf8ByteSize
  String.join (s.options.map (helpLine longWidth defaultWidth))

/-- The body of the loop over the results of `getopt_long`. -/
def turn (answer : Answer Cb) (st : ParseState Cb) (result : GetoptResult) :
    Except (ParseState Cb × ParseEnd) (ParseState Cb) :=
  match s.registry.lookup result.index with
  | none => .error (st, .throws unrecognizedOption)
  | some option =>
      let allArgs := st.allArgs.insertIfNew option.longOpt (result.optarg.getD "")
      let arg := (allArgs[option.longOpt]?).getD ""
      let called : ParseState Cb := ⟨allArgs, st.calls ++ [(option, arg)]⟩
      match option.invoke answer st.calls arg with
      | .throws => .error (called, .handlerThrows)
      | .returns false => .error (called, .stopped)
      | .returns true => .ok called

/-- The pass that stores the defaults. -/
def addDefaults (allArgs : ExtTreeMap String String compare) : ExtTreeMap String String compare :=
  s.options.foldl (fun allArgs option =>
    match option.cb.defaultValue with
    | none => allArgs
    | some value =>
        if option.longOpt ∈ allArgs then allArgs else allArgs.insertIfNew option.longOpt value)
    allArgs

/-- What follows the loop: the checks, and `_on_completed`. -/
def finish (allArgs : ExtTreeMap String String compare) : ParseEnd :=
  match s.options.find? fun option => option.cb.mustExist && !allArgs.contains option.longOpt with
  | some option => .throws (mustProvide option.longOpt)
  | none =>
      if allArgs.isEmpty && 1 < s.registry.mapOptions.size && !s.enableEmptyArgs then
        .throws s.helpText
      else if s.hasOnCompleted then .completed allArgs
      else .done

/-- `operator()` on an empty `all_args`: the variables at its end, and how it ends. -/
def run (getoptLong : List UInt8 → List LongOption → List GetoptResult) (answer : Answer Cb) :
    ParseState Cb × ParseEnd :=
  match (getoptLong s.shortOptions s.longOptions).foldlM (s.turn answer) ⟨∅, []⟩ with
  | .error stop => stop
  | .ok st => (⟨s.addDefaults st.allArgs, st.calls⟩, s.finish (s.addDefaults st.allArgs))

end CommandParser

end FFZKit.Util
