import FFZKit.Foundations.Transition
import Mathlib.Data.List.Nodup
import Std.Data.ExtTreeMap.Lemmas

/-!
# The option registry of `OptionParser`

`_map_options` holds the options by index and `_map_char_index` the index of
each short character. The index of a new option is taken from the number of
options, and neither map changes when a key to be inserted is there already.

## Implementation notes

Of an `Option` only what the registry reads is modelled, and its handler. A
`char` is its unsigned value, with 0 for no short option; indices do not reach
the end of `int`. `registered` is a history: the options added whose name was
not deleted since.
-/

namespace FFZKit.Util

open FFZKit.Foundations.Transition
open Std (ExtTreeMap)

/-- `Option` -/
structure CmdOption (Handler : Type*) where
  shortOpt : UInt8
  longOpt : String
  cb : Handler
  deriving DecidableEq, Repr

structure OptionParser (Handler : Type*) where
  mapCharIndex : ExtTreeMap UInt8 Nat compare
  mapOptions : ExtTreeMap Nat (CmdOption Handler) compare
  registered : List (CmdOption Handler)

namespace OptionParser

variable {Handler : Type*}

/-- `operator<<` -/
def add (s : OptionParser Handler) (option : CmdOption Handler) : OptionParser Handler :=
  let index := 0xFF + s.mapOptions.size
  { mapCharIndex :=
      if option.shortOpt ≠ 0 then s.mapCharIndex.insertIfNew option.shortOpt index
      else s.mapCharIndex
    mapOptions := s.mapOptions.insertIfNew index option
    registered := s.registered ++ [option] }

/-- `delOption` erases the first option with the name. -/
def delOption (s : OptionParser Handler) (key : String) : OptionParser Handler :=
  let registered := s.registered.filter fun option => option.longOpt ≠ key
  match s.mapOptions.toList.find? fun pr => pr.2.longOpt = key with
  | none => { s with registered := registered }
  | some (index, option) =>
      { mapCharIndex :=
          if option.shortOpt ≠ 0 then s.mapCharIndex.erase option.shortOpt else s.mapCharIndex
        mapOptions := s.mapOptions.erase index
        registered := registered }

/-- The parser after its constructor, which adds the option for help. -/
def init (help : Handler) : OptionParser Handler :=
  add ⟨∅, ∅, []⟩ ⟨'h'.toUInt8, "help", help⟩

/-- The option that `operator()` runs when `getopt_long` answers `index`. -/
def lookup (s : OptionParser Handler) (index : Nat) : Option (CmdOption Handler) :=
  if index < 0xFF then
    match s.mapCharIndex[index.toUInt8]? with
    | none => none
    | some index => s.mapOptions[index]?
  else s.mapOptions[index]?

inductive Action (Handler : Type*)
  | add (option : CmdOption Handler)
  | delOption (key : String)

def step (s : OptionParser Handler) : Action Handler → Option (OptionParser Handler)
  | .add option => some (s.add option)
  | .delOption key => some (s.delOption key)

end OptionParser

end FFZKit.Util
