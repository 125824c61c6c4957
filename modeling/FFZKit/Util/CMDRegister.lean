import FFZKit.Foundations.Runs
import FFZKit.Foundations.Word
import FFZKit.Util.Trim
import Mathlib.Data.List.GetD
import Mathlib.Data.List.TakeDrop
import Std.Data.ExtTreeMap.Lemmas

/-!
# `CMDRegister`

`operator()(line)` cuts the words of a line in place: it takes a pointer to
each word and writes a terminator over every blank, in the buffer of the
caller's constant line.

## Implementation notes

A line is its bytes; the terminator behind them is not written to. A pointer
is an offset into the buffer, or null. What the command itself does is not
modelled: `Outcome.call` holds what it is called with.
-/

namespace FFZKit.Util

open FFZKit.Foundations
open Std (ExtTreeMap)

/-- The condition of `getArgs` for a byte that belongs to a word. -/
def isArgChar (c : UInt8) : Bool :=
  c != ' '.toUInt8 && c != '\t'.toUInt8 && c != '\r'.toUInt8 && c != '\n'.toUInt8

/-- `strlen` -/
def strlen (buf : Bytes) : Nat := (buf.takeWhile (· != 0)).length

/-- The text that a pointer into the buffer leads to. -/
def cString (buf : Bytes) (pointer : Option Nat) : Option Bytes :=
  pointer.map fun i => (buf.drop i).takeWhile (· != 0)

/-- The variables of `getArgs`. -/
structure ArgScan where
  buf : Bytes
  argv : List (Option Nat)
  argc : Nat
  start : Bool

/-- `argv.resize(size)`, where the vector is too short. -/
def resizeArgv (argv : List (Option Nat)) (size : Nat) : List (Option Nat) :=
  if argv.length < size then argv ++ List.replicate (size - argv.length) none else argv

/-- The body of the loop of `getArgs`. -/
def argTurn (st : ArgScan) (i : Nat) : ArgScan :=
  if isArgChar (st.buf.getD i 0) then
    if st.start then st
    else
      { st with
        start := true
        argv := (resizeArgv st.argv (st.argc + 1)).set st.argc (some i)
        argc := st.argc + 1 }
  else { st with buf := st.buf.set i 0, start := false }

/-- `getArgs(buf, argv)` on an empty vector. -/
def getArgs (buf : Bytes) : ArgScan :=
  (List.range (strlen buf)).foldl argTurn ⟨buf, [], 0, false⟩

/-- How `operator()(line)` ends. -/
inductive Outcome (Cmd : Type*)
  | done
  | throws (what : Bytes)
  | call (cmd : Cmd) (argc : Int) (argv : List (Option Bytes))
  deriving DecidableEq

/-- `what()` of the exception for a command that is not registered. -/
def unrecognizedText (cmd : Bytes) : Bytes :=
  ascii "  unrecognized command\"" ++ cmd ++ ascii "\",print \"help\" for help."

structure CMDRegister (Cmd : Type*) where
  cmdMap : ExtTreeMap Bytes Cmd compare

namespace CMDRegister

variable {Cmd : Type*}

/-- `registCMD` keeps a command that is there already. -/
def registCMD (reg : CMDRegister Cmd) (name : Bytes) (cmd : Cmd) : CMDRegister Cmd :=
  ⟨reg.cmdMap.insertIfNew name cmd⟩

/-- `operator()(line)`: how it ends, and the caller's line after it. -/
def run (reg : CMDRegister Cmd) (line : Bytes) : Outcome Cmd × Bytes :=
  if line = [] then (.done, line)
  else
    let scan := getArgs line
    if scan.argc = 0 then (.done, scan.buf)
    else
      let cmd := (cString scan.buf (scan.argv.headD none)).getD []
      match reg.cmdMap[cmd]? with
      | none => (.throws (unrecognizedText cmd), scan.buf)
      | some found =>
          (.call found (toInt32 scan.argc) (scan.argv.map (cString scan.buf)), scan.buf)

end CMDRegister

end FFZKit.Util
