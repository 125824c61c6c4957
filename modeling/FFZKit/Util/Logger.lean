import Mathlib.Algebra.Group.Nat.Defs
import Mathlib.Algebra.Ring.Int.Defs
import Mathlib.Data.List.FinRange
import Mathlib.Logic.Function.Basic

/-!
# `Logger` without a `LogWriter`

`writeChannels` gives a message to the channels, or counts it on the last
message when it repeats that one. The count is handed to the channels with
the next repetition that comes 500 ms later, or with the last message once
more when a different one follows.

## Implementation notes

A `LogContextPtr` is an index into a heap of messages. A channel may change
the logger it is given, since `FileChannel` logs its own errors, and it may
fail to return. `written` is a history of the calls of `writeChannels_l`.
-/

namespace FFZKit.Util

/-- `struct timeval` -/
structure Timeval where
  sec : Int
  usec : Int
  deriving DecidableEq, Repr

/-- The time from `a` to `b` in milliseconds. -/
def timevalDiff (a b : Timeval) : Int :=
  1000 * (b.sec - a.sec) + (b.usec - a.usec).tdiv 1000

inductive LogLevel
  | LTrace
  | LDebug
  | LInfo
  | LWarn
  | LError
  deriving DecidableEq, Repr

def LogLevel.toNat : LogLevel → Nat
  | .LTrace => 0
  | .LDebug => 1
  | .LInfo => 2
  | .LWarn => 3
  | .LError => 4

/-- `LOG_CONST_TABLE` -/
def LogLevel.label : LogLevel → String
  | .LTrace => "TRA"
  | .LDebug => "DBG"
  | .LInfo => "INF"
  | .LWarn => "WAR"
  | .LError => "ERR"

/-- `LogContext`. What `str()` returns is `content`. -/
structure LogContext where
  level : LogLevel
  line : Int
  repeat_ : Int
  file : String
  function : String
  flag : String
  threadName : String
  tv : Timeval
  content : String
  deriving DecidableEq, Repr

namespace LogContext

/-- The test of `writeChannels` for a message that repeats the last one. -/
def Repeats (ctx last : LogContext) : Prop :=
  ctx.line = last.line ∧ ctx.file = last.file ∧ ctx.content = last.content ∧
    ctx.threadName = last.threadName

instance (ctx last : LogContext) : Decidable (ctx.Repeats last) :=
  inferInstanceAs (Decidable (_ ∧ _ ∧ _ ∧ _))

/-- The number of repetitions that `format` reports, if it does. -/
def repeatNote (ctx : LogContext) : Option Int :=
  if 1 < ctx.repeat_ then some ctx.repeat_ else none

end LogContext

/-- `LogChannel::format` -/
def format (printTime : Timeval → String) (pid : Nat) (loggerName : String)
    (ctx : LogContext) (enableDetail : Bool) : String :=
  if enableDetail = false ∧ ctx.content.isEmpty then ""
  else
    printTime ctx.tv ++ " " ++ ctx.level.label ++ " " ++
    (if enableDetail then
      "[" ++ (if ctx.flag.isEmpty then loggerName else ctx.flag) ++ "] " ++
      "[" ++ toString pid ++ "-" ++ ctx.threadName ++ "] " ++
      ctx.file ++ ":" ++ toString ctx.line ++ " " ++ ctx.function ++ " | "
    else "") ++
    ctx.content ++
    (match ctx.repeatNote with
    | some count => "\r\n    Last message repeated " ++ toString count ++ " times"
    | none => "") ++ "\n"

/-- A `ConsoleChannel` and what it has printed. -/
structure ConsoleChannel where
  level : LogLevel
  out : List String

/-- `ConsoleChannel::write` -/
def ConsoleChannel.write (printTime : Timeval → String) (pid : Nat) (loggerName : String)
    (chn : ConsoleChannel) (ctx : LogContext) : ConsoleChannel :=
  if ctx.level.toNat < chn.level.toNat then chn
  else { chn with out := chn.out ++ [format printTime pid loggerName ctx true] }

/-- A `Logger` with `n` channels besides `_default_channel`, which has the
index `none`. The channels are in the order of their names. -/
structure Logger (n : Nat) (Channel : Type*) where
  name : String
  heap : Nat → LogContext
  next : Nat
  lastLog : Nat
  channels : Option (Fin n) → Channel
  written : List LogContext

/-- A `const LogContextPtr &`. The argument of `writeChannels_l` may be the
member `_last_log` itself. -/
inductive Ref
  | ptr (p : Nat)
  | lastLog
  deriving DecidableEq, Repr

namespace Logger

variable {n : Nat} {Channel : Type*}

def pointer (S : Logger n Channel) : Ref → Nat
  | .ptr p => p
  | .lastLog => S.lastLog

def deref (S : Logger n Channel) (ref : Ref) : LogContext :=
  S.heap (S.pointer ref)

/-- The message that `_last_log` points to. -/
def last (S : Logger n Channel) : LogContext :=
  S.heap S.lastLog

/-- `new LogContext`, at the address `next`. -/
def alloc (S : Logger n Channel) (ctx : LogContext) : Logger n Channel :=
  { S with heap := Function.update S.heap S.next ctx, next := S.next + 1 }

def setRepeat (S : Logger n Channel) (p : Nat) (count : Int) : Logger n Channel :=
  { S with heap := Function.update S.heap p { S.heap p with repeat_ := count } }

@[simp] theorem last_setRepeat_lastLog (S : Logger n Channel) (count : Int) :
    (S.setRepeat S.lastLog count).last = { S.last with repeat_ := count } := by
  simp [last, setRepeat]

theorem heap_setRepeat_self (S : Logger n Channel) (p : Nat) (count : Int) :
    (S.setRepeat p count).heap p = { S.heap p with repeat_ := count } :=
  Function.update_self _ _ _

theorem heap_setRepeat_of_ne (S : Logger n Channel) {p q : Nat} (count : Int) (hq : q ≠ p) :
    (S.setRepeat p count).heap q = S.heap q :=
  Function.update_of_ne hq _ _

theorem tv_setRepeat (S : Logger n Channel) (p q : Nat) (count : Int) :
    ((S.setRepeat p count).heap q).tv = (S.heap q).tv := by
  by_cases hq : q = p
  · rw [hq, heap_setRepeat_self]
  · rw [heap_setRepeat_of_ne S count hq]

theorem last_setRepeat_of_ne (S : Logger n Channel) {p : Nat} {count : Int}
    (hp : S.lastLog ≠ p) : (S.setRepeat p count).last = S.last :=
  heap_setRepeat_of_ne S count hp

theorem heap_alloc_self (S : Logger n Channel) (ctx : LogContext) :
    (S.alloc ctx).heap S.next = ctx :=
  Function.update_self _ _ _

theorem last_alloc_of_ne (S : Logger n Channel) {ctx : LogContext} (hlast : S.lastLog ≠ S.next) :
    (S.alloc ctx).last = S.last :=
  Function.update_of_ne hlast _ _

/-- `++_repeat` of an `int`, with the wrap of the compiled code. -/
def increment (count : Int) : Int :=
  Int.bmod (count + 1) (2 ^ 32)

/-- The channels that `writeChannels_l` writes to, in its order. -/
def recipients (n : Nat) : List (Option (Fin n)) :=
  if n = 0 then [none] else (List.finRange n).map some

/-- `Logger::writeChannels_l`, where `write` is `LogChannel::write`. -/
def writeChannels_l (write : Logger n Channel → Option (Fin n) → Ref → Option (Logger n Channel))
    (S : Logger n Channel) (ref : Ref) : Option (Logger n Channel) :=
  ((recipients n).foldlM (fun S i => write S i ref)
      { S with written := S.written ++ [S.deref ref] }).map fun S =>
    { S.setRepeat (S.pointer ref) 0 with lastLog := S.pointer ref }

/-- `Logger::writeChannels`, which is `Logger::write` without a `LogWriter`. -/
def writeChannels (write : Logger n Channel → Option (Fin n) → Ref → Option (Logger n Channel))
    (S : Logger n Channel) (p : Nat) : Option (Logger n Channel) :=
  if (S.heap p).Repeats S.last then
    let S := S.setRepeat S.lastLog (increment S.last.repeat_)
    if 500 < timevalDiff S.last.tv (S.heap p).tv then
      writeChannels_l write (S.setRepeat p S.last.repeat_) (.ptr p)
    else some S
  else do
    let S ← if S.last.repeat_ = 0 then some S else writeChannels_l write S .lastLog
    writeChannels_l write S (.ptr p)

section

variable {write : Logger n Channel → Option (Fin n) → Ref → Option (Logger n Channel)}
  {S : Logger n Channel} {p : Nat}

theorem writeChannels_repeated (hrep : (S.heap p).Repeats S.last) :
    writeChannels write S p =
      if 500 < timevalDiff S.last.tv (S.heap p).tv then
        writeChannels_l write ((S.setRepeat S.lastLog (increment S.last.repeat_)).setRepeat p
          (increment S.last.repeat_)) (.ptr p)
      else some (S.setRepeat S.lastLog (increment S.last.repeat_)) := by
  rw [writeChannels, if_pos hrep]
  dsimp only
  rw [last_setRepeat_lastLog, tv_setRepeat]

theorem writeChannels_different (hrep : ¬ (S.heap p).Repeats S.last) :
    writeChannels write S p =
      (if S.last.repeat_ = 0 then some S else writeChannels_l write S .lastLog).bind
        fun S => writeChannels_l write S (.ptr p) := by
  rw [writeChannels, if_neg hrep]
  split <;> rfl

end

/-- The message that `~Logger` logs. -/
def farewell (tv : Timeval) (threadName : String) : LogContext where
  level := .LInfo
  line := 39
  repeat_ := 0
  file := "logger.cpp"
  function := "~Logger"
  flag := ""
  threadName := threadName
  tv := tv
  content := ""

/-- `Logger::~Logger` -/
def destroy (write : Logger n Channel → Option (Fin n) → Ref → Option (Logger n Channel))
    (tv : Timeval) (threadName : String) (S : Logger n Channel) : Option (Logger n Channel) :=
  writeChannels write (S.alloc (farewell tv threadName)) S.next

end Logger

end FFZKit.Util
