import FFZKit.Util.Logger

/-!
# `FileChannel`

A `FileChannel` writes to one file a day, or to several when they grow too
large. When it cannot open a file it logs that through the same logger, from
inside its own `write`.

## Implementation notes

The logger is the default one, has no `LogWriter`, and its other channels log
nothing themselves. `write` is evaluated with a bound on the depth of the
calls of `Logger::write`. What the file system and the clock answer is given
by an `Env`, indexed by the number of the question. `clean` logs nothing and
is left out.
-/

namespace FFZKit.Util

open Logger

/-- The time zone, of which `localDate` is `getLocalTime` down to the day, and
the name of the thread that logs. -/
structure Zone where
  gmtoff : Int
  localDate : Int → Int × Int × Int
  threadName : String

/-- What `open` and `size` answer to each channel, and the time that is read
when the message at an address is built. -/
structure Env (n : Nat) where
  opens : Option (Fin n) → Nat → Bool
  sizes : Option (Fin n) → Nat → Nat
  now : Nat → Timeval
  mono : ∀ j k, j ≤ k → (now j).sec ≤ (now k).sec

/-- A `FileChannel`. `attempts` and `queries` count the calls of `open` and
`size`, and `records` are the messages written with the file they went to.
The stream is open while `_can_write` holds. -/
structure FileChannel where
  level : LogLevel
  path : String
  isOpen : Bool
  canWrite : Bool
  maxSize : Nat
  index : Nat
  lastDay : Int
  lastCheckTime : Int
  dir : String
  attempts : Nat
  queries : Nat
  records : List (String × LogContext)
  writable : canWrite = true → isOpen = true

/-- A channel of the logger, which logs nothing itself unless it is a `FileChannel`. -/
inductive Channel (Silent : Type*)
  | silent (chn : Silent)
  | file (chn : FileChannel)

/-- `%0wd` of an `int` -/
def padded (w : Nat) (v : Int) : String :=
  let digits := toString v.natAbs
  let sign := if v < 0 then "-" else ""
  sign ++ String.ofList (List.replicate (w - sign.length - digits.length) '0') ++ digits

/-- `getLogFilePath` -/
def getLogFilePath (zone : Zone) (dir : String) (second : Int) (index : Int) : String :=
  let (year, month, day) := zone.localDate second
  dir ++ toString year ++ "-" ++ padded 2 month ++ "-" ++ padded 2 day ++ "_" ++
    padded 2 index ++ ".log"

/-- `s_second_per_day` -/
def secondPerDay : Int := 24 * 60 * 60

/-- `getDay`, as the `int64_t` that it is compared as -/
def getDay (zone : Zone) (second : Int) : Int :=
  (second + zone.gmtoff).tdiv secondPerDay

/-- The message that `changeFile` logs. -/
def openError (zone : Zone) (path : String) (tv : Timeval) : LogContext where
  level := .LError
  line := 504
  repeat_ := 0
  file := "logger.cpp"
  function := "changeFile"
  flag := ""
  threadName := zone.threadName
  tv := tv
  content := "Failed to open log file: " ++ path

namespace FileChannel

/-- `FileChannel::FileChannel`, where `index` is the largest of today's files. -/
def new (level : LogLevel) (dir : String) (index : Nat) : FileChannel where
  level := level
  path := ""
  isOpen := false
  canWrite := false
  maxSize := 128
  index := index
  lastDay := -1
  lastCheckTime := 0
  dir := if dir.endsWith "/" then dir else dir ++ "/"
  attempts := 0
  queries := 0
  records := []
  writable := fun h => h

/-- `_can_write = setPath(log_file)`, where `ok` is what `open` returns. -/
def setPath (chn : FileChannel) (path : String) (ok : Bool) : FileChannel :=
  { chn with
    path := path
    isOpen := ok
    canWrite := ok
    attempts := chn.attempts + 1
    writable := fun h => h }

/-- `FileChannelBase::size`. For a closed stream `tellp` is `-1`. -/
def size (chn : FileChannel) (answer : Nat) : Nat :=
  if chn.isOpen then answer else 2 ^ 64 - 1

/-- `_log_max_size * 1024 * 1024` -/
def limit (chn : FileChannel) : Nat :=
  chn.maxSize * 1024 * 1024 % 2 ^ 64

/-- `FileChannelBase::write`, which finds the stream open, by `writable`. -/
def record (chn : FileChannel) (ctx : LogContext) : FileChannel :=
  if ctx.level.toNat < chn.level.toNat then chn
  else { chn with records := chn.records ++ [(chn.path, ctx)] }

end FileChannel

namespace Logger

variable {n : Nat} {Silent : Type*}

def setChannel (S : Logger n (Channel Silent)) (i : Option (Fin n)) (chn : Channel Silent) :
    Logger n (Channel Silent) :=
  { S with channels := Function.update S.channels i chn }

@[simp] theorem channels_setChannel_self (S : Logger n (Channel Silent)) (i : Option (Fin n))
    (chn : Channel Silent) : (S.setChannel i chn).channels i = chn :=
  Function.update_self _ _ _

@[simp] theorem channels_setChannel_of_ne (S : Logger n (Channel Silent)) {i j : Option (Fin n)}
    (chn : Channel Silent) (hj : j ≠ i) : (S.setChannel i chn).channels j = S.channels j :=
  Function.update_of_ne hj _ _

/-- Change fields of the `FileChannel` that a member function was called on. -/
def modifyFile (S : Logger n (Channel Silent)) (i : Option (Fin n))
    (f : FileChannel → FileChannel) : Logger n (Channel Silent) :=
  match S.channels i with
  | .silent _ => S
  | .file chn => S.setChannel i (.file (f chn))

theorem setChannel_setChannel (S : Logger n (Channel Silent)) (i : Option (Fin n))
    (chn chn' : Channel Silent) : (S.setChannel i chn).setChannel i chn' = S.setChannel i chn' := by
  simp [setChannel]

theorem setChannel_eq_self {S : Logger n (Channel Silent)} {i : Option (Fin n)}
    {chn : Channel Silent} (hchn : S.channels i = chn) : S.setChannel i chn = S := by
  rw [setChannel, ← hchn, Function.update_eq_self]

theorem modifyFile_eq {S : Logger n (Channel Silent)} {i : Option (Fin n)} {chn : FileChannel}
    (hchn : S.channels i = .file chn) (f : FileChannel → FileChannel) :
    S.modifyFile i f = S.setChannel i (.file (f chn)) := by
  rw [modifyFile, hchn]

variable (zone : Zone) (env : Env n)
    (nested : Logger n (Channel Silent) → Nat → Option (Logger n (Channel Silent)))

/-- `FileChannel::changeFile`, where `nested` is `Logger::write` -/
def changeFile (S : Logger n (Channel Silent)) (i : Option (Fin n)) (chn : FileChannel)
    (second : Int) : Option (Logger n (Channel Silent)) :=
  let path := getLogFilePath zone chn.dir second (Int.bmod chn.index (2 ^ 32))
  let ok := env.opens i chn.attempts
  let chn := { chn with index := (chn.index + 1) % 2 ^ 64 }
  let S := S.setChannel i (.file (chn.setPath path ok))
  if ok then some S
  else nested (S.alloc (openError zone path (env.now S.next))) S.next

/-- `FileChannel::checkSize` -/
def checkSize (S : Logger n (Channel Silent)) (i : Option (Fin n)) (chn : FileChannel)
    (second : Int) : Option (Logger n (Channel Silent)) :=
  if 60 < second - chn.lastCheckTime then
    let asked := { chn with queries := chn.queries + 1 }
    (if chn.limit < chn.size (env.sizes i chn.queries) then
      changeFile zone env nested S i asked second
    else some (S.setChannel i (.file asked))).map fun S =>
      S.modifyFile i fun chn => { chn with lastCheckTime := second }
  else some S

/-- `FileChannel::write`. A nested call may change `_can_write`, and the
message when it is the last one. -/
def writeFile (S : Logger n (Channel Silent)) (i : Option (Fin n)) (chn : FileChannel)
    (ref : Ref) : Option (Logger n (Channel Silent)) :=
  let second := (S.deref ref).tv.sec
  let day := getDay zone second
  (if day ≠ chn.lastDay then
    changeFile zone env nested S i
      { chn with index := if chn.lastDay ≠ -1 then 0 else chn.index, lastDay := day } second
  else checkSize zone env nested S i chn second).map fun S =>
    S.modifyFile i fun chn => if chn.canWrite then chn.record (S.deref ref) else chn

variable (put : Silent → LogContext → Silent)

/-- `LogChannel::write` -/
def deliver (S : Logger n (Channel Silent)) (i : Option (Fin n)) (ref : Ref) :
    Option (Logger n (Channel Silent)) :=
  match S.channels i with
  | .silent chn => some (S.setChannel i (.silent (put chn (S.deref ref))))
  | .file chn => writeFile zone env nested S i chn ref

/-- `Logger::write`, with at most `k` calls of it one inside another -/
def write (k : Nat) (S : Logger n (Channel Silent)) (p : Nat) :
    Option (Logger n (Channel Silent)) :=
  match k with
  | 0 => none
  | k + 1 => writeChannels (deliver zone env (write k) put) S p

end Logger

end FFZKit.Util
