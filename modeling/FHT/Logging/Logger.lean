import Mathlib.Logic.Function.Basic
import FHT.Lib.Machine
import FHT.Lib.StdString

/-!
# The logger

An accepted call of `log` returns a stream whose destructor hands its line to the logger: to
stdout where the interval is zero, else to a list that a task of the main thread dumps to the
file. The task is posted with the writer of the file, by the first call that is accepted.

The destructor of a stream, the task and the destructor of the logger lock the same mutex, so
each is one step. So is a call of `log`.

## Main definitions

- `Logger` — the members of `Logger`, the streams, the tasks posted and what was written
- `Logger.log`, `Logger.emit`, `Logger.dump`
- `Logger.step` — settings, streams and dumps in any order
-/

namespace FHT.Logging

/-- `LoggerStream::Level`. -/
inductive Level
  | FATAL
  | ERR
  | WARN
  | INFO
  | DEBUG
  deriving DecidableEq

/-- `iLogger::Verbose`. -/
inductive Verbose
  | OFF
  | FATAL
  | ERR
  | WARN
  | INFO
  | DEBUG
  deriving DecidableEq

/-- `static_cast<int>`. -/
def Level.toNat : Level → Nat
  | FATAL => 0
  | ERR => 1
  | WARN => 2
  | INFO => 3
  | DEBUG => 4

def Verbose.toNat : Verbose → Nat
  | OFF => 0
  | FATAL => 1
  | ERR => 2
  | WARN => 3
  | INFO => 4
  | DEBUG => 5

/-- `m_level`. -/
def Level.name : Level → Str
  | FATAL => "FATAL".toList
  | ERR => "ERROR".toList
  | WARN => "WARNING".toList
  | INFO => "INFO".toList
  | DEBUG => "DEBUG".toList

/-- The test of `log`. -/
def accepts (verbose : Verbose) (level : Level) : Bool := level.toNat < verbose.toNat

/-- `LoggerStream`; `bind` is whether `m_bind` is set. -/
structure LoggerStream where
  logging : Bool
  buf : Str
  bind : Bool

/-- `operator <<`, with the text that the argument prints. -/
def LoggerStream.append (stream : LoggerStream) (str : Str) : LoggerStream :=
  if stream.logging then { stream with buf := stream.buf ++ '|' :: str } else stream

/-- A `logWriter`: which object it is, and its `file_name_`. -/
structure LogWriter where
  object : Nat
  fileName : Str
  deriving DecidableEq

/-- A dump task with its weak pointer, posted for every `ms` milliseconds, an `int`. -/
structure DumpTask where
  fWrite : LogWriter
  ms : Int

/-- The life of the logger; `nullDeref` is a destructor that used a null `m_write`. -/
inductive Life
  | alive
  | destroyed
  | nullDeref
  deriving DecidableEq

/-- The members `m_write`, `m_list`, `m_verboseLogging`, `m_fileLoggingName` and `m_intervalSec`.
`made` counts the writers made so far, `tasks` are the dump tasks that have not finished, `files`
are the lines that each file has received and `emitted` all lines in the order of their
streams' destructors. -/
structure Logger where
  write : Option LogWriter
  list : List Str
  verboseLogging : Verbose
  fileLoggingName : Str
  intervalSec : Int
  life : Life
  made : Nat
  streams : Nat → Option LoggerStream
  tasks : List DumpTask
  files : Str → List Str
  stdout : List Str
  emitted : List Str

namespace Logger

def init : Logger where
  write := none
  list := []
  verboseLogging := .OFF
  fileLoggingName := "FHT.log".toList
  intervalSec := 0
  life := .alive
  made := 0
  streams := fun _ => none
  tasks := []
  files := fun _ => []
  stdout := []
  emitted := []

/-- `writeFromList`, where the file can be opened or not. What is written to a file that is open
arrives there: the streams of the library report no error. -/
def writeFromList (s : Logger) (write : LogWriter) (list : List Str) (opened : Bool) : Logger :=
  if opened then
    { s with files := Function.update s.files write.fileName (s.files write.fileName ++ list) }
  else s

/-- `m_intervalSec * 1000`, a product of two `int`s of 32 bits, which wraps where it overflows. -/
def milliseconds (second : Int) : Int := (second * 1000).bmod 4294967296

/-- The first accepted call makes the writer, and posts the task if there is an interval. -/
def makeWriter (s : Logger) : Logger :=
  match s.write with
  | some _ => s
  | none =>
    let write : LogWriter := ⟨s.made, s.fileLoggingName⟩
    let s := { s with write := some write, made := s.made + 1 }
    if s.intervalSec ≠ 0 then
      { s with tasks := s.tasks ++ [⟨write, milliseconds s.intervalSec⟩] }
    else s

/-- `log` at the given time, which returns the stream `i`. -/
def log (s : Logger) (i : Nat) (level : Level) (time : Str) : Option Logger :=
  match s.streams i with
  | some _ => none
  | none => some <|
    if accepts s.verboseLogging level then
      let stream : LoggerStream := ⟨true, time ++ "|[".toList ++ level.name ++ "]".toList, true⟩
      { s.makeWriter with streams := Function.update s.streams i (some stream) }
    else { s with streams := Function.update s.streams i (some ⟨false, [], false⟩) }

def append (s : Logger) (i : Nat) (str : Str) : Option Logger :=
  (s.streams i).map fun stream =>
    { s with streams := Function.update s.streams i (some (stream.append str)) }

/-- What `log` binds to its streams. -/
def emit (s : Logger) (str : Str) : Logger :=
  let s := { s with emitted := s.emitted ++ [str] }
  if s.intervalSec = 0 then { s with stdout := s.stdout ++ [str] }
  else { s with list := s.list ++ [str] }

/-- `~LoggerStream` of the stream `i`. -/
def destroyStream (s : Logger) (i : Nat) : Option Logger :=
  (s.streams i).map fun stream =>
    let s := { s with streams := Function.update s.streams i none }
    if stream.bind then s.emit stream.buf else s

/-- `f_write.lock()`: only `m_write` owns the writer. -/
def lock (s : Logger) (fWrite : LogWriter) : Option LogWriter :=
  if s.life = .alive ∧ s.write = some fWrite then some fWrite else none

/-- A run of the dump task `k`, which goes on or finishes. -/
def dump (s : Logger) (k : Nat) (opened : Bool) : Option Logger :=
  (s.tasks[k]?).map fun task =>
    match s.lock task.fWrite with
    | some func => writeFromList { s with list := [] } func s.list opened
    | none => { s with tasks := s.tasks.eraseIdx k }

/-- `~Logger`. -/
def destructor (s : Logger) (opened : Bool) : Logger :=
  match s.write with
  | none => { s with list := [], life := .nullDeref }
  | some write => writeFromList { s with list := [], life := .destroyed } write s.list opened

/-- What happens to the logger. The streams are numbered by their calls of `log`. -/
inductive Action
  | setLevelVerboseLogging (level : Verbose)
  | setFileLogging (fileName : Str)
  | setTimeDump (second : Int)
  | log (i : Nat) (level : Level) (time : Str)
  | append (i : Nat) (str : Str)
  | destroyStream (i : Nat)
  | dump (k : Nat) (opened : Bool)
  | destructor (opened : Bool)

/-- Behind the destructor only the task can run. -/
def step : Machine Logger Action
  | s, .dump k opened => s.dump k opened
  | s, a =>
    if s.life = .alive then
      match a with
      | .setLevelVerboseLogging level => some { s with verboseLogging := level }
      | .setFileLogging fileName => some { s with fileLoggingName := fileName }
      | .setTimeDump second => some { s with intervalSec := second }
      | .log i level time => s.log i level time
      | .append i str => s.append i str
      | .destroyStream i => s.destroyStream i
      | .dump _ _ => none
      | .destructor opened => some (s.destructor opened)
    else none

end Logger

end FHT.Logging
