import Chomsky.Decimal.Reader
import Chomsky.Event.Timestamp
import Chomsky.Json.Reader
import Chomsky.Report

/-!
# The event log

An event has a type, a time and data; null stands for no data. In a log every event is a line: the
type, the seconds, and the data in the compact layout if there are any, with single spaces between
them.
-/

namespace Chomsky

structure Event where
  kind : String
  time : Event.Timestamp
  data : Json

namespace Event

/-- The milestone as an event. -/
def ofMilestone (now : Timestamp) (m : Milestone) : Event := ⟨m.kind, now, m.data⟩

/-- The line of the log that records the event. -/
def line (e : Event) : String :=
  let data := match e.data with
    | .null => []
    | data => [data.compact]
  " ".intercalate (e.kind :: e.time.text :: data) ++ "\n"

/-- Why an event is not written. -/
inductive WriteFault where
  /-- An integer of its data has too many digits. -/
  | longInteger
deriving DecidableEq, Repr

def WriteFault.message : WriteFault → String
  | longInteger =>
    s!"Exceeds the limit ({Text.maxIntegerDigits} digits) for integer string conversion; " ++
      "use sys.set_int_max_str_digits() to increase the limit"

/-- The line of the event, if all integers in its data can be written. -/
def written (e : Event) : Except WriteFault String :=
  if e.data.hasLongInteger then .error .longInteger else .ok e.line

/-- How messages show the event. -/
def describe (e : Event) : String :=
  "LogEvent" ++ Text.tuple [Text.quoted e.kind, e.time.describe, e.data.describe]

/-- Why a line of a log cannot be read. -/
inductive LineFault where
  | unreadable (line : String)
  /-- The seconds are too many for any clock or calendar. -/
  | time (fault : TimeFault)
deriving DecidableEq, Repr

def LineFault.message : LineFault → String
  | unreadable line => s!"cannot parse log line {Text.quoted line}"
  | time fault => fault.message

/-- The fields of a line: up to two spaces are taken for separators. -/
def lineFields (cs : List Char) : List (List Char) :=
  match Decimal.splitFirst (· = ' ') cs with
  | (kind, none) => [kind]
  | (kind, some rest) =>
    match Decimal.splitFirst (· = ' ') rest with
    | (time, none) => [kind, time]
    | (time, some data) => [kind, time, data]

/-- The event that three fields record. -/
def ofFields (line : String) (kind time : List Char) (data : Json) : Except LineFault Event :=
  match Decimal.read? (String.ofList time) with
  | none => .error (.unreadable line)
  | some seconds =>
    match Timestamp.ofSeconds seconds with
    | .ok t => .ok ⟨String.ofList kind, t, data⟩
    | .error .tooLarge => .error (.time .tooLarge)
    | .error .yearTooLarge => .error (.time .yearTooLarge)
    | .error _ => .error (.unreadable line)

/-- The event that a line records. Line feeds at its end do not count. -/
def ofLine (line : String) : Except LineFault Event :=
  match lineFields (line.toList.reverse.dropWhile (· = '\n')).reverse with
  | [kind, time] => ofFields line kind time .null
  | [kind, time, data] =>
    match Json.read data with
    | .ok data => ofFields line kind time data
    | .error _ => .error (.unreadable line)
  | _ => .error (.unreadable line)

/-- Adds a character in front of the lines of a text. -/
def consLine (c : Char) (lines : List (List Char)) : List (List Char) :=
  if c = '\n' then [c] :: lines
  else
    match lines with
    | [] => [[c]]
    | first :: rest => (c :: first) :: rest

/-- The lines of a text, each with the line feed that ends it. -/
def linesOf (cs : List Char) : List String := (cs.foldr consLine []).map String.ofList

/-- The events of a log up to the first line that cannot be read. -/
def readLines : List String → List Event × Option LineFault
  | [] => ([], none)
  | line :: rest =>
    match ofLine line with
    | .error fault => ([], some fault)
    | .ok e =>
      let (events, fault) := readLines rest
      (e :: events, fault)

def readLog (text : String) : List Event × Option LineFault := readLines (linesOf text.toList)

end Event

end Chomsky
