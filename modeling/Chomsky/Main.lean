import Std.Time.DateTime.Timestamp
import Chomsky.CommandLine.Run

/-!
# The command

Runs the command line on the real disk and clock. Only the files that the arguments name are looked
at.
-/

namespace Chomsky.CommandLine

/-- The paths that a command line names. -/
def Request.paths : Request → List Path
  | help => []
  | normalize settings => [settings.input, settings.output, settings.log].filterMap id

/-- Whether there is a directory at this path. -/
def isDirectory (p : Path) : IO Bool := do
  try
    discard (IO.FS.realPath (p.text ++ "/."))
    return true
  catch _ => return false

def textOf? (p : Path) : IO (Option String) := do
  try return some (← IO.FS.readFile p.text)
  catch _ => return none

/-- The part of the real disk around these paths. -/
def survey (paths : List Path) : IO Disk := do
  let around := paths.flatMap Path.places
  let directories ← around.filterM isDirectory
  let files ← around.filterMapM fun p => return (← textOf? p).map fun text => (p, text)
  return { files, directories }

end Chomsky.CommandLine

open Chomsky.CommandLine in
def main (args : List String) : IO UInt32 := do
  let paths := match Request.ofArguments args with
    | .ok request => request.paths
    | .error _ => []
  let disk ← survey paths
  let now ← Std.Time.Timestamp.now
  let time := Chomsky.Event.Timestamp.ofMicros (now.toNanosecondsSinceUnixEpoch.val / 1000)
  let (ending, console) := run args { clock := fun _ => time } disk
  IO.print console.out
  IO.eprint console.err
  for (p, text) in console.disk.changedSince disk do IO.FS.writeFile p.text text
  match ending with
  | .exit status => return status.toUInt32
  | .fault fault =>
    IO.eprintln fault.message
    return 1
