import Chomsky.Text.Quoted

/-!
# Paths and disks

A path is a list of names, from the working directory or from a root. Empty names and the name `.`
add nothing to it. A disk holds files, each with its text, and directories. A path leads from name
to name through directories that have to be there, and the name `..` leads up again; a file can be
written only into a directory that is there.
-/

namespace Chomsky.CommandLine

structure Path where
  /-- The slashes that an absolute path begins with. -/
  root : String := ""
  parts : List String
deriving DecidableEq, Repr

namespace Path

/-- Two slashes at the beginning are a root of their own; any other number counts as one. -/
def rootOf (s : String) : String :=
  match (s.toList.takeWhile (· = '/')).length with
  | 0 => ""
  | 2 => "//"
  | _ => "/"

def ofString (s : String) : Path where
  root := rootOf s
  parts := (s.splitOn "/").filter fun part => part ≠ "" && part ≠ "."

/-- The working directory. -/
def here : Path := { parts := [] }

def text (p : Path) : String :=
  if p = here then "." else p.root ++ "/".intercalate p.parts

/-- The directory that a path starts from. All roots are the same directory. -/
def origin (p : Path) : Path := { root := if p.root = "" then "" else "/", parts := [] }

/-- Whether a place is the working directory, a directory above it, or the root. -/
def isAbove (place : Path) : Bool := place.parts.all (· = "..")

/-- Whether a place is in the working directory or below it. -/
def isBelow (place : Path) : Bool := place.root = "" && place.parts.head? ≠ some ".."

/-- The place to which a name leads from a directory. Nothing is above the root. -/
def enter (place : Path) (name : String) : Path :=
  if name ≠ ".." || (place.isAbove && place.root = "") then
    { place with parts := place.parts ++ [name] }
  else { place with parts := place.parts.dropLast }

/-- The places that the names lead through, the last one to which they lead included. -/
def placesFrom (place : Path) : List String → List Path
  | [] => [place]
  | name :: rest => place :: placesFrom (place.enter name) rest

def places (p : Path) : List Path := p.origin.placesFrom p.parts

/-- The most bytes that a name may have. -/
def nameLimit : Nat := 255

/-- The most bytes that the text of a path may have. -/
def textLimit : Nat := 4095

end Path

structure Disk where
  files : List (Path × String)
  directories : List Path
deriving DecidableEq, Repr

namespace Disk

/-- Why a file cannot be opened. -/
inductive Fault where
  | missing (p : Path)
  | notDirectory (p : Path)
  | isDirectory (p : Path)
  /-- The path or a name in it is too long. -/
  | tooLong (p : Path)
  /-- No path holds the null character. -/
  | nullCharacter
deriving DecidableEq, Repr

def Fault.message : Fault → String
  | missing p => s!"[Errno 2] No such file or directory: {Text.quoted p.text}"
  | notDirectory p => s!"[Errno 20] Not a directory: {Text.quoted p.text}"
  | isDirectory p => s!"[Errno 21] Is a directory: {Text.quoted p.text}"
  | tooLong p => s!"[Errno 36] File name too long: {Text.quoted p.text}"
  | nullCharacter => "embedded null byte"

/-- Directories below the root that are always there. -/
def standardDirectories : List Path :=
  ["bin", "dev", "etc", "home", "lib", "mnt", "opt", "proc", "root", "run", "sbin", "srv", "sys",
    "tmp", "usr", "var"].map fun name => { root := "/", parts := [name] }

/-- Files below the root that are always there: one in which nothing is found, and the list of
users. -/
def standardFiles : List (Path × String) :=
  [({ root := "/", parts := ["dev", "null"] }, ""),
   ({ root := "/", parts := ["etc", "passwd"] }, "root:x:0:0:root:/root:/bin/sh\n")]

/-- A working directory with these files, and with the directories that they need. -/
def ofFiles (files : List (Path × String)) : Disk where
  files := files ++ standardFiles
  directories := standardDirectories ++ files.flatMap fun f => f.1.places.dropLast

def hasDirectory (d : Disk) (place : Path) : Bool := place.isAbove || d.directories.contains place

/-- The place to which the names lead from a place, when the path `p` is followed. -/
def follow (d : Disk) (p place : Path) : List String → Except Fault Path
  | [] => .ok place
  | name :: rest =>
    if d.hasDirectory place then
      if Path.nameLimit < name.utf8ByteSize then .error (.tooLong p)
      else d.follow p (place.enter name) rest
    else if d.files.any (·.1 = place) then .error (.notDirectory p)
    else .error (.missing p)

/-- The place of the file at this path, or of the one that may be made there. -/
def locate (d : Disk) (p : Path) : Except Fault Path := do
  if p.parts.any (·.contains '\x00') then throw .nullCharacter
  if Path.textLimit < p.text.utf8ByteSize then throw (.tooLong p)
  let place ← d.follow p p.origin p.parts
  if d.hasDirectory place then throw (.isDirectory p)
  return place

def read (d : Disk) (p : Path) : Except Fault String := do
  let place ← d.locate p
  match d.files.lookup place with
  | some text => return text
  | none => throw (.missing p)

/-- Writes a file, in place of any that is there. -/
def write (d : Disk) (p : Path) (text : String) : Except Fault Disk := do
  let place ← d.locate p
  return { d with files := d.files.filter (·.1 ≠ place) ++ [(place, text)] }

/-- The files that are not in an earlier state of the disk, or have another text there. -/
def changedSince (d earlier : Disk) : List (Path × String) :=
  d.files.filter fun f => earlier.files.lookup f.1 ≠ some f.2

end Disk

end Chomsky.CommandLine
